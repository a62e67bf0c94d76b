import ClAmiga.BindTab.Accepted

/-!
# What the probe finds

On an accepted table the binary search finds the first entry of a name, the walk over its
variants the first one whose guard is satisfied, and names of up to 256 bytes fit the buffers
they are copied to.
-/

namespace ClAmiga.BindTab

open Wire

/-- The first entry of a name whose guard is satisfied. -/
def variant (v : View) (guards : Guards) (name : List UInt8) : Option Nat :=
  (List.range v.n).find? fun j => decide (nameAt v j = name) && guardOk guards (decodeEntry v j)

/-- What the table has for a name: its first entry, with the first variant whose guard is
satisfied; or, when it holds no entry of the name, the field whose setter the name is. -/
def probeSpec (v : View) (guards : Guards) (name : List UInt8) (allowSetter : Bool) : Option Hit :=
  match (List.range v.n).find? fun i => decide (nameAt v i = name) with
  | some i =>
      some ⟨i, variant v guards name, false⟩
  | none =>
      if allowSetter then
        ((List.range v.n).find? fun i =>
          (decodeEntry v i).writable && decide (setPrefix ++ nameAt v i = name)).map fun i =>
            ⟨i, some i, true⟩
      else none

def preparedOf (v : View) (nameIdx : Nat) (defIdx : Option Nat) : Prepared where
  name := nameAt v nameIdx
  definition := defIdx.map fun j =>
    let e := decodeEntry v j
    (e, if e.isValue then some (decodeValue v e) else none)
  setterName := defIdx.bind fun j =>
    if (decodeEntry v j).writable then some (setPrefix ++ nameAt v nameIdx) else none

variable {blob : List UInt8} {v : View}

def IsLowerBound (v : View) (name : List UInt8) (k : Nat) : Prop :=
  Search.IsPartitionPoint (fun i => !nameLe name (nameAt v i)) v.n k

theorem Accepted.lowerBound (accepted : Accepted blob v) (name : List UInt8) :
    ∃ k, BindTab.lowerBound blob v name = some k ∧ IsLowerBound v name k := by
  refine Search.partitionPoint_spec (fun i inside => ?_) fun i j upTo inside less => ?_
  · rw [nameBelow, accepted.readEntry inside, Option.bind_eq_bind, Option.bind_some,
      (accepted.readName inside).1, Option.bind_eq_bind, Option.bind_some]
  · rw [Bool.not_eq_true'] at less ⊢
    cases notGreater : nameLe name (nameAt v i) with
    | false => rfl
    | true => rw [nameLe_trans notGreater (accepted.sorted upTo inside)] at less; cases less

theorem Accepted.entryNameIs (accepted : Accepted blob v) (i : Nat) (name : List UInt8) :
    BindTab.entryNameIs blob v i name = some (decide (i < v.n ∧ nameAt v i = name)) := by
  rw [BindTab.entryNameIs]
  split
  · next outside => simp [Nat.not_lt.mpr outside]
  · next inside =>
      have within := Nat.lt_of_not_le inside
      obtain ⟨read, length⟩ := accepted.readName within
      rw [accepted.readEntry within, Option.bind_eq_bind, Option.bind_some]
      split
      · rw [read, Option.bind_eq_bind, Option.bind_some]
        simp [within]
      · next different =>
          have other : ¬ nameAt v i = name := by
            rintro rfl
            exact different length.symm
          simp [other]

variable {name : List UInt8}

theorem IsLowerBound.ne_of_lt {k i : Nat} (bound : IsLowerBound v name k)
    (below : i < k) : nameAt v i ≠ name := by
  rintro rfl
  have less := bound.below i below
  rw [nameLe_refl] at less
  cases less

theorem IsLowerBound.eq_of_le {k i j : Nat} (accepted : Accepted blob v)
    (bound : IsLowerBound v name k) (from' : k ≤ i) (upTo : i ≤ j) (inside : j < v.n)
    (named : nameAt v j = name) : nameAt v i = name := by
  have atLeast := bound.above i from' (Nat.lt_of_le_of_lt upTo inside)
  rw [Bool.not_eq_false'] at atLeast
  have sorted := accepted.sorted upTo inside
  rw [named] at sorted
  exact nameLe_antisymm sorted atLeast

theorem IsLowerBound.find {k : Nat} (accepted : Accepted blob v) (bound : IsLowerBound v name k) :
    (List.range v.n).find? (fun i => decide (nameAt v i = name)) =
      if k < v.n ∧ nameAt v k = name then some k else none := by
  split
  · next here =>
      rw [List.find?_range_eq_some]
      refine ⟨by simpa using here.2, List.mem_range.mpr here.1, fun j below => ?_⟩
      simpa using bound.ne_of_lt below
  · next absent =>
      rw [List.find?_range_eq_none]
      intro i inside
      rw [Bool.not_eq_true', decide_eq_false_iff_not]
      intro named
      by_cases below : i < k
      · exact bound.ne_of_lt below named
      · have reached := Nat.le_of_not_lt below
        exact absent ⟨Nat.lt_of_le_of_lt reached inside,
          bound.eq_of_le accepted (Nat.le_refl k) reached inside named⟩

theorem Accepted.firstVariant_from (accepted : Accepted blob v) (guards : Guards)
    {k : Nat} (bound : IsLowerBound v name k) (left : Nat) :
    ∀ j, k ≤ j → v.n - j ≤ left → firstVariant blob v guards name left j =
        some ((List.range' j (v.n - j)).find? fun i =>
          decide (nameAt v i = name) && guardOk guards (decodeEntry v i)) := by
  induction left with
  | zero =>
      intro j _ short
      rw [Nat.le_zero.mp short]
      rfl
  | succ left induction =>
      intro j reached short
      rw [firstVariant, accepted.entryNameIs, Option.bind_eq_bind, Option.bind_some]
      by_cases here : j < v.n ∧ nameAt v j = name
      · obtain ⟨inside, named⟩ := here
        obtain ⟨more, count⟩ : ∃ more, v.n - j = more + 1 := ⟨v.n - j - 1, by omega⟩
        have rest : v.n - (j + 1) = more := by omega
        have later := induction (j + 1) (Nat.le_succ_of_le reached) (by omega)
        rw [rest] at later
        rw [count, List.range'_succ, List.find?_cons, accepted.readEntry inside]
        simp only [inside, named, and_self, decide_true, if_true, Option.bind_eq_bind,
          Option.bind_some, Bool.true_and, later]
        cases guardOk guards (decodeEntry v j) <;> rfl
      · simp only [here, decide_false, Bool.false_eq_true, if_false]
        congr 1
        symm
        rw [List.find?_eq_none]
        intro i member
        obtain ⟨from', inside⟩ := List.mem_range'_1.mp member
        have within : i < v.n := by omega
        rw [Bool.and_eq_true, decide_eq_true_eq]
        rintro ⟨named, -⟩
        exact here ⟨Nat.lt_of_le_of_lt from' within,
          bound.eq_of_le accepted reached from' within named⟩

theorem Accepted.firstVariant (accepted : Accepted blob v) (guards : Guards)
    {k : Nat} (bound : IsLowerBound v name k) :
    BindTab.firstVariant blob v guards name v.n k = some (variant v guards name) := by
  have parts : List.range v.n = List.range k ++ List.range' k (v.n - k) := by
    have joined : List.range' 0 k ++ List.range' (0 + k) (v.n - k) =
        List.range' 0 (k + (v.n - k)) :=
      List.range'_append_1
    rw [Nat.zero_add, Nat.add_sub_cancel' bound.inside] at joined
    rw [List.range_eq_range', List.range_eq_range', joined]
  have below : (List.range k).find? (fun i =>
      decide (nameAt v i = name) && guardOk guards (decodeEntry v i)) = none := by
    rw [List.find?_range_eq_none]
    intro i less
    simp [bound.ne_of_lt less]
  rw [accepted.firstVariant_from guards bound v.n k (Nat.le_refl k) (Nat.sub_le _ _), variant,
    parts, List.find?_append, below, Option.none_or]

theorem setter_iff (front : name.take 5 = setPrefix) (field : List UInt8) :
    setPrefix ++ field = name ↔ field = name.drop 5 := by
  constructor
  · rintro rfl
    exact (List.drop_left : (setPrefix ++ field).drop setPrefix.length = field).symm
  · rintro rfl
    rw [← front, List.take_append_drop]

theorem take_setter (field : List UInt8) : (setPrefix ++ field).take 5 = setPrefix :=
  (List.take_left : (setPrefix ++ field).take setPrefix.length = setPrefix)

theorem Accepted.nameAt_ne_nil (accepted : Accepted blob v) {i : Nat} (inside : i < v.n) :
    nameAt v i ≠ [] := by
  obtain ⟨nonempty, -, -⟩ := checkEntry_none (accepted.entry i inside)
  have length := (accepted.readName inside).2
  rintro empty
  rw [empty] at length
  exact nonempty length.symm

theorem IsLowerBound.find_writable {field : List UInt8} {k : Nat} (accepted : Accepted blob v)
    (bound : IsLowerBound v field k) :
    (List.range v.n).find? (fun i =>
        (decodeEntry v i).writable && decide (nameAt v i = field)) =
      if k < v.n ∧ nameAt v k = field then
        if (decodeEntry v k).writable then some k else none
      else none := by
  have first := bound.find accepted
  split
  · next here =>
      obtain ⟨inside, named⟩ := here
      split
      · next writable =>
          rw [List.find?_range_eq_some]
          refine ⟨by simp [writable, named], List.mem_range.mpr inside, fun j below => ?_⟩
          simp [bound.ne_of_lt below]
      · next readOnly =>
          rw [List.find?_range_eq_none]
          intro i within
          rw [Bool.not_eq_true', Bool.and_eq_false_imp, decide_eq_false_iff_not]
          intro writable same
          rcases Nat.lt_trichotomy i k with below | rfl | above
          · exact bound.ne_of_lt below same
          · exact readOnly writable
          · have call := (accepted.libcall_of_same above within (named.trans same.symm)).2
            rw [Entry.writable, decide_eq_true_eq, call] at writable
            exact absurd writable.1 (by decide)
  · next absent =>
      rw [if_neg absent, List.find?_range_eq_none] at first
      rw [List.find?_range_eq_none]
      intro i within
      have other := first i within
      simp only [Bool.not_eq_true', decide_eq_false_iff_not] at other
      simp [other]

theorem Accepted.probeNolock (accepted : Accepted blob v) (guards : Guards) (name : List UInt8)
    (allowSetter : Bool) :
    BindTab.probeNolock (some blob) guards name allowSetter =
      some (probeSpec v guards name allowSetter) := by
  obtain ⟨k, search, bound⟩ := accepted.lowerBound name
  have found := bound.find accepted
  simp only [BindTab.probeNolock, accepted.readView, search, accepted.entryNameIs,
    Option.bind_eq_bind, Option.bind_some, probeSpec]
  rw [found]
  by_cases here : k < v.n ∧ nameAt v k = name
  · simp only [here, and_self, decide_true, if_true, accepted.firstVariant guards bound,
      Option.bind_some]
  · simp only [here, decide_false, Bool.false_eq_true, if_false]
    by_cases setter : 5 < name.length ∧ name.take 5 = setPrefix
    · obtain ⟨i, fieldSearch, fieldBound⟩ := accepted.lowerBound (name.drop 5)
      have field := fieldBound.find_writable accepted
      simp only [setter, and_self, and_true, setter_iff setter.2, field, fieldSearch,
        Option.bind_some]
      cases allowSetter with
      | false => rfl
      | true =>
          simp only [if_true]
          by_cases there : i < v.n ∧ nameAt v i = name.drop 5
          · simp only [there, and_self, decide_true, if_true, accepted.readEntry there.1,
              Option.bind_some]
            split <;> rfl
          · simp only [there, decide_false, Bool.false_eq_true, if_false]
            rfl
    · have none : (List.range v.n).find? (fun i =>
          (decodeEntry v i).writable && decide (setPrefix ++ nameAt v i = name)) = none := by
        rw [List.find?_range_eq_none]
        intro i inside
        rw [Bool.not_eq_true', Bool.and_eq_false_imp, decide_eq_false_iff_not]
        rintro - rfl
        have some := List.length_pos_of_ne_nil (accepted.nameAt_ne_nil inside)
        refine setter ⟨?_, take_setter _⟩
        rw [List.length_append, show setPrefix.length = 5 from rfl]
        omega
      rw [none, if_neg fun both => setter both.2]
      cases allowSetter <;> rfl

theorem Accepted.copyName (accepted : Accepted blob v) {i : Nat} (inside : i < v.n)
    (short : (decodeEntry v i).nameLen ≤ 256) : copyTo 256 (nameAt v i) = some (nameAt v i) :=
  copyTo_eq ((accepted.readName inside).2.trans_le short)

theorem Accepted.prepare (accepted : Accepted blob v) {nameIdx : Nat} {defIdx : Option Nat}
    (inside : nameIdx < v.n) (short : (decodeEntry v nameIdx).nameLen ≤ 256)
    (defInside : ∀ j, defIdx = some j → j < v.n) :
    BindTab.prepare blob nameIdx defIdx = some (preparedOf v nameIdx defIdx) := by
  rw [BindTab.prepare, accepted.readView, Option.bind_eq_bind, Option.bind_some,
    accepted.readEntry inside, Option.bind_eq_bind, Option.bind_some,
    (accepted.readName inside).1, Option.bind_eq_bind, Option.bind_some,
    accepted.copyName inside short, Option.bind_eq_bind, Option.bind_some]
  cases defIdx with
  | none => rfl
  | some j =>
      have within := defInside j rfl
      have setterFits : (setPrefix ++ nameAt v nameIdx).length ≤ 262 := by
        rw [List.length_append, (accepted.readName inside).2, show setPrefix.length = 5 from rfl]
        omega
      dsimp only
      rw [accepted.readEntry within, Option.bind_eq_bind, Option.bind_some]
      cases value : (decodeEntry v j).isValue with
      | true =>
          rw [if_pos rfl, accepted.readValue within value, Option.map_some, Option.bind_some]
          cases writable : (decodeEntry v j).writable with
          | true => simp [copyTo_eq setterFits, preparedOf, value, writable]
          | false => simp [preparedOf, value, writable]
      | false =>
          rw [if_neg Bool.false_ne_true, Option.bind_some]
          cases writable : (decodeEntry v j).writable with
          | true => simp [copyTo_eq setterFits, preparedOf, value, writable]
          | false => simp [preparedOf, value, writable]

theorem entryRow_of_not_isValue {e : Entry} (other : e.isValue = false) (name : List UInt8)
    (first second : Value) : entryRow e name first = entryRow e name second := by
  simp only [entryRow, if_neg (of_decide_eq_false other)]

theorem Accepted.listRound (accepted : Accepted blob v) {i : Nat} (inside : i < v.n)
    (short : (decodeEntry v i).nameLen ≤ 256) :
    BindTab.listRound blob i = some (rowOf v (decodeEntry v i)) := by
  rw [BindTab.listRound, accepted.readView, Option.bind_eq_bind, Option.bind_some,
    accepted.readEntry inside, Option.bind_eq_bind, Option.bind_some,
    (accepted.readName inside).1, Option.bind_eq_bind, Option.bind_some,
    accepted.copyName inside short, Option.bind_eq_bind, Option.bind_some]
  cases value : (decodeEntry v i).isValue with
  | true =>
      rw [if_pos rfl, accepted.readValue inside value, Option.bind_some]
      rfl
  | false =>
      rw [if_neg Bool.false_ne_true, Option.bind_some, rowOf, nameAt]
      exact congrArg some (entryRow_of_not_isValue value _ _ _)

theorem variant_lt {guards : Guards} {j : Nat} (found : variant v guards name = some j) : j < v.n :=
  List.mem_range.mp (List.mem_of_find?_eq_some found)

theorem Accepted.repeatsName (accepted : Accepted blob v) {i : Nat} (inside : i < v.n) :
    BindTab.repeatsName blob v i (decodeEntry v i) =
      some (decide (0 < i ∧ nameAt v (i - 1) = nameAt v i)) := by
  cases i with
  | zero => rfl
  | succ j =>
      have before := Nat.lt_of_succ_lt inside
      obtain ⟨read, length⟩ := accepted.readName inside
      obtain ⟨readBefore, lengthBefore⟩ := accepted.readName before
      rw [BindTab.repeatsName, accepted.readEntry before, Option.bind_eq_bind, Option.bind_some]
      split
      · rw [read, readBefore, Option.bind_eq_bind, Option.bind_some, Option.bind_some]
        simp
      · next different =>
          have other : ¬ nameAt v j = nameAt v (j + 1) := by
            intro same
            rw [← length, ← lengthBefore, same] at different
            exact different rfl
          simp [other]

theorem Accepted.find_self (accepted : Accepted blob v) {i : Nat} (inside : i < v.n)
    (fresh : ¬ (0 < i ∧ nameAt v (i - 1) = nameAt v i)) :
    (List.range v.n).find? (fun j => decide (nameAt v j = nameAt v i)) = some i := by
  rw [List.find?_range_eq_some]
  refine ⟨by simp, List.mem_range.mpr inside, fun j before => ?_⟩
  rw [Bool.not_eq_true', decide_eq_false_iff_not]
  intro same
  have upTo := accepted.sorted (show j ≤ i - 1 by omega) (show i - 1 < v.n by omega)
  rw [same] at upTo
  have last := accepted.sorted (Nat.sub_le i 1) inside
  exact fresh ⟨by omega, nameLe_antisymm last upTo⟩

theorem Accepted.materializeRound (accepted : Accepted blob v) (guards : Guards)
    (present : List UInt8 → Bool) {i : Nat} (inside : i < v.n)
    (short : (decodeEntry v i).nameLen ≤ 256) :
    BindTab.materializeRound blob guards present i =
      some (if (0 < i ∧ nameAt v (i - 1) = nameAt v i) ∨ present (nameAt v i) then none
        else some (preparedOf v i (variant v guards (nameAt v i)))) := by
  rw [BindTab.materializeRound, accepted.readView, Option.bind_eq_bind, Option.bind_some,
    accepted.readEntry inside, Option.bind_eq_bind, Option.bind_some, accepted.repeatsName inside,
    Option.bind_eq_bind, Option.bind_some]
  by_cases again : 0 < i ∧ nameAt v (i - 1) = nameAt v i
  · simp [again]
  · rw [if_neg (by simpa using again), (accepted.readName inside).1, Option.bind_eq_bind,
      Option.bind_some, accepted.copyName inside short, Option.bind_eq_bind, Option.bind_some]
    cases here : present (nameAt v i) with
    | true => simp
    | false =>
        have within : ∀ j, variant v guards (nameAt v i) = some j → j < v.n := fun j => variant_lt
        have prepared := accepted.prepare inside short within
        rw [if_neg Bool.false_ne_true, accepted.probeNolock, Option.bind_some, probeSpec,
          accepted.find_self inside again]
        simp only [again, Bool.false_eq_true, or_self, if_false, prepared, Option.map_some]

/-- On an accepted table the probe finds what the table has for a name; and when no name is
longer than 256 bytes, every entry is decoded, materialised and listed from bytes of the blob,
through buffers that are large enough. -/
theorem probe_copies {blob : List UInt8} (passed : validateBlob blob = none)
    (short : ∀ i < (viewBlob blob).n, (decodeEntry (viewBlob blob) i).nameLen ≤ 256)
    (guards : Guards) (name : List UInt8) (allowSetter : Bool) (present : List UInt8 → Bool) :
    let v := viewBlob blob
    probeNolock (some blob) guards name allowSetter = some (probeSpec v guards name allowSetter) ∧
      (∀ hit, probeSpec v guards name allowSetter = some hit →
        prepare blob hit.nameIdx hit.defIdx = some (preparedOf v hit.nameIdx hit.defIdx)) ∧
      ∀ i < v.n, readEntry blob v i = some (decodeEntry v i) ∧
          readName blob v (decodeEntry v i) = some (nameAt v i) ∧
          ((decodeEntry v i).isValue → readValue blob v (decodeEntry v i) =
            some (decodeValue v (decodeEntry v i))) ∧
          materializeRound blob guards present i =
            some (if (0 < i ∧ nameAt v (i - 1) = nameAt v i) ∨ present (nameAt v i) then none
              else some (preparedOf v i (variant v guards (nameAt v i)))) ∧
          listRound blob i = some (rowOf v (decodeEntry v i)) := by
  intro v
  have accepted : Accepted blob v := accepted_of_validateBlob passed
  refine ⟨accepted.probeNolock guards name allowSetter, fun hit found => ?_, fun i inside => ?_⟩
  · have inside : ∀ {p : Nat → Bool} {i : Nat}, (List.range v.n).find? p = some i → i < v.n :=
      fun found => List.mem_range.mp (List.mem_of_find?_eq_some found)
    rw [probeSpec] at found
    split at found
    · next i first =>
        obtain rfl := Option.some.inj found
        exact accepted.prepare (inside first) (short i (inside first)) fun j => variant_lt
    · split at found
      · obtain ⟨i, field, rfl⟩ := Option.map_eq_some_iff.mp found
        refine accepted.prepare (inside field) (short i (inside field)) fun j same => ?_
        obtain rfl := Option.some.inj same
        exact inside field
      · cases found
  · exact ⟨accepted.readEntry inside, (accepted.readName inside).1, accepted.readValue inside,
      accepted.materializeRound guards present inside (short i inside),
      accepted.listRound inside (short i inside)⟩

def singleton (kind flags d : Nat) (name : List UInt8) : List UInt8 :=
  headerBytes 1 name.length false ++
    (encodeEntry ⟨0, name.length, kind, flags, 0, 0, 0, d⟩ ++ name)

/-- The field `X` of a structure, only when `:MORPHOS` is present. -/
def guardedField : List UInt8 :=
  singleton Kind.field.code flagMorphos stubPeek [0x58]

/-- The constant `BIG`, two variants of `SHOW`, and a structure with two fields. -/
def windowBlob : List UInt8 :=
  blobOf [winSizeRec, bigRec, showRec, showMorphosRec, winDataRec, winLeftRec]
    [5, 1, 16, 0, 0, 0, 7] true

/-- With `:MORPHOS` the guard of the first `SHOW` is not satisfied, and `WIN-LEFT` has a setter. -/
theorem probe_copies_window : (probeNolock (some windowBlob) ⟨true, none⟩ (bytesOf "SHOW") true =
        some (some ⟨2, some 3, false⟩) ∧
      prepare windowBlob 2 (some 3) = some (preparedOf (viewBlob windowBlob) 2 (some 3))) ∧
    (probeNolock (some windowBlob) ⟨true, none⟩ (setPrefix ++ bytesOf "WIN-LEFT") true =
        some (some ⟨5, some 5, true⟩) ∧
      prepare windowBlob 5 (some 5) = some (preparedOf (viewBlob windowBlob) 5 (some 5))) := by
  have passed : validateBlob windowBlob = none := by decide +kernel
  have short : ∀ i < (viewBlob windowBlob).n,
      (decodeEntry (viewBlob windowBlob) i).nameLen ≤ 256 := by decide +kernel
  obtain ⟨named, copied, _⟩ := probe_copies passed short ⟨true, none⟩ (bytesOf "SHOW") true
    fun _ => false
  obtain ⟨setter, field, _⟩ := probe_copies passed short ⟨true, none⟩
    (setPrefix ++ bytesOf "WIN-LEFT") true fun _ => false
  have variants : probeSpec (viewBlob windowBlob) ⟨true, none⟩ (bytesOf "SHOW") true =
      some ⟨2, some 3, false⟩ := by decide +kernel
  have writable : probeSpec (viewBlob windowBlob) ⟨true, none⟩
      (setPrefix ++ bytesOf "WIN-LEFT") true = some ⟨5, some 5, true⟩ := by decide +kernel
  refine ⟨⟨?_, ?_⟩, ?_, ?_⟩
  · rw [named, variants]
  · simpa only using copied _ variants
  · rw [setter, writable]
  · simpa only using field _ writable

/-- The setter of a field is found though the guard of the field is not satisfied; and a name
of 257 bytes passes the validation, is found, and does not fit the buffer it is copied to. -/
theorem setter_unguarded_name_overflows : (validateBlob guardedField = none ∧
      probeNolock (some guardedField) ⟨false, none⟩ [0x58] true = some (some ⟨0, none, false⟩) ∧
      probeNolock (some guardedField) ⟨false, none⟩ (setPrefix ++ [0x58]) true =
        some (some ⟨0, some 0, true⟩)) ∧
    (let name := List.replicate 257 0x41
     let blob := singleton Kind.name.code 0 0 name
     validateBlob blob = none ∧
       probeNolock (some blob) ⟨false, none⟩ name true = some (some ⟨0, some 0, false⟩) ∧
       prepare blob 0 (some 0) = none ∧ listRound blob 0 = none) := by
  refine ⟨⟨by decide, by decide, by decide⟩, by decide +kernel, by decide +kernel,
    by decide +kernel, ?_⟩
  exact Option.isNone_iff_eq_none.mp (by decide +kernel)

end ClAmiga.BindTab
