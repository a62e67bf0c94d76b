import ClAmiga.Sequence.ListSort

/-!
# The insertion sorts of the arrays

Every round inserts one element into those sorted before, whatever the predicate answers.  Where
the calls have fixed results, the element is inserted behind the elements it is not before.
-/

namespace ClAmiga.Sequence

open Sorting (StrictWeakOn Stable)

variable {σ κ : Type} {calls : Calls σ κ}

def elements (length : Nat) (data : Nat → Obj) : List Obj :=
  (List.range length).map data

theorem elements_succ (length : Nat) (data : Nat → Obj) :
    elements (length + 1) data = elements length data ++ [data length] := by
  rw [elements, List.range_succ, List.map_append]
  rfl

@[simp] theorem length_elements (length : Nat) (data : Nat → Obj) :
    (elements length data).length = length := by
  rw [elements, List.length_map, List.length_range]

@[simp] theorem getElem_elements {length i : Nat} {data : Nat → Obj}
    (within : i < (elements length data).length) : (elements length data)[i] = data i := by
  simp [elements]

theorem take_elements {place length : Nat} {data : Nat → Obj} (within : place ≤ length) :
    (elements length data).take place = elements place data := by
  rw [elements, ← List.map_take, List.take_range, Nat.min_eq_left within]
  rfl

theorem elements_congr {length : Nat} {data data' : Nat → Obj}
    (same : ∀ i, i < length → data i = data' i) : elements length data = elements length data' :=
  List.map_congr_left fun i member => same i (List.mem_range.mp member)

structure Shifted (data data' : Nat → Obj) (place hole : Nat) : Prop where
  within : place ≤ hole
  below : ∀ i, i < place → data' i = data i
  moved : ∀ i, place ≤ i → i < hole → data' (i + 1) = data i
  above : ∀ i, hole < i → data' i = data i

/-- The key is before that of an element. -/
def Calls.shifts (calls : Calls σ κ) (kval : κ) (x : Obj) (s : σ) : Bool × σ :=
  let (kj, s) := calls.key x s
  calls.pred kval kj s

theorem shiftUp_succ (kval : κ) (j : Nat) (data : Nat → Obj) (s : σ) :
    shiftUp calls kval (j + 1) data s =
      if (calls.shifts kval (data j) s).1 then
        shiftUp calls kval j (Function.update data (j + 1) (data j))
          (calls.shifts kval (data j) s).2
      else (j + 1, data, (calls.shifts kval (data j) s).2) := rfl

theorem Calls.Results.shifts {key : Obj → κ} {less : κ → κ → Bool}
    (results : calls.Results key less) (kval : κ) (x : Obj) (s : σ) :
    (calls.shifts kval x s).1 = less kval (key x) := by
  rw [Calls.shifts]
  change (calls.pred kval (calls.key x s).1 _).1 = _
  rw [results.pred, results.key]

/-- The elements above the hole move up by one. -/
theorem shiftUp_spec (kval : κ) (hole : Nat) (data : Nat → Obj) (s : σ) :
    Shifted data (shiftUp calls kval hole data s).2.1 (shiftUp calls kval hole data s).1 hole := by
  induction hole generalizing data s with
  | zero => exact ⟨Nat.le_refl _, fun _ _ => rfl, fun i _ below => by omega, fun _ _ => rfl⟩
  | succ j induction =>
      rw [shiftUp_succ]
      cases (calls.shifts kval (data j) s).1 with
      | false =>
          exact ⟨Nat.le_refl _, fun _ _ => rfl, fun i from' under => by
            have over' : j + 1 ≤ i := from'
            omega, fun _ _ => rfl⟩
      | true =>
          obtain ⟨within, below, moved, above⟩ :=
            induction (Function.update data (j + 1) (data j)) (calls.shifts kval (data j) s).2
          refine ⟨Nat.le_succ_of_le within, fun i under => ?_, fun i from' under => ?_,
            fun i over' => ?_⟩
          · have early : i ≠ j + 1 := by
              have place : i < (shiftUp calls kval j _ _).1 := under
              omega
            exact (below i under).trans (Function.update_of_ne early ..)
          · rcases Nat.lt_succ_iff_lt_or_eq.mp under with before | rfl
            · exact (moved i from' before).trans (Function.update_of_ne (by omega) ..)
            · exact (above (i + 1) (Nat.lt_succ_self i)).trans (Function.update_self ..)
          · exact (above i (by omega)).trans (Function.update_of_ne (by omega) ..)

/-- The place of a key, where the calls have fixed results: behind the last element that the
key is not before. -/
theorem shiftUp_place {key : Obj → κ} {less : κ → κ → Bool} (results : calls.Results key less)
    (kval : κ) (hole : Nat) (data : Nat → Obj) (s : σ) :
    (∀ i, (shiftUp calls kval hole data s).1 ≤ i → i < hole → less kval (key (data i)) = true) ∧
      ∀ i, i + 1 = (shiftUp calls kval hole data s).1 → less kval (key (data i)) = false := by
  induction hole generalizing data s with
  | zero => exact ⟨fun i _ below => by omega, fun i last => by rw [shiftUp] at last; omega⟩
  | succ j induction =>
      rw [shiftUp_succ, results.shifts]
      cases before : less kval (key (data j)) with
      | false =>
          refine ⟨fun i from' under => ?_, fun i last => ?_⟩
          · have over' : j + 1 ≤ i := from'
            omega
          · obtain rfl : i = j := Nat.succ_inj.mp last
            exact before
      | true =>
          have within := (@shiftUp_spec _ _ calls kval j (Function.update data (j + 1) (data j))
            (calls.shifts kval (data j) s).2).within
          obtain ⟨behind, last⟩ :=
            induction (Function.update data (j + 1) (data j)) (calls.shifts kval (data j) s).2
          refine ⟨fun i from' under => ?_, fun i here => ?_⟩
          · rcases Nat.lt_succ_iff_lt_or_eq.mp under with earlier | rfl
            · have found := behind i from' earlier
              rwa [Function.update_of_ne (by omega)] at found
            · exact before
          · have place : i + 1 = (shiftUp calls kval j _ _).1 := here
            have found := last i place
            rwa [Function.update_of_ne (by omega)] at found

theorem Shifted.inserted {data data' : Nat → Obj} {place hole : Nat} (v : Obj)
    (shifted : Shifted data data' place hole) :
    elements (hole + 1) (Function.update data' place v) =
      (elements hole data).take place ++ v :: (elements hole data).drop place := by
  have within := shifted.within
  refine List.ext_getElem (by simp; omega) fun i left right => ?_
  simp only [length_elements] at left
  rw [getElem_elements]
  rcases Nat.lt_trichotomy i place with below | rfl | beyond
  · rw [Function.update_of_ne (by omega), List.getElem_append_left (by simp; omega),
      List.getElem_take, getElem_elements, shifted.below i below]
  · simp [Nat.min_eq_left within]
  · obtain ⟨i, rfl⟩ : ∃ k, i = k + 1 := ⟨i - 1, by omega⟩
    have length : ((elements hole data).take place).length = place := by
      simp [Nat.min_eq_left within]
    rw [Function.update_of_ne (by omega), shifted.moved i (Nat.le_of_lt_succ beyond) (by omega),
      List.getElem_append_right (by omega)]
    simp only [length]
    have step : i + 1 - place = i - place + 1 := by omega
    simp only [step, List.getElem_cons_succ, List.getElem_drop, getElem_elements]
    congr 1
    omega

/-- The element goes behind the last one it is not less than. -/
theorem insertElement_spec (calls : Calls σ κ) (i : Nat) (data : Nat → Obj) (s : σ) :
    ∃ front back, elements i data = front ++ back ∧
      elements (i + 1) (insertElement calls i data s).1 = front ++ data i :: back ∧
      (∀ j, i < j → (insertElement calls i data s).1 j = data j) ∧
        ∀ key less, calls.Results key less →
          (∀ x ∈ front.getLast?, byKey key less (data i) x = false) ∧
            ∀ x ∈ back, byKey key less (data i) x = true := by
  have shifted := @shiftUp_spec _ _ calls (calls.key (data i) s).1 i data (calls.key (data i) s).2
  generalize found : shiftUp calls (calls.key (data i) s).1 i data (calls.key (data i) s).2 = shift
    at shifted
  obtain ⟨place, data', s'⟩ := shift
  have round : insertElement calls i data s = (Function.update data' place (data i), s') := by
    rw [insertElement]
    simp only [found]
  refine ⟨(elements i data).take place, (elements i data).drop place,
    (List.take_append_drop ..).symm, ?_, fun j beyond => ?_, fun key less results => ?_⟩
  · rw [round]
    exact shifted.inserted (data i)
  · have within := shifted.within
    rw [round]
    exact (Function.update_of_ne (by omega) ..).trans (shifted.above j beyond)
  · obtain ⟨behind, last⟩ :=
      shiftUp_place results (calls.key (data i) s).1 i data (calls.key (data i) s).2
    rw [found, results.key] at behind last
    refine ⟨fun x isLast => ?_, fun x member => ?_⟩
    · rw [take_elements shifted.within] at isLast
      match place with
      | 0 => cases isLast
      | j + 1 =>
          rw [elements_succ, List.getLast?_concat] at isLast
          obtain rfl := Option.mem_some.mp isLast
          exact last j rfl
    · obtain ⟨j, within, rfl⟩ := List.mem_iff_getElem.mp member
      rw [List.getElem_drop, getElem_elements]
      rw [List.length_drop, length_elements] at within
      exact behind (place + j) (Nat.le_add_right ..) (by omega)

/-- The result is a permutation, and the stable sort for a strict weak order. -/
theorem vectorInsertionSort_spec (calls : Calls σ κ) (rounds : Nat) (data : Nat → Obj) (s : σ) :
    (elements (rounds + 1) (vectorInsertionSort calls rounds data s).1).Perm
        (elements (rounds + 1) data) ∧
      (∀ j, rounds < j → (vectorInsertionSort calls rounds data s).1 j = data j) ∧
        ∀ key less, calls.Results key less →
          StrictWeakOn (byKey key less) (elements (rounds + 1) data) →
            Stable (byKey key less) (elements (rounds + 1) data)
              (elements (rounds + 1) (vectorInsertionSort calls rounds data s).1) := by
  induction rounds with
  | zero =>
      exact ⟨.refl _, fun _ _ => rfl, fun _ _ _ _ => Sorting.stable_singleton (data 0)⟩
  | succ rounds induction =>
      obtain ⟨perm, rest, stable⟩ := induction
      obtain ⟨front, back, sorted, inserted, above, place⟩ :=
        insertElement_spec calls (rounds + 1) (vectorInsertionSort calls rounds data s).1
          (vectorInsertionSort calls rounds data s).2
      have next := rest (rounds + 1) (Nat.lt_succ_self rounds)
      rw [next] at inserted place
      rw [sorted] at perm stable
      rw [vectorInsertionSort]
      refine ⟨?_, fun j beyond => ?_, fun key less results order => ?_⟩
      · rw [inserted, elements_succ (rounds + 1)]
        exact List.perm_middle.trans ((perm.cons _).trans (List.perm_append_singleton ..).symm)
      · exact (above j beyond).trans (rest j (Nat.lt_of_succ_lt beyond))
      · rw [inserted, elements_succ (rounds + 1)]
        rw [elements_succ (rounds + 1)] at order
        have before := stable key less results (order.mono (List.subset_append_left ..))
        exact before.insert_on order (place key less results).1 (place key less results).2

theorem vectorInsertionSort_stable (calls : Calls σ κ) (length : Nat) (data : Nat → Obj) (s : σ) :
    (elements length (vectorInsertionSort calls (length - 1) data s).1).Perm
        (elements length data) ∧
      ∀ key less, calls.Results key less → StrictWeakOn (byKey key less) (elements length data) →
          Stable (byKey key less) (elements length data)
            (elements length (vectorInsertionSort calls (length - 1) data s).1) := by
  cases length with
  | zero => exact ⟨.refl _, fun _ _ _ _ => ⟨.refl _, .nil, fun _ _ => rfl⟩⟩
  | succ length =>
      have spec := vectorInsertionSort_spec calls length data s
      exact ⟨spec.1, spec.2.2⟩

def Contents.Accepts : Contents → Obj → Prop
  | .vector _, _ => True
  | .string _, .char _ => True
  | .bits _, .fixnum n => n = 0 ∨ n = 1
  | .bytes width isSigned _, .fixnum n =>
      (if isSigned then (BitVec.ofInt width n).toInt else ((BitVec.ofInt width n).toNat : Int)) = n
  | _, _ => False

theorem Contents.accepts_elt (contents : Contents) (i : Nat) :
    contents.Accepts (contents.elt i) := by
  cases contents with
  | vector data => trivial
  | string codes => trivial
  | bits data =>
      rw [Contents.elt]
      cases data i with
      | false => exact .inl rfl
      | true => exact .inr rfl
  | bytes width isSigned data =>
      cases isSigned with
      | false => simp [Contents.elt, Contents.Accepts]
      | true => simp [Contents.elt, Contents.Accepts]

theorem Contents.elt_set {contents : Contents} {x : Obj} (accepted : contents.Accepts x) (i : Nat) :
    (contents.set i x).elt = Function.update contents.elt i x := by
  funext j
  match contents, x, accepted with
  | .vector data, x, _ => rfl
  | .string codes, .char code, _ =>
      rcases eq_or_ne j i with rfl | other
      · simp [Contents.set, Contents.elt]
      · simp [Contents.set, Contents.elt, Function.update_of_ne other]
  | .bits data, .fixnum n, accepted =>
      rcases eq_or_ne j i with rfl | other
      · rcases accepted with rfl | rfl <;> simp [Contents.set, Contents.elt]
      · simp [Contents.set, Contents.elt, Function.update_of_ne other]
  | .bytes width isSigned data, .fixnum n, accepted =>
      rcases eq_or_ne j i with rfl | other
      · have value : (if isSigned then (BitVec.ofInt width n).toInt
            else ((BitVec.ofInt width n).toNat : Int)) = n := accepted
        rw [Contents.set, Contents.elt, Function.update_self, Function.update_self, value]
      · simp [Contents.set, Contents.elt, Function.update_of_ne other]

theorem Contents.accepts_set (contents : Contents) (i : Nat) (x y : Obj) :
    (contents.set i x).Accepts y ↔ contents.Accepts y := by
  cases contents with
  | vector data => rfl
  | string codes => cases x <;> cases y <;> rfl
  | bits data => cases x <;> cases y <;> rfl
  | bytes width isSigned data => cases x <;> cases y <;> rfl

/-- The sorted elements are stored when the array accepts them. -/
theorem writeBack_spec (sorted : Nat → Obj) (contents : Contents) (length : Nat)
    (accepted : ∀ i, i < length → contents.Accepts (sorted i)) :
    (∀ x, (writeBack sorted length contents).Accepts x ↔ contents.Accepts x) ∧
      ∀ i, i < length → (writeBack sorted length contents).elt i = sorted i := by
  induction length with
  | zero => exact ⟨fun _ => Iff.rfl, fun i under => by omega⟩
  | succ length induction =>
      obtain ⟨accepts, written⟩ := induction fun i under => accepted i (Nat.lt_succ_of_lt under)
      have last := (accepts _).mpr (accepted length (Nat.lt_succ_self length))
      rw [writeBack, Contents.elt_set last]
      refine ⟨fun x => (Contents.accepts_set ..).trans (accepts x), fun i under => ?_⟩
      rcases Nat.lt_succ_iff_lt_or_eq.mp under with before | rfl
      · rw [Function.update_of_ne (by omega), written i before]
      · exact Function.update_self ..

theorem arraySeqInsertionSort_elements (calls : Calls σ κ) (length : Nat) (contents : Contents)
    (s : σ) :
    elements length (arraySeqInsertionSort calls length contents s).1.elt =
      elements length (vectorInsertionSort calls (length - 1) contents.elt s).1 := by
  rw [arraySeqInsertionSort]
  split
  · next short =>
      have none : length - 1 = 0 := by omega
      rw [none, vectorInsertionSort]
  · have perm := (vectorInsertionSort_stable calls length contents.elt s).1
    refine elements_congr ?_
    have accepted : ∀ i, i < length →
        contents.Accepts ((vectorInsertionSort calls (length - 1) contents.elt s).1 i) := by
      intro i under
      have member := perm.mem_iff.mp (List.mem_map_of_mem (List.mem_range.mpr under))
      obtain ⟨j, -, same⟩ := List.mem_map.mp member
      rw [← same]
      exact contents.accepts_elt j
    exact (writeBack_spec _ contents length accepted).2

end ClAmiga.Sequence
