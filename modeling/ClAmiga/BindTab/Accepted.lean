import ClAmiga.BindTab.Read
import ClAmiga.BindTab.RoundTrip

/-!
# Tables that pass the validation

What `validate_blob` has checked: the entries and their names lie in the blob, the names are
in order, and only library calls share a name.  With that no read of an entry, a name or a
value leaves the blob.
-/

namespace ClAmiga.BindTab

open Wire

def nameAt (v : View) (i : Nat) : List UInt8 :=
  entryName v (decodeEntry v i)

structure Accepted (blob : List UInt8) (v : View) : Prop where
  view : v = viewBlob blob
  size : headerSize + v.n * entrySize + v.namesLen = blob.length
  entry : ∀ i < v.n, checkEntry v (decodeEntry v i) = none
  order : ∀ i, i + 1 < v.n → checkOrder v (some (decodeEntry v i)) (decodeEntry v (i + 1)) = none

theorem checkEntries_eq_none {v : View} (entries : List Entry) :
    ∀ prev : Option Entry, checkEntries v prev entries = none →
      (∀ e ∈ entries, checkEntry v e = none) ∧ ∀ i (later : i + 1 < entries.length),
          checkOrder v (some (entries.get ⟨i, Nat.lt_of_succ_lt later⟩))
            (entries.get ⟨i + 1, later⟩) = none := by
  induction entries with
  | nil => intro prev _; exact ⟨by simp, by simp⟩
  | cons e rest induction =>
      intro prev passed
      rw [checkEntries] at passed
      cases checked : checkEntry v e with
      | some message => rw [checked] at passed; cases passed
      | none =>
          rw [checked] at passed
          cases ordered : checkOrder v prev e with
          | some message => rw [ordered] at passed; cases passed
          | none =>
              rw [ordered] at passed
              obtain ⟨entries, pairs⟩ := induction (some e) passed
              refine ⟨List.forall_mem_cons.mpr ⟨checked, entries⟩, fun i later => ?_⟩
              cases i with
              | zero =>
                  obtain _ | ⟨next, more⟩ := rest
                  · exact absurd later (by simp)
                  · rw [checkEntries] at passed
                    cases nextChecked : checkEntry v next with
                    | some message => rw [nextChecked] at passed; cases passed
                    | none =>
                        rw [nextChecked] at passed
                        cases here : checkOrder v (some e) next with
                        | none => exact here
                        | some message => rw [here] at passed; cases passed
              | succ i => exact pairs i (Nat.lt_of_succ_lt_succ later)

theorem accepted_of_validateBlob {blob : List UInt8} (passed : validateBlob blob = none) :
    Accepted blob (viewBlob blob) := by
  rw [validateBlob] at passed
  split at passed
  · cases passed
  split at passed
  · cases passed
  split at passed
  · cases passed
  dsimp only at passed
  split at passed
  · cases passed
  split at passed
  · cases passed
  · next exact =>
      obtain ⟨entries, pairs⟩ := checkEntries_eq_none _ none passed
      have length : (decodeEntries (viewBlob blob)).length = (viewBlob blob).n := by
        rw [decodeEntries, List.length_map, List.length_range]
      refine ⟨rfl, not_not.mp exact, fun i inside => ?_, fun i later => ?_⟩
      · exact entries _ (List.mem_map.mpr ⟨i, List.mem_range.mpr inside, rfl⟩)
      · have pair := pairs i (by rw [length]; exact later)
        simpa [decodeEntries] using pair

variable {blob : List UInt8} {v : View}

theorem nameLe_antisymm {p q : List UInt8} (first : nameLe p q = true)
    (second : nameLe q p = true) : p = q := by
  induction p generalizing q with
  | nil =>
      cases q with
      | nil => rfl
      | cons => cases second
  | cons x xs induction =>
      cases q with
      | nil => cases first
      | cons y ys =>
          by_cases same : x = y
          · subst same
            simp only [nameLe, if_true] at first second
            rw [induction first second]
          · have flip : y ≠ x := fun equal => same equal.symm
            simp only [nameLe, same, flip, if_false, decide_eq_true_eq] at first second
            exact absurd (UInt8.lt_trans first second) (UInt8.lt_irrefl x)

theorem nameLe_refl (p : List UInt8) : nameLe p p = true := by
  have total := nameLe_total p p
  rwa [Bool.or_self] at total

theorem Accepted.adjacent (accepted : Accepted blob v) {i : Nat} (later : i + 1 < v.n) :
    nameLe (nameAt v i) (nameAt v (i + 1)) = true ∧ (nameAt v i = nameAt v (i + 1) →
        (decodeEntry v i).kind = Kind.libcall.code ∧
          (decodeEntry v (i + 1)).kind = Kind.libcall.code) := by
  have order := accepted.order i later
  rw [checkOrder] at order
  split at order
  · cases order
  · next sorted =>
      split at order
      · cases order
      · next distinct =>
          refine ⟨by simpa [nameAt] using sorted, fun same => ?_⟩
          by_contra others
          exact distinct ⟨same, others⟩

theorem Accepted.sorted (accepted : Accepted blob v) {i j : Nat} (upTo : i ≤ j)
    (inside : j < v.n) : nameLe (nameAt v i) (nameAt v j) = true := by
  induction j, upTo using Nat.le_induction with
  | base => exact nameLe_refl _
  | succ j upTo induction =>
      exact nameLe_trans (induction (Nat.lt_of_succ_lt inside)) (accepted.adjacent inside).1

theorem Accepted.libcall_of_same (accepted : Accepted blob v) {i j : Nat} (before : i < j)
    (inside : j < v.n) (same : nameAt v i = nameAt v j) :
    (decodeEntry v i).kind = Kind.libcall.code ∧ (decodeEntry v j).kind = Kind.libcall.code := by
  obtain ⟨k, rfl⟩ : ∃ k, j = k + 1 := ⟨j - 1, by omega⟩
  have second : i + 1 < v.n := by omega
  have back := accepted.sorted (show i + 1 ≤ k + 1 by omega) inside
  have up := accepted.sorted (show i ≤ k by omega) (Nat.lt_of_succ_lt inside)
  rw [← same] at back
  rw [same] at up
  have afterFirst := nameLe_antisymm (accepted.sorted (Nat.le_succ i) second) back
  have beforeLast := nameLe_antisymm (accepted.sorted (Nat.le_succ k) inside) up
  exact ⟨((accepted.adjacent second).2 afterFirst).1, ((accepted.adjacent inside).2 beforeLast).2⟩

theorem readBytes_eq {off len : Nat} (inside : off + len ≤ blob.length) :
    readBytes blob off len = some (slice blob off len) :=
  if_pos inside

theorem length_slice {bytes : List UInt8} {off len : Nat} (inside : off + len ≤ bytes.length) :
    (slice bytes off len).length = len := by
  rw [slice, List.length_take, List.length_drop]
  omega

theorem slice_drop (bytes : List UInt8) (base off len : Nat) :
    slice (bytes.drop base) off len = slice bytes (base + off) len := by
  rw [slice, slice, List.drop_drop]

theorem Accepted.readView (accepted : Accepted blob v) : BindTab.readView blob = some v := by
  have size := accepted.size
  rw [BindTab.readView, readBytes_eq (by omega), accepted.view]
  rfl

theorem Accepted.readEntry (accepted : Accepted blob v) {i : Nat} (inside : i < v.n) :
    BindTab.readEntry blob v i = some (decodeEntry v i) := by
  have size := accepted.size
  have fits : headerSize + entrySize * i + entrySize ≤ blob.length := by
    have : entrySize * i + entrySize ≤ v.n * entrySize := by
      rw [← Nat.mul_succ, Nat.mul_comm v.n]
      exact Nat.mul_le_mul_left _ inside
    omega
  have bytes : v.entries = blob.drop headerSize := by rw [accepted.view]; rfl
  rw [BindTab.readEntry, readBytes_eq fits, decodeEntry_slice v i, bytes, slice_drop]
  rfl

theorem Accepted.names (accepted : Accepted blob v) (off len : Nat) :
    slice v.names off len = slice blob (namesOff v + off) len := by
  have arena : v.names = blob.drop (namesOff v) := by rw [accepted.view]; rfl
  rw [arena, slice_drop]

theorem Accepted.byteAt_names (accepted : Accepted blob v) (off : Nat) :
    byteAt v.names off = byteAt blob (namesOff v + off) := by
  have first := byteAt_slice v.names (show 0 < 1 by omega) (i := off)
  have second := byteAt_slice blob (show 0 < 1 by omega) (i := namesOff v + off)
  rw [Nat.add_zero] at first second
  rw [← first, ← second, accepted.names]

theorem checkEntry_none {e : Entry} (passed : checkEntry v e = none) :
    e.nameLen ≠ 0 ∧ e.nameOff + e.nameLen ≤ v.namesLen ∧ checkKind v e = none := by
  rw [checkEntry] at passed
  split at passed
  · cases passed
  · next nonempty =>
      split at passed
      · cases passed
      · next inside =>
          split at passed
          · cases passed
          · split at passed
            · cases passed
            · split at passed
              · cases passed
              · exact ⟨nonempty, Nat.le_of_not_lt inside, passed⟩

theorem Accepted.readName (accepted : Accepted blob v) {i : Nat} (inside : i < v.n) :
    BindTab.readName blob v (decodeEntry v i) = some (nameAt v i) ∧
      (nameAt v i).length = (decodeEntry v i).nameLen := by
  have size := accepted.size
  obtain ⟨-, named, -⟩ := checkEntry_none (accepted.entry i inside)
  have fits : namesOff v + (decodeEntry v i).nameOff + (decodeEntry v i).nameLen ≤ blob.length := by
    rw [namesOff]
    omega
  rw [BindTab.readName, readBytes_eq fits, nameAt, entryName, accepted.names]
  exact ⟨rfl, length_slice fits⟩

theorem copyTo_eq {size : Nat} {bytes : List UInt8} (fits : bytes.length ≤ size) :
    copyTo size bytes = some bytes :=
  if_pos fits

theorem byteAt_le (bytes : List UInt8) (i : Nat) : byteAt bytes i ≤ 255 :=
  Nat.le_of_lt_succ (UInt8.toNat_lt _)

theorem checkValue_none {e : Entry} (passed : checkValue v e = none) :
    (hasFlag e.flags flagWide = true → e.a + 2 + byteAt v.names e.a ≤ v.namesLen) ∧
      (hasFlag e.flags flagString = true → e.a + 1 + byteAt v.names e.a ≤ v.namesLen) := by
  rw [checkValue] at passed
  split at passed
  · cases passed
  split at passed
  · cases passed
  split at passed
  · cases passed
  · next wide =>
      split at passed
      · cases passed
      · next string =>
          refine ⟨fun flagged => ?_, fun flagged => ?_⟩
          · have inside := not_and.mp wide flagged
            omega
          · have inside := not_and.mp string flagged
            omega

theorem Accepted.readValue (accepted : Accepted blob v) {i : Nat} (inside : i < v.n)
    (value : (decodeEntry v i).isValue = true) :
    BindTab.readValue blob v (decodeEntry v i) = some (decodeValue v (decodeEntry v i)) := by
  have size := accepted.size
  obtain ⟨-, -, kind⟩ := checkEntry_none (accepted.entry i inside)
  generalize decodeEntry v i = e at value kind ⊢
  rw [checkKind, if_pos (of_decide_eq_true value)] at kind
  obtain ⟨wideFits, stringFits⟩ := checkValue_none kind
  have first : ∀ len, 0 < len →
    byteAt (slice blob (namesOff v + e.a) len) 0 = byteAt v.names e.a := by
    intro len some
    rw [byteAt_slice blob some, accepted.byteAt_names, Nat.add_zero]
  have room : namesOff v + v.namesLen = blob.length := by
    rw [namesOff]
    exact size
  have bytes : ∀ off, (slice v.names off (byteAt v.names e.a)).length ≤ 255 := by
    intro off
    rw [slice]
    exact Nat.le_trans (List.length_take_le _ _) (byteAt_le _ _)
  rw [BindTab.readValue, decodeValue]
  cases isWide : hasFlag e.flags flagWide with
  | true =>
      have fits := wideFits isWide
      have headInside : namesOff v + e.a + 2 ≤ blob.length := by omega
      have sign : byteAt (slice blob (namesOff v + e.a) 2) 1 = byteAt v.names (e.a + 1) := by
        rw [byteAt_slice blob (by omega), accepted.byteAt_names, Nat.add_assoc]
      have mag := accepted.names (e.a + 2) (byteAt v.names e.a)
      have short := bytes (e.a + 2)
      rw [if_pos rfl, if_pos rfl, readBytes_eq headInside, Option.bind_eq_bind, Option.bind_some,
        first 2 (by omega), sign, readBytes_eq (by omega), Option.bind_some, Nat.add_assoc,
        ← mag, copyTo_eq short, Option.bind_some]
  | false =>
      rw [if_neg Bool.false_ne_true, if_neg Bool.false_ne_true]
      cases isString : hasFlag e.flags flagString with
      | true =>
          have fits := stringFits isString
          have headInside : namesOff v + e.a + 1 ≤ blob.length := by omega
          have mag := accepted.names (e.a + 1) (byteAt v.names e.a)
          have short := bytes (e.a + 1)
          rw [if_pos rfl, if_pos rfl, readBytes_eq headInside, Option.bind_eq_bind,
            Option.bind_some, first 1 (by omega), readBytes_eq (by omega), Option.bind_some,
            Nat.add_assoc, ← mag, copyTo_eq short, Option.bind_some]
      | false => rfl

end ClAmiga.BindTab
