import Mathlib.Data.Nat.SuccPred
import Mathlib.Algebra.Order.Ring.Nat
import ClAmiga.Gc.Forward

/-!
# Pins, gaps and the slide cursor

Placing a block moves the cursor over the block and over the hole a pin leaves
before it, and records that hole under the pin.  The lookup finds its first pin
by bisection and adds the recorded holes up to an address; for sorted pins this
is the sum over all pins between the two ends.
-/

namespace ClAmiga.Gc

/-- Holes recorded for pins below an address. -/
def gapBelow (pins gap : List Nat) (x : Nat) : Nat :=
  (((pins.zip gap).filter (fun entry => entry.1 < x)).map Prod.snd).sum

theorem gapBelow_cons (pin hole : Nat) (pins gap : List Nat) (x : Nat) :
    gapBelow (pin :: pins) (hole :: gap) x =
      (if pin < x then hole else 0) + gapBelow pins gap x := by
  unfold gapBelow
  by_cases below : pin < x
  · simp [below]
  · simp [below]

theorem gapBelow_nil (gap : List Nat) (x : Nat) : gapBelow [] gap x = 0 := by
  simp [gapBelow]

theorem gapBelow_mono (pins gap : List Nat) {x y : Nat} (order : x ≤ y) :
    gapBelow pins gap x ≤ gapBelow pins gap y := by
  induction pins generalizing gap with
  | nil => rw [gapBelow_nil, gapBelow_nil]
  | cons pin pins induction =>
      cases gap with
      | nil => exact le_refl _
      | cons hole gap =>
          have rest := induction gap
          rw [gapBelow_cons, gapBelow_cons]
          by_cases below : pin < x
          · rw [if_pos below, if_pos (by omega)]
            omega
          · rw [if_neg below]
            omega

variable {pins gap : List Nat}

theorem gapBelow_set {i pin : Nat}
    (entry : pins[i]? = some pin) (zero : gap[i]? = some 0) (hole x : Nat) :
    gapBelow pins (gap.set i hole) x =
      gapBelow pins gap x + if pin < x then hole else 0 := by
  induction pins generalizing gap i with
  | nil => simp at entry
  | cons first pins induction =>
      cases gap with
      | nil => simp at zero
      | cons head gap =>
          cases i with
          | zero =>
              simp only [List.getElem?_cons_zero, Option.some.injEq] at entry zero
              rw [List.set_cons_zero, gapBelow_cons, gapBelow_cons, entry, zero]
              split <;> omega
          | succ i =>
              simp only [List.getElem?_cons_succ] at entry zero
              rw [List.set_cons_succ, gapBelow_cons, gapBelow_cons,
                induction entry zero]
              omega

theorem gapBelow_eq {x y : Nat}
    (empty : ∀ i pin hole : Nat, pins[i]? = some pin → gap[i]? = some hole →
      (pin < x ↔ pin < y) ∨ hole = 0) :
    gapBelow pins gap x = gapBelow pins gap y := by
  induction pins generalizing gap with
  | nil => rw [gapBelow_nil, gapBelow_nil]
  | cons first pins induction =>
      cases gap with
      | nil => rfl
      | cons head gap =>
          have rest : gapBelow pins gap x = gapBelow pins gap y :=
            induction fun i => empty (i + 1)
          rw [gapBelow_cons, gapBelow_cons, rest]
          rcases empty 0 first head rfl rfl with same | zero
          · simp [same]
          · simp [zero]

theorem skipPins_le (test : Nat → Bool) (pins : List Nat) (i : Nat) : i ≤ skipPins test pins i :=
  Nat.le_add_right _ _

theorem takeWhile_passed {test : Nat → Bool} (values : List Nat) (k : Nat)
    {value : Nat} (inside : k < (values.takeWhile test).length)
    (entry : values[k]? = some value) : test value = true := by
  induction values generalizing k with
  | nil => simp at entry
  | cons first values induction =>
      by_cases passed : test first = true
      · rw [List.takeWhile_cons_of_pos passed] at inside
        cases k with
        | zero =>
            simp only [List.getElem?_cons_zero, Option.some.injEq] at entry
            rwa [← entry]
        | succ k =>
            exact induction k (by simpa using inside) (by simpa using entry)
      · rw [List.takeWhile_cons_of_neg passed] at inside
        simp at inside

theorem skipPins_passed {test : Nat → Bool} {pins : List Nat} {i j pin : Nat}
    (after : i ≤ j) (below : j < skipPins test pins i)
    (entry : pins[j]? = some pin) : test pin = true := by
  unfold skipPins at below
  refine takeWhile_passed (pins.drop i) (j - i) (by omega) ?_
  rw [List.getElem?_drop, Nat.add_sub_cancel' after]
  exact entry

/-- What the gaps and the cursor's index say once every block below an address
is placed: the entries passed are below the address, and the others have no
hole yet. -/
structure Placed (pins gap : List Nat) (pl : GcPlace) (stop : Nat) : Prop where
  length : gap.length = pins.length
  passed : ∀ i pin, i < pl.pinI → pins[i]? = some pin → pin < stop
  ahead : ∀ i hole, pl.pinI ≤ i → gap[i]? = some hole → hole = 0

theorem Placed.gapBelow_eq {pl : GcPlace} {stop x y : Nat}
    (placed : Placed pins gap pl stop) (first : stop ≤ x) (second : stop ≤ y) :
    gapBelow pins gap x = gapBelow pins gap y := by
  apply ClAmiga.Gc.gapBelow_eq
  intro i pin hole entry hole_eq
  rcases Nat.lt_or_ge i pl.pinI with before | ahead
  · have below := placed.passed i pin before entry
    left
    omega
  · exact Or.inr (placed.ahead i hole ahead hole_eq)

theorem gcPlace_unrecorded (pins : List Nat) (pl : GcPlace) (gap : List Nat) (off size : Nat) :
    (gcPlace pins pl [] off size false).1 = (gcPlace pins pl gap off size true).1 ∧
      (gcPlace pins pl [] off size false).2.1 = (gcPlace pins pl gap off size true).2.1 := by
  unfold gcPlace
  dsimp only
  split
  · exact ⟨rfl, rfl⟩
  · exact ⟨rfl, rfl⟩

/-- What placing one block does: the block lands where the cursor stands, past
the hole it leaves, the cursor goes on behind it, and the hole is added to the
sums above the block's offset. -/
structure PlacedAt (pins gap : List Nat) (pl : GcPlace) (off size : Nat)
    (at_ : Nat) (pl' : GcPlace) (gap' : List Nat) (hole : Nat) : Prop where
  placed : Placed pins gap' pl' (off + size)
  lands : at_ = pl.cur + hole
  cursor : pl'.cur = at_ + size
  below : at_ ≤ off
  sums : ∀ x, gapBelow pins gap' x =
    gapBelow pins gap x + if off < x then hole else 0

theorem gcPlace_placed {pl : GcPlace} {stop off size : Nat}
    (placed : Placed pins gap pl stop) (order : stop ≤ off) (positive : 0 < size)
    (cursor : pl.cur ≤ off) :
    ∃ hole, PlacedAt pins gap pl off size (gcPlace pins pl gap off size true).1
      (gcPlace pins pl gap off size true).2.1
      (gcPlace pins pl gap off size true).2.2 hole := by
  have start : pl.pinI ≤ skipPins (· < off) pins pl.pinI := skipPins_le _ _ _
  have passed : ∀ i pin, i < skipPins (· < off) pins pl.pinI → pins[i]? = some pin → pin < off := by
    intro i pin before entry
    rcases Nat.lt_or_ge i pl.pinI with old | new
    · have := placed.passed i pin old entry
      omega
    · simpa using skipPins_passed new before entry
  unfold gcPlace
  dsimp only
  generalize skipPins (· < off) pins pl.pinI = i at start passed
  split
  · rename_i pinned
    have inside : i < gap.length := by
      rw [placed.length]
      exact (List.getElem?_eq_some_iff.mp pinned).1
    have zero : gap[i]? = some 0 := by
      rw [List.getElem?_eq_getElem inside]
      exact congrArg some (placed.ahead i _ start (List.getElem?_eq_getElem inside))
    refine ⟨off - pl.cur, ⟨⟨?_, ?_, ?_⟩, ?_, rfl, le_refl off, ?_⟩⟩
    · rw [if_pos rfl, List.length_set, placed.length]
    · intro j pin before entry
      rcases Nat.lt_trichotomy j i with old | here | duplicate
      · have := passed j pin old entry
        omega
      · rw [here, pinned, Option.some.injEq] at entry
        omega
      · have same := skipPins_passed duplicate before entry
        simp only [beq_iff_eq] at same
        omega
    · intro j hole ahead entry
      have beyond : i + 1 ≤ j := (skipPins_le _ _ _).trans ahead
      rw [if_pos rfl, List.getElem?_set_ne (by omega)] at entry
      exact placed.ahead j hole (by omega) entry
    · omega
    · intro x
      rw [if_pos rfl, gapBelow_set pinned zero]
  · refine ⟨0, ⟨⟨placed.length, ?_, ?_⟩, rfl, rfl, cursor, ?_⟩⟩
    · intro j pin before entry
      have := passed j pin before entry
      omega
    · intro j hole ahead entry
      exact placed.ahead j hole (start.trans ahead) entry
    · intro x
      simp

/-- The bisection separates the pins below an address from the others. -/
theorem firstPin_separates {pins : List Nat} (lo : Nat)
    (sorted : pins.Pairwise (· ≤ ·)) (fuel a b : Nat) (enough : b - a ≤ fuel)
    (inside : b ≤ pins.length) (order : a ≤ b)
    (before : ∀ i pin, i < a → pins[i]? = some pin → pin < lo)
    (after : ∀ i pin, b ≤ i → pins[i]? = some pin → lo ≤ pin) :
    (∀ i pin, i < firstPin pins lo fuel a b → pins[i]? = some pin → pin < lo) ∧
      ∀ i pin, firstPin pins lo fuel a b ≤ i → pins[i]? = some pin → lo ≤ pin := by
  induction fuel generalizing a b with
  | zero =>
      have same : a = b := by omega
      rw [firstPin]
      exact ⟨before, same ▸ after⟩
  | succ fuel induction =>
      rw [firstPin]
      split
      · dsimp only
        have middle : (a + b) / 2 < pins.length := by omega
        have entry : pins.getD ((a + b) / 2) 0 = pins[(a + b) / 2] := by
          simp [List.getD_eq_getElem?_getD, List.getElem?_eq_getElem middle]
        have ascending : ∀ i j x y : Nat, i ≤ j → pins[i]? = some x →
            pins[j]? = some y → x ≤ y := by
          intro i j x y le first second
          obtain ⟨insideI, rfl⟩ := List.getElem?_eq_some_iff.mp first
          obtain ⟨insideJ, rfl⟩ := List.getElem?_eq_some_iff.mp second
          rcases Nat.lt_or_ge i j with lt | ge
          · exact List.pairwise_iff_getElem.mp sorted i j insideI insideJ lt
          · have : i = j := by omega
            simp [this]
        rw [entry]
        split
        · rename_i small
          refine induction _ _ (by omega) inside (by omega) ?_ after
          intro i pin below found
          have := ascending i ((a + b) / 2) pin _ (by omega) found (List.getElem?_eq_getElem middle)
          omega
        · rename_i large
          refine induction _ _ (by omega) (by omega) (by omega) before ?_
          intro i pin above found
          have := ascending ((a + b) / 2) i _ pin above (List.getElem?_eq_getElem middle) found
          omega
      · have same : a = b := by omega
        exact ⟨before, same ▸ after⟩

theorem filter_eq_takeWhile {entries : List (Nat × Nat)}
    (sorted : entries.Pairwise (fun x y => x.1 ≤ y.1)) (hi : Nat) :
    entries.filter (fun entry => entry.1 < hi + 1) =
      entries.takeWhile (fun entry => entry.1 ≤ hi) := by
  induction entries with
  | nil => rfl
  | cons first entries induction =>
      obtain ⟨least, rest⟩ := List.pairwise_cons.mp sorted
      by_cases below : first.1 ≤ hi
      · rw [List.filter_cons_of_pos (by simpa using Nat.lt_succ_of_le below),
          List.takeWhile_cons_of_pos (by simpa using below), induction rest]
      · rw [List.filter_cons_of_neg (by simp only [decide_eq_true_eq]; omega),
          List.takeWhile_cons_of_neg (by simpa using below),
          List.filter_eq_nil_iff]
        intro entry member
        have := least entry member
        simp
        omega

theorem gapBelow_add (sorted : pins.Pairwise (· ≤ ·))
    (length : gap.length = pins.length) {lo hi : Nat} (order : lo ≤ hi + 1) :
    gapBelow pins gap (hi + 1) = gapBelow pins gap lo + gcFwdPinGaps pins gap lo hi := by
  obtain ⟨before, after⟩ := firstPin_separates lo sorted pins.length 0
    pins.length (by omega) (le_refl _) (by omega) (by omega)
    (fun i pin beyond entry => by
      rw [List.getElem?_eq_none beyond] at entry
      simp at entry)
  unfold gapBelow gcFwdPinGaps
  dsimp only
  generalize firstPin pins lo pins.length 0 pins.length = a at before after
  have pinOf : ∀ (i : Nat) entry, (pins.zip gap)[i]? = some entry → pins[i]? = some entry.1 := by
    intro i entry found
    exact (List.getElem?_zip_eq_some.mp found).1
  have ascending : (pins.zip gap).Pairwise (fun x y => x.1 ≤ y.1) := by
    rw [← @List.map_fst_zip _ _ pins gap length.ge, List.pairwise_map]
      at sorted
    exact sorted
  have low : ∀ bound, lo ≤ bound →
      ((pins.zip gap).take a).filter (fun entry => entry.1 < bound) =
        (pins.zip gap).take a := by
    intro bound above
    rw [List.filter_eq_self]
    intro entry member
    obtain ⟨i, found⟩ := List.mem_iff_getElem?.mp member
    rw [List.getElem?_take] at found
    split at found
    · rename_i inside
      have := before i entry.1 inside (pinOf i entry found)
      simp
      omega
    · simp at found
  have high : ((pins.zip gap).drop a).filter (fun entry => entry.1 < lo) =
      [] := by
    rw [List.filter_eq_nil_iff]
    intro entry member
    obtain ⟨i, found⟩ := List.mem_iff_getElem?.mp member
    rw [List.getElem?_drop] at found
    have := after (a + i) entry.1 (by omega) (pinOf _ entry found)
    simpa using this
  calc (((pins.zip gap).filter (fun entry => entry.1 < hi + 1)).map
          Prod.snd).sum
      = ((((pins.zip gap).take a ++ (pins.zip gap).drop a).filter
          (fun entry => entry.1 < hi + 1)).map Prod.snd).sum := by
        rw [List.take_append_drop]
    _ = (((pins.zip gap).take a).map Prod.snd).sum + ((((pins.zip gap).drop a).takeWhile
            (fun entry => entry.1 ≤ hi)).map Prod.snd).sum := by
        rw [List.filter_append, low _ order,
          filter_eq_takeWhile (ascending.sublist (List.drop_sublist a _)),
          List.map_append, List.sum_append]
    _ = ((((pins.zip gap).take a ++ (pins.zip gap).drop a).filter
            (fun entry => entry.1 < lo)).map Prod.snd).sum +
          ((((pins.zip gap).drop a).takeWhile
            (fun entry => entry.1 ≤ hi)).map Prod.snd).sum := by
        rw [List.filter_append, low _ (le_refl lo), high, List.append_nil]
    _ = _ := by rw [List.take_append_drop]

theorem sortPins_sorted (pins : List Nat) : (sortPins pins).Pairwise (· ≤ ·) := by
  have ordered := @List.pairwise_mergeSort _ (fun x y : Nat => x ≤ y)
    (fun x y z first second => by
      simp only [decide_eq_true_eq] at first second ⊢
      omega)
    (fun x y => by
      simp only [Bool.or_eq_true, decide_eq_true_eq]
      omega) pins
  simpa [sortPins] using ordered

end ClAmiga.Gc
