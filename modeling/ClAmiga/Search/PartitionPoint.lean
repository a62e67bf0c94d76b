import Mathlib.Data.List.Forall2
import Mathlib.Order.Bounds.Basic

/-!
# Binary search and the first difference of two lists

The search for the first index at which a test no longer succeeds, when the test may itself
fail to answer.  Two lists that are compared position by position differ where their elements
do not match, and where only one of them still has an element.
-/

namespace ClAmiga.Search

/-- The first of the indices from `lo` to `hi` at which the test does not succeed, by halving
the interval so many times at most. -/
def partitionPoint (test : Nat → Option Bool) : Nat → Nat → Nat → Option Nat
  | 0, lo, _ => some lo
  | fuel + 1, lo, hi =>
      if lo < hi then do
        let mid := lo + (hi - lo) / 2
        if ← test mid then partitionPoint test fuel (mid + 1) hi
        else partitionPoint test fuel lo mid
      else some lo

/-- The test succeeds exactly below the point, among so many indices. -/
structure IsPartitionPoint (passes : Nat → Bool) (size point : Nat) : Prop where
  inside : point ≤ size
  below : ∀ i < point, passes i = true
  above : ∀ i, point ≤ i → i < size → passes i = false

theorem partitionPoint_from {test : Nat → Option Bool} {passes : Nat → Bool} {size : Nat}
    (answers : ∀ i < size, test i = some (passes i))
    (antitone : ∀ i j, i ≤ j → j < size → passes j = true → passes i = true) (fuel : Nat) :
    ∀ lo hi, lo ≤ hi → hi ≤ size → hi - lo ≤ fuel → (∀ i < lo, passes i = true) →
      (∀ i, hi ≤ i → i < size → passes i = false) →
      ∃ point, partitionPoint test fuel lo hi = some point ∧
        IsPartitionPoint passes size point := by
  induction fuel with
  | zero =>
      intro lo hi ordered inside short below above
      obtain rfl : lo = hi := by omega
      exact ⟨lo, rfl, inside, below, above⟩
  | succ fuel induction =>
      intro lo hi ordered inside short below above
      rw [partitionPoint]
      by_cases more : lo < hi
      · rw [if_pos more]
        have middle : lo + (hi - lo) / 2 < hi := by omega
        have reached : lo ≤ lo + (hi - lo) / 2 := Nat.le_add_right _ _
        have answer := answers _ (Nat.lt_of_lt_of_le middle inside)
        generalize lo + (hi - lo) / 2 = mid at middle reached answer ⊢
        cases passed : passes mid with
        | true =>
            simp only [answer, passed, Option.bind_eq_bind, Option.bind_some, if_true]
            refine induction (mid + 1) hi middle inside (by omega) (fun i less => ?_) above
            exact antitone i mid (Nat.le_of_lt_succ less) (Nat.lt_of_lt_of_le middle inside) passed
        | false =>
            simp only [answer, passed, Option.bind_eq_bind, Option.bind_some, Bool.false_eq_true,
              if_false]
            refine induction lo mid (by omega) (by omega) (by omega) below fun i more inside => ?_
            cases later : passes i with
            | false => rfl
            | true => rw [antitone mid i more inside later] at passed; cases passed
      · obtain rfl : lo = hi := by omega
        rw [if_neg more]
        exact ⟨lo, rfl, inside, below, above⟩

/-- Where the test answers everywhere, and no longer succeeds once it has not, the search
finds the partition point. -/
theorem partitionPoint_spec {test : Nat → Option Bool} {passes : Nat → Bool} {size : Nat}
    (answers : ∀ i < size, test i = some (passes i))
    (antitone : ∀ i j, i ≤ j → j < size → passes j = true → passes i = true) :
    ∃ point, partitionPoint test size 0 size = some point ∧ IsPartitionPoint passes size point :=
  partitionPoint_from answers antitone size 0 size (Nat.zero_le _) (Nat.le_refl _) (Nat.le_refl _)
    (fun _ below => absurd below (Nat.not_lt_zero _))
    fun _ above inside => absurd inside (Nat.not_lt.mpr above)

variable {α β : Type} (same : α → β → Bool)

/-- The first position at which the lists differ. -/
def firstDifference : List α → List β → Option Nat
  | [], [] => none
  | x :: xs, y :: ys => if same x y then (firstDifference xs ys).map (· + 1) else some 0
  | _, _ => some 0

def DifferAt (xs : List α) (ys : List β) (k : Nat) : Prop :=
  ¬ Option.Rel (fun x y => same x y = true) xs[k]? ys[k]?

abbrev AllMatch (xs : List α) (ys : List β) : Prop :=
  List.Forall₂ (fun x y => same x y = true) xs ys

variable {same} {xs : List α} {ys : List β}

theorem differAt_cons {x : α} {y : β} {k : Nat} :
    DifferAt same (x :: xs) (y :: ys) (k + 1) ↔ DifferAt same xs ys k :=
  Iff.rfl

theorem differAt_cons_zero {x : α} {y : β} :
    DifferAt same (x :: xs) (y :: ys) 0 ↔ ¬ same x y = true := by
  constructor
  · exact fun differ matched => differ (.some matched)
  · rintro unmatched ⟨⟩
    contradiction

theorem firstDifference_eq_none_iff : firstDifference same xs ys = none ↔ AllMatch same xs ys := by
  induction xs generalizing ys with
  | nil =>
      cases ys with
      | nil => exact iff_of_true rfl .nil
      | cons y ys => exact iff_of_false nofun nofun
  | cons x xs induction =>
      cases ys with
      | nil => exact iff_of_false nofun nofun
      | cons y ys =>
          rw [firstDifference, AllMatch, List.forall₂_cons]
          by_cases matched : same x y = true
          · rw [if_pos matched, Option.map_eq_none_iff, induction]
            exact (and_iff_right matched).symm
          · rw [if_neg matched]
            exact iff_of_false nofun fun both => matched both.1

theorem firstDifference_isLeast {k : Nat} (first : firstDifference same xs ys = some k) :
    IsLeast {k | DifferAt same xs ys k} k := by
  induction xs generalizing ys k with
  | nil =>
      cases ys with
      | nil => cases first
      | cons y ys =>
          cases first
          exact ⟨nofun, fun _ _ => Nat.zero_le _⟩
  | cons x xs induction =>
      cases ys with
      | nil =>
          cases first
          exact ⟨nofun, fun _ _ => Nat.zero_le _⟩
      | cons y ys =>
          rw [firstDifference] at first
          by_cases matched : same x y = true
          · rw [if_pos matched, Option.map_eq_some_iff] at first
            obtain ⟨k, found, rfl⟩ := first
            have least := induction found
            refine ⟨differAt_cons.mpr least.1, fun i differ => ?_⟩
            cases i with
            | zero => exact absurd matched (differAt_cons_zero.mp differ)
            | succ i => exact Nat.succ_le_succ (least.2 (differAt_cons.mp differ))
          · rw [if_neg matched] at first
            cases first
            exact ⟨differAt_cons_zero.mpr matched, fun _ _ => Nat.zero_le _⟩

/-- The elements of a list from an index up to another one. -/
def window (xs : List α) (lo hi : Nat) : List α :=
  (xs.take hi).drop lo

theorem length_window {lo hi : Nat} (inside : hi ≤ xs.length) :
    (window xs lo hi).length = hi - lo := by
  rw [window, List.length_drop, List.length_take, Nat.min_eq_left inside]

theorem getElem?_window {lo hi k : Nat} {x : α} (here : (window xs lo hi)[k]? = some x) :
    xs[lo + k]? = some x := by
  rw [window, List.getElem?_drop, List.getElem?_take] at here
  split at here
  · exact here
  · cases here

theorem getElem?_reverse_window {lo hi k : Nat} {x : α} (inside : hi ≤ xs.length)
    (here : (window xs lo hi).reverse[k]? = some x) :
    k < hi - lo ∧ xs[hi - 1 - k]? = some x := by
  have below : k < hi - lo := by
    have bound := (List.getElem?_eq_some_iff.mp here).1
    rw [List.length_reverse, length_window inside] at bound
    exact bound
  rw [List.getElem?_reverse (by rw [length_window inside]; exact below),
    length_window inside] at here
  have place := getElem?_window here
  have index : lo + (hi - lo - 1 - k) = hi - 1 - k := by omega
  rw [index] at place
  exact ⟨below, place⟩

end ClAmiga.Search
