import Mathlib.Data.List.Basic
import Mathlib.Data.List.Range
import Mathlib.Data.List.Sublists

/-!
# Removing duplicates under any relation

An index of a range survives when it is related to no other index on one side of
it.  A scan that asks only the indices still flagged decides the same on the side
it has not reached, and on the side behind it only if the relation lets it.
-/

namespace ClAmiga.Removing

variable (related : Nat → Nat → Bool) (start ending : Nat)

def Within (i : Nat) : Prop := start ≤ i ∧ i < ending

instance (i : Nat) : Decidable (Within start ending i) := inferInstanceAs (Decidable (_ ∧ _))

def side (before : Bool) (i : Nat) : List Nat :=
  if before then List.range' start (i - start) else List.range' (i + 1) (ending - (i + 1))

variable {before : Bool}

theorem mem_side {i j : Nat} (within : Within start ending i) : j ∈ side start ending before i ↔
      Within start ending j ∧ if before then j < i else i < j := by
  obtain ⟨above, below⟩ := within
  unfold side Within
  cases before with
  | false =>
      simp only [Bool.false_eq_true, if_false, List.mem_range'_1]
      omega
  | true =>
      simp only [if_true, List.mem_range'_1]
      omega

/-- Related to no index on the side; indices outside the range survive. -/
def survives (before : Bool) (i : Nat) : Bool :=
  decide (¬ Within start ending i) || !(side start ending before i).any (related i)

def pick {α : Type*} (keep : Nat → Bool) (length : Nat) (elt : Nat → α) : List α :=
  ((List.range length).filter keep).map elt

/-- After so many rounds: an index related to a flagged one on its side loses its
own flag. -/
def scan (before : Bool) : Nat → Nat → Bool
  | 0 => fun _ => true
  | rounds + 1 =>
      let keep := scan before rounds
      let i := start + rounds
      if (side start ending before i).any fun j => keep j && related i j then
        Function.update keep i false
      else keep

variable {related start ending}

theorem scan_outside {rounds i : Nat} (outside : i < start ∨ start + rounds ≤ i) :
    scan related start ending before rounds i = true := by
  induction rounds with
  | zero => rfl
  | succ rounds induction =>
      have same := induction (by omega)
      rw [scan]
      split
      · rw [Function.update_of_ne (by omega), same]
      · exact same

theorem scan_final {early late i : Nat} (done : i < start + early) (later : early ≤ late) :
    scan related start ending before late i = scan related start ending before early i := by
  induction late, later using Nat.le_induction with
  | base => rfl
  | succ late later induction =>
      rw [← induction, scan]
      split
      · rw [Function.update_of_ne (by omega)]
      · rfl

/-- The flag of an index, by the flags it was decided from. -/
theorem scan_eq {i : Nat} (within : Within start ending i) :
    scan related start ending before (ending - start) i =
      !(side start ending before i).any fun j =>
        scan related start ending before (i - start) j && related i j := by
  obtain ⟨above, below⟩ := within
  rw [scan_final (show i < start + (i - start + 1) by omega) (by omega), scan,
    Nat.add_sub_cancel' above]
  split
  next dropped => rw [Function.update_self, dropped, Bool.not_true]
  next kept =>
    rw [Bool.not_eq_true] at kept
    rw [kept, Bool.not_false, scan_outside (Or.inr (by omega))]

theorem any_congr_mem {xs : List Nat} {p q : Nat → Bool} (same : ∀ x ∈ xs, p x = q x) :
    xs.any p = xs.any q := by
  rw [Bool.eq_iff_iff, List.any_eq_true, List.any_eq_true]
  exact exists_congr fun x => and_congr_right fun member => by rw [same x member]

theorem survives_eq {i : Nat} (within : Within start ending i) :
    survives related start ending before i = !(side start ending before i).any (related i) := by
  rw [survives, decide_eq_false (not_not_intro within), Bool.false_or]

theorem survives_outside {i : Nat} (outside : ¬ Within start ending i) :
    survives related start ending before i = true := by
  rw [survives, decide_eq_true outside, Bool.true_or]

theorem scan_not_within {i : Nat} (outside : ¬ Within start ending i) :
    scan related start ending before (ending - start) i = true :=
  scan_outside (by unfold Within at outside; omega)

theorem scan_congr {other : Nat → Nat → Bool}
    (same : ∀ i j, Within start ending i → Within start ending j → related i j = other i j)
    {rounds : Nat} (few : rounds ≤ ending - start) :
    scan related start ending before rounds = scan other start ending before rounds := by
  induction rounds with
  | zero => rfl
  | succ rounds induction =>
      have within : Within start ending (start + rounds) := by
        unfold Within
        omega
      have asked : ((side start ending before (start + rounds)).any fun j =>
          scan other start ending before rounds j && related (start + rounds) j) =
            (side start ending before (start + rounds)).any fun j =>
              scan other start ending before rounds j && other (start + rounds) j :=
        any_congr_mem fun j member => by
          rw [same _ j within ((mem_side start ending within).mp member).1]
      rw [scan, scan, induction (Nat.le_of_succ_le few)]
      exact congrArg (fun found : Bool => if found = true then _ else _) asked

theorem scan_after : scan related start ending false (ending - start) =
    survives related start ending false := by
  funext i
  by_cases within : Within start ending i
  · rw [scan_eq within, survives_eq within]
    congr 1
    refine any_congr_mem fun j member => ?_
    have later := (mem_side start ending within).mp member
    rw [scan_outside (Or.inr ?_), Bool.true_and]
    simp only [Bool.false_eq_true, if_false] at later
    obtain ⟨above, _⟩ := within
    omega
  · rw [scan_not_within within, survives_outside within]

theorem scan_before_eq {i : Nat} (within : Within start ending i) :
    scan related start ending true (ending - start) i =
      !(side start ending true i).any fun j =>
        scan related start ending true (ending - start) j && related i j := by
  rw [scan_eq within]
  congr 1
  refine any_congr_mem fun j member => ?_
  obtain ⟨inRange, earlier⟩ := (mem_side start ending within).mp member
  simp only [if_true] at earlier
  obtain ⟨above, below⟩ := within
  obtain ⟨jAbove, _⟩ := inRange
  congr 1
  exact (scan_final (by omega) (by omega)).symm

theorem scan_of_survives {i : Nat} (kept : survives related start ending true i = true) :
    scan related start ending true (ending - start) i = true := by
  by_cases within : Within start ending i
  · rw [survives_eq within, Bool.not_eq_true', List.any_eq_false] at kept
    rw [scan_before_eq within, Bool.not_eq_true', List.any_eq_false]
    intro j member
    simp [kept j member]
  · exact scan_not_within within

/-- Every index of the range that is related to an earlier one is related to an
earlier one that is itself related to none. -/
def SettledBySurvivors (related : Nat → Nat → Bool) (start ending : Nat) : Prop :=
  ∀ i, Within start ending i → (∃ j, Within start ending j ∧ j < i ∧ related i j = true) →
    ∃ j, Within start ending j ∧ j < i ∧ related i j = true ∧
      ∀ k, Within start ending k → k < j → related j k = false

theorem survives_before_iff {i : Nat} (within : Within start ending i) :
    survives related start ending true i = true ↔
      ∀ k, Within start ending k → k < i → related i k = false := by
  rw [survives_eq within, Bool.not_eq_true', List.any_eq_false]
  constructor
  · intro none k kWithin earlier
    simpa using none k ((mem_side start ending within).mpr ⟨kWithin, by simpa using earlier⟩)
  · intro none k member
    obtain ⟨kWithin, earlier⟩ := (mem_side start ending within).mp member
    simpa using none k kWithin (by simpa using earlier)

/-- Asking only the flagged indices is enough exactly in that case. -/
theorem scan_before_iff :
    scan related start ending true (ending - start) = survives related start ending true ↔
      SettledBySurvivors related start ending := by
  constructor
  · intro same i within matched
    have dropped : survives related start ending true i ≠ true := by
      rw [Ne, survives_before_iff within]
      obtain ⟨j, jWithin, earlier, hit⟩ := matched
      intro none
      rw [none j jWithin earlier] at hit
      cases hit
    rw [← same, scan_before_eq within, same] at dropped
    rw [Ne, Bool.not_eq_true, Bool.not_eq_false'] at dropped
    obtain ⟨j, member, both⟩ := List.any_eq_true.mp dropped
    obtain ⟨jWithin, earlier⟩ := (mem_side start ending within).mp member
    rw [Bool.and_eq_true] at both
    exact ⟨j, jWithin, by simpa using earlier, both.2, (survives_before_iff jWithin).mp both.1⟩
  · intro settled
    funext i
    rw [Bool.eq_iff_iff]
    refine ⟨fun kept => ?_, scan_of_survives⟩
    by_cases within : Within start ending i
    · by_contra dropped
      rw [survives_eq within, Bool.not_eq_true', Bool.not_eq_false] at dropped
      obtain ⟨j, member, hit⟩ := List.any_eq_true.mp dropped
      obtain ⟨jWithin, earlier⟩ := (mem_side start ending within).mp member
      obtain ⟨k, kWithin, kEarlier, kHit, free⟩ :=
        settled i within ⟨j, jWithin, by simpa using earlier, hit⟩
      have flagged := scan_of_survives ((survives_before_iff kWithin).mpr free)
      rw [scan_before_eq within, Bool.not_eq_true', List.any_eq_false] at kept
      have asked := kept k ((mem_side start ending within).mpr ⟨kWithin, by simpa using kEarlier⟩)
      rw [flagged, kHit] at asked
      exact asked rfl
    · exact survives_outside within

theorem pick_eq_iff {α : Type*} {keep fewer : Nat → Bool} {length : Nat} {elt : Nat → α}
    (sub : ∀ i, fewer i = true → keep i = true) :
    pick keep length elt = pick fewer length elt ↔ ∀ i < length, keep i = fewer i := by
  constructor
  · intro same
    have sublist : ((List.range length).filter fewer).Sublist
        ((List.range length).filter keep) := List.monotone_filter_right _ sub
    have sameLength := congrArg List.length same
    rw [pick, pick, List.length_map, List.length_map] at sameLength
    have equal := sublist.eq_of_length sameLength.symm
    intro i below
    have member := congrArg (i ∈ ·) equal
    simp only [List.mem_filter, List.mem_range, below, true_and, eq_iff_iff] at member
    exact (Bool.eq_iff_iff.mpr member).symm
  · intro same
    rw [pick, pick, List.filter_congr fun i member => same i (List.mem_range.mp member)]

/-- The place of an index in the reversed sequence. -/
def mirror (length i : Nat) : Nat := length - 1 - i

theorem survives_mirror {length : Nat} (bound : ending ≤ length) {mirrored : Nat → Nat → Bool}
    (same : ∀ i < length, ∀ j < length,
      mirrored (mirror length i) (mirror length j) = related i j) {i : Nat} (below : i < length) :
    survives mirrored (length - ending) (length - start) false (mirror length i) =
      survives related start ending true i := by
  have place {j : Nat} (jBelow : j < length) :
      Within (length - ending) (length - start) (mirror length j) ↔ Within start ending j := by
    unfold Within mirror
    omega
  by_cases within : Within start ending i
  · rw [survives_eq within, survives_eq ((place below).mpr within)]
    congr 1
    rw [Bool.eq_iff_iff, List.any_eq_true, List.any_eq_true]
    constructor
    · rintro ⟨j, member, hit⟩
      obtain ⟨jWithin, later⟩ := (mem_side _ _ ((place below).mpr within)).mp member
      simp only [Bool.false_eq_true, if_false] at later
      obtain ⟨jAbove, jBelow⟩ := jWithin
      have back : mirror length (mirror length j) = j := by
        unfold mirror
        omega
      have inside : mirror length j < length := by
        unfold mirror
        omega
      refine ⟨mirror length j, (mem_side _ _ within).mpr ⟨(place inside).mp ?_, ?_⟩, ?_⟩
      · rw [back]
        exact ⟨jAbove, jBelow⟩
      · simp only [if_true]
        unfold mirror at later ⊢
        omega
      · rw [← same i below _ inside, back]
        exact hit
    · rintro ⟨j, member, hit⟩
      obtain ⟨jWithin, earlier⟩ := (mem_side _ _ within).mp member
      simp only [if_true] at earlier
      have inside : j < length := Nat.lt_of_lt_of_le jWithin.2 bound
      refine ⟨mirror length j,
        (mem_side _ _ ((place below).mpr within)).mpr ⟨(place inside).mpr jWithin, ?_⟩, ?_⟩
      · simp only [Bool.false_eq_true, if_false]
        unfold mirror
        omega
      · rw [same i below j inside]
        exact hit
  · rw [survives_outside within, survives_outside fun there => within ((place below).mp there)]

/-- The survivors of the reversed sequence towards its end are those of the sequence
towards its start, reversed. -/
theorem pick_mirror {α : Type*} {keep mirrored : Nat → Bool} {length : Nat} {elt : Nat → α}
    (same : ∀ i < length, mirrored (mirror length i) = keep i) :
    pick mirrored length (fun i => elt (mirror length i)) = (pick keep length elt).reverse := by
  have range : List.range length = (List.range length).reverse.map (mirror length) := by
    have reversed : (List.range length).reverse = (List.range length).map (mirror length) := by
      rw [List.range_eq_range', List.reverse_range', Nat.zero_add, List.range_eq_range']
      rfl
    rw [List.map_reverse, ← reversed, List.reverse_reverse]
  have kept : ∀ i ∈ (List.range length).reverse, (mirrored ∘ mirror length) i = keep i :=
    fun i member => same i (by simpa using member)
  unfold pick
  rw [range, List.filter_map, List.map_map, List.filter_congr kept, ← List.map_reverse,
    ← List.filter_reverse, ← range]
  refine List.map_congr_left fun i member => ?_
  have below : i < length := by simpa using (List.mem_filter.mp member).1
  rw [Function.comp_apply]
  congr 1
  unfold mirror
  omega

end ClAmiga.Removing
