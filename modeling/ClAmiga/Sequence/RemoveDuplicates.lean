import ClAmiga.Removing.Duplicates
import ClAmiga.Sequence.RemoveSpec

/-!
# REMOVE-DUPLICATES

One pass over the range with a bit for each element: an element loses its bit when it matches an
element that still has one, later in the range or, with `:from-end`, earlier in it.
-/

namespace ClAmiga.Sequence

open Cells (Memory Linked)
open Removing (Within SettledBySurvivors scan survives pick mirror)

/-- `rd_match` -/
def rdMatch (vm : Vm) (sa : SeqArgs) (a b : Obj) : Bool :=
  let ka := applyKey vm sa.keyFn a
  let kb := applyKey vm sa.keyFn b
  if sa.testNotFn ≠ .nil then decide (vm.callTest sa.testNotFn ka kb = .nil)
  else decide (vm.callTest sa.testFn ka kb ≠ .nil)

/-- The loop over `j`, so many rounds from it: whether it stops at a match. -/
def matchesKept (keep : Nat → Bool) (isMatch : Nat → Bool) : Nat → Nat → Bool
  | _, 0 => false
  | j, rounds + 1 =>
      if keep j && isMatch j then true else matchesKept keep isMatch (j + 1) rounds

/-- The loop over `i` from the start of the range: the bits after so many rounds. -/
def keepBits (isMatch : Nat → Nat → Bool) (start ending : Nat) (fromEnd : Bool) : Nat → Nat → Bool
  | 0 => fun _ => true
  | rounds + 1 =>
      let keep := keepBits isMatch start ending fromEnd rounds
      let i := start + rounds
      let found :=
        if !fromEnd then matchesKept keep (isMatch i) (i + 1) (ending - (i + 1))
        else matchesKept keep (isMatch i) start (i - start)
      if found then Function.update keep i false else keep

def snapshotList (memory : Memory Obj) : Nat → Option Nat → Option (List Obj)
  | _, none => some []
  | 0, some _ => none
  | fuel + 1, some cell =>
      (snapshotList memory fuel (memory.cdr cell)).map (memory.car cell :: ·)

def rangeStart (sa : SeqArgs) : Nat :=
  (if sa.start < 0 then 0 else sa.start).toNat

def rangeEnd (len : Nat) (sa : SeqArgs) : Nat :=
  (if sa.ending < 0 ∨ sa.ending > len then (len : Int) else sa.ending).toNat

def duplicateBits (vm : Vm) (sa : SeqArgs) (len : Nat) (tmp : Nat → Obj) : Nat → Bool :=
  keepBits (fun i j => rdMatch vm sa (tmp i) (tmp j)) (rangeStart sa) (rangeEnd len sa) sa.fromEnd
    (rangeEnd len sa - rangeStart sa)

/-- The body of `bi_remove_duplicates`; lists are copied, and an array goes to a fresh one of its
class. -/
def removeDuplicatesSeq (vm : Vm) (fuel : Nat) (sa : SeqArgs) (memory : Memory Obj) (seq : Seq) :
    Option RemoveResult :=
  match seq with
  | .list head => do
      let elems ← snapshotList memory fuel head
      let tmp := fun i => elems.getD i .nil
      let keep := duplicateBits vm sa elems.length tmp
      some (.fresh (((List.range elems.length).filter keep).map tmp))
  | .array length contents =>
      let (length, contents) := collect (duplicateBits vm sa length contents.elt) contents length
      some (.array length contents)

theorem matchesKept_eq (keep isMatch : Nat → Bool) (j rounds : Nat) :
    matchesKept keep isMatch j rounds =
      (List.range' j rounds).any fun k => keep k && isMatch k := by
  induction rounds generalizing j with
  | zero => rfl
  | succ rounds induction =>
      rw [matchesKept, List.range'_succ, List.any_cons, induction]
      by_cases hit : (keep j && isMatch j) = true
      · rw [if_pos hit, hit, Bool.true_or]
      · rw [if_neg hit]
        rw [Bool.not_eq_true] at hit
        rw [hit, Bool.false_or]

theorem keepBits_eq_scan (isMatch : Nat → Nat → Bool) (start ending : Nat) (fromEnd : Bool)
    (rounds : Nat) :
    keepBits isMatch start ending fromEnd rounds = scan isMatch start ending fromEnd rounds := by
  induction rounds with
  | zero => rfl
  | succ rounds induction =>
      rw [keepBits, scan, induction]
      cases fromEnd with
      | false =>
          simp only [matchesKept_eq, Removing.side, Bool.not_false, Bool.false_eq_true, if_true,
            if_false]
      | true =>
          simp only [matchesKept_eq, Removing.side, Bool.not_true, Bool.false_eq_true, if_true,
            if_false]

theorem snapshotList_linked {memory : Memory Obj} {fuel : Nat} {head : Option Nat}
    {cells : List Nat} (linked : Linked memory head cells) (enough : cells.length ≤ fuel) :
    snapshotList memory fuel head = some (cells.map memory.car) := by
  induction cells generalizing head fuel with
  | nil =>
      obtain rfl : head = none := linked
      cases fuel <;> rfl
  | cons cell cells induction =>
      obtain ⟨rfl, onto⟩ := linked
      match fuel with
      | fuel + 1 =>
          rw [snapshotList, induction onto (Nat.le_of_succ_le_succ enough)]
          rfl

/-- The match of two elements of a sequence, by their indices. -/
def matchAt (vm : Vm) (sa : SeqArgs) (xs : List Obj) (i j : Nat) : Bool :=
  rdMatch vm sa (xs.getD i .nil) (xs.getD j .nil)

/-- The elements outside the range and those that match none on one side of them in the range. -/
def unmatched (vm : Vm) (sa : SeqArgs) (xs : List Obj) : List Obj :=
  pick (survives (matchAt vm sa xs) (rangeStart sa) (rangeEnd xs.length sa) sa.fromEnd) xs.length
    (xs.getD · .nil)

/-- The bounds are those of a range in a sequence of the length. -/
structure SeqArgs.Valid (len : Nat) (sa : SeqArgs) : Prop where
  start : 0 ≤ sa.start
  ordered : sa.start ≤ endOf len sa.ending
  ending : endOf len sa.ending ≤ len

/-- The arguments of the mirrored call: from the other end, over the mirrored range. -/
def SeqArgs.mirrored (len : Nat) (sa : SeqArgs) : SeqArgs :=
  { sa with
    start := len - endOf len sa.ending
    ending := len - sa.start
    fromEnd := !sa.fromEnd }

theorem rangeEnd_le (len : Nat) (sa : SeqArgs) : rangeEnd len sa ≤ len := by
  unfold rangeEnd
  split <;> omega

section Body

variable {vm : Vm} {sa : SeqArgs} {memory : Memory Obj} {seq : Seq} {xs : List Obj}

theorem removeDuplicatesSeq_scan {fuel : Nat} (holds : seq.Holds memory xs)
    (enough : xs.length ≤ fuel) :
    ∃ result, removeDuplicatesSeq vm fuel sa memory seq = some result ∧
      result.Holds memory (pick (scan (matchAt vm sa xs) (rangeStart sa) (rangeEnd xs.length sa)
        sa.fromEnd (rangeEnd xs.length sa - rangeStart sa)) xs.length (xs.getD · .nil)) := by
  match seq, holds with
  | .list head, ⟨cells, linked, same⟩ =>
      subst same
      rw [List.length_map] at enough
      refine ⟨_, by rw [removeDuplicatesSeq, snapshotList_linked linked enough]; rfl, ?_⟩
      rw [duplicateBits, keepBits_eq_scan]
      rfl
  | .array length contents, same =>
      obtain rfl : xs = elements length contents.elt := same
      refine ⟨_, rfl, ?_⟩
      have picked := (collect_elements (duplicateBits vm sa length contents.elt) contents length).2
      have bits : duplicateBits vm sa length contents.elt =
          scan (matchAt vm sa (elements length contents.elt)) (rangeStart sa)
            (rangeEnd length sa) sa.fromEnd (rangeEnd length sa - rangeStart sa) := by
        rw [duplicateBits, keepBits_eq_scan]
        refine Removing.scan_congr (fun i j iWithin jWithin => ?_) le_rfl
        have iBelow := Nat.lt_of_lt_of_le iWithin.2 (rangeEnd_le length sa)
        have jBelow := Nat.lt_of_lt_of_le jWithin.2 (rangeEnd_le length sa)
        simp [matchAt, elements, iBelow, jBelow]
      rw [RemoveResult.Holds, picked, length_elements, bits, pick]
      refine List.map_congr_left fun i member => ?_
      have below : i < length := List.mem_range.mp (List.mem_filter.mp member).1
      simp [elements, below]

/-- What a call is to return: the unmatched elements, and with `:from-end` the mirror image of
the call on the reversed sequence. -/
structure RemovesDuplicates (vm : Vm) (fuel : Nat) (sa : SeqArgs) (memory : Memory Obj) (seq : Seq)
    (xs : List Obj) : Prop where
  kept : ∃ result, removeDuplicatesSeq vm fuel sa memory seq = some result ∧
    result.Holds memory (unmatched vm sa xs)
  mirrored : sa.fromEnd = true → ∀ reversed : Seq, reversed.Holds memory xs.reverse →
    ∃ result image ys, removeDuplicatesSeq vm fuel sa memory seq = some result ∧
      removeDuplicatesSeq vm fuel (sa.mirrored xs.length) memory reversed = some image ∧
      image.Holds memory ys ∧ result.Holds memory ys.reverse

theorem rangeStart_mirrored (valid : sa.Valid xs.length) :
    rangeStart (sa.mirrored xs.length) = xs.length - rangeEnd xs.length sa := by
  obtain ⟨start, ordered, ending⟩ := valid
  unfold rangeStart rangeEnd SeqArgs.mirrored
  unfold endOf at ordered ending ⊢
  dsimp only
  split at ending
  next unset =>
    rw [if_pos unset, if_pos (Or.inl unset), if_neg (by omega)]
    omega
  next given =>
    rw [if_neg given, if_neg (by omega : ¬ (sa.ending < 0 ∨ sa.ending > xs.length)),
      if_neg (by omega)]
    omega

theorem rangeEnd_mirrored (valid : sa.Valid xs.length) :
    rangeEnd xs.length (sa.mirrored xs.length) = xs.length - rangeStart sa := by
  obtain ⟨start, ordered, ending⟩ := valid
  have below := Int.le_trans ordered ending
  unfold rangeStart rangeEnd SeqArgs.mirrored
  dsimp only
  rw [if_neg (by omega), if_neg (by omega)]
  omega

theorem unmatched_mirrored (valid : sa.Valid xs.length) (fromEnd : sa.fromEnd = true) :
    unmatched vm (sa.mirrored xs.length) xs.reverse = (unmatched vm sa xs).reverse := by
  have place {i : Nat} (below : i < xs.length) :
      xs.reverse.getD (mirror xs.length i) .nil = xs.getD i .nil := by
    have back : xs.length - 1 - mirror xs.length i = i := by
      unfold mirror
      omega
    have inside : mirror xs.length i < xs.length := by
      unfold mirror
      omega
    simp [List.getD_eq_getElem?_getD, List.getElem?_reverse inside, back]
  have matched : ∀ i < xs.length, ∀ j < xs.length,
      matchAt vm (sa.mirrored xs.length) xs.reverse (mirror xs.length i) (mirror xs.length j) =
        matchAt vm sa xs i j := by
    intro i iBelow j jBelow
    rw [matchAt, place iBelow, place jBelow]
    rfl
  have towardsEnd : (sa.mirrored xs.length).fromEnd = false := by
    change (!sa.fromEnd) = false
    rw [fromEnd]
    rfl
  rw [unmatched, unmatched, List.length_reverse, rangeStart_mirrored valid,
    rangeEnd_mirrored valid, towardsEnd, fromEnd]
  have elements : pick (survives (matchAt vm (sa.mirrored xs.length) xs.reverse)
      (xs.length - rangeEnd xs.length sa) (xs.length - rangeStart sa) false) xs.length
        (xs.reverse.getD · .nil) =
      pick (survives (matchAt vm (sa.mirrored xs.length) xs.reverse)
        (xs.length - rangeEnd xs.length sa) (xs.length - rangeStart sa) false) xs.length
          (fun i => xs.getD (mirror xs.length i) .nil) := by
    refine List.map_congr_left fun i member => ?_
    have below : i < xs.length := List.mem_range.mp (List.mem_filter.mp member).1
    have inside : mirror xs.length i < xs.length := by
      unfold mirror
      omega
    have back : mirror xs.length (mirror xs.length i) = i := by
      unfold mirror
      omega
    have at_ := place inside
    rw [back] at at_
    exact at_
  rw [elements]
  have bound := rangeEnd_le xs.length sa
  exact @Removing.pick_mirror Obj _ _ xs.length (xs.getD · .nil) fun i below =>
    Removing.survives_mirror bound matched below

/-- From the front the rule always holds, and from the end exactly if every element that matches
an earlier one matches an earlier one that matches none. -/
theorem removeDuplicates_iff {fuel : Nat} (holds : seq.Holds memory xs)
    (enough : xs.length ≤ fuel) (valid : sa.Valid xs.length) :
    RemovesDuplicates vm fuel sa memory seq xs ↔ (sa.fromEnd = true →
        SettledBySurvivors (matchAt vm sa xs) (rangeStart sa) (rangeEnd xs.length sa)) := by
  obtain ⟨result, ran, scanned⟩ := @removeDuplicatesSeq_scan vm sa memory seq xs fuel holds enough
  cases direction : sa.fromEnd with
  | false =>
      rw [direction, Removing.scan_after] at scanned
      refine iff_of_true ⟨⟨result, ran, ?_⟩, fun fromEnd => ?_⟩ (fun fromEnd => ?_)
      · rw [unmatched, direction]
        exact scanned
      · rw [direction] at fromEnd
        cases fromEnd
      · cases fromEnd
  | true =>
      rw [direction] at scanned
      rw [← Removing.scan_before_iff, imp_iff_right rfl]
      constructor
      · rintro ⟨⟨result', ran', unmatchedHeld⟩, _⟩
        rw [ran] at ran'
        cases ran'
        have same := scanned.unique unmatchedHeld
        rw [unmatched, direction, Removing.pick_eq_iff fun i => Removing.scan_of_survives] at same
        funext i
        by_cases below : i < xs.length
        · exact same i below
        · have outside : ¬ Within (rangeStart sa) (rangeEnd xs.length sa) i := fun within =>
            below (Nat.lt_of_lt_of_le within.2 (rangeEnd_le _ _))
          rw [Removing.scan_not_within outside, Removing.survives_outside outside]
      · intro same
        have kept : result.Holds memory (unmatched vm sa xs) := by
          rw [unmatched, direction, ← same]
          exact scanned
        refine ⟨⟨result, ran, kept⟩, fun _ reversed reversedHolds => ?_⟩
        obtain ⟨image, imageRan, imageScanned⟩ :=
          @removeDuplicatesSeq_scan vm (sa.mirrored xs.length) memory reversed xs.reverse fuel
            reversedHolds (by rw [List.length_reverse]; exact enough)
        have towardsEnd : (sa.mirrored xs.length).fromEnd = false := by
          change (!sa.fromEnd) = false
          rw [direction]
          rfl
        rw [towardsEnd, Removing.scan_after] at imageScanned
        have imageHolds : image.Holds memory (unmatched vm sa xs).reverse := by
          rw [← unmatched_mirrored valid direction, unmatched, towardsEnd]
          exact imageScanned
        exact ⟨result, image, _, ran, imageRan, imageHolds, by
          rw [List.reverse_reverse]
          exact kept⟩

end Body

/-- A machine whose one test holds of fixnums that differ by one at most. -/
def nearby : Vm where
  functions :=
    { unwrap _ := none
      isFunction obj := decide (obj = .other 0)
      symbolFunction _ := none
      eql := .other 0 }
  call1 _ x := x
  callTest _ x y :=
    match x, y with
    | .fixnum m, .fixnum n => if (m - n).natAbs ≤ 1 then .symbol 0 else .nil
    | _, _ => .nil

/-- The arguments of a call from the end on a sequence of three. -/
def fromTheEnd : SeqArgs where
  testFn := .other 0
  testNotFn := .nil
  keyFn := .nil
  start := 0
  ending := -1
  count := -1
  fromEnd := true

def oneTwoThree : Seq := .array 3 (.vector fun i => .fixnum (i + 1))

/-- 1, 2, 2, 6 and 1: what matches an earlier element matches the first one. -/
def twoNearSix : List Obj :=
  [.fixnum 1, .fixnum 2, .fixnum 2, .fixnum 6, .fixnum 1]

/-- The second 2 matches the first 2, which goes, and the 1, which stays. -/
theorem removeDuplicates_iff_settled :
    RemovesDuplicates nearby 5 fromTheEnd twoOne (.array 5 (.vector (twoNearSix.getD · .nil)))
      twoNearSix := by
  refine (@removeDuplicates_iff nearby fromTheEnd twoOne
    (.array 5 (.vector (twoNearSix.getD · .nil))) twoNearSix 5 (by rfl) (by decide)
    ⟨by decide, by decide, by decide⟩).mpr fun _ => ?_
  have toFirst : ∀ i < 5, ∀ j < i, matchAt nearby fromTheEnd twoNearSix i j = true →
      matchAt nearby fromTheEnd twoNearSix i 0 = true := by decide
  rintro i ⟨_, below⟩ ⟨j, _, earlier, matched⟩
  exact ⟨0, ⟨by decide, by decide⟩, by omega, toFirst i below j earlier matched,
    fun k _ before => absurd before (Nat.not_lt_zero k)⟩

/-- The test is symmetric.  The 3 matches the 2, which lost its bit to the 1 and is not asked. -/
theorem chain_kept : (∀ a b, rdMatch nearby fromTheEnd a b = rdMatch nearby fromTheEnd b a) ∧
    ¬ RemovesDuplicates nearby 3 fromTheEnd twoOne oneTwoThree
      [.fixnum 1, .fixnum 2, .fixnum 3] := by
  constructor
  · intro a b
    cases a with
    | fixnum m =>
        cases b with
        | fixnum n =>
            have same : (m - n).natAbs = (n - m).natAbs := by omega
            simp [rdMatch, applyKey, nearby, fromTheEnd, same]
        | _ => rfl
    | _ => cases b <;> rfl
  · rintro ⟨⟨result, ran, held⟩, _⟩
    have both : result.Holds twoOne [.fixnum 1, .fixnum 3] := by
      cases ran
      rfl
    exact absurd (both.unique held) (by decide)

end ClAmiga.Sequence
