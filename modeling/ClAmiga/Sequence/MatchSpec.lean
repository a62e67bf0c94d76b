import ClAmiga.Sequence.Match
import ClAmiga.Sequence.RemoveDuplicates

/-!
# MISMATCH and SEARCH agree

A mismatch is the first difference of the two ranges, read from their starts or from their ends,
and a search finds the first or the last place at which there is no mismatch.
-/

namespace ClAmiga.Sequence

open Cells (Memory Linked)
open Search (AllMatch DifferAt firstDifference window)

theorem listElt_linked {memory : Memory Obj} {head : Option Nat} {cells : List Nat} {idx : Nat}
    {x : Obj} (linked : Linked memory head cells) (here : (cells.map memory.car)[idx]? = some x) :
    listElt memory idx head = x := by
  induction cells generalizing head idx with
  | nil => cases here
  | cons cell cells induction =>
      obtain ⟨rfl, onto⟩ := linked
      cases idx with
      | zero =>
          cases here
          rfl
      | succ idx =>
          rw [listElt]
          exact induction onto here

theorem seqElt_holds {memory : Memory Obj} {seq : Seq} {xs : List Obj} {idx : Nat} {x : Obj}
    (holds : seq.Holds memory xs) (here : xs[idx]? = some x) :
    seqElt memory seq idx = .ok x := by
  match seq, holds with
  | .list head, ⟨cells, linked, same⟩ =>
      subst same
      rw [seqElt, Int.toNat_natCast, listElt_linked linked here]
  | .array length contents, same =>
      obtain rfl : xs = elements length contents.elt := same
      have below : idx < length := by
        have bound := (List.getElem?_eq_some_iff.mp here).1
        rwa [length_elements] at bound
      rw [seqElt, if_neg (by omega), Int.toNat_natCast]
      simpa [elements, below] using here

section Compare

variable {isMatch : Int → Int → Except ArgError Bool} {same : Obj → Obj → Bool}

/-- The loop compares two lists, whose elements are those at the indices. -/
def Compares (isMatch : Int → Int → Except ArgError Bool) (same : Obj → Obj → Bool) (step : Int)
    (i j : Int) (as bs : List Obj) : Prop :=
  ∀ (k : Nat) (a b : Obj), as[k]? = some a → bs[k]? = some b →
    isMatch (i + step * k) (j + step * k) = .ok (same a b)

theorem Compares.tail {step i j : Int} {a b : Obj} {as bs : List Obj}
    (compares : Compares isMatch same step i j (a :: as) (b :: bs)) :
    Compares isMatch same step (i + step) (j + step) as bs := by
  intro k x y left right
  have later := compares (k + 1) x y left right
  push_cast at later
  rw [mul_add, mul_one, add_comm (step * k), ← add_assoc, ← add_assoc] at later
  exact later

/-- The loop stops at the first difference. -/
theorem compareLoop_spec {step i j : Int} {as bs : List Obj}
    (compares : Compares isMatch same step i j as bs) :
    ∃ (k : Nat) (broke : Bool), compareLoop isMatch step (min as.length bs.length) i j =
        .ok (i + step * k, j + step * k, broke) ∧
      k ≤ min as.length bs.length ∧
      (broke = true → firstDifference same as bs = some k) ∧
      (broke = false → k = min as.length bs.length ∧
        firstDifference same as bs = if as.length = bs.length then none else some k) := by
  induction as generalizing i j bs with
  | nil =>
      refine ⟨0, false, by simp [compareLoop], Nat.zero_le _, by rintro ⟨⟩, fun _ => ⟨by simp, ?_⟩⟩
      cases bs <;> rfl
  | cons a as induction =>
      cases bs with
      | nil =>
          exact ⟨0, false, by simp [compareLoop], Nat.zero_le _, by rintro ⟨⟩,
            fun _ => ⟨by simp, rfl⟩⟩
      | cons b bs =>
          have first := compares 0 a b rfl rfl
          rw [Nat.cast_zero, mul_zero, add_zero, add_zero] at first
          rw [List.length_cons, List.length_cons, Nat.add_min_add_right, compareLoop, first,
            firstDifference]
          cases matched : same a b with
          | false =>
              refine ⟨0, true, ?_, Nat.zero_le _, fun _ => rfl, by rintro ⟨⟩⟩
              rw [Nat.cast_zero, mul_zero, add_zero, add_zero]
              rfl
          | true =>
              obtain ⟨k, broke, ran, bound, found, ended⟩ := induction compares.tail
              have index (m : Int) : m + step * ((k + 1 : Nat) : Int) = m + step + step * k := by
                push_cast
                rw [mul_add, mul_one, add_comm (step * k), add_assoc]
              refine ⟨k + 1, broke, ?_, Nat.succ_le_succ bound, fun isTrue => ?_, fun isFalse => ?_⟩
              · rw [index, index]
                exact ran
              · rw [if_pos rfl, found isTrue]
                rfl
              · obtain ⟨last, rest⟩ := ended isFalse
                refine ⟨congrArg (· + 1) last, ?_⟩
                rw [if_pos rfl, rest]
                by_cases equal : as.length = bs.length
                · rw [if_pos equal, if_pos (congrArg (· + 1) equal)]
                  rfl
                · rw [if_neg equal, if_neg fun more => equal (Nat.succ.inj more)]
                  rfl

theorem compareLoop_places {i j : Int} {as bs : List Obj}
    (compares : Compares isMatch same 1 i j as bs) (equal : as.length = bs.length) :
    ∃ i' j' broke, compareLoop isMatch 1 as.length i j = .ok (i', j', broke) ∧
      (broke = false ↔ AllMatch same as bs) := by
  obtain ⟨k, broke, ran, bound, found, ended⟩ := compareLoop_spec compares
  rw [← equal, Nat.min_self] at ran
  refine ⟨_, _, broke, ran, ?_⟩
  rw [← Search.firstDifference_eq_none_iff]
  cases broke with
  | true => exact iff_of_false nofun (by rw [found rfl]; nofun)
  | false => exact iff_of_true rfl (by rw [(ended rfl).2, if_pos equal])

end Compare

/-- The loop stops at the first place that passes. -/
theorem searchLoop_spec {isPlace : Int → Except ArgError Bool} {passes : Int → Prop} (step : Int)
    {rounds : Nat} {i : Int}
    (answers : ∀ k < rounds, ∃ place, isPlace (i + step * k) = .ok place ∧
      (place = true ↔ passes (i + step * k))) :
    (searchLoop isPlace step rounds i = .ok .nil ∧ ∀ k < rounds, ¬ passes (i + step * k)) ∨
    ∃ k < rounds, searchLoop isPlace step rounds i = .ok (.fixnum (i + step * k)) ∧
      passes (i + step * k) ∧ ∀ l < k, ¬ passes (i + step * l) := by
  induction rounds generalizing i with
  | zero => exact .inl ⟨rfl, nofun⟩
  | succ rounds induction =>
      have zero : i + step * (0 : Nat) = i := by
        rw [Nat.cast_zero, mul_zero, add_zero]
      have shift (k : Nat) : i + step * ((k + 1 : Nat) : Int) = i + step + step * k := by
        push_cast
        rw [mul_add, mul_one, add_comm (step * k), add_assoc]
      obtain ⟨place, answer, decided⟩ := answers 0 (Nat.succ_pos _)
      rw [zero] at answer decided
      rw [searchLoop, answer]
      cases place with
      | true =>
          refine .inr ⟨0, Nat.succ_pos _, ?_, ?_, nofun⟩
          · rw [zero]
            rfl
          · rw [zero]
            exact decided.mp rfl
      | false =>
          have fails : ¬ passes i := fun passed => Bool.noConfusion (decided.mpr passed)
          have later : ∀ k < rounds, ∃ place, isPlace (i + step + step * k) = .ok place ∧
              (place = true ↔ passes (i + step + step * k)) := by
            intro k below
            have next := answers (k + 1) (Nat.succ_lt_succ below)
            rw [shift] at next
            exact next
          rcases induction later with ⟨ran, none⟩ | ⟨k, below, ran, passed, first⟩
          · refine .inl ⟨ran, fun k below => ?_⟩
            cases k with
            | zero =>
                rw [zero]
                exact fails
            | succ k =>
                rw [shift]
                exact none k (Nat.lt_of_succ_lt_succ below)
          · refine .inr ⟨k + 1, Nat.succ_lt_succ below, ?_, ?_, fun l less => ?_⟩
            · rw [shift]
              exact ran
            · rw [shift]
              exact passed
            · cases l with
              | zero =>
                  rw [zero]
                  exact fails
              | succ l =>
                  rw [shift]
                  exact first l (Nat.lt_of_succ_lt_succ less)

section Places

variable {isPlace : Int → Except ArgError Bool} {places : Set Int} {lo hi : Int}

theorem searchLoop_places {step start : Int} {rounds : Nat}
    (reaches : ∀ i ∈ places, ∃ k < rounds, start + step * (k : Nat) = i)
    (answers : ∀ k < rounds, ∃ place, isPlace (start + step * k) = .ok place ∧
      (place = true ↔ start + step * k ∈ places)) :
    (searchLoop isPlace step rounds start = .ok .nil ∧ places = ∅) ∨
    ∃ k : Nat, searchLoop isPlace step rounds start = .ok (.fixnum (start + step * k)) ∧
      start + step * k ∈ places ∧ ∀ i ∈ places, ∃ l : Nat, k ≤ l ∧ start + step * l = i := by
  rcases searchLoop_spec step answers with ⟨ran, nowhere⟩ | ⟨k, below, ran, found, first⟩
  · refine .inl ⟨ran, Set.eq_empty_iff_forall_notMem.mpr fun i here => ?_⟩
    obtain ⟨k, below, rfl⟩ := reaches i here
    exact nowhere k below here
  · refine .inr ⟨k, ran, found, fun i here => ?_⟩
    obtain ⟨l, -, rfl⟩ := reaches i here
    exact ⟨l, not_lt.mp fun less => first l less here, rfl⟩

theorem searchLoop_least (inside : ∀ i ∈ places, lo ≤ i ∧ i ≤ hi)
    (answers : ∀ i, lo ≤ i → i ≤ hi → ∃ place, isPlace i = .ok place ∧
      (place = true ↔ i ∈ places)) :
    (searchLoop isPlace 1 (hi - lo + 1).toNat lo = .ok .nil ∧ places = ∅) ∨
    ∃ i, searchLoop isPlace 1 (hi - lo + 1).toNat lo = .ok (.fixnum i) ∧ IsLeast places i := by
  refine (searchLoop_places (fun i here => ?_) fun k less => answers _ (by omega) (by omega)).imp
    id fun ⟨k, ran, found, first⟩ => ⟨_, ran, found, fun i here => ?_⟩
  · have bounds := inside i here
    exact ⟨(i - lo).toNat, by omega, by omega⟩
  · obtain ⟨l, later, rfl⟩ := first i here
    omega

theorem searchLoop_greatest (inside : ∀ i ∈ places, lo ≤ i ∧ i ≤ hi)
    (answers : ∀ i, lo ≤ i → i ≤ hi → ∃ place, isPlace i = .ok place ∧
      (place = true ↔ i ∈ places)) :
    (searchLoop isPlace (-1) (hi - lo + 1).toNat hi = .ok .nil ∧ places = ∅) ∨
    ∃ i, searchLoop isPlace (-1) (hi - lo + 1).toNat hi = .ok (.fixnum i) ∧
      IsGreatest places i := by
  refine (searchLoop_places (fun i here => ?_) fun k less => answers _ (by omega) (by omega)).imp
    id fun ⟨k, ran, found, first⟩ => ⟨_, ran, found, fun i here => ?_⟩
  · have bounds := inside i here
    exact ⟨(hi - i).toNat, by omega, by omega⟩
  · obtain ⟨l, later, rfl⟩ := first i here
    omega

end Places

/-- The bounds are those of ranges of the sequences. -/
structure MatchArgs.Valid (len1 len2 : Nat) (ma : MatchArgs) : Prop where
  start1 : 0 ≤ ma.start1
  ordered1 : ma.start1 ≤ ma.ending1
  ending1 : ma.ending1 ≤ len1
  start2 : 0 ≤ ma.start2
  ordered2 : ma.start2 ≤ ma.ending2
  ending2 : ma.ending2 ≤ len2

def range (xs : List Obj) (start ending : Int) : List Obj :=
  window xs start.toNat ending.toNat

/-- What MISMATCH is to return: `NIL` for ranges that match, and else the index in the first
sequence of the first difference, or from the end the index behind the last one. -/
structure Mismatches (vm : Vm) (ma : MatchArgs) (xs ys : List Obj) (result : Obj) : Prop where
  equal : result = .nil ↔
    AllMatch (ma.same vm) (range xs ma.start1 ma.ending1) (range ys ma.start2 ma.ending2)
  first : ma.fromEnd = false → result ≠ .nil → ∃ k : Nat,
    result = .fixnum (ma.start1 + k) ∧
    IsLeast {k | DifferAt (ma.same vm) (range xs ma.start1 ma.ending1)
      (range ys ma.start2 ma.ending2) k} k
  last : ma.fromEnd = true → result ≠ .nil → ∃ k : Nat,
    result = .fixnum (ma.ending1 - k) ∧
    IsLeast {k | DifferAt (ma.same vm) (range xs ma.start1 ma.ending1).reverse
      (range ys ma.start2 ma.ending2).reverse k} k

/-- The arguments of the comparison at a place of the search. -/
def MatchArgs.place (ma : MatchArgs) (i : Int) (fromEnd : Bool) : MatchArgs :=
  { ma with start2 := i, ending2 := i + (ma.ending1 - ma.start1), fromEnd := fromEnd }

/-- The places with no mismatch. -/
def places (vm : Vm) (ma : MatchArgs) (memory : Memory Obj) (seq1 seq2 : Seq) (fromEnd : Bool) :
    Set Int :=
  {i | ma.start2 ≤ i ∧ i ≤ ma.ending2 - (ma.ending1 - ma.start1) ∧
    mismatchSeq vm (ma.place i fromEnd) memory seq1 seq2 = .ok .nil}

def Finds (ma : MatchArgs) (places : Set Int) (result : Obj) : Prop :=
  (result = .nil ∧ places = ∅) ∨
    ∃ i, result = .fixnum i ∧ if ma.fromEnd then IsGreatest places i else IsLeast places i

section Body

variable {vm : Vm} {ma : MatchArgs} {memory : Memory Obj} {seq1 seq2 : Seq} {xs ys : List Obj}

theorem length_range {zs : List Obj} {start ending : Int} (inside : ending ≤ zs.length) :
    (range zs start ending).length = ending.toNat - start.toNat :=
  Search.length_window (by omega)

theorem seqElt_range {seq : Seq} {zs : List Obj} {start ending : Int} {k : Nat} {z : Obj}
    (holds : seq.Holds memory zs) (start0 : 0 ≤ start)
    (here : (range zs start ending)[k]? = some z) :
    seqElt memory seq (start + k) = .ok z := by
  obtain ⟨n, rfl⟩ := Int.eq_ofNat_of_zero_le start0
  exact seqElt_holds holds (Search.getElem?_window here)

theorem seqElt_range_reverse {seq : Seq} {zs : List Obj} {start ending : Int} {k : Nat} {z : Obj}
    (holds : seq.Holds memory zs) (inside : ending ≤ zs.length)
    (here : (range zs start ending).reverse[k]? = some z) :
    seqElt memory seq (ending - 1 - k) = .ok z := by
  obtain ⟨below, place⟩ := Search.getElem?_reverse_window (by omega) here
  have index : ending - 1 - k = ((ending.toNat - 1 - k : Nat) : Int) := by omega
  rw [index]
  exact seqElt_holds holds place

theorem matchElements_ok {i j : Int} {x y : Obj} (left : seqElt memory seq1 i = .ok x)
    (right : seqElt memory seq2 j = .ok y) :
    matchElements vm ma memory seq1 seq2 i j = .ok (ma.same vm x y) := by
  rw [matchElements, left, right]
  rfl

theorem compares_ranges (holds1 : seq1.Holds memory xs) (holds2 : seq2.Holds memory ys)
    {i j : Int} (start1 : 0 ≤ i) (start2 : 0 ≤ j) (ending1 ending2 : Int) :
    Compares (matchElements vm ma memory seq1 seq2) (ma.same vm) 1 i j (range xs i ending1)
      (range ys j ending2) := by
  intro k a b left right
  rw [one_mul]
  exact matchElements_ok (seqElt_range holds1 start1 left) (seqElt_range holds2 start2 right)

theorem compares_reversed (holds1 : seq1.Holds memory xs) (holds2 : seq2.Holds memory ys)
    (valid : ma.Valid xs.length ys.length) :
    Compares (matchElements vm ma memory seq1 seq2) (ma.same vm) (-1) (ma.ending1 - 1)
      (ma.ending2 - 1) (range xs ma.start1 ma.ending1).reverse
      (range ys ma.start2 ma.ending2).reverse := by
  intro k a b left right
  rw [neg_one_mul]
  exact matchElements_ok (seqElt_range_reverse holds1 valid.ending1 left)
    (seqElt_range_reverse holds2 valid.ending2 right)

theorem Mismatches.of_none (all : AllMatch (ma.same vm) (range xs ma.start1 ma.ending1)
      (range ys ma.start2 ma.ending2)) : Mismatches vm ma xs ys .nil :=
  ⟨iff_of_true rfl all, fun _ differs => absurd rfl differs, fun _ differs => absurd rfl differs⟩

theorem Mismatches.of_first {k : Nat} (direction : ma.fromEnd = false)
    (found : firstDifference (ma.same vm) (range xs ma.start1 ma.ending1)
      (range ys ma.start2 ma.ending2) = some k) :
    Mismatches vm ma xs ys (.fixnum (ma.start1 + k)) := by
  refine ⟨?_, fun _ _ => ⟨k, rfl, Search.firstDifference_isLeast found⟩, fun fromEnd => ?_⟩
  · rw [← Search.firstDifference_eq_none_iff, found]
    exact iff_of_false (by rintro ⟨⟩) (by rintro ⟨⟩)
  · rw [direction] at fromEnd
    cases fromEnd

theorem Mismatches.of_last {k : Nat} (direction : ma.fromEnd = true)
    (found : firstDifference (ma.same vm) (range xs ma.start1 ma.ending1).reverse
      (range ys ma.start2 ma.ending2).reverse = some k) :
    Mismatches vm ma xs ys (.fixnum (ma.ending1 - k)) := by
  refine ⟨?_, fun fromStart => ?_, fun _ _ => ⟨k, rfl, Search.firstDifference_isLeast found⟩⟩
  · rw [AllMatch, ← List.forall₂_reverse_iff]
    rw [← AllMatch, ← Search.firstDifference_eq_none_iff, found]
    exact iff_of_false (by rintro ⟨⟩) (by rintro ⟨⟩)
  · rw [direction] at fromStart
    cases fromStart

/-- MISMATCH returns the first difference, from either end. -/
theorem mismatchSeq_spec (holds1 : seq1.Holds memory xs) (holds2 : seq2.Holds memory ys)
    (valid : ma.Valid xs.length ys.length) :
    ∃ result, mismatchSeq vm ma memory seq1 seq2 = .ok result ∧ Mismatches vm ma xs ys result := by
  have reversed := @compares_reversed vm ma memory seq1 seq2 xs ys holds1 holds2 valid
  obtain ⟨start1, ordered1, ending1, start2, ordered2, ending2⟩ := valid
  have length1 := @length_range xs ma.start1 ma.ending1 ending1
  have length2 := @length_range ys ma.start2 ma.ending2 ending2
  have rounds1 : (ma.ending1 - ma.start1).toNat = ma.ending1.toNat - ma.start1.toNat := by omega
  have rounds2 : (ma.ending2 - ma.start2).toNat = ma.ending2.toNat - ma.start2.toNat := by omega
  cases direction : ma.fromEnd with
  | false =>
      obtain ⟨k, broke, ran, bound, found, ended⟩ := compareLoop_spec
        (@compares_ranges vm ma memory seq1 seq2 xs ys holds1 holds2 _ _ start1 start2
          ma.ending1 ma.ending2)
      rw [length1, length2, ← rounds1, ← rounds2] at ran ended
      rw [mismatchSeq, direction, if_neg Bool.false_ne_true, ran, one_mul]
      cases broke with
      | true => exact ⟨_, rfl, Mismatches.of_first direction (found rfl)⟩
      | false =>
          obtain ⟨last, rest⟩ := ended rfl
          by_cases equal : (ma.ending1 - ma.start1).toNat = (ma.ending2 - ma.start2).toNat
          · rw [if_pos equal, Search.firstDifference_eq_none_iff] at rest
            refine ⟨.nil, ?_, Mismatches.of_none rest⟩
            exact if_pos (by omega)
          · rw [if_neg equal] at rest
            refine ⟨_, ?_, Mismatches.of_first direction rest⟩
            exact if_neg (by omega)
  | true =>
      obtain ⟨k, broke, ran, bound, found, ended⟩ := compareLoop_spec reversed
      rw [List.length_reverse, List.length_reverse, length1, length2, ← rounds1, ← rounds2]
        at ran bound ended
      rw [mismatchSeq, direction, if_pos rfl, ran, neg_one_mul]
      have position : ma.ending1 - 1 + -(k : Int) + 1 = ma.ending1 - k := by omega
      cases broke with
      | true =>
          refine ⟨_, ?_, Mismatches.of_last direction (found rfl)⟩
          refine (if_pos ?_).trans ?_
          · change ma.ending1 - 1 + -(k : Int) + 1 ≥ 0
            omega
          · change Except.ok (Obj.fixnum (ma.ending1 - 1 + -(k : Int) + 1)) = _
            rw [position]
      | false =>
          obtain ⟨last, rest⟩ := ended rfl
          by_cases equal : (ma.ending1 - ma.start1).toNat = (ma.ending2 - ma.start2).toNat
          · rw [if_pos equal, Search.firstDifference_eq_none_iff, AllMatch,
              List.forall₂_reverse_iff] at rest
            refine ⟨.nil, ?_, Mismatches.of_none rest⟩
            exact if_neg (by omega)
          · rw [if_neg equal] at rest
            refine ⟨_, ?_, Mismatches.of_last direction rest⟩
            refine (if_pos (by omega)).trans ?_
            by_cases shorter : ma.ending1 - ma.start1 < ma.ending2 - ma.start2
            · have index : ma.start1 = ma.ending1 - k := by omega
              rw [if_pos shorter, ← index]
            · have index : ma.start1 + (ma.ending1 - ma.start1 - (ma.ending2 - ma.start2)) =
                  ma.ending1 - k := by
                omega
              rw [if_neg shorter, index]

/-- At a place of the search, in either direction, there is no mismatch exactly if all elements
match. -/
theorem mismatchSeq_place (holds1 : seq1.Holds memory xs) (holds2 : seq2.Holds memory ys)
    (valid : ma.Valid xs.length ys.length) {i : Int} (above : ma.start2 ≤ i)
    (below : i ≤ ma.ending2 - (ma.ending1 - ma.start1)) (fromEnd : Bool) :
    mismatchSeq vm (ma.place i fromEnd) memory seq1 seq2 = .ok .nil ↔
      AllMatch (ma.same vm) (range xs ma.start1 ma.ending1)
        (range ys i (i + (ma.ending1 - ma.start1))) := by
  obtain ⟨start1, ordered1, ending1, start2, ordered2, ending2⟩ := valid
  have placed : (ma.place i fromEnd).Valid xs.length ys.length := by
    constructor <;> dsimp only [MatchArgs.place] <;> omega
  obtain ⟨result, ran, spec⟩ :=
    @mismatchSeq_spec vm (ma.place i fromEnd) memory seq1 seq2 xs ys holds1 holds2 placed
  rw [ran, Except.ok.injEq]
  exact spec.equal

theorem mem_places (holds1 : seq1.Holds memory xs) (holds2 : seq2.Holds memory ys)
    (valid : ma.Valid xs.length ys.length) (fromEnd : Bool) {i : Int} :
    i ∈ places vm ma memory seq1 seq2 fromEnd ↔
      ma.start2 ≤ i ∧ i ≤ ma.ending2 - (ma.ending1 - ma.start1) ∧
        AllMatch (ma.same vm) (range xs ma.start1 ma.ending1)
          (range ys i (i + (ma.ending1 - ma.start1))) := by
  constructor
  · rintro ⟨above, below, matched⟩
    exact ⟨above, below, (mismatchSeq_place holds1 holds2 valid above below fromEnd).mp matched⟩
  · rintro ⟨above, below, matched⟩
    exact ⟨above, below, (mismatchSeq_place holds1 holds2 valid above below fromEnd).mpr matched⟩

theorem mem_places_empty (holds1 : seq1.Holds memory xs) (holds2 : seq2.Holds memory ys)
    (valid : ma.Valid xs.length ys.length) (fromEnd : Bool)
    (empty : ma.ending1 - ma.start1 ≤ 0) {i : Int} :
    i ∈ places vm ma memory seq1 seq2 fromEnd ↔ ma.start2 ≤ i ∧ i ≤ ma.ending2 := by
  rw [mem_places holds1 holds2 valid]
  obtain ⟨start1, ordered1, ending1, start2, ordered2, ending2⟩ := valid
  have none1 : range xs ma.start1 ma.ending1 = [] := by
    apply List.eq_nil_of_length_eq_zero
    rw [length_range ending1]
    omega
  constructor
  · rintro ⟨above, below, _⟩
    exact ⟨above, by omega⟩
  · rintro ⟨above, below⟩
    have none2 : range ys i (i + (ma.ending1 - ma.start1)) = [] := by
      apply List.eq_nil_of_length_eq_zero
      rw [length_range (by omega)]
      omega
    rw [none1, none2]
    exact ⟨above, by omega, .nil⟩

theorem compareLoop_place (holds1 : seq1.Holds memory xs) (holds2 : seq2.Holds memory ys)
    (valid : ma.Valid xs.length ys.length) (fromEnd : Bool) {i : Int} (above : ma.start2 ≤ i)
    (below : i ≤ ma.ending2 - (ma.ending1 - ma.start1)) :
    ∃ i' j' broke, compareLoop (matchElements vm ma memory seq1 seq2) 1
        (ma.ending1 - ma.start1).toNat ma.start1 i = .ok (i', j', broke) ∧
      (broke = false ↔ i ∈ places vm ma memory seq1 seq2 fromEnd) := by
  rw [mem_places holds1 holds2 valid, and_iff_right above, and_iff_right below]
  obtain ⟨start1, ordered1, ending1, start2, ordered2, ending2⟩ := valid
  have length1 := @length_range xs ma.start1 ma.ending1 ending1
  have length2 := @length_range ys i (i + (ma.ending1 - ma.start1)) (by omega)
  have rounds : (ma.ending1 - ma.start1).toNat = (range xs ma.start1 ma.ending1).length := by
    rw [length1]
    omega
  rw [rounds]
  exact compareLoop_places (compares_ranges holds1 holds2 start1 (by omega) _ _) (by omega)

/-- The two functions agree. -/
theorem search_mismatch (holds1 : seq1.Holds memory xs) (holds2 : seq2.Holds memory ys)
    (valid : ma.Valid xs.length ys.length) :
    (∃ result, mismatchSeq vm ma memory seq1 seq2 = .ok result ∧ Mismatches vm ma xs ys result) ∧
    ∀ fromEnd, ∃ result, searchSeq vm ma memory seq1 seq2 = .ok result ∧
      Finds ma (places vm ma memory seq1 seq2 fromEnd) result := by
  refine ⟨mismatchSeq_spec holds1 holds2 valid, fun fromEnd => ?_⟩
  have ordered2 := valid.ordered2
  rw [searchSeq]
  by_cases empty : ma.ending1 - ma.start1 ≤ 0
  · rw [if_pos empty]
    have member {i : Int} := @mem_places_empty vm ma memory seq1 seq2 xs ys holds1 holds2 valid
      fromEnd empty i
    refine ⟨_, rfl, .inr ⟨_, rfl, ?_⟩⟩
    cases ma.fromEnd with
    | false => exact ⟨member.mpr ⟨le_rfl, ordered2⟩, fun i here => (member.mp here).1⟩
    | true => exact ⟨member.mpr ⟨ordered2, le_rfl⟩, fun i here => (member.mp here).2⟩
  · rw [if_neg empty]
    have answers (i : Int) (above : ma.start2 ≤ i)
        (below : i ≤ ma.ending2 - (ma.ending1 - ma.start1)) :
        ∃ place, (compareLoop (matchElements vm ma memory seq1 seq2) 1
            (ma.ending1 - ma.start1).toNat ma.start1 i >>= fun compared =>
          Except.ok !compared.2.2) = .ok place ∧
          (place = true ↔ i ∈ places vm ma memory seq1 seq2 fromEnd) := by
      obtain ⟨i', j', broke, ran, found⟩ :=
        compareLoop_place holds1 holds2 valid fromEnd above below
      refine ⟨!broke, ?_, ?_⟩
      · rw [ran]
        rfl
      · rw [Bool.not_eq_true']
        exact found
    have inside : ∀ i ∈ places vm ma memory seq1 seq2 fromEnd,
        ma.start2 ≤ i ∧ i ≤ ma.ending2 - (ma.ending1 - ma.start1) :=
      fun i here => ⟨here.1, here.2.1⟩
    unfold Finds
    cases direction : ma.fromEnd with
    | false =>
        rw [if_neg Bool.false_ne_true]
        rcases searchLoop_least inside answers with ⟨ran, none⟩ | ⟨i, ran, least⟩
        · exact ⟨_, ran, .inl ⟨rfl, none⟩⟩
        · exact ⟨_, ran, .inr ⟨i, rfl, least⟩⟩
    | true =>
        rw [if_pos rfl]
        rcases searchLoop_greatest inside answers with ⟨ran, none⟩ | ⟨i, ran, greatest⟩
        · exact ⟨_, ran, .inl ⟨rfl, none⟩⟩
        · exact ⟨_, ran, .inr ⟨i, rfl, greatest⟩⟩

end Body

/-- The arguments of a search from the right for two elements among five. -/
def pairFromRight : MatchArgs where
  testFn := .other 0
  testNotFn := .nil
  keyFn := .nil
  start1 := 0
  ending1 := 2
  start2 := 0
  ending2 := 5
  fromEnd := true

def nearSeq : Seq := .array 5 (.vector (twoNearSix.getD · .nil))

/-- The pair 2, 1 in 1, 2, 2, 6, 1. -/
theorem search_mismatch_pair :
    (∃ result, mismatchSeq nearby pairFromRight twoOne (.list (some 0)) nearSeq = .ok result ∧
      Mismatches nearby pairFromRight [.fixnum 2, .fixnum 1] twoNearSix result) ∧
    ∀ fromEnd, ∃ result,
      searchSeq nearby pairFromRight twoOne (.list (some 0)) nearSeq = .ok result ∧
        Finds pairFromRight (places nearby pairFromRight twoOne (.list (some 0)) nearSeq fromEnd)
          result :=
  search_mismatch twoOne_holds (by rfl)
    ⟨by decide, by decide, by decide, by decide, by decide, by decide⟩

example : searchSeq nearby pairFromRight twoOne (.list (some 0)) nearSeq = .ok (.fixnum 1) := by
  rfl

end ClAmiga.Sequence
