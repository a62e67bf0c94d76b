import ClAmiga.Sequence.RemoveLoops
import ClAmiga.Sequence.SortSpec

/-!
# REMOVE and DELETE agree

Every representation loses the first, or with `:from-end` the last, of the matching elements in
the range.  Only the strings differ: they are not told of `:test-not`, so that they agree just
when the tests agree on the elements that are reached.
-/

namespace ClAmiga.Sequence

open Cells (Memory Linked)
open Keyed (values)
open Removing (dropFirst dropLast keepFirst Agree)

def inside (start ending : Int) (i : Nat) : Bool :=
  decide (start ≤ i) && decide ((i : Int) < ending)

/-- The elements without the first, or from the end the last, of the matches in the range. -/
def remaining (isMatch : Obj → Bool) (start ending : Int) (limit : Option Nat) (fromEnd : Bool)
    (xs : List Obj) : List Obj :=
  let marked := marks (inside start ending) 0 xs
  (if fromEnd then dropLast (candidate isMatch) limit marked
    else dropFirst (candidate isMatch) limit marked).map Prod.fst

theorem inRange_inside {start ending : Int} (given : 0 ≤ ending) :
    (fun i : Nat => inRange start ending i) = inside start ending := by
  funext i
  have positive : ¬ ending < 0 := by omega
  simp [inRange, inside, positive]

variable {count : Int}

theorem skipCount_eq (total : Nat) (given : 0 ≤ count) :
    skipCount total count = (total - count.toNat : Nat) := by
  rw [skipCount]
  split <;> omega

theorem limitOf_some (given : 0 ≤ count) : limitOf count = some count.toNat :=
  if_neg (by omega)

theorem limitOf_none (all : count < 0) : limitOf count = none :=
  if_pos all

section Runs

variable (isMatch : Obj → Bool) (start : Int) {ending : Int} (given : 0 ≤ ending) (xs : List Obj)

include given

theorem remaining_fromBack (limited : 0 ≤ count) : (run (fromBack isMatch start ending) 0
        (skipCount (marks (fun i => inRange start ending i) 0 xs |>.countP (candidate isMatch))
          count) xs).1 =
      remaining isMatch start ending (limitOf count) true xs := by
  rw [skipCount_eq _ limited, run_fromBack, remaining, limitOf_some limited, if_pos rfl,
    Removing.dropLast_some, inRange_inside given]

theorem remaining_forward {fromEnd : Bool} (plain : ¬ (fromEnd && decide (count ≥ 0)) = true) :
    (run (forward isMatch start ending count) 0 0 xs).1 =
      remaining isMatch start ending (limitOf count) fromEnd xs := by
  have ran := run_forward isMatch start ending count 0 0 xs
  rw [Int.ofNat_zero] at ran
  rw [ran, inRange_inside given, remaining]
  have whole : (limitOf count).map (· - 0) = limitOf count := by cases limitOf count <;> rfl
  rw [whole]
  cases fromEnd with
  | false => rfl
  | true =>
      have all : count < 0 := by simpa using plain
      rw [limitOf_none all, if_pos rfl, Removing.dropLast_none]

omit given in
theorem gated_fromBack {fromEnd : Bool} (back : (fromEnd && decide (count ≥ 0)) = true) :
    gated isMatch start ending count fromEnd = fromBack isMatch start ending := by
  funext state i elem
  rw [gated, if_pos back, fromBack]

omit given in
theorem gated_forward {fromEnd : Bool} (plain : ¬ (fromEnd && decide (count ≥ 0)) = true) :
    gated isMatch start ending count fromEnd = forward isMatch start ending count := by
  funext state i elem
  rw [gated, if_neg plain, forward]
  cases fromEnd with
  | false => rfl
  | true =>
      have all : count < 0 := by simpa using plain
      simp [all]

theorem remaining_gated {fromEnd : Bool} {state : Int}
    (counted : state = if fromEnd && decide (count ≥ 0) then
      skipCount (marks (fun i => inRange start ending i) 0 xs |>.countP (candidate isMatch)) count
      else 0) :
    (run (gated isMatch start ending count fromEnd) 0 state xs).1 =
      remaining isMatch start ending (limitOf count) fromEnd xs := by
  subst counted
  by_cases back : (fromEnd && decide (count ≥ 0)) = true
  · obtain ⟨rfl, limited⟩ : fromEnd = true ∧ 0 ≤ count := by simpa using back
    rw [if_pos back, gated_fromBack isMatch start back]
    exact remaining_fromBack isMatch start given xs limited
  · rw [if_neg back, gated_forward isMatch start back]
    exact remaining_forward isMatch start given xs back

end Runs

section Removals

variable (vm : Vm) {memory : Memory Obj} (start : Int) {ending : Int} (count : Int) (fromEnd : Bool)
  (item testFn keyFn : Obj) (mode : Mode)

/-- REMOVE on a list. -/
theorem removeFromList_spec {fuel : Nat} {seq : Option Nat} {cells : List Nat} (given : 0 ≤ ending)
    (linked : Linked memory seq cells) (enough : cells.length ≤ fuel) :
    removeFromList vm memory fuel seq start ending count fromEnd item testFn keyFn mode =
      some (remaining (delElemMatch vm mode item testFn keyFn) start ending (limitOf count) fromEnd
        (cells.map memory.car)) := by
  have counted := countList_marks (delElemMatch vm mode item testFn keyFn) start ending 0 0 linked
    enough
  have copied := fun decision state => copyList_run decision 0 state [] linked enough
  simp only [Int.ofNat_zero, List.nil_append, Int.zero_add] at counted copied
  rw [removeFromList]
  by_cases back : (fromEnd && decide (count ≥ 0)) = true
  · obtain ⟨rfl, limited⟩ : fromEnd = true ∧ 0 ≤ count := by simpa using back
    rw [if_pos back, counted]
    refine (copied _ _).trans (congrArg some ?_)
    exact remaining_fromBack _ start given _ limited
  · rw [if_neg back, copied]
    exact congrArg some (remaining_forward _ start given _ back)

/-- DELETE on a list relinks its conses. -/
theorem deleteFromList_spec {fuel : Nat} {seq : Option Nat} {cells : List Nat} (given : 0 ≤ ending)
    (linked : Linked memory seq cells) (enough : cells.length ≤ fuel) :
    ∃ head memory' cells',
      deleteFromList vm memory fuel seq start ending count fromEnd item testFn keyFn mode =
          some (head, memory') ∧ Linked memory' head cells' ∧
        cells'.map memory'.car = remaining (delElemMatch vm mode item testFn keyFn) start ending
          (limitOf count) fromEnd (cells.map memory.car) := by
  have counted := countList_marks (delElemMatch vm mode item testFn keyFn) start ending 0 0 linked
    enough
  simp only [Int.ofNat_zero, Int.zero_add] at counted
  obtain ⟨head, memory', cells', ran, linked', car, out⟩ :=
    @spliceList_run (gated (delElemMatch vm mode item testFn keyFn) start ending count fromEnd)
      fuel memory seq seq [] cells 0
      (if fromEnd && decide (count ≥ 0) then
        skipCount (marks (fun i => inRange start ending i) 0 (cells.map memory.car) |>.countP
          (candidate (delElemMatch vm mode item testFn keyFn))) count
        else 0) linked linked enough
  refine ⟨head, memory', cells', ?_, linked', ?_⟩
  · rw [deleteFromList]
    by_cases back : (fromEnd && decide (count ≥ 0)) = true
    · rw [if_pos back] at ran
      simp only [if_pos back, counted]
      exact ran
    · rw [if_neg back] at ran
      simp only [if_neg back]
      exact ran
  · rw [car, out]
    exact remaining_gated _ start given _ rfl

/-- REMOVE on a vector. -/
theorem removeFromArray_spec (length : Nat) (contents : Contents)
    (given : 0 ≤ (if ending < 0 then (length : Int) else ending)) :
    elements
        (removeFromArray vm length contents start ending count fromEnd item testFn keyFn mode).1
        (removeFromArray vm length contents start ending count fromEnd item testFn keyFn
          mode).2.elt =
      remaining (delElemMatch vm mode item testFn keyFn) start
        (if ending < 0 then (length : Int) else ending) (limitOf count) fromEnd
        (elements length contents.elt) := by
  rw [removeFromArray, (collect_elements ..).2]
  by_cases back : (fromEnd && decide (count ≥ 0)) = true
  · obtain ⟨rfl, limited⟩ : fromEnd = true ∧ 0 ≤ count := by simpa using back
    rw [if_pos back, (keepFlags_run ..).2.2, countArray_marks]
    exact remaining_fromBack _ start given _ limited
  · rw [if_neg back, (keepFlags_run ..).2.2]
    exact remaining_forward _ start given _ back

omit vm start count fromEnd item testFn keyFn mode memory ending in
theorem elements_chars {out : List Obj} (chars : ∀ x ∈ out, ∃ code, x = .char code) :
    elements out.length (Contents.string fun i => charVal (out.getD i .nil)).elt = out := by
  refine List.ext_getElem (by simp) fun i left right => ?_
  obtain ⟨code, same⟩ := chars out[i] (List.getElem_mem right)
  rw [getElem_elements, Contents.elt, List.getD_eq_getElem?_getD,
    List.getElem?_eq_getElem right, Option.getD_some, same]
  rfl

theorem removeFromString_spec (length : Nat) (codes : Nat → Nat)
    (given : 0 ≤ (if ending < 0 then (length : Int) else ending)) :
    elements (removeFromString vm length codes item testFn keyFn start ending count fromEnd mode).1
        (removeFromString vm length codes item testFn keyFn start ending count fromEnd mode).2.elt =
      remaining (removeStrMatch vm mode testFn keyFn item) start
        (if ending < 0 then (length : Int) else ending) (limitOf count) fromEnd
        (elements length (Contents.string codes).elt) := by
  rw [removeFromString, keepChars_run, countArray_marks]
  refine (elements_chars fun x member => ?_).trans (remaining_gated _ start given _ rfl)
  obtain ⟨i, -, rfl⟩ := List.mem_map.mp ((run_sublist ..).subset member)
  exact ⟨codes i, rfl⟩

end Removals

def RemoveResult.Holds (memory : Memory Obj) : RemoveResult → List Obj → Prop
  | .fresh ys, xs => xs = ys
  | .conses head, xs => (Seq.list head).Holds memory xs
  | .array length contents, xs => xs = elements length contents.elt

theorem RemoveResult.Holds.unique {memory : Memory Obj} {result : RemoveResult} {xs ys : List Obj}
    (first : result.Holds memory xs) (second : result.Holds memory ys) : xs = ys := by
  match result, first, second with
  | .fresh _, first, second => exact Eq.trans first (Eq.symm second)
  | .conses _, ⟨cells, linked, first⟩, ⟨cells', linked', second⟩ =>
      rw [first, second, linked.unique linked']
  | .array .., first, second => exact Eq.trans first (Eq.symm second)

def requestedMatch (vm : Vm) (mode : Mode) (item : Obj) (sa : SeqArgs) (x : Obj) : Bool :=
  match mode with
  | .pred => seqPredMatch vm item sa.keyFn x
  | .predNot => !seqPredMatch vm item sa.keyFn x
  | _ =>
      if sa.testNotFn ≠ .nil then
        decide (vm.callTest sa.testNotFn item (applyKey vm sa.keyFn x) = .nil)
      else decide (vm.callTest sa.testFn item (applyKey vm sa.keyFn x) ≠ .nil)

def Seq.IsString : Seq → Prop
  | .array _ (.string _) => True
  | _ => False

open Classical in
/-- The match that the code uses: in a string that of `:test`, also with `:test-not`. -/
noncomputable def usedMatch (vm : Vm) (mode : Mode) (item : Obj) (sa : SeqArgs) (seq : Seq) :
    Obj → Bool :=
  if seq.IsString then removeStrMatch vm mode sa.testFn sa.keyFn item
  else requestedMatch vm mode item sa

def endOf (len : Nat) (ending : Int) : Int :=
  if ending < 0 then (len : Int) else ending

variable {vm : Vm} {memory : Memory Obj}

theorem delElemMatch_itemMode {mode : Mode} (fromItem : mode ≠ .notItem) (item : Obj)
    (sa : SeqArgs) :
    delElemMatch vm (itemMode mode sa).1 item (itemMode mode sa).2 sa.keyFn =
      requestedMatch vm mode item sa := by
  funext x
  cases mode with
  | notItem => exact absurd rfl fromItem
  | pred => simp [delElemMatch, requestedMatch, itemMode]
  | predNot => simp [delElemMatch, requestedMatch, itemMode]
  | item =>
      by_cases given : sa.testNotFn = .nil
      · simp [delElemMatch, requestedMatch, itemMode, given]
      · simp [delElemMatch, requestedMatch, itemMode, given]

theorem listLength_linked {fuel : Nat} {seq : Option Nat} {cells : List Nat}
    (linked : Linked memory seq cells) (enough : cells.length ≤ fuel) :
    listLength memory fuel seq = some cells.length := by
  induction cells generalizing seq fuel with
  | nil =>
      obtain rfl : seq = none := linked
      rw [listLength]
      rfl
  | cons cell cells induction =>
      obtain ⟨rfl, onto⟩ := linked
      match fuel with
      | fuel + 1 =>
          rw [listLength, induction onto (Nat.le_of_succ_le_succ enough)]
          rfl

theorem remaining_nil (isMatch : Obj → Bool) (start ending : Int) (limit : Option Nat)
    (fromEnd : Bool) : remaining isMatch start ending limit fromEnd [] = [] := by
  cases fromEnd <;> rfl

section Bodies

variable {fuel : Nat} {mode : Mode} {item : Obj} {sa : SeqArgs} {seq : Seq} {xs : List Obj}
  (fromItem : mode ≠ .notItem) (holds : seq.Holds memory xs) (enough : xs.length < fuel)
  (given : 0 ≤ endOf xs.length sa.ending)

include fromItem holds enough given

/-- REMOVE leaves the memory and keeps what remains. -/
theorem removeSeq_spec : ∃ result,
    removeSeq vm fuel mode item sa memory seq = some (result, memory) ∧
    result.Holds memory (remaining (usedMatch vm mode item sa seq) sa.start
      (endOf xs.length sa.ending) (limitOf sa.count) sa.fromEnd xs) := by
  have used := @delElemMatch_itemMode vm mode fromItem item sa
  have other : ¬ seq.IsString → usedMatch vm mode item sa seq = requestedMatch vm mode item sa :=
    fun none => if_neg none
  match seq, holds with
  | .list none, ⟨cells, linked, same⟩ =>
      obtain rfl : [] = cells := Linked.unique (rfl : Linked memory none []) linked
      subst same
      refine ⟨.fresh [], rfl, ?_⟩
      rw [List.map_nil, remaining_nil]
      rfl
  | .list (some head), ⟨cells, linked, same⟩ =>
      subst same
      rw [List.length_map] at enough given
      have ran := removeFromList_spec vm sa.start sa.count sa.fromEnd item (itemMode mode sa).2
        sa.keyFn (itemMode mode sa).1 given linked (Nat.le_of_lt enough)
      rw [other id, ← used, List.length_map]
      refine ⟨.fresh _, ?_, rfl⟩
      rw [removeSeq, listEnd, listLength_linked linked (Nat.le_of_lt enough)]
      exact congrArg (Option.bind · _) ran
  | .array length (.string codes), holds =>
      obtain rfl : xs = elements length (Contents.string codes).elt := holds
      rw [length_elements] at given ⊢
      refine ⟨_, rfl, ?_⟩
      have string : usedMatch vm mode item sa (.array length (.string codes)) =
          removeStrMatch vm mode sa.testFn sa.keyFn item := if_pos trivial
      rw [string]
      exact (removeFromString_spec _ _ _ _ _ _ _ _ _ _ given).symm
  | .array length (.vector data), holds =>
      obtain rfl : xs = elements length (Contents.vector data).elt := holds
      rw [length_elements] at given ⊢
      rw [other id, ← used]
      exact ⟨_, rfl, (removeFromArray_spec _ _ _ _ _ _ _ _ _ _ given).symm⟩
  | .array length (.bits data), holds =>
      obtain rfl : xs = elements length (Contents.bits data).elt := holds
      rw [length_elements] at given ⊢
      rw [other id, ← used]
      exact ⟨_, rfl, (removeFromArray_spec _ _ _ _ _ _ _ _ _ _ given).symm⟩
  | .array length (.bytes width isSigned data), holds =>
      obtain rfl : xs = elements length (Contents.bytes width isSigned data).elt := holds
      rw [length_elements] at given ⊢
      rw [other id, ← used]
      exact ⟨_, rfl, (removeFromArray_spec _ _ _ _ _ _ _ _ _ _ given).symm⟩

/-- DELETE keeps the same elements. -/
theorem deleteSeq_spec : ∃ result memory',
    deleteSeq vm fuel mode item sa memory seq = some (result, memory') ∧
      result.Holds memory' (remaining (usedMatch vm mode item sa seq) sa.start
        (endOf xs.length sa.ending) (limitOf sa.count) sa.fromEnd xs) := by
  have used := @delElemMatch_itemMode vm mode fromItem item sa
  match seq, holds with
  | .list none, ⟨cells, linked, same⟩ =>
      obtain rfl : [] = cells := Linked.unique (rfl : Linked memory none []) linked
      subst same
      refine ⟨.conses none, memory, rfl, [], rfl, ?_⟩
      rw [List.map_nil, remaining_nil]
  | .list (some head), ⟨cells, linked, same⟩ =>
      subst same
      rw [List.length_map] at enough given
      obtain ⟨head', memory', cells', ran, linked', out⟩ :=
        deleteFromList_spec vm sa.start sa.count sa.fromEnd item (itemMode mode sa).2 sa.keyFn
          (itemMode mode sa).1 given linked (Nat.le_of_lt enough)
      refine ⟨.conses head', memory', ?_, cells', linked', ?_⟩
      · rw [deleteSeq, listEnd, listLength_linked linked (Nat.le_of_lt enough)]
        exact congrArg (Option.bind · _) ran
      · have other : usedMatch vm mode item sa (.list (some head)) =
            requestedMatch vm mode item sa := if_neg id
        rw [out, used, List.length_map, other]
  | .array length contents, holds =>
      obtain ⟨result, ran, held⟩ := removeSeq_spec fromItem holds enough given
      exact ⟨result, memory, ran, held⟩

end Bodies

def givenValue (name : Keyword) (args : List Obj) : Option Obj :=
  (values (.keyword name) (pairs args)).head?

def startOf (args : List Obj) : Int :=
  match givenValue .start args with
  | some (.fixnum n) => n
  | _ => 0

def endingOf (len : Nat) (args : List Obj) : Int :=
  match givenValue .ending args with
  | some (.fixnum n) => n
  | _ => len

/-- The limit of `:count`: none for `NIL`, and no element for a negative one. -/
def countLimit (args : List Obj) : Option Nat :=
  match givenValue .count args with
  | some (.fixnum n) => some n.toNat
  | some (.bignum n) => if n < 0 then some 0 else none
  | _ => none

def fromEndOf (args : List Obj) : Bool :=
  match givenValue .fromEnd args with
  | some value => decide (value ≠ .nil)
  | none => false

structure ValidBounds (len : Nat) (args : List Obj) : Prop where
  start : 0 ≤ startOf args
  ordered : startOf args ≤ endingOf len args
  ending : endingOf len args ≤ len

section Keywords

variable {functions : Functions} {args : List Obj} {registers : Registers}
  (parsed : parseSeqArgs functions args = .ok registers)
  (distinct : ∀ name, (values (.keyword name) (pairs args)).length ≤ 1)

include parsed distinct

theorem register_given (name : Keyword) : registers (.keyword name) =
      ((givenValue name args).bind fun value =>
        (seqArg functions (.keyword name) value).stored).getD
          (seqArgDefaults functions (.keyword name)) := by
  have once := distinct name
  cases rejected : Keyed.lastRejection (seqArg functions) (pairs args) with
  | some error =>
      rw [parseSeqArgs, Keyed.scanBack_rejected rejected] at parsed
      cases parsed
  | none =>
      rw [parseSeqArgs, Keyed.scanBack_accepted rejected] at parsed
      cases parsed
      rw [givenValue]
      dsimp only
      generalize values (Obj.keyword name) (pairs args) = vs at once ⊢
      match vs, once with
      | [], _ => rfl
      | [value], _ => simp

theorem start_given : (SeqArgs.of registers).start = startOf args := by
  change (registers (.keyword .start)).toInt = _
  rw [startOf, register_given parsed distinct .start]
  match givenValue .start args with
  | none => rfl
  | some value => cases value <;> rfl

theorem fromEnd_given : (SeqArgs.of registers).fromEnd = fromEndOf args := by
  change (registers (.keyword .fromEnd)).toFlag = _
  rw [fromEndOf, register_given parsed distinct .fromEnd]
  match givenValue .fromEnd args with
  | none => rfl
  | some value => rfl

theorem limitOf_given : limitOf (SeqArgs.of registers).count = countLimit args := by
  change limitOf (registers (.keyword .count)).toInt = _
  rw [countLimit, register_given parsed distinct .count]
  match givenValue .count args with
  | none => rfl
  | some (.fixnum n) =>
      change limitOf (if n < 0 then 0 else n) = some n.toNat
      by_cases negative : n < 0
      · have none : n.toNat = 0 := by omega
        rw [if_pos negative, none]
        rfl
      · rw [if_neg negative, limitOf, if_neg negative]
  | some (.bignum n) =>
      change limitOf (((if n < 0 then Keyed.Effect.store (Value.int 0) else .keep).stored.getD
        (.int (-1))).toInt) = if n < 0 then some 0 else none
      by_cases negative : n < 0
      · rw [if_pos negative, if_pos negative]
        rfl
      · rw [if_neg negative, if_neg negative]
        rfl
  | some .nil => rfl
  | some (.keyword _) => rfl
  | some (.symbol _) => rfl
  | some (.char _) => rfl
  | some (.other _) => rfl

theorem endOf_given {len : Nat} (valid : ValidBounds len args) :
    endOf len (SeqArgs.of registers).ending = endingOf len args := by
  have ordered := Int.le_trans valid.start valid.ordered
  rw [endingOf] at ordered ⊢
  change endOf len (registers (.keyword .ending)).toInt = _
  rw [register_given parsed distinct .ending]
  match givenValue .ending args, ordered with
  | none, _ => rfl
  | some (.fixnum n), ordered => exact if_neg (Int.not_lt.mpr ordered)
  | some .nil, _ => rfl
  | some (.keyword _), _ => rfl
  | some (.symbol _), _ => rfl
  | some (.char _), _ => rfl
  | some (.bignum _), _ => rfl
  | some (.other _), _ => rfl

end Keywords

/-- What `:test` alone would match. -/
def testMatch (vm : Vm) (item : Obj) (sa : SeqArgs) (x : Obj) : Bool :=
  decide (vm.callTest sa.testFn item (applyKey vm sa.keyFn x) ≠ .nil)

/-- The elements in the order in which they are removed. -/
def removalOrder (args : List Obj) (xs : List Obj) : List (Obj × Bool) :=
  let marked := marks (inside (startOf args) (endingOf xs.length args)) 0 xs
  if fromEndOf args then marked.reverse else marked

/-- The call is not that of an item with `:test-not` on a string, or `:test` matches the elements
in the range that are reached before the count is spent just when `:test-not` does not hold. -/
def TestNotHeard (vm : Vm) (removal : Removal) (item : Obj) (sa : SeqArgs) (seq : Seq)
    (args : List Obj) (xs : List Obj) : Prop :=
  removal.mode = .item → seq.IsString → sa.testNotFn ≠ .nil →
    Agree (candidate (testMatch vm item sa)) (candidate (requestedMatch vm removal.mode item sa))
      (countLimit args) (removalOrder args xs)

theorem usedMatch_requested {vm : Vm} {mode : Mode} (fromItem : mode ≠ .notItem) (item : Obj)
    {sa : SeqArgs} {seq : Seq} (heard : ¬ (mode = .item ∧ seq.IsString ∧ sa.testNotFn ≠ .nil)) :
    usedMatch vm mode item sa seq = requestedMatch vm mode item sa := by
  rw [usedMatch]
  split
  · next string =>
      cases mode with
      | notItem => exact absurd rfl fromItem
      | pred => rfl
      | predNot => rfl
      | item =>
          have none : sa.testNotFn = .nil := by
            by_contra given
            exact heard ⟨rfl, string, given⟩
          funext x
          rw [requestedMatch, removeStrMatch, if_neg (not_not_intro none)]
          · rintro ⟨⟩
          · rintro ⟨⟩
          · rintro ⟨⟩
          · rintro ⟨⟩
  · rfl

theorem remaining_eq_iff {p q : Obj → Bool} {args xs : List Obj} :
    remaining p (startOf args) (endingOf xs.length args) (countLimit args) (fromEndOf args) xs =
        remaining q (startOf args) (endingOf xs.length args) (countLimit args) (fromEndOf args) xs ↔
      Agree (candidate p) (candidate q) (countLimit args) (removalOrder args xs) := by
  have byValue : ∀ ms : List (Obj × Bool), ∀ x ∈ ms, ∀ y ∈ ms, x.1 = y.1 →
      (candidate p x = true → candidate q x = false → candidate q y = false) ∧
        (candidate q x = true → candidate p x = false → candidate p y = false) := by
    rintro ms ⟨x, here⟩ - ⟨y, there⟩ - rfl
    cases here <;> cases there <;> simp [candidate]
  rw [remaining, remaining, removalOrder]
  cases fromEndOf args with
  | false => exact Removing.dropFirst_eq_iff Prod.fst (byValue _)
  | true =>
      rw [if_pos rfl, if_pos rfl, if_pos rfl, Removing.dropLast, Removing.dropLast,
        List.map_reverse, List.map_reverse, List.reverse_inj]
      exact Removing.dropFirst_eq_iff Prod.fst (byValue _)

/-- The removals of every representation lose the elements they are asked to lose, but for
`:test-not` on a string. -/
theorem remove_iff (vm : Vm) {fuel : Nat} (removal : Removal) (item : Obj) {memory : Memory Obj}
    {seq : Seq} {args xs : List Obj} {registers : Registers} (holds : seq.Holds memory xs)
    (enough : xs.length < fuel) (wellFormed : checkSeqKeywords 2 skAll args = .ok ())
    (parsed : parseSeqArgs vm.functions args = .ok registers)
    (distinct : ∀ name, (values (.keyword name) (pairs args)).length ≤ 1)
    (valid : ValidBounds xs.length args) :
    (∃ result memory', removal.call vm fuel item memory seq args = .ok (some (result, memory')) ∧
        result.Holds memory' (remaining
          (requestedMatch vm removal.mode item (SeqArgs.of registers)) (startOf args)
          (endingOf xs.length args) (countLimit args) (fromEndOf args) xs)) ↔
      TestNotHeard vm removal item (SeqArgs.of registers) seq args xs := by
  have fromItem : removal.mode ≠ .notItem := by cases removal <;> exact nofun
  have ending := endOf_given parsed distinct valid
  have given : 0 ≤ endOf xs.length (SeqArgs.of registers).ending := by
    rw [ending]
    exact Int.le_trans valid.start valid.ordered
  obtain ⟨result, memory', ran, held⟩ : ∃ result memory',
      removal.call vm fuel item memory seq args = .ok (some (result, memory')) ∧
        result.Holds memory' (remaining (usedMatch vm removal.mode item (SeqArgs.of registers) seq)
          (startOf args) (endingOf xs.length args) (countLimit args) (fromEndOf args) xs) := by
    obtain ⟨removed, ran, held⟩ := @removeSeq_spec vm memory fuel removal.mode item
      (SeqArgs.of registers) seq xs fromItem holds enough given
    obtain ⟨deleted, memory', ran', held'⟩ := @deleteSeq_spec vm memory fuel removal.mode item
      (SeqArgs.of registers) seq xs fromItem holds enough given
    rw [start_given parsed distinct, fromEnd_given parsed distinct, limitOf_given parsed distinct,
      ending] at held held'
    rw [Removal.call, wellFormed, parsed]
    cases removal with
    | remove | removeIf | removeIfNot => exact ⟨removed, memory, congrArg _ ran, held⟩
    | delete | deleteIf | deleteIfNot => exact ⟨deleted, memory', congrArg _ ran', held'⟩
  have rule : (∃ result memory',
      removal.call vm fuel item memory seq args = .ok (some (result, memory')) ∧
        result.Holds memory' (remaining
          (requestedMatch vm removal.mode item (SeqArgs.of registers)) (startOf args)
          (endingOf xs.length args) (countLimit args) (fromEndOf args) xs)) ↔
      remaining (usedMatch vm removal.mode item (SeqArgs.of registers) seq) (startOf args)
          (endingOf xs.length args) (countLimit args) (fromEndOf args) xs =
        remaining (requestedMatch vm removal.mode item (SeqArgs.of registers)) (startOf args)
          (endingOf xs.length args) (countLimit args) (fromEndOf args) xs := by
    constructor
    · rintro ⟨result', memory'', ran', held'⟩
      rw [ran] at ran'
      cases ran'
      exact held.unique held'
    · intro same
      exact ⟨result, memory', ran, same ▸ held⟩
  rw [rule]
  by_cases heard : removal.mode = .item ∧ seq.IsString ∧ (SeqArgs.of registers).testNotFn ≠ .nil
  · obtain ⟨forItem, string, testNot⟩ := heard
    have used : usedMatch vm removal.mode item (SeqArgs.of registers) seq =
        testMatch vm item (SeqArgs.of registers) := by
      rw [usedMatch, if_pos string, forItem]
      rfl
    rw [used, remaining_eq_iff]
    exact ⟨fun agree _ _ _ => agree, fun agree => agree forItem string testNot⟩
  · have used := @usedMatch_requested vm removal.mode fromItem item _ _ heard
    rw [used]
    exact iff_of_true rfl fun forItem string testNot => absurd ⟨forItem, string, testNot⟩ heard

def comparing : Vm where
  functions :=
    { unwrap _ := none
      isFunction obj := decide (obj = .other 0)
      symbolFunction _ := none
      eql := .other 0 }
  call1 _ x := x
  callTest _ x y := if x = y then .symbol 0 else .nil

def aba : Nat → Nat
  | 1 => 98
  | _ => 97

/-- `:count 1 :from-end t` on a string keeps its first match. -/
theorem remove_from_end : ∃ result memory',
    Removal.remove.call comparing 4 (.char 97) twoOne (.array 3 (.string aba))
        [.keyword .count, .fixnum 1, .keyword .fromEnd, .symbol 0] =
      .ok (some (result, memory')) ∧ result.Holds memory' [.char 97, .char 98] := by
  have once : ∀ name, (values (.keyword name) (pairs
      [.keyword .count, .fixnum 1, .keyword .fromEnd, .symbol 0])).length ≤ 1 := by
    intro name
    cases name <;> decide
  exact (@remove_iff comparing 4 .remove (.char 97) twoOne (.array 3 (.string aba))
    [.keyword .count, .fixnum 1, .keyword .fromEnd, .symbol 0] [.char 97, .char 98, .char 97]
    _ rfl (by decide) rfl rfl once ⟨by decide, by decide, by decide⟩).mpr
      fun _ _ testNot => absurd rfl testNot

/-- The removal of what is not the character "a" from a string removes that character. -/
theorem string_testNot_ignored :
    ¬ ∀ (vm : Vm) (fuel : Nat) (removal : Removal) (item : Obj) (memory : Memory Obj) (seq : Seq)
        (args xs : List Obj) (registers : Registers), seq.Holds memory xs → xs.length < fuel →
      checkSeqKeywords 2 skAll args = .ok () → parseSeqArgs vm.functions args = .ok registers →
      (∀ name, (values (.keyword name) (pairs args)).length ≤ 1) → ValidBounds xs.length args →
        ∃ result memory', removal.call vm fuel item memory seq args = .ok (some (result, memory')) ∧
          result.Holds memory' (remaining
            (requestedMatch vm removal.mode item (SeqArgs.of registers)) (startOf args)
            (endingOf xs.length args) (countLimit args) (fromEndOf args) xs) := by
  intro rule
  have once : ∀ name, (values (.keyword name) (pairs
      [.keyword .testNot, .other 0])).length ≤ 1 := by
    intro name
    cases name <;> decide
  obtain ⟨result, memory', ran, held⟩ := rule comparing 4 .remove (.char 97) twoOne
    (.array 3 (.string aba)) [.keyword .testNot, .other 0] [.char 97, .char 98, .char 97]
    _ rfl (by decide) rfl rfl once ⟨by decide, by decide, by decide⟩
  have left : result.Holds memory' [.char 98] := by
    cases ran
    rfl
  exact absurd (held.unique left) (by decide)

end ClAmiga.Sequence
