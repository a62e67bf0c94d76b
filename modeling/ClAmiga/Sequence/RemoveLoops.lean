import ClAmiga.Removing.Limited
import ClAmiga.Sequence.InsertionSort
import ClAmiga.Sequence.Remove
import Mathlib.Tactic.NormNum

/-!
# The loops of REMOVE and DELETE

Every loop makes the same run of decisions over the elements, however it stores those that it
keeps.  A run of decisions forward removes the first matches, and one from the back the last.
-/

namespace ClAmiga.Sequence

open Cells (Memory Linked)
open Removing (dropFirst dropLast keepFirst)

def run (decision : Decision) : Nat → Int → List Obj → List Obj × Int
  | _, state, [] => ([], state)
  | i, state, x :: xs =>
      let first := decision state i x
      let rest := run decision (i + 1) first.2 xs
      (if first.1 then rest.1 else x :: rest.1, rest.2)

theorem run_concat (decision : Decision) (i : Nat) (state : Int) (xs : List Obj) (x : Obj) :
    run decision i state (xs ++ [x]) =
      let before := run decision i state xs
      let last := decision before.2 (i + xs.length : Nat) x
      (if last.1 then before.1 else before.1 ++ [x], last.2) := by
  induction xs generalizing i state with
  | nil => rfl
  | cons y xs induction =>
      have index : i + 1 + xs.length = i + (xs.length + 1) := by omega
      simp only [List.cons_append, run, induction, List.length_cons, index]
      split <;> split <;> rfl

theorem run_sublist (decision : Decision) (i : Nat) (state : Int) (xs : List Obj) :
    (run decision i state xs).1.Sublist xs := by
  induction xs generalizing i state with
  | nil => exact .slnil
  | cons x xs induction =>
      rw [run]
      dsimp only
      split
      · exact (induction _ _).cons x
      · exact (induction _ _).cons_cons x

variable {memory : Memory Obj}

theorem copyList_run (decision : Decision) {fuel : Nat} {cur : Option Nat} {cells : List Nat}
    (i : Nat) (state : Int) (out : List Obj) (linked : Linked memory cur cells)
    (enough : cells.length ≤ fuel) :
    copyList decision memory fuel cur i state out =
      some (out ++ (run decision i state (cells.map memory.car)).1) := by
  induction cells generalizing fuel cur i state out with
  | nil =>
      obtain rfl : cur = none := linked
      rw [copyList, List.map_nil, run, List.append_nil]
  | cons cell cells induction =>
      obtain ⟨rfl, onto⟩ := linked
      match fuel with
      | fuel + 1 =>
          have rest := fun state out =>
            @induction fuel (memory.cdr cell) (i + 1) state out onto (Nat.le_of_succ_le_succ enough)
          rw [copyList, List.map_cons, run]
          push_cast at rest
          cases removes : (decision state i (memory.car cell)).1 <;> simp [rest, removes]

theorem Linked.unlink {link : Option Nat} {front back : List Nat} {cell next : Nat}
    (linked : Linked memory link (front ++ cell :: next :: back)) :
    Linked (memory.setCdr cell (memory.cdr next)) link (front ++ cell :: back) := by
  have distinct := linked.nodup
  obtain ⟨middle, first, rfl, here, onto⟩ := Cells.Segment.split linked
  have inFront : cell ∉ front := fun member =>
    List.disjoint_of_nodup_append distinct member List.mem_cons_self
  have inBack : cell ∉ back := fun member =>
    (List.nodup_cons.mp (List.nodup_append.mp distinct).2.1).1 (List.mem_cons_of_mem _ member)
  rw [List.append_cons]
  exact (first.extend inFront).append (onto.setCdr _ inBack)

theorem spliceList_run (decision : Decision) {fuel : Nat} {memory : Memory Obj}
    {head cur : Option Nat} {kept cells : List Nat} (i : Nat) (state : Int)
    (whole : Linked memory head (kept ++ cells)) (linked : Linked memory cur cells)
    (enough : cells.length ≤ fuel) :
    ∃ head' memory' cells', spliceList decision fuel memory head kept.getLast? cur i state =
        some (head', memory') ∧ Linked memory' head' (kept ++ cells') ∧
      memory'.car = memory.car ∧
        cells'.map memory.car = (run decision i state (cells.map memory.car)).1 := by
  induction cells generalizing fuel memory head cur kept i state with
  | nil =>
      obtain rfl : cur = none := linked
      exact ⟨head, memory, [], by rw [spliceList], whole, rfl, rfl⟩
  | cons cell cells induction =>
      obtain ⟨rfl, onto⟩ := linked
      match fuel with
      | fuel + 1 =>
          rw [spliceList, List.map_cons, run]
          cases removes : (decision state i (memory.car cell)).1 with
          | false =>
              have grown : Linked memory head ((kept ++ [cell]) ++ cells) := by
                rw [← List.append_cons]
                exact whole
              obtain ⟨head', memory', cells', ran, linked', car, out⟩ :=
                induction (i + 1) (decision state i (memory.car cell)).2 grown onto
                  (Nat.le_of_succ_le_succ enough)
              rw [List.getLast?_concat] at ran
              refine ⟨head', memory', cell :: cells', by simpa [removes] using ran, ?_, car, ?_⟩
              · rw [List.append_cons]
                exact linked'
              · simp [out]
          | true =>
              rcases List.eq_nil_or_concat' kept with rfl | ⟨front, last, rfl⟩
              · have shorter : Linked memory (memory.cdr cell) ([] ++ cells) := onto
                obtain ⟨head', memory', cells', ran, linked', car, out⟩ :=
                  induction (i + 1) (decision state i (memory.car cell)).2 shorter onto
                    (Nat.le_of_succ_le_succ enough)
                exact ⟨head', memory', cells', by simpa [removes] using ran, linked', car,
                  by simp [out]⟩
              · rw [List.append_assoc, List.singleton_append] at whole
                have distinct := whole.nodup
                have apart : last ∉ cells := fun member =>
                  (List.nodup_cons.mp (List.nodup_append.mp distinct).2.1).1
                    (List.mem_cons_of_mem _ member)
                have shorter := Linked.unlink whole
                rw [List.append_cons] at shorter
                obtain ⟨head', memory', cells', ran, linked', car, out⟩ :=
                  induction (i + 1) (decision state i (memory.car cell)).2 shorter
                    (onto.setCdr _ apart) (Nat.le_of_succ_le_succ enough)
                rw [List.getLast?_concat] at ran ⊢
                exact ⟨head', memory', cells', by simpa [removes] using ran, linked', car,
                  by simpa [removes] using out⟩

theorem keepChars_run (decision : Decision) (elt : Nat → Obj) (state : Int) (length : Nat) :
    keepChars decision elt state length = run decision 0 state (elements length elt) := by
  induction length with
  | zero => rfl
  | succ i induction =>
      rw [elements_succ, run_concat, length_elements, Nat.zero_add, keepChars, induction]

theorem keepFlags_run (decision : Decision) (elt : Nat → Obj) (state : Int) (length : Nat) :
    (keepFlags decision elt state length).2 = (run decision 0 state (elements length elt)).2 ∧
      (∀ i, length ≤ i → (keepFlags decision elt state length).1 i = true) ∧
        ((List.range length).filter (keepFlags decision elt state length).1).map elt =
          (run decision 0 state (elements length elt)).1 := by
  induction length with
  | zero => exact ⟨rfl, fun _ _ => rfl, rfl⟩
  | succ i induction =>
      obtain ⟨last, later, kept⟩ := induction
      rw [elements_succ, run_concat, length_elements, Nat.zero_add]
      dsimp only
      rw [← last, ← kept, keepFlags, List.range_succ, List.filter_append]
      refine ⟨rfl, fun j beyond => ?_, ?_⟩
      · dsimp only
        split
        · rw [Function.update_of_ne (by omega)]
          exact later j (by omega)
        · exact later j (by omega)
      · dsimp only
        split
        · have before : (List.range i).filter
              (Function.update (keepFlags decision elt state i).1 i false) =
                (List.range i).filter (keepFlags decision elt state i).1 :=
            List.filter_congr fun j member =>
              Function.update_of_ne (Nat.ne_of_lt (List.mem_range.mp member)) ..
          rw [before, List.filter_cons_of_neg (by simp), List.filter_nil, List.append_nil]
        · rw [List.filter_cons_of_pos (later i (Nat.le_refl i)), List.map_append]
          rfl

theorem Contents.accepts_blank (contents : Contents) (x : Obj) :
    contents.blank.Accepts x ↔ contents.Accepts x := by
  cases contents <;> cases x <;> rfl

theorem collect_elements (keep : Nat → Bool) (contents : Contents) (length : Nat) :
    (∀ x, (collect keep contents length).2.Accepts x ↔ contents.Accepts x) ∧
      elements (collect keep contents length).1 (collect keep contents length).2.elt =
        ((List.range length).filter keep).map contents.elt := by
  induction length with
  | zero => exact ⟨contents.accepts_blank, rfl⟩
  | succ i induction =>
      obtain ⟨accepts, stored⟩ := induction
      rw [collect, List.range_succ, List.filter_append, List.map_append, ← stored]
      dsimp only
      split
      · next kept =>
          have accepted := (accepts _).mpr (contents.accepts_elt i)
          refine ⟨fun x => (Contents.accepts_set ..).trans (accepts x), ?_⟩
          rw [List.filter_cons_of_pos kept, elements_succ, Contents.elt_set accepted,
            Function.update_self]
          congr 1
          exact elements_congr fun j under => Function.update_of_ne (Nat.ne_of_lt under) ..
      · next removed =>
          rw [List.filter_cons_of_neg removed]
          exact ⟨accepts, (List.append_nil _).symm⟩

/-- The elements with whether they are inside. -/
def marks (inside : Nat → Bool) (i : Nat) (xs : List Obj) : List (Obj × Bool) :=
  (xs.zipIdx i).map fun p => (p.1, inside p.2)

def candidate (isMatch : Obj → Bool) (m : Obj × Bool) : Bool :=
  m.2 && isMatch m.1

theorem marks_cons (inside : Nat → Bool) (i : Nat) (x : Obj) (xs : List Obj) :
    marks inside i (x :: xs) = (x, inside i) :: marks inside (i + 1) xs := rfl

theorem marks_append (inside : Nat → Bool) (i : Nat) (xs ys : List Obj) :
    marks inside i (xs ++ ys) = marks inside i xs ++ marks inside (i + xs.length) ys := by
  rw [marks, List.zipIdx_append, List.map_append, marks, marks]

theorem countArray_marks (isMatch : Obj → Bool) (start ending : Int) (elt : Nat → Obj)
    (length : Nat) : countArray isMatch start ending elt length =
      (marks (fun i => inRange start ending i) 0 (elements length elt)).countP
        (candidate isMatch) := by
  induction length with
  | zero => rfl
  | succ i induction =>
      rw [countArray, elements_succ, marks_append, List.countP_append, length_elements,
        Nat.zero_add, induction]
      by_cases matched : (inRange start ending i && isMatch (elt i)) = true
      · simp [marks, candidate, matched]
      · simp [marks, candidate, matched]

theorem countList_marks (isMatch : Obj → Bool) (start ending : Int) {fuel : Nat}
    {cur : Option Nat} {cells : List Nat} (i : Nat) (total : Int) (linked : Linked memory cur cells)
    (enough : cells.length ≤ fuel) :
    countList isMatch start ending memory fuel cur i total =
      some (total + (marks (fun i => inRange start ending i) i (cells.map memory.car)).countP
        (candidate isMatch)) := by
  induction cells generalizing fuel cur i total with
  | nil =>
      obtain rfl : cur = none := linked
      simp [countList, marks]
  | cons cell cells induction =>
      obtain ⟨rfl, onto⟩ := linked
      match fuel with
      | fuel + 1 =>
          have rest := fun total =>
            @induction fuel (memory.cdr cell) (i + 1) total onto (Nat.le_of_succ_le_succ enough)
          push_cast at rest
          rw [countList, rest, List.map_cons, marks_cons, List.countP_cons]
          by_cases matched : (inRange start ending i && isMatch (memory.car cell)) = true
          · simp only [candidate, matched, if_true]
            congr 1
            push_cast
            omega
          · simp [candidate, matched]

/-- A count of the keywords: none that is negative. -/
def limitOf (count : Int) : Option Nat :=
  if count < 0 then none else some count.toNat

theorem limit_left_iff (count : Int) (removed : Nat) : (limitOf count).map (· - removed) ≠ some 0 ↔
      (decide (count < 0) || decide ((removed : Int) < count)) = true := by
  rw [limitOf]
  split
  · next all => simp [all]
  · next some => simp; omega

theorem limit_step (count : Int) (removed : Nat) :
    ((limitOf count).map (· - removed)).map (· - 1) = (limitOf count).map (· - (removed + 1)) := by
  rw [limitOf]
  split
  · rfl
  · rw [Option.map_some, Option.map_some, Option.map_some, Nat.sub_sub]

theorem run_forward (isMatch : Obj → Bool) (start ending count : Int) (i : Nat) (removed : Nat)
    (xs : List Obj) :
    (run (forward isMatch start ending count) i removed xs).1 =
      (dropFirst (candidate isMatch) ((limitOf count).map (· - removed))
        (marks (fun i => inRange start ending i) i xs)).map Prod.fst := by
  induction xs generalizing i removed with
  | nil => rfl
  | cons x xs induction =>
      have left := limit_left_iff count removed
      rw [run, marks_cons, dropFirst]
      by_cases taken : (inRange start ending i && (decide (count < 0) ||
          decide ((removed : Int) < count)) && isMatch x) = true
      · have decides : forward isMatch start ending count removed i x =
            (true, ((removed + 1 : Nat) : Int)) := if_pos taken
        simp only [Bool.and_eq_true] at taken
        have matched : candidate isMatch (x, inRange start ending i) = true := by
          simp [candidate, taken]
        have goes : candidate isMatch (x, inRange start ending i) = true ∧
            (limitOf count).map (· - removed) ≠ some 0 := ⟨matched, left.mpr taken.1.2⟩
        rw [decides, if_pos goes, limit_step]
        exact induction (i + 1) (removed + 1)
      · have decides : forward isMatch start ending count removed i x =
            (false, (removed : Int)) := if_neg taken
        have stays : ¬ (candidate isMatch (x, inRange start ending i) = true ∧
            (limitOf count).map (· - removed) ≠ some 0) := by
          rintro ⟨matched, more⟩
          simp only [candidate, Bool.and_eq_true] at matched
          exact taken (by simp [matched, left.mp more])
        rw [decides, if_neg stays, List.map_cons, ← induction]
        rfl

theorem run_fromBack (isMatch : Obj → Bool) (start ending : Int) (i : Nat) (skip : Nat)
    (xs : List Obj) :
    (run (fromBack isMatch start ending) i skip xs).1 = (keepFirst (candidate isMatch) skip
        (marks (fun i => inRange start ending i) i xs)).map Prod.fst := by
  induction xs generalizing i skip with
  | nil => cases skip <;> rfl
  | cons x xs induction =>
      rw [run, marks_cons]
      by_cases matched : (inRange start ending i && isMatch x) = true
      · have here : candidate isMatch (x, inRange start ending i) = true := matched
        cases skip with
        | zero =>
            have decides : fromBack isMatch start ending 0 i x = (true, 0) := if_pos matched
            rw [Int.ofNat_zero, decides, keepFirst, if_pos here]
            exact induction (i + 1) 0
        | succ skip =>
            have decides : fromBack isMatch start ending ((skip + 1 : Nat) : Int) i x =
                (false, (skip : Int)) := by
              have back : ((skip + 1 : Nat) : Int) - 1 = skip := by omega
              unfold fromBack
              rw [if_pos matched, if_pos (by omega), back]
            rw [decides, keepFirst, if_pos here, List.map_cons, ← induction]
            rfl
      · have here : ¬ candidate isMatch (x, inRange start ending i) = true := matched
        have decides : fromBack isMatch start ending skip i x = (false, (skip : Int)) :=
          if_neg matched
        rw [decides]
        cases skip with
        | zero =>
            rw [keepFirst, if_neg here, List.map_cons, ← induction]
            rfl
        | succ skip =>
            rw [keepFirst, if_neg here, List.map_cons, ← induction]
            rfl

end ClAmiga.Sequence
