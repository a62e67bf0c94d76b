import ClAmiga.Sequence.Sort
import ClAmiga.Sorting.StableOrder

/-!
# The merge sort of a list

Under any predicate the merge and the sort end, and rearrange the conses they are given.  Where
the calls have fixed results, these are the merge and the merge sort of the conses, compared by
the keys of their elements.
-/

namespace ClAmiga.Sequence

open Cells (Memory Spine Linked Segment Rearranged)
open Sorting (notAfter)

variable {σ κ : Type}

/-- The results of the calls do not depend on the state. -/
structure Calls.Results (calls : Calls σ κ) (key : Obj → κ) (less : κ → κ → Bool) : Prop where
  key : ∀ x s, (calls.key x s).1 = key x
  pred : ∀ a b s, (calls.pred a b s).1 = less a b

def byKey (key : Obj → κ) (less : κ → κ → Bool) (x y : Obj) : Bool :=
  less (key x) (key y)

def elementOrder (key : Obj → κ) (less : κ → κ → Bool) : Obj → Obj → Bool :=
  notAfter (byKey key less)

/-- The order of conses is that of their elements. -/
def consOrder (memory : Memory Obj) (key : Obj → κ) (less : κ → κ → Bool) (p q : Nat) : Bool :=
  elementOrder key less (memory.car p) (memory.car q)

variable {calls : Calls σ κ} {memory : Memory Obj}

theorem Calls.Results.before {key : Obj → κ} {less : κ → κ → Bool}
    (results : calls.Results key less)
    (x y : Obj) (s : σ) : (calls.before x y s).1 = !elementOrder key less x y := by
  rw [Calls.before, elementOrder, notAfter, byKey, Bool.not_not]
  change (calls.pred (calls.key y (calls.key x s).2).1 (calls.key x s).1 _).1 = _
  rw [results.pred, results.key, results.key]

theorem consOrder_car {memory' : Memory Obj} (same : memory'.car = memory.car) (key : Obj → κ)
    (less : κ → κ → Bool) : consOrder memory' key less = consOrder memory key less := by
  funext p q
  rw [consOrder, consOrder, same]

/-- The loop relinks two lists into their merge and touches no other cons. -/
theorem listMergeLoop_spec (calls : Calls σ κ) {fuel : Nat} {a b : Option Nat} {spine : Spine}
    (s : σ) {done xs ys : List Nat} (holds : spine.Holds memory done) (left : Linked memory a xs)
    (right : Linked memory b ys) (distinct : (done ++ (xs ++ ys)).Nodup)
    (more : xs ++ ys = [] → spine = none) (enough : xs.length + ys.length < fuel) :
    ∃ head memory' merged s',
      listMergeLoop calls fuel a b spine memory s = some (head, memory', s') ∧
        Rearranged memory memory' head (done ++ (xs ++ ys)) (done ++ merged) ∧
          ∀ key less, calls.Results key less →
            merged = xs.merge ys (consOrder memory key less) := by
  induction fuel generalizing a b spine memory s done xs ys with
  | zero => omega
  | succ fuel induction =>
      match xs, left, ys, right with
      | [], left, [], right =>
          obtain rfl : a = none := left
          obtain rfl : b = none := right
          obtain rfl := more rfl
          obtain rfl : done = [] := holds
          exact ⟨none, memory, [], s, rfl, Linked.rearranged rfl, fun _ _ _ =>
            (List.nil_merge _).symm⟩
      | [], left, y :: ys, right =>
          obtain rfl : a = none := left
          obtain rfl : b = some y := right.1
          refine ⟨_, _, y :: ys, s, rfl, ?_, fun _ _ _ => (List.nil_merge _).symm⟩
          exact ⟨holds.close distinct right, .refl _, spine.car_close memory _,
            fun cell outside => holds.cdr_close fun inDone =>
              outside (List.mem_append_left _ inDone)⟩
      | x :: xs, left, [], right =>
          obtain rfl : b = none := right
          obtain rfl : a = some x := left.1
          rw [List.append_nil] at distinct ⊢
          refine ⟨_, _, x :: xs, s, rfl, ?_, fun _ _ _ => (List.merge_right _).symm⟩
          exact ⟨holds.close distinct left, .refl _, spine.car_close memory _,
            fun cell outside => holds.cdr_close fun inDone =>
              outside (List.mem_append_left _ inDone)⟩
      | x :: xs, left, y :: ys, right =>
          obtain ⟨rfl, leftRest⟩ := left
          obtain ⟨rfl, rightRest⟩ := right
          have apart := List.disjoint_of_nodup_append distinct
          have leftApart : done.Disjoint (x :: xs) := fun _ inDone member =>
            apart inDone (List.mem_append_left _ member)
          have rightApart : done.Disjoint (y :: ys) := fun _ inDone member =>
            apart inDone (List.mem_append_right _ member)
          have step : ∀ key less', calls.Results key less' →
              (calls.before (memory.car x) (memory.car y) s).1 = !consOrder memory key less' x y :=
            fun key less' results => results.before _ _ s
          rw [listMergeLoop]
          cases less : (calls.before (memory.car x) (memory.car y) s).1 with
          | false =>
              have perm : (x :: (xs ++ y :: ys)).Perm (x :: xs ++ y :: ys) := .refl _
              obtain ⟨head, memory', merged, s', ran, rearranged, result⟩ :=
                induction (calls.before (memory.car x) (memory.car y) s).2
                  (holds.push x (List.nodup_append.mp distinct).1)
                  (holds.linked_push (fun _ inDone member =>
                    leftApart inDone (List.mem_cons_of_mem _ member)) leftRest)
                  (holds.linked_push rightApart ⟨rfl, rightRest⟩)
                  (by simpa using distinct) (by simp)
                  (by simp only [List.length_cons] at enough ⊢; omega)
              refine ⟨head, memory', x :: merged, s', by simpa [less] using ran,
                holds.rearranged_push perm rearranged, fun key less' results => ?_⟩
              have stays : consOrder memory key less' x y = true := by
                simpa [less] using step key less' results
              rw [List.cons_merge_cons, if_pos stays, result key less' results,
                consOrder_car (spine.car_push memory x)]
          | true =>
              have perm : (y :: (x :: xs ++ ys)).Perm (x :: xs ++ y :: ys) :=
                List.perm_middle.symm
              obtain ⟨head, memory', merged, s', ran, rearranged, result⟩ :=
                induction (calls.before (memory.car x) (memory.car y) s).2
                  (holds.push y (List.nodup_append.mp distinct).1)
                  (holds.linked_push leftApart ⟨rfl, leftRest⟩)
                  (holds.linked_push (fun _ inDone member =>
                    rightApart inDone (List.mem_cons_of_mem _ member)) rightRest)
                  (by
                    rw [List.append_assoc, List.singleton_append]
                    exact (perm.append_left done).nodup_iff.mpr distinct) (by simp)
                  (by simp only [List.length_cons] at enough ⊢; omega)
              refine ⟨head, memory', y :: merged, s', by simpa [less] using ran,
                holds.rearranged_push perm rearranged, fun key less' results => ?_⟩
              have goes : ¬ consOrder memory key less' x y = true := by
                simpa [less] using step key less' results
              rw [List.cons_merge_cons, if_neg goes, result key less' results,
                consOrder_car (spine.car_push memory y)]

theorem listMerge_spec (calls : Calls σ κ) {fuel : Nat} {a b : Option Nat} (s : σ)
    {xs ys : List Nat}
    (left : Linked memory a xs) (right : Linked memory b ys) (apart : xs.Disjoint ys)
    (enough : xs.length + ys.length < fuel) :
    ∃ head memory' merged s', listMerge calls fuel a b memory s = some (head, memory', s') ∧
      Rearranged memory memory' head (xs ++ ys) merged ∧
        ∀ key less, calls.Results key less → merged = xs.merge ys (consOrder memory key less) := by
  have empty : Spine.Holds memory none [] := rfl
  refine listMergeLoop_spec calls s empty left right ?_ (fun _ => rfl) enough
  rw [List.nil_append]
  exact List.nodup_append'.mpr ⟨left.nodup, right.nodup, apart⟩

/-- The slow pointer stops in the middle of the list. -/
theorem splitLoop_spec {fuel slow : Nat} {fast : Option Nat} {rest ahead : List Nat}
    (linked : Linked memory (some slow) (slow :: rest)) (further : Linked memory fast ahead)
    (within : ahead.length ≤ rest.length) (enough : ahead.length < fuel) :
    ∃ front last back, splitLoop memory fuel slow fast = some last ∧
      slow :: rest = front ++ last :: back ∧ front.length = ahead.length / 2 := by
  induction fuel generalizing slow fast rest ahead with
  | zero => omega
  | succ fuel induction =>
      match ahead, further with
      | [], further =>
          obtain rfl : fast = none := further
          exact ⟨[], slow, rest, rfl, rfl, rfl⟩
      | [cell], further =>
          obtain ⟨here, last⟩ := further
          subst here
          have last : memory.cdr cell = none := last
          exact ⟨[], slow, rest, by rw [splitLoop]; simp only [last], rfl, by simp⟩
      | cell :: next :: beyond, ⟨here, there, onto⟩ =>
          subst here
          match rest, linked with
          | [], _ => simp at within
          | after :: rest, ⟨_, onward, linked⟩ =>
              simp only [List.length_cons] at within enough ⊢
              obtain ⟨front, last, back, ran, split, length⟩ :=
                induction ⟨rfl, linked⟩ onto (by omega) (by omega)
              refine ⟨slow :: front, last, back, ?_, by rw [split]; rfl, ?_⟩
              · rw [splitLoop]
                simp only [there, onward]
                exact ran
              · rw [List.length_cons]
                omega

/-- The conses are relinked in the order of a merge sort. -/
theorem listMergeSort_spec (calls : Calls σ κ) {fuel : Nat} {list : Option Nat} (s : σ)
    {cells : List Nat}
    (linked : Linked memory list cells) (enough : cells.length < fuel) :
    ∃ head memory' sorted s', listMergeSort calls fuel list memory s = some (head, memory', s') ∧
      Rearranged memory memory' head cells sorted ∧ ∀ key less, calls.Results key less →
          sorted = cells.mergeSort (consOrder memory key less) := by
  induction fuel generalizing list memory s cells with
  | zero => omega
  | succ fuel induction =>
      match cells, linked with
      | [], linked =>
          obtain rfl : list = none := linked
          exact ⟨none, memory, [], s, rfl, Linked.rearranged rfl, fun _ _ _ =>
            List.mergeSort_nil.symm⟩
      | [first], linked =>
          obtain ⟨rfl, last⟩ := linked
          obtain last : memory.cdr first = none := last
          refine ⟨some first, memory, [first], s, ?_, Linked.rearranged ⟨rfl, last⟩,
            fun _ _ _ => (List.mergeSort_singleton _).symm⟩
          rw [listMergeSort]
          simp only [last]
      | first :: second :: rest, ⟨here, next, onto⟩ =>
          subst here
          have whole : Linked memory (some first) (first :: second :: rest) := ⟨rfl, next, onto⟩
          have further : Linked memory (some second) (second :: rest) := ⟨rfl, onto⟩
          obtain ⟨front, slow, back, found, split, length⟩ :=
            splitLoop_spec whole further (Nat.le_refl _) (Nat.lt_of_succ_lt enough)
          have total := congrArg List.length split
          simp only [List.length_cons, List.length_append] at total length enough
          rw [split] at whole ⊢
          obtain ⟨left, right⟩ := whole.cut
          obtain ⟨list', memory₁, sorted, s₁, ranLeft, rearrangedLeft, resultLeft⟩ :=
            induction s left (by rw [List.length_append, List.length_singleton]; omega)
          have apart : (front ++ [slow]).Disjoint back := by
            have distinct := whole.nodup
            rw [List.append_cons] at distinct
            exact List.disjoint_of_nodup_append distinct
          obtain ⟨mid', memory₂, sorted', s₂, ranRight, rearrangedRight, resultRight⟩ :=
            induction s₁ (rearrangedLeft.other apart right) (by omega)
          obtain ⟨leftThere, perm, car, frame⟩ := rearrangedLeft.both rearrangedRight apart
          have apart' : sorted.Disjoint sorted' := by
            have distinct := whole.nodup
            rw [List.append_cons] at distinct
            exact List.disjoint_of_nodup_append (perm.nodup_iff.mpr distinct)
          obtain ⟨head, memory₃, merged, s₃, ran, rearranged, result⟩ :=
            @listMerge_spec _ _ memory₂ calls (fuel + 2) list' mid' s₂ _ _ leftThere
              rearrangedRight.linked apart' (by
                rw [← List.length_append, perm.length_eq, List.length_append, List.length_append,
                  List.length_singleton]
                omega)
          refine ⟨head, memory₃, merged, s₃, ?_, ?_, fun key less results => ?_⟩
          · rw [listMergeSort]
            simp only [next, found, Option.bind_eq_bind, Option.bind_some, ranLeft, ranRight]
            exact ran
          · rw [List.append_cons]
            refine ⟨rearranged.linked, rearranged.perm.trans perm, rearranged.car.trans car,
              fun cell outside => ?_⟩
            rw [rearranged.frame cell fun member => outside (perm.mem_iff.mp member),
              frame cell outside]
            refine memory.cdr_setCdr_of_ne none ?_
            rintro rfl
            simp at outside
          · have order : consOrder memory₂ key less = consOrder memory key less :=
              consOrder_car car key less
            have order' : consOrder memory₁ key less = consOrder memory key less :=
              consOrder_car rearrangedLeft.car key less
            have some : back ≠ [] := by
              rintro rfl
              simp only [List.length_nil] at total
              omega
            have half : (front ++ [slow]).length =
                ((front ++ [slow]).length + back.length + 1) / 2 := by
              rw [List.length_append, List.length_singleton]
              omega
            rw [List.append_cons, Sorting.mergeSort_append _ some half, result key less results,
              resultLeft key less results, resultRight key less results, order, order']
            rfl

end ClAmiga.Sequence
