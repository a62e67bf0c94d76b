import Mathlib.Algebra.GroupWithZero.Nat

/-!
# The C3 merge

`%c3-merge`, and the relation it computes.
-/

namespace ClAmiga.Clos

variable {Item : Type} [DecidableEq Item]

/-- The head of a list that stands in the tail of no list. -/
def c3Candidate (lists : List (List Item)) : Option Item :=
  lists.findSome? fun list =>
    match list with
    | [] => none
    | head :: _ => if lists.any (fun other => head ∈ other.tail) then none else some head

/-- Take `candidate` off the lists it heads. -/
def c3Advance (candidate : Item) (lists : List (List Item)) : List (List Item) :=
  lists.map fun list => if list.head? = some candidate then list.tail else list

/-- `(remove nil lists)`. -/
def removeNil (lists : List (List Item)) : List (List Item) :=
  lists.filter fun list => !list.isEmpty

/-- The loop of `%c3-merge`; every round takes something off a list. -/
def c3MergeFrom : Nat → List (List Item) → Option (List Item)
  | 0, lists => if removeNil lists = [] then some [] else none
  | fuel + 1, lists =>
      if removeNil lists = [] then some []
      else do
        let candidate ← c3Candidate (removeNil lists)
        let rest ← c3MergeFrom fuel (c3Advance candidate (removeNil lists))
        some (candidate :: rest)

/-- `%c3-merge`; `none` where it signals an inconsistent precedence list. -/
def c3Merge (lists : List (List Item)) : Option (List Item) :=
  c3MergeFrom (lists.map List.length).sum lists

/-- `lists` merge to `result`. -/
inductive Merges : List (List Item) → List Item → Prop
  | done {lists : List (List Item)} (empty : removeNil lists = []) : Merges lists []
  | take {lists : List (List Item)} {candidate : Item} {rest : List Item}
      (candidates : c3Candidate (removeNil lists) = some candidate)
      (merges : Merges (c3Advance candidate (removeNil lists)) rest) :
      Merges lists (candidate :: rest)

variable {result : List Item} {lists : List (List Item)}

theorem Merges.congr {lists others : List (List Item)}
    (same : removeNil lists = removeNil others) (merges : Merges lists result) :
    Merges others result := by
  cases merges with
  | done empty => exact .done (same ▸ empty)
  | take candidates merges => exact .take (same ▸ candidates) (same ▸ merges)

theorem c3Candidate_mem {candidate : Item} (found : c3Candidate lists = some candidate) :
    ∃ rest, candidate :: rest ∈ lists := by
  obtain ⟨list, member, heads⟩ := List.exists_of_findSome?_eq_some found
  cases list with
  | nil => cases heads
  | cons head rest =>
      rw [Option.ite_none_left_eq_some, Option.some.injEq] at heads
      obtain ⟨_, rfl⟩ := heads
      exact ⟨rest, member⟩

theorem c3Advance_shorter {candidate : Item} (member : ∃ rest, candidate :: rest ∈ lists) :
    ((c3Advance candidate lists).map List.length).sum < (lists.map List.length).sum := by
  have atMost (others : List (List Item)) : ((c3Advance candidate others).map List.length).sum ≤
        (others.map List.length).sum := by
    induction others with
    | nil => exact Nat.le_refl _
    | cons other later induction =>
        unfold c3Advance at induction ⊢
        simp only [List.map_cons, List.sum_cons]
        split
        · rw [List.length_tail]
          omega
        · omega
  obtain ⟨rest, member⟩ := member
  induction lists with
  | nil => cases member
  | cons list later induction =>
      have laterAtMost := atMost later
      unfold c3Advance at induction laterAtMost ⊢
      simp only [List.map_cons, List.sum_cons]
      rcases List.mem_cons.mp member with rfl | inLater
      · rw [List.head?_cons, if_pos rfl, List.tail_cons, List.length_cons]
        omega
      · have laterShorter := induction inLater
        split
        · rw [List.length_tail]
          omega
        · omega

omit [DecidableEq Item] in
theorem removeNil_length (lists : List (List Item)) :
    ((removeNil lists).map List.length).sum = (lists.map List.length).sum := by
  induction lists with
  | nil => rfl
  | cons list later induction =>
      cases list with
      | nil => simpa [removeNil] using induction
      | cons head rest =>
          unfold removeNil at induction ⊢
          rw [List.filter_cons_of_pos (by rfl)]
          simp only [List.map_cons, List.sum_cons, induction]

theorem c3MergeFrom_eq_some {fuel : Nat} (enough : (lists.map List.length).sum ≤ fuel) :
    c3MergeFrom fuel lists = some result ↔ Merges lists result := by
  induction fuel generalizing lists result with
  | zero =>
      have empty : removeNil lists = [] := by
        have total := removeNil_length lists
        have allZero := List.sum_eq_zero_iff_forall_eq_nat.mp
          (show ((removeNil lists).map List.length).sum = 0 by omega)
        rw [List.eq_nil_iff_forall_not_mem]
        intro list member
        have kept := (List.mem_filter.mp member).2
        have short := allZero list.length (List.mem_map_of_mem member)
        simp [List.length_eq_zero_iff.mp short] at kept
      rw [c3MergeFrom, if_pos empty, Option.some.injEq]
      constructor
      · rintro rfl
        exact .done empty
      · intro merges
        cases merges with
        | done => rfl
        | take candidates =>
            rw [empty] at candidates
            cases candidates
  | succ fuel induction =>
      unfold c3MergeFrom
      by_cases empty : removeNil lists = []
      · rw [if_pos empty, Option.some.injEq]
        constructor
        · rintro rfl
          exact .done empty
        · intro merges
          cases merges with
          | done => rfl
          | take candidates =>
              rw [empty] at candidates
              cases candidates
      · rw [if_neg empty]
        simp only [Option.bind_eq_bind, Option.bind_eq_some_iff, Option.some.injEq]
        have shorter {candidate : Item}
            (candidates : c3Candidate (removeNil lists) = some candidate) :
            ((c3Advance candidate (removeNil lists)).map List.length).sum ≤ fuel := by
          have less := c3Advance_shorter (c3Candidate_mem candidates)
          rw [removeNil_length] at less
          omega
        constructor
        · rintro ⟨candidate, candidates, rest, later, rfl⟩
          exact .take candidates ((induction (shorter candidates)).mp later)
        · intro merges
          cases merges with
          | done isEmpty => exact absurd isEmpty empty
          | @take _ candidate rest candidates later =>
              exact ⟨candidate, candidates, rest, (induction (shorter candidates)).mpr later,
                rfl⟩

theorem c3Merge_eq_some : c3Merge lists = some result ↔ Merges lists result :=
  c3MergeFrom_eq_some (Nat.le_refl _)

theorem Merges.mem (merges : Merges lists result) {item : Item} (member : item ∈ result) :
    ∃ list ∈ lists, item ∈ list := by
  have removed {others : List (List Item)} {list : List Item}
      (inside : list ∈ removeNil others) : list ∈ others := (List.mem_filter.mp inside).1
  induction merges with
  | done => cases member
  | take candidates _ induction =>
      rcases List.mem_cons.mp member with rfl | inRest
      · obtain ⟨rest, heads⟩ := c3Candidate_mem candidates
        exact ⟨_, removed heads, List.mem_cons_self ..⟩
      · obtain ⟨list, advanced, inList⟩ := induction inRest
        obtain ⟨origin, originIn, rfl⟩ := List.mem_map.mp advanced
        refine ⟨origin, removed originIn, ?_⟩
        split at inList
        · exact List.mem_of_mem_tail inList
        · exact inList

theorem merges_head {item : Item} (new : ∀ list ∈ lists, item ∉ list) :
    Merges ([item] :: lists) result ↔ ∃ rest, result = item :: rest ∧ Merges lists rest := by
  have nonempty : removeNil ([item] :: lists) = [item] :: removeNil lists := rfl
  have newHere {list : List Item} (member : list ∈ removeNil lists) : item ∉ list :=
    new list (List.mem_filter.mp member).1
  have candidates : c3Candidate (removeNil ([item] :: lists)) = some item := by
    have free : ([item] :: removeNil lists).any (fun other => item ∈ other.tail) = false := by
      rw [List.any_eq_false]
      intro other member
      rcases List.mem_cons.mp member with rfl | inLists
      · simp
      · simpa using fun inTail => newHere inLists (List.mem_of_mem_tail inTail)
    rw [nonempty, c3Candidate, List.findSome?_cons]
    dsimp only
    rw [free]
    rfl
  have advanced : c3Advance item (removeNil ([item] :: lists)) = [] :: removeNil lists := by
    have unchanged : ∀ list ∈ removeNil lists,
        (if list.head? = some item then list.tail else list) = list := by
      intro list member
      rw [if_neg]
      exact fun heads => newHere member (List.mem_of_head? heads)
    rw [nonempty, c3Advance, List.map_cons, List.head?_cons, if_pos rfl, List.tail_cons,
      List.map_congr_left unchanged, List.map_id']
  have sameRest : removeNil ([] :: removeNil lists) = removeNil lists := by
    unfold removeNil
    rw [List.filter_cons_of_neg (by simp), List.filter_filter]
    simp
  constructor
  · intro merges
    cases merges with
    | done empty => cases nonempty ▸ empty
    | take found later =>
        rw [candidates] at found
        cases found
        rw [advanced] at later
        exact ⟨_, rfl, later.congr sameRest⟩
  · rintro ⟨rest, rfl, merges⟩
    refine .take candidates ?_
    rw [advanced]
    exact merges.congr sameRest.symm

end ClAmiga.Clos
