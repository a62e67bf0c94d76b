import Mathlib.Data.List.Nodup
import Mathlib.Order.WellFounded
import ClAmiga.Clos.Merge
import ClAmiga.Clos.Consistency

/-!
# Soundness and completeness of the precedence lists

A C3 merge that succeeds is a total order of the items of the lists which keeps the
order of every list, and a merge that fails has met lists without such an order.
So `%compute-class-precedence-list` of a class whose superclasses carry their own
lists is an order of the class and its ancestors that keeps all of theirs.
-/

namespace ClAmiga.Clos

variable {Item : Type}

/-- A total order of the items of the lists, written as their enumeration, in
which the order of every list is kept. -/
structure ConsistentOrder (lists : List (List Item)) (order : List Item) : Prop where
  nodup : order.Nodup
  mem_iff : ∀ item, item ∈ order ↔ ∃ list ∈ lists, item ∈ list
  sublist : ∀ list ∈ lists, list.Sublist order

variable [DecidableEq Item]

/-- The runs of the loop that end in the error: some round finds no candidate. -/
inductive Inconsistent : List (List Item) → Prop
  | stuck {lists : List (List Item)} (nonempty : removeNil lists ≠ [])
      (noCandidate : c3Candidate (removeNil lists) = none) : Inconsistent lists
  | later {lists : List (List Item)} {candidate : Item}
      (candidates : c3Candidate (removeNil lists) = some candidate)
      (rest : Inconsistent (c3Advance candidate (removeNil lists))) : Inconsistent lists

theorem merges_or_inconsistent (lists : List (List Item)) :
    (∃ result, Merges lists result) ∨ Inconsistent lists := by
  induction total : (lists.map List.length).sum using Nat.strongRecOn
    generalizing lists with
  | _ total induction =>
      subst total
      by_cases empty : removeNil lists = []
      · exact Or.inl ⟨[], .done empty⟩
      · cases found : c3Candidate (removeNil lists) with
        | none => exact Or.inr (.stuck empty found)
        | some candidate =>
            have shorter := c3Advance_shorter (c3Candidate_mem found)
            rw [removeNil_length] at shorter
            rcases induction _ shorter _ rfl with ⟨result, merges⟩ | fails
            · exact Or.inl ⟨candidate :: result, .take found merges⟩
            · exact Or.inr (.later found fails)

variable {lists : List (List Item)}

theorem Merges.not_inconsistent {result : List Item}
    (merges : Merges lists result) : ¬ Inconsistent lists := by
  induction merges with
  | done empty =>
      intro fails
      cases fails with
      | stuck nonempty => exact nonempty empty
      | later candidates =>
          rw [empty] at candidates
          cases candidates
  | take candidates _ induction =>
      intro fails
      cases fails with
      | stuck _ noCandidate =>
          rw [candidates] at noCandidate
          cases noCandidate
      | later others rest =>
          rw [candidates] at others
          cases others
          exact induction rest

theorem c3Merge_eq_none : c3Merge lists = none ↔ Inconsistent lists := by
  constructor
  · intro fails
    rcases merges_or_inconsistent lists with ⟨result, merges⟩ | inconsistent
    · rw [c3Merge_eq_some.mpr merges] at fails
      cases fails
    · exact inconsistent
  · intro inconsistent
    cases found : c3Merge lists with
    | none => rfl
    | some result =>
        exact absurd inconsistent (c3Merge_eq_some.mp found).not_inconsistent

theorem c3Candidate_not_mem_tail {candidate : Item}
    (found : c3Candidate lists = some candidate) {list : List Item}
    (member : list ∈ lists) : candidate ∉ list.tail := by
  obtain ⟨witness, _, heads⟩ := List.exists_of_findSome?_eq_some found
  cases witness with
  | nil => cases heads
  | cons head rest =>
      rw [Option.ite_none_left_eq_some, Option.some.injEq] at heads
      obtain ⟨free, rfl⟩ := heads
      intro inTail
      exact free (List.any_eq_true.mpr ⟨list, member, by simpa using inTail⟩)

theorem c3Candidate_isSome {head : Item} {rest : List Item}
    (heads : head :: rest ∈ lists) (free : ∀ list ∈ lists, head ∉ list.tail) :
    ∃ candidate, c3Candidate lists = some candidate := by
  cases found : c3Candidate lists with
  | some candidate => exact ⟨candidate, rfl⟩
  | none =>
      have dominated := List.findSome?_eq_none_iff.mp found _ heads
      simp only [ite_eq_left_iff, reduceCtorEq, imp_false, not_not] at dominated
      obtain ⟨list, member, inTail⟩ := List.any_eq_true.mp dominated
      exact absurd (by simpa using inTail) (free list member)

theorem c3Advance_eq_erase {candidate : Item} (free : ∀ list ∈ lists, candidate ∉ list.tail) :
    c3Advance candidate lists = lists.map (fun list => list.erase candidate) := by
  refine List.map_congr_left fun list member => ?_
  cases list with
  | nil => rfl
  | cons head rest =>
      have notInRest : candidate ∉ rest := free _ member
      by_cases same : head = candidate
      · subst same
        simp
      · rw [List.head?_cons, if_neg (by simpa using same),
          List.erase_cons_tail (by simpa using same), List.erase_of_not_mem notInRest]

omit [DecidableEq Item] in
theorem mem_removeNil {list : List Item} : list ∈ removeNil lists ↔ list ∈ lists ∧ list ≠ [] := by
  simp [removeNil, List.mem_filter]

theorem Merges.sublist {result : List Item}
    (merges : Merges lists result) {list : List Item} (member : list ∈ lists) :
    list.Sublist result := by
  induction merges generalizing list with
  | @done lists empty =>
      by_contra notNil
      have nonempty : list ≠ [] := by
        rintro rfl
        exact notNil (List.nil_sublist _)
      have kept := mem_removeNil.mpr ⟨member, nonempty⟩
      rw [empty] at kept
      cases kept
  | @take lists candidate rest candidates merges induction =>
      cases list with
      | nil => exact List.nil_sublist _
      | cons head tail =>
          have kept := mem_removeNil.mpr ⟨member, List.cons_ne_nil head tail⟩
          have advanced := induction (List.mem_map_of_mem kept)
          by_cases same : head = candidate
          · subst same
            rw [List.head?_cons, if_pos rfl] at advanced
            exact advanced.cons_cons head
          · rw [List.head?_cons, if_neg (by simpa using same)] at advanced
            exact advanced.cons candidate

theorem Merges.nodup {result : List Item} (merges : Merges lists result) : result.Nodup := by
  induction merges with
  | done => exact List.nodup_nil
  | @take lists candidate rest candidates merges induction =>
      refine List.nodup_cons.mpr ⟨?_, induction⟩
      intro inRest
      obtain ⟨advanced, inAdvanced, inList⟩ := merges.mem inRest
      obtain ⟨list, kept, rfl⟩ := List.mem_map.mp inAdvanced
      have notInTail := c3Candidate_not_mem_tail candidates kept
      split at inList
      · exact notInTail inList
      next notHead =>
        cases list with
        | nil => cases inList
        | cons head tail =>
            rcases List.mem_cons.mp inList with rfl | inTail
            · exact notHead rfl
            · exact notInTail inTail

theorem Merges.consistentOrder {result : List Item}
    (merges : Merges lists result) : ConsistentOrder lists result where
  nodup := merges.nodup
  mem_iff _ :=
    ⟨merges.mem, fun ⟨_, inLists, inList⟩ => (merges.sublist inLists).subset inList⟩
  sublist _ := merges.sublist

omit [DecidableEq Item] in
/-- Where a list without repetitions starts, the lists within it start too or
do not hold the item at all. -/
theorem not_mem_tail_of_sublist {first : Item} {later list : List Item}
    (nodup : (first :: later).Nodup) (sublist : list.Sublist (first :: later)) :
    first ∉ list.tail := by
  have fresh := (List.nodup_cons.mp nodup).1
  cases sublist with
  | cons _ inLater => exact fun inTail => fresh (inLater.subset (List.mem_of_mem_tail inTail))
  | cons_cons _ inLater => exact fun inTail => fresh (inLater.subset inTail)

/-- A round finds a candidate as long as the order's first item is in a list, and
erases its candidate from the order together with the lists. -/
theorem merges_of_sublists {order : List Item}
    (nodup : order.Nodup) (sublists : ∀ list ∈ lists, list.Sublist order) :
    ∃ result, Merges lists result := by
  induction size : order.length generalizing lists order with
  | zero =>
      rw [List.length_eq_zero_iff] at size
      subst size
      refine ⟨[], .done (List.eq_nil_iff_forall_not_mem.mpr fun list kept => ?_)⟩
      obtain ⟨member, nonempty⟩ := mem_removeNil.mp kept
      exact nonempty (List.sublist_nil.mp (sublists list member))
  | succ size induction =>
      obtain ⟨first, later, rfl⟩ := List.exists_cons_of_length_eq_add_one size
      by_cases occurs : ∃ list ∈ lists, first ∈ list
      · obtain ⟨list, member, inList⟩ := occurs
        have free : ∀ list ∈ removeNil lists, first ∉ list.tail := fun list kept =>
          not_mem_tail_of_sublist nodup (sublists list (mem_removeNil.mp kept).1)
        cases list with
        | nil => cases inList
        | cons head tail =>
            have kept := mem_removeNil.mpr ⟨member, List.cons_ne_nil head tail⟩
            obtain rfl : first = head :=
              (List.mem_cons.mp inList).resolve_right (free _ kept)
            obtain ⟨candidate, found⟩ := c3Candidate_isSome kept free
            obtain ⟨rest, heads⟩ := c3Candidate_mem found
            have inOrder : candidate ∈ first :: later :=
              (sublists _ (mem_removeNil.mp heads).1).subset (List.mem_cons_self ..)
            have advanced := c3Advance_eq_erase fun list kept =>
              c3Candidate_not_mem_tail found kept
            obtain ⟨result, merges⟩ := @induction (c3Advance candidate (removeNil lists))
              ((first :: later).erase candidate) (nodup.erase candidate)
              (by
                rw [advanced]
                rintro _ inAdvanced
                obtain ⟨origin, originKept, rfl⟩ := List.mem_map.mp inAdvanced
                exact (sublists origin (mem_removeNil.mp originKept).1).erase candidate)
              (by rw [List.length_erase_of_mem inOrder, size, Nat.add_sub_cancel])
            exact ⟨candidate :: result, .take found merges⟩
      · refine @induction lists later (List.nodup_cons.mp nodup).2 (fun list member => ?_)
          (by simpa using size)
        cases sublists list member with
        | cons _ inLater => exact inLater
        | cons_cons =>
            exact absurd ⟨_, member, List.mem_cons_self ..⟩ occurs

/-- The merge fails exactly when the lists have no consistent order. -/
theorem c3Merge_eq_none_iff : c3Merge lists = none ↔ ¬ ∃ order, ConsistentOrder lists order := by
  constructor
  · rintro fails ⟨order, consistent⟩
    obtain ⟨result, merges⟩ := merges_of_sublists consistent.nodup consistent.sublist
    rw [c3Merge_eq_some.mpr merges] at fails
    cases fails
  · intro noOrder
    cases found : c3Merge lists with
    | none => rfl
    | some result =>
        exact absurd ⟨result, (c3Merge_eq_some.mp found).consistentOrder⟩ noOrder

namespace Registry

variable {registry : Registry}

def AcyclicGraph (registry : Registry) : Prop :=
  WellFounded fun super sub => super ∈ registry.supers sub

/-- The proper ancestors of `id` carry the lists computed for them. -/
def AncestorsCarryC3 (registry : Registry) (id : Id) : Prop :=
  ∀ ancestor, registry.Above id ancestor → ancestor ≠ id →
    registry.computeClassPrecedenceList ancestor = some (registry.object ancestor).cpl

/-- The argument of `%c3-merge` for a class. -/
def precedenceLists (registry : Registry) (id : Id) : List (List Id) :=
  [id] :: ((registry.supers id).map (fun super => (registry.object super).cpl) ++
    [registry.supers id])

/-- What a precedence list of `id` is to be. -/
structure PrecedenceList (registry : Registry) (id : Id) (cpl : List Id) : Prop where
  head : cpl.head? = some id
  nodup : cpl.Nodup
  mem_iff : ∀ ancestor, ancestor ∈ cpl ↔ registry.Above id ancestor
  localOrder : (registry.supers id).Sublist cpl
  monotone : ∀ super ∈ registry.supers id, (registry.object super).cpl.Sublist cpl

theorem AcyclicGraph.not_above (acyclic : registry.AcyclicGraph) {sub super : Id}
    (direct : super ∈ registry.supers sub) : ¬ registry.Above super sub := by
  intro above
  have cycle : Relation.TransGen (fun super sub => super ∈ registry.supers sub) sub sub := by
    rw [← Relation.transGen_swap]
    exact Relation.TransGen.head' direct above
  exact acyclic.transGen.irrefl.irrefl sub cycle

theorem AncestorsCarryC3.super {id super : Id} (carries : registry.AncestorsCarryC3 id)
    (acyclic : registry.AcyclicGraph) (direct : super ∈ registry.supers id) :
    registry.AncestorsCarryC3 super := by
  intro ancestor above _
  refine carries ancestor (.head direct above) ?_
  rintro rfl
  exact acyclic.not_above direct above

theorem computeClassPrecedenceList_eq (registry : Registry) (id : Id) :
    registry.computeClassPrecedenceList id = c3Merge (registry.precedenceLists id) := by
  by_cases noSupers : registry.supers id = []
  · have lists : registry.precedenceLists id = [[id], []] := by
      rw [precedenceLists, noSupers]
      rfl
    have single : Merges [[id], []] [id] :=
      (merges_head (by simp)).mpr ⟨[], rfl, .done rfl⟩
    rw [lists, c3Merge_eq_some.mpr single]
    exact if_pos noSupers
  · exact if_neg noSupers

theorem mem_precedenceLists {id : Id} {list : List Id} :
    list ∈ registry.precedenceLists id ↔ list = [id] ∨ list = registry.supers id ∨
      ∃ super ∈ registry.supers id, list = (registry.object super).cpl := by
  simp only [precedenceLists, List.mem_cons, List.mem_append, List.mem_map,
    List.not_mem_nil, or_false]
  constructor
  · rintro (rfl | ⟨super, direct, rfl⟩ | rfl)
    · exact Or.inl rfl
    · exact Or.inr (Or.inr ⟨super, direct, rfl⟩)
    · exact Or.inr (Or.inl rfl)
  · rintro (rfl | rfl | ⟨super, direct, rfl⟩)
    · exact Or.inl rfl
    · exact Or.inr (Or.inr rfl)
    · exact Or.inr (Or.inl ⟨super, direct, rfl⟩)

theorem precedenceList_of_supers {id : Id} {cpl : List Id} (acyclic : registry.AcyclicGraph)
    (supers : ∀ super ∈ registry.supers id,
      registry.PrecedenceList super (registry.object super).cpl)
    (found : registry.computeClassPrecedenceList id = some cpl) :
    registry.PrecedenceList id cpl := by
  rw [computeClassPrecedenceList_eq] at found
  have merges := c3Merge_eq_some.mp found
  have consistent := merges.consistentOrder
  have own : registry.supers id ∈ registry.precedenceLists id :=
    mem_precedenceLists.mpr (Or.inr (Or.inl rfl))
  have inherited {super : Id} (direct : super ∈ registry.supers id) :
      (registry.object super).cpl ∈ registry.precedenceLists id :=
    mem_precedenceLists.mpr (Or.inr (Or.inr ⟨super, direct, rfl⟩))
  refine ⟨?_, consistent.nodup, fun ancestor => ?_, consistent.sublist _ own,
    fun super direct => consistent.sublist _ (inherited direct)⟩
  · -- The class is in no other list, as it is not above itself.
    obtain ⟨rest, rfl, _⟩ := (merges_head fun list member inList => by
      rcases List.mem_append.mp member with mapped | last
      · obtain ⟨super, direct, rfl⟩ := List.mem_map.mp mapped
        exact acyclic.not_above direct (((supers super direct).mem_iff id).mp inList)
      · rw [List.mem_singleton] at last
        exact acyclic.not_above (last ▸ inList) .refl).mp merges
    rfl
  · rw [consistent.mem_iff]
    constructor
    · rintro ⟨list, inLists, inList⟩
      rcases mem_precedenceLists.mp inLists with rfl | rfl | ⟨super, direct, rfl⟩
      · rw [List.mem_singleton.mp inList]
        exact .refl
      · exact .single inList
      · exact .head direct (((supers super direct).mem_iff ancestor).mp inList)
    · intro above
      rcases Relation.ReflTransGen.cases_head above with rfl | ⟨super, direct, above⟩
      · exact ⟨[id], mem_precedenceLists.mpr (Or.inl rfl), List.mem_singleton_self id⟩
      · exact ⟨_, inherited direct, ((supers super direct).mem_iff ancestor).mpr above⟩

theorem precedenceList_of_carried (acyclic : registry.AcyclicGraph) {id : Id}
    (carries : registry.AncestorsCarryC3 id) {cpl : List Id}
    (found : registry.computeClassPrecedenceList id = some cpl) :
    registry.PrecedenceList id cpl := by
  induction id using acyclic.induction generalizing cpl with
  | _ id induction =>
      refine precedenceList_of_supers acyclic (fun super direct => ?_) found
      refine induction super direct (carries.super acyclic direct) ?_
      refine carries super (.single direct) ?_
      rintro rfl
      exact acyclic.not_above direct .refl

/-- The merge of any lists ends, and it fails exactly where they have no
consistent order; the list computed for a class is a precedence list. -/
theorem computeClassPrecedenceList_spec (registry : Registry)
    (acyclic : registry.AcyclicGraph) (id : Id)
    (carries : registry.AncestorsCarryC3 id) :
    (∀ lists : List (List Id), ((∃ result, Merges lists result) ∨ Inconsistent lists) ∧
      (c3Merge lists = none ↔ Inconsistent lists) ∧
      (c3Merge lists = none ↔ ¬ ∃ order, ConsistentOrder lists order)) ∧
    registry.computeClassPrecedenceList id = c3Merge (registry.precedenceLists id) ∧
    ∀ cpl, registry.computeClassPrecedenceList id = some cpl → registry.PrecedenceList id cpl :=
  ⟨fun lists => ⟨merges_or_inconsistent lists, c3Merge_eq_none, c3Merge_eq_none_iff⟩,
    computeClassPrecedenceList_eq registry id,
    fun _ found => precedenceList_of_carried acyclic carries found⟩

def fourClasses : Registry where
  count := 4
  object
    | 0 => { cpl := [0] }
    | 1 => { directSuperclasses := [0], cpl := [1, 0] }
    | 2 => { directSuperclasses := [0], cpl := [2, 0] }
    | 3 => { directSuperclasses := [1, 2] }
    | _ => {}
  findClass := fun _ => none

theorem fourClasses_supers_lt {sub super : Id} (direct : super ∈ fourClasses.supers sub) :
    super < sub := by
  match sub, direct with
  | 1, direct | 2, direct =>
      obtain rfl : super = 0 := List.mem_singleton.mp direct
      decide
  | 3, direct =>
      rcases List.mem_cons.mp direct with rfl | direct
      · decide
      · obtain rfl : super = 2 := List.mem_singleton.mp direct
        decide

/-- A diamond of four classes. -/
theorem computeClassPrecedenceList_spec_fourClasses :
    fourClasses.PrecedenceList 3 [3, 1, 2, 0] := by
  have acyclic : fourClasses.AcyclicGraph :=
    Subrelation.wf fourClasses_supers_lt Nat.lt_wfRel.wf
  have carries : fourClasses.AncestorsCarryC3 3 := by
    intro ancestor above proper
    have atMost : ancestor ≤ 3 := by
      clear proper
      induction above with
      | refl => exact le_rfl
      | tail _ direct induction =>
          exact (fourClasses_supers_lt direct).le.trans induction
    match ancestor, proper, atMost with
    | 0, _, _ | 1, _, _ | 2, _, _ => decide
    | 3, proper, _ => exact absurd rfl proper
  exact (computeClassPrecedenceList_spec fourClasses acyclic 3 carries).2.2 _ (by decide)

end Registry

end ClAmiga.Clos
