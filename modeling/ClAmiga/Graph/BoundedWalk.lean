import Mathlib.Data.List.Nodup
import Mathlib.Logic.Relation

/-!
# A depth-first walk with bounded memory

A walk takes its pending references from a stack.  A node met for the first time is
kept and its successors become pending, the last one on top; a node met again is noted as
shared.  No more than `limit` nodes are kept and no more than `room` references are
pending; what is beyond that is dropped.
-/

namespace ClAmiga.Graph

variable {Node : Type}

structure Found (Node : Type) where
  kept : List Node
  shared : List Node
deriving DecidableEq

def push (room : Nat) (pending : List Node) (node : Node) : List Node :=
  if pending.length < room then node :: pending else pending

/-- The walk from its pending references. -/
def boundedWalk [DecidableEq Node] (next : Node → List Node) (limit room : Nat)
    (kept shared : List Node) :
    List Node → Found Node
  | [] => ⟨kept, shared⟩
  | node :: pending =>
      if node ∈ kept then
        boundedWalk next limit room kept (node :: shared) pending
      else if limit ≤ kept.length then
        boundedWalk next limit room kept shared pending
      else
        boundedWalk next limit room (node :: kept) shared ((next node).foldl (push room) pending)
termination_by pending => (limit - kept.length, pending.length)

theorem mem_foldl_push {room : Nat} (nodes pending : List Node) :
    ∀ node ∈ nodes.foldl (push room) pending, node ∈ nodes ∨ node ∈ pending := by
  induction nodes generalizing pending with
  | nil => exact fun node member => .inr member
  | cons first nodes induction =>
      intro node member
      rw [List.foldl_cons] at member
      rcases induction _ node member with later | now
      · exact .inl (List.mem_cons_of_mem _ later)
      · rw [push] at now
        split at now
        · rcases List.mem_cons.mp now with rfl | old
          · exact .inl List.mem_cons_self
          · exact .inr old
        · exact .inr now

section Walk

variable [DecidableEq Node] {next : Node → List Node} {limit room : Nat}
    {kept shared pending : List Node}
  {node : Node}

@[simp] theorem boundedWalk_nil : boundedWalk next limit room kept shared [] = ⟨kept, shared⟩ := by
  rw [boundedWalk]

theorem boundedWalk_full (new : node ∉ kept) (full : limit ≤ kept.length) :
    boundedWalk next limit room kept shared (node :: pending) =
      boundedWalk next limit room kept shared pending := by
  rw [boundedWalk, if_neg new, if_pos full]

theorem boundedWalk_new (new : node ∉ kept) (free : kept.length < limit) :
    boundedWalk next limit room kept shared (node :: pending) =
      boundedWalk next limit room (node :: kept) shared
        ((next node).foldl (push room) pending) := by
  rw [boundedWalk, if_neg new, if_neg (Nat.not_le.mpr free)]

/-- What holds of the roots and is inherited along edges holds of every kept node. -/
theorem boundedWalk_kept {P : Node → Prop} (inherits : ∀ node, ∀ other ∈ next node, P other)
    (kept shared pending : List Node) (before : ∀ node ∈ kept, P node)
    (stacked : ∀ node ∈ pending, P node) :
    ∀ node ∈ (boundedWalk next limit room kept shared pending).kept, P node := by
  fun_induction boundedWalk next limit room kept shared pending with
  | case1 kept shared => exact before
  | case2 kept shared node pending known induction =>
      exact induction before fun other member => stacked other (List.mem_cons_of_mem _ member)
  | case3 kept shared node pending unknown full induction =>
      exact induction before fun other member => stacked other (List.mem_cons_of_mem _ member)
  | case4 kept shared node pending unknown free induction =>
      refine induction ?_ ?_
      · intro other member
        rcases List.mem_cons.mp member with rfl | held
        · exact stacked other List.mem_cons_self
        · exact before other held
      · intro other member
        rcases mem_foldl_push _ _ other member with successor | waiting
        · exact inherits node other successor
        · exact stacked other (List.mem_cons_of_mem _ waiting)

theorem boundedWalk_shared (kept shared pending : List Node)
    (before : ∀ node ∈ shared, node ∈ kept) :
    ∀ node ∈ (boundedWalk next limit room kept shared pending).shared,
      node ∈ (boundedWalk next limit room kept shared pending).kept := by
  fun_induction boundedWalk next limit room kept shared pending with
  | case1 kept shared => exact before
  | case2 kept shared node pending known induction =>
      refine induction fun other member => ?_
      rcases List.mem_cons.mp member with rfl | earlier
      · exact known
      · exact before other earlier
  | case3 kept shared node pending unknown full induction => exact induction before
  | case4 kept shared node pending unknown free induction =>
      exact induction fun other member => List.mem_cons_of_mem _ (before other member)

end Walk

theorem foldl_push {room : Nat} (nodes pending : List Node)
    (fits : nodes.length + pending.length ≤ room) :
    nodes.foldl (push room) pending = nodes.reverse ++ pending := by
  induction nodes generalizing pending with
  | nil => rfl
  | cons node nodes induction =>
      simp only [List.length_cons] at fits
      rw [List.foldl_cons, push, if_pos (by omega), induction (node :: pending) (by
        simp only [List.length_cons]; omega)]
      simp

inductive Steps (next : Node → List Node) : List Node × List Node → List Node × List Node → Prop
  where
  | again {kept pending : List Node} {node : Node} (known : node ∈ kept) :
      Steps next (kept, node :: pending) (kept, pending)
  | new {kept pending : List Node} {node : Node} (new : node ∉ kept) :
      Steps next (kept, node :: pending) (node :: kept, (next node).reverse ++ pending)

def OnPath (next : Node → List Node) (root node : Node) : Prop :=
  Relation.ReflTransGen (fun first second => second ∈ next first) root node

abbrev Reference (Node : Type) := Option (Node × Nat)

def Reference.target (next : Node → List Node) (root : Node) : Reference Node → Option Node
  | none => some root
  | some (node, place) => (next node)[place]?

/-- A reference to a node from the root's graph. -/
def Refers (next : Node → List Node) (root : Node) (reference : Reference Node) (node : Node) :
    Prop :=
  reference.target next root = some node ∧
    ∀ source place, reference = some (source, place) → OnPath next root source

def Multiple (next : Node → List Node) (root node : Node) : Prop :=
  ∃ first second : Reference Node, first ≠ second ∧ Refers next root first node ∧
    Refers next root second node

/-- How far the walk is: the references it has followed and those it has pending.  Together
they are the root's and all those from kept nodes. -/
structure Progress (next : Node → List Node) (root : Node) (kept shared pending : List Node)
    (followed waiting : List (Reference Node)) : Prop where
  distinct : (followed ++ waiting).Nodup
  all : ∀ reference, reference ∈ followed ++ waiting ↔ reference = none ∨
    ∃ source ∈ kept, ∃ place < (next source).length, reference = some (source, place)
  targets : waiting.map (Reference.target next root) = pending.map some
  kept_iff : ∀ node, node ∈ kept ↔ ∃ reference ∈ followed,
    reference.target next root = some node
  shared_iff : ∀ node, node ∈ shared ↔ ∃ first ∈ followed, ∃ second ∈ followed,
    first ≠ second ∧ first.target next root = some node ∧ second.target next root = some node
  reached : ∀ node ∈ kept, OnPath next root node
  once : kept.Nodup

variable {next : Node → List Node} {root node : Node} {kept shared pending : List Node}
  {followed waiting : List (Reference Node)} {reference : Reference Node}

def outgoing (next : Node → List Node) (node : Node) : List (Reference Node) :=
  ((List.range (next node).length).map fun place => some (node, place)).reverse

theorem mem_outgoing : reference ∈ outgoing next node ↔
    ∃ place < (next node).length, reference = some (node, place) := by
  simp [outgoing, eq_comm]

theorem outgoing_nodup : (outgoing next node).Nodup := by
  rw [outgoing, List.nodup_reverse]
  refine List.nodup_range.map fun first second same => ?_
  exact (Prod.mk.inj (Option.some.inj same)).2

theorem targets_outgoing (root : Node) : (outgoing next node).map (Reference.target next root) =
      ((next node).reverse).map some := by
  rw [outgoing, List.map_reverse, List.map_reverse, List.map_map]
  refine congrArg List.reverse (List.ext_getElem? fun i => ?_)
  by_cases inside : i < (next node).length
  · simp [Reference.target, inside]
  · simp [Nat.le_of_not_lt inside]

namespace Progress

theorem start (next : Node → List Node) (root : Node) :
    Progress next root [] [] [root] [] [none] where
  distinct := by simp
  all reference := by simp
  targets := rfl
  kept_iff node := by simp
  shared_iff node := by simp
  reached node member := by cases member
  once := List.nodup_nil

theorem top (progress : Progress next root kept shared (node :: pending) followed waiting) :
    ∃ reference rest, waiting = reference :: rest ∧ reference.target next root = some node ∧
      rest.map (Reference.target next root) = pending.map some := by
  have targets := progress.targets
  cases waiting with
  | nil => simp at targets
  | cons reference rest =>
      rw [List.map_cons, List.map_cons] at targets
      injection targets with first others
      exact ⟨reference, rest, rfl, first, others⟩

theorem not_followed
    (progress : Progress next root kept shared pending followed (reference :: waiting)) :
    reference ∉ followed := by
  intro member
  exact (List.nodup_append.mp progress.distinct).2.2 reference member reference
    List.mem_cons_self rfl

theorem onPath (progress : Progress next root kept shared pending followed waiting)
    (member : reference ∈ waiting) (leads : reference.target next root = some node) :
    OnPath next root node := by
  rcases (progress.all reference).mp (List.mem_append_right _ member) with
    rfl | ⟨source, held, place, _, rfl⟩
  · cases leads
    exact .refl
  · exact (progress.reached source held).tail (List.mem_of_getElem? leads)

theorem again
    (progress : Progress next root kept shared (node :: pending) followed (reference :: waiting))
    (known : node ∈ kept) (leads : reference.target next root = some node)
    (others : waiting.map (Reference.target next root) = pending.map some) :
    Progress next root kept (node :: shared) pending (followed ++ [reference]) waiting where
  distinct := by simpa using progress.distinct
  all other := by simpa using progress.all other
  targets := others
  kept_iff other := by
    rw [progress.kept_iff]
    constructor
    · rintro ⟨first, member, target⟩
      exact ⟨first, List.mem_append_left _ member, target⟩
    · rintro ⟨first, member, target⟩
      rcases List.mem_append.mp member with earlier | last
      · exact ⟨first, earlier, target⟩
      · obtain rfl := List.mem_singleton.mp last
        obtain rfl : node = other := Option.some.inj (leads.symm.trans target)
        exact (progress.kept_iff node).mp known
  shared_iff other := by
    have old := progress.shared_iff other
    constructor
    · intro member
      rcases List.mem_cons.mp member with rfl | earlier
      · -- The reference by which the node was kept is another one.
        obtain ⟨first, before, target⟩ := (progress.kept_iff other).mp known
        refine ⟨first, List.mem_append_left _ before, reference, by simp, ?_, target, leads⟩
        rintro rfl
        exact progress.not_followed before
      · obtain ⟨first, firstIn, second, secondIn, different⟩ := old.mp earlier
        exact ⟨first, List.mem_append_left _ firstIn, second, List.mem_append_left _ secondIn,
          different⟩
    · rintro ⟨first, firstIn, second, secondIn, different, firstLeads, secondLeads⟩
      rcases List.mem_append.mp firstIn with firstOld | firstNew
      · rcases List.mem_append.mp secondIn with secondOld | secondNew
        · exact List.mem_cons_of_mem _ (old.mpr ⟨first, firstOld, second, secondOld, different,
            firstLeads, secondLeads⟩)
        · obtain rfl := List.mem_singleton.mp secondNew
          exact List.mem_cons.mpr (.inl (Option.some.inj (secondLeads.symm.trans leads)))
      · obtain rfl := List.mem_singleton.mp firstNew
        exact List.mem_cons.mpr (.inl (Option.some.inj (firstLeads.symm.trans leads)))
  reached := progress.reached
  once := progress.once

theorem new
    (progress : Progress next root kept shared (node :: pending) followed (reference :: waiting))
    (unknown : node ∉ kept) (leads : reference.target next root = some node)
    (others : waiting.map (Reference.target next root) = pending.map some) :
    Progress next root (node :: kept) shared ((next node).reverse ++ pending)
      (followed ++ [reference]) (outgoing next node ++ waiting) where
  distinct := by
    -- The new references come from a node that no other reference comes from.
    have apart : ((outgoing next node) ++ (followed ++ reference :: waiting)).Nodup := by
      refine List.nodup_append.mpr ⟨outgoing_nodup, progress.distinct, ?_⟩
      rintro first fresh _ old rfl
      obtain ⟨place, _, rfl⟩ := mem_outgoing.mp fresh
      rcases (progress.all _).mp old with none | ⟨source, held, _, _, same⟩
      · cases none
      · obtain ⟨rfl, _⟩ := Prod.mk.inj (Option.some.inj same)
        exact unknown held
    refine (List.Perm.nodup_iff ?_).mp apart
    rw [List.append_cons followed, ← List.append_assoc, ← List.append_assoc (followed ++ _)]
    exact List.perm_append_comm.append_right waiting
  all other := by
    have old := progress.all other
    simp only [List.mem_append, List.mem_cons, List.not_mem_nil, or_false] at old ⊢
    rw [mem_outgoing]
    constructor
    · rintro (followedOrNow | ⟨place, inside, rfl⟩ | later)
      · rcases old.mp (by tauto) with none | ⟨source, held, rest⟩
        · exact .inl none
        · exact .inr ⟨source, .inr held, rest⟩
      · exact .inr ⟨node, .inl rfl, place, inside, rfl⟩
      · rcases old.mp (by tauto) with none | ⟨source, held, rest⟩
        · exact .inl none
        · exact .inr ⟨source, .inr held, rest⟩
    · rintro (none | ⟨source, rfl | held, rest⟩)
      · have := old.mpr (.inl none)
        tauto
      · exact .inr (.inl rest)
      · have := old.mpr (.inr ⟨source, held, rest⟩)
        tauto
  targets := by
    rw [List.map_append, List.map_append, targets_outgoing, others]
  kept_iff other := by
    rw [List.mem_cons, progress.kept_iff other]
    constructor
    · rintro (rfl | ⟨first, member, target⟩)
      · exact ⟨reference, by simp, leads⟩
      · exact ⟨first, List.mem_append_left _ member, target⟩
    · rintro ⟨first, member, target⟩
      rcases List.mem_append.mp member with earlier | last
      · exact .inr ⟨first, earlier, target⟩
      · obtain rfl := List.mem_singleton.mp last
        exact .inl (Option.some.inj (target.symm.trans leads))
  shared_iff other := by
    have old := progress.shared_iff other
    -- No reference followed before leads to the new node.
    have absent : ∀ first ∈ followed, first.target next root ≠ some node :=
      fun first member target => unknown ((progress.kept_iff node).mpr ⟨first, member, target⟩)
    constructor
    · intro member
      obtain ⟨first, firstIn, second, secondIn, different⟩ := old.mp member
      exact ⟨first, List.mem_append_left _ firstIn, second, List.mem_append_left _ secondIn,
        different⟩
    · rintro ⟨first, firstIn, second, secondIn, different, firstLeads, secondLeads⟩
      rcases List.mem_append.mp firstIn with firstOld | firstNew
      · rcases List.mem_append.mp secondIn with secondOld | secondNew
        · exact old.mpr ⟨first, firstOld, second, secondOld, different, firstLeads, secondLeads⟩
        · obtain rfl := List.mem_singleton.mp secondNew
          exact absurd (firstLeads.trans (secondLeads.symm.trans leads)) (absent first firstOld)
      · obtain rfl := List.mem_singleton.mp firstNew
        rcases List.mem_append.mp secondIn with secondOld | secondNew
        · exact absurd (secondLeads.trans (firstLeads.symm.trans leads)) (absent second secondOld)
        · exact absurd (List.mem_singleton.mp secondNew).symm different
  reached other member := by
    rcases List.mem_cons.mp member with rfl | held
    · exact progress.onPath List.mem_cons_self leads
    · exact progress.reached other held
  once := List.nodup_cons.mpr ⟨unknown, progress.once⟩

theorem kept_of_done (progress : Progress next root kept shared [] followed waiting)
    (path : OnPath next root node) : node ∈ kept := by
  obtain rfl : waiting = [] := by simpa using progress.targets
  induction path with
  | refl =>
      refine (progress.kept_iff root).mpr ⟨none, ?_, rfl⟩
      simpa using (progress.all none).mpr (.inl rfl)
  | @tail source successor _ member held =>
      obtain ⟨place, inside, found⟩ := List.getElem_of_mem member
      refine (progress.kept_iff _).mpr ⟨some (source, place), ?_, ?_⟩
      · simpa using (progress.all (some (source, place))).mpr
          (.inr ⟨source, held, place, inside, rfl⟩)
      · exact List.getElem?_eq_some_iff.mpr ⟨inside, found⟩

theorem shared_of_done (progress : Progress next root kept shared [] followed waiting) :
    node ∈ shared ↔ Multiple next root node := by
  have empty : waiting = [] := by simpa using progress.targets
  have all := progress.all
  rw [empty, List.append_nil] at all
  have refers : ∀ reference : Reference Node, reference.target next root = some node →
      (reference ∈ followed ↔ Refers next root reference node) := by
    intro reference leads
    rw [all]
    constructor
    · rintro (rfl | ⟨source, held, place, _, rfl⟩)
      · exact ⟨leads, fun _ _ same => by cases same⟩
      · refine ⟨leads, fun _ _ same => ?_⟩
        obtain ⟨rfl, _⟩ := Prod.mk.inj (Option.some.inj same)
        exact progress.reached _ held
    · rintro ⟨_, onPath⟩
      cases reference with
      | none => exact .inl rfl
      | some pair =>
          refine .inr ⟨pair.1, progress.kept_of_done (onPath _ _ rfl), pair.2, ?_, rfl⟩
          exact (List.getElem?_eq_some_iff.mp leads).1
  rw [progress.shared_iff]
  constructor
  · rintro ⟨first, firstIn, second, secondIn, different, firstLeads, secondLeads⟩
    exact ⟨first, second, different, (refers first firstLeads).mp firstIn,
      (refers second secondLeads).mp secondIn⟩
  · rintro ⟨first, second, different, firstRefers, secondRefers⟩
    exact ⟨first, (refers first firstRefers.1).mpr firstRefers, second,
      (refers second secondRefers.1).mpr secondRefers, different, firstRefers.1, secondRefers.1⟩

end Progress

section Lossless

variable [DecidableEq Node] {limit room : Nat}

/-- From a state of a walk with little enough to keep and to remember, the bounded walk
finds every node on a path and every node with more than one reference. -/
theorem Progress.boundedWalk
    (few : ∀ nodes : List Node, nodes.Nodup → (∀ node ∈ nodes, OnPath next root node) →
      nodes.length ≤ limit)
    (kept shared pending : List Node) :
    ∀ {followed waiting : List (Reference Node)},
      (∀ state, Relation.ReflTransGen (Steps next) (kept, pending) state → state.2.length ≤ room) →
      Progress next root kept shared pending followed waiting →
      (∀ node, node ∈ (boundedWalk next limit room kept shared pending).kept ↔
        OnPath next root node) ∧
      (∀ node, node ∈ (boundedWalk next limit room kept shared pending).shared ↔
        Multiple next root node) := by
  fun_induction ClAmiga.Graph.boundedWalk next limit room kept shared pending with
  | case1 kept shared =>
      intro followed waiting _ progress
      exact ⟨fun node => ⟨progress.reached node, progress.kept_of_done⟩,
        fun node => progress.shared_of_done⟩
  | case2 kept shared node pending known induction =>
      intro followed waiting fits progress
      obtain ⟨reference, rest, rfl, leads, others⟩ := progress.top
      exact induction (fun state steps => fits state (.head (.again known) steps))
        (progress.again known leads others)
  | case3 kept shared node pending unknown full induction =>
      intro followed waiting fits progress
      obtain ⟨reference, rest, rfl, leads, others⟩ := progress.top
      have enough := few (node :: kept) (List.nodup_cons.mpr ⟨unknown, progress.once⟩) (by
        intro other member
        rcases List.mem_cons.mp member with rfl | held
        · exact progress.onPath List.mem_cons_self leads
        · exact progress.reached other held)
      simp only [List.length_cons] at enough
      omega
  | case4 kept shared node pending unknown free induction =>
      intro followed waiting fits progress
      obtain ⟨reference, rest, rfl, leads, others⟩ := progress.top
      have step : Steps next (kept, node :: pending)
          (node :: kept, (next node).reverse ++ pending) := .new unknown
      have pushed : (next node).foldl (push room) pending = (next node).reverse ++ pending := by
        refine foldl_push _ _ ?_
        have := fits _ (.single step)
        simpa using this
      rw [pushed] at induction ⊢
      exact induction (fun state steps => fits state (.head step steps))
        (progress.new unknown leads others)

theorem boundedWalk_root
    (few : ∀ nodes : List Node, nodes.Nodup → (∀ node ∈ nodes, OnPath next root node) →
      nodes.length ≤ limit)
    (fits : ∀ state, Relation.ReflTransGen (Steps next) ([], [root]) state →
      state.2.length ≤ room) :
    (∀ node, node ∈ (boundedWalk next limit room [] [] [root]).kept ↔ OnPath next root node) ∧
      (∀ node, node ∈ (boundedWalk next limit room [] [] [root]).shared ↔
        Multiple next root node) :=
  Progress.boundedWalk few [] [] [root] fits (.start next root)

end Lossless

end ClAmiga.Graph
