import Mathlib.Data.List.Nodup
import Mathlib.Data.List.Sublists
import Mathlib.Logic.Relation

/-!
# Marking with a worklist that may lose entries

A node is marked when it is met, and put on a worklist if it has successors.
The worklist may refuse an entry; the node then stays marked, a flag records
the loss, and a later pass over all nodes meets the successors of every marked
one again.  Whatever is refused, a pass that loses nothing ends with the marked
set closed, and a pass that loses something has marked a new node.
-/

namespace ClAmiga.Graph

variable {Node : Type}

/-- The marked nodes, the worklist and the flag for a lost entry. -/
structure Worklist (Node : Type) where
  marked : List Node
  stack : List Node
  lost : Bool

namespace Worklist

/-- Meeting one node: it is marked already, has no successors, is put on the
worklist, or is lost. -/
inductive Meets (next : Node → List Node) (node : Node) (list : Worklist Node) :
    Worklist Node → Prop where
  | old (known : node ∈ list.marked) : Meets next node list list
  | leaf (new : node ∉ list.marked) (childless : next node = []) :
      Meets next node list ⟨node :: list.marked, list.stack, list.lost⟩
  | pushed (new : node ∉ list.marked) :
      Meets next node list ⟨node :: list.marked, node :: list.stack, list.lost⟩
  | dropped (new : node ∉ list.marked) :
      Meets next node list ⟨node :: list.marked, list.stack, true⟩

/-- Meeting several nodes in order. -/
inductive MeetsAll (next : Node → List Node) :
    List Node → Worklist Node → Worklist Node → Prop where
  | nil (list : Worklist Node) : MeetsAll next [] list list
  | cons {node : Node} {nodes : List Node} {list middle last : Worklist Node}
      (first : Meets next node list middle)
      (rest : MeetsAll next nodes middle last) :
      MeetsAll next (node :: nodes) list last

/-- Taking nodes from the worklist and meeting their successors, until it is
empty. -/
inductive Drains (next : Node → List Node) :
    Worklist Node → Worklist Node → Prop where
  | done {list : Worklist Node} (empty : list.stack = []) :
      Drains next list list
  | step {list middle last : Worklist Node} {node : Node} {stack : List Node}
      (top : list.stack = node :: stack)
      (successors : MeetsAll next (next node) ⟨list.marked, stack, list.lost⟩
        middle)
      (rest : Drains next middle last) :
      Drains next list last

/-- Going over nodes and meeting the successors of the marked ones. -/
inductive Rescans (next : Node → List Node) :
    List Node → Worklist Node → Worklist Node → Prop where
  | nil (list : Worklist Node) : Rescans next [] list list
  | skip {node : Node} {nodes : List Node} {list last : Worklist Node}
      (unmarked : node ∉ list.marked) (rest : Rescans next nodes list last) :
      Rescans next (node :: nodes) list last
  | scan {node : Node} {nodes : List Node} {list middle last : Worklist Node}
      (known : node ∈ list.marked)
      (successors : MeetsAll next (next node) list middle)
      (rest : Rescans next nodes middle last) :
      Rescans next (node :: nodes) list last

variable {next : Node → List Node}

def Scanned (next : Node → List Node) (list : Worklist Node) (node : Node) :
    Prop :=
  ∀ successor ∈ next node, successor ∈ list.marked

/-- Unless an entry is lost, every marked node is on the worklist, scanned, or
one of some nodes given. -/
def Covered (next : Node → List Node) (others : Node → Prop)
    (list : Worklist Node) : Prop :=
  list.lost = false → ∀ node ∈ list.marked,
    node ∈ list.stack ∨ Scanned next list node ∨ others node

/-- From `before` to `after` nodes are only marked, each of them a source or
marked before; the flag stays set, and is set only together with a new mark;
the worklist grows by no more than the marks. -/
structure Grows (sources : Node → Prop) (before after : Worklist Node) :
    Prop where
  subset : ∀ node ∈ before.marked, node ∈ after.marked
  nodup : before.marked.Nodup → after.marked.Nodup
  reached : ∀ node ∈ after.marked, node ∈ before.marked ∨ sources node
  sticky : before.lost = true → after.lost = true
  longer : before.marked.length ≤ after.marked.length
  loss : before.lost = false → after.lost = true →
    before.marked.length < after.marked.length
  work : after.stack.length + before.marked.length ≤
    before.stack.length + after.marked.length
  stacked : (∀ node ∈ before.stack, node ∈ before.marked) →
    ∀ node ∈ after.stack, node ∈ after.marked

theorem Grows.refl (sources : Node → Prop) (list : Worklist Node) : Grows sources list list :=
  ⟨fun _ member => member, id, fun _ member => Or.inl member, id, le_refl _,
    fun set unset => by simp [set] at unset, le_refl _, id⟩

theorem Grows.trans {sources : Node → Prop} {first second third : Worklist Node}
    (early : Grows sources first second) (late : Grows sources second third) :
    Grows sources first third := by
  have longerEarly := early.longer
  have longerLate := late.longer
  have workEarly := early.work
  have workLate := late.work
  refine ⟨fun node member => late.subset node (early.subset node member),
    fun nodup => late.nodup (early.nodup nodup), ?_,
    fun lost => late.sticky (early.sticky lost), by omega, ?_, by omega,
    fun stacked => late.stacked (early.stacked stacked)⟩
  · intro node member
    rcases late.reached node member with known | source
    · exact early.reached node known
    · exact Or.inr source
  · intro start finish
    cases middle : second.lost with
    | false =>
        have := late.loss middle finish
        omega
    | true =>
        have := early.loss start middle
        omega

variable {before after : Worklist Node} {others : Node → Prop}

theorem Grows.weaken {sources others : Node → Prop} (grows : Grows sources before after)
    (more : ∀ node, sources node → others node) :
    Grows others before after :=
  ⟨grows.subset, grows.nodup,
    fun node member => (grows.reached node member).imp_right (more node),
    grows.sticky, grows.longer, grows.loss, grows.work, grows.stacked⟩

theorem Scanned.mono {node : Node} (scanned : Scanned next before node)
    (subset : ∀ node ∈ before.marked, node ∈ after.marked) :
    Scanned next after node :=
  fun successor member => subset successor (scanned successor member)

theorem Meets.grows {node : Node} (meets : Meets next node before after) :
    Grows (fun other => other = node) before after := by
  cases meets with
  | old known => exact Grows.refl _ _
  | leaf new childless =>
      refine ⟨fun _ member => List.mem_cons_of_mem _ member,
        fun nodup => List.nodup_cons.mpr ⟨new, nodup⟩, ?_, id, by simp, ?_,
        by simp, ?_⟩
      · intro other member
        exact (List.mem_cons.mp member).symm
      · intro set unset
        simp [set] at unset
      · intro stacked other member
        exact List.mem_cons_of_mem _ (stacked other member)
  | pushed new =>
      refine ⟨fun _ member => List.mem_cons_of_mem _ member,
        fun nodup => List.nodup_cons.mpr ⟨new, nodup⟩, ?_, id, by simp, ?_, ?_,
        ?_⟩
      · intro other member
        exact (List.mem_cons.mp member).symm
      · intro set unset
        simp [set] at unset
      · simp
        omega
      · intro stacked other member
        rcases List.mem_cons.mp member with rfl | below
        · exact List.mem_cons_self
        · exact List.mem_cons_of_mem _ (stacked other below)
  | dropped new =>
      refine ⟨fun _ member => List.mem_cons_of_mem _ member,
        fun nodup => List.nodup_cons.mpr ⟨new, nodup⟩, ?_, fun _ => rfl,
        by simp, by simp, by simp, ?_⟩
      · intro other member
        exact (List.mem_cons.mp member).symm
      · intro stacked other member
        exact List.mem_cons_of_mem _ (stacked other member)

theorem Meets.marks {node : Node} (meets : Meets next node before after) : node ∈ after.marked := by
  cases meets with
  | old known => exact known
  | leaf => exact List.mem_cons_self
  | pushed => exact List.mem_cons_self
  | dropped => exact List.mem_cons_self

theorem Meets.covered {node : Node} (meets : Meets next node before after)
    (covered : Covered next others before) : Covered next others after := by
  have subset := meets.grows.subset
  -- A node marked before keeps its place; only the new one is looked at below.
  have keeps : ∀ stack : List Node, (∀ other ∈ before.stack, other ∈ stack) →
      ∀ other ∈ before.marked, before.lost = false → other ∈ stack ∨
        Scanned next after other ∨ others other := by
    intro stack bigger other member set
    rcases covered set other member with waiting | scanned | excused
    · exact Or.inl (bigger other waiting)
    · exact Or.inr (Or.inl (scanned.mono subset))
    · exact Or.inr (Or.inr excused)
  intro set other member
  cases meets with
  | old known => exact keeps _ (fun _ => id) other member set
  | leaf new childless =>
      rcases List.mem_cons.mp member with rfl | older
      · refine Or.inr (Or.inl ?_)
        intro successor successorMember
        rw [childless] at successorMember
        simp at successorMember
      · exact keeps _ (fun _ => id) other older set
  | pushed new =>
      rcases List.mem_cons.mp member with rfl | older
      · exact Or.inl List.mem_cons_self
      · exact keeps _ (fun _ => List.mem_cons_of_mem _) other older set
  | dropped new => simp at set

theorem MeetsAll.grows {nodes : List Node} (meets : MeetsAll next nodes before after) :
    Grows (fun other => other ∈ nodes) before after := by
  induction meets with
  | nil list => exact Grows.refl _ _
  | cons first rest induction =>
      exact (first.grows.weaken fun _ same => by simp [same]).trans
        (induction.weaken fun _ => List.mem_cons_of_mem _)

theorem MeetsAll.marks {nodes : List Node} (meets : MeetsAll next nodes before after) :
    ∀ node ∈ nodes, node ∈ after.marked := by
  induction meets with
  | nil list => simp
  | cons first rest induction =>
      intro node member
      rcases List.mem_cons.mp member with rfl | later
      · exact rest.grows.subset _ first.marks
      · exact induction node later

theorem MeetsAll.covered {nodes : List Node} (meets : MeetsAll next nodes before after)
    (covered : Covered next others before) : Covered next others after := by
  induction meets with
  | nil list => exact covered
  | cons first rest induction => exact induction (first.covered covered)

variable {roots : Node → Prop}

def Reached (next : Node → List Node) (roots : Node → Prop) (node : Node) :
    Prop :=
  ∃ root, roots root ∧
    Relation.ReflTransGen (fun first second => second ∈ next first) root node

theorem Reached.step {node successor : Node} (reached : Reached next roots node)
    (member : successor ∈ next node) : Reached next roots successor := by
  obtain ⟨root, isRoot, path⟩ := reached
  exact ⟨root, isRoot, path.tail member⟩

/-- A worklist whose marks are all reached and whose entries are all marked. -/
structure Sound (next : Node → List Node) (roots : Node → Prop)
    (list : Worklist Node) : Prop where
  reached : ∀ node ∈ list.marked, Reached next roots node
  stacked : ∀ node ∈ list.stack, node ∈ list.marked
  nodup : list.marked.Nodup

theorem Sound.grows {sources : Node → Prop}
    (sound : Sound next roots before) (grows : Grows sources before after)
    (reachable : ∀ node, sources node → Reached next roots node) :
    Sound next roots after where
  reached node member :=
    (grows.reached node member).elim (sound.reached node) (reachable node)
  stacked := grows.stacked sound.stacked
  nodup := grows.nodup sound.nodup

theorem covered_pop {list middle : Worklist Node}
    {node : Node} {stack : List Node} (top : list.stack = node :: stack)
    (successors : MeetsAll next (next node) ⟨list.marked, stack, list.lost⟩ middle)
    (covered : Covered next others list) : Covered next others middle := by
  -- While its successors are met the popped node itself is excused.
  have popped : Covered next (fun other => others other ∨ other = node)
      ⟨list.marked, stack, list.lost⟩ := by
    intro set other member
    rcases covered set other member with waiting | scanned | excused
    · rw [top] at waiting
      rcases List.mem_cons.mp waiting with here | below
      · exact Or.inr (Or.inr (Or.inr here))
      · exact Or.inl below
    · exact Or.inr (Or.inl scanned)
    · exact Or.inr (Or.inr (Or.inl excused))
  intro set other member
  rcases successors.covered popped set other member with
    waiting | scanned | excused | rfl
  · exact Or.inl waiting
  · exact Or.inr (Or.inl scanned)
  · exact Or.inr (Or.inr excused)
  · exact Or.inr (Or.inl successors.marks)

/-- Marks and the flag are only added to, and the flag only with a mark. -/
structure Advances (before after : Worklist Node) : Prop where
  subset : ∀ node ∈ before.marked, node ∈ after.marked
  sticky : before.lost = true → after.lost = true
  longer : before.marked.length ≤ after.marked.length
  loss : before.lost = false → after.lost = true →
    before.marked.length < after.marked.length

theorem Advances.refl (list : Worklist Node) : Advances list list :=
  ⟨fun _ => id, id, le_refl _, fun set unset => by simp [set] at unset⟩

theorem Advances.trans {first second third : Worklist Node}
    (early : Advances first second) (late : Advances second third) :
    Advances first third := by
  refine ⟨fun node member => late.subset node (early.subset node member),
    fun lost => late.sticky (early.sticky lost), early.longer.trans late.longer,
    ?_⟩
  intro start finish
  cases middle : second.lost with
  | false => exact early.longer.trans_lt (late.loss middle finish)
  | true => exact (early.loss start middle).trans_le late.longer

theorem Grows.advances {sources : Node → Prop}
    (grows : Grows sources before after) : Advances before after :=
  ⟨grows.subset, grows.sticky, grows.longer, grows.loss⟩

theorem Sound.pop {list middle : Worklist Node} {node : Node}
    {stack : List Node} (sound : Sound next roots list)
    (top : list.stack = node :: stack)
    (successors : MeetsAll next (next node) ⟨list.marked, stack, list.lost⟩ middle) :
    Sound next roots middle := by
  have here : node ∈ list.marked := sound.stacked node (by simp [top])
  have popped : Sound next roots ⟨list.marked, stack, list.lost⟩ :=
    ⟨sound.reached, fun other member => sound.stacked other (by simp [top, member]),
      sound.nodup⟩
  exact popped.grows successors.grows
    fun _ member => (sound.reached node here).step member

theorem Drains.spec (drains : Drains next before after) (sound : Sound next roots before)
    (covered : Covered next others before) :
    Sound next roots after ∧ Covered next others after ∧ after.stack = [] ∧
      Advances before after := by
  induction drains with
  | done empty => exact ⟨sound, covered, empty, Advances.refl _⟩
  | @step list middle last node stack top successors rest induction =>
      obtain ⟨soundLast, coveredLast, empty, advances⟩ :=
        induction (sound.pop top successors) (covered_pop top successors covered)
      have grows := successors.grows
      have first : Advances list middle :=
        ⟨grows.subset, grows.sticky, grows.longer, grows.loss⟩
      exact ⟨soundLast, coveredLast, empty, first.trans advances⟩

theorem Rescans.spec {nodes : List Node}
    (rescans : Rescans next nodes before after) (sound : Sound next roots before)
    (covered : Covered next (fun node => node ∈ nodes) before) :
    Sound next roots after ∧ Covered next (fun _ => False) after ∧
      Grows (fun _ => True) before after := by
  induction rescans with
  | nil list =>
      refine ⟨sound, ?_, Grows.refl _ _⟩
      intro set node member
      exact (covered set node member).imp_right (Or.imp_right (by simp))
  | @skip node nodes list last unmarked rest induction =>
      refine induction sound ?_
      intro set other member
      rcases covered set other member with waiting | scanned | excused
      · exact Or.inl waiting
      · exact Or.inr (Or.inl scanned)
      · rcases List.mem_cons.mp excused with rfl | later
        · exact absurd member unmarked
        · exact Or.inr (Or.inr later)
  | @scan node nodes list middle last known successors rest induction =>
      have grows := successors.grows
      have soundMiddle : Sound next roots middle := sound.grows grows
        fun _ member => (sound.reached node known).step member
      have coveredMiddle : Covered next (fun other => other ∈ nodes) middle := by
        intro set other member
        rcases successors.covered covered set other member with
          waiting | scanned | excused
        · exact Or.inl waiting
        · exact Or.inr (Or.inl scanned)
        · rcases List.mem_cons.mp excused with rfl | later
          · exact Or.inr (Or.inl successors.marks)
          · exact Or.inr (Or.inr later)
      obtain ⟨soundLast, coveredLast, growsLast⟩ :=
        induction soundMiddle coveredMiddle
      exact ⟨soundLast, coveredLast,
        (grows.weaken fun _ _ => trivial).trans growsLast⟩

/-- With nothing lost, nothing waiting and nobody excused, the marked nodes are
those reached from the roots. -/
theorem marked_iff {list : Worklist Node} (sound : Sound next roots list)
    (covered : Covered next (fun _ => False) list) (kept : list.lost = false)
    (empty : list.stack = []) (start : ∀ node, roots node → node ∈ list.marked)
    (node : Node) : node ∈ list.marked ↔ Reached next roots node := by
  constructor
  · exact sound.reached node
  · rintro ⟨root, isRoot, path⟩
    induction path with
    | refl => exact start root isRoot
    | tail _ edge induction =>
        rcases covered kept _ induction with waiting | scanned | no
        · simp [empty] at waiting
        · exact scanned _ edge
        · exact no.elim

end Worklist

end ClAmiga.Graph
