import Mathlib.Algebra.Group.Nat.Defs
import ClAmiga.Circle.Text

/-!
# What a printed text describes

Printing objects writes out some nodes.  A shared node is written out when its label is
defined, so only once.  For a node that is not shared, the places in which it is written are
as many as the references to it from the nodes written out.
-/

namespace ClAmiga.Circle

open Labels (Datum Rest Items)
open ClAmiga.Graph (Found OnPath Multiple)

variable {heap : Heap} {found : Found Obj} {label : Obj → Nat}

/-- The shared nodes that are written out, with those written out before. -/
def entered (found : Found Obj) (nodes seen : List Obj) : List Obj :=
  (nodes.filter (· ∈ found.shared)).reverse ++ seen

theorem mem_entered {nodes seen : List Obj} {obj : Obj} :
    obj ∈ entered found nodes seen ↔ (obj ∈ nodes ∧ obj ∈ found.shared) ∨ obj ∈ seen := by
  simp [entered]

theorem entered_append (first second seen : List Obj) :
    entered found (first ++ second) seen = entered found second (entered found first seen) := by
  simp [entered]

theorem entered_shared {obj : Obj} (shared : obj ∈ found.shared) (nodes seen : List Obj) :
    entered found (obj :: nodes) seen = entered found nodes (obj :: seen) := by
  simp [entered, shared]

theorem entered_single {obj : Obj} (single : obj ∉ found.shared) (nodes seen : List Obj) :
    entered found (obj :: nodes) seen = entered found nodes seen := by
  simp [entered, single]

/-- The nodes written out for some objects, the labels that the text defines and the table
afterwards. -/
structure Written (heap : Heap) (found : Found Obj) (label : Obj → Nat)
    (seen objs nodes : List Obj) (scope : List Nat → Option (List Nat)) (table : Table) : Prop
    where
  marked : Marked found label (entered found nodes seen) table
  scoped_eq : scope (seen.map label) = some ((entered found nodes seen).map label)
  distinct : (entered found nodes seen).Nodup
  count : ∀ obj, heap.circleCompoundP obj = true → obj ∉ found.shared →
    nodes.count obj = objs.count obj + (nodes.flatMap heap.next).count obj
  covered : ∀ obj ∈ objs, heap.circleCompoundP obj = true → obj ∈ nodes ∨ obj ∈ seen
  closed : ∀ obj ∈ nodes.flatMap heap.next, obj ∈ nodes ∨ obj ∈ seen
  onPath : ∀ obj ∈ nodes, ∃ start ∈ objs, heap.circleCompoundP start = true ∧
    OnPath heap.next start obj

namespace Written

variable {seen : List Obj} {table : Table} {obj : Obj}

theorem none (marked : Marked found label seen table) (distinct : seen.Nodup) :
    Written heap found label seen [] [] some table where
  marked := marked
  scoped_eq := rfl
  distinct := distinct
  count obj _ _ := rfl
  covered obj member := by cases member
  closed obj member := by cases member
  onPath obj member := by cases member

theorem leaf (marked : Marked found label seen table) (distinct : seen.Nodup)
    (plain : heap.circleCompoundP obj = false) :
    Written heap found label seen [obj] [] some table where
  marked := marked
  scoped_eq := rfl
  distinct := distinct
  count other compound _ := by
    have different : obj ≠ other := by
      rintro rfl
      rw [plain] at compound
      cases compound
    simp [different]
  covered other member compound := by
    obtain rfl := List.mem_singleton.mp member
    rw [plain] at compound
    cases compound
  closed other member := by cases member
  onPath other member := by cases member

theorem refer (marked : Marked found label seen table) (distinct : seen.Nodup)
    (shared : obj ∈ found.shared) (old : obj ∈ seen) :
    Written heap found label seen [obj] [] (Datum.reference (label obj)).scoped table where
  marked := marked
  scoped_eq := by
    rw [Datum.scoped, if_pos (List.mem_map_of_mem old)]
    rfl
  distinct := distinct
  count other _ single := by
    have different : obj ≠ other := by
      rintro rfl
      exact single shared
    simp [different]
  covered other member _ := by
    obtain rfl := List.mem_singleton.mp member
    exact .inr old
  closed other member := by cases member
  onPath other member := by cases member

theorem append {objs others nodes more : List Obj} {scope after : List Nat → Option (List Nat)}
    {middle : Table} (first : Written heap found label seen objs nodes scope middle)
    (second : Written heap found label (entered found nodes seen) others more after table) :
    Written heap found label seen (objs ++ others) (nodes ++ more)
      (fun defined => (scope defined).bind after) table where
  marked := @entered_append found nodes more seen ▸ second.marked
  scoped_eq := by
    simp only [first.scoped_eq, Option.bind_some, second.scoped_eq, entered_append]
  distinct := @entered_append found nodes more seen ▸ second.distinct
  count obj compound single := by
    have left := first.count obj compound single
    have right := second.count obj compound single
    simp only [List.count_append, List.flatMap_append]
    omega
  covered obj member compound := by
    rcases List.mem_append.mp member with early | late
    · exact (first.covered obj early compound).imp_left (List.mem_append_left _)
    · rcases second.covered obj late compound with new | old
      · exact .inl (List.mem_append_right _ new)
      · rcases mem_entered.mp old with ⟨node, _⟩ | before
        · exact .inl (List.mem_append_left _ node)
        · exact .inr before
  closed obj member := by
    rw [List.flatMap_append] at member
    rcases List.mem_append.mp member with early | late
    · exact (first.closed obj early).imp_left (List.mem_append_left _)
    · rcases second.closed obj late with new | old
      · exact .inl (List.mem_append_right _ new)
      · rcases mem_entered.mp old with ⟨node, _⟩ | before
        · exact .inl (List.mem_append_left _ node)
        · exact .inr before
  onPath obj member := by
    rcases List.mem_append.mp member with early | late
    · obtain ⟨start, listed, rest⟩ := first.onPath obj early
      exact ⟨start, List.mem_append_left _ listed, rest⟩
    · obtain ⟨start, listed, rest⟩ := second.onPath obj late
      exact ⟨start, List.mem_append_right _ listed, rest⟩

theorem entering {parts nodes later : List Obj} {scope : List Nat → Option (List Nat)}
    (written : Written heap found label later parts nodes scope table)
    (compound : heap.circleCompoundP obj = true)
    (next : (heap.next obj).Perm (parts.filter heap.circleCompoundP))
    (known : ∀ other ∈ later, other = obj ∨ other ∈ seen) :
    (∀ other, heap.circleCompoundP other = true → other ∉ found.shared →
      (obj :: nodes).count other =
        [obj].count other + ((obj :: nodes).flatMap heap.next).count other) ∧
    (∀ other ∈ (obj :: nodes).flatMap heap.next, other ∈ obj :: nodes ∨ other ∈ seen) ∧
    ∀ other ∈ obj :: nodes, ∃ start ∈ [obj], heap.circleCompoundP start = true ∧
      OnPath heap.next start other := by
  refine ⟨fun other isCompound single => ?_, fun other member => ?_, fun other member => ?_⟩
  · have inner := written.count other isCompound single
    have same : (heap.next obj).count other = parts.count other := by
      rw [next.count_eq, List.count_filter isCompound]
    simp only [List.count_cons, List.flatMap_cons, List.count_append, List.count_nil]
    omega
  · have place : other ∈ nodes ∨ other ∈ later := by
      rw [List.flatMap_cons] at member
      rcases List.mem_append.mp member with part | inner
      · obtain ⟨listed, isCompound⟩ := List.mem_filter.mp (next.mem_iff.mp part)
        exact written.covered other listed isCompound
      · exact written.closed other inner
    rcases place with node | before
    · exact .inl (List.mem_cons_of_mem _ node)
    · rcases known other before with rfl | old
      · exact .inl List.mem_cons_self
      · exact .inr old
  · refine ⟨obj, List.mem_singleton_self obj, compound, ?_⟩
    rcases List.mem_cons.mp member with rfl | node
    · exact .refl
    · obtain ⟨start, listed, isCompound, path⟩ := written.onPath other node
      exact .head (next.mem_iff.mpr (List.mem_filter.mpr ⟨listed, isCompound⟩)) path

theorem single {parts nodes : List Obj} {scope : List Nat → Option (List Nat)}
    (written : Written heap found label seen parts nodes scope table)
    (compound : heap.circleCompoundP obj = true) (single : obj ∉ found.shared)
    (next : (heap.next obj).Perm (parts.filter heap.circleCompoundP)) :
    Written heap found label seen [obj] (obj :: nodes) scope table := by
  obtain ⟨count, closed, onPath⟩ := written.entering compound next fun _ => .inr
  exact {
    marked := entered_single single nodes seen ▸ written.marked
    scoped_eq := entered_single single nodes seen ▸ written.scoped_eq
    distinct := entered_single single nodes seen ▸ written.distinct
    count := count
    covered := fun other member _ =>
      .inl (List.mem_singleton.mp member ▸ List.mem_cons_self)
    closed := closed
    onPath := onPath }

theorem shared {parts nodes : List Obj} {datum : Datum} (distinct : Labelling found label)
    (before : ∀ other ∈ seen, other ∈ found.shared)
    (written : Written heap found label (obj :: seen) parts nodes datum.scoped table)
    (compound : heap.circleCompoundP obj = true) (shared : obj ∈ found.shared)
    (new : obj ∉ seen) (next : (heap.next obj).Perm (parts.filter heap.circleCompoundP)) :
    Written heap found label seen [obj] (obj :: nodes) (Datum.label (label obj) datum).scoped
      table := by
  obtain ⟨count, closed, onPath⟩ := written.entering compound next fun other member =>
    List.mem_cons.mp member
  have fresh : label obj ∉ seen.map label := by
    intro member
    obtain ⟨other, old, same⟩ := List.mem_map.mp member
    obtain rfl := distinct other (before other old) obj shared same
    exact new old
  exact {
    marked := entered_shared shared nodes seen ▸ written.marked
    scoped_eq := by
      rw [Datum.scoped, if_neg fresh, entered_shared shared]
      exact written.scoped_eq
    distinct := entered_shared shared nodes seen ▸ written.distinct
    count := count
    covered := fun other member _ =>
      .inl (List.mem_singleton.mp member ▸ List.mem_cons_self)
    closed := closed
    onPath := onPath }

end Written

end ClAmiga.Circle
