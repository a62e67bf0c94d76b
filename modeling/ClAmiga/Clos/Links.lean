import ClAmiga.Clos.Finalize

/-!
# Links between classes

The registered classes and their links up and down form a finite acyclic graph.  A
definition relinks one class and leaves the others where they are.
-/

namespace ClAmiga.Clos.Registry

open ClAmiga.Graph

def Registered (registry : Registry) (id : Id) : Prop :=
  ∃ name, registry.findClass name = some id

structure Linked (registry : Registry) : Prop where
  inside : ∀ id, registry.Registered id → id < registry.count
  blank : ∀ id, registry.count ≤ id → registry.subs id = []
  named : ∀ name id, registry.findClass name = some id → (registry.object id).name = name
  supers : ∀ id, registry.Registered id → ∀ super ∈ registry.supers id,
    registry.Registered super
  linked : ∀ id, registry.Registered id → ∀ super ∈ registry.supers id,
    id ∈ registry.subs super
  backed : ∀ super, registry.Registered super → ∀ id ∈ registry.subs super,
    registry.Registered id ∧ super ∈ registry.supers id
  acyclic : ∃ rank : Id → Nat, ∀ id, registry.Registered id →
    ∀ super ∈ registry.supers id, rank super < rank id

theorem Linked.empty : Linked Registry.empty := by
  have none {id : Id} (registered : Registry.empty.Registered id) : False := by
    obtain ⟨_, found⟩ := registered
    cases found
  exact ⟨fun _ registered => (none registered).elim, fun _ _ => rfl,
    fun _ _ found => (none ⟨_, found⟩).elim, fun _ registered => (none registered).elim,
    fun _ registered => (none registered).elim, fun _ registered => (none registered).elim,
    fun _ => 0, fun _ registered => (none registered).elim⟩

section Walk

variable {registry : Registry} {id : Id} {order : List Id}

open Classical in
theorem Linked.walk_isSome (linked : Linked registry) (registered : registry.Registered id) :
    (registry.walk id).isSome = true := by
  let nodes := (List.range registry.count).filter fun node =>
    decide (registry.Registered node)
  have mem_nodes {node : Id} (nodeRegistered : registry.Registered node) : node ∈ nodes := by
    rw [List.mem_filter, decide_eq_true_iff]
    exact ⟨List.mem_range.mpr (linked.inside node nodeRegistered), nodeRegistered⟩
  have finite : ∀ node ∈ nodes, ∀ successor ∈ registry.subs node, successor ∈ nodes := by
    intro node member successor follows
    rw [List.mem_filter, decide_eq_true_iff] at member
    exact mem_nodes (linked.backed node member.2 successor follows).1
  have short : nodes.length ≤ registry.count := by
    rw [← List.length_range (n := registry.count)]
    exact List.length_filter_le ..
  exact visitAll_isSome finite
    (fun source follows => mem_nodes (linked.backed id registered source follows).1)
    (Nat.lt_succ_of_le short)

theorem walk_nodup (walks : registry.walk id = some order) : order.Nodup :=
  (visitAll_continues walks).nodup List.nodup_nil

theorem Linked.mem_walk (linked : Linked registry) (walks : registry.walk id = some order)
    {sub super : Id} (registered : registry.Registered sub)
    (above : super ∈ registry.supers sub) (member : super = id ∨ super ∈ order) :
    sub ∈ order := by
  have continues := visitAll_continues walks
  have follows := linked.linked sub registered super above
  rcases member with rfl | inOrder
  · exact continues.covers sub follows
  · exact continues.closed super inOrder (by simp) sub follows

theorem Linked.walk_member (linked : Linked registry) (registered : registry.Registered id)
    (walks : registry.walk id = some order) {rank : Id → Nat}
    (ranked : ∀ id, registry.Registered id → ∀ super ∈ registry.supers id,
      rank super < rank id) {member : Id} (inOrder : member ∈ order) :
    registry.Registered member ∧ rank id < rank member := by
  obtain ⟨source, follows, reaches⟩ :=
    (visitAll_continues walks).reached member inOrder (by simp)
  clear inOrder
  induction reaches with
  | refl =>
      obtain ⟨sourceRegistered, above⟩ := linked.backed id registered source follows
      exact ⟨sourceRegistered, ranked source sourceRegistered id above⟩
  | @tail middle last _ step induction =>
      obtain ⟨middleRegistered, less⟩ := induction
      obtain ⟨lastRegistered, above⟩ := linked.backed middle middleRegistered last step
      exact ⟨lastRegistered, Nat.lt_trans less (ranked last lastRegistered middle above)⟩

end Walk

/-- Two registries whose metaobjects differ in their links down only. -/
structure SameButLinks (registry other : Registry) : Prop where
  count : other.count = registry.count
  findClass : other.findClass = registry.findClass
  object : ∀ id, { other.object id with directSubclasses := [] } =
    { registry.object id with directSubclasses := [] }

theorem SameButLinks.refl (registry : Registry) : SameButLinks registry registry :=
  ⟨rfl, rfl, fun _ => rfl⟩

theorem SameButLinks.trans {first second third : Registry}
    (early : SameButLinks first second) (late : SameButLinks second third) :
    SameButLinks first third :=
  ⟨late.count.trans early.count, late.findClass.trans early.findClass,
    fun id => (late.object id).trans (early.object id)⟩

theorem SameButLinks.field {registry other : Registry} {Field : Type}
    (same : SameButLinks registry other) (field : Metaobject → Field)
    (kept : ∀ metaobject : Metaobject,
      field { metaobject with directSubclasses := [] } = field metaobject) (id : Id) :
    field (other.object id) = field (registry.object id) := by
  rw [← kept, same.object, kept]

theorem modify_sameButLinks (registry : Registry) (id : Id) (links : List Id → List Id) :
    SameButLinks registry (registry.modify id fun metaobject =>
      { metaobject with directSubclasses := links metaobject.directSubclasses }) := by
  refine ⟨rfl, rfl, fun other => ?_⟩
  by_cases same : other = id
  · subst same
    rw [modify_object_self]
  · rw [modify_object_other _ _ same]

theorem modify_subs (registry : Registry) (id : Id) {change : Metaobject → Metaobject}
    (kept : ∀ metaobject, (change metaobject).directSubclasses = metaobject.directSubclasses) :
    (registry.modify id change).subs = registry.subs := by
  funext other
  unfold subs
  by_cases same : other = id
  · subst same
    rw [modify_object_self, kept]
  · rw [modify_object_other _ _ same]

theorem linkSubclass_sameButLinks (id : Id) (registry : Registry) (super : Id) :
    SameButLinks registry (linkSubclass id registry super) := by
  unfold linkSubclass
  split
  · exact .refl registry
  · exact registry.modify_sameButLinks super (id :: ·)

theorem unlinkSubclass_sameButLinks (id : Id) (registry : Registry) (super : Id) :
    SameButLinks registry (unlinkSubclass id registry super) :=
  registry.modify_sameButLinks super (·.filter fun sub => sub ≠ id)

theorem linkSubclass_subs (id : Id) (registry : Registry) (super other : Id) :
    (linkSubclass id registry super).subs other =
      if other = super ∧ id ∉ registry.subs super then id :: registry.subs super
      else registry.subs other := by
  unfold linkSubclass subs
  by_cases known : id ∈ (registry.object super).directSubclasses
  · rw [if_pos known, if_neg (fun both => both.2 known)]
  · rw [if_neg known]
    by_cases same : other = super
    · subst same
      rw [modify_object_self, if_pos ⟨rfl, known⟩]
    · rw [modify_object_other _ _ same, if_neg (fun both => same both.1)]

theorem unlinkSubclass_subs (id : Id) (registry : Registry) (super other : Id) :
    (unlinkSubclass id registry super).subs other =
      if other = super then (registry.subs super).filter fun sub => sub ≠ id
      else registry.subs other := by
  unfold unlinkSubclass subs
  by_cases same : other = super
  · subst same
    rw [modify_object_self, if_pos rfl]
  · rw [modify_object_other _ _ same, if_neg same]

section Folds

variable (id : Id) (supers : List Id) (registry : Registry)

theorem foldl_linkSubclass_sameButLinks :
    SameButLinks registry (supers.foldl (linkSubclass id) registry) := by
  induction supers generalizing registry with
  | nil => exact .refl registry
  | cons super later induction =>
      exact (linkSubclass_sameButLinks id registry super).trans (induction _)

theorem foldl_unlinkSubclass_sameButLinks :
    SameButLinks registry (supers.foldl (unlinkSubclass id) registry) := by
  induction supers generalizing registry with
  | nil => exact .refl registry
  | cons super later induction =>
      exact (unlinkSubclass_sameButLinks id registry super).trans (induction _)

theorem mem_foldl_linkSubclass (other sub : Id) :
    sub ∈ (supers.foldl (linkSubclass id) registry).subs other ↔
      sub ∈ registry.subs other ∨ (sub = id ∧ other ∈ supers) := by
  induction supers generalizing registry with
  | nil => simp
  | cons super later induction =>
      rw [List.foldl_cons, induction, linkSubclass_subs]
      split
      · rename_i here
        rw [here.1, List.mem_cons, List.mem_cons]
        tauto
      · rename_i elsewhere
        rw [List.mem_cons]
        by_cases same : other = super
        · have known : id ∈ registry.subs super := by
            by_contra unknown
            exact elsewhere ⟨same, unknown⟩
          subst same
          constructor
          · tauto
          · rintro (old | ⟨rfl, _⟩)
            · exact Or.inl old
            · exact Or.inl known
        · tauto

theorem mem_foldl_unlinkSubclass (other sub : Id) :
    sub ∈ (supers.foldl (unlinkSubclass id) registry).subs other ↔
      sub ∈ registry.subs other ∧ ¬ (sub = id ∧ other ∈ supers) := by
  induction supers generalizing registry with
  | nil => simp
  | cons super later induction =>
      rw [List.foldl_cons, induction, unlinkSubclass_subs]
      split
      · rename_i here
        rw [here, List.mem_filter, decide_eq_true_iff, List.mem_cons]
        tauto
      · rename_i elsewhere
        rw [List.mem_cons]
        tauto

theorem foldl_linkSubclass_other {other : Id} (outside : other ∉ supers) :
    (supers.foldl (linkSubclass id) registry).subs other = registry.subs other := by
  induction supers generalizing registry with
  | nil => rfl
  | cons super later induction =>
      rw [List.mem_cons, not_or] at outside
      rw [List.foldl_cons, induction _ outside.2, linkSubclass_subs,
        if_neg fun both => outside.1 both.1]

theorem foldl_unlinkSubclass_other {other : Id} (outside : other ∉ supers) :
    (supers.foldl (unlinkSubclass id) registry).subs other = registry.subs other := by
  induction supers generalizing registry with
  | nil => rfl
  | cons super later induction =>
      rw [List.mem_cons, not_or] at outside
      rw [List.foldl_cons, induction _ outside.2, unlinkSubclass_subs, if_neg outside.1]

end Folds

end ClAmiga.Clos.Registry
