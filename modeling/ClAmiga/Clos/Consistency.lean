import ClAmiga.Clos.Installation

/-!
# Consistency of the class graph

After every definition the precedence list and the effective slots of each registered
class follow from its direct superclasses, as long as the walk from a redefined class
visits parents before their children.
-/

namespace ClAmiga.Clos.Registry

open ClAmiga.Graph

/-- The stored precedence list of every registered class is the class and the C3 merge
of those of its direct superclasses, and its effective slots follow from the list. -/
def Consistent (registry : Registry) : Prop :=
  ∀ id, registry.Registered id →
    (∃ rest, (registry.object id).cpl = id :: rest ∧
      c3Merge ((registry.supers id).map (fun super => (registry.object super).cpl) ++
        [registry.supers id]) = some rest) ∧
    (registry.object id).effectiveSlots = registry.slotsOf id (registry.object id).cpl

/-- The precedence list of `id` that follows from the values of its superclasses. -/
def cplOf (registry : Registry) (values : Id → Derived) (id : Id) : Option (List Id) :=
  if registry.supers id = [] then some [id]
  else c3Merge ([id] :: ((registry.supers id).map (fun super => (values super).cpl) ++
    [registry.supers id]))

theorem compute_eq_some {registry : Registry} {values : Id → Derived} {id : Id}
    {value : Derived} : registry.compute values id = some value ↔
      registry.cplOf values id = some value.cpl ∧
        value.effectiveSlots = registry.slotsOf id value.cpl ∧
        value.defaultInitargs = registry.defaultInitargsOf value.cpl := by
  change (registry.cplOf values id).map _ = some value ↔ _
  rw [Option.map_eq_some_iff]
  constructor
  · rintro ⟨cpl, found, rfl⟩
    exact ⟨found, rfl, rfl⟩
  · rintro ⟨found, slots, initargs⟩
    exact ⟨value.cpl, found, by rw [← slots, ← initargs]⟩

theorem mem_cplOf {registry : Registry} {values : Id → Derived} {id member : Id}
    {cpl : List Id} (found : registry.cplOf values id = some cpl) (inside : member ∈ cpl) :
    member = id ∨ ∃ super ∈ registry.supers id, member = super ∨ member ∈ (values super).cpl := by
  unfold cplOf at found
  split at found
  · cases found
    exact Or.inl (List.mem_singleton.mp inside)
  · obtain ⟨list, inLists, inList⟩ := (c3Merge_eq_some.mp found).mem inside
    rcases List.mem_cons.mp inLists with rfl | inRest
    · exact Or.inl (List.mem_singleton.mp inList)
    · right
      rcases List.mem_append.mp inRest with mapped | last
      · obtain ⟨super, above, rfl⟩ := List.mem_map.mp mapped
        exact ⟨super, above, Or.inr inList⟩
      · rw [List.mem_singleton] at last
        exact ⟨member, last ▸ inList, Or.inl rfl⟩

structure Settled (registry : Registry) : Prop where
  linked : Linked registry
  current : ∀ id, registry.Registered id →
    registry.compute registry.derived id = some (registry.derived id)

/-- `member` is `id` or one of its superclasses. -/
def Above (registry : Registry) : Id → Id → Prop :=
  Relation.ReflTransGen fun sub super => super ∈ registry.supers sub

section Settled

variable {registry : Registry}

theorem Linked.above {rank : Id → Nat} (linked : Linked registry)
    (ranked : ∀ id, registry.Registered id → ∀ super ∈ registry.supers id, rank super < rank id)
    {id member : Id} (registered : registry.Registered id) (above : registry.Above id member) :
    registry.Registered member ∧ rank member ≤ rank id := by
  induction above with
  | refl => exact ⟨registered, Nat.le_refl _⟩
  | tail _ step induction =>
      obtain ⟨middleRegistered, le⟩ := induction
      exact ⟨linked.supers _ middleRegistered _ step,
        Nat.le_of_lt (Nat.lt_of_lt_of_le (ranked _ middleRegistered _ step) le)⟩

theorem Settled.above (settled : Settled registry) {id member : Id}
    (registered : registry.Registered id) (inside : member ∈ (registry.derived id).cpl) :
    registry.Above id member := by
  obtain ⟨rank, ranked⟩ := settled.linked.acyclic
  induction hRank : rank id using Nat.strong_induction_on generalizing id with
  | _ level induction =>
      subst hRank
      have found := (compute_eq_some.mp (settled.current id registered)).1
      rcases mem_cplOf found inside with rfl | ⟨super, direct, rfl | inSuper⟩
      · exact .refl
      · exact .single direct
      · have superRegistered := settled.linked.supers id registered super direct
        exact .head direct
          (induction (rank super) (ranked id registered super direct) superRegistered inSuper rfl)

theorem Settled.cpl_eq (settled : Settled registry) {id : Id}
    (registered : registry.Registered id) :
    ∃ rest, (registry.object id).cpl = id :: rest ∧
      c3Merge ((registry.supers id).map (fun super => (registry.object super).cpl) ++
        [registry.supers id]) = some rest := by
  obtain ⟨rank, ranked⟩ := settled.linked.acyclic
  have found := (compute_eq_some.mp (settled.current id registered)).1
  unfold cplOf at found
  split at found
  · rename_i none
    rw [none]
    exact ⟨[], (Option.some.inj found).symm, rfl⟩
  · have new : ∀ list ∈ (registry.supers id).map (fun super => (registry.derived super).cpl) ++
        [registry.supers id], id ∉ list := by
      intro list member inside
      rcases List.mem_append.mp member with mapped | last
      · obtain ⟨super, direct, rfl⟩ := List.mem_map.mp mapped
        have superRegistered := settled.linked.supers id registered super direct
        have above := settled.above superRegistered inside
        have le := (settled.linked.above ranked superRegistered above).2
        exact Nat.not_lt_of_le le (ranked id registered super direct)
      · rw [List.mem_singleton] at last
        exact Nat.lt_irrefl _ (ranked id registered id (last ▸ inside))
    obtain ⟨rest, same, merges⟩ := (merges_head new).mp (c3Merge_eq_some.mp found)
    exact ⟨rest, same, c3Merge_eq_some.mpr merges⟩

theorem Settled.consistent (settled : Settled registry) : Consistent registry := by
  intro id registered
  exact ⟨settled.cpl_eq registered, (compute_eq_some.mp (settled.current id registered)).2.1⟩

end Settled

variable {registry other : Registry}

theorem Linked.congr (linked : Linked registry)
    (same : SameFrame registry other) : Linked other := by
  have registered {id : Id} : other.Registered id ↔ registry.Registered id := by
    unfold Registered
    rw [same.findClass]
  obtain ⟨inside, blank, named, supers, links, backed, rank, ranked⟩ := linked
  refine ⟨?_, ?_, ?_, ?_, ?_, ?_, rank, ?_⟩
  · intro id member
    rw [same.count]
    exact inside id (registered.mp member)
  · intro id above
    rw [same.subs]
    exact blank id (same.count ▸ above)
  · intro name id found
    rw [same.field Metaobject.name (fun _ => rfl)]
    exact named name id (same.findClass ▸ found)
  · intro id member super above
    rw [same.supers] at above
    exact registered.mpr (supers id (registered.mp member) super above)
  · intro id member super above
    rw [same.supers] at above
    rw [same.subs]
    exact links id (registered.mp member) super above
  · intro super member id follows
    rw [same.subs] at follows
    obtain ⟨idRegistered, above⟩ := backed super (registered.mp member) id follows
    rw [same.supers]
    exact ⟨registered.mpr idRegistered, above⟩
  · intro id member super above
    rw [same.supers] at above
    exact ranked id (registered.mp member) super above

theorem metaclassP_update {registry installed : Registry} {name : Name} {id other : Id}
    {cpl : List Id}
    (findClass : installed.findClass = Function.update registry.findClass name (some id))
    (newAway : other = id ∨ id ∉ cpl)
    (oldAway : ∀ old, registry.findClass name = some old → old ≠ id → old ∉ cpl) :
    installed.metaclassP other cpl = registry.metaclassP other cpl := by
  unfold metaclassP
  rw [findClass]
  by_cases std : name = "STANDARD-CLASS"
  · subst std
    rw [Function.update_self, Option.any_some]
    cases found : registry.findClass "STANDARD-CLASS" with
    | none =>
        rw [Option.any_none, decide_eq_false_iff_not]
        rintro ⟨different, inside⟩
        exact newAway.elim different (fun outside => outside inside)
    | some old =>
        rw [Option.any_some]
        by_cases same : old = id
        · rw [same]
        · have notOld : ¬ (other ≠ old ∧ old ∈ cpl) := fun both =>
            oldAway old found same both.2
          have notNew : ¬ (other ≠ id ∧ id ∈ cpl) := fun both =>
            newAway.elim both.1 (fun outside => outside both.2)
          rw [decide_eq_false notOld, decide_eq_false notNew]
  · rw [Function.update_of_ne (Ne.symm std)]

theorem slotsOf_congr {id : Id} {cpl : List Id} (slots : ∀ member ∈ cpl,
      (other.object member).directSlots = (registry.object member).directSlots)
    (metaclass : other.metaclassP id cpl = registry.metaclassP id cpl) :
    other.slotsOf id cpl = registry.slotsOf id cpl := by
  unfold slotsOf
  rw [metaclass, List.flatMap_congr slots]

theorem defaultInitargsOf_congr {cpl : List Id}
    (initargs : ∀ member ∈ cpl, (other.object member).directDefaultInitargs =
      (registry.object member).directDefaultInitargs) :
    other.defaultInitargsOf cpl = registry.defaultInitargsOf cpl := by
  unfold defaultInitargsOf
  rw [List.flatMap_congr initargs]

theorem cplOf_congr {values others : Id → Derived} {id : Id}
    (supers : other.supers id = registry.supers id)
    (agree : ∀ super ∈ registry.supers id, others super = values super) :
    other.cplOf others id = registry.cplOf values id := by
  unfold cplOf
  rw [supers, List.map_congr_left fun super above => by rw [agree super above]]

namespace Installation

variable {registry installed : Registry} {name : Name} {id : Id} {supers order : List Id}

theorem above_not_gone (installation : Installation registry name id supers order installed)
    (settled : Settled registry) {start member : Id} (registered : registry.Registered start)
    (notNamed : registry.findClass name ≠ some start)
    (above : registry.Above start member) (apart : member ≠ id) :
    registry.findClass name ≠ some member := by
  obtain ⟨rank, ranked⟩ := settled.linked.acyclic
  rcases Relation.ReflTransGen.cases_tail above with same | ⟨middle, reaches, step⟩
  · exact same ▸ notNamed
  · have middleRegistered := (settled.linked.above ranked registered reaches).1
    exact installation.super_not_gone settled.linked middleRegistered step apart

theorem above_outside (installation : Installation registry name id supers order installed)
    (settled : Settled registry) {start member : Id} (registered : registry.Registered start)
    (apart : start ≠ id) (outside : start ∉ order) (above : registry.Above start member) :
    member ≠ id ∧ member ∉ order := by
  obtain ⟨rank, ranked⟩ := settled.linked.acyclic
  induction above with
  | refl => exact ⟨apart, outside⟩
  | @tail middle last reaches step induction =>
      have middleRegistered := (settled.linked.above ranked registered reaches).1
      rw [← not_or]
      intro inWalk
      exact induction.2 (installation.closed middle middleRegistered last step inWalk)

theorem compute_other (installation : Installation registry name id supers order installed)
    (settled : Settled registry) {values : Id → Derived}
    (kept : ∀ other, other ≠ id → other ∉ order → values other = registry.derived other)
    {other : Id} (registered : installed.Registered other) (apart : other ≠ id)
    (outside : other ∉ order) :
    installed.compute values other = some (registry.derived other) := by
  obtain ⟨oldRegistered, notNamed⟩ :=
    installation.registered_other settled.linked registered apart
  obtain ⟨found, slots, initargs⟩ :=
    compute_eq_some.mp (settled.current other oldRegistered)
  have above {member : Id} (inside : member ∈ (registry.derived other).cpl) :=
    settled.above oldRegistered inside
  have away {member : Id} (inside : member ∈ (registry.derived other).cpl) :=
    installation.above_outside settled oldRegistered apart outside (above inside)
  rw [compute_eq_some]
  refine ⟨?_, ?_, ?_⟩
  · rw [← found]
    apply cplOf_congr (installation.supers_other apart)
    intro super direct
    obtain ⟨superApart, superOutside⟩ :=
      installation.above_outside settled oldRegistered apart outside (.single direct)
    exact kept super superApart superOutside
  · rw [slots]
    symm
    apply slotsOf_congr
    · intro member inside
      exact installation.field Metaobject.directSlots (fun _ => rfl) (away inside).1
    · apply metaclassP_update installation.findClass
      · exact Or.inr fun inside => (away inside).1 rfl
      · intro old oldFound different inside
        exact installation.above_not_gone settled oldRegistered notNamed (above inside)
          different oldFound
  · rw [initargs]
    symm
    apply defaultInitargsOf_congr
    intro member inside
    exact installation.field Metaobject.directDefaultInitargs (fun _ => rfl) (away inside).1

end Installation

def ParentsFirst (registry : Registry) (definition : Definition) : Prop :=
  ∀ old ∈ registry.findClass definition.name, ∀ order ∈ registry.walk old,
    order.Pairwise fun first second => second ∉ registry.supers first

section Define

variable {registry after : Registry} {definition : Definition}

theorem Updated.derived_other {supers : List Id} {id other : Id} {updated : Registry}
    (update : Updated registry definition supers id updated) (apart : other ≠ id) :
    updated.derived other = registry.derived other := by
  have same := congrArg Metaobject.derived (update.others other apart)
  exact same

/-- The class itself is finalized before it is in the class table; its name makes no
difference to its values. -/
theorem refresh_installed {supers order : List Id} {id : Id} {updated installed : Registry}
    (settled : Settled registry) (update : Updated registry definition supers id updated)
    (install : Installed updated id definition.name supers installed)
    (installation : Installation registry definition.name id supers order installed) :
    refresh installed.compute updated.derived id = some installed.derived := by
  obtain ⟨value, computed, same⟩ := Option.map_eq_some_iff.mp install.finalized
  obtain ⟨found, slots, initargs⟩ := compute_eq_some.mp computed
  have recomputed : installed.compute updated.derived id = some value := by
    rw [compute_eq_some]
    refine ⟨?_, ?_, ?_⟩
    · rw [← found]
      exact cplOf_congr (install.data.field Metaobject.directSuperclasses (fun _ => rfl) id)
        (fun _ _ => rfl)
    · rw [slots]
      symm
      apply slotsOf_congr
      · exact fun member _ => install.data.field Metaobject.directSlots (fun _ => rfl) member
      · apply metaclassP_update install.findClass (Or.inl rfl)
        intro old oldFound different inside
        rw [update.findClass] at oldFound
        rcases mem_cplOf found inside with rfl | ⟨super, direct, isSuper⟩
        · exact different rfl
        · rw [update.superclasses] at direct
          obtain ⟨superApart, _, notNamed⟩ := installation.apart super direct
          rcases isSuper with rfl | inSuper
          · exact notNamed oldFound
          · rw [update.derived_other superApart] at inSuper
            have superRegistered := installation.registeredSupers super direct
            exact installation.above_not_gone settled superRegistered notNamed
              (settled.above superRegistered inSuper) different oldFound
    · rw [initargs]
      symm
      apply defaultInitargsOf_congr
      exact fun member _ =>
        install.data.field Metaobject.directDefaultInitargs (fun _ => rfl) member
  unfold refresh
  rw [recomputed]
  exact congrArg some same

/-- A definition whose walk visits parents first keeps all values up to date. -/
theorem Settled.ensureClass (settled : Settled registry) (acyclic : Acyclic registry definition)
    (keeps : Keeps registry definition) (parentsFirst : ParentsFirst registry definition)
    (defines : registry.ensureClass definition = some after) : Settled after := by
  obtain ⟨supers, id, order, updated, installed, _, update, install, installation, walks,
    refinalizes, origin⟩ := ensureClass_installs settled.linked acyclic keeps defines
  have linkedInstalled := installation.linked_installed settled.linked
  rw [refinalizeSubclasses_eq walks] at refinalizes
  obtain ⟨frame, later⟩ := foldlM_refreshClass refinalizes
  have run : (id :: order).foldlM (refresh installed.compute) updated.derived =
      some after.derived := by
    rw [List.foldlM_cons, refresh_installed settled update install installation]
    exact later
  have nodup : (id :: order).Nodup := by
    refine List.nodup_cons.mpr ⟨fun inOrder => ?_, walk_nodup walks⟩
    exact (installation.members id inOrder).2.1 rfl
  have ordered : (id :: order).Pairwise fun first second =>
      second ∉ installed.supers first := by
    rw [List.pairwise_cons]
    constructor
    · intro second inOrder above
      rw [installation.superclasses] at above
      exact (installation.apart second above).2.1 inOrder
    · have before : order.Pairwise fun first second => second ∉ registry.supers first := by
        rcases origin with rfl | ⟨found, oldWalks⟩
        · exact List.Pairwise.nil
        · exact parentsFirst id found order oldWalks
      apply before.imp_of_mem
      intro first second inOrder _ free
      rw [installation.supers_other (installation.members first inOrder).2.1]
      exact free
  have registeredWalk : ∀ node ∈ id :: order, installed.Registered node := by
    intro node member
    rcases List.mem_cons.mp member with rfl | inOrder
    · exact (installation.registered_iff settled.linked).mpr (Or.inl rfl)
    · exact installation.registered_member settled.linked inOrder
  obtain ⟨rank, ranked⟩ := linkedInstalled.acyclic
  have loopless : ∀ node ∈ id :: order, node ∉ installed.supers node :=
    fun node member above =>
      Nat.lt_irrefl _ (ranked node (registeredWalk node member) node above)
  have current := foldlM_refresh_current installed.compute_dependsOn nodup ordered loopless run
  have kept : ∀ other, other ≠ id → other ∉ order →
      after.derived other = registry.derived other := by
    intro other apart outside
    rw [foldlM_refresh_other run (by simp [apart, outside])]
    exact update.derived_other apart
  refine ⟨linkedInstalled.congr frame, ?_⟩
  intro other registered
  have installedRegistered : installed.Registered other := by
    obtain ⟨name, found⟩ := registered
    exact ⟨name, frame.findClass ▸ found⟩
  rw [frame.compute]
  by_cases member : other ∈ id :: order
  · exact current other member
  · rw [List.mem_cons, not_or] at member
    rw [kept other member.1 member.2]
    exact installation.compute_other settled kept installedRegistered member.1 member.2

end Define

/-- Make `id` the first direct subclass of `super`. -/
def pushSubclass (id : Id) (registry : Registry) (super : Id) : Registry :=
  registry.modify super fun metaobject =>
    { metaobject with directSubclasses := id :: metaobject.directSubclasses }

section Bootstrap

theorem foldl_pushSubclass_sameButLinks (id : Id) (supers : List Id) (registry : Registry) :
    SameButLinks registry (supers.foldl (pushSubclass id) registry) := by
  induction supers generalizing registry with
  | nil => exact .refl registry
  | cons super later induction =>
      exact (registry.modify_sameButLinks super (id :: ·)).trans (induction _)

theorem mem_foldl_pushSubclass (id : Id) (supers : List Id) (registry : Registry) (other sub : Id) :
    sub ∈ (supers.foldl (pushSubclass id) registry).subs other ↔
      sub ∈ registry.subs other ∨ (sub = id ∧ other ∈ supers) := by
  induction supers generalizing registry with
  | nil => simp
  | cons super later induction =>
      have pushed : sub ∈ (pushSubclass id registry super).subs other ↔
          sub ∈ registry.subs other ∨ (sub = id ∧ other = super) := by
        unfold pushSubclass subs
        by_cases same : other = super
        · subst same
          rw [modify_object_self, List.mem_cons]
          tauto
        · rw [modify_object_other _ _ same]
          tauto
      rw [List.foldl_cons, induction, pushed, List.mem_cons]
      tauto

variable {registry after : Registry} {name : Name} {supers : List Id}

theorem makeBootstrapClass_installs (linked : Linked registry)
    (fresh : registry.findClass name = none)
    (registered : ∀ super ∈ supers, registry.Registered super)
    (makes : registry.makeBootstrapClass name supers = some after) :
    ∃ cpl, Installation registry name registry.count supers [] after ∧
      (∀ other, other ≠ registry.count → after.derived other = registry.derived other) ∧
      after.derived registry.count = ⟨cpl, [], []⟩ ∧
      after.cplOf after.derived registry.count = some cpl ∧
      (after.object registry.count).directSlots = [] ∧
      (after.object registry.count).directDefaultInitargs = [] := by
  simp only [makeBootstrapClass, Option.bind_eq_bind, Option.bind_eq_some_iff,
    Option.some.injEq] at makes
  obtain ⟨cpl, computed, made⟩ := makes
  generalize allocation : (registry.allocate
    { name := name, directSuperclasses := supers, finalizedP := true }).setFindClass name
      registry.count = allocated at computed made
  have self : allocated.object registry.count =
      { name := name, directSuperclasses := supers, finalizedP := true } := by
    rw [← allocation]
    exact allocate_object_self ..
  have rest {other : Id} (apart : other ≠ registry.count) :
      allocated.object other = registry.object other := by
    rw [← allocation]
    exact allocate_object_other _ _ apart
  generalize storing : (allocated.modify registry.count fun metaobject =>
    { metaobject with cpl := cpl }) = stored at made
  have storedSelf : stored.object registry.count =
      { name := name, directSuperclasses := supers, cpl := cpl, finalizedP := true } := by
    rw [← storing, modify_object_self, self]
  have storedRest {other : Id} (apart : other ≠ registry.count) :
      stored.object other = registry.object other := by
    rw [← storing, modify_object_other _ _ apart, rest apart]
  have links : SameButLinks stored after :=
    made ▸ foldl_pushSubclass_sameButLinks registry.count supers stored
  have mem_subs (super sub : Id) : sub ∈ after.subs super ↔
      sub ∈ stored.subs super ∨ (sub = registry.count ∧ super ∈ supers) :=
    made ▸ mem_foldl_pushSubclass registry.count supers stored super sub
  have storedSubs : stored.subs = registry.subs := by
    funext other
    unfold subs
    by_cases same : other = registry.count
    · rw [same, storedSelf]
      exact (linked.blank registry.count (Nat.le_refl _)).symm
    · rw [storedRest same]
  have findClass : after.findClass =
      Function.update registry.findClass name (some registry.count) := by
    rw [links.findClass, ← storing, ← allocation]
    rfl
  have count : after.count = registry.count + 1 := by
    rw [links.count, ← storing, ← allocation]
    rfl
  have notNew {super : Id} (member : super ∈ supers) : super ≠ registry.count :=
    Nat.ne_of_lt (linked.inside super (registered super member))
  have derivedRest (other : Id) (apart : other ≠ registry.count) :
      after.derived other = registry.derived other := by
    unfold derived
    rw [links.field Metaobject.derived (fun _ => rfl) other, storedRest apart]
  refine ⟨cpl, ?_, derivedRest, ?_, ?_, ?_, ?_⟩
  · refine ⟨findClass, ?_, ?_, Or.inr rfl, ?_, ?_, ?_, ?_, ?_, registered, ?_, by simp, ?_⟩
    · rw [count]
      exact Nat.le_succ _
    · rw [count]
      exact Nat.lt_succ_self _
    · rw [links.field Metaobject.name (fun _ => rfl), storedSelf]
    · unfold Registry.supers
      rw [links.field Metaobject.directSuperclasses (fun _ => rfl), storedSelf]
    · intro other apart
      have same := congrArg Metaobject.frame (links.object other)
      rw [storedRest apart] at same
      exact same
    · intro super sub
      rw [mem_subs, storedSubs, fresh]
      simp
    · intro old found
      rw [fresh] at found
      cases found
    · intro super member
      exact ⟨notNew member, by simp, by simp [fresh]⟩
    · intro sub subRegistered super above inWalk
      rcases inWalk with same | inOrder
      · have superRegistered := linked.supers sub subRegistered super above
        exact absurd (linked.inside super superRegistered)
          (Nat.not_lt_of_le (Nat.le_of_eq same.symm))
      · cases inOrder
  · unfold derived
    rw [links.field Metaobject.derived (fun _ => rfl), storedSelf]
    rfl
  · have direct : after.supers registry.count = supers := by
      unfold Registry.supers
      rw [links.field Metaobject.directSuperclasses (fun _ => rfl), storedSelf]
    rw [← computed]
    have allocatedSupers : allocated.supers registry.count = supers := by
      unfold Registry.supers
      rw [self]
    change _ = allocated.cplOf allocated.derived registry.count
    apply cplOf_congr (direct.trans allocatedSupers.symm)
    intro super above
    rw [allocatedSupers] at above
    rw [derivedRest super (notNew above)]
    unfold derived
    rw [rest (notNew above)]
  · rw [links.field Metaobject.directSlots (fun _ => rfl), storedSelf]
  · rw [links.field Metaobject.directDefaultInitargs (fun _ => rfl), storedSelf]

/-- The superclasses of a bootstrap class, and theirs, have no direct slots. -/
def Slotless (registry : Registry) (supers : List Id) : Prop :=
  ∀ super ∈ supers, ∀ parent ∈ (registry.object super).cpl,
    (registry.object parent).directSlots = [] ∧
      (registry.object parent).directDefaultInitargs = []

theorem Settled.makeBootstrapClass (settled : Settled registry)
    (fresh : registry.findClass name = none)
    (registered : ∀ super ∈ supers, registry.Registered super)
    (slotless : Slotless registry supers)
    (makes : registry.makeBootstrapClass name supers = some after) : Settled after := by
  obtain ⟨cpl, installation, derivedRest, derivedSelf, found, noSlots, noInitargs⟩ :=
    makeBootstrapClass_installs settled.linked fresh registered makes
  refine ⟨installation.linked_installed settled.linked, ?_⟩
  intro other otherRegistered
  by_cases same : other = registry.count
  · subst same
    have empty : ∀ member ∈ cpl, (after.object member).directSlots = [] ∧
        (after.object member).directDefaultInitargs = [] := by
      intro member inside
      by_cases new : member = registry.count
      · exact new ▸ ⟨noSlots, noInitargs⟩
      · rw [installation.field Metaobject.directSlots (fun _ => rfl) new,
          installation.field Metaobject.directDefaultInitargs (fun _ => rfl) new]
        obtain ⟨super, direct, isSuper⟩ := (mem_cplOf found inside).resolve_left new
        rw [installation.superclasses] at direct
        have superNotNew := (installation.apart super direct).1
        rcases isSuper with rfl | inSuper
        · obtain ⟨rest, same, _⟩ := settled.cpl_eq (registered member direct)
          exact slotless member direct member (by simp [same])
        · rw [derivedRest super superNotNew] at inSuper
          exact slotless super direct member inSuper
    rw [compute_eq_some, derivedSelf]
    refine ⟨found, ?_, ?_⟩
    · have none : cpl.flatMap (fun parent => (after.object parent).directSlots) = [] :=
        List.flatMap_eq_nil_iff.mpr fun member inside => (empty member inside).1
      unfold slotsOf
      rw [none]
      rfl
    · have none : cpl.flatMap (fun parent => (after.object parent).directDefaultInitargs) = [] :=
        List.flatMap_eq_nil_iff.mpr fun member inside => (empty member inside).2
      unfold defaultInitargsOf
      rw [none]
      rfl
  · rw [derivedRest other same]
    exact installation.compute_other settled (fun other apart _ => derivedRest other apart)
      otherRegistered same (by simp)

end Bootstrap

inductive History (admits : Registry → Definition → Prop) : Registry → Prop
  | empty : History admits Registry.empty
  | bootstrap {registry after : Registry} {name : Name} {supers : List Id}
      (history : History admits registry) (fresh : registry.findClass name = none)
      (registered : ∀ super ∈ supers, registry.Registered super)
      (slotless : Slotless registry supers)
      (makes : registry.makeBootstrapClass name supers = some after) : History admits after
  | define {registry after : Registry} {definition : Definition}
      (history : History admits registry) (admitted : admits registry definition)
      (defines : registry.ensureClass definition = some after) : History admits after

/-- What makes a redefinition safe: the class graph stays acyclic, a class with
subclasses is updated in place, and the walk visits parents first. -/
def Orderly (registry : Registry) (definition : Definition) : Prop :=
  Acyclic registry definition ∧ Keeps registry definition ∧ ParentsFirst registry definition

theorem History.settled {registry : Registry} (history : History Orderly registry) :
    Settled registry := by
  induction history with
  | empty =>
      refine ⟨Linked.empty, fun id registered => ?_⟩
      obtain ⟨_, found⟩ := registered
      cases found
  | bootstrap _ fresh registered slotless makes settled =>
      exact settled.makeBootstrapClass fresh registered slotless makes
  | define _ orderly defines settled =>
      obtain ⟨acyclic, keeps, parentsFirst⟩ := orderly
      exact settled.ensureClass acyclic keeps parentsFirst defines

/-- Along every run of orderly definitions the class graph is consistent. -/
theorem orderly_history_consistent {registry : Registry}
    (history : History Orderly registry) : Consistent registry :=
  history.settled.consistent

instance (registry : Registry) (definition : Definition) :
    Decidable (Acyclic registry definition) :=
  inferInstanceAs (Decidable (∀ old ∈ registry.findClass definition.name,
    ∀ order ∈ registry.walk old, ∀ supers ∈ registry.supersOf definition,
      old ∉ supers ∧ ∀ super ∈ supers, super ∉ order))

instance (registry : Registry) (definition : Definition) :
    Decidable (Orderly registry definition) :=
  inferInstanceAs (Decidable (Acyclic registry definition ∧
    (∀ old ∈ registry.findClass definition.name,
      (registry.object old).structType = definition.metaclass ∨ registry.subs old = []) ∧
    ∀ old ∈ registry.findClass definition.name, ∀ order ∈ registry.walk old,
      order.Pairwise fun first second => second ∉ registry.supers first))

def defineIf (admits : Registry → Definition → Prop) [∀ r d, Decidable (admits r d)]
    (registry : Registry) (definition : Definition) : Option Registry :=
  if admits registry definition then registry.ensureClass definition else none

section

variable {admits : Registry → Definition → Prop} [∀ r d, Decidable (admits r d)]

theorem History.foldlM_defineIf {definitions : List Definition} {registry after : Registry}
    (history : History admits registry)
    (run : definitions.foldlM (defineIf admits) registry = some after) :
    History admits after := by
  induction definitions generalizing registry with
  | nil =>
      cases run
      exact history
  | cons definition later induction =>
      rw [List.foldlM_cons, Option.bind_eq_bind, Option.bind_eq_some_iff] at run
      obtain ⟨middle, first, rest⟩ := run
      rw [defineIf, Option.ite_none_right_eq_some] at first
      exact induction (.define history first.1 first.2) rest

def bootstrapIf (registry : Registry) (entry : Name × List Id) : Option Registry :=
  if registry.findClass entry.1 = none ∧
      (∀ super ∈ entry.2, registry.findClass (registry.object super).name = some super) ∧
      (∀ super ∈ entry.2, ∀ parent ∈ (registry.object super).cpl,
        (registry.object parent).directSlots = [] ∧
          (registry.object parent).directDefaultInitargs = []) then
    registry.makeBootstrapClass entry.1 entry.2
  else none

def runFrom (admits : Registry → Definition → Prop) [∀ r d, Decidable (admits r d)]
    (definitions : List Definition) : Option Registry := do
  let registry ← [("T", []), ("STANDARD-OBJECT", [0]), ("CLASS", [1]),
    ("STANDARD-CLASS", [2])].foldlM bootstrapIf Registry.empty
  definitions.foldlM (defineIf admits) registry

omit [∀ r d, Decidable (admits r d)] in
theorem History.foldlM_bootstrapIf {entries : List (Name × List Id)}
    {registry after : Registry} (history : History admits registry)
    (run : entries.foldlM bootstrapIf registry = some after) : History admits after := by
  induction entries generalizing registry with
  | nil =>
      cases run
      exact history
  | cons entry later induction =>
      rw [List.foldlM_cons, Option.bind_eq_bind, Option.bind_eq_some_iff] at run
      obtain ⟨middle, first, rest⟩ := run
      rw [bootstrapIf, Option.ite_none_right_eq_some] at first
      obtain ⟨⟨fresh, registered, slotless⟩, makes⟩ := first
      exact induction (.bootstrap history fresh
        (fun super member => ⟨_, registered super member⟩) slotless makes) rest

theorem history_runFrom {definitions : List Definition} {after : Registry}
    (run : runFrom admits definitions = some after) : History admits after := by
  unfold runFrom at run
  rw [Option.bind_eq_bind, Option.bind_eq_some_iff] at run
  obtain ⟨registry, bootstraps, run⟩ := run
  exact (History.empty.foldlM_bootstrapIf bootstraps).foldlM_defineIf run

end

/-- `A` is below `X`, `B` and `C` are below `A`, and `D` is below both. -/
def diamond : List Definition :=
  [{ name := "X" }, { name := "A", directSuperNames := ["X"] },
    { name := "B", directSuperNames := ["A"] }, { name := "C", directSuperNames := ["A"] },
    { name := "D", directSuperNames := ["B", "C"] }]

/-- A side of the diamond gets a slot. -/
theorem orderly_history_consistent_side : ∃ registry,
    runFrom Orderly (diamond ++ [{ name := "B", directSuperNames := ["A"]
                                   directSlots := [{ name := "P" }] }]) = some registry ∧
      Consistent registry := by
  obtain ⟨registry, run⟩ := Option.isSome_iff_exists.mp
    (show (runFrom Orderly (diamond ++ [{ name := "B", directSuperNames := ["A"]
                                          directSlots := [{ name := "P" }] }])).isSome = true
      by decide +kernel)
  exact ⟨registry, run, orderly_history_consistent (history_runFrom run)⟩

theorem view_eq {View : Type} (view : Registry → View) (seen : View)
    {run : Option Registry} {registry : Registry} (ends : run = some registry)
    (evaluated : run.map view = some seen) : view registry = seen := by
  rw [ends] at evaluated
  exact Option.some.inj evaluated

/-- The top of the diamond is redefined without `X`.  The bottom is finalized again
before one of the sides, and `X` stays in its precedence list. -/
theorem diamond_top_inconsistent : ∃ registry,
    runFrom Acyclic (diamond ++ [{ name := "A" }]) = some registry ∧
      History Acyclic registry ∧ (registry.object 8).name = "D" ∧
      (registry.object 8).cpl = [8, 6, 7, 5, 4, 1, 0] ∧ ¬ Consistent registry := by
  obtain ⟨registry, run⟩ := Option.isSome_iff_exists.mp
    (show (runFrom Acyclic (diamond ++ [{ name := "A" }])).isSome = true by decide +kernel)
  have bottom := view_eq (fun registry => registry.findClass "D") (some 8) run
    (by decide +kernel)
  have stale := view_eq (fun registry => (registry.object 8).cpl) [8, 6, 7, 5, 4, 1, 0] run
    (by decide +kernel)
  have fresh := view_eq (fun registry => c3Merge ((registry.supers 8).map
    (fun super => (registry.object super).cpl) ++ [registry.supers 8]))
    (some [6, 7, 5, 1, 0]) run (by decide +kernel)
  refine ⟨registry, run, history_runFrom run,
    view_eq (fun registry => (registry.object 8).name) _ run (by decide +kernel), stale, ?_⟩
  intro consistent
  obtain ⟨rest, cpl, merged⟩ := (consistent 8 ⟨"D", bottom⟩).1
  rw [stale] at cpl
  rw [fresh] at merged
  cases merged
  cases cpl

/-- `S` is below `O`, which is below `P`.  A definition of `O` with another metaclass
replaces it, and then `P` gets a slot. -/
def replacedParent : List Definition :=
  [{ name := "M", directSuperNames := ["STANDARD-CLASS"] }, { name := "P" },
    { name := "O", directSuperNames := ["P"] }, { name := "S", directSuperNames := ["O"] },
    { name := "O", directSuperNames := ["P"], metaclass := "M" },
    { name := "P", directSlots := [{ name := "Q" }] }]

/-- The class that is replaced is no longer linked from its superclass, and the slot
does not come to `S`. -/
theorem replaced_parent_inconsistent : ∃ registry,
    runFrom Acyclic replacedParent = some registry ∧ History Acyclic registry ∧
      ¬ Consistent registry := by
  obtain ⟨registry, run⟩ := Option.isSome_iff_exists.mp
    (show (runFrom Acyclic replacedParent).isSome = true by decide +kernel)
  have below := view_eq (fun registry => registry.findClass "S") (some 7) run
    (by decide +kernel)
  have stale := view_eq (fun registry => decide ((registry.object 7).effectiveSlots =
    registry.slotsOf 7 (registry.object 7).cpl)) false run (by decide +kernel)
  refine ⟨registry, run, history_runFrom run, fun consistent => ?_⟩
  exact of_decide_eq_false stale (consistent 7 ⟨"S", below⟩).2

end ClAmiga.Clos.Registry
