import ClAmiga.Clos.Redefine
import Mathlib.Algebra.Order.BigOperators.Group.List
import Mathlib.Algebra.Order.Group.Nat

/-!
# The class graph between a definition and its walk

A definition installs one class: it gets the name and new links up, and the classes
below it, which the walk visits, keep theirs.  The registered classes still form a
finite acyclic graph.
-/

namespace ClAmiga.Clos.Registry

open ClAmiga.Graph

/-- `installed` is `registry` after the class `id` got the name `name` and the direct
superclasses `supers`; `order` is the walk from it. -/
structure Installation (registry : Registry) (name : Name) (id : Id) (supers order : List Id)
    (installed : Registry) : Prop where
  findClass : installed.findClass = Function.update registry.findClass name (some id)
  count : registry.count ≤ installed.count
  bound : id < installed.count
  place : registry.findClass name = some id ∨ id = registry.count
  named : (installed.object id).name = name
  superclasses : installed.supers id = supers
  others : ∀ other, other ≠ id →
    { (installed.object other).frame with directSubclasses := [] } =
      { (registry.object other).frame with directSubclasses := [] }
  mem_subs : ∀ super sub, sub ∈ installed.subs super ↔
    (sub ∈ registry.subs super ∧
      ¬ (registry.findClass name = some sub ∧ super ∈ registry.supers sub)) ∨
    (sub = id ∧ super ∈ supers)
  gone : ∀ old, registry.findClass name = some old → old ≠ id → registry.subs old = []
  registeredSupers : ∀ super ∈ supers, registry.Registered super
  apart : ∀ super ∈ supers,
    super ≠ id ∧ super ∉ order ∧ registry.findClass name ≠ some super
  members : ∀ member ∈ order,
    registry.Registered member ∧ member ≠ id ∧ registry.findClass name ≠ some member
  closed : ∀ sub, registry.Registered sub → ∀ super ∈ registry.supers sub,
    super = id ∨ super ∈ order → sub ∈ order

namespace Installation

variable {registry installed : Registry} {name : Name} {id : Id} {supers order : List Id}

theorem field {Field : Type} (installation : Installation registry name id supers order installed)
    (field : Metaobject → Field)
    (kept : ∀ metaobject : Metaobject,
      field { metaobject.frame with directSubclasses := [] } = field metaobject)
    {other : Id} (apart : other ≠ id) :
    field (installed.object other) = field (registry.object other) := by
  rw [← kept, installation.others other apart, kept]

theorem supers_other (installation : Installation registry name id supers order installed)
    {other : Id} (apart : other ≠ id) : installed.supers other = registry.supers other :=
  installation.field Metaobject.directSuperclasses (fun _ => rfl) apart

section Registered

variable (installation : Installation registry name id supers order installed)
  (linked : Linked registry)

include installation linked

theorem reused_of_registered (registered : registry.Registered id) :
    registry.findClass name = some id := by
  rcases installation.place with found | fresh
  · exact found
  · exact absurd (linked.inside id registered) (Nat.not_lt_of_le (Nat.le_of_eq fresh.symm))

theorem registered_iff {other : Id} : installed.Registered other ↔
    other = id ∨ (registry.Registered other ∧ registry.findClass name ≠ some other) := by
  unfold Registered
  rw [installation.findClass]
  constructor
  · rintro ⟨otherName, found⟩
    by_cases same : otherName = name
    · subst same
      rw [Function.update_self, Option.some.injEq] at found
      exact Or.inl found.symm
    · rw [Function.update_of_ne same] at found
      refine Or.inr ⟨⟨otherName, found⟩, fun foundToo => same ?_⟩
      rw [← linked.named otherName other found, linked.named name other foundToo]
  · rintro (rfl | ⟨⟨otherName, found⟩, notNamed⟩)
    · exact ⟨name, Function.update_self ..⟩
    · have different : otherName ≠ name := fun same => notNamed (same ▸ found)
      exact ⟨otherName, by rw [Function.update_of_ne different, found]⟩

theorem registered_other {other : Id} (registered : installed.Registered other)
    (apart : other ≠ id) :
    registry.Registered other ∧ registry.findClass name ≠ some other :=
  ((installation.registered_iff linked).mp registered).resolve_left apart

theorem registered_member {member : Id} (inOrder : member ∈ order) :
    installed.Registered member := by
  obtain ⟨registered, _, notNamed⟩ := installation.members member inOrder
  exact (installation.registered_iff linked).mpr (Or.inr ⟨registered, notNamed⟩)

theorem super_not_gone {sub super : Id} (registered : registry.Registered sub)
    (above : super ∈ registry.supers sub) (apart : super ≠ id) :
    registry.findClass name ≠ some super := by
  intro found
  have noSubs := installation.gone super found apart
  have follows := linked.linked sub registered super above
  rw [noSubs] at follows
  cases follows

theorem old_link {super sub : Id} (registered : installed.Registered super)
    (follows : sub ∈ registry.subs super)
    (kept : ¬ (registry.findClass name = some sub ∧ super ∈ registry.supers sub)) :
    registry.Registered sub ∧ registry.findClass name ≠ some sub ∧ sub ≠ id ∧
      super ∈ registry.supers sub := by
  have superRegistered : registry.Registered super := by
    by_cases same : super = id
    · subst same
      rcases installation.place with found | fresh
      · exact ⟨name, found⟩
      · rw [linked.blank super (Nat.le_of_eq fresh.symm)] at follows
        cases follows
    · exact (installation.registered_other linked registered same).1
  obtain ⟨subRegistered, above⟩ := linked.backed super superRegistered sub follows
  have notNamed : registry.findClass name ≠ some sub := fun found => kept ⟨found, above⟩
  refine ⟨subRegistered, notNamed, ?_, above⟩
  rintro rfl
  exact notNamed (installation.reused_of_registered linked subRegistered)

theorem acyclic : ∃ rank : Id → Nat, ∀ sub, installed.Registered sub →
    ∀ super ∈ installed.supers sub, rank super < rank sub := by
  obtain ⟨rank, ranked⟩ := linked.acyclic
  let bound := (supers.map rank).sum + 1
  refine ⟨fun sub => if sub = id ∨ sub ∈ order then rank sub + bound else rank sub, ?_⟩
  intro sub registered super above
  dsimp only
  by_cases same : sub = id
  · -- The direct superclasses of the class are not in the walk.
    subst same
    rw [installation.superclasses] at above
    obtain ⟨notSelf, outside, _⟩ := installation.apart super above
    rw [if_neg (not_or.mpr ⟨notSelf, outside⟩), if_pos (Or.inl rfl)]
    have le : rank super ≤ (supers.map rank).sum :=
      List.single_le_sum (fun _ _ => Nat.zero_le _) _ (List.mem_map_of_mem above)
    omega
  · rw [installation.supers_other same] at above
    obtain ⟨subRegistered, _⟩ := installation.registered_other linked registered same
    have less := ranked sub subRegistered super above
    by_cases inWalk : super = id ∨ super ∈ order
    · have subIn := installation.closed sub subRegistered super above inWalk
      rw [if_pos inWalk, if_pos (Or.inr subIn)]
      omega
    · rw [if_neg inWalk]
      split <;> omega

theorem linked_installed : Linked installed where
  inside := by
    intro other registered
    by_cases same : other = id
    · exact same ▸ installation.bound
    · have below := linked.inside other (installation.registered_other linked registered same).1
      exact Nat.lt_of_lt_of_le below installation.count
  blank := by
    intro other above
    rw [List.eq_nil_iff_forall_not_mem]
    intro sub follows
    have count := installation.count
    rcases (installation.mem_subs other sub).mp follows with ⟨old, _⟩ | ⟨_, isSuper⟩
    · rw [linked.blank other (Nat.le_trans count above)] at old
      cases old
    · exact absurd (linked.inside other (installation.registeredSupers other isSuper))
        (Nat.not_lt_of_le (Nat.le_trans count above))
  named := by
    intro otherName other found
    rw [installation.findClass] at found
    by_cases same : otherName = name
    · subst same
      rw [Function.update_self, Option.some.injEq] at found
      exact found ▸ installation.named
    · rw [Function.update_of_ne same] at found
      have apart : other ≠ id := by
        rintro rfl
        have reused := installation.reused_of_registered linked ⟨otherName, found⟩
        apply same
        rw [← linked.named otherName other found, linked.named name other reused]
      rw [installation.field Metaobject.name (fun _ => rfl) apart]
      exact linked.named otherName other found
  supers := by
    intro sub registered super above
    by_cases same : sub = id
    · subst same
      rw [installation.superclasses] at above
      exact (installation.registered_iff linked).mpr
        (Or.inr ⟨installation.registeredSupers super above, (installation.apart super above).2.2⟩)
    · rw [installation.supers_other same] at above
      obtain ⟨subRegistered, _⟩ := installation.registered_other linked registered same
      rw [installation.registered_iff linked]
      by_cases superSame : super = id
      · exact Or.inl superSame
      · exact Or.inr ⟨linked.supers sub subRegistered super above,
          installation.super_not_gone linked subRegistered above superSame⟩
  linked := by
    intro sub registered super above
    rw [installation.mem_subs]
    by_cases same : sub = id
    · subst same
      rw [installation.superclasses] at above
      exact Or.inr ⟨rfl, above⟩
    · rw [installation.supers_other same] at above
      obtain ⟨subRegistered, notNamed⟩ := installation.registered_other linked registered same
      exact Or.inl ⟨linked.linked sub subRegistered super above, fun both => notNamed both.1⟩
  backed := by
    intro super registered sub follows
    rcases (installation.mem_subs super sub).mp follows with ⟨old, kept⟩ | ⟨rfl, isSuper⟩
    · obtain ⟨subRegistered, notNamed, apart, above⟩ :=
        installation.old_link linked registered old kept
      refine ⟨(installation.registered_iff linked).mpr (Or.inr ⟨subRegistered, notNamed⟩), ?_⟩
      rw [installation.supers_other apart]
      exact above
    · refine ⟨(installation.registered_iff linked).mpr (Or.inl rfl), ?_⟩
      rw [installation.superclasses]
      exact isSuper
  acyclic := installation.acyclic linked

end Registered

end Installation

/-- A definition keeps the class graph acyclic: neither the class that has the name nor
one below it is to be a direct superclass. -/
def Acyclic (registry : Registry) (definition : Definition) : Prop :=
  ∀ old ∈ registry.findClass definition.name, ∀ order ∈ registry.walk old,
    ∀ supers ∈ registry.supersOf definition,
      old ∉ supers ∧ ∀ super ∈ supers, super ∉ order

def Keeps (registry : Registry) (definition : Definition) : Prop :=
  ∀ old ∈ registry.findClass definition.name,
    (registry.object old).structType = definition.metaclass ∨ registry.subs old = []

section

variable {registry : Registry} {definition : Definition} {supers : List Id}

theorem mapM_findClass_registered {names : List Name}
    (resolved : names.mapM registry.findClass = some supers) :
    ∀ super ∈ supers, registry.Registered super := by
  induction names generalizing supers with
  | nil =>
      cases resolved
      simp
  | cons name later induction =>
      simp only [List.mapM_cons, Option.bind_eq_bind, Option.pure_def,
        Option.bind_eq_some_iff, Option.some.injEq] at resolved
      obtain ⟨first, found, rest, restResolved, rfl⟩ := resolved
      intro super member
      rcases List.mem_cons.mp member with rfl | inRest
      · exact ⟨name, found⟩
      · exact induction restResolved super inRest

theorem supersOf_registered (resolved : registry.supersOf definition = some supers) :
    ∀ super ∈ supers, registry.Registered super := by
  unfold supersOf at resolved
  split at resolved
  · obtain ⟨object, found, rfl⟩ := Option.map_eq_some_iff.mp resolved
    intro super member
    rw [List.mem_singleton] at member
    exact ⟨_, member ▸ found⟩
  · exact mapM_findClass_registered resolved

theorem walk_congr {installed : Registry} {id : Id} {order : List Id}
    (count : installed.count = registry.count)
    (subs : ∀ node, node = id ∨ node ∈ order → installed.subs node = registry.subs node)
    (walks : registry.walk id = some order) : installed.walk id = some order := by
  have continues := visitAll_continues walks
  unfold walk at walks ⊢
  rw [count, subs id (Or.inl rfl), ← walks]
  apply visitAll_congr_of
  intro source follows visited
  apply visit_congr
  intro reached reaches
  apply subs
  right
  induction reaches with
  | refl => exact continues.covers source follows
  | tail _ step induction => exact continues.closed _ induction (by simp) _ step

theorem ensureClass_installs {after : Registry} (linked : Linked registry)
    (acyclic : Acyclic registry definition) (keeps : Keeps registry definition)
    (defines : registry.ensureClass definition = some after) :
    ∃ supers id order updated installed, registry.supersOf definition = some supers ∧
      Updated registry definition supers id updated ∧
      Installed updated id definition.name supers installed ∧
      Installation registry definition.name id supers order installed ∧
      installed.walk id = some order ∧ installed.refinalizeSubclasses id = some after ∧
      (order = [] ∨
        (registry.findClass definition.name = some id ∧ registry.walk id = some order)) := by
  obtain ⟨supers, id, updated, resolved, update, replaced, registers⟩ :=
    ensureClass_eq_some linked defines
  obtain ⟨installed, install, refinalizes⟩ :=
    finalizeAndRegisterClass_eq_some update.unfinalized registers
  have gone : ∀ old, registry.findClass definition.name = some old → old ≠ id →
      registry.subs old = [] := by
    intro old found apart
    exact (keeps old found).resolve_left (replaced old found apart)
  have data : ∀ other, other ≠ id →
      { (installed.object other).frame with directSubclasses := [] } =
        { (registry.object other).frame with directSubclasses := [] } := by
    intro other apart
    rw [install.data other]
    exact congrArg Metaobject.frame (update.others other apart)
  have mem_subs : ∀ super sub, sub ∈ installed.subs super ↔ (sub ∈ registry.subs super ∧
        ¬ (registry.findClass definition.name = some sub ∧ super ∈ registry.supers sub)) ∨
      (sub = id ∧ super ∈ supers) := by
    intro super sub
    rw [install.mem_subs, update.mem_subs]
  have superclasses : installed.supers id = supers := by
    rw [← update.superclasses]
    exact install.data.field Metaobject.directSuperclasses (fun _ => rfl) id
  have named : (installed.object id).name = definition.name := by
    rw [← update.name]
    exact install.data.field Metaobject.name (fun _ => rfl) id
  have findClass := install.findClass
  rw [update.findClass] at findClass
  have registeredSupers := supersOf_registered resolved
  rcases update.place with ⟨found, count⟩ | ⟨fresh, count⟩
  · -- The class that has the name is updated in place.
    have registered : registry.Registered id := ⟨_, found⟩
    obtain ⟨order, walks⟩ := Option.isSome_iff_exists.mp (linked.walk_isSome registered)
    obtain ⟨notSelf, outside⟩ := acyclic id found order walks supers resolved
    obtain ⟨rank, ranked⟩ := linked.acyclic
    have member {node : Id} (inOrder : node ∈ order) :=
      linked.walk_member registered walks ranked inOrder
    have sameCount : installed.count = registry.count := install.count.trans count
    have apart : ∀ super ∈ supers, super ≠ id ∧ super ∉ order ∧
        registry.findClass definition.name ≠ some super := by
      intro super above
      have different : super ≠ id := fun same => notSelf (same ▸ above)
      refine ⟨different, outside super above, ?_⟩
      rw [found, Ne, Option.some.injEq]
      exact different.symm
    have installation : Installation registry definition.name id supers order installed := by
      refine ⟨findClass, Nat.le_of_eq sameCount.symm, ?_, Or.inl found, named, superclasses,
        data, mem_subs, gone, registeredSupers, apart, ?_, ?_⟩
      · rw [sameCount]
        exact linked.inside id registered
      · intro node inOrder
        obtain ⟨nodeRegistered, above⟩ := member inOrder
        have different : node ≠ id := fun same => Nat.lt_irrefl _ (same ▸ above)
        refine ⟨nodeRegistered, different, ?_⟩
        rw [found, Ne, Option.some.injEq]
        exact different.symm
      · intro sub subRegistered super above inWalk
        exact linked.mem_walk walks subRegistered above inWalk
    have sameSubs : ∀ node, node = id ∨ node ∈ order →
        installed.subs node = registry.subs node := by
      intro node inWalk
      have notAbove : node ∉ registry.supers id := by
        intro above
        have less := ranked id registered node above
        rcases inWalk with rfl | inOrder
        · exact Nat.lt_irrefl _ less
        · exact Nat.lt_asymm less (member inOrder).2
      have notSuper : node ∉ supers := by
        intro above
        exact inWalk.elim (apart node above).1 (apart node above).2.1
      rw [install.subs node notSuper, update.subs node]
      intro old oldFound
      rw [found, Option.some.injEq] at oldFound
      exact oldFound ▸ notAbove
    exact ⟨supers, id, order, updated, installed, resolved, update, install, installation,
      walk_congr sameCount sameSubs walks, refinalizes, Or.inr ⟨found, walks⟩⟩
  · -- The class is new and has no subclasses.
    have outside {node : Id} (registered : registry.Registered node) : node ≠ id := by
      rintro rfl
      exact absurd (linked.inside node registered) (Nat.not_lt_of_le (Nat.le_of_eq fresh.symm))
    have newCount : installed.count = registry.count + 1 := install.count.trans count
    have noSubs : installed.subs id = [] := by
      rw [List.eq_nil_iff_forall_not_mem]
      intro sub follows
      rcases (mem_subs id sub).mp follows with ⟨old, _⟩ | ⟨_, isSuper⟩
      · rw [linked.blank id (Nat.le_of_eq fresh.symm)] at old
        cases old
      · exact outside (registeredSupers id isSuper) rfl
    have walks : installed.walk id = some [] := by
      unfold walk
      rw [noSubs]
      rfl
    refine ⟨supers, id, [], updated, installed, resolved, update, install, ?_, walks,
      refinalizes, Or.inl rfl⟩
    refine ⟨findClass, ?_, ?_, Or.inr fresh, named, superclasses, data, mem_subs, gone,
      registeredSupers, ?_, by simp, ?_⟩
    · rw [newCount]
      exact Nat.le_succ _
    · rw [newCount, fresh]
      exact Nat.lt_succ_self _
    · intro super above
      refine ⟨outside (registeredSupers super above), by simp, fun found => ?_⟩
      have superRegistered : registry.Registered super := ⟨_, found⟩
      obtain ⟨order, walks⟩ := Option.isSome_iff_exists.mp (linked.walk_isSome superRegistered)
      exact (acyclic super found order walks supers resolved).1 above
    · intro sub subRegistered super above inWalk
      rcases inWalk with same | inOrder
      · exact absurd same (outside (linked.supers sub subRegistered super above))
      · cases inOrder

end

end ClAmiga.Clos.Registry
