import ClAmiga.Clos.Links

/-!
# What a definition changes

Before the subclasses of a defined class are finalized again, the definition has
replaced the direct data of one class, moved its links and finalized it.
-/

namespace ClAmiga.Clos.Registry

open ClAmiga.Graph

/-- Registries that agree but for links down and what finalization writes. -/
def SameData (registry other : Registry) : Prop :=
  ∀ id, { (other.object id).frame with directSubclasses := [] } =
    { (registry.object id).frame with directSubclasses := [] }

theorem SameData.field {registry other : Registry} {Field : Type}
    (same : SameData registry other) (field : Metaobject → Field)
    (kept : ∀ metaobject : Metaobject,
      field { metaobject.frame with directSubclasses := [] } = field metaobject) (id : Id) :
    field (other.object id) = field (registry.object id) := by
  rw [← kept, same id, kept]

/-- The end of a definition: the class is finalized, registered and linked, before its
subclasses are finalized again. -/
structure Installed (updated : Registry) (id : Id) (name : Name) (supers : List Id)
    (installed : Registry) : Prop where
  findClass : installed.findClass = Function.update updated.findClass name (some id)
  count : installed.count = updated.count
  data : SameData updated installed
  finalized : refresh updated.compute updated.derived id = some installed.derived
  mem_subs : ∀ super sub, sub ∈ installed.subs super ↔
    sub ∈ updated.subs super ∨ (sub = id ∧ super ∈ supers)
  subs : ∀ super, super ∉ supers → installed.subs super = updated.subs super

theorem finalizeAndRegisterClass_eq_some {updated after : Registry} {id : Id} {name : Name}
    {supers : List Id} (unfinalized : (updated.object id).finalizedP = false)
    (registers : updated.finalizeAndRegisterClass id name supers = some after) :
    ∃ installed, Installed updated id name supers installed ∧
      installed.refinalizeSubclasses id = some after := by
  simp only [finalizeAndRegisterClass, Option.bind_eq_bind, Option.bind_eq_some_iff]
    at registers
  obtain ⟨finalized, finalizes, refinalizes⟩ := registers
  obtain ⟨frame, refreshed⟩ := finalizeInheritance_eq_some unfinalized finalizes
  have links := foldl_linkSubclass_sameButLinks id supers (finalized.setFindClass name id)
  refine ⟨_, ⟨?_, ?_, ?_, ?_, ?_, ?_⟩, refinalizes⟩
  · rw [links.findClass, setFindClass, frame.findClass]
  · exact links.count.trans frame.count
  · intro other
    have linked := congrArg Metaobject.frame (links.object other)
    have same := frame.object other
    exact linked.trans (congrArg (fun metaobject : Metaobject =>
      { metaobject with directSubclasses := [] }) same)
  · rw [refreshed]
    congr 1
    funext other
    exact (links.field Metaobject.derived (fun _ => rfl) other).symm
  · intro super sub
    rw [mem_foldl_linkSubclass]
    exact or_congr_left (by rw [← frame.subs]; exact Iff.rfl)
  · intro super outside
    rw [foldl_linkSubclass_other id supers _ outside, ← frame.subs]
    rfl

/-- The start of a definition: the direct data of `id` is new, its links up are gone
from its former direct superclasses, and it is not finalized. -/
structure Updated (registry : Registry) (definition : Definition) (supers : List Id)
    (id : Id) (updated : Registry) : Prop where
  findClass : updated.findClass = registry.findClass
  place : (registry.findClass definition.name = some id ∧ updated.count = registry.count) ∨
    (id = registry.count ∧ updated.count = registry.count + 1)
  unfinalized : (updated.object id).finalizedP = false
  superclasses : updated.supers id = supers
  name : (updated.object id).name = definition.name
  others : ∀ other, other ≠ id → { updated.object other with directSubclasses := [] } =
    { registry.object other with directSubclasses := [] }
  mem_subs : ∀ super sub, sub ∈ updated.subs super ↔ sub ∈ registry.subs super ∧
    ¬ (registry.findClass definition.name = some sub ∧ super ∈ registry.supers sub)
  subs : ∀ super, (∀ old, registry.findClass definition.name = some old →
    super ∉ registry.supers old) → updated.subs super = registry.subs super

/-- The registry after `%unlink-from-old-supers`, where there is an old class. -/
def unlinkOld (registry : Registry) (name : Name) : Registry :=
  match registry.findClass name with
  | some old => registry.unlinkFromOldSupers old
  | none => registry

/-- Unlinking takes the old class off its superclasses' lists of subclasses, and changes
nothing else. -/
theorem unlinkOld_spec (registry : Registry) (name : Name) :
    SameButLinks registry (registry.unlinkOld name) ∧
    (∀ super sub, sub ∈ (registry.unlinkOld name).subs super ↔ sub ∈ registry.subs super ∧
      ¬ (registry.findClass name = some sub ∧ super ∈ registry.supers sub)) ∧
    ∀ super, (∀ old, registry.findClass name = some old → super ∉ registry.supers old) →
      (registry.unlinkOld name).subs super = registry.subs super := by
  unfold unlinkOld
  cases found : registry.findClass name with
  | none => exact ⟨.refl registry, by simp, fun _ _ => rfl⟩
  | some old =>
      refine ⟨foldl_unlinkSubclass_sameButLinks old _ registry, ?_, ?_⟩
      · intro super sub
        dsimp only [unlinkFromOldSupers]
        rw [mem_foldl_unlinkSubclass, Option.some.injEq]
        apply and_congr_right
        intro _
        apply not_congr
        constructor
        · rintro ⟨rfl, above⟩
          exact ⟨rfl, above⟩
        · rintro ⟨rfl, above⟩
          exact ⟨rfl, above⟩
      · intro super outside
        exact foldl_unlinkSubclass_other old _ registry (outside old rfl)

theorem ensureClass_eq_some {registry after : Registry} {definition : Definition}
    (linked : Linked registry) (defines : registry.ensureClass definition = some after) :
    ∃ supers id updated, registry.supersOf definition = some supers ∧
      Updated registry definition supers id updated ∧
      (∀ old, registry.findClass definition.name = some old → old ≠ id →
        (registry.object old).structType ≠ definition.metaclass) ∧
      updated.finalizeAndRegisterClass id definition.name supers = some after := by
  simp only [ensureClass, Option.bind_eq_bind, Option.bind_eq_some_iff,
    Option.ite_none_left_eq_some] at defines
  obtain ⟨supers, resolved, _, defines⟩ := defines
  obtain ⟨links, mem_subs, subs⟩ := registry.unlinkOld_spec definition.name
  change (match registry.reusable definition with
    | some id => ((registry.unlinkOld definition.name).modify id fun metaobject =>
        { metaobject with
          directSuperclasses := supers
          directSlots := definition.directSlots
          directDefaultInitargs := definition.directDefaultInitargs
          finalizedP := false }).finalizeAndRegisterClass id definition.name supers
    | none => ((registry.unlinkOld definition.name).allocate
        { name := definition.name
          directSuperclasses := supers
          directSlots := definition.directSlots
          directDefaultInitargs := definition.directDefaultInitargs
          structType := definition.metaclass }).finalizeAndRegisterClass registry.count
            definition.name supers) = some after at defines
  refine ⟨supers, ?_⟩
  cases reuse : registry.reusable definition with
  | some id =>
      rw [reuse] at defines
      obtain ⟨found, _⟩ := Option.filter_eq_some_iff.mp reuse
      refine ⟨id, _, resolved, ?_, ?_, defines⟩
      rotate_left
      · intro old oldFound apart
        rw [found, Option.some.injEq] at oldFound
        exact absurd oldFound.symm apart
      refine ⟨links.findClass, Or.inl ⟨found, links.count⟩, ?_, ?_, ?_, ?_, ?_, ?_⟩
      · rw [modify_object_self]
      · rw [Registry.supers, modify_object_self]
      · rw [modify_object_self]
        exact (links.field Metaobject.name (fun _ => rfl) id).trans
          (linked.named definition.name id found)
      · intro other apart
        rw [modify_object_other _ _ apart]
        exact links.object other
      · intro super sub
        rw [modify_subs]
        · exact mem_subs super sub
        · exact fun _ => rfl
      · intro super outside
        rw [modify_subs]
        · exact subs super outside
        · exact fun _ => rfl
  | none =>
      rw [reuse] at defines
      refine ⟨registry.count, _, resolved, ?_, ?_, defines⟩
      · have noLinks := linked.blank registry.count (Nat.le_refl _)
        rw [← links.count] at noLinks ⊢
        refine ⟨links.findClass, Or.inr ⟨links.count, congrArg (· + 1) links.count⟩, ?_, ?_,
          ?_, ?_, ?_, ?_⟩
        · rw [allocate_object_self]
        · rw [Registry.supers, allocate_object_self]
        · rw [allocate_object_self]
        · intro id apart
          rw [allocate_object_other _ _ apart]
          exact links.object id
        · intro super sub
          by_cases same : super = (registry.unlinkOld definition.name).count
          · subst same
            rw [Registry.subs, allocate_object_self, noLinks]
            simp
          · rw [Registry.subs, allocate_object_other _ _ same]
            exact mem_subs super sub
        · intro super outside
          by_cases same : super = (registry.unlinkOld definition.name).count
          · subst same
            rw [Registry.subs, allocate_object_self, noLinks]
          · rw [Registry.subs, allocate_object_other _ _ same]
            exact subs super outside
      · intro old found _ sameType
        rw [reusable, found, Option.filter_some, if_pos (by simpa using sameType)] at reuse
        cases reuse

end ClAmiga.Clos.Registry
