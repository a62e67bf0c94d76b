import ClAmiga.Clos.Registry
import ClAmiga.Graph.Walk

/-!
# Re-finalization as a walk

What finalization computes for a class depends on the precedence lists of its direct
superclasses.  The recursion of `%refinalize-subclasses` is a depth-first walk whose
classes are finalized again in the order of the walk.
-/

namespace ClAmiga.Clos

open ClAmiga.Graph

/-- What finalization computes for a class. -/
structure Derived where
  cpl : List Id
  effectiveSlots : List EffectiveSlot
  defaultInitargs : List DefaultInitarg

def Metaobject.derived (metaobject : Metaobject) : Derived :=
  ⟨metaobject.cpl, metaobject.effectiveSlots, metaobject.defaultInitargs⟩

/-- A metaobject without what finalization writes. -/
def Metaobject.frame (metaobject : Metaobject) : Metaobject :=
  { metaobject with
    cpl := [], effectiveSlots := [], defaultInitargs := [], finalizedP := false }

namespace Registry

def derived (registry : Registry) (id : Id) : Derived :=
  (registry.object id).derived

def supers (registry : Registry) (id : Id) : List Id :=
  (registry.object id).directSuperclasses

def subs (registry : Registry) (id : Id) : List Id :=
  (registry.object id).directSubclasses

/-- What finalization computes for the class `id` when the values of the other
classes are given. -/
def compute (registry : Registry) (values : Id → Derived) (id : Id) : Option Derived :=
  let cpl :=
    if registry.supers id = [] then some [id]
    else c3Merge ([id] :: ((registry.supers id).map (fun super => (values super).cpl) ++
      [registry.supers id]))
  cpl.map fun cpl =>
    ⟨cpl, registry.slotsOf id cpl, registry.defaultInitargsOf cpl⟩

theorem compute_dependsOn (registry : Registry) : DependsOn registry.compute registry.supers := by
  intro values others id agree
  unfold compute
  rw [List.map_congr_left fun super member => by rw [agree super member]]

/-- The same registry but for what finalization writes. -/
structure SameFrame (registry other : Registry) : Prop where
  count : other.count = registry.count
  findClass : other.findClass = registry.findClass
  object : ∀ id, (other.object id).frame = (registry.object id).frame

theorem SameFrame.refl (registry : Registry) : SameFrame registry registry :=
  ⟨rfl, rfl, fun _ => rfl⟩

theorem SameFrame.trans {first second third : Registry} (early : SameFrame first second)
    (late : SameFrame second third) : SameFrame first third :=
  ⟨late.count.trans early.count, late.findClass.trans early.findClass,
    fun id => (late.object id).trans (early.object id)⟩

section

variable {registry other : Registry}

theorem SameFrame.field {Field : Type} (same : SameFrame registry other)
    (field : Metaobject → Field)
    (kept : ∀ metaobject : Metaobject, field metaobject.frame = field metaobject) (id : Id) :
    field (other.object id) = field (registry.object id) := by
  rw [← kept, same.object, kept]

theorem SameFrame.supers (same : SameFrame registry other) : other.supers = registry.supers := by
  funext id
  exact same.field Metaobject.directSuperclasses (fun _ => rfl) id

theorem SameFrame.subs (same : SameFrame registry other) : other.subs = registry.subs := by
  funext id
  exact same.field Metaobject.directSubclasses (fun _ => rfl) id

theorem SameFrame.slotsOf (same : SameFrame registry other) (id : Id) (cpl : List Id) :
    other.slotsOf id cpl = registry.slotsOf id cpl := by
  have slots : (fun parent => (other.object parent).directSlots) =
      fun parent => (registry.object parent).directSlots := by
    funext parent
    exact same.field Metaobject.directSlots (fun _ => rfl) parent
  unfold Registry.slotsOf metaclassP
  rw [slots, same.findClass]

theorem SameFrame.defaultInitargsOf (same : SameFrame registry other) (cpl : List Id) :
    other.defaultInitargsOf cpl = registry.defaultInitargsOf cpl := by
  have initargs : (fun parent => (other.object parent).directDefaultInitargs) =
      fun parent => (registry.object parent).directDefaultInitargs := by
    funext parent
    exact same.field Metaobject.directDefaultInitargs (fun _ => rfl) parent
  unfold Registry.defaultInitargsOf
  rw [initargs]

theorem SameFrame.compute (same : SameFrame registry other) : other.compute = registry.compute := by
  funext values id
  unfold Registry.compute
  simp only [same.supers, same.slotsOf, same.defaultInitargsOf]

end

def refreshClass (registry : Registry) (id : Id) : Option Registry :=
  (registry.unfinalizeClass id).finalizeInheritance id

theorem modify_object_self (registry : Registry) (id : Id) (change : Metaobject → Metaobject) :
    (registry.modify id change).object id = change (registry.object id) :=
  Function.update_self ..

theorem modify_object_other (registry : Registry) {id other : Id}
    (change : Metaobject → Metaobject) (apart : other ≠ id) :
    (registry.modify id change).object other = registry.object other :=
  Function.update_of_ne apart ..

theorem allocate_object_self (registry : Registry) (metaobject : Metaobject) :
    (registry.allocate metaobject).object registry.count = metaobject :=
  Function.update_self ..

theorem allocate_object_other (registry : Registry) {id : Id} (metaobject : Metaobject)
    (apart : id ≠ registry.count) :
    (registry.allocate metaobject).object id = registry.object id :=
  Function.update_of_ne apart ..

/-- A class that is not finalized gets what is computed for it, and nothing else
changes. -/
theorem finalizeInheritance_eq_some {registry after : Registry} {id : Id}
    (unfinalized : (registry.object id).finalizedP = false)
    (finalizes : registry.finalizeInheritance id = some after) :
    SameFrame registry after ∧
      refresh registry.compute registry.derived id = some after.derived := by
  unfold finalizeInheritance at finalizes
  rw [unfinalized, if_neg (by decide)] at finalizes
  simp only [Option.bind_eq_bind, Option.bind_eq_some_iff, Option.some.injEq] at finalizes
  obtain ⟨cpl, computed, rfl⟩ := finalizes
  constructor
  · refine ⟨rfl, rfl, fun other => ?_⟩
    by_cases same : other = id
    · subst same
      rw [modify_object_self]
      rfl
    · rw [modify_object_other _ _ same]
  · have value : registry.compute registry.derived id =
        some ⟨cpl, registry.slotsOf id cpl, registry.defaultInitargsOf cpl⟩ := by
      change (registry.computeClassPrecedenceList id).map _ = _
      rw [computed]
      rfl
    unfold refresh
    rw [value, Option.map_some]
    congr 1
    funext other
    by_cases same : other = id
    · subst same
      rw [Function.update_self, derived, modify_object_self]
      rfl
    · rw [Function.update_of_ne same, derived, derived, modify_object_other _ _ same]

theorem unfinalizeClass_sameFrame (registry : Registry) (id : Id) :
    SameFrame registry (registry.unfinalizeClass id) := by
  refine ⟨rfl, rfl, fun other => ?_⟩
  by_cases same : other = id
  · subst same
    rw [unfinalizeClass, modify_object_self]
    rfl
  · rw [unfinalizeClass, modify_object_other _ _ same]

theorem unfinalizeClass_derived (registry : Registry) (id : Id) :
    (registry.unfinalizeClass id).derived = registry.derived := by
  funext other
  unfold derived unfinalizeClass
  by_cases same : other = id
  · subst same
    rw [modify_object_self]
    rfl
  · rw [modify_object_other _ _ same]

theorem refreshClass_eq_some {registry after : Registry} {id : Id}
    (refreshes : registry.refreshClass id = some after) :
    SameFrame registry after ∧
      refresh registry.compute registry.derived id = some after.derived := by
  have frame := registry.unfinalizeClass_sameFrame id
  have unfinalized : ((registry.unfinalizeClass id).object id).finalizedP = false := by
    rw [unfinalizeClass, modify_object_self]
  obtain ⟨same, refreshed⟩ := finalizeInheritance_eq_some unfinalized refreshes
  rw [frame.compute, unfinalizeClass_derived] at refreshed
  exact ⟨frame.trans same, refreshed⟩

theorem foldlM_refreshClass {registry after : Registry} {order : List Id}
    (refreshes : order.foldlM refreshClass registry = some after) :
    SameFrame registry after ∧
      order.foldlM (refresh registry.compute) registry.derived = some after.derived := by
  induction order generalizing registry with
  | nil =>
      cases refreshes
      exact ⟨.refl _, rfl⟩
  | cons first rest induction =>
      rw [List.foldlM_cons, Option.bind_eq_bind, Option.bind_eq_some_iff] at refreshes
      obtain ⟨middle, early, late⟩ := refreshes
      obtain ⟨sameEarly, refreshed⟩ := refreshClass_eq_some early
      obtain ⟨sameLate, laterRefreshed⟩ := induction late
      rw [sameEarly.compute] at laterRefreshed
      refine ⟨sameEarly.trans sameLate, ?_⟩
      rw [List.foldlM_cons, refreshed]
      exact laterRefreshed

theorem refinalizeAll_eq {fuel : Nat} {registry : Registry} {visited new nodes : List Id}
    (each : ∀ {registry : Registry} {visited new : List Id} {sub : Id},
      visit registry.subs fuel visited sub = some (visited ++ new) →
      refinalizeSubclass fuel (registry, visited) sub =
        (new.foldlM refreshClass registry).map fun after => (after, visited ++ new))
    (walks : visitAll registry.subs fuel visited nodes = some (visited ++ new)) :
    nodes.foldlM (refinalizeSubclass fuel) (registry, visited) =
      (new.foldlM refreshClass registry).map fun after => (after, visited ++ new) := by
  induction nodes generalizing registry visited new with
  | nil =>
      have noNew : new = [] := by
        have same : visited = visited ++ new := Option.some.inj walks
        exact List.self_eq_append_right.mp same
      rw [noNew, List.append_nil]
      rfl
  | cons first rest induction =>
      obtain ⟨middle, early, late⟩ := visitAll_cons_eq_some.mp walks
      obtain ⟨newEarly, rfl⟩ := (visit_continues early).grows
      obtain ⟨newLate, sameNew⟩ := (visitAll_continues late).grows
      rw [List.append_assoc] at sameNew
      obtain rfl := List.append_cancel_left sameNew
      rw [List.foldlM_cons, each early, List.foldlM_append]
      cases refreshed : newEarly.foldlM refreshClass registry with
      | none => rfl
      | some next =>
          have frame := (foldlM_refreshClass refreshed).1
          rw [← List.append_assoc] at late
          rw [← frame.subs] at late
          have step := induction late
          rw [List.append_assoc] at step
          exact step

/-- Re-finalizing a class and what follows from it is to finalize again, in the order
of the walk, the classes that the walk visits. -/
theorem refinalizeSubclass_eq {fuel : Nat} {registry : Registry} {visited new : List Id}
    {sub : Id} (walks : visit registry.subs fuel visited sub = some (visited ++ new)) :
    refinalizeSubclass fuel (registry, visited) sub =
      (new.foldlM refreshClass registry).map fun after => (after, visited ++ new) := by
  induction fuel generalizing registry visited new sub with
  | zero => cases walks
  | succ fuel induction =>
      unfold refinalizeSubclass
      by_cases old : sub ∈ visited
      · rw [visit_old old] at walks
        have noNew : new = [] := by
          have same : visited = visited ++ new := Option.some.inj walks
          exact List.self_eq_append_right.mp same
        rw [if_pos old, noNew, List.append_nil]
        rfl
      · rw [visit_new old] at walks
        obtain ⟨later, sameNew⟩ := (visitAll_continues walks).grows
        rw [List.append_assoc] at sameNew
        obtain rfl := List.append_cancel_left sameNew
        rw [if_neg old, List.singleton_append, List.foldlM_cons]
        change (registry.refreshClass sub >>= _) = _
        cases refreshed : registry.refreshClass sub with
        | none => rfl
        | some next =>
            have frame := (refreshClass_eq_some refreshed).1
            rw [← List.append_assoc, ← frame.subs] at walks
            have step := refinalizeAll_eq induction walks
            rw [List.append_assoc] at step
            exact step

/-- The classes that are re-finalized with `id`, in their order. -/
def walk (registry : Registry) (id : Id) : Option (List Id) :=
  visitAll registry.subs (registry.count + 1) [] (registry.subs id)

theorem refinalizeSubclasses_eq {registry : Registry} {id : Id} {order : List Id}
    (walks : registry.walk id = some order) :
    registry.refinalizeSubclasses id = order.foldlM refreshClass registry := by
  have all : (registry.subs id).foldlM (refinalizeSubclass (registry.count + 1))
      (registry, []) = (order.foldlM refreshClass registry).map fun after => (after, order) :=
    refinalizeAll_eq refinalizeSubclass_eq walks
  unfold refinalizeSubclasses
  rw [show (registry.object id).directSubclasses = registry.subs id from rfl, all]
  cases order.foldlM refreshClass registry <;> rfl

end Registry

end ClAmiga.Clos
