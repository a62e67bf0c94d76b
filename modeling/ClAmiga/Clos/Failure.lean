import ClAmiga.Clos.Redefine
import ClAmiga.Signals.Outcome

/-!
# Definitions that fail

The definition of a class once more, now with the registry that an error leaves
behind: the stores made before the error are not taken back.
-/

namespace ClAmiga.Clos.Registry

open ClAmiga.Signals

abbrev Run (Value : Type) := Signals.Run Registry Value

/-- `%finalize-inheritance-body`: the merge comes before the first store. -/
def finalizeInheritanceRun (registry : Registry) (id : Id) : Run Registry :=
  match registry.finalizeInheritance id with
  | some after => .ok after
  | none => .error (.signalled registry)

/-- The body of the loop in `%refinalize-subclasses`. -/
def refinalizeSubclassRun : Nat → Registry × List Id → Id → Run (Registry × List Id)
  | 0, _, _ => .error .exhausted
  | fuel + 1, (registry, visited), sub =>
      if sub ∈ visited then .ok (registry, visited)
      else do
        let registry ← (registry.unfinalizeClass sub).finalizeInheritanceRun sub
        (registry.object sub).directSubclasses.foldlM
          (fun state next => refinalizeSubclassRun fuel state next)
          (registry, visited ++ [sub])

/-- `%refinalize-subclasses`. -/
def refinalizeSubclassesRun (registry : Registry) (id : Id) : Run Registry := do
  let (registry, _) ← (registry.object id).directSubclasses.foldlM
    (refinalizeSubclassRun (registry.count + 1)) (registry, [])
  return registry

/-- `%finalize-and-register-class`. -/
def finalizeAndRegisterClassRun (registry : Registry) (id : Id) (name : Name)
    (supers : List Id) : Run Registry := do
  let registry ← registry.finalizeInheritanceRun id
  let registry := supers.foldl (linkSubclass id) (registry.setFindClass name id)
  registry.refinalizeSubclassesRun id

/-- The class that a definition works on, and the registry before the class is
finalized: the old class has lost its links up, and the direct data is new. -/
def startDefinition (registry : Registry) (definition : Definition) (supers : List Id) :
    Id × Registry :=
  let unlinked := registry.unlinkOld definition.name
  match registry.reusable definition with
  | some id =>
      (id, unlinked.modify id fun metaobject =>
        { metaobject with
          directSuperclasses := supers
          directSlots := definition.directSlots
          directDefaultInitargs := definition.directDefaultInitargs
          finalizedP := false })
  | none =>
      (registry.count, unlinked.allocate
        { name := definition.name
          directSuperclasses := supers
          directSlots := definition.directSlots
          directDefaultInitargs := definition.directDefaultInitargs
          structType := definition.metaclass })

/-- The rest of a definition once its superclasses are found. -/
def defineRun (registry : Registry) (definition : Definition) (supers : List Id) :
    Run Registry :=
  let (id, started) := registry.startDefinition definition supers
  started.finalizeAndRegisterClassRun id definition.name supers

/-- `%ensure-class`.  With the metaclass `STANDARD-CLASS` the superclasses are
looked up before anything is stored; with another one the old class has lost its
links by then, and a fresh metaobject is allocated. -/
def ensureClassRun (registry : Registry) (definition : Definition) : Run Registry :=
  if definition.metaclass = "STANDARD-CLASS" then
    match registry.supersOf definition with
    | none => .error (.signalled registry)
    | some supers => registry.defineRun definition supers
  else if registry.findClass definition.metaclass = none then
    .error (.signalled registry)
  else
    match registry.supersOf definition with
    | some supers => registry.defineRun definition supers
    | none =>
        let unlinked := registry.unlinkOld definition.name
        .error (.signalled (match registry.reusable definition with
          | some _ => unlinked
          | none => unlinked.allocate { structType := definition.metaclass }))

theorem toOption_bind {Value Result : Type} (run : Run Value) (next : Value → Run Result) :
    (run >>= next).toOption = run.toOption >>= fun value => (next value).toOption := by
  cases run <;> rfl

theorem toOption_finalizeInheritanceRun (registry : Registry) (id : Id) :
    (registry.finalizeInheritanceRun id).toOption = registry.finalizeInheritance id := by
  unfold finalizeInheritanceRun
  cases registry.finalizeInheritance id <;> rfl

theorem toOption_foldlM {Value : Type} {step : Value → Id → Run Value}
    {stepOption : Value → Id → Option Value}
    (same : ∀ value item, (step value item).toOption = stepOption value item)
    (items : List Id) (start : Value) :
    (items.foldlM step start).toOption = items.foldlM stepOption start := by
  induction items generalizing start with
  | nil => rfl
  | cons item later induction =>
      rw [List.foldlM_cons, List.foldlM_cons, toOption_bind, same]
      exact congrArg _ (funext induction)

theorem toOption_refinalizeSubclassRun (fuel : Nat) (state : Registry × List Id) (sub : Id) :
    (refinalizeSubclassRun fuel state sub).toOption = refinalizeSubclass fuel state sub := by
  induction fuel generalizing state sub with
  | zero => rfl
  | succ fuel induction =>
      obtain ⟨registry, visited⟩ := state
      unfold refinalizeSubclassRun refinalizeSubclass
      split
      · rfl
      · rw [toOption_bind, toOption_finalizeInheritanceRun]
        congr 1
        funext after
        exact toOption_foldlM induction _ _

theorem toOption_finalizeAndRegisterClassRun (registry : Registry) (id : Id) (name : Name)
    (supers : List Id) :
    (registry.finalizeAndRegisterClassRun id name supers).toOption =
      registry.finalizeAndRegisterClass id name supers := by
  unfold finalizeAndRegisterClassRun finalizeAndRegisterClass
  rw [toOption_bind, toOption_finalizeInheritanceRun]
  congr 1
  funext finalized
  unfold refinalizeSubclassesRun refinalizeSubclasses
  rw [toOption_bind, toOption_foldlM (toOption_refinalizeSubclassRun _)]
  rfl

/-- A run that returns is the definition without states left behind. -/
theorem toOption_ensureClassRun (registry : Registry) (definition : Definition) :
    (registry.ensureClassRun definition).toOption = registry.ensureClass definition := by
  unfold ensureClassRun ensureClass
  cases resolved : registry.supersOf definition with
  | none =>
      split
      · rfl
      · split <;> rfl
  | some supers =>
      have defines : (registry.defineRun definition supers).toOption =
          match registry.reusable definition with
          | some id => ((registry.unlinkOld definition.name).modify id fun metaobject =>
              { metaobject with
                directSuperclasses := supers
                directSlots := definition.directSlots
                directDefaultInitargs := definition.directDefaultInitargs
                finalizedP := false }).finalizeAndRegisterClass id definition.name supers
          | none => ((registry.unlinkOld definition.name).allocate
              { name := definition.name
                directSuperclasses := supers
                directSlots := definition.directSlots
                directDefaultInitargs := definition.directDefaultInitargs
                structType := definition.metaclass }).finalizeAndRegisterClass
                  registry.count definition.name supers := by
        unfold defineRun startDefinition
        cases registry.reusable definition with
        | none => exact toOption_finalizeAndRegisterClassRun ..
        | some id => exact toOption_finalizeAndRegisterClassRun ..
      by_cases standard : definition.metaclass = "STANDARD-CLASS"
      · rw [if_pos standard]
        refine defines.trans (if_neg fun both => both.1 standard).symm
      · rw [if_neg standard]
        by_cases unknown : registry.findClass definition.metaclass = none
        · rw [if_pos unknown]
          exact (if_pos ⟨standard, unknown⟩).symm
        · rw [if_neg unknown]
          exact defines.trans (if_neg fun both => unknown both.2).symm

end ClAmiga.Clos.Registry
