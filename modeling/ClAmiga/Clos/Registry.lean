import ClAmiga.Clos.Merge
import Mathlib.Logic.Function.Basic

/-!
# Class metaobjects and DEFCLASS

The class registry of `clos.lisp`: finalization of a class, the walk that
re-finalizes subclasses, and the definition or redefinition of a class.  Generic
functions of the metaobject protocol have their default methods.
-/

namespace ClAmiga.Clos

abbrev Name := String

/-- A class metaobject, by its place in the registry. -/
abbrev Id := Nat

/-- The `:allocation` of a slot: `:instance`, `:class` or some other keyword. -/
inductive Allocation where
  | perInstance
  | perClass
  | other (keyword : Name)
  deriving DecidableEq

/-- A `STANDARD-DIRECT-SLOT-DEFINITION`, as far as effective slots are computed from
it; initfunctions are told apart by a number. -/
structure DirectSlot where
  name : Name
  initargs : List Name := []
  initfunction : Option Nat := none
  allocation : Allocation := .perInstance
  deriving DecidableEq

inductive Location where
  | index (position : Nat)
  | cell
  deriving DecidableEq

/-- A `STANDARD-EFFECTIVE-SLOT-DEFINITION`. -/
structure EffectiveSlot where
  name : Name
  initargs : List Name
  initfunction : Option Nat
  allocation : Allocation
  location : Option Location
  deriving DecidableEq

/-- An entry of a default initarg list: the key and its initfunction. -/
structure DefaultInitarg where
  key : Name
  initfunction : Nat
  deriving DecidableEq

/-- `%direct-to-effective`. -/
def directToEffective (dsd : DirectSlot) : EffectiveSlot where
  name := dsd.name
  initargs := dsd.initargs
  initfunction := dsd.initfunction
  allocation := dsd.allocation
  location := none

/-- `%fold-parent-into-effective`. -/
def foldParentIntoEffective (eff : EffectiveSlot) (parent : DirectSlot) : EffectiveSlot :=
  { eff with
    initargs := parent.initargs.foldl
      (fun combined initarg => if initarg ∈ combined then combined else combined ++ [initarg])
      eff.initargs
    initfunction := eff.initfunction.or parent.initfunction }

/-- `%compute-effective-slot-definition-default`, given the direct slots of a name,
most specific first. -/
def computeEffectiveSlotDefinition : List DirectSlot → Option EffectiveSlot
  | [] => none
  | primary :: parents => some (parents.foldl foldParentIntoEffective (directToEffective primary))

/-- `%compute-slots-default`, given the direct slots along the precedence list: one
effective slot for each name, in the order of first occurrence. -/
def computeSlots (slots : List DirectSlot) : List EffectiveSlot :=
  (slots.map DirectSlot.name).eraseDups.filterMap fun name =>
    computeEffectiveSlotDefinition (slots.filter fun slot => slot.name = name)

/-- `%assign-slot-locations` from index `position` on. -/
def assignSlotLocations : Nat → List EffectiveSlot → List EffectiveSlot
  | _, [] => []
  | position, esd :: later =>
      if esd.allocation = .perClass then
        { esd with location := some .cell } :: assignSlotLocations position later
      else
        { esd with location := some (.index position) } ::
          assignSlotLocations (position + 1) later

/-- `%compute-default-initargs-default`, given the entries along the precedence list
and the keys seen so far. -/
def computeDefaultInitargs : List Name → List DefaultInitarg → List DefaultInitarg
  | _, [] => []
  | seen, entry :: later =>
      if entry.key ∈ seen then computeDefaultInitargs seen later
      else entry :: computeDefaultInitargs (entry.key :: seen) later

/-- A class metaobject: the slots of `STANDARD-CLASS` that finalization reads or
writes, and the name of its struct type, which is that of its metaclass. -/
structure Metaobject where
  name : Name := ""
  directSuperclasses : List Id := []
  directSlots : List DirectSlot := []
  cpl : List Id := []
  effectiveSlots : List EffectiveSlot := []
  directSubclasses : List Id := []
  finalizedP : Bool := false
  defaultInitargs : List DefaultInitarg := []
  directDefaultInitargs : List DefaultInitarg := []
  structType : Name := "STANDARD-CLASS"

/-- The metaobjects allocated so far and `*class-table*`. -/
structure Registry where
  count : Nat
  object : Id → Metaobject
  findClass : Name → Option Id

namespace Registry

def empty : Registry where
  count := 0
  object := fun _ => {}
  findClass := fun _ => none

def modify (registry : Registry) (id : Id) (change : Metaobject → Metaobject) : Registry :=
  { registry with
    object := Function.update registry.object id (change (registry.object id)) }

def allocate (registry : Registry) (metaobject : Metaobject) : Registry :=
  { registry with
    count := registry.count + 1
    object := Function.update registry.object registry.count metaobject }

def setFindClass (registry : Registry) (name : Name) (id : Id) : Registry :=
  { registry with findClass := Function.update registry.findClass name (some id) }

/-- `%compute-class-precedence-list`; `none` where the C3 merge fails. -/
def computeClassPrecedenceList (registry : Registry) (id : Id) : Option (List Id) :=
  let supers := (registry.object id).directSuperclasses
  if supers = [] then some [id]
  else
    c3Merge ([id] :: (supers.map (fun super => (registry.object super).cpl) ++ [supers]))

/-- `%metaclass-p`, given the precedence list of the class. -/
def metaclassP (registry : Registry) (id : Id) (cpl : List Id) : Bool :=
  (registry.findClass "STANDARD-CLASS").any fun std => decide (id ≠ std ∧ std ∈ cpl)

/-- The effective slots that a precedence list gives the class `id`. -/
def slotsOf (registry : Registry) (id : Id) (cpl : List Id) : List EffectiveSlot :=
  assignSlotLocations (if registry.metaclassP id cpl then 12 else 0)
    (computeSlots (cpl.flatMap fun parent => (registry.object parent).directSlots))

/-- The default initargs that a precedence list gives. -/
def defaultInitargsOf (registry : Registry) (cpl : List Id) : List DefaultInitarg :=
  computeDefaultInitargs []
    (cpl.flatMap fun parent => (registry.object parent).directDefaultInitargs)

/-- `%finalize-inheritance-body`. -/
def finalizeInheritance (registry : Registry) (id : Id) : Option Registry :=
  if (registry.object id).finalizedP then some registry
  else do
    let cpl ← registry.computeClassPrecedenceList id
    some (registry.modify id fun metaobject =>
      { metaobject with
        cpl := cpl
        effectiveSlots := registry.slotsOf id cpl
        defaultInitargs := registry.defaultInitargsOf cpl
        finalizedP := true })

/-- `%unfinalize-class`. -/
def unfinalizeClass (registry : Registry) (id : Id) : Registry :=
  registry.modify id fun metaobject => { metaobject with finalizedP := false }

/-- The body of the loop in `%refinalize-subclasses`: the registry and the classes
visited so far, in their order.  The fuel bounds the depth of the recursion. -/
def refinalizeSubclass : Nat → Registry × List Id → Id → Option (Registry × List Id)
  | 0, _, _ => none
  | fuel + 1, (registry, visited), sub =>
      if sub ∈ visited then some (registry, visited)
      else do
        let registry ← (registry.unfinalizeClass sub).finalizeInheritance sub
        (registry.object sub).directSubclasses.foldlM
          (fun state next => refinalizeSubclass fuel state next) (registry, visited ++ [sub])

/-- `%refinalize-subclasses`. -/
def refinalizeSubclasses (registry : Registry) (id : Id) : Option Registry := do
  let (registry, _) ← (registry.object id).directSubclasses.foldlM
    (refinalizeSubclass (registry.count + 1)) (registry, [])
  some registry

/-- Make `id` a direct subclass of `super`, unless it is one. -/
def linkSubclass (id : Id) (registry : Registry) (super : Id) : Registry :=
  if id ∈ (registry.object super).directSubclasses then registry
  else registry.modify super fun metaobject =>
    { metaobject with directSubclasses := id :: metaobject.directSubclasses }

/-- Take `id` off the direct subclasses of `super`. -/
def unlinkSubclass (id : Id) (registry : Registry) (super : Id) : Registry :=
  registry.modify super fun metaobject =>
    { metaobject with
      directSubclasses := metaobject.directSubclasses.filter fun sub => sub ≠ id }

/-- `%unlink-from-old-supers`. -/
def unlinkFromOldSupers (registry : Registry) (old : Id) : Registry :=
  (registry.object old).directSuperclasses.foldl (unlinkSubclass old) registry

/-- `%finalize-and-register-class`. -/
def finalizeAndRegisterClass (registry : Registry) (id : Id) (name : Name)
    (supers : List Id) : Option Registry := do
  let registry ← registry.finalizeInheritance id
  let registry := supers.foldl (linkSubclass id) (registry.setFindClass name id)
  registry.refinalizeSubclasses id

/-- A DEFCLASS form: the class name, the names of the direct superclasses, the direct
slots, the direct default initargs and the metaclass. -/
structure Definition where
  name : Name
  directSuperNames : List Name := []
  directSlots : List DirectSlot := []
  directDefaultInitargs : List DefaultInitarg := []
  metaclass : Name := "STANDARD-CLASS"

/-- The direct superclasses of a definition; without any it is `STANDARD-OBJECT`.
`none` where a class does not exist. -/
def supersOf (registry : Registry) (definition : Definition) : Option (List Id) :=
  if definition.directSuperNames = [] then
    (registry.findClass "STANDARD-OBJECT").map fun object => [object]
  else definition.directSuperNames.mapM registry.findClass

/-- The metaobject that a redefinition updates in place, per
`%reusable-class-metaobject-p`. -/
def reusable (registry : Registry) (definition : Definition) : Option Id :=
  (registry.findClass definition.name).filter fun old =>
    (registry.object old).structType = definition.metaclass

/-- `%ensure-class`; with a metaclass other than `STANDARD-CLASS` the same steps by
way of `%ensure-class-via-metaclass`.  `none` where an error is signalled. -/
def ensureClass (registry : Registry) (definition : Definition) : Option Registry := do
  let supers ← registry.supersOf definition
  if definition.metaclass ≠ "STANDARD-CLASS" ∧
      registry.findClass definition.metaclass = none then none
  else
    let unlinked := match registry.findClass definition.name with
      | some old => registry.unlinkFromOldSupers old
      | none => registry
    match registry.reusable definition with
    | some id =>
        let updated := unlinked.modify id fun metaobject =>
          { metaobject with
            directSuperclasses := supers
            directSlots := definition.directSlots
            directDefaultInitargs := definition.directDefaultInitargs
            finalizedP := false }
        updated.finalizeAndRegisterClass id definition.name supers
    | none =>
        let allocated := unlinked.allocate
          { name := definition.name
            directSuperclasses := supers
            directSlots := definition.directSlots
            directDefaultInitargs := definition.directDefaultInitargs
            structType := definition.metaclass }
        allocated.finalizeAndRegisterClass registry.count definition.name supers

/-- `%make-bootstrap-class`. -/
def makeBootstrapClass (registry : Registry) (name : Name) (supers : List Id) :
    Option Registry := do
  let id := registry.count
  let registry := (registry.allocate
    { name := name, directSuperclasses := supers, finalizedP := true }).setFindClass name id
  let cpl ← registry.computeClassPrecedenceList id
  let registry := registry.modify id fun metaobject => { metaobject with cpl := cpl }
  some (supers.foldl
    (fun registry super => registry.modify super fun metaobject =>
      { metaobject with directSubclasses := id :: metaobject.directSubclasses })
    registry)

end Registry

end ClAmiga.Clos
