import ClAmiga.Condition.TypeMatch

/-!
# The slots of conditions

A condition keeps the values of its slots in one association list, under initargs and under the
names of slots.  What is not supplied when it is made, and the initarg of a slot that is read or
set, is looked up in the type, its first parent, the first parent of that, and so on.
-/

namespace ClAmiga.Condition.Slots

open ClAmiga.Graph (LeadsToNoCycle Reach Climb climbFold climbFind)
open TypeMatch (Symbol Hierarchy)

inductive Obj where
  | nil
  | symbol (name : Symbol)
  | string (text : String)
  | other (id : Nat)
deriving DecidableEq, Repr

/-- `CL_ANY_STRING_P` -/
def Obj.isString : Obj → Bool
  | .string _ => true
  | _ => false

/-- A registered `(slot-name initarg thunk)`. -/
structure InitformSpec where
  slotName : Obj
  initarg : Obj
  thunk : Obj
deriving DecidableEq, Repr

/-- `condition_hierarchy`, `condition_slot_table`, `condition_default_initargs` and
`condition_slot_initforms`. -/
structure Tables where
  hierarchy : Hierarchy
  slotTable : List (Symbol × List (Obj × Obj))
  defaultInitargs : List (Symbol × List Obj)
  slotInitforms : List (Symbol × List InitformSpec)

/-- A slot specifier of `DEFINE-CONDITION`: its `:initarg` options and the thunk of its `:initform`,
where that is not the literal `NIL`. -/
structure SlotSpec where
  name : Obj
  initargs : List Obj
  initform : Option Obj

structure Definition where
  name : Symbol
  parents : List Symbol
  slots : List SlotSpec
  defaultInitargs : List Obj

/-- `(getf opts :initarg)` -/
def SlotSpec.initarg (spec : SlotSpec) : Obj :=
  spec.initargs.head?.getD .nil

def SlotSpec.initformSpec (spec : SlotSpec) : Option InitformSpec :=
  spec.initform.map fun thunk => ⟨spec.name, spec.initarg, thunk⟩

/-- `DEFINE-CONDITION` -/
def defineCondition (tables : Tables) (definition : Definition) : Tables :=
  let specs := definition.slots.filterMap SlotSpec.initformSpec
  { hierarchy :=
      TypeMatch.defineCondition tables.hierarchy (definition.name, definition.parents)
    slotTable :=
      (definition.name, definition.slots.map fun spec => (spec.name, spec.initarg)) ::
        tables.slotTable
    defaultInitargs :=
      if definition.defaultInitargs = [] then tables.defaultInitargs
      else (definition.name, definition.defaultInitargs) :: tables.defaultInitargs
    slotInitforms :=
      if specs = [] then tables.slotInitforms
      else (definition.name, specs) :: tables.slotInitforms }

/-- `slots` of a condition: pairs of a key and a value. -/
abbrev Alist := List (Obj × Obj)

/-- `slot_lookup` -/
def slotLookup (slots : Alist) (key : Obj) : Obj :=
  (slots.lookup key).getD .nil

/-- `slot_present_p` -/
def slotPresentP (slots : Alist) (key : Obj) : Bool :=
  slots.any fun pair => pair.1 = key

inductive Stop where
  | error (message : String)
  | rounds
deriving DecidableEq, Repr

def Tables.plist (tables : Tables) (type : Symbol) : List Obj :=
  (tables.defaultInitargs.lookup type).getD []

/-- The initforms of one type whose slots are not supplied. `call` gives the values of thunks. -/
def applySpecs (call : Obj → Obj) : List InitformSpec → Alist → Alist
  | [], slots => slots
  | spec :: specs, slots =>
      let supplied :=
        (spec.initarg ≠ .nil && slotPresentP slots spec.initarg) ||
          slotPresentP slots spec.slotName
      if supplied then applySpecs call specs slots
      else applySpecs call specs ((spec.slotName, call spec.thunk) :: slots)

def Tables.specs (tables : Tables) (type : Symbol) : List InitformSpec :=
  (tables.slotInitforms.lookup type).getD []

def within {Result : Type} : Option Result → Except Stop Result
  | some result => .ok result
  | none => .error .rounds

/-- `find_slot_initarg_in` -/
def findSlotInitargIn (slotTable : List (Symbol × List (Obj × Obj))) (type : Symbol)
    (slotName : Obj) : Obj :=
  (((slotTable.lookup type).getD []).lookup slotName).getD .nil

/-- What is not `NIL`. -/
def nonNil (initarg : Obj) : Option Obj :=
  if initarg = .nil then none else some initarg

/-- The value under the initarg, or under the name, or `NIL`. -/
def readSlot (slots : Alist) (slotName : Obj) (initarg : Option Obj) : Obj :=
  if initarg.any (slotPresentP slots) then slotLookup slots (initarg.getD .nil)
  else if slotPresentP slots slotName then slotLookup slots slotName
  else .nil

/-- The list with another value in the first pair of a key, if there is one. -/
def updatePair (key value : Obj) : Alist → Option Alist
  | [] => none
  | pair :: slots =>
      if pair.1 = key then some ((key, value) :: slots)
      else (updatePair key value slots).map (pair :: ·)

def setPair (slots : Alist) (key value : Obj) : Alist :=
  match updatePair key value slots with
  | some updated => updated
  | none => (key, value) :: slots

theorem slotPresentP_eq (slots : Alist) (key : Obj) :
    slotPresentP slots key = (slots.lookup key).isSome := by
  induction slots with
  | nil => rfl
  | cons pair slots induction =>
      obtain ⟨first, value⟩ := pair
      rw [slotPresentP, List.any_cons, ← slotPresentP, induction, List.lookup_cons]
      by_cases same : key = first
      · simp [same]
      · simp [beq_false_of_ne same, Ne.symm same]

theorem lookup_pair (first value : Obj) (slots : Alist) (key : Obj) :
    List.lookup key ((first, value) :: slots) =
      if key = first then some value else slots.lookup key := by
  rw [List.lookup_cons]
  by_cases same : key = first
  · simp [same]
  · simp [beq_false_of_ne same, same]

theorem readSlot_eq (slots : Alist) (slotName : Obj) (initarg : Option Obj) :
    readSlot slots slotName initarg =
      ((initarg.bind fun key => slots.lookup key).or (slots.lookup slotName)).getD .nil := by
  unfold readSlot slotLookup
  rw [slotPresentP_eq]
  cases initarg with
  | none =>
      cases slots.lookup slotName with
      | none => rfl
      | some value => rfl
  | some key =>
      rw [Option.any_some, slotPresentP_eq]
      cases found : slots.lookup key with
      | none =>
          cases slots.lookup slotName with
          | none => simp [found]
          | some value => simp [found]
      | some value => simp [found]

def pairs : List Obj → Alist
  | key :: value :: rest => (key, value) :: pairs rest
  | _ => []

section Chain

variable (tables : Tables) (types : List Symbol)

def Tables.defaults : Alist :=
  types.flatMap fun type => pairs (tables.plist type)

def Tables.initforms : List InitformSpec :=
  types.flatMap tables.specs

def Tables.slotInitarg (slotName : Obj) : Option Obj :=
  types.findSome? fun type => nonNil (findSlotInitargIn tables.slotTable type slotName)

variable {tables types}

variable {start : Option Symbol} {rounds : Nat}

end Chain

def Taken (given : Obj → Prop) (spec : InitformSpec) : Prop :=
  ∃ key, nonNil spec.initarg = some key ∧ given key

/-- The initform for a slot: the first one whose initarg has no value. -/
inductive InitformFor (given : Obj → Prop) (slot : Obj) :
    List InitformSpec → Option InitformSpec → Prop
  | none : InitformFor given slot [] none
  | found {spec : InitformSpec} {specs : List InitformSpec} (own : spec.slotName = slot)
      (free : ¬ Taken given spec) : InitformFor given slot (spec :: specs) (some spec)
  | skip {spec : InitformSpec} {specs : List InitformSpec} {chosen : Option InitformSpec}
      (taken : spec.slotName = slot → Taken given spec)
      (rest : InitformFor given slot specs chosen) : InitformFor given slot (spec :: specs) chosen

theorem InitformFor.transport {given given' : Obj → Prop} {slot : Obj}
    {specs : List InitformSpec} {chosen : Option InitformSpec}
    (choice : InitformFor given slot specs chosen)
    (agree : ∀ own ∈ specs, own.slotName = slot → (Taken given own ↔ Taken given' own)) :
    InitformFor given' slot specs chosen := by
  induction choice with
  | none => exact .none
  | found own free => exact .found own ((agree _ List.mem_cons_self own).not.mp free)
  | skip taken _ induction =>
      refine .skip (fun own => (agree _ List.mem_cons_self own).mp (taken own)) ?_
      exact induction fun other member => agree other (List.mem_cons_of_mem _ member)

def Present (slots : Alist) (key : Obj) : Prop :=
  (slots.lookup key).isSome

/-- No initarg that is declared with an initform of the slot is the name of another slot. -/
def OwnInitargsApart (specs : List InitformSpec) (slot : Obj) : Prop :=
  ∀ spec ∈ specs, spec.slotName ≠ slot → ∀ own ∈ specs, own.slotName = slot →
    nonNil own.initarg ≠ some spec.slotName

theorem supplied_iff (slots : Alist) (spec : InitformSpec) :
    ((spec.initarg ≠ .nil && slotPresentP slots spec.initarg) ||
        slotPresentP slots spec.slotName) = true ↔
      Taken (Present slots) spec ∨ Present slots spec.slotName := by
  rw [slotPresentP_eq, slotPresentP_eq, Bool.or_eq_true, Bool.and_eq_true, decide_eq_true_iff]
  refine or_congr_left ⟨?_, ?_⟩
  · rintro ⟨initarg, present⟩
    exact ⟨spec.initarg, if_neg initarg, present⟩
  · rintro ⟨key, initarg, present⟩
    obtain ⟨isInitarg, same⟩ := Option.ite_none_left_eq_some.mp initarg
    cases same
    exact ⟨isInitarg, present⟩

theorem applySpecs_other {call : Obj → Obj} {specs : List InitformSpec} {key : Obj}
    (other : ∀ spec ∈ specs, spec.slotName ≠ key) (slots : Alist) :
    (applySpecs call specs slots).lookup key = slots.lookup key := by
  induction specs generalizing slots with
  | nil => rfl
  | cons spec specs induction =>
      have rest := fun spec member => other spec (List.mem_cons_of_mem _ member)
      rw [applySpecs]
      split
      · exact induction rest slots
      · rw [induction rest, lookup_pair, if_neg (other spec List.mem_cons_self).symm]

theorem applySpecs_present {call : Obj → Obj} {key value : Obj} (specs : List InitformSpec)
    {slots : Alist} (present : slots.lookup key = some value) :
    (applySpecs call specs slots).lookup key = some value := by
  induction specs generalizing slots with
  | nil => exact present
  | cons spec specs induction =>
      rw [applySpecs]
      split
      case isTrue => exact induction present
      case isFalse absent =>
          refine induction ?_
          have different : key ≠ spec.slotName := by
            rintro rfl
            exact absent ((supplied_iff slots spec).mpr (.inr (by rw [Present, present]; rfl)))
          rw [lookup_pair, if_neg different, present]

theorem applySpecs_absent {slot : Obj} {specs : List InitformSpec}
    (apart : OwnInitargsApart specs slot) (call : Obj → Obj) {slots : Alist}
    (absent : slots.lookup slot = none) :
    ∃ chosen, InitformFor (Present slots) slot specs chosen ∧
      (applySpecs call specs slots).lookup slot = chosen.map fun spec => call spec.thunk := by
  induction specs generalizing slots with
  | nil => exact ⟨none, .none, absent⟩
  | cons spec specs induction =>
      have apart' : OwnInitargsApart specs slot := fun other member different own member' =>
        apart other (List.mem_cons_of_mem _ member) different own (List.mem_cons_of_mem _ member')
      rw [applySpecs]
      split
      case isTrue supplied =>
          obtain ⟨chosen, choice, value⟩ := induction apart' absent
          refine ⟨chosen, .skip (fun own => ?_) choice, value⟩
          obtain taken | present := (supplied_iff slots spec).mp supplied
          · exact taken
          · rw [own, Present, absent] at present
            cases present
      case isFalse missing =>
          obtain ⟨free, -⟩ := not_or.mp ((supplied_iff slots spec).not.mp missing)
          by_cases own : spec.slotName = slot
          · refine ⟨some spec, .found own free, applySpecs_present specs ?_⟩
            rw [lookup_pair, if_pos own.symm]
          · have absent' : List.lookup slot ((spec.slotName, call spec.thunk) :: slots) = none := by
              rw [lookup_pair, if_neg (Ne.symm own), absent]
            obtain ⟨chosen, choice, value⟩ := induction apart' absent'
            refine ⟨chosen, .skip (fun same => absurd same own) (choice.transport ?_), value⟩
            intro other member isOwn
            have different := apart spec List.mem_cons_self own other
              (List.mem_cons_of_mem _ member) isOwn
            refine exists_congr fun key => and_congr_right fun initarg => ?_
            have apartKey : key ≠ spec.slotName := fun same => different (same ▸ initarg)
            rw [Present, Present, lookup_pair, if_neg apartKey]

section Made

variable (tables : Tables) (types : List Symbol) (initargs : List Obj)

/-- A value for a key: one that is supplied, else the first one in the default initargs. -/
def Given (key value : Obj) : Prop :=
  (key, value) ∈ pairs initargs ∨
    (∀ other, (key, other) ∉ pairs initargs) ∧ (tables.defaults types).lookup key = some value

def IsGiven (key : Obj) : Prop :=
  ∃ value, Given tables types initargs key value

structure Unsupplied (slot : Obj) : Prop where
  initarg : ∀ key, tables.slotInitarg types slot = some key → ¬ IsGiven tables types initargs key
  name : ¬ IsGiven tables types initargs slot

/-- The value of a slot in a new condition. -/
inductive Initial (call : Obj → Obj) (slot : Obj) : Obj → Prop
  | initarg {key value : Obj} (initarg : tables.slotInitarg types slot = some key)
      (given : Given tables types initargs key value) : Initial call slot value
  | name {value : Obj}
      (initarg : ∀ key, tables.slotInitarg types slot = some key →
        ¬ IsGiven tables types initargs key)
      (given : Given tables types initargs slot value) : Initial call slot value
  | initform {spec : InitformSpec} (unsupplied : Unsupplied tables types initargs slot)
      (choice : InitformFor (IsGiven tables types initargs) slot (tables.initforms types)
        (some spec)) : Initial call slot (call spec.thunk)
  | unbound (unsupplied : Unsupplied tables types initargs slot)
      (choice : InitformFor (IsGiven tables types initargs) slot (tables.initforms types) none) :
      Initial call slot .nil

/-- No initarg of the slot is the name of another slot with an initform. -/
structure Apart (slot : Obj) : Prop where
  initarg : ∀ spec ∈ tables.initforms types, spec.slotName ≠ slot →
    tables.slotInitarg types slot ≠ some spec.slotName
  own : OwnInitargsApart (tables.initforms types) slot

def HoldsGiven (slots : Alist) : Prop :=
  ∀ key, slots.lookup key =
    ((pairs initargs).reverse.lookup key).or ((tables.defaults types).lookup key)

end Made

theorem lookup_mem {Key Value : Type} [DecidableEq Key] {entries : List (Key × Value)} {key : Key}
    {value : Value} (found : entries.lookup key = some value) : (key, value) ∈ entries := by
  obtain ⟨before, after, rfl, -⟩ := List.lookup_eq_some_iff.mp found
  simp

theorem lookup_not_mem {slots : Alist} {key : Obj} (missing : slots.lookup key = none)
    (value : Obj) : (key, value) ∉ slots := by
  intro member
  have different := List.lookup_eq_none_iff.mp missing _ member
  exact absurd different (by simp)

section Made

variable {tables : Tables} {types : List Symbol} {initargs : List Obj} {slots : Alist}

theorem HoldsGiven.given (holds : HoldsGiven tables types initargs slots) {key value : Obj}
    (found : slots.lookup key = some value) : Given tables types initargs key value := by
  rw [holds key] at found
  cases supplied : (pairs initargs).reverse.lookup key with
  | some first =>
      rw [supplied] at found
      cases found
      exact .inl (List.mem_reverse.mp (lookup_mem supplied))
  | none =>
      rw [supplied] at found
      exact .inr ⟨fun other member => lookup_not_mem supplied other (List.mem_reverse.mpr member),
        found⟩

theorem HoldsGiven.present_iff (holds : HoldsGiven tables types initargs slots) (key : Obj) :
    Present slots key ↔ IsGiven tables types initargs key := by
  refine ⟨fun present => ?_, ?_⟩
  · obtain ⟨value, found⟩ := Option.isSome_iff_exists.mp present
    exact ⟨value, holds.given found⟩
  · rintro ⟨value, given⟩
    rw [Present, holds key]
    cases supplied : (pairs initargs).reverse.lookup key with
    | some first => rfl
    | none =>
        obtain member | ⟨-, default⟩ := given
        · exact absurd (List.mem_reverse.mpr member) (lookup_not_mem supplied value)
        · rw [default]
          rfl

theorem HoldsGiven.not_given (holds : HoldsGiven tables types initargs slots) {key : Obj}
    (missing : slots.lookup key = none) : ¬ IsGiven tables types initargs key := by
  intro given
  have present := (holds.present_iff key).mpr given
  rw [Present, missing] at present
  cases present

theorem HoldsGiven.initial_name (holds : HoldsGiven tables types initargs slots) {slot : Obj}
    (apart : Apart tables types slot) (call : Obj → Obj)
    (initarg : ∀ key, tables.slotInitarg types slot = some key →
      ¬ IsGiven tables types initargs key) :
    Initial tables types initargs call slot
      (((applySpecs call (tables.initforms types) slots).lookup slot).getD .nil) := by
  cases found : slots.lookup slot with
  | some value =>
      rw [applySpecs_present _ found]
      exact .name initarg (holds.given found)
  | none =>
      have unsupplied : Unsupplied tables types initargs slot := ⟨initarg, holds.not_given found⟩
      obtain ⟨chosen, choice, value⟩ := applySpecs_absent apart.own call found
      have agree : ∀ own, Taken (Present slots) own ↔ Taken (IsGiven tables types initargs) own :=
        fun own => exists_congr fun key => and_congr_right fun _ => holds.present_iff key
      have choice' := choice.transport fun own _ _ => agree own
      rw [value]
      cases chosen with
      | none => exact .unbound unsupplied choice'
      | some spec => exact .initform unsupplied choice'

theorem HoldsGiven.initial (holds : HoldsGiven tables types initargs slots) {slot : Obj}
    (apart : Apart tables types slot) (call : Obj → Obj) :
    Initial tables types initargs call slot
      (readSlot (applySpecs call (tables.initforms types) slots) slot
        (tables.slotInitarg types slot)) := by
  rw [readSlot_eq]
  cases initarg : tables.slotInitarg types slot with
  | none =>
      exact holds.initial_name apart call fun key same => nomatch initarg.symm.trans same
  | some key =>
      rw [Option.bind_some]
      cases found : slots.lookup key with
      | some value =>
          rw [applySpecs_present _ found]
          exact .initarg initarg (holds.given found)
      | none =>
          have named := holds.initial_name apart call fun other same => by
            cases initarg.symm.trans same
            exact holds.not_given found
          by_cases same : key = slot
          · rw [same, Option.or_self]
            exact named
          · have other : ∀ spec ∈ tables.initforms types, spec.slotName ≠ key := by
              intro spec member isKey
              have different : spec.slotName ≠ slot := fun isSlot => same (isKey.symm.trans isSlot)
              exact apart.initarg spec member different (isKey ▸ initarg)
            rw [applySpecs_other other, found]
            exact named

end Made

section Calls

variable {tables : Tables} {types : List Symbol} {rounds : Nat}

end Calls

/-- A rank above the ranks of the parents, for the types of `build_hierarchy`. -/
def rank : Symbol → Nat
  | .builtin .condition => 0
  | .builtin .warning | .builtin .seriousCondition | .builtin .simpleCondition => 1
  | .builtin .error | .builtin .storageCondition | .builtin .styleWarning => 2
  | .builtin .typeError | .builtin .arithmeticError | .builtin .cellError => 3
  | .builtin .streamError | .builtin .parseError => 3
  | .builtin _ => 4
  | .user id => 5 + id

def x : Obj := .symbol (.user 1)
def y : Obj := .symbol (.user 2)
def z : Obj := .symbol (.user 3)

/-- The keyword of `x`. -/
def keyX : Obj := .symbol (.user 4)

/-- The keyword of `y`. -/
def keyY : Obj := .symbol (.user 5)

/-- A type with `x`, a type with `y`, one that inherits from both and has a slot `z` with the
initarg of `x`, and one that declares the inherited `x` with another initarg. -/
def definitions : List Definition :=
  [⟨.user 10, [], [⟨x, [keyX], none⟩], []⟩,
    ⟨.user 11, [], [⟨y, [keyY], none⟩], []⟩,
    ⟨.user 12, [.user 10, .user 11], [⟨z, [keyX], none⟩], []⟩,
    ⟨.user 13, [.user 10], [⟨x, [keyY], none⟩], []⟩]

end ClAmiga.Condition.Slots
