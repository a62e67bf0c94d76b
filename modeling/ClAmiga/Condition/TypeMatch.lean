import ClAmiga.Graph.Acyclic
import ClAmiga.Struct.RegistrySpec

/-!
# Condition types and handler types

A handler type is a condition type, an alias, or an `OR` or `AND` of handler types.  A condition
type is matched against it along all of its registered parents.  Nothing stops the walk where a type
is registered among its own ancestors; only the expansions of aliases are counted.
-/

namespace ClAmiga.Condition.TypeMatch

open ClAmiga.Graph (Reach LeadsToNoCycle)

/-- The symbols of `build_hierarchy` and of the type specifiers. -/
inductive Builtin where
  | t | or | and | condition | simpleCondition | warning | simpleWarning | styleWarning
  | seriousCondition | storageCondition | error | simpleError | typeError | simpleTypeError
  | programError | controlError | arithmeticError | divisionByZero | floatingPointInvalid
  | floatingPointInexact | floatingPointUnderflow | floatingPointOverflow | cellError
  | unboundVariable | undefinedFunction | unboundSlot | streamError | socketTimeout | endOfFile
  | fileError | packageError | parseError | readerError | printNotReadable
deriving DecidableEq, Repr

inductive Symbol where
  | builtin (name : Builtin)
  | user (id : Nat)
deriving DecidableEq, Repr

inductive Obj where
  | nil
  | symbol (name : Symbol)
  | cons (car cdr : Obj)
  | other (id : Nat)
deriving DecidableEq, Repr

def Obj.list (elements : List Obj) : Obj :=
  elements.foldr .cons .nil

/-- `SYM_T` -/
def symT : Symbol := .builtin .t

/-- `SYM_OR` -/
def symOr : Obj := .symbol (.builtin .or)

/-- `SYM_AND` -/
def symAnd : Obj := .symbol (.builtin .and)

/-- `condition_hierarchy` -/
abbrev Hierarchy := List (Symbol × List Symbol)

/-- `build_hierarchy` -/
def buildHierarchy : Hierarchy :=
  List.reverse
    (List.map (fun entry => (.builtin entry.1, entry.2.map .builtin))
      [(Builtin.printNotReadable, [Builtin.error]),
        (.readerError, [.parseError, .streamError]),
        (.parseError, [.error]),
        (.packageError, [.error]),
        (.fileError, [.error]),
        (.endOfFile, [.streamError]),
        (.socketTimeout, [.streamError]),
        (.streamError, [.error]),
        (.unboundSlot, [.cellError]),
        (.undefinedFunction, [.cellError]),
        (.unboundVariable, [.cellError]),
        (.cellError, [.error]),
        (.storageCondition, [.seriousCondition]),
        (.divisionByZero, [.arithmeticError]),
        (.floatingPointOverflow, [.arithmeticError]),
        (.floatingPointUnderflow, [.arithmeticError]),
        (.floatingPointInexact, [.arithmeticError]),
        (.floatingPointInvalid, [.arithmeticError]),
        (.arithmeticError, [.error]),
        (.controlError, [.error]),
        (.programError, [.error]),
        (.typeError, [.error]),
        (.simpleTypeError, [.typeError, .simpleCondition]),
        (.simpleError, [.error, .simpleCondition]),
        (.styleWarning, [.warning]),
        (.simpleWarning, [.warning, .simpleCondition]),
        (.error, [.seriousCondition]),
        (.seriousCondition, [.condition]),
        (.simpleCondition, [.condition]),
        (.warning, [.condition]),
        (.condition, [])])

/-- The entry that `bi_register_condition_type` puts in front. -/
def registerConditionType (hierarchy : Hierarchy) (name : Symbol) (parents : List Symbol) :
    Hierarchy :=
  (name, parents) :: hierarchy

/-- `DEFINE-CONDITION`, as far as it concerns the hierarchy. -/
def defineCondition (hierarchy : Hierarchy) (definition : Symbol × List Symbol) : Hierarchy :=
  registerConditionType hierarchy definition.1
    (if definition.2 = [] then [.builtin .condition] else definition.2)

def hierarchyAfter (definitions : List (Symbol × List Symbol)) : Hierarchy :=
  definitions.foldl defineCondition buildHierarchy

/-- How the index over the hierarchy is hashed, and whether it had to be disabled. -/
structure Index where
  hash : Symbol → Nat
  disabled : Bool

/-- `cl_alist_index_find`: a probe of the rebuilt index, in which the first entry of a key wins, or
the linear walk. -/
def clAlistIndexFind (index : Index) (hierarchy : Hierarchy) (key : Symbol) :
    Option (List Symbol) :=
  if index.disabled then hierarchy.lookup key
  else
    let cap := Struct.capFor hierarchy.length
    Probe.lookup (Probe.build cap index.hash hierarchy) cap (index.hash key) key 0 cap

/-- `find_parents` -/
def findParents (index : Index) (hierarchy : Hierarchy) (typeSym : Symbol) : List Symbol :=
  (clAlistIndexFind index hierarchy typeSym).getD []

theorem clAlistIndexFind_eq (index : Index) (hierarchy : Hierarchy) (key : Symbol) :
    clAlistIndexFind index hierarchy key = hierarchy.lookup key := by
  unfold clAlistIndexFind
  split
  · rfl
  · exact Probe.lookup_build (Struct.le_capFor _) key

/-- What ends a match without an answer: the rounds are used up, or `cl_cdr` of no list. -/
inductive Stop where
  | rounds
  | notList
deriving DecidableEq, Repr

def orLoop (matched : Obj → Except Stop Bool) : Obj → Except Stop Bool
  | .nil => .ok false
  | .cons car cdr => do if ← matched car then return true else orLoop matched cdr
  | _ => .error .notList

def andLoop (matched : Obj → Except Stop Bool) : Obj → Except Stop Bool
  | .nil => .ok true
  | .cons car cdr => do if ← matched car then andLoop matched cdr else return false
  | _ => .error .notList

/-- The walk along the parents. -/
def parentLoop (matched : Symbol → Except Stop Bool) : List Symbol → Except Stop Bool
  | [] => .ok false
  | parent :: parents => do if ← matched parent then return true else parentLoop matched parents

section Match

variable (index : Index) (hierarchy : Hierarchy) (expander : Symbol → Option Obj)

/-- `cond_type_matches_depth`, for a bounded number of nested calls.  An expander is given by what
it returns. -/
def condTypeMatchesDepth : Nat → Symbol → Obj → Nat → Except Stop Bool
  | 0, _, _, _ => .error .rounds
  | rounds + 1, condType, handlerType, depth =>
      if handlerType = .symbol symT then .ok true
      else if .symbol condType = handlerType then .ok true
      else
        match handlerType with
        | .cons head rest =>
            if head = symOr then
              orLoop (fun spec => condTypeMatchesDepth rounds condType spec depth) rest
            else if head = symAnd then
              andLoop (fun spec => condTypeMatchesDepth rounds condType spec depth) rest
            else .ok false
        | handlerType => do
            if ← parentLoop (fun parent => condTypeMatchesDepth rounds parent handlerType depth)
                (findParents index hierarchy condType) then
              return true
            else
              match handlerType with
              | .symbol name =>
                  if depth < 8 then
                    match expander name with
                    | some expanded =>
                        if expanded ≠ .nil ∧ expanded ≠ handlerType then
                          condTypeMatchesDepth rounds condType expanded (depth + 1)
                        else return false
                    | none => return false
                  else return false
              | _ => return false

/-- `cl_condition_type_matches` -/
def clConditionTypeMatches (rounds : Nat) (condType : Symbol) (handlerType : Obj) :
    Except Stop Bool :=
  condTypeMatchesDepth index hierarchy expander rounds condType handlerType 0

end Match

/-- The condition types that a specifier denotes: for a name those from which it is reached along
the most recent parents, for an alias those of its expansion. -/
inductive Denotes (hierarchy : Hierarchy) (expander : Symbol → Option Obj) :
    Obj → Symbol → Prop where
  | t (condType : Symbol) : Denotes hierarchy expander (.symbol symT) condType
  | name {name condType : Symbol}
      (reached : Reach (fun name => (hierarchy.lookup name).getD []) condType name) :
      Denotes hierarchy expander (.symbol name) condType
  | expansion {name condType : Symbol} {expanded : Obj} (expands : expander name = some expanded)
      (denotes : Denotes hierarchy expander expanded condType) :
      Denotes hierarchy expander (.symbol name) condType
  | or {specs : List Obj} {spec : Obj} {condType : Symbol} (member : spec ∈ specs)
      (denotes : Denotes hierarchy expander spec condType) :
      Denotes hierarchy expander (.cons symOr (.list specs)) condType
  | and {specs : List Obj} {condType : Symbol}
      (all : ∀ spec ∈ specs, Denotes hierarchy expander spec condType) :
      Denotes hierarchy expander (.cons symAnd (.list specs)) condType

/-- The specifiers of names, aliases, `T`, `OR` and `AND`, with expansions nested so deep. -/
inductive Specifier (expander : Symbol → Option Obj) : Nat → Obj → Prop where
  | empty (nesting : Nat) : Specifier expander nesting .nil
  | t (nesting : Nat) : Specifier expander nesting (.symbol symT)
  | name {name : Symbol} (nesting : Nat) (noAlias : expander name = none) :
      Specifier expander nesting (.symbol name)
  | expansion {name : Symbol} {expanded : Obj} {nesting : Nat}
      (expands : expander name = some expanded) (within : Specifier expander nesting expanded) :
      Specifier expander (nesting + 1) (.symbol name)
  | or {nesting : Nat} {specs : List Obj}
      (all : ∀ spec ∈ specs, Specifier expander nesting spec) :
      Specifier expander nesting (.cons symOr (.list specs))
  | and {nesting : Nat} {specs : List Obj}
      (all : ∀ spec ∈ specs, Specifier expander nesting spec) :
      Specifier expander nesting (.cons symAnd (.list specs))

def firstLoop {Item : Type} (stop : Bool) (matched : Item → Except Stop Bool) :
    List Item → Except Stop Bool
  | [] => .ok !stop
  | item :: items =>
      matched item >>= fun found =>
        if found = stop then pure stop else firstLoop stop matched items

theorem orLoop_eq (matched : Obj → Except Stop Bool) (specs : List Obj) :
    orLoop matched (.list specs) = firstLoop true matched specs := by
  induction specs with
  | nil => rfl
  | cons spec specs induction =>
      rw [firstLoop, ← induction]
      rfl

theorem andLoop_eq (matched : Obj → Except Stop Bool) (specs : List Obj) :
    andLoop matched (.list specs) = firstLoop false matched specs := by
  induction specs with
  | nil => rfl
  | cons spec specs induction =>
      rw [firstLoop, ← induction]
      change (matched spec >>= fun found =>
        if found = true then andLoop matched (.list specs) else pure false) = _
      refine congrArg (matched spec >>= ·) (funext fun found => ?_)
      cases found <;> rfl

theorem parentLoop_eq (matched : Symbol → Except Stop Bool) (parents : List Symbol) :
    parentLoop matched parents = firstLoop true matched parents := by
  induction parents with
  | nil => rfl
  | cons parent parents induction =>
      rw [firstLoop, ← induction]
      rfl

theorem firstLoop_ok {Item : Type} {stop : Bool} {matched : Item → Except Stop Bool}
    {items : List Item} {answer : Bool} (run : firstLoop stop matched items = .ok answer) :
    answer = stop ∧ (∃ item ∈ items, matched item = .ok stop) ∨
      answer = (!stop) ∧ ∀ item ∈ items, matched item = .ok !stop := by
  induction items with
  | nil => exact .inr ⟨(Except.ok.inj run).symm, nofun⟩
  | cons item items induction =>
      rw [firstLoop] at run
      cases first : matched item with
      | error stop =>
          rw [first] at run
          cases run
      | ok found =>
          rw [first] at run
          change (if found = stop then pure stop else firstLoop stop matched items) = _ at run
          split at run
          case isTrue same =>
              exact .inl ⟨(Except.ok.inj run).symm, item, List.mem_cons_self, same ▸ first⟩
          case isFalse different =>
              rcases induction run with ⟨yes, other, member, found⟩ | ⟨no, none⟩
              · exact .inl ⟨yes, other, List.mem_cons_of_mem _ member, found⟩
              · rw [Bool.eq_not_of_ne different] at first
                exact .inr ⟨no, List.forall_mem_cons.mpr ⟨first, none⟩⟩

theorem list_injective {first second : List Obj} (same : Obj.list first = Obj.list second) :
    first = second := by
  induction first generalizing second with
  | nil =>
      cases second with
      | nil => rfl
      | cons head tail => cases same
  | cons head tail induction =>
      cases second with
      | nil => cases same
      | cons head' tail' =>
          obtain ⟨rfl, rest⟩ := Obj.cons.inj same
          rw [induction rest]

section Exact

variable {index : Index} {hierarchy : Hierarchy} {expander : Symbol → Option Obj}

theorem findParents_eq (index : Index) (hierarchy : Hierarchy) (condType : Symbol) :
    findParents index hierarchy condType = (hierarchy.lookup condType).getD [] := by
  rw [findParents, clAlistIndexFind_eq]

theorem Denotes.of_parent {spec : Obj} {parent condType : Symbol}
    (edge : parent ∈ (hierarchy.lookup condType).getD [])
    (denotes : Denotes hierarchy expander spec parent) :
    Denotes hierarchy expander spec condType := by
  induction denotes with
  | t => exact .t condType
  | name reached => exact .name (.head edge reached)
  | expansion expands denotes induction => exact .expansion expands (induction edge)
  | or member denotes induction => exact .or member (induction edge)
  | and all induction => exact .and fun spec member => induction spec member edge

theorem denotes_nil (condType : Symbol) : ¬ Denotes hierarchy expander .nil condType :=
  nofun

theorem denotes_or {specs : List Obj} {condType : Symbol} :
    Denotes hierarchy expander (.cons symOr (.list specs)) condType ↔
      ∃ spec ∈ specs, Denotes hierarchy expander spec condType := by
  constructor
  · intro denotes
    generalize shape : Obj.cons symOr (.list specs) = whole at denotes
    cases denotes with
    | or member denotes =>
        obtain rfl := list_injective (Obj.cons.inj shape).2
        exact ⟨_, member, denotes⟩
    | and all => cases (Obj.cons.inj shape).1
    | t => cases shape
    | name reached => cases shape
    | expansion expands denotes => cases shape
  · rintro ⟨spec, member, denotes⟩
    exact .or member denotes

theorem denotes_and {specs : List Obj} {condType : Symbol} :
    Denotes hierarchy expander (.cons symAnd (.list specs)) condType ↔
      ∀ spec ∈ specs, Denotes hierarchy expander spec condType := by
  constructor
  · intro denotes
    generalize shape : Obj.cons symAnd (.list specs) = whole at denotes
    cases denotes with
    | or member denotes => cases (Obj.cons.inj shape).1
    | and all =>
        obtain rfl := list_injective (Obj.cons.inj shape).2
        exact all
    | t => cases shape
    | name reached => cases shape
    | expansion expands denotes => cases shape
  · exact .and

theorem denotes_symbol {name condType : Symbol} (notT : name ≠ symT) (other : condType ≠ name) :
    Denotes hierarchy expander (.symbol name) condType ↔
      (∃ parent ∈ (hierarchy.lookup condType).getD [],
        Denotes hierarchy expander (.symbol name) parent) ∨
      ∃ expanded, expander name = some expanded ∧ Denotes hierarchy expander expanded condType := by
  constructor
  · intro denotes
    cases denotes with
    | t => exact absurd rfl notT
    | name reached =>
        rcases Relation.ReflTransGen.cases_head reached with same | ⟨parent, edge, reached⟩
        · exact absurd same other
        · exact .inl ⟨parent, edge, .name reached⟩
    | expansion expands denotes => exact .inr ⟨_, expands, denotes⟩
  · rintro (⟨parent, edge, denotes⟩ | ⟨expanded, expands, denotes⟩)
    · exact denotes.of_parent edge
    · exact .expansion expands denotes

theorem matches_or (rounds : Nat) (condType : Symbol) (specs : List Obj) (depth : Nat) :
    condTypeMatchesDepth index hierarchy expander (rounds + 1) condType
        (.cons symOr (.list specs)) depth =
      orLoop (fun spec => condTypeMatchesDepth index hierarchy expander rounds condType spec depth)
        (.list specs) := by
  rw [condTypeMatchesDepth, if_neg nofun, if_neg nofun]
  exact if_pos rfl

theorem matches_and (rounds : Nat) (condType : Symbol) (specs : List Obj) (depth : Nat) :
    condTypeMatchesDepth index hierarchy expander (rounds + 1) condType
        (.cons symAnd (.list specs)) depth =
      andLoop (fun spec => condTypeMatchesDepth index hierarchy expander rounds condType spec depth)
        (.list specs) := by
  rw [condTypeMatchesDepth, if_neg nofun, if_neg nofun]
  exact (if_neg nofun).trans (if_pos rfl)

/-- What follows the walk along the parents. -/
def expandAlias (index : Index) (hierarchy : Hierarchy) (expander : Symbol → Option Obj)
    (rounds : Nat) (condType name : Symbol) (depth : Nat) : Except Stop Bool :=
  if depth < 8 then
    match expander name with
    | some expanded =>
        if expanded ≠ .nil ∧ expanded ≠ .symbol name then
          condTypeMatchesDepth index hierarchy expander rounds condType expanded (depth + 1)
        else .ok false
    | none => .ok false
  else .ok false

theorem matches_symbol {name condType : Symbol} (notT : name ≠ symT) (other : condType ≠ name)
    (rounds depth : Nat) :
    condTypeMatchesDepth index hierarchy expander (rounds + 1) condType (.symbol name) depth =
      (parentLoop
        (fun parent =>
          condTypeMatchesDepth index hierarchy expander rounds parent (.symbol name) depth)
        (findParents index hierarchy condType) >>= fun found =>
        if found = true then .ok true
        else expandAlias index hierarchy expander rounds condType name depth) := by
  have notT' : Obj.symbol name ≠ .symbol symT := fun same => notT (Obj.symbol.inj same)
  have other' : Obj.symbol condType ≠ .symbol name := fun same => other (Obj.symbol.inj same)
  rw [condTypeMatchesDepth, if_neg notT', if_neg other']
  rfl

theorem matches_nil (rounds : Nat) (condType : Symbol) (depth : Nat) :
    condTypeMatchesDepth index hierarchy expander (rounds + 1) condType .nil depth = (parentLoop
        (fun parent => condTypeMatchesDepth index hierarchy expander rounds parent .nil depth)
        (findParents index hierarchy condType) >>= fun found =>
        if found = true then .ok true else .ok false) := by
  rw [condTypeMatchesDepth, if_neg nofun, if_neg nofun]
  · rfl
  · exact nofun
  · exact nofun

theorem Specifier.expanded {name : Symbol} {expanded : Obj} {nesting : Nat}
    (within : Specifier expander nesting (.symbol name)) (notT : name ≠ symT)
    (expands : expander name = some expanded) :
    ∃ less, nesting = less + 1 ∧ Specifier expander less expanded := by
  cases within with
  | t => exact absurd rfl notT
  | name nesting noAlias =>
      rw [noAlias] at expands
      cases expands
  | expansion expands' within =>
      rw [expands'] at expands
      cases expands
      exact ⟨_, rfl, within⟩

theorem Specifier.not_self {name : Symbol} (notT : name ≠ symT)
    (self : expander name = some (.symbol name)) (nesting : Nat) :
    ¬ Specifier expander nesting (.symbol name) := by
  induction nesting with
  | zero =>
      intro within
      obtain ⟨less, none, -⟩ := within.expanded notT self
      cases none
  | succ nesting induction =>
      intro within
      obtain ⟨less, same, within⟩ := within.expanded notT self
      obtain rfl := Nat.succ.inj same
      exact induction within

/-- An alias matches as its expansion does. -/
theorem expandAlias_exact {rounds : Nat} {condType name : Symbol} {depth : Nat} {answer : Bool}
    (notT : name ≠ symT) (within : Specifier expander (8 - depth) (.symbol name))
    (exact : ∀ {expanded : Obj} {answer : Bool}, Specifier expander (8 - (depth + 1)) expanded →
      condTypeMatchesDepth index hierarchy expander rounds condType expanded (depth + 1) =
        .ok answer → (answer = true ↔ Denotes hierarchy expander expanded condType))
    (run : expandAlias index hierarchy expander rounds condType name depth = .ok answer) :
    answer = true ↔ ∃ expanded, expander name = some expanded ∧
      Denotes hierarchy expander expanded condType := by
  unfold expandAlias at run
  cases expands : expander name with
  | none =>
      have no : answer = false := by
        rw [expands] at run
        split at run <;> exact (Except.ok.inj run).symm
      simp [no]
  | some expanded =>
      obtain ⟨less, deeper, within'⟩ := within.expanded notT expands
      obtain rfl : less = 8 - (depth + 1) := by omega
      rw [if_pos (by omega), expands] at run
      dsimp only at run
      split at run
      · rw [exact within' run]
        simp
      · rename_i stays
        obtain rfl := Except.ok.inj run
        rw [not_and_or, not_not, not_not] at stays
        refine iff_of_false nofun ?_
        rintro ⟨expanded', same, denotes⟩
        cases same
        rcases stays with rfl | rfl
        · exact denotes_nil condType denotes
        · exact Specifier.not_self notT expands _ within

/-- An answer of the walk is right, by induction on its rounds. -/
theorem condTypeMatchesDepth_exact (rounds : Nat) :
    ∀ {condType : Symbol} {spec : Obj} {depth : Nat} {answer : Bool},
      Specifier expander (8 - depth) spec →
      condTypeMatchesDepth index hierarchy expander rounds condType spec depth = .ok answer →
      (answer = true ↔ Denotes hierarchy expander spec condType) := by
  induction rounds with
  | zero =>
      intro condType spec depth answer _ run
      cases run
  | succ rounds induction =>
      intro condType spec depth answer within run
      cases spec with
      | nil =>
          rw [matches_nil] at run
          have never : answer = false := by
            cases loop : parentLoop (fun parent => condTypeMatchesDepth index hierarchy expander
                rounds parent .nil depth) (findParents index hierarchy condType) with
            | error stop =>
                rw [loop] at run
                cases run
            | ok found =>
                rw [loop] at run
                rw [parentLoop_eq] at loop
                rcases firstLoop_ok loop with ⟨rfl, parent, -, yes⟩ | ⟨rfl, -⟩
                · exact absurd ((induction within yes).mp rfl) (denotes_nil parent)
                · exact (Except.ok.inj run).symm
          exact iff_of_false (by simp [never]) (denotes_nil condType)
      | symbol name =>
          by_cases isT : name = symT
          · subst isT
            rw [condTypeMatchesDepth, if_pos rfl] at run
            exact iff_of_true (Except.ok.inj run).symm (.t condType)
          by_cases same : condType = name
          · subst same
            have notT : Obj.symbol condType ≠ .symbol symT := fun eq => isT (Obj.symbol.inj eq)
            rw [condTypeMatchesDepth, if_neg notT, if_pos rfl] at run
            exact iff_of_true (Except.ok.inj run).symm (.name .refl)
          rw [matches_symbol isT same, findParents_eq] at run
          rw [denotes_symbol isT same]
          cases loop : parentLoop (fun parent => condTypeMatchesDepth index hierarchy expander
              rounds parent (.symbol name) depth) ((hierarchy.lookup condType).getD []) with
          | error stop =>
              rw [loop] at run
              cases run
          | ok found =>
              rw [loop] at run
              rw [parentLoop_eq] at loop
              rcases firstLoop_ok loop with ⟨rfl, parent, edge, yes⟩ | ⟨rfl, none⟩
              · refine iff_of_true (Except.ok.inj run).symm (.inl ⟨parent, edge, ?_⟩)
                exact (induction within yes).mp rfl
              · have noParent : ¬ ∃ parent ∈ (hierarchy.lookup condType).getD [],
                    Denotes hierarchy expander (.symbol name) parent := by
                  rintro ⟨parent, edge, denotes⟩
                  cases (induction within (none parent edge)).mpr denotes
                rw [or_iff_right noParent]
                exact expandAlias_exact isT within induction run
      | cons head rest =>
          generalize nests : 8 - depth = nesting at within
          cases within with
          | or all =>
              subst nests
              rw [matches_or, orLoop_eq] at run
              rw [denotes_or]
              rcases firstLoop_ok run with ⟨rfl, spec, member, yes⟩ | ⟨rfl, none⟩
              · refine iff_of_true rfl ⟨spec, member, ?_⟩
                exact (induction (all spec member) yes).mp rfl
              · refine iff_of_false nofun ?_
                rintro ⟨spec, member, denotes⟩
                cases (induction (all spec member) (none spec member)).mpr denotes
          | and all =>
              subst nests
              rw [matches_and, andLoop_eq] at run
              rw [denotes_and]
              rcases firstLoop_ok run with ⟨rfl, spec, member, no⟩ | ⟨rfl, every⟩
              · refine iff_of_false nofun fun denotes => ?_
                cases (induction (all spec member) no).mpr (denotes spec member)
              · refine iff_of_true rfl fun spec member => ?_
                exact (induction (all spec member) (every spec member)).mp rfl
      | other id =>
          generalize 8 - depth = nesting at within
          cases within

def Ends (run : Nat → Except Stop Bool) : Prop :=
  ∃ answer bound, ∀ rounds, bound ≤ rounds → run rounds = .ok answer

theorem Ends.succ {run : Nat → Except Stop Bool} (ends : Ends fun rounds => run (rounds + 1)) :
    Ends run := by
  obtain ⟨answer, bound, runs⟩ := ends
  refine ⟨answer, bound + 1, fun rounds more => ?_⟩
  cases rounds with
  | zero => exact absurd more (Nat.not_succ_le_zero bound)
  | succ rounds => exact runs rounds (Nat.le_of_succ_le_succ more)

theorem Ends.ok (answer : Bool) : Ends fun _ => .ok answer :=
  ⟨answer, 0, fun _ _ => rfl⟩

theorem Ends.bind {run : Nat → Except Stop Bool} {next : Nat → Bool → Except Stop Bool}
    (first : Ends run) (second : ∀ found, Ends fun rounds => next rounds found) :
    Ends fun rounds => run rounds >>= next rounds := by
  obtain ⟨found, bound, runs⟩ := first
  obtain ⟨answer, bound', runs'⟩ := second found
  refine ⟨answer, max bound bound', fun rounds more => ?_⟩
  change run rounds >>= next rounds = _
  rw [runs rounds (le_of_max_le_left more)]
  exact runs' rounds (le_of_max_le_right more)

theorem firstLoop_ends {Item : Type} {stop : Bool} {matched : Nat → Item → Except Stop Bool}
    {items : List Item} (ends : ∀ item ∈ items, Ends fun rounds => matched rounds item) :
    Ends fun rounds => firstLoop stop (matched rounds) items := by
  induction items with
  | nil => exact .ok !stop
  | cons item items induction =>
      refine (ends item List.mem_cons_self).bind fun found => ?_
      split
      · exact .ok stop
      · exact induction fun item member => ends item (List.mem_cons_of_mem _ member)

theorem symbol_ends {name : Symbol} {depth : Nat} (expands : ∀ {condType : Symbol},
      Acc (fun parent condType => parent ∈ (hierarchy.lookup condType).getD []) condType →
      Ends fun rounds => expandAlias index hierarchy expander rounds condType name depth)
    {condType : Symbol}
    (acc : Acc (fun parent condType => parent ∈ (hierarchy.lookup condType).getD []) condType) :
    Ends fun rounds =>
      condTypeMatchesDepth index hierarchy expander rounds condType (.symbol name) depth := by
  induction acc with
  | intro condType below induction =>
      refine Ends.succ ?_
      by_cases isT : name = symT
      · subst isT
        exact .ok true
      by_cases same : condType = name
      · subst same
        have notT : Obj.symbol condType ≠ .symbol symT := fun eq => isT (Obj.symbol.inj eq)
        simp only [condTypeMatchesDepth, if_neg notT, if_true]
        exact .ok true
      simp only [matches_symbol isT same, findParents_eq, parentLoop_eq]
      refine (firstLoop_ends induction).bind fun found => ?_
      cases found with
      | true => exact .ok true
      | false => exact expands (.intro condType below)

theorem nil_ends {depth : Nat} {condType : Symbol}
    (acc : Acc (fun parent condType => parent ∈ (hierarchy.lookup condType).getD []) condType) :
    Ends fun rounds =>
      condTypeMatchesDepth index hierarchy expander rounds condType .nil depth := by
  induction acc with
  | intro condType below induction =>
      refine Ends.succ ?_
      simp only [matches_nil, findParents_eq, parentLoop_eq]
      refine (firstLoop_ends induction).bind fun found => ?_
      cases found with
      | true => exact .ok true
      | false => exact .ok false

/-- Inside a specifier and its expansions, and for each name along the parents. -/
theorem condTypeMatchesDepth_ends {nesting : Nat} {spec : Obj}
    (within : Specifier expander nesting spec) :
    ∀ {condType : Symbol} {depth : Nat},
      Acc (fun parent condType => parent ∈ (hierarchy.lookup condType).getD []) condType →
      8 - depth = nesting →
      Ends fun rounds =>
        condTypeMatchesDepth index hierarchy expander rounds condType spec depth := by
  induction within with
  | empty nesting => exact fun acc _ => nil_ends acc
  | t nesting => exact fun _ _ => Ends.succ (.ok true)
  | @name name nesting noAlias =>
      intro condType depth acc _
      refine symbol_ends (fun _ => ?_) acc
      simp only [expandAlias, noAlias, ite_self]
      exact .ok false
  | @expansion name expanded nesting expands within induction =>
      intro condType depth acc nests
      refine symbol_ends (fun acc => ?_) acc
      have shallow : depth < 8 := by omega
      simp only [expandAlias, expands, if_pos shallow]
      split
      · exact induction acc (by omega)
      · exact .ok false
  | or all induction =>
      intro condType depth acc nests
      refine Ends.succ ?_
      simp only [matches_or, orLoop_eq]
      exact firstLoop_ends fun spec member => induction spec member acc nests
  | and all induction =>
      intro condType depth acc nests
      refine Ends.succ ?_
      simp only [matches_and, andLoop_eq]
      exact firstLoop_ends fun spec member => induction spec member acc nests

end Exact

def parentsAfter (definitions : List (Symbol × List Symbol)) (name : Symbol) : List Symbol :=
  ((hierarchyAfter definitions).lookup name).getD []

theorem lookup_support (hierarchy : Hierarchy) (name : Symbol)
    (parents : (hierarchy.lookup name).getD [] ≠ []) :
    name ∈ (hierarchy.map Prod.fst).toFinset := by
  cases found : hierarchy.lookup name with
  | none =>
      rw [found] at parents
      exact absurd rfl parents
  | some entry =>
      obtain ⟨before, after, rfl, -⟩ := List.lookup_eq_some_iff.mp found
      simp

/-- An answer is right, and there is one for every type that does not lead into a cycle. -/
theorem conditionTypeMatches_exact (index : Index) (definitions : List (Symbol × List Symbol))
    (expander : Symbol → Option Obj) {spec : Obj} (within : Specifier expander 8 spec)
    (condType : Symbol) :
    (∀ rounds answer,
        clConditionTypeMatches index (hierarchyAfter definitions) expander rounds condType spec =
          .ok answer →
        (answer = true ↔ Denotes (hierarchyAfter definitions) expander spec condType)) ∧
      (LeadsToNoCycle (parentsAfter definitions) condType →
        Ends fun rounds => clConditionTypeMatches index (hierarchyAfter definitions) expander rounds
          condType spec) := by
  refine ⟨fun rounds answer run => condTypeMatchesDepth_exact rounds within run, ?_⟩
  intro noCycle
  refine condTypeMatchesDepth_ends within ?_ rfl
  exact noCycle.acc (lookup_support (hierarchyAfter definitions))

def linear : Index where
  hash _ := 0
  disabled := true

def noAliases (_ : Symbol) : Option Obj :=
  none

/-- A type whose second parent is `ERROR`. -/
def socketDefinitions : List (Symbol × List Symbol) :=
  [(.user 0, []), (.user 1, [.user 0, .builtin .error])]

/-- A type that reaches ERROR through its second parent. -/
theorem conditionTypeMatches_exact_second :
    Denotes (hierarchyAfter socketDefinitions) noAliases (.symbol (.builtin .error)) (.user 1) :=
  ((conditionTypeMatches_exact linear socketDefinitions noAliases (.name 8 rfl) (.user 1)).1 4 true
    rfl).mp rfl

def cyclicDefinitions : List (Symbol × List Symbol) :=
  [(.user 0, [.user 1]), (.user 1, [.user 0])]

theorem cyclic_rounds (rounds : Nat) :
    clConditionTypeMatches linear (hierarchyAfter cyclicDefinitions) noAliases rounds (.user 0)
        (.symbol (.builtin .error)) = .error .rounds ∧
      clConditionTypeMatches linear (hierarchyAfter cyclicDefinitions) noAliases rounds (.user 1)
        (.symbol (.builtin .error)) = .error .rounds := by
  unfold clConditionTypeMatches
  induction rounds with
  | zero => exact ⟨rfl, rfl⟩
  | succ rounds induction =>
      obtain ⟨first, second⟩ := induction
      have parent : findParents linear (hierarchyAfter cyclicDefinitions) (.user 0) = [.user 1] :=
        rfl
      have parent' : findParents linear (hierarchyAfter cyclicDefinitions) (.user 1) = [.user 0] :=
        rfl
      have notT : Symbol.builtin .error ≠ symT := by decide
      refine ⟨?_, ?_⟩
      · rw [matches_symbol notT (by decide), parent, parentLoop, second]
        rfl
      · rw [matches_symbol notT (by decide), parent', parentLoop, first]
        rfl

/-- The match of such a type with another one has no answer. -/
theorem cyclic_endless : ¬ ∀ (index : Index) (definitions : List (Symbol × List Symbol))
        (expander : Symbol → Option Obj) (spec : Obj) (condType : Symbol),
      Specifier expander 8 spec →
        Ends fun rounds => clConditionTypeMatches index (hierarchyAfter definitions) expander rounds
          condType spec := by
  intro always
  obtain ⟨answer, bound, runs⟩ := always linear cyclicDefinitions noAliases
    (.symbol (.builtin .error)) (.user 0) (.name 8 rfl)
  exact absurd ((cyclic_rounds bound).1.symm.trans (runs bound (Nat.le_refl _))) nofun

end ClAmiga.Condition.TypeMatch
