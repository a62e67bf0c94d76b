/-!
# The handler stack

`cl_signal_condition` over the flat stack of handler bindings with its 64-bit
active mask.  A running program is reduced to what it does to that stack: it
enters and leaves `HANDLER-BIND` and `HANDLER-CASE` forms, frames that a
transfer can land in, and floor boundaries; it signals; a handler returns,
signals or transfers out.  The open constructs are listed innermost first, and
any order of actions that closes the innermost one is a behaviour.
-/

namespace ClAmiga.Condition

abbrev Mask := BitVec 64

/-- `CL_MAX_HANDLER_BINDINGS`. -/
def maxHandlerBindings : Nat := 64

/-- `CL_HANDLER_BAND_MASK(lo, hi)`.  Shifting a 64-bit word by 64 is undefined:
`hi` is clamped, `lo` is not. -/
def bandMask (lo hi : Nat) : Option Mask :=
  if lo < 64 then
    some ((if hi ≥ 64 then BitVec.allOnes 64 else (1#64 <<< hi) - 1#64) &&&
      ~~~((1#64 <<< lo) - 1#64))
  else none

inductive Handler where
  | function
  /-- A `HANDLER-CASE` clause, with the position of its frame. -/
  | clause (index nlxIndex : Nat)
  deriving DecidableEq

/-- A `CL_HandlerBinding`.  `formMark` and `formMask` record the stack top and
the active mask when the form that owns the binding was entered; the code never
reads them. -/
structure Binding (Ty : Type) where
  typeName : Ty
  handler : Handler
  formMark : Nat
  formMask : Mask
  deriving DecidableEq

inductive Kind (Cond : Type) where
  /-- A `HANDLER-BIND` with the number of bindings pushed so far. -/
  | bind (count : Nat)
  /-- A `HANDLER-CASE`: a frame together with its clause bindings. -/
  | caseForm
  /-- Any other frame with a saved top and mask. -/
  | frame (unwindProtect : Bool)
  /-- A stretch of C code that hides the outer handlers: it raises the floor to
  the stack top and catches every error itself. -/
  | boundary
  /-- An activation of `cl_signal_condition`: the loop goes on below `bound`;
  `tried` lists the handlers called so far, the last one first. -/
  | search (condition : Cond) (bound : Nat) (tried : List Nat)
  /-- The call of the handler at `index`. -/
  | run (index : Nat)
  deriving DecidableEq

/-- An open construct with the stack top, active mask and floor at its entry. -/
structure Region (Cond : Type) where
  mark : Nat
  entry : Mask
  floor : Nat
  kind : Kind Cond
  deriving DecidableEq

structure State (Ty Cond : Type) where
  handlers : List (Binding Ty)
  mask : Mask
  floor : Nat
  control : List (Region Cond)
  deriving DecidableEq

variable {Ty Cond : Type}

def initial : State Ty Cond := ⟨[], 0, 0, []⟩

namespace State

variable (s : State Ty Cond)

def isActive (index : Nat) : Bool := s.mask.getLsbD index

def Eligible (index : Nat) : Prop :=
  s.floor ≤ index ∧ index < s.handlers.length ∧ s.isActive index = true

def enter (kind : Kind Cond) : State Ty Cond :=
  { s with control := ⟨s.handlers.length, s.mask, s.floor, kind⟩ :: s.control }

/-- Add a binding on top and mark it enabled. -/
def pushBinding (typeName : Ty) (handler : Handler) (formMark : Nat)
    (formMask : Mask) : State Ty Cond :=
  { s with
    handlers := s.handlers ++ [⟨typeName, handler, formMark, formMask⟩]
    mask := s.mask ||| (1#64 <<< s.handlers.length) }

/-- Set the stack top to `top` and clear the active bits above it. -/
def popTo (top : Nat) : Option (State Ty Cond) :=
  (bandMask top s.handlers.length).map fun band =>
    { s with handlers := s.handlers.take top, mask := s.mask &&& ~~~band }

/-- `OP_HANDLER_PUSH`, in the innermost `HANDLER-BIND`.  `none` past the limit,
where the code signals an error instead. -/
def handlerPush (typeName : Ty) : Option (State Ty Cond) :=
  match s.control with
  | ⟨mark, entry, floor, .bind count⟩ :: rest =>
      if s.handlers.length ≥ maxHandlerBindings then none
      else some
        { s.pushBinding typeName .function mark entry with
          control := ⟨mark, entry, floor, .bind (count + 1)⟩ :: rest }
  | _ => none

/-- `OP_HANDLER_POP count`. -/
def handlerPop : Option (State Ty Cond) :=
  match s.control with
  | ⟨_, _, _, .bind count⟩ :: rest =>
      (s.popTo (s.handlers.length - count)).map fun popped =>
        { popped with control := rest }
  | _ => none

/-- The clause bindings of `OP_HANDLER_CASE_PUSH`: the last clause first, so
that the first one ends on top. -/
def pushClauses (nlxIndex mark : Nat) (entry : Mask) :
    List Ty → Nat → State Ty Cond → State Ty Cond
  | [], _, s => s
  | typeName :: later, index, s =>
      (pushClauses nlxIndex mark entry later (index + 1) s).pushBinding typeName
        (.clause index nlxIndex) mark entry

/-- `OP_HANDLER_CASE_PUSH`. -/
def handlerCasePush (types : List Ty) : Option (State Ty Cond) :=
  if s.handlers.length + types.length > maxHandlerBindings then none
  else some (pushClauses s.control.length s.handlers.length s.mask types 0
    (s.enter .caseForm))

/-- `OP_HANDLER_CASE_POP`. -/
def handlerCasePop : Option (State Ty Cond) :=
  match s.control with
  | ⟨mark, _, _, .caseForm⟩ :: rest =>
      if mark < s.handlers.length then
        (s.popTo mark).map fun popped => { popped with control := rest }
      else some { s with handlers := s.handlers.take mark, control := rest }
  | _ => none

def leave : Option (State Ty Cond) :=
  match s.control with
  | ⟨_, _, _, .frame _⟩ :: rest => some { s with control := rest }
  | ⟨_, _, savedFloor, .boundary⟩ :: rest =>
      some { s with floor := savedFloor, control := rest }
  | _ => none

/-- Land in the construct at position `depth` of the open ones.  A frame does
not store the floor. -/
def land (depth : Nat) : Option (State Ty Cond) :=
  match s.control[depth]? with
  | some ⟨mark, entry, _, .frame _⟩ | some ⟨mark, entry, _, .caseForm⟩ =>
      some { s with
        handlers := s.handlers.take mark
        mask := entry
        control := s.control.drop (depth + 1) }
  | some ⟨mark, entry, savedFloor, .boundary⟩ =>
      some
        { handlers := s.handlers.take mark
          mask := entry
          floor := savedFloor
          control := s.control.drop (depth + 1) }
  | _ => none

def isUnwindProtect (region : Region Cond) : Bool :=
  match region.kind with
  | .frame unwindProtect => unwindProtect
  | _ => false

/-- `cl_handler_case_transfer`: an interposed `UNWIND-PROTECT` frame is landed
in first.  `none` when the binding has lost its frame. -/
def handlerCaseTransfer (nlxIndex : Nat) : Option (State Ty Cond) :=
  let target := s.control.length - 1 - nlxIndex
  match (s.control[target]?).map Region.kind with
  | some .caseForm =>
      s.land (((s.control.take target).findIdx? isUnwindProtect).getD target)
  | _ => none

/-- One round of the loop in `cl_signal_condition`. -/
def searchStep (typeMatches : Cond → Ty → Bool) : Option (State Ty Cond) :=
  match s.control with
  | ⟨mark, entry, floor, .search condition bound tried⟩ :: rest =>
      if bound ≤ s.floor then some { s with control := rest }
      else
        let index := bound - 1
        match s.handlers[index]? with
        | none => none
        | some binding =>
            if !s.isActive index || !typeMatches condition binding.typeName then
              some { s with
                control :=
                  ⟨mark, entry, floor, .search condition index tried⟩ :: rest }
            else
              match binding.handler with
              | .clause _ nlxIndex => s.handlerCaseTransfer nlxIndex
              | .function =>
                  (bandMask index s.handlers.length).map fun band =>
                    { s with
                      mask := s.mask &&& ~~~band
                      control :=
                        ⟨s.handlers.length, s.mask, s.floor, .run index⟩ ::
                        ⟨mark, entry, floor,
                          .search condition index (index :: tried)⟩ :: rest }
  | _ => none

/-- The handler returns: `cl_handler_active_mask = saved_mask`. -/
def handlerReturn : Option (State Ty Cond) :=
  match s.control with
  | ⟨_, saved, _, .run _⟩ :: rest => some { s with mask := saved, control := rest }
  | _ => none

def inLisp : Bool :=
  match s.control with
  | ⟨_, _, _, .search _ _ _⟩ :: _ => false
  | _ => true

end State

inductive Action (Ty Cond : Type) where
  | bindForm
  | handlerPush (typeName : Ty)
  | handlerPop
  | handlerCasePush (types : List Ty)
  | handlerCasePop
  | frame (unwindProtect : Bool)
  | boundary
  | leave
  | signal (condition : Cond)
  | searchStep
  | handlerReturn
  | transfer (depth : Nat)
  /-- The outermost error frame: everything is dropped, the mask stays. -/
  | toTopLevel

def step (typeMatches : Cond → Ty → Bool) (s : State Ty Cond) :
    Action Ty Cond → Option (State Ty Cond)
  | .searchStep => s.searchStep typeMatches
  | .toTopLevel => some { s with handlers := [], control := [] }
  | action =>
      if s.inLisp then
        match action with
        | .bindForm => some (s.enter (.bind 0))
        | .handlerPush typeName => s.handlerPush typeName
        | .handlerPop => s.handlerPop
        | .handlerCasePush types => s.handlerCasePush types
        | .handlerCasePop => s.handlerCasePop
        | .frame unwindProtect => some (s.enter (.frame unwindProtect))
        | .boundary =>
            some { s.enter .boundary with floor := s.handlers.length }
        | .leave => s.leave
        | .signal condition =>
            some (s.enter (.search condition s.handlers.length []))
        | .handlerReturn => s.handlerReturn
        | .transfer depth => s.land depth
        | _ => none
      else none

/-- The states a program reaches by steps that `allowed` admits. -/
inductive Run (typeMatches : Cond → Ty → Bool)
    (allowed : State Ty Cond → Action Ty Cond → Prop) : State Ty Cond → Prop
  | start : Run typeMatches allowed initial
  | step {s s' : State Ty Cond} {action : Action Ty Cond} :
      Run typeMatches allowed s → allowed s action →
      step typeMatches s action = some s' → Run typeMatches allowed s'

end ClAmiga.Condition
