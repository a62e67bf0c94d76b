import Mathlib.Data.List.Basic
import Mathlib.Logic.Function.Basic

/-!
# Binding the arguments of a call

The frame setup of `OP_CALL`, `OP_TAILCALL` and `OP_APPLY` for a bytecode function, on
the value stack: the arguments stay in place, are copied down over the caller's
frame, or are spread from a list.  The stack itself has no bound here.  All errors
of these paths are of the one kind `CL_ERR_ARGS`.
-/

namespace ClAmiga.Call

inductive Val where
  | nil
  | t
  | symbol (name : String)
  | other (n : Nat)
  | cons (car cdr : Val)
  deriving DecidableEq, Repr

/-- `KW_ALLOW_OTHER_KEYS` -/
def allowOtherKeys : Val :=
  .symbol "ALLOW-OTHER-KEYS"

/-- `CL_SYMBOL_P` -/
def symbolP : Val → Bool
  | .t | .symbol _ => true
  | _ => false

def listOf : List Val → Val
  | [] => .nil
  | v :: vs => .cons v (listOf vs)

/-- One keyword parameter: an entry of `key_syms`, `key_slots` and
`key_suppliedp_slots`. -/
structure Key where
  sym : Val
  slot : Nat
  suppliedp : Nat
  deriving DecidableEq, Repr

/-- The signature of a bytecode function, with the frame layout that the compiler gives
it: required and optional parameters, the rest list, then the other locals, with a
slot of its own for every keyword value and every supplied-p flag. -/
structure Bytecode where
  arity : Nat
  hasRest : Bool
  nOptional : Nat
  /-- `flags & 1` -/
  hasKey : Bool
  /-- `flags & 2` -/
  allow : Bool
  keys : List Key
  nLocals : Nat
  keyFlag : keys ≠ [] ∨ allow = true → hasKey = true
  frame : arity + nOptional + (if hasRest then 1 else 0) ≤ nLocals
  slotsApart : (keys.map Key.slot ++ keys.map Key.suppliedp).Nodup
  slotsInside : ∀ s ∈ keys.map Key.slot ++ keys.map Key.suppliedp,
    arity + nOptional + (if hasRest then 1 else 0) ≤ s ∧ s < nLocals

def Bytecode.nPositional (f : Bytecode) : Nat :=
  f.arity + f.nOptional

inductive Failure where
  | tooFew (got need : Nat)
  | tooMany (got max : Nat)
  | oddKeywords
  | notSymbol
  | unknownKeyword (key : Val)
  deriving DecidableEq, Repr

abbrev Cells := Nat → Val

structure Stack where
  cells : Cells
  sp : Nat

def Stack.push (s : Stack) (v : Val) : Stack :=
  ⟨Function.update s.cells s.sp v, s.sp + 1⟩

def Stack.pushNils (s : Stack) : Nat → Stack
  | 0 => s
  | n + 1 => (s.push .nil).pushNils n

/-- `while (cl_vm.sp < limit) cl_vm_push(CL_NIL)` -/
def Stack.fill (s : Stack) (limit : Nat) : Stack :=
  s.pushNils (limit - s.sp)

def Stack.pushAll (s : Stack) : List Val → Stack
  | [] => s
  | v :: vs => (s.push v).pushAll vs

/-- The copy loop of a tail call: so many values from `src` on are pushed. -/
def Stack.copy (s : Stack) (src : Nat) : Nat → Stack
  | 0 => s
  | n + 1 => (s.push (s.cells src)).copy (src + 1) n

def window (cells : Cells) (start count : Nat) : List Val :=
  (List.range count).map fun i => cells (start + i)

/-- The capacity of `vm_extra_args`. -/
def extraArgsSize : Nat := 256

/-- `CL_CALL_ARGS_LIMIT` -/
def callArgsLimit : Nat := 4096

/-- Some `:ALLOW-OTHER-KEYS` of the caller is true. -/
def callerAllows : List Val → Bool
  | key :: val :: rest =>
      (decide (key = allowOtherKeys) && decide (val ≠ .nil)) || callerAllows rest
  | _ => false

def bindKey (f : Bytecode) (allow : Bool) (bp : Nat) (key val : Val) (cells : Cells) :
    Except Failure Cells :=
  match f.keys.find? fun p => decide (key = p.sym) with
  | some p =>
      .ok (Function.update (Function.update cells (bp + p.slot) val) (bp + p.suppliedp) .t)
  | none =>
      if key ≠ allowOtherKeys ∧ allow = false then
        .error (if symbolP key then .unknownKeyword key else .notSymbol)
      else .ok cells

def matchKeys (f : Bytecode) (allow : Bool) (bp : Nat) : List Val → Cells → Except Failure Cells
  | key :: val :: rest, cells => do
      let cells ← matchKeys f allow bp rest cells
      bindKey f allow bp key val cells
  | _, cells => .ok cells

/-- The keyword part of a frame setup. -/
def processKeys (f : Bytecode) (bp : Nat) (extra : List Val) (cells : Cells) :
    Except Failure Cells :=
  if f.hasKey then
    if extra.length % 2 = 1 then .error .oddKeywords
    else matchKeys f (f.allow || callerAllows extra) bp extra cells
  else .ok cells

/-- The arity check of `OP_CALL` and `OP_APPLY`, which differ in the limit. -/
def checkArity (f : Bytecode) (limit nargs : Nat) : Except Failure Unit :=
  let maxArgs := if f.hasRest ∨ f.hasKey then limit else f.nPositional
  if nargs < f.arity then .error (.tooFew nargs f.arity)
  else if maxArgs < nargs then .error (.tooMany nargs maxArgs)
  else .ok ()

/-- The surplus arguments that fit `vm_extra_args`. -/
def extraArgs (f : Bytecode) (cells : Cells) (base nargs : Nat) : List Val :=
  (window cells (base + f.nPositional) (nargs - f.nPositional)).take extraArgsSize

def finishFrame (f : Bytecode) (bp : Nat) (rest : Val) (extra : List Val) (s : Stack) :
    Except Failure Cells :=
  let s := s.fill (bp + f.nPositional)
  let s := if f.hasRest then s.push rest else s
  let s := s.fill (bp + f.nLocals)
  processKeys f bp extra s.cells

/-- `OP_CALL`: the arguments lie on the top of the stack, and stay there. -/
def opCall (f : Bytecode) (s : Stack) (nargs : Nat) : Except Failure Cells := do
  checkArity f 255 nargs
  let newBp := s.sp - nargs
  let extra := extraArgs f s.cells newBp nargs
  let s := if f.nPositional < nargs then { s with sp := newBp + f.nPositional } else s
  finishFrame f newBp (listOf extra) extra s

/-- `OP_TAILCALL`: the arguments are copied down to the base of the caller's frame. -/
def opTailcall (f : Bytecode) (s : Stack) (bp nargs : Nat) : Except Failure Cells := do
  checkArity f 255 nargs
  let src := s.sp - nargs
  let s := ({ s with sp := bp } : Stack).copy src (min nargs f.nPositional)
  -- as in the source, the filling of the optionals comes before the surplus is saved
  let s := s.fill (bp + f.nPositional)
  let extra := extraArgs f s.cells src nargs
  finishFrame f bp (listOf extra) extra s

/-- `OP_APPLY`: the list is spread onto the stack; the rest list is made of all surplus
arguments there, the keywords of those in the buffer. -/
def opApply (f : Bytecode) (s : Stack) (args : List Val) : Except Failure Cells := do
  let nargs := args.length
  if callArgsLimit < nargs then .error (.tooMany nargs callArgsLimit)
  else do
    checkArity f callArgsLimit nargs
    let newBp := s.sp
    let s := s.pushAll args
    let extra := if f.hasKey then extraArgs f s.cells newBp nargs else []
    let rest := listOf (window s.cells (newBp + f.nPositional) (nargs - f.nPositional))
    let s := if f.nPositional < nargs then { s with sp := newBp + f.nPositional } else s
    finishFrame f newBp rest extra s

def locals (f : Bytecode) (bp : Nat) (result : Except Failure Cells) : Option (List Val) :=
  match result with
  | .ok cells => some (window cells bp f.nLocals)
  | .error _ => none

end ClAmiga.Call
