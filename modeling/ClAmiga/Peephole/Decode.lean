import Mathlib.Algebra.Order.Ring.Nat
import ClAmiga.Peephole.Opcodes

/-!
# Decoding bytecode

`peep_decode`: the flat byte buffer becomes a list of instructions, every jump
offset an instruction index, and the entries of each `HANDLER-CASE` landing
table are pinned.  Anything unexpected makes the pass give up (`none`).

A function of more than 60000 bytes is never decoded, so positions and lengths
stay far from the bounds of the C types that hold them.
-/

namespace ClAmiga.Peephole

inductive Constant where
  | nil
  | cons (car cdr : Constant)
  | bytecode (nUpvalues : Nat)
  | other
  deriving DecidableEq

/-- `constants`; the pointer may be null. -/
abbrev Pool := Option (List Constant)

/-- A `PeepInsn`. -/
structure Insn where
  oldPos : Nat
  newPos : Nat
  /-- The bytes after the opcode as decoded; `ownLen` of them still count. -/
  raw : List UInt8
  rawLen : Nat
  jumpTarget : Option Nat
  fusedWith : Option Nat
  ownLen : Nat
  op : Opcode
  deleted : Bool
  target : Bool
  fused : Bool
  pinned : Bool
  synth : Option UInt8
  deriving DecidableEq

/-- `peep_read_u16`. -/
def readU16 (bytes : List UInt8) (position : Nat) : Nat :=
  (bytes.getD position 0).toNat * 2 ^ 8 + (bytes.getD (position + 1) 0).toNat

/-- A 32-bit word read as `int32_t`. -/
def toInt32 (word : Nat) : Int :=
  if word < 2 ^ 31 then (word : Int) else (word : Int) - 2 ^ 32

/-- `peep_read_i32`. -/
def readI32 (bytes : List UInt8) (position : Nat) : Int :=
  toInt32 (readU16 bytes position * 2 ^ 16 + readU16 bytes (position + 2))

/-- The operand bytes of an opcode, given the bytes that follow it.  A closure
has two bytes per upvalue of its template. -/
def operandLength (constants : Pool) (op : Opcode) (following : List UInt8) :
    Option Nat :=
  match opndLen op.operands with
  | some fixed => some fixed
  | none =>
      if following.length < 2 then none
      else do
        let pool ← constants
        match pool[readU16 following 0]? with
        | some (.bytecode nUpvalues) => some (2 + 2 * nUpvalues)
        | _ => none

def Insn.decoded (position : Nat) (op : Opcode) (operands : List UInt8) : Insn where
  oldPos := position
  newPos := 0
  raw := operands
  rawLen := 1 + operands.length
  jumpTarget := none
  fusedWith := none
  ownLen := operands.length
  op := op
  deleted := false
  target := false
  fused := false
  pinned := false
  synth := none

/-- The first loop of `peep_decode`, from byte `ip` on; every round consumes a
byte. -/
def decodeInsns (constants : Pool) : Nat → Nat → List UInt8 → Option (List Insn)
  | _, _, [] => some []
  | 0, _, _ :: _ => none
  | fuel + 1, ip, code :: following => do
      let op ← Opcode.ofByte code
      let count ← operandLength constants op following
      if count > following.length then none
      else
        let later ← decodeInsns constants fuel (ip + 1 + count) (following.drop count)
        some (.decoded ip op (following.take count) :: later)

/-- The binary search of `peep_index_of_pos` between `lo` and `hi`, the latter
excluded. -/
def indexOfPosBetween (insns : List Insn) (position : Nat) :
    Nat → Nat → Nat → Option Nat
  | 0, _, _ => none
  | fuel + 1, lo, hi =>
      if lo < hi then
        let middle := lo + (hi - 1 - lo) / 2
        match insns[middle]? with
        | none => none
        | some insn =>
            if insn.oldPos = position then some middle
            else if insn.oldPos < position then
              indexOfPosBetween insns position fuel (middle + 1) hi
            else indexOfPosBetween insns position fuel lo middle
      else none

/-- `peep_index_of_pos`. -/
def indexOfPos (insns : List Insn) (position : Nat) : Option Nat :=
  indexOfPosBetween insns position insns.length 0 insns.length

def Insn.jumpPos (insn : Insn) : Nat :=
  ((insn.oldPos + insn.rawLen + readI32 insn.raw (insn.op.jrelPos - 1) : Int) %
    2 ^ 32).toNat

def resolve (insns : List Insn) (len : Nat) (insn : Insn) : Option Insn :=
  if insn.op.jrelPos = 0 then some insn
  else if insn.jumpPos ≥ len then none
  else do
    let target ← indexOfPos insns insn.jumpPos
    some { insn with jumpTarget := some target }

/-- The length of a list of clause types and what ends it. -/
def clauseCount : Constant → Nat × Constant
  | .cons _ cdr => let (count, last) := clauseCount cdr; (count + 1, last)
  | last => (0, last)

/-- The number of entries of a landing table, from the pushing instruction's
constant. -/
def Insn.tableLength (constants : Pool) (insn : Insn) : Option Nat := do
  let pool ← constants
  let types ← pool[readU16 insn.raw 0]?
  match clauseCount types with
  | (count, .nil) => some count
  | _ => none

/-- Pin the entry at `index`. -/
def pinEntry (insns : List Insn) (index : Nat) : Option (List Insn) := do
  let entry ← insns[index]?
  if entry.op = .opJmp ∧ entry.rawLen = 5 then
    some (insns.set index { entry with pinned := true })
  else none

/-- Pin the landing table of the instruction at `index`, if it pushes one. -/
def pinTable (constants : Pool) (insns : List Insn) (index : Nat) :
    Option (List Insn) := do
  let insn ← insns[index]?
  if insn.op ≠ .opHandlerCasePush then some insns
  else
    let count ← insn.tableLength constants
    let landing ← insn.jumpTarget
    if landing + count > insns.length then none
    else (List.range' landing count).foldlM pinEntry insns

/-- `peep_decode`. -/
def peepDecode (constants : Pool) (code : List UInt8) : Option (List Insn) := do
  let insns ← decodeInsns constants code.length 0 code
  let resolved ← insns.mapM (resolve insns code.length)
  (List.range resolved.length).foldlM (pinTable constants) resolved

end ClAmiga.Peephole
