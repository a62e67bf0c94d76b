import Mathlib.Algebra.Order.Ring.Nat
import ClAmiga.Peephole.Rewrite

/-!
# Encoding the rewritten list

`peep_encode` with its remapping of the source line table, and the driver
`cl_peephole_run`.
-/

namespace ClAmiga.Peephole

/-- A `CL_LineEntry`. -/
structure LineEntry where
  pc : Nat
  line : Nat
  deriving DecidableEq

/-- The first pass of `peep_encode`: positions of the live instructions, from
`position` on. -/
def assignPositions : Nat → List Insn → List Insn
  | _, [] => []
  | position, insn :: later =>
      if insn.deleted then insn :: assignPositions position later
      else { insn with newPos := position } ::
        assignPositions (position + insn.rawLen) later

/-- The operand bytes along a `fused_with` chain. -/
def memberOperands (code : List Insn) : Nat → Option Nat → List UInt8
  | 0, _ => []
  | _, none => []
  | fuel + 1, some index =>
      match code[index]? with
      | none => []
      | some member =>
          member.raw.take member.ownLen ++ memberOperands code fuel member.fusedWith

/-- The bytes of `peep_write_i32`. -/
def i32Bytes (value : Int) : List UInt8 :=
  let word := (value % 2 ^ 32).toNat
  [UInt8.ofNat (word / 2 ^ 24), UInt8.ofNat (word / 2 ^ 16),
    UInt8.ofNat (word / 2 ^ 8), UInt8.ofNat word]

/-- `peep_write_i32` at `position` of the bytes of an instruction. -/
def writeI32 (bytes : List UInt8) (position : Nat) (value : Int) : List UInt8 :=
  bytes.take position ++ i32Bytes value ++ bytes.drop (position + 4)

/-- The position of the instruction a jump to `target` ends at. -/
def landingPos (code : List Insn) (target : Nat) : Nat :=
  (code[skipDeleted code target]?.map Insn.newPos).getD 0

/-- The bytes of the live instruction at `index`: opcode, synthesized byte and
the members' operands, then the jump offset in its place. -/
def emitInsn (code : List Insn) (index : Nat) (insn : Insn) : List UInt8 :=
  let bytes := insn.op.byte ::
    (insn.synth.toList ++ memberOperands code code.length (some index))
  match insn.jumpTarget with
  | none => bytes
  | some target =>
      writeI32 bytes insn.op.jrelPos
        (landingPos code target - (insn.newPos + insn.rawLen : Nat))

/-- The second pass of `peep_encode`.  Each instruction is written at its new
position, which is where the bytes before it end. -/
def emit (code : List Insn) : List UInt8 :=
  code.zipIdx.flatMap fun (insn, index) =>
    if insn.deleted then [] else emitInsn code index insn

/-- The binary search for the first instruction at or after `want`, between `lo`
and `hi`. -/
def firstAtOrAfter (code : List Insn) (want : Nat) : Nat → Nat → Nat → Nat
  | 0, lo, _ => lo
  | fuel + 1, lo, hi =>
      if lo < hi then
        let middle := lo + (hi - lo) / 2
        if (code[middle]?).any (·.oldPos < want) then
          firstAtOrAfter code want fuel (middle + 1) hi
        else firstAtOrAfter code want fuel lo middle
      else lo

def backToLive (code : List Insn) : Nat → Nat
  | 0 => 0
  | index + 1 =>
      if (code[index + 1]?).any Insn.deleted then backToLive code index
      else index + 1

/-- The index of the instruction a line entry for `want` moves to. -/
def lineIndex (code : List Insn) (want : Nat) : Nat :=
  let index := firstAtOrAfter code want code.length 0 code.length
  if (code[index]?).any Insn.fused then skipDeleted code (backToLive code index)
  else skipDeleted code index

/-- The line map remap of `peep_encode`: entry `index` is read, entry `kept` is
the next to be written, in the same table. -/
def remapLines (code : List Insn) :
    Nat → Nat → Nat → Option Nat → List LineEntry → List LineEntry × Nat
  | 0, _, kept, _, lines => (lines, kept)
  | count + 1, index, kept, lastPc, lines =>
      match lines[index]? with
      | none => (lines, kept)
      | some entry =>
          match code[lineIndex code entry.pc]? with
          | none => remapLines code count (index + 1) kept lastPc lines
          | some insn =>
              if lastPc = some insn.newPos then
                remapLines code count (index + 1) kept lastPc lines
              else
                remapLines code count (index + 1) (kept + 1) (some insn.newPos)
                  (lines.set kept ⟨insn.newPos, entry.line⟩)

/-- `peep_encode` on the line map. -/
def encodeLines (code : List Insn) (lines : List LineEntry) : List LineEntry :=
  let (table, kept) := remapLines code lines.length 0 0 none lines
  table.take kept

/-- Every live jump ends at a live instruction: the last check before
encoding. -/
def jumpsLand (code : List Insn) : Bool :=
  code.all fun insn =>
    insn.deleted || insn.jumpTarget.all fun target => skipDeleted code target < code.length

/-- What `cl_peephole_run` works on: the bytes and the line map, which may be
absent. -/
structure Buffers where
  code : List UInt8
  lines : Option (List LineEntry)
  deriving DecidableEq

/-- What decides the run beside the code: whether the two allocations succeed
and `cl_peephole_fuse_enabled`. -/
structure Environment where
  insnsAllocated : Bool := true
  outAllocated : Bool := true
  fuseEnabled : Bool := true

/-- `CL_PEEPHOLE_MAX_CODE`. -/
def peepholeMaxCode : Nat := 60000

/-- The list `cl_peephole_run` encodes, where it gets that far. -/
def rewritten (env : Environment) (constants : Pool) (code : List UInt8) :
    Option (List Insn) := do
  if code.length = 0 ∨ code.length > peepholeMaxCode ∨ env.insnsAllocated = false then
    none
  else
    let decoded ← peepDecode constants code
    let (settled, total) := rewrite env.fuseEnabled decoded
    if total = 0 ∨ jumpsLand settled = false ∨ env.outAllocated = false then none
    else some settled

/-- `cl_peephole_run`: its result and the buffers afterwards. -/
def peepholeRun (env : Environment) (constants : Pool) (buffers : Buffers) :
    Nat × Buffers :=
  match rewritten env constants buffers.code with
  | none => (0, buffers)
  | some settled =>
      let placed := assignPositions 0 settled
      (1, { code := emit placed, lines := buffers.lines.map (encodeLines placed) })

end ClAmiga.Peephole
