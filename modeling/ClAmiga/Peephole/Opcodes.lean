/-!
# Opcodes

`CL_OPCODE_LIST`: for every opcode its byte, the shape of its operands and the
dataflow flags the peephole pass reads.
-/

namespace ClAmiga.Peephole

/-- `CL_OperandKind`. -/
inductive OperandKind where
  | none | u8 | u16 | jrel | u16Jrel | u16U16 | closure | amiga | u16U8 | u8U8
  | u8U16U8 | u8Jrel | u8U16 | u16U16U8
  deriving DecidableEq

/-- `cl_opnd_len`: the operand bytes of a shape of fixed length. -/
def opndLen : OperandKind → Option Nat
  | .none => some 0
  | .u8 => some 1
  | .u16 => some 2
  | .jrel => some 4
  | .u16Jrel => some 6
  | .u16U16 => some 4
  | .u16U8 => some 3
  | .amiga => some 9
  | .u8U8 => some 2
  | .u8U16U8 => some 4
  | .u8Jrel => some 5
  | .u8U16 => some 3
  | .u16U16U8 => some 5
  | .closure => Option.none

/-- `cl_opnd_jrel_pos`: the place of the jump offset, counted from the opcode
byte; zero where the shape has none. -/
def opndJrelPos : OperandKind → Nat
  | .jrel => 1
  | .u16Jrel => 3
  | .u8Jrel => 2
  | _ => 0

inductive Opcode where
  | opConst | opLoad | opStore | opGload | opGstore | opUpval | opPop | opDup | opCons
  | opCar | opCdr | opAdd | opSub | opMul | opDiv | opEq | opLt | opGt | opLe | opGe
  | opNumeq | opNot | opJmp | opJnil | opJtrue | opCall | opTailcall | opRet | opClosure
  | opApply | opList | opNil | opT | opFload | opDefMacro | opCatch | opArgc | opUncatch
  | opUwprot | opUwpop | opUwrethrow | opMvLoad | opMvToList | opNthValue | opDynbind
  | opDynunbind | opRplaca | opRplacd | opAset | opDeftype | opHandlerPush | opHandlerPop
  | opRestartPush | opRestartPop | opAssertType | opBlockPush | opBlockPop | opBlockReturn
  | opFstore | opMakeCell | opCellRef | opCellSetLocal | opCellSetUpval | opTagbodyPush
  | opTagbodyPop | opTagbodyGo | opProgvBind | opProgvUnbind | opDefsetf | opDefvar
  | opMvReset | opAmigaCall | opStructRef | opStructSet | opCallGlobal | opTailcallGlobal
  | opMvSave | opMvRestore | opHandlerCasePush | opHandlerCasePop | opStorePop | opLoadLoad
  | opLoadCallGlobal | opLoadStructRef | opLoadMvReset | opLoadRet | opEqJnil | opGloadJnil
  | opLoadJnil | opLoadConst | opGloadCallGlobal | opGloadEqJnil | opLoadStorePop
  | opPopLoad | opAref | opChareq | opCmpBr | opPushLocal | opPopLocal | opHalt
  deriving DecidableEq

namespace Opcode

def byte : Opcode → UInt8
  | .opConst => 0x01
  | .opLoad => 0x02
  | .opStore => 0x03
  | .opGload => 0x04
  | .opGstore => 0x05
  | .opUpval => 0x06
  | .opPop => 0x10
  | .opDup => 0x11
  | .opCons => 0x20
  | .opCar => 0x21
  | .opCdr => 0x22
  | .opAdd => 0x30
  | .opSub => 0x31
  | .opMul => 0x32
  | .opDiv => 0x33
  | .opEq => 0x40
  | .opLt => 0x41
  | .opGt => 0x42
  | .opLe => 0x43
  | .opGe => 0x44
  | .opNumeq => 0x45
  | .opNot => 0x50
  | .opJmp => 0x60
  | .opJnil => 0x61
  | .opJtrue => 0x62
  | .opCall => 0x70
  | .opTailcall => 0x71
  | .opRet => 0x72
  | .opClosure => 0x73
  | .opApply => 0x74
  | .opList => 0x80
  | .opNil => 0x81
  | .opT => 0x82
  | .opFload => 0x83
  | .opDefMacro => 0x84
  | .opCatch => 0x85
  | .opArgc => 0x86
  | .opUncatch => 0x87
  | .opUwprot => 0x88
  | .opUwpop => 0x89
  | .opUwrethrow => 0x8A
  | .opMvLoad => 0x8B
  | .opMvToList => 0x8C
  | .opNthValue => 0x8D
  | .opDynbind => 0x8E
  | .opDynunbind => 0x8F
  | .opRplaca => 0x90
  | .opRplacd => 0x91
  | .opAset => 0x92
  | .opDeftype => 0x93
  | .opHandlerPush => 0x94
  | .opHandlerPop => 0x95
  | .opRestartPush => 0x96
  | .opRestartPop => 0x97
  | .opAssertType => 0x98
  | .opBlockPush => 0x99
  | .opBlockPop => 0x9A
  | .opBlockReturn => 0x9B
  | .opFstore => 0x9C
  | .opMakeCell => 0x9D
  | .opCellRef => 0x9E
  | .opCellSetLocal => 0x9F
  | .opCellSetUpval => 0xA0
  | .opTagbodyPush => 0xA1
  | .opTagbodyPop => 0xA2
  | .opTagbodyGo => 0xA3
  | .opProgvBind => 0xA4
  | .opProgvUnbind => 0xA5
  | .opDefsetf => 0xA6
  | .opDefvar => 0xA7
  | .opMvReset => 0xA8
  | .opAmigaCall => 0xA9
  | .opStructRef => 0xAA
  | .opStructSet => 0xAB
  | .opCallGlobal => 0xAC
  | .opTailcallGlobal => 0xAD
  | .opMvSave => 0xAE
  | .opMvRestore => 0xAF
  | .opHandlerCasePush => 0xB0
  | .opHandlerCasePop => 0xB1
  | .opStorePop => 0xB2
  | .opLoadLoad => 0xB3
  | .opLoadCallGlobal => 0xB4
  | .opLoadStructRef => 0xB5
  | .opLoadMvReset => 0xB6
  | .opLoadRet => 0xB7
  | .opEqJnil => 0xB8
  | .opGloadJnil => 0xB9
  | .opLoadJnil => 0xBA
  | .opLoadConst => 0xBB
  | .opGloadCallGlobal => 0xBC
  | .opGloadEqJnil => 0xBD
  | .opLoadStorePop => 0xBE
  | .opPopLoad => 0xBF
  | .opAref => 0xC0
  | .opChareq => 0xC1
  | .opCmpBr => 0xC2
  | .opPushLocal => 0xC3
  | .opPopLocal => 0xC4
  | .opHalt => 0xFF

/-- The first test of `cl_opcode_info`: bytes that are no opcode have no entry. -/
def ofByte (code : UInt8) : Option Opcode :=
  match code.toNat with
  | 0x01 => some .opConst
  | 0x02 => some .opLoad
  | 0x03 => some .opStore
  | 0x04 => some .opGload
  | 0x05 => some .opGstore
  | 0x06 => some .opUpval
  | 0x10 => some .opPop
  | 0x11 => some .opDup
  | 0x20 => some .opCons
  | 0x21 => some .opCar
  | 0x22 => some .opCdr
  | 0x30 => some .opAdd
  | 0x31 => some .opSub
  | 0x32 => some .opMul
  | 0x33 => some .opDiv
  | 0x40 => some .opEq
  | 0x41 => some .opLt
  | 0x42 => some .opGt
  | 0x43 => some .opLe
  | 0x44 => some .opGe
  | 0x45 => some .opNumeq
  | 0x50 => some .opNot
  | 0x60 => some .opJmp
  | 0x61 => some .opJnil
  | 0x62 => some .opJtrue
  | 0x70 => some .opCall
  | 0x71 => some .opTailcall
  | 0x72 => some .opRet
  | 0x73 => some .opClosure
  | 0x74 => some .opApply
  | 0x80 => some .opList
  | 0x81 => some .opNil
  | 0x82 => some .opT
  | 0x83 => some .opFload
  | 0x84 => some .opDefMacro
  | 0x85 => some .opCatch
  | 0x86 => some .opArgc
  | 0x87 => some .opUncatch
  | 0x88 => some .opUwprot
  | 0x89 => some .opUwpop
  | 0x8A => some .opUwrethrow
  | 0x8B => some .opMvLoad
  | 0x8C => some .opMvToList
  | 0x8D => some .opNthValue
  | 0x8E => some .opDynbind
  | 0x8F => some .opDynunbind
  | 0x90 => some .opRplaca
  | 0x91 => some .opRplacd
  | 0x92 => some .opAset
  | 0x93 => some .opDeftype
  | 0x94 => some .opHandlerPush
  | 0x95 => some .opHandlerPop
  | 0x96 => some .opRestartPush
  | 0x97 => some .opRestartPop
  | 0x98 => some .opAssertType
  | 0x99 => some .opBlockPush
  | 0x9A => some .opBlockPop
  | 0x9B => some .opBlockReturn
  | 0x9C => some .opFstore
  | 0x9D => some .opMakeCell
  | 0x9E => some .opCellRef
  | 0x9F => some .opCellSetLocal
  | 0xA0 => some .opCellSetUpval
  | 0xA1 => some .opTagbodyPush
  | 0xA2 => some .opTagbodyPop
  | 0xA3 => some .opTagbodyGo
  | 0xA4 => some .opProgvBind
  | 0xA5 => some .opProgvUnbind
  | 0xA6 => some .opDefsetf
  | 0xA7 => some .opDefvar
  | 0xA8 => some .opMvReset
  | 0xA9 => some .opAmigaCall
  | 0xAA => some .opStructRef
  | 0xAB => some .opStructSet
  | 0xAC => some .opCallGlobal
  | 0xAD => some .opTailcallGlobal
  | 0xAE => some .opMvSave
  | 0xAF => some .opMvRestore
  | 0xB0 => some .opHandlerCasePush
  | 0xB1 => some .opHandlerCasePop
  | 0xB2 => some .opStorePop
  | 0xB3 => some .opLoadLoad
  | 0xB4 => some .opLoadCallGlobal
  | 0xB5 => some .opLoadStructRef
  | 0xB6 => some .opLoadMvReset
  | 0xB7 => some .opLoadRet
  | 0xB8 => some .opEqJnil
  | 0xB9 => some .opGloadJnil
  | 0xBA => some .opLoadJnil
  | 0xBB => some .opLoadConst
  | 0xBC => some .opGloadCallGlobal
  | 0xBD => some .opGloadEqJnil
  | 0xBE => some .opLoadStorePop
  | 0xBF => some .opPopLoad
  | 0xC0 => some .opAref
  | 0xC1 => some .opChareq
  | 0xC2 => some .opCmpBr
  | 0xC3 => some .opPushLocal
  | 0xC4 => some .opPopLocal
  | 0xFF => some .opHalt
  | _ => none

@[simp] theorem ofByte_byte (op : Opcode) : ofByte op.byte = some op := by
  cases op <;> rfl

def operands : Opcode → OperandKind
  | .opClosure => .closure
  | .opDefsetf => .u16U16
  | .opAmigaCall => .amiga
  | .opLoadCallGlobal => .u8U16U8
  | .opLoadConst => .u8U16
  | .opGloadCallGlobal => .u16U16U8
  | .opCallGlobal | .opTailcallGlobal => .u16U8
  | .opLoadJnil | .opCmpBr => .u8Jrel
  | .opLoadLoad | .opLoadStructRef | .opLoadStorePop => .u8U8
  | .opBlockPush | .opTagbodyPush | .opHandlerCasePush | .opGloadJnil | .opGloadEqJnil => .u16Jrel
  | .opJmp | .opJnil | .opJtrue | .opCatch | .opUwprot | .opEqJnil => .jrel
  | .opConst | .opGload | .opGstore | .opFload | .opDefMacro | .opDynbind | .opDeftype
  | .opHandlerPush | .opRestartPush | .opAssertType | .opBlockReturn | .opFstore
  | .opTagbodyGo | .opDefvar => .u16
  | .opLoad | .opStore | .opUpval | .opCall | .opTailcall | .opList | .opMvLoad
  | .opDynunbind | .opHandlerPop | .opRestartPop | .opCellSetLocal | .opCellSetUpval
  | .opStructRef | .opStructSet | .opStorePop | .opLoadMvReset | .opLoadRet | .opPopLoad
  | .opAref | .opPushLocal | .opPopLocal => .u8
  | _ => .none

/-- `CL_OPF_MVW`: writes the count of multiple values. -/
def mvWrite : Opcode → Bool
  | .opConst | .opGload | .opUpval | .opCons | .opCar | .opCdr | .opAdd | .opSub | .opMul
  | .opDiv | .opEq | .opLt | .opGt | .opLe | .opGe | .opNumeq | .opNot | .opCall
  | .opTailcall | .opClosure | .opApply | .opList | .opNil | .opT | .opFload | .opArgc
  | .opMvToList | .opNthValue | .opRplaca | .opRplacd | .opAset | .opMvReset | .opAmigaCall
  | .opStructRef | .opStructSet | .opCallGlobal | .opTailcallGlobal | .opMvRestore
  | .opLoadCallGlobal | .opLoadStructRef | .opLoadMvReset | .opEqJnil | .opGloadJnil
  | .opLoadConst | .opGloadCallGlobal | .opGloadEqJnil | .opAref | .opChareq | .opCmpBr
  | .opPushLocal | .opPopLocal => true
  | _ => false

/-- `CL_OPF_MVR`: observes the multiple values. -/
def mvRead : Opcode → Bool
  | .opCall | .opTailcall | .opRet | .opApply | .opMvLoad | .opMvToList | .opNthValue
  | .opBlockReturn | .opTagbodyGo | .opCallGlobal | .opTailcallGlobal | .opMvSave
  | .opLoadCallGlobal | .opLoadRet | .opGloadCallGlobal => true
  | _ => false

/-- `CL_OPF_PURE`: pushes one value and does nothing else. -/
def isPure : Opcode → Bool
  | .opConst | .opLoad | .opUpval | .opDup | .opNil | .opT => true
  | _ => false

/-- `CL_OPF_UNCOND`: control never falls through. -/
def unconditional : Opcode → Bool
  | .opJmp | .opRet | .opBlockReturn | .opTagbodyGo | .opLoadRet | .opHalt => true
  | _ => false

/-- `cl_opnd_jrel_pos` of the opcode's own shape. -/
def jrelPos (op : Opcode) : Nat := opndJrelPos op.operands

end Opcode

end ClAmiga.Peephole
