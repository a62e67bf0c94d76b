import ClAmiga.Wire.Bytes
import ClAmiga.Number.IntegerSpec

/-!
# Packing binding rows

`cl_bindtab_pack`: the rows of a binding table as Lisp objects, the records they
become, and the blob the records are laid out in.  A failure carries the row, the
name and the message it is reported with.
-/

namespace ClAmiga.BindTab

open Wire Number Bignum Radix

/-- The Lisp objects a row is made of; a character is its code. -/
inductive Obj where
  | nil
  | cons (car cdr : Obj)
  | symbol (keyword : Bool) (name : List Nat)
  | string (chars : List Nat)
  | integer (v : ClInt)
  | other
  deriving DecidableEq, Repr

namespace Obj

def elements : Obj → Option (List Obj)
  | nil => some []
  | cons car cdr => cdr.elements.map (car :: ·)
  | _ => none

def ofList : List Obj → Obj
  | [] => nil
  | x :: xs => cons x (ofList xs)

def car : Obj → Obj
  | cons a _ => a
  | _ => nil

def cdr : Obj → Obj
  | cons _ d => d
  | _ => nil

end Obj

def codes (text : String) : List Nat :=
  text.toList.map Char.toNat

/-- `kw_is`; `strcmp` looks at a name up to its first zero. -/
def kwIs (obj : Obj) (text : String) : Bool :=
  match obj with
  | .symbol true name => decide (name.takeWhile (· ≠ 0) = codes text)
  | _ => false

def keywordIndex (obj : Obj) (table : List String) : Option Nat :=
  table.findIdx? (kwIs obj ·)

def keyword (text : String) : Obj :=
  .symbol true (codes text)

def regNames : List String :=
  ["D0", "D1", "D2", "D3", "D4", "D5", "D6", "D7", "A0", "A1", "A2", "A3", "A4"]

/-- `stub_ct_names`, by `CL_STUB_CT_*`. -/
def ctNames : List String :=
  ["U8", "I8", "U16", "I16", "U32", "I32", "POINTER", "FPTR", "SINGLE", "DOUBLE"]

/-- `stub_res_names`, by `CL_AMIGA_RES_*`. -/
def resNames : List String :=
  ["UNSIGNED", "VOID", "POINTER", "SIGNED", "BOOL", "U16", "I16", "U8", "I8"]

/-- `stub_ct_size` -/
def ctSize : Nat → Nat
  | 0 | 1 => 1
  | 2 | 3 => 2
  | 9 => 8
  | _ => 4

def btMagic : Nat := 0x434C4254
def btVersion : Nat := 1
def headerSize : Nat := 16
def entrySize : Nat := 16
def hfLibcalls : Nat := 1

inductive Kind where
  | const
  | var
  | libcall
  | field
  | name
  deriving DecidableEq, Repr

/-- `CL_BT_CONST` and the others. -/
def Kind.code : Kind → Nat
  | const => 0
  | var => 1
  | libcall => 2
  | field => 3
  | name => 4

def flagNotMorphos : Nat := 1
def flagMorphos : Nat := 2
def flagSigned : Nat := 4
def flagWide : Nat := 8
def flagString : Nat := 16

def stubPeek : Nat := 1
def stubPeekIdx : Nat := 3
def stubFieldPtr : Nat := 5

inductive Reason where
  | rowsNotProper | rowShape | notString | nameLength | nameNotAscii
  | stringTooLong | stringNotAscii | valueTooLong | valueType
  | structTypeSize | arrayElementType | arrayCount | fieldType | fieldOffset | arrayOffset
  | valueRowShape | fnRowShape | lvo | registerList | register | resultKind | unknownOption
  | bothPlatforms | fieldRowShape | structRowShape | structNameTooLong | structFieldShape
  | accessorTooLong | nameRowShape | rowKind | duplicateName
  /-- the size exceeds the largest heap object -/
  | storage
  /-- the 32-bit size has wrapped, and the blob is written out of bounds -/
  | undefined
  deriving DecidableEq, Repr

structure Failure where
  row : Nat
  name : List UInt8
  reason : Reason
  deriving DecidableEq, Repr

abbrev Packing (α : Type) := Except Failure α

/-- `BtRec`, with its name and the wide payload it owns. -/
structure Rec where
  name : List UInt8
  kind : Kind
  flags : Nat
  c : Nat
  d : Nat
  a : Nat
  b : Int
  /-- `wide_off`, when `has_wide` -/
  wideOff : Option Nat
  deriving DecidableEq, Repr

/-- `BtBuild`: the records in source order, the wide arena, `has_libcall`. -/
structure Build where
  recs : List Rec
  wide : List UInt8
  hasLibcall : Bool
  deriving DecidableEq, Repr

/-- Characters 1 to 127, as bytes. -/
def asciiBytes? (low : Nat) (chars : List Nat) : Option (List UInt8) :=
  if chars.all fun c => decide (low ≤ c) && decide (c < 0x80) then
    some (chars.map UInt8.ofNat)
  else none

/-- `parse_name` -/
def parseName (row : Nat) (obj : Obj) : Packing (List UInt8) :=
  let chars? := match obj with
    | .symbol _ name => some name
    | .string chars => some chars
    | _ => none
  match chars? with
  | none => .error ⟨row, [], .notString⟩
  | some chars =>
      if chars.length = 0 ∨ 255 < chars.length then .error ⟨row, [], .nameLength⟩
      else
        match asciiBytes? 1 chars with
        | none => .error ⟨row, [], .nameNotAscii⟩
        | some bytes => .ok bytes

/-- The big-endian magnitude of a fixnum, leading zeros stripped. -/
def fixnumMagnitude (m : Nat) : List UInt8 :=
  ([m / 2 ^ 24, m / 2 ^ 16, m / 2 ^ 8, m].map UInt8.ofNat).dropWhile (· = 0)

/-- One limb more of a bignum's magnitude, from the top. -/
def magnitudeStep (mag : List UInt8) (limb : Limb) : List UInt8 :=
  let hi := UInt8.ofNat (limb.toNat / 2 ^ 8)
  let lo := UInt8.ofNat limb.toNat
  if mag = [] ∧ hi = 0 then (if lo ≠ 0 then [lo] else []) else mag ++ [hi, lo]

def valueBe (bytes : List UInt8) : Nat :=
  bytes.foldl (fun m byte => m * 2 ^ 8 + byte.toNat) 0

structure Encoded where
  flags : Nat
  a : Nat
  payload : Option (List UInt8)
  deriving DecidableEq, Repr

def encodeInteger (neg : Bool) (mag : List UInt8) : Encoded :=
  let wide : Encoded :=
    ⟨flagWide, 0, some (UInt8.ofNat mag.length :: UInt8.ofNat (if neg then 1 else 0) :: mag)⟩
  if mag.length ≤ 4 then
    let m := valueBe mag
    if neg = false then ⟨0, m, none⟩
    else if m ≤ 0x80000000 then ⟨flagSigned, (2 ^ 32 - m) % 2 ^ 32, none⟩
    else wide
  else wide

/-- `encode_value` -/
def encodeValue (row : Nat) (name : List UInt8) (value : Obj) : Packing Encoded :=
  match value with
  | .string chars =>
      if 255 < chars.length then .error ⟨row, name, .stringTooLong⟩
      else
        match asciiBytes? 0 chars with
        | none => .error ⟨row, name, .stringNotAscii⟩
        | some bytes => .ok ⟨flagString, 0, some (UInt8.ofNat bytes.length :: bytes)⟩
  | .integer (.fixnum word) =>
      .ok (encodeInteger (decide (word.toInt < 0)) (fixnumMagnitude word.toInt.natAbs))
  | .integer (.bignum sign limbs) =>
      if 255 < limbs.length * 2 then .error ⟨row, name, .valueTooLong⟩
      else .ok (encodeInteger sign (limbs.reverse.foldl magnitudeStep []))
  | _ => .error ⟨row, name, .valueType⟩

/-- `parse_field_type`: stub kind, C type, element size and count. -/
def parseFieldType (row : Nat) (name : List UInt8) (type : Obj) :
    Packing (Nat × Nat × Nat × Nat) :=
  match type with
  | .cons head rest =>
      if kwIs head "STRUCT" then
        match rest.car with
        | .integer (.fixnum n) =>
            if n.toInt < 0 then .error ⟨row, name, .structTypeSize⟩
            else .ok (stubFieldPtr, 0, 0, 0)
        | _ => .error ⟨row, name, .structTypeSize⟩
      else if kwIs head "ARRAY" then
        match keywordIndex rest.car ctNames with
        | none => .error ⟨row, name, .arrayElementType⟩
        | some ctype =>
            match rest.cdr.car with
            | .integer (.fixnum count) =>
                if count.toInt ≤ 0 ∨ 0xFFFF < count.toInt then .error ⟨row, name, .arrayCount⟩
                else .ok (stubPeekIdx, ctype, ctSize ctype, count.toInt.toNat)
            | _ => .error ⟨row, name, .arrayCount⟩
      else .error ⟨row, name, .fieldType⟩
  | _ =>
      match keywordIndex type ctNames with
      | none => .error ⟨row, name, .fieldType⟩
      | some ctype => .ok (stubPeek, ctype, 0, 0)

/-- `add_field` -/
def addField (row : Nat) (b : Build) (name : List UInt8) (type offset : Obj) : Packing Build :=
  match offset with
  | .integer (.fixnum offset) =>
      if offset.toInt < 0 then .error ⟨row, name, .fieldOffset⟩
      else do
        let offset := offset.toInt.toNat
        let (kind, ctype, eltSize, count) ← parseFieldType row name type
        if kind = stubPeekIdx ∧ 0xFFFF < offset then .error ⟨row, name, .arrayOffset⟩
        else
          .ok { b with
            recs := b.recs ++ [
              { name := name, kind := .field, flags := 0, c := ctype, d := kind
                a := if kind = stubPeekIdx then offset ||| (count <<< 16) else offset
                b := eltSize, wideOff := none }] }
  | _ => .error ⟨row, name, .fieldOffset⟩

/-- `build_add` of a constant or variable and its `encode_value`. -/
def addValue (row : Nat) (b : Build) (kind : Kind) (name : List UInt8) (value : Obj) :
    Packing Build := do
  let v ← encodeValue row name value
  let wideOff := v.payload.map fun _ => b.wide.length
  .ok { b with
    recs := b.recs ++ [⟨name, kind, v.flags, 0, 0, v.a, 0, wideOff⟩]
    wide := b.wide ++ v.payload.getD [] }

def packRegs (regs : List Nat) : Nat :=
  regs.zipIdx.foldl (fun nibbles (reg, i) => nibbles ||| (reg <<< (4 * i))) 0

def parseRegs (row : Nat) (name : List UInt8) (regs : List Obj) : Packing (List Nat) :=
  regs.mapM fun reg =>
    match keywordIndex reg regNames with
    | none => .error ⟨row, name, .register⟩
    | some i => .ok i

def parseOptions (row : Nat) (name : List UInt8) : List Obj → Nat × Nat → Packing (Nat × Nat)
  | [], state => .ok state
  | option :: rest, (flags, minver) =>
      if kwIs option "NOT-MORPHOS" then
        parseOptions row name rest (flags ||| flagNotMorphos, minver)
      else if kwIs option "MORPHOS" then
        parseOptions row name rest (flags ||| flagMorphos, minver)
      else
        match option with
        | .integer (.fixnum version) =>
            if 0 < version.toInt ∧ version.toInt ≤ 255 then
              parseOptions row name rest (flags, version.toInt.toNat)
            else .error ⟨row, name, .unknownOption⟩
        | _ => .error ⟨row, name, .unknownOption⟩

/-- The `:FN` branch of `parse_row`. -/
def parseFn (row : Nat) (b : Build) (name : List UInt8) (rest : List Obj) : Packing Build :=
  match rest with
  | lvo :: regs :: result :: options =>
      match lvo with
      | .integer (.fixnum lvo) =>
          if 0 ≤ lvo.toInt ∨ lvo.toInt < -32768 then .error ⟨row, name, .lvo⟩
          else
            match regs.elements with
            | none => .error ⟨row, name, .registerList⟩
            | some regs =>
                if 7 < regs.length then .error ⟨row, name, .registerList⟩
                else do
                  let regs ← parseRegs row name regs
                  match keywordIndex result resNames with
                  | none => .error ⟨row, name, .resultKind⟩
                  | some res => do
                      let (flags, minver) ← parseOptions row name options (0, 0)
                      if flags = flagNotMorphos ||| flagMorphos then
                        .error ⟨row, name, .bothPlatforms⟩
                      else
                        .ok { b with
                          recs := b.recs ++ [
                            ⟨name, .libcall, flags, regs.length, minver,
                              packRegs regs ||| (res <<< 28), lvo.toInt, none⟩]
                          hasLibcall := true }
      | _ => .error ⟨row, name, .lvo⟩
  | _ => .error ⟨row, name, .fnRowShape⟩

def bytesOf (text : String) : List UInt8 :=
  (codes text).map UInt8.ofNat

/-- The fields of a `:STRUCT` row. -/
def parseStructFields (row : Nat) (name : List UInt8) : List Obj → Build → Packing Build
  | [], b => .ok b
  | field :: rest, b =>
      match field.elements with
      | some [fieldName, type, offset] => do
          let fieldName ← parseName row fieldName
          if 255 < name.length + 1 + fieldName.length then .error ⟨row, name, .accessorTooLong⟩
          else do
            let b ← addField row b (name ++ bytesOf "-" ++ fieldName) type offset
            parseStructFields row name rest b
      | _ => .error ⟨row, name, .structFieldShape⟩

/-- The `:STRUCT` branch of `parse_row`. -/
def parseStruct (row : Nat) (b : Build) (name : List UInt8) (rest : List Obj) : Packing Build :=
  match rest with
  | .integer (.fixnum size) :: fields =>
      if size.toInt < 0 then .error ⟨row, name, .structRowShape⟩
      else if 255 < name.length + 7 then .error ⟨row, name, .structNameTooLong⟩
      else do
        let b ← addValue row b .var (bytesOf "*" ++ name ++ bytesOf "-SIZE*")
          (.integer (.fixnum size))
        parseStructFields row name fields b
  | _ => .error ⟨row, name, .structRowShape⟩

/-- `parse_row` -/
def parseRow (row : Nat) (b : Build) (obj : Obj) : Packing Build :=
  match obj.elements with
  | some (kind :: nameObj :: rest) => do
      let name ← parseName row nameObj
      if kwIs kind "CONST" ∨ kwIs kind "VAR" then
        match rest with
        | [value] => addValue row b (if kwIs kind "CONST" then .const else .var) name value
        | _ => .error ⟨row, name, .valueRowShape⟩
      else if kwIs kind "FN" then parseFn row b name rest
      else if kwIs kind "FIELD" then
        match rest with
        | [type, offset] => addField row b name type offset
        | _ => .error ⟨row, name, .fieldRowShape⟩
      else if kwIs kind "STRUCT" then parseStruct row b name rest
      else if kwIs kind "NAME" then
        match rest with
        | [] => .ok { b with recs := b.recs ++ [⟨name, .name, 0, 0, 0, 0, 0, none⟩] }
        | _ => .error ⟨row, name, .nameRowShape⟩
      else .error ⟨row, name, .rowKind⟩
  | _ => .error ⟨row, [], .rowShape⟩

def parseRows : Nat → List Obj → Build → Packing Build
  | _, [], b => .ok b
  | row, obj :: rest, b => do
      let b ← parseRow row b obj
      parseRows (row + 1) rest b

/-- `name_cmp`, as "not greater". -/
def nameLe : List UInt8 → List UInt8 → Bool
  | [], _ => true
  | _ :: _, [] => false
  | x :: xs, y :: ys => if x = y then nameLe xs ys else decide (x < y)

def mayNeighbour (name name' : List UInt8) (kind kind' : Kind) : Bool :=
  decide (name ≠ name') || (kind = .libcall && kind' = .libcall)

def firstDuplicate : List Rec → Option Rec
  | p :: q :: rest =>
      if mayNeighbour p.name q.name p.kind q.kind then firstDuplicate (q :: rest) else some q
  | _ => none

def entryBytes (nameOff : Nat) (a : Nat) (r : Rec) : List UInt8 :=
  wr32 nameOff ++ (wr16 r.name.length ++
    ([UInt8.ofNat r.kind.code, UInt8.ofNat r.flags] ++
      (wr32 a ++ (wr16 (r.b % 2 ^ 16).toNat ++ [UInt8.ofNat r.c, UInt8.ofNat r.d]))))

/-- The entries of sorted records, the names laid out from `off` on. -/
def layEntries (namesLen : Nat) : Nat → List Rec → List (List UInt8)
  | _, [] => []
  | off, r :: rest =>
      let a := match r.wideOff with
        | some wideOff => namesLen + wideOff
        | none => r.a
      entryBytes off a r :: layEntries namesLen (off + r.name.length) rest

def headerBytes (n arenaLen : Nat) (hasLibcall : Bool) : List UInt8 :=
  wr32 btMagic ++ (([UInt8.ofNat btVersion, UInt8.ofNat (if hasLibcall then hfLibcalls else 0)]) ++
    (wr16 0 ++ (wr32 n ++ wr32 arenaLen)))

/-- `CL_MAX_BYTEVEC_BYTES`: the 23 size bits less the byte vector's own fields. -/
def maxBytevecBytes : Nat :=
  0x007FFFFF - 16

/-- `cl_bindtab_pack` -/
def pack (rows : Obj) : Packing (List UInt8) :=
  match rows.elements with
  | none => .error ⟨0, [], .rowsNotProper⟩
  | some rows => do
      let b ← parseRows 1 rows ⟨[], [], false⟩
      let recs := b.recs.mergeSort fun p q => nameLe p.name q.name
      match firstDuplicate recs with
      | some r => .error ⟨rows.length + 1, r.name, .duplicateName⟩
      | none =>
          let names := recs.flatMap Rec.name
          let total := headerSize + recs.length * entrySize + names.length + b.wide.length
          if maxBytevecBytes < total % 2 ^ 32 then .error ⟨rows.length + 1, [], .storage⟩
          else if 2 ^ 32 ≤ total then .error ⟨rows.length + 1, [], .undefined⟩
          else
            .ok (headerBytes recs.length (names.length + b.wide.length) b.hasLibcall ++
              ((layEntries names.length 0 recs).flatten ++ (names ++ b.wide)))

end ClAmiga.BindTab
