import ClAmiga.BindTab.Pack
import ClAmiga.Search.PartitionPoint

/-!
# Reading and probing a binding table

The view of a blob, its validation, and the decoding of its entries into rows in
the syntax the packer reads; then the probe of a table for a name, and what the
materialiser and the listing take out of the blob.  Offsets are relative to the
entries and to the name arena, as in the blob.  A read that leaves the blob, and a
copy into a buffer that is too small for it, have no result.
-/

namespace ClAmiga.BindTab

open Wire Number Bignum Radix

/-- `BtEntry` -/
structure Entry where
  nameOff : Nat
  nameLen : Nat
  kind : Nat
  flags : Nat
  a : Nat
  b : Int
  c : Nat
  d : Nat
  deriving DecidableEq, Repr

/-- `BtView`: the entries and the name arena run to the end of the blob. -/
structure View where
  n : Nat
  namesLen : Nat
  entries : List UInt8
  names : List UInt8
  deriving DecidableEq, Repr

def viewBlob (blob : List UInt8) : View :=
  let n := rd32 blob 8
  ⟨n, rd32 blob 12, blob.drop headerSize, blob.drop (headerSize + n * entrySize)⟩

/-- The cast of 16 bits to `int16_t`. -/
def toInt16 (w : Nat) : Int :=
  if w < 2 ^ 15 then w else (w : Int) - 2 ^ 16

def decodeEntry (v : View) (i : Nat) : Entry :=
  let p := entrySize * i
  { nameOff := rd32 v.entries p
    nameLen := rd16 v.entries (p + 4)
    kind := byteAt v.entries (p + 6)
    flags := byteAt v.entries (p + 7)
    a := rd32 v.entries (p + 8)
    b := toInt16 (rd16 v.entries (p + 12))
    c := byteAt v.entries (p + 14)
    d := byteAt v.entries (p + 15) }

def entryName (v : View) (e : Entry) : List UInt8 :=
  slice v.names e.nameOff e.nameLen

def hasFlag (flags flag : Nat) : Bool :=
  decide (flags &&& flag ≠ 0)

/-- `BtValue` -/
structure Value where
  wide : Bool
  string : Bool
  a : Nat
  isSigned : Bool
  neg : Nat
  mag : List UInt8
  deriving DecidableEq, Repr

def decodeValue (v : View) (e : Entry) : Value :=
  let isSigned := hasFlag e.flags flagSigned
  if hasFlag e.flags flagWide then
    ⟨true, false, e.a, isSigned, byteAt v.names (e.a + 1),
      slice v.names (e.a + 2) (byteAt v.names e.a)⟩
  else if hasFlag e.flags flagString then
    ⟨false, true, e.a, isSigned, 0, slice v.names (e.a + 1) (byteAt v.names e.a)⟩
  else ⟨false, false, e.a, isSigned, 0, []⟩

def limbs64 (v : Nat) : List Limb :=
  [BitVec.ofNat 16 v, BitVec.ofNat 16 (v >>> 16), BitVec.ofNat 16 (v >>> 32),
    BitVec.ofNat 16 (v >>> 48)]

/-- `cl_ffi_u64_to_obj` -/
def ffiU64ToObj (v : Nat) : ClInt :=
  if (v : Int) ≤ clFixnumMax then clMakeFixnum v
  else clBignumNormalize (.bignum false (limbs64 v))

/-- `cl_ffi_i64_to_obj` -/
def ffiI64ToObj (v : Int) : ClInt :=
  if clFixnumMin ≤ v ∧ v ≤ clFixnumMax then clMakeFixnum v
  else clBignumNormalize (.bignum (decide (v < 0)) (limbs64 v.natAbs))

/-- The cast of 32 bits to `int32_t`. -/
def toInt32 (w : Nat) : Int :=
  if w < 2 ^ 31 then w else (w : Int) - 2 ^ 32

def limbsOfMag (mag : List UInt8) : List Limb :=
  (List.range ((mag.length + 1) / 2)).map fun i =>
    let lo := byteAt mag (mag.length - 2 * i - 1)
    let hi := if 2 * i + 2 ≤ mag.length then byteAt mag (mag.length - 2 * i - 2) else 0
    BitVec.ofNat 16 (lo ||| (hi <<< 8))

/-- `value_to_obj`; the 128 limbs of the longest magnitude always fit the heap. -/
def valueToObj (val : Value) : Obj :=
  if val.string then .string (val.mag.map UInt8.toNat)
  else if val.wide = false then
    .integer (if val.isSigned then ffiI64ToObj (toInt32 val.a) else ffiU64ToObj val.a)
  else .integer (clBignumNormalize (.bignum (decide (val.neg ≠ 0)) (limbsOfMag val.mag)))

/-- The messages of `validate_blob` on a vector of bytes. -/
inductive Malformed where
  | shortHeader | badMagic | badVersion | entryCount | lengthMismatch
  | emptyName | nameOutside | nonAsciiName | unknownKind | unknownFlag
  | wideAndString | wideOutside | stringOutside | nonAsciiString
  | tooManyArguments | badResultKind | badRegister | lvoNotNegative
  | badAccessor | badFieldType | badElementSize
  | notSorted | duplicateName
  deriving DecidableEq, Repr

def anyHigh (bytes : List UInt8) : Bool :=
  bytes.any fun byte => decide (0x80 ≤ byte.toNat)

def checkValue (v : View) (e : Entry) : Option Malformed :=
  let isWide := hasFlag e.flags flagWide
  let isString := hasFlag e.flags flagString
  if isWide ∧ isString then some .wideAndString
  else if isWide ∧ v.namesLen < e.a + 2 then some .wideOutside
  else if isWide ∧ (byteAt v.names e.a = 0 ∨ v.namesLen < e.a + 2 + byteAt v.names e.a) then
    some .wideOutside
  else if isString ∧ (v.namesLen < e.a + 1 ∨ v.namesLen < e.a + 1 + byteAt v.names e.a) then
    some .stringOutside
  else if isString ∧ anyHigh (slice v.names (e.a + 1) (byteAt v.names e.a)) then
    some .nonAsciiString
  else none

/-- `CL_AMIGA_RES_KIND` -/
def resKind (a : Nat) : Nat :=
  (a >>> 28) &&& 0xF

/-- The number of an argument's register. -/
def regNibble (a i : Nat) : Nat :=
  (a >>> (4 * i)) &&& 0xF

def checkLibcall (e : Entry) : Option Malformed :=
  if 7 < e.c then some .tooManyArguments
  else if 8 < resKind e.a then some .badResultKind
  else if (List.range e.c).any fun i => decide (12 < regNibble e.a i) then some .badRegister
  else if 0 ≤ e.b then some .lvoNotNegative
  else none

def checkField (e : Entry) : Option Malformed :=
  if e.d ≠ stubPeek ∧ e.d ≠ stubPeekIdx ∧ e.d ≠ stubFieldPtr then some .badAccessor
  else if e.d ≠ stubFieldPtr ∧ 9 < e.c then some .badFieldType
  else if e.d = stubPeekIdx ∧ e.b ≠ 1 ∧ e.b ≠ 2 ∧ e.b ≠ 4 ∧ e.b ≠ 8 then some .badElementSize
  else none

def checkKind (v : View) (e : Entry) : Option Malformed :=
  if e.kind = Kind.const.code ∨ e.kind = Kind.var.code then checkValue v e
  else if e.kind = Kind.libcall.code then checkLibcall e
  else if e.kind = Kind.field.code then checkField e
  else none

def checkEntry (v : View) (e : Entry) : Option Malformed :=
  if e.nameLen = 0 then some .emptyName
  else if v.namesLen < e.nameOff + e.nameLen then some .nameOutside
  else if anyHigh (entryName v e) then some .nonAsciiName
  else if 4 < e.kind then some .unknownKind
  else if hasFlag e.flags (0xFF - 0x1F) then some .unknownFlag
  else checkKind v e

def checkOrder (v : View) (prev : Option Entry) (e : Entry) : Option Malformed :=
  match prev with
  | none => none
  | some prev =>
      if nameLe (entryName v prev) (entryName v e) = false then some .notSorted
      else if entryName v prev = entryName v e ∧
          ¬ (prev.kind = Kind.libcall.code ∧ e.kind = Kind.libcall.code) then
        some .duplicateName
      else none

/-- The loop of `validate_blob`, with the entry before. -/
def checkEntries (v : View) : Option Entry → List Entry → Option Malformed
  | _, [] => none
  | prev, e :: rest =>
      match checkEntry v e with
      | some message => some message
      | none =>
          match checkOrder v prev e with
          | some message => some message
          | none => checkEntries v (some e) rest

def decodeEntries (v : View) : List Entry :=
  (List.range v.n).map (decodeEntry v)

/-- `validate_blob`, on a vector of bytes. -/
def validateBlob (blob : List UInt8) : Option Malformed :=
  if blob.length < headerSize then some .shortHeader
  else if rd32 blob 0 ≠ btMagic then some .badMagic
  else if byteAt blob 4 ≠ btVersion then some .badVersion
  else
    let v := viewBlob blob
    if 0x00FFFFFF < v.n then some .entryCount
    else if headerSize + v.n * entrySize + v.namesLen ≠ blob.length then some .lengthMismatch
    else checkEntries v none (decodeEntries v)

def keywordAt (table : List String) (i : Nat) : Obj :=
  keyword (table.getD i "")

def fieldTypeRow (e : Entry) : Obj :=
  if e.d = stubFieldPtr then keyword "STRUCT"
  else if e.d = stubPeekIdx then
    .ofList [keyword "ARRAY", keywordAt ctNames e.c, .integer (clMakeFixnum (e.a >>> 16))]
  else keywordAt ctNames e.c

def optionsRow (flags minver : Nat) : List Obj :=
  (if hasFlag flags flagNotMorphos then [keyword "NOT-MORPHOS"] else []) ++
    ((if hasFlag flags flagMorphos then [keyword "MORPHOS"] else []) ++
      (if minver ≠ 0 then [.integer (clMakeFixnum minver)] else []))

/-- `entry_row` -/
def entryRow (e : Entry) (name : List UInt8) (val : Value) : Obj :=
  let nameStr : Obj := .string (name.map UInt8.toNat)
  if e.kind = Kind.const.code ∨ e.kind = Kind.var.code then
    .ofList [keyword (if e.kind = Kind.const.code then "CONST" else "VAR"), nameStr,
      valueToObj val]
  else if e.kind = Kind.libcall.code then
    .ofList (keyword "FN" :: nameStr :: .integer (clMakeFixnum e.b) ::
      .ofList ((List.range e.c).map fun i => keywordAt regNames (regNibble e.a i)) ::
      keywordAt resNames (resKind e.a) :: optionsRow e.flags e.d)
  else if e.kind = Kind.field.code then
    let offset := if e.d = stubPeekIdx then e.a &&& 0xFFFF else e.a
    .ofList [keyword "FIELD", nameStr, fieldTypeRow e, .integer (clMakeFixnum offset)]
  else .ofList [keyword "NAME", nameStr]

/-- `%binding-table-entries` of a blob. -/
def bindingTableEntries (blob : List UInt8) : Except Malformed (List Obj) :=
  match validateBlob blob with
  | some message => .error message
  | none =>
      let v := viewBlob blob
      .ok ((decodeEntries v).map fun e => entryRow e (entryName v e) (decodeValue v e))

def readBytes (blob : List UInt8) (off len : Nat) : Option (List UInt8) :=
  if off + len ≤ blob.length then some (slice blob off len) else none

def copyTo (size : Nat) (bytes : List UInt8) : Option (List UInt8) :=
  if bytes.length ≤ size then some bytes else none

/-- `view_blob` -/
def readView (blob : List UInt8) : Option View :=
  (readBytes blob 0 headerSize).map fun _ => viewBlob blob

/-- `decode_entry` -/
def readEntry (blob : List UInt8) (v : View) (i : Nat) : Option Entry :=
  (readBytes blob (headerSize + entrySize * i) entrySize).map fun bytes =>
    decodeEntry { v with entries := bytes } 0

def namesOff (v : View) : Nat :=
  headerSize + v.n * entrySize

/-- The bytes at `entry_name`. -/
def readName (blob : List UInt8) (v : View) (e : Entry) : Option (List UInt8) :=
  readBytes blob (namesOff v + e.nameOff) e.nameLen

/-- `decode_value`, into a buffer of 255 bytes. -/
def readValue (blob : List UInt8) (v : View) (e : Entry) : Option Value :=
  let isSigned := hasFlag e.flags flagSigned
  if hasFlag e.flags flagWide then do
    let head ← readBytes blob (namesOff v + e.a) 2
    let bytes ← readBytes blob (namesOff v + e.a + 2) (byteAt head 0)
    let mag ← copyTo 255 bytes
    some ⟨true, false, e.a, isSigned, byteAt head 1, mag⟩
  else if hasFlag e.flags flagString then do
    let head ← readBytes blob (namesOff v + e.a) 1
    let bytes ← readBytes blob (namesOff v + e.a + 1) (byteAt head 0)
    let mag ← copyTo 255 bytes
    some ⟨false, true, e.a, isSigned, 0, mag⟩
  else some ⟨false, false, e.a, isSigned, 0, []⟩

/-- Whether `:MORPHOS` is a feature, and the fixnum in the version variable, if it has one. -/
structure Guards where
  morphos : Bool
  version : Option Int

/-- `guard_ok` -/
def guardOk (guards : Guards) (e : Entry) : Bool :=
  if hasFlag e.flags flagNotMorphos ∧ guards.morphos then false
  else if hasFlag e.flags flagMorphos ∧ guards.morphos = false then false
  else if e.kind = Kind.libcall.code ∧ e.d ≠ 0 then
    match guards.version with
    | none => false
    | some version => decide ((e.d : Int) ≤ version)
  else true

def nameBelow (blob : List UInt8) (v : View) (name : List UInt8) (i : Nat) : Option Bool := do
  let e ← readEntry blob v i
  let held ← readName blob v e
  some !(nameLe name held)

/-- `lower_bound` -/
def lowerBound (blob : List UInt8) (v : View) (name : List UInt8) : Option Nat :=
  Search.partitionPoint (nameBelow blob v name) v.n 0 v.n

/-- `entry_name_is` -/
def entryNameIs (blob : List UInt8) (v : View) (i : Nat) (name : List UInt8) : Option Bool :=
  if v.n ≤ i then some false
  else do
    let e ← readEntry blob v i
    if e.nameLen = name.length then
      let held ← readName blob v e
      some (decide (held = name))
    else some false

def firstVariant (blob : List UInt8) (v : View) (guards : Guards) (name : List UInt8) :
    Nat → Nat → Option (Option Nat)
  | 0, _ => some none
  | left + 1, j => do
      if ← entryNameIs blob v j name then
        let e ← readEntry blob v j
        if guardOk guards e then some (some j) else firstVariant blob v guards name left (j + 1)
      else some none

structure Hit where
  nameIdx : Nat
  defIdx : Option Nat
  wantSetter : Bool
  deriving DecidableEq, Repr

/-- `%SET-` -/
def setPrefix : List UInt8 :=
  bytesOf "%SET-"

def Entry.writable (e : Entry) : Bool :=
  decide (e.kind = Kind.field.code ∧ e.d ≠ stubFieldPtr)

/-- `cl_bindtab_probe_nolock`, on the table of a package, if it has one. -/
def probeNolock (table : Option (List UInt8)) (guards : Guards) (name : List UInt8)
    (allowSetter : Bool) : Option (Option Hit) :=
  match table with
  | none => some none
  | some blob => do
      let v ← readView blob
      let i ← lowerBound blob v name
      if ← entryNameIs blob v i name then
        let j ← firstVariant blob v guards name v.n i
        some (some ⟨i, j, false⟩)
      else if allowSetter ∧ 5 < name.length ∧ name.take 5 = setPrefix then
        let i ← lowerBound blob v (name.drop 5)
        if ← entryNameIs blob v i (name.drop 5) then
          let e ← readEntry blob v i
          some (if e.writable then some ⟨i, some i, true⟩ else none)
        else some none
      else some none

/-- What `cl_bindtab_materialize` takes out of the blob: the name, the definition with its
value, and the name of the setter. -/
structure Prepared where
  name : List UInt8
  definition : Option (Entry × Option Value)
  setterName : Option (List UInt8)
  deriving DecidableEq, Repr

def Entry.isValue (e : Entry) : Bool :=
  decide (e.kind = Kind.const.code ∨ e.kind = Kind.var.code)

/-- The first step of `cl_bindtab_materialize`. -/
def prepare (blob : List UInt8) (nameIdx : Nat) (defIdx : Option Nat) : Option Prepared := do
  let v ← readView blob
  let named ← readEntry blob v nameIdx
  let bytes ← readName blob v named
  let name ← copyTo 256 bytes
  match defIdx with
  | none => some ⟨name, none, none⟩
  | some j =>
      let e ← readEntry blob v j
      let value ← if e.isValue then (readValue blob v e).map some else some none
      let setterName ← if e.writable then (copyTo 262 (setPrefix ++ name)).map some else some none
      some ⟨name, some (e, value), setterName⟩

def repeatsName (blob : List UInt8) (v : View) (i : Nat) (e : Entry) : Option Bool :=
  match i with
  | 0 => some false
  | j + 1 => do
      let p ← readEntry blob v j
      if p.nameLen = e.nameLen then
        let before ← readName blob v p
        let name ← readName blob v e
        some (decide (before = name))
      else some false

/-- One round of the loop of `cl_bindtab_materialize_all`, for the names that are not in the
package yet. -/
def materializeRound (blob : List UInt8) (guards : Guards) (present : List UInt8 → Bool)
    (i : Nat) : Option (Option Prepared) := do
  let v ← readView blob
  let e ← readEntry blob v i
  if ← repeatsName blob v i e then some none
  else
    let bytes ← readName blob v e
    let name ← copyTo 256 bytes
    if present name then some none
    else
      match ← probeNolock (some blob) guards name false with
      | none => some none
      | some hit => (prepare blob hit.nameIdx hit.defIdx).map some

/-- One round of the loop of `%binding-table-entries`. -/
def listRound (blob : List UInt8) (i : Nat) : Option Obj := do
  let v ← readView blob
  let e ← readEntry blob v i
  let bytes ← readName blob v e
  let name ← copyTo 256 bytes
  let value ← if e.isValue then readValue blob v e else some ⟨false, false, 0, false, 0, []⟩
  some (entryRow e name value)

end ClAmiga.BindTab
