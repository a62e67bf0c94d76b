import Mathlib.Data.List.Basic
import Mathlib.Data.BitVec
import Mathlib.Algebra.BigOperators.Group.List.Basic

/-!
# Arrays on the heap

The shape of every array: its length, fill pointer, dimensions, displacement and the
number of its element slots, and the operations that make and change arrays.  An
element's value decides nothing here but its own check against the element type;
that outcome is an argument.  Lengths stay below the dimension limit, which is far
below the largest heap object.
-/

namespace ClAmiga.Arrays

inductive Kind where
  | vector
  | string
  | bits
  | bytes
  deriving DecidableEq, Repr

/-- `CL_VEC_FLAG_*`, apart from `DISPLACED`. -/
structure Flags where
  fillPointer : Bool
  adjustable : Bool
  multidim : Bool
  string : Bool
  deriving DecidableEq, Repr

def noFlags : Flags :=
  ⟨false, false, false, false⟩

def noFillPointer : Nat := 0xFFFFFFFF
def arrayDimensionLimit : Nat := 2 ^ 20
def arrayTotalSizeLimit : Nat := 2 ^ 20
def arrayMaxRank : Nat := 16

/-- An array; `displaced` holds the backing array and the offset, `slots` counts the
element slots of its own. -/
structure Arr where
  kind : Kind
  length : Nat
  fillPointer : Nat
  flags : Flags
  /-- more than 1 for a multi-dimensional array -/
  rank : Nat
  dims : List Nat
  displaced : Option (Nat × Nat)
  slots : Nat
  deriving DecidableEq, Repr

abbrev Heap := List Arr

def Arr.dimensions (a : Arr) : List Nat :=
  if 1 < a.rank then a.dims else [a.length]

/-- `cl_vector_active_length` -/
def Arr.activeLength (a : Arr) : Nat :=
  if a.fillPointer ≠ noFillPointer then a.fillPointer else a.length

/-- An argument, as far as these functions tell arguments apart. -/
inductive Val where
  | nil
  | t
  | fixnum (word : BitVec 31)
  | array (id : Nat)
  | other
  deriving DecidableEq, Repr

/-- The cast of a fixnum to `uint32_t`. -/
def toU32 (word : BitVec 31) : Nat :=
  (word.toInt % 2 ^ 32).toNat

/-- A dimensions argument; NIL is the empty list. -/
inductive DimArg where
  | fixnum (word : BitVec 31)
  | list (dims : List Val)
  | other
  deriving DecidableEq, Repr

/-- What `cl_classify_array_elt_type` makes of an element type. -/
inductive EltClass where
  | char
  | bit
  | byte
  | general
  deriving DecidableEq, Repr

/-- A keyword and its value; `fits` is the outcome of the check on the elements. -/
inductive Arg where
  | initialElement (fits : Bool)
  | initialContents (fits : Bool)
  | fillPointer (v : Val)
  | adjustable (v : Val)
  | elementType (cls : EltClass)
  | displacedTo (v : Val)
  | displacedIndexOffset (v : Val)
  | otherKey
  deriving DecidableEq, Repr

inductive Failure where
  | bothInitial | displacedWithInitial | negativeDimension | dimensionLimit
  | displacedBounds | displacedNotArray | badElement
  | dimensionNotFixnum | totalSizeLimit | rankLimit | fillPointerRank | dimensions
  | notArray | multidimAdjust | noFillPointer | notFixnum | fillPointerRange
  | packedFull | extendLimit | negativeExtension | extensionLimit | rankDisplace | popEmpty
  | tooFewArguments | indexCount | indexRange
  deriving DecidableEq, Repr

abbrev Outcome (α : Type) := Except Failure α

/-- The locals of `bi_make_array` after its keyword loop. -/
structure Options where
  element : Option Bool
  contents : Option Bool
  fillPtr : Nat
  fillPointerIsT : Bool
  flags : Flags
  isBit : Bool
  isByte : Bool
  isChar : Bool
  displacedTo : Val
  displacedOffset : Nat
  deriving DecidableEq, Repr

def noOptions : Options :=
  ⟨none, none, noFillPointer, false, noFlags, false, false, false, .nil, 0⟩

def Options.add (o : Options) : Arg → Options
  | .initialElement fits => { o with element := some fits }
  | .initialContents fits => { o with contents := some fits }
  | .fillPointer .t =>
      { o with fillPointerIsT := true, flags := { o.flags with fillPointer := true } }
  | .fillPointer (.fixnum word) =>
      { o with fillPtr := toU32 word, flags := { o.flags with fillPointer := true } }
  | .fillPointer _ => o
  | .adjustable v =>
      if v ≠ .nil then { o with flags := { o.flags with adjustable := true } } else o
  | .elementType .char => { o with isChar := true }
  | .elementType .bit => { o with isBit := true }
  | .elementType .byte => { o with isByte := true }
  | .elementType .general => o
  | .displacedTo v => { o with displacedTo := v }
  | .displacedIndexOffset (.fixnum word) => { o with displacedOffset := toU32 word }
  | .displacedIndexOffset _ => o
  | .otherKey => o

def parseArgs (args : List Arg) : Options :=
  args.foldl Options.add noOptions

def Heap.make (h : Heap) (a : Arr) : Heap × Nat :=
  (h ++ [a], h.length)

/-- The element slots of `cl_make_array`: a vector that may be displaced in place has
room for the reference and the offset. -/
def elementSlots (total : Nat) (flags : Flags) : Nat :=
  if (flags.adjustable ∨ flags.fillPointer) ∧ total < 2 then 2 else total

/-- `cl_make_array` -/
def clMakeArray (total rank : Nat) (dims : List Nat) (flags : Flags) (fillPtr : Nat) : Arr :=
  ⟨.vector, total, fillPtr, flags, rank, dims, none,
    if 1 < rank then total else elementSlots total flags⟩

/-- A packed string, bit vector or byte vector. -/
def makePacked (kind : Kind) (length : Nat) (flags : Flags) (fillPtr : Nat) : Arr :=
  ⟨kind, length, fillPtr, flags, 0, [], none, length⟩

def makeDisplaced (length rank : Nat) (dims : List Nat) (flags : Flags)
    (fillPtr target offset : Nat) :
    Arr :=
  ⟨.vector, length, fillPtr, flags, rank, dims, some (target, offset), 0⟩

/-- The check on `:initial-element`; bytes are checked in `:initial-contents` too. -/
def Options.elementFits (o : Options) : Bool :=
  o.element.getD true

def Options.bytesFit (o : Options) : Bool :=
  o.elementFits && o.contents.getD true

/-- `:displaced-to` of a vector.  Packed targets are copied. -/
def displaceVector (h : Heap) (o : Options) (length fillPtr : Nat) : Outcome (Heap × Nat) :=
  match o.displacedTo with
  | .array id =>
      match h[id]? with
      | none => .error .displacedNotArray
      | some target =>
          if target.length < (o.displacedOffset + length) % 2 ^ 32 then .error .displacedBounds
          else
            match target.kind with
            | .string =>
                if o.flags.fillPointer ∨ o.flags.adjustable then
                  .ok (h.make (clMakeArray length 0 [] { o.flags with string := true } fillPtr))
                else .ok (h.make (makePacked .string length noFlags noFillPointer))
            | .vector =>
                let flags := { o.flags with string := o.flags.string || target.flags.string }
                .ok (h.make (makeDisplaced length 0 [] flags fillPtr id o.displacedOffset))
            | .bits => .ok (h.make (makePacked .bits length o.flags fillPtr))
            | .bytes => .ok (h.make (makePacked .bytes length o.flags fillPtr))
  | _ => .error .displacedNotArray

/-- The path of `bi_make_array` for one dimension. -/
def makeVector (h : Heap) (o : Options) (word : BitVec 31) : Outcome (Heap × Nat) :=
  let length := toU32 word
  if word.toInt < 0 then .error .negativeDimension
  else if arrayDimensionLimit < length then .error .dimensionLimit
  else
    let fillPtr := if o.fillPointerIsT then length else o.fillPtr
    if o.displacedTo ≠ .nil then displaceVector h o length fillPtr
    else if o.isBit then
      if o.elementFits then .ok (h.make (makePacked .bits length o.flags fillPtr))
      else .error .badElement
    else if o.isByte ∧ o.flags.adjustable = false then
      if o.bytesFit then .ok (h.make (makePacked .bytes length o.flags fillPtr))
      else .error .badElement
    else if o.isChar then
      if o.elementFits = false then .error .badElement
      else if o.flags.fillPointer ∨ o.flags.adjustable then
        .ok (h.make (clMakeArray length 0 [] { o.flags with string := true } fillPtr))
      else .ok (h.make (makePacked .string length noFlags noFillPointer))
    else .ok (h.make (clMakeArray length 0 [] o.flags fillPtr))

/-- The loop over a list of dimensions, with the product so far. -/
def parseDims : List Val → Nat → Nat → Outcome (List Nat × Nat)
  | [], _, total => .ok ([], total)
  | dim :: rest, rank, total =>
      if arrayMaxRank ≤ rank then .error .rankLimit
      else
        match dim with
        | .fixnum word =>
            let d := toU32 word
            if word.toInt < 0 then .error .negativeDimension
            else if arrayDimensionLimit < d then .error .dimensionLimit
            else if d ≠ 0 ∧ arrayTotalSizeLimit / d < total then .error .totalSizeLimit
            else do
              let (dims, total) ← parseDims rest (rank + 1) (total * d)
              .ok (d :: dims, total)
        | _ => .error .dimensionNotFixnum

/-- The path of `bi_make_array` for no or several dimensions. -/
def makeMultidim (h : Heap) (o : Options) (dims : List Val) : Outcome (Heap × Nat) := do
  let (dims, total) ← parseDims dims 0 1
  let rank := dims.length
  if rank = 0 then
    .ok (h.make (clMakeArray 1 0 [] o.flags (if o.fillPointerIsT then 1 else o.fillPtr)))
  else if o.fillPtr ≠ noFillPointer then .error .fillPointerRank
  else
    let flags := { o.flags with multidim := true }
    if o.displacedTo ≠ .nil then
      match o.displacedTo with
      | .array id =>
          match h[id]? with
          | none => .error .displacedNotArray
          | some target =>
              if target.kind ≠ .bytes ∧ target.kind ≠ .vector then .error .displacedNotArray
              else if target.length < (o.displacedOffset + total) % 2 ^ 32 then
                .error .displacedBounds
              else if target.kind = .bytes then
                .ok (h.make (clMakeArray total rank dims flags noFillPointer))
              else
                .ok (h.make
                  (makeDisplaced total rank dims flags noFillPointer id o.displacedOffset))
      | _ => .error .displacedNotArray
    else .ok (h.make (clMakeArray total rank dims flags noFillPointer))

/-- `bi_make_array` -/
def makeArray (h : Heap) (dims : DimArg) (args : List Arg) : Outcome (Heap × Nat) :=
  let o := parseArgs args
  if o.element.isSome ∧ o.contents.isSome then .error .bothInitial
  else if o.displacedTo ≠ .nil ∧ (o.element.isSome ∨ o.contents.isSome) then
    .error .displacedWithInitial
  else
    match dims with
    | .fixnum word => makeVector h o word
    | .list [.fixnum word] => makeVector h o word
    | .list dims => makeMultidim h o dims
    | .other => .error .dimensions

/-- The new fill pointer of `bi_adjust_array`, when one is given. -/
def adjustFill (newLen : Nat) (args : List Arg) : Option Nat :=
  args.foldl (fun fill arg =>
    match arg with
    | .fillPointer .t => some newLen
    | .fillPointer (.fixnum word) => some (toU32 word)
    | _ => fill) none

/-- The new length of `bi_adjust_array`; of a list only the first dimension counts. -/
def adjustLength (dims : DimArg) : Outcome Nat :=
  let check (word : BitVec 31) : Outcome Nat :=
    if word.toInt < 0 then .error .negativeDimension
    else if arrayDimensionLimit < toU32 word then .error .dimensionLimit
    else .ok (toU32 word)
  match dims with
  | .fixnum word => check word
  | .list (.fixnum word :: _) => check word
  | .list (_ :: _) => .error .dimensionNotFixnum
  | _ => .error .dimensions

def adjustedFill (a : Arr) (newLen : Nat) (args : List Arg) : Nat :=
  match adjustFill newLen args with
  | some fill => fill
  | none => if a.fillPointer ≠ noFillPointer then min a.fillPointer newLen else noFillPointer

def Arr.displace (a : Arr) (newArr newLen fillPtr : Nat) : Arr :=
  { a with displaced := some (newArr, 0), length := newLen, fillPointer := fillPtr, slots := 0 }

/-- `bi_adjust_array` -/
def adjustArray (h : Heap) (id : Nat) (dims : DimArg) (args : List Arg) : Outcome (Heap × Nat) :=
  match h[id]? with
  | none => .error .notArray
  | some a =>
      if a.kind ≠ .bytes ∧ a.kind ≠ .vector then .error .notArray
      else if a.kind = .vector ∧ 1 < a.rank then .error .multidimAdjust
      else do
        let newLen ← adjustLength dims
        let newFp := adjustedFill a newLen args
        if a.kind = .bytes then
          if (parseArgs args).element = some false then .error .badElement
          else
            .ok (h.make (makePacked .bytes newLen
              { noFlags with fillPointer := decide (newFp ≠ noFillPointer) } newFp))
        else
          let (h', newArr) := h.make
            (clMakeArray newLen 0 [] { a.flags with adjustable := true } newFp)
          if a.flags.adjustable then .ok (h'.set id (a.displace newArr newLen newFp), id)
          else .ok (h', newArr)

def fillPointerArray (h : Heap) (id : Nat) (kinds : List Kind) : Outcome Arr :=
  match h[id]? with
  | none => .error .notArray
  | some a =>
      if a.kind ∉ kinds then .error .notArray
      else if a.fillPointer = noFillPointer then .error .noFillPointer
      else .ok a

def Heap.setFill (h : Heap) (id : Nat) (a : Arr) (fillPtr : Nat) : Heap :=
  h.set id { a with fillPointer := fillPtr }

/-- `bi_setf_fill_pointer` -/
def setfFillPointer (h : Heap) (id : Nat) (v : Val) : Outcome Heap := do
  let a ← fillPointerArray h id [.bits, .bytes, .vector]
  match v with
  | .fixnum word =>
      if word.toInt < 0 ∨ a.length < toU32 word then .error .fillPointerRange
      else .ok (h.setFill id a (toU32 word))
  | _ => .error .notFixnum

/-- `bi_vector_push`; a full vector is left as it is. -/
def vectorPush (h : Heap) (id : Nat) (fits : Bool) : Outcome Heap := do
  let a ← fillPointerArray h id [.bytes, .vector]
  if a.length ≤ a.fillPointer then .ok h
  else if a.kind = .bytes ∧ fits = false then .error .badElement
  else .ok (h.setFill id a (a.fillPointer + 1))

/-- The capacity that `bi_vector_push_extend` grows to. -/
def newCapacity (oldLen : Nat) (ext : Option (BitVec 31)) : Outcome Nat :=
  if arrayDimensionLimit ≤ oldLen then .error .extendLimit
  else
    let newCap := max (oldLen * 2) 4
    match ext with
    | none => .ok (min newCap arrayDimensionLimit)
    | some word =>
        if word.toInt < 0 then .error .negativeExtension
        else if arrayDimensionLimit - oldLen < toU32 word then .error .extensionLimit
        else .ok (min (max newCap (oldLen + toU32 word)) arrayDimensionLimit)

/-- `bi_vector_push_extend` -/
def vectorPushExtend (h : Heap) (id : Nat) (fits : Bool) (ext : Option (BitVec 31)) :
    Outcome Heap := do
  let a ← fillPointerArray h id [.bytes, .vector]
  if a.kind = .bytes then
    if a.length ≤ a.fillPointer then .error .packedFull
    else if fits = false then .error .badElement
    else .ok (h.setFill id a (a.fillPointer + 1))
  else if a.fillPointer < a.length then .ok (h.setFill id a (a.fillPointer + 1))
  else do
    let newCap ← newCapacity a.length ext
    let (h', newArr) := h.make
      (clMakeArray newCap 0 [] { noFlags with adjustable := true } noFillPointer)
    if 1 < a.rank then .error .rankDisplace
    else .ok (h'.set id (a.displace newArr newCap (a.fillPointer + 1)))

/-- `bi_vector_pop` -/
def vectorPop (h : Heap) (id : Nat) : Outcome Heap := do
  let a ← fillPointerArray h id [.bytes, .vector]
  if a.fillPointer = 0 then .error .popEmpty
  else .ok (h.setFill id a (a.fillPointer - 1))

inductive Op where
  | makeArray (dims : DimArg) (args : List Arg)
  | adjustArray (id : Nat) (dims : DimArg) (args : List Arg)
  | setfFillPointer (id : Nat) (v : Val)
  | vectorPush (id : Nat) (fits : Bool)
  | vectorPushExtend (id : Nat) (fits : Bool) (ext : Option (BitVec 31))
  | vectorPop (id : Nat)
  deriving DecidableEq, Repr

def step (h : Heap) : Op → Outcome Heap
  | .makeArray dims args => (makeArray h dims args).map Prod.fst
  | .adjustArray id dims args => (adjustArray h id dims args).map Prod.fst
  | .setfFillPointer id v => setfFillPointer h id v
  | .vectorPush id fits => vectorPush h id fits
  | .vectorPushExtend id fits ext => vectorPushExtend h id fits ext
  | .vectorPop id => vectorPop h id

/-- `cl_vector_data_fn`: the array that holds the elements and the offset in it.  The
loop ends within `fuel` rounds or has no result. -/
def vectorData (h : Heap) : Nat → Nat → Option (Nat × Nat)
  | 0, _ => none
  | fuel + 1, id =>
      match h[id]? with
      | none => none
      | some a =>
          match a.displaced with
          | none => some (id, 0)
          | some (target, offset) =>
              (vectorData h fuel target).map fun (base, rest) => (base, (offset + rest) % 2 ^ 32)

def checkIndex (bound : Nat) : Val → Outcome Nat
  | .fixnum word =>
      if word.toInt < 0 ∨ bound ≤ toU32 word then .error .indexRange else .ok (toU32 word)
  | _ => .error .notFixnum

/-- The row-major index of subscripts, one for each dimension. -/
def rowMajor : List Val → List Nat → Nat → Outcome Nat
  | v :: rest, dim :: dims, acc => do
      let i ← checkIndex dim v
      rowMajor rest dims ((acc * dim + i) % 2 ^ 32)
  | [], [], acc => .ok acc
  | _, _, _ => .error .indexCount

/-- The index that `bi_aref` reads. -/
def arefIndex (a : Arr) (subscripts : List Val) : Outcome Nat :=
  if a.kind = .vector ∧ 1 < a.rank then
    if subscripts.length ≠ a.rank then .error .indexCount else rowMajor subscripts a.dims 0
  else
    match subscripts with
    | [] => .error .tooFewArguments
    | v :: _ => checkIndex a.length v

/-- The index that `bi_row_major_aref` reads. -/
def rowMajorArefIndex (a : Arr) (v : Val) : Outcome Nat :=
  checkIndex a.length v

/-- The index that `bi_setf_elt` writes. -/
def eltIndex (a : Arr) (v : Val) : Outcome Nat :=
  checkIndex a.activeLength v

end ClAmiga.Arrays
