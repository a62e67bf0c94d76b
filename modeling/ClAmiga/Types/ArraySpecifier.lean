import ClAmiga.Types.IntegerSpecifier

/-!
# Array type specifiers

TYPEP of an object and an array specifier: the heads without arguments, the
storage class that an element type upgrades to, and the compound specifiers,
each with a branch of its own.
-/

namespace ClAmiga.Types.Arrays

open Number (clFixnumMax InFixnumRange)

/-- A length is a fixnum. -/
abbrev Length := { length : Nat // (length : Int) ≤ clFixnumMax }

/-- `CL_VEC_FLAG_*`. -/
structure VecFlags where
  fillPointer : Bool
  adjustable : Bool
  multidim : Bool
  displaced : Bool
  string : Bool
  deriving DecidableEq, Repr

def VecFlags.simple (flags : VecFlags) : Bool :=
  !(flags.fillPointer || flags.adjustable)

def VecFlags.none : VecFlags :=
  ⟨false, false, false, false, false⟩

/-- `CL_VEC_ELT_*`. -/
inductive VecElt where
  | t
  | fixnum
  | singleFloat
  | doubleFloat
  | u8
  | s8
  | u16
  | s16
  deriving DecidableEq, Repr

/-- A `CL_Vector`; its dimensions are stored from a rank of two on. -/
structure Vec where
  length : Length
  flags : VecFlags
  rank : Nat
  eltType : VecElt
  dims : List Nat
  byte : rank < 256
  stored : 1 < rank → dims.length = rank

/-- The representations of arrays, and the other objects. -/
inductive Obj where
  | string (wide : Bool) (length : Length)
  | bitVector (length : Length) (flags : VecFlags)
  | byteVector (length : Length) (flags : VecFlags) (isSigned eltShift : Bool)
  | vector (v : Vec)
  | other (identity : Nat)

namespace Obj

/-- `CL_ANY_STRING_P`. -/
def anyStringP : Obj → Bool
  | .string .. => true
  | _ => false

/-- `CL_STRING_P`. -/
def stringP : Obj → Bool
  | .string wide _ => !wide
  | _ => false

/-- `CL_STRING_VECTOR_P`. -/
def stringVectorP : Obj → Bool
  | .vector v => v.flags.string
  | _ => false

/-- `CL_BIT_VECTOR_P`. -/
def bitVectorP : Obj → Bool
  | .bitVector .. => true
  | _ => false

def length : Obj → Nat
  | .string _ length | .bitVector length _ | .byteVector length .. => length
  | .vector v => v.length
  | .other _ => 0

/-- `bi_array_dimensions`. -/
def dimensions : Obj → List Nat
  | .vector v => if v.rank > 1 then v.dims else [v.length]
  | x => [x.length]

/-- `bi_array_rank`. -/
def rank : Obj → Nat
  | .vector v => if v.rank > 1 then v.rank else 1
  | _ => 1

end Obj

inductive Head where
  | vector
  | simpleVector
  | string
  | simpleString
  | baseString
  | simpleBaseString
  | bitVector
  | simpleBitVector
  | array
  | simpleArray
  deriving DecidableEq, Repr

def Head.name : Head → String
  | .vector => "VECTOR"
  | .simpleVector => "SIMPLE-VECTOR"
  | .string => "STRING"
  | .simpleString => "SIMPLE-STRING"
  | .baseString => "BASE-STRING"
  | .simpleBaseString => "SIMPLE-BASE-STRING"
  | .bitVector => "BIT-VECTOR"
  | .simpleBitVector => "SIMPLE-BIT-VECTOR"
  | .array => "ARRAY"
  | .simpleArray => "SIMPLE-ARRAY"

/-- The array codes of `typep_builtin_code`. -/
def typepBuiltinCode : Obj → Head → Bool
  | x, .string => x.anyStringP || x.stringVectorP
  | x, .simpleString => x.anyStringP
  | x, .baseString => x.stringP || x.stringVectorP
  | x, .simpleBaseString => x.stringP
  | x, .bitVector => x.bitVectorP
  | .bitVector _ flags, .simpleBitVector => flags.simple
  | _, .simpleBitVector => false
  | .other _, .array => false
  | _, .array => true
  | .string .., .simpleArray => true
  | .bitVector _ flags, .simpleArray => flags.simple
  | .byteVector _ flags .., .simpleArray => flags.simple
  | .vector v, .simpleArray => v.flags.simple
  | .other _, .simpleArray => false
  | .vector v, .vector => decide (v.rank ≤ 1)
  | .other _, .vector => false
  | _, .vector => true
  | .vector v, .simpleVector => decide (v.rank ≤ 1) && decide (v.flags = .none)
  | _, .simpleVector => false

/-- `AEC_*`, with the classes of the general vectors. -/
inductive EltClass where
  | wild
  | bit
  | char
  | stored (code : VecElt)
  deriving DecidableEq, Repr

/-- The flags that `cl_classify_array_elt_type` sets. -/
structure EltFlags where
  isChar : Bool := false
  isWideChar : Bool := false
  isBit : Bool := false
  isU8 : Bool := false
  isS8 : Bool := false
  isU16 : Bool := false
  isS16 : Bool := false
  deriving DecidableEq, Repr

section Classes

-- the expansions of the deftypes, which are called without arguments
variable (expand : Symbol → Option Form)

/-- The compound element types, the narrowest first. -/
def classifyIntegerElt (type : Form) : Option EltFlags := do
  if ← clTypeIsBitSubtype type then return { isBit := true }
  if ← clTypeIsU8Subtype type then return { isU8 := true }
  if ← clTypeIsS8Subtype type then return { isS8 := true }
  if ← clTypeIsU16Subtype type then return { isU16 := true }
  if ← clTypeIsS16Subtype type then return { isS16 := true }
  return {}

/-- `cl_classify_array_elt_type`; `none` is a type error in a compound one. -/
def clClassifyArrayEltType : Nat → Form → Option EltFlags
  | 0, _ => some {}
  | _ + 1, .cons car cdr => classifyIntegerElt (.cons car cdr)
  | depth + 1, .symbol s =>
      if s.name == "CHARACTER" || s.name == "EXTENDED-CHAR" then
        some { isChar := true, isWideChar := true }
      else if s.name == "BASE-CHAR" || s.name == "STANDARD-CHAR" then some { isChar := true }
      else if s.name == "BIT" then some { isBit := true }
      else if s.name == "T" || s.name == "*" then some {}
      else
        match expand s with
        | some type => clClassifyArrayEltType depth type
        | none => some {}
  | _ + 1, _ => some {}

/-- `cl_classify_vec_elt_code`. -/
def clClassifyVecEltCode : Nat → Form → VecElt
  | depth + 1, .symbol s =>
      if s.name == "FIXNUM" then .fixnum
      else if s.name == "SINGLE-FLOAT" || s.name == "SHORT-FLOAT" then .singleFloat
      else if s.name == "DOUBLE-FLOAT" || s.name == "LONG-FLOAT" then .doubleFloat
      else
        match expand s with
        | some type => clClassifyVecEltCode depth type
        | none => .t
  | _, _ => .t

/-- The symbols that stand for any element type or any size. -/
def isStar : Form → Bool
  | .symbol s => s.name == "*"
  | _ => false

/-- `elt_spec_class`. -/
def eltSpecClass (et : Form) : Option EltClass :=
  if isStar et then some .wild
  else do
    let flags ← clClassifyArrayEltType expand 16 et
    if flags.isBit then return .bit
    if flags.isChar then return .char
    if flags.isU8 then return .stored .u8
    if flags.isS8 then return .stored .s8
    if flags.isU16 then return .stored .u16
    if flags.isS16 then return .stored .s16
    return .stored (clClassifyVecEltCode expand 16 et)

/-- `obj_elt_class`. -/
def objEltClass : Obj → EltClass
  | .bitVector .. => .bit
  | .string .. => .char
  | .byteVector _ _ isSigned eltShift =>
      if eltShift then (if isSigned then .stored .s16 else .stored .u16)
      else (if isSigned then .stored .s8 else .stored .u8)
  | .vector v => if v.flags.string then .char else .stored v.eltType
  | .other _ => .stored .t

/-- A length is the fixnum of a size, both as unsigned numbers; what is no fixnum is ignored. -/
def sizeMatches (length : Nat) : Form → Bool
  | .integer size =>
      if InFixnumRange size then decide ((length : Int) = size % 2 ^ 32) else true
  | _ => true

def sizeArgument (x : Obj) : Form → Option Bool
  | .nil => some true
  | args => do
      let size ← args.clCar
      return sizeMatches x.length size

def eltMatches (x : Obj) (et : Form) : Option Bool := do
  let want ← eltSpecClass expand et
  return want == .wild || objEltClass x == want

/-- The arguments of a specifier with an element type, and a size or a rank against a number of
the object; what is no fixnum, such as a list of dimensions, is not looked at. -/
def eltArguments (x : Obj) (number : Nat) : Form → Option Bool
  | .nil => some true
  | args => do
      let et ← args.clCar
      if !(← eltMatches expand x et) then return false
      match ← args.clCdr with
      | .nil => return true
      | rest =>
          let arg ← rest.clCar
          return sizeMatches number arg

/-- `(simple-vector size)`. -/
def typepSimpleVector (x : Obj) (args : Form) : Option Bool :=
  if !typepBuiltinCode x .simpleVector then some false else sizeArgument x args

/-- `(vector element-type size)`. -/
def typepVector (x : Obj) (args : Form) : Option Bool :=
  if !typepBuiltinCode x .vector then some false else eltArguments expand x x.length args

/-- `(string size)` and its three siblings. -/
def typepString (x : Obj) (args : Form) : Option Bool :=
  if !x.anyStringP then some false else sizeArgument x args

/-- `(bit-vector size)` and `(simple-bit-vector size)`. -/
def typepBitVector (x : Obj) (args : Form) : Option Bool :=
  if !x.bitVectorP then some false else sizeArgument x args

def rankField : Obj → Nat
  | .vector v => v.rank
  | _ => 1

/-- `(array element-type dims)` and `(simple-array element-type dims)`. -/
def typepArray (x : Obj) (head : Head) (args : Form) : Option Bool :=
  if !typepBuiltinCode x head then some false else eltArguments expand x (rankField x) args

def typepCompound (x : Obj) (head : Head) (args : Form) : Option Bool :=
  match head with
  | .simpleVector => typepSimpleVector x args
  | .vector => typepVector expand x args
  | .string | .simpleString | .baseString | .simpleBaseString => typepString x args
  | .bitVector | .simpleBitVector => typepBitVector x args
  | .array | .simpleArray => typepArray expand x head args

def Head.ofSymbol (s : Symbol) : Option Head :=
  [Head.vector, .simpleVector, .string, .simpleString, .baseString, .simpleBaseString,
    .bitVector, .simpleBitVector, .array, .simpleArray].find? fun head => s = .cl head.name

/-- `typep_check`, with what is no array specifier left to the other branches. -/
def typepCheck (others : Obj → Form → Option Bool) (x : Obj) (spec : Form) : Option Bool :=
  match spec with
  | .symbol s =>
      match Head.ofSymbol s with
      | some head => some (typepBuiltinCode x head)
      | none => others x spec
  | .cons (.symbol s) args =>
      match Head.ofSymbol s with
      | some head => typepCompound expand x head args
      | none => others x spec
  | spec => others x spec

end Classes

end ClAmiga.Types.Arrays
