import Mathlib.Data.Set.Basic
import ClAmiga.Number.Shift

/-!
# Type specifiers of integers

A type specifier is an ordinary object: a symbol, or a list whose head is one.
TYPEP compares most heads with the symbols interned in COMMON-LISP and a few by
their print name only, so a symbol keeps its home package beside its name.

An integer specifier is read twice: TYPEP compares an integer with the bounds
written in it, and SUBTYPEP and MAKE-ARRAY first turn it into a range of 64-bit
numbers.  The integers of the specifiers and the tested objects are mathematical
integers here; the fixnum and bignum arithmetic below them is exact
(`ClAmiga.Number`).
-/

namespace ClAmiga.Types

structure Symbol where
  home : String
  name : String
  deriving DecidableEq, Repr

/-- A symbol interned in `cl_package_cl`. -/
def Symbol.cl (name : String) : Symbol :=
  { home := "COMMON-LISP", name := name }

/-- `CL_NIL` is the tag 0 and not a heap symbol, so it has a constructor of its
own; the objects that no specifier is made of are `other`. -/
inductive Form where
  | nil
  | symbol (symbol : Symbol)
  | integer (value : Int)
  | cons (car cdr : Form)
  | other (identity : Nat)
  deriving DecidableEq, Repr

namespace Form

def cl (name : String) : Form := .symbol (.cl name)

def list : List Form → Form
  | [] => .nil
  | form :: rest => .cons form (list rest)

/-- `cl_car`; `none` is its type error. -/
def clCar : Form → Option Form
  | .nil => some .nil
  | .cons car _ => some car
  | _ => none

/-- `cl_cdr`; `none` is its type error. -/
def clCdr : Form → Option Form
  | .nil => some .nil
  | .cons _ cdr => some cdr
  | _ => none

@[simp] theorem clCar_nil : clCar .nil = some .nil := rfl

@[simp] theorem clCar_cons (car cdr : Form) :
    clCar (.cons car cdr) = some car := rfl

@[simp] theorem clCdr_nil : clCdr .nil = some .nil := rfl

@[simp] theorem clCdr_cons (car cdr : Form) :
    clCdr (.cons car cdr) = some cdr := rfl

end Form

open Number (clFixnumMin clFixnumMax InFixnumRange floorShift)

instance (z : Int) : Decidable (InFixnumRange z) :=
  inferInstanceAs (Decidable (_ ∧ _))

/-- `INT64_MIN`, read as no lower bound. -/
def intRangeLoInf : Int := -0x8000000000000000

/-- `INT64_MAX`, read as no upper bound. -/
def intRangeHiInf : Int := 0x7FFFFFFFFFFFFFFF

/-- `int_range_t`. -/
structure IntRange where
  lo : Int
  hi : Int
  known : Bool
  integerTyped : Bool
  deriving DecidableEq, Repr

/-- What `parse_integer_spec` starts from. -/
def IntRange.start : IntRange :=
  { lo := intRangeLoInf, hi := intRangeHiInf, known := false, integerTyped := false }

/-- An integer specifier whose bounds are not computed. -/
def IntRange.punt : IntRange :=
  { IntRange.start with integerTyped := true }

def IntRange.between (lo hi : Int) : IntRange :=
  { lo := lo, hi := hi, known := true, integerTyped := true }

/-- The two outcomes of `parse_int_bound` besides its failure: the bound, and
whether it is infinite. -/
def parseIntBound (isLow : Bool) : Form → Option (Int × Bool)
  | .symbol star =>
      if star.name == "*" then
        some (if isLow then intRangeLoInf else intRangeHiInf, true)
      else none
  | .cons car .nil =>
      match parseIntBound isLow car with
      | none => none
      | some (v, true) => some (v, true)
      | some (v, false) => some (if isLow then v + 1 else v - 1, false)
  | .integer value =>
      if InFixnumRange value then some (value, false) else none
  | _ => none

/-- The specifiers that are symbols, by name. -/
def parseAtomicSpec (name : String) : IntRange :=
  if name == "INTEGER" then .between intRangeLoInf intRangeHiInf
  else if name == "FIXNUM" then .between clFixnumMin clFixnumMax
  else if name == "BIT" then .between 0 1
  else if name == "UNSIGNED-BYTE" then .between 0 intRangeHiInf
  else if name == "SIGNED-BYTE" then .between intRangeLoInf intRangeHiInf
  else .start

/-- `(INTEGER low high)`. -/
def parseIntegerBounds (args : Form) : Option IntRange :=
  match args with
  | .nil => some (.between intRangeLoInf intRangeHiInf)
  | args => do
      let low ← args.clCar
      match parseIntBound true low with
      | none => return .punt
      | some (lo, _) =>
          let rest ← args.clCdr
          match rest with
          | .nil => return .between lo intRangeHiInf
          | rest =>
              let high ← rest.clCar
              match parseIntBound false high with
              | none => return .punt
              | some (hi, _) => return .between lo hi

/-- `(MOD n)`. -/
def parseMod (args : Form) : Option IntRange :=
  match args with
  | .nil => some .start
  | args => do
      match ← args.clCar with
      | .integer nv =>
          if InFixnumRange nv then
            if nv > 0 then return .between 0 (nv - 1)
            else if nv = 0 then return .between 1 0
            else return .punt
          else return .punt
      | _ => return .punt

/-- `(UNSIGNED-BYTE n)`. -/
def parseUnsignedByte (args : Form) : Option IntRange :=
  match args with
  | .nil => some (.between 0 intRangeHiInf)
  | args => do
      match ← args.clCar with
      | .symbol star =>
          return if star.name == "*" then .between 0 intRangeHiInf else .punt
      | .integer nv =>
          return if InFixnumRange nv ∧ nv ≥ 0 ∧ nv < 62 then
            .between 0 (2 ^ nv.toNat - 1) else .punt
      | _ => return .punt

/-- `(SIGNED-BYTE n)`. -/
def parseSignedByte (args : Form) : Option IntRange :=
  match args with
  | .nil => some (.between intRangeLoInf intRangeHiInf)
  | args => do
      match ← args.clCar with
      | .symbol star =>
          return if star.name == "*" then
            .between intRangeLoInf intRangeHiInf else .punt
      | .integer nv =>
          return if InFixnumRange nv ∧ nv ≥ 1 ∧ nv ≤ 63 then
            .between (-2 ^ (nv - 1).toNat) (2 ^ (nv - 1).toNat - 1) else .punt
      | _ => return .punt

/-- `parse_integer_spec`; `none` is a type error of CAR or CDR. -/
def parseIntegerSpec : Form → Option IntRange
  | .symbol symbol => some (parseAtomicSpec symbol.name)
  | .cons (.symbol head) args =>
      if head.name == "INTEGER" then parseIntegerBounds args
      else if head.name == "MOD" then parseMod args
      else if head.name == "UNSIGNED-BYTE" then parseUnsignedByte args
      else if head.name == "SIGNED-BYTE" then parseSignedByte args
      else some .start
  | _ => some .start

def isNonIntegerNumericSupertype : Form → Bool
  | .symbol symbol =>
      ["RATIONAL", "REAL", "NUMBER", "COMPLEX", "FLOAT", "SHORT-FLOAT",
        "SINGLE-FLOAT", "DOUBLE-FLOAT", "LONG-FLOAT", "RATIO"].contains symbol.name
  | _ => false

def isIntegerSupertype : Form → Bool
  | .symbol symbol => ["RATIONAL", "REAL", "NUMBER"].contains symbol.name
  | _ => false

/-- The last part of `cl_subtypep_integer_ranges`, two integer specifiers. -/
def compareRanges (r1 r2 : IntRange) : Int :=
  if !r1.known || !r2.known then -1
  else if r1.lo > r1.hi then 1
  else if r2.lo > r2.hi then 0
  else if r1.lo ≥ r2.lo ∧ r1.hi ≤ r2.hi then 1 else 0

/-- 1 is a certain yes, 0 a certain no, and -1 leaves the question to the other
rules of SUBTYPEP. -/
def clSubtypepIntegerRanges (t1 t2 : Form) : Option Int := do
  let r1 ← parseIntegerSpec t1
  let r2 ← parseIntegerSpec t2
  if !r1.integerTyped && !r2.integerTyped then return -1
  if !r1.integerTyped && r2.integerTyped && isNonIntegerNumericSupertype t1 then
    return 0
  if r1.integerTyped && !r2.integerTyped && isNonIntegerNumericSupertype t2 &&
      isIntegerSupertype t2 then
    return 1
  if !r1.integerTyped || !r2.integerTyped then return -1
  return compareRanges r1 r2

/-- The common body of the classifiers: the range lies between two numbers. -/
def clTypeFits (lo hi : Int) (type : Form) : Option Bool := do
  let r ← parseIntegerSpec type
  return r.integerTyped && r.known && decide (r.lo ≥ lo) && decide (r.hi ≤ hi)

def clTypeIsBitSubtype (type : Form) : Option Bool := clTypeFits 0 1 type

def clTypeIsU8Subtype (type : Form) : Option Bool := clTypeFits 0 255 type

def clTypeIsS8Subtype (type : Form) : Option Bool := clTypeFits (-128) 127 type

def clTypeIsU16Subtype (type : Form) : Option Bool := clTypeFits 0 65535 type

def clTypeIsS16Subtype (type : Form) : Option Bool := clTypeFits (-32768) 32767 type

/-- The parts of TYPEP that no integer specifier reaches: the remaining heads
and symbols, and the comparison of an integer with a bound that is none. -/
structure OtherTypes where
  typep : Int → Form → Option Bool
  compare : Int → Form → Option Ordering

variable (others : OtherTypes)

/-- `cl_arith_compare` of an integer with the bound of a specifier. -/
def clArithCompareBound (obj : Int) : Form → Option Ordering
  | .integer bound => some (compare obj bound)
  | bound => others.compare obj bound

/-- The lower bound of `check_numeric_range`: `*` and NIL are none, a list holds
an exclusive bound. -/
def lowBoundFails (obj : Int) (low : Form) : Option Bool :=
  if low = .cl "*" ∨ low = .nil then some false
  else
    match low with
    | .cons bound _ => (clArithCompareBound others obj bound).map (· != .gt)
    | bound => (clArithCompareBound others obj bound).map (· == .lt)

def highBoundFails (obj : Int) (high : Form) : Option Bool :=
  if high = .cl "*" ∨ high = .nil then some false
  else
    match high with
    | .cons bound _ => (clArithCompareBound others obj bound).map (· != .lt)
    | bound => (clArithCompareBound others obj bound).map (· == .gt)

def integerOfBase (obj : Int) (head : String) : Bool :=
  if head == "INTEGER" then true
  else if head == "FIXNUM" then decide (InFixnumRange obj)
  else if head == "BIGNUM" then !decide (InFixnumRange obj)
  else head == "RATIONAL" || head == "REAL" || head == "NUMBER"

/-- `check_numeric_range`. -/
def checkNumericRange (obj : Int) (head : String) (args : Form) : Option Bool :=
  if !integerOfBase obj head then some false
  else
    match args with
    | .nil => some true
    | args => do
        let low ← args.clCar
        let rest ← args.clCdr
        if ← lowBoundFails others obj low then return false
        match rest with
        | .nil => return true
        | rest =>
            let high ← rest.clCar
            return !(← highBoundFails others obj high)

/-- `(UNSIGNED-BYTE n)`: an argument that is no fixnum bounds nothing. -/
def typepUnsignedByte (obj : Int) (args : Form) : Option Bool :=
  if obj < 0 then some false
  else do
    match ← args.clCar with
    | .integer bits =>
        return if InFixnumRange bits then decide (obj - floorShift 1 bits < 0) else true
    | _ => return true

/-- `(MOD n)`. -/
def typepMod (obj : Int) (args : Form) : Option Bool :=
  if obj < 0 then some false
  else do
    match ← args.clCar with
    | .integer n => return decide (obj - n < 0)
    | _ => return true

/-- `(SIGNED-BYTE n)`. -/
def typepSignedByte (obj : Int) (args : Form) : Option Bool := do
  match ← args.clCar with
  | .integer bits =>
      return if InFixnumRange bits then
        let half := floorShift 1 (bits - 1)
        !decide (obj - -half < 0) && decide (obj - half < 0)
      else true
  | _ => return true

/-- `typep_symbol` of an integer.  The code of a standard type is kept in the
symbol of COMMON-LISP; other symbols take the path of the user types. -/
def typepSymbol (obj : Int) (symbol : Symbol) : Option Bool :=
  if symbol = .cl "INTEGER" ∨ symbol = .cl "SIGNED-BYTE" then some true
  else if symbol = .cl "FIXNUM" then some (decide (InFixnumRange obj))
  else if symbol = .cl "BIGNUM" then some (!decide (InFixnumRange obj))
  else if symbol = .cl "UNSIGNED-BYTE" then some (decide (obj ≥ 0))
  else if symbol = .cl "BIT" then some (decide (obj = 0 ∨ obj = 1))
  else others.typep obj (.symbol symbol)

/-- The heads compared with `check_numeric_range`. -/
def isNumericHead (head : Symbol) : Bool :=
  head.home == "COMMON-LISP" &&
    ["INTEGER", "FIXNUM", "BIGNUM", "RATIO", "RATIONAL", "REAL", "FLOAT",
      "SINGLE-FLOAT", "SHORT-FLOAT", "DOUBLE-FLOAT", "LONG-FLOAT",
      "NUMBER"].contains head.name

/-- `typep_check` of an integer. -/
def typepCheck (obj : Int) : Form → Option Bool
  | .symbol symbol => typepSymbol others obj symbol
  | .cons (.symbol head) args =>
      if isNumericHead head then checkNumericRange others obj head.name args
      else if head.name == "UNSIGNED-BYTE" then typepUnsignedByte obj args
      else if head.name == "MOD" then typepMod obj args
      else if head.name == "SIGNED-BYTE" then typepSignedByte obj args
      else others.typep obj (.cons (.symbol head) args)
  | form => others.typep obj form

end ClAmiga.Types
