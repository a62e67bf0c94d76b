import ClAmiga.Number.IntegerSpec
import ClAmiga.Number.Ratio
import ClAmiga.Float.Layout
import Mathlib.Data.Rat.Defs

/-!
# Keys of hash tables

Lisp objects as far as the tests EQ, EQL, EQUAL and EQUALP and the hash function look
at them.  An object on the heap carries its identity, a number that stays the same
when the collector moves the object; the words that are hashed by identity are given
by the present place of each identity.
-/

namespace ClAmiga.HashTable

open Number Bignum

/-- `uint32_t` -/
abbrev Word := BitVec 32

inductive Test where
  | eq
  | eql
  | equal
  | equalp
  deriving DecidableEq, Repr

/-- A number that is no complex. -/
inductive Real where
  | fixnum (word : BitVec 31)
  | bignum (id : Nat) (sign : Bool) (limbs : List Limb)
  | ratio (id : Nat) (numerator denominator : ClInt)
  | single (id : Nat) (bits : BitVec 32)
  | double (id : Nat) (bits : BitVec 64)
  deriving DecidableEq, Repr

structure BitVector where
  length : Nat
  fillPointer : Option Nat
  data : List Word
  deriving DecidableEq, Repr

/-- Objects.  Vectors and byte vectors are given by their active elements; `dims` is
empty for a vector of one dimension, and `isString` is `CL_VEC_FLAG_STRING`.  `other` is
any object that is compared by identity only. -/
inductive Obj where
  | nil
  | char (code : Nat)
  | real (number : Real)
  | complex (id : Nat) (realpart imagpart : Real)
  | string (id : Nat) (data : List (BitVec 8))
  | wideString (id : Nat) (data : List Nat)
  | vector (id : Nat) (isString : Bool) (dims : List Nat) (data : List Obj)
  | bitVector (id : Nat) (bits : BitVector)
  | byteVector (id : Nat) (data : List (BitVec 31))
  | cons (id : Nat) (car cdr : Obj)
  | pathname (id : Nat) (host device name type version directory : Obj)
  | struct (id : Nat) (typeDesc : Obj) (slots : List Obj)
  | hashTable (id : Nat)
  | other (id : Nat)

/-- What `==` sees of an object. -/
inductive Ident where
  | nil
  | fixnum (word : BitVec 31)
  | char (code : Nat)
  | heap (id : Nat)
  deriving DecidableEq, Repr

def Real.ident : Real → Ident
  | .fixnum word => .fixnum word
  | .bignum id _ _ | .ratio id _ _ | .single id _ | .double id _ => .heap id

def Obj.ident : Obj → Ident
  | .nil => .nil
  | .char code => .char code
  | .real number => number.ident
  | .complex id _ _ | .string id _ | .wideString id _ | .vector id _ _ _ | .bitVector id _
  | .byteVector id _ | .cons id _ _ | .pathname id _ _ _ _ _ _ | .struct id _ _
  | .hashTable id | .other id => .heap id

/-- `a == b` -/
def same (a b : Obj) : Bool :=
  decide (a.ident = b.ident)

/-- `x != x` -/
def isNan : Float.Precision → Nat → Bool
  | .double, bits => Float.isInfOrNan .double bits && decide (bits &&& 0x000FFFFFFFFFFFFF ≠ 0)
  | .single, bits => Float.isInfOrNan .single bits && decide (bits &&& 0x007FFFFF ≠ 0)

/-- `==` of two C floating point numbers. -/
def floatEq (precision : Float.Precision) (a b : Nat) : Bool :=
  !isNan precision a && !isNan precision b &&
    (decide (a = b) || (Float.isZero precision a && Float.isZero precision b))

def valueEq : Real → Real → Bool
  | .bignum _ sign limbs, .bignum _ sign' limbs' => decide (sign = sign' ∧ limbs = limbs')
  | .ratio _ num den, .ratio _ num' den' => clRatioEqual (.ratio num den) (.ratio num' den')
  | .single _ bits, .single _ bits' => floatEq .single bits.toNat bits'.toNat
  | .double _ bits, .double _ bits' => floatEq .double bits.toNat bits'.toNat
  | _, _ => false

/-- `bi_eql` on two such numbers: numbers of one kind are compared by value even when they
are the same object. -/
def eqlReal (a b : Real) : Bool :=
  match a, b with
  | .bignum _ _ _, .bignum _ _ _ | .ratio _ _ _, .ratio _ _ _ | .single _ _, .single _ _
  | .double _ _, .double _ _ => valueEq a b
  | _, _ => decide (a.ident = b.ident)

/-- A float or rational as a fraction, for a finite float. -/
def Real.toRat : Real → ℚ
  | .fixnum word => word.toInt
  | .bignum _ sign limbs => (ClInt.bignum sign limbs).toInt
  | .ratio _ num den => num.toInt / den.toInt
  | .single _ bits => floatRat .single bits.toNat
  | .double _ bits => floatRat .double bits.toNat
where
  floatRat (precision : Float.Precision) (bits : Nat) : ℚ :=
    let (f, e, _) := Float.decodeBits precision bits
    (if Float.isNegative precision bits then -(f : ℚ) else f) * 2 ^ e

def Real.floatBits : Real → Option (Float.Precision × Nat)
  | .single _ bits => some (.single, bits.toNat)
  | .double _ bits => some (.double, bits.toNat)
  | _ => none

/-- `cl_arith_compare(a, b) == 0`: two floats are equal unless one is less, so a NaN is
equal to every float; a float and a rational are compared exactly. -/
def compareEqual (a b : Real) : Bool :=
  match a.floatBits, b.floatBits with
  | some (p, x), some (q, y) =>
      if isNan p x || isNan q y then true
      else if Float.isInfOrNan p x || Float.isInfOrNan q y then
        Float.isInfOrNan p x && Float.isInfOrNan q y &&
          decide (Float.isNegative p x = Float.isNegative q y)
      else decide (a.toRat = b.toRat)
  | some (p, x), none => !Float.isInfOrNan p x && decide (a.toRat = b.toRat)
  | none, some (q, y) => !Float.isInfOrNan q y && decide (a.toRat = b.toRat)
  | none, none => decide (a.toRat = b.toRat)

/-- `cl_arith_zerop` -/
def zerop : Real → Bool
  | .fixnum word => decide (word = 0)
  | .bignum _ _ _ => false
  | .ratio _ num _ => clArithZerop num
  | .single _ bits => Float.isZero .single bits.toNat
  | .double _ bits => Float.isZero .double bits.toNat

/-- `cl_numeric_equal`, with NIL for objects that are no numbers. -/
def numericEqual : Obj → Obj → Bool
  | .real a, .real b => compareEqual a b
  | .complex _ re im, .complex _ re' im' => compareEqual re re' && compareEqual im im'
  | .complex _ re im, .real b => zerop im && compareEqual re b
  | .real a, .complex _ re im => zerop im && compareEqual a re
  | _, _ => false

/-- `ca >= 'A' && ca <= 'Z' ? ca + 32 : ca` -/
def downcase (code : Int) : Int :=
  if 65 ≤ code ∧ code ≤ 90 then code + 32 else code

/-- `ca >= 'a' && ca <= 'z' ? ca - 32 : ca` -/
def upcase (code : Int) : Int :=
  if 97 ≤ code ∧ code ≤ 122 then code - 32 else code

/-- The code of a character in a character vector, `absent` for another object. -/
def charCode (absent : Int) : Obj → Int
  | .char code => code
  | _ => absent

def stringCodes (absent : Int) : Obj → Option (List Int)
  | .string _ data => some (data.map fun byte => (byte.toNat : Int))
  | .wideString _ data => some (data.map fun code => (code : Int))
  | .vector _ true _ data => some (data.map (charCode absent))
  | _ => none

namespace BitVector

def activeLength (bits : BitVector) : Nat :=
  bits.fillPointer.getD bits.length

/-- `cl_bv_get_bit` -/
def getBit (bits : BitVector) (i : Nat) : Bool :=
  (bits.data.getD (i / 32) 0).getLsbD (i % 32)

def active (bits : BitVector) : List Bool :=
  (List.range bits.activeLength).map bits.getBit

/-- `memcmp` over the words of so many bits. -/
def sameWords (a b : BitVector) (length : Nat) : Bool :=
  decide (a.data.take ((length + 31) / 32) = b.data.take ((length + 31) / 32))

end BitVector

def bitObj (bit : Bool) : Obj :=
  .real (.fixnum (if bit then 1 else 0))

def packedElements : Obj → Option (List Obj)
  | .bitVector _ bits => some (bits.active.map bitObj)
  | .byteVector _ data => some (data.map fun word => .real (.fixnum word))
  | _ => none

def allPairs {α β : Type} (holds : α → β → Bool) : List α → List β → Bool
  | [], [] => true
  | a :: as, b :: bs => holds a b && allPairs holds as bs
  | _, _ => false

/-- `bi_eql` -/
def eql : Obj → Obj → Bool
  | .real a, .real b => eqlReal a b
  | .complex _ re im, .complex _ re' im' => eqlReal re re' && eqlReal im im'
  | a, b => same a b

def componentEqual (a b : Obj) : Bool :=
  same a b ||
    match a, b with
    | .string _ data, .string _ data' => decide (data = data')
    | _, _ => false

def directoryEqual : Obj → Obj → Bool
  | .cons _ car cdr, .cons _ car' cdr' => componentEqual car car' && directoryEqual cdr cdr'
  | a, b => same a b

/-- `cl_pathname_equal` -/
def pathnameEqual : Obj → Obj → Bool
  | .pathname _ host device name type version directory,
    .pathname _ host' device' name' type' version' directory' =>
      componentEqual host host' && componentEqual device device' && componentEqual name name' &&
        componentEqual type type' && same version version' &&
        (same directory directory' || directoryEqual directory directory')
  | _, _ => false

/-- The branches of `bi_equal` behind the conses. -/
def equalFlat (a b : Obj) : Bool :=
  match stringCodes (-1) a, stringCodes (-1) b with
  | some x, some y => decide (x = y)
  | _, _ =>
      match a, b with
      | .bitVector _ x, .bitVector _ y => decide (x.length = y.length) && x.sameWords y x.length
      | _, _ => pathnameEqual a b

/-- `bi_equal` -/
def equal (a b : Obj) : Bool :=
  same a b ||
    match a, b with
    | .real x, .real y => valueEq x y
    | .complex _ re im, .complex _ re' im' => eqlReal re re' && eqlReal im im'
    | .cons _ car cdr, .cons _ car' cdr' => equal car car' && equal cdr cdr'
    | _, _ => equalFlat a b

/-- The branches of `bi_equalp` before the conses. -/
def equalpAtom (a b : Obj) : Bool :=
  same a b ||
    match a, b with
    | .char c, .char d => decide (upcase c = upcase d)
    | _, _ => numericEqual a b

/-- `CL_ANY_STRING_P` and its codes. -/
def anyString : Obj → Option (List Int)
  | .vector _ _ _ _ => none
  | a => stringCodes 0 a

/-- `equalp_arr1d_p` with rank one, and its elements. -/
def arr1d : Obj → Option (List Obj)
  | .string _ data => some (data.map fun byte => .char byte.toNat)
  | .wideString _ data => some (data.map .char)
  | .vector _ _ [] data => some data
  | a => packedElements a

/-- The branches of `bi_equalp` that do not descend, and the one for arrays of different
kinds: there one side consists of characters or of fixnums. -/
def equalpFlat (tables : Nat → Nat → Bool) (a b : Obj) : Bool :=
  match anyString a, anyString b with
  | some x, some y => decide (x.map upcase = y.map upcase)
  | _, _ =>
      match a, b with
      | .bitVector _ x, .bitVector _ y =>
          decide (x.activeLength = y.activeLength) &&
            if x.fillPointer = none ∧ y.fillPointer = none then x.sameWords y x.activeLength
            else decide (x.active = y.active)
      | .hashTable x, .hashTable y => tables x y
      | .pathname _ _ _ _ _ _ _, .pathname _ _ _ _ _ _ _ => pathnameEqual a b
      | _, _ =>
          match arr1d a, arr1d b with
          | some x, some y => allPairs equalpAtom x y
          | _, _ => false

mutual

/-- `bi_equalp`; `tables` says which hash tables have the same contents. -/
def equalp (tables : Nat → Nat → Bool) (a b : Obj) : Bool :=
  equalpAtom a b ||
    match a, b with
    | .cons _ car cdr, .cons _ car' cdr' => equalp tables car car' && equalp tables cdr cdr'
    | .vector _ _ dims x, .vector _ _ dims' y => decide (dims = dims') && equalpAll tables x y
    | .struct _ desc x, .struct _ desc' y => same desc desc' && equalpAll tables x y
    | _, _ => equalpFlat tables a b

def equalpAll (tables : Nat → Nat → Bool) : List Obj → List Obj → Bool
  | [], [] => true
  | a :: as, b :: bs => equalp tables a b && equalpAll tables as bs
  | _, _ => false

end

def Test.holds (tables : Nat → Nat → Bool) : Test → Obj → Obj → Bool
  | .eq => same
  | .eql => HashTable.eql
  | .equal => HashTable.equal
  | .equalp => HashTable.equalp tables

/-- `keys_equal` on two numbers that are no complexes, under any test but EQ. -/
def keysEqualReal (a b : Real) : Bool :=
  decide (a.ident = b.ident) || valueEq a b

def keysEql (a b : Obj) : Bool :=
  same a b ||
    match a, b with
    | .real x, .real y => valueEq x y
    | .complex _ re im, .complex _ re' im' => keysEqualReal re re' && keysEqualReal im im'
    | _, _ => false

/-- `is_equalp_xarr` and its elements. -/
def equalpXarr : Obj → Option (List Obj)
  | .vector _ _ _ data => some data
  | a => packedElements a

/-- The branches of `keys_equal` that do not descend, and the one for arrays of different
kinds: there one side consists of fixnums. -/
def keysFlat (p : Bool) (a b : Obj) : Bool :=
  match stringCodes 0 a, stringCodes 0 b with
  | some x, some y => if p then decide (x.map downcase = y.map downcase) else decide (x = y)
  | _, _ =>
      match a, b with
      | .bitVector _ x, .bitVector _ y => decide (x.active = y.active)
      | _, _ =>
          match equalpXarr a, equalpXarr b with
          | some x, some y => p && allPairs same x y
          | _, _ => false

mutual

/-- `keys_equal` under EQUAL and, with `p`, under EQUALP. -/
def keysDeep (p : Bool) (a b : Obj) : Bool :=
  same a b ||
    match a, b with
    | .char c, .char d => p && decide (downcase c = downcase d)
    | .real x, .real y => valueEq x y
    | .complex _ re im, .complex _ re' im' => keysEqualReal re re' && keysEqualReal im im'
    | .cons _ car cdr, .cons _ car' cdr' => keysDeep p car car' && keysDeep p cdr cdr'
    | .vector _ isString _ x, .vector _ isString' _ y =>
        if isString && isString' then keysFlat p a b else p && keysDeepAll p x y
    | _, _ => keysFlat p a b

def keysDeepAll (p : Bool) : List Obj → List Obj → Bool
  | [], [] => true
  | a :: as, b :: bs => keysDeep p a b && keysDeepAll p as bs
  | _, _ => false

end

def keysEqual : Test → Obj → Obj → Bool
  | .eq => same
  | .eql => keysEql
  | .equal => keysDeep false
  | .equalp => keysDeep true

abbrev Places := Nat → Word

def Obj.word (places : Places) (a : Obj) : Word :=
  match a.ident with
  | .nil => 0
  | .fixnum word => (word.zeroExtend 32 <<< 1) ||| 1
  | .char code => (BitVec.ofNat 32 code <<< 8) ||| 0x0A
  | .heap id => places id

def hashMix (h : Word) : Word :=
  let h := h ^^^ (h >>> 16)
  let h := h * 0x45d9f3b
  h ^^^ (h >>> 16)

def hashStep (hash next : Word) : Word :=
  ((hash <<< 5) ||| (hash >>> 27)) ^^^ next

def bignumHash (sign : Bool) (limbs : List Limb) : Word :=
  (limbs.map (BitVec.zeroExtend 32)).foldl hashStep (hashStep 0 (if sign then 1 else 0))

def intHash : ClInt → Word
  | .fixnum word => word.signExtend 32
  | .bignum sign limbs => bignumHash sign limbs

def ratioHash (num den : ClInt) : Word :=
  ((0x9e3779b9 ^^^ intHash num) * 0x01000193) ^^^ intHash den

/-- `hash_obj` on such a number, under any test but EQ. -/
def hashReal (places : Places) : Real → Word
  | .fixnum word => hashMix ((Obj.real (.fixnum word)).word places)
  | .bignum _ sign limbs => bignumHash sign limbs
  | .ratio _ num den => ratioHash num den
  | .single _ bits => bits * 2654435761
  | .double _ bits => (bits.truncate 32 ^^^ (bits >>> 32).truncate 32) * 2654435761

def hashCodes (ci : Bool) (codes : List Int) : Word :=
  (codes.map fun code =>
    (BitVec.ofInt 8 (if ci then downcase code else code)).zeroExtend 32).foldl hashStep 0

def hashBitVector (bits : BitVector) : Word :=
  (bits.active.map fun bit => if bit then 1 else 0).foldl hashStep
    (BitVec.ofNat 32 bits.activeLength * 2654435761)

/-- `(uint32_t)CL_MAKE_CHAR(ch)` for the folded low byte of a character. -/
def hashCharCi (code : Nat) : Word :=
  ((BitVec.ofInt 8 (downcase (BitVec.ofNat 8 code).toNat)).signExtend 32 <<< 8) ||| 0x0A

/-- `hash_obj` under EQL. -/
def hashEql (places : Places) : Obj → Word
  | .real number => hashReal places number
  | .complex _ re im => hashReal places re * 31 + hashReal places im
  | a => hashMix (a.word places)

/-- The type-blind hash of an array under EQUALP, by its length and the hash of its first
element. -/
def hashXarr (length : Nat) (first : Option Word) : Word :=
  let h := BitVec.ofNat 32 length * 31 + 2
  match first with
  | some hash => h * 31 + hash
  | none => h

/-- The branches of `hash_obj` that do not descend, under EQUAL and, with `p`, under
EQUALP. -/
def hashFlat (places : Places) (p : Bool) (a : Obj) : Word :=
  match stringCodes 0 a with
  | some codes => hashCodes p codes
  | none =>
      match p, a with
      | true, .bitVector _ bits =>
          hashXarr bits.activeLength (bits.active.head?.map fun bit => hashEql places (bitObj bit))
      | true, .byteVector _ data =>
          hashXarr data.length (data.head?.map fun word => hashReal places (.fixnum word))
      | false, .bitVector _ bits => hashBitVector bits
      | _, _ => hashMix (a.word places)

/-- `hash_obj` under EQUAL and, with `p`, under EQUALP. -/
def hashDeep (places : Places) (p : Bool) : Obj → Word
  | .nil => 0
  | .char code => if p then hashCharCi code else (Obj.char code).word places
  | .real number => hashReal places number
  | .complex _ re im => hashReal places re * 31 + hashReal places im
  | .cons _ car _ => hashDeep places p car * 31 + 1
  | .vector id false dims [] =>
      if p then hashXarr 0 none else hashFlat places p (.vector id false dims [])
  | .vector id false dims (first :: rest) =>
      if p then hashXarr (rest.length + 1) (some (hashDeep places p first))
      else hashFlat places p (.vector id false dims (first :: rest))
  | a => hashFlat places p a

def hashObj (places : Places) (test : Test) (a : Obj) : Word :=
  match test with
  | .eq => hashMix (a.word places)
  | .eql => hashEql places a
  | .equal => hashDeep places false a
  | .equalp => hashDeep places true a

/-- `gc_key_addr_sensitive` -/
def addrSensitive (test : Test) : Obj → Bool
  | .nil | .char _ | .real (.fixnum _) => false
  | .real _ | .complex _ _ _ => decide (test = .eq)
  | .string _ _ | .wideString _ _ | .bitVector _ _ => decide (test = .eq ∨ test = .eql)
  | .cons _ car _ => decide (test = .eq ∨ test = .eql) || addrSensitive test car
  | _ => true

end ClAmiga.HashTable
