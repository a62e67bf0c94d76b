import ClAmiga.Bignum.DivideSpec

/-!
# Integer objects and their arithmetic

A Lisp integer is a tagged 31-bit fixnum or a heap bignum.  `CL_MAKE_FIXNUM`
keeps the low 31 bits of its argument, so a fixnum is a `BitVec 31` and the
constructor truncates as the C macro does.  `int32_t` values computed from
fixnums stay far below overflow and are plain integers here.

`cl_make_bignum` and `cl_alloc` refuse objects that the 23-bit size field of a
heap header cannot describe; this is the only storage limit of the model, the
arena itself being large enough.
-/

namespace ClAmiga.Number

open Radix Bignum

/-- Ways in which an operation fails to return an object: a division by zero, a
type error, the two storage errors with the size they report, and, as
`undefined`, a C behaviour without a result (an out-of-bounds read or an
endless loop). -/
inductive ClErr where
  | divZero (message : String)
  | typeError (message : String)
  | makeBignum (limbs : Nat)
  | allocation (bytes : Nat)
  | undefined
  deriving DecidableEq, Repr

inductive ClInt where
  | fixnum (word : BitVec 31)
  | bignum (sign : Bool) (limbs : List Limb)
  deriving DecidableEq, Repr

abbrev Result (α : Type) := Except ClErr α

def clFixnumMax : Int := 0x3FFFFFFF

def clFixnumMin : Int := -0x40000000

/-- `(CL_HDR_SIZE_MASK - sizeof(CL_Bignum)) / sizeof(uint16_t)`. -/
def clMaxBignumLimbs : Nat := (0x007FFFFF - 12) / 2

/-- `CL_ALIGN`: 8 on the 64-bit hosts, 4 on the 68020. -/
def clAlign : Platform → Nat
  | .host _ => 8
  | .m68k => 4

/-- `align_up`, then the lower bound `CL_MIN_ALLOC_SIZE`. -/
def allocSize (platform : Platform) (size : Nat) : Nat :=
  max ((size + (clAlign platform - 1)) / clAlign platform * clAlign platform) 16

/-- The error a request for a bignum of so many limbs ends in, if any: first
the limb count is checked, then `cl_alloc` checks the aligned byte size. -/
def requestError (platform : Platform) (limbs : Nat) : Option ClErr :=
  if limbs > clMaxBignumLimbs then some (.makeBignum limbs)
  else
    let bytes := allocSize platform (12 + limbs * 2)
    if bytes > 0x007FFFFF then some (.allocation bytes) else none

/-- `CL_MAKE_FIXNUM`: the shift by the tag drops the top bit. -/
def clMakeFixnum (n : Int) : ClInt :=
  .fixnum (BitVec.ofInt 31 n)

/-- `cl_make_bignum` together with the store of the limbs. -/
def clMakeBignum (platform : Platform) (sign : Bool) (limbs : List Limb) :
    Result ClInt :=
  match requestError platform limbs.length with
  | some error => .error error
  | none => .ok (.bignum sign limbs)

/-- Sign and limbs of an integer; a fixnum is spread over at most two limbs. -/
def toLimbs : ClInt → Bool × List Limb
  | .fixnum word =>
      let val := word.toInt
      let uval := val.natAbs
      let t0 : Limb := BitVec.ofNat 16 uval
      let t1 : Limb := BitVec.ofNat 16 (uval >>> 16)
      (decide (val < 0), if t1 ≠ 0 then [t0, t1] else [t0])
  | .bignum sign limbs => (sign, limbs)

def clBignumNormalize : ClInt → ClInt
  | .fixnum word => .fixnum word
  | .bignum sign limbs =>
      let stripped := strip limbs
      let demote (val : Nat) : ClInt :=
        if val = 0 then clMakeFixnum 0
        else if sign = false ∧ (val : Int) ≤ clFixnumMax then clMakeFixnum val
        else if sign = true ∧ val ≤ 0x40000000 then clMakeFixnum (-(val : Int))
        else .bignum sign stripped
      match stripped with
      | [l0] => demote l0.toNat
      | [l0, l1] => demote (l0.toNat ||| (l1.toNat <<< 16))
      | _ => .bignum sign stripped

def bignumFromUint32 (platform : Platform) (val : Nat) (sign : Bool) :
    Result ClInt :=
  if val = 0 then .ok (clMakeFixnum 0)
  else if sign = false ∧ (val : Int) ≤ clFixnumMax then .ok (clMakeFixnum val)
  else if sign = true ∧ val ≤ 0x40000000 then
    .ok (clMakeFixnum (-(val : Int)))
  else do
    let obj ← clMakeBignum platform sign
      [BitVec.ofNat 16 val, BitVec.ofNat 16 (val >>> 16)]
    return clBignumNormalize obj

def bignumFromLimbs (platform : Platform) (limbs : List Limb) (sign : Bool) :
    Result ClInt :=
  let stripped := strip limbs
  if stripped = [0] then .ok (clMakeFixnum 0)
  else do
    let obj ← clMakeBignum platform sign stripped
    return clBignumNormalize obj

def bignumAddsub (platform : Platform) (a b : ClInt) (subtract : Bool) :
    Result ClInt :=
  let (aSign, al) := toLimbs a
  let (bSign₀, bl) := toLimbs b
  let bSign := if subtract then !bSign₀ else bSign₀
  if aSign = bSign then bignumFromLimbs platform (bignumAddMag al bl) aSign
  else
    match bignumCompareMag al bl with
    | .eq => .ok (clMakeFixnum 0)
    | .gt => bignumFromLimbs platform (bignumSubMag al bl) aSign
    | .lt => bignumFromLimbs platform (bignumSubMag bl al) bSign

def clArithAdd (platform : Platform) (a b : ClInt) : Result ClInt :=
  match a, b with
  | .fixnum va, .fixnum vb =>
      let sum := va.toInt + vb.toInt
      if clFixnumMin ≤ sum ∧ sum ≤ clFixnumMax then .ok (clMakeFixnum sum)
      else bignumAddsub platform a b false
  | _, _ => bignumAddsub platform a b false

def clArithSub (platform : Platform) (a b : ClInt) : Result ClInt :=
  match a, b with
  | .fixnum va, .fixnum vb =>
      let diff := va.toInt - vb.toInt
      if clFixnumMin ≤ diff ∧ diff ≤ clFixnumMax then .ok (clMakeFixnum diff)
      else bignumAddsub platform a b true
  | _, _ => bignumAddsub platform a b true

/-- The 32-bit product of the fixnum fast path, from 16x16 partial products;
`none` is `goto bignum_mul`. -/
def mulUint32 (ua ub : Nat) : Option Nat :=
  let aHi := ua >>> 16
  let aLo := ua % 2 ^ 16
  let bHi := ub >>> 16
  let bLo := ub % 2 ^ 16
  if aHi ≠ 0 ∧ bHi ≠ 0 then none
  else
    let cross := (if aHi ≠ 0 then aHi * bLo else aLo * bHi) % 2 ^ 32
    if cross > 0xFFFF then none
    else
      let prodLo := aLo * bLo % 2 ^ 32
      if (prodLo >>> 16) + cross > 0xFFFF then none
      else some ((prodLo + (cross <<< 16)) % 2 ^ 32)

/-- The fixnum range check on a 32-bit product. -/
def fixnumProduct (platform : Platform) (prod : Nat) (neg : Bool) :
    Result ClInt :=
  if neg = false ∧ (prod : Int) ≤ clFixnumMax then .ok (clMakeFixnum prod)
  else if neg = true ∧ prod ≤ 0x40000000 then
    .ok (clMakeFixnum (-(prod : Int)))
  else bignumFromUint32 platform prod neg

/-- The fixnum fast path of `cl_arith_mul`. -/
def mulFixnums (platform : Platform) (a b : ClInt) (va vb : Int) :
    Option (Result ClInt) :=
  if va = 0 ∨ vb = 0 then some (.ok (clMakeFixnum 0))
  else if va = 1 then some (.ok b)
  else if vb = 1 then some (.ok a)
  else
    let neg : Bool := decide (va < 0) != decide (vb < 0)
    (mulUint32 va.natAbs vb.natAbs).map fun prod =>
      fixnumProduct platform prod neg

/-- Bignum times fixnum: one pass into a result sized from the bit lengths. -/
def mulMixed (platform : Platform) (big : ClInt) (sign : Bool)
    (limbs : List Limb) (v : Int) : Result ClInt :=
  let m := v.natAbs
  if m = 0 then .ok (clMakeFixnum 0)
  else if v = 1 then .ok big
  else
    let aLen := limbs.length
    let rLen := ((aLen - 1) * 16 + bitLength32 (limbs.getD (aLen - 1) 0).toNat
      + bitLength32 m + 15) / 16
    do
      let obj ← clMakeBignum platform (sign != decide (v < 0))
        (bignumMulSmall platform limbs m rLen)
      return clBignumNormalize obj

def mulGeneral (platform : Platform) (a b : ClInt) : Result ClInt :=
  let (aSign, al) := toLimbs a
  let (bSign, bl) := toLimbs b
  if al = [0] then .ok (clMakeFixnum 0)
  else if bl = [0] then .ok (clMakeFixnum 0)
  else
    let rSign := aSign != bSign
    match platform with
    | .host _ =>
        let r32 := bignumMulMag32 (pack16To32 al) (pack16To32 bl)
        bignumFromLimbs platform (unpack32To16 r32) rSign
    | .m68k => bignumFromLimbs platform (bignumMulMag al bl) rSign

def clArithMul (platform : Platform) (a b : ClInt) : Result ClInt :=
  match a, b with
  | .fixnum va, .fixnum vb =>
      match mulFixnums platform a b va.toInt vb.toInt with
      | some result => result
      | none => mulGeneral platform a b
  | .fixnum va, .bignum sign limbs => mulMixed platform b sign limbs va.toInt
  | .bignum sign limbs, .fixnum vb => mulMixed platform a sign limbs vb.toInt
  | .bignum _ _, .bignum _ _ => mulGeneral platform a b

def ordInt : Ordering → Int
  | .lt => -1
  | .eq => 0
  | .gt => 1

def clArithCompare (a b : ClInt) : Int :=
  match a, b with
  | .fixnum va, .fixnum vb =>
      if va.toInt < vb.toInt then -1
      else if va.toInt > vb.toInt then 1
      else 0
  | _, _ =>
      let (aSign, al) := toLimbs a
      let (bSign, bl) := toLimbs b
      if aSign ≠ bSign then
        if al = [0] ∧ bl = [0] then 0
        else if aSign then -1 else 1
      else
        let cmp := ordInt (bignumCompareMag al bl)
        if aSign then -cmp else cmp

def clArithZerop : ClInt → Bool
  | .fixnum word => decide (word.toInt = 0)
  | .bignum _ _ => false

def clArithMinusp : ClInt → Bool
  | .fixnum word => decide (word.toInt < 0)
  | .bignum sign _ => sign

end ClAmiga.Number
