import ClAmiga.Radix.Twos
import ClAmiga.Number.Shift

/-!
# Bitwise operations on integers

Bignums keep a sign and a magnitude, so the bitwise operations convert their
operands to a two's complement window with one limb to spare, combine the
windows limb by limb and convert back.  The counting and testing functions
stream the conversion instead.
-/

namespace ClAmiga.Number

open Radix Bignum

variable {platform : Platform}

def invertAdd : List Limb → Nat → List Limb
  | [], _ => []
  | x :: xs, carry =>
      let val := ((x ^^^ BitVec.ofNat 16 0xFFFF).toNat + carry) % 2 ^ 32
      BitVec.ofNat 16 val :: invertAdd xs (val >>> 16)

/-- The limbs of a window and whether the number is negative. -/
def toTwosComplement (n : ClInt) (bufSize : Nat) : List Limb × Bool :=
  let (nSign, nl) := toLimbs n
  let nLen := if nl.length + 1 > bufSize then bufSize - 1 else nl.length
  let buf := (nl.take nLen ++ [0]).take bufSize
  (if nSign then invertAdd buf 1 else buf, nSign)

def fromTwosComplement (platform : Platform) (buf : List Limb) :
    Result ClInt :=
  let negative := (buf.getD (buf.length - 1) 0) &&& 0x8000 ≠ 0
  if negative then bignumFromLimbs platform (strip (invertAdd buf 1)) true
  else bignumFromLimbs platform (strip buf) false

inductive BignumBitop where
  | and
  | ior
  | xor
  deriving DecidableEq, Repr

namespace BignumBitop

def limb : BignumBitop → Limb → Limb → Limb
  | .and, av, bv => av &&& bv
  | .ior, av, bv => av ||| bv
  | .xor, av, bv => av ^^^ bv

def word : BignumBitop → BitVec 32 → BitVec 32 → BitVec 32
  | .and, av, bv => av &&& bv
  | .ior, av, bv => av ||| bv
  | .xor, av, bv => av ^^^ bv

def bit : BignumBitop → Bool → Bool → Bool
  | .and => Bool.and
  | .ior => Bool.or
  | .xor => Bool.xor

end BignumBitop

/-- The limbs of the combined window: the shorter operand is continued with its
sign. -/
def combineWindows (op : BignumBitop) (ba bb : List Limb) (aNeg bNeg : Bool) :
    List Limb :=
  let aExt : Limb := if aNeg then 0xFFFF else 0
  let bExt : Limb := if bNeg then 0xFFFF else 0
  (List.range (max ba.length bb.length)).map fun i =>
    op.limb (ba.getD i aExt) (bb.getD i bExt)

def bignumBitop (platform : Platform) (op : BignumBitop) (a b : ClInt) :
    Result ClInt :=
  let la := (toLimbs a).2.length
  let lb := (toLimbs b).2.length
  let need := (if la > lb then la else lb) + 1
  let (ba, aNeg) := toTwosComplement a need
  let (bb, bNeg) := toTwosComplement b need
  fromTwosComplement platform (combineWindows op ba bb aNeg bNeg)

/-- The three operations: a fixnum path on 32-bit words, else the windows. -/
def clArithBitop (platform : Platform) (op : BignumBitop) (a b : ClInt) :
    Result ClInt :=
  match a, b with
  | .fixnum va, .fixnum vb =>
      .ok (clMakeFixnum (op.word (va.signExtend 32) (vb.signExtend 32)).toInt)
  | _, _ => bignumBitop platform op a b

def clArithLogand (platform : Platform) : ClInt → ClInt → Result ClInt :=
  clArithBitop platform .and

def clArithLogior (platform : Platform) : ClInt → ClInt → Result ClInt :=
  clArithBitop platform .ior

def clArithLogxor (platform : Platform) : ClInt → ClInt → Result ClInt :=
  clArithBitop platform .xor

def clArithLognot (platform : Platform) (a : ClInt) : Result ClInt :=
  clArithSub platform (clMakeFixnum (-1)) a

/-- `v &= v - 1` clears the lowest set bit; the loop counts its rounds. -/
def popcountLoop : Nat → Nat → Nat
  | 0, _ => 0
  | rounds + 1, v => if v = 0 then 0 else popcountLoop rounds (v &&& (v - 1)) + 1

def popcount16 (v : Limb) : Nat :=
  popcountLoop 16 v.toNat

/-- A negative bignum is counted through `|n| - 1`, which the borrow loop
streams limb by limb. -/
def clArithLogcount : ClInt → Nat
  | .fixnum word =>
      let val := word.signExtend 32
      popcountLoop 32 (if word.toInt < 0 then ~~~val else val).toNat
  | .bignum sign limbs =>
      let counted := if sign then subBorrow limbs [] 1 else limbs
      (counted.map popcount16).sum

/-- `cl_arith_logbitp` for an `int` index. -/
def clArithLogbitp (index : Int) (integer : ClInt) : Bool :=
  if index < 0 then false
  else
    match integer with
    | .fixnum word =>
        if index ≥ 31 then decide (word.toInt < 0)
        else (word.signExtend 32).getLsbD index.toNat
    | .bignum sign limbs =>
        let limbIdx := index.toNat / 16
        let bitIdx := index.toNat % 16
        if limbIdx ≥ limbs.length then sign
        else if sign = false then (limbs.getD limbIdx 0).getLsbD bitIdx
        else
          let val := (subBorrow (limbs.take (limbIdx + 1)) [] 1).getD limbIdx 0
          (~~~val).getLsbD bitIdx

def clTypeName : ClInt → String
  | .fixnum _ => "FIXNUM"
  | .bignum _ _ => "BIGNUM"

/-- The report of `cl_signal_type_error`. -/
def signalTypeError (datum : ClInt) (expected fnName : String) : ClErr :=
  .typeError (fnName ++ ": argument is not of type " ++ expected ++ " (got " ++
    clTypeName datum ++ ")")

def biLogbitp (index integer : ClInt) : Result Bool :=
  if clArithMinusp index then
    .error (signalTypeError index "UNSIGNED-BYTE" "LOGBITP")
  else
    match index with
    | .bignum _ _ => .ok (clArithMinusp integer)
    | .fixnum word => .ok (clArithLogbitp word.toInt integer)

/-- Bits of the top limb, and the correction for a negative power of two. -/
def clArithIntegerLength : ClInt → Nat
  | .fixnum word =>
      let val := word.toInt
      if val = 0 then 0
      else if val < 0 then
        if val = -1 then 0 else bitLength32 (-(val + 1)).toNat
      else bitLength32 val.toNat
  | .bignum sign limbs =>
      let len := limbs.length
      if len = 0 then 0
      else
        let top := limbs.getD (len - 1) 0
        let bits := (len - 1) * 16 + bitLength32 top.toNat
        let topOneBit := (top.toNat &&& (top.toNat - 1)) = 0
        let allLowerZero := (limbs.take (len - 1)).all (fun limb => limb = 0)
        if sign ∧ topOneBit ∧ allLowerZero then bits - 1 else bits

end ClAmiga.Number
