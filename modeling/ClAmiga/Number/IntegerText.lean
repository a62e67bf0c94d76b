import ClAmiga.Bignum.Divide
import ClAmiga.Number.IntegerSpec
import Mathlib.Data.Nat.Digits.Lemmas

/-!
# Integers as text

`cl_bignum_from_string` accumulates decimal digits in an array of 256 limbs and
drops what is carried out of it.  `cl_bignum_print_base` divides repeatedly by
the base; its digit buffer is sized for base two.  Fixnums are printed by
`out_integer`.
-/

namespace ClAmiga.Number

open Radix Bignum

variable {platform : Platform}

def mulTen : List Limb → Nat → List Limb × Nat
  | [], carry => ([], carry)
  | x :: xs, carry =>
      let prod := (x.toNat * 10 + carry) % 2 ^ 32
      let rest := mulTen xs (prod >>> 16)
      (BitVec.ofNat 16 prod :: rest.1, rest.2)

def addDigit : List Limb → Nat → List Limb × Nat
  | [], carry => ([], carry)
  | x :: xs, carry =>
      if carry = 0 then (x :: xs, 0)
      else
        let sum := (x.toNat + carry) % 2 ^ 32
        let rest := addDigit xs (sum >>> 16)
        (BitVec.ofNat 16 sum :: rest.1, rest.2)

/-- `if (carry) { if (acc_len < 256) acc[acc_len++] = (uint16_t)carry; }` -/
def pushCarry (acc : List Limb × Nat) : List Limb :=
  if acc.2 ≠ 0 ∧ acc.1.length < 256 then acc.1 ++ [BitVec.ofNat 16 acc.2] else acc.1

/-- The body of the loop over the string; other characters are skipped. -/
def stringDigit (acc : List Limb) (c : Char) : List Limb :=
  if c < '0' ∨ c > '9' then acc
  else pushCarry (addDigit (pushCarry (mulTen acc 0)) (c.toNat - '0'.toNat))

def clBignumFromString (platform : Platform) (str : List Char) (negative : Bool) :
    Result ClInt :=
  bignumFromLimbs platform (str.foldl stringDigit [0]) negative

def digitChars : List Char :=
  "0123456789ABCDEFGHIJKLMNOPQRSTUVWXYZ".toList

/-- `digit_chars[rem]`; the terminating NUL stands behind the last digit. -/
def digitAt (rem : Nat) : Char :=
  digitChars.getD rem '\x00'

/-- `digits_cap`, a `uint32_t` -/
def digitsCap (limbs : List Limb) : Nat :=
  (limbs.length * 16 + 2) % 2 ^ 32

def extractDigits (base : Limb) (cap : Nat) :
    Nat → List Limb → List Char → Option (List Char)
  | 0, _, _ => none
  | fuel + 1, work, digits =>
      if work.length > 1 ∨ work.getD 0 0 ≠ 0 then
        let (quot, rem) := bignumDivSingle base work
        extractDigits base cap fuel (strip quot)
          (if digits.length < cap - 1 then digits ++ [digitAt rem] else digits)
      else some digits

/-- The characters written for the bignum with this sign and these limbs. -/
def clBignumPrintBase (sign : Bool) (limbs : List Limb) (base : Int) :
    Option (List Char) :=
  let base := if base < 2 then 10 else base
  let base := if base > 36 then 10 else base
  if limbs = [0] then some ['0']
  else do
    let digits ← extractDigits (BitVec.ofInt 16 base) (digitsCap limbs)
      (digitsCap limbs) limbs []
    return (if sign then ['-'] else []) ++ digits.reverse

def outRadixPrefix (base : Nat) : List Char :=
  if base = 2 then ['#', 'b']
  else if base = 8 then ['#', 'o']
  else if base = 16 then ['#', 'x']
  else if base ≠ 10 then ['#'] ++ (toString base).toList ++ ['r']
  else []

/-- `while (uval > 0)`; a 32-bit word has no more than 32 digits. -/
def outDigits (base : Nat) : Nat → Nat → List Char → Option (List Char)
  | 0, _, _ => none
  | fuel + 1, uval, buf =>
      if uval > 0 then
        outDigits base fuel (uval / base) (buf ++ [digitAt (uval % base)])
      else some buf

/-- The digits of `uval` in `buf`, the last one first. -/
def outBuffer (base uval : Nat) : Option (List Char) :=
  if uval = 0 then some ['0'] else outDigits base 33 uval []

def outInteger (val : Int) (base : Nat) (radix : Bool) : Option (List Char) := do
  let buf ← outBuffer base val.natAbs
  return (if radix then outRadixPrefix base else []) ++
    (if val < 0 then ['-'] else []) ++ buf.reverse ++
    (if radix ∧ base = 10 then ['.'] else [])

/-- The branches of `print_obj` for fixnums and bignums. -/
def printInteger (base : Nat) (radix : Bool) : ClInt → Option (List Char)
  | .fixnum word => outInteger word.toInt base radix
  | .bignum sign limbs => do
      let text ← clBignumPrintBase sign limbs base
      return (if radix then outRadixPrefix base else []) ++ text ++
        (if radix ∧ base = 10 then ['.'] else [])

end ClAmiga.Number
