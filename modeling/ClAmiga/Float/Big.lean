import ClAmiga.Radix.Limbs

/-!
# Fixed-size big integers

The integers of the decimal conversion: at most `DT_LIMBS` words of 32 bits,
least significant first, or poisoned once a result did not fit.  Words that the
source computes in a `uint64_t` are natural numbers modulo `2 ^ 64` here.
-/

namespace ClAmiga.Float

open Radix

/-- `DT_LIMBS` -/
def dtLimbs : Nat := 112

/-- The words in use, or the poison mark `n = -1`. -/
inductive DtBig where
  | limbs (d : List (BitVec 32))
  | poisoned
  deriving DecidableEq, Repr

namespace DtBig

/-- The field `n`. -/
def n : DtBig → Int
  | .limbs d => d.length
  | .poisoned => -1

end DtBig

def dtZero : DtBig :=
  .limbs []

def dtFromU64 (v : Nat) : DtBig :=
  let lo := BitVec.ofNat 32 v
  let hi := BitVec.ofNat 32 (v >>> 32)
  let low := if lo ||| hi ≠ 0 then [lo] else []
  .limbs (if hi ≠ 0 then low ++ [hi] else low)

def dtIsZero (b : DtBig) : Bool :=
  b.n == 0

/-- Append what is left of a carry, a word at a time. -/
def appendCarry (d : List (BitVec 32)) (carry : Nat) : DtBig :=
  if carry = 0 then .limbs d
  else if d.length ≥ dtLimbs then .poisoned
  else appendCarry (d ++ [BitVec.ofNat 32 carry]) (carry >>> 32)
termination_by carry
decreasing_by
  rw [Nat.shiftRight_eq_div_pow]
  exact Nat.div_lt_self (by omega) (by omega)

def mulWords (m : Nat) : List (BitVec 32) → Nat → List (BitVec 32) × Nat
  | [], carry => ([], carry)
  | x :: xs, carry =>
      let t := (x.toNat * m + carry) % 2 ^ 64
      let rest := mulWords m xs (t >>> 32)
      (BitVec.ofNat 32 t :: rest.1, rest.2)

/-- `b *= m` -/
def dtMulU32 (b : DtBig) (m : Nat) : DtBig :=
  match b with
  | .poisoned => .poisoned
  | .limbs d =>
      let product := mulWords m d 0
      appendCarry product.1 product.2

def addSmallWords : List (BitVec 32) → Nat → List (BitVec 32) × Nat
  | [], carry => ([], carry)
  | x :: xs, carry =>
      if carry = 0 then (x :: xs, 0)
      else
        let t := (x.toNat + carry) % 2 ^ 64
        let rest := addSmallWords xs (t >>> 32)
        (BitVec.ofNat 32 t :: rest.1, rest.2)

/-- One last word, or poison when there is no room for it. -/
def appendWord (d : List (BitVec 32)) (carry : Nat) : DtBig :=
  if carry = 0 then .limbs d
  else if d.length ≥ dtLimbs then .poisoned
  else .limbs (d ++ [BitVec.ofNat 32 carry])

/-- `b += v` for a small `v` -/
def dtAddU32 (b : DtBig) (v : Nat) : DtBig :=
  match b with
  | .poisoned => .poisoned
  | .limbs d =>
      let sum := addSmallWords d v
      appendWord sum.1 sum.2

def addWords : List (BitVec 32) → List (BitVec 32) → Nat →
    List (BitVec 32) × Nat
  | [], [], carry => ([], carry)
  | x :: xs, [], carry =>
      let t := (carry + x.toNat) % 2 ^ 64
      let rest := addWords xs [] (t >>> 32)
      (BitVec.ofNat 32 t :: rest.1, rest.2)
  | [], y :: ys, carry =>
      let t := (carry + y.toNat) % 2 ^ 64
      let rest := addWords [] ys (t >>> 32)
      (BitVec.ofNat 32 t :: rest.1, rest.2)
  | x :: xs, y :: ys, carry =>
      let t := (carry + x.toNat + y.toNat) % 2 ^ 64
      let rest := addWords xs ys (t >>> 32)
      (BitVec.ofNat 32 t :: rest.1, rest.2)

/-- `b += a` -/
def dtAdd (b a : DtBig) : DtBig :=
  match b, a with
  | .limbs d, .limbs other =>
      if max other.length d.length > dtLimbs then .poisoned
      else
        let sum := addWords d other 0
        appendWord sum.1 sum.2
  | _, _ => .poisoned

def subWords : List (BitVec 32) → List (BitVec 32) → Int → List (BitVec 32)
  | [], _, _ => []
  | x :: xs, ys, borrow =>
      let t := (x.toNat : Int) - borrow - (ys.headD 0).toNat
      if t < 0 then BitVec.ofInt 32 (t + 2 ^ 32) :: subWords xs ys.tail 1
      else BitVec.ofInt 32 t :: subWords xs ys.tail 0

/-- `a -= b` -/
def dtSub (a b : DtBig) : DtBig :=
  match a, b with
  | .limbs d, .limbs other =>
      .limbs ((subWords d other 0).rdropWhile (· = 0))
  | _, _ => .poisoned

/-- `-1`, `0` or `1` for `a <=> b` -/
def dtCmp (a b : DtBig) : Int :=
  if a.n ≠ b.n then (if a.n < b.n then -1 else 1)
  else
    match a, b with
    | .limbs d, .limbs other =>
        match compareDown d.reverse other.reverse with
        | .lt => -1
        | .eq => 0
        | .gt => 1
    | _, _ => 0

def shlWords (bits : Nat) : List (BitVec 32) → BitVec 32 →
    List (BitVec 32) × BitVec 32
  | [], carry => ([], carry)
  | t :: ts, carry =>
      let rest := shlWords bits ts (t >>> (32 - bits))
      (((t <<< bits) ||| carry) :: rest.1, rest.2)

/-- `b <<= k` -/
def dtShl (b : DtBig) (k : Nat) : DtBig :=
  match b with
  | .poisoned => .poisoned
  | .limbs d =>
      let count := k / 32
      let bits := k % 32
      if d.length = 0 ∨ k = 0 then .limbs d
      else if d.length + count + 1 > dtLimbs then .poisoned
      else
        let shifted :=
          if bits = 0 then d
          else
            let result := shlWords bits d 0
            if result.2 ≠ 0 then result.1 ++ [result.2] else result.1
        .limbs (List.replicate count 0 ++ shifted)

/-- The loop of `bitlen_u32`. -/
def bitlenU32 (v : Nat) : Nat :=
  if v = 0 then 0 else bitlenU32 (v >>> 1) + 1
termination_by v
decreasing_by
  rw [Nat.shiftRight_eq_div_pow]
  exact Nat.div_lt_self (by omega) (by omega)

def bitlenU64 (v : Nat) : Nat :=
  let hi := (v >>> 32) % 2 ^ 32
  if hi ≠ 0 then 32 + bitlenU32 hi else bitlenU32 (v % 2 ^ 32)

def dtBitlen (b : DtBig) : Nat :=
  match b with
  | .poisoned => 0
  | .limbs d =>
      if d.length = 0 then 0
      else (d.length - 1) * 32 + bitlenU32 (d.getD (d.length - 1) 0).toNat

/-- Bit `i`, zero out of range. -/
def dtBit (b : DtBig) (i : Int) : Bool :=
  match b with
  | .poisoned => false
  | .limbs d =>
      if i < 0 ∨ i ≥ d.length * 32 then false
      else ((d.getD (i.toNat / 32) 0) >>> (i.toNat % 32)) &&& 1 = 1

/-- Some bit below bit `i` is set. -/
def dtLowBitsNonzero (b : DtBig) (i : Nat) : Bool :=
  match b with
  | .poisoned => false
  | .limbs d =>
      let count := i / 32
      let bits := i % 32
      (d.take count).any (· ≠ 0) ||
        (bits ≠ 0 && decide (count < d.length) &&
          decide ((d.getD count 0) &&& (((1 : BitVec 32) <<< bits) - 1) ≠ 0))

/-- The loop of `dt_top_bits` over the bits `shift + i` for `i` below the
count, from the top. -/
def topBitsLoop (b : DtBig) (shift : Int) : Nat → Nat → Nat
  | 0, v => v
  | i + 1, v =>
      topBitsLoop b shift i
        (((v <<< 1) ||| (dtBit b (shift + i)).toNat) % 2 ^ 64)

/-- The top `count` bits of `b`. -/
def dtTopBits (b : DtBig) (count : Nat) : Nat :=
  topBitsLoop b ((dtBitlen b : Int) - count) count 0

/-- `dt_pow5_small` -/
def dtPow5Small : List Nat :=
  [1, 5, 25, 125, 625, 3125, 15625, 78125, 390625, 1953125, 9765625, 48828125,
    244140625, 1220703125]

def dtMulPow5 (b : DtBig) (k : Nat) : DtBig :=
  if k ≥ 13 then dtMulPow5 (dtMulU32 b (dtPow5Small.getD 13 0)) (k - 13)
  else if k > 0 then dtMulU32 b (dtPow5Small.getD k 0)
  else b
termination_by k

def dtMulPow10 (b : DtBig) (k : Nat) : DtBig :=
  if k ≥ 9 then dtMulPow10 (dtMulU32 b 1000000000) (k - 9)
  else (fun b => dtMulU32 b 10)^[k] b
termination_by k

end ClAmiga.Float
