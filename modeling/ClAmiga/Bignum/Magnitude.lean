import ClAmiga.Radix.Limbs

/-!
# Raw limb arrays

The helpers of `bignum.c` that work on bare arrays of 16-bit limbs, before
signs and heap objects enter.  A C array together with its length is a list;
a loop over an index is a recursion over the lists it walks.  Intermediate
results keep the width of the C expression they come from: a `uint32_t` sum or
product is reduced modulo `2 ^ 32`, a `uint64_t` one modulo `2 ^ 64`.
-/

namespace ClAmiga.Bignum

open Radix

abbrev Limb := BitVec 16

def bignumCompareMag (a b : List Limb) : Ordering :=
  compareLimbs a b

/-- The two carry loops of `bignum_add_mag` over the longer operand `a`,
followed by the store of a final carry. -/
def addCarry : List Limb → List Limb → Nat → List Limb
  | x :: xs, y :: ys, carry =>
      let sum := (x.toNat + y.toNat + carry) % 2 ^ 32
      BitVec.ofNat 16 sum :: addCarry xs ys (sum >>> 16)
  | x :: xs, [], carry =>
      let sum := (x.toNat + carry) % 2 ^ 32
      BitVec.ofNat 16 sum :: addCarry xs [] (sum >>> 16)
  | [], _, carry => if carry ≠ 0 then [BitVec.ofNat 16 carry] else []

def bignumAddMag (a b : List Limb) : List Limb :=
  if a.length < b.length then addCarry b a 0 else addCarry a b 0

/-- The two borrow loops of `bignum_sub_mag`. -/
def subBorrow : List Limb → List Limb → Nat → List Limb
  | x :: xs, y :: ys, borrow =>
      let diff := (x.toNat + 2 ^ 32 - y.toNat - borrow) % 2 ^ 32
      BitVec.ofNat 16 diff :: subBorrow xs ys ((diff >>> 16) % 2)
  | x :: xs, [], borrow =>
      let diff := (x.toNat + 2 ^ 32 - borrow) % 2 ^ 32
      BitVec.ofNat 16 diff :: subBorrow xs [] ((diff >>> 16) % 2)
  | [], _, _ => []

def bignumSubMag (a b : List Limb) : List Limb :=
  strip (subBorrow a b 0)

/-- The inner loop for one limb `x` of the first operand: `result` is the part
of the result array from index `i` on, `b` runs over the second operand, and
the last step is `result[i + b_len] += carry`. -/
def mulRow {w : Nat} (x : BitVec w) :
    List (BitVec w) → List (BitVec w) → Nat → List (BitVec w)
  | y :: ys, r :: rs, carry =>
      let prod := (x.toNat * y.toNat + r.toNat + carry) % 2 ^ (2 * w)
      BitVec.ofNat w prod :: mulRow x ys rs (prod >>> w)
  | [], r :: rs, carry => (r + BitVec.ofNat w carry) :: rs
  | _, [], _ => []

/-- The outer loop.  Row `i` leaves `result[i]` final, so the recursion passes
on the array from the next index. -/
def mulRows {w : Nat} :
    List (BitVec w) → List (BitVec w) → List (BitVec w) → List (BitVec w)
  | [], _, result => result
  | x :: xs, b, result =>
      match mulRow x b result 0 with
      | [] => []
      | r :: rs => r :: mulRows xs b rs

def mulSchoolbook {w : Nat} (a b : List (BitVec w)) : List (BitVec w) :=
  strip (mulRows a b (List.replicate (a.length + b.length) 0))

def bignumMulMag (a b : List Limb) : List Limb :=
  mulSchoolbook a b

def bignumMulMag32 (a b : List (BitVec 32)) : List (BitVec 32) :=
  mulSchoolbook a b

def pack16To32 : List Limb → List (BitVec 32)
  | lo :: hi :: rest =>
      (lo.setWidth 32 ||| (hi.setWidth 32 <<< 16)) :: pack16To32 rest
  | [lo] => [lo.setWidth 32]
  | [] => []

/-- The unpacking loop, before the zero limbs at the top are stripped. -/
def unpackPairs : List (BitVec 32) → List Limb
  | [] => []
  | x :: xs => x.setWidth 16 :: (x >>> 16).setWidth 16 :: unpackPairs xs

def unpack32To16 (src : List (BitVec 32)) : List Limb :=
  strip (unpackPairs src)

/-- The target the code is built for: a 64-bit host, with or without a
128-bit integer type, or the 68020. -/
inductive Platform where
  | host (int128 : Bool)
  | m68k
  deriving DecidableEq, Repr

/-- The last loop of `bignum_mul_small`: the carry fills the result up to
`r_len`. -/
def carryOut : Nat → Nat → List Limb
  | 0, _ => []
  | count + 1, carry => BitVec.ofNat 16 carry :: carryOut count (carry >>> 16)

/-- The two-limb loop and the odd last limb of the host variant. -/
def mulSmallPairs (m : Nat) : List Limb → Nat → List Limb × Nat
  | x0 :: x1 :: xs, carry =>
      let prod := ((x0.toNat + x1.toNat * 2 ^ 16) * m + carry) % 2 ^ 64
      let rest := mulSmallPairs m xs (prod >>> 32)
      (BitVec.ofNat 16 prod :: BitVec.ofNat 16 (prod >>> 16) :: rest.1, rest.2)
  | [x0], carry =>
      let prod := (x0.toNat * m + carry) % 2 ^ 64
      ([BitVec.ofNat 16 prod], prod >>> 16)
  | [], carry => ([], carry)

/-- The four-limb loop for hosts with a 128-bit product; the two-limb code
takes over for the last limbs. -/
def mulSmallQuads (m : Nat) : List Limb → Nat → List Limb × Nat
  | x0 :: x1 :: x2 :: x3 :: xs, carry =>
      let x := x0.toNat + x1.toNat * 2 ^ 16 + x2.toNat * 2 ^ 32
        + x3.toNat * 2 ^ 48
      let prod := (x * m + carry) % 2 ^ 128
      let lo := prod % 2 ^ 64
      let rest := mulSmallQuads m xs ((prod >>> 64) % 2 ^ 64)
      (BitVec.ofNat 16 lo :: BitVec.ofNat 16 (lo >>> 16) ::
        BitVec.ofNat 16 (lo >>> 32) :: BitVec.ofNat 16 (lo >>> 48) :: rest.1,
        rest.2)
  | limbs, carry => mulSmallPairs m limbs carry

/-- The 68020 loop for a multiplier of one limb. -/
def mulSmallOne (ml : Nat) : List Limb → Nat → List Limb × Nat
  | x :: xs, carry =>
      let prod := (x.toNat * ml + carry) % 2 ^ 32
      let rest := mulSmallOne ml xs (prod >>> 16)
      (BitVec.ofNat 16 prod :: rest.1, rest.2)
  | [], carry => ([], carry)

/-- The 68020 loop for a multiplier `mh:ml` of two limbs. -/
def mulSmallTwo (ml mh : Nat) : List Limb → Nat → List Limb × Nat
  | x :: xs, carry =>
      let p0 := (x.toNat * ml + carry % 2 ^ 16) % 2 ^ 32
      let next := (x.toNat * mh + (carry >>> 16) + (p0 >>> 16)) % 2 ^ 32
      let rest := mulSmallTwo ml mh xs next
      (BitVec.ofNat 16 p0 :: rest.1, rest.2)
  | [], carry => ([], carry)

def bignumMulSmall (platform : Platform) (a : List Limb) (m rLen : Nat) :
    List Limb :=
  let body :=
    match platform with
    | .host true => mulSmallQuads m a 0
    | .host false => mulSmallPairs m a 0
    | .m68k =>
        let ml := m % 2 ^ 16
        let mh := m >>> 16
        if mh = 0 then mulSmallOne ml a 0 else mulSmallTwo ml mh a 0
  body.1 ++ carryOut (rLen - a.length) body.2

def bitLength32 (v : Nat) : Nat :=
  v.size

end ClAmiga.Bignum
