import ClAmiga.Bignum.MultiplyChecked
import ClAmiga.Number.Arithmetic

/-!
# The multiplication paths agree

`cl_arith_mul` chooses between the fixnum fast path, the one-pass kernels and
the two schoolbook kernels by operand kind and platform.  Here each path is
run with the refusing arithmetic of the checked kernels and with the buffers it
allocates: no path refuses anything, and all of them give the magnitude of the
product.
-/

namespace ClAmiga.Number

open Radix Bignum

variable {platform : Platform}

/-- The 16x16 partial products in `uint32_t`; `some none` is
`goto bignum_mul`. -/
def mulUint32Checked (ua ub : Nat) : Option (Option Nat) := do
  let aHi := ua >>> 16
  let aLo := ua % 2 ^ 16
  let bHi := ub >>> 16
  let bLo := ub % 2 ^ 16
  if aHi ≠ 0 ∧ bHi ≠ 0 then return none
  else
    let cross ← unsigned 32 (if aHi ≠ 0 then aHi * bLo else aLo * bHi)
    if cross > 0xFFFF then return none
    else
      let prodLo ← unsigned 32 (aLo * bLo)
      let high ← unsigned 32 ((prodLo >>> 16) + cross)
      if high > 0xFFFF then return none
      else
        let shifted ← unsigned 32 (cross <<< 16)
        let prod ← unsigned 32 (prodLo + shifted)
        return some prod

def mulFixnumsChecked (platform : Platform) (a b : ClInt) (va vb : Int) :
    Option (Option (Result ClInt)) :=
  if va = 0 ∨ vb = 0 then some (some (.ok (clMakeFixnum 0)))
  else if va = 1 then some (some (.ok b))
  else if vb = 1 then some (some (.ok a))
  else do
    let neg : Bool := decide (va < 0) != decide (vb < 0)
    let ua ← unsigned 32 va.natAbs
    let ub ← unsigned 32 vb.natAbs
    let prod ← mulUint32Checked ua ub
    return prod.map fun prod => fixnumProduct platform prod neg

/-- The bits of the product's object, from the bit lengths of the operands. -/
def mixedLength (limbs : List Limb) (m : Nat) : Option Nat := do
  let aLen := limbs.length
  let bits ← unsigned 32 ((aLen - 1) * 16
    + bitLength32 (limbs.getD (aLen - 1) 0).toNat + bitLength32 m + 15)
  return bits / 16

def mulMixedChecked (platform : Platform) (big : ClInt) (sign : Bool)
    (limbs : List Limb) (v : Int) : Option (Result ClInt) := do
  let m ← unsigned 32 v.natAbs
  if m = 0 then return .ok (clMakeFixnum 0)
  else if v = 1 then return .ok big
  else
    let rLen ← mixedLength limbs m
    let result ← bignumMulSmallChecked platform limbs m rLen
    return do
      let obj ← clMakeBignum platform (sign != decide (v < 0)) result
      return clBignumNormalize obj

/-- The packed kernel with its buffers: 256 words and 512 limbs on the stack,
or the exact sizes on the heap. -/
def mulPackedChecked (al bl : List Limb) : Option (List Limb) := do
  let a32Len := (al.length + 1) / 2
  let b32Len := (bl.length + 1) / 2
  let r32Max := a32Len + b32Len
  let onStack : Bool := decide (r32Max ≤ 256)
  let a32 ← stored (if onStack then 256 else a32Len) (pack16To32 al)
  let b32 ← stored (if onStack then 256 else b32Len) (pack16To32 bl)
  let r32 ← mulSchoolbookChecked (if onStack then 256 else r32Max) a32 b32
  let r16 ← stored (if onStack then 512 else r32.length * 2) (unpackPairs r32)
  return strip r16

/-- The 16-bit kernel with its buffer of 256 limbs or of the exact size. -/
def mulPlainChecked (al bl : List Limb) : Option (List Limb) :=
  mulSchoolbookChecked
    (if al.length + bl.length > 256 then al.length + bl.length else 256) al bl

def mulGeneralChecked (platform : Platform) (a b : ClInt) :
    Option (Result ClInt) := do
  let (aSign, al) := toLimbs a
  let (bSign, bl) := toLimbs b
  if al = [0] then return .ok (clMakeFixnum 0)
  else if bl = [0] then return .ok (clMakeFixnum 0)
  else
    let product ←
      match platform with
      | .host _ => mulPackedChecked al bl
      | .m68k => mulPlainChecked al bl
    return bignumFromLimbs platform product (aSign != bSign)

def clArithMulChecked (platform : Platform) (a b : ClInt) :
    Option (Result ClInt) :=
  match a, b with
  | .fixnum va, .fixnum vb => do
      match ← mulFixnumsChecked platform a b va.toInt vb.toInt with
      | some result => return result
      | none => mulGeneralChecked platform a b
  | .fixnum va, .bignum sign limbs =>
      mulMixedChecked platform b sign limbs va.toInt
  | .bignum sign limbs, .fixnum vb =>
      mulMixedChecked platform a sign limbs vb.toInt
  | .bignum _ _, .bignum _ _ => mulGeneralChecked platform a b

theorem mulUint32Checked_eq {ua ub : Nat} (uaBound : ua < 2 ^ 32) (ubBound : ub < 2 ^ 32) :
    mulUint32Checked ua ub = some (mulUint32 ua ub) := by
  have lowA : ua % 2 ^ 16 < 2 ^ 16 := Nat.mod_lt _ (by omega)
  have lowB : ub % 2 ^ 16 < 2 ^ 16 := Nat.mod_lt _ (by omega)
  have highA : ua >>> 16 < 2 ^ 16 := by
    rw [Nat.shiftRight_eq_div_pow]
    omega
  have highB : ub >>> 16 < 2 ^ 16 := by
    rw [Nat.shiftRight_eq_div_pow]
    omega
  unfold mulUint32Checked mulUint32
  generalize ua >>> 16 = aHi at highA ⊢
  generalize ub >>> 16 = bHi at highB ⊢
  generalize ua % 2 ^ 16 = aLo at lowA ⊢
  generalize ub % 2 ^ 16 = bLo at lowB ⊢
  have product : ∀ {x y : Nat}, x < 2 ^ 16 → y < 2 ^ 16 → x * y < 2 ^ 32 := by
    intro x y xBound yBound
    have bound : x * y ≤ (2 ^ 16 - 1) * (2 ^ 16 - 1) :=
      Nat.mul_le_mul (by omega) (by omega)
    omega
  have crossBound : (if aHi ≠ 0 then aHi * bLo else aLo * bHi) < 2 ^ 32 := by
    split
    · exact product highA lowB
    · exact product lowA highB
  have lowBound := product lowA lowB
  dsimp only
  by_cases both : aHi ≠ 0 ∧ bHi ≠ 0
  · rw [if_pos both, if_pos both]
    rfl
  · rw [if_neg both, if_neg both, Nat.mod_eq_of_lt crossBound,
      unsigned_eq crossBound, Option.bind_eq_bind, Option.bind_some]
    generalize (if aHi ≠ 0 then aHi * bLo else aLo * bHi) = cross
      at crossBound ⊢
    by_cases crossLarge : cross > 0xFFFF
    · rw [if_pos crossLarge, if_pos crossLarge]
      rfl
    · rw [if_neg crossLarge, if_neg crossLarge, Nat.mod_eq_of_lt lowBound,
        unsigned_eq lowBound, Option.bind_some]
      generalize aLo * bLo = prodLo at lowBound ⊢
      have highSum : (prodLo >>> 16) + cross < 2 ^ 32 := by
        rw [Nat.shiftRight_eq_div_pow]
        omega
      rw [unsigned_eq highSum, Option.bind_some]
      by_cases sumLarge : (prodLo >>> 16) + cross > 0xFFFF
      · rw [if_pos sumLarge, if_pos sumLarge]
        rfl
      · have shiftBound : cross <<< 16 < 2 ^ 32 := by
          rw [Nat.shiftLeft_eq]
          omega
        have sumBound : prodLo + cross <<< 16 < 2 ^ 32 := by
          rw [Nat.shiftRight_eq_div_pow] at sumLarge
          rw [Nat.shiftLeft_eq]
          omega
        rw [if_neg sumLarge, if_neg sumLarge, unsigned_eq shiftBound,
          Option.bind_some, unsigned_eq sumBound, Option.bind_some,
          Nat.mod_eq_of_lt sumBound]
        rfl

theorem natAbs_word_lt (word : BitVec 31) : word.toInt.natAbs < 2 ^ 32 := by
  have range := word_range word
  simp only [InFixnumRange, clFixnumMin, clFixnumMax] at range
  omega

theorem mulFixnumsChecked_eq (platform : Platform) (a b : ClInt) {va vb : Int}
    (vaBound : va.natAbs < 2 ^ 32) (vbBound : vb.natAbs < 2 ^ 32) :
    mulFixnumsChecked platform a b va vb = some (mulFixnums platform a b va vb) := by
  unfold mulFixnumsChecked mulFixnums
  by_cases zero : va = 0 ∨ vb = 0
  · rw [if_pos zero, if_pos zero]
  · rw [if_neg zero, if_neg zero]
    by_cases aOne : va = 1
    · rw [if_pos aOne, if_pos aOne]
    · rw [if_neg aOne, if_neg aOne]
      by_cases bOne : vb = 1
      · rw [if_pos bOne, if_pos bOne]
      · rw [if_neg bOne, if_neg bOne]
        simp only [unsigned_eq vaBound, unsigned_eq vbBound,
          mulUint32Checked_eq vaBound vbBound, Option.bind_eq_bind,
          Option.bind_some]
        rfl

/-- The length chosen for a bignum times a fixnum covers the operand and the
product. -/
theorem mixedLength_eq {sign : Bool} {limbs : List Limb} {v : Int}
    (canonical : (ClInt.bignum sign limbs).Canonical platform)
    (range : InFixnumRange v) (nonzero : v ≠ 0) :
    ∃ rLen, mixedLength limbs v.natAbs = some rLen ∧ rLen = ((limbs.length - 1) * 16 +
        bitLength32 (limbs.getD (limbs.length - 1) 0).toNat +
        bitLength32 v.natAbs + 15) / 16 ∧
      limbs.length ≤ rLen ∧ value limbs * v.natAbs < (2 ^ 16) ^ rLen := by
  obtain ⟨normalized, few, _⟩ := canonical
  simp only [InFixnumRange, clFixnumMin, clFixnumMax] at range
  have topBits : 0 < bitLength32 (limbs.getD (limbs.length - 1) 0).toNat :=
    Nat.size_pos.mpr normalized.top_pos
  have topSmall : bitLength32 (limbs.getD (limbs.length - 1) 0).toNat ≤ 16 :=
    Nat.size_le.mpr (limbs.getD (limbs.length - 1) 0).isLt
  have multiplierBits : 0 < bitLength32 v.natAbs :=
    Nat.size_pos.mpr (by omega)
  have multiplierSmall : bitLength32 v.natAbs ≤ 31 :=
    Nat.size_le.mpr (by omega)
  have most : limbs.length ≤ 4194296 := by
    cases platform <;> simp only [maxLimbs] at few <;> omega
  have sizes := size_value normalized
  have productFits := natAbs_mul_lt_size (signed sign (value limbs)) v
  rw [Int.natAbs_mul, natAbs_signed, mixedLimbs, natAbs_signed, ← sizes]
    at productFits
  refine ⟨_, ?_, rfl, by omega, productFits⟩
  simp only [mixedLength]
  rw [unsigned_eq (by omega)]
  rfl

theorem mulMixedChecked_eq {sign : Bool} {limbs : List Limb} {v : Int}
    (big : ClInt) (canonical : (ClInt.bignum sign limbs).Canonical platform)
    (range : InFixnumRange v) :
    mulMixedChecked platform big sign limbs v = some (mulMixed platform big sign limbs v) := by
  have vBound : v.natAbs < 2 ^ 32 := by
    simp only [InFixnumRange, clFixnumMin, clFixnumMax] at range
    omega
  unfold mulMixedChecked mulMixed
  rw [unsigned_eq vBound, Option.bind_eq_bind, Option.bind_some]
  dsimp only
  by_cases zero : v.natAbs = 0
  · rw [if_pos zero, if_pos zero]
    rfl
  · rw [if_neg zero, if_neg zero]
    by_cases one : v = 1
    · rw [if_pos one, if_pos one]
      rfl
    · obtain ⟨rLen, chosen, rLenEq, covers, fits⟩ :=
        mixedLength_eq canonical range (by omega)
      have small : v.natAbs ≤ 2 ^ 30 := by
        simp only [InFixnumRange, clFixnumMin, clFixnumMax] at range
        omega
      rw [if_neg one, if_neg one, chosen, Option.bind_some,
        bignumMulSmallChecked_eq platform limbs v.natAbs rLen small covers fits,
        rLenEq]
      rfl

theorem length_pack16To32 (limbs : List Limb) :
    (pack16To32 limbs).length = (limbs.length + 1) / 2 := by
  fun_induction pack16To32 limbs with
  | case1 lo hi rest induction =>
      simp only [List.length_cons, induction]
      omega
  | case2 lo => simp
  | case3 => rfl

theorem length_unpackPairs (src : List (BitVec 32)) :
    (unpackPairs src).length = src.length * 2 := by
  induction src with
  | nil => rfl
  | cons x xs induction =>
      simp only [unpackPairs, List.length_cons, induction]
      omega

theorem length_mulRows {w : Nat} (a b low : List (BitVec w)) (sameLength : low.length = b.length) :
    (mulRows a b (low ++ List.replicate a.length 0)).length = low.length + a.length := by
  induction a generalizing low with
  | nil => simp [mulRows]
  | cons x xs induction =>
      obtain ⟨row, rowLength, rowShape, _⟩ :=
        mulRow_spec x b low (List.replicate xs.length 0) 0 sameLength (Nat.two_pow_pos w)
      cases row with
      | nil => simp at rowLength
      | cons r rs =>
          have tail := induction rs (by simpa using rowLength)
          simp only [List.length_cons] at rowLength
          simp only [List.length_cons, List.replicate_succ, mulRows, rowShape,
            List.cons_append, tail]
          omega

theorem length_mulSchoolbook_le {w : Nat} (a b : List (BitVec w)) :
    (mulSchoolbook a b).length ≤ a.length + b.length := by
  have split : List.replicate (a.length + b.length) (0 : BitVec w) =
      List.replicate b.length 0 ++ List.replicate a.length 0 := by
    rw [List.replicate_append_replicate, Nat.add_comm]
  have rows := length_mulRows a b (List.replicate b.length 0) (by simp)
  rw [mulSchoolbook, split]
  calc
    (strip (mulRows a b (List.replicate b.length 0 ++ List.replicate a.length 0))).length
        ≤ (mulRows a b (List.replicate b.length 0 ++
          List.replicate a.length 0)).length := List.length_take_le' _ _
    _ = b.length + a.length := by rw [rows, List.length_replicate]
    _ = a.length + b.length := Nat.add_comm _ _

theorem mulPlainChecked_eq {al bl : List Limb} (counted : al.length + bl.length < 2 ^ 32) :
    mulPlainChecked al bl = some (bignumMulMag al bl) := by
  unfold mulPlainChecked
  rw [mulSchoolbookChecked_eq al bl counted (by split <;> omega)]
  rfl

theorem mulPackedChecked_eq {al bl : List Limb} (counted : al.length + bl.length < 2 ^ 31) :
    mulPackedChecked al bl =
      some (unpack32To16 (bignumMulMag32 (pack16To32 al) (pack16To32 bl))) := by
  have aLength := length_pack16To32 al
  have bLength := length_pack16To32 bl
  have rLength := length_mulSchoolbook_le (pack16To32 al) (pack16To32 bl)
  have limbsLength := length_unpackPairs (mulSchoolbook (pack16To32 al) (pack16To32 bl))
  unfold mulPackedChecked
  simp only [decide_eq_true_eq]
  rw [stored_eq (by split <;> omega), Option.bind_eq_bind, Option.bind_some,
    stored_eq (by split <;> omega), Option.bind_some,
    mulSchoolbookChecked_eq _ _ (by omega) (by split <;> omega),
    Option.bind_some, stored_eq (by split <;> omega)]
  rfl

theorem length_toLimbs_le {a : ClInt} (canonical : a.Canonical platform) :
    (toLimbs a).2.length ≤ 4194296 := by
  cases a with
  | fixnum word =>
      simp only [toLimbs]
      split <;> simp
  | bignum sign limbs =>
      obtain ⟨_, few, _⟩ := canonical
      cases platform <;> simp only [maxLimbs] at few <;>
        simp only [toLimbs] <;> omega

theorem mulGeneralChecked_eq {a b : ClInt} (aCanonical : a.Canonical platform)
    (bCanonical : b.Canonical platform) :
    mulGeneralChecked platform a b = some (mulGeneral platform a b) := by
  have aLength := length_toLimbs_le aCanonical
  have bLength := length_toLimbs_le bCanonical
  unfold mulGeneralChecked mulGeneral
  generalize toLimbs a = aLimbs at aLength ⊢
  generalize toLimbs b = bLimbs at bLength ⊢
  obtain ⟨aSign, al⟩ := aLimbs
  obtain ⟨bSign, bl⟩ := bLimbs
  simp only at aLength bLength ⊢
  by_cases aZero : al = [0]
  · rw [if_pos aZero, if_pos aZero]
    rfl
  · rw [if_neg aZero, if_neg aZero]
    by_cases bZero : bl = [0]
    · rw [if_pos bZero, if_pos bZero]
      rfl
    · rw [if_neg bZero, if_neg bZero]
      cases platform with
      | host int128 =>
          simp only [mulPackedChecked_eq (show al.length + bl.length < 2 ^ 31 by omega)]
          rfl
      | m68k =>
          simp only [mulPlainChecked_eq (show al.length + bl.length < 2 ^ 32 by omega)]
          rfl

theorem clArithMulChecked_eq {a b : ClInt} (aCanonical : a.Canonical platform)
    (bCanonical : b.Canonical platform) :
    clArithMulChecked platform a b = some (clArithMul platform a b) := by
  have general := mulGeneralChecked_eq aCanonical bCanonical
  cases a with
  | fixnum va =>
      cases b with
      | fixnum vb =>
          have fast := mulFixnumsChecked_eq platform (.fixnum va)
            (.fixnum vb) (natAbs_word_lt va) (natAbs_word_lt vb)
          simp only [clArithMulChecked, clArithMul, fast, Option.bind_eq_bind, Option.bind_some]
          cases mulFixnums platform (.fixnum va) (.fixnum vb) va.toInt vb.toInt
            with
          | some result => rfl
          | none => exact general
      | bignum sign limbs =>
          exact mulMixedChecked_eq _ bCanonical (word_range va)
  | bignum sign limbs =>
      cases b with
      | fixnum vb => exact mulMixedChecked_eq _ aCanonical (word_range vb)
      | bignum bSign bLimbs => exact general

/-- What every multiplication path does with the magnitudes of two integers:
it refuses nothing, and the limbs it leaves denote `product`.  The fixnum path
may hand over to the other paths; the one-pass kernels serve a bignum times a
fixnum, on every platform. -/
structure MulPathsAgree (a b : ClInt) (product : Nat) : Prop where
  fixnums : ∀ va vb, a = .fixnum va → b = .fixnum vb →
    ∃ outcome, mulUint32Checked va.toInt.natAbs vb.toInt.natAbs = some outcome ∧
      ∀ prod, outcome = some prod → prod = product
  onePass : ∀ sign limbs vb target, a = .bignum sign limbs → b = .fixnum vb →
    vb.toInt ≠ 0 → ∃ rLen result,
      mixedLength limbs vb.toInt.natAbs = some rLen ∧
      bignumMulSmallChecked target limbs vb.toInt.natAbs rLen = some result ∧
      result.length = rLen ∧ value result = product
  packed : ∃ result,
    mulPackedChecked (toLimbs a).2 (toLimbs b).2 = some result ∧
      value result = product
  plain : ∃ result,
    mulPlainChecked (toLimbs a).2 (toLimbs b).2 = some result ∧
      value result = product

theorem mulPathsAgree {a b : ClInt} (aCanonical : a.Canonical platform)
    (bCanonical : b.Canonical platform) :
    MulPathsAgree a b (a.toInt * b.toInt).natAbs := by
  have aLength := length_toLimbs_le aCanonical
  have bLength := length_toLimbs_le bCanonical
  have magnitude : (a.toInt * b.toInt).natAbs = value (toLimbs a).2 * value (toLimbs b).2 := by
    rw [← (toLimbs_spec aCanonical).2.1, ← (toLimbs_spec bCanonical).2.1,
      Int.natAbs_mul, natAbs_signed, natAbs_signed]
  refine ⟨?_, ?_, ?_, ?_⟩
  · rintro va vb rfl rfl
    refine ⟨_, mulUint32Checked_eq (natAbs_word_lt va) (natAbs_word_lt vb), ?_⟩
    intro prod kept
    rw [(mulUint32_spec (natAbs_word_lt va) (natAbs_word_lt vb) kept).1]
    exact (Int.natAbs_mul _ _).symm
  · rintro sign limbs vb target rfl rfl nonzero
    obtain ⟨rLen, chosen, _, covers, fits⟩ :=
      mixedLength_eq aCanonical (word_range vb) nonzero
    have small : vb.toInt.natAbs ≤ 2 ^ 30 := by
      have range := word_range vb
      simp only [InFixnumRange, clFixnumMin, clFixnumMax] at range
      omega
    obtain ⟨length, product⟩ := bignumMulSmall_spec target limbs
      vb.toInt.natAbs rLen small covers fits
    refine ⟨rLen, _, chosen, bignumMulSmallChecked_eq target limbs _ rLen small
      covers fits, length, ?_⟩
    rw [product, Int.natAbs_mul, ClInt.toInt, ClInt.toInt, natAbs_signed]
  · refine ⟨_, mulPackedChecked_eq (by omega), ?_⟩
    rw [value_unpack32To16, bignumMulMag32, value_mulSchoolbook,
      value_pack16To32, value_pack16To32, magnitude]
  · refine ⟨_, mulPlainChecked_eq (by omega), ?_⟩
    rw [bignumMulMag, value_mulSchoolbook, magnitude]

/-- No path of `cl_arith_mul` overflows a type or a buffer, every path gives
the magnitude of the product, and the result is the exact product up to the
storage limit. -/
theorem clArithMul_paths (platform : Platform) (a b : ClInt)
    (aCanonical : a.Canonical platform) (bCanonical : b.Canonical platform) :
    MulPathsAgree a b (a.toInt * b.toInt).natAbs ∧
      clArithMulChecked platform a b = some (clArithMul platform a b) ∧
      ExactOrStorage platform (clArithMul platform a b) (a.toInt * b.toInt)
        (mulLimbs a.toInt b.toInt) := by
  refine ⟨mulPathsAgree aCanonical bCanonical, clArithMulChecked_eq aCanonical bCanonical, ?_⟩
  rw [clArithMul_eq aCanonical bCanonical]
  exact exactOrStorage_allocWith (limbCount_mul_le _ _)

/-- A bignum of three limbs by the least fixnum. -/
theorem clArithMul_paths_mixed : MulPathsAgree (allOnes 3) (canon clFixnumMin)
        ((allOnes 3).toInt * (canon clFixnumMin).toInt).natAbs ∧
      clArithMulChecked .m68k (allOnes 3) (canon clFixnumMin) =
        some (clArithMul .m68k (allOnes 3) (canon clFixnumMin)) ∧
      ExactOrStorage .m68k (clArithMul .m68k (allOnes 3) (canon clFixnumMin))
        ((allOnes 3).toInt * (canon clFixnumMin).toInt)
        (mulLimbs (allOnes 3).toInt (canon clFixnumMin).toInt) :=
  clArithMul_paths .m68k (allOnes 3) (canon clFixnumMin)
    (canonical_allOnes (by omega) (by simp only [maxLimbs]; omega)) trivial

end ClAmiga.Number
