import ClAmiga.Number.Division

/-!
# Greatest common divisor and least common multiple

`bi_lcm` folds its arguments: the running multiple is divided by its greatest
common divisor with the next argument and multiplied by that argument.  The
product is the only step that can exceed the storage limit.
-/

namespace ClAmiga.Number

open Radix Bignum

variable {platform : Platform}

/-- The loop of `bi_lcm`; a zero ends it at once. -/
def lcmLoop (platform : Platform) : ClInt → List ClInt → Result ClInt
  | result, [] => .ok result
  | result, arg :: args => do
      let b ← clArithAbs platform arg
      if clArithZerop result || clArithZerop b then return clMakeFixnum 0
      else
        let g ← clArithGcd platform result b
        let g ← clArithTruncate platform result g
        let result ← clArithMul platform g b
        lcmLoop platform result args

def biLcm (platform : Platform) : List ClInt → Result ClInt
  | [] => .ok (clMakeFixnum 1)
  | arg :: args => do
      let result ← clArithAbs platform arg
      lcmLoop platform result args

/-- A negative operand is short enough for `cl_arith_abs` to keep its limbs. -/
def AbsSafe (z : Int) : Prop :=
  0 ≤ z ∨ limbCount z < 2 ^ 16

theorem Fits.natAbs {z : Int} (fits : Fits platform z) : Fits platform (z.natAbs : Int) :=
  fits.of_natAbs_le (Int.natAbs_natCast _).le

theorem clArithAbs_natAbs {a : ClInt} (canonical : a.Canonical platform) (safe : AbsSafe a.toInt) :
    clArithAbs platform a = .ok (canon (a.toInt.natAbs : Int)) := by
  rw [clArithAbs_eq canonical safe, Int.abs_eq_natAbs]

def lcmLimbs (x y : Int) : Nat :=
  if x = 0 ∨ y = 0 then limbCount 0
  else mulLimbs ((x.natAbs / Int.gcd x y : Nat) : Int) (y.natAbs : Int)

theorem lcmLoop_step {m n : Nat} {arg : ClInt} (mFits : Fits platform (m : Int))
    (canonical : arg.Canonical platform) (safe : AbsSafe arg.toInt)
    (magnitude : arg.toInt.natAbs = n) :
    lcmLoop platform (canon (m : Int)) [arg] =
      if m = 0 ∨ n = 0 then .ok (canon 0)
      else allocWith platform (mulLimbs ((m / m.gcd n : Nat) : Int) (n : Int)) (m.lcm n : Int) := by
  have nFits : Fits platform (n : Int) := by
    rw [← magnitude]
    exact canonical.fits.natAbs
  have mCanonical := canonical_canon mFits
  have nCanonical := canonical_canon nFits
  simp only [lcmLoop, clArithAbs_natAbs canonical safe, magnitude]
  change (if (clArithZerop (canon (m : Int)) || clArithZerop (canon (n : Int))) =
      true then (Except.ok (clMakeFixnum 0) : Result ClInt) else _) = _
  rw [clArithZerop_eq mCanonical, clArithZerop_eq nCanonical, toInt_canon, toInt_canon]
  by_cases zero : m = 0 ∨ n = 0
  · rw [if_pos (by simpa using zero), if_pos zero]
    rfl
  · rw [if_neg (by simpa using zero), if_neg zero]
    rw [not_or] at zero
    have gcdPositive : 0 < m.gcd n :=
      Nat.gcd_pos_of_pos_left n (Nat.pos_of_ne_zero zero.1)
    have gcdFits : Fits platform ((m.gcd n : Nat) : Int) := by
      apply mFits.of_natAbs_le
      rw [Int.natAbs_natCast, Int.natAbs_natCast]
      exact Nat.gcd_le_left n (Nat.pos_of_ne_zero zero.1)
    have gcd := clArithGcd_eq mCanonical nCanonical
      (Or.inl (by rw [toInt_canon]; omega)) (Or.inl (by rw [toInt_canon]; omega))
    rw [toInt_canon, toInt_canon, Int.gcd_natCast_natCast] at gcd
    have quotientFits : Fits platform ((m / m.gcd n : Nat) : Int) := by
      apply mFits.of_natAbs_le
      rw [Int.natAbs_natCast, Int.natAbs_natCast]
      exact Nat.div_le_self _ _
    have truncate := clArithTruncate_eq mCanonical (canonical_canon gcdFits)
      (by rw [toInt_canon]; omega)
      (by rw [toInt_canon, toInt_canon, QuotientWraps, clFixnumMin]; omega)
    rw [toInt_canon, toInt_canon, ← Int.ofNat_tdiv] at truncate
    have product := clArithMul_eq (canonical_canon quotientFits) nCanonical
    rw [toInt_canon, toInt_canon] at product
    have multiple : ((m / m.gcd n : Nat) : Int) * (n : Int) = ((m.lcm n : Nat) : Int) := by
      rw [← Int.natCast_mul, Nat.lcm, Nat.div_mul_right_comm (Nat.gcd_dvd_left m n)]
    rw [multiple] at product
    rw [gcd]
    change (do
      let g ← clArithTruncate platform (canon (m : Int)) (canon (m.gcd n : Int))
      let result ← clArithMul platform g (canon (n : Int))
      lcmLoop platform result []) = _
    rw [truncate]
    change (do
      let result ← clArithMul platform (canon ((m / m.gcd n : Nat) : Int))
        (canon (n : Int))
      lcmLoop platform result []) = _
    rw [product]
    cases allocWith platform (mulLimbs ((m / m.gcd n : Nat) : Int) (n : Int))
      ((m.lcm n : Nat) : Int) <;> rfl

theorem biLcm_eq {a b : ClInt} (aCanonical : a.Canonical platform)
    (bCanonical : b.Canonical platform) (aSafe : AbsSafe a.toInt)
    (bSafe : AbsSafe b.toInt) :
    biLcm platform [a, b] = allocWith platform (lcmLimbs a.toInt b.toInt)
        ((Int.lcm a.toInt b.toInt : Nat) : Int) := by
  simp only [biLcm, clArithAbs_natAbs aCanonical aSafe]
  change lcmLoop platform (canon (a.toInt.natAbs : Int)) [b] = _
  rw [lcmLoop_step aCanonical.fits.natAbs bCanonical bSafe rfl, lcmLimbs]
  simp only [Int.natAbs_eq_zero]
  split
  · rename_i zero
    have vanish : Int.lcm a.toInt b.toInt = 0 := by
      rcases zero with zero | zero <;> simp [zero]
    rw [vanish, allocWith_of_le (Fits.of_range (by decide))]
    rfl
  · rfl

theorem lcm_eq_mul (x y : Int) : ((Int.lcm x y : Nat) : Int) =
      ((x.natAbs / Int.gcd x y : Nat) : Int) * (y.natAbs : Int) := by
  rw [← Int.natCast_mul, Int.lcm, Int.gcd, Nat.lcm, Nat.div_mul_right_comm (Nat.gcd_dvd_left _ _)]

theorem limbCount_lcm_le (x y : Int) : limbCount ((Int.lcm x y : Nat) : Int) ≤ lcmLimbs x y := by
  unfold lcmLimbs
  split
  · rename_i zero
    have vanish : Int.lcm x y = 0 := by
      rcases zero with zero | zero <;> simp [zero]
    rw [vanish]
    rfl
  · rw [lcm_eq_mul]
    exact limbCount_mul_le _ _

/-- The greatest common divisor is exact and canonical; the least common
multiple, which completes it to the product, is exact up to the storage
limit. -/
theorem gcd_lcm_exact (platform : Platform) (a b : ClInt)
    (aCanonical : a.Canonical platform) (bCanonical : b.Canonical platform)
    (aSafe : AbsSafe a.toInt) (bSafe : AbsSafe b.toInt) :
    (∃ g, clArithGcd platform a b = .ok g ∧ g.Canonical platform ∧
        g.toInt = Int.gcd a.toInt b.toInt) ∧
      (Int.gcd a.toInt b.toInt : Int) * (Int.lcm a.toInt b.toInt : Int) =
        |a.toInt * b.toInt| ∧
      ExactOrStorage platform (biLcm platform [a, b])
        (Int.lcm a.toInt b.toInt : Int) (lcmLimbs a.toInt b.toInt) := by
  refine ⟨⟨_, clArithGcd_eq aCanonical bCanonical aSafe bSafe, ?_, toInt_canon _⟩, ?_, ?_⟩
  · apply canonical_canon
    by_cases zero : a.toInt = 0
    · rw [zero, Int.gcd_zero_left]
      exact bCanonical.fits.natAbs
    · apply aCanonical.fits.of_natAbs_le
      rw [Int.natAbs_natCast]
      exact Nat.gcd_le_left _ (Int.natAbs_pos.mpr zero)
  · rw [← Int.natCast_mul, Int.gcd_mul_lcm, Int.abs_eq_natAbs, Int.natAbs_mul]
  · rw [biLcm_eq aCanonical bCanonical aSafe bSafe]
    exact exactOrStorage_allocWith (limbCount_lcm_le _ _)

/-- The least fixnum and a bignum. -/
theorem gcd_lcm_exact_minimum : (∃ g, clArithGcd .m68k (canon clFixnumMin) (allOnes 3) = .ok g ∧
        g.Canonical .m68k ∧
        g.toInt = Int.gcd (canon clFixnumMin).toInt (allOnes 3).toInt) ∧
      (Int.gcd (canon clFixnumMin).toInt (allOnes 3).toInt : Int) *
          (Int.lcm (canon clFixnumMin).toInt (allOnes 3).toInt : Int) =
        |(canon clFixnumMin).toInt * (allOnes 3).toInt| ∧
      ExactOrStorage .m68k (biLcm .m68k [canon clFixnumMin, allOnes 3])
        (Int.lcm (canon clFixnumMin).toInt (allOnes 3).toInt : Int)
        (lcmLimbs (canon clFixnumMin).toInt (allOnes 3).toInt) := by
  have fewLimbs : limbCount (canon clFixnumMin).toInt < 2 ^ 16 := by
    have few : limbCount (canon clFixnumMin).toInt ≤ 2 := by
      rw [toInt_canon]
      exact limbCount_le (by decide)
    omega
  exact gcd_lcm_exact .m68k (canon clFixnumMin) (allOnes 3) trivial
    (canonical_allOnes (by omega) (by decide)) (Or.inr fewLimbs)
    (Or.inl (by simp [allOnes, ClInt.toInt, signed]))

theorem toInt_allOnes (length : Nat) : (allOnes length).toInt =
      (value (List.replicate length (BitVec.ofNat 16 0xFFFF)) : Int) := rfl

theorem two_dvd_radix_pow {count : Nat} (positive : 0 < count) : 2 ∣ (2 ^ 16) ^ count := by
  rw [← pow_mul]
  exact dvd_pow_self 2 (by omega)

theorem le_of_gcd_mul_eq {ones limit : Nat} {z : Int} (total : ones + 1 = limit) (even : 2 ∣ limit)
    (product : (Int.gcd (ones : Int) 2 : Int) * z = |(ones : Int) * 2|) :
    limit ≤ z.natAbs := by
  have odd : ones % 2 = 1 := by omega
  have coprime : Int.gcd (ones : Int) 2 = 1 := by
    have natural : Nat.Coprime ones 2 := by
      rw [Nat.coprime_two_right, Nat.odd_iff]
      exact odd
    exact natural
  rw [coprime, Nat.cast_one, one_mul, abs_of_nonneg (by omega)] at product
  omega

/-- The largest integer and two are coprime, and their product is too large. -/
theorem biLcm_allOnes_storage : (allOnes (maxLimbs .m68k)).Canonical .m68k ∧
      (canon 2).Canonical .m68k ∧
      ¬ ∃ multiple, biLcm .m68k [allOnes (maxLimbs .m68k), canon 2] =
          .ok multiple ∧ multiple.Canonical .m68k ∧
        (Int.gcd (allOnes (maxLimbs .m68k)).toInt (canon 2).toInt : Int) * multiple.toInt =
          |(allOnes (maxLimbs .m68k)).toInt * (canon 2).toInt| := by
  have canonical : (allOnes (maxLimbs .m68k)).Canonical .m68k :=
    canonical_allOnes (by decide) le_rfl
  have positive : 0 < maxLimbs .m68k := by decide
  refine ⟨canonical, trivial, ?_⟩
  rintro ⟨multiple, -, multipleCanonical, product⟩
  have bound : multiple.toInt.natAbs < (2 ^ 16) ^ maxLimbs .m68k :=
    lt_of_limbCount_le multipleCanonical.fits
  rw [toInt_allOnes, toInt_canon] at product
  generalize maxLimbs .m68k = length at bound product positive
  exact absurd bound (Nat.not_lt.mpr (le_of_gcd_mul_eq
    (value_replicate_ones length) (two_dvd_radix_pow positive) product))

end ClAmiga.Number
