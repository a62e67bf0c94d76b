import ClAmiga.Radix.Newton
import ClAmiga.Number.BitwiseSpec

/-!
# Integer square root

`cl_arith_isqrt` runs Newton's iteration on integer objects for at most 1000
rounds and then lowers the result while its square is too large.  The iteration
reaches the root of any heap integer within 38 rounds, so the second loop finds
nothing to correct.
-/

namespace ClAmiga.Number

open Radix Bignum

variable {platform : Platform}

def isqrtNegative : ClErr :=
  .typeError "ISQRT: argument must be non-negative"

def isqrtNewton (platform : Platform) (n : ClInt) : Nat → ClInt → Result ClInt
  | 0, x => .ok x
  | rounds + 1, x => do
      let x1 ← clArithTruncate platform n x
      let x1 ← clArithAdd platform x x1
      let x1 ← clArithTruncate platform x1 (clMakeFixnum 2)
      if clArithCompare x1 x ≥ 0 then return x
      else isqrtNewton platform n rounds x1

/-- The correction loop; the fuel bounds the rounds of `for (;;)`. -/
def isqrtCorrect (platform : Platform) (n : ClInt) :
    Nat → ClInt → Result ClInt
  | 0, _ => .error .undefined
  | fuel + 1, x => do
      let x1 ← clArithMul platform x x
      if clArithCompare x1 n ≤ 0 then return x
      else
        let x ← clArithSub platform x (clMakeFixnum 1)
        isqrtCorrect platform n fuel x

def clArithIsqrt (platform : Platform) (n : ClInt) : Result ClInt :=
  if clArithMinusp n then .error isqrtNegative
  else if clArithZerop n then .ok (clMakeFixnum 0)
  else do
    let bl := clArithIntegerLength n
    let start ← clArithAsh platform (clMakeFixnum 1)
      (clMakeFixnum ((bl + 1) / 2 : Nat))
    let x ← isqrtNewton platform n 1000 start
    isqrtCorrect platform n (x.toInt.natAbs + 1) x

theorem Fits.of_le_sqrt {n z : Nat} (nFits : Fits platform (n : Int))
    (small : z ≤ 3 * n.sqrt + 4) : Fits platform (z : Int) := by
  have square : n.sqrt * n.sqrt ≤ n := Nat.sqrt_le n
  by_cases large : 4 ≤ n.sqrt
  · apply nFits.of_natAbs_le
    rw [Int.natAbs_natCast, Int.natAbs_natCast]
    nlinarith
  · apply Fits.of_range
    simp only [InFixnumRange, clFixnumMin, clFixnumMax]
    omega

theorem div_le_sqrt_add_two {n x : Nat} (positive : 0 < n)
    (above : n.sqrt ≤ x) : n / x ≤ n.sqrt + 2 := by
  have rootPositive : 0 < n.sqrt := Nat.sqrt_pos.mpr positive
  have upper : n ≤ n.sqrt * n.sqrt + n.sqrt + n.sqrt := Nat.sqrt_le_add n
  calc
    n / x ≤ n / n.sqrt := Nat.div_le_div_left above rootPositive
    _ ≤ n.sqrt + 2 := by
      apply Nat.div_le_of_le_mul
      calc
        n ≤ n.sqrt * n.sqrt + n.sqrt + n.sqrt := upper
        _ = n.sqrt * (n.sqrt + 2) := by ring

theorem notWraps (m : Nat) (y : Int) : ¬ QuotientWraps (m : Int) y := by
  rw [QuotientWraps, clFixnumMin]
  omega

theorem truncate_natCast {m k : Nat} (mFits : Fits platform (m : Int))
    (kFits : Fits platform (k : Int)) (positive : 0 < k) :
    clArithTruncate platform (canon (m : Int)) (canon (k : Int)) =
      .ok (canon ((m / k : Nat) : Int)) := by
  rw [clArithTruncate_eq (canonical_canon mFits) (canonical_canon kFits)
      (by rw [toInt_canon]; omega) (by rw [toInt_canon]; exact notWraps m _),
    toInt_canon, toInt_canon, ← Int.ofNat_tdiv]

theorem add_natCast {m k : Nat} (mFits : Fits platform (m : Int)) (kFits : Fits platform (k : Int))
    (sumFits : Fits platform ((m + k : Nat) : Int)) :
    clArithAdd platform (canon (m : Int)) (canon (k : Int)) =
      .ok (canon ((m + k : Nat) : Int)) := by
  rw [clArithAdd_eq (canonical_canon mFits) (canonical_canon kFits),
    toInt_canon, toInt_canon, ← Int.natCast_add, alloc_of_fits sumFits]

theorem compare_natCast {m k : Nat} (mFits : Fits platform (m : Int))
    (kFits : Fits platform (k : Int)) :
    clArithCompare (canon (m : Int)) (canon (k : Int)) = ((m : Int) - (k : Int)).sign := by
  rw [clArithCompare_eq (canonical_canon mFits) (canonical_canon kFits), toInt_canon, toInt_canon]

/-- The object loop computes the Newton loop on natural numbers. -/
theorem isqrtNewton_eq {n : Nat} (nFits : Fits platform (n : Int))
    (positive : 0 < n) (rounds : Nat) {x : Nat} (above : n.sqrt ≤ x)
    (small : x ≤ 2 * n.sqrt) :
    isqrtNewton platform (canon (n : Int)) rounds (canon (x : Int)) =
      .ok (canon ((newtonLoop n rounds x : Nat) : Int)) := by
  have rootPositive : 0 < n.sqrt := Nat.sqrt_pos.mpr positive
  induction rounds generalizing x with
  | zero => rfl
  | succ rounds induction =>
      have quotientSmall := div_le_sqrt_add_two positive above
      have xFits : Fits platform (x : Int) := nFits.of_le_sqrt (by omega)
      have quotientFits : Fits platform ((n / x : Nat) : Int) :=
        nFits.of_le_sqrt (by omega)
      have sumFits : Fits platform ((x + n / x : Nat) : Int) :=
        nFits.of_le_sqrt (by omega)
      have stepFits : Fits platform ((newtonStep n x : Nat) : Int) := by
        apply nFits.of_le_sqrt
        unfold newtonStep
        omega
      have two : clMakeFixnum 2 = canon ((2 : Nat) : Int) := rfl
      have twoFits : Fits platform ((2 : Nat) : Int) :=
        Fits.of_range (by decide)
      have half := truncate_natCast sumFits twoFits (by omega)
      rw [isqrtNewton, truncate_natCast nFits xFits (by omega)]
      change (do
        let x1 ← clArithAdd platform (canon (x : Int))
          (canon ((n / x : Nat) : Int))
        let x1 ← clArithTruncate platform x1 (clMakeFixnum 2)
        if clArithCompare x1 (canon (x : Int)) ≥ 0 then
          return canon (x : Int)
        else isqrtNewton platform (canon (n : Int)) rounds x1) = _
      rw [add_natCast xFits quotientFits sumFits, two]
      change (do
        let x1 ← clArithTruncate platform (canon ((x + n / x : Nat) : Int))
          (canon ((2 : Nat) : Int))
        if clArithCompare x1 (canon (x : Int)) ≥ 0 then
          return canon (x : Int)
        else isqrtNewton platform (canon (n : Int)) rounds x1) = _
      rw [half]
      change (if clArithCompare (canon ((newtonStep n x : Nat) : Int))
          (canon (x : Int)) ≥ 0 then (Except.ok (canon (x : Int)) : Result ClInt)
        else isqrtNewton platform (canon (n : Int)) rounds
          (canon ((newtonStep n x : Nat) : Int))) = _
      have stops : clArithCompare (canon ((newtonStep n x : Nat) : Int))
          (canon (x : Int)) ≥ 0 ↔ x ≤ newtonStep n x := by
        rw [compare_natCast stepFits xFits, ge_iff_le, Int.sign_nonneg_iff]
        omega
      rw [newtonLoop]
      by_cases stopped : x ≤ newtonStep n x
      · rw [if_pos (stops.mpr stopped), if_pos stopped]
      · rw [if_neg (fun done => stopped (stops.mp done)), if_neg stopped]
        exact induction (sqrt_le_newtonStep (by omega)) (by omega)

theorem isqrtCorrect_eq {n : Nat} (nFits : Fits platform (n : Int)) (fuel : Nat) :
    isqrtCorrect platform (canon (n : Int)) (fuel + 1)
      (canon ((n.sqrt : Nat) : Int)) = .ok (canon ((n.sqrt : Nat) : Int)) := by
  have rootFits : Fits platform ((n.sqrt : Nat) : Int) :=
    nFits.of_le_sqrt (by omega)
  have squareFits : Fits platform ((n.sqrt * n.sqrt : Nat) : Int) := by
    apply nFits.of_natAbs_le
    rw [Int.natAbs_natCast, Int.natAbs_natCast]
    exact Nat.sqrt_le n
  have square : clArithMul platform (canon ((n.sqrt : Nat) : Int)) (canon ((n.sqrt : Nat) : Int)) =
        .ok (canon ((n.sqrt * n.sqrt : Nat) : Int)) := by
    rw [clArithMul_eq (canonical_canon rootFits) (canonical_canon rootFits),
      toInt_canon, mulLimbs_of_iff Iff.rfl, ← Int.natCast_mul,
      allocWith_of_le squareFits]
  rw [isqrtCorrect, square]
  change (if clArithCompare (canon ((n.sqrt * n.sqrt : Nat) : Int))
      (canon (n : Int)) ≤ 0 then _ else _) = _
  rw [if_pos]
  · rfl
  · rw [compare_natCast squareFits nFits, Int.sign_nonpos_iff]
    have := Nat.sqrt_le n
    omega

theorem sqrt_le_start {n : Nat} : n.sqrt ≤ 2 ^ ((n.size + 1) / 2) := by
  have upper : n < 2 ^ n.size := Nat.lt_size_self n
  apply Nat.le_of_lt
  rw [Nat.sqrt_lt]
  apply lt_of_lt_of_le upper
  rw [← pow_add]
  exact Nat.pow_le_pow_right (by omega) (by omega)

theorem start_le_two_mul_sqrt {n : Nat} (positive : 0 < n) :
    2 ^ ((n.size + 1) / 2) ≤ 2 * n.sqrt := by
  have sizePositive : 0 < n.size := Nat.size_pos.mpr positive
  have lower : 2 ^ (n.size - 1) ≤ n := Nat.lt_size.mp (by omega)
  obtain ⟨half, halfEq⟩ : ∃ half, (n.size + 1) / 2 = half + 1 :=
    ⟨(n.size + 1) / 2 - 1, by omega⟩
  have root : 2 ^ half ≤ n.sqrt := by
    rw [Nat.le_sqrt, ← pow_add]
    exact (Nat.pow_le_pow_right (by omega) (by omega)).trans lower
  rw [halfEq, pow_succ]
  omega

theorem size_le_of_fits {n : Nat} (fits : Fits platform (n : Int)) : n.size ≤ 16 * 4194296 := by
  have bound := lt_of_limbCount_le fits
  rw [Int.natAbs_natCast, ← pow_mul] at bound
  have few : maxLimbs platform ≤ 4194296 := by
    cases platform <;> simp only [maxLimbs] <;> omega
  exact (Nat.size_le.mpr bound).trans (Nat.mul_le_mul_left 16 few)

theorem isqrtStart_eq {n : Nat} (nFits : Fits platform (n : Int)) (positive : 0 < n) :
    clArithAsh platform (clMakeFixnum 1) (clMakeFixnum ((n.size + 1) / 2 : Nat)) =
      .ok (canon ((2 ^ ((n.size + 1) / 2) : Nat) : Int)) := by
  have size := size_le_of_fits nFits
  have range : InFixnumRange (((n.size + 1) / 2 : Nat) : Int) := by
    simp only [InFixnumRange, clFixnumMin, clFixnumMax]
    omega
  have startFits : Fits platform ((2 ^ ((n.size + 1) / 2) : Nat) : Int) := by
    apply nFits.of_le_sqrt
    have := start_le_two_mul_sqrt positive
    omega
  have count : (BitVec.ofInt 31 (((n.size + 1) / 2 : Nat) : Int)).toInt =
      (((n.size + 1) / 2 : Nat) : Int) := toInt_clMakeFixnum range
  have one : (clMakeFixnum 1).Canonical platform := trivial
  have shifted := clArithAsh_fixnum one (BitVec.ofInt 31 (((n.size + 1) / 2 : Nat) : Int))
  rw [count, floorShift_of_nonneg _ (by omega), toInt_clMakeFixnum (by decide),
    Int.toNat_natCast, one_mul] at shifted
  have cast : (2 : Int) ^ ((n.size + 1) / 2) = ((2 ^ ((n.size + 1) / 2) : Nat) : Int) := by
    push_cast
    rfl
  rw [cast, alloc_of_fits startFits] at shifted
  exact shifted

theorem clArithIsqrt_eq {a : ClInt} (canonical : a.Canonical platform) (nonneg : 0 ≤ a.toInt) :
    clArithIsqrt platform a = .ok (canon ((a.toInt.toNat.sqrt : Nat) : Int)) := by
  have object := canonical.eq_canon
  have fits := canonical.fits
  obtain ⟨n, value⟩ := Int.eq_ofNat_of_zero_le nonneg
  rw [value] at object fits
  unfold clArithIsqrt
  rw [clArithMinusp_eq canonical, clArithZerop_eq canonical,
    clArithIntegerLength_eq canonical, value, object]
  by_cases zero : n = 0
  · subst zero
    rfl
  · have positive : 0 < n := Nat.pos_of_ne_zero zero
    obtain ⟨length, lengthEq⟩ : ∃ length, length = 16 * 4194296 := ⟨_, rfl⟩
    have size := size_le_of_fits fits
    rw [← lengthEq] at size
    have root : n.sqrt < 2 ^ length :=
      lt_of_le_of_lt (Nat.sqrt_le_self n) (Nat.size_le.mp size)
    have found : newtonLoop n 1000 (2 ^ ((n.size + 1) / 2)) = n.sqrt :=
      newtonLoop_eq_sqrt 26 1000 positive root (by omega) sqrt_le_start
        (start_le_two_mul_sqrt positive) (by omega)
    have newton := isqrtNewton_eq fits positive 1000 (sqrt_le_start (n := n))
      (start_le_two_mul_sqrt positive)
    rw [found] at newton
    rw [if_neg (by simp), if_neg (by simpa using zero), folded_natCast]
    dsimp only
    rw [isqrtStart_eq fits positive]
    change (do
      let x ← isqrtNewton platform (canon (n : Int)) 1000
        (canon ((2 ^ ((n.size + 1) / 2) : Nat) : Int))
      isqrtCorrect platform (canon (n : Int)) (x.toInt.natAbs + 1) x) = _
    rw [newton]
    exact isqrtCorrect_eq fits _

/-- For every non-negative integer the result is the integer square root. -/
theorem clArithIsqrt_exact (platform : Platform) (n : ClInt)
    (canonical : n.Canonical platform) (nonneg : 0 ≤ n.toInt) :
    ∃ x, clArithIsqrt platform n = .ok x ∧ x.Canonical platform ∧
      0 ≤ x.toInt ∧ x.toInt * x.toInt ≤ n.toInt ∧
      n.toInt < (x.toInt + 1) * (x.toInt + 1) := by
  have fits := canonical.fits
  refine ⟨_, clArithIsqrt_eq canonical nonneg, ?_, ?_⟩
  · obtain ⟨m, value⟩ := Int.eq_ofNat_of_zero_le nonneg
    rw [value] at fits ⊢
    exact canonical_canon (fits.of_le_sqrt (by rw [Int.toNat_natCast]; omega))
  · rw [toInt_canon]
    have lower := Nat.sqrt_le n.toInt.toNat
    have upper := Nat.lt_succ_sqrt n.toInt.toNat
    have value : (n.toInt.toNat : Int) = n.toInt := Int.toNat_of_nonneg nonneg
    refine ⟨by omega, ?_, ?_⟩
    · rw [← value]
      exact_mod_cast lower
    · rw [← value]
      exact_mod_cast upper

/-- A bignum of three limbs that is no square. -/
theorem clArithIsqrt_exact_allOnes :
    ∃ x, clArithIsqrt .m68k (allOnes 3) = .ok x ∧ x.Canonical .m68k ∧
      0 ≤ x.toInt ∧ x.toInt * x.toInt ≤ (allOnes 3).toInt ∧
      (allOnes 3).toInt < (x.toInt + 1) * (x.toInt + 1) :=
  clArithIsqrt_exact .m68k (allOnes 3) (canonical_allOnes (by omega) (by decide))
    (by simp [allOnes, ClInt.toInt, signed])

end ClAmiga.Number
