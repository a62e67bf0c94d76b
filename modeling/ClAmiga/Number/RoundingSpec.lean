import ClAmiga.Number.Rounding

/-!
# Exactness of the rounding family

The truncated quotient `t` of `x` by `y` leaves the remainder `x - t * y`, and
each mode corrects `t` by `delta`, which is `-1`, `0` or `1`.  The integer
objects requested on the way are listed in order, as for the ratio functions.
-/

namespace ClAmiga.Number

open Radix Bignum

variable {platform : Platform} {x y : ℚ}

def addRequests (x y : ℚ) : List Nat :=
  if x.den = 1 ∧ y.den = 1 then [limbCount (x.num + y.num)]
  else sumRequests x y (crossSum x y)

def subRequests (x y : ℚ) : List Nat :=
  if x.den = 1 ∧ y.den = 1 then [limbCount (x.num - y.num)]
  else sumRequests x y (crossDiff x y)

def timesRequests (x y : ℚ) : List Nat :=
  if x.den = 1 ∧ y.den = 1 then [mulLimbs x.num y.num] else mulRequests x y

def compareRequests (x y : ℚ) : List Nat :=
  if x.den = 1 ∧ y.den = 1 then []
  else [mulLimbs x.num y.den, mulLimbs y.num x.den]

def AddShort (x y : ℚ) : Prop :=
  (x.den = 1 ∧ y.den = 1) ∨ NormShort (crossSum x y) (x.den * y.den)

def SubShort (x y : ℚ) : Prop :=
  (x.den = 1 ∧ y.den = 1) ∨ NormShort (crossDiff x y) (x.den * y.den)

def TimesShort (x y : ℚ) : Prop :=
  (x.den = 1 ∧ y.den = 1) ∨ NormShort (x.num * y.num) (x.den * y.den)

def AbsShort (x : ℚ) : Prop :=
  0 ≤ x.num ∨ Short x.num

def AllFit (platform : Platform) (requests : List Nat) : Prop :=
  ∀ limbs ∈ requests, limbs ≤ maxLimbs platform

theorem allFit_append {left right : List Nat} : AllFit platform (left ++ right) ↔
      AllFit platform left ∧ AllFit platform right :=
  List.forall_mem_append

theorem canonRat_of_integral (integral : x.den = 1) : canonRat x = .int (canon x.num) :=
  if_pos integral

theorem canonRat_of_proper (proper : x.den ≠ 1) : canonRat x = .ratio (canon x.num) (canon x.den) :=
  if_neg proper

theorem eq_num_of_integral (integral : x.den = 1) : x = (x.num : ℚ) :=
  ((Rat.den_eq_one_iff x).mp integral).symm

theorem ratFits_intCast {z : Int} (fits : Fits platform z) : RatFits platform (z : ℚ) := by
  refine ⟨fits, ?_⟩
  rw [Rat.den_intCast]
  exact Fits.of_range (by decide)

theorem eq_of_ratio {Result : Type} {f g : ClNum → ClNum → Result}
    (notBoth : ¬(x.den = 1 ∧ y.den = 1))
    (left : ∀ num den b, f (.ratio num den) b = g (.ratio num den) b)
    (right : ∀ a num den, f a (.ratio num den) = g a (.ratio num den)) :
    f (canonRat x) (canonRat y) = g (canonRat x) (canonRat y) := by
  by_cases xIntegral : x.den = 1
  · have yProper : y.den ≠ 1 := fun yIntegral => notBoth ⟨xIntegral, yIntegral⟩
    rw [canonRat_of_proper yProper]
    exact right _ _ _
  · rw [canonRat_of_proper xIntegral]
    exact left _ _ _

section Entry

variable (xFits : RatFits platform x) (yFits : RatFits platform y)

include xFits yFits

theorem numAdd_eq (short : AddShort x y) : ClNum.clArithAdd platform (canonRat x) (canonRat y) =
      allocAll platform (addRequests x y) (canonRat (x + y)) := by
  by_cases integral : x.den = 1 ∧ y.den = 1
  · have sum : x + y = ((x.num + y.num : Int) : ℚ) := by
      rw [Int.cast_add, ← eq_num_of_integral integral.1, ← eq_num_of_integral integral.2]
    rw [addRequests, if_pos integral, sum, canonRat_intCast,
      canonRat_of_integral integral.1, canonRat_of_integral integral.2,
      ClNum.clArithAdd, clArithAdd_canon xFits.1 yFits.1]
    exact map_allocWith
  · have ratio := clRatioAdd_eq xFits yFits (short.resolve_left integral)
    rw [addRequests, if_neg integral, ← ratio]
    exact eq_of_ratio integral (fun _ _ _ => rfl) fun a _ _ => by cases a <;> rfl

theorem numSub_eq (short : SubShort x y) : ClNum.clArithSub platform (canonRat x) (canonRat y) =
      allocAll platform (subRequests x y) (canonRat (x - y)) := by
  by_cases integral : x.den = 1 ∧ y.den = 1
  · have difference : x - y = ((x.num - y.num : Int) : ℚ) := by
      rw [Int.cast_sub, ← eq_num_of_integral integral.1, ← eq_num_of_integral integral.2]
    rw [subRequests, if_pos integral, difference, canonRat_intCast,
      canonRat_of_integral integral.1, canonRat_of_integral integral.2,
      ClNum.clArithSub, clArithSub_canon xFits.1 yFits.1]
    exact map_allocWith
  · have ratio := clRatioSub_eq xFits yFits (short.resolve_left integral)
    rw [subRequests, if_neg integral, ← ratio]
    exact eq_of_ratio integral (fun _ _ _ => rfl) fun a _ _ => by cases a <;> rfl

theorem numMul_eq (short : TimesShort x y) : ClNum.clArithMul platform (canonRat x) (canonRat y) =
      allocAll platform (timesRequests x y) (canonRat (x * y)) := by
  by_cases integral : x.den = 1 ∧ y.den = 1
  · have product : x * y = ((x.num * y.num : Int) : ℚ) := by
      rw [Int.cast_mul, ← eq_num_of_integral integral.1, ← eq_num_of_integral integral.2]
    rw [timesRequests, if_pos integral, product, canonRat_intCast,
      canonRat_of_integral integral.1, canonRat_of_integral integral.2,
      ClNum.clArithMul, clArithMul_canon xFits.1 yFits.1]
    exact map_allocWith
  · have ratio := clRatioMul_eq xFits yFits (short.resolve_left integral)
    rw [timesRequests, if_neg integral, ← ratio]
    exact eq_of_ratio integral (fun _ _ _ => rfl) fun a _ _ => by cases a <;> rfl

theorem numCompare_eq : ClNum.clArithCompare platform (canonRat x) (canonRat y) =
      allocAll platform (compareRequests x y) (crossDiff x y).sign := by
  by_cases integral : x.den = 1 ∧ y.den = 1
  · rw [compareRequests, if_pos integral, canonRat_of_integral integral.1,
      canonRat_of_integral integral.2, ClNum.clArithCompare,
      clArithCompare_eq (canonical_canon xFits.1) (canonical_canon yFits.1),
      toInt_canon, toInt_canon, crossDiff, integral.1, integral.2]
    simp [allocAll]
  · have ratio := clRatioCompare_eq xFits yFits
    rw [compareRequests, if_neg integral, ← ratio]
    exact eq_of_ratio integral (fun _ _ _ => rfl) fun a _ _ => by cases a <;> rfl

omit xFits yFits in
theorem ratFits_add (few : AllFit platform (addRequests x y)) : RatFits platform (x + y) := by
  unfold addRequests at few
  split at few
  · rename_i integral
    rw [eq_num_of_integral integral.1, eq_num_of_integral integral.2, ← Int.cast_add]
    exact ratFits_intCast (few _ List.mem_cons_self)
  · simp only [AllFit, sumRequests, List.forall_mem_cons] at few
    obtain ⟨denFits, nonzero⟩ := fits_denominators few.2.2.2.1 rfl
    rw [add_eq_cross]
    exact ratFits_div few.2.2.1 denFits nonzero

omit xFits yFits in
theorem ratFits_sub (few : AllFit platform (subRequests x y)) : RatFits platform (x - y) := by
  unfold subRequests at few
  split at few
  · rename_i integral
    rw [eq_num_of_integral integral.1, eq_num_of_integral integral.2, ← Int.cast_sub]
    exact ratFits_intCast (few _ List.mem_cons_self)
  · simp only [AllFit, sumRequests, List.forall_mem_cons] at few
    obtain ⟨denFits, nonzero⟩ := fits_denominators few.2.2.2.1 rfl
    rw [sub_eq_cross]
    exact ratFits_div few.2.2.1 denFits nonzero

omit xFits yFits in
theorem ratFits_mul (few : AllFit platform (timesRequests x y)) : RatFits platform (x * y) := by
  unfold timesRequests at few
  split at few
  · rename_i integral
    rw [eq_num_of_integral integral.1, eq_num_of_integral integral.2, ← Int.cast_mul]
    exact ratFits_intCast (fits_mul (few _ List.mem_cons_self))
  · simp only [AllFit, mulRequests, List.forall_mem_cons] at few
    obtain ⟨denFits, nonzero⟩ := fits_denominators few.2.1 rfl
    rw [mul_eq_cross]
    exact ratFits_div (fits_mul few.1) denFits nonzero

end Entry

theorem numAbs_eq (fits : RatFits platform x) (short : AbsShort x) :
    ClNum.clArithAbs platform (canonRat x) = .ok (canonRat |x|) := by
  rw [← clRatioAbs_eq fits short]
  cases canonRat x <;> rfl

theorem numZerop_eq (fits : RatFits platform x) : (canonRat x).clArithZerop = decide (x = 0) := by
  rw [← clRatioZerop_eq fits]
  cases canonRat x <;> rfl

theorem numMinusp_eq (fits : RatFits platform x) : (canonRat x).clArithMinusp = decide (x < 0) := by
  rw [← clRatioMinusp_eq fits]
  cases canonRat x <;> rfl

/-- The correction a mode makes to the truncated quotient `t` of `x` by `y`
that leaves the remainder `r`. -/
def delta (mode : RoundMode) (t : Int) (x y r : ℚ) : Int :=
  if r = 0 then 0
  else
    match mode with
    | .truncate => 0
    | .floor => if decide (r < 0) ≠ decide (y < 0) then -1 else 0
    | .ceiling => if decide (r < 0) = decide (y < 0) then 1 else 0
    | .round =>
        if |y| < |r + r| ∨ |r + r| = |y| ∧ t % 2 ≠ 0 then
          if decide (x < 0) = decide (y < 0) then 1 else -1
        else 0

/-- The requests of `stepUp` for a correction of `1` and of `stepDown` for
`-1`. -/
def stepRequests (correction t : Int) (r y : ℚ) : List Nat :=
  if correction = 0 then []
  else if correction = 1 then limbCount (t + 1) :: subRequests r y
  else limbCount (t - 1) :: addRequests r y

def StepShort (correction : Int) (r y : ℚ) : Prop :=
  correction ≠ 0 → if correction = 1 then SubShort r y else AddShort r y

def nearestRequests (mode : RoundMode) (r y : ℚ) : List Nat :=
  if mode = .round ∧ r ≠ 0 then addRequests r r ++ compareRequests |r + r| |y|
  else []

def NearestShort (mode : RoundMode) (r y : ℚ) : Prop :=
  mode = .round → r ≠ 0 → AddShort r r ∧ AbsShort (r + r) ∧ AbsShort y

section Steps

variable {t : Int} {r : ℚ} (tFits : Fits platform t)
  (rFits : RatFits platform r) (yFits : RatFits platform y)

include tFits rFits yFits

theorem stepUp_eq (short : SubShort r y) : stepUp platform (canon t) (canonRat r) (canonRat y) =
      allocAll platform (limbCount (t + 1) :: subRequests r y)
        ⟨canon (t + 1), canonRat (r - y)⟩ := by
  unfold stepUp
  have one : clMakeFixnum 1 = canon 1 := rfl
  rw [one, clArithAdd_canon tFits (Fits.of_range (by decide)), numSub_eq rFits yFits short]
  apply bind_allocWith
  intro _
  exact bind_allocAll_pure _

theorem stepDown_eq (short : AddShort r y) : stepDown platform (canon t) (canonRat r) (canonRat y) =
      allocAll platform (limbCount (t - 1) :: addRequests r y)
        ⟨canon (t - 1), canonRat (r + y)⟩ := by
  unfold stepDown
  have one : clMakeFixnum 1 = canon 1 := rfl
  rw [one, clArithSub_canon tFits (Fits.of_range (by decide)), numAdd_eq rFits yFits short]
  apply bind_allocWith
  intro _
  exact bind_allocAll_pure _

theorem correction_eq {correction : Int} {outcome : Result Rounded}
    (short : StepShort correction r y)
    (branch : (correction = 0 ∧ outcome = .ok ⟨canon t, canonRat r⟩) ∨ (correction = 1 ∧
        outcome = stepUp platform (canon t) (canonRat r) (canonRat y)) ∨
      (correction = -1 ∧ outcome = stepDown platform (canon t) (canonRat r) (canonRat y))) :
    outcome = allocAll platform (stepRequests correction t r y)
      ⟨canon (t + correction), canonRat (r - correction * y)⟩ := by
  rcases branch with ⟨rfl, rfl⟩ | ⟨rfl, rfl⟩ | ⟨rfl, rfl⟩
  · simp [stepRequests, allocAll]
  · rw [stepUp_eq tFits rFits yFits (short (by omega))]
    simp [stepRequests]
  · rw [stepDown_eq tFits rFits yFits (short (by omega))]
    simp [stepRequests, sub_eq_add_neg]

variable (xFits : RatFits platform x)

include xFits

theorem roundNearest_eq (nonzero : r ≠ 0) (nearestShort : NearestShort .round r y)
    (stepShort : StepShort (delta .round t x y r) r y) :
    roundNearest platform (canon t) (canonRat r) (canonRat x) (canonRat y) = allocAll platform
        (nearestRequests .round r y ++ stepRequests (delta .round t x y r) t r y)
        ⟨canon (t + delta .round t x y r), canonRat (r - delta .round t x y r * y)⟩ := by
  obtain ⟨addShort, abs2rShort, absYShort⟩ := nearestShort rfl nonzero
  have requests : nearestRequests .round r y =
      addRequests r r ++ compareRequests |r + r| |y| := if_pos ⟨rfl, nonzero⟩
  unfold roundNearest
  rw [numAdd_eq rFits rFits addShort, requests, List.append_assoc]
  apply bind_allocAll
  intro sumFits
  have doubleFits := ratFits_add sumFits
  rw [numAbs_eq doubleFits abs2rShort, numAbs_eq yFits absYShort]
  change (ClNum.clArithCompare platform (canonRat |r + r|) (canonRat |y|) >>= _) = _
  rw [numCompare_eq doubleFits.abs yFits.abs, sign_crossDiff]
  apply bind_allocAll
  intro _
  apply correction_eq tFits rFits yFits stepShort
  rw [numMinusp_eq xFits, numMinusp_eq yFits, clArithEvenp_eq, toInt_canon]
  have decision :
      ((if |r + r| < |y| then (-1 : Int) else if |r + r| = |y| then 0 else 1) > 0 ∨
        (if |r + r| < |y| then (-1 : Int) else if |r + r| = |y| then 0 else 1) = 0 ∧
          decide (t % 2 = 0) = false) ↔
      |y| < |r + r| ∨ |r + r| = |y| ∧ t % 2 ≠ 0 := by
    rcases lt_trichotomy |r + r| |y| with less | equal | greater
    · simp [less, less.not_gt, less.ne]
    · simp [equal]
    · simp [greater, greater.not_gt, greater.ne']
  simp only [decision, delta, nonzero, if_false]
  by_cases far : |y| < |r + r| ∨ |r + r| = |y| ∧ t % 2 ≠ 0
  · simp only [far, if_true]
    by_cases same : decide (x < 0) = decide (y < 0)
    · simp [same]
    · simp [same]
  · simp only [far, if_false]
    exact Or.inl ⟨trivial, rfl⟩

theorem adjustQuotient_eq {mode : RoundMode} (nearestShort : NearestShort mode r y)
    (stepShort : StepShort (delta mode t x y r) r y) :
    adjustQuotient platform mode (canon t) (canonRat r) (canonRat x) (canonRat y) =
      allocAll platform (nearestRequests mode r y ++ stepRequests (delta mode t x y r) t r y)
        ⟨canon (t + delta mode t x y r), canonRat (r - delta mode t x y r * y)⟩ := by
  have exactBranch : ∀ correction : Int, correction = 0 →
      (Except.ok ⟨canon t, canonRat r⟩ : Result Rounded) =
        allocAll platform (stepRequests correction t r y)
          ⟨canon (t + correction), canonRat (r - correction * y)⟩ := by
    rintro _ rfl
    simp [stepRequests, allocAll]
  have noNearest : ¬ (mode = .round ∧ r ≠ 0) → nearestRequests mode r y = [] :=
    fun other => if_neg other
  unfold adjustQuotient
  rw [numZerop_eq rFits, numMinusp_eq rFits, numMinusp_eq yFits]
  by_cases zero : r = 0
  · have none : delta mode t x y r = 0 := by simp [delta, zero]
    rw [noNearest (by simp [zero]), if_neg (by simp [zero]), List.nil_append]
    exact exactBranch _ none
  · cases mode with
    | truncate =>
        rw [noNearest (by simp), if_neg (by simp), List.nil_append]
        exact exactBranch _ (by simp [delta])
    | floor =>
        rw [noNearest (by simp), List.nil_append]
        apply correction_eq tFits rFits yFits stepShort
        by_cases same : decide (r < 0) = decide (y < 0)
        · simp [delta, zero, same]
        · simp [delta, zero, same]
    | ceiling =>
        rw [noNearest (by simp), List.nil_append]
        apply correction_eq tFits rFits yFits stepShort
        by_cases same : decide (r < 0) = decide (y < 0)
        · simp [delta, zero, same]
        · simp [delta, zero, same]
    | round =>
        have nonzero : RoundMode.round ≠ .truncate ∧ decide (r = 0) = false := by
          simp [zero]
        simp only [if_pos nonzero]
        exact roundNearest_eq tFits rFits yFits xFits zero nearestShort stepShort

end Steps

def truncated (x y : ℚ) : Int :=
  (x.num * y.den).tdiv (x.den * y.num)

def residue (x y : ℚ) : ℚ :=
  x - truncated x y * y

def correction (mode : RoundMode) (x y : ℚ) : Int :=
  delta mode (truncated x y) x y (residue x y)

def roundRequests (mode : RoundMode) (x y : ℚ) : List Nat :=
  divRequests x y ++ (timesRequests (truncated x y) y ++
    (subRequests x (truncated x y * y) ++
      (nearestRequests mode (residue x y) y ++
        stepRequests (correction mode x y) (truncated x y) (residue x y) y)))

def RoundShort (mode : RoundMode) (x y : ℚ) : Prop :=
  TimesShort (truncated x y) y ∧ SubShort x (truncated x y * y) ∧
    NearestShort mode (residue x y) y ∧
    StepShort (correction mode x y) (residue x y) y

/-- The cross products are the one pair of fixnums whose quotient is none. -/
def RatQuotientWraps (x y : ℚ) : Prop :=
  QuotientWraps (x.num * y.den) (x.den * y.num)

theorem den_mul_num_ne_zero (nonzero : y ≠ 0) : (x.den * y.num : Int) ≠ 0 :=
  mul_ne_zero (by exact_mod_cast x.den_nz) (Rat.num_ne_zero.mpr nonzero)

theorem fits_truncated (few : AllFit platform (divRequests x y)) :
    Fits platform (truncated x y) := by
  have dividendFits := fits_mul (few _ List.mem_cons_self)
  apply dividendFits.of_natAbs_le
  have magnitude : (truncated x y).natAbs =
      (x.num * y.den).natAbs / (x.den * y.num : Int).natAbs := Int.natAbs_tdiv _ _
  rw [magnitude]
  exact Nat.div_le_self _ _

theorem doRounding_eq {mode : RoundMode} (xFits : RatFits platform x)
    (yFits : RatFits platform y) (nonzero : y ≠ 0)
    (noWrap : ¬ RatQuotientWraps x y) (short : RoundShort mode x y) :
    doRounding platform mode (canonRat x) (canonRat y) = allocAll platform (roundRequests mode x y)
        ⟨canon (truncated x y + correction mode x y),
          canonRat (residue x y - correction mode x y * y)⟩ := by
  obtain ⟨timesShort, subShort, nearestShort, stepShort⟩ := short
  unfold doRounding roundRequests divRequests
  rw [clNumerator_canonRat, clNumerator_canonRat, clDenominator_canonRat,
    clDenominator_canonRat, clArithMul_canon xFits.1 yFits.2,
    clArithMul_canon xFits.2 yFits.1]
  apply bind_allocWith
  intro dividendFits
  apply bind_allocWith
  intro divisorFits
  have few : AllFit platform (divRequests x y) := by
    simp only [AllFit, divRequests, List.forall_mem_cons]
    exact ⟨dividendFits, divisorFits, fun _ member => (List.not_mem_nil member).elim⟩
  have quotient := clArithTruncate_eq (canonical_canon (fits_mul dividendFits))
    (canonical_canon (fits_mul divisorFits))
  simp only [toInt_canon] at quotient
  rw [quotient (den_mul_num_ne_zero nonzero) noWrap]
  have tFits := fits_truncated few
  change (ClNum.clArithMul platform (.int (canon (truncated x y))) (canonRat y) >>= _) = _
  rw [← canonRat_intCast, numMul_eq (ratFits_intCast tFits) yFits timesShort]
  apply bind_allocAll
  intro productFew
  rw [numSub_eq xFits (ratFits_mul productFew) subShort]
  apply bind_allocAll
  intro residueFew
  exact adjustQuotient_eq tFits (ratFits_sub residueFew) yFits xFits nearestShort stepShort

def trunc (z : ℚ) : Int :=
  if 0 ≤ z then ⌊z⌋ else ⌈z⌉

/-- `q` is the integer a mode rounds `z` to. -/
def Rounds : RoundMode → ℚ → Int → Prop
  | .floor, z, q => q = ⌊z⌋
  | .ceiling, z, q => q = ⌈z⌉
  | .truncate, z, q => q = trunc z
  | .round, z, q => |z - q| ≤ 1 / 2 ∧ (|z - q| = 1 / 2 → Even q)

theorem tdiv_residue {n d : Int} (nonzero : d ≠ 0) :
    (n : ℚ) / d - n.tdiv d = (n.tmod d : ℚ) / d := by
  have castNonzero : (d : ℚ) ≠ 0 := by exact_mod_cast nonzero
  have decomposition : (n : ℚ) = d * n.tdiv d + n.tmod d := by
    exact_mod_cast (Int.mul_tdiv_add_tmod n d).symm
  rw [sub_eq_iff_eq_add, div_eq_iff castNonzero, add_mul, div_mul_cancel₀ _ castNonzero]
  linarith

theorem abs_tdiv_residue {n d : Int} (nonzero : d ≠ 0) :
    |(n : ℚ) / d - n.tdiv d| < 1 := by
  have small : |n.tmod d| < |d| := by
    have magnitude : (n.tmod d).natAbs = n.natAbs % d.natAbs := Int.natAbs_tmod n d
    have bound : n.natAbs % d.natAbs < d.natAbs :=
      Nat.mod_lt _ (Int.natAbs_pos.mpr nonzero)
    rw [Int.abs_eq_natAbs, Int.abs_eq_natAbs, magnitude]
    exact_mod_cast bound
  have castPositive : (0 : ℚ) < |(d : ℚ)| := by
    exact_mod_cast abs_pos.mpr nonzero
  rw [tdiv_residue nonzero, abs_div, div_lt_one castPositive]
  exact_mod_cast small

theorem tdiv_residue_nonneg {n d : Int} (nonzero : d ≠ 0)
    (nonneg : (0 : ℚ) ≤ n / d) : 0 ≤ (n : ℚ) / d - n.tdiv d := by
  rw [tdiv_residue nonzero]
  rcases lt_or_gt_of_ne nonzero with negative | positive
  · have castNegative : (d : ℚ) < 0 := by exact_mod_cast negative
    have dividend : (n : ℚ) ≤ 0 := by
      by_contra large
      exact absurd (div_neg_of_pos_of_neg (not_le.mp large) castNegative) (not_lt.mpr nonneg)
    have remainder : n.tmod d ≤ 0 := by
      have flipped := Int.tmod_nonneg d (show 0 ≤ -n by
        have : n ≤ 0 := by exact_mod_cast dividend
        omega)
      rw [Int.neg_tmod] at flipped
      omega
    exact div_nonneg_of_nonpos (by exact_mod_cast remainder) castNegative.le
  · have castPositive : (0 : ℚ) < d := by exact_mod_cast positive
    have dividend : (0 : ℚ) ≤ n := by
      by_contra small
      exact absurd (div_neg_of_neg_of_pos (not_le.mp small) castPositive) (not_lt.mpr nonneg)
    have remainder := Int.tmod_nonneg d (show 0 ≤ n by exact_mod_cast dividend)
    exact div_nonneg (by exact_mod_cast remainder) castPositive.le

theorem tdiv_residue_nonpos {n d : Int} (nonzero : d ≠ 0)
    (nonpos : (n : ℚ) / d ≤ 0) : (n : ℚ) / d - n.tdiv d ≤ 0 := by
  have flipped : (0 : ℚ) ≤ ((-n : Int) : ℚ) / d := by
    rw [Int.cast_neg, neg_div]
    linarith
  have residue := tdiv_residue_nonneg nonzero flipped
  rw [Int.neg_tdiv] at residue
  push_cast at residue
  rw [neg_div] at residue
  linarith

theorem tdiv_eq_trunc {n d : Int} (nonzero : d ≠ 0) : n.tdiv d = trunc ((n : ℚ) / d) := by
  have small := abs_lt.mp (abs_tdiv_residue (n := n) nonzero)
  unfold trunc
  split
  · rename_i nonneg
    have residue := tdiv_residue_nonneg nonzero nonneg
    rw [eq_comm, Int.floor_eq_iff]
    constructor <;> linarith
  · rename_i negative
    have residue := tdiv_residue_nonpos nonzero (not_le.mp negative).le
    rw [eq_comm, Int.ceil_eq_iff]
    constructor <;> linarith

theorem truncated_eq (nonzero : y ≠ 0) : truncated x y = trunc (x / y) := by
  rw [truncated, tdiv_eq_trunc (den_mul_num_ne_zero nonzero), ← div_eq_cross]

theorem residue_eq (nonzero : y ≠ 0) : residue x y = (x / y - truncated x y) * y := by
  rw [residue, sub_mul, div_mul_cancel₀ _ nonzero]

theorem floor_of_correction {z : ℚ} {t : Int} (small : |z - t| < 1) :
    (if z - t < 0 then t - 1 else t) = ⌊z⌋ := by
  have bounds := abs_lt.mp small
  split
  · rw [eq_comm, Int.floor_eq_iff]
    push_cast
    constructor <;> linarith
  · rw [eq_comm, Int.floor_eq_iff]
    constructor <;> linarith

theorem ceil_of_correction {z : ℚ} {t : Int} (small : |z - t| < 1) :
    (if 0 < z - t then t + 1 else t) = ⌈z⌉ := by
  have bounds := abs_lt.mp small
  split
  · rw [eq_comm, Int.ceil_eq_iff]
    push_cast
    constructor <;> linarith
  · rw [eq_comm, Int.ceil_eq_iff]
    constructor <;> linarith

/-- Moving away from zero by one where more than half was dropped, or half of
it from an odd quotient, is rounding to the nearest integer. -/
theorem nearest_of_correction {z : ℚ} {t c : Int} (small : |z - t| < 1)
    (positivePart : 0 < z → 0 ≤ z - t) (negativePart : z < 0 → z - t ≤ 0)
    (cases : (c = 0 ∧ (|z - t| * 2 < 1 ∨ |z - t| * 2 = 1 ∧ t % 2 = 0)) ∨
      (c = 1 ∧ 0 < z ∧ (1 < |z - t| * 2 ∨ |z - t| * 2 = 1 ∧ t % 2 ≠ 0)) ∨
      (c = -1 ∧ z < 0 ∧ (1 < |z - t| * 2 ∨ |z - t| * 2 = 1 ∧ t % 2 ≠ 0))) :
    Rounds .round z (t + c) := by
  have bounds := abs_lt.mp small
  simp only [Rounds]
  push_cast
  rcases cases with ⟨rfl, near⟩ | ⟨rfl, positive, far⟩ | ⟨rfl, negative, far⟩
  · simp only [Int.cast_zero, add_zero]
    constructor
    · rcases near with less | ⟨equal, -⟩ <;> linarith
    · intro half
      rcases near with less | ⟨-, even⟩
      · linarith
      · exact Int.even_iff.mpr even
  · have part := positivePart positive
    have moved : |z - (t + 1)| = 1 - |z - t| := by
      rw [abs_of_nonneg part, abs_of_nonpos (by linarith)]
      ring
    simp only [Int.cast_one, moved]
    constructor
    · rcases far with greater | ⟨equal, -⟩ <;> linarith
    · intro half
      rcases far with greater | ⟨-, odd⟩
      · linarith
      · rw [Int.even_iff]
        omega
  · have part := negativePart negative
    have moved : |z - (t + -1)| = 1 - |z - t| := by
      rw [abs_of_nonpos part, abs_of_nonneg (by linarith)]
      ring
    simp only [Int.cast_neg, Int.cast_one, moved]
    constructor
    · rcases far with greater | ⟨equal, -⟩ <;> linarith
    · intro half
      rcases far with greater | ⟨-, odd⟩
      · linarith
      · rw [Int.even_iff]
        omega

section Modes

variable (nonzero : y ≠ 0)

include nonzero

theorem abs_quotient_residue : |x / y - truncated x y| < 1 := by
  rw [truncated, div_eq_cross]
  exact abs_tdiv_residue (den_mul_num_ne_zero nonzero)

theorem residue_eq_zero_iff : residue x y = 0 ↔ x / y - truncated x y = 0 := by
  rw [residue_eq nonzero, mul_eq_zero, or_iff_left nonzero]

theorem residue_sign_iff (proper : residue x y ≠ 0) :
    decide (residue x y < 0) = decide (y < 0) ↔ 0 < x / y - truncated x y := by
  rw [residue_eq nonzero] at *
  generalize x / y - (truncated x y : ℚ) = part at *
  have partNonzero : part ≠ 0 := left_ne_zero_of_mul proper
  rw [decide_eq_decide, mul_neg_iff]
  rcases lt_or_gt_of_ne nonzero with negative | positive
  · simp [negative, negative.not_gt]
  · rcases lt_or_gt_of_ne partNonzero with partNegative | partPositive
    · simp [positive, positive.not_gt, partNegative, partNegative.not_gt]
    · simp [positive.not_gt, partPositive, partPositive.not_gt]

theorem rounds_floor : Rounds .floor (x / y) (truncated x y + correction .floor x y) := by
  have rounded := floor_of_correction (abs_quotient_residue (x := x) nonzero)
  simp only [Rounds, correction, delta]
  rw [← rounded]
  by_cases exact : residue x y = 0
  · have part := (residue_eq_zero_iff nonzero).mp exact
    simp [exact, part]
  · have sign := residue_sign_iff nonzero exact
    have part : x / y - truncated x y ≠ 0 :=
      fun zero => exact ((residue_eq_zero_iff nonzero).mpr zero)
    by_cases negative : x / y - truncated x y < 0
    · have different : ¬ decide (residue x y < 0) = decide (y < 0) :=
        fun same => absurd (sign.mp same) negative.not_gt
      simp only [exact, if_false, different, ne_eq, not_false_eq_true, if_true, negative]
      rfl
    · have same := sign.mpr (lt_of_le_of_ne (not_lt.mp negative) part.symm)
      simp [exact, same, negative]

theorem rounds_ceiling : Rounds .ceiling (x / y) (truncated x y + correction .ceiling x y) := by
  have rounded := ceil_of_correction (abs_quotient_residue (x := x) nonzero)
  simp only [Rounds, correction, delta]
  rw [← rounded]
  by_cases exact : residue x y = 0
  · have part := (residue_eq_zero_iff nonzero).mp exact
    simp [exact, part]
  · have sign := residue_sign_iff nonzero exact
    by_cases positive : 0 < x / y - truncated x y
    · have same := sign.mpr positive
      simp only [exact, if_false, same, if_true, positive]
    · have different : ¬ decide (residue x y < 0) = decide (y < 0) :=
        fun same => positive (sign.mp same)
      simp [exact, different, positive]

theorem rounds_truncate : Rounds .truncate (x / y) (truncated x y + correction .truncate x y) := by
  have none : correction .truncate x y = 0 := by
    simp [correction, delta]
  rw [none, Int.add_zero, Rounds]
  exact truncated_eq nonzero

theorem double_residue_lt_iff :
    (|y| < |residue x y + residue x y| ↔ 1 < |x / y - truncated x y| * 2) ∧
      (|residue x y + residue x y| = |y| ↔ |x / y - truncated x y| * 2 = 1) := by
  have positive : 0 < |y| := abs_pos.mpr nonzero
  have doubled : |residue x y + residue x y| =
      |x / y - truncated x y| * 2 * |y| := by
    rw [residue_eq nonzero, ← two_mul, abs_mul, abs_mul, abs_two]
    ring
  rw [doubled]
  constructor
  · exact ⟨fun less => by nlinarith, fun less => by nlinarith⟩
  · constructor
    · intro equal
      exact mul_right_cancel₀ positive.ne' (equal.trans (one_mul _).symm)
    · intro one
      rw [one, one_mul]

theorem sign_quotient_iff (proper : x ≠ 0) :
    decide (x < 0) = decide (y < 0) ↔ 0 < x / y := by
  rw [decide_eq_decide, div_pos_iff]
  rcases lt_or_gt_of_ne nonzero with negative | positive
  · simp [negative, negative.not_gt]
  · rcases lt_or_gt_of_ne proper with xNegative | xPositive
    · simp [positive, positive.not_gt, xNegative, xNegative.not_gt]
    · simp [positive, positive.not_gt, xPositive, xPositive.not_gt]

theorem rounds_round : Rounds .round (x / y) (truncated x y + correction .round x y) := by
  obtain ⟨far, tie⟩ := double_residue_lt_iff (x := x) nonzero
  have dividend := den_mul_num_ne_zero (x := x) nonzero
  have positivePart : 0 < x / y → 0 ≤ x / y - truncated x y := by
    rw [truncated, div_eq_cross]
    exact fun positive => tdiv_residue_nonneg dividend positive.le
  have negativePart : x / y < 0 → x / y - truncated x y ≤ 0 := by
    rw [truncated, div_eq_cross]
    exact fun negative => tdiv_residue_nonpos dividend negative.le
  apply nearest_of_correction (abs_quotient_residue nonzero) positivePart negativePart
  simp only [correction, delta]
  by_cases exact : residue x y = 0
  · have part := (residue_eq_zero_iff nonzero).mp exact
    left
    simp [exact, part]
  · have xNonzero : x ≠ 0 := by
      rintro rfl
      exact exact (by simp [residue, truncated])
    have sign := sign_quotient_iff nonzero xNonzero
    simp only [exact, if_false]
    by_cases moves : |y| < |residue x y + residue x y| ∨
        |residue x y + residue x y| = |y| ∧ truncated x y % 2 ≠ 0
    · right
      rw [far, tie] at moves
      by_cases same : decide (x < 0) = decide (y < 0)
      · left
        simp only [far, tie, moves, same, if_true]
        exact ⟨trivial, sign.mp same, trivial⟩
      · right
        have negative : x / y < 0 :=
          lt_of_le_of_ne (not_lt.mp (fun positive => same (sign.mpr positive)))
            (div_ne_zero xNonzero nonzero)
        simp only [far, tie, moves, same, if_true, if_false]
        exact ⟨trivial, negative, trivial⟩
    · left
      simp only [moves, if_false, true_and]
      rw [far, tie, not_or, not_lt, not_and, not_not] at moves
      rcases moves.1.lt_or_eq with less | equal
      · exact Or.inl less
      · exact Or.inr ⟨equal, moves.2 equal⟩

theorem rounds_correction (mode : RoundMode) :
    Rounds mode (x / y) (truncated x y + correction mode x y) := by
  cases mode with
  | floor => exact rounds_floor nonzero
  | ceiling => exact rounds_ceiling nonzero
  | truncate => exact rounds_truncate nonzero
  | round => exact rounds_round nonzero

end Modes

end ClAmiga.Number
