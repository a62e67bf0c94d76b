import ClAmiga.Float.Compare
import ClAmiga.Float.RoundTrip
import ClAmiga.Number.Lcm
import ClAmiga.Number.RatioSpec

/-!
# The order of floats and rationals

A finite `double` is converted to the rational it stands for without rounding,
and widening a single float keeps its value.  A mixed comparison therefore gives
the order of the two numbers, or the storage error of a cross product that no
heap object can hold.
-/

namespace ClAmiga.Float

open Number Bignum Radix

variable {platform : Platform}

theorem fits_of_lt_two_pow {z : Int} {bits : Nat} (small : z.natAbs < 2 ^ bits)
    (few : bits ≤ 4096) : Fits platform z := by
  have count : limbCount z ≤ (bits + 15) / 16 := by
    apply limbCount_le
    rw [← pow_mul]
    exact small.trans_le (Nat.pow_le_pow_right (by omega) (by omega))
  have room : 256 ≤ maxLimbs platform := by
    cases platform <;> simp only [maxLimbs] <;> omega
  exact count.trans (by omega)

theorem clArithAsh_canon {n k : Int} (fits : Fits platform n) (range : InFixnumRange k) :
    clArithAsh platform (canon n) (clMakeFixnum k) = alloc platform (floorShift n k) := by
  have shifted := clArithAsh_fixnum (canonical_canon fits) (BitVec.ofInt 31 k)
  have count : (BitVec.ofInt 31 k).toInt = k := toInt_clMakeFixnum range
  rw [count, toInt_canon] at shifted
  exact shifted

theorem clBignumNormalize_canon (z : Int) : clBignumNormalize (canon z) = canon z := by
  by_cases range : InFixnumRange z
  · rw [canon_of_range range]
    rfl
  · have nonzero : z.natAbs ≠ 0 := by
      intro zero
      apply range
      simp only [InFixnumRange, clFixnumMin, clFixnumMax]
      omega
    rw [canon_of_not_range range,
      clBignumNormalize_eq _ (ofNat_ne_nil (by omega) nonzero), value_ofNat16,
      signed_natAbs, canon_of_not_range range]

/-- The loop moves factors of two from the mantissa to the exponent. -/
structure Stripped (M : Nat) (E : Int) (fuel : Nat) (parts : Nat × Int) : Prop where
  value : (parts.1 : ℚ) * 2 ^ parts.2 = M * 2 ^ E
  smaller : parts.1 ≤ M
  low : E ≤ parts.2
  high : parts.2 ≤ E + fuel
  settled : M < 2 ^ fuel → parts.1 = 0 ∨ parts.1 % 2 = 1

/-- The loop ends at an odd mantissa when its fuel allows, and keeps the value. -/
theorem stripTrailing_spec (fuel M : Nat) (E : Int) :
    Stripped M E fuel (stripTrailing fuel M E) := by
  induction fuel generalizing M E with
  | zero =>
      refine ⟨rfl, le_rfl, le_rfl, by simp [stripTrailing], ?_⟩
      intro none
      left
      change M = 0
      omega
  | succ fuel induction =>
      rw [stripTrailing, Nat.and_one_is_mod]
      by_cases even : M ≠ 0 ∧ M % 2 = 0
      · rw [if_pos even, Nat.shiftRight_eq_div_pow, pow_one]
        obtain ⟨value, smaller, low, high, settled⟩ := induction (M / 2) (E + 1)
        have double : M = 2 * (M / 2) := by omega
        refine ⟨?_, by omega, by omega, by omega, ?_⟩
        · rw [value, zpow_add_one₀ (by norm_num), ← mul_assoc, mul_right_comm]
          conv_rhs => rw [double]
          push_cast
          ring
        · intro bounded
          rw [Nat.pow_succ] at bounded
          exact settled (by omega)
      · rw [if_neg even]
        refine ⟨rfl, le_rfl, le_rfl, by omega, ?_⟩
        intro _
        dsimp only
        omega

theorem fits_word {n : Nat} (small : n < 2 ^ 64) : Fits platform (n : Int) :=
  fits_of_lt_two_pow (by rwa [Int.natAbs_natCast]) (by omega)

theorem upperHalf_eq {hi : Nat} (small : hi < 2 ^ 32) :
    clArithAsh platform (canon hi) (clMakeFixnum 32) = .ok (canon (hi * 2 ^ 32 : Nat)) := by
  have shift : floorShift hi 32 = (hi * 2 ^ 32 : Nat) := by
    rw [floorShift_of_nonneg _ (by omega)]
    push_cast
    rfl
  rw [clArithAsh_canon (fits_word (by omega)) (by decide), shift]
  exact alloc_of_fits (fits_word (by omega))

theorem sumHalves_eq {hi lo M : Nat} (sum : hi * 2 ^ 32 + lo = M) (small : M < 2 ^ 64) :
    clArithAdd platform (canon (hi * 2 ^ 32 : Nat)) (canon lo) = .ok (canon M) := by
  have total : ((hi * 2 ^ 32 : Nat) : Int) + (lo : Nat) = M := by exact_mod_cast sum
  rw [clArithAdd_canon (fits_word (by omega)) (fits_word (by omega)), total]
  exact alloc_of_fits (fits_word small)

theorem mantissaObject_eq {M : Nat} (small : M < 2 ^ 64) :
    mantissaObject platform M = .ok (canon M) := by
  obtain ⟨hi, hiEq⟩ : ∃ hi, hi = (M >>> 32) % 2 ^ 32 := ⟨_, rfl⟩
  obtain ⟨lo, loEq⟩ : ∃ lo, lo = M % 2 ^ 32 := ⟨_, rfl⟩
  have sum : hi * 2 ^ 32 + lo = M := by
    rw [Nat.shiftRight_eq_div_pow] at hiEq
    omega
  have loObject : bignumFromUint32 platform lo false = .ok (canon lo) :=
    bignumFromUint32_eq false (by omega)
  have hiObject : bignumFromUint32 platform hi false = .ok (canon hi) :=
    bignumFromUint32_eq false (by omega)
  have shifted := @upperHalf_eq platform hi (by omega)
  have added := @sumHalves_eq platform hi lo M sum small
  unfold mantissaObject
  rw [← hiEq, ← loEq]
  by_cases short : hi = 0
  · have whole : lo = M := by omega
    rw [if_pos short, loObject, whole]
    exact congrArg Except.ok (clBignumNormalize_canon M)
  · rw [if_neg short]
    simp only [hiObject, shifted, loObject, added, bind, Except.bind]

theorem reading_finite {l : Layout} {bits : Nat} {x : ℚ} (reading : l.read bits = .finite x) :
    l.exponentField bits ≠ 2 ^ l.expBits - 1 ∧
      x = (if l.signBit bits then -1 else 1) *
        l.magnitude (l.exponentField bits) (l.fractionField bits) := by
  rw [Layout.read, Layout.fields] at reading
  by_cases special : l.exponentField bits = 2 ^ l.expBits - 1
  · rw [if_pos special] at reading
    split at reading <;> exact absurd reading (by simp)
  · rw [if_neg special, Reading.finite.injEq] at reading
    exact ⟨special, reading.symm⟩

theorem mantissaExponent_eq (d : Nat) : mantissaExponent d =
      if (layout .double).exponentField d = 0 then
        ((layout .double).fractionField d, -1074)
      else (2 ^ 52 + (layout .double).fractionField d,
        ((layout .double).exponentField d : Int) - 1023 - 52) := by
  have fracSmall := (layout .double).fractionField_lt d
  have expMask : (0x7FF : Nat) = 2 ^ 11 - 1 := by decide
  have expEq : (d >>> 52) &&& 0x7FF = (layout .double).exponentField d := by
    rw [expMask, Nat.and_two_pow_sub_one_eq_mod, Nat.shiftRight_eq_div_pow]
    rfl
  have fracEq : d &&& ((1 <<< 52) - 1) = (layout .double).fractionField d := by
    rw [Nat.one_shiftLeft, Nat.and_two_pow_sub_one_eq_mod]
    rfl
  have hidden : (1 <<< 52) ||| (layout .double).fractionField d =
      2 ^ 52 + (layout .double).fractionField d := by
    rw [Nat.one_shiftLeft, Nat.or_comm]
    exact or_high fracSmall
  simp only [mantissaExponent, expEq, fracEq, hidden]

/-- The mantissa and the exponent that the conversion reads off a finite double. -/
structure Mantissa (d : Nat) (x : ℚ) (parts : Nat × Int) : Prop where
  value : x = (if (layout .double).signBit d then -1 else 1) *
    ((parts.1 : ℚ) * 2 ^ parts.2)
  small : parts.1 < 2 ^ 53
  low : -1074 ≤ parts.2
  high : parts.2 ≤ 971

/-- The mantissa and exponent of a finite double give its value. -/
theorem mantissaExponent_spec {d : Nat} {x : ℚ} (reading : doubleReading d = .finite x) :
    Mantissa d x (mantissaExponent d) := by
  obtain ⟨notSpecial, value⟩ := reading_finite reading
  have fracSmall := (layout .double).fractionField_lt d
  have expSmall := (layout .double).exponentField_lt d
  have emin : (layout .double).emin = -1074 := by decide
  rw [mantissaExponent_eq]
  rw [Layout.magnitude, emin] at value
  simp only [layout] at notSpecial fracSmall expSmall
  by_cases subnormal : (layout .double).exponentField d = 0
  · rw [if_pos subnormal] at value ⊢
    refine ⟨value, ?_, le_rfl, by dsimp only; omega⟩
    exact fracSmall.trans (by omega)
  · rw [if_neg subnormal] at value ⊢
    refine ⟨?_, ?_, ?_, ?_⟩
    · have exponent : (-1074 : Int) + (layout .double).exponentField d - 1 =
          ((layout .double).exponentField d : Int) - 1023 - 52 := by ring
      rw [exponent] at value
      exact value
    all_goals
      simp only [layout] at *
      omega

theorem sign_test {d : Nat} (width : d < 2 ^ 64) :
    d >>> 63 ≠ 0 ↔ (layout .double).signBit d = true := by
  rw [Nat.shiftRight_eq_div_pow, Layout.signBit, decide_eq_true_iff]
  simp only [layout]
  omega

theorem signed_cast (sign : Bool) (M : Nat) :
    ((signed sign M : Int) : ℚ) = (if sign then -1 else 1) * M := by
  cases sign <;> simp [signed]

theorem limbCount_small {z : Int} (small : z.natAbs < 2 ^ 53) : limbCount z ≤ 4 :=
  limbCount_le (by omega)

theorem applySign_eq {d M : Nat} (width : d < 2 ^ 64) (small : M < 2 ^ 53) :
    applySign platform d (canon M) = .ok (canon (signed ((layout .double).signBit d) M)) := by
  simp only [applySign, sign_test width]
  cases (layout .double).signBit d with
  | false => rfl
  | true =>
      have fits : Fits platform (M : Int) := fits_word (by omega)
      have few : limbCount (M : Int) ≤ 4 :=
        limbCount_small (by rwa [Int.natAbs_natCast])
      rw [if_pos rfl, clArithNegate_eq (canonical_canon fits), toInt_canon]
      · rfl
      · rw [toInt_canon]
        omega

theorem scaled_up {n E : Int} (small : n.natAbs < 2 ^ 53) (low : 0 ≤ E) (high : E ≤ 1074) :
    clArithAsh platform (canon n) (clMakeFixnum E) = .ok (canon (n * 2 ^ E.toNat)) ∧
      Fits platform (n * 2 ^ E.toNat) := by
  have scaledFits : Fits platform (n * 2 ^ E.toNat) := by
    apply @fits_of_lt_two_pow platform _ (53 + E.toNat) _ (by omega)
    rw [Int.natAbs_mul, Int.natAbs_pow, pow_add]
    exact Nat.mul_lt_mul_of_pos_right small (Nat.two_pow_pos _)
  have fits : Fits platform n := fits_of_lt_two_pow small (by omega)
  have range : InFixnumRange E := by
    simp only [InFixnumRange, clFixnumMin, clFixnumMax]
    omega
  rw [clArithAsh_canon fits range, floorShift_of_nonneg _ low]
  exact ⟨alloc_of_fits scaledFits, scaledFits⟩

/-- A finite double is converted to the rational it stands for. -/
theorem doubleToExactRational_eq {d : Nat} {x : ℚ} (width : d < 2 ^ 64)
    (reading : doubleReading d = .finite x) :
    doubleToExactRational platform d = .ok (canonRat x) ∧ RatFits platform x := by
  unfold doubleToExactRational
  by_cases zero : doubleReading d = .finite 0
  · have isZero : x = 0 := by
      rw [reading, Reading.finite.injEq] at zero
      exact zero
    subst isZero
    rw [if_pos zero]
    exact ⟨rfl, Fits.of_range (by decide), Fits.of_range (by decide)⟩
  obtain ⟨value, small, low, high⟩ := mantissaExponent_spec reading
  rw [if_neg zero]
  generalize mantissaExponent d = parts at *
  obtain ⟨M₀, E₀⟩ := parts
  obtain ⟨kept, smaller, above, below, _⟩ := stripTrailing_spec 64 M₀ E₀
  dsimp only at value small low high ⊢
  generalize stripTrailing 64 M₀ E₀ = parts at *
  obtain ⟨M, E⟩ := parts
  dsimp only at kept smaller above below ⊢
  have sign : applySign platform d (canon M) =
      .ok (canon (signed ((layout .double).signBit d) M)) :=
    applySign_eq width (by omega)
  have xEq : x = (signed ((layout .double).signBit d) M : Int) * (2 : ℚ) ^ E := by
    rw [value, ← kept, signed_cast, mul_assoc]
  have mSmall : (signed ((layout .double).signBit d) M).natAbs < 2 ^ 53 := by
    rw [natAbs_signed]
    omega
  have fits : Fits platform (signed ((layout .double).signBit d) M) :=
    fits_of_lt_two_pow mSmall (by omega)
  have object : mantissaObject platform M = .ok (canon M) := mantissaObject_eq (by omega)
  generalize signed ((layout .double).signBit d) M = n at *
  by_cases integral : E ≥ 0
  · obtain ⟨shifted, shiftedFits⟩ := @scaled_up platform n E mSmall integral (by omega)
    have xInt : x = ((n * 2 ^ E.toNat : Int) : ℚ) := by
      obtain ⟨count, rfl⟩ := Int.eq_ofNat_of_zero_le integral
      rw [xEq, zpow_natCast]
      push_cast
      rfl
    rw [xInt, canonRat_intCast]
    refine ⟨?_, shiftedFits, ?_⟩
    · simp only [object, sign, shifted, if_pos integral, bind, Except.bind]
      rfl
    · rw [Rat.den_intCast]
      exact Fits.of_range (by decide)
  · have one : canon 1 = clMakeFixnum 1 := canon_of_range (by decide)
    obtain ⟨shifted, denFits⟩ :=
      @scaled_up platform 1 (-E) (by decide) (by omega) (by omega)
    rw [one, Int.one_mul] at shifted
    rw [Int.one_mul] at denFits
    have denNonzero : (2 : Int) ^ (-E).toNat ≠ 0 := by positivity
    have denPositive : ¬ (2 : Int) ^ (-E).toNat < 0 := by
      have : (0 : Int) < 2 ^ (-E).toNat := by positivity
      omega
    have short : NormShort n (2 ^ (-E).toNat) := by
      right
      rw [if_neg denPositive]
      right
      have few := limbCount_small mSmall
      unfold Short
      omega
    have xDiv : x = (n : ℚ) / ((2 ^ (-E).toNat : Int) : ℚ) := by
      obtain ⟨count, countEq⟩ := Int.eq_ofNat_of_zero_le (show 0 ≤ -E by omega)
      have exponent : E = -(count : Int) := by omega
      rw [xEq, exponent, zpow_neg, zpow_natCast, neg_neg, div_eq_mul_inv]
      push_cast
      rfl
    have normalized := clMakeRatioNormalized_eq fits denFits denNonzero short
    rw [xDiv]
    refine ⟨?_, ratFits_div fits denFits denNonzero⟩
    simp only [object, sign, shifted, if_neg integral, bind, Except.bind]
    exact normalized

/-- The sign of `x - y`. -/
def order (x y : ℚ) : Int :=
  if x < y then -1 else if x = y then 0 else 1

theorem order_neg_iff (x y : ℚ) : order x y < 0 ↔ x < y := by
  unfold order
  split
  · simp [*]
  · split <;> simp [*]

theorem order_eq_zero_iff (x y : ℚ) : order x y = 0 ↔ x = y := by
  unfold order
  split
  · rename_i less
    simp [less.ne]
  · split <;> simp [*]

theorem order_swap (x y : ℚ) : -order x y = order y x := by
  unfold order
  rcases lt_trichotomy x y with less | same | greater
  · rw [if_pos less, if_neg less.not_gt, if_neg less.ne']
    rfl
  · subst same
    rw [if_neg (lt_irrefl x), if_pos rfl]
    rfl
  · rw [if_neg greater.not_gt, if_neg greater.ne', if_pos greater]

theorem swapped_order (swap : Bool) (x y : ℚ) :
    swapped swap (order x y) = if swap then order y x else order x y := by
  cases swap with
  | false => rfl
  | true => exact order_swap x y

theorem order_mono {x y : ℚ} (le : x ≤ y) : order x 0 ≤ order y 0 := by
  unfold order
  split_ifs with xNeg yNeg yZero xZero yNeg yZero yNeg yZero
  all_goals first
    | decide
    | exact absurd (le.trans_lt yNeg) xNeg
    | exact absurd (lt_of_le_of_ne (le.trans yZero.le) xZero) xNeg

theorem order_of_signs {x y : ℚ} (different : order x 0 ≠ order y 0) :
    (if order x 0 < order y 0 then -1 else 1) = order x y := by
  rcases lt_or_gt_of_ne different with lower | upper
  · have less : x < y := by
      by_contra notLess
      exact absurd (order_mono (not_lt.mp notLess)) (not_le.mpr lower)
    rw [if_pos lower, order, if_pos less]
  · have greater : y < x := by
      by_contra notGreater
      exact absurd (order_mono (not_lt.mp notGreater)) (not_le.mpr upper)
    rw [if_neg (not_lt.mpr upper.le), order, if_neg greater.not_gt, if_neg greater.ne']

/-- The integer objects that comparing two rationals requests. -/
def crossRequests (x y : ℚ) : List Nat :=
  if x.den = 1 ∧ y.den = 1 then [] else [mulLimbs x.num y.den, mulLimbs y.num x.den]

theorem clNumCompare_eq {x y : ℚ} (xFits : RatFits platform x) (yFits : RatFits platform y) :
    (canonRat x).clArithCompare platform (canonRat y) =
      allocAll platform (crossRequests x y) (order x y) := by
  have ratios := clRatioCompare_eq xFits yFits
  rw [sign_crossDiff] at ratios
  unfold crossRequests
  by_cases integers : x.den = 1 ∧ y.den = 1
  · have xInt : x = (x.num : ℚ) := ((Rat.den_eq_one_iff x).mp integers.1).symm
    have yInt : y = (y.num : ℚ) := ((Rat.den_eq_one_iff y).mp integers.2).symm
    have difference : crossDiff x y = x.num - y.num := by
      rw [crossDiff, integers.1, integers.2]
      simp
    have compared := clArithCompare_eq (canonical_canon xFits.1) (canonical_canon yFits.1)
    rw [toInt_canon, toInt_canon, ← difference, sign_crossDiff] at compared
    rw [if_pos integers, canonRat, canonRat, if_pos integers.1, if_pos integers.2]
    exact congrArg Except.ok compared
  · rw [if_neg integers]
    refine Eq.trans ?_ ratios
    rw [canonRat, canonRat]
    by_cases xIntegral : x.den = 1
    · have yRatio : y.den ≠ 1 := fun yIntegral => integers ⟨xIntegral, yIntegral⟩
      rw [if_neg yRatio, if_pos xIntegral]
      rfl
    · rw [if_neg xIntegral]
      rfl

/-- The integer objects that a mixed comparison requests: none where the signs
decide. -/
def compareRequests (x y : ℚ) : List Nat :=
  if order x 0 ≠ order y 0 then [] else crossRequests x y

theorem rational_sign {robj : ClNum} (canonical : robj.Canonical platform) :
    (if robj.clArithZerop then (0 : Int)
      else if robj.clArithMinusp then -1 else 1) = order robj.toRat 0 := by
  have fits := canonical.ratFits
  have zerop := clRatioZerop_eq fits
  have minusp := clRatioMinusp_eq fits
  rw [← canonical.eq_canonRat] at zerop minusp
  have zerop' : robj.clArithZerop = decide (robj.toRat = 0) := by
    rw [← zerop]
    cases robj <;> rfl
  have minusp' : robj.clArithMinusp = decide (robj.toRat < 0) := by
    rw [← minusp]
    cases robj <;> rfl
  rw [zerop', minusp', order]
  simp only [decide_eq_true_eq]
  by_cases zero : robj.toRat = 0
  · simp [zero]
  · simp [zero]

theorem float_sign (x : ℚ) :
    (if x < 0 then (-1 : Int) else if x > 0 then 1 else 0) = order x 0 := by
  unfold order
  rcases lt_trichotomy x 0 with negative | zero | positive
  · rw [if_pos negative, if_pos negative]
  · simp [zero]
  · rw [if_neg positive.not_gt, if_neg positive.not_gt, if_pos positive, if_neg positive.ne']

theorem swap_allocAll (swap : Bool) (requests : List Nat) (x y : ℚ) :
    (do
      let r ← allocAll platform requests (order x y)
      return swapped swap r) =
      allocAll platform requests (if swap then order y x else order x y) := by
  rw [bind_allocAll_pure, swapped_order]

theorem compareMixed_eq {d : Nat} {x : ℚ} (width : d < 2 ^ 64)
    (reading : doubleReading d = .finite x) {robj : ClNum}
    (canonical : robj.Canonical platform) (swap : Bool) :
    compareMixed platform d robj swap = allocAll platform (compareRequests x robj.toRat)
        (if swap then order robj.toRat x else order x robj.toRat) := by
  obtain ⟨exactly, xFits⟩ := @doubleToExactRational_eq platform d x width reading
  simp only [compareMixed, reading, rational_sign canonical, float_sign]
  unfold compareRequests
  by_cases signs : order x 0 ≠ order robj.toRat 0
  · rw [if_pos signs, if_pos signs, order_of_signs signs, swapped_order]
    rfl
  rw [if_neg signs, if_neg signs]
  rw [not_not] at signs
  by_cases zero : order x 0 = 0
  · have xZero := (order_eq_zero_iff x 0).mp zero
    have yZero := (order_eq_zero_iff _ 0).mp (signs.symm.trans zero)
    rw [if_pos zero, xZero, yZero]
    cases swap <;> rfl
  · have compared := clNumCompare_eq xFits canonical.ratFits
    rw [← canonical.eq_canonRat] at compared
    rw [if_neg zero, exactly]
    change (do
      let r ← (canonRat x).clArithCompare platform robj
      return swapped swap r) = _
    rw [compared, swap_allocAll]

theorem single_widens : Layout.Widens (layout .single) (layout .double) :=
  ⟨by decide, by decide, by decide⟩

theorem clToDouble_reading {precision : Precision} {bits : Nat} {x : ℚ}
    (width : bits < 2 ^ precision.width)
    (reading : (layout precision).read bits = .finite x) :
    doubleReading (clToDouble precision bits) = .finite x ∧ clToDouble precision bits < 2 ^ 64 := by
  cases precision with
  | double => exact ⟨reading, width⟩
  | single =>
      exact ⟨(Layout.read_widen single_widens bits).trans reading,
        Layout.widen_lt single_widens bits⟩

/-- The object is a finite float or a canonical rational of this value. -/
def ClReal.Stands (platform : Platform) : ClReal → ℚ → Prop
  | .rational n, x => n.Canonical platform ∧ n.toRat = x
  | .float precision bits, x =>
      bits < 2 ^ precision.width ∧ (layout precision).read bits = .finite x

/-- RATIONAL of a real is the canonical rational of its value; no finite float is too large. -/
theorem biRational_exact {platform : Platform} {a : ClReal} {x : ℚ} (stands : a.Stands platform x) :
    a.biRational platform = .ok (canonRat x) ∧ (canonRat x).Canonical platform ∧
      (canonRat x).toRat = x := by
  cases a with
  | rational n =>
      obtain ⟨canonical, rfl⟩ := stands
      rw [← canonical.eq_canonRat]
      exact ⟨rfl, canonical, rfl⟩
  | float precision bits =>
      obtain ⟨reading, width⟩ := clToDouble_reading stands.1 stands.2
      obtain ⟨exact, fits⟩ := @doubleToExactRational_eq platform _ _ width reading
      refine ⟨?_, canonical_canonRat fits, toRat_canonRat x⟩
      simp only [ClReal.biRational, clFloatToExactRational, reading]
      exact exact

/-- The double 0.5. -/
theorem biRational_exact_half :
    (ClReal.float .double 0x3FE0000000000000).biRational .m68k = .ok (canonRat (1 / 2)) := by
  have half : (ClReal.float .double 0x3FE0000000000000).Stands .m68k (1 / 2) :=
    ⟨by decide, by decide +kernel⟩
  exact (biRational_exact half).1

theorem compareFloats_eq {da db : Nat} {x y : ℚ} (first : doubleReading da = .finite x)
    (second : doubleReading db = .finite y) : compareFloats da db = order x y := by
  simp only [compareFloats, doubleLess, first, second, Reading.less, decide_eq_true_eq]
  unfold order
  rcases lt_trichotomy x y with less | same | greater
  · rw [if_pos less, if_pos less]
  · simp [same]
  · rw [if_neg greater.not_gt, if_pos greater, if_neg greater.not_gt, if_neg greater.ne']

def ClReal.requests : ClReal → ClReal → ℚ → ℚ → List Nat
  | .float _ _, .float _ _, _, _ => []
  | .float _ _, .rational _, x, y => compareRequests x y
  | .rational _, .float _ _, x, y => compareRequests y x
  | .rational _, .rational _, x, y => crossRequests x y

theorem clArithCompare_order {a b : ClReal} {x y : ℚ} (first : a.Stands platform x)
    (second : b.Stands platform y) :
    a.clArithCompare platform b = allocAll platform (a.requests b x y) (order x y) := by
  cases a with
  | rational n =>
      obtain ⟨nCanonical, rfl⟩ := first
      cases b with
      | rational m =>
          obtain ⟨mCanonical, rfl⟩ := second
          have compared := clNumCompare_eq nCanonical.ratFits mCanonical.ratFits
          rw [← nCanonical.eq_canonRat, ← mCanonical.eq_canonRat] at compared
          exact compared
      | float precision bits =>
          obtain ⟨reading, width⟩ := clToDouble_reading second.1 second.2
          exact compareMixed_eq width reading nCanonical true
  | float precision bits =>
      obtain ⟨reading, width⟩ := clToDouble_reading first.1 first.2
      cases b with
      | rational m =>
          obtain ⟨mCanonical, rfl⟩ := second
          exact compareMixed_eq width reading mCanonical false
      | float precision' bits' =>
          obtain ⟨reading', _⟩ := clToDouble_reading second.1 second.2
          exact congrArg Except.ok (compareFloats_eq reading reading')

theorem answer_eq_order {a b : ClReal} {x y : ℚ} {r : Int} (first : a.Stands platform x)
    (second : b.Stands platform y) (answer : a.clArithCompare platform b = .ok r) :
    r = order x y := by
  rw [clArithCompare_order first second] at answer
  exact (allocAll_eq_ok_iff.mp answer).2.symm

theorem order_trans {x y z : ℚ} (first : order x y ≤ 0) (second : order y z ≤ 0) :
    order x z ≤ 0 ∧ (order x z = 0 → order x y = 0 ∧ order y z = 0) := by
  have le : ∀ u v : ℚ, order u v ≤ 0 ↔ u ≤ v := by
    intro u v
    rw [Int.le_iff_lt_or_eq, order_neg_iff, order_eq_zero_iff, le_iff_lt_or_eq]
  rw [le] at first second ⊢
  simp only [order_eq_zero_iff]
  refine ⟨first.trans second, fun same => ?_⟩
  subst same
  exact ⟨first.antisymm second, second.antisymm first⟩

/-- A finite float and a rational compare as their exact values, up to the
storage error of a cross product that is too large, and the answers of
comparisons of all real types together are transitive. -/
theorem clFloatCompare_exact (platform : Platform) :
    (∀ (precision : Precision) (bits : Nat) (robj : ClNum) (x : ℚ),
      (ClReal.float precision bits).Stands platform x → robj.Canonical platform →
      (ClReal.float precision bits).clArithCompare platform (.rational robj) =
          allocAll platform (compareRequests x robj.toRat) (order x robj.toRat) ∧
        (ClReal.rational robj).clArithCompare platform (.float precision bits) =
          allocAll platform (compareRequests x robj.toRat) (order robj.toRat x)) ∧
    (∀ (a b c : ClReal) (x y z : ℚ) (r s t : Int),
      a.Stands platform x → b.Stands platform y → c.Stands platform z →
      a.clArithCompare platform b = .ok r → b.clArithCompare platform c = .ok s →
      a.clArithCompare platform c = .ok t → r ≤ 0 → s ≤ 0 →
      t ≤ 0 ∧ (t = 0 → r = 0 ∧ s = 0)) := by
  constructor
  · intro precision bits robj x stands canonical
    have rational : (ClReal.rational robj).Stands platform robj.toRat := ⟨canonical, rfl⟩
    exact ⟨clArithCompare_order stands rational, clArithCompare_order rational stands⟩
  · intro a b c x y z r s t aStands bStands cStands ab bc ac first second
    rw [answer_eq_order aStands bStands ab] at first ⊢
    rw [answer_eq_order bStands cStands bc] at second ⊢
    rw [answer_eq_order aStands cStands ac]
    exact order_trans first second

/-- A half against a third. -/
theorem clFloatCompare_exact_half : (ClReal.float .double 0x3FE0000000000000).clArithCompare .m68k
        (.rational (.ratio (canon 1) (canon 3))) =
      allocAll .m68k (compareRequests (1 / 2) (ClNum.ratio (canon 1) (canon 3)).toRat)
        (order (1 / 2) (ClNum.ratio (canon 1) (canon 3)).toRat) :=
  ((clFloatCompare_exact .m68k).1 .double 0x3FE0000000000000
    (.ratio (canon 1) (canon 3)) (1 / 2) ⟨by decide, by decide +kernel⟩
    ⟨trivial, trivial, by decide, by decide⟩).1

theorem half_requests {ones length : Nat} (positive : 0 < length)
    (total : ones + 1 = (2 ^ 16) ^ length) :
    ∃ limbs ∈ compareRequests (1 / 2) (((ones : Nat) : Int) : ℚ), length < limbs := by
  have large : 2 ^ 16 ≤ (2 ^ 16) ^ length := Nat.le_self_pow (by omega) _
  have onesPositive : (0 : ℚ) < ((ones : Int) : ℚ) := by
    have : (0 : Int) < ones := by omega
    exact_mod_cast this
  have halfDen : ((1 / 2 : ℚ)).den = 2 := by decide +kernel
  have signs : ¬ order (1 / 2) 0 ≠ order (((ones : Nat) : Int) : ℚ) 0 := by
    rw [not_not, order, order, if_neg (by norm_num), if_neg (by norm_num),
      if_neg onesPositive.not_gt, if_neg onesPositive.ne']
  refine ⟨mulLimbs ones 2, ?_, ?_⟩
  · rw [compareRequests, if_neg signs, crossRequests, halfDen, if_neg (by omega), Rat.num_intCast]
    simp
  · by_contra few
    have product := lt_of_limbCount_le ((limbCount_mul_le ones 2).trans (not_lt.mp few))
    rw [Int.natAbs_mul, Int.natAbs_natCast] at product
    change ones * 2 < _ at product
    omega

/-- Comparing 0.5 with the largest integer ends in a storage error. -/
theorem clFloatCompare_half_allOnes :
    (ClReal.float .double 0x3FE0000000000000).Stands .m68k (1 / 2) ∧
      ClNum.Canonical .m68k (.int (allOnes (maxLimbs .m68k))) ∧
      ¬ ∃ r, (ClReal.float .double 0x3FE0000000000000).clArithCompare .m68k
        (.rational (.int (allOnes (maxLimbs .m68k)))) = .ok r := by
  have stands : (ClReal.float .double 0x3FE0000000000000).Stands .m68k (1 / 2) :=
    ⟨by decide, by decide +kernel⟩
  have positive : 0 < maxLimbs .m68k := by decide
  have canonical : ClNum.Canonical .m68k (.int (allOnes (maxLimbs .m68k))) :=
    canonical_allOnes (by decide) le_rfl
  refine ⟨stands, canonical, ?_⟩
  rintro ⟨r, answer⟩
  rw [((clArithCompare_order stands
    (b := .rational (.int (allOnes (maxLimbs .m68k)))) ⟨canonical, rfl⟩))] at answer
  have fits := (allocAll_eq_ok_iff.mp answer).1
  change ∀ limbs ∈ compareRequests (1 / 2)
    (((allOnes (maxLimbs .m68k)).toInt : Int) : ℚ), _ at fits
  rw [toInt_allOnes] at fits
  obtain ⟨limbs, member, long⟩ := half_requests positive (value_replicate_ones (maxLimbs .m68k))
  exact absurd (fits limbs member) (not_le.mpr long)

end ClAmiga.Float
