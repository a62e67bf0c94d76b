import ClAmiga.Number.RoundingSpec

/-!
# When integer division is exact

The remainder functions, and the condition under which the whole division
family is exact: the quotient does not wrap around and the integer objects
requested on the way pass the storage checks.
-/

namespace ClAmiga.Number

open Radix Bignum

variable {platform : Platform} {x y : ℚ}

def BothFixnums (x y : ℚ) : Prop :=
  (x.den = 1 ∧ y.den = 1) ∧ InFixnumRange x.num ∧ InFixnumRange y.num

instance (x y : ℚ) : Decidable (BothFixnums x y) :=
  inferInstanceAs (Decidable (_ ∧ _))

/-- The requests of `a - q * b`. -/
def remainderRequests (q : Int) (x y : ℚ) : List Nat :=
  timesRequests q y ++ subRequests x (q * y)

def RemainderShort (q : Int) (x y : ℚ) : Prop :=
  TimesShort q y ∧ SubShort x (q * y)

theorem remainderOf_eq {q : Int} (qFits : Fits platform q)
    (xFits : RatFits platform x) (yFits : RatFits platform y)
    (short : RemainderShort q x y) :
    remainderOf platform (canon q) (canonRat x) (canonRat y) =
      allocAll platform (remainderRequests q x y) (canonRat (x - q * y)) := by
  unfold remainderOf
  rw [← canonRat_intCast, numMul_eq (ratFits_intCast qFits) yFits short.1]
  apply bind_allocAll
  intro few
  exact numSub_eq xFits (ratFits_mul few) short.2

def remRequests (x y : ℚ) : List Nat :=
  if BothFixnums x y then []
  else if x.den = 1 ∧ y.den = 1 then remainderRequests (truncated x y) x y
  else divRequests x y ++ remainderRequests (truncated x y) x y

def RemShort (x y : ℚ) : Prop :=
  ¬ (x.den = 1 ∧ y.den = 1) → NormShort (x.num * y.den) (x.den * y.num) ∧
    RemainderShort (truncated x y) x y

/-- The objects the quotient of `bi_mod` needs beyond the truncation. -/
def floorRequests (z : ℚ) : List Nat :=
  if z.den = 1 then []
  else mulLimbs (trunc z) z.den ::
    if z < 0 then [limbCount (trunc z - 1)] else []

def modRequests (x y : ℚ) : List Nat :=
  if x.den = 1 ∧ y.den = 1 then []
  else divRequests x y ++ (floorRequests (x / y) ++
    remainderRequests ⌊x / y⌋ x y)

def ModShort (x y : ℚ) : Prop :=
  ¬ (x.den = 1 ∧ y.den = 1) → NormShort (x.num * y.den) (x.den * y.num) ∧
    RemainderShort ⌊x / y⌋ x y

theorem trunc_eq_tdiv (z : ℚ) : trunc z = z.num.tdiv z.den := by
  have nonzero : (z.den : Int) ≠ 0 := by exact_mod_cast z.den_nz
  rw [tdiv_eq_trunc nonzero, Int.cast_natCast, Rat.num_div_den]

theorem fits_trunc {z : ℚ} (fits : RatFits platform z) : Fits platform (trunc z) := by
  apply fits.1.of_natAbs_le
  have magnitude : (trunc z).natAbs = z.num.natAbs / (z.den : Int).natAbs := by
    rw [trunc_eq_tdiv]
    exact Int.natAbs_tdiv _ _
  rw [magnitude]
  exact Nat.div_le_self _ _

theorem truncateRatio {z : ℚ} (fits : RatFits platform z) :
    clArithTruncate platform (canon z.num) (canon z.den) = .ok (canon (trunc z)) := by
  have quotient := clArithTruncate_eq (canonical_canon fits.1) (canonical_canon fits.2)
  rw [toInt_canon, toInt_canon, ← trunc_eq_tdiv] at quotient
  apply quotient
  · exact_mod_cast z.den_nz
  · rintro ⟨-, minusOne⟩
    omega

theorem truncateQuotient_eq {z : ℚ} (fits : RatFits platform z) :
    truncateQuotient platform (canonRat z) = .ok (canon (trunc z)) := by
  by_cases integral : z.den = 1
  · have whole : trunc z = z.num := by
      rw [trunc_eq_tdiv, integral, Nat.cast_one, Int.tdiv_one]
    rw [canonRat_of_integral integral, truncateQuotient, whole]
  · rw [canonRat_of_proper integral, truncateQuotient, truncateRatio fits]

theorem trunc_mul_den_ne {z : ℚ} (proper : z.den ≠ 1) : trunc z * z.den ≠ z.num := by
  intro equality
  have dvd : (z.den : Int) ∣ z.num := ⟨trunc z, by rw [← equality, mul_comm]⟩
  have coprime := z.reduced
  have natDvd : z.den ∣ z.num.natAbs := Int.natCast_dvd.mp dvd
  rw [Nat.Coprime, Nat.gcd_eq_right natDvd] at coprime
  exact proper coprime

theorem floor_eq_trunc {z : ℚ} (proper : z.den ≠ 1) :
    ⌊z⌋ = if z < 0 then trunc z - 1 else trunc z := by
  unfold trunc
  by_cases negative : z < 0
  · rw [if_pos negative, if_neg (not_le.mpr negative)]
    have gap : (⌊z⌋ : ℚ) ≠ z := by
      intro integral
      apply proper
      rw [← integral]
      exact Rat.den_intCast _
    have notInteger : z ∉ Set.range ((↑) : ℤ → ℚ) := by
      rintro ⟨w, rfl⟩
      exact gap (by rw [Int.floor_intCast])
    have ceilFloor := Int.ceil_eq_floor_add_one_iff_notMem z |>.mpr notInteger
    omega
  · rw [if_neg negative, if_pos (not_lt.mp negative)]

theorem floorQuotient_eq {z : ℚ} (fits : RatFits platform z) : floorQuotient platform (canonRat z) =
      allocAll platform (floorRequests z) (canon ⌊z⌋) := by
  by_cases integral : z.den = 1
  · have whole : ⌊z⌋ = z.num := by
      rw [eq_num_of_integral integral, Int.floor_intCast, Rat.num_intCast]
    rw [canonRat_of_integral integral, floorQuotient, floorRequests, if_pos integral, whole]
    rfl
  · have tFits := fits_trunc fits
    rw [canonRat_of_proper integral, floorQuotient, floorRequests,
      if_neg integral, truncateRatio fits]
    change (clArithMul platform (canon (trunc z)) (canon z.den) >>= _) = _
    rw [clArithMul_canon tFits fits.2]
    apply bind_allocWith
    intro few
    have differs : clArithCompare (canon (trunc z * z.den)) (canon z.num) ≠ 0 := by
      rw [clArithCompare_eq (canonical_canon (fits_mul few))
        (canonical_canon fits.1), toInt_canon, toInt_canon, ne_eq,
        Int.sign_eq_zero_iff_zero, sub_eq_zero]
      exact trunc_mul_den_ne integral
    have sign : clArithMinusp (canon z.num) = decide (z < 0) := by
      rw [clArithMinusp_eq (canonical_canon fits.1), toInt_canon]
      simp only [Rat.num_neg]
    have one : clMakeFixnum 1 = canon 1 := rfl
    rw [floor_eq_trunc integral, sign, one]
    by_cases negative : z < 0
    · simp only [differs, ne_eq, not_false_eq_true, negative, decide_true, and_self, if_true]
      rw [clArithSub_canon tFits (Fits.of_range (by decide))]
      exact allocWith_eq_allocAll _ _
    · simp only [negative, decide_false, Bool.false_eq_true, and_false, if_false]
      rfl

theorem floor_fits {z : ℚ} (fits : RatFits platform z)
    (few : AllFit platform (floorRequests z)) : Fits platform ⌊z⌋ := by
  by_cases integral : z.den = 1
  · have whole : ⌊z⌋ = z.num := by
      rw [eq_num_of_integral integral, Int.floor_intCast, Rat.num_intCast]
    rw [whole]
    exact fits.1
  · rw [floor_eq_trunc integral]
    rw [floorRequests, if_neg integral] at few
    by_cases negative : z < 0
    · rw [if_pos negative] at few ⊢
      exact few _ (List.mem_cons_of_mem _ List.mem_cons_self)
    · rw [if_neg negative]
      exact fits_trunc fits

theorem quotient_fits (nonzero : y ≠ 0)
    (few : AllFit platform (divRequests x y)) : RatFits platform (x / y) := by
  simp only [AllFit, divRequests, List.forall_mem_cons] at few
  rw [div_eq_cross]
  exact ratFits_div (fits_mul few.1) (fits_mul few.2.1) (den_mul_num_ne_zero nonzero)

theorem biRem_ratio (mixed : ¬ (x.den = 1 ∧ y.den = 1)) :
    biRem platform (canonRat x) (canonRat y) = (do
      let quot ← clRatioDiv platform (canonRat x) (canonRat y)
      let truncQ ← truncateQuotient platform quot
      remainderOf platform truncQ (canonRat x) (canonRat y)) := by
  by_cases xIntegral : x.den = 1
  · have yProper : y.den ≠ 1 := fun yIntegral => mixed ⟨xIntegral, yIntegral⟩
    rw [canonRat_of_proper yProper]
    cases canonRat x with
    | int n => cases n <;> rfl
    | ratio num den => rfl
  · rw [canonRat_of_proper xIntegral]
    rfl

theorem biMod_ratio (mixed : ¬ (x.den = 1 ∧ y.den = 1)) :
    biMod platform (canonRat x) (canonRat y) = (do
      let quot ← clRatioDiv platform (canonRat x) (canonRat y)
      let floorQ ← floorQuotient platform quot
      remainderOf platform floorQ (canonRat x) (canonRat y)) := by
  by_cases xIntegral : x.den = 1
  · have yProper : y.den ≠ 1 := fun yIntegral => mixed ⟨xIntegral, yIntegral⟩
    rw [canonRat_of_proper yProper]
    cases canonRat x <;> rfl
  · rw [canonRat_of_proper xIntegral]
    rfl

theorem inFixnumRange_of_canon {n : Int} {word : BitVec 31}
    (object : canon n = .fixnum word) : InFixnumRange n := by
  have denotes := congrArg ClInt.toInt object
  rw [toInt_canon] at denotes
  rw [denotes]
  exact word_range word

theorem biRem_fixnums {n d : Int} (nRange : InFixnumRange n)
    (dRange : InFixnumRange d) (nonzero : d ≠ 0) :
    biRem platform (.int (canon n)) (.int (canon d)) = .ok (.int (canon (n.tmod d))) := by
  have nValue := toInt_clMakeFixnum nRange
  have dValue := toInt_clMakeFixnum dRange
  rw [canon_of_range nRange, canon_of_range dRange,
    canon_of_range (nRange.tmod (y := d))]
  simp only [clMakeFixnum, ClInt.toInt] at nValue dValue
  simp only [clMakeFixnum, biRem, nValue, dValue, nonzero, if_false]

theorem biRem_integers {n d : Int} (notFixnums : ¬ (InFixnumRange n ∧ InFixnumRange d)) :
    biRem platform (.int (canon n)) (.int (canon d)) = (do
      let q ← clArithTruncate platform (canon n) (canon d)
      let prod ← clArithMul platform q (canon d)
      ClNum.int <$> clArithSub platform (canon n) prod) := by
  cases nObject : canon n with
  | fixnum nWord =>
      cases dObject : canon d with
      | fixnum dWord =>
          exact (notFixnums ⟨inFixnumRange_of_canon nObject, inFixnumRange_of_canon dObject⟩).elim
      | bignum sign limbs => rfl
  | bignum sign limbs => rfl

theorem biRem_integral {n d : Int} (nFits : Fits platform n)
    (dFits : Fits platform d) (nonzero : d ≠ 0) :
    biRem platform (.int (canon n)) (.int (canon d)) = allocAll platform
        (if InFixnumRange n ∧ InFixnumRange d then []
          else [mulLimbs (n.tdiv d) d, limbCount (n - n.tdiv d * d)])
        (.int (canon (n - n.tdiv d * d))) := by
  have remainder : n - n.tdiv d * d = n.tmod d := by
    have := Int.mul_tdiv_add_tmod n d
    rw [mul_comm] at this
    omega
  by_cases fixnums : InFixnumRange n ∧ InFixnumRange d
  · rw [biRem_fixnums fixnums.1 fixnums.2 nonzero, if_pos fixnums, remainder]
    rfl
  · have quotient := clArithTruncate_eq (canonical_canon nFits) (canonical_canon dFits)
    rw [toInt_canon, toInt_canon] at quotient
    have noWrap : ¬ QuotientWraps n d := by
      rintro ⟨rfl, rfl⟩
      exact fixnums (by decide)
    have tFits : Fits platform (n.tdiv d) := by
      apply nFits.of_natAbs_le
      rw [Int.natAbs_tdiv]
      exact Nat.div_le_self _ _
    rw [biRem_integers fixnums, if_neg fixnums, quotient nonzero noWrap]
    change (clArithMul platform (canon (n.tdiv d)) (canon d) >>= _) = _
    rw [clArithMul_canon tFits dFits]
    apply bind_allocWith
    intro few
    rw [clArithSub_canon nFits (fits_mul few)]
    exact map_allocWith

theorem exists_int_of_integral (integral : x.den = 1) : ∃ n : Int, x = n :=
  ⟨x.num, eq_num_of_integral integral⟩

theorem truncated_intCast (n d : Int) : truncated (n : ℚ) (d : ℚ) = n.tdiv d := by
  simp [truncated]

theorem biRem_eq (xFits : RatFits platform x) (yFits : RatFits platform y)
    (nonzero : y ≠ 0) (short : RemShort x y) :
    biRem platform (canonRat x) (canonRat y) = allocAll platform (remRequests x y)
        (canonRat (x - truncated x y * y)) := by
  by_cases integral : x.den = 1 ∧ y.den = 1
  · obtain ⟨n, rfl⟩ := exists_int_of_integral integral.1
    obtain ⟨d, rfl⟩ := exists_int_of_integral integral.2
    have requests : remRequests (n : ℚ) (d : ℚ) =
        if InFixnumRange n ∧ InFixnumRange d then []
        else [mulLimbs (n.tdiv d) d, limbCount (n - n.tdiv d * d)] := by
      have product : ((n.tdiv d : Int) : ℚ) * (d : ℚ) = ((n.tdiv d * d : Int) : ℚ) := by
        push_cast
        rfl
      simp only [remRequests, BothFixnums, remainderRequests, truncated_intCast,
        timesRequests, subRequests, product, Rat.den_intCast, Rat.num_intCast,
        and_self, true_and, if_true, List.cons_append, List.nil_append]
    have value : (n : ℚ) - (n.tdiv d : Int) * (d : ℚ) = ((n - n.tdiv d * d : Int) : ℚ) := by
      push_cast
      rfl
    have divisor : d ≠ 0 := by exact_mod_cast nonzero
    rw [requests, truncated_intCast, value, canonRat_intCast, canonRat_intCast, canonRat_intCast]
    exact biRem_integral xFits.1 yFits.1 divisor
  · obtain ⟨normShort, remainderShort⟩ := short integral
    have notFixnums : ¬ BothFixnums x y := fun both => integral both.1
    rw [biRem_ratio integral, remRequests, if_neg notFixnums,
      if_neg integral, clRatioDiv_eq xFits yFits nonzero normShort]
    apply bind_allocAll
    intro few
    rw [truncateQuotient_eq (quotient_fits nonzero few), ← truncated_eq nonzero]
    exact remainderOf_eq (fits_truncated few) xFits yFits remainderShort

theorem floorMod_eq {n d : Int} (nonzero : d ≠ 0) : floorMod n d = n - ⌊(n : ℚ) / d⌋ * d := by
  have divisor : (d : ℚ) ≠ 0 := by exact_mod_cast nonzero
  have rounded := rounds_floor (x := (n : ℚ)) divisor
  have remainder : n - n.tdiv d * d = n.tmod d := by
    have := Int.mul_tdiv_add_tmod n d
    rw [mul_comm] at this
    omega
  have leaves : residue (n : ℚ) (d : ℚ) = ((n.tmod d : Int) : ℚ) := by
    rw [residue, truncated_intCast, ← remainder]
    push_cast
    rfl
  simp only [Rounds, correction, delta, truncated_intCast, leaves, Int.cast_eq_zero,
    Int.cast_lt_zero] at rounded
  rw [← rounded]
  unfold floorMod
  simp only
  by_cases zero : n.tmod d = 0
  · simp only [zero, ne_eq, not_true_eq_false, false_and, if_false, if_true, Int.add_zero]
    omega
  · by_cases same : decide (n.tmod d < 0) = decide (d < 0)
    · simp only [zero, same, ne_eq, not_true_eq_false, and_false, if_false, Int.add_zero]
      omega
    · simp only [zero, same, ne_eq, not_false_eq_true, and_self, if_true, if_false]
      rw [Int.add_mul]
      omega

theorem biMod_eq (xFits : RatFits platform x) (yFits : RatFits platform y)
    (nonzero : y ≠ 0) (short : ModShort x y) :
    biMod platform (canonRat x) (canonRat y) =
      allocAll platform (modRequests x y) (canonRat (x - ⌊x / y⌋ * y)) := by
  by_cases integral : x.den = 1 ∧ y.den = 1
  · obtain ⟨n, rfl⟩ := exists_int_of_integral integral.1
    obtain ⟨d, rfl⟩ := exists_int_of_integral integral.2
    have divisor : d ≠ 0 := by exact_mod_cast nonzero
    have value : (n : ℚ) - ⌊(n : ℚ) / d⌋ * (d : ℚ) = ((floorMod n d : Int) : ℚ) := by
      rw [floorMod_eq divisor]
      push_cast
      rfl
    have modulus := clArithMod_eq (canonical_canon xFits.1) (canonical_canon yFits.1)
    simp only [Rat.num_intCast, toInt_canon] at modulus
    rw [modRequests, if_pos integral, value, canonRat_intCast, canonRat_intCast,
      canonRat_intCast, biMod, modulus divisor]
    rfl
  · obtain ⟨normShort, remainderShort⟩ := short integral
    rw [biMod_ratio integral, modRequests, if_neg integral,
      clRatioDiv_eq xFits yFits nonzero normShort]
    apply bind_allocAll
    intro few
    have quotFits := quotient_fits nonzero few
    rw [floorQuotient_eq quotFits]
    apply bind_allocAll
    intro floorFew
    exact remainderOf_eq (floor_fits quotFits floorFew) xFits yFits remainderShort

theorem mulLimbs_one (z : Int) : mulLimbs z 1 = limbCount z := by
  by_cases range : InFixnumRange z
  · rw [mulLimbs_of_iff (iff_of_true range (by decide)), mul_one]
  · rw [mulLimbs_of_mixed range (by decide), if_pos (Or.inr rfl), mul_one]

theorem mulLimbs_zero (z : Int) : mulLimbs z 0 = limbCount 0 := by
  by_cases range : InFixnumRange z
  · rw [mulLimbs_of_iff (iff_of_true range (by decide)), mul_zero]
  · rw [mulLimbs_of_mixed range (by decide), if_pos (Or.inl rfl), mul_zero]

theorem doRounding_zero (mode : RoundMode) (xFits : RatFits platform x) :
    doRounding platform mode (canonRat x) (canonRat 0) = .error divisionByZero := by
  have zeroFits : Fits platform 0 := Fits.of_range (by decide)
  have zeroLimbs : mulLimbs (x.den : Int) 0 ≤ maxLimbs platform := by
    rw [mulLimbs_zero]
    exact zeroFits
  have oneLimbs : mulLimbs x.num 1 ≤ maxLimbs platform := by
    rw [mulLimbs_one]
    exact xFits.1
  have division := clArithTruncate_zero (canonical_canon xFits.1)
    (canonical_canon zeroFits) (toInt_canon 0)
  unfold doRounding
  rw [clNumerator_canonRat, clNumerator_canonRat, clDenominator_canonRat,
    clDenominator_canonRat, Rat.num_zero, Rat.den_zero, Nat.cast_one,
    clArithMul_canon xFits.1 (Fits.of_range (by decide)),
    clArithMul_canon xFits.2 zeroFits, allocWith_of_le oneLimbs,
    allocWith_of_le zeroLimbs, mul_one, mul_zero]
  change (clArithTruncate platform (canon x.num) (canon 0) >>= _) = _
  rw [division]
  rfl

def IsDivZero {α : Type} (result : Result α) : Prop :=
  ∃ message, result = .error (.divZero message)

theorem biRem_zero (xFits : RatFits platform x) :
    IsDivZero (biRem platform (canonRat x) (canonRat 0)) := by
  by_cases integral : x.den = 1
  · have division := clArithTruncate_zero (canonical_canon xFits.1)
      (canonical_canon (Fits.of_range (by decide))) (toInt_canon 0)
    refine ⟨"Division by zero", ?_⟩
    rw [canonRat_of_integral integral]
    change biRem platform (.int (canon x.num)) (.int (canon 0)) = _
    by_cases range : InFixnumRange x.num
    · rw [canon_of_range range]
      rfl
    · rw [biRem_integers (fun both => range both.1), division]
      rfl
  · refine ⟨"division by zero", ?_⟩
    rw [biRem_ratio (fun both => integral both.1), clRatioDiv_zero]
    rfl

theorem biMod_zero (xFits : RatFits platform x) :
    IsDivZero (biMod platform (canonRat x) (canonRat 0)) := by
  by_cases integral : x.den = 1
  · have division := clArithMod_zero (canonical_canon xFits.1)
      (canonical_canon (Fits.of_range (by decide))) (toInt_canon 0)
    refine ⟨"Division by zero", ?_⟩
    rw [canonRat_of_integral integral]
    change ClNum.int <$> clArithMod platform (canon x.num) (canon 0) = _
    rw [division]
    rfl
  · refine ⟨"division by zero", ?_⟩
    rw [biMod_ratio (fun both => integral both.1), clRatioDiv_zero]
    rfl

theorem bind_eq_ok {α β : Type} {first : Result α} {next : α → Result β}
    {result : β} (succeeds : (first >>= next) = .ok result) :
    ∃ object, first = .ok object ∧ next object = .ok result := by
  cases first with
  | error error => cases succeeds
  | ok object => exact ⟨object, rfl, succeeds⟩

theorem allocWith_eq_ok {limbs : Nat} {z : Int} {object : ClInt}
    (succeeds : allocWith platform limbs z = .ok object) : object = canon z := by
  rw [allocWith_eq_allocAll, allocAll_eq_ok_iff] at succeeds
  exact succeeds.2.symm

theorem doRounding_wraps {rounded : Rounded} (xFits : RatFits platform x)
    (yFits : RatFits platform y) (wraps : RatQuotientWraps x y)
    (succeeds : doRounding platform .truncate (canonRat x) (canonRat y) =
      .ok rounded) : rounded.quotient = canon clFixnumMin := by
  unfold doRounding at succeeds
  rw [clNumerator_canonRat, clNumerator_canonRat, clDenominator_canonRat,
    clDenominator_canonRat, clArithMul_canon xFits.1 yFits.2,
    clArithMul_canon xFits.2 yFits.1] at succeeds
  obtain ⟨intA, intAMade, succeeds⟩ := bind_eq_ok succeeds
  obtain ⟨intB, intBMade, succeeds⟩ := bind_eq_ok succeeds
  obtain ⟨q, qMade, succeeds⟩ := bind_eq_ok succeeds
  obtain ⟨product, -, succeeds⟩ := bind_eq_ok succeeds
  obtain ⟨r, -, succeeds⟩ := bind_eq_ok succeeds
  have quotient : clArithTruncate platform intA intB = .ok (canon clFixnumMin) := by
    have wrapsCopy := wraps
    unfold RatQuotientWraps QuotientWraps at wrapsCopy
    rw [allocWith_eq_ok intAMade, allocWith_eq_ok intBMade]
    apply clArithTruncate_wraps
    · rw [wrapsCopy.1]
      exact canonical_canon (Fits.of_range (by decide))
    · rw [wrapsCopy.2]
      exact canonical_canon (Fits.of_range (by decide))
    · rw [toInt_canon, toInt_canon]
      exact wraps
  rw [quotient] at qMade
  cases qMade
  simp only [adjustQuotient, ne_eq, not_true_eq_false, false_and, if_false]
    at succeeds
  cases succeeds
  rfl

theorem trunc_of_wraps (wraps : RatQuotientWraps x y) : trunc (x / y) = 2 ^ 30 := by
  unfold RatQuotientWraps QuotientWraps at wraps
  have quotient : x / y = ((2 ^ 30 : Int) : ℚ) := by
    rw [div_eq_cross, wraps.1, wraps.2]
    norm_num [clFixnumMin]
  rw [quotient, trunc]
  split
  · exact Int.floor_intCast _
  · exact Int.ceil_intCast _

theorem correction_cases (mode : RoundMode) (x y : ℚ) :
    correction mode x y = 0 ∨ correction mode x y = 1 ∨ correction mode x y = -1 := by
  unfold correction delta
  cases mode <;> simp only <;> split_ifs <;> simp

theorem rounded_fits {mode : RoundMode} (few : AllFit platform (roundRequests mode x y)) :
    Fits platform (truncated x y + correction mode x y) ∧
      RatFits platform (residue x y - correction mode x y * y) := by
  simp only [roundRequests, allFit_append] at few
  obtain ⟨divFew, -, subFew, -, stepFew⟩ := few
  have tFits := fits_truncated divFew
  have rFits : RatFits platform (residue x y) := ratFits_sub subFew
  unfold stepRequests at stepFew
  rcases correction_cases mode x y with none | up | down
  · rw [none, Int.add_zero, Int.cast_zero, zero_mul, sub_zero]
    exact ⟨tFits, rFits⟩
  · rw [up] at stepFew ⊢
    simp only [one_ne_zero, if_false, if_true] at stepFew
    obtain ⟨quotientFew, remainderFew⟩ := List.forall_mem_cons.mp stepFew
    rw [Int.cast_one, one_mul]
    exact ⟨quotientFew, ratFits_sub remainderFew⟩
  · rw [down] at stepFew ⊢
    simp only [neg_eq_zero, one_ne_zero, if_false, reduceCtorEq,
      Int.reduceNeg] at stepFew
    obtain ⟨quotientFew, remainderFew⟩ := List.forall_mem_cons.mp stepFew
    have value : residue x y - ((-1 : Int) : ℚ) * y = residue x y + y := by
      push_cast
      ring
    rw [value]
    exact ⟨quotientFew, ratFits_add remainderFew⟩

/-- A mode returns its quotient and the matching remainder, both canonical. -/
def RoundingExact (platform : Platform) (mode : RoundMode) (a b : ClNum) : Prop :=
  ∃ q r, doRounding platform mode a b = .ok ⟨q, r⟩ ∧ q.Canonical platform ∧
    r.Canonical platform ∧ Rounds mode (a.toRat / b.toRat) q.toInt ∧
    q.toInt * b.toRat + r.toRat = a.toRat

def RemainderExact (platform : Platform) (result : Result ClNum) (z : ℚ) : Prop :=
  ∃ r, result = .ok r ∧ r.Canonical platform ∧ r.toRat = z

/-- The division family is exact on `a` and `b`: quotients and remainders are
those of the mode, and division by zero is signalled for a zero divisor. -/
def DivisionFamilyExact (platform : Platform) (a b : ClNum) : Prop :=
  (b.toRat = 0 → (∀ mode, IsDivZero (doRounding platform mode a b)) ∧
      IsDivZero (biMod platform a b) ∧ IsDivZero (biRem platform a b)) ∧
    (b.toRat ≠ 0 → (∀ mode, RoundingExact platform mode a b) ∧
      RemainderExact platform (biMod platform a b)
        (a.toRat - ⌊a.toRat / b.toRat⌋ * b.toRat) ∧
      RemainderExact platform (biRem platform a b)
        (a.toRat - trunc (a.toRat / b.toRat) * b.toRat))

/-- No integer object requested on the way exceeds the storage limit. -/
def DivisionFits (platform : Platform) (x y : ℚ) : Prop :=
  (∀ mode, AllFit platform (roundRequests mode x y)) ∧
    AllFit platform (modRequests x y) ∧ AllFit platform (remRequests x y)

/-- No number of `2 ^ 16` limbs or more is negated or made absolute. -/
def DivisionShort (x y : ℚ) : Prop :=
  (∀ mode, RoundShort mode x y) ∧ ModShort x y ∧ RemShort x y

theorem remainderExact_allocAll {requests : List Nat} {z : ℚ}
    (few : AllFit platform requests) (fits : RatFits platform z) :
    RemainderExact platform (allocAll platform requests (canonRat z)) z :=
  ⟨canonRat z, allocAll_of_le few, canonical_canonRat fits, toRat_canonRat z⟩

theorem fits_of_remainderRequests {q : Int} (few : AllFit platform (remainderRequests q x y)) :
    RatFits platform (x - q * y) :=
  ratFits_sub (allFit_append.mp few).2

theorem mod_fits (yFits : RatFits platform y) (nonzero : y ≠ 0)
    (few : AllFit platform (modRequests x y)) :
    RatFits platform (x - ⌊x / y⌋ * y) := by
  by_cases integral : x.den = 1 ∧ y.den = 1
  · obtain ⟨n, rfl⟩ := exists_int_of_integral integral.1
    obtain ⟨d, rfl⟩ := exists_int_of_integral integral.2
    have divisor : d ≠ 0 := by exact_mod_cast nonzero
    have value : (n : ℚ) - ⌊(n : ℚ) / d⌋ * (d : ℚ) = ((floorMod n d : Int) : ℚ) := by
      rw [floorMod_eq divisor]
      push_cast
      rfl
    rw [value]
    exact ratFits_intCast (yFits.1.of_natAbs_le (natAbs_floorMod_le divisor))
  · rw [modRequests, if_neg integral, allFit_append, allFit_append] at few
    exact fits_of_remainderRequests few.2.2

theorem rem_fits (xFits : RatFits platform x) (few : AllFit platform (remRequests x y)) :
    RatFits platform (x - truncated x y * y) := by
  by_cases fixnums : BothFixnums x y
  · obtain ⟨integral, -, -⟩ := fixnums
    obtain ⟨n, rfl⟩ := exists_int_of_integral integral.1
    obtain ⟨d, rfl⟩ := exists_int_of_integral integral.2
    have value : (n : ℚ) - truncated (n : ℚ) (d : ℚ) * (d : ℚ) = ((n.tmod d : Int) : ℚ) := by
      have remainder : n.tmod d = n - n.tdiv d * d := by
        have := Int.mul_tdiv_add_tmod n d
        rw [mul_comm] at this
        omega
      rw [truncated_intCast, remainder]
      push_cast
      rfl
    have smaller : (n.tmod d).natAbs ≤ n.natAbs := by
      have magnitude : (n.tmod d).natAbs = n.natAbs % d.natAbs :=
        Int.natAbs_tmod n d
      rw [magnitude]
      exact Nat.mod_le _ _
    rw [value]
    exact ratFits_intCast (xFits.1.of_natAbs_le smaller)
  · rw [remRequests, if_neg fixnums] at few
    split at few
    · exact fits_of_remainderRequests few
    · exact fits_of_remainderRequests (allFit_append.mp few).2

/-- The division family is exact for a zero divisor; for another one, short
numbers given, if and only if the quotient does not wrap around and every
object requested on the way fits. -/
theorem divisionFamilyExact_iff (platform : Platform) (a b : ClNum)
    (aCanonical : a.Canonical platform) (bCanonical : b.Canonical platform)
    (short : b.toRat ≠ 0 → DivisionShort a.toRat b.toRat) :
    DivisionFamilyExact platform a b ↔ b.toRat = 0 ∨ (¬ RatQuotientWraps a.toRat b.toRat ∧
        DivisionFits platform a.toRat b.toRat) := by
  have xFits := aCanonical.ratFits
  have yFits := bCanonical.ratFits
  have aObject := aCanonical.eq_canonRat
  have bObject := bCanonical.eq_canonRat
  unfold DivisionFamilyExact RoundingExact
  generalize a.toRat = x at *
  generalize b.toRat = y at *
  subst aObject bObject
  by_cases zero : y = 0
  · subst zero
    simp only [true_or, iff_true, true_implies, ne_eq, not_true_eq_false, false_implies, and_true]
    exact ⟨fun mode => ⟨_, doRounding_zero mode xFits⟩, biMod_zero xFits,
      biRem_zero xFits⟩
  · obtain ⟨roundShort, modShort, remShort⟩ := short zero
    simp only [zero, false_implies, true_and, ne_eq, not_false_eq_true, true_implies, false_or]
    constructor
    · rintro ⟨rounds, ⟨modulus, modMade, -, -⟩, ⟨rem, remMade, -, -⟩⟩
      have noWrap : ¬ RatQuotientWraps x y := by
        intro wraps
        obtain ⟨q, r, made, -, -, quotient, -⟩ := rounds .truncate
        have wrapped := doRounding_wraps xFits yFits wraps made
        simp only at wrapped
        rw [Rounds, trunc_of_wraps wraps, wrapped, toInt_canon] at quotient
        exact absurd quotient (by decide)
      refine ⟨noWrap, fun mode => ?_, ?_, ?_⟩
      · obtain ⟨q, r, made, -⟩ := rounds mode
        rw [doRounding_eq xFits yFits zero noWrap (roundShort mode),
          allocAll_eq_ok_iff] at made
        exact made.1
      · rw [biMod_eq xFits yFits zero modShort, allocAll_eq_ok_iff] at modMade
        exact modMade.1
      · rw [biRem_eq xFits yFits zero remShort, allocAll_eq_ok_iff] at remMade
        exact remMade.1
    · rintro ⟨noWrap, roundFew, modFew, remFew⟩
      refine ⟨fun mode => ?_, ?_, ?_⟩
      · obtain ⟨qFits, rFits⟩ := rounded_fits (roundFew mode)
        refine ⟨canon (truncated x y + correction mode x y),
          canonRat (residue x y - correction mode x y * y), ?_,
          canonical_canon qFits, canonical_canonRat rFits, ?_, ?_⟩
        · rw [doRounding_eq xFits yFits zero noWrap (roundShort mode)]
          exact allocAll_of_le (roundFew mode)
        · rw [toInt_canon]
          exact rounds_correction zero mode
        · rw [toInt_canon, toRat_canonRat, residue]
          push_cast
          ring
      · rw [biMod_eq xFits yFits zero modShort]
        exact remainderExact_allocAll modFew (mod_fits yFits zero modFew)
      · rw [biRem_eq xFits yFits zero remShort, ← truncated_eq zero]
        exact remainderExact_allocAll remFew (rem_fits xFits remFew)

theorem short_of_small {z : Int} (small : z.natAbs < (2 ^ 16) ^ 4) : Short z :=
  lt_of_le_of_lt (limbCount_le small) (by norm_num)

theorem divisionShort_of_fixnums {n d : Int} (nRange : InFixnumRange n)
    (dRange : InFixnumRange d) : DivisionShort (n : ℚ) (d : ℚ) := by
  have remainder : n.tmod d = n - n.tdiv d * d := by
    have := Int.mul_tdiv_add_tmod n d
    rw [mul_comm] at this
    omega
  have product : (truncated (n : ℚ) (d : ℚ) : ℚ) * (d : ℚ) = ((n.tdiv d * d : Int) : ℚ) := by
    rw [truncated_intCast]
    push_cast
    rfl
  have leaves : residue (n : ℚ) (d : ℚ) = ((n.tmod d : Int) : ℚ) := by
    rw [residue, product, remainder]
    push_cast
    rfl
  have remRange := nRange.tmod (y := d)
  have double : ((n.tmod d : Int) : ℚ) + ((n.tmod d : Int) : ℚ) =
      ((n.tmod d + n.tmod d : Int) : ℚ) := by
    push_cast
    rfl
  simp only [InFixnumRange, clFixnumMin, clFixnumMax] at remRange dRange
  refine ⟨fun mode => ⟨Or.inl (by simp), Or.inl ⟨by simp, by
      rw [product]
      exact Rat.den_intCast _⟩, ?_, ?_⟩,
    fun proper => (proper (by simp)).elim, fun proper => (proper (by simp)).elim⟩
  · intro _ _
    rw [leaves, double]
    refine ⟨Or.inl (by simp), Or.inr ?_, Or.inr ?_⟩
    · rw [Rat.num_intCast]
      exact short_of_small (by omega)
    · rw [Rat.num_intCast]
      exact short_of_small (by omega)
  · intro _
    rw [leaves]
    split
    · exact Or.inl (by simp)
    · exact Or.inl (by simp)

/-- The operators on 7 and 2. -/
theorem divisionFamilyExact_seven_two :
    DivisionFamilyExact .m68k (.int (canon 7)) (.int (canon 2)) ↔ (ClNum.int (canon 2)).toRat = 0 ∨
        (¬ RatQuotientWraps (ClNum.int (canon 7)).toRat (ClNum.int (canon 2)).toRat ∧
          DivisionFits .m68k (ClNum.int (canon 7)).toRat (ClNum.int (canon 2)).toRat) :=
  divisionFamilyExact_iff .m68k (.int (canon 7)) (.int (canon 2)) trivial trivial
    (fun _ => divisionShort_of_fixnums (by decide) (by decide))

/-- The quotient of the most negative fixnum by `-1` wraps around. -/
theorem divisionFamily_most_negative_fixnum :
    doRounding .m68k .floor (.int (canon clFixnumMin)) (.int (canon (-1))) =
        .ok ⟨canon clFixnumMin, .int (canon (-2 ^ 31))⟩ ∧
      ¬ DivisionFamilyExact .m68k (.int (canon clFixnumMin)) (.int (canon (-1))) := by
  have wrapped : doRounding .m68k .floor (.int (canon clFixnumMin))
      (.int (canon (-1))) = .ok ⟨canon clFixnumMin, .int (canon (-2 ^ 31))⟩ := by
    decide +kernel
  refine ⟨wrapped, ?_⟩
  rintro ⟨-, exact⟩
  have nonzero : (ClNum.int (canon (-1))).toRat ≠ 0 := by
    rw [ClNum.toRat, toInt_canon]
    norm_num
  obtain ⟨q, r, made, -, -, quotient, -⟩ := (exact nonzero).1 .floor
  rw [wrapped] at made
  cases made
  simp only [Rounds, ClNum.toRat, toInt_canon] at quotient
  norm_num [clFixnumMin] at quotient

end ClAmiga.Number
