import ClAmiga.Number.RatioSpec

/-!
# Powers of rationals

`cl_arith_expt` squares and multiplies; it squares the base once more after the last
bit of the exponent.  `bi_expt_float` takes ratios and negative exponents back to it.
-/

namespace ClAmiga.Number

open Bignum

/-- The loop of `cl_arith_expt`, for at most so many rounds. -/
def exptLoop (platform : Platform) : Nat → ClInt → ClInt → ClInt → Result ClInt
  | 0, _, _, _ => .error .undefined
  | rounds + 1, result, base, exp =>
      if clArithZerop exp then .ok result
      else do
        let result ← if clArithEvenp exp then .ok result else clArithMul platform result base
        let base ← clArithMul platform base base
        let exp ← clArithTruncate platform exp (clMakeFixnum 2)
        exptLoop platform rounds result base exp

def clArithExpt (platform : Platform) (base exp : ClInt) : Result ClInt :=
  if clArithMinusp exp then
    if clArithCompare base (clMakeFixnum 1) = 0 then .ok (clMakeFixnum 1)
    else if clArithCompare base (clMakeFixnum (-1)) = 0 then
      .ok (if clArithEvenp exp then clMakeFixnum 1 else clMakeFixnum (-1))
    else .ok (clMakeFixnum 0)
  else if clArithZerop exp then .ok (clMakeFixnum 1)
  else exptLoop platform (exp.toInt.natAbs + 1) (clMakeFixnum 1) base exp

def exptOfZero : ClErr :=
  .divZero "EXPT: 0 raised to a non-positive real-part power"

/-- `bi_expt_float` on a rational base and an integer exponent. -/
def biExptFloat (platform : Platform) (base : ClNum) (exp : ClInt) : Result ClNum :=
  match base, clArithMinusp exp with
  | .int base, false => .int <$> clArithExpt platform base exp
  | base, minus =>
      if base.clArithZerop then
        if !clArithZerop exp && !minus then base.clArithMul platform (.int exp)
        else if minus then .error exptOfZero
        else do
          let product ← base.clArithMul platform (.int (clMakeFixnum 0))
          (ClNum.int (clMakeFixnum 1)).clArithAdd platform product
      else
        match base with
        | .ratio num den => do
            let (num, den) := if minus then (den, num) else (num, den)
            let exp ← if minus then clArithNegate platform exp else .ok exp
            let rn ← clArithExpt platform num exp
            let rd ← clArithExpt platform den exp
            clMakeRatioNormalized platform rn rd
        | .int base => do
            let exp ← clArithNegate platform exp
            let powered ← clArithExpt platform base exp
            clMakeRatioNormalized platform (clMakeFixnum 1) powered

variable {platform : Platform}

/-- The integer objects the loop requests for `r * b ^ n`. -/
def powRequests (r b : Int) (n : Nat) : List Nat :=
  if n = 0 then []
  else if n % 2 = 0 then mulLimbs b b :: powRequests r (b * b) (n / 2)
  else mulLimbs r b :: mulLimbs b b :: powRequests (r * b) (b * b) (n / 2)
termination_by n
decreasing_by all_goals omega

theorem pow_halves (b : Int) (n : Nat) : b ^ n = b ^ (n % 2) * (b * b) ^ (n / 2) := by
  rw [← pow_two, ← pow_mul, ← pow_add, Nat.mod_add_div]

theorem clArithTruncate_two {n : Nat} (fits : Fits platform (n : Int)) :
    clArithTruncate platform (canon n) (clMakeFixnum 2) = .ok (canon ((n / 2 : Nat) : Int)) := by
  have twoFits : Fits platform 2 := Fits.of_range (by decide)
  have result := clArithTruncate_eq (canonical_canon fits) (canonical_canon twoFits)
  rw [toInt_canon, toInt_canon, Int.tdiv_eq_ediv_of_nonneg (Int.natCast_nonneg n)] at result
  exact result (by omega) (by rintro ⟨-, minusOne⟩; omega)

/-- The loop ends with `r * b ^ n`, and its requests bound that result. -/
theorem exptLoop_eq (rounds : Nat) {r b : Int} {n : Nat} (rFits : Fits platform r)
    (bFits : Fits platform b) (nFits : Fits platform (n : Int)) (enough : n < rounds) :
    exptLoop platform rounds (canon r) (canon b) (canon n) =
        allocAll platform (powRequests r b n) (canon (r * b ^ n)) ∧
      ((∀ limbs ∈ powRequests r b n, limbs ≤ maxLimbs platform) → Fits platform (r * b ^ n)) := by
  induction rounds generalizing r b n with
  | zero => omega
  | succ rounds induction =>
      have halfFits : Fits platform ((n / 2 : Nat) : Int) :=
        nFits.of_natAbs_le (by omega)
      rw [exptLoop, clArithZerop_eq (canonical_canon nFits), clArithEvenp_eq, toInt_canon,
        powRequests, clArithMul_canon rFits bFits, clArithMul_canon bFits bFits,
        clArithTruncate_two nFits]
      by_cases zero : n = 0
      · subst zero
        simpa [allocAll] using rFits
      · have positive : ¬ (n : Int) = 0 := by exact_mod_cast zero
        rw [if_neg zero, if_neg (by simpa using positive), pow_halves b n]
        rcases Nat.mod_two_eq_zero_or_one n with even | odd
        · rw [if_pos (by simp; omega), if_pos even, even, pow_zero, one_mul]
          constructor
          · apply bind_allocWith
            intro square
            exact (induction rFits (fits_mul square) halfFits (by omega)).1
          · intro few
            obtain ⟨square, few⟩ := List.forall_mem_cons.mp few
            exact (induction rFits (fits_mul square) halfFits (by omega)).2 few
        · rw [if_neg (by simp; omega), if_neg (by omega), odd, pow_one, ← mul_assoc]
          constructor
          · apply bind_allocWith
            intro product
            apply bind_allocWith
            intro square
            exact (induction (fits_mul product) (fits_mul square) halfFits (by omega)).1
          · intro few
            obtain ⟨product, few⟩ := List.forall_mem_cons.mp few
            obtain ⟨square, few⟩ := List.forall_mem_cons.mp few
            exact (induction (fits_mul product) (fits_mul square) halfFits (by omega)).2 few

theorem clArithExpt_eq {b : Int} {n : Nat} (bFits : Fits platform b)
    (nFits : Fits platform (n : Int)) :
    clArithExpt platform (canon b) (canon n) =
      allocAll platform (powRequests 1 b n) (canon (b ^ n)) := by
  have loop := (exptLoop_eq (r := 1) (n + 1) (Fits.of_range (by decide)) bFits nFits (by omega)).1
  rw [one_mul] at loop
  rw [clArithExpt, clArithMinusp_eq (canonical_canon nFits),
    clArithZerop_eq (canonical_canon nFits), toInt_canon, if_neg (by simp), Int.natAbs_natCast]
  split
  · rename_i zero
    obtain rfl : n = 0 := by simpa using zero
    rw [powRequests, if_pos rfl, pow_zero]
    rfl
  · exact loop

theorem fits_pow {b : Int} {n : Nat} (bFits : Fits platform b) (nFits : Fits platform (n : Int))
    (few : ∀ limbs ∈ powRequests 1 b n, limbs ≤ maxLimbs platform) : Fits platform (b ^ n) := by
  have fits :=
    (exptLoop_eq (r := 1) (n + 1) (Fits.of_range (by decide)) bFits nFits (by omega)).2 few
  rwa [one_mul] at fits

theorem overPower_eq {r q : Int} {n : Nat} (rFits : Fits platform r) (qFits : Fits platform q)
    (nFits : Fits platform (n : Int)) (nonzero : q ≠ 0) (short : NormShort r (q ^ n)) :
    (do
      let powered ← clArithExpt platform (canon q) (canon n)
      clMakeRatioNormalized platform (canon r) powered) =
      allocAll platform (powRequests 1 q n) (canonRat ((r : ℚ) / ((q ^ n : Int) : ℚ))) := by
  rw [clArithExpt_eq qFits nFits]
  conv_rhs => rw [← List.append_nil (powRequests 1 q n)]
  apply bind_allocAll
  intro few
  exact clMakeRatioNormalized_eq rFits (fits_pow qFits nFits few) (pow_ne_zero n nonzero) short

/-- Both powers, then the normalization. -/
theorem powers_eq {p q : Int} {n : Nat} (pFits : Fits platform p) (qFits : Fits platform q)
    (nFits : Fits platform (n : Int)) (nonzero : q ≠ 0) (short : NormShort (p ^ n) (q ^ n)) :
    (do
      let rn ← clArithExpt platform (canon p) (canon n)
      let rd ← clArithExpt platform (canon q) (canon n)
      clMakeRatioNormalized platform rn rd) =
      allocAll platform (powRequests 1 p n ++ powRequests 1 q n)
        (canonRat (((p ^ n : Int) : ℚ) / ((q ^ n : Int) : ℚ))) := by
  rw [clArithExpt_eq pFits nFits]
  apply bind_allocAll
  intro few
  exact overPower_eq (fits_pow pFits nFits few) qFits nFits nonzero short

/-- The integer objects requested for `x ^ n`. -/
def exptRequests (x : ℚ) (n : Int) : List Nat :=
  if x.den = 1 then powRequests 1 x.num n.natAbs
  else if n < 0 then powRequests 1 x.den n.natAbs ++ powRequests 1 x.num n.natAbs
  else powRequests 1 x.num n.natAbs ++ powRequests 1 x.den n.natAbs

/-- The lengths that `cl_arith_negate` and `cl_arith_abs` truncate are out of reach. -/
def ExptShort (x : ℚ) (n : Int) : Prop :=
  if n < 0 then Short n ∧ NormShort (x.den ^ n.natAbs) (x.num ^ n.natAbs)
  else x.den = 1 ∨ NormShort (x.num ^ n.natAbs) (x.den ^ n.natAbs)

theorem zpow_eq_cross (x : ℚ) (n : Int) : x ^ n =
      if n < 0 then ((x.den ^ n.natAbs : Int) : ℚ) / ((x.num ^ n.natAbs : Int) : ℚ)
      else ((x.num ^ n.natAbs : Int) : ℚ) / ((x.den ^ n.natAbs : Int) : ℚ) := by
  have parts : x = (x.num : ℚ) / x.den := (Rat.num_div_den x).symm
  split
  · rename_i negative
    obtain ⟨k, rfl⟩ : ∃ k : Nat, n = -(k : Int) := ⟨n.natAbs, by omega⟩
    rw [zpow_neg, zpow_natCast, Int.natAbs_neg, Int.natAbs_natCast]
    nth_rewrite 1 [parts]
    push_cast
    rw [div_pow, inv_div]
  · rename_i nonneg
    obtain ⟨k, rfl⟩ : ∃ k : Nat, n = (k : Int) := ⟨n.natAbs, by omega⟩
    rw [zpow_natCast, Int.natAbs_natCast]
    nth_rewrite 1 [parts]
    push_cast
    rw [div_pow]

theorem biExptFloat_eq {x : ℚ} {n : Int} (xFits : RatFits platform x) (nFits : Fits platform n)
    (defined : x ≠ 0 ∨ 0 ≤ n) (short : ExptShort x n) :
    biExptFloat platform (canonRat x) (canon n) =
      allocAll platform (exptRequests x n) (canonRat (x ^ n)) := by
  have sizeFits : Fits platform (n.natAbs : Int) := nFits.of_natAbs_le (by omega)
  have denNonzero : (x.den : Int) ≠ 0 := by exact_mod_cast x.den_nz
  rw [zpow_eq_cross, exptRequests, canonRat]
  unfold ExptShort at short
  by_cases negative : n < 0
  · rw [if_pos negative] at short ⊢
    have nonzero : x.num ≠ 0 := Rat.num_ne_zero.mpr (defined.resolve_right (by omega))
    have minus : clArithMinusp (canon n) = true := by
      rw [clArithMinusp_eq (canonical_canon nFits), toInt_canon]
      exact decide_eq_true negative
    have negate : clArithNegate platform (canon n) = .ok (canon (n.natAbs : Int)) := by
      rw [clArithNegate_eq (canonical_canon nFits) (by rw [toInt_canon]; exact short.1),
        toInt_canon]
      congr 2
      omega
    have zerop : clArithZerop (canon x.num) = false := by
      rw [clArithZerop_eq (canonical_canon xFits.1), toInt_canon]
      exact decide_eq_false nonzero
    split
    · rename_i integral
      rw [integral] at short ⊢
      simp only [Nat.cast_one, one_pow] at short ⊢
      simp only [biExptFloat, minus, ClNum.clArithZerop, zerop, negate, Bool.false_eq_true,
        if_false]
      exact overPower_eq (Fits.of_range (by decide)) xFits.1 sizeFits nonzero short.2
    · simp only [biExptFloat, minus, ClNum.clArithZerop, clRatioZerop, zerop, negate,
        Bool.false_eq_true, if_false, if_true]
      exact powers_eq xFits.2 xFits.1 sizeFits nonzero short.2
  · rw [if_neg negative] at short ⊢
    have plus : clArithMinusp (canon n) = false := by
      rw [clArithMinusp_eq (canonical_canon nFits), toInt_canon]
      exact decide_eq_false negative
    have size : (n.natAbs : Int) = n := by omega
    split
    · rename_i integral
      have run := clArithExpt_eq xFits.1 sizeFits
      rw [size] at run
      simp only [biExptFloat, plus, run, integral, Nat.cast_one, one_pow, Int.cast_one, div_one,
        canonRat_intCast]
      rw [map_eq_pure_bind]
      exact bind_allocAll_pure ClNum.int
    · rename_i proper
      have nonzero : x.num ≠ 0 := by
        intro zero
        exact proper (by rw [Rat.num_eq_zero.mp zero]; rfl)
      have zerop : clArithZerop (canon x.num) = false := by
        rw [clArithZerop_eq (canonical_canon xFits.1), toInt_canon]
        exact decide_eq_false nonzero
      simp only [biExptFloat, plus, ClNum.clArithZerop, clRatioZerop, zerop, Bool.false_eq_true,
        if_false]
      have run := powers_eq xFits.1 xFits.2 sizeFits denNonzero (short.resolve_left proper)
      rwa [size] at run

theorem ratFits_zpow {x : ℚ} {n : Int} (xFits : RatFits platform x) (nFits : Fits platform n)
    (defined : x ≠ 0 ∨ 0 ≤ n)
    (few : ∀ limbs ∈ exptRequests x n, limbs ≤ maxLimbs platform) : RatFits platform (x ^ n) := by
  have sizeFits : Fits platform (n.natAbs : Int) := nFits.of_natAbs_le (by omega)
  have powers : Fits platform (x.num ^ n.natAbs) ∧ Fits platform ((x.den : Int) ^ n.natAbs) := by
    unfold exptRequests at few
    split at few
    · rename_i integral
      rw [integral, Nat.cast_one, one_pow]
      exact ⟨fits_pow xFits.1 sizeFits few, Fits.of_range (by decide)⟩
    · split at few
      · obtain ⟨den, num⟩ := List.forall_mem_append.mp few
        exact ⟨fits_pow xFits.1 sizeFits num, fits_pow xFits.2 sizeFits den⟩
      · obtain ⟨num, den⟩ := List.forall_mem_append.mp few
        exact ⟨fits_pow xFits.1 sizeFits num, fits_pow xFits.2 sizeFits den⟩
  rw [zpow_eq_cross]
  split
  · rename_i negative
    have nonzero : x.num ≠ 0 := Rat.num_ne_zero.mpr (defined.resolve_right (by omega))
    exact ratFits_div powers.2 powers.1 (pow_ne_zero _ nonzero)
  · exact ratFits_div powers.1 powers.2 (pow_ne_zero _ (by exact_mod_cast x.den_nz))

/-- On a canonical rational base and integer exponent EXPT is exact and canonical up to
the storage limit, also for a negative exponent; only zero has no negative power. -/
theorem biExptFloat_exact (platform : Platform) (base : ClNum) (exp : ClInt)
    (baseCanonical : base.Canonical platform) (expCanonical : exp.Canonical platform)
    (x : ℚ) (n : Int) (baseValue : base.toRat = x) (expValue : exp.toInt = n) :
    (x = 0 → n < 0 → biExptFloat platform base exp = .error exptOfZero) ∧
      (x ≠ 0 ∨ 0 ≤ n → ExptShort x n →
        ExactOrRequestError platform (biExptFloat platform base exp) (x ^ n)
          (exptRequests x n)) := by
  have xFits := baseCanonical.ratFits
  have nFits := expCanonical.fits
  rw [baseCanonical.eq_canonRat, expCanonical.eq_canon]
  rw [baseValue] at xFits ⊢
  rw [expValue] at nFits ⊢
  constructor
  · rintro rfl negative
    have minus : clArithMinusp (canon n) = true := by
      rw [clArithMinusp_eq (canonical_canon nFits), toInt_canon]
      exact decide_eq_true negative
    have zero : canonRat 0 = .int (canon 0) := canonRat_intCast 0
    have zerop : clArithZerop (canon 0) = true := rfl
    simp [biExptFloat, zero, minus, ClNum.clArithZerop, zerop]
  · intro defined short
    rw [biExptFloat_eq xFits nFits defined short]
    exact exactOrRequestError_allocAll (ratFits_zpow xFits nFits defined)

/-- Two thirds to the power of minus three. -/
theorem biExptFloat_exact_two_thirds : ExactOrRequestError .m68k
      (biExptFloat .m68k (.ratio (canon 2) (canon 3)) (canon (-3)))
      ((2 / 3) ^ (-3 : Int)) (exptRequests (2 / 3) (-3)) := by
  refine (biExptFloat_exact .m68k (.ratio (canon 2) (canon 3)) (canon (-3)) ?_ ?_ (2 / 3)
    (-3) ?_ (toInt_canon _)).2 (.inl (by norm_num)) ?_
  · exact ⟨trivial, trivial, by decide, by decide⟩
  · exact canonical_canon (Fits.of_range (by decide))
  · simp [ClNum.toRat]
  · have num : (2 / 3 : ℚ).num = 2 := by norm_num
    rw [ExptShort, if_pos (by decide), num]
    exact ⟨by rw [Short]; decide, .inr (by norm_num)⟩

end ClAmiga.Number
