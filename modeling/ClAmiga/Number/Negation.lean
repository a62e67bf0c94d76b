import ClAmiga.Number.Division

/-!
# How far negation and absolute value are exact

`CL_Bignum` keeps its length in 32 bits, but `cl_arith_negate` and
`cl_arith_abs` copy it through a `uint16_t`.  The object they make then has
only the low limbs of a longer operand, so the exact result comes back for the
integers of fewer than `2 ^ 16` limbs and for no other.
-/

namespace ClAmiga.Number

open Radix Bignum

variable {platform : Platform}

/-- What negation and absolute value owe an integer: the exact results, and
the integer itself after two negations. -/
structure NegatesExactly (platform : Platform) (a : ClInt) : Prop where
  negate : clArithNegate platform a = .ok (canon (-a.toInt))
  abs : clArithAbs platform a = .ok (canon |a.toInt|)
  involution : (do
    let negated ← clArithNegate platform a
    clArithNegate platform negated) = .ok a

theorem negatesExactly_of_short {a : ClInt} (canonical : a.Canonical platform)
    (short : limbCount a.toInt < 2 ^ 16) : NegatesExactly platform a := by
  have negated := clArithNegate_eq canonical short
  have fits : Fits platform (-a.toInt) := by
    rw [Fits, limbCount_neg]
    exact canonical.fits
  refine ⟨negated, clArithAbs_eq canonical (Or.inr short), ?_⟩
  rw [negated]
  change clArithNegate platform (canon (-a.toInt)) = .ok a
  have shortNegation : limbCount (canon (-a.toInt)).toInt < 2 ^ 16 := by
    rw [toInt_canon, limbCount_neg]
    exact short
  rw [clArithNegate_eq (canonical_canon fits) shortNegation, toInt_canon,
    Int.neg_neg, ← canonical.eq_canon]

theorem value_take_lt {limbs : List Limb} (normalized : Normalized limbs)
    {count : Nat} (fewer : count < limbs.length) :
    value (limbs.take count) < value limbs := by
  have bound := value_lt (limbs.take count)
  rw [List.length_take, Nat.min_eq_left (Nat.le_of_lt fewer)] at bound
  have power : (2 ^ 16) ^ count ≤ (2 ^ 16) ^ (limbs.length - 1) :=
    Nat.pow_le_pow_right (by omega) (by omega)
  exact lt_of_lt_of_le bound (power.trans normalized.value_ge)

theorem natAbs_toInt_normalize (sign : Bool) (limbs : List Limb) :
    (clBignumNormalize (.bignum sign limbs)).toInt.natAbs = value limbs := by
  by_cases nonempty : limbs = []
  · subst nonempty
    cases sign <;> rfl
  · rw [clBignumNormalize_eq sign nonempty, toInt_canon, natAbs_signed]

theorem clArithNegate_long {a : ClInt} (canonical : a.Canonical platform)
    (long : 2 ^ 16 ≤ limbCount a.toInt) :
    ∃ object, clArithNegate platform a = .ok object ∧ object.toInt.natAbs < a.toInt.natAbs := by
  cases a with
  | fixnum word =>
      have few : limbCount word.toInt ≤ 2 := by
        have range := word_range word
        simp only [InFixnumRange, clFixnumMin, clFixnumMax] at range
        exact limbCount_le (by omega)
      rw [ClInt.toInt] at long
      omega
  | bignum sign limbs =>
      obtain ⟨normalized, few, _⟩ := canonical
      rw [ClInt.toInt, ← length_eq_limbCount normalized] at long
      have fewer : limbs.length % 2 ^ 16 < limbs.length :=
        lt_of_lt_of_le (Nat.mod_lt _ (by omega)) long
      have stored : (limbs.take (limbs.length % 2 ^ 16)).length ≤ maxLimbs platform :=
        (List.length_take_le' _ _).trans few
      have made : clMakeBignum platform (!sign) (limbs.take (limbs.length % 2 ^ 16)) =
            .ok (.bignum (!sign) (limbs.take (limbs.length % 2 ^ 16))) := by
        rw [clMakeBignum, (requestError_eq_none_iff platform _).mpr stored]
      refine ⟨clBignumNormalize (.bignum (!sign) (limbs.take (limbs.length % 2 ^ 16))), ?_, ?_⟩
      · simp only [clArithNegate, made]
        rfl
      · rw [natAbs_toInt_normalize, ClInt.toInt, natAbs_signed]
        exact value_take_lt normalized fewer

/-- Negation and absolute value are exact, and negation undoes itself, on the
integers of fewer than `2 ^ 16` limbs and on no other. -/
theorem negatesExactly_iff (platform : Platform) (a : ClInt) (canonical : a.Canonical platform) :
    NegatesExactly platform a ↔ limbCount a.toInt < 2 ^ 16 := by
  constructor
  · intro exactly
    by_contra long
    obtain ⟨object, negated, smaller⟩ :=
      clArithNegate_long canonical (Nat.le_of_not_lt long)
    have same : object = canon (-a.toInt) :=
      Except.ok.inj (negated.symm.trans exactly.negate)
    rw [same, toInt_canon, Int.natAbs_neg] at smaller
    exact Nat.lt_irrefl _ smaller
  · exact negatesExactly_of_short canonical

/-- The least fixnum, whose negation is a bignum. -/
theorem negatesExactly_iff_minimum : NegatesExactly .m68k (canon clFixnumMin) ↔
      limbCount (canon clFixnumMin).toInt < 2 ^ 16 :=
  negatesExactly_iff .m68k (canon clFixnumMin) trivial

/-- The 65536-limb bignum of ones is not negated exactly. -/
theorem not_negatesExactly_allOnes : (allOnes (2 ^ 16)).Canonical (.host true) ∧
      ¬ NegatesExactly (.host true) (allOnes (2 ^ 16)) := by
  have canonical : (allOnes (2 ^ 16)).Canonical (.host true) :=
    canonical_allOnes (by omega) (by simp only [maxLimbs]; omega)
  refine ⟨canonical, fun exactly => ?_⟩
  have long : 2 ^ 16 ≤ limbCount (allOnes (2 ^ 16)).toInt := by
    have count := length_eq_limbCount canonical.1 false
    rw [List.length_replicate] at count
    exact count.le
  obtain ⟨object, negated, smaller⟩ := clArithNegate_long canonical long
  have same : object = canon (-(allOnes (2 ^ 16)).toInt) :=
    Except.ok.inj (negated.symm.trans exactly.negate)
  rw [same, toInt_canon, Int.natAbs_neg] at smaller
  exact Nat.lt_irrefl _ smaller

end ClAmiga.Number
