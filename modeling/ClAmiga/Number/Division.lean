import ClAmiga.Number.Arithmetic

/-!
# Truncation, modulus, negation and gcd of integers

The remaining integer functions that ratios and the rounding family build on.
Three details of the source decide what they compute.  The fixnum path of
`cl_arith_truncate` passes the quotient to `CL_MAKE_FIXNUM` unchecked, so the
one quotient that is not a fixnum wraps around.  `cl_arith_negate` and
`cl_arith_abs` keep the length of a bignum in a `uint16_t`, so a bignum of
`2 ^ 16` limbs or more loses its upper limbs there.
-/

namespace ClAmiga.Number

open Radix Bignum

variable {platform : Platform}

def divisionByZero : ClErr :=
  .divZero "Division by zero"

def clArithTruncate (platform : Platform) (a b : ClInt) : Result ClInt :=
  match a, b with
  | .fixnum va, .fixnum vb =>
      if vb.toInt = 0 then .error divisionByZero
      else .ok (clMakeFixnum (va.toInt.tdiv vb.toInt))
  | _, _ =>
      let (aSign, al) := toLimbs a
      let (bSign, bl) := toLimbs b
      if bl = [0] then .error divisionByZero
      else if bignumCompareMag al bl = .lt then .ok (clMakeFixnum 0)
      else
        match bignumDivmod al bl with
        | none => .error .undefined
        | some (quot, _) => bignumFromLimbs platform quot (aSign != bSign)

/-- The last part of `cl_arith_mod`: a nonzero remainder takes the sign of the
divisor. -/
def modAdjust (platform : Platform) (rem b : ClInt) : Result ClInt :=
  if clArithZerop rem then .ok rem
  else if clArithMinusp rem ≠ clArithMinusp b then clArithAdd platform rem b
  else .ok rem

def clArithMod (platform : Platform) (a b : ClInt) : Result ClInt :=
  match a, b with
  | .fixnum va, .fixnum vb =>
      if vb.toInt = 0 then .error divisionByZero
      else
        let r := va.toInt.tmod vb.toInt
        if r ≠ 0 ∧ decide (r < 0) ≠ decide (vb.toInt < 0) then
          .ok (clMakeFixnum (r + vb.toInt))
        else .ok (clMakeFixnum r)
  | _, _ =>
      let (aSign, al) := toLimbs a
      let (_, bl) := toLimbs b
      if bl = [0] then .error divisionByZero
      else if bignumCompareMag al bl = .lt then modAdjust platform a b
      else
        match bignumDivmod al bl with
        | none => .error .undefined
        | some (_, rem) => do
            let remObj ← bignumFromLimbs platform (strip rem) aSign
            modAdjust platform remObj b

def clArithNegate (platform : Platform) : ClInt → Result ClInt
  | .fixnum word =>
      if word.toInt = clFixnumMin then
        bignumFromUint32 platform 0x40000000 false
      else .ok (clMakeFixnum (-word.toInt))
  | .bignum sign limbs => do
      -- `uint16_t len = bn->length`
      let obj ← clMakeBignum platform (!sign)
        (limbs.take (limbs.length % 2 ^ 16))
      return clBignumNormalize obj

def clArithAbs (platform : Platform) : ClInt → Result ClInt
  | .fixnum word =>
      if word.toInt = clFixnumMin then
        bignumFromUint32 platform 0x40000000 false
      else
        .ok (clMakeFixnum (if word.toInt < 0 then -word.toInt else word.toInt))
  | .bignum sign limbs =>
      if sign = false then .ok (.bignum sign limbs)
      else clMakeBignum platform false (limbs.take (limbs.length % 2 ^ 16))

def clArithEvenp : ClInt → Bool
  | .fixnum word => decide (word.toInt % 2 = 0)
  | .bignum _ limbs => decide ((limbs.getD 0 0).toNat % 2 = 0)

def gcdRem (platform : Platform) (a b : ClInt) : Result ClInt :=
  match a, b with
  | .fixnum va, .fixnum vb => .ok (clMakeFixnum (va.toInt.tmod vb.toInt))
  | _, _ =>
      let al := (toLimbs a).2
      let bl := (toLimbs b).2
      if bignumCompareMag al bl = .lt then .ok a
      else
        match bignumDivmod al bl with
        | none => .error .undefined
        | some (_, rem) => bignumFromLimbs platform (strip rem) false

/-- The loop of `cl_arith_gcd`, for at most so many rounds. -/
def gcdLoop (platform : Platform) : Nat → ClInt → ClInt → Result ClInt
  | 0, _, _ => .error .undefined
  | rounds + 1, a, b =>
      if clArithZerop b then .ok a
      else do
        let temp ← gcdRem platform a b
        gcdLoop platform rounds b temp

def clArithGcd (platform : Platform) (a b : ClInt) : Result ClInt := do
  let a ← clArithAbs platform a
  let b ← clArithAbs platform b
  if clArithZerop a then return b
  else if clArithZerop b then return a
  else gcdLoop platform (b.toInt.natAbs + 1) a b

theorem clArithZerop_eq {a : ClInt} (canonical : a.Canonical platform) :
    clArithZerop a = decide (a.toInt = 0) := by
  cases a with
  | fixnum word => rfl
  | bignum sign limbs =>
      obtain ⟨normalized, _, _⟩ := canonical
      have positive := normalized.value_pos
      have nonzero : signed sign (value limbs) ≠ 0 := by
        cases sign <;> simp [signed] <;> omega
      simp [clArithZerop, ClInt.toInt, nonzero]

theorem clArithMinusp_eq {a : ClInt} (canonical : a.Canonical platform) :
    clArithMinusp a = decide (a.toInt < 0) := by
  cases a with
  | fixnum word => rfl
  | bignum sign limbs =>
      obtain ⟨normalized, _, _⟩ := canonical
      rw [Bool.eq_iff_iff, decide_eq_true_iff, ClInt.toInt, signed_neg_iff normalized.value_pos]
      rfl

theorem value_mod_two (limbs : List Limb) : value limbs % 2 = (limbs.getD 0 0).toNat % 2 := by
  cases limbs with
  | nil => rfl
  | cons limb limbs =>
      rw [value_cons, List.getD_cons_zero]
      omega

theorem clArithEvenp_eq (a : ClInt) : clArithEvenp a = decide (a.toInt % 2 = 0) := by
  cases a with
  | fixnum word => rfl
  | bignum sign limbs =>
      have parity := value_mod_two limbs
      simp only [clArithEvenp, ClInt.toInt, ← parity]
      cases sign <;> simp only [signed, Bool.false_eq_true, if_false, if_true] <;>
        congr 1 <;> simp only [eq_iff_iff] <;> omega

theorem signed_tdiv (aSign bSign : Bool) (left right : Nat) :
    signed (aSign != bSign) (left / right) = (signed aSign left).tdiv (signed bSign right) := by
  have quotient : ((left / right : Nat) : Int) = (left : Int).tdiv right :=
    (Int.ofNat_tdiv left right).symm
  cases aSign <;> cases bSign <;>
    simp [signed, quotient, Int.neg_tdiv, Int.tdiv_neg]

theorem signed_tmod (aSign bSign : Bool) (left right : Nat) : signed aSign (left % right) =
      (signed aSign left).tmod (signed bSign right) := by
  have remainder : ((left % right : Nat) : Int) = (left : Int).tmod right :=
    (Int.ofNat_tmod left right).symm
  cases aSign <;> cases bSign <;>
    simp [signed, remainder, Int.neg_tmod, Int.tmod_neg]

/-- The one pair of fixnums whose quotient is not a fixnum. -/
def QuotientWraps (x y : Int) : Prop :=
  x = clFixnumMin ∧ y = -1

theorem InFixnumRange.tdiv {x y : Int} (xRange : InFixnumRange x)
    (exact : ¬ QuotientWraps x y) : InFixnumRange (x.tdiv y) := by
  simp only [QuotientWraps, clFixnumMin] at exact
  have magnitude : (x.tdiv y).natAbs = x.natAbs / y.natAbs := Int.natAbs_tdiv x y
  have bound : x.natAbs / y.natAbs ≤ x.natAbs := Nat.div_le_self _ _
  simp only [InFixnumRange, clFixnumMin, clFixnumMax] at xRange ⊢
  by_cases minimal : x = -0x40000000
  · have notMinusOne : y ≠ -1 := fun equality => exact ⟨minimal, equality⟩
    by_cases large : 2 ≤ y.natAbs
    · have half : x.natAbs / y.natAbs ≤ x.natAbs / 2 :=
        Nat.div_le_div_left large (by omega)
      omega
    · have cases : y = 0 ∨ y = 1 := by omega
      rcases cases with rfl | rfl
      · simp
      · rw [Int.tdiv_one]
        omega
  · omega

theorem InFixnumRange.tmod {x y : Int} (xRange : InFixnumRange x) : InFixnumRange (x.tmod y) := by
  have magnitude : (x.tmod y).natAbs = x.natAbs % y.natAbs := Int.natAbs_tmod x y
  have bound : x.natAbs % y.natAbs ≤ x.natAbs := Nat.mod_le _ _
  simp only [InFixnumRange, clFixnumMin, clFixnumMax] at xRange ⊢
  by_cases negative : x < 0
  · have sign : x.tmod y ≤ 0 := by
      have := Int.neg_tmod (-x) y
      have nonneg := Int.tmod_nonneg y (show 0 ≤ -x by omega)
      rw [Int.neg_neg] at this
      omega
    omega
  · have sign := Int.tmod_nonneg y (show 0 ≤ x by omega)
    omega

/-- What the magnitude code of truncation and modulus sees of two canonical
operands that are not both fixnums. -/
structure LimbDivision (a b : ClInt) : Prop where
  aTrimmed : Trimmed (toLimbs a).2
  bTrimmed : Trimmed (toLimbs b).2
  aValue : signed (toLimbs a).1 (value (toLimbs a).2) = a.toInt
  bValue : signed (toLimbs b).1 (value (toLimbs b).2) = b.toInt

variable {a b : ClInt}

namespace LimbDivision

theorem of_canonical (aCanonical : a.Canonical platform)
    (bCanonical : b.Canonical platform) : LimbDivision a b := by
  obtain ⟨aTrimmed, aValue, _⟩ := toLimbs_spec aCanonical
  obtain ⟨bTrimmed, bValue, _⟩ := toLimbs_spec bCanonical
  exact ⟨aTrimmed, bTrimmed, aValue, bValue⟩

variable {a b : ClInt} (limbs : LimbDivision a b)

include limbs

theorem divisor_zero_iff : (toLimbs b).2 = [0] ↔ b.toInt = 0 := by
  rw [← limbs.bValue]
  constructor
  · intro zero
    rw [zero]
    simp [signed]
  · intro zero
    have valueZero : value (toLimbs b).2 = 0 := by
      cases sign : (toLimbs b).1 <;> simp [sign, signed] at zero <;> omega
    exact limbs.bTrimmed.eq_of_value_eq (trimmed_singleton 0)
      (by simpa using valueZero)

theorem compare_lt_iff : bignumCompareMag (toLimbs a).2 (toLimbs b).2 = .lt ↔
    a.toInt.natAbs < b.toInt.natAbs := by
  rw [bignumCompareMag, compareLimbs_eq limbs.aTrimmed limbs.bTrimmed,
    Nat.compare_eq_lt, ← limbs.aValue, ← limbs.bValue, natAbs_signed,
    natAbs_signed]

/-- Past the zero and order tests, the limb division runs on operands it is
defined for. -/
theorem divmod (nonzero : b.toInt ≠ 0) (large : ¬ a.toInt.natAbs < b.toInt.natAbs) :
    ∃ quot rem, bignumDivmod (toLimbs a).2 (toLimbs b).2 = some (quot, rem) ∧
      Trimmed quot ∧ rem ≠ [] ∧
      value quot = a.toInt.natAbs / b.toInt.natAbs ∧
      value rem = a.toInt.natAbs % b.toInt.natAbs := by
  have aMagnitude : value (toLimbs a).2 = a.toInt.natAbs := by
    rw [← limbs.aValue, natAbs_signed]
  have bMagnitude : value (toLimbs b).2 = b.toInt.natAbs := by
    rw [← limbs.bValue, natAbs_signed]
  have normalized : Normalized (toLimbs b).2 :=
    limbs.bTrimmed.normalized_of_value_pos (by omega)
  have longEnough : (toLimbs b).2.length ≤ (toLimbs a).2.length := by
    by_contra longer
    have := limbs.aTrimmed.value_lt_of_length_lt limbs.bTrimmed (by omega)
    omega
  obtain ⟨quot, rem, result, quotTrimmed, remLength, quotValue, remValue⟩ :=
    bignumDivmod_spec normalized longEnough
  rw [aMagnitude, bMagnitude] at quotValue remValue
  refine ⟨quot, rem, result, quotTrimmed, ?_, quotValue, remValue⟩
  apply List.ne_nil_of_length_pos
  rw [remLength]
  exact limbs.bTrimmed.length_pos

end LimbDivision

theorem clArithTruncate_zero (aCanonical : a.Canonical platform)
    (bCanonical : b.Canonical platform) (zero : b.toInt = 0) :
    clArithTruncate platform a b = .error divisionByZero := by
  have limbs := LimbDivision.of_canonical aCanonical bCanonical
  have divisor := limbs.divisor_zero_iff.mpr zero
  unfold clArithTruncate
  split
  · rw [if_pos (by simpa [ClInt.toInt] using zero)]
  · simp only
    rw [if_pos divisor]

theorem clArithTruncate_eq (aCanonical : a.Canonical platform)
    (bCanonical : b.Canonical platform) (nonzero : b.toInt ≠ 0)
    (noWrap : ¬ QuotientWraps a.toInt b.toInt) :
    clArithTruncate platform a b = .ok (canon (a.toInt.tdiv b.toInt)) := by
  have limbs := LimbDivision.of_canonical aCanonical bCanonical
  have aFits := aCanonical.fits
  unfold clArithTruncate
  split
  · rename_i va vb
    have range := (word_range va).tdiv (y := vb.toInt) noWrap
    rw [if_neg (by simpa [ClInt.toInt] using nonzero)]
    exact congrArg Except.ok (canon_of_range range).symm
  · simp only
    rw [if_neg (fun zero => nonzero (limbs.divisor_zero_iff.mp zero))]
    by_cases smaller : a.toInt.natAbs < b.toInt.natAbs
    · have quotient : a.toInt.tdiv b.toInt = 0 := by
        have magnitude : (a.toInt.tdiv b.toInt).natAbs =
            a.toInt.natAbs / b.toInt.natAbs := Int.natAbs_tdiv _ _
        rw [Nat.div_eq_of_lt smaller] at magnitude
        omega
      rw [if_pos (limbs.compare_lt_iff.mpr smaller), quotient]
      rfl
    · obtain ⟨quot, rem, result, quotTrimmed, _, quotValue, _⟩ :=
        limbs.divmod nonzero smaller
      rw [if_neg (fun less => smaller (limbs.compare_lt_iff.mp less)), result]
      simp only
      have quotient : signed ((toLimbs a).1 != (toLimbs b).1) (value quot) =
          a.toInt.tdiv b.toInt := by
        rw [quotValue, ← limbs.aValue, ← limbs.bValue, natAbs_signed, natAbs_signed, signed_tdiv]
      rw [bignumFromLimbs_eq _ quotTrimmed.ne_nil, quotient]
      apply alloc_of_fits
      apply aFits.of_natAbs_le
      rw [Int.natAbs_tdiv]
      exact Nat.div_le_self _ _

theorem clArithTruncate_wraps (aCanonical : a.Canonical platform)
    (bCanonical : b.Canonical platform)
    (wraps : QuotientWraps a.toInt b.toInt) :
    clArithTruncate platform a b = .ok (canon clFixnumMin) := by
  have aObject := aCanonical.eq_canon
  have bObject := bCanonical.eq_canon
  rw [wraps.1] at aObject
  rw [wraps.2] at bObject
  rw [aObject, bObject]
  rfl

def floorMod (x y : Int) : Int :=
  let r := x.tmod y
  if r ≠ 0 ∧ decide (r < 0) ≠ decide (y < 0) then r + y else r

theorem natAbs_floorMod_le {x y : Int} (nonzero : y ≠ 0) : (floorMod x y).natAbs ≤ y.natAbs := by
  have magnitude : (x.tmod y).natAbs = x.natAbs % y.natAbs := Int.natAbs_tmod x y
  have bound : x.natAbs % y.natAbs < y.natAbs := Nat.mod_lt _ (by omega)
  unfold floorMod
  simp only
  split
  · rename_i adjust
    have different := adjust.2
    by_cases negative : x.tmod y < 0 <;> by_cases divisor : y < 0 <;>
      simp [negative, divisor] at different <;> omega
  · omega

theorem modAdjust_eq {rem b : ClInt} {x : Int}
    (remCanonical : rem.Canonical platform) (bCanonical : b.Canonical platform)
    (nonzero : b.toInt ≠ 0) (remValue : rem.toInt = x.tmod b.toInt) :
    modAdjust platform rem b = .ok (canon (floorMod x b.toInt)) := by
  have bFits := bCanonical.fits
  have resultFits : Fits platform (floorMod x b.toInt) :=
    bFits.of_natAbs_le (natAbs_floorMod_le nonzero)
  have remObject := remCanonical.eq_canon
  unfold modAdjust
  rw [clArithZerop_eq remCanonical, clArithMinusp_eq remCanonical,
    clArithMinusp_eq bCanonical, clArithAdd_eq remCanonical bCanonical]
  rw [remValue] at remObject ⊢
  unfold floorMod at resultFits ⊢
  simp only at resultFits ⊢
  by_cases zero : x.tmod b.toInt = 0
  · simp only [zero, decide_true, if_true, ne_eq, not_true_eq_false, false_and, if_false]
    rw [remObject, zero]
  · by_cases same : decide (x.tmod b.toInt < 0) = decide (b.toInt < 0)
    · simp only [zero, decide_false, Bool.false_eq_true, if_false, ne_eq, same,
        not_true_eq_false, and_false]
      rw [remObject]
    · simp only [zero, decide_false, Bool.false_eq_true, if_false, ne_eq, same,
        not_false_eq_true, true_and, if_true] at resultFits ⊢
      exact alloc_of_fits resultFits

theorem clArithMod_zero (aCanonical : a.Canonical platform)
    (bCanonical : b.Canonical platform) (zero : b.toInt = 0) :
    clArithMod platform a b = .error divisionByZero := by
  have limbs := LimbDivision.of_canonical aCanonical bCanonical
  have divisor := limbs.divisor_zero_iff.mpr zero
  unfold clArithMod
  split
  · rw [if_pos (by simpa [ClInt.toInt] using zero)]
  · simp only
    rw [if_pos divisor]

theorem clArithMod_eq (aCanonical : a.Canonical platform)
    (bCanonical : b.Canonical platform) (nonzero : b.toInt ≠ 0) :
    clArithMod platform a b = .ok (canon (floorMod a.toInt b.toInt)) := by
  have limbs := LimbDivision.of_canonical aCanonical bCanonical
  have bFits := bCanonical.fits
  unfold clArithMod
  split
  · rename_i va vb
    simp only [ClInt.toInt] at nonzero ⊢
    have remRange := (word_range va).tmod (y := vb.toInt)
    have magnitude := natAbs_floorMod_le (x := va.toInt) nonzero
    have divisorRange := word_range vb
    rw [if_neg nonzero]
    unfold floorMod at magnitude ⊢
    simp only at magnitude ⊢
    split
    · rename_i adjust
      rw [if_pos adjust] at magnitude
      have range : InFixnumRange (va.toInt.tmod vb.toInt + vb.toInt) := by
        have different := adjust.2
        simp only [InFixnumRange, clFixnumMin, clFixnumMax]
          at remRange divisorRange ⊢
        by_cases negative : va.toInt.tmod vb.toInt < 0 <;>
          by_cases divisor : vb.toInt < 0 <;>
          simp [negative, divisor] at different <;> omega
      rw [canon_of_range range]
    · rw [canon_of_range remRange]
  · simp only
    rw [if_neg (fun zero => nonzero (limbs.divisor_zero_iff.mp zero))]
    by_cases smaller : a.toInt.natAbs < b.toInt.natAbs
    · rw [if_pos (limbs.compare_lt_iff.mpr smaller)]
      apply modAdjust_eq aCanonical bCanonical nonzero
      have quotient : a.toInt.tdiv b.toInt = 0 := by
        have magnitude : (a.toInt.tdiv b.toInt).natAbs =
            a.toInt.natAbs / b.toInt.natAbs := Int.natAbs_tdiv _ _
        rw [Nat.div_eq_of_lt smaller] at magnitude
        omega
      have split := Int.mul_tdiv_add_tmod a.toInt b.toInt
      rw [quotient, Int.mul_zero, Int.zero_add] at split
      exact split.symm
    · obtain ⟨quot, rem, result, _, remNonempty, _, remValue⟩ :=
        limbs.divmod nonzero smaller
      rw [if_neg (fun less => smaller (limbs.compare_lt_iff.mp less)), result]
      have remainder : signed (toLimbs a).1 (value rem) = a.toInt.tmod b.toInt := by
        rw [remValue, ← limbs.aValue, ← limbs.bValue, natAbs_signed, natAbs_signed, signed_tmod]
      have remFits : Fits platform (a.toInt.tmod b.toInt) := by
        apply bFits.of_natAbs_le
        have magnitude : (a.toInt.tmod b.toInt).natAbs =
            a.toInt.natAbs % b.toInt.natAbs := Int.natAbs_tmod _ _
        rw [magnitude]
        exact (Nat.mod_lt _ (by omega)).le
      simp only
      rw [bignumFromLimbs_eq _ (trimmed_strip remNonempty).ne_nil, value_strip,
        remainder, alloc_of_fits remFits]
      exact modAdjust_eq (canonical_canon remFits) bCanonical nonzero (toInt_canon _)

/-- The negation is exact on bignums whose length a `uint16_t` holds. -/
theorem clArithNegate_eq {a : ClInt} (canonical : a.Canonical platform)
    (short : limbCount a.toInt < 2 ^ 16) :
    clArithNegate platform a = .ok (canon (-a.toInt)) := by
  have fits := canonical.fits
  cases a with
  | fixnum word =>
      have range := word_range word
      simp only [clArithNegate, ClInt.toInt]
      split
      · rename_i minimal
        rw [bignumFromUint32_eq false (by omega), minimal]
        rfl
      · rename_i notMinimal
        rw [canon_of_range]
        simp only [InFixnumRange, clFixnumMin, clFixnumMax] at *
        omega
  | bignum sign limbs =>
      obtain ⟨normalized, few, _⟩ := canonical
      rw [ClInt.toInt, ← length_eq_limbCount normalized] at short
      have whole : limbs.take (limbs.length % 2 ^ 16) = limbs := by
        rw [Nat.mod_eq_of_lt short, List.take_length]
      have normalizes := clBignumNormalize_eq (!sign) normalized.trimmed.ne_nil
      rw [signed_not] at normalizes
      simp only [clArithNegate, whole]
      rw [clMakeBignum_normalize (!sign) limbs normalizes]
      exact allocWith_of_le few

theorem clArithAbs_eq {a : ClInt} (canonical : a.Canonical platform)
    (safe : 0 ≤ a.toInt ∨ limbCount a.toInt < 2 ^ 16) :
    clArithAbs platform a = .ok (canon |a.toInt|) := by
  have object := canonical.eq_canon
  cases a with
  | fixnum word =>
      have range := word_range word
      simp only [clArithAbs, ClInt.toInt]
      split
      · rename_i minimal
        rw [bignumFromUint32_eq false (by omega), minimal]
        rfl
      · rename_i notMinimal
        have magnitude : (if word.toInt < 0 then -word.toInt else word.toInt) =
            |word.toInt| := by
          split
          · rw [abs_of_neg (by omega)]
          · rw [abs_of_nonneg (by omega)]
        rw [magnitude, canon_of_range]
        simp only [InFixnumRange, clFixnumMin, clFixnumMax] at *
        rcases abs_cases word.toInt with ⟨equality, _⟩ | ⟨equality, _⟩ <;> omega
  | bignum sign limbs =>
      obtain ⟨normalized, few, outside⟩ := canonical
      have positive := normalized.value_pos
      cases sign with
      | false =>
          have nonneg : 0 ≤ (ClInt.bignum false limbs).toInt := by
            simp [ClInt.toInt, signed]
          rw [abs_of_nonneg nonneg, ← object]
          rfl
      | true =>
          have negative : (ClInt.bignum true limbs).toInt < 0 :=
            (signed_neg_iff positive).mpr rfl
          have short : limbs.length < 2 ^ 16 := by
            rw [length_eq_limbCount normalized true]
            exact safe.resolve_left (by omega)
          have whole : limbs.take (limbs.length % 2 ^ 16) = limbs := by
            rw [Nat.mod_eq_of_lt short, List.take_length]
          have absolute : |(ClInt.bignum true limbs).toInt| = signed false (value limbs) := by
            rw [abs_of_neg negative]
            simp [ClInt.toInt, signed]
          have magnitude : (ClInt.bignum false limbs).Canonical platform := by
            refine ⟨normalized, few, ?_⟩
            simp only [signed, if_true, Bool.false_eq_true, if_false,
              clFixnumMin, clFixnumMax] at outside ⊢
            omega
          have made : clMakeBignum platform false limbs = .ok (.bignum false limbs) := by
            rw [clMakeBignum, (requestError_eq_none_iff platform _).mpr few]
          simp only [clArithAbs, Bool.true_eq_false, if_false, whole]
          rw [made, absolute]
          exact congrArg Except.ok magnitude.eq_canon

theorem fits_mod {m n : Nat} (nFits : Fits platform n) (positive : 0 < n) :
    Fits platform ((m % n : Nat) : Int) := by
  apply nFits.of_natAbs_le
  rw [Int.natAbs_natCast, Int.natAbs_natCast]
  exact (Nat.mod_lt m positive).le

theorem gcdRem_eq {m n : Nat} (mFits : Fits platform m) (nFits : Fits platform n)
    (positive : 0 < n) :
    gcdRem platform (canon m) (canon n) = .ok (canon ((m % n : Nat) : Int)) := by
  have mCanonical := canonical_canon mFits
  have nCanonical := canonical_canon nFits
  have limbs := LimbDivision.of_canonical mCanonical nCanonical
  have smallerIff := limbs.compare_lt_iff
  have divmod := limbs.divmod
  simp only [toInt_canon, Int.natAbs_natCast] at smallerIff divmod
  unfold gcdRem
  split
  · rename_i va vb aEq bEq
    have aValue : va.toInt = m := by
      have object := congrArg ClInt.toInt aEq
      rw [toInt_canon] at object
      exact object.symm
    have bValue : vb.toInt = n := by
      have object := congrArg ClInt.toInt bEq
      rw [toInt_canon] at object
      exact object.symm
    have remainder : (m : Int).tmod n = ((m % n : Nat) : Int) := by
      rw [Int.ofNat_tmod]
    have range := (word_range va).tmod (y := vb.toInt)
    rw [aValue, bValue, remainder] at range ⊢
    rw [canon_of_range range]
  · simp only
    by_cases smaller : m < n
    · rw [if_pos (smallerIff.mpr smaller), Nat.mod_eq_of_lt smaller]
    · obtain ⟨quot, rem, result, _, remNonempty, _, remValue⟩ :=
        divmod (by omega) smaller
      have remFits := fits_mod (m := m) nFits positive
      rw [if_neg (fun less => smaller (smallerIff.mp less)), result]
      simp only
      rw [bignumFromLimbs_eq _ (trimmed_strip remNonempty).ne_nil, value_strip, remValue]
      exact alloc_of_fits remFits

theorem gcdLoop_eq (rounds : Nat) {m n : Nat} (mFits : Fits platform m)
    (nFits : Fits platform n) (enough : n < rounds) :
    gcdLoop platform rounds (canon m) (canon n) = .ok (canon ((m.gcd n : Nat) : Int)) := by
  induction rounds generalizing m n with
  | zero => omega
  | succ rounds induction =>
      rw [gcdLoop, clArithZerop_eq (canonical_canon nFits), toInt_canon]
      by_cases zero : n = 0
      · subst zero
        simp
      · have remFits := fits_mod (m := m) nFits (Nat.pos_of_ne_zero zero)
        have remSmall : m % n < n := Nat.mod_lt m (Nat.pos_of_ne_zero zero)
        have rest := induction nFits remFits (by omega)
        rw [gcdRem_eq mFits nFits (Nat.pos_of_ne_zero zero)]
        simp only [Nat.cast_eq_zero, zero, decide_false, Bool.false_eq_true, if_false]
        rw [Nat.gcd_comm m n, Nat.gcd_rec n m, Nat.gcd_comm (m % n) n]
        exact rest

theorem clArithGcd_eq (aCanonical : a.Canonical platform) (bCanonical : b.Canonical platform)
    (aSafe : 0 ≤ a.toInt ∨ limbCount a.toInt < 2 ^ 16)
    (bSafe : 0 ≤ b.toInt ∨ limbCount b.toInt < 2 ^ 16) :
    clArithGcd platform a b = .ok (canon ((Int.gcd a.toInt b.toInt : Nat) : Int)) := by
  have aFits : Fits platform (a.toInt.natAbs : Int) :=
    aCanonical.fits.of_natAbs_le (Int.natAbs_natCast _).le
  have bFits : Fits platform (b.toInt.natAbs : Int) :=
    bCanonical.fits.of_natAbs_le (Int.natAbs_natCast _).le
  have aAbs : |a.toInt| = (a.toInt.natAbs : Int) := Int.abs_eq_natAbs _
  have bAbs : |b.toInt| = (b.toInt.natAbs : Int) := Int.abs_eq_natAbs _
  unfold clArithGcd
  rw [clArithAbs_eq aCanonical aSafe, clArithAbs_eq bCanonical bSafe, aAbs, bAbs]
  rw [Int.gcd]
  generalize a.toInt.natAbs = m at aFits ⊢
  generalize b.toInt.natAbs = n at bFits ⊢
  change (if clArithZerop (canon m) = true then Except.ok (canon n)
    else if clArithZerop (canon n) = true then Except.ok (canon m)
    else gcdLoop platform ((canon n).toInt.natAbs + 1) (canon m) (canon n)) = _
  rw [clArithZerop_eq (canonical_canon aFits),
    clArithZerop_eq (canonical_canon bFits), toInt_canon, toInt_canon]
  by_cases mZero : m = 0
  · subst mZero
    simp
  · by_cases nZero : n = 0
    · subst nZero
      simp [mZero]
    · simp only [Nat.cast_eq_zero, mZero, nZero, decide_false,
        Bool.false_eq_true, if_false, Int.natAbs_natCast]
      exact gcdLoop_eq (n + 1) aFits bFits (by omega)

end ClAmiga.Number
