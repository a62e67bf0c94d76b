import ClAmiga.Number.Ratio

/-!
# Exactness of rational arithmetic

A rational object denotes a rational number, and `canonRat` is its canonical
object.  Every operation requests a fixed sequence of integer objects; it is
exact as soon as each request passes the storage checks, and ends in the error
of the first one that does not.  The remaining condition, `NormShort`, keeps
the `uint16_t` lengths of `cl_arith_negate` and `cl_arith_abs` out of reach.
-/

namespace ClAmiga.Number

open Radix Bignum

variable {platform : Platform}

/-- The value, or the storage error of the first request that has one. -/
def allocAll {α : Type} (platform : Platform) : List Nat → α → Result α
  | [], object => .ok object
  | limbs :: rest, object =>
      match requestError platform limbs with
      | some error => .error error
      | none => allocAll platform rest object

section Requests

variable {α β : Type}

attribute [local simp] allocAll

theorem allocAll_of_le {requests : List Nat} {object : α}
    (fits : ∀ limbs ∈ requests, limbs ≤ maxLimbs platform) :
    allocAll platform requests object = .ok object := by
  induction requests with
  | nil => rfl
  | cons limbs rest induction =>
      have first := fits limbs List.mem_cons_self
      rw [allocAll, (requestError_eq_none_iff platform limbs).mpr first]
      exact induction (fun limbs member => fits limbs (List.mem_cons_of_mem _ member))

theorem allocAll_eq_ok_iff {requests : List Nat} {object result : α} :
    allocAll platform requests object = .ok result ↔
      (∀ limbs ∈ requests, limbs ≤ maxLimbs platform) ∧ object = result := by
  induction requests with
  | nil => simp [allocAll]
  | cons limbs rest induction =>
      rw [allocAll]
      cases outcome : requestError platform limbs with
      | some error =>
          constructor
          · intro impossible
            cases impossible
          · rintro ⟨fits, -⟩
            have first := fits limbs List.mem_cons_self
            rw [(requestError_eq_none_iff platform limbs).mpr first] at outcome
            cases outcome
      | none =>
          have first := (requestError_eq_none_iff platform limbs).mp outcome
          simp only [induction, List.forall_mem_cons, first, true_and]

theorem bind_allocWith {limbs : Nat} {rest : List Nat} {z : Int} {object : β}
    {next : ClInt → Result β}
    (continues : limbs ≤ maxLimbs platform →
      next (canon z) = allocAll platform rest object) :
    (allocWith platform limbs z >>= next) = allocAll platform (limbs :: rest) object := by
  unfold allocWith
  rw [allocAll]
  cases outcome : requestError platform limbs with
  | some error => rfl
  | none => exact continues ((requestError_eq_none_iff platform limbs).mp outcome)

theorem allocWith_eq_allocAll (limbs : Nat) (z : Int) :
    allocWith platform limbs z = allocAll platform [limbs] (canon z) := by
  unfold allocWith
  rw [allocAll]
  cases requestError platform limbs with
  | some error => rfl
  | none => rfl

theorem map_allocWith {limbs : Nat} {z : Int} {f : ClInt → β} : (f <$> allocWith platform limbs z) =
      allocAll platform [limbs] (f (canon z)) := by
  unfold allocWith
  rw [allocAll]
  cases outcome : requestError platform limbs with
  | some error => rfl
  | none => rfl

theorem bind_allocAll {requests rest : List Nat} {first : α} {object : β} {next : α → Result β}
    (continues : (∀ limbs ∈ requests, limbs ≤ maxLimbs platform) →
      next first = allocAll platform rest object) :
    (allocAll platform requests first >>= next) = allocAll platform (requests ++ rest) object := by
  induction requests with
  | nil => exact continues (fun limbs member => (List.not_mem_nil member).elim)
  | cons limbs requests induction =>
      rw [allocAll, List.cons_append, allocAll]
      cases outcome : requestError platform limbs with
      | some error => rfl
      | none =>
          have few := (requestError_eq_none_iff platform limbs).mp outcome
          apply induction
          intro fits
          exact continues (List.forall_mem_cons.mpr ⟨few, fits⟩)

theorem bind_allocAll_pure {requests : List Nat} {first : α} (f : α → β) :
    (allocAll platform requests first >>= fun object => pure (f object)) =
      allocAll platform requests (f first) := by
  induction requests with
  | nil => rfl
  | cons limbs requests induction =>
      rw [allocAll, allocAll]
      cases outcome : requestError platform limbs with
      | some error => rfl
      | none => exact induction

end Requests

namespace ClNum

def toRat : ClNum → ℚ
  | .int n => n.toInt
  | .ratio num den => num.toInt / den.toInt

/-- Canonical form: an integer, or a reduced pair with a denominator greater
than one. -/
def Canonical (platform : Platform) : ClNum → Prop
  | .int n => n.Canonical platform
  | .ratio num den =>
      num.Canonical platform ∧ den.Canonical platform ∧
        1 < den.toInt ∧ Int.gcd num.toInt den.toInt = 1

end ClNum

/-- The canonical form, as a function of the rational number. -/
def canonRat (x : ℚ) : ClNum :=
  if x.den = 1 then .int (canon x.num)
  else .ratio (canon x.num) (canon x.den)

def RatFits (platform : Platform) (x : ℚ) : Prop :=
  Fits platform x.num ∧ Fits platform x.den

theorem num_den_of_coprime {n d : Int} (positive : 0 < d) (coprime : Int.gcd n d = 1) :
    ((n : ℚ) / d).num = n ∧ (((n : ℚ) / d).den : Int) = d := by
  have natCoprime : n.natAbs.Coprime d.natAbs := coprime
  exact ⟨Rat.num_div_eq_of_coprime positive natCoprime,
    Rat.den_div_eq_of_coprime positive natCoprime⟩

theorem canonRat_intCast (z : Int) : canonRat (z : ℚ) = .int (canon z) := by
  simp [canonRat]

theorem canonRat_of_coprime {n d : Int} (positive : 0 < d) (coprime : Int.gcd n d = 1) :
    canonRat ((n : ℚ) / d) =
      if d = 1 then .int (canon n) else .ratio (canon n) (canon d) := by
  obtain ⟨num, den⟩ := num_den_of_coprime positive coprime
  have unit : ((n : ℚ) / d).den = 1 ↔ d = 1 := by omega
  unfold canonRat
  simp only [unit, num, den]

theorem toRat_canonRat (x : ℚ) : (canonRat x).toRat = x := by
  unfold canonRat
  split
  · rename_i integral
    simp only [ClNum.toRat, toInt_canon]
    exact Rat.den_eq_one_iff x |>.mp integral
  · simp only [ClNum.toRat, toInt_canon, Int.cast_natCast]
    exact Rat.num_div_den x

theorem canonical_canonRat {x : ℚ} (fits : RatFits platform x) :
    (canonRat x).Canonical platform := by
  obtain ⟨numFits, denFits⟩ := fits
  unfold canonRat
  split
  · exact canonical_canon numFits
  · rename_i proper
    refine ⟨canonical_canon numFits, canonical_canon denFits, ?_, ?_⟩
    · have positive := x.den_pos
      rw [toInt_canon]
      omega
    · rw [toInt_canon, toInt_canon]
      exact x.reduced

theorem ClNum.Canonical.eq_canonRat {a : ClNum}
    (canonical : a.Canonical platform) : a = canonRat a.toRat := by
  cases a with
  | int n =>
      rw [ClNum.toRat, canonRat_intCast]
      exact congrArg ClNum.int (ClInt.Canonical.eq_canon canonical)
  | ratio num den =>
      obtain ⟨numCanonical, denCanonical, proper, coprime⟩ := canonical
      have notUnit : ¬ den.toInt = 1 := by omega
      rw [ClNum.toRat, canonRat_of_coprime (by omega) coprime, if_neg notUnit,
        ← numCanonical.eq_canon, ← denCanonical.eq_canon]

theorem ClNum.Canonical.ratFits {a : ClNum} (canonical : a.Canonical platform) :
    RatFits platform a.toRat := by
  cases a with
  | int n =>
      refine ⟨ClInt.Canonical.fits canonical, ?_⟩
      simp only [ClNum.toRat, Rat.den_intCast]
      exact Fits.of_range (by decide)
  | ratio num den =>
      obtain ⟨numCanonical, denCanonical, proper, coprime⟩ := canonical
      obtain ⟨numEq, denEq⟩ := num_den_of_coprime (by omega) coprime
      simp only [RatFits, ClNum.toRat, numEq, denEq]
      exact ⟨numCanonical.fits, denCanonical.fits⟩

theorem clNumerator_canonRat (x : ℚ) : clNumerator (canonRat x) = canon x.num := by
  unfold canonRat
  split <;> rfl

theorem clDenominator_canonRat (x : ℚ) : clDenominator (canonRat x) = canon x.den := by
  unfold canonRat
  split
  · rename_i integral
    rw [integral]
    rfl
  · rfl

/-- The length of the magnitude survives a `uint16_t`. -/
def Short (z : Int) : Prop :=
  limbCount z < 2 ^ 16

/-- Normalizing `n / d` negates or takes the absolute value of short numbers
only. -/
def NormShort (n d : Int) : Prop :=
  n = 0 ∨ if d < 0 then Short n ∧ Short d else 0 ≤ n ∨ Short n

theorem Fits.neg {z : Int} (fits : Fits platform z) : Fits platform (-z) :=
  fits.of_natAbs_le (Int.natAbs_neg z).le

theorem clArithTruncate_mul {q g : Int} (positive : 0 < g)
    (fits : Fits platform (q * g)) (gFits : Fits platform g) :
    clArithTruncate platform (canon (q * g)) (canon g) = .ok (canon q) := by
  have result := clArithTruncate_eq (canonical_canon fits) (canonical_canon gFits)
  rw [toInt_canon, toInt_canon, Int.mul_tdiv_cancel q (by omega)] at result
  apply result
  · omega
  · rintro ⟨-, minusOne⟩
    omega

theorem reduceByGcd_eq {n d : Int} (nFits : Fits platform n)
    (dFits : Fits platform d) (positive : 0 < d) (short : 0 ≤ n ∨ Short n) :
    reduceByGcd platform (canon n) (canon d) = .ok (canonRat ((n : ℚ) / d)) := by
  have gPositive : 0 < Int.gcd n d := Int.gcd_pos_of_ne_zero_right n (by omega)
  obtain ⟨n', d', coprime, nFactor, dFactor⟩ := Int.exists_gcd_one gPositive
  have absFits : Fits platform |n| :=
    nFits.of_natAbs_le (by rw [Int.natAbs_abs])
  have gFits : Fits platform (Int.gcd n d : Int) := by
    apply dFits.of_natAbs_le
    rw [Int.natAbs_natCast]
    exact Int.gcd_le_natAbs_right (a := n) (b := d) (by omega)
  have gcdAbs : Int.gcd |n| d = Int.gcd n d := by
    rw [Int.gcd, Int.natAbs_abs, Int.gcd]
  have absStep := clArithAbs_eq (canonical_canon nFits) (by rw [toInt_canon]; exact short)
  have gcdStep := clArithGcd_eq (canonical_canon absFits) (canonical_canon dFits)
    (by rw [toInt_canon]; exact Or.inl (abs_nonneg n))
    (by rw [toInt_canon]; exact Or.inl positive.le)
  rw [toInt_canon] at absStep
  rw [toInt_canon, toInt_canon, gcdAbs] at gcdStep
  generalize gValue : (Int.gcd n d : Int) = g at *
  have gPos : 0 < g := by omega
  have d'Positive : 0 < d' := by
    rw [dFactor] at positive
    exact pos_of_mul_pos_left positive gPos.le
  have numStep := clArithTruncate_mul (q := n') gPos (nFactor ▸ nFits) gFits
  have denStep := clArithTruncate_mul (q := d') gPos (dFactor ▸ dFits) gFits
  rw [← nFactor] at numStep
  rw [← dFactor] at denStep
  have quotient : (n : ℚ) / d = (n' : ℚ) / d' := by
    rw [nFactor, dFactor, Int.cast_mul, Int.cast_mul]
    exact mul_div_mul_right _ _ (by exact_mod_cast gPos.ne')
  have unit : canon d' = clMakeFixnum 1 ↔ d' = 1 := by
    constructor
    · intro equality
      have := congrArg ClInt.toInt equality
      rw [toInt_canon] at this
      exact this
    · rintro rfl
      rfl
  rw [quotient, canonRat_of_coprime d'Positive coprime]
  simp only [reduceByGcd, absStep, gcdStep, numStep, denStep, bind, Except.bind, unit, clMakeRatio]
  split <;> rfl

theorem positiveDenominator_eq {n d : Int} (nFits : Fits platform n)
    (dFits : Fits platform d) (short : d < 0 → Short n ∧ Short d) :
    positiveDenominator platform (canon n) (canon d) =
      .ok (if d < 0 then (canon (-n), canon (-d)) else (canon n, canon d)) := by
  unfold positiveDenominator
  rw [clArithMinusp_eq (canonical_canon dFits), toInt_canon]
  by_cases negative : d < 0
  · obtain ⟨nShort, dShort⟩ := short negative
    rw [clArithNegate_eq (canonical_canon nFits) (by rw [toInt_canon]; exact nShort),
      clArithNegate_eq (canonical_canon dFits) (by rw [toInt_canon]; exact dShort),
      toInt_canon, toInt_canon]
    simp only [negative, decide_true, if_true]
    rfl
  · simp only [negative, decide_false, Bool.false_eq_true, if_false]

theorem clMakeRatioNormalized_eq {n d : Int} (nFits : Fits platform n)
    (dFits : Fits platform d) (nonzero : d ≠ 0) (short : NormShort n d) :
    clMakeRatioNormalized platform (canon n) (canon d) = .ok (canonRat ((n : ℚ) / d)) := by
  unfold clMakeRatioNormalized
  rw [clArithZerop_eq (canonical_canon dFits), clArithZerop_eq (canonical_canon nFits),
    toInt_canon, toInt_canon]
  simp only [nonzero, decide_false, Bool.false_eq_true, if_false]
  by_cases zero : n = 0
  · subst zero
    simp only [decide_true, if_true, Int.cast_zero, zero_div]
    exact congrArg Except.ok (canonRat_intCast 0).symm
  · simp only [zero, decide_false, Bool.false_eq_true, if_false]
    have step := short.resolve_left zero
    by_cases negative : d < 0
    · rw [if_pos negative] at step
      rw [positiveDenominator_eq nFits dFits (fun _ => step), if_pos negative]
      have quotient : (n : ℚ) / d = ((-n : Int) : ℚ) / ((-d : Int) : ℚ) := by
        rw [Int.cast_neg, Int.cast_neg, neg_div_neg_eq]
      rw [quotient]
      apply reduceByGcd_eq nFits.neg dFits.neg (by omega)
      right
      rw [Short, limbCount_neg]
      exact step.1
    · rw [if_neg negative] at step
      rw [positiveDenominator_eq nFits dFits (fun less => (negative less).elim),
        if_neg negative]
      exact reduceByGcd_eq nFits dFits (by omega) step

def crossSum (x y : ℚ) : Int :=
  x.num * y.den + y.num * x.den

def crossDiff (x y : ℚ) : Int :=
  x.num * y.den - y.num * x.den

/-- The integer objects `cl_ratio_add` and `cl_ratio_sub` request for the
numerator `num`. -/
def sumRequests (x y : ℚ) (num : Int) : List Nat :=
  [mulLimbs x.num y.den, mulLimbs y.num x.den, limbCount num,
    mulLimbs x.den y.den]

def mulRequests (x y : ℚ) : List Nat :=
  [mulLimbs x.num y.num, mulLimbs x.den y.den]

def divRequests (x y : ℚ) : List Nat :=
  [mulLimbs x.num y.den, mulLimbs x.den y.num]

theorem clArithMul_canon {x y : Int} (xFits : Fits platform x) (yFits : Fits platform y) :
    clArithMul platform (canon x) (canon y) = allocWith platform (mulLimbs x y) (x * y) := by
  rw [clArithMul_eq (canonical_canon xFits) (canonical_canon yFits), toInt_canon, toInt_canon]

theorem clArithAdd_canon {x y : Int} (xFits : Fits platform x) (yFits : Fits platform y) :
    clArithAdd platform (canon x) (canon y) = allocWith platform (limbCount (x + y)) (x + y) := by
  rw [clArithAdd_eq (canonical_canon xFits) (canonical_canon yFits), toInt_canon,
    toInt_canon, alloc]

theorem clArithSub_canon {x y : Int} (xFits : Fits platform x) (yFits : Fits platform y) :
    clArithSub platform (canon x) (canon y) = allocWith platform (limbCount (x - y)) (x - y) := by
  rw [clArithSub_eq (canonical_canon xFits) (canonical_canon yFits), toInt_canon,
    toInt_canon, alloc]

theorem fits_mul {x y : Int} (few : mulLimbs x y ≤ maxLimbs platform) : Fits platform (x * y) :=
  (limbCount_mul_le x y).trans few

theorem den_cast_ne_zero (x : ℚ) : (x.den : ℚ) ≠ 0 :=
  Nat.cast_ne_zero.mpr x.den_nz

theorem add_eq_cross (x y : ℚ) : x + y = (crossSum x y : ℚ) / ((x.den * y.den : Int) : ℚ) := by
  calc
    x + y = (x.num : ℚ) / x.den + (y.num : ℚ) / y.den := by
      rw [Rat.num_div_den, Rat.num_div_den]
    _ = ((x.num : ℚ) * y.den + x.den * y.num) / (x.den * y.den) :=
      div_add_div _ _ (den_cast_ne_zero x) (den_cast_ne_zero y)
    _ = _ := by
      simp only [crossSum]
      push_cast
      ring

theorem sub_eq_cross (x y : ℚ) : x - y = (crossDiff x y : ℚ) / ((x.den * y.den : Int) : ℚ) := by
  calc
    x - y = (x.num : ℚ) / x.den - (y.num : ℚ) / y.den := by
      rw [Rat.num_div_den, Rat.num_div_den]
    _ = ((x.num : ℚ) * y.den - x.den * y.num) / (x.den * y.den) :=
      div_sub_div _ _ (den_cast_ne_zero x) (den_cast_ne_zero y)
    _ = _ := by
      simp only [crossDiff]
      push_cast
      ring

theorem mul_eq_cross (x y : ℚ) :
    x * y = ((x.num * y.num : Int) : ℚ) / ((x.den * y.den : Int) : ℚ) := by
  calc
    x * y = (x.num : ℚ) / x.den * ((y.num : ℚ) / y.den) := by
      rw [Rat.num_div_den, Rat.num_div_den]
    _ = _ := by
      push_cast
      exact div_mul_div_comm _ _ _ _

theorem div_eq_cross (x y : ℚ) :
    x / y = ((x.num * y.den : Int) : ℚ) / ((x.den * y.num : Int) : ℚ) := by
  calc
    x / y = (x.num : ℚ) / x.den / ((y.num : ℚ) / y.den) := by
      rw [Rat.num_div_den, Rat.num_div_den]
    _ = _ := by
      push_cast
      exact div_div_div_eq _ _ _ _

variable {x y : ℚ}

section Operations

variable (xFits : RatFits platform x) (yFits : RatFits platform y)

include xFits yFits

theorem clRatioAdd_eq (short : NormShort (crossSum x y) (x.den * y.den)) :
    clRatioAdd platform (canonRat x) (canonRat y) =
      allocAll platform (sumRequests x y (crossSum x y)) (canonRat (x + y)) := by
  simp only [clRatioAdd, clNumerator_canonRat, clDenominator_canonRat]
  rw [clArithMul_canon xFits.1 yFits.2, clArithMul_canon yFits.1 xFits.2,
    clArithMul_canon xFits.2 yFits.2]
  apply bind_allocWith
  intro leftFits
  apply bind_allocWith
  intro rightFits
  rw [clArithAdd_canon (fits_mul leftFits) (fits_mul rightFits)]
  apply bind_allocWith
  intro numFits
  apply bind_allocWith
  intro denFits
  rw [add_eq_cross]
  apply clMakeRatioNormalized_eq numFits (fits_mul denFits) _ short
  exact mul_ne_zero (by exact_mod_cast x.den_nz) (by exact_mod_cast y.den_nz)

theorem clRatioSub_eq (short : NormShort (crossDiff x y) (x.den * y.den)) :
    clRatioSub platform (canonRat x) (canonRat y) =
      allocAll platform (sumRequests x y (crossDiff x y)) (canonRat (x - y)) := by
  simp only [clRatioSub, clNumerator_canonRat, clDenominator_canonRat]
  rw [clArithMul_canon xFits.1 yFits.2, clArithMul_canon yFits.1 xFits.2,
    clArithMul_canon xFits.2 yFits.2]
  apply bind_allocWith
  intro leftFits
  apply bind_allocWith
  intro rightFits
  rw [clArithSub_canon (fits_mul leftFits) (fits_mul rightFits)]
  apply bind_allocWith
  intro numFits
  apply bind_allocWith
  intro denFits
  rw [sub_eq_cross]
  apply clMakeRatioNormalized_eq numFits (fits_mul denFits) _ short
  exact mul_ne_zero (by exact_mod_cast x.den_nz) (by exact_mod_cast y.den_nz)

theorem clRatioMul_eq (short : NormShort (x.num * y.num) (x.den * y.den)) :
    clRatioMul platform (canonRat x) (canonRat y) =
      allocAll platform (mulRequests x y) (canonRat (x * y)) := by
  simp only [clRatioMul, clNumerator_canonRat, clDenominator_canonRat]
  rw [clArithMul_canon xFits.1 yFits.1, clArithMul_canon xFits.2 yFits.2]
  apply bind_allocWith
  intro numFits
  apply bind_allocWith
  intro denFits
  rw [mul_eq_cross]
  apply clMakeRatioNormalized_eq (fits_mul numFits) (fits_mul denFits) _ short
  exact mul_ne_zero (by exact_mod_cast x.den_nz) (by exact_mod_cast y.den_nz)

theorem clRatioDiv_eq (nonzero : y ≠ 0) (short : NormShort (x.num * y.den) (x.den * y.num)) :
    clRatioDiv platform (canonRat x) (canonRat y) =
      allocAll platform (divRequests x y) (canonRat (x / y)) := by
  have numNonzero : y.num ≠ 0 := Rat.num_ne_zero.mpr nonzero
  simp only [clRatioDiv, clNumerator_canonRat, clDenominator_canonRat]
  rw [clArithZerop_eq (canonical_canon yFits.1), toInt_canon,
    clArithMul_canon xFits.1 yFits.2, clArithMul_canon xFits.2 yFits.1]
  simp only [numNonzero, decide_false, Bool.false_eq_true, if_false]
  apply bind_allocWith
  intro numFits
  apply bind_allocWith
  intro denFits
  rw [div_eq_cross]
  apply clMakeRatioNormalized_eq (fits_mul numFits) (fits_mul denFits) _ short
  exact mul_ne_zero (by exact_mod_cast x.den_nz) numNonzero

theorem clRatioCompare_eq : clRatioCompare platform (canonRat x) (canonRat y) =
      allocAll platform [mulLimbs x.num y.den, mulLimbs y.num x.den] (crossDiff x y).sign := by
  simp only [clRatioCompare, clNumerator_canonRat, clDenominator_canonRat]
  rw [clArithMul_canon xFits.1 yFits.2, clArithMul_canon yFits.1 xFits.2]
  apply bind_allocWith
  intro leftFits
  apply bind_allocWith
  intro rightFits
  rw [clArithCompare_eq (canonical_canon (fits_mul leftFits))
    (canonical_canon (fits_mul rightFits)), toInt_canon, toInt_canon]
  rfl

end Operations

theorem clRatioDiv_zero (a : ClNum) :
    clRatioDiv platform a (canonRat 0) = .error ratioDivisionByZero := by
  rfl

theorem sign_crossDiff (x y : ℚ) :
    (crossDiff x y).sign = if x < y then -1 else if x = y then 0 else 1 := by
  have positive : (0 : ℚ) < ((x.den * y.den : Int) : ℚ) := by
    exact_mod_cast Nat.mul_pos x.den_pos y.den_pos
  have difference := sub_eq_cross x y
  rcases lt_trichotomy x y with less | equal | greater
  · have negative : crossDiff x y < 0 := by
      have : (crossDiff x y : ℚ) / ((x.den * y.den : Int) : ℚ) < 0 := by
        rw [← difference]
        linarith
      by_contra nonneg
      have castNonneg : (0 : ℚ) ≤ crossDiff x y := by
        exact_mod_cast not_lt.mp nonneg
      exact absurd (div_nonneg castNonneg positive.le) (not_le.mpr this)
    rw [if_pos less, Int.sign_eq_neg_one_of_neg negative]
  · subst equal
    have zero : crossDiff x x = 0 := by
      rw [crossDiff, Int.sub_self]
    rw [zero, if_neg (lt_irrefl x), if_pos rfl]
    rfl
  · have positiveDiff : 0 < crossDiff x y := by
      have : 0 < (crossDiff x y : ℚ) / ((x.den * y.den : Int) : ℚ) := by
        rw [← difference]
        linarith
      have := (div_pos_iff_of_pos_right positive).mp this
      exact_mod_cast this
    rw [if_neg greater.not_gt, if_neg greater.ne', Int.sign_eq_one_of_pos positiveDiff]

theorem canonRat_neg (x : ℚ) :
    canonRat (-x) = if x.den = 1 then .int (canon (-x.num))
      else .ratio (canon (-x.num)) (canon x.den) := by
  rw [canonRat, Rat.den_neg_eq_den, Rat.num_neg_eq_neg_num]

theorem clRatioNegate_eq (fits : RatFits platform x) (short : Short x.num) :
    clRatioNegate platform (canonRat x) = .ok (canonRat (-x)) := by
  have negate := clArithNegate_eq (canonical_canon fits.1) (by rw [toInt_canon]; exact short)
  rw [toInt_canon] at negate
  rw [canonRat_neg, canonRat]
  split
  · rw [clRatioNegate, negate]
    rfl
  · rw [clRatioNegate, negate]
    rfl

theorem abs_num_den (x : ℚ) : |x|.num = |x.num| ∧ |x|.den = x.den := by
  rcases le_total 0 x with nonneg | nonpos
  · have numNonneg := Rat.num_nonneg.mpr nonneg
    rw [abs_of_nonneg nonneg, abs_of_nonneg numNonneg]
    exact ⟨rfl, rfl⟩
  · have numNonpos : x.num ≤ 0 := Rat.num_nonpos.mpr nonpos
    rw [abs_of_nonpos nonpos, abs_of_nonpos numNonpos, Rat.num_neg_eq_neg_num, Rat.den_neg_eq_den]
    exact ⟨rfl, rfl⟩

theorem clRatioAbs_eq (fits : RatFits platform x) (short : 0 ≤ x.num ∨ Short x.num) :
    clRatioAbs platform (canonRat x) = .ok (canonRat |x|) := by
  have absolute := clArithAbs_eq (canonical_canon fits.1) (by rw [toInt_canon]; exact short)
  rw [toInt_canon] at absolute
  obtain ⟨num, den⟩ := abs_num_den x
  rw [canonRat, canonRat, num, den]
  split
  · rw [clRatioAbs, absolute]
    rfl
  · rw [clRatioAbs, absolute]
    rfl

theorem clRatioZerop_eq (fits : RatFits platform x) :
    clRatioZerop (canonRat x) = decide (x = 0) := by
  have test := clArithZerop_eq (canonical_canon fits.1)
  rw [toInt_canon] at test
  simp only [Rat.num_eq_zero] at test
  rw [canonRat]
  split <;> rw [clRatioZerop, test]

theorem clRatioMinusp_eq (fits : RatFits platform x) :
    clRatioMinusp (canonRat x) = decide (x < 0) := by
  have test := clArithMinusp_eq (canonical_canon fits.1)
  rw [toInt_canon] at test
  simp only [Rat.num_neg] at test
  rw [canonRat]
  split <;> rw [clRatioMinusp, test]

theorem ratFits_div {n d : Int} (nFits : Fits platform n) (dFits : Fits platform d)
    (nonzero : d ≠ 0) : RatFits platform ((n : ℚ) / d) := by
  rw [← Rat.divInt_eq_div]
  constructor
  · by_cases zero : n = 0
    · subst zero
      simp only [Rat.zero_divInt, Rat.num_zero]
      exact nFits
    · exact nFits.of_natAbs_le (Nat.le_of_dvd (Int.natAbs_pos.mpr zero)
          (Int.natAbs_dvd_natAbs.mpr (Rat.num_dvd n nonzero)))
  · exact dFits.of_natAbs_le (Nat.le_of_dvd (Int.natAbs_pos.mpr nonzero)
        (Int.natAbs_dvd_natAbs.mpr (Rat.den_dvd n d)))

theorem RatFits.neg (fits : RatFits platform x) : RatFits platform (-x) := by
  rw [RatFits, Rat.num_neg_eq_neg_num, Rat.den_neg_eq_den]
  exact ⟨fits.1.neg, fits.2⟩

theorem RatFits.abs (fits : RatFits platform x) : RatFits platform |x| := by
  rcases abs_choice x with equal | equal
  · rw [equal]
    exact fits
  · rw [equal]
    exact fits.neg

/-- The result is the canonical object of `x`, or the storage error of the
first of the requested objects that is too large. -/
def ExactOrRequestError (platform : Platform) (result : Result ClNum) (x : ℚ)
    (requests : List Nat) : Prop :=
  match requests.findSome? (requestError platform) with
  | some error => result = .error error
  | none => ∃ object, result = .ok object ∧ object.Canonical platform ∧
      object.toRat = x

theorem allocAll_eq {α : Type} (requests : List Nat) (object : α) :
    allocAll platform requests object =
      match requests.findSome? (requestError platform) with
      | some error => .error error
      | none => .ok object := by
  induction requests with
  | nil => rfl
  | cons limbs rest induction =>
      rw [allocAll, List.findSome?_cons]
      cases requestError platform limbs with
      | some error => rfl
      | none => exact induction

theorem exactOrRequestError_allocAll {requests : List Nat}
    (fits : (∀ limbs ∈ requests, limbs ≤ maxLimbs platform) → RatFits platform x) :
    ExactOrRequestError platform (allocAll platform requests (canonRat x)) x
      requests := by
  unfold ExactOrRequestError
  rw [allocAll_eq]
  cases outcome : requests.findSome? (requestError platform) with
  | some error => rfl
  | none =>
      have few : ∀ limbs ∈ requests, limbs ≤ maxLimbs platform := by
        intro limbs member
        have passes := List.findSome?_eq_none_iff.mp outcome limbs member
        exact (requestError_eq_none_iff platform limbs).mp passes
      exact ⟨canonRat x, rfl, canonical_canonRat (fits few), toRat_canonRat x⟩

theorem exactOrRequestError_nil (fits : RatFits platform x) :
    ExactOrRequestError platform (.ok (canonRat x)) x [] :=
  ⟨canonRat x, rfl, canonical_canonRat fits, toRat_canonRat x⟩

theorem clRatioEqual_eq {a b : ClNum} (aCanonical : a.Canonical platform)
    (bCanonical : b.Canonical platform) (aRatio : a.toRat.den ≠ 1)
    (bRatio : b.toRat.den ≠ 1) :
    clRatioEqual a b = true ↔ a.toRat = b.toRat := by
  have aFits := aCanonical.ratFits
  have bFits := bCanonical.ratFits
  rw [aCanonical.eq_canonRat, bCanonical.eq_canonRat, toRat_canonRat, toRat_canonRat]
  generalize a.toRat = x at *
  generalize b.toRat = y at *
  rw [canonRat, canonRat, if_neg aRatio, if_neg bRatio, clRatioEqual,
    clArithCompare_eq (canonical_canon aFits.1) (canonical_canon bFits.1),
    clArithCompare_eq (canonical_canon aFits.2) (canonical_canon bFits.2)]
  simp only [toInt_canon, Bool.and_eq_true, beq_iff_eq, Int.sign_eq_zero_iff_zero,
    sub_eq_zero, Nat.cast_inj]
  constructor
  · rintro ⟨num, den⟩
    exact Rat.ext num den
  · rintro rfl
    exact ⟨rfl, rfl⟩

theorem fits_denominators {limbs : Nat} (few : limbs ≤ maxLimbs platform)
    (same : limbs = mulLimbs x.den y.den) :
    Fits platform (x.den * y.den : Int) ∧ (x.den * y.den : Int) ≠ 0 := by
  subst same
  refine ⟨fits_mul few, ?_⟩
  exact mul_ne_zero (by exact_mod_cast x.den_nz) (by exact_mod_cast y.den_nz)

/-- On canonical rationals the ratio functions are exact and canonical up to
the storage limit, the comparison is the order, and equality of ratio objects
is equality of their values. -/
theorem clRatio_exact (platform : Platform) (a b : ClNum)
    (aCanonical : a.Canonical platform) (bCanonical : b.Canonical platform)
    (x y : ℚ) (aValue : a.toRat = x) (bValue : b.toRat = y) :
    (NormShort (crossSum x y) (x.den * y.den) →
        ExactOrRequestError platform (clRatioAdd platform a b) (x + y)
          (sumRequests x y (crossSum x y))) ∧
      (NormShort (crossDiff x y) (x.den * y.den) →
        ExactOrRequestError platform (clRatioSub platform a b) (x - y)
          (sumRequests x y (crossDiff x y))) ∧
      (NormShort (x.num * y.num) (x.den * y.den) →
        ExactOrRequestError platform (clRatioMul platform a b) (x * y) (mulRequests x y)) ∧
      (y ≠ 0 → NormShort (x.num * y.den) (x.den * y.num) →
        ExactOrRequestError platform (clRatioDiv platform a b) (x / y) (divRequests x y)) ∧
      (y = 0 → clRatioDiv platform a b = .error ratioDivisionByZero) ∧
      (Short x.num → ExactOrRequestError platform (clRatioNegate platform a) (-x) []) ∧
      (0 ≤ x.num ∨ Short x.num → ExactOrRequestError platform (clRatioAbs platform a) |x| []) ∧
      clRatioCompare platform a b = allocAll platform [mulLimbs x.num y.den, mulLimbs y.num x.den]
          (if x < y then -1 else if x = y then 0 else 1) ∧
      (x.den ≠ 1 → y.den ≠ 1 → (clRatioEqual a b = true ↔ x = y)) ∧
      (x.den = 1 ∨ y.den = 1 → clRatioEqual a b = false) := by
  have xFits := aCanonical.ratFits
  have yFits := bCanonical.ratFits
  have equality := clRatioEqual_eq aCanonical bCanonical
  have aObject := aCanonical.eq_canonRat
  have bObject := bCanonical.eq_canonRat
  rw [aValue] at xFits equality aObject
  rw [bValue] at yFits equality bObject
  refine ⟨?_, ?_, ?_, ?_, ?_, ?_, ?_, ?_, equality, ?_⟩
  · intro short
    rw [aObject, bObject, clRatioAdd_eq xFits yFits short]
    apply exactOrRequestError_allocAll
    intro few
    simp only [sumRequests, List.forall_mem_cons] at few
    obtain ⟨denFits, nonzero⟩ := fits_denominators few.2.2.2.1 rfl
    rw [add_eq_cross]
    exact ratFits_div few.2.2.1 denFits nonzero
  · intro short
    rw [aObject, bObject, clRatioSub_eq xFits yFits short]
    apply exactOrRequestError_allocAll
    intro few
    simp only [sumRequests, List.forall_mem_cons] at few
    obtain ⟨denFits, nonzero⟩ := fits_denominators few.2.2.2.1 rfl
    rw [sub_eq_cross]
    exact ratFits_div few.2.2.1 denFits nonzero
  · intro short
    rw [aObject, bObject, clRatioMul_eq xFits yFits short]
    apply exactOrRequestError_allocAll
    intro few
    simp only [mulRequests, List.forall_mem_cons] at few
    obtain ⟨denFits, nonzero⟩ := fits_denominators few.2.1 rfl
    rw [mul_eq_cross]
    exact ratFits_div (fits_mul few.1) denFits nonzero
  · intro divisor short
    rw [aObject, bObject, clRatioDiv_eq xFits yFits divisor short]
    apply exactOrRequestError_allocAll
    intro few
    simp only [divRequests, List.forall_mem_cons] at few
    rw [div_eq_cross]
    apply ratFits_div (fits_mul few.1) (fits_mul few.2.1)
    exact mul_ne_zero (by exact_mod_cast x.den_nz) (Rat.num_ne_zero.mpr divisor)
  · intro zero
    rw [bObject, zero]
    exact clRatioDiv_zero a
  · intro short
    rw [aObject, clRatioNegate_eq xFits short]
    exact exactOrRequestError_nil xFits.neg
  · intro short
    rw [aObject, clRatioAbs_eq xFits short]
    exact exactOrRequestError_nil xFits.abs
  · rw [aObject, bObject, clRatioCompare_eq xFits yFits, sign_crossDiff]
  · intro integral
    rw [aObject, bObject, canonRat, canonRat]
    rcases integral with xIntegral | yIntegral
    · rw [if_pos xIntegral]
      rfl
    · rw [if_pos yIntegral]
      split <;> rfl

/-- One half and one third. -/
theorem clRatio_exact_half_third : ExactOrRequestError .m68k
      (clRatioAdd .m68k (.ratio (canon 1) (canon 2)) (.ratio (canon 1) (canon 3)))
      (1 / 2 + 1 / 3) (sumRequests (1 / 2) (1 / 3) (crossSum (1 / 2) (1 / 3))) := by
  refine (clRatio_exact .m68k (.ratio (canon 1) (canon 2))
    (.ratio (canon 1) (canon 3)) ?_ ?_ (1 / 2) (1 / 3) ?_ ?_).1 ?_
  · exact ⟨trivial, trivial, by decide, by decide⟩
  · exact ⟨trivial, trivial, by decide, by decide⟩
  · simp [ClNum.toRat]
  · simp [ClNum.toRat]
  · exact Or.inr (by norm_num [crossSum])

/-- Equality is defined on ratio objects only, and a sum can exceed the
storage limit. -/
theorem clRatio_integers_and_storage : (ClNum.Canonical .m68k (.int (canon 3)) ∧
      clRatioEqual (.int (canon 3)) (.int (canon 3)) = false) ∧
      ClNum.Canonical .m68k (.int (allOnes (maxLimbs .m68k))) ∧
        ¬ ∃ object, clRatioAdd .m68k (.int (allOnes (maxLimbs .m68k)))
          (.int (allOnes (maxLimbs .m68k))) = .ok object := by
  have canonical : ClNum.Canonical .m68k (.int (allOnes (maxLimbs .m68k))) :=
    canonical_allOnes (by decide) le_rfl
  refine ⟨⟨trivial, rfl⟩, canonical, ?_⟩
  rintro ⟨object, sum⟩
  have fits := canonical.ratFits
  have total := value_replicate_ones (maxLimbs .m68k)
  have large : (2 ^ 16) ^ 2 ≤ (2 ^ 16) ^ maxLimbs .m68k :=
    Nat.pow_le_pow_right (by omega) (by decide)
  rw [canonical.eq_canonRat] at sum
  simp only [ClNum.toRat, allOnes, ClInt.toInt, signed, Bool.false_eq_true,
    if_false, Int.cast_natCast] at sum fits
  generalize value (List.replicate (maxLimbs .m68k) (BitVec.ofNat 16 0xFFFF)) =
    ones at *
  have cross : crossSum (ones : ℚ) (ones : ℚ) = ones + ones := by
    simp [crossSum]
  have short : NormShort (crossSum (ones : ℚ) (ones : ℚ)) ((ones : ℚ).den * (ones : ℚ).den) := by
    rw [cross]
    exact Or.inr (by simp)
  rw [clRatioAdd_eq fits fits short, allocAll_eq_ok_iff, cross] at sum
  simp only [sumRequests, List.forall_mem_cons] at sum
  have bound := lt_of_limbCount_le sum.1.2.2.1
  generalize (2 ^ 16) ^ maxLimbs .m68k = limit at bound large total
  omega

end ClAmiga.Number
