import ClAmiga.Number.Integer

/-!
# Exactness of integer arithmetic

An integer object denotes an integer; in canonical representation it is a
fixnum, or a bignum without a zero limb at the top whose value no fixnum can
hold.  `canon` is that representation as a function of the integer, and
`alloc` adds the storage limit of `cl_make_bignum`.  Every operation is then
specified by one equation: on canonical operands it is `alloc` of the exact
result.
-/

namespace ClAmiga.Number

open Radix Bignum

def signed (sign : Bool) (magnitude : Nat) : Int :=
  if sign then -(magnitude : Int) else magnitude

def maxLimbs : Platform → Nat
  | .host _ => 4194294
  | .m68k => 4194296

theorem requestError_eq_none_iff (platform : Platform) (limbs : Nat) :
    requestError platform limbs = none ↔ limbs ≤ maxLimbs platform := by
  have checks : requestError platform limbs = none ↔ limbs ≤ clMaxBignumLimbs ∧
        allocSize platform (12 + limbs * 2) ≤ 0x007FFFFF := by
    by_cases many : limbs > clMaxBignumLimbs
    · simp [requestError, many]
    · by_cases large : allocSize platform (12 + limbs * 2) > 0x007FFFFF
      · simp [requestError, many, large]
      · simp [requestError, many, large]
        omega
  rw [checks]
  cases platform with
  | host int128 =>
      simp only [clMaxBignumLimbs, allocSize, clAlign, maxLimbs]
      omega
  | m68k =>
      simp only [clMaxBignumLimbs, allocSize, clAlign, maxLimbs]
      omega

variable {platform : Platform}

namespace ClInt

def toInt : ClInt → Int
  | .fixnum word => word.toInt
  | .bignum sign limbs => signed sign (value limbs)

def Canonical (platform : Platform) : ClInt → Prop
  | .fixnum _ => True
  | .bignum sign limbs =>
      Normalized limbs ∧ limbs.length ≤ maxLimbs platform ∧
        ¬ (clFixnumMin ≤ signed sign (value limbs) ∧
          signed sign (value limbs) ≤ clFixnumMax)

end ClInt

def InFixnumRange (z : Int) : Prop :=
  clFixnumMin ≤ z ∧ z ≤ clFixnumMax

instance (z : Int) : Decidable (InFixnumRange z) :=
  inferInstanceAs (Decidable (_ ∧ _))

/-- The canonical representation, as a function of the integer. -/
def canon (z : Int) : ClInt :=
  if InFixnumRange z then clMakeFixnum z
  else .bignum (decide (z < 0)) (ofNat 16 z.natAbs)

def limbCount (z : Int) : Nat :=
  (ofNat 16 z.natAbs).length

def Fits (platform : Platform) (z : Int) : Prop :=
  limbCount z ≤ maxLimbs platform

/-- The canonical object of an integer, or the storage error that a request
for `limbs` limbs ends in. -/
def allocWith (platform : Platform) (limbs : Nat) (z : Int) : Result ClInt :=
  match requestError platform limbs with
  | some error => .error error
  | none => .ok (canon z)

def alloc (platform : Platform) (z : Int) : Result ClInt :=
  allocWith platform (limbCount z) z

variable {z : Int}

theorem allocWith_of_le {limbs : Nat} (few : limbs ≤ maxLimbs platform) :
    allocWith platform limbs z = .ok (canon z) := by
  rw [allocWith, (requestError_eq_none_iff platform limbs).mpr few]

theorem alloc_of_fits (fits : Fits platform z) : alloc platform z = .ok (canon z) :=
  allocWith_of_le fits

theorem clMakeBignum_normalize (sign : Bool) (limbs : List Limb)
    (normalizes : clBignumNormalize (.bignum sign limbs) = canon z) :
    (do
      let obj ← clMakeBignum platform sign limbs
      return clBignumNormalize obj) = allocWith platform limbs.length z := by
  unfold clMakeBignum allocWith
  cases requestError platform limbs.length with
  | some error => rfl
  | none => exact congrArg Except.ok normalizes

theorem word_range (word : BitVec 31) : InFixnumRange word.toInt := by
  have low := BitVec.le_toInt word
  have high := BitVec.toInt_lt (x := word)
  simp only [InFixnumRange, clFixnumMin, clFixnumMax]
  omega

theorem toInt_clMakeFixnum (range : InFixnumRange z) : (clMakeFixnum z).toInt = z := by
  simp only [InFixnumRange, clFixnumMin, clFixnumMax] at range
  simp only [clMakeFixnum, ClInt.toInt, BitVec.toInt_ofInt]
  apply Int.bmod_eq_of_le <;> omega

theorem clMakeFixnum_toInt (word : BitVec 31) : clMakeFixnum word.toInt = .fixnum word := by
  rw [clMakeFixnum, BitVec.ofInt_toInt]

theorem canon_of_range (range : InFixnumRange z) : canon z = clMakeFixnum z :=
  if_pos range

theorem canon_of_not_range (outside : ¬ InFixnumRange z) :
    canon z = .bignum (decide (z < 0)) (ofNat 16 z.natAbs) :=
  if_neg outside

theorem signed_natAbs (z : Int) : signed (decide (z < 0)) z.natAbs = z := by
  unfold signed
  by_cases negative : z < 0
  · simp only [negative, decide_true, if_true]
    omega
  · simp only [negative, decide_false, Bool.false_eq_true, if_false]
    omega

theorem natAbs_signed (sign : Bool) (magnitude : Nat) :
    (signed sign magnitude).natAbs = magnitude := by
  cases sign <;> simp [signed]

theorem signed_neg_iff {sign : Bool} {magnitude : Nat}
    (positive : 0 < magnitude) : signed sign magnitude < 0 ↔ sign = true := by
  cases sign <;> simp [signed]
  omega

theorem normalized_ofNat16 {magnitude : Nat} (nonzero : magnitude ≠ 0) :
    Normalized (ofNat 16 magnitude) :=
  normalized_ofNat (by omega) nonzero

theorem value_ofNat16 (magnitude : Nat) : value (ofNat 16 magnitude) = magnitude :=
  value_ofNat (by omega) magnitude

theorem length_eq_limbCount {limbs : List Limb} (normalized : Normalized limbs)
    (sign : Bool) : limbs.length = limbCount (signed sign (value limbs)) := by
  rw [limbCount, natAbs_signed, ← normalized.eq_ofNat (by omega)]

theorem limbCount_le {count : Nat} (small : z.natAbs < (2 ^ 16) ^ count) : limbCount z ≤ count := by
  by_cases zero : z.natAbs = 0
  · simp [limbCount, zero, ofNat]
  · have atLeast := (normalized_ofNat16 zero).value_ge
    rw [value_ofNat16] at atLeast
    have bounded : (2 ^ 16) ^ ((ofNat 16 z.natAbs).length - 1) <
        (2 ^ 16) ^ count := lt_of_le_of_lt atLeast small
    have := (Nat.pow_lt_pow_iff_right (by omega)).mp bounded
    have := (normalized_ofNat16 zero).trimmed.length_pos
    unfold limbCount
    omega

theorem lt_of_limbCount_le {count : Nat}
    (few : limbCount z ≤ count) : z.natAbs < (2 ^ 16) ^ count := by
  have bound := value_lt (ofNat 16 z.natAbs)
  rw [value_ofNat16] at bound
  exact bound.trans_le (Nat.pow_le_pow_right (by omega) few)

theorem limbCount_neg (z : Int) : limbCount (-z) = limbCount z := by
  rw [limbCount, limbCount, Int.natAbs_neg]

theorem Fits.of_natAbs_le {small large : Int} (fits : Fits platform large)
    (le : small.natAbs ≤ large.natAbs) : Fits platform small :=
  limbCount_le (lt_of_le_of_lt le (lt_of_limbCount_le fits))

theorem le_maxLimbs {limbs : Nat} (few : limbs ≤ 4) : limbs ≤ maxLimbs platform := by
  cases platform <;> simp only [maxLimbs] <;> omega

theorem Fits.of_range (range : InFixnumRange z) : Fits platform z := by
  simp only [InFixnumRange, clFixnumMin, clFixnumMax] at range
  have few : limbCount z ≤ 2 := limbCount_le (by omega)
  exact le_maxLimbs (by omega)

theorem canonical_canon (fits : Fits platform z) : (canon z).Canonical platform := by
  by_cases range : InFixnumRange z
  · rw [canon_of_range range]
    trivial
  · have nonzero : z.natAbs ≠ 0 := by
      intro zero
      apply range
      simp only [InFixnumRange, clFixnumMin, clFixnumMax]
      omega
    rw [canon_of_not_range range]
    refine ⟨normalized_ofNat16 nonzero, fits, ?_⟩
    rw [value_ofNat16, signed_natAbs]
    exact range

@[simp] theorem toInt_canon (z : Int) : (canon z).toInt = z := by
  by_cases range : InFixnumRange z
  · rw [canon_of_range range, toInt_clMakeFixnum range]
  · rw [canon_of_not_range range, ClInt.toInt, value_ofNat16, signed_natAbs]

theorem ClInt.Canonical.eq_canon {a : ClInt} (canonical : a.Canonical platform) :
    a = canon a.toInt := by
  cases a with
  | fixnum word =>
      rw [ClInt.toInt, canon_of_range (word_range word), clMakeFixnum_toInt]
  | bignum sign limbs =>
      obtain ⟨normalized, _, outside⟩ := canonical
      have positive := normalized.value_pos
      rw [ClInt.toInt, canon_of_not_range outside, natAbs_signed, ← normalized.eq_ofNat (by omega)]
      congr 1
      rw [Bool.eq_iff_iff, decide_eq_true_iff, signed_neg_iff positive]

theorem ClInt.Canonical.fits {a : ClInt} (canonical : a.Canonical platform) :
    Fits platform a.toInt := by
  cases a with
  | fixnum word => exact Fits.of_range (word_range word)
  | bignum sign limbs =>
      obtain ⟨normalized, few, _⟩ := canonical
      rw [Fits, ClInt.toInt, ← length_eq_limbCount normalized]
      exact few

/-- Sign and limbs of a canonical integer. -/
theorem toLimbs_spec {a : ClInt} (canonical : a.Canonical platform) : Trimmed (toLimbs a).2 ∧
      signed (toLimbs a).1 (value (toLimbs a).2) = a.toInt ∧
      ((toLimbs a).1 = true ↔ a.toInt < 0) := by
  cases a with
  | fixnum word =>
      have range := word_range word
      simp only [InFixnumRange, clFixnumMin, clFixnumMax] at range
      simp only [toLimbs, ClInt.toInt]
      generalize word.toInt = val at range ⊢
      have magnitude : value (if (BitVec.ofNat 16 (val.natAbs >>> 16) : Limb) ≠ 0
          then [BitVec.ofNat 16 val.natAbs, (BitVec.ofNat 16 (val.natAbs >>> 16) : Limb)]
          else [BitVec.ofNat 16 val.natAbs]) = val.natAbs := by
        have highExact : val.natAbs >>> 16 < 2 ^ 16 := by
          rw [Nat.shiftRight_eq_div_pow]
          omega
        have split := word_add_shift 16 val.natAbs
        split
        · simp only [value_cons, value_nil]
          rw [BitVec.toNat_ofNat (val.natAbs >>> 16), Nat.mod_eq_of_lt highExact]
          omega
        · rename_i zero
          have highZero : val.natAbs >>> 16 = 0 := by
            have topZero := congrArg BitVec.toNat (not_not.mp zero)
            rw [BitVec.toNat_ofNat, Nat.mod_eq_of_lt highExact] at topZero
            simpa using topZero
          simp only [value_cons, value_nil]
          omega
      refine ⟨?_, ?_, by simp⟩
      · split
        · rename_i nonzero
          exact ⟨[_], _, rfl, Or.inr nonzero⟩
        · exact trimmed_singleton _
      · rw [magnitude, signed_natAbs]
  | bignum sign limbs =>
      obtain ⟨normalized, _, _⟩ := canonical
      refine ⟨normalized.trimmed, rfl, ?_⟩
      exact (signed_neg_iff normalized.value_pos).symm

theorem or_shift16 (l0 l1 : Limb) : l0.toNat ||| (l1.toNat <<< 16) = value [l0, l1] := by
  have l0Bound := l0.isLt
  rw [Nat.shiftLeft_eq, Nat.or_comm, Nat.mul_comm, ← Nat.two_pow_add_eq_or_of_lt l0Bound]
  simp only [value_cons, value_nil]
  omega

theorem demote_eq (sign : Bool) (limbs : List Limb) (trimmed : Trimmed limbs) :
    (if value limbs = 0 then clMakeFixnum 0
      else if sign = false ∧ (value limbs : Int) ≤ clFixnumMax then
        clMakeFixnum (value limbs)
      else if sign = true ∧ value limbs ≤ 0x40000000 then
        clMakeFixnum (-(value limbs : Int))
      else .bignum sign limbs) = canon (signed sign (value limbs)) := by
  have maxEq : clFixnumMax = 0x3FFFFFFF := rfl
  have minEq : clFixnumMin = -0x40000000 := rfl
  by_cases zero : value limbs = 0
  · have range : InFixnumRange (signed sign (value limbs)) := by
      simp [zero, signed, InFixnumRange, clFixnumMin, clFixnumMax]
    rw [if_pos zero, canon_of_range range, zero]
    cases sign <;> rfl
  · rw [if_neg zero]
    have normalized := trimmed.normalized_of_value_pos (Nat.pos_of_ne_zero zero)
    have asBignum (outside : ¬ InFixnumRange (signed sign (value limbs))) :
        ClInt.bignum sign limbs = canon (signed sign (value limbs)) := by
      rw [canon_of_not_range outside, natAbs_signed, ← normalized.eq_ofNat (by omega)]
      congr 1
      rw [Bool.eq_iff_iff, decide_eq_true_iff, signed_neg_iff (Nat.pos_of_ne_zero zero)]
    cases sign with
    | false =>
        by_cases small : (value limbs : Int) ≤ clFixnumMax
        · rw [if_pos ⟨rfl, small⟩, canon_of_range]
          · rfl
          · simp only [InFixnumRange, signed]
            simp only [maxEq, minEq, Bool.false_eq_true, if_false] at small ⊢
            omega
        · rw [if_neg (by simp [small]), if_neg (by simp)]
          apply asBignum
          simp only [InFixnumRange, signed, Bool.false_eq_true, if_false]
          exact fun range => small range.2
    | true =>
        by_cases small : value limbs ≤ 0x40000000
        · rw [if_neg (by simp), if_pos ⟨rfl, small⟩, canon_of_range]
          · rfl
          · simp only [InFixnumRange, signed, if_true, maxEq, minEq]
            omega
        · rw [if_neg (by simp), if_neg (by simp [small])]
          apply asBignum
          simp only [InFixnumRange, signed, if_true, maxEq, minEq]
          omega

theorem clBignumNormalize_eq (sign : Bool) {limbs : List Limb} (nonempty : limbs ≠ []) :
    clBignumNormalize (.bignum sign limbs) = canon (signed sign (value limbs)) := by
  have trimmed := trimmed_strip nonempty
  have sameValue := value_strip limbs
  rw [← sameValue]
  simp only [clBignumNormalize]
  generalize strip limbs = stripped at trimmed sameValue ⊢
  split
  · rename_i l0
    have oneLimb : l0.toNat = value [l0] := by simp
    rw [oneLimb]
    exact demote_eq sign [l0] trimmed
  · rename_i l0 l1
    rw [or_shift16]
    exact demote_eq sign [l0, l1] trimmed
  · rename_i notOne notTwo
    have long : 3 ≤ stripped.length := by
      match stripped, trimmed.ne_nil with
      | [l0], _ => exact (notOne l0 rfl).elim
      | [l0, l1], _ => exact (notTwo l0 l1 rfl).elim
      | _ :: _ :: _ :: _, _ => simp
    have normalized := trimmed.normalized_of_two_le (by omega)
    have large : (2 ^ 16) ^ 2 ≤ value stripped :=
      (Nat.pow_le_pow_right (by omega) (by omega)).trans normalized.value_ge
    have outside : ¬ InFixnumRange (signed sign (value stripped)) := by
      simp only [InFixnumRange, clFixnumMin, clFixnumMax, signed]
      split <;> omega
    rw [canon_of_not_range outside, natAbs_signed, ← normalized.eq_ofNat (by omega)]
    congr 1
    rw [Bool.eq_iff_iff, decide_eq_true_iff, signed_neg_iff normalized.value_pos]

theorem bignumFromLimbs_eq (sign : Bool) {limbs : List Limb} (nonempty : limbs ≠ []) :
    bignumFromLimbs platform limbs sign = alloc platform (signed sign (value limbs)) := by
  have trimmed := trimmed_strip nonempty
  have sameValue := value_strip limbs
  rw [← sameValue]
  simp only [bignumFromLimbs]
  generalize strip limbs = stripped at trimmed ⊢
  by_cases zero : stripped = [0]
  · have vanish : signed sign (value [(0 : Limb)]) = 0 := by
      simp [signed]
    rw [if_pos zero, zero, vanish, alloc_of_fits (Fits.of_range (by decide))]
    rfl
  · have positive : 0 < value stripped := by
      apply Nat.pos_of_ne_zero
      intro valueZero
      apply zero
      exact trimmed.eq_of_value_eq (trimmed_singleton 0) (by simpa using valueZero)
    have normalized := trimmed.normalized_of_value_pos positive
    rw [if_neg zero, alloc, ← length_eq_limbCount normalized]
    exact clMakeBignum_normalize sign stripped (clBignumNormalize_eq sign trimmed.ne_nil)

theorem bignumFromUint32_eq (sign : Bool) {val : Nat} (bound : val < 2 ^ 32) :
    bignumFromUint32 platform val sign = .ok (canon (signed sign val)) := by
  have highExact : val >>> 16 < 2 ^ 16 := by
    rw [Nat.shiftRight_eq_div_pow]
    omega
  have limbsValue : value [(BitVec.ofNat 16 val : Limb), BitVec.ofNat 16 (val >>> 16)] =
        val := by
    have split := word_add_shift 16 val
    simp only [value_cons, value_nil]
    rw [BitVec.toNat_ofNat (val >>> 16), Nat.mod_eq_of_lt highExact]
    omega
  unfold bignumFromUint32
  split
  · rename_i zero
    subst zero
    cases sign <;> decide
  · split
    · rename_i fits
      rw [fits.1, canon_of_range]
      · rfl
      · have := fits.2
        simp only [clFixnumMax] at this
        simp only [InFixnumRange, clFixnumMin, clFixnumMax, signed, Bool.false_eq_true, if_false]
        omega
    · split
      · rename_i fits
        rw [fits.1, canon_of_range]
        · rfl
        · simp only [InFixnumRange, clFixnumMin, clFixnumMax, signed, if_true]
          omega
      · have nonempty : [BitVec.ofNat 16 val, BitVec.ofNat 16 (val >>> 16)] ≠ [] := by
          simp
        have normalizes := clBignumNormalize_eq sign nonempty
        rw [limbsValue] at normalizes
        rw [clMakeBignum_normalize sign _ normalizes]
        exact allocWith_of_le (le_maxLimbs (by simp))

end ClAmiga.Number
