import ClAmiga.Number.IntegerSpec

/-!
# Sum, difference, product and order of canonical integers

Every path of `cl_arith_add`, `cl_arith_sub`, `cl_arith_mul` and
`cl_arith_compare`: the fixnum fast paths, the sign cases of the magnitude
code, and the multiplication kernels of each platform.
-/

namespace ClAmiga.Number

open Radix Bignum

variable {platform : Platform}

theorem signed_add_same (sign : Bool) (left right : Nat) :
    signed sign (left + right) = signed sign left + signed sign right := by
  cases sign <;> simp [signed]
  omega

theorem signed_not (sign : Bool) (magnitude : Nat) :
    signed (!sign) magnitude = -signed sign magnitude := by
  cases sign <;> simp [signed]

variable {a b : ClInt}

/-- The magnitude code adds the operands after an optional sign flip of the
second one. -/
theorem bignumAddsub_eq (aCanonical : a.Canonical platform)
    (bCanonical : b.Canonical platform) (subtract : Bool) :
    bignumAddsub platform a b subtract =
      alloc platform (a.toInt + (if subtract then -b.toInt else b.toInt)) := by
  obtain ⟨aTrimmed, aValue, _⟩ := toLimbs_spec aCanonical
  obtain ⟨bTrimmed, bValue, _⟩ := toLimbs_spec bCanonical
  unfold bignumAddsub
  generalize toLimbs a = aLimbs at aTrimmed aValue ⊢
  generalize toLimbs b = bLimbs at bTrimmed bValue ⊢
  obtain ⟨aSign, al⟩ := aLimbs
  obtain ⟨bSign₀, bl⟩ := bLimbs
  simp only at aTrimmed aValue bTrimmed bValue ⊢
  have flipped : signed (if subtract = true then !bSign₀ else bSign₀)
      (value bl) = if subtract then -b.toInt else b.toInt := by
    cases subtract with
    | true => rw [if_pos rfl, if_pos rfl, signed_not, bValue]
    | false => rw [if_neg (by simp), if_neg (by simp), bValue]
  rw [← flipped, ← aValue]
  generalize (if subtract = true then !bSign₀ else bSign₀) = bSign
  by_cases same : aSign = bSign
  · subst bSign
    rw [if_pos rfl, bignumFromLimbs_eq aSign (bignumAddMag_ne_nil aTrimmed.ne_nil bTrimmed.ne_nil),
      value_bignumAddMag, signed_add_same]
  · have opposite : bSign = !aSign := by
      cases aSign <;> cases bSign <;> simp_all
    rw [if_neg same, bignumCompareMag, compareLimbs_eq aTrimmed bTrimmed, opposite, signed_not]
    have shorter : ∀ {x y : List Limb}, Trimmed x → Trimmed y →
        value x ≤ value y → x.length ≤ y.length := by
      intro x y xTrimmed yTrimmed le
      by_contra longer
      have := yTrimmed.value_lt_of_length_lt xTrimmed (by omega)
      omega
    rcases Nat.lt_trichotomy (value al) (value bl) with less | equal | greater
    · rw [Nat.compare_eq_lt.mpr less]
      simp only
      rw [bignumFromLimbs_eq _ (trimmed_bignumSubMag bTrimmed.ne_nil).ne_nil,
        value_bignumSubMag (shorter aTrimmed bTrimmed less.le) less.le]
      congr 1
      cases aSign <;> simp [signed] <;> omega
    · rw [equal, Nat.compare_eq_eq.mpr rfl]
      simp only
      have cancel : signed aSign (value bl) + -signed aSign (value bl) = 0 := by
        omega
      rw [cancel, alloc_of_fits (Fits.of_range (by decide))]
      rfl
    · rw [Nat.compare_eq_gt.mpr greater]
      simp only
      rw [bignumFromLimbs_eq _ (trimmed_bignumSubMag aTrimmed.ne_nil).ne_nil,
        value_bignumSubMag (shorter bTrimmed aTrimmed greater.le) greater.le]
      congr 1
      cases aSign <;> simp [signed] <;> omega

theorem alloc_of_range {z : Int} (range : InFixnumRange z) :
    alloc platform z = .ok (clMakeFixnum z) := by
  rw [alloc_of_fits (Fits.of_range range), canon_of_range range]

theorem clArithAdd_eq (aCanonical : a.Canonical platform) (bCanonical : b.Canonical platform) :
    clArithAdd platform a b = alloc platform (a.toInt + b.toInt) := by
  have general := bignumAddsub_eq aCanonical bCanonical false
  simp only [Bool.false_eq_true, if_false] at general
  unfold clArithAdd
  split
  · simp only
    split
    · rename_i va vb range
      exact (alloc_of_range range).symm
    · exact general
  · exact general

theorem clArithSub_eq (aCanonical : a.Canonical platform) (bCanonical : b.Canonical platform) :
    clArithSub platform a b = alloc platform (a.toInt - b.toInt) := by
  have general := bignumAddsub_eq aCanonical bCanonical true
  simp only [if_true, ← Int.sub_eq_add_neg] at general
  unfold clArithSub
  split
  · simp only
    split
    · rename_i va vb range
      exact (alloc_of_range range).symm
    · exact general
  · exact general

theorem signed_mul (aSign bSign : Bool) (left right : Nat) :
    signed (aSign != bSign) (left * right) = signed aSign left * signed bSign right := by
  cases aSign <;> cases bSign <;> simp [signed]

theorem mulGeneral_eq (aCanonical : a.Canonical platform) (bCanonical : b.Canonical platform) :
    mulGeneral platform a b = alloc platform (a.toInt * b.toInt) := by
  obtain ⟨aTrimmed, aValue, _⟩ := toLimbs_spec aCanonical
  obtain ⟨bTrimmed, bValue, _⟩ := toLimbs_spec bCanonical
  unfold mulGeneral
  generalize toLimbs a = aLimbs at aTrimmed aValue ⊢
  generalize toLimbs b = bLimbs at bTrimmed bValue ⊢
  obtain ⟨aSign, al⟩ := aLimbs
  obtain ⟨bSign, bl⟩ := bLimbs
  simp only at aTrimmed aValue bTrimmed bValue ⊢
  have zeroResult : alloc platform 0 = .ok (clMakeFixnum 0) :=
    alloc_of_range (by decide)
  rw [← aValue, ← bValue, ← signed_mul]
  split
  · rename_i zero
    rw [zero]
    have vanish : signed (aSign != bSign) (value [(0 : Limb)] * value bl) = 0 := by
      simp [signed]
    rw [vanish, zeroResult]
  · split
    · rename_i zero
      rw [zero]
      have vanish : signed (aSign != bSign) (value al * value [(0 : Limb)]) = 0 := by
        simp [signed]
      rw [vanish, zeroResult]
    · cases platform with
      | host int128 =>
          have packNonempty := pack16To32_ne_nil aTrimmed.ne_nil
          simp only [bignumMulMag32]
          rw [bignumFromLimbs_eq _ (unpack32To16_trimmed
              (trimmed_mulSchoolbook packNonempty).ne_nil).ne_nil,
            value_unpack32To16, value_mulSchoolbook, value_pack16To32,
            value_pack16To32]
      | m68k =>
          simp only [bignumMulMag]
          rw [bignumFromLimbs_eq _ (trimmed_mulSchoolbook aTrimmed.ne_nil).ne_nil,
            value_mulSchoolbook]

theorem partial_products {ua ub cross : Nat} (notBoth : ¬ (ua >>> 16 ≠ 0 ∧ ub >>> 16 ≠ 0))
    (uaBound : ua < 2 ^ 32) (ubBound : ub < 2 ^ 32)
    (crossEq : cross = (if ua >>> 16 ≠ 0 then (ua >>> 16) * (ub % 2 ^ 16)
      else (ua % 2 ^ 16) * (ub >>> 16)) % 2 ^ 32) :
    ua * ub = (ua % 2 ^ 16) * (ub % 2 ^ 16) + cross * 2 ^ 16 := by
  have splitA := Nat.mod_add_div ua (2 ^ 16)
  have splitB := Nat.mod_add_div ub (2 ^ 16)
  simp only [Nat.shiftRight_eq_div_pow] at notBoth crossEq
  have highA : ua / 2 ^ 16 < 2 ^ 16 := by omega
  have highB : ub / 2 ^ 16 < 2 ^ 16 := by omega
  have lowA : ua % 2 ^ 16 < 2 ^ 16 := Nat.mod_lt _ (by omega)
  have lowB : ub % 2 ^ 16 < 2 ^ 16 := Nat.mod_lt _ (by omega)
  generalize ua / 2 ^ 16 = aHi at *
  generalize ub / 2 ^ 16 = bHi at *
  generalize ua % 2 ^ 16 = aLo at *
  generalize ub % 2 ^ 16 = bLo at *
  have crossA : aHi * bLo ≤ (2 ^ 16 - 1) * 2 ^ 16 :=
    Nat.mul_le_mul (by omega) (by omega)
  have crossB : aLo * bHi ≤ (2 ^ 16 - 1) * 2 ^ 16 :=
    Nat.mul_le_mul (by omega) (by omega)
  have expanded : ua * ub = aLo * bLo + (aHi * bLo + aLo * bHi) * 2 ^ 16 + aHi * bHi * 2 ^ 32 := by
    rw [← splitA, ← splitB]
    ring
  by_cases aZero : aHi = 0
  · rw [if_neg (by simpa using aZero), Nat.mod_eq_of_lt (by omega)] at crossEq
    rw [expanded, aZero, crossEq]
    ring
  · have bZero : bHi = 0 := by
      by_contra bNonzero
      exact notBoth ⟨aZero, bNonzero⟩
    rw [if_pos aZero, Nat.mod_eq_of_lt (by omega)] at crossEq
    rw [expanded, bZero, crossEq]
    ring

/-- A 32-bit product that is kept is exact. -/
theorem mulUint32_spec {ua ub prod : Nat} (uaBound : ua < 2 ^ 32)
    (ubBound : ub < 2 ^ 32) (kept : mulUint32 ua ub = some prod) :
    prod = ua * ub ∧ prod < 2 ^ 32 := by
  simp only [mulUint32] at kept
  split at kept
  · simp at kept
  · rename_i notBoth
    have product := partial_products notBoth uaBound ubBound rfl
    generalize (if ua >>> 16 ≠ 0 then (ua >>> 16) * (ub % 2 ^ 16)
      else (ua % 2 ^ 16) * (ub >>> 16)) % 2 ^ 32 = cross at product kept
    have lowBound : (ua % 2 ^ 16) * (ub % 2 ^ 16) ≤ (2 ^ 16 - 1) * (2 ^ 16 - 1) :=
      Nat.mul_le_mul (by omega) (by omega)
    rw [Nat.mod_eq_of_lt (show (ua % 2 ^ 16) * (ub % 2 ^ 16) < 2 ^ 32 by
      omega)] at kept
    generalize (ua % 2 ^ 16) * (ub % 2 ^ 16) = prodLo at *
    split at kept
    · simp at kept
    · split at kept
      · simp at kept
      · rename_i crossSmall sumSmall
        rw [Nat.shiftRight_eq_div_pow] at sumSmall
        rw [Nat.shiftLeft_eq, ← product] at kept
        have bound : ua * ub < 2 ^ 32 := by omega
        rw [Nat.mod_eq_of_lt bound] at kept
        have equality := Option.some.inj kept
        omega

theorem fixnumProduct_eq (neg : Bool) {prod : Nat} (bound : prod < 2 ^ 32) :
    fixnumProduct platform prod neg = .ok (canon (signed neg prod)) := by
  have made : bignumFromUint32 platform prod neg = .ok (canon (signed neg prod)) :=
    bignumFromUint32_eq neg bound
  rw [← made]
  unfold fixnumProduct bignumFromUint32
  by_cases zero : prod = 0
  · subst zero
    cases neg <;> rfl
  · rw [if_neg zero]
    split
    · rfl
    · split <;> rfl

theorem mulFixnums_eq {x y : Int} {result : Result ClInt}
    (aObject : a = canon x) (bObject : b = canon y)
    (xBound : x.natAbs < 2 ^ 32) (yBound : y.natAbs < 2 ^ 32)
    (finished : mulFixnums platform a b x y = some result) :
    result = .ok (canon (x * y)) := by
  unfold mulFixnums at finished
  split at finished
  · rename_i zero
    have vanish : x * y = 0 := by
      rcases zero with rfl | rfl <;> simp
    rw [vanish, ← Option.some.inj finished]
    rfl
  · split at finished
    · rename_i one
      rw [← Option.some.inj finished, one, Int.one_mul, bObject]
    · split at finished
      · rename_i one
        rw [← Option.some.inj finished, one, Int.mul_one, aObject]
      · obtain ⟨prod, kept, equality⟩ := Option.map_eq_some_iff.mp finished
        obtain ⟨prodEq, prodBound⟩ := mulUint32_spec xBound yBound kept
        rw [← equality, fixnumProduct_eq _ prodBound, prodEq, signed_mul,
          signed_natAbs, signed_natAbs]

theorem size_value {limbs : List Limb} (normalized : Normalized limbs) : (limbs.length - 1) * 16 +
        bitLength32 (limbs.getD (limbs.length - 1) 0).toNat =
      (value limbs).size := by
  obtain ⟨low, top, rfl, nonzero⟩ := normalized
  have topPositive := toNat_pos_of_ne_zero nonzero
  have topLimb : (low ++ [top]).getD ((low ++ [top]).length - 1) 0 = top := by
    simp [List.getD_eq_getElem?_getD]
  have radix : (2 ^ 16) ^ low.length = 2 ^ (low.length * 16) := by
    rw [← pow_mul, Nat.mul_comm]
  have lowBound := value_lt low
  have sizePositive : 0 < top.toNat.size := Nat.size_pos.mpr topPositive
  rw [topLimb, bitLength32, value_append, radix]
  rw [radix] at lowBound
  simp only [List.length_append, List.length_singleton, Nat.add_sub_cancel,
    value_cons, value_nil, Nat.mul_zero, Nat.add_zero]
  apply le_antisymm
  · have lower : 2 ^ (top.toNat.size - 1) ≤ top.toNat :=
      Nat.lt_size.mp (by omega)
    have strict : low.length * 16 + (top.toNat.size - 1) <
        (value low + 2 ^ (low.length * 16) * top.toNat).size := by
      rw [Nat.lt_size, pow_add]
      exact (Nat.mul_le_mul_left _ lower).trans (Nat.le_add_left _ _)
    omega
  · rw [Nat.size_le, pow_add]
    have upper : top.toNat + 1 ≤ 2 ^ top.toNat.size := Nat.lt_size_self _
    calc
      value low + 2 ^ (low.length * 16) * top.toNat
          < 2 ^ (low.length * 16) + 2 ^ (low.length * 16) * top.toNat :=
        Nat.add_lt_add_right lowBound _
      _ = 2 ^ (low.length * 16) * (top.toNat + 1) := by ring
      _ ≤ 2 ^ (low.length * 16) * 2 ^ top.toNat.size :=
        Nat.mul_le_mul_left _ upper

/-- Limbs of the object that `cl_arith_mul` allocates for a bignum times a
fixnum: the bit lengths of the operands, rounded up to limbs. -/
def mixedLimbs (x y : Int) : Nat :=
  (x.natAbs.size + y.natAbs.size + 15) / 16

/-- Limbs of the object a product is stored in: the product's own limbs, except
that a bignum times a fixnum other than 0 and 1 is sized from the operands. -/
def mulLimbs (x y : Int) : Nat :=
  if InFixnumRange x ↔ InFixnumRange y then limbCount (x * y)
  else
    let v := if InFixnumRange x then x else y
    if v = 0 ∨ v = 1 then limbCount (x * y) else mixedLimbs x y

theorem mixedLimbs_comm (x y : Int) : mixedLimbs x y = mixedLimbs y x := by
  rw [mixedLimbs, mixedLimbs, Nat.add_comm x.natAbs.size]

theorem mulLimbs_of_iff {x y : Int} (same : InFixnumRange x ↔ InFixnumRange y) :
    mulLimbs x y = limbCount (x * y) :=
  if_pos same

theorem mulLimbs_of_mixed {x v : Int} (outside : ¬ InFixnumRange x) (range : InFixnumRange v) :
    mulLimbs x v =
      if v = 0 ∨ v = 1 then limbCount (x * v) else mixedLimbs x v := by
  have different : ¬ (InFixnumRange x ↔ InFixnumRange v) :=
    fun iff => outside (iff.mpr range)
  rw [mulLimbs, if_neg different]
  simp only [outside, if_false]

theorem mulLimbs_comm (x y : Int) : mulLimbs x y = mulLimbs y x := by
  by_cases same : InFixnumRange x ↔ InFixnumRange y
  · rw [mulLimbs_of_iff same, mulLimbs_of_iff same.symm, Int.mul_comm]
  · by_cases xRange : InFixnumRange x
    · have yOutside : ¬ InFixnumRange y :=
        fun yRange => same ⟨fun _ => yRange, fun _ => xRange⟩
      rw [mulLimbs_of_mixed yOutside xRange, mulLimbs, if_neg same]
      simp only [xRange, if_true]
      rw [Int.mul_comm y x, mixedLimbs_comm y x]
    · have yRange : InFixnumRange y := by
        by_contra yOutside
        exact same ⟨fun range => (xRange range).elim,
          fun range => (yOutside range).elim⟩
      have reversed : ¬ (InFixnumRange y ↔ InFixnumRange x) :=
        fun iff => same iff.symm
      rw [mulLimbs_of_mixed xRange yRange, mulLimbs, if_neg reversed]
      simp only [yRange, if_true]
      rw [Int.mul_comm y x, mixedLimbs_comm y x]

theorem Fits.of_fixnum_product {x y : Int} (xRange : InFixnumRange x)
    (yRange : InFixnumRange y) : Fits platform (x * y) := by
  simp only [InFixnumRange, clFixnumMin, clFixnumMax] at xRange yRange
  have small : (x * y).natAbs < (2 ^ 16) ^ 4 := by
    rw [Int.natAbs_mul]
    calc
      x.natAbs * y.natAbs ≤ 2 ^ 30 * 2 ^ 30 :=
        Nat.mul_le_mul (by omega) (by omega)
      _ < (2 ^ 16) ^ 4 := by omega
  exact le_maxLimbs (limbCount_le small)

theorem natAbs_mul_lt_size (x y : Int) : (x * y).natAbs < (2 ^ 16) ^ mixedLimbs x y := by
  rw [Int.natAbs_mul, ← pow_mul, mixedLimbs]
  calc
    x.natAbs * y.natAbs < 2 ^ x.natAbs.size * 2 ^ y.natAbs.size :=
      Nat.mul_lt_mul'' (Nat.lt_size_self _) (Nat.lt_size_self _)
    _ = 2 ^ (x.natAbs.size + y.natAbs.size) := (pow_add _ _ _).symm
    _ ≤ 2 ^ (16 * ((x.natAbs.size + y.natAbs.size + 15) / 16)) :=
      Nat.pow_le_pow_right (by omega) (by omega)

theorem mulMixed_eq {sign : Bool} {limbs : List Limb}
    {v : Int} (canonical : (ClInt.bignum sign limbs).Canonical platform)
    (range : InFixnumRange v) :
    mulMixed platform (.bignum sign limbs) sign limbs v =
      allocWith platform (mulLimbs (signed sign (value limbs)) v)
        (signed sign (value limbs) * v) := by
  have object := canonical.eq_canon
  have bigFits := canonical.fits
  obtain ⟨normalized, _, outside⟩ := canonical
  rw [ClInt.toInt] at object bigFits
  rw [mulLimbs_of_mixed outside range]
  simp only [InFixnumRange, clFixnumMin, clFixnumMax] at range
  unfold mulMixed
  by_cases zero : v = 0
  · subst zero
    simp only [Int.natAbs_zero, if_true, true_or, Int.mul_zero]
    rw [allocWith_of_le (Fits.of_range (by decide))]
    rfl
  · by_cases one : v = 1
    · subst one
      simp only [Int.natAbs_one, one_ne_zero, if_false, if_true, or_true, Int.mul_one]
      rw [allocWith_of_le bigFits]
      exact congrArg Except.ok object
    · have sizes : ((limbs.length - 1) * 16 + bitLength32 (limbs.getD (limbs.length - 1) 0).toNat +
          bitLength32 v.natAbs + 15) / 16 =
          mixedLimbs (signed sign (value limbs)) v := by
        rw [mixedLimbs, natAbs_signed, ← size_value normalized]
        rfl
      have productFits := natAbs_mul_lt_size (signed sign (value limbs)) v
      rw [Int.natAbs_mul, natAbs_signed] at productFits
      have covers : limbs.length ≤ mixedLimbs (signed sign (value limbs)) v := by
        have topBits : 0 < bitLength32 (limbs.getD (limbs.length - 1) 0).toNat :=
          Nat.size_pos.mpr normalized.top_pos
        have multiplierBits : 0 < bitLength32 v.natAbs :=
          Nat.size_pos.mpr (by omega)
        rw [← sizes]
        omega
      simp only [sizes]
      rw [if_neg (show ¬ v.natAbs = 0 by omega), if_neg one,
        if_neg (show ¬ (v = 0 ∨ v = 1) by omega)]
      generalize mixedLimbs (signed sign (value limbs)) v = rLen
        at productFits covers ⊢
      obtain ⟨length, product⟩ := bignumMulSmall_spec platform limbs v.natAbs
        rLen (by omega) covers productFits
      have nonempty : bignumMulSmall platform limbs v.natAbs rLen ≠ [] := by
        apply List.ne_nil_of_length_pos
        have := normalized.trimmed.length_pos
        omega
      have normalizes := clBignumNormalize_eq (sign != decide (v < 0)) nonempty
      rw [product, signed_mul, signed_natAbs] at normalizes
      rw [clMakeBignum_normalize _ _ normalizes, length]

theorem clArithMul_eq (aCanonical : a.Canonical platform) (bCanonical : b.Canonical platform) :
    clArithMul platform a b =
      allocWith platform (mulLimbs a.toInt b.toInt) (a.toInt * b.toInt) := by
  have general := mulGeneral_eq aCanonical bCanonical
  have aObject := aCanonical.eq_canon
  have bObject := bCanonical.eq_canon
  cases a with
  | fixnum va =>
      have vaRange := word_range va
      cases b with
      | fixnum vb =>
          have vbRange := word_range vb
          have fits : Fits platform (va.toInt * vb.toInt) :=
            Fits.of_fixnum_product vaRange vbRange
          change _ = allocWith platform (mulLimbs va.toInt vb.toInt) (va.toInt * vb.toInt)
          rw [mulLimbs_of_iff ⟨fun _ => vbRange, fun _ => vaRange⟩,
            allocWith_of_le fits]
          simp only [clArithMul]
          split
          · rename_i result finished
            simp only [InFixnumRange, clFixnumMin, clFixnumMax]
              at vaRange vbRange
            exact mulFixnums_eq aObject bObject (by omega) (by omega) finished
          · rw [general]
            exact alloc_of_fits fits
      | bignum sign limbs =>
          rw [mulLimbs_comm, Int.mul_comm]
          exact mulMixed_eq bCanonical vaRange
  | bignum sign limbs =>
      cases b with
      | fixnum vb => exact mulMixed_eq aCanonical (word_range vb)
      | bignum bSign bLimbs =>
          have outside : ¬ InFixnumRange (signed sign (value limbs)) :=
            aCanonical.2.2
          have bOutside : ¬ InFixnumRange (signed bSign (value bLimbs)) :=
            bCanonical.2.2
          change _ = allocWith platform (mulLimbs (signed sign (value limbs))
            (signed bSign (value bLimbs))) _
          rw [mulLimbs_of_iff ⟨fun range => (outside range).elim,
            fun range => (bOutside range).elim⟩]
          exact general

theorem ordInt_compare (left right : Nat) :
    ordInt (compare left right) = ((left : Int) - right).sign := by
  rcases Nat.lt_trichotomy left right with less | equal | greater
  · rw [Nat.compare_eq_lt.mpr less, Int.sign_eq_neg_one_of_neg (by omega)]
    rfl
  · rw [equal, Nat.compare_eq_eq.mpr rfl, Int.sub_self]
    rfl
  · rw [Nat.compare_eq_gt.mpr greater, Int.sign_eq_one_of_pos (by omega)]
    rfl

theorem compareSigned_eq {aSign bSign : Bool} {al bl : List Limb} {x y : Int}
    (aTrimmed : Trimmed al) (bTrimmed : Trimmed bl)
    (xValue : signed aSign (value al) = x) (yValue : signed bSign (value bl) = y)
    (xSign : aSign = true ↔ x < 0) (ySign : bSign = true ↔ y < 0) :
    (if aSign ≠ bSign then
        if al = [0] ∧ bl = [0] then 0
        else if aSign then -1 else 1
      else
        let cmp := ordInt (bignumCompareMag al bl)
        if aSign then -cmp else cmp) = (x - y).sign := by
  rw [bignumCompareMag, compareLimbs_eq aTrimmed bTrimmed, ordInt_compare]
  cases aSign with
  | false =>
      have xNonneg : 0 ≤ x := by simpa using xSign
      cases bSign with
      | false =>
          simp only [signed, Bool.false_eq_true, if_false] at xValue yValue
          simp [xValue, yValue]
      | true =>
          have yNegative : y < 0 := ySign.mp rfl
          have notZero : ¬ (al = [0] ∧ bl = [0]) := by
            rintro ⟨-, zero⟩
            rw [zero] at yValue
            simp [signed] at yValue
            omega
          rw [if_pos (by simp), if_neg notZero, if_neg (by simp), Int.sign_eq_one_of_pos (by omega)]
  | true =>
      have xNegative : x < 0 := xSign.mp rfl
      cases bSign with
      | false =>
          have yNonneg : 0 ≤ y := by simpa using ySign
          have notZero : ¬ (al = [0] ∧ bl = [0]) := by
            rintro ⟨zero, -⟩
            rw [zero] at xValue
            simp [signed] at xValue
            omega
          rw [if_pos (by simp), if_neg notZero, if_pos rfl, Int.sign_eq_neg_one_of_neg (by omega)]
      | true =>
          simp only [signed, if_true] at xValue yValue
          simp only [ne_eq, not_true_eq_false, if_false, if_true]
          rw [← Int.sign_neg]
          congr 1
          omega

theorem clArithCompare_eq (aCanonical : a.Canonical platform) (bCanonical : b.Canonical platform) :
    clArithCompare a b = (a.toInt - b.toInt).sign := by
  obtain ⟨aTrimmed, aValue, aSign⟩ := toLimbs_spec aCanonical
  obtain ⟨bTrimmed, bValue, bSign⟩ := toLimbs_spec bCanonical
  have general := compareSigned_eq aTrimmed bTrimmed aValue bValue aSign bSign
  unfold clArithCompare
  split
  · rename_i va vb
    simp only [ClInt.toInt]
    split
    · rw [Int.sign_eq_neg_one_of_neg (by omega)]
    · split
      · rw [Int.sign_eq_one_of_pos (by omega)]
      · have equal : va.toInt - vb.toInt = 0 := by omega
        rw [equal]
        rfl
  · exact general

/-- The result is the canonical object of `z` when the object of `limbs` limbs
it needs is within the storage limit, and that request's error otherwise. -/
def ExactOrStorage (platform : Platform) (result : Result ClInt) (z : Int)
    (limbs : Nat) : Prop :=
  match requestError platform limbs with
  | some error => result = .error error
  | none => ∃ object, result = .ok object ∧ object.Canonical platform ∧
      object.toInt = z

theorem exactOrStorage_allocWith {limbs : Nat} {z : Int} (needed : limbCount z ≤ limbs) :
    ExactOrStorage platform (allocWith platform limbs z) z limbs := by
  unfold ExactOrStorage allocWith
  cases outcome : requestError platform limbs with
  | some error => rfl
  | none =>
      have few := (requestError_eq_none_iff platform limbs).mp outcome
      exact ⟨canon z, rfl, canonical_canon (needed.trans few), toInt_canon z⟩

theorem limbCount_mul_le (x y : Int) : limbCount (x * y) ≤ mulLimbs x y := by
  have sized : limbCount (x * y) ≤ mixedLimbs x y :=
    limbCount_le (natAbs_mul_lt_size x y)
  by_cases same : InFixnumRange x ↔ InFixnumRange y
  · rw [mulLimbs_of_iff same]
  · rw [mulLimbs, if_neg same]
    generalize (if InFixnumRange x then x else y) = v
    by_cases factor : v = 0 ∨ v = 1
    · simp only [factor, if_true, le_refl]
    · simpa only [factor, if_false] using sized

theorem mixedLimbs_le {x y : Int} (xNonzero : x ≠ 0) (yNonzero : y ≠ 0) :
    mixedLimbs x y ≤ limbCount (x * y) + 1 := by
  have xPos : 0 < x.natAbs.size := Nat.size_pos.mpr (Int.natAbs_pos.mpr xNonzero)
  have yPos : 0 < y.natAbs.size := Nat.size_pos.mpr (Int.natAbs_pos.mpr yNonzero)
  have low : 2 ^ (x.natAbs.size - 1 + (y.natAbs.size - 1)) ≤ (x * y).natAbs := by
    rw [Int.natAbs_mul, Nat.pow_add]
    exact Nat.mul_le_mul (Nat.lt_size.mp (by omega)) (Nat.lt_size.mp (by omega))
  have high := low.trans_lt (lt_of_limbCount_le (le_refl (limbCount (x * y))))
  rw [← Nat.pow_mul] at high
  have bits := (Nat.pow_lt_pow_iff_right (by omega)).mp high
  unfold mixedLimbs
  omega

/-- The object of a product is at most one limb longer than the product. -/
theorem mulLimbs_le (x y : Int) : mulLimbs x y ≤ limbCount (x * y) + 1 := by
  by_cases same : InFixnumRange x ↔ InFixnumRange y
  · rw [mulLimbs_of_iff same]
    exact Nat.le_succ _
  · have nonzero : ∀ z : Int, ¬ InFixnumRange z → z ≠ 0 := by
      rintro z outside rfl
      exact outside (by decide)
    rw [mulLimbs, if_neg same]
    by_cases xRange : InFixnumRange x
    · have yOutside : ¬ InFixnumRange y := fun yRange => same ⟨fun _ => yRange, fun _ => xRange⟩
      simp only [xRange, if_true]
      split
      · exact Nat.le_succ _
      · next factor => exact mixedLimbs_le (fun zero => factor (.inl zero)) (nonzero y yOutside)
    · simp only [xRange, if_false]
      split
      · exact Nat.le_succ _
      · next factor => exact mixedLimbs_le (nonzero x xRange) fun zero => factor (.inl zero)

/-- On canonical operands sum, difference and product are exact and canonical
up to the storage limit, and the comparison is the sign of the difference. -/
theorem clArith_exact (platform : Platform) (a b : ClInt)
    (aCanonical : a.Canonical platform) (bCanonical : b.Canonical platform) :
    ExactOrStorage platform (clArithAdd platform a b) (a.toInt + b.toInt)
        (limbCount (a.toInt + b.toInt)) ∧
      ExactOrStorage platform (clArithSub platform a b) (a.toInt - b.toInt)
        (limbCount (a.toInt - b.toInt)) ∧
      ExactOrStorage platform (clArithMul platform a b) (a.toInt * b.toInt)
        (mulLimbs a.toInt b.toInt) ∧
      mulLimbs a.toInt b.toInt ≤ limbCount (a.toInt * b.toInt) + 1 ∧
      clArithCompare a b = (a.toInt - b.toInt).sign := by
  refine ⟨?_, ?_, ?_, mulLimbs_le _ _, clArithCompare_eq aCanonical bCanonical⟩
  · rw [clArithAdd_eq aCanonical bCanonical]
    exact exactOrStorage_allocWith le_rfl
  · rw [clArithSub_eq aCanonical bCanonical]
    exact exactOrStorage_allocWith le_rfl
  · rw [clArithMul_eq aCanonical bCanonical]
    exact exactOrStorage_allocWith (limbCount_mul_le _ _)

/-- The sum of the largest fixnum and itself is a bignum. -/
theorem clArith_exact_most_positive : (canon clFixnumMax).Canonical .m68k ∧ ExactOrStorage .m68k
        (clArithAdd .m68k (canon clFixnumMax) (canon clFixnumMax))
        ((canon clFixnumMax).toInt + (canon clFixnumMax).toInt)
        (limbCount ((canon clFixnumMax).toInt + (canon clFixnumMax).toInt)) :=
  ⟨trivial, (clArith_exact .m68k (canon clFixnumMax) (canon clFixnumMax)
    trivial trivial).1⟩

def allOnes (length : Nat) : ClInt :=
  .bignum false (List.replicate length (BitVec.ofNat 16 0xFFFF))

theorem value_replicate_ones (length : Nat) :
    value (List.replicate length (BitVec.ofNat 16 0xFFFF)) + 1 = (2 ^ 16) ^ length := by
  induction length with
  | zero => rfl
  | succ length induction =>
      have radixStep : (2 ^ 16) ^ (length + 1) = 2 ^ 16 * (2 ^ 16) ^ length := by
        ring
      rw [List.replicate_succ, value_cons, radixStep, ← induction]
      simp only [BitVec.toNat_ofNat]
      omega

theorem canonical_allOnes {length : Nat} (long : 2 ≤ length)
    (few : length ≤ maxLimbs platform) : (allOnes length).Canonical platform := by
  obtain ⟨pred, rfl⟩ : ∃ pred, length = pred + 1 := ⟨length - 1, by omega⟩
  have large : (2 ^ 16) ^ 2 ≤ (2 ^ 16) ^ (pred + 1) :=
    Nat.pow_le_pow_right (by omega) long
  have total := value_replicate_ones (pred + 1)
  refine ⟨⟨List.replicate pred _, BitVec.ofNat 16 0xFFFF, List.replicate_succ', by decide⟩, ?_, ?_⟩
  · rw [List.length_replicate]
    exact few
  · simp only [signed, Bool.false_eq_true, if_false, clFixnumMin, clFixnumMax]
    omega

/-- Doubling the largest integer that the 68020 build can represent exceeds
its storage limit. -/
theorem clArithAdd_allOnes_storage : (allOnes (maxLimbs .m68k)).Canonical .m68k ∧
      ¬ ∃ object, clArithAdd .m68k (allOnes (maxLimbs .m68k))
          (allOnes (maxLimbs .m68k)) = .ok object ∧
        object.Canonical .m68k ∧
        object.toInt = (allOnes (maxLimbs .m68k)).toInt + (allOnes (maxLimbs .m68k)).toInt := by
  have canonical : (allOnes (maxLimbs .m68k)).Canonical .m68k :=
    canonical_allOnes (by decide) le_rfl
  refine ⟨canonical, ?_⟩
  rintro ⟨object, -, objectCanonical, objectValue⟩
  have bound := lt_of_limbCount_le objectCanonical.fits
  rw [objectValue] at bound
  have large : (2 ^ 16) ^ 2 ≤ (2 ^ 16) ^ maxLimbs .m68k :=
    Nat.pow_le_pow_right (by omega) (by decide)
  have total := value_replicate_ones (maxLimbs .m68k)
  simp only [allOnes, ClInt.toInt, signed, Bool.false_eq_true, if_false]
    at bound
  generalize (2 ^ 16) ^ maxLimbs .m68k = limit at bound large total
  omega

end ClAmiga.Number
