import ClAmiga.Radix.Limbs

/-!
# Two's complement expansions and their windows

The infinite two's complement expansion of an integer is its sequence
`Int.testBit`.  From some index on it repeats the sign; the part below, with
the sign folded away, is the natural number `folded`, which measures how wide a
window holds the integer.  A bit vector of that width, read as a signed number,
is the integer again, so an operation on windows is determined by its bits.
-/

namespace ClAmiga.Radix

/-- The number whose bits are set where the expansion differs from the sign:
the integer itself, or the complement of a negative one. -/
def folded : Int → Nat
  | .ofNat n => n
  | .negSucc n => n

@[simp] theorem folded_natCast (n : Nat) : folded (n : Int) = n := rfl

@[simp] theorem folded_negSucc (n : Nat) : folded (Int.negSucc n) = n := rfl

theorem testBit_eq_folded (z : Int) (index : Nat) :
    z.testBit index = (decide (z < 0) ^^ (folded z).testBit index) := by
  cases z with
  | ofNat n =>
      have nonneg : ¬ Int.ofNat n < 0 := Int.not_lt.mpr (Int.natCast_nonneg n)
      simp only [nonneg, decide_false, Bool.false_xor]
      rfl
  | negSucc n => simp [Int.testBit, folded, Int.negSucc_lt_zero]

theorem folded_testBit (z : Int) (index : Nat) :
    (folded z).testBit index = (decide (z < 0) ^^ z.testBit index) := by
  rw [testBit_eq_folded]
  cases decide (z < 0) <;> simp

theorem folded_of_nonneg {z : Int} (nonneg : 0 ≤ z) : folded z = z.natAbs := by
  obtain ⟨n, rfl⟩ := Int.eq_ofNat_of_zero_le nonneg
  simp

theorem folded_of_neg {z : Int} (negative : z < 0) : folded z = z.natAbs - 1 := by
  obtain ⟨n, rfl⟩ := Int.eq_negSucc_of_lt_zero negative
  simp [Int.natAbs_negSucc]

/-- An integer fits a window of `bits + 1` bits exactly when its folded number
has at most `bits` bits. -/
theorem folded_lt_iff (z : Int) (bits : Nat) :
    folded z < 2 ^ bits ↔ -2 ^ bits ≤ z ∧ z < 2 ^ bits := by
  have cast : ((2 ^ bits : Nat) : Int) = 2 ^ bits := by push_cast; rfl
  rw [← cast]
  by_cases negative : z < 0
  · rw [folded_of_neg negative]
    omega
  · rw [folded_of_nonneg (by omega)]
    omega

theorem testBit_of_folded_lt {z : Int} {bits index : Nat}
    (fits : folded z < 2 ^ bits) (beyond : bits ≤ index) :
    z.testBit index = decide (z < 0) := by
  have small : folded z < 2 ^ index :=
    lt_of_lt_of_le fits (Nat.pow_le_pow_right (by omega) beyond)
  rw [testBit_eq_folded, Nat.testBit_lt_two_pow small, Bool.xor_false]

/-- An expansion that is constant from an index on has that constant as its
sign, and no folded bit from there on. -/
theorem folded_lt_of_constant {z : Int} {bits : Nat} {sign : Bool}
    (constant : ∀ index, bits ≤ index → z.testBit index = sign) :
    decide (z < 0) = sign ∧ folded z < 2 ^ bits := by
  have signEq : decide (z < 0) = sign := by
    have far := testBit_of_folded_lt (z := z) Nat.lt_two_pow_self (Nat.le_max_left (folded z) bits)
    rw [← far]
    exact constant _ (Nat.le_max_right _ _)
  refine ⟨signEq, Nat.lt_pow_two_of_testBit _ fun index beyond => ?_⟩
  rw [folded_testBit, constant index beyond, signEq, Bool.xor_self]

theorem eq_of_testBit_eq {x y : Int}
    (same : ∀ index, x.testBit index = y.testBit index) : x = y := by
  have beyond : ∀ index, folded y ≤ index → x.testBit index = decide (y < 0) := by
    intro index le
    rw [same]
    exact testBit_of_folded_lt Nat.lt_two_pow_self le
  obtain ⟨signs, _⟩ := folded_lt_of_constant beyond
  have magnitudes : folded x = folded y := by
    apply Nat.eq_of_testBit_eq
    intro index
    rw [folded_testBit, folded_testBit, signs, same]
  have sameSign : x < 0 ↔ y < 0 := by simpa using signs
  by_cases negative : y < 0
  · rw [folded_of_neg negative, folded_of_neg (sameSign.mpr negative)]
      at magnitudes
    have := sameSign.mpr negative
    omega
  · have nonneg : ¬ x < 0 := fun less => negative (sameSign.mp less)
    rw [folded_of_nonneg (by omega), folded_of_nonneg (by omega)] at magnitudes
    omega

theorem folded_bitwise_lt (f : Bool → Bool → Bool) {x y : Int} {bits : Nat}
    (xFits : folded x < 2 ^ bits) (yFits : folded y < 2 ^ bits) :
    folded (Int.bitwise f x y) < 2 ^ bits := by
  have constant : ∀ index, bits ≤ index → (Int.bitwise f x y).testBit index =
        f (decide (x < 0)) (decide (y < 0)) := by
    intro index beyond
    rw [Int.testBit_bitwise, testBit_of_folded_lt xFits beyond, testBit_of_folded_lt yFits beyond]
  exact (folded_lt_of_constant constant).2

theorem testBit_neg_one_sub (z : Int) (index : Nat) :
    (-1 - z).testBit index = !z.testBit index := by
  have complement : -1 - z = Int.lnot z := by
    cases z with
    | ofNat n =>
        rw [Int.lnot, Int.negSucc_eq]
        simp
        ring
    | negSucc n =>
        rw [Int.lnot, Int.negSucc_eq]
        ring
  rw [complement, Int.testBit_lnot]

variable {w : Nat}

theorem getLsbD_ofInt (z : Int) {index : Nat} (inside : index < w) :
    (BitVec.ofInt w z).getLsbD index = z.testBit index := by
  cases z with
  | ofNat n =>
      change (BitVec.ofInt w (n : Int)).getLsbD index = n.testBit index
      rw [BitVec.ofInt_natCast, BitVec.getLsbD_ofNat]
      simp [inside]
  | negSucc n =>
      change _ = !n.testBit index
      rw [BitVec.ofInt_negSucc_eq_not_ofNat, BitVec.getLsbD_not, BitVec.getLsbD_ofNat]
      simp [inside]

theorem toInt_eq_of_bits {x : BitVec w} {z : Int} (positive : 0 < w)
    (bits : ∀ index, index < w → x.getLsbD index = z.testBit index)
    (fits : folded z < 2 ^ (w - 1)) : x.toInt = z := by
  have same : x = BitVec.ofInt w z := by
    apply BitVec.eq_of_getLsbD_eq
    intro index inside
    rw [bits index inside, getLsbD_ofInt z inside]
  obtain ⟨low, high⟩ := (folded_lt_iff z (w - 1)).mp fits
  rw [same, BitVec.toInt_ofInt_eq_self positive low high]

theorem folded_toInt_lt (x : BitVec w) : folded x.toInt < 2 ^ (w - 1) :=
  (folded_lt_iff _ _).mpr ⟨BitVec.le_toInt x, BitVec.toInt_lt⟩

theorem getLsbD_eq_testBit_toInt (x : BitVec w) {index : Nat}
    (inside : index < w) : x.getLsbD index = x.toInt.testBit index := by
  rw [← getLsbD_ofInt _ inside, BitVec.ofInt_toInt]

theorem testBit_ediv (z : Int) (shift index : Nat) :
    (z / 2 ^ shift).testBit index = z.testBit (index + shift) := by
  have cast : (2 : Int) ^ shift = ((2 ^ shift : Nat) : Int) := by
    push_cast
    rfl
  cases z with
  | ofNat n =>
      have quotient : Int.ofNat n / 2 ^ shift = ((n / 2 ^ shift : Nat) : Int) := by
        rw [cast]
        rfl
      rw [quotient]
      exact Nat.testBit_div_two_pow n index
  | negSucc n =>
      have quotient : Int.negSucc n / 2 ^ shift = Int.negSucc (n / 2 ^ shift) := by
        rw [Int.negSucc_ediv n (by positivity), cast, Int.negSucc_eq]
        rfl
      rw [quotient]
      exact congrArg not (Nat.testBit_div_two_pow n index)

theorem testBit_emod (z : Int) (size index : Nat) : (z % 2 ^ size).testBit index =
      (decide (index < size) && z.testBit index) := by
  have residue : z % 2 ^ size = ((BitVec.ofInt size z).toNat : Int) := by
    rw [BitVec.toNat_ofInt]
    have nonneg : 0 ≤ z % ((2 ^ size : Nat) : Int) :=
      Int.emod_nonneg _ (by positivity)
    rw [Int.toNat_of_nonneg nonneg]
    push_cast
    rfl
  rw [residue]
  change (BitVec.ofInt size z).toNat.testBit index = _
  rw [BitVec.testBit_toNat]
  by_cases inside : index < size
  · rw [getLsbD_ofInt z inside, decide_eq_true inside, Bool.true_and]
  · rw [BitVec.getLsbD_of_ge _ _ (Nat.le_of_not_lt inside), decide_eq_false inside, Bool.false_and]

theorem testBit_mul_two_pow (z : Int) (shift index : Nat) : (z * 2 ^ shift).testBit index =
      (decide (shift ≤ index) && z.testBit (index - shift)) := by
  have nonzero : (2 : Int) ^ shift ≠ 0 := by positivity
  by_cases inside : shift ≤ index
  · have high := testBit_ediv (z * 2 ^ shift) shift (index - shift)
    rw [Int.mul_ediv_cancel _ nonzero, Nat.sub_add_cancel inside] at high
    simp [inside, high]
  · have low := testBit_emod (z * 2 ^ shift) shift index
    rw [Int.mul_emod_left] at low
    have clear : (0 : Int).testBit index = false := Nat.zero_testBit index
    rw [clear] at low
    simp only [Nat.lt_of_not_le inside, decide_true, Bool.true_and] at low
    simp [inside, ← low]

theorem testBit_mask (size index : Nat) :
    ((2 : Int) ^ size - 1).testBit index = decide (index < size) := by
  have cast : (2 : Int) ^ size - 1 = ((2 ^ size - 1 : Nat) : Int) := by
    have positive := Nat.two_pow_pos size
    push_cast [Nat.cast_sub positive]
    rfl
  rw [cast]
  exact Nat.testBit_two_pow_sub_one size index

/-- `z` is `n` with the field of `size` bits at `position` taken from `v`. -/
def HasField (size position : Nat) (v n z : Int) : Prop :=
  ∀ index, z.testBit index =
    if position ≤ index ∧ index < position + size then
      v.testBit (index - position)
    else n.testBit index

theorem HasField.field {size position : Nat} {v n z : Int}
    (carries : HasField size position v n z) :
    z / 2 ^ position % 2 ^ size = v % 2 ^ size := by
  apply eq_of_testBit_eq
  intro index
  rw [testBit_emod, testBit_emod, testBit_ediv, carries]
  by_cases inside : index < size
  · rw [if_pos (by omega), Nat.add_sub_cancel]
  · simp [inside]

theorem testBit_value (limbs : List (BitVec w)) (positive : 0 < w) (index : Nat) :
    (value limbs).testBit index = (limbs.getD (index / w) 0).getLsbD (index % w) := by
  induction limbs generalizing index with
  | nil => simp
  | cons limb limbs induction =>
      rw [value_cons, Nat.add_comm, Nat.testBit_two_pow_mul_add _ limb.isLt]
      by_cases inside : index < w
      · rw [if_pos inside, Nat.div_eq_of_lt inside, Nat.mod_eq_of_lt inside, List.getD_cons_zero]
        rfl
      · have next : index / w = (index - w) / w + 1 := by
          rw [← Nat.add_div_right _ positive, Nat.sub_add_cancel (by omega)]
        have residue : index % w = (index - w) % w :=
          Nat.mod_eq_sub_mod (by omega)
        rw [if_neg inside, induction, next, residue, List.getD_cons_succ]

/-- The window of a limb list, as a bit vector. -/
def windowBits (limbs : List (BitVec w)) : BitVec (w * limbs.length) :=
  BitVec.ofNat (w * limbs.length) (value limbs)

theorem value_lt_window (limbs : List (BitVec w)) : value limbs < 2 ^ (w * limbs.length) := by
  rw [pow_mul]
  exact value_lt limbs

theorem getLsbD_windowBits (limbs : List (BitVec w)) {index : Nat}
    (inside : index < w * limbs.length) :
    (windowBits limbs).getLsbD index = (value limbs).testBit index := by
  rw [windowBits, BitVec.getLsbD_ofNat]
  simp [inside]

theorem toNat_windowBits (limbs : List (BitVec w)) : (windowBits limbs).toNat = value limbs := by
  rw [windowBits, BitVec.toNat_ofNat, Nat.mod_eq_of_lt (value_lt_window limbs)]

end ClAmiga.Radix
