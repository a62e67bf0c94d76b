import ClAmiga.Radix.BitCount
import ClAmiga.Number.Bitwise

/-!
# The bitwise operations agree with two's complement

Every operation is compared with the infinite two's complement expansion
`Int.testBit` of its operands.  The combining operations are exact up to the
storage limit; the counting and testing functions always are.
-/

namespace ClAmiga.Number

open Radix Bignum

variable {platform : Platform}

theorem value_invertAdd (limbs : List Limb) {carry : Nat} (small : carry ≤ 1) :
    value (invertAdd limbs carry) = (2 ^ (16 * limbs.length) - 1 - value limbs + carry) %
        2 ^ (16 * limbs.length) := by
  induction limbs generalizing carry with
  | nil => simp [invertAdd, Nat.mod_one]
  | cons x xs induction =>
      have xBound := x.isLt
      have tailBound := value_lt_window xs
      have radixStep : 2 ^ (16 * (x :: xs).length) = 2 ^ 16 * 2 ^ (16 * xs.length) := by
        rw [List.length_cons, Nat.mul_add, pow_add]
        ring
      have inverted : (x ^^^ BitVec.ofNat 16 0xFFFF).toNat = 2 ^ 16 - 1 - x.toNat := by
        have complement : x ^^^ BitVec.ofNat 16 0xFFFF = ~~~x := by
          rw [← BitVec.xor_allOnes]
          rfl
        rw [complement, BitVec.toNat_not]
      have exactSum : ((x ^^^ BitVec.ofNat 16 0xFFFF).toNat + carry) % 2 ^ 32 =
          2 ^ 16 - 1 - x.toNat + carry := by
        rw [inverted]
        exact Nat.mod_eq_of_lt (by omega)
      have nextSmall : (2 ^ 16 - 1 - x.toNat + carry) >>> 16 ≤ 1 := by
        rw [Nat.shiftRight_eq_div_pow]
        omega
      have tail := induction nextSmall
      have split := word_add_shift 16 (2 ^ 16 - 1 - x.toNat + carry)
      simp only [invertAdd, exactSum, value_cons, tail, radixStep]
      generalize (2 ^ 16 - 1 - x.toNat + carry) >>> 16 = next at split ⊢
      generalize 2 ^ (16 * xs.length) = rest at tailBound ⊢
      have digit := (BitVec.ofNat 16 (2 ^ 16 - 1 - x.toNat + carry) : Limb).isLt
      have total : 2 ^ 16 * rest - 1 - (x.toNat + 2 ^ 16 * value xs) + carry =
          (BitVec.ofNat 16 (2 ^ 16 - 1 - x.toNat + carry) : Limb).toNat +
            2 ^ 16 * (rest - 1 - value xs + next) := by
        have scaled : 2 ^ 16 * (rest - 1 - value xs + next) + 2 ^ 16 +
            2 ^ 16 * value xs = 2 ^ 16 * rest + 2 ^ 16 * next := by
          have exact : rest - 1 - value xs + next + 1 + value xs =
              rest + next := by omega
          calc
            2 ^ 16 * (rest - 1 - value xs + next) + 2 ^ 16 + 2 ^ 16 * value xs
                = 2 ^ 16 * (rest - 1 - value xs + next + 1 + value xs) := by
              ring
            _ = 2 ^ 16 * rest + 2 ^ 16 * next := by rw [exact, Nat.mul_add]
        omega
      rw [total, Nat.mod_mul, Nat.add_mul_mod_self_left, Nat.mod_eq_of_lt digit,
        Nat.add_mul_div_left _ _ (Nat.two_pow_pos 16), Nat.div_eq_of_lt digit,
        Nat.zero_add]

@[simp] theorem length_invertAdd (limbs : List Limb) (carry : Nat) :
    (invertAdd limbs carry).length = limbs.length := by
  induction limbs generalizing carry with
  | nil => rfl
  | cons x xs induction => simp [invertAdd, induction]

/-- What a converted operand looks like: one limb more than the magnitude, and
limb by limb the bits of the integer, continued with its sign. -/
structure WindowOf (z : Int) (limbs : List Limb) (negative : Bool) : Prop where
  sign : negative = decide (z < 0)
  positive : 0 < limbs.length
  fits : folded z < 2 ^ (16 * limbs.length - 1)
  bits : windowBits limbs = BitVec.ofInt (16 * limbs.length) z

theorem WindowOf.testBit {z : Int} {limbs : List Limb} {negative : Bool}
    (window : WindowOf z limbs negative) (limb : Nat) {bit : Nat}
    (small : bit < 16) :
    (limbs.getD limb (if negative then 0xFFFF else 0)).getLsbD bit =
      z.testBit (16 * limb + bit) := by
  by_cases inside : limb < limbs.length
  · have index : 16 * limb + bit < 16 * limbs.length := by omega
    have position : (16 * limb + bit) / 16 = limb ∧
        (16 * limb + bit) % 16 = bit := by omega
    have read := testBit_value limbs (by omega) (16 * limb + bit)
    rw [position.1, position.2] at read
    have same : limbs.getD limb (if negative then 0xFFFF else 0) =
        limbs.getD limb 0 := by
      rw [List.getD_eq_getElem _ _ inside, List.getD_eq_getElem _ _ inside]
    rw [same, ← read, ← getLsbD_windowBits limbs index, window.bits, getLsbD_ofInt z index]
  · have beyond : limbs.length ≤ limb := Nat.le_of_not_lt inside
    have positive := window.positive
    rw [List.getD_eq_default _ _ beyond, testBit_of_folded_lt window.fits (by omega), window.sign]
    cases decide (z < 0) with
    | false => simp
    | true =>
        rw [if_pos rfl]
        interval_cases bit <;> rfl

/-- The buffer holds the two's complement of the integer, sign limb included. -/
theorem toTwosComplement_spec {n : ClInt} (canonical : n.Canonical platform)
    {bufSize : Nat} (room : (toLimbs n).2.length + 1 ≤ bufSize) :
    WindowOf n.toInt (toTwosComplement n bufSize).1 (toTwosComplement n bufSize).2 ∧
      (toTwosComplement n bufSize).1.length = (toLimbs n).2.length + 1 := by
  obtain ⟨trimmed, nValue, nSign⟩ := toLimbs_spec canonical
  unfold toTwosComplement
  generalize toLimbs n = limbs at room trimmed nValue nSign ⊢
  obtain ⟨sign, nl⟩ := limbs
  dsimp only at room trimmed nValue nSign ⊢
  have whole : (nl.take (if nl.length + 1 > bufSize then bufSize - 1
      else nl.length) ++ [0]).take bufSize = nl ++ [0] := by
    rw [if_neg (by omega), List.take_length, List.take_of_length_le (by simpa)]
  rw [whole]
  have padded : value (nl ++ [(0 : Limb)]) = value nl := by
    rw [value_append]
    simp
  have magnitude : value nl < 2 ^ (16 * nl.length) := value_lt_window nl
  have wide : 2 ^ (16 * nl.length) ≤ 2 ^ (16 * (nl.length + 1) - 1) :=
    Nat.pow_le_pow_right (by omega) (by omega)
  have wider : 2 ^ (16 * (nl.length + 1)) = 2 * 2 ^ (16 * (nl.length + 1) - 1) := by
    rw [← pow_succ']
    congr 1
  have fits : folded n.toInt < 2 ^ (16 * (nl.length + 1) - 1) := by
    have bound : folded n.toInt ≤ value nl := by
      rw [← natAbs_signed sign (value nl), nValue]
      by_cases negative : n.toInt < 0
      · rw [folded_of_neg negative]
        omega
      · rw [folded_of_nonneg (by omega)]
    omega
  cases sign with
  | false =>
      have length : (nl ++ [(0 : Limb)]).length = nl.length + 1 := by simp
      have nonneg : ¬ n.toInt < 0 := fun negative => by simpa using nSign.mpr negative
      refine ⟨⟨by simp [nonneg], by simp, by simpa using fits, ?_⟩, by simp⟩
      change windowBits (nl ++ [0]) = BitVec.ofInt (16 * (nl ++ [0]).length) _
      rw [windowBits, padded, ← nValue]
      simp [signed]
  | true =>
      have negative : n.toInt < 0 := nSign.mp rfl
      have valueEq : n.toInt = -(value nl : Int) := by
        rw [← nValue]
        rfl
      refine ⟨⟨by simp [negative], by simp, by simpa using fits, ?_⟩, by simp⟩
      have inverted := value_invertAdd (nl ++ [(0 : Limb)]) (Nat.le_refl 1)
      rw [padded] at inverted
      change windowBits (invertAdd (nl ++ [0]) 1) =
        BitVec.ofInt (16 * (invertAdd (nl ++ [0]) 1).length) _
      apply BitVec.eq_of_toNat_eq
      rw [toNat_windowBits, inverted, BitVec.toNat_ofInt, valueEq]
      simp only [List.length_append, List.length_singleton, length_invertAdd]
      have negated : -(value nl : Int) % (2 ^ (16 * (nl.length + 1)) : Nat) =
          ((2 ^ (16 * (nl.length + 1)) - value nl : Nat) : Int) := by
        rw [← Int.add_emod_right, Int.emod_eq_of_lt (by omega) (by omega)]
        omega
      rw [negated, Int.toNat_natCast, Nat.mod_eq_of_lt (by omega)]
      omega

theorem topBit_iff (limb : Limb) : limb &&& 0x8000 ≠ 0 ↔ limb.getLsbD 15 = true := by
  have mask : (0x8000 : Limb) = BitVec.twoPow 16 15 := by decide
  rw [mask, BitVec.and_twoPow]
  cases limb.getLsbD 15 <;> decide

theorem msb_windowBits {buf : List Limb} (nonempty : 0 < buf.length) :
    (windowBits buf).msb = (buf.getD (buf.length - 1) 0).getLsbD 15 := by
  have position : (16 * buf.length - 1) / 16 = buf.length - 1 ∧
      (16 * buf.length - 1) % 16 = 15 := by omega
  rw [BitVec.msb_eq_getLsbD_last,
    getLsbD_windowBits buf (show 16 * buf.length - 1 < 16 * buf.length by omega),
    testBit_value buf (by omega), position.1, position.2]

theorem fromTwosComplement_eq {buf : List Limb} (nonempty : 0 < buf.length) :
    fromTwosComplement platform buf = alloc platform (windowBits buf).toInt := by
  have bufNonempty : buf ≠ [] := List.ne_nil_of_length_pos nonempty
  have invertedNonempty : invertAdd buf 1 ≠ [] := by
    apply List.ne_nil_of_length_pos
    rw [length_invertAdd]
    exact nonempty
  have window := value_lt_window buf
  have signBit := topBit_iff (buf.getD (buf.length - 1) 0)
  rw [← msb_windowBits nonempty] at signBit
  have reading := BitVec.toInt_eq_msb_cond (windowBits buf)
  rw [toNat_windowBits] at reading
  unfold fromTwosComplement
  dsimp only
  by_cases negative : (windowBits buf).msb = true
  · have large : 2 ^ (16 * buf.length) ≤ 2 * value buf := by
      have msb := BitVec.msb_eq_true_iff_two_mul_ge.mp negative
      rwa [toNat_windowBits] at msb
    rw [if_pos (signBit.mpr negative),
      bignumFromLimbs_eq _ (trimmed_strip invertedNonempty).ne_nil, value_strip,
      value_invertAdd buf (Nat.le_refl 1), reading, if_pos negative,
      Nat.mod_eq_of_lt (by omega)]
    congr 1
    simp only [signed, if_true]
    have cast : ((2 ^ (16 * buf.length) : Nat) : Int) = 2 ^ (16 * buf.length) := by
      push_cast
      rfl
    omega
  · rw [if_neg (fun set => negative (signBit.mp set)),
      bignumFromLimbs_eq _ (trimmed_strip bufNonempty).ne_nil, value_strip,
      reading, if_neg negative]
    rfl

theorem getLsbD_limb (op : BignumBitop) (av bv : Limb) (bit : Nat) : (op.limb av bv).getLsbD bit =
      op.bit (av.getLsbD bit) (bv.getLsbD bit) := by
  cases op
  · exact BitVec.getLsbD_and
  · exact BitVec.getLsbD_or
  · exact BitVec.getLsbD_xor

theorem getLsbD_word (op : BignumBitop) (av bv : BitVec 32) (bit : Nat) :
    (op.word av bv).getLsbD bit = op.bit (av.getLsbD bit) (bv.getLsbD bit) := by
  cases op
  · exact BitVec.getLsbD_and
  · exact BitVec.getLsbD_or
  · exact BitVec.getLsbD_xor

theorem combineWindows_eq (op : BignumBitop) {x y : Int} {ba bb : List Limb}
    {aNeg bNeg : Bool} (aWindow : WindowOf x ba aNeg)
    (bWindow : WindowOf y bb bNeg) :
    0 < (combineWindows op ba bb aNeg bNeg).length ∧
      (windowBits (combineWindows op ba bb aNeg bNeg)).toInt = Int.bitwise op.bit x y := by
  have aPositive := aWindow.positive
  have bPositive := bWindow.positive
  have length : (combineWindows op ba bb aNeg bNeg).length = max ba.length bb.length := by
    simp [combineWindows]
  have wide : ∀ {z : Int} {limbs : List Limb} {negative : Bool},
      WindowOf z limbs negative → limbs.length ≤ max ba.length bb.length →
      folded z < 2 ^ (16 * max ba.length bb.length - 1) := by
    intro z limbs negative window le
    apply lt_of_lt_of_le window.fits
    exact Nat.pow_le_pow_right (by omega) (by omega)
  refine ⟨by omega, toInt_eq_of_bits (by omega) ?_ ?_⟩
  · intro index inside
    have bit : index % 16 < 16 := Nat.mod_lt _ (by omega)
    have position : 16 * (index / 16) + index % 16 = index :=
      Nat.div_add_mod index 16
    have limb : (combineWindows op ba bb aNeg bNeg).getD (index / 16) 0 =
        op.limb (ba.getD (index / 16) (if aNeg then 0xFFFF else 0))
          (bb.getD (index / 16) (if bNeg then 0xFFFF else 0)) := by
      have reach : index / 16 < max ba.length bb.length := by omega
      rw [List.getD_eq_getElem _ _ (by omega)]
      simp [combineWindows]
    rw [getLsbD_windowBits _ inside, testBit_value _ (by omega), limb,
      getLsbD_limb, aWindow.testBit _ bit, bWindow.testBit _ bit, position,
      Int.testBit_bitwise]
  · rw [length]
    exact folded_bitwise_lt op.bit (wide aWindow (Nat.le_max_left _ _))
      (wide bWindow (Nat.le_max_right _ _))

theorem bignumBitop_eq (op : BignumBitop) {a b : ClInt}
    (aCanonical : a.Canonical platform) (bCanonical : b.Canonical platform) :
    bignumBitop platform op a b = alloc platform (Int.bitwise op.bit a.toInt b.toInt) := by
  unfold bignumBitop
  dsimp only
  generalize bufSize : (if (toLimbs a).2.length > (toLimbs b).2.length then
    (toLimbs a).2.length else (toLimbs b).2.length) + 1 = need
  have aRoom : (toLimbs a).2.length + 1 ≤ need := by
    rw [← bufSize]
    split <;> omega
  have bRoom : (toLimbs b).2.length + 1 ≤ need := by
    rw [← bufSize]
    split <;> omega
  obtain ⟨nonempty, combined⟩ := combineWindows_eq op (toTwosComplement_spec aCanonical aRoom).1
    (toTwosComplement_spec bCanonical bRoom).1
  rw [← combined]
  exact fromTwosComplement_eq nonempty

theorem bitop_word (op : BignumBitop) (va vb : BitVec 31) :
    InFixnumRange (Int.bitwise op.bit va.toInt vb.toInt) ∧
      (op.word (va.signExtend 32) (vb.signExtend 32)).toInt =
        Int.bitwise op.bit va.toInt vb.toInt := by
  have fits := folded_bitwise_lt op.bit (folded_toInt_lt va) (folded_toInt_lt vb)
  have extended : ∀ word : BitVec 31, (word.signExtend 32).toInt = word.toInt :=
    fun word => BitVec.toInt_signExtend_of_le (by omega)
  refine ⟨?_, toInt_eq_of_bits (by omega) ?_ ?_⟩
  · obtain ⟨low, high⟩ := (folded_lt_iff _ _).mp fits
    simp only [InFixnumRange, clFixnumMin, clFixnumMax]
    omega
  · intro index inside
    rw [getLsbD_word, getLsbD_eq_testBit_toInt _ inside,
      getLsbD_eq_testBit_toInt _ inside, extended, extended,
      Int.testBit_bitwise]
  · exact lt_of_lt_of_le fits (Nat.pow_le_pow_right (by omega) (by omega))

theorem clArithBitop_eq (op : BignumBitop) {a b : ClInt}
    (aCanonical : a.Canonical platform) (bCanonical : b.Canonical platform) :
    clArithBitop platform op a b = alloc platform (Int.bitwise op.bit a.toInt b.toInt) := by
  have general := bignumBitop_eq op aCanonical bCanonical
  unfold clArithBitop
  split
  · rename_i va vb
    obtain ⟨range, word⟩ := bitop_word op va vb
    rw [word]
    exact (alloc_of_range range).symm
  · exact general

theorem clArithLognot_eq {a : ClInt} (canonical : a.Canonical platform) :
    clArithLognot platform a = alloc platform (-1 - a.toInt) := by
  have minusOne : (clMakeFixnum (-1)).Canonical platform := trivial
  rw [clArithLognot, clArithSub_eq minusOne canonical, toInt_clMakeFixnum (by decide)]

theorem popcountLoop_eq (rounds v : Nat) (enough : ones v ≤ rounds) :
    popcountLoop rounds v = ones v := by
  induction rounds generalizing v with
  | zero => rw [popcountLoop, Nat.le_zero.mp enough]
  | succ rounds induction =>
      rw [popcountLoop]
      by_cases zero : v = 0
      · simp [zero]
      · have cleared := ones_and_sub_one (Nat.pos_of_ne_zero zero)
        rw [if_neg zero, induction _ (by omega), cleared]

theorem popcount16_eq (v : Limb) : popcount16 v = ones v.toNat :=
  popcountLoop_eq 16 v.toNat (ones_le v.isLt)

theorem sum_popcount16 (limbs : List Limb) : (limbs.map popcount16).sum = ones (value limbs) := by
  rw [ones_value]
  congr 1
  exact List.map_congr_left fun limb _ => popcount16_eq limb

theorem value_subBorrow_one {limbs : List Limb} (positive : 0 < value limbs) :
    value (subBorrow limbs [] 1) = value limbs - 1 := by
  have exact := value_subBorrow limbs [] 1 (Nat.zero_le _) le_rfl
    (by rw [value_nil, Nat.zero_add]; exact positive)
  rw [value_nil] at exact
  omega

theorem folded_bignum {sign : Bool} {limbs : List Limb} (positive : 0 < value limbs) :
    folded (signed sign (value limbs)) =
      if sign then value limbs - 1 else value limbs := by
  cases sign with
  | false => simp [signed]
  | true =>
      have negative : signed true (value limbs) < 0 :=
        (signed_neg_iff positive).mpr rfl
      rw [folded_of_neg negative, natAbs_signed]
      rfl

theorem toNat_signExtend_word (word : BitVec 31) :
    (if word.toInt < 0 then ~~~(word.signExtend 32)
      else word.signExtend 32).toNat = folded word.toInt := by
  have extended : (word.signExtend 32).toInt = word.toInt :=
    BitVec.toInt_signExtend_of_le (by omega)
  have reading := BitVec.toInt_eq_toNat_cond (word.signExtend 32)
  have bound := (word.signExtend 32).isLt
  rw [extended] at reading
  by_cases negative : word.toInt < 0
  · rw [if_pos negative, BitVec.toNat_not, folded_of_neg negative]
    split at reading <;> omega
  · rw [if_neg negative, folded_of_nonneg (by omega)]
    split at reading <;> omega

theorem clArithLogcount_eq {a : ClInt} (canonical : a.Canonical platform) :
    clArithLogcount a = ones (folded a.toInt) := by
  cases a with
  | fixnum word =>
      simp only [clArithLogcount]
      rw [popcountLoop_eq _ _ (ones_le (BitVec.isLt _)), toNat_signExtend_word]
      rfl
  | bignum sign limbs =>
      have positive := canonical.1.value_pos
      simp only [clArithLogcount]
      rw [sum_popcount16, ClInt.toInt, folded_bignum positive]
      cases sign with
      | false => rfl
      | true => exact congrArg ones (value_subBorrow_one positive)

theorem ones_folded (z : Int) : ones (folded z) =
      Set.ncard {index | z.testBit index ≠ decide (z < 0)} := by
  rw [ones_eq_ncard]
  congr 1
  ext index
  change (folded z).testBit index = true ↔ z.testBit index ≠ decide (z < 0)
  rw [folded_testBit]
  cases z.testBit index <;> cases decide (z < 0) <;> simp

theorem subBorrow_take (limbs : List Limb) (count borrow : Nat) :
    subBorrow (limbs.take count) [] borrow = (subBorrow limbs [] borrow).take count := by
  induction limbs generalizing count borrow with
  | nil => simp [subBorrow]
  | cons x xs induction =>
      cases count with
      | zero => rfl
      | succ count => simp [subBorrow, induction]

theorem clArithLogbitp_eq {a : ClInt} (canonical : a.Canonical platform)
    {index : Int} (nonneg : 0 ≤ index) :
    clArithLogbitp index a = a.toInt.testBit index.toNat := by
  unfold clArithLogbitp
  rw [if_neg (by omega)]
  cases a with
  | fixnum word =>
      dsimp only
      split
      · have fits := folded_toInt_lt word
        exact (testBit_of_folded_lt fits (by omega)).symm
      · rw [getLsbD_eq_testBit_toInt _ (by omega), BitVec.toInt_signExtend_of_le (by omega)]
        rfl
  | bignum sign limbs =>
      have positive := canonical.1.value_pos
      have bound := value_lt_window limbs
      have magnitude : folded (signed sign (value limbs)) =
          if sign then value limbs - 1 else value limbs :=
        folded_bignum positive
      have signEq : decide (signed sign (value limbs) < 0) = sign := by
        rw [Bool.eq_iff_iff, decide_eq_true_iff, signed_neg_iff positive]
      have reading := testBit_eq_folded (signed sign (value limbs)) index.toNat
      rw [signEq, magnitude] at reading
      rw [ClInt.toInt, reading]
      have bit : index.toNat % 16 < 16 := Nat.mod_lt _ (by omega)
      dsimp only
      by_cases beyond : index.toNat / 16 ≥ limbs.length
      · have small : value limbs < 2 ^ index.toNat := by
          apply lt_of_lt_of_le bound
          exact Nat.pow_le_pow_right (by omega) (by omega)
        have clear : (if sign = true then value limbs - 1
            else value limbs).testBit index.toNat = false := by
          apply Nat.testBit_lt_two_pow
          split <;> omega
        rw [if_pos beyond, clear, Bool.xor_false]
      · rw [if_neg beyond]
        cases sign with
        | false =>
            rw [if_pos rfl, if_neg (by simp), testBit_value limbs (by omega), Bool.false_xor]
        | true =>
            have inside : index.toNat / 16 < index.toNat / 16 + 1 := by omega
            rw [if_neg (by simp), if_pos rfl, subBorrow_take,
              ← value_subBorrow_one positive, testBit_value _ (by omega),
              Bool.true_xor, BitVec.getLsbD_not]
            simp [bit, List.getD_eq_getElem?_getD]

theorem biLogbitp_eq {index a : ClInt} (indexCanonical : index.Canonical platform)
    (canonical : a.Canonical platform) (nonneg : 0 ≤ index.toInt) :
    biLogbitp index a = .ok (a.toInt.testBit index.toInt.toNat) := by
  have notMinus : clArithMinusp index = false := by
    rw [clArithMinusp_eq indexCanonical]
    simpa using nonneg
  unfold biLogbitp
  rw [notMinus, if_neg (by simp)]
  cases index with
  | fixnum word => exact congrArg Except.ok (clArithLogbitp_eq canonical nonneg)
  | bignum sign limbs =>
      have outside : ¬ InFixnumRange (ClInt.bignum sign limbs).toInt :=
        indexCanonical.2.2
      have large : 2 ^ 30 ≤ (ClInt.bignum sign limbs).toInt.toNat := by
        simp only [InFixnumRange, clFixnumMin, clFixnumMax] at outside
        omega
      have magnitude := lt_of_limbCount_le canonical.fits
      have few : maxLimbs platform ≤ 4194296 := by
        cases platform <;> simp only [maxLimbs] <;> omega
      have fits : folded a.toInt < 2 ^ (16 * maxLimbs platform) := by
        rw [pow_mul]
        apply lt_of_le_of_lt _ magnitude
        by_cases negative : a.toInt < 0
        · rw [folded_of_neg negative]
          omega
        · rw [folded_of_nonneg (by omega)]
      dsimp only
      rw [testBit_of_folded_lt fits (by omega), clArithMinusp_eq canonical]

theorem size_folded_isLeast (z : Int) :
    IsLeast {bits | ∀ index, bits ≤ index → z.testBit index = decide (z < 0)} (folded z).size := by
  constructor
  · intro index beyond
    exact testBit_of_folded_lt (Nat.lt_size_self _) beyond
  · intro bits constant
    exact Nat.size_le.mpr (folded_lt_of_constant constant).2

theorem powerOfTwo_iff {limbs : List Limb} (normalized : Normalized limbs) :
    ((limbs.getD (limbs.length - 1) 0).toNat &&& ((limbs.getD (limbs.length - 1) 0).toNat - 1) = 0 ∧
        (limbs.take (limbs.length - 1)).all (fun limb => limb = 0) = true) ↔
      value limbs = 2 ^ ((value limbs).size - 1) := by
  have sizes := size_value normalized
  obtain ⟨low, top, rfl, nonzero⟩ := normalized
  have topPositive := toNat_pos_of_ne_zero nonzero
  have topLimb : (low ++ [top]).getD ((low ++ [top]).length - 1) 0 = top := by
    simp [List.getD_eq_getElem?_getD]
  have lowLimbs : (low ++ [top]).take ((low ++ [top]).length - 1) = low := by
    simp
  have sizePositive : 0 < top.toNat.size := Nat.size_pos.mpr topPositive
  have whole : value (low ++ [top]) = value low + 2 ^ (16 * low.length) * top.toNat := by
    rw [value_append, ← pow_mul]
    simp
  have lowBound := value_lt_window low
  have lowZero : low.all (fun limb => limb = 0) = true ↔ value low = 0 := by
    rw [value_eq_zero_iff, List.all_eq_true]
    simp
  have lower : 2 ^ (top.toNat.size - 1) ≤ top.toNat :=
    Nat.lt_size.mp (by omega)
  rw [topLimb] at sizes
  have topExponent : (value (low ++ [top])).size - 1 = 16 * low.length + (top.toNat.size - 1) := by
    simp only [bitLength32, List.length_append, List.length_singleton] at sizes
    omega
  rw [topLimb, lowLimbs, lowZero, topExponent, whole, pow_add,
    Nat.and_sub_one_eq_zero_iff_isPowerOfTwo (by omega)]
  have scale := Nat.two_pow_pos (16 * low.length)
  constructor
  · rintro ⟨⟨bits, power⟩, zero⟩
    rw [zero, Nat.zero_add, power, Nat.size_pow]
    rfl
  · intro equality
    have scaled := Nat.mul_le_mul_left (2 ^ (16 * low.length)) lower
    have same : 2 ^ (16 * low.length) * top.toNat =
        2 ^ (16 * low.length) * 2 ^ (top.toNat.size - 1) := by omega
    exact ⟨⟨_, Nat.eq_of_mul_eq_mul_left scale same⟩, by omega⟩

theorem clArithIntegerLength_eq {a : ClInt} (canonical : a.Canonical platform) :
    clArithIntegerLength a = (folded a.toInt).size := by
  cases a with
  | fixnum word =>
      simp only [clArithIntegerLength, ClInt.toInt]
      generalize word.toInt = val
      split
      · rename_i zero
        rw [zero]
        rfl
      · split
        · rename_i negative
          have foldedVal : folded val = (-(val + 1)).toNat := by
            rw [folded_of_neg negative]
            omega
          rw [foldedVal]
          split
          · rename_i minusOne
            rw [minusOne]
            rfl
          · rfl
        · rename_i positive
          have foldedVal : folded val = val.toNat := by
            rw [folded_of_nonneg (by omega)]
            omega
          rw [foldedVal]
          rfl
  | bignum sign limbs =>
      obtain ⟨normalized, _, _⟩ := canonical
      have positive := normalized.value_pos
      have nonempty := normalized.trimmed.length_pos
      have sizes := size_value normalized
      have power := powerOfTwo_iff normalized
      simp only [clArithIntegerLength]
      rw [if_neg (by omega), sizes, ClInt.toInt, folded_bignum positive]
      simp only [power]
      cases sign with
      | false => simp
      | true => simp [size_sub_one positive]

/-- The result is the canonical integer with the given two's complement
expansion, or the storage error of the object it would need. -/
def HasExpansion (platform : Platform) (result : Result ClInt)
    (bits : Nat → Bool) : Prop :=
  ∃ z : Int, (∀ index, z.testBit index = bits index) ∧
    ExactOrStorage platform result z (limbCount z)

theorem hasExpansion_bitop (op : BignumBitop) {a b : ClInt}
    (aCanonical : a.Canonical platform) (bCanonical : b.Canonical platform) :
    HasExpansion platform (clArithBitop platform op a b) fun index =>
      op.bit (a.toInt.testBit index) (b.toInt.testBit index) := by
  refine ⟨_, fun index => Int.testBit_bitwise op.bit a.toInt b.toInt index, ?_⟩
  rw [clArithBitop_eq op aCanonical bCanonical]
  exact exactOrStorage_allocWith le_rfl

/-- The combining operations are exact up to the storage limit, and the testing
and counting functions agree with the expansion for every integer. -/
theorem bitwise_expansion (platform : Platform) (a b index : ClInt)
    (aCanonical : a.Canonical platform) (bCanonical : b.Canonical platform)
    (indexCanonical : index.Canonical platform) :
    HasExpansion platform (clArithLogand platform a b)
        (fun bit => a.toInt.testBit bit && b.toInt.testBit bit) ∧
      HasExpansion platform (clArithLogior platform a b)
        (fun bit => a.toInt.testBit bit || b.toInt.testBit bit) ∧
      HasExpansion platform (clArithLogxor platform a b)
        (fun bit => a.toInt.testBit bit ^^ b.toInt.testBit bit) ∧
      HasExpansion platform (clArithLognot platform a)
        (fun bit => !a.toInt.testBit bit) ∧
      (0 ≤ index.toInt → biLogbitp index a = .ok (a.toInt.testBit index.toInt.toNat)) ∧
      clArithLogcount a = Set.ncard {bit | a.toInt.testBit bit ≠ decide (a.toInt < 0)} ∧
      IsLeast {bits | ∀ bit, bits ≤ bit →
        a.toInt.testBit bit = decide (a.toInt < 0)} (clArithIntegerLength a) := by
  refine ⟨hasExpansion_bitop .and aCanonical bCanonical,
    hasExpansion_bitop .ior aCanonical bCanonical,
    hasExpansion_bitop .xor aCanonical bCanonical, ?_,
    biLogbitp_eq indexCanonical aCanonical, ?_, ?_⟩
  · refine ⟨_, testBit_neg_one_sub a.toInt, ?_⟩
    rw [clArithLognot_eq aCanonical]
    exact exactOrStorage_allocWith le_rfl
  · rw [clArithLogcount_eq aCanonical, ones_folded]
  · rw [clArithIntegerLength_eq aCanonical]
    exact size_folded_isLeast a.toInt

/-- A bignum of three limbs against the least fixnum. -/
theorem bitwise_expansion_wide :
    HasExpansion .m68k (clArithLogand .m68k (allOnes 3) (canon clFixnumMin))
        (fun bit => (allOnes 3).toInt.testBit bit &&
          (canon clFixnumMin).toInt.testBit bit) ∧
      biLogbitp (canon 7) (allOnes 3) = .ok ((allOnes 3).toInt.testBit (canon 7).toInt.toNat) := by
  have expansion := bitwise_expansion .m68k (allOnes 3) (canon clFixnumMin)
    (canon 7) (canonical_allOnes (by omega) (by decide)) trivial trivial
  exact ⟨expansion.1, expansion.2.2.2.2.1 (by decide)⟩

/-- The complement of the largest integer needs one limb too many. -/
theorem clArithLognot_allOnes_storage : (allOnes (maxLimbs .m68k)).Canonical .m68k ∧
      ¬ ∃ object, clArithLognot .m68k (allOnes (maxLimbs .m68k)) = .ok object ∧
        object.Canonical .m68k ∧
        ∀ bit, object.toInt.testBit bit = !(allOnes (maxLimbs .m68k)).toInt.testBit bit := by
  have canonical : (allOnes (maxLimbs .m68k)).Canonical .m68k :=
    canonical_allOnes (by decide) le_rfl
  refine ⟨canonical, ?_⟩
  rintro ⟨object, -, objectCanonical, bits⟩
  have exact : object.toInt = -1 - (allOnes (maxLimbs .m68k)).toInt := by
    apply eq_of_testBit_eq
    intro bit
    rw [bits, testBit_neg_one_sub]
  have bound := lt_of_limbCount_le objectCanonical.fits
  rw [exact] at bound
  have total := value_replicate_ones (maxLimbs .m68k)
  simp only [allOnes, ClInt.toInt, signed, Bool.false_eq_true, if_false]
    at bound
  generalize (2 ^ 16) ^ maxLimbs .m68k = limit at bound total
  omega

end ClAmiga.Number
