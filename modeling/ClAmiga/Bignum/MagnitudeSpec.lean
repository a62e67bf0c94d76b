import ClAmiga.Bignum.Magnitude

/-!
# Exactness of the raw limb loops

Each loop of `ClAmiga.Bignum.Magnitude` computes the sum, difference or
product of the numbers its arguments denote.  The statements carry the running
carry or borrow, so that one induction step is the arithmetic of one limb.
-/

namespace ClAmiga.Bignum

open Radix

theorem value_addCarry (a b : List Limb) (carry : Nat)
    (shorter : b.length ≤ a.length) (small : carry ≤ 1) :
    value (addCarry a b carry) = value a + value b + carry := by
  induction a generalizing b carry with
  | nil =>
      have bNil : b = [] := List.eq_nil_of_length_eq_zero (by simpa using shorter)
      subst bNil
      by_cases zero : carry = 0
      · simp [addCarry, zero]
      · have one : carry = 1 := by omega
        simp [addCarry, one]
  | cons x xs induction =>
      have xBound := x.isLt
      cases b with
      | nil =>
          have exactSum : (x.toNat + carry) % 2 ^ 32 = x.toNat + carry :=
            Nat.mod_eq_of_lt (by omega)
          have carrySmall : (x.toNat + carry) >>> 16 ≤ 1 := by
            rw [Nat.shiftRight_eq_div_pow]
            omega
          have split := word_add_shift 16 (x.toNat + carry)
          simp only [addCarry, exactSum, value_cons,
            induction [] _ (by simp) carrySmall, value_nil]
          omega
      | cons y ys =>
          have yBound := y.isLt
          have exactSum : (x.toNat + y.toNat + carry) % 2 ^ 32 = x.toNat + y.toNat + carry :=
            Nat.mod_eq_of_lt (by omega)
          have carrySmall : (x.toNat + y.toNat + carry) >>> 16 ≤ 1 := by
            rw [Nat.shiftRight_eq_div_pow]
            omega
          have split := word_add_shift 16 (x.toNat + y.toNat + carry)
          simp only [addCarry, exactSum, value_cons,
            induction ys _ (by simpa using shorter) carrySmall]
          omega

theorem value_bignumAddMag (a b : List Limb) : value (bignumAddMag a b) = value a + value b := by
  unfold bignumAddMag
  split
  · rw [value_addCarry b a 0 (by omega) (by omega)]
    omega
  · rw [value_addCarry a b 0 (by omega) (by omega)]
    omega

variable {a b : List Limb}

theorem addCarry_ne_nil {carry : Nat} (nonempty : a ≠ []) : addCarry a b carry ≠ [] := by
  cases a with
  | nil => exact (nonempty rfl).elim
  | cons x xs => cases b <;> simp [addCarry]

theorem bignumAddMag_ne_nil (aNonempty : a ≠ []) (bNonempty : b ≠ []) : bignumAddMag a b ≠ [] := by
  unfold bignumAddMag
  split
  · exact addCarry_ne_nil bNonempty
  · exact addCarry_ne_nil aNonempty

theorem value_subBorrow (a b : List Limb) (borrow : Nat)
    (shorter : b.length ≤ a.length) (small : borrow ≤ 1)
    (enough : value b + borrow ≤ value a) :
    value (subBorrow a b borrow) + value b + borrow = value a := by
  induction a generalizing b borrow with
  | nil =>
      have bNil : b = [] := List.eq_nil_of_length_eq_zero (by simpa using shorter)
      subst bNil
      simp only [value_nil] at enough
      simp [subBorrow]
      omega
  | cons x xs induction =>
      have xBound := x.isLt
      cases b with
      | nil =>
          simp only [value_cons, value_nil] at enough
          have digit : (BitVec.ofNat 16 ((x.toNat + 2 ^ 32 - borrow) % 2 ^ 32)).toNat + borrow =
              x.toNat + 2 ^ 16 * ((((x.toNat + 2 ^ 32 - borrow) % 2 ^ 32) >>> 16) % 2) := by
            rw [BitVec.toNat_ofNat, Nat.shiftRight_eq_div_pow]
            omega
          have nextSmall : (((x.toNat + 2 ^ 32 - borrow) % 2 ^ 32) >>> 16) % 2 ≤ 1 := by
            omega
          simp only [subBorrow, value_cons, value_nil]
          generalize (((x.toNat + 2 ^ 32 - borrow) % 2 ^ 32) >>> 16) % 2 = next
            at digit nextSmall ⊢
          have tail := induction [] next (by simp) nextSmall (by
            simp only [value_nil]
            omega)
          simp only [value_nil] at tail
          omega
      | cons y ys =>
          have yBound := y.isLt
          simp only [value_cons] at enough
          have digit : (BitVec.ofNat 16 ((x.toNat + 2 ^ 32 - y.toNat - borrow) % 2 ^ 32)).toNat +
                y.toNat + borrow =
              x.toNat + 2 ^ 16 * ((((x.toNat + 2 ^ 32 - y.toNat - borrow) % 2 ^ 32) >>> 16)
                  % 2) := by
            rw [BitVec.toNat_ofNat, Nat.shiftRight_eq_div_pow]
            omega
          have nextSmall : (((x.toNat + 2 ^ 32 - y.toNat - borrow) % 2 ^ 32) >>> 16) % 2 ≤ 1 := by
            omega
          simp only [subBorrow, value_cons]
          generalize (((x.toNat + 2 ^ 32 - y.toNat - borrow) % 2 ^ 32) >>> 16) % 2 = next
            at digit nextSmall ⊢
          have tail := induction ys next (by simpa using shorter) nextSmall (by
            omega)
          omega

theorem subBorrow_ne_nil {borrow : Nat} (nonempty : a ≠ []) : subBorrow a b borrow ≠ [] := by
  cases a with
  | nil => exact (nonempty rfl).elim
  | cons x xs => cases b <;> simp [subBorrow]

theorem value_bignumSubMag (shorter : b.length ≤ a.length) (enough : value b ≤ value a) :
    value (bignumSubMag a b) = value a - value b := by
  have exactness := value_subBorrow a b 0 shorter (by omega) (by omega)
  rw [bignumSubMag, value_strip]
  omega

theorem trimmed_bignumSubMag (nonempty : a ≠ []) : Trimmed (bignumSubMag a b) :=
  trimmed_strip (subBorrow_ne_nil nonempty)

theorem product_lt {w x y r carry : Nat} (xBound : x < 2 ^ w)
    (yBound : y < 2 ^ w) (rBound : r < 2 ^ w) (carryBound : carry < 2 ^ w) :
    x * y + r + carry < 2 ^ (2 * w) := by
  have square : 2 ^ (2 * w) = 2 ^ w * 2 ^ w := by
    rw [two_mul, pow_add]
  have positive : 0 < 2 ^ w := Nat.two_pow_pos w
  generalize 2 ^ w = base at *
  have productBound : x * y ≤ (base - 1) * (base - 1) :=
    Nat.mul_le_mul (by omega) (by omega)
  obtain ⟨pred, rfl⟩ : ∃ pred, base = pred + 1 := ⟨base - 1, by omega⟩
  rw [square]
  have expanded : (pred + 1) * (pred + 1) = pred * pred + pred + pred + 1 := by
    ring
  simp only [Nat.add_sub_cancel] at productBound
  omega

theorem product_carry_lt {w product : Nat} (bound : product < 2 ^ (2 * w)) :
    product >>> w < 2 ^ w := by
  rw [Nat.shiftRight_eq_div_pow]
  apply Nat.div_lt_of_lt_mul
  rwa [← pow_add, ← two_mul]

/-- One row over a window whose first `ys.length` words are `low` and whose
next word is still zero: the row adds `x * ys` and leaves the words above
alone. -/
theorem mulRow_spec {w : Nat} (x : BitVec w) (ys low high : List (BitVec w))
    (carry : Nat) (sameLength : low.length = ys.length)
    (carryBound : carry < 2 ^ w) :
    ∃ row : List (BitVec w), row.length = ys.length + 1 ∧
      mulRow x ys (low ++ 0 :: high) carry = row ++ high ∧
      value row = value low + x.toNat * value ys + carry := by
  induction ys generalizing low carry with
  | nil =>
      have lowNil : low = [] := List.eq_nil_of_length_eq_zero sameLength
      subst lowNil
      refine ⟨[BitVec.ofNat w carry], rfl, ?_, ?_⟩
      · simp [mulRow]
      · simp [Nat.mod_eq_of_lt carryBound]
  | cons y ys induction =>
      cases low with
      | nil => simp at sameLength
      | cons r rs =>
          have bound := product_lt x.isLt y.isLt r.isLt carryBound
          have nextBound := product_carry_lt bound
          obtain ⟨row, rowLength, rowShape, rowValue⟩ :=
            induction rs _ (by simpa using sameLength) nextBound
          have split := word_add_shift w (x.toNat * y.toNat + r.toNat + carry)
          refine ⟨BitVec.ofNat w (x.toNat * y.toNat + r.toNat + carry) :: row,
            by simpa using rowLength, ?_, ?_⟩
          · simp only [List.cons_append, mulRow, Nat.mod_eq_of_lt bound, rowShape]
          · rw [value_cons, rowValue, value_cons, value_cons]
            generalize (x.toNat * y.toNat + r.toNat + carry) >>> w = next
              at split
            calc
              (BitVec.ofNat w (x.toNat * y.toNat + r.toNat + carry)).toNat +
                    2 ^ w * (value rs + x.toNat * value ys + next)
                  = ((BitVec.ofNat w (x.toNat * y.toNat + r.toNat + carry)).toNat + 2 ^ w * next) +
                      2 ^ w * (value rs + x.toNat * value ys) := by ring
              _ = (x.toNat * y.toNat + r.toNat + carry) +
                      2 ^ w * (value rs + x.toNat * value ys) := by rw [split]
              _ = r.toNat + 2 ^ w * value rs +
                    x.toNat * (y.toNat + 2 ^ w * value ys) + carry := by ring

theorem value_mulRows {w : Nat} (a b low : List (BitVec w)) (sameLength : low.length = b.length) :
    value (mulRows a b (low ++ List.replicate a.length 0)) = value low + value a * value b := by
  induction a generalizing low with
  | nil => simp [mulRows]
  | cons x xs induction =>
      obtain ⟨row, rowLength, rowShape, rowValue⟩ :=
        mulRow_spec x b low (List.replicate xs.length 0) 0 sameLength (Nat.two_pow_pos w)
      cases row with
      | nil => simp at rowLength
      | cons r rs =>
          have tail := induction rs (by simpa using rowLength)
          rw [value_cons] at rowValue
          simp only [List.length_cons, List.replicate_succ, mulRows, rowShape,
            List.cons_append, value_cons, tail]
          calc
            r.toNat + 2 ^ w * (value rs + value xs * value b) = (r.toNat + 2 ^ w * value rs) +
                    2 ^ w * (value xs * value b) := by ring
            _ = (value low + x.toNat * value b + 0) +
                    2 ^ w * (value xs * value b) := by rw [rowValue]
            _ = value low + (x.toNat + 2 ^ w * value xs) * value b := by ring

theorem mulRow_ne_nil {w : Nat} (x : BitVec w) (ys rs : List (BitVec w))
    (carry : Nat) (nonempty : rs ≠ []) : mulRow x ys rs carry ≠ [] := by
  cases rs with
  | nil => exact (nonempty rfl).elim
  | cons r rs => cases ys <;> simp [mulRow]

theorem mulRows_ne_nil {w : Nat} (a b result : List (BitVec w))
    (nonempty : result ≠ []) : mulRows a b result ≠ [] := by
  cases a with
  | nil => simpa [mulRows] using nonempty
  | cons x xs =>
      have rowNonempty := mulRow_ne_nil x b result 0 nonempty
      simp only [mulRows]
      split
      · contradiction
      · simp

theorem value_mulSchoolbook {w : Nat} (a b : List (BitVec w)) :
    value (mulSchoolbook a b) = value a * value b := by
  have split : List.replicate (a.length + b.length) (0 : BitVec w) =
      List.replicate b.length 0 ++ List.replicate a.length 0 := by
    rw [List.replicate_append_replicate, Nat.add_comm]
  rw [mulSchoolbook, value_strip, split, value_mulRows a b _ (by simp)]
  simp only [value_replicate_zero, Nat.zero_add]

theorem trimmed_mulSchoolbook {w : Nat} {a b : List (BitVec w)}
    (nonempty : a ≠ []) : Trimmed (mulSchoolbook a b) := by
  apply trimmed_strip
  apply mulRows_ne_nil
  have := List.length_pos_of_ne_nil nonempty
  simp only [ne_eq, List.replicate_eq_nil_iff]
  omega

theorem value_pack16To32 (limbs : List Limb) : value (pack16To32 limbs) = value limbs := by
  fun_induction pack16To32 limbs with
  | case1 lo hi rest induction =>
      have loBound := lo.isLt
      have hiBound := hi.isLt
      have joined : (lo.setWidth 32 ||| (hi.setWidth 32 <<< 16)).toNat =
          lo.toNat + 2 ^ 16 * hi.toNat := by
        rw [BitVec.toNat_or, BitVec.toNat_shiftLeft, BitVec.toNat_setWidth,
          BitVec.toNat_setWidth, Nat.mod_eq_of_lt (by omega),
          Nat.mod_eq_of_lt (by omega), Nat.shiftLeft_eq,
          Nat.mod_eq_of_lt (by omega), Nat.or_comm, Nat.mul_comm,
          ← Nat.two_pow_add_eq_or_of_lt (by omega)]
        omega
      rw [value_cons, induction, joined]
      simp only [value_cons]
      ring
  | case2 lo =>
      have loBound := lo.isLt
      simp only [value_cons, value_nil, BitVec.toNat_setWidth]
      omega
  | case3 => rfl

theorem pack16To32_ne_nil {limbs : List Limb} (nonempty : limbs ≠ []) : pack16To32 limbs ≠ [] := by
  fun_cases pack16To32 limbs with
  | case1 => simp
  | case2 => simp
  | case3 => exact (nonempty rfl).elim

theorem value_unpackPairs (src : List (BitVec 32)) : value (unpackPairs src) = value src := by
  induction src with
  | nil => rfl
  | cons x xs induction =>
      have xBound := x.isLt
      simp only [unpackPairs, value_cons, induction, BitVec.toNat_setWidth,
        BitVec.toNat_ushiftRight, Nat.shiftRight_eq_div_pow]
      omega

theorem value_unpack32To16 (src : List (BitVec 32)) : value (unpack32To16 src) = value src := by
  rw [unpack32To16, value_strip, value_unpackPairs]

theorem unpack32To16_trimmed {src : List (BitVec 32)} (nonempty : src ≠ []) :
    Trimmed (unpack32To16 src) := by
  apply trimmed_strip
  cases src with
  | nil => exact (nonempty rfl).elim
  | cons x xs => simp [unpackPairs]

theorem value_carryOut (count carry : Nat) :
    value (carryOut count carry) = carry % (2 ^ 16) ^ count := by
  induction count generalizing carry with
  | zero => simp [carryOut, Nat.mod_one]
  | succ count induction =>
      have radixStep : (2 ^ 16) ^ (count + 1) = 2 ^ 16 * (2 ^ 16) ^ count := by
        ring
      rw [carryOut, value_cons, induction, BitVec.toNat_ofNat,
        Nat.shiftRight_eq_div_pow, radixStep, Nat.mod_mul]

@[simp] theorem length_carryOut (count carry : Nat) :
    (carryOut count carry).length = count := by
  induction count generalizing carry with
  | zero => rfl
  | succ count induction => simp [carryOut, induction]

/-- What a one-pass loop leaves: as many limbs as it read, and a carry that
completes the product. -/
structure MulSmallResult (a : List Limb) (m carry : Nat)
    (result : List Limb × Nat) : Prop where
  length_eq : result.1.length = a.length
  value_eq : value result.1 + (2 ^ 16) ^ a.length * result.2 =
    value a * m + carry

/-- What a round computes: the product with the carry, and the carry out. -/
theorem round_lt {k x m carry : Nat} (xBound : x < 2 ^ k) (mBound : m ≤ 2 ^ 30)
    (carryBound : carry < 2 ^ 32) :
    x * m + carry < 2 ^ (k + 32) ∧ (x * m + carry) >>> k < 2 ^ 32 := by
  have productBound : x * m ≤ (2 ^ k - 1) * 2 ^ 30 := Nat.mul_le_mul (by omega) mBound
  have fits : x * m + carry < 2 ^ k * 2 ^ 32 := by
    have positive := Nat.two_pow_pos k
    omega
  refine ⟨by rwa [pow_add], ?_⟩
  rw [Nat.shiftRight_eq_div_pow]
  exact Nat.div_lt_of_lt_mul fits

/-- The two-limb loop. -/
theorem mulSmallPairs_spec (m : Nat) (mBound : m ≤ 2 ^ 30) (a : List Limb)
    (carry : Nat) (carryBound : carry < 2 ^ 32) :
    MulSmallResult a m carry (mulSmallPairs m a carry) := by
  fun_induction mulSmallPairs m a carry with
  | case1 x0 x1 xs carry prod rest induction =>
      have x0Bound := x0.isLt
      have x1Bound := x1.isLt
      have fits := round_lt (show x0.toNat + x1.toNat * 2 ^ 16 < 2 ^ 32 by omega) mBound carryBound
      have exactProduct : prod = (x0.toNat + x1.toNat * 2 ^ 16) * m + carry :=
        Nat.mod_eq_of_lt fits.1
      have nextBound : prod >>> 32 < 2 ^ 32 := by
        rw [exactProduct]
        exact fits.2
      obtain ⟨restLength, restValue⟩ :
          MulSmallResult xs _ _ rest := induction nextBound
      constructor
      · simp [restLength]
      · have high : value rest.1 + (2 ^ 16) ^ xs.length * rest.2 =
            value xs * m + prod >>> 16 >>> 16 := by
          rw [← Nat.shiftRight_add, restValue]
        calc
          _ = prod + 2 ^ 16 * (2 ^ 16 * (value xs * m)) :=
            value_carry ((value_carry high).trans (Nat.add_comm _ _))
          _ = value (x0 :: x1 :: xs) * m + carry := by
            rw [exactProduct, value_cons, value_cons]
            ring
  | case2 x0 carry prod =>
      have fits : x0.toNat * m + carry < 2 ^ 64 :=
        (round_lt x0.isLt mBound carryBound).1.trans (by decide)
      have exactProduct : prod = x0.toNat * m + carry := Nat.mod_eq_of_lt fits
      have split := word_add_shift 16 prod
      constructor
      · rfl
      · simp only [value_cons, value_nil, List.length_singleton, pow_one,
          Nat.mul_zero, Nat.add_zero]
        omega
  | case3 carry =>
      constructor
      · rfl
      · simp

/-- The four-limb loop, which leaves its last limbs to the two-limb loop. -/
theorem mulSmallQuads_spec (m : Nat) (mBound : m ≤ 2 ^ 30) (a : List Limb)
    (carry : Nat) (carryBound : carry < 2 ^ 32) :
    MulSmallResult a m carry (mulSmallQuads m a carry) := by
  fun_induction mulSmallQuads m a carry with
  | case1 x0 x1 x2 x3 xs carry x prod lo rest induction =>
      have x0Bound := x0.isLt
      have x1Bound := x1.isLt
      have x2Bound := x2.isLt
      have x3Bound := x3.isLt
      have xBound : x < 2 ^ 64 := by
        simp only [x]
        omega
      have fits := round_lt xBound mBound carryBound
      have exactProduct : prod = x * m + carry :=
        Nat.mod_eq_of_lt (fits.1.trans (by decide))
      have next : prod >>> 64 < 2 ^ 32 := by
        rw [exactProduct]
        exact fits.2
      have exactNext : (prod >>> 64) % 2 ^ 64 = prod >>> 64 :=
        Nat.mod_eq_of_lt (next.trans (by decide))
      have nextBound : (prod >>> 64) % 2 ^ 64 < 2 ^ 32 := by
        rw [exactNext]
        exact next
      obtain ⟨restLength, restValue⟩ :
          MulSmallResult xs m _ rest := induction nextBound
      rw [exactNext] at restValue
      constructor
      · simp [restLength]
      · have split : (BitVec.ofNat 16 lo).toNat + 2 ^ 16 * (BitVec.ofNat 16 (lo >>> 16)).toNat +
            2 ^ 32 * (BitVec.ofNat 16 (lo >>> 32)).toNat +
            2 ^ 48 * (BitVec.ofNat 16 (lo >>> 48)).toNat +
            2 ^ 64 * (prod >>> 64) = prod := by
          simp only [lo, BitVec.toNat_ofNat, Nat.shiftRight_eq_div_pow]
          omega
        simp only [value_cons, List.length_cons, pow_succ]
        calc
          (BitVec.ofNat 16 lo).toNat + 2 ^ 16 * ((BitVec.ofNat 16 (lo >>> 16)).toNat + 2 ^ 16 *
                  ((BitVec.ofNat 16 (lo >>> 32)).toNat + 2 ^ 16 *
                    ((BitVec.ofNat 16 (lo >>> 48)).toNat + 2 ^ 16 * value rest.1))) +
              (2 ^ 16) ^ xs.length * 2 ^ 16 * 2 ^ 16 * 2 ^ 16 * 2 ^ 16 * rest.2
              = (BitVec.ofNat 16 lo).toNat + 2 ^ 16 * (BitVec.ofNat 16 (lo >>> 16)).toNat +
                2 ^ 32 * (BitVec.ofNat 16 (lo >>> 32)).toNat +
                2 ^ 48 * (BitVec.ofNat 16 (lo >>> 48)).toNat +
                2 ^ 64 * (value rest.1 +
                  (2 ^ 16) ^ xs.length * rest.2) := by ring
          _ = (BitVec.ofNat 16 lo).toNat + 2 ^ 16 * (BitVec.ofNat 16 (lo >>> 16)).toNat +
                2 ^ 32 * (BitVec.ofNat 16 (lo >>> 32)).toNat +
                2 ^ 48 * (BitVec.ofNat 16 (lo >>> 48)).toNat +
                2 ^ 64 * (prod >>> 64) + 2 ^ 64 * (value xs * m) := by
            rw [restValue]
            ring
          _ = x * m + carry + 2 ^ 64 * (value xs * m) := by
            rw [split, exactProduct]
          _ = (x0.toNat + 2 ^ 16 * (x1.toNat + 2 ^ 16 * (x2.toNat +
                2 ^ 16 * (x3.toNat + 2 ^ 16 * value xs)))) * m + carry := by
            simp only [x]
            ring
  | case2 limbs carry short =>
      exact mulSmallPairs_spec m mBound limbs carry carryBound

/-- The 68020 loop for a multiplier of one limb. -/
theorem mulSmallOne_spec (ml : Nat) (mlBound : ml < 2 ^ 16) (a : List Limb)
    (carry : Nat) (carryBound : carry < 2 ^ 16) :
    MulSmallResult a ml carry (mulSmallOne ml a carry) := by
  fun_induction mulSmallOne ml a carry with
  | case1 x xs carry prod rest induction =>
      have xBound := x.isLt
      have productBound : x.toNat * ml ≤ (2 ^ 16 - 1) * (2 ^ 16 - 1) :=
        Nat.mul_le_mul (by omega) (by omega)
      have exactProduct : prod = x.toNat * ml + carry :=
        Nat.mod_eq_of_lt (by omega)
      have nextBound : prod >>> 16 < 2 ^ 16 := by
        rw [Nat.shiftRight_eq_div_pow]
        omega
      obtain ⟨restLength, restValue⟩ :
          MulSmallResult xs _ _ rest := induction nextBound
      constructor
      · simp [restLength]
      · calc
          _ = prod + 2 ^ 16 * (value xs * ml) := value_carry restValue
          _ = value (x :: xs) * ml + carry := by
            rw [exactProduct, value_cons]
            ring
  | case2 carry =>
      constructor
      · rfl
      · simp

/-- The 68020 loop for a multiplier of two limbs. -/
theorem mulSmallTwo_spec (ml mh : Nat) (mlBound : ml < 2 ^ 16)
    (mhBound : mh ≤ 2 ^ 14) (a : List Limb) (carry : Nat)
    (carryBound : carry < 2 ^ 31) :
    MulSmallResult a (ml + 2 ^ 16 * mh) carry (mulSmallTwo ml mh a carry) := by
  fun_induction mulSmallTwo ml mh a carry with
  | case1 x xs carry p0 next rest induction =>
      have xBound := x.isLt
      have lowBound : x.toNat * ml ≤ (2 ^ 16 - 1) * (2 ^ 16 - 1) :=
        Nat.mul_le_mul (by omega) (by omega)
      have highBound : x.toNat * mh ≤ (2 ^ 16 - 1) * 2 ^ 14 :=
        Nat.mul_le_mul (by omega) mhBound
      have exactLow : p0 = x.toNat * ml + carry % 2 ^ 16 :=
        Nat.mod_eq_of_lt (by omega)
      have exactNext : next = x.toNat * mh + carry / 2 ^ 16 + p0 / 2 ^ 16 := by
        simp only [next, Nat.shiftRight_eq_div_pow]
        exact Nat.mod_eq_of_lt (by omega)
      obtain ⟨restLength, restValue⟩ :
          MulSmallResult xs _ _ rest := induction (by omega)
      have split : (BitVec.ofNat 16 p0).toNat + 2 ^ 16 * next =
          x.toNat * ml + 2 ^ 16 * (x.toNat * mh) + carry := by
        rw [BitVec.toNat_ofNat, exactNext, exactLow]
        omega
      constructor
      · simp [restLength]
      · simp only [value_cons, List.length_cons, pow_succ]
        calc
          (BitVec.ofNat 16 p0).toNat + 2 ^ 16 * value rest.1 +
                (2 ^ 16) ^ xs.length * 2 ^ 16 * rest.2
              = (BitVec.ofNat 16 p0).toNat + 2 ^ 16 * (value rest.1 +
                (2 ^ 16) ^ xs.length * rest.2) := by ring
          _ = ((BitVec.ofNat 16 p0).toNat + 2 ^ 16 * next) +
                2 ^ 16 * (value xs * (ml + 2 ^ 16 * mh)) := by
            rw [restValue]
            ring
          _ = (x.toNat + 2 ^ 16 * value xs) * (ml + 2 ^ 16 * mh) + carry := by
            rw [split]
            ring
  | case2 carry =>
      constructor
      · rfl
      · simp

/-- Every variant of `bignum_mul_small` writes the product, provided the
caller's result length can hold it. -/
theorem bignumMulSmall_spec (platform : Platform) (a : List Limb) (m rLen : Nat)
    (mBound : m ≤ 2 ^ 30) (covers : a.length ≤ rLen)
    (fits : value a * m < (2 ^ 16) ^ rLen) :
    (bignumMulSmall platform a m rLen).length = rLen ∧
      value (bignumMulSmall platform a m rLen) = value a * m := by
  have finish : ∀ body : List Limb × Nat, MulSmallResult a m 0 body →
      (body.1 ++ carryOut (rLen - a.length) body.2).length = rLen ∧
        value (body.1 ++ carryOut (rLen - a.length) body.2) = value a * m := by
    intro body ⟨lengthEq, valueEq⟩
    have split : (2 ^ 16) ^ rLen = (2 ^ 16) ^ a.length * (2 ^ 16) ^ (rLen - a.length) := by
      rw [← pow_add]
      congr 1
      omega
    have carryFits : body.2 < (2 ^ 16) ^ (rLen - a.length) := by
      have bounded : (2 ^ 16) ^ a.length * body.2 <
          (2 ^ 16) ^ a.length * (2 ^ 16) ^ (rLen - a.length) := by
        rw [← split]
        omega
      exact Nat.lt_of_mul_lt_mul_left bounded
    constructor
    · simp [lengthEq]
      omega
    · rw [value_append, value_carryOut, Nat.mod_eq_of_lt carryFits, lengthEq]
      omega
  unfold bignumMulSmall
  cases platform with
  | host int128 =>
      cases int128 with
      | true => exact finish _ (mulSmallQuads_spec m mBound a 0 (by omega))
      | false => exact finish _ (mulSmallPairs_spec m mBound a 0 (by omega))
  | m68k =>
      have recombine : m % 2 ^ 16 + 2 ^ 16 * (m >>> 16) = m := by
        rw [Nat.shiftRight_eq_div_pow]
        exact Nat.mod_add_div m (2 ^ 16)
      have lowBound : m % 2 ^ 16 < 2 ^ 16 := Nat.mod_lt _ (by omega)
      have highBound : m >>> 16 ≤ 2 ^ 14 := by
        rw [Nat.shiftRight_eq_div_pow]
        omega
      by_cases small : m >>> 16 = 0
      · have exactLow : m % 2 ^ 16 = m := by omega
        have body := mulSmallOne_spec (m % 2 ^ 16) lowBound a 0 (by omega)
        simp only [small, if_true]
        exact finish _ (by simpa only [exactLow] using body)
      · have body := mulSmallTwo_spec (m % 2 ^ 16) (m >>> 16) lowBound highBound a 0 (by omega)
        simp only [small, if_false]
        exact finish _ (by simpa only [recombine] using body)

end ClAmiga.Bignum
