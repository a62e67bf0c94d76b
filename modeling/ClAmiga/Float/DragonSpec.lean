import ClAmiga.Float.BigSpec
import ClAmiga.Float.Dragon

/-!
# The digits read back

The digits of `dragon4_shortest` denote a decimal inside the interval of
numbers that round to the float, at most 17 of them.  The four big integers
stay in fixed proportion to the least of them, so the state of the fix-up loops
is that one integer, the divisor and the decimal exponent.
-/

namespace ClAmiga.Float

open Radix

/-- Twice the factor between the two gaps is kept in the integers when the gap
below is half the gap above. -/
def gapFactor (unequal : Bool) : Nat :=
  if unequal then 2 else 1

/-- The decimals that round to `f * 2 ^ e`; the ends belong to it when `f` is
even. -/
def InInterval (f : Nat) (e : Int) (unequal : Bool) (x : ℚ) : Prop :=
  if f % 2 = 0 then
    f * 2 ^ e - 2 ^ e / (2 * gapFactor unequal) ≤ x ∧ x ≤ f * 2 ^ e + 2 ^ e / 2
  else
    f * 2 ^ e - 2 ^ e / (2 * gapFactor unequal) < x ∧ x < f * 2 ^ e + 2 ^ e / 2

/-- The integers in proportion to `m`. -/
def scaledRep (f c m s : Nat) : Scaled :=
  ⟨rep (2 * f * c * m), rep s, rep (c * m), rep m⟩

def Bits (number count : Nat) : Prop :=
  number < 2 ^ count

theorem Bits.mono {number small large : Nat} (bits : Bits number small)
    (le : small ≤ large) : Bits number large :=
  Nat.lt_of_lt_of_le bits (Nat.pow_le_pow_right (by omega) le)

theorem Bits.of_le {number larger count : Nat} (bits : Bits larger count)
    (le : number ≤ larger) : Bits number count :=
  Nat.lt_of_le_of_lt le bits

theorem Bits.mul {a b i j : Nat} (aBits : Bits a i) (bBits : Bits b j) : Bits (a * b) (i + j) := by
  unfold Bits at *
  rw [pow_add]
  exact Nat.mul_lt_mul'' aBits bBits

theorem Bits.add {a b count : Nat} (aBits : Bits a count) (bBits : Bits b count) :
    Bits (a + b) (count + 1) := by
  unfold Bits at *
  rw [pow_succ]
  omega

theorem Bits.size_le {number count : Nat} (bits : Bits number count) : number.size ≤ count :=
  Nat.size_le.mpr bits

theorem bits_two_pow (k : Nat) : Bits (2 ^ k) (k + 1) :=
  Nat.pow_lt_pow_right (by omega) (by omega)

theorem bits_ten_pow (k : Nat) : Bits (10 ^ k) (4 * k + 1) := by
  have le : 10 ^ k ≤ 2 ^ (4 * k) := by
    rw [pow_mul]
    exact Nat.pow_le_pow_left (by norm_num) k
  exact (bits_two_pow (4 * k)).of_le le

theorem bits_small {number count : Nat} (small : number < 16) (four : 4 ≤ count) :
    Bits number count :=
  (show Bits number 4 from small).mono four

/-- The bits of a full number, and those of a number with two words to
spare. -/
def fullBits : Nat := 32 * dtLimbs

def roomBits : Nat := 32 * 110

theorem lt_capacity {number : Nat} (bits : Bits number fullBits) : number < capacity := by
  unfold Bits fullBits at bits
  unfold capacity
  rw [← pow_mul]
  exact bits

theorem dtShl_bits {number k : Nat} (bits : Bits (number * 2 ^ k) roomBits) :
    dtShl (rep number) k = rep (number * 2 ^ k) := by
  unfold Bits roomBits at bits
  apply dtShl_rep
  rw [← pow_mul]
  exact bits

theorem shl_one {number : Nat} (bits : Bits (number * 2) roomBits) :
    dtShl (rep number) 1 = rep (number * 2) := by
  have shifted : dtShl (rep number) 1 = rep (number * 2 ^ 1) :=
    dtShl_bits (by rw [pow_one]; exact bits)
  rw [shifted, pow_one]

theorem dtMul_bits {number m : Nat} (mPositive : 0 < m) (mBound : m < 2 ^ 32)
    (bits : Bits (number * m) fullBits) :
    dtMulU32 (rep number) m = rep (number * m) :=
  dtMulU32_of_lt mPositive mBound (lt_capacity bits)

theorem dtAdd_bits {a b : Nat} (bits : Bits (a + b) fullBits) :
    dtAdd (rep a) (rep b) = rep (a + b) := by
  rw [dtAdd_rep (lt_capacity (bits.of_le (Nat.le_add_right a b)))
    (lt_capacity (bits.of_le (Nat.le_add_left b a))), big_of_lt (lt_capacity bits)]

theorem pow_toNat_eq {b : ℚ} (nonzero : b ≠ 0) (k : Int) :
    b ^ k.toNat = b ^ k * b ^ (-k).toNat := by
  rw [← zpow_natCast, ← zpow_natCast, ← zpow_add₀ nonzero]
  congr 1
  omega

/-- The floats of both formats. -/
structure FloatRange (f : Nat) (e : Int) : Prop where
  positive : 0 < f
  mantissa : Bits f 53
  low : -1074 ≤ e
  high : e ≤ 971

variable {f : Nat} {even : Bool}

theorem scaledInit_eq {e : Int} (range : FloatRange f e) (unequal : Bool) :
    scaledInit f e unequal = scaledRep f (gapFactor unequal) (2 ^ e.toNat)
      (2 * gapFactor unequal * 2 ^ (-e).toNat) := by
  obtain ⟨-, mantissa, low, high⟩ := range
  have fWord : dtFromU64 f = rep f :=
    dtFromU64_rep (mantissa.mono (show 53 ≤ 64 by omega))
  have word : ∀ v : Nat, v < 8 → dtFromU64 v = rep v :=
    fun v small => dtFromU64_rep (by omega)
  have powerBits : ∀ k : Nat, k ≤ 1100 → Bits (2 ^ k) 1101 :=
    fun k le => (bits_two_pow k).mono (by omega)
  have power : ∀ k : Nat, k ≤ 1100 → dtShl (rep 1) k = rep (2 ^ k) := by
    intro k le
    have bits : Bits (1 * 2 ^ k) roomBits := by
      rw [Nat.one_mul]
      exact (powerBits k le).mono (by decide)
    rw [dtShl_bits bits, Nat.one_mul]
  have double : ∀ {number : Nat}, Bits number 1200 → dtShl (rep number) 1 = rep (number * 2) :=
    fun bits => shl_one ((bits.mul (bits_small (show 2 < 16 by omega) le_rfl)).mono
      (by decide))
  have shifted : ∀ k : Nat, k ≤ 1100 → dtShl (rep f) k = rep (f * 2 ^ k) :=
    fun k le => dtShl_bits ((mantissa.mul (powerBits k le)).mono (by decide))
  unfold scaledInit
  by_cases nonneg : e ≥ 0
  · have noShift : (-e).toNat = 0 := by omega
    have step : (e + 1).toNat = e.toNat + 1 := by omega
    have rBits : Bits (f * 2 ^ (e.toNat + 1)) 1200 :=
      (mantissa.mul (powerBits (e.toNat + 1) (by omega))).mono (by omega)
    have mmBits : Bits (2 ^ e.toNat) 1200 :=
      (powerBits e.toNat (by omega)).mono (by omega)
    simp only [if_pos nonneg, fWord, word 1 (by omega), word 2 (by omega),
      word 4 (by omega), step, power e.toNat (by omega),
      shifted (e.toNat + 1) (by omega), noShift, pow_zero, Nat.mul_one]
    cases unequal with
    | false =>
        simp only [Bool.false_eq_true, if_false, scaledRep, gapFactor, Nat.mul_one, Nat.one_mul]
        rw [pow_succ]
        ring_nf
    | true =>
        simp only [double rBits, double mmBits, if_true, scaledRep, gapFactor]
        rw [pow_succ]
        ring_nf
  · have noScale : e.toNat = 0 := by omega
    have step : (1 - e).toNat = (-e).toNat + 1 := by omega
    have rBits : Bits (f * 2 ^ 1) 1200 :=
      (mantissa.mul (powerBits 1 (by omega))).mono (by omega)
    have sBits : Bits (2 ^ ((-e).toNat + 1)) 1200 :=
      (powerBits ((-e).toNat + 1) (by omega)).mono (by omega)
    have oneBits : Bits 1 1200 := bits_small (by omega) (by omega)
    simp only [if_neg nonneg, fWord, word 1 (by omega), step,
      power ((-e).toNat + 1) (by omega), shifted 1 (by omega), noScale, pow_zero]
    cases unequal with
    | false =>
        simp only [Bool.false_eq_true, if_false, scaledRep, gapFactor, Nat.mul_one]
        rw [pow_succ]
        ring_nf
    | true =>
        simp only [double rBits, double sBits, double oneBits, if_true, scaledRep, gapFactor]
        rw [pow_succ]
        ring_nf

theorem estimateK_bounds {e : Int} (range : FloatRange f e) :
    -330 ≤ estimateK f e ∧ estimateK f e ≤ 330 := by
  obtain ⟨positive, mantissa, low, high⟩ := range
  have sizeLe : f.size ≤ 53 := Nat.size_le.mpr mantissa
  have length : bitlenU64 f = f.size :=
    bitlenU64_eq (mantissa.mono (show 53 ≤ 64 by omega))
  unfold estimateK
  rw [length]
  generalize scaled : ((f.size : Int) + e - 1) * 30103 = product
  have magnitude : (product.tdiv 100000).natAbs = product.natAbs / 100000 :=
    Int.natAbs_tdiv _ _
  omega

theorem gapFactor_pos (unequal : Bool) : 0 < gapFactor unequal := by
  cases unequal <;> decide

theorem gapFactor_le (unequal : Bool) : gapFactor unequal ≤ 2 := by
  cases unequal <;> decide

theorem dtMulPow10_bits {number k : Nat} (bits : Bits (number * 10 ^ k) fullBits) :
    dtMulPow10 (rep number) k = rep (number * 10 ^ k) :=
  dtMulPow10_rep k (lt_capacity bits)

theorem scaleByK_eq {f c m s : Nat} {k : Int} (low : -330 ≤ k) (high : k ≤ 330)
    (rBits : Bits (2 * f * c * m) 1300) (mpBits : Bits (c * m) 1300)
    (mmBits : Bits m 1300) (sBits : Bits s 1300) :
    scaleByK (scaledRep f c m s) k = scaledRep f c (m * 10 ^ (-k).toNat) (s * 10 ^ k.toNat) := by
  have scaled : ∀ {number : Nat} (count : Nat), count ≤ 330 → Bits number 1300 →
      dtMulPow10 (rep number) count = rep (number * 10 ^ count) := by
    intro number count few bits
    apply dtMulPow10_bits
    exact (bits.mul ((bits_ten_pow count).mono (show _ ≤ 1321 by omega))).mono (by decide)
  unfold scaleByK
  by_cases nonneg : k ≥ 0
  · have noScale : (-k).toNat = 0 := by omega
    rw [if_pos nonneg, noScale, pow_zero, Nat.mul_one]
    simp only [scaledRep, scaled k.toNat (by omega) sBits]
  · have noScale : k.toNat = 0 := by omega
    rw [if_neg nonneg, noScale, pow_zero, Nat.mul_one]
    simp only [scaledRep, scaled (-k).toNat (by omega) rBits,
      scaled (-k).toNat (by omega) mpBits, scaled (-k).toNat (by omega) mmBits]
    simp only [Nat.mul_assoc]

theorem dtCmp_pos_or {a b : Nat} (even : Bool) :
    (dtCmp (rep a) (rep b) > 0 ∨ (dtCmp (rep a) (rep b) = 0 ∧ even = true)) ↔
      b < a ∨ (a = b ∧ even = true) := by
  rw [dtCmp_rep]
  rcases Nat.lt_trichotomy a b with less | equal | greater
  · simp [less, less.not_gt, less.ne]
  · simp [equal]
  · simp [greater, greater.not_gt, greater.ne']

theorem dtCmp_neg_or {a b : Nat} (even : Bool) :
    (dtCmp (rep a) (rep b) < 0 ∨ (dtCmp (rep a) (rep b) = 0 ∧ even = false)) ↔
      a < b ∨ (a = b ∧ even = false) := by
  rw [dtCmp_rep]
  rcases Nat.lt_trichotomy a b with less | equal | greater
  · simp [less]
  · simp [equal]
  · simp [greater.not_gt, greater.ne']

/-- `a ≤ b`, strictly when `even` asks for it. -/
def Below (even : Bool) (a b : Nat) : Prop :=
  a ≤ b ∧ (even = true → a < b)

theorem below_iff {a b : Nat} : Below even a b ↔ ¬ (b < a ∨ (a = b ∧ even = true)) := by
  unfold Below
  cases even with
  | false => simp
  | true =>
      simp only [true_implies, and_true]
      omega

theorem fixHigh_rep (even : Bool) {r mp : Nat} (sumBits : Bits (r + mp) 3000)
    (fuel : Nat) {s : Nat} {k : Int} (sPositive : 0 < s)
    (enough : r + mp < s * 2 ^ fuel) :
    ∃ j : Nat, fixHigh even (rep r) (rep mp) (fuel + 1) (rep s) k = some (rep (s * 10 ^ j), k + j) ∧
      Below even (r + mp) (s * 10 ^ j) ∧ (j = 0 ∨ s * 10 ^ j ≤ 10 * (r + mp)) := by
  have sum : dtAdd (rep r) (rep mp) = rep (r + mp) :=
    dtAdd_bits (sumBits.mono (by decide))
  induction fuel generalizing s k with
  | zero =>
      have less : r + mp < s := by simpa using enough
      refine ⟨0, ?_, ?_, Or.inl rfl⟩
      · rw [fixHigh, sum]
        simp only [dtCmp_pos_or]
        rw [if_neg (by omega)]
        simp
      · rw [pow_zero, Nat.mul_one]
        exact ⟨less.le, fun _ => less⟩
  | succ fuel induction =>
      rw [fixHigh, sum]
      simp only [dtCmp_pos_or]
      by_cases reaches : s < r + mp ∨ (r + mp = s ∧ even = true)
      · have le : s ≤ r + mp := by omega
        have product : dtMulU32 (rep s) 10 = rep (s * 10) :=
          dtMul_bits (by omega) (by omega)
            (((sumBits.of_le le).mul (bits_small (show 10 < 16 by omega) le_rfl)).mono (by decide))
        have enoughNext : r + mp < s * 10 * 2 ^ fuel := by
          rw [pow_succ] at enough
          have : s * (2 ^ fuel * 2) ≤ s * 10 * 2 ^ fuel := by
            have := Nat.mul_le_mul_left (s * 2 ^ fuel) (show 2 ≤ 10 by omega)
            calc
              s * (2 ^ fuel * 2) = s * 2 ^ fuel * 2 := by ring
              _ ≤ s * 2 ^ fuel * 10 := this
              _ = s * 10 * 2 ^ fuel := by ring
          omega
        obtain ⟨j, result, below, bound⟩ := induction (k := k + 1) (by omega) enoughNext
        refine ⟨j + 1, ?_, ?_, ?_⟩
        · rw [if_pos reaches, product, result, pow_succ]
          push_cast
          ring_nf
        · rw [pow_succ, Nat.mul_comm (10 ^ j), ← Nat.mul_assoc]
          exact below
        · right
          rw [pow_succ, Nat.mul_comm (10 ^ j), ← Nat.mul_assoc]
          rcases bound with rfl | bounded
          · rw [pow_zero, Nat.mul_one]
            omega
          · exact bounded
      · refine ⟨0, ?_, ?_, Or.inl rfl⟩
        · rw [if_neg reaches]
          simp
        · rw [pow_zero, Nat.mul_one]
          exact below_iff.mpr reaches

theorem mulTen_eq {f c m s : Nat} (bits : Bits (2 * f * c * m + c * m) 3200) (mBits : Bits m 3200) :
    mulTen (scaledRep f c m s) = scaledRep f c (m * 10) s := by
  have ten : ∀ {number : Nat}, Bits number 3200 → dtMulU32 (rep number) 10 = rep (number * 10) :=
    fun bits => dtMul_bits (by omega) (by omega)
      ((bits.mul (bits_small (show 10 < 16 by omega) le_rfl)).mono (by decide))
  simp only [mulTen, scaledRep, ten mBits, ten (bits.of_le (Nat.le_add_right _ _)),
    ten (bits.of_le (Nat.le_add_left _ _))]
  simp only [Nat.mul_assoc]

theorem fixLow_rep {f c s : Nat} (cPositive : 0 < c)
    (sBits : Bits s 3100) (fuel : Nat) {m : Nat} {k : Int}
    (mPositive : 0 < m) (below : Below even (2 * f * c * m + c * m) s)
    (enough : s < 10 * (2 * f * c * m + c * m) * 2 ^ fuel) :
    ∃ j : Nat, fixLow even (fuel + 1) (scaledRep f c m s) k =
        some (scaledRep f c (m * 10 ^ j) s, k - j) ∧
      Below even (2 * f * c * (m * 10 ^ j) + c * (m * 10 ^ j)) s ∧
      Below (!even) s (10 * (2 * f * c * (m * 10 ^ j) + c * (m * 10 ^ j))) := by
  have proportional : ∀ m : Nat, m ≤ 2 * f * c * m + c * m := by
    intro m
    have := Nat.le_mul_of_pos_left m cPositive
    omega
  have scaled : ∀ m : Nat, 2 * f * c * (m * 10) + c * (m * 10) = (2 * f * c * m + c * m) * 10 := by
    intro m
    ring
  induction fuel generalizing m k with
  | zero =>
      have sumBits := sBits.of_le below.1
      have less : s < (2 * f * c * m + c * m) * 10 := by
        rw [pow_zero, Nat.mul_one] at enough
        omega
      have sum : dtAdd (rep (2 * f * c * m)) (rep (c * m)) =
          rep (2 * f * c * m + c * m) := dtAdd_bits (sumBits.mono (by decide))
      have product : dtMulU32 (rep (2 * f * c * m + c * m)) 10 =
          rep ((2 * f * c * m + c * m) * 10) := dtMul_bits (by omega) (by omega)
        ((sumBits.mul (bits_small (show 10 < 16 by omega) le_rfl)).mono (by decide))
      refine ⟨0, ?_, ?_, ?_⟩
      · rw [fixLow]
        simp only [scaledRep, sum, product, dtCmp_neg_or]
        rw [if_neg (by omega)]
        simp
      · rw [pow_zero, Nat.mul_one]
        exact below
      · rw [pow_zero, Nat.mul_one]
        exact ⟨by omega, fun _ => by omega⟩
  | succ fuel induction =>
      have sumBits := sBits.of_le below.1
      have sum : dtAdd (rep (2 * f * c * m)) (rep (c * m)) =
          rep (2 * f * c * m + c * m) := dtAdd_bits (sumBits.mono (by decide))
      have product : dtMulU32 (rep (2 * f * c * m + c * m)) 10 =
          rep ((2 * f * c * m + c * m) * 10) := dtMul_bits (by omega) (by omega)
        ((sumBits.mul (bits_small (show 10 < 16 by omega) le_rfl)).mono (by decide))
      have condition : (dtCmp (dtMulU32 (dtAdd (scaledRep f c m s).r
          (scaledRep f c m s).mp) 10) (scaledRep f c m s).s < 0 ∨
          (dtCmp (dtMulU32 (dtAdd (scaledRep f c m s).r (scaledRep f c m s).mp) 10)
            (scaledRep f c m s).s = 0 ∧ even = false)) ↔
          (2 * f * c * m + c * m) * 10 < s ∨ ((2 * f * c * m + c * m) * 10 = s ∧ even = false) := by
        simp only [scaledRep, sum, product, dtCmp_neg_or]
      rw [fixLow]
      simp only [condition]
      by_cases short : (2 * f * c * m + c * m) * 10 < s ∨
          ((2 * f * c * m + c * m) * 10 = s ∧ even = false)
      · have next := mulTen_eq (f := f) (c := c) (s := s)
          (sumBits.mono (show 3100 ≤ 3200 by omega))
          ((sumBits.of_le (proportional m)).mono (by omega))
        have belowNext : Below even (2 * f * c * (m * 10) + c * (m * 10)) s := by
          rw [scaled]
          refine ⟨by omega, fun isEven => ?_⟩
          rcases short with less | ⟨-, odd⟩
          · exact less
          · rw [isEven] at odd
            cases odd
        have enoughNext : s < 10 * (2 * f * c * (m * 10) + c * (m * 10)) * 2 ^ fuel := by
          rw [scaled]
          refine enough.trans_le ?_
          calc
            10 * (2 * f * c * m + c * m) * 2 ^ (fuel + 1) =
                10 * (2 * f * c * m + c * m) * 2 ^ fuel * 2 := by ring
            _ ≤ 10 * (2 * f * c * m + c * m) * 2 ^ fuel * 10 :=
              Nat.mul_le_mul_left _ (by omega)
            _ = _ := by ring
        obtain ⟨j, result, belowEnd, bound⟩ :=
          induction (k := k - 1) (by omega) belowNext enoughNext
        have shift : m * 10 * 10 ^ j = m * 10 ^ (j + 1) := by ring
        have exponent : k - 1 - (j : Int) = k - ((j + 1 : Nat) : Int) := by
          push_cast
          ring
        rw [shift] at result belowEnd bound
        refine ⟨j + 1, ?_, belowEnd, bound⟩
        rw [if_pos short, next, result, exponent]
      · refine ⟨0, ?_, ?_, ?_⟩
        · rw [if_neg short]
          simp
        · rw [pow_zero, Nat.mul_one]
          exact below
        · rw [pow_zero, Nat.mul_one]
          refine ⟨by omega, fun odd => ?_⟩
          have isOdd : even = false := by simpa using odd
          have strict : ¬ (2 * f * c * m + c * m) * 10 = s :=
            fun equal => short (Or.inr ⟨equal, isOdd⟩)
          omega

theorem takeDigit_rep {s : Nat} (positive : 0 < s) (fuel : Nat) {r d : Nat}
    (enough : r < s * fuel) :
    takeDigit (rep s) fuel (rep r) d = some (rep (r % s), d + r / s) := by
  induction fuel generalizing r d with
  | zero => omega
  | succ fuel induction =>
      rw [takeDigit, dtCmp_rep]
      by_cases less : r < s
      · simp only [less, if_true]
        rw [if_neg (by omega), Nat.mod_eq_of_lt less, Nat.div_eq_of_lt less, Nat.add_zero]
      · have continues : (if r < s then (-1 : Int) else if r = s then 0 else 1) ≥ 0 := by
          rw [if_neg less]
          split <;> omega
        have rest : r - s < s * fuel := by
          rw [Nat.mul_succ] at enough
          omega
        have division : r / s = (r - s) / s + 1 := Nat.div_eq_sub_div positive (by omega)
        rw [if_pos continues, dtSub_rep (by omega), induction rest,
          Nat.mod_eq_sub_mod (by omega : s ≤ r), division]
        congr 2
        omega

def decimalValue (digits : List Nat) : Nat :=
  digits.foldl (fun v d => 10 * v + d) 0

theorem foldl_decimal (digits : List Nat) (v : Nat) :
    digits.foldl (fun v d => 10 * v + d) v =
      v * 10 ^ digits.length + decimalValue digits := by
  unfold decimalValue
  induction digits generalizing v with
  | nil => simp
  | cons d ds induction =>
      rw [List.foldl_cons, List.foldl_cons, induction, induction (10 * 0 + d), List.length_cons]
      ring

theorem decimalValue_append (left right : List Nat) : decimalValue (left ++ right) =
      decimalValue left * 10 ^ right.length + decimalValue right := by
  rw [decimalValue, List.foldl_append, foldl_decimal]
  rfl

theorem decimalValue_concat (digits : List Nat) (d : Nat) :
    decimalValue (digits ++ [d]) = 10 * decimalValue digits + d := by
  rw [decimalValue_append]
  simp [decimalValue]
  ring

theorem decimalValue_cons (v d : Nat) (ds : List Nat) :
    v * 10 ^ (d :: ds).length + decimalValue (d :: ds) =
      (10 * v + d) * 10 ^ ds.length + decimalValue ds := by
  have split := decimalValue_append [d] ds
  rw [List.singleton_append] at split
  rw [split, List.length_cons]
  simp only [decimalValue, List.foldl_cons, List.foldl_nil]
  ring

theorem decimalValue_lt {digits : List Nat} (small : ∀ d ∈ digits, d ≤ 9) :
    decimalValue digits < 10 ^ digits.length := by
  induction digits with
  | nil => decide
  | cons d ds induction =>
      have rest := induction fun digit member => small digit (List.mem_cons_of_mem _ member)
      have dSmall := small d List.mem_cons_self
      have split := decimalValue_cons 0 d ds
      rw [Nat.zero_mul, Nat.zero_add, Nat.mul_zero, Nat.zero_add] at split
      rw [split, List.length_cons, Nat.pow_succ']
      have scaled := Nat.mul_le_mul_right (10 ^ ds.length) dSmall
      omega

/-- The state between two digits: the remainder `r` and the gap `m`. -/
def digitState (c r s m : Nat) : Scaled :=
  ⟨rep r, rep s, rep (c * m), rep m⟩

/-- What a finished list of digits promises of the exact quotient `total / s`:
the digits denote a number within the gaps of it. -/
def Reads (even : Bool) (c s total m value : Nat) : Prop :=
  if even then total ≤ value * s + m ∧ value * s ≤ total + c * m
  else total < value * s + m ∧ value * s < total + c * m

theorem isLow_rep (even : Bool) (r mm : Nat) : isLow even (rep r) (rep mm) =
      if even then decide (r ≤ mm) else decide (r < mm) := by
  unfold isLow
  rw [dtCmp_rep]
  rcases Nat.lt_trichotomy r mm with less | equal | greater
  · simp [less, less.le]
  · simp [equal]
  · simp [greater.not_gt, greater.ne', greater]

theorem isHigh_rep (even : Bool) {r mp s : Nat} (bits : Bits (r + mp) fullBits) :
    isHigh even (rep r) (rep mp) (rep s) =
      if even then decide (s ≤ r + mp) else decide (s < r + mp) := by
  unfold isHigh
  rw [dtAdd_bits bits, dtCmp_rep]
  rcases Nat.lt_trichotomy (r + mp) s with less | equal | greater
  · simp [less, less.not_gt]
  · simp [equal]
  · simp [greater.not_gt, greater.ne', greater, greater.le]

theorem lastDigit_cases (r s : DtBig) (d : Nat) {low high : Bool}
    (stops : low = true ∨ high = true) :
    (lastDigit r s d low high = d ∧ low = true) ∨
      (lastDigit r s d low high = d + 1 ∧ high = true) := by
  cases low with
  | false =>
      have isHigh : high = true := stops.resolve_left (by simp)
      right
      simp [lastDigit, isHigh]
  | true =>
      cases high with
      | false =>
          left
          simp [lastDigit]
      | true =>
          by_cases closer : dtCmp (dtAdd r r) s > 0 ∨ (dtCmp (dtAdd r r) s = 0 ∧ d % 2 = 1)
          · right
            simp only [lastDigit, Bool.and_self, if_true, closer, and_self]
          · left
            simp only [lastDigit, Bool.and_self, if_true, closer, if_false, and_self]

theorem rep_n_nonneg (number : Nat) : ¬ (rep number).n < 0 := by
  simp [rep, DtBig.n]

theorem reads_of_stop {c s total m value r d last : Nat} (cPositive : 0 < c) (mPositive : 0 < m)
    (split : total = (10 * value + d) * s + r) (less : r < s)
    (choice : (last = d ∧ (if even then decide (r ≤ m) else decide (r < m)) = true) ∨
      (last = d + 1 ∧
        (if even then decide (s ≤ r + c * m) else decide (s < r + c * m)) = true)) :
    Reads even c s total m (10 * value + last) := by
  have gap : 0 < c * m := Nat.mul_pos cPositive mPositive
  unfold Reads
  subst split
  rcases choice with ⟨rfl, low⟩ | ⟨rfl, high⟩
  · cases even with
    | false =>
        simp only [Bool.false_eq_true, if_false, decide_eq_true_eq] at low ⊢
        omega
    | true =>
        simp only [if_true, decide_eq_true_eq] at low ⊢
        omega
  · have next : (10 * value + (d + 1)) * s = (10 * value + d) * s + s := by ring
    rw [next]
    cases even with
    | false =>
        simp only [Bool.false_eq_true, if_false, decide_eq_true_eq] at high ⊢
        omega
    | true =>
        simp only [if_true, decide_eq_true_eq] at high ⊢
        omega

theorem not_reads {c s m r : Nat} (above : Below even m r)
    (below : Below even (r + c * m) s) (value w : Nat) :
    ¬ Reads even c s (value * s + r) m w := by
  intro reads
  unfold Reads at reads
  rcases Nat.lt_or_ge value w with higher | lower
  · have next : (value + 1) * s ≤ w * s := Nat.mul_le_mul_right s higher
    rw [Nat.add_mul, Nat.one_mul] at next
    cases even with
    | false =>
        have := below.1
        simp only [Bool.false_eq_true, if_false] at reads
        omega
    | true =>
        have := below.2 rfl
        simp only [if_true] at reads
        omega
  · have same : w * s ≤ value * s := Nat.mul_le_mul_right s lower
    cases even with
    | false =>
        have := above.1
        simp only [Bool.false_eq_true, if_false] at reads
        omega
    | true =>
        have := above.2 rfl
        simp only [if_true] at reads
        omega

/-- One round of the loop on numbers the digits of a `DtBig` hold. -/
theorem generate_step {c s r m d rest room : Nat} (sBits : Bits s 3100)
    (mLess : m < s) (sum : r + c * m ≤ s) (rLess : r < s) (quotient : r * 10 / s = d)
    (remainder : r * 10 % s = rest) (digits : List Nat) {low high : Bool}
    (lowTest : (if even then decide (rest ≤ m * 10) else decide (rest < m * 10)) = low)
    (highTest : (if even then decide (s ≤ rest + c * (m * 10))
      else decide (s < rest + c * (m * 10))) = high) :
    generate even (room + 1) (digitState c r s m) digits =
      if !low && !high then generate even room (digitState c rest s (m * 10)) (digits ++ [d])
      else some (digits ++ [lastDigit (rep rest) (rep s) d low high]) := by
  have ten : ∀ {number : Nat}, number ≤ s → dtMulU32 (rep number) 10 = rep (number * 10) :=
    fun le => dtMul_bits (by omega) (by omega)
      (((sBits.of_le le).mul (bits_small (show 10 < 16 by omega) le_rfl)).mono (by decide))
  have scaledState : mulTen (digitState c r s m) = digitState c (r * 10) s (m * 10) := by
    simp only [mulTen, digitState, ten (show r ≤ s by omega), ten (show c * m ≤ s by omega),
      ten (show m ≤ s by omega)]
    rw [Nat.mul_assoc]
  have digit : takeDigit (rep s) loopFuel (rep (r * 10)) 0 =
      some (rep (r * 10 % s), 0 + r * 10 / s) := by
    apply takeDigit_rep (by omega)
    have : s * 10 ≤ s * loopFuel := Nat.mul_le_mul_left _ (by decide)
    omega
  have restLess : rest < s := remainder ▸ Nat.mod_lt _ (by omega)
  have sumBits : Bits (rest + c * (m * 10)) fullBits := by
    have restBits : Bits rest 3104 := (sBits.of_le restLess.le).mono (by omega)
    have gapBits : Bits (c * (m * 10)) 3104 := by
      have := (sBits.of_le (show c * m ≤ s by omega)).mul
        (bits_small (show 10 < 16 by omega) le_rfl)
      rw [Nat.mul_assoc] at this
      exact this
    exact (restBits.add gapBits).mono (by decide)
  rw [generate, scaledState]
  simp only [digitState, rep_n_nonneg, or_self, if_false, digit, quotient, remainder,
    isLow_rep, isHigh_rep even sumBits, Nat.zero_add, lowTest, highTest]

theorem below_of_test {a b : Nat}
    (test : (if even then decide (b ≤ a) else decide (b < a)) = false) : Below even a b := by
  cases even with
  | false =>
      simp only [Bool.false_eq_true, if_false, decide_eq_false_iff_not] at test
      exact ⟨by omega, fun impossible => by cases impossible⟩
  | true =>
      simp only [if_true, decide_eq_false_iff_not] at test
      exact ⟨by omega, fun _ => by omega⟩

theorem decimalValue_digit (digits : List Nat) (s r : Nat) :
    decimalValue (digits ++ [r * 10 / s]) * s + r * 10 % s =
      (decimalValue digits * s + r) * 10 := by
  have division := Nat.div_add_mod (r * 10) s
  have value : (10 * decimalValue digits) * s = decimalValue digits * s * 10 := by ring
  rw [decimalValue_concat, Nat.add_mul, Nat.mul_comm (r * 10 / s) s, value]
  omega

/-- The loop ends, its digits read back as the number, and no fewer digits do. -/
theorem generate_spec {c s : Nat} (cPositive : 0 < c)
    (sBits : Bits s 3100) (room : Nat) {r m : Nat} (digits : List Nat)
    (mPositive : 0 < m) (above : Below even m r) (below : Below even (r + c * m) s)
    (enough : s < (c + 1) * m * 10 ^ room) :
    ∃ front last, generate even room (digitState c r s m) digits =
        some (digits ++ (front ++ [last])) ∧
      front.length + 1 ≤ room ∧ (∀ d ∈ front, d ≤ 9) ∧ last ≤ 10 ∧
      Reads even c s ((decimalValue digits * s + r) * 10 ^ (front.length + 1))
        (m * 10 ^ (front.length + 1))
        (decimalValue (digits ++ (front ++ [last]))) ∧
      ∀ i ≤ front.length, ∀ w,
        ¬ Reads even c s ((decimalValue digits * s + r) * 10 ^ i) (m * 10 ^ i) w := by
  have gap : 0 < c * m := Nat.mul_pos cPositive mPositive
  have rLess : r < s := by
    have := below.1
    omega
  induction room generalizing r m digits with
  | zero =>
      have := below.1
      have := above.1
      rw [pow_zero, Nat.mul_one, Nat.add_mul] at enough
      omega
  | succ room induction =>
      have none := not_reads above below (decimalValue digits)
      have mLess : m < s := by
        have := above.1
        omega
      have digitSmall : r * 10 / s ≤ 9 := by
        have : r * 10 / s < 10 := by
          rw [Nat.div_lt_iff_lt_mul (by omega)]
          omega
        omega
      have restLess : r * 10 % s < s := Nat.mod_lt _ (by omega)
      have total := decimalValue_digit digits s r
      generalize quotient : r * 10 / s = d at *
      generalize remainder : r * 10 % s = rest at *
      generalize lowTest : (if even then decide (rest ≤ m * 10)
        else decide (rest < m * 10)) = low
      generalize highTest : (if even then decide (s ≤ rest + c * (m * 10))
        else decide (s < rest + c * (m * 10))) = high
      rw [generate_step sBits mLess below.1 rLess quotient remainder digits lowTest highTest]
      by_cases stops : low = true ∨ high = true
      · have continues : ¬ (!low && !high) = true := by
          rcases stops with rfl | rfl <;> simp
        rw [if_neg continues]
        have choice := lastDigit_cases (rep rest) (rep s) d stops
        refine ⟨[], lastDigit (rep rest) (rep s) d low high, by simp, by simp, by simp,
          ?_, ?_, ?_⟩
        · rcases choice with ⟨equal, -⟩ | ⟨equal, -⟩ <;> rw [equal] <;> omega
        · rw [List.nil_append, decimalValue_concat, List.length_nil, Nat.zero_add, pow_one]
          apply reads_of_stop cPositive (by omega) _ restLess
          · rw [lowTest, highTest]
            exact choice
          · rw [← total, decimalValue_concat]
        · intro i le w
          rw [Nat.le_zero.mp le, pow_zero, Nat.mul_one, Nat.mul_one]
          exact none w
      · rw [not_or, Bool.not_eq_true, Bool.not_eq_true] at stops
        obtain ⟨rfl, rfl⟩ := stops
        rw [if_pos (show (!false && !false) = true from rfl)]
        have enoughNext : s < (c + 1) * (m * 10) * 10 ^ room := by
          have : (c + 1) * m * 10 ^ (room + 1) = (c + 1) * (m * 10) * 10 ^ room := by
            ring
          omega
        obtain ⟨front, last, result, length, frontBound, lastBound, reads, earlier⟩ :=
          induction (digits ++ [d]) (by omega) (below_of_test lowTest) (below_of_test highTest)
            enoughNext (Nat.mul_pos cPositive (by omega)) restLess
        refine ⟨d :: front, last, ?_, ?_, ?_, lastBound, ?_, ?_⟩
        · rw [result]
          simp
        · rw [List.length_cons]
          omega
        · intro digit member
          rcases List.mem_cons.mp member with rfl | later
          · exact digitSmall
          · exact frontBound digit later
        · have radixStep : 10 ^ (front.length + 1 + 1) = 10 * 10 ^ (front.length + 1) := by
            ring
          rw [List.length_cons, radixStep, ← Nat.mul_assoc, ← Nat.mul_assoc, ← total]
          simpa using reads
        · intro i le w
          cases i with
          | zero =>
              rw [pow_zero, Nat.mul_one, Nat.mul_one]
              exact none w
          | succ i =>
              have later := earlier i (by rw [List.length_cons] at le; omega) w
              rw [Nat.pow_succ', ← Nat.mul_assoc, ← Nat.mul_assoc, ← total]
              exact later

theorem generate_succ {room : Nat} {x : Scaled}
    {digits result : List Nat} (done : generate even room x digits = some result) :
    generate even (room + 1) x digits = some result := by
  induction room generalizing x digits with
  | zero => cases done
  | succ room induction =>
      rw [generate] at done ⊢
      split at done
      · cases done
      · rename_i sound
        rw [if_neg sound]
        cases digit : takeDigit (mulTen x).s loopFuel (mulTen x).r 0 with
        | none =>
            rw [digit] at done
            cases done
        | some taken =>
            obtain ⟨r, d⟩ := taken
            simp only [digit] at done ⊢
            split at done
            · rename_i continues
              rw [if_pos continues]
              exact induction done
            · rename_i stops
              rw [if_neg stops]
              exact done

theorem generate_mono {room larger : Nat} (le : room ≤ larger) {x : Scaled}
    {digits result : List Nat} (done : generate even room x digits = some result) :
    generate even larger x digits = some result := by
  induction le with
  | refl => exact done
  | step _ induction => exact generate_succ induction

/-- The number `0.digits * 10 ^ k`. -/
def decimal (digits : List Nat) (k : Int) : ℚ :=
  decimalValue digits * (10 : ℚ) ^ (k - digits.length)

theorem decimal_concat_zero (digits : List Nat) (k : Int) :
    decimal (digits ++ [0]) k = decimal digits k := by
  unfold decimal
  rw [decimalValue_concat, List.length_append, List.length_singleton]
  have step : (10 : ℚ) ^ (k - digits.length) =
      10 * 10 ^ (k - ((digits.length + 1 : Nat) : Int)) := by
    rw [← zpow_one_add₀ (by norm_num)]
    congr 1
    push_cast
    ring
  rw [step]
  push_cast
  ring

theorem carryInto_some {before carried : List Nat} (small : ∀ d ∈ before, d ≤ 9)
    (carries : carryInto before = some carried) :
    decimalValue carried.reverse = decimalValue before.reverse + 1 ∧
      carried.length = before.length ∧ ∀ d ∈ carried, d ≤ 9 := by
  induction before generalizing carried with
  | nil => cases carries
  | cons d ds induction =>
      rw [carryInto] at carries
      by_cases stops : d + 1 ≤ 9
      · rw [if_pos stops] at carries
        cases carries
        refine ⟨?_, rfl, ?_⟩
        · rw [List.reverse_cons, List.reverse_cons, decimalValue_concat, decimalValue_concat]
          omega
        · intro digit member
          rcases List.mem_cons.mp member with rfl | later
          · exact stops
          · exact small digit (List.mem_cons_of_mem _ later)
      · rw [if_neg stops] at carries
        have nine : d = 9 := by
          have := small d List.mem_cons_self
          omega
        cases rest : carryInto ds with
        | none =>
            rw [rest] at carries
            cases carries
        | some carriedRest =>
            rw [rest] at carries
            cases carries
            obtain ⟨value, length, digits⟩ :=
              induction (fun digit member => small digit (List.mem_cons_of_mem _ member))
                rest
            refine ⟨?_, ?_, ?_⟩
            · rw [List.reverse_cons, List.reverse_cons, decimalValue_concat,
                decimalValue_concat, value]
              omega
            · rw [List.length_cons, List.length_cons, length]
            · intro digit member
              rcases List.mem_cons.mp member with rfl | later
              · omega
              · exact digits digit later

theorem carryInto_none {before : List Nat} (small : ∀ d ∈ before, d ≤ 9)
    (rollsOver : carryInto before = none) :
    decimalValue before.reverse + 1 = 10 ^ before.length := by
  induction before with
  | nil => rfl
  | cons d ds induction =>
      rw [carryInto] at rollsOver
      by_cases stops : d + 1 ≤ 9
      · rw [if_pos stops] at rollsOver
        cases rollsOver
      · rw [if_neg stops, Option.map_eq_none_iff] at rollsOver
        have nine : d = 9 := by
          have := small d List.mem_cons_self
          omega
        have rest := induction
          (fun digit member => small digit (List.mem_cons_of_mem _ member)) rollsOver
        have radixStep : 10 ^ (ds.length + 1) = 10 * 10 ^ ds.length := by ring
        rw [List.reverse_cons, decimalValue_concat, List.length_cons, radixStep, ← rest]
        omega

/-- Digits as `dragon4_shortest` may return them, denoting `x`. -/
structure DigitsOf (limit : Nat) (digits : List Nat) (k : Int) (x : ℚ) : Prop where
  nonempty : digits ≠ []
  length : digits.length ≤ limit
  small : ∀ d ∈ digits, d ≤ 9
  value : decimal digits k = x

/-- A last digit of ten is carried, and the value stays. -/
theorem propagateCarry_spec {limit : Nat} {front : List Nat} {last : Nat} {k : Int}
    (length : front.length + 1 ≤ limit) (small : ∀ d ∈ front, d ≤ 9)
    (lastSmall : last ≤ 10) :
    DigitsOf limit (propagateCarry (front ++ [last]) k).1
      (propagateCarry (front ++ [last]) k).2 (decimal (front ++ [last]) k) := by
  have reversed : (front ++ [last]).reverse = last :: front.reverse := by simp
  have smallReversed : ∀ d ∈ front.reverse, d ≤ 9 :=
    fun d member => small d (List.mem_reverse.mp member)
  unfold propagateCarry
  rw [reversed]
  by_cases ten : last = 10
  · subst ten
    simp only [if_true]
    cases carried : carryInto front.reverse with
    | some before =>
        obtain ⟨value, sameLength, digits⟩ := carryInto_some smallReversed carried
        rw [List.reverse_reverse] at value
        rw [List.length_reverse] at sameLength
        constructor
        · simp
        · simp only [List.length_reverse, List.length_cons]
          omega
        · intro d member
          rcases List.mem_cons.mp (List.mem_reverse.mp member) with rfl | earlier
          · omega
          · exact digits d earlier
        · simp only [decimal, List.reverse_cons, decimalValue_concat, value,
            List.length_append, List.length_reverse, sameLength]
          push_cast
          ring_nf
          simp
    | none =>
        have value := carryInto_none smallReversed carried
        rw [List.reverse_reverse, List.length_reverse] at value
        constructor
        · simp
        · simp only [List.length_singleton]
          omega
        · intro d member
          rw [List.mem_singleton.mp member]
          omega
        · have total : decimalValue (front ++ [10]) = 10 ^ (front.length + 1) := by
            have radixStep : 10 ^ (front.length + 1) = 10 * 10 ^ front.length := by ring
            rw [decimalValue_concat, radixStep, ← value]
            ring
          simp only [decimal, total, List.length_append, List.length_singleton]
          push_cast
          rw [← zpow_natCast (10 : ℚ) (front.length + 1), ← zpow_add₀ (by norm_num)]
          simp [decimalValue]
  · simp only [if_neg ten]
    constructor
    · simp
    · simpa using length
    · intro d member
      rcases List.mem_append.mp member with earlier | isLast
      · exact small d earlier
      · rw [List.mem_singleton.mp isLast]
        omega
    · rfl

theorem propagateCarry_exponent (digits : List Nat) (k : Int) :
    (propagateCarry digits k).2 = k ∨ (propagateCarry digits k).2 = k + 1 := by
  unfold propagateCarry
  split
  · exact Or.inl rfl
  · split
    · split
      · exact Or.inl rfl
      · exact Or.inr rfl
    · exact Or.inl rfl

/-- Trailing zeros may be dropped. -/
theorem dropZeros_spec {limit : Nat} {digits : List Nat} {k : Int} {x : ℚ}
    (spec : DigitsOf limit digits.reverse k x) :
    DigitsOf limit (dropZeros digits).reverse k x := by
  induction digits using dropZeros.induct with
  | case1 d ds induction =>
      rw [dropZeros]
      apply induction
      obtain ⟨-, length, small, value⟩ := spec
      rw [List.reverse_cons] at length small value
      constructor
      · simp
      · rw [List.length_append] at length
        omega
      · exact fun digit member => small digit (List.mem_append_left _ member)
      · rw [← value, decimal_concat_zero]
  | case2 digits noZero =>
      have unchanged : dropZeros digits = digits := by
        rw [dropZeros]
        exact noZero
      rw [unchanged]
      exact spec

/-- The decimal exponent belongs to the integers: the unit in the last place of
the float is `2 * c * m / s` at scale `10 ^ k`. -/
def Scale (e : Int) (c m s : Nat) (k : Int) : Prop :=
  (2 : ℚ) ^ e * s = 2 * c * m * 10 ^ k

theorem scale_init (e : Int) (c : Nat) (k : Int) :
    Scale e c (2 ^ e.toNat * 10 ^ (-k).toNat) (2 * c * 2 ^ (-e).toNat * 10 ^ k.toNat)
      k := by
  have binary : (2 : ℚ) ^ e.toNat = 2 ^ e * 2 ^ (-e).toNat :=
    pow_toNat_eq (by norm_num) e
  have decimals : (10 : ℚ) ^ k.toNat = 10 ^ k * 10 ^ (-k).toNat :=
    pow_toNat_eq (by norm_num) k
  unfold Scale
  push_cast
  rw [binary, decimals]
  ring

theorem Scale.high {e k : Int} {c m s : Nat} (scale : Scale e c m s k) (j : Nat) :
    Scale e c m (s * 10 ^ j) (k + j) := by
  unfold Scale at *
  rw [zpow_add₀ (by norm_num), zpow_natCast]
  push_cast
  rw [← mul_assoc, scale]
  ring

theorem Scale.low {e k : Int} {c m s : Nat} (scale : Scale e c m s k) (j : Nat) :
    Scale e c (m * 10 ^ j) s (k - j) := by
  have split : (10 : ℚ) ^ k = 10 ^ (k - j) * 10 ^ j := by
    rw [← zpow_natCast, ← zpow_add₀ (by norm_num), sub_add_cancel]
  unfold Scale at *
  rw [scale, split]
  push_cast
  ring

theorem interval_iff_reads {e k : Int} {unequal : Bool} {m s n value : Nat}
    (scale : Scale e (gapFactor unequal) m s k) (sPositive : 0 < s) :
    InInterval f e unequal (value * (10 : ℚ) ^ (k - n)) ↔ Reads (f % 2 == 0) (gapFactor unequal) s
        (2 * f * gapFactor unequal * m * 10 ^ n) (m * 10 ^ n) value := by
  have cPositive := gapFactor_pos unequal
  unfold InInterval
  generalize gapFactor unequal = c at *
  have cCast : (0 : ℚ) < c := by exact_mod_cast cPositive
  have sCast : (0 : ℚ) < s := by exact_mod_cast sPositive
  -- every quantity is an integer times this one
  generalize unitEq : (10 : ℚ) ^ k / (s * 10 ^ n) = unit
  have unitPositive : 0 < unit := by
    rw [← unitEq]
    positivity
  have ulp : (2 : ℚ) ^ e = 2 * c * m * 10 ^ n * unit := by
    rw [eq_comm, ← mul_right_inj' sCast.ne', mul_comm (s : ℚ) (2 ^ e)]
    rw [show (2 : ℚ) ^ e * s = 2 * c * m * 10 ^ k from scale, ← unitEq]
    field_simp
  have number : (value : ℚ) * 10 ^ (k - n) = (value * s : Nat) * unit := by
    rw [zpow_sub₀ (by norm_num), zpow_natCast, ← unitEq]
    push_cast
    field_simp
  have middle : (f : ℚ) * 2 ^ e = (2 * f * c * m * 10 ^ n : Nat) * unit := by
    rw [ulp]
    push_cast
    ring
  have below : (2 : ℚ) ^ e / (2 * c) = (m * 10 ^ n : Nat) * unit := by
    rw [ulp]
    push_cast
    field_simp
  have above : (2 : ℚ) ^ e / 2 = (c * (m * 10 ^ n) : Nat) * unit := by
    rw [ulp]
    push_cast
    ring
  rw [number, middle, below, above, ← sub_mul, ← add_mul]
  simp only [mul_le_mul_iff_left₀ unitPositive, mul_lt_mul_iff_left₀ unitPositive,
    sub_le_iff_le_add, sub_lt_iff_lt_add]
  unfold Reads
  by_cases even : f % 2 = 0
  · rw [if_pos even, if_pos (by simpa using even)]
    norm_cast
  · rw [if_neg even, if_neg (by simpa using even)]
    norm_cast

/-- The fix-ups end within their fuel, with the sum in the interval of one digit below
`s`. -/
theorem fixUp_spec {e : Int} (range : FloatRange f e) (unequal even : Bool) :
    ∃ s m s' k k', fixHigh even (scaleByK (scaledInit f e unequal) (estimateK f e)).r
        (scaleByK (scaledInit f e unequal) (estimateK f e)).mp loopFuel
        (scaleByK (scaledInit f e unequal) (estimateK f e)).s (estimateK f e) = some (s', k') ∧
      fixLow even loopFuel
        { scaleByK (scaledInit f e unequal) (estimateK f e) with s := s' } k' =
          some (scaledRep f (gapFactor unequal) m s, k) ∧
      0 < m ∧ Bits s 3100 ∧ Scale e (gapFactor unequal) m s k ∧
      Below even (2 * f * gapFactor unequal * m + gapFactor unequal * m) s ∧
      Below (!even) s (10 * (2 * f * gapFactor unequal * m + gapFactor unequal * m)) := by
  have ⟨kLow, kHigh⟩ := estimateK_bounds range
  have start := scale_init e (gapFactor unequal) (estimateK f e)
  rw [scaledInit_eq range]
  obtain ⟨fPositive, mantissa, low, high⟩ := range
  have cPositive := gapFactor_pos unequal
  have cBits : Bits (gapFactor unequal) 2 := by
    have := gapFactor_le unequal
    unfold Bits
    omega
  generalize gapFactor unequal = c at *
  generalize estimateK f e = k at *
  have powerBits : Bits (2 ^ e.toNat) 972 := (bits_two_pow _).mono (by omega)
  have gapBits : Bits (c * 2 ^ e.toNat) 974 := (cBits.mul powerBits).mono (by omega)
  have twoBits : Bits 2 2 := show 2 < 2 ^ 2 by decide
  have rBits : Bits (2 * f * c * 2 ^ e.toNat) 1029 := by
    rw [Nat.mul_assoc]
    exact ((twoBits.mul mantissa).mul gapBits).mono (by omega)
  have sBits : Bits (2 * c * 2 ^ (-e).toNat) 1079 :=
    ((twoBits.mul cBits).mul
      ((bits_two_pow _).mono (show _ ≤ 1075 by omega))).mono (by omega)
  rw [scaleByK_eq kLow kHigh (rBits.mono (by omega)) (gapBits.mono (by omega))
    (powerBits.mono (by omega)) (sBits.mono (by omega))]
  have mPositive : 0 < 2 ^ e.toNat * 10 ^ (-k).toNat := by positivity
  have sPositive : 0 < 2 * c * 2 ^ (-e).toNat * 10 ^ k.toNat := by positivity
  have sumBits : Bits (2 * f * c * (2 ^ e.toNat * 10 ^ (-k).toNat) +
      c * (2 ^ e.toNat * 10 ^ (-k).toNat)) 3000 := by
    have tenBits : Bits (10 ^ (-k).toNat) 1321 := (bits_ten_pow _).mono (by omega)
    have left := (rBits.mul tenBits).mono (show _ ≤ 2999 by omega)
    have right := (gapBits.mul tenBits).mono (show _ ≤ 2999 by omega)
    rw [Nat.mul_assoc] at left right
    exact left.add right
  have startBits : Bits (2 * c * 2 ^ (-e).toNat * 10 ^ k.toNat) 3100 :=
    (sBits.mul ((bits_ten_pow _).mono (show _ ≤ 1321 by omega))).mono (by omega)
  generalize 2 ^ e.toNat * 10 ^ (-k).toNat = m at *
  generalize 2 * c * 2 ^ (-e).toNat * 10 ^ k.toNat = s at *
  have sumPositive : 0 < 2 * f * c * m + c * m := by positivity
  obtain ⟨j, highResult, below, bound⟩ := fixHigh_rep even sumBits 4095
    (k := k) sPositive ((sumBits.mono (show 3000 ≤ 4095 by omega)).trans_le
      (Nat.le_mul_of_pos_left _ sPositive))
  have sEndBits : Bits (s * 10 ^ j) 3100 := by
    rcases bound with rfl | bounded
    · rw [pow_zero, Nat.mul_one]
      exact startBits
    · exact (((bits_small (show 10 < 16 by omega) le_rfl).mul sumBits).of_le bounded).mono
        (by omega)
  obtain ⟨i, lowResult, belowEnd, first⟩ := fixLow_rep cPositive sEndBits 4095
    (k := k + j) mPositive below
    ((sEndBits.mono (show 3100 ≤ 4095 by omega)).trans_le (Nat.le_mul_of_pos_left _ (by omega)))
  exact ⟨s * 10 ^ j, m * 10 ^ i, rep (s * 10 ^ j), k + j - i, k + j, highResult,
    lowResult, by positivity, sEndBits, (start.high j).low i, belowEnd, first⟩

theorem exponent_bounds {e k : Int} {c m s : Nat} (cPositive : 0 < c)
    (mPositive : 0 < m) (scale : Scale e c m s k)
    (upper : 2 * f * c * m + c * m ≤ s)
    (lower : s ≤ 10 * (2 * f * c * m + c * m)) :
    (f + 1 / 2) * (2 : ℚ) ^ e ≤ 10 ^ k ∧ 10 ^ k ≤ 10 * ((f + 1 / 2) * (2 : ℚ) ^ e) := by
  have gapPositive : (0 : ℚ) < 2 * c * m := by positivity
  have upperCast : ((2 * f * c * m + c * m : Nat) : ℚ) ≤ s := by exact_mod_cast upper
  have lowerCast : (s : ℚ) ≤ (10 * (2 * f * c * m + c * m) : Nat) := by
    exact_mod_cast lower
  have ulpPositive : (0 : ℚ) < 2 ^ e := by positivity
  push_cast at upperCast lowerCast
  unfold Scale at scale
  constructor
  · rw [← mul_le_mul_iff_right₀ gapPositive, ← scale]
    calc
      2 * (c : ℚ) * m * ((f + 1 / 2) * 2 ^ e) = 2 ^ e * (2 * f * c * m + c * m) := by ring
      _ ≤ 2 ^ e * s := mul_le_mul_of_nonneg_left upperCast ulpPositive.le
  · rw [← mul_le_mul_iff_right₀ gapPositive, ← scale]
    calc
      (2 : ℚ) ^ e * s ≤ 2 ^ e * (10 * (2 * f * c * m + c * m)) :=
        mul_le_mul_of_nonneg_left lowerCast ulpPositive.le
      _ = 2 * (c : ℚ) * m * (10 * ((f + 1 / 2) * 2 ^ e)) := by ring

theorem exponent_strict {e k : Int} {c m s : Nat} (cPositive : 0 < c)
    (mPositive : 0 < m) (scale : Scale e c m s k)
    (lower : s < 10 * (2 * f * c * m + c * m)) :
    10 ^ k < 10 * ((f + 1 / 2) * (2 : ℚ) ^ e) := by
  have gapPositive : (0 : ℚ) < 2 * c * m := by positivity
  have lowerCast : (s : ℚ) < (10 * (2 * f * c * m + c * m) : Nat) := by exact_mod_cast lower
  have ulpPositive : (0 : ℚ) < 2 ^ e := by positivity
  push_cast at lowerCast
  unfold Scale at scale
  rw [← mul_lt_mul_iff_right₀ gapPositive, ← scale]
  calc
    (2 : ℚ) ^ e * s < 2 ^ e * (10 * (2 * f * c * m + c * m)) :=
      mul_lt_mul_of_pos_left lowerCast ulpPositive
    _ = 2 * (c : ℚ) * m * (10 * ((f + 1 / 2) * 2 ^ e)) := by ring

theorem InInterval.raise {e : Int} {unequal : Bool} {x y : ℚ}
    (inside : InInterval f e unequal x) (le : x ≤ y) (upper : y ≤ (f + 1 / 2) * 2 ^ e)
    (strict : f % 2 ≠ 0 → y < (f + 1 / 2) * 2 ^ e) : InInterval f e unequal y := by
  have upperEnd : (f + 1 / 2) * (2 : ℚ) ^ e = f * 2 ^ e + 2 ^ e / 2 := by ring
  rw [upperEnd] at upper strict
  unfold InInterval at inside ⊢
  by_cases even : f % 2 = 0
  · rw [if_pos even] at inside ⊢
    exact ⟨inside.1.trans le, upper⟩
  · rw [if_neg even] at inside ⊢
    exact ⟨inside.1.trans_le le, strict even⟩

/-- A number of at most `count` digits lies outside of the interval when no
number whose last digit is the `count`th lies in it. -/
theorem not_interval_of_few {e k : Int} {unequal : Bool} {count : Nat}
    (highEnd : 10 ^ k ≤ 10 * ((f + 1 / 2) * (2 : ℚ) ^ e))
    (strict : f % 2 ≠ 0 → 10 ^ k < 10 * ((f + 1 / 2) * (2 : ℚ) ^ e))
    (coarse : ∀ w : Nat, ¬ InInterval f e unequal (w * (10 : ℚ) ^ (k - count)))
    {w : Nat} {q : Int} (few : w < 10 ^ count) :
    ¬ InInterval f e unequal (w * (10 : ℚ) ^ q) := by
  intro inside
  by_cases multiple : k - count ≤ q
  · apply coarse (w * 10 ^ (q - (k - count)).toNat)
    have exponent : q = ((q - (k - count)).toNat : Int) + (k - count) := by omega
    have same : ((w * 10 ^ (q - (k - count)).toNat : Nat) : ℚ) * 10 ^ (k - count) = w * 10 ^ q := by
      conv_rhs => rw [exponent, zpow_add₀ (by norm_num), zpow_natCast]
      push_cast
      ring
    rw [same]
    exact inside
  · cases count with
    | zero =>
        have zero : w = 0 := by simpa using few
        apply coarse 0
        rw [zero, Nat.cast_zero, zero_mul] at inside
        rw [Nat.cast_zero, zero_mul]
        exact inside
    | succ count =>
        have power : ((10 ^ count : Nat) : ℚ) * 10 ^ (k - ((count + 1 : Nat) : Int)) =
            10 ^ (k - 1) := by
          rw [Nat.cast_pow, Nat.cast_ofNat, ← zpow_natCast, ← zpow_add₀ (by norm_num)]
          congr 1
          push_cast
          ring
        have tenth : (10 : ℚ) ^ k = 10 * 10 ^ (k - 1) := by
          rw [← zpow_one_add₀ (by norm_num)]
          congr 1
          ring
        apply coarse (10 ^ count)
        rw [power]
        apply inside.raise
        · have wCast : (w : ℚ) ≤ 10 ^ (count + 1) := by exact_mod_cast few.le
          calc
            (w : ℚ) * 10 ^ q ≤ 10 ^ (count + 1) * 10 ^ q :=
              mul_le_mul_of_nonneg_right wCast (by positivity)
            _ = 10 ^ (((count + 1 : Nat) : Int) + q) := by
              rw [zpow_add₀ (by norm_num), zpow_natCast]
            _ ≤ 10 ^ (k - 1) := zpow_le_zpow_right₀ (by norm_num) (by omega)
        · rw [tenth] at highEnd
          linarith
        · intro odd
          have less := strict odd
          rw [tenth] at less
          linarith

/-- With room for enough digits the conversion returns digits of a number in the
interval, and no number of fewer digits lies in it. -/
theorem dragon4Shortest_digits {e : Int} {unequal : Bool}
    (range : FloatRange f e) {room : Nat} (few : room ≤ 17)
    (enough : 10 * (2 * f + 1) * gapFactor unequal < (gapFactor unequal + 1) * 10 ^ room) :
    ∃ digits k x, dragon4Shortest f e unequal = some (digits, k) ∧
      DigitsOf room digits k x ∧ InInterval f e unequal x ∧
      ((f + 1 / 2) * (2 : ℚ) ^ e ≤ 10 ^ k ∧ 10 ^ k ≤ 100 * ((f + 1 / 2) * (2 : ℚ) ^ e)) ∧
      ∀ (w : Nat) (q : Int), w < 10 ^ (digits.length - 1) →
        ¬ InInterval f e unequal (w * (10 : ℚ) ^ q) := by
  obtain ⟨s, m, s', k, k', high, low, mPositive, sBits, scale, below, first⟩ :=
    fixUp_spec range unequal (f % 2 == 0)
  have fPositive := range.positive
  have cPositive := gapFactor_pos unequal
  have gap : 0 < gapFactor unequal * m := Nat.mul_pos cPositive mPositive
  have sPositive : 0 < s := by
    have := below.1
    omega
  have above : Below (f % 2 == 0) m (2 * f * gapFactor unequal * m) := by
    have twice : 2 ≤ 2 * f * gapFactor unequal := by
      have := Nat.mul_le_mul (show 2 ≤ 2 * f by omega) cPositive
      omega
    have := Nat.mul_le_mul_right m twice
    exact ⟨by omega, fun _ => by omega⟩
  have roomy : s < (gapFactor unequal + 1) * m * 10 ^ room := by
    refine first.1.trans_lt ?_
    calc
      10 * (2 * f * gapFactor unequal * m + gapFactor unequal * m) =
          10 * (2 * f + 1) * gapFactor unequal * m := by ring
      _ < (gapFactor unequal + 1) * 10 ^ room * m :=
        Nat.mul_lt_mul_of_pos_right enough mPositive
      _ = (gapFactor unequal + 1) * m * 10 ^ room := by ring
  obtain ⟨front, last, generated, length, small, lastSmall, reads, earlier⟩ :=
    generate_spec cPositive sBits room [] mPositive above below roomy
  have start : decimalValue [] * s + 2 * f * gapFactor unequal * m =
      2 * f * gapFactor unequal * m := by
    rw [decimalValue, List.foldl_nil, Nat.zero_mul, Nat.zero_add]
  rw [List.nil_append] at generated reads
  rw [start] at reads earlier
  have carried := propagateCarry_spec (k := k) length small lastSmall
  have fewest : DigitsOf (front.length + 1) (propagateCarry (front ++ [last]) k).1
      (propagateCarry (front ++ [last]) k).2 (decimal (front ++ [last]) k) :=
    propagateCarry_spec le_rfl small lastSmall
  rw [← List.reverse_reverse (propagateCarry (front ++ [last]) k).1] at carried fewest
  have ⟨upper, lower⟩ := exponent_bounds cPositive mPositive scale below.1 first.1
  refine ⟨_, _, _, ?_, dropZeros_spec carried, ?_, ?_, ?_⟩
  · have state : scaledRep f (gapFactor unequal) m s =
        digitState (gapFactor unequal) (2 * f * gapFactor unequal * m) s m := rfl
    have sound : ¬ ((scaledRep f (gapFactor unequal) m s).r.n < 0 ∨
        (scaledRep f (gapFactor unequal) m s).s.n < 0 ∨
        (scaledRep f (gapFactor unequal) m s).mp.n < 0 ∨
        (scaledRep f (gapFactor unequal) m s).mm.n < 0) := by
      simp only [scaledRep, rep_n_nonneg, or_self, not_false_eq_true]
    unfold dragon4Shortest
    simp only [high, low, Option.bind_eq_bind, Option.bind_some]
    rw [if_neg sound, state, generate_mono (show room ≤ 18 by omega) generated]
    rfl
  · unfold decimal
    rw [List.length_append, List.length_singleton]
    exact (interval_iff_reads scale sPositive).mpr reads
  · have larger : (10 : ℚ) ^ (k + 1) = 10 * 10 ^ k := by
      rw [zpow_add_one₀ (by norm_num), mul_comm]
    have positive : (0 : ℚ) < 10 ^ k := by positivity
    rcases propagateCarry_exponent (front ++ [last]) k with same | next
    · rw [same]
      exact ⟨upper, by linarith⟩
    · rw [next, larger]
      exact ⟨by linarith, by linarith⟩
  · intro w q fewer
    have shorter := (dropZeros_spec fewest).length
    have coarse : ∀ value : Nat,
        ¬ InInterval f e unequal (value * (10 : ℚ) ^ (k - (front.length : Int))) := by
      intro value inside
      exact earlier front.length le_rfl value ((interval_iff_reads scale sPositive).mp inside)
    apply not_interval_of_few lower _ coarse
    · exact fewer.trans_le (Nat.pow_le_pow_right (by omega) (by omega))
    · intro odd
      exact exponent_strict cPositive mPositive scale (first.2 (by simpa using odd))

/-- At most seventeen digits come out, and they denote a number of the rounding
interval. -/
theorem dragon4Shortest_spec {e : Int} {unequal : Bool}
    (range : FloatRange f e) (powerOfTwo : unequal = true → f ≤ 2 ^ 52) :
    ∃ digits k x, dragon4Shortest f e unequal = some (digits, k) ∧
      DigitsOf 17 digits k x ∧ InInterval f e unequal x ∧
      (f + 1 / 2) * (2 : ℚ) ^ e ≤ 10 ^ k ∧
      10 ^ k ≤ 100 * ((f + 1 / 2) * (2 : ℚ) ^ e) := by
  have mantissa : f < 2 ^ 53 := range.mantissa
  have enough : 10 * (2 * f + 1) * gapFactor unequal < (gapFactor unequal + 1) * 10 ^ 17 := by
    cases unequal with
    | false =>
        simp only [gapFactor, Bool.false_eq_true, if_false]
        omega
    | true =>
        have smaller := powerOfTwo rfl
        simp only [gapFactor, if_true]
        omega
  obtain ⟨digits, k, x, result, spec, inside, ⟨upper, lower⟩, -⟩ :=
    dragon4Shortest_digits range le_rfl enough
  exact ⟨digits, k, x, result, spec, inside, upper, lower⟩

end ClAmiga.Float
