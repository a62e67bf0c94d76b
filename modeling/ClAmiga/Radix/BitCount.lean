import Mathlib.Data.Nat.Count
import ClAmiga.Radix.Twos

/-!
# Counting bits

The number of set bits of a natural number, how a word-by-word count and the
loop that clears one set bit a round compute it, and how a predecessor changes
the bit length.  A word is counted in fields: masking out every other field,
shifting and adding replaces neighbouring fields by one field holding their sum,
so a few such rounds, started at the single bits, count the bits of the word.
-/

namespace ClAmiga.Radix

def ones (n : Nat) : Nat :=
  n.bitIndices.length

@[simp] theorem ones_zero : ones 0 = 0 := by
  simp [ones]

@[simp] theorem ones_two_mul (n : Nat) : ones (2 * n) = ones n := by
  simp [ones]

@[simp] theorem ones_two_mul_add_one (n : Nat) :
    ones (2 * n + 1) = ones n + 1 := by
  simp [ones]

theorem ones_eq_mod_add_div (n : Nat) : ones n = n % 2 + ones (n / 2) := by
  rcases Nat.even_or_odd' n with ⟨half, rfl | rfl⟩
  · rw [ones_two_mul, Nat.mul_mod_right, Nat.mul_div_cancel_left _ (by omega), Nat.zero_add]
  · have quotient : (2 * half + 1) / 2 = half := by omega
    rw [ones_two_mul_add_one, quotient]
    omega

theorem ones_eq_ncard (n : Nat) : ones n = Set.ncard {index | n.testBit index = true} := by
  have indices : {index | n.testBit index = true} = (n.bitIndices.toFinset : Set Nat) := by
    ext index
    simp
  rw [indices, Set.ncard_coe_finset, ones, List.toFinset_card_of_nodup Nat.bitIndices_nodup]

theorem ones_le {n bits : Nat} (small : n < 2 ^ bits) : ones n ≤ bits := by
  induction bits generalizing n with
  | zero =>
      have zero : n = 0 := by omega
      simp [zero]
  | succ bits induction =>
      rw [pow_succ] at small
      have half : ones (n / 2) ≤ bits := induction (by omega)
      rw [ones_eq_mod_add_div]
      omega

theorem ones_add_two_pow_mul {low bits : Nat} (small : low < 2 ^ bits)
    (high : Nat) : ones (low + 2 ^ bits * high) = ones low + ones high := by
  induction bits generalizing low with
  | zero =>
      have zero : low = 0 := by omega
      simp [zero]
  | succ bits induction =>
      rw [pow_succ] at small
      have half := induction (show low / 2 < 2 ^ bits by omega)
      have shape : low + 2 ^ (bits + 1) * high =
          low + 2 * (2 ^ bits * high) := by ring
      have residue : (low + 2 * (2 ^ bits * high)) % 2 = low % 2 :=
        Nat.add_mul_mod_self_left _ _ _
      have quotient : (low + 2 * (2 ^ bits * high)) / 2 = low / 2 + 2 ^ bits * high :=
        Nat.add_mul_div_left _ _ (by omega)
      rw [shape, ones_eq_mod_add_div, residue, quotient, half, ones_eq_mod_add_div low]
      omega

theorem and_sub_one_div_two {n : Nat} (even : n % 2 = 0) (positive : 0 < n) :
    (n &&& (n - 1)) % 2 = 0 ∧ (n &&& (n - 1)) / 2 = n / 2 &&& (n / 2 - 1) := by
  have half : (n - 1) / 2 = n / 2 - 1 := by omega
  constructor
  · rw [Nat.and_mod_two_pow (n := 1), pow_one, even, Nat.zero_and]
  · rw [Nat.and_div_two, half]

/-- `n &&& (n - 1)` clears exactly one set bit. -/
theorem ones_and_sub_one {n : Nat} (positive : 0 < n) : ones (n &&& (n - 1)) + 1 = ones n := by
  induction n using Nat.strong_induction_on with
  | h n induction =>
      rw [ones_eq_mod_add_div (n &&& (n - 1)), ones_eq_mod_add_div n]
      by_cases even : n % 2 = 0
      · obtain ⟨residue, quotient⟩ := and_sub_one_div_two even positive
        have rest := induction (n / 2) (by omega) (by omega)
        rw [residue, quotient]
        omega
      · have half : (n - 1) / 2 = n / 2 := by omega
        have quotient : (n &&& (n - 1)) / 2 = n / 2 := by
          rw [Nat.and_div_two, half, Nat.and_self]
        have residue : (n &&& (n - 1)) % 2 = 0 := by
          have predecessor : (n - 1) % 2 = 0 := by omega
          rw [Nat.and_mod_two_pow (n := 1), pow_one, predecessor, Nat.and_zero]
        rw [residue, quotient]
        omega

theorem ones_value {w : Nat} (limbs : List (BitVec w)) :
    ones (value limbs) = (limbs.map fun limb => ones limb.toNat).sum := by
  induction limbs with
  | nil => simp
  | cons limb limbs induction =>
      rw [value_cons, ones_add_two_pow_mul limb.isLt, induction, List.map_cons, List.sum_cons]

theorem count_congr {p q : Nat → Prop} [DecidablePred p] [DecidablePred q]
    {n : Nat} (agree : ∀ i, i < n → (p i ↔ q i)) :
    Nat.count p n = Nat.count q n :=
  le_antisymm (Nat.count_mono_left fun i below => (agree i below).mp)
    (Nat.count_mono_left fun i below => (agree i below).mpr)

theorem count_testBit (n bits : Nat) :
    Nat.count (fun i => n.testBit i = true) bits = ones (n % 2 ^ bits) := by
  induction bits with
  | zero => simp [Nat.mod_one]
  | succ bits induction =>
      rw [Nat.count_succ, induction, Nat.mod_pow_succ,
        ones_add_two_pow_mul (Nat.mod_lt _ (Nat.two_pow_pos _)),
        Nat.testBit_eq_decide_div_mod_eq]
      rcases Nat.mod_two_eq_zero_or_one (n / 2 ^ bits) with bit | bit
      · simp [bit]
      · simp [bit, ones]

theorem size_sub_one {n : Nat} (positive : 0 < n) :
    (n - 1).size = if n = 2 ^ (n.size - 1) then n.size - 1 else n.size := by
  have sizePositive : 0 < n.size := Nat.size_pos.mpr positive
  have lower : 2 ^ (n.size - 1) ≤ n := Nat.lt_size.mp (by omega)
  have upper : n < 2 ^ n.size := Nat.lt_size_self n
  split
  · rename_i power
    apply Nat.le_antisymm
    · rw [Nat.size_le]
      omega
    · by_contra shorter
      have small : n - 1 < 2 ^ (n.size - 2) :=
        Nat.size_le.mp (by omega)
      by_cases one : n.size = 1
      · omega
      · have double : 2 ^ (n.size - 1) = 2 * 2 ^ (n.size - 2) := by
          rw [← pow_succ']
          congr 1
          omega
        have atLeast : 0 < 2 ^ (n.size - 2) := Nat.two_pow_pos _
        omega
  · rename_i notPower
    apply Nat.le_antisymm
    · rw [Nat.size_le]
      omega
    · have above : 2 ^ (n.size - 1) ≤ n - 1 := by omega
      have longer := Nat.lt_size.mpr above
      omega

def total (width : Nat) : Nat → Nat → Nat
  | 0, _ => 0
  | count + 1, n => n % 2 ^ width + total width count (n / 2 ^ width)

/-- Every one of the lowest fields is at most a bound. -/
def FieldsLe (width bound : Nat) : Nat → Nat → Prop
  | 0, _ => True
  | count + 1, n =>
      n % 2 ^ width ≤ bound ∧ FieldsLe width bound count (n / 2 ^ width)

/-- Ones in the lower field of each pair of fields. -/
def lowMask (width : Nat) : Nat → Nat
  | 0 => 0
  | count + 1 => (2 ^ width - 1) + 2 ^ (2 * width) * lowMask width count

/-- Neighbouring fields added. -/
def gather (width count n : Nat) : Nat :=
  (n &&& lowMask width count) + (n / 2 ^ width &&& lowMask width count)

theorem and_add_two_pow_mul {low bits : Nat} (small : low < 2 ^ bits)
    (high mask highMask : Nat) (smallMask : mask < 2 ^ bits) :
    (low + 2 ^ bits * high) &&& (mask + 2 ^ bits * highMask) =
      (low &&& mask) + 2 ^ bits * (high &&& highMask) := by
  have smallBoth : low &&& mask < 2 ^ bits :=
    lt_of_le_of_lt Nat.and_le_left small
  apply Nat.eq_of_testBit_eq
  intro index
  rw [Nat.testBit_and, Nat.add_comm low, Nat.add_comm mask,
    Nat.add_comm (low &&& mask), Nat.testBit_two_pow_mul_add _ small,
    Nat.testBit_two_pow_mul_add _ smallMask,
    Nat.testBit_two_pow_mul_add _ smallBoth]
  split
  · rw [Nat.testBit_and]
  · rw [Nat.testBit_and]

theorem and_lowMask_succ {width : Nat} (count n : Nat) : n &&& lowMask width (count + 1) =
      n % 2 ^ width + 2 ^ (2 * width) * (n / 2 ^ (2 * width) &&& lowMask width count) := by
  have positive : 0 < 2 ^ width := Nat.two_pow_pos width
  have wide : 2 ^ width ≤ 2 ^ (2 * width) :=
    Nat.pow_le_pow_right (by omega) (by omega)
  have low : n % 2 ^ (2 * width) < 2 ^ (2 * width) :=
    Nat.mod_lt _ (Nat.two_pow_pos _)
  have split := and_add_two_pow_mul low (n / 2 ^ (2 * width))
    (2 ^ width - 1) (lowMask width count) (by omega)
  rw [Nat.mod_add_div] at split
  rw [lowMask, split, Nat.and_two_pow_sub_one_eq_mod,
    Nat.mod_mod_of_dvd _ (Nat.pow_dvd_pow 2 (by omega))]

theorem two_pow_double (width : Nat) : 2 ^ (2 * width) = 2 ^ width * 2 ^ width := by
  rw [two_mul, pow_add]

theorem gather_succ (width count n : Nat) : gather width (count + 1) n =
      (n % 2 ^ width + n / 2 ^ width % 2 ^ width) +
        2 ^ (2 * width) * gather width count (n / 2 ^ (2 * width)) := by
  have swap : n / 2 ^ width / 2 ^ (2 * width) = n / 2 ^ (2 * width) / 2 ^ width := by
    rw [Nat.div_div_eq_div_mul, Nat.div_div_eq_div_mul, Nat.mul_comm]
  rw [gather, and_lowMask_succ, and_lowMask_succ, swap, gather, Nat.mul_add]
  omega

theorem pair_lt {width : Nat} (positive : 0 < width) (n : Nat) :
    n % 2 ^ width + n / 2 ^ width % 2 ^ width < 2 ^ (2 * width) := by
  have first : n % 2 ^ width < 2 ^ width := Nat.mod_lt _ (Nat.two_pow_pos _)
  have second : n / 2 ^ width % 2 ^ width < 2 ^ width :=
    Nat.mod_lt _ (Nat.two_pow_pos _)
  have two : 2 ≤ 2 ^ width := Nat.le_self_pow (by omega) 2
  have wide : 2 * 2 ^ width ≤ 2 ^ (2 * width) := by
    rw [two_pow_double]
    exact Nat.mul_le_mul_right _ two
  omega

theorem total_gather {width : Nat} (positive : 0 < width) (count n : Nat) :
    total (2 * width) count (gather width count n) = total width (2 * count) n := by
  induction count generalizing n with
  | zero => rfl
  | succ count induction =>
      have step : 2 * (count + 1) = 2 * count + 1 + 1 := by omega
      rw [step, total, gather_succ, Nat.add_mul_mod_self_left,
        Nat.mod_eq_of_lt (pair_lt positive n),
        Nat.add_mul_div_left _ _ (Nat.two_pow_pos _),
        Nat.div_eq_of_lt (pair_lt positive n), Nat.zero_add, induction, total,
        total, Nat.div_div_eq_div_mul, ← two_pow_double]
      omega

theorem fieldsLe_gather {width bound : Nat} (positive : 0 < width)
    (count : Nat) {n : Nat} (fields : FieldsLe width bound (2 * count) n) :
    FieldsLe (2 * width) (2 * bound) count (gather width count n) := by
  induction count generalizing n with
  | zero => trivial
  | succ count induction =>
      have step : 2 * (count + 1) = 2 * count + 1 + 1 := by omega
      rw [step] at fields
      obtain ⟨first, second, rest⟩ := fields
      rw [Nat.div_div_eq_div_mul, ← two_pow_double] at rest
      rw [FieldsLe, gather_succ, Nat.add_mul_mod_self_left, Nat.mod_eq_of_lt (pair_lt positive n),
        Nat.add_mul_div_left _ _ (Nat.two_pow_pos _),
        Nat.div_eq_of_lt (pair_lt positive n), Nat.zero_add]
      exact ⟨by omega, induction rest⟩

theorem fieldsLe_bits (count n : Nat) : FieldsLe 1 1 count n := by
  induction count generalizing n with
  | zero => trivial
  | succ count induction =>
      refine ⟨?_, induction _⟩
      have bit : n % 2 ^ 1 < 2 ^ 1 := Nat.mod_lt _ (by omega)
      omega

theorem total_bits (count n : Nat) : total 1 count n = ones (n % 2 ^ count) := by
  induction count generalizing n with
  | zero => simp [total, Nat.mod_one]
  | succ count induction =>
      rw [total, induction, ones_eq_mod_add_div (n % 2 ^ (count + 1))]
      have high : n % 2 ^ (count + 1) / 2 = n / 2 ^ 1 % 2 ^ count := by
        rw [pow_succ, pow_one, Nat.mul_comm, Nat.mod_mul_right_div_self]
      have low : n % 2 ^ (count + 1) % 2 = n % 2 ^ 1 := by
        rw [Nat.mod_mod_of_dvd _ (Dvd.intro_left _ (pow_succ 2 count).symm), pow_one]
      rw [high, low]

theorem add_shifted_low {width n : Nat}
    (low : n % 2 ^ width + n / 2 ^ width % 2 ^ width < 2 ^ width) :
    (n + n / 2 ^ width) % 2 ^ width = n % 2 ^ width + n / 2 ^ width % 2 ^ width := by
  rw [Nat.add_mod, Nat.mod_eq_of_lt low]

/-- What that sum is above the lowest pair of fields, when neither field of the
pair carries. -/
theorem add_shifted_high {width n : Nat}
    (low : n % 2 ^ width + n / 2 ^ width % 2 ^ width < 2 ^ width)
    (next : n / 2 ^ width % 2 ^ width + n / 2 ^ (2 * width) % 2 ^ width < 2 ^ width) :
    (n + n / 2 ^ width) / 2 ^ (2 * width) =
      n / 2 ^ (2 * width) + n / 2 ^ (2 * width) / 2 ^ width := by
  rw [two_pow_double, ← Nat.div_div_eq_div_mul] at next ⊢
  rw [← Nat.div_div_eq_div_mul]
  generalize 2 ^ width = base at low next ⊢
  have positive : 0 < base := by omega
  have carryLow : (n + n / base) / base = n / base + n / base / base := by
    rw [Nat.add_div positive, if_neg (by omega), Nat.add_zero]
  rw [carryLow, Nat.add_div positive, if_neg (by omega), Nat.add_zero]

/-- Where the fields leave room, adding before masking gathers as well. -/
theorem and_lowMask_add {width bound : Nat} (room : 2 * bound < 2 ^ width)
    (count : Nat) {n : Nat} (fields : FieldsLe width bound (2 * count) n) :
    (n + n / 2 ^ width) &&& lowMask width count = gather width count n := by
  induction count generalizing n with
  | zero => simp [gather, lowMask]
  | succ count induction =>
      have step : 2 * (count + 1) = 2 * count + 1 + 1 := by omega
      rw [step] at fields
      obtain ⟨first, second, rest⟩ := fields
      rw [Nat.div_div_eq_div_mul, ← two_pow_double] at rest
      have low : n % 2 ^ width + n / 2 ^ width % 2 ^ width < 2 ^ width := by
        omega
      rw [and_lowMask_succ, add_shifted_low low, gather_succ]
      cases count with
      | zero => simp [gather, lowMask]
      | succ count =>
          have next : n / 2 ^ (2 * width) % 2 ^ width ≤ bound := rest.1
          rw [add_shifted_high low (by omega), induction rest]

/-- Taking the upper bit of each pair away from the pair counts its bits. -/
theorem sub_and_lowMask (count : Nat) {n : Nat} (small : n < 2 ^ (2 * count)) :
    n - (n / 2 &&& lowMask 1 count) = gather 1 count n := by
  have double : n = (n &&& lowMask 1 count) + 2 * (n / 2 &&& lowMask 1 count) := by
    induction count generalizing n with
    | zero =>
        have zero : n = 0 := by simpa using small
        simp [zero]
    | succ count induction =>
        have step : 2 ^ (2 * (count + 1)) = 4 * 2 ^ (2 * count) := by
          rw [Nat.mul_succ, pow_add]
          omega
        have rest := @induction (n / 2 ^ (2 * 1)) (by omega)
        have swap : n / 2 / 2 ^ (2 * 1) = n / 2 ^ (2 * 1) / 2 := by omega
        rw [and_lowMask_succ, and_lowMask_succ, swap]
        omega
  rw [gather, pow_one]
  omega

end ClAmiga.Radix
