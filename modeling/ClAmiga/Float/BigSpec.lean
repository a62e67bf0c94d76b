import ClAmiga.Float.Big

/-!
# Exactness of the fixed-size big integers

`rep` is the big integer of a number and `big` adds the capacity: a number that
needs more than `DT_LIMBS` words is poisoned.  Each operation is specified by
the number its result represents.
-/

namespace ClAmiga.Float

open Radix

def rep (number : Nat) : DtBig :=
  .limbs (ofNat 32 number)

/-- Numbers below this bound fit in `DT_LIMBS` words. -/
def capacity : Nat :=
  (2 ^ 32) ^ dtLimbs

/-- The representation of a number, poisoned when there is no room for it. -/
def big (number : Nat) : DtBig :=
  if number < capacity then rep number else .poisoned

variable {number : Nat}

theorem big_of_lt (small : number < capacity) : big number = rep number :=
  if_pos small

theorem value_rep (number : Nat) : value (ofNat 32 number) = number :=
  value_ofNat (by omega) number

theorem length_le_of_lt (small : number < capacity) : (ofNat 32 number).length ≤ dtLimbs :=
  (length_ofNat_le_iff (by omega) number dtLimbs).mpr small

theorem appendCarry_eq_appendWord (d : List (BitVec 32)) {carry : Nat}
    (small : carry < 2 ^ 32) : appendCarry d carry = appendWord d carry := by
  have noMore : carry >>> 32 = 0 := by
    rw [Nat.shiftRight_eq_div_pow]
    exact Nat.div_eq_of_lt small
  rw [appendCarry, appendWord, noMore, appendCarry, if_pos rfl]

theorem appendWord_eq_big {d : List (BitVec 32)} {carry number : Nat}
    (short : d.length ≤ dtLimbs) (small : carry < 2 ^ 32)
    (denotes : value d + (2 ^ 32) ^ d.length * carry = number)
    (large : d = [] ∨ (2 ^ 32) ^ (d.length - 1) ≤ number) :
    appendWord d carry = big number := by
  unfold appendWord
  by_cases zero : carry = 0
  · subst zero
    have bound := value_lt d
    have fits : number < capacity := by
      rw [← denotes, Nat.mul_zero, Nat.add_zero]
      exact bound.trans_le (Nat.pow_le_pow_right (by omega) short)
    rw [if_pos rfl, big_of_lt fits, rep,
      eq_ofNat_of_value (by omega) (by omega : value d = number) large]
  · have atLeast : (2 ^ 32) ^ d.length ≤ number := by
      rw [← denotes]
      exact (Nat.le_mul_of_pos_right _ (by omega)).trans (Nat.le_add_left _ _)
    rw [if_neg zero]
    by_cases full : d.length ≥ dtLimbs
    · have exceeds : ¬ number < capacity := by
        rw [not_lt, capacity]
        exact (Nat.pow_le_pow_right (by omega) full).trans atLeast
      rw [if_pos full, big, if_neg exceeds]
    · have denotesAll : value (d ++ [BitVec.ofNat 32 carry]) = number := by
        rw [value_append, value_cons, value_nil, BitVec.toNat_ofNat,
          Nat.mod_eq_of_lt small, Nat.mul_zero, Nat.add_zero]
        exact denotes
      have shape : d ++ [BitVec.ofNat 32 carry] = ofNat 32 number := by
        apply eq_ofNat_of_value (by omega) denotesAll
        right
        rw [List.length_append, List.length_singleton, Nat.add_sub_cancel]
        exact atLeast
      have fits : number < capacity := by
        have bound := value_lt (d ++ [BitVec.ofNat 32 carry])
        rw [denotesAll] at bound
        refine bound.trans_le (Nat.pow_le_pow_right (by omega) ?_)
        rw [List.length_append, List.length_singleton]
        omega
      rw [if_neg full, big_of_lt fits, rep, shape]

theorem le_rep_length {number larger : Nat} (le : number ≤ larger) : ofNat 32 number = [] ∨
      (2 ^ 32) ^ ((ofNat 32 number).length - 1) ≤ larger := by
  by_cases zero : number = 0
  · left
    subst zero
    simp [ofNat]
  · right
    have atLeast := (normalized_ofNat (w := 32) (by omega) zero).value_ge
    rw [value_rep] at atLeast
    exact atLeast.trans le

theorem appendWord_of_loop {words : List (BitVec 32)} {carry number result : Nat}
    (small : number < capacity) (le : number ≤ result)
    (length : words.length = (ofNat 32 number).length) (bound : carry < 2 ^ 32)
    (denotes : value words + (2 ^ 32) ^ (ofNat 32 number).length * carry = result) :
    appendWord words carry = big result := by
  rw [← length] at denotes
  apply appendWord_eq_big _ bound denotes
  · rcases le_rep_length le with empty | large
    · left
      apply List.eq_nil_of_length_eq_zero
      rw [length, empty]
      rfl
    · right
      rw [length]
      exact large
  · rw [length]
    exact length_le_of_lt small

/-- The product of the words and a small factor, with the carry out. -/
theorem mulWords_spec {m : Nat} (mBound : m < 2 ^ 32) (d : List (BitVec 32))
    {carry : Nat} (carryBound : carry < 2 ^ 32) :
    (mulWords m d carry).1.length = d.length ∧ (mulWords m d carry).2 < 2 ^ 32 ∧
      value (mulWords m d carry).1 + (2 ^ 32) ^ d.length * (mulWords m d carry).2 =
        value d * m + carry := by
  induction d generalizing carry with
  | nil => exact ⟨rfl, carryBound, by simp [mulWords]⟩
  | cons x xs induction =>
      have product : x.toNat * m ≤ (2 ^ 32 - 1) * (2 ^ 32 - 1) :=
        Nat.mul_le_mul (by have := x.isLt; omega) (by omega)
      have noWrap : (x.toNat * m + carry) % 2 ^ 64 = x.toNat * m + carry :=
        Nat.mod_eq_of_lt (by omega)
      have nextBound : (x.toNat * m + carry) >>> 32 < 2 ^ 32 := by
        rw [Nat.shiftRight_eq_div_pow]
        omega
      obtain ⟨length, bound, denotes⟩ := induction nextBound
      simp only [mulWords, noWrap, List.length_cons]
      refine ⟨by rw [length], bound, ?_⟩
      calc
        _ = x.toNat * m + carry + 2 ^ 32 * (value xs * m) := value_carry denotes
        _ = value (x :: xs) * m + carry := by
          rw [value_cons]
          ring

theorem dtMulU32_rep {number m : Nat} (small : number < capacity)
    (mPositive : 0 < m) (mBound : m < 2 ^ 32) :
    dtMulU32 (rep number) m = big (number * m) := by
  obtain ⟨length, bound, denotes⟩ :=
    mulWords_spec mBound (ofNat 32 number) (show 0 < 2 ^ 32 by omega)
  rw [value_rep, Nat.add_zero] at denotes
  simp only [dtMulU32, rep]
  rw [appendCarry_eq_appendWord _ bound]
  exact appendWord_of_loop small (Nat.le_mul_of_pos_right _ mPositive) length bound denotes

/-- The sum of the words and a carry. -/
theorem addSmallWords_spec (d : List (BitVec 32)) {carry : Nat} (carryBound : carry < 2 ^ 32) :
    (addSmallWords d carry).1.length = d.length ∧ (addSmallWords d carry).2 < 2 ^ 32 ∧
      value (addSmallWords d carry).1 +
          (2 ^ 32) ^ d.length * (addSmallWords d carry).2 = value d + carry := by
  induction d generalizing carry with
  | nil => exact ⟨rfl, carryBound, by simp [addSmallWords]⟩
  | cons x xs induction =>
      rw [addSmallWords]
      by_cases zero : carry = 0
      · rw [if_pos zero]
        simp [zero]
      · have xBound := x.isLt
        have noWrap : (x.toNat + carry) % 2 ^ 64 = x.toNat + carry :=
          Nat.mod_eq_of_lt (by omega)
        have nextBound : (x.toNat + carry) >>> 32 < 2 ^ 32 := by
          rw [Nat.shiftRight_eq_div_pow]
          omega
        obtain ⟨length, bound, denotes⟩ := induction nextBound
        simp only [if_neg zero, noWrap, List.length_cons]
        refine ⟨by rw [length], bound, ?_⟩
        calc
          _ = x.toNat + carry + 2 ^ 32 * value xs := value_carry denotes
          _ = value (x :: xs) + carry := by
            rw [value_cons]
            ring

theorem dtAddU32_rep {number v : Nat} (small : number < capacity)
    (vBound : v < 2 ^ 32) : dtAddU32 (rep number) v = big (number + v) := by
  obtain ⟨length, bound, denotes⟩ :=
    addSmallWords_spec (ofNat 32 number) vBound
  rw [value_rep] at denotes
  exact appendWord_of_loop small (Nat.le_add_right _ _) length bound denotes

/-- The sum of two numbers, over the words of the longer. -/
theorem addWords_spec (left right : List (BitVec 32)) {carry : Nat} (carryBound : carry < 2) :
    (addWords left right carry).1.length = max left.length right.length ∧
      (addWords left right carry).2 < 2 ∧
      value (addWords left right carry).1 +
          (2 ^ 32) ^ max left.length right.length * (addWords left right carry).2 =
        value left + value right + carry := by
  have noWrap : ∀ t : Nat, t < 2 ^ 34 → t % 2 ^ 64 = t :=
    fun t small => Nat.mod_eq_of_lt (by omega)
  have nextBound : ∀ t : Nat, t < 2 ^ 33 → t >>> 32 < 2 := by
    intro t small
    rw [Nat.shiftRight_eq_div_pow]
    omega
  induction left generalizing right carry with
  | nil =>
      induction right generalizing carry with
      | nil =>
          rw [addWords]
          exact ⟨rfl, carryBound, by simp⟩
      | cons y ys induction =>
          have yBound := y.isLt
          obtain ⟨length, bound, denotes⟩ :=
            induction (nextBound (carry + y.toNat) (by omega))
          simp only [List.length_nil, Nat.zero_max, value_nil, Nat.zero_add]
            at length denotes
          simp only [addWords, noWrap (carry + y.toNat) (by omega),
            List.length_cons, List.length_nil, Nat.zero_max, length]
          refine ⟨trivial, bound, (value_carry denotes).trans ?_⟩
          rw [value_nil, value_cons]
          ring
  | cons x xs induction =>
      have xBound := x.isLt
      cases right with
      | nil =>
          obtain ⟨length, bound, denotes⟩ :=
            induction [] (nextBound (carry + x.toNat) (by omega))
          simp only [List.length_nil, Nat.max_zero, value_nil, Nat.add_zero]
            at length denotes
          simp only [addWords, noWrap (carry + x.toNat) (by omega),
            List.length_cons, List.length_nil, Nat.max_zero, length]
          refine ⟨trivial, bound, (value_carry denotes).trans ?_⟩
          rw [value_nil, value_cons]
          ring
      | cons y ys =>
          have yBound := y.isLt
          obtain ⟨length, bound, denotes⟩ :=
            induction ys (nextBound (carry + x.toNat + y.toNat) (by omega))
          simp only [addWords, noWrap (carry + x.toNat + y.toNat) (by omega),
            List.length_cons, length, Nat.add_max_add_right]
          refine ⟨trivial, bound, (value_carry denotes).trans ?_⟩
          rw [value_cons, value_cons]
          ring

theorem dtAdd_rep {left right : Nat} (leftSmall : left < capacity) (rightSmall : right < capacity) :
    dtAdd (rep left) (rep right) = big (left + right) := by
  obtain ⟨length, bound, denotes⟩ :=
    addWords_spec (ofNat 32 left) (ofNat 32 right) (show 0 < 2 by omega)
  rw [value_rep, value_rep, Nat.add_zero] at denotes
  have leftLength := length_le_of_lt leftSmall
  have rightLength := length_le_of_lt rightSmall
  have roomy : ¬ max (ofNat 32 right).length (ofNat 32 left).length > dtLimbs := by
    omega
  simp only [dtAdd, rep]
  rw [if_neg roomy]
  rcases Nat.le_total (ofNat 32 left).length (ofNat 32 right).length with
    shorter | longer
  · rw [Nat.max_eq_right shorter] at length denotes
    exact appendWord_of_loop rightSmall (Nat.le_add_left _ _) length (by omega) denotes
  · rw [Nat.max_eq_left longer] at length denotes
    exact appendWord_of_loop leftSmall (Nat.le_add_right _ _) length (by omega) denotes

theorem value_tail_headD (ys : List (BitVec 32)) :
    value ys = (ys.headD 0).toNat + 2 ^ 32 * value ys.tail := by
  cases ys with
  | nil => simp
  | cons y ys => simp

/-- The difference, up to a borrow out of the highest word. -/
theorem subWords_spec (xs ys : List (BitVec 32)) {borrow : Int}
    (borrowBit : borrow = 0 ∨ borrow = 1) (shorter : ys.length ≤ xs.length) :
    (subWords xs ys borrow).length = xs.length ∧ ∃ out : Int, (out = 0 ∨ out = 1) ∧
        (value (subWords xs ys borrow) : Int) - (2 ^ 32) ^ xs.length * out =
          value xs - value ys - borrow := by
  induction xs generalizing ys borrow with
  | nil =>
      have empty : ys = [] := List.eq_nil_of_length_eq_zero (by simpa using shorter)
      subst empty
      exact ⟨rfl, borrow, borrowBit, by simp [subWords]⟩
  | cons x xs induction =>
      have xBound := x.isLt
      have headBound := (ys.headD 0).isLt
      have tailShorter : ys.tail.length ≤ xs.length := by
        rw [List.length_tail]
        simp only [List.length_cons] at shorter
        omega
      have split := value_tail_headD ys
      have radixStep : (2 ^ 32 : Int) ^ (xs.length + 1) = 2 ^ 32 * (2 ^ 32) ^ xs.length := by
        ring
      simp only [subWords]
      generalize (ys.headD 0).toNat = y at *
      split
      · rename_i negative
        obtain ⟨length, out, outBit, denotes⟩ :=
          induction ys.tail (Or.inr rfl) tailShorter
        refine ⟨by simp [length], out, outBit, ?_⟩
        have word : ((BitVec.ofInt 32 ((x.toNat : Int) - borrow - y + 2 ^ 32)).toNat : Int)
            = (x.toNat : Int) - borrow - y + 2 ^ 32 := by
          rw [BitVec.toNat_ofInt]
          omega
        generalize BitVec.ofInt 32 ((x.toNat : Int) - borrow - y + 2 ^ 32) = limb at *
        rw [value_cons, value_cons, List.length_cons, radixStep, split]
        push_cast
        linear_combination word + 2 ^ 32 * denotes
      · rename_i nonneg
        obtain ⟨length, out, outBit, denotes⟩ :=
          induction ys.tail (Or.inl rfl) tailShorter
        refine ⟨by simp [length], out, outBit, ?_⟩
        have word : ((BitVec.ofInt 32 ((x.toNat : Int) - borrow - y)).toNat : Int)
            = (x.toNat : Int) - borrow - y := by
          rw [BitVec.toNat_ofInt]
          omega
        generalize BitVec.ofInt 32 ((x.toNat : Int) - borrow - y) = limb at *
        rw [value_cons, value_cons, List.length_cons, radixStep, split]
        push_cast
        linear_combination word + 2 ^ 32 * denotes

theorem rdropWhile_zero_eq_ofNat (words : List (BitVec 32)) :
    words.rdropWhile (· = 0) = ofNat 32 (value words) := by
  induction words using List.reverseRecOn with
  | nil => simp [ofNat]
  | append_singleton low top induction =>
      rw [List.rdropWhile_concat]
      by_cases zero : top = 0
      · rw [if_pos (by simpa using zero), induction, value_append, zero]
        simp
      · rw [if_neg (by simpa using zero)]
        exact Normalized.eq_ofNat (by omega) ⟨low, top, rfl, zero⟩

theorem dtSub_rep {left right : Nat} (le : right ≤ left) :
    dtSub (rep left) (rep right) = rep (left - right) := by
  have shorter : (ofNat 32 right).length ≤ (ofNat 32 left).length := by
    rw [length_ofNat_le_iff (by omega)]
    have bound := value_lt (ofNat 32 left)
    rw [value_rep] at bound
    omega
  obtain ⟨length, out, outBit, denotes⟩ :=
    subWords_spec (ofNat 32 left) (ofNat 32 right) (Or.inl rfl) shorter
  rw [value_rep, value_rep] at denotes
  have bound := value_lt (subWords (ofNat 32 left) (ofNat 32 right) 0)
  rw [length] at bound
  have exact : value (subWords (ofNat 32 left) (ofNat 32 right) 0) = left - right := by
    have castBound : (value (subWords (ofNat 32 left) (ofNat 32 right) 0) : Int) <
        (2 ^ 32) ^ (ofNat 32 left).length := by
      exact_mod_cast bound
    rcases outBit with rfl | rfl
    · omega
    · generalize (2 ^ 32 : Int) ^ (ofNat 32 left).length = size at *
      omega
  simp only [dtSub, rep]
  rw [rdropWhile_zero_eq_ofNat, exact]

theorem dtCmp_rep (left right : Nat) :
    dtCmp (rep left) (rep right) = if left < right then -1
      else if left = right then 0 else 1 := by
  have shortSmall : ∀ a b : Nat, (ofNat 32 a).length < (ofNat 32 b).length → a < b := by
    intro a b shorter
    have aBound := value_lt (ofNat 32 a)
    rw [value_rep] at aBound
    have bLarge : ¬ b < (2 ^ 32) ^ (ofNat 32 a).length := by
      intro small
      have := (length_ofNat_le_iff (w := 32) (by omega) b _).mpr small
      omega
    omega
  have lengths : ∀ number, (rep number).n = (ofNat 32 number).length :=
    fun _ => rfl
  unfold dtCmp
  by_cases same : (ofNat 32 left).length = (ofNat 32 right).length
  · have sameN : (rep left).n = (rep right).n := by
      rw [lengths, lengths, same]
    rw [if_neg (fun different => different sameN)]
    simp only [rep]
    rw [compareDown_eq _ _ (by simpa using same)]
    simp only [List.reverse_reverse, value_rep]
    rcases Nat.lt_trichotomy left right with less | equal | greater
    · rw [Nat.compare_eq_lt.mpr less, if_pos less]
    · rw [equal]
      simp
    · rw [Nat.compare_eq_gt.mpr greater, if_neg (by omega), if_neg (by omega)]
  · have differentN : (rep left).n ≠ (rep right).n := by
      rw [lengths, lengths]
      exact_mod_cast same
    rw [if_pos differentN]
    by_cases shorter : (ofNat 32 left).length < (ofNat 32 right).length
    · have less : (rep left).n < (rep right).n := by
        rw [lengths, lengths]
        exact_mod_cast shorter
      rw [if_pos less, if_pos (shortSmall _ _ shorter)]
    · have notLess : ¬ (rep left).n < (rep right).n := by
        rw [lengths, lengths]
        exact_mod_cast shorter
      have greater := shortSmall right left (by omega)
      rw [if_neg notLess, if_neg (by omega), if_neg (by omega)]

theorem shl_or_toNat {bits : Nat} (bitsBound : bits < 32) (t carry : BitVec 32)
    (carryBound : carry.toNat < 2 ^ bits) :
    ((t <<< bits) ||| carry).toNat + 2 ^ 32 * (t >>> (32 - bits)).toNat =
      t.toNat * 2 ^ bits + carry.toNat := by
  have tBound := t.isLt
  have factor : 2 ^ 32 = 2 ^ bits * 2 ^ (32 - bits) := by
    rw [← pow_add]
    congr 1
    omega
  have low : (t <<< bits).toNat = 2 ^ bits * (t.toNat % 2 ^ (32 - bits)) := by
    rw [BitVec.toNat_shiftLeft, Nat.shiftLeft_eq, factor, Nat.mul_comm, Nat.mul_mod_mul_left]
  have high : (t >>> (32 - bits)).toNat = t.toNat / 2 ^ (32 - bits) := by
    rw [BitVec.toNat_ushiftRight, Nat.shiftRight_eq_div_pow]
  have division := Nat.div_add_mod t.toNat (2 ^ (32 - bits))
  rw [BitVec.toNat_or, low, high, ← Nat.two_pow_add_eq_or_of_lt carryBound]
  calc
    _ = 2 ^ bits * (2 ^ (32 - bits) * (t.toNat / 2 ^ (32 - bits)) +
        t.toNat % 2 ^ (32 - bits)) + carry.toNat := by
      rw [factor]
      ring
    _ = _ := by
      rw [division]
      ring

/-- A shift by fewer than 32 bits. -/
theorem shlWords_spec {bits : Nat} (bitsBound : bits < 32) (d : List (BitVec 32))
    {carry : BitVec 32} (carryBound : carry.toNat < 2 ^ bits) :
    (shlWords bits d carry).1.length = d.length ∧ value (shlWords bits d carry).1 +
          (2 ^ 32) ^ d.length * (shlWords bits d carry).2.toNat =
        value d * 2 ^ bits + carry.toNat := by
  induction d generalizing carry with
  | nil => simp [shlWords]
  | cons t ts induction =>
      have nextBound : (t >>> (32 - bits)).toNat < 2 ^ bits := by
        have tBound := t.isLt
        rw [BitVec.toNat_ushiftRight, Nat.shiftRight_eq_div_pow,
          Nat.div_lt_iff_lt_mul (Nat.two_pow_pos _), ← pow_add]
        have total : bits + (32 - bits) = 32 := by omega
        rw [total]
        exact tBound
      obtain ⟨length, denotes⟩ := induction nextBound
      have word := shl_or_toNat bitsBound t carry carryBound
      have radixStep : (2 ^ 32) ^ (ts.length + 1) = 2 ^ 32 * (2 ^ 32) ^ ts.length := by
        ring
      simp only [shlWords, List.length_cons, value_cons, length, radixStep, true_and]
      calc
        _ = ((t <<< bits) ||| carry).toNat + 2 ^ 32 *
            (value (shlWords bits ts (t >>> (32 - bits))).1 + (2 ^ 32) ^ ts.length *
              (shlWords bits ts (t >>> (32 - bits))).2.toNat) := by ring
        _ = ((t <<< bits) ||| carry).toNat + 2 ^ 32 * (t >>> (32 - bits)).toNat +
            2 ^ 32 * (value ts * 2 ^ bits) := by
          rw [denotes]
          ring
        _ = _ := by
          rw [word]
          ring

theorem shlWords_append {number bits : Nat} (nonzero : number ≠ 0) (bitsBound : bits < 32) :
    (if (shlWords bits (ofNat 32 number) 0).2 ≠ 0 then
        (shlWords bits (ofNat 32 number) 0).1 ++ [(shlWords bits (ofNat 32 number) 0).2]
      else (shlWords bits (ofNat 32 number) 0).1) =
      ofNat 32 (number * 2 ^ bits) := by
  have noCarry : (0 : BitVec 32).toNat < 2 ^ bits := Nat.two_pow_pos bits
  obtain ⟨length, denotes⟩ := shlWords_spec bitsBound (ofNat 32 number) noCarry
  rw [value_rep] at denotes
  change _ = number * 2 ^ bits + 0 at denotes
  rw [Nat.add_zero] at denotes
  have atLeast := (normalized_ofNat (w := 32) (by omega) nonzero).value_ge
  rw [value_rep] at atLeast
  generalize (shlWords bits (ofNat 32 number) 0).1 = words at *
  generalize (shlWords bits (ofNat 32 number) 0).2 = carry at *
  by_cases zero : carry = 0
  · subst zero
    rw [if_neg (by simp)]
    apply eq_ofNat_of_value (by omega) (by simpa using denotes)
    right
    rw [length]
    exact atLeast.trans (Nat.le_mul_of_pos_right _ (Nat.two_pow_pos _))
  · rw [if_pos zero]
    apply eq_ofNat_of_value (by omega)
    · rw [value_append, value_cons, value_nil, Nat.mul_zero, Nat.add_zero, length]
      exact denotes
    · right
      have carryPositive := toNat_pos_of_ne_zero zero
      rw [List.length_append, List.length_singleton, Nat.add_sub_cancel, length, ← denotes]
      exact (Nat.le_mul_of_pos_right _ carryPositive).trans (Nat.le_add_left _ _)

theorem replicate_zero_append {number count : Nat} (nonzero : number ≠ 0) :
    List.replicate count (0 : BitVec 32) ++ ofNat 32 number =
      ofNat 32 (number * (2 ^ 32) ^ count) := by
  have atLeast := (normalized_ofNat (w := 32) (by omega) nonzero).value_ge
  rw [value_rep] at atLeast
  have lengthPositive :=
    List.length_pos_of_ne_nil (ofNat_ne_nil (w := 32) (by omega) nonzero)
  apply eq_ofNat_of_value (by omega)
  · rw [value_append, value_replicate_zero, List.length_replicate, value_rep]
    ring
  · right
    have exponent : (List.replicate count (0 : BitVec 32) ++
        ofNat 32 number).length - 1 = (ofNat 32 number).length - 1 + count := by
      rw [List.length_append, List.length_replicate]
      omega
    rw [exponent, pow_add]
    exact Nat.mul_le_mul_right _ atLeast

theorem dtShl_room {number k : Nat} (zero : number ≠ 0) (moved : k ≠ 0)
    (room : (ofNat 32 number).length + k / 32 + 1 ≤ dtLimbs) :
    dtShl (rep number) k = rep (number * 2 ^ k) := by
  have lengthPositive :=
    List.length_pos_of_ne_nil (ofNat_ne_nil (w := 32) (by omega) zero)
  have power : 2 ^ k = (2 ^ 32) ^ (k / 32) * 2 ^ (k % 32) := by
    rw [← pow_mul, ← pow_add]
    congr 1
    omega
  have notEmpty : ¬ ((ofNat 32 number).length = 0 ∨ k = 0) := by
    omega
  simp only [dtShl, rep]
  rw [if_neg notEmpty, if_neg (by omega)]
  congr 1
  rw [power, Nat.mul_comm ((2 ^ 32) ^ (k / 32)), ← Nat.mul_assoc,
    ← replicate_zero_append (Nat.mul_ne_zero zero (Nat.two_pow_pos _).ne')]
  congr 1
  by_cases whole : k % 32 = 0
  · rw [if_pos whole, whole, pow_zero, Nat.mul_one]
  · rw [if_neg whole]
    exact shlWords_append zero (by omega)

theorem dtShl_still {number k : Nat} (still : number = 0 ∨ k = 0) :
    dtShl (rep number) k = rep number := by
  rcases still with rfl | rfl
  · simp [dtShl, rep, ofNat]
  · simp [dtShl, rep]

theorem dtShl_rep {number k : Nat} (small : number * 2 ^ k < (2 ^ 32) ^ 110) :
    dtShl (rep number) k = rep (number * 2 ^ k) := by
  by_cases zero : number = 0
  · rw [dtShl_still (Or.inl zero), zero, Nat.zero_mul]
  by_cases still : k = 0
  · rw [dtShl_still (Or.inr still), still, pow_zero, Nat.mul_one]
  have atLeast := (normalized_ofNat (w := 32) (by omega) zero).value_ge
  rw [value_rep] at atLeast
  have power : 2 ^ k = (2 ^ 32) ^ (k / 32) * 2 ^ (k % 32) := by
    rw [← pow_mul, ← pow_add]
    congr 1
    omega
  have fewWords : (ofNat 32 number).length - 1 + k / 32 < 110 := by
    apply (Nat.pow_lt_pow_iff_right (by omega : 1 < 2 ^ 32)).mp
    refine lt_of_le_of_lt ?_ small
    rw [pow_add, power]
    exact Nat.mul_le_mul atLeast (Nat.le_mul_of_pos_right _ (Nat.two_pow_pos _))
  apply dtShl_room zero still
  rw [dtLimbs]
  omega

theorem size_eq_of_bounds {v k : Nat} (low : 2 ^ k ≤ v) (high : v < 2 ^ (k + 1)) :
    v.size = k + 1 := by
  have upper := Nat.size_le.mpr high
  have lower := Nat.lt_size.mpr low
  omega

theorem size_add_mul {low top k : Nat} (small : low < 2 ^ k) (positive : 0 < top) :
    (low + 2 ^ k * top).size = k + top.size := by
  have topLow : 2 ^ (top.size - 1) ≤ top :=
    Nat.lt_size.mp (by have := Nat.size_pos.mpr positive; omega)
  have topHigh : top < 2 ^ top.size := Nat.lt_size_self top
  have sizePositive := Nat.size_pos.mpr positive
  have result := size_eq_of_bounds (v := low + 2 ^ k * top) (k := k + (top.size - 1)) (by
      rw [pow_add]
      exact (Nat.mul_le_mul_left _ topLow).trans (Nat.le_add_left _ _))
    (by
      have exponent : k + (top.size - 1) + 1 = k + top.size := by omega
      rw [exponent, pow_add]
      calc
        low + 2 ^ k * top < 2 ^ k + 2 ^ k * top := by omega
        _ = 2 ^ k * (top + 1) := by ring
        _ ≤ 2 ^ k * 2 ^ top.size := Nat.mul_le_mul_left _ topHigh)
  omega

theorem bitlenU32_eq (v : Nat) : bitlenU32 v = v.size := by
  induction v using Nat.strongRecOn with
  | ind v induction =>
      rw [bitlenU32, Nat.shiftRight_eq_div_pow, pow_one]
      by_cases zero : v = 0
      · rw [if_pos zero, zero, Nat.size_zero]
      · rw [if_neg zero, induction (v / 2) (by omega)]
        by_cases one : v = 1
        · subst one
          decide
        · have split : v % 2 + 2 ^ 1 * (v / 2) = v := by
            rw [pow_one]
            exact Nat.mod_add_div v 2
          have whole := size_add_mul (show v % 2 < 2 ^ 1 by omega)
            (show 0 < v / 2 by omega)
          rw [split] at whole
          omega

theorem bitlenU64_eq {v : Nat} (small : v < 2 ^ 64) : bitlenU64 v = v.size := by
  have hiBound : v >>> 32 < 2 ^ 32 := by
    rw [Nat.shiftRight_eq_div_pow]
    omega
  have split : v % 2 ^ 32 + 2 ^ 32 * (v >>> 32) = v := by
    rw [Nat.shiftRight_eq_div_pow]
    exact Nat.mod_add_div v (2 ^ 32)
  simp only [bitlenU64, Nat.mod_eq_of_lt hiBound, bitlenU32_eq]
  by_cases zero : v >>> 32 = 0
  · rw [if_neg (by simpa using zero)]
    rw [zero, Nat.mul_zero, Nat.add_zero] at split
    rw [split]
  · rw [if_pos zero]
    have whole := size_add_mul (show v % 2 ^ 32 < 2 ^ 32 by omega)
      (show 0 < v >>> 32 by omega)
    rw [split] at whole
    exact whole.symm

theorem dtBitlen_rep (number : Nat) : dtBitlen (rep number) = number.size := by
  by_cases zero : number = 0
  · subst zero
    simp [dtBitlen, rep, ofNat]
  · obtain ⟨low, top, shape, nonzero⟩ := normalized_ofNat (w := 32) (by omega) zero
    have denotes := value_rep number
    have lowBound := value_lt low
    rw [shape, value_append, value_cons, value_nil, Nat.mul_zero, Nat.add_zero,
      ← pow_mul] at denotes
    rw [← pow_mul] at lowBound
    have length : (low ++ [top]).length = low.length + 1 := by simp
    have topWord : (low ++ [top]).getD low.length 0 = top := by
      simp [List.getD_eq_getElem?_getD]
    simp only [dtBitlen, rep, shape, length, Nat.add_sub_cancel, topWord, bitlenU32_eq]
    rw [if_neg (by omega), ← denotes, size_add_mul lowBound (toNat_pos_of_ne_zero nonzero)]
    ring

theorem value_testBit (d : List (BitVec 32)) (i : Nat) :
    (value d).testBit i = (d.getD (i / 32) 0).toNat.testBit (i % 32) := by
  induction d generalizing i with
  | nil => simp
  | cons x xs induction =>
      rw [value_cons, Nat.add_comm, Nat.testBit_two_pow_mul_add _ x.isLt]
      by_cases low : i < 32
      · have first : i / 32 = 0 := Nat.div_eq_of_lt low
        rw [if_pos low, first, List.getD_cons_zero, Nat.mod_eq_of_lt low]
      · obtain ⟨j, rfl⟩ : ∃ j, i = j + 32 := ⟨i - 32, by omega⟩
        rw [if_neg low, Nat.add_sub_cancel, induction, Nat.add_mod_right,
          Nat.add_div_right _ (by omega), List.getD_cons_succ]

theorem word_bit (word : BitVec 32) (j : Nat) :
    decide (word >>> j &&& 1 = 1) = word.toNat.testBit j := by
  have shifted : (word >>> j &&& 1).toNat = word.toNat >>> j % 2 := by
    rw [BitVec.toNat_and, BitVec.toNat_ushiftRight]
    exact Nat.and_one_is_mod _
  have one : word >>> j &&& 1 = 1 ↔ word.toNat >>> j % 2 = 1 := by
    rw [← shifted]
    constructor
    · intro equality
      rw [equality]
      rfl
    · intro equality
      exact BitVec.eq_of_toNat_eq equality
  rw [Nat.testBit_eq_decide_div_mod_eq, ← Nat.shiftRight_eq_div_pow]
  exact decide_eq_decide.mpr one

theorem dtBit_rep (number i : Nat) : dtBit (rep number) i = number.testBit i := by
  have bit := value_testBit (ofNat 32 number) i
  rw [value_rep] at bit
  simp only [dtBit, rep, Int.toNat_natCast]
  by_cases outside : (i : Int) < 0 ∨ (i : Int) ≥ (ofNat 32 number).length * 32
  · rw [if_pos outside, bit]
    have beyond : (ofNat 32 number).length ≤ i / 32 := by omega
    rw [List.getD_eq_default _ _ beyond]
    simp
  · rw [if_neg outside, bit]
    exact word_bit _ _

theorem mask_ne_zero_iff (word : BitVec 32) {bits : Nat} (bitsBound : bits < 32) :
    word &&& (((1 : BitVec 32) <<< bits) - 1) ≠ 0 ↔ word.toNat % 2 ^ bits ≠ 0 := by
  have powerBound : 2 ^ bits < 2 ^ 32 := Nat.pow_lt_pow_right (by omega) bitsBound
  have powerPositive := Nat.two_pow_pos bits
  have power : ((1 : BitVec 32) <<< bits).toNat = 2 ^ bits := by
    rw [BitVec.toNat_shiftLeft, Nat.shiftLeft_eq]
    change 1 * 2 ^ bits % 2 ^ 32 = 2 ^ bits
    rw [Nat.one_mul, Nat.mod_eq_of_lt powerBound]
  have mask : (((1 : BitVec 32) <<< bits) - 1).toNat = 2 ^ bits - 1 := by
    rw [BitVec.toNat_sub, power]
    change (2 ^ 32 - 1 + 2 ^ bits) % 2 ^ 32 = 2 ^ bits - 1
    omega
  have masked : (word &&& (((1 : BitVec 32) <<< bits) - 1)).toNat = word.toNat % 2 ^ bits := by
    rw [BitVec.toNat_and, mask, Nat.and_two_pow_sub_one_eq_mod]
  rw [← masked]
  constructor
  · intro nonzero
    exact (toNat_pos_of_ne_zero nonzero).ne'
  · rintro positive equality
    rw [equality] at positive
    exact positive rfl

theorem any_ne_zero_iff (d : List (BitVec 32)) : d.any (· ≠ 0) = true ↔ value d ≠ 0 := by
  induction d with
  | nil => simp
  | cons x xs induction =>
      have word : x ≠ 0 ↔ x.toNat ≠ 0 :=
        ⟨fun nonzero => (toNat_pos_of_ne_zero nonzero).ne', fun positive equality => by
          rw [equality] at positive
          exact positive rfl⟩
      rw [List.any_cons, Bool.or_eq_true, induction, value_cons, decide_eq_true_iff, word]
      omega

theorem value_drop_mod (d : List (BitVec 32)) (count : Nat) {bits : Nat} (bitsBound : bits ≤ 32) :
    value (d.drop count) % 2 ^ bits = (d.getD count 0).toNat % 2 ^ bits := by
  induction d generalizing count with
  | nil => simp
  | cons x xs induction =>
      cases count with
      | zero =>
          have factor : 2 ^ 32 = 2 ^ bits * 2 ^ (32 - bits) := by
            rw [← pow_add]
            congr 1
            omega
          rw [List.drop_zero, value_cons, List.getD_cons_zero, factor, Nat.mul_assoc,
            Nat.add_mul_mod_self_left]
      | succ count =>
          rw [List.drop_succ_cons, List.getD_cons_succ]
          exact induction count

theorem value_mod_two_pow (d : List (BitVec 32)) (i : Nat) :
    value d % 2 ^ i = value (d.take (i / 32)) +
      (2 ^ 32) ^ (i / 32) * ((d.getD (i / 32) 0).toNat % 2 ^ (i % 32)) := by
  have power : 2 ^ i = (2 ^ 32) ^ (i / 32) * 2 ^ (i % 32) := by
    rw [← pow_mul, ← pow_add]
    congr 1
    omega
  by_cases inside : i / 32 ≤ d.length
  · have split := value_take_add_drop d (i / 32) inside
    have lowBound := value_lt (d.take (i / 32))
    rw [List.length_take, Nat.min_eq_left inside] at lowBound
    rw [power, Nat.mod_mul, ← value_drop_mod d (i / 32) (by omega), split,
      Nat.add_mul_mod_self_left, Nat.mod_eq_of_lt lowBound,
      Nat.add_mul_div_left _ _ (Nat.pow_pos (Nat.two_pow_pos 32)),
      Nat.div_eq_of_lt lowBound, Nat.zero_add]
  · have bound := value_lt d
    have small : value d < 2 ^ i := by
      rw [power]
      refine bound.trans_le ((Nat.pow_le_pow_right (by omega) (by omega)).trans
        (Nat.le_mul_of_pos_right _ (Nat.two_pow_pos _)))
    rw [Nat.mod_eq_of_lt small, List.take_of_length_le (by omega),
      List.getD_eq_default _ _ (by omega)]
    simp

theorem dtLowBitsNonzero_rep (number i : Nat) :
    dtLowBitsNonzero (rep number) i = decide (number % 2 ^ i ≠ 0) := by
  have low := value_mod_two_pow (ofNat 32 number) i
  rw [value_rep] at low
  rw [Bool.eq_iff_iff, decide_eq_true_iff, low]
  simp only [dtLowBitsNonzero, rep, Bool.or_eq_true, any_ne_zero_iff, Bool.and_eq_true,
    decide_eq_true_iff, mask_ne_zero_iff _ (show i % 32 < 32 by omega)]
  have radixPositive : 0 < (2 ^ 32) ^ (i / 32) := Nat.pow_pos (Nat.two_pow_pos 32)
  constructor
  · rintro (lowWords | ⟨⟨-, -⟩, masked⟩)
    · omega
    · have := Nat.mul_pos radixPositive (Nat.pos_of_ne_zero masked)
      omega
  · intro nonzero
    by_cases lowWords : value ((ofNat 32 number).take (i / 32)) = 0
    · right
      have masked : ((ofNat 32 number).getD (i / 32) 0).toNat % 2 ^ (i % 32) ≠ 0 := by
        intro zero
        rw [zero, lowWords] at nonzero
        exact nonzero rfl
      refine ⟨⟨?_, ?_⟩, masked⟩
      · intro whole
        rw [whole, pow_zero, Nat.mod_one] at masked
        exact masked rfl
      · by_contra outside
        rw [List.getD_eq_default _ _ (by omega)] at masked
        exact masked (by simp)
    · exact Or.inl lowWords

theorem topBitsLoop_rep (shift : Nat) (i : Nat) (fits : number / 2 ^ shift < 2 ^ 64) :
    topBitsLoop (rep number) shift i (number / 2 ^ (shift + i)) = number / 2 ^ shift := by
  induction i with
  | zero => rfl
  | succ i induction =>
      rw [topBitsLoop]
      have bit : dtBit (rep number) ((shift : Int) + i) = number.testBit (shift + i) := by
        exact_mod_cast dtBit_rep number (shift + i)
      have next : (number / 2 ^ (shift + (i + 1))) <<< 1 |||
          (number.testBit (shift + i)).toNat = number / 2 ^ (shift + i) := by
        have half : number / 2 ^ (shift + (i + 1)) = number / 2 ^ (shift + i) / 2 := by
          rw [Nat.div_div_eq_div_mul, ← pow_succ]
          rfl
        have parity : (number.testBit (shift + i)).toNat = number / 2 ^ (shift + i) % 2 := by
          rw [Nat.testBit_eq_decide_div_mod_eq]
          rcases Nat.mod_two_eq_zero_or_one (number / 2 ^ (shift + i)) with
            even | odd
          · simp [even]
          · simp [odd]
        rw [half, parity, Nat.shiftLeft_eq, Nat.mul_comm,
          ← Nat.two_pow_add_eq_or_of_lt (i := 1) (by omega), pow_one]
        exact Nat.div_add_mod _ 2
      have small : number / 2 ^ (shift + i) < 2 ^ 64 := by
        refine lt_of_le_of_lt ?_ fits
        exact Nat.div_le_div_left (Nat.pow_le_pow_right (by omega) (by omega)) (Nat.two_pow_pos _)
      rw [bit, next, Nat.mod_eq_of_lt small]
      exact induction

theorem dtTopBits_rep {number count : Nat} (enough : count ≤ number.size) (word : count ≤ 64) :
    dtTopBits (rep number) count = number / 2 ^ (number.size - count) := by
  have top := Nat.lt_size_self number
  have quotient : number / 2 ^ (number.size - count) < 2 ^ 64 := by
    rw [Nat.div_lt_iff_lt_mul (Nat.two_pow_pos _), ← pow_add]
    exact top.trans_le (Nat.pow_le_pow_right (by omega) (by omega))
  have none : number / 2 ^ (number.size - count + count) = 0 := by
    rw [Nat.sub_add_cancel enough]
    exact Nat.div_eq_of_lt top
  have loop := topBitsLoop_rep (number.size - count) count quotient
  rw [none, Int.ofNat_sub enough] at loop
  rw [dtTopBits, dtBitlen_rep]
  exact loop

theorem dtMulU32_of_lt {number m : Nat} (mPositive : 0 < m) (mBound : m < 2 ^ 32)
    (small : number * m < capacity) :
    dtMulU32 (rep number) m = rep (number * m) := by
  rw [dtMulU32_rep ((Nat.le_mul_of_pos_right _ mPositive).trans_lt small) mPositive
    mBound, big_of_lt small]

theorem dtMulPow5_rep (k : Nat) (small : number * 5 ^ k < capacity) :
    dtMulPow5 (rep number) k = rep (number * 5 ^ k) := by
  induction k using Nat.strongRecOn generalizing number with
  | ind k induction =>
      rw [dtMulPow5]
      by_cases large : k ≥ 13
      · have split : 5 ^ k = 5 ^ 13 * 5 ^ (k - 13) := by
          rw [← pow_add]
          congr 1
          omega
        rw [if_pos large]
        rw [split, ← Nat.mul_assoc] at small ⊢
        have first : dtMulU32 (rep number) (dtPow5Small.getD 13 0) = rep (number * 5 ^ 13) := by
          apply dtMulU32_of_lt (by decide) (by decide)
          exact (Nat.le_mul_of_pos_right _ (by positivity)).trans_lt small
        rw [first]
        exact induction (k - 13) (by omega) small
      · rw [if_neg large]
        by_cases positive : k > 0
        · have entry : dtPow5Small.getD k 0 = 5 ^ k := by
            interval_cases k <;> rfl
          rw [if_pos positive, entry]
          apply dtMulU32_of_lt (by positivity) _ small
          exact (Nat.pow_le_pow_right (by omega) (by omega : k ≤ 12)).trans_lt (by norm_num)
        · have zero : k = 0 := by omega
          rw [if_neg positive, zero, pow_zero, Nat.mul_one]

theorem dtMulTen_iterate (k : Nat) (small : number * 10 ^ k < capacity) :
    (fun b => dtMulU32 b 10)^[k] (rep number) = rep (number * 10 ^ k) := by
  induction k generalizing number with
  | zero => rw [Function.iterate_zero_apply, pow_zero, Nat.mul_one]
  | succ k induction =>
      have split : 10 ^ (k + 1) = 10 * 10 ^ k := by ring
      rw [split, ← Nat.mul_assoc] at small ⊢
      have first : dtMulU32 (rep number) 10 = rep (number * 10) := by
        apply dtMulU32_of_lt (by omega) (by omega)
        exact (Nat.le_mul_of_pos_right _ (by positivity)).trans_lt small
      rw [Function.iterate_succ_apply, first]
      exact induction small

theorem dtMulPow10_rep (k : Nat) (small : number * 10 ^ k < capacity) :
    dtMulPow10 (rep number) k = rep (number * 10 ^ k) := by
  induction k using Nat.strongRecOn generalizing number with
  | ind k induction =>
      rw [dtMulPow10]
      by_cases large : k ≥ 9
      · have split : 10 ^ k = 1000000000 * 10 ^ (k - 9) := by
          have : (1000000000 : Nat) = 10 ^ 9 := by norm_num
          rw [this, ← pow_add]
          congr 1
          omega
        rw [if_pos large]
        rw [split, ← Nat.mul_assoc] at small ⊢
        have first : dtMulU32 (rep number) 1000000000 = rep (number * 1000000000) := by
          apply dtMulU32_of_lt (by omega) (by omega)
          exact (Nat.le_mul_of_pos_right _ (by positivity)).trans_lt small
        rw [first]
        exact induction (k - 9) (by omega) small
      · rw [if_neg large]
        exact dtMulTen_iterate k small

theorem dtFromU64_rep {v : Nat} (small : v < 2 ^ 64) : dtFromU64 v = rep v := by
  have hiValue : (BitVec.ofNat 32 (v >>> 32)).toNat = v >>> 32 := by
    rw [BitVec.toNat_ofNat, Nat.shiftRight_eq_div_pow]
    omega
  have split := word_add_shift 32 v
  simp only [dtFromU64, rep]
  generalize BitVec.ofNat 32 v = lo at *
  generalize BitVec.ofNat 32 (v >>> 32) = hi at *
  rw [← hiValue] at split
  congr 1
  by_cases hiZero : hi = 0
  · subst hiZero
    have loValue : lo.toNat = v := by simpa using split
    by_cases loZero : lo = 0
    · subst loZero
      have zero : v = 0 := by simpa using loValue.symm
      rw [zero]
      simp [ofNat]
    · rw [if_neg (by simp), if_pos (by simpa using loZero)]
      apply eq_ofNat_of_value (by omega)
      · simpa using loValue
      · right
        have := toNat_pos_of_ne_zero loZero
        simp only [List.length_singleton, Nat.sub_self, pow_zero]
        omega
  · have loOrHi : lo ||| hi ≠ 0 := by
      intro zero
      exact hiZero (BitVec.or_eq_zero_iff.mp zero).2
    have hiPositive := toNat_pos_of_ne_zero hiZero
    rw [if_pos hiZero, if_pos loOrHi]
    apply eq_ofNat_of_value (by omega)
    · simpa using split
    · right
      simp only [List.cons_append, List.nil_append, List.length_cons, List.length_nil,
        Nat.add_sub_cancel]
      omega

end ClAmiga.Float
