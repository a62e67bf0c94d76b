import Mathlib

/-!
# Little-endian limb lists

A magnitude is a list of `w`-bit words, least significant first.  This file
gives such a list its value, bounds the value by the length, and isolates the
shape multi-word algorithms keep: a list is *trimmed* when only a single word
may be zero at the top.  Among trimmed lists a longer list denotes a larger
number, which is what lets a comparison start from the lengths.
-/

namespace ClAmiga.Radix

variable {w : Nat}

def value (limbs : List (BitVec w)) : Nat :=
  Nat.ofDigits (2 ^ w) (limbs.map BitVec.toNat)

@[simp] theorem value_nil : value ([] : List (BitVec w)) = 0 := rfl

@[simp] theorem value_cons (limb : BitVec w) (limbs : List (BitVec w)) :
    value (limb :: limbs) = limb.toNat + 2 ^ w * value limbs := by
  simp [value, Nat.ofDigits_cons]

theorem word_add_shift (w sum : Nat) : (BitVec.ofNat w sum).toNat + 2 ^ w * (sum >>> w) = sum := by
  rw [BitVec.toNat_ofNat, Nat.shiftRight_eq_div_pow]
  exact Nat.mod_add_div sum (2 ^ w)

/-- One step of a loop that writes a word of a sum and carries the rest on. -/
theorem value_carry {sum last next count : Nat} {rest : List (BitVec w)}
    (denotes : value rest + (2 ^ w) ^ count * last = next + sum >>> w) :
    value (BitVec.ofNat w sum :: rest) + (2 ^ w) ^ (count + 1) * last = sum + 2 ^ w * next := by
  rw [value_cons, pow_succ]
  calc
    _ = (BitVec.ofNat w sum).toNat + 2 ^ w * (value rest + (2 ^ w) ^ count * last) := by ring
    _ = (BitVec.ofNat w sum).toNat + 2 ^ w * (sum >>> w) + 2 ^ w * next := by
      rw [denotes]
      ring
    _ = sum + 2 ^ w * next := by rw [word_add_shift]

theorem value_append (low high : List (BitVec w)) :
    value (low ++ high) = value low + (2 ^ w) ^ low.length * value high := by
  simp [value, Nat.ofDigits_append]

@[simp] theorem value_replicate_zero (count : Nat) :
    value (List.replicate count (0 : BitVec w)) = 0 := by
  induction count with
  | zero => rfl
  | succ count induction => simpa [List.replicate_succ] using induction

theorem value_lt (limbs : List (BitVec w)) : value limbs < (2 ^ w) ^ limbs.length := by
  induction limbs with
  | nil => simp
  | cons limb limbs induction =>
      have limbBound := limb.isLt
      rw [value_cons, List.length_cons, pow_succ]
      calc
        limb.toNat + 2 ^ w * value limbs
            < 2 ^ w + 2 ^ w * value limbs := by omega
        _ = 2 ^ w * (value limbs + 1) := by ring
        _ ≤ 2 ^ w * (2 ^ w) ^ limbs.length :=
          Nat.mul_le_mul_left _ induction
        _ = (2 ^ w) ^ limbs.length * 2 ^ w := Nat.mul_comm _ _

theorem value_take_add_drop (limbs : List (BitVec w)) (count : Nat) (bound : count ≤ limbs.length) :
    value limbs = value (limbs.take count) + (2 ^ w) ^ count * value (limbs.drop count) := by
  conv_lhs => rw [← List.take_append_drop count limbs]
  rw [value_append, List.length_take, Nat.min_eq_left bound]

theorem eq_of_value_eq {left right : List (BitVec w)} (sameLength : left.length = right.length)
    (sameValue : value left = value right) : left = right := by
  induction left generalizing right with
  | nil =>
      have rightNil : right = [] :=
        List.eq_nil_of_length_eq_zero sameLength.symm
      rw [rightNil]
  | cons limb limbs induction =>
      cases right with
      | nil => simp at sameLength
      | cons other others =>
          simp only [value_cons] at sameValue
          have positive : 0 < 2 ^ w := Nat.two_pow_pos w
          have lowEquality : limb.toNat = other.toNat := by
            have residues := congrArg (· % 2 ^ w) sameValue
            simpa [Nat.add_mul_mod_self_left, Nat.mod_eq_of_lt limb.isLt,
              Nat.mod_eq_of_lt other.isLt] using residues
          have highEquality : value limbs = value others := by
            have scaled : 2 ^ w * value limbs = 2 ^ w * value others := by
              omega
            exact Nat.eq_of_mul_eq_mul_left positive scaled
          have tailEquality :=
            induction (by simpa using sameLength) highEquality
          rw [BitVec.eq_of_toNat_eq lowEquality, tailEquality]

theorem toNat_pos_of_ne_zero {limb : BitVec w} (nonzero : limb ≠ 0) : 0 < limb.toNat := by
  apply Nat.pos_of_ne_zero
  intro zero
  exact nonzero (BitVec.eq_of_toNat_eq (by simpa using zero))

/-- At least one word, and no zero word at the top unless it is the only
word. -/
def Trimmed (limbs : List (BitVec w)) : Prop :=
  ∃ low top, limbs = low ++ [top] ∧ (low = [] ∨ top ≠ 0)

/-- A trimmed list whose top word is not zero. -/
def Normalized (limbs : List (BitVec w)) : Prop :=
  ∃ low top, limbs = low ++ [top] ∧ top ≠ 0

variable {limbs : List (BitVec w)}

theorem Normalized.trimmed (normalized : Normalized limbs) : Trimmed limbs := by
  obtain ⟨low, top, shape, nonzero⟩ := normalized
  exact ⟨low, top, shape, Or.inr nonzero⟩

theorem trimmed_singleton (limb : BitVec w) : Trimmed [limb] :=
  ⟨[], limb, rfl, Or.inl rfl⟩

theorem Trimmed.ne_nil (trimmed : Trimmed limbs) : limbs ≠ [] := by
  obtain ⟨low, top, rfl, _⟩ := trimmed
  simp

theorem Trimmed.length_pos (trimmed : Trimmed limbs) : 0 < limbs.length :=
  List.length_pos_of_ne_nil trimmed.ne_nil

theorem Normalized.value_ge (normalized : Normalized limbs) :
    (2 ^ w) ^ (limbs.length - 1) ≤ value limbs := by
  obtain ⟨low, top, rfl, nonzero⟩ := normalized
  have topPositive : 1 ≤ top.toNat := toNat_pos_of_ne_zero nonzero
  rw [value_append]
  simp only [List.length_append, List.length_singleton, Nat.add_sub_cancel,
    value_cons, value_nil, Nat.mul_zero, Nat.add_zero]
  calc
    (2 ^ w) ^ low.length = (2 ^ w) ^ low.length * 1 := by ring
    _ ≤ (2 ^ w) ^ low.length * top.toNat :=
      Nat.mul_le_mul_left _ topPositive
    _ ≤ value low + (2 ^ w) ^ low.length * top.toNat := by omega

theorem Normalized.value_pos (normalized : Normalized limbs) : 0 < value limbs :=
  lt_of_lt_of_le (Nat.pow_pos (Nat.two_pow_pos w)) normalized.value_ge

theorem Normalized.top_pos (normalized : Normalized limbs) :
    0 < (limbs.getD (limbs.length - 1) 0).toNat := by
  obtain ⟨low, top, rfl, nonzero⟩ := normalized
  simpa [List.getD_eq_getElem?_getD] using toNat_pos_of_ne_zero nonzero

theorem Trimmed.normalized_of_two_le (trimmed : Trimmed limbs) (long : 2 ≤ limbs.length) :
    Normalized limbs := by
  obtain ⟨low, top, rfl, emptyOrNonzero⟩ := trimmed
  rcases emptyOrNonzero with rfl | nonzero
  · simp at long
  · exact ⟨low, top, rfl, nonzero⟩

theorem Trimmed.normalized_of_value_pos (trimmed : Trimmed limbs) (positive : 0 < value limbs) :
    Normalized limbs := by
  obtain ⟨low, top, rfl, emptyOrNonzero⟩ := trimmed
  rcases emptyOrNonzero with rfl | nonzero
  · refine ⟨[], top, rfl, ?_⟩
    intro zero
    simp [zero] at positive
  · exact ⟨low, top, rfl, nonzero⟩

/-- Among trimmed lists the longer one denotes the larger number. -/
theorem Trimmed.value_lt_of_length_lt {short long : List (BitVec w)}
    (shortTrimmed : Trimmed short) (longTrimmed : Trimmed long)
    (shorter : short.length < long.length) : value short < value long := by
  have shortPositive := shortTrimmed.length_pos
  have longNormalized : Normalized long :=
    longTrimmed.normalized_of_two_le (by omega)
  calc
    value short < (2 ^ w) ^ short.length := value_lt short
    _ ≤ (2 ^ w) ^ (long.length - 1) :=
      Nat.pow_le_pow_right (Nat.two_pow_pos w) (by omega)
    _ ≤ value long := longNormalized.value_ge

theorem Trimmed.eq_of_value_eq {left right : List (BitVec w)}
    (leftTrimmed : Trimmed left) (rightTrimmed : Trimmed right)
    (sameValue : value left = value right) : left = right := by
  rcases Nat.lt_trichotomy left.length right.length with
    shorter | sameLength | longer
  · have := leftTrimmed.value_lt_of_length_lt rightTrimmed shorter
    omega
  · exact Radix.eq_of_value_eq sameLength sameValue
  · have := rightTrimmed.value_lt_of_length_lt leftTrimmed longer
    omega

/-- The length that remains after the zero words at the top are dropped, the
lowest word always being kept. -/
def stripLength (limbs : List (BitVec w)) : Nat → Nat
  | 0 => 0
  | 1 => 1
  | length + 2 =>
      if limbs.getD (length + 1) 0 = 0 then stripLength limbs (length + 1)
      else length + 2

/-- Drop the zero words at the top, keeping the lowest word. -/
def strip (limbs : List (BitVec w)) : List (BitVec w) :=
  limbs.take (stripLength limbs limbs.length)

theorem take_succ_eq_append_getD (limbs : List (BitVec w)) (index : Nat)
    (bound : index < limbs.length) :
    limbs.take (index + 1) = limbs.take index ++ [limbs.getD index 0] := by
  rw [List.take_add_one, List.getElem?_eq_getElem bound]
  simp [List.getD_eq_getElem?_getD, List.getElem?_eq_getElem bound]

theorem value_take_stripLength (limbs : List (BitVec w)) (length : Nat)
    (bound : length ≤ limbs.length) :
    value (limbs.take (stripLength limbs length)) = value (limbs.take length) := by
  fun_induction stripLength limbs length with
  | case1 => rfl
  | case2 => rfl
  | case3 length zero induction =>
      rw [induction (by omega), take_succ_eq_append_getD limbs (length + 1) (by omega), zero,
        value_append]
      simp
  | case4 length nonzero => rfl

theorem trimmed_take_stripLength (limbs : List (BitVec w)) (length : Nat)
    (positive : 0 < length) (bound : length ≤ limbs.length) :
    Trimmed (limbs.take (stripLength limbs length)) := by
  fun_induction stripLength limbs length with
  | case1 => omega
  | case2 =>
      rw [take_succ_eq_append_getD limbs 0 (by omega)]
      exact trimmed_singleton _
  | case3 length zero induction => exact induction (by omega) (by omega)
  | case4 length nonzero =>
      rw [take_succ_eq_append_getD limbs (length + 1) (by omega)]
      exact ⟨_, _, rfl, Or.inr nonzero⟩

@[simp] theorem value_strip (limbs : List (BitVec w)) :
    value (strip limbs) = value limbs := by
  rw [strip, value_take_stripLength limbs _ le_rfl, List.take_length]

theorem trimmed_strip (nonempty : limbs ≠ []) : Trimmed (strip limbs) :=
  trimmed_take_stripLength limbs _ (List.length_pos_of_ne_nil nonempty) le_rfl

/-- The words of a number, without a zero word at the top. -/
def ofNat (w : Nat) (number : Nat) : List (BitVec w) :=
  (Nat.digits (2 ^ w) number).map (BitVec.ofNat w)

@[simp] theorem value_ofNat (positive : 0 < w) (number : Nat) :
    value (ofNat w number) = number := by
  have wide : 1 < 2 ^ w := Nat.one_lt_two_pow (by omega)
  have digitsFit : ((Nat.digits (2 ^ w) number).map (BitVec.ofNat w)).map
      BitVec.toNat = Nat.digits (2 ^ w) number := by
    rw [List.map_map]
    conv_rhs => rw [← List.map_id (Nat.digits (2 ^ w) number)]
    apply List.map_congr_left
    intro digit member
    simp [Nat.mod_eq_of_lt (Nat.digits_lt_base wide member)]
  rw [value, ofNat, digitsFit, Nat.ofDigits_digits]

theorem normalized_ofNat (positive : 0 < w) {number : Nat}
    (nonzero : number ≠ 0) : Normalized (ofNat w number) := by
  have wide : 1 < 2 ^ w := Nat.one_lt_two_pow (by omega)
  have digitsNonempty : Nat.digits (2 ^ w) number ≠ [] :=
    Nat.digits_ne_nil_iff_ne_zero.mpr nonzero
  have topNonzero := Nat.getLast_digit_ne_zero (2 ^ w) nonzero
  have topFits := Nat.digits_lt_base wide (List.getLast_mem digitsNonempty)
  refine ⟨((Nat.digits (2 ^ w) number).dropLast).map (BitVec.ofNat w),
    BitVec.ofNat w ((Nat.digits (2 ^ w) number).getLast digitsNonempty),
    ?_, ?_⟩
  · rw [ofNat]
    conv_lhs => rw [← List.dropLast_append_getLast digitsNonempty]
    simp
  · intro zero
    have topZero := congrArg BitVec.toNat zero
    simp [Nat.mod_eq_of_lt topFits] at topZero
    exact topNonzero topZero

theorem Normalized.eq_ofNat (positive : 0 < w)
    (normalized : Normalized limbs) : limbs = ofNat w (value limbs) := by
  have nonzero : value limbs ≠ 0 := normalized.value_pos.ne'
  exact normalized.trimmed.eq_of_value_eq (normalized_ofNat positive nonzero).trimmed
    (value_ofNat positive _).symm

theorem normalized_of_le_value (nonempty : limbs ≠ [])
    (large : (2 ^ w) ^ (limbs.length - 1) ≤ value limbs) : Normalized limbs := by
  obtain ⟨low, top, shape⟩ := (List.eq_nil_or_concat limbs).resolve_left nonempty
  rw [List.concat_eq_append] at shape
  subst shape
  refine ⟨low, top, rfl, ?_⟩
  rintro rfl
  have bound := value_lt low
  rw [value_append] at large
  simp only [List.length_append, List.length_singleton, Nat.add_sub_cancel,
    value_cons, value_nil, BitVec.toNat_zero, Nat.mul_zero, Nat.add_zero,
    BitVec.ofNat_eq_ofNat] at large
  omega

/-- A list is the list of its number as soon as the number is too large for a
shorter one. -/
theorem eq_ofNat_of_value (positive : 0 < w) {number : Nat} (denotes : value limbs = number)
    (large : limbs = [] ∨ (2 ^ w) ^ (limbs.length - 1) ≤ number) :
    limbs = ofNat w number := by
  subst denotes
  by_cases empty : limbs = []
  · subst empty
    simp [ofNat]
  · exact (normalized_of_le_value empty (large.resolve_left empty)).eq_ofNat positive

theorem length_ofNat_le_iff (positive : 0 < w) (number count : Nat) :
    (ofNat w number).length ≤ count ↔ number < (2 ^ w) ^ count := by
  constructor
  · intro short
    have bound := value_lt (ofNat w number)
    rw [value_ofNat positive] at bound
    exact bound.trans_le (Nat.pow_le_pow_right (Nat.two_pow_pos w) short)
  · intro small
    by_cases zero : number = 0
    · subst zero
      simp [ofNat]
    · have atLeast := (normalized_ofNat positive zero).value_ge
      rw [value_ofNat positive] at atLeast
      have wide : 1 < 2 ^ w := Nat.one_lt_two_pow (by omega)
      have smaller := (Nat.pow_lt_pow_iff_right wide).mp (atLeast.trans_lt small)
      omega

theorem ofNat_ne_nil (positive : 0 < w) {number : Nat} (nonzero : number ≠ 0) :
    ofNat w number ≠ [] :=
  (normalized_ofNat positive nonzero).trimmed.ne_nil

def compareDown : List (BitVec w) → List (BitVec w) → Ordering
  | left :: lefts, right :: rights =>
      if left ≠ right then
        if left > right then .gt else .lt
      else compareDown lefts rights
  | _, _ => .eq

/-- Compare lengths first, then words from the top. -/
def compareLimbs (left right : List (BitVec w)) : Ordering :=
  if left.length ≠ right.length then
    if left.length > right.length then .gt else .lt
  else compareDown left.reverse right.reverse

theorem compareDown_eq (left right : List (BitVec w)) (sameLength : left.length = right.length) :
    compareDown left right = compare (value left.reverse) (value right.reverse) := by
  induction left generalizing right with
  | nil =>
      have rightNil : right = [] :=
        List.eq_nil_of_length_eq_zero sameLength.symm
      simp [rightNil, compareDown]
  | cons limb limbs induction =>
      cases right with
      | nil => simp at sameLength
      | cons other others =>
          have tailLength : limbs.length = others.length := by
            simpa using sameLength
          have limbsBound := value_lt limbs.reverse
          have othersBound := value_lt others.reverse
          simp only [List.length_reverse] at limbsBound othersBound
          rw [← tailLength] at othersBound
          simp only [compareDown, List.reverse_cons, value_append,
            List.length_reverse, value_cons, value_nil, Nat.mul_zero,
            Nat.add_zero, ← tailLength]
          have outweighs : ∀ small large : Nat, small < large →
              (2 ^ w) ^ limbs.length * small + (2 ^ w) ^ limbs.length ≤
                (2 ^ w) ^ limbs.length * large := by
            intro small large smaller
            calc
              (2 ^ w) ^ limbs.length * small + (2 ^ w) ^ limbs.length =
                  (2 ^ w) ^ limbs.length * (small + 1) := by ring
              _ ≤ (2 ^ w) ^ limbs.length * large :=
                Nat.mul_le_mul_left _ smaller
          by_cases same : limb = other
          · subst other
            rw [if_neg (by simp), induction others tailLength]
            rcases Nat.lt_trichotomy (value limbs.reverse)
                (value others.reverse) with less | equal | greater
            · rw [Nat.compare_eq_lt.mpr less, Nat.compare_eq_lt.mpr (by omega)]
            · rw [equal]
              simp
            · rw [Nat.compare_eq_gt.mpr greater, Nat.compare_eq_gt.mpr (by omega)]
          · rw [if_pos same]
            by_cases greater : limb > other
            · have wordGreater : other.toNat < limb.toNat := greater
              have := outweighs _ _ wordGreater
              rw [if_pos greater, Nat.compare_eq_gt.mpr (by omega)]
            · have wordLess : limb.toNat < other.toNat := by
                have different : limb.toNat ≠ other.toNat :=
                  fun equality => same (BitVec.eq_of_toNat_eq equality)
                have notGreater : ¬ other.toNat < limb.toNat := greater
                omega
              have := outweighs _ _ wordLess
              rw [if_neg greater, Nat.compare_eq_lt.mpr (by omega)]

/-- On trimmed lists the comparison by length and then by words is the
comparison of the numbers. -/
theorem compareLimbs_eq {left right : List (BitVec w)}
    (leftTrimmed : Trimmed left) (rightTrimmed : Trimmed right) :
    compareLimbs left right = compare (value left) (value right) := by
  unfold compareLimbs
  by_cases sameLength : left.length = right.length
  · rw [if_neg (by simpa using sameLength),
      compareDown_eq _ _ (by simpa using sameLength)]
    simp
  · rw [if_pos sameLength]
    by_cases longer : left.length > right.length
    · have := rightTrimmed.value_lt_of_length_lt leftTrimmed longer
      rw [if_pos longer, Nat.compare_eq_gt.mpr this]
    · have := leftTrimmed.value_lt_of_length_lt rightTrimmed (by omega)
      rw [if_neg longer, Nat.compare_eq_lt.mpr this]

end ClAmiga.Radix
