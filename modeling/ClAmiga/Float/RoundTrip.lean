import ClAmiga.Float.ParseSpec
import ClAmiga.Float.Layout

/-!
# Printing and reading a float

A float laid out by `cl_float_shortest_g` or `cl_float_fixed_shortest` and
parsed at its own precision is the float again, for every finite nonzero bit
pattern of both precisions.
-/

namespace ClAmiga.Float

open Radix

/-- The text is a token that denotes `0.digits * 10 ^ k`. -/
def LaysOut (text : List Char) (digits : List Nat) (k : Int) : Prop :=
  ∃ token : Token, token.text = text ∧ token.Readable ∧ token.value = decimal digits k

theorem decimalValue_replicate_zero (count : Nat) : decimalValue (List.replicate count 0) = 0 := by
  induction count with
  | zero => rfl
  | succ count induction =>
      rw [List.replicate_succ', decimalValue_concat, induction]

theorem small_replicate_zero (count : Nat) : ∀ d ∈ List.replicate count 0, d ≤ 9 := by
  intro d member
  rw [List.eq_of_mem_replicate member]
  omega

theorem small_append {left right : List Nat} (leftSmall : ∀ d ∈ left, d ≤ 9)
    (rightSmall : ∀ d ∈ right, d ≤ 9) : ∀ d ∈ left ++ right, d ≤ 9 := by
  intro d member
  rcases List.mem_append.mp member with inLeft | inRight
  · exact leftSmall d inLeft
  · exact rightSmall d inRight

theorem decimal_shift {digits padded : List Nat} {k e : Int} (count : Nat)
    (value : decimalValue padded = decimalValue digits * 10 ^ count)
    (exponent : e + count = k - digits.length) :
    (decimalValue padded : ℚ) * 10 ^ e = decimal digits k := by
  unfold decimal
  rw [value, ← exponent, zpow_add₀ (by norm_num), zpow_natCast]
  push_cast
  ring

variable {digits : List Nat} {precision : Precision}

theorem leadingZeros_laysOut {zeros : Nat} {k : Int}
    (small : ∀ d ∈ digits, d ≤ 9) (few : zeros + digits.length < 500)
    (exponent : k = -(zeros : Int)) :
    LaysOut (leadingZeros zeros digits) digits k := by
  refine ⟨⟨[0], some (List.replicate zeros 0 ++ digits), none⟩, ?_, ⟨?_, ?_, ?_, ?_⟩, ?_⟩
  · have zero : digitChar 0 = '0' := rfl
    simp [Token.text, fractionText, exponentText, leadingZeros, zero]
  · simp
  · exact small_append (small_replicate_zero 1) (small_append (small_replicate_zero zeros) small)
  · simp only [Token.digits, Option.getD_some, List.length_append, List.length_replicate,
      List.length_singleton, dtMaxSigDigits]
    omega
  · simp
  · have value : decimalValue ([0] ++ (List.replicate zeros 0 ++ digits)) =
        decimalValue digits * 10 ^ 0 := by
      rw [decimalValue_append, decimalValue_append, decimalValue_replicate_zero]
      simp [decimalValue]
    apply decimal_shift _ value
    simp only [exponentValue, Option.getD_some, List.length_append, List.length_replicate, exponent]
    push_cast
    ring

theorem exponentDigits_digits (ed e : Nat) :
    ∃ digits, exponentDigits ed e = digits.map digitChar ∧ (∀ d ∈ digits, d ≤ 9) ∧
      digits.length = ed ∧ decimalValue digits = e % 10 ^ ed := by
  induction ed generalizing e with
  | zero => exact ⟨[], rfl, by simp, rfl, by simp [decimalValue, Nat.mod_one]⟩
  | succ ed induction =>
      obtain ⟨digits, text, small, length, value⟩ := induction (e / 10)
      refine ⟨digits ++ [e % 10], ?_, small_append small ?_, ?_, ?_⟩
      · rw [exponentDigits, text, List.map_append]
        rfl
      · intro d member
        rw [List.mem_singleton.mp member]
        omega
      · rw [List.length_append, length, List.length_singleton]
      · have radixStep : 10 ^ (ed + 1) = 10 * 10 ^ ed := by ring
        rw [decimalValue_concat, value, radixStep, Nat.mod_mul]
        omega

theorem scientific_laysOut {X : Int} (nonempty : digits ≠ [])
    (small : ∀ d ∈ digits, d ≤ 9) (few : digits.length ≤ 17) (range : X.natAbs < 1000) :
    LaysOut (scientific digits X) digits (X + 1) := by
  obtain ⟨first, rest, rfl⟩ := List.exists_cons_of_ne_nil nonempty
  obtain ⟨expDigits, text, expSmall, expLength, expValue⟩ :=
    exponentDigits_digits (if X.natAbs ≥ 100 then 3 else 2) X.natAbs
  have expValue' : decimalValue expDigits = X.natAbs := by
    rw [expValue]
    split <;> omega
  have expNonempty : expDigits ≠ [] := by
    intro empty
    rw [empty] at expLength
    split at expLength <;> simp at expLength
  have exponent : exponentValue (some (decide (X < 0), expDigits)) = X := by
    simp only [exponentValue, expValue', decide_eq_true_eq]
    split <;> omega
  have fractionDigits : (if rest = [] then none else some rest).getD [] = rest := by
    split
    · rename_i empty
      rw [empty]
      rfl
    · rfl
  refine ⟨⟨[first], if rest = [] then none else some rest,
    some (decide (X < 0), expDigits)⟩, ?_, ⟨?_, ?_, ?_, ?_⟩, ?_⟩
  · simp only [Token.text, scientific, text, exponentText]
    cases rest with
    | nil => simp [fractionText]
    | cons second rest => simp [fractionText]
  · simp
  · simp only [Token.digits, fractionDigits]
    exact small
  · simp only [Token.digits, fractionDigits, dtMaxSigDigits, List.singleton_append]
    omega
  · intro negative expDigits' equal
    cases equal
    exact ⟨expNonempty, expSmall, by omega⟩
  · simp only [Token.value, Token.digits, fractionDigits, exponent]
    apply decimal_shift 0
    · simp
    · rw [List.length_cons]
      push_cast
      ring

theorem pointLoop_eq (digits : List Nat) (total point : Nat) : pointLoop digits total point =
      (((List.range total).map (digits.getD · 0)).take point).map digitChar ++
        (if point < total then
          '.' :: (((List.range total).map (digits.getD · 0)).drop point).map digitChar
        else []) := by
  unfold pointLoop
  induction total with
  | zero => simp
  | succ total induction =>
      rw [List.range_succ, List.flatMap_append, induction, List.map_append, List.map_cons,
        List.map_nil]
      have length : ((List.range total).map (digits.getD · 0)).length = total := by simp
      generalize (List.range total).map (digits.getD · 0) = padded at *
      rcases Nat.lt_trichotomy point total with less | equal | greater
      · rw [if_pos less, if_pos (by omega), List.take_append_of_le_length (by omega),
          List.drop_append_of_le_length (by omega)]
        simp [less.ne']
      · subst equal
        simp [← length]
      · rw [if_neg (by omega), if_neg (by omega), List.take_of_length_le (by omega),
          List.take_of_length_le (by simp; omega)]
        simp [greater.ne]

theorem padded_eq {total : Nat} (le : digits.length ≤ total) :
    (List.range total).map (digits.getD · 0) =
      digits ++ List.replicate (total - digits.length) 0 := by
  apply List.ext_getElem
  · simp only [List.length_map, List.length_range, List.length_append, List.length_replicate]
    omega
  · intro i low high
    rw [List.getElem_map, List.getElem_range]
    by_cases inside : i < digits.length
    · rw [List.getElem_append_left inside, List.getD_eq_getElem _ _ inside]
    · rw [List.getElem_append_right (by omega), List.getElem_replicate,
        List.getD_eq_default _ _ (by omega)]

theorem pointLoop_laysOut (total point : Nat)
    (small : ∀ d ∈ digits, d ≤ 9) (le : digits.length ≤ total) (few : total < 500)
    (inside : point ≤ total) (positive : 0 < point) :
    LaysOut (pointLoop digits total point) digits point := by
  rw [pointLoop_eq, padded_eq le]
  have length : (digits ++ List.replicate (total - digits.length) 0).length = total := by
    rw [List.length_append, List.length_replicate]
    omega
  have paddedSmall := small_append small (small_replicate_zero (total - digits.length))
  have value : decimalValue (digits ++ List.replicate (total - digits.length) 0) =
      decimalValue digits * 10 ^ (total - digits.length) := by
    rw [decimalValue_append, decimalValue_replicate_zero, List.length_replicate, Nat.add_zero]
  generalize digits ++ List.replicate (total - digits.length) 0 = padded at *
  have fractionDigits : (if point < total then some (padded.drop point) else none).getD [] =
      padded.drop point := by
    split
    · rfl
    · rw [List.drop_of_length_le (by omega)]
      rfl
  refine ⟨⟨padded.take point, if point < total then some (padded.drop point) else none,
    none⟩, ?_, ⟨?_, ?_, ?_, ?_⟩, ?_⟩
  · simp only [Token.text, exponentText, List.append_nil]
    split <;> rfl
  · intro empty
    have := congrArg List.length empty
    rw [List.length_take, List.length_nil] at this
    omega
  · simp only [Token.digits, fractionDigits, List.take_append_drop]
    exact paddedSmall
  · simp only [Token.digits, fractionDigits, List.take_append_drop, dtMaxSigDigits]
    omega
  · simp
  · simp only [Token.value, Token.digits, fractionDigits, List.take_append_drop]
    apply decimal_shift _ value
    simp only [exponentValue, List.length_drop]
    omega

theorem layoutG_laysOut (floorp : Nat) {k : Int}
    (nonempty : digits ≠ []) (small : ∀ d ∈ digits, d ≤ 9) (few : digits.length ≤ 17)
    (floorFew : floorp ≤ 17) (low : -400 ≤ k) (high : k ≤ 400) :
    LaysOut (layoutG floorp digits k) digits k := by
  have lengthPositive := List.length_pos_iff.mpr nonempty
  unfold layoutG
  dsimp only
  generalize precision : (if digits.length > floorp then digits.length else floorp) = P
  have pFew : P ≤ 17 := by
    rw [← precision]
    split <;> omega
  by_cases far : k - 1 < -4 ∨ k - 1 ≥ P
  · have laysOut := scientific_laysOut (X := k - 1) nonempty small few (by omega)
    rw [sub_add_cancel] at laysOut
    rw [if_pos far]
    exact laysOut
  · rw [if_neg far]
    by_cases nonneg : k - 1 ≥ 0
    · rw [if_pos nonneg]
      have point : ((k - 1 + 1).toNat : Int) = k := by omega
      have laysOut := pointLoop_laysOut (max digits.length (k - 1 + 1).toNat) (k - 1 + 1).toNat
        small (by omega) (by omega) (by omega) (by omega)
      rw [point] at laysOut
      exact laysOut
    · rw [if_neg nonneg]
      exact leadingZeros_laysOut small (by omega) (by omega)

theorem layoutFixed_laysOut {k : Int} (nonempty : digits ≠ [])
    (small : ∀ d ∈ digits, d ≤ 9) (few : digits.length ≤ 17) (low : -400 ≤ k)
    (high : k ≤ 400) : LaysOut (layoutFixed digits k) digits k := by
  have lengthPositive := List.length_pos_iff.mpr nonempty
  unfold layoutFixed
  dsimp only
  by_cases nonpos : k ≤ 0
  · rw [if_pos nonpos]
    exact leadingZeros_laysOut small (by omega) (by omega)
  · rw [if_neg nonpos]
    by_cases right : k ≥ digits.length
    · rw [if_pos right]
      refine ⟨⟨digits ++ List.replicate (k.toNat - digits.length) 0, some [0], none⟩, ?_,
        ⟨?_, ?_, ?_, ?_⟩, ?_⟩
      · have zero : digitChar 0 = '0' := rfl
        simp [Token.text, fractionText, exponentText, zero]
      · simp [nonempty]
      · exact small_append (small_append small (small_replicate_zero _)) (small_replicate_zero 1)
      · simp only [Token.digits, Option.getD_some, List.length_append,
          List.length_replicate, List.length_singleton, dtMaxSigDigits]
        omega
      · simp
      · have value : decimalValue ((digits ++ List.replicate (k.toNat - digits.length) 0) ++
            [0]) = decimalValue digits * 10 ^ (k.toNat - digits.length + 1) := by
          have radixStep : 10 ^ (k.toNat - digits.length + 1) =
              10 * 10 ^ (k.toNat - digits.length) := by ring
          rw [decimalValue_concat, decimalValue_append, decimalValue_replicate_zero,
            List.length_replicate, radixStep]
          ring
        apply decimal_shift _ value
        simp only [exponentValue, Option.getD_some, List.length_singleton]
        omega
    · rw [if_neg right]
      have point : (k.toNat : Int) = k := by omega
      have laysOut := pointLoop_laysOut digits.length k.toNat small
        le_rfl (by omega) (by omega) (by omega)
      rw [point] at laysOut
      exact laysOut

theorem length_exponentDigits (ed e : Nat) : (exponentDigits ed e).length = ed := by
  induction ed generalizing e with
  | zero => rfl
  | succ ed induction => simp [exponentDigits, induction]

theorem length_pointLoop (digits : List Nat) (total point : Nat) :
    (pointLoop digits total point).length ≤ total + 1 := by
  rw [pointLoop_eq]
  have length : ((List.range total).map (digits.getD · 0)).length = total := by simp
  generalize (List.range total).map (digits.getD · 0) = padded at *
  split <;> simp only [List.length_append, List.length_map, List.length_take,
    List.length_cons, List.length_drop, List.length_nil] <;> omega

theorem length_leadingZeros (zeros : Nat) (digits : List Nat) :
    (leadingZeros zeros digits).length = zeros + digits.length + 2 := by
  simp only [leadingZeros, List.length_append, List.length_cons, List.length_nil,
    List.length_replicate, List.length_map]
  omega

theorem length_layoutG {floorp : Nat} {k : Int}
    (few : digits.length ≤ 17) (floorFew : floorp ≤ 17) :
    (layoutG floorp digits k).length ≤ 24 := by
  unfold layoutG
  dsimp only
  generalize precision : (if digits.length > floorp then digits.length else floorp) = P
  have pFew : P ≤ 17 := by
    rw [← precision]
    split <;> omega
  by_cases far : k - 1 < -4 ∨ k - 1 ≥ P
  · rw [if_pos far]
    unfold scientific
    simp only [List.length_append, length_exponentDigits, List.length_cons, List.length_nil]
    split <;> split <;> simp only [List.length_cons, List.length_map, List.length_tail,
      List.length_nil] <;> omega
  · rw [if_neg far]
    by_cases nonneg : k - 1 ≥ 0
    · rw [if_pos nonneg]
      have := length_pointLoop digits (max digits.length (k - 1 + 1).toNat) (k - 1 + 1).toNat
      omega
    · rw [if_neg nonneg, length_leadingZeros]
      omega

theorem length_layoutFixed {k : Int} (few : digits.length ≤ 17)
    (low : -325 ≤ k) (high : k ≤ 325) : (layoutFixed digits k).length ≤ 345 := by
  unfold layoutFixed
  dsimp only
  by_cases nonpos : k ≤ 0
  · rw [if_pos nonpos, length_leadingZeros]
    omega
  · rw [if_neg nonpos]
    by_cases right : k ≥ digits.length
    · rw [if_pos right]
      simp only [List.length_append, List.length_map, List.length_replicate,
        List.length_cons, List.length_nil]
      omega
    · rw [if_neg right]
      have := length_pointLoop digits digits.length k.toNat
      omega

/-- `width` bits, the sign among them. -/
def Precision.width : Precision → Nat
  | .double => 64
  | .single => 32

structure Decoded (t : DtTarget) (magnitude f : Nat) (e : Int) (unequal : Bool) :
    Prop where
  positive : 0 < f
  fits : f < 2 ^ t.mantBits
  low : t.eminSub ≤ e
  normal : e = t.eminSub ∨ 2 ^ t.mantShift ≤ f
  gap : unequal = true ↔ f = 2 ^ t.mantShift ∧ t.eminSub < e
  code : t.format.code f e = magnitude
  finite : t.format.code f e < t.infinity

theorem or_high {x k : Nat} (small : x < 2 ^ k) : x ||| 2 ^ k = 2 ^ k + x := by
  have split := Nat.two_pow_add_eq_or_of_lt small 1
  rw [Nat.mul_one, Nat.or_comm] at split
  exact split.symm

theorem decoded_of_fields {t : DtTarget} (sound : t.Sound) {magnitude mant expf : Nat}
    (mantSmall : mant < 2 ^ t.mantShift) (finite : expf ≤ 2 * t.bias)
    (magnitudeEq : magnitude = mant + 2 ^ t.mantShift * expf) (nonzero : magnitude ≠ 0)
    {parts : Nat × Int × Bool}
    (partsEq : parts = if expf = 0 then (mant, t.eminSub, false)
      else (2 ^ t.mantShift + mant, t.eminSub + (expf - 1 : Nat),
        decide (mant = 0 ∧ expf > 1))) :
    Decoded t magnitude parts.1 parts.2.1 parts.2.2 := by
  have infinityEq : t.infinity = (2 * t.bias + 1) * 2 ^ t.mantShift := by
    rw [DtTarget.infinity, Nat.shiftLeft_eq]
  have double : 2 ^ t.mantBits = 2 * 2 ^ t.mantShift := by
    rw [sound.shift]
    ring
  have codeEq : ∀ f u, t.format.code f u = f + (u - t.eminSub).toNat * 2 ^ t.mantShift := by
    intro f u
    simp only [Format.code, DtTarget.format, sound.shift, Nat.add_sub_cancel]
  have below : mant + 2 ^ t.mantShift * expf < (2 * t.bias + 1) * 2 ^ t.mantShift :=
    calc
      mant + 2 ^ t.mantShift * expf < 2 ^ t.mantShift + 2 ^ t.mantShift * expf := by omega
      _ = (expf + 1) * 2 ^ t.mantShift := by ring
      _ ≤ (2 * t.bias + 1) * 2 ^ t.mantShift := Nat.mul_le_mul_right _ (by omega)
  subst partsEq
  subst magnitudeEq
  by_cases subnormal : expf = 0
  · rw [subnormal, Nat.mul_zero, Nat.add_zero] at below nonzero ⊢
    rw [if_pos rfl]
    have sameCode : t.format.code mant t.eminSub = mant := by
      rw [codeEq, sub_self, Int.toNat_zero, Nat.zero_mul, Nat.add_zero]
    constructor
    · exact Nat.pos_of_ne_zero nonzero
    · dsimp only
      omega
    · exact le_rfl
    · exact Or.inl rfl
    · simp
    · exact sameCode
    · rw [sameCode, infinityEq]
      exact below
  · rw [if_neg subnormal]
    have sameCode : t.format.code (2 ^ t.mantShift + mant) (t.eminSub + (expf - 1 : Nat)) =
        mant + 2 ^ t.mantShift * expf := by
      have steps : (t.eminSub + (expf - 1 : Nat) - t.eminSub).toNat = expf - 1 := by omega
      have split : expf = expf - 1 + 1 := by omega
      rw [codeEq, steps]
      generalize expf - 1 = count at *
      rw [split]
      ring
    constructor
    · dsimp only
      omega
    · dsimp only
      omega
    · dsimp only
      omega
    · exact Or.inr (by dsimp only; omega)
    · simp only [decide_eq_true_eq]
      omega
    · exact sameCode
    · rw [sameCode, infinityEq]
      exact below

theorem fields_magnitude (bits shift expWidth : Nat) : bits % 2 ^ (shift + expWidth) =
      bits % 2 ^ shift + 2 ^ shift * (bits / 2 ^ shift % 2 ^ expWidth) := by
  rw [pow_add, Nat.mod_mul]

theorem decodeBits_decoded {bits : Nat} (finite : isInfOrNan precision bits = false)
    (nonzero : isZero precision bits = false) :
    Decoded (dtTarget precision) (bits % 2 ^ (precision.width - 1))
      (decodeBits precision bits).1 (decodeBits precision bits).2.1
      (decodeBits precision bits).2.2 := by
  cases precision with
  | double =>
      have exponentMask : (0x7FF : Nat) = 2 ^ 11 - 1 := by decide
      have mantissaMask : (0x000FFFFFFFFFFFFF : Nat) = 2 ^ 52 - 1 := by decide
      have magnitudeMask : (0x7FFFFFFFFFFFFFFF : Nat) = 2 ^ 63 - 1 := by decide
      have hidden : (0x0010000000000000 : Nat) = 2 ^ 52 := by decide
      simp only [isInfOrNan, isZero, decide_eq_false_iff_not] at finite nonzero
      rw [exponentMask, Nat.and_two_pow_sub_one_eq_mod, Nat.shiftRight_eq_div_pow] at finite
      rw [magnitudeMask, Nat.and_two_pow_sub_one_eq_mod] at nonzero
      have mantissaSmall : bits % 2 ^ 52 < 2 ^ 52 := Nat.mod_lt _ (by positivity)
      apply decoded_of_fields (dtTarget_sound .double) mantissaSmall _
        (fields_magnitude bits 52 11) nonzero
      · simp only [decodeBits]
        rw [exponentMask, mantissaMask, hidden, Nat.and_two_pow_sub_one_eq_mod,
          Nat.and_two_pow_sub_one_eq_mod, Nat.shiftRight_eq_div_pow, or_high mantissaSmall]
        generalize bits / 2 ^ 52 % 2 ^ 11 = expf
        by_cases zero : expf = 0
        · rw [if_pos zero, if_pos zero]
          rfl
        · rw [if_neg zero, if_neg zero]
          simp only [dtTarget, Prod.mk.injEq, and_true, true_and]
          omega
      · simp only [dtTarget]
        omega
  | single =>
      have exponentMask : (0xFF : Nat) = 2 ^ 8 - 1 := by decide
      have mantissaMask : (0x007FFFFF : Nat) = 2 ^ 23 - 1 := by decide
      have magnitudeMask : (0x7FFFFFFF : Nat) = 2 ^ 31 - 1 := by decide
      have hidden : (0x00800000 : Nat) = 2 ^ 23 := by decide
      simp only [isInfOrNan, isZero, decide_eq_false_iff_not] at finite nonzero
      rw [exponentMask, Nat.and_two_pow_sub_one_eq_mod, Nat.shiftRight_eq_div_pow] at finite
      rw [magnitudeMask, Nat.and_two_pow_sub_one_eq_mod] at nonzero
      have mantissaSmall : bits % 2 ^ 23 < 2 ^ 23 := Nat.mod_lt _ (by positivity)
      apply decoded_of_fields (dtTarget_sound .single) mantissaSmall _
        (fields_magnitude bits 23 8) nonzero
      · simp only [decodeBits]
        rw [exponentMask, mantissaMask, hidden, Nat.and_two_pow_sub_one_eq_mod,
          Nat.and_two_pow_sub_one_eq_mod, Nat.shiftRight_eq_div_pow, or_high mantissaSmall]
        generalize bits / 2 ^ 23 % 2 ^ 8 = expf
        by_cases zero : expf = 0
        · rw [if_pos zero, if_pos zero]
          rfl
        · rw [if_neg zero, if_neg zero]
          simp only [dtTarget, Prod.mk.injEq, and_true, true_and]
          omega
      · simp only [dtTarget]
        omega

theorem Decoded.high {t : DtTarget} (sound : t.Sound) {magnitude f : Nat} {e : Int}
    {unequal : Bool} (decoded : Decoded t magnitude f e unequal)
    (bias : 0 < t.bias) : e ≤ t.eminSub + 2 * t.bias - 1 := by
  rcases decoded.normal with least | normal
  · omega
  · have finite := decoded.finite
    have low := decoded.low
    simp only [Format.code, DtTarget.format, DtTarget.infinity, Nat.shiftLeft_eq,
      sound.shift, Nat.add_sub_cancel] at finite
    have product : ((e - t.eminSub).toNat + 1) * 2 ^ t.mantShift <
        (2 * t.bias + 1) * 2 ^ t.mantShift := by
      rw [Nat.add_mul, Nat.one_mul]
      omega
    have := Nat.lt_of_mul_lt_mul_right product
    omega

theorem Decoded.floatRange {magnitude f : Nat} {e : Int}
    {unequal : Bool} (decoded : Decoded (dtTarget precision) magnitude f e unequal) :
    FloatRange f e := by
  have sound := dtTarget_sound precision
  have high := decoded.high sound (by cases precision <;> decide)
  have low := decoded.low
  refine ⟨decoded.positive, Bits.mono decoded.fits sound.word, ?_, ?_⟩
  · cases precision <;> simp only [dtTarget] at low <;> omega
  · cases precision <;> simp only [dtTarget] at high <;> omega

/-- The interval of the digit generation lies among the numbers that round to
the float. -/
theorem Decoded.around {t : DtTarget} (sound : t.Sound) {magnitude f : Nat} {e : Int}
    {unequal : Bool} {x : ℚ} (decoded : Decoded t magnitude f e unequal)
    (interval : InInterval f e unequal x) : t.format.Around f e x := by
  have ulpPositive : (0 : ℚ) < 2 ^ e := by positivity
  have shiftEq : t.format.precision - 1 = t.mantShift := by
    simp only [DtTarget.format, sound.shift, Nat.add_sub_cancel]
  have closed : f * 2 ^ e - 2 ^ e / (2 * gapFactor unequal) ≤ x ∧
      x ≤ f * 2 ^ e + (2 : ℚ) ^ e / 2 := by
    unfold InInterval at interval
    split at interval
    · exact interval
    · exact ⟨interval.1.le, interval.2.le⟩
  have lowerEnd : (f - 1 / 2) * 2 ^ e ≤ (f : ℚ) * 2 ^ e - 2 ^ e / (2 * gapFactor unequal) := by
    cases unequal with
    | false =>
        simp only [gapFactor, Bool.false_eq_true, if_false]
        push_cast
        linarith
    | true =>
        simp only [gapFactor, if_true]
        push_cast
        linarith
  refine ⟨decoded.fits, decoded.low, ?_, lowerEnd.trans closed.1, ?_, ?_, ?_⟩
  · rw [shiftEq]
    exact decoded.normal
  · linarith [closed.2]
  · intro odd
    unfold InInterval at interval
    rw [if_neg (by omega)] at interval
    exact ⟨lowerEnd.trans_lt interval.1, by linarith [interval.2]⟩
  · intro power above
    rw [shiftEq] at power
    have isUnequal := decoded.gap.mpr ⟨power, above⟩
    have lower := closed.1
    rw [isUnequal] at lower
    simp only [gapFactor, if_true] at lower
    push_cast at lower
    linarith

theorem two_zpow_le_ten_zpow {i j : Nat} (le : 2 ^ i ≤ 10 ^ j) :
    (2 : ℚ) ^ (i : Int) ≤ 10 ^ (j : Int) ∧ (10 : ℚ) ^ (-(j : Int)) ≤ 2 ^ (-(i : Int)) := by
  have cast : (2 : ℚ) ^ i ≤ 10 ^ j := by exact_mod_cast le
  rw [zpow_neg, zpow_neg, zpow_natCast, zpow_natCast]
  exact ⟨cast, inv_anti₀ (by positivity) cast⟩

/-- The size of a float and its neighbours, away from the range guards of the
parser and inside the arrays of the layouts. -/
theorem Decoded.bounds {magnitude f : Nat} {e : Int}
    {unequal : Bool} (decoded : Decoded (dtTarget precision) magnitude f e unequal) :
    (10 : ℚ) ^ ((dtTarget precision).lUnder + 1) ≤ (f - 1 / 2) * 2 ^ e ∧
      (f + 1 / 2) * (2 : ℚ) ^ e < 10 ^ ((dtTarget precision).lOver - 1) := by
  have sound := dtTarget_sound precision
  have high := decoded.high sound (by cases precision <;> decide)
  have ulpPositive : (0 : ℚ) < 2 ^ e := by positivity
  have one : (1 : ℚ) ≤ f := by exact_mod_cast decoded.positive
  have fits : (f : ℚ) + 1 ≤ (2 ^ (dtTarget precision).mantBits : Nat) := by
    exact_mod_cast decoded.fits
  have halfUlp : (2 : ℚ) ^ (e - 1) ≤ (f - 1 / 2) * 2 ^ e := by
    rw [zpow_sub_one₀ (by norm_num)]
    have : (2 : ℚ) ^ e * 2⁻¹ = 1 / 2 * 2 ^ e := by ring
    rw [this]
    exact mul_le_mul_of_nonneg_right (by linarith) ulpPositive.le
  have top : (f + 1 / 2) * (2 : ℚ) ^ e < 2 ^ (((dtTarget precision).mantBits : Int) + e) := by
    rw [zpow_add₀ (by norm_num), ← two_zpow_natCast]
    exact mul_lt_mul_of_pos_right (by linarith) ulpPositive
  have low := decoded.low
  constructor
  · refine le_trans ?_ halfUlp
    cases precision with
    | double =>
        refine (two_zpow_le_ten_zpow (i := 1075) (j := 326) (by decide +kernel)).2.trans ?_
        exact zpow_le_zpow_right₀ (by norm_num) (by simp only [dtTarget] at low; omega)
    | single =>
        refine (two_zpow_le_ten_zpow (i := 150) (j := 47) (by decide +kernel)).2.trans ?_
        exact zpow_le_zpow_right₀ (by norm_num) (by simp only [dtTarget] at low; omega)
  · refine top.trans_le ?_
    cases precision with
    | double =>
        refine le_trans ?_ (two_zpow_le_ten_zpow (i := 1024) (j := 309) (by decide +kernel)).1
        exact zpow_le_zpow_right₀ (by norm_num) (by simp only [dtTarget] at high ⊢; omega)
    | single =>
        refine le_trans ?_ (two_zpow_le_ten_zpow (i := 128) (j := 39) (by decide +kernel)).1
        exact zpow_le_zpow_right₀ (by norm_num) (by simp only [dtTarget] at high ⊢; omega)

/-- The digits of a finite nonzero float, with what both layouts and the parser
need of them. -/
theorem clDtoaShortest_spec {bits : Nat} (finite : isInfOrNan precision bits = false)
    (nonzero : isZero precision bits = false) :
    ∃ digits k, clDtoaShortest precision bits = some (digits, k) ∧ digits ≠ [] ∧
      (∀ d ∈ digits, d ≤ 9) ∧ digits.length ≤ 17 ∧ -325 ≤ k ∧ k ≤ 311 ∧
      (10 : ℚ) ^ ((dtTarget precision).lUnder + 1) ≤ decimal digits k ∧
      decimal digits k < 10 ^ ((dtTarget precision).lOver - 1) ∧
      (dtTarget precision).format.Encodes (decimal digits k)
        (bits % 2 ^ (precision.width - 1)) := by
  have decoded := decodeBits_decoded finite nonzero
  have sound := dtTarget_sound precision
  unfold clDtoaShortest
  generalize decodeBits precision bits = parts at *
  obtain ⟨f, e, unequal⟩ := parts
  dsimp only at *
  have powerOfTwo : unequal = true → f ≤ 2 ^ 52 := by
    intro isUnequal
    rw [(decoded.gap.mp isUnequal).1]
    have := sound.shift
    have := sound.word
    exact Nat.pow_le_pow_right (by omega) (by omega)
  obtain ⟨digits, k, x, result, ⟨nonempty, length, small, rfl⟩, interval, upper, lower⟩ :=
    dragon4Shortest_spec decoded.floatRange powerOfTwo
  have around := decoded.around sound interval
  have ⟨least, greatest⟩ := decoded.bounds
  have guards : (dtTarget precision).lOver ≤ 310 ∧ -327 ≤ (dtTarget precision).lUnder := by
    cases precision <;> decide
  have mono : ∀ {i j : Int}, (10 : ℚ) ^ i < 10 ^ j → i < j :=
    fun less => (zpow_lt_zpow_iff_right₀ (by norm_num)).mp less
  have ulpPositive : (0 : ℚ) < 2 ^ e := by positivity
  have kHigh : k < (dtTarget precision).lOver - 1 + 2 := by
    apply mono
    rw [zpow_add₀ (by norm_num)]
    norm_num
    linarith
  have kLow : (dtTarget precision).lUnder + 1 < k := by
    apply mono
    linarith
  have code := around.encodes (by simp only [DtTarget.format]; exact sound.precise)
    decoded.finite.le
  rw [decoded.code] at code
  have fNonzero : ¬ f = 0 := by
    have := decoded.positive
    omega
  exact ⟨digits, k, by rw [if_neg fNonzero, result], nonempty, small, length, by omega,
    by omega, least.trans around.lower, around.upper.trans_lt greatest, code⟩

theorem sign_or_magnitude {bits k : Nat} (width : bits < 2 ^ (k + 1)) :
    (decide (bits >>> k ≠ 0)).toNat <<< k ||| bits % 2 ^ k = bits := by
  have unit : 0 < 2 ^ k := by positivity
  have sign : (decide (bits >>> k ≠ 0)).toNat = bits / 2 ^ k := by
    have small : bits / 2 ^ k < 2 := by
      rw [Nat.div_lt_iff_lt_mul unit]
      rw [pow_succ] at width
      omega
    rw [Nat.shiftRight_eq_div_pow]
    generalize bits / 2 ^ k = sign at small
    interval_cases sign <;> rfl
  rw [sign, ← Nat.shiftLeft_add_eq_or_of_lt (Nat.mod_lt _ unit), Nat.shiftLeft_eq, Nat.mul_comm]
  exact Nat.div_add_mod bits (2 ^ k)

theorem clParseFloatExact_layout {bits : Nat} (width : bits < 2 ^ precision.width) {k : Int}
    {text : List Char} (laysOut : LaysOut text digits k)
    (least : (10 : ℚ) ^ ((dtTarget precision).lUnder + 1) ≤ decimal digits k)
    (greatest : decimal digits k < 10 ^ ((dtTarget precision).lOver - 1))
    (encodes : (dtTarget precision).format.Encodes (decimal digits k)
      (bits % 2 ^ (precision.width - 1))) :
    clParseFloatExact precision (signText (isNegative precision bits) ++ text) = some bits := by
  obtain ⟨token, rfl, readable, value⟩ := laysOut
  have positive : 0 < decimal digits k := lt_of_lt_of_le (by positivity) least
  rw [← value] at positive least greatest encodes
  obtain ⟨mag, parsed, magEncodes⟩ := clParseFloatExact_token precision readable positive
    greatest least (isNegative precision bits)
  unfold signText
  rw [parsed, magEncodes.unique encodes]
  congr 1
  cases precision with
  | double => exact sign_or_magnitude (k := 63) width
  | single => exact sign_or_magnitude (k := 31) width

theorem copyOut_signed {size bufsz : Nat} (n : Bool) (text : List Char)
    (fits : text.length + 2 ≤ size) (room : size ≤ bufsz) :
    copyOut size bufsz (signText n ++ text) = some (signText n ++ text) := by
  have length : (signText n ++ text).length ≤ text.length + 1 := by
    cases n <;> simp [signText]
  unfold copyOut
  rw [if_pos (by omega), List.take_of_length_le (by omega)]

/-- Every finite nonzero float comes back from its text, in the `%g` layout and
in the fixed one, when the buffers hold the arrays the source builds the text
in. -/
theorem float_round_trip (precision : Precision) (bits bufsz bufszFixed : Nat)
    (width : bits < 2 ^ precision.width) (finite : isInfOrNan precision bits = false)
    (nonzero : isZero precision bits = false) (room : 40 ≤ bufsz)
    (roomFixed : 352 ≤ bufszFixed) :
    (clFloatShortestG bufsz precision bits).bind (clParseFloatExact precision) = some bits ∧
      (clFloatFixedShortest bufszFixed precision bits).bind
        (clParseFloatExact precision) = some bits := by
  obtain ⟨digits, k, result, nonempty, small, length, low, high, least, greatest, encodes⟩ :=
    clDtoaShortest_spec finite nonzero
  have floorFew : (if precision = .double then 15 else 6) ≤ 17 := by
    split <;> omega
  constructor
  · have fits := length_layoutG (k := k) length floorFew
    have laysOut := layoutG_laysOut _ nonempty small length floorFew (by omega)
      (show k ≤ 400 by omega)
    have parsed := clParseFloatExact_layout width laysOut least greatest encodes
    have copied := copyOut_signed (isNegative precision bits)
      (layoutG (if precision = .double then 15 else 6) digits k)
      (show _ + 2 ≤ 40 by omega) room
    unfold clFloatShortestG
    simp only [finite, nonzero, Bool.false_eq_true, if_false, result,
      Option.bind_eq_bind, Option.bind_some, copied]
    exact parsed
  · have fits := length_layoutFixed length low (by omega)
    have laysOut := layoutFixed_laysOut nonempty small length (by omega)
      (show k ≤ 400 by omega)
    have parsed := clParseFloatExact_layout width laysOut least greatest encodes
    have copied := copyOut_signed (isNegative precision bits) (layoutFixed digits k)
      (show _ + 2 ≤ 352 by omega) roomFixed
    unfold clFloatFixedShortest
    simp only [finite, nonzero, Bool.false_eq_true, if_false, result,
      Option.bind_eq_bind, Option.bind_some, copied]
    exact parsed

/-- The least subnormal double. -/
theorem float_round_trip_least_double :
    (clFloatShortestG 48 .double 1).bind (clParseFloatExact .double) = some 1 ∧
      (clFloatFixedShortest 512 .double 1).bind (clParseFloatExact .double) = some 1 :=
  float_round_trip .double 1 48 512 (by decide) (by decide) (by decide) (by decide) (by decide)

end ClAmiga.Float
