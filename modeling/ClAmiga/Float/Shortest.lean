import ClAmiga.Float.RoundTrip

/-!
# The shortest digits

The numbers that round to a finite float are those of the interval of the digit
generation.  The digits `cl_dtoa_shortest` returns denote one of them, and no
number of fewer digits is one.
-/

namespace ClAmiga.Float

open Radix

/-- The converse of `Decoded.around`. -/
theorem Decoded.interval {t : DtTarget} (sound : t.Sound) {magnitude f : Nat} {e : Int}
    {unequal : Bool} {x : ℚ} (decoded : Decoded t magnitude f e unequal)
    (around : t.format.Around f e x) : InInterval f e unequal x := by
  have ulpPositive : (0 : ℚ) < 2 ^ e := by positivity
  have shiftEq : t.format.precision - 1 = t.mantShift := by
    simp only [DtTarget.format, sound.shift, Nat.add_sub_cancel]
  have lower := around.lower
  have upper := around.upper
  unfold InInterval
  cases unequal with
  | false =>
      simp only [gapFactor, Bool.false_eq_true, if_false]
      split
      · push_cast
        constructor <;> linarith
      · obtain ⟨strictLower, strictUpper⟩ := around.strict (by omega)
        push_cast
        constructor <;> linarith
  | true =>
      obtain ⟨power, above⟩ := decoded.gap.mp rfl
      have even : f % 2 = 0 := by
        have shift := sound.shift
        have precise := sound.precise
        rw [power]
        exact Nat.mod_eq_zero_of_dvd (dvd_pow_self 2 (by omega))
      have quarter := around.quarter (power.trans (by rw [shiftEq])) above
      simp only [gapFactor, if_true, if_pos even]
      push_cast
      constructor <;> linarith

theorem Decoded.encodes_iff {t : DtTarget} (sound : t.Sound) {magnitude f : Nat} {e : Int}
    {unequal : Bool} {x : ℚ} (decoded : Decoded t magnitude f e unequal) :
    t.format.Encodes x magnitude ↔ InInterval f e unequal x := by
  have precise : 2 ≤ t.format.precision := sound.precise
  rw [← decoded.code]
  constructor
  · intro encodes
    apply decoded.interval sound
    apply encodes.around precise decoded.fits decoded.low _ decoded.finite
    rw [DtTarget.format, sound.shift, Nat.add_sub_cancel]
    exact decoded.normal
  · intro interval
    exact (decoded.around sound interval).encodes precise decoded.finite.le

def Precision.digits : Precision → Nat
  | .double => 17
  | .single => 9

theorem Precision.digits_suffice (precision : Precision) {magnitude f : Nat} {e : Int}
    {unequal : Bool} (decoded : Decoded (dtTarget precision) magnitude f e unequal) :
    10 * (2 * f + 1) * gapFactor unequal < (gapFactor unequal + 1) * 10 ^ precision.digits := by
  have fits := decoded.fits
  have gap := decoded.gap
  cases unequal with
  | false =>
      cases precision <;>
        simp only [gapFactor, dtTarget, Precision.digits, Bool.false_eq_true,
          if_false] at fits ⊢ <;> omega
  | true =>
      obtain ⟨power, -⟩ := gap.mp rfl
      cases precision <;>
        simp only [gapFactor, dtTarget, Precision.digits, if_true] at power ⊢ <;> omega

theorem first_ne_zero {digits : List Nat} {k : Int} (nonempty : digits ≠ [])
    (small : ∀ d ∈ digits, d ≤ 9) {f : Nat} {e : Int} {unequal : Bool}
    (inside : InInterval f e unequal (decimal digits k))
    (fewest : ∀ (w : Nat) (q : Int), w < 10 ^ (digits.length - 1) →
      ¬ InInterval f e unequal (w * (10 : ℚ) ^ q)) :
    ∃ first rest, digits = first :: rest ∧ first ≠ 0 := by
  obtain ⟨first, rest, rfl⟩ := List.exists_cons_of_ne_nil nonempty
  refine ⟨first, rest, rfl, ?_⟩
  rintro rfl
  apply fewest (decimalValue (0 :: rest)) (k - (0 :: rest).length) _ inside
  have split := decimalValue_cons 0 0 rest
  rw [Nat.zero_mul, Nat.zero_add, Nat.mul_zero, Nat.zero_add, Nat.zero_mul,
    Nat.zero_add] at split
  rw [split, List.length_cons, Nat.add_sub_cancel]
  exact decimalValue_lt fun d member => small d (List.mem_cons_of_mem _ member)

/-- For every finite nonzero float there are digits, at most 17 for a double and
9 for a single, the first one not a zero; they denote a number that rounds to the
float, and no number of fewer digits does. -/
theorem clDtoaShortest_shortest (precision : Precision) (bits : Nat)
    (finite : isInfOrNan precision bits = false)
    (nonzero : isZero precision bits = false) :
    ∃ digits k, clDtoaShortest precision bits = some (digits, k) ∧
      digits.length ≤ precision.digits ∧ (∀ d ∈ digits, d ≤ 9) ∧
      (∃ first rest, digits = first :: rest ∧ first ≠ 0) ∧
      (dtTarget precision).format.Encodes (decimal digits k) (bits % 2 ^ (precision.width - 1)) ∧
      ∀ (w : Nat) (q : Int), w < 10 ^ (digits.length - 1) →
        ¬ (dtTarget precision).format.Encodes (w * (10 : ℚ) ^ q)
          (bits % 2 ^ (precision.width - 1)) := by
  have decoded := decodeBits_decoded finite nonzero
  have sound := dtTarget_sound precision
  have few : precision.digits ≤ 17 := by cases precision <;> decide
  unfold clDtoaShortest
  generalize decodeBits precision bits = parts at *
  obtain ⟨f, e, unequal⟩ := parts
  dsimp only at *
  have fNonzero : f ≠ 0 := decoded.positive.ne'
  obtain ⟨digits, k, x, result, ⟨nonempty, length, small, rfl⟩, interval, -, fewest⟩ :=
    dragon4Shortest_digits decoded.floatRange few (precision.digits_suffice decoded)
  refine ⟨digits, k, by rw [if_neg fNonzero, result], length, small,
    first_ne_zero nonempty small interval fewest, (decoded.encodes_iff sound).mpr interval,
    ?_⟩
  intro w q fewer encodes
  exact fewest w q fewer ((decoded.encodes_iff sound).mp encodes)

/-- A half. -/
theorem clDtoaShortest_shortest_half :
    ∃ digits k, clDtoaShortest .double 0x3FE0000000000000 = some (digits, k) ∧
      digits.length ≤ Precision.double.digits ∧ (∀ d ∈ digits, d ≤ 9) ∧
      (∃ first rest, digits = first :: rest ∧ first ≠ 0) ∧
      (dtTarget .double).format.Encodes (decimal digits k)
        (0x3FE0000000000000 % 2 ^ (Precision.double.width - 1)) ∧
      ∀ (w : Nat) (q : Int), w < 10 ^ (digits.length - 1) →
        ¬ (dtTarget .double).format.Encodes (w * (10 : ℚ) ^ q)
          (0x3FE0000000000000 % 2 ^ (Precision.double.width - 1)) :=
  clDtoaShortest_shortest .double 0x3FE0000000000000 (by decide) (by decide)

end ClAmiga.Float
