import Mathlib

/-!
# Floating-point words

A word is a sign bit, an exponent field and a fraction field.  `read` is what
it stands for; a word of a narrow layout is widened by copying the fields, with
the leading bit of a subnormal fraction made explicit.
-/

namespace ClAmiga.Radix

inductive Reading where
  | nan
  | infinite (negative : Bool)
  | finite (value : ℚ)
  deriving DecidableEq

/-- The order of the readings; a NaN is on no side of anything. -/
def Reading.less : Reading → Reading → Bool
  | .finite x, .finite y => decide (x < y)
  | .finite _, .infinite negative => !negative
  | .infinite negative, .finite _ => negative
  | .infinite left, .infinite right => left && !right
  | _, _ => false

structure Layout where
  fracBits : Nat
  expBits : Nat

namespace Layout

variable (layout : Layout)

/-- The exponent of the last place of a subnormal word. -/
def emin : Int :=
  2 - 2 ^ (layout.expBits - 1) - layout.fracBits

def magnitude (expf frac : Nat) : ℚ :=
  if expf = 0 then frac * 2 ^ layout.emin
  else ((2 ^ layout.fracBits + frac : Nat) : ℚ) * 2 ^ (layout.emin + expf - 1)

def fields (negative : Bool) (expf frac : Nat) : Reading :=
  if expf = 2 ^ layout.expBits - 1 then
    if frac = 0 then .infinite negative else .nan
  else .finite ((if negative then -1 else 1) * layout.magnitude expf frac)

def signBit (bits : Nat) : Bool :=
  decide (bits / 2 ^ (layout.fracBits + layout.expBits) % 2 = 1)

def exponentField (bits : Nat) : Nat :=
  bits / 2 ^ layout.fracBits % 2 ^ layout.expBits

def fractionField (bits : Nat) : Nat :=
  bits % 2 ^ layout.fracBits

/-- What the low `1 + expBits + fracBits` bits stand for. -/
def read (bits : Nat) : Reading :=
  layout.fields (layout.signBit bits) (layout.exponentField bits)
    (layout.fractionField bits)

def encode (negative : Bool) (expf frac : Nat) : Nat :=
  (negative.toNat * 2 ^ layout.expBits + expf) * 2 ^ layout.fracBits + frac

variable {layout}

theorem read_encode (negative : Bool) {expf frac : Nat}
    (expSmall : expf < 2 ^ layout.expBits) (fracSmall : frac < 2 ^ layout.fracBits) :
    layout.read (layout.encode negative expf frac) = layout.fields negative expf frac := by
  have fracPositive : 0 < 2 ^ layout.fracBits := Nat.two_pow_pos _
  have expPositive : 0 < 2 ^ layout.expBits := Nat.two_pow_pos _
  have upper : layout.encode negative expf frac / 2 ^ layout.fracBits =
      negative.toNat * 2 ^ layout.expBits + expf := by
    rw [encode, Nat.mul_comm, Nat.mul_add_div fracPositive,
      Nat.div_eq_of_lt fracSmall, Nat.add_zero]
  have fractionEq : layout.fractionField (layout.encode negative expf frac) = frac := by
    rw [fractionField, encode, Nat.mul_comm, Nat.mul_add_mod, Nat.mod_eq_of_lt fracSmall]
  have exponentEq : layout.exponentField (layout.encode negative expf frac) = expf := by
    rw [exponentField, upper, Nat.mul_comm, Nat.mul_add_mod, Nat.mod_eq_of_lt expSmall]
  have signEq : layout.signBit (layout.encode negative expf frac) = negative := by
    rw [signBit, pow_add, ← Nat.div_div_eq_div_mul, upper, Nat.mul_comm,
      Nat.mul_add_div expPositive, Nat.div_eq_of_lt expSmall, Nat.add_zero]
    cases negative <;> rfl
  rw [read, signEq, exponentEq, fractionEq]

theorem encode_lt (negative : Bool) {expf frac : Nat}
    (expSmall : expf < 2 ^ layout.expBits) (fracSmall : frac < 2 ^ layout.fracBits) :
    layout.encode negative expf frac < 2 ^ (1 + layout.expBits + layout.fracBits) := by
  have sign : negative.toNat ≤ 1 := by cases negative <;> decide
  have upper : negative.toNat * 2 ^ layout.expBits + expf < 2 ^ (1 + layout.expBits) := by
    have scaled := Nat.mul_le_mul_right (2 ^ layout.expBits) sign
    rw [Nat.add_comm 1, Nat.pow_succ]
    omega
  calc
    layout.encode negative expf frac <
        (negative.toNat * 2 ^ layout.expBits + expf + 1) * 2 ^ layout.fracBits := by
      rw [encode, Nat.add_mul _ 1, Nat.one_mul]
      omega
    _ ≤ 2 ^ (1 + layout.expBits) * 2 ^ layout.fracBits := Nat.mul_le_mul_right _ upper
    _ = 2 ^ (1 + layout.expBits + layout.fracBits) := (pow_add _ _ _).symm

theorem fractionField_lt (bits : Nat) : layout.fractionField bits < 2 ^ layout.fracBits :=
  Nat.mod_lt _ (Nat.two_pow_pos _)

theorem exponentField_lt (bits : Nat) : layout.exponentField bits < 2 ^ layout.expBits :=
  Nat.mod_lt _ (Nat.two_pow_pos _)

/-- The same number in a layout with more fraction bits and exponent bits. -/
def widen (narrow wide : Layout) (bits : Nat) : Nat :=
  let negative := narrow.signBit bits
  let expf := narrow.exponentField bits
  let frac := narrow.fractionField bits
  let shift := wide.fracBits - narrow.fracBits
  if expf = 2 ^ narrow.expBits - 1 then
    wide.encode negative (2 ^ wide.expBits - 1) (frac * 2 ^ shift)
  else if expf ≠ 0 then
    wide.encode negative (expf + (narrow.emin - wide.emin - shift).toNat)
      (frac * 2 ^ shift)
  else if frac = 0 then wide.encode negative 0 0
  else
    wide.encode negative ((narrow.emin - wide.emin + 1).toNat + frac.log2 - wide.fracBits)
      (frac * 2 ^ (wide.fracBits - frac.log2) - 2 ^ wide.fracBits)

/-- The exponents of the narrow layout are well inside those of the wide one. -/
structure Widens (narrow wide : Layout) : Prop where
  fraction : narrow.fracBits ≤ wide.fracBits
  low : wide.fracBits ≤ narrow.emin - wide.emin
  high : (2 : Int) ^ narrow.expBits + (narrow.emin - wide.emin) ≤
    2 ^ wide.expBits + (wide.fracBits - narrow.fracBits)

variable {narrow wide : Layout}

theorem shifted_lt (widens : Widens narrow wide) {frac : Nat} (small : frac < 2 ^ narrow.fracBits) :
    frac * 2 ^ (wide.fracBits - narrow.fracBits) < 2 ^ wide.fracBits := by
  have fraction := widens.fraction
  calc
    _ < 2 ^ narrow.fracBits * 2 ^ (wide.fracBits - narrow.fracBits) :=
      Nat.mul_lt_mul_of_pos_right small (Nat.two_pow_pos _)
    _ = 2 ^ wide.fracBits := by
      rw [← pow_add]
      congr 1
      omega

theorem mul_two_pow_zpow (x : ℚ) (count : Nat) {u v : Int} (same : v + count = u) :
    x * 2 ^ count * 2 ^ v = x * 2 ^ u := by
  rw [mul_assoc, ← zpow_natCast, ← zpow_add₀ (by norm_num)]
  congr 2
  omega

theorem magnitude_normal (widens : Widens narrow wide)
    {expf : Nat} (normal : expf ≠ 0) (frac : Nat) :
    wide.magnitude
        (expf + (narrow.emin - wide.emin - (wide.fracBits - narrow.fracBits : Nat)).toNat)
        (frac * 2 ^ (wide.fracBits - narrow.fracBits)) =
      narrow.magnitude expf frac := by
  obtain ⟨fraction, low, _⟩ := widens
  have power : 2 ^ wide.fracBits = 2 ^ narrow.fracBits * 2 ^ (wide.fracBits - narrow.fracBits) := by
    rw [← pow_add]
    congr 1
    omega
  rw [magnitude, if_neg (by omega), magnitude, if_neg normal, power, ← Nat.add_mul,
    Nat.cast_mul, Nat.cast_pow, Nat.cast_ofNat]
  apply mul_two_pow_zpow
  omega

theorem log2_lt {frac bits : Nat} (nonzero : frac ≠ 0) (small : frac < 2 ^ bits) :
    frac.log2 < bits :=
  (Nat.log2_lt nonzero).mpr small

/-- The leading bit of a subnormal fraction at the place of the hidden bit. -/
theorem leading_bit {wide : Layout} {frac : Nat} (nonzero : frac ≠ 0)
    (few : frac.log2 ≤ wide.fracBits) :
    2 ^ wide.fracBits ≤ frac * 2 ^ (wide.fracBits - frac.log2) ∧
      frac * 2 ^ (wide.fracBits - frac.log2) < 2 * 2 ^ wide.fracBits := by
  have power : 2 ^ frac.log2 * 2 ^ (wide.fracBits - frac.log2) = 2 ^ wide.fracBits := by
    rw [← pow_add]
    congr 1
    omega
  constructor
  · rw [← power]
    exact Nat.mul_le_mul_right _ (Nat.log2_self_le nonzero)
  · rw [← power, ← Nat.mul_assoc, ← Nat.pow_succ']
    exact Nat.mul_lt_mul_of_pos_right Nat.lt_log2_self (Nat.two_pow_pos _)

theorem magnitude_subnormal (widens : Widens narrow wide)
    {frac : Nat} (nonzero : frac ≠ 0) (few : frac.log2 < narrow.fracBits) :
    wide.magnitude ((narrow.emin - wide.emin + 1).toNat + frac.log2 - wide.fracBits)
        (frac * 2 ^ (wide.fracBits - frac.log2) - 2 ^ wide.fracBits) =
      narrow.magnitude 0 frac := by
  obtain ⟨fraction, low, _⟩ := widens
  have leading := (@leading_bit wide frac nonzero (by omega)).1
  rw [magnitude, if_neg (by omega), magnitude, if_pos rfl, Nat.add_sub_cancel' leading,
    Nat.cast_mul, Nat.cast_pow, Nat.cast_ofNat]
  apply mul_two_pow_zpow
  omega

theorem widen_fields (widens : Widens narrow wide) (bits : Nat) :
    ∃ expf frac, expf < 2 ^ wide.expBits ∧ frac < 2 ^ wide.fracBits ∧
      narrow.widen wide bits = wide.encode (narrow.signBit bits) expf frac ∧
      wide.fields (narrow.signBit bits) expf frac = narrow.read bits := by
  have expSmall := narrow.exponentField_lt bits
  have fracSmall := narrow.fractionField_lt bits
  have widePositive : 0 < 2 ^ wide.expBits := Nat.two_pow_pos _
  obtain ⟨fraction, low, high⟩ := id widens
  have high' : 2 ^ narrow.expBits + (narrow.emin - wide.emin).toNat ≤
      2 ^ wide.expBits + (wide.fracBits - narrow.fracBits) := by
    zify
    rw [Int.toNat_of_nonneg (by omega), Nat.cast_sub fraction]
    exact high
  change ∃ expf frac, _ ∧ _ ∧ _ ∧ _ =
    narrow.fields (narrow.signBit bits) (narrow.exponentField bits) (narrow.fractionField bits)
  unfold widen
  generalize narrow.signBit bits = negative
  generalize narrow.exponentField bits = expf at *
  generalize narrow.fractionField bits = frac at *
  by_cases special : expf = 2 ^ narrow.expBits - 1
  · rw [if_pos special]
    refine ⟨_, _, by omega, shifted_lt widens fracSmall, rfl, ?_⟩
    rw [fields, fields, if_pos rfl, if_pos special]
    simp
  rw [if_neg special, fields.eq_def narrow, if_neg special]
  by_cases normal : expf ≠ 0
  · rw [if_pos normal]
    refine ⟨_, _, by omega, shifted_lt widens fracSmall, rfl, ?_⟩
    rw [fields, if_neg (by omega), magnitude_normal widens normal]
  rw [if_neg normal]
  have zero : expf = 0 := by omega
  by_cases nothing : frac = 0
  · rw [if_pos nothing]
    refine ⟨_, _, by omega, Nat.two_pow_pos _, rfl, ?_⟩
    rw [fields, if_neg (by omega), zero, nothing]
    simp [magnitude]
  · have few := log2_lt nothing fracSmall
    have leading := @leading_bit wide frac nothing (by omega)
    rw [if_neg nothing]
    refine ⟨_, _, by omega, by omega, rfl, ?_⟩
    rw [fields, if_neg (by omega), zero, magnitude_subnormal widens nothing few]

theorem read_widen (widens : Widens narrow wide) (bits : Nat) :
    wide.read (narrow.widen wide bits) = narrow.read bits := by
  obtain ⟨expf, frac, expSmall, fracSmall, widened, same⟩ := widen_fields widens bits
  rw [widened, read_encode _ expSmall fracSmall, same]

theorem widen_lt (widens : Widens narrow wide) (bits : Nat) :
    narrow.widen wide bits < 2 ^ (1 + wide.expBits + wide.fracBits) := by
  obtain ⟨expf, frac, expSmall, fracSmall, widened, _⟩ := widen_fields widens bits
  rw [widened]
  exact encode_lt _ expSmall fracSmall

end Layout

end ClAmiga.Radix
