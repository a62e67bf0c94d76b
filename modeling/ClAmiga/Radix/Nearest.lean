import Mathlib

/-!
# Rounding to a binary format

Rounding to nearest with ties to even, onto the floating-point numbers of a
given precision and least exponent.  The magnitudes of a format in order are the
numbers from zero on, so an encoding is the count of magnitudes below.
-/

namespace ClAmiga.Radix

/-- `n` is the number nearest to `x`, the even one on a tie. -/
def Nearest (x : ℚ) (n : Nat) : Prop :=
  |x - n| ≤ 1 / 2 ∧ (|x - n| = 1 / 2 → n % 2 = 0)

theorem nearest_self (n : Nat) : Nearest n n := by
  unfold Nearest
  rw [sub_self, abs_zero]
  norm_num

variable {x : ℚ}

theorem Nearest.le {n m : Nat} (first : Nearest x n) (second : Nearest x m) : n ≤ m := by
  by_contra greater
  have gap : (m : ℚ) + 1 ≤ n := by exact_mod_cast Nat.lt_of_not_le greater
  obtain ⟨near, even⟩ := first
  obtain ⟨near', even'⟩ := second
  rw [abs_le] at near near'
  have equal : (n : ℚ) = m + 1 := by linarith [near.1, near'.2]
  have tie : |x - n| = 1 / 2 := by
    rw [abs_of_nonpos (by linarith)]
    linarith
  have tie' : |x - m| = 1 / 2 := by
    rw [abs_of_nonneg (by linarith)]
    linarith
  have successor : n = m + 1 := by exact_mod_cast equal
  have := even tie
  have := even' tie'
  omega

theorem Nearest.unique {n m : Nat} (first : Nearest x n) (second : Nearest x m) : n = m :=
  Nat.le_antisymm (first.le second) (second.le first)

theorem Nearest.le_of_lt {n bound : Nat} (nearest : Nearest x n)
    (less : x < bound) : n ≤ bound := by
  have := (abs_le.mp nearest.1).1
  have : (n : ℚ) < (bound + 1 : Nat) := by
    push_cast
    linarith
  have : n < bound + 1 := by exact_mod_cast this
  omega

theorem Nearest.ge_of_le {n bound : Nat} (nearest : Nearest x n) (le : bound ≤ x) : bound ≤ n := by
  have := (abs_le.mp nearest.1).2
  have : (bound : ℚ) < (n + 1 : Nat) := by
    push_cast
    linarith
  have : bound < n + 1 := by exact_mod_cast this
  omega

/-- Rounding by the first bit dropped, the others dropped and a rest below
them. -/
theorem nearest_of_guard {M drop : Nat} {theta : ℚ} (nonneg : 0 ≤ theta)
    (less : theta < 1) {rest : Prop} [Decidable rest]
    (restEq : rest ↔ M % 2 ^ drop ≠ 0 ∨ theta ≠ 0) :
    Nearest ((M + theta) / 2 ^ (drop + 1))
      (if M / 2 ^ drop % 2 = 1 ∧ (rest ∨ M / 2 ^ (drop + 1) % 2 = 1)
        then M / 2 ^ (drop + 1) + 1 else M / 2 ^ (drop + 1)) := by
  have powEq : 2 ^ (drop + 1) = 2 ^ drop * 2 := pow_succ 2 drop
  have halves : M / 2 ^ (drop + 1) = M / 2 ^ drop / 2 := by
    rw [powEq, Nat.div_div_eq_div_mul]
  have bits := Nat.div_add_mod (M / 2 ^ drop) 2
  have lowBits := Nat.div_add_mod M (2 ^ drop)
  have lowLess : M % 2 ^ drop < 2 ^ drop := Nat.mod_lt _ (by positivity)
  have guardCases : M / 2 ^ drop % 2 = 0 ∨ M / 2 ^ drop % 2 = 1 := by omega
  rw [halves]
  have denominator : (2 : ℚ) ^ (drop + 1) = (2 ^ drop : Nat) * 2 := by
    push_cast
    ring
  rw [denominator]
  have unitPositive : (0 : ℚ) < (2 ^ drop : Nat) := by positivity
  generalize 2 ^ drop = unit at *
  generalize M / unit / 2 = q at *
  generalize M / unit % 2 = guard at *
  generalize M % unit = low at *
  have lowLess' : (low : ℚ) + 1 ≤ unit := by exact_mod_cast lowLess
  have lowNonneg : (0 : ℚ) ≤ low := by positivity
  have distance : ((M : ℚ) + theta) / (unit * 2) - q =
      (guard : ℚ) / 2 + (low + theta) / (unit * 2) := by
    have total : (M : ℚ) = unit * (2 * q + guard) + low := by
      rw [← lowBits, ← bits]
      push_cast
      ring
    rw [total]
    field_simp
    ring
  have fraction : (low + theta) / (unit * 2) < 1 / 2 := by
    rw [div_lt_iff₀ (by positivity)]
    linarith
  have fractionNonneg : 0 ≤ (low + theta) / (unit * 2) := by positivity
  rcases guardCases with zero | one
  · rw [if_neg (by omega)]
    rw [zero, Nat.cast_zero, zero_div, zero_add] at distance
    unfold Nearest
    rw [distance, abs_of_nonneg fractionNonneg]
    exact ⟨fraction.le, fun tie => absurd tie fraction.ne⟩
  · rw [one, Nat.cast_one] at distance
    by_cases isRest : rest
    · have positive : 0 < (low + theta) / (unit * 2) := by
        apply div_pos _ (by positivity)
        rcases restEq.mp isRest with lowNonzero | thetaNonzero
        · have : (1 : ℚ) ≤ low := by exact_mod_cast Nat.one_le_iff_ne_zero.mpr lowNonzero
          linarith
        · have := lt_of_le_of_ne nonneg thetaNonzero.symm
          linarith
      rw [if_pos ⟨one, Or.inl isRest⟩]
      have up : ((M : ℚ) + theta) / (unit * 2) - (q + 1 : Nat) =
          -(1 / 2 - (low + theta) / (unit * 2)) := by
        push_cast
        linarith
      unfold Nearest
      rw [up, abs_neg, abs_of_nonneg (by linarith)]
      exact ⟨by linarith, fun tie => by linarith⟩
    · have exactly : (low + theta) / (unit * 2) = 0 := by
        have none : low = 0 ∧ theta = 0 := by
          rw [restEq] at isRest
          push Not at isRest
          exact isRest
        rw [none.1, none.2]
        simp
      rw [exactly, add_zero] at distance
      by_cases odd : q % 2 = 1
      · rw [if_pos ⟨one, Or.inr odd⟩]
        have up : ((M : ℚ) + theta) / (unit * 2) - (q + 1 : Nat) = -(1 / 2) := by
          push_cast
          linarith
        unfold Nearest
        rw [up, abs_neg, abs_of_nonneg (by norm_num)]
        exact ⟨le_rfl, fun _ => by omega⟩
      · rw [if_neg (by tauto)]
        unfold Nearest
        rw [distance, abs_of_nonneg (by norm_num)]
        exact ⟨le_rfl, fun _ => by omega⟩

/-- Numbers of `precision` bits times a power of two from `2 ^ emin` on; the
code `infinity` follows that of the largest finite magnitude. -/
structure Format where
  precision : Nat
  emin : Int
  infinity : Nat

namespace Format

variable (format : Format)

/-- The last place of `x` is `2 ^ u`. -/
structure Ulp (x : ℚ) (u : Int) : Prop where
  low : format.emin ≤ u
  below : x < 2 ^ (u + format.precision)
  normal : u = format.emin ∨ 2 ^ (u + format.precision - 1) ≤ x

/-- The code of `n * 2 ^ u`, also where `n` is the next power of two. -/
def code (n : Nat) (u : Int) : Nat :=
  n + (u - format.emin).toNat * 2 ^ (format.precision - 1)

/-- The code of `x` rounded to the format. -/
def Encodes (x : ℚ) (bits : Nat) : Prop :=
  ∃ u n, format.Ulp x u ∧ Nearest (x / 2 ^ u) n ∧
    bits = min (format.code n u) format.infinity

variable {format}

theorem Ulp.le {u v : Int} (first : format.Ulp x u) (second : format.Ulp x v) : u ≤ v := by
  rcases first.normal with least | normal
  · rw [least]
    exact second.low
  · have := (zpow_lt_zpow_iff_right₀ (by norm_num : (1 : ℚ) < 2)).mp (normal.trans_lt second.below)
    omega

theorem Encodes.unique {bits bits' : Nat} (first : format.Encodes x bits)
    (second : format.Encodes x bits') : bits = bits' := by
  obtain ⟨u, n, ulp, nearest, rfl⟩ := first
  obtain ⟨v, m, ulp', nearest', rfl⟩ := second
  have same : u = v := (ulp.le ulp').antisymm (ulp'.le ulp)
  subst same
  rw [nearest.unique nearest']

/-- A number of the format with the numbers that round to it: half a place on
both sides, a quarter below a power of two, the ends only for even `f`. -/
structure Around (f : Nat) (e : Int) (x : ℚ) : Prop where
  fits : f < 2 ^ format.precision
  low : format.emin ≤ e
  normal : e = format.emin ∨ 2 ^ (format.precision - 1) ≤ f
  lower : (f - 1 / 2) * 2 ^ e ≤ x
  upper : x ≤ (f + 1 / 2) * 2 ^ e
  strict : f % 2 = 1 → (f - 1 / 2) * 2 ^ e < x ∧ x < (f + 1 / 2) * 2 ^ e
  quarter : f = 2 ^ (format.precision - 1) → format.emin < e →
    (f - 1 / 4) * 2 ^ e ≤ x

theorem Around.nearest {f : Nat} {e : Int} (around : format.Around f e x) :
    Nearest (x / 2 ^ e) f := by
  have ulpPositive : (0 : ℚ) < 2 ^ e := by positivity
  have lower : (f : ℚ) - 1 / 2 ≤ x / 2 ^ e := (le_div_iff₀ ulpPositive).mpr around.lower
  have upper : x / 2 ^ e ≤ f + 1 / 2 := (div_le_iff₀ ulpPositive).mpr around.upper
  refine ⟨abs_le.mpr ⟨by linarith, by linarith⟩, fun tie => ?_⟩
  by_contra odd
  have ⟨strictLower, strictUpper⟩ := around.strict (by omega)
  have lower' := (lt_div_iff₀ ulpPositive).mpr strictLower
  have upper' := (div_lt_iff₀ ulpPositive).mpr strictUpper
  have : |x / 2 ^ e - f| < 1 / 2 := abs_lt.mpr ⟨by linarith, by linarith⟩
  linarith

theorem Around.encodes {f : Nat} {e : Int} (around : format.Around f e x)
    (precise : 2 ≤ format.precision) (finite : format.code f e ≤ format.infinity) :
    format.Encodes x (format.code f e) := by
  have ulpPositive : (0 : ℚ) < 2 ^ e := by positivity
  have halfPower : (2 : ℚ) ^ (e + format.precision - 1) =
      (2 ^ (format.precision - 1) : Nat) * 2 ^ e := by
    rw [Nat.cast_pow, ← zpow_natCast, Nat.cast_ofNat, ← zpow_add₀ (by norm_num)]
    congr 1
    omega
  have fullPower : (2 : ℚ) ^ (e + format.precision) = (2 ^ format.precision : Nat) * 2 ^ e := by
    rw [Nat.cast_pow, ← zpow_natCast, Nat.cast_ofNat, ← zpow_add₀ (by norm_num)]
    congr 1
    omega
  have below : x < 2 ^ (e + format.precision) := by
    have fits : (f : ℚ) + 1 ≤ (2 ^ format.precision : Nat) := by
      exact_mod_cast around.fits
    rw [fullPower]
    refine around.upper.trans_lt (mul_lt_mul_of_pos_right ?_ ulpPositive)
    linarith
  by_cases same : e = format.emin ∨ 2 ^ (e + format.precision - 1) ≤ x
  · exact ⟨e, f, ⟨around.low, below, same⟩, around.nearest, (min_eq_left finite).symm⟩
  · push Not at same
    obtain ⟨above, crosses⟩ := same
    have emin : format.emin < e := lt_of_le_of_ne around.low (Ne.symm above)
    -- below a power of two the last place is half as large
    have power : f = 2 ^ (format.precision - 1) := by
      have large := around.normal.resolve_left above
      rw [halfPower] at crosses
      have less : ((f : ℚ) - 1 / 2) < (2 ^ (format.precision - 1) : Nat) :=
        lt_of_mul_lt_mul_right (around.lower.trans_lt crosses) ulpPositive.le
      have : f < 2 ^ (format.precision - 1) + 1 := by
        have : (f : ℚ) < (2 ^ (format.precision - 1) : Nat) + 1 := by linarith
        exact_mod_cast this
      omega
    have quarter := around.quarter power emin
    have halfUlp : (2 : ℚ) ^ e = 2 ^ (e - 1) * 2 := by
      rw [← zpow_add_one₀ (by norm_num), sub_add_cancel]
    have halfPositive : (0 : ℚ) < 2 ^ (e - 1) := by positivity
    have fCast : (f : ℚ) = (2 ^ (format.precision - 1) : Nat) := by exact_mod_cast power
    have fLarge : (1 : ℚ) ≤ f := by
      rw [fCast]
      exact_mod_cast Nat.one_le_two_pow
    have lower : 2 * (f : ℚ) - 1 / 2 ≤ x / 2 ^ (e - 1) := by
      rw [le_div_iff₀ halfPositive]
      refine le_trans (le_of_eq ?_) quarter
      rw [halfUlp]
      ring
    have upper : x / 2 ^ (e - 1) < 2 * f := by
      rw [div_lt_iff₀ halfPositive]
      refine crosses.trans_eq ?_
      rw [halfPower, halfUlp, fCast]
      ring
    refine ⟨e - 1, 2 * f, ⟨by omega, ?_, Or.inr ?_⟩, ⟨?_, fun _ => by omega⟩, ?_⟩
    · have shift : e - 1 + (format.precision : Int) = e + format.precision - 1 := by ring
      rw [shift]
      exact crosses
    · have shift : e - 1 + (format.precision : Int) - 1 =
          (e + format.precision - 1) - 1 := by ring
      rw [shift, zpow_sub_one₀ (by norm_num), halfPower, ← fCast]
      refine le_trans ?_ quarter
      have : (f : ℚ) * 2 ^ e * 2⁻¹ = (f * 2⁻¹) * 2 ^ e := by ring
      rw [this]
      refine mul_le_mul_of_nonneg_right ?_ ulpPositive.le
      linarith
    · push_cast
      rw [abs_le]
      exact ⟨by linarith, by linarith⟩
    · have sameCode : format.code (2 * f) (e - 1) = format.code f e := by
        have step : (e - format.emin).toNat = (e - 1 - format.emin).toNat + 1 := by omega
        unfold code
        rw [step, Nat.add_mul, Nat.one_mul, ← power]
        omega
      rw [sameCode, min_eq_left finite]

theorem Encodes.around {f : Nat} {e : Int}
    (encodes : format.Encodes x (format.code f e)) (precise : 2 ≤ format.precision)
    (fits : f < 2 ^ format.precision) (low : format.emin ≤ e)
    (normal : e = format.emin ∨ 2 ^ (format.precision - 1) ≤ f)
    (finite : format.code f e < format.infinity) : format.Around f e x := by
  obtain ⟨u, n, ulp, nearest, sameCode⟩ := encodes
  have codeEq : format.code f e = format.code n u := by omega
  have ulpPositive : (0 : ℚ) < 2 ^ u := by positivity
  have double : 2 ^ format.precision = 2 * 2 ^ (format.precision - 1) := by
    rw [← Nat.pow_succ']
    congr 1
    omega
  have fullPower : (2 : ℚ) ^ (u + format.precision) = (2 ^ format.precision : Nat) * 2 ^ u := by
    rw [Nat.cast_pow, ← zpow_natCast, Nat.cast_ofNat, ← zpow_add₀ (by norm_num), add_comm]
  have halfPower : (2 : ℚ) ^ (u + format.precision - 1) =
      (2 ^ (format.precision - 1) : Nat) * 2 ^ u := by
    rw [zpow_sub_one₀ (by norm_num), fullPower, double]
    push_cast
    ring
  have below := ulp.below
  have scaledBelow : x / 2 ^ u < (2 ^ format.precision : Nat) := by
    rw [div_lt_iff₀ ulpPositive, ← fullPower]
    exact below
  have nFits := nearest.le_of_lt scaledBelow
  have nNormal : u = format.emin ∨ 2 ^ (format.precision - 1) ≤ n := by
    refine ulp.normal.imp_right fun large => nearest.ge_of_le ?_
    rw [le_div_iff₀ ulpPositive, ← halfPower]
    exact large
  have uLow := ulp.low
  obtain ⟨distance, tie⟩ := nearest
  have closeLower := (abs_le.mp distance).1
  have closeUpper := (abs_le.mp distance).2
  have lower : ((n : ℚ) - 1 / 2) * 2 ^ u ≤ x := by
    rw [← le_div_iff₀ ulpPositive]
    linarith
  have upper : x ≤ ((n : ℚ) + 1 / 2) * 2 ^ u := by
    rw [← div_le_iff₀ ulpPositive]
    linarith
  unfold code at codeEq
  rcases lt_trichotomy u e with less | same | greater
  · -- the number is below a power of two and was rounded up to it
    obtain ⟨steps, stepsEq⟩ : ∃ steps : Nat, (e - format.emin).toNat =
        (u - format.emin).toNat + 1 + steps := ⟨_, (Nat.add_sub_of_le (by omega)).symm⟩
    rw [stepsEq, Nat.add_mul, Nat.add_mul, Nat.one_mul] at codeEq
    have large := normal.resolve_left (by omega)
    have none : steps * 2 ^ (format.precision - 1) = 0 := by omega
    have noSteps : steps = 0 :=
      (Nat.mul_eq_zero.mp none).resolve_right (Nat.two_pow_pos _).ne'
    have power : f = 2 ^ (format.precision - 1) := by omega
    have nEq : n = 2 * f := by omega
    have eEq : e = u + 1 := by omega
    have even : f % 2 = 0 := by
      rw [power]
      exact Nat.mod_eq_zero_of_dvd (dvd_pow_self 2 (by omega))
    rw [nEq] at lower
    rw [fullPower, double, ← power] at below
    push_cast at lower below
    have ulpEq : (2 : ℚ) ^ e = 2 * 2 ^ u := by
      rw [eEq, zpow_add_one₀ (by norm_num), mul_comm]
    have quarter : ((f : ℚ) - 1 / 4) * 2 ^ e ≤ x := by
      rw [ulpEq]
      linarith
    refine ⟨fits, low, normal, ?_, ?_, fun odd => by omega, fun _ _ => quarter⟩
    · rw [ulpEq] at quarter ⊢
      linarith
    · rw [ulpEq]
      linarith
  · subst same
    have nEq : n = f := by omega
    subst nEq
    refine ⟨fits, low, normal, lower, upper, fun odd => ?_, fun power above => ?_⟩
    · have noTie : |x / 2 ^ u - n| ≠ 1 / 2 := fun half => by
        have := tie half
        omega
      have close := abs_lt.mp (lt_of_le_of_ne distance noTie)
      rw [← lt_div_iff₀ ulpPositive, ← div_lt_iff₀ ulpPositive]
      constructor <;> linarith [close.1, close.2]
    · have large := ulp.normal.resolve_left (by omega)
      rw [halfPower, ← power] at large
      linarith
  · obtain ⟨steps, stepsEq⟩ : ∃ steps : Nat, (u - format.emin).toNat =
        (e - format.emin).toNat + 1 + steps := ⟨_, (Nat.add_sub_of_le (by omega)).symm⟩
    rw [stepsEq, Nat.add_mul, Nat.add_mul, Nat.one_mul] at codeEq
    have large := nNormal.resolve_left (by omega)
    omega

end Format

end ClAmiga.Radix
