import ClAmiga.Radix.Nearest

/-!
# Ranges of constant rounding

Rounding changes only at the numbers halfway between two neighbours of a
format.  Below half the least magnitude everything is rounded to zero, from the
power of two after the largest magnitude on everything to infinity, and between
two breakpoints all numbers have one encoding.
-/

namespace ClAmiga.Radix

theorem exists_nearest {x : ℚ} (nonneg : 0 ≤ x) : ∃ n, Nearest x n := by
  have floorLe := Nat.floor_le nonneg
  have ltFloor := Nat.lt_floor_add_one x
  generalize ⌊x⌋₊ = f at *
  rcases lt_trichotomy (x - f) (1 / 2) with below | tie | above
  · refine ⟨f, ?_, fun half => ?_⟩
    · rw [abs_le]
      constructor <;> linarith
    · rw [abs_of_nonneg (by linarith)] at half
      exact absurd half below.ne
  · by_cases even : f % 2 = 0
    · refine ⟨f, ?_, fun _ => even⟩
      rw [tie, abs_of_nonneg (by norm_num)]
    · refine ⟨f + 1, ?_, fun _ => by omega⟩
      have away : x - ((f + 1 : Nat) : ℚ) = -(1 / 2) := by
        push_cast
        linarith
      rw [away, abs_neg, abs_of_nonneg (by norm_num)]
  · refine ⟨f + 1, ?_, fun half => ?_⟩
    · push_cast
      rw [abs_le]
      constructor <;> linarith
    · push_cast at half
      rw [abs_of_nonpos (by linarith)] at half
      linarith

namespace Format

variable {format : Format}

theorem exists_ulp {x : ℚ} (large : 2 ^ (format.emin + format.precision - 1) ≤ x) :
    ∃ u, format.Ulp x u ∧ 2 ^ (u + format.precision - 1) ≤ x := by
  have positive : 0 < x := lt_of_lt_of_le (by positivity) large
  have low := Int.zpow_log_le_self (by norm_num : 1 < 2) positive
  have high := Int.lt_zpow_succ_log_self (by norm_num : 1 < 2) x
  rw [Nat.cast_ofNat] at low high
  have above : format.emin + format.precision - 1 ≤ Int.log 2 x := by
    have := (zpow_lt_zpow_iff_right₀ (by norm_num : (1 : ℚ) < 2)).mp (large.trans_lt high)
    omega
  have lower : Int.log 2 x - format.precision + 1 + format.precision - 1 = Int.log 2 x := by
    ring
  have upper : Int.log 2 x - format.precision + 1 + format.precision = Int.log 2 x + 1 := by
    ring
  have normal : 2 ^ (Int.log 2 x - format.precision + 1 + format.precision - 1) ≤ x := by
    rw [lower]
    exact low
  refine ⟨Int.log 2 x - format.precision + 1, ⟨by omega, ?_, Or.inr normal⟩, normal⟩
  rw [upper]
  exact high

theorem encodes_zero {x : ℚ} (precise : 1 ≤ format.precision) (nonneg : 0 ≤ x)
    (tiny : x < 2 ^ (format.emin - 1)) : format.Encodes x 0 := by
  have half : x / 2 ^ format.emin < 1 / 2 := by
    rw [div_lt_iff₀ (by positivity)]
    rw [zpow_sub_one₀ (by norm_num)] at tiny
    linarith
  have scaledNonneg : 0 ≤ x / 2 ^ format.emin := by positivity
  refine ⟨format.emin, 0, ⟨le_rfl, ?_, Or.inl rfl⟩, ⟨?_, ?_⟩, ?_⟩
  · exact tiny.trans (zpow_lt_zpow_right₀ (by norm_num) (by omega))
  · rw [Nat.cast_zero, sub_zero, abs_of_nonneg scaledNonneg]
    exact half.le
  · exact fun _ => rfl
  · simp [code]

theorem encodes_infinity {x : ℚ} {steps : Nat}
    (large : 2 ^ (format.emin + format.precision - 1 + steps) ≤ x)
    (infinite : format.infinity ≤ (steps + 1) * 2 ^ (format.precision - 1))
    (precise : 1 ≤ format.precision) : format.Encodes x format.infinity := by
  have least : (2 : ℚ) ^ (format.emin + format.precision - 1) ≤
      2 ^ (format.emin + format.precision - 1 + (steps : Int)) :=
    zpow_le_zpow_right₀ (by norm_num) (by omega)
  obtain ⟨u, ulp, normal⟩ := exists_ulp (least.trans large)
  have positive : 0 < x := lt_of_lt_of_le (by positivity) large
  obtain ⟨n, nearest⟩ := exists_nearest (show 0 ≤ x / 2 ^ u by positivity)
  refine ⟨u, n, ulp, nearest, (min_eq_right ?_).symm⟩
  have high : format.emin + steps ≤ u := by
    have := (zpow_lt_zpow_iff_right₀ (by norm_num : (1 : ℚ) < 2)).mp (large.trans_lt ulp.below)
    omega
  have full : 2 ^ (format.precision - 1) ≤ n := by
    apply nearest.ge_of_le
    rw [le_div_iff₀ (by positivity)]
    refine le_trans (le_of_eq ?_) normal
    have exponent : ((format.precision - 1 : Nat) : Int) + u = u + format.precision - 1 := by
      omega
    rw [Nat.cast_pow, Nat.cast_ofNat, ← zpow_natCast, ← zpow_add₀ (by norm_num), exponent]
  have climbed : steps ≤ (u - format.emin).toNat := by omega
  have scaled := Nat.mul_le_mul_right (2 ^ (format.precision - 1)) climbed
  rw [Nat.add_mul, Nat.one_mul] at infinite
  unfold code
  omega

/-- A number of the format or a midpoint of two of them, up to the next power
of two after a full mantissa. -/
def Breakpoint (format : Format) (z : ℚ) : Prop :=
  ∃ (j : Nat) (q : Int), j ≤ 2 ^ (format.precision + 1) ∧ format.emin - 1 ≤ q ∧
    z = j * 2 ^ q

theorem breakpoint_two_zpow {q : Int} (low : format.emin - 1 ≤ q) : format.Breakpoint (2 ^ q) :=
  ⟨1, q, Nat.one_le_two_pow, low, by rw [Nat.cast_one, one_mul]⟩

theorem breakpoint_half {n : Nat} {u : Int} (low : format.emin ≤ u)
    (fits : 2 * n + 1 ≤ 2 ^ (format.precision + 1)) :
    format.Breakpoint ((n + 1 / 2) * 2 ^ u) := by
  refine ⟨2 * n + 1, u - 1, fits, by omega, ?_⟩
  rw [zpow_sub_one₀ (by norm_num)]
  push_cast
  ring

/-- All numbers of an interval without breakpoints have one encoding. -/
theorem Encodes.of_clear {x y : ℚ} {bits : Nat} (encodes : format.Encodes y bits)
    (nonneg : 0 ≤ y) (le : y ≤ x)
    (clear : ∀ z, format.Breakpoint z → y ≤ z → x < z) : format.Encodes x bits := by
  obtain ⟨u, n, ⟨low, below, normal⟩, nearest, rfl⟩ := encodes
  have uPositive : (0 : ℚ) < 2 ^ u := by positivity
  have xBelow : x < 2 ^ (u + format.precision) :=
    clear _ (breakpoint_two_zpow (by omega)) below.le
  have scaledBelow : y / 2 ^ u < (2 ^ format.precision : Nat) := by
    rw [div_lt_iff₀ uPositive]
    refine below.trans_eq ?_
    rw [Nat.cast_pow, Nat.cast_ofNat, ← zpow_natCast, ← zpow_add₀ (by norm_num), add_comm]
  have fits : n ≤ 2 ^ format.precision := nearest.le_of_lt scaledBelow
  have power : 2 ^ (format.precision + 1) = 2 * 2 ^ format.precision := Nat.pow_succ'
  obtain ⟨distance, tie⟩ := nearest
  rw [abs_le] at distance
  have xUpper : x / 2 ^ u < n + 1 / 2 := by
    rw [div_lt_iff₀ uPositive]
    by_cases full : n = 2 ^ format.precision
    · refine xBelow.trans_le ?_
      rw [zpow_add₀ (by norm_num), mul_comm, zpow_natCast, full]
      push_cast
      exact mul_le_mul_of_nonneg_right (by norm_num) uPositive.le
    · apply clear _ (breakpoint_half low (by omega))
      rw [← div_le_iff₀ uPositive]
      linarith [distance.2]
  have xLower : (n : ℚ) - 1 / 2 < x / 2 ^ u ∨ (n : ℚ) - 1 / 2 = y / 2 ^ u := by
    have grows : y / 2 ^ u ≤ x / 2 ^ u := div_le_div_of_nonneg_right le uPositive.le
    rcases lt_or_eq_of_le (show (n : ℚ) - 1 / 2 ≤ y / 2 ^ u by linarith [distance.1]) with
      less | same
    · exact Or.inl (less.trans_le grows)
    · exact Or.inr same
  refine ⟨u, n, ⟨low, xBelow, ?_⟩, ?_, rfl⟩
  · exact normal.imp_right fun large => large.trans le
  · have notTie : (n : ℚ) - 1 / 2 ≠ y / 2 ^ u := by
      intro same
      have scaledNonneg : 0 ≤ y / 2 ^ u := by positivity
      obtain ⟨m, rfl⟩ : ∃ m, n = m + 1 := by
        apply Nat.exists_eq_add_one_of_ne_zero
        rintro rfl
        rw [Nat.cast_zero] at same
        linarith
      have midpoint : y = (m + 1 / 2) * 2 ^ u := by
        rw [← div_eq_iff uPositive.ne', ← same]
        push_cast
        ring
      have less := clear _ (breakpoint_half low (by omega)) midpoint.le
      rw [← midpoint] at less
      exact absurd le (not_le.mpr less)
    have less := xLower.resolve_right notTie
    have small : |x / 2 ^ u - n| < 1 / 2 := by
      rw [abs_lt]
      constructor <;> linarith
    exact ⟨small.le, fun half => absurd half small.ne⟩

end Format

end ClAmiga.Radix
