import Mathlib

/-!
# Trial quotients

One digit of long division is estimated from the leading words of the
operands.  Here the dividend window is `uHigh * unit + uLow`, the divisor
`vHigh * unit + vLow`, and the low parts stay below `unit`.  A trial digit that
overshoots on the high parts overshoots on the whole operands; one that does
not overshoot there is at most one too large.
-/

namespace ClAmiga.Radix

variable {base unit vHigh vLow uHigh uLow trial : Nat}

theorem quotient_lt_of_high_lt (vPositive : 0 < vHigh * unit + vLow)
    (uLowBound : uLow < unit) (overshoots : uHigh < trial * vHigh) :
    (uHigh * unit + uLow) / (vHigh * unit + vLow) < trial := by
  rw [Nat.div_lt_iff_lt_mul vPositive]
  calc
    uHigh * unit + uLow < uHigh * unit + unit := by omega
    _ = (uHigh + 1) * unit := by ring
    _ ≤ trial * vHigh * unit := Nat.mul_le_mul_right _ overshoots
    _ ≤ trial * vHigh * unit + trial * vLow := by omega
    _ = trial * (vHigh * unit + vLow) := by ring

/-- A trial digit that fits the high parts is at most one too large, once the
divisor is at least `base * unit`. -/
theorem le_quotient_succ_of_high_le (vLowBound : vLow < unit) (trialBound : trial ≤ base)
    (vLarge : base * unit ≤ vHigh * unit + vLow)
    (vPositive : 0 < vHigh * unit + vLow)
    (fits : trial * vHigh ≤ uHigh) :
    trial ≤ (uHigh * unit + uLow) / (vHigh * unit + vLow) + 1 := by
  cases trial with
  | zero => exact Nat.zero_le _
  | succ trial =>
      apply Nat.succ_le_succ
      rw [Nat.le_div_iff_mul_le vPositive]
      have lowPart : (trial + 1) * vLow ≤ base * unit :=
        Nat.mul_le_mul trialBound vLowBound.le
      have highPart : (trial + 1) * vHigh * unit ≤ uHigh * unit :=
        Nat.mul_le_mul_right _ fits
      have whole : (trial + 1) * (vHigh * unit + vLow) =
          (trial + 1) * vHigh * unit + (trial + 1) * vLow := by ring
      have step : (trial + 1) * (vHigh * unit + vLow) =
          trial * (vHigh * unit + vLow) + (vHigh * unit + vLow) := by ring
      omega

theorem quotient_le_of_leading {vTop vRest uLead uRest : Nat}
    (vTopPositive : 0 < vTop) (vPositive : 0 < vTop * unit + vRest)
    (uRestBound : uRest < unit) :
    (uLead * unit + uRest) / (vTop * unit + vRest) ≤ uLead / vTop := by
  apply Nat.le_of_lt_succ
  apply quotient_lt_of_high_lt vPositive uRestBound
  have division := Nat.div_add_mod uLead vTop
  have remainder := Nat.mod_lt uLead vTopPositive
  calc
    uLead = vTop * (uLead / vTop) + uLead % vTop := division.symm
    _ < vTop * (uLead / vTop) + vTop := by omega
    _ = (uLead / vTop + 1) * vTop := by ring

end ClAmiga.Radix
