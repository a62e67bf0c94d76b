import ClAmiga.Bignum.Divide

/-!
# Exactness of multi-limb division

The refined trial digit is the quotient digit or one more; multiply-and-subtract
goes negative exactly in the second case, and the add-back repairs it.  One
step therefore divides the window exactly, and the loop over the digits
divides the whole dividend.
-/

namespace ClAmiga.Bignum

open Radix

/-- `refineQhat` keeps the true digit `digit` below its result and stops with a
one-limb value that fits the two leading divisor limbs. -/
theorem refineQhat_spec {vTop vNext uTop uMid uNext digit : Nat}
    (vNextBound : vNext < 2 ^ 16) (uMidBound : uMid < 2 ^ 16)
    (uNextBound : uNext < 2 ^ 16) (uTopLe : uTop ≤ vTop)
    (digitBound : digit < 2 ^ 16)
    (sound : ∀ trial, (uTop * 2 ^ 16 + uMid) * 2 ^ 16 + uNext <
      trial * (vTop * 2 ^ 16 + vNext) → digit < trial)
    (qhat rhat : Nat) (rhatBound : rhat < 2 ^ 16)
    (invariant : qhat * vTop + rhat = uTop * 2 ^ 16 + uMid)
    (above : digit ≤ qhat) :
    digit ≤ refineQhat vTop vNext uNext qhat rhat ∧ refineQhat vTop vNext uNext qhat rhat < 2 ^ 16 ∧
      refineQhat vTop vNext uNext qhat rhat * (vTop * 2 ^ 16 + vNext) ≤
        (uTop * 2 ^ 16 + uMid) * 2 ^ 16 + uNext := by
  induction qhat generalizing rhat with
  | zero => simpa [refineQhat] using above
  | succ qhat induction =>
      have uTopScaled : uTop * 2 ^ 16 ≤ vTop * 2 ^ 16 :=
        Nat.mul_le_mul_right _ uTopLe
      have stepInvariant : qhat * vTop + (rhat + vTop) = uTop * 2 ^ 16 + uMid := by
        rw [← invariant]
        ring
      rw [refineQhat, join16_eq rhatBound uNextBound]
      by_cases tooLarge : qhat + 1 ≥ 0x10000 ∨ (qhat + 1) * vNext % 2 ^ 32 > rhat * 2 ^ 16 + uNext
      · rw [if_pos tooLarge]
        have lowered : digit ≤ qhat := by
          apply Nat.le_of_lt_succ
          by_cases big : qhat + 1 ≥ 0x10000
          · omega
          · have productBound : (qhat + 1) * vNext ≤ (2 ^ 16 - 1) * 2 ^ 16 :=
              Nat.mul_le_mul (by omega) (by omega)
            rcases tooLarge with impossible | overshoots
            · exact (big impossible).elim
            · rw [Nat.mod_eq_of_lt (by omega)] at overshoots
              apply sound
              calc
                (uTop * 2 ^ 16 + uMid) * 2 ^ 16 + uNext
                    = ((qhat + 1) * vTop + rhat) * 2 ^ 16 + uNext := by
                  rw [invariant]
                _ = (qhat + 1) * vTop * 2 ^ 16 + (rhat * 2 ^ 16 + uNext) := by
                  ring
                _ < (qhat + 1) * vTop * 2 ^ 16 + (qhat + 1) * vNext :=
                  Nat.add_lt_add_left overshoots _
                _ = (qhat + 1) * (vTop * 2 ^ 16 + vNext) := by ring
        by_cases stop : rhat + vTop ≥ 0x10000
        · rw [if_pos stop]
          have small : qhat < 2 ^ 16 := by
            by_contra large
            have := Nat.mul_le_mul_right vTop (Nat.le_of_not_lt large)
            omega
          have nextFits : qhat * vNext ≤ (2 ^ 16 - 1) * 2 ^ 16 :=
            Nat.mul_le_mul (by omega) (by omega)
          refine ⟨lowered, small, ?_⟩
          calc
            qhat * (vTop * 2 ^ 16 + vNext)
                = qhat * vTop * 2 ^ 16 + qhat * vNext := by ring
            _ ≤ qhat * vTop * 2 ^ 16 + (rhat + vTop) * 2 ^ 16 :=
              Nat.add_le_add_left (nextFits.trans (Nat.mul_le_mul_right _ (by omega))) _
            _ = (qhat * vTop + (rhat + vTop)) * 2 ^ 16 := by ring
            _ = (uTop * 2 ^ 16 + uMid) * 2 ^ 16 := by rw [stepInvariant]
            _ ≤ (uTop * 2 ^ 16 + uMid) * 2 ^ 16 + uNext :=
              Nat.le_add_right _ _
        · rw [if_neg stop]
          exact induction (rhat + vTop) (by omega) stepInvariant lowered
      · rw [if_neg tooLarge]
        have small : qhat + 1 < 2 ^ 16 := by omega
        have productBound : (qhat + 1) * vNext ≤ (2 ^ 16 - 1) * 2 ^ 16 :=
          Nat.mul_le_mul (by omega) (by omega)
        have fits : (qhat + 1) * vNext ≤ rhat * 2 ^ 16 + uNext := by
          rw [Nat.mod_eq_of_lt (by omega)] at tooLarge
          omega
        refine ⟨above, small, ?_⟩
        calc
          (qhat + 1) * (vTop * 2 ^ 16 + vNext)
              = (qhat + 1) * vTop * 2 ^ 16 + (qhat + 1) * vNext := by ring
          _ ≤ (qhat + 1) * vTop * 2 ^ 16 + (rhat * 2 ^ 16 + uNext) :=
            Nat.add_le_add_left fits _
          _ = ((qhat + 1) * vTop + rhat) * 2 ^ 16 + uNext := by ring
          _ = (uTop * 2 ^ 16 + uMid) * 2 ^ 16 + uNext := by rw [invariant]

theorem limb_ofInt_add (diff : Int) :
    ((BitVec.ofInt 16 diff).toNat : Int) + 2 ^ 16 * (diff / 2 ^ 16) = diff := by
  rw [BitVec.toNat_ofInt]
  omega

/-- The running carry and borrow complete the difference; neither outgrows one
limb. -/
theorem mulSub_spec (qhat : Nat) (qhatBound : qhat < 2 ^ 16)
    (v u : List Limb) (carry : Nat) (borrow : Int)
    (covered : v.length ≤ u.length)
    (carryBound : carry < 2 ^ 16) (borrowLow : -1 ≤ borrow)
    (borrowHigh : borrow ≤ 0) :
    (mulSub qhat v u carry borrow).1.length = v.length ∧
      (mulSub qhat v u carry borrow).2.1 < 2 ^ 16 ∧
      -1 ≤ (mulSub qhat v u carry borrow).2.2 ∧
      (mulSub qhat v u carry borrow).2.2 ≤ 0 ∧
      (value (mulSub qhat v u carry borrow).1 : Int) + qhat * value v + carry - borrow =
        value (u.take v.length) + (2 ^ 16) ^ v.length * ((mulSub qhat v u carry borrow).2.1 -
            (mulSub qhat v u carry borrow).2.2) := by
  induction v generalizing u carry borrow with
  | nil => simpa [mulSub] using ⟨carryBound, borrowLow, borrowHigh⟩
  | cons y ys induction =>
      cases u with
      | nil => simp at covered
      | cons x xs =>
          have xBound := x.isLt
          have yBound := y.isLt
          have productBound : qhat * y.toNat ≤ (2 ^ 16 - 1) * (2 ^ 16 - 1) :=
            Nat.mul_le_mul (by omega) (by omega)
          have exactProduct : (qhat * y.toNat + carry) % 2 ^ 32 =
              qhat * y.toNat + carry := Nat.mod_eq_of_lt (by omega)
          simp only [mulSub, exactProduct]
          generalize productEq : qhat * y.toNat + carry = prod
          have prodBound : prod < 2 ^ 32 := by omega
          have nextBound : prod >>> 16 < 2 ^ 16 := by
            rw [Nat.shiftRight_eq_div_pow]
            omega
          have prodSplit : prod % 2 ^ 16 + 2 ^ 16 * (prod >>> 16) = prod := by
            rw [Nat.shiftRight_eq_div_pow]
            omega
          generalize diffEq : (x.toNat : Int) - ((prod % 2 ^ 16 : Nat) : Int) + borrow = diff
          have diffSplit := limb_ofInt_add diff
          have residueBound : prod % 2 ^ 16 < 2 ^ 16 :=
            Nat.mod_lt _ (by omega)
          have notClamped : ¬ diff / 2 ^ 16 < -1 := by omega
          rw [if_neg notClamped]
          obtain ⟨restLength, restCarry, restLow, restHigh, restValue⟩ :=
            induction xs (prod >>> 16) (diff / 2 ^ 16) (by simpa using covered)
              nextBound (by omega) (by omega)
          generalize mulSub qhat ys xs (prod >>> 16) (diff / 2 ^ 16) = rest
            at restLength restCarry restLow restHigh restValue ⊢
          refine ⟨by simpa using restLength, restCarry, restLow, restHigh, ?_⟩
          simp only [value_cons, List.take_succ_cons, List.length_cons, pow_succ]
          push_cast
          have productInt : (qhat : Int) * y.toNat + carry = prod := by
            exact_mod_cast productEq
          have prodSplitInt : ((prod % 2 ^ 16 : Nat) : Int) +
              2 ^ 16 * ((prod >>> 16 : Nat) : Int) = prod := by
            exact_mod_cast prodSplit
          linear_combination (2 ^ 16 : Int) * restValue + diffSplit - diffEq
            + productInt - prodSplitInt

/-- Adding the divisor back, with its carry. -/
theorem addBack_spec (v u : List Limb) (carry : Nat)
    (sameLength : u.length = v.length) (small : carry ≤ 1) :
    (addBack v u carry).1.length = v.length ∧ (addBack v u carry).2 ≤ 1 ∧
      value (addBack v u carry).1 + (2 ^ 16) ^ v.length * (addBack v u carry).2
        = value u + value v + carry := by
  induction v generalizing u carry with
  | nil =>
      have uNil : u = [] := List.eq_nil_of_length_eq_zero sameLength
      subst uNil
      simpa [addBack] using small
  | cons y ys induction =>
      cases u with
      | nil => simp at sameLength
      | cons x xs =>
          have xBound := x.isLt
          have yBound := y.isLt
          have exactSum : (x.toNat + y.toNat + carry) % 2 ^ 32 =
              x.toNat + y.toNat + carry := Nat.mod_eq_of_lt (by omega)
          have nextSmall : (x.toNat + y.toNat + carry) >>> 16 ≤ 1 := by
            rw [Nat.shiftRight_eq_div_pow]
            omega
          obtain ⟨restLength, restCarry, restValue⟩ :=
            induction xs _ (by simpa using sameLength) nextSmall
          simp only [addBack, exactSum]
          refine ⟨by simpa using restLength, restCarry, ?_⟩
          calc
            _ = x.toNat + y.toNat + carry + 2 ^ 16 * (value xs + value ys) :=
              value_carry restValue
            _ = value (x :: xs) + value (y :: ys) + carry := by
              rw [value_cons, value_cons]
              ring

/-- A number below `modulus` that differs from a residue by a multiple of
`modulus` pins the multiple down. -/
theorem multiple_eq_zero {modulus residue number multiple : Int}
    (residueNonneg : 0 ≤ residue) (residueBound : residue < modulus)
    (numberNonneg : 0 ≤ number) (numberBound : number < modulus)
    (relation : number = residue - modulus * multiple) : multiple = 0 := by
  have low : multiple < 1 := by
    by_contra large
    nlinarith
  have high : -1 < multiple := by
    by_contra small
    nlinarith
  omega

/-- Multiply-and-subtract over a whole window: the borrow out of the top limb
is the multiple of the window's modulus that was added. -/
theorem mulSub_window (qhat : Nat) (qhatBound : qhat < 2 ^ 16)
    (v window : List Limb) (windowLength : window.length = v.length + 1) :
    let low := mulSub qhat v window 0 0
    let diff : Int :=
      ((window.getD v.length 0).toNat : Int) - (low.2.1 : Int) + low.2.2
    low.1.length = v.length ∧ (value (low.1 ++ [BitVec.ofInt 16 diff]) : Int) =
        value window - qhat * value v - (2 ^ 16) ^ (v.length + 1) * (diff / 2 ^ 16) := by
  intro low diff
  obtain ⟨lowLength, _, _, _, lowValue⟩ :=
    mulSub_spec qhat qhatBound v window 0 0 (by omega) (by omega) (by omega) (by omega)
  refine ⟨lowLength, ?_⟩
  have windowShape : window = window.take v.length ++ [window.getD v.length 0] := by
    rw [← take_succ_eq_append_getD window v.length (by omega), ← windowLength, List.take_length]
  have windowValue : value window = value (window.take v.length) +
      (2 ^ 16) ^ v.length * (window.getD v.length 0).toNat := by
    conv_lhs => rw [windowShape, value_append]
    simp [List.length_take, windowLength]
  have topSplit := limb_ofInt_add diff
  have diffEq : diff = ((window.getD v.length 0).toNat : Int) -
      (low.2.1 : Int) + low.2.2 := rfl
  rw [value_append, lowLength, windowValue]
  simp only [value_cons, value_nil, pow_succ]
  push_cast
  push_cast at lowValue topSplit
  linear_combination lowValue + (65536 ^ v.length : Int) * topSplit
    + (65536 ^ v.length : Int) * diffEq

/-- A divisor of at least two limbs whose top limb has its high bit set, and a
window of one limb more whose quotient is a single limb. -/
structure DivWindow (v window : List Limb) where
  vLow : List Limb
  vNext : Limb
  vTop : Limb
  uLow : List Limb
  uNext : Limb
  uMid : Limb
  uTop : Limb
  v_eq : v = vLow ++ [vNext, vTop]
  window_eq : window = uLow ++ [uNext, uMid, uTop]
  sameLength : uLow.length = vLow.length
  highBit : 0x8000 ≤ vTop.toNat
  small : value window < 2 ^ 16 * value v

namespace DivWindow

variable {v window : List Limb} (shape : DivWindow v window)

include shape

def unit : Nat := (2 ^ 16) ^ shape.vLow.length

theorem unit_pos : 0 < shape.unit :=
  Nat.pow_pos (by omega)

theorem length_v : v.length = shape.vLow.length + 2 := by
  have lengths := congrArg List.length shape.v_eq
  simpa using lengths

theorem length_window : window.length = v.length + 1 := by
  have lengths := congrArg List.length shape.window_eq
  rw [shape.length_v]
  simpa [shape.sameLength] using lengths

theorem vLow_lt : value shape.vLow < shape.unit :=
  value_lt shape.vLow

theorem uLow_lt : value shape.uLow < shape.unit := by
  rw [unit, ← shape.sameLength]
  exact value_lt shape.uLow

theorem value_v : value v = (shape.vTop.toNat * 2 ^ 16 + shape.vNext.toNat) * shape.unit +
      value shape.vLow := by
  conv_lhs => rw [shape.v_eq, value_append]
  simp only [value_cons, value_nil, unit]
  ring

theorem value_window : value window = ((shape.uTop.toNat * 2 ^ 16 + shape.uMid.toNat) * 2 ^ 16 +
      shape.uNext.toNat) * shape.unit + value shape.uLow := by
  conv_lhs => rw [shape.window_eq, value_append]
  simp only [value_cons, value_nil, unit, shape.sameLength]
  ring

theorem unit_le_v : 2 ^ 16 * shape.unit ≤ value v := by
  have highBit := shape.highBit
  have leading : 2 ^ 16 * shape.unit ≤
      (shape.vTop.toNat * 2 ^ 16 + shape.vNext.toNat) * shape.unit :=
    Nat.mul_le_mul_right _ (by omega)
  rw [shape.value_v]
  exact leading.trans (Nat.le_add_right _ _)

theorem v_pos : 0 < value v :=
  lt_of_lt_of_le (Nat.mul_pos (by omega) shape.unit_pos) shape.unit_le_v

theorem quotient_lt : value window / value v < 2 ^ 16 := by
  rw [Nat.div_lt_iff_lt_mul shape.v_pos]
  exact shape.small

theorem uTop_le : shape.uTop.toNat ≤ shape.vTop.toNat := by
  by_contra larger
  have vNextBound := shape.vNext.isLt
  have windowLarge : (shape.vTop.toNat + 1) * 2 ^ 32 * shape.unit ≤ value window := by
    rw [shape.value_window]
    refine le_trans (Nat.mul_le_mul_right _ ?_) (Nat.le_add_right _ _)
    omega
  have vSmall : 2 ^ 16 * value v ≤ (shape.vTop.toNat + 1) * 2 ^ 32 * shape.unit := by
    have vLowBound := shape.vLow_lt
    calc
      2 ^ 16 * value v ≤ 2 ^ 16 * ((shape.vTop.toNat * 2 ^ 16 + shape.vNext.toNat + 1) *
              shape.unit) := by
        apply Nat.mul_le_mul_left
        rw [shape.value_v, Nat.succ_mul]
        omega
      _ ≤ 2 ^ 16 * ((shape.vTop.toNat + 1) * 2 ^ 16 * shape.unit) := by
        apply Nat.mul_le_mul_left
        apply Nat.mul_le_mul_right
        omega
      _ = (shape.vTop.toNat + 1) * 2 ^ 32 * shape.unit := by ring
  exact absurd shape.small (Nat.not_lt.mpr (vSmall.trans windowLarge))

theorem quotient_lt_of_overshoot (trial : Nat)
    (overshoots : (shape.uTop.toNat * 2 ^ 16 + shape.uMid.toNat) * 2 ^ 16 + shape.uNext.toNat <
        trial * (shape.vTop.toNat * 2 ^ 16 + shape.vNext.toNat)) :
    value window / value v < trial := by
  have positive := shape.v_pos
  rw [shape.value_v] at positive
  rw [shape.value_window, shape.value_v]
  exact quotient_lt_of_high_lt positive shape.uLow_lt overshoots

theorem quotient_le_leading : value window / value v ≤
    (shape.uTop.toNat * 2 ^ 16 + shape.uMid.toNat) / shape.vTop.toNat := by
  have highBit := shape.highBit
  have uNextBound := shape.uNext.isLt
  have uLowBound := shape.uLow_lt
  have positive := shape.v_pos
  have vLead : value v = shape.vTop.toNat * (2 ^ 16 * shape.unit) +
      (shape.vNext.toNat * shape.unit + value shape.vLow) := by
    rw [shape.value_v]
    ring
  have windowLead : value window =
      (shape.uTop.toNat * 2 ^ 16 + shape.uMid.toNat) * (2 ^ 16 * shape.unit) +
        (shape.uNext.toNat * shape.unit + value shape.uLow) := by
    rw [shape.value_window]
    ring
  have restBound : shape.uNext.toNat * shape.unit + value shape.uLow < 2 ^ 16 * shape.unit := by
    calc
      shape.uNext.toNat * shape.unit + value shape.uLow < (shape.uNext.toNat + 1) * shape.unit := by
        rw [Nat.succ_mul]
        omega
      _ ≤ 2 ^ 16 * shape.unit := Nat.mul_le_mul_right _ (by omega)
  rw [vLead] at positive
  rw [vLead, windowLead]
  exact quotient_le_of_leading (by omega) positive restBound

/-- The estimate is the quotient digit or one more. -/
theorem estimateQhat_spec : value window / value v ≤ estimateQhat v window ∧
      estimateQhat v window ≤ value window / value v + 1 ∧
      estimateQhat v window < 2 ^ 16 := by
  have highBit := shape.highBit
  have vTopBound := shape.vTop.isLt
  have positive := shape.v_pos
  have large := shape.unit_le_v
  have division := Nat.div_add_mod (shape.uTop.toNat * 2 ^ 16 + shape.uMid.toNat) shape.vTop.toNat
  have remainderBound := Nat.mod_lt (shape.uTop.toNat * 2 ^ 16 + shape.uMid.toNat)
    (show 0 < shape.vTop.toNat by omega)
  have expand : estimateQhat v window =
      refineQhat shape.vTop.toNat shape.vNext.toNat shape.uNext.toNat
        ((shape.uTop.toNat * 2 ^ 16 + shape.uMid.toNat) / shape.vTop.toNat)
        ((shape.uTop.toNat * 2 ^ 16 + shape.uMid.toNat) % shape.vTop.toNat) := by
    rw [← join16_eq shape.uTop.isLt shape.uMid.isLt]
    simp [estimateQhat, shape.v_eq, shape.window_eq, ← shape.sameLength, List.getD_eq_getElem?_getD]
  obtain ⟨above, bound, fits⟩ := refineQhat_spec shape.vNext.isLt
    shape.uMid.isLt shape.uNext.isLt shape.uTop_le shape.quotient_lt
    shape.quotient_lt_of_overshoot
    ((shape.uTop.toNat * 2 ^ 16 + shape.uMid.toNat) / shape.vTop.toNat)
    ((shape.uTop.toNat * 2 ^ 16 + shape.uMid.toNat) % shape.vTop.toNat)
    (by omega) (by rw [Nat.mul_comm]; exact division)
    shape.quotient_le_leading
  rw [expand]
  refine ⟨above, ?_, bound⟩
  rw [shape.value_v] at positive large
  rw [shape.value_window, shape.value_v]
  exact le_quotient_succ_of_high_le shape.vLow_lt bound.le large positive fits

end DivWindow

/-- A window that holds `W % V - V` modulo its size, the add-back turns into
one that holds `W % V`. -/
theorem addBack_window (v low : List Limb) (top : Limb) (residue : Nat)
    (lowLength : low.length = v.length)
    (negative : value (low ++ [top]) + value v = (2 ^ 16) ^ (v.length + 1) + residue) :
    let back := addBack v low 0
    (back.1 ++ [top + BitVec.ofNat 16 back.2]).length = v.length + 1 ∧
      value (back.1 ++ [top + BitVec.ofNat 16 back.2]) = residue := by
  intro back
  obtain ⟨backLength, backCarry, backValue⟩ : back.1.length = v.length ∧ back.2 ≤ 1 ∧
        value back.1 + (2 ^ 16) ^ v.length * back.2 = value low + value v + 0 :=
    addBack_spec v low 0 lowLength (by omega)
  have backBound := value_lt back.1
  rw [backLength] at backBound
  have topBound := top.isLt
  have balance : value back.1 + (2 ^ 16) ^ v.length * (top.toNat + back.2) =
      (2 ^ 16) ^ v.length * 2 ^ 16 + residue := by
    rw [value_append, lowLength, pow_succ (2 ^ 16) v.length] at negative
    simp only [value_cons, value_nil, Nat.mul_zero, Nat.add_zero] at negative
    rw [← negative, Nat.mul_add]
    omega
  -- The carry of the addition cancels the borrow: the top limb wraps to zero.
  have wraps : top.toNat + back.2 = 2 ^ 16 := by
    have atLeast : 2 ^ 16 - 1 < top.toNat + back.2 := by
      by_contra less
      have scaled := Nat.mul_le_mul_left ((2 ^ 16) ^ v.length) (Nat.le_of_not_lt less)
      omega
    omega
  have topZero : top + BitVec.ofNat 16 back.2 = 0 := by
    apply BitVec.eq_of_toNat_eq
    rw [BitVec.toNat_add, BitVec.toNat_ofNat,
      Nat.mod_eq_of_lt (show back.2 < 2 ^ 16 by omega), wraps]
    rfl
  rw [wraps] at balance
  refine ⟨by simp [backLength], ?_⟩
  rw [topZero, value_append]
  simp only [value_cons, value_nil, BitVec.ofNat_eq_ofNat, BitVec.toNat_ofNat,
    Nat.zero_mod, Nat.mul_zero, Nat.add_zero]
  omega

/-- One step divides its window exactly. -/
theorem divStep_spec {v window : List Limb} (shape : DivWindow v window) :
    (divStep v window).1.toNat = value window / value v ∧
      (divStep v window).2.length = v.length + 1 ∧
      value (divStep v window).2 = value window % value v := by
  obtain ⟨above, atMostOneMore, qhatBound⟩ := shape.estimateQhat_spec
  have vPositive := shape.v_pos
  have vBound := value_lt v
  unfold divStep
  generalize estimateQhat v window = qhat at above atMostOneMore qhatBound ⊢
  obtain ⟨lowLength, lowValue⟩ := mulSub_window qhat qhatBound v window shape.length_window
  simp only
  generalize mulSub qhat v window 0 0 = low at lowLength lowValue ⊢
  generalize ((window.getD v.length 0).toNat : Int) - (low.2.1 : Int) +
    low.2.2 = diff at lowValue ⊢
  have differenceBound := value_lt (low.1 ++ [(BitVec.ofInt 16 diff : Limb)])
  rw [List.length_append, List.length_singleton, lowLength] at differenceBound
  have windowDivision := Nat.div_add_mod (value window) (value v)
  have residueBound := Nat.mod_lt (value window) vPositive
  have modulusBound : value v < (2 ^ 16) ^ (v.length + 1) :=
    vBound.trans_le (Nat.pow_le_pow_right (by omega) (by omega))
  rcases Nat.lt_or_ge (value window / value v) qhat with tooLarge | exactDigit
  · have qhatEq : qhat = value window / value v + 1 := by omega
    have total : value window + value v = qhat * value v + value window % value v := by
      rw [qhatEq, Nat.succ_mul, Nat.mul_comm]
      omega
    have relation : (value (low.1 ++ [(BitVec.ofInt 16 diff : Limb)]) : Int) =
        (((2 ^ 16) ^ (v.length + 1) + value window % value v - value v : Nat)
          : Int) - (2 ^ 16) ^ (v.length + 1) * (diff / 2 ^ 16 + 1) := by
      have totalInt : (value window : Int) + value v =
          qhat * value v + (value window % value v : Nat) := by
        exact_mod_cast total
      rw [Nat.cast_sub (by omega)]
      push_cast at lowValue totalInt ⊢
      linear_combination lowValue + totalInt
    have borrowed : diff / 2 ^ 16 + 1 = 0 :=
      multiple_eq_zero (Int.natCast_nonneg _) (by
          have : (2 ^ 16) ^ (v.length + 1) + value window % value v - value v
              < (2 ^ 16) ^ (v.length + 1) := by omega
          exact_mod_cast this)
        (Int.natCast_nonneg _) (by exact_mod_cast differenceBound) relation
    rw [borrowed, mul_zero, sub_zero] at relation
    have differenceValue := Int.ofNat_inj.mp relation
    obtain ⟨backLength, backValue⟩ := addBack_window v low.1
      (BitVec.ofInt 16 diff) (value window % value v) lowLength (by omega)
    rw [if_pos (by omega)]
    refine ⟨?_, backLength, backValue⟩
    have digitPositive : 1 ≤ qhat := by
      rw [qhatEq]
      exact Nat.succ_pos _
    rw [BitVec.toNat_sub_of_le]
    · simp only [BitVec.toNat_ofNat, BitVec.ofNat_eq_ofNat]
      omega
    · rw [BitVec.le_def]
      simp only [BitVec.toNat_ofNat, BitVec.ofNat_eq_ofNat]
      omega
  · have qhatEq : qhat = value window / value v := by omega
    have relation : (value (low.1 ++ [(BitVec.ofInt 16 diff : Limb)]) : Int) =
        ((value window % value v : Nat) : Int) - (2 ^ 16) ^ (v.length + 1) * (diff / 2 ^ 16) := by
      have totalInt : (value window : Int) =
          value v * (qhat : Int) + (value window % value v : Nat) := by
        rw [qhatEq]
        exact_mod_cast windowDivision.symm
      linear_combination lowValue + totalInt
    have noBorrow : diff / 2 ^ 16 = 0 :=
      multiple_eq_zero (Int.natCast_nonneg _) (by exact_mod_cast residueBound.trans modulusBound)
        (Int.natCast_nonneg _) (by exact_mod_cast differenceBound) relation
    rw [noBorrow, mul_zero, sub_zero] at relation
    rw [if_neg (by omega)]
    refine ⟨?_, by simp [lowLength], Int.ofNat_inj.mp relation⟩
    rw [BitVec.toNat_ofNat, Nat.mod_eq_of_lt qhatBound, qhatEq]

theorem exists_append_two {α : Type} (items : List α) (count : Nat)
    (length : items.length = count + 2) :
    ∃ low next top, items = low ++ [next, top] ∧ low.length = count := by
  obtain ⟨init, top, initEq⟩ :=
    List.eq_nil_or_concat items |>.resolve_left (by
      intro empty
      simp [empty] at length)
  obtain ⟨low, next, lowEq⟩ :=
    List.eq_nil_or_concat init |>.resolve_left (by
      intro empty
      simp [initEq, empty] at length)
  refine ⟨low, next, top, by simp [initEq, lowEq], ?_⟩
  simp [initEq, lowEq] at length
  omega

theorem exists_append_three {α : Type} (items : List α) (count : Nat)
    (length : items.length = count + 3) :
    ∃ low next mid top, items = low ++ [next, mid, top] ∧ low.length = count := by
  obtain ⟨init, mid, top, initEq, initLength⟩ :=
    exists_append_two items (count + 1) length
  obtain ⟨low, next, lowEq⟩ :=
    List.eq_nil_or_concat init |>.resolve_left (by
      intro empty
      simp [empty] at initLength)
  refine ⟨low, next, mid, top, by simp [initEq, lowEq], ?_⟩
  simpa [lowEq] using initLength

def HighBitSet (v : List Limb) : Prop :=
  ∃ low next top, v = low ++ [next, top] ∧ 0x8000 ≤ top.toNat

theorem exists_divWindow {v window : List Limb} (x : Limb)
    (highBit : HighBitSet v) (windowLength : window.length = v.length)
    (small : value window < value v) : Nonempty (DivWindow v (x :: window)) := by
  obtain ⟨vLow, vNext, vTop, vEq, bit⟩ := highBit
  have xBound := x.isLt
  have vLength : v.length = vLow.length + 2 := by simp [vEq]
  obtain ⟨uLow, uNext, uMid, uTop, windowEq, uLength⟩ :=
    exists_append_three (x :: window) vLow.length (by simp [windowLength, vLength])
  refine ⟨⟨vLow, vNext, vTop, uLow, uNext, uMid, uTop, vEq, windowEq, uLength, bit, ?_⟩⟩
  rw [value_cons]
  have scaled : 2 ^ 16 * (value window + 1) ≤ 2 ^ 16 * value v :=
    Nat.mul_le_mul_left _ small
  omega

theorem value_take_of_lt {limbs : List Limb} {count : Nat} (length : limbs.length = count + 1)
    (small : value limbs < (2 ^ 16) ^ count) :
    value (limbs.take count) = value limbs := by
  have split := value_take_add_drop limbs count (by omega)
  have dropZero : value (limbs.drop count) = 0 := by
    by_contra nonzero
    have := Nat.mul_le_mul_left ((2 ^ 16) ^ count) (Nat.one_le_iff_ne_zero.mpr nonzero)
    omega
  rw [dropZero] at split
  omega

/-- The digit loop divides what is left of the dividend, whose limbs below the
window are listed downwards. -/
theorem divDigits_spec {v : List Limb} (highBit : HighBitSet v)
    (lower window : List Limb) (windowLength : window.length = v.length)
    (small : value window < value v) :
    (divDigits v lower window).1.length = lower.length ∧
      (divDigits v lower window).2.length = v.length ∧
      value (divDigits v lower window).2 < value v ∧
      value (divDigits v lower window).1 * value v + value (divDigits v lower window).2 =
        value (lower.reverse ++ window) := by
  induction lower generalizing window with
  | nil => simpa [divDigits] using ⟨windowLength, small⟩
  | cons x lower induction =>
      obtain ⟨shape⟩ := exists_divWindow x highBit windowLength small
      obtain ⟨digitValue, stepLength, stepValue⟩ := divStep_spec shape
      have residueBound := Nat.mod_lt (value (x :: window)) shape.v_pos
      have takeValue : value ((divStep v (x :: window)).2.take v.length) =
          value (x :: window) % value v := by
        rw [value_take_of_lt stepLength (by
          rw [stepValue]
          exact residueBound.trans (value_lt v)), stepValue]
      obtain ⟨restQuot, restLength, restBound, restValue⟩ :=
        induction ((divStep v (x :: window)).2.take v.length)
          (by simp [stepLength]) (by rw [takeValue]; exact residueBound)
      have division := Nat.div_add_mod (value (x :: window)) (value v)
      simp only [divDigits]
      generalize divDigits v lower ((divStep v (x :: window)).2.take v.length) = rest
        at restQuot restLength restBound restValue ⊢
      refine ⟨by simp [restQuot], restLength, restBound, ?_⟩
      rw [value_append, takeValue, List.length_reverse] at restValue
      rw [List.reverse_cons, List.append_assoc, value_append, value_append,
        List.length_reverse, restQuot, List.singleton_append]
      simp only [value_cons (w := 16) (divStep v (x :: window)).1, digitValue,
        value_nil, Nat.mul_zero, Nat.add_zero]
      calc
        (value rest.1 + (2 ^ 16) ^ lower.length *
              (value (x :: window) / value v)) * value v + value rest.2
            = (value rest.1 * value v + value rest.2) + (2 ^ 16) ^ lower.length *
                (value v * (value (x :: window) / value v)) := by ring
        _ = value lower.reverse + (2 ^ 16) ^ lower.length *
              (value v * (value (x :: window) / value v) + value (x :: window) % value v) := by
          rw [restValue]
          ring
        _ = value lower.reverse + (2 ^ 16) ^ lower.length * value (x :: window) := by
          rw [division]

/-- Normalizing a divisor shifts its value without loss and sets the high
bit of its top limb. -/
theorem normalized_divisor {b : List Limb} (normalized : Normalized b) (long : 2 ≤ b.length) :
    ∃ shift, normalizeShift 16 (b.getD (b.length - 1) 0).toNat = some shift ∧
      shift < 16 ∧ (shiftLeftLimbs shift b 0).1.length = b.length ∧
      value (shiftLeftLimbs shift b 0).1 = value b * 2 ^ shift ∧
      (2 ^ 16) ^ (b.length - 1) * 0x8000 ≤ value b * 2 ^ shift ∧
      HighBitSet (shiftLeftLimbs shift b 0).1 := by
  obtain ⟨low, top, bEq, nonzero⟩ := normalized
  have topPositive := toNat_pos_of_ne_zero nonzero
  have topLimb : b.getD (b.length - 1) 0 = top := by
    simp [bEq, List.getD_eq_getElem?_getD]
  have lowLength : b.length - 1 = low.length := by simp [bEq]
  obtain ⟨shift, found, shiftBound, atLeast, below⟩ :=
    normalizeShift_spec 16 top.toNat topPositive top.isLt (by omega)
  obtain ⟨vLength, _, vValue⟩ :=
    shiftLeftLimbs_spec shift shiftBound b 0 (Nat.two_pow_pos shift)
  have bValue : value b = value low + (2 ^ 16) ^ low.length * top.toNat := by
    rw [bEq, value_append]
    simp
  have lowBound := value_lt low
  have topRoom : (top.toNat + 1) * 2 ^ shift ≤ 2 ^ 16 := by
    have radixSplit : (2 : Nat) ^ 16 = 2 ^ (16 - shift) * 2 ^ shift := by
      rw [← pow_add]
      congr 1
      omega
    rw [radixSplit] at below ⊢
    exact Nat.mul_le_mul_right _ (Nat.lt_of_mul_lt_mul_right below)
  have lengthSplit : (2 ^ 16) ^ b.length = (2 ^ 16) ^ low.length * 2 ^ 16 := by
    rw [← pow_succ]
    congr 1
    omega
  have fits : value b * 2 ^ shift < (2 ^ 16) ^ b.length := by
    calc
      value b * 2 ^ shift < ((2 ^ 16) ^ low.length * (top.toNat + 1)) * 2 ^ shift := by
        apply Nat.mul_lt_mul_of_pos_right _ (Nat.two_pow_pos shift)
        rw [bValue, Nat.mul_succ]
        omega
      _ = (2 ^ 16) ^ low.length * ((top.toNat + 1) * 2 ^ shift) := by ring
      _ ≤ (2 ^ 16) ^ low.length * 2 ^ 16 := Nat.mul_le_mul_left _ topRoom
      _ = (2 ^ 16) ^ b.length := lengthSplit.symm
  have carryZero : (shiftLeftLimbs shift b 0).2 = 0 := by
    by_contra carry
    have := Nat.mul_le_mul_left ((2 ^ 16) ^ b.length) (Nat.one_le_iff_ne_zero.mpr carry)
    omega
  rw [carryZero] at vValue
  have exactValue : value (shiftLeftLimbs shift b 0).1 =
      value b * 2 ^ shift := by omega
  have large : (2 ^ 16) ^ (b.length - 1) * 0x8000 ≤ value b * 2 ^ shift := by
    rw [lowLength]
    calc
      (2 ^ 16) ^ low.length * 0x8000 ≤ (2 ^ 16) ^ low.length * (top.toNat * 2 ^ shift) :=
        Nat.mul_le_mul_left _ atLeast
      _ = ((2 ^ 16) ^ low.length * top.toNat) * 2 ^ shift := by ring
      _ ≤ value b * 2 ^ shift := by
        apply Nat.mul_le_mul_right
        omega
  refine ⟨shift, by rw [topLimb, found], shiftBound, vLength, exactValue,
    large, ?_⟩
  obtain ⟨vLow, vNext, vTop, vEq, vLowLength⟩ :=
    exists_append_two (shiftLeftLimbs shift b 0).1 (b.length - 2) (by omega)
  refine ⟨vLow, vNext, vTop, vEq, ?_⟩
  by_contra small
  have restBound := value_lt (vLow ++ [vNext])
  have restLength : (vLow ++ [vNext]).length = b.length - 1 := by
    simp [vLowLength]
    omega
  rw [restLength] at restBound
  have topSplit : value (shiftLeftLimbs shift b 0).1 =
      value (vLow ++ [vNext]) + (2 ^ 16) ^ (b.length - 1) * vTop.toNat := by
    have regroup : vLow ++ [vNext, vTop] = (vLow ++ [vNext]) ++ [vTop] := by
      simp
    rw [vEq, regroup, value_append, restLength]
    simp
  have topBound := Nat.mul_le_mul_left ((2 ^ 16) ^ (b.length - 1))
    (show vTop.toNat + 1 ≤ 0x8000 by omega)
  rw [Nat.mul_succ] at topBound
  omega

theorem shifted_dividend {shift : Nat} (shiftBound : shift < 16) (a : List Limb) :
    ((shiftLeftLimbs shift a 0).1 ++ [BitVec.ofNat 16 (shiftLeftLimbs shift a 0).2]).length =
        a.length + 1 ∧
      value ((shiftLeftLimbs shift a 0).1 ++ [BitVec.ofNat 16 (shiftLeftLimbs shift a 0).2]) =
        value a * 2 ^ shift := by
  obtain ⟨uLength, uCarry, uValue⟩ :=
    shiftLeftLimbs_spec shift shiftBound a 0 (Nat.two_pow_pos shift)
  have powerBound : 2 ^ shift ≤ 2 ^ 15 :=
    Nat.pow_le_pow_right (by omega) (by omega)
  refine ⟨by simp [uLength], ?_⟩
  rw [value_append, uLength]
  simp only [value_cons, value_nil, BitVec.toNat_ofNat]
  rw [Nat.mod_eq_of_lt (by omega)]
  omega

theorem initial_window_lt {a b u : List Limb} {shift : Nat}
    (shiftBound : shift < 16) (bNonempty : 0 < b.length)
    (longEnough : b.length ≤ a.length) (uLength : u.length = a.length + 1)
    (uValue : value u = value a * 2 ^ shift)
    (bLarge : (2 ^ 16) ^ (b.length - 1) * 0x8000 ≤ value b * 2 ^ shift) :
    value (u.drop (a.length - b.length + 1)) < value b * 2 ^ shift := by
  have aBound := value_lt a
  have powerBound : 2 ^ shift ≤ 2 ^ 15 :=
    Nat.pow_le_pow_right (by omega) (by omega)
  have split := value_take_add_drop u (a.length - b.length + 1) (by omega)
  have lengthSplit : (2 ^ 16) ^ a.length =
      (2 ^ 16) ^ (a.length - b.length + 1) * (2 ^ 16) ^ (b.length - 1) := by
    rw [← pow_add]
    congr 1
    omega
  have bounded : (2 ^ 16) ^ (a.length - b.length + 1) * value (u.drop (a.length - b.length + 1)) <
      (2 ^ 16) ^ (a.length - b.length + 1) * ((2 ^ 16) ^ (b.length - 1) * 2 ^ shift) := by
    calc
      (2 ^ 16) ^ (a.length - b.length + 1) * value (u.drop (a.length - b.length + 1))
          ≤ value u := by omega
      _ = value a * 2 ^ shift := uValue
      _ < (2 ^ 16) ^ a.length * 2 ^ shift :=
        Nat.mul_lt_mul_of_pos_right aBound (Nat.two_pow_pos shift)
      _ = (2 ^ 16) ^ (a.length - b.length + 1) * ((2 ^ 16) ^ (b.length - 1) * 2 ^ shift) := by
        rw [lengthSplit]
        ring
  calc
    value (u.drop (a.length - b.length + 1)) < (2 ^ 16) ^ (b.length - 1) * 2 ^ shift :=
      Nat.lt_of_mul_lt_mul_left bounded
    _ ≤ (2 ^ 16) ^ (b.length - 1) * 0x8000 :=
      Nat.mul_le_mul_left _ powerBound
    _ ≤ value b * 2 ^ shift := bLarge

/-- What a division of `a` by `b` delivers. -/
def Divides (a b : List Limb) (result : Option (List Limb × List Limb)) :
    Prop :=
  ∃ quot rem, result = some (quot, rem) ∧ Trimmed quot ∧
    rem.length = b.length ∧ value quot = value a / value b ∧
    value rem = value a % value b

theorem bignumDivmod_single {a : List Limb} {d : Limb} (nonzero : d ≠ 0)
    (aNonempty : a ≠ []) : Divides a [d] (bignumDivmod a [d]) := by
  obtain ⟨lengthEq, remBound, valueEq⟩ := bignumDivSingle_spec d nonzero a
  have quotNonempty : (bignumDivSingle d a).1 ≠ [] := by
    apply List.ne_nil_of_length_pos
    rw [lengthEq]
    exact List.length_pos_of_ne_nil aNonempty
  have dBound := d.isLt
  have dValue : value [d] = d.toNat := by simp
  refine ⟨strip (bignumDivSingle d a).1, [BitVec.ofNat 16 (bignumDivSingle d a).2], ?_,
    trimmed_strip quotNonempty, rfl, ?_, ?_⟩
  · rw [bignumDivmod, if_neg nonzero]
  · rw [value_strip, dValue, ← valueEq, Nat.mul_comm,
      Nat.mul_add_div (by omega), Nat.div_eq_of_lt remBound, Nat.add_zero]
  · rw [dValue, value_cons, value_nil, Nat.mul_zero, Nat.add_zero, BitVec.toNat_ofNat,
      Nat.mod_eq_of_lt (show (bignumDivSingle d a).2 < 2 ^ 16 by omega),
      ← valueEq, Nat.mul_comm, Nat.mul_add_mod, Nat.mod_eq_of_lt remBound]

theorem bignumDivmod_multi {a b : List Limb} (normalized : Normalized b)
    (long : 2 ≤ b.length) (longEnough : b.length ≤ a.length) :
    Divides a b (bignumDivmod a b) := by
  have bPositive := normalized.value_pos
  obtain ⟨shift, found, shiftBound, vLength, vValue, vLarge, highBit⟩ :=
    normalized_divisor normalized long
  obtain ⟨uLen, uTotal⟩ := shifted_dividend shiftBound a
  have powerPositive : 0 < 2 ^ shift := Nat.two_pow_pos shift
  have unfolded : bignumDivmod a b =
      let shifted := shiftLeftLimbs shift a 0
      let u := shifted.1 ++ [BitVec.ofNat 16 shifted.2]
      let result := divDigits (shiftLeftLimbs shift b 0).1
        (u.take (a.length - b.length + 1)).reverse
        (u.drop (a.length - b.length + 1))
      some (strip result.1,
        if shift > 0 then (unshiftLimbs shift result.2).1
        else result.2) := by
    rw [bignumDivmod, if_neg (by omega)]
    · simp only [found]
    · intro empty
      simp [empty] at long
    · intro d single
      simp [single] at long
  generalize (shiftLeftLimbs shift b 0).1 = v
    at vLength vValue highBit unfolded
  simp only at unfolded
  generalize (shiftLeftLimbs shift a 0).1 ++ [BitVec.ofNat 16 (shiftLeftLimbs shift a 0).2] = u
    at uLen uTotal unfolded
  have windowSmall : value (u.drop (a.length - b.length + 1)) < value v := by
    rw [vValue]
    exact initial_window_lt shiftBound normalized.trimmed.length_pos longEnough uLen uTotal vLarge
  obtain ⟨quotLength, remLength, remBound, total⟩ := divDigits_spec highBit
    (u.take (a.length - b.length + 1)).reverse
    (u.drop (a.length - b.length + 1)) (by simp; omega) windowSmall
  rw [List.reverse_reverse, List.take_append_drop, uTotal] at total
  generalize divDigits v (u.take (a.length - b.length + 1)).reverse
    (u.drop (a.length - b.length + 1)) = result
    at quotLength remLength remBound total unfolded
  have quotValue : value result.1 = value a / value b := by
    rw [← Nat.mul_div_mul_right (value a) (value b) powerPositive,
      ← vValue, ← total, Nat.mul_comm (value result.1),
      Nat.mul_add_div (by omega), Nat.div_eq_of_lt remBound, Nat.add_zero]
  have remValue : value result.2 = value a % value b * 2 ^ shift := by
    rw [← Nat.mul_mod_mul_right, ← vValue, ← total, Nat.mul_comm (value result.1), Nat.mul_add_mod,
      Nat.mod_eq_of_lt remBound]
  refine ⟨_, _, unfolded, trimmed_strip ?_, ?_, ?_, ?_⟩
  · apply List.ne_nil_of_length_pos
    rw [quotLength]
    simp
    omega
  · split
    · rw [(unshiftLimbs_spec shift shiftBound result.2).1, remLength, vLength]
    · rw [remLength, vLength]
  · rw [value_strip, quotValue]
  · split
    · rw [(unshiftLimbs_spec shift shiftBound result.2).2.2, remValue,
        Nat.mul_div_cancel _ powerPositive]
    · have shiftZero : shift = 0 := by omega
      rw [remValue, shiftZero]
      simp

/-- `bignum_divmod` computes quotient and remainder, for every dividend at
least as long as the divisor. -/
theorem bignumDivmod_spec {a b : List Limb} (normalized : Normalized b)
    (longEnough : b.length ≤ a.length) :
    Divides a b (bignumDivmod a b) := by
  have bLength := normalized.trimmed.length_pos
  have aNonempty : a ≠ [] := by
    apply List.ne_nil_of_length_pos
    omega
  by_cases long : 2 ≤ b.length
  · exact bignumDivmod_multi normalized long longEnough
  · obtain ⟨d, rfl⟩ := List.length_eq_one_iff.mp
      (show b.length = 1 by omega)
    apply bignumDivmod_single _ aNonempty
    intro zero
    have := normalized.value_pos
    simp [zero] at this

end ClAmiga.Bignum
