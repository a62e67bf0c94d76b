import ClAmiga.Bignum.DivideSpec

/-!
# Division without overflow

The loops of `bignum_divmod` once more, with every C expression kept in its own
type: a `uint32_t` sum, product or shift is computed by `word32`, a signed
difference by `int32`, and either refuses a result that does not fit.  On
normalized operands nothing is refused, so the wrapping loops compute exact
numbers throughout.
-/

namespace ClAmiga.Bignum

open Radix

/-- A value of type `uint32_t`, refused when the exact result needs more. -/
def word32 (number : Nat) : Option Nat :=
  if number < 2 ^ 32 then some number else none

/-- A value of type `int32_t`, refused when the exact result is outside. -/
def int32 (number : Int) : Option Int :=
  if -2 ^ 31 ≤ number ∧ number < 2 ^ 31 then some number else none

theorem word32_eq {number : Nat} (fits : number < 2 ^ 32) : word32 number = some number :=
  if_pos fits

theorem int32_eq {number : Int} (low : -2 ^ 31 ≤ number)
    (high : number < 2 ^ 31) : int32 number = some number :=
  if_pos ⟨low, high⟩

/-- `(hi << 16) | lo`. -/
def join16Checked (hi lo : Nat) : Option Nat := do
  let high ← word32 (hi * 2 ^ 16)
  return high ||| lo

def bignumDivSingleChecked (d : Limb) : List Limb → Option (List Limb × Nat)
  | [] => some ([], 0)
  | x :: xs => do
      let higher ← bignumDivSingleChecked d xs
      let cur ← join16Checked higher.2 x.toNat
      return (BitVec.ofNat 16 (cur / d.toNat) :: higher.1, cur % d.toNat)

/-- The shift of the `uint16_t` divisor limb must not drop a bit. -/
def normalizeShiftChecked : Nat → Nat → Option Nat
  | 0, _ => none
  | rounds + 1, bh =>
      if bh < 0x8000 then
        if bh * 2 < 2 ^ 16 then
          (normalizeShiftChecked rounds (bh * 2)).map (· + 1)
        else none
      else some 0

def shiftLeftLimbsChecked (shift : Nat) :
    List Limb → Nat → Option (List Limb × Nat)
  | [], carry => some ([], carry)
  | x :: xs, carry => do
      let shifted ← word32 (x.toNat * 2 ^ shift)
      let val := shifted ||| carry
      let rest ← shiftLeftLimbsChecked shift xs (val >>> 16)
      return (BitVec.ofNat 16 val :: rest.1, rest.2)

/-- The test of the refinement loop.  `||` does not reach the product when
`qhat` needs more than one limb. -/
def qhatTooLargeChecked (vNext uNext qhat rhat : Nat) : Option Bool :=
  if qhat ≥ 0x10000 then some true
  else do
    let product ← word32 (qhat * vNext)
    let joined ← join16Checked rhat uNext
    return decide (product > joined)

def refineQhatChecked (vTop vNext uNext : Nat) : Nat → Nat → Option Nat
  | 0, rhat => do
      let _ ← qhatTooLargeChecked vNext uNext 0 rhat
      return 0
  | qhat + 1, rhat => do
      if ← qhatTooLargeChecked vNext uNext (qhat + 1) rhat then
        let raised ← word32 (rhat + vTop)
        if raised ≥ 0x10000 then return qhat
        else refineQhatChecked vTop vNext uNext qhat raised
      else return qhat + 1

def mulSubChecked (qhat : Nat) : List Limb → List Limb → Nat → Int →
    Option (List Limb × Nat × Int)
  | v :: vs, u :: us, carry, borrow => do
      let product ← word32 (qhat * v.toNat)
      let prod ← word32 (product + carry)
      let difference ← int32 ((u.toNat : Int) - ((prod % 2 ^ 16 : Nat) : Int))
      let diff ← int32 (difference + borrow)
      let shifted := diff / 2 ^ 16
      let rest ← mulSubChecked qhat vs us (prod >>> 16)
        (if shifted < -1 then -1 else shifted)
      return (BitVec.ofInt 16 diff :: rest.1, rest.2)
  | _, _, carry, borrow => some ([], carry, borrow)

def addBackChecked : List Limb → List Limb → Nat → Option (List Limb × Nat)
  | v :: vs, u :: us, carry => do
      let partialSum ← word32 (u.toNat + v.toNat)
      let sum ← word32 (partialSum + carry)
      let rest ← addBackChecked vs us (sum >>> 16)
      return (BitVec.ofNat 16 sum :: rest.1, rest.2)
  | _, _, carry => some ([], carry)

def estimateQhatChecked (v window : List Limb) : Option Nat := do
  let n := v.length
  let vTop := (v.getD (n - 1) 0).toNat
  let uHi ← join16Checked (window.getD n 0).toNat (window.getD (n - 1) 0).toNat
  refineQhatChecked vTop (v.getD (n - 2) 0).toNat
    (window.getD (n - 2) 0).toNat (uHi / vTop) (uHi % vTop)

/-- The stored digit is lowered after an add-back; `quot[idx]--` must not start
from zero. -/
def divStepChecked (v window : List Limb) : Option (Limb × List Limb) := do
  let qhat ← estimateQhatChecked v window
  let low ← mulSubChecked qhat v window 0 0
  let difference ← int32
    (((window.getD v.length 0).toNat : Int) - (low.2.1 : Int))
  let diff ← int32 (difference + low.2.2)
  let top : Limb := BitVec.ofInt 16 diff
  if diff / 2 ^ 16 < 0 then
    if qhat = 0 then none
    else
      let back ← addBackChecked v low.1 0
      return (BitVec.ofNat 16 qhat - 1,
        back.1 ++ [top + BitVec.ofNat 16 back.2])
  else return (BitVec.ofNat 16 qhat, low.1 ++ [top])

def divDigitsChecked (v : List Limb) :
    List Limb → List Limb → Option (List Limb × List Limb)
  | [], window => some ([], window)
  | x :: lower, window => do
      let step ← divStepChecked v (x :: window)
      let rest ← divDigitsChecked v lower (step.2.take v.length)
      return (rest.1 ++ [step.1], rest.2)

def unshiftLimbsChecked (shift : Nat) : List Limb → Option (List Limb × Nat)
  | [] => some ([], 0)
  | x :: xs => do
      let higher ← unshiftLimbsChecked shift xs
      let carried ← word32 (higher.2 * 2 ^ 16)
      let val := x.toNat ||| carried
      return (BitVec.ofNat 16 (val >>> shift) :: higher.1,
        x.toNat &&& (2 ^ shift - 1))

/-- `bignum_divmod` with every intermediate result checked. -/
def bignumDivmodChecked (a b : List Limb) :
    Option (List Limb × List Limb) :=
  match b with
  | [] => none
  | [d] =>
      if d = 0 then none
      else do
        let result ← bignumDivSingleChecked d a
        return (strip result.1, [BitVec.ofNat 16 result.2])
  | _ =>
      if a.length < b.length then none
      else do
        let n := b.length
        let m := a.length - b.length
        let shift ← normalizeShiftChecked 16 (b.getD (n - 1) 0).toNat
        let v ← shiftLeftLimbsChecked shift b 0
        let shifted ← shiftLeftLimbsChecked shift a 0
        let u := shifted.1 ++ [BitVec.ofNat 16 shifted.2]
        let result ← divDigitsChecked v.1 (u.take (m + 1)).reverse
          (u.drop (m + 1))
        if shift > 0 then
          let rem ← unshiftLimbsChecked shift result.2
          return (strip result.1, rem.1)
        else return (strip result.1, result.2)

theorem join16Checked_eq {hi : Nat} (lo : Nat) (hiBound : hi < 2 ^ 16) :
    join16Checked hi lo = some (join16 hi lo) := by
  have fits : hi * 2 ^ 16 < 2 ^ 32 := by omega
  unfold join16Checked join16
  rw [word32_eq fits, Nat.shiftLeft_eq, Nat.mod_eq_of_lt fits]
  rfl

theorem bignumDivSingleChecked_eq (d : Limb) (nonzero : d ≠ 0) (a : List Limb) :
    bignumDivSingleChecked d a = some (bignumDivSingle d a) := by
  induction a with
  | nil => rfl
  | cons x xs induction =>
      have remBound := (bignumDivSingle_spec d nonzero xs).2.1
      have dBound := d.isLt
      unfold bignumDivSingleChecked
      rw [induction, Option.bind_eq_bind, Option.bind_some,
        join16Checked_eq x.toNat (by omega), Option.bind_eq_bind, Option.bind_some]
      rfl

theorem normalizeShiftChecked_eq (rounds bh : Nat) :
    normalizeShiftChecked rounds bh = normalizeShift rounds bh := by
  induction rounds generalizing bh with
  | zero => rfl
  | succ rounds induction =>
      unfold normalizeShiftChecked normalizeShift
      by_cases small : bh < 0x8000
      · have kept : bh * 2 < 2 ^ 16 := by omega
        rw [if_pos small, if_pos small, if_pos kept, Nat.mod_eq_of_lt kept,
          induction]
      · rw [if_neg small, if_neg small]

theorem shiftLeftLimbsChecked_eq (shift : Nat) (shiftBound : shift < 16)
    (limbs : List Limb) (carry : Nat) :
    shiftLeftLimbsChecked shift limbs carry = some (shiftLeftLimbs shift limbs carry) := by
  induction limbs generalizing carry with
  | nil => rfl
  | cons x xs induction =>
      have xBound := x.isLt
      have powerBound : 2 ^ shift ≤ 2 ^ 15 :=
        Nat.pow_le_pow_right (by omega) (by omega)
      have fits : x.toNat * 2 ^ shift < 2 ^ 32 :=
        lt_of_le_of_lt (Nat.mul_le_mul xBound.le powerBound) (by omega)
      unfold shiftLeftLimbsChecked shiftLeftLimbs
      rw [word32_eq fits, Nat.shiftLeft_eq, Nat.mod_eq_of_lt fits]
      dsimp only [Option.bind_eq_bind, Option.bind_some]
      rw [induction]
      rfl

theorem digit_product_lt {digit : Nat} (limb : Limb) (digitBound : digit < 2 ^ 16) :
    digit * limb.toNat + (2 ^ 16 - 1) < 2 ^ 32 := by
  have limbBound := limb.isLt
  have product : digit * limb.toNat ≤ (2 ^ 16 - 1) * (2 ^ 16 - 1) :=
    Nat.mul_le_mul (by omega) (by omega)
  omega

theorem qhatTooLargeChecked_eq (vNext : Limb) (uNext : Nat) {qhat rhat : Nat}
    (rhatBound : rhat < 2 ^ 16) :
    qhatTooLargeChecked vNext.toNat uNext qhat rhat = some (decide (qhat ≥ 0x10000 ∨
        qhat * vNext.toNat % 2 ^ 32 > join16 rhat uNext)) := by
  unfold qhatTooLargeChecked
  by_cases big : qhat ≥ 0x10000
  · rw [if_pos big, decide_eq_true (Or.inl big)]
  · have fits : qhat * vNext.toNat < 2 ^ 32 := by
      have room := digit_product_lt vNext (show qhat < 2 ^ 16 by omega)
      omega
    rw [if_neg big, word32_eq fits, Nat.mod_eq_of_lt fits]
    rw [Option.bind_eq_bind, Option.bind_some, join16Checked_eq uNext rhatBound]
    simp only [big, false_or]
    rfl

theorem refineQhatChecked_eq (vTop vNext : Limb) (uNext qhat rhat : Nat)
    (rhatBound : rhat < 2 ^ 16) :
    refineQhatChecked vTop.toNat vNext.toNat uNext qhat rhat =
      some (refineQhat vTop.toNat vNext.toNat uNext qhat rhat) := by
  induction qhat generalizing rhat with
  | zero =>
      unfold refineQhatChecked
      rw [qhatTooLargeChecked_eq vNext uNext rhatBound]
      rfl
  | succ qhat induction =>
      have topBound := vTop.isLt
      unfold refineQhatChecked refineQhat
      rw [qhatTooLargeChecked_eq vNext uNext rhatBound]
      dsimp only [Option.bind_eq_bind, Option.bind_some]
      by_cases tooLarge : qhat + 1 ≥ 0x10000 ∨ (qhat + 1) * vNext.toNat % 2 ^ 32 > join16 rhat uNext
      · rw [if_pos (decide_eq_true tooLarge), if_pos tooLarge,
          word32_eq (show rhat + vTop.toNat < 2 ^ 32 by omega)]
        dsimp only [Option.bind_some]
        by_cases stop : rhat + vTop.toNat ≥ 0x10000
        · rw [if_pos stop, if_pos stop]
          rfl
        · rw [if_neg stop, if_neg stop]
          exact induction _ (by omega)
      · rw [if_neg (by simpa using tooLarge), if_neg tooLarge]
        rfl

theorem mulSubChecked_eq (qhat : Nat) (qhatBound : qhat < 2 ^ 16)
    (v u : List Limb) (carry : Nat) (borrow : Int)
    (carryBound : carry < 2 ^ 16) (borrowLow : -1 ≤ borrow)
    (borrowHigh : borrow ≤ 0) :
    mulSubChecked qhat v u carry borrow = some (mulSub qhat v u carry borrow) := by
  induction v generalizing u carry borrow with
  | nil => simp [mulSubChecked, mulSub]
  | cons y ys induction =>
      cases u with
      | nil => simp [mulSubChecked, mulSub]
      | cons x xs =>
          have xBound := x.isLt
          have room := digit_product_lt y qhatBound
          have fits : qhat * y.toNat + carry < 2 ^ 32 := by omega
          unfold mulSubChecked mulSub
          rw [word32_eq (show qhat * y.toNat < 2 ^ 32 by omega), Nat.mod_eq_of_lt fits]
          dsimp only [Option.bind_eq_bind, Option.bind_some]
          rw [word32_eq fits]
          dsimp only [Option.bind_some]
          generalize qhat * y.toNat + carry = prod at fits
          have lowBound := Nat.mod_lt prod (show 0 < 2 ^ 16 by omega)
          have nextBound : prod >>> 16 < 2 ^ 16 := by
            rw [Nat.shiftRight_eq_div_pow]
            omega
          generalize prod % 2 ^ 16 = low at lowBound
          rw [int32_eq (by omega) (by omega)]
          dsimp only [Option.bind_some]
          rw [int32_eq (by omega) (by omega)]
          dsimp only [Option.bind_some]
          rw [induction xs _ _ nextBound (by split <;> omega) (by split <;> omega)]
          rfl

theorem addBackChecked_eq (v u : List Limb) (carry : Nat) (carryBound : carry < 2 ^ 16) :
    addBackChecked v u carry = some (addBack v u carry) := by
  induction v generalizing u carry with
  | nil => simp [addBackChecked, addBack]
  | cons y ys induction =>
      cases u with
      | nil => simp [addBackChecked, addBack]
      | cons x xs =>
          have xBound := x.isLt
          have yBound := y.isLt
          have fits : x.toNat + y.toNat + carry < 2 ^ 32 := by omega
          unfold addBackChecked addBack
          rw [word32_eq (show x.toNat + y.toNat < 2 ^ 32 by omega), Nat.mod_eq_of_lt fits]
          dsimp only [Option.bind_eq_bind, Option.bind_some]
          rw [word32_eq fits]
          dsimp only [Option.bind_some]
          rw [induction xs _ (by rw [Nat.shiftRight_eq_div_pow]; omega)]
          rfl

theorem unshiftLimbsChecked_eq (shift : Nat) (shiftBound : shift < 16) (limbs : List Limb) :
    unshiftLimbsChecked shift limbs = some (unshiftLimbs shift limbs) := by
  induction limbs with
  | nil => rfl
  | cons x xs induction =>
      have carryBound : (unshiftLimbs shift xs).2 < 2 ^ shift := by
        rw [(unshiftLimbs_spec shift shiftBound xs).2.1]
        exact Nat.mod_lt _ (Nat.two_pow_pos shift)
      have powerBound : 2 ^ shift ≤ 2 ^ 15 :=
        Nat.pow_le_pow_right (by omega) (by omega)
      have fits : (unshiftLimbs shift xs).2 * 2 ^ 16 < 2 ^ 32 := by omega
      unfold unshiftLimbsChecked unshiftLimbs
      rw [induction, Option.bind_eq_bind, Option.bind_some]
      dsimp only
      rw [word32_eq fits, Nat.shiftLeft_eq, Nat.mod_eq_of_lt fits]
      rfl

theorem mulSub_zero (v u : List Limb) (covered : v.length ≤ u.length) :
    (mulSub 0 v u 0 0).2.1 = 0 ∧ (mulSub 0 v u 0 0).2.2 = 0 := by
  obtain ⟨lowLength, _, _, borrowHigh, lowValue⟩ :=
    mulSub_spec 0 (by omega) v u 0 0 covered (by omega) (by omega) (by omega)
  have lowBound := value_lt (mulSub 0 v u 0 0).1
  rw [lowLength] at lowBound
  generalize mulSub 0 v u 0 0 = low at lowBound lowValue borrowHigh ⊢
  have lowBoundInt : (value low.1 : Int) < (2 ^ 16) ^ v.length := by
    exact_mod_cast lowBound
  have noBorrow : (low.2.1 : Int) - low.2.2 ≤ 0 := by
    by_contra positive
    have scaled : ((2 : Int) ^ 16) ^ v.length * 1 ≤
        (2 ^ 16) ^ v.length * ((low.2.1 : Int) - low.2.2) :=
      mul_le_mul_of_nonneg_left (by omega) (by positivity)
    push_cast at lowValue scaled lowBoundInt
    omega
  constructor <;> omega

namespace DivWindow

variable {v window : List Limb} (shape : DivWindow v window)

include shape

theorem estimateQhatChecked_eq : estimateQhatChecked v window = some (estimateQhat v window) := by
  have vTopBound := shape.vTop.isLt
  have highBit := shape.highBit
  have vLast : v.getD (v.length - 1) 0 = shape.vTop := by
    simp [shape.v_eq, List.getD_eq_getElem?_getD]
  have remBound (number : Nat) : number % (v.getD (v.length - 1) 0).toNat < 2 ^ 16 := by
    rw [vLast]
    have := Nat.mod_lt number (show 0 < shape.vTop.toNat by omega)
    omega
  unfold estimateQhatChecked estimateQhat
  dsimp only [Option.bind_eq_bind]
  rw [join16Checked_eq _ (window.getD v.length 0).isLt]
  exact refineQhatChecked_eq _ _ _ _ _ (remBound _)

/-- No step of a digit overflows; in particular the digit that is lowered after
an add-back is not zero. -/
theorem divStepChecked_eq : divStepChecked v window = some (divStep v window) := by
  obtain ⟨_, _, qhatBound⟩ := shape.estimateQhat_spec
  unfold divStepChecked divStep
  rw [shape.estimateQhatChecked_eq]
  dsimp only [Option.bind_eq_bind, Option.bind_some]
  generalize estimateQhat v window = qhat at qhatBound ⊢
  rw [mulSubChecked_eq qhat qhatBound v window 0 0 (by omega) (by omega) (by omega)]
  dsimp only [Option.bind_some]
  obtain ⟨lowLength, carryBound, borrowLow, borrowHigh, lowValue⟩ :=
    mulSub_spec qhat qhatBound v window 0 0 (by rw [shape.length_window]; omega)
      (by omega) (by omega) (by omega)
  have topBound := (window.getD v.length 0).isLt
  rw [int32_eq (by omega) (by omega)]
  dsimp only [Option.bind_some]
  rw [int32_eq (by omega) (by omega)]
  dsimp only [Option.bind_some]
  split
  · rename_i negative
    have digitNonzero : qhat ≠ 0 := by
      intro zero
      subst zero
      obtain ⟨carryZero, borrowZero⟩ :=
        mulSub_zero v window (by rw [shape.length_window]; omega)
      rw [carryZero, borrowZero] at negative
      omega
    rw [if_neg digitNonzero, addBackChecked_eq _ _ _ (by omega)]
    rfl
  · rfl

end DivWindow

theorem divDigitsChecked_eq {v : List Limb} (highBit : HighBitSet v)
    (lower window : List Limb) (windowLength : window.length = v.length)
    (small : value window < value v) :
    divDigitsChecked v lower window = some (divDigits v lower window) := by
  induction lower generalizing window with
  | nil => rfl
  | cons x lower induction =>
      obtain ⟨shape⟩ := exists_divWindow x highBit windowLength small
      obtain ⟨_, stepLength, stepValue⟩ := divStep_spec shape
      have residueBound := Nat.mod_lt (value (x :: window)) shape.v_pos
      have takeValue : value ((divStep v (x :: window)).2.take v.length) =
          value (x :: window) % value v := by
        rw [value_take_of_lt stepLength (by
          rw [stepValue]
          exact residueBound.trans (value_lt v)), stepValue]
      unfold divDigitsChecked divDigits
      rw [shape.divStepChecked_eq]
      dsimp only [Option.bind_eq_bind, Option.bind_some]
      rw [induction _ (by simp [stepLength]) (by rw [takeValue]; exact residueBound)]
      rfl

theorem bignumDivmodChecked_single {a : List Limb} {d : Limb} (nonzero : d ≠ 0) :
    bignumDivmodChecked a [d] = bignumDivmod a [d] := by
  unfold bignumDivmodChecked bignumDivmod
  dsimp only
  rw [if_neg nonzero, if_neg nonzero, bignumDivSingleChecked_eq d nonzero]
  rfl

theorem bignumDivmodChecked_multi {a b : List Limb} (normalized : Normalized b)
    (long : 2 ≤ b.length) (longEnough : b.length ≤ a.length) :
    bignumDivmodChecked a b = bignumDivmod a b := by
  obtain ⟨shift, found, shiftBound, vLength, vValue, vLarge, highBit⟩ :=
    normalized_divisor normalized long
  obtain ⟨uLength, uValue⟩ := shifted_dividend shiftBound a
  have notSingle (d : Limb) (single : b = [d]) : False := by
    simp [single] at long
  have notEmpty (empty : b = []) : False := by
    simp [empty] at long
  rw [bignumDivmodChecked, bignumDivmod, if_neg (by omega), if_neg (by omega)]
  · dsimp only [Option.bind_eq_bind]
    rw [normalizeShiftChecked_eq, found]
    dsimp only [Option.bind_some]
    rw [shiftLeftLimbsChecked_eq shift shiftBound, shiftLeftLimbsChecked_eq shift shiftBound]
    dsimp only [Option.bind_some]
    rw [divDigitsChecked_eq highBit]
    · dsimp only [Option.bind_some]
      split
      · rw [unshiftLimbsChecked_eq shift shiftBound]
        rfl
      · rfl
    · rw [List.length_drop, uLength, vLength]
      omega
    · rw [vValue]
      exact initial_window_lt shiftBound normalized.trimmed.length_pos
        longEnough uLength uValue vLarge
  all_goals assumption

/-- Division of magnitudes `a ≥ b > 0` of any length gives quotient and
remainder, and no intermediate result leaves its C type. -/
theorem bignumDivmod_exact {a b : List Limb} (dividend : Normalized a)
    (divisor : Normalized b) (ordered : value b ≤ value a) :
    ∃ quot rem, bignumDivmod a b = some (quot, rem) ∧ bignumDivmodChecked a b = some (quot, rem) ∧
      value quot * value b + value rem = value a ∧ value rem < value b ∧
      Trimmed quot ∧ rem.length = b.length := by
  have longEnough : b.length ≤ a.length := by
    by_contra longer
    have := dividend.trimmed.value_lt_of_length_lt divisor.trimmed (by omega)
    omega
  obtain ⟨quot, rem, delivered, trimmed, remLength, quotValue, remValue⟩ :=
    bignumDivmod_spec divisor longEnough
  refine ⟨quot, rem, delivered, ?_, ?_, ?_, trimmed, remLength⟩
  · rw [← delivered]
    by_cases long : 2 ≤ b.length
    · exact bignumDivmodChecked_multi divisor long longEnough
    · have bLength := divisor.trimmed.length_pos
      obtain ⟨d, rfl⟩ := List.length_eq_one_iff.mp
        (show b.length = 1 by omega)
      apply bignumDivmodChecked_single
      intro zero
      have := divisor.value_pos
      simp [zero] at this
  · rw [quotValue, remValue, Nat.mul_comm]
    exact Nat.div_add_mod (value a) (value b)
  · rw [remValue]
    exact Nat.mod_lt _ divisor.value_pos

/-- Operands whose first trial digit is one too large, so that the add-back
runs. -/
theorem bignumDivmod_exact_add_back :
    ∃ quot rem, bignumDivmod [0, 0, 0x8000, 0x7fff] [1, 0, 0x8000] = some (quot, rem) ∧
      bignumDivmodChecked [0, 0, 0x8000, 0x7fff] [1, 0, 0x8000] = some (quot, rem) ∧
      value quot * value ([1, 0, 0x8000] : List Limb) + value rem =
        value ([0, 0, 0x8000, 0x7fff] : List Limb) ∧
      value rem < value ([1, 0, 0x8000] : List Limb) ∧
      Trimmed quot ∧ rem.length = ([1, 0, 0x8000] : List Limb).length :=
  bignumDivmod_exact ⟨[0, 0, 0x8000], 0x7fff, rfl, by decide⟩
    ⟨[1, 0], 0x8000, rfl, by decide⟩ (by decide)

end ClAmiga.Bignum
