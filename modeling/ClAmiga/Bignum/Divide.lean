import ClAmiga.Bignum.MagnitudeSpec
import ClAmiga.Radix.Knuth

/-!
# Division of limb arrays

`bignum_div_single` and the multi-limb algorithm of `bignum_divmod`.  The
working copy `u` of the dividend is split at the current quotient index into
the limbs still to be read and the window `u[idx .. idx + n]`; after a digit
has been stored, `u[idx + n]` is never read again.

A result `none` stands for the inputs on which the C code has no defined
result: a divisor array without limbs or with a zero limb at the top (the
normalizing shift loop never ends on it) and a dividend shorter than the
divisor.
-/

namespace ClAmiga.Bignum

open Radix

/-- The expression `(hi << 16) | lo` on `uint32_t` operands. -/
def join16 (hi lo : Nat) : Nat :=
  ((hi <<< 16) % 2 ^ 32) ||| lo

/-- Limbs are divided from the top; `rem` is the running remainder. -/
def bignumDivSingle (d : Limb) : List Limb → List Limb × Nat
  | [] => ([], 0)
  | x :: xs =>
      let higher := bignumDivSingle d xs
      let cur := join16 higher.2 x.toNat
      (BitVec.ofNat 16 (cur / d.toNat) :: higher.1, cur % d.toNat)

/-- `while (bh < 0x8000) { bh <<= 1; shift++; }`.  Sixteen rounds settle every
nonzero limb; on a zero limb the C loop does not end. -/
def normalizeShift : Nat → Nat → Option Nat
  | 0, _ => none
  | rounds + 1, bh =>
      if bh < 0x8000 then (normalizeShift rounds (bh * 2 % 2 ^ 16)).map (· + 1)
      else some 0

def shiftLeftLimbs (shift : Nat) : List Limb → Nat → List Limb × Nat
  | [], carry => ([], carry)
  | x :: xs, carry =>
      let val := ((x.toNat <<< shift) % 2 ^ 32) ||| carry
      let rest := shiftLeftLimbs shift xs (val >>> 16)
      (BitVec.ofNat 16 val :: rest.1, rest.2)

/-- The loop that lowers `qhat` while it is provably too large. -/
def refineQhat (vTop vNext uNext : Nat) : Nat → Nat → Nat
  | 0, _ => 0
  | qhat + 1, rhat =>
      if qhat + 1 ≥ 0x10000 ∨
          (qhat + 1) * vNext % 2 ^ 32 > join16 rhat uNext then
        if rhat + vTop ≥ 0x10000 then qhat
        else refineQhat vTop vNext uNext qhat (rhat + vTop)
      else qhat + 1

/-- Subtract `qhat * v` from the window limbs `u`; returns the limbs, the
product carry and the (non-positive) borrow. -/
def mulSub (qhat : Nat) : List Limb → List Limb → Nat → Int →
    List Limb × Nat × Int
  | v :: vs, u :: us, carry, borrow =>
      let prod := (qhat * v.toNat + carry) % 2 ^ 32
      let diff : Int := (u.toNat : Int) - ((prod % 2 ^ 16 : Nat) : Int) + borrow
      let shifted := diff / 2 ^ 16
      let rest := mulSub qhat vs us (prod >>> 16)
        (if shifted < -1 then -1 else shifted)
      (BitVec.ofInt 16 diff :: rest.1, rest.2)
  | _, _, carry, borrow => ([], carry, borrow)

/-- Add `v` back to the window limbs `u`. -/
def addBack : List Limb → List Limb → Nat → List Limb × Nat
  | v :: vs, u :: us, carry =>
      let sum := (u.toNat + v.toNat + carry) % 2 ^ 32
      let rest := addBack vs us (sum >>> 16)
      (BitVec.ofNat 16 sum :: rest.1, rest.2)
  | _, _, carry => ([], carry)

/-- Estimate a quotient digit from the leading limbs of `window`, which is
`u[idx .. idx + n]`, and refine it. -/
def estimateQhat (v window : List Limb) : Nat :=
  let n := v.length
  let vTop := (v.getD (n - 1) 0).toNat
  let uHi := join16 (window.getD n 0).toNat (window.getD (n - 1) 0).toNat
  refineQhat vTop (v.getD (n - 2) 0).toNat (window.getD (n - 2) 0).toNat
    (uHi / vTop) (uHi % vTop)

/-- One quotient digit: multiply and subtract, and add back if that went
negative. -/
def divStep (v window : List Limb) : Limb × List Limb :=
  let qhat := estimateQhat v window
  let low := mulSub qhat v window 0 0
  let diff : Int :=
    ((window.getD v.length 0).toNat : Int) - (low.2.1 : Int) + low.2.2
  let top : Limb := BitVec.ofInt 16 diff
  if diff / 2 ^ 16 < 0 then
    let back := addBack v low.1 0
    (BitVec.ofNat 16 qhat - 1, back.1 ++ [top + BitVec.ofNat 16 back.2])
  else (BitVec.ofNat 16 qhat, low.1 ++ [top])

/-- The loop over quotient digits.  `lower` lists the dividend limbs below the
window, the next one to be read first. -/
def divDigits (v : List Limb) : List Limb → List Limb → List Limb × List Limb
  | [], window => ([], window)
  | x :: lower, window =>
      let step := divStep v (x :: window)
      let rest := divDigits v lower (step.2.take v.length)
      (rest.1 ++ [step.1], rest.2)

/-- Undo the normalizing shift, from the top limb down. -/
def unshiftLimbs (shift : Nat) : List Limb → List Limb × Nat
  | [] => ([], 0)
  | x :: xs =>
      let higher := unshiftLimbs shift xs
      let val := x.toNat ||| ((higher.2 <<< 16) % 2 ^ 32)
      (BitVec.ofNat 16 (val >>> shift) :: higher.1,
        x.toNat &&& (2 ^ shift - 1))

def bignumDivmod (a b : List Limb) : Option (List Limb × List Limb) :=
  match b with
  | [] => none
  | [d] =>
      if d = 0 then none
      else
        let result := bignumDivSingle d a
        some (strip result.1, [BitVec.ofNat 16 result.2])
  | _ =>
      if a.length < b.length then none
      else
        let n := b.length
        let m := a.length - b.length
        match normalizeShift 16 (b.getD (n - 1) 0).toNat with
        | none => none
        | some shift =>
            let v := (shiftLeftLimbs shift b 0).1
            let shifted := shiftLeftLimbs shift a 0
            let u := shifted.1 ++ [BitVec.ofNat 16 shifted.2]
            let result := divDigits v (u.take (m + 1)).reverse (u.drop (m + 1))
            some (strip result.1,
              if shift > 0 then (unshiftLimbs shift result.2).1 else result.2)

theorem join16_eq {hi lo : Nat} (hiBound : hi < 2 ^ 16) (loBound : lo < 2 ^ 16) :
    join16 hi lo = hi * 2 ^ 16 + lo := by
  rw [join16, Nat.shiftLeft_eq, Nat.mod_eq_of_lt (by omega), Nat.mul_comm,
    ← Nat.two_pow_add_eq_or_of_lt loBound]

/-- Division by one limb is exact. -/
theorem bignumDivSingle_spec (d : Limb) (nonzero : d ≠ 0) (a : List Limb) :
    (bignumDivSingle d a).1.length = a.length ∧ (bignumDivSingle d a).2 < d.toNat ∧
      value (bignumDivSingle d a).1 * d.toNat + (bignumDivSingle d a).2 = value a := by
  have dPositive := toNat_pos_of_ne_zero nonzero
  have dBound := d.isLt
  induction a with
  | nil => simpa [bignumDivSingle] using dPositive
  | cons x xs induction =>
      obtain ⟨lengthEq, remBound, valueEq⟩ := induction
      have xBound := x.isLt
      simp only [bignumDivSingle]
      rw [join16_eq (by omega) xBound]
      generalize (bignumDivSingle d xs).2 = rem at remBound valueEq ⊢
      generalize (bignumDivSingle d xs).1 = quot at lengthEq valueEq ⊢
      have digitBound : (rem * 2 ^ 16 + x.toNat) / d.toNat < 2 ^ 16 := by
        rw [Nat.div_lt_iff_lt_mul dPositive]
        calc
          rem * 2 ^ 16 + x.toNat < rem * 2 ^ 16 + 2 ^ 16 := by omega
          _ = (rem + 1) * 2 ^ 16 := by ring
          _ ≤ d.toNat * 2 ^ 16 := Nat.mul_le_mul_right _ remBound
          _ = 2 ^ 16 * d.toNat := Nat.mul_comm _ _
      refine ⟨by simpa using lengthEq, Nat.mod_lt _ dPositive, ?_⟩
      have division := Nat.div_add_mod (rem * 2 ^ 16 + x.toNat) d.toNat
      rw [value_cons, value_cons, BitVec.toNat_ofNat, Nat.mod_eq_of_lt digitBound, ← valueEq]
      calc
        ((rem * 2 ^ 16 + x.toNat) / d.toNat + 2 ^ 16 * value quot) * d.toNat +
              (rem * 2 ^ 16 + x.toNat) % d.toNat
            = (d.toNat * ((rem * 2 ^ 16 + x.toNat) / d.toNat) +
                (rem * 2 ^ 16 + x.toNat) % d.toNat) +
              2 ^ 16 * (value quot * d.toNat) := by ring
        _ = (rem * 2 ^ 16 + x.toNat) + 2 ^ 16 * (value quot * d.toNat) := by
          rw [division]
        _ = x.toNat + 2 ^ 16 * (value quot * d.toNat + rem) := by ring

/-- The loop finds the shift that sets the divisor's highest bit. -/
theorem normalizeShift_spec (rounds bh : Nat) (positive : 0 < bh)
    (bound : bh < 2 ^ 16) (enough : 2 ^ 16 ≤ bh * 2 ^ rounds) :
    ∃ shift, normalizeShift rounds bh = some shift ∧ shift < 16 ∧
      0x8000 ≤ bh * 2 ^ shift ∧ bh * 2 ^ shift < 2 ^ 16 := by
  induction rounds generalizing bh with
  | zero => simp at enough; omega
  | succ rounds induction =>
      by_cases small : bh < 0x8000
      · have exactDouble : bh * 2 % 2 ^ 16 = bh * 2 :=
          Nat.mod_eq_of_lt (by omega)
        obtain ⟨shift, found, shiftBound, low, high⟩ :=
          induction (bh * 2) (by omega) (by omega) (by
            calc
              2 ^ 16 ≤ bh * 2 ^ (rounds + 1) := enough
              _ = bh * 2 * 2 ^ rounds := by ring)
        have doubled : bh * 2 ^ (shift + 1) = bh * 2 * 2 ^ shift := by ring
        refine ⟨shift + 1, ?_, ?_, by omega, by omega⟩
        · rw [normalizeShift, if_pos small, exactDouble, found]
          rfl
        · by_contra large
          have shiftEq : shift = 15 := by omega
          subst shiftEq
          omega
      · exact ⟨0, by simp [normalizeShift, small], by omega, by omega,
          by omega⟩

/-- Shifting left multiplies by a power of two; the bits shifted out are the carry. -/
theorem shiftLeftLimbs_spec (shift : Nat) (shiftBound : shift < 16)
    (limbs : List Limb) (carry : Nat) (carryBound : carry < 2 ^ shift) :
    (shiftLeftLimbs shift limbs carry).1.length = limbs.length ∧
      (shiftLeftLimbs shift limbs carry).2 < 2 ^ shift ∧
      value (shiftLeftLimbs shift limbs carry).1 +
          (2 ^ 16) ^ limbs.length * (shiftLeftLimbs shift limbs carry).2 =
        value limbs * 2 ^ shift + carry := by
  induction limbs generalizing carry with
  | nil => simpa [shiftLeftLimbs] using carryBound
  | cons x xs induction =>
      have xBound := x.isLt
      have scaledBound : x.toNat * 2 ^ shift ≤ (2 ^ 16 - 1) * 2 ^ shift :=
        Nat.mul_le_mul_right _ (by omega)
      have powerBound : 2 ^ shift ≤ 2 ^ 15 :=
        Nat.pow_le_pow_right (by omega) (by omega)
      have joined : ((x.toNat <<< shift) % 2 ^ 32) ||| carry = x.toNat * 2 ^ shift + carry := by
        rw [Nat.shiftLeft_eq, Nat.mod_eq_of_lt (by omega), Nat.mul_comm,
          ← Nat.two_pow_add_eq_or_of_lt carryBound]
      have nextBound : (x.toNat * 2 ^ shift + carry) >>> 16 < 2 ^ shift := by
        rw [Nat.shiftRight_eq_div_pow]
        apply Nat.div_lt_of_lt_mul
        omega
      obtain ⟨restLength, restBound, restValue⟩ := induction _ nextBound
      simp only [shiftLeftLimbs, joined]
      refine ⟨by simpa using restLength, restBound, ?_⟩
      calc
        _ = x.toNat * 2 ^ shift + carry + 2 ^ 16 * (value xs * 2 ^ shift) :=
          value_carry restValue
        _ = value (x :: xs) * 2 ^ shift + carry := by
          rw [value_cons]
          ring

/-- Shifting right divides by a power of two; the bits shifted out are the remainder. -/
theorem unshiftLimbs_spec (shift : Nat) (shiftBound : shift < 16) (limbs : List Limb) :
    (unshiftLimbs shift limbs).1.length = limbs.length ∧
      (unshiftLimbs shift limbs).2 = value limbs % 2 ^ shift ∧
      value (unshiftLimbs shift limbs).1 = value limbs / 2 ^ shift := by
  induction limbs with
  | nil => simp [unshiftLimbs]
  | cons x xs induction =>
      obtain ⟨lengthEq, carryEq, valueEq⟩ := induction
      have xBound := x.isLt
      have powerPositive : 0 < 2 ^ shift := Nat.two_pow_pos shift
      have powerBound : 2 ^ shift ≤ 2 ^ 15 :=
        Nat.pow_le_pow_right (by omega) (by omega)
      have carryBound := Nat.mod_lt (value xs) powerPositive
      have joined : x.toNat ||| (((value xs % 2 ^ shift) <<< 16) % 2 ^ 32) =
          x.toNat + 2 ^ 16 * (value xs % 2 ^ shift) := by
        rw [Nat.shiftLeft_eq, Nat.mod_eq_of_lt (by omega), Nat.or_comm,
          Nat.mul_comm, ← Nat.two_pow_add_eq_or_of_lt xBound, Nat.add_comm]
      have radixSplit : (2 : Nat) ^ 16 = 2 ^ shift * 2 ^ (16 - shift) := by
        rw [← pow_add]
        congr 1
        omega
      have division := Nat.div_add_mod (value xs) (2 ^ shift)
      have digitBound : (x.toNat + 2 ^ 16 * (value xs % 2 ^ shift)) / 2 ^ shift < 2 ^ 16 := by
        apply Nat.div_lt_of_lt_mul
        calc
          x.toNat + 2 ^ 16 * (value xs % 2 ^ shift)
              < 2 ^ 16 + 2 ^ 16 * (value xs % 2 ^ shift) := by omega
          _ = 2 ^ 16 * (value xs % 2 ^ shift + 1) := by ring
          _ ≤ 2 ^ 16 * 2 ^ shift := Nat.mul_le_mul_left _ carryBound
          _ = 2 ^ shift * 2 ^ 16 := Nat.mul_comm _ _
      simp only [unshiftLimbs, carryEq, joined]
      refine ⟨by simpa using lengthEq, ?_, ?_⟩
      · rw [Nat.and_two_pow_sub_one_eq_mod, value_cons, radixSplit,
          Nat.mul_assoc, Nat.add_mul_mod_self_left]
      · rw [value_cons, value_cons, BitVec.toNat_ofNat,
          Nat.shiftRight_eq_div_pow, Nat.mod_eq_of_lt digitBound, valueEq]
        have whole : x.toNat + 2 ^ 16 * value xs = (x.toNat + 2 ^ 16 * (value xs % 2 ^ shift)) +
              2 ^ shift * (2 ^ 16 * (value xs / 2 ^ shift)) := by
          calc
            x.toNat + 2 ^ 16 * value xs = x.toNat + 2 ^ 16 * (2 ^ shift * (value xs / 2 ^ shift) +
                    value xs % 2 ^ shift) := by rw [division]
            _ = (x.toNat + 2 ^ 16 * (value xs % 2 ^ shift)) +
                  2 ^ shift * (2 ^ 16 * (value xs / 2 ^ shift)) := by ring
        rw [whole, Nat.add_mul_div_left _ _ powerPositive]

end ClAmiga.Bignum
