import Mathlib.Data.Nat.Bitwise
import Mathlib.Tactic.Linarith

/-!
# UTF-8 text

`cl_utf8_encode` and `cl_utf8_decode`.  A byte is a number below 256.
-/

namespace ClAmiga.ReadPrint

/-- No bytes for a code that is not a scalar value. -/
def clUtf8Encode (cp : Nat) : List Nat :=
  if cp ≤ 0x7F then [cp]
  else if cp ≤ 0x7FF then [0xC0 ||| cp >>> 6, 0x80 ||| (cp &&& 0x3F)]
  else if cp ≤ 0xFFFF then
    if 0xD800 ≤ cp ∧ cp ≤ 0xDFFF then []
    else [0xE0 ||| cp >>> 12, 0x80 ||| (cp >>> 6 &&& 0x3F), 0x80 ||| (cp &&& 0x3F)]
  else if cp ≤ 0x10FFFF then
    [0xF0 ||| cp >>> 18, 0x80 ||| (cp >>> 12 &&& 0x3F), 0x80 ||| (cp >>> 6 &&& 0x3F),
      0x80 ||| (cp &&& 0x3F)]
  else []

/-- The bits of a leading byte and the length it announces. -/
def leadingByte (b0 : Nat) : Option (Nat × Nat) :=
  if b0 &&& 0xE0 = 0xC0 then some (b0 &&& 0x1F, 2)
  else if b0 &&& 0xF0 = 0xE0 then some (b0 &&& 0x0F, 3)
  else if b0 &&& 0xF8 = 0xF0 then some (b0 &&& 0x07, 4)
  else none

/-- The loop over so many continuation bytes. -/
def continuationBytes : Nat → Nat → List Nat → Option Nat
  | 0, cp, _ => some cp
  | _ + 1, _, [] => none
  | count + 1, cp, byte :: bytes =>
      if byte &&& 0xC0 ≠ 0x80 then none
      else continuationBytes count (cp <<< 6 ||| (byte &&& 0x3F)) bytes

def overlong (expected cp : Nat) : Bool :=
  decide (expected = 2 ∧ cp < 0x80 ∨ expected = 3 ∧ cp < 0x800 ∨
    expected = 4 ∧ cp < 0x10000)

/-- A code and the number of its bytes; absent for no bytes at all, and the
replacement character for a sequence that is not well formed. -/
def clUtf8Decode : List Nat → Option (Nat × Nat)
  | [] => none
  | b0 :: bytes =>
      if b0 ≤ 0x7F then some (b0, 1)
      else
        match leadingByte b0 with
        | none => some (0xFFFD, 1)
        | some (cp, expected) =>
            if expected > bytes.length + 1 then some (0xFFFD, 1)
            else
              match continuationBytes (expected - 1) cp bytes with
              | none => some (0xFFFD, 1)
              | some cp =>
                  if overlong expected cp then some (0xFFFD, expected)
                  else if 0xD800 ≤ cp ∧ cp ≤ 0xDFFF ∨ cp > 0x10FFFF then
                    some (0xFFFD, expected)
                  else some (cp, expected)

theorem continuation_byte {low : Nat} (small : low < 64) :
    (0x80 ||| low) &&& 0xC0 = 0x80 ∧ (0x80 ||| low) &&& 0x3F = low := by
  have all : ∀ low < 64, (0x80 ||| low) &&& 0xC0 = 0x80 ∧ (0x80 ||| low) &&& 0x3F = low := by
    decide
  exact all low small

theorem leadingByte_two {high : Nat} (small : high < 32) :
    ¬ 0xC0 ||| high ≤ 0x7F ∧ leadingByte (0xC0 ||| high) = some (high, 2) := by
  have all : ∀ high < 32,
      ¬ 0xC0 ||| high ≤ 0x7F ∧ leadingByte (0xC0 ||| high) = some (high, 2) := by
    decide
  exact all high small

theorem leadingByte_three {high : Nat} (small : high < 16) :
    ¬ 0xE0 ||| high ≤ 0x7F ∧ leadingByte (0xE0 ||| high) = some (high, 3) := by
  have all : ∀ high < 16,
      ¬ 0xE0 ||| high ≤ 0x7F ∧ leadingByte (0xE0 ||| high) = some (high, 3) := by
    decide
  exact all high small

theorem leadingByte_four {high : Nat} (small : high < 8) :
    ¬ 0xF0 ||| high ≤ 0x7F ∧ leadingByte (0xF0 ||| high) = some (high, 4) := by
  have all : ∀ high < 8, ¬ 0xF0 ||| high ≤ 0x7F ∧ leadingByte (0xF0 ||| high) = some (high, 4) := by
    decide
  exact all high small

theorem six_bits (n : Nat) : n &&& 0x3F = n % 64 :=
  Nat.and_two_pow_sub_one_eq_mod n 6

theorem continuationBytes_append (count cp low : Nat) (bytes : List Nat) :
    continuationBytes (count + 1) cp ((0x80 ||| (low &&& 0x3F)) :: bytes) =
      continuationBytes count (64 * cp + low % 64) bytes := by
  have small : low % 64 < 64 := Nat.mod_lt _ (by decide)
  obtain ⟨marked, payload⟩ := continuation_byte small
  rw [six_bits, continuationBytes, if_neg (not_not.mpr marked), payload,
    ← Nat.shiftLeft_add_eq_or_of_lt (b := low % 64) (i := 6) small, Nat.shiftLeft_eq,
    Nat.mul_comm cp]

/-- A scalar value is decoded from its encoding, whatever follows. -/
theorem clUtf8Decode_encode (c : Char) (bytes : List Nat) :
    clUtf8Decode (clUtf8Encode c.toNat ++ bytes) =
      some (c.toNat, (clUtf8Encode c.toNat).length) := by
  have valid : c.toNat < 0xD800 ∨ 0xDFFF < c.toNat ∧ c.toNat < 0x110000 := c.valid
  generalize c.toNat = cp at valid
  unfold clUtf8Encode
  by_cases one : cp ≤ 0x7F
  · rw [if_pos one]
    simp [clUtf8Decode, one]
  rw [if_neg one]
  by_cases two : cp ≤ 0x7FF
  · have high : cp >>> 6 = cp / 64 := Nat.shiftRight_eq_div_pow cp 6
    have small : cp >>> 6 < 32 := by omega
    obtain ⟨large, leading⟩ := leadingByte_two small
    rw [if_pos two]
    simp only [List.cons_append, List.nil_append, clUtf8Decode, if_neg large, leading,
      List.length_cons, List.length_nil]
    rw [if_neg (by omega), continuationBytes_append, continuationBytes, high, Nat.div_add_mod]
    have proper : overlong 2 cp = false := by
      simp [overlong]
      omega
    simp only [proper, Bool.false_eq_true, if_false]
    rw [if_neg (by omega)]
  rw [if_neg two]
  by_cases three : cp ≤ 0xFFFF
  · have high : cp >>> 12 = cp / 4096 := Nat.shiftRight_eq_div_pow cp 12
    have middle : cp >>> 6 = cp / 64 := Nat.shiftRight_eq_div_pow cp 6
    have small : cp >>> 12 < 16 := by omega
    obtain ⟨large, leading⟩ := leadingByte_three small
    rw [if_pos three, if_neg (by omega)]
    simp only [List.cons_append, List.nil_append, clUtf8Decode, if_neg large, leading,
      List.length_cons, List.length_nil]
    rw [if_neg (by omega), continuationBytes_append, continuationBytes_append,
      continuationBytes, high, middle]
    have joined : 64 * (64 * (cp / 4096) + cp / 64 % 64) + cp % 64 = cp := by omega
    have proper : overlong 3 cp = false := by
      simp [overlong]
      omega
    simp only [joined, proper, Bool.false_eq_true, if_false]
    rw [if_neg (by omega)]
  · have high : cp >>> 18 = cp / 262144 := Nat.shiftRight_eq_div_pow cp 18
    have upper : cp >>> 12 = cp / 4096 := Nat.shiftRight_eq_div_pow cp 12
    have middle : cp >>> 6 = cp / 64 := Nat.shiftRight_eq_div_pow cp 6
    have small : cp >>> 18 < 8 := by omega
    obtain ⟨large, leading⟩ := leadingByte_four small
    rw [if_neg three, if_pos (by omega)]
    simp only [List.cons_append, List.nil_append, clUtf8Decode, if_neg large, leading,
      List.length_cons, List.length_nil]
    rw [if_neg (by omega), continuationBytes_append, continuationBytes_append,
      continuationBytes_append, continuationBytes, high, upper, middle]
    have joined : 64 * (64 * (64 * (cp / 262144) + cp / 4096 % 64) + cp / 64 % 64) +
        cp % 64 = cp := by
      omega
    have proper : overlong 4 cp = false := by
      simp [overlong]
      omega
    simp only [joined, proper, Bool.false_eq_true, if_false]
    rw [if_neg (by omega)]

theorem clUtf8Encode_ne_nil (c : Char) : clUtf8Encode c.toNat ≠ [] := by
  have decoded := clUtf8Decode_encode c []
  intro empty
  rw [empty, List.append_nil, clUtf8Decode] at decoded
  cases decoded

end ClAmiga.ReadPrint
