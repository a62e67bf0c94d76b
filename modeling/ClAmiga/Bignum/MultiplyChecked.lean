import ClAmiga.Bignum.MagnitudeSpec

/-!
# Multiplication without overflow

The multiplication kernels once more, with every sum and product kept in the C
type it is computed in: `unsigned bits` refuses a number that needs more bits,
and `stored` a list that is longer than the buffer it goes to.  Nothing is
refused for any operands, so the wrapping kernels carry exact numbers.
-/

namespace ClAmiga.Bignum

open Radix

def unsigned (bits number : Nat) : Option Nat :=
  if number < 2 ^ bits then some number else none

theorem unsigned_eq {bits number : Nat} (fits : number < 2 ^ bits) :
    unsigned bits number = some number :=
  if_pos fits

/-- The elements a loop writes, refused when the buffer is shorter. -/
def stored {α : Type} (capacity : Nat) (elements : List α) : Option (List α) :=
  if elements.length ≤ capacity then some elements else none

theorem stored_eq {α : Type} {capacity : Nat} {elements : List α}
    (room : elements.length ≤ capacity) :
    stored capacity elements = some elements :=
  if_pos room

/-- `bignum_mul_mag` and `bignum_mul_mag32` compute in `2 * w` bits, and add the
last carry in `w` bits.  A row that leaves its window is refused. -/
def mulRowChecked {w : Nat} (x : BitVec w) :
    List (BitVec w) → List (BitVec w) → Nat → Option (List (BitVec w))
  | y :: ys, r :: rs, carry => do
      let product ← unsigned (2 * w) (x.toNat * y.toNat)
      let sum ← unsigned (2 * w) (product + r.toNat)
      let prod ← unsigned (2 * w) (sum + carry)
      let rest ← mulRowChecked x ys rs (prod >>> w)
      return BitVec.ofNat w prod :: rest
  | [], r :: rs, carry => do
      let last ← unsigned w carry
      let top ← unsigned w (r.toNat + last)
      return BitVec.ofNat w top :: rs
  | _, [], _ => none

def mulRowsChecked {w : Nat} :
    List (BitVec w) → List (BitVec w) → List (BitVec w) →
      Option (List (BitVec w))
  | [], _, result => some result
  | x :: xs, b, result => do
      match ← mulRowChecked x b result 0 with
      | [] => none
      | r :: rs =>
          let rest ← mulRowsChecked xs b rs
          return r :: rest

def mulSchoolbookChecked {w : Nat} (capacity : Nat) (a b : List (BitVec w)) :
    Option (List (BitVec w)) := do
  let rLen ← unsigned 32 (a.length + b.length)
  let zeros ← stored capacity (List.replicate rLen 0)
  let result ← mulRowsChecked a b zeros
  return strip result

/-- The two-limb loop: `uint64_t` products and carries. -/
def mulSmallPairsChecked (m : Nat) : List Limb → Nat → Option (List Limb × Nat)
  | x0 :: x1 :: xs, carry => do
      let high ← unsigned 32 (x1.toNat * 2 ^ 16)
      let product ← unsigned 64 ((x0.toNat + high) * m)
      let prod ← unsigned 64 (product + carry)
      let rest ← mulSmallPairsChecked m xs (prod >>> 32)
      return (BitVec.ofNat 16 prod :: BitVec.ofNat 16 (prod >>> 16) :: rest.1,
        rest.2)
  | [x0], carry => do
      let product ← unsigned 64 (x0.toNat * m)
      let prod ← unsigned 64 (product + carry)
      return ([BitVec.ofNat 16 prod], prod >>> 16)
  | [], carry => some ([], carry)

/-- The four-limb loop: a 128-bit product, a `uint64_t` carry. -/
def mulSmallQuadsChecked (m : Nat) : List Limb → Nat → Option (List Limb × Nat)
  | x0 :: x1 :: x2 :: x3 :: xs, carry => do
      let x ← unsigned 64 (x0.toNat + x1.toNat * 2 ^ 16 + x2.toNat * 2 ^ 32
        + x3.toNat * 2 ^ 48)
      let product ← unsigned 128 (x * m)
      let prod ← unsigned 128 (product + carry)
      let lo := prod % 2 ^ 64
      let next ← unsigned 64 (prod >>> 64)
      let rest ← mulSmallQuadsChecked m xs next
      return (BitVec.ofNat 16 lo :: BitVec.ofNat 16 (lo >>> 16) ::
        BitVec.ofNat 16 (lo >>> 32) :: BitVec.ofNat 16 (lo >>> 48) :: rest.1,
        rest.2)
  | limbs, carry => mulSmallPairsChecked m limbs carry

/-- The 68020 loop for a multiplier of one limb, in `uint32_t`. -/
def mulSmallOneChecked (ml : Nat) : List Limb → Nat → Option (List Limb × Nat)
  | x :: xs, carry => do
      let product ← unsigned 32 (x.toNat * ml)
      let prod ← unsigned 32 (product + carry)
      let rest ← mulSmallOneChecked ml xs (prod >>> 16)
      return (BitVec.ofNat 16 prod :: rest.1, rest.2)
  | [], carry => some ([], carry)

/-- The 68020 loop for a multiplier of two limbs, in `uint32_t`. -/
def mulSmallTwoChecked (ml mh : Nat) :
    List Limb → Nat → Option (List Limb × Nat)
  | x :: xs, carry => do
      let low ← unsigned 32 (x.toNat * ml)
      let p0 ← unsigned 32 (low + carry % 2 ^ 16)
      let high ← unsigned 32 (x.toNat * mh)
      let sum ← unsigned 32 (high + (carry >>> 16))
      let next ← unsigned 32 (sum + (p0 >>> 16))
      let rest ← mulSmallTwoChecked ml mh xs next
      return (BitVec.ofNat 16 p0 :: rest.1, rest.2)
  | [], carry => some ([], carry)

/-- The body must stay within `result[0..r_len)`, and the limbs after it must
take the whole carry. -/
def bignumMulSmallChecked (platform : Platform) (a : List Limb) (m rLen : Nat) :
    Option (List Limb) := do
  let body ←
    match platform with
    | .host true => mulSmallQuadsChecked m a 0
    | .host false => mulSmallPairsChecked m a 0
    | .m68k =>
        let ml := m % 2 ^ 16
        let mh := m >>> 16
        if mh = 0 then mulSmallOneChecked ml a 0
        else mulSmallTwoChecked ml mh a 0
  let low ← stored rLen body.1
  let carry ← unsigned (16 * (rLen - a.length)) body.2
  return low ++ carryOut (rLen - a.length) carry

theorem mulRowChecked_eq {w : Nat} (x : BitVec w) (ys low high : List (BitVec w))
    (carry : Nat) (sameLength : low.length = ys.length)
    (carryBound : carry < 2 ^ w) :
    mulRowChecked x ys (low ++ 0 :: high) carry = some (mulRow x ys (low ++ 0 :: high) carry) := by
  induction ys generalizing low carry with
  | nil =>
      have lowNil : low = [] := List.eq_nil_of_length_eq_zero sameLength
      subst lowNil
      simp [mulRowChecked, mulRow, unsigned_eq carryBound]
  | cons y ys induction =>
      cases low with
      | nil => simp at sameLength
      | cons r rs =>
          have bound := product_lt x.isLt y.isLt r.isLt carryBound
          have nextBound := product_carry_lt bound
          have rest := induction rs _ (by simpa using sameLength) nextBound
          simp only [List.cons_append, mulRowChecked, mulRow,
            unsigned_eq (show x.toNat * y.toNat < 2 ^ (2 * w) by omega),
            unsigned_eq (show x.toNat * y.toNat + r.toNat < 2 ^ (2 * w) by
              omega),
            unsigned_eq bound, Option.bind_eq_bind, Option.bind_some, rest,
            Nat.mod_eq_of_lt bound]
          rfl

theorem mulRowsChecked_eq {w : Nat} (a b low : List (BitVec w))
    (sameLength : low.length = b.length) :
    mulRowsChecked a b (low ++ List.replicate a.length 0) =
      some (mulRows a b (low ++ List.replicate a.length 0)) := by
  induction a generalizing low with
  | nil => rfl
  | cons x xs induction =>
      obtain ⟨row, rowLength, rowShape, _⟩ :=
        mulRow_spec x b low (List.replicate xs.length 0) 0 sameLength (Nat.two_pow_pos w)
      have checked := mulRowChecked_eq x b low (List.replicate xs.length 0) 0
        sameLength (Nat.two_pow_pos w)
      cases row with
      | nil => simp at rowLength
      | cons r rs =>
          have rest := induction rs (by simpa using rowLength)
          rw [rowShape] at checked
          simp only [List.length_cons, List.replicate_succ, mulRowsChecked,
            mulRows, checked, rowShape, List.cons_append, Option.bind_eq_bind,
            Option.bind_some, rest]
          rfl

theorem mulSchoolbookChecked_eq {w capacity : Nat} (a b : List (BitVec w))
    (counted : a.length + b.length < 2 ^ 32)
    (room : a.length + b.length ≤ capacity) :
    mulSchoolbookChecked capacity a b = some (mulSchoolbook a b) := by
  have split : List.replicate (a.length + b.length) (0 : BitVec w) =
      List.replicate b.length 0 ++ List.replicate a.length 0 := by
    rw [List.replicate_append_replicate, Nat.add_comm]
  have buffer : stored capacity (List.replicate (a.length + b.length) (0 : BitVec w)) =
        some (List.replicate (a.length + b.length) 0) := by
    apply stored_eq
    rw [List.length_replicate]
    exact room
  have rows := mulRowsChecked_eq a b (List.replicate b.length 0) (by simp)
  rw [← split] at rows
  simp only [mulSchoolbookChecked, unsigned_eq counted, buffer, rows,
    Option.bind_eq_bind, Option.bind_some, mulSchoolbook]
  rfl

theorem mulSmallPairsChecked_eq (m : Nat) (mBound : m ≤ 2 ^ 30) (a : List Limb)
    (carry : Nat) (carryBound : carry < 2 ^ 32) :
    mulSmallPairsChecked m a carry = some (mulSmallPairs m a carry) := by
  fun_induction mulSmallPairs m a carry with
  | case1 x0 x1 xs carry prod rest induction =>
      have x0Bound := x0.isLt
      have x1Bound := x1.isLt
      have fits := round_lt (show x0.toNat + x1.toNat * 2 ^ 16 < 2 ^ 32 by omega) mBound carryBound
      have exactProduct : prod = (x0.toNat + x1.toNat * 2 ^ 16) * m + carry :=
        Nat.mod_eq_of_lt fits.1
      have nextBound : prod >>> 32 < 2 ^ 32 := by
        rw [exactProduct]
        exact fits.2
      have checked := induction nextBound
      simp only [rest]
      clear_value prod
      subst prod
      rw [mulSmallPairsChecked, unsigned_eq (show x1.toNat * 2 ^ 16 < 2 ^ 32 by omega),
        Option.bind_eq_bind, Option.bind_some,
        unsigned_eq (show (x0.toNat + x1.toNat * 2 ^ 16) * m < 2 ^ 64 by omega),
        Option.bind_some,
        unsigned_eq (show (x0.toNat + x1.toNat * 2 ^ 16) * m + carry < 2 ^ 64 by
          omega), Option.bind_some, checked]
      rfl
  | case2 x0 carry prod =>
      have fits : x0.toNat * m + carry < 2 ^ 64 :=
        (round_lt x0.isLt mBound carryBound).1.trans (by decide)
      have exactProduct : prod = x0.toNat * m + carry := Nat.mod_eq_of_lt fits
      rw [exactProduct]
      simp only [mulSmallPairsChecked,
        unsigned_eq (show x0.toNat * m < 2 ^ 64 by omega),
        unsigned_eq (show x0.toNat * m + carry < 2 ^ 64 by omega),
        Option.bind_eq_bind, Option.bind_some]
      rfl
  | case3 carry => rfl

theorem mulSmallQuadsChecked_eq (m : Nat) (mBound : m ≤ 2 ^ 30) (a : List Limb)
    (carry : Nat) (carryBound : carry < 2 ^ 32) :
    mulSmallQuadsChecked m a carry = some (mulSmallQuads m a carry) := by
  fun_induction mulSmallQuads m a carry with
  | case1 x0 x1 x2 x3 xs carry x prod lo rest induction =>
      have x0Bound := x0.isLt
      have x1Bound := x1.isLt
      have x2Bound := x2.isLt
      have x3Bound := x3.isLt
      have xBound : x < 2 ^ 64 := by
        simp only [x]
        omega
      have fits := round_lt xBound mBound carryBound
      have exactProduct : prod = x * m + carry :=
        Nat.mod_eq_of_lt (fits.1.trans (by decide))
      have next : prod >>> 64 < 2 ^ 32 := by
        rw [exactProduct]
        exact fits.2
      have exactNext : (prod >>> 64) % 2 ^ 64 = prod >>> 64 :=
        Nat.mod_eq_of_lt (next.trans (by decide))
      have nextBound : (prod >>> 64) % 2 ^ 64 < 2 ^ 32 := by
        rw [exactNext]
        exact next
      have nextFits : (x * m + carry) >>> 64 < 2 ^ 64 := fits.2.trans (by decide)
      have checked := induction nextBound
      have limbs : x0.toNat + x1.toNat * 2 ^ 16 + x2.toNat * 2 ^ 32 +
          x3.toNat * 2 ^ 48 = x := rfl
      simp only [rest, lo]
      clear_value x prod
      subst prod
      rw [exactNext] at checked ⊢
      have first := unsigned_eq (show x * m < 2 ^ 128 by omega)
      have second := unsigned_eq (show x * m + carry < 2 ^ 128 by omega)
      rw [mulSmallQuadsChecked, limbs, unsigned_eq xBound, Option.bind_eq_bind,
        Option.bind_some, first, Option.bind_some, second, Option.bind_some]
      dsimp only
      rw [unsigned_eq nextFits, Option.bind_some, checked]
      rfl
  | case2 limbs carry short =>
      have same : mulSmallQuadsChecked m limbs carry = mulSmallPairsChecked m limbs carry := by
        unfold mulSmallQuadsChecked
        split
        · exact (short _ _ _ _ _ rfl).elim
        · rfl
      rw [same]
      exact mulSmallPairsChecked_eq m mBound limbs carry carryBound

theorem mulSmallOneChecked_eq (ml : Nat) (mlBound : ml < 2 ^ 16) (a : List Limb)
    (carry : Nat) (carryBound : carry < 2 ^ 16) :
    mulSmallOneChecked ml a carry = some (mulSmallOne ml a carry) := by
  fun_induction mulSmallOne ml a carry with
  | case1 x xs carry prod rest induction =>
      have xBound := x.isLt
      have productBound : x.toNat * ml ≤ (2 ^ 16 - 1) * (2 ^ 16 - 1) :=
        Nat.mul_le_mul (by omega) (by omega)
      have exactProduct : prod = x.toNat * ml + carry :=
        Nat.mod_eq_of_lt (by omega)
      have nextBound : prod >>> 16 < 2 ^ 16 := by
        rw [Nat.shiftRight_eq_div_pow]
        omega
      have checked := induction nextBound
      rw [exactProduct] at checked ⊢
      simp only [mulSmallOneChecked,
        unsigned_eq (show x.toNat * ml < 2 ^ 32 by omega),
        unsigned_eq (show x.toNat * ml + carry < 2 ^ 32 by omega),
        Option.bind_eq_bind, Option.bind_some, checked]
      simp only [rest, exactProduct]
      rfl
  | case2 carry => rfl

theorem mulSmallTwoChecked_eq (ml mh : Nat) (mlBound : ml < 2 ^ 16)
    (mhBound : mh ≤ 2 ^ 14) (a : List Limb) (carry : Nat)
    (carryBound : carry < 2 ^ 31) :
    mulSmallTwoChecked ml mh a carry = some (mulSmallTwo ml mh a carry) := by
  fun_induction mulSmallTwo ml mh a carry with
  | case1 x xs carry p0 next rest induction =>
      have xBound := x.isLt
      have lowBound : x.toNat * ml ≤ (2 ^ 16 - 1) * (2 ^ 16 - 1) :=
        Nat.mul_le_mul (by omega) (by omega)
      have highBound : x.toNat * mh ≤ (2 ^ 16 - 1) * 2 ^ 14 :=
        Nat.mul_le_mul (by omega) mhBound
      have exactLow : p0 = x.toNat * ml + carry % 2 ^ 16 :=
        Nat.mod_eq_of_lt (by omega)
      have p0Bound : x.toNat * ml + carry % 2 ^ 16 < 2 ^ 32 := by omega
      have carryHigh : carry >>> 16 < 2 ^ 15 := by
        rw [Nat.shiftRight_eq_div_pow]
        omega
      have p0High : (x.toNat * ml + carry % 2 ^ 16) >>> 16 < 2 ^ 16 := by
        rw [Nat.shiftRight_eq_div_pow]
        omega
      have exactNext : next = x.toNat * mh + (carry >>> 16) +
          ((x.toNat * ml + carry % 2 ^ 16) >>> 16) := by
        simp only [next, exactLow]
        exact Nat.mod_eq_of_lt (by omega)
      have checked := induction (by omega)
      rw [exactNext] at checked
      simp only [mulSmallTwoChecked,
        unsigned_eq (show x.toNat * ml < 2 ^ 32 by omega),
        unsigned_eq p0Bound,
        unsigned_eq (show x.toNat * mh < 2 ^ 32 by omega),
        unsigned_eq (show x.toNat * mh + (carry >>> 16) < 2 ^ 32 by omega),
        unsigned_eq (show x.toNat * mh + (carry >>> 16) +
          ((x.toNat * ml + carry % 2 ^ 16) >>> 16) < 2 ^ 32 by omega),
        Option.bind_eq_bind, Option.bind_some, checked]
      simp only [rest, exactLow, exactNext]
      rfl
  | case2 carry => rfl

theorem bignumMulSmallChecked_eq (platform : Platform) (a : List Limb)
    (m rLen : Nat) (mBound : m ≤ 2 ^ 30) (covers : a.length ≤ rLen)
    (fits : value a * m < (2 ^ 16) ^ rLen) :
    bignumMulSmallChecked platform a m rLen = some (bignumMulSmall platform a m rLen) := by
  have finish : ∀ body : List Limb × Nat, MulSmallResult a m 0 body →
      (do
        let low ← stored rLen body.1
        let carry ← unsigned (16 * (rLen - a.length)) body.2
        return low ++ carryOut (rLen - a.length) carry) =
        some (body.1 ++ carryOut (rLen - a.length) body.2) := by
    intro body ⟨lengthEq, valueEq⟩
    have split : (2 ^ 16) ^ rLen = (2 ^ 16) ^ a.length * 2 ^ (16 * (rLen - a.length)) := by
      rw [pow_mul, ← pow_add]
      congr 1
      omega
    have carryFits : body.2 < 2 ^ (16 * (rLen - a.length)) := by
      have bounded : (2 ^ 16) ^ a.length * body.2 <
          (2 ^ 16) ^ a.length * 2 ^ (16 * (rLen - a.length)) := by
        rw [← split]
        omega
      exact Nat.lt_of_mul_lt_mul_left bounded
    rw [stored_eq (by omega), unsigned_eq carryFits]
    rfl
  unfold bignumMulSmallChecked bignumMulSmall
  cases platform with
  | host int128 =>
      cases int128 with
      | true =>
          simp only [mulSmallQuadsChecked_eq m mBound a 0 (by omega)]
          exact finish _ (mulSmallQuads_spec m mBound a 0 (by omega))
      | false =>
          simp only [mulSmallPairsChecked_eq m mBound a 0 (by omega)]
          exact finish _ (mulSmallPairs_spec m mBound a 0 (by omega))
  | m68k =>
      have split : m % 2 ^ 16 + 2 ^ 16 * (m >>> 16) = m := by
        rw [Nat.shiftRight_eq_div_pow]
        omega
      have lowBound : m % 2 ^ 16 < 2 ^ 16 := Nat.mod_lt _ (by omega)
      have highBound : m >>> 16 ≤ 2 ^ 14 := by
        rw [Nat.shiftRight_eq_div_pow]
        omega
      simp only
      split
      · rename_i zero
        rw [zero, Nat.mul_zero, Nat.add_zero] at split
        rw [mulSmallOneChecked_eq _ lowBound a 0 (by omega)]
        have result := mulSmallOne_spec (m % 2 ^ 16) lowBound a 0 (by omega)
        rw [split] at result ⊢
        exact finish _ result
      · rw [mulSmallTwoChecked_eq _ _ lowBound highBound a 0 (by omega)]
        have result := mulSmallTwo_spec (m % 2 ^ 16) (m >>> 16) lowBound highBound a 0 (by omega)
        rw [split] at result
        exact finish _ result

end ClAmiga.Bignum
