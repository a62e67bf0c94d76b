import ClAmiga.Bignum.MagnitudeSpec
import ClAmiga.Number.IntegerText

/-!
# Printing and reading integers

The printer writes the positional digits of every integer in every base; its
digit buffer never fills.  The string reader computes modulo the capacity of
its accumulator, so a decimal string is read exactly when its value is below
`accumulatorLimit`, and the printed text of such an integer is read back.
-/

namespace ClAmiga.Number

open Radix Bignum

variable {platform : Platform}

def accumulatorLimit : Nat :=
  (2 ^ 16) ^ 256

/-- Ten times the accumulator, with the carry out. -/
theorem mulTen_spec (limbs : List Limb) (carry : Nat) (small : carry < 10) :
    (mulTen limbs carry).1.length = limbs.length ∧ (mulTen limbs carry).2 < 10 ∧
      value (mulTen limbs carry).1 + (2 ^ 16) ^ limbs.length * (mulTen limbs carry).2 =
        value limbs * 10 + carry := by
  induction limbs generalizing carry with
  | nil => simpa [mulTen] using small
  | cons x xs induction =>
      have bound := x.isLt
      have exact32 : (x.toNat * 10 + carry) % 2 ^ 32 = x.toNat * 10 + carry :=
        Nat.mod_eq_of_lt (by omega)
      have next : (x.toNat * 10 + carry) >>> 16 < 10 := by
        rw [Nat.shiftRight_eq_div_pow]
        omega
      obtain ⟨lengthEq, carryBound, valueEq⟩ := induction _ next
      simp only [mulTen, exact32]
      refine ⟨by rw [List.length_cons, lengthEq, List.length_cons], carryBound, ?_⟩
      calc
        _ = x.toNat * 10 + carry + 2 ^ 16 * (value xs * 10) := value_carry valueEq
        _ = value (x :: xs) * 10 + carry := by
          rw [value_cons]
          ring

/-- A digit added to the accumulator, with the carry out. -/
theorem addDigit_spec (limbs : List Limb) (carry : Nat) (small : carry < 10) :
    (addDigit limbs carry).1.length = limbs.length ∧ (addDigit limbs carry).2 < 10 ∧
      value (addDigit limbs carry).1 + (2 ^ 16) ^ limbs.length * (addDigit limbs carry).2 =
        value limbs + carry := by
  induction limbs generalizing carry with
  | nil => simpa [addDigit] using small
  | cons x xs induction =>
      unfold addDigit
      by_cases none : carry = 0
      · simp [none]
      have bound := x.isLt
      have exact32 : (x.toNat + carry) % 2 ^ 32 = x.toNat + carry :=
        Nat.mod_eq_of_lt (by omega)
      have next : (x.toNat + carry) >>> 16 < 10 := by
        rw [Nat.shiftRight_eq_div_pow]
        omega
      obtain ⟨lengthEq, carryBound, valueEq⟩ := induction _ next
      rw [if_neg none, exact32]
      refine ⟨by rw [List.length_cons, lengthEq, List.length_cons], carryBound, ?_⟩
      calc
        _ = x.toNat + carry + 2 ^ 16 * value xs := value_carry valueEq
        _ = value (x :: xs) + carry := by
          rw [value_cons]
          ring

/-- What the accumulator is between two steps of the loop. -/
structure Accumulates (acc : List Limb) : Prop where
  nonempty : acc ≠ []
  room : acc.length ≤ 256

/-- A carry out of the 256th limb is dropped. -/
theorem pushCarry_spec {low : List Limb} {carry : Nat} (accumulates : Accumulates low)
    (small : carry < 10) :
    Accumulates (pushCarry (low, carry)) ∧ value (pushCarry (low, carry)) =
        (value low + (2 ^ 16) ^ low.length * carry) % accumulatorLimit := by
  have bound := value_lt low
  unfold pushCarry accumulatorLimit
  by_cases none : carry = 0
  · have fits : value low < (2 ^ 16) ^ 256 :=
      lt_of_lt_of_le bound (Nat.pow_le_pow_right (by omega) accumulates.room)
    rw [if_neg (fun both => both.1 none), none, Nat.mul_zero, Nat.add_zero,
      Nat.mod_eq_of_lt fits]
    exact ⟨accumulates, rfl⟩
  by_cases full : low.length < 256
  · rw [if_pos ⟨none, full⟩]
    have grown : value (low ++ [BitVec.ofNat 16 carry]) =
        value low + (2 ^ 16) ^ low.length * carry := by
      rw [value_append, value_cons, value_nil, BitVec.toNat_ofNat,
        Nat.mod_eq_of_lt (by omega), Nat.mul_zero, Nat.add_zero]
    have longer : (low ++ [BitVec.ofNat 16 carry]).length ≤ 256 := by
      rw [List.length_append, List.length_singleton]
      exact full
    have fits := lt_of_lt_of_le (value_lt (low ++ [BitVec.ofNat 16 carry]))
      (Nat.pow_le_pow_right (by omega) longer)
    refine ⟨⟨by simp, longer⟩, ?_⟩
    rw [grown] at fits ⊢
    rw [Nat.mod_eq_of_lt fits]
  · have exactly : low.length = 256 := by
      have := accumulates.room
      omega
    rw [if_neg (fun both => full both.2)]
    rw [exactly] at bound ⊢
    rw [Nat.add_mul_mod_self_left, Nat.mod_eq_of_lt bound]
    exact ⟨accumulates, rfl⟩

theorem digitAt_spec : ∀ d < 10, ¬ (digitAt d < '0' ∨ digitAt d > '9') ∧
    (digitAt d).toNat - '0'.toNat = d := by
  decide

theorem Accumulates.of_length {acc low : List Limb} (accumulates : Accumulates acc)
    (lengthEq : low.length = acc.length) : Accumulates low where
  nonempty := by
    intro empty
    rw [empty] at lengthEq
    exact accumulates.nonempty (List.length_eq_zero_iff.mp lengthEq.symm)
  room := by
    rw [lengthEq]
    exact accumulates.room

/-- One digit of the token: the accumulator is exact modulo its 256 limbs. -/
theorem stringDigit_spec {acc : List Limb} (accumulates : Accumulates acc) {d : Nat}
    (small : d < 10) :
    Accumulates (stringDigit acc (digitAt d)) ∧ value (stringDigit acc (digitAt d)) =
        (value acc * 10 + d) % accumulatorLimit := by
  obtain ⟨isDigit, digitEq⟩ := digitAt_spec d small
  obtain ⟨tenLength, tenCarry, tenValue⟩ := mulTen_spec acc 0 (by omega)
  obtain ⟨scaled, scaledValue⟩ :=
    pushCarry_spec (accumulates.of_length tenLength) tenCarry
  obtain ⟨sumLength, sumCarry, sumValue⟩ :=
    addDigit_spec (pushCarry (mulTen acc 0)) d small
  obtain ⟨pushed, pushedValue⟩ :=
    pushCarry_spec (scaled.of_length sumLength) sumCarry
  rw [stringDigit, if_neg isDigit, digitEq]
  refine ⟨pushed, pushedValue.trans ?_⟩
  rw [sumLength, sumValue, scaledValue, tenLength, tenValue, Nat.add_zero, Nat.mod_add_mod]

/-- The value of decimal digits, the first one being the most significant. -/
def decimal (digits : List Nat) : Nat :=
  Nat.ofDigits 10 digits.reverse

theorem decimal_cons (d : Nat) (ds : List Nat) :
    decimal (d :: ds) = d * 10 ^ ds.length + decimal ds := by
  rw [decimal, List.reverse_cons, Nat.ofDigits_append, Nat.ofDigits_singleton,
    List.length_reverse, decimal]
  ring

variable {digits : List Nat}

theorem foldl_stringDigit (small : ∀ d ∈ digits, d < 10)
    {acc : List Limb} (accumulates : Accumulates acc) :
    Accumulates ((digits.map digitAt).foldl stringDigit acc) ∧
      value ((digits.map digitAt).foldl stringDigit acc) =
        (value acc * 10 ^ digits.length + decimal digits) % accumulatorLimit := by
  induction digits generalizing acc with
  | nil =>
      have fits : value acc < accumulatorLimit :=
        lt_of_lt_of_le (value_lt acc) (Nat.pow_le_pow_right (by omega) accumulates.room)
      refine ⟨accumulates, ?_⟩
      simp only [List.map_nil, List.foldl_nil, List.length_nil, Nat.pow_zero,
        Nat.mul_one, decimal, List.reverse_nil, Nat.ofDigits_nil, Nat.add_zero]
      rw [Nat.mod_eq_of_lt fits]
  | cons d ds induction =>
      obtain ⟨next, nextValue⟩ :=
        stringDigit_spec accumulates (small d (by simp))
      obtain ⟨final, finalValue⟩ :=
        induction (fun item member => small item (by simp [member])) next
      rw [List.map_cons, List.foldl_cons]
      refine ⟨final, finalValue.trans ?_⟩
      rw [nextValue, decimal_cons, List.length_cons]
      have moved : (value acc * 10 + d) * 10 ^ ds.length + decimal ds =
          value acc * 10 ^ (ds.length + 1) +
            (d * 10 ^ ds.length + decimal ds) := by ring
      rw [← moved, Nat.add_mod, Nat.mod_mul_mod, ← Nat.add_mod]

def signText : Option Bool → List Char
  | none => []
  | some negative => if negative then ['-'] else ['+']

def decimalText (sign : Option Bool) (digits : List Nat) : List Char :=
  signText sign ++ digits.map digitAt

theorem foldl_signText (sign : Option Bool) : (signText sign).foldl stringDigit [0] = [0] := by
  rcases sign with _ | negative
  · rfl
  · cases negative <;> decide

theorem fits_of_lt_accumulatorLimit {z : Int} (small : z.natAbs < accumulatorLimit) :
    Fits platform z := by
  have few : limbCount z ≤ 256 := limbCount_le small
  have room : 256 ≤ maxLimbs platform := by
    cases platform <;> simp only [maxLimbs] <;> omega
  exact few.trans room

/-- A decimal string is read modulo the capacity of the accumulator. -/
theorem clBignumFromString_eq (sign : Option Bool)
    (small : ∀ d ∈ digits, d < 10) (negative : Bool) :
    clBignumFromString platform (decimalText sign digits) negative =
      .ok (canon (signed negative (decimal digits % accumulatorLimit))) := by
  have start : Accumulates [(0 : Limb)] := ⟨by simp, by simp⟩
  obtain ⟨accumulates, valueEq⟩ := foldl_stringDigit small start
  have zero : value [(0 : Limb)] = 0 := rfl
  rw [zero, Nat.zero_mul, Nat.zero_add] at valueEq
  rw [clBignumFromString, decimalText, List.foldl_append, foldl_signText,
    bignumFromLimbs_eq negative accumulates.nonempty, valueEq]
  apply alloc_of_fits
  apply fits_of_lt_accumulatorLimit
  rw [natAbs_signed]
  exact Nat.mod_lt _ (Nat.pow_pos (by omega))

def positionalDigits (base magnitude : Nat) : List Char :=
  if magnitude = 0 then ['0'] else ((Nat.digits base magnitude).map digitAt).reverse

def positional (base : Nat) (z : Int) : List Char :=
  (if z < 0 then ['-'] else []) ++ positionalDigits base z.natAbs

theorem not_settled_iff {work : List Limb} (trimmed : Trimmed work) :
    (work.length > 1 ∨ work.getD 0 0 ≠ 0) ↔ value work ≠ 0 := by
  constructor
  · rintro (long | nonzero)
    · have := (trimmed.normalized_of_two_le long).value_pos
      omega
    · intro zero
      apply nonzero
      cases work with
      | nil => rfl
      | cons x xs =>
          rw [value_cons] at zero
          apply BitVec.eq_of_toNat_eq
          rw [List.getD_cons_zero]
          change x.toNat = 0
          omega
  · intro nonzero
    by_cases long : work.length > 1
    · exact Or.inl long
    · right
      intro zero
      apply nonzero
      match work with
      | [] => rfl
      | [x] =>
          rw [List.getD_cons_zero] at zero
          rw [zero]
          rfl
      | x :: y :: rest => simp at long

theorem digits_step {base number : Nat} (large : 2 ≤ base) (nonzero : number ≠ 0) :
    Nat.digits base number = number % base :: Nat.digits base (number / base) :=
  Nat.digits_def' (by omega) (by omega)

theorem extractDigits_eq {base : Limb} (large : 2 ≤ base.toNat) {cap fuel : Nat}
    {work : List Limb} (trimmed : Trimmed work) (digits : List Char)
    (room : digits.length + (Nat.digits base.toNat (value work)).length ≤ cap - 1)
    (enough : (Nat.digits base.toNat (value work)).length < fuel) :
    extractDigits base cap fuel work digits =
      some (digits ++ (Nat.digits base.toNat (value work)).map digitAt) := by
  induction fuel generalizing work digits with
  | zero => omega
  | succ fuel induction =>
      rw [extractDigits]
      by_cases zero : value work = 0
      · rw [if_neg (by rw [not_settled_iff trimmed]; exact not_not_intro zero), zero,
          Nat.digits_zero, List.map_nil, List.append_nil]
      · have nonzeroBase : base ≠ 0 := by
          intro isZero
          rw [isZero] at large
          exact absurd large (by decide)
        obtain ⟨lengthEq, remBound, valueEq⟩ :=
          bignumDivSingle_spec base nonzeroBase work
        have quotEq : value (bignumDivSingle base work).1 = value work / base.toNat := by
          rw [← valueEq, Nat.mul_comm, Nat.mul_add_div (by omega),
            Nat.div_eq_of_lt remBound, Nat.add_zero]
        have remEq : (bignumDivSingle base work).2 = value work % base.toNat := by
          rw [← valueEq, Nat.mul_comm, Nat.mul_add_mod, Nat.mod_eq_of_lt remBound]
        have nonempty : (bignumDivSingle base work).1 ≠ [] := by
          apply List.ne_nil_of_length_pos
          rw [lengthEq]
          exact trimmed.length_pos
        rw [digits_step large zero, List.length_cons] at room enough
        rw [if_pos ((not_settled_iff trimmed).mpr zero), digits_step large zero]
        dsimp only
        have strippedEq : value (strip (bignumDivSingle base work).1) =
            value work / base.toNat := by
          rw [value_strip, quotEq]
        rw [if_pos (by omega), induction (trimmed_strip nonempty), strippedEq, remEq,
          List.map_cons, List.append_assoc, List.singleton_append]
        · rw [strippedEq, List.length_append, List.length_singleton]
          omega
        · rw [strippedEq]
          omega

theorem length_digits_le {base : Nat} (large : 2 ≤ base) (limbs : List Limb) :
    (Nat.digits base (value limbs)).length ≤ limbs.length * 16 := by
  rw [Nat.digits_length_le_iff (by omega)]
  calc
    value limbs < (2 ^ 16) ^ limbs.length := value_lt limbs
    _ = 2 ^ (limbs.length * 16) := by rw [← pow_mul, Nat.mul_comm]
    _ ≤ base ^ (limbs.length * 16) := Nat.pow_le_pow_left large _

theorem digitsCap_eq {limbs : List Limb} (few : limbs.length ≤ maxLimbs platform) :
    digitsCap limbs = limbs.length * 16 + 2 := by
  apply Nat.mod_eq_of_lt
  cases platform <;> simp only [maxLimbs] at few <;> omega

theorem clBignumPrintBase_eq {sign : Bool} {limbs : List Limb}
    (canonical : (ClInt.bignum sign limbs).Canonical platform) {base : Nat}
    (large : 2 ≤ base) (small : base ≤ 36) :
    clBignumPrintBase sign limbs base = some (positional base (ClInt.bignum sign limbs).toInt) := by
  obtain ⟨normalized, few, _⟩ := canonical
  have positive := normalized.value_pos
  have notZero : limbs ≠ [0] := by
    intro zero
    rw [zero] at positive
    exact absurd positive (by decide)
  have baseEq : (BitVec.ofInt 16 (base : Int)).toNat = base := by
    rw [BitVec.ofInt_natCast, BitVec.toNat_ofNat, Nat.mod_eq_of_lt (by omega)]
  have count := length_digits_le large limbs
  have extracted : extractDigits (BitVec.ofInt 16 (base : Int)) (limbs.length * 16 + 2)
      (limbs.length * 16 + 2) limbs [] =
        some ([] ++ (Nat.digits base (value limbs)).map digitAt) := by
    have loop := @extractDigits_eq (BitVec.ofInt 16 (base : Int)) (large.trans baseEq.ge)
      (limbs.length * 16 + 2) (limbs.length * 16 + 2) limbs normalized.trimmed []
    rw [baseEq, List.length_nil] at loop
    exact loop (by omega) (by omega)
  have digitsEq : positionalDigits base (value limbs) =
      ((Nat.digits base (value limbs)).map digitAt).reverse :=
    if_neg (by omega)
  have signEq : (if signed sign (value limbs) < 0 then ['-'] else []) =
      if sign then ['-'] else [] := by
    simp only [signed_neg_iff positive]
  rw [clBignumPrintBase, if_neg (by omega : ¬ (base : Int) < 2),
    if_neg (by omega : ¬ (base : Int) > 36), if_neg notZero, digitsCap_eq few, extracted,
    positional, ClInt.toInt, natAbs_signed, digitsEq, signEq]
  rfl

theorem outDigits_eq {base : Nat} (large : 2 ≤ base) {fuel : Nat} (uval : Nat)
    (buf : List Char) (enough : (Nat.digits base uval).length < fuel) :
    outDigits base fuel uval buf = some (buf ++ (Nat.digits base uval).map digitAt) := by
  induction fuel generalizing uval buf with
  | zero => omega
  | succ fuel induction =>
      rw [outDigits]
      by_cases zero : uval = 0
      · rw [if_neg (by omega), zero, Nat.digits_zero, List.map_nil, List.append_nil]
      · rw [digits_step large zero, List.length_cons] at enough
        rw [if_pos (by omega), digits_step large zero, induction _ _ (by omega),
          List.map_cons, List.append_assoc, List.singleton_append]

/-- `*print-radix*` adds a prefix, or a point in base ten. -/
def withRadix (base : Nat) (radix : Bool) (text : List Char) : List Char :=
  (if radix then outRadixPrefix base else []) ++ text ++
    (if radix ∧ base = 10 then ['.'] else [])

theorem outInteger_eq {z : Int} (range : InFixnumRange z) {base : Nat} (large : 2 ≤ base)
    (radix : Bool) :
    outInteger z base radix = some (withRadix base radix (positional base z)) := by
  simp only [InFixnumRange, clFixnumMin, clFixnumMax] at range
  have count : (Nat.digits base z.natAbs).length ≤ 32 := by
    rw [Nat.digits_length_le_iff (by omega)]
    have power : 2 ^ 32 ≤ base ^ 32 := Nat.pow_le_pow_left large 32
    omega
  have written : outBuffer base z.natAbs = some (positionalDigits base z.natAbs).reverse := by
    unfold outBuffer positionalDigits
    by_cases zero : z.natAbs = 0
    · rw [if_pos zero, if_pos zero]
      rfl
    · rw [if_neg zero, if_neg zero, List.reverse_reverse,
        outDigits_eq large _ _ (Nat.lt_succ_of_le count), List.nil_append]
  rw [outInteger, written]
  simp [withRadix, positional]

theorem printInteger_eq {a : ClInt} (canonical : a.Canonical platform) {base : Nat}
    (large : 2 ≤ base) (small : base ≤ 36) (radix : Bool) :
    printInteger base radix a = some (withRadix base radix (positional base a.toInt)) := by
  cases a with
  | fixnum word => exact outInteger_eq (word_range word) large radix
  | bignum sign limbs =>
      rw [printInteger, clBignumPrintBase_eq canonical large small]
      rfl

theorem positional_ten (z : Int) :
    ∃ sign digits, (∀ d ∈ digits, d < 10) ∧ decimal digits = z.natAbs ∧
      positional 10 z = decimalText sign digits ∧
      ((positional 10 z).head? = some '-' ↔ z < 0) := by
  have written : ∃ digits, (∀ d ∈ digits, d < 10) ∧ decimal digits = z.natAbs ∧
      positionalDigits 10 z.natAbs = digits.map digitAt ∧ digits ≠ [] := by
    by_cases zero : z.natAbs = 0
    · refine ⟨[0], by simp, by rw [zero]; rfl, ?_, by simp⟩
      rw [positionalDigits, if_pos zero]
      rfl
    · refine ⟨(Nat.digits 10 z.natAbs).reverse, ?_, ?_, ?_, ?_⟩
      · intro d member
        exact Nat.digits_lt_base (by omega) (List.mem_reverse.mp member)
      · rw [decimal, List.reverse_reverse, Nat.ofDigits_digits]
      · rw [positionalDigits, if_neg zero, List.map_reverse]
      · rw [ne_eq, List.reverse_eq_nil_iff]
        exact Nat.digits_ne_nil_iff_ne_zero.mpr zero
  obtain ⟨digits, small, valueEq, textEq, nonempty⟩ := written
  by_cases negative : z < 0
  · refine ⟨some true, digits, small, valueEq, ?_, ?_⟩
    · rw [positional, if_pos negative, textEq]
      rfl
    · simp [positional, negative]
  · refine ⟨none, digits, small, valueEq, ?_, ?_⟩
    · rw [positional, if_neg negative, textEq]
      rfl
    · rw [positional, if_neg negative, textEq, List.nil_append]
      obtain ⟨first, rest, rfl⟩ := List.exists_cons_of_ne_nil nonempty
      have notMinus : digitAt first ≠ '-' := by
        intro minus
        have isDigit := (digitAt_spec first (small first (by simp))).1
        rw [minus] at isDigit
        exact isDigit (by decide)
      simp [notMinus, negative]

def ReadsExactly (platform : Platform) (sign : Option Bool) (digits : List Nat) : Prop :=
  clBignumFromString platform (decimalText sign digits) (decide (sign = some true)) =
    .ok (canon (signed (decide (sign = some true)) (decimal digits)))

def ReadsBack (platform : Platform) (a : ClInt) : Prop :=
  ∃ text, printInteger 10 false a = some text ∧
    clBignumFromString platform text (decide (text.head? = some '-')) = .ok a

theorem canon_signed_mod_iff (negative : Bool) (magnitude : Nat) :
    canon (signed negative (magnitude % accumulatorLimit)) = canon (signed negative magnitude) ↔
      magnitude < accumulatorLimit := by
  constructor
  · intro same
    have magnitudes := congrArg (fun object => object.toInt.natAbs) same
    simp only [toInt_canon, natAbs_signed] at magnitudes
    rw [← magnitudes]
    exact Nat.mod_lt _ (Nat.pow_pos (by omega))
  · intro small
    rw [Nat.mod_eq_of_lt small]

theorem readsExactly_iff (platform : Platform) (sign : Option Bool) (small : ∀ d ∈ digits, d < 10) :
    ReadsExactly platform sign digits ↔ decimal digits < accumulatorLimit := by
  rw [ReadsExactly, clBignumFromString_eq sign small, Except.ok.injEq, canon_signed_mod_iff]

theorem readsBack_iff {a : ClInt} (canonical : a.Canonical platform) :
    ReadsBack platform a ↔ a.toInt.natAbs < accumulatorLimit := by
  obtain ⟨sign, digits, small, valueEq, textEq, signEq⟩ := positional_ten a.toInt
  have printed : printInteger 10 false a = some (positional 10 a.toInt) := by
    rw [printInteger_eq canonical (by omega) (by omega)]
    simp [withRadix]
  have read : clBignumFromString platform (positional 10 a.toInt)
      (decide ((positional 10 a.toInt).head? = some '-')) =
        .ok (canon (signed (decide (a.toInt < 0)) (a.toInt.natAbs % accumulatorLimit))) := by
    simp only [signEq]
    rw [textEq, clBignumFromString_eq sign small, valueEq]
  have self : canon (signed (decide (a.toInt < 0)) a.toInt.natAbs) = a := by
    rw [signed_natAbs, ← canonical.eq_canon]
  rw [← canon_signed_mod_iff (decide (a.toInt < 0)), self]
  constructor
  · rintro ⟨text, printedText, readText⟩
    rw [printed, Option.some.injEq] at printedText
    rw [← printedText, read, Except.ok.injEq] at readText
    exact readText
  · intro same
    exact ⟨_, printed, by rw [read, same]⟩

theorem decimal_lt (small : ∀ d ∈ digits, d < 10) : decimal digits < 10 ^ digits.length := by
  have below := Nat.ofDigits_lt_base_pow_length (b := 10) (by omega)
    (fun d member => small d (List.mem_reverse.mp member))
  rw [List.length_reverse] at below
  exact below

/-- A reader token has at most 255 characters, so its digits are read exactly. -/
theorem readsExactly_token (platform : Platform) (sign : Option Bool) (small : ∀ d ∈ digits, d < 10)
    (token : (decimalText sign digits).length ≤ 255) :
    ReadsExactly platform sign digits := by
  rw [decimalText, List.length_append, List.length_map] at token
  rw [readsExactly_iff platform sign small]
  calc
    decimal digits < 10 ^ digits.length := decimal_lt small
    _ ≤ (2 ^ 16) ^ digits.length := Nat.pow_le_pow_left (by omega) _
    _ ≤ accumulatorLimit := Nat.pow_le_pow_right (by omega) (by omega)

/-- Integers are printed exactly in every base and within the digit buffer; a
decimal string is read exactly, and a printed integer read back, when the
magnitude fits the accumulator and in no other case. -/
theorem integer_text (platform : Platform) :
    (∀ (a : ClInt) (base : Nat), a.Canonical platform → 2 ≤ base → base ≤ 36 →
      printInteger base false a = some (positional base a.toInt)) ∧
    (∀ (sign : Bool) (limbs : List Limb) (base : Nat),
      (ClInt.bignum sign limbs).Canonical platform → 2 ≤ base → base ≤ 36 →
      clBignumPrintBase sign limbs base = some (positional base (ClInt.bignum sign limbs).toInt) ∧
        (Nat.digits base (value limbs)).length < digitsCap limbs) ∧
    (∀ (sign : Option Bool) (digits : List Nat), (∀ d ∈ digits, d < 10) →
      (ReadsExactly platform sign digits ↔ decimal digits < accumulatorLimit)) ∧
    (∀ a : ClInt, a.Canonical platform →
      (ReadsBack platform a ↔ a.toInt.natAbs < accumulatorLimit)) := by
  refine ⟨?_, ?_, ?_, ?_⟩
  · intro a base canonical large small
    rw [printInteger_eq canonical large small]
    simp [withRadix]
  · intro sign limbs base canonical large small
    have count := length_digits_le large limbs
    refine ⟨clBignumPrintBase_eq canonical large small, ?_⟩
    rw [digitsCap_eq canonical.2.1]
    omega
  · intro sign digits small
    exact readsExactly_iff platform sign small
  · intro a canonical
    exact readsBack_iff canonical

/-- -255 in base sixteen. -/
theorem integer_text_hexadecimal : printInteger 16 false (canon (-255)) =
      some (positional 16 (canon (-255)).toInt) :=
  (integer_text (.host true)).1 (canon (-255)) 16
    (canonical_canon (Fits.of_range (by decide))) (by omega) (by omega)

theorem radix_pow_le_ten_pow {limbs count : Nat} (many : 16 * limbs ≤ count) :
    (2 ^ 16) ^ limbs ≤ 10 ^ count := by
  rw [← pow_mul]
  exact (Nat.pow_le_pow_right (by omega) many).trans (Nat.pow_le_pow_left (by omega) _)

/-- A one followed by 4096 zeros is not read as the integer it denotes. -/
theorem not_readsExactly_long : ¬ ReadsExactly (.host true) none (1 :: List.replicate 4096 0) := by
  have small : ∀ d ∈ 1 :: List.replicate 4096 0, d < 10 := by
    intro d member
    rcases List.mem_cons.mp member with rfl | zero
    · omega
    · rw [List.eq_of_mem_replicate zero]
      omega
  rw [readsExactly_iff _ _ small, decimal_cons, List.length_replicate, Nat.not_lt, Nat.one_mul]
  exact (radix_pow_le_ten_pow (by omega)).trans (Nat.le_add_right _ _)

end ClAmiga.Number
