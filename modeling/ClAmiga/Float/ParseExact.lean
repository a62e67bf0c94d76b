import ClAmiga.Float.RoundTrip
import ClAmiga.Radix.RoundingRange

/-!
# Correct rounding of every token

Beyond 768 digits the parser keeps only whether a nonzero digit was dropped.
No breakpoint of the format lies between a number of 768 digits and the next
one, so that is enough to round the whole token correctly.  The range guards
cover the numbers that are rounded to zero and to infinity.
-/

namespace ClAmiga.Float

open Radix

theorem five_pow_le_two_pow : 5 ^ (59 * 5 + 12) ≤ 2 ^ (137 * 5 + 28) := by
  rw [pow_add, pow_mul, pow_add, pow_mul]
  exact Nat.mul_le_mul (Nat.pow_le_pow_left (by norm_num) 5) (by norm_num)

theorem breakpoint_digits {places : Nat} (few : places ≤ 1074) :
    10 * (2 ^ 54 * 5 ^ places) ≤ 10 ^ dtMaxSigDigits := by
  have tail := five_pow_le_two_pow
  have cap : dtMaxSigDigits = 55 + (137 * 5 + 28) := rfl
  have room : places + 1 ≤ 55 + (137 * 5 + 28) + (59 * 5 + 12) := by omega
  generalize 59 * 5 + 12 = five at tail room
  generalize 137 * 5 + 28 = two at tail cap room
  rw [cap]
  calc
    10 * (2 ^ 54 * 5 ^ places) = 2 ^ 55 * 5 ^ (places + 1) := by ring
    _ ≤ 2 ^ 55 * 5 ^ (55 + two + five) :=
      Nat.mul_le_mul_left _ (Nat.pow_le_pow_right (by decide) room)
    _ = 2 ^ 55 * 5 ^ (55 + two) * 5 ^ five := by rw [pow_add 5 (55 + two), Nat.mul_assoc]
    _ ≤ 2 ^ 55 * 5 ^ (55 + two) * 2 ^ two := Nat.mul_le_mul_left _ tail
    _ = 5 ^ (55 + two) * 2 ^ (55 + two) := by rw [pow_add 2]; ring
    _ = 10 ^ (55 + two) := (mul_pow 5 2 _).symm

theorem positive_of_long {d : Nat} (long : 10 ^ dtMaxSigDigits ≤ 10 * d) : 0 < d := by
  have power : 0 < 10 ^ dtMaxSigDigits := Nat.pow_pos (by decide)
  exact Nat.pos_of_mul_pos_left (power.trans_le long)

theorem no_breakpoint_between {t : DtTarget} (word : t.mantBits ≤ 53)
    (low : -1074 ≤ t.eminSub) {d count : Nat} (long : 10 ^ dtMaxSigDigits ≤ 10 * d) {z : ℚ}
    (breakpoint : t.format.Breakpoint z) (above : (d : ℚ) * 10 ^ (-(count : Int)) < z) :
    ((d + 1 : Nat) : ℚ) * 10 ^ (-(count : Int)) ≤ z := by
  obtain ⟨j, q, few, least, rfl⟩ := breakpoint
  have few : j ≤ 2 ^ 54 := few.trans (Nat.pow_le_pow_right (by omega) (by
    change t.mantBits + 1 ≤ 54
    omega))
  have least : -1075 ≤ q := by
    change t.eminSub - 1 ≤ q at least
    omega
  have tenPositive : (0 : ℚ) < 10 ^ count := by positivity
  have scaled : (j : ℚ) * 2 ^ q * 10 ^ count = (j * 5 ^ count : Nat) * 2 ^ (q + count) := by
    have ten : (10 : ℚ) = 5 * 2 := by norm_num
    rw [ten, mul_pow, zpow_add₀ (by norm_num), zpow_natCast]
    push_cast
    ring
  rw [zpow_neg, zpow_natCast, ← div_eq_mul_inv, div_lt_iff₀ tenPositive, scaled] at above
  rw [zpow_neg, zpow_natCast, ← div_eq_mul_inv, div_le_iff₀ tenPositive, scaled]
  by_cases integral : 0 ≤ q + count
  · -- the scaled breakpoint is an integer
    obtain ⟨places, placesEq⟩ := Int.eq_ofNat_of_zero_le integral
    rw [placesEq, zpow_natCast] at above ⊢
    have less : d < j * 5 ^ count * 2 ^ places := by exact_mod_cast above
    exact_mod_cast less
  · -- it is too small
    have fewer : count ≤ 1074 := by omega
    have shrinks : (2 : ℚ) ^ (q + count) ≤ 1 :=
      zpow_le_one_of_nonpos₀ (by norm_num) (by omega)
    have bounded : j * 5 ^ count ≤ d := by
      have digits := (breakpoint_digits fewer).trans long
      have scaledFew := Nat.mul_le_mul_right (5 ^ count) few
      omega
    have boundedCast : ((j * 5 ^ count : Nat) : ℚ) ≤ d := by exact_mod_cast bounded
    have product : ((j * 5 ^ count : Nat) : ℚ) * 2 ^ (q + count) ≤ (j * 5 ^ count : Nat) :=
      mul_le_of_le_one_right (Nat.cast_nonneg _) shrinks
    exact absurd above (not_lt.mpr (product.trans boundedCast))

theorem divideDigits_sticky (t : DtTarget) (d : DtBig) (k : Int) : divideDigits t d k true =
      (divideDigits t d k false).map fun parts => (parts.1, parts.2.1, true) := by
  unfold divideDigits
  simp only [Bool.true_or]
  split_ifs <;> rfl

theorem divideDigits_truncated {t : DtTarget} (sound : t.Sound) {d count : Nat}
    (positive : 0 < d) (dBits : Bits d 3100) (few : count ≤ 1093) {x : ℚ}
    (above : (d : ℚ) * 10 ^ (-(count : Int)) < x) :
    ∃ M exp2 y, divideDigits t (rep d) (-(count : Int)) true = some (M, exp2, true) ∧
      Leading t.mantBits M exp2 true y ∧ (d : ℚ) * 10 ^ (-(count : Int)) < y ∧ y ≤ x := by
  obtain ⟨M, exp2, sticky, result, leading, precise⟩ :=
    divideDigits_precise sound positive dBits few
  obtain ⟨theta, nonneg, less, -, mPositive, small, -, value⟩ := leading
  have unit : (0 : ℚ) < 2 ^ exp2 := by positivity
  -- a rest that is larger, but still below one and below the dropped digits
  obtain ⟨delta, deltaPositive, deltaLess, deltaBound⟩ : ∃ delta : ℚ, 0 < delta ∧
      theta + delta < 1 ∧ delta * 2 ^ exp2 ≤ x - d * 10 ^ (-(count : Int)) := by
    refine ⟨min ((1 - theta) / 2) ((x - d * 10 ^ (-(count : Int))) / 2 ^ exp2), ?_, ?_, ?_⟩
    · exact lt_min (by linarith) (div_pos (by linarith) unit)
    · have := min_le_left ((1 - theta) / 2) ((x - d * 10 ^ (-(count : Int))) / 2 ^ exp2)
      linarith
    · rw [← le_div_iff₀ unit]
      exact min_le_right _ _
  have grown : ((M : ℚ) + (theta + delta)) * 2 ^ exp2 =
      d * 10 ^ (-(count : Int)) + delta * 2 ^ exp2 := by
    rw [← value]
    ring
  have moved : 0 < delta * 2 ^ exp2 := mul_pos deltaPositive unit
  refine ⟨M, exp2, _, ?_, ⟨theta + delta, by linarith, deltaLess, ?_, mPositive, small,
    fun _ => precise, rfl⟩, ?_, ?_⟩
  · rw [divideDigits_sticky, result]
    rfl
  · have : theta + delta ≠ 0 := by linarith
    simp [this]
  · rw [grown]
    linarith
  · rw [grown]
    linarith

theorem magnitudeBits_truncated (precision : Precision) {d : Nat} {k : Int} {x : ℚ}
    (long : 10 ^ dtMaxSigDigits ≤ 10 * d) (digits : d < 10 ^ dtMaxSigDigits)
    (noOverflow : k + dtMaxSigDigits - 1 < (dtTarget precision).lOver)
    (noUnderflow : (dtTarget precision).lUnder < k + dtMaxSigDigits - 1)
    (above : (d : ℚ) * 10 ^ k < x) (below : x < ((d + 1 : Nat) : ℚ) * 10 ^ k) :
    ∃ bits, magnitudeBits (dtTarget precision) (rep d) k (k + dtMaxSigDigits - 1) true = some bits ∧
      (dtTarget precision).format.Encodes x bits := by
  have sound := dtTarget_sound precision
  have guards : (dtTarget precision).lOver ≤ 310 ∧ -327 ≤ (dtTarget precision).lUnder := by
    cases precision <;> decide
  have low : -1074 ≤ (dtTarget precision).eminSub := by cases precision <;> decide
  have cap : dtMaxSigDigits = 768 := rfl
  have positive := positive_of_long long
  have dBits : Bits d 3100 :=
    ((bits_ten_pow dtMaxSigDigits).of_le digits.le).mono (by decide)
  obtain ⟨count, rfl⟩ : ∃ count : Nat, k = -(count : Int) := ⟨(-k).toNat, by omega⟩
  obtain ⟨M, exp2, y, result, leading, yAbove, yBelow⟩ :=
    divideDigits_truncated sound positive dBits (show count ≤ 1093 by omega) above
  have clear : ∀ z, (dtTarget precision).format.Breakpoint z → y ≤ z → x < z := by
    intro z breakpoint reached
    exact below.trans_le (no_breakpoint_between sound.word low long breakpoint
      (yAbove.trans_le reached))
  have yNonneg : 0 ≤ y :=
    (mul_nonneg (Nat.cast_nonneg d) (zpow_nonneg (by norm_num) _)).trans yAbove.le
  have encodes := (leading.encodes sound).of_clear yNonneg yBelow clear
  refine ⟨_, ?_, encodes⟩
  unfold magnitudeBits
  rw [if_neg (by omega), if_neg (by omega), if_neg (by omega), result]
  rfl

theorem guards_outside (precision : Precision) : (10 : ℚ) ^ ((dtTarget precision).lUnder + 1) <
        2 ^ ((dtTarget precision).format.emin - 1) ∧
      ∃ steps : Nat, (2 : ℚ) ^ ((dtTarget precision).format.emin +
            (dtTarget precision).format.precision - 1 + steps) ≤
          10 ^ (dtTarget precision).lOver ∧
        (dtTarget precision).format.infinity ≤
          (steps + 1) * 2 ^ ((dtTarget precision).format.precision - 1) := by
  cases precision with
  | double =>
      refine ⟨?_, 2046, ?_, by decide⟩
      · refine (two_zpow_le_ten_zpow (i := 1076) (j := 326) (by decide +kernel)).2.trans_lt ?_
        exact zpow_lt_zpow_right₀ (by norm_num) (by decide)
      · refine le_trans ?_ (two_zpow_le_ten_zpow (i := 1024) (j := 310) (by decide +kernel)).1
        exact zpow_le_zpow_right₀ (by norm_num) (by decide)
  | single =>
      refine ⟨?_, 254, ?_, by decide⟩
      · refine (two_zpow_le_ten_zpow (i := 151) (j := 47) (by decide +kernel)).2.trans_lt ?_
        exact zpow_lt_zpow_right₀ (by norm_num) (by decide)
      · refine le_trans ?_ (two_zpow_le_ten_zpow (i := 128) (j := 40) (by decide +kernel)).1
        exact zpow_le_zpow_right₀ (by norm_num) (by decide)

/-- The kept digits `d` with their last place `10 ^ k` stand for `x`. -/
structure Kept (x : ℚ) (k : Int) (d : Nat) (st : Scan) : Prop where
  kept : st.d = rep d
  positive : 0 < d
  upper : d < 10 ^ st.ndig
  lower : 10 ^ st.ndig ≤ 10 * d
  few : st.ndig ≤ dtMaxSigDigits
  low : (d : ℚ) * 10 ^ k ≤ x
  high : x < ((d + 1 : Nat) : ℚ) * 10 ^ k
  sticky : st.sticky = true ↔ (d : ℚ) * 10 ^ k ≠ x
  full : st.sticky = true → st.ndig = dtMaxSigDigits

namespace Kept

variable {x : ℚ} {k : Int} {d : Nat} {st : Scan}

theorem leading_place (kept : Kept x k d st) :
    10 ^ (k + st.ndig - 1) ≤ x ∧ x < 10 ^ (k + st.ndig) := by
  have unit : (0 : ℚ) < 10 ^ k := by positivity
  constructor
  · refine le_trans ?_ kept.low
    have digits : ((10 ^ st.ndig : Nat) : ℚ) ≤ (10 * d : Nat) := by
      exact_mod_cast kept.lower
    push_cast at digits
    rw [zpow_sub_one₀ (by norm_num), zpow_add₀ (by norm_num), zpow_natCast]
    calc
      (10 : ℚ) ^ k * 10 ^ st.ndig * 10⁻¹ ≤ 10 ^ k * (10 * d) * 10⁻¹ := by
        exact mul_le_mul_of_nonneg_right (mul_le_mul_of_nonneg_left digits unit.le) (by norm_num)
      _ = d * 10 ^ k := by ring
  · refine kept.high.trans_le ?_
    have digits : ((d + 1 : Nat) : ℚ) ≤ (10 ^ st.ndig : Nat) := by
      exact_mod_cast kept.upper
    rw [zpow_add₀ (by norm_num), zpow_natCast, mul_comm]
    push_cast at digits ⊢
    exact mul_le_mul_of_nonneg_left digits unit.le

/-- Whatever its digits and its size, the number is rounded correctly. -/
theorem encodes (kept : Kept x k d st) (precision : Precision) :
    ∃ bits, magnitudeBits (dtTarget precision) st.d k (k + st.ndig - 1) st.sticky = some bits ∧
      (dtTarget precision).format.Encodes x bits := by
  have precise : 1 ≤ (dtTarget precision).format.precision := by
    have := (dtTarget_sound precision).precise
    change 1 ≤ (dtTarget precision).mantBits
    omega
  obtain ⟨atLeast, below⟩ := kept.leading_place
  obtain ⟨underflow, steps, overflow, infinite⟩ := guards_outside precision
  by_cases overflows : k + st.ndig - 1 ≥ (dtTarget precision).lOver
  · refine ⟨_, by rw [magnitudeBits, if_pos overflows], ?_⟩
    refine Format.encodes_infinity (overflow.trans (le_trans ?_ atLeast)) infinite precise
    exact zpow_le_zpow_right₀ (by norm_num) overflows
  by_cases underflows : k + st.ndig - 1 ≤ (dtTarget precision).lUnder
  · refine ⟨_, by rw [magnitudeBits, if_neg overflows, if_pos underflows], ?_⟩
    have nonneg : 0 ≤ x := le_trans (zpow_nonneg (by norm_num) _) atLeast
    apply Format.encodes_zero precise nonneg
    refine (below.trans_le ?_).trans underflow
    exact zpow_le_zpow_right₀ (by norm_num) (by omega)
  rw [kept.kept]
  by_cases sticky : st.sticky = true
  · have full := kept.full sticky
    have upper := kept.upper
    have lower := kept.lower
    rw [full] at overflows underflows upper lower
    rw [sticky, full]
    exact magnitudeBits_truncated precision lower upper (not_le.mp overflows)
      (not_le.mp underflows) (lt_of_le_of_ne kept.low (kept.sticky.mp sticky)) kept.high
  · have exactly : (d : ℚ) * 10 ^ k = x := by
      by_contra different
      exact sticky (kept.sticky.mpr different)
    rw [Bool.not_eq_true] at sticky
    rw [sticky, ← exactly]
    exact magnitudeBits_encodes precision kept.positive kept.upper kept.few
      (not_le.mp overflows) (not_le.mp underflows)

end Kept

/-- The state once all 768 digits are kept: the number `d * 10 ^ m + r` has been
read, its last digit at `10 ^ k`, and the `m` digits of `r` have been dropped. -/
structure Capped (d m r : Nat) (k : Int) (st : Scan) : Prop where
  kept : st.d = rep d
  k : st.k = k + m
  ndig : st.ndig = dtMaxSigDigits
  sticky : st.sticky = decide (r ≠ 0)
  started : st.started = true
  upper : d < 10 ^ dtMaxSigDigits
  lower : 10 ^ dtMaxSigDigits ≤ 10 * d
  dropped : r < 10 ^ m

/-- The digits read so far denote `v`, the last of them at `10 ^ k`. -/
def Scanned (v : Nat) (k : Int) (st : Scan) : Prop :=
  (ScanOf v k st ∧ st.ndig < dtMaxSigDigits) ∨
    ∃ d m r, Capped d m r k st ∧ v = d * 10 ^ m + r

variable {st : Scan} {token : FloatToken}

theorem scanned_of_scanOf {v : Nat} {k : Int} (scan : ScanOf v k st)
    (few : st.ndig ≤ dtMaxSigDigits) : Scanned v k st := by
  rcases lt_or_eq_of_le few with room | full
  · exact Or.inl ⟨scan, room⟩
  · obtain ⟨kept, exponent, sticky, started, upper, lower⟩ := scan
    rw [full] at upper lower
    have lower := lower.resolve_left fun zero => absurd zero.2 (by decide)
    have nonzero : v ≠ 0 := (positive_of_long lower).ne'
    refine Or.inr ⟨v, 0, 0, ⟨kept, ?_, full, ?_, ?_, upper, lower, Nat.one_pos⟩, ?_⟩
    · rw [exponent, Nat.cast_zero, Int.add_zero]
    · rw [sticky]
      rfl
    · rw [started, decide_eq_true nonzero]
    · rw [pow_zero, Nat.mul_one, Nat.add_zero]

theorem dropped_digit {d m r c : Nat} (dropped : r < 10 ^ m) (small : c ≤ 9) :
    10 * r + c < 10 ^ (m + 1) ∧ 10 * (d * 10 ^ m + r) + c = d * 10 ^ (m + 1) + (10 * r + c) := by
  have radixStep : 10 ^ (m + 1) = 10 * 10 ^ m := Nat.pow_succ'
  constructor
  · omega
  · rw [radixStep]
    ring

theorem sticky_digit {r c : Nat} (small : c ≤ 9) :
    (decide (r ≠ 0) || decide (digitChar c ≠ '0')) = decide (10 * r + c ≠ 0) := by
  rw [Bool.eq_iff_iff]
  simp only [Bool.or_eq_true, decide_eq_true_eq, ne_eq, (digitChar_spec small).2.2]
  omega

/-- A digit dropped from a full state moves the sticky flag and the last place only. -/
def Scan.drop (st : Scan) (c : Char) (k : Int) : Scan :=
  { st with anyDigit := true, started := true, k := k,
            sticky := st.sticky || decide (c ≠ '0') }

theorem Capped.drop {d m r c : Nat} {k place : Int} (capped : Capped d m r k st) (small : c ≤ 9) :
    Scanned (10 * (d * 10 ^ m + r) + c) place (st.drop (digitChar c) (place + (m + 1 : Nat))) := by
  obtain ⟨kept, exponent, ndig, sticky, started, upper, lower, dropped⟩ := capped
  obtain ⟨dropped', valueEq⟩ := @dropped_digit d m r c dropped small
  refine Or.inr ⟨d, m + 1, 10 * r + c, ⟨kept, rfl, ndig, ?_, rfl, upper, lower, dropped'⟩, valueEq⟩
  rw [← sticky_digit small, ← sticky]
  rfl

theorem intDigit_full (started : st.started = true) (full : st.ndig = dtMaxSigDigits) (c : Char) :
    intDigit st c = st.drop c (st.k + 1) := by
  simp [intDigit, Scan.drop, started, full]

theorem fracDigit_full (started : st.started = true) (full : st.ndig = dtMaxSigDigits) (c : Char) :
    fracDigit st c = st.drop c st.k := by
  simp [fracDigit, Scan.drop, started, full]

theorem intDigit_scanned {v c : Nat} {k : Int} (scan : Scanned v k st) (small : c ≤ 9) :
    Scanned (10 * v + c) k (intDigit st (digitChar c)) ∧
      (intDigit st (digitChar c)).anyDigit = true := by
  rcases scan with ⟨scan, room⟩ | ⟨d, m, r, capped, rfl⟩
  · obtain ⟨next, count, any⟩ := intDigit_scan scan small room
    exact ⟨scanned_of_scanOf next (by omega), any⟩
  · have place : st.k + 1 = k + (m + 1 : Nat) := by
      rw [capped.k]
      push_cast
      ring
    rw [intDigit_full capped.started capped.ndig, place]
    exact ⟨capped.drop small, rfl⟩

theorem fracDigit_scanned {v c : Nat} {k : Int} (scan : Scanned v k st) (small : c ≤ 9) :
    Scanned (10 * v + c) (k - 1) (fracDigit st (digitChar c)) ∧
      (fracDigit st (digitChar c)).anyDigit = true := by
  rcases scan with ⟨scan, room⟩ | ⟨d, m, r, capped, rfl⟩
  · obtain ⟨next, count, any⟩ := fracDigit_scan scan small room
    exact ⟨scanned_of_scanOf next (by omega), any⟩
  · have place : st.k = k - 1 + (m + 1 : Nat) := by
      rw [capped.k]
      push_cast
      ring
    rw [fracDigit_full capped.started capped.ndig, place]
    exact ⟨capped.drop small, rfl⟩

theorem digitLoop_scanned {body : Scan → Char → Scan} (step : Int)
    (bodySpec : ∀ {v c : Nat} {k : Int} {st : Scan}, Scanned v k st → c ≤ 9 →
      Scanned (10 * v + c) (k - step) (body st (digitChar c)) ∧
        (body st (digitChar c)).anyDigit = true)
    {rest : List Char} (noDigit : NoDigit rest) (digits : List Nat)
    (small : ∀ d ∈ digits, d ≤ 9) {v : Nat} {k : Int} {st : Scan}
    (scan : Scanned v k st) :
    ∃ st', digitLoop body st (digits.map digitChar ++ rest) = (st', rest) ∧
      Scanned (v * 10 ^ digits.length + decimalValue digits) (k - step * digits.length) st' ∧
      (digits = [] → st' = st) ∧ (digits ≠ [] → st'.anyDigit = true) := by
  induction digits generalizing v k st with
  | nil =>
      refine ⟨st, digitLoop_stop noDigit, ?_, fun _ => rfl, by simp⟩
      simpa [decimalValue] using scan
  | cons c cs induction =>
      have cSmall := small c List.mem_cons_self
      obtain ⟨next, nextAny⟩ := bodySpec scan cSmall
      obtain ⟨st', result, scan', same, any⟩ :=
        induction (fun digit member => small digit (List.mem_cons_of_mem _ member)) next
      refine ⟨st', ?_, ?_, by simp, fun _ => ?_⟩
      · rw [List.map_cons, List.cons_append, digitLoop, (digitChar_spec cSmall).1, if_pos rfl]
        exact result
      · have exponent : k - step * ((c :: cs).length : Nat) =
            k - step - step * (cs.length : Nat) := by
          rw [List.length_cons]
          push_cast
          ring
        rw [decimalValue_cons, exponent]
        exact scan'
      · by_cases last : cs = []
        · rw [same last]
          exact nextAny
        · exact any last

def optionalSign : Option Bool → List Char
  | none => []
  | some negative => if negative then ['-'] else ['+']

structure ExponentPart where
  capital : Bool
  sign : Option Bool
  digits : List Nat

namespace ExponentPart

def text (part : ExponentPart) : List Char :=
  (if part.capital then 'E' else 'e') ::
    (optionalSign part.sign ++ part.digits.map digitChar)

def signed (part : ExponentPart) (magnitude : Nat) : Int :=
  if part.sign = some true then -(magnitude : Int) else magnitude

end ExponentPart

/-- A decimal float token: `[+-] digits [. digits] [E [+-] digits]`. -/
structure FloatToken where
  sign : Option Bool
  whole : List Nat
  fraction : Option (List Nat)
  exponent : Option ExponentPart

namespace FloatToken

def exponentText (token : FloatToken) : List Char :=
  match token.exponent with
  | none => []
  | some part => part.text

def body (token : FloatToken) : List Char :=
  token.whole.map digitChar ++ (fractionText token.fraction ++ token.exponentText)

def text (token : FloatToken) : List Char :=
  optionalSign token.sign ++ token.body

def negative (token : FloatToken) : Bool :=
  decide (token.sign = some true)

def digits (token : FloatToken) : List Nat :=
  token.whole ++ token.fraction.getD []

def scaled (token : FloatToken) (exponent : Int) : ℚ :=
  decimalValue token.digits * 10 ^ (exponent - (token.fraction.getD []).length)

def exponentValue (token : FloatToken) : Int :=
  match token.exponent with
  | none => 0
  | some part => part.signed (decimalValue part.digits)

def value (token : FloatToken) : ℚ :=
  token.scaled token.exponentValue

/-- A digit before or after the point, and digits after an exponent marker. -/
structure Valid (token : FloatToken) : Prop where
  nonempty : token.digits ≠ []
  small : ∀ d ∈ token.digits, d ≤ 9
  exponent : ∀ part, token.exponent = some part →
    part.digits ≠ [] ∧ ∀ d ∈ part.digits, d ≤ 9

def saturated (digits : List Nat) : Nat :=
  digits.foldl (fun v d => if v < 100000 then v * 10 + d else v) 0

def keptExponent (token : FloatToken) : Int :=
  match token.exponent with
  | none => 0
  | some part => part.signed (saturated part.digits)

end FloatToken

theorem exponentLoop_saturates (digits : List Nat) (small : ∀ d ∈ digits, d ≤ 9) (v : Nat)
    (seen : Bool) :
    exponentLoop v seen (digits.map digitChar) =
      (digits.foldl (fun v d => if v < 100000 then v * 10 + d else v) v,
        seen || decide (digits ≠ []), []) := by
  induction digits generalizing v seen with
  | nil => simp [exponentLoop]
  | cons d ds induction =>
      have dSmall := small d List.mem_cons_self
      rw [List.map_cons, exponentLoop, (digitChar_spec dSmall).1, if_pos rfl,
        (digitChar_spec dSmall).2.1,
        induction fun digit member => small digit (List.mem_cons_of_mem _ member)]
      simp

def NoSign (text : List Char) : Prop :=
  ∀ c ∈ text.head?, ¬ (c = '+' ∨ c = '-')

theorem takeSign_optional (sign : Option Bool) {rest : List Char} (noSign : NoSign rest) :
    takeSign (optionalSign sign ++ rest) = (decide (sign = some true), rest) := by
  rcases sign with _ | negative
  · cases rest with
    | nil => rfl
    | cons c cs =>
        have unsigned := noSign c rfl
        simp [optionalSign, takeSign, unsigned]
  · cases negative <;> rfl

theorem noSign_digits {digits : List Nat} (nonempty : digits ≠ [])
    (small : ∀ d ∈ digits, d ≤ 9) (rest : List Char) :
    NoSign (digits.map digitChar ++ rest) := by
  obtain ⟨d, ds, rfl⟩ := List.exists_cons_of_ne_nil nonempty
  have dSmall := small d List.mem_cons_self
  intro c member
  rw [List.map_cons, List.cons_append, List.head?_cons, Option.mem_some_iff] at member
  subst member
  interval_cases d <;> decide

namespace FloatToken

variable {token : FloatToken}

theorem parseExponent_exponentText (valid : token.Valid) :
    parseExponent token.exponentText = some (token.keptExponent, []) := by
  obtain ⟨sign, whole, fraction, exponent⟩ := token
  cases exponent with
  | none => rfl
  | some part =>
      obtain ⟨nonempty, small⟩ := valid.exponent part rfl
      have signed := takeSign_optional part.sign (noSign_digits nonempty small [])
      rw [List.append_nil] at signed
      have loop := exponentLoop_saturates part.digits small 0 false
      have marker : (if part.capital then 'E' else 'e') = 'E' ∨
          (if part.capital then 'E' else 'e') = 'e' := by
        cases part.capital <;> simp
      change parseExponent part.text = some (part.signed (saturated part.digits), [])
      rw [ExponentPart.text, parseExponent, if_pos marker, signed]
      dsimp only
      rw [loop]
      simp only [nonempty, Bool.false_or, ne_eq, not_false_eq_true, decide_true,
        Bool.not_true, Bool.false_eq_true, if_false, decide_eq_true_eq]
      rfl

theorem noDigit_exponentText (token : FloatToken) : NoDigit token.exponentText := by
  obtain ⟨sign, whole, fraction, exponent⟩ := token
  cases exponent with
  | none =>
      intro c member
      cases member
  | some part =>
      intro c member
      cases member
      cases part.capital <;> rfl

theorem noDigit_afterWhole (token : FloatToken) :
    NoDigit (fractionText token.fraction ++ token.exponentText) := by
  cases fraction : token.fraction with
  | none => exact noDigit_exponentText token
  | some digits =>
      intro c member
      cases member
      rfl

theorem noSign_body (valid : token.Valid) : NoSign token.body := by
  by_cases empty : token.whole = []
  · have nonempty := valid.nonempty
    unfold body
    rw [digits, empty, List.nil_append] at nonempty
    rw [empty, List.map_nil, List.nil_append]
    cases fraction : token.fraction with
    | none =>
        rw [fraction] at nonempty
        exact absurd rfl nonempty
    | some digits =>
        intro c member
        cases member
        decide
  · exact noSign_digits empty
      (fun d member => valid.small d (List.mem_append_left _ member)) _

theorem scanFraction_none :
    scanFraction st (fractionText none ++ token.exponentText) = (st, token.exponentText) := by
  obtain ⟨sign, whole, fraction, exponent⟩ := token
  cases exponent with
  | none => rfl
  | some part =>
      cases capital : part.capital <;>
        simp [fractionText, exponentText, ExponentPart.text, capital, scanFraction]

theorem scanToken_body (valid : token.Valid) :
    ∃ st, scanToken token.body = some (st, token.keptExponent) ∧
      Scanned (decimalValue token.digits) (-((token.fraction.getD []).length : Int)) st := by
  have exponentEnd := parseExponent_exponentText valid
  have nonempty := valid.nonempty
  have start : Scanned 0 0 Scan.start := Or.inl ⟨scanOf_start, by decide⟩
  obtain ⟨st, wholeResult, wholeScan, wholeSame, wholeAny⟩ :=
    digitLoop_scanned 0
      (fun scan small => by
        rw [sub_zero]
        exact intDigit_scanned scan small)
      (noDigit_afterWhole token) token.whole
      (fun d member => valid.small d (List.mem_append_left _ member)) start
  rw [Nat.zero_mul, Nat.zero_add, Int.zero_mul, sub_zero] at wholeScan
  unfold scanToken body
  dsimp only
  rw [wholeResult]
  dsimp only
  cases fraction : token.fraction with
  | none =>
      rw [digits, fraction, Option.getD_none, List.append_nil] at nonempty ⊢
      rw [scanFraction_none]
      dsimp only
      rw [wholeAny nonempty, exponentEnd]
      exact ⟨st, rfl, wholeScan⟩
  | some ds =>
      rw [digits, fraction, Option.getD_some] at nonempty ⊢
      have small : ∀ d ∈ ds, d ≤ 9 := fun d member => valid.small d (by
        rw [digits, fraction, Option.getD_some]
        exact List.mem_append_right _ member)
      obtain ⟨st', result, scan, same, any⟩ :=
        digitLoop_scanned 1 fracDigit_scanned (noDigit_exponentText token) ds small wholeScan
      have anyDigit : st'.anyDigit = true := by
        by_cases empty : ds = []
        · rw [empty, List.append_nil] at nonempty
          rw [same empty]
          exact wholeAny nonempty
        · exact any empty
      simp only [fractionText, List.cons_append, scanFraction]
      rw [result]
      dsimp only
      rw [anyDigit, exponentEnd]
      refine ⟨st', rfl, ?_⟩
      rw [decimalValue_append]
      rw [Int.one_mul, zero_sub] at scan
      exact scan

end FloatToken

theorem kept_of_scanned {v : Nat} {k : Int} (scan : Scanned v k st)
    (nonzero : v ≠ 0) (e : Int) : ∃ d, Kept (v * 10 ^ (k + e)) (st.k + e) d st := by
  have unit : (0 : ℚ) < 10 ^ (k + e) := by positivity
  rcases scan with ⟨scan, room⟩ | ⟨d, m, r, capped, valueEq⟩
  · refine ⟨v, scan.d, Nat.pos_of_ne_zero nonzero, scan.upper, ?_, room.le, ?_, ?_, ?_, ?_⟩
    · exact scan.lower.resolve_left fun zero => nonzero zero.1
    · rw [scan.k]
    · rw [scan.k]
      exact mul_lt_mul_of_pos_right (by exact_mod_cast Nat.lt_succ_self v) unit
    · simp [scan.k, scan.sticky]
    · simp [scan.sticky]
  · have place : (10 : ℚ) ^ (st.k + e) = 10 ^ m * 10 ^ (k + e) := by
      rw [capped.k, ← zpow_natCast, ← zpow_add₀ (by norm_num)]
      congr 1
      ring
    have whole : (v : ℚ) = d * 10 ^ m + r := by exact_mod_cast valueEq
    have dropped : (r : ℚ) < 10 ^ m := by exact_mod_cast capped.dropped
    have split : (v : ℚ) * 10 ^ (k + e) = d * 10 ^ (st.k + e) + r * 10 ^ (k + e) := by
      rw [place, whole]
      ring
    refine ⟨d, capped.kept, positive_of_long capped.lower, ?_, ?_, capped.ndig.le, ?_, ?_, ?_,
      fun _ => capped.ndig⟩
    · rw [capped.ndig]
      exact capped.upper
    · rw [capped.ndig]
      exact capped.lower
    · rw [split]
      exact le_add_of_nonneg_right (by positivity)
    · rw [split, Nat.cast_add, Nat.cast_one, add_mul, one_mul]
      refine (add_lt_add_iff_left _).mpr ?_
      rw [place]
      exact mul_lt_mul_of_pos_right dropped unit
    · rw [capped.sticky, decide_eq_true_iff, split]
      have tail : (r : ℚ) * 10 ^ (k + e) = 0 ↔ r = 0 := by
        rw [mul_eq_zero, or_iff_left unit.ne', Nat.cast_eq_zero]
      exact not_congr (left_eq_add.trans tail).symm

theorem Scanned.zero_iff {v : Nat} {k : Int} (scan : Scanned v k st) :
    ∃ d, st.d = rep d ∧ (d = 0 ↔ v = 0) := by
  rcases scan with ⟨scan, room⟩ | ⟨d, m, r, capped, rfl⟩
  · exact ⟨v, scan.d, Iff.rfl⟩
  · have positive := positive_of_long capped.lower
    refine ⟨d, capped.kept, ?_⟩
    have : 0 < d * 10 ^ m := Nat.mul_pos positive (Nat.pow_pos (by decide))
    omega

/-- Every valid token is rounded correctly with the exponent the parser keeps. -/
theorem clParseFloatExact_kept (precision : Precision) (valid : token.Valid) :
    ∃ mag, clParseFloatExact precision token.text =
        some (signBits precision token.negative ||| mag) ∧
      (dtTarget precision).format.Encodes (token.scaled token.keptExponent) mag := by
  obtain ⟨st, scanned, scan⟩ := FloatToken.scanToken_body valid
  obtain ⟨d, kept, zeroIff⟩ := scan.zero_iff
  have sign : takeSign token.text = (token.negative, token.body) :=
    takeSign_optional token.sign (FloatToken.noSign_body valid)
  have precise : 1 ≤ (dtTarget precision).format.precision := by
    cases precision <;> decide
  unfold clParseFloatExact
  rw [sign]
  dsimp only
  rw [scanned]
  by_cases zero : decimalValue token.digits = 0
  · have nothing : d = 0 := zeroIff.mpr zero
    refine ⟨0, ?_, ?_⟩
    · simp [kept, dtIsZero_rep, nothing]
    · rw [FloatToken.scaled, zero, Nat.cast_zero, zero_mul]
      exact Format.encodes_zero precise le_rfl (by positivity)
  · have something : d ≠ 0 := fun nothing => zero (zeroIff.mp nothing)
    obtain ⟨d', keeps⟩ := kept_of_scanned scan zero token.keptExponent
    obtain ⟨mag, result, encodes⟩ := keeps.encodes precision
    have exponent : -((token.fraction.getD []).length : Int) + token.keptExponent =
        token.keptExponent - (token.fraction.getD []).length := by ring
    rw [exponent] at encodes
    refine ⟨mag, ?_, encodes⟩
    rw [kept] at result
    simp only [Option.bind_eq_bind, Option.bind_some, kept, dtIsZero_rep, something,
      decide_false, Bool.false_eq_true, if_false, rep_n_nonneg, result]
    rfl

/-- The exponent's accumulator is exact below a million, and at least 100000 from there
on. -/
theorem saturate_spec (digits : List Nat) (v : Nat) :
    (v * 10 ^ digits.length + decimalValue digits < 10 ^ 6 →
      digits.foldl (fun v d => if v < 100000 then v * 10 + d else v) v =
        v * 10 ^ digits.length + decimalValue digits) ∧
    (10 ^ 6 ≤ v * 10 ^ digits.length + decimalValue digits →
      100000 ≤ digits.foldl (fun v d => if v < 100000 then v * 10 + d else v) v) := by
  induction digits generalizing v with
  | nil =>
      simp only [decimalValue, List.foldl_nil, List.length_nil, pow_zero]
      constructor <;> intro bound <;> omega
  | cons d ds induction =>
      rw [List.foldl_cons, decimalValue_cons]
      by_cases growing : v < 100000
      · rw [if_pos growing, Nat.mul_comm v]
        exact induction (10 * v + d)
      · have large : 10 ^ 6 ≤ (10 * v + d) * 10 ^ ds.length + decimalValue ds := by
          have scaled : 10 * v + d ≤ (10 * v + d) * 10 ^ ds.length :=
            Nat.le_mul_of_pos_right _ (Nat.pow_pos (by omega))
          omega
        rw [if_neg growing]
        refine ⟨fun small => absurd large (Nat.not_le.mpr small), fun _ => ?_⟩
        obtain ⟨exactly, saturated⟩ := induction v
        by_cases below : v * 10 ^ ds.length + decimalValue ds < 10 ^ 6
        · have scaled : v ≤ v * 10 ^ ds.length :=
            Nat.le_mul_of_pos_right _ (Nat.pow_pos (by omega))
          rw [exactly below]
          omega
        · exact saturated (Nat.not_lt.mp below)

namespace FloatToken

def exponentMagnitude (token : FloatToken) : Nat :=
  match token.exponent with
  | none => 0
  | some part => decimalValue part.digits

theorem keptExponent_exact (few : token.exponentMagnitude < 10 ^ 6) :
    token.keptExponent = token.exponentValue := by
  obtain ⟨sign, whole, fraction, exponent⟩ := token
  cases exponent with
  | none => rfl
  | some part =>
      have kept := (saturate_spec part.digits 0).1
      rw [Nat.zero_mul, Nat.zero_add] at kept
      exact congrArg part.signed (kept few)

/-- An exponent that is not kept exactly, and the kept one, are far on the same
side. -/
theorem saturated_sides (many : 10 ^ 6 ≤ token.exponentMagnitude) :
    (token.keptExponent ≤ -100000 ∧ token.exponentValue ≤ -100000) ∨
      (100000 ≤ token.keptExponent ∧ 100000 ≤ token.exponentValue) := by
  obtain ⟨sign, whole, fraction, exponent⟩ := token
  cases exponent with
  | none =>
      change 10 ^ 6 ≤ 0 at many
      omega
  | some part =>
      have kept := (saturate_spec part.digits 0).2
      rw [Nat.zero_mul, Nat.zero_add] at kept
      have large : 100000 ≤ saturated part.digits := kept many
      have larger : 10 ^ 6 ≤ decimalValue part.digits := many
      simp only [keptExponent, exponentValue, ExponentPart.signed]
      split <;> omega

/-- The exponent is kept exactly, or the token is so short that its size decides;
the place counters stay inside their 32 bits. -/
def InRange (token : FloatToken) : Prop :=
  (token.exponentMagnitude < 10 ^ 6 ∧ token.digits.length + 10 ^ 6 < 2 ^ 31) ∨
    token.digits.length ≤ 99674

variable {token : FloatToken}

theorem scaled_far_below (valid : token.Valid) (short : token.digits.length ≤ 99674)
    {e : Int} (low : e ≤ -100000) (precision : Precision) :
    (dtTarget precision).format.Encodes (token.scaled e) 0 := by
  have precise : 1 ≤ (dtTarget precision).format.precision := by
    cases precision <;> decide
  have guard : -326 ≤ (dtTarget precision).lUnder + 1 := by cases precision <;> decide
  have unit : (0 : ℚ) < 10 ^ (e - ((token.fraction.getD []).length : Int)) := by positivity
  have digitsSmall : (decimalValue token.digits : ℚ) < 10 ^ token.digits.length := by
    exact_mod_cast decimalValue_lt valid.small
  have tiny : token.scaled e < 10 ^ ((dtTarget precision).lUnder + 1) := by
    calc
      token.scaled e < 10 ^ token.digits.length *
          10 ^ (e - ((token.fraction.getD []).length : Int)) :=
        mul_lt_mul_of_pos_right digitsSmall unit
      _ = 10 ^ ((token.digits.length : Int) + (e - ((token.fraction.getD []).length : Int))) := by
        rw [zpow_add₀ (by norm_num), zpow_natCast]
      _ ≤ 10 ^ ((dtTarget precision).lUnder + 1) :=
        zpow_le_zpow_right₀ (by norm_num) (by omega)
  exact Format.encodes_zero precise (mul_nonneg (Nat.cast_nonneg _) unit.le)
    (tiny.trans (guards_outside precision).1)

theorem scaled_far_above (short : token.digits.length ≤ 99674)
    (nonzero : decimalValue token.digits ≠ 0) {e : Int} (high : 100000 ≤ e)
    (precision : Precision) :
    (dtTarget precision).format.Encodes (token.scaled e) (dtTarget precision).format.infinity := by
  have precise : 1 ≤ (dtTarget precision).format.precision := by
    cases precision <;> decide
  have guard : (dtTarget precision).lOver ≤ 326 := by cases precision <;> decide
  have places : (token.fraction.getD []).length ≤ token.digits.length := by
    rw [digits, List.length_append]
    exact Nat.le_add_left _ _
  have one : (1 : ℚ) ≤ decimalValue token.digits := by
    exact_mod_cast Nat.one_le_iff_ne_zero.mpr nonzero
  obtain ⟨-, steps, overflow, infinite⟩ := guards_outside precision
  refine Format.encodes_infinity (overflow.trans ?_) infinite precise
  calc
    (10 : ℚ) ^ (dtTarget precision).lOver ≤ 10 ^ (e - ((token.fraction.getD []).length : Int)) :=
      zpow_le_zpow_right₀ (by norm_num) (by omega)
    _ ≤ token.scaled e := le_mul_of_one_le_left (by positivity) one

end FloatToken

/-- In range every valid token is rounded to the nearest number of the format,
ties to even, and no big integer of the parser overflows. -/
theorem clParseFloatExact_nearest (precision : Precision) (token : FloatToken)
    (valid : token.Valid) (inRange : token.InRange) :
    ∃ mag, clParseFloatExact precision token.text =
        some (signBits precision token.negative ||| mag) ∧
      (dtTarget precision).format.Encodes token.value mag := by
  obtain ⟨mag, result, encodes⟩ := clParseFloatExact_kept precision valid
  refine ⟨mag, result, ?_⟩
  by_cases few : token.exponentMagnitude < 10 ^ 6
  · rw [FloatToken.value, ← FloatToken.keptExponent_exact few]
    exact encodes
  have short : token.digits.length ≤ 99674 := inRange.resolve_left fun both => few both.1
  rw [FloatToken.value]
  by_cases zero : decimalValue token.digits = 0
  · rw [FloatToken.scaled, zero, Nat.cast_zero, zero_mul] at encodes ⊢
    exact encodes
  rcases FloatToken.saturated_sides (Nat.not_lt.mp few) with ⟨keptLow, low⟩ | ⟨keptHigh, high⟩
  · rw [encodes.unique (FloatToken.scaled_far_below valid short keptLow precision)]
    exact FloatToken.scaled_far_below valid short low precision
  · rw [encodes.unique (FloatToken.scaled_far_above short zero keptHigh precision)]
    exact FloatToken.scaled_far_above short zero high precision

/-- The tokens of the reader, at most 255 characters long, are in range. -/
theorem FloatToken.inRange_of_short (short : token.text.length ≤ 255) : token.InRange := by
  right
  have digits : token.digits.length ≤ token.text.length := by
    cases fraction : token.fraction <;>
      simp only [FloatToken.digits, FloatToken.text, FloatToken.body, fractionText, fraction,
        Option.getD_none, Option.getD_some, List.length_append, List.length_map,
        List.length_nil, List.length_cons] <;>
      omega
  omega

/-- A token without integer digits, with an exponent. -/
theorem clParseFloatExact_nearest_point : ∃ mag, clParseFloatExact .double
        (FloatToken.mk (some true) [] (some [5]) (some ⟨true, none, [3]⟩)).text =
          some (signBits .double
            (FloatToken.mk (some true) [] (some [5]) (some ⟨true, none, [3]⟩)).negative ||| mag) ∧
      (dtTarget .double).format.Encodes
        (FloatToken.mk (some true) [] (some [5]) (some ⟨true, none, [3]⟩)).value mag := by
  apply clParseFloatExact_nearest
  · constructor
    · simp [FloatToken.digits]
    · simp [FloatToken.digits]
    · rintro part ⟨⟩
      simp
  · exact Or.inr (by decide)

/-- `0.00…01e1000000` with so many zeros after the point. -/
def longToken (zeros : Nat) : FloatToken where
  sign := none
  whole := [0]
  fraction := some (List.replicate zeros 0 ++ [1])
  exponent := some ⟨false, none, [1, 0, 0, 0, 0, 0, 0]⟩

theorem longToken_valid (zeros : Nat) : (longToken zeros).Valid where
  nonempty := by simp [FloatToken.digits, longToken]
  small := by
    intro d member
    simp only [FloatToken.digits, longToken, Option.getD_some, List.mem_append,
      List.mem_singleton, List.mem_replicate] at member
    omega
  exponent := by
    rintro part ⟨⟩
    simp

theorem longToken_scaled (zeros : Nat) (e : Int) :
    (longToken zeros).scaled e = 10 ^ (e - (zeros + 1 : Nat)) := by
  have one : decimalValue (longToken zeros).digits = 1 := by
    rw [FloatToken.digits, decimalValue_append]
    change decimalValue [0] * _ + decimalValue (List.replicate zeros 0 ++ [1]) = 1
    rw [decimalValue_append, decimalValue_replicate_zero]
    simp [decimalValue]
  have places : ((longToken zeros).fraction.getD []).length = zeros + 1 := by
    simp [longToken]
  rw [FloatToken.scaled, one, places, Nat.cast_one, one_mul]

theorem not_encodes_one_zero : ¬ (dtTarget .double).format.Encodes 1 0 := by
  rintro ⟨u, n, ulp, -, code⟩
  have high : (0 : Int) < u + 53 := by
    have below := ulp.below
    rw [← zpow_zero (2 : ℚ)] at below
    exact (zpow_lt_zpow_iff_right₀ (by norm_num)).mp below
  have climbed : 1 ≤ (u - (dtTarget .double).format.emin).toNat := by
    change 1 ≤ (u - -1074).toNat
    omega
  have infinite : 0 < (dtTarget .double).format.infinity := by decide
  have positive : 0 < (dtTarget .double).format.code n u := by
    have scaled := Nat.mul_le_mul_right (2 ^ ((dtTarget .double).format.precision - 1)) climbed
    have power : 0 < 2 ^ ((dtTarget .double).format.precision - 1) := Nat.two_pow_pos _
    unfold Format.code
    omega
  exact absurd code (Nat.ne_of_lt (lt_min positive infinite))

/-- A million places after the point and an exponent of a million denote one,
and are read as zero. -/
theorem longToken_not_nearest : (longToken 999999).Valid ∧
      ¬ ∃ mag, clParseFloatExact .double (longToken 999999).text =
          some (signBits .double (longToken 999999).negative ||| mag) ∧
        (dtTarget .double).format.Encodes (longToken 999999).value mag := by
  refine ⟨longToken_valid _, ?_⟩
  rintro ⟨mag, result, encodes⟩
  obtain ⟨kept, keptResult, keptEncodes⟩ :=
    clParseFloatExact_kept .double (longToken_valid 999999)
  have keptExponent : (longToken 999999).keptExponent = 100000 := rfl
  have exponent : (longToken 999999).exponentValue = 1000000 := rfl
  rw [FloatToken.value, longToken_scaled, exponent] at encodes
  rw [longToken_scaled, keptExponent] at keptEncodes
  have tiny : (dtTarget .double).format.Encodes (10 ^ ((100000 : Int) - (999999 + 1 : Nat))) 0 := by
    apply Format.encodes_zero (by decide) (zpow_nonneg (by norm_num) _)
    refine lt_of_le_of_lt ?_ (guards_outside .double).1
    exact zpow_le_zpow_right₀ (by norm_num) (by decide)
  have zero : kept = 0 := keptEncodes.unique tiny
  have same : mag = 0 := by
    have unsigned : signBits .double (longToken 999999).negative = 0 := rfl
    rw [zero, unsigned] at keptResult
    rw [unsigned, keptResult, Option.some.injEq, Nat.zero_or, Nat.zero_or] at result
    exact result.symm
  have one : (1000000 : Int) - (999999 + 1 : Nat) = 0 := by norm_num
  rw [one, zpow_zero, same] at encodes
  exact not_encodes_one_zero encodes

end ClAmiga.Float
