import ClAmiga.Radix.Nearest
import ClAmiga.Float.DragonSpec
import ClAmiga.Float.Parse

/-!
# Parsing rounds to nearest

The bits that `cl_parse_float_exact` computes from a digit string encode the
decimal it denotes, rounded to nearest with ties to even.
-/

namespace ClAmiga.Float

open Radix

def DtTarget.format (t : DtTarget) : Format :=
  ⟨t.mantBits, t.eminSub, t.infinity⟩

/-- The parameters of a target belong to one IEEE format. -/
structure DtTarget.Sound (t : DtTarget) : Prop where
  shift : t.mantBits = t.mantShift + 1
  precise : 2 ≤ t.mantBits
  word : t.mantBits ≤ 53
  eminSub : t.eminSub = 2 - t.bias - t.mantBits
  emax : t.emax = t.bias

theorem dtTarget_sound (precision : Precision) : (dtTarget precision).Sound := by
  cases precision <;> constructor <;> decide

theorem roundMantissa_nearest {M : Nat} {drop : Int} {sticky : Bool} {theta : ℚ}
    (nonneg : 0 ≤ theta) (less : theta < 1) (stickyEq : sticky = true ↔ theta ≠ 0)
    (whole : drop ≤ 0 → theta = 0 ∧ M * 2 ^ (-drop).toNat < 2 ^ 64) :
    Nearest ((M + theta) / 2 ^ drop) (roundMantissa M drop sticky) := by
  unfold roundMantissa
  by_cases appends : drop ≤ 0
  · obtain ⟨exactly, small⟩ := whole appends
    have power : (2 : ℚ) ^ drop = (2 ^ (-drop).toNat)⁻¹ := by
      rw [← zpow_natCast, ← zpow_neg]
      congr 1
      omega
    rw [if_pos appends, Nat.shiftLeft_eq, Nat.mod_eq_of_lt small, exactly, add_zero, power,
      div_inv_eq_mul]
    have cast : (M : ℚ) * 2 ^ (-drop).toNat = (M * 2 ^ (-drop).toNat : Nat) := by
      push_cast
      ring
    rw [cast]
    exact nearest_self _
  · obtain ⟨count, rfl⟩ : ∃ count : Nat, drop = (count + 1 : Nat) :=
      ⟨drop.toNat - 1, by omega⟩
    have maskEq : (if count + 1 > 1 then (1 <<< count) - 1 else 0) = 2 ^ count - 1 := by
      rw [Nat.one_shiftLeft]
      by_cases zero : count = 0
      · rw [zero, if_neg (by omega), pow_zero, Nat.sub_self]
      · rw [if_pos (by omega)]
    rw [if_neg appends]
    simp only [Int.toNat_natCast, Nat.add_sub_cancel, maskEq, Nat.and_two_pow_sub_one_eq_mod,
      Nat.and_one_is_mod, Nat.shiftRight_eq_div_pow, zpow_natCast]
    apply nearest_of_guard nonneg less
    rw [Bool.or_eq_true, decide_eq_true_eq, stickyEq]

variable {t : DtTarget}

theorem assemble_code (sound : t.Sound) {mant : Nat} {u : Int}
    (low : t.eminSub ≤ u) (fits : mant < 2 ^ t.mantBits)
    (normal : u = t.eminSub ∨ 2 ^ t.mantShift ≤ mant) :
    assemble t mant u = min (t.format.code mant u) t.infinity := by
  obtain ⟨shift, precise, word, emin, emax⟩ := sound
  have small : mant < 2 ^ 64 :=
    fits.trans_le (Nat.pow_le_pow_right (by omega) (by omega))
  have double : 2 ^ t.mantBits = 2 * 2 ^ t.mantShift := by
    rw [shift]
    ring
  have infinityEq : t.infinity = (2 * t.bias + 1) * 2 ^ t.mantShift := by
    rw [DtTarget.infinity, Nat.shiftLeft_eq]
  have codeEq : t.format.code mant u = mant + (u - t.eminSub).toNat * 2 ^ t.mantShift := by
    simp only [Format.code, DtTarget.format, shift, Nat.add_sub_cancel]
  rw [codeEq, infinityEq]
  unfold assemble
  rw [bitlenU64_eq small]
  by_cases large : 2 ^ t.mantShift ≤ mant
  · have size : mant.size = t.mantBits := by
      rw [shift]
      rw [shift] at fits
      exact size_eq_of_bounds large fits
    rw [if_pos size]
    by_cases overflow : u + t.mantBits - 1 > t.emax
    · rw [if_pos overflow, infinityEq, min_eq_right]
      have step : 2 * t.bias ≤ (u - t.eminSub).toNat := by omega
      calc
        (2 * t.bias + 1) * 2 ^ t.mantShift =
            2 ^ t.mantShift + 2 * t.bias * 2 ^ t.mantShift := by ring
        _ ≤ mant + (u - t.eminSub).toNat * 2 ^ t.mantShift :=
          Nat.add_le_add large (Nat.mul_le_mul_right _ step)
    · have exponent : (u + t.mantBits - 1 + t.bias).toNat = (u - t.eminSub).toNat + 1 := by
        omega
      have remainder : mant % 2 ^ t.mantShift = mant - 2 ^ t.mantShift := by
        rw [Nat.mod_eq_sub_mod large, Nat.mod_eq_of_lt (by omega)]
      have step : (u - t.eminSub).toNat + 1 ≤ 2 * t.bias := by omega
      have bound : mant + (u - t.eminSub).toNat * 2 ^ t.mantShift ≤
          (2 * t.bias + 1) * 2 ^ t.mantShift :=
        calc
          mant + (u - t.eminSub).toNat * 2 ^ t.mantShift ≤
              2 * 2 ^ t.mantShift + (u - t.eminSub).toNat * 2 ^ t.mantShift := by omega
          _ = ((u - t.eminSub).toNat + 1 + 1) * 2 ^ t.mantShift := by ring
          _ ≤ (2 * t.bias + 1) * 2 ^ t.mantShift :=
            Nat.mul_le_mul_right _ (by omega)
      rw [if_neg overflow, exponent, Nat.one_shiftLeft, Nat.and_two_pow_sub_one_eq_mod,
        ← Nat.shiftLeft_add_eq_or_of_lt (Nat.mod_lt _ (by positivity)), remainder,
        Nat.shiftLeft_eq, min_eq_left bound, Nat.add_mul]
      omega
  · have least := normal.resolve_right large
    have size : mant.size ≠ t.mantBits := by
      have := Nat.size_le.mpr (Nat.lt_of_not_le large)
      omega
    rw [if_neg size, least, sub_self, Int.toNat_zero, Nat.zero_mul, Nat.add_zero, min_eq_left]
    have : 1 * 2 ^ t.mantShift ≤ (2 * t.bias + 1) * 2 ^ t.mantShift :=
      Nat.mul_le_mul_right _ (by omega)
    omega

theorem renormalize_done {mantBits fuel mant : Nat} {u : Int}
    (fits : mant < 2 ^ mantBits) (word : mantBits ≤ 64) :
    renormalize mantBits fuel mant u = (mant, u) := by
  have small : mant < 2 ^ 64 := fits.trans_le (Nat.pow_le_pow_right (by omega) word)
  have size := Nat.size_le.mpr fits
  cases fuel with
  | zero => rfl
  | succ fuel => rw [renormalize, bitlenU64_eq small, if_neg (by omega)]

theorem assemble_renormalize (sound : t.Sound) {mant : Nat} {u : Int}
    (low : t.eminSub ≤ u) (fits : mant ≤ 2 ^ t.mantBits)
    (normal : u = t.eminSub ∨ 2 ^ t.mantShift ≤ mant) :
    assemble t (renormalize t.mantBits 64 mant u).1 (renormalize t.mantBits 64 mant u).2 =
      min (t.format.code mant u) t.infinity := by
  have word := sound.word
  have shift := sound.shift
  by_cases carried : mant = 2 ^ t.mantBits
  · -- one bit too long after the carry: a power of two at the next exponent
    have small : mant < 2 ^ 64 := by
      rw [carried]
      exact Nat.pow_lt_pow_right (by omega) (by omega)
    have size : mant.size = t.mantBits + 1 := by
      rw [carried]
      exact Nat.size_pow
    have half : mant >>> 1 = 2 ^ t.mantShift := by
      rw [carried, shift, Nat.shiftRight_eq_div_pow, pow_one, pow_succ,
        Nat.mul_div_cancel _ (by omega)]
    have halfFits : 2 ^ t.mantShift < 2 ^ t.mantBits :=
      Nat.pow_lt_pow_right (by omega) (by omega)
    rw [renormalize, bitlenU64_eq small, if_pos (by omega), half,
      renormalize_done halfFits (by omega),
      assemble_code sound (by omega) halfFits (Or.inr le_rfl)]
    congr 1
    have step : (u + 1 - t.eminSub).toNat = (u - t.eminSub).toNat + 1 := by omega
    have double : 2 ^ t.mantBits = 2 * 2 ^ t.mantShift := by
      rw [shift]
      ring
    simp only [Format.code, DtTarget.format, step, carried]
    rw [Nat.add_mul, double, shift, Nat.add_sub_cancel]
    omega
  · have less : mant < 2 ^ t.mantBits := by omega
    rw [renormalize_done less (by omega)]
    exact assemble_code sound low less normal

theorem two_zpow_natCast (k : Nat) : ((2 ^ k : Nat) : ℚ) = 2 ^ (k : Int) := by
  rw [zpow_natCast]
  push_cast
  rfl

theorem dtRoundAssemble_encodes (sound : t.Sound) {M : Nat} {exp2 : Int}
    {sticky : Bool} {theta : ℚ} (positive : 0 < M) (small : M < 2 ^ 57)
    (nonneg : 0 ≤ theta) (less : theta < 1) (stickyEq : sticky = true ↔ theta ≠ 0)
    (precise : sticky = true → 2 ^ t.mantBits ≤ M) :
    t.format.Encodes ((M + theta) * 2 ^ exp2) (dtRoundAssemble M exp2 sticky t) := by
  have word := sound.word
  have shift := sound.shift
  have sizePositive : 0 < M.size := Nat.size_pos.mpr positive
  have expPositive : (0 : ℚ) < 2 ^ exp2 := by positivity
  have lower : (2 : ℚ) ^ ((M.size : Int) - 1 + exp2) ≤ (M + theta) * 2 ^ exp2 := by
    have top : 2 ^ (M.size - 1) ≤ M := Nat.lt_size.mp (by omega)
    have topCast : ((2 ^ (M.size - 1) : Nat) : ℚ) ≤ M := by exact_mod_cast top
    rw [two_zpow_natCast] at topCast
    rw [zpow_add₀ (by norm_num)]
    refine mul_le_mul_of_nonneg_right ?_ expPositive.le
    have cast : ((M.size - 1 : Nat) : Int) = (M.size : Int) - 1 := by omega
    rw [cast] at topCast
    linarith
  have upper : (M + theta) * 2 ^ exp2 < (2 : ℚ) ^ ((M.size : Int) + exp2) := by
    have top : M + 1 ≤ 2 ^ M.size := Nat.lt_size_self M
    have topCast : ((M + 1 : Nat) : ℚ) ≤ (2 ^ M.size : Nat) := by exact_mod_cast top
    rw [two_zpow_natCast] at topCast
    rw [zpow_add₀ (by norm_num)]
    refine mul_lt_mul_of_pos_right ?_ expPositive
    push_cast at topCast
    linarith
  generalize number : ((M : ℚ) + theta) * 2 ^ exp2 = x at *
  have mono : ∀ {i j : Int}, i ≤ j → (2 : ℚ) ^ i ≤ 2 ^ j :=
    fun le => zpow_le_zpow_right₀ (by norm_num) le
  unfold dtRoundAssemble
  rw [bitlenU64_eq (small.trans_le (Nat.pow_le_pow_right (by omega) (by omega)))]
  dsimp only
  generalize keepEq : (if (M.size : Int) - 1 + exp2 < t.eminSub + t.mantBits - 1
    then (M.size : Int) - 1 + exp2 - t.eminSub + 1 else t.mantBits) = keep
  have keepCases : (keep = t.mantBits ∧ t.eminSub ≤ exp2 + (M.size - keep)) ∨
      (exp2 + (M.size - keep) = t.eminSub ∧ keep < t.mantBits) := by
    rw [← keepEq]
    split <;> omega
  by_cases tiny : keep < 0
  · have subnormal : exp2 + (M.size - keep) = t.eminSub := by omega
    simp only [if_pos tiny]
    refine ⟨t.eminSub, 0, ⟨le_rfl, ?_, Or.inl rfl⟩, ?_, ?_⟩
    · exact upper.trans_le (mono (by simp only [DtTarget.format]; omega))
    · have half : x < 2 ^ (t.eminSub - 1) := upper.trans_le (mono (by omega))
      have bound : x / 2 ^ t.eminSub < 1 / 2 := by
        rw [div_lt_iff₀ (by positivity)]
        rw [zpow_sub_one₀ (by norm_num)] at half
        linarith
      have xNonneg : 0 ≤ x / 2 ^ t.eminSub := by
        rw [← number]
        positivity
      unfold Nearest
      rw [Nat.cast_zero, sub_zero, abs_of_nonneg xNonneg]
      exact ⟨bound.le, fun tie => absurd tie bound.ne⟩
    · simp [Format.code, DtTarget.format]
  · simp only [if_neg tiny]
    have nearest : Nearest (x / 2 ^ (exp2 + ((M.size : Int) - keep)))
        (roundMantissa M ((M.size : Int) - keep) sticky) := by
      have scaled : x / 2 ^ (exp2 + ((M.size : Int) - keep)) =
          (M + theta) / 2 ^ ((M.size : Int) - keep) := by
        rw [← number, zpow_add₀ (by norm_num)]
        field_simp
      rw [scaled]
      apply roundMantissa_nearest nonneg less stickyEq
      intro appends
      constructor
      · by_contra nonzero
        have large := precise (stickyEq.mpr nonzero)
        have := Nat.lt_size.mpr large
        omega
      · have top := Nat.lt_size_self M
        calc
          M * 2 ^ (-((M.size : Int) - keep)).toNat <
              2 ^ M.size * 2 ^ (-((M.size : Int) - keep)).toNat :=
            Nat.mul_lt_mul_of_pos_right top (by positivity)
          _ = 2 ^ (M.size + (-((M.size : Int) - keep)).toNat) := by rw [pow_add]
          _ ≤ 2 ^ 64 := Nat.pow_le_pow_right (by omega) (by omega)
    generalize roundMantissa M ((M.size : Int) - keep) sticky = mant at *
    generalize ulpEq : exp2 + ((M.size : Int) - keep) = u at *
    have uPositive : (0 : ℚ) < 2 ^ u := by positivity
    have below : x < 2 ^ (u + t.mantBits) := upper.trans_le (mono (by omega))
    have fits : mant ≤ 2 ^ t.mantBits := by
      apply nearest.le_of_lt
      rw [div_lt_iff₀ uPositive, two_zpow_natCast, ← zpow_add₀ (by norm_num), add_comm]
      exact below
    have lowU : t.eminSub ≤ u := by omega
    have atNormal : keep = t.mantBits → 2 ^ (u + t.mantBits - 1) ≤ x := by
      intro full
      have : u + t.mantBits - 1 = (M.size : Int) - 1 + exp2 := by omega
      rw [this]
      exact lower
    have normal : u = t.eminSub ∨ 2 ^ t.mantShift ≤ mant := by
      rcases keepCases with ⟨full, -⟩ | ⟨least, -⟩
      · right
        apply nearest.ge_of_le
        rw [le_div_iff₀ uPositive, two_zpow_natCast, ← zpow_add₀ (by norm_num)]
        have : (t.mantShift : Int) + u = u + t.mantBits - 1 := by omega
        rw [this]
        exact atNormal full
      · exact Or.inl least
    refine ⟨u, mant, ⟨lowU, below, ?_⟩, nearest, ?_⟩
    · rcases keepCases with ⟨full, -⟩ | ⟨least, -⟩
      · exact Or.inr (atNormal full)
      · exact Or.inl least
    · by_cases zero : mant = 0
      · have least : u = t.eminSub := by
          rcases normal with least | large
          · exact least
          · have : 0 < 2 ^ t.mantShift := by positivity
            omega
        rw [if_pos zero, zero, least]
        simp [Format.code, DtTarget.format]
      · rw [if_neg zero]
        exact assemble_renormalize sound lowU fits normal

/-- `M`, `exp2` and the sticky bit stand for `x`: a rest below the last bit of
`M` is there exactly when the sticky bit is set, and then `M` is long enough to
round. -/
def Leading (mantBits M : Nat) (exp2 : Int) (sticky : Bool) (x : ℚ) : Prop :=
  ∃ theta : ℚ, 0 ≤ theta ∧ theta < 1 ∧ (sticky = true ↔ theta ≠ 0) ∧
    0 < M ∧ M < 2 ^ 57 ∧ (sticky = true → 2 ^ mantBits ≤ M) ∧
    (M + theta) * 2 ^ exp2 = x

theorem Leading.encodes (sound : t.Sound) {M : Nat} {exp2 : Int}
    {sticky : Bool} {x : ℚ} (leading : Leading t.mantBits M exp2 sticky x) :
    t.format.Encodes x (dtRoundAssemble M exp2 sticky t) := by
  obtain ⟨theta, nonneg, less, stickyEq, positive, small, precise, rfl⟩ := leading
  exact dtRoundAssemble_encodes sound positive small nonneg less stickyEq precise

theorem leading_of_quotient (mantBits : Nat) {N V : Nat} (e : Int) {sticky : Bool}
    (vPositive : 0 < V) (stickyEq : sticky = true ↔ N % V ≠ 0)
    (positive : 0 < N / V) (small : N / V < 2 ^ 57)
    (precise : sticky = true → 2 ^ mantBits ≤ N / V) :
    Leading mantBits (N / V) e sticky ((N : ℚ) / V * 2 ^ e) := by
  have vCast : (0 : ℚ) < V := by exact_mod_cast vPositive
  have less : N % V < V := Nat.mod_lt _ vPositive
  have lessCast : ((N % V : Nat) : ℚ) < V := by exact_mod_cast less
  have whole : (N : ℚ) = V * (N / V : Nat) + (N % V : Nat) := by
    exact_mod_cast (Nat.div_add_mod N V).symm
  refine ⟨(N % V : Nat) / V, by positivity, (div_lt_one vCast).mpr lessCast, ?_, positive,
    small, precise, ?_⟩
  · rw [stickyEq, Ne, Ne, div_eq_zero_iff, not_or, Nat.cast_eq_zero]
    exact ⟨fun nonzero => ⟨nonzero, vCast.ne'⟩, fun both => both.1⟩
  · congr 1
    rw [eq_div_iff vCast.ne']
    rw [add_mul, div_mul_cancel₀ _ vCast.ne']
    linarith

theorem bits_five_pow (k : Nat) : Bits (5 ^ k) (3 * k + 1) := by
  have le : 5 ^ k ≤ 2 ^ (3 * k) := by
    rw [pow_mul]
    exact Nat.pow_le_pow_left (by norm_num) k
  exact (bits_two_pow (3 * k)).of_le le

theorem ten_zpow_natCast (d k : Nat) :
    (d : ℚ) * 10 ^ (k : Int) = (d * 5 ^ k : Nat) * 2 ^ (k : Int) := by
  have ten : (10 : ℚ) = 5 * 2 := by norm_num
  rw [zpow_natCast, zpow_natCast, ten, mul_pow]
  push_cast
  ring

theorem multiplyDigits_leading (mantBits : Nat) {d k : Nat} (positive : 0 < d)
    (bits : Bits (d * 5 ^ k) fullBits) (word : mantBits ≤ 56) :
    ∃ M exp2 sticky, multiplyDigits (rep d) k false = some (M, exp2, sticky) ∧
      Leading mantBits M exp2 sticky (d * 10 ^ (k : Int)) := by
  unfold multiplyDigits
  rw [Int.toNat_natCast, dtMulPow5_rep k (lt_capacity bits), ten_zpow_natCast]
  have product : 0 < d * 5 ^ k := by positivity
  generalize d * 5 ^ k = n at *
  have sizePositive := Nat.size_pos.mpr product
  have top : 2 ^ (n.size - 1) ≤ n := Nat.lt_size.mp (by omega)
  have bound := Nat.lt_size_self n
  simp only [rep_n_nonneg, if_false, dtBitlen_rep]
  by_cases few : n.size ≤ 57
  · rw [if_pos few, dtTopBits_rep le_rfl (by omega), Nat.sub_self, pow_zero, Nat.div_one]
    refine ⟨n, k, false, rfl, ?_⟩
    have small : n < 2 ^ 57 := bound.trans_le (Nat.pow_le_pow_right (by omega) few)
    have noRest : false = true ↔ n % 1 ≠ 0 := by simp [Nat.mod_one]
    have leading := leading_of_quotient mantBits k (by omega) noRest
      (by simpa using product) (by simpa using small) (by simp)
    simpa using leading
  · rw [if_neg few, dtTopBits_rep (by omega) (by omega), dtLowBitsNonzero_rep, Bool.false_or]
    refine ⟨_, _, _, rfl, ?_⟩
    have low : 2 ^ 56 ≤ n / 2 ^ (n.size - 57) := by
      rw [Nat.le_div_iff_mul_le (by positivity), ← pow_add]
      have : 56 + (n.size - 57) = n.size - 1 := by omega
      rw [this]
      exact top
    have high : n / 2 ^ (n.size - 57) < 2 ^ 57 := by
      rw [Nat.div_lt_iff_lt_mul (by positivity), ← pow_add]
      have : 57 + (n.size - 57) = n.size := by omega
      rw [this]
      exact bound
    have precise : 2 ^ mantBits ≤ n / 2 ^ (n.size - 57) :=
      (Nat.pow_le_pow_right (by omega) word).trans low
    have rest : decide (n % 2 ^ (n.size - 57) ≠ 0) = true ↔ n % 2 ^ (n.size - 57) ≠ 0 :=
      decide_eq_true_iff
    have leading := leading_of_quotient mantBits (k + (n.size - 57 : Nat)) (by positivity)
      rest (by omega) high (fun _ => precise)
    have shift : (n : ℚ) / (2 ^ (n.size - 57) : Nat) *
        2 ^ ((k : Int) + (n.size - 57 : Nat)) = n * 2 ^ (k : Int) := by
      rw [zpow_add₀ (by norm_num), two_zpow_natCast]
      field_simp
    rw [shift] at leading
    exact leading

theorem feedBit_rep {n r i : Nat} (bits : Bits r 3400) :
    feedBit (rep n) (rep r) i = rep (2 * r + (n.testBit i).toNat) := by
  have doubled := bits.mul (bits_small (show 2 < 16 by omega) le_rfl)
  unfold feedBit
  rw [shl_one (doubled.mono (by decide)), dtBit_rep, Nat.mul_comm r 2]
  cases n.testBit i with
  | false => simp
  | true =>
      have successor : Bits (2 * r + 1) fullBits := by
        rw [Nat.mul_comm] at doubled
        exact (doubled.add (bits_small (show 1 < 16 by omega) (by omega))).mono (by decide)
      have fits := lt_capacity successor
      simp only [if_true, Bool.toNat_true]
      rw [dtAddU32_rep (by omega) (by omega), big_of_lt fits]

theorem div_two_pow_step (n i : Nat) : 2 * (n / 2 ^ (i + 1)) + (n.testBit i).toNat = n / 2 ^ i := by
  have split := Nat.div_add_mod (n / 2 ^ i) 2
  rw [Nat.div_div_eq_div_mul, ← pow_succ] at split
  rw [Nat.toNat_testBit]
  exact split

theorem feedTop_rep {n : Nat} (count pos : Nat) (bits : Bits (n / 2 ^ pos) 3400) :
    feedTop (rep n) count ((pos + count : Nat) - 1) (rep (n / 2 ^ (pos + count))) =
      rep (n / 2 ^ pos) := by
  induction count with
  | zero => rw [feedTop, Nat.add_zero]
  | succ count induction =>
      have index : ((pos + (count + 1) : Nat) : Int) - 1 = (pos + count : Nat) := by
        push_cast
        ring
      have smaller : Bits (n / 2 ^ (pos + (count + 1))) 3400 :=
        bits.of_le (Nat.div_le_div_left (Nat.pow_le_pow_right (by omega) (by omega))
          (by positivity))
      rw [index, feedTop, feedBit_rep smaller, ← Nat.add_assoc, div_two_pow_step]
      exact induction

theorem quotient_step (n pos : Nat) {v : Nat} (vPositive : 0 < v) :
    (v ≤ 2 * (n / 2 ^ (pos + 1) % v) + (n.testBit pos).toNat →
      n / 2 ^ pos / v = 2 * (n / 2 ^ (pos + 1) / v) + 1 ∧
      n / 2 ^ pos % v = 2 * (n / 2 ^ (pos + 1) % v) + (n.testBit pos).toNat - v) ∧
    (2 * (n / 2 ^ (pos + 1) % v) + (n.testBit pos).toNat < v →
      n / 2 ^ pos / v = 2 * (n / 2 ^ (pos + 1) / v) ∧
      n / 2 ^ pos % v = 2 * (n / 2 ^ (pos + 1) % v) + (n.testBit pos).toNat) := by
  have step := div_two_pow_step n pos
  have bitLe : (n.testBit pos).toNat ≤ 1 := Bool.toNat_le _
  have whole := Nat.div_add_mod (n / 2 ^ (pos + 1)) v
  have less : n / 2 ^ (pos + 1) % v < v := Nat.mod_lt _ vPositive
  generalize (n.testBit pos).toNat = bit at *
  generalize n / 2 ^ (pos + 1) / v = q at *
  generalize n / 2 ^ (pos + 1) % v = r at *
  rw [← step, ← whole]
  constructor
  · intro large
    rw [Nat.div_mod_unique vPositive]
    refine ⟨?_, by omega⟩
    have : v * (2 * q + 1) = 2 * (v * q) + v := by ring
    omega
  · intro small
    rw [Nat.div_mod_unique vPositive]
    refine ⟨?_, small⟩
    have : v * (2 * q) = 2 * (v * q) := by ring
    omega

theorem dtCmp_nonneg_iff (a b : Nat) : dtCmp (rep a) (rep b) ≥ 0 ↔ b ≤ a := by
  rw [dtCmp_rep]
  split <;> [skip; split] <;> omega

theorem quotientLoop_rep {n v : Nat} (vPositive : 0 < v) (vBits : Bits v 3400)
    (room pos : Nat) (roomLe : room ≤ 56)
    (small : n / 2 ^ pos / v < 2 ^ (57 - room)) :
    quotientLoop (rep n) (rep v) room ((pos : Int) - 1) (n / 2 ^ pos / v) (rep (n / 2 ^ pos % v)) =
      (n / 2 ^ (pos - room) / v, ((pos - room : Nat) : Int) - 1, rep (n / 2 ^ (pos - room) % v)) ∧
      n / 2 ^ (pos - room) / v < 2 ^ 57 := by
  induction room generalizing pos with
  | zero =>
      rw [quotientLoop, Nat.sub_zero]
      exact ⟨rfl, small⟩
  | succ room induction =>
      cases pos with
      | zero =>
          rw [quotientLoop, if_neg (by omega), Nat.zero_sub]
          exact ⟨rfl, small.trans_le (Nat.pow_le_pow_right (by omega) (by omega))⟩
      | succ pos =>
          have index : ((pos + 1 : Nat) : Int) - 1 = (pos : Nat) := by omega
          have remLess : n / 2 ^ (pos + 1) % v < v := Nat.mod_lt _ vPositive
          have ⟨up, down⟩ := quotient_step n pos vPositive
          have double : 2 ^ (57 - room) = 2 * 2 ^ (57 - (room + 1)) := by
            have : 57 - room = 57 - (room + 1) + 1 := by omega
            rw [this]
            ring
          have noWrap : (n / 2 ^ (pos + 1) / v) <<< 1 % 2 ^ 64 = 2 * (n / 2 ^ (pos + 1) / v) := by
            have : 2 ^ (57 - room) ≤ 2 ^ 57 := Nat.pow_le_pow_right (by omega) (by omega)
            rw [Nat.shiftLeft_eq, pow_one, Nat.mul_comm]
            apply Nat.mod_eq_of_lt
            omega
          have shiftEq : pos + 1 - (room + 1) = pos - room := by omega
          rw [quotientLoop, index, if_pos (by omega), feedBit_rep (vBits.of_le remLess.le),
            noWrap, shiftEq]
          simp only [dtCmp_nonneg_iff]
          by_cases large : v ≤ 2 * (n / 2 ^ (pos + 1) % v) + (n.testBit pos).toNat
          · obtain ⟨quotient, remainder⟩ := up large
            have setBit : 2 * (n / 2 ^ (pos + 1) / v) ||| 1 = 2 * (n / 2 ^ (pos + 1) / v) + 1 := by
              have := Nat.two_pow_add_eq_or_of_lt (i := 1) (b := 1) (by omega)
                (n / 2 ^ (pos + 1) / v)
              rw [pow_one] at this
              exact this.symm
            rw [if_pos large, setBit, dtSub_rep large, ← quotient, ← remainder]
            apply induction pos (by omega)
            omega
          · obtain ⟨quotient, remainder⟩ := down (Nat.lt_of_not_le large)
            rw [if_neg large, ← quotient, ← remainder]
            apply induction pos (by omega)
            omega

theorem dtIsZero_rep (number : Nat) : dtIsZero (rep number) = decide (number = 0) := by
  by_cases zero : number = 0
  · subst zero
    simp [dtIsZero, rep, DtBig.n, ofNat]
  · have nonempty := ofNat_ne_nil (w := 32) (by omega) zero
    simp [dtIsZero, rep, DtBig.n, zero, nonempty]

theorem firstBit_rep {v top : Nat} (vPositive : 0 < v) (small : top < 2 * v) :
    (if dtCmp (rep top) (rep v) ≥ 0 then (dtSub (rep top) (rep v), 1)
      else (rep top, 0)) = (rep (top % v), top / v) := by
  simp only [dtCmp_nonneg_iff]
  by_cases large : v ≤ top
  · rw [if_pos large, dtSub_rep large, Nat.mod_eq_sub_mod large,
      Nat.mod_eq_of_lt (by omega), Nat.div_eq_sub_div vPositive large,
      Nat.div_eq_of_lt (by omega)]
  · rw [if_neg large, Nat.mod_eq_of_lt (by omega), Nat.div_eq_of_lt (by omega)]

theorem rest_iff {tail unit r low : Nat} (unitNonzero : unit ≠ 0)
    (nothingBelow : low = 0 → tail = 0) :
    (¬ r = 0 ∨ (low : Int) - 1 ≥ 0 ∧ tail ≠ 0) ↔ tail + unit * r ≠ 0 := by
  have below : (low : Int) - 1 ≥ 0 ↔ low ≠ 0 := by omega
  have sum : tail + unit * r = 0 ↔ tail = 0 ∧ r = 0 := by
    rw [Nat.add_eq_zero_iff, Nat.mul_eq_zero]
    tauto
  tauto

/-- The quotient has all bits needed to round, also when it is exact. -/
theorem divideDigits_precise (sound : t.Sound) {d count : Nat}
    (positive : 0 < d) (dBits : Bits d 3100) (few : count ≤ 1093) :
    ∃ M exp2 sticky, divideDigits t (rep d) (-(count : Int)) false = some (M, exp2, sticky) ∧
      Leading t.mantBits M exp2 sticky (d * 10 ^ (-(count : Int))) ∧
      2 ^ t.mantBits ≤ M := by
  have word := sound.word
  have vPositive : 0 < 5 ^ count := by positivity
  have vBits : Bits (5 ^ count) 3280 := (bits_five_pow count).mono (by omega)
  have exactly : ∀ s2 : Nat, (d : ℚ) * 10 ^ (-(count : Int)) =
      (d * 2 ^ s2 : Nat) / (5 ^ count : Nat) * 2 ^ (-(count : Int) - s2) := by
    intro s2
    have ten : (10 : ℚ) = 5 * 2 := by norm_num
    rw [zpow_sub₀ (by norm_num), zpow_neg, zpow_neg, zpow_natCast, zpow_natCast,
      zpow_natCast, ten, mul_pow]
    push_cast
    field_simp
  have v : dtMulPow5 (dtFromU64 1) (-(-(count : Int))).toNat = rep (5 ^ count) := by
    have bits : Bits (1 * 5 ^ count) fullBits := by
      rw [Nat.one_mul]
      exact vBits.mono (by decide)
    rw [neg_neg, Int.toNat_natCast, dtFromU64_rep (by omega),
      dtMulPow5_rep count (lt_capacity bits), Nat.one_mul]
  have vTop : 2 ^ ((5 ^ count).size - 1) ≤ 5 ^ count := by
    have := Nat.size_pos.mpr vPositive
    exact Nat.lt_size.mp (by omega)
  have vSize := vBits.size_le
  have vSizePositive := Nat.size_pos.mpr vPositive
  have vBound := Nat.lt_size_self (5 ^ count)
  unfold divideDigits
  rw [v]
  simp only [rep_n_nonneg, if_false, dtBitlen_rep]
  generalize 5 ^ count = V at *
  generalize shiftEq : ((V.size : Int) - d.size + t.mantBits + 4).toNat = s2
  -- the dividend is long enough for the quotient to have all bits needed
  have dSize := dBits.size_le
  have size : (d * 2 ^ s2).size = d.size + s2 := by
    rw [← Nat.shiftLeft_eq, Nat.size_shiftLeft (by omega)]
  have nBits : Bits (d * 2 ^ s2) 3400 := by
    have := Nat.lt_size_self (d * 2 ^ s2)
    exact Bits.mono this (by omega)
  have n : dtShl (rep d) s2 = rep (d * 2 ^ s2) :=
    dtShl_bits (nBits.mono (by decide))
  have long : V.size + t.mantBits + 4 ≤ (d * 2 ^ s2).size := by omega
  have value := exactly s2
  have nPositive : 0 < d * 2 ^ s2 := by positivity
  rw [n]
  simp only [rep_n_nonneg, if_false, dtBitlen_rep]
  generalize d * 2 ^ s2 = N at *
  have nTop : 2 ^ (N.size - 1) ≤ N := Nat.lt_size.mp (by omega)
  have nBound := Nat.lt_size_self N
  obtain ⟨pos, posEq⟩ : ∃ pos, N.size = pos + V.size := ⟨N.size - V.size, by omega⟩
  have topZero : N / 2 ^ (pos + V.size) = 0 := by
    rw [← posEq]
    exact Nat.div_eq_of_lt nBound
  have fed : feedTop (rep N) V.size ((N.size : Int) - 1) dtZero = rep (N / 2 ^ pos) := by
    have := feedTop_rep (n := N) V.size pos (nBits.of_le (Nat.div_le_self _ _))
    rw [topZero] at this
    rw [posEq]
    exact this
  have firstSmall : N / 2 ^ pos < 2 * V := by
    rw [Nat.div_lt_iff_lt_mul (by positivity)]
    calc
      N < 2 ^ N.size := nBound
      _ = 2 * 2 ^ (V.size - 1) * 2 ^ pos := by
        have : N.size = 1 + (V.size - 1) + pos := by omega
        rw [this, pow_add, pow_add, pow_one]
      _ ≤ 2 * V * 2 ^ pos := Nat.mul_le_mul_right _ (by omega)
  have firstBit : N / 2 ^ pos / V < 2 ^ (57 - 56) := by
    rw [Nat.div_lt_iff_lt_mul vPositive]
    omega
  have index : (N.size : Int) - V.size - 1 = (pos : Int) - 1 := by omega
  obtain ⟨loop, small⟩ :=
    quotientLoop_rep vPositive (vBits.mono (by omega)) 56 pos le_rfl firstBit
  rw [fed, firstBit_rep vPositive firstSmall]
  dsimp only
  rw [index, loop]
  dsimp only
  generalize endEq : pos - 56 = low at *
  have precise : 2 ^ t.mantBits ≤ N / 2 ^ low / V := by
    rw [Nat.le_div_iff_mul_le vPositive, Nat.le_div_iff_mul_le (by positivity)]
    calc
      2 ^ t.mantBits * V * 2 ^ low ≤ 2 ^ t.mantBits * 2 ^ V.size * 2 ^ low :=
        Nat.mul_le_mul_right _ (Nat.mul_le_mul_left _ vBound.le)
      _ = 2 ^ (t.mantBits + V.size + low) := by rw [pow_add, pow_add]
      _ ≤ 2 ^ (N.size - 1) := Nat.pow_le_pow_right (by omega) (by omega)
      _ ≤ N := nTop
  have quotientPositive : 0 < N / 2 ^ low / V := by
    have : 0 < 2 ^ t.mantBits := by positivity
    omega
  have position : ((low : Int) - 1 + 1).toNat = low := by omega
  have rest : ((false || !dtIsZero (rep (N / 2 ^ low % V))) || (decide ((low : Int) - 1 ≥ 0) &&
        dtLowBitsNonzero (rep N) ((low : Int) - 1 + 1).toNat)) = true ↔
      N % (2 ^ low * V) ≠ 0 := by
    rw [position, dtLowBitsNonzero_rep, dtIsZero_rep, Nat.mod_mul]
    have nothingBelow : low = 0 → N % 2 ^ low = 0 := by
      rintro rfl
      rw [pow_zero, Nat.mod_one]
    have unit : 2 ^ low ≠ 0 := by positivity
    generalize N / 2 ^ low % V = r at *
    generalize N % 2 ^ low = tail at *
    rw [Bool.false_or, Bool.or_eq_true, Bool.and_eq_true, decide_eq_true_iff,
      decide_eq_true_iff, Bool.not_eq_true', decide_eq_false_iff_not]
    exact rest_iff unit nothingBelow
  rw [Nat.div_div_eq_div_mul] at small precise quotientPositive
  simp only [rep_n_nonneg, if_false, Nat.div_div_eq_div_mul]
  rw [Nat.div_div_eq_div_mul] at loop
  rw [if_neg (by omega)]
  refine ⟨_, _, _, rfl, ?_, precise⟩
  have leading := leading_of_quotient t.mantBits (-(count : Int) - s2 + ((low : Int) - 1 + 1))
    (by positivity) rest quotientPositive small (fun _ => precise)
  have shift : (N : ℚ) / (2 ^ low * V : Nat) * 2 ^ (-(count : Int) - s2 + ((low : Int) - 1 + 1)) =
      N / V * 2 ^ (-(count : Int) - s2) := by
    rw [sub_add_cancel, zpow_add₀ (by norm_num), zpow_natCast]
    push_cast
    field_simp
  rw [shift, ← value] at leading
  exact leading

theorem divideDigits_leading (sound : t.Sound) {d count : Nat}
    (positive : 0 < d) (dBits : Bits d 3100) (few : count ≤ 1093) :
    ∃ M exp2 sticky, divideDigits t (rep d) (-(count : Int)) false = some (M, exp2, sticky) ∧
      Leading t.mantBits M exp2 sticky (d * 10 ^ (-(count : Int))) := by
  obtain ⟨M, exp2, sticky, result, leading, _⟩ :=
    divideDigits_precise sound positive dBits few
  exact ⟨M, exp2, sticky, result, leading⟩

/-- The number `d * 10 ^ k` with `ndig` digits, away from the range guards, is
rounded correctly. -/
theorem magnitudeBits_encodes (precision : Precision) {d ndig : Nat} {k : Int}
    (positive : 0 < d) (digits : d < 10 ^ ndig) (few : ndig ≤ dtMaxSigDigits)
    (noOverflow : k + ndig - 1 < (dtTarget precision).lOver)
    (noUnderflow : (dtTarget precision).lUnder < k + ndig - 1) :
    ∃ bits, magnitudeBits (dtTarget precision) (rep d) k (k + ndig - 1) false = some bits ∧
      (dtTarget precision).format.Encodes (d * 10 ^ k) bits := by
  have sound := dtTarget_sound precision
  have guards : (dtTarget precision).lOver ≤ 310 ∧ -327 ≤ (dtTarget precision).lUnder := by
    cases precision <;> decide
  have cap : dtMaxSigDigits = 768 := rfl
  have word := sound.word
  have dBits : Bits d (4 * ndig + 1) := (bits_ten_pow ndig).of_le digits.le
  unfold magnitudeBits
  rw [if_neg (by omega), if_neg (by omega)]
  by_cases nonneg : k ≥ 0
  · obtain ⟨count, rfl⟩ := Int.eq_ofNat_of_zero_le nonneg
    have bits : Bits (d * 5 ^ count) fullBits := by
      have product := dBits.mul (bits_five_pow count)
      exact product.mono (show _ ≤ 3584 by omega)
    obtain ⟨M, exp2, sticky, result, leading⟩ :=
      multiplyDigits_leading (dtTarget precision).mantBits positive bits (by omega)
    refine ⟨_, ?_, leading.encodes sound⟩
    rw [if_pos nonneg, result]
    rfl
  · obtain ⟨count, rfl⟩ : ∃ count : Nat, k = -(count : Int) := ⟨(-k).toNat, by omega⟩
    obtain ⟨M, exp2, sticky, result, leading⟩ :=
      divideDigits_leading sound positive (dBits.mono (by omega))
        (show count ≤ 1093 by omega)
    refine ⟨_, ?_, leading.encodes sound⟩
    rw [if_neg nonneg, result]
    rfl

theorem digitChar_spec {d : Nat} (small : d ≤ 9) :
    isDigit (digitChar d) = true ∧ digitOf (digitChar d) = d ∧ (digitChar d = '0' ↔ d = 0) := by
  interval_cases d <;> decide

/-- The state after digits that denote `v`, the last of them at `10 ^ k`. -/
structure ScanOf (v : Nat) (k : Int) (st : Scan) : Prop where
  d : st.d = rep v
  k : st.k = k
  sticky : st.sticky = false
  started : st.started = decide (v ≠ 0)
  upper : v < 10 ^ st.ndig
  lower : (v = 0 ∧ st.ndig = 0) ∨ 10 ^ st.ndig ≤ 10 * v

theorem scanOf_start : ScanOf 0 0 Scan.start := by
  constructor <;> first | rfl | decide

theorem pushDigit_scan {v d : Nat} {k : Int} {st : Scan} (scan : ScanOf v k st)
    (small : d ≤ 9) (room : st.ndig < dtMaxSigDigits) (significant : v ≠ 0 ∨ d ≠ 0) :
    (st.pushDigit (digitChar d)).d = rep (10 * v + d) ∧
      10 * v + d < 10 ^ (st.ndig + 1) ∧ 10 ^ (st.ndig + 1) ≤ 10 * (10 * v + d) := by
  have upper := scan.upper
  have cap : dtMaxSigDigits = 768 := rfl
  have radixStep : 10 ^ (st.ndig + 1) = 10 * 10 ^ st.ndig := by ring
  have vBits : Bits v (4 * st.ndig + 1) := (bits_ten_pow st.ndig).of_le upper.le
  have product : Bits (v * 10) 3100 :=
    (vBits.mul (bits_small (show 10 < 16 by omega) le_rfl)).mono (by omega)
  have sum : Bits (v * 10 + d) fullBits :=
    (product.add (bits_small (show d < 16 by omega) (by omega))).mono (by decide)
  have sumSmall := lt_capacity sum
  refine ⟨?_, by omega, ?_⟩
  · simp only [Scan.pushDigit, scan.d, (digitChar_spec small).2.1]
    rw [dtMul_bits (by omega) (by omega) (product.mono (by decide)),
      dtAddU32_rep (by omega) (by omega), big_of_lt sumSmall, Nat.mul_comm]
  · rcases scan.lower with ⟨rfl, zero⟩ | lower
    · rw [zero]
      omega
    · omega

theorem intDigit_scan {v d : Nat} {k : Int} {st : Scan} (scan : ScanOf v k st)
    (small : d ≤ 9) (room : st.ndig < dtMaxSigDigits) :
    ScanOf (10 * v + d) k (intDigit st (digitChar d)) ∧
      (intDigit st (digitChar d)).ndig ≤ st.ndig + 1 ∧
      (intDigit st (digitChar d)).anyDigit = true := by
  unfold intDigit
  simp only [scan.started, (digitChar_spec small).2.2]
  by_cases leading : v = 0 ∧ d = 0
  · obtain ⟨rfl, rfl⟩ := leading
    obtain ⟨d, k, sticky, -, upper, lower⟩ := scan
    exact ⟨⟨d, k, sticky, rfl, upper, lower⟩, by simp, by simp⟩
  · have significant : v ≠ 0 ∨ d ≠ 0 := by omega
    have skip : ¬ (!decide (v ≠ 0) && decide (d = 0)) = true := by
      simp only [Bool.and_eq_true, Bool.not_eq_true', decide_eq_false_iff_not, decide_eq_true_eq]
      omega
    obtain ⟨value, upper, lower⟩ := pushDigit_scan scan small room significant
    rw [if_neg skip, if_pos room]
    refine ⟨⟨value, scan.k, scan.sticky, ?_, upper, Or.inr lower⟩, le_rfl, rfl⟩
    exact (decide_eq_true (show 10 * v + d ≠ 0 by omega)).symm

theorem fracDigit_scan {v d : Nat} {k : Int} {st : Scan} (scan : ScanOf v k st)
    (small : d ≤ 9) (room : st.ndig < dtMaxSigDigits) :
    ScanOf (10 * v + d) (k - 1) (fracDigit st (digitChar d)) ∧
      (fracDigit st (digitChar d)).ndig ≤ st.ndig + 1 ∧
      (fracDigit st (digitChar d)).anyDigit = true := by
  unfold fracDigit
  simp only [scan.started, (digitChar_spec small).2.2]
  by_cases leading : v = 0 ∧ d = 0
  · obtain ⟨rfl, rfl⟩ := leading
    obtain ⟨d, k, sticky, -, upper, lower⟩ := scan
    refine ⟨⟨d, ?_, sticky, rfl, upper, lower⟩, by simp, by simp⟩
    simp [k]
  · have significant : v ≠ 0 ∨ d ≠ 0 := by omega
    have skip : ¬ (!decide (v ≠ 0) && decide (d = 0)) = true := by
      simp only [Bool.and_eq_true, Bool.not_eq_true', decide_eq_false_iff_not, decide_eq_true_eq]
      omega
    obtain ⟨value, upper, lower⟩ := pushDigit_scan scan small room significant
    rw [if_neg skip, if_pos room]
    refine ⟨⟨value, ?_, scan.sticky, ?_, upper, Or.inr lower⟩, le_rfl, rfl⟩
    · simp [scan.k]
    · exact (decide_eq_true (show 10 * v + d ≠ 0 by omega)).symm

/-- The text goes on with something else than a digit. -/
def NoDigit (text : List Char) : Prop :=
  ∀ c ∈ text.head?, isDigit c = false

theorem digitLoop_stop {body : Scan → Char → Scan} {st : Scan} {rest : List Char}
    (noDigit : NoDigit rest) : digitLoop body st rest = (st, rest) := by
  cases rest with
  | nil => rfl
  | cons c rest => rw [digitLoop, noDigit c rfl, if_neg (by simp)]

theorem digitLoop_scan {body : Scan → Char → Scan} (step : Int)
    (bodySpec : ∀ {v d : Nat} {k : Int} {st : Scan}, ScanOf v k st → d ≤ 9 →
      st.ndig < dtMaxSigDigits →
      ScanOf (10 * v + d) (k - step) (body st (digitChar d)) ∧
        (body st (digitChar d)).ndig ≤ st.ndig + 1 ∧
        (body st (digitChar d)).anyDigit = true)
    {rest : List Char} (noDigit : NoDigit rest) (digits : List Nat)
    (small : ∀ d ∈ digits, d ≤ 9) {v : Nat} {k : Int} {st : Scan}
    (scan : ScanOf v k st) (room : st.ndig + digits.length ≤ dtMaxSigDigits) :
    ∃ st', digitLoop body st (digits.map digitChar ++ rest) = (st', rest) ∧
      ScanOf (v * 10 ^ digits.length + decimalValue digits) (k - step * digits.length) st' ∧
      st'.ndig ≤ st.ndig + digits.length ∧
      (st.anyDigit = true ∨ digits ≠ [] → st'.anyDigit = true) := by
  induction digits generalizing v k st with
  | nil =>
      refine ⟨st, digitLoop_stop noDigit, ?_, by simp, by simp⟩
      simpa [decimalValue] using scan
  | cons d ds induction =>
      have dSmall := small d List.mem_cons_self
      rw [List.length_cons] at room
      obtain ⟨next, nextCount, nextAny⟩ := bodySpec scan dSmall (by omega)
      obtain ⟨st', result, scan', count, any⟩ :=
        induction (fun digit member => small digit (List.mem_cons_of_mem _ member)) next
          (by omega)
      refine ⟨st', ?_, ?_, ?_, fun _ => any (Or.inl nextAny)⟩
      · rw [List.map_cons, List.cons_append, digitLoop, (digitChar_spec dSmall).1, if_pos rfl]
        exact result
      · have exponent : k - step * ((d :: ds).length : Nat) =
            k - step - step * (ds.length : Nat) := by
          rw [List.length_cons]
          push_cast
          ring
        rw [decimalValue_cons, exponent]
        exact scan'
      · rw [List.length_cons]
        omega

def fractionText : Option (List Nat) → List Char
  | none => []
  | some digits => '.' :: digits.map digitChar

/-- The exponent of a token: whether it is negative, and its digits. -/
def exponentText : Option (Bool × List Nat) → List Char
  | none => []
  | some (negative, digits) =>
      'e' :: (if negative then '-' else '+') :: digits.map digitChar

def exponentValue : Option (Bool × List Nat) → Int
  | none => 0
  | some (negative, digits) =>
      if negative then -(decimalValue digits : Int) else decimalValue digits

/-- Decimal digits of a float token, short enough to be read exactly. -/
structure Token where
  whole : List Nat
  fraction : Option (List Nat)
  exponent : Option (Bool × List Nat)

namespace Token

def text (token : Token) : List Char :=
  token.whole.map digitChar ++ (fractionText token.fraction ++ exponentText token.exponent)

def digits (token : Token) : List Nat :=
  token.whole ++ token.fraction.getD []

def value (token : Token) : ℚ :=
  decimalValue token.digits *
    10 ^ (exponentValue token.exponent - (token.fraction.getD []).length)

structure Readable (token : Token) : Prop where
  whole : token.whole ≠ []
  small : ∀ d ∈ token.digits, d ≤ 9
  length : token.digits.length ≤ dtMaxSigDigits
  exponent : ∀ negative digits, token.exponent = some (negative, digits) →
    digits ≠ [] ∧ (∀ d ∈ digits, d ≤ 9) ∧ decimalValue digits < 100000

end Token

theorem noDigit_exponent (exponent : Option (Bool × List Nat)) :
    NoDigit (exponentText exponent) := by
  cases exponent with
  | none =>
      intro c member
      cases member
  | some parts =>
      intro c member
      cases member
      rfl

theorem noDigit_fraction (fraction : Option (List Nat)) (exponent : Option (Bool × List Nat)) :
    NoDigit (fractionText fraction ++ exponentText exponent) := by
  cases fraction with
  | none => exact noDigit_exponent exponent
  | some digits =>
      intro c member
      cases member
      rfl

theorem exponentLoop_digits (digits : List Nat) (small : ∀ d ∈ digits, d ≤ 9) {v : Nat}
    {a : Bool} (bound : v * 10 ^ digits.length + decimalValue digits < 100000) :
    exponentLoop v a (digits.map digitChar) =
      (v * 10 ^ digits.length + decimalValue digits, a || digits ≠ [], []) := by
  induction digits generalizing v a with
  | nil => simp [exponentLoop, decimalValue]
  | cons d ds induction =>
      have dSmall := small d List.mem_cons_self
      rw [decimalValue_cons, Nat.mul_comm 10 v] at bound ⊢
      have notYet : v < 100000 := by
        have : v * 10 + d ≤ (v * 10 + d) * 10 ^ ds.length :=
          Nat.le_mul_of_pos_right _ (by positivity)
        omega
      rw [List.map_cons, exponentLoop, (digitChar_spec dSmall).1, if_pos rfl,
        (digitChar_spec dSmall).2.1, if_pos notYet,
        induction (fun digit member => small digit (List.mem_cons_of_mem _ member)) bound]
      simp

theorem parseExponent_text {exponent : Option (Bool × List Nat)}
    (readable : ∀ negative digits, exponent = some (negative, digits) →
      digits ≠ [] ∧ (∀ d ∈ digits, d ≤ 9) ∧ decimalValue digits < 100000) :
    parseExponent (exponentText exponent) = some (exponentValue exponent, []) := by
  cases exponent with
  | none => rfl
  | some parts =>
      obtain ⟨negative, digits⟩ := parts
      obtain ⟨nonempty, small, bound⟩ := readable negative digits rfl
      have loop := exponentLoop_digits digits small (v := 0) (a := false) (by simpa)
      rw [Nat.zero_mul, Nat.zero_add] at loop
      cases negative with
      | false => simp [exponentText, exponentValue, parseExponent, takeSign, loop, nonempty]
      | true => simp [exponentText, exponentValue, parseExponent, takeSign, loop, nonempty]

theorem scanToken_text {token : Token} (readable : token.Readable) :
    ∃ st v k, scanToken token.text = some (st, exponentValue token.exponent) ∧
      ScanOf v k st ∧ st.ndig ≤ dtMaxSigDigits ∧
      token.value = v * 10 ^ (k + exponentValue token.exponent) := by
  obtain ⟨wholeNonempty, small, length, exponentReadable⟩ := readable
  obtain ⟨whole, fraction, exponent⟩ := token
  simp only [Token.digits, List.length_append] at small length exponentReadable wholeNonempty
  have wholeSmall : ∀ d ∈ whole, d ≤ 9 :=
    fun d member => small d (List.mem_append_left _ member)
  obtain ⟨st, wholeResult, wholeScan, wholeCount, wholeAny⟩ :=
    digitLoop_scan 0
      (fun scan digit room => by
        rw [sub_zero]
        exact intDigit_scan scan digit room)
      (noDigit_fraction fraction exponent) whole wholeSmall scanOf_start
      (by
        have : Scan.start.ndig = 0 := rfl
        omega)
  have any := wholeAny (Or.inr wholeNonempty)
  rw [Nat.zero_mul, Nat.zero_add, Int.zero_mul, sub_zero] at wholeScan
  have startCount : Scan.start.ndig = 0 := rfl
  have exponentEnd := parseExponent_text exponentReadable
  unfold scanToken Token.text
  dsimp only
  rw [wholeResult]
  dsimp only
  cases fraction with
  | none =>
      have skip : scanFraction st (fractionText none ++ exponentText exponent) =
          (st, exponentText exponent) := by
        cases exponent with
        | none => rfl
        | some parts => rfl
      rw [skip]
      dsimp only
      rw [any, exponentEnd]
      refine ⟨st, _, _, rfl, wholeScan, by omega, ?_⟩
      simp [Token.value, Token.digits]
  | some digits =>
      have fractionSmall : ∀ d ∈ digits, d ≤ 9 :=
        fun d member => small d (List.mem_append_right _ member)
      rw [Option.getD_some] at length
      obtain ⟨st', result, scan, count, fractionAny⟩ :=
        digitLoop_scan 1 fracDigit_scan (noDigit_exponent exponent) digits
          fractionSmall wholeScan (by omega)
      have any' := fractionAny (Or.inl any)
      simp only [fractionText, List.cons_append, scanFraction]
      rw [result]
      dsimp only
      rw [any', exponentEnd]
      refine ⟨st', _, _, rfl, scan, by omega, ?_⟩
      simp only [Token.value, Token.digits, Option.getD_some, decimalValue_append]
      congr 1
      ring_nf

theorem clParseFloatExact_token (precision : Precision) {token : Token}
    (readable : token.Readable) (positive : 0 < token.value)
    (noOverflow : token.value < 10 ^ ((dtTarget precision).lOver - 1))
    (noUnderflow : 10 ^ ((dtTarget precision).lUnder + 1) ≤ token.value)
    (negative : Bool) :
    ∃ mag, clParseFloatExact precision
        ((if negative then ['-'] else []) ++ token.text) =
          some (signBits precision negative ||| mag) ∧
      (dtTarget precision).format.Encodes token.value mag := by
  obtain ⟨st, v, k, scanned, scan, few, value⟩ := scanToken_text readable
  have sign : takeSign ((if negative then ['-'] else []) ++ token.text) =
      (negative, token.text) := by
    cases negative with
    | true => rfl
    | false =>
        obtain ⟨whole, fraction, exponent⟩ := token
        cases whole with
        | nil => exact (readable.whole rfl).elim
        | cons d ds =>
            have small : d ≤ 9 := readable.small d (by simp [Token.digits])
            have notSign : ¬ (digitChar d = '+' ∨ digitChar d = '-') := by
              interval_cases d <;> decide
            simp [Token.text, takeSign, notSign]
  rw [value] at positive noOverflow noUnderflow ⊢
  have powerPositive : (0 : ℚ) < 10 ^ (k + exponentValue token.exponent) := by positivity
  have vPositive : 0 < v := by
    have : (0 : ℚ) < v := (pos_iff_pos_of_mul_pos positive).mpr powerPositive
    exact_mod_cast this
  generalize exponentValue token.exponent = e at *
  have upper : (v : ℚ) * 10 ^ (k + e) < 10 ^ (k + e + st.ndig) := by
    have : (v : ℚ) < (10 ^ st.ndig : Nat) := by exact_mod_cast scan.upper
    rw [zpow_add₀ (by norm_num) (k + e), mul_comm, zpow_natCast]
    push_cast at this
    exact mul_lt_mul_of_pos_left this powerPositive
  have lower : (10 : ℚ) ^ (k + e + st.ndig) ≤ 10 * (v * 10 ^ (k + e)) := by
    have digits : 10 ^ st.ndig ≤ 10 * v := by
      rcases scan.lower with ⟨zero, -⟩ | lower
      · omega
      · exact lower
    have : ((10 ^ st.ndig : Nat) : ℚ) ≤ (10 * v : Nat) := by exact_mod_cast digits
    push_cast at this
    rw [zpow_add₀ (by norm_num) (k + e), zpow_natCast]
    calc
      (10 : ℚ) ^ (k + e) * 10 ^ st.ndig ≤ 10 ^ (k + e) * (10 * v) :=
        mul_le_mul_of_nonneg_left this powerPositive.le
      _ = 10 * (v * 10 ^ (k + e)) := by ring
  have mono : ∀ {i j : Int}, (10 : ℚ) ^ i < 10 ^ j → i < j :=
    fun less => (zpow_lt_zpow_iff_right₀ (by norm_num)).mp less
  have leadingHigh : k + e + st.ndig - 1 < (dtTarget precision).lOver := by
    have step : (10 : ℚ) ^ (dtTarget precision).lOver =
        10 * 10 ^ ((dtTarget precision).lOver - 1) := by
      rw [← zpow_one_add₀ (by norm_num)]
      congr 1
      ring
    have : (10 : ℚ) ^ (k + e + st.ndig) < 10 ^ (dtTarget precision).lOver := by
      rw [step]
      linarith
    have := mono this
    omega
  have leadingLow : (dtTarget precision).lUnder < k + e + st.ndig - 1 := by
    have := mono (noUnderflow.trans_lt upper)
    omega
  obtain ⟨mag, result, encodes⟩ :=
    magnitudeBits_encodes precision vPositive scan.upper few leadingHigh leadingLow
  refine ⟨mag, ?_, encodes⟩
  unfold clParseFloatExact
  rw [sign]
  dsimp only
  rw [scanned]
  have nonzero : v ≠ 0 := by omega
  simp only [Option.bind_eq_bind, Option.bind_some, scan.d, scan.k, scan.sticky,
    dtIsZero_rep, nonzero, decide_false, Bool.false_eq_true, if_false, rep_n_nonneg,
    result]
  rfl

end ClAmiga.Float
