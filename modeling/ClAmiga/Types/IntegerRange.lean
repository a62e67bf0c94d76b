import Mathlib.Order.Interval.Set.Basic
import ClAmiga.Types.IntegerSpecifier

/-!
# Integer specifiers denote their ranges

For every specifier whose bounds are computed, the range that
`parse_integer_spec` returns has exactly the integers that TYPEP accepts.  The
comparison of two ranges then decides inclusion, an empty range being one whose
bounds are exchanged.
-/

namespace ClAmiga.Types

open Number (clFixnumMin clFixnumMax InFixnumRange floorShift floorShift_of_nonneg
  floorShift_of_nonpos)

abbrev Fixnum := { n : Int // InFixnumRange n }

/-- A bound of `(INTEGER low high)`. -/
inductive Limit where
  | star
  | inclusive (bound : Fixnum)
  | exclusive (bound : Fixnum)

namespace Limit

def form : Limit → Form
  | star => .cl "*"
  | inclusive bound => .integer bound
  | exclusive bound => .list [.integer bound]

def low : Limit → Int
  | star => intRangeLoInf
  | inclusive bound => bound
  | exclusive bound => bound + 1

def high : Limit → Int
  | star => intRangeHiInf
  | inclusive bound => bound
  | exclusive bound => bound - 1

end Limit

inductive IntegerSpecifier where
  | integer
  | fixnum
  | bit
  | unsignedByte
  | signedByte
  | integerUnbounded
  | integerFrom (low : Limit)
  | integerBetween (low high : Limit)
  | mod (n : Nat)
  | unsignedByteOf (n : Int) (small : n < 62)
  | signedByteOf (n : Int) (positive : 1 ≤ n) (small : n ≤ 63)

namespace IntegerSpecifier

def form : IntegerSpecifier → Form
  | integer => .cl "INTEGER"
  | fixnum => .cl "FIXNUM"
  | bit => .cl "BIT"
  | unsignedByte => .cl "UNSIGNED-BYTE"
  | signedByte => .cl "SIGNED-BYTE"
  | integerUnbounded => .list [.cl "INTEGER"]
  | integerFrom low => .list [.cl "INTEGER", low.form]
  | integerBetween low high => .list [.cl "INTEGER", low.form, high.form]
  | mod n => .list [.cl "MOD", .integer n]
  | unsignedByteOf n _ => .list [.cl "UNSIGNED-BYTE", .integer n]
  | signedByteOf n _ _ => .list [.cl "SIGNED-BYTE", .integer n]

def members (others : OtherTypes) (specifier : IntegerSpecifier) : Set Int :=
  { x | typepCheck others x specifier.form = some true }

/-- The specifiers whose range is computed: the argument of MOD is a fixnum and
the argument of UNSIGNED-BYTE is not negative. -/
def Bounded : IntegerSpecifier → Prop
  | mod n => (n : Int) ≤ clFixnumMax
  | unsignedByteOf n _ => 0 ≤ n
  | _ => True

instance (specifier : IntegerSpecifier) : Decidable specifier.Bounded := by
  cases specifier <;> unfold Bounded <;> infer_instance

def range : IntegerSpecifier → IntRange
  | integer | signedByte | integerUnbounded => .between intRangeLoInf intRangeHiInf
  | fixnum => .between clFixnumMin clFixnumMax
  | bit => .between 0 1
  | unsignedByte => .between 0 intRangeHiInf
  | integerFrom low => .between low.low intRangeHiInf
  | integerBetween low high => .between low.low high.high
  | mod n => if n = 0 then .between 1 0 else .between 0 (n - 1)
  | unsignedByteOf n _ => .between 0 (2 ^ n.toNat - 1)
  | signedByteOf n _ _ => .between (-2 ^ (n - 1).toNat) (2 ^ (n - 1).toNat - 1)

end IntegerSpecifier

namespace IntRange

def members (r : IntRange) : Set Int :=
  { x | (r.lo = intRangeLoInf ∨ r.lo ≤ x) ∧ (r.hi = intRangeHiInf ∨ x ≤ r.hi) }

/-- A computed range: its ends are 64-bit numbers, and each sentinel stands at
its own side only. -/
structure Proper (r : IntRange) : Prop where
  known : r.known = true
  integerTyped : r.integerTyped = true
  lo_ge : intRangeLoInf ≤ r.lo
  lo_lt : r.lo < intRangeHiInf
  hi_gt : intRangeLoInf < r.hi
  hi_le : r.hi ≤ intRangeHiInf

theorem nonempty_iff {r : IntRange} (proper : r.Proper) : r.members.Nonempty ↔ r.lo ≤ r.hi := by
  constructor
  · rintro ⟨x, above, below⟩
    have loLower := proper.lo_lt
    have hiUpper := proper.hi_gt
    rcases above with infinite | above
    · omega
    · rcases below with infinite | below
      · omega
      · exact above.trans below
  · intro order
    exact ⟨r.lo, Or.inr le_rfl, Or.inr order⟩

theorem subset_iff {r₁ r₂ : IntRange} (proper₁ : r₁.Proper) (proper₂ : r₂.Proper)
    (order : r₁.lo ≤ r₁.hi) :
    r₁.members ⊆ r₂.members ↔ r₂.lo ≤ r₁.lo ∧ r₁.hi ≤ r₂.hi := by
  have loGe := proper₁.lo_ge
  have hiLe := proper₁.hi_le
  have loLt := proper₂.lo_lt
  have hiGt := proper₂.hi_gt
  constructor
  · intro subset
    constructor
    · by_contra below
      -- An integer of the first range just below the second one.
      have mem : min r₁.hi (r₂.lo - 1) ∈ r₁.members := by
        refine ⟨?_, Or.inr (min_le_left _ _)⟩
        by_cases infinite : r₁.lo = intRangeLoInf
        · exact Or.inl infinite
        · exact Or.inr (le_min order (by omega))
      have outside := min_le_right r₁.hi (r₂.lo - 1)
      rcases (subset mem).1 with infinite | above
      · omega
      · omega
    · by_contra above
      have mem : max r₁.lo (r₂.hi + 1) ∈ r₁.members := by
        refine ⟨Or.inr (le_max_left _ _), ?_⟩
        by_cases infinite : r₁.hi = intRangeHiInf
        · exact Or.inl infinite
        · exact Or.inr (max_le order (by omega))
      have outside := le_max_right r₁.lo (r₂.hi + 1)
      rcases (subset mem).2 with infinite | below
      · omega
      · omega
  · rintro ⟨lo, hi⟩ x ⟨above, below⟩
    refine ⟨?_, ?_⟩
    · rcases above with infinite | above
      · exact Or.inl (le_antisymm (by omega) proper₂.lo_ge)
      · exact Or.inr (lo.trans above)
    · rcases below with infinite | below
      · exact Or.inl (le_antisymm proper₂.hi_le (by omega))
      · exact Or.inr (below.trans hi)

theorem compareRanges_decides {r₁ r₂ : IntRange} (proper₁ : r₁.Proper) (proper₂ : r₂.Proper) :
    (compareRanges r₁ r₂ = 1 ∧ r₁.members ⊆ r₂.members) ∨
      (compareRanges r₁ r₂ = 0 ∧ ¬ r₁.members ⊆ r₂.members) := by
  unfold compareRanges
  rw [if_neg (by simp [proper₁.known, proper₂.known])]
  by_cases empty₁ : r₁.lo > r₁.hi
  · have none : r₁.members = ∅ := by
      rw [← Set.not_nonempty_iff_eq_empty, nonempty_iff proper₁]
      omega
    exact Or.inl ⟨if_pos empty₁, by simp [none]⟩
  · rw [if_neg empty₁]
    have order : r₁.lo ≤ r₁.hi := by omega
    by_cases empty₂ : r₂.lo > r₂.hi
    · refine Or.inr ⟨if_pos empty₂, fun subset => ?_⟩
      have some := ((nonempty_iff proper₁).mpr order).mono subset
      rw [nonempty_iff proper₂] at some
      omega
    · rw [if_neg empty₂, subset_iff proper₁ proper₂ order]
      by_cases inside : r₁.lo ≥ r₂.lo ∧ r₁.hi ≤ r₂.hi
      · exact Or.inl ⟨if_pos inside, inside⟩
      · exact Or.inr ⟨if_neg inside, inside⟩

theorem members_between {lo hi : Int} (loFinite : lo ≠ intRangeLoInf)
    (hiFinite : hi ≠ intRangeHiInf) :
    (between lo hi).members = Set.Icc lo hi := by
  ext x
  simp [members, between, loFinite, hiFinite]

end IntRange

theorem Limit.parse_low (limit : Limit) :
    ∃ infinite, parseIntBound true limit.form = some (limit.low, infinite) := by
  cases limit with
  | star => exact ⟨true, rfl⟩
  | inclusive bound => exact ⟨false, by simp [form, low, parseIntBound, bound.2]⟩
  | exclusive bound =>
      exact ⟨false, by simp [form, low, Form.list, parseIntBound, bound.2]⟩

theorem Limit.parse_high (limit : Limit) :
    ∃ infinite, parseIntBound false limit.form = some (limit.high, infinite) := by
  cases limit with
  | star => exact ⟨true, rfl⟩
  | inclusive bound => exact ⟨false, by simp [form, high, parseIntBound, bound.2]⟩
  | exclusive bound =>
      exact ⟨false, by simp [form, high, Form.list, parseIntBound, bound.2]⟩

theorem Limit.low_ge (limit : Limit) : intRangeLoInf ≤ limit.low := by
  cases limit with
  | star => exact le_rfl
  | inclusive bound | exclusive bound =>
      have := bound.2.1
      unfold clFixnumMin at this
      simp only [low, intRangeLoInf]
      omega

theorem Limit.low_lt (limit : Limit) : limit.low < intRangeHiInf := by
  cases limit with
  | star => decide
  | inclusive bound | exclusive bound =>
      have := bound.2.2
      unfold clFixnumMax at this
      simp only [low, intRangeHiInf]
      omega

theorem Limit.high_gt (limit : Limit) : intRangeLoInf < limit.high := by
  cases limit with
  | star => decide
  | inclusive bound | exclusive bound =>
      have := bound.2.1
      unfold clFixnumMin at this
      simp only [high, intRangeLoInf]
      omega

theorem Limit.high_le (limit : Limit) : limit.high ≤ intRangeHiInf := by
  cases limit with
  | star => exact le_rfl
  | inclusive bound | exclusive bound =>
      have := bound.2.2
      unfold clFixnumMax at this
      simp only [high, intRangeHiInf]
      omega

theorem IntRange.Proper.between {lo hi : Int} (loGe : intRangeLoInf ≤ lo)
    (loLt : lo < intRangeHiInf) (hiGt : intRangeLoInf < hi)
    (hiLe : hi ≤ intRangeHiInf) : (IntRange.between lo hi).Proper :=
  { known := rfl
    integerTyped := rfl
    lo_ge := loGe
    lo_lt := loLt
    hi_gt := hiGt
    hi_le := hiLe }

theorem power_bounds {bits : Nat} (few : bits ≤ 62) :
    0 < (2 : Int) ^ bits ∧ (2 : Int) ^ bits ≤ 4611686018427387904 := by
  constructor
  · positivity
  · calc
      (2 : Int) ^ bits ≤ 2 ^ 62 := pow_le_pow_right₀ (by decide) few
      _ = 4611686018427387904 := by decide

/-- TYPEP rejects an integer at a lower bound exactly when it lies below the
parsed bound. -/
theorem Limit.lowBoundFails_form (limit : Limit) (others : OtherTypes) (x : Int) :
    lowBoundFails others x limit.form =
      some (!decide (limit.low = intRangeLoInf ∨ limit.low ≤ x)) := by
  cases limit with
  | star => rfl
  | inclusive bound =>
      have finite : (bound : Int) ≠ intRangeLoInf := by
        have := bound.2.1
        unfold clFixnumMin at this
        unfold intRangeLoInf
        omega
      simp [lowBoundFails, form, clArithCompareBound, low, Form.cl, finite,
        beq_eq_decide, compare_lt_iff_lt, ← decide_not]
  | exclusive bound =>
      have finite : (bound : Int) + 1 ≠ intRangeLoInf := by
        have := bound.2.1
        unfold clFixnumMin at this
        unfold intRangeLoInf
        omega
      simp [lowBoundFails, form, Form.list, clArithCompareBound, low, Form.cl, finite,
        bne, beq_eq_decide, compare_gt_iff_gt]

theorem Limit.highBoundFails_form (limit : Limit) (others : OtherTypes) (x : Int) :
    highBoundFails others x limit.form =
      some (!decide (limit.high = intRangeHiInf ∨ x ≤ limit.high)) := by
  cases limit with
  | star => rfl
  | inclusive bound =>
      have finite : (bound : Int) ≠ intRangeHiInf := by
        have := bound.2.2
        unfold clFixnumMax at this
        unfold intRangeHiInf
        omega
      simp [highBoundFails, form, clArithCompareBound, high, Form.cl, finite,
        beq_eq_decide, compare_gt_iff_gt, ← decide_not]
  | exclusive bound =>
      have finite : (bound : Int) - 1 ≠ intRangeHiInf := by
        have := bound.2.2
        unfold clFixnumMax at this
        unfold intRangeHiInf
        omega
      simp [highBoundFails, form, Form.list, clArithCompareBound, high, Form.cl,
        finite, bne, beq_eq_decide, compare_lt_iff_lt]

namespace IntegerSpecifier

theorem parse_form (specifier : IntegerSpecifier) (bounded : specifier.Bounded) :
    parseIntegerSpec specifier.form = some specifier.range := by
  cases specifier with
  | integer | fixnum | bit | unsignedByte | signedByte | integerUnbounded => rfl
  | integerFrom low =>
      obtain ⟨infinite, parsed⟩ := low.parse_low
      simp [form, range, Form.list, Form.cl, Symbol.cl, parseIntegerSpec,
        parseIntegerBounds, parsed]
  | integerBetween low high =>
      obtain ⟨_, parsedLow⟩ := low.parse_low
      obtain ⟨_, parsedHigh⟩ := high.parse_high
      simp [form, range, Form.list, Form.cl, Symbol.cl, parseIntegerSpec,
        parseIntegerBounds, parsedLow, parsedHigh]
  | mod n =>
      have fixnum : InFixnumRange n := ⟨by unfold clFixnumMin; omega, bounded⟩
      by_cases zero : n = 0
      · subst zero
        rfl
      · simp [form, range, Form.list, Form.cl, Symbol.cl, parseIntegerSpec, parseMod,
          fixnum, zero, Nat.pos_of_ne_zero zero]
  | unsignedByteOf n small =>
      have fixnum : InFixnumRange n :=
        ⟨by unfold clFixnumMin; unfold Bounded at bounded; omega,
          by unfold clFixnumMax; omega⟩
      have nonneg : 0 ≤ n := bounded
      simp [form, range, Form.list, Form.cl, Symbol.cl, parseIntegerSpec,
        parseUnsignedByte, fixnum, nonneg, small]
  | signedByteOf n positive small =>
      have fixnum : InFixnumRange n :=
        ⟨by unfold clFixnumMin; omega, by unfold clFixnumMax; omega⟩
      simp [form, range, Form.list, Form.cl, Symbol.cl, parseIntegerSpec,
        parseSignedByte, fixnum, positive, small]

theorem parse_unbounded (specifier : IntegerSpecifier) (unbounded : ¬ specifier.Bounded) :
    parseIntegerSpec specifier.form = some .punt := by
  cases specifier with
  | mod n =>
      have bignum : ¬ InFixnumRange n := fun fixnum => unbounded fixnum.2
      simp [form, Form.list, Form.cl, Symbol.cl, parseIntegerSpec, parseMod, bignum]
  | unsignedByteOf n small =>
      have negative : ¬ 0 ≤ n := unbounded
      simp [form, Form.list, Form.cl, Symbol.cl, parseIntegerSpec, parseUnsignedByte, negative]
  | _ => exact absurd trivial unbounded

theorem range_proper (specifier : IntegerSpecifier) (bounded : specifier.Bounded) :
    specifier.range.Proper := by
  cases specifier with
  | integer | fixnum | bit | unsignedByte | signedByte | integerUnbounded =>
      exact .between (by decide) (by decide) (by decide) (by decide)
  | integerFrom low =>
      exact .between low.low_ge low.low_lt (by decide) (by decide)
  | integerBetween low high =>
      exact .between low.low_ge low.low_lt high.high_gt high.high_le
  | mod n =>
      have fixnum : (n : Int) ≤ clFixnumMax := bounded
      unfold clFixnumMax at fixnum
      simp only [range]
      split
      · exact .between (by decide) (by decide) (by decide) (by decide)
      · exact .between (by decide) (by decide)
          (by unfold intRangeLoInf; omega) (by unfold intRangeHiInf; omega)
  | unsignedByteOf n small =>
      have bits : n.toNat ≤ 62 := by omega
      obtain ⟨positive, bound⟩ := power_bounds bits
      exact .between (by decide) (by decide)
        (by unfold intRangeLoInf; omega) (by unfold intRangeHiInf; omega)
  | signedByteOf n _ small =>
      have bits : (n - 1).toNat ≤ 62 := by omega
      obtain ⟨positive, bound⟩ := power_bounds bits
      exact .between (by unfold intRangeLoInf; omega) (by unfold intRangeHiInf; omega)
        (by unfold intRangeLoInf; omega) (by unfold intRangeHiInf; omega)

theorem mem_mod (others : OtherTypes) (n : Nat) (x : Int) :
    x ∈ (mod n).members others ↔ 0 ≤ x ∧ x < n := by
  by_cases negative : x < 0
  · simp [members, form, Form.cl, Symbol.cl, Form.list, typepCheck,
      isNumericHead, typepMod, negative]
  · simp [members, form, Form.cl, Symbol.cl, Form.list, typepCheck,
      isNumericHead, typepMod, negative]
    omega

theorem mem_members_iff (others : OtherTypes) (specifier : IntegerSpecifier)
    (bounded : specifier.Bounded) (x : Int) :
    x ∈ specifier.members others ↔ x ∈ specifier.range.members := by
  cases specifier with
  | integer | signedByte =>
      simp [members, form, range, Form.cl, typepCheck, typepSymbol,
        IntRange.members, IntRange.between]
  | fixnum =>
      rw [range, IntRange.members_between (by decide) (by decide)]
      simp only [members, form, Form.cl, Symbol.cl, typepCheck, typepSymbol]
      simp
      rfl
  | bit =>
      rw [range, IntRange.members_between (by decide) (by decide)]
      simp only [members, form, Form.cl, Symbol.cl, typepCheck, typepSymbol]
      simp
      omega
  | unsignedByte =>
      simp [members, form, range, Form.cl, Symbol.cl, typepCheck, typepSymbol,
        IntRange.members, IntRange.between, intRangeLoInf]
  | integerUnbounded =>
      simp [members, form, range, Form.cl, Symbol.cl, Form.list, typepCheck,
        isNumericHead, checkNumericRange, integerOfBase, IntRange.members,
        IntRange.between]
  | integerFrom low =>
      have fails := low.lowBoundFails_form others x
      by_cases above : low.low = intRangeLoInf ∨ low.low ≤ x <;>
        simp [members, form, range, Form.cl, Symbol.cl, Form.list, typepCheck,
          isNumericHead, checkNumericRange, integerOfBase, IntRange.members,
          IntRange.between, fails, above]
  | integerBetween low high =>
      have failsLow := low.lowBoundFails_form others x
      have failsHigh := high.highBoundFails_form others x
      by_cases above : low.low = intRangeLoInf ∨ low.low ≤ x <;>
        simp [members, form, range, Form.cl, Symbol.cl, Form.list, typepCheck,
          isNumericHead, checkNumericRange, integerOfBase, IntRange.members,
          IntRange.between, failsLow, failsHigh, above]
  | mod n =>
      rw [mem_mod]
      have finite : (n : Int) - 1 ≠ intRangeHiInf := by
        have fixnum : (n : Int) ≤ clFixnumMax := bounded
        unfold clFixnumMax at fixnum
        unfold intRangeHiInf
        omega
      simp only [range]
      split
      · rw [IntRange.members_between (by decide) (by decide), Set.mem_Icc]
        omega
      · rw [IntRange.members_between (by decide) finite, Set.mem_Icc]
        omega
  | unsignedByteOf n small =>
      have nonneg : 0 ≤ n := bounded
      have fixnum : InFixnumRange n :=
        ⟨by unfold clFixnumMin; omega, by unfold clFixnumMax; omega⟩
      have typep : x ∈ (unsignedByteOf n small).members others ↔ 0 ≤ x ∧ x < 2 ^ n.toNat := by
        by_cases negative : x < 0
        · simp [members, form, Form.cl, Symbol.cl, Form.list, typepCheck,
            isNumericHead, typepUnsignedByte, negative]
        · simp [members, form, Form.cl, Symbol.cl, Form.list, typepCheck,
            isNumericHead, typepUnsignedByte, negative, fixnum,
            floorShift_of_nonneg 1 nonneg]
          omega
      have bits : n.toNat ≤ 62 := by omega
      obtain ⟨_, bound⟩ := power_bounds bits
      rw [typep, range, IntRange.members_between (by decide)
        (by unfold intRangeHiInf; omega), Set.mem_Icc]
      omega
  | signedByteOf n positive small =>
      have fixnum : InFixnumRange n :=
        ⟨by unfold clFixnumMin; omega, by unfold clFixnumMax; omega⟩
      have typep : x ∈ (signedByteOf n positive small).members others ↔
          -2 ^ (n - 1).toNat ≤ x ∧ x < 2 ^ (n - 1).toNat := by
        simp [members, form, Form.cl, Symbol.cl, Form.list, typepCheck, isNumericHead,
          typepSignedByte, fixnum, floorShift_of_nonneg 1 (Int.sub_nonneg.mpr positive)]
        omega
      have bits : (n - 1).toNat ≤ 62 := by omega
      obtain ⟨_, bound⟩ := power_bounds bits
      rw [typep, range, IntRange.members_between (by unfold intRangeLoInf; omega)
        (by unfold intRangeHiInf; omega), Set.mem_Icc]
      omega

theorem members_eq (others : OtherTypes) (specifier : IntegerSpecifier)
    (bounded : specifier.Bounded) :
    specifier.members others = specifier.range.members :=
  Set.ext (specifier.mem_members_iff others bounded)

/-- A specifier whose range is not computed has no integers or some that no
storage class holds. -/
theorem exists_large_of_unbounded (others : OtherTypes)
    {specifier : IntegerSpecifier} (unbounded : ¬ specifier.Bounded)
    (inhabited : (specifier.members others).Nonempty) :
    ∃ x ∈ specifier.members others, 65535 < x := by
  cases specifier with
  | mod n =>
      have bignum : clFixnumMax < (n : Int) := not_le.mp unbounded
      unfold clFixnumMax at bignum
      exact ⟨n - 1, (mem_mod others n _).mpr (by omega), by omega⟩
  | unsignedByteOf n small =>
      have negative : n < 0 := not_le.mp unbounded
      refine ⟨65536, ?_, by decide⟩
      by_cases fixnum : InFixnumRange n
      · -- One shifted to the right is zero, and no integer is below zero bits.
        obtain ⟨x, member⟩ := inhabited
        have none : floorShift 1 n = 0 := by
          rw [floorShift_of_nonpos 1 negative.le]
          exact Int.ediv_eq_zero_of_lt (by decide) (one_lt_pow₀ (by decide) (by omega))
        by_cases below : x < 0 <;>
          simp [members, form, Form.cl, Symbol.cl, Form.list, typepCheck,
            isNumericHead, typepUnsignedByte, fixnum, none, below] at member
      · simp [members, form, Form.cl, Symbol.cl, Form.list, typepCheck,
          isNumericHead, typepUnsignedByte, fixnum]
  | _ => exact absurd trivial unbounded

end IntegerSpecifier

/-- A storage class of arrays: its classifier and the integers it holds. -/
inductive Storage where
  | bit
  | u8
  | s8
  | u16
  | s16

def Storage.classifier : Storage → Form → Option Bool
  | bit => clTypeIsBitSubtype
  | u8 => clTypeIsU8Subtype
  | s8 => clTypeIsS8Subtype
  | u16 => clTypeIsU16Subtype
  | s16 => clTypeIsS16Subtype

def Storage.range : Storage → IntRange
  | bit => .between 0 1
  | u8 => .between 0 255
  | s8 => .between (-128) 127
  | u16 => .between 0 65535
  | s16 => .between (-32768) 32767

def Storage.holds (storage : Storage) : Set Int :=
  Set.Icc storage.range.lo storage.range.hi

theorem Storage.range_proper (storage : Storage) : storage.range.Proper := by
  cases storage <;> exact .between (by decide) (by decide) (by decide) (by decide)

theorem Storage.holds_eq (storage : Storage) : storage.holds = storage.range.members := by
  cases storage <;> exact (IntRange.members_between (by decide) (by decide)).symm

theorem Storage.classifier_eq (storage : Storage) :
    storage.classifier = clTypeFits storage.range.lo storage.range.hi := by
  cases storage <;> rfl

variable (others : OtherTypes)

/-- What the comparison of two integer specifiers promises: a certain answer,
and the right one. -/
def DecidesInclusion (s t : IntegerSpecifier) : Prop :=
  (clSubtypepIntegerRanges s.form t.form = some 1 ∧ s.members others ⊆ t.members others) ∨
    (clSubtypepIntegerRanges s.form t.form = some 0 ∧
      ¬ s.members others ⊆ t.members others)

/-- What a classifier promises: yes exactly for the specifiers whose integers
all fit. -/
def DecidesStorage (storage : Storage) (s : IntegerSpecifier) : Prop :=
  storage.classifier s.form =
    some (@decide (s.members others ⊆ storage.holds) (Classical.dec _))

theorem decidesInclusion_of_bounded {s t : IntegerSpecifier} (boundedS : s.Bounded)
    (boundedT : t.Bounded) : DecidesInclusion others s t := by
  have properS := s.range_proper boundedS
  have properT := t.range_proper boundedT
  have answer : clSubtypepIntegerRanges s.form t.form = some (compareRanges s.range t.range) := by
    simp [clSubtypepIntegerRanges, s.parse_form boundedS, t.parse_form boundedT,
      properS.integerTyped, properT.integerTyped]
  rw [DecidesInclusion, answer, s.members_eq others boundedS, t.members_eq others boundedT]
  simpa using IntRange.compareRanges_decides properS properT

/-- A bignum argument of MOD and a negative one of UNSIGNED-BYTE leave the
question open. -/
theorem clSubtypepIntegerRanges_of_unbounded {s t : IntegerSpecifier}
    (unbounded : ¬ (s.Bounded ∧ t.Bounded)) :
    clSubtypepIntegerRanges s.form t.form = some (-1) := by
  by_cases boundedS : s.Bounded
  · have boundedT : ¬ t.Bounded := fun boundedT => unbounded ⟨boundedS, boundedT⟩
    have properS := s.range_proper boundedS
    simp [clSubtypepIntegerRanges, s.parse_form boundedS, t.parse_unbounded boundedT,
      properS.integerTyped, IntRange.punt, IntRange.start, compareRanges]
  · by_cases boundedT : t.Bounded
    · have properT := t.range_proper boundedT
      simp [clSubtypepIntegerRanges, s.parse_unbounded boundedS, t.parse_form boundedT,
        properT.integerTyped, IntRange.punt, IntRange.start, compareRanges]
    · simp [clSubtypepIntegerRanges, s.parse_unbounded boundedS,
        t.parse_unbounded boundedT, IntRange.punt, IntRange.start, compareRanges]

theorem Storage.holds_le (storage : Storage) {x : Int} (held : x ∈ storage.holds) : x ≤ 65535 := by
  obtain ⟨-, above⟩ := held
  cases storage <;> exact above.trans (by decide)

theorem decidesStorage_of_inhabited (storage : Storage) {s : IntegerSpecifier}
    (inhabited : (s.members others).Nonempty) : DecidesStorage others storage s := by
  by_cases bounded : s.Bounded
  · have proper := s.range_proper bounded
    rw [s.members_eq others bounded, IntRange.nonempty_iff proper] at inhabited
    have iff := IntRange.subset_iff proper storage.range_proper inhabited
    rw [DecidesStorage, s.members_eq others bounded, storage.holds_eq, storage.classifier_eq]
    simp [clTypeFits, s.parse_form bounded, proper.integerTyped, proper.known, iff]
  · obtain ⟨x, member, large⟩ := s.exists_large_of_unbounded others bounded inhabited
    have outside : ¬ s.members others ⊆ storage.holds := fun fits =>
      absurd (storage.holds_le (fits member)) (by omega)
    rw [DecidesStorage, storage.classifier_eq]
    simp [clTypeFits, s.parse_unbounded bounded, IntRange.punt, IntRange.start, outside]

/-- The range arithmetic decides inclusion whenever both ranges are computed and
answers nothing otherwise; a classifier decides whether the integers of a
specifier fit its storage, provided there is one. -/
theorem integer_ranges_decide (s t : IntegerSpecifier) (storage : Storage) :
    (s.Bounded ∧ t.Bounded → DecidesInclusion others s t) ∧
      (¬ (s.Bounded ∧ t.Bounded) → clSubtypepIntegerRanges s.form t.form = some (-1)) ∧
      ((s.members others).Nonempty → DecidesStorage others storage s) :=
  ⟨fun bounded => decidesInclusion_of_bounded others bounded.1 bounded.2,
    clSubtypepIntegerRanges_of_unbounded,
    decidesStorage_of_inhabited others storage⟩

/-- `(MOD 1073741824)` has a bignum argument and is compared with nothing, and
`(INTEGER 5 3)` has no integers, which fit a bit, but its upper end is no bit. -/
theorem integer_ranges_undecided :
    let others : OtherTypes :=
      { typep := fun _ _ => none, compare := fun _ _ => none }
    ¬ DecidesInclusion others (.mod 1073741824) .integer ∧ ¬ DecidesStorage others .bit
        (.integerBetween (.inclusive ⟨5, by decide⟩) (.inclusive ⟨3, by decide⟩)) := by
  intro others
  constructor
  · have undecided : clSubtypepIntegerRanges (IntegerSpecifier.mod 1073741824).form
        IntegerSpecifier.integer.form = some (-1) := by decide
    simp [DecidesInclusion, undecided]
  · set specifier : IntegerSpecifier :=
      .integerBetween (.inclusive ⟨5, by decide⟩) (.inclusive ⟨3, by decide⟩)
    have bounded : specifier.Bounded := trivial
    have empty : specifier.members others = ∅ := by
      rw [specifier.members_eq others bounded, ← Set.not_nonempty_iff_eq_empty,
        IntRange.nonempty_iff (specifier.range_proper bounded)]
      decide
    have answer : clTypeIsBitSubtype specifier.form = some false := by decide
    simp [DecidesStorage, Storage.classifier, empty, answer]

end ClAmiga.Types
