import ClAmiga.Float.BigSpec

/-!
# Runs of the fixed-size big integers

A run over several variables goes the way of a run over natural numbers, in which a result that
needs more than `DT_LIMBS` words is marked and a marked operand marks the result.
-/

namespace ClAmiga.Float

open Radix

/-- One operation of the decimal conversion; the variables are numbered. -/
inductive BigOp where
  | load (b : Nat) (v : BitVec 64)
  /-- `dt_mul_u32`, then `dt_add_u32` -/
  | mulAdd (b : Nat) (m v : BitVec 32)
  | add (b a : Nat)
  | sub (a b : Nat)
  | shl (b k : Nat)
  | cmp (a b : Nat)
deriving DecidableEq, Repr

def BigOp.step (state : Nat → DtBig) : BigOp → Nat → DtBig
  | .load b v => Function.update state b (dtFromU64 v.toNat)
  | .mulAdd b m v =>
      Function.update state b (dtAddU32 (dtMulU32 (state b) m.toNat) v.toNat)
  | .add b a => Function.update state b (dtAdd (state b) (state a))
  | .sub a b => Function.update state a (dtSub (state a) (state b))
  | .shl b k => Function.update state b (dtShl (state b) k)
  | .cmp _ _ => state

def BigOp.answer (state : Nat → DtBig) : BigOp → Option Int
  | .cmp a b => some (dtCmp (state a) (state b))
  | _ => none

def runBig : List BigOp → (Nat → DtBig) → (Nat → DtBig) × List (Option Int)
  | [], state => (state, [])
  | op :: ops, state =>
      let rest := runBig ops (op.step state)
      (rest.1, op.answer state :: rest.2)

def wordCount (number : Nat) : Nat :=
  (number.size + 31) / 32

/-- A number, marked when it needs more than `DT_LIMBS` words. -/
def fitted (number : Nat) : Option Nat :=
  if wordCount number ≤ dtLimbs then some number else none

/-- A shift keeps one word in reserve. -/
def exactShl (number k : Nat) : Option Nat :=
  if number = 0 ∨ k = 0 then some number
  else if wordCount number + k / 32 + 1 ≤ dtLimbs then some (number * 2 ^ k)
  else none

/-- The exact result; `none` is the mark. -/
def BigOp.exact (e : Nat → Option Nat) : BigOp → Nat → Option Nat
  | .load b v => Function.update e b (some v.toNat)
  | .mulAdd b m v => Function.update e b ((e b).bind fun x => fitted (x * m.toNat + v.toNat))
  | .add b a => Function.update e b ((e b).bind fun x => (e a).bind fun y => fitted (x + y))
  | .sub a b => Function.update e a ((e a).bind fun x => (e b).bind fun y => some (x - y))
  | .shl b k => Function.update e b ((e b).bind fun x => exactShl x k)
  | .cmp _ _ => e

def orderOf (x y : Nat) : Int :=
  if x < y then -1 else if x = y then 0 else 1

def BigOp.exactAnswer (e : Nat → Option Nat) : BigOp → Option Int
  | .cmp a b => (e a).bind fun x => (e b).map fun y => orderOf x y
  | _ => none

def runExact : List BigOp → (Nat → Option Nat) → (Nat → Option Nat) × List (Option Int)
  | [], e => (e, [])
  | op :: ops, e =>
      let rest := runExact ops (op.exact e)
      (rest.1, op.exactAnswer e :: rest.2)

/-- What the callers see to: no factor is zero, no difference is negative, and nothing marked is
compared. -/
def BigOp.Asked (e : Nat → Option Nat) : BigOp → Prop
  | .mulAdd _ m _ => m ≠ 0
  | .sub a b => ∀ x y, e a = some x → e b = some y → y ≤ x
  | .cmp a b => (e a).isSome = true ∧ (e b).isSome = true
  | _ => True

def RunAsked : List BigOp → (Nat → Option Nat) → Prop
  | [], _ => True
  | op :: ops, e => op.Asked e ∧ RunAsked ops (op.exact e)

/-- A number in its words without a leading zero, or the mark. -/
def Denotes : DtBig → Option Nat → Prop
  | .limbs d, some number => value d = number ∧ d.getLast? ≠ some 0 ∧ d.length ≤ dtLimbs
  | .poisoned, none => True
  | _, _ => False

theorem wordCount_eq (number : Nat) : wordCount number = (ofNat 32 number).length := by
  refine eq_of_forall_ge_iff fun count => ?_
  rw [length_ofNat_le_iff (by omega), ← pow_mul, ← Nat.size_le, wordCount]
  omega

theorem fits_iff (number : Nat) : wordCount number ≤ dtLimbs ↔ number < capacity := by
  rw [wordCount_eq, length_ofNat_le_iff (by omega), capacity]

theorem denotes_some {b : DtBig} {number : Nat} :
    Denotes b (some number) ↔ b = rep number ∧ number < capacity := by
  constructor
  · intro denotes
    cases b with
    | poisoned => exact denotes.elim
    | limbs d =>
        obtain ⟨number_eq, noZero, short⟩ := denotes
        have small : number < capacity := by
          rw [← number_eq]
          exact (value_lt d).trans_le (Nat.pow_le_pow_right (by omega) short)
        refine ⟨?_, small⟩
        rw [rep, eq_ofNat_of_value (by omega) number_eq]
        rcases List.eq_nil_or_concat d with rfl | ⟨low, top, rfl⟩
        · exact Or.inl rfl
        · right
          have nonzero : top ≠ 0 := by simpa using noZero
          rw [← number_eq]
          exact Normalized.value_ge ⟨low, top, List.concat_eq_append, nonzero⟩
  · rintro ⟨rfl, small⟩
    refine ⟨value_rep number, ?_, length_le_of_lt small⟩
    by_cases zero : number = 0
    · simp [zero, ofNat]
    · obtain ⟨low, top, shape, nonzero⟩ := normalized_ofNat (w := 32) (by omega) zero
      rw [shape]
      simpa using nonzero

theorem denotes_none {b : DtBig} : Denotes b none ↔ b = .poisoned := by
  cases b <;> simp [Denotes]

theorem denotes_fitted (number : Nat) : Denotes (big number) (fitted number) := by
  rw [big, fitted]
  by_cases small : number < capacity
  · rw [if_pos small, if_pos ((fits_iff number).mpr small)]
    exact (denotes_some).mpr ⟨rfl, small⟩
  · rw [if_neg small, if_neg fun fits => small ((fits_iff number).mp fits)]
    exact (denotes_none).mpr rfl

theorem mulAdd_denotes {b : DtBig} {x : Option Nat} (denotes : Denotes b x) {m v : BitVec 32}
    (nonzero : m ≠ 0) :
    Denotes (dtAddU32 (dtMulU32 b m.toNat) v.toNat)
      (x.bind fun x => fitted (x * m.toNat + v.toNat)) := by
  cases x with
  | none =>
      rw [(denotes_none).mp denotes]
      exact (denotes_none).mpr rfl
  | some number =>
      obtain ⟨rfl, small⟩ := (denotes_some).mp denotes
      have positive := toNat_pos_of_ne_zero nonzero
      rw [Option.bind_some, dtMulU32_rep small positive m.isLt, big]
      by_cases room : number * m.toNat < capacity
      · rw [if_pos room, dtAddU32_rep room v.isLt]
        exact denotes_fitted _
      · have large : ¬ wordCount (number * m.toNat + v.toNat) ≤ dtLimbs := fun fits =>
          room ((Nat.le_add_right _ _).trans_lt ((fits_iff _).mp fits))
        rw [if_neg room, fitted, if_neg large]
        exact (denotes_none).mpr rfl

theorem add_denotes {b a : DtBig} {x y : Option Nat} (left : Denotes b x) (right : Denotes a y) :
    Denotes (dtAdd b a) (x.bind fun x => y.bind fun y => fitted (x + y)) := by
  cases x with
  | none =>
      rw [(denotes_none).mp left]
      exact (denotes_none).mpr rfl
  | some number =>
      obtain ⟨rfl, small⟩ := (denotes_some).mp left
      cases y with
      | none =>
          rw [(denotes_none).mp right]
          exact (denotes_none).mpr rfl
      | some other =>
          obtain ⟨rfl, otherSmall⟩ := (denotes_some).mp right
          rw [dtAdd_rep small otherSmall]
          exact denotes_fitted _

theorem sub_denotes {a b : DtBig} {x y : Option Nat} (left : Denotes a x) (right : Denotes b y)
    (le : ∀ number other, x = some number → y = some other → other ≤ number) :
    Denotes (dtSub a b) (x.bind fun x => y.bind fun y => some (x - y)) := by
  cases x with
  | none =>
      rw [(denotes_none).mp left]
      exact (denotes_none).mpr rfl
  | some number =>
      obtain ⟨rfl, small⟩ := (denotes_some).mp left
      cases y with
      | none =>
          rw [(denotes_none).mp right]
          exact (denotes_none).mpr rfl
      | some other =>
          obtain ⟨rfl, -⟩ := (denotes_some).mp right
          rw [dtSub_rep (le number other rfl rfl)]
          exact (denotes_some).mpr ⟨rfl, (Nat.sub_le _ _).trans_lt small⟩

theorem shifted_fits {number k : Nat} (room : wordCount number + k / 32 + 1 ≤ dtLimbs) :
    number * 2 ^ k < capacity := by
  have bound := Nat.lt_size_self number
  have exponent : number.size + k ≤ 32 * dtLimbs := by
    rw [wordCount] at room
    omega
  rw [capacity, ← pow_mul]
  calc
    number * 2 ^ k < 2 ^ number.size * 2 ^ k :=
      Nat.mul_lt_mul_of_pos_right bound (Nat.two_pow_pos k)
    _ = 2 ^ (number.size + k) := (pow_add 2 _ _).symm
    _ ≤ 2 ^ (32 * dtLimbs) := Nat.pow_le_pow_right (by omega) exponent

theorem shl_denotes {b : DtBig} {x : Option Nat} (denotes : Denotes b x) (k : Nat) :
    Denotes (dtShl b k) (x.bind fun x => exactShl x k) := by
  cases x with
  | none =>
      rw [(denotes_none).mp denotes]
      exact (denotes_none).mpr rfl
  | some number =>
      obtain ⟨rfl, small⟩ := (denotes_some).mp denotes
      rw [Option.bind_some, exactShl]
      by_cases still : number = 0 ∨ k = 0
      · rw [if_pos still, dtShl_still still]
        exact denotes
      · rw [if_neg still]
        obtain ⟨nonzero, moved⟩ := not_or.mp still
        by_cases room : wordCount number + k / 32 + 1 ≤ dtLimbs
        · rw [if_pos room]
          rw [denotes_some]
          refine ⟨dtShl_room nonzero moved ?_, shifted_fits room⟩
          rwa [← wordCount_eq]
        · have length := List.length_pos_of_ne_nil (ofNat_ne_nil (w := 32) (by omega) nonzero)
          rw [if_neg room]
          rw [wordCount_eq] at room
          simp only [dtShl, rep]
          rw [if_neg (by omega), if_pos (by omega)]
          exact (denotes_none).mpr rfl

theorem cmp_denotes {a b : DtBig} {x y : Nat} (left : Denotes a (some x))
    (right : Denotes b (some y)) : dtCmp a b = orderOf x y := by
  obtain ⟨rfl, -⟩ := (denotes_some).mp left
  obtain ⟨rfl, -⟩ := (denotes_some).mp right
  exact dtCmp_rep x y

theorem denotes_update {state : Nat → DtBig} {e : Nat → Option Nat}
    (denotes : ∀ r, Denotes (state r) (e r)) (b : Nat) {value : DtBig} {number : Option Nat}
    (new : Denotes value number) (r : Nat) :
    Denotes (Function.update state b value r) (Function.update e b number r) := by
  rcases eq_or_ne r b with rfl | other
  · rw [Function.update_self, Function.update_self]
    exact new
  · rw [Function.update_of_ne other, Function.update_of_ne other]
    exact denotes r

theorem step_denotes {op : BigOp} {state : Nat → DtBig} {e : Nat → Option Nat}
    (denotes : ∀ r, Denotes (state r) (e r)) (asked : op.Asked e) :
    (∀ r, Denotes (op.step state r) (op.exact e r)) ∧ op.answer state = op.exactAnswer e := by
  cases op with
  | load b v =>
      have small : v.toNat < capacity := v.isLt.trans_le (by
        rw [capacity, ← pow_mul]
        exact Nat.pow_le_pow_right (by omega) (by decide))
      refine ⟨denotes_update denotes b ?_, rfl⟩
      rw [dtFromU64_rep v.isLt]
      exact (denotes_some).mpr ⟨rfl, small⟩
  | mulAdd b m v => exact ⟨denotes_update denotes b (mulAdd_denotes (denotes b) asked), rfl⟩
  | add b a => exact ⟨denotes_update denotes b (add_denotes (denotes b) (denotes a)), rfl⟩
  | sub a b => exact ⟨denotes_update denotes a (sub_denotes (denotes a) (denotes b) asked), rfl⟩
  | shl b k => exact ⟨denotes_update denotes b (shl_denotes (denotes b) k), rfl⟩
  | cmp a b =>
      refine ⟨denotes, ?_⟩
      obtain ⟨left, right⟩ := asked
      obtain ⟨x, leftIs⟩ := Option.isSome_iff_exists.mp left
      obtain ⟨y, rightIs⟩ := Option.isSome_iff_exists.mp right
      have leftDenotes := denotes a
      have rightDenotes := denotes b
      rw [leftIs] at leftDenotes
      rw [rightIs] at rightDenotes
      rw [BigOp.answer, BigOp.exactAnswer, leftIs, rightIs, cmp_denotes leftDenotes rightDenotes]
      rfl

/-- A run on `DtBig`s denotes the run on numbers, and both answer the same. -/
theorem bigRuns_denote (ops : List BigOp) (state : Nat → DtBig) (e : Nat → Option Nat)
    (denotes : ∀ r, Denotes (state r) (e r)) (asked : RunAsked ops e) :
    (∀ r, Denotes ((runBig ops state).1 r) ((runExact ops e).1 r)) ∧
      (runBig ops state).2 = (runExact ops e).2 := by
  induction ops generalizing state e with
  | nil => exact ⟨denotes, rfl⟩
  | cons op ops induction =>
      obtain ⟨first, later⟩ := asked
      obtain ⟨kept, answer⟩ := step_denotes denotes first
      obtain ⟨rest, answers⟩ := induction (op.step state) (op.exact e) kept later
      refine ⟨rest, ?_⟩
      rw [runBig, runExact]
      exact congrArg₂ List.cons answer answers

/-- `7 * 10 + 3` against 5, the difference, and a shift of it. -/
def smallRun : List BigOp :=
  [.load 0 7, .mulAdd 0 10 3, .load 1 5, .cmp 0 1, .sub 0 1, .shl 0 40, .add 1 0]

/-- A run from registers that are all zero. -/
theorem bigRuns_denote_small :
    (∀ r, Denotes ((runBig smallRun fun _ => dtZero).1 r)
        ((runExact smallRun fun _ => some 0).1 r)) ∧
      (runBig smallRun fun _ => dtZero).2 = (runExact smallRun fun _ => some 0).2 := by
  have asked : RunAsked smallRun fun _ => some 0 := by
    have fits : fitted 73 = some 73 := by
      have bound : 73 < 2 ^ (32 * dtLimbs) :=
        (by decide : 73 < 2 ^ 7).trans_le (Nat.pow_le_pow_right (by omega) (by decide))
      rw [fitted, if_pos]
      rw [fits_iff, capacity, ← pow_mul]
      exact bound
    simp [smallRun, RunAsked, BigOp.Asked, BigOp.exact, fits]
  exact bigRuns_denote smallRun (fun _ => dtZero) (fun _ => some 0)
    (fun _ => (denotes_some).mpr ⟨by simp [dtZero, rep, ofNat], by rw [capacity]; positivity⟩) asked

theorem power_fits {k : Nat} (below : k < 32 * dtLimbs) : wordCount (2 ^ k) ≤ dtLimbs := by
  rw [fits_iff, capacity, ← pow_mul]
  exact Nat.pow_lt_pow_right (by omega) below

/-- A shift is marked that fits in the last word, a factor of zero leaves a leading zero, and what
is marked is ordered before every number. -/
theorem big_marks_early :
    ((runBig [.load 0 1, .shl 0 3552] fun _ => dtZero).1 0 = .poisoned ∧
        wordCount (2 ^ 3552) ≤ dtLimbs) ∧
      (runBig [.load 0 1, .mulAdd 0 0 0] fun _ => dtZero).1 0 = .limbs [0] ∧
      (runBig [.load 0 1, .shl 0 3552, .cmp 0 1] fun _ => dtZero).2 = [none, none, some (-1)] := by
  refine ⟨⟨by decide, power_fits (by decide)⟩, ?_, by decide⟩
  simp [runBig, BigOp.step, dtFromU64, dtMulU32, mulWords, appendCarry, dtAddU32, addSmallWords,
    appendWord]

end ClAmiga.Float
