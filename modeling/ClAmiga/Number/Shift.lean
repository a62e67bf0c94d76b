import ClAmiga.Number.Division

/-!
# Arithmetic shifts

`cl_arith_ash` splits a shift into limbs and bits.  A right shift of a negative
integer is rounded to the floor: the magnitude is shifted, and one is
subtracted when a bit that was shifted out is set.
-/

namespace ClAmiga.Number

open Radix Bignum

variable {platform : Platform}

def shiftTooLarge : ClErr :=
  .typeError "ASH: shift count too large for left shift"

/-- The fixnum path; `none` falls through to the limb code. -/
def ashFixnum (v shift : Int) : Option ClInt :=
  if v = 0 then some (clMakeFixnum 0)
  else if shift < 0 then
    let s := (-shift).toNat
    if s ≥ 31 then some (clMakeFixnum (if v < 0 then -1 else 0))
    else some (clMakeFixnum (v >>> s))
  else if shift < 31 then
    let r := v * 2 ^ shift.toNat
    if clFixnumMin ≤ r ∧ r ≤ clFixnumMax then some (clMakeFixnum r) else none
  else none

/-- The result array of the left shift: zero limbs, the shifted limbs, and the
limb kept free for the last carry. -/
def leftShifted (nl : List Limb) (shift : Nat) : List Limb :=
  let wordShift := shift / 16
  let bitShift := shift % 16
  List.replicate wordShift 0 ++
    if bitShift = 0 then nl ++ [0]
    else
      let shifted := shiftLeftLimbs bitShift nl 0
      shifted.1 ++ [BitVec.ofNat 16 shifted.2]

def ashLeft (platform : Platform) (n : ClInt) (shift : Nat) : Result ClInt :=
  let (nSign, nl) := toLimbs n
  bignumFromLimbs platform (strip (leftShifted nl shift)) nSign

def shiftRightLimbs (bitShift : Nat) : List Limb → List Limb
  | [] => []
  | [x] => [BitVec.ofNat 16 (x.toNat >>> bitShift)]
  | x :: y :: rest =>
      BitVec.ofNat 16 ((x.toNat >>> bitShift) |||
        ((y.toNat <<< (16 - bitShift)) % 2 ^ 16)) ::
        shiftRightLimbs bitShift (y :: rest)

def anySet (nl : List Limb) (wordShift bitShift : Nat) : Bool :=
  (nl.take wordShift).any (fun limb => limb ≠ 0) ||
    (decide (bitShift > 0) && decide (wordShift < nl.length) &&
      decide ((nl.getD wordShift 0).toNat &&& (2 ^ bitShift - 1) ≠ 0))

def ashRight (platform : Platform) (n : ClInt) (shift : Nat) : Result ClInt :=
  let (nSign, nl) := toLimbs n
  let wordShift := shift / 16
  let bitShift := shift % 16
  if wordShift ≥ nl.length then .ok (clMakeFixnum (if nSign then -1 else 0))
  else
    let kept := nl.drop wordShift
    let result := if bitShift = 0 then kept else shiftRightLimbs bitShift kept
    do
      let res ← bignumFromLimbs platform (strip result) nSign
      if nSign && anySet nl wordShift bitShift then
        clArithSub platform res (clMakeFixnum 1)
      else return res

def ashCount (platform : Platform) (n : ClInt) (shift : Int) : Result ClInt :=
  let limbPath :=
    if 0 < shift then ashLeft platform n shift.toNat
    else ashRight platform n (-shift).toNat
  match n with
  | .fixnum word =>
      match ashFixnum word.toInt shift with
      | some result => .ok result
      | none => limbPath
  | .bignum _ _ => limbPath

def clArithAsh (platform : Platform) (n count : ClInt) : Result ClInt :=
  match count with
  | .bignum _ _ =>
      if clArithMinusp count then
        if clArithZerop n then .ok n
        else .ok (clMakeFixnum (if clArithMinusp n then -1 else 0))
      else if clArithZerop n then .ok n
      else .error shiftTooLarge
  | .fixnum word =>
      if word.toInt = 0 then .ok n else ashCount platform n word.toInt

theorem value_leftShifted (nl : List Limb) (shift : Nat) :
    value (leftShifted nl shift) = value nl * 2 ^ shift := by
  have whole : shift = 16 * (shift / 16) + shift % 16 := by omega
  have bits : shift % 16 < 16 := Nat.mod_lt _ (by omega)
  unfold leftShifted
  dsimp only
  generalize shift / 16 = wordShift at whole ⊢
  generalize shift % 16 = bitShift at whole bits ⊢
  subst whole
  rw [value_append, value_replicate_zero, List.length_replicate, ← pow_mul, pow_add]
  by_cases none : bitShift = 0
  · rw [if_pos none, none, value_append]
    simp
    ring
  · obtain ⟨shiftedLength, carryBound, shiftedValue⟩ :=
      shiftLeftLimbs_spec bitShift bits nl 0 (Nat.two_pow_pos bitShift)
    have carrySmall : (shiftLeftLimbs bitShift nl 0).2 < 2 ^ 16 :=
      lt_of_lt_of_le carryBound (Nat.pow_le_pow_right (by omega) (by omega))
    rw [if_neg none, value_append, shiftedLength]
    simp only [value_cons, value_nil, Nat.mul_zero, Nat.add_zero,
      BitVec.toNat_ofNat, Nat.mod_eq_of_lt carrySmall, shiftedValue]
    ring

theorem leftShifted_ne_nil (nl : List Limb) (shift : Nat) : leftShifted nl shift ≠ [] := by
  unfold leftShifted
  dsimp only
  split <;> simp

theorem signed_mul_nat (sign : Bool) (magnitude factor : Nat) :
    signed sign (magnitude * factor) = signed sign magnitude * factor := by
  cases sign <;> simp [signed]

theorem ashLeft_eq {n : ClInt} (canonical : n.Canonical platform) (shift : Nat) :
    ashLeft platform n shift = alloc platform (n.toInt * 2 ^ shift) := by
  obtain ⟨_, nValue, _⟩ := toLimbs_spec canonical
  unfold ashLeft
  dsimp only
  rw [bignumFromLimbs_eq _ (trimmed_strip (leftShifted_ne_nil _ shift)).ne_nil,
    value_strip, value_leftShifted, signed_mul_nat, nValue]
  norm_cast

theorem value_shiftRightLimbs (bitShift : Nat) (bits : bitShift < 16) (limbs : List Limb) :
    value (shiftRightLimbs bitShift limbs) = value limbs / 2 ^ bitShift := by
  have split16 : (2 : Nat) ^ 16 = 2 ^ bitShift * 2 ^ (16 - bitShift) := by
    rw [← pow_add]
    congr 1
    omega
  have kept : ∀ x : Limb, x.toNat / 2 ^ bitShift < 2 ^ (16 - bitShift) := by
    intro x
    apply Nat.div_lt_of_lt_mul
    rw [← split16]
    exact x.isLt
  have keptWord : ∀ x : Limb, x.toNat / 2 ^ bitShift < 2 ^ 16 :=
    fun x => lt_of_le_of_lt (Nat.div_le_self _ _) x.isLt
  fun_induction shiftRightLimbs bitShift limbs with
  | case1 => simp
  | case2 x =>
      rw [value_cons, value_cons, BitVec.toNat_ofNat,
        Nat.shiftRight_eq_div_pow, Nat.mod_eq_of_lt (keptWord x)]
      simp
  | case3 x y rest induction =>
      have borrowed : (y.toNat <<< (16 - bitShift)) % 2 ^ 16 =
          2 ^ (16 - bitShift) * (y.toNat % 2 ^ bitShift) := by
        rw [Nat.shiftLeft_eq, Nat.mul_comm, split16, Nat.mul_comm (2 ^ bitShift),
          Nat.mul_mod_mul_left]
      have joined : (x.toNat >>> bitShift) ||| ((y.toNat <<< (16 - bitShift)) % 2 ^ 16) =
            2 ^ (16 - bitShift) * (y.toNat % 2 ^ bitShift) + x.toNat / 2 ^ bitShift := by
        rw [borrowed, Nat.shiftRight_eq_div_pow, Nat.or_comm,
          ← Nat.two_pow_add_eq_or_of_lt (kept x)]
      have low : value (y :: rest) % 2 ^ bitShift = y.toNat % 2 ^ bitShift := by
        rw [value_cons, split16, Nat.mul_assoc, Nat.add_mul_mod_self_left]
      have fits : 2 ^ (16 - bitShift) * (y.toNat % 2 ^ bitShift) +
          x.toNat / 2 ^ bitShift < 2 ^ 16 := by
        have residue : y.toNat % 2 ^ bitShift + 1 ≤ 2 ^ bitShift :=
          Nat.mod_lt _ (Nat.two_pow_pos bitShift)
        have scaled := Nat.mul_le_mul_left (2 ^ (16 - bitShift)) residue
        have top := kept x
        rw [Nat.mul_add, Nat.mul_comm _ (2 ^ bitShift), ← split16] at scaled
        omega
      rw [value_cons, induction, joined, BitVec.toNat_ofNat, Nat.mod_eq_of_lt fits, value_cons x]
      have whole : x.toNat + 2 ^ 16 * value (y :: rest) = x.toNat + 2 ^ bitShift *
            (2 ^ (16 - bitShift) * value (y :: rest)) := by
        rw [split16, Nat.mul_assoc]
      have divided := Nat.div_add_mod (value (y :: rest)) (2 ^ bitShift)
      rw [whole, Nat.add_mul_div_left _ _ (Nat.two_pow_pos bitShift), ← low]
      calc
        2 ^ (16 - bitShift) * (value (y :: rest) % 2 ^ bitShift) + x.toNat / 2 ^ bitShift +
              2 ^ 16 * (value (y :: rest) / 2 ^ bitShift)
            = x.toNat / 2 ^ bitShift + 2 ^ (16 - bitShift) *
              (2 ^ bitShift * (value (y :: rest) / 2 ^ bitShift) +
                value (y :: rest) % 2 ^ bitShift) := by
          rw [split16]
          ring
        _ = x.toNat / 2 ^ bitShift +
              2 ^ (16 - bitShift) * value (y :: rest) := by rw [divided]

theorem shiftRightLimbs_ne_nil (bitShift : Nat) {limbs : List Limb}
    (nonempty : limbs ≠ []) : shiftRightLimbs bitShift limbs ≠ [] := by
  fun_cases shiftRightLimbs bitShift limbs with
  | case1 => exact (nonempty rfl).elim
  | case2 => simp
  | case3 => simp

theorem value_eq_zero_iff (limbs : List Limb) : value limbs = 0 ↔ ∀ limb ∈ limbs, limb = 0 := by
  induction limbs with
  | nil => simp
  | cons limb limbs induction =>
      rw [value_cons, List.forall_mem_cons, ← induction]
      constructor
      · intro zero
        refine ⟨BitVec.eq_of_toNat_eq ?_, by omega⟩
        simp
        omega
      · rintro ⟨rfl, zero⟩
        simp [zero]

theorem value_mod_pow (limbs : List Limb) {bits : Nat} (few : bits ≤ 16) :
    value limbs % 2 ^ bits = (limbs.getD 0 0).toNat % 2 ^ bits := by
  cases limbs with
  | nil => rfl
  | cons limb limbs =>
      have split16 : (2 : Nat) ^ 16 = 2 ^ bits * 2 ^ (16 - bits) := by
        rw [← pow_add]
        congr 1
        omega
      rw [value_cons, List.getD_cons_zero, split16, Nat.mul_assoc, Nat.add_mul_mod_self_left]

theorem value_mod_shift (nl : List Limb) {wordShift : Nat} (bitShift : Nat)
    (inside : wordShift < nl.length) :
    value nl % 2 ^ (16 * wordShift + bitShift) = value (nl.take wordShift) +
        2 ^ (16 * wordShift) * (value (nl.drop wordShift) % 2 ^ bitShift) := by
  have low := value_lt (nl.take wordShift)
  rw [List.length_take, Nat.min_eq_left inside.le, ← pow_mul] at low
  rw [value_take_add_drop nl wordShift inside.le, ← pow_mul, pow_add,
    Nat.mod_mul, Nat.add_mul_mod_self_left, Nat.mod_eq_of_lt low,
    Nat.add_mul_div_left _ _ (Nat.two_pow_pos _), Nat.div_eq_of_lt low,
    Nat.zero_add]

theorem value_div_shift (nl : List Limb) {wordShift : Nat} (bitShift : Nat)
    (inside : wordShift < nl.length) :
    value nl / 2 ^ (16 * wordShift + bitShift) = value (nl.drop wordShift) / 2 ^ bitShift := by
  have low := value_lt (nl.take wordShift)
  rw [List.length_take, Nat.min_eq_left inside.le, ← pow_mul] at low
  rw [value_take_add_drop nl wordShift inside.le, ← pow_mul, pow_add,
    ← Nat.div_div_eq_div_mul, Nat.add_mul_div_left _ _ (Nat.two_pow_pos _),
    Nat.div_eq_of_lt low, Nat.zero_add]

theorem anySet_iff (nl : List Limb) {wordShift bitShift : Nat}
    (inside : wordShift < nl.length) (bits : bitShift < 16) :
    anySet nl wordShift bitShift = true ↔ value nl % 2 ^ (16 * wordShift + bitShift) ≠ 0 := by
  have limb : value (nl.drop wordShift) % 2 ^ bitShift =
      (nl.getD wordShift 0).toNat % 2 ^ bitShift := by
    rw [value_mod_pow _ (by omega)]
    simp [List.getD_eq_getElem?_getD]
  have lowSet : (nl.take wordShift).any (fun limb => decide (limb ≠ 0)) = true ↔
      value (nl.take wordShift) ≠ 0 := by
    rw [Ne, value_eq_zero_iff, List.any_eq_true]
    simp
  have highSet : (decide (bitShift > 0) && decide (wordShift < nl.length) &&
      decide ((nl.getD wordShift 0).toNat &&& (2 ^ bitShift - 1) ≠ 0)) = true ↔
      value (nl.drop wordShift) % 2 ^ bitShift ≠ 0 := by
    rw [limb, Nat.and_two_pow_sub_one_eq_mod]
    by_cases none : bitShift = 0
    · simp [none, Nat.mod_one]
    · simp [inside, Nat.pos_of_ne_zero none]
  unfold anySet
  rw [Bool.or_eq_true, lowSet, highSet, value_mod_shift nl bitShift inside]
  have scale := Nat.two_pow_pos (16 * wordShift)
  constructor
  · rintro (set | set)
    · omega
    · have := Nat.mul_pos scale (Nat.pos_of_ne_zero set)
      omega
  · intro nonzero
    by_contra neither
    rw [not_or, not_not, not_not] at neither
    rw [neither.1, neither.2] at nonzero
    exact nonzero rfl

theorem signed_floor (sign : Bool) (magnitude : Nat) {divisor : Nat} (positive : 0 < divisor) :
    signed sign magnitude / (divisor : Int) =
      if sign = true ∧ magnitude % divisor ≠ 0 then
        signed sign (magnitude / divisor) - 1
      else signed sign (magnitude / divisor) := by
  have division := Nat.div_add_mod magnitude divisor
  have remainder := Nat.mod_lt magnitude positive
  generalize magnitude / divisor = quotient at division ⊢
  generalize magnitude % divisor = rest at division remainder ⊢
  subst division
  cases sign with
  | false =>
      rw [if_neg (by simp)]
      simp only [signed, Bool.false_eq_true, if_false]
      norm_cast
      rw [Nat.mul_add_div positive, Nat.div_eq_of_lt remainder, Nat.add_zero]
  | true =>
      simp only [signed, if_true, true_and]
      have nonzero : (divisor : Int) ≠ 0 := by omega
      by_cases exact : rest = 0
      · subst exact
        rw [if_neg (by simp)]
        push_cast
        rw [Int.add_zero, ← Int.mul_neg, Int.mul_ediv_cancel_left _ nonzero]
      · rw [if_pos exact]
        have split : -((divisor * quotient + rest : Nat) : Int) =
            (divisor - rest : Int) + divisor * (-(quotient : Int) - 1) := by
          push_cast
          ring
        rw [split, Int.add_mul_ediv_left _ _ nonzero,
          Int.ediv_eq_zero_of_lt (by omega) (by omega), Int.zero_add]

theorem Fits.shiftRight {z : Int} (fits : Fits platform z) (shift : Nat) :
    Fits platform (z / 2 ^ shift) := by
  apply fits.of_natAbs_le
  have positive : (0 : Int) < 2 ^ shift := by positivity
  have atLeastOne : (1 : Int) ≤ 2 ^ shift := positive
  have division := Int.mul_ediv_add_emod z (2 ^ shift)
  have low := Int.emod_nonneg z positive.ne'
  have high := Int.emod_lt_of_pos z positive
  by_cases negative : z < 0
  · have below : z / 2 ^ shift < 0 := Int.ediv_neg_of_neg_of_pos negative positive
    have above : z ≤ z / 2 ^ shift := by
      have scaled : (2 ^ shift - 1) * (z / 2 ^ shift) ≤ -(2 ^ shift - 1) := by
        nlinarith
      nlinarith
    omega
  · have above : 0 ≤ z / 2 ^ shift := Int.ediv_nonneg (by omega) positive.le
    have below : z / 2 ^ shift ≤ z := Int.ediv_le_self _ (by omega)
    omega

theorem Fits.truncated {z : Int} (fits : Fits platform z) (sign : Bool)
    (divisor : Nat) : Fits platform (signed sign (z.natAbs / divisor)) := by
  apply fits.of_natAbs_le
  rw [natAbs_signed]
  exact Nat.div_le_self _ _

theorem ashRight_eq {n : ClInt} (canonical : n.Canonical platform) (shift : Nat) :
    ashRight platform n shift = .ok (canon (n.toInt / 2 ^ shift)) := by
  obtain ⟨trimmed, nValue, nSign⟩ := toLimbs_spec canonical
  have fits := canonical.fits
  have floor := signed_floor (toLimbs n).1 (value (toLimbs n).2) (Nat.two_pow_pos shift)
  have shiftedFits := fits.shiftRight shift
  have truncatedFits := fits.truncated (toLimbs n).1 (2 ^ shift)
  have magnitude : n.toInt.natAbs = value (toLimbs n).2 := by
    rw [← nValue, natAbs_signed]
  push_cast at floor
  rw [nValue] at floor
  rw [magnitude] at truncatedFits
  have whole : shift = 16 * (shift / 16) + shift % 16 := by omega
  have bits : shift % 16 < 16 := Nat.mod_lt _ (by omega)
  unfold ashRight
  generalize toLimbs n = limbs
    at trimmed nValue nSign floor truncatedFits magnitude ⊢
  obtain ⟨sign, nl⟩ := limbs
  dsimp only at trimmed nValue nSign floor truncatedFits magnitude ⊢
  generalize shift / 16 = wordShift at whole ⊢
  generalize shift % 16 = bitShift at whole bits ⊢
  by_cases away : wordShift ≥ nl.length
  · have small : value nl < 2 ^ shift := by
      apply lt_of_lt_of_le (value_lt nl)
      rw [← pow_mul]
      exact Nat.pow_le_pow_right (by omega) (by omega)
    have result : n.toInt / 2 ^ shift = if sign then -1 else 0 := by
      rw [floor, Nat.div_eq_of_lt small, Nat.mod_eq_of_lt small]
      cases sign with
      | false => rfl
      | true =>
          have negative : n.toInt < 0 := nSign.mp rfl
          rw [if_pos ⟨rfl, by omega⟩]
          rfl
    have range : InFixnumRange (if sign = true then -1 else 0) := by
      cases sign <;> decide
    rw [if_pos away, result, canon_of_range range]
  · have inside : wordShift < nl.length := Nat.lt_of_not_le away
    have keptNonempty : nl.drop wordShift ≠ [] := by
      rw [Ne, List.drop_eq_nil_iff]
      omega
    have kept : value (if bitShift = 0 then nl.drop wordShift
        else shiftRightLimbs bitShift (nl.drop wordShift)) =
        value nl / 2 ^ shift := by
      rw [whole, value_div_shift nl bitShift inside]
      split
      · rename_i none
        simp [none]
      · exact value_shiftRightLimbs bitShift bits _
    have nonempty : (if bitShift = 0 then nl.drop wordShift
        else shiftRightLimbs bitShift (nl.drop wordShift)) ≠ [] := by
      split
      · exact keptNonempty
      · exact shiftRightLimbs_ne_nil _ keptNonempty
    have set := anySet_iff nl inside bits
    rw [← whole] at set
    rw [if_neg away, bignumFromLimbs_eq _ (trimmed_strip nonempty).ne_nil,
      value_strip, kept, alloc_of_fits truncatedFits]
    change (if (sign && anySet nl wordShift bitShift) = true then
        clArithSub platform (canon (signed sign (value nl / 2 ^ shift))) (clMakeFixnum 1)
      else .ok (canon (signed sign (value nl / 2 ^ shift)))) = _
    by_cases lowered : sign = true ∧ value nl % 2 ^ shift ≠ 0
    · rw [if_pos lowered] at floor
      rw [if_pos (by rw [Bool.and_eq_true, set]; exact lowered),
        clArithSub_eq (canonical_canon truncatedFits)
          (show (clMakeFixnum 1).Canonical platform from trivial), toInt_canon,
        toInt_clMakeFixnum (by decide), ← floor, alloc_of_fits shiftedFits]
    · rw [if_neg lowered] at floor
      rw [if_neg (by rw [Bool.and_eq_true, set]; exact lowered), floor]

/-- The exact result of a shift: the floor of `n * 2 ^ count`. -/
def floorShift (n count : Int) : Int :=
  n * 2 ^ count.toNat / 2 ^ (-count).toNat

theorem floorShift_of_nonneg (n : Int) {count : Int} (nonneg : 0 ≤ count) :
    floorShift n count = n * 2 ^ count.toNat := by
  have none : (-count).toNat = 0 := by omega
  rw [floorShift, none, pow_zero, Int.ediv_one]

theorem floorShift_of_nonpos (n : Int) {count : Int} (nonpos : count ≤ 0) :
    floorShift n count = n / 2 ^ (-count).toNat := by
  have none : count.toNat = 0 := by omega
  rw [floorShift, none, pow_zero, Int.mul_one]

theorem floorShift_eq_floor (n count : Int) : floorShift n count = ⌊(n : ℚ) * 2 ^ count⌋ := by
  have balance : (n : ℚ) * 2 ^ count =
      ((n * 2 ^ count.toNat : Int) : ℚ) / ((2 ^ (-count).toNat : Nat) : ℚ) := by
    by_cases nonneg : 0 ≤ count
    · have none : (-count).toNat = 0 := by omega
      obtain ⟨bits, rfl⟩ := Int.eq_ofNat_of_zero_le nonneg
      rw [none]
      simp
    · obtain ⟨bits, rfl⟩ : ∃ bits : Nat, count = -(bits : Int) :=
        ⟨(-count).toNat, by omega⟩
      have none : (-(bits : Int)).toNat = 0 := by omega
      rw [none, Int.neg_neg, zpow_neg, Int.toNat_natCast]
      push_cast
      rw [zpow_natCast, mul_one, div_eq_mul_inv]
  rw [balance, Rat.floor_intCast_div_natCast, floorShift]
  push_cast
  rfl

/-- The fixnum path answers only when the result is a fixnum, and exactly. -/
theorem ashFixnum_spec {v shift : Int} {result : ClInt}
    (vRange : InFixnumRange v) (found : ashFixnum v shift = some result) :
    InFixnumRange (floorShift v shift) ∧ result = clMakeFixnum (floorShift v shift) := by
  unfold ashFixnum at found
  split at found
  · rename_i zero
    have vanish : floorShift v shift = 0 := by
      simp [floorShift, zero]
    rw [vanish]
    exact ⟨by decide, (Option.some.inj found).symm⟩
  · rename_i nonzero
    split at found
    · rename_i negative
      rw [floorShift_of_nonpos v negative.le]
      generalize (-shift).toNat = s at found ⊢
      have fits := vRange
      simp only [InFixnumRange, clFixnumMin, clFixnumMax] at vRange
      dsimp only at found
      split at found
      · rename_i away
        have large : (2 : Int) ^ 31 ≤ 2 ^ s :=
          pow_le_pow_right₀ (by omega) away
        have result : v / 2 ^ s = if v < 0 then -1 else 0 := by
          split
          · rw [← Int.sub_eq_zero, Int.sub_neg]
            have shifted := Int.add_mul_ediv_right v 1
              (show (2 : Int) ^ s ≠ 0 by positivity)
            rw [← shifted]
            exact Int.ediv_eq_zero_of_lt (by omega) (by omega)
          · exact Int.ediv_eq_zero_of_lt (by omega) (by omega)
        rw [result]
        refine ⟨?_, (Option.some.inj found).symm⟩
        split <;> decide
      · have shifted : v >>> s = v / 2 ^ s := Int.shiftRight_eq_div_pow v s
        rw [shifted] at found
        refine ⟨?_, (Option.some.inj found).symm⟩
        have positive : (0 : Int) < 2 ^ s := by positivity
        constructor
        · rw [Int.le_ediv_iff_mul_le positive, clFixnumMin]
          nlinarith [show (1 : Int) ≤ 2 ^ s from positive]
        · rw [← Int.lt_add_one_iff, Int.ediv_lt_iff_lt_mul positive, clFixnumMax]
          nlinarith [show (1 : Int) ≤ 2 ^ s from positive]
    · rename_i notNegative
      rw [floorShift_of_nonneg v (by omega)]
      split at found
      · dsimp only at found
        split at found
        · rename_i range
          exact ⟨range, (Option.some.inj found).symm⟩
        · simp at found
      · simp at found

theorem ashCount_eq {n : ClInt} (canonical : n.Canonical platform) (shift : Int) :
    ashCount platform n shift = alloc platform (floorShift n.toInt shift) := by
  have limbPath : (if 0 < shift then ashLeft platform n shift.toNat
      else ashRight platform n (-shift).toNat) =
      alloc platform (floorShift n.toInt shift) := by
    split
    · rename_i positive
      rw [floorShift_of_nonneg _ positive.le]
      exact ashLeft_eq canonical _
    · rename_i notPositive
      rw [floorShift_of_nonpos _ (by omega), alloc_of_fits (canonical.fits.shiftRight _)]
      exact ashRight_eq canonical _
  unfold ashCount
  cases n with
  | fixnum word =>
      dsimp only
      split
      · rename_i result found
        obtain ⟨range, rfl⟩ := ashFixnum_spec (word_range word) found
        exact (alloc_of_range range).symm
      · exact limbPath
  | bignum sign limbs => exact limbPath

theorem clArithAsh_fixnum {n : ClInt} (canonical : n.Canonical platform) (word : BitVec 31) :
    clArithAsh platform n (.fixnum word) = alloc platform (floorShift n.toInt word.toInt) := by
  unfold clArithAsh
  dsimp only
  split
  · rename_i zero
    rw [zero, floorShift_of_nonneg _ le_rfl]
    have same : n.toInt * 2 ^ (0 : Int).toNat = n.toInt := by simp
    rw [same, alloc_of_fits canonical.fits, ← canonical.eq_canon]
  · exact ashCount_eq canonical word.toInt

/-- For every integer and every fixnum count the shift is the floor of
`n * 2 ^ count`, or the storage error of an object too large for it. -/
theorem clArithAsh_exact (platform : Platform) (n : ClInt) (word : BitVec 31)
    (canonical : n.Canonical platform) :
    ExactOrStorage platform (clArithAsh platform n (.fixnum word)) ⌊(n.toInt : ℚ) * 2 ^ word.toInt⌋
      (limbCount ⌊(n.toInt : ℚ) * 2 ^ word.toInt⌋) := by
  rw [clArithAsh_fixnum canonical, floorShift_eq_floor]
  exact exactOrStorage_allocWith le_rfl

/-- The least fixnum, shifted right. -/
theorem clArithAsh_exact_negative :
    ExactOrStorage .m68k (clArithAsh .m68k (canon clFixnumMin) (.fixnum (-3)))
      ⌊((canon clFixnumMin).toInt : ℚ) * 2 ^ (-3 : BitVec 31).toInt⌋
      (limbCount ⌊((canon clFixnumMin).toInt : ℚ) * 2 ^ (-3 : BitVec 31).toInt⌋) :=
  clArithAsh_exact .m68k (canon clFixnumMin) (-3) trivial

theorem clArithAsh_right {n : ClInt} (canonical : n.Canonical platform)
    {word : BitVec 31} (right : word.toInt ≤ 0) :
    clArithAsh platform n (.fixnum word) = .ok (canon (n.toInt / 2 ^ (-word.toInt).toNat)) := by
  rw [clArithAsh_fixnum canonical, floorShift_of_nonpos _ right]
  exact alloc_of_fits (canonical.fits.shiftRight _)

end ClAmiga.Number
