import ClAmiga.Radix.BitCount
import ClAmiga.Gc.Forward

/-!
# The live-granule bitmap

`gc_popcount32` counts the set bits of a word, a set range adds exactly its own
granules, and the two words a page spans give the number of live granules
between the start of the page and a granule of it.
-/

namespace ClAmiga.Gc

open Radix

theorem lowMask_pairs : lowMask 1 16 = 0x55555555 := by decide

theorem lowMask_nibbles : lowMask 2 8 = 0x33333333 := by decide

theorem lowMask_bytes : lowMask 4 4 = 0x0F0F0F0F := by decide

theorem add_four {b0 b1 b2 b3 : Nat} (n high : Nat) (first : b0 ≤ 8)
    (second : b1 ≤ 8) (third : b2 ≤ 8) (fourth : b3 ≤ 8)
    (word : n = b0 + 256 * b1 + 65536 * b2 + 16777216 * b3)
    (shifted : high = b1 + 256 * b2 + 65536 * b3) :
    (n + high + (n + high) / 65536) % 64 = b0 + b1 + b2 + b3 := by
  have upper : (n + high) / 65536 = (b2 + b3) + 256 * b3 := by omega
  omega

theorem add_bytes {n : Nat} (word : n < 2 ^ 32) (fields : FieldsLe 8 8 4 n) :
    (n + n / 256 + (n + n / 256) / 65536) % 64 = total 8 4 n := by
  obtain ⟨first, second, third, fourth, -⟩ := fields
  have sum := add_four n (n / 256) first second third fourth (by omega) (by omega)
  simp only [total]
  omega

theorem toNat_pairs (x : BitVec 32) :
    (x - ((x >>> 1) &&& 0x55555555#32)).toNat = gather 1 16 x.toNat := by
  have smaller : x.toNat / 2 &&& 0x55555555 ≤ x.toNat :=
    Nat.and_le_left.trans (Nat.div_le_self _ _)
  rw [BitVec.toNat_sub_of_le]
  · simpa [lowMask_pairs, Nat.shiftRight_eq_div_pow] using sub_and_lowMask 16 x.isLt
  · simpa [BitVec.le_def, Nat.shiftRight_eq_div_pow] using smaller

theorem toNat_nibbles (x : BitVec 32) :
    ((x &&& 0x33333333#32) + ((x >>> 2) &&& 0x33333333#32)).toNat = gather 2 8 x.toNat := by
  have left : x.toNat &&& 0x33333333 ≤ 0x33333333 := Nat.and_le_right
  have right : x.toNat / 4 &&& 0x33333333 ≤ 0x33333333 := Nat.and_le_right
  rw [gather, lowMask_nibbles, BitVec.toNat_add_of_lt]
  · simp [Nat.shiftRight_eq_div_pow]
  · simp [Nat.shiftRight_eq_div_pow]
    omega

theorem gather_nibbles_le (n : Nat) : gather 2 8 n ≤ 0x66666666 := by
  have left : n &&& lowMask 2 8 ≤ lowMask 2 8 := Nat.and_le_right
  have right : n / 2 ^ 2 &&& lowMask 2 8 ≤ lowMask 2 8 := Nat.and_le_right
  rw [lowMask_nibbles] at left right
  rw [gather, lowMask_nibbles]
  omega

theorem toNat_bytes {x : BitVec 32} (fields : FieldsLe 4 4 8 x.toNat)
    (small : x.toNat ≤ 0x66666666) :
    ((x + (x >>> 4)) &&& 0x0F0F0F0F#32).toNat = gather 4 4 x.toNat := by
  rw [← and_lowMask_add (by omega) 4 fields, lowMask_bytes, BitVec.toNat_and,
    BitVec.toNat_add_of_lt]
  · simp [Nat.shiftRight_eq_div_pow]
  · simp [Nat.shiftRight_eq_div_pow]
    omega

theorem toNat_sum {x : BitVec 32} (fields : FieldsLe 8 8 4 x.toNat) (small : x.toNat ≤ 0x0F0F0F0F) :
    (((x + (x >>> 8)) + ((x + (x >>> 8)) >>> 16)) &&& 0x3F#32).toNat = total 8 4 x.toNat := by
  have halves : (x + (x >>> 8)).toNat = x.toNat + x.toNat / 256 := by
    rw [BitVec.toNat_add_of_lt]
    · simp [Nat.shiftRight_eq_div_pow]
    · simp [Nat.shiftRight_eq_div_pow]
      omega
  rw [← add_bytes x.isLt fields, BitVec.toNat_and, BitVec.toNat_add_of_lt, halves]
  · simpa [Nat.shiftRight_eq_div_pow, halves] using Nat.and_two_pow_sub_one_eq_mod _ 6
  · simp only [BitVec.toNat_ushiftRight, Nat.shiftRight_eq_div_pow, halves]
    omega

theorem toNat_gcPopcount32 (x : BitVec 32) : (gcPopcount32 x).toNat = ones x.toNat := by
  have twos : FieldsLe 2 2 16 (gather 1 16 x.toNat) :=
    fieldsLe_gather (by omega) 16 (fieldsLe_bits _ _)
  have fours : FieldsLe 4 4 8 (gather 2 8 (gather 1 16 x.toNat)) :=
    fieldsLe_gather (by omega) 8 twos
  have eights : FieldsLe 8 8 4 (gather 4 4 (gather 2 8 (gather 1 16 x.toNat))) :=
    fieldsLe_gather (by omega) 4 fours
  have small : gather 4 4 (gather 2 8 (gather 1 16 x.toNat)) ≤ 0x0F0F0F0F := by
    rw [← and_lowMask_add (by omega) 4 fours, lowMask_bytes]
    exact Nat.and_le_right
  unfold gcPopcount32
  dsimp only
  have nibbles := toNat_nibbles (x - ((x >>> 1) &&& 0x55555555#32))
  rw [toNat_pairs] at nibbles
  rw [← nibbles] at fours
  have bytes := toNat_bytes fours (nibbles ▸ gather_nibbles_le _)
  rw [nibbles] at bytes
  rw [← bytes] at eights small
  rw [toNat_sum eights small, bytes, @total_gather 4 (by omega),
    @total_gather 2 (by omega), @total_gather 1 (by omega),
    total_bits, Nat.mod_eq_of_lt x.isLt]

/-- Live granules below a granule. -/
def liveBelow (bits : List (BitVec 32)) (g : Nat) : Nat :=
  Nat.count (fun i => granule bits i = true) g

theorem granule_of_lt {bits : List (BitVec 32)} {word index : Nat} (inside : index < 32) :
    granule bits (32 * word + index) = (bits.getD word 0).toNat.testBit index := by
  rw [granule, Nat.mul_add_div (by omega), Nat.div_eq_of_lt inside,
    Nat.mul_add_mod, Nat.mod_eq_of_lt inside, Nat.add_zero,
    BitVec.testBit_toNat]

theorem liveBelow_add (bits : List (BitVec 32)) (word : Nat) {index : Nat} (inside : index ≤ 32) :
    liveBelow bits (32 * word + index) = liveBelow bits (32 * word) +
        ones ((bits.getD word 0).toNat % 2 ^ index) := by
  rw [liveBelow, Nat.count_add, ← count_testBit]
  congr 1
  apply count_congr
  intro i below
  rw [granule_of_lt (by omega)]

theorem liveBelow_countWords (bits : List (BitVec 32)) (word rounds : Nat) :
    liveBelow bits (32 * (word + rounds)) =
      liveBelow bits (32 * word) + countWords bits word rounds := by
  induction rounds generalizing word with
  | zero => rfl
  | succ rounds induction =>
      have first := liveBelow_add bits word (le_refl 32)
      rw [Nat.mod_eq_of_lt (BitVec.isLt _)] at first
      have step : word + (rounds + 1) = word + 1 + rounds := by omega
      rw [step, induction, Nat.mul_succ, first, countWords, toNat_gcPopcount32]
      omega

theorem toNat_lowBits (x : BitVec 32) {index : Nat} (inside : index < 32) :
    (x &&& ((1#32 <<< index) - 1#32)).toNat = x.toNat % 2 ^ index := by
  have power : 2 ^ index < 2 ^ 32 := Nat.pow_lt_pow_right (by omega) inside
  have positive : 0 < 2 ^ index := Nat.two_pow_pos _
  have shifted : (1#32 <<< index).toNat = 2 ^ index := by
    simp only [BitVec.toNat_shiftLeft, BitVec.toNat_ofNat, Nat.shiftLeft_eq,
      Nat.one_mod, Nat.one_mul]
    exact Nat.mod_eq_of_lt power
  have mask : ((1#32 <<< index) - 1#32).toNat = 2 ^ index - 1 := by
    rw [BitVec.toNat_sub_of_le]
    · simp [shifted]
    · simp [BitVec.le_def, shifted]
      omega
  rw [BitVec.toNat_and, mask, Nat.and_two_pow_sub_one_eq_mod]

theorem Host.page_eq (host : Host) : host.page = host.align * 64 := by
  cases host <;> decide

theorem Host.align_pos (host : Host) : 0 < host.align := by
  cases host <;> decide

theorem liveBelow_page (host : Host) (bits : List (BitVec 32)) (obj : Nat) :
    liveBelow bits (obj / host.align) =
      liveBelow bits (obj / host.page * 64) + livePrefix host bits obj := by
  have page : obj / host.page = obj / host.align / 64 := by
    rw [host.page_eq, Nat.div_div_eq_div_mul]
  have words := liveBelow_countWords bits (obj / host.page * wordsPerPage)
    (obj / host.align / 32 - obj / host.page * wordsPerPage)
  have last := liveBelow_add bits (obj / host.align / 32)
    (Nat.mod_lt (obj / host.align) (show 0 < 32 by omega)).le
  rw [Nat.div_add_mod] at last
  rw [last, livePrefix, toNat_gcPopcount32, toNat_lowBits _ (Nat.mod_lt _ (by omega))]
  unfold wordsPerPage at words ⊢
  have start : 32 * (obj / host.page * 2 + (obj / host.align / 32 - obj / host.page * 2)) =
        32 * (obj / host.align / 32) := by
    omega
  have first : 32 * (obj / host.page * 2) = obj / host.page * 64 := by omega
  rw [start, first] at words
  omega

theorem granule_orWord {bits : List (BitVec 32)} {word : Nat}
    (inside : word < bits.length) (mask : BitVec 32) (g : Nat) :
    granule (bits.modify word (· ||| mask)) g =
      (granule bits g || (decide (g / 32 = word) && mask.getLsbD (g % 32))) := by
  unfold granule
  rw [List.getD_eq_getElem?_getD, List.getD_eq_getElem?_getD, List.getElem?_modify]
  by_cases here : g / 32 = word
  · rw [here]
    simp [List.getElem?_eq_getElem inside, BitVec.getLsbD_or]
  · simp [here, Ne.symm here]

theorem length_fillWords (bits : List (BitVec 32)) (word rounds : Nat) :
    (fillWords bits word rounds).length = bits.length := by
  induction rounds generalizing bits word with
  | zero => rfl
  | succ rounds induction => rw [fillWords, induction, List.length_set]

theorem granule_fillWords (bits : List (BitVec 32)) {word rounds : Nat}
    (inside : word + rounds ≤ bits.length) (g : Nat) :
    granule (fillWords bits word rounds) g =
      (granule bits g || decide (word ≤ g / 32 ∧ g / 32 < word + rounds)) := by
  induction rounds generalizing bits word with
  | zero =>
      have none : ¬ (word ≤ g / 32 ∧ g / 32 < word + 0) := by omega
      rw [fillWords, decide_eq_false none, Bool.or_false]
  | succ rounds induction =>
      have set : granule (bits.set word (BitVec.allOnes 32)) g =
          (granule bits g || decide (g / 32 = word)) := by
        unfold granule
        rw [List.getD_eq_getElem?_getD, List.getD_eq_getElem?_getD, List.getElem?_set]
        have low : g % 32 < 32 := Nat.mod_lt _ (by omega)
        by_cases here : word = g / 32
        · rw [if_pos here, if_pos (by omega), Option.getD_some,
            BitVec.getLsbD_allOnes, decide_eq_true low,
            decide_eq_true here.symm, Bool.or_true]
        · simp [here, Ne.symm here]
      rw [fillWords, induction _ (by rw [List.length_set]; omega), set,
        Bool.or_assoc, ← Bool.decide_or]
      congr 2
      simp only [eq_iff_iff]
      omega

theorem getLsbD_highMask {from_ index : Nat} (inside : index < 32) :
    (BitVec.allOnes 32 <<< from_).getLsbD index = decide (from_ ≤ index) := by
  rw [BitVec.getLsbD_shiftLeft, BitVec.getLsbD_allOnes, Bool.eq_iff_iff]
  simp
  omega

theorem getLsbD_lowMask {last index : Nat} (inside : last < 32) :
    (BitVec.allOnes 32 >>> (31 - last)).getLsbD index =
      decide (index ≤ last) := by
  rw [BitVec.getLsbD_ushiftRight, BitVec.getLsbD_allOnes, Bool.eq_iff_iff]
  simp
  omega

theorem granule_gcFwdSetRange {bits : List (BitVec 32)} {g0 g1 : Nat}
    (order : g0 < g1) (inside : g1 ≤ 32 * bits.length) (g : Nat) :
    granule (gcFwdSetRange bits g0 g1) g = (granule bits g || decide (g0 ≤ g ∧ g < g1)) := by
  have low : g % 32 < 32 := Nat.mod_lt _ (by omega)
  have last : (g1 - 1) % 32 < 32 := Nat.mod_lt _ (by omega)
  unfold gcFwdSetRange
  dsimp only
  split
  · rename_i oneWord
    rw [granule_orWord (by omega), BitVec.getLsbD_and, getLsbD_highMask low,
      getLsbD_lowMask last, ← Bool.decide_and, ← Bool.decide_and]
    congr 2
    simp only [eq_iff_iff]
    omega
  · rename_i moreWords
    rw [granule_orWord (by rw [length_fillWords, List.length_modify]; omega),
      granule_fillWords _ (by rw [List.length_modify]; omega),
      granule_orWord (by omega), getLsbD_highMask low, getLsbD_lowMask last,
      ← Bool.decide_and, ← Bool.decide_and, Bool.or_assoc, Bool.or_assoc,
      ← Bool.decide_or, ← Bool.decide_or]
    congr 2
    simp only [eq_iff_iff]
    omega

theorem length_gcFwdSetRange (bits : List (BitVec 32)) (g0 g1 : Nat) :
    (gcFwdSetRange bits g0 g1).length = bits.length := by
  unfold gcFwdSetRange
  dsimp only
  split
  · rw [List.length_modify]
  · rw [List.length_modify, length_fillWords, List.length_modify]

end ClAmiga.Gc
