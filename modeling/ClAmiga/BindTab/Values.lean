import ClAmiga.BindTab.Read

/-!
# The value of a constant

An integer is stored as an unsigned word, as a signed word, or as a sign and a
magnitude in the arena; a string is stored in the arena.  `Encodes` names what each
encoding stands for; the packer only makes such encodings, and the reader
gets the value back from each of them.
-/

namespace ClAmiga.BindTab

open Wire Number Bignum Radix

@[simp] theorem valueBe_nil : valueBe [] = 0 := rfl

theorem valueBe_append (front back : List UInt8) :
    valueBe (front ++ back) = valueBe front * 2 ^ (8 * back.length) + valueBe back := by
  induction back using List.reverseRecOn with
  | nil => simp
  | append_singleton back last induction =>
      rw [← List.append_assoc]
      simp only [valueBe, List.foldl_append, List.foldl_cons, List.foldl_nil] at induction ⊢
      rw [induction, List.length_append, List.length_singleton, Nat.mul_add, Nat.pow_add]
      ring

theorem valueBe_zero_cons (mag : List UInt8) : valueBe (0 :: mag) = valueBe mag := by
  simp [valueBe]

theorem valueBe_dropWhile_zero (mag : List UInt8) :
    valueBe (mag.dropWhile (· = 0)) = valueBe mag := by
  induction mag with
  | nil => rfl
  | cons byte mag induction =>
      by_cases zero : byte = 0
      · subst zero
        rw [List.dropWhile_cons_of_pos (by simp), induction, valueBe_zero_cons]
      · rw [List.dropWhile_cons_of_neg (by simpa using zero)]

theorem valueBe_fixnumMagnitude {m : Nat} (bound : m < 2 ^ 32) :
    valueBe (fixnumMagnitude m) = m := by
  rw [fixnumMagnitude, valueBe_dropWhile_zero]
  simp only [valueBe, List.map_cons, List.map_nil, List.foldl_cons, List.foldl_nil,
    UInt8.toNat_ofNat']
  omega

theorem length_fixnumMagnitude (m : Nat) : (fixnumMagnitude m).length ≤ 4 :=
  (List.dropWhile_sublist _).length_le

theorem valueBe_magnitudeStep (mag : List UInt8) (limb : Limb) :
    valueBe (magnitudeStep mag limb) = valueBe mag * 2 ^ 16 + limb.toNat := by
  have limbBound := limb.isLt
  have joined : valueBe [UInt8.ofNat (limb.toNat / 2 ^ 8), UInt8.ofNat limb.toNat] =
      limb.toNat := by
    simp only [valueBe, List.foldl_cons, List.foldl_nil, UInt8.toNat_ofNat']
    omega
  unfold magnitudeStep
  dsimp only
  split
  · next first =>
      rw [first.2, valueBe_zero_cons] at joined
      rw [first.1]
      split
      · simpa using joined
      · next low =>
          rw [not_not] at low
          rw [low] at joined
          simpa [valueBe] using joined
  · rw [valueBe_append, joined]
    rfl

theorem length_magnitudeStep (mag : List UInt8) (limb : Limb) :
    (magnitudeStep mag limb).length ≤ mag.length + 2 := by
  unfold magnitudeStep
  dsimp only
  split
  · split <;> simp
  · simp

theorem valueBe_magnitude (limbs : List Limb) :
    valueBe (limbs.reverse.foldl magnitudeStep []) = value limbs := by
  induction limbs with
  | nil => rfl
  | cons limb limbs induction =>
      rw [List.reverse_cons, List.foldl_append, List.foldl_cons, List.foldl_nil,
        valueBe_magnitudeStep, induction, value_cons]
      ring

theorem length_magnitude (limbs : List Limb) :
    (limbs.reverse.foldl magnitudeStep []).length ≤ 2 * limbs.length := by
  induction limbs with
  | nil => simp
  | cons limb limbs induction =>
      rw [List.reverse_cons, List.foldl_append, List.foldl_cons, List.foldl_nil, List.length_cons]
      have step := length_magnitudeStep (limbs.reverse.foldl magnitudeStep []) limb
      omega

theorem or_shift8 {lo hi : Nat} (bound : lo < 2 ^ 8) : lo ||| (hi <<< 8) = hi * 2 ^ 8 + lo := by
  rw [Nat.shiftLeft_eq, Nat.or_comm, Nat.mul_comm, ← Nat.two_pow_add_eq_or_of_lt bound]

theorem limbsOfMag_append (mag : List UInt8) (hi lo : UInt8) : limbsOfMag (mag ++ [hi, lo]) =
      BitVec.ofNat 16 (hi.toNat * 2 ^ 8 + lo.toNat) :: limbsOfMag mag := by
  have count : ((mag ++ [hi, lo]).length + 1) / 2 = (mag.length + 1) / 2 + 1 := by
    rw [List.length_append, List.length_cons, List.length_singleton]
    omega
  rw [limbsOfMag, count, List.range_succ_eq_map, List.map_cons, List.map_map]
  have low : byteAt (mag ++ [hi, lo]) (mag.length + 1) = lo.toNat :=
    byteAt_append_right mag [hi, lo] 1
  have high : byteAt (mag ++ [hi, lo]) mag.length = hi.toNat :=
    byteAt_append_right mag [hi, lo] 0
  congr 1
  · simp only [List.length_append, List.length_cons, List.length_nil, Nat.mul_zero, Nat.zero_add,
      Nat.sub_zero, Nat.add_sub_cancel, Nat.le_add_left, if_true,
      show mag.length + (1 + 1) - 1 = mag.length + 1 by omega, low, high,
      or_shift8 lo.toNat_lt]
  · apply List.map_congr_left
    intro i inside
    rw [List.mem_range] at inside
    have shorter : (mag ++ [hi, lo]).length - 2 * (i + 1) = mag.length - 2 * i := by
      rw [List.length_append, List.length_cons, List.length_singleton]
      omega
    have enough : 2 * (i + 1) + 2 ≤ (mag ++ [hi, lo]).length ↔ 2 * i + 2 ≤ mag.length := by
      rw [List.length_append, List.length_cons, List.length_singleton]
      omega
    simp only [Function.comp_apply, Nat.succ_eq_add_one, shorter, enough]
    rw [byteAt_append_left [hi, lo] (show mag.length - 2 * i - 1 < mag.length by omega)]
    by_cases both : 2 * i + 2 ≤ mag.length
    · rw [if_pos both, if_pos both,
        byteAt_append_left [hi, lo] (show mag.length - 2 * i - 2 < mag.length by omega)]
    · rw [if_neg both, if_neg both]

/-- The limbs of a magnitude have its value; the induction takes two bytes at a time. -/
theorem value_limbsOfMag (mag : List UInt8) : value (limbsOfMag mag) = valueBe mag := by
  have upTo : ∀ size (mag : List UInt8), mag.length ≤ size →
      value (limbsOfMag mag) = valueBe mag := by
    intro size
    induction size with
    | zero =>
        intro mag short
        rw [List.length_eq_zero_iff.mp (Nat.le_zero.mp short)]
        rfl
    | succ size induction =>
        intro mag short
        cases mag using List.reverseRecOn with
        | nil => rfl
        | append_singleton mag lo =>
            cases mag using List.reverseRecOn with
            | nil => simp [limbsOfMag, byteAt, valueBe, value_cons]
            | append_singleton mag hi =>
                have hiBound := hi.toNat_lt
                have loBound := lo.toNat_lt
                rw [List.append_assoc, List.singleton_append] at short ⊢
                rw [List.length_append, List.length_cons, List.length_singleton] at short
                rw [limbsOfMag_append, value_cons, induction mag (by omega), valueBe_append,
                  BitVec.toNat_ofNat, Nat.mod_eq_of_lt (by omega)]
                simp only [valueBe, List.foldl_cons, List.foldl_nil, List.length_cons,
                  List.length_nil]
                ring
  exact upTo _ _ le_rfl

theorem value_limbs64 {v : Nat} (bound : v < 2 ^ 64) : value (limbs64 v) = v := by
  simp only [limbs64, value_cons, value_nil, BitVec.toNat_ofNat, Nat.shiftRight_eq_div_pow]
  omega

theorem ffiU64ToObj_eq {v : Nat} (bound : v < 2 ^ 64) : ffiU64ToObj v = canon v := by
  unfold ffiU64ToObj
  split
  · next small =>
      rw [canon_of_range]
      simp only [InFixnumRange, clFixnumMin]
      omega
  · rw [clBignumNormalize_eq false (by simp [limbs64]), value_limbs64 bound]
    rfl

theorem ffiI64ToObj_eq {v : Int} (bound : v.natAbs < 2 ^ 64) : ffiI64ToObj v = canon v := by
  unfold ffiI64ToObj
  split
  · next small => rw [canon_of_range small]
  · rw [clBignumNormalize_eq _ (by simp [limbs64]), value_limbs64 bound, signed_natAbs]

def Ascii (bytes : List UInt8) : Prop :=
  ∀ byte ∈ bytes, byte.toNat < 0x80

theorem Ascii.anyHigh {bytes : List UInt8} (ascii : Ascii bytes) : anyHigh bytes = false := by
  simp only [BindTab.anyHigh, List.any_eq_false, decide_eq_true_eq, not_le]
  exact ascii

/-- The encodings that the packer makes, each with the object it stands for. -/
inductive Encodes : Encoded → Obj → Prop
  | unsigned {m : Nat} (bound : m < 2 ^ 32) : Encodes ⟨0, m, none⟩ (.integer (canon m))
  | negative {m : Nat} (bound : m ≤ 2 ^ 31) :
      Encodes ⟨flagSigned, (2 ^ 32 - m) % 2 ^ 32, none⟩ (.integer (canon (-(m : Int))))
  | wide (neg : Bool) {mag : List UInt8} (nonempty : mag ≠ []) (short : mag.length ≤ 255) :
      Encodes
        ⟨flagWide, 0, some (UInt8.ofNat mag.length :: UInt8.ofNat (if neg then 1 else 0) :: mag)⟩
        (.integer (canon (signed neg (valueBe mag))))
  | string {bytes : List UInt8} (short : bytes.length ≤ 255) (ascii : Ascii bytes) :
      Encodes ⟨flagString, 0, some (UInt8.ofNat bytes.length :: bytes)⟩
        (.string (bytes.map UInt8.toNat))

def canonicalValue : Obj → Obj
  | .integer v => .integer (canon v.toInt)
  | obj => obj

theorem asciiBytes_ok {low : Nat} {chars : List Nat} {bytes : List UInt8}
    (accepted : asciiBytes? low chars = some bytes) :
    bytes = chars.map UInt8.ofNat ∧ Ascii bytes ∧ bytes.map UInt8.toNat = chars ∧
      ∀ c ∈ chars, low ≤ c := by
  unfold asciiBytes? at accepted
  split at accepted
  · next all =>
      rw [List.all_eq_true] at all
      have range : ∀ c ∈ chars, low ≤ c ∧ c < 0x80 := by
        intro c member
        simpa using all c member
      obtain rfl := Option.some.inj accepted
      refine ⟨rfl, ?_, ?_, ?_⟩
      · intro byte member
        obtain ⟨c, charMember, rfl⟩ := List.mem_map.mp member
        rw [UInt8.toNat_ofNat']
        exact lt_of_le_of_lt (Nat.mod_le _ _) (range c charMember).2
      · rw [List.map_map]
        conv_rhs => rw [← List.map_id chars]
        apply List.map_congr_left
        intro c member
        have small := (range c member).2
        rw [Function.comp_apply, UInt8.toNat_ofNat', id]
        exact Nat.mod_eq_of_lt (by omega)
      · intro c member
        exact (range c member).1
  · cases accepted

theorem valueBe_lt (mag : List UInt8) : valueBe mag < 2 ^ (8 * mag.length) := by
  induction mag using List.reverseRecOn with
  | nil => simp
  | append_singleton mag byte induction =>
      have bound := byte.toNat_lt
      rw [valueBe_append, List.length_append, List.length_singleton, Nat.mul_add, Nat.pow_add]
      have one : valueBe [byte] = byte.toNat := by simp [valueBe]
      rw [one]
      calc valueBe mag * 2 ^ (8 * 1) + byte.toNat
          < (valueBe mag + 1) * 2 ^ (8 * 1) := by rw [Nat.add_mul]; omega
        _ ≤ 2 ^ (8 * mag.length) * 2 ^ (8 * 1) := Nat.mul_le_mul_right _ induction

theorem encodeInteger_encodes (neg : Bool) {mag : List UInt8} (short : mag.length ≤ 255) :
    Encodes (encodeInteger neg mag) (.integer (canon (signed neg (valueBe mag)))) := by
  unfold encodeInteger
  dsimp only
  split
  · next few =>
      have bound : valueBe mag < 2 ^ 32 :=
        (valueBe_lt mag).trans_le (Nat.pow_le_pow_right (by omega) (by omega))
      split
      · next positive =>
          subst positive
          exact .unsigned bound
      · next negative =>
          rw [Bool.not_eq_false] at negative
          subst negative
          split
          · next small => exact .negative small
          · next large =>
              refine .wide true ?_ short
              rintro rfl
              exact large (Nat.zero_le _)
  · next many =>
      refine .wide neg ?_ short
      rintro rfl
      exact many (Nat.zero_le _)

theorem encodeValue_encodes {row : Nat} {name : List UInt8} {value : Obj} {enc : Encoded}
    (accepted : encodeValue row name value = .ok enc) :
    Encodes enc (canonicalValue value) := by
  unfold encodeValue at accepted
  split at accepted
  · next chars =>
      split at accepted
      · cases accepted
      · next short =>
          split at accepted
          · cases accepted
          · next bytes ascii =>
              obtain ⟨made, isAscii, back, -⟩ := asciiBytes_ok ascii
              have count : bytes.length = chars.length := by rw [made, List.length_map]
              obtain rfl := Except.ok.inj accepted
              rw [canonicalValue, ← back]
              · exact .string (by omega) isAscii
              · simp
  · next word =>
      obtain rfl := Except.ok.inj accepted
      have range := word_range word
      simp only [InFixnumRange, clFixnumMin, clFixnumMax] at range
      have few := length_fixnumMagnitude word.toInt.natAbs
      have encodes := encodeInteger_encodes (decide (word.toInt < 0))
        (show (fixnumMagnitude word.toInt.natAbs).length ≤ 255 by omega)
      rwa [valueBe_fixnumMagnitude (by omega), signed_natAbs] at encodes
  · next sign limbs =>
      split at accepted
      · cases accepted
      · obtain rfl := Except.ok.inj accepted
        have few := length_magnitude limbs
        have encodes := encodeInteger_encodes sign
          (show (limbs.reverse.foldl magnitudeStep []).length ≤ 255 by omega)
        rwa [valueBe_magnitude] at encodes
  · cases accepted

/-- The entry leads to the payload of an encoding, or holds its word. -/
def Found (v : View) (e : Entry) (enc : Encoded) : Prop :=
  match enc.payload with
  | none => e.a = enc.a
  | some payload =>
      ∃ before after, v.names = before ++ (payload ++ after) ∧ e.a = before.length

theorem toNat_ofNat_length {bytes : List UInt8} (short : bytes.length ≤ 255) :
    (UInt8.ofNat bytes.length).toNat = bytes.length := by
  rw [UInt8.toNat_ofNat']
  exact Nat.mod_eq_of_lt (by omega)

theorem Encodes.read {v : View} {e : Entry} {enc : Encoded} {obj : Obj}
    (encodes : Encodes enc obj) (sameFlags : e.flags = enc.flags) (found : Found v e enc)
    (measured : v.namesLen = v.names.length) :
    checkValue v e = none ∧ valueToObj (decodeValue v e) = obj := by
  cases encodes with
  | @unsigned m bound =>
      have word : e.a = m := found
      simp only at sameFlags
      constructor
      · simp [checkValue, sameFlags, hasFlag]
      · simp only [decodeValue, sameFlags, hasFlag, Nat.zero_and, ne_eq, not_true, decide_false,
          Bool.false_eq_true, if_false, valueToObj, if_true, word]
        rw [ffiU64ToObj_eq (by omega)]
  | @negative m bound =>
      have word : e.a = (2 ^ 32 - m) % 2 ^ 32 := found
      have cast : toInt32 ((2 ^ 32 - m) % 2 ^ 32) = -(m : Int) := by
        unfold toInt32
        split <;> omega
      simp only at sameFlags
      constructor
      · simp [checkValue, sameFlags, hasFlag, flagSigned, flagWide, flagString]
      · have read : decodeValue v e = ⟨false, false, e.a, true, 0, []⟩ := by
          rw [decodeValue, sameFlags]
          rfl
        rw [read]
        simp only [valueToObj, Bool.false_eq_true, if_false, if_true, word, cast]
        rw [ffiI64ToObj_eq (by omega)]
  | @wide neg mag nonempty short =>
      obtain ⟨before, after, arena, place⟩ := found
      simp only at sameFlags
      have arenaLength := congrArg List.length arena
      simp only [List.length_append, List.length_cons] at arenaLength
      have count : byteAt v.names e.a = mag.length := by
        rw [arena, place]
        exact (byteAt_append_right before _ 0).trans (toNat_ofNat_length short)
      have sign : byteAt v.names (e.a + 1) = if neg then 1 else 0 := by
        rw [arena, place, byteAt_append_right before _ 1]
        cases neg <;> rfl
      have bytes : slice v.names (e.a + 2) mag.length = mag := by
        rw [arena, place, slice_append_right before _ 2]
        exact slice_front mag after
      have positive : 0 < mag.length := List.length_pos_of_ne_nil nonempty
      constructor
      · have inside : e.a + 2 + mag.length ≤ v.namesLen := by omega
        simp only [checkValue, sameFlags, count]
        simp only [hasFlag, flagWide, flagString]
        simp [nonempty]
        rw [if_neg (by omega), if_neg (by omega)]
      · have read : decodeValue v e =
            ⟨true, false, e.a, false, if neg then 1 else 0, mag⟩ := by
          rw [decodeValue, sameFlags, count, sign, bytes]
          rfl
        rw [read]
        simp only [valueToObj, Bool.false_eq_true, if_false, Bool.true_eq_false]
        have sized : limbsOfMag mag ≠ [] := by
          simp only [limbsOfMag, ne_eq, List.map_eq_nil_iff, List.range_eq_nil]
          omega
        rw [clBignumNormalize_eq _ sized, value_limbsOfMag]
        cases neg <;> rfl
  | @string chars short ascii =>
      obtain ⟨before, after, arena, place⟩ := found
      simp only at sameFlags
      have arenaLength := congrArg List.length arena
      simp only [List.length_append, List.length_cons] at arenaLength
      have count : byteAt v.names e.a = chars.length := by
        rw [arena, place]
        exact (byteAt_append_right before _ 0).trans (toNat_ofNat_length short)
      have bytes : slice v.names (e.a + 1) chars.length = chars := by
        rw [arena, place, slice_append_right before _ 1]
        exact slice_front chars after
      constructor
      · have inside : e.a + 1 + chars.length ≤ v.namesLen := by omega
        simp only [checkValue, sameFlags, count, bytes, ascii.anyHigh]
        simp [hasFlag, flagWide, flagString]
        omega
      · have read : decodeValue v e = ⟨false, true, e.a, false, 0, chars⟩ := by
          rw [decodeValue, sameFlags, count, bytes]
          rfl
        rw [read]
        rfl

end ClAmiga.BindTab
