import ClAmiga.Strings.Decode

/-!
# Encoding into a bounded buffer

`cl_wide_string_to_utf8` writes the encodings of as many characters as fit before the last
byte of the buffer, whole, and the terminator behind them.
-/

namespace ClAmiga.Strings

open ReadPrint (clUtf8Encode)

theorem length_clUtf8Encode (code : Nat) : (clUtf8Encode code).length ≤ 4 := by
  rw [clUtf8Encode]
  split_ifs <;> simp

theorem length_codeBytes (code : Nat) :
    0 < (codeBytes code).length ∧ (codeBytes code).length ≤ 4 := by
  rw [codeBytes]
  split
  · decide
  · next encoded => exact ⟨List.length_pos_iff.mpr encoded, length_clUtf8Encode code⟩

theorem codeBytes_char (c : Char) :
    (codeBytes c.toNat).map UInt8.ofNat = String.utf8EncodeChar c := by
  rw [codeBytes, if_neg (ReadPrint.clUtf8Encode_ne_nil c), ← utf8EncodeChar_eq, List.map_map]
  refine (List.map_congr_left fun byte _ => ?_).trans (List.map_id _)
  exact UInt8.ofNat_toNat

theorem writeBytes_eq {bytes : List Nat} {buf : List UInt8} {pos : Nat}
    (fits : pos + bytes.length ≤ buf.length) :
    writeBytes buf pos bytes =
      some (buf.take pos ++ bytes.map UInt8.ofNat ++ buf.drop (pos + bytes.length)) := by
  induction bytes generalizing buf pos with
  | nil => simp [writeBytes]
  | cons byte bytes induction =>
      rw [List.length_cons] at fits
      have inside : pos < buf.length := by omega
      rw [writeBytes, writeByte, if_pos inside]
      dsimp only
      rw [induction (by rw [List.length_set]; omega)]
      congr 1
      rw [List.take_add_one, List.take_set, List.set_eq_of_length_le (by simp),
        List.getElem?_set_self inside, List.drop_set, if_pos (by omega), List.length_cons]
      rw [show pos + 1 + bytes.length = pos + (bytes.length + 1) by omega]
      simp

theorem encodeCodes_eq {limit : Nat} {codes : List Nat} {buf : List UInt8} {pos : Nat}
    (room : limit ≤ buf.length) (start : pos ≤ limit)
    (narrow : pos + 4 * codes.length < 2 ^ 32) :
    ∃ k ≤ codes.length, encodeCodes limit codes buf pos =
        some (buf.take pos ++ ((codes.take k).flatMap codeBytes).map UInt8.ofNat ++
          buf.drop (pos + ((codes.take k).flatMap codeBytes).length),
          pos + ((codes.take k).flatMap codeBytes).length) ∧
      pos + ((codes.take k).flatMap codeBytes).length ≤ limit ∧
      ∀ code, codes[k]? = some code →
        limit < pos + ((codes.take k).flatMap codeBytes).length + (codeBytes code).length := by
  induction codes generalizing buf pos with
  | nil => exact ⟨0, Nat.le_refl _, by simp [encodeCodes], by simpa using start, by simp⟩
  | cons code codes induction =>
      obtain ⟨positive, four⟩ := length_codeBytes code
      rw [List.length_cons] at narrow
      have wraps : (pos + (codeBytes code).length) % 2 ^ 32 = pos + (codeBytes code).length :=
        Nat.mod_eq_of_lt (by omega)
      by_cases fits : pos + (codeBytes code).length ≤ limit
      · have written := writeBytes_eq (Nat.le_trans fits room)
        rw [encodeCodes, wraps, if_pos (by omega), if_neg (by omega), written]
        dsimp only
        have length : (buf.take pos ++ (codeBytes code).map UInt8.ofNat ++
            buf.drop (pos + (codeBytes code).length)).length = buf.length := by
          simp only [List.length_append, List.length_take, List.length_map, List.length_drop]
          omega
        obtain ⟨k, bound, result, within, stops⟩ := induction (by rw [length]; exact room) fits
          (by omega)
        have front : (buf.take pos ++ (codeBytes code).map UInt8.ofNat).length =
            pos + (codeBytes code).length := by
          simp only [List.length_append, List.length_take, List.length_map]
          omega
        refine ⟨k + 1, by rw [List.length_cons]; omega, ?_, ?_, ?_⟩
        · rw [result, List.take_succ_cons, List.flatMap_cons, List.length_append, List.map_append,
            ← Nat.add_assoc, List.take_append_of_le_length (by omega),
            List.take_of_length_le (by omega), ← List.append_assoc (buf.take pos)]
          congr 3
          rw [List.drop_append, front, List.drop_eq_nil_of_le (by omega), List.nil_append,
            List.drop_drop, Nat.add_sub_cancel_left]
        · rw [List.take_succ_cons, List.flatMap_cons, List.length_append]
          omega
        · intro next found
          have beyond := stops next (by simpa using found)
          rw [List.take_succ_cons, List.flatMap_cons, List.length_append]
          omega
      · have stopped : encodeCodes limit (code :: codes) buf pos = some (buf, pos) := by
          rw [encodeCodes, wraps]
          split
          · rw [if_pos (by omega)]
          · rfl
        refine ⟨0, Nat.zero_le _, ?_, by simpa using start, ?_⟩
        · rw [stopped]
          simp
        · intro next found
          obtain rfl : code = next := by simpa using found
          simp only [List.take_zero, List.flatMap_nil, List.length_nil]
          omega

/-- The characters that fit before the last byte are written whole, with a terminator, and
the rest of the buffer stays. -/
theorem clWideStringToUtf8_bounded {host : Host} (string : WideString host) (buf : List UInt8) :
    ∃ k ≤ string.data.length, clWideStringToUtf8 string buf =
        some (((string.data.take k).flatMap codeBytes).map UInt8.ofNat ++
          (if buf = [] then [] else
            0 :: buf.drop (((string.data.take k).flatMap codeBytes).length + 1)),
          ((string.data.take k).flatMap codeBytes).length) ∧
      ((string.data.take k).flatMap codeBytes).length ≤ buf.length - 1 ∧
      ∀ code, string.data[k]? = some code → buf.length - 1 <
          ((string.data.take k).flatMap codeBytes).length + (codeBytes code).length := by
  have small : string.data.length ≤ maxWideStringChars := by
    have fits := string.fits
    rw [wideStringFits, Bool.and_eq_true, decide_eq_true_eq] at fits
    exact fits.1
  have narrow : 0 + 4 * string.data.length < 2 ^ 32 := by
    have : maxWideStringChars = 2097149 := rfl
    omega
  obtain ⟨k, bound, result, within, stops⟩ :=
    encodeCodes_eq (Nat.sub_le buf.length 1) (Nat.zero_le _) narrow
  rw [Nat.zero_add] at result within
  refine ⟨k, bound, ?_, within, ?_⟩
  · rw [clWideStringToUtf8, result]
    generalize (string.data.take k).flatMap codeBytes = out at within
    dsimp only
    rw [List.take_zero, List.nil_append]
    cases buf with
    | nil =>
        obtain rfl : out = [] := List.eq_nil_of_length_eq_zero (by simpa using within)
        rfl
    | cons first buf =>
        rw [List.length_cons] at within
        have fits : out.length < (first :: buf).length := by
          rw [List.length_cons]
          omega
        have same : (out.map UInt8.ofNat ++ (first :: buf).drop out.length).length =
            (first :: buf).length := by
          rw [List.length_append, List.length_map, List.length_drop]
          omega
        rw [if_pos (by rw [same]; omega), if_neg (List.cons_ne_nil _ _), writeByte,
          if_pos (by rw [same]; exact fits), Option.map_some]
        congr 2
        rw [List.set_append, List.length_map, if_neg (Nat.lt_irrefl _), Nat.sub_self,
          List.drop_eq_getElem_cons fits, List.set_cons_zero]
        rfl
  · intro code found
    have beyond := stops code found
    rwa [Nat.zero_add] at beyond

/-- A string of scalar values in a buffer with room for it and the terminator is written
whole. -/
theorem clWideStringToUtf8_whole {host : Host} {chars : List Char}
    (fits : wideStringFits host (chars.map Char.toNat).length = true) (buf : List UInt8)
    (room : (chars.flatMap String.utf8EncodeChar).length < buf.length) :
    @clWideStringToUtf8 host ⟨chars.map Char.toNat, fits⟩ buf =
      some (chars.flatMap String.utf8EncodeChar ++
        0 :: buf.drop ((chars.flatMap String.utf8EncodeChar).length + 1),
        (chars.flatMap String.utf8EncodeChar).length) := by
  have bytes : ∀ front : List Char, ((front.map Char.toNat).flatMap codeBytes).map UInt8.ofNat =
      front.flatMap String.utf8EncodeChar := by
    intro front
    rw [List.flatMap_map, List.map_flatMap]
    exact congrArg (front.flatMap ·) (funext codeBytes_char)
  have lengths : ∀ front : List Char, ((front.map Char.toNat).flatMap codeBytes).length =
      (front.flatMap String.utf8EncodeChar).length := by
    intro front
    rw [← bytes, List.length_map]
  obtain ⟨k, bound, result, _, stops⟩ :=
    @clWideStringToUtf8_bounded host ⟨chars.map Char.toNat, fits⟩ buf
  dsimp only at bound result stops
  rw [← List.map_take, bytes, lengths] at result
  have all : chars.take k = chars := by
    by_contra short
    have inside : k < chars.length := by
      by_contra long
      exact short (List.take_of_length_le (Nat.le_of_not_lt long))
    have beyond := stops (chars[k].toNat) (by simp [inside])
    rw [← List.map_take, lengths] at beyond
    have split : (chars.flatMap String.utf8EncodeChar).length =
        ((chars.take k).flatMap String.utf8EncodeChar).length +
          (String.utf8EncodeChar chars[k]).length +
            ((chars.drop (k + 1)).flatMap String.utf8EncodeChar).length := by
      conv_lhs => rw [← List.take_append_drop k chars, List.drop_eq_getElem_cons inside]
      rw [List.flatMap_append, List.flatMap_cons, List.length_append, List.length_append]
      omega
    rw [← codeBytes_char, List.length_map] at split
    omega
  rw [all, if_neg (List.ne_nil_of_length_pos (by omega))] at result
  exact result

theorem utf8EncodeChar_append_inj {c d : Char} {rest others : List UInt8}
    (same : String.utf8EncodeChar c ++ rest = String.utf8EncodeChar d ++ others) :
    c = d ∧ rest = others := by
  have left := ReadPrint.clUtf8Decode_encode c (rest.map UInt8.toNat)
  have right := ReadPrint.clUtf8Decode_encode d (others.map UInt8.toNat)
  rw [← utf8EncodeChar_eq, ← List.map_append] at left right
  rw [same, right, Option.some.injEq, Prod.mk.injEq, List.length_map, List.length_map] at left
  have chars : c = d := Char.ext (UInt32.toNat_inj.mp left.1.symm)
  subst chars
  exact ⟨rfl, List.append_cancel_left same⟩

theorem Decodes.encoded {bytes : List UInt8} {chars others : List Char}
    (decodes : Decodes bytes others) (encoded : bytes = chars.flatMap String.utf8EncodeChar) :
    others = chars := by
  induction decodes generalizing chars with
  | nil =>
      cases chars with
      | nil => rfl
      | cons d chars =>
          rw [List.flatMap_cons] at encoded
          exact absurd (List.append_eq_nil_iff.mp encoded.symm).1 String.utf8EncodeChar_ne_nil
  | scalar c later induction =>
      cases chars with
      | nil => exact absurd (List.append_eq_nil_iff.mp encoded).1 String.utf8EncodeChar_ne_nil
      | cons d chars =>
          rw [List.flatMap_cons] at encoded
          obtain ⟨rfl, rest⟩ := utf8EncodeChar_append_inj encoded
          rw [induction rest]
  | malformed some never later induction =>
      cases chars with
      | nil => exact absurd (List.append_eq_nil_iff.mp encoded).1 some
      | cons d chars =>
          rw [List.flatMap_cons] at encoded
          refine absurd ?_ (never 0 (List.length_pos_iff.mpr some) d)
          rw [List.drop_zero, encoded]
          exact List.prefix_append _ _

theorem stringFits_of_wide {host : Host} {len : Nat} (fits : wideStringFits host len = true) :
    stringFits host len = true := by
  have small : len ≤ 2097149 := by
    rw [wideStringFits, Bool.and_eq_true, decide_eq_true_eq] at fits
    exact fits.1
  rw [stringFits, Bool.and_eq_true, allocates, decide_eq_true_eq, decide_eq_true_eq]
  cases host
  · change len ≤ 8388598 ∧ (8 + len + 1 + 4 - 1) / 4 * 4 ≤ 8388607
    omega
  · change len ≤ 8388598 ∧ (8 + len + 1 + 8 - 1) / 8 * 8 ≤ 8388607
    omega

theorem clUtf8ToClString_encoded {host : Host} {chars : List Char}
    (fits : wideStringFits host chars.length = true) :
    ∃ text, text.codes = chars.map Char.toNat ∧
      clUtf8ToClString host (chars.flatMap String.utf8EncodeChar) =
        some (.string text (chars.flatMap String.utf8EncodeChar).length) := by
  obtain ⟨others, text, decodes, codes, result⟩ :=
    clUtf8ToClString_decodes host (chars.flatMap String.utf8EncodeChar)
  obtain rfl := decodes.encoded rfl
  refine ⟨text, codes, ?_⟩
  have length := congrArg List.length codes
  have textFits : text.fits host = true := by
    cases text with
    | base data =>
        rw [Text.codes, List.length_map, List.length_map] at length
        rw [Text.fits, length]
        exact stringFits_of_wide fits
    | wide data =>
        rw [Text.codes, List.length_map] at length
        rw [Text.fits, length]
        exact fits
  rw [result, if_pos textFits]

/-- Decoding reads a whole buffer and yields its scalar values when the string can be
allocated; strings are decoded from their encodings; and encoding writes whole characters
inside the buffer, as many as fit. -/
theorem utf8_strings (host : Host) :
    (∀ buf, ∃ chars text, Decodes buf chars ∧ text.codes = chars.map Char.toNat ∧
      clUtf8ToClString host buf =
        some (if text.fits host then .string text buf.length else .storageError)) ∧
    (∀ chars : List Char, wideStringFits host chars.length = true →
      ∃ text, text.codes = chars.map Char.toNat ∧
        clUtf8ToClString host (chars.flatMap String.utf8EncodeChar) =
          some (.string text (chars.flatMap String.utf8EncodeChar).length)) ∧
    (∀ (chars : List Char) (fits : wideStringFits host (chars.map Char.toNat).length = true)
      (buf : List UInt8), (chars.flatMap String.utf8EncodeChar).length < buf.length →
      @clWideStringToUtf8 host ⟨chars.map Char.toNat, fits⟩ buf =
        some (chars.flatMap String.utf8EncodeChar ++
          0 :: buf.drop ((chars.flatMap String.utf8EncodeChar).length + 1),
          (chars.flatMap String.utf8EncodeChar).length)) ∧
    ∀ (string : WideString host) (buf : List UInt8), ∃ k ≤ string.data.length,
      clWideStringToUtf8 string buf =
        some (((string.data.take k).flatMap codeBytes).map UInt8.ofNat ++
          (if buf = [] then [] else
            0 :: buf.drop (((string.data.take k).flatMap codeBytes).length + 1)),
          ((string.data.take k).flatMap codeBytes).length) ∧
      ((string.data.take k).flatMap codeBytes).length ≤ buf.length - 1 ∧
      ∀ code, string.data[k]? = some code → buf.length - 1 <
          ((string.data.take k).flatMap codeBytes).length + (codeBytes code).length :=
  ⟨clUtf8ToClString_decodes host, fun _ fits => clUtf8ToClString_encoded fits,
    fun _ fits buf room => clWideStringToUtf8_whole fits buf room, clWideStringToUtf8_bounded⟩

/-- More bytes than a heap object holds are not decoded. -/
theorem clUtf8ToClString_large :
    clUtf8ToClString .bits64 (List.replicate 8388599 0x41) = some .storageError := by
  have ascii : ((List.replicate 8388599 (0x41 : UInt8)).any
      fun byte => decide (byte.toNat > 0x7F)) = false := by
    rw [List.any_replicate]
    rfl
  have large : stringFits .bits64 8388599 = false := by decide
  rw [clUtf8ToClString, ascii, List.length_replicate, large]
  rfl

end ClAmiga.Strings
