import ClAmiga.Strings.Scalar

/-!
# Decoding a buffer

The two passes of `cl_utf8_to_cl_string` read every byte and none outside the buffer, agree
on the number of characters, and yield the scalar values of the encodings in the buffer,
with replacement characters in the places where no encoding begins.
-/

namespace ClAmiga.Strings

open ReadPrint (clUtf8Encode clUtf8Decode continuationBytes)

variable {buf : List UInt8}

theorem drop_map {pos : Nat} (inside : pos < buf.length) :
    ∃ byte, buf[pos]? = some byte ∧ (buf.drop pos).map UInt8.toNat =
      byte.toNat :: (buf.drop (pos + 1)).map UInt8.toNat := by
  refine ⟨buf[pos], List.getElem?_eq_getElem inside, ?_⟩
  rw [List.drop_eq_getElem_cons inside, List.map_cons]

theorem continuationsAt_eq {count i : Nat} (cp : Nat) (inside : i + count ≤ buf.length) :
    continuationsAt buf count i cp =
      some (continuationBytes count cp ((buf.drop i).map UInt8.toNat)) := by
  induction count generalizing i cp with
  | zero => rfl
  | succ count induction =>
      obtain ⟨byte, found, rest⟩ := drop_map (show i < buf.length by omega)
      rw [continuationsAt, readByte, found, rest, continuationBytes, Option.map_some]
      dsimp only
      split
      · rfl
      · exact induction _ (by omega)

theorem clUtf8DecodeAt_eq {pos : Nat} (inside : pos < buf.length) :
    clUtf8DecodeAt buf pos (buf.length - pos) = clUtf8Decode ((buf.drop pos).map UInt8.toNat) := by
  obtain ⟨byte, found, rest⟩ := drop_map inside
  have length : ((buf.drop (pos + 1)).map UInt8.toNat).length + 1 = buf.length - pos := by
    rw [List.length_map, List.length_drop]
    omega
  rw [clUtf8DecodeAt, if_neg (by omega), readByte, found, Option.map_some, rest, clUtf8Decode]
  dsimp only
  rw [length]
  split
  · rfl
  cases ReadPrint.leadingByte byte.toNat with
  | none => rfl
  | some lead =>
      obtain ⟨cp, expected⟩ := lead
      dsimp only
      by_cases truncated : expected > buf.length - pos
      · rw [if_pos truncated, if_pos truncated]
      · rw [if_neg truncated, if_neg truncated, continuationsAt_eq cp (by omega)]
        cases continuationBytes (expected - 1) cp ((buf.drop (pos + 1)).map UInt8.toNat) <;> rfl

/-- The characters of a buffer: the scalar value of an encoding, and a replacement character
for bytes at none of which an encoding begins. -/
inductive Decodes : List UInt8 → List Char → Prop where
  | nil : Decodes [] []
  | scalar (c : Char) {rest : List UInt8} {chars : List Char} (later : Decodes rest chars) :
      Decodes (String.utf8EncodeChar c ++ rest) (c :: chars)
  | malformed {bad rest : List UInt8} {chars : List Char} (some : bad ≠ [])
      (never : ∀ i < bad.length, ∀ c, ¬ String.utf8EncodeChar c <+: (bad ++ rest).drop i)
      (later : Decodes rest chars) : Decodes (bad ++ rest) ('\uFFFD' :: chars)

theorem beginsScalar_iff :
    BeginsScalar (buf.map UInt8.toNat) ↔ ∃ c, String.utf8EncodeChar c <+: buf := by
  constructor
  · rintro ⟨c, rest, same⟩
    rw [← utf8EncodeChar_eq] at same
    obtain ⟨front, back, rfl, left, _⟩ := List.map_eq_append_iff.mp same
    rw [(List.map_inj_right fun _ _ => UInt8.toNat_inj.mp).mp left]
    exact ⟨c, List.prefix_append _ _⟩
  · rintro ⟨c, rest, rfl⟩
    exact ⟨c, rest.map UInt8.toNat, by rw [List.map_append, utf8EncodeChar_eq]⟩

theorem small_map (buf : List UInt8) : ∀ byte ∈ buf.map UInt8.toNat, byte < 256 := by
  intro byte member
  obtain ⟨source, _, rfl⟩ := List.mem_map.mp member
  exact source.toNat_lt

/-- One step of a pass yields a character and goes on inside the buffer. -/
theorem clUtf8DecodeAt_step {pos : Nat} (inside : pos < buf.length) :
    ∃ (c : Char) (nb : Nat), clUtf8DecodeAt buf pos (buf.length - pos) = some (c.toNat, nb) ∧
      0 < nb ∧ pos + nb ≤ buf.length ∧
      ∀ chars, Decodes (buf.drop (pos + nb)) chars → Decodes (buf.drop pos) (c :: chars) := by
  rw [clUtf8DecodeAt_eq inside]
  by_cases begins : BeginsScalar ((buf.drop pos).map UInt8.toNat)
  · obtain ⟨c, rest, same⟩ := beginsScalar_iff.mp begins
    have length := congrArg List.length same
    rw [List.length_append, List.length_drop] at length
    have behind : buf.drop (pos + (String.utf8EncodeChar c).length) = rest := by
      rw [← List.drop_drop, ← same, List.drop_left]
    have decoded := ReadPrint.clUtf8Decode_encode c (rest.map UInt8.toNat)
    rw [← utf8EncodeChar_eq, ← List.map_append, same, List.length_map] at decoded
    refine ⟨c, (String.utf8EncodeChar c).length, decoded, ?_, by omega, ?_⟩
    · exact List.length_pos_iff.mpr String.utf8EncodeChar_ne_nil
    · intro chars later
      rw [behind] at later
      rw [← same]
      exact .scalar c later
  · obtain ⟨byte, _, rest⟩ := drop_map inside
    have small := small_map (buf.drop pos)
    rw [rest] at begins small ⊢
    obtain ⟨nb, decoded, length, marked⟩ := clUtf8Decode_malformed small begins
    rw [List.length_map, List.length_drop] at length
    refine ⟨'\uFFFD', nb + 1, decoded, Nat.succ_pos nb, by omega, ?_⟩
    intro chars later
    have split : (buf.drop pos).take (nb + 1) ++ buf.drop (pos + (nb + 1)) = buf.drop pos := by
      rw [← List.drop_drop, List.take_append_drop]
    have bad : ((buf.drop pos).take (nb + 1)).length = nb + 1 := by
      rw [List.length_take, List.length_drop]
      omega
    rw [← split]
    refine .malformed (List.ne_nil_of_length_pos (by omega)) ?_ later
    rw [bad, split]
    intro i below c encoded
    have starts := beginsScalar_iff.mpr ⟨c, encoded⟩
    cases i with
    | zero =>
        rw [List.drop_zero, rest] at starts
        exact begins starts
    | succ i =>
        obtain ⟨next, found, continues⟩ := marked i (by omega)
        have here : i < ((buf.drop (pos + 1)).map UInt8.toNat).length :=
          (List.getElem?_eq_some_iff.mp found).1
        rw [List.map_drop, rest, List.drop_succ_cons, List.drop_eq_getElem_cons here,
          (List.getElem?_eq_some_iff.mp found).2] at starts
        exact not_beginsScalar continues starts

theorem passes (buf : List UInt8) (left : Nat) : ∀ pos, buf.length - pos = left → pos ≤ buf.length →
      ∃ chars, Decodes (buf.drop pos) chars ∧
        (∀ count, countCodes buf pos count = some (buf.length, count + chars.length)) ∧
        ∀ cpCount data, cpCount = data.length + chars.length →
          fillCodes buf cpCount pos data = some (buf.length, data ++ chars.map Char.toNat) := by
  induction left using Nat.strongRecOn with
  | ind left induction =>
      intro pos remaining bound
      by_cases inside : pos < buf.length
      · obtain ⟨c, nb, decoded, positive, within, decodes⟩ := clUtf8DecodeAt_step inside
        obtain ⟨chars, later, counts, fills⟩ :=
          induction (buf.length - (pos + nb)) (by omega) (pos + nb) rfl within
        refine ⟨c :: chars, decodes chars later, ?_, ?_⟩
        · intro count
          rw [countCodes, if_pos inside, decoded]
          dsimp only
          rw [if_neg (by omega), counts, List.length_cons]
          congr 2
          omega
        · intro cpCount data total
          rw [List.length_cons] at total
          rw [fillCodes, if_pos ⟨inside, by omega⟩, decoded]
          dsimp only
          rw [if_neg (by omega), fills cpCount (data ++ [c.toNat]) (by
            rw [List.length_append, List.length_singleton]
            omega)]
          rw [List.map_cons, List.append_assoc, List.singleton_append]
      · obtain rfl : pos = buf.length := by omega
        refine ⟨[], ?_, ?_, ?_⟩
        · rw [List.drop_length]
          exact .nil
        · intro count
          rw [countCodes, if_neg inside]
          rfl
        · intro cpCount data _
          rw [fillCodes, if_neg fun both => inside both.1, List.map_nil, List.append_nil]

theorem Decodes.ascii (ascii : ∀ byte ∈ buf, byte.toNat ≤ 0x7F) :
    ∃ chars, Decodes buf chars ∧ buf.map UInt8.toNat = chars.map Char.toNat := by
  induction buf with
  | nil => exact ⟨[], .nil, rfl⟩
  | cons byte buf induction =>
      obtain ⟨chars, later, same⟩ := induction fun b member =>
        ascii b (List.mem_cons_of_mem _ member)
      have small := ascii byte List.mem_cons_self
      obtain ⟨c, value⟩ := exists_char (Or.inl (by omega : byte.toNat < 0xD800))
      have encoded : String.utf8EncodeChar c = [byte] := by
        apply (List.map_inj_right fun _ _ => UInt8.toNat_inj.mp).mp
        rw [utf8EncodeChar_eq, clUtf8Encode_eq, value, if_pos small]
        rfl
      refine ⟨c :: chars, ?_, ?_⟩
      · have decodes := Decodes.scalar c later
        rwa [encoded] at decodes
      · rw [List.map_cons, List.map_cons, same, value]

/-- A buffer is read whole, and the string has the characters it decodes to. -/
theorem clUtf8ToClString_decodes (host : Host) (buf : List UInt8) :
    ∃ chars text, Decodes buf chars ∧ text.codes = chars.map Char.toNat ∧
      clUtf8ToClString host buf =
        some (if text.fits host then .string text buf.length else .storageError) := by
  rw [clUtf8ToClString]
  by_cases multibyte : (buf.any fun byte => decide (byte.toNat > 0x7F)) = true
  · obtain ⟨chars, decodes, counts, fills⟩ := passes buf _ 0 rfl (Nat.zero_le _)
    refine ⟨chars, .wide (chars.map Char.toNat), decodes, rfl, ?_⟩
    rw [if_pos multibyte, counts, Nat.zero_add]
    dsimp only
    rw [fills chars.length [] (Nat.zero_add _).symm, Text.fits, List.length_map]
    dsimp only
    rw [List.nil_append, List.length_map, Nat.sub_self, List.replicate_zero, List.append_nil]
    split <;> rfl
  · obtain ⟨chars, decodes, same⟩ := Decodes.ascii (by simpa using multibyte)
    refine ⟨chars, .base buf, decodes, same, ?_⟩
    rw [if_neg multibyte, Text.fits]
    split <;> rfl

end ClAmiga.Strings
