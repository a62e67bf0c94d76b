import ClAmiga.Strings.Buffer

/-!
# Well-formed sequences

A byte sequence is well formed when it is the encoding of a scalar value.  The decoder
returns a scalar value exactly for the buffers that begin with its encoding; elsewhere it
skips bytes at which no encoding begins.
-/

namespace ClAmiga.Strings

open ReadPrint (leadingByte overlong clUtf8Encode clUtf8Decode continuationBytes)

theorem or_mark {mark high : Nat} (known : (mark, high) ∈
    (List.range 32).map (Prod.mk 0xC0) ++ (List.range 16).map (Prod.mk 0xE0) ++
      (List.range 8).map (Prod.mk 0xF0) ++ (List.range 64).map (Prod.mk 0x80)) :
    mark ||| high = mark + high := by
  have all : ∀ entry ∈ (List.range 32).map (Prod.mk 0xC0) ++ (List.range 16).map (Prod.mk 0xE0) ++
      (List.range 8).map (Prod.mk 0xF0) ++ (List.range 64).map (Prod.mk 0x80),
      entry.1 ||| entry.2 = entry.1 + entry.2 := by
    decide +kernel
  exact all _ known

theorem continuation_iff {byte : Nat} (small : byte < 256) :
    (byte &&& 0xC0 = 0x80 ↔ 0x80 ≤ byte ∧ byte < 0xC0) ∧ byte &&& 0x3F = byte % 64 := by
  have all : ∀ byte < 256, (byte &&& 0xC0 = 0x80 ↔ 0x80 ≤ byte ∧ byte < 0xC0) := by
    decide +kernel
  exact ⟨all byte small, ReadPrint.six_bits byte⟩

theorem leadingByte_eq {byte : Nat} (small : byte < 256) : leadingByte byte =
      if byte < 0xC0 then none
      else if byte < 0xE0 then some (byte - 0xC0, 2)
      else if byte < 0xF0 then some (byte - 0xE0, 3)
      else if byte < 0xF8 then some (byte - 0xF0, 4)
      else none := by
  have all : ∀ byte < 256, leadingByte byte =
      if byte < 0xC0 then none
      else if byte < 0xE0 then some (byte - 0xC0, 2)
      else if byte < 0xF0 then some (byte - 0xE0, 3)
      else if byte < 0xF8 then some (byte - 0xF0, 4)
      else none := by
    decide +kernel
  exact all byte small

theorem clUtf8Encode_eq (c : Char) : clUtf8Encode c.toNat =
      if c.toNat ≤ 0x7F then [c.toNat]
      else if c.toNat ≤ 0x7FF then [0xC0 + c.toNat / 64, 0x80 + c.toNat % 64]
      else if c.toNat ≤ 0xFFFF then
        [0xE0 + c.toNat / 4096, 0x80 + c.toNat / 64 % 64, 0x80 + c.toNat % 64]
      else
        [0xF0 + c.toNat / 262144, 0x80 + c.toNat / 4096 % 64, 0x80 + c.toNat / 64 % 64,
          0x80 + c.toNat % 64] := by
  have valid : c.toNat < 0xD800 ∨ 0xDFFF < c.toNat ∧ c.toNat < 0x110000 := c.valid
  generalize c.toNat = cp at valid
  have low : ∀ n, 0x80 ||| (n &&& 0x3F) = 0x80 + n % 64 := by
    intro n
    rw [ReadPrint.six_bits, or_mark]
    have := Nat.mod_lt n (by decide : 0 < 64)
    simp [this]
  rw [clUtf8Encode]
  by_cases one : cp ≤ 0x7F
  · rw [if_pos one, if_pos one]
  by_cases two : cp ≤ 0x7FF
  · rw [if_neg one, if_neg one, if_pos two, if_pos two, low, Nat.shiftRight_eq_div_pow, or_mark]
    simp
    omega
  by_cases three : cp ≤ 0xFFFF
  · rw [if_neg one, if_neg one, if_neg two, if_neg two, if_pos three, if_pos three,
      if_neg (by omega), low, low, Nat.shiftRight_eq_div_pow, Nat.shiftRight_eq_div_pow, or_mark]
    simp
    omega
  · rw [if_neg one, if_neg one, if_neg two, if_neg two, if_neg three, if_neg three,
      if_pos (by omega), low, low, low, Nat.shiftRight_eq_div_pow, Nat.shiftRight_eq_div_pow,
      Nat.shiftRight_eq_div_pow, or_mark]
    simp
    omega

theorem utf8EncodeChar_eq (c : Char) :
    (String.utf8EncodeChar c).map UInt8.toNat = clUtf8Encode c.toNat := by
  have valid : c.toNat < 0xD800 ∨ 0xDFFF < c.toNat ∧ c.toNat < 0x110000 := c.valid
  rw [clUtf8Encode_eq]
  rw [String.utf8EncodeChar]
  change (c.val.toNat < 0xD800 ∨ 0xDFFF < c.val.toNat ∧ c.val.toNat < 0x110000) at valid
  rw [show c.toNat = c.val.toNat from rfl]
  generalize c.val.toNat = cp at valid
  by_cases one : cp ≤ 0x7F
  · rw [if_pos one]
    simp [one]
    omega
  by_cases two : cp ≤ 0x7FF
  · rw [if_neg one, if_pos two]
    simp [one, two]
    omega
  by_cases three : cp ≤ 0xFFFF
  · rw [if_neg one, if_neg two, if_pos three]
    simp [one, two, three]
    omega
  · rw [if_neg one, if_neg two, if_neg three]
    simp [one, two, three]
    omega

def BeginsScalar (bytes : List Nat) : Prop :=
  ∃ (c : Char) (rest : List Nat), bytes = clUtf8Encode c.toNat ++ rest

theorem exists_char {cp : Nat} (scalar : cp < 0xD800 ∨ 0xDFFF < cp ∧ cp ≤ 0x10FFFF) :
    ∃ c : Char, c.toNat = cp := by
  have valid : cp.isValidChar := by
    rw [Nat.isValidChar]
    omega
  exact ⟨Char.ofNatAux cp valid, rfl⟩

variable {bytes : List Nat}

theorem not_beginsScalar {byte : Nat} (marked : 0x80 ≤ byte ∧ byte < 0xC0) :
    ¬ BeginsScalar (byte :: bytes) := by
  rintro ⟨c, rest, same⟩
  rw [clUtf8Encode_eq] at same
  split at same
  · obtain ⟨rfl, _⟩ := List.cons.inj same
    omega
  split at same
  · obtain ⟨rfl, _⟩ := List.cons.inj same
    omega
  split at same
  · obtain ⟨rfl, _⟩ := List.cons.inj same
    omega
  · obtain ⟨rfl, _⟩ := List.cons.inj same
    omega

theorem continuationBytes_cons {count cp out : Nat} (small : ∀ byte ∈ bytes, byte < 256)
    (accepted : continuationBytes (count + 1) cp bytes = some out) :
    ∃ byte rest, bytes = byte :: rest ∧ (0x80 ≤ byte ∧ byte < 0xC0) ∧
      continuationBytes count (64 * cp + byte % 64) rest = some out := by
  cases bytes with
  | nil => cases accepted
  | cons byte rest =>
      obtain ⟨marked, payload⟩ := continuation_iff (small byte List.mem_cons_self)
      have low : byte % 64 < 2 ^ 6 := Nat.mod_lt _ (by decide)
      rw [continuationBytes] at accepted
      split at accepted
      · cases accepted
      · next ok =>
          rw [payload, ← Nat.shiftLeft_add_eq_or_of_lt low, Nat.shiftLeft_eq,
            Nat.mul_comm cp] at accepted
          exact ⟨byte, rest, rfl, marked.mp (not_not.mp ok), accepted⟩

theorem continuationBytes_marked {count cp out : Nat} (small : ∀ byte ∈ bytes, byte < 256)
    (accepted : continuationBytes count cp bytes = some out) :
    ∀ i < count, ∃ byte, bytes[i]? = some byte ∧ 0x80 ≤ byte ∧ byte < 0xC0 := by
  induction count generalizing cp bytes with
  | zero => simp
  | succ count induction =>
      obtain ⟨byte, rest, rfl, marked, later⟩ := continuationBytes_cons small accepted
      intro i below
      cases i with
      | zero => exact ⟨byte, rfl, marked⟩
      | succ i =>
          exact induction (fun b member => small b (List.mem_cons_of_mem _ member)) later i
            (by omega)

/-- An accepted sequence that is not overlong and whose value is a scalar value is its
encoding. -/
theorem beginsScalar_of_accepted {b0 cp expected out : Nat}
    (small : ∀ byte ∈ b0 :: bytes, byte < 256) (leads : leadingByte b0 = some (cp, expected))
    (accepted : continuationBytes (expected - 1) cp bytes = some out)
    (proper : overlong expected out = false)
    (scalar : out < 0xD800 ∨ 0xDFFF < out ∧ out ≤ 0x10FFFF) :
    BeginsScalar (b0 :: bytes) := by
  have tails : ∀ byte ∈ bytes, byte < 256 := fun byte member =>
    small byte (List.mem_cons_of_mem _ member)
  rw [leadingByte_eq (small b0 List.mem_cons_self)] at leads
  obtain ⟨c, value⟩ := exists_char scalar
  have encoded := clUtf8Encode_eq c
  rw [value] at encoded
  split at leads
  · cases leads
  split at leads
  · obtain ⟨rfl, rfl⟩ := Prod.mk.inj (Option.some.inj leads)
    obtain ⟨b1, rest, rfl, marked, done⟩ := continuationBytes_cons tails accepted
    obtain rfl := Option.some.inj done
    have long : ¬ 64 * (b0 - 0xC0) + b1 % 64 < 0x80 := by simpa [overlong] using proper
    refine ⟨c, rest, ?_⟩
    rw [value, encoded, if_neg (by omega), if_pos (by omega)]
    simp only [List.cons_append, List.nil_append, List.cons.injEq, and_true]
    omega
  split at leads
  · obtain ⟨rfl, rfl⟩ := Prod.mk.inj (Option.some.inj leads)
    obtain ⟨b1, rest1, rfl, marked1, later⟩ := continuationBytes_cons tails accepted
    obtain ⟨b2, rest, rfl, marked2, done⟩ := continuationBytes_cons
      (fun byte member => tails byte (List.mem_cons_of_mem _ member)) later
    obtain rfl := Option.some.inj done
    have long : ¬ 64 * (64 * (b0 - 0xE0) + b1 % 64) + b2 % 64 < 0x800 := by
      simpa [overlong] using proper
    refine ⟨c, rest, ?_⟩
    rw [value, encoded, if_neg (by omega), if_neg (by omega), if_pos (by omega)]
    simp only [List.cons_append, List.nil_append, List.cons.injEq, and_true]
    omega
  split at leads
  · obtain ⟨rfl, rfl⟩ := Prod.mk.inj (Option.some.inj leads)
    obtain ⟨b1, rest1, rfl, marked1, later⟩ := continuationBytes_cons tails accepted
    obtain ⟨b2, rest2, rfl, marked2, last⟩ := continuationBytes_cons
      (fun byte member => tails byte (List.mem_cons_of_mem _ member)) later
    obtain ⟨b3, rest, rfl, marked3, done⟩ := continuationBytes_cons
      (fun byte member => tails byte
        (List.mem_cons_of_mem _ (List.mem_cons_of_mem _ member))) last
    obtain rfl := Option.some.inj done
    have long : ¬ 64 * (64 * (64 * (b0 - 0xF0) + b1 % 64) + b2 % 64) + b3 % 64 < 0x10000 := by
      simpa [overlong] using proper
    refine ⟨c, rest, ?_⟩
    rw [value, encoded, if_neg (by omega), if_neg (by omega), if_neg (by omega)]
    simp only [List.cons_append, List.nil_append, List.cons.injEq, and_true]
    omega
  · cases leads

/-- Where no encoding begins, the decoder skips a byte and the continuation bytes behind it,
at least one in all. -/
theorem clUtf8Decode_malformed {b0 : Nat}
    (small : ∀ byte ∈ b0 :: bytes, byte < 256) (malformed : ¬ BeginsScalar (b0 :: bytes)) :
    ∃ nb, clUtf8Decode (b0 :: bytes) = some (0xFFFD, nb + 1) ∧ nb ≤ bytes.length ∧
      ∀ i < nb, ∃ byte, bytes[i]? = some byte ∧ 0x80 ≤ byte ∧ byte < 0xC0 := by
  have tails : ∀ byte ∈ bytes, byte < 256 := fun byte member =>
    small byte (List.mem_cons_of_mem _ member)
  have single : ∀ i < 0, ∃ byte, bytes[i]? = some byte ∧ 0x80 ≤ byte ∧ byte < 0xC0 := by
    simp
  by_cases ascii : b0 ≤ 0x7F
  · obtain ⟨c, value⟩ := exists_char (Or.inl (by omega : b0 < 0xD800))
    refine absurd ⟨c, bytes, ?_⟩ malformed
    rw [clUtf8Encode_eq, value, if_pos ascii]
    rfl
  rw [clUtf8Decode, if_neg ascii]
  cases leads : leadingByte b0 with
  | none => exact ⟨0, rfl, Nat.zero_le _, single⟩
  | some lead =>
      obtain ⟨cp, expected⟩ := lead
      have two : 2 ≤ expected := by
        rw [leadingByte_eq (small b0 List.mem_cons_self)] at leads
        split_ifs at leads <;> simp_all <;> omega
      dsimp only
      by_cases truncated : expected > bytes.length + 1
      · rw [if_pos truncated]
        exact ⟨0, rfl, Nat.zero_le _, single⟩
      rw [if_neg truncated]
      cases accepted : continuationBytes (expected - 1) cp bytes with
      | none => exact ⟨0, rfl, Nat.zero_le _, single⟩
      | some out =>
          have skips : some (0xFFFD, expected) = some (0xFFFD, expected - 1 + 1) := by
            rw [Nat.sub_add_cancel (by omega)]
          have marked := continuationBytes_marked tails accepted
          dsimp only
          by_cases proper : overlong expected out = true
          · rw [if_pos proper]
            exact ⟨expected - 1, skips, by omega, marked⟩
          rw [if_neg proper]
          by_cases scalar : 0xD800 ≤ out ∧ out ≤ 0xDFFF ∨ out > 0x10FFFF
          · rw [if_pos scalar]
            exact ⟨expected - 1, skips, by omega, marked⟩
          · exact absurd (beginsScalar_of_accepted small leads accepted
              (by simpa using proper) (by omega)) malformed

end ClAmiga.Strings
