import ClAmiga.Wire.Bytes

/-!
# FASL writers and readers

A writer stores numbers at its position in a buffer of fixed capacity, a reader
takes them from a buffer; both keep an error that makes every later operation do
nothing.  Positions are `uint32_t`: the sum that a bound is compared with is taken
modulo `2 ^ 32`, and an access outside the buffer, which such a sum can let through,
has no result.
-/

namespace ClAmiga.Fasl

open Wire

/-- The `FASL_ERR_*` codes. -/
inductive FaslError where
  | overflow
  | truncated
  | badMagic
  | badVersion
  | badTag
  | tooDeep
  | badLength
  | nonportable
deriving DecidableEq, Repr

/-- `CL_FaslWriter`: the buffer, whose length is the capacity, the position and
the error. -/
structure FaslWriter where
  data : List UInt8
  pos : Nat
  error : Option FaslError
  bounded : data.length < 2 ^ 32
  inside : pos ≤ data.length

/-- Bytes stored over those of a buffer from a position on. -/
def overwrite (data : List UInt8) (pos : Nat) (bytes : List UInt8) : List UInt8 :=
  data.take pos ++ bytes ++ data.drop (pos + bytes.length)

theorem length_overwrite {data bytes : List UInt8} {pos : Nat}
    (fits : pos + bytes.length ≤ data.length) :
    (overwrite data pos bytes).length = data.length := by
  simp only [overwrite, List.length_append, List.length_take, List.length_drop]
  omega

theorem overwrite_overwrite {data first second : List UInt8} {pos : Nat}
    (fits : pos + first.length ≤ data.length) :
    overwrite (overwrite data pos first) (pos + first.length) second =
      overwrite data pos (first ++ second) := by
  have lead : (data.take pos ++ first).length = pos + first.length := by
    rw [List.length_append, List.length_take]
    omega
  rw [overwrite, overwrite, overwrite, ← lead, List.take_left', List.drop_append,
    List.drop_of_length_le (by omega), List.nil_append, List.drop_drop, lead,
    List.length_append]
  · simp only [List.append_assoc]
    congr 4
    omega
  · rfl

namespace FaslWriter

/-- The steps that `cl_fasl_write_u8`, `cl_fasl_write_u16` and `cl_fasl_write_u32`
share, with the bytes each of them stores. -/
def write (w : FaslWriter) (bytes : List UInt8) : Option FaslWriter :=
  if w.error ≠ none then
    some w
  else if w.data.length < (w.pos + bytes.length) % 2 ^ 32 then
    some { w with error := some .overflow }
  else if fits : w.pos + bytes.length ≤ w.data.length then
    some {
      data := overwrite w.data w.pos bytes
      pos := w.pos + bytes.length
      error := none
      bounded := by rw [length_overwrite fits]; exact w.bounded
      inside := by rw [length_overwrite fits]; exact fits }
  else
    -- The sum wrapped, and the stores end outside the buffer.
    none

/-- `cl_fasl_write_u16`. -/
def clFaslWriteU16 (w : FaslWriter) (val : Nat) : Option FaslWriter :=
  w.write (wr16 val)

/-- `cl_fasl_write_u32`. -/
def clFaslWriteU32 (w : FaslWriter) (val : Nat) : Option FaslWriter :=
  w.write (wr32 val)

/-- From `w` to `w'` bytes were stored at the position, without an error. -/
structure Stores (w : FaslWriter) (bytes : List UInt8) (w' : FaslWriter) : Prop where
  clean : w.error = none
  kept : w'.error = none
  room : w.pos + bytes.length ≤ w.data.length
  pos : w'.pos = w.pos + bytes.length
  data : w'.data = overwrite w.data w.pos bytes

theorem Stores.refl {w : FaslWriter} (clean : w.error = none) : Stores w [] w where
  clean := clean
  kept := clean
  room := w.inside
  pos := rfl
  data := by simp [overwrite]

theorem Stores.capacity {w w' : FaslWriter} {bytes : List UInt8}
    (stores : Stores w bytes w') : w'.data.length = w.data.length := by
  rw [stores.data, length_overwrite stores.room]

theorem Stores.trans {w w' w'' : FaslWriter} {first second : List UInt8}
    (early : Stores w first w') (late : Stores w' second w'') :
    Stores w (first ++ second) w'' where
  clean := early.clean
  kept := late.kept
  room := by
    have room := late.room
    rw [early.pos, early.capacity] at room
    rw [List.length_append]
    omega
  pos := by rw [late.pos, early.pos, List.length_append, Nat.add_assoc]
  data := by rw [late.data, early.pos, early.data, overwrite_overwrite early.room]

theorem write_of_fits {w : FaslWriter} {bytes : List UInt8} (clean : w.error = none)
    (fits : w.pos + bytes.length ≤ w.data.length) :
    ∃ w', w.write bytes = some w' ∧ Stores w bytes w' := by
  have bounded := w.bounded
  have noWrap : (w.pos + bytes.length) % 2 ^ 32 = w.pos + bytes.length :=
    Nat.mod_eq_of_lt (by omega)
  rw [write, if_neg (by simp [clean]), if_neg (by omega), dif_pos fits]
  exact ⟨_, rfl, clean, rfl, fits, rfl, rfl⟩

def writes (w : FaslWriter) (parts : List (List UInt8)) : Option FaslWriter :=
  parts.foldlM write w

theorem writes_of_fits {w : FaslWriter} {parts : List (List UInt8)} (clean : w.error = none)
    (fits : w.pos + parts.flatten.length ≤ w.data.length) :
    ∃ w', w.writes parts = some w' ∧ Stores w parts.flatten w' := by
  induction parts generalizing w with
  | nil => exact ⟨w, rfl, Stores.refl clean⟩
  | cons part parts induction =>
      rw [List.flatten_cons, List.length_append] at fits
      obtain ⟨middle, result, stores⟩ := @write_of_fits w part clean (by omega)
      obtain ⟨last, results, later⟩ := @induction middle stores.kept (by
        rw [stores.pos, stores.capacity]
        omega)
      refine ⟨last, ?_, stores.trans later⟩
      rw [writes, List.foldlM_cons, result]
      exact results

end FaslWriter

/-- The part of `CL_FaslReader` a read uses: the buffer, whose length is its
size, the position and the error. -/
structure FaslReader where
  data : List UInt8
  pos : Nat
  error : Option FaslError
  bounded : data.length < 2 ^ 32
  inside : pos ≤ data.length

namespace FaslReader

/-- The steps that `cl_fasl_read_u16` and `cl_fasl_read_u32` share. -/
def read (r : FaslReader) (width value : Nat) : Option (Nat × FaslReader) :=
  if r.error ≠ none then
    some (0, r)
  else if r.data.length < (r.pos + width) % 2 ^ 32 then
    some (0, { r with error := some .truncated })
  else if fits : r.pos + width ≤ r.data.length then
    some (value, { r with pos := r.pos + width, inside := fits })
  else
    -- The sum wrapped, and the bytes looked at end outside the buffer.
    none

/-- `cl_fasl_read_u16`. -/
def clFaslReadU16 (r : FaslReader) : Option (Nat × FaslReader) :=
  r.read 2 (rd16 r.data r.pos)

/-- `cl_fasl_read_u32`. -/
def clFaslReadU32 (r : FaslReader) : Option (Nat × FaslReader) :=
  r.read 4 (rd32 r.data r.pos)

/-- A reader without an error that has passed some bytes and has others left. -/
structure Stands (passed rest : List UInt8) (r : FaslReader) : Prop where
  data : r.data = passed ++ rest
  pos : r.pos = passed.length
  clean : r.error = none

variable {passed rest : List UInt8} {r : FaslReader}

theorem read_cases (stands : Stands passed rest r) (width value : Nat) (narrow : width ≤ 4) :
    (∃ fits, r.read width value =
        some (value, { r with pos := r.pos + width, inside := fits }) ∧
      width ≤ rest.length) ∨
    (r.read width value = some (0, { r with error := some .truncated }) ∧
      passed.length + width < 2 ^ 32 ∧ rest.length < width) ∨
    (r.read width value = none ∧ 2 ^ 32 ≤ passed.length + width) := by
  have bounded := r.bounded
  have size : r.data.length = passed.length + rest.length := by
    rw [stands.data, List.length_append]
  have here := stands.pos
  rw [read, if_neg (by simp [stands.clean])]
  by_cases fits : r.pos + width ≤ r.data.length
  · have noWrap : (r.pos + width) % 2 ^ 32 = r.pos + width := Nat.mod_eq_of_lt (by omega)
    rw [if_neg (by omega), dif_pos fits]
    exact Or.inl ⟨fits, rfl, by omega⟩
  · right
    by_cases wraps : r.pos + width < 2 ^ 32
    · left
      have noWrap : (r.pos + width) % 2 ^ 32 = r.pos + width := Nat.mod_eq_of_lt wraps
      rw [if_pos (by omega)]
      exact ⟨rfl, by omega, by omega⟩
    · right
      have wrapped : (r.pos + width) % 2 ^ 32 = r.pos + width - 2 ^ 32 := by omega
      rw [if_neg (by omega), dif_neg fits]
      exact ⟨rfl, by omega⟩

theorem read_eq_none (stands : Stands passed rest r)
    {width : Nat} (value : Nat) (narrow : width ≤ 4) (wraps : 2 ^ 32 ≤ passed.length + width) :
    r.read width value = none := by
  have bounded := r.bounded
  rcases read_cases stands width value narrow with ⟨fits, _, _⟩ | ⟨_, noWrap, _⟩ | ⟨result, _⟩
  · have := stands.pos
    omega
  · omega
  · exact result

theorem clFaslReadU16_of {v : Nat}
    (bound : v < 2 ^ 16) (stands : Stands passed (wr16 v ++ rest) r) :
    ∃ r', r.clFaslReadU16 = some (v, r') ∧ Stands (passed ++ wr16 v) rest r' := by
  have value : rd16 r.data r.pos = v := by rw [stands.data, stands.pos, rd16_wr16 bound]
  rw [clFaslReadU16, value]
  have size := r.bounded
  rw [stands.data, List.length_append, List.length_append, length_wr16] at size
  rcases read_cases stands 2 v (by omega) with ⟨fits, result, _⟩ | ⟨_, _, short⟩ | ⟨_, wraps⟩
  · refine ⟨_, result, ?_, ?_, stands.clean⟩
    · simp [stands.data]
    · simp [stands.pos]
  · rw [List.length_append, length_wr16] at short
    omega
  · omega

theorem clFaslReadU32_of {v : Nat}
    (bound : v < 2 ^ 32) (stands : Stands passed (wr32 v ++ rest) r) :
    ∃ r', r.clFaslReadU32 = some (v, r') ∧ Stands (passed ++ wr32 v) rest r' := by
  have value : rd32 r.data r.pos = v := by rw [stands.data, stands.pos, rd32_wr32 bound]
  rw [clFaslReadU32, value]
  have size := r.bounded
  rw [stands.data, List.length_append, List.length_append, length_wr32] at size
  rcases read_cases stands 4 v (by omega) with ⟨fits, result, _⟩ | ⟨_, _, short⟩ | ⟨_, wraps⟩
  · refine ⟨_, result, ?_, ?_, stands.clean⟩
    · simp [stands.data]
    · simp [stands.pos]
  · rw [List.length_append, length_wr32] at short
    omega
  · omega

theorem clFaslReadU16_cases (stands : Stands passed rest r) :
    (∃ v tail, v < 2 ^ 16 ∧ rest = wr16 v ++ tail) ∨
    (∃ r', r.clFaslReadU16 = some (0, r') ∧ r'.error ≠ none) ∨
    (r.clFaslReadU16 = none ∧ 2 ^ 32 ≤ passed.length + 2) := by
  rcases read_cases stands 2 (rd16 r.data r.pos) (by omega) with
    ⟨_, _, enough⟩ | ⟨result, _, _⟩ | outside
  · exact Or.inl (exists_wr16 enough)
  · exact Or.inr (Or.inl ⟨_, result, by simp⟩)
  · exact Or.inr (Or.inr outside)

theorem clFaslReadU32_cases (stands : Stands passed rest r) :
    (∃ v tail, v < 2 ^ 32 ∧ rest = wr32 v ++ tail) ∨
    (∃ r', r.clFaslReadU32 = some (0, r') ∧ r'.error ≠ none) ∨
    (r.clFaslReadU32 = none ∧ 2 ^ 32 ≤ passed.length + 4) := by
  rcases read_cases stands 4 (rd32 r.data r.pos) (by omega) with
    ⟨_, _, enough⟩ | ⟨result, _, _⟩ | outside
  · exact Or.inl (exists_wr32 enough)
  · exact Or.inr (Or.inl ⟨_, result, by simp⟩)
  · exact Or.inr (Or.inr outside)

/-- `r.pos += len` over bytes that are there. -/
def skip (r : FaslReader) (len : Nat) (fits : len ≤ r.data.length - r.pos) : FaslReader :=
  { r with pos := r.pos + len, inside := by have := r.inside; omega }

theorem Stands.skip {passed bytes rest : List UInt8}
    (stands : Stands passed (bytes ++ rest) r) (fits : bytes.length ≤ r.data.length - r.pos) :
    Stands (passed ++ bytes) rest (r.skip bytes.length fits) where
  data := by simp [FaslReader.skip, stands.data]
  pos := by simp [FaslReader.skip, stands.pos]
  clean := stands.clean

theorem Stands.left (stands : Stands passed rest r) : r.data.length - r.pos = rest.length := by
  rw [stands.data, stands.pos, List.length_append, Nat.add_sub_cancel_left]

end FaslReader

end ClAmiga.Fasl
