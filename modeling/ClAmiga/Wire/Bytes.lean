import Mathlib.Data.List.GetD
import Mathlib.Tactic.Ring

/-!
# Big-endian bytes

Words written as big-endian bytes and read back at an offset, in a byte string that
is a concatenation of parts.  A read looks at bytes only, so that it moves through
a concatenation as a byte does.
-/

namespace ClAmiga.Wire

def byteAt (bytes : List UInt8) (i : Nat) : Nat :=
  (bytes.getD i 0).toNat

def rd16 (bytes : List UInt8) (i : Nat) : Nat :=
  byteAt bytes i * 2 ^ 8 + byteAt bytes (i + 1)

def rd32 (bytes : List UInt8) (i : Nat) : Nat :=
  byteAt bytes i * 2 ^ 24 + byteAt bytes (i + 1) * 2 ^ 16 + byteAt bytes (i + 2) * 2 ^ 8 +
    byteAt bytes (i + 3)

def wr16 (v : Nat) : List UInt8 :=
  [UInt8.ofNat (v / 2 ^ 8), UInt8.ofNat v]

def wr32 (v : Nat) : List UInt8 :=
  [UInt8.ofNat (v / 2 ^ 24), UInt8.ofNat (v / 2 ^ 16), UInt8.ofNat (v / 2 ^ 8), UInt8.ofNat v]

def slice (bytes : List UInt8) (i len : Nat) : List UInt8 :=
  (bytes.drop i).take len

@[simp] theorem length_wr16 (v : Nat) : (wr16 v).length = 2 := rfl

@[simp] theorem length_wr32 (v : Nat) : (wr32 v).length = 4 := rfl

theorem byteAt_append_left {left : List UInt8} (right : List UInt8) {i : Nat}
    (inside : i < left.length) : byteAt (left ++ right) i = byteAt left i := by
  rw [byteAt, byteAt, List.getD_append _ _ _ _ inside]

theorem byteAt_append_right (left right : List UInt8) (i : Nat) :
    byteAt (left ++ right) (left.length + i) = byteAt right i := by
  rw [byteAt, byteAt, List.getD_append_right _ _ _ _ (Nat.le_add_right _ _),
    Nat.add_sub_cancel_left]

theorem slice_append_right (left right : List UInt8) (i len : Nat) :
    slice (left ++ right) (left.length + i) len = slice right i len := by
  rw [slice, slice, List.drop_append, Nat.add_sub_cancel_left,
    List.drop_eq_nil_of_le (Nat.le_add_right _ _), List.nil_append]

theorem slice_front (left right : List UInt8) : slice (left ++ right) 0 left.length = left := by
  simp [slice]

theorem byteAt_slice (bytes : List UInt8) {i len k : Nat} (inside : k < len) :
    byteAt (slice bytes i len) k = byteAt bytes (i + k) := by
  simp only [byteAt, slice, List.getD_eq_getElem?_getD, List.getElem?_take, inside, if_true,
    List.getElem?_drop]

theorem rd32_slice (bytes : List UInt8) {i len k : Nat} (inside : k + 3 < len) :
    rd32 (slice bytes i len) k = rd32 bytes (i + k) := by
  simp only [rd32, byteAt_slice bytes (show k < len by omega),
    byteAt_slice bytes (show k + 1 < len by omega), byteAt_slice bytes (show k + 2 < len by omega),
    byteAt_slice bytes inside, Nat.add_assoc]

theorem rd16_slice (bytes : List UInt8) {i len k : Nat} (inside : k + 1 < len) :
    rd16 (slice bytes i len) k = rd16 bytes (i + k) := by
  simp only [rd16, byteAt_slice bytes (show k < len by omega), byteAt_slice bytes inside,
    Nat.add_assoc]

theorem rd32_wr32 {v : Nat} (bound : v < 2 ^ 32) (left right : List UInt8) :
    rd32 (left ++ (wr32 v ++ right)) left.length = v := by
  have bytes : ∀ k, byteAt (left ++ (wr32 v ++ right)) (left.length + k) =
      byteAt (wr32 v ++ right) k := byteAt_append_right left _
  have first := bytes 0
  rw [Nat.add_zero] at first
  rw [rd32, first, bytes 1, bytes 2, bytes 3]
  simp only [byteAt, wr32, List.cons_append, List.getD_cons_zero, List.getD_cons_succ,
    UInt8.toNat_ofNat']
  omega

theorem rd16_wr16 {v : Nat} (bound : v < 2 ^ 16) (left right : List UInt8) :
    rd16 (left ++ (wr16 v ++ right)) left.length = v := by
  have bytes : ∀ k, byteAt (left ++ (wr16 v ++ right)) (left.length + k) =
      byteAt (wr16 v ++ right) k := byteAt_append_right left _
  have first := bytes 0
  rw [Nat.add_zero] at first
  rw [rd16, first, bytes 1]
  simp only [byteAt, wr16, List.cons_append, List.getD_cons_zero, List.getD_cons_succ,
    UInt8.toNat_ofNat']
  omega

theorem slice_flatMap {α : Type*} (f : α → List UInt8) (width : Nat) (xs : List α)
    (fixed : ∀ x, (f x).length = width) (rest : List UInt8) (i : Nat) (inside : i < xs.length) :
    slice (xs.flatMap f ++ rest) (width * i) width = f xs[i] := by
  induction xs generalizing i with
  | nil => simp at inside
  | cons x xs induction =>
      cases i with
      | zero =>
          have front := slice_front (f x) (xs.flatMap f ++ rest)
          rw [fixed x] at front
          simpa using front
      | succ i =>
          have later := slice_append_right (f x) (xs.flatMap f ++ rest) (width * i) width
          rw [fixed x] at later
          rw [List.flatMap_cons, List.append_assoc, Nat.mul_succ, Nat.add_comm, later]
          simpa using induction i (by simpa using inside)

theorem ofNat_eq_of_mod {n : Nat} {byte : UInt8} (same : n % 2 ^ 8 = byte.toNat) :
    UInt8.ofNat n = byte := by
  apply UInt8.toNat_inj.mp
  rw [UInt8.toNat_ofNat', same]

/-- Two bytes are those of a 16-bit number. -/
theorem exists_wr16 {bytes : List UInt8} (enough : 2 ≤ bytes.length) :
    ∃ v tail, v < 2 ^ 16 ∧ bytes = wr16 v ++ tail := by
  match bytes, enough with
  | a :: b :: tail, _ =>
      have boundA := a.toNat_lt
      have boundB := b.toNat_lt
      refine ⟨a.toNat * 2 ^ 8 + b.toNat, tail, by omega, ?_⟩
      simp only [wr16, List.cons_append, List.nil_append]
      rw [@ofNat_eq_of_mod _ a (by omega), @ofNat_eq_of_mod _ b (by omega)]

theorem exists_wr32 {bytes : List UInt8} (enough : 4 ≤ bytes.length) :
    ∃ v tail, v < 2 ^ 32 ∧ bytes = wr32 v ++ tail := by
  match bytes, enough with
  | a :: b :: c :: d :: tail, _ =>
      have boundA := a.toNat_lt
      have boundB := b.toNat_lt
      have boundC := c.toNat_lt
      have boundD := d.toNat_lt
      refine ⟨a.toNat * 2 ^ 24 + b.toNat * 2 ^ 16 + c.toNat * 2 ^ 8 + d.toNat, tail, by omega, ?_⟩
      simp only [wr32, List.cons_append, List.nil_append]
      rw [@ofNat_eq_of_mod _ a (by omega), @ofNat_eq_of_mod _ b (by omega),
        @ofNat_eq_of_mod _ c (by omega), @ofNat_eq_of_mod _ d (by omega)]

end ClAmiga.Wire
