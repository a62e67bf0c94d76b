import Mathlib.Algebra.Order.Ring.Int
import ClAmiga.Stores.Assign
import ClAmiga.Sequence.Replace

/-!
# The places of the elements

What a heap holds, as one function from places to objects: a store changes it at one place, and
reads back what was stored but for a code above 255 in a base string.
-/

namespace ClAmiga.Sequence

open Cells (Memory Linked)
open Stores (assign)

theorem storeU16_loadU16 (bigEndian : Bool) (first second : BitVec 8) :
    storeU16 bigEndian (loadU16 bigEndian first second) = (first, second) := by
  have high (a b : BitVec 8) : (a ++ b).extractLsb' 8 8 = a := by
    rw [BitVec.extractLsb'_append_eq_of_le le_rfl]
    exact BitVec.extractLsb'_eq_self
  have low (a b : BitVec 8) : (a ++ b).extractLsb' 0 8 = b := by
    rw [BitVec.extractLsb'_append_eq_of_add_le (by decide)]
    exact BitVec.extractLsb'_eq_self
  cases bigEndian
  · exact Prod.ext (low second first) (high second first)
  · exact Prod.ext (high first second) (low first second)

theorem loadU16_storeU16 (bigEndian : Bool) (v : BitVec 16) :
    loadU16 bigEndian (storeU16 bigEndian v).1 (storeU16 bigEndian v).2 = v := by
  have halves : v.extractLsb' 8 8 ++ v.extractLsb' 0 8 = v :=
    @BitVec.extractLsb'_append_extractLsb' 8 8 v
  cases bigEndian <;> exact halves

theorem bytevecGet_range (bigEndian isSigned wide : Bool) (data : Nat → BitVec 8) (i : Nat) :
    bytevecLow isSigned wide ≤ bytevecGet bigEndian isSigned wide data i ∧
      bytevecGet bigEndian isSigned wide data i ≤ bytevecHigh isSigned wide := by
  cases wide with
  | false =>
      have below := (data i).isLt
      have low := BitVec.le_toInt (data i)
      have high := BitVec.toInt_lt (x := data i)
      cases isSigned <;> simp [bytevecLow, bytevecHigh, bytevecGet] <;> omega
  | true =>
      have below := (loadU16 bigEndian (data (2 * i)) (data (2 * i + 1))).isLt
      have low := BitVec.le_toInt (loadU16 bigEndian (data (2 * i)) (data (2 * i + 1)))
      have high := BitVec.toInt_lt (x := loadU16 bigEndian (data (2 * i)) (data (2 * i + 1)))
      cases isSigned <;> simp [bytevecLow, bytevecHigh, bytevecGet] <;> omega

theorem bytevecGet_set_self {bigEndian isSigned wide : Bool} (data : Nat → BitVec 8) (i : Nat)
    {v : Int} (low : bytevecLow isSigned wide ≤ v) (high : v ≤ bytevecHigh isSigned wide) :
    bytevecGet bigEndian isSigned wide (bytevecSet bigEndian wide data i v) i = v := by
  cases wide with
  | false =>
      cases isSigned <;>
        simp [bytevecLow, bytevecHigh, bytevecGet, bytevecSet, BitVec.toInt_ofInt,
          Int.bmod_def] at low high ⊢ <;> omega
  | true =>
      have first : (Function.update (Function.update data (2 * i)
          (storeU16 bigEndian (BitVec.ofInt 16 v)).1) (2 * i + 1)
          (storeU16 bigEndian (BitVec.ofInt 16 v)).2) (2 * i) =
          (storeU16 bigEndian (BitVec.ofInt 16 v)).1 := by
        rw [Function.update_of_ne (by omega), Function.update_self]
      simp only [bytevecGet, bytevecSet, if_true, first, Function.update_self, loadU16_storeU16]
      cases isSigned <;>
        simp [bytevecLow, bytevecHigh, BitVec.toInt_ofInt, Int.bmod_def] at low high ⊢ <;> omega

theorem bytevecGet_set_of_ne {bigEndian isSigned wide : Bool} (data : Nat → BitVec 8) {i j : Nat}
    (v : Int) (different : j ≠ i) :
    bytevecGet bigEndian isSigned wide (bytevecSet bigEndian wide data i v) j =
      bytevecGet bigEndian isSigned wide data j := by
  cases wide with
  | false => simp [bytevecGet, bytevecSet, Function.update_of_ne different]
  | true =>
      have apart (p : Nat) (even : p ≠ 2 * i) (odd : p ≠ 2 * i + 1) :
          bytevecSet bigEndian true data i v p = data p := by
        rw [bytevecSet, if_pos rfl]
        dsimp only
        rw [Function.update_of_ne odd, Function.update_of_ne even]
      simp only [bytevecGet, if_true]
      rw [apart (2 * j) (by omega) (by omega), apart (2 * j + 1) (by omega) (by omega)]

def Data.Kind.kept : Data.Kind → Obj → Obj
  | .chars, .char code => .char (code % 256)
  | _, v => v

@[simp] theorem Data.kind_set (bigEndian : Bool) (data : Data) (i : Nat) (v : Obj) :
    (data.set bigEndian i v).kind = data.kind := by
  cases data with
  | bytes isSigned wide bytes => cases v <;> rfl
  | _ => rfl

theorem Data.elt_set_self {bigEndian : Bool} {data : Data} {i : Nat} {v : Obj}
    (accepted : data.kind.accepts v = true) :
    (data.set bigEndian i v).elt bigEndian i = data.kind.kept v := by
  cases data with
  | objects data => exact Function.update_self ..
  | chars data =>
      cases v with
      | char code => simp [Data.set, Data.elt, Data.kind, Data.Kind.kept, charVal]
      | _ => cases accepted
  | codes data =>
      cases v with
      | char code => simp [Data.set, Data.elt, Data.kind, Data.Kind.kept, charVal]
      | _ => cases accepted
  | bits data =>
      obtain rfl | rfl : v = .fixnum 0 ∨ v = .fixnum 1 := by
        simpa [Data.kind, Data.Kind.accepts] using accepted
      · simp [Data.set, Data.elt, Data.kind, Data.Kind.kept]
      · simp [Data.set, Data.elt, Data.kind, Data.Kind.kept]
  | bytes isSigned wide bytes =>
      cases v with
      | fixnum n =>
          obtain ⟨low, high⟩ : bytevecLow isSigned wide ≤ n ∧ n ≤ bytevecHigh isSigned wide := by
            simpa [Data.kind, Data.Kind.accepts] using accepted
          exact congrArg Obj.fixnum (bytevecGet_set_self bytes i low high)
      | _ => cases accepted

theorem Data.elt_set_of_ne {bigEndian : Bool} {data : Data} {i j : Nat} (v : Obj)
    (different : j ≠ i) : (data.set bigEndian i v).elt bigEndian j = data.elt bigEndian j := by
  cases data with
  | bytes isSigned wide bytes =>
      cases v with
      | fixnum n => exact congrArg Obj.fixnum (bytevecGet_set_of_ne bytes n different)
      | _ => rfl
  | _ => simp [Data.set, Data.elt, Function.update_of_ne different]

/-- Where an element is: in a cons, or in the storage of an array. -/
inductive Place where
  | cell (id : Nat)
  | slot (storage i : Nat)
deriving DecidableEq, Repr

def Heap.value (h : Heap) : Place → Obj
  | .cell id => h.memory.car id
  | .slot storage i => (h.store storage).elt h.bigEndian i

/-- The places of the active elements, in their order. -/
def Ref.Places (h : Heap) : Ref → List Place → Prop
  | .list head, places => ∃ cells, Linked h.memory head cells ∧ places = cells.map Place.cell
  | .array id, places => places = (List.range (h.arrays id).activeLength).map fun i =>
      .slot (h.arrays id).storage (h.base id + i)

/-- Two heaps differ in the values of their elements at most. -/
structure SameShape (h h' : Heap) : Prop where
  bigEndian : h'.bigEndian = h.bigEndian
  links : h'.memory.cdr = h.memory.cdr
  arrays : h'.arrays = h.arrays
  kinds : ∀ storage, (h'.store storage).kind = (h.store storage).kind

theorem SameShape.refl (h : Heap) : SameShape h h :=
  ⟨rfl, rfl, rfl, fun _ => rfl⟩

theorem SameShape.trans {h h' h'' : Heap} (first : SameShape h h') (second : SameShape h' h'') :
    SameShape h h'' where
  bigEndian := second.bigEndian.trans first.bigEndian
  links := second.links.trans first.links
  arrays := second.arrays.trans first.arrays
  kinds := fun storage => (second.kinds storage).trans (first.kinds storage)

theorem SameShape.kind {h h' : Heap} (same : SameShape h h') (id : Nat) :
    h'.kind id = h.kind id := by
  rw [Heap.kind, Heap.data, same.arrays, same.kinds]
  rfl

theorem SameShape.base {h h' : Heap} (same : SameShape h h') (id : Nat) :
    h'.base id = h.base id := by
  rw [Heap.base, same.kind, same.arrays]
  rfl

theorem SameShape.linked {h h' : Heap} (same : SameShape h h') {head : Option Nat}
    {cells : List Nat} : Linked h'.memory head cells ↔ Linked h.memory head cells :=
  ⟨Cells.Segment.frame fun cell _ => (congrFun same.links cell).symm,
    Cells.Segment.frame fun cell _ => congrFun same.links cell⟩

def Heap.setSlot (h : Heap) (id i : Nat) (v : Obj) : Heap :=
  h.setData id ((h.data id).set h.bigEndian (h.base id + i) v)

theorem Heap.store_setSlot (h : Heap) (id i : Nat) (v : Obj) :
    (h.setSlot id i v).store = Function.update h.store (h.arrays id).storage
      ((h.data id).set h.bigEndian (h.base id + i) v) := rfl

theorem Heap.setSlot_shape (h : Heap) (id i : Nat) (v : Obj) : SameShape h (h.setSlot id i v) where
  bigEndian := rfl
  links := rfl
  arrays := rfl
  kinds := fun storage => by
    rw [Heap.store_setSlot]
    by_cases here : storage = (h.arrays id).storage
    · subst here
      rw [Function.update_self, Data.kind_set]
      rfl
    · rw [Function.update_of_ne here]

theorem Heap.setSlot_value {h : Heap} {id : Nat} {v : Obj} (i : Nat)
    (accepted : (h.kind id).accepts v = true) :
    (h.setSlot id i v).value = Function.update h.value (.slot (h.arrays id).storage (h.base id + i))
        ((h.kind id).kept v) := by
  funext place
  cases place with
  | cell cell => rw [Function.update_of_ne (by simp)]; rfl
  | slot storage j =>
      by_cases here : storage = (h.arrays id).storage
      · subst here
        by_cases index : j = h.base id + i
        · subst index
          rw [Function.update_self, Heap.value, Heap.store_setSlot, Function.update_self]
          exact Data.elt_set_self accepted
        · rw [Function.update_of_ne (by simpa using index), Heap.value, Heap.store_setSlot,
            Function.update_self]
          exact Data.elt_set_of_ne v index
      · rw [Function.update_of_ne (by simp [here]), Heap.value, Heap.store_setSlot,
          Function.update_of_ne here]
        rfl

theorem Heap.setCar_shape (h : Heap) (cell : Nat) (v : Obj) : SameShape h (h.setCar cell v) :=
  ⟨rfl, rfl, rfl, fun _ => rfl⟩

theorem Heap.setCar_value (h : Heap) (cell : Nat) (v : Obj) :
    (h.setCar cell v).value = Function.update h.value (.cell cell) v := by
  funext place
  cases place with
  | cell other =>
      by_cases here : other = cell
      · subst here
        rw [Function.update_self]
        exact Function.update_self ..
      · rw [Function.update_of_ne (by simpa using here)]
        exact Function.update_of_ne here ..
  | slot storage i => rw [Function.update_of_ne (by simp)]; rfl

end ClAmiga.Sequence
