import Mathlib.Logic.Function.Basic
import ClAmiga.Sequence.Match

/-!
# The storage of the sequences

Arrays by identity, each with its data in a storage that displaced vectors share, next to the
conses of the lists.  The accesses that the source does not check stop the model outside of the
array.
-/

namespace ClAmiga.Sequence

open Cells (Memory)

/-- The data of an array; bytes are as in the memory, two to an element where `wide`. -/
inductive Data where
  | objects (data : Nat → Obj)
  | chars (data : Nat → BitVec 8)
  | codes (data : Nat → Nat)
  | bits (data : Nat → Bool)
  | bytes (isSigned wide : Bool) (data : Nat → BitVec 8)

/-- `CL_VECTOR_P`, `CL_STRING_P` and so on, with the signedness and the width of bytes. -/
inductive Data.Kind where
  | objects
  | chars
  | codes
  | bits
  | bytes (isSigned wide : Bool)
deriving DecidableEq, Repr

def Data.kind : Data → Data.Kind
  | .objects _ => .objects
  | .chars _ => .chars
  | .codes _ => .codes
  | .bits _ => .bits
  | .bytes isSigned wide _ => .bytes isSigned wide

/-- `cl_bytevec_load_u16` -/
def loadU16 (bigEndian : Bool) (first second : BitVec 8) : BitVec 16 :=
  if bigEndian then first ++ second else second ++ first

/-- `cl_bytevec_store_u16` -/
def storeU16 (bigEndian : Bool) (v : BitVec 16) : BitVec 8 × BitVec 8 :=
  if bigEndian then (v.extractLsb' 8 8, v.extractLsb' 0 8)
  else (v.extractLsb' 0 8, v.extractLsb' 8 8)

/-- `cl_bytevec_get` -/
def bytevecGet (bigEndian isSigned wide : Bool) (data : Nat → BitVec 8) (i : Nat) : Int :=
  if wide then
    let v := loadU16 bigEndian (data (2 * i)) (data (2 * i + 1))
    if isSigned then v.toInt else v.toNat
  else if isSigned then (data i).toInt
  else (data i).toNat

/-- `cl_bytevec_set` -/
def bytevecSet (bigEndian wide : Bool) (data : Nat → BitVec 8) (i : Nat) (v : Int) :
    Nat → BitVec 8 :=
  if wide then
    let (first, second) := storeU16 bigEndian (BitVec.ofInt 16 v)
    Function.update (Function.update data (2 * i) first) (2 * i + 1) second
  else Function.update data i (BitVec.ofInt 8 v)

/-- `cl_bytevec_type_name` -/
def bytevecTypeName (isSigned wide : Bool) : String :=
  if wide then if isSigned then "(SIGNED-BYTE 16)" else "(UNSIGNED-BYTE 16)"
  else if isSigned then "(SIGNED-BYTE 8)" else "(UNSIGNED-BYTE 8)"

/-- The range of `cl_bytevec_check_value`. -/
def bytevecLow (isSigned wide : Bool) : Int :=
  if isSigned then if wide then -32768 else -128 else 0

def bytevecHigh (isSigned wide : Bool) : Int :=
  if wide then if isSigned then 32767 else 65535 else if isSigned then 127 else 255

/-- An element, as `seq_elt` and `arr_seq_get` make it an object. -/
def Data.elt (bigEndian : Bool) : Data → Nat → Obj
  | .objects data, i => data i
  | .chars data, i => .char (data i).toNat
  | .codes data, i => .char (data i)
  | .bits data, i => .fixnum (if data i then 1 else 0)
  | .bytes isSigned wide data, i => .fixnum (bytevecGet bigEndian isSigned wide data i)

/-- The store of `arr_seq_set`; a base string keeps the low byte of a code. -/
def Data.set (bigEndian : Bool) : Data → Nat → Obj → Data
  | .objects data, i, v => .objects (Function.update data i v)
  | .chars data, i, v => .chars (Function.update data i (BitVec.ofNat 8 (charVal v)))
  | .codes data, i, v => .codes (Function.update data i (charVal v))
  | .bits data, i, v => .bits (Function.update data i (decide (v = .fixnum 1)))
  | .bytes isSigned wide data, i, .fixnum n =>
      .bytes isSigned wide (bytevecSet bigEndian wide data i n)
  | .bytes isSigned wide data, _, _ => .bytes isSigned wide data

/-- Whether the checks of `arr_seq_set` let a value pass. -/
def Data.Kind.accepts : Data.Kind → Obj → Bool
  | .objects, _ => true
  | .chars, .char _ | .codes, .char _ => true
  | .chars, _ | .codes, _ => false
  | .bits, v => decide (v = .fixnum 0) || decide (v = .fixnum 1)
  | .bytes isSigned wide, .fixnum n =>
      decide (bytevecLow isSigned wide ≤ n) && decide (n ≤ bytevecHigh isSigned wide)
  | .bytes _ _, _ => false

def Data.Kind.expected : Data.Kind → String × String
  | .objects => ("T", "")
  | .chars | .codes => ("CHARACTER", "storing into a string")
  | .bits => ("BIT", "storing into a bit vector")
  | .bytes isSigned wide => (bytevecTypeName isSigned wide, "storing into a byte vector")

/-- The header of an array; `isString` is `CL_VEC_FLAG_STRING`. -/
structure Arr where
  storage : Nat
  /-- the displaced index offset -/
  offset : Nat
  length : Nat
  fillPointer : Option Nat
  isString : Bool
deriving DecidableEq, Repr

/-- `cl_vector_active_length` -/
def Arr.activeLength (a : Arr) : Nat :=
  a.fillPointer.getD a.length

structure Heap where
  bigEndian : Bool
  memory : Memory Obj
  arrays : Nat → Arr
  store : Nat → Data

inductive Ref where
  | list (head : Option Nat)
  | array (id : Nat)
deriving DecidableEq, Repr

inductive Stop where
  | argument (error : ArgError)
  | typeError (datum : Obj) (expected context : String)
  | error (text : String)
  /-- an access outside of an array -/
  | outside
  /-- the fuel for a list is spent -/
  | exhausted
deriving DecidableEq, Repr

/-- Runs on a heap; a signalled error leaves the heap as it is by then. -/
abbrev Action := EStateM Stop Heap

def Action.ofArgs {α : Type} : Except ArgError α → Action α
  | .ok value => pure value
  | .error error => throw (.argument error)

def Action.ofExcept {α : Type} : Except Stop α → Action α
  | .ok value => pure value
  | .error stop => throw stop

theorem get_run (h : Heap) : (get : Action Heap) h = .ok h h :=
  rfl

theorem Action.bind_ok {α β : Type} {first : Action α} {next : α → Action β} {h h' : Heap} {a : α}
    (ran : first h = .ok a h') : (first >>= next) h = next a h' := by
  simp only [bind, EStateM.bind, ran]

theorem Action.bind_error {α β : Type} {first : Action α} {next : α → Action β} {h h' : Heap}
    {stop : Stop} (ran : first h = .error stop h') : (first >>= next) h = .error stop h' := by
  simp only [bind, EStateM.bind, ran]

theorem Action.bind_returned {α β : Type} {first : Action α} {next : α → Action β} {h h' : Heap}
    {b : β}
    (ran : (first >>= next) h = .ok b h') : ∃ a h₁, first h = .ok a h₁ ∧ next a h₁ = .ok b h' := by
  cases done : first h with
  | ok a h₁ => exact ⟨a, h₁, rfl, by rwa [Action.bind_ok done] at ran⟩
  | error stop h₁ =>
      rw [Action.bind_error done] at ran
      cases ran

theorem Action.ofArgs_returned {α : Type} {e : Except ArgError α} {h h' : Heap} {a : α}
    (ran : Action.ofArgs e h = .ok a h') : e = .ok a ∧ h = h' := by
  cases e with
  | ok value =>
      obtain ⟨rfl, rfl⟩ := EStateM.Result.ok.inj ran
      exact ⟨rfl, rfl⟩
  | error error => cases ran

def Heap.data (h : Heap) (id : Nat) : Data :=
  h.store (h.arrays id).storage

def Heap.kind (h : Heap) (id : Nat) : Data.Kind :=
  (h.data id).kind

/-- Where `cl_vector_data` starts; packed arrays are not displaced. -/
def Heap.base (h : Heap) (id : Nat) : Nat :=
  if h.kind id = .objects then (h.arrays id).offset else 0

def Heap.setData (h : Heap) (id : Nat) (data : Data) : Heap :=
  { h with store := Function.update h.store (h.arrays id).storage data }

def Heap.setCar (h : Heap) (cell : Nat) (v : Obj) : Heap :=
  { h with memory := { h.memory with car := Function.update h.memory.car cell v } }

/-- `arr_seq_get` below a bound. -/
def Heap.arrElt (h : Heap) (id i : Nat) : Obj :=
  (h.data id).elt h.bigEndian (h.base id + i)

def Heap.covers (h : Heap) (id start count : Nat) : Bool :=
  decide (start + count ≤ (h.arrays id).activeLength)

/-- `seq_length` -/
def Heap.seqLength (h : Heap) (fuel : Nat) : Ref → Option Nat
  | .list head => listLength h.memory fuel head
  | .array id => some (h.arrays id).activeLength

def seqLength (fuel : Nat) (seq : Ref) : Action Nat := do
  match (← get).seqLength fuel seq with
  | some len => pure len
  | none => throw .exhausted

theorem seqLength_returned {fuel len : Nat} {seq : Ref} {h h' : Heap}
    (ran : seqLength fuel seq h = .ok len h') : h.seqLength fuel seq = some len ∧ h = h' := by
  simp only [Sequence.seqLength, bind, EStateM.bind, get_run] at ran
  cases found : h.seqLength fuel seq with
  | some n =>
      rw [found] at ran
      obtain ⟨rfl, rfl⟩ := EStateM.Result.ok.inj ran
      exact ⟨rfl, rfl⟩
  | none =>
      rw [found] at ran
      cases ran

/-- `seq_elt` -/
def seqEltOf (seq : Ref) (idx : Int) : Action Obj := do
  let h ← get
  match seq with
  | .list head => pure (listElt h.memory idx.toNat head)
  | .array id =>
      if idx < 0 ∨ ((h.arrays id).activeLength : Int) ≤ idx then
        throw (.error "index out of bounds")
      else pure (h.arrElt id idx.toNat)

/-- `arr_seq_get` on an array -/
def arrSeqGet (id : Nat) (i : Int) : Action Obj := do
  let h ← get
  if i < 0 ∨ ((h.arrays id).activeLength : Int) ≤ i then throw .outside
  else pure (h.arrElt id i.toNat)

/-- `arr_seq_set` on an array, with the bound of the places that the caller may store to. -/
def arrSeqSetBelow (bound : Arr → Nat) (id : Nat) (i : Int) (val : Obj) : Action Unit := do
  let h ← get
  if (h.kind id).accepts val then
    if i < 0 ∨ (bound (h.arrays id) : Int) ≤ i then throw .outside
    else set (h.setData id ((h.data id).set h.bigEndian (h.base id + i.toNat) val))
  else
    let (expected, context) := (h.kind id).expected
    throw (.typeError val expected context)

end ClAmiga.Sequence
