import ClAmiga.Cells.Linked
import ClAmiga.Sequence.Keywords

/-!
# SORT and MERGE

The merge sort of a list, which relinks its conses, the insertion sorts of the arrays, and the
two ways to merge.  The predicate and the key are calls that may depend on, and change, a state
of their own.
-/

namespace ClAmiga.Sequence

open Cells (Memory Spine)

structure Calls (σ κ : Type) where
  key : Obj → σ → κ × σ
  pred : κ → κ → σ → Bool × σ

variable {σ κ : Type}

def Calls.before (calls : Calls σ κ) (first second : Obj) (s : σ) : Bool × σ :=
  let (kfirst, s) := calls.key first s
  let (ksecond, s) := calls.key second s
  calls.pred ksecond kfirst s

/-- The loop of `list_merge`. -/
def listMergeLoop (calls : Calls σ κ) : Nat → Option Nat → Option Nat → Spine → Memory Obj → σ →
    Option (Option Nat × Memory Obj × σ)
  | 0, _, _, _, _, _ => none
  | fuel + 1, some a, some b, spine, memory, s =>
      let (less, s) := calls.before (memory.car a) (memory.car b) s
      let pick := if less then b else a
      let nextA := if less then some a else memory.cdr a
      let nextB := if less then memory.cdr b else some b
      let (spine, memory) := spine.push memory pick
      listMergeLoop calls fuel nextA nextB spine memory s
  | _ + 1, some a, none, spine, memory, s =>
      let (result, memory) := spine.close memory (some a)
      some (result, memory, s)
  | _ + 1, none, some b, spine, memory, s =>
      let (result, memory) := spine.close memory (some b)
      some (result, memory, s)
  | _ + 1, none, none, spine, memory, s => some (spine.map Prod.fst, memory, s)

/-- `list_merge` -/
def listMerge (calls : Calls σ κ) (fuel : Nat) (a b : Option Nat) (memory : Memory Obj) (s : σ) :
    Option (Option Nat × Memory Obj × σ) :=
  listMergeLoop calls fuel a b none memory s

def splitLoop (memory : Memory Obj) : Nat → Nat → Option Nat → Option Nat
  | 0, _, _ => none
  | fuel + 1, slow, fast =>
      match fast with
      | none => some slow
      | some cell =>
          match memory.cdr cell with
          | none => some slow
          | some next =>
              match memory.cdr slow with
              | none => none
              | some slow => splitLoop memory fuel slow (memory.cdr next)

/-- `list_merge_sort` -/
def listMergeSort (calls : Calls σ κ) : Nat → Option Nat → Memory Obj → σ →
    Option (Option Nat × Memory Obj × σ)
  | 0, _, _, _ => none
  | fuel + 1, list, memory, s =>
      match list with
      | none => some (none, memory, s)
      | some first =>
          match memory.cdr first with
          | none => some (some first, memory, s)
          | some second => do
              let slow ← splitLoop memory (fuel + 1) first (some second)
              let mid := memory.cdr slow
              let memory := memory.setCdr slow none
              let (list, memory, s) ← listMergeSort calls fuel (some first) memory s
              let (mid, memory, s) ← listMergeSort calls fuel mid memory s
              listMerge calls (fuel + 2) list mid memory s

def shiftUp (calls : Calls σ κ) (kval : κ) : Nat → (Nat → Obj) → σ → Nat × (Nat → Obj) × σ
  | 0, data, s => (0, data, s)
  | j + 1, data, s =>
      let (kj, s) := calls.key (data j) s
      let (less, s) := calls.pred kval kj s
      if less then shiftUp calls kval j (Function.update data (j + 1) (data j)) s
      else (j + 1, data, s)

def insertElement (calls : Calls σ κ) (i : Nat) (data : Nat → Obj) (s : σ) : (Nat → Obj) × σ :=
  let val := data i
  let (kval, s) := calls.key val s
  let (place, data, s) := shiftUp calls kval i data s
  (Function.update data place val, s)

/-- `vector_insertion_sort`, so many rounds of it. -/
def vectorInsertionSort (calls : Calls σ κ) : Nat → (Nat → Obj) → σ → (Nat → Obj) × σ
  | 0, data, s => (data, s)
  | i + 1, data, s =>
      let (data, s) := vectorInsertionSort calls i data s
      insertElement calls (i + 1) data s

/-- What an array holds: objects, characters, bits, or packed bytes of a width. -/
inductive Contents where
  | vector (data : Nat → Obj)
  | string (codes : Nat → Nat)
  | bits (data : Nat → Bool)
  | bytes (width : Nat) (isSigned : Bool) (data : Nat → BitVec width)

/-- `seq_elt` -/
def Contents.elt : Contents → Nat → Obj
  | .vector data, i => data i
  | .string codes, i => .char (codes i)
  | .bits data, i => .fixnum (if data i then 1 else 0)
  | .bytes _ isSigned data, i => .fixnum (if isSigned then (data i).toInt else (data i).toNat)

/-- `array_seq_set` -/
def Contents.set : Contents → Nat → Obj → Contents
  | .vector data, i, v => .vector (Function.update data i v)
  | .string codes, i, .char code => .string (Function.update codes i code)
  | .string codes, _, _ => .string codes
  | .bits data, i, .fixnum n => .bits (Function.update data i (decide (n ≠ 0)))
  | .bits data, i, _ => .bits (Function.update data i false)
  | .bytes width isSigned data, i, .fixnum n =>
      .bytes width isSigned (Function.update data i (BitVec.ofInt width n))
  | .bytes width isSigned data, _, _ => .bytes width isSigned data

/-- The last loop of `array_seq_insertion_sort`. -/
def writeBack (sorted : Nat → Obj) : Nat → Contents → Contents
  | 0, contents => contents
  | i + 1, contents => (writeBack sorted i contents).set i (sorted i)

/-- `array_seq_insertion_sort` -/
def arraySeqInsertionSort (calls : Calls σ κ) (length : Nat) (contents : Contents) (s : σ) :
    Contents × σ :=
  if length ≤ 1 then (contents, s)
  else
    let (sorted, s) := vectorInsertionSort calls (length - 1) contents.elt s
    (writeBack sorted length contents, s)

inductive Seq where
  | list (head : Option Nat)
  | array (length : Nat) (contents : Contents)

/-- `bi_sort` -/
def sort (calls : Calls σ κ) (fuel : Nat) (seq : Seq) (memory : Memory Obj) (s : σ) :
    Option (Seq × Memory Obj × σ) :=
  match seq with
  | .list head => do
      let (head, memory, s) ← listMergeSort calls fuel head memory s
      some (.list head, memory, s)
  | .array length (.vector data) =>
      let (data, s) := vectorInsertionSort calls (length - 1) data s
      some (.array length (.vector data), memory, s)
  | .array length contents =>
      let (contents, s) := arraySeqInsertionSort calls length contents s
      some (.array length contents, memory, s)

def listElements (memory : Memory Obj) : Nat → Option Nat → Option (List Obj)
  | _, none => some []
  | 0, some _ => none
  | fuel + 1, some cell => (listElements memory fuel (memory.cdr cell)).map (memory.car cell :: ·)

/-- `seq_to_gc_vector` -/
def seqToGcVector (fuel : Nat) (memory : Memory Obj) : Seq → Option (List Obj)
  | .list head => listElements memory fuel head
  | .array length contents => some ((List.range length).map contents.elt)

/-- The loops of the vector path of `bi_merge`, with what was written so far. -/
def mergeVectors (calls : Calls σ κ) (a1 a2 : List Obj) :
    Nat → Nat → Nat → List Obj → σ → List Obj × σ
  | 0, _, _, out, s => (out, s)
  | left + 1, ia, ib, out, s =>
      match a1[ia]?, a2[ib]? with
      | some x, some y =>
          let (less, s) := calls.before x y s
          if less then mergeVectors calls a1 a2 left ia (ib + 1) (out ++ [y]) s
          else mergeVectors calls a1 a2 left (ia + 1) ib (out ++ [x]) s
      | some x, none => mergeVectors calls a1 a2 left (ia + 1) ib (out ++ [x]) s
      | none, some y => mergeVectors calls a1 a2 left ia (ib + 1) (out ++ [y]) s
      | none, none => (out, s)

/-- The classes of result types. -/
inductive ResultType where
  | null
  | list
  | string
  | vector
  | bitVector
deriving DecidableEq, Repr

/-- What an element becomes in a result of a type; a string is made as a base string, which keeps
the low byte of a code. -/
def ResultType.store : ResultType → Obj → Obj
  | .string, .char code => .char (code % 256)
  | .string, _ => .char 0
  | .bitVector, .fixnum n => .fixnum (if n ≠ 0 then 1 else 0)
  | .bitVector, _ => .fixnum 0
  | _, v => v

/-- The result of a merge: the conses of the operands, or a new sequence of so many elements. -/
inductive Merged where
  | conses (head : Option Nat)
  | fresh (type : ResultType) (elements : List Obj)

inductive MergeError where
  | lengthMismatch
  | nonEmptyNull
deriving DecidableEq, Repr

/-- The end of the vector path: the checks on the length, and the result. -/
def mergeResult (rt : ResultType) (lenConstraint : Option Nat) (out : List Obj) :
    Except MergeError Merged :=
  match lenConstraint with
  | some length =>
      if length ≠ out.length then .error .lengthMismatch
      else if rt = .null ∧ out ≠ [] then .error .nonEmptyNull
      else .ok (.fresh rt (out.map rt.store))
  | none =>
      if rt = .null ∧ out ≠ [] then .error .nonEmptyNull
      else .ok (.fresh rt (out.map rt.store))

/-- `bi_merge` -/
def merge (calls : Calls σ κ) (fuel : Nat) (rt : ResultType) (lenConstraint : Option Nat)
    (seq1 seq2 : Seq) (memory : Memory Obj) (s : σ) :
    Option (Except MergeError Merged × Memory Obj × σ) :=
  match rt, seq1, seq2 with
  | .list, .list a, .list b => do
      let (result, memory, s) ← listMerge calls fuel a b memory s
      some (.ok (.conses result), memory, s)
  | rt, seq1, seq2 => do
      let a1 ← seqToGcVector fuel memory seq1
      let a2 ← seqToGcVector fuel memory seq2
      let (out, s) := mergeVectors calls a1 a2 (a1.length + a2.length) 0 0 [] s
      some (mergeResult rt lenConstraint out, memory, s)

end ClAmiga.Sequence
