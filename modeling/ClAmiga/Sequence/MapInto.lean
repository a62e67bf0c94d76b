import Mathlib.Data.Int.Bitwise
import ClAmiga.Sequence.ReplaceSpec

/-!
# MAP-INTO and MAP with a string result

A bitwise fold of unsigned bytes into unsigned bytes is a loop over the packed data; every other
call of MAP-INTO maps element by element.  The result of MAP is a base string of the length of the
shortest sequence, which is filled as the function returns.
-/

namespace ClAmiga.Sequence

/-- `LOGIOR`, `LOGAND` and `LOGXOR` as they are defined at first. -/
inductive Bitwise where
  | ior
  | and
  | xor
deriving DecidableEq, Repr

def Bitwise.name : Bitwise → String
  | .ior => "LOGIOR"
  | .and => "LOGAND"
  | .xor => "LOGXOR"

def Bitwise.ident : Bitwise → Int
  | .and => -1
  | _ => 0

def Bitwise.int : Bitwise → Int → Int → Int
  | .ior => Int.lor
  | .and => Int.land
  | .xor => Int.xor

def Bitwise.byte : Bitwise → BitVec 8 → BitVec 8 → BitVec 8
  | .ior, a, b => a ||| b
  | .and, a, b => a &&& b
  | .xor, a, b => a ^^^ b

def Obj.integer : Obj → Option Int
  | .fixnum n | .bignum n => some n
  | _ => none

def Obj.ofInt (n : Int) : Obj :=
  if -2 ^ 30 ≤ n ∧ n < 2 ^ 30 then .fixnum n else .bignum n

/-- `DEFINE_LOGFOLD`, with the result so far. -/
def Bitwise.fold (op : Bitwise) : Int → List Obj → Action Obj
  | result, [] => pure (Obj.ofInt result)
  | result, arg :: rest =>
      match arg.integer with
      | some n => op.fold (op.int result n) rest
      | none => throw (.typeError arg "INTEGER" op.name)

/-- A coerced function; a call may depend on the number of the calls before it. -/
inductive Callee where
  | bitwise (op : Bitwise)
  | other (call : Nat → List Obj → Action Obj)

/-- `cl_vm_apply` -/
def Callee.apply : Callee → Nat → List Obj → Action Obj
  | .bitwise op, _, args => op.fold op.ident args
  | .other call, before, args => call before args

/-- A source: the rest of a list, or an array with its length at the start. -/
inductive Cursor where
  | list (cur : Option Nat)
  | array (id len : Nat)
deriving DecidableEq, Repr

def Ref.cursor (h : Heap) : Ref → Cursor
  | .list head => .list head
  | .array id => .array id (h.arrays id).activeLength

def Cursor.exhausted (idx : Nat) : Cursor → Bool
  | .list cur => decide (cur = none)
  | .array _ len => decide (len ≤ idx)

def Cursor.next (idx : Nat) : Cursor → Action (Obj × Cursor)
  | .list none => pure (.nil, .list none)
  | .list (some cell) => do
      let h ← get
      pure (h.memory.car cell, .list (h.memory.cdr cell))
  | .array id len => do
      let v ← seqEltOf (.array id) idx
      pure (v, .array id len)

def gather (idx : Nat) : List Cursor → Action (List Obj × List Cursor)
  | [] => pure ([], [])
  | cursor :: rest => do
      let (v, cursor) ← cursor.next idx
      let (args, rest) ← gather idx rest
      pure (v :: args, cursor :: rest)

/-- The loop over the result, so many rounds of it from an index on: the values that are stored,
as many as the index moves on. -/
def mapIntoLoop (callee : Callee) (result : Ref) :
    Nat → Nat → List Cursor → Option Nat → Action (List Obj)
  | 0, _, _, _ => pure []
  | rounds + 1, idx, cursors, resCur => do
      if cursors.any (·.exhausted idx) then pure []
      else
        match result, resCur with
        | .list _, none => pure []
        | .list _, some cell => do
            let (args, cursors) ← gather idx cursors
            let val ← callee.apply idx args
            modify (·.setCar cell val)
            let rest ←
              mapIntoLoop callee result rounds (idx + 1) cursors ((← get).memory.cdr cell)
            pure (val :: rest)
        | .array id, _ => do
            let (args, cursors) ← gather idx cursors
            let val ← callee.apply idx args
            arrSeqSetBelow Arr.length id idx val
            let rest ← mapIntoLoop callee result rounds (idx + 1) cursors resCur
            pure (val :: rest)

/-- The bound of the result: a fill pointer is ignored but for a string, which has none. -/
def resultCap (fuel : Nat) : Ref → Action Nat
  | .list head => seqLength fuel (.list head)
  | .array id => do
      let h ← get
      match h.kind id with
      | .chars | .codes => pure (h.arrays id).activeLength
      | _ => pure (h.arrays id).length

def Heap.setFillPointer (h : Heap) (id count : Nat) : Heap :=
  if h.kind id = .chars ∨ h.kind id = .codes ∨ (h.arrays id).fillPointer = none then h
  else
    let a := { h.arrays id with fillPointer := some count }
    { h with arrays := Function.update h.arrays id a }

def finishMapInto (result : Ref) (count : Nat) : Action Unit :=
  match result with
  | .list _ => pure ()
  | .array id => modify (·.setFillPointer id count)

/-- The slow path of `bi_map_into`: the values that are stored. -/
def mapElements (fuel : Nat) (callee : Callee) (result : Ref) (seqs : List Ref) :
    Action (List Obj) := do
  let cap ← resultCap fuel result
  let h ← get
  let resCur := match result with
    | .list head => head
    | .array _ => none
  let values ← mapIntoLoop callee result cap 0 (seqs.map (·.cursor h)) resCur
  finishMapInto result values.length
  pure values

def mapIntoByElements (fuel : Nat) (callee : Callee) (result : Ref) (seqs : List Ref) :
    Action Unit := do
  let _ ← mapElements fuel callee result seqs
  pure ()

def Data.byte : Data → Nat → BitVec 8
  | .bytes _ _ data, k => data k
  | _, _ => 0

def Data.setByte : Data → Nat → BitVec 8 → Data
  | .bytes isSigned wide data, k, v => .bytes isSigned wide (Function.update data k v)
  | data, _, _ => data

/-- The vectors of unsigned bytes among the operands. -/
def Heap.unsignedBytes (h : Heap) : Ref → Option Nat
  | .array id => if h.kind id = .bytes false false then some id else none
  | .list _ => none

def Heap.allUnsignedBytes (h : Heap) : List Ref → Option (List Nat)
  | [] => some []
  | seq :: seqs =>
      match h.unsignedBytes seq, h.allUnsignedBytes seqs with
      | some id, some ids => some (id :: ids)
      | _, _ => none

/-- The number of elements to fold: the least of the lengths. -/
def foldCount (h : Heap) (cap : Nat) : List Nat → Nat
  | [] => cap
  | id :: ids =>
      foldCount h (if (h.arrays id).activeLength < cap then (h.arrays id).activeLength else cap) ids

/-- One byte of the result, from the bytes at an index of the sources. -/
def foldBytes (op : Bitwise) (h : Heap) (k : Nat) : List Nat → BitVec 8
  | [] => 0
  | first :: rest => rest.foldl (fun acc id => op.byte acc ((h.data id).byte k))
      ((h.data first).byte k)

/-- The loop over the packed data, so many rounds of it. -/
def foldLoop (op : Bitwise) (result : Nat) (ids : List Nat) : Nat → Nat → Action Unit
  | 0, _ => pure ()
  | rounds + 1, k => do
      let h ← get
      if (h.arrays result).length ≤ k ∨ ids.any (fun id => (h.arrays id).activeLength ≤ k) then
        throw .outside
      else
        set (h.setData result ((h.data result).setByte k (foldBytes op h k ids)))
        foldLoop op result ids rounds (k + 1)

/-- The body of `bi_map_into`, for sixteen sources at most. -/
def mapIntoSeq (fuel : Nat) (callee : Callee) (result : Ref) (seqs : List Ref) : Action Unit := do
  let h ← get
  match callee, h.unsignedBytes result, h.allUnsignedBytes seqs with
  | .bitwise op, some id, some (first :: rest) => do
      let m := foldCount h (h.arrays id).length (first :: rest)
      foldLoop op id (first :: rest) m 0
      finishMapInto result m
  | _, _, _ => mapIntoByElements fuel callee result seqs

/-- `bi_map_into` -/
def mapIntoCall (fuel : Nat) (callee : Callee) (result : Ref) (seqs : List Ref) : Action Ref := do
  if 16 < seqs.length then
    throw (.error "MAP-INTO: too many sequence arguments (%d; max 16)")
  else
    mapIntoSeq fuel callee result seqs
    pure result

/-- The calls of a function: the number of the call and the arguments. -/
abbrev Calling := Nat → List Obj → Except Stop Obj

/-- `map_collect_args` on one sequence; the index of an array is not checked. -/
def Cursor.collect (h : Heap) (idx : Nat) : Cursor → Except Stop (Obj × Cursor)
  | .list none => .ok (.nil, .list none)
  | .list (some cell) => .ok (h.memory.car cell, .list (h.memory.cdr cell))
  | .array id len =>
      if (h.arrays id).activeLength ≤ idx then .error .outside
      else .ok (h.arrElt id idx, .array id len)

/-- `map_collect_args` -/
def collectArgs (h : Heap) (idx : Nat) : List Cursor → Except Stop (List Obj × List Cursor)
  | [] => .ok ([], [])
  | cursor :: rest => do
      let (v, cursor) ← cursor.collect h idx
      let (args, rest) ← collectArgs h idx rest
      .ok (v :: args, cursor :: rest)

/-- The loop of the string result, so many rounds from an index on: the values that the function
returns, and the characters of the result, code 0 for what is no character. -/
def mapStringLoop (call : Calling) (h : Heap) : Nat → Nat → List Cursor → (Nat → BitVec 8) →
    Except Stop (List Obj × (Nat → BitVec 8))
  | 0, _, _, chars => .ok ([], chars)
  | rounds + 1, idx, cursors, chars => do
      let (args, cursors) ← collectArgs h idx cursors
      let val ← call idx args
      let (rest, chars) ← mapStringLoop call h rounds (idx + 1) cursors
        (Function.update chars idx (BitVec.ofNat 8 (charVal val)))
      .ok (val :: rest, chars)

/-- `min_len` -/
def minLength (fuel : Nat) (h : Heap) : Nat → List Ref → Option Nat
  | least, [] => some least
  | least, seq :: seqs =>
      match h.seqLength fuel seq with
      | some len => minLength fuel h (if len < least then len else least) seqs
      | none => none

/-- The branch of `bi_map` for a string, with the declared length of the result type: the length
of the result, the values that the function returns, and the characters. -/
def mapString (call : Calling) (fuel : Nat) (h : Heap) (seqs : List Ref) (declLen : Option Nat) :
    Except Stop (Nat × List Obj × (Nat → BitVec 8)) :=
  if 16 < seqs.length then
    .error (.error "MAP: too many sequence arguments (%d; max 16)")
  else
    match minLength fuel h 0x7FFFFFFF seqs with
    | none => .error .exhausted
    | some minLen => do
        let (values, chars) ← mapStringLoop call h minLen 0 (seqs.map (·.cursor h)) fun _ => 0
        match declLen with
        | some len =>
            if len ≠ minLen then .error (.error "MAP") else .ok (minLen, values, chars)
        | none => .ok (minLen, values, chars)

end ClAmiga.Sequence
