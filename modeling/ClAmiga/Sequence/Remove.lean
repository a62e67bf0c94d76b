import ClAmiga.Sequence.Sort

/-!
# REMOVE and DELETE

The copying and the splicing removal from a list, and those from strings, bit vectors and other
vectors, each with a branch that removes from the front and one in two passes for `:from-end`
with a count.
-/

namespace ClAmiga.Sequence

open Cells (Memory)

/-- The machine that calls functions. -/
structure Vm where
  functions : Functions
  call1 : Obj → Obj → Obj
  callTest : Obj → Obj → Obj → Obj

/-- `apply_key` -/
def applyKey (vm : Vm) (keyFn elem : Obj) : Obj :=
  if keyFn = .nil then elem else vm.call1 keyFn elem

inductive Mode where
  | item
  | pred
  | predNot
  | notItem
deriving DecidableEq, Repr

/-- `seq_pred_match` -/
def seqPredMatch (vm : Vm) (pred keyFn elem : Obj) : Bool :=
  decide (vm.call1 pred (applyKey vm keyFn elem) ≠ .nil)

/-- `del_elem_match`, which the other loops but those of strings write out. -/
def delElemMatch (vm : Vm) (mode : Mode) (item testFn keyFn elem : Obj) : Bool :=
  match mode with
  | .item => decide (vm.callTest testFn item (applyKey vm keyFn elem) ≠ .nil)
  | .notItem => decide (vm.callTest testFn item (applyKey vm keyFn elem) = .nil)
  | .pred => seqPredMatch vm item keyFn elem
  | .predNot => !seqPredMatch vm item keyFn elem

/-- `remove_str_match` -/
def removeStrMatch (vm : Vm) (mode : Mode) (testFn keyFn itemOrPred elem : Obj) : Bool :=
  match mode with
  | .pred => seqPredMatch vm itemOrPred keyFn elem
  | .predNot => !seqPredMatch vm itemOrPred keyFn elem
  | _ => decide (vm.callTest testFn itemOrPred (applyKey vm keyFn elem) ≠ .nil)

/-- Whether an element is removed, and the next state. -/
abbrev Decision := Int → Int → Obj → Bool × Int

def inRange (start ending i : Int) : Bool :=
  decide (start ≤ i) && (decide (ending < 0) || decide (i < ending))

def forward (isMatch : Obj → Bool) (start ending count : Int) : Decision := fun removed i elem =>
  if inRange start ending i && (decide (count < 0) || decide (removed < count)) && isMatch elem then
    (true, removed + 1)
  else (false, removed)

/-- The second pass, with the matches to be kept. -/
def fromBack (isMatch : Obj → Bool) (start ending : Int) : Decision := fun skip i elem =>
  if inRange start ending i && isMatch elem then
    if skip > 0 then (false, skip - 1) else (true, skip)
  else (false, skip)

/-- The one loop of the splicing and of the string removal: with `:from-end` and a count the
state is the matches to be kept, else the number removed. -/
def gated (isMatch : Obj → Bool) (start ending count : Int) (fromEnd : Bool) : Decision :=
  fun state i elem =>
    if fromEnd && decide (count ≥ 0) then
      if inRange start ending i && isMatch elem then
        if state > 0 then (false, state - 1) else (true, state)
      else (false, state)
    else if inRange start ending i && (fromEnd || decide (count < 0) || decide (state < count)) &&
        isMatch elem then
      (true, state + 1)
    else (false, state)

/-- The matches to be kept, of so many in all. -/
def skipCount (total count : Int) : Int :=
  if total - count < 0 then 0 else total - count

/-- The first pass over a list. -/
def countList (isMatch : Obj → Bool) (start ending : Int) (memory : Memory Obj) :
    Nat → Option Nat → Int → Int → Option Int
  | _, none, _, total => some total
  | 0, some _, _, _ => none
  | fuel + 1, some cur, i, total =>
      let total := if inRange start ending i && isMatch (memory.car cur) then total + 1 else total
      countList isMatch start ending memory fuel (memory.cdr cur) (i + 1) total

/-- The loop that copies the elements it does not remove. -/
def copyList (decision : Decision) (memory : Memory Obj) :
    Nat → Option Nat → Int → Int → List Obj → Option (List Obj)
  | _, none, _, _, out => some out
  | 0, some _, _, _, _ => none
  | fuel + 1, some cur, i, state, out =>
      let (remove, state) := decision state i (memory.car cur)
      let out := if remove then out else out ++ [memory.car cur]
      copyList decision memory fuel (memory.cdr cur) (i + 1) state out

/-- `remove_from_list` -/
def removeFromList (vm : Vm) (memory : Memory Obj) (fuel : Nat) (seq : Option Nat)
    (start ending count : Int) (fromEnd : Bool) (item testFn keyFn : Obj) (mode : Mode) :
    Option (List Obj) :=
  let isMatch := delElemMatch vm mode item testFn keyFn
  if fromEnd && decide (count ≥ 0) then do
    let total ← countList isMatch start ending memory fuel seq 0 0
    copyList (fromBack isMatch start ending) memory fuel seq 0 (skipCount total count) []
  else copyList (forward isMatch start ending count) memory fuel seq 0 0 []

/-- The loop that links the cons before to the one after. -/
def spliceList (decision : Decision) : Nat → Memory Obj → (head prev cur : Option Nat) → Int → Int →
    Option (Option Nat × Memory Obj)
  | _, memory, head, _, none, _, _ => some (head, memory)
  | 0, _, _, _, some _, _, _ => none
  | fuel + 1, memory, head, prev, some cur, i, state =>
      let (remove, state) := decision state i (memory.car cur)
      let next := memory.cdr cur
      if remove then
        match prev with
        | none => spliceList decision fuel memory next none next (i + 1) state
        | some cell =>
            spliceList decision fuel (memory.setCdr cell next) head (some cell) next (i + 1) state
      else spliceList decision fuel memory head (some cur) next (i + 1) state

/-- `delete_from_list` -/
def deleteFromList (vm : Vm) (memory : Memory Obj) (fuel : Nat) (seq : Option Nat)
    (start ending count : Int) (fromEnd : Bool) (item testFn keyFn : Obj) (mode : Mode) :
    Option (Option Nat × Memory Obj) := do
  let isMatch := delElemMatch vm mode item testFn keyFn
  let state ←
    if fromEnd && decide (count ≥ 0) then
      (countList isMatch start ending memory fuel seq 0 0).map (skipCount · count)
    else some 0
  spliceList (gated isMatch start ending count fromEnd) fuel memory seq none seq 0 state

def countArray (isMatch : Obj → Bool) (start ending : Int) (elt : Nat → Obj) : Nat → Int
  | 0 => 0
  | i + 1 =>
      let total := countArray isMatch start ending elt i
      if inRange start ending i && isMatch (elt i) then total + 1 else total

/-- The loop of the string removal over so many characters: those kept, and the state. -/
def keepChars (decision : Decision) (elt : Nat → Obj) (state : Int) : Nat → List Obj × Int
  | 0 => ([], state)
  | i + 1 =>
      let (out, state) := keepChars decision elt state i
      let (remove, state) := decision state i (elt i)
      (if remove then out else out ++ [elt i], state)

/-- The code of a character. -/
def charVal : Obj → Nat
  | .char code => code
  | _ => 0

/-- `remove_from_string` -/
def removeFromString (vm : Vm) (length : Nat) (codes : Nat → Nat) (itemOrPred testFn keyFn : Obj)
    (start ending count : Int) (fromEnd : Bool) (mode : Mode) : Nat × Contents :=
  let ending := if ending < 0 then (length : Int) else ending
  let isMatch := removeStrMatch vm mode testFn keyFn itemOrPred
  let elt := (Contents.string codes).elt
  let state :=
    if fromEnd && decide (count ≥ 0) then
      skipCount (countArray isMatch start ending elt length) count
    else 0
  let out := (keepChars (gated isMatch start ending count fromEnd) elt state length).1
  (out.length, .string fun i => charVal (out.getD i .nil))

def keepFlags (decision : Decision) (elt : Nat → Obj) (state : Int) : Nat → (Nat → Bool) × Int
  | 0 => (fun _ => true, state)
  | i + 1 =>
      let (keep, state) := keepFlags decision elt state i
      let (remove, state) := decision state i (elt i)
      (if remove then Function.update keep i false else keep, state)

/-- A fresh array of the class of another one. -/
def Contents.blank : Contents → Contents
  | .vector _ => .vector fun _ => .nil
  | .string _ => .string fun _ => 0
  | .bits _ => .bits fun _ => false
  | .bytes width isSigned _ => .bytes width isSigned fun _ => 0

def collect (keep : Nat → Bool) (contents : Contents) : Nat → Nat × Contents
  | 0 => (0, contents.blank)
  | i + 1 =>
      let (j, result) := collect keep contents i
      if keep i then (j + 1, result.set j (contents.elt i)) else (j, result)

/-- `remove_from_bitvector` and `remove_from_vector` -/
def removeFromArray (vm : Vm) (length : Nat) (contents : Contents) (start ending count : Int)
    (fromEnd : Bool) (item testFn keyFn : Obj) (mode : Mode) : Nat × Contents :=
  let ending := if ending < 0 then (length : Int) else ending
  let isMatch := delElemMatch vm mode item testFn keyFn
  let keep :=
    if fromEnd && decide (count ≥ 0) then
      let total := countArray isMatch start ending contents.elt length
      keepFlags (fromBack isMatch start ending) contents.elt (skipCount total count) length
    else keepFlags (forward isMatch start ending count) contents.elt 0 length
  collect keep.1 contents length

/-- The fields of `SeqArgs`. -/
structure SeqArgs where
  testFn : Obj
  testNotFn : Obj
  keyFn : Obj
  start : Int
  ending : Int
  count : Int
  fromEnd : Bool
deriving DecidableEq, Repr

def Value.toFn : Value → Obj
  | .fn obj => obj
  | _ => .nil

def Value.toInt : Value → Int
  | .int n => n
  | _ => 0

def Value.toFlag : Value → Bool
  | .flag b => b
  | _ => false

def SeqArgs.of (registers : Registers) : SeqArgs where
  testFn := (registers (.keyword .test)).toFn
  testNotFn := (registers (.keyword .testNot)).toFn
  keyFn := (registers (.keyword .key)).toFn
  start := (registers (.keyword .start)).toInt
  ending := (registers (.keyword .ending)).toInt
  count := (registers (.keyword .count)).toInt
  fromEnd := (registers (.keyword .fromEnd)).toFlag

/-- The result of a removal: fresh elements, the conses of the sequence, or a fresh array. -/
inductive RemoveResult where
  | fresh (elements : List Obj)
  | conses (head : Option Nat)
  | array (length : Nat) (contents : Contents)

def listLength (memory : Memory Obj) : Nat → Option Nat → Option Nat
  | _, none => some 0
  | 0, some _ => none
  | fuel + 1, some cell => (listLength memory fuel (memory.cdr cell)).map (· + 1)

/-- The end of a list, unless one is given. -/
def listEnd (memory : Memory Obj) (fuel : Nat) (seq : Option Nat) (ending : Int) : Option Int :=
  (listLength memory fuel seq).map fun len => if ending < 0 then (len : Int) else ending

/-- The mode of a call and its test: `:test-not` counts for an item. -/
def itemMode (mode : Mode) (sa : SeqArgs) : Mode × Obj :=
  if mode = .item ∧ sa.testNotFn ≠ .nil then (.notItem, sa.testNotFn) else (mode, sa.testFn)

/-- The body of `bi_remove`, in the mode for an item, `bi_remove_if` and `bi_remove_if_not`. -/
def removeSeq (vm : Vm) (fuel : Nat) (mode : Mode) (item : Obj) (sa : SeqArgs)
    (memory : Memory Obj) (seq : Seq) : Option (RemoveResult × Memory Obj) :=
  match seq with
  | .list none => some (.fresh [], memory)
  | .list (some head) => do
      let ending ← listEnd memory fuel (some head) sa.ending
      let out ← removeFromList vm memory fuel (some head) sa.start ending sa.count sa.fromEnd item
        (itemMode mode sa).2 sa.keyFn (itemMode mode sa).1
      some (.fresh out, memory)
  | .array length (.string codes) =>
      -- strings are not told of `:test-not`
      let (length, contents) := removeFromString vm length codes item sa.testFn sa.keyFn sa.start
        sa.ending sa.count sa.fromEnd mode
      some (.array length contents, memory)
  | .array length contents =>
      let (length, contents) := removeFromArray vm length contents sa.start sa.ending sa.count
        sa.fromEnd item (itemMode mode sa).2 sa.keyFn (itemMode mode sa).1
      some (.array length contents, memory)

/-- The body of `bi_delete_export`, `bi_delete_if_export` and `bi_delete_if_not_export`. -/
def deleteSeq (vm : Vm) (fuel : Nat) (mode : Mode) (item : Obj) (sa : SeqArgs)
    (memory : Memory Obj) (seq : Seq) : Option (RemoveResult × Memory Obj) :=
  match seq with
  | .list none => some (.conses none, memory)
  | .list (some head) => do
      let ending ← listEnd memory fuel (some head) sa.ending
      let (head, memory) ← deleteFromList vm memory fuel (some head) sa.start ending sa.count
        sa.fromEnd item (itemMode mode sa).2 sa.keyFn (itemMode mode sa).1
      some (.conses head, memory)
  | seq => removeSeq vm fuel mode item sa memory seq

inductive Removal where
  | remove
  | removeIf
  | removeIfNot
  | delete
  | deleteIf
  | deleteIfNot
deriving DecidableEq, Repr

def Removal.mode : Removal → Mode
  | .remove | .delete => .item
  | .removeIf | .deleteIf => .pred
  | .removeIfNot | .deleteIfNot => .predNot

def skAll : Keyword → Bool
  | .allowOtherKeys => false
  | _ => true

def Removal.call (vm : Vm) (fuel : Nat) (removal : Removal) (item : Obj) (memory : Memory Obj)
    (seq : Seq) (args : List Obj) : Except ArgError (Option (RemoveResult × Memory Obj)) := do
  checkSeqKeywords 2 skAll args
  let registers ← parseSeqArgs vm.functions args
  let sa := SeqArgs.of registers
  .ok (match removal with
    | .remove | .removeIf | .removeIfNot => removeSeq vm fuel removal.mode item sa memory seq
    | .delete | .deleteIf | .deleteIfNot => deleteSeq vm fuel removal.mode item sa memory seq)

end ClAmiga.Sequence
