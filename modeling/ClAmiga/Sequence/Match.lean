import ClAmiga.Search.PartitionPoint
import ClAmiga.Sequence.Remove

/-!
# MISMATCH and SEARCH

Two ranges are compared from their starts or from their ends, and one range is looked for in
another sequence from the left or from the right.
-/

namespace ClAmiga.Sequence

open Cells (Memory)

/-- The variables of `bi_mismatch` and `bi_search`. -/
structure MatchArgs where
  testFn : Obj
  testNotFn : Obj
  keyFn : Obj
  start1 : Int
  ending1 : Int
  start2 : Int
  ending2 : Int
  fromEnd : Bool
deriving DecidableEq, Repr

/-- The element of a list after so many conses, and `NIL` behind its end. -/
def listElt (memory : Memory Obj) : Nat → Option Nat → Obj
  | _, none => .nil
  | 0, some cell => memory.car cell
  | idx + 1, some cell => listElt memory idx (memory.cdr cell)

/-- `seq_elt`; the index of an array is compared as an unsigned number. -/
def seqElt (memory : Memory Obj) : Seq → Int → Except ArgError Obj
  | .list head, idx => .ok (listElt memory idx.toNat head)
  | .array length contents, idx =>
      if idx < 0 ∨ (length : Int) ≤ idx then .error (.badBound "index out of bounds")
      else .ok (contents.elt idx.toNat)

def MatchArgs.same (vm : Vm) (ma : MatchArgs) (x y : Obj) : Bool :=
  let e1 := applyKey vm ma.keyFn x
  let e2 := applyKey vm ma.keyFn y
  if ma.testNotFn ≠ .nil then decide (vm.callTest ma.testNotFn e1 e2 = .nil)
  else decide (vm.callTest ma.testFn e1 e2 ≠ .nil)

def matchElements (vm : Vm) (ma : MatchArgs) (memory : Memory Obj) (seq1 seq2 : Seq) (i j : Int) :
    Except ArgError Bool := do
  let x ← seqElt memory seq1 i
  let y ← seqElt memory seq2 j
  .ok (ma.same vm x y)

/-- The loops over two indices, so many rounds, up or down by steps of one: the indices at which
the loop is left, and whether it broke off at elements that do not match. -/
def compareLoop (isMatch : Int → Int → Except ArgError Bool) (step : Int) :
    Nat → Int → Int → Except ArgError (Int × Int × Bool)
  | 0, i, j => .ok (i, j, false)
  | rounds + 1, i, j => do
      if ← isMatch i j then compareLoop isMatch step rounds (i + step) (j + step)
      else .ok (i, j, true)

/-- The body of `bi_mismatch`. -/
def mismatchSeq (vm : Vm) (ma : MatchArgs) (memory : Memory Obj) (seq1 seq2 : Seq) :
    Except ArgError Obj := do
  let sublen1 := ma.ending1 - ma.start1
  let sublen2 := ma.ending2 - ma.start2
  let isMatch := matchElements vm ma memory seq1 seq2
  let rounds := min sublen1.toNat sublen2.toNat
  if ma.fromEnd then
    let (i, _, broke) ← compareLoop isMatch (-1) rounds (ma.ending1 - 1) (ma.ending2 - 1)
    let mismatchPos := if broke then i + 1 else -1
    if mismatchPos ≥ 0 then .ok (.fixnum mismatchPos)
    else if sublen1 ≠ sublen2 then
      if sublen1 < sublen2 then .ok (.fixnum ma.start1)
      else .ok (.fixnum (ma.start1 + (sublen1 - sublen2)))
    else .ok .nil
  else
    let (i, j, broke) ← compareLoop isMatch 1 rounds ma.start1 ma.start2
    if broke then .ok (.fixnum i)
    else if i = ma.ending1 ∧ j = ma.ending2 then .ok .nil
    else .ok (.fixnum i)

def searchLoop (isPlace : Int → Except ArgError Bool) (step : Int) :
    Nat → Int → Except ArgError Obj
  | 0, _ => .ok .nil
  | rounds + 1, i => do
      if ← isPlace i then .ok (.fixnum i) else searchLoop isPlace step rounds (i + step)

/-- The body of `bi_search`. -/
def searchSeq (vm : Vm) (ma : MatchArgs) (memory : Memory Obj) (seq1 seq2 : Seq) :
    Except ArgError Obj := do
  let sublen := ma.ending1 - ma.start1
  -- the empty pattern
  if sublen ≤ 0 then .ok (.fixnum (if ma.fromEnd then ma.ending2 else ma.start2))
  else
    let isPlace := fun i => do
      let (_, _, broke) ←
        compareLoop (matchElements vm ma memory seq1 seq2) 1 sublen.toNat ma.start1 i
      .ok !broke
    let rounds := (ma.ending2 - sublen - ma.start2 + 1).toNat
    if ma.fromEnd then searchLoop isPlace (-1) rounds (ma.ending2 - sublen)
    else searchLoop isPlace 1 rounds ma.start2

end ClAmiga.Sequence
