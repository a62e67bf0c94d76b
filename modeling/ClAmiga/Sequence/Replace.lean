import ClAmiga.Sequence.Storage

/-!
# REPLACE, FILL and (SETF ELT)

Bytes of two packed vectors of one element type, and the characters of two base strings, are
moved at once; else the region of the source is copied to a snapshot and stored element by
element.  FILL and (SETF ELT) store one value at the places of a range, or at one index, after
the checks of its type and of the bounds.
-/

namespace ClAmiga.Sequence

/-- The bounds of `bi_replace`. -/
structure Bounds where
  start1 : Int
  ending1 : Int
  start2 : Int
  ending2 : Int
deriving DecidableEq, Repr

def Bounds.of (registers : Registers) : Bounds where
  start1 := (registers (.keyword .start1)).toInt
  ending1 := (registers (.keyword .ending1)).toInt
  start2 := (registers (.keyword .start2)).toInt
  ending2 := (registers (.keyword .ending2)).toInt

def Bounds.count (b : Bounds) : Int :=
  if b.ending2 - b.start2 < b.ending1 - b.start1 then b.ending2 - b.start2
  else b.ending1 - b.start1

/-- `memmove`, so many bytes -/
def memmove (dst src : Nat → BitVec 8) (start1 start2 count : Nat) : Nat → BitVec 8 := fun p =>
  if start1 ≤ p ∧ p < start1 + count then src (start2 + (p - start1)) else dst p

/-- The fast paths: the data with the region moved, where the storage classes, the widths and the
signedness are the same. -/
def moved (dst src : Data) (start1 start2 count : Nat) : Option Data :=
  match dst, src with
  | .bytes isSigned1 wide1 d1, .bytes isSigned2 wide2 d2 =>
      if wide1 = wide2 ∧ isSigned1 = isSigned2 then
        let shift := if wide1 then 1 else 0
        some (.bytes isSigned1 wide1
          (memmove d1 d2 (start1 <<< shift) (start2 <<< shift) (count <<< shift)))
      else none
  | .chars d1, .chars d2 => some (.chars (memmove d1 d2 start1 start2 count))
  | _, _ => none

def snapshot (seq : Ref) (start : Int) : Nat → Action (List Obj)
  | 0 => pure []
  | count + 1 => do
      let v ← seqEltOf seq start
      let rest ← snapshot seq (start + 1) count
      pure (v :: rest)

/-- The cons after so many of them, or `NIL`. -/
def nthCell (h : Heap) : Nat → Option Nat → Option Nat
  | 0, cur => cur
  | _, none => none
  | i + 1, some cell => nthCell h i (h.memory.cdr cell)

def storeCells : Option Nat → List Obj → Action Unit
  | some cell, v :: rest => do
      modify (·.setCar cell v)
      storeCells ((← get).memory.cdr cell) rest
  | _, _ => pure ()

def storeArray (bound : Arr → Nat) (id : Nat) : Int → List Obj → Action Unit
  | _, [] => pure ()
  | i, v :: rest => do
      arrSeqSetBelow bound id i v
      storeArray bound id (i + 1) rest

/-- `arr_seq_set` takes `NIL` for a bit vector. -/
def storeNil : List Obj → Action Unit
  | [] => pure ()
  | v :: _ =>
      if Data.Kind.bits.accepts v then throw .outside
      else throw (.typeError v "BIT" "storing into a bit vector")

/-- The path of `bi_replace` through a snapshot. -/
def replaceByElements (b : Bounds) (seq1 seq2 : Ref) : Action Unit := do
  let values ← snapshot seq2 b.start2 b.count.toNat
  match seq1 with
  | .list none => storeNil values
  | .list (some cell) => storeCells (nthCell (← get) b.start1.toNat (some cell)) values
  | .array id => storeArray Arr.activeLength id b.start1 values

/-- The body of `bi_replace`, between sequences of two lengths. -/
def replaceSeq (len1 len2 : Nat) (b : Bounds) (seq1 seq2 : Ref) : Action Unit := do
  let h ← get
  if b.count ≤ 0 then pure ()
  else if 0 ≤ b.start1 ∧ 0 ≤ b.start2 ∧ b.ending1 ≤ len1 ∧ b.ending2 ≤ len2 then
    match seq1, seq2 with
    | .array id1, .array id2 =>
        match moved (h.data id1) (h.data id2) b.start1.toNat b.start2.toNat b.count.toNat with
        | some data =>
            if h.covers id1 b.start1.toNat b.count.toNat ∧ h.covers id2 b.start2.toNat b.count.toNat
            then set (h.setData id1 data)
            else throw .outside
        | none => replaceByElements b seq1 seq2
    | _, _ => replaceByElements b seq1 seq2
  else replaceByElements b seq1 seq2

/-- `SK_START1 | SK_END1 | SK_START2 | SK_END2` -/
def skReplaceKeys : Keyword → Bool
  | .start1 | .ending1 | .start2 | .ending2 => true
  | _ => false

/-- `bi_replace` -/
def replaceCall (fuel : Nat) (seq1 seq2 : Ref) (args : List Obj) : Action Ref := do
  Action.ofArgs (checkSeqKeywords 2 skReplaceKeys args)
  let len1 ← seqLength fuel seq1
  let len2 ← seqLength fuel seq2
  let registers ← Action.ofArgs (replaceArgs len1 len2 args)
  replaceSeq len1 len2 (Bounds.of registers) seq1 seq2
  pure seq1

def setElt (id : Nat) (i : Int) (v : Obj) : Action Unit := do
  let h ← get
  if i < 0 ∨ ((h.arrays id).activeLength : Int) ≤ i then throw .outside
  else set (h.setData id ((h.data id).set h.bigEndian (h.base id + i.toNat) v))

/-- `SK_START | SK_END` -/
def skFillKeys : Keyword → Bool
  | .start | .ending => true
  | _ => false

def fillCells (item : Obj) (start : Int) : Nat → Int → Option Nat → Action Unit
  | 0, _, _ => pure ()
  | _ + 1, _, none => pure ()
  | rounds + 1, i, some cell => do
      if start ≤ i then modify (·.setCar cell item)
      fillCells item start rounds (i + 1) ((← get).memory.cdr cell)

def fillElts (id : Nat) (item : Obj) : Nat → Int → Action Unit
  | 0, _ => pure ()
  | rounds + 1, i => do
      setElt id i item
      fillElts id item rounds (i + 1)

def fillCheck (kind : Data.Kind) (item : Obj) : Except Stop Unit :=
  if kind.accepts item then .ok ()
  else
    match kind with
    | .objects => .ok ()
    | .chars | .codes => .error (.error "FILL: string requires a character")
    | .bits => .error (.error "FILL: bit vector requires 0 or 1")
    | .bytes isSigned wide =>
        .error (.typeError item (bytevecTypeName isSigned wide) "FILL on a byte vector")

/-- The body of `bi_fill` behind the scan of its keywords. -/
def fillSeq (seq : Ref) (item : Obj) (start ending : Int) : Action Unit := do
  if start > ending then throw (.error "FILL: :start is greater than :end")
  else
    match seq with
    | .list head => fillCells item start ending.toNat 0 head
    | .array id => do
        let h ← get
        Action.ofExcept (fillCheck (h.kind id) item)
        let hi := min ending (h.arrays id).activeLength
        fillElts id item (hi - start).toNat start

/-- `bi_fill` -/
def fillCall (fuel : Nat) (seq : Ref) (item : Obj) (args : List Obj) : Action Ref := do
  Action.ofArgs (checkSeqKeywords 2 skFillKeys args)
  let len ← seqLength fuel seq
  let registers ← Action.ofArgs (fillArgs len args)
  fillSeq seq item (registers (.keyword .start)).toInt (registers (.keyword .ending)).toInt
  pure seq

def eltOutOfBounds : Stop :=
  .error "(SETF ELT): index out of bounds for sequence"

/-- The checks of a value, behind that of the index; bytes are checked by `arr_seq_set`. -/
def setfEltCheck (kind : Data.Kind) (val : Obj) : Except Stop Unit :=
  if kind.accepts val then .ok ()
  else
    match kind with
    | .objects => .ok ()
    | .chars | .codes => .error (.error "(SETF ELT): value must be a character for string")
    | .bits => .error (.error "(SETF ELT): value must be 0 or 1 for bit vector")
    | .bytes isSigned wide =>
        .error (.typeError val (bytevecTypeName isSigned wide) "storing into a byte vector")

def consAt (h : Heap) : Nat → Option Nat → Option Nat
  | _, none => none
  | 0, some cell => some cell
  | idx + 1, some cell => consAt h idx (h.memory.cdr cell)

/-- `bi_setf_elt` -/
def setfEltCall (seq : Ref) (index val : Obj) : Action Obj := do
  match index with
  | .fixnum idx =>
      if idx < 0 then throw eltOutOfBounds
      else
        let h ← get
        match seq with
        | .list head =>
            match consAt h idx.toNat head with
            | none => throw eltOutOfBounds
            | some cell => do
                set (h.setCar cell val)
                pure val
        | .array id =>
            if ((h.arrays id).activeLength : Int) ≤ idx then throw eltOutOfBounds
            else do
              Action.ofExcept (setfEltCheck (h.kind id) val)
              setElt id idx val
              pure val
  | _ => throw (.error "(SETF ELT): index is not a valid sequence index")

end ClAmiga.Sequence
