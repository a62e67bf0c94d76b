import ClAmiga.Sequence.Replace

/-!
# SUBSTITUTE and NSUBSTITUTE

The elements are copied to a snapshot, replaced there in the order of the scan, and stored from it
into the sequence or into a copy of it.
-/

namespace ClAmiga.Sequence

abbrev Funcall := Nat → Obj → List Obj → Except Stop Obj

/-- The modes 0 to 2 of `do_subst`. -/
inductive SubstMode where
  | item
  | pred
  | predNot
deriving DecidableEq, Repr

/-- `subst_match`, the calls of one round. -/
def substMatch (call : Funcall) (mode : SubstMode) (sa : SeqArgs) (olditem : Obj) (round : Nat)
    (elem : Obj) : Except Stop Bool := do
  let keyed ← if sa.keyFn = .nil then .ok elem else call (2 * round) sa.keyFn [elem]
  match mode with
  | .item =>
      if sa.testNotFn ≠ .nil then do
        let r ← call (2 * round + 1) sa.testNotFn [olditem, keyed]
        .ok (decide (r = .nil))
      else do
        let r ← call (2 * round + 1) sa.testFn [olditem, keyed]
        .ok (decide (r ≠ .nil))
  | .pred => do
      let r ← call (2 * round + 1) olditem [keyed]
      .ok (decide (r ≠ .nil))
  | .predNot => do
      let r ← call (2 * round + 1) olditem [keyed]
      .ok (decide (r = .nil))

def skSubstKeys : SubstMode → Keyword → Bool
  | _, .key | _, .start | _, .ending | _, .fromEnd | _, .count => true
  | .item, .test | .item, .testNot => true
  | _, _ => false

def substLoop (isMatch : Nat → Obj → Except Stop Bool) (newitem : Obj) (count step : Int)
    (len : Nat) :
    Nat → Int → Nat → Int → (Nat → Obj) → Except Stop (Nat → Obj)
  | 0, _, _, _, tmp => .ok tmp
  | rounds + 1, i, round, replaced, tmp =>
      if count ≥ 0 ∧ replaced ≥ count then .ok tmp
      else if i < 0 ∨ (len : Int) ≤ i then .error .outside
      else do
        if ← isMatch round (tmp i.toNat) then
          substLoop isMatch newitem count step len rounds (i + step) (round + 1) (replaced + 1)
            (Function.update tmp i.toNat newitem)
        else
          substLoop isMatch newitem count step len rounds (i + step) (round + 1) replaced tmp

def substStart (sa : SeqArgs) : Int :=
  if sa.start < 0 then 0 else sa.start

def substEnd (len : Nat) (sa : SeqArgs) : Int :=
  if sa.ending < 0 ∨ sa.ending > len then len else sa.ending

def substTmp (isMatch : Nat → Obj → Except Stop Bool) (newitem : Obj) (sa : SeqArgs) (len : Nat)
    (tmp : Nat → Obj) : Except Stop (Nat → Obj) :=
  let start := substStart sa
  let ending := substEnd len sa
  let rounds := (ending - start).toNat
  if sa.fromEnd then substLoop isMatch newitem sa.count (-1) len rounds (ending - 1) 0 0 tmp
  else substLoop isMatch newitem sa.count 1 len rounds start 0 0 tmp

/-- `seq_is_string_like` -/
def Heap.isStringLike (h : Heap) (id : Nat) : Bool :=
  match h.kind id with
  | .chars | .codes => true
  | .objects => (h.arrays id).isString
  | _ => false

/-- `seq_string_needs_wide`; what is no character counts as code 0. -/
def Heap.needsWide (h : Heap) (id : Nat) : Bool :=
  decide (h.kind id = .codes) ||
    (List.range (h.arrays id).activeLength).any fun i => decide (charVal (h.arrElt id i) > 255)

/-- `copy_array_seq` -/
def Heap.copyArraySeq (h : Heap) (id : Nat) : Data :=
  if h.isStringLike id then
    if h.needsWide id then .codes fun i => charVal (h.arrElt id i)
    else .chars fun i => BitVec.ofNat 8 (charVal (h.arrElt id i))
  else
    match h.data id with
    | .objects data => .objects fun i => data (h.base id + i)
    | data => data

def storeFresh (bigEndian : Bool) (len : Nat) (tmp : Nat → Obj) :
    Nat → Int → Data → Except Stop Data
  | 0, _, data => .ok data
  | rounds + 1, i, data =>
      if data.kind.accepts (tmp i.toNat) then
        if i < 0 ∨ (len : Int) ≤ i then .error .outside
        else storeFresh bigEndian len tmp rounds (i + 1) (data.set bigEndian i.toNat (tmp i.toNat))
      else .error (.typeError (tmp i.toNat) data.kind.expected.1 data.kind.expected.2)

/-- A result: the given sequence, a fresh list, or a fresh array. -/
inductive SubstResult where
  | given (seq : Ref)
  | elements (elements : List Obj)
  | array (len : Nat) (data : Data)

def writeCells (tmp : Nat → Obj) : Nat → Nat → Option Nat → Action Unit
  | 0, _, _ => pure ()
  | _ + 1, _, none => pure ()
  | rounds + 1, i, some cell => do
      modify (·.setCar cell (tmp i))
      writeCells tmp rounds (i + 1) ((← get).memory.cdr cell)

/-- The end of `do_subst`. -/
def substResult (destructive : Bool) (seq : Ref) (sa : SeqArgs) (len : Nat) (tmp : Nat → Obj) :
    Action SubstResult := do
  let start := substStart sa
  let rounds := (substEnd len sa - start).toNat
  match destructive, seq with
  | true, .list head => do
      writeCells tmp len 0 head
      pure (.given seq)
  | true, .array id => do
      storeArray Arr.activeLength id start ((List.range' start.toNat rounds).map tmp)
      pure (.given seq)
  | false, .list _ => pure (.elements ((List.range len).map tmp))
  | false, .array id => do
      let h ← get
      let data ← Action.ofExcept (storeFresh h.bigEndian len tmp rounds start (h.copyArraySeq id))
      pure (.array len data)

def snapshotArray (id : Nat) : Nat → Nat → Action (List Obj)
  | 0, _ => pure []
  | rounds + 1, i => do
      let v ← arrSeqGet id i
      let rest ← snapshotArray id rounds (i + 1)
      pure (v :: rest)

/-- The body of `do_subst` behind its keywords. -/
def substSeq (call : Funcall) (fuel : Nat) (mode : SubstMode) (destructive : Bool)
    (newitem olditem : Obj) (seq : Ref) (sa : SeqArgs) : Action SubstResult := do
  let len ← seqLength fuel seq
  let elems ← match seq with
    | .list _ => snapshot seq 0 len
    | .array id => snapshotArray id len 0
  let tmp ← Action.ofExcept
    (substTmp (substMatch call mode sa olditem) newitem sa len (fun i => elems.getD i .nil))
  substResult destructive seq sa len tmp

/-- `do_subst` -/
def substCall (functions : Functions) (call : Funcall) (fuel : Nat) (mode : SubstMode)
    (destructive : Bool) (newitem olditem : Obj) (seq : Ref) (args : List Obj) :
    Action SubstResult := do
  Action.ofArgs (checkSeqKeywords 3 (skSubstKeys mode) args)
  let registers ← Action.ofArgs (parseSeqArgs functions args)
  substSeq call fuel mode destructive newitem olditem seq (SeqArgs.of registers)

end ClAmiga.Sequence
