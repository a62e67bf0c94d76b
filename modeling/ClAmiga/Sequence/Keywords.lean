import ClAmiga.Keyed.Leftmost

/-!
# The keyword arguments of the sequence functions

The check of a keyword list, and the scanners of the functions: from the last pair to the first
with overwriting, from the first on with flags for the keywords seen, and forward with
overwriting.
-/

namespace ClAmiga.Sequence

open Keyed (Effect scanBack scanForward values)

inductive Keyword where
  | test
  | testNot
  | key
  | start
  | ending
  | count
  | fromEnd
  | initialValue
  | start1
  | ending1
  | start2
  | ending2
  | allowOtherKeys
deriving DecidableEq, Repr

inductive Obj where
  | nil
  | keyword (name : Keyword)
  | symbol (id : Nat)
  | char (code : Nat)
  | fixnum (n : Int)
  | bignum (n : Int)
  | other (id : Nat)
deriving DecidableEq, Repr

/-- `CL_SYMBOL_P`, which asks for a heap object: `NIL` is none. -/
def Obj.isSymbol : Obj → Bool
  | .keyword _ | .symbol _ => true
  | _ => false

inductive ArgError where
  | oddNumber (cells positional : Nat)
  | notSymbol (position : Nat) (key : Obj)
  | unrecognized (position : Nat) (key : Obj)
  | undefined (name : Obj)
  | notFunction (context : String) (value : Obj)
  | badBound (text : String)
deriving DecidableEq, Repr

def pairs : List Obj → List (Obj × Obj)
  | key :: value :: rest => (key, value) :: pairs rest
  | _ => []

def flatten : List (Obj × Obj) → List Obj
  | [] => []
  | (key, value) :: rest => key :: value :: flatten rest

/-- `seq_keyword_flag`, against the flags of a function. -/
def seqKeywordFlag (allowed : Keyword → Bool) : Obj → Bool
  | .keyword name => allowed name
  | _ => false

def checkKeys (allowed : Keyword → Bool) : Nat → List (Obj × Obj) → Except ArgError Unit
  | _, [] => .ok ()
  | position, (kw, _) :: rest =>
      if kw = .keyword .allowOtherKeys then checkKeys allowed (position + 2) rest
      else if !kw.isSymbol then .error (.notSymbol position kw)
      else if !seqKeywordFlag allowed kw then .error (.unrecognized position kw)
      else checkKeys allowed (position + 2) rest

/-- `cl_check_seq_keywords`, on the arguments after so many positional ones. -/
def checkSeqKeywords (positional : Nat) (allowed : Keyword → Bool) (args : List Obj) :
    Except ArgError Unit :=
  if args.length % 2 = 1 then .error (.oddNumber args.length positional)
  else
    -- the leftmost `:allow-other-keys` counts
    match (values (.keyword .allowOtherKeys) (pairs args)).head? with
    | some value =>
        if value ≠ .nil then .ok () else checkKeys allowed positional (pairs args)
    | none => checkKeys allowed positional (pairs args)

structure Functions where
  unwrap : Obj → Option Obj
  isFunction : Obj → Bool
  symbolFunction : Obj → Option Obj
  eql : Obj

/-- `cl_coerce_funcdesig` -/
def coerceFuncdesig (functions : Functions) (context : String) (obj : Obj) :
    Except ArgError Obj :=
  let obj := (functions.unwrap obj).getD obj
  if functions.isFunction obj then .ok obj
  else if obj.isSymbol then
    match functions.symbolFunction obj with
    | some fn => .ok ((functions.unwrap fn).getD fn)
    | none => .error (.undefined obj)
  else .error (.notFunction context obj)

/-- `NIL` is no key. -/
def coerceKey (functions : Functions) (obj : Obj) : Except ArgError Obj :=
  if obj = .nil then .ok .nil else coerceFuncdesig functions ":KEY" obj

inductive Value where
  | unset
  | fn (obj : Obj)
  | int (n : Int)
  | flag (b : Bool)
deriving DecidableEq, Repr

/-- The variables of a scanner, named by their keywords. -/
abbrev Registers := Obj → Value

/-- A function designator is coerced and stored, or rejected. -/
def coerced : Except ArgError Obj → Effect ArgError Value
  | .ok fn => .store (.fn fn)
  | .error error => .reject error

/-- One pair of `parse_seq_args`. -/
def seqArg (functions : Functions) : Obj → Obj → Effect ArgError Value
  | .keyword .test, val => coerced (coerceFuncdesig functions ":TEST" val)
  | .keyword .testNot, val => coerced (coerceFuncdesig functions ":TEST-NOT" val)
  | .keyword .key, val => coerced (coerceKey functions val)
  | .keyword .start, .fixnum n => .store (.int n)
  | .keyword .ending, .fixnum n => .store (.int n)
  | .keyword .count, .fixnum n => .store (.int (if n < 0 then 0 else n))
  -- a positive bignum leaves the count, as `NIL` does
  | .keyword .count, .bignum n => if n < 0 then .store (.int 0) else .keep
  | .keyword .fromEnd, val => .store (.flag (decide (val ≠ .nil)))
  | _, _ => .keep

/-- The initial `SeqArgs`. -/
def seqArgDefaults (functions : Functions) : Registers
  | .keyword .test => .fn functions.eql
  | .keyword .testNot => .fn .nil
  | .keyword .key => .fn .nil
  | .keyword .start => .int 0
  | .keyword .ending => .int (-1)
  | .keyword .count => .int (-1)
  | .keyword .fromEnd => .flag false
  | _ => .unset

/-- `parse_seq_args` -/
def parseSeqArgs (functions : Functions) (args : List Obj) : Except ArgError Registers :=
  scanBack (seqArg functions) (seqArgDefaults functions) (pairs args)

/-- What `bi_reduce` takes from its keywords, with the flags of its scan. -/
structure ReduceArgs where
  initial : Option Obj
  keyFn : Obj
  start : Int
  fromEnd : Bool
  seenKey : Bool
  seenStart : Bool
  seenFromEnd : Bool
deriving DecidableEq, Repr

/-- One pair of the scan of `bi_reduce`. -/
def reduceArg (ra : ReduceArgs) (kw val : Obj) : ReduceArgs :=
  match kw with
  | .keyword .initialValue =>
      if ra.initial.isNone then { ra with initial := some val } else ra
  | .keyword .key =>
      if !ra.seenKey then { ra with keyFn := val, seenKey := true } else ra
  | .keyword .start =>
      if !ra.seenStart then
        match val with
        | .fixnum n => { ra with start := n, seenStart := true }
        | _ => { ra with seenStart := true }
      else ra
  | .keyword .fromEnd =>
      if !ra.seenFromEnd then
        { ra with fromEnd := ra.fromEnd || decide (val ≠ .nil), seenFromEnd := true }
      else ra
  | _ => ra

/-- An end that is no fixnum is the length. -/
def endOr (len : Int) : Obj → Int
  | .fixnum n => n
  | _ => len

/-- The second scan of `bi_reduce`, up to the first `:end`. -/
def reduceEnd (len : Int) : List (Obj × Obj) → Int
  | [] => len
  | (kw, val) :: rest => if kw = .keyword .ending then endOr len val else reduceEnd len rest

/-- The scans of `bi_reduce`. -/
def reduceArgs (len : Int) (args : List Obj) : ReduceArgs × Int :=
  ((pairs args).foldl (fun ra pair => reduceArg ra pair.1 pair.2)
    ⟨none, .nil, 0, false, false, false, false⟩, reduceEnd len (pairs args))

/-- A bound of `bi_fill` is a fixnum up to the length. -/
def fillBound (len : Int) (text : String) : Obj → Effect ArgError Value
  | .fixnum n => if n < 0 ∨ n > len then .reject (.badBound text) else .store (.int n)
  | _ => .reject (.badBound text)

/-- One pair of the scan of `bi_fill`. -/
def fillArg (len : Int) : Obj → Obj → Effect ArgError Value
  | .keyword .start, val => fillBound len "FILL: :start is not a valid bounding index" val
  | .keyword .ending, .nil => .store (.int len)
  | .keyword .ending, val => fillBound len "FILL: :end is not a valid bounding index" val
  | _, _ => .keep

def fillDefaults (len : Int) : Registers
  | .keyword .start => .int 0
  | .keyword .ending => .int len
  | _ => .unset

/-- The scan of `bi_fill`. -/
def fillArgs (len : Int) (args : List Obj) : Except ArgError Registers :=
  scanBack (fillArg len) (fillDefaults len) (pairs args)

/-- One pair of the scan of `bi_replace`. -/
def replaceArg : Obj → Obj → Effect ArgError Value
  | .keyword .start1, .fixnum n => .store (.int n)
  | .keyword .ending1, .fixnum n => .store (.int n)
  | .keyword .start2, .fixnum n => .store (.int n)
  | .keyword .ending2, .fixnum n => .store (.int n)
  | _, _ => .keep

def replaceDefaults (len1 len2 : Int) : Registers
  | .keyword .start1 => .int 0
  | .keyword .ending1 => .int len1
  | .keyword .start2 => .int 0
  | .keyword .ending2 => .int len2
  | _ => .unset

/-- The scan of `bi_replace`. -/
def replaceArgs (len1 len2 : Int) (args : List Obj) : Except ArgError Registers :=
  scanBack replaceArg (replaceDefaults len1 len2) (pairs args)

/-- One pair of the first scan of `bi_mismatch` and `bi_search`. -/
def matchArg (functions : Functions) : Obj → Obj → Effect ArgError Value
  | .keyword .test, val => coerced (coerceFuncdesig functions ":TEST" val)
  | .keyword .testNot, val => coerced (coerceFuncdesig functions ":TEST-NOT" val)
  | .keyword .key, val => coerced (coerceKey functions val)
  | .keyword .start1, .fixnum n => .store (.int n)
  | .keyword .start2, .fixnum n => .store (.int n)
  | .keyword .fromEnd, val => .store (.flag (decide (val ≠ .nil)))
  | _, _ => .keep

def matchEnd : Obj → Obj → Effect ArgError Value
  | .keyword .ending1, .fixnum n => .store (.int n)
  | .keyword .ending2, .fixnum n => .store (.int n)
  | _, _ => .keep

def matchDefaults (functions : Functions) : Registers
  | .keyword .test => .fn functions.eql
  | .keyword .testNot => .fn .nil
  | .keyword .key => .fn .nil
  | .keyword .start1 => .int 0
  | .keyword .start2 => .int 0
  | .keyword .fromEnd => .flag false
  | _ => .unset

/-- The scans of `bi_mismatch` and `bi_search`, with the ends set in between. -/
def matchArgs (functions : Functions) (len1 len2 : Int) (args : List Obj) :
    Except ArgError Registers := do
  let registers ← scanBack (matchArg functions) (matchDefaults functions) (pairs args)
  let registers := Function.update registers (.keyword .ending1) (.int len1)
  let registers := Function.update registers (.keyword .ending2) (.int len2)
  scanBack matchEnd registers (pairs args)

/-- One pair of the scan of `bi_sort` and `bi_merge`. -/
def sortArg (functions : Functions) : Obj → Obj → Effect ArgError Value
  | .keyword .key, val => coerced (coerceKey functions val)
  | _, _ => .keep

def sortDefaults : Registers
  | .keyword .key => .fn .nil
  | _ => .unset

/-- The scan of `bi_sort` and `bi_merge`, from the first pair on. -/
def sortArgs (functions : Functions) (args : List Obj) : Except ArgError Registers :=
  scanForward (sortArg functions) sortDefaults (pairs args)

end ClAmiga.Sequence
