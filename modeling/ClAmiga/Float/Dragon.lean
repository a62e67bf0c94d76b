import ClAmiga.Float.Big

/-!
# Shortest digits

`dragon4_shortest` and its entry point `cl_dtoa_shortest`, with every big
integer as the source keeps it.  A digit is a number here; the source stores
the character `'0' + d`.  The result is absent when the function returns 0 or a
loop outlives `loopFuel`.
-/

namespace ClAmiga.Float

/-- The argument `is_double`. -/
inductive Precision where
  | single
  | double
  deriving DecidableEq, Repr

/-- `(char)('0' + d)` -/
def digitChar (d : Nat) : Char :=
  Char.ofNat ('0'.toNat + d)

/-- More rounds than any loop of the conversion takes. -/
def loopFuel : Nat := 4096

/-- The integers `R`, `S`, `MP` and `MM`: the value is `R/S`, half the gap to
the next larger float `MP/S` and half the gap to the next smaller one
`MM/S`. -/
structure Scaled where
  r : DtBig
  s : DtBig
  mp : DtBig
  mm : DtBig
  deriving DecidableEq, Repr

def scaledInit (f : Nat) (e : Int) (unequal : Bool) : Scaled :=
  if e ≥ 0 then
    let mm := dtShl (dtFromU64 1) e.toNat
    let r := dtShl (dtFromU64 f) (e + 1).toNat
    if unequal then ⟨dtShl r 1, dtFromU64 4, dtShl mm 1, mm⟩
    else ⟨r, dtFromU64 2, mm, mm⟩
  else
    let mm := dtFromU64 1
    let mp := dtFromU64 1
    let r := dtShl (dtFromU64 f) 1
    let s := dtShl (dtFromU64 1) (1 - e).toNat
    if unequal then ⟨dtShl r 1, dtShl s 1, dtShl mp 1, mm⟩
    else ⟨r, s, mp, mm⟩

/-- The estimate of the decimal exponent. -/
def estimateK (f : Nat) (e : Int) : Int :=
  (((bitlenU64 f : Int) + e - 1) * 30103).tdiv 100000 + 1

def scaleByK (x : Scaled) (k : Int) : Scaled :=
  if k ≥ 0 then { x with s := dtMulPow10 x.s k.toNat }
  else
    { x with
      r := dtMulPow10 x.r (-k).toNat
      mp := dtMulPow10 x.mp (-k).toNat
      mm := dtMulPow10 x.mm (-k).toNat }

/-- The first fix-up loop: shift right while the value and half a gap reach
one. -/
def fixHigh (even : Bool) (r mp : DtBig) : Nat → DtBig → Int →
    Option (DtBig × Int)
  | 0, _, _ => none
  | fuel + 1, s, k =>
      let c := dtCmp (dtAdd r mp) s
      if c > 0 ∨ (c = 0 ∧ even = true) then
        fixHigh even r mp fuel (dtMulU32 s 10) (k + 1)
      else some (s, k)

def mulTen (x : Scaled) : Scaled :=
  { x with r := dtMulU32 x.r 10, mp := dtMulU32 x.mp 10, mm := dtMulU32 x.mm 10 }

/-- The second fix-up loop: shift left while the first digit would be zero. -/
def fixLow (even : Bool) : Nat → Scaled → Int → Option (Scaled × Int)
  | 0, _, _ => none
  | fuel + 1, x, k =>
      let c := dtCmp (dtMulU32 (dtAdd x.r x.mp) 10) x.s
      if c < 0 ∨ (c = 0 ∧ even = false) then fixLow even fuel (mulTen x) (k - 1)
      else some (x, k)

/-- `while (dt_cmp(&R, &S) >= 0) { dt_sub(&R, &S); d++; }` -/
def takeDigit (s : DtBig) : Nat → DtBig → Nat → Option (DtBig × Nat)
  | 0, _, _ => none
  | fuel + 1, r, d =>
      if dtCmp r s ≥ 0 then takeDigit s fuel (dtSub r s) (d + 1)
      else some (r, d)

/-- The digit so far is within the gap below. -/
def isLow (even : Bool) (r mm : DtBig) : Bool :=
  let c := dtCmp r mm
  if even then decide (c ≤ 0) else decide (c < 0)

/-- The next digit is within the gap above. -/
def isHigh (even : Bool) (r mp s : DtBig) : Bool :=
  let c := dtCmp (dtAdd r mp) s
  if even then decide (c ≥ 0) else decide (c > 0)

/-- The last digit: down, up, or the closer one, on a tie the even one. -/
def lastDigit (r s : DtBig) (d : Nat) (low high : Bool) : Nat :=
  if low && high then
    let c := dtCmp (dtAdd r r) s
    if c > 0 ∨ (c = 0 ∧ d % 2 = 1) then d + 1 else d
  else if high then d + 1
  else d

/-- Digit generation with room for so many digits more.  At 18 digits the
source gives up. -/
def generate (even : Bool) : Nat → Scaled → List Nat → Option (List Nat)
  | 0, _, _ => none
  | room + 1, x, digits =>
      let x := mulTen x
      if x.r.n < 0 ∨ x.mp.n < 0 ∨ x.mm.n < 0 then none
      else
        match takeDigit x.s loopFuel x.r 0 with
        | none => none
        | some (r, d) =>
            let low := isLow even r x.mm
            let high := isHigh even r x.mp x.s
            if !low && !high then
              generate even room { x with r := r } (digits ++ [d])
            else some (digits ++ [lastDigit r x.s d low high])

/-- The carry out of a last digit of ten, into the digits before it listed from
the last one; absent when all of them were nines. -/
def carryInto : List Nat → Option (List Nat)
  | [] => none
  | d :: ds => if d + 1 ≤ 9 then some ((d + 1) :: ds) else (carryInto ds).map (0 :: ·)

def propagateCarry (digits : List Nat) (k : Int) : List Nat × Int :=
  match digits.reverse with
  | [] => (digits, k)
  | last :: before =>
      if last = 10 then
        match carryInto before with
        | some before => ((0 :: before).reverse, k)
        | none => ([1], k + 1)
      else (digits, k)

/-- Drop zeros at the end, listed first, keeping one digit. -/
def dropZeros : List Nat → List Nat
  | 0 :: d :: ds => dropZeros (d :: ds)
  | ds => ds

def dragon4Shortest (f : Nat) (e : Int) (unequal : Bool) :
    Option (List Nat × Int) := do
  let even := f % 2 == 0
  let k := estimateK f e
  let x := scaleByK (scaledInit f e unequal) k
  let (s, k) ← fixHigh even x.r x.mp loopFuel x.s k
  let (x, k) ← fixLow even loopFuel { x with s := s } k
  if x.r.n < 0 ∨ x.s.n < 0 ∨ x.mp.n < 0 ∨ x.mm.n < 0 then none
  else do
    let digits ← generate even 18 x []
    let (digits, k) := propagateCarry digits k
    return ((dropZeros digits.reverse).reverse, k)

/-- The integer mantissa, the binary exponent and whether the gap below is half
the gap above, from the bits of a float. -/
def decodeBits : Precision → Nat → Nat × Int × Bool
  | .double, bits =>
      let expf := (bits >>> 52) &&& 0x7FF
      let mant := bits &&& 0x000FFFFFFFFFFFFF
      if expf = 0 then (mant, -1074, false)
      else (mant ||| 0x0010000000000000, (expf : Int) - 1075,
        decide (mant = 0 ∧ expf > 1))
  | .single, bits =>
      let expf := (bits >>> 23) &&& 0xFF
      let mant := bits &&& 0x007FFFFF
      if expf = 0 then (mant, -149, false)
      else (mant ||| 0x00800000, (expf : Int) - 150, decide (mant = 0 ∧ expf > 1))

def clDtoaShortest (precision : Precision) (bits : Nat) :
    Option (List Nat × Int) :=
  let (f, e, unequal) := decodeBits precision bits
  if f = 0 then none else dragon4Shortest f e unequal

end ClAmiga.Float
