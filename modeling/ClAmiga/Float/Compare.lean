import ClAmiga.Float.Dragon
import ClAmiga.Number.Ratio
import ClAmiga.Number.Shift
import ClAmiga.Radix.Interchange

/-!
# Comparing floats with rationals

`cl_float_compare` and the conversion `double_to_exact_rational` under it.  A
`double` is its word; the operators of C on doubles act on what the words stand
for.
-/

namespace ClAmiga.Float

open Number Bignum Radix

def layout : Precision → Layout
  | .double => ⟨52, 11⟩
  | .single => ⟨23, 8⟩

/-- What the word `d` of a `double` stands for. -/
def doubleReading (d : Nat) : Reading :=
  (layout .double).read d

/-- `da < db` -/
def doubleLess (da db : Nat) : Bool :=
  (doubleReading da).less (doubleReading db)

/-- A real number object. -/
inductive ClReal where
  | rational (n : ClNum)
  | float (precision : Precision) (bits : Nat)
  deriving DecidableEq

/-- `cl_to_double` of a float object -/
def clToDouble : Precision → Nat → Nat
  | .single, bits => (layout .single).widen (layout .double) bits
  | .double, bits => bits

/-- `while (M != 0 && (M & 1) == 0) { M >>= 1; E++; }`; a word has 64 bits to
lose. -/
def stripTrailing : Nat → Nat → Int → Nat × Int
  | 0, M, E => (M, E)
  | fuel + 1, M, E =>
      if M ≠ 0 ∧ M &&& 1 = 0 then stripTrailing fuel (M >>> 1) (E + 1) else (M, E)

/-- The mantissa and the exponent of a finite `double`. -/
def mantissaExponent (d : Nat) : Nat × Int :=
  let expField := (d >>> 52) &&& 0x7FF
  let frac := d &&& ((1 <<< 52) - 1)
  if expField = 0 then (frac, -1074)
  else ((1 <<< 52) ||| frac, (expField : Int) - 1023 - 52)

/-- The integer object of a mantissa, from its two 32-bit halves. -/
def mantissaObject (platform : Platform) (M : Nat) : Result ClInt := do
  let lo := M % 2 ^ 32
  let hi := (M >>> 32) % 2 ^ 32
  if hi = 0 then
    let m ← bignumFromUint32 platform lo false
    return clBignumNormalize m
  else
    let h ← bignumFromUint32 platform hi false
    let hShifted ← clArithAsh platform h (clMakeFixnum 32)
    let lo ← bignumFromUint32 platform lo false
    clArithAdd platform hShifted lo

/-- `if (sign) m_obj = cl_arith_negate(m_obj);` -/
def applySign (platform : Platform) (d : Nat) (m : ClInt) : Result ClInt :=
  if d >>> 63 ≠ 0 then clArithNegate platform m else .ok m

def doubleToExactRational (platform : Platform) (d : Nat) : Result ClNum :=
  if doubleReading d = .finite 0 then .ok (.int (clMakeFixnum 0))
  else do
    let (M, E) := mantissaExponent d
    let (M, E) := stripTrailing 64 M E
    let m ← mantissaObject platform M
    let m ← applySign platform d m
    if E ≥ 0 then
      let n ← clArithAsh platform m (clMakeFixnum E)
      return .int n
    else
      let den ← clArithAsh platform (clMakeFixnum 1) (clMakeFixnum (-E))
      clMakeRatioNormalized platform m den

def clFloatToExactRational (platform : Platform) (precision : Precision) (bits : Nat) :
    Result ClNum :=
  let d := clToDouble precision bits
  match doubleReading d with
  | .nan => .error (.typeError "Cannot convert NaN to rational")
  | .infinite _ => .error (.typeError "Cannot convert infinity to rational")
  | .finite _ => doubleToExactRational platform d

/-- `bi_rational` -/
def ClReal.biRational (platform : Platform) : ClReal → Result ClNum
  | .rational n => .ok n
  | .float precision bits => clFloatToExactRational platform precision bits

def compareFloats (da db : Nat) : Int :=
  if doubleLess da db then -1 else if doubleLess db da then 1 else 0

/-- `swap ? -r : r` -/
def swapped (swap : Bool) (r : Int) : Int :=
  if swap then -r else r

/-- The float `d` against the rational `robj`; with `swap` the rational is the
first operand.  A NaN compares as 1 on both sides. -/
def compareMixed (platform : Platform) (d : Nat) (robj : ClNum) (swap : Bool) :
    Result Int :=
  match doubleReading d with
  | .nan => .ok 1
  | .infinite negative => .ok (swapped swap (if negative then -1 else 1))
  | .finite value =>
      let dsign : Int := if value < 0 then -1 else if value > 0 then 1 else 0
      let rsign : Int :=
        if robj.clArithZerop then 0 else if robj.clArithMinusp then -1 else 1
      if dsign ≠ rsign then .ok (swapped swap (if dsign < rsign then -1 else 1))
      else if dsign = 0 then .ok 0
      else do
        let exact ← doubleToExactRational platform d
        let r ← exact.clArithCompare platform robj
        return swapped swap r

namespace ClReal

/-- `cl_arith_compare` on real numbers; its float path is `cl_float_compare`. -/
def clArithCompare (platform : Platform) : ClReal → ClReal → Result Int
  | .float p x, .float q y => .ok (compareFloats (clToDouble p x) (clToDouble q y))
  | .float p x, .rational robj => compareMixed platform (clToDouble p x) robj false
  | .rational robj, .float p x => compareMixed platform (clToDouble p x) robj true
  | .rational a, .rational b => a.clArithCompare platform b

end ClReal

end ClAmiga.Float
