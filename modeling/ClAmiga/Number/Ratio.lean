import ClAmiga.Number.Division

/-!
# Ratios

A rational object is an integer or a ratio object, which holds two integer
objects.  The functions of `ratio.c` work on numerators and denominators and
leave every result to `cl_make_ratio_normalized`.  The functions of the
namespace `ClNum` are the generic `cl_arith_*` entry points on rationals: they
take the ratio path as soon as one operand is a ratio.
-/

namespace ClAmiga.Number

open Bignum

inductive ClNum where
  | int (n : ClInt)
  | ratio (num den : ClInt)
  deriving DecidableEq, Repr

def clNumerator : ClNum → ClInt
  | .int n => n
  | .ratio num _ => num

def clDenominator : ClNum → ClInt
  | .int _ => clMakeFixnum 1
  | .ratio _ den => den

def clMakeRatio (num den : ClInt) : ClNum :=
  .ratio num den

def ratioDivisionByZero : ClErr :=
  .divZero "division by zero"

/-- The step of `cl_make_ratio_normalized` that moves the sign to the
numerator. -/
def positiveDenominator (platform : Platform) (num den : ClInt) :
    Result (ClInt × ClInt) :=
  if clArithMinusp den then do
    let num ← clArithNegate platform num
    let den ← clArithNegate platform den
    return (num, den)
  else .ok (num, den)

/-- The step of `cl_make_ratio_normalized` that divides by the gcd. -/
def reduceByGcd (platform : Platform) (num den : ClInt) : Result ClNum := do
  let g ← clArithAbs platform num
  let g ← clArithGcd platform g den
  let num ← clArithTruncate platform num g
  let den ← clArithTruncate platform den g
  if den = clMakeFixnum 1 then return .int num
  else return clMakeRatio num den

def clMakeRatioNormalized (platform : Platform) (num den : ClInt) :
    Result ClNum :=
  if clArithZerop den then .error ratioDivisionByZero
  else if clArithZerop num then .ok (.int (clMakeFixnum 0))
  else do
    let (num, den) ← positiveDenominator platform num den
    reduceByGcd platform num den

def clRatioAdd (platform : Platform) (a b : ClNum) : Result ClNum := do
  let num ← clArithMul platform (clNumerator a) (clDenominator b)
  let den ← clArithMul platform (clNumerator b) (clDenominator a)
  let num ← clArithAdd platform num den
  let den ← clArithMul platform (clDenominator a) (clDenominator b)
  clMakeRatioNormalized platform num den

def clRatioSub (platform : Platform) (a b : ClNum) : Result ClNum := do
  let num ← clArithMul platform (clNumerator a) (clDenominator b)
  let den ← clArithMul platform (clNumerator b) (clDenominator a)
  let num ← clArithSub platform num den
  let den ← clArithMul platform (clDenominator a) (clDenominator b)
  clMakeRatioNormalized platform num den

def clRatioMul (platform : Platform) (a b : ClNum) : Result ClNum := do
  let num ← clArithMul platform (clNumerator a) (clNumerator b)
  let den ← clArithMul platform (clDenominator a) (clDenominator b)
  clMakeRatioNormalized platform num den

def clRatioDiv (platform : Platform) (a b : ClNum) : Result ClNum :=
  if clArithZerop (clNumerator b) then .error ratioDivisionByZero
  else do
    let num ← clArithMul platform (clNumerator a) (clDenominator b)
    let den ← clArithMul platform (clDenominator a) (clNumerator b)
    clMakeRatioNormalized platform num den

def clRatioNegate (platform : Platform) : ClNum → Result ClNum
  | .ratio num den => do
      let negNum ← clArithNegate platform num
      return clMakeRatio negNum den
  | .int n => .int <$> clArithNegate platform n

def clRatioAbs (platform : Platform) : ClNum → Result ClNum
  | .ratio num den => do
      let absNum ← clArithAbs platform num
      return clMakeRatio absNum den
  | .int n => .int <$> clArithAbs platform n

def clRatioCompare (platform : Platform) (a b : ClNum) : Result Int := do
  let lhs ← clArithMul platform (clNumerator a) (clDenominator b)
  let rhs ← clArithMul platform (clNumerator b) (clDenominator a)
  return clArithCompare lhs rhs

def clRatioZerop : ClNum → Bool
  | .ratio num _ => clArithZerop num
  | .int n => clArithZerop n

def clRatioMinusp : ClNum → Bool
  | .ratio num _ => clArithMinusp num
  | .int n => clArithMinusp n

/-- Equality of two ratio objects; no other object is equal to anything. -/
def clRatioEqual : ClNum → ClNum → Bool
  | .ratio aNum aDen, .ratio bNum bDen =>
      clArithCompare aNum bNum == 0 && clArithCompare aDen bDen == 0
  | _, _ => false

namespace ClNum

def clArithAdd (platform : Platform) : ClNum → ClNum → Result ClNum
  | .int a, .int b => .int <$> Number.clArithAdd platform a b
  | a, b => clRatioAdd platform a b

def clArithSub (platform : Platform) : ClNum → ClNum → Result ClNum
  | .int a, .int b => .int <$> Number.clArithSub platform a b
  | a, b => clRatioSub platform a b

def clArithMul (platform : Platform) : ClNum → ClNum → Result ClNum
  | .int a, .int b => .int <$> Number.clArithMul platform a b
  | a, b => clRatioMul platform a b

def clArithAbs (platform : Platform) : ClNum → Result ClNum
  | .int a => .int <$> Number.clArithAbs platform a
  | a => clRatioAbs platform a

def clArithCompare (platform : Platform) : ClNum → ClNum → Result Int
  | .int a, .int b => .ok (Number.clArithCompare a b)
  | a, b => clRatioCompare platform a b

def clArithZerop : ClNum → Bool
  | .int a => Number.clArithZerop a
  | a => clRatioZerop a

def clArithMinusp : ClNum → Bool
  | .int a => Number.clArithMinusp a
  | a => clRatioMinusp a

end ClNum

end ClAmiga.Number
