import ClAmiga.Number.RatioSpec

/-!
# The rounding family

`do_rounding` on two rationals, `bi_rem` and `bi_mod`.  All of them divide
cross products with `cl_arith_truncate` and correct the truncated quotient, so
the one quotient that `cl_arith_truncate` wraps around decides when they are
exact.
-/

namespace ClAmiga.Number

open Radix Bignum

variable {platform : Platform}

inductive RoundMode where
  | floor
  | ceiling
  | truncate
  | round
  deriving DecidableEq, Repr

/-- The quotient and the remainder left in `cl_mv_values`. -/
structure Rounded where
  quotient : ClInt
  remainder : ClNum
  deriving DecidableEq, Repr

/-- The two corrections of a truncated quotient. -/
def stepUp (platform : Platform) (q : ClInt) (r b : ClNum) : Result Rounded := do
  let q ← clArithAdd platform q (clMakeFixnum 1)
  let r ← ClNum.clArithSub platform r b
  return ⟨q, r⟩

def stepDown (platform : Platform) (q : ClInt) (r b : ClNum) : Result Rounded := do
  let q ← clArithSub platform q (clMakeFixnum 1)
  let r ← ClNum.clArithAdd platform r b
  return ⟨q, r⟩

/-- The `ROUND_ROUND` branch. -/
def roundNearest (platform : Platform) (q : ClInt) (r a b : ClNum) :
    Result Rounded := do
  let abs2r ← ClNum.clArithAdd platform r r
  let abs2r ← ClNum.clArithAbs platform abs2r
  let absB ← ClNum.clArithAbs platform b
  let cmp ← ClNum.clArithCompare platform abs2r absB
  if cmp > 0 ∨ cmp = 0 ∧ clArithEvenp q = false then
    if a.clArithMinusp = b.clArithMinusp then stepUp platform q r b
    else stepDown platform q r b
  else return ⟨q, r⟩

def adjustQuotient (platform : Platform) (mode : RoundMode) (q : ClInt)
    (r a b : ClNum) : Result Rounded :=
  if mode ≠ .truncate ∧ r.clArithZerop = false then
    match mode with
    | .floor =>
        if r.clArithMinusp ≠ b.clArithMinusp then stepDown platform q r b
        else .ok ⟨q, r⟩
    | .ceiling =>
        if r.clArithMinusp = b.clArithMinusp then stepUp platform q r b
        else .ok ⟨q, r⟩
    | _ => roundNearest platform q r a b
  else .ok ⟨q, r⟩

/-- `do_rounding` with two rational arguments and an integer quotient. -/
def doRounding (platform : Platform) (mode : RoundMode) (a b : ClNum) :
    Result Rounded := do
  let intA ← clArithMul platform (clNumerator a) (clDenominator b)
  let intB ← clArithMul platform (clDenominator a) (clNumerator b)
  let q ← clArithTruncate platform intA intB
  let r ← ClNum.clArithMul platform (.int q) b
  let r ← ClNum.clArithSub platform a r
  adjustQuotient platform mode q r a b

/-- The quotient of the ratio case of `bi_rem`. -/
def truncateQuotient (platform : Platform) : ClNum → Result ClInt
  | .int n => .ok n
  | .ratio num den => clArithTruncate platform num den

/-- The quotient of the ratio case of `bi_mod`. -/
def floorQuotient (platform : Platform) : ClNum → Result ClInt
  | .int n => .ok n
  | .ratio num den => do
      let truncQ ← clArithTruncate platform num den
      let check ← clArithMul platform truncQ den
      if clArithCompare check num ≠ 0 ∧ clArithMinusp num = true then
        clArithSub platform truncQ (clMakeFixnum 1)
      else return truncQ

/-- The rest of both ratio cases: `a - q * b`. -/
def remainderOf (platform : Platform) (q : ClInt) (a b : ClNum) :
    Result ClNum := do
  let result ← ClNum.clArithMul platform (.int q) b
  ClNum.clArithSub platform a result

def biRem (platform : Platform) : ClNum → ClNum → Result ClNum
  | .int (.fixnum va), .int (.fixnum vb) =>
      if vb.toInt = 0 then .error divisionByZero
      else .ok (.int (clMakeFixnum (va.toInt.tmod vb.toInt)))
  | .int a, .int b => do
      let q ← clArithTruncate platform a b
      let prod ← clArithMul platform q b
      .int <$> clArithSub platform a prod
  | a, b => do
      let quot ← clRatioDiv platform a b
      let truncQ ← truncateQuotient platform quot
      remainderOf platform truncQ a b

def biMod (platform : Platform) : ClNum → ClNum → Result ClNum
  | .int a, .int b => .int <$> clArithMod platform a b
  | a, b => do
      let quot ← clRatioDiv platform a b
      let floorQ ← floorQuotient platform quot
      remainderOf platform floorQ a b

end ClAmiga.Number
