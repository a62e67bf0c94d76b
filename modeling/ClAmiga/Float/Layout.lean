import ClAmiga.Float.Dragon

/-!
# Layout of the digits

`cl_float_shortest_g` and `cl_float_fixed_shortest`, from the bits of a float to
text.  A result is absent where the source calls `float_shortest_libc` (for
infinities, for NaNs and when `cl_dtoa_shortest` gives up) and where it would
write past its array `tmp`.
-/

namespace ClAmiga.Float

/-- `bits >> 63` or `bits >> 31` -/
def isNegative : Precision → Nat → Bool
  | .double, bits => decide (bits >>> 63 ≠ 0)
  | .single, bits => decide (bits >>> 31 ≠ 0)

def isInfOrNan : Precision → Nat → Bool
  | .double, bits => decide ((bits >>> 52) &&& 0x7FF = 0x7FF)
  | .single, bits => decide ((bits >>> 23) &&& 0xFF = 0xFF)

def isZero : Precision → Nat → Bool
  | .double, bits => decide (bits &&& 0x7FFFFFFFFFFFFFFF = 0)
  | .single, bits => decide (bits &&& 0x7FFFFFFF = 0)

def signText (negative : Bool) : List Char :=
  if negative then ['-'] else []

/-- The `ed` digits of an exponent, filled in from the last one. -/
def exponentDigits : Nat → Nat → List Char
  | 0, _ => []
  | ed + 1, e => exponentDigits ed (e / 10) ++ [digitChar (e % 10)]

/-- `d[.ddd]e[+-]XX` -/
def scientific (digits : List Nat) (X : Int) : List Char :=
  let e := X.natAbs
  let ed := if e ≥ 100 then 3 else 2
  [digitChar (digits.getD 0 0)] ++
    (if digits.length > 1 then '.' :: digits.tail.map digitChar else []) ++
    ['e', if X < 0 then '-' else '+'] ++ exponentDigits ed e

/-- The digits, filled with zeros up to `total`, with a point before the one
numbered `point`. -/
def pointLoop (digits : List Nat) (total point : Nat) : List Char :=
  (List.range total).flatMap fun i =>
    (if i = point then ['.'] else []) ++ [digitChar (digits.getD i 0)]

/-- `0.00ddd` with so many zeros after the point. -/
def leadingZeros (zeros : Nat) (digits : List Nat) : List Char :=
  ['0', '.'] ++ List.replicate zeros '0' ++ digits.map digitChar

/-- The `%g` layout. -/
def layoutG (floorp : Nat) (digits : List Nat) (k : Int) : List Char :=
  let n := digits.length
  let X := k - 1
  let P := if n > floorp then n else floorp
  if X < -4 ∨ X ≥ P then scientific digits X
  else if X ≥ 0 then pointLoop digits (max n (X + 1).toNat) (X + 1).toNat
  else leadingZeros (-X - 1).toNat digits

def layoutFixed (digits : List Nat) (k : Int) : List Char :=
  let n := digits.length
  if k ≤ 0 then leadingZeros (-k).toNat digits
  else if k ≥ n then
    digits.map digitChar ++ List.replicate (k.toNat - n) '0' ++ ['.', '0']
  else pointLoop digits n k.toNat

/-- Copy the text from an array of `size` characters, its NUL included, to a
buffer of `bufsz`. -/
def copyOut (size bufsz : Nat) (tmp : List Char) : Option (List Char) :=
  if tmp.length < size then some (tmp.take (bufsz - 1)) else none

def clFloatShortestG (bufsz : Nat) (precision : Precision) (bits : Nat) :
    Option (List Char) := do
  let floorp := if precision = .double then 15 else 6
  let negative := signText (isNegative precision bits)
  if isInfOrNan precision bits then none
  else if isZero precision bits then copyOut 40 bufsz (negative ++ ['0'])
  else do
    let (digits, k) ← clDtoaShortest precision bits
    copyOut 40 bufsz (negative ++ layoutG floorp digits k)

def clFloatFixedShortest (bufsz : Nat) (precision : Precision) (bits : Nat) :
    Option (List Char) := do
  let negative := signText (isNegative precision bits)
  if isInfOrNan precision bits then none
  else if isZero precision bits then copyOut 352 bufsz (negative ++ ['0', '.', '0'])
  else do
    let (digits, k) ← clDtoaShortest precision bits
    copyOut 352 bufsz (negative ++ layoutFixed digits k)

end ClAmiga.Float
