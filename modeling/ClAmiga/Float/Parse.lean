import ClAmiga.Float.Dragon

/-!
# Correctly rounded parsing

`cl_parse_float_exact` and the functions under it.  A string is the list of its
characters before the terminating NUL.  The result is absent when the source
returns 0.
-/

namespace ClAmiga.Float

structure DtTarget where
  mantBits : Nat
  eminSub : Int
  emax : Int
  bias : Nat
  lOver : Int
  lUnder : Int
  mantShift : Nat
  deriving DecidableEq, Repr

/-- `dt_double_target` and `dt_single_target` -/
def dtTarget : Precision → DtTarget
  | .double => ⟨53, -1074, 1023, 1023, 310, -327, 52⟩
  | .single => ⟨24, -149, 127, 127, 40, -48, 23⟩

def DtTarget.infinity (t : DtTarget) : Nat :=
  (2 * t.bias + 1) <<< t.mantShift

/-- The mantissa with `drop` bits dropped, or with zeros appended. -/
def roundMantissa (M : Nat) (drop : Int) (sticky : Bool) : Nat :=
  if drop ≤ 0 then (M <<< (-drop).toNat) % 2 ^ 64
  else
    let drop := drop.toNat
    let restMask := if drop > 1 then (1 <<< (drop - 1)) - 1 else 0
    let guard := (M >>> (drop - 1)) &&& 1
    let rest := decide (M &&& restMask ≠ 0) || sticky
    let mant := M >>> drop
    if guard = 1 ∧ (rest = true ∨ mant &&& 1 = 1) then mant + 1 else mant

/-- `while (bitlen_u64(mant) > t->mant_bits)`; a word has 64 bits to lose. -/
def renormalize (mantBits : Nat) : Nat → Nat → Int → Nat × Int
  | 0, mant, ulpExp => (mant, ulpExp)
  | fuel + 1, mant, ulpExp =>
      if bitlenU64 mant > mantBits then
        renormalize mantBits fuel (mant >>> 1) (ulpExp + 1)
      else (mant, ulpExp)

/-- The bits of a mantissa and the exponent of its last place. -/
def assemble (t : DtTarget) (mant : Nat) (ulpExp : Int) : Nat :=
  let E := ulpExp + t.mantBits - 1
  if bitlenU64 mant = t.mantBits then
    if E > t.emax then t.infinity
    else ((E + t.bias).toNat <<< t.mantShift) ||| (mant &&& ((1 <<< t.mantShift) - 1))
  else mant

def dtRoundAssemble (M : Nat) (exp2 : Int) (sticky : Bool) (t : DtTarget) : Nat :=
  let mlen : Int := bitlenU64 M
  let E := mlen - 1 + exp2
  let keep : Int :=
    if E < t.eminSub + t.mantBits - 1 then E - t.eminSub + 1 else t.mantBits
  if keep < 0 then 0
  else
    let drop := mlen - keep
    let mant := roundMantissa M drop sticky
    if mant = 0 then 0
    else
      let (mant, ulpExp) := renormalize t.mantBits 64 mant (exp2 + drop)
      assemble t mant ulpExp

def dtMaxSigDigits : Nat := 768

def isDigit (c : Char) : Bool :=
  decide ('0' ≤ c ∧ c ≤ '9')

def digitOf (c : Char) : Nat :=
  c.toNat - '0'.toNat

/-- The variables `D`, `K`, `ndig`, `sticky`, `started` and `any_digit`. -/
structure Scan where
  d : DtBig
  k : Int
  ndig : Nat
  sticky : Bool
  started : Bool
  anyDigit : Bool
  deriving DecidableEq, Repr

def Scan.start : Scan :=
  ⟨dtZero, 0, 0, false, false, false⟩

def Scan.pushDigit (st : Scan) (c : Char) : Scan :=
  { st with d := dtAddU32 (dtMulU32 st.d 10) (digitOf c), ndig := st.ndig + 1 }

def intDigit (st : Scan) (c : Char) : Scan :=
  let st := { st with anyDigit := true }
  if !st.started && c = '0' then st
  else
    let st := { st with started := true }
    if st.ndig < dtMaxSigDigits then st.pushDigit c
    else { st with sticky := st.sticky || decide (c ≠ '0'), k := st.k + 1 }

def fracDigit (st : Scan) (c : Char) : Scan :=
  let st := { st with anyDigit := true }
  if !st.started && c = '0' then { st with k := st.k - 1 }
  else
    let st := { st with started := true }
    if st.ndig < dtMaxSigDigits then { st.pushDigit c with k := st.k - 1 }
    else { st with sticky := st.sticky || decide (c ≠ '0') }

def digitLoop (body : Scan → Char → Scan) : Scan → List Char → Scan × List Char
  | st, [] => (st, [])
  | st, c :: p => if isDigit c then digitLoop body (body st c) p else (st, c :: p)

def takeSign : List Char → Bool × List Char
  | [] => (false, [])
  | c :: p => if c = '+' ∨ c = '-' then (decide (c = '-'), p) else (false, c :: p)

/-- The exponent saturates once it has reached 100000. -/
def exponentLoop : Nat → Bool → List Char → Nat × Bool × List Char
  | expval, expdigs, [] => (expval, expdigs, [])
  | expval, expdigs, c :: p =>
      if isDigit c then
        exponentLoop (if expval < 100000 then expval * 10 + digitOf c else expval)
          true p
      else (expval, expdigs, c :: p)

def parseExponent : List Char → Option (Int × List Char)
  | [] => some (0, [])
  | c :: p =>
      if c = 'E' ∨ c = 'e' then
        let (expneg, p) := takeSign p
        let (expval, expdigs, p) := exponentLoop 0 false p
        if !expdigs then none
        else some (if expneg then -(expval : Int) else expval, p)
      else some (0, c :: p)

/-- For `K >= 0`: the top 57 bits of `D * 5 ^ K`. -/
def multiplyDigits (d : DtBig) (k : Int) (sticky : Bool) :
    Option (Nat × Int × Bool) :=
  let n := dtMulPow5 d k.toNat
  if n.n < 0 then none
  else
    let nb := dtBitlen n
    if nb ≤ 57 then some (dtTopBits n nb, k, sticky)
    else some (dtTopBits n 57, k + (nb - 57 : Nat), sticky || dtLowBitsNonzero n (nb - 57))

/-- `dt_shl(&rem, 1); if (dt_bit(&N, i)) dt_add_u32(&rem, 1);` -/
def feedBit (n rem : DtBig) (i : Int) : DtBig :=
  let rem := dtShl rem 1
  if dtBit n i then dtAddU32 rem 1 else rem

/-- So many bits of `N` from bit `i` down. -/
def feedTop (n : DtBig) : Nat → Int → DtBig → DtBig
  | 0, _, rem => rem
  | count + 1, i, rem => feedTop n count (i - 1) (feedBit n rem i)

/-- The long division with room for so many more quotient bits. -/
def quotientLoop (n v : DtBig) : Nat → Int → Nat → DtBig → Nat × Int × DtBig
  | 0, qpos, q, rem => (q, qpos, rem)
  | room + 1, qpos, q, rem =>
      if qpos ≥ 0 then
        let rem := feedBit n rem qpos
        let q := (q <<< 1) % 2 ^ 64
        if dtCmp rem v ≥ 0 then
          quotientLoop n v room (qpos - 1) (q ||| 1) (dtSub rem v)
        else quotientLoop n v room (qpos - 1) q rem
      else (q, qpos, rem)

/-- For `K < 0`: the top quotient bits of `D * 2 ^ s2 / 5 ^ -K`. -/
def divideDigits (t : DtTarget) (d : DtBig) (k : Int) (sticky : Bool) :
    Option (Nat × Int × Bool) :=
  let v := dtMulPow5 (dtFromU64 1) (-k).toNat
  if v.n < 0 then none
  else
    let vb := dtBitlen v
    let s2 : Nat := ((vb : Int) - dtBitlen d + t.mantBits + 4).toNat
    let n := dtShl d s2
    if n.n < 0 then none
    else
      let nb := dtBitlen n
      let rem := feedTop n vb ((nb : Int) - 1) dtZero
      let (rem, q) := if dtCmp rem v ≥ 0 then (dtSub rem v, 1) else (rem, 0)
      let (q, qpos, rem) := quotientLoop n v 56 ((nb : Int) - vb - 1) q rem
      if rem.n < 0 then none
      else
        let sticky := sticky || !dtIsZero rem
        let sticky :=
          sticky || (decide (qpos ≥ 0) && dtLowBitsNonzero n (qpos + 1).toNat)
        if q = 0 then none else some (q, k - s2 + (qpos + 1), sticky)

/-- `sign << 63` or `sign << 31` -/
def signBits : Precision → Bool → Nat
  | .double, sign => sign.toNat <<< 63
  | .single, sign => sign.toNat <<< 31

/-- The bits of `D * 10 ^ K` without a sign, `L` being the decimal exponent of
the leading digit. -/
def magnitudeBits (t : DtTarget) (d : DtBig) (k L : Int) (sticky : Bool) :
    Option Nat :=
  if L ≥ t.lOver then some t.infinity
  else if L ≤ t.lUnder then some 0
  else do
    let (M, exp2, sticky) ←
      if k ≥ 0 then multiplyDigits d k sticky else divideDigits t d k sticky
    return dtRoundAssemble M exp2 sticky t

/-- The point and the digits after it. -/
def scanFraction (st : Scan) : List Char → Scan × List Char
  | '.' :: p => digitLoop fracDigit st p
  | p => (st, p)

/-- The digits of a token with the point and the exponent, up to the end of the
string. -/
def scanToken (p : List Char) : Option (Scan × Int) :=
  let (st, p) := digitLoop intDigit Scan.start p
  let (st, p) := scanFraction st p
  if !st.anyDigit then none
  else
    match parseExponent p with
    | some (expval, []) => some (st, expval)
    | _ => none

def clParseFloatExact (precision : Precision) (s : List Char) : Option Nat := do
  let (sign, p) := takeSign s
  let (st, expval) ← scanToken p
  if dtIsZero st.d then return signBits precision sign
  else if st.d.n < 0 then none
  else
    let k := st.k + expval
    let L := k + st.ndig - 1
    let mag ← magnitudeBits (dtTarget precision) st.d k L st.sticky
    return signBits precision sign ||| mag

end ClAmiga.Float
