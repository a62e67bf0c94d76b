import ClAmiga.ReadPrint.Utf8

/-!
# UTF-8 in C buffers

`cl_utf8_decode`, `cl_utf8_to_cl_string` and `cl_wide_string_to_utf8` on the buffers they
read and write.  An access outside a buffer has no result.
-/

namespace ClAmiga.Strings

open ReadPrint (leadingByte overlong clUtf8Encode)

/-- `buf[i]`. -/
def readByte (buf : List UInt8) (i : Nat) : Option Nat :=
  (buf[i]?).map UInt8.toNat

/-- The loop of `cl_utf8_decode` over so many bytes from an index on; the inner `none` is an
invalid continuation byte. -/
def continuationsAt (buf : List UInt8) : Nat → Nat → Nat → Option (Option Nat)
  | 0, _, cp => some (some cp)
  | count + 1, i, cp =>
      match readByte buf i with
      | none => none
      | some byte =>
          if byte &&& 0xC0 ≠ 0x80 then some none
          else continuationsAt buf count (i + 1) (cp <<< 6 ||| (byte &&& 0x3F))

/-- `cl_utf8_decode(buf + pos, buflen, &codepoint)`: the code and the number of its bytes,
which is 0, with no code, for an empty buffer. -/
def clUtf8DecodeAt (buf : List UInt8) (pos buflen : Nat) : Option (Nat × Nat) :=
  if buflen = 0 then some (0, 0)
  else
    match readByte buf pos with
    | none => none
    | some b0 =>
        if b0 ≤ 0x7F then some (b0, 1)
        else
          match leadingByte b0 with
          | none => some (0xFFFD, 1)
          | some (cp, expected) =>
              if expected > buflen then some (0xFFFD, 1)
              else
                match continuationsAt buf (expected - 1) (pos + 1) cp with
                | none => none
                | some none => some (0xFFFD, 1)
                | some (some cp) =>
                    if overlong expected cp then some (0xFFFD, expected)
                    else if 0xD800 ≤ cp ∧ cp ≤ 0xDFFF ∨ cp > 0x10FFFF then
                      some (0xFFFD, expected)
                    else some (cp, expected)

/-- The first pass of `cl_utf8_to_cl_string`: the position where it ends and `cp_count`. -/
def countCodes (buf : List UInt8) (pos count : Nat) : Option (Nat × Nat) :=
  if pos < buf.length then
    match clUtf8DecodeAt buf pos (buf.length - pos) with
    | none => none
    | some (_, nb) =>
        if nb = 0 then some (pos, count) else countCodes buf (pos + nb) (count + 1)
  else
    some (pos, count)
termination_by buf.length - pos

/-- The second pass: the position where it ends and the elements of `ws->data` filled. -/
def fillCodes (buf : List UInt8) (cpCount pos : Nat) (data : List Nat) :
    Option (Nat × List Nat) :=
  if pos < buf.length ∧ data.length < cpCount then
    match clUtf8DecodeAt buf pos (buf.length - pos) with
    | none => none
    | some (cp, nb) =>
        if nb = 0 then some (pos, data) else fillCodes buf cpCount (pos + nb) (data ++ [cp])
  else
    some (pos, data)
termination_by buf.length - pos

/-- A string of bytes or a string of code points. -/
inductive Text where
  | base (data : List UInt8)
  | wide (data : List Nat)
deriving DecidableEq, Repr

def Text.codes : Text → List Nat
  | .base data => data.map UInt8.toNat
  | .wide data => data

/-- A string with the number of bytes read, or a storage error. -/
inductive Decoded where
  | string (text : Text) (consumed : Nat)
  | storageError
deriving DecidableEq, Repr

/-- `CL_HDR_SIZE_MASK`. -/
def hdrSizeMask : Nat := 0x7FFFFF

/-- `CL_MAX_STRING_CHARS`. -/
def maxStringChars : Nat := hdrSizeMask - 8 - 1

/-- `CL_MAX_WIDE_STRING_CHARS`. -/
def maxWideStringChars : Nat := (hdrSizeMask - 8) / 4

inductive Host where
  | bits32
  | bits64
deriving DecidableEq, Repr

/-- `CL_ALIGN`. -/
def Host.clAlign : Host → Nat
  | .bits32 => 4
  | .bits64 => 8

/-- The size guard of `cl_alloc`, behind `align_up`. -/
def allocates (host : Host) (size : Nat) : Bool :=
  (size + host.clAlign - 1) / host.clAlign * host.clAlign ≤ hdrSizeMask

/-- The guards of `cl_make_string` and `cl_alloc`. -/
def stringFits (host : Host) (len : Nat) : Bool :=
  len ≤ maxStringChars && allocates host (8 + len + 1)

/-- The guards of `cl_make_wide_string` and `cl_alloc`. -/
def wideStringFits (host : Host) (len : Nat) : Bool :=
  len ≤ maxWideStringChars && allocates host (8 + 4 * len)

def Text.fits (host : Host) : Text → Bool
  | .base data => stringFits host data.length
  | .wide data => wideStringFits host data.length

/-- `cl_utf8_to_cl_string`. -/
def clUtf8ToClString (host : Host) (buf : List UInt8) : Option Decoded :=
  if buf.any fun byte => byte.toNat > 0x7F then
    match countCodes buf 0 0 with
    | none => none
    | some (_, cpCount) =>
        if wideStringFits host cpCount then
          match fillCodes buf cpCount 0 [] with
          | none => none
          | some (pos, data) =>
              some (.string (.wide (data ++ List.replicate (cpCount - data.length) 0)) pos)
        else
          some .storageError
  else if stringFits host buf.length then
    some (.string (.base buf) buf.length)
  else
    some .storageError

/-- `buf[i] = byte`. -/
def writeByte (buf : List UInt8) (i : Nat) (byte : Nat) : Option (List UInt8) :=
  if i < buf.length then some (buf.set i (UInt8.ofNat byte)) else none

def writeBytes (buf : List UInt8) (pos : Nat) : List Nat → Option (List UInt8)
  | [] => some buf
  | byte :: bytes =>
      match writeByte buf pos byte with
      | none => none
      | some buf => writeBytes buf (pos + 1) bytes

/-- The bytes of a code, and `?` for a code that is not a scalar value. -/
def codeBytes (code : Nat) : List Nat :=
  if clUtf8Encode code = [] then ['?'.toNat] else clUtf8Encode code

/-- The loop of `cl_wide_string_to_utf8`; `pos + nb` is computed in 32 bits. -/
def encodeCodes (limit : Nat) : List Nat → List UInt8 → Nat → Option (List UInt8 × Nat)
  | [], buf, pos => some (buf, pos)
  | code :: codes, buf, pos =>
      if pos < limit then
        if (pos + (codeBytes code).length) % 2 ^ 32 > limit then some (buf, pos)
        else
          match writeBytes buf pos (codeBytes code) with
          | none => none
          | some buf => encodeCodes limit codes buf (pos + (codeBytes code).length)
      else
        some (buf, pos)

/-- The code points of a wide string, as many as `cl_make_wide_string` accepts. -/
structure WideString (host : Host) where
  data : List Nat
  fits : wideStringFits host data.length = true

/-- `cl_wide_string_to_utf8` into a buffer of `buf_size` bytes: the buffer afterwards and the
number of bytes written before the terminator. -/
def clWideStringToUtf8 {host : Host} (string : WideString host) (buf : List UInt8) :
    Option (List UInt8 × Nat) :=
  match encodeCodes (buf.length - 1) string.data buf 0 with
  | none => none
  | some (buf, pos) =>
      if buf.length > 0 then (writeByte buf pos 0).map fun buf => (buf, pos)
      else some (buf, pos)

end ClAmiga.Strings
