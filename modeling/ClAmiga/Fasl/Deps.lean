import ClAmiga.Fasl.Stream

/-!
# The dependency trailer

A FASL file ends with the structures whose layout its code depends on, each by the
name of its home package, its own name and a hash of its layout.  One walk over a
list of names sizes the trailer and writes it; before a file is loaded the hashes in
it are compared with those of the structures registered now.
-/

namespace ClAmiga.Fasl

open Wire

/-- What the trailer's functions look up: the home package and the names of a
symbol, as code points when they are strings, the layout hash of a registered
structure, and the package and the symbol that bytes name now. -/
structure Registry (Package Symbol : Type) where
  package : Symbol → Option Package
  packageName : Package → Option (List Nat)
  symbolName : Symbol → Option (List Nat)
  clStructLayoutHash : Symbol → Option UInt32
  clFindPackage : List UInt8 → Option Package
  clPackageFindSymbol : List UInt8 → Package → Option Symbol

structure Dependency where
  package : List UInt8
  name : List UInt8
  hash : UInt32
deriving DecidableEq, Repr

/-- `FASL_DEPS_MAGIC`. -/
def faslDepsMagic : Nat := 0x44455053

/-- `CL_FASL_FLAG_DEPS`. -/
def clFaslFlagDeps : Nat := 0x0001

section Writing

open FaslWriter

variable {Package Symbol : Type}

/-- The test `fasl_dep_writable` makes of both names: a string of 1 to 65535
characters of 8 bits. -/
def writableName (str : Option (List Nat)) : Option (List UInt8) :=
  match str with
  | none => none
  | some chars =>
      if chars.length = 0 ∨ 0xFFFF < chars.length then
        none
      else if chars.any (0xFF < ·) then
        none
      else
        some (chars.map UInt8.ofNat)

/-- `fasl_dep_writable`, for a name that is no symbol or NIL as `none`. -/
def faslDepWritable (registry : Registry Package Symbol) (name : Option Symbol) :
    Option Dependency := do
  let s ← name
  let home ← registry.package s
  let pkgName ← writableName (registry.packageName home)
  let symName ← writableName (registry.symbolName s)
  let hash ← registry.clStructLayoutHash s
  some ⟨pkgName, symName, hash⟩

/-- `W`, `bytes` and `count` of `fasl_deps_walk`. -/
structure DepsWalk where
  writer : Option FaslWriter
  bytes : Nat
  count : Nat

/-- `if (w)` around some writes. -/
def DepsWalk.store (walk : DepsWalk) (parts : List (List UInt8)) : Option DepsWalk :=
  match walk.writer with
  | none => some walk
  | some w =>
      match w.writes parts with
      | none => none
      | some w => some { walk with writer := some w }

/-- The size of one name, and its writes: the length with `cl_fasl_write_u16`, then
every character with `cl_fasl_write_u8`. -/
def DepsWalk.name (walk : DepsWalk) (str : List UInt8) : Option DepsWalk :=
  { walk with bytes := (walk.bytes + (2 + str.length)) % 2 ^ 32 }.store
    (wr16 str.length :: str.map fun char => [char])

def DepsWalk.hash (walk : DepsWalk) (hash : UInt32) : Option DepsWalk :=
  { walk with bytes := (walk.bytes + 4) % 2 ^ 32 }.store [wr32 hash.toNat]

/-- An entry: it is counted, then its two names and its hash. -/
def DepsWalk.entry (walk : DepsWalk) (dep : Dependency) : Option DepsWalk := do
  let walk ← { walk with count := walk.count + 1 }.name dep.package
  let walk ← walk.name dep.name
  walk.hash dep.hash

/-- The loop of `fasl_deps_walk`. -/
def faslDepsLoop (registry : Registry Package Symbol) :
    List (Option Symbol) → DepsWalk → Option DepsWalk
  | [], walk => some walk
  | name :: deps, walk =>
      if walk.count = 0xFFFF then
        some walk
      else
        match faslDepWritable registry name with
        | none => faslDepsLoop registry deps walk
        | some dep =>
            match walk.entry dep with
            | none => none
            | some walk => faslDepsLoop registry deps walk

/-- `fasl_deps_walk`: the walk's last state, and the size it returns. -/
def faslDepsWalk (registry : Registry Package Symbol) (writer : Option FaslWriter)
    (deps : List (Option Symbol)) : Option (DepsWalk × Nat) :=
  match faslDepsLoop registry deps ⟨writer, 6, 0⟩ with
  | none => none
  | some walk => some (walk, if walk.count ≠ 0 then walk.bytes else 0)

/-- `cl_fasl_deps_size`. -/
def clFaslDepsSize (registry : Registry Package Symbol) (deps : List (Option Symbol)) :
    Option Nat :=
  (faslDepsWalk registry none deps).map Prod.snd

/-- The flag of the header, set once the trailer exists. -/
def flagDeps (w : FaslWriter) : FaslWriter :=
  if w.error = none ∧ 12 ≤ w.pos then
    { w with
      data := w.data.modify 7 (· ||| UInt8.ofNat clFaslFlagDeps)
      bounded := by rw [List.length_modify]; exact w.bounded
      inside := by rw [List.length_modify]; exact w.inside }
  else
    w

/-- `cl_fasl_write_deps`. -/
def clFaslWriteDeps (registry : Registry Package Symbol) (w : FaslWriter)
    (deps : List (Option Symbol)) : Option FaslWriter := do
  let (walk, size) ← faslDepsWalk registry none deps
  if size = 0 then
    some w
  else
    let w ← w.clFaslWriteU32 faslDepsMagic
    let w ← w.clFaslWriteU16 walk.count
    let (walk, _) ← faslDepsWalk registry (some w) deps
    walk.writer.map flagDeps

end Writing

section Checking

open FaslReader

/-- How the check ends: with a read outside the buffer, with 1, or with 0 and the
text in `DETAIL`. -/
inductive Exit where
  | outside
  | accepted
  | rejected (detail : List UInt8)
deriving DecidableEq, Repr

variable {Package Symbol : Type}

def Registry.layoutHash (registry : Registry Package Symbol) (pkgName symName : List UInt8) :
    Option UInt32 := do
  let pkg ← registry.clFindPackage pkgName
  let sym ← registry.clPackageFindSymbol symName pkg
  registry.clStructLayoutHash sym

def skipUnits : Nat → FaslReader → Except Exit FaslReader
  | 0, r => .ok r
  | n + 1, r =>
      match r.clFaslReadU32 with
      | none => .error .outside
      | some (len, r) =>
          if r.error ≠ none then
            .error .accepted
          else if fits : len ≤ r.data.length - r.pos then
            skipUnits n (r.skip len fits)
          else
            .error .accepted

def readName (r : FaslReader) : Except Exit (List UInt8 × FaslReader) :=
  match r.clFaslReadU16 with
  | none => .error .outside
  | some (len, r) =>
      if r.error ≠ none then
        .error .accepted
      else if fits : len ≤ r.data.length - r.pos then
        .ok (slice r.data r.pos len, r.skip len fits)
      else
        .error .accepted

def readDependency (r : FaslReader) : Except Exit (Dependency × FaslReader) := do
  let (pkgName, r) ← readName r
  let (symName, r) ← readName r
  match r.clFaslReadU32 with
  | none => .error .outside
  | some (want, r) =>
      if r.error ≠ none then
        .error .accepted
      else
        .ok (⟨pkgName, symName, UInt32.ofNat want⟩, r)

/-- The `"%.*s::%.*s"` of the first mismatch, cut to the room in `DETAIL`. -/
def detailText (detailSize : Nat) (dep : Dependency) : List UInt8 :=
  ((dep.package.take 60).takeWhile (· != 0) ++ [0x3A, 0x3A] ++
    (dep.name.take 80).takeWhile (· != 0)).take (detailSize - 1)

def checkEntries (registry : Registry Package Symbol) (detailSize : Nat) :
    Nat → FaslReader → Exit
  | 0, _ => .accepted
  | n + 1, r =>
      match readDependency r with
      | .error exit => exit
      | .ok (dep, r) =>
          match registry.layoutHash dep.package dep.name with
          | none => checkEntries registry detailSize n r
          | some current =>
              if current ≠ dep.hash then
                .rejected (detailText detailSize dep)
              else
                checkEntries registry detailSize n r

/-- A byte buffer with a `uint32_t` size. -/
structure Buffer where
  data : List UInt8
  bounded : data.length < 2 ^ 32

/-- The part of `cl_fasl_check_deps` after the units: the magic, the count and the
entries. -/
def checkTrailer (registry : Registry Package Symbol) (detailSize : Nat) (r : FaslReader) :
    Exit :=
  match r.clFaslReadU32 with
  | none => .outside
  | some (magic, r) =>
      if magic ≠ faslDepsMagic ∨ r.error ≠ none then
        .accepted
      else
        match r.clFaslReadU16 with
        | none => .outside
        | some (count, r) => checkEntries registry detailSize count r

/-- The part of `cl_fasl_check_deps` after the flag. -/
def checkFile (registry : Registry Package Symbol) (detailSize : Nat) (r : FaslReader) : Exit :=
  match r.clFaslReadU32 with
  | none => .outside
  | some (nUnits, r) =>
      match skipUnits nUnits r with
      | .error exit => exit
      | .ok r => checkTrailer registry detailSize r

/-- `cl_fasl_check_deps`. -/
def clFaslCheckDeps (registry : Registry Package Symbol) (detailSize : Nat) (buffer : Buffer) :
    Exit :=
  if short : buffer.data.length < 12 then
    .accepted
  else if rd16 buffer.data 6 &&& clFaslFlagDeps = 0 then
    .accepted
  else
    checkFile registry detailSize
      { data := buffer.data
        pos := 8
        error := none
        bounded := buffer.bounded
        inside := by omega }

end Checking

end ClAmiga.Fasl
