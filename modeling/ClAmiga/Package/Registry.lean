import ClAmiga.Chain.Buckets
import Mathlib.Logic.Function.Basic

/-!
# Packages and their symbols

The symbols and packages of the heap, with the operations that change what is
present in a package and what is external there.  Symbols and packages are named
by their heap references, and an operation that signals an error leaves the heap
as it was.
-/

namespace ClAmiga.Packages

open Chain

abbrev Name :=
  List UInt8

/-- `cl_hash_string` -/
def clHashString (name : Name) : UInt32 :=
  name.foldl (fun hash c => ((hash <<< 5) ||| (hash >>> 27)) ^^^ c.toUInt32) 0

def symtabSize : Nat := 256

structure Symbol where
  name : Name
  /-- the home package -/
  package : Option Nat
  hash : UInt32
  /-- `CL_SYM_EXPORTED` -/
  exported : Bool
  /-- `CL_SYM_EXPORTED_HOME` -/
  exportedHome : Bool
  deriving DecidableEq, Repr

structure Package where
  symbols : List (List Nat)
  symCount : Nat
  useList : List Nat
  exportedSymbols : List Nat
  deriving DecidableEq, Repr

structure Heap where
  symbol : Nat → Symbol
  package : Nat → Package
  /-- the references below have been given to symbols -/
  allocated : Nat
  /-- `cl_package_keyword` -/
  keyword : Nat

namespace Heap

variable (h : Heap)

@[simps]
def setSymbol (s : Nat) (value : Symbol) : Heap :=
  { h with symbol := Function.update h.symbol s value }

@[simps]
def setPackage (p : Nat) (value : Package) : Heap :=
  { h with package := Function.update h.package p value }

/-- `cl_make_symbol`, with the hash its caller stores. -/
@[simps]
def makeSymbol (name : Name) (hash : UInt32) : Heap :=
  { h with
    symbol := Function.update h.symbol h.allocated ⟨name, none, hash, false, false⟩
    allocated := h.allocated + 1 }

def bucket (hash : UInt32) : Nat :=
  hash.toNat % symtabSize

/-- `find_own_symbol` -/
def findOwnSymbol (name : Name) (p : Nat) : Option Nat :=
  (chain (h.package p).symbols (bucket (clHashString name))).find? fun s =>
    decide ((h.symbol s).name = name)

/-- `exported_p_nolock` -/
def exportedP (s p : Nat) : Bool :=
  if (h.symbol s).package = some p then (h.symbol s).exportedHome
  else if (h.symbol s).exported = false then false
  else decide (s ∈ (h.package p).exportedSymbols)

/-- `find_external_nolock` -/
def findExternal (name : Name) (p : Nat) : Option Nat :=
  (h.findOwnSymbol name p).filter fun s => h.exportedP s p

/-- `cl_package_find_symbol_nolock` -/
def findSymbol (name : Name) (p : Nat) : Option Nat :=
  (h.findOwnSymbol name p).or ((h.package p).useList.findSome? (h.findExternal name))

/-- `package_link_symbol_cell` -/
def linkSymbolCell (p s : Nat) : Heap :=
  let pkg := h.package p
  h.setPackage p
    { pkg with
      symbols := pkg.symbols.modify (bucket (h.symbol s).hash) (s :: ·)
      symCount := pkg.symCount + 1 }

/-- `cl_package_add_symbol_cell` -/
def addSymbolCell (p s : Nat) : Heap :=
  let h := h.linkSymbolCell p s
  h.setSymbol s { h.symbol s with package := some p, exportedHome := false }

/-- `import_symbol_nolock`; absent on a conflict. -/
def importSymbolNolock (s p : Nat) : Option Heap :=
  match h.findOwnSymbol (h.symbol s).name p with
  | some existing => if existing = s then some h else none
  | none => some (h.linkSymbolCell p s)

/-- `cl_package_push_export_cell_nolock` -/
def pushExportCell (p s : Nat) : Heap :=
  let pkg := h.package p
  let h := h.setPackage p { pkg with exportedSymbols := s :: pkg.exportedSymbols }
  let sym := h.symbol s
  h.setSymbol s
    { sym with
      exported := true
      exportedHome := if sym.package = some p then true else sym.exportedHome }

/-- The tail of `cl_export_symbol`: the list, when the symbol is not on it, and
the flags. -/
def markExported (p s : Nat) : Heap :=
  let pkg := h.package p
  let h := if h.exportedP s p then h
    else h.setPackage p { pkg with exportedSymbols := s :: pkg.exportedSymbols }
  let sym := h.symbol s
  h.setSymbol s
    { sym with
      exported := true
      exportedHome := if sym.package = some p then true else sym.exportedHome }

/-- `cl_export_symbol` -/
def exportSymbol (s p : Nat) : Except String Heap :=
  let imported :=
    if h.findOwnSymbol (h.symbol s).name p = none then h.importSymbolNolock s p else some h
  match imported with
  | none => .error "EXPORT conflict: symbol already present in package"
  | some h => .ok (h.markExported p s)

/-- `cl_unexport_symbol` -/
def unexportSymbol (s p : Nat) : Heap :=
  let pkg := h.package p
  let h := h.setPackage p { pkg with exportedSymbols := pkg.exportedSymbols.erase s }
  let sym := h.symbol s
  if sym.package = some p then
    h.setSymbol s { sym with exported := false, exportedHome := false }
  else h

/-- `cl_import_symbol` -/
def importSymbol (s p : Nat) : Except String Heap :=
  match h.importSymbolNolock s p with
  | none => .error "IMPORT conflict: symbol already present in package"
  | some h => .ok h

def addFresh (name : Name) (p : Nat) : Heap :=
  (h.makeSymbol name (clHashString name)).addSymbolCell p h.allocated

/-- `cl_shadow_symbol` -/
def shadowSymbol (name : Name) (p : Nat) : Heap :=
  match h.findOwnSymbol name p with
  | some _ => h
  | none => h.addFresh name p

/-- `cl_intern_in` -/
def internIn (name : Name) (p : Nat) : Except String Heap :=
  match h.findSymbol name p with
  | some _ => .ok h
  | none =>
      if p = h.keyword then (h.addFresh name p).exportSymbol h.allocated p
      else .ok (h.addFresh name p)

/-- `bi_unintern` -/
def unintern (s p : Nat) : Heap :=
  let pkg := h.package p
  let sym := h.symbol s
  if s ∈ chain pkg.symbols (bucket sym.hash) then
    let h := h.setPackage p
      { pkg with
        symbols := pkg.symbols.modify (bucket sym.hash) (·.erase s)
        symCount := pkg.symCount - 1 }
    if sym.package = some p then
      h.setSymbol s { sym with package := none, exportedHome := false }
    else h
  else h

/-- `cl_use_package` -/
def usePackage (used p : Nat) : Heap :=
  let pkg := h.package p
  if used = p ∨ used ∈ pkg.useList then h
  else h.setPackage p { pkg with useList := used :: pkg.useList }

/-- `cl_unuse_package` -/
def unusePackage (used p : Nat) : Heap :=
  let pkg := h.package p
  h.setPackage p { pkg with useList := pkg.useList.erase used }

/-- The linking section of `cl_bindtab_materialize`, for a name of the package's
binding table. -/
def materialize (name : Name) (p : Nat) : Heap :=
  match h.findOwnSymbol name p with
  | none => (h.addFresh name p).pushExportCell p h.allocated
  | some existing => if h.exportedP existing p then h else h.pushExportCell p existing

/-- The same section, for the setter of a field. -/
def materializeSetter (name : Name) (p : Nat) : Heap :=
  h.shadowSymbol name p

end Heap

/-- One call on a package or one new symbol.  A symbol argument that is absent is
`NIL`. -/
inductive Op where
  /-- `MAKE-SYMBOL` and `COPY-SYMBOL`, which store the hash of the name -/
  | makeSymbol (name : Name)
  /-- `GENSYM`, which leaves the hash at 0 -/
  | gensym (name : Name)
  | intern (name : Name) (p : Nat)
  | importOp (s : Option Nat) (p : Nat)
  | exportOp (s : Option Nat) (p : Nat)
  | unexport (s : Option Nat) (p : Nat)
  | unintern (s : Option Nat) (p : Nat)
  | shadow (name : Name) (p : Nat)
  | usePackage (used p : Nat)
  | unusePackage (used p : Nat)
  /-- a lookup builds an entry of a binding table -/
  | materialize (name : Name) (p : Nat)
  | materializeSetter (name : Name) (p : Nat)
  deriving DecidableEq, Repr

/-- The symbol an operation is about. -/
def Op.subject : Op → Option Nat
  | .importOp s _ | .exportOp s _ | .unexport s _ | .unintern s _ => s
  | _ => none

def run (h : Heap) : Op → Except String Heap
  | .makeSymbol name => .ok (h.makeSymbol name (clHashString name))
  | .gensym name => .ok (h.makeSymbol name 0)
  | .intern name p => h.internIn name p
  | .importOp none _ => .ok h
  | .importOp (some s) p => h.importSymbol s p
  | .exportOp none _ => .ok h
  | .exportOp (some s) p => h.exportSymbol s p
  | .unexport none _ => .ok h
  | .unexport (some s) p => .ok (h.unexportSymbol s p)
  | .unintern none _ => .error "UNINTERN: not a symbol"
  | .unintern (some s) p => .ok (h.unintern s p)
  | .shadow name p => .ok (h.shadowSymbol name p)
  | .usePackage used p => .ok (h.usePackage used p)
  | .unusePackage used p => .ok (h.unusePackage used p)
  | .materialize name p => .ok (h.materialize name p)
  | .materializeSetter name p => .ok (h.materializeSetter name p)

def after (h : Heap) (op : Op) : Heap :=
  match run h op with
  | .ok h' => h'
  | .error _ => h

def Heap.initial (keyword : Nat) : Heap where
  symbol := fun _ => ⟨[], none, 0, false, false⟩
  package := fun _ => ⟨Chain.empty symtabSize, 0, [], []⟩
  allocated := 0
  keyword := keyword

def Op.Possible (h : Heap) (op : Op) : Prop :=
  ∀ s, op.subject = some s → s < h.allocated

instance (h : Heap) (op : Op) : Decidable (op.Possible h) :=
  match found : op.subject with
  | none => .isTrue (by simp [Op.Possible, found])
  | some s => decidable_of_iff (s < h.allocated) (by simp [Op.Possible, found])

end ClAmiga.Packages
