import ClAmiga.Package.Registry

/-!
# What is external in a package

The invariant that ties the export lists to the symbols present, to the hint and to
the flag for the home package.  Three operations of the source can break it; the
conditions that keep them from it are part of the run.
-/

namespace ClAmiga.Packages

open Chain

def Package.present (pkg : Package) : List Nat :=
  pkg.symbols.flatten

/-- What one package keeps about its own table and export list. -/
structure Good (symbol : Nat → Symbol) (allocated : Nat) (pkg : Package) : Prop where
  size : pkg.symbols.length = symtabSize
  placed : Placed (fun s => Heap.bucket (symbol s).hash) pkg.symbols
  hashed : ∀ s ∈ pkg.present,
    Heap.bucket (symbol s).hash = Heap.bucket (clHashString (symbol s).name)
  named : ∀ s ∈ pkg.present, ∀ s' ∈ pkg.present, (symbol s).name = (symbol s').name → s = s'
  nodup : pkg.present.Nodup
  count : pkg.symCount = pkg.present.length
  exportsPresent : ∀ s ∈ pkg.exportedSymbols, s ∈ pkg.present
  exportsNodup : pkg.exportedSymbols.Nodup
  hint : ∀ s ∈ pkg.exportedSymbols, (symbol s).exported = true
  allocated : ∀ s ∈ pkg.present, s < allocated

structure Inv (h : Heap) : Prop where
  good : ∀ p, Good h.symbol h.allocated (h.package p)
  home : ∀ s p, (h.symbol s).package = some p →
    ((h.symbol s).exportedHome = true ↔ s ∈ (h.package p).exportedSymbols)

theorem Heap.bucket_lt (hash : UInt32) : Heap.bucket hash < symtabSize :=
  Nat.mod_lt _ (by decide)

section Find

variable {h : Heap} {p s : Nat} {name : Name}

theorem findOwnSymbol_some (found : h.findOwnSymbol name p = some s) :
    s ∈ (h.package p).present ∧ (h.symbol s).name = name := by
  have member := List.mem_of_find?_eq_some found
  have named := List.find?_some found
  exact ⟨mem_flatten_of_mem_chain member, of_decide_eq_true named⟩

theorem findOwnSymbol_none (inv : Inv h) (missed : h.findOwnSymbol name p = none) :
    ∀ s ∈ (h.package p).present, (h.symbol s).name ≠ name := by
  intro s member same
  have good := inv.good p
  have place := (good.placed.mem_flatten_iff s).mp member
  rw [good.hashed s member, same] at place
  have differs := List.find?_eq_none.mp missed s place
  simp [same] at differs

theorem exportedP_iff (inv : Inv h) :
    h.exportedP s p = true ↔ s ∈ (h.package p).exportedSymbols := by
  unfold Heap.exportedP
  split
  case isTrue home => exact inv.home s p home
  case isFalse =>
    split
    case isTrue clear =>
      simp only [Bool.false_eq_true, false_iff]
      intro member
      rw [(inv.good p).hint s member] at clear
      exact nomatch clear
    case isFalse => simp

end Find

section Updates

variable {h : Heap} {p s : Nat}

theorem Inv.setPackage (inv : Inv h) {pkg : Package} (good : Good h.symbol h.allocated pkg)
    (home : ∀ s, (h.symbol s).package = some p →
      ((h.symbol s).exportedHome = true ↔ s ∈ pkg.exportedSymbols)) :
    Inv (h.setPackage p pkg) where
  good q := by
    change Good h.symbol h.allocated (Function.update h.package p pkg q)
    by_cases same : q = p
    · simpa [same] using good
    · simpa [same] using inv.good q
  home t q := by
    by_cases same : q = p
    · simpa [same] using home t
    · simpa [same] using inv.home t q

theorem Good.congr {symbol symbol' : Nat → Symbol} {allocated allocated' : Nat} {pkg : Package}
    (good : Good symbol allocated pkg)
    (name : ∀ s ∈ pkg.present, (symbol' s).name = (symbol s).name)
    (hash : ∀ s ∈ pkg.present, (symbol' s).hash = (symbol s).hash)
    (hint : ∀ s ∈ pkg.exportedSymbols, (symbol' s).exported = true)
    (more : allocated ≤ allocated') : Good symbol' allocated' pkg where
  size := good.size
  placed i s member := by
    have present := mem_flatten_of_mem_chain member
    dsimp only
    rw [hash s present]
    exact good.placed i s member
  hashed s member := by
    rw [hash s member, name s member]
    exact good.hashed s member
  named s member s' member' same := by
    rw [name s member, name s' member'] at same
    exact good.named s member s' member' same
  nodup := good.nodup
  count := good.count
  exportsPresent := good.exportsPresent
  exportsNodup := good.exportsNodup
  hint := hint
  allocated s member := Nat.lt_of_lt_of_le (good.allocated s member) more

theorem Inv.setFlags (inv : Inv h) (s : Nat) (package : Option Nat) (exported exportedHome : Bool)
    (hint : ∀ q, s ∈ (h.package q).exportedSymbols → exported = true)
    (home : ∀ q, package = some q → (exportedHome = true ↔ s ∈ (h.package q).exportedSymbols)) :
    Inv (h.setSymbol s ⟨(h.symbol s).name, package, (h.symbol s).hash, exported,
      exportedHome⟩) where
  good q := by
    refine (inv.good q).congr ?_ ?_ ?_ (Nat.le_refl _)
    · intro t _
      by_cases same : t = s <;> simp [same]
    · intro t _
      by_cases same : t = s <;> simp [same]
    · intro t member
      by_cases same : t = s
      · subst same
        simpa using hint q member
      · simpa [same] using (inv.good q).hint t member
  home t q := by
    by_cases same : t = s
    · subst same
      simpa using home q
    · simpa [same] using inv.home t q

theorem Inv.notAllocated (inv : Inv h) (q : Nat) : h.allocated ∉ (h.package q).present :=
  fun member => Nat.lt_irrefl _ ((inv.good q).allocated _ member)

theorem Inv.makeSymbol (inv : Inv h) (name : Name) (hash : UInt32) :
    Inv (h.makeSymbol name hash) where
  good q := by
    have other : ∀ t ∈ (h.package q).present, t ≠ h.allocated := by
      intro t member same
      exact inv.notAllocated q (same ▸ member)
    refine (inv.good q).congr ?_ ?_ ?_ (Nat.le_succ _)
    · intro t member
      simp [other t member]
    · intro t member
      simp [other t member]
    · intro t member
      have present := (inv.good q).exportsPresent t member
      simpa [other t present] using (inv.good q).hint t member
  home t q := by
    by_cases same : t = h.allocated
    · simp [same]
    · simpa [same] using inv.home t q

theorem Inv.link (inv : Inv h) (allocated : s < h.allocated)
    (hashed : Heap.bucket (h.symbol s).hash = Heap.bucket (clHashString (h.symbol s).name))
    (missed : h.findOwnSymbol (h.symbol s).name p = none) : Inv (h.linkSymbolCell p s) := by
  have good := inv.good p
  have fresh := findOwnSymbol_none inv missed
  have absent : s ∉ (h.package p).present := fun member => fresh s member rfl
  have inside : Heap.bucket (h.symbol s).hash < (h.package p).symbols.length := by
    rw [good.size]
    exact Heap.bucket_lt _
  have contents : ∀ t, t ∈ ((h.package p).symbols.modify (Heap.bucket (h.symbol s).hash)
      (s :: ·)).flatten ↔ t = s ∨ t ∈ (h.package p).present := by
    intro t
    rw [(flatten_push _ _ s inside).mem_iff, List.mem_cons]
    rfl
  refine inv.setPackage ?_ (fun t home => inv.home t p home)
  constructor
  · simpa using good.size
  · exact good.placed.push s inside
  · intro t member
    rcases (contents t).mp member with rfl | member
    · exact hashed
    · exact good.hashed t member
  · intro t member t' member' same
    rcases (contents t).mp member with first | first <;>
      rcases (contents t').mp member' with second | second
    · rw [first, second]
    · exact absurd (same.symm.trans (by rw [first])) (fresh t' second)
    · exact absurd (same.trans (by rw [second])) (fresh t first)
    · exact good.named t first t' second same
  · exact (flatten_push _ _ s inside).nodup_iff.mpr (List.nodup_cons.mpr ⟨absent, good.nodup⟩)
  · have longer := (flatten_push _ _ s inside).length_eq
    rw [List.length_cons] at longer
    exact (congrArg (· + 1) good.count).trans longer.symm
  · intro t member
    exact (contents t).mpr (.inr (good.exportsPresent t member))
  · exact good.exportsNodup
  · exact good.hint
  · intro t member
    rcases (contents t).mp member with rfl | member
    · exact allocated
    · exact good.allocated t member

theorem Inv.settle (inv : Inv h) (unexported : ∀ q, s ∉ (h.package q).exportedSymbols) :
    Inv (h.setSymbol s { h.symbol s with package := some p, exportedHome := false }) := by
  refine inv.setFlags s (some p) _ false ?_ ?_
  · exact fun q member => absurd member (unexported q)
  · intro q _
    simpa using unexported q

theorem unexported_addFresh (inv : Inv h) {name : Name} (q : Nat) :
    h.allocated ∉ ((h.addFresh name p).package q).exportedSymbols := by
  intro member
  have before : h.allocated ∈ (h.package q).exportedSymbols := by
    by_cases same : q = p
    · subst same
      simpa [Heap.addFresh, Heap.addSymbolCell, Heap.linkSymbolCell] using member
    · simpa [Heap.addFresh, Heap.addSymbolCell, Heap.linkSymbolCell, same] using member
  exact inv.notAllocated q ((inv.good q).exportsPresent h.allocated before)

theorem Inv.addFresh (inv : Inv h) {name : Name} (missed : h.findOwnSymbol name p = none) :
    Inv (h.addFresh name p) := by
  have made := inv.makeSymbol name (clHashString name)
  have absent : (h.makeSymbol name (clHashString name)).findOwnSymbol name p = none := by
    refine List.find?_eq_none.mpr ?_
    intro t member
    have other : t ≠ h.allocated := by
      intro same
      exact inv.notAllocated p (same ▸ mem_flatten_of_mem_chain member)
    have before := List.find?_eq_none.mp missed t member
    simpa [other] using before
  have linked : Inv ((h.makeSymbol name (clHashString name)).linkSymbolCell p h.allocated) := by
    refine made.link ?_ ?_ ?_
    · simp
    · simp
    · simpa using absent
  exact linked.settle (fun q => unexported_addFresh inv q)

theorem Inv.flagExported (inv : Inv h) (listed : s ∈ (h.package p).exportedSymbols) :
    Inv (h.setSymbol s
      { h.symbol s with
        exported := true
        exportedHome := if (h.symbol s).package = some p then true
          else (h.symbol s).exportedHome }) := by
  refine inv.setFlags s _ true _ (fun _ _ => rfl) ?_
  intro q home
  by_cases same : q = p
  · subst same
    simpa [home] using listed
  · rw [if_neg (by simpa [home] using same)]
    exact inv.home s q home

theorem Good.consExport {symbol : Nat → Symbol} {allocated : Nat} {pkg : Package}
    (good : Good symbol allocated pkg) (present : s ∈ pkg.present)
    (fresh : s ∉ pkg.exportedSymbols) (hint : (symbol s).exported = true) :
    Good symbol allocated { pkg with exportedSymbols := s :: pkg.exportedSymbols } where
  size := good.size
  placed := good.placed
  hashed := good.hashed
  named := good.named
  nodup := good.nodup
  count := good.count
  exportsPresent t member := by
    rcases List.mem_cons.mp member with rfl | member
    · exact present
    · exact good.exportsPresent t member
  exportsNodup := List.nodup_cons.mpr ⟨fresh, good.exportsNodup⟩
  hint t member := by
    rcases List.mem_cons.mp member with rfl | member
    · exact hint
    · exact good.hint t member
  allocated := good.allocated

theorem Inv.markExported (inv : Inv h) (present : s ∈ (h.package p).present) :
    Inv (h.markExported p s) := by
  by_cases external : h.exportedP s p = true
  · simpa [Heap.markExported, external] using inv.flagExported ((exportedP_iff inv).mp external)
  · have fresh : s ∉ (h.package p).exportedSymbols :=
      fun member => external ((exportedP_iff inv).mpr member)
    -- the symbol has the hint and no home while the list changes
    have hinted : Inv (h.setSymbol s
        { h.symbol s with package := none, exported := true, exportedHome := false }) :=
      inv.setFlags s none true false (fun _ _ => rfl) (by simp)
    have pushed := hinted.setPackage (p := p)
      ((hinted.good p).consExport present fresh (by simp)) (by
        intro t home
        have other : t ≠ s := by
          intro same
          simp [same] at home
        have before := hinted.home t p home
        simpa [other] using before)
    have flagged := pushed.setFlags s (h.symbol s).package true
      (if (h.symbol s).package = some p then true else (h.symbol s).exportedHome)
      (fun _ _ => rfl) (by
        intro q home
        by_cases same : q = p
        · subst same
          simp [home]
        · rw [if_neg (by simpa [home] using same)]
          simpa [same] using inv.home s q home)
    simpa [Heap.markExported, external, Heap.setSymbol, Heap.setPackage] using flagged

theorem pushExportCell_eq (internal : h.exportedP s p = false) :
    h.pushExportCell p s = h.markExported p s := by
  simp [Heap.pushExportCell, Heap.markExported, internal]

theorem Inv.unexport (inv : Inv h)
    (sole : (h.symbol s).package = some p → ∀ q, q ≠ p → s ∉ (h.package q).exportedSymbols) :
    Inv (h.unexportSymbol s p) := by
  have good := inv.good p
  have left : s ∉ (h.package p).exportedSymbols.erase s :=
    fun member => ((good.exportsNodup.mem_erase_iff).mp member).1 rfl
  have erased : Good h.symbol h.allocated
      { h.package p with exportedSymbols := (h.package p).exportedSymbols.erase s } :=
    ⟨good.size, good.placed, good.hashed, good.named, good.nodup, good.count,
      fun t member => good.exportsPresent t (List.mem_of_mem_erase member),
      good.exportsNodup.erase s, fun t member => good.hint t (List.mem_of_mem_erase member),
      good.allocated⟩
  by_cases home : (h.symbol s).package = some p
  · -- the flags go first, while the symbol has no home
    have hidden : Inv (h.setSymbol s
        { h.symbol s with package := none, exportedHome := false }) :=
      inv.setFlags s none _ false (fun q member => (inv.good q).hint s member) (by simp)
    have removed := hidden.setPackage (p := p)
      (erased.congr (fun t _ => by by_cases same : t = s <;> simp [same])
        (fun t _ => by by_cases same : t = s <;> simp [same])
        (fun t member => by
          have other : t ≠ s := fun same => left (same ▸ member)
          simpa [other] using erased.hint t member)
        (Nat.le_refl _)) (by
        intro t at'
        have other : t ≠ s := by
          intro same
          simp [same] at at'
        have before := inv.home t p (by simpa [other] using at')
        simpa [other, List.mem_erase_of_ne other] using before)
    have cleared := removed.setFlags s (some p) false false (by
        intro q member
        by_cases same : q = p
        · subst same
          exact absurd (by simpa using member) left
        · exact absurd (by simpa [same] using member) (sole home q same)) (by
        intro q same
        cases same
        simpa using left)
    simpa [Heap.unexportSymbol, home, Heap.setSymbol, Heap.setPackage] using cleared
  · have removed := inv.setPackage (p := p) erased (by
        intro t at'
        have other : t ≠ s := fun same => home (same ▸ at')
        rw [inv.home t p at']
        exact (List.mem_erase_of_ne other).symm)
    simpa [Heap.unexportSymbol, home] using removed

theorem Inv.unintern (inv : Inv h)
    (internal : s ∈ (h.package p).present → s ∉ (h.package p).exportedSymbols) :
    Inv (h.unintern s p) := by
  have good := inv.good p
  unfold Heap.unintern
  dsimp only
  split
  case isFalse => exact inv
  case isTrue member =>
    have present : s ∈ (h.package p).present := mem_flatten_of_mem_chain member
    have unlisted := internal present
    have contents := flatten_erase _ _ s member
    have distinct := contents.nodup_iff.mp good.nodup
    have inside : Heap.bucket (h.symbol s).hash < (h.package p).symbols.length := by
      rw [good.size]
      exact Heap.bucket_lt _
    have kept : ∀ t, t ∈ ((h.package p).symbols.modify (Heap.bucket (h.symbol s).hash)
        (·.erase s)).flatten → t ∈ (h.package p).present :=
      fun t member => contents.mem_iff.mpr (List.mem_cons_of_mem _ member)
    have smaller : Good h.symbol h.allocated
        { h.package p with
          symbols := (h.package p).symbols.modify (Heap.bucket (h.symbol s).hash) (·.erase s)
          symCount := (h.package p).symCount - 1 } := by
      constructor
      · simpa using good.size
      · exact good.placed.erase _ s inside
      · exact fun t member => good.hashed t (kept t member)
      · exact fun t member t' member' => good.named t (kept t member) t' (kept t' member')
      · exact (List.nodup_cons.mp distinct).2
      · have longer := contents.length_eq
        rw [List.length_cons] at longer
        have counted : (h.package p).symCount = (h.package p).symbols.flatten.length := good.count
        change (h.package p).symCount - 1 = _
        rw [counted, longer]
        rfl
      · intro t member
        have other : t ≠ s := fun same => unlisted (same ▸ member)
        have before : t ∈ (h.package p).symbols.flatten := good.exportsPresent t member
        rcases List.mem_cons.mp (contents.mem_iff.mp before) with same | found
        · exact absurd same other
        · exact found
      · exact good.exportsNodup
      · exact good.hint
      · exact fun t member => good.allocated t (kept t member)
    have removed := inv.setPackage (p := p) smaller (fun t home => inv.home t p home)
    split
    · exact removed.setFlags s none _ false (fun q member => by
        by_cases same : q = p
        · subst same
          exact absurd (by simpa using member) unlisted
        · exact (inv.good q).hint s (by simpa [same] using member)) (by simp)
    · exact removed

theorem Inv.setUseList (inv : Inv h) (list : List Nat) :
    Inv (h.setPackage p { h.package p with useList := list }) := by
  have good := inv.good p
  refine inv.setPackage ?_ (fun t home => inv.home t p home)
  exact ⟨good.size, good.placed, good.hashed, good.named, good.nodup, good.count,
    good.exportsPresent, good.exportsNodup, good.hint, good.allocated⟩

end Updates

section Runs

/-- The cached hash of a symbol selects the chain of its name. -/
def Hashed (h : Heap) (s : Nat) : Prop :=
  Heap.bucket (h.symbol s).hash = Heap.bucket (clHashString (h.symbol s).name)

/-- The calls that keep the export lists, the tables and the flags in step: no
symbol goes into a table with the hash of another name, none is exported beside a
different symbol of its name, none is uninterned while exported, and none is
unexported from its home while another package exports it. -/
def Op.Keeps (h : Heap) : Op → Prop
  | .importOp (some s) p => h.findOwnSymbol (h.symbol s).name p = none → Hashed h s
  | .exportOp (some s) p =>
      (h.findOwnSymbol (h.symbol s).name p = none → Hashed h s) ∧
        ∀ existing, h.findOwnSymbol (h.symbol s).name p = some existing → existing = s
  | .unexport (some s) p =>
      (h.symbol s).package = some p → ∀ q, q ≠ p → s ∉ (h.package q).exportedSymbols
  | .unintern (some s) p =>
      s ∈ (h.package p).present → s ∉ (h.package p).exportedSymbols
  | _ => True

/-- What the three stores of externality and the tables owe each other. -/
structure Consistent (h : Heap) : Prop where
  /-- one symbol of a name at most, and no symbol twice -/
  named : ∀ p, ((h.package p).present.map fun s => (h.symbol s).name).Nodup
  count : ∀ p, (h.package p).symCount = (h.package p).present.length
  present : ∀ p, ∀ s ∈ (h.package p).exportedSymbols, s ∈ (h.package p).present
  external : ∀ p s, h.exportedP s p = true ↔ s ∈ (h.package p).exportedSymbols

variable {h h' : Heap} {p s : Nat} {name : Name}

theorem Inv.consistent (inv : Inv h) : Consistent h where
  named p := by
    refine (List.nodup_map_iff_inj_on (inv.good p).nodup).mpr ?_
    exact fun s member s' member' => (inv.good p).named s member s' member'
  count p := (inv.good p).count
  present p := (inv.good p).exportsPresent
  external _ _ := exportedP_iff inv

theorem initial_inv (keyword : Nat) : Inv (Heap.initial keyword) where
  good p := by
    constructor <;> simp [Heap.initial, Package.present, Placed]
  home s p := by
    simp [Heap.initial]

theorem present_link (inv : Inv h) : s ∈ ((h.linkSymbolCell p s).package p).present := by
  have inside : Heap.bucket (h.symbol s).hash < (h.package p).symbols.length := by
    rw [(inv.good p).size]
    exact Heap.bucket_lt _
  have contents := flatten_push _ _ s inside
  simpa [Heap.linkSymbolCell, Package.present] using contents.mem_iff.mpr (List.mem_cons_self ..)

/-- IMPORT keeps the invariant. -/
theorem importSymbol_inv (inv : Inv h) (allocated : s < h.allocated)
    (keeps : h.findOwnSymbol (h.symbol s).name p = none → Hashed h s)
    (returned : h.importSymbol s p = .ok h') : Inv h' := by
  unfold Heap.importSymbol Heap.importSymbolNolock at returned
  cases found : h.findOwnSymbol (h.symbol s).name p with
  | none =>
      simp only [found] at returned
      cases returned
      exact inv.link allocated (keeps found) found
  | some existing =>
      simp only [found] at returned
      by_cases same : existing = s
      · simp only [same, if_true] at returned
        cases returned
        exact inv
      · simp [same] at returned

/-- EXPORT keeps the invariant. -/
theorem exportSymbol_inv (inv : Inv h) (allocated : s < h.allocated)
    (keeps : Op.Keeps h (.exportOp (some s) p)) (returned : h.exportSymbol s p = .ok h') :
    Inv h' := by
  unfold Heap.exportSymbol at returned
  cases found : h.findOwnSymbol (h.symbol s).name p with
  | none =>
      simp only [found, if_true, Heap.importSymbolNolock] at returned
      cases returned
      exact (inv.link allocated (keeps.1 found) found).markExported (present_link inv)
  | some existing =>
      simp only [found, reduceCtorEq, if_false] at returned
      cases returned
      have same := keeps.2 existing found
      exact inv.markExported (same ▸ (findOwnSymbol_some found).1)

theorem present_addFresh (inv : Inv h) : h.allocated ∈ ((h.addFresh name p).package p).present := by
  have made := inv.makeSymbol name (clHashString name)
  exact present_link (s := h.allocated) made

/-- INTERN keeps the invariant. -/
theorem internIn_inv (inv : Inv h) (returned : h.internIn name p = .ok h') : Inv h' := by
  unfold Heap.internIn at returned
  split at returned
  · cases returned
    exact inv
  case h_2 missed =>
    have own : h.findOwnSymbol name p = none := by
      unfold Heap.findSymbol at missed
      exact (Option.or_eq_none_iff.mp missed).1
    have fresh := inv.addFresh own
    split at returned
    · have present : h.allocated ∈ ((h.addFresh name p).package p).present :=
        present_addFresh inv
      refine exportSymbol_inv fresh (Nat.lt_succ_self _) ⟨?_, ?_⟩ returned
      · intro missed
        exact absurd rfl (findOwnSymbol_none fresh missed h.allocated present)
      · intro existing found
        have known := findOwnSymbol_some found
        exact (fresh.good p).named existing known.1 h.allocated present known.2
    · cases returned
      exact fresh

theorem shadowSymbol_inv (inv : Inv h) : Inv (h.shadowSymbol name p) := by
  unfold Heap.shadowSymbol
  split
  · exact inv
  case h_2 missed => exact inv.addFresh missed

/-- So does making the symbol of a name on demand. -/
theorem materialize_inv (inv : Inv h) : Inv (h.materialize name p) := by
  unfold Heap.materialize
  split
  case h_1 missed =>
    have fresh := inv.addFresh missed
    rw [pushExportCell_eq]
    · exact fresh.markExported (present_addFresh inv)
    · rw [Bool.eq_false_iff]
      exact fun external => unexported_addFresh inv p ((exportedP_iff fresh).mp external)
  case h_2 existing found =>
    split
    · exact inv
    case isFalse internal =>
      rw [pushExportCell_eq (by simpa using internal)]
      exact inv.markExported (findOwnSymbol_some found).1

/-- Every possible operation keeps the invariant. -/
theorem after_inv (inv : Inv h) {op : Op} (possible : op.Possible h) (keeps : op.Keeps h) :
    Inv (after h op) := by
  unfold after
  cases returned : run h op with
  | error _ => exact inv
  | ok h' =>
      change Inv h'
      cases op with
      | makeSymbol name =>
          cases returned
          exact inv.makeSymbol name _
      | gensym name =>
          cases returned
          exact inv.makeSymbol name 0
      | intern name p => exact internIn_inv inv returned
      | importOp s p =>
          cases s with
          | none =>
              cases returned
              exact inv
          | some s => exact importSymbol_inv inv (possible s rfl) keeps returned
      | exportOp s p =>
          cases s with
          | none =>
              cases returned
              exact inv
          | some s => exact exportSymbol_inv inv (possible s rfl) keeps returned
      | unexport s p =>
          cases s with
          | none =>
              cases returned
              exact inv
          | some s =>
              cases returned
              exact inv.unexport keeps
      | unintern s p =>
          cases s with
          | none => exact nomatch returned
          | some s =>
              cases returned
              exact inv.unintern keeps
      | shadow name p =>
          cases returned
          exact shadowSymbol_inv inv
      | usePackage used p =>
          cases returned
          unfold Heap.usePackage
          dsimp only
          split
          · exact inv
          · exact inv.setUseList _
      | unusePackage used p =>
          cases returned
          exact inv.setUseList _
      | materialize name p =>
          cases returned
          exact materialize_inv inv
      | materializeSetter name p =>
          cases returned
          exact shadowSymbol_inv inv

/-- A sequence of calls, each of which meets its condition. -/
inductive Reachable (keyword : Nat) : Heap → Prop where
  | initial : Reachable keyword (Heap.initial keyword)
  | call {h : Heap} (before : Reachable keyword h) (op : Op) (possible : op.Possible h)
      (keeps : op.Keeps h) : Reachable keyword (after h op)

theorem Reachable.inv {keyword : Nat} (run : Reachable keyword h) : Inv h := by
  induction run with
  | initial => exact initial_inv keyword
  | call _ _ possible keeps induction => exact after_inv induction possible keeps

/-- Every package is consistent after any sequence of such calls. -/
theorem packages_consistent {keyword : Nat} (run : Reachable keyword h) : Consistent h :=
  run.inv.consistent

def runAll (h : Heap) (ops : List Op) : Heap :=
  ops.foldl after h

def exportTwice : List Op :=
  [.intern [88] 1, .exportOp (some 0) 1, .importOp (some 0) 2, .exportOp (some 0) 2]

/-- Each of the four conditions is needed: an unexport from the home while package 2
exports the symbol, an unintern of an exported symbol, an export beside a different
symbol of the same name, and an import of a symbol without its hash. -/
theorem externality_broken :
    ¬Consistent (runAll (Heap.initial 0) (exportTwice ++ [.unexport (some 0) 1])) ∧
    ¬Consistent (runAll (Heap.initial 0)
      [.intern [88] 1, .exportOp (some 0) 1, .unintern (some 0) 1]) ∧
    ¬Consistent (runAll (Heap.initial 0) [.intern [88] 1, .makeSymbol [88], .exportOp (some 1) 1]) ∧
    ¬Consistent (runAll (Heap.initial 0) [.gensym [88], .importOp (some 0) 1, .intern [88] 1]) := by
  refine ⟨?_, ?_, ?_, ?_⟩
  · intro consistent
    exact absurd (consistent.external 2 0) (by decide)
  · intro consistent
    exact absurd (consistent.present 1 0) (by decide +kernel)
  · intro consistent
    exact absurd (consistent.present 1 1) (by decide +kernel)
  · intro consistent
    exact absurd (consistent.named 1) (by decide +kernel)

/-- A symbol exported from two packages. -/
theorem packages_consistent_twice :
    ∃ h, Reachable 0 h ∧ h.exportedP 0 1 = true ∧ h.exportedP 0 2 = true := by
  have first : Reachable 0 (runAll (Heap.initial 0) (exportTwice.take 1)) :=
    Reachable.initial.call (.intern [88] 1) (by decide) trivial
  have second : Reachable 0 (runAll (Heap.initial 0) (exportTwice.take 2)) := by
    refine first.call (.exportOp (some 0) 1) (by decide) ⟨fun _ => rfl, ?_⟩
    exact fun existing found => Option.some.inj (found.symm.trans rfl)
  have third : Reachable 0 (runAll (Heap.initial 0) (exportTwice.take 3)) :=
    second.call (.importOp (some 0) 2) (by decide) (fun _ => rfl)
  have run : Reachable 0 (runAll (Heap.initial 0) exportTwice) := by
    refine third.call (.exportOp (some 0) 2) (by decide) ⟨fun _ => rfl, ?_⟩
    exact fun existing found => Option.some.inj (found.symm.trans rfl)
  have consistent := packages_consistent run
  exact ⟨_, run, (consistent.external 1 0).mpr (by decide),
    (consistent.external 2 0).mpr (by decide)⟩

end Runs

end ClAmiga.Packages
