import ClAmiga.Probe.Update
import Mathlib.Logic.Function.Basic

/-!
# The registry of the structure types

The registry is a list of entries, the newest first.  In front of it stand an index, which is
built again after each registration and each compaction, and for every thread a cache of slot
positions, which are stamped with a generation.
-/

namespace ClAmiga.Struct

open Probe (Slots)

/-- `CL_Obj`, with `CL_NIL` as zero. -/
abbrev Obj := BitVec 32

/-- `CL_HEAP_P` -/
def heapP (obj : Obj) : Bool :=
  decide (obj ≠ 0) && decide (obj &&& 3 = 0)

/-- `CL_FIXNUM_P` -/
def fixnumP (obj : Obj) : Bool :=
  decide (obj &&& 1 ≠ 0)

/-- A cell of the specs of an entry: a slot name with a default, or a slot name alone. -/
inductive Spec where
  | cons (name default : Obj)
  | bare (name : Obj)
deriving DecidableEq, Repr

def Spec.name : Spec → Obj
  | .cons name _ => name
  | .bare name => name

/-- An entry of the registry, with its place in the heap and the conses of its specs. -/
structure Entry where
  cell : Obj
  name : Obj
  nSlots : Obj
  parent : Obj
  specs : List Spec
  named : heapP name = true
deriving DecidableEq, Repr

/-- The key of a `SlotIdxSlot`. -/
structure SlotKey where
  name : Obj
  slot : Obj
deriving DecidableEq, Repr

structure Table (K V : Type) where
  cap : Nat
  slots : Slots K V

/-- `struct_index` -/
structure Index where
  slots : Option (Table Obj Entry)
  pairs : Option (Table SlotKey Int)
  dirty : Bool
  disabled : Bool

/-- The index may be probed. -/
def Index.clean (index : Index) : Bool :=
  !index.dirty && !index.disabled

/-- `CL_SlotICEntry` -/
structure SlotICEntry where
  type : Obj
  slot : Obj
  idx : Int
  gen : BitVec 32
deriving DecidableEq, Repr

/-- `CL_SLOT_IC_SIZE` -/
def slotIcSize : Nat := 64

/-- The registry, the index, `cl_struct_layout_gen` and the caches of the threads. -/
structure State where
  structTable : List Entry
  structIndex : Index
  layoutGen : BitVec 32
  slotIc : Nat → Nat → SlotICEntry

def State.initial : State where
  structTable := []
  structIndex := ⟨none, none, false, false⟩
  layoutGen := 1
  slotIc _ _ := ⟨0, 0, 0, 0⟩

/-- `struct_name_hash`, with the shift of the alignment. -/
def structNameHash (shift : Nat) (obj : Obj) : BitVec 32 :=
  (obj >>> shift) * 2654435769

/-- `slot_pair_hash` -/
def slotPairHash (shift : Nat) (name slot : Obj) : BitVec 32 :=
  structNameHash shift name ^^^ (structNameHash shift slot * 2246822519)

/-- The first slot of a type in a table; the mask of a power of two takes the remainder. -/
def nameSlot (shift cap : Nat) (name : Obj) : Nat :=
  (structNameHash shift name).toNat % cap

/-- The first slot of a type and a slot name in a table. -/
def pairSlot (shift cap : Nat) (key : SlotKey) : Nat :=
  (slotPairHash shift key.name key.slot).toNat % cap

def growCap (need : Nat) : Nat → Nat → Nat
  | 0, cap => cap
  | fuel + 1, cap => if cap < need then growCap need fuel (2 * cap) else cap

def capFor (count : Nat) : Nat :=
  growCap (count * 2 + 1) (count * 2 + 1) 64

/-- The pairs of a type and its slots, with the positions from one on. -/
def specPairs (name : Obj) : Int → List Spec → List (SlotKey × Int)
  | _, [] => []
  | idx, spec :: specs => (⟨name, spec.name⟩, idx) :: specPairs name (idx + 1) specs

def slotPairs (table : Table Obj Entry) (i : Nat) : List (SlotKey × Int) :=
  match table.slots i with
  | .entry name entry => specPairs name 0 entry.specs
  | _ => []

def winningPairs (table : Table Obj Entry) : List (SlotKey × Int) :=
  (List.range table.cap).flatMap (slotPairs table)

/-- Which allocations of a rebuild succeed. -/
structure Allocs where
  slots : Bool
  pairs : Bool
deriving DecidableEq, Repr

def disable (s : State) : State :=
  { s with structIndex := ⟨none, none, s.structIndex.dirty, true⟩ }

/-- `struct_index_rebuild`: the first entry of a type wins, and the first spec of a name. -/
def structIndexRebuild (shift : Nat) (allocs : Allocs) (s : State) : Bool × State :=
  let cap := capFor s.structTable.length
  if allocs.slots = false then (false, disable s)
  else
    let slots : Table Obj Entry :=
      ⟨cap, Probe.build cap (nameSlot shift cap) (s.structTable.map fun e => (e.name, e))⟩
    let winners := winningPairs slots
    let pairCap := capFor winners.length
    if allocs.pairs = false then (false, disable s)
    else
      let pairs : Table SlotKey Int :=
        ⟨pairCap, Probe.build pairCap (pairSlot shift pairCap) winners⟩
      (true, { s with structIndex := ⟨some slots, some pairs, false, s.structIndex.disabled⟩ })

/-- `struct_index_probe` -/
def structIndexProbe (shift : Nat) (table : Table Obj Entry) (typeName : Obj) : Option Entry :=
  Probe.lookup table.slots table.cap (nameSlot shift table.cap typeName) typeName 0 table.cap

/-- `slot_pair_probe` -/
def slotPairProbe (shift : Nat) (table : Table SlotKey Int) (typeName slotName : Obj) : Int :=
  (Probe.lookup table.slots table.cap (pairSlot shift table.cap ⟨typeName, slotName⟩)
    ⟨typeName, slotName⟩ 0 table.cap).getD (-1)

def walk (typeName : Obj) : List Entry → Option Entry
  | [] => none
  | entry :: list => if entry.name = typeName then some entry else walk typeName list

def walkSpecs (slotName : Obj) : Int → List Spec → Int
  | _, [] => -1
  | idx, spec :: specs => if spec.name = slotName then idx else walkSpecs slotName (idx + 1) specs

/-- The lookup behind the first probe: under the write lock, the index is rebuilt if need be. -/
def findRebuilding (shift : Nat) (allocs : Allocs) (typeName : Obj) (s : State) :
    Option Entry × State :=
  if s.structIndex.disabled then (walk typeName s.structTable, s)
  else
    let (usable, s) :=
      if s.structIndex.slots.isSome && !s.structIndex.dirty then (true, s)
      else structIndexRebuild shift allocs s
    match usable, s.structIndex.slots with
    | true, some table => (structIndexProbe shift table typeName, s)
    | _, _ => (walk typeName s.structTable, s)

/-- `find_struct_entry` -/
def findStructEntry (shift : Nat) (allocs : Allocs) (typeName : Obj) (s : State) :
    Option Entry × State :=
  match s.structIndex.slots with
  | some table =>
      if s.structIndex.clean then (structIndexProbe shift table typeName, s)
      else findRebuilding shift allocs typeName s
  | none => findRebuilding shift allocs typeName s

structure Instance where
  typeDesc : Obj
  nSlots : Nat
deriving DecidableEq, Repr

/-- A position of the layout, if the instance has the slot. -/
def Instance.checked (st : Instance) (raw : Int) : Int :=
  if raw ≥ 0 ∧ raw < st.nSlots then raw else -1

def resolveByEntry (shift : Nat) (allocs : Allocs) (typeDesc slotName : Obj) (s : State) :
    Int × State :=
  match findStructEntry shift allocs typeDesc s with
  | (none, s) => (-1, s)
  | (some entry, s) => (walkSpecs slotName 0 entry.specs, s)

/-- The position in the registered layout: from the pair index or by the walk. -/
def resolveShared (shift : Nat) (allocs : Allocs) (typeDesc slotName : Obj) (s : State) :
    Int × State :=
  match s.structIndex.pairs with
  | some table =>
      if s.structIndex.clean then (slotPairProbe shift table typeDesc slotName, s)
      else resolveByEntry shift allocs typeDesc slotName s
  | none => resolveByEntry shift allocs typeDesc slotName s

def icPlace (shift : Nat) (typeDesc slotName : Obj) : Nat :=
  (slotPairHash shift typeDesc slotName).toNat % slotIcSize

def State.store (s : State) (thread place : Nat) (ic : SlotICEntry) : State :=
  { s with slotIc := Function.update s.slotIc thread (Function.update (s.slotIc thread) place ic) }

/-- `struct_slot_resolve`, of what may be no structure, by a thread. -/
def structSlotResolve (shift : Nat) (allocs : Allocs) (thread : Nat) (obj : Option Instance)
    (slotName : Obj) (s : State) : Int × State :=
  match obj with
  | none => (-1, s)
  | some st =>
      let gen := s.layoutGen
      let place := icPlace shift st.typeDesc slotName
      let ic := s.slotIc thread place
      if ic.gen = gen ∧ ic.type = st.typeDesc ∧ ic.slot = slotName then (st.checked ic.idx, s)
      else
        let (raw, s) := resolveShared shift allocs st.typeDesc slotName s
        -- a miss is cached as well
        (st.checked raw, s.store thread place ⟨st.typeDesc, slotName, raw, gen⟩)

def State.invalidate (s : State) : State :=
  { s with
    structIndex := { s.structIndex with dirty := true }
    layoutGen := s.layoutGen + 1 }

structure Registration where
  isSymbol : Obj → Bool
  cell : Obj
  name : Obj
  nSlots : Obj
  parent : Obj
  specs : List Spec

/-- `CL_SYMBOL_P` -/
def Registration.symbolP (r : Registration) (obj : Obj) : Bool :=
  heapP obj && r.isSymbol obj

/-- `bi_register_struct_type` -/
def registerStructType (r : Registration) (s : State) : Except String State :=
  if symbol : r.symbolP r.name = true then
    if fixnumP r.nSlots then
      let entry : Entry :=
        ⟨r.cell, r.name, r.nSlots, r.parent, r.specs, (Bool.and_eq_true_iff.mp symbol).1⟩
      .ok { s with structTable := entry :: s.structTable }.invalidate
    else .error "%REGISTER-STRUCT-TYPE: n-slots must be a fixnum"
  else .error "%REGISTER-STRUCT-TYPE: name must be a symbol"

/-- Where a compaction moves the objects; what is not in the heap stays. -/
structure Relocation where
  move : Obj → Obj
  immediate : ∀ obj, heapP obj = false → move obj = obj
  heap : ∀ obj, heapP obj = true → heapP (move obj) = true

def Spec.relocate (r : Relocation) : Spec → Spec
  | .cons name default => .cons (r.move name) (r.move default)
  | .bare name => .bare (r.move name)

def Entry.relocate (r : Relocation) (e : Entry) : Entry where
  cell := r.move e.cell
  name := r.move e.name
  nSlots := r.move e.nSlots
  parent := r.move e.parent
  specs := e.specs.map (Spec.relocate r)
  named := r.heap e.name e.named

/-- A compaction moves the registry, and neither the index nor the caches
(`cl_struct_index_gc_invalidate`). -/
def compact (r : Relocation) (s : State) : State :=
  { s with structTable := s.structTable.map (Entry.relocate r) }.invalidate

inductive Op where
  | register (r : Registration)
  | compact (r : Relocation)
  | find (allocs : Allocs) (typeName : Obj)
  | resolve (allocs : Allocs) (thread : Nat) (obj : Option Instance) (slotName : Obj)

def step (shift : Nat) (s : State) : Op → State
  | .register r =>
      match registerStructType r s with
      | .ok s' => s'
      | .error _ => s
  | .compact r => compact r s
  | .find allocs typeName => (findStructEntry shift allocs typeName s).2
  | .resolve allocs thread obj slotName => (structSlotResolve shift allocs thread obj slotName s).2

def run (shift : Nat) (s : State) (ops : List Op) : State :=
  ops.foldl (step shift) s

end ClAmiga.Struct
