import Mathlib.Data.List.Basic
import Mathlib.Tactic.Common

/-!
# Inline caches of generic functions

One slot of a generic function holds what its last calls have found: an effective method for the
class of one argument or for those of two, or the slots that a reader or a writer has accessed in
instances of a few classes.  The probes tell these contents apart by their conses.
-/

namespace ClAmiga.Clos.InlineCache

/-- The indices `CN_NULL` to `CN_T`. -/
inductive BuiltinClass where
  | null | fixnum | character | cons | symbol | string | function | compiledFunction | vector
  | array | package | hashTable | bignum | singleFloat | doubleFloat | ratio | stream | randomState
  | bitVector | pathname | t
deriving DecidableEq, Repr

variable {Obj : Type}

inductive Cell (Obj : Type) where
  | null
  | fixnum (value : Int)
  | character
  | cons (car cdr : Obj)
  | symbol
  | string
  | function
  | bytecode
  | vector (stringFlag : Bool) (rank : Nat)
  | package
  | hashTable
  | condition (typeName : Obj)
  | struct (typeDesc : Obj) (slots : List Obj)
  | bignum
  | singleFloat
  | doubleFloat
  | ratio
  | stream
  | randomState
  | bitVector
  | byteVector
  | pathname
  | other

/-- The objects, with the symbols that name the built-in classes and `cl_slot_unbound_marker`. -/
structure Heap (Obj : Type) where
  nil : Obj
  cell : Obj → Cell Obj
  cell_nil : cell nil = .null
  className : BuiltinClass → Obj
  slotUnboundMarker : Obj

namespace Heap

variable (heap : Heap Obj)

/-- `class_of_type_name` -/
def classOfTypeName (obj : Obj) : Obj :=
  match heap.cell obj with
  | .null => heap.className .null
  | .fixnum _ => heap.className .fixnum
  | .character => heap.className .character
  | .cons _ _ => heap.className .cons
  | .symbol => heap.className .symbol
  | .string => heap.className .string
  | .function => heap.className .function
  | .bytecode => heap.className .compiledFunction
  | .vector true _ => heap.className .string
  | .vector false rank => if rank ≤ 1 then heap.className .vector else heap.className .array
  | .package => heap.className .package
  | .hashTable => heap.className .hashTable
  | .condition typeName => typeName
  | .struct typeDesc _ => typeDesc
  | .bignum => heap.className .bignum
  | .singleFloat => heap.className .singleFloat
  | .doubleFloat => heap.className .doubleFloat
  | .ratio => heap.className .ratio
  | .stream => heap.className .stream
  | .randomState => heap.className .randomState
  | .bitVector => heap.className .bitVector
  | .byteVector => heap.className .vector
  | .pathname => heap.className .pathname
  | .other => heap.className .t

/-- `n_slots` is large enough and slot 8 of a generic function. -/
def icSlot (gf : Obj) : Option Obj :=
  match heap.cell gf with
  | .struct _ slots => slots[8]?
  | _ => none

variable [DecidableEq Obj]

/-- `cl_class_named_p` -/
def clClassNamedP (cls name : Obj) : Bool :=
  match heap.cell cls with
  | .struct _ (slot :: _) => slot = name
  | _ => false

/-- `bi_gf_ic_emf` for one receiver or for two. -/
def biGfIcEmf (gf a : Obj) (b : Option Obj) : Obj :=
  match heap.icSlot gf with
  | none => heap.nil
  | some ic =>
      match heap.cell ic with
      | .cons class1 rest =>
          if heap.clClassNamedP class1 (heap.classOfTypeName a) then
            match b with
            | none => rest
            | some b =>
                match heap.cell rest with
                | .cons class2 emf =>
                    if heap.clClassNamedP class2 (heap.classOfTypeName b) then emf else heap.nil
                | _ => heap.nil
          else heap.nil
      | _ => heap.nil

/-- `CL_READER_IC_MAX` -/
def readerIcMax : Nat := 4

/-- The value of the slot that an entry of a reader cache names; none is `CL_UNBOUND`. -/
def readSlot (slots : List Obj) (idx : Int) : Option Obj :=
  if idx < 0 then none
  else
    match slots[idx.toNat]? with
    | some v => if v = heap.slotUnboundMarker then none else some v
    | none => none

/-- The loop of `cl_gf_reader_ic_probe`, with so many entries left. -/
def readerLoop (typeDesc : Obj) (slots : List Obj) : Nat → Obj → Option Obj
  | 0, _ => none
  | left + 1, ic =>
      match heap.cell ic with
      | .cons entry rest =>
          match heap.cell entry with
          | .cons name index =>
              match heap.cell index with
              | .fixnum idx =>
                  if name = typeDesc then heap.readSlot slots idx
                  else readerLoop typeDesc slots left rest
              | _ => none
          | _ => none
      | _ => none

/-- `cl_gf_reader_ic_probe` -/
def clGfReaderIcProbe (gf obj : Obj) : Option Obj :=
  match heap.icSlot gf, heap.cell obj with
  | some ic, .struct typeDesc slots => heap.readerLoop typeDesc slots readerIcMax ic
  | _, _ => none

/-- The loop of `cl_gf_writer_ic_probe`: the slot that is stored into. -/
def writerLoop (typeDesc : Obj) (slots : List Obj) : Nat → Obj → Option Nat
  | 0, _ => none
  | left + 1, ic =>
      match heap.cell ic with
      | .cons entry rest =>
          match heap.cell entry with
          | .cons name index =>
              match heap.cell index with
              | .fixnum idx =>
                  if idx ≥ 0 then none
                  else if name = typeDesc then
                    if (-1 - idx).toNat ≥ slots.length then none else some (-1 - idx).toNat
                  else writerLoop typeDesc slots left rest
              | _ => none
          | _ => none
      | _ => none

def storeSlot (obj typeDesc : Obj) (slots : List Obj) (idx : Nat) (val : Obj) : Obj → Cell Obj :=
  Function.update heap.cell obj (.struct typeDesc (slots.set idx val))

/-- `cl_gf_writer_ic_probe`: the objects after the store. -/
def clGfWriterIcProbe (gf val obj : Obj) : Option (Obj → Cell Obj) :=
  match heap.cell obj with
  | .struct typeDesc slots =>
      if val = heap.slotUnboundMarker then none
      else
        match heap.icSlot gf with
        | some ic =>
            (heap.writerLoop typeDesc slots readerIcMax ic).map fun idx =>
              heap.storeSlot obj typeDesc slots idx val
        | none => none
  | _ => none

end Heap

structure Entry (Obj : Type) where
  typeName : Obj
  index : Nat

inductive Shape (Obj : Type) where
  | oneClass (cls emf : Obj)
  | twoClass (class1 class2 emf : Obj)
  | readers (entries : List (Entry Obj))
  | writers (entries : List (Entry Obj))

inductive Entries (heap : Heap Obj) (encode : Nat → Int) : Obj → List (Entry Obj) → Prop where
  | nil : Entries heap encode heap.nil []
  | cons {ic pair rest index : Obj} {entry : Entry Obj} {entries : List (Entry Obj)}
      (spine : heap.cell ic = .cons pair rest)
      (held : heap.cell pair = .cons entry.typeName index)
      (fixnum : heap.cell index = .fixnum (encode entry.index))
      (more : Entries heap encode rest entries) : Entries heap encode ic (entry :: entries)

def Named (heap : Heap Obj) (cls name : Obj) : Prop :=
  ∃ typeDesc slots, heap.cell cls = .struct typeDesc (name :: slots)

/-- A class that `*class-table*` has under its name. -/
def Registered (heap : Heap Obj) (classTable : Obj → Option Obj) (cls : Obj) : Prop :=
  ∃ name, Named heap cls name ∧ classTable name = some cls

/-- `class-of`, with the class T for the names that the table does not have. -/
def classOf (heap : Heap Obj) (classTable : Obj → Option Obj) (classT obj : Obj) : Obj :=
  (classTable (heap.classOfTypeName obj)).getD classT

def Holds (heap : Heap Obj) (classTable : Obj → Option Obj) (ic : Obj) : Shape Obj → Prop
  | .oneClass cls emf =>
      heap.cell ic = .cons cls emf ∧ Registered heap classTable cls ∧
        ∀ car cdr, heap.cell emf ≠ .cons car cdr
  | .twoClass class1 class2 emf => ∃ rest,
      heap.cell ic = .cons class1 rest ∧ Registered heap classTable class1 ∧
        heap.cell rest = .cons class2 emf ∧ Registered heap classTable class2
  | .readers entries => Entries heap (fun idx => idx) ic entries
  | .writers entries => Entries heap (fun idx => -1 - idx) ic entries

structure GenericFunction (heap : Heap Obj) (classTable : Obj → Option Obj) where
  obj : Obj
  ic : Obj
  slot : heap.icSlot obj = some ic
  shape : Shape Obj
  holds : Holds heap classTable ic shape

inductive Probe (Obj : Type) where
  | emf1 (a : Obj)
  | emf2 (a b : Obj)
  | reader (obj : Obj)
  | writer (val obj : Obj)

variable [DecidableEq Obj]

def entryFor (entries : List (Entry Obj)) (typeDesc : Obj) : Option (Entry Obj) :=
  (entries.take Heap.readerIcMax).find? fun entry => entry.typeName = typeDesc

/-- A probe hits only an entry of its own shape, and that for the classes of its arguments.  A
reader that finds the unbound marker misses. -/
def Exact (heap : Heap Obj) (classTable : Obj → Option Obj) (classT : Obj)
    (gf : GenericFunction heap classTable) : Probe Obj → Prop
  | .emf1 a => heap.biGfIcEmf gf.obj a none ≠ heap.nil →
      ∃ cls, gf.shape = .oneClass cls (heap.biGfIcEmf gf.obj a none) ∧
        classOf heap classTable classT a = cls
  | .emf2 a b => heap.biGfIcEmf gf.obj a (some b) ≠ heap.nil →
      ∃ class1 class2, gf.shape = .twoClass class1 class2 (heap.biGfIcEmf gf.obj a (some b)) ∧
        classOf heap classTable classT a = class1 ∧ classOf heap classTable classT b = class2
  | .reader obj =>
      (∀ v, heap.clGfReaderIcProbe gf.obj obj = some v →
        ∃ entries entry typeDesc slots, gf.shape = .readers entries ∧
          heap.cell obj = .struct typeDesc slots ∧ entryFor entries typeDesc = some entry ∧
          slots[entry.index]? = some v) ∧
      heap.clGfReaderIcProbe gf.obj obj ≠ some heap.slotUnboundMarker
  | .writer val obj => ∀ cells, heap.clGfWriterIcProbe gf.obj val obj = some cells →
      ∃ entries entry typeDesc slots, gf.shape = .writers entries ∧
        heap.cell obj = .struct typeDesc slots ∧ entryFor entries typeDesc = some entry ∧
        entry.index < slots.length ∧
        cells = heap.storeSlot obj typeDesc slots entry.index val

/-- A probe for one receiver meets an entry for two whose first class is that of the receiver. -/
def MeetsPair (heap : Heap Obj) {classTable : Obj → Option Obj}
    (gf : GenericFunction heap classTable) : Probe Obj → Prop
  | .emf1 a => ∃ class1 class2 emf, gf.shape = .twoClass class1 class2 emf ∧
      Named heap class1 (heap.classOfTypeName a)
  | _ => False

section Probes

variable {heap : Heap Obj} {classTable : Obj → Option Obj} {classT : Obj}

theorem clClassNamedP_iff {cls name : Obj} :
    heap.clClassNamedP cls name = true ↔ Named heap cls name := by
  unfold Heap.clClassNamedP Named
  split
  · rename_i typeDesc slot slots here
    rw [here, decide_eq_true_iff]
    constructor
    · rintro rfl
      exact ⟨typeDesc, slots, rfl⟩
    · rintro ⟨_, _, same⟩
      cases same
      rfl
  · rename_i other
    refine iff_of_false (by simp) ?_
    rintro ⟨typeDesc, slots, here⟩
    exact other typeDesc name slots here

omit [DecidableEq Obj] in
theorem classOf_of_named {cls obj : Obj} (registered : Registered heap classTable cls)
    (named : Named heap cls (heap.classOfTypeName obj)) :
    classOf heap classTable classT obj = cls := by
  obtain ⟨name, ⟨typeDesc, slots, here⟩, listed⟩ := registered
  obtain ⟨typeDesc', slots', there⟩ := named
  rw [here] at there
  cases there
  rw [classOf, listed, Option.getD_some]

omit [DecidableEq Obj] in
theorem Registered.ne_cons {cls : Obj} (registered : Registered heap classTable cls)
    (car cdr : Obj) : heap.cell cls ≠ .cons car cdr := by
  obtain ⟨name, ⟨typeDesc, slots, here⟩, -⟩ := registered
  rw [here]
  exact nofun

theorem clClassNamedP_cons {pair car cdr : Obj} (held : heap.cell pair = .cons car cdr)
    (name : Obj) : heap.clClassNamedP pair name = false := by
  rw [Heap.clClassNamedP, held]

variable {entries : List (Entry Obj)}

theorem biGfIcEmf_entries {gf ic : Obj} (slot : heap.icSlot gf = some ic)
    {encode : Nat → Int} (listed : Entries heap encode ic entries)
    (a : Obj) (b : Option Obj) : heap.biGfIcEmf gf a b = heap.nil := by
  rw [Heap.biGfIcEmf, slot]
  cases listed with
  | nil => simp [heap.cell_nil]
  | cons spine held fixnum more => simp [spine, clClassNamedP_cons held]

attribute [local simp] Heap.readerLoop Heap.writerLoop

theorem readerLoop_entries {ic : Obj}
    (listed : Entries heap (fun idx => idx) ic entries) (typeDesc : Obj) (slots : List Obj)
    (left : Nat) :
    heap.readerLoop typeDesc slots left ic =
      ((entries.take left).find? fun entry => entry.typeName = typeDesc).bind
        fun entry => heap.readSlot slots entry.index := by
  induction listed generalizing left with
  | nil => cases left <;> simp [Heap.readerLoop, heap.cell_nil]
  | cons spine held fixnum more induction =>
      cases left with
      | zero => rfl
      | succ left =>
          rw [Heap.readerLoop, spine, List.take_succ_cons, List.find?_cons]
          simp only [held, fixnum, induction]
          split <;> simp_all

theorem writerLoop_entries {ic : Obj}
    (listed : Entries heap (fun idx => -1 - idx) ic entries) (typeDesc : Obj) (slots : List Obj)
    (left : Nat) :
    heap.writerLoop typeDesc slots left ic =
      ((entries.take left).find? fun entry => entry.typeName = typeDesc).bind
        fun entry => if entry.index ≥ slots.length then none else some entry.index := by
  induction listed generalizing left with
  | nil => cases left <;> simp [Heap.writerLoop, heap.cell_nil]
  | @cons ic pair rest index entry entries spine held fixnum more induction =>
      cases left with
      | zero => rfl
      | succ left =>
          have negative : ¬ (-1 - (entry.index : Int) ≥ 0) := by omega
          have decoded : (-1 - (-1 - (entry.index : Int))).toNat = entry.index := by omega
          rw [Heap.writerLoop, spine, List.take_succ_cons, List.find?_cons]
          simp only [held, fixnum, if_neg negative, decoded, induction]
          split <;> simp_all

theorem readerLoop_writers {ic : Obj}
    (listed : Entries heap (fun idx => -1 - idx) ic entries) (typeDesc : Obj) (slots : List Obj)
    (left : Nat) : heap.readerLoop typeDesc slots left ic = none := by
  induction listed generalizing left with
  | nil => cases left <;> simp [Heap.readerLoop, heap.cell_nil]
  | @cons ic pair rest index entry entries spine held fixnum more induction =>
      cases left with
      | zero => rfl
      | succ left =>
          have negative : -1 - (entry.index : Int) < 0 := by omega
          rw [Heap.readerLoop, spine]
          simp only [held, fixnum, Heap.readSlot, if_pos negative, induction, ite_self]

theorem writerLoop_readers {ic : Obj}
    (listed : Entries heap (fun idx => idx) ic entries) (typeDesc : Obj) (slots : List Obj)
    (left : Nat) : heap.writerLoop typeDesc slots left ic = none := by
  cases left with
  | zero => rfl
  | succ left =>
      cases listed with
      | nil => simp [Heap.writerLoop, heap.cell_nil]
      | cons spine held fixnum more => simp [Heap.writerLoop, spine, held, fixnum]

theorem readerLoop_class {ic cls rest : Obj} (pair : heap.cell ic = .cons cls rest)
    (registered : Registered heap classTable cls) (typeDesc : Obj) (slots : List Obj)
    (left : Nat) : heap.readerLoop typeDesc slots left ic = none := by
  cases left with
  | zero => rfl
  | succ left =>
      rw [Heap.readerLoop, pair]
      dsimp only
      split
      · rename_i held
        exact absurd held (registered.ne_cons _ _)
      · rfl

theorem writerLoop_class {ic cls rest : Obj} (pair : heap.cell ic = .cons cls rest)
    (registered : Registered heap classTable cls) (typeDesc : Obj) (slots : List Obj)
    (left : Nat) : heap.writerLoop typeDesc slots left ic = none := by
  cases left with
  | zero => rfl
  | succ left =>
      rw [Heap.writerLoop, pair]
      dsimp only
      split
      · rename_i held
        exact absurd held (registered.ne_cons _ _)
      · rfl

theorem readSlot_eq_some {slots : List Obj} {idx : Nat} {v : Obj} :
    heap.readSlot slots idx = some v ↔ slots[idx]? = some v ∧ v ≠ heap.slotUnboundMarker := by
  unfold Heap.readSlot
  rw [if_neg (by omega), Int.toNat_natCast]
  cases slots[idx]? with
  | none => simp
  | some held =>
      by_cases marker : held = heap.slotUnboundMarker
      · simp_all
      · simp only [if_neg marker, Option.some.injEq]
        constructor
        · rintro rfl
          exact ⟨rfl, marker⟩
        · exact And.left

end Probes

section Hits

variable {heap : Heap Obj} {classTable : Obj → Option Obj} {classT : Obj}
  (gf : GenericFunction heap classTable)

theorem biGfIcEmf_one {gf ic class1 rest : Obj} (slot : heap.icSlot gf = some ic)
    (pair : heap.cell ic = .cons class1 rest) (a : Obj) :
    heap.biGfIcEmf gf a none =
      if heap.clClassNamedP class1 (heap.classOfTypeName a) then rest else heap.nil := by
  rw [Heap.biGfIcEmf, slot]
  simp only [pair]

theorem biGfIcEmf_two {gf ic class1 rest class2 emf : Obj} (slot : heap.icSlot gf = some ic)
    (pair : heap.cell ic = .cons class1 rest) (second : heap.cell rest = .cons class2 emf)
    (a b : Obj) :
    heap.biGfIcEmf gf a (some b) =
      if heap.clClassNamedP class1 (heap.classOfTypeName a) ∧
          heap.clClassNamedP class2 (heap.classOfTypeName b) then emf else heap.nil := by
  rw [Heap.biGfIcEmf, slot]
  simp only [pair, second, ite_and]

theorem biGfIcEmf_short {gf ic class1 rest : Obj} (slot : heap.icSlot gf = some ic)
    (pair : heap.cell ic = .cons class1 rest)
    (short : ∀ car cdr, heap.cell rest ≠ .cons car cdr) (a b : Obj) :
    heap.biGfIcEmf gf a (some b) = heap.nil := by
  rw [Heap.biGfIcEmf, slot]
  simp only [pair]
  cases second : heap.cell rest
  case cons car cdr => exact absurd second (short car cdr)
  all_goals exact ite_self _

/-- A probe with one argument is exact unless it meets the entry of a pair. -/
theorem emf1_exact (a : Obj) :
    Exact heap classTable classT gf (.emf1 a) ↔ ¬ MeetsPair heap gf (.emf1 a) := by
  obtain ⟨obj, ic, slot, shape, holds⟩ := gf
  cases shape with
  | oneClass cls emf =>
      obtain ⟨pair, registered, -⟩ := holds
      refine iff_of_true ?_ nofun
      dsimp only [Exact]
      rw [biGfIcEmf_one slot pair]
      split
      · rename_i named
        exact fun _ => ⟨cls, rfl, classOf_of_named registered (clClassNamedP_iff.mp named)⟩
      · exact fun hit => absurd rfl hit
  | twoClass class1 class2 emf =>
      obtain ⟨rest, pair, -, second, -⟩ := holds
      have used : rest ≠ heap.nil := by
        rintro rfl
        rw [heap.cell_nil] at second
        cases second
      dsimp only [Exact, MeetsPair]
      rw [biGfIcEmf_one slot pair]
      split
      · rename_i named
        refine iff_of_false ?_ ?_
        · intro exact
          obtain ⟨cls, shape, -⟩ := exact used
          cases shape
        · exact not_not.mpr ⟨class1, class2, emf, rfl, clClassNamedP_iff.mp named⟩
      · rename_i other
        refine iff_of_true (fun hit => absurd rfl hit) ?_
        rintro ⟨class1', class2', emf', shape, named⟩
        cases shape
        exact other (clClassNamedP_iff.mpr named)
  | readers entries =>
      refine iff_of_true ?_ nofun
      exact fun hit => absurd (biGfIcEmf_entries slot holds a none) hit
  | writers entries =>
      refine iff_of_true ?_ nofun
      exact fun hit => absurd (biGfIcEmf_entries slot holds a none) hit

/-- A probe with two arguments is exact. -/
theorem emf2_exact (a b : Obj) : Exact heap classTable classT gf (.emf2 a b) := by
  obtain ⟨obj, ic, slot, shape, holds⟩ := gf
  cases shape with
  | oneClass cls emf =>
      obtain ⟨pair, -, short⟩ := holds
      exact fun hit => absurd (biGfIcEmf_short slot pair short a b) hit
  | twoClass class1 class2 emf =>
      obtain ⟨rest, pair, registered1, second, registered2⟩ := holds
      dsimp only [Exact]
      rw [biGfIcEmf_two slot pair second]
      split
      · rename_i named
        exact fun _ => ⟨class1, class2, rfl,
          classOf_of_named registered1 (clClassNamedP_iff.mp named.1),
          classOf_of_named registered2 (clClassNamedP_iff.mp named.2)⟩
      · exact fun hit => absurd rfl hit
  | readers entries => exact fun hit => absurd (biGfIcEmf_entries slot holds a (some b)) hit
  | writers entries => exact fun hit => absurd (biGfIcEmf_entries slot holds a (some b)) hit

/-- A slot reader's probe is exact. -/
theorem reader_exact (obj : Obj) : Exact heap classTable classT gf (.reader obj) := by
  obtain ⟨gf, ic, slot, shape, holds⟩ := gf
  cases object : heap.cell obj
  case struct typeDesc slots =>
    have probe : heap.clGfReaderIcProbe gf obj =
        heap.readerLoop typeDesc slots Heap.readerIcMax ic := by
      rw [Heap.clGfReaderIcProbe, slot, object]
    dsimp only [Exact]
    rw [probe]
    cases shape with
    | oneClass cls emf =>
        rw [readerLoop_class holds.1 holds.2.1]
        exact ⟨nofun, nofun⟩
    | twoClass class1 class2 emf =>
        obtain ⟨rest, pair, registered, -, -⟩ := holds
        rw [readerLoop_class pair registered]
        exact ⟨nofun, nofun⟩
    | readers entries =>
        rw [readerLoop_entries holds]
        constructor
        · intro v hit
          obtain ⟨entry, first, read⟩ := Option.bind_eq_some_iff.mp hit
          exact ⟨entries, entry, typeDesc, slots, rfl, object, first, (readSlot_eq_some.mp read).1⟩
        · intro hit
          obtain ⟨entry, first, read⟩ := Option.bind_eq_some_iff.mp hit
          exact (readSlot_eq_some.mp read).2 rfl
    | writers entries =>
        rw [readerLoop_writers holds]
        exact ⟨nofun, nofun⟩
  all_goals
    have miss : heap.clGfReaderIcProbe gf obj = none := by
      rw [Heap.clGfReaderIcProbe, slot, object]
    dsimp only [Exact]
    rw [miss]
    exact ⟨nofun, nofun⟩

/-- A slot writer's probe is exact. -/
theorem writer_exact (val obj : Obj) : Exact heap classTable classT gf (.writer val obj) := by
  obtain ⟨gf, ic, slot, shape, holds⟩ := gf
  intro cells hit
  dsimp only at hit
  rw [Heap.clGfWriterIcProbe] at hit
  split at hit
  · rename_i typeDesc slots object
    split at hit
    · cases hit
    · rw [slot] at hit
      obtain ⟨idx, found, rfl⟩ := Option.map_eq_some_iff.mp hit
      cases shape with
      | oneClass cls emf =>
          rw [writerLoop_class holds.1 holds.2.1] at found
          cases found
      | twoClass class1 class2 emf =>
          obtain ⟨rest, pair, registered, -, -⟩ := holds
          rw [writerLoop_class pair registered] at found
          cases found
      | readers entries =>
          rw [writerLoop_readers holds] at found
          cases found
      | writers entries =>
          rw [writerLoop_entries holds] at found
          obtain ⟨entry, first, stored⟩ := Option.bind_eq_some_iff.mp found
          split at stored
          · cases stored
          · rename_i inside
            obtain rfl := Option.some.inj stored
            exact ⟨entries, entry, typeDesc, slots, rfl, object, first, Nat.not_le.mp inside, rfl⟩
  · cases hit

/-- A probe is exact unless it is for one receiver, on an entry for two classes, the first of which
is that of the receiver. -/
theorem probe_exact_iff (probe : Probe Obj) :
    Exact heap classTable classT gf probe ↔ ¬ MeetsPair heap gf probe := by
  cases probe with
  | emf1 a => exact emf1_exact gf a
  | emf2 a b => exact iff_of_true (emf2_exact gf a b) nofun
  | reader obj => exact iff_of_true (reader_exact gf obj) nofun
  | writer val obj => exact iff_of_true (writer_exact gf val obj) nofun

end Hits

/-- A generic function with an entry for the classes 3 and 5, and an instance of class 3. -/
def pairHeap : Heap Nat where
  nil := 0
  cell
    | 0 => .null
    | 1 => .struct 20 [21, 0, 0, 0, 0, 0, 0, 0, 2]
    | 2 => .cons 3 4
    | 3 => .struct 22 [10]
    | 4 => .cons 5 6
    | 5 => .struct 22 [11]
    | 6 => .function
    | 7 => .struct 10 []
    | _ => .symbol
  cell_nil := rfl
  className _ := 23
  slotUnboundMarker := 24

def pairTable : Nat → Option Nat
  | 10 => some 3
  | 11 => some 5
  | _ => none

def pairFunction : GenericFunction pairHeap pairTable where
  obj := 1
  ic := 2
  slot := rfl
  shape := .twoClass 3 5 6
  holds := ⟨4, rfl, ⟨10, ⟨22, [], rfl⟩, rfl⟩, rfl, ⟨11, ⟨22, [], rfl⟩, rfl⟩⟩

/-- The probe for the instance alone answers with the rest of the entry. -/
theorem pair_hit : ¬ Exact pairHeap pairTable 0 pairFunction (.emf1 7) := by
  intro exact
  obtain ⟨cls, shape, -⟩ := exact (by decide)
  cases shape

end ClAmiga.Clos.InlineCache
