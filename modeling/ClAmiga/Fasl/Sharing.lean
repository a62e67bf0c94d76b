import ClAmiga.Gc.Forward
import ClAmiga.Probe.Update

/-!
# The sharing table of the writer

Objects that are written more than once get ids, which a table with linear probing finds again.
The table doubles when it is half full; where there is no memory for that, it is filled further.
-/

namespace ClAmiga.Fasl.Sharing

open Gc (Host)

/-- `CL_Obj` -/
abbrev Obj := BitVec 32

/-- `FASL_MAX_SHARED` -/
def faslMaxShared : Nat := 65535

/-- `FASL_SHARED_HASH_INIT_CAP` -/
def initCap : Nat := 64

/-- `FASL_SHARED_HASH_MAX_CAP` -/
def maxCap : Nat := 131072

/-- `fasl_obj_hash` -/
def faslObjHash (host : Host) (obj : Obj) : Nat :=
  ((obj >>> host.alignShift) * 2654435769#32).toNat

/-- `shared_objs`, `shared_count`, `shared_hash` and `shared_hash_cap` of a writer; the arrays are
allocated when they are first needed. -/
structure Writer where
  sharedObjs : Option (Nat → Obj)
  sharedCount : Nat
  sharedHash : Option (Nat → Nat)
  sharedHashCap : Nat

/-- The fields after `cl_fasl_writer_init`. -/
def Writer.init : Writer where
  sharedObjs := none
  sharedCount := 0
  sharedHash := none
  sharedHashCap := 0

structure Tables where
  objs : Nat → Obj
  count : Nat
  hash : Nat → Nat
  cap : Nat

def Tables.writer (tables : Tables) : Writer where
  sharedObjs := some tables.objs
  sharedCount := tables.count
  sharedHash := some tables.hash
  sharedHashCap := tables.cap

/-- What `platform_alloc` gives a call: the unspecified contents of `shared_objs`, and whether there
is memory for a first and for a larger hash table. -/
structure Memory where
  objs : Option (Nat → Obj)
  hash : Bool
  resize : Bool

inductive Found where
  | hit (id : Nat)
  | free (slot : Nat)
deriving DecidableEq, Repr

/-- The probe loop of `fasl_shared_get_or_insert` and `fasl_shared_lookup`, for a bounded number of
rounds. -/
def probeLoop (tables : Tables) (obj : Obj) : Nat → Nat → Option Found
  | 0, _ => none
  | rounds + 1, slot =>
      let entry := tables.hash slot
      if entry = 0 then some (.free slot)
      else if tables.objs (entry - 1) = obj then some (.hit (entry - 1))
      else probeLoop tables obj rounds ((slot + 1) &&& (tables.cap - 1))

/-- The loop of `fasl_shared_hash_resize` to the first empty slot. -/
def emptyLoop (newTable : Nat → Nat) (mask : Nat) : Nat → Nat → Option Nat
  | 0, _ => none
  | rounds + 1, slot =>
      if newTable slot = 0 then some slot
      else emptyLoop newTable mask rounds ((slot + 1) &&& mask)

section Writer

variable (rounds : Nat) (host : Host)

def rehash (objs : Nat → Obj) (mask : Nat) (newTable : Nat → Nat) (i : Nat) :
    Option (Nat → Nat) := do
  let slot ← emptyLoop newTable mask rounds (faslObjHash host (objs i) &&& mask)
  return Function.update newTable slot ((i + 1) % 2 ^ 16)

/-- `fasl_shared_hash_resize`; without memory the table is kept. -/
def faslSharedHashResize (tables : Tables) (newCap : Nat) (memory : Bool) : Option Tables :=
  if memory then do
    let newTable ← (List.range tables.count).foldlM (rehash rounds host tables.objs (newCap - 1))
      fun _ => 0
    return { tables with hash := newTable, cap := newCap }
  else some tables

/-- Where both arrays are there or can be allocated, the tables, else the writer that is left. -/
def allocate (memory : Memory) (w : Writer) : Except Writer Tables :=
  match w.sharedObjs.or memory.objs with
  | none => .error w
  | some objs =>
      match w.sharedHash with
      | some hash => .ok ⟨objs, w.sharedCount, hash, w.sharedHashCap⟩
      | none =>
          if memory.hash then .ok ⟨objs, w.sharedCount, fun _ => 0, initCap⟩
          else .error { w with sharedObjs := some objs, sharedHashCap := 0 }

def grow (memory : Bool) (tables : Tables) : Option Tables :=
  if tables.count + 1 > tables.cap / 2 ∧ tables.cap < maxCap then
    faslSharedHashResize rounds host tables (min (tables.cap * 2) maxCap) memory
  else some tables

/-- What a call answers: the id of an object that was there or that was inserted, that it cannot be
inserted, or that it is not there. -/
inductive Outcome where
  | hit (id : Nat)
  | inserted (id : Nat)
  | unable
  | absent
deriving DecidableEq, Repr

/-- The end of `fasl_shared_get_or_insert`: the object was there, or it is inserted. -/
def store (tables : Tables) (obj : Obj) : Found → Writer × Outcome
  | .hit id => (tables.writer, .hit id)
  | .free slot =>
      if tables.count ≥ faslMaxShared then (tables.writer, .unable)
      else
        (Tables.writer
          { objs := Function.update tables.objs tables.count obj
            count := (tables.count + 1) % 2 ^ 16
            hash := Function.update tables.hash slot ((tables.count + 1) % 2 ^ 16)
            cap := tables.cap }, .inserted tables.count)

/-- `fasl_shared_get_or_insert` -/
def faslSharedGetOrInsert (memory : Memory) (w : Writer) (obj : Obj) :
    Option (Writer × Outcome) :=
  match allocate memory w with
  | .error w => some (w, .unable)
  | .ok tables => do
      let tables ← grow rounds host memory.resize tables
      let found ← probeLoop tables obj rounds (faslObjHash host obj &&& (tables.cap - 1))
      return store tables obj found

/-- The result of `fasl_shared_lookup` by where the probe ends. -/
def Found.answer : Found → Outcome
  | .hit id => .hit id
  | .free _ => .absent

/-- `fasl_shared_lookup` -/
def faslSharedLookup (w : Writer) (obj : Obj) : Option (Writer × Outcome) :=
  match w.sharedObjs, w.sharedHash with
  | some objs, some hash =>
      if w.sharedHashCap = 0 then some (w, .absent)
      else do
        let tables := ⟨objs, w.sharedCount, hash, w.sharedHashCap⟩
        let found ← probeLoop tables obj rounds (faslObjHash host obj &&& (w.sharedHashCap - 1))
        return (w, found.answer)
  | _, _ => some (w, .absent)

inductive Op where
  | lookup (obj : Obj)
  | getOrInsert (memory : Memory) (obj : Obj)

def Op.run (w : Writer) : Op → Option (Writer × Outcome)
  | .lookup obj => faslSharedLookup rounds host w obj
  | .getOrInsert memory obj => faslSharedGetOrInsert rounds host memory w obj

end Writer

def Ends {α : Type} (run : Nat → Option α) (result : α) : Prop :=
  ∃ bound, ∀ rounds, bound ≤ rounds → run rounds = some result

/-- The answer of a call after the objects that were inserted so far, and these after the call. -/
inductive Answers : List Obj → Op → Outcome → List Obj → Prop where
  | found {inserted : List Obj} {obj : Obj} {id : Nat} (first : inserted.idxOf? obj = some id) :
      Answers inserted (.lookup obj) (.hit id) inserted
  | absent {inserted : List Obj} {obj : Obj} (new : obj ∉ inserted) :
      Answers inserted (.lookup obj) .absent inserted
  | hit {inserted : List Obj} {memory : Memory} {obj : Obj} {id : Nat}
      (first : inserted.idxOf? obj = some id) :
      Answers inserted (.getOrInsert memory obj) (.hit id) inserted
  | inserted {inserted : List Obj} {memory : Memory} {obj : Obj} (new : obj ∉ inserted) :
      Answers inserted (.getOrInsert memory obj) (.inserted inserted.length) (inserted ++ [obj])
  | unable {inserted : List Obj} {memory : Memory} {obj : Obj} (new : obj ∉ inserted)
      (refused : inserted.length = faslMaxShared ∨
        inserted = [] ∧ (memory.objs = none ∨ memory.hash = false)) :
      Answers inserted (.getOrInsert memory obj) .unable inserted

def Shares (host : Host) : Writer → List Obj → List Op → Prop
  | _, _, [] => True
  | w, inserted, op :: ops => ∃ after outcome inserted',
      Ends (fun rounds => op.run rounds host w) (after, outcome) ∧
        Answers inserted op outcome inserted' ∧ Shares host after inserted' ops

/-- A slot of the hash table is free, the object is in it, or there is memory for a larger one. -/
def Room (w : Writer) (op : Op) : Prop :=
  match w.sharedObjs, w.sharedHash with
  | some objs, some _ =>
      w.sharedCount < w.sharedHashCap ∨
        match op with
        | .lookup obj => ∃ i < w.sharedCount, objs i = obj
        | .getOrInsert memory obj => (∃ i < w.sharedCount, objs i = obj) ∨ memory.resize = true
  | _, _ => True

def AllRoom (host : Host) : Writer → List Op → Prop
  | _, [] => True
  | w, op :: ops => Room w op ∧
      ∀ after outcome, Ends (fun rounds => op.run rounds host w) (after, outcome) →
        AllRoom host after ops

end ClAmiga.Fasl.Sharing
