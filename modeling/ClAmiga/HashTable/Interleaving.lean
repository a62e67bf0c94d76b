import ClAmiga.HashTable.Agreement
import Mathlib.Logic.Function.Basic

/-!
# Threads on a synchronized table

`bi_setf_gethash_sync`, `bi_gethash`, `bi_remhash` and `bi_clrhash` on one table with
`CL_HT_FLAG_SYNC`, one step for each access to the table, for each allocation and for
`ht_sync_mutex`.  An allocation may run the collector; as the sections under the mutex do
not allocate, no collection comes while a thread holds it.  Outside of the sections a
thread reads the bucket count and the entry count only.
-/

namespace ClAmiga.HashTable

open Chain

inductive Request (V : Type) where
  | gethash (key : Obj) (default : V)
  | setfGethash (key : Obj) (value : V)
  | remhash (key : Obj)
  | clrhash

/-- A section under the mutex; for an insertion with the length of the bucket vector that
was allocated outside of it. -/
inductive Section (V : Type) where
  | gethash (key : Obj) (default : V)
  | setfGethash (key : Obj) (value : V) (preVec : Option Nat)
  | remhash (key : Obj)
  | clrhash

inductive Pc (V : Type) where
  | idle
  /-- `pair = cl_cons(key, value)` -/
  | pair (key : Obj) (value : V)
  /-- `new_chain = cl_cons(pair, CL_NIL)` -/
  | cell (key : Obj) (value : V)
  /-- `prealloc_buckets = ht->bucket_count` -/
  | predict (key : Obj) (value : V)
  /-- `ht->count + 1 > (prealloc_buckets * 3) / 4` -/
  | compare (key : Obj) (value : V) (prealloc : Nat)
  /-- `pre_vec = cl_make_vector(prealloc_buckets * 2)` -/
  | vector (key : Obj) (value : V) (prealloc : Nat)
  /-- `ht_sync_enter(ht)` -/
  | enter (sec : Section V)
  /-- the mutex is held, the chain is searched next -/
  | search (sec : Section V)
  /-- the new cell is in its chain; `ht->count++` -/
  | spliced (key : Obj) (value : V) (preVec : Option Nat)
  /-- the entry is counted; the load factor is checked next -/
  | counted (key : Obj) (value : V) (preVec : Option Nat)
  /-- a cell is out of its chain; `ht->count--` -/
  | unlinked (key : Obj)
  /-- the buckets are empty; `ht->count = 0` -/
  | cleared
  /-- `ht_sync_leave(locked)` -/
  | leave (sec : Section V) (reply : Reply V)

inductive Event (Tid V : Type) where
  | ran (t : Tid) (sec : Section V) (reply : Reply V)
  | collected (places : Places)

structure System (Tid V : Type) where
  store : Store V
  /-- the holder of `ht_sync_mutex` -/
  mutex : Option Tid
  pc : Tid → Pc V
  /-- history: the sections that were left and the collections -/
  events : List (Event Tid V)

inductive Action (Tid V : Type) where
  | start (t : Tid) (request : Request V)
  /-- the next step of a thread, with what its allocation does -/
  | go (t : Tid) (moved : Option Places) (vectorFails : Bool)
  /-- a collection that another thread causes -/
  | collect (places : Places)

variable {Tid V : Type} [DecidableEq Tid]

namespace System

@[simps]
def goto (w : System Tid V) (t : Tid) (pc : Pc V) : System Tid V :=
  { w with pc := Function.update w.pc t pc }

@[simps]
def setTable (w : System Tid V) (table : Table V) : System Tid V :=
  { w with store := { w.store with table } }

/-- The world is stopped only when every thread is at a safe point. -/
def collect (w : System Tid V) (places : Places) : Option (System Tid V) :=
  match w.mutex with
  | none =>
      some { w with
        store := w.store.collect places
        events := w.events ++ [.collected places] }
  | some _ => none

def allocate (w : System Tid V) : Option Places → Option (System Tid V)
  | none => some w
  | some places => w.collect places

def start (w : System Tid V) (t : Tid) : Request V → System Tid V
  | .gethash key default => w.goto t (.enter (.gethash key default))
  | .setfGethash key value => w.goto t (.pair key value)
  | .remhash key => w.goto t (.enter (.remhash key))
  | .clrhash => w.goto t (.enter .clrhash)

/-- The search of a section, with the change of the chain that follows it. -/
def search (w : System Tid V) (t : Tid) : Section V → System Tid V
  | .gethash key default =>
      let (value, found) := biGethash w.store key default
      w.goto t (.leave (.gethash key default) (.value value found))
  | .setfGethash key value preVec =>
      match w.store.table.find w.store.places key with
      | some _ =>
          (w.setTable (w.store.table.update w.store.places key value)).goto t
            (.leave (.setfGethash key value preVec) .done)
      | none =>
          let table := w.store.table
          let buckets := table.buckets.modify (table.bucketIndex w.store.places key)
            ((key, value) :: ·)
          (w.setTable { table with buckets }).goto t (.spliced key value preVec)
  | .remhash key =>
      let table := w.store.table
      match table.find w.store.places key with
      | some _ =>
          let buckets := table.buckets.modify (table.bucketIndex w.store.places key)
            (·.eraseP fun pair => keysEqual table.test pair.1 key)
          (w.setTable { table with buckets }).goto t (.unlinked key)
      | none => w.goto t (.leave (.remhash key) (.removed false))
  | .clrhash =>
      let table := w.store.table
      (w.setTable { table with buckets := table.buckets.map fun _ => [] }).goto t .cleared

def grow (w : System Tid V) (t : Tid) (key : Obj) (value : V) (preVec : Option Nat) :
    System Tid V :=
  let table := w.store.table
  let pc : Pc V := .leave (.setfGethash key value preVec) .done
  match preVec with
  | some length =>
      if table.count > table.buckets.length * 3 / 4 ∧ length = table.buckets.length * 2 then
        (w.setTable (table.relink w.store.places length)).goto t pc
      else w.goto t pc
  | none => w.goto t pc

def go (w : System Tid V) (t : Tid) (moved : Option Places) (vectorFails : Bool) :
    Option (System Tid V) :=
  match w.pc t with
  | .idle => none
  | .pair key value => (w.allocate moved).map (·.goto t (.cell key value))
  | .cell key value => (w.allocate moved).map (·.goto t (.predict key value))
  | .predict key value => some (w.goto t (.compare key value w.store.table.buckets.length))
  | .compare key value prealloc =>
      if w.store.table.count + 1 > prealloc * 3 / 4 ∧ prealloc * 2 ≤ maxBuckets then
        some (w.goto t (.vector key value prealloc))
      else some (w.goto t (.enter (.setfGethash key value none)))
  | .vector key value prealloc =>
      let preVec := if vectorFails then none else some (prealloc * 2)
      (w.allocate moved).map (·.goto t (.enter (.setfGethash key value preVec)))
  | .enter sec =>
      match w.mutex with
      | none => some ({ w with mutex := some t }.goto t (.search sec))
      | some _ => none
  | .search sec => some (w.search t sec)
  | .spliced key value preVec =>
      let table := w.store.table
      some ((w.setTable { table with count := table.count + 1 }).goto t (.counted key value preVec))
  | .counted key value preVec => some (w.grow t key value preVec)
  | .unlinked key =>
      let table := w.store.table
      some ((w.setTable { table with count := table.count - 1 }).goto t
        (.leave (.remhash key) (.removed true)))
  | .cleared =>
      some ((w.setTable { w.store.table with count := 0 }).goto t (.leave .clrhash .done))
  | .leave sec reply =>
      some ({ w with mutex := none, events := w.events ++ [Event.ran t sec reply] }.goto t .idle)

def step (w : System Tid V) : Action Tid V → Option (System Tid V)
  | .start t request =>
      match w.pc t with
      | .idle => some (w.start t request)
      | _ => none
  | .go t moved vectorFails => w.go t moved vectorFails
  | .collect places => w.collect places

def run (w : System Tid V) : List (Action Tid V) → Option (System Tid V)
  | [] => some w
  | action :: rest => (w.step action).bind (·.run rest)

end System

def System.initial (Tid : Type) (store : Store V) : System Tid V :=
  ⟨store, none, fun _ => .idle, []⟩

/-- `bi_make_sync_hash_table` -/
def biMakeSyncHashTable (test : Test) : Table V :=
  clMakeHashtable 16 test

end ClAmiga.HashTable
