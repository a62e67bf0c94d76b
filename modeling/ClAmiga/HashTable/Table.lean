import ClAmiga.Chain.Buckets
import ClAmiga.HashTable.Keys

/-!
# Hash tables

The operations of `builtins_hashtable.c` on one table, with the places of all objects
as part of the state: each allocation may run the compacting collector, which moves
objects and rehashes the table.  The lock of a synchronized table is left out, as the
operations here come one after another.
-/

namespace ClAmiga.HashTable

variable {V : Type}

/-- `CL_HT_MAX_BUCKETS` -/
def maxBuckets : Nat := 2 ^ 20

/-- A hash table: the chains of pairs of key and value, in `buckets` or `bucket_vec`. -/
structure Table (V : Type) where
  test : Test
  count : Nat
  buckets : List (List (Obj × V))

structure Store (V : Type) where
  places : Places
  table : Table V

namespace Table

/-- `hash_obj(key, ht->test) & (ht->bucket_count - 1)` -/
def index (places : Places) (test : Test) (bucketCount : Nat) (key : Obj) : Nat :=
  (hashObj places test key).toNat &&& (bucketCount - 1)

def bucketIndex (places : Places) (t : Table V) (key : Obj) : Nat :=
  index places t.test t.buckets.length key

def find (places : Places) (t : Table V) (key : Obj) : Option (Obj × V) :=
  (Chain.chain t.buckets (t.bucketIndex places key)).find? fun pair => keysEqual t.test pair.1 key

/-- The loop of `ht_maybe_rehash` and `ht_rehash_into`: each cell is spliced into its new
bucket. -/
def relink (places : Places) (t : Table V) (newCount : Nat) : Table V :=
  let splice (new : List (List (Obj × V))) (pair : Obj × V) : List (List (Obj × V)) :=
    new.modify (index places t.test newCount pair.1) (pair :: ·)
  let buckets := t.buckets.foldl (fun new chain => chain.foldl splice new) (Chain.empty newCount)
  { t with buckets }

/-- `gc_rehash_table`: the cells are collected in one list, front first, and spliced into
the emptied buckets. -/
def gcRehash (places : Places) (t : Table V) : Table V :=
  if t.buckets.any fun chain => chain.any fun pair => addrSensitive t.test pair.1 then
    let allEntries := t.buckets.foldl
      (fun entries chain => chain.foldl (fun entries pair => pair :: entries) entries) []
    let splice (new : List (List (Obj × V))) (pair : Obj × V) : List (List (Obj × V)) :=
      new.modify (index places t.test t.buckets.length pair.1) (pair :: ·)
    { t with buckets := allEntries.foldl splice (Chain.empty t.buckets.length) }
  else t

def setPair (test : Test) (key : Obj) (value : V) : List (Obj × V) → List (Obj × V) :=
  Chain.replaceFirst (fun pair => keysEqual test pair.1 key) fun pair => (pair.1, value)

def update (places : Places) (t : Table V) (key : Obj) (value : V) : Table V :=
  { t with buckets := t.buckets.modify (t.bucketIndex places key) (setPair t.test key value) }

def insert (places : Places) (t : Table V) (key : Obj) (value : V) : Table V :=
  { t with
    buckets := t.buckets.modify (t.bucketIndex places key) ((key, value) :: ·)
    count := t.count + 1 }

end Table

namespace Store

def collect (s : Store V) (places : Places) : Store V :=
  { places, table := if 0 < s.table.count then s.table.gcRehash places else s.table }

def allocate (s : Store V) (moved : Option Places) : Store V :=
  match moved with
  | some places => s.collect places
  | none => s

end Store

/-- What the allocations of an operation do: of the pair, of the chain cell and of the
bucket vector, and whether there is a bucket vector at all. -/
structure Allocations where
  pair : Option Places
  cell : Option Places
  vector : Option Places
  vectorFails : Bool

/-- `ht_maybe_rehash` -/
def htMaybeRehash (s : Store V) (alloc : Allocations) : Store V :=
  let oldCount := s.table.buckets.length
  let newCount := oldCount * 2
  if s.table.count ≤ oldCount * 3 / 4 then s
  else if newCount > maxBuckets then s
  else
    let s := s.allocate alloc.vector
    if alloc.vectorFails then s
    else { s with table := s.table.relink s.places newCount }

def biGethash (s : Store V) (key : Obj) (default : V) : V × Bool :=
  match s.table.find s.places key with
  | some pair => (pair.2, true)
  | none => (default, false)

def biSetfGethash (s : Store V) (key : Obj) (value : V) (alloc : Allocations) : Store V :=
  match s.table.find s.places key with
  | some _ => { s with table := s.table.update s.places key value }
  | none =>
      let s := (s.allocate alloc.pair).allocate alloc.cell
      htMaybeRehash { s with table := s.table.insert s.places key value } alloc

/-- The critical section of `bi_setf_gethash_sync`, with the length of the bucket vector
that was allocated for it. -/
def syncSection (s : Store V) (key : Obj) (value : V) (preVec : Option Nat) : Store V :=
  match s.table.find s.places key with
  | some _ => { s with table := s.table.update s.places key value }
  | none =>
      let t := s.table.insert s.places key value
      match preVec with
      | some length =>
          if t.count > t.buckets.length * 3 / 4 ∧ length = t.buckets.length * 2 then
            { s with table := t.relink s.places length }
          else { s with table := t }
      | none => { s with table := t }

/-- The insertion into a synchronized table: everything is allocated before the table is
looked at. -/
def biSetfGethashSync (s : Store V) (key : Obj) (value : V) (alloc : Allocations) : Store V :=
  let s := (s.allocate alloc.pair).allocate alloc.cell
  let prealloc := s.table.buckets.length
  if s.table.count + 1 > prealloc * 3 / 4 ∧ prealloc * 2 ≤ maxBuckets then
    syncSection (s.allocate alloc.vector) key value
      (if alloc.vectorFails then none else some (prealloc * 2))
  else syncSection s key value none

def biRemhash (s : Store V) (key : Obj) : Store V × Bool :=
  let t := s.table
  match t.find s.places key with
  | some _ =>
      ({ s with
        table := { t with
          buckets := t.buckets.modify (t.bucketIndex s.places key)
            (·.eraseP fun pair => keysEqual t.test pair.1 key)
          count := t.count - 1 } }, true)
  | none => (s, false)

def biClrhash (s : Store V) : Store V :=
  { s with table := { s.table with
      buckets := s.table.buckets.map fun _ => []
      count := 0 } }

/-- `while (p < bucket_count) p <<= 1`, for at most the width of a word. -/
def roundUp (bucketCount : Nat) : Nat → Nat → Nat
  | 0, p => p
  | fuel + 1, p => if p < bucketCount then roundUp bucketCount fuel (p * 2) else p

/-- `cl_make_hashtable` -/
def clMakeHashtable (bucketCount : Nat) (test : Test) : Table V :=
  { test, count := 0, buckets := Chain.empty (roundUp (max bucketCount 2) 32 1) }

/-- `bi_make_hash_table` with its test and `:size`. -/
def biMakeHashTable (test : Test) (size : Option Nat) : Table V :=
  match size with
  | none => clMakeHashtable 16 test
  | some size =>
      let requested := min (max size 1) maxBuckets
      clMakeHashtable (min ((requested * 4 + 2) / 3) maxBuckets) test

inductive Command (V : Type) where
  | gethash (key : Obj) (default : V)
  | setfGethash (key : Obj) (value : V) (alloc : Allocations)
  | setfGethashSync (key : Obj) (value : V) (alloc : Allocations)
  | remhash (key : Obj)
  | clrhash
  | count
  | collect (places : Places)

inductive Reply (V : Type) where
  | value (value : V) (found : Bool)
  | removed (found : Bool)
  | count (n : Nat)
  | done
  deriving DecidableEq

def step (s : Store V) : Command V → Store V × Reply V
  | .gethash key default =>
      let (value, found) := biGethash s key default
      (s, .value value found)
  | .setfGethash key value alloc => (biSetfGethash s key value alloc, .done)
  | .setfGethashSync key value alloc => (biSetfGethashSync s key value alloc, .done)
  | .remhash key =>
      let (s, found) := biRemhash s key
      (s, .removed found)
  | .clrhash => (biClrhash s, .done)
  | .count => (s, .count s.table.count)
  | .collect places => (s.collect places, .done)

def run (s : Store V) : List (Command V) → Store V × List (Reply V)
  | [] => (s, [])
  | command :: rest =>
      let (s, reply) := step s command
      let (s, replies) := run s rest
      (s, reply :: replies)

end ClAmiga.HashTable
