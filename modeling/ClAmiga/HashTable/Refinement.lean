import ClAmiga.HashTable.Settled

/-!
# Hash tables are finite maps

`Represents` relates a hash table to a finite map modulo its test: every entry stands in
the bucket of its hash at the present places of the objects, the entries are those of the
map, and the count is their number.  Each operation, each growth and each compaction keeps
the relation and answers as the map does.
-/

namespace ClAmiga.HashTable

open Chain

variable {V : Type}

/-- The condition on the keys of a run: on them the test is an equivalence, the table
compares keys as the test does, and the bits of the hash that select a bucket are the
same for keys that the test identifies. -/
structure Keyed (tables : Nat → Nat → Bool) (test : Test) (keys : Set Obj) : Prop where
  equiv : EquivOn (test.holds tables) keys
  compared : ∀ a ∈ keys, ∀ b ∈ keys, keysEqual test a b = test.holds tables a b
  hashed : ∀ places, ∀ a ∈ keys, ∀ b ∈ keys, test.holds tables a b = true →
    (hashObj places test a).toNat % maxBuckets = (hashObj places test b).toNat % maxBuckets

/-- A command on a finite map modulo a test. -/
def mapStep (same : Obj → Obj → Bool) (entries : List (Obj × V)) :
    Command V → List (Obj × V) × Reply V
  | .gethash key default =>
      match get same key entries with
      | some pair => (entries, .value pair.2 true)
      | none => (entries, .value default false)
  | .setfGethash key value _ | .setfGethashSync key value _ => (put same key value entries, .done)
  | .remhash key => (delete same key entries, .removed (get same key entries).isSome)
  | .clrhash => ([], .done)
  | .count => (entries, .count entries.length)
  | .collect _ => (entries, .done)

def mapRun (same : Obj → Obj → Bool) (entries : List (Obj × V)) :
    List (Command V) → List (Obj × V) × List (Reply V)
  | [] => (entries, [])
  | command :: rest =>
      let (entries, reply) := mapStep same entries command
      let (entries, replies) := mapRun same entries rest
      (entries, reply :: replies)

structure Represents (tables : Nat → Nat → Bool) (test : Test) (keys : Set Obj) (s : Store V)
    (entries : List (Obj × V)) : Prop where
  tested : s.table.test = test
  sized : ∃ n, n ≤ 20 ∧ s.table.buckets.length = 2 ^ n
  placed : Placed (fun pair => s.table.bucketIndex s.places pair.1) s.table.buckets
  contents : s.table.buckets.flatten.Perm entries
  counted : s.table.count = entries.length
  distinct : Distinct (test.holds tables) entries
  members : ∀ pair ∈ entries, pair.1 ∈ keys

variable {tables : Nat → Nat → Bool} {test : Test} {keys : Set Obj} {s : Store V}
  {entries : List (Obj × V)}

namespace Represents

theorem settled (represents : Represents tables test keys s entries) : s.Settled where
  positive := by
    obtain ⟨n, -, sized⟩ := represents.sized
    rw [sized]
    exact Nat.two_pow_pos n
  placed := represents.placed
  counted := by rw [represents.counted, represents.contents.length_eq]

theorem bucketIndex_congr (keyed : Keyed tables test keys)
    (represents : Represents tables test keys s entries) {a b : Obj} (aKey : a ∈ keys)
    (bKey : b ∈ keys) (same : test.holds tables a b = true) :
    s.table.bucketIndex s.places a = s.table.bucketIndex s.places b := by
  obtain ⟨n, small, sized⟩ := represents.sized
  rw [Table.bucketIndex, Table.bucketIndex, sized, represents.tested]
  exact index_congr small (keyed.hashed s.places a aKey b bKey same)

variable {key : Obj}

theorem find_eq (keyed : Keyed tables test keys)
    (represents : Represents tables test keys s entries) (keyMember : key ∈ keys) :
    s.table.find s.places key = get (test.holds tables) key entries := by
  have inside : ∀ pair ∈ chain s.table.buckets (s.table.bucketIndex s.places key),
      pair ∈ entries := fun pair member =>
    represents.contents.mem_iff.mp (mem_flatten_of_mem_chain member)
  have compared : ∀ pair ∈ entries,
      keysEqual s.table.test pair.1 key = test.holds tables pair.1 key := by
    intro pair member
    rw [represents.tested]
    exact keyed.compared _ (represents.members pair member) _ keyMember
  cases found : s.table.find s.places key with
  | some pair =>
      have inChain := List.mem_of_find?_eq_some found
      have isKey : keysEqual s.table.test pair.1 key = true := by
        have holds := List.find?_some found
        exact holds
      rw [compared pair (inside pair inChain)] at isKey
      exact (get_eq_some keyed.equiv represents.distinct represents.members keyMember
        (inside pair inChain) isKey).symm
  | none =>
      symm
      rw [get_eq_none]
      intro pair member
      by_contra isKey
      have same : test.holds tables pair.1 key = true := by simpa using isKey
      have inTable : pair ∈ s.table.buckets.flatten := represents.contents.mem_iff.mpr member
      have inChain := (represents.placed.mem_flatten_iff pair).mp inTable
      rw [represents.bucketIndex_congr keyed (represents.members pair member) keyMember same]
        at inChain
      have absent := List.find?_eq_none.mp found pair inChain
      rw [compared pair member, same] at absent
      exact absent rfl

theorem relink (represents : Represents tables test keys s entries)
    (room : s.table.buckets.length * 2 ≤ maxBuckets) :
    Represents tables test keys
      { s with table := s.table.relink s.places (s.table.buckets.length * 2) } entries := by
  obtain ⟨n, -, sized⟩ := represents.sized
  have doubled : s.table.buckets.length * 2 = 2 ^ (n + 1) := by
    rw [sized, Nat.pow_succ]
  have small : n + 1 ≤ 20 := by
    rw [doubled] at room
    exact (Nat.pow_le_pow_iff_right (by decide)).mp room
  rw [doubled]
  obtain ⟨settled, length, contents⟩ := represents.settled.relink (Nat.two_pow_pos (n + 1))
  exact ⟨represents.tested, ⟨n + 1, small, length⟩, settled.placed,
    contents.trans represents.contents, represents.counted, represents.distinct,
    represents.members⟩

theorem collect (represents : Represents tables test keys s entries) (places : Places) :
    Represents tables test keys (s.collect places) entries := by
  obtain ⟨settled, contents⟩ := represents.settled.collect places
  obtain ⟨n, small, sized⟩ := represents.sized
  refine ⟨?_, ⟨n, small, ?_⟩, settled.placed, contents.trans represents.contents, ?_,
    represents.distinct, represents.members⟩
  · rw [collect_test, represents.tested]
  · rw [collect_length, sized]
  · rw [collect_count, represents.counted]

theorem allocate (represents : Represents tables test keys s entries) (moved : Option Places) :
    Represents tables test keys (s.allocate moved) entries := by
  cases moved with
  | none => exact represents
  | some places => exact represents.collect places

theorem update (keyed : Keyed tables test keys) (represents : Represents tables test keys s entries)
    (keyMember : key ∈ keys) {pair : Obj × V}
    (found : s.table.find s.places key = some pair) (value : V) :
    Represents tables test keys { s with table := s.table.update s.places key value }
      (put (test.holds tables) key value entries) := by
  have inMap : get (test.holds tables) key entries = some pair := by
    rw [← represents.find_eq keyed keyMember, found]
  obtain ⟨rest, tableWhole, replaced, -⟩ := represents.settled.split found value
  have whole := represents.contents.symm.trans tableWhole
  obtain ⟨mapRest, mapWhole, -, mapReplaced⟩ := perm_of_find? inMap
  have sameRest : rest.Perm mapRest := (whole.symm.trans mapWhole).cons_inv
  have stored : (put (test.holds tables) key value entries).Perm ((pair.1, value) :: rest) := by
    rw [put, inMap]
    exact (mapReplaced _).trans (sameRest.symm.cons _)
  have splitDistinct := List.pairwise_cons.mp (represents.distinct.perm whole)
  have lengths := whole.length_eq
  have storedLength := stored.length_eq
  have sized := represents.sized
  refine ⟨represents.tested, ?_, ?_, ?_, ?_, ?_, ?_⟩
  · simpa [Table.update] using sized
  · exact (represents.settled.update found value).placed
  · exact replaced.trans stored.symm
  · have counted := represents.counted
    simp only [List.length_cons] at lengths storedLength
    simp only [Table.update]
    omega
  · have storedDistinct : Distinct (test.holds tables) ((pair.1, value) :: rest) :=
      Distinct.cons splitDistinct.2 splitDistinct.1
    exact storedDistinct.perm stored.symm
  · intro other member
    rcases List.mem_cons.mp (stored.mem_iff.mp member) with rfl | inRest
    · exact represents.members pair (whole.mem_iff.mpr List.mem_cons_self)
    · exact represents.members other (whole.mem_iff.mpr (List.mem_cons_of_mem _ inRest))

theorem insert (keyed : Keyed tables test keys) (represents : Represents tables test keys s entries)
    (keyMember : key ∈ keys) (absent : s.table.find s.places key = none) (value : V) :
    Represents tables test keys { s with table := s.table.insert s.places key value }
      (put (test.holds tables) key value entries) := by
  have notInMap : get (test.holds tables) key entries = none := by
    rw [← represents.find_eq keyed keyMember, absent]
  have sized := represents.sized
  obtain ⟨settled, contents⟩ := represents.settled.insert key value
  have stored : put (test.holds tables) key value entries = (key, value) :: entries := by
    rw [put, notInMap]
  rw [stored]
  refine ⟨represents.tested, ?_, ?_, ?_, ?_, ?_, ?_⟩
  · simpa [Table.insert] using sized
  · exact settled.placed
  · exact contents.trans (represents.contents.cons _)
  · simp [Table.insert, represents.counted]
  · apply Distinct.cons represents.distinct
    intro other member
    have otherKey := represents.members other member
    have apart := get_eq_none.mp notInMap other member
    refine ⟨?_, apart⟩
    by_contra same
    have back := keyed.equiv.symm key keyMember other.1 otherKey (by simpa using same)
    rw [apart] at back
    cases back
  · intro other member
    rcases List.mem_cons.mp member with rfl | old
    · exact keyMember
    · exact represents.members other old

theorem htMaybeRehash (represents : Represents tables test keys s entries) (alloc : Allocations) :
    Represents tables test keys (htMaybeRehash s alloc) entries := by
  unfold HashTable.htMaybeRehash
  dsimp only
  split
  case isTrue => exact represents
  case isFalse =>
    split
    case isTrue => exact represents
    case isFalse room =>
      have allocated := represents.allocate alloc.vector
      split
      case isTrue => exact allocated
      case isFalse =>
        have sized := allocate_length s alloc.vector
        rw [← sized]
        exact allocated.relink (by omega)

theorem biSetfGethash (keyed : Keyed tables test keys)
    (represents : Represents tables test keys s entries) (keyMember : key ∈ keys)
    (value : V) (alloc : Allocations) :
    Represents tables test keys (biSetfGethash s key value alloc)
      (put (test.holds tables) key value entries) := by
  unfold HashTable.biSetfGethash
  split
  case h_1 pair found => exact represents.update keyed keyMember found value
  case h_2 absent =>
    have allocated := (represents.allocate alloc.pair).allocate alloc.cell
    have stillAbsent : ((s.allocate alloc.pair).allocate alloc.cell).table.find
        ((s.allocate alloc.pair).allocate alloc.cell).places key = none := by
      rw [allocated.find_eq keyed keyMember, ← represents.find_eq keyed keyMember, absent]
    exact (allocated.insert keyed keyMember stillAbsent value).htMaybeRehash alloc

theorem syncSection (keyed : Keyed tables test keys)
    (represents : Represents tables test keys s entries) (keyMember : key ∈ keys)
    (value : V) {preVec : Option Nat}
    (room : ∀ length, preVec = some length → length ≤ maxBuckets) :
    Represents tables test keys (syncSection s key value preVec)
      (put (test.holds tables) key value entries) := by
  unfold HashTable.syncSection
  split
  case h_1 pair found => exact represents.update keyed keyMember found value
  case h_2 absent =>
    have inserted := represents.insert keyed keyMember absent value
    cases preVec with
    | none => exact inserted
    | some length =>
        dsimp only
        split
        case isFalse => exact inserted
        case isTrue grows =>
          have bound := room length rfl
          rw [grows.2] at bound ⊢
          exact inserted.relink bound

theorem biSetfGethashSync (keyed : Keyed tables test keys)
    (represents : Represents tables test keys s entries) (keyMember : key ∈ keys)
    (value : V) (alloc : Allocations) :
    Represents tables test keys (biSetfGethashSync s key value alloc)
      (put (test.holds tables) key value entries) := by
  have consed := (represents.allocate alloc.pair).allocate alloc.cell
  unfold HashTable.biSetfGethashSync
  dsimp only
  split
  case isFalse => exact consed.syncSection keyed keyMember value (by simp)
  case isTrue wanted =>
    apply (consed.allocate alloc.vector).syncSection keyed keyMember value
    intro length
    cases alloc.vectorFails with
    | true => simp
    | false =>
        rintro ⟨⟩
        exact wanted.2

theorem biRemhash (keyed : Keyed tables test keys)
    (represents : Represents tables test keys s entries) (keyMember : key ∈ keys) :
    Represents tables test keys (biRemhash s key).1 (delete (test.holds tables) key entries) ∧
      (biRemhash s key).2 = (get (test.holds tables) key entries).isSome := by
  have inMap := represents.find_eq keyed keyMember
  unfold HashTable.biRemhash
  dsimp only
  cases found : s.table.find s.places key with
  | none =>
      rw [found] at inMap
      have unchanged : delete (test.holds tables) key entries = entries := by
        apply List.eraseP_of_forall_not
        intro pair member
        simpa using get_eq_none.mp inMap.symm pair member
      rw [← inMap, unchanged]
      exact ⟨represents, rfl⟩
  | some pair =>
      rw [found] at inMap
      refine ⟨?_, by rw [← inMap]; rfl⟩
      obtain ⟨rest, tableWhole, -, erased⟩ := represents.settled.split found pair.2
      have whole := represents.contents.symm.trans tableWhole
      obtain ⟨mapRest, mapWhole, mapErased, -⟩ := perm_of_find? inMap.symm
      have sameRest : rest.Perm mapRest := (whole.symm.trans mapWhole).cons_inv
      have deleted : (delete (test.holds tables) key entries).Perm rest :=
        mapErased.trans sameRest.symm
      have splitDistinct := List.pairwise_cons.mp (represents.distinct.perm whole)
      have sized := represents.sized
      have settled := represents.settled.biRemhash key
      simp only [HashTable.biRemhash, found] at settled
      refine ⟨represents.tested, ?_, ?_, ?_, ?_, ?_, ?_⟩
      · simpa using sized
      · exact settled.placed
      · exact erased.trans deleted.symm
      · have lengths := whole.length_eq
        have counted := represents.counted
        rw [List.length_cons] at lengths
        rw [deleted.length_eq]
        dsimp only
        omega
      · exact Distinct.perm splitDistinct.2 deleted.symm
      · intro other member
        exact represents.members other
          (whole.mem_iff.mpr (List.mem_cons_of_mem _ (deleted.mem_iff.mp member)))

theorem biClrhash (represents : Represents tables test keys s entries) :
    Represents tables test keys (biClrhash s) [] := by
  refine ⟨represents.tested, ?_, ?_, ?_, rfl, List.Pairwise.nil, by simp⟩
  · simpa [HashTable.biClrhash] using represents.sized
  · exact represents.settled.biClrhash.placed
  · simp [HashTable.biClrhash]

end Represents

def Command.key : Command V → Option Obj
  | .gethash key _ | .setfGethash key _ _ | .setfGethashSync key _ _ | .remhash key => some key
  | .clrhash | .count | .collect _ => none

def keysOf (commands : List (Command V)) : Set Obj :=
  { key | ∃ command ∈ commands, command.key = some key }

theorem Represents.step (keyed : Keyed tables test keys)
    (represents : Represents tables test keys s entries) (command : Command V)
    (keyMember : ∀ key, command.key = some key → key ∈ keys) :
    Represents tables test keys (step s command).1 (mapStep (test.holds tables) entries command).1 ∧
      (HashTable.step s command).2 = (mapStep (test.holds tables) entries command).2 := by
  cases command with
  | gethash key default =>
      have inMap := represents.find_eq keyed (keyMember key rfl)
      simp only [HashTable.step, biGethash, mapStep, inMap]
      cases get (test.holds tables) key entries with
      | some pair => exact ⟨represents, rfl⟩
      | none => exact ⟨represents, rfl⟩
  | setfGethash key value alloc =>
      exact ⟨represents.biSetfGethash keyed (keyMember key rfl) value alloc, rfl⟩
  | setfGethashSync key value alloc =>
      exact ⟨represents.biSetfGethashSync keyed (keyMember key rfl) value alloc, rfl⟩
  | remhash key =>
      obtain ⟨stays, answer⟩ := represents.biRemhash keyed (keyMember key rfl)
      refine ⟨stays, ?_⟩
      simp only [HashTable.step, mapStep, answer]
  | clrhash => exact ⟨represents.biClrhash, rfl⟩
  | count => exact ⟨represents, by rw [HashTable.step, mapStep, represents.counted]⟩
  | collect places => exact ⟨represents.collect places, rfl⟩

theorem Represents.run (keyed : Keyed tables test keys)
    (represents : Represents tables test keys s entries) (commands : List (Command V))
    (keyMember : keysOf commands ⊆ keys) :
    Represents tables test keys (run s commands).1 (mapRun (test.holds tables) entries commands).1 ∧
      (HashTable.run s commands).2 = (mapRun (test.holds tables) entries commands).2 := by
  induction commands generalizing s entries with
  | nil => exact ⟨represents, rfl⟩
  | cons command rest induction =>
      have first : ∀ key, command.key = some key → key ∈ keys := fun key isKey =>
        keyMember ⟨command, List.mem_cons_self, isKey⟩
      have later : keysOf rest ⊆ keys := by
        rintro key ⟨other, member, isKey⟩
        exact keyMember ⟨other, List.mem_cons_of_mem _ member, isKey⟩
      obtain ⟨stepped, reply⟩ := represents.step keyed command first
      obtain ⟨stays, replies⟩ := induction stepped later
      refine ⟨stays, ?_⟩
      simp only [HashTable.run, mapRun, reply, replies]

theorem roundUp_eq {bucketCount : Nat} (bound : bucketCount ≤ maxBuckets) (fuel : Nat) {k : Nat}
    (small : k ≤ 20) : ∃ n, n ≤ 20 ∧ roundUp bucketCount fuel (2 ^ k) = 2 ^ n := by
  induction fuel generalizing k with
  | zero => exact ⟨k, small, rfl⟩
  | succ fuel induction =>
      rw [roundUp]
      split
      case isFalse => exact ⟨k, small, rfl⟩
      case isTrue less =>
        have smaller : k < 20 := by
          have below : 2 ^ k < 2 ^ 20 := Nat.lt_of_lt_of_le less bound
          exact (Nat.pow_lt_pow_iff_right (by decide)).mp below
        rw [← Nat.pow_succ]
        exact induction smaller

theorem clMakeHashtable_represents (places : Places) {bucketCount : Nat}
    (bound : bucketCount ≤ maxBuckets) :
    Represents tables test keys ⟨places, (clMakeHashtable bucketCount test : Table V)⟩ [] := by
  have capped : max bucketCount 2 ≤ maxBuckets := max_le bound (by decide)
  obtain ⟨n, small, rounded⟩ := roundUp_eq capped 32 (Nat.zero_le 20)
  rw [Nat.pow_zero] at rounded
  refine ⟨rfl, ⟨n, small, ?_⟩, ?_, ?_, rfl, List.Pairwise.nil, by simp⟩
  · rw [clMakeHashtable, length_empty, rounded]
  · exact placed_empty _ _
  · simp [clMakeHashtable]

theorem biMakeHashTable_represents (places : Places) (size : Option Nat) :
    Represents tables test keys ⟨places, (biMakeHashTable test size : Table V)⟩ [] := by
  cases size with
  | none => exact clMakeHashtable_represents places (by decide)
  | some size => exact clMakeHashtable_represents places (min_le_right _ _)

end ClAmiga.HashTable
