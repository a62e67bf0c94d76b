import ClAmiga.HashTable.Table

/-!
# Entries in their buckets

Every entry of a hash table stands in the bucket of its hash at the present places of the
objects, and the count is the number of entries.  Each operation, each growth and each
compaction keeps this, whatever the keys are.
-/

namespace ClAmiga.HashTable

open Chain

variable {V : Type}

theorem hashReal_stable (number : Real) (places places' : Places) :
    hashReal places number = hashReal places' number := by
  cases number with
  | fixnum word => rfl
  | bignum id sign limbs | ratio id num den | single id bits | double id bits => rfl

theorem hashDeep_stable {p : Bool} {test : Test} (places places' : Places) :
    ∀ a : Obj, addrSensitive test a = false → hashDeep places p a = hashDeep places' p a
  | .nil, _ | .char _, _ | .string _ _, _ | .wideString _ _, _ => rfl
  | .real number, _ => hashReal_stable number places places'
  | .complex _ re im, _ => by
      simp only [hashDeep, hashReal_stable re places places', hashReal_stable im places places']
  | .bitVector _ _, _ => by
      cases p <;> rfl
  | .cons _ car _, stable => by
      have carStable : addrSensitive test car = false := by
        simp only [addrSensitive, Bool.or_eq_false_iff] at stable
        exact stable.2
      simp only [hashDeep, hashDeep_stable places places' car carStable]
  | .vector _ _ _ _, stable | .byteVector _ _, stable | .pathname _ _ _ _ _ _ _, stable
  | .struct _ _ _, stable | .hashTable _, stable | .other _, stable => by
      simp [addrSensitive] at stable

theorem hashObj_stable {test : Test} {a : Obj} (stable : addrSensitive test a = false)
    (places places' : Places) : hashObj places test a = hashObj places' test a := by
  cases test with
  | equal | equalp => exact hashDeep_stable places places' a stable
  | eq =>
      cases a with
      | nil | char code => rfl
      | real number =>
          cases number with
          | fixnum word => rfl
          | _ => simp [addrSensitive] at stable
      | _ => simp [addrSensitive] at stable
  | eql =>
      cases a with
      | nil | char code => rfl
      | real number => exact hashReal_stable number places places'
      | complex id re im =>
          simp only [hashObj, hashEql, hashReal_stable re places places',
            hashReal_stable im places places']
      | _ => simp [addrSensitive] at stable

theorem index_eq_mod {n : Nat} (places : Places) (test : Test) (key : Obj) :
    Table.index places test (2 ^ n) key = (hashObj places test key).toNat % 2 ^ n :=
  Nat.and_two_pow_sub_one_eq_mod _ n

theorem index_lt {count : Nat} (positive : 0 < count) (places : Places) (test : Test) (key : Obj) :
    Table.index places test count key < count := by
  have masked : Table.index places test count key ≤ count - 1 := Nat.and_le_right
  omega

theorem index_congr {n : Nat} (small : n ≤ 20) {places : Places} {test : Test} {a b : Obj}
    (agree : (hashObj places test a).toNat % maxBuckets =
      (hashObj places test b).toNat % maxBuckets) :
    Table.index places test (2 ^ n) a = Table.index places test (2 ^ n) b := by
  have divides : 2 ^ n ∣ maxBuckets := Nat.pow_dvd_pow 2 small
  rw [index_eq_mod, index_eq_mod, ← Nat.mod_mod_of_dvd _ divides, agree,
    Nat.mod_mod_of_dvd _ divides]

theorem distribute_index (places : Places) (test : Test) {count : Nat} (positive : 0 < count)
    (pairs : List (Obj × V)) :
    let buckets := pairs.foldl
      (fun new pair => new.modify (Table.index places test count pair.1) (pair :: ·))
      (empty count)
    buckets.length = count ∧
      Placed (fun pair => Table.index places test count pair.1) buckets ∧
      buckets.flatten.Perm pairs := by
  obtain ⟨placed, contents⟩ := distribute_spec
    (fun pair : Obj × V => Table.index places test count pair.1) pairs (empty count)
    (fun pair => by rw [length_empty]; exact index_lt positive _ _ _) (placed_empty _ _)
  rw [flatten_empty, List.append_nil] at contents
  refine ⟨?_, placed, contents⟩
  rw [length_distribute (fun pair : Obj × V => Table.index places test count pair.1),
    length_empty]

theorem collect_length (s : Store V) (places : Places) :
    (s.collect places).table.buckets.length = s.table.buckets.length := by
  unfold Store.collect Table.gcRehash
  split
  case isFalse => rfl
  case isTrue =>
    split
    case isFalse => rfl
    case isTrue =>
      exact (length_distribute (fun pair : Obj × V =>
        Table.index places s.table.test s.table.buckets.length pair.1) _ _).trans (length_empty _)

theorem collect_test (s : Store V) (places : Places) :
    (s.collect places).table.test = s.table.test := by
  unfold Store.collect Table.gcRehash
  split
  case isFalse => rfl
  case isTrue => split <;> rfl

theorem collect_count (s : Store V) (places : Places) :
    (s.collect places).table.count = s.table.count := by
  unfold Store.collect Table.gcRehash
  split
  case isFalse => rfl
  case isTrue => split <;> rfl

theorem allocate_length (s : Store V) (moved : Option Places) :
    (s.allocate moved).table.buckets.length = s.table.buckets.length := by
  cases moved with
  | none => rfl
  | some places => exact collect_length s places

/-- Every entry stands in the bucket that the hash of its key selects at the present
places, and the count is the number of entries. -/
structure Store.Settled (s : Store V) : Prop where
  positive : 0 < s.table.buckets.length
  placed : Placed (fun pair => s.table.bucketIndex s.places pair.1) s.table.buckets
  counted : s.table.count = s.table.buckets.flatten.length

theorem Store.Settled.placed_stable {s : Store V} (settled : s.Settled) (places : Places)
    (stable : ∀ pair ∈ s.table.buckets.flatten, addrSensitive s.table.test pair.1 = false) :
    Placed (fun pair => s.table.bucketIndex places pair.1) s.table.buckets := by
  intro i pair member
  have here := settled.placed i pair member
  have kept := hashObj_stable (stable pair (mem_flatten_of_mem_chain member)) places s.places
  simp only [Table.bucketIndex, Table.index, kept]
  exact here

/-- The rehash puts every entry into the bucket of its hash at the new places, whatever
the buckets were before. -/
theorem Table.gcRehash_sensitive (t : Table V) (places : Places)
    (needs : (t.buckets.any fun chain =>
      chain.any fun pair => addrSensitive t.test pair.1) = true) :
    Placed (fun pair => (t.gcRehash places).bucketIndex places pair.1)
        (t.gcRehash places).buckets ∧
      (t.gcRehash places).buckets.flatten.Perm t.buckets.flatten := by
  have positive : 0 < t.buckets.length := by
    obtain ⟨chain, member, -⟩ := List.any_eq_true.mp needs
    exact List.length_pos_of_mem member
  have collected : t.buckets.foldl
      (fun entries chain => chain.foldl (fun entries pair => pair :: entries) entries) [] =
      t.buckets.flatten.reverse := by
    rw [← List.foldl_flatten, List.foldl_flip_cons_eq_append', List.append_nil]
  obtain ⟨length, placed, contents⟩ := distribute_index places t.test positive
    t.buckets.flatten.reverse
  rw [Table.gcRehash, if_pos needs]
  dsimp only
  rw [collected]
  refine ⟨?_, contents.trans (List.reverse_perm _)⟩
  simp only [Table.bucketIndex, length]
  exact placed

/-- A compaction keeps the entries, each in its bucket: either all keys are hashed again,
or none has moved away from its bucket. -/
theorem Store.Settled.collect {s : Store V} (settled : s.Settled) (places : Places) :
    (s.collect places).Settled ∧
      (s.collect places).table.buckets.flatten.Perm s.table.buckets.flatten := by
  suffices moved : Placed (fun pair => (s.collect places).table.bucketIndex places pair.1)
      (s.collect places).table.buckets ∧
      (s.collect places).table.buckets.flatten.Perm s.table.buckets.flatten from
    ⟨⟨by rw [collect_length]; exact settled.positive, moved.1,
      by rw [collect_count, settled.counted, moved.2.length_eq]⟩, moved.2⟩
  unfold Store.collect
  by_cases some_ : 0 < s.table.count
  · rw [if_pos some_]
    by_cases needs : (s.table.buckets.any fun chain =>
        chain.any fun pair => addrSensitive s.table.test pair.1) = true
    · exact s.table.gcRehash_sensitive places needs
    · rw [Table.gcRehash, if_neg needs]
      refine ⟨settled.placed_stable places ?_, .refl _⟩
      intro pair member
      obtain ⟨bucket, bucketMember, pairMember⟩ := List.mem_flatten.mp member
      by_contra sensitive
      apply needs
      rw [List.any_eq_true]
      refine ⟨bucket, bucketMember, ?_⟩
      rw [List.any_eq_true]
      exact ⟨pair, pairMember, by simpa using sensitive⟩
  · rw [if_neg some_]
    refine ⟨settled.placed_stable places ?_, .refl _⟩
    intro pair member
    have present := List.length_pos_of_mem member
    have counted := settled.counted
    omega

theorem Store.Settled.allocate {s : Store V} (settled : s.Settled) (moved : Option Places) :
    (s.allocate moved).Settled ∧
      (s.allocate moved).table.buckets.flatten.Perm s.table.buckets.flatten := by
  cases moved with
  | none => exact ⟨settled, .refl _⟩
  | some places => exact settled.collect places

namespace Store.Settled

variable {s : Store V}

theorem bucketIndex_lt (settled : s.Settled) (key : Obj) :
    s.table.bucketIndex s.places key < s.table.buckets.length :=
  index_lt settled.positive _ _ _

theorem placed_modify (settled : s.Settled) (key : Obj) (f : List (Obj × V) → List (Obj × V))
    (kept : ∀ new ∈ f (chain s.table.buckets (s.table.bucketIndex s.places key)),
      ∃ old ∈ chain s.table.buckets (s.table.bucketIndex s.places key), new.1 = old.1) :
    Placed (fun pair => s.table.bucketIndex s.places pair.1)
      (s.table.buckets.modify (s.table.bucketIndex s.places key) f) := by
  intro i pair member
  rw [chain_modify _ _ _ _ (settled.bucketIndex_lt key)] at member
  split at member
  case isTrue here =>
    subst here
    obtain ⟨old, oldMember, sameKey⟩ := kept pair member
    have place := settled.placed _ old oldMember
    simpa only [sameKey] using place
  case isFalse => exact settled.placed i pair member

theorem split (settled : s.Settled) {key : Obj} {pair : Obj × V}
    (found : s.table.find s.places key = some pair) (value : V) :
    ∃ rest, s.table.buckets.flatten.Perm (pair :: rest) ∧
      (s.table.update s.places key value).buckets.flatten.Perm ((pair.1, value) :: rest) ∧
      (s.table.buckets.modify (s.table.bucketIndex s.places key)
        (·.eraseP fun pair => keysEqual s.table.test pair.1 key)).flatten.Perm rest := by
  obtain ⟨inner, chainPerm, erased, replaced⟩ := perm_of_find? found
  obtain ⟨others, whole, changed⟩ := flatten_modify s.table.buckets
    (s.table.bucketIndex s.places key) (settled.bucketIndex_lt key)
  refine ⟨inner ++ others, ?_, ?_, ?_⟩
  · exact whole.trans (chainPerm.append_right others)
  · exact (changed _).trans ((replaced _).append_right others)
  · exact (changed _).trans (erased.append_right others)

theorem update (settled : s.Settled) {key : Obj} {pair : Obj × V}
    (found : s.table.find s.places key = some pair) (value : V) :
    ({ s with table := s.table.update s.places key value } : Store V).Settled := by
  obtain ⟨inner, chainPerm, -, chainReplaced⟩ := perm_of_find? found
  have placed := settled.placed_modify key (Table.setPair s.table.test key value) (by
    intro new member
    rcases List.mem_cons.mp ((chainReplaced _).mem_iff.mp member) with rfl | other
    · exact ⟨pair, List.mem_of_find?_eq_some found, rfl⟩
    · exact ⟨new, chainPerm.mem_iff.mpr (List.mem_cons_of_mem _ other), rfl⟩)
  obtain ⟨rest, whole, replaced, -⟩ := settled.split found value
  refine ⟨?_, ?_, ?_⟩
  · simpa [Table.update] using settled.positive
  · simpa [Table.update, Table.bucketIndex] using placed
  · rw [replaced.length_eq]
    exact settled.counted.trans whole.length_eq

theorem insert (settled : s.Settled) (key : Obj) (value : V) :
    ({ s with table := s.table.insert s.places key value } : Store V).Settled ∧
      (s.table.insert s.places key value).buckets.flatten.Perm
        ((key, value) :: s.table.buckets.flatten) := by
  have room := settled.bucketIndex_lt key
  have placed := settled.placed.push (key, value) room
  have contents := flatten_push s.table.buckets _ (key, value) room
  refine ⟨⟨?_, ?_, ?_⟩, contents⟩
  · simpa [Table.insert] using settled.positive
  · simpa [Table.insert, Table.bucketIndex] using placed
  · have counted := settled.counted
    have lengths := contents.length_eq
    simp only [Table.insert, List.length_cons] at lengths ⊢
    omega

theorem relink (settled : s.Settled) {newCount : Nat} (positive : 0 < newCount) :
    ({ s with table := s.table.relink s.places newCount } : Store V).Settled ∧
      (s.table.relink s.places newCount).buckets.length = newCount ∧
      (s.table.relink s.places newCount).buckets.flatten.Perm s.table.buckets.flatten := by
  obtain ⟨length, placed, contents⟩ := distribute_index s.places s.table.test positive
    s.table.buckets.flatten
  rw [List.foldl_flatten] at length placed contents
  refine ⟨⟨positive.trans_eq length.symm, ?_, ?_⟩, length, contents⟩
  · simp only [Table.bucketIndex, Table.relink, length]
    exact placed
  · exact settled.counted.trans contents.length_eq.symm

theorem htMaybeRehash (settled : s.Settled) (alloc : Allocations) :
    (htMaybeRehash s alloc).Settled ∧
      (HashTable.htMaybeRehash s alloc).table.buckets.flatten.Perm s.table.buckets.flatten := by
  unfold HashTable.htMaybeRehash
  dsimp only
  split
  case isTrue => exact ⟨settled, .refl _⟩
  case isFalse =>
    split
    case isTrue => exact ⟨settled, .refl _⟩
    case isFalse =>
      have allocated := settled.allocate alloc.vector
      split
      case isTrue => exact allocated
      case isFalse =>
        have doubled : 0 < s.table.buckets.length * 2 := by
          have := settled.positive
          omega
        obtain ⟨grown, -, contents⟩ := allocated.1.relink doubled
        exact ⟨grown, contents.trans allocated.2⟩

theorem biSetfGethash (settled : s.Settled) (key : Obj) (value : V) (alloc : Allocations) :
    (biSetfGethash s key value alloc).Settled := by
  unfold HashTable.biSetfGethash
  split
  case h_1 pair found => exact settled.update found value
  case h_2 =>
    have allocated := ((settled.allocate alloc.pair).1.allocate alloc.cell).1
    exact ((allocated.insert key value).1.htMaybeRehash alloc).1

theorem syncSection (settled : s.Settled) (key : Obj) (value : V) (preVec : Option Nat) :
    (syncSection s key value preVec).Settled := by
  unfold HashTable.syncSection
  split
  case h_1 pair found => exact settled.update found value
  case h_2 =>
    have inserted := (settled.insert key value).1
    cases preVec with
    | none => exact inserted
    | some length =>
        dsimp only
        split
        case isFalse => exact inserted
        case isTrue grows =>
          have doubled : 0 < length := by
            rw [grows.2]
            exact Nat.mul_pos inserted.positive (by decide)
          exact (inserted.relink doubled).1

theorem biSetfGethashSync (settled : s.Settled) (key : Obj) (value : V) (alloc : Allocations) :
    (biSetfGethashSync s key value alloc).Settled := by
  have consed := ((settled.allocate alloc.pair).1.allocate alloc.cell).1
  unfold HashTable.biSetfGethashSync
  dsimp only
  split
  case isFalse => exact consed.syncSection key value none
  case isTrue => exact (consed.allocate alloc.vector).1.syncSection key value _

theorem biRemhash (settled : s.Settled) (key : Obj) : (biRemhash s key).1.Settled := by
  unfold HashTable.biRemhash
  dsimp only
  cases found : s.table.find s.places key with
  | none => exact settled
  | some pair =>
      obtain ⟨rest, whole, -, erased⟩ := settled.split found pair.2
      have placed := settled.placed_modify key
        (·.eraseP fun pair => keysEqual s.table.test pair.1 key)
        (fun new member => ⟨new, List.mem_of_mem_eraseP member, rfl⟩)
      refine ⟨?_, ?_, ?_⟩
      · simpa using settled.positive
      · simpa [Table.bucketIndex] using placed
      · have lengths := whole.length_eq
        have counted := settled.counted
        have left := erased.length_eq
        rw [List.length_cons] at lengths
        dsimp only
        omega

theorem biClrhash (settled : s.Settled) : (biClrhash s).Settled := by
  have cleared : (s.table.buckets.map fun _ => ([] : List (Obj × V))) =
      empty s.table.buckets.length := by
    rw [empty, List.map_const']
  refine ⟨?_, ?_, ?_⟩
  · simpa [HashTable.biClrhash] using settled.positive
  · simp only [HashTable.biClrhash, cleared]
    exact placed_empty _ _
  · simp [HashTable.biClrhash]

theorem step (settled : s.Settled) (command : Command V) : (step s command).1.Settled := by
  cases command with
  | gethash key default => exact settled
  | setfGethash key value alloc => exact settled.biSetfGethash key value alloc
  | setfGethashSync key value alloc => exact settled.biSetfGethashSync key value alloc
  | remhash key => exact settled.biRemhash key
  | clrhash => exact settled.biClrhash
  | count => exact settled
  | collect places => exact (settled.collect places).1

theorem run (settled : s.Settled) (commands : List (Command V)) : (run s commands).1.Settled := by
  induction commands generalizing s with
  | nil => exact settled
  | cons command rest induction => exact induction (settled.step command)

end Store.Settled

theorem roundUp_pos (bucketCount fuel : Nat) {p : Nat} (positive : 0 < p) :
    0 < roundUp bucketCount fuel p := by
  induction fuel generalizing p with
  | zero => exact positive
  | succ fuel induction =>
      rw [roundUp]
      split
      · exact induction (by omega)
      · exact positive

theorem clMakeHashtable_settled (places : Places) (bucketCount : Nat) (test : Test) :
    (⟨places, clMakeHashtable bucketCount test⟩ : Store V).Settled := by
  refine ⟨?_, placed_empty _ _, ?_⟩
  · rw [clMakeHashtable, length_empty]
    exact roundUp_pos _ _ (by decide)
  · simp [clMakeHashtable]

theorem biMakeHashTable_settled (places : Places) (test : Test) (size : Option Nat) :
    (⟨places, biMakeHashTable test size⟩ : Store V).Settled := by
  cases size with
  | none => exact clMakeHashtable_settled places 16 test
  | some size => exact clMakeHashtable_settled places _ test

/-- A key that is not address sensitive keeps its hash wherever the objects move.  After
the compaction, with or without a rehash, the table has the entries it had, each in the
bucket that the hash of its key selects. -/
theorem compaction_keeps_table (s : Store V) (places : Places) (settled : s.Settled) :
    (∀ key, addrSensitive s.table.test key = false →
      hashObj places s.table.test key = hashObj s.places s.table.test key) ∧
    (s.collect places).table.buckets.flatten.Perm s.table.buckets.flatten ∧
    ∀ i, ∀ pair ∈ chain (s.collect places).table.buckets i,
      Table.index places s.table.test s.table.buckets.length pair.1 = i := by
  obtain ⟨collected, contents⟩ := settled.collect places
  refine ⟨fun key stable => hashObj_stable stable _ _, contents, fun i pair member => ?_⟩
  have here := collected.placed i pair member
  simp only [Table.bucketIndex, collect_test, collect_length] at here
  exact here

/-- Two symbols, a string and a fixnum, each 8 bytes from the next, which share a bucket. -/
def mixedChain : Store Nat :=
  (run ⟨fun id => BitVec.ofNat 32 (8 * id), biMakeHashTable .equal none⟩
    ([.other 1, .string 2 [100], .other 17, .real (.fixnum 11)].map fun key =>
      .setfGethash key 7 ⟨none, none, none, false⟩)).1

/-- The first symbol changes its bucket when the places are 64 bytes apart, and the others keep
theirs. -/
theorem compaction_keeps_table_mixed :
    let places : Places := fun id => BitVec.ofNat 32 (64 * id)
    ((chain mixedChain.table.buckets 4).length = 4 ∧
      (chain (mixedChain.collect places).table.buckets 4).length = 3) ∧
    (∀ key, addrSensitive mixedChain.table.test key = false →
      hashObj places mixedChain.table.test key =
        hashObj mixedChain.places mixedChain.table.test key) ∧
    (mixedChain.collect places).table.buckets.flatten.Perm mixedChain.table.buckets.flatten ∧
    ∀ i, ∀ pair ∈ chain (mixedChain.collect places).table.buckets i,
      Table.index places mixedChain.table.test mixedChain.table.buckets.length pair.1 = i :=
  ⟨⟨by decide +kernel, by decide +kernel⟩,
    compaction_keeps_table _ _ ((biMakeHashTable_settled _ .equal none).run _)⟩

end ClAmiga.HashTable
