import Mathlib.Data.Finset.Card
import Mathlib.Data.Fintype.Basic
import Mathlib.Data.List.FinRange

/-!
# Entries that go home

A direct-mapped table gives every entry one slot, its home.  After the homes have changed, a
misplaced entry is carried home in place: an empty slot takes it, a misplaced entry that it meets
is carried on, and of two entries at home the preferred one stays.
-/

namespace ClAmiga.Table

variable {Entry : Type} {n : Nat}

abbrev Slots (n : Nat) (Entry : Type) := Fin n → Option Entry

def misplaced (home : Entry → Fin n) (table : Slots n Entry) : Finset (Fin n) :=
  Finset.univ.filter fun slot => ∃ entry ∈ table slot, home entry ≠ slot

variable {home : Entry → Fin n}

theorem mem_misplaced {table : Slots n Entry} {slot : Fin n} :
    slot ∈ misplaced home table ↔ ∃ entry, table slot = some entry ∧ home entry ≠ slot := by
  simp [misplaced]

theorem misplaced_update {table : Slots n Entry} {slot : Fin n}
    {new : Option Entry} (own : ∀ entry, new = some entry → home entry = slot) :
    misplaced home (Function.update table slot new) = (misplaced home table).erase slot := by
  ext other
  rw [Finset.mem_erase, mem_misplaced, mem_misplaced]
  rcases eq_or_ne other slot with rfl | away
  · rw [Function.update_self]
    constructor
    · rintro ⟨entry, held, wrong⟩
      exact absurd (own entry held) wrong
    · rintro ⟨same, -⟩
      exact absurd rfl same
  · rw [Function.update_of_ne away]
    exact ⟨fun held => ⟨away, held⟩, fun held => held.2⟩

/-- An entry is carried home, and so on for the misplaced entry that it meets there. -/
def settle (home : Entry → Fin n) (prefers : Entry → Entry → Bool) (table : Slots n Entry)
    (carry : Entry) : Slots n Entry :=
  match _found : table (home carry) with
  | none => Function.update table (home carry) (some carry)
  | some held =>
      if _wrong : home held ≠ home carry then
        settle home prefers (Function.update table (home carry) (some carry)) held
      else if prefers carry held then Function.update table (home carry) (some carry)
      else table
termination_by (misplaced home table).card
decreasing_by
  rw [misplaced_update fun entry same => by rw [← Option.some.inj same]]
  exact Finset.card_erase_lt_of_mem (mem_misplaced.mpr ⟨held, _found, _wrong⟩)

def rehomeAt (home : Entry → Fin n) (prefers : Entry → Entry → Bool) (table : Slots n Entry)
    (slot : Fin n) : Slots n Entry :=
  match table slot with
  | none => table
  | some entry =>
      if home entry = slot then table
      else settle home prefers (Function.update table slot none) entry

def rehome (home : Entry → Fin n) (prefers : Entry → Entry → Bool) (table : Slots n Entry) :
    Slots n Entry :=
  (List.finRange n).foldl (rehomeAt home prefers) table

section Settle

variable {home : Entry → Fin n} {prefers : Entry → Entry → Bool} {table : Slots n Entry}
  {carry held : Entry}

theorem misplaced_home (table : Slots n Entry) (carry : Entry) :
    misplaced home (Function.update table (home carry) (some carry)) =
      (misplaced home table).erase (home carry) :=
  misplaced_update fun entry same => by rw [← Option.some.inj same]

theorem settle_empty (empty : table (home carry) = none) :
    settle home prefers table carry = Function.update table (home carry) (some carry) := by
  rw [settle]
  split
  · rfl
  · rename_i held found
    rw [empty] at found
    exact absurd found (by simp)

theorem settle_displaces (found : table (home carry) = some held) (wrong : home held ≠ home carry) :
    settle home prefers table carry =
      settle home prefers (Function.update table (home carry) (some carry)) held := by
  rw [settle]
  split
  · rename_i empty
    rw [found] at empty
    exact absurd empty (by simp)
  · rename_i held' found'
    obtain rfl : held = held' := Option.some.inj (found.symm.trans found')
    rw [dif_pos wrong]

theorem settle_meets (found : table (home carry) = some held) (own : home held = home carry) :
    settle home prefers table carry =
      if prefers carry held then Function.update table (home carry) (some carry) else table := by
  rw [settle]
  split
  · rename_i empty
    rw [found] at empty
    exact absurd empty (by simp)
  · rename_i held' found'
    obtain rfl : held = held' := Option.some.inj (found.symm.trans found')
    rw [dif_neg (not_not.mpr own)]

theorem settle_misplaced (table : Slots n Entry) (carry : Entry) :
    misplaced home (settle home prefers table carry) ⊆ misplaced home table := by
  induction table, carry using settle.induct home prefers with
  | case1 table carry empty =>
      rw [settle_empty empty, misplaced_home]
      exact Finset.erase_subset ..
  | case2 table carry held found wrong induction =>
      rw [settle_displaces found wrong]
      rw [misplaced_home] at induction
      exact induction.trans (Finset.erase_subset ..)
  | case3 table carry held found own better =>
      rw [settle_meets found (not_not.mp own), if_pos better, misplaced_home]
      exact Finset.erase_subset ..
  | case4 table carry held found own worse =>
      rw [settle_meets found (not_not.mp own), if_neg worse]

end Settle

/-- The entries of a table and the one that is carried come from another table, and each entry of
that is still to be settled or gives way to one at its home. -/
structure Settling (home : Entry → Fin n) (prefers : Entry → Entry → Bool)
    (start table : Slots n Entry) (carry : Option Entry) : Prop where
  from_start : ∀ slot entry, table slot = some entry → ∃ slot', start slot' = some entry
  carried : ∀ entry, carry = some entry → ∃ slot', start slot' = some entry
  accounted : ∀ slot entry, start slot = some entry →
    (∃ slot' ∈ misplaced home table, table slot' = some entry) ∨ carry = some entry ∨
      ∃ kept, table (home entry) = some kept ∧ home kept = home entry ∧ prefers entry kept = false

section Settling

variable {home : Entry → Fin n} {prefers : Entry → Entry → Bool} {start table : Slots n Entry}
  {carry held : Entry}

theorem Settling.refl (irreflexive : ∀ entry, prefers entry entry = false)
    (table : Slots n Entry) : Settling home prefers table table none where
  from_start slot entry found := ⟨slot, found⟩
  carried entry none := absurd none (by simp)
  accounted slot entry found := by
    by_cases own : home entry = slot
    · exact Or.inr (Or.inr ⟨entry, own ▸ found, rfl, irreflexive entry⟩)
    · exact Or.inl ⟨slot, mem_misplaced.mpr ⟨entry, found, own⟩, found⟩

theorem Settling.lift {slot : Fin n} (settling : Settling home prefers start table none)
    (found : table slot = some carry) (wrong : home carry ≠ slot) :
    Settling home prefers start (Function.update table slot none) (some carry) where
  from_start other entry found' := by
    rcases eq_or_ne other slot with rfl | away
    · exact absurd found' (by simp)
    · rw [Function.update_of_ne away] at found'
      exact settling.from_start other entry found'
  carried entry same := settling.from_start slot entry (by rw [found, same])
  accounted slot' entry found' := by
    rcases settling.accounted slot' entry found' with ⟨other, astray, at_other⟩ | carried | kept
    · rcases eq_or_ne other slot with rfl | away
      · exact Or.inr (Or.inl (found.symm.trans at_other))
      · refine Or.inl ⟨other, ?_, ?_⟩
        · rw [misplaced_update (by simp)]
          exact Finset.mem_erase.mpr ⟨away, astray⟩
        · rwa [Function.update_of_ne away]
    · exact absurd carried (by simp)
    · obtain ⟨kept, at_home, own, least⟩ := kept
      have away : home entry ≠ slot := by
        intro same
        rw [same, found] at at_home
        obtain rfl : carry = kept := Option.some.inj at_home
        exact wrong (own.trans same)
      exact Or.inr (Or.inr ⟨kept, by rwa [Function.update_of_ne away], own, least⟩)

/-- The carried entry is put where no entry at home is preferred to it; what it meets there is
carried on when it is misplaced. -/
theorem Settling.put {next : Option Entry} (irreflexive : ∀ entry, prefers entry entry = false)
    (settling : Settling home prefers start table (some carry))
    (displaced : ∀ held, table (home carry) = some held → home held ≠ home carry →
      next = some held)
    (from_home : ∀ entry, next = some entry → table (home carry) = some entry)
    (gives_way : ∀ held, table (home carry) = some held → home held = home carry →
      ∀ entry, prefers entry held = false → prefers entry carry = false) :
    Settling home prefers start (Function.update table (home carry) (some carry)) next where
  from_start other entry found := by
    rcases eq_or_ne other (home carry) with rfl | away
    · rw [Function.update_self] at found
      exact settling.carried entry found
    · rw [Function.update_of_ne away] at found
      exact settling.from_start other entry found
  carried entry same := settling.from_start _ entry (from_home entry same)
  accounted slot entry found := by
    rcases settling.accounted slot entry found with ⟨other, astray, at_other⟩ | same | kept
    · rcases eq_or_ne other (home carry) with rfl | away
      · obtain ⟨held, at_home, wrong⟩ := mem_misplaced.mp astray
        obtain rfl : held = entry := Option.some.inj (at_home.symm.trans at_other)
        exact Or.inr (Or.inl (displaced held at_home wrong))
      · refine Or.inl ⟨other, ?_, by rwa [Function.update_of_ne away]⟩
        rw [misplaced_home]
        exact Finset.mem_erase.mpr ⟨away, astray⟩
    · obtain rfl : carry = entry := Option.some.inj same
      exact Or.inr (Or.inr ⟨carry, Function.update_self .., rfl, irreflexive carry⟩)
    · obtain ⟨kept, at_home, own, least⟩ := kept
      refine Or.inr (Or.inr ?_)
      rcases eq_or_ne (home entry) (home carry) with same | away
      · rw [same] at at_home own ⊢
        exact ⟨carry, Function.update_self .., rfl, gives_way kept at_home own entry least⟩
      · exact ⟨kept, by rwa [Function.update_of_ne away], own, least⟩

variable (irreflexive : ∀ entry, prefers entry entry = false)
  (transitive : ∀ a b c, prefers a b = true → prefers b c = true → prefers a c = true)

include irreflexive transitive

theorem Settling.settle (settling : Settling home prefers start table (some carry)) :
    Settling home prefers start (settle home prefers table carry) none := by
  induction table, carry using settle.induct home prefers with
  | case1 table carry empty =>
      rw [settle_empty empty]
      refine settling.put irreflexive ?_ (by simp) ?_
      · intro held found
        exact absurd found (by simp [empty])
      · intro held found
        exact absurd found (by simp [empty])
  | case2 table carry held found wrong induction =>
      rw [settle_displaces found wrong]
      refine induction (settling.put irreflexive ?_ ?_ ?_)
      · intro held' found' _
        exact found.symm.trans found'
      · intro entry same
        rw [found, same]
      · intro held' found' own
        obtain rfl : held = held' := Option.some.inj (found.symm.trans found')
        exact absurd own wrong
  | case3 table carry held found own better =>
      rw [settle_meets found (not_not.mp own), if_pos better]
      refine settling.put irreflexive ?_ (by simp) ?_
      · intro held' found' wrong
        obtain rfl : held = held' := Option.some.inj (found.symm.trans found')
        exact absurd wrong own
      · intro held' found' _ entry least
        obtain rfl : held = held' := Option.some.inj (found.symm.trans found')
        by_contra preferred
        have above := transitive entry carry held (by simpa using preferred) better
        simp [least] at above
  | case4 table carry held found own worse =>
      rw [settle_meets found (not_not.mp own), if_neg worse]
      refine ⟨settling.from_start, by simp, ?_⟩
      intro slot entry at_slot
      rcases settling.accounted slot entry at_slot with astray | same | kept
      · exact Or.inl astray
      · obtain rfl : carry = entry := Option.some.inj same
        exact Or.inr (Or.inr ⟨held, found, not_not.mp own, by simpa using worse⟩)
      · exact Or.inr (Or.inr kept)

theorem Settling.rehomeAt (settling : Settling home prefers start table none) (slot : Fin n) :
    Settling home prefers start (rehomeAt home prefers table slot) none := by
  unfold Table.rehomeAt
  split
  · exact settling
  · rename_i entry found
    split
    · exact settling
    · rename_i wrong
      exact (settling.lift found wrong).settle irreflexive transitive

omit irreflexive transitive in
theorem rehomeAt_misplaced (table : Slots n Entry) (slot : Fin n) :
    misplaced home (rehomeAt home prefers table slot) ⊆ (misplaced home table).erase slot := by
  unfold Table.rehomeAt
  split
  · rename_i empty
    intro other astray
    refine Finset.mem_erase.mpr ⟨?_, astray⟩
    rintro rfl
    obtain ⟨entry, found, -⟩ := mem_misplaced.mp astray
    exact absurd found (by simp [empty])
  · rename_i entry found
    split
    · rename_i own
      intro other astray
      refine Finset.mem_erase.mpr ⟨?_, astray⟩
      rintro rfl
      obtain ⟨entry', found', wrong⟩ := mem_misplaced.mp astray
      obtain rfl : entry = entry' := Option.some.inj (found.symm.trans found')
      exact wrong own
    · refine (settle_misplaced _ entry).trans ?_
      rw [misplaced_update (by simp)]

theorem Settling.fold (settling : Settling home prefers start table none) (slots : List (Fin n)) :
    Settling home prefers start (slots.foldl (Table.rehomeAt home prefers) table) none := by
  induction slots generalizing table with
  | nil => exact settling
  | cons slot slots induction =>
      exact induction (settling.rehomeAt irreflexive transitive slot)

omit irreflexive transitive in
theorem fold_misplaced (table : Slots n Entry) (slots : List (Fin n)) :
    misplaced home (slots.foldl (Table.rehomeAt home prefers) table) ⊆
      misplaced home table \ slots.toFinset := by
  induction slots generalizing table with
  | nil => simp
  | cons slot slots induction =>
      refine (induction (Table.rehomeAt home prefers table slot)).trans ?_
      intro other left
      have passed := rehomeAt_misplaced table slot (Finset.mem_sdiff.mp left).1
      have unseen := (Finset.mem_sdiff.mp left).2
      rw [Finset.mem_erase] at passed
      simp only [Finset.mem_sdiff, List.toFinset_cons, Finset.mem_insert, not_or]
      exact ⟨passed.2, passed.1, unseen⟩

end Settling

/-- A table that holds at each slot the entry preferred among those of another table whose home
the slot is. -/
structure Rehomed (home : Entry → Fin n) (prefers : Entry → Entry → Bool)
    (start table : Slots n Entry) : Prop where
  at_home : ∀ slot entry, table slot = some entry → home entry = slot
  from_start : ∀ slot entry, table slot = some entry → ∃ slot', start slot' = some entry
  preferred : ∀ slot entry, start slot = some entry →
    ∃ kept, table (home entry) = some kept ∧ prefers entry kept = false

theorem Rehomed.unique {prefers : Entry → Entry → Bool}
    {start table : Slots n Entry} (rehomed : Rehomed home prefers start table)
    {slot slot' : Fin n} {entry entry' : Entry} (found : table slot = some entry)
    (found' : table slot' = some entry') (same : home entry = home entry') : slot = slot' := by
  rw [← rehomed.at_home slot entry found, same, rehomed.at_home slot' entry' found']

theorem rehome_misplaced (home : Entry → Fin n) (prefers : Entry → Entry → Bool)
    (table : Slots n Entry) : misplaced home (rehome home prefers table) = ∅ := by
  refine Finset.subset_empty.mp ((fold_misplaced table (List.finRange n)).trans ?_)
  intro slot left
  exact absurd (List.mem_toFinset.mpr (List.mem_finRange slot)) (Finset.mem_sdiff.mp left).2

/-- Every entry finds its home again, the preferred one where two want it. -/
theorem rehome_spec {prefers : Entry → Entry → Bool}
    (irreflexive : ∀ entry, prefers entry entry = false)
    (transitive : ∀ a b c, prefers a b = true → prefers b c = true → prefers a c = true)
    (table : Slots n Entry) : Rehomed home prefers table (rehome home prefers table) := by
  have settled := rehome_misplaced home prefers table
  have start : Settling home prefers table table none := .refl irreflexive table
  have settling := start.fold irreflexive transitive (List.finRange n)
  refine ⟨?_, settling.from_start, ?_⟩
  · intro slot entry found
    by_contra wrong
    have astray := mem_misplaced.mpr ⟨entry, found, wrong⟩
    simp [settled] at astray
  · intro slot entry found
    rcases settling.accounted slot entry found with ⟨other, astray, -⟩ | carried | kept
    · change other ∈ misplaced home (rehome home prefers table) at astray
      simp [settled] at astray
    · exact absurd carried (by simp)
    · obtain ⟨kept, at_home, -, least⟩ := kept
      exact ⟨kept, at_home, least⟩

end ClAmiga.Table
