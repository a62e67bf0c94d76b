import Mathlib.Data.Finset.Card
import Mathlib.Data.Finset.Range
import Mathlib.Data.Nat.Find
import ClAmiga.Probe.Table

/-!
# Changing and building a probed table

Storing a key at its target and marking its entry deleted keep a table well probed and
change what it holds for that key only.  The pairs of a list are stored one after the other,
and a key that the table holds stays as it is.  The table then answers as the first pair of
the list with a key does, if the list has fewer pairs than the table has slots.
-/

namespace ClAmiga.Probe

section Changes

variable {K V : Type} {slots : Slots K V} {size : Nat} {hash : K → Nat} {key : K}

def put (slots : Slots K V) (a : Nat) (slot : Slot K V) : Slots K V :=
  fun b => if b = a then slot else slots b

@[simp] theorem put_self (slots : Slots K V) (a : Nat) (slot : Slot K V) :
    put slots a slot a = slot :=
  if_pos rfl

theorem put_of_ne (slots : Slots K V) {a b : Nat} (slot : Slot K V) (different : b ≠ a) :
    put slots a slot b = slots b :=
  if_neg different

variable {a : Nat}

theorem put_ne_empty {slot : Slot K V} (used : slot ≠ .empty) {b : Nat}
    (kept : slots b ≠ .empty) : put slots a slot b ≠ .empty := by
  by_cases same : b = a
  · subst same
    rwa [put_self]
  · rwa [put_of_ne slots slot same]

/-- A slot is the place of a key: its own, or one without an entry for a key that is not
held, with no unused slot between its hash and the slot. -/
structure Fits (slots : Slots K V) (size : Nat) (hash : K → Nat) (key : K) (a : Nat) : Prop where
  inside : a < size
  alone : ∀ b < size, ∀ value, slots b = .entry key value → b = a
  free : ∀ other value, slots a = .entry other value → other = key
  path : ∃ j, a = probe size (hash key) j ∧ ∀ i < j, slots (probe size (hash key) i) ≠ .empty

theorem Fits.of_found {value : V} (probed : WellProbed slots size hash)
    (inside : a < size) (here : slots a = .entry key value) : Fits slots size hash key a where
  inside := inside
  alone b bIn other there := probed.unique bIn inside there here
  free other value there := by
    rw [here] at there
    exact (Slot.entry.inj there).1.symm
  path := by
    have probes : ∃ j, probe size (hash key) j = a := by
      obtain ⟨j, _, same⟩ := exists_probe (hash key) inside
      exact ⟨j, same⟩
    classical
    refine ⟨Nat.find probes, (Nat.find_spec probes).symm, fun i below => ?_⟩
    exact probed.path inside here i fun k upTo =>
      Nat.find_min probes (Nat.lt_of_le_of_lt upTo below)

theorem Fits.of_vacant (inside : a < size) (free : (slots a).isEntry = false)
    (absent : ∀ value, ¬ Holds slots size key value)
    (path : ∃ j, a = probe size (hash key) j ∧ ∀ i < j, slots (probe size (hash key) i) ≠ .empty) :
    Fits slots size hash key a where
  inside := inside
  alone b bIn value there := absurd ⟨b, bIn, there⟩ (absent value)
  free other value here := by
    rw [here] at free
    cases free
  path := path

theorem Fits.wellProbed (fits : Fits slots size hash key a)
    (probed : WellProbed slots size hash) (value : V) :
    WellProbed (put slots a (.entry key value)) size hash where
  unique {b c k first second} bIn cIn left right := by
    by_cases atB : b = a
    · subst atB
      rw [put_self] at left
      obtain ⟨rfl, rfl⟩ := Slot.entry.inj left
      by_cases atC : c = b
      · exact atC.symm
      · rw [put_of_ne slots _ atC] at right
        exact (fits.alone c cIn second right).symm
    · rw [put_of_ne slots _ atB] at left
      by_cases atC : c = a
      · subst atC
        rw [put_self] at right
        obtain ⟨rfl, rfl⟩ := Slot.entry.inj right
        exact fits.alone b bIn first left
      · rw [put_of_ne slots _ atC] at right
        exact probed.unique bIn cIn left right
  path {b k found} bIn here j before := by
    by_cases atB : b = a
    · subst atB
      rw [put_self] at here
      obtain ⟨rfl, rfl⟩ := Slot.entry.inj here
      obtain ⟨steps, same, used⟩ := fits.path
      refine put_ne_empty (by simp) (used j ?_)
      by_contra beyond
      exact before steps (Nat.le_of_not_lt beyond) same.symm
    · rw [put_of_ne slots _ atB] at here
      exact put_ne_empty (by simp) (probed.path bIn here j before)

theorem Fits.holds (fits : Fits slots size hash key a) (value : V) (other : K) (found : V) :
    Holds (put slots a (.entry key value)) size other found ↔
      (other = key ∧ found = value) ∨ (other ≠ key ∧ Holds slots size other found) := by
  constructor
  · rintro ⟨b, bIn, here⟩
    by_cases atB : b = a
    · subst atB
      rw [put_self] at here
      obtain ⟨rfl, rfl⟩ := Slot.entry.inj here
      exact Or.inl ⟨rfl, rfl⟩
    · rw [put_of_ne slots _ atB] at here
      refine Or.inr ⟨?_, b, bIn, here⟩
      rintro rfl
      exact atB (fits.alone b bIn found here)
  · rintro (⟨rfl, rfl⟩ | ⟨different, b, bIn, here⟩)
    · exact ⟨a, fits.inside, put_self _ _ _⟩
    · refine ⟨b, bIn, ?_⟩
      rw [put_of_ne, here]
      rintro rfl
      exact different (fits.free other found here)

theorem WellProbed.delete (probed : WellProbed slots size hash) :
    WellProbed (put slots a .deleted) size hash where
  unique {b c k first second} bIn cIn left right := by
    by_cases atB : b = a
    · rw [atB, put_self] at left
      cases left
    by_cases atC : c = a
    · rw [atC, put_self] at right
      cases right
    rw [put_of_ne slots _ atB] at left
    rw [put_of_ne slots _ atC] at right
    exact probed.unique bIn cIn left right
  path {b k found} bIn here j before := by
    by_cases atB : b = a
    · rw [atB, put_self] at here
      cases here
    rw [put_of_ne slots _ atB] at here
    exact put_ne_empty (by simp) (probed.path bIn here j before)

theorem holds_delete {value : V} (probed : WellProbed slots size hash)
    (inside : a < size) (here : slots a = .entry key value) (other : K) (found : V) :
    Holds (put slots a .deleted) size other found ↔ other ≠ key ∧ Holds slots size other found := by
  constructor
  · rintro ⟨b, bIn, there⟩
    by_cases atB : b = a
    · rw [atB, put_self] at there
      cases there
    rw [put_of_ne slots _ atB] at there
    refine ⟨?_, b, bIn, there⟩
    rintro rfl
    exact atB (probed.unique bIn inside there here)
  · rintro ⟨different, b, bIn, there⟩
    refine ⟨b, bIn, ?_⟩
    rw [put_of_ne, there]
    rintro rfl
    rw [here] at there
    exact different (Slot.entry.inj there).1.symm

def entries (slots : Slots K V) (size : Nat) : Finset Nat :=
  (Finset.range size).filter fun a => (slots a).isEntry = true

theorem mem_entries : a ∈ entries slots size ↔ a < size ∧ (slots a).isEntry = true := by
  rw [entries, Finset.mem_filter, Finset.mem_range]

theorem Slot.isEntry_iff {slot : Slot K V} :
    slot.isEntry = true ↔ ∃ key value, slot = .entry key value := by
  cases slot <;> simp [isEntry]

theorem entries_put_entry (inside : a < size) (value : V) :
    entries (put slots a (.entry key value)) size = insert a (entries slots size) := by
  ext b
  rw [mem_entries, Finset.mem_insert, mem_entries]
  by_cases same : b = a
  · subst same
    simp [inside, Slot.isEntry]
  · simp [put_of_ne slots _ same, same]

theorem entries_put_deleted (a : Nat) :
    entries (put slots a .deleted) size = (entries slots size).erase a := by
  ext b
  rw [mem_entries, Finset.mem_erase, mem_entries]
  by_cases same : b = a
  · subst same
    simp [Slot.isEntry]
  · simp [put_of_ne slots _ same, same]

theorem card_entries_le (probed : WellProbed slots size hash) (keys : List K)
    (all : ∀ key value, Holds slots size key value → key ∈ keys) :
    (entries slots size).card ≤ keys.length := by
  classical
  have keyOf : ∀ a ∈ entries slots size, ∃ key ∈ keys, ∃ value, slots a = .entry key value := by
    intro a member
    obtain ⟨inside, isEntry⟩ := mem_entries.mp member
    obtain ⟨key, value, here⟩ := Slot.isEntry_iff.mp isEntry
    exact ⟨key, all key value ⟨a, inside, here⟩, value, here⟩
  rcases isEmpty_or_nonempty K with none | some
  · rw [Finset.eq_empty_of_forall_notMem fun a member => none.elim (keyOf a member).choose]
    exact Nat.zero_le _
  choose! chosen chosenIn held heldIs using keyOf
  calc (entries slots size).card
      ≤ keys.toFinset.card := by
        refine Finset.card_le_card_of_injOn chosen
          (fun a member => by simpa using chosenIn a member) ?_
        intro a aIn b bIn same
        have left := heldIs a aIn
        have right := heldIs b bIn
        rw [same] at left
        exact probed.unique (mem_entries.mp aIn).1 (mem_entries.mp bIn).1 left right
    _ ≤ keys.length := keys.toFinset_card_le

theorem le_card_entries {keys : List K} (distinct : keys.Nodup)
    (all : ∀ key ∈ keys, ∃ value, Holds slots size key value) :
    keys.length ≤ (entries slots size).card := by
  classical
  have slotOf : ∀ key ∈ keys, ∃ a < size, ∃ value, slots a = .entry key value := by
    intro key member
    obtain ⟨value, a, inside, here⟩ := all key member
    exact ⟨a, inside, value, here⟩
  choose! chosen inside value here using slotOf
  calc keys.length
      = keys.toFinset.card := (List.toFinset_card_of_nodup distinct).symm
    _ ≤ (entries slots size).card := by
        refine Finset.card_le_card_of_injOn chosen (fun key member => ?_) ?_
        · have listed : key ∈ keys := by simpa using member
          exact mem_entries.mpr ⟨inside key listed, Slot.isEntry_iff.mpr ⟨key, _, here key listed⟩⟩
        · intro key keyIn other otherIn same
          have left := here key (by simpa using keyIn)
          have right := here other (by simpa using otherIn)
          rw [same, right] at left
          exact (Slot.entry.inj left).1.symm

theorem card_entries_eq_size_iff :
    (entries slots size).card = size ↔ ∀ a < size, (slots a).isEntry = true := by
  have bound : entries slots size ⊆ Finset.range size := Finset.filter_subset _ _
  constructor
  · intro all a inside
    have every : entries slots size = Finset.range size :=
      Finset.eq_of_subset_of_card_le bound (by rw [all, Finset.card_range])
    exact (mem_entries.mp (every ▸ Finset.mem_range.mpr inside)).2
  · intro full
    have every : entries slots size = Finset.range size :=
      Finset.Subset.antisymm bound fun a member =>
        mem_entries.mpr ⟨Finset.mem_range.mp member, full a (Finset.mem_range.mp member)⟩
    rw [every, Finset.card_range]

end Changes

section Pairs

variable {K V : Type} [DecidableEq K]

/-- A key that the table does not hold goes to its place. -/
def storeNew (size : Nat) (hash : K → Nat) (slots : Slots K V) (pair : K × V) : Slots K V :=
  match target slots size (hash pair.1) pair.1 0 size none with
  | .vacant a => put slots a (.entry pair.1 pair.2)
  | _ => slots

def build (size : Nat) (hash : K → Nat) (pairs : List (K × V)) : Slots K V :=
  pairs.foldl (storeNew size hash) fun _ => .empty

/-- The table holds the first pairs of a list. -/
structure Built (slots : Slots K V) (size : Nat) (hash : K → Nat) (pairs : List (K × V)) :
    Prop where
  probed : WellProbed slots size hash
  holds : ∀ key value, Holds slots size key value ↔ pairs.lookup key = some value

variable {slots : Slots K V} {size : Nat} {hash : K → Nat} {pairs : List (K × V)}

theorem Built.empty (size : Nat) (hash : K → Nat) :
    Built (fun _ => .empty : Slots K V) size hash [] where
  probed := .empty size hash
  holds key value := by
    constructor
    · rintro ⟨a, _, here⟩
      cases here
    · exact nofun

theorem Built.not_full (built : Built slots size hash pairs) (room : pairs.length < size) :
    ¬ ∀ a < size, (slots a).isEntry = true := by
  intro all
  have every := card_entries_eq_size_iff.mpr all
  have few := card_entries_le built.probed (pairs.map Prod.fst) fun key value held => by
    obtain ⟨before, after, rfl, _⟩ :=
      List.lookup_eq_some_iff.mp ((built.holds key value).mp held)
    exact List.mem_map.mpr ⟨(key, value), List.mem_append_right _ List.mem_cons_self, rfl⟩
  rw [List.length_map, every] at few
  exact absurd few (Nat.not_le.mpr room)

theorem Built.target_vacant (built : Built slots size hash pairs) (room : pairs.length < size)
    {key : K} (new : pairs.lookup key = none) :
    ∃ a, target slots size (hash key) key 0 size none = .vacant a := by
  have spec : TargetSpec slots size (hash key) key _ := target_spec built.probed
  cases place : target slots size (hash key) key 0 size none with
  | found a =>
      rw [place] at spec
      obtain ⟨inside, value, here⟩ := spec
      have held := (built.holds key value).mp ⟨a, inside, here⟩
      rw [new] at held
      cases held
  | vacant a => exact ⟨a, rfl⟩
  | full =>
      rw [place] at spec
      exact absurd spec.2 (built.not_full room)

theorem Built.storeNew (built : Built slots size hash pairs) (room : pairs.length < size)
    (pair : K × V) : Built (storeNew size hash slots pair) size hash (pairs ++ [pair]) := by
  obtain ⟨key, value⟩ := pair
  have spec : TargetSpec slots size (hash key) key _ := target_spec built.probed
  rw [Probe.storeNew]
  cases place : target slots size (hash key) key 0 size none with
  | found a =>
      rw [place] at spec
      obtain ⟨inside, old, here⟩ := spec
      have held := (built.holds key old).mp ⟨a, inside, here⟩
      refine ⟨built.probed, fun other found => ?_⟩
      rw [built.holds, List.lookup_append]
      by_cases same : other = key
      · subst same
        rw [held]
        exact Iff.rfl
      · rw [List.lookup_cons, beq_false_of_ne same, List.lookup_nil, Option.or_none]
  | vacant a =>
      rw [place] at spec
      obtain ⟨inside, free, absent, path⟩ := spec
      have fits := Fits.of_vacant inside free absent path
      refine ⟨fits.wellProbed built.probed value, fun other found => ?_⟩
      rw [fits.holds, built.holds, List.lookup_append]
      by_cases same : other = key
      · subst same
        have none : pairs.lookup other = none := by
          rw [Option.eq_none_iff_forall_ne_some]
          exact fun old listed => absent old ((built.holds other old).mpr listed)
        simp [none, eq_comm]
      · rw [List.lookup_cons, beq_false_of_ne same, List.lookup_nil, Option.or_none]
        simp [same]
  | full =>
      rw [place] at spec
      exact absurd spec.2 (built.not_full room)

theorem Built.foldl (built : Built slots size hash pairs) (more : List (K × V))
    (room : pairs.length + more.length ≤ size) :
    Built (more.foldl (Probe.storeNew size hash) slots) size hash (pairs ++ more) := by
  induction more generalizing slots pairs with
  | nil =>
      rw [List.append_nil]
      exact built
  | cons pair more induction =>
      rw [List.length_cons] at room
      have stored := built.storeNew (by omega) pair
      rw [List.append_cons]
      refine induction stored ?_
      rw [List.length_append, List.length_singleton]
      omega

theorem built_build (room : pairs.length ≤ size) :
    Built (build size hash pairs) size hash pairs := by
  have whole := (@Built.empty K V _ size hash).foldl pairs (by simpa using room)
  rw [List.nil_append] at whole
  exact whole

theorem lookup_build (room : pairs.length ≤ size) (key : K) :
    lookup (build size hash pairs) size (hash key) key 0 size = pairs.lookup key := by
  have built := @built_build K V _ size hash pairs room
  ext value
  rw [lookup_iff built.probed, built.holds]

end Pairs

end ClAmiga.Probe
