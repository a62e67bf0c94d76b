import Mathlib.Data.Finset.Card
import Mathlib.Data.List.Perm.Subperm

/-!
# Open addressing with linear probing

A key is looked for from the slot of its hash on, slot by slot around the table, up to the
first slot that was never used; deleted entries leave a mark behind.  In a well probed table
no key is held twice and no unused slot lies between the hash of a key and its entry.
-/

namespace ClAmiga.Probe

/-- A slot that was never used, one whose entry was deleted, and an entry. -/
inductive Slot (K V : Type) where
  | empty
  | deleted
  | entry (key : K) (value : V)
deriving DecidableEq, Repr

/-- The slots of a table; those below its size count. -/
abbrev Slots (K V : Type) := Nat → Slot K V

def Slot.isEntry {K V : Type} : Slot K V → Bool
  | entry .. => true
  | _ => false

def probe (size start i : Nat) : Nat :=
  (start + i) % size

section Search

variable {K V : Type} [DecidableEq K] (slots : Slots K V) (size start : Nat) (key : K)

/-- The value of a key, from a probe on with so many left. -/
def lookup : Nat → Nat → Option V
  | _, 0 => none
  | i, left + 1 =>
      match slots (probe size start i) with
      | .empty => none
      | .deleted => lookup (i + 1) left
      | .entry held value => if held = key then some value else lookup (i + 1) left

/-- The slot of a key, from a probe on with so many left. -/
def position : Nat → Nat → Option Nat
  | _, 0 => none
  | i, left + 1 =>
      match slots (probe size start i) with
      | .empty => none
      | .deleted => position (i + 1) left
      | .entry held _ => if held = key then some (probe size start i) else position (i + 1) left

/-- Where a key goes: into its own slot, into the first deleted or unused one, or nowhere. -/
inductive Target where
  | found (slot : Nat)
  | vacant (slot : Nat)
  | full
deriving DecidableEq, Repr

/-- The target of a key, from a probe on with so many left, with the first deleted slot so
far. -/
def target : Nat → Nat → Option Nat → Target
  | _, 0, some slot => .vacant slot
  | _, 0, none => .full
  | i, left + 1, firstDeleted =>
      match slots (probe size start i) with
      | .empty => .vacant (firstDeleted.getD (probe size start i))
      | .deleted => target (i + 1) left (some (firstDeleted.getD (probe size start i)))
      | .entry held _ =>
          if held = key then .found (probe size start i) else target (i + 1) left firstDeleted

end Search

/-- The table has an entry. -/
def Holds {K V : Type} (slots : Slots K V) (size : Nat) (key : K) (value : V) : Prop :=
  ∃ a < size, slots a = .entry key value

structure WellProbed {K V : Type} (slots : Slots K V) (size : Nat) (hash : K → Nat) : Prop where
  unique : ∀ {a b : Nat} {key : K} {value other : V}, a < size → b < size →
    slots a = .entry key value → slots b = .entry key other → a = b
  path : ∀ {a : Nat} {key : K} {value : V}, a < size → slots a = .entry key value →
    ∀ j, (∀ i ≤ j, probe size (hash key) i ≠ a) → slots (probe size (hash key) j) ≠ .empty

theorem WellProbed.empty {K V : Type} (size : Nat) (hash : K → Nat) :
    WellProbed (fun _ => Slot.empty : Slots K V) size hash where
  unique _ _ here _ := by cases here
  path _ here _ _ := by cases here

theorem probe_lt {size : Nat} (positive : 0 < size) (start i : Nat) : probe size start i < size :=
  Nat.mod_lt _ positive

theorem exists_probe {size a : Nat} (start : Nat) (inside : a < size) :
    ∃ j < size, probe size start j = a := by
  have positive : 0 < size := by omega
  have small := Nat.mod_lt start positive
  refine ⟨(a + (size - start % size)) % size, Nat.mod_lt _ positive, ?_⟩
  rw [probe, Nat.add_mod, Nat.mod_mod, ← Nat.add_mod, ← Nat.mod_add_mod,
    show start % size + (a + (size - start % size)) = a + size by omega, Nat.add_mod_right,
    Nat.mod_eq_of_lt inside]

variable {K V : Type} {slots : Slots K V} {size : Nat} {hash : K → Nat} {key : K}

theorem Holds.unique {value other : V} (probed : WellProbed slots size hash)
    (first : Holds slots size key value) (second : Holds slots size key other) :
    value = other := by
  obtain ⟨a, aIn, here⟩ := first
  obtain ⟨b, bIn, there⟩ := second
  obtain rfl := probed.unique aIn bIn here there
  rw [here] at there
  exact (Slot.entry.inj there).2

/-- The probes so far met neither the key nor an unused slot. -/
def Passed (slots : Slots K V) (size start : Nat) (key : K) (i : Nat) : Prop :=
  ∀ j < i, slots (probe size start j) ≠ .empty ∧
    ∀ value, slots (probe size start j) ≠ .entry key value

theorem Passed.zero (slots : Slots K V) (size start : Nat) (key : K) :
    Passed slots size start key 0 :=
  fun _ below => absurd below (Nat.not_lt_zero _)

theorem Passed.succ {start i : Nat} (passed : Passed slots size start key i)
    (used : slots (probe size start i) ≠ .empty)
    (other : ∀ value, slots (probe size start i) ≠ .entry key value) :
    Passed slots size start key (i + 1) := by
  intro j below
  rcases Nat.lt_succ_iff_lt_or_eq.mp below with earlier | rfl
  · exact passed j earlier
  · exact ⟨used, other⟩

theorem Passed.absent_of_empty {i : Nat} (probed : WellProbed slots size hash)
    (passed : Passed slots size (hash key) key i)
    (unused : slots (probe size (hash key) i) = .empty) :
    ∀ value, ¬ Holds slots size key value := by
  rintro value ⟨a, inside, here⟩
  refine probed.path inside here i ?_ unused
  rintro j upTo rfl
  rcases Nat.lt_or_eq_of_le upTo with earlier | rfl
  · exact (passed j earlier).2 value here
  · rw [unused] at here
    cases here

theorem Passed.absent_of_all {start : Nat} (passed : Passed slots size start key size) :
    ∀ value, ¬ Holds slots size key value := by
  rintro value ⟨a, inside, here⟩
  obtain ⟨j, below, rfl⟩ := exists_probe start inside
  exact (passed j below).2 value here

section Searching

variable [DecidableEq K]

theorem lookup_iff_from (probed : WellProbed slots size hash) (value : V) (left : Nat) :
    ∀ i, i + left = size → Passed slots size (hash key) key i →
      (lookup slots size (hash key) key i left = some value ↔ Holds slots size key value) := by
  induction left with
  | zero =>
      intro i total passed
      obtain rfl : i = size := total
      simp [lookup, passed.absent_of_all value]
  | succ left induction =>
      intro i total passed
      have positive : 0 < size := by omega
      have later := induction (i + 1) (by omega)
      rw [lookup]
      cases here : slots (probe size (hash key) i) with
      | empty => simp [passed.absent_of_empty probed here value]
      | deleted => exact later (passed.succ (by simp [here]) (by simp [here]))
      | entry held found =>
          by_cases same : held = key
          · subst same
            have holds : Holds slots size held found := ⟨_, probe_lt positive _ _, here⟩
            simp only [if_true, Option.some.injEq]
            exact ⟨fun equal => equal ▸ holds, fun other => holds.unique probed other⟩
          · simp only [if_neg same]
            exact later (passed.succ (by simp [here]) (by simp [here, same]))

theorem lookup_iff (probed : WellProbed slots size hash) (value : V) :
    lookup slots size (hash key) key 0 size = some value ↔ Holds slots size key value :=
  lookup_iff_from probed value size 0 (Nat.zero_add _) (.zero _ _ _ _)

theorem lookup_eq_none_iff (probed : WellProbed slots size hash) :
    lookup slots size (hash key) key 0 size = none ↔ ∀ value, ¬ Holds slots size key value := by
  rw [Option.eq_none_iff_forall_ne_some]
  exact forall_congr' fun value => not_congr (lookup_iff probed value)

theorem position_from (probed : WellProbed slots size hash) (left : Nat) :
    ∀ i, i + left = size → Passed slots size (hash key) key i →
      match position slots size (hash key) key i left with
      | some a => a < size ∧ ∃ value, slots a = .entry key value
      | none => ∀ value, ¬ Holds slots size key value := by
  induction left with
  | zero =>
      intro i rfl passed
      exact passed.absent_of_all
  | succ left induction =>
      intro i total passed
      have positive : 0 < size := by omega
      have later := induction (i + 1) (by omega)
      rw [position]
      cases here : slots (probe size (hash key) i) with
      | empty => exact passed.absent_of_empty probed here
      | deleted => exact later (passed.succ (by simp [here]) (by simp [here]))
      | entry held found =>
          by_cases same : held = key
          · subst same
            simp only [if_true]
            exact ⟨probe_lt positive _ _, found, here⟩
          · simp only [if_neg same]
            exact later (passed.succ (by simp [here]) (by simp [here, same]))

/-- What the target of a key is. -/
def TargetSpec (slots : Slots K V) (size start : Nat) (key : K) : Target → Prop
  | .found a => a < size ∧ ∃ value, slots a = .entry key value
  | .vacant a => a < size ∧ (slots a).isEntry = false ∧ (∀ value, ¬ Holds slots size key value) ∧
      ∃ j, a = probe size start j ∧ ∀ i < j, slots (probe size start i) ≠ .empty
  | .full => (∀ value, ¬ Holds slots size key value) ∧ ∀ a < size, (slots a).isEntry = true

/-- The first deleted slot of the probes so far. -/
def FirstDeleted (slots : Slots K V) (size start i : Nat) : Option Nat → Prop
  | some a => ∃ j < i, a = probe size start j ∧ slots a = .deleted
  | none => ∀ j < i, slots (probe size start j) ≠ .deleted

theorem target_from (probed : WellProbed slots size hash) (left : Nat) :
    ∀ i first, i + left = size → Passed slots size (hash key) key i →
      FirstDeleted slots size (hash key) i first →
      TargetSpec slots size (hash key) key (target slots size (hash key) key i left first) := by
  induction left with
  | zero =>
      intro i first rfl passed deleted
      cases first with
      | none =>
          refine ⟨passed.absent_of_all, fun a inside => ?_⟩
          obtain ⟨j, below, rfl⟩ := exists_probe (hash key) inside
          have used := (passed j below).1
          have kept := deleted j below
          cases here : slots (probe i (hash key) j) with
          | empty => exact absurd here used
          | deleted => exact absurd here kept
          | entry => rfl
      | some a =>
          obtain ⟨j, below, rfl, mark⟩ := deleted
          refine ⟨probe_lt (by omega) _ _, by rw [mark]; rfl, passed.absent_of_all, j, rfl, ?_⟩
          exact fun k earlier => (passed k (by omega)).1
  | succ left induction =>
      intro i first total passed deleted
      have positive : 0 < size := by omega
      rw [target]
      cases here : slots (probe size (hash key) i) with
      | empty =>
          have absent := passed.absent_of_empty probed here
          cases first with
          | none =>
              refine ⟨probe_lt positive _ _, by rw [Option.getD_none, here]; rfl, absent, i, rfl,
                ?_⟩
              exact fun k earlier => (passed k earlier).1
          | some a =>
              obtain ⟨j, below, rfl, mark⟩ := deleted
              refine ⟨probe_lt positive _ _, by rw [Option.getD_some, mark]; rfl, absent, j, rfl,
                ?_⟩
              exact fun k earlier => (passed k (by omega)).1
      | deleted =>
          refine induction (i + 1) _ (by omega) (passed.succ (by simp [here]) (by simp [here])) ?_
          cases first with
          | none => exact ⟨i, Nat.lt_succ_self i, rfl, here⟩
          | some a =>
              obtain ⟨j, below, same, mark⟩ := deleted
              exact ⟨j, Nat.lt_succ_of_lt below, same, mark⟩
      | entry held found =>
          by_cases same : held = key
          · subst same
            simp only [if_true]
            exact ⟨probe_lt positive _ _, found, here⟩
          · simp only [if_neg same]
            refine induction (i + 1) first (by omega)
              (passed.succ (by simp [here]) (by simp [here, same])) ?_
            cases first with
            | none =>
                intro j below
                rcases Nat.lt_succ_iff_lt_or_eq.mp below with earlier | rfl
                · exact deleted j earlier
                · simp [here]
            | some a =>
                obtain ⟨j, below, equal, mark⟩ := deleted
                exact ⟨j, Nat.lt_succ_of_lt below, equal, mark⟩

theorem target_spec (probed : WellProbed slots size hash) :
    TargetSpec slots size (hash key) key (target slots size (hash key) key 0 size none) :=
  target_from probed size 0 none (Nat.zero_add _) (.zero _ _ _ _)
    fun _ below => absurd below (Nat.not_lt_zero _)

end Searching

end ClAmiga.Probe
