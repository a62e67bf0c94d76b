import ClAmiga.Tlv.Bindings

/-!
# The meaning of a thread-local value table

A table means a partial function from addresses to values.  Setting and removing change it
at one address, and rehashing after a compaction forwards it.
-/

namespace ClAmiga.Tlv

open Probe (Slot Slots WellProbed Holds Fits entries put)

variable {α : Type}

structure Means (t : Thread α) (meaning : Nat → Option α) : Prop where
  probed : WellProbed t.tlvTable tlvTableSize tlvHash
  holds : ∀ sym val, Holds t.tlvTable tlvTableSize sym val ↔ meaning sym = some val
  count : t.tlvEntryCount = (entries t.tlvTable tlvTableSize).card

theorem Means.empty (dynStack : List (Nat × Option α)) :
    Means { tlvTable := fun _ => .empty, tlvEntryCount := 0, dynStack := dynStack }
      fun _ => none where
  probed := .empty _ _
  holds sym val := by simp [Holds]
  count := by
    rw [entries, Finset.filter_false_of_mem (fun a _ => by simp [Slot.isEntry])]
    rfl

variable {t : Thread α} {meaning : Nat → Option α}

theorem Means.withStack (means : Means t meaning) (dynStack : List (Nat × Option α)) :
    Means { t with dynStack := dynStack } meaning :=
  ⟨means.probed, means.holds, means.count⟩

theorem Means.get (means : Means t meaning) (sym : Nat) : clTlvGet t sym = meaning sym := by
  rw [clTlvGet]
  cases stored : meaning sym with
  | none =>
      refine (Probe.lookup_eq_none_iff means.probed).mpr fun val held => ?_
      rw [means.holds, stored] at held
      cases held
  | some val => exact (Probe.lookup_iff means.probed val).mpr ((means.holds sym val).mpr stored)

theorem Means.absent (means : Means t meaning) {sym : Nat}
    (none : ∀ val, ¬ Holds t.tlvTable tlvTableSize sym val) : meaning sym = .none :=
  Option.eq_none_iff_forall_ne_some.mpr fun val stored =>
    none val ((means.holds sym val).mpr stored)

theorem Means.eq_none_of_count (means : Means t meaning) (noEntries : t.tlvEntryCount = 0)
    (sym : Nat) : meaning sym = none := by
  refine means.absent ?_
  rintro val ⟨a, inside, here⟩
  have member : a ∈ entries t.tlvTable tlvTableSize :=
    Probe.mem_entries.mpr ⟨inside, by rw [here]; rfl⟩
  have none := Finset.card_eq_zero.mp (means.count ▸ noEntries)
  rw [none] at member
  exact absurd member (Finset.notMem_empty a)

@[simp] theorem clTlvSet_dynStack (t : Thread α) (sym : Nat) (val : α) :
    (clTlvSet t sym val).dynStack = t.dynStack := by
  rw [clTlvSet]
  split <;> rfl

theorem clTlvSet_count_le (t : Thread α) (sym : Nat) (val : α) :
    (clTlvSet t sym val).tlvEntryCount ≤ t.tlvEntryCount + 1 := by
  rw [clTlvSet]
  split
  · exact Nat.le_succ _
  · exact Nat.le_refl _
  · exact Nat.le_succ _

theorem Means.holds_put (means : Means t meaning) {sym slot : Nat}
    (fits : Fits t.tlvTable tlvTableSize tlvHash sym slot) (val : α) (other : Nat) (found : α) :
    Holds (put t.tlvTable slot (.entry sym val)) tlvTableSize other found ↔
      Function.update meaning sym (some val) other = some found := by
  rw [fits.holds val, means.holds]
  by_cases same : other = sym
  · subst same
    simp [eq_comm]
  · simp [same]

theorem Means.targetSpec (means : Means t meaning) (sym : Nat) :
    Probe.TargetSpec t.tlvTable tlvTableSize (tlvHash sym) sym
      (Probe.target t.tlvTable tlvTableSize (tlvHash sym) sym 0 tlvTableSize none) :=
  Probe.target_spec means.probed

/-- There is room for a symbol when it has an entry, or the table is not full. -/
theorem Means.set (means : Means t meaning) {sym : Nat}
    (room : (meaning sym).isSome ∨ t.tlvEntryCount < tlvTableSize) (val : α) :
    Means (clTlvSet t sym val) (Function.update meaning sym (some val)) := by
  have spec := means.targetSpec sym
  rw [clTlvSet]
  cases place : Probe.target t.tlvTable tlvTableSize (tlvHash sym) sym 0 tlvTableSize none with
  | found slot =>
      rw [place] at spec
      obtain ⟨inside, old, here⟩ := spec
      have fits := Fits.of_found means.probed inside here
      refine ⟨fits.wellProbed means.probed val, means.holds_put fits val, ?_⟩
      have member : slot ∈ entries t.tlvTable tlvTableSize :=
        Probe.mem_entries.mpr ⟨inside, by rw [here]; rfl⟩
      rw [Probe.entries_put_entry inside, Finset.insert_eq_of_mem member]
      exact means.count
  | vacant slot =>
      rw [place] at spec
      obtain ⟨inside, free, absent, path⟩ := spec
      have fits := Fits.of_vacant inside free absent path
      refine ⟨fits.wellProbed means.probed val, means.holds_put fits val, ?_⟩
      have fresh : slot ∉ entries t.tlvTable tlvTableSize := fun member => by
        rw [(Probe.mem_entries.mp member).2] at free
        cases free
      rw [Probe.entries_put_entry inside, Finset.card_insert_of_notMem fresh, ← means.count]
  | full =>
      rw [place] at spec
      obtain ⟨absent, full⟩ := spec
      rw [means.absent absent, means.count, Probe.card_entries_eq_size_iff.mpr full] at room
      simp at room

theorem Means.set_full (means : Means t meaning) {sym : Nat} (absent : meaning sym = none)
    (full : t.tlvEntryCount = tlvTableSize) (val : α) : clTlvSet t sym val = t := by
  have spec := means.targetSpec sym
  have every := Probe.card_entries_eq_size_iff.mp (means.count ▸ full)
  rw [clTlvSet]
  cases place : Probe.target t.tlvTable tlvTableSize (tlvHash sym) sym 0 tlvTableSize none with
  | found slot =>
      rw [place] at spec
      obtain ⟨inside, old, here⟩ := spec
      have held := (means.holds sym old).mp ⟨slot, inside, here⟩
      rw [absent] at held
      cases held
  | vacant slot =>
      rw [place] at spec
      have used := every slot spec.1
      rw [spec.2.1] at used
      cases used
  | full => rfl

@[simp] theorem clTlvRemove_dynStack (t : Thread α) (sym : Nat) :
    (clTlvRemove t sym).dynStack = t.dynStack := by
  rw [clTlvRemove]
  split <;> rfl

theorem Means.remove (means : Means t meaning) (sym : Nat) :
    Means (clTlvRemove t sym) (Function.update meaning sym none) := by
  have spec := @Probe.position_from _ _ _ _ tlvHash sym _ means.probed tlvTableSize 0
    (Nat.zero_add _) (.zero _ _ _ _)
  rw [clTlvRemove]
  cases place : Probe.position t.tlvTable tlvTableSize (tlvHash sym) sym 0 tlvTableSize with
  | none =>
      rw [place] at spec
      rw [← means.absent spec, Function.update_eq_self]
      exact means
  | some slot =>
      rw [place] at spec
      obtain ⟨inside, old, here⟩ := spec
      refine ⟨means.probed.delete, fun other found => ?_, ?_⟩
      · rw [Probe.holds_delete means.probed inside here, means.holds]
        by_cases same : other = sym
        · simp [same]
        · simp [same]
      · have member : slot ∈ entries t.tlvTable tlvTableSize :=
          Probe.mem_entries.mpr ⟨inside, by rw [here]; rfl⟩
        rw [Probe.entries_put_deleted, Finset.card_erase_of_mem member, ← means.count]

theorem mem_live {table : Slots Nat α} {sym : Nat} {val : α} :
    (sym, val) ∈ live table ↔ Holds table tlvTableSize sym val := by
  have entry : ∀ slot : Slot Nat α, entryOf slot = some (sym, val) ↔ slot = .entry sym val := by
    intro slot
    cases slot <;> simp [entryOf]
  simp only [live, List.mem_filterMap, List.mem_range, entry, Holds]

theorem live_distinct {table : Slots Nat α}
    (unique : ∀ {a b sym : Nat} {val other : α}, a < tlvTableSize → b < tlvTableSize →
      table a = .entry sym val → table b = .entry sym other → a = b) :
    (live table).Pairwise fun first second => first.1 ≠ second.1 := by
  have entry : ∀ {slot : Slot Nat α} {sym : Nat} {val : α},
      entryOf slot = some (sym, val) → slot = .entry sym val := by
    intro slot sym val found
    cases slot <;> simp_all [entryOf]
  have ordered : (List.range tlvTableSize).Pairwise fun a b =>
      a < tlvTableSize ∧ b < tlvTableSize ∧ a < b :=
    List.pairwise_lt_range.imp_of_mem fun aIn bIn less =>
      ⟨List.mem_range.mp aIn, List.mem_range.mp bIn, less⟩
  refine List.Pairwise.filterMap _ ?_ ordered
  rintro a b ⟨aIn, bIn, less⟩ ⟨sym, val⟩ left ⟨other, found⟩ right same
  obtain rfl : sym = other := same
  exact absurd (unique aIn bIn (entry left) (entry right)) (Nat.ne_of_lt less)

/-- A partial function with entries added. -/
def extend (meaning : Nat → Option α) (added : List (Nat × α)) : Nat → Option α :=
  added.foldl (fun meaning entry => Function.update meaning entry.1 (some entry.2)) meaning

theorem extend_eq_some_iff {added : List (Nat × α)}
    (distinct : added.Pairwise fun first second => first.1 ≠ second.1) :
    ∀ {meaning : Nat → Option α}, (∀ entry ∈ added, meaning entry.1 = none) →
      ∀ sym val, extend meaning added sym = some val ↔
        (sym, val) ∈ added ∨ meaning sym = some val := by
  induction added with
  | nil => simp [extend]
  | cons entry added induction =>
      intro meaning fresh sym val
      obtain ⟨others, distinct⟩ := List.pairwise_cons.mp distinct
      obtain ⟨freshHere, freshLater⟩ := List.forall_mem_cons.mp fresh
      have updated : ∀ later ∈ added,
          Function.update meaning entry.1 (some entry.2) later.1 = none := by
        intro later member
        rw [Function.update_of_ne (others later member).symm]
        exact freshLater later member
      rw [extend, List.foldl_cons, ← extend, induction distinct updated, List.mem_cons]
      by_cases same : sym = entry.1
      · subst same
        simp only [Function.update_self, freshHere, Option.some.injEq, Prod.ext_iff, true_and]
        constructor
        · rintro (member | rfl)
          · exact Or.inl (Or.inr member)
          · exact Or.inl (Or.inl rfl)
        · rintro ((rfl | member) | impossible)
          · exact Or.inr rfl
          · exact Or.inl member
          · cases impossible
      · simp [Prod.ext_iff, same]

theorem Means.setAll (added : List (Nat × α)) :
    ∀ {t : Thread α} {meaning : Nat → Option α}, Means t meaning →
      t.tlvEntryCount + added.length ≤ tlvTableSize →
      Means (added.foldl (fun t entry => clTlvSet t entry.1 entry.2) t) (extend meaning added) := by
  induction added with
  | nil => intro t meaning means room; exact means
  | cons entry added induction =>
      intro t meaning means room
      rw [List.length_cons] at room
      have more := clTlvSet_count_le t entry.1 entry.2
      refine induction (means.set (Or.inr (by omega)) entry.2) ?_
      change (clTlvSet t entry.1 entry.2).tlvEntryCount + _ ≤ _
      omega

@[simp] theorem setAll_dynStack (added : List (Nat × α)) :
    ∀ t : Thread α,
      (added.foldl (fun t entry => clTlvSet t entry.1 entry.2) t).dynStack = t.dynStack := by
  induction added with
  | nil => intro t; rfl
  | cons entry added induction => intro t; rw [List.foldl_cons, induction, clTlvSet_dynStack]

@[simp] theorem clTlvRehash_dynStack (t : Thread α) : (clTlvRehash t).dynStack = t.dynStack := by
  rw [clTlvRehash]
  split
  · rfl
  · rw [setAll_dynStack]

theorem Means.rehash
    (unique : ∀ {a b sym : Nat} {val other : α}, a < tlvTableSize → b < tlvTableSize →
      t.tlvTable a = .entry sym val → t.tlvTable b = .entry sym other → a = b)
    (holds : ∀ sym val, Holds t.tlvTable tlvTableSize sym val ↔ meaning sym = some val)
    (count : t.tlvEntryCount = (entries t.tlvTable tlvTableSize).card) :
    Means (clTlvRehash t) meaning := by
  rw [clTlvRehash]
  split
  · next noEntries =>
      have none := Finset.card_eq_zero.mp (count ▸ noEntries)
      refine ⟨⟨unique, ?_⟩, holds, count⟩
      intro a sym val inside here
      have member : a ∈ entries t.tlvTable tlvTableSize :=
        Probe.mem_entries.mpr ⟨inside, by rw [here]; rfl⟩
      rw [none] at member
      exact absurd member (Finset.notMem_empty a)
  · have size : (live t.tlvTable).length ≤ tlvTableSize := by
      calc (live t.tlvTable).length
          ≤ (List.range tlvTableSize).length := List.length_filterMap_le _ _
        _ = tlvTableSize := List.length_range
    have rebuilt := Means.setAll (live t.tlvTable) (Means.empty t.dynStack)
      (by rw [Nat.zero_add]; exact size)
    have same : extend (fun _ => none) (live t.tlvTable) = meaning := by
      funext sym
      ext val
      rw [extend_eq_some_iff (live_distinct unique) (fun _ _ => rfl), mem_live, holds]
      simp
    exact same ▸ rebuilt

end ClAmiga.Tlv
