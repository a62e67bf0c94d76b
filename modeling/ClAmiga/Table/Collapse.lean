import Mathlib.Data.List.Destutter
import Mathlib.Order.Lattice

/-!
# Sorted tables

A table is searched for its last entry up to a bound.  When the keys of a table
change monotonically, entries may collapse onto one key; keeping the first of
each makes the table strictly sorted again.
-/

namespace ClAmiga.Table

variable {Entry Key : Type} [LinearOrder Key]

/-- The entry that a search from the front stops at: the last one before the first
key beyond `bound`. -/
def floor (key : Entry → Key) (bound : Key) (table : List Entry) : Option Entry :=
  (table.takeWhile fun entry => decide (key entry ≤ bound)).getLast?

def collapse (key : Entry → Key) (table : List Entry) : List Entry :=
  table.destutter fun first second => key first ≠ key second

variable {key : Entry → Key} {table : List Entry}

theorem floor_eq_none {bound : Key} (beyond : ∀ entry ∈ table, bound < key entry) :
    floor key bound table = none := by
  unfold floor
  cases table with
  | nil => rfl
  | cons head later =>
      have outside := beyond head (List.mem_cons_self ..)
      rw [List.takeWhile_cons_of_neg (by simpa using outside), List.getLast?_nil]

theorem floor_eq_some {bound : Key} {entry : Entry}
    (sorted : table.Pairwise fun first second => key first < key second)
    (member : entry ∈ table) (within : key entry ≤ bound)
    (greatest : ∀ other ∈ table, key other ≤ bound → key other ≤ key entry) :
    floor key bound table = some entry := by
  unfold floor
  induction table with
  | nil => simp at member
  | cons head later induction =>
      obtain ⟨headFirst, laterSorted⟩ := List.pairwise_cons.mp sorted
      have headWithin : key head ≤ bound := by
        rcases List.mem_cons.mp member with rfl | inLater
        · exact within
        · exact (headFirst entry inLater).le.trans within
      rw [List.takeWhile_cons_of_pos (by simpa using headWithin)]
      rcases List.mem_cons.mp member with rfl | inLater
      · have nothing : later.takeWhile (fun other => decide (key other ≤ bound)) = [] := by
          cases later with
          | nil => rfl
          | cons next rest =>
              have beyond : ¬ key next ≤ bound := fun inside =>
                (headFirst next (List.mem_cons_self ..)).not_ge (greatest next (by simp) inside)
              rw [List.takeWhile_cons_of_neg (by simpa using beyond)]
        rw [nothing, List.getLast?_singleton]
      · have found := induction laterSorted inLater fun other inRest =>
          greatest other (List.mem_cons_of_mem head inRest)
        rw [List.getLast?_cons, found, Option.getD_some]

theorem exists_greatest (key : Entry → Key) (bound : Key) (table : List Entry) :
    (∀ entry ∈ table, bound < key entry) ∨ ∃ entry ∈ table, key entry ≤ bound ∧
      ∀ other ∈ table, key other ≤ bound → key other ≤ key entry := by
  induction table with
  | nil => simp
  | cons head later induction =>
      rcases induction with beyond | ⟨entry, member, within, greatest⟩
      · rcases lt_or_ge bound (key head) with headBeyond | headWithin
        · exact Or.inl (List.forall_mem_cons.mpr ⟨headBeyond, beyond⟩)
        · refine Or.inr ⟨head, List.mem_cons_self .., headWithin,
            List.forall_mem_cons.mpr ⟨fun _ => le_rfl, ?_⟩⟩
          intro other inLater inside
          exact absurd inside (beyond other inLater).not_ge
      · by_cases better : key head ≤ bound ∧ key entry < key head
        · refine Or.inr ⟨head, List.mem_cons_self .., better.1,
            List.forall_mem_cons.mpr ⟨fun _ => le_rfl, ?_⟩⟩
          intro other inLater inside
          exact (greatest other inLater inside).trans better.2.le
        · refine Or.inr ⟨entry, List.mem_cons_of_mem _ member, within,
            List.forall_mem_cons.mpr ⟨?_, greatest⟩⟩
          intro inside
          exact le_of_not_gt fun greater => better ⟨inside, greater⟩

theorem mem_of_mem_collapse {entry : Entry} (member : entry ∈ collapse key table) : entry ∈ table :=
  (List.destutter_sublist _ table).subset member

theorem exists_mem_collapse {entry : Entry} (member : entry ∈ table) :
    ∃ kept ∈ collapse key table, key kept = key entry := by
  have fromHead (head : Entry) (later : List Entry) : ∀ other ∈ head :: later,
      ∃ kept ∈ later.destutter' (fun first second => key first ≠ key second) head,
        key kept = key other := by
    induction later generalizing head with
    | nil => simp
    | cons next rest induction =>
        intro other inList
        by_cases same : key head = key next
        · rw [List.destutter'_cons_neg _ (not_not.mpr same)]
          rcases List.mem_cons.mp inList with rfl | inRest
          · exact induction other other (List.mem_cons_self ..)
          · rcases List.mem_cons.mp inRest with rfl | inRest
            · rw [← same]
              exact induction head head (List.mem_cons_self ..)
            · exact induction head other (List.mem_cons_of_mem _ inRest)
        · rw [List.destutter'_cons_pos _ same]
          rcases List.mem_cons.mp inList with rfl | inRest
          · exact ⟨other, List.mem_cons_self .., rfl⟩
          · obtain ⟨kept, isKept, sameKey⟩ := induction next other inRest
            exact ⟨kept, List.mem_cons_of_mem _ isKept, sameKey⟩
  cases table with
  | nil => simp at member
  | cons head later => exact fromHead head later entry member

theorem collapse_first {precedes : Entry → Entry → Prop} [IsTrans Entry precedes]
    (ordered : table.Pairwise precedes)
    (monotone : table.Pairwise fun first second => key first ≤ key second)
    {entry other : Entry} (kept : entry ∈ collapse key table) (member : other ∈ table)
    (same : key other = key entry) : other = entry ∨ precedes entry other := by
  have fromHead (head : Entry) (later : List Entry) (ordered : (head :: later).Pairwise precedes)
      (monotone : (head :: later).Pairwise fun first second => key first ≤ key second) :
      ∀ entry ∈ later.destutter' (fun first second => key first ≠ key second) head,
        ∀ other ∈ head :: later, key other = key entry → other = entry ∨ precedes entry other := by
    induction later generalizing head with
    | nil =>
        intro entry kept other member _
        simp only [List.destutter'_nil, List.mem_singleton] at kept member
        exact Or.inl (member.trans kept.symm)
    | cons next rest induction =>
        obtain ⟨headPrecedes, restOrdered⟩ := List.pairwise_cons.mp ordered
        obtain ⟨headLe, restMonotone⟩ := List.pairwise_cons.mp monotone
        obtain ⟨nextLe, _⟩ := List.pairwise_cons.mp restMonotone
        intro entry kept other member sameKey
        by_cases equal : key head = key next
        · rw [List.destutter'_cons_neg _ (not_not.mpr equal)] at kept
          have step := induction head
            (ordered.sublist ((List.sublist_cons_self next rest).cons_cons head))
            (monotone.sublist ((List.sublist_cons_self next rest).cons_cons head))
            entry kept
          rcases List.mem_cons.mp member with rfl | inLater
          · exact step other (List.mem_cons_self ..) sameKey
          · rcases List.mem_cons.mp inLater with rfl | inRest
            · have headBefore := headPrecedes other (List.mem_cons_self ..)
              rcases step head (List.mem_cons_self ..) (equal.trans sameKey) with rfl | before
              · exact Or.inr headBefore
              · exact Or.inr (IsTrans.trans _ _ _ before headBefore)
            · exact step other (List.mem_cons_of_mem _ inRest) sameKey
        · rw [List.destutter'_cons_pos _ equal] at kept
          rcases List.mem_cons.mp kept with rfl | keptLater
          · rcases List.mem_cons.mp member with rfl | inLater
            · exact Or.inl rfl
            · exact Or.inr (headPrecedes other inLater)
          · rcases List.mem_cons.mp member with rfl | inLater
            · -- The keys from the next entry on are greater than that of the head.
              have headLt : key other < key next :=
                lt_of_le_of_ne (headLe next (List.mem_cons_self ..)) equal
              have entryIn := (List.destutter'_sublist rest _ next).subset keptLater
              have nextLeEntry : key next ≤ key entry := by
                rcases List.mem_cons.mp entryIn with rfl | inRest
                · exact le_rfl
                · exact nextLe entry inRest
              exact absurd sameKey (headLt.trans_le nextLeEntry).ne
            · exact induction next restOrdered restMonotone entry keptLater other inLater sameKey
  cases table with
  | nil => simp at member
  | cons head later => exact fromHead head later ordered monotone entry kept other member same

theorem collapse_sorted
    (monotone : table.Pairwise fun first second => key first ≤ key second) :
    (collapse key table).Pairwise fun first second => key first < key second := by
  have stillMonotone := monotone.sublist
    (List.destutter_sublist (fun first second => key first ≠ key second) table)
  have changing := List.isChain_destutter (fun first second => key first ≠ key second) table
  have growing : (collapse key table).IsChain fun first second => key first < key second := by
    rw [List.isChain_iff_getElem]
    intro index inside
    have le := List.pairwise_iff_getElem.mp stillMonotone index (index + 1)
      (Nat.lt_of_succ_lt inside) inside (Nat.lt_succ_self index)
    exact lt_of_le_of_ne le (changing.getElem index inside)
  have : IsTrans Entry fun first second => key first < key second :=
    ⟨fun _ _ _ => lt_trans⟩
  exact growing.pairwise

end ClAmiga.Table
