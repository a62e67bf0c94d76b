import ClAmiga.Table.Rehome
import Mathlib.Data.Fintype.Card

/-!
# The source locations of moved conses

The source location of a cons stands in the slot that its offset hashes to.  After a compaction the
keys are forwarded, and the entries are carried to their new slots inside the same table.  Of the
entries that go to one slot, the one with the highest offset stays.
-/

namespace ClAmiga.Gc

/-- `CL_SrcLoc` -/
structure SrcLoc where
  consObj : BitVec 32
  line : BitVec 16
  fileId : BitVec 16
deriving DecidableEq, Repr

/-- `CL_SRCLOC_SIZE` -/
abbrev srclocSize : Nat := 2048

/-- `CL_SRCLOC_INDEX` -/
def srclocIndex (obj : BitVec 32) : Fin srclocSize :=
  ⟨(obj >>> 2).toNat % srclocSize, Nat.mod_lt _ (by decide)⟩

/-- `cl_srcloc_table` -/
abbrev SrcLocTable := Fin srclocSize → SrcLoc

/-- `CL_NULL_P`, `CL_FIXNUM_P` or `CL_CHAR_P` -/
def ImmediateKey (obj : BitVec 32) : Prop :=
  obj = 0 ∨ obj &&& 1 ≠ 0 ∨ obj &&& 0xFF = 0x0A

instance (obj : BitVec 32) : Decidable (ImmediateKey obj) :=
  inferInstanceAs (Decidable (_ ∨ _))

/-- The first loop of `gc_srcloc_forward`. -/
def forwardKeys (gcForward : BitVec 32 → BitVec 32) (table : SrcLocTable) : SrcLocTable :=
  fun slot =>
    if ImmediateKey (table slot).consObj then table slot
    else { table slot with consObj := gcForward (table slot).consObj }

/-- The inner loop of `gc_srcloc_forward`, for a bounded number of rounds. -/
def carryHome : Nat → SrcLocTable → SrcLoc → Fin srclocSize → Option SrcLocTable
  | 0, _, _, _ => none
  | rounds + 1, table, carry, home =>
      let slot := table home
      if slot.consObj = 0 then some (Function.update table home carry)
      else if srclocIndex slot.consObj = home then
        some (if carry.consObj > slot.consObj then Function.update table home carry else table)
      else carryHome rounds (Function.update table home carry) slot (srclocIndex slot.consObj)

/-- A round of the outer loop. -/
def rehomeSlot (rounds : Nat) (table : SrcLocTable) (slot : Fin srclocSize) :
    Option SrcLocTable :=
  if (table slot).consObj = 0 then some table
  else
    let home := srclocIndex (table slot).consObj
    if home = slot then some table
    else
      carryHome rounds (Function.update table slot { table slot with consObj := 0 })
        (table slot) home

/-- `gc_srcloc_forward` -/
def gcSrclocForward (rounds : Nat) (gcForward : BitVec 32 → BitVec 32) (table : SrcLocTable) :
    Option SrcLocTable :=
  (List.finRange srclocSize).foldlM (rehomeSlot rounds) (forwardKeys gcForward table)

def entries (table : SrcLocTable) : Table.Slots srclocSize SrcLoc := fun slot =>
  if (table slot).consObj = 0 then none else some (table slot)

def SrcLoc.home (loc : SrcLoc) : Fin srclocSize :=
  srclocIndex loc.consObj

/-- The higher offset keeps the slot. -/
def SrcLoc.prefers (loc other : SrcLoc) : Bool :=
  loc.consObj > other.consObj

theorem entries_eq_some {table : SrcLocTable} {slot : Fin srclocSize} {loc : SrcLoc} :
    entries table slot = some loc ↔ (table slot).consObj ≠ 0 ∧ table slot = loc := by
  unfold entries
  split <;> simp_all

theorem entries_eq_none {table : SrcLocTable} {slot : Fin srclocSize} :
    entries table slot = none ↔ (table slot).consObj = 0 := by
  unfold entries
  split <;> simp_all

theorem entries_update (table : SrcLocTable) (slot : Fin srclocSize) (loc : SrcLoc) :
    entries (Function.update table slot loc) =
      Function.update (entries table) slot (if loc.consObj = 0 then none else some loc) := by
  funext other
  rcases eq_or_ne other slot with rfl | away
  · simp [entries]
  · simp [entries, Function.update_of_ne away]

theorem entries_put (table : SrcLocTable) {loc : SrcLoc} (keyed : loc.consObj ≠ 0)
    (slot : Fin srclocSize) :
    entries (Function.update table slot loc) = Function.update (entries table) slot (some loc) := by
  rw [entries_update, if_neg keyed]

theorem carryHome_settles (bound : Nat) (table : SrcLocTable) (carry : SrcLoc)
    (keyed : carry.consObj ≠ 0)
    (enough : (Table.misplaced SrcLoc.home (entries table)).card ≤ bound) :
    ∃ after, entries after = Table.settle SrcLoc.home SrcLoc.prefers (entries table) carry ∧
      ∀ rounds, bound < rounds → carryHome rounds table carry carry.home = some after := by
  induction bound using Nat.strong_induction_on generalizing table carry with
  | h bound induction =>
      by_cases empty : (table carry.home).consObj = 0
      · refine ⟨Function.update table carry.home carry, ?_, ?_⟩
        · rw [entries_put table keyed, Table.settle_empty (entries_eq_none.mpr empty)]
        · intro rounds more
          obtain ⟨rounds, rfl⟩ := Nat.exists_eq_add_of_lt (Nat.zero_lt_of_lt more)
          rw [Nat.zero_add, carryHome]
          rw [if_pos empty]
      · have found : entries table carry.home = some (table carry.home) :=
          entries_eq_some.mpr ⟨empty, rfl⟩
        by_cases own : (table carry.home).home = carry.home
        · refine ⟨if carry.consObj > (table carry.home).consObj then
            Function.update table carry.home carry else table, ?_, ?_⟩
          · rw [Table.settle_meets found own]
            unfold SrcLoc.prefers
            by_cases higher : carry.consObj > (table carry.home).consObj
            · rw [if_pos higher, if_pos (by simpa using higher), entries_put table keyed]
            · rw [if_neg higher, if_neg (by simpa using higher)]
          · intro rounds more
            obtain ⟨rounds, rfl⟩ := Nat.exists_eq_add_of_lt (Nat.zero_lt_of_lt more)
            rw [Nat.zero_add, carryHome]
            rw [if_neg empty]
            exact if_pos own
        · -- the entry that is met is misplaced, and one less is after the exchange
          have astray : carry.home ∈ Table.misplaced SrcLoc.home (entries table) :=
            Table.mem_misplaced.mpr ⟨_, found, own⟩
          have fewer : (Table.misplaced SrcLoc.home
              (entries (Function.update table carry.home carry))).card ≤ bound - 1 := by
            rw [entries_put table keyed, Table.misplaced_home, Finset.card_erase_of_mem astray]
            omega
          have some_left : 0 < bound := (Finset.card_pos.mpr ⟨_, astray⟩).trans_le enough
          obtain ⟨after, settled, runs⟩ :=
            induction (bound - 1) (by omega) _ (table carry.home) empty fewer
          refine ⟨after, ?_, ?_⟩
          · rw [settled, entries_put table keyed, Table.settle_displaces found own]
          · intro rounds more
            obtain ⟨rounds, rfl⟩ := Nat.exists_eq_add_of_lt (Nat.zero_lt_of_lt more)
            rw [Nat.zero_add, carryHome]
            rw [if_neg empty]
            exact (if_neg own).trans (runs rounds (by omega))

theorem rehomeSlot_rehomes (table : SrcLocTable) (slot : Fin srclocSize) :
    ∃ after, entries after = Table.rehomeAt SrcLoc.home SrcLoc.prefers (entries table) slot ∧
      ∀ rounds, srclocSize < rounds → rehomeSlot rounds table slot = some after := by
  unfold rehomeSlot Table.rehomeAt
  by_cases empty : (table slot).consObj = 0
  · refine ⟨table, ?_, fun rounds more => by rw [if_pos empty]⟩
    rw [entries_eq_none.mpr empty]
  · rw [entries_eq_some.mpr ⟨empty, rfl⟩]
    dsimp only
    by_cases own : (table slot).home = slot
    · refine ⟨table, by rw [if_pos own], fun rounds more => ?_⟩
      rw [if_neg empty]
      exact if_pos own
    · have few : (Table.misplaced SrcLoc.home
          (entries (Function.update table slot { table slot with consObj := 0 }))).card ≤
            srclocSize := by
        refine (Finset.card_le_univ _).trans ?_
        rw [Fintype.card_fin]
      obtain ⟨after, settled, runs⟩ := carryHome_settles srclocSize _ (table slot) empty few
      refine ⟨after, ?_, fun rounds more => ?_⟩
      · rw [settled, entries_update, if_pos rfl, if_neg own]
      · rw [if_neg empty]
        exact (if_neg own).trans (runs rounds more)

theorem rehomeSlots_rehome (slots : List (Fin srclocSize)) (table : SrcLocTable) :
    ∃ after, entries after =
        slots.foldl (Table.rehomeAt SrcLoc.home SrcLoc.prefers) (entries table) ∧
      ∀ rounds, srclocSize < rounds → slots.foldlM (rehomeSlot rounds) table = some after := by
  induction slots generalizing table with
  | nil => exact ⟨table, rfl, fun rounds more => rfl⟩
  | cons slot slots induction =>
      obtain ⟨next, rehomed, step⟩ := rehomeSlot_rehomes table slot
      obtain ⟨after, rest, runs⟩ := induction next
      refine ⟨after, ?_, fun rounds more => ?_⟩
      · rw [rest, rehomed, List.foldl_cons]
      · rw [List.foldlM_cons, step rounds more]
        exact runs rounds more

theorem prefers_irreflexive (loc : SrcLoc) : loc.prefers loc = false := by
  simp [SrcLoc.prefers]

theorem prefers_transitive (a b c : SrcLoc) (ab : a.prefers b = true) (bc : b.prefers c = true) :
    a.prefers c = true := by
  simp only [SrcLoc.prefers, decide_eq_true_eq, gt_iff_lt] at *
  exact BitVec.lt_trans bc ab

/-- The table after `gc_srcloc_forward`. -/
structure SrclocRehomed (keyed after : SrcLocTable) : Prop where
  at_home : ∀ slot, (after slot).consObj ≠ 0 → srclocIndex (after slot).consObj = slot
  from_table : ∀ slot, (after slot).consObj ≠ 0 → ∃ slot', keyed slot' = after slot
  preferred : ∀ slot, (keyed slot).consObj ≠ 0 →
    (after (srclocIndex (keyed slot).consObj)).consObj ≠ 0 ∧
    ¬ (keyed slot).consObj > (after (srclocIndex (keyed slot).consObj)).consObj
  unique : ∀ slot slot', (after slot).consObj ≠ 0 →
    (after slot).consObj = (after slot').consObj → slot = slot'

/-- The loops end, and each slot then holds the entry with the highest offset among those that hash
to it. -/
theorem gcSrclocForward_rehomes (gcForward : BitVec 32 → BitVec 32) (table : SrcLocTable) :
    ∃ after, (∀ rounds, srclocSize < rounds → gcSrclocForward rounds gcForward table = some after) ∧
      SrclocRehomed (forwardKeys gcForward table) after := by
  obtain ⟨after, passed, runs⟩ :=
    rehomeSlots_rehome (List.finRange srclocSize) (forwardKeys gcForward table)
  have rehomed : Table.Rehomed SrcLoc.home SrcLoc.prefers
      (entries (forwardKeys gcForward table)) (entries after) := by
    rw [passed]
    exact Table.rehome_spec prefers_irreflexive prefers_transitive _
  refine ⟨after, runs, ?_, ?_, ?_, ?_⟩
  · intro slot occupied
    exact rehomed.at_home slot _ (entries_eq_some.mpr ⟨occupied, rfl⟩)
  · intro slot occupied
    obtain ⟨slot', found⟩ := rehomed.from_start slot _ (entries_eq_some.mpr ⟨occupied, rfl⟩)
    exact ⟨slot', (entries_eq_some.mp found).2⟩
  · intro slot occupied
    obtain ⟨kept, found, least⟩ := rehomed.preferred slot _ (entries_eq_some.mpr ⟨occupied, rfl⟩)
    obtain ⟨keyed, rfl⟩ := entries_eq_some.mp found
    exact ⟨keyed, by simpa [SrcLoc.prefers, SrcLoc.home] using least⟩
  · intro slot slot' occupied same
    have found := entries_eq_some.mpr ⟨occupied, rfl⟩
    have found' := entries_eq_some.mpr ⟨same ▸ occupied, rfl⟩
    refine rehomed.unique found found' ?_
    unfold SrcLoc.home
    rw [same]

end ClAmiga.Gc
