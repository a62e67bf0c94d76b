import Mathlib.Data.Nat.SuccPred
import Mathlib.Algebra.Order.Ring.Nat
import ClAmiga.Fasl.Sharing

/-!
# Ids that are found again

The slots of the hash table are a well probed table of the objects and their ids, in the order in
which they were inserted.  A call ends if and only if a slot is free, the object is there, or the
table can be made larger.
-/

namespace ClAmiga.Fasl.Sharing

open Gc (Host)

/-- The hash table as slots with the objects and their ids. -/
def slots (objs : Nat → Obj) (hash : Nat → Nat) : Probe.Slots Obj Nat := fun a =>
  if hash a = 0 then .empty else .entry (objs (hash a - 1)) (hash a - 1)

variable {objs : Nat → Obj} {hash : Nat → Nat} {obj : Obj}

theorem slots_eq_empty {a : Nat} : slots objs hash a = .empty ↔ hash a = 0 := by
  unfold slots
  split <;> simp_all

theorem slots_ne_deleted (objs : Nat → Obj) (hash : Nat → Nat) (a : Nat) :
    slots objs hash a ≠ .deleted := by
  unfold slots
  split <;> simp

theorem slots_eq_entry {a : Nat} {id : Nat} :
    slots objs hash a = .entry obj id ↔ hash a = id + 1 ∧ objs id = obj := by
  unfold slots
  split
  · simp_all
  · rename_i used
    rw [Probe.Slot.entry.injEq]
    constructor
    · rintro ⟨rfl, rfl⟩
      exact ⟨by omega, rfl⟩
    · rintro ⟨here, rfl⟩
      exact ⟨by rw [here, Nat.add_sub_cancel], by rw [here, Nat.add_sub_cancel]⟩

section Loops

variable {tables : Tables} {k : Nat} {start : Nat} {obj : Obj}

theorem next_slot (k start i : Nat) :
    (Probe.probe (2 ^ k) start i + 1) &&& (2 ^ k - 1) = Probe.probe (2 ^ k) start (i + 1) := by
  rw [Nat.and_two_pow_sub_one_eq_mod, Probe.probe, Nat.mod_add_mod, Nat.add_assoc]
  rfl

theorem first_slot (k start : Nat) : start &&& (2 ^ k - 1) = Probe.probe (2 ^ k) start 0 := by
  rw [Nat.and_two_pow_sub_one_eq_mod]
  rfl

def Found.ofTarget (hash : Nat → Nat) : Probe.Target → Option Found
  | .found a => some (.hit (hash a - 1))
  | .vacant a => some (.free a)
  | .full => none

theorem probeLoop_of_target (size : tables.cap = 2 ^ k) (left : Nat) :
    ∀ i found, Found.ofTarget tables.hash
        (Probe.target (slots tables.objs tables.hash) (2 ^ k) start obj i left none) = some found →
      ∀ rounds, left ≤ rounds →
        probeLoop tables obj rounds (Probe.probe (2 ^ k) start i) = some found := by
  induction left with
  | zero =>
      intro i found target
      exact absurd target (by simp [Probe.target, Found.ofTarget])
  | succ left induction =>
      intro i found target rounds more
      obtain ⟨rounds, rfl⟩ := Nat.exists_eq_add_of_le' (Nat.succ_le_of_lt (Nat.zero_lt_of_lt more))
      rw [Probe.target] at target
      rw [probeLoop]
      cases here : slots tables.objs tables.hash (Probe.probe (2 ^ k) start i) with
      | empty =>
          rw [if_pos (slots_eq_empty.mp here)]
          rw [here] at target
          simpa [Found.ofTarget] using target
      | deleted => exact absurd here (slots_ne_deleted _ _ _)
      | entry held id =>
          obtain ⟨entry, at_id⟩ := slots_eq_entry.mp here
          rw [here] at target
          rw [if_neg (by omega), entry, Nat.add_sub_cancel, at_id]
          by_cases same : held = obj
          · simp only [if_pos same] at target ⊢
            rw [← target, Found.ofTarget, entry, Nat.add_sub_cancel]
          · simp only [if_neg same] at target ⊢
            rw [size, next_slot]
            exact induction (i + 1) found target rounds (by omega)

theorem probeLoop_full (size : tables.cap = 2 ^ k)
    (full : ∀ a < 2 ^ k, (slots tables.objs tables.hash a).isEntry = true)
    (absent : ∀ id, ¬ Probe.Holds (slots tables.objs tables.hash) (2 ^ k) obj id) (rounds : Nat) :
    ∀ slot < 2 ^ k, probeLoop tables obj rounds slot = none := by
  induction rounds with
  | zero =>
      intro slot inside
      rfl
  | succ rounds induction =>
      intro slot inside
      obtain ⟨held, id, here⟩ := Probe.Slot.isEntry_iff.mp (full slot inside)
      obtain ⟨entry, at_id⟩ := slots_eq_entry.mp here
      have other : held ≠ obj := by
        rintro rfl
        exact absent id ⟨slot, inside, here⟩
      rw [probeLoop, if_neg (by omega), entry, Nat.add_sub_cancel, at_id, if_neg other, size]
      refine induction _ ?_
      rw [Nat.and_two_pow_sub_one_eq_mod]
      exact Nat.mod_lt _ (Nat.two_pow_pos k)

theorem emptyLoop_of_target {objs newTable : Nat → _} {slot : Nat} (left : Nat) :
    ∀ i, Probe.target (slots objs newTable) (2 ^ k) start obj i left none = .vacant slot →
      ∀ rounds, left ≤ rounds →
        emptyLoop newTable (2 ^ k - 1) rounds (Probe.probe (2 ^ k) start i) = some slot := by
  induction left with
  | zero =>
      intro i target
      exact absurd target (by simp [Probe.target])
  | succ left induction =>
      intro i target rounds more
      obtain ⟨rounds, rfl⟩ := Nat.exists_eq_add_of_le' (Nat.succ_le_of_lt (Nat.zero_lt_of_lt more))
      rw [Probe.target] at target
      rw [emptyLoop]
      cases here : slots objs newTable (Probe.probe (2 ^ k) start i) with
      | empty =>
          rw [if_pos (slots_eq_empty.mp here)]
          rw [here] at target
          simpa using target
      | deleted => exact absurd here (slots_ne_deleted _ _ _)
      | entry held id =>
          obtain ⟨entry, -⟩ := slots_eq_entry.mp here
          rw [here] at target
          rw [if_neg (by omega), next_slot]
          by_cases same : held = obj
          · simp [if_pos same] at target
          · simp only [if_neg same] at target
            exact induction (i + 1) target rounds (by omega)

end Loops

theorem lookup_zipIdx (inserted : List Obj) (obj : Obj) (n : Nat) :
    (inserted.zipIdx n).lookup obj = (inserted.idxOf? obj).map (· + n) := by
  induction inserted generalizing n with
  | nil => rfl
  | cons head inserted induction =>
      rw [List.zipIdx_cons, List.lookup_cons, List.idxOf?_cons, induction]
      by_cases same : head = obj
      · simp [same]
      · rw [beq_false_of_ne same, beq_false_of_ne (Ne.symm same)]
        simp only [Bool.false_eq_true, if_false, Option.map_map]
        congr 1
        funext id
        simp only [Function.comp_apply]
        omega

/-- The objects in the order in which they were inserted, each with its place as its id. -/
structure Filled (host : Host) (tables : Tables) (inserted : List Obj) : Prop where
  count : tables.count = inserted.length
  few : inserted.length ≤ faslMaxShared
  distinct : inserted.Nodup
  objs : ∀ i obj, inserted[i]? = some obj → tables.objs i = obj
  power : ∃ k, 6 ≤ k ∧ k ≤ 17 ∧ tables.cap = 2 ^ k
  bounded : ∀ a, tables.hash a ≤ tables.count
  built : Probe.Built (slots tables.objs tables.hash) tables.cap (faslObjHash host)
    inserted.zipIdx

theorem slots_update {n : Nat} (bounded : ∀ a, hash a ≤ n) (slot : Nat) (obj : Obj) :
    slots (Function.update objs n obj) (Function.update hash slot (n + 1)) =
      Probe.put (slots objs hash) slot (.entry obj n) := by
  funext a
  by_cases here : a = slot
  · subst here
    rw [Probe.put_self, slots_eq_entry, Function.update_self, Function.update_self]
    exact ⟨rfl, rfl⟩
  · rw [Probe.put_of_ne _ _ here, slots, slots, Function.update_of_ne here]
    split
    · rfl
    · have := bounded a
      rw [Function.update_of_ne (by omega)]

namespace Filled

variable {host : Host} {tables : Tables} {inserted : List Obj} {obj : Obj}

theorem holds_iff (filled : Filled host tables inserted) {id : Nat} :
    Probe.Holds (slots tables.objs tables.hash) tables.cap obj id ↔
      inserted.idxOf? obj = some id := by
  rw [filled.built.holds, lookup_zipIdx]
  simp

theorem absent (filled : Filled host tables inserted) (new : obj ∉ inserted) (id : Nat) :
    ¬ Probe.Holds (slots tables.objs tables.hash) tables.cap obj id := by
  rw [filled.holds_iff, List.idxOf?_eq_none_iff.mpr new]
  exact nofun

theorem length_le_card (filled : Filled host tables inserted) :
    inserted.length ≤ (Probe.entries (slots tables.objs tables.hash) tables.cap).card := by
  refine Probe.le_card_entries filled.distinct fun obj member => ?_
  obtain ⟨id, first⟩ := Option.isSome_iff_exists.mp (List.isSome_idxOf?.mpr member)
  exact ⟨id, filled.holds_iff.mpr first⟩

theorem length_le_cap (filled : Filled host tables inserted) : inserted.length ≤ tables.cap := by
  refine filled.length_le_card.trans ?_
  refine (Finset.card_le_card (Finset.filter_subset _ _)).trans ?_
  rw [Finset.card_range]

theorem full_iff (filled : Filled host tables inserted) :
    (∀ a < tables.cap, (slots tables.objs tables.hash a).isEntry = true) ↔
      tables.cap ≤ inserted.length := by
  rw [← Probe.card_entries_eq_size_iff]
  constructor
  · intro full
    rw [← full]
    refine Probe.card_entries_le filled.built.probed inserted fun obj id held => ?_
    exact List.isSome_idxOf?.mp (by rw [filled.holds_iff.mp held]; rfl)
  · intro full
    refine le_antisymm ?_ (full.trans filled.length_le_card)
    refine (Finset.card_le_card (Finset.filter_subset _ _)).trans ?_
    rw [Finset.card_range]

theorem mem_iff (filled : Filled host tables inserted) :
    obj ∈ inserted ↔ ∃ i < tables.count, tables.objs i = obj := by
  constructor
  · intro member
    obtain ⟨i, inside, here⟩ := List.getElem_of_mem member
    have there : inserted[i]? = some obj := by rw [List.getElem?_eq_getElem inside, here]
    exact ⟨i, filled.count ▸ inside, filled.objs i obj there⟩
  · rintro ⟨i, inside, here⟩
    rw [filled.count] at inside
    have there := filled.objs i _ (List.getElem?_eq_getElem inside)
    rw [← here, there]
    exact List.getElem_mem inside

theorem probe_target (filled : Filled host tables inserted) {found : Found}
    (target : Found.ofTarget tables.hash (Probe.target (slots tables.objs tables.hash) tables.cap
      (faslObjHash host obj) obj 0 tables.cap none) = some found)
    {rounds : Nat} (more : tables.cap ≤ rounds) :
    probeLoop tables obj rounds (faslObjHash host obj &&& (tables.cap - 1)) = some found := by
  obtain ⟨k, -, -, size⟩ := filled.power
  rw [size] at target more
  rw [size, first_slot]
  exact probeLoop_of_target size (2 ^ k) 0 found target rounds more

theorem probe_hit (filled : Filled host tables inserted) {id : Nat}
    (first : inserted.idxOf? obj = some id) {rounds : Nat} (more : tables.cap ≤ rounds) :
    probeLoop tables obj rounds (faslObjHash host obj &&& (tables.cap - 1)) = some (.hit id) := by
  have held := filled.holds_iff.mpr first
  have spec : Probe.TargetSpec _ _ _ obj _ := Probe.target_spec filled.built.probed
  refine filled.probe_target ?_ more
  cases place : Probe.target (slots tables.objs tables.hash) tables.cap (faslObjHash host obj) obj
      0 tables.cap none with
  | found a =>
      rw [place] at spec
      obtain ⟨inside, value, here⟩ := spec
      obtain rfl := held.unique filled.built.probed ⟨a, inside, here⟩
      rw [Found.ofTarget, (slots_eq_entry.mp here).1, Nat.add_sub_cancel]
  | vacant a =>
      rw [place] at spec
      exact absurd held (spec.2.2.1 id)
  | full =>
      rw [place] at spec
      exact absurd held (spec.1 id)

theorem target_vacant (filled : Filled host tables inserted) (new : obj ∉ inserted)
    (room : inserted.length < tables.cap) :
    ∃ slot, Probe.target (slots tables.objs tables.hash) tables.cap (faslObjHash host obj) obj 0
      tables.cap none = .vacant slot := by
  refine filled.built.target_vacant (by rwa [List.length_zipIdx]) ?_
  rw [lookup_zipIdx, List.idxOf?_eq_none_iff.mpr new, Option.map_none]

theorem probe_endless (filled : Filled host tables inserted) (new : obj ∉ inserted)
    (full : tables.cap ≤ inserted.length) (rounds : Nat) :
    probeLoop tables obj rounds (faslObjHash host obj &&& (tables.cap - 1)) = none := by
  have entries := filled.full_iff.mpr full
  have absent := filled.absent new
  obtain ⟨k, -, -, size⟩ := filled.power
  rw [size] at entries absent
  refine probeLoop_full size entries absent rounds _ ?_
  rw [size, first_slot]
  exact Probe.probe_lt (Nat.two_pow_pos k) _ _

theorem insert (filled : Filled host tables inserted) (new : obj ∉ inserted) {slot : Nat}
    (place : Probe.target (slots tables.objs tables.hash) tables.cap (faslObjHash host obj) obj 0
      tables.cap none = .vacant slot)
    (room : inserted.length < tables.cap) (few : inserted.length < faslMaxShared) :
    Filled host
      { objs := Function.update tables.objs tables.count obj
        count := (tables.count + 1) % 2 ^ 16
        hash := Function.update tables.hash slot ((tables.count + 1) % 2 ^ 16)
        cap := tables.cap } (inserted ++ [obj]) := by
  have small : (tables.count + 1) % 2 ^ 16 = tables.count + 1 := by
    have := filled.count
    unfold faslMaxShared at few
    omega
  rw [small]
  constructor
  case count => simp [filled.count]
  case few =>
    rw [List.length_append, List.length_singleton]
    omega
  case distinct =>
    rw [List.nodup_append]
    refine ⟨filled.distinct, List.nodup_singleton obj, ?_⟩
    rintro a member b single rfl
    exact new (List.mem_singleton.mp single ▸ member)
  case objs =>
    intro i other here
    rcases Nat.lt_trichotomy i inserted.length with before | rfl | beyond
    · rw [List.getElem?_append_left before] at here
      have away : i ≠ tables.count := by
        have := filled.count
        omega
      dsimp only
      rw [Function.update_of_ne away]
      exact filled.objs i other here
    · rw [List.getElem?_concat_length] at here
      dsimp only
      rw [filled.count, Function.update_self]
      exact Option.some.inj here
    · rw [List.getElem?_eq_none (by simp; omega)] at here
      exact absurd here (by simp)
  case power => exact filled.power
  case bounded =>
    intro a
    dsimp only
    by_cases here : a = slot
    · subst here
      rw [Function.update_self]
    · rw [Function.update_of_ne here]
      exact (filled.bounded a).trans (Nat.le_succ _)
  case built =>
    have stored := filled.built.storeNew (by simpa using room) (obj, tables.count)
    rw [Probe.storeNew, place] at stored
    rw [slots_update filled.bounded, List.zipIdx_append, Nat.zero_add]
    simpa [filled.count] using stored

theorem fresh (host : Host) (objs : Nat → Obj) :
    Filled host ⟨objs, 0, fun _ => 0, initCap⟩ [] where
  count := rfl
  few := Nat.zero_le _
  distinct := List.nodup_nil
  objs i obj here := absurd here (by simp)
  power := ⟨6, by decide, by decide, rfl⟩
  bounded a := Nat.zero_le _
  built := .empty _ _

end Filled

section Growing

variable {host : Host} {tables : Tables} {inserted : List Obj}

theorem rehash_run (filled : Filled host tables inserted) {k : Nat}
    (larger : inserted.length < 2 ^ k) (n : Nat) (inside : n ≤ inserted.length) :
    ∃ newTable, (∀ rounds, 2 ^ k ≤ rounds →
        (List.range n).foldlM (rehash rounds host tables.objs (2 ^ k - 1)) (fun _ => 0) =
          some newTable) ∧ (∀ a, newTable a ≤ n) ∧
      Probe.Built (slots tables.objs newTable) (2 ^ k) (faslObjHash host)
        (inserted.take n).zipIdx := by
  induction n with
  | zero => exact ⟨_, fun _ _ => rfl, fun _ => Nat.le_refl _, .empty _ _⟩
  | succ n induction =>
      obtain ⟨newTable, run, bounded, built⟩ := induction (by omega)
      obtain ⟨obj, here⟩ : ∃ obj, inserted[n]? = some obj :=
        ⟨_, List.getElem?_eq_getElem (by omega)⟩
      have at_n := filled.objs n obj here
      have new : obj ∉ inserted.take n := by
        intro member
        obtain ⟨i, below, same⟩ := List.mem_take_iff_getElem.mp member
        obtain ⟨_, rfl⟩ := List.getElem?_eq_some_iff.mp here
        have := (List.Nodup.getElem_inj_iff filled.distinct).mp same
        omega
      have room : (inserted.take n).zipIdx.length < 2 ^ k := by
        rw [List.length_zipIdx, List.length_take]
        omega
      have unseen : (inserted.take n).zipIdx.lookup obj = none := by
        rw [lookup_zipIdx, List.idxOf?_eq_none_iff.mpr new, Option.map_none]
      obtain ⟨slot, place⟩ := built.target_vacant room unseen
      have stored := built.storeNew room (obj, n)
      rw [Probe.storeNew, place] at stored
      have small : (n + 1) % 2 ^ 16 = n + 1 := by
        have := filled.few
        unfold faslMaxShared at this
        omega
      have free := emptyLoop_of_target _ 0 place
      rw [← first_slot] at free
      have written : slots tables.objs (Function.update newTable slot (n + 1)) =
          Probe.put (slots tables.objs newTable) slot (.entry obj n) := by
        rw [← slots_update bounded, ← at_n, Function.update_eq_self]
      refine ⟨Function.update newTable slot (n + 1), fun rounds more => ?_, ?_, ?_⟩
      · rw [List.range_succ, List.foldlM_append, run rounds more]
        change (rehash rounds host tables.objs (2 ^ k - 1) newTable n >>= some) = _
        rw [rehash, at_n, free rounds more, small]
        rfl
      · intro a
        by_cases at_slot : a = slot
        · subst at_slot
          rw [Function.update_self]
        · rw [Function.update_of_ne at_slot]
          exact (bounded a).trans (Nat.le_succ _)
      · have next : inserted.take (n + 1) = inserted.take n ++ [obj] := by
          rw [List.take_add_one, here, Option.toList_some]
        rw [written, next, List.zipIdx_append, Nat.zero_add, List.length_take,
          Nat.min_eq_left (by omega)]
        exact stored

theorem grow_without_memory (rounds : Nat) (host : Host) (tables : Tables) :
    grow rounds host false tables = some tables := by
  unfold grow
  split <;> rfl

theorem grow_run (filled : Filled host tables inserted) (memory : Bool) :
    ∃ grown, (∀ rounds, maxCap ≤ rounds → grow rounds host memory tables = some grown) ∧
      Filled host grown inserted ∧ tables.cap ≤ grown.cap ∧
      (memory = true → inserted.length < grown.cap) := by
  obtain ⟨k, atLeast, atMost, size⟩ := filled.power
  have few := filled.few
  unfold faslMaxShared at few
  by_cases full : tables.count + 1 > tables.cap / 2 ∧ tables.cap < maxCap
  · cases memory with
    | false =>
        exact ⟨tables, fun rounds _ => grow_without_memory rounds host tables, filled,
          Nat.le_refl _, nofun⟩
    | true =>
        have smaller : k < 17 := by
          by_contra large
          obtain rfl : k = 17 := by omega
          exact absurd full.2 (by rw [size]; decide)
        have doubled : min (tables.cap * 2) maxCap = 2 ^ (k + 1) := by
          rw [size, ← Nat.pow_succ]
          refine Nat.min_eq_left ?_
          exact Nat.pow_le_pow_right (by decide) (show k + 1 ≤ 17 by omega)
        have larger : inserted.length < 2 ^ (k + 1) := by
          have := filled.length_le_cap
          rw [size] at this
          exact this.trans_lt (Nat.pow_lt_pow_right (by decide) (Nat.lt_succ_self k))
        have fits : 2 ^ (k + 1) ≤ maxCap :=
          Nat.pow_le_pow_right (by decide) (show k + 1 ≤ 17 by omega)
        obtain ⟨newTable, run, bounded, built⟩ :=
          rehash_run filled larger inserted.length (Nat.le_refl _)
        rw [List.take_length] at built
        refine ⟨{ tables with hash := newTable, cap := 2 ^ (k + 1) }, fun rounds more => ?_, ?_,
          ?_, fun _ => larger⟩
        · rw [grow, if_pos full, faslSharedHashResize, if_pos rfl, doubled, filled.count,
            run rounds (fits.trans more)]
          rfl
        · exact { filled with
            power := ⟨k + 1, by omega, by omega, rfl⟩
            bounded := fun a => (bounded a).trans filled.count.ge
            built := built }
        · rw [size]
          exact Nat.pow_le_pow_right (by decide) (Nat.le_succ k)
  · refine ⟨tables, fun rounds more => ?_, filled, Nat.le_refl _, fun _ => ?_⟩
    · rw [grow, if_neg full]
    · have count := filled.count
      unfold maxCap at full
      omega

end Growing

def Valid (host : Host) (w : Writer) (inserted : List Obj) : Prop :=
  match w.sharedObjs, w.sharedHash with
  | some objs, some hash => Filled host ⟨objs, w.sharedCount, hash, w.sharedHashCap⟩ inserted
  | none, some _ => False
  | _, none => inserted = [] ∧ w.sharedCount = 0

theorem valid_init (host : Host) : Valid host .init [] :=
  ⟨rfl, rfl⟩

section Step

variable {host : Host} {w : Writer} {inserted : List Obj}

theorem allocate_valid (valid : Valid host w inserted) (memory : Memory) (obj : Obj) :
    match allocate memory w with
    | .ok tables => Filled host tables inserted ∧
        (Room w (.getOrInsert memory obj) ↔
          inserted.length < tables.cap ∨ obj ∈ inserted ∨ memory.resize = true)
    | .error after => Valid host after inserted ∧ Room w (.getOrInsert memory obj) ∧
        inserted = [] ∧ (memory.objs = none ∨ memory.hash = false) := by
  obtain ⟨sharedObjs, sharedCount, sharedHash, sharedHashCap⟩ := w
  match sharedObjs, sharedHash, valid with
  | some objs, some hash, valid =>
      refine ⟨valid, ?_⟩
      have registered : obj ∈ inserted ↔ _ := valid.mem_iff
      have count := valid.count
      dsimp only at registered count
      rw [registered, ← count]
      exact Iff.rfl
  | some objs, none, ⟨noneInserted, noCount⟩ =>
      subst noneInserted
      obtain rfl : sharedCount = 0 := noCount
      unfold allocate
      cases given : memory.hash with
      | false => exact ⟨⟨rfl, rfl⟩, trivial, rfl, Or.inr rfl⟩
      | true => exact ⟨.fresh host objs, iff_of_true trivial (Or.inl (show 0 < initCap by decide))⟩
  | none, none, ⟨noneInserted, noCount⟩ =>
      subst noneInserted
      obtain rfl : sharedCount = 0 := noCount
      unfold allocate
      cases given : memory.objs with
      | none => exact ⟨⟨rfl, rfl⟩, trivial, rfl, Or.inl rfl⟩
      | some objs =>
          cases hash : memory.hash with
          | false => exact ⟨⟨rfl, rfl⟩, trivial, rfl, Or.inr rfl⟩
          | true =>
              exact ⟨.fresh host objs, iff_of_true trivial (Or.inl (show 0 < initCap by decide))⟩

theorem cap_le {tables : Tables} (filled : Filled host tables inserted) : tables.cap ≤ maxCap := by
  obtain ⟨k, -, atMost, size⟩ := filled.power
  rw [size]
  exact Nat.pow_le_pow_right (by decide) atMost

theorem getOrInsert_probe {memory : Memory} {tables grown : Tables} {rounds : Nat}
    (allocated : allocate memory w = .ok tables)
    (grows : grow rounds host memory.resize tables = some grown) :
    faslSharedGetOrInsert rounds host memory w obj =
      (probeLoop grown obj rounds (faslObjHash host obj &&& (grown.cap - 1))).map
        (store grown obj) := by
  rw [faslSharedGetOrInsert, allocated]
  dsimp only
  rw [grows, Option.map_eq_bind]
  rfl

theorem insert_ends {memory : Memory} {tables grown : Tables}
    (allocated : allocate memory w = .ok tables)
    (grows : ∀ rounds, maxCap ≤ rounds → grow rounds host memory.resize tables = some grown)
    (filled : Filled host grown inserted) (new : obj ∉ inserted)
    (free : inserted.length < grown.cap) (few : inserted.length < faslMaxShared) :
    ∃ after : Tables, Ends (fun rounds => (Op.getOrInsert memory obj).run rounds host w)
        (after.writer, .inserted inserted.length) ∧
      Filled host after (inserted ++ [obj]) ∧ after.cap = grown.cap := by
  obtain ⟨slot, place⟩ := filled.target_vacant new free
  refine ⟨_, ⟨maxCap, fun rounds more => ?_⟩, filled.insert new place free few, rfl⟩
  have stop : Found.ofTarget grown.hash (Probe.target (slots grown.objs grown.hash) grown.cap
      (faslObjHash host obj) obj 0 grown.cap none) = some (.free slot) := by
    rw [place]
    rfl
  change faslSharedGetOrInsert rounds host memory w obj = _
  rw [getOrInsert_probe allocated (grows rounds more),
    filled.probe_target stop ((cap_le filled).trans more), Option.map_some, store,
    if_neg (by rw [filled.count]; omega), filled.count]

/-- The call ends with an answer that is right, and the writer is valid after it. -/
def Answered (host : Host) (w : Writer) (inserted : List Obj) (op : Op) : Prop :=
  ∃ after outcome inserted',
    Ends (fun rounds => op.run rounds host w) (after, outcome) ∧
      Answers inserted op outcome inserted' ∧ Valid host after inserted'

theorem getOrInsert_answered (valid : Valid host w inserted) {memory : Memory}
    (room : Room w (.getOrInsert memory obj)) :
    Answered host w inserted (.getOrInsert memory obj) := by
  have opened := allocate_valid valid memory obj
  cases allocated : allocate memory w with
  | error after =>
      rw [allocated] at opened
      obtain ⟨valid', -, rfl, refused⟩ := opened
      refine ⟨after, .unable, [], ⟨0, fun rounds _ => ?_⟩,
        .unable List.not_mem_nil (Or.inr ⟨rfl, refused⟩), valid'⟩
      change faslSharedGetOrInsert rounds host memory w obj = _
      rw [faslSharedGetOrInsert, allocated]
  | ok tables =>
      rw [allocated] at opened
      obtain ⟨filled, room_iff⟩ := opened
      obtain ⟨grown, grows, filled', larger, resized⟩ := grow_run filled memory.resize
      have ends : ∀ found, (∀ rounds, grown.cap ≤ rounds → probeLoop grown obj rounds
          (faslObjHash host obj &&& (grown.cap - 1)) = some found) →
          Ends (fun rounds => (Op.getOrInsert memory obj).run rounds host w)
            (store grown obj found) := by
        intro found probe
        refine ⟨maxCap, fun rounds more => ?_⟩
        change faslSharedGetOrInsert rounds host memory w obj = _
        rw [getOrInsert_probe allocated (grows rounds more),
          probe rounds ((cap_le filled').trans more), Option.map_some]
      by_cases member : obj ∈ inserted
      · obtain ⟨id, first⟩ := Option.isSome_iff_exists.mp (List.isSome_idxOf?.mpr member)
        exact ⟨grown.writer, .hit id, inserted,
          ends _ fun rounds more => filled'.probe_hit first more, .hit first, filled'⟩
      · have free : inserted.length < grown.cap := by
          rcases room_iff.mp room with before | there | memory
          · exact before.trans_le larger
          · exact absurd there member
          · exact resized memory
        by_cases many : inserted.length < faslMaxShared
        · obtain ⟨after, ended, stored, -⟩ :=
            insert_ends allocated grows filled' member free many
          exact ⟨_, _, _, ended, .inserted member, stored⟩
        · obtain ⟨slot, place⟩ := filled'.target_vacant member free
          have ended := ends (.free slot) fun rounds more =>
            filled'.probe_target (by rw [place]; rfl) more
          rw [store, if_pos (by rw [filled'.count]; omega)] at ended
          exact ⟨_, _, inserted, ended,
            .unable member (Or.inl (le_antisymm filled'.few (Nat.not_lt.mp many))), filled'⟩

theorem getOrInsert_endless (valid : Valid host w inserted) {memory : Memory}
    (noRoom : ¬ Room w (.getOrInsert memory obj)) (rounds : Nat) :
    faslSharedGetOrInsert rounds host memory w obj = none := by
  have opened := allocate_valid valid memory obj
  cases allocated : allocate memory w with
  | error after =>
      rw [allocated] at opened
      exact absurd opened.2.1 noRoom
  | ok tables =>
      rw [allocated] at opened
      obtain ⟨filled, room_iff⟩ := opened
      rw [room_iff] at noRoom
      push Not at noRoom
      obtain ⟨full, new, noMemory⟩ := noRoom
      have kept : grow rounds host memory.resize tables = some tables := by
        rw [eq_false_of_ne_true noMemory, grow_without_memory]
      rw [getOrInsert_probe allocated kept, filled.probe_endless new full rounds, Option.map_none]

theorem lookup_probe {count : Nat} {cap : Nat}
    (filled : Filled host ⟨objs, count, hash, cap⟩ inserted) (rounds : Nat) :
    faslSharedLookup rounds host (Tables.writer ⟨objs, count, hash, cap⟩) obj =
      (probeLoop ⟨objs, count, hash, cap⟩ obj rounds (faslObjHash host obj &&& (cap - 1))).map
        fun found => (Tables.writer ⟨objs, count, hash, cap⟩, found.answer) := by
  obtain ⟨k, -, -, size⟩ := filled.power
  have allocated : cap ≠ 0 := by
    dsimp only at size
    rw [size]
    exact (Nat.two_pow_pos k).ne'
  rw [Option.map_eq_bind]
  exact if_neg allocated

theorem room_lookup {count : Nat} {cap : Nat}
    (filled : Filled host ⟨objs, count, hash, cap⟩ inserted) :
    Room (Tables.writer ⟨objs, count, hash, cap⟩) (.lookup obj) ↔
      inserted.length < cap ∨ obj ∈ inserted := by
  have registered : obj ∈ inserted ↔ _ := filled.mem_iff
  have length := filled.count
  dsimp only at registered length
  rw [registered, ← length]
  exact Iff.rfl

theorem lookup_answered (valid : Valid host w inserted) (room : Room w (.lookup obj)) :
    Answered host w inserted (.lookup obj) := by
  obtain ⟨sharedObjs, sharedCount, sharedHash, sharedHashCap⟩ := w
  match sharedObjs, sharedHash, valid with
  | some objs, some hash, filled =>
      have filled : Filled host ⟨objs, sharedCount, hash, sharedHashCap⟩ inserted := filled
      have ends : ∀ found, (∀ rounds, sharedHashCap ≤ rounds → probeLoop
          ⟨objs, sharedCount, hash, sharedHashCap⟩ obj rounds
          (faslObjHash host obj &&& (sharedHashCap - 1)) = some found) →
          Ends (fun rounds => (Op.lookup obj).run rounds host
            (Tables.writer ⟨objs, sharedCount, hash, sharedHashCap⟩))
            (Tables.writer ⟨objs, sharedCount, hash, sharedHashCap⟩, found.answer) := by
        intro found probe
        refine ⟨sharedHashCap, fun rounds more => ?_⟩
        exact (lookup_probe filled rounds).trans (by rw [probe rounds more, Option.map_some])
      by_cases member : obj ∈ inserted
      · obtain ⟨id, first⟩ := Option.isSome_iff_exists.mp (List.isSome_idxOf?.mpr member)
        exact ⟨_, .hit id, inserted, ends _ fun rounds more => filled.probe_hit first more,
          .found first, filled⟩
      · have free := ((room_lookup filled).mp room).resolve_right member
        obtain ⟨slot, place⟩ := filled.target_vacant member free
        exact ⟨_, .absent, inserted,
          ends (.free slot) fun rounds more => filled.probe_target (by rw [place]; rfl) more,
          .absent member, filled⟩
  | some objs, none, ⟨noneInserted, noCount⟩ =>
      subst noneInserted
      exact ⟨_, .absent, [], ⟨0, fun rounds _ => rfl⟩, .absent List.not_mem_nil, rfl, noCount⟩
  | none, none, ⟨noneInserted, noCount⟩ =>
      subst noneInserted
      exact ⟨_, .absent, [], ⟨0, fun rounds _ => rfl⟩, .absent List.not_mem_nil, rfl, noCount⟩

theorem lookup_endless (valid : Valid host w inserted)
    (noRoom : ¬ Room w (.lookup obj)) (rounds : Nat) :
    faslSharedLookup rounds host w obj = none := by
  obtain ⟨sharedObjs, sharedCount, sharedHash, sharedHashCap⟩ := w
  match sharedObjs, sharedHash, valid with
  | some objs, some hash, filled =>
      have filled : Filled host ⟨objs, sharedCount, hash, sharedHashCap⟩ inserted := filled
      obtain ⟨full, new⟩ := not_or.mp (mt (room_lookup filled).mpr noRoom)
      exact (lookup_probe filled rounds).trans (by
        rw [filled.probe_endless new (Nat.not_lt.mp full) rounds, Option.map_none])
  | some objs, none, _ => exact absurd trivial noRoom
  | none, none, _ => exact absurd trivial noRoom

theorem op_answered (valid : Valid host w inserted) {op : Op} (room : Room w op) :
    Answered host w inserted op := by
  cases op with
  | lookup obj => exact lookup_answered valid room
  | getOrInsert memory obj => exact getOrInsert_answered valid room

theorem op_endless (valid : Valid host w inserted) {op : Op} (noRoom : ¬ Room w op)
    (rounds : Nat) : op.run rounds host w = none := by
  cases op with
  | lookup obj => exact lookup_endless valid noRoom rounds
  | getOrInsert memory obj => exact getOrInsert_endless valid noRoom rounds

theorem Ends.unique {α : Type} {run : Nat → Option α} {a b : α} (first : Ends run a)
    (second : Ends run b) : a = b := by
  obtain ⟨bound, runs⟩ := first
  obtain ⟨bound', runs'⟩ := second
  have here := runs (max bound bound') (le_max_left ..)
  rw [runs' (max bound bound') (le_max_right ..)] at here
  exact (Option.some.inj here).symm

theorem Answers.unique {op : Op} {outcome : Outcome} {first second : List Obj}
    (here : Answers inserted op outcome first) (there : Answers inserted op outcome second) :
    first = second := by
  cases here <;> cases there <;> rfl

theorem shares_iff (ops : List Op) (valid : Valid host w inserted) :
    Shares host w inserted ops ↔ AllRoom host w ops := by
  induction ops generalizing w inserted with
  | nil => exact Iff.rfl
  | cons op ops induction =>
      by_cases room : Room w op
      · obtain ⟨after, outcome, inserted', ends, answers, valid'⟩ := op_answered valid room
        have rest := induction valid'
        constructor
        · rintro ⟨after', outcome', inserted'', ends', answers', shares⟩
          obtain ⟨rfl, rfl⟩ := Prod.mk.inj (ends.unique ends')
          obtain rfl := answers.unique answers'
          refine ⟨room, fun after' outcome' ends' => ?_⟩
          obtain ⟨rfl, rfl⟩ := Prod.mk.inj (ends.unique ends')
          exact rest.mp shares
        · rintro ⟨-, all⟩
          exact ⟨after, outcome, inserted', ends, answers, rest.mpr (all after outcome ends)⟩
      · have endless := op_endless valid room
        refine iff_of_false ?_ fun all => room all.1
        rintro ⟨after, outcome, inserted', ⟨bound, runs⟩, -⟩
        have ended := runs bound (Nat.le_refl _)
        exact absurd ((endless bound).symm.trans ended) nofun

end Step

/-- From a fresh writer on, the calls end and give the objects dense ids, which they find again, if
and only if there is room at every call. -/
theorem sharing_iff (host : Host) (ops : List Op) :
    Shares host .init [] ops ↔ AllRoom host .init ops :=
  shares_iff ops (valid_init host)

def FirstTable (w : Writer) : Prop :=
  ∀ hash, w.sharedHash = some hash → w.sharedHashCap = initCap

def noLarger : Memory where
  objs := some fun _ => 0
  hash := true
  resize := false

section Unresized

variable {host : Host} {w : Writer} {inserted : List Obj} {obj : Obj}

theorem insert_unresized (valid : Valid host w inserted) (first : FirstTable w)
    (new : obj ∉ inserted) (room : inserted.length < initCap) :
    ∃ after : Tables, Ends (fun rounds => (Op.getOrInsert noLarger obj).run rounds host w)
        (after.writer, .inserted inserted.length) ∧
      Filled host after (inserted ++ [obj]) ∧ after.cap = initCap := by
  have opened := allocate_valid valid noLarger obj
  cases allocated : allocate noLarger w with
  | error after =>
      rw [allocated] at opened
      obtain ⟨-, -, -, none | none⟩ := opened
      · cases none
      · cases none
  | ok tables =>
      rw [allocated] at opened
      have cap : tables.cap = initCap := by
        obtain ⟨sharedObjs, sharedCount, sharedHash, sharedHashCap⟩ := w
        cases sharedObjs <;> cases sharedHash <;> obtain rfl := Except.ok.inj allocated
        · rfl
        · exact first _ rfl
        · rfl
        · exact first _ rfl
      have few : inserted.length < faslMaxShared := room.trans (by decide)
      have ends := insert_ends allocated
        (fun rounds _ => grow_without_memory rounds host tables) opened.1 new (cap ▸ room) few
      rwa [cap] at ends

end Unresized

theorem unresized_full {host : Host} {other : Obj} (objs : List Obj) :
    ∀ {w : Writer} {inserted : List Obj}, Valid host w inserted → FirstTable w →
      (inserted ++ objs).Nodup → (inserted ++ objs).length = initCap → other ∉ inserted ++ objs →
      ¬ AllRoom host w (objs.map (.getOrInsert noLarger) ++ [.lookup other]) := by
  induction objs with
  | nil =>
      intro w inserted valid first distinct length new all
      rw [List.append_nil] at length new
      obtain ⟨sharedObjs, sharedCount, sharedHash, sharedHashCap⟩ := w
      match sharedObjs, sharedHash, valid with
      | some objs, some hash, filled =>
          have filled : Filled host ⟨objs, sharedCount, hash, sharedHashCap⟩ inserted := filled
          obtain rfl : sharedHashCap = initCap := first hash rfl
          rcases (room_lookup filled).mp all.1 with room | member
          · exact absurd room (by rw [length]; exact Nat.lt_irrefl _)
          · exact new member
      | some _, none, ⟨noneInserted, _⟩ =>
          subst noneInserted
          cases length
      | none, none, ⟨noneInserted, _⟩ =>
          subst noneInserted
          cases length
  | cons obj objs induction =>
      intro w inserted valid first distinct length new all
      have absent : obj ∉ inserted := fun member =>
        List.disjoint_of_nodup_append distinct member List.mem_cons_self
      have room : inserted.length < initCap := by
        rw [← length]
        simp
      obtain ⟨after, ends, filled, cap⟩ := insert_unresized valid first absent room
      rw [List.append_cons] at distinct length new
      have valid' : Valid host after.writer (inserted ++ [obj]) := filled
      exact induction valid' (fun _ _ => cap) distinct length new (all.2 _ _ ends)

/-- A full table and an object that is not in it: the lookup does not end. -/
theorem sharing_stuck : ¬ Shares .bits64 .init []
      ((List.range 64).map (fun i => .getOrInsert noLarger (BitVec.ofNat 32 (8 * i + 8))) ++
        [.lookup 520]) := by
  rw [shares_iff _ (valid_init _)]
  have stuck := @unresized_full .bits64 520
    ((List.range 64).map fun i => BitVec.ofNat 32 (8 * i + 8)) .init [] (valid_init .bits64)
    nofun (by decide) (by decide) (by decide)
  rwa [List.map_map] at stuck

end ClAmiga.Fasl.Sharing
