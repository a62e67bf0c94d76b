import Mathlib.Algebra.Group.Nat.Defs
import ClAmiga.Struct.Registry

/-!
# The lookups agree with the registry

A clean index answers as the walks of the registry do, and so does an entry of a cache with the
generation of the registry, as long as no new generation is one that an entry already has.
-/

namespace ClAmiga.Struct

theorem le_growCap {need fuel cap : Nat} (enough : need ≤ cap + fuel) (positive : 0 < cap) :
    need ≤ growCap need fuel cap := by
  induction fuel generalizing cap with
  | zero => exact enough
  | succ fuel induction =>
      rw [growCap]
      by_cases small : cap < need
      · rw [if_pos small]
        exact induction (by omega) (Nat.mul_pos Nat.two_pos positive)
      · rw [if_neg small]
        exact Nat.le_of_not_lt small

theorem le_capFor (count : Nat) : count ≤ capFor count := by
  have bound : count * 2 + 1 ≤ capFor count :=
    le_growCap (Nat.le_add_left _ _) (by decide)
  exact Nat.le_trans (by omega) bound

theorem lookup_names (table : List Entry) (typeName : Obj) :
    (table.map fun e => (e.name, e)).lookup typeName = walk typeName table := by
  induction table with
  | nil => rfl
  | cons entry table induction =>
      rw [List.map_cons, List.lookup_cons, walk, induction]
      by_cases same : entry.name = typeName
      · rw [if_pos same, same, BEq.rfl]
      · rw [if_neg same, beq_false_of_ne (Ne.symm same)]

theorem lookup_specPairs (name slotName : Obj) (idx : Int) (specs : List Spec) :
    ((specPairs name idx specs).lookup ⟨name, slotName⟩).getD (-1) =
      walkSpecs slotName idx specs := by
  induction specs generalizing idx with
  | nil => rfl
  | cons spec specs induction =>
      rw [specPairs, List.lookup_cons, walkSpecs]
      by_cases same : spec.name = slotName
      · rw [if_pos same, same, BEq.rfl]
        rfl
      · have other : SlotKey.mk name slotName ≠ ⟨name, spec.name⟩ := fun equal =>
          same (SlotKey.mk.inj equal).2.symm
        rw [if_neg same, beq_false_of_ne other]
        exact induction (idx + 1)

theorem lookup_specPairs_of_ne {name typeName : Obj} (different : typeName ≠ name)
    (slotName : Obj) (idx : Int) (specs : List Spec) :
    (specPairs name idx specs).lookup ⟨typeName, slotName⟩ = none := by
  induction specs generalizing idx with
  | nil => rfl
  | cons spec specs induction =>
      have other : SlotKey.mk typeName slotName ≠ ⟨name, spec.name⟩ := fun equal =>
        different (SlotKey.mk.inj equal).1
      rw [specPairs, List.lookup_cons, beq_false_of_ne other]
      exact induction (idx + 1)

theorem lookup_flatMap {K V : Type} [DecidableEq K] {key : K} {f : Nat → List (K × V)} (a : Nat)
    {blocks : List Nat} (only : ∀ i ∈ blocks, i ≠ a → (f i).lookup key = none) :
    (blocks.flatMap f).lookup key = if a ∈ blocks then (f a).lookup key else none := by
  induction blocks with
  | nil => rfl
  | cons i blocks induction =>
      rw [List.flatMap_cons, List.lookup_append,
        induction fun j member => only j (List.mem_cons_of_mem _ member)]
      by_cases here : i = a
      · subst here
        rw [if_pos List.mem_cons_self]
        cases (f i).lookup key with
        | none => split <;> rfl
        | some value => rfl
      · have member : a ∈ i :: blocks ↔ a ∈ blocks := by
          rw [List.mem_cons, or_iff_right (Ne.symm here)]
        rw [only i List.mem_cons_self here, Option.none_or]
        simp only [member]

def walkSlot (table : List Entry) (typeName slotName : Obj) : Int :=
  match walk typeName table with
  | none => -1
  | some entry => walkSpecs slotName 0 entry.specs

def typeTable (shift : Nat) (table : List Entry) : Table Obj Entry :=
  ⟨capFor table.length, Probe.build (capFor table.length) (nameSlot shift (capFor table.length))
    (table.map fun e => (e.name, e))⟩

def pairTable (shift : Nat) (table : List Entry) : Table SlotKey Int :=
  let winners := winningPairs (typeTable shift table)
  ⟨capFor winners.length, Probe.build (capFor winners.length)
    (pairSlot shift (capFor winners.length)) winners⟩

theorem typeTable_built (shift : Nat) (table : List Entry) :
    Probe.Built (typeTable shift table).slots (typeTable shift table).cap
      (nameSlot shift (typeTable shift table).cap) (table.map fun e => (e.name, e)) := by
  refine Probe.built_build ?_
  rw [List.length_map]
  exact le_capFor _

theorem structIndexProbe_typeTable (shift : Nat) (table : List Entry) (typeName : Obj) :
    structIndexProbe shift (typeTable shift table) typeName = walk typeName table := by
  rw [← lookup_names, structIndexProbe]
  refine Probe.lookup_build ?_ typeName
  rw [List.length_map]
  exact le_capFor _

theorem lookup_winningPairs (shift : Nat) (table : List Entry) (typeName slotName : Obj) :
    ((winningPairs (typeTable shift table)).lookup ⟨typeName, slotName⟩).getD (-1) =
      walkSlot table typeName slotName := by
  have built := typeTable_built shift table
  have holds := fun entry => built.holds typeName entry
  simp only [lookup_names] at holds
  -- the block of a slot with another type has no such pair
  have foreign : ∀ i < (typeTable shift table).cap,
      (∀ entry, (typeTable shift table).slots i ≠ .entry typeName entry) →
      (slotPairs (typeTable shift table) i).lookup ⟨typeName, slotName⟩ = none := by
    intro i _ apart
    rw [slotPairs]
    cases here : (typeTable shift table).slots i with
    | empty => rfl
    | deleted => rfl
    | entry name entry =>
        refine lookup_specPairs_of_ne ?_ slotName 0 entry.specs
        rintro rfl
        exact apart entry here
  rw [winningPairs, walkSlot]
  cases found : walk typeName table with
  | none =>
      have absent : ∀ i < (typeTable shift table).cap, ∀ entry,
          (typeTable shift table).slots i ≠ .entry typeName entry := by
        intro i below entry here
        have held := (holds entry).mp ⟨i, below, here⟩
        rw [found] at held
        cases held
      rw [lookup_flatMap (typeTable shift table).cap fun i member _ =>
        foreign i (List.mem_range.mp member) (absent i (List.mem_range.mp member)),
        if_neg fun member => absurd (List.mem_range.mp member) (Nat.lt_irrefl _)]
      rfl
  | some entry =>
      obtain ⟨a, inside, here⟩ := (holds entry).mpr found
      have others : ∀ i < (typeTable shift table).cap, i ≠ a → ∀ other,
          (typeTable shift table).slots i ≠ .entry typeName other :=
        fun i below different other there =>
          different (built.probed.unique below inside there here)
      rw [lookup_flatMap a fun i member different =>
        foreign i (List.mem_range.mp member) (others i (List.mem_range.mp member) different),
        if_pos (List.mem_range.mpr inside), slotPairs, here]
      exact lookup_specPairs typeName slotName 0 entry.specs

theorem slotPairProbe_build (shift : Nat) (winners : List (SlotKey × Int))
    (typeName slotName : Obj) :
    slotPairProbe shift ⟨capFor winners.length, Probe.build (capFor winners.length)
      (pairSlot shift (capFor winners.length)) winners⟩ typeName slotName =
      (winners.lookup ⟨typeName, slotName⟩).getD (-1) := by
  rw [slotPairProbe]
  dsimp only
  rw [Probe.lookup_build (le_capFor _)]

theorem slotPairProbe_pairTable (shift : Nat) (table : List Entry) (typeName slotName : Obj) :
    slotPairProbe shift (pairTable shift table) typeName slotName =
      walkSlot table typeName slotName := by
  rw [← lookup_winningPairs shift, ← slotPairProbe_build shift]
  rfl

/-- A clean index answers as the walks of the registry do. -/
structure Index.Reflects (shift : Nat) (table : List Entry) (index : Index) : Prop where
  slots : index.clean = true → ∀ types, index.slots = some types →
    ∀ typeName, structIndexProbe shift types typeName = walk typeName table
  pairs : index.clean = true → ∀ pairs, index.pairs = some pairs →
    ∀ typeName slotName, slotPairProbe shift pairs typeName slotName =
      walkSlot table typeName slotName

/-- What a lookup keeps: the registry, its generation and the caches; and the index reflects the
registry. -/
structure Kept (shift : Nat) (s s' : State) : Prop where
  table : s'.structTable = s.structTable
  gen : s'.layoutGen = s.layoutGen
  slotIc : s'.slotIc = s.slotIc
  index : s'.structIndex.Reflects shift s.structTable

variable {shift : Nat} {s : State}

theorem Kept.refl (index : s.structIndex.Reflects shift s.structTable) : Kept shift s s :=
  ⟨rfl, rfl, rfl, index⟩

/-- A rebuild that succeeds gives an index that answers as the list does. -/
theorem structIndexRebuild_spec (shift : Nat) (allocs : Allocs) (s : State) :
    Kept shift s (structIndexRebuild shift allocs s).2 ∧
      ((structIndexRebuild shift allocs s).1 = true →
        ∃ types, (structIndexRebuild shift allocs s).2.structIndex.slots = some types ∧
          ∀ typeName, structIndexProbe shift types typeName = walk typeName s.structTable) := by
  have disabled : Kept shift s (disable s) := by
    refine ⟨rfl, rfl, rfl, ⟨?_, ?_⟩⟩
    · intro _ _ held
      cases held
    · intro _ _ held
      cases held
  rw [structIndexRebuild]
  by_cases noSlots : allocs.slots = false
  · rw [if_pos noSlots]
    exact ⟨disabled, nofun⟩
  · rw [if_neg noSlots]
    dsimp only
    by_cases noPairs : allocs.pairs = false
    · rw [if_pos noPairs]
      exact ⟨disabled, nofun⟩
    · rw [if_neg noPairs]
      refine ⟨⟨rfl, rfl, rfl, ⟨?_, ?_⟩⟩, fun _ => ⟨_, rfl, ?_⟩⟩
      · intro _ types same
        cases same
        exact structIndexProbe_typeTable shift s.structTable
      · intro _ pairs same
        cases same
        exact slotPairProbe_pairTable shift s.structTable
      · exact structIndexProbe_typeTable shift s.structTable

/-- A lookup that rebuilds the index answers as the list does. -/
theorem findRebuilding_spec
    (index : s.structIndex.Reflects shift s.structTable) (allocs : Allocs) (typeName : Obj) :
    (findRebuilding shift allocs typeName s).1 = walk typeName s.structTable ∧
      Kept shift s (findRebuilding shift allocs typeName s).2 := by
  rw [findRebuilding]
  cases disabled : s.structIndex.disabled with
  | true => exact ⟨rfl, .refl index⟩
  | false =>
      rw [if_neg Bool.false_ne_true]
      by_cases ready : (s.structIndex.slots.isSome && !s.structIndex.dirty) = true
      · rw [if_pos ready]
        obtain ⟨some, notDirty⟩ := Bool.and_eq_true_iff.mp ready
        obtain ⟨types, held⟩ := Option.isSome_iff_exists.mp some
        have clean : s.structIndex.clean = true := by
          rw [Index.clean, notDirty, disabled]
          rfl
        simp only [held]
        exact ⟨index.slots clean types held typeName, .refl index⟩
      · rw [if_neg ready]
        obtain ⟨kept, probes⟩ := structIndexRebuild_spec shift allocs s
        cases usable : (structIndexRebuild shift allocs s).1 with
        | true =>
            obtain ⟨types, held, answers⟩ := probes usable
            simp only [usable, held]
            exact ⟨answers typeName, kept⟩
        | false =>
            simp only [usable, kept.table]
            exact ⟨trivial, kept⟩

/-- A lookup of a type answers as the list does. -/
theorem findStructEntry_spec
    (index : s.structIndex.Reflects shift s.structTable) (allocs : Allocs) (typeName : Obj) :
    (findStructEntry shift allocs typeName s).1 = walk typeName s.structTable ∧
      Kept shift s (findStructEntry shift allocs typeName s).2 := by
  have rebuilding := findRebuilding_spec index allocs typeName
  rw [findStructEntry]
  cases held : s.structIndex.slots with
  | none => exact rebuilding
  | some types =>
      dsimp only
      by_cases clean : s.structIndex.clean = true
      · rw [if_pos clean]
        exact ⟨index.slots clean types held typeName, .refl index⟩
      · rw [if_neg clean]
        exact rebuilding

/-- A slot is resolved through its type's entry. -/
theorem resolveByEntry_spec (index : s.structIndex.Reflects shift s.structTable) (allocs : Allocs)
    (typeDesc slotName : Obj) :
    (resolveByEntry shift allocs typeDesc slotName s).1 = walkSlot s.structTable typeDesc slotName ∧
      Kept shift s (resolveByEntry shift allocs typeDesc slotName s).2 := by
  obtain ⟨answer, kept⟩ := findStructEntry_spec index allocs typeDesc
  rw [resolveByEntry, walkSlot, ← answer]
  generalize findStructEntry shift allocs typeDesc s = found at answer kept ⊢
  obtain ⟨entry, s'⟩ := found
  cases entry with
  | none => exact ⟨rfl, kept⟩
  | some entry => exact ⟨rfl, kept⟩

/-- A slot is resolved through the shared cache, or through the entry. -/
theorem resolveShared_spec (index : s.structIndex.Reflects shift s.structTable) (allocs : Allocs)
    (typeDesc slotName : Obj) :
    (resolveShared shift allocs typeDesc slotName s).1 = walkSlot s.structTable typeDesc slotName ∧
      Kept shift s (resolveShared shift allocs typeDesc slotName s).2 := by
  have byEntry := resolveByEntry_spec index allocs typeDesc slotName
  rw [resolveShared]
  cases held : s.structIndex.pairs with
  | none => exact byEntry
  | some pairs =>
      dsimp only
      by_cases clean : s.structIndex.clean = true
      · rw [if_pos clean]
        exact ⟨index.pairs clean pairs held typeDesc slotName, .refl index⟩
      · rw [if_neg clean]
        exact byEntry

def State.Stamped (s : State) (thread place : Nat) : Prop :=
  (s.slotIc thread place).gen = s.layoutGen

/-- The index reflects the registry, and so does what counts in the caches. -/
structure State.Sound (shift : Nat) (s : State) : Prop where
  index : s.structIndex.Reflects shift s.structTable
  caches : ∀ thread place, s.Stamped thread place →
    (s.slotIc thread place).idx =
      walkSlot s.structTable (s.slotIc thread place).type (s.slotIc thread place).slot

/-- What a lookup of a slot by a thread changes: at most one entry of the cache of the thread, to
the position of the slot. -/
structure Resolved (shift : Nat) (s : State) (thread : Nat) (typeDesc slotName : Obj)
    (s' : State) : Prop where
  table : s'.structTable = s.structTable
  gen : s'.layoutGen = s.layoutGen
  index : s'.structIndex.Reflects shift s.structTable
  slotIc : ∀ other place, s'.slotIc other place = s.slotIc other place ∨
    other = thread ∧ s'.slotIc other place =
      ⟨typeDesc, slotName, walkSlot s.structTable typeDesc slotName, s.layoutGen⟩

/-- A slot is resolved as the registered list says, whichever cache answers. -/
theorem structSlotResolve_spec (sound : s.Sound shift) (allocs : Allocs)
    (thread : Nat) (st : Instance) (slotName : Obj) :
    (structSlotResolve shift allocs thread (some st) slotName s).1 =
        st.checked (walkSlot s.structTable st.typeDesc slotName) ∧
      Resolved shift s thread st.typeDesc slotName
        (structSlotResolve shift allocs thread (some st) slotName s).2 := by
  rw [structSlotResolve]
  dsimp only
  generalize icPlace shift st.typeDesc slotName = place
  by_cases hit : (s.slotIc thread place).gen = s.layoutGen ∧
      (s.slotIc thread place).type = st.typeDesc ∧ (s.slotIc thread place).slot = slotName
  · rw [if_pos hit]
    obtain ⟨stamped, type, slot⟩ := hit
    have cached := sound.caches thread place stamped
    rw [type, slot] at cached
    exact ⟨congrArg st.checked cached, rfl, rfl, sound.index, fun _ _ => .inl rfl⟩
  · rw [if_neg hit]
    obtain ⟨answer, kept⟩ := resolveShared_spec sound.index allocs st.typeDesc slotName
    refine ⟨congrArg st.checked answer, kept.table, kept.gen, kept.index, fun other at_ => ?_⟩
    rw [State.store, answer, kept.slotIc]
    dsimp only
    by_cases same : other = thread
    · subst same
      rw [Function.update_self]
      by_cases here : at_ = place
      · subst here
        rw [Function.update_self]
        exact .inr ⟨rfl, rfl⟩
      · rw [Function.update_of_ne here]
        exact .inl rfl
    · rw [Function.update_of_ne same]
      exact .inl rfl

theorem Resolved.sound {s s' : State} {thread : Nat} {typeDesc slotName : Obj}
    (resolved : Resolved shift s thread typeDesc slotName s') (sound : s.Sound shift) :
    s'.Sound shift := by
  obtain ⟨table, gen, index, slotIc⟩ := resolved
  refine ⟨by rw [table]; exact index, fun other place stamped => ?_⟩
  rw [State.Stamped, gen] at stamped
  rw [table]
  rcases slotIc other place with kept | ⟨_, stored⟩
  · rw [kept] at stamped ⊢
    exact sound.caches other place stamped
  · rw [stored]

theorem Kept.sound {s s' : State} (kept : Kept shift s s')
    (sound : s.Sound shift) : s'.Sound shift := by
  obtain ⟨table, gen, slotIc, index⟩ := kept
  refine ⟨by rw [table]; exact index, fun thread place stamped => ?_⟩
  rw [State.Stamped, slotIc, gen] at stamped
  rw [table, slotIc]
  exact sound.caches thread place stamped

def State.Unused (s : State) : Prop :=
  ∀ thread place, (s.slotIc thread place).gen ≠ s.layoutGen + 1

theorem invalidate_sound (unused : s.Unused) :
    s.invalidate.Sound shift where
  index :=
    { slots := nofun
      pairs := nofun }
  caches thread place stamped := absurd stamped (unused thread place)

def Op.Invalidates : Op → Prop
  | .register r => r.symbolP r.name = true ∧ fixnumP r.nSlots = true
  | .compact _ => True
  | _ => False

/-- The step brings no generation that an entry of a cache has already. -/
def Fresh (s : State) (op : Op) : Prop :=
  op.Invalidates → s.Unused

def AllFresh (shift : Nat) : State → List Op → Prop
  | _, [] => True
  | s, op :: ops => Fresh s op ∧ AllFresh shift (step shift s op) ops

/-- An operation keeps the caches sound unless it brings a generation an entry has
already. -/
theorem step_sound {op : Op} (sound : s.Sound shift)
    (fresh : Fresh s op) : (step shift s op).Sound shift := by
  cases op with
  | register r =>
      rw [step, registerStructType]
      by_cases symbol : r.symbolP r.name = true
      · rw [dif_pos symbol]
        by_cases fixnum : fixnumP r.nSlots = true
        · rw [if_pos fixnum]
          exact @invalidate_sound shift { s with structTable := _ } (fresh ⟨symbol, fixnum⟩)
        · rw [if_neg fixnum]
          exact sound
      · rw [dif_neg symbol]
        exact sound
  | compact r => exact @invalidate_sound shift { s with structTable := _ } (fresh trivial)
  | find allocs typeName => exact (findStructEntry_spec sound.index allocs typeName).2.sound sound
  | resolve allocs thread obj slotName =>
      cases obj with
      | none => exact sound
      | some st => exact (structSlotResolve_spec sound allocs thread st slotName).2.sound sound

theorem run_sound {ops : List Op} (sound : s.Sound shift)
    (fresh : AllFresh shift s ops) : (run shift s ops).Sound shift := by
  induction ops generalizing s with
  | nil => exact sound
  | cons op ops induction => exact induction (step_sound sound fresh.1) fresh.2

theorem allFresh_append {before after : List Op} : AllFresh shift s (before ++ after) ↔
      AllFresh shift s before ∧ AllFresh shift (run shift s before) after := by
  induction before generalizing s with
  | nil => exact (and_iff_right trivial).symm
  | cons op before induction =>
      rw [List.cons_append, AllFresh, AllFresh, induction, and_assoc]
      rfl

def Op.Resolves (thread : Nat) (ic : SlotICEntry) (op : Op) : Prop :=
  ∃ allocs st, op = .resolve allocs thread (some st) ic.slot ∧ st.typeDesc = ic.type

theorem not_stamped_of_invalidates {op : Op} (fresh : Fresh s op)
    (invalidates : op.Invalidates) (thread place : Nat) :
    ¬ (step shift s op).Stamped thread place := by
  cases op with
  | register r =>
      rw [step, registerStructType, dif_pos invalidates.1, if_pos invalidates.2]
      exact fresh invalidates thread place
  | compact r => exact fresh invalidates thread place
  | find => exact invalidates.elim
  | resolve => exact invalidates.elim

/-- An entry that counts after a step counted before it, or the step looked its pair up. -/
theorem step_stamped {op : Op} (sound : s.Sound shift)
    (fresh : Fresh s op) {thread place : Nat} (stamped : (step shift s op).Stamped thread place) :
    (s.Stamped thread place ∧ (step shift s op).slotIc thread place = s.slotIc thread place) ∨
      op.Resolves thread ((step shift s op).slotIc thread place) := by
  cases op with
  | register r =>
      by_cases symbol : r.symbolP r.name = true
      · by_cases fixnum : fixnumP r.nSlots = true
        · exact absurd stamped (not_stamped_of_invalidates fresh ⟨symbol, fixnum⟩ thread place)
        · rw [step, registerStructType, dif_pos symbol, if_neg fixnum] at stamped ⊢
          exact .inl ⟨stamped, rfl⟩
      · rw [step, registerStructType, dif_neg symbol] at stamped ⊢
        exact .inl ⟨stamped, rfl⟩
  | compact r => exact absurd stamped (not_stamped_of_invalidates fresh trivial thread place)
  | find allocs typeName =>
      have kept := (findStructEntry_spec sound.index allocs typeName).2
      rw [step] at stamped ⊢
      rw [State.Stamped, kept.slotIc, kept.gen] at stamped
      rw [kept.slotIc]
      exact .inl ⟨stamped, rfl⟩
  | resolve allocs other obj slotName =>
      cases obj with
      | none => exact .inl ⟨stamped, rfl⟩
      | some st =>
          have resolved := (structSlotResolve_spec sound allocs other st slotName).2
          rw [step] at stamped ⊢
          rw [State.Stamped, resolved.gen] at stamped
          rcases resolved.slotIc thread place with kept | ⟨rfl, stored⟩
          · rw [kept] at stamped ⊢
            exact .inl ⟨stamped, rfl⟩
          · rw [stored]
            exact .inr ⟨allocs, st, rfl, rfl⟩

theorem run_stamped {ops : List Op} (sound : s.Sound shift)
    (fresh : AllFresh shift s ops) {thread place : Nat}
    (stamped : (run shift s ops).Stamped thread place) :
    (s.Stamped thread place ∧ (run shift s ops).slotIc thread place = s.slotIc thread place) ∨
      ∃ op ∈ ops, op.Resolves thread ((run shift s ops).slotIc thread place) := by
  induction ops generalizing s with
  | nil => exact .inl ⟨stamped, rfl⟩
  | cons op ops induction =>
      have sound' := step_sound sound fresh.1
      rcases induction sound' fresh.2 stamped with ⟨earlier, same⟩ | ⟨later, member, resolves⟩
      · rw [run, List.foldl_cons] at stamped ⊢
        rw [run] at same
        rw [same]
        rcases step_stamped sound fresh.1 earlier with ⟨before, kept⟩ | resolves
        · exact .inl ⟨before, kept⟩
        · exact .inr ⟨op, List.mem_cons_self, resolves⟩
      · exact .inr ⟨later, List.mem_cons_of_mem _ member, resolves⟩

/-- Every lookup answers as the walks of the registry at that moment do. -/
structure State.Agrees (shift : Nat) (s : State) : Prop where
  entries : ∀ allocs typeName,
    (findStructEntry shift allocs typeName s).1 = walk typeName s.structTable
  slots : ∀ allocs thread st slotName,
    (structSlotResolve shift allocs thread (some st) slotName s).1 =
      st.checked (walkSlot s.structTable st.typeDesc slotName)

theorem initial_sound (shift : Nat) : State.initial.Sound shift where
  index :=
    { slots := nofun
      pairs := nofun }
  caches _ _ stamped := absurd (show (0 : BitVec 32) = 1 from stamped) (by decide)

/-- In a run in which no registration and no compaction brings a generation that an entry of a
cache has already, every lookup agrees with the registry, and an entry that counts was looked up
after the last of them. -/
theorem registry_agrees (shift : Nat) (ops : List Op) (fresh : AllFresh shift .initial ops) :
    (run shift .initial ops).Agrees shift ∧
    ∀ before op after, ops = before ++ op :: after → op.Invalidates →
      ∀ thread place, (run shift .initial ops).Stamped thread place →
        ∃ later ∈ after, later.Resolves thread ((run shift .initial ops).slotIc thread place) := by
  have sound := run_sound (initial_sound shift) fresh
  refine ⟨⟨fun allocs typeName => (findStructEntry_spec sound.index allocs typeName).1,
    fun allocs thread st slotName => (structSlotResolve_spec sound allocs thread st slotName).1⟩,
      ?_⟩
  rintro before op after rfl invalidates thread place stamped
  obtain ⟨freshBefore, freshOp, freshAfter⟩ := allFresh_append.mp fresh
  have soundBefore := run_sound (initial_sound shift) freshBefore
  have split : run shift .initial (before ++ op :: after) =
      run shift (step shift (run shift .initial before) op) after := by
    rw [run, List.foldl_append]
    rfl
  rw [split] at stamped ⊢
  rcases run_stamped (step_sound soundBefore freshOp) freshAfter stamped with ⟨earlier, _⟩ | later
  · exact absurd earlier (not_stamped_of_invalidates freshOp invalidates thread place)
  · exact later

/-- The generation is so many steps below its limit, and no entry of a cache is ahead of it. -/
def State.Behind (s : State) (left : Nat) : Prop :=
  s.layoutGen.toNat + left < 2 ^ 32 ∧
    ∀ thread place, (s.slotIc thread place).gen.toNat ≤ s.layoutGen.toNat

theorem State.Behind.next {left : Nat} (behind : s.Behind (left + 1)) :
    (s.layoutGen + 1).toNat = s.layoutGen.toNat + 1 := by
  have room := behind.1
  have one : (1 : BitVec 32).toNat = 1 := rfl
  rw [BitVec.toNat_add, one]
  omega

theorem State.Behind.unused {left : Nat} (behind : s.Behind (left + 1)) : s.Unused := by
  intro thread place same
  have ahead := behind.2 thread place
  rw [same, behind.next] at ahead
  omega

theorem State.Behind.invalidate {left : Nat} (behind : s.Behind (left + 1)) :
    s.invalidate.Behind left := by
  have room := behind.1
  refine ⟨?_, fun thread place => ?_⟩
  · change (s.layoutGen + 1).toNat + left < 2 ^ 32
    rw [behind.next]
    omega
  · change (s.slotIc thread place).gen.toNat ≤ (s.layoutGen + 1).toNat
    rw [behind.next]
    exact Nat.le_succ_of_le (behind.2 thread place)

theorem step_behind {op : Op} {left : Nat} (sound : s.Sound shift)
    (behind : s.Behind (left + 1)) : (step shift s op).Behind left := by
  have room := behind.1
  have keeps {s' : State} (gen : s'.layoutGen = s.layoutGen)
      (caches : ∀ thread place, (s'.slotIc thread place).gen = (s.slotIc thread place).gen ∨
        (s'.slotIc thread place).gen = s.layoutGen) : s'.Behind left := by
    refine ⟨by rw [gen]; omega, fun thread place => ?_⟩
    rw [gen]
    rcases caches thread place with kept | stored
    · rw [kept]
      exact behind.2 thread place
    · rw [stored]
  cases op with
  | register r =>
      rw [step, registerStructType]
      by_cases symbol : r.symbolP r.name = true
      · rw [dif_pos symbol]
        by_cases fixnum : fixnumP r.nSlots = true
        · rw [if_pos fixnum]
          exact @State.Behind.invalidate { s with structTable := _ } left behind
        · rw [if_neg fixnum]
          exact keeps rfl fun _ _ => .inl rfl
      · rw [dif_neg symbol]
        exact keeps rfl fun _ _ => .inl rfl
  | compact r => exact @State.Behind.invalidate { s with structTable := _ } left behind
  | find allocs typeName =>
      have kept := (findStructEntry_spec sound.index allocs typeName).2
      exact keeps kept.gen fun thread place => .inl (by rw [step, kept.slotIc])
  | resolve allocs thread obj slotName =>
      cases obj with
      | none => exact keeps rfl fun _ _ => .inl rfl
      | some st =>
          have resolved := (structSlotResolve_spec sound allocs thread st slotName).2
          refine keeps resolved.gen fun other place => ?_
          rcases resolved.slotIc other place with kept | ⟨_, stored⟩
          · exact .inl (by rw [step, kept])
          · exact .inr (by rw [step, stored])

theorem allFresh_of_behind {ops : List Op} (sound : s.Sound shift)
    (behind : s.Behind ops.length) : AllFresh shift s ops := by
  induction ops generalizing s with
  | nil => trivial
  | cons op ops induction =>
      have fresh : Fresh s op := fun _ => behind.unused
      exact ⟨fresh, induction (step_sound sound fresh) (step_behind sound behind)⟩

/-- In a run that is too short for the generation to wrap, every step is fresh. -/
theorem allFresh_of_short (shift : Nat) {ops : List Op} (short : ops.length < 2 ^ 32 - 1) :
    AllFresh shift .initial ops := by
  refine allFresh_of_behind (initial_sound shift) ⟨?_, fun _ _ => ?_⟩
  · change (1 : BitVec 32).toNat + ops.length < 2 ^ 32
    have one : (1 : BitVec 32).toNat = 1 := rfl
    omega
  · change (0 : BitVec 32).toNat ≤ (1 : BitVec 32).toNat
    decide

def stay : Relocation where
  move := id
  immediate _ _ := rfl
  heap _ inHeap := inHeap

theorem relocate_stay (e : Entry) : e.relocate stay = e := by
  have same : ∀ spec : Spec, spec.relocate stay = spec := by
    intro spec
    cases spec <;> rfl
  rw [Entry.relocate, List.map_congr_left fun spec _ => same spec, List.map_id']
  rfl

theorem run_stay (shift n : Nat) (s : State) :
    (run shift s (List.replicate n (.compact stay))).structTable = s.structTable ∧
    (run shift s (List.replicate n (.compact stay))).slotIc = s.slotIc ∧
    (run shift s (List.replicate n (.compact stay))).layoutGen = s.layoutGen +
      BitVec.ofNat 32 n := by
  induction n generalizing s with
  | zero => exact ⟨rfl, rfl, (BitVec.add_zero _).symm⟩
  | succ n induction =>
      obtain ⟨table, slotIc, gen⟩ := induction (compact stay s)
      rw [List.replicate_succ, run, List.foldl_cons]
      refine ⟨table.trans ?_, slotIc, gen.trans ?_⟩
      · change s.structTable.map (Entry.relocate stay) = s.structTable
        rw [List.map_congr_left fun e _ => relocate_stay e, List.map_id']
      · change s.layoutGen + 1 + BitVec.ofNat 32 n = s.layoutGen + BitVec.ofNat 32 (n + 1)
        rw [BitVec.add_assoc, Nat.add_comm n 1, BitVec.ofNat_add]
        rfl

/-- A type with the slots `a` and `b`. -/
def twoSlots : Registration where
  isSymbol _ := true
  cell := 64
  name := 8
  nSlots := 5
  parent := 0
  specs := [.bare 16, .bare 24]

/-- The same type with the slot `b` alone. -/
def oneSlot : Registration :=
  { twoSlots with cell := 96, nSlots := 3, specs := [.bare 24] }

def bothAllocs : Allocs := ⟨true, true⟩

/-- The slot `b` of an instance of two slots. -/
def resolveB : Op := .resolve bothAllocs 0 (some ⟨8, 2⟩) 24

/-- The name of the type moves from 8 to 40, and what is there takes its place. -/
def swapNames : Relocation where
  move obj := if obj = 8 then 40 else if obj = 40 then 8 else obj
  immediate obj outside := by
    have apart : obj ≠ 8 ∧ obj ≠ 40 := by
      constructor <;> (rintro rfl; exact absurd outside (by decide))
    rw [if_neg apart.1, if_neg apart.2]
  heap obj inHeap := by
    split
    · decide
    · split
      · decide
      · exact inHeap

/-- The second lookup, behind the compaction, is for the name at its new place. -/
def movedOps : List Op :=
  [.register twoSlots, resolveB, .compact swapNames, .resolve bothAllocs 0 (some ⟨40, 2⟩) 24,
    .register oneSlot]

/-- A collection that swaps two type names between lookups. -/
theorem registry_agrees_moved : ((run 3 .initial movedOps).structTable.map Entry.name = [8, 40] ∧
      (run 3 .initial movedOps).Agrees 3) ∧
    ∀ before op after, movedOps = before ++ op :: after → op.Invalidates →
      ∀ thread place, (run 3 .initial movedOps).Stamped thread place →
        ∃ later ∈ after, later.Resolves thread ((run 3 .initial movedOps).slotIc thread place) := by
  obtain ⟨agrees, later⟩ := registry_agrees 3 movedOps (allFresh_of_short 3 (by decide))
  exact ⟨⟨by decide +kernel, agrees⟩, later⟩

def redefined : State :=
  run 3 .initial [.register twoSlots, resolveB, .register oneSlot]

/-- After 2³² − 1 compactions the generation comes back to the one before the redefinition, and the
position of `b` in the old layout is found in the cache. -/
theorem wrapped_stale : ¬ ∀ ops, (run 3 .initial ops).Agrees 3 := by
  intro all
  obtain ⟨n, count⟩ : ∃ n, n = 2 ^ 32 - 1 := ⟨_, rfl⟩
  have agrees : (run 3 redefined (List.replicate n (.compact stay))).Agrees 3 := by
    have whole := all ([.register twoSlots, resolveB, .register oneSlot] ++
      List.replicate n (.compact stay))
    rw [run, List.foldl_append] at whole
    exact whole
  obtain ⟨table, slotIc, gen⟩ := run_stay 3 n redefined
  have cached : redefined.slotIc 0 (icPlace 3 8 24) = ⟨8, 24, 1, 2⟩ := by
    decide +kernel
  have wrapped : redefined.layoutGen + BitVec.ofNat 32 n = 2 := by
    rw [count]
    decide +kernel
  have answer := agrees.slots bothAllocs 0 ⟨8, 2⟩ 24
  rw [table, structSlotResolve] at answer
  dsimp only at answer
  rw [slotIc, cached, gen, wrapped, if_pos ⟨rfl, rfl, rfl⟩] at answer
  have layout : walkSlot redefined.structTable 8 24 = 0 := by
    decide +kernel
  rw [layout] at answer
  exact absurd (show (1 : Int) = 0 from answer) (by decide)

end ClAmiga.Struct
