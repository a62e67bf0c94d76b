import ClAmiga.Gc.RootWalk

/-!
# Every root slot is forwarded once

`gc_forward` must not see a slot twice: a new offset can be some other object's
old one.  No two visits of the walks meet the same slot, since every part of a
walk has fields of its own, and forwarding a slot never changes what the walks
visit afterwards.  The registered addresses that remain after the probe are
each the first copy of an address that no walk visits.
-/

namespace ClAmiga.Gc

/-- The slots the steps of a walk name, visited or not. -/
def slotsOf (segments : List Segment) : List Slot :=
  (stepsOf segments).flatMap Step.slots

theorem slotsOf_cons (segment : Segment) (segments : List Segment) : slotsOf (segment :: segments) =
      segment.steps.flatMap Step.slots ++ slotsOf segments := by
  simp [slotsOf, stepsOf]

theorem key_mem {segments : List Segment} {slot : Slot} (member : slot ∈ slotsOf segments) :
    (slot.owner, slot.field) ∈ segments.flatMap Segment.keys := by
  induction segments with
  | nil => simp [slotsOf, stepsOf] at member
  | cons segment segments induction =>
      rw [slotsOf_cons] at member
      rw [List.flatMap_cons]
      rcases List.mem_append.mp member with here | later
      · exact List.mem_append_left _ (segment.inside slot here)
      · exact List.mem_append_right _ (induction later)

theorem slotsOf_nodup {segments : List Segment} (distinct : (segments.flatMap Segment.keys).Nodup) :
    (slotsOf segments).Nodup := by
  induction segments with
  | nil => exact List.nodup_nil
  | cons segment segments induction =>
      rw [List.flatMap_cons] at distinct
      obtain ⟨here, later, apart⟩ := List.nodup_append.mp distinct
      rw [slotsOf_cons]
      refine List.nodup_append.mpr ⟨segment.distinct here, induction later, ?_⟩
      rintro slot first _ second rfl
      exact apart _ (segment.inside slot first) _ (key_mem second) rfl

theorem keys_inner {owner : Owner} {fields : List Field} (distinct : fields.Nodup) :
    (fields.map fun field => (owner, field)).Nodup :=
  distinct.map fun _ _ same => (Prod.mk.inj same).2

def compilerFields : List Field :=
  [.constants, .blocksTag, .tagbodiesId, .tagsTag, .notinlineFns, .outerBlocks,
    .outerTagsTag, .outerTagsTagbodyId, .tailContForm, .llRequired, .llOptNames,
    .llOptDefaults, .llOptSuppliedp, .llRestName, .llKeyNames, .llKeyKeywords,
    .llKeyDefaults, .llKeySuppliedp, .llAuxNames, .llAuxInits, .envLocals,
    .localFunsName, .localFunsInlineBody, .localFunsInlineParams,
    .localMacrosName, .localMacrosExpander, .symbolMacrosName,
    .symbolMacrosExpansion]

def leadingFields : List Field :=
  [.dynSymbol, .dynOldValue, .nlxTag, .nlxResult, .nlxBytecode,
    .handlerTypeName, .handlerHandler, .restartName, .restartHandler,
    .restartTag, .restartRestart, .vmStack, .vmFramesBytecode, .mvValues,
    .pendingTag, .pendingValue, .mvSaveBuf, .pendingMvValues, .savedPendingTag,
    .savedPendingValue, .savedPendingMvValues, .pendingLambdaName,
    .callbackError, .lastCondition, .threadName, .threadResult, .interruptFunc,
    .threadObj, .waitObj, .waitLock, .currentLexEnv, .currentPackage, .rdStream,
    .rdUninterned, .rdLabels, .prInprog, .prStream, .prCircleKeys,
    .ltvInitCells, .ltvInitThunks]

def trailingFields : List Field :=
  [.vmExtraArgsBuf, .tlvSymbol, .tlvValue]

theorem Thread.leadingKeys_eq (t : Nat) (thread : Thread) :
    (thread.leading t).flatMap Segment.keys =
      leadingFields.map fun field => (Owner.thread t, field) :=
  rfl

theorem Thread.trailingKeys_eq (t : Nat) (thread : Thread) :
    (thread.trailing t).flatMap Segment.keys =
      trailingFields.map fun field => (Owner.thread t, field) :=
  rfl

theorem flatMap_zipIdx_nodup {α : Type} {items : List α}
    {keys : α × Nat → List (Owner × Field)} (index : Owner → Option Nat)
    (distinct : ∀ entry, (keys entry).Nodup)
    (owned : ∀ entry, ∀ key ∈ keys entry, index key.1 = some entry.2) :
    (items.zipIdx.flatMap keys).Nodup := by
  rw [List.nodup_flatMap]
  refine ⟨fun entry _ => distinct entry, ?_⟩
  have indices : (items.zipIdx.map Prod.snd).Nodup := by
    rw [List.zipIdx_map_snd]
    exact List.nodup_range'
  refine (List.pairwise_map.mp indices).imp ?_
  intro first second different
  rw [Function.onFun, List.disjoint_left]
  intro key here there
  have same := (owned first key here).symm.trans (owned second key there)
  exact different (Option.some.inj same)

def Owner.threadIndex : Owner → Option Nat
  | .thread t => some t
  | .compiler t _ => some t
  | _ => none

def Owner.compilerIndex : Owner → Option Nat
  | .compiler _ c => some c
  | _ => none

theorem Thread.keys_eq (t : Nat) (thread : Thread) : (thread.segments t).flatMap Segment.keys =
      (leadingFields.map fun field => (Owner.thread t, field)) ++
        (thread.compilers.zipIdx.flatMap fun entry =>
          compilerFields.map fun field => (Owner.compiler t entry.2, field)) ++
        trailingFields.map fun field => (Owner.thread t, field) := by
  rw [Thread.segments, List.flatMap_append, List.flatMap_append,
    thread.leadingKeys_eq, thread.trailingKeys_eq, List.flatMap_assoc]
  rfl

theorem Thread.keys_nodup (t : Nat) (thread : Thread) :
    ((thread.segments t).flatMap Segment.keys).Nodup := by
  have fields : (leadingFields ++ trailingFields).Nodup := by decide +kernel
  obtain ⟨leading, trailing, apart⟩ := List.nodup_append.mp fields
  have compilers : (thread.compilers.zipIdx.flatMap fun entry =>
      compilerFields.map fun field => (Owner.compiler t entry.2, field)).Nodup := by
    refine flatMap_zipIdx_nodup Owner.compilerIndex
      (fun entry => keys_inner (by decide +kernel)) ?_
    intro entry key member
    obtain ⟨field, _, rfl⟩ := List.mem_map.mp member
    rfl
  rw [thread.keys_eq, List.nodup_append, List.nodup_append]
  refine ⟨⟨keys_inner leading, compilers, ?_⟩, keys_inner trailing, ?_⟩
  · rintro _ first _ second rfl
    obtain ⟨_, _, rfl⟩ := List.mem_map.mp first
    obtain ⟨_, _, inner⟩ := List.mem_flatMap.mp second
    obtain ⟨_, _, same⟩ := List.mem_map.mp inner
    simp at same
  · rintro _ first _ second rfl
    obtain ⟨field, fieldMember, rfl⟩ := List.mem_map.mp second
    rcases List.mem_append.mp first with early | compiler
    · obtain ⟨other, otherMember, same⟩ := List.mem_map.mp early
      exact apart other otherMember field fieldMember (Prod.mk.inj same).2
    · obtain ⟨_, _, inner⟩ := List.mem_flatMap.mp compiler
      obtain ⟨_, _, same⟩ := List.mem_map.mp inner
      simp at same

theorem Thread.keys_owned {t : Nat} {thread : Thread} {key : Owner × Field}
    (member : key ∈ (thread.segments t).flatMap Segment.keys) :
    key.1.threadIndex = some t := by
  rw [thread.keys_eq, List.mem_append, List.mem_append] at member
  rcases member with (early | compiler) | late
  · obtain ⟨_, _, rfl⟩ := List.mem_map.mp early
    rfl
  · obtain ⟨_, _, inner⟩ := List.mem_flatMap.mp compiler
    obtain ⟨_, _, rfl⟩ := List.mem_map.mp inner
    rfl
  · obtain ⟨_, _, rfl⟩ := List.mem_map.mp late
    rfl

/-- The place of a reader or of a writer in its registry. -/
def Owner.readerIndex : Owner → Option Nat
  | .reader i => some i
  | _ => none

def Owner.writerIndex : Owner → Option Nat
  | .writer i => some i
  | _ => none

/-- The process-wide fields, before and after the FASL registries. -/
def tableFields : List Field :=
  [.packageRegistry, .macroTable, .setfTable, .setfFnTable, .setfExpanderTable,
    .typeTable, .compilerMacroTable, .closClassTable, .structTable,
    .conditionHierarchy, .conditionSlotTable, .conditionDefaultInitargs,
    .conditionSlotInitforms, .mainThreadObj, .readtableMacroFn,
    .readtableDispatchFn]

def loadFormFields : List Field :=
  [.mlfObjs, .mlfCreations, .mlfInits, .mlfWork, .mlfSeen]

theorem Process.sharedKeys_eq (process : Process) : process.sharedSegments.flatMap Segment.keys =
      (tableFields.map fun field => (Owner.static, field)) ++
        (process.readers.zipIdx.flatMap fun entry =>
          [(Owner.reader entry.2, Field.gensymObjs), (Owner.reader entry.2, Field.sharedObjs)]) ++
        (process.writers.zipIdx.flatMap fun entry =>
          [(Owner.writer entry.2, Field.gensymObjs)]) ++
        loadFormFields.map fun field => (Owner.static, field) := by
  rw [Process.sharedSegments, List.flatMap_append, List.flatMap_append,
    List.flatMap_append, List.flatMap_assoc, List.flatMap_map]
  rfl

theorem Process.sharedKeys_nodup (process : Process) :
    (process.sharedSegments.flatMap Segment.keys).Nodup := by
  have fields : (tableFields ++ loadFormFields).Nodup := by decide +kernel
  obtain ⟨tables, loadForms, apart⟩ := List.nodup_append.mp fields
  have readers : (process.readers.zipIdx.flatMap fun entry =>
      [(Owner.reader entry.2, Field.gensymObjs),
        (Owner.reader entry.2, Field.sharedObjs)]).Nodup := by
    refine flatMap_zipIdx_nodup Owner.readerIndex (fun entry => by simp) ?_
    intro entry key member
    rcases List.mem_pair.mp member with rfl | rfl
    · rfl
    · rfl
  have writers : (process.writers.zipIdx.flatMap fun entry =>
      [(Owner.writer entry.2, Field.gensymObjs)]).Nodup := by
    refine flatMap_zipIdx_nodup Owner.writerIndex (fun entry => by simp) ?_
    intro entry key member
    rw [List.mem_singleton.mp member]
    rfl
  rw [process.sharedKeys_eq, List.nodup_append, List.nodup_append, List.nodup_append]
  refine ⟨⟨⟨keys_inner tables, readers, ?_⟩, writers, ?_⟩, keys_inner loadForms, ?_⟩
  · rintro _ first _ second rfl
    obtain ⟨_, _, rfl⟩ := List.mem_map.mp first
    simp at second
  · rintro _ first _ second rfl
    obtain ⟨_, _, here⟩ := List.mem_flatMap.mp second
    rw [List.mem_singleton.mp here] at first
    simp at first
  · rintro _ first _ second rfl
    obtain ⟨field, fieldMember, rfl⟩ := List.mem_map.mp second
    simp only [List.mem_append, List.mem_map, List.mem_flatMap] at first
    rcases first with (⟨other, otherMember, same⟩ | ⟨_, _, reader⟩) | ⟨_, _, writer⟩
    · exact apart other otherMember field fieldMember (Prod.mk.inj same).2
    · simp at reader
    · simp at writer

theorem Process.slots_nodup (process : Process) :
    (slotsOf (process.threadSegments ++ process.sharedSegments)).Nodup := by
  apply slotsOf_nodup
  have threads : (process.threads.zipIdx.flatMap fun entry =>
      (entry.1.segments entry.2).flatMap Segment.keys).Nodup :=
    flatMap_zipIdx_nodup Owner.threadIndex
      (fun entry => entry.1.keys_nodup entry.2)
      (fun entry key member => Thread.keys_owned member)
  rw [List.flatMap_append, Process.threadSegments, List.flatMap_assoc, List.nodup_append]
  refine ⟨threads, process.sharedKeys_nodup, ?_⟩
  rintro _ first _ second rfl
  obtain ⟨_, _, inner⟩ := List.mem_flatMap.mp first
  have owned := Thread.keys_owned inner
  rw [process.sharedKeys_eq] at second
  simp only [List.mem_append, List.mem_map, List.mem_flatMap] at second
  rcases second with ((⟨_, _, rfl⟩ | ⟨_, _, reader⟩) | ⟨_, _, writer⟩) | ⟨_, _, rfl⟩
  · simp [Owner.threadIndex] at owned
  · rcases List.mem_pair.mp reader with rfl | rfl
    · simp [Owner.threadIndex] at owned
    · simp [Owner.threadIndex] at owned
  · rw [List.mem_singleton.mp writer] at owned
    simp [Owner.threadIndex] at owned
  · simp [Owner.threadIndex] at owned

variable {layout : Layout} {forwarder : Forwarder}

def SameSentinels (before after : Memory) : Prop :=
  ∀ address, (after address = 0 ↔ before address = 0) ∧
    (after address = clUnbound ↔ before address = clUnbound)

theorem SameSentinels.refl (memory : Memory) : SameSentinels memory memory :=
  fun _ => ⟨Iff.rfl, Iff.rfl⟩

theorem SameSentinels.trans {first second third : Memory}
    (before : SameSentinels first second) (after : SameSentinels second third) :
    SameSentinels first third :=
  fun address => ⟨(after address).1.trans (before address).1,
    (after address).2.trans (before address).2⟩

theorem sameSentinels_gcUpdateSlot (update : Update) (slot : Nat) : SameSentinels update.memory
      (gcUpdateSlot forwarder update slot).memory := by
  intro address
  unfold gcUpdateSlot
  dsimp only
  by_cases here : address = slot
  · subst here
    rw [Function.update_self]
    exact ⟨forwarder.nil_iff _, forwarder.unbound_iff _⟩
  · rw [Function.update_of_ne here]
    exact ⟨Iff.rfl, Iff.rfl⟩

theorem sameSentinels_foldl (slots : List Nat) (update : Update) : SameSentinels update.memory
      (slots.foldl (gcUpdateSlot forwarder) update).memory := by
  induction slots generalizing update with
  | nil => exact SameSentinels.refl _
  | cons slot slots induction =>
      exact (sameSentinels_gcUpdateSlot update slot).trans (induction _)

theorem holds_eq {before after : Memory} (same : SameSentinels before after)
    (guard : Guard) : guard.holds layout after = guard.holds layout before := by
  cases guard with
  | always => rfl
  | filled slot =>
      have nil := (same (layout.addr slot)).1
      rw [Guard.holds, Guard.holds, Bool.eq_iff_iff]
      simp [nil]
  | bound slot =>
      have nil := (same (layout.addr slot)).1
      have unbound := (same (layout.addr slot)).2
      rw [Guard.holds, Guard.holds, Bool.eq_iff_iff]
      simp [nil, unbound]

theorem visited_eq {before after : Memory} (same : SameSentinels before after) (steps : List Step) :
    visited layout after steps = visited layout before steps := by
  unfold visited
  congr 1
  funext step
  rw [holds_eq same]

theorem updateWalk_eq (steps : List Step) (update : Update) :
    updateWalk layout forwarder update steps =
      (visited layout update.memory steps).foldl (gcUpdateSlot forwarder)
        update := by
  induction steps generalizing update with
  | nil => rfl
  | cons step steps induction =>
      have head : visited layout update.memory (step :: steps) =
          (if step.guard.holds layout update.memory then
            step.slots.map layout.addr else []) ++
            visited layout update.memory steps := by
        simp [visited]
      rw [updateWalk, head, List.foldl_append]
      split
      · rw [induction, visited_eq (sameSentinels_foldl (step.slots.map layout.addr) update)]
      · rw [induction]
        rfl

theorem foldl_gcUpdateSlot {slots : List Nat} (distinct : slots.Nodup) (update : Update) :
    (slots.foldl (gcUpdateSlot forwarder) update).log = update.log ++ slots ∧
      ∀ address, (slots.foldl (gcUpdateSlot forwarder) update).memory address =
        if address ∈ slots then forwarder.forward (update.memory address)
        else update.memory address := by
  induction slots generalizing update with
  | nil => simp
  | cons slot slots induction =>
      obtain ⟨fresh, rest⟩ := List.nodup_cons.mp distinct
      obtain ⟨log, memory⟩ := induction rest (gcUpdateSlot forwarder update slot)
      refine ⟨?_, ?_⟩
      · rw [List.foldl_cons, log]
        simp [gcUpdateSlot]
      · intro address
        rw [List.foldl_cons, memory address]
        by_cases here : address = slot
        · subst here
          simp [fresh, gcUpdateSlot]
        · simp [here, gcUpdateSlot]

theorem visited_sublist (memory : Memory) (steps : List Step) :
    (visited layout memory steps).Sublist ((steps.flatMap Step.slots).map layout.addr) := by
  induction steps with
  | nil => exact List.Sublist.refl _
  | cons step steps induction =>
      rw [List.flatMap_cons, List.map_append, visited, List.flatMap_cons]
      refine List.Sublist.append ?_ induction
      split
      · exact List.Sublist.refl _
      · exact List.nil_sublist _

theorem visited_append (memory : Memory) (first second : List Step) :
    visited layout memory (first ++ second) =
      visited layout memory first ++ visited layout memory second :=
  List.flatMap_append

theorem stepsOf_append (first second : List Segment) :
    stepsOf (first ++ second) = stepsOf first ++ stepsOf second :=
  List.flatMap_append

theorem visited_nodup (process : Process) (memory : Memory) :
    (visited layout memory (stepsOf process.threadSegments) ++
      visited layout memory (stepsOf process.sharedSegments)).Nodup := by
  rw [← visited_append, ← stepsOf_append]
  exact (process.slots_nodup.map layout.injective).sublist (visited_sublist memory _)

end ClAmiga.Gc
