import Mathlib.Data.Finset.Sigma
import Mathlib.Algebra.Order.Ring.Nat
import ClAmiga.Gc.Forward

/-!
# The root walks

`gc_visit_thread_roots` and `gc_visit_shared_roots` call their visitor on the
`CL_Obj` fields of the threads, of the compilers active on them, of the FASL
readers and writers and of the process-wide tables.  A slot is named here by
the object that owns it, the field and up to two indices; a walk is the list of
its steps, some of which look at a slot's value first.

`gc_update_all_roots` runs the walks with `gc_update_slot`.  The slots
registered at run time come from one sorted list of addresses, in which
`gc_update_registered_roots` skips every further copy of an address and every
address that a second run of the walks, with a probe as their visitor, flags as
visited by them.
-/

namespace ClAmiga.Gc

inductive Owner where
  | thread (t : Nat)
  | compiler (t c : Nat)
  | reader (i : Nat)
  | writer (i : Nat)
  | static
deriving DecidableEq, Repr

inductive Field where
  -- CL_Thread
  | dynSymbol | dynOldValue | nlxTag | nlxResult | nlxBytecode
  | handlerTypeName | handlerHandler
  | restartName | restartHandler | restartTag | restartRestart
  | vmStack | vmFramesBytecode | mvValues | pendingTag | pendingValue
  | mvSaveBuf | pendingMvValues
  | savedPendingTag | savedPendingValue | savedPendingMvValues
  | pendingLambdaName | callbackError | lastCondition
  | threadName | threadResult | interruptFunc | threadObj | waitObj | waitLock
  | currentLexEnv | currentPackage | rdStream | rdUninterned | rdLabels
  | prInprog | prStream | prCircleKeys | ltvInitCells | ltvInitThunks
  | vmExtraArgsBuf | tlvSymbol | tlvValue
  -- CL_Compiler and its CL_CompEnv
  | constants | blocksTag | tagbodiesId | tagsTag | notinlineFns | outerBlocks
  | outerTagsTag | outerTagsTagbodyId | tailContForm
  | llRequired | llOptNames | llOptDefaults | llOptSuppliedp | llRestName
  | llKeyNames | llKeyKeywords | llKeyDefaults | llKeySuppliedp
  | llAuxNames | llAuxInits
  | envLocals | localFunsName | localFunsInlineBody | localFunsInlineParams
  | localMacrosName | localMacrosExpander
  | symbolMacrosName | symbolMacrosExpansion
  -- process-wide
  | packageRegistry | macroTable | setfTable | setfFnTable | setfExpanderTable
  | typeTable | compilerMacroTable | closClassTable | structTable
  | conditionHierarchy | conditionSlotTable | conditionDefaultInitargs
  | conditionSlotInitforms | mainThreadObj | readtableMacroFn
  | readtableDispatchFn
  -- FASL readers, writers and the MAKE-LOAD-FORM pre-pass
  | gensymObjs | sharedObjs
  | mlfObjs | mlfCreations | mlfInits | mlfWork | mlfSeen
deriving DecidableEq, Repr

structure Slot where
  owner : Owner
  field : Field
  i : Nat
  j : Nat
deriving DecidableEq, Repr

inductive Guard where
  | always
  | filled (slot : Slot)
  | bound (slot : Slot)

/-- One step of a walk: slots visited one after the other if the guard holds. -/
structure Step where
  guard : Guard
  slots : List Slot

/-- A part of a walk over fields of its own: its slots carry those fields, and
they are all different when the fields are. -/
structure Segment where
  keys : List (Owner × Field)
  steps : List Step
  inside : ∀ slot ∈ steps.flatMap Step.slots, (slot.owner, slot.field) ∈ keys
  distinct : keys.Nodup → (steps.flatMap Step.slots).Nodup

/-- A loop over the first index that visits entries of a row, each a field and
a second index, under a guard. -/
def Segment.rows (owner : Owner) (fields : List Field) (count : Nat)
    (guard : Nat → Guard) (row : Nat → List (Field × Nat))
    (rowInside : ∀ i, ∀ entry ∈ row i, entry.1 ∈ fields)
    (rowDistinct : fields.Nodup → ∀ i, (row i).Nodup) : Segment where
  keys := fields.map fun field => (owner, field)
  steps := (List.range count).map fun i =>
    ⟨guard i, (row i).map fun entry => ⟨owner, entry.1, i, entry.2⟩⟩
  inside := by
    intro slot member
    simp only [List.flatMap_map, List.mem_flatMap, List.mem_map] at member
    obtain ⟨i, _, entry, entryMember, rfl⟩ := member
    exact List.mem_map.mpr ⟨entry.1, rowInside i entry entryMember, rfl⟩
  distinct := by
    intro keys
    have fieldsDistinct : fields.Nodup := List.Nodup.of_map _ keys
    rw [List.flatMap_map, List.nodup_flatMap]
    refine ⟨?_, ?_⟩
    · intro i _
      refine (rowDistinct fieldsDistinct i).map ?_
      intro first second same
      simp only [Slot.mk.injEq, true_and] at same
      exact Prod.ext same.1 same.2
    · refine List.nodup_range.imp ?_
      intro first second different
      rw [Function.onFun, List.disjoint_left]
      intro slot here there
      simp only [List.mem_map] at here there
      obtain ⟨_, _, rfl⟩ := here
      obtain ⟨_, _, same⟩ := there
      simp only [Slot.mk.injEq] at same
      omega

/-- A loop over an array that visits the same fields of every entry. -/
def Segment.each (owner : Owner) (fields : List Field) (count : Nat) :
    Segment :=
  Segment.rows owner fields count (fun _ => .always)
    (fun _ => fields.map fun field => (field, 0))
    (by
      intro i entry member
      obtain ⟨field, fieldMember, rfl⟩ := List.mem_map.mp member
      exact fieldMember)
    (fun distinct _ => distinct.map fun _ _ same => (Prod.mk.inj same).1)

def Segment.fields (owner : Owner) (fields : List Field) : Segment :=
  Segment.each owner fields 1

/-- Two fields of every entry, visited when the first of them holds a bound
symbol. -/
def Segment.boundPairs (owner : Owner) (first second : Field) (count : Nat) :
    Segment :=
  Segment.rows owner [first, second] count
    (fun i => .bound ⟨owner, first, i, 0⟩) (fun _ => [(first, 0), (second, 0)])
    (by simp)
    (by simp)

def Segment.filledKeys (owner : Owner) (field : Field) (count : Nat) :
    Segment :=
  Segment.rows owner [field] count (fun i => .filled ⟨owner, field, i, 0⟩)
    (fun _ => [(field, 0)]) (by simp) (by simp)

/-- For every entry some fields of its own and then an array of it. -/
def Segment.nested (owner : Owner) (heads : List Field) (inner : Field)
    (counts : List (Option Nat)) : Segment :=
  Segment.rows owner (heads ++ [inner]) counts.length (fun _ => .always)
    (fun i =>
      match counts.getD i none with
      | none => []
      | some count =>
          heads.map (fun field => (field, 0)) ++
            (List.range count).map fun j => (inner, j))
    (by
      intro i entry member
      split at member
      · simp at member
      · rcases List.mem_append.mp member with head | tail
        · obtain ⟨field, fieldMember, rfl⟩ := List.mem_map.mp head
          exact List.mem_append_left _ fieldMember
        · obtain ⟨j, _, rfl⟩ := List.mem_map.mp tail
          simp)
    (by
      intro distinct i
      obtain ⟨headsDistinct, _, apart⟩ := List.nodup_append.mp distinct
      split
      · exact List.nodup_nil
      · refine List.nodup_append.mpr ⟨?_, ?_, ?_⟩
        · exact headsDistinct.map fun _ _ same => (Prod.mk.inj same).1
        · exact List.nodup_range.map fun _ _ same => (Prod.mk.inj same).2
        · rintro _ first _ second rfl
          obtain ⟨field, fieldMember, rfl⟩ := List.mem_map.mp first
          obtain ⟨j, _, same⟩ := List.mem_map.mp second
          exact apart field fieldMember inner (by simp)
            (Prod.mk.inj same).1.symm)

/-- The two macro functions of every character, for the readtables in use. -/
def Segment.readtables (allocMask pool chars : Nat) : Segment :=
  Segment.rows .static [.readtableMacroFn, .readtableDispatchFn] pool
    (fun _ => .always)
    (fun rt =>
      if allocMask.testBit rt then
        (List.range chars).flatMap fun ch =>
          [(.readtableMacroFn, ch), (.readtableDispatchFn, ch)]
      else [])
    (by
      intro rt entry member
      split at member
      · obtain ⟨ch, _, here⟩ := List.mem_flatMap.mp member
        rcases List.mem_pair.mp here with rfl | rfl
        · simp
        · simp
      · simp at member)
    (by
      intro _ rt
      split
      · rw [List.nodup_flatMap]
        refine ⟨fun ch _ => by simp, List.nodup_range.imp ?_⟩
        intro first second different
        simp [Function.onFun, List.disjoint_left]
        omega
      · exact List.nodup_nil)

/-- `CL_MAX_MV`. -/
def maxMv : Nat := 20

/-- `CL_MV_SAVE_SIZE`. -/
def mvSaveSize : Nat := 2048

/-- `CL_CIRCLE_HT_SIZE`. -/
def circleHtSize : Nat := 256

/-- `CL_TLV_TABLE_SIZE`. -/
def tlvTableSize : Nat := 256

/-- `CL_RT_POOL_SIZE`. -/
def rtPoolSize : Nat := 16

/-- `CL_RT_CHARS`. -/
def rtChars : Nat := 128

/-- The counts of a compile-time environment. -/
structure Env where
  localCount : Nat
  localFunCount : Nat
  localMacroCount : Nat
  symbolMacroCount : Nat

/-- The counts of a compiler, with the tags of each of its tagbodies. -/
structure Compiler where
  constCount : Nat
  blockCount : Nat
  tagbodies : List Nat
  notinlineCount : Nat
  outerBlockCount : Nat
  outerTagCount : Nat
  tailCount : Nat
  nRequired : Nat
  nOptional : Nat
  hasRest : Bool
  nKeys : Nat
  nAux : Nat
  env : Option Env

/-- The counts and flags of a thread the walk reads, its compiler chain from
`active_compiler` on, and its protected slots. -/
structure Thread where
  dynTop : Nat
  nlxTop : Nat
  handlerTop : Nat
  restartTop : Nat
  hasStack : Bool
  sp : Nat
  fp : Nat
  mvSaveTop : Nat
  pendingThrow : Bool
  pendingMvCount : Nat
  /-- Of every saved snapshot its value count, if a throw was in flight. -/
  savedPending : List (Option Nat)
  prInprogTop : Nat
  prCircleActive : Bool
  ltvInitCount : Nat
  compilers : List Compiler
  vmExtraCount : Nat
  gcRoots : List Nat

/-- The counts of the MAKE-LOAD-FORM pre-pass. -/
structure LoadForms where
  count : Nat
  workCount : Nat
  seenCount : Nat

/-- What the walks read of the process: the thread list, the registered
globals, the readtables in use, for every FASL reader the counts of its two
tables, the writers' gensym counts and the pre-pass when it is active. -/
structure Process where
  threads : List Thread
  globalRoots : List Nat
  readtableAllocMask : Nat
  readers : List (Nat × Option Nat)
  writers : List Nat
  loadForms : Option LoadForms

/-- `cl_compiler_gc_visit_thread` for one compiler of the chain. -/
def Compiler.segments (owner : Owner) (compiler : Compiler) : List Segment :=
  let env := compiler.env.getD ⟨0, 0, 0, 0⟩
  [.each owner [.constants] compiler.constCount,
    .each owner [.blocksTag] compiler.blockCount,
    .nested owner [.tagbodiesId] .tagsTag (compiler.tagbodies.map some),
    .each owner [.notinlineFns] compiler.notinlineCount,
    .each owner [.outerBlocks] compiler.outerBlockCount,
    .each owner [.outerTagsTag, .outerTagsTagbodyId] compiler.outerTagCount,
    .each owner [.tailContForm] compiler.tailCount,
    .each owner [.llRequired] compiler.nRequired,
    .each owner [.llOptNames, .llOptDefaults, .llOptSuppliedp]
      compiler.nOptional,
    .each owner [.llRestName] (if compiler.hasRest then 1 else 0),
    .each owner [.llKeyNames, .llKeyKeywords, .llKeyDefaults, .llKeySuppliedp]
      compiler.nKeys,
    .each owner [.llAuxNames, .llAuxInits] compiler.nAux,
    .each owner [.envLocals] env.localCount,
    .each owner [.localFunsName, .localFunsInlineBody, .localFunsInlineParams]
      env.localFunCount,
    .each owner [.localMacrosName, .localMacrosExpander] env.localMacroCount,
    .each owner [.symbolMacrosName, .symbolMacrosExpansion]
      env.symbolMacroCount]

/-- The part of `gc_visit_thread_roots` before the compiler chain. -/
def Thread.leading (t : Nat) (thread : Thread) : List Segment :=
  let owner := Owner.thread t
  [.each owner [.dynSymbol, .dynOldValue] thread.dynTop,
    .each owner [.nlxTag, .nlxResult, .nlxBytecode] thread.nlxTop,
    .each owner [.handlerTypeName, .handlerHandler] thread.handlerTop,
    .each owner [.restartName, .restartHandler, .restartTag, .restartRestart]
      thread.restartTop,
    .each owner [.vmStack] (if thread.hasStack then thread.sp else 0),
    .each owner [.vmFramesBytecode] thread.fp,
    .each owner [.mvValues] maxMv,
    .fields owner [.pendingTag, .pendingValue],
    .each owner [.mvSaveBuf] (min thread.mvSaveTop mvSaveSize),
    .each owner [.pendingMvValues]
      (if thread.pendingThrow then min thread.pendingMvCount maxMv else 0),
    .nested owner [.savedPendingTag, .savedPendingValue] .savedPendingMvValues
      (thread.savedPending.map (Option.map (min · maxMv))),
    .fields owner [.pendingLambdaName, .callbackError, .lastCondition,
      .threadName, .threadResult, .interruptFunc, .threadObj, .waitObj,
      .waitLock, .currentLexEnv, .currentPackage, .rdStream, .rdUninterned,
      .rdLabels],
    .each owner [.prInprog] thread.prInprogTop,
    .fields owner [.prStream],
    .filledKeys owner .prCircleKeys
      (if thread.prCircleActive then circleHtSize else 0),
    .each owner [.ltvInitCells, .ltvInitThunks] thread.ltvInitCount]

/-- The part after it: the buffers of `&rest` processing and the thread-local
values. -/
def Thread.trailing (t : Nat) (thread : Thread) : List Segment :=
  [.each (.thread t) [.vmExtraArgsBuf] thread.vmExtraCount,
    .boundPairs (.thread t) .tlvSymbol .tlvValue tlvTableSize]

/-- `gc_visit_thread_roots`. -/
def Thread.segments (t : Nat) (thread : Thread) : List Segment :=
  thread.leading t ++
    (thread.compilers.zipIdx.flatMap fun entry =>
      entry.1.segments (.compiler t entry.2)) ++
    thread.trailing t

/-- `gc_visit_thread_roots` for every thread of the list. -/
def Process.threadSegments (process : Process) : List Segment :=
  process.threads.zipIdx.flatMap fun entry => entry.1.segments entry.2

/-- `gc_visit_shared_roots`. -/
def Process.sharedSegments (process : Process) : List Segment :=
  let loadForms := process.loadForms.getD ⟨0, 0, 0⟩
  [.fields .static [.packageRegistry, .macroTable, .setfTable, .setfFnTable,
      .setfExpanderTable, .typeTable, .compilerMacroTable, .closClassTable,
      .structTable, .conditionHierarchy, .conditionSlotTable,
      .conditionDefaultInitargs, .conditionSlotInitforms, .mainThreadObj],
    .readtables process.readtableAllocMask rtPoolSize rtChars] ++
    (process.readers.zipIdx.flatMap fun entry =>
      [.each (.reader entry.2) [.gensymObjs] entry.1.1,
        .each (.reader entry.2) [.sharedObjs] (entry.1.2.getD 0)]) ++
    (process.writers.zipIdx.map fun entry =>
      .each (.writer entry.2) [.gensymObjs] entry.1) ++
    [.each .static [.mlfObjs, .mlfCreations, .mlfInits] loadForms.count,
      .each .static [.mlfWork] loadForms.workCount,
      .each .static [.mlfSeen] loadForms.seenCount]

def stepsOf (segments : List Segment) : List Step :=
  segments.flatMap Segment.steps

/-- `global_roots[]`, then the `gc_roots[]` of every thread. -/
def Process.registered (process : Process) : List Nat :=
  process.globalRoots ++ process.threads.flatMap Thread.gcRoots

/-- Where the slots of the walks lie; different slots have different addresses. -/
structure Layout where
  addr : Slot → Nat
  injective : Function.Injective addr

/-- What the walks rely on of `gc_forward`: it keeps NIL and the unbound
marker, and turns nothing else into one of them. -/
structure Forwarder where
  forward : Nat → Nat
  nil_iff : ∀ obj, forward obj = 0 ↔ obj = 0
  unbound_iff : ∀ obj, forward obj = clUnbound ↔ obj = clUnbound

abbrev Memory := Nat → Nat

def Guard.holds (layout : Layout) (memory : Memory) : Guard → Bool
  | .always => true
  | .filled slot => memory (layout.addr slot) != 0
  | .bound slot =>
      memory (layout.addr slot) != 0 && memory (layout.addr slot) != clUnbound

/-- The memory, and the addresses `gc_update_slot` was called on so far. -/
structure Update where
  memory : Memory
  log : List Nat

/-- `gc_update_slot`. -/
def gcUpdateSlot (forwarder : Forwarder) (update : Update) (slot : Nat) :
    Update where
  memory := Function.update update.memory slot
    (forwarder.forward (update.memory slot))
  log := update.log ++ [slot]

/-- A walk with `gc_update_slot` as its visitor; every guard reads the memory
as the visits before it left it. -/
def updateWalk (layout : Layout) (forwarder : Forwarder) (update : Update) :
    List Step → Update
  | [] => update
  | step :: steps =>
      if step.guard.holds layout update.memory then
        updateWalk layout forwarder
          ((step.slots.map layout.addr).foldl (gcUpdateSlot forwarder) update)
          steps
      else
        updateWalk layout forwarder update steps

/-- The addresses a walk passes to a visitor that leaves the memory alone. -/
def visited (layout : Layout) (memory : Memory) (steps : List Step) :
    List Nat :=
  steps.flatMap fun step =>
    if step.guard.holds layout memory then step.slots.map layout.addr else []

/-- The step back from a found entry to the first copy of its address. -/
def firstCopy (buf : List Nat) (slot : Nat) : Nat → Nat
  | 0 => 0
  | mid + 1 => if buf.getD mid 0 = slot then firstCopy buf slot mid else mid + 1

/-- The bisection of `gc_alias_probe`. -/
def aliasSearch (buf : List Nat) (slot : Nat) : Nat → Nat → Nat → Option Nat
  | 0, _, _ => none
  | fuel + 1, lo, hi =>
      if lo < hi then
        let mid := (lo + hi) / 2
        if buf.getD mid 0 < slot then
          aliasSearch buf slot fuel (mid + 1) hi
        else if slot < buf.getD mid 0 then
          aliasSearch buf slot fuel lo mid
        else
          some (firstCopy buf slot mid)
      else
        none

/-- `gc_alias_probe`. -/
def gcAliasProbe (buf : List Nat) (flags : List Bool) (slot : Nat) :
    List Bool :=
  match aliasSearch buf slot buf.length 0 buf.length with
  | some i => flags.set i true
  | none => flags

/-- `root_slot_independently_forwarded`. -/
def rootSlotIndependentlyForwarded (process : Process) (layout : Layout)
    (memory : Memory) (slot : Nat) : Bool :=
  decide (slot ∈ visited layout memory (stepsOf process.threadSegments)) ||
    decide (slot ∈ visited layout memory (stepsOf process.sharedSegments))

/-- The last loop of `gc_update_registered_roots` from an index on. -/
def updateRegistered (forwarder : Forwarder) (buf : List Nat)
    (flags : List Bool) (update : Update) (i : Nat) : Update :=
  if 0 < i ∧ buf.getD i 0 = buf.getD (i - 1) 0 then
    update
  else if flags.getD i false then
    update
  else
    gcUpdateSlot forwarder update (buf.getD i 0)

/-- `gc_update_registered_roots`, with the capacity of the slot buffer and
whether a larger one could be allocated. -/
def gcUpdateRegisteredRoots (process : Process) (layout : Layout)
    (forwarder : Forwarder) (slotCap : Nat) (allocated : Bool)
    (update : Update) : Update :=
  let total := process.registered.length
  if total = 0 then
    update
  else if slotCap < total ∧ allocated = false then
    process.registered.foldl
      (fun current slot =>
        if rootSlotIndependentlyForwarded process layout current.memory slot then
          current
        else
          gcUpdateSlot forwarder current slot)
      update
  else
    let buf := process.registered.mergeSort (· ≤ ·)
    let probed := visited layout update.memory (stepsOf process.threadSegments) ++
      visited layout update.memory (stepsOf process.sharedSegments)
    let flags := probed.foldl (gcAliasProbe buf) (List.replicate buf.length false)
    (List.range buf.length).foldl (updateRegistered forwarder buf flags) update

/-- `gc_update_all_roots`. -/
def gcUpdateAllRoots (process : Process) (layout : Layout)
    (forwarder : Forwarder) (slotCap : Nat) (allocated : Bool)
    (memory : Memory) : Update :=
  let threads := updateWalk layout forwarder ⟨memory, []⟩
    (stepsOf process.threadSegments)
  let registered := gcUpdateRegisteredRoots process layout forwarder slotCap
    allocated threads
  updateWalk layout forwarder registered (stepsOf process.sharedSegments)

end ClAmiga.Gc
