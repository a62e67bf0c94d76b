import Mathlib.Data.List.Basic

/-!
# The slow path of allocation

`gcb_alloc_slow` of the classic backend.  Where the mutex is released for a collection,
other threads may allocate and collect in any way, so a `World` gives the heap in which the
mutex is taken again.  Every collection is recorded with the block that is held while it
runs: taken off the front or the free list, and without a header until the caller of
`gcb_alloc_slow` writes it.
-/

namespace ClAmiga.Alloc

/-- `CL_MIN_ALLOC_SIZE`. -/
def minAllocSize : Nat := 16

/-- `CL_FREELIST_PROBE_LIMIT`. -/
def freelistProbeLimit : Nat := 32

/-- `GC_SWEEPS_BEFORE_COMPACT`. -/
def sweepsBeforeCompact : Nat := 8

/-- `cl_heap`, the policy's counters and latches, and the chunk cursor of the thread; a free
block is its offset and size. -/
structure Heap where
  arenaSize : Nat
  bump : Nat
  freeList : List (Nat × Nat)
  totalAllocated : Nat
  totalConsed : Nat
  gcCount : Nat
  gcSweepsSinceCompact : Nat
  gcLastCompactCycle : Nat
  gcFwdFailBump : Nat
  gcCompactPending : Bool
  genEnabled : Bool
  genOldTop : Nat
  tlabChunkSize : Nat
  tlabMaxObj : Nat
  tlabRefills : Nat
  allocCur : Nat
  allocLim : Nat
  allocConsed : Nat
deriving DecidableEq, Repr

/-- `cl_bump_fits`. -/
def clBumpFits (bump size arenaSize : Nat) : Bool :=
  size ≤ arenaSize && bump ≤ arenaSize - size

/-- `alloc_from_bump`. -/
def allocFromBump (heap : Heap) (size : Nat) : Option (Nat × Heap) :=
  if clBumpFits heap.bump size heap.arenaSize then
    some (heap.bump, { heap with bump := heap.bump + size })
  else
    none

/-- The loop of `alloc_from_free_list` after so many steps: the block taken and the list
left; no bound for `max_steps` 0. -/
def firstFit (size maxSteps : Nat) : Nat → List (Nat × Nat) →
    Option ((Nat × Nat) × List (Nat × Nat))
  | _, [] => none
  | steps, (off, blockSize) :: blocks =>
      if maxSteps ≠ 0 ∧ steps + 1 > maxSteps then none
      else if size ≤ blockSize then
        if minAllocSize ≤ blockSize - size then
          some ((off, size), (off + size, blockSize - size) :: blocks)
        else
          some ((off, blockSize), blocks)
      else
        (firstFit size maxSteps (steps + 1) blocks).map fun taken =>
          (taken.1, (off, blockSize) :: taken.2)

/-- `alloc_from_free_list`: the block, its size, and the heap. -/
def allocFromFreeList (heap : Heap) (size maxSteps : Nat) : Option ((Nat × Nat) × Heap) :=
  (firstFit size maxSteps 0 heap.freeList).map fun taken =>
    (taken.1, { heap with freeList := taken.2 })

/-- `gc_cursor_drop`. -/
def gcCursorDrop (heap : Heap) : Heap :=
  { heap with
    allocCur := 0
    allocLim := 0
    totalConsed := heap.totalConsed + heap.allocConsed
    allocConsed := 0 }

/-- `gcb_cursor_cut_chunk`, with the formatted hole behind the cut left out: the block, its
size, and the heap. -/
def gcbCursorCutChunk (heap : Heap) (size rem : Nat) : (Nat × Nat) × Heap :=
  let size := if rem - size < minAllocSize then rem else size
  let cur := heap.allocCur + size
  let cut := if cur = heap.allocLim then { heap with allocCur := 0, allocLim := 0 }
    else { heap with allocCur := cur }
  ((heap.allocCur, size), { cut with allocConsed := heap.allocConsed + size })

/-- `cursor_refill_chunk`. -/
def cursorRefillChunk (heap : Heap) (size : Nat) : Option ((Nat × Nat) × Heap) :=
  if heap.tlabChunkSize = 0 then none
  else
    let chunk :=
      match allocFromBump heap heap.tlabChunkSize with
      | some (off, heap) => some ((off, heap.tlabChunkSize), heap)
      | none => allocFromFreeList heap heap.tlabChunkSize freelistProbeLimit
    match chunk with
    | none => none
    | some ((off, chunkSize), heap) =>
        let heap := gcCursorDrop heap
        some (gcbCursorCutChunk
          { heap with
            totalAllocated := heap.totalAllocated + chunkSize
            tlabRefills := heap.tlabRefills + 1
            allocCur := off
            allocLim := off + chunkSize }
          size chunkSize)

inductive Collector where
  | minor
  | sweep
  | compact
deriving DecidableEq, Repr

structure Event where
  collector : Collector
  held : Option Nat
deriving DecidableEq, Repr

/-- What the thread finds when it takes the mutex again, at each place where it released it:
after `cl_gc_minor`, after the compaction of the generational mode, after
`cl_gc_if_stale` with its result, after `classic_gc`, and after `cl_gc_compact`. -/
structure World where
  minor : Bool × Heap
  genCompact : Heap
  stale : Bool × Heap
  sweep : Heap
  compact : Heap

structure Run where
  heap : Heap
  size : Nat
  ptr : Option Nat
  events : List Event
deriving DecidableEq, Repr

/-- `ptr = alloc_from_bump(size)`. -/
def Run.fromBump (run : Run) : Run :=
  match allocFromBump run.heap run.size with
  | some (off, heap) => { run with heap := heap, ptr := some off }
  | none => { run with ptr := none }

/-- `ptr = alloc_from_free_list(&size, max_steps)`. -/
def Run.fromFreeList (run : Run) (maxSteps : Nat) : Run :=
  match allocFromFreeList run.heap run.size maxSteps with
  | some ((off, size), heap) => { run with heap := heap, size := size, ptr := some off }
  | none => { run with ptr := none }

def Run.collect (run : Run) (collector : Collector) (heap : Heap) : Run :=
  { run with heap := heap, events := run.events ++ [⟨collector, run.ptr⟩] }

/-- `live_hwm`: 7/8 of the arena. -/
def Heap.liveHwm (heap : Heap) : Nat :=
  heap.arenaSize - heap.arenaSize / 8

/-- `compaction_worthwhile`. -/
def Heap.compactionWorthwhile (heap : Heap) : Bool :=
  heap.totalAllocated < heap.liveHwm

/-- `fwd_blocked`. -/
def Heap.fwdBlocked (heap : Heap) : Bool :=
  heap.gcFwdFailBump ≠ 0 && heap.gcFwdFailBump ≤ heap.bump

/-- `will_compact_t2`. -/
def Heap.willCompactT2 (heap : Heap) : Bool :=
  heap.gcLastCompactCycle ≠ heap.gcCount && heap.compactionWorthwhile &&
    sweepsBeforeCompact ≤ heap.gcSweepsSinceCompact && !heap.fwdBlocked

def Run.compact (run : Run) (world : World) : Run :=
  let run :=
    { run with
      heap := { run.heap with
        gcCompactPending := true
        gcLastCompactCycle := run.heap.gcCount } }
  (run.collect .compact world.compact).fromBump

/-- The whole free list is walked when a compaction is known to fail. -/
def Run.walkWhole (run : Run) (fwdBlocked : Bool) : Run :=
  if run.ptr = none ∧ fwdBlocked = true then run.fromFreeList 0 else run

def Run.compactOnTrigger (run : Run) (compactionWorthwhile fwdBlocked : Bool) (world : World) :
    Run :=
  if run.ptr = none ∨ (compactionWorthwhile = true ∧ fwdBlocked = false ∧
      sweepsBeforeCompact ≤ run.heap.gcSweepsSinceCompact) then
    run.compact world
  else
    run

def Run.maybeCompact (run : Run) (world : World) : Run :=
  if run.heap.gcLastCompactCycle ≠ run.heap.gcCount then
    (run.walkWhole run.heap.fwdBlocked).compactOnTrigger run.heap.compactionWorthwhile
      run.heap.fwdBlocked world
  else
    run

/-- The free list is not probed when the second trigger would compact. -/
def Run.probe (run : Run) : Run :=
  if run.ptr = none then
    if run.heap.willCompactT2 then run else run.fromFreeList freelistProbeLimit
  else
    run

/-- The block `if (collected)`. -/
def Run.afterCollection (run : Run) (world : World) : Run :=
  let run :=
    { run with
      heap := { run.heap with gcSweepsSinceCompact := run.heap.gcSweepsSinceCompact + 1 } }
  (run.fromBump.probe).maybeCompact world

/-- The front, then a bounded probe of the free list. -/
def Run.direct (run : Run) : Run :=
  if run.fromBump.ptr = none then run.fromBump.fromFreeList freelistProbeLimit else run.fromBump

def Run.collectAndRetry (run : Run) (world : World) : Run :=
  let swept := run.collect .sweep world.stale.2
  if world.stale.1 = true then
    swept.afterCollection world
  else if swept.direct.ptr = none then
    (swept.direct.collect .sweep world.sweep).afterCollection world
  else
    swept.direct

/-- The retry of the generational mode after a minor collection that left headroom. -/
def Run.retryMinor (run : Run) (minorOk : Bool) : Run :=
  if minorOk = true ∧ run.heap.arenaSize / 8 ≤ run.heap.arenaSize - run.heap.genOldTop then
    run.fromBump
  else
    run

/-- The block of the generational mode; it ends in a storage error if nothing fits. -/
def Run.generational (run : Run) (world : World) : Run :=
  let minor := (run.collect .minor world.minor.2).retryMinor world.minor.1
  if minor.ptr = none then
    let compacted := (minor.collect .compact world.genCompact).fromBump
    if compacted.ptr = none ∧ compacted.heap.genEnabled = false then compacted.fromFreeList 0
    else compacted
  else
    minor

/-- The last walk of the whole free list. -/
def Run.lastResort (run : Run) : Run :=
  if run.ptr = none then run.fromFreeList 0 else run

/-- The block is accounted; no pointer is a storage error. -/
def Run.account (run : Run) : Run :=
  if run.ptr = none then run
  else
    { run with
      heap := { run.heap with
        totalAllocated := run.heap.totalAllocated + run.size
        totalConsed := run.heap.totalConsed + run.size } }

/-- A chunk left over from the multi-threaded regime is dropped. -/
def enterSlow (multi : Bool) (heap : Heap) : Heap :=
  if multi = false ∧ (heap.allocLim ≠ 0 ∨ heap.allocConsed ≠ 0) then gcCursorDrop heap else heap

/-- The chunk refill, for small objects when there are several threads. -/
def tryRefill (multi : Bool) (heap : Heap) (size : Nat) : Option ((Nat × Nat) × Heap) :=
  if multi = true ∧ size ≤ heap.tlabMaxObj then cursorRefillChunk heap size else none

/-- `gcb_alloc_slow`. -/
def gcbAllocSlow (multi : Bool) (heap : Heap) (size : Nat) (world : World) : Run :=
  match tryRefill multi (enterSlow multi heap) size with
  | some ((off, cut), heap) => ⟨heap, cut, some off, []⟩
  | none =>
      let run := Run.direct ⟨enterSlow multi heap, size, none, []⟩
      if run.ptr = none ∧ run.heap.genEnabled = true then
        (run.generational world).account
      else
        (if run.ptr = none then run.collectAndRetry world else run).lastResort.account

end ClAmiga.Alloc
