import ClAmiga.Alloc.Slow
import Mathlib.Logic.Relation

/-!
# Collections with a block in hand

The slow path collects with a block in hand exactly when the front has room again after its
collection and the sweeps since the last compaction call for one.  The guard of the free
list probe keeps this from happening with a free block; the front has no such guard.
-/

namespace ClAmiga.Alloc

/-- No collection so far ran with a block in hand. -/
def Run.Unheld (run : Run) : Prop :=
  ∀ event ∈ run.events, event.held = none

theorem Run.fromBump_cases (run : Run) :
    clBumpFits run.heap.bump run.size run.heap.arenaSize = true ∧
      run.fromBump = { run with
        heap := { run.heap with bump := run.heap.bump + run.size }
        ptr := some run.heap.bump } ∨
    clBumpFits run.heap.bump run.size run.heap.arenaSize = false ∧
      run.fromBump = { run with ptr := none } := by
  rw [fromBump, allocFromBump]
  cases fits : clBumpFits run.heap.bump run.size run.heap.arenaSize with
  | false => exact Or.inr ⟨rfl, rfl⟩
  | true => exact Or.inl ⟨rfl, rfl⟩

theorem Run.fromFreeList_cases (run : Run) (maxSteps : Nat) :
    (∃ off size freeList, run.fromFreeList maxSteps = { run with
      heap := { run.heap with freeList := freeList }
      size := size
      ptr := some off }) ∨
    run.fromFreeList maxSteps = { run with ptr := none } := by
  rw [fromFreeList, allocFromFreeList]
  cases firstFit run.size maxSteps 0 run.heap.freeList with
  | none => exact Or.inr rfl
  | some taken => exact Or.inl ⟨taken.1.1, taken.1.2, taken.2, rfl⟩

theorem Run.fromBump_events (run : Run) : run.fromBump.events = run.events := by
  rcases run.fromBump_cases with ⟨_, result⟩ | ⟨_, result⟩ <;> rw [result]

theorem Run.fromFreeList_events (run : Run) (maxSteps : Nat) :
    (run.fromFreeList maxSteps).events = run.events := by
  rcases run.fromFreeList_cases maxSteps with ⟨_, _, _, result⟩ | result <;> rw [result]

theorem Run.account_events (run : Run) : run.account.events = run.events := by
  rw [account]
  split <;> rfl

theorem Run.lastResort_events (run : Run) : run.lastResort.events = run.events := by
  rw [lastResort]
  split
  · exact run.fromFreeList_events 0
  · rfl

variable {run : Run} {world : World}

theorem Run.unheld_collect (collector : Collector) (heap : Heap) :
    (run.collect collector heap).Unheld ↔ run.Unheld ∧ run.ptr = none := by
  simp [Unheld, collect, or_imp, forall_and]

theorem Run.unheld_compact : (run.compact world).Unheld ↔ run.Unheld ∧ run.ptr = none := by
  rw [compact]
  dsimp only
  rw [Unheld, fromBump_events, ← Unheld, unheld_collect .compact world.compact]
  rfl

theorem Heap.willCompactT2_iff (heap : Heap) :
    heap.willCompactT2 = true ↔ heap.gcLastCompactCycle ≠ heap.gcCount ∧
      heap.compactionWorthwhile = true ∧ heap.fwdBlocked = false ∧
        sweepsBeforeCompact ≤ heap.gcSweepsSinceCompact := by
  simp only [willCompactT2, Bool.and_eq_true, decide_eq_true_eq, Bool.not_eq_true']
  tauto

theorem Run.unheld_compactOnTrigger {worthwhile blocked : Bool} :
    (run.compactOnTrigger worthwhile blocked world).Unheld ↔
      run.Unheld ∧ (run.ptr = none ∨ ¬ (worthwhile = true ∧ blocked = false ∧
        sweepsBeforeCompact ≤ run.heap.gcSweepsSinceCompact)) := by
  rw [compactOnTrigger]
  by_cases empty : run.ptr = none
  · rw [if_pos (Or.inl empty), unheld_compact]
    simp [empty]
  · by_cases second : worthwhile = true ∧ blocked = false ∧
        sweepsBeforeCompact ≤ run.heap.gcSweepsSinceCompact
    · rw [if_pos (Or.inr second), unheld_compact]
      simp [empty, second]
    · rw [if_neg (not_or.mpr ⟨empty, second⟩)]
      exact ⟨fun unheld => ⟨unheld, Or.inr second⟩, And.left⟩

theorem Run.walkWhole_cases (run : Run) (blocked : Bool) :
    run.walkWhole blocked = run ∨ blocked = true ∧ run.ptr = none ∧
      (run.walkWhole blocked).events = run.events := by
  rw [walkWhole]
  split
  · next whole => exact Or.inr ⟨whole.2, whole.1, run.fromFreeList_events 0⟩
  · exact Or.inl rfl

theorem Run.unheld_maybeCompact : (run.maybeCompact world).Unheld ↔
      run.Unheld ∧ (run.ptr = none ∨ run.heap.willCompactT2 = false) := by
  have triggers : run.heap.willCompactT2 = false ↔ _ :=
    Bool.eq_false_iff.trans (not_congr run.heap.willCompactT2_iff)
  rw [maybeCompact]
  by_cases cycle : run.heap.gcLastCompactCycle ≠ run.heap.gcCount
  · rw [if_pos cycle, unheld_compactOnTrigger]
    rcases run.walkWhole_cases run.heap.fwdBlocked with same | ⟨blocked, empty, events⟩
    · rw [same, triggers]
      simp only [cycle, ne_eq, not_false_eq_true, true_and]
    · rw [Unheld, events, ← Unheld]
      simp [empty, blocked]
  · rw [if_neg cycle, triggers]
    simp [cycle]

/-- The front has room for the block, and with the block taken and one more sweep counted
the second trigger compacts. -/
def Heap.compactsHolding (heap : Heap) (size : Nat) : Bool :=
  clBumpFits heap.bump size heap.arenaSize &&
    { heap with
      gcSweepsSinceCompact := heap.gcSweepsSinceCompact + 1
      bump := heap.bump + size }.willCompactT2

theorem Run.probe_quiet (run : Run) (empty : run.ptr = none) : run.probe.events = run.events ∧
      (run.probe.ptr = none ∨ run.probe.heap.willCompactT2 = false) := by
  rw [probe, if_pos empty]
  cases compacts : run.heap.willCompactT2 with
  | true => exact ⟨rfl, Or.inl empty⟩
  | false =>
      refine ⟨run.fromFreeList_events _, ?_⟩
      rcases run.fromFreeList_cases freelistProbeLimit with ⟨off, size, freeList, result⟩ | result
      · rw [if_neg Bool.false_ne_true, result]
        exact Or.inr compacts
      · rw [if_neg Bool.false_ne_true, result]
        exact Or.inl rfl

theorem Run.unheld_afterCollection : (run.afterCollection world).Unheld ↔
      run.Unheld ∧ run.heap.compactsHolding run.size = false := by
  rw [afterCollection]
  dsimp only
  rw [unheld_maybeCompact, Heap.compactsHolding]
  rcases fromBump_cases { run with
      heap := { run.heap with gcSweepsSinceCompact := run.heap.gcSweepsSinceCompact + 1 } } with
    ⟨fits, result⟩ | ⟨full, result⟩
  · rw [result, probe, if_neg (by simp)]
    dsimp only at fits ⊢
    simp [fits, Unheld]
  · rw [result]
    dsimp only at full ⊢
    obtain ⟨events, quiet⟩ := probe_quiet { run with
      heap := { run.heap with gcSweepsSinceCompact := run.heap.gcSweepsSinceCompact + 1 }
      ptr := none } rfl
    simp only [full, Bool.false_and, and_true, Unheld, events, quiet]

def Run.collected (run : Run) (world : World) : Option Heap :=
  if world.stale.1 = true then some world.stale.2
  else if (run.collect .sweep world.stale.2).direct.ptr = none then some world.sweep
  else none

def collectedHeap (multi : Bool) (heap : Heap) (size : Nat) (world : World) : Option Heap :=
  match tryRefill multi (enterSlow multi heap) size with
  | some _ => none
  | none =>
      let run := Run.direct ⟨enterSlow multi heap, size, none, []⟩
      if run.ptr = none ∧ run.heap.genEnabled = false then run.collected world else none

theorem Run.direct_none (empty : run.direct.ptr = none) :
    run.direct = { run with ptr := none } := by
  rw [direct] at empty ⊢
  rcases run.fromBump_cases with ⟨_, result⟩ | ⟨_, result⟩
  · simp [result] at empty
  · rw [result, if_pos rfl] at empty ⊢
    rcases fromFreeList_cases { run with ptr := none } freelistProbeLimit with
      ⟨off, size, freeList, found⟩ | missed
    · simp [found] at empty
    · rw [missed]

theorem Run.direct_events (run : Run) : run.direct.events = run.events := by
  rw [direct]
  split
  · rw [fromFreeList_events, fromBump_events]
  · rw [fromBump_events]

theorem Run.unheld_collectAndRetry (unheld : run.Unheld) (empty : run.ptr = none) :
    (run.collectAndRetry world).Unheld ↔
      ∀ found, run.collected world = some found → found.compactsHolding run.size = false := by
  have swept : (run.collect .sweep world.stale.2).Unheld := (unheld_collect _ _).mpr ⟨unheld, empty⟩
  rw [collectAndRetry, collected]
  by_cases stale : world.stale.1 = true
  · rw [if_pos stale, if_pos stale, unheld_afterCollection]
    simp only [swept, true_and, Option.some.injEq, forall_eq']
    rfl
  · rw [if_neg stale, if_neg stale]
    by_cases missed : (run.collect .sweep world.stale.2).direct.ptr = none
    · have again : ((run.collect .sweep world.stale.2).direct.collect .sweep world.sweep).Unheld :=
        (unheld_collect _ _).mpr ⟨by rw [Unheld, direct_events]; exact swept, missed⟩
      rw [if_pos missed, if_pos missed, unheld_afterCollection]
      simp only [again, true_and, Option.some.injEq, forall_eq']
      rw [direct_none missed]
      rfl
    · rw [if_neg missed, if_neg missed, Unheld, direct_events]
      simp only [reduceCtorEq, false_implies, implies_true, iff_true]
      exact swept

theorem Run.unheld_generational (unheld : run.Unheld)
    (empty : run.ptr = none) : (run.generational world).Unheld := by
  have minor : ((run.collect .minor world.minor.2).retryMinor world.minor.1).Unheld := by
    have collected : (run.collect .minor world.minor.2).Unheld :=
      (unheld_collect _ _).mpr ⟨unheld, empty⟩
    rw [retryMinor]
    split
    · rw [Unheld, fromBump_events]
      exact collected
    · exact collected
  rw [generational]
  dsimp only
  split
  · next missed =>
      have compacted := (unheld_collect .compact world.genCompact).mpr ⟨minor, missed⟩
      split
      · rw [Unheld, fromFreeList_events, fromBump_events]
        exact compacted
      · rw [Unheld, fromBump_events]
        exact compacted
  · exact minor

/-- The slow path never collects with a block in hand exactly when, after its own sweep, the
front has no room for the block or no compaction is due. -/
theorem gcbAllocSlow_unheld_iff (multi : Bool) (heap : Heap) (size : Nat) (world : World) :
    (∀ event ∈ (gcbAllocSlow multi heap size world).events, event.held = none) ↔
      ∀ found, collectedHeap multi heap size world = some found →
        found.compactsHolding size = false := by
  rw [gcbAllocSlow, collectedHeap]
  cases tryRefill multi (enterSlow multi heap) size with
  | some refilled => simp
  | none =>
      dsimp only
      have unheld : (Run.direct ⟨enterSlow multi heap, size, none, []⟩).Unheld := by
        rw [Run.Unheld, Run.direct_events]
        simp
      have missed := @Run.direct_none ⟨enterSlow multi heap, size, none, []⟩
      generalize Run.direct ⟨enterSlow multi heap, size, none, []⟩ = run at unheld missed
      by_cases empty : run.ptr = none
      · cases gen : run.heap.genEnabled with
        | true =>
            rw [if_pos ⟨empty, rfl⟩, Run.account_events]
            simp only [empty, Bool.true_eq_false, and_false, if_false, reduceCtorEq, false_implies,
              implies_true, iff_true]
            exact Run.unheld_generational unheld empty
        | false =>
            have sizes : run.size = size := by rw [missed empty]
            rw [if_neg (by simp), if_pos empty, Run.account_events, Run.lastResort_events,
              if_pos ⟨empty, rfl⟩, ← sizes, ← Run.unheld_collectAndRetry unheld empty, Run.Unheld]
      · rw [if_neg fun both => empty both.1, if_neg empty, Run.account_events,
          Run.lastResort_events, if_neg fun both => empty both.1]
        simp only [reduceCtorEq, false_implies, implies_true, iff_true]
        exact unheld

/-- What another thread does to the heap while the mutex is free: it allocates from the
front, sweeps, counts its sweep, notes the cycle of its compaction, and compacts. -/
inductive Peer : Heap → Heap → Prop where
  | bump {heap after : Heap} {size off : Nat}
      (taken : allocFromBump heap size = some (off, after)) : Peer heap after
  | sweep (heap : Heap) (freeList : List (Nat × Nat)) (live : Nat) :
      Peer heap { heap with
        freeList := freeList
        totalAllocated := live
        gcCount := heap.gcCount + 1 }
  | count (heap : Heap) :
      Peer heap { heap with gcSweepsSinceCompact := heap.gcSweepsSinceCompact + 1 }
  | note (heap : Heap) : Peer heap { heap with gcLastCompactCycle := heap.gcCount }
  | compact (heap : Heap) {front : Nat} (live : Nat) (lower : front ≤ heap.bump) :
      Peer heap { heap with
        bump := front
        freeList := []
        totalAllocated := live
        gcSweepsSinceCompact := 0
        gcFwdFailBump := 0
        gcCount := heap.gcCount + 1 }

theorem Peer.sweeps (heap : Heap) (count : Nat) :
    Relation.ReflTransGen Peer heap { heap with
      gcCount := heap.gcCount + count
      gcSweepsSinceCompact := heap.gcSweepsSinceCompact + count } := by
  induction count with
  | zero => exact .refl
  | succ count induction =>
      refine (induction.tail (.sweep _ heap.freeList heap.totalAllocated)).tail ?_
      exact .count _

def fullHeap : Heap :=
  { arenaSize := 1024
    bump := 1024
    freeList := []
    totalAllocated := 1000
    totalConsed := 1000
    gcCount := 5
    gcSweepsSinceCompact := 0
    gcLastCompactCycle := 3
    gcFwdFailBump := 0
    gcCompactPending := false
    genEnabled := false
    genOldTop := 0
    tlabChunkSize := 0
    tlabMaxObj := 0
    tlabRefills := 0
    allocCur := 0
    allocLim := 0
    allocConsed := 0 }

/-- Another thread sweeps, compacts and fills the front up to 64 bytes, and then eight
sweeps are counted before the thread's own. -/
def busyWorld : World :=
  { minor := (false, fullHeap)
    genCompact := fullHeap
    stale := (false, { fullHeap with gcCount := 6 })
    sweep := { fullHeap with
      bump := 960
      totalAllocated := 500
      gcCount := 16
      gcSweepsSinceCompact := 8
      gcLastCompactCycle := 6 }
    compact := fullHeap }

/-- A compaction runs while the block at 960 is held. -/
theorem gcbAllocSlow_holding : Relation.ReflTransGen Peer fullHeap busyWorld.stale.2 ∧
      Relation.ReflTransGen Peer busyWorld.stale.2 busyWorld.sweep ∧
      ∃ event ∈ (gcbAllocSlow true fullHeap 16 busyWorld).events, event.held = some 960 := by
  refine ⟨.single (.sweep fullHeap [] 1000), ?_, ⟨.compact, some 960⟩, by decide, rfl⟩
  have compacted : Relation.ReflTransGen Peer busyWorld.stale.2
      { fullHeap with
        bump := 512
        totalAllocated := 500
        gcCount := 7
        gcLastCompactCycle := 6 } :=
    (Relation.ReflTransGen.single (.note _)).tail (.compact _ 500 (by decide))
  have filled := compacted.tail (@Peer.bump _ _ 448 _ rfl)
  exact (filled.trans (Peer.sweeps _ 8)).tail (.sweep _ [] 500)

end ClAmiga.Alloc
