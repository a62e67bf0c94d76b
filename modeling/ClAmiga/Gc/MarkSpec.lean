import ClAmiga.Gc.Mark
import ClAmiga.Gc.RegisteredRoots
import ClAmiga.Graph.Worklist

/-!
# What the mark phase marks

The mark bits and the mark stack are a worklist that may lose entries: a visit
meets one node, a drain empties the list and a walk of the arena scans every
marked node again.  A drain ends because every object it pops was marked by a
push, and the overflow loop ends because a walk that loses an object has marked
a new one; both count against the blocks of the arena.
-/

namespace ClAmiga.Gc

open ClAmiga.Graph ClAmiga.Graph.Worklist

variable {host : Host}

def Heap.references (heap : Heap host) (obj : Nat) : List Nat :=
  (heap.object obj).children.filter heap.isReference

def MarkState.worklist (state : MarkState) : Worklist Nat :=
  ⟨state.marked, state.stack, state.overflow⟩

theorem Heap.isReference_iff {heap : Heap host} {obj : Nat} : heap.isReference obj = true ↔
      obj &&& 3 = 0 ∧ obj ≠ 0 ∧ obj < heap.arenaSize := by
  simp [Heap.isReference]

section Visits

variable {heap : Heap host} {growth : Growth}

theorem gcMarkStackGrow_worklist (arenaSize : Nat) (growth : Growth) (state : MarkState) :
    (gcMarkStackGrow arenaSize growth state).2.worklist = state.worklist := by
  rw [gcMarkStackGrow]
  split
  · rfl
  · dsimp only
    split
    · rfl
    · split <;> rfl

theorem gcMarkVisit_other {obj : Nat} (state : MarkState) (other : heap.isReference obj = false) :
    gcMarkVisit heap growth state obj = state := by
  rw [gcMarkVisit]
  by_cases immediate : obj &&& 3 ≠ 0 ∨ obj = 0
  · rw [if_pos immediate]
  · have outside : heap.arenaSize ≤ obj := by
      by_contra inside
      have reference : heap.isReference obj = true :=
        Heap.isReference_iff.mpr (by omega)
      simp [other] at reference
    rw [if_neg immediate, if_pos outside]

theorem gcMarkVisit_meets {obj : Nat} (state : MarkState)
    (reference : heap.isReference obj = true) :
    Meets heap.references obj state.worklist (gcMarkVisit heap growth state obj).worklist := by
  obtain ⟨aligned, nonzero, inside⟩ := Heap.isReference_iff.mp reference
  rw [gcMarkVisit, if_neg (by omega), if_neg (by omega)]
  by_cases known : obj ∈ state.marked
  · rw [if_pos known]
    exact .old known
  · rw [if_neg known]
    dsimp only
    split
    · next leaf =>
        refine .leaf known ?_
        rw [Heap.references, children_of_leaf _ leaf, List.filter_nil]
    · split
      · exact .pushed known
      · -- The stack is full: the object is queued if it grows, else lost.
        have same := gcMarkStackGrow_worklist heap.arenaSize growth
          { state with marked := obj :: state.marked }
        obtain ⟨marks, stack, flag⟩ := Worklist.mk.inj same
        split
        · next grown shape =>
            rw [shape] at marks stack flag
            dsimp only at marks stack flag
            simp only [MarkState.worklist, marks, stack, flag]
            exact .pushed known
        · next kept shape =>
            rw [shape] at marks stack flag
            dsimp only at marks stack flag
            simp only [MarkState.worklist, marks, stack]
            exact .dropped known

theorem visits_meet (words : List Nat) (state : MarkState) :
    MeetsAll heap.references (words.filter heap.isReference) state.worklist
      (words.foldl (gcMarkVisit heap growth) state).worklist := by
  induction words generalizing state with
  | nil => exact .nil _
  | cons word words induction =>
      rw [List.foldl_cons]
      cases reference : heap.isReference word with
      | false =>
          rw [List.filter_cons_of_neg (by simp [reference]), gcMarkVisit_other state reference]
          exact induction state
      | true =>
          rw [List.filter_cons_of_pos reference]
          exact .cons (gcMarkVisit_meets state reference) (induction _)

theorem gcMarkChildren_meets (state : MarkState) (obj : Nat) :
    MeetsAll heap.references (heap.references obj) state.worklist
      (gcMarkChildren heap growth state obj).worklist :=
  visits_meet _ state

theorem gcMarkScan_eq (state : MarkState) (obj : Nat) :
    gcMarkScan heap growth state obj = gcMarkChildren heap growth state obj := by
  rw [gcMarkScan]
  split
  · next car cdr shape =>
      rw [gcMarkChildren, shape]
      rfl
  · rfl

theorem rescans (blocks : List Block) (state : MarkState) :
    Rescans heap.references (blocks.map Block.off) state.worklist
      (blocks.foldl (gcMarkRescan heap growth) state).worklist := by
  induction blocks generalizing state with
  | nil => exact .nil _
  | cons block blocks induction =>
      rw [List.map_cons, List.foldl_cons, gcMarkRescan]
      by_cases known : block.off ∈ state.marked
      · rw [if_pos known]
        exact .scan known (gcMarkChildren_meets state block.off) (induction _)
      · rw [if_neg known]
        exact .skip known (induction state)

end Visits

def TracedHeap.starts (heap : TracedHeap host) (obj : Nat) : Prop :=
  obj ∈ heap.roots ∧ heap.isReference obj = true

theorem reached_iff (heap : TracedHeap host) (obj : Nat) :
    Reached heap.references heap.starts obj ↔ heap.Reachable heap.roots obj := by
  constructor
  · rintro ⟨root, ⟨member, reference⟩, path⟩
    induction path with
    | refl => exact .root member reference
    | tail _ edge induction =>
        obtain ⟨child, childReference⟩ := List.mem_filter.mp edge
        exact .child induction child childReference
  · intro reached
    induction reached with
    | root member reference => exact ⟨_, ⟨member, reference⟩, .refl⟩
    | child _ member reference induction =>
        exact induction.step (List.mem_filter.mpr ⟨member, reference⟩)

section Drains

variable {heap : TracedHeap host} {growth : Growth}

theorem marked_blocks {list : Worklist Nat} (sound : Sound heap.references heap.starts list) :
    list.marked ⊆ heap.arena.blocks.map Block.off := by
  intro obj member
  exact heap.closed obj ((reached_iff heap obj).mp (sound.reached obj member))

theorem marked_length_le {list : Worklist Nat} (sound : Sound heap.references heap.starts list) :
    list.marked.length ≤ heap.arena.blocks.length := by
  have bound := (sound.nodup.subperm (marked_blocks sound)).length_le
  rwa [List.length_map] at bound

theorem gcMarkDrain_drains {fuel : Nat} {state : MarkState}
    (sound : Sound heap.references heap.starts state.worklist)
    (enough : state.stack.length + heap.arena.blocks.length < fuel + state.marked.length) :
    ∃ final, gcMarkDrain heap.toHeap growth fuel state = some final ∧
      Drains heap.references state.worklist final.worklist := by
  induction fuel generalizing state with
  | zero =>
      have bound : state.marked.length ≤ _ := marked_length_le sound
      omega
  | succ fuel induction =>
      rw [gcMarkDrain]
      split
      · next empty => exact ⟨state, rfl, .done empty⟩
      · next obj stack top =>
          have successors := @gcMarkChildren_meets host heap.toHeap growth
            { state with stack } obj
          have work := successors.grows.work
          rw [gcMarkScan_eq]
          obtain ⟨final, result, rest⟩ :=
            induction (sound.pop top successors) (by
              rw [top, List.length_cons] at enough
              simp only [MarkState.worklist] at work
              omega)
          exact ⟨final, result, .step top successors rest⟩

/-- A state between two rounds of the overflow loop: nothing waits, the roots
are marked, and unless an object was lost the marks are closed. -/
structure Settled (heap : TracedHeap host) (list : Worklist Nat) : Prop where
  sound : Sound heap.references heap.starts list
  covered : Covered heap.references (fun _ => False) list
  empty : list.stack = []
  starts : ∀ obj, heap.starts obj → obj ∈ list.marked

/-- After its flag is reset, a round leaves a settled state, with a new mark if
it lost an object. -/
theorem round_settles {drainFuel : Nat} {state : MarkState}
    (fuel : heap.arena.blocks.length < drainFuel)
    (settled : Settled heap state.worklist) :
    ∃ final, gcMarkDrain heap.toHeap growth drainFuel
        (heap.arena.blocks.foldl (gcMarkRescan heap.toHeap growth)
          { state with overflow := false }) = some final ∧
      Settled heap final.worklist ∧
      state.marked.length ≤ final.marked.length ∧
      (final.overflow = true → state.marked.length < final.marked.length) := by
  have reset : Sound heap.references heap.starts
      { state with overflow := false }.worklist :=
    ⟨settled.sound.reached, settled.sound.stacked, settled.sound.nodup⟩
  have excused : Covered heap.references
      (fun obj => obj ∈ heap.arena.blocks.map Block.off)
      { state with overflow := false }.worklist :=
    fun _ _ member => Or.inr (Or.inr (marked_blocks settled.sound member))
  obtain ⟨soundWalk, coveredWalk, growsWalk⟩ :=
    (@rescans host heap.toHeap growth heap.arena.blocks _).spec reset excused
  have work := growsWalk.work
  have waiting : state.stack.length = 0 := List.length_eq_zero_iff.mpr settled.empty
  obtain ⟨final, result, drains⟩ :=
    @gcMarkDrain_drains host heap growth drainFuel _ soundWalk (by
      simp only [MarkState.worklist] at work
      omega)
  obtain ⟨sound, covered, empty, advances⟩ := drains.spec soundWalk coveredWalk
  have whole := growsWalk.advances.trans advances
  exact ⟨final, result,
    ⟨sound, covered, empty, fun obj start =>
      whole.subset obj (settled.starts obj start)⟩,
    whole.longer, whole.loss rfl⟩

/-- The loop ends: every further round has marked a new object. -/
theorem gcMarkRecover_settles {drainFuel fuel : Nat} {state : MarkState}
    (enough : heap.arena.blocks.length < drainFuel)
    (settled : Settled heap state.worklist) (positive : 0 < fuel)
    (rounds : state.overflow = true → heap.arena.blocks.length + 1 < fuel + state.marked.length) :
    ∃ final, gcMarkRecover heap.toHeap growth drainFuel fuel state = some final ∧
      Settled heap final.worklist ∧ final.overflow = false := by
  induction fuel generalizing state with
  | zero => omega
  | succ fuel induction =>
      rw [gcMarkRecover]
      cases flag : state.overflow with
      | false => exact ⟨state, by simp, settled, flag⟩
      | true =>
          obtain ⟨next, result, settledNext, longer, loss⟩ :=
            @round_settles host heap growth drainFuel state enough settled
          have bound : state.marked.length ≤ _ := marked_length_le settled.sound
          have remaining := rounds flag
          simp only [if_true, result]
          refine induction settledNext (by omega) fun again => ?_
          have := loss again
          omega

end Drains

/-- `gc_mark` ends and marks exactly the objects reachable from the roots,
whatever the capacity of the stack and whichever of its growths fail. -/
theorem gcMark_reachable (heap : TracedHeap host) (growth : Growth) (cap : Nat) :
    ∃ final, gcMark heap growth cap (heap.arena.blocks.length + 1) = some final ∧
      ∀ obj, obj ∈ final.marked ↔ heap.Reachable heap.roots obj := by
  have started := @visits_meet host heap.toHeap growth heap.roots ⟨[], [], cap, false, false, 0⟩
  have grows := started.grows
  have blank : Sound heap.references heap.starts
      (MarkState.worklist ⟨[], [], cap, false, false, 0⟩) :=
    ⟨by simp [MarkState.worklist], by simp [MarkState.worklist],
      by simp [MarkState.worklist]⟩
  have isStart : ∀ obj, obj ∈ heap.roots.filter heap.isReference ↔
      heap.starts obj := fun _ => List.mem_filter
  have sound := blank.grows grows fun obj member =>
    ⟨obj, (isStart obj).mp member, .refl⟩
  have coveredBlank : Covered heap.references (fun _ => False)
      (MarkState.worklist ⟨[], [], cap, false, false, 0⟩) := by
    simp [Covered, MarkState.worklist]
  have covered := started.covered coveredBlank
  have work := grows.work
  obtain ⟨traced, tracedResult, drains⟩ :=
    @gcMarkDrain_drains host heap growth (heap.arena.blocks.length + 1) _ sound (by
        simp only [MarkState.worklist, List.length_nil] at work
        omega)
  obtain ⟨soundTraced, coveredTraced, emptyTraced, advances⟩ :=
    drains.spec sound covered
  have noStack : traced.stack = [] := emptyTraced
  have settled : Settled heap traced.worklist :=
    ⟨soundTraced, coveredTraced, emptyTraced, fun obj start =>
      advances.subset obj (started.marks obj ((isStart obj).mpr start))⟩
  have whole := grows.advances.trans advances
  obtain ⟨final, result, settledFinal, kept⟩ :=
    @gcMarkRecover_settles host heap growth (heap.arena.blocks.length + 1)
      (heap.arena.blocks.length + 1) traced (by omega) settled (by omega)
      (fun lost => by
        have := whole.loss rfl lost
        simp only [MarkState.worklist, List.length_nil] at this
        omega)
  refine ⟨final, ?_, ?_⟩
  · -- Nothing was pushed since, so the second drain returns at once.
    have again : gcMarkDrain heap.toHeap growth
        (heap.arena.blocks.length + 1) traced = some traced := by
      simp [gcMarkDrain, noStack]
    simp only [gcMark, tracedResult, again, result]
  · intro obj
    rw [← reached_iff]
    exact marked_iff settledFinal.sound settledFinal.covered kept
      settledFinal.empty settledFinal.starts obj

/-- Five conses one after the other, of twelve bytes each. -/
def consArena : Arena .bits32 where
  bump := 64
  header _ := ⟨12, false⟩
  bump_lt := by decide
  walkable := by
    refine .block _ (by decide) (by decide) (by decide) ?_
    refine .block _ (by decide) (by decide) (by decide) ?_
    refine .block _ (by decide) (by decide) (by decide) ?_
    refine .block _ (by decide) (by decide) (by decide) ?_
    exact .block _ (by decide) (by decide) (by decide) .done

/-- The first cons holds the second and the third, the second points back at
the first, only the third knows the fourth, and nothing knows the last. -/
def consHeap : Heap .bits32 where
  arena := consArena
  arenaSize := 1024
  object
    | 4 => .cons 16 28
    | 16 => .cons 4 0
    | 28 => .cons 40 28
    | 40 => .cons 0 0
    | 52 => .cons 4 16
    | _ => .string

theorem consHeap_reachable {roots : List Nat} (first : ∀ obj ∈ roots, obj = 0 ∨ obj = 4) {obj : Nat}
    (reached : consHeap.Reachable roots obj) : obj ∈ [4, 16, 28, 40] := by
  induction reached with
  | root member reference =>
      rcases first _ member with rfl | rfl
      · simp [Heap.isReference] at reference
      · simp
  | child reached member reference induction =>
      simp only [List.mem_cons, List.not_mem_nil, or_false] at induction
      rcases induction with rfl | rfl | rfl | rfl <;>
        simp only [consHeap, HeapObject.children, List.mem_cons,
          List.not_mem_nil, or_false] at member <;>
        rcases member with rfl | rfl <;>
        first
          | decide
          | simp [Heap.isReference] at reference

/-- The protected variable of the process holds the first cons. -/
def heldMemory : Memory := fun slot => if slot = 5 then 4 else 0

theorem heldMemory_roots {obj : Nat}
    (member : obj ∈ rootValues protectingProcess evenLayout heldMemory) :
    obj = 0 ∨ obj = 4 := by
  obtain ⟨slot, _, rfl⟩ := List.mem_map.mp member
  rw [heldMemory]
  split
  · exact Or.inr rfl
  · exact Or.inl rfl

def heldHeap : TracedHeap .bits32 where
  toHeap := consHeap
  process := protectingProcess
  layout := evenLayout
  memory := heldMemory
  closed obj reached := by
    have starts : consHeap.arena.blocks.map Block.off =
        [4, 16, 28, 40, 52] := by
      decide
    rw [starts]
    exact List.mem_append_left [52]
      (consHeap_reachable (fun _ => heldMemory_roots) reached)

theorem held_first : heldHeap.Reachable heldHeap.roots 4 := by
  refine .root ?_ (by decide)
  refine List.mem_map.mpr ⟨5, List.mem_append_left _ (List.mem_append_right _ ?_), rfl⟩
  simp [heldHeap, Process.registered, protectingProcess]

/-- With room for one entry and every larger buffer refused, the third cons is
lost from the stack, and the walk of the arena still finds the fourth. -/
theorem heldHeap_marked :
    ∃ final, gcMark heldHeap ⟨0, fun _ => false⟩ 1 6 = some final ∧
      final.growFailed = true ∧
      ∀ obj, obj ∈ final.marked ↔ obj ∈ [4, 16, 28, 40] := by
  obtain ⟨final, made, marks⟩ :=
    gcMark_reachable heldHeap ⟨0, fun _ => false⟩ 1
  have refused : (gcMark heldHeap ⟨0, fun _ => false⟩ 1 6).map
      MarkState.growFailed = some true := by
    decide +kernel
  have second : heldHeap.Reachable heldHeap.roots 16 :=
    .child held_first (by decide) (by decide)
  have third : heldHeap.Reachable heldHeap.roots 28 :=
    .child held_first (by decide) (by decide)
  have fourth : heldHeap.Reachable heldHeap.roots 40 :=
    .child third (by decide) (by decide)
  refine ⟨final, made, ?_, fun obj => ⟨fun member => ?_, fun member => ?_⟩⟩
  · change gcMark heldHeap ⟨0, fun _ => false⟩ 1 6 = some final at made
    rw [made] at refused
    exact Option.some.inj refused
  · exact consHeap_reachable (fun _ => heldMemory_roots)
      ((marks obj).mp member)
  · simp only [List.mem_cons, List.not_mem_nil, or_false] at member
    rcases member with rfl | rfl | rfl | rfl
    · exact (marks 4).mpr held_first
    · exact (marks 16).mpr second
    · exact (marks 28).mpr third
    · exact (marks 40).mpr fourth

end ClAmiga.Gc
