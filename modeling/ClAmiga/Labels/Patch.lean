import ClAmiga.Labels.Read

/-!
# What the walk patches

A walk that stays within its limits visits every node that is reached from its root
without going through the placeholder.  When these are all the nodes that hold the
placeholder, the heap afterwards is the heap with the placeholder renamed.
-/

namespace ClAmiga.Labels

@[simp] theorem Cell.slots_mapSlots (f : Obj → Obj) (cell : Cell) :
    (cell.mapSlots f).slots = cell.slots.map f := by
  cases cell <;> rfl

@[simp] theorem Cell.isContainer_mapSlots (f : Obj → Obj) (cell : Cell) :
    (cell.mapSlots f).isContainer = cell.isContainer := by
  cases cell <;> rfl

theorem Cell.mapSlots_eq_self {f : Obj → Obj} {cell : Cell}
    (fixed : ∀ slot ∈ cell.slots, f slot = slot) : cell.mapSlots f = cell := by
  cases cell with
  | cons car cdr => rw [mapSlots, fixed car (by simp [slots]), fixed cdr (by simp [slots])]
  | vector data => exact congrArg vector ((List.map_congr_left fixed).trans (List.map_id' data))
  | struct data => exact congrArg struct ((List.map_congr_left fixed).trans (List.map_id' data))

theorem patchSlot_of_ne {placeholder target slot : Obj} (different : slot ≠ placeholder) :
    patchSlot placeholder target slot = slot :=
  if_neg different

@[simp] theorem patchSlot_self (placeholder target : Obj) :
    patchSlot placeholder target placeholder = target :=
  if_pos rfl

inductive Reach (heap : Heap) (root : Obj) : Nat → Prop where
  | root {a : Nat} (here : root = .ref a)
      (container : readerPatchContainerP heap (.ref a) = true) : Reach heap root a
  | step {a b : Nat} {cell : Cell} (reached : Reach heap root a)
      (found : heap[a]? = some cell) (slot : .ref b ∈ cell.slots)
      (container : readerPatchContainerP heap (.ref b) = true) : Reach heap root b

theorem readerPatchContainerP_ref {heap : Heap} {a : Nat} :
    readerPatchContainerP heap (.ref a) = true ↔
      ∃ cell, heap[a]? = some cell ∧ cell.isContainer = true := by
  rw [readerPatchContainerP]
  split
  · next cell found => simp [found]
  · next absent => simp [absent]

def patched (placeholder target : Obj) (heap : Heap) (visited : List Nat) : Heap :=
  heap.mapIdx fun a cell =>
    if a ∈ visited then cell.mapSlots (patchSlot placeholder target) else cell

theorem getElem?_patched (placeholder target : Obj) (heap : Heap) (visited : List Nat) (a : Nat) :
    (patched placeholder target heap visited)[a]? =
      (heap[a]?).map fun cell =>
        if a ∈ visited then cell.mapSlots (patchSlot placeholder target) else cell := by
  rw [patched, List.getElem?_mapIdx]

theorem container_patched (placeholder target : Obj) (heap : Heap) (visited : List Nat)
    (slot : Obj) :
    readerPatchContainerP (patched placeholder target heap visited) slot =
      readerPatchContainerP heap slot := by
  cases slot with
  | ref a =>
      simp only [readerPatchContainerP, getElem?_patched]
      cases heap[a]? with
      | none => rfl
      | some cell =>
          simp only [Option.map_some]
          split <;> simp
  | _ => rfl

theorem patched_cons (placeholder target : Obj) (heap : Heap) (visited : List Nat) {node : Nat}
    (new : node ∉ visited) :
    (patched placeholder target heap visited).set node
        (((patched placeholder target heap visited).getD node (.struct [])).mapSlots
          (patchSlot placeholder target)) =
      patched placeholder target heap (node :: visited) := by
  apply List.ext_getElem?
  intro a
  rw [List.getElem?_set, getElem?_patched, getElem?_patched, List.getD_eq_getElem?_getD,
    getElem?_patched]
  by_cases same : node = a
  · subst same
    rw [if_pos rfl]
    cases found : heap[node]? with
    | none =>
        have outside : ¬ node < heap.length := by
          have := List.getElem?_eq_none_iff.mp found
          omega
        simp [patched, outside]
    | some cell =>
        have inside : node < heap.length := (List.getElem?_eq_some_iff.mp found).1
        simp [patched, inside, new]
  · rw [if_neg same]
    simp only [List.mem_cons, Ne.symm same, false_or]

/-- A push that leaves nothing out stacks the container in the slot. -/
theorem pushSlot_spec {heap : Heap} {placeholder slot : Obj} {stack : List Nat × Bool}
    (whole : (pushSlot heap placeholder stack slot).2 = true) :
    stack.2 = true ∧ (∀ a ∈ stack.1, a ∈ (pushSlot heap placeholder stack slot).1) ∧
      (slot ≠ placeholder → readerPatchContainerP heap slot = true →
        slot.addr ∈ (pushSlot heap placeholder stack slot).1) := by
  rw [pushSlot] at whole ⊢
  by_cases same : slot = placeholder
  · rw [if_pos same] at whole ⊢
    exact ⟨whole, fun _ member => member, fun different => absurd same different⟩
  · rw [if_neg same] at whole ⊢
    cases container : readerPatchContainerP heap slot with
    | false =>
        rw [if_neg (by simp [container])] at whole ⊢
        exact ⟨whole, fun _ member => member, fun _ contains => by simp at contains⟩
    | true =>
        rw [container, if_pos rfl] at whole
        rw [if_pos rfl]
        by_cases room : stack.1.length < maxN
        · rw [if_pos room] at whole ⊢
          exact ⟨whole, fun _ member => List.mem_cons_of_mem _ member,
            fun _ _ => List.mem_cons_self⟩
        · rw [if_neg room] at whole
          simp at whole

/-- The same for all slots of a container. -/
theorem pushSlots_spec {heap : Heap} {placeholder : Obj} (slots : List Obj)
    (stack : List Nat × Bool)
    (whole : (slots.foldl (pushSlot heap placeholder) stack).2 = true) :
    stack.2 = true ∧ (∀ a ∈ stack.1, a ∈ (slots.foldl (pushSlot heap placeholder) stack).1) ∧
      ∀ slot ∈ slots, slot ≠ placeholder → readerPatchContainerP heap slot = true →
        slot.addr ∈ (slots.foldl (pushSlot heap placeholder) stack).1 := by
  induction slots generalizing stack with
  | nil => exact ⟨whole, fun _ member => member, by simp⟩
  | cons slot slots induction =>
      rw [List.foldl_cons] at whole ⊢
      obtain ⟨middle, keeps, pushes⟩ := induction _ whole
      obtain ⟨start, keepsFirst, pushesFirst⟩ := pushSlot_spec middle
      refine ⟨start, fun a member => keeps a (keepsFirst a member), ?_⟩
      intro other member different container
      rcases List.mem_cons.mp member with rfl | later
      · exact keeps _ (pushesFirst different container)
      · exact pushes other later different container

/-- Every container in the slots of some nodes, but for the placeholder, is one of others. -/
def SlotsIn (placeholder : Obj) (heap : Heap) (nodes others : List Nat) : Prop :=
  ∀ a ∈ nodes, ∀ cell, heap[a]? = some cell → ∀ slot ∈ cell.slots, slot ≠ placeholder →
    readerPatchContainerP heap slot = true → slot.addr ∈ others

theorem dropWhile_visited (stack visited : List Nat) :
    (∀ a ∈ stack, a ∈ visited ∨ a ∈ stack.dropWhile (· ∈ visited)) ∧
      ∀ node rest, stack.dropWhile (· ∈ visited) = node :: rest → node ∉ visited := by
  induction stack with
  | nil => simp
  | cons a stack induction =>
      by_cases seen : a ∈ visited
      · rw [List.dropWhile_cons_of_pos (by simpa using seen)]
        refine ⟨?_, induction.2⟩
        intro other member
        rcases List.mem_cons.mp member with rfl | later
        · exact Or.inl seen
        · exact induction.1 other later
      · rw [List.dropWhile_cons_of_neg (by simpa using seen)]
        refine ⟨fun other member => Or.inr member, ?_⟩
        rintro node rest ⟨rfl, rfl⟩
        exact seen

theorem SlotsIn.done {placeholder : Obj} {heap : Heap} {stack visited : List Nat}
    (slotsIn : SlotsIn placeholder heap visited (visited ++ stack))
    (empty : stack.dropWhile (· ∈ visited) = []) :
    (∀ a ∈ stack, a ∈ visited) ∧ SlotsIn placeholder heap visited visited := by
  have all : ∀ a ∈ stack, a ∈ visited := by
    intro a member
    rcases (dropWhile_visited stack visited).1 a member with seen | waiting
    · exact seen
    · simp [empty] at waiting
  refine ⟨all, ?_⟩
  intro a member cell found slot inside different container
  rcases List.mem_append.mp (slotsIn a member cell found slot inside different container) with
    seen | waiting
  · exact seen
  · exact all _ waiting

/-- A walk within its limits patches a set of nodes that holds its stack and is closed
under containers in slots. -/
theorem patchWalk_spec {placeholder target : Obj} {heap : Heap} (budget : Nat)
    (stack visited : List Nat)
    (slotsIn : SlotsIn placeholder heap visited (visited ++ stack))
    (whole : (patchWalk placeholder target budget (patched placeholder target heap visited)
      stack visited).2 = true) :
    ∃ nodes, (patchWalk placeholder target budget (patched placeholder target heap visited)
        stack visited).1 = patched placeholder target heap nodes ∧
      (∀ a ∈ visited, a ∈ nodes) ∧ (∀ a ∈ stack, a ∈ nodes) ∧
      SlotsIn placeholder heap nodes nodes := by
  induction budget generalizing stack visited with
  | zero =>
      rw [patchWalk] at whole
      obtain ⟨all, closed⟩ := slotsIn.done (by simpa using whole)
      exact ⟨visited, rfl, fun _ member => member, all, closed⟩
  | succ budget induction =>
      rw [patchWalk] at whole ⊢
      cases shape : stack.dropWhile (· ∈ visited) with
      | nil =>
          obtain ⟨all, closed⟩ := slotsIn.done shape
          exact ⟨visited, rfl, fun _ member => member, all, closed⟩
      | cons node rest =>
          rw [shape] at whole
          have new := (dropWhile_visited stack visited).2 node rest shape
          have members : ∀ a ∈ stack, a ∈ visited ∨ a = node ∨ a ∈ rest := by
            intro a member
            have popped := (dropWhile_visited stack visited).1 a member
            rwa [shape, List.mem_cons] at popped
          simp only [Bool.and_eq_true] at whole
          obtain ⟨pushedWhole, walkedWhole⟩ := whole
          rw [patched_cons _ _ _ _ new] at walkedWhole
          dsimp only
          rw [patched_cons _ _ _ _ new]
          obtain ⟨_, keeps, pushes⟩ := pushSlots_spec _ _ pushedWhole
          have next : SlotsIn placeholder heap (node :: visited) ((node :: visited) ++
              (((patched placeholder target heap visited).getD node (.struct [])).slots.foldl
                (pushSlot (patched placeholder target heap visited) placeholder)
                (rest, true)).1) := by
            intro a member cell found slot inside different container
            rcases List.mem_cons.mp member with rfl | old
            · refine List.mem_append_right _ (pushes slot ?_ different ?_)
              · have here : (patched placeholder target heap visited)[a]? = some cell := by
                  simp [getElem?_patched, found, new]
                rw [List.getD_eq_getElem?_getD, here]
                exact inside
              · rw [container_patched]
                exact container
            · rcases List.mem_append.mp
                (slotsIn a old cell found slot inside different container) with seen | waiting
              · exact List.mem_append_left _ (List.mem_cons_of_mem _ seen)
              · rcases members _ waiting with seen | rfl | later
                · exact List.mem_append_left _ (List.mem_cons_of_mem _ seen)
                · exact List.mem_append_left _ List.mem_cons_self
                · exact List.mem_append_right _ (keeps _ later)
          obtain ⟨nodes, result, visitedIn, stackIn, closed⟩ :=
            induction _ (node :: visited) next walkedWhole
          refine ⟨nodes, result, fun a member => visitedIn a (List.mem_cons_of_mem _ member), ?_,
            closed⟩
          intro a member
          rcases members a member with seen | rfl | later
          · exact visitedIn a (List.mem_cons_of_mem _ seen)
          · exact visitedIn a List.mem_cons_self
          · exact stackIn a (keeps a later)

def renamed (placeholder target : Obj) (heap : Heap) : Heap :=
  heap.map (Cell.mapSlots (patchSlot placeholder target))

/-- When every cell that holds the placeholder is reached from the root, a walk within its
limits renames the placeholder, which itself leads nowhere. -/
theorem readerPatchLabels_eq {heap : Heap} {root placeholder target : Obj}
    (whole : (readerPatchLabels heap root placeholder target).2 = true)
    (dead : ∀ p cell, placeholder = .ref p → heap[p]? = some cell → ∀ b, .ref b ∉ cell.slots)
    (reach : ∀ a cell, heap[a]? = some cell → placeholder ∈ cell.slots → Reach heap root a) :
    (readerPatchLabels heap root placeholder target).1 = renamed placeholder target heap := by
  have untouched : ∀ cell ∈ heap, placeholder ∉ cell.slots →
      cell.mapSlots (patchSlot placeholder target) = cell := by
    intro cell _ absent
    refine Cell.mapSlots_eq_self fun slot member => patchSlot_of_ne ?_
    rintro rfl
    exact absent member
  rw [readerPatchLabels] at whole ⊢
  cases container : readerPatchContainerP heap root with
  | false =>
      have nothing : ∀ a, ¬ Reach heap root a := by
        intro a reached
        induction reached with
        | root here contains => simp [here, contains] at container
        | step _ _ _ _ induction => exact induction
      rw [if_neg (by simp)]
      refine (List.map_id' heap).symm.trans (List.map_congr_left ?_)
      intro cell member
      obtain ⟨a, found⟩ := List.mem_iff_getElem?.mp member
      exact (untouched cell member fun holds => nothing a (reach a cell found holds)).symm
  | true =>
      rw [container, if_pos rfl] at whole
      rw [if_pos rfl]
      have start : patched placeholder target heap [] = heap := by
        apply List.ext_getElem?
        intro a
        simp [getElem?_patched]
      rw [← start] at whole
      obtain ⟨nodes, result, _, rootIn, closed⟩ :=
        patchWalk_spec maxN [root.addr] [] (by simp [SlotsIn]) whole
      rw [start] at result
      rw [result]
      have visits : ∀ a, Reach heap root a → a ∈ nodes ∨ placeholder = .ref a := by
        intro a reached
        induction reached with
        | root here _ =>
            refine Or.inl (rootIn _ ?_)
            simp [here, Obj.addr]
        | @step a b cell _ found slot contains induction =>
            rcases induction with known | same
            · by_cases here : placeholder = .ref b
              · exact Or.inr here
              · exact Or.inl (closed a known cell found _ slot (Ne.symm here) contains)
            · exact absurd slot (dead a cell same found b)
      apply List.ext_getElem?
      intro a
      rw [getElem?_patched, renamed, List.getElem?_map]
      cases found : heap[a]? with
      | none => rfl
      | some cell =>
          simp only [Option.map_some, Option.some.injEq]
          split
          · rfl
          · next outside =>
              refine (untouched cell (List.mem_of_getElem? found) ?_).symm
              intro holds
              rcases visits a (reach a cell found holds) with known | same
              · exact outside known
              · subst same
                exact dead a cell rfl found a holds

end ClAmiga.Labels
