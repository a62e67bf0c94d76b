import ClAmiga.Labels.ReadSpec

/-!
# The end of a label

While the object of a label is read its placeholder is only in new cells that the walk
reaches.  When the walk stays within its limits, the heap afterwards is the heap with the
placeholder renamed to the object.
-/

namespace ClAmiga.Labels

theorem lookup_rebind (labels : List (Nat × Obj)) (n m : Nat) (obj : Obj) :
    (rebind labels n obj).lookup m =
      if m = n then (labels.lookup n).map fun _ => obj else labels.lookup m := by
  induction labels with
  | nil => simp [rebind]
  | cons entry labels induction =>
      obtain ⟨key, value⟩ := entry
      rw [rebind] at induction ⊢
      rw [List.map_cons]
      by_cases same : m = key
      · subst same
        by_cases here : m = n
        · subst here
          simp
        · simp [here]
      · have differs : (m == key) = false := by simpa using same
        by_cases here : key = n
        · subst here
          simp only [if_true, List.lookup_cons, differs]
          rw [induction, if_neg same, if_neg same]
        · have keyDiffers : (n == key) = false := by simpa using Ne.symm here
          simp only [if_neg here, List.lookup_cons, differs]
          rw [induction]
          simp only [keyDiffers]

def ReadState.begin (state : ReadState) (n : Nat) : ReadState :=
  { (state.alloc (.cons .unbound .nil)).2 with
    labels := (n, .ref state.heap.length) :: state.labels }

theorem env_begin (state : ReadState) (n m : Nat) :
    (state.begin n).env m = if m = n then some (.ref state.heap.length) else state.env m := by
  rw [ReadState.env, ReadState.begin, List.lookup_cons]
  by_cases same : m = n
  · simp [same]
  · have differs : (m == n) = false := by simpa using same
    simp only [differs, if_neg same]
    rfl

theorem length_begin (state : ReadState) (n : Nat) :
    (state.begin n).heap.length = state.heap.length + 1 :=
  length_alloc state _

theorem getElem?_begin (state : ReadState) (n : Nat) :
    (state.begin n).heap[state.heap.length]? = some (.cons .unbound .nil) :=
  getElem?_alloc_new state _

theorem Extends.begin {state : ReadState} {n : Nat} (new : state.env n = none) :
    Extends state.heap.length state (state.begin n) where
  cells _ _ _ found := getElem?_alloc found
  gained _ cell found := ⟨cell, getElem?_alloc found, .refl cell⟩
  labels m obj value := by
    rw [env_begin, if_neg, value]
    rintro rfl
    simp [new] at value
  backrefs := Nat.le_refl _

theorem Good.begin {opened : List Nat} {state : ReadState} {n : Nat} (good : Good opened state)
    (new : state.env n = none) : Good (n :: opened) (state.begin n) where
  slots a cell b here member := by
    rw [length_begin]
    rcases getElem?_alloc_cases here with old | ⟨_, rfl⟩
    · exact Nat.lt_succ_of_lt (good.slots a cell b old member)
    · simp [Cell.slots] at member
  values m b value := by
    rw [length_begin]
    rw [env_begin] at value
    by_cases same : m = n
    · rw [if_pos same] at value
      obtain rfl : state.heap.length = b := by simpa using value
      exact Nat.lt_succ_self _
    · rw [if_neg same] at value
      exact Nat.lt_succ_of_lt (good.values m b value)
  opened_iff m obj value := by
    rw [env_begin] at value
    by_cases same : m = n
    · rw [if_pos same] at value
      obtain rfl : .ref state.heap.length = obj := Option.some.inj value
      have placeholder : isPlaceholder (state.begin n).heap (.ref state.heap.length) = true :=
        isPlaceholder_ref.mpr ⟨_, getElem?_begin state n, rfl⟩
      simp [placeholder, same]
    · rw [if_neg same] at value
      have inside : ∀ b, obj = .ref b → b < state.heap.length := by
        rintro b rfl
        exact good.values m b value
      rw [(Extends.begin new).isPlaceholder inside, good.opened_iff m obj value]
      simp [same]
  defined m member := by
    rw [env_begin]
    by_cases same : m = n
    · exact ⟨_, if_pos same⟩
    · rw [if_neg same]
      exact good.defined m ((List.mem_cons.mp member).resolve_left same)
  bound m := by
    rw [env_begin]
    by_cases same : m = n
    · simp [same]
    · rw [if_neg same]
      exact good.bound m

theorem getElem?_renamed (placeholder target : Obj) (heap : Heap) (a : Nat) :
    (renamed placeholder target heap)[a]? =
      (heap[a]?).map (Cell.mapSlots (patchSlot placeholder target)) :=
  List.getElem?_map

theorem length_renamed (placeholder target : Obj) (heap : Heap) :
    (renamed placeholder target heap).length = heap.length :=
  List.length_map _

theorem isPlaceholder_renamed {p : Nat} {target : Obj} (bound : target ≠ .unbound)
    (heap : Heap) (obj : Obj) :
    isPlaceholder (renamed (.ref p) target heap) obj = isPlaceholder heap obj := by
  cases obj with
  | ref a =>
      rw [isPlaceholder, isPlaceholder, getElem?_renamed]
      cases heap[a]? with
      | none => rfl
      | some cell =>
          cases cell with
          | cons car cdr =>
              by_cases same : car = .ref p
              · simp [Cell.mapSlots, same, bound]
              · simp [Cell.mapSlots, patchSlot_of_ne same]
          | vector => rfl
          | struct => rfl
  | _ => rfl

section Close

variable {opened : List Nat} {before after closed : ReadState} {n : Nat} {obj : Obj}
  {f : Nat → Bool}

/-- What is known when the object of a label is read. -/
structure Labelled (opened : List Nat) (before after : ReadState) (n : Nat) (obj : Obj)
    (f : Nat → Bool) : Prop where
  good : Good opened before
  new : before.env n = none
  spec : ReadSpec (n :: opened) (before.heap.length + 1) (before.begin n) f [obj] after
  proper : isPlaceholder after.heap obj = false
  bound : obj ≠ .unbound

namespace Labelled

theorem cell (labelled : Labelled opened before after n obj f) :
    after.heap[before.heap.length]? = some (.cons .unbound .nil) :=
  labelled.spec.grows.cells _ _ (Nat.lt_succ_self _) (getElem?_begin before n)

theorem placeholder (labelled : Labelled opened before after n obj f) :
    isPlaceholder after.heap (.ref before.heap.length) = true :=
  isPlaceholder_ref.mpr ⟨_, labelled.cell, rfl⟩

theorem obj_ne (labelled : Labelled opened before after n obj f) :
    obj ≠ .ref before.heap.length := by
  rintro rfl
  simpa [labelled.placeholder] using labelled.proper

theorem old_cell (labelled : Labelled opened before after n obj f) {a : Nat} {cell : Cell}
    (found : before.heap[a]? = some cell) :
    after.heap[a]? = some cell ∧ .ref before.heap.length ∉ cell.slots := by
  have below := (List.getElem?_eq_some_iff.mp found).1
  refine ⟨labelled.spec.grows.cells a cell (Nat.lt_succ_of_lt below)
    ((Extends.begin labelled.new).cells a cell below found), fun member => ?_⟩
  exact Nat.lt_irrefl _ (labelled.good.slots a cell _ found member)

theorem env_self (labelled : Labelled opened before after n obj f) :
    after.env n = some (.ref before.heap.length) :=
  labelled.spec.grows.labels n _ (by rw [env_begin, if_pos rfl])

theorem env_old (labelled : Labelled opened before after n obj f) {m : Nat} {value : Obj}
    (found : before.env m = some value) : m ≠ n ∧ after.env m = some value := by
  refine ⟨?_, labelled.spec.grows.labels m value
    ((Extends.begin labelled.new).labels m value found)⟩
  rintro rfl
  simp [labelled.new] at found

theorem not_opened (labelled : Labelled opened before after n obj f) : n ∉ opened := by
  intro member
  obtain ⟨value, found⟩ := labelled.good.defined n member
  simp [labelled.new] at found

theorem env_ne (labelled : Labelled opened before after n obj f) {m : Nat} {value : Obj}
    (other : m ≠ n) (found : after.env m = some value) : value ≠ .ref before.heap.length := by
  rintro rfl
  have opens := (labelled.spec.good.opened_iff m _ found).mp labelled.placeholder
  obtain ⟨value, old⟩ := labelled.good.defined m ((List.mem_cons.mp opens).resolve_left other)
  obtain rfl : value = .ref before.heap.length :=
    Option.some.inj ((labelled.env_old old).2.symm.trans found)
  exact Nat.lt_irrefl _ (labelled.good.values m _ old)

theorem holds (labelled : Labelled opened before after n obj f) {a : Nat} {cell : Cell}
    (found : after.heap[a]? = some cell) (member : .ref before.heap.length ∈ cell.slots) :
    Reach after.heap obj a ∧ before.backrefs < after.backrefs := by
  rcases Nat.lt_trichotomy a before.heap.length with older | rfl | newer
  · have old := labelled.old_cell (List.getElem?_eq_getElem older)
    obtain rfl := Option.some.inj (old.1.symm.trans found)
    exact absurd member old.2
  · obtain rfl := Option.some.inj (labelled.cell.symm.trans found)
    simp [Cell.slots] at member
  · obtain ⟨⟨root, inRoots, reached⟩, m, opens, _, mentioned⟩ :=
      labelled.spec.held a cell _ (by rw [length_begin]; exact newer) found member
        labelled.placeholder
    obtain rfl : root = obj := by simpa using inRoots
    exact ⟨reached, labelled.spec.counted m opens mentioned⟩

theorem dead (labelled : Labelled opened before after n obj f) :
    ∀ cell : Cell, after.heap[before.heap.length]? = some cell → ∀ b, Obj.ref b ∉ cell.slots := by
  intro cell found b member
  obtain rfl := Option.some.inj (labelled.cell.symm.trans found)
  simp [Cell.slots] at member

theorem closeLabel_heap (labelled : Labelled opened before after n obj f)
    (whole : (closeLabel after n (.ref before.heap.length) obj before.backrefs).withinLimits) :
    (closeLabel after n (.ref before.heap.length) obj before.backrefs).heap =
      renamed (.ref before.heap.length) obj after.heap := by
  rw [closeLabel] at whole ⊢
  dsimp only at whole ⊢
  by_cases counted : before.backrefs < after.backrefs
  · rw [if_pos ⟨counted, labelled.obj_ne⟩] at whole ⊢
    refine readerPatchLabels_eq (by simp_all) ?_ ?_
    · rintro p cell same found
      obtain rfl : before.heap.length = p := by simpa using same
      exact labelled.dead cell found
    · intro a cell found member
      exact (labelled.holds found member).1
  · rw [if_neg fun both => counted both.1]
    refine (List.map_id' after.heap).symm.trans (List.map_congr_left fun cell member => ?_)
    obtain ⟨a, found⟩ := List.mem_iff_getElem?.mp member
    refine (Cell.mapSlots_eq_self fun slot inside => patchSlot_of_ne ?_).symm
    rintro rfl
    exact counted (labelled.holds found inside).2

structure Closed (before after : ReadState) (n : Nat) (obj : Obj) (closed : ReadState) :
    Prop where
  heap : closed.heap = renamed (.ref before.heap.length) obj after.heap
  labels : closed.labels = rebind after.labels n obj
  backrefs : closed.backrefs = after.backrefs

theorem closeLabel_closed (labelled : Labelled opened before after n obj f)
    (whole : (closeLabel after n (.ref before.heap.length) obj before.backrefs).withinLimits) :
    Closed before after n obj
      (closeLabel after n (.ref before.heap.length) obj before.backrefs) where
  heap := labelled.closeLabel_heap whole
  labels := by
    rw [closeLabel]
    dsimp only
    split <;> rfl
  backrefs := by
    rw [closeLabel]
    dsimp only
    split <;> rfl

theorem env_closed (labelled : Labelled opened before after n obj f)
    (shut : Closed before after n obj closed) (m : Nat) :
    closed.env m = if m = n then some obj else after.env m := by
  rw [ReadState.env, shut.labels, lookup_rebind]
  by_cases same : m = n
  · have found : after.labels.lookup n = some (.ref before.heap.length) := labelled.env_self
    rw [if_pos same, if_pos same, found]
    rfl
  · rw [if_neg same, if_neg same]
    rfl

theorem placeholder_closed (labelled : Labelled opened before after n obj f)
    (shut : Closed before after n obj closed) (slot : Obj) :
    isPlaceholder closed.heap slot = isPlaceholder after.heap slot := by
  rw [shut.heap, isPlaceholder_renamed labelled.bound]

theorem slot_closed (shut : Closed before after n obj closed) {a : Nat} {cell : Cell} {slot : Obj}
    (found : closed.heap[a]? = some cell) (member : slot ∈ cell.slots) :
    ∃ old : Cell, after.heap[a]? = some old ∧
      (slot = obj ∨ slot ∈ old.slots ∧ slot ≠ .ref before.heap.length) := by
  rw [shut.heap, getElem?_renamed] at found
  obtain ⟨old, here, rfl⟩ := Option.map_eq_some_iff.mp found
  rw [Cell.slots_mapSlots] at member
  obtain ⟨source, inside, rfl⟩ := List.mem_map.mp member
  refine ⟨old, here, ?_⟩
  by_cases same : source = .ref before.heap.length
  · exact Or.inl (by rw [same, patchSlot_self])
  · rw [patchSlot_of_ne same]
    exact Or.inr ⟨inside, same⟩

theorem extends_closed (labelled : Labelled opened before after n obj f)
    (shut : Closed before after n obj closed) :
    Extends before.heap.length before closed := by
  have kept : ∀ (a : Nat) (cell : Cell), before.heap[a]? = some cell →
      closed.heap[a]? = some cell := by
    intro a cell found
    obtain ⟨here, absent⟩ := labelled.old_cell found
    rw [shut.heap, getElem?_renamed, here, Option.map_some, Cell.mapSlots_eq_self]
    intro slot member
    refine patchSlot_of_ne ?_
    rintro rfl
    exact absent member
  refine
    { cells := fun a cell _ found => kept a cell found
      gained := fun a cell found => ⟨cell, kept a cell found, .refl cell⟩
      labels := ?_
      backrefs := ?_ }
  · intro m value found
    obtain ⟨other, later⟩ := labelled.env_old found
    rw [labelled.env_closed shut, if_neg other, later]
  · rw [shut.backrefs]
    exact labelled.spec.grows.backrefs

theorem good_closed (labelled : Labelled opened before after n obj f)
    (shut : Closed before after n obj closed) : Good opened closed where
  slots a cell b found member := by
    rw [shut.heap, length_renamed]
    obtain ⟨old, here, rfl | ⟨inside, _⟩⟩ := slot_closed shut found member
    · exact labelled.spec.inside b (List.mem_singleton_self _)
    · exact labelled.spec.good.slots a old b here inside
  values m b value := by
    rw [shut.heap, length_renamed]
    rw [labelled.env_closed shut] at value
    by_cases same : m = n
    · rw [if_pos same] at value
      obtain rfl := Option.some.inj value
      exact labelled.spec.inside b (List.mem_singleton_self _)
    · rw [if_neg same] at value
      exact labelled.spec.good.values m b value
  opened_iff m value found := by
    rw [labelled.placeholder_closed shut]
    rw [labelled.env_closed shut] at found
    by_cases same : m = n
    · rw [if_pos same] at found
      obtain rfl := Option.some.inj found
      simp [labelled.proper, same, labelled.not_opened]
    · rw [if_neg same] at found
      rw [labelled.spec.good.opened_iff m value found]
      simp [same]
  defined m member := by
    obtain ⟨value, found⟩ := labelled.good.defined m member
    exact ⟨value, (labelled.extends_closed shut).labels m value found⟩
  bound m := by
    rw [labelled.env_closed shut]
    by_cases same : m = n
    · rw [if_pos same]
      simpa using labelled.bound
    · rw [if_neg same]
      exact labelled.spec.good.bound m

theorem readSpec (labelled : Labelled opened before after n obj f)
    (shut : Closed before after n obj closed) :
    ReadSpec opened before.heap.length before f [obj] closed where
  grows := labelled.extends_closed shut
  good := labelled.good_closed shut
  inside b member := by
    rw [shut.heap, length_renamed]
    exact labelled.spec.inside b member
  owed root member placeholder := by
    obtain rfl : root = obj := by simpa using member
    rw [labelled.placeholder_closed shut] at placeholder
    simp [labelled.proper] at placeholder
  held c cell slot above found member placeholder := by
    rw [labelled.placeholder_closed shut] at placeholder
    obtain ⟨old, here, rfl | ⟨inside, differs⟩⟩ := slot_closed shut found member
    · simp [labelled.proper] at placeholder
    · have newer : before.heap.length ≠ c := by
        rintro rfl
        obtain rfl := Option.some.inj (labelled.cell.symm.trans here)
        rcases (by simpa [Cell.slots] using inside : slot = .unbound ∨ slot = .nil) with
          rfl | rfl <;> simp [isPlaceholder] at placeholder
      have later : (before.begin n).heap.length ≤ c := by
        rw [length_begin]
        exact Nat.lt_of_le_of_ne above newer
      obtain ⟨⟨root, inRoots, reached⟩, m, opens, value, mentioned⟩ :=
        labelled.spec.held c old slot later here inside placeholder
      refine ⟨⟨root, inRoots, ?_⟩, m, ?_, ?_, mentioned⟩
      · rw [shut.heap]
        exact reached.rename labelled.dead (Ne.symm newer)
      · refine (List.mem_cons.mp opens).resolve_left ?_
        rintro rfl
        exact differs (Option.some.inj (value.symm.trans labelled.env_self))
      · rw [labelled.env_closed shut, if_neg, value]
        rintro rfl
        exact differs (Option.some.inj (value.symm.trans labelled.env_self))
  counted m member mentioned := by
    rw [shut.backrefs]
    exact labelled.spec.counted m (List.mem_cons_of_mem _ member) mentioned

theorem carries (labelled : Labelled opened before after n obj f)
    (shut : Closed before after n obj closed) :
    Carries (patchSlot (.ref before.heap.length) obj) after.heap closed.heap after.env closed.env
      (before.heap.length + 1) before.heap.length where
  nil := rfl
  atom _ := rfl
  ref a cell above found _ := by
    refine ⟨patchSlot_of_ne ?_, ?_⟩
    · simp only [ne_eq, Obj.ref.injEq]
      omega
    · rw [shut.heap, getElem?_renamed, found]
      rfl
  labels m value found := by
    rw [labelled.env_closed shut]
    by_cases same : m = n
    · subst same
      obtain rfl := Option.some.inj (found.symm.trans labelled.env_self)
      rw [if_pos rfl, patchSlot_self]
    · rw [if_neg same, found, patchSlot_of_ne (labelled.env_ne same found)]
  bound := labelled.spec.good.bound
  lower := Nat.le_succ _

end Labelled

end Close

end ClAmiga.Labels
