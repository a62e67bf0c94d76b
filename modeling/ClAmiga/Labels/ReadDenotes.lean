import ClAmiga.Labels.ReadSteps

/-!
# Labels name the objects they label

On a plain text, when every walk stays within its limits, the object read is the graph
the text denotes, and no placeholder is left in it.
-/

namespace ClAmiga.Labels

/-- The object of a datum that is only a reference belongs to its label. -/
structure ExprSpec (opened : List Nat) (before : ReadState) (datum : Datum) (obj : Obj)
    (after : ReadState) : Prop where
  spec : ReadSpec opened before.heap.length before (fun m => datum.mentions m) [obj] after
  denotes : Denotes after.heap after.env before.heap.length datum obj
  bare : isPlaceholder after.heap obj = true → ∃ m ∈ opened, datum.bare = some m

/-- A list is read into the cdr of its last cons, the newest cell. -/
structure TailSpec (opened : List Nat) (tail : Nat) (car : Obj) (before : ReadState)
    (rest : Rest) (cdr : Obj) (after : ReadState) : Prop where
  spec : ReadSpec opened tail before (fun m => rest.mentions m) [cdr] after
  cell : after.heap[tail]? = some (.cons car cdr)
  denotes : DenotesRest after.heap after.env (tail + 1) rest cdr

structure ItemsSpec (opened : List Nat) (before : ReadState) (items : Items) (objs : List Obj)
    (after : ReadState) : Prop where
  spec : ReadSpec opened before.heap.length before (fun m => items.mentions m) objs after
  denotes : DenotesItems after.heap after.env before.heap.length items objs

section Parts

variable {opened : List Nat} {before mid after : ReadState} {datum : Datum} {obj : Obj}

theorem ExprSpec.ne_unbound (read : ExprSpec opened before datum obj after) : obj ≠ .unbound :=
  read.denotes.ne_unbound read.spec.good.bound

theorem ExprSpec.kept (read : ExprSpec opened before datum obj mid)
    (ext : Extends mid.heap.length mid after) :
    Denotes after.heap after.env before.heap.length datum obj := by
  refine Denotes.carry (Carries.of_extends read.spec.good ext ?_ (Nat.le_refl _)) datum obj
    read.denotes
  intro a cell _ found
  exact ext.cells a cell (List.getElem?_eq_some_iff.mp found).1 found

theorem ItemsSpec.kept {items : Items} {objs : List Obj}
    (read : ItemsSpec opened before items objs mid) (ext : Extends mid.heap.length mid after) :
    DenotesItems after.heap after.env before.heap.length items objs := by
  have carried := DenotesItems.carry (f := id) (Carries.of_extends read.spec.good ext
      (fun a cell _ found => ext.cells a cell (List.getElem?_eq_some_iff.mp found).1 found)
      (Nat.le_refl before.heap.length)) items objs read.denotes
  rwa [List.map_id] at carried

theorem ExprSpec.cons (read : ExprSpec opened before datum obj mid) :
    ReadSpec opened before.heap.length before (fun m => datum.mentions m)
      [.ref mid.heap.length] (mid.alloc (.cons obj .nil)).2 := by
  refine read.spec.alloc read.spec.grows.length_le (.cons obj .nil) ?_ ?_ (Or.inl ⟨rfl, ?_⟩)
  · simpa [Cell.isPlaceholder] using read.ne_unbound
  · simp [Cell.slots]
  · simp [Cell.slots]

theorem not_placeholder_alloc (state : ReadState) (cell : Cell)
    (proper : cell.isPlaceholder = false) :
    isPlaceholder (state.alloc cell).2.heap (.ref state.heap.length) = false := by
  rw [Bool.eq_false_iff]
  intro placeholder
  obtain ⟨found, here, kind⟩ := isPlaceholder_ref.mp placeholder
  obtain rfl := Option.some.inj ((getElem?_alloc_new state cell).symm.trans here)
  simp [proper] at kind

theorem ExprSpec.list {first : Datum} {rest : Rest} {elem cdr : Obj}
    (car : ExprSpec opened before first elem mid)
    (others : TailSpec opened mid.heap.length elem (mid.alloc (.cons elem .nil)).2 rest cdr after) :
    ExprSpec opened before (.list first rest) (.ref mid.heap.length) after := by
  have found := getElem?_alloc_new mid (.cons elem .nil)
  have ext := (Extends.alloc mid (.cons elem .nil)).trans others.spec.grows (Nat.le_refl _)
  have proper : (Cell.cons elem .nil).isPlaceholder = false := by
    simpa [Cell.isPlaceholder] using car.ne_unbound
  have joined := car.cons.chain car.spec.grows.length_le found (length_alloc mid _) others.spec
    others.cell
  have below : before.heap.length ≤ mid.heap.length := car.spec.grows.length_le
  refine ⟨?_, ?_, ?_⟩
  · simpa only [Datum.mentions] using joined
  · rw [Denotes]
    refine ⟨mid.heap.length, elem, cdr, rfl, below, others.cell, car.kept ext, ?_⟩
    refine DenotesRest.carry (Carries.of_extends others.spec.good (.refl 0 after)
      (fun _ _ _ here => here) ?_) rest cdr others.denotes
    exact Nat.le_succ_of_le below
  · intro placeholder
    have inside : ∀ b, Obj.ref mid.heap.length = .ref b →
        b < (mid.alloc (.cons elem .nil)).2.heap.length := by
      rintro b ⟨⟩
      rw [length_alloc]
      exact Nat.lt_succ_self _
    rw [others.spec.grows.isPlaceholder inside, not_placeholder_alloc mid _ proper] at placeholder
    cases placeholder

theorem ItemsSpec.vector {elements : Items} {data : List Obj}
    (items : ItemsSpec opened before elements data mid) :
    ExprSpec opened before (.vector elements) (.ref mid.heap.length)
      (mid.alloc (.vector data)).2 := by
  refine ⟨?_, ?_, ?_⟩
  · have stored := items.spec.alloc items.spec.grows.length_le (.vector data) rfl
      (fun _ member => Or.inl member) (Or.inl ⟨rfl, fun _ member => member⟩)
    simpa only [Datum.mentions] using stored
  · rw [Denotes]
    exact ⟨mid.heap.length, data, rfl, items.spec.grows.length_le, getElem?_alloc_new mid _,
      items.kept (.alloc mid _)⟩
  · simp [not_placeholder_alloc mid (.vector data) rfl]

theorem ItemsSpec.struct {arguments : Items} {slots : List Obj}
    (items : ItemsSpec opened before arguments slots mid)
    (silent : ∀ m ∈ opened, arguments.mentions m = false) :
    ExprSpec opened before (.struct arguments) (.ref mid.heap.length)
      (mid.alloc (.struct slots)).2 := by
  refine ⟨?_, ?_, ?_⟩
  · have stored := items.spec.alloc items.spec.grows.length_le (.struct slots) rfl
      (fun _ member => Or.inl member) (Or.inr silent)
    simpa only [Datum.mentions] using stored
  · rw [Denotes]
    exact ⟨mid.heap.length, slots, rfl, items.spec.grows.length_le, getElem?_alloc_new mid _,
      items.kept (.alloc mid _)⟩
  · simp [not_placeholder_alloc mid (.struct slots) rfl]

theorem ExprSpec.label {n : Nat} (good : Good opened before) (new : before.env n = none)
    (inner : ExprSpec (n :: opened) (before.begin n) datum obj mid)
    (proper : ∀ m ∈ n :: opened, datum.bare ≠ some m)
    (whole : (closeLabel mid n (.ref before.heap.length) obj before.backrefs).withinLimits) :
    ExprSpec opened before (.label n datum) obj
      (closeLabel mid n (.ref before.heap.length) obj before.backrefs) := by
  have real : isPlaceholder mid.heap obj = false := by
    rw [Bool.eq_false_iff]
    intro placeholder
    obtain ⟨m, opens, bare⟩ := inner.bare placeholder
    exact proper m opens bare
  have spec := inner.spec
  rw [length_begin] at spec
  have labelled : Labelled opened before mid n obj (fun m => datum.mentions m) :=
    ⟨good, new, spec, real, inner.ne_unbound⟩
  have shut := labelled.closeLabel_closed whole
  refine ⟨?_, ?_, ?_⟩
  · simpa only [Datum.mentions] using labelled.readSpec shut
  · have denotes := inner.denotes
    rw [length_begin] at denotes
    have carried := Denotes.carry (labelled.carries shut) datum obj denotes
    rw [patchSlot_of_ne labelled.obj_ne] at carried
    rw [Denotes]
    exact ⟨by rw [labelled.env_closed shut, if_pos rfl], carried⟩
  · rw [labelled.placeholder_closed shut, real]
    simp

theorem ExprSpec.dot {tail : Nat} {car : Obj} (read : ExprSpec opened before datum obj mid)
    (length : before.heap.length = tail + 1)
    (found : before.heap[tail]? = some (.cons car .nil)) :
    TailSpec opened tail car before (.dot datum) obj (mid.link tail obj) := by
  have below : tail < before.heap.length := by omega
  have here := read.spec.grows.cells tail _ below found
  have linked := read.spec.link here below (Nat.le_of_lt below) (List.mem_singleton_self _)
  refine ⟨?_, getElem?_link_self here obj, ?_⟩
  · simpa only [Rest.mentions] using linked
  · have denotes := read.denotes
    rw [length] at denotes
    rw [DenotesRest]
    refine Denotes.carry (Carries.of_extends read.spec.good (.link here obj) ?_ (Nat.le_refl _))
      datum obj denotes
    intro a cell above old
    rw [getElem?_link here obj (by omega), old]

theorem ExprSpec.more {rest : Rest} {tail : Nat} {car cdr : Obj}
    (read : ExprSpec opened before datum obj mid) (length : before.heap.length = tail + 1)
    (found : before.heap[tail]? = some (.cons car .nil))
    (others : TailSpec opened mid.heap.length obj
      ((mid.alloc (.cons obj .nil)).2.link tail (.ref mid.heap.length)) rest cdr after) :
    TailSpec opened tail car before (.more datum rest) (.ref mid.heap.length) after := by
  have below : tail < before.heap.length := by omega
  have grown := read.spec.grows.length_le
  have here : (mid.alloc (.cons obj .nil)).2.heap[tail]? = some (.cons car .nil) :=
    read.cons.grows.cells tail _ below found
  have linked := read.cons.link here below (Nat.le_of_lt below) (List.mem_singleton_self _)
  have last : ((mid.alloc (.cons obj .nil)).2.link tail (.ref mid.heap.length)).heap[
      mid.heap.length]? = some (.cons obj .nil) := by
    rw [getElem?_link here _ (by omega), getElem?_alloc_new]
  have chained := linked.chain (by omega) last
    (by rw [length_link here, length_alloc]) others.spec others.cell
  have kept : ∀ (a : Nat) (cell : Cell), tail + 1 ≤ a → mid.heap[a]? = some cell →
      after.heap[a]? = some cell := by
    intro a cell above old
    refine others.spec.grows.cells a cell (List.getElem?_eq_some_iff.mp old).1 ?_
    rw [getElem?_link here _ (by omega), getElem?_alloc old]
  have ext : Extends tail mid after :=
    ((Extends.alloc mid _).weaken (by omega)).trans
      ((Extends.link here _).trans others.spec.grows (by omega)) (Nat.le_refl _)
  refine ⟨?_, ?_, ?_⟩
  · simpa only [Rest.mentions] using chained
  · exact others.spec.grows.cells tail _ (by omega) (getElem?_link_self here _)
  · have denotes := read.denotes
    rw [length] at denotes
    rw [DenotesRest]
    refine ⟨mid.heap.length, obj, cdr, rfl, by omega, others.cell, ?_, ?_⟩
    · exact Denotes.carry (Carries.of_extends read.spec.good ext kept (Nat.le_refl _)) datum obj
        denotes
    · exact DenotesRest.carry (Carries.of_extends others.spec.good (.refl 0 after)
        (fun _ _ _ same => same) (by omega)) rest cdr others.denotes

theorem ExprSpec.items {items : Items} {objs : List Obj}
    (read : ExprSpec opened before datum obj mid) (others : ItemsSpec opened mid items objs after) :
    ItemsSpec opened before (.more datum items) (obj :: objs) after := by
  refine ⟨?_, ?_⟩
  · have joined := read.spec.append others.spec read.spec.grows.length_le
    simpa only [Items.mentions, List.cons_append, List.nil_append] using joined
  · rw [DenotesItems]
    refine ⟨obj, objs, rfl, read.kept others.spec.grows, ?_⟩
    have lowered := DenotesItems.carry (f := id) (Carries.of_extends others.spec.good
      (.refl 0 after) (fun _ _ _ same => same) read.spec.grows.length_le) items objs others.denotes
    rwa [List.map_id] at lowered

end Parts

mutual

/-- A datum read within the limits denotes what its text says. -/
theorem readExpr_spec : ∀ (datum : Datum) {opened : List Nat} {before after : ReadState}
    {obj : Obj}, readExpr datum before = some (obj, after) → after.withinLimits = true →
      Good opened before → datum.plain opened = true → ExprSpec opened before datum obj after
  | .nil, opened, before, after, obj, read, _, good, _ => by
      obtain ⟨rfl, rfl⟩ := (by simpa [readExpr] using read : .nil = obj ∧ before = after)
      exact
        { spec := .unchanged good rfl rfl (Nat.le_refl _) (by simp) (by simp [isPlaceholder])
            (by simp [Datum.mentions])
          denotes := by rw [Denotes]
          bare := by simp [isPlaceholder] }
  | .atom value, opened, before, after, obj, read, _, good, _ => by
      obtain ⟨rfl, rfl⟩ := (by simpa [readExpr] using read : .atom value = obj ∧ before = after)
      exact
        { spec := .unchanged good rfl rfl (Nat.le_refl _) (by simp) (by simp [isPlaceholder])
            (by simp [Datum.mentions])
          denotes := by rw [Denotes]
          bare := by simp [isPlaceholder] }
  | .list first rest, opened, before, after, obj, read, whole, good, plain => by
      obtain ⟨plainFirst, plainRest⟩ := (by simpa [Datum.plain] using plain :
        first.plain opened = true ∧ rest.plain opened = true)
      obtain ⟨elem, mid, readFirst, rfl, readOthers⟩ := readExpr_list read
      have allocated := readRest_withinLimits rest readOthers whole
      have car := readExpr_spec first readFirst allocated good plainFirst
      obtain ⟨cdr, others⟩ := readRest_spec rest readOthers whole car.cons.good plainRest
        (length_alloc mid _) (getElem?_alloc_new mid _)
      exact car.list others
  | .vector elements, opened, before, after, obj, read, whole, good, plain => by
      obtain ⟨data, mid, items, rfl, rfl⟩ := readExpr_vector read
      exact (readItems_spec elements items whole good (by simpa [Datum.plain] using plain)).vector
  | .struct arguments, opened, before, after, obj, read, whole, good, plain => by
      obtain ⟨plainItems, silent⟩ := (by simpa [Datum.plain] using plain :
        arguments.plain opened = true ∧ ∀ m ∈ opened, arguments.mentions m = false)
      obtain ⟨slots, mid, items, rfl, rfl⟩ := readExpr_struct read
      exact (readItems_spec arguments items whole good plainItems).struct silent
  | .label n datum, opened, before, after, obj, read, whole, good, plain => by
      obtain ⟨new, mid, inner, rfl⟩ := readExpr_label read
      rw [Datum.plain, Bool.and_eq_true_iff] at plain
      refine (readExpr_spec datum inner (closeLabel_withinLimits whole) (good.begin new)
        plain.1).label good new ?_ whole
      simpa using plain.2
  | .reference n, opened, before, after, obj, read, _, good, _ => by
      obtain ⟨value, heap, labels, _, backrefs⟩ := readExpr_reference read
      have opens := good.opened_iff n obj value
      have env : after.env = before.env := by
        funext m
        rw [ReadState.env, labels, ReadState.env]
      have owes : isPlaceholder after.heap obj = true →
          Owes opened after (fun m => (Datum.reference n).mentions m) obj := by
        intro placeholder
        rw [heap] at placeholder
        exact ⟨n, opens.mp placeholder, env ▸ value, by simp [Datum.mentions]⟩
      have afterGood : Good opened after :=
        { slots := by rw [heap]; exact good.slots
          values := by rw [heap, env]; exact good.values
          opened_iff := by rw [heap, env]; exact good.opened_iff
          defined := by rw [env]; exact good.defined
          bound := by rw [env]; exact good.bound }
      refine ⟨.unchanged afterGood heap labels ?_ ?_ (by simpa using owes) ?_, ?_, ?_⟩
      · rw [backrefs]
        split <;> omega
      · intro b member
        obtain rfl : .ref b = obj := by simpa using member
        exact afterGood.values n b (env ▸ value)
      · intro m member mentioned
        obtain rfl : n = m := by simpa [Datum.mentions] using mentioned
        rw [backrefs, if_pos (opens.mpr member)]
        exact Nat.lt_succ_self _
      · rw [Denotes, env, value]
      · intro placeholder
        rw [heap] at placeholder
        exact ⟨n, opens.mp placeholder, rfl⟩

/-- The rest of a list is linked behind its last cons. -/
theorem readRest_spec : ∀ (rest : Rest) {opened : List Nat} {tail : Nat} {car : Obj}
    {before after : ReadState}, readRest rest tail before = some after →
      after.withinLimits = true → Good opened before → rest.plain opened = true →
      before.heap.length = tail + 1 → before.heap[tail]? = some (.cons car .nil) →
      ∃ cdr, TailSpec opened tail car before rest cdr after
  | .close, opened, tail, car, before, after, read, _, good, _, _, found => by
      obtain rfl := (by simpa [readRest] using read : before = after)
      exact ⟨.nil,
        { spec := .unchanged good rfl rfl (Nat.le_refl _) (by simp) (by simp [isPlaceholder])
            (by simp [Rest.mentions])
          cell := found
          denotes := by rw [DenotesRest] }⟩
  | .dot datum, opened, tail, car, before, after, read, whole, good, plain, length, found => by
      obtain ⟨elem, mid, inner, rfl⟩ := readRest_dot read
      exact ⟨elem, (readExpr_spec datum inner whole good
        (by simpa [Rest.plain] using plain)).dot length found⟩
  | .more datum rest, opened, tail, car, before, after, read, whole, good, plain, length,
      found => by
      obtain ⟨plainFirst, plainRest⟩ := (by simpa [Rest.plain] using plain :
        datum.plain opened = true ∧ rest.plain opened = true)
      obtain ⟨elem, mid, inner, others⟩ := readRest_more read
      have linkedWhole := readRest_withinLimits rest others whole
      have elemSpec := readExpr_spec datum inner linkedWhole good plainFirst
      have below : tail < before.heap.length := by omega
      have here := elemSpec.cons.grows.cells tail _ below found
      have linked := elemSpec.cons.link here below (Nat.le_of_lt below) (List.mem_singleton_self _)
      obtain ⟨cdr, tailSpec⟩ := readRest_spec rest others whole linked.good plainRest
        (by rw [length_link here, length_alloc])
        (by
          have grown := elemSpec.spec.grows.length_le
          rw [getElem?_link here _ (by omega), getElem?_alloc_new])
      exact ⟨_, elemSpec.more length found tailSpec⟩

/-- The elements of a vector or the arguments of a structure. -/
theorem readItems_spec : ∀ (items : Items) {opened : List Nat} {before after : ReadState}
    {objs : List Obj}, readItems items before = some (objs, after) → after.withinLimits = true →
      Good opened before → items.plain opened = true → ItemsSpec opened before items objs after
  | .none, opened, before, after, objs, read, _, good, _ => by
      obtain ⟨rfl, rfl⟩ := (by simpa [readItems] using read : [] = objs ∧ before = after)
      exact
        { spec := .unchanged good rfl rfl (Nat.le_refl _) (by simp) (by simp)
            (by simp [Items.mentions])
          denotes := by rw [DenotesItems] }
  | .more datum items, opened, before, after, objs, read, whole, good, plain => by
      obtain ⟨plainFirst, plainOthers⟩ := (by simpa [Items.plain] using plain :
        datum.plain opened = true ∧ items.plain opened = true)
      obtain ⟨elem, mid, elems, inner, others, rfl⟩ := readItems_more read
      have first := readExpr_spec datum inner (readItems_withinLimits items others whole) good
        plainFirst
      exact first.items (readItems_spec items others whole first.spec.good plainOthers)

end

inductive Below (heap : Heap) (root : Obj) : Obj → Prop where
  | root : Below heap root root
  | slot {a : Nat} {cell : Cell} {obj : Obj} (reached : Below heap root (.ref a))
      (found : heap[a]? = some cell) (member : obj ∈ cell.slots) : Below heap root obj

/-- The text is read as the graph it denotes, without a placeholder. -/
def Resolved (text : Datum) : Prop :=
  ∃ obj state, clRead text = some (obj, state) ∧ Denotes state.heap state.env 0 text obj ∧
    ∀ below, Below state.heap obj below → isPlaceholder state.heap below = false

theorem good_nil : Good [] ⟨[], [], 0, true⟩ where
  slots _ _ _ found := by simp at found
  values _ _ value := by cases value
  opened_iff _ _ value := by cases value
  defined _ member := by cases member
  bound _ value := by cases value

/-- A plain text in scope, read within the limits, gives the graph it denotes. -/
theorem clRead_resolved (text : Datum) (inScope : (text.scoped []).isSome = true)
    (plain : text.plain [] = true)
    (whole : ∀ obj state, clRead text = some (obj, state) → state.withinLimits = true) :
    Resolved text := by
  have defined := readExpr_defined text ⟨[], [], 0, true⟩
  rw [show ReadState.defined ⟨[], [], 0, true⟩ = [] from rfl] at defined
  cases read : readExpr text ⟨[], [], 0, true⟩ with
  | none =>
      rw [read, Option.map_none] at defined
      simp [← defined] at inScope
  | some result =>
      obtain ⟨obj, state⟩ := result
      have made := readExpr_spec text read (whole obj state read) good_nil plain
      refine ⟨obj, state, read, made.denotes, fun below reached => ?_⟩
      rw [Bool.eq_false_iff]
      intro placeholder
      cases reached with
      | root =>
          obtain ⟨m, opens, _⟩ := made.bare placeholder
          cases opens
      | slot _ found member =>
          obtain ⟨_, m, opens, _⟩ :=
            made.spec.held _ _ below (Nat.zero_le _) found member placeholder
          cases opens

/-- `#1=(0 . #1#)`. -/
theorem clRead_circular : Resolved (.label 1 (.list (.atom 0) (.dot (.reference 1)))) := by
  refine clRead_resolved _ (by decide) (by decide) ?_
  intro obj state read
  rw [show clRead (.label 1 (.list (.atom 0) (.dot (.reference 1)))) = some (.ref 1,
    ⟨[.cons .unbound .nil, .cons (.atom 0) (.ref 1)], [(1, .ref 1)], 1, true⟩) by decide] at read
  cases read
  rfl

def follow (heap : Heap) : Obj → List Nat → Option Obj
  | obj, [] => some obj
  | .ref a, i :: path =>
      match (heap[a]?).bind fun cell => cell.slots[i]? with
      | some slot => follow heap slot path
      | none => none
  | _, _ :: _ => none

theorem Below.of_follow {heap : Heap} {root obj : Obj} (path : List Nat) {start : Obj}
    (reached : Below heap root start) (found : follow heap start path = some obj) :
    Below heap root obj := by
  induction path generalizing start with
  | nil =>
      obtain rfl : start = obj := by simpa [follow] using found
      exact reached
  | cons i path induction =>
      cases start with
      | ref a =>
          rw [follow] at found
          cases step : (heap[a]?).bind fun cell => cell.slots[i]? with
          | none => simp [step] at found
          | some slot =>
              obtain ⟨cell, here, member⟩ := Option.bind_eq_some_iff.mp step
              simp only [step] at found
              exact induction (.slot reached here (List.mem_of_getElem? member)) found
      | _ => simp [follow] at found

theorem not_resolved {text : Datum} (path : List Nat)
    (leads : ((clRead text).bind fun result => (follow result.2.heap result.1 path).map
      (isPlaceholder result.2.heap)) = some true) : ¬ Resolved text := by
  rintro ⟨obj, state, read, _, clean⟩
  rw [read, Option.bind_some] at leads
  obtain ⟨below, found, placeholder⟩ := Option.map_eq_some_iff.mp leads
  simp [clean below (.of_follow path .root found)] at placeholder

/-- So many references to label 2 before `(#1#)`. -/
def copies : Nat → Items
  | 0 => .more (.list (.reference 1) .close) .none
  | count + 1 => .more (.reference 2) (copies count)

/-- `#1=#(#2=(0) #2# … #2# (#1#))` with 255 references to label 2, whose last element finds
the stack of the walk full, `#1=#S(… #1#)`, and `(#1=(0 #2=#1#) #2#)`. -/
theorem unresolved_texts :
    ((Datum.label 1 (.vector (.more (.label 2 (.list (.atom 0) .close)) (copies 255)))).scoped
        []).isSome = true ∧
      ¬ Resolved (.label 1 (.vector (.more (.label 2 (.list (.atom 0) .close)) (copies 255)))) ∧
    ((Datum.label 1 (.struct (.more (.reference 1) .none))).scoped []).isSome = true ∧
      ¬ Resolved (.label 1 (.struct (.more (.reference 1) .none))) ∧
    ((Datum.list (.label 1 (.list (.atom 0) (.more (.label 2 (.reference 1)) .close)))
        (.more (.reference 2) .close)).scoped []).isSome = true ∧
      ¬ Resolved (.list (.label 1 (.list (.atom 0) (.more (.label 2 (.reference 1)) .close)))
        (.more (.reference 2) .close)) := by
  exact ⟨by decide +kernel, not_resolved [256, 0] (by decide +kernel),
    by decide, not_resolved [0] (by decide), by decide, not_resolved [1, 0] (by decide)⟩

end ClAmiga.Labels
