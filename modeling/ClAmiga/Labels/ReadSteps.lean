import ClAmiga.Labels.Close

/-!
# Steps of a read

What each kind of text is read as, that a read within the limits of the walk was within
them before, and that a read succeeds on the texts whose labels are new and whose
references are inside or behind the datum of their label.
-/

namespace ClAmiga.Labels

section Steps

attribute [local simp] readExpr readRest readItems

variable {before after : ReadState}

theorem readExpr_list {first : Datum} {rest : Rest} {obj : Obj}
    (read : readExpr (.list first rest) before = some (obj, after)) :
    ∃ elem mid, readExpr first before = some (elem, mid) ∧ obj = .ref mid.heap.length ∧
      readRest rest mid.heap.length (mid.alloc (.cons elem .nil)).2 = some after := by
  rw [readExpr] at read
  cases car : readExpr first before with
  | none => simp [car] at read
  | some result =>
      obtain ⟨elem, mid⟩ := result
      simp only [car] at read
      cases cdr : readRest rest mid.heap.length (mid.alloc (.cons elem .nil)).2 with
      | none => simp [cdr] at read
      | some last =>
          simp only [cdr, Option.some.injEq, Prod.mk.injEq] at read
          obtain ⟨rfl, rfl⟩ := read
          exact ⟨elem, mid, rfl, rfl, cdr⟩

theorem readExpr_vector {elements : Items} {obj : Obj}
    (read : readExpr (.vector elements) before = some (obj, after)) :
    ∃ data mid, readItems elements before = some (data, mid) ∧ obj = .ref mid.heap.length ∧
      after = (mid.alloc (.vector data)).2 := by
  rw [readExpr] at read
  cases items : readItems elements before with
  | none => simp [items] at read
  | some result =>
      obtain ⟨data, mid⟩ := result
      simp only [items, Option.some.injEq] at read
      exact ⟨data, mid, rfl, (congrArg Prod.fst read).symm, (congrArg Prod.snd read).symm⟩

theorem readExpr_struct {arguments : Items} {obj : Obj}
    (read : readExpr (.struct arguments) before = some (obj, after)) :
    ∃ slots mid, readItems arguments before = some (slots, mid) ∧ obj = .ref mid.heap.length ∧
      after = (mid.alloc (.struct slots)).2 := by
  rw [readExpr] at read
  cases items : readItems arguments before with
  | none => simp [items] at read
  | some result =>
      obtain ⟨slots, mid⟩ := result
      simp only [items, Option.some.injEq] at read
      exact ⟨slots, mid, rfl, (congrArg Prod.fst read).symm, (congrArg Prod.snd read).symm⟩

theorem readExpr_label {n : Nat} {datum : Datum} {obj : Obj}
    (read : readExpr (.label n datum) before = some (obj, after)) :
    before.env n = none ∧ ∃ mid, readExpr datum (before.begin n) = some (obj, mid) ∧
      after = closeLabel mid n (.ref before.heap.length) obj before.backrefs := by
  rw [readExpr] at read
  split at read
  · cases read
  · next new =>
      refine ⟨by rwa [Option.not_isSome_iff_eq_none] at new, ?_⟩
      dsimp only at read
      split at read
      · cases read
      · next value mid inner =>
          obtain ⟨rfl, rfl⟩ := Prod.mk.inj (Option.some.inj read)
          exact ⟨mid, inner, rfl⟩

theorem readExpr_reference {n : Nat} {obj : Obj}
    (read : readExpr (.reference n) before = some (obj, after)) :
    before.env n = some obj ∧ after.heap = before.heap ∧ after.labels = before.labels ∧
      after.withinLimits = before.withinLimits ∧
      after.backrefs = if isPlaceholder before.heap obj then before.backrefs + 1
        else before.backrefs := by
  rw [readExpr] at read
  cases value : before.labels.lookup n with
  | none => simp [value] at read
  | some found =>
      simp only [value, Option.some.injEq, Prod.mk.injEq] at read
      obtain ⟨rfl, rfl⟩ := read
      refine ⟨value, ?_, ?_, ?_, ?_⟩ <;> split <;> rfl

theorem readRest_dot {datum : Datum} {tail : Nat}
    (read : readRest (.dot datum) tail before = some after) :
    ∃ elem mid, readExpr datum before = some (elem, mid) ∧ after = mid.link tail elem := by
  rw [readRest] at read
  cases inner : readExpr datum before with
  | none => simp [inner] at read
  | some result =>
      obtain ⟨elem, mid⟩ := result
      simp only [inner, Option.some.injEq] at read
      exact ⟨elem, mid, rfl, read.symm⟩

theorem readRest_more {datum : Datum} {rest : Rest} {tail : Nat}
    (read : readRest (.more datum rest) tail before = some after) :
    ∃ elem mid, readExpr datum before = some (elem, mid) ∧ readRest rest mid.heap.length
        ((mid.alloc (.cons elem .nil)).2.link tail (.ref mid.heap.length)) = some after := by
  rw [readRest] at read
  cases inner : readExpr datum before with
  | none => simp [inner] at read
  | some result =>
      obtain ⟨elem, mid⟩ := result
      simp only [inner] at read
      exact ⟨elem, mid, rfl, read⟩

theorem readItems_more {datum : Datum} {items : Items}
    {objs : List Obj} (read : readItems (.more datum items) before = some (objs, after)) :
    ∃ elem mid elems, readExpr datum before = some (elem, mid) ∧
      readItems items mid = some (elems, after) ∧ objs = elem :: elems := by
  rw [readItems] at read
  cases inner : readExpr datum before with
  | none => simp [inner] at read
  | some result =>
      obtain ⟨elem, mid⟩ := result
      simp only [inner] at read
      cases others : readItems items mid with
      | none => simp [others] at read
      | some result =>
          obtain ⟨elems, last⟩ := result
          simp only [others, Option.some.injEq, Prod.mk.injEq] at read
          obtain ⟨rfl, rfl⟩ := read
          exact ⟨elem, mid, elems, rfl, others, rfl⟩

end Steps

theorem closeLabel_withinLimits {state : ReadState} {n : Nat} {placeholder obj : Obj}
    {backrefs : Nat}
    (whole : (closeLabel state n placeholder obj backrefs).withinLimits = true) :
    state.withinLimits = true := by
  rw [closeLabel] at whole
  dsimp only at whole
  split at whole
  · exact (Bool.and_eq_true_iff.mp whole).1
  · exact whole

mutual

theorem readExpr_withinLimits : ∀ (datum : Datum) {before after : ReadState} {obj : Obj},
    readExpr datum before = some (obj, after) → after.withinLimits = true →
      before.withinLimits = true
  | .nil, _, _, _, read, whole => by
      obtain ⟨_, rfl⟩ := (by simpa [readExpr] using read : _ ∧ _)
      exact whole
  | .atom _, _, _, _, read, whole => by
      obtain ⟨_, rfl⟩ := (by simpa [readExpr] using read : _ ∧ _)
      exact whole
  | .list first rest, _, _, _, read, whole => by
      obtain ⟨elem, mid, readFirst, _, readOthers⟩ := readExpr_list read
      have allocated := readRest_withinLimits rest readOthers whole
      exact readExpr_withinLimits first readFirst allocated
  | .vector elements, _, _, _, read, whole => by
      obtain ⟨data, mid, items, _, rfl⟩ := readExpr_vector read
      exact readItems_withinLimits elements items whole
  | .struct arguments, _, _, _, read, whole => by
      obtain ⟨slots, mid, items, _, rfl⟩ := readExpr_struct read
      exact readItems_withinLimits arguments items whole
  | .label n datum, before, _, _, read, whole => by
      obtain ⟨_, mid, inner, rfl⟩ := readExpr_label read
      have begun : (before.begin n).withinLimits = true :=
        readExpr_withinLimits datum inner (closeLabel_withinLimits whole)
      exact begun
  | .reference _, _, _, _, read, whole => by
      obtain ⟨_, _, _, same, _⟩ := readExpr_reference read
      rw [← same, whole]

theorem readRest_withinLimits : ∀ (rest : Rest) {tail : Nat} {before after : ReadState},
    readRest rest tail before = some after → after.withinLimits = true → before.withinLimits = true
  | .close, _, _, _, read, whole => by
      obtain rfl := (by simpa [readRest] using read : _ = _)
      exact whole
  | .dot datum, _, _, _, read, whole => by
      obtain ⟨elem, mid, inner, rfl⟩ := readRest_dot read
      exact readExpr_withinLimits datum inner whole
  | .more datum rest, _, _, _, read, whole => by
      obtain ⟨elem, mid, inner, others⟩ := readRest_more read
      have linked := readRest_withinLimits rest others whole
      exact readExpr_withinLimits datum inner linked

theorem readItems_withinLimits : ∀ (items : Items) {before after : ReadState} {objs : List Obj},
    readItems items before = some (objs, after) → after.withinLimits = true →
      before.withinLimits = true
  | .none, _, _, _, read, whole => by
      obtain ⟨_, rfl⟩ := (by simpa [readItems] using read : _ ∧ _)
      exact whole
  | .more datum items, _, _, _, read, whole => by
      obtain ⟨elem, mid, elems, inner, others, _⟩ := readItems_more read
      exact readExpr_withinLimits datum inner (readItems_withinLimits items others whole)

end

mutual

/-- The labels defined when the text is read behind others, and `none` when a label is
defined again or referred to before it is. -/
def Datum.scoped (defined : List Nat) : Datum → Option (List Nat)
  | .nil => some defined
  | .atom _ => some defined
  | .list first rest => (first.scoped defined).bind rest.scoped
  | .vector elements => elements.scoped defined
  | .struct arguments => arguments.scoped defined
  | .label n datum => if n ∈ defined then none else datum.scoped (n :: defined)
  | .reference n => if n ∈ defined then some defined else none

def Rest.scoped (defined : List Nat) : Rest → Option (List Nat)
  | .close => some defined
  | .dot datum => datum.scoped defined
  | .more datum rest => (datum.scoped defined).bind rest.scoped

def Items.scoped (defined : List Nat) : Items → Option (List Nat)
  | .none => some defined
  | .more datum items => (datum.scoped defined).bind items.scoped

end

def ReadState.defined (state : ReadState) : List Nat :=
  state.labels.map Prod.fst

theorem isSome_lookup (labels : List (Nat × Obj)) (n : Nat) :
    (labels.lookup n).isSome = true ↔ n ∈ labels.map Prod.fst := by
  induction labels with
  | nil => simp
  | cons entry labels induction =>
      obtain ⟨key, value⟩ := entry
      rw [List.lookup_cons, List.map_cons, List.mem_cons]
      by_cases same : n = key
      · simp [same]
      · have differs : (n == key) = false := by simpa using same
        simp only [differs, same, false_or]
        exact induction

theorem mem_defined (state : ReadState) (n : Nat) :
    n ∈ state.defined ↔ (state.labels.lookup n).isSome = true :=
  (isSome_lookup state.labels n).symm

theorem defined_closeLabel (state : ReadState) (n : Nat) (placeholder obj : Obj) (backrefs : Nat) :
    (closeLabel state n placeholder obj backrefs).defined = state.defined := by
  have keys : (rebind state.labels n obj).map Prod.fst = state.labels.map Prod.fst := by
    rw [rebind, List.map_map]
    refine List.map_congr_left fun entry _ => ?_
    rw [Function.comp_apply]
    split <;> rfl
  rw [closeLabel]
  dsimp only
  split <;> exact keys

mutual

theorem readExpr_defined : ∀ (datum : Datum) (state : ReadState),
    (readExpr datum state).map (fun result => result.2.defined) = datum.scoped state.defined
  | .nil, state => by rw [readExpr, Datum.scoped]; rfl
  | .atom _, state => by rw [readExpr, Datum.scoped]; rfl
  | .list first rest, state => by
      rw [readExpr, Datum.scoped, ← readExpr_defined first state]
      cases readExpr first state with
      | none => rfl
      | some result =>
          obtain ⟨elem, mid⟩ := result
          have others := readRest_defined rest mid.heap.length (mid.alloc (.cons elem .nil)).2
          simp only [Option.map_some, Option.bind_some]
          rw [show mid.defined = (mid.alloc (.cons elem .nil)).2.defined from rfl, ← others]
          cases readRest rest mid.heap.length (mid.alloc (.cons elem .nil)).2 <;> rfl
  | .vector elements, state => by
      rw [readExpr, Datum.scoped, ← readItems_defined elements state]
      cases readItems elements state <;> rfl
  | .struct arguments, state => by
      rw [readExpr, Datum.scoped, ← readItems_defined arguments state]
      cases readItems arguments state <;> rfl
  | .label n datum, state => by
      rw [readExpr, Datum.scoped]
      by_cases known : (state.labels.lookup n).isSome = true
      · rw [if_pos known, if_pos ((mem_defined state n).mpr known)]
        rfl
      · rw [if_neg known, if_neg fun member => known ((mem_defined state n).mp member)]
        have inner := readExpr_defined datum (state.begin n)
        rw [show n :: state.defined = (state.begin n).defined from rfl, ← inner]
        change Option.map _ (match readExpr datum (state.begin n) with
          | none => none
          | some (obj, after) => some (obj, closeLabel after n (.ref state.heap.length) obj
              state.backrefs)) = _
        cases readExpr datum (state.begin n) with
        | none => rfl
        | some result => exact congrArg some (defined_closeLabel result.2 n _ result.1 _)
  | .reference n, state => by
      rw [readExpr, Datum.scoped]
      have known := mem_defined state n
      cases found : state.labels.lookup n with
      | none =>
          rw [found] at known
          rw [if_neg fun member => Bool.noConfusion (known.mp member)]
          rfl
      | some value =>
          rw [found] at known
          rw [if_pos (known.mpr rfl)]
          dsimp only
          split <;> rfl

theorem readRest_defined : ∀ (rest : Rest) (tail : Nat) (state : ReadState),
    (readRest rest tail state).map ReadState.defined = rest.scoped state.defined
  | .close, _, state => by rw [readRest, Rest.scoped]; rfl
  | .dot datum, _, state => by
      rw [readRest, Rest.scoped, ← readExpr_defined datum state]
      cases readExpr datum state <;> rfl
  | .more datum rest, tail, state => by
      rw [readRest, Rest.scoped, ← readExpr_defined datum state]
      cases readExpr datum state with
      | none => rfl
      | some result =>
          obtain ⟨elem, mid⟩ := result
          exact readRest_defined rest mid.heap.length
            ((mid.alloc (.cons elem .nil)).2.link tail (.ref mid.heap.length))

theorem readItems_defined : ∀ (items : Items) (state : ReadState),
    (readItems items state).map (fun result => result.2.defined) = items.scoped state.defined
  | .none, state => by rw [readItems, Items.scoped]; rfl
  | .more datum items, state => by
      rw [readItems, Items.scoped, ← readExpr_defined datum state]
      cases readExpr datum state with
      | none => rfl
      | some result =>
          obtain ⟨elem, mid⟩ := result
          simp only [Option.map_some, Option.bind_some]
          rw [← readItems_defined items mid]
          cases readItems items mid <;> rfl

end

end ClAmiga.Labels
