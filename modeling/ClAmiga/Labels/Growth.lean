import ClAmiga.Labels.Graph

/-!
# What reading leaves in place

A read allocates cells and sets the cdr of the last cons of a list.  `Extends` says what
stays of the earlier cells and labels, `Good` what holds of every state between reads.
-/

namespace ClAmiga.Labels

def ReadState.env (state : ReadState) (n : Nat) : Option Obj :=
  state.labels.lookup n

structure Cell.Gained (cell cell' : Cell) : Prop where
  placeholder : cell'.isPlaceholder = cell.isPlaceholder
  container : cell'.isContainer = cell.isContainer
  refs : ∀ b, Obj.ref b ∈ cell.slots → Obj.ref b ∈ cell'.slots

theorem Cell.Gained.refl (cell : Cell) : cell.Gained cell :=
  ⟨rfl, rfl, fun _ member => member⟩

theorem Cell.Gained.trans {first second third : Cell} (left : first.Gained second)
    (right : second.Gained third) : first.Gained third :=
  ⟨right.placeholder.trans left.placeholder, right.container.trans left.container,
    fun b member => right.refs b (left.refs b member)⟩

/-- The cells below an address stay, the others may gain references, and labels keep
their objects. -/
structure Extends (upTo : Nat) (before after : ReadState) : Prop where
  cells : ∀ (a : Nat) (cell : Cell), a < upTo → before.heap[a]? = some cell →
    after.heap[a]? = some cell
  gained : ∀ (a : Nat) (cell : Cell), before.heap[a]? = some cell →
    ∃ cell' : Cell, after.heap[a]? = some cell' ∧ cell.Gained cell'
  labels : ∀ n obj, before.env n = some obj → after.env n = some obj
  backrefs : before.backrefs ≤ after.backrefs

namespace Extends

variable {upTo : Nat} {before after : ReadState}

theorem refl (upTo : Nat) (state : ReadState) : Extends upTo state state where
  cells _ _ _ found := found
  gained _ cell found := ⟨cell, found, .refl cell⟩
  labels _ _ found := found
  backrefs := Nat.le_refl _

theorem trans {later : Nat} {last : ReadState} (first : Extends upTo before after)
    (second : Extends later after last) (order : upTo ≤ later) : Extends upTo before last where
  cells a cell below found :=
    second.cells a cell (Nat.lt_of_lt_of_le below order) (first.cells a cell below found)
  gained a cell found := by
    obtain ⟨cell', found', gained⟩ := first.gained a cell found
    obtain ⟨cell'', found'', more⟩ := second.gained a cell' found'
    exact ⟨cell'', found'', gained.trans more⟩
  labels n obj found := second.labels n obj (first.labels n obj found)
  backrefs := Nat.le_trans first.backrefs second.backrefs

theorem weaken {lower : Nat} (ext : Extends upTo before after) (order : lower ≤ upTo) :
    Extends lower before after :=
  { ext with cells := fun a cell below => ext.cells a cell (Nat.lt_of_lt_of_le below order) }

theorem lt_length (ext : Extends upTo before after) {a : Nat} (below : a < before.heap.length) :
    a < after.heap.length := by
  obtain ⟨_, found, _⟩ := ext.gained a before.heap[a] (List.getElem?_eq_getElem below)
  exact (List.getElem?_eq_some_iff.mp found).1

theorem length_le (ext : Extends upTo before after) : before.heap.length ≤ after.heap.length := by
  by_contra shorter
  exact absurd (ext.lt_length (Nat.lt_of_not_ge shorter)) (Nat.lt_irrefl _)

theorem isPlaceholder (ext : Extends upTo before after) {obj : Obj}
    (inside : ∀ b, obj = .ref b → b < before.heap.length) :
    Labels.isPlaceholder after.heap obj = Labels.isPlaceholder before.heap obj := by
  cases obj with
  | ref a =>
      have found := List.getElem?_eq_getElem (inside a rfl)
      obtain ⟨cell, found', gained⟩ := ext.gained a _ found
      rw [Bool.eq_iff_iff, isPlaceholder_ref, isPlaceholder_ref]
      simp [found, found', gained.placeholder]
  | _ => rfl

theorem reach (ext : Extends upTo before after) {root : Obj} {c : Nat}
    (reached : Reach before.heap root c) : Reach after.heap root c := by
  refine reached.mono fun a cell found => ?_
  obtain ⟨cell', found', gained⟩ := ext.gained a cell found
  exact ⟨cell', found', gained.container, gained.refs⟩

end Extends

/-- References lead to cells, and the labels still being read are those whose object is
a placeholder. -/
structure Good (opened : List Nat) (state : ReadState) : Prop where
  slots : ∀ (a : Nat) (cell : Cell) (b : Nat), state.heap[a]? = some cell →
    Obj.ref b ∈ cell.slots → b < state.heap.length
  values : ∀ n b, state.env n = some (.ref b) → b < state.heap.length
  opened_iff : ∀ n obj, state.env n = some obj →
    (isPlaceholder state.heap obj = true ↔ n ∈ opened)
  defined : ∀ n ∈ opened, ∃ obj, state.env n = some obj
  bound : ∀ n, state.env n ≠ some .unbound

theorem Carries.of_extends {opened : List Nat} {before after : ReadState} {lo lo' upTo : Nat}
    (good : Good opened before) (ext : Extends upTo before after)
    (cells : ∀ (a : Nat) (cell : Cell), lo ≤ a → before.heap[a]? = some cell →
      after.heap[a]? = some cell) (lower : lo' ≤ lo) :
    Carries id before.heap after.heap before.env after.env lo lo' :=
  .kept cells ext.labels good.bound lower

theorem getElem?_alloc {state : ReadState} {cell : Cell} {a : Nat} {found : Cell}
    (old : state.heap[a]? = some found) : (state.alloc cell).2.heap[a]? = some found := by
  have below := (List.getElem?_eq_some_iff.mp old).1
  rw [ReadState.alloc, List.getElem?_append_left below, old]

theorem getElem?_alloc_new (state : ReadState) (cell : Cell) :
    (state.alloc cell).2.heap[state.heap.length]? = some cell := by
  simp [ReadState.alloc]

theorem length_alloc (state : ReadState) (cell : Cell) :
    (state.alloc cell).2.heap.length = state.heap.length + 1 := by
  simp [ReadState.alloc]

theorem getElem?_alloc_cases {state : ReadState} {cell found : Cell} {a : Nat}
    (here : (state.alloc cell).2.heap[a]? = some found) :
    state.heap[a]? = some found ∨ a = state.heap.length ∧ found = cell := by
  have below := (List.getElem?_eq_some_iff.mp here).1
  rw [length_alloc] at below
  rcases Nat.lt_succ_iff_lt_or_eq.mp below with old | rfl
  · rw [ReadState.alloc, List.getElem?_append_left old] at here
    exact Or.inl here
  · rw [getElem?_alloc_new] at here
    exact Or.inr ⟨rfl, (Option.some.inj here).symm⟩

theorem Extends.alloc (state : ReadState) (cell : Cell) :
    Extends state.heap.length state (state.alloc cell).2 where
  cells _ _ _ found := getElem?_alloc found
  gained _ old found := ⟨old, getElem?_alloc found, .refl old⟩
  labels _ _ found := found
  backrefs := Nat.le_refl _

theorem Good.alloc {opened : List Nat} {state : ReadState} (good : Good opened state)
    {cell : Cell} (inside : ∀ b, Obj.ref b ∈ cell.slots → b < state.heap.length) :
    Good opened (state.alloc cell).2 where
  slots a found b here member := by
    rw [length_alloc]
    rcases getElem?_alloc_cases here with old | ⟨_, rfl⟩
    · exact Nat.lt_succ_of_lt (good.slots a found b old member)
    · exact Nat.lt_succ_of_lt (inside b member)
  values n b value := by
    rw [length_alloc]
    exact Nat.lt_succ_of_lt (good.values n b value)
  opened_iff n obj value := by
    have inside : ∀ b, obj = .ref b → b < state.heap.length := by
      rintro b rfl
      exact good.values n b value
    rw [(Extends.alloc state cell).isPlaceholder inside]
    exact good.opened_iff n obj value
  defined := good.defined
  bound := good.bound

def ReadState.link (state : ReadState) (tail : Nat) (obj : Obj) : ReadState :=
  { state with heap := setCdr state.heap tail obj }

section Link

variable {state : ReadState} {tail : Nat} {car : Obj}

theorem heap_link (found : state.heap[tail]? = some (.cons car .nil)) (obj : Obj) :
    (state.link tail obj).heap = state.heap.set tail (.cons car obj) := by
  rw [ReadState.link, setCdr, found]

theorem length_link (found : state.heap[tail]? = some (.cons car .nil)) (obj : Obj) :
    (state.link tail obj).heap.length = state.heap.length := by
  rw [heap_link found, List.length_set]

theorem getElem?_link_self (found : state.heap[tail]? = some (.cons car .nil)) (obj : Obj) :
    (state.link tail obj).heap[tail]? = some (.cons car obj) := by
  rw [heap_link found, List.getElem?_set_self (List.getElem?_eq_some_iff.mp found).1]

theorem getElem?_link (found : state.heap[tail]? = some (.cons car .nil)) (obj : Obj) {a : Nat}
    (other : a ≠ tail) : (state.link tail obj).heap[a]? = state.heap[a]? := by
  rw [heap_link found, List.getElem?_set_ne (Ne.symm other)]

theorem Extends.link (found : state.heap[tail]? = some (.cons car .nil)) (obj : Obj) :
    Extends tail state (state.link tail obj) where
  cells a cell below here := by
    rwa [getElem?_link found obj (Nat.ne_of_lt below)]
  gained a cell here := by
    by_cases same : a = tail
    · subst same
      obtain rfl : .cons car .nil = cell := Option.some.inj (found.symm.trans here)
      refine ⟨.cons car obj, getElem?_link_self found obj, rfl, rfl, fun b member => ?_⟩
      have first : Obj.ref b = car := by simpa [Cell.slots] using member
      simp [Cell.slots, first]
    · exact ⟨cell, by rwa [getElem?_link found obj same], .refl cell⟩
  labels _ _ value := value
  backrefs := Nat.le_refl _

theorem Good.link {opened : List Nat} (good : Good opened state)
    (found : state.heap[tail]? = some (.cons car .nil)) {obj : Obj}
    (inside : ∀ b, obj = .ref b → b < state.heap.length) :
    Good opened (state.link tail obj) where
  slots a cell b here member := by
    rw [length_link found]
    by_cases same : a = tail
    · subst same
      rw [getElem?_link_self found] at here
      obtain rfl := Option.some.inj here
      rcases (by simpa [Cell.slots] using member : Obj.ref b = car ∨ Obj.ref b = obj) with
        first | second
      · exact good.slots a _ b found (by simp [Cell.slots, first])
      · exact inside b second.symm
    · rw [getElem?_link found obj same] at here
      exact good.slots a cell b here member
  values n b value := by
    rw [length_link found]
    exact good.values n b value
  opened_iff n other value := by
    have valueInside : ∀ b, other = .ref b → b < state.heap.length := by
      rintro b rfl
      exact good.values n b value
    rw [(Extends.link found obj).isPlaceholder valueInside]
    exact good.opened_iff n other value
  defined := good.defined
  bound := good.bound

end Link

end ClAmiga.Labels
