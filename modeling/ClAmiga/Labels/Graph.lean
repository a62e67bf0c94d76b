import ClAmiga.Labels.Patch

/-!
# The graph a text denotes

`Denotes` compares a datum with the object graph below an object: a list is a chain of
conses, the elements of a vector and the arguments of a structure are the slots of a
cell, a label names the object at its position and a reference is the object its label
names.  Only the cells of the datum's own conses, vectors and structures are looked at,
all of them at or above an address, so that the rest of the heap may change.
-/

namespace ClAmiga.Labels

mutual

def Denotes (heap : Heap) (env : Nat → Option Obj) (lo : Nat) : Datum → Obj → Prop
  | .nil, obj => obj = .nil
  | .atom value, obj => obj = .atom value
  | .list first rest, obj => ∃ a car cdr, obj = .ref a ∧ lo ≤ a ∧
      heap[a]? = some (.cons car cdr) ∧ Denotes heap env lo first car ∧
      DenotesRest heap env lo rest cdr
  | .vector elements, obj => ∃ a data, obj = .ref a ∧ lo ≤ a ∧
      heap[a]? = some (.vector data) ∧ DenotesItems heap env lo elements data
  | .struct arguments, obj => ∃ a slots, obj = .ref a ∧ lo ≤ a ∧
      heap[a]? = some (.struct slots) ∧ DenotesItems heap env lo arguments slots
  | .label n datum, obj => env n = some obj ∧ Denotes heap env lo datum obj
  | .reference n, obj => env n = some obj

def DenotesRest (heap : Heap) (env : Nat → Option Obj) (lo : Nat) : Rest → Obj → Prop
  | .close, obj => obj = .nil
  | .dot datum, obj => Denotes heap env lo datum obj
  | .more datum rest, obj => ∃ a car cdr, obj = .ref a ∧ lo ≤ a ∧
      heap[a]? = some (.cons car cdr) ∧ Denotes heap env lo datum car ∧
      DenotesRest heap env lo rest cdr

def DenotesItems (heap : Heap) (env : Nat → Option Obj) (lo : Nat) : Items → List Obj → Prop
  | .none, objs => objs = []
  | .more datum items, objs => ∃ obj others, objs = obj :: others ∧
      Denotes heap env lo datum obj ∧ DenotesItems heap env lo items others

end

def Cell.isPlaceholder : Cell → Bool
  | .cons car _ => car = .unbound
  | _ => false

theorem isPlaceholder_ref {heap : Heap} {a : Nat} : isPlaceholder heap (.ref a) = true ↔
      ∃ cell, heap[a]? = some cell ∧ cell.isPlaceholder = true := by
  rw [isPlaceholder]
  cases heap[a]? with
  | none => simp
  | some cell => cases cell <;> simp [Cell.isPlaceholder]

theorem Denotes.ne_unbound {heap : Heap} {env : Nat → Option Obj} {lo : Nat} {datum : Datum}
    {obj : Obj} (bound : ∀ n, env n ≠ some .unbound) (denotes : Denotes heap env lo datum obj) :
    obj ≠ .unbound := by
  rintro rfl
  cases datum with
  | nil => simp [Denotes] at denotes
  | atom => simp [Denotes] at denotes
  | list => simp [Denotes] at denotes
  | vector => simp [Denotes] at denotes
  | struct => simp [Denotes] at denotes
  | label n =>
      rw [Denotes] at denotes
      exact bound n denotes.1
  | reference n =>
      rw [Denotes] at denotes
      exact bound n denotes

/-- Objects, cells and labels are carried over by a map of objects. -/
structure Carries (f : Obj → Obj) (heap heap' : Heap) (env env' : Nat → Option Obj)
    (lo lo' : Nat) : Prop where
  nil : f .nil = .nil
  atom : ∀ value, f (.atom value) = .atom value
  ref : ∀ a cell, lo ≤ a → heap[a]? = some cell → cell.isPlaceholder = false →
    f (.ref a) = .ref a ∧ heap'[a]? = some (cell.mapSlots f)
  labels : ∀ n obj, env n = some obj → env' n = some (f obj)
  bound : ∀ n, env n ≠ some .unbound
  lower : lo' ≤ lo

section Carries

variable {f : Obj → Obj} {heap heap' : Heap} {env env' : Nat → Option Obj} {lo lo' : Nat}

mutual

theorem Denotes.carry (carries : Carries f heap heap' env env' lo lo') :
    ∀ (datum : Datum) (obj : Obj), Denotes heap env lo datum obj →
      Denotes heap' env' lo' datum (f obj)
  | .nil, _, denotes => by
      rw [Denotes] at denotes ⊢
      rw [denotes, carries.nil]
  | .atom _, _, denotes => by
      rw [Denotes] at denotes ⊢
      rw [denotes, carries.atom]
  | .list first rest, _, denotes => by
      rw [Denotes] at denotes ⊢
      obtain ⟨a, car, cdr, rfl, above, found, denotesFirst, denotesRest⟩ := denotes
      obtain ⟨fixed, carried⟩ := carries.ref a _ above found (by
        simpa [Cell.isPlaceholder] using denotesFirst.ne_unbound carries.bound)
      exact ⟨a, f car, f cdr, fixed, Nat.le_trans carries.lower above, carried,
        Denotes.carry carries first car denotesFirst,
        DenotesRest.carry carries rest cdr denotesRest⟩
  | .vector elements, _, denotes => by
      rw [Denotes] at denotes ⊢
      obtain ⟨a, data, rfl, above, found, items⟩ := denotes
      obtain ⟨fixed, carried⟩ := carries.ref a _ above found rfl
      exact ⟨a, data.map f, fixed, Nat.le_trans carries.lower above, carried,
        DenotesItems.carry carries elements data items⟩
  | .struct arguments, _, denotes => by
      rw [Denotes] at denotes ⊢
      obtain ⟨a, slots, rfl, above, found, items⟩ := denotes
      obtain ⟨fixed, carried⟩ := carries.ref a _ above found rfl
      exact ⟨a, slots.map f, fixed, Nat.le_trans carries.lower above, carried,
        DenotesItems.carry carries arguments slots items⟩
  | .label n datum, obj, denotes => by
      rw [Denotes] at denotes ⊢
      exact ⟨carries.labels n obj denotes.1, Denotes.carry carries datum obj denotes.2⟩
  | .reference n, obj, denotes => by
      rw [Denotes] at denotes ⊢
      exact carries.labels n obj denotes

theorem DenotesRest.carry (carries : Carries f heap heap' env env' lo lo') :
    ∀ (rest : Rest) (obj : Obj), DenotesRest heap env lo rest obj →
      DenotesRest heap' env' lo' rest (f obj)
  | .close, _, denotes => by
      rw [DenotesRest] at denotes ⊢
      rw [denotes, carries.nil]
  | .dot datum, obj, denotes => by
      rw [DenotesRest] at denotes ⊢
      exact Denotes.carry carries datum obj denotes
  | .more datum rest, _, denotes => by
      rw [DenotesRest] at denotes ⊢
      obtain ⟨a, car, cdr, rfl, above, found, denotesFirst, denotesRest⟩ := denotes
      obtain ⟨fixed, carried⟩ := carries.ref a _ above found (by
        simpa [Cell.isPlaceholder] using denotesFirst.ne_unbound carries.bound)
      exact ⟨a, f car, f cdr, fixed, Nat.le_trans carries.lower above, carried,
        Denotes.carry carries datum car denotesFirst,
        DenotesRest.carry carries rest cdr denotesRest⟩

theorem DenotesItems.carry (carries : Carries f heap heap' env env' lo lo') :
    ∀ (items : Items) (objs : List Obj), DenotesItems heap env lo items objs →
      DenotesItems heap' env' lo' items (objs.map f)
  | .none, _, denotes => by
      rw [DenotesItems] at denotes ⊢
      rw [denotes, List.map_nil]
  | .more datum items, _, denotes => by
      rw [DenotesItems] at denotes ⊢
      obtain ⟨obj, others, rfl, denotesFirst, denotesOthers⟩ := denotes
      exact ⟨f obj, others.map f, rfl, Denotes.carry carries datum obj denotesFirst,
        DenotesItems.carry carries items others denotesOthers⟩

end

theorem Carries.kept (cells : ∀ a cell, lo ≤ a → heap[a]? = some cell → heap'[a]? = some cell)
    (labels : ∀ n obj, env n = some obj → env' n = some obj)
    (bound : ∀ n, env n ≠ some .unbound) (lower : lo' ≤ lo) :
    Carries id heap heap' env env' lo lo' where
  nil := rfl
  atom _ := rfl
  ref a cell above found _ :=
    have same : cell.mapSlots id = cell := Cell.mapSlots_eq_self fun _ _ => rfl
    ⟨rfl, by rw [cells a cell above found, same]⟩
  labels := labels
  bound := bound
  lower := lower

end Carries

theorem Reach.mono {heap heap' : Heap} {root : Obj} {c : Nat}
    (cells : ∀ (a : Nat) (cell : Cell), heap[a]? = some cell →
      ∃ cell' : Cell, heap'[a]? = some cell' ∧ cell'.isContainer = cell.isContainer ∧
        ∀ b, Obj.ref b ∈ cell.slots → Obj.ref b ∈ cell'.slots)
    (reached : Reach heap root c) : Reach heap' root c := by
  have contains : ∀ b, readerPatchContainerP heap (.ref b) = true →
      readerPatchContainerP heap' (.ref b) = true := by
    intro b container
    obtain ⟨cell, found, kind⟩ := readerPatchContainerP_ref.mp container
    obtain ⟨cell', found', same, _⟩ := cells b cell found
    exact readerPatchContainerP_ref.mpr ⟨cell', found', same.trans kind⟩
  induction reached with
  | root here container => exact .root here (contains _ container)
  | step _ found slot container induction =>
      obtain ⟨cell', found', _, slots⟩ := cells _ _ found
      exact .step induction found' (slots _ slot) (contains _ container)

theorem Reach.of_slot {heap : Heap} {a c : Nat} {cell : Cell} {slot : Obj}
    (found : heap[a]? = some cell) (kind : cell.isContainer = true) (member : slot ∈ cell.slots)
    (reached : Reach heap slot c) : Reach heap (.ref a) c := by
  have start : Reach heap (.ref a) a :=
    .root rfl (readerPatchContainerP_ref.mpr ⟨cell, found, kind⟩)
  induction reached with
  | root here container => exact .step start found (here ▸ member) container
  | step _ inner slot container induction => exact .step induction inner slot container

theorem Reach.rename {heap : Heap} {root target : Obj} {p c : Nat}
    (dead : ∀ cell : Cell, heap[p]? = some cell → ∀ b, Obj.ref b ∉ cell.slots)
    (reached : Reach heap root c) (other : c ≠ p) :
    Reach (renamed (.ref p) target heap) root c := by
  have contains : ∀ b, readerPatchContainerP heap (.ref b) = true →
      readerPatchContainerP (renamed (.ref p) target heap) (.ref b) = true := by
    intro b container
    obtain ⟨cell, found, kind⟩ := readerPatchContainerP_ref.mp container
    refine readerPatchContainerP_ref.mpr ⟨cell.mapSlots (patchSlot (.ref p) target), ?_, ?_⟩
    · rw [renamed, List.getElem?_map, found]
      rfl
    · rw [Cell.isContainer_mapSlots, kind]
  have either : ∀ c, Reach heap root c → c = p ∨ Reach (renamed (.ref p) target heap) root c := by
    intro c reached
    induction reached with
    | root here container => exact Or.inr (.root here (contains _ container))
    | @step a b cell _ found slot container induction =>
        by_cases same : b = p
        · exact Or.inl same
        · rcases induction with rfl | before
          · exact absurd slot (dead cell found b)
          · refine Or.inr (@Reach.step _ _ a b (cell.mapSlots (patchSlot (.ref p) target))
              before ?_ ?_ (contains b container))
            · rw [renamed, List.getElem?_map, found]
              rfl
            · rw [Cell.slots_mapSlots, List.mem_map]
              exact ⟨.ref b, slot, patchSlot_of_ne (by simpa using same)⟩
  exact (either c reached).resolve_left other

end ClAmiga.Labels
