import ClAmiga.Circle.Print
import ClAmiga.Circle.WalkSpec
import Mathlib.Data.Fintype.Pigeonhole
import Mathlib.Order.Filter.AtTopBot.Basic

/-!
# The order of printing

Which lists are written out is said without the table: the contents of an object are the
objects printed in its place, one after the other, and a shared node is entered once.  A
list whose cdrs run on forever through conses that are not shared has no contents.
-/

namespace ClAmiga.Circle

open ClAmiga.Graph (Found)

def Heap.cdr (heap : Heap) (obj : Obj) : Obj :=
  match heap.cell obj with
  | some (.cons _ cdr) => cdr
  | _ => 0

/-- A cdr with which a list goes on: a cons that is not shared. -/
def Heap.GoesOn (heap : Heap) (shared : List Obj) (obj : Obj) : Prop :=
  (∃ car cdr, heap.cell obj = some (.cons car cdr)) ∧ obj ∉ shared

def Heap.Endless (heap : Heap) (shared : List Obj) (obj : Obj) : Prop :=
  ∀ n, heap.GoesOn shared (heap.cdr^[n] obj)

/-- The objects printed for a cdr: the cars of the conses with which the list goes on, and
what stands behind a dot. -/
inductive Chain (heap : Heap) (shared : List Obj) : Obj → List Obj → Prop where
  | close : Chain heap shared 0 []
  | dot {obj : Obj} (stops : ¬ heap.GoesOn shared obj) (present : obj ≠ 0) :
      Chain heap shared obj [obj]
  | more {obj car cdr : Obj} {objs : List Obj} (cell : heap.cell obj = some (.cons car cdr))
      (single : obj ∉ shared) (rest : Chain heap shared cdr objs) :
      Chain heap shared obj (car :: objs)

variable {heap : Heap} {shared : List Obj} {obj : Obj}

instance : Finite Obj :=
  Finite.of_injective UInt32.toFin fun _ _ same => UInt32.toFin_inj.mp same

/-- Along the cdrs some object comes again. -/
theorem exists_cdrs_eq (heap : Heap) (obj : Obj) :
    ∃ i j, i < j ∧ heap.cdr^[i] obj = heap.cdr^[j] obj := by
  obtain ⟨i, j, different, same⟩ := Finite.exists_ne_map_eq_of_infinite fun n => heap.cdr^[n] obj
  rcases Nat.lt_or_gt_of_ne different with less | greater
  · exact ⟨i, j, less, same⟩
  · exact ⟨j, i, greater, same.symm⟩

theorem not_goesOn_nil : ¬ heap.GoesOn shared 0 := by
  rintro ⟨⟨car, cdr, cell⟩, _⟩
  rw [heap.cell_nil] at cell
  cases cell

theorem Chain.unique {first second : List Obj} (left : Chain heap shared obj first)
    (right : Chain heap shared obj second) : first = second := by
  induction left generalizing second with
  | close =>
      cases right with
      | close => rfl
      | dot _ present => exact absurd rfl present
      | more cell single => exact absurd ⟨⟨_, _, cell⟩, single⟩ not_goesOn_nil
  | dot stops present =>
      cases right with
      | close => exact absurd rfl present
      | dot => rfl
      | more cell single => exact absurd ⟨⟨_, _, cell⟩, single⟩ stops
  | more cell single _ induction =>
      cases right with
      | close => exact absurd ⟨⟨_, _, cell⟩, single⟩ not_goesOn_nil
      | dot stops => exact absurd ⟨⟨_, _, cell⟩, single⟩ stops
      | more other _ rest =>
          rw [cell] at other
          cases other
          rw [induction rest]

theorem Heap.cdr_of_cell {car cdr : Obj} (cell : heap.cell obj = some (.cons car cdr)) :
    heap.cdr obj = cdr := by
  rw [Heap.cdr, cell]

theorem Chain.not_endless {objs : List Obj} (chain : Chain heap shared obj objs) :
    ¬ heap.Endless shared obj := by
  induction chain with
  | close => exact fun endless => not_goesOn_nil (endless 0)
  | dot stops _ => exact fun endless => stops (endless 0)
  | more cell single _ induction =>
      intro endless
      refine induction fun n => ?_
      have later := endless (n + 1)
      rwa [Function.iterate_succ_apply, Heap.cdr_of_cell cell] at later

theorem exists_chain (ends : ¬ heap.Endless shared obj) : ∃ objs, Chain heap shared obj objs := by
  rw [Heap.Endless, not_forall] at ends
  obtain ⟨n, stops⟩ := ends
  induction n generalizing obj with
  | zero =>
      by_cases nil : obj = 0
      · subst nil
        exact ⟨[], .close⟩
      · exact ⟨[obj], .dot stops nil⟩
  | succ n induction =>
      by_cases goesOn : heap.GoesOn shared obj
      · obtain ⟨⟨car, cdr, cell⟩, single⟩ := goesOn
        rw [Function.iterate_succ_apply, Heap.cdr_of_cell cell] at stops
        obtain ⟨objs, rest⟩ := induction stops
        exact ⟨car :: objs, .more cell single rest⟩
      · by_cases nil : obj = 0
        · subst nil
          exact ⟨[], .close⟩
        · exact ⟨[obj], .dot goesOn nil⟩

open Classical in
/-- The objects printed for a cdr, none when the list does not end. -/
noncomputable def tail (heap : Heap) (shared : List Obj) (obj : Obj) : List Obj :=
  if ends : ∃ objs, Chain heap shared obj objs then ends.choose else []

theorem Chain.tail_eq {objs : List Obj} (chain : Chain heap shared obj objs) :
    tail heap shared obj = objs := by
  have ends : ∃ objs, Chain heap shared obj objs := ⟨objs, chain⟩
  rw [tail, dif_pos ends]
  exact ends.choose_spec.unique chain

noncomputable def contents (heap : Heap) (settings : Settings) (shared : List Obj) (depth : Nat)
    (obj : Obj) : List Obj :=
  match heap.cell obj with
  | none => []
  | some (.cons car cdr) => if settings.cuts depth then [] else car :: tail heap shared cdr
  | some (.vector elts) => if settings.array = false ∨ settings.cuts depth then [] else elts

/-- The cdr whose list is followed for an object at a depth. -/
def followed (heap : Heap) (settings : Settings) (depth : Nat) (obj : Obj) : List Obj :=
  match heap.cell obj with
  | some (.cons _ cdr) => if settings.cuts depth then [] else [cdr]
  | _ => []

structure Visits where
  seen : List Obj
  lists : List Obj

noncomputable def visit (heap : Heap) (settings : Settings) (shared : List Obj) :
    Nat → Visits → Obj → Visits
  | 0, visits, _ => visits
  | room + 1, visits, obj =>
      if obj ∈ shared ∧ obj ∈ visits.seen then
        visits
      else
        let depth := printHardCap - (room + 1)
        (contents heap settings shared depth obj).foldl (visit heap settings shared room)
          ⟨if obj ∈ shared then obj :: visits.seen else visits.seen,
            followed heap settings depth obj ++ visits.lists⟩

theorem lists_foldl_subset {f : Visits → Obj → Visits}
    (grows : ∀ visits obj, ∀ list ∈ visits.lists, list ∈ (f visits obj).lists)
    (objs : List Obj) (visits : Visits) :
    ∀ list ∈ visits.lists, list ∈ (objs.foldl f visits).lists := by
  induction objs generalizing visits with
  | nil => exact fun list member => member
  | cons obj objs induction =>
      exact fun list member => induction _ list (grows visits obj list member)

theorem lists_subset (heap : Heap) (settings : Settings) (shared : List Obj) (room : Nat) :
    ∀ visits obj, ∀ list ∈ visits.lists, list ∈ (visit heap settings shared room visits obj).lists
    := by
  induction room with
  | zero => exact fun visits obj list member => member
  | succ room induction =>
      intro visits obj list member
      rw [visit]
      split
      · exact member
      · exact lists_foldl_subset induction _ _ list (List.mem_append_right _ member)

end ClAmiga.Circle
