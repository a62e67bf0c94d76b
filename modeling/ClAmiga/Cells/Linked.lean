import Mathlib.Data.List.Nodup

/-!
# Linked cells

Lists of cells in a memory, each with a value and a link to the next cell.  Relinking a cell
changes the lists it is on and no others.
-/

namespace ClAmiga.Cells

/-- The values of the cells and their links. -/
structure Memory (α : Type*) where
  car : Nat → α
  cdr : Nat → Option Nat

variable {α : Type*}

def Memory.setCdr (memory : Memory α) (cell : Nat) (link : Option Nat) : Memory α :=
  { memory with cdr := fun other => if other = cell then link else memory.cdr other }

@[simp] theorem Memory.car_setCdr (memory : Memory α) (cell : Nat) (link : Option Nat) :
    (memory.setCdr cell link).car = memory.car := rfl

@[simp] theorem Memory.cdr_setCdr_self (memory : Memory α) (cell : Nat) (link : Option Nat) :
    (memory.setCdr cell link).cdr cell = link :=
  if_pos rfl

theorem Memory.cdr_setCdr_of_ne (memory : Memory α) {cell other : Nat} (link : Option Nat)
    (different : other ≠ cell) : (memory.setCdr cell link).cdr other = memory.cdr other :=
  if_neg different

def Segment (memory : Memory α) : Option Nat → List Nat → Option Nat → Prop
  | link, [], last => link = last
  | link, cell :: cells, last => link = some cell ∧ Segment memory (memory.cdr cell) cells last

def Linked (memory : Memory α) (link : Option Nat) (cells : List Nat) : Prop :=
  Segment memory link cells none

variable {memory : Memory α} {link last : Option Nat} {cells : List Nat}

theorem Segment.setCdr {cell : Nat} (other : Option Nat) (fresh : cell ∉ cells)
    (segment : Segment memory link cells last) :
    Segment (memory.setCdr cell other) link cells last := by
  induction cells generalizing link with
  | nil => exact segment
  | cons first cells induction =>
      obtain ⟨here, rest⟩ := segment
      rw [List.mem_cons, not_or] at fresh
      refine ⟨here, ?_⟩
      rw [memory.cdr_setCdr_of_ne other (Ne.symm fresh.1)]
      exact induction fresh.2 rest

theorem Segment.append {middle : Option Nat} {more : List Nat}
    (first : Segment memory link cells middle) (second : Segment memory middle more last) :
    Segment memory link (cells ++ more) last := by
  induction cells generalizing link with
  | nil =>
      obtain rfl : link = middle := first
      exact second
  | cons cell cells induction => exact ⟨first.1, induction first.2⟩

theorem Segment.split {more : List Nat} (whole : Segment memory link (cells ++ more) last) :
    ∃ middle, Segment memory link cells middle ∧ Segment memory middle more last := by
  induction cells generalizing link with
  | nil => exact ⟨link, rfl, whole⟩
  | cons cell cells induction =>
      obtain ⟨middle, first, second⟩ := induction whole.2
      exact ⟨middle, ⟨whole.1, first⟩, second⟩

theorem Segment.extend {cell : Nat} {next : Option Nat} (fresh : cell ∉ cells)
    (segment : Segment memory link cells (some cell)) :
    Segment (memory.setCdr cell next) link (cells ++ [cell]) next :=
  (segment.setCdr next fresh).append ⟨rfl, memory.cdr_setCdr_self cell next⟩

theorem Linked.setCdr {cell : Nat} (other : Option Nat) (fresh : cell ∉ cells)
    (linked : Linked memory link cells) : Linked (memory.setCdr cell other) link cells :=
  Segment.setCdr other fresh linked

theorem Linked.unique {others : List Nat} (first : Linked memory link cells)
    (second : Linked memory link others) : cells = others := by
  induction cells generalizing link others with
  | nil =>
      cases others with
      | nil => rfl
      | cons other others =>
          obtain rfl : link = none := first
          cases second.1
  | cons cell cells induction =>
      cases others with
      | nil =>
          obtain rfl : link = none := second
          cases first.1
      | cons other others =>
          obtain rfl := Option.some.inj (first.1.symm.trans second.1)
          rw [induction first.2 second.2]

theorem Linked.nodup (linked : Linked memory link cells) : cells.Nodup := by
  induction cells generalizing link with
  | nil => exact List.nodup_nil
  | cons cell cells induction =>
      refine List.nodup_cons.mpr ⟨fun again => ?_, induction linked.2⟩
      obtain ⟨before, after, rfl⟩ := List.append_of_mem again
      obtain ⟨middle, -, back⟩ := Segment.split linked.2
      have loop : Linked memory (some cell) (cell :: (before ++ cell :: after)) := ⟨rfl, linked.2⟩
      have short : Linked memory (some cell) (cell :: after) := ⟨rfl, back.2⟩
      have same := congrArg List.length (loop.unique short)
      simp only [List.length_cons, List.length_append] at same
      omega

theorem Segment.frame {memory' : Memory α}
    (same : ∀ cell ∈ cells, memory'.cdr cell = memory.cdr cell)
    (segment : Segment memory link cells last) : Segment memory' link cells last := by
  induction cells generalizing link with
  | nil => exact segment
  | cons cell cells induction =>
      refine ⟨segment.1, ?_⟩
      rw [same cell List.mem_cons_self]
      exact induction (fun other member => same other (List.mem_cons_of_mem _ member)) segment.2

/-- The cells of a list were linked in another order; others and the values are unchanged. -/
structure Rearranged (memory memory' : Memory α) (link : Option Nat) (old new : List Nat) :
    Prop where
  linked : Linked memory' link new
  perm : new.Perm old
  car : memory'.car = memory.car
  frame : ∀ cell, cell ∉ old → memory'.cdr cell = memory.cdr cell

theorem Linked.rearranged (linked : Linked memory link cells) :
    Rearranged memory memory link cells cells :=
  ⟨linked, .refl _, rfl, fun _ _ => rfl⟩

theorem Rearranged.other {memory' : Memory α} {other : Option Nat} {old new others : List Nat}
    (rearranged : Rearranged memory memory' link old new) (apart : old.Disjoint others)
    (linked : Linked memory other others) : Linked memory' other others :=
  linked.frame fun cell member => rearranged.frame cell fun inOld => apart inOld member

theorem Rearranged.map_car {memory' : Memory α} {old new : List Nat}
    (rearranged : Rearranged memory memory' link old new) :
    (new.map memory'.car).Perm (old.map memory.car) := by
  rw [rearranged.car]
  exact rearranged.perm.map _

theorem Linked.cut {cell : Nat} {front back : List Nat}
    (linked : Linked memory link (front ++ cell :: back)) :
    Linked (memory.setCdr cell none) link (front ++ [cell]) ∧
      Linked (memory.setCdr cell none) (memory.cdr cell) back := by
  have distinct := linked.nodup
  have inFront : cell ∉ front := fun member =>
    List.disjoint_of_nodup_append distinct member List.mem_cons_self
  have inBack : cell ∉ back := (List.nodup_cons.mp (List.nodup_append.mp distinct).2.1).1
  obtain ⟨middle, first, rfl, second⟩ := Segment.split linked
  exact ⟨first.extend inFront, second.setCdr none inBack⟩

theorem Rearranged.both {memory' memory'' : Memory α} {link' : Option Nat}
    {first first' second second' : List Nat} (left : Rearranged memory memory' link first first')
    (right : Rearranged memory' memory'' link' second second') (apart : first.Disjoint second) :
    Linked memory'' link first' ∧ (first' ++ second').Perm (first ++ second) ∧
      memory''.car = memory.car ∧
        ∀ cell, cell ∉ first ++ second → memory''.cdr cell = memory.cdr cell := by
  refine ⟨right.other (fun _ inSecond inFirst => ?_) left.linked, left.perm.append right.perm,
    right.car.trans left.car, fun cell outside => ?_⟩
  · exact apart (left.perm.mem_iff.mp inFirst) inSecond
  · rw [List.mem_append, not_or] at outside
    exact (right.frame cell outside.2).trans (left.frame cell outside.1)

abbrev Spine := Option (Nat × Nat)

/-- The cells of a list under construction, whose last link does not count yet. -/
def Spine.Holds (memory : Memory α) : Spine → List Nat → Prop
  | none, cells => cells = []
  | some (head, tail), cells =>
      ∃ front, cells = front ++ [tail] ∧ Segment memory (some head) front (some tail)

def Spine.push (spine : Spine) (memory : Memory α) (cell : Nat) : Spine × Memory α :=
  match spine with
  | none => (some (cell, cell), memory)
  | some (head, tail) => (some (head, cell), memory.setCdr tail (some cell))

def Spine.close (spine : Spine) (memory : Memory α) (rest : Option Nat) : Option Nat × Memory α :=
  match spine with
  | none => (rest, memory)
  | some (head, tail) => (some head, memory.setCdr tail rest)

variable {spine : Spine}

@[simp] theorem Spine.car_push (spine : Spine) (memory : Memory α) (cell : Nat) :
    (spine.push memory cell).2.car = memory.car := by
  cases spine <;> rfl

@[simp] theorem Spine.car_close (spine : Spine) (memory : Memory α) (rest : Option Nat) :
    (spine.close memory rest).2.car = memory.car := by
  cases spine <;> rfl

theorem Spine.Holds.push (cell : Nat) (holds : spine.Holds memory cells) (distinct : cells.Nodup) :
    (spine.push memory cell).1.Holds (spine.push memory cell).2 (cells ++ [cell]) := by
  match spine, holds with
  | none, holds =>
      obtain rfl : cells = [] := holds
      exact ⟨[], rfl, rfl⟩
  | some (head, tail), ⟨front, same, segment⟩ =>
      subst same
      have fresh : tail ∉ front := fun member =>
        List.disjoint_of_nodup_append distinct member List.mem_cons_self
      exact ⟨front ++ [tail], rfl, segment.extend fresh⟩

theorem Spine.Holds.cdr_push {cell other : Nat} (holds : spine.Holds memory cells)
    (outside : other ∉ cells) : (spine.push memory cell).2.cdr other = memory.cdr other := by
  match spine, holds with
  | none, _ => rfl
  | some (head, tail), ⟨front, same, _⟩ =>
      subst same
      refine memory.cdr_setCdr_of_ne _ ?_
      rintro rfl
      exact outside (List.mem_append_right _ List.mem_cons_self)

theorem Spine.Holds.linked_push {cell : Nat} {others : List Nat} {link : Option Nat}
    (holds : spine.Holds memory cells) (apart : cells.Disjoint others)
    (linked : Linked memory link others) :
    Linked (spine.push memory cell).2 link others := by
  match spine, holds with
  | none, _ => exact linked
  | some (head, tail), ⟨front, same, _⟩ =>
      subst same
      exact linked.setCdr _ (apart (List.mem_append_right _ List.mem_cons_self))

theorem Spine.Holds.close {rest : Option Nat} {others : List Nat}
    (holds : spine.Holds memory cells) (distinct : (cells ++ others).Nodup)
    (linked : Linked memory rest others) :
    Linked (spine.close memory rest).2 (spine.close memory rest).1 (cells ++ others) := by
  match spine, holds with
  | none, holds =>
      obtain rfl : cells = [] := holds
      exact linked
  | some (head, tail), ⟨front, same, segment⟩ =>
      subst same
      have outside : tail ∉ others :=
        List.disjoint_of_nodup_append distinct (List.mem_append_right _ List.mem_cons_self)
      have fresh : tail ∉ front := fun member =>
        List.disjoint_of_nodup_append (List.nodup_append.mp distinct).1 member List.mem_cons_self
      exact (segment.extend fresh).append (linked.setCdr rest outside)

theorem Spine.Holds.cdr_close {rest : Option Nat} {other : Nat} (holds : spine.Holds memory cells)
    (outside : other ∉ cells) : (spine.close memory rest).2.cdr other = memory.cdr other := by
  match spine, holds with
  | none, _ => rfl
  | some (head, tail), ⟨front, same, _⟩ =>
      subst same
      refine memory.cdr_setCdr_of_ne _ ?_
      rintro rfl
      exact outside (List.mem_append_right _ List.mem_cons_self)

theorem Spine.Holds.rearranged_push {memory' : Memory α} {cell : Nat} {head : Option Nat}
    {rest others merged : List Nat} (holds : spine.Holds memory cells)
    (perm : (cell :: rest).Perm others)
    (rearranged : Rearranged (spine.push memory cell).2 memory' head (cells ++ [cell] ++ rest)
      (cells ++ [cell] ++ merged)) :
    Rearranged memory memory' head (cells ++ others) (cells ++ cell :: merged) := by
  rw [List.append_assoc, List.append_assoc, List.singleton_append, List.singleton_append]
    at rearranged
  have same := perm.append_left cells
  refine ⟨rearranged.linked, rearranged.perm.trans same,
    rearranged.car.trans (spine.car_push memory cell), fun other outside => ?_⟩
  rw [rearranged.frame other fun member => outside (same.mem_iff.mp member)]
  exact holds.cdr_push fun member => outside (List.mem_append_left _ member)

end ClAmiga.Cells
