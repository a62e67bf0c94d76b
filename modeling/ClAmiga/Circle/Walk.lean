import ClAmiga.Probe.Update

/-!
# Looking for shared nodes before printing

Before an object is printed with `*print-circle*` true, a walk over its conses and vectors
enters each one in a table of 256 slots and marks those it meets twice; these then get
labels in the order of their slots.  The table takes 192 nodes, the stack of pending
objects 511, and what is beyond that is left out.

A vector is its active elements; structures are not among the objects.
-/

namespace ClAmiga.Circle

open Probe (Slots Slot Target)

/-- `CL_Obj`: NIL is zero. -/
abbrev Obj := UInt32

inductive Cell where
  | cons (car cdr : Obj)
  | vector (elts : List Obj)
deriving DecidableEq, Repr

structure Heap where
  cell : Obj → Option Cell
  text : Obj → String
  cell_nil : cell 0 = none

/-- `circle_compound_p`. -/
def Heap.circleCompoundP (heap : Heap) (obj : Obj) : Bool :=
  (heap.cell obj).isSome

/-- `CL_CIRCLE_HT_SIZE`. -/
def circleHtSize : Nat := 256

def circleLimit : Nat := 192

def stackRoom : Nat := 511

/-- `circle_hash`. -/
def circleHash (obj : Obj) : Nat :=
  let h := obj ^^^ (obj >>> 16)
  let h := h * 0x45d9f3b
  let h := h ^^^ (h >>> 16)
  (h &&& 255).toNat

/-- `circle_keys` and `circle_vals`: zero for a node seen once, one for a shared node without
a label, `label + 2` for a labelled one, and the negative of that once it is printed. -/
abbrev Table := Slots Obj Int

/-- `circle_clear`. -/
def circleClear : Table :=
  fun _ => .empty

/-- `circle_find`. -/
def circleFind (table : Table) (obj : Obj) : Nat :=
  match Probe.target table circleHtSize (circleHash obj) obj 0 circleHtSize none with
  | .found slot => slot
  | .vacant slot => slot
  | .full => circleHash obj

def circleVal (table : Table) (obj : Obj) : Option Int :=
  match table (circleFind table obj) with
  | .entry key val => if key = obj then some val else none
  | _ => none

/-- `circle_vals[slot] = val` for the slot of an object. -/
def setCircleVal (table : Table) (obj : Obj) (val : Int) : Table :=
  Probe.put table (circleFind table obj) (.entry obj val)

def pushCompound (heap : Heap) (stack : List Obj) (obj : Obj) : List Obj :=
  if heap.circleCompoundP obj ∧ stack.length < stackRoom then obj :: stack else stack

/-- The parts of an object in the order in which they are pushed. -/
def Heap.parts (heap : Heap) (obj : Obj) : List Obj :=
  match heap.cell obj with
  | some (.cons car cdr) => [cdr, car]
  | some (.vector elts) => elts
  | none => []

/-- The loop of `circle_walk`, with `circle_count`. -/
def circleLoop (heap : Heap) (table : Table) (count : Nat) : List Obj → Table
  | [] => table
  | obj :: stack =>
      if heap.circleCompoundP obj = false then
        circleLoop heap table count stack
      else
        match circleVal table obj with
        | some val =>
            circleLoop heap (if val = 0 then setCircleVal table obj 1 else table) count stack
        | none =>
            if circleLimit ≤ count then
              circleLoop heap table count stack
            else
              circleLoop heap (setCircleVal table obj 0) (count + 1)
                ((heap.parts obj).foldl (pushCompound heap) stack)
termination_by stack => (circleLimit - count, stack.length)

/-- `circle_walk`. -/
def circleWalk (heap : Heap) (root : Obj) (table : Table) : Table :=
  if heap.circleCompoundP root then circleLoop heap table 0 [root] else table

/-- One slot of `circle_assign_labels`, with `circle_next_label`. -/
def assignSlot (state : Table × Int) (slot : Nat) : Table × Int :=
  match state.1 slot with
  | .entry key val =>
      if val = 1 then (Probe.put state.1 slot (.entry key (state.2 + 2)), state.2 + 1) else state
  | _ => state

/-- `circle_assign_labels`. -/
def circleAssignLabels (table : Table) : Table :=
  ((List.range circleHtSize).foldl assignSlot (table, 0)).1

def circleTable (heap : Heap) (root : Obj) : Table :=
  circleAssignLabels (circleWalk heap root circleClear)

end ClAmiga.Circle
