import Mathlib.Data.List.Basic

/-!
# Reading labelled data

`#n=` registers a placeholder cons for its label, reads the object and binds the
label to it.  When the object referred to a placeholder, a walk over its conses and
vectors puts the object in the placeholder's place.  The walk keeps its stack and
the nodes it has visited in arrays of 256 entries: a node that finds the stack full
is not pushed, and the walk ends at the 257th node.

A text is its data: quote prefixes are the lists they stand for, and the elements of
an array are those of a vector in row-major order.  The lists in which the reader
collects the elements of a vector and the arguments of a structure are not kept, and
the default constructor stores its arguments in the structure's slots.
-/

namespace ClAmiga.Labels

/-- A word of the heap: NIL, the unbound marker, an object without slots, or the
address of a cell. -/
inductive Obj where
  | nil
  | unbound
  | atom (value : Nat)
  | ref (addr : Nat)
deriving DecidableEq, Repr

inductive Cell where
  | cons (car cdr : Obj)
  | vector (data : List Obj)
  | struct (slots : List Obj)
deriving DecidableEq, Repr

abbrev Heap := List Cell

namespace Cell

def slots : Cell → List Obj
  | cons car cdr => [car, cdr]
  | vector data => data
  | struct slots => slots

def mapSlots (f : Obj → Obj) : Cell → Cell
  | cons car cdr => cons (f car) (f cdr)
  | vector data => vector (data.map f)
  | struct slots => struct (slots.map f)

def isContainer : Cell → Bool
  | cons .. => true
  | vector _ => true
  | struct _ => false

end Cell

mutual

/-- A datum of a text.  The reader parses a label into an `int`: a text here has only
labels below 2 ^ 31, which that `int` and the fixnum made of it keep apart. -/
inductive Datum where
  | nil
  | atom (value : Nat)
  | list (first : Datum) (rest : Rest)
  | vector (elements : Items)
  | struct (arguments : Items)
  | label (n : Nat) (datum : Datum)
  | reference (n : Nat)

inductive Rest where
  | close
  | dot (datum : Datum)
  | more (datum : Datum) (rest : Rest)

inductive Items where
  | none
  | more (datum : Datum) (items : Items)

end

/-- `MAXN`. -/
def maxN : Nat := 256

/-- `reader_patch_container_p`. -/
def readerPatchContainerP (heap : Heap) : Obj → Bool
  | .ref addr =>
      match heap[addr]? with
      | some cell => cell.isContainer
      | none => false
  | _ => false

def Obj.addr : Obj → Nat
  | .ref addr => addr
  | _ => 0

/-- A slot of a node: a container that is not the placeholder is pushed if there is
room.  The flag says whether nothing was left out. -/
def pushSlot (heap : Heap) (placeholder : Obj) (stack : List Nat × Bool) (slot : Obj) :
    List Nat × Bool :=
  if slot = placeholder then
    stack
  else if readerPatchContainerP heap slot then
    if stack.1.length < maxN then (slot.addr :: stack.1, stack.2) else (stack.1, false)
  else
    stack

def patchSlot (placeholder target slot : Obj) : Obj :=
  if slot = placeholder then target else slot

/-- The loop of `reader_patch_labels`: entries that are visited already are popped, and
the next one is visited as long as the array of visited nodes has room, of which `budget`
is left.  With the heap comes whether the walk stayed within its limits. -/
def patchWalk (placeholder target : Obj) :
    Nat → Heap → List Nat → List Nat → Heap × Bool
  | 0, heap, stack, visited => (heap, (stack.dropWhile (· ∈ visited)).isEmpty)
  | budget + 1, heap, stack, visited =>
      match stack.dropWhile (· ∈ visited) with
      | [] => (heap, true)
      | node :: stack =>
          let cell := heap.getD node (.struct [])
          let pushed := cell.slots.foldl (pushSlot heap placeholder) (stack, true)
          let walked := patchWalk placeholder target budget
            (heap.set node (cell.mapSlots (patchSlot placeholder target)))
            pushed.1 (node :: visited)
          (walked.1, pushed.2 && walked.2)

/-- `reader_patch_labels`. -/
def readerPatchLabels (heap : Heap) (root : Obj) (placeholder target : Obj) : Heap × Bool :=
  if readerPatchContainerP heap root then
    patchWalk placeholder target maxN heap [root.addr] []
  else
    (heap, true)

/-- The heap, `rd_labels`, `rd_label_backrefs`, and whether every walk so far stayed
within its limits. -/
structure ReadState where
  heap : Heap
  labels : List (Nat × Obj)
  backrefs : Nat
  withinLimits : Bool
deriving DecidableEq, Repr

def ReadState.alloc (state : ReadState) (cell : Cell) : Obj × ReadState :=
  (.ref state.heap.length, { state with heap := state.heap ++ [cell] })

/-- `((CL_Cons *)…)->cdr = obj`. -/
def setCdr (heap : Heap) (addr : Nat) (obj : Obj) : Heap :=
  match heap[addr]? with
  | some (.cons car _) => heap.set addr (.cons car obj)
  | _ => heap

/-- The placeholder test of `read_label_reference`: a cons with an unbound car. -/
def isPlaceholder (heap : Heap) : Obj → Bool
  | .ref addr =>
      match heap[addr]? with
      | some (.cons car _) => car = .unbound
      | _ => false
  | _ => false

def rebind (labels : List (Nat × Obj)) (n : Nat) (obj : Obj) : List (Nat × Obj) :=
  labels.map fun entry => if entry.1 = n then (entry.1, obj) else entry

/-- The end of `read_labeled_object`, once the object is read. -/
def closeLabel (state : ReadState) (n : Nat) (placeholder obj : Obj) (backrefsBefore : Nat) :
    ReadState :=
  let state := { state with labels := rebind state.labels n obj }
  if backrefsBefore < state.backrefs ∧ obj ≠ placeholder then
    let patched := readerPatchLabels state.heap obj placeholder obj
    { state with heap := patched.1, withinLimits := state.withinLimits && patched.2 }
  else
    state

mutual

/-- `read_expr`, and `none` for a reader error. -/
def readExpr : Datum → ReadState → Option (Obj × ReadState)
  | .nil, state => some (.nil, state)
  | .atom value, state => some (.atom value, state)
  | .list first rest, state =>
      match readExpr first state with
      | none => none
      | some (elem, state) =>
          let cell := state.alloc (.cons elem .nil)
          match readRest rest state.heap.length cell.2 with
          | none => none
          | some state => some (cell.1, state)
  | .vector elements, state =>
      match readItems elements state with
      | none => none
      | some (data, state) => some (state.alloc (.vector data))
  | .struct arguments, state =>
      match readItems arguments state with
      | none => none
      | some (slots, state) => some (state.alloc (.struct slots))
  | .label n datum, state =>
      -- `read_labeled_object`
      if (state.labels.lookup n).isSome then
        none
      else
        let placeholder := state.alloc (.cons .unbound .nil)
        match readExpr datum
            { placeholder.2 with labels := (n, placeholder.1) :: state.labels } with
        | none => none
        | some (obj, after) => some (obj, closeLabel after n placeholder.1 obj state.backrefs)
  | .reference n, state =>
      -- `read_label_reference`
      match state.labels.lookup n with
      | none => none
      | some val =>
          some (val, if isPlaceholder state.heap val then
            { state with backrefs := state.backrefs + 1 } else state)

/-- `read_list` behind its first element, with the address of `tail`. -/
def readRest : Rest → Nat → ReadState → Option ReadState
  | .close, _, state => some state
  | .dot datum, tail, state =>
      match readExpr datum state with
      | none => none
      | some (elem, state) => some { state with heap := setCdr state.heap tail elem }
  | .more datum rest, tail, state =>
      match readExpr datum state with
      | none => none
      | some (elem, state) =>
          let cell := state.alloc (.cons elem .nil)
          readRest rest state.heap.length
            { cell.2 with heap := setCdr cell.2.heap tail cell.1 }

def readItems : Items → ReadState → Option (List Obj × ReadState)
  | .none, state => some ([], state)
  | .more datum items, state =>
      match readExpr datum state with
      | none => none
      | some (elem, state) =>
          match readItems items state with
          | none => none
          | some (elems, state) => some (elem :: elems, state)

end

def clRead (text : Datum) : Option (Obj × ReadState) :=
  readExpr text ⟨[], [], 0, true⟩

end ClAmiga.Labels
