import ClAmiga.Gc.RootWalk

/-!
# The mark phase

`gc_mark` visits the root slots and drains a stack of marked objects whose
slots are still to be visited.  When the stack is full and cannot grow, an
object stays marked but is not queued, and whole walks of the arena visit the
slots of every marked object again until one of them loses nothing.

The scan of JIT stacks is left out, with the second drain after it kept, and so
is the use mark of a stream's output buffer: neither is part of the precise
trace.  A word the validating drain refuses is no object start, and a slot of a
traced heap holds none.
-/

namespace ClAmiga.Gc

/-- An arena object with the slots the children walk reads, by the names of
the source's structures. -/
inductive HeapObject where
  | cons (car cdr : Nat)
  | symbol (name value function plist package : Nat)
  | string
  | function (name : Nat)
  | closure (bytecode : Nat) (upvalues : List Nat)
  | bytecode (name sourceLambdaList : Nat) (constants : List Nat)
      (keySyms : Option (List Nat))
  | vector (displaced : Bool) (rank length : Nat) (data : List Nat)
  | package (name symbols useList nicknames localNicknames shadowingSymbols
      exportedSymbols bindings : Nat)
  | hashtable (bucketVec : Nat) (buckets : List Nat)
  | condition (typeName slots reportString : Nat)
  | struct (typeDesc : Nat) (slots : List Nat)
  | bignum
  | singleFloat
  | doubleFloat
  | ratio (numerator denominator : Nat)
  | complex (realpart imagpart : Nat)
  | stream (stringBuf elementType : Nat)
  | randomState
  | bitVector
  | pathname (host device directory name type version : Nat)
  | cell (value : Nat)
  | thread (name result : Nat)
  | lock (name : Nat)
  | condvar (name : Nat)
  | foreignPointer
  | restart (name function report interactive test tag : Nat)
  | byteVector
  | ffiStub (name aux : Nat)
  | wideString
deriving DecidableEq, Repr

namespace HeapObject

/-- The tag of `enum CL_ObjType`. -/
def type : HeapObject → Nat
  | cons .. => 0
  | symbol .. => 1
  | string => 2
  | function .. => 3
  | closure .. => 4
  | bytecode .. => 5
  | vector .. => 6
  | package .. => 7
  | hashtable .. => 8
  | condition .. => 9
  | struct .. => 10
  | bignum => 11
  | singleFloat => 12
  | doubleFloat => 13
  | ratio .. => 14
  | complex .. => 15
  | stream .. => 16
  | randomState => 17
  | bitVector => 18
  | pathname .. => 19
  | cell .. => 20
  | thread .. => 21
  | lock .. => 22
  | condvar .. => 23
  | foreignPointer => 24
  | restart .. => 25
  | byteVector => 26
  | ffiStub .. => 27
  | wideString => 28

def boundSlot (obj : Nat) : List Nat :=
  if obj = clUnbound then [] else [obj]

/-- `GC_WALK_OBJ_CHILDREN`: the slots of an object in the order it visits
them. -/
def children : HeapObject → List Nat
  | cons car cdr => [car, cdr]
  | symbol name value definition plist home =>
      [name] ++ boundSlot value ++ boundSlot definition ++ [plist, home]
  | function name => [name]
  | closure code upvalues => code :: upvalues
  | bytecode name sourceLambdaList constants keySyms =>
      [name, sourceLambdaList] ++ constants ++ keySyms.getD []
  | vector displaced rank length data =>
      if displaced then
        -- `CL_DISP_BASE_IDX`: the backing vector, behind the dimensions.
        data[if 1 < rank then rank else 0]?.toList
      else
        data.take (if 1 < rank then rank + length else length)
  | package name symbols useList nicknames localNicknames shadowingSymbols
      exportedSymbols bindings =>
      [name, symbols, useList, nicknames, localNicknames, shadowingSymbols,
        exportedSymbols, bindings]
  | hashtable bucketVec buckets =>
      bucketVec :: if bucketVec ≠ 0 then [] else buckets
  | condition typeName slots reportString => [typeName, slots, reportString]
  | restart name action report interactive test tag =>
      [name, action, report, interactive, test, tag]
  | ffiStub name aux => [name, aux]
  | struct typeDesc slots => typeDesc :: slots
  | stream stringBuf elementType => [stringBuf, elementType]
  | ratio numerator denominator => [numerator, denominator]
  | complex realpart imagpart => [realpart, imagpart]
  | pathname host device directory name type version =>
      [host, device, directory, name, type, version]
  | cell value => [value]
  | thread name result => [name, result]
  | lock name => [name]
  | condvar name => [name]
  | string | bignum | singleFloat | doubleFloat | randomState | bitVector
  | byteVector | foreignPointer | wideString => []

end HeapObject

/-- `GC_LEAF_TYPE_MASK`. -/
def gcLeafTypeMask : Nat :=
  [2, 11, 12, 13, 17, 18, 26, 24, 28].foldl
    (fun mask type => mask ||| 1 <<< type) 0

/-- `GC_TYPE_HAS_CHILDREN`. -/
def gcTypeHasChildren (type : Nat) : Bool :=
  (gcLeafTypeMask >>> (type &&& 31)) &&& 1 == 0

theorem children_of_leaf (object : HeapObject)
    (leaf : gcTypeHasChildren object.type = false) : object.children = [] := by
  cases object <;>
    first
      | rfl
      | exact absurd leaf (by simp only [HeapObject.type]; decide)

structure Heap (host : Host) where
  arena : Arena host
  arenaSize : Nat
  object : Nat → HeapObject

/-- A word that refers to an arena object: no immediate, and in range. -/
def Heap.isReference {host : Host} (heap : Heap host) (obj : Nat) : Bool :=
  decide (obj &&& 3 = 0 ∧ obj ≠ 0 ∧ obj < heap.arenaSize)

inductive Heap.Reachable {host : Host} (heap : Heap host) (roots : List Nat) :
    Nat → Prop where
  | root {obj : Nat} (member : obj ∈ roots)
      (reference : heap.isReference obj = true) : heap.Reachable roots obj
  | child {parent obj : Nat} (reached : heap.Reachable roots parent)
      (member : obj ∈ (heap.object parent).children)
      (reference : heap.isReference obj = true) : heap.Reachable roots obj

/-- The values of the root slots in the order of the mark phase: the threads,
the registered slots, the shared tables. -/
def rootValues (process : Process) (layout : Layout) (memory : Memory) :
    List Nat :=
  (visited layout memory (stepsOf process.threadSegments) ++
    process.registered ++
    visited layout memory (stepsOf process.sharedSegments)).map memory

/-- A heap with its root slots, in which what is reachable starts a block. -/
structure TracedHeap (host : Host) extends Heap host where
  process : Process
  layout : Layout
  memory : Memory
  closed : ∀ obj, toHeap.Reachable (rootValues process layout memory) obj →
    obj ∈ arena.blocks.map Block.off

def TracedHeap.roots {host : Host} (heap : TracedHeap host) : List Nat :=
  rootValues heap.process heap.layout heap.memory

/-- The mark bits, the stack with its top first, its capacity, the two latches
of a cycle, and how many buffers were asked for. -/
structure MarkState where
  marked : List Nat
  stack : List Nat
  cap : Nat
  growFailed : Bool
  overflow : Bool
  requests : Nat
deriving DecidableEq, Repr

/-- What bounds the stack: `gc_mark_stack_test_limit`, and which requests for a
larger buffer `platform_alloc` grants. -/
structure Growth where
  testLimit : Nat
  granted : Nat → Bool

/-- `CL_GC_MARK_STACK_SIZE`. -/
def gcMarkStackSize : Nat := 4096

/-- The `max_cap` of `gc_mark_stack_grow`. -/
def gcMarkStackMaxCap (arenaSize testLimit : Nat) : Nat :=
  let maxCap := max (arenaSize / 128) gcMarkStackSize
  if testLimit ≠ 0 ∧ testLimit < maxCap then testLimit else maxCap

/-- `gc_mark_stack_grow`: whether the stack has grown.  The bound is at most
`2 ^ 25`, so the doubling does not wrap. -/
def gcMarkStackGrow (arenaSize : Nat) (growth : Growth) (state : MarkState) :
    Bool × MarkState :=
  if state.growFailed then
    (false, state)
  else
    let maxCap := gcMarkStackMaxCap arenaSize growth.testLimit
    if maxCap ≤ state.cap then
      (false, { state with growFailed := true })
    else if growth.granted state.requests then
      (true, { state with
        cap := min (state.cap * 2) maxCap
        requests := state.requests + 1 })
    else
      (false, { state with
        growFailed := true
        requests := state.requests + 1 })

section Trace

variable {host : Host} (heap : Heap host) (growth : Growth)

/-- `gc_mark_visit`. -/
def gcMarkVisit (state : MarkState) (obj : Nat) : MarkState :=
  if obj &&& 3 ≠ 0 ∨ obj = 0 then
    state
  else if heap.arenaSize ≤ obj then
    state
  else if obj ∈ state.marked then
    state
  else
    let state := { state with marked := obj :: state.marked }
    if gcTypeHasChildren (heap.object obj).type = false then
      state
    else if state.stack.length < state.cap then
      { state with stack := obj :: state.stack }
    else
      match gcMarkStackGrow heap.arenaSize growth state with
      | (true, state) => { state with stack := obj :: state.stack }
      | (false, state) => { state with overflow := true }

/-- `gc_mark_children`. -/
def gcMarkChildren (state : MarkState) (obj : Nat) : MarkState :=
  (heap.object obj).children.foldl (gcMarkVisit heap growth) state

/-- One turn of `gc_mark_drain`, which scans a cons in line. -/
def gcMarkScan (state : MarkState) (obj : Nat) : MarkState :=
  match heap.object obj with
  | .cons car cdr =>
      gcMarkVisit heap growth (gcMarkVisit heap growth state car) cdr
  | _ => gcMarkChildren heap growth state obj

/-- `gc_mark_drain`, with fuel for its loop. -/
def gcMarkDrain : Nat → MarkState → Option MarkState
  | 0, _ => none
  | fuel + 1, state =>
      match state.stack with
      | [] => some state
      | obj :: stack =>
          gcMarkDrain fuel (gcMarkScan heap growth { state with stack } obj)

def gcMarkRescan (state : MarkState) (block : Block) : MarkState :=
  if block.off ∈ state.marked then
    gcMarkChildren heap growth state block.off
  else
    state

/-- The overflow loop of `gc_mark`, with fuel for it and for its drains. -/
def gcMarkRecover (drainFuel : Nat) : Nat → MarkState → Option MarkState
  | 0, _ => none
  | fuel + 1, state =>
      if state.overflow then
        let state := { state with overflow := false }
        let state := heap.arena.blocks.foldl (gcMarkRescan heap growth) state
        match gcMarkDrain heap growth drainFuel state with
        | none => none
        | some state => gcMarkRecover drainFuel fuel state
      else
        some state

end Trace

/-- `gc_mark` on a heap without marks, with a stack of the given capacity. -/
def gcMark {host : Host} (heap : TracedHeap host) (growth : Growth)
    (cap fuel : Nat) : Option MarkState :=
  let state := heap.roots.foldl (gcMarkVisit heap.toHeap growth)
    ⟨[], [], cap, false, false, 0⟩
  match gcMarkDrain heap.toHeap growth fuel state with
  | none => none
  | some state =>
      match gcMarkDrain heap.toHeap growth fuel state with
      | none => none
      | some state =>
          gcMarkRecover heap.toHeap growth fuel fuel state

end ClAmiga.Gc
