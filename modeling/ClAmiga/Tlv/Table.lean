import ClAmiga.Probe.Update

/-!
# Thread-local values

The thread-local value table of a thread, its dynamic binding stack and the operations on
them.  The table is keyed by the addresses of symbols, which a compaction changes: it
forwards the keys in place, and `cl_tlv_rehash` rebuilds the table.  A key of NIL is an
unused slot, a key of CL_UNBOUND a deleted one.
-/

namespace ClAmiga.Tlv

open Probe (Slot Slots put)

/-- `CL_TLV_TABLE_SIZE`. -/
def tlvTableSize : Nat := 256

/-- `CL_MAX_DYN_BINDINGS`. -/
def maxDynBindings : Nat := 4096

def tlvHash (sym : Nat) : Nat :=
  (sym >>> 2) % tlvTableSize

/-- The table with its entry count, and the binding stack, top first: the address of a
symbol and its old value, absent for `CL_TLV_ABSENT`. -/
structure Thread (α : Type) where
  tlvTable : Slots Nat α
  tlvEntryCount : Nat
  dynStack : List (Nat × Option α)

variable {σ α : Type}

/-- `cl_tlv_get`. -/
def clTlvGet (t : Thread α) (sym : Nat) : Option α :=
  Probe.lookup t.tlvTable tlvTableSize (tlvHash sym) sym 0 tlvTableSize

/-- `cl_tlv_set`. -/
def clTlvSet (t : Thread α) (sym : Nat) (val : α) : Thread α :=
  match Probe.target t.tlvTable tlvTableSize (tlvHash sym) sym 0 tlvTableSize none with
  | .found slot => { t with tlvTable := put t.tlvTable slot (.entry sym val) }
  | .vacant slot =>
      { t with
        tlvTable := put t.tlvTable slot (.entry sym val)
        tlvEntryCount := t.tlvEntryCount + 1 }
  | .full => t

/-- `cl_tlv_remove`. -/
def clTlvRemove (t : Thread α) (sym : Nat) : Thread α :=
  match Probe.position t.tlvTable tlvTableSize (tlvHash sym) sym 0 tlvTableSize with
  | some slot =>
      { t with
        tlvTable := put t.tlvTable slot .deleted
        tlvEntryCount := t.tlvEntryCount - 1 }
  | none => t

def entryOf : Slot Nat α → Option (Nat × α)
  | .entry sym val => some (sym, val)
  | _ => none

def live (table : Slots Nat α) : List (Nat × α) :=
  (List.range tlvTableSize).filterMap fun slot => entryOf (table slot)

/-- `cl_tlv_rehash`. -/
def clTlvRehash (t : Thread α) : Thread α :=
  if t.tlvEntryCount = 0 then t
  else
    (live t.tlvTable).foldl (fun t entry => clTlvSet t entry.1 entry.2)
      { t with tlvTable := fun _ => .empty, tlvEntryCount := 0 }

structure Addresses (σ : Type) where
  address : σ → Nat
  injective : Function.Injective address

structure Forwarding where
  address : Nat → Nat
  injective : Function.Injective address

def Addresses.forward (addresses : Addresses σ) (forwarding : Forwarding) : Addresses σ where
  address sym := forwarding.address (addresses.address sym)
  injective := forwarding.injective.comp addresses.injective

/-- A thread, the addresses of the symbols, and their global values. -/
structure State (σ α : Type) where
  thread : Thread α
  addresses : Addresses σ
  global : σ → α

section Operations

variable [DecidableEq σ]

def State.setGlobal (state : State σ α) (sym : σ) (val : α) : State σ α :=
  { state with global := fun other => if other = sym then val else state.global other }

/-- `cl_symbol_value`. -/
def clSymbolValue (state : State σ α) (sym : σ) : α :=
  if state.thread.tlvEntryCount > 0 then
    match clTlvGet state.thread (state.addresses.address sym) with
    | some val => val
    | none => state.global sym
  else
    state.global sym

/-- `cl_set_symbol_value`. -/
def clSetSymbolValue (state : State σ α) (sym : σ) (val : α) : State σ α :=
  if state.thread.tlvEntryCount > 0 then
    match clTlvGet state.thread (state.addresses.address sym) with
    | some _ =>
        { state with thread := clTlvSet state.thread (state.addresses.address sym) val }
    | none => state.setGlobal sym val
  else
    state.setGlobal sym val

/-- `cl_dynbind_c` and the binding of `OP_DYNBIND`; an overflow error changes nothing. -/
def clDynbind (t : Thread α) (sym : Nat) (val : α) : Thread α :=
  if maxDynBindings ≤ t.dynStack.length then t
  else clTlvSet { t with dynStack := (sym, clTlvGet t sym) :: t.dynStack } sym val

/-- One round of the loop of `cl_dynbind_restore_to`. -/
def popBinding (t : Thread α) : Thread α :=
  match t.dynStack with
  | [] => t
  | (sym, none) :: below => clTlvRemove { t with dynStack := below } sym
  | (sym, some val) :: below => clTlvSet { t with dynStack := below } sym val

/-- `cl_dynbind_restore_to`. -/
def clDynbindRestoreTo (t : Thread α) (mark : Nat) : Thread α :=
  popBinding^[t.dynStack.length - mark] t

/-- A compaction changes the key of an entry in its slot. -/
def forwardSlot (forwarding : Forwarding) : Slot Nat α → Slot Nat α
  | .entry sym val => .entry (forwarding.address sym) val
  | other => other

/-- What a compaction does to a thread: symbols are forwarded in the table and on the
binding stack, and the table is rehashed. -/
def collectThread (t : Thread α) (forwarding : Forwarding) : Thread α :=
  clTlvRehash
    { t with
      tlvTable := fun slot => forwardSlot forwarding (t.tlvTable slot)
      dynStack := t.dynStack.map fun binding => (forwarding.address binding.1, binding.2) }

/-- An operation: a binding, an assignment, the end of bindings down to a mark, an
assignment of a global value by another thread, and a compaction. -/
inductive Op (σ α : Type) where
  | bind (sym : σ) (val : α)
  | assign (sym : σ) (val : α)
  | restore (mark : Nat)
  | assignElsewhere (sym : σ) (val : α)
  | collect (forwarding : Forwarding)

def step (state : State σ α) : Op σ α → State σ α
  | .bind sym val =>
      { state with thread := clDynbind state.thread (state.addresses.address sym) val }
  | .assign sym val => clSetSymbolValue state sym val
  | .restore mark => { state with thread := clDynbindRestoreTo state.thread mark }
  | .assignElsewhere sym val => state.setGlobal sym val
  | .collect forwarding =>
      { state with
        thread := collectThread state.thread forwarding
        addresses := state.addresses.forward forwarding }

def run (state : State σ α) (ops : List (Op σ α)) : State σ α :=
  ops.foldl step state

def State.initial (addresses : Addresses σ) (global : σ → α) : State σ α where
  thread := { tlvTable := fun _ => .empty, tlvEntryCount := 0, dynStack := [] }
  addresses := addresses
  global := global

end Operations

end ClAmiga.Tlv
