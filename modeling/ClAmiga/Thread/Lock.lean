import Mathlib.Logic.Function.Basic
import Mathlib.Tactic.Simps.Basic

/-!
# The MP lock

One lock word and the threads that acquire and release it, one step for each
access to the word, to a wait registration or to a park token.  The word is free,
or holds its owner and the `CONTENDED` bit; a scan of the thread list runs under
`cl_thread_list_lock` and is one step, as is a registration.  A park may end at
any time, so that every wakeup of the source, timeouts and spurious ones included,
is a step here.
-/

namespace ClAmiga.Lock

/-- The locals of `lock_acquire_slow` that live across its loop. -/
structure Loop where
  spins : Nat
  timed : Bool
  deriving DecidableEq, Repr

inductive Leave where
  | timeout
  | interrupt
  deriving DecidableEq, Repr

inductive Reason where
  /-- the lock was free when the waiter looked -/
  | free
  | leave (why : Leave)
  /-- `wait_park` has returned -/
  | awake
  deriving DecidableEq, Repr

/-- What goes on after `lock_wake_one`. -/
inductive After where
  | release
  | abandon (l : Loop) (why : Leave)
  deriving DecidableEq, Repr

inductive Pc (Tid : Type) where
  | absent
  /-- outside the lock's code, maybe in an interrupt handler -/
  | lisp
  /-- the fast path of `bi_acquire_lock` has failed -/
  | contend (wait : Bool) (timeout : Option Nat)
  /-- `lk->depth = 1` -/
  | setDepth
  /-- the head of the loop of `lock_acquire_slow` -/
  | top (l : Loop)
  /-- `platform_atomic_cas(&lk->state, 0, want)` -/
  | take (l : Loop)
  | enlist (l : Loop)
  | mark (l : Loop)
  | markCas (l : Loop) (owner : Tid)
  | beforePark (l : Loop)
  | park (l : Loop)
  /-- the short sleep of a thread without a park handle -/
  | sleep (l : Loop)
  | deregister (l : Loop) (reason : Reason)
  | abandon (l : Loop) (why : Leave)
  | abandonCas (l : Loop) (why : Leave) (owner : Tid)
  | wake (after : After)
  | releaseRead
  | releaseCas (owner : Tid)
  /-- `lk->state = 0` of a contended release -/
  | store
  deriving DecidableEq, Repr

structure World (Tid : Type) where
  /-- `cl_thread_list` -/
  list : List Tid
  /-- `lk->state`: the owner and `CL_LOCK_CONTENDED` -/
  state : Option (Tid × Bool)
  depth : UInt32
  /-- `wait_kind == 3 && wait_obj == lock_obj` -/
  waiting : Tid → Bool
  /-- an unpark that no park has consumed yet -/
  token : Tid → Bool
  /-- the acquires an interrupt handler runs on top of -/
  suspended : Tid → List Loop
  pc : Tid → Pc Tid
  /-- history: the acquires that succeeded, less the releases -/
  held : Tid → Nat
  /-- history: `lk->depth++` has wrapped -/
  overflowed : Bool

inductive Op where
  | go
  | register
  | exit
  | acquire (wait : Bool) (timeout : Option Nat)
  | release
  /-- `interrupt_pending` is set here -/
  | interrupt
  /-- the deadline has passed here -/
  | timeout
  /-- an interrupt handler returns -/
  | resume
  /-- an interrupt handler leaves by `longjmp` -/
  | unwind
  deriving DecidableEq, Repr

variable {Tid : Type} [DecidableEq Tid]

namespace World

variable (w : World Tid)

/-- `LOCK_OWNER_OF(lk->state)` -/
def owner : Option Tid :=
  w.state.map Prod.fst

@[simps]
def goto (t : Tid) (pc : Pc Tid) : World Tid :=
  { w with pc := Function.update w.pc t pc }

@[simps]
def setWaiting (t : Tid) (value : Bool) : World Tid :=
  { w with waiting := Function.update w.waiting t value }

@[simps]
def setToken (t : Tid) (value : Bool) : World Tid :=
  { w with token := Function.update w.token t value }

@[simps]
def setHeld (t : Tid) (value : Nat) : World Tid :=
  { w with held := Function.update w.held t value }

@[simps]
def setSuspended (t : Tid) (value : List Loop) : World Tid :=
  { w with suspended := Function.update w.suspended t value }

end World

section Code

/- `CL_LOCK_SPIN_YIELDS`, the kind of the lock, and the threads with a park handle. -/
variable (spinYields : Nat) (recursive : Bool) (hasPark : Tid → Bool)

def lispStep (w : World Tid) (t : Tid) : Op → Option (World Tid)
  | .acquire wait timeout =>
      match w.state with
      | none => some (({ w with state := some (t, false) }.setHeld t
          (w.held t + 1)).goto t .setDepth)
      | some _ => some (w.goto t (.contend wait timeout))
  | .release =>
      if w.owner ≠ some t then some w
      else if w.depth > 1 then some ({ w with depth := w.depth - 1 }.setHeld t (w.held t - 1))
      else some ({ w with depth := 0 }.goto t .releaseRead)
  | .exit =>
      if w.suspended t = [] then
        some ({ w with list := w.list.erase t }.goto t .absent)
      else none
  | .resume =>
      match w.suspended t with
      | [] => none
      | l :: rest => some ((w.setSuspended t rest).goto t (.top l))
  | .unwind =>
      match w.suspended t with
      | [] => none
      | _ :: rest => some (w.setSuspended t rest)
  | _ => none

/-- `bi_acquire_lock` after the fast path. -/
def contendStep (w : World Tid) (t : Tid) (wait : Bool) (timeout : Option Nat) : World Tid :=
  if w.owner = some t then
    if recursive then
      ({ w with
          depth := w.depth + 1
          overflowed := w.overflowed || decide (w.depth + 1 = 0) }.setHeld t
        (w.held t + 1)).goto t .lisp
    else w.goto t .lisp
  else if wait = false ∨ timeout = some 0 then w.goto t .lisp
  else w.goto t (.top ⟨0, timeout.isSome⟩)

/-- The head of the loop: take a free lock, spin, or register. -/
def topStep (w : World Tid) (t : Tid) (l : Loop) (op : Op) : World Tid :=
  match w.state with
  | none => w.goto t (.take l)
  | some _ =>
      if l.spins < spinYields then
        let l := { l with spins := l.spins + 1 }
        if op = .interrupt then (w.setSuspended t (l :: w.suspended t)).goto t .lisp
        else w.goto t (.top l)
      else w.goto t (.enlist l)

/-- Past the spin phase the lock is taken with `CONTENDED`. -/
def takeStep (w : World Tid) (t : Tid) (l : Loop) : World Tid :=
  match w.state with
  | none =>
      ({ w with state := some (t, decide (spinYields ≤ l.spins)) }.setHeld t
        (w.held t + 1)).goto t .setDepth
  | some _ => w.goto t (.top l)

def afterDeregister (l : Loop) (op : Op) : Reason → Pc Tid
  | .free => .top l
  | .leave why => .abandon l why
  | .awake => if op = .interrupt then .abandon l .interrupt else .top l

/-- `lock_abandon_wait` has returned: a timeout ends the acquire, an interrupt runs
its handler on top of it. -/
def leaveStep (w : World Tid) (t : Tid) (l : Loop) : Leave → World Tid
  | .timeout => w.goto t .lisp
  | .interrupt => (w.setSuspended t (l :: w.suspended t)).goto t .lisp

/-- The thread `lock_wake_one` finds. -/
def firstWaiter (w : World Tid) (except : Option Tid) : Option Tid :=
  w.list.find? fun t => decide (some t ≠ except) && w.waiting t

/-- `platform_unpark` of the thread found, when it has a handle. -/
def unpark (w : World Tid) : Option Tid → World Tid
  | none => w
  | some t => if hasPark t then w.setToken t true else w

def afterWake (w : World Tid) (t : Tid) : After → World Tid
  | .release => w.goto t .lisp
  | .abandon l why => leaveStep w t l why

/-- The thread `lock_wake_one` must not find. -/
def After.except (t : Tid) : After → Option Tid
  | .release => none
  | .abandon _ _ => some t

/-- One step of thread `t`; absent when the thread cannot take it now. -/
def next (w : World Tid) (t : Tid) (op : Op) : Option (World Tid) :=
  match w.pc t with
  | .absent =>
      if op = .register then some ({ w with list := t :: w.list }.goto t .lisp) else none
  | .lisp => lispStep w t op
  | .contend wait timeout => some (contendStep recursive w t wait timeout)
  | .setDepth => some ({ w with depth := 1 }.goto t .lisp)
  | .top l => some (topStep spinYields w t l op)
  | .take l => some (takeStep spinYields w t l)
  | .enlist l => some ((w.setWaiting t true).goto t (.mark l))
  | .mark l =>
      match w.state with
      | none => some (w.goto t (.deregister l .free))
      | some (_, true) => some (w.goto t (.beforePark l))
      | some (owner, false) => some (w.goto t (.markCas l owner))
  | .markCas l owner =>
      if w.state = some (owner, false) then
        some ({ w with state := some (owner, true) }.goto t (.beforePark l))
      else some (w.goto t (.mark l))
  | .beforePark l =>
      match op with
      | .interrupt => some (w.goto t (.deregister l (.leave .interrupt)))
      | .timeout => if l.timed then some (w.goto t (.deregister l (.leave .timeout))) else none
      | _ => some (w.goto t (if hasPark t then .park l else .sleep l))
  | .park l => some ((w.setToken t false).goto t (.deregister l .awake))
  | .sleep l => some (w.goto t (.deregister l .awake))
  | .deregister l reason => some ((w.setWaiting t false).goto t (afterDeregister l op reason))
  | .abandon l why =>
      match w.state with
      | none => some (w.goto t (.wake (.abandon l why)))
      | some (_, true) => some (leaveStep w t l why)
      | some (owner, false) => some (w.goto t (.abandonCas l why owner))
  | .abandonCas l why owner =>
      if w.state = some (owner, false) then
        some (leaveStep { w with state := some (owner, true) } t l why)
      else some (w.goto t (.abandon l why))
  | .wake after => some (afterWake (unpark hasPark w (firstWaiter w (after.except t))) t after)
  | .releaseRead =>
      match w.state with
      | some (owner, false) => some (w.goto t (.releaseCas owner))
      | _ => some (w.goto t .store)
  | .releaseCas owner =>
      if w.state = some (owner, false) then
        some (({ w with state := none }.setHeld t (w.held t - 1)).goto t .lisp)
      else some (w.goto t .store)
  | .store => some (({ w with state := none }.setHeld t (w.held t - 1)).goto t (.wake .release))

end Code

def World.initial : World Tid where
  list := []
  state := none
  depth := 0
  waiting := fun _ => false
  token := fun _ => false
  suspended := fun _ => []
  pc := fun _ => .absent
  held := fun _ => 0
  overflowed := false

inductive Reachable (spinYields : Nat) (recursive : Bool) (hasPark : Tid → Bool) :
    World Tid → Prop where
  | initial : Reachable spinYields recursive hasPark World.initial
  | step {w w' : World Tid} (before : Reachable spinYields recursive hasPark w) (t : Tid) (op : Op)
      (steps : next spinYields recursive hasPark w t op = some w') :
      Reachable spinYields recursive hasPark w'

def runSchedule (spinYields : Nat) (recursive : Bool) (hasPark : Tid → Bool) (w : World Tid) :
    List (Tid × Op) → Option (World Tid)
  | [] => some w
  | (t, op) :: rest =>
      (next spinYields recursive hasPark w t op).bind
        (runSchedule spinYields recursive hasPark · rest)

end ClAmiga.Lock
