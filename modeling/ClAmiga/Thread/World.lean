import Mathlib.Logic.Function.Basic
import Mathlib.Tactic.Simps.Basic

/-!
# Stopping the world

The threads of the system and the flags by which a collector stops them, one
step for each action of a thread on shared state.  A section of the source under
`cl_thread_list_lock` is one step, as that lock is held over the whole of it; all
other flags are written with `gc_mutex` held, whose holder is part of the state.
A wait on `gc_condvar` may end at any time, so that every wakeup of the source,
spurious ones included, is a step here.
-/

namespace ClAmiga.Thread

/-- The function `cl_gc_safepoint` returns to. -/
inductive Caller where
  | lisp
  | stop
  deriving DecidableEq, Repr

/-- The functions that lock `gc_mutex`, apart from `cl_gc_stop_the_world`. -/
inductive Section (Tid : Type) where
  | registerEx (target : Tid) (live : Bool)
  | unregister (target : Tid)
  | safepoint (caller : Caller)
  | enterSafeRegion
  | leaveSafeRegion
  | threadOnline
  deriving DecidableEq, Repr

inductive Pc (Tid : Type) where
  /-- not registered, and not known to the system -/
  | absent
  /-- about to be registered by another thread -/
  | reserved
  /-- registered by its parent, before `cl_gc_thread_online` -/
  | newborn
  | lisp
  /-- in a blocking call inside a safe region -/
  | safe
  /-- `platform_mutex_lock(gc_mutex)` -/
  | lock (f : Section Tid)
  | body (f : Section Tid)
  /-- the second half of `cl_thread_register_ex` -/
  | check (f : Section Tid)
  /-- `while (self->gc_requested)` -/
  | park (f : Section Tid)
  /-- `platform_condvar_wait(gc_condvar, gc_mutex)` -/
  | wait (f : Section Tid)
  | finish (f : Section Tid)
  | unlock (f : Section Tid)
  /-- the list section of `cl_thread_unregister` -/
  | unlink (target : Tid)
  /-- `platform_mutex_trylock(gc_mutex)` in `cl_gc_stop_the_world` -/
  | tryLock
  | won
  | giveUp
  | retry
  | setFlag
  | request
  | scan
  /-- the initiator waiting for a straggler -/
  | straggler
  /-- `cl_gc_stop_the_world` has returned -/
  | stopped
  | clear
  | unset
  | resume
  deriving DecidableEq, Repr

structure World (Tid : Type) where
  /-- `cl_thread_list` -/
  list : List Tid
  gcLive : Tid → Bool
  gcRequested : Tid → Bool
  gcStopped : Tid → Bool
  inSafeRegion : Tid → Bool
  safeRegionDepth : Tid → Nat
  stwInProgress : Bool
  /-- the holder of `gc_mutex` -/
  gcMutex : Option Tid
  pc : Tid → Pc Tid

inductive Op (Tid : Type) where
  | poll
  | enter
  | leave
  | stop
  | makeThread (child : Tid)
  | registerFor (other : Tid)
  | registerSelf
  | exit
  | reap (child : Tid)
  deriving DecidableEq, Repr

variable {Tid : Type} [DecidableEq Tid]

namespace World

variable (w : World Tid)

@[simps]
def goto (t : Tid) (pc : Pc Tid) : World Tid :=
  { w with pc := Function.update w.pc t pc }

@[simps]
def setRequested (t : Tid) (value : Bool) : World Tid :=
  { w with gcRequested := Function.update w.gcRequested t value }

@[simps]
def setStopped (t : Tid) (value : Bool) : World Tid :=
  { w with gcStopped := Function.update w.gcStopped t value }

@[simps]
def setSafe (t : Tid) (value : Bool) : World Tid :=
  { w with inSafeRegion := Function.update w.inSafeRegion t value }

@[simps]
def setLive (t : Tid) (value : Bool) : World Tid :=
  { w with gcLive := Function.update w.gcLive t value }

@[simps]
def setDepth (t : Tid) (value : Nat) : World Tid :=
  { w with safeRegionDepth := Function.update w.safeRegionDepth t value }

end World

def lispStep (w : World Tid) (t : Tid) : Op Tid → Option (World Tid)
  | .poll => if w.gcRequested t then some (w.goto t (.lock (.safepoint .lisp))) else some w
  | .enter =>
      if w.safeRegionDepth t > 0 then some (w.setDepth t (w.safeRegionDepth t + 1))
      else some ((w.setDepth t 1).goto t (.lock .enterSafeRegion))
  | .leave =>
      if w.safeRegionDepth t > 1 then some (w.setDepth t (w.safeRegionDepth t - 1))
      else some ((w.setDepth t 0).goto t (.lock .leaveSafeRegion))
  | .stop => some (w.goto t .tryLock)
  | .makeThread child =>
      if w.pc child = .absent then
        some ((w.goto child .reserved).goto t (.lock (.registerEx child false)))
      else none
  | .registerFor other =>
      if w.pc other = .absent then
        some ((w.goto other .reserved).goto t (.lock (.registerEx other true)))
      else none
  | .exit => some (w.goto t (.unlink t))
  | .reap child =>
      -- the parent gives up on a child whose OS thread could not be created
      if w.pc child = .newborn then
        some ((w.goto child .reserved).goto t (.unlink child))
      else none
  | .registerSelf => none

def safeStep (w : World Tid) (t : Tid) : Op Tid → Option (World Tid)
  | .enter => some (w.setDepth t (w.safeRegionDepth t + 1))
  | .leave =>
      if w.safeRegionDepth t > 1 then some (w.setDepth t (w.safeRegionDepth t - 1))
      else some ((w.setDepth t 0).goto t (.lock .leaveSafeRegion))
  | _ => none

/-- The first writes of a section, `gc_mutex` held. -/
def bodyStep (w : World Tid) (t : Tid) : Section Tid → World Tid
  | .registerEx target live =>
      let w := { w.setLive target live with list := target :: w.list }
      let w := if target = t then w else w.goto target (if live then .lisp else .newborn)
      w.goto t (.check (.registerEx target live))
  | .unregister target => w.goto t (.unlock (.unregister target))
  | .safepoint caller => (w.setStopped t true).goto t (.park (.safepoint caller))
  | .enterSafeRegion => (w.setSafe t true).goto t (.unlock .enterSafeRegion)
  | .leaveSafeRegion => w.goto t (.park .leaveSafeRegion)
  | .threadOnline =>
      let w := if w.stwInProgress then w.setRequested t true else w
      w.goto t (.park .threadOnline)

def finishStep (w : World Tid) (t : Tid) (f : Section Tid) : World Tid :=
  let w := w.setStopped t false
  let w :=
    match f with
    | .leaveSafeRegion => w.setSafe t false
    | .threadOnline => w.setLive t true
    | _ => w
  w.goto t (.unlock f)

def afterSection (t : Tid) : Section Tid → Pc Tid
  | .registerEx _ _ => .lisp
  | .unregister target => if target = t then .absent else .lisp
  | .safepoint .lisp => .lisp
  | .safepoint .stop => .tryLock
  | .enterSafeRegion => .safe
  | .leaveSafeRegion => .lisp
  | .threadOnline => .lisp

/-- `for (t = cl_thread_list; t; t = t->next) if (t != self) t->gc_requested = 1;` -/
@[simps]
def requestAll (self : Tid) (w : World Tid) : World Tid :=
  { w with gcRequested := fun t => w.gcRequested t || decide (t ∈ w.list ∧ t ≠ self) }

@[simps]
def clearAll (w : World Tid) : World Tid :=
  { w with gcRequested := fun t => w.gcRequested t && decide (t ∉ w.list) }

/-- One scan of the list for a straggler: the flags it leaves, and whether all
were stopped. -/
def scanList (self : Tid) : List Tid → World Tid → World Tid × Bool
  | [], w => (w, true)
  | t :: ts, w =>
      let w :=
        if t ≠ self ∧ w.gcLive t = true ∧ w.gcRequested t = false then
          w.setRequested t true
        else w
      if t ≠ self ∧ w.gcLive t = true ∧ w.gcRequested t = true ∧
          w.gcStopped t = false ∧ w.inSafeRegion t = false then (w, false)
      else scanList self ts w

/-- One step of thread `t`; absent when the thread cannot take it now. -/
def next (w : World Tid) (t : Tid) (op : Op Tid) : Option (World Tid) :=
  match w.pc t with
  | .absent =>
      if op = .registerSelf then some (w.goto t (.lock (.registerEx t true))) else none
  | .reserved => none
  | .newborn => some (w.goto t (.lock .threadOnline))
  | .lisp => lispStep w t op
  | .safe => safeStep w t op
  | .lock f =>
      if w.gcMutex = none then some ({ w with gcMutex := some t }.goto t (.body f)) else none
  | .body f => some (bodyStep w t f)
  | .check (.registerEx target live) =>
      if live = true ∧ w.stwInProgress = true then
        let w := w.setRequested target true
        some (w.goto t (if target = t then .park (.registerEx target live)
          else .unlock (.registerEx target live)))
      else some (w.goto t (.unlock (.registerEx target live)))
  | .check _ => none
  | .park f =>
      if w.gcRequested t then
        some ({ w.setStopped t true with gcMutex := none }.goto t (.wait f))
      else some (w.goto t (.finish f))
  | .wait f =>
      if w.gcMutex = none then some ({ w with gcMutex := some t }.goto t (.park f)) else none
  | .finish f => some (finishStep w t f)
  | .unlock f => some ({ w with gcMutex := none }.goto t (afterSection t f))
  | .unlink target =>
      let w := { w with list := w.list.erase target }
      let w := if target = t then w else w.goto target .absent
      some (w.goto t (.lock (.unregister target)))
  | .tryLock =>
      if w.gcMutex = none then some ({ w with gcMutex := some t }.goto t .won)
      else some (w.goto t .retry)
  | .won =>
      if w.stwInProgress = false ∧ w.gcRequested t = false then some (w.goto t .setFlag)
      else some ((w.setRequested t true).goto t .giveUp)
  | .giveUp => some ({ w with gcMutex := none }.goto t .retry)
  | .retry =>
      if w.gcRequested t then some (w.goto t (.lock (.safepoint .stop)))
      else some (w.goto t .tryLock)
  | .setFlag => some ({ w with stwInProgress := true }.goto t .request)
  | .request => some ((requestAll t w).goto t .scan)
  | .scan =>
      let (w, allStopped) := scanList t w.list w
      if allStopped then some (w.goto t .stopped)
      else some ({ w with gcMutex := none }.goto t .straggler)
  | .straggler =>
      if w.gcMutex = none then some ({ w with gcMutex := some t }.goto t .scan) else none
  | .stopped => some (w.goto t .clear)
  | .clear => some ((clearAll w).goto t .unset)
  | .unset => some ({ w with stwInProgress := false }.goto t .resume)
  | .resume => some ({ w with gcMutex := none }.goto t .lisp)

/-- The system as `cl_thread_init` leaves it: the main thread alone. -/
def World.initial (main : Tid) : World Tid where
  list := [main]
  gcLive := fun t => decide (t = main)
  gcRequested := fun _ => false
  gcStopped := fun _ => false
  inSafeRegion := fun _ => false
  safeRegionDepth := fun _ => 0
  stwInProgress := false
  gcMutex := none
  pc := fun t => if t = main then .lisp else .absent

def runSchedule (w : World Tid) : List (Tid × Op Tid) → Option (World Tid)
  | [] => some w
  | (t, op) :: rest => (next w t op).bind (runSchedule · rest)

inductive Reachable (main : Tid) : World Tid → Prop where
  | initial : Reachable main (World.initial main)
  | step {w w' : World Tid} (before : Reachable main w) (t : Tid) (op : Op Tid)
      (steps : next w t op = some w') : Reachable main w'

end ClAmiga.Thread
