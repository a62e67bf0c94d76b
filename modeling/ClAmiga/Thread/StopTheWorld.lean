import Mathlib.Tactic.MkIffOfInductiveProp
import ClAmiga.Thread.World

/-!
# One initiator, and a stopped world

The invariant of the thread system.  Every flag a collector reads is written
with `gc_mutex` held, and a position of a thread says what its flags may be; so
the one scan that found all threads stopped stays true until `gc_mutex` is
given up.
-/

namespace ClAmiga.Thread

variable {Tid : Type} {pc : Pc Tid} {target : Tid} {op : Op Tid}

namespace Pc

/-- The positions of a thread that holds `gc_mutex`. -/
def holds : Pc Tid → Bool
  | .body _ | .check _ | .park _ | .finish _ | .unlock _ | .won | .giveUp | .setFlag
  | .request | .scan | .stopped | .clear | .unset | .resume => true
  | _ => false

/-- From the assignment of `stw_in_progress` to the assignment that clears it. -/
def inStw : Pc Tid → Bool
  | .request | .scan | .straggler | .stopped | .clear | .unset => true
  | _ => false

/-- The thread has left the loop of `cl_gc_stop_the_world` as the initiator. -/
def initiator : Pc Tid → Bool
  | .setFlag | .resume => true
  | pc => pc.inStw

/-- From the return of `cl_gc_stop_the_world` to the last statement of
`cl_gc_resume_the_world`. -/
def worldStopped : Pc Tid → Bool
  | .stopped | .clear | .unset | .resume => true
  | _ => false

/-- Where `gc_stopped` may be set. -/
def canStop : Pc Tid → Bool
  | .park _ | .wait _ | .finish _ => true
  | _ => false

/-- Where `in_safe_region` may be set. -/
def canBeSafe : Pc Tid → Bool
  | .safe | .unlock .enterSafeRegion | .lock .leaveSafeRegion | .body .leaveSafeRegion
  | .park .leaveSafeRegion | .wait .leaveSafeRegion | .finish .leaveSafeRegion => true
  | _ => false

/-- Where `gc_live` may be clear. -/
def young : Pc Tid → Bool
  | .reserved | .newborn | .lock .threadOnline | .body .threadOnline | .park .threadOnline
  | .wait .threadOnline | .finish .threadOnline => true
  | _ => false

def outside [DecidableEq Tid] (self : Tid) : Pc Tid → Bool
  | .absent => true
  | .lock (.unregister target) | .body (.unregister target) | .park (.unregister target)
  | .wait (.unregister target) | .finish (.unregister target)
  | .unlock (.unregister target) => decide (target = self)
  | _ => false

/-- The thread that is about to be put on the list, and its first `gc_live`. -/
def registers : Pc Tid → Option (Tid × Bool)
  | .lock (.registerEx target live) | .body (.registerEx target live) => some (target, live)
  | _ => none

/-- The thread that is about to be put on the list or taken off it. -/
def claims : Pc Tid → Option Tid
  | .lock (.registerEx target _) | .body (.registerEx target _) | .unlink target => some target
  | _ => none

theorem claims_of_registers {live : Bool}
    (found : pc.registers = some (target, live)) : pc.claims = some target := by
  unfold registers at found
  split at found <;> simp_all [claims]

theorem initiator_of_worldStopped (stopped : pc.worldStopped = true) : pc.initiator = true := by
  cases pc <;> simp_all [worldStopped, initiator, inStw]

theorem initiator_of_inStw (inside : pc.inStw = true) : pc.initiator = true := by
  cases pc <;> simp_all [initiator, inStw]

theorem holds_of_worldStopped (stopped : pc.worldStopped = true) : pc.holds = true := by
  cases pc <;> simp_all [worldStopped, holds]

theorem inStw_of_initiator (initiator : pc.initiator = true)
    (free : pc.holds = false) : pc.inStw = true := by
  cases pc <;> simp_all [Pc.initiator, inStw, holds]

structure Continues (old new : Pc Tid) : Prop where
  present : old ≠ .reserved
  claims : new.claims = none ∨ new.claims = old.claims ∧ new.registers = old.registers
  initiator : new.initiator = true → old.initiator = true
  worldStopped : new.worldStopped = true → old.worldStopped = true

/-- A step of the loop of `cl_gc_stop_the_world` or of the initiator, where none of
the flags is set. -/
structure Loops [DecidableEq Tid] (self : Tid) (old new : Pc Tid) : Prop where
  stopped : old.canStop = false
  safe : old.canBeSafe = false
  young : old.young = false
  outside : new.outside self = false
  inside : new.inStw = true → old.inStw = true
  present : old ≠ .reserved
  claims : new.claims = none ∨ new.claims = old.claims ∧ new.registers = old.registers
  initiator : new.initiator = true → old.initiator = true
  worldStopped : new.worldStopped = true → old.worldStopped = true

end Pc

structure Move (t : Tid) (w w' : World Tid) : Prop where
  pc : ∀ u, u ≠ t → w'.pc u = w.pc u
  live : ∀ u, u ≠ t → w'.gcLive u = w.gcLive u
  stopped : ∀ u, u ≠ t → w'.gcStopped u = w.gcStopped u
  safe : ∀ u, u ≠ t → w'.inSafeRegion u = w.inSafeRegion u
  list : ∀ u, u ≠ t → (u ∈ w'.list ↔ u ∈ w.list)
  nodup : w.list.Nodup → w'.list.Nodup
  mutex : ∀ u, u ≠ t → (w'.gcMutex = some u ↔ w.gcMutex = some u)

namespace Move

variable {w w' w'' : World Tid} {t : Tid}

theorem trans (first : Move t w w') (second : Move t w' w'') : Move t w w'' where
  pc u other := (second.pc u other).trans (first.pc u other)
  live u other := (second.live u other).trans (first.live u other)
  stopped u other := (second.stopped u other).trans (first.stopped u other)
  safe u other := (second.safe u other).trans (first.safe u other)
  list u other := (second.list u other).trans (first.list u other)
  nodup before := second.nodup (first.nodup before)
  mutex u other := (second.mutex u other).trans (first.mutex u other)

theorem acquire (free : w.gcMutex = none) : Move t w { w with gcMutex := some t } := by
  constructor <;> simp +contextual [free, eq_comm]

theorem release (held : w.gcMutex = some t) : Move t w { w with gcMutex := none } := by
  constructor <;> simp +contextual [held, eq_comm]

theorem setFlag (value : Bool) : Move t w { w with stwInProgress := value } := by
  constructor <;> simp

theorem enlist (fresh : t ∉ w.list) : Move t w { w with list := t :: w.list } := by
  constructor <;> simp +contextual [fresh]

variable [DecidableEq Tid]

theorem goto (pc : Pc Tid) : Move t w (w.goto t pc) := by
  constructor <;> simp +contextual [World.goto]

theorem setStopped (value : Bool) : Move t w (w.setStopped t value) := by
  constructor <;> simp +contextual [World.setStopped]

theorem setSafe (value : Bool) : Move t w (w.setSafe t value) := by
  constructor <;> simp +contextual [World.setSafe]

theorem setLive (value : Bool) : Move t w (w.setLive t value) := by
  constructor <;> simp +contextual [World.setLive]

theorem unlist : Move t w { w with list := w.list.erase t } := by
  constructor <;> simp +contextual [List.mem_erase_of_ne]
  exact fun nodup => nodup.erase t

end Move

variable [DecidableEq Tid]

@[mk_iff]
structure Own (w : World Tid) (t : Tid) : Prop where
  holder : (w.pc t).holds = true ↔ w.gcMutex = some t
  stopped : w.gcStopped t = true → (w.pc t).canStop = true
  safe : w.inSafeRegion t = true → (w.pc t).canBeSafe = true
  young : t ∈ w.list → w.gcLive t = false → (w.pc t).young = true
  outside : (w.pc t).outside t = true → t ∉ w.list
  flag : (w.pc t).inStw = true → w.stwInProgress = true

/-- A thread the initiator does not wait for. -/
def World.Quiet (w : World Tid) (t : Tid) : Prop :=
  w.gcLive t = true → w.gcStopped t = true ∨ w.inSafeRegion t = true

structure Inv (w : World Tid) : Prop where
  own : ∀ t, Own w t
  nodup : w.list.Nodup
  claimed : ∀ t u, (w.pc t).claims = some u → u ≠ t → w.pc u = .reserved
  claimUnique : ∀ s t u, (w.pc s).claims = some u → (w.pc t).claims = some u → s = t
  registering : ∀ t u live, (w.pc t).registers = some (u, live) →
    u ∉ w.list ∧ (u = t → live = true)
  unique : ∀ i j, (w.pc i).initiator = true → (w.pc j).initiator = true → i = j
  scanned : ∀ i, (w.pc i).worldStopped = true → ∀ t ∈ w.list, t ≠ i → w.Quiet t

namespace Inv

variable {w w' : World Tid} {t : Tid}

theorem unclaimed (inv : Inv w) (free : w.pc t ≠ .reserved) (s : Tid) (other : s ≠ t) :
    (w.pc s).claims ≠ some t :=
  fun claim => free (inv.claimed s t claim (Ne.symm other))

theorem holder_unique (inv : Inv w) {s : Tid} (holds : (w.pc t).holds = true)
    (holds' : (w.pc s).holds = true) : s = t := by
  have first := (inv.own t).holder.mp holds
  have second := (inv.own s).holder.mp holds'
  rw [first] at second
  exact (Option.some.inj second).symm

theorem sole (inv : Inv w) (initiator : (w.pc t).initiator = true) (u : Tid) (other : u ≠ t) :
    (w.pc u).initiator = false := by
  by_contra found
  exact other (inv.unique u t (by simpa using found) initiator)

theorem move (inv : Inv w) (moves : Move t w w') (own : Own w' t)
    (unclaimed : ∀ s, s ≠ t → (w.pc s).claims ≠ some t)
    (claimed : ∀ u, (w'.pc t).claims = some u → u ≠ t →
      w.pc u = .reserved ∧ ∀ s, s ≠ t → (w.pc s).claims ≠ some u)
    (registering : ∀ u live, (w'.pc t).registers = some (u, live) →
      u ∉ w'.list ∧ (u = t → live = true))
    (flag : ∀ u, u ≠ t → (w.pc u).inStw = true → w'.stwInProgress = true)
    (unique : (w'.pc t).initiator = true → ∀ u, u ≠ t → (w.pc u).initiator = false)
    (scanned : (w'.pc t).worldStopped = true → ∀ u ∈ w'.list, u ≠ t → w'.Quiet u)
    (quiet : ∀ i, i ≠ t → (w.pc i).worldStopped = true → t ∈ w'.list → w'.Quiet t) :
    Inv w' where
  own u := by
    by_cases same : u = t
    · exact same ▸ own
    · have before := inv.own u
      constructor
      · rw [moves.pc u same, moves.mutex u same]
        exact before.holder
      · rw [moves.pc u same, moves.stopped u same]
        exact before.stopped
      · rw [moves.pc u same, moves.safe u same]
        exact before.safe
      · rw [moves.pc u same, moves.live u same, moves.list u same]
        exact before.young
      · rw [moves.pc u same, moves.list u same]
        exact before.outside
      · rw [moves.pc u same]
        exact flag u same
  nodup := moves.nodup inv.nodup
  claimed s u claim other := by
    by_cases mine : s = t
    · subst mine
      rw [moves.pc u other]
      exact (claimed u claim other).1
    · rw [moves.pc s mine] at claim
      by_cases same : u = t
      · exact absurd (same ▸ claim) (unclaimed s mine)
      · rw [moves.pc u same]
        exact inv.claimed s u claim other
  claimUnique s s' u claim claim' := by
    have mine : ∀ r, r ≠ t → (w'.pc r).claims = some u → (w'.pc t).claims ≠ some u := by
      intro r other found own
      rw [moves.pc r other] at found
      by_cases same : u = t
      · exact unclaimed r other (same ▸ found)
      · exact (claimed u own same).2 r other found
    by_cases first : s = t
    · by_cases second : s' = t
      · rw [first, second]
      · exact absurd (first ▸ claim) (mine s' second claim')
    · by_cases second : s' = t
      · exact absurd (second ▸ claim') (mine s first claim)
      · rw [moves.pc s first] at claim
        rw [moves.pc s' second] at claim'
        exact inv.claimUnique s s' u claim claim'
  registering s u live found := by
    by_cases mine : s = t
    · subst mine
      exact registering u live found
    · rw [moves.pc s mine] at found
      have other : u ≠ t := by
        intro same
        exact unclaimed s mine (same ▸ Pc.claims_of_registers found)
      rw [moves.list u other]
      exact inv.registering s u live found
  unique i j first second := by
    by_cases mine : i = t <;> by_cases mine' : j = t
    · rw [mine, mine']
    · subst mine
      rw [moves.pc j mine'] at second
      simp [unique first j mine'] at second
    · subst mine'
      rw [moves.pc i mine] at first
      simp [unique second i mine] at first
    · rw [moves.pc i mine] at first
      rw [moves.pc j mine'] at second
      exact inv.unique i j first second
  scanned i stopped u listed other := by
    by_cases mine : i = t
    · subst mine
      exact scanned stopped u listed other
    · rw [moves.pc i mine] at stopped
      by_cases same : u = t
      · subst same
        exact quiet i mine stopped listed
      · have before := inv.scanned i stopped u ((moves.list u same).mp listed) other
        unfold World.Quiet at before ⊢
        rw [moves.live u same, moves.stopped u same, moves.safe u same]
        exact before

/-- A step inside one function keeps the invariant when it writes the flags
`gc_mutex` guards with that mutex held. -/
theorem plain (inv : Inv w) (moves : Move t w w') (own : Own w' t)
    (continues : (w.pc t).Continues (w'.pc t)) (list : w'.list = w.list)
    (flag : w'.stwInProgress = w.stwInProgress)
    (quiet : (w.pc t).holds = true ∨ (w'.pc t).holds = true ∨ (w.Quiet t → w'.Quiet t)) :
    Inv w' := by
  refine inv.move moves own (inv.unclaimed continues.present) ?_ ?_ ?_ ?_ ?_ ?_
  · intro u claim other
    rcases continues.claims with none | ⟨same, -⟩
    · simp [none] at claim
    have before : (w.pc t).claims = some u := same ▸ claim
    refine ⟨inv.claimed t u before other, ?_⟩
    intro s different claim'
    exact different (inv.claimUnique s t u claim' before)
  · intro u live found
    rcases continues.claims with none | ⟨-, same⟩
    · simp [Pc.claims_of_registers found] at none
    rw [list]
    exact inv.registering t u live (same ▸ found)
  · intro u _ inside
    rw [flag]
    exact (inv.own u).flag inside
  · intro now
    exact inv.sole (continues.initiator now)
  · intro now u listed other
    have before := inv.scanned t (continues.worldStopped now) u (list ▸ listed) other
    unfold World.Quiet at before ⊢
    rw [moves.live u other, moves.stopped u other, moves.safe u other]
    exact before
  · intro i other world listed
    have held : (w.pc i).holds = true := Pc.holds_of_worldStopped world
    rcases quiet with mine | mine | kept
    · exact absurd (inv.holder_unique mine held) other
    · have holder := (moves.mutex i other).mpr ((inv.own i).holder.mp held)
      rw [own.holder.mp mine] at holder
      exact absurd (Option.some.inj holder).symm other
    · exact kept (inv.scanned i world t (list ▸ listed) (Ne.symm other))

theorem of_eq (inv : Inv w) {requested : Tid → Bool} {depth : Tid → Nat}
    (same : w' = { w with gcRequested := requested, safeRegionDepth := depth }) : Inv w' := by
  subst same
  exact ⟨fun t => ⟨(inv.own t).1, (inv.own t).2, (inv.own t).3, (inv.own t).4, (inv.own t).5,
    (inv.own t).6⟩, inv.nodup, inv.claimed, inv.claimUnique, inv.registering, inv.unique,
    inv.scanned⟩

theorem claim (inv : Inv w) (present : w.pc t ≠ .reserved) (claims : pc.claims = some target)
    (own : Own (w.goto t pc) t) (initiator : pc.initiator = false)
    (registering : ∀ live, pc.registers = some (target, live) →
      target ∉ w.list ∧ (target = t → live = true))
    (reserved : target ≠ t → w.pc target = .reserved ∧ ∀ s, s ≠ t → (w.pc s).claims ≠ some target) :
    Inv (w.goto t pc) := by
  have notStopped : pc.worldStopped = false := by
    by_contra stopped
    rw [Pc.initiator_of_worldStopped (by simpa using stopped)] at initiator
    exact Bool.noConfusion initiator
  refine inv.move (Move.goto pc) own (inv.unclaimed present) ?_ ?_ ?_ ?_ ?_ ?_
  · intro u claim other
    have same : target = u := by simpa [claims] using claim
    exact same ▸ reserved (same ▸ other)
  · intro u live found
    have found' : pc.registers = some (u, live) := by simpa using found
    have same : target = u := by simpa [claims] using Pc.claims_of_registers found'
    exact same ▸ registering live (same ▸ found')
  · intro u _ inside
    exact (inv.own u).flag inside
  · simp [initiator]
  · simp [notStopped]
  · intro i other stopped listed
    exact inv.scanned i stopped t listed (Ne.symm other)

theorem reserve (inv : Inv w) {child : Tid}
    (position : w.pc child = .absent ∨ w.pc child = .newborn) :
    Inv (w.goto child .reserved) := by
  have own := inv.own child
  refine inv.plain (Move.goto _) ?_ ?_ rfl rfl (.inr (.inr id))
  · simp only [own_iff] at own ⊢
    rcases position with position | position <;> simp_all [Pc.holds, Pc.canStop, Pc.canBeSafe,
      Pc.young, Pc.outside, Pc.inStw]
  · rcases position with position | position <;> constructor <;>
      simp [position, Pc.claims, Pc.registers, Pc.initiator, Pc.inStw, Pc.worldStopped]

theorem take (inv : Inv w) {child : Tid} (position : w.pc t = .lisp)
    (fresh : w.pc child = .absent ∨ w.pc child = .newborn)
    (claims : pc.claims = some child) (initiator : pc.initiator = false)
    (holds : pc.holds = false) (outside : pc.outside t = false)
    (registers : pc.registers ≠ none → w.pc child = .absent) :
    Inv ((w.goto child .reserved).goto t pc) := by
  have different : t ≠ child := by
    intro same
    rcases fresh with fresh | fresh <;> simp [← same, position] at fresh
  have reserved := inv.reserve fresh
  have own := inv.own t
  refine reserved.claim (by simp [different, position]) claims ?_ initiator ?_ ?_
  · have inside : pc.inStw = false := by
      by_contra inside
      cases pc <;> simp_all [Pc.inStw, Pc.initiator]
    simp only [own_iff, position] at own ⊢
    simp_all [Pc.holds, Pc.canStop, Pc.canBeSafe, Pc.young]
  · intro live found
    have absent : w.pc child = .absent := registers (by simp [found])
    refine ⟨(inv.own child).outside (by simp [absent, Pc.outside]), ?_⟩
    exact fun same => absurd same (Ne.symm different)
  · intro _
    refine ⟨by simp, ?_⟩
    intro s _
    by_cases same : s = child
    · simp [same, Pc.claims]
    · have free : w.pc child ≠ .reserved := by
        rcases fresh with fresh | fresh <;> simp [fresh]
      simpa [same] using inv.unclaimed free s same

theorem running (inv : Inv w) (holds : (w.pc t).holds = true)
    (early : (w.pc t).worldStopped = false) (i : Tid) : (w.pc i).worldStopped = false := by
  by_contra stopped
  have stopped : (w.pc i).worldStopped = true := by simpa using stopped
  have same := inv.holder_unique holds (Pc.holds_of_worldStopped stopped)
  rw [same, early] at stopped
  exact Bool.noConfusion stopped

/-- A thread that nobody else has a claim on changes its place in the list. -/
theorem relist (inv : Inv w) (moves : Move t w w') (own : Own w' t)
    (unclaimed : ∀ s, s ≠ t → (w.pc s).claims ≠ some t)
    (claims : (w'.pc t).claims = none) (initiator : (w'.pc t).initiator = false)
    (flag : w'.stwInProgress = w.stwInProgress)
    (quiet : t ∉ w'.list ∨ ∀ i, (w.pc i).worldStopped = false) : Inv w' := by
  refine inv.move moves own unclaimed ?_ ?_ ?_ ?_ ?_ ?_
  · intro u claim
    rw [claims] at claim
    exact nomatch claim
  · intro u live found
    rw [Pc.claims_of_registers found] at claims
    exact nomatch claims
  · intro u _ inside
    rw [flag]
    exact (inv.own u).flag inside
  · intro now
    rw [initiator] at now
    exact nomatch now
  · intro stopped
    rw [Pc.initiator_of_worldStopped stopped] at initiator
    exact nomatch initiator
  · intro i _ stopped listed
    rcases quiet with unlisted | running
    · exact absurd listed unlisted
    · rw [running i] at stopped
      exact nomatch stopped

theorem enlist (inv : Inv w) (pc : Pc Tid) (live : Bool)
    (fresh : target ∉ w.list) (unclaimed : ∀ s, s ≠ target → (w.pc s).claims ≠ some target)
    (claims : pc.claims = none) (initiator : pc.initiator = false)
    (own : Own ({ w.setLive target live with list := target :: w.list }.goto target pc) target)
    (running : ∀ i, (w.pc i).worldStopped = false) :
    Inv ({ w.setLive target live with list := target :: w.list }.goto target pc) := by
  refine inv.relist (t := target) ?_ own unclaimed (by simpa using claims)
    (by simpa using initiator) rfl (.inr running)
  exact (Move.setLive live).trans ((Move.enlist (by exact fresh)).trans (Move.goto pc))

theorem unlist (inv : Inv w) (unclaimed : ∀ s, s ≠ target → (w.pc s).claims ≠ some target)
    (claims : pc.claims = none) (initiator : pc.initiator = false)
    (own : Own ({ w with list := w.list.erase target }.goto target pc) target) :
    Inv ({ w with list := w.list.erase target }.goto target pc) := by
  refine inv.relist (t := target) (Move.unlist.trans (Move.goto pc)) own unclaimed
    (by simpa using claims) (by simpa using initiator) rfl (.inl ?_)
  simpa using inv.nodup.not_mem_erase

/-- Such a step keeps the invariant when it writes none of the flags. -/
theorem loop (inv : Inv w) (moves : Move t w w') (loops : (w.pc t).Loops t (w'.pc t))
    (live : w'.gcLive = w.gcLive) (stopped : w'.gcStopped = w.gcStopped)
    (safe : w'.inSafeRegion = w.inSafeRegion) (list : w'.list = w.list)
    (flag : w'.stwInProgress = w.stwInProgress)
    (mutex : (w'.pc t).holds = true ↔ w'.gcMutex = some t) : Inv w' := by
  have own := inv.own t
  obtain ⟨canStop, canBeSafe, young, outside, inside, present, claims, initiator,
    worldStopped⟩ := loops
  refine inv.plain moves ?_ ⟨present, claims, initiator, worldStopped⟩ list flag (.inr (.inr ?_))
  · rw [own_iff] at own ⊢
    simp only [canStop, canBeSafe, young, live, stopped, safe, list, flag, outside,
      mutex] at own ⊢
    simp_all
  · unfold World.Quiet
    rw [live, stopped, safe]
    exact id

theorem loopAcquire (inv : Inv w) (free : w.gcMutex = none)
    (loops : (w.pc t).Loops t pc) (holds : pc.holds = true) :
    Inv ({ w with gcMutex := some t }.goto t pc) :=
  inv.loop ((Move.acquire free).trans (Move.goto _)) (by simpa using loops)
    rfl rfl rfl rfl rfl (by simp [holds])

theorem loopRelease (inv : Inv w) (held : (w.pc t).holds = true)
    (loops : (w.pc t).Loops t pc) (free : pc.holds = false) :
    Inv ({ w with gcMutex := none }.goto t pc) :=
  inv.loop ((Move.release ((inv.own t).holder.mp held)).trans (Move.goto _))
    (by simpa using loops) rfl rfl rfl rfl rfl (by simp [free])

theorem loopGoto (inv : Inv w) (loops : (w.pc t).Loops t pc)
    (same : pc.holds = (w.pc t).holds) : Inv (w.goto t pc) :=
  inv.loop (Move.goto _) (by simpa using loops) rfl rfl rfl rfl rfl
    (by simpa [same] using (inv.own t).holder)

end Inv

section Steps

attribute [local simp] Pc.holds Pc.inStw Pc.initiator Pc.worldStopped Pc.canStop Pc.canBeSafe
  Pc.young Pc.outside Pc.registers Pc.claims

variable {w w' : World Tid} {t : Tid}

theorem World.goto_comm (w : World Tid) {s u : Tid} (different : s ≠ u) (p q : Pc Tid) :
    (w.goto s p).goto u q = (w.goto u q).goto s p := by
  simp only [World.goto, Function.update_comm different]

variable {f : Section Tid}

theorem lock_inv (inv : Inv w) (position : w.pc t = .lock f) (free : w.gcMutex = none) :
    Inv ({ w with gcMutex := some t }.goto t (.body f)) := by
  have own := inv.own t
  refine inv.plain (t := t) ((Move.acquire free).trans (Move.goto _)) ?_ ?_ rfl rfl ?_
  · simp only [own_iff, position] at own ⊢
    cases f <;> simp_all
  · constructor <;> cases f <;> simp [position]
  · simp

theorem park_inv (inv : Inv w) (position : w.pc t = .park f) :
    Inv ({ w.setStopped t true with gcMutex := none }.goto t (.wait f)) := by
  have own := inv.own t
  have held : w.gcMutex = some t := own.holder.mp (by simp [position])
  refine inv.plain (t := t) ?_ ?_ ?_ rfl rfl ?_
  · exact (Move.setStopped true).trans ((Move.release (by exact held)).trans (Move.goto _))
  · simp only [own_iff, position] at own ⊢
    cases f <;> simp_all
  · constructor <;> simp [position]
  · simp [position]

theorem leavePark_inv (inv : Inv w) (position : w.pc t = .park f) : Inv (w.goto t (.finish f)) := by
  have own := inv.own t
  refine inv.plain (Move.goto _) ?_ ?_ rfl rfl ?_
  · simp only [own_iff, position] at own ⊢
    cases f <;> simp_all
  · constructor <;> simp [position]
  · simp [position]

theorem wait_inv (inv : Inv w) (position : w.pc t = .wait f) (free : w.gcMutex = none) :
    Inv ({ w with gcMutex := some t }.goto t (.park f)) := by
  have own := inv.own t
  refine inv.plain (t := t) ((Move.acquire free).trans (Move.goto _)) ?_ ?_ rfl rfl ?_
  · simp only [own_iff, position] at own ⊢
    cases f <;> simp_all
  · constructor <;> simp [position]
  · simp

/-- The end of a critical section. -/
theorem finishStep_inv (inv : Inv w) (position : w.pc t = .finish f) : Inv (finishStep w t f) := by
  have own := inv.own t
  refine inv.plain (t := t) ?_ ?_ ?_ ?_ ?_ ?_
  · cases f with
    | leaveSafeRegion =>
        exact (Move.setStopped false).trans ((Move.setSafe false).trans (Move.goto _))
    | threadOnline =>
        exact (Move.setStopped false).trans ((Move.setLive true).trans (Move.goto _))
    | _ => exact (Move.setStopped false).trans (Move.goto _)
  · simp only [own_iff, position] at own ⊢
    cases f <;> simp_all [finishStep]
  · constructor <;> cases f <;> simp [finishStep, position]
  · cases f <;> rfl
  · cases f <;> rfl
  · simp [position]

/-- Giving up `gc_mutex`. -/
theorem unlock_inv (inv : Inv w) (position : w.pc t = .unlock f) :
    Inv ({ w with gcMutex := none }.goto t (afterSection t f)) := by
  have own := inv.own t
  have held : w.gcMutex = some t := own.holder.mp (by simp [position])
  refine inv.plain (t := t) ((Move.release held).trans (Move.goto _)) ?_ ?_ rfl rfl ?_
  · simp only [own_iff, position] at own ⊢
    rcases f with _ | target | caller | _ | _ | _
    case unregister => by_cases same : target = t <;> simp_all [afterSection]
    case safepoint => cases caller <;> simp_all [afterSection]
    all_goals simp_all [afterSection]
  · rcases f with _ | target | caller | _ | _ | _
    case unregister =>
      by_cases same : target = t <;> constructor <;> simp [position, same, afterSection]
    case safepoint => cases caller <;> constructor <;> simp [position, afterSection]
    all_goals constructor <;> simp [position, afterSection]
  · simp [position]

theorem registerSelf_inv (inv : Inv w) (position : w.pc t = .absent) :
    Inv (w.goto t (.lock (.registerEx t true))) := by
  have own := inv.own t
  have unlisted : t ∉ w.list := own.outside (by simp [position])
  refine inv.claim (by simp [position]) rfl ?_ rfl ?_ ?_
  · simp only [own_iff, position] at own ⊢
    simp_all
  · simp [unlisted]
  · simp

/-- What a thread does outside every critical section. -/
theorem lispStep_inv (inv : Inv w) (position : w.pc t = .lisp)
    (steps : lispStep w t op = some w') : Inv w' := by
  have own := inv.own t
  have ownGoto : ∀ pc : Pc Tid, pc.holds = false → pc.outside t = false → pc.inStw = false →
      Own (w.goto t pc) t := by
    intro pc holds outside inside
    simp only [own_iff, position] at own ⊢
    simp_all
  cases op with
  | poll =>
      simp only [lispStep] at steps
      split at steps
      · cases steps
        refine inv.plain (Move.goto _) (ownGoto _ rfl rfl rfl) ?_ rfl rfl (.inr (.inr id))
        constructor <;> simp [position]
      · cases steps
        exact inv
  | enter =>
      simp only [lispStep] at steps
      split at steps
      · cases steps
        exact inv.of_eq rfl
      · cases steps
        have moved : Inv (w.goto t (.lock .enterSafeRegion)) := by
          refine inv.plain (Move.goto _) (ownGoto _ rfl rfl rfl) ?_ rfl rfl (.inr (.inr id))
          constructor <;> simp [position]
        exact moved.of_eq rfl
  | leave =>
      simp only [lispStep] at steps
      split at steps
      · cases steps
        exact inv.of_eq rfl
      · cases steps
        have moved : Inv (w.goto t (.lock .leaveSafeRegion)) := by
          refine inv.plain (Move.goto _) (ownGoto _ rfl rfl rfl) ?_ rfl rfl (.inr (.inr id))
          constructor <;> simp [position]
        exact moved.of_eq rfl
  | stop =>
      simp only [lispStep] at steps
      cases steps
      refine inv.plain (Move.goto _) (ownGoto _ rfl rfl rfl) ?_ rfl rfl (.inr (.inr id))
      constructor <;> simp [position]
  | makeThread child =>
      simp only [lispStep] at steps
      split at steps
      case isTrue absent =>
        cases steps
        exact inv.take position (.inl absent) rfl rfl rfl rfl (fun _ => absent)
      case isFalse => simp at steps
  | registerFor other =>
      simp only [lispStep] at steps
      split at steps
      case isTrue absent =>
        cases steps
        exact inv.take position (.inl absent) rfl rfl rfl rfl (fun _ => absent)
      case isFalse => simp at steps
  | registerSelf => simp [lispStep] at steps
  | exit =>
      simp only [lispStep] at steps
      cases steps
      refine inv.claim (by simp [position]) rfl (ownGoto _ rfl rfl rfl) rfl ?_ ?_
      · simp
      · simp
  | reap child =>
      simp only [lispStep] at steps
      split at steps
      case isTrue newborn =>
        cases steps
        exact inv.take position (.inr newborn) rfl rfl rfl rfl (by simp)
      case isFalse => simp at steps

/-- What a thread does in a safe region. -/
theorem safeStep_inv (inv : Inv w) (position : w.pc t = .safe)
    (steps : safeStep w t op = some w') : Inv w' := by
  cases op with
  | enter =>
      simp only [safeStep] at steps
      cases steps
      exact inv.of_eq rfl
  | leave =>
      simp only [safeStep] at steps
      split at steps
      · cases steps
        exact inv.of_eq rfl
      · cases steps
        have own := inv.own t
        have moved : Inv (w.goto t (.lock .leaveSafeRegion)) := by
          refine inv.plain (Move.goto _) ?_ ?_ rfl rfl (.inr (.inr id))
          · simp only [own_iff, position] at own ⊢
            simp_all
          · constructor <;> simp [position]
        exact moved.of_eq rfl
  | _ => simp [safeStep] at steps

/-- The body of each critical section. -/
theorem bodyStep_inv (inv : Inv w) (position : w.pc t = .body f) : Inv (bodyStep w t f) := by
  have own := inv.own t
  cases f with
  | registerEx target live =>
      have claim : (w.pc t).claims = some target := by simp [position]
      have fresh := inv.registering t target live (by simp [position])
      have running := inv.running (t := t) (by simp [position]) (by simp [position])
      by_cases same : target = t
      · subst same
        have alive : live = true := fresh.2 rfl
        have moved := inv.enlist (.check (.registerEx target live)) live fresh.1
          (inv.unclaimed (by simp [position])) rfl rfl
          (by
            simp only [own_iff, position] at own ⊢
            simp_all)
          running
        simpa [bodyStep] using moved
      · -- the registering thread gives up its claim before the target moves
        have dropped : Inv (w.goto t (.check (.registerEx target live))) := by
          refine inv.plain (Move.goto _) ?_ ?_ rfl rfl ?_
          · simp only [own_iff, position] at own ⊢
            simp_all
          · constructor <;> simp [position]
          · simp [position]
        have reserved := inv.claimed t target claim same
        have ownTarget := inv.own target
        have moved := dropped.enlist (if live then .lisp else .newborn) live fresh.1
          (by
            intro s other found
            by_cases mine : s = t
            · simp [mine] at found
            · simp only [World.goto_pc, Function.update_of_ne mine] at found
              exact mine (inv.claimUnique s t target found claim))
          (by cases live <;> rfl) (by cases live <;> rfl)
          (by
            simp only [own_iff, reserved] at ownTarget ⊢
            cases live <;> simp_all)
          (by
            intro i
            by_cases mine : i = t
            · simp [mine]
            · simpa [mine] using running i)
        simp only [bodyStep, if_neg same]
        rw [World.goto_comm _ same]
        exact moved
  | unregister target =>
      refine inv.plain (t := t) (Move.goto _) ?_ ?_ rfl rfl ?_
      · simp only [own_iff, position] at own ⊢
        simp_all [bodyStep]
      · constructor <;> simp [position, bodyStep]
      · simp [position]
  | safepoint caller =>
      refine inv.plain (t := t) ((Move.setStopped true).trans (Move.goto _)) ?_ ?_ rfl rfl ?_
      · simp only [own_iff, position] at own ⊢
        simp_all [bodyStep]
      · constructor <;> simp [position, bodyStep]
      · simp [position]
  | enterSafeRegion =>
      refine inv.plain (t := t) ((Move.setSafe true).trans (Move.goto _)) ?_ ?_ rfl rfl ?_
      · simp only [own_iff, position] at own ⊢
        simp_all [bodyStep]
      · constructor <;> simp [position, bodyStep]
      · simp [position]
  | leaveSafeRegion =>
      refine inv.plain (t := t) (Move.goto _) ?_ ?_ rfl rfl ?_
      · simp only [own_iff, position] at own ⊢
        simp_all [bodyStep]
      · constructor <;> simp [position, bodyStep]
      · simp [position]
  | threadOnline =>
      have moved : Inv (w.goto t (.park .threadOnline)) := by
        refine inv.plain (Move.goto _) ?_ ?_ rfl rfl ?_
        · simp only [own_iff, position] at own ⊢
          simp_all
        · constructor <;> simp [position]
        · simp [position]
      simp only [bodyStep]
      split <;> exact moved.of_eq rfl

theorem check_inv (inv : Inv w) {live : Bool} (pc : Pc Tid)
    (position : w.pc t = .check (.registerEx target live))
    (after : pc = .park (.registerEx target live) ∨ pc = .unlock (.registerEx target live)) :
    Inv (w.goto t pc) := by
  have own := inv.own t
  refine inv.plain (Move.goto _) ?_ ?_ rfl rfl ?_
  · simp only [own_iff, position] at own ⊢
    rcases after with rfl | rfl <;> simp_all
  · rcases after with rfl | rfl <;> constructor <;> simp [position]
  · simp [position]

/-- A thread takes another off the list. -/
theorem unlink_inv (inv : Inv w) (position : w.pc t = .unlink target)
    (steps : next w t op = some w') : Inv w' := by
  have own := inv.own t
  simp only [next, position] at steps
  cases steps
  by_cases same : target = t
  · subst same
    rw [if_pos rfl]
    refine inv.unlist (inv.unclaimed (by simp [position])) rfl rfl ?_
    have unlisted := inv.nodup.not_mem_erase (a := target)
    simp only [own_iff, position] at own ⊢
    simp_all
  · have claim : (w.pc t).claims = some target := by simp [position]
    have reserved := inv.claimed t target claim same
    have dropped : Inv (w.goto t (.lock (.unregister target))) := by
      refine inv.plain (Move.goto _) ?_ ?_ rfl rfl (.inr (.inr id))
      · simp only [own_iff, position] at own ⊢
        simp_all
      · constructor <;> simp [position]
    have ownTarget := inv.own target
    have unlisted := inv.nodup.not_mem_erase (a := target)
    rw [if_neg same, World.goto_comm _ same]
    refine dropped.unlist ?_ rfl rfl ?_
    · intro s other found
      by_cases mine : s = t
      · simp [mine] at found
      · simp only [World.goto_pc, Function.update_of_ne mine] at found
        exact mine (inv.claimUnique s t target found claim)
    · simp only [own_iff, reserved] at ownTarget ⊢
      simp_all

/-- The thread that finds no collection under way becomes the initiator. -/
theorem won_inv (inv : Inv w) (position : w.pc t = .won) (free : w.stwInProgress = false) :
    Inv (w.goto t .setFlag) := by
  have own := inv.own t
  refine inv.move (Move.goto _) ?_ (inv.unclaimed (by simp [position])) (by simp) (by simp)
    ?_ ?_ (by simp) ?_
  · simp only [own_iff, position] at own ⊢
    simp_all
  · intro u _ inside
    exact (inv.own u).flag inside
  · -- an initiator elsewhere holds `gc_mutex`, or has set the flag
    intro _ u other
    by_contra found
    have found : (w.pc u).initiator = true := by simpa only [Bool.not_eq_false] using found
    cases held : (w.pc u).holds with
    | true => exact other (inv.holder_unique (t := t) (by simp [position]) held)
    | false =>
        have set := (inv.own u).flag (Pc.inStw_of_initiator found held)
        rw [free] at set
        exact nomatch set
  · intro i _ stopped
    rw [inv.running (t := t) (by simp [position]) (by simp [position]) i] at stopped
    exact nomatch stopped

theorem setFlag_inv (inv : Inv w) (position : w.pc t = .setFlag) :
    Inv ({ w with stwInProgress := true }.goto t .request) := by
  have own := inv.own t
  refine inv.move (t := t) ((Move.setFlag true).trans (Move.goto _)) ?_
    (inv.unclaimed (by simp [position])) (by simp) (by simp) (by simp) ?_ (by simp) ?_
  · simp only [own_iff, position] at own ⊢
    simp_all
  · exact fun _ => inv.sole (by simp [position])
  · intro i _ stopped
    rw [inv.running (t := t) (by simp [position]) (by simp [position]) i] at stopped
    exact nomatch stopped

/-- The initiator clears `stw_in_progress`. -/
theorem unset_inv (inv : Inv w) (position : w.pc t = .unset) :
    Inv ({ w with stwInProgress := false }.goto t .resume) := by
  have own := inv.own t
  have sole := inv.sole (t := t) (by simp [position])
  refine inv.move (t := t) ((Move.setFlag false).trans (Move.goto _)) ?_
    (inv.unclaimed (by simp [position])) (by simp) (by simp) ?_ (fun _ => sole) ?_ ?_
  · simp only [own_iff, position] at own ⊢
    simp_all
  · intro u other inside
    have found := sole u other
    rw [Pc.initiator_of_inStw inside] at found
    exact nomatch found
  · intro _ u listed other
    exact inv.scanned t (by simp [position]) u listed other
  · intro i other stopped
    exact absurd (inv.unique i t (Pc.initiator_of_worldStopped stopped) (by simp [position])) other

/-- A scan writes requests only; one that finds no straggler has found every
other thread of the list quiet. -/
theorem scanList_spec (self : Tid) (ts : List Tid) (w : World Tid) :
    (∃ requested, (scanList self ts w).1 = { w with gcRequested := requested }) ∧
      ((scanList self ts w).2 = true → ∀ u ∈ ts, u ≠ self → w.Quiet u) := by
  induction ts generalizing w with
  | nil => exact ⟨⟨w.gcRequested, rfl⟩, by simp⟩
  | cons head ts induction =>
      simp only [scanList]
      generalize requestedEq :
        (if head ≠ self ∧ w.gcLive head = true ∧ w.gcRequested head = false then
          w.setRequested head true else w) = v
      have frame : ∃ requested, v = { w with gcRequested := requested } := by
        subst requestedEq
        split
        · exact ⟨_, rfl⟩
        · exact ⟨w.gcRequested, rfl⟩
      have asked : head ≠ self → w.gcLive head = true → v.gcRequested head = true := by
        intro other live
        subst requestedEq
        by_cases before : w.gcRequested head = false
        · simp [other, live, before]
        · simp [other, live, before]
      obtain ⟨requested, rfl⟩ := frame
      split
      · exact ⟨⟨requested, rfl⟩, by simp⟩
      case isFalse found =>
        obtain ⟨⟨requested', same⟩, quiet⟩ := induction { w with gcRequested := requested }
        refine ⟨⟨requested', same⟩, ?_⟩
        intro all u member other
        rcases List.mem_cons.mp member with rfl | member
        · intro live
          by_contra neither
          rw [not_or] at neither
          exact found ⟨other, live, asked other live, by simpa using neither⟩
        · exact quiet all u member other

/-- A scan that finds no straggler has stopped the world. -/
theorem scan_inv (inv : Inv w) (position : w.pc t = .scan)
    (steps : next w t op = some w') : Inv w' := by
  have own := inv.own t
  obtain ⟨⟨requested, same⟩, quiet⟩ := scanList_spec t w.list w
  simp only [next, position] at steps
  split at steps
  case isTrue all =>
    cases steps
    rw [same]
    have moved : Inv (w.goto t .stopped) := by
      refine inv.move (Move.goto _) ?_ (inv.unclaimed (by simp [position])) (by simp) (by simp)
        ?_ (fun _ => inv.sole (by simp [position])) ?_ ?_
      · simp only [own_iff, position] at own ⊢
        simp_all
      · intro u _ inside
        exact (inv.own u).flag inside
      · exact fun _ => quiet all
      · intro i other stopped
        exact absurd (inv.unique i t (Pc.initiator_of_worldStopped stopped)
          (by simp [position])) other
    exact moved.of_eq rfl
  case isFalse =>
    cases steps
    rw [same]
    have moved : Inv ({ w with gcMutex := none }.goto t .straggler) :=
      inv.loopRelease (by simp [position]) (by constructor <;> simp [position]) rfl
    exact moved.of_eq rfl

theorem newborn_inv (inv : Inv w) (position : w.pc t = .newborn) :
    Inv (w.goto t (.lock .threadOnline)) := by
  have own := inv.own t
  refine inv.plain (Move.goto _) ?_ ?_ rfl rfl (.inr (.inr id))
  · simp only [own_iff, position] at own ⊢
    simp_all
  · constructor <;> simp [position]

theorem tryLock_inv (inv : Inv w) (position : w.pc t = .tryLock)
    (steps : next w t op = some w') : Inv w' := by
  simp only [next, position] at steps
  split at steps
  case isTrue free =>
    cases steps
    exact inv.loopAcquire free (by constructor <;> simp [position]) rfl
  case isFalse =>
    cases steps
    exact inv.loopGoto (by constructor <;> simp [position]) (by simp [position])

/-- With `gc_mutex` won, the thread becomes the initiator or gives up. -/
theorem wonStep_inv (inv : Inv w) (position : w.pc t = .won)
    (steps : next w t op = some w') : Inv w' := by
  simp only [next, position] at steps
  split at steps
  case isTrue free =>
    cases steps
    exact won_inv inv position free.1
  case isFalse =>
    cases steps
    have moved : Inv (w.goto t .giveUp) :=
      inv.loopGoto (by constructor <;> simp [position]) (by simp [position])
    exact moved.of_eq rfl

theorem retry_inv (inv : Inv w) (position : w.pc t = .retry)
    (steps : next w t op = some w') : Inv w' := by
  simp only [next, position] at steps
  split at steps
  all_goals
    cases steps
    exact inv.loopGoto (by constructor <;> simp [position]) (by simp [position])

/-- After a registration the new thread is asked to stop when a collection is under way.
-/
theorem checkStep_inv (inv : Inv w) (position : w.pc t = .check f)
    (steps : next w t op = some w') : Inv w' := by
  cases f with
  | registerEx target live =>
      simp only [next, position] at steps
      split at steps
      · cases steps
        have moved := check_inv inv (if target = t then .park (.registerEx target live)
          else .unlock (.registerEx target live)) position (by split <;> simp)
        exact moved.of_eq rfl
      · cases steps
        exact check_inv inv _ position (.inr rfl)
  | _ => simp [next, position] at steps

/-- Every step of a thread keeps the invariant. -/
theorem next_inv (inv : Inv w) (steps : next w t op = some w') : Inv w' := by
  cases position : w.pc t with
  | absent =>
      simp only [next, position] at steps
      split at steps
      · cases steps
        exact registerSelf_inv inv position
      · simp at steps
  | reserved => simp [next, position] at steps
  | newborn =>
      simp only [next, position] at steps
      cases steps
      exact newborn_inv inv position
  | lisp =>
      simp only [next, position] at steps
      exact lispStep_inv inv position steps
  | safe =>
      simp only [next, position] at steps
      exact safeStep_inv inv position steps
  | lock f =>
      simp only [next, position] at steps
      split at steps
      case isTrue free =>
        cases steps
        exact lock_inv inv position free
      case isFalse => simp at steps
  | body f =>
      simp only [next, position] at steps
      cases steps
      exact bodyStep_inv inv position
  | check f => exact checkStep_inv inv position steps
  | park f =>
      simp only [next, position] at steps
      split at steps
      · cases steps
        exact park_inv inv position
      · cases steps
        exact leavePark_inv inv position
  | wait f =>
      simp only [next, position] at steps
      split at steps
      case isTrue free =>
        cases steps
        exact wait_inv inv position free
      case isFalse => simp at steps
  | finish f =>
      simp only [next, position] at steps
      cases steps
      exact finishStep_inv inv position
  | unlock f =>
      simp only [next, position] at steps
      cases steps
      exact unlock_inv inv position
  | unlink target => exact unlink_inv inv position steps
  | tryLock => exact tryLock_inv inv position steps
  | won => exact wonStep_inv inv position steps
  | retry => exact retry_inv inv position steps
  | setFlag =>
      simp only [next, position] at steps
      cases steps
      exact setFlag_inv inv position
  | scan => exact scan_inv inv position steps
  | straggler =>
      simp only [next, position] at steps
      split at steps
      case isTrue free =>
        cases steps
        exact inv.loopAcquire free (by constructor <;> simp [position]) rfl
      case isFalse => simp at steps
  | unset =>
      simp only [next, position] at steps
      cases steps
      exact unset_inv inv position
  | giveUp | resume =>
      simp only [next, position] at steps
      cases steps
      exact inv.loopRelease (by simp [position]) (by constructor <;> simp [position]) rfl
  | stopped =>
      simp only [next, position] at steps
      cases steps
      exact inv.loopGoto (by constructor <;> simp [position]) (by simp [position])
  | request =>
      simp only [next, position] at steps
      cases steps
      have moved : Inv (w.goto t .scan) :=
        inv.loopGoto (by constructor <;> simp [position]) (by simp [position])
      exact moved.of_eq rfl
  | clear =>
      simp only [next, position] at steps
      cases steps
      have moved : Inv (w.goto t .unset) :=
        inv.loopGoto (by constructor <;> simp [position]) (by simp [position])
      exact moved.of_eq rfl

/-- The invariant holds when only the main thread is there. -/
theorem initial_inv (main : Tid) : Inv (World.initial main) := by
  constructor
  · intro t
    by_cases same : t = main <;> constructor <;> simp [World.initial, same]
  · simp [World.initial]
  · intro t u
    by_cases same : t = main <;> simp [World.initial, same]
  · intro s t u
    by_cases same : s = main <;> simp [World.initial, same]
  · intro t u
    by_cases same : t = main <;> simp [World.initial, same]
  · intro i
    by_cases same : i = main <;> simp [World.initial, same]
  · intro i
    by_cases same : i = main <;> simp [World.initial, same]

end Steps

theorem Reachable.inv {main : Tid} {w : World Tid} (run : Reachable main w) : Inv w := by
  induction run with
  | initial => exact initial_inv main
  | step _ _ _ steps induction => exact next_inv induction steps

theorem Reachable.runSchedule {main : Tid} {w w' : World Tid} (run : Reachable main w)
    (schedule : List (Tid × Op Tid)) (steps : Thread.runSchedule w schedule = some w') :
    Reachable main w' := by
  induction schedule generalizing w with
  | nil =>
      cases steps
      exact run
  | cons event rest induction =>
      obtain ⟨middle, first, rest⟩ := Option.bind_eq_some_iff.mp steps
      exact induction (run.step event.1 event.2 first) rest

/-- A thread that cannot run Lisp code before the initiator gives up `gc_mutex`. -/
inductive World.Held (w : World Tid) (t : Tid) : Prop where
  /-- parked at a safepoint -/
  | parked (f : Section Tid) (position : w.pc t = .wait f) (flag : w.gcStopped t = true)
  /-- in a safe region, or waiting to leave it -/
  | region (position : w.pc t = .safe ∨ w.pc t = .lock .leaveSafeRegion ∨
      w.pc t = .wait .leaveSafeRegion) (flag : w.inSafeRegion t = true)
  /-- not yet started, or waiting to come online -/
  | newborn (position : w.pc t = .reserved ∨ w.pc t = .newborn ∨
      w.pc t = .lock .threadOnline ∨ w.pc t = .wait .threadOnline) (flag : w.gcLive t = false)

theorem Own.held {w : World Tid} {t : Tid} (own : Own w t) (listed : t ∈ w.list)
    (quiet : w.Quiet t) (free : (w.pc t).holds = false) : w.Held t := by
  cases live : w.gcLive t with
  | false =>
      have young := own.young listed live
      refine .newborn ?_ live
      cases position : w.pc t with
      | lock f | body f | park f | wait f | finish f =>
          cases f <;> simp_all [Pc.holds, Pc.young]
      | _ => simp_all [Pc.young]
  | true =>
      rcases quiet live with flag | flag
      · have canStop := own.stopped flag
        cases position : w.pc t with
        | wait f => exact .parked f position flag
        | _ => simp_all [Pc.holds, Pc.canStop]
      · have canBeSafe := own.safe flag
        refine .region ?_ flag
        cases position : w.pc t with
        | lock f | body f | park f | wait f | finish f | unlock f =>
            cases f <;> simp_all [Pc.holds, Pc.canBeSafe]
        | _ => simp_all [Pc.canBeSafe]

theorem World.Held.next {w w' : World Tid} {t : Tid} (held : w.Held t)
    (taken : w.gcMutex ≠ none) (steps : Thread.next w t op = some w') :
    w'.Held t := by
  cases held with
  | parked f position flag => simp [Thread.next, position, taken] at steps
  | region position flag =>
      rcases position with position | position | position
      · simp only [Thread.next, position] at steps
        cases op with
        | enter =>
            simp only [safeStep] at steps
            cases steps
            exact .region (.inl position) flag
        | leave =>
            simp only [safeStep] at steps
            split at steps
            · cases steps
              exact .region (.inl position) flag
            · cases steps
              exact .region (by simp) flag
        | _ => simp [safeStep] at steps
      · simp [Thread.next, position, taken] at steps
      · simp [Thread.next, position, taken] at steps
  | newborn position flag =>
      rcases position with position | position | position | position
      · simp [Thread.next, position] at steps
      · simp only [Thread.next, position] at steps
        cases steps
        exact .newborn (by simp) flag
      · simp [Thread.next, position, taken] at steps
      · simp [Thread.next, position, taken] at steps

/-- In every run there is one initiator at most; and from the return of
`cl_gc_stop_the_world` on, until `gc_mutex` is given up, every other thread of the
list is held, and stays so over every step it can take. -/
theorem world_stopped {main : Tid} {w : World Tid} (run : Reachable main w) :
    (∀ i j, (w.pc i).initiator = true → (w.pc j).initiator = true → i = j) ∧
      ∀ i, (w.pc i).worldStopped = true → ∀ t ∈ w.list, t ≠ i →
        w.Held t ∧ ∀ op w', next w t op = some w' → w'.Held t := by
  have inv := run.inv
  refine ⟨inv.unique, ?_⟩
  intro i stopped t listed other
  have initiator := Pc.holds_of_worldStopped stopped
  have free : (w.pc t).holds = false := by
    by_contra holds
    exact other (inv.holder_unique initiator (by simpa using holds))
  have held := (inv.own t).held listed (inv.scanned i stopped t listed other) free
  refine ⟨held, ?_⟩
  intro op w' steps
  refine held.next ?_ steps
  rw [(inv.own i).holder.mp initiator]
  exact Option.some_ne_none i

def stopWithOneBlocked : List (Nat × Op Nat) :=
  [(1, .registerSelf), (1, .poll), (1, .poll), (1, .poll), (1, .poll),
    (1, .enter), (1, .poll), (1, .poll), (1, .poll),
    (0, .stop), (0, .poll), (0, .poll), (0, .poll), (0, .poll), (0, .poll)]

/-- Two threads, the second blocked on `gc_mutex` while the first has the world stopped.
-/
theorem world_stopped_one_blocked :
    ∃ w : World Nat, Reachable 0 w ∧ w.pc 0 = .stopped ∧ 1 ∈ w.list ∧ w.Held 1 := by
  have found : ∃ w, runSchedule (World.initial 0) stopWithOneBlocked = some w ∧
      w.pc 0 = .stopped ∧ 1 ∈ w.list := ⟨_, rfl, by decide, by decide⟩
  obtain ⟨w, steps, stopped, listed⟩ := found
  have run : Reachable 0 w := Reachable.initial.runSchedule _ steps
  refine ⟨w, run, stopped, listed, ?_⟩
  exact ((world_stopped run).2 0 (by rw [stopped]; rfl) 1 listed (by decide)).1

end ClAmiga.Thread
