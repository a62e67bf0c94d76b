import Mathlib.Data.Nat.SuccPred
import Mathlib.Algebra.Order.Ring.Nat
import ClAmiga.Thread.Lock

/-!
# Exclusion, and no lost wakeup

A waiter that has gone to sleep has seen `CONTENDED` on the word of the owner.
From then on either that bit is there, or some thread is awake and has yet to look
at the word: the one that freed the lock and will scan for a waiter, or a waiter
past its spin phase.  The second invariant ties the word and `depth` to the acquires
and releases that have happened.
-/

namespace ClAmiga.Lock

variable {Tid : Type}

namespace Pc

def registered : Pc Tid → Bool
  | .mark _ | .markCas _ _ | .beforePark _ | .park _ | .sleep _ | .deregister _ _ => true
  | _ => false

/-- The word was marked, and the waiter is about to park or parked. -/
def parking : Pc Tid → Bool
  | .beforePark _ | .park _ => true
  | _ => false

/-- A thread that is awake and will look at the word, or for a waiter, before it
parks or leaves the lock's code. -/
def awake (spinYields : Nat) : Pc Tid → Bool
  | .top l | .take l => decide (spinYields ≤ l.spins)
  | .enlist _ | .mark _ | .markCas _ _ | .sleep _ | .deregister _ _ | .abandon _ _
  | .abandonCas _ _ _ | .wake _ => true
  | _ => false

/-- Neither a waiter nor about to wake one. -/
def outside : Pc Tid → Bool
  | .absent | .lisp | .contend _ _ | .setDepth | .releaseRead | .releaseCas _ => true
  | _ => false

theorem registered_of_parking {pc : Pc Tid} (parking : pc.parking = true) :
    pc.registered = true := by
  cases pc <;> first | rfl | cases parking

theorem awake_or_parking (spinYields : Nat) {pc : Pc Tid} (registered : pc.registered = true) :
    pc.awake spinYields = true ∨ pc.parking = true := by
  cases pc <;> first | exact .inl rfl | exact .inr rfl | cases registered

/-- Nobody registers before the end of the spin phase. -/
def spun (spinYields : Nat) : Pc Tid → Bool
  | .enlist l | .mark l | .markCas l _ | .beforePark l | .park l | .sleep l
  | .deregister l _ => decide (spinYields ≤ l.spins)
  | _ => true

/-- Between the acquiring compare-and-swap and `depth = 1`. -/
def acquiring : Pc Tid → Bool
  | .setDepth => true
  | _ => false

/-- Between `depth = 0` and the store that frees the lock. -/
def releasing : Pc Tid → Bool
  | .releaseRead | .releaseCas _ | .store => true
  | _ => false

end Pc

/-- `CL_LOCK_CONTENDED` is set. -/
def World.contended (w : World Tid) : Bool :=
  match w.state with
  | some (_, bit) => bit
  | none => false

section Wakeups

variable (spinYields : Nat) (hasPark : Tid → Bool)

@[mk_iff]
structure Own (w : World Tid) (t : Tid) : Prop where
  waiting : w.waiting t = (w.pc t).registered
  spun : (w.pc t).spun spinYields = true
  listed : w.pc t ≠ .absent → t ∈ w.list
  handle : ∀ l, w.pc t = .park l → hasPark t = true

/-- A waiter that only a wake token will get back. -/
def Committed (w : World Tid) (t : Tid) : Prop :=
  (w.pc t).parking = true ∧ w.token t = false ∧ hasPark t = true

def Carrier (w : World Tid) (t : Tid) : Prop :=
  (w.pc t).awake spinYields = true ∨
    (w.pc t).parking = true ∧ (w.token t = true ∨ hasPark t = false)

def Carried (w : World Tid) : Prop :=
  (∃ t, Committed hasPark w t) → w.contended = true ∨ ∃ t, Carrier spinYields hasPark w t

variable {spinYields hasPark} {w w' : World Tid} {t : Tid}

/-- A step of one thread keeps the invariant when it leaves the bit set, or the
thread awake, or the thread had no part in it. -/
theorem Carried.step (carried : Carried spinYields hasPark w)
    (pc : ∀ u, u ≠ t → w'.pc u = w.pc u) (token : ∀ u, u ≠ t → w'.token u = w.token u)
    (cases : w'.contended = true ∨ Carrier spinYields hasPark w' t ∨
      ¬Carrier spinYields hasPark w t ∧ (Committed hasPark w' t → Committed hasPark w t) ∧
        (w.contended = true → w'.contended = true)) :
    Carried spinYields hasPark w' := by
  rintro ⟨u, committed⟩
  rcases cases with bit | mine | ⟨none, before, kept⟩
  · exact .inl bit
  · exact .inr ⟨t, mine⟩
  · have earlier : Committed hasPark w u := by
      by_cases same : u = t
      · exact same ▸ before (same ▸ committed)
      · unfold Committed at committed ⊢
        rwa [pc u same, token u same] at committed
    rcases carried ⟨u, earlier⟩ with bit | ⟨c, carrier⟩
    · exact .inl (kept bit)
    · have other : c ≠ t := fun same => none (same ▸ carrier)
      refine .inr ⟨c, ?_⟩
      unfold Carrier at carrier ⊢
      rwa [pc c other, token c other]

end Wakeups

section Exclusion

/-- The word, `depth` and the history of acquires and releases agree. -/
structure Exclusive (w : World Tid) : Prop where
  owner : ∀ t, w.owner = some t ↔ 0 < w.held t
  acquiring : ∀ t, (w.pc t).acquiring = true → w.held t = 1
  releasing : ∀ t, (w.pc t).releasing = true → w.held t = 1
  depth : ∀ t, 0 < w.held t → (w.pc t).acquiring = false → (w.pc t).releasing = false →
    w.depth.toNat = w.held t
  cas : ∀ t owner, w.pc t = .releaseCas owner → owner = t

variable {w w' : World Tid} {t : Tid}

theorem Exclusive.unique (exclusive : Exclusive w) {s : Tid} (first : 0 < w.held s)
    (second : 0 < w.held t) : s = t := by
  have owner := (exclusive.owner s).mpr first
  rw [(exclusive.owner t).mpr second] at owner
  exact (Option.some.inj owner).symm

theorem Exclusive.free (exclusive : Exclusive w) (free : w.state = none) (u : Tid) :
    w.held u = 0 := by
  by_contra holds
  have owner := (exclusive.owner u).mpr (Nat.pos_of_ne_zero holds)
  simp [World.owner, free] at owner

end Exclusion

variable [DecidableEq Tid]

section Steps

variable {spinYields : Nat} {recursive : Bool} {hasPark : Tid → Bool}
variable {w w' : World Tid} {t : Tid} {op : Op}

/-- A step of one thread leaves the others where they are. -/
structure Frame (t : Tid) (w w' : World Tid) : Prop where
  pc : ∀ u, u ≠ t → w'.pc u = w.pc u
  waiting : ∀ u, u ≠ t → w'.waiting u = w.waiting u
  held : ∀ u, u ≠ t → w'.held u = w.held u
  list : ∀ u, u ≠ t → u ∈ w.list → u ∈ w'.list

theorem next_frame (steps : next spinYields recursive hasPark w t op = some w') : Frame t w w' := by
  unfold next lispStep contendStep topStep takeStep afterWake leaveStep unpark at steps
  repeat' split at steps
  all_goals first
    | injection steps with steps
      subst steps
      constructor <;> simp +contextual [List.mem_erase_of_ne]
    | simp at steps

theorem next_own (steps : next spinYields recursive hasPark w t op = some w')
    (own : Own spinYields hasPark w t) : Own spinYields hasPark w' t := by
  rw [own_iff] at own ⊢
  unfold next lispStep contendStep topStep takeStep afterDeregister afterWake leaveStep unpark
    at steps
  repeat' split at steps
  all_goals first
    | injection steps with steps
      subst steps
      simp_all [Pc.registered, Pc.spun]
    | simp at steps

theorem next_token (steps : next spinYields recursive hasPark w t op = some w')
    (quiet : ∀ after, w.pc t ≠ .wake after) (u : Tid) (other : u ≠ t) :
    w'.token u = w.token u := by
  unfold next lispStep contendStep topStep takeStep leaveStep at steps
  repeat' split at steps
  all_goals first
    | injection steps with steps
      subst steps
      simp_all
    | simp_all

/-- The scan makes the waiter it finds a carrier; when it finds none, nobody
sleeps. -/
theorem wake_carried (owns : ∀ u, Own spinYields hasPark w u) {after : After}
    (position : w.pc t = .wake after) (steps : next spinYields recursive hasPark w t op = some w') :
    Carried spinYields hasPark w' := by
  have frame := next_frame steps
  have token : w'.token = (unpark hasPark w (firstWaiter w (after.except t))).token := by
    simp only [next, position] at steps
    cases steps
    cases after with
    | release => rfl
    | abandon l why => cases why <;> rfl
  have notMine : (w'.pc t).parking = false := by
    simp only [next, position] at steps
    cases steps
    cases after with
    | release => simp [afterWake, Pc.parking]
    | abandon l why => cases why <;> simp [afterWake, leaveStep, Pc.parking]
  rintro ⟨u, parking, asleep, handle⟩
  have other : u ≠ t := by
    intro same
    rw [same, notMine] at parking
    exact nomatch parking
  rw [frame.pc u other] at parking
  have registered := Pc.registered_of_parking parking
  have listed : u ∈ w.list := by
    refine (owns u).listed ?_
    intro absent
    simp [absent, Pc.parking] at parking
  have waits : w.waiting u = true := (owns u).waiting.trans registered
  cases found : firstWaiter w (after.except t) with
  | none =>
      have missed := List.find?_eq_none.mp found u listed
      have permitted : some u ≠ after.except t := by
        cases after with
        | release => simp [After.except]
        | abandon l why => simpa [After.except] using other
      simp [waits, permitted] at missed
  | some r =>
      have chosen := List.find?_some found
      simp only [Bool.and_eq_true] at chosen
      have different : r ≠ t := by
        intro same
        have mine := (owns t).waiting
        rw [position] at mine
        rw [same, mine] at chosen
        exact nomatch chosen.2
      refine .inr ⟨r, ?_⟩
      have registered : (w.pc r).registered = true := (owns r).waiting ▸ chosen.2
      unfold Carrier
      rw [frame.pc r different, token, found]
      refine (Pc.awake_or_parking spinYields registered).imp_right fun parking => ⟨parking, ?_⟩
      cases handle : hasPark r with
      | true => exact .inl (by simp [unpark, handle])
      | false => exact .inr rfl

/-- A thread that is not a waiter does not become a sleeping one, and clears no
`CONTENDED` bit. -/
theorem outside_step (steps : next spinYields recursive hasPark w t op = some w')
    (outside : (w.pc t).outside = true) :
    (w'.pc t).parking = false ∧ (w.contended = true → w'.contended = true) := by
  unfold next lispStep contendStep at steps
  repeat' split at steps
  all_goals first
    | injection steps with steps
      subst steps
      simp_all [World.contended, Pc.parking, Pc.outside]
    | simp_all [Pc.outside]

/-- A waiter that has marked the word parks, or takes its registration back. -/
theorem beforePark_step {l : Loop} (position : w.pc t = .beforePark l)
    (steps : next spinYields recursive hasPark w t op = some w') :
    w'.contended = true ∨ Carrier spinYields hasPark w' t ∨
      ¬Carrier spinYields hasPark w t ∧ (Committed hasPark w' t → Committed hasPark w t) ∧
        (w.contended = true → w'.contended = true) := by
  simp only [next, position] at steps
  split at steps
  · cases steps
    exact .inr (.inl (.inl (by simp [Pc.awake])))
  · split at steps
    · cases steps
      exact .inr (.inl (.inl (by simp [Pc.awake])))
    · simp at steps
  · cases steps
    cases handle : hasPark t with
    | false => exact .inr (.inl (.inl (by simp [Pc.awake])))
    | true =>
        cases token : w.token t with
        | true => exact .inr (.inl (.inr (by simp [Pc.parking, token])))
        | false =>
            refine .inr (.inr ⟨?_, ?_, id⟩)
            · simp [Carrier, position, Pc.awake, Pc.parking, token, handle]
            · simp [Committed, position, Pc.parking]

theorem next_carried (owns : ∀ u, Own spinYields hasPark w u)
    (carried : Carried spinYields hasPark w)
    (steps : next spinYields recursive hasPark w t op = some w') :
    Carried spinYields hasPark w' := by
  by_cases waking : ∃ after, w.pc t = .wake after
  · obtain ⟨after, position⟩ := waking
    exact wake_carried owns position steps
  have quiet : ∀ after, w.pc t ≠ .wake after := fun after same => waking ⟨after, same⟩
  refine carried.step (next_frame steps).pc (next_token steps quiet) ?_
  have spun := (owns t).spun
  cases position : w.pc t with
  | wake after => exact absurd position (quiet after)
  | enlist l | sleep l | park l | store =>
      simp only [next, position] at steps
      cases steps
      exact .inr (.inl (.inl (by simp [Pc.awake])))
  | deregister l reason =>
      simp only [next, position] at steps
      cases steps
      simp only [position, Pc.spun] at spun
      refine .inr (.inl (.inl ?_))
      cases reason with
      | free => simpa [afterDeregister, Pc.awake] using spun
      | leave why => simp [afterDeregister, Pc.awake]
      | awake =>
          simp only [afterDeregister]
          split
          · simp [Pc.awake]
          · simpa [Pc.awake] using spun
  | top l =>
      simp only [next, position, topStep] at steps
      split at steps
      · cases steps
        by_cases late : spinYields ≤ l.spins
        · exact .inr (.inl (.inl (by simpa [Pc.awake] using late)))
        · refine .inr (.inr ⟨?_, ?_, id⟩)
          · simp [Carrier, position, Pc.awake, Pc.parking, late]
          · simp [Committed, Pc.parking]
      · split at steps
        case isTrue early =>
          have late : ¬spinYields ≤ l.spins := Nat.not_le.mpr early
          refine .inr (.inr ⟨?_, ?_, ?_⟩)
          · simp [Carrier, position, Pc.awake, Pc.parking, late]
          · split at steps <;> cases steps <;> simp [Committed, Pc.parking]
          · split at steps <;> cases steps <;> exact id
        case isFalse =>
          cases steps
          exact .inr (.inl (.inl (by simp [Pc.awake])))
  | take l =>
      simp only [next, position, takeStep] at steps
      by_cases late : spinYields ≤ l.spins
      · split at steps
        · cases steps
          exact .inl (by simp [World.contended, late])
        · cases steps
          exact .inr (.inl (.inl (by simpa [Pc.awake] using late)))
      · refine .inr (.inr ⟨?_, ?_, ?_⟩)
        · simp [Carrier, position, Pc.awake, Pc.parking, late]
        · split at steps <;> cases steps <;> simp [Committed, Pc.parking]
        · split at steps
          case h_1 free =>
            simp [World.contended, free]
          case h_2 =>
            cases steps
            exact id
  | mark l =>
      simp only [next, position] at steps
      split at steps
      · cases steps
        exact .inr (.inl (.inl (by simp [Pc.awake])))
      case h_2 marked =>
        cases steps
        exact .inl (by simp [World.contended, marked])
      · cases steps
        exact .inr (.inl (.inl (by simp [Pc.awake])))
  | markCas l owner =>
      simp only [next, position] at steps
      split at steps
      · cases steps
        exact .inl (by simp [World.contended])
      · cases steps
        exact .inr (.inl (.inl (by simp [Pc.awake])))
  | beforePark l => exact beforePark_step position steps
  | abandon l why =>
      simp only [next, position] at steps
      split at steps
      · cases steps
        exact .inr (.inl (.inl (by simp [Pc.awake])))
      case h_2 marked =>
        cases steps
        refine .inl ?_
        cases why <;> simp [leaveStep, World.contended, marked]
      · cases steps
        exact .inr (.inl (.inl (by simp [Pc.awake])))
  | abandonCas l why owner =>
      simp only [next, position] at steps
      split at steps
      · cases steps
        refine .inl ?_
        cases why <;> simp [leaveStep, World.contended]
      · cases steps
        exact .inr (.inl (.inl (by simp [Pc.awake])))
  | absent | lisp | contend wait timeout | setDepth | releaseRead | releaseCas owner =>
      obtain ⟨moved, kept⟩ := outside_step steps (by simp [position, Pc.outside])
      refine .inr (.inr ⟨?_, ?_, kept⟩)
      · simp [Carrier, position, Pc.awake, Pc.parking]
      · simp [Committed, moved]

theorem Exclusive.step (exclusive : Exclusive w) (frame : Frame t w w')
    (others : ∀ u, u ≠ t → (w'.owner = some u ↔ w.owner = some u))
    (depthKept : ∀ u, u ≠ t → w.owner = some u → w'.depth = w.depth)
    (owner : w'.owner = some t ↔ 0 < w'.held t)
    (acquiring : (w'.pc t).acquiring = true → w'.held t = 1)
    (releasing : (w'.pc t).releasing = true → w'.held t = 1)
    (depth : 0 < w'.held t → (w'.pc t).acquiring = false → (w'.pc t).releasing = false →
      w'.depth.toNat = w'.held t)
    (cas : ∀ owner, w'.pc t = .releaseCas owner → owner = t) : Exclusive w' where
  owner u := by
    by_cases same : u = t
    · exact same ▸ owner
    · rw [others u same, frame.held u same]
      exact exclusive.owner u
  acquiring u := by
    by_cases same : u = t
    · exact same ▸ acquiring
    · rw [frame.pc u same, frame.held u same]
      exact exclusive.acquiring u
  releasing u := by
    by_cases same : u = t
    · exact same ▸ releasing
    · rw [frame.pc u same, frame.held u same]
      exact exclusive.releasing u
  depth u := by
    by_cases same : u = t
    · exact same ▸ depth
    · rw [frame.pc u same, frame.held u same]
      intro holds
      rw [depthKept u same ((exclusive.owner u).mpr holds)]
      exact exclusive.depth u holds
  cas u := by
    by_cases same : u = t
    · exact same ▸ cas
    · rw [frame.pc u same]
      exact exclusive.cas u

theorem Exclusive.same (exclusive : Exclusive w) (frame : Frame t w w')
    (owner : w'.owner = w.owner) (held : w'.held t = w.held t) (depth : w'.depth = w.depth)
    (before : (w.pc t).acquiring = false ∧ (w.pc t).releasing = false)
    (after : (w'.pc t).acquiring = false ∧ (w'.pc t).releasing = false) : Exclusive w' := by
  refine exclusive.step frame ?_ ?_ ?_ ?_ ?_ ?_ ?_
  · intro u _
    rw [owner]
  · exact fun _ _ _ => depth
  · rw [owner, held]
    exact exclusive.owner t
  · simp [after.1]
  · simp [after.2]
  · intro holds _ _
    rw [held] at holds ⊢
    rw [depth]
    exact exclusive.depth t holds before.1 before.2
  · intro owner position
    rw [position] at after
    exact nomatch after.2

theorem acquire_exclusive (exclusive : Exclusive w) (free : w.state = none) (bit : Bool) :
    Exclusive (({ w with state := some (t, bit) }.setHeld t (w.held t + 1)).goto t .setDepth) := by
  have none := exclusive.free free
  refine exclusive.step (t := t) ?_ ?_ ?_ ?_ ?_ ?_ ?_ ?_
  · constructor <;> simp +contextual
  · intro u other
    simp [World.owner, free, Ne.symm other]
  · intro u _ owner
    simp [World.owner, free] at owner
  · simp [World.owner]
  · simp [none t]
  · simp [Pc.releasing]
  · simp [Pc.acquiring]
  · simp

theorem release_exclusive (exclusive : Exclusive w) (releasing : (w.pc t).releasing = true)
    {pc : Pc Tid} (after : pc.acquiring = false ∧ pc.releasing = false) :
    Exclusive (({ w with state := none }.setHeld t (w.held t - 1)).goto t pc) := by
  have once := exclusive.releasing t releasing
  have mine : w.owner = some t := (exclusive.owner t).mpr (once ▸ Nat.one_pos)
  refine exclusive.step (t := t) ?_ ?_ ?_ ?_ ?_ ?_ ?_ ?_
  · constructor <;> simp +contextual
  · intro u other
    simp [World.owner] at mine ⊢
    grind
  · intro u other owner
    rw [mine] at owner
    exact absurd (Option.some.inj owner).symm other
  · simp [World.owner, once]
  · simp [after.1]
  · simp [after.2]
  · simp [once]
  · intro owner position
    simp only [World.goto_pc, Function.update_self] at position
    rw [position] at after
    exact nomatch after.2

/-- `bi_release_lock`: an error, one level less, or the start of the release. -/
theorem releaseOp_exclusive (exclusive : Exclusive w) (position : w.pc t = .lisp)
    (steps : lispStep w t .release = some w') (frame : Frame t w w') : Exclusive w' := by
  simp only [lispStep] at steps
  split at steps
  · cases steps
    exact exclusive
  case isFalse mine =>
    have mine : w.owner = some t := not_not.mp mine
    have holds := (exclusive.owner t).mp mine
    have depth := exclusive.depth t holds (by simp [position, Pc.acquiring])
      (by simp [position, Pc.releasing])
    have sole : ∀ u, u ≠ t → w.owner ≠ some u := by
      intro u other owner
      rw [mine] at owner
      exact other (Option.some.inj owner).symm
    split at steps
    case isTrue nested =>
      cases steps
      have nested : 1 < w.depth.toNat := UInt32.lt_iff_toNat_lt.mp nested
      have less : (w.depth - 1).toNat = w.depth.toNat - 1 :=
        UInt32.toNat_sub_of_le _ _ (UInt32.le_iff_toNat_le.mpr (Nat.le_of_lt nested))
      refine exclusive.step (t := t) frame (fun u _ => Iff.rfl) ?_ ?_ ?_ ?_ ?_ ?_
      · intro u other owner
        exact absurd owner (sole u other)
      · change w.owner = some t ↔ _
        simp only [mine, World.setHeld_held, Function.update_self, true_iff]
        omega
      · simp [position, Pc.acquiring]
      · simp [position, Pc.releasing]
      · intro _ _ _
        simp only [World.setHeld_held, Function.update_self, World.setHeld_depth]
        omega
      · simp [position]
    case isFalse last =>
      cases steps
      have last : w.depth.toNat ≤ 1 := by
        rw [UInt32.not_lt] at last
        exact UInt32.le_iff_toNat_le.mp last
      refine exclusive.step (t := t) frame (fun u _ => Iff.rfl) ?_ (exclusive.owner t) ?_ ?_ ?_ ?_
      · intro u other owner
        exact absurd owner (sole u other)
      · simp [Pc.acquiring]
      · intro _
        change w.held t = 1
        omega
      · simp [Pc.releasing]
      · simp

theorem lispStep_exclusive (exclusive : Exclusive w) (position : w.pc t = .lisp)
    (steps : lispStep w t op = some w') (frame : Frame t w w') : Exclusive w' := by
  cases op with
  | acquire wait timeout =>
      simp only [lispStep] at steps
      split at steps
      case h_1 free =>
        cases steps
        exact acquire_exclusive exclusive free false
      case h_2 =>
        cases steps
        exact exclusive.same frame rfl rfl rfl (by simp [position, Pc.acquiring, Pc.releasing])
          (by simp [Pc.acquiring, Pc.releasing])
  | release => exact releaseOp_exclusive exclusive position steps frame
  | exit =>
      simp only [lispStep] at steps
      split at steps
      · cases steps
        exact exclusive.same frame rfl rfl rfl (by simp [position, Pc.acquiring, Pc.releasing])
          (by simp [Pc.acquiring, Pc.releasing])
      · simp at steps
  | resume =>
      simp only [lispStep] at steps
      split at steps
      · simp at steps
      · cases steps
        exact exclusive.same frame rfl rfl rfl (by simp [position, Pc.acquiring, Pc.releasing])
          (by simp [Pc.acquiring, Pc.releasing])
  | unwind =>
      simp only [lispStep] at steps
      split at steps
      · simp at steps
      · cases steps
        exact exclusive.same frame rfl rfl rfl (by simp [position, Pc.acquiring, Pc.releasing])
          (by simp [position, Pc.acquiring, Pc.releasing])
  | _ => simp [lispStep] at steps

theorem contendStep_exclusive (exclusive : Exclusive w) {wait : Bool} {timeout : Option Nat}
    (position : w.pc t = .contend wait timeout)
    (steps : contendStep recursive w t wait timeout = w')
    (frame : Frame t w w') (fits : w'.overflowed = false) : Exclusive w' := by
  have before : (w.pc t).acquiring = false ∧ (w.pc t).releasing = false := by
    simp [position, Pc.acquiring, Pc.releasing]
  unfold contendStep at steps
  split at steps
  case isTrue mine =>
    split at steps
    · subst steps
      have holds := (exclusive.owner t).mp mine
      have depth := exclusive.depth t holds before.1 before.2
      have more : (w.depth + 1).toNat = w.depth.toNat + 1 := by
        have wraps : w.depth + 1 ≠ 0 := by
          simp only [World.goto_overflowed, World.setHeld_overflowed, Bool.or_eq_false_iff,
            decide_eq_false_iff_not] at fits
          exact fits.2
        have sum := UInt32.toNat_add w.depth 1
        have bound := w.depth.toNat_lt
        by_cases last : w.depth.toNat + 1 = 2 ^ 32
        · refine absurd (UInt32.toNat_inj.mp ?_) wraps
          simp [sum, last]
        · rw [sum]
          exact Nat.mod_eq_of_lt (by simp; omega)
      refine exclusive.step (t := t) frame (fun u _ => Iff.rfl) ?_ ?_ ?_ ?_ ?_ ?_
      · intro u other owner
        rw [mine] at owner
        exact absurd (Option.some.inj owner).symm other
      · change w.owner = some t ↔ _
        simp [mine]
      · simp [Pc.acquiring]
      · simp [Pc.releasing]
      · intro _ _ _
        simp [more, depth]
      · simp
    · subst steps
      exact exclusive.same frame rfl rfl rfl before (by simp [Pc.acquiring, Pc.releasing])
  case isFalse =>
    split at steps
    · subst steps
      exact exclusive.same frame rfl rfl rfl before (by simp [Pc.acquiring, Pc.releasing])
    · subst steps
      exact exclusive.same frame rfl rfl rfl before (by simp [Pc.acquiring, Pc.releasing])

/-- A waiter, or a thread that wakes one, writes neither the owner nor `depth`. -/
theorem waiter_exclusive (exclusive : Exclusive w)
    (steps : next spinYields recursive hasPark w t op = some w')
    (waiter : (w.pc t).outside = false) (notTake : ∀ l, w.pc t ≠ .take l)
    (notStore : w.pc t ≠ .store) : Exclusive w' := by
  have same : w'.owner = w.owner ∧ w'.held t = w.held t ∧ w'.depth = w.depth ∧
      ((w.pc t).acquiring = false ∧ (w.pc t).releasing = false) ∧
      ((w'.pc t).acquiring = false ∧ (w'.pc t).releasing = false) := by
    unfold next topStep afterDeregister afterWake leaveStep unpark at steps
    repeat' split at steps
    all_goals first
      | injection steps with steps
        subst steps
        simp_all [World.owner, Pc.acquiring, Pc.releasing, Pc.outside]
      | simp_all [Pc.outside]
  exact exclusive.same (next_frame steps) same.1 same.2.1 same.2.2.1 same.2.2.2.1 same.2.2.2.2

theorem next_exclusive (exclusive : Exclusive w)
    (steps : next spinYields recursive hasPark w t op = some w')
    (fits : w'.overflowed = false) : Exclusive w' := by
  have frame := next_frame steps
  cases position : w.pc t with
  | absent =>
      simp only [next, position] at steps
      split at steps
      · cases steps
        exact exclusive.same frame rfl rfl rfl (by simp [position, Pc.acquiring, Pc.releasing])
          (by simp [Pc.acquiring, Pc.releasing])
      · simp at steps
  | lisp =>
      simp only [next, position] at steps
      exact lispStep_exclusive exclusive position steps frame
  | contend wait timeout =>
      simp only [next, position] at steps
      exact contendStep_exclusive exclusive position (Option.some.inj steps) frame fits
  | setDepth =>
      simp only [next, position] at steps
      cases steps
      have once := exclusive.acquiring t (by simp [position, Pc.acquiring])
      have mine : w.owner = some t := (exclusive.owner t).mpr (once ▸ Nat.one_pos)
      refine exclusive.step (t := t) frame (fun u _ => Iff.rfl) ?_ (exclusive.owner t) ?_ ?_ ?_ ?_
      · intro u other owner
        rw [mine] at owner
        exact absurd (Option.some.inj owner).symm other
      · simp [Pc.acquiring]
      · simp [Pc.releasing]
      · intro _ _ _
        exact once.symm
      · simp
  | take l =>
      simp only [next, position, takeStep] at steps
      split at steps
      case h_1 free =>
        cases steps
        exact acquire_exclusive exclusive free _
      case h_2 =>
        cases steps
        exact exclusive.same frame rfl rfl rfl (by simp [position, Pc.acquiring, Pc.releasing])
          (by simp [Pc.acquiring, Pc.releasing])
  | releaseRead =>
      have releasing : (w.pc t).releasing = true := by simp [position, Pc.releasing]
      have once := exclusive.releasing t releasing
      have mine : w.owner = some t := (exclusive.owner t).mpr (once ▸ Nat.one_pos)
      simp only [next, position] at steps
      split at steps
      case h_1 owner plain =>
        cases steps
        have self : owner = t := by simpa [World.owner, plain] using mine
        refine exclusive.step (t := t) frame (fun u _ => Iff.rfl) (fun _ _ _ => rfl)
          (exclusive.owner t) ?_ (fun _ => once) ?_ ?_
        · simp [Pc.acquiring]
        · simp [Pc.releasing]
        · simpa using self
      case h_2 =>
        cases steps
        refine exclusive.step (t := t) frame (fun u _ => Iff.rfl) (fun _ _ _ => rfl)
          (exclusive.owner t) ?_ (fun _ => once) ?_ ?_
        · simp [Pc.acquiring]
        · simp [Pc.releasing]
        · simp
  | releaseCas owner =>
      have releasing : (w.pc t).releasing = true := by simp [position, Pc.releasing]
      simp only [next, position] at steps
      split at steps
      · cases steps
        exact release_exclusive exclusive releasing (by simp [Pc.acquiring, Pc.releasing])
      · cases steps
        refine exclusive.step (t := t) frame (fun u _ => Iff.rfl) (fun _ _ _ => rfl)
          (exclusive.owner t) ?_ (fun _ => exclusive.releasing t releasing) ?_ ?_
        · simp [Pc.acquiring]
        · simp [Pc.releasing]
        · simp
  | store =>
      have releasing : (w.pc t).releasing = true := by simp [position, Pc.releasing]
      simp only [next, position] at steps
      cases steps
      exact release_exclusive exclusive releasing (by simp [Pc.acquiring, Pc.releasing])
  | _ =>
      exact waiter_exclusive exclusive steps (by simp [position, Pc.outside]) (by simp [position])
        (by simp [position])

theorem overflowed_of_next (steps : next spinYields recursive hasPark w t op = some w')
    (fits : w'.overflowed = false) : w.overflowed = false := by
  unfold next lispStep contendStep topStep takeStep afterWake leaveStep unpark at steps
  repeat' split at steps
  all_goals first
    | injection steps with steps
      subst steps
      simp_all
    | simp at steps

theorem next_frees (exclusive : Exclusive w) {s : Tid}
    (steps : next spinYields recursive hasPark w s op = some w') (owner : w.owner = some t)
    (lost : w'.owner ≠ some t) : s = t ∧ w.held t = 1 ∧ w'.held t = 0 := by
  have releasing : (w.pc s).releasing = true ∧ w'.held s = w.held s - 1 := by
    unfold next lispStep contendStep topStep takeStep afterWake leaveStep unpark at steps
    repeat' split at steps
    all_goals first
      | injection steps with steps
        subst steps
        simp_all [World.owner, Pc.releasing]
      | simp at steps
  have once := exclusive.releasing s releasing.1
  have same : s = t := exclusive.unique (once ▸ Nat.one_pos) ((exclusive.owner t).mp owner)
  subst same
  exact ⟨rfl, once, releasing.2.trans (by rw [once])⟩

end Steps

section Runs

variable {spinYields : Nat} {recursive : Bool} {hasPark : Tid → Bool} {w w' : World Tid}

structure Inv (spinYields : Nat) (hasPark : Tid → Bool) (w : World Tid) : Prop where
  own : ∀ t, Own spinYields hasPark w t
  carried : Carried spinYields hasPark w
  exclusive : w.overflowed = false → Exclusive w

omit [DecidableEq Tid] in
theorem initial_inv : Inv spinYields hasPark (World.initial : World Tid) where
  own t := by
    constructor <;> simp [World.initial, Pc.registered, Pc.spun]
  carried := by
    rintro ⟨t, parking, -⟩
    simp [World.initial, Pc.parking] at parking
  exclusive _ := by
    constructor <;> simp [World.initial, World.owner, Pc.acquiring, Pc.releasing]

/-- Every step of a thread keeps the invariant. -/
theorem next_inv (inv : Inv spinYields hasPark w) {t : Tid} {op : Op}
    (steps : next spinYields recursive hasPark w t op = some w') :
    Inv spinYields hasPark w' where
  own u := by
    by_cases same : u = t
    · exact same ▸ next_own steps (inv.own t)
    · have before := inv.own u
      have frame := next_frame steps
      constructor
      · rw [frame.waiting u same, frame.pc u same]
        exact before.waiting
      · rw [frame.pc u same]
        exact before.spun
      · rw [frame.pc u same]
        exact fun present => frame.list u same (before.listed present)
      · rw [frame.pc u same]
        exact before.handle
  carried := next_carried inv.own inv.carried steps
  exclusive fits := next_exclusive (inv.exclusive (overflowed_of_next steps fits)) steps fits

theorem Reachable.inv (run : Reachable spinYields recursive hasPark w) :
    Inv spinYields hasPark w := by
  induction run with
  | initial => exact initial_inv
  | step _ _ _ steps induction => exact next_inv induction steps

theorem Reachable.runSchedule (run : Reachable spinYields recursive hasPark w)
    (schedule : List (Tid × Op))
    (steps : Lock.runSchedule spinYields recursive hasPark w schedule = some w') :
    Reachable spinYields recursive hasPark w' := by
  induction schedule generalizing w with
  | nil =>
      cases steps
      exact run
  | cons event rest induction =>
      obtain ⟨middle, first, rest⟩ := Option.bind_eq_some_iff.mp steps
      exact induction (run.step event.1 event.2 first) rest

/-- Until `depth` wraps, one thread at most has the lock, `depth` counts its
acquires, and only its own last release frees the lock.  A free lock with a waiter
asleep and no token on its way has some thread awake that will look for a waiter or
at the word. -/
theorem lock_exclusive_and_woken (run : Reachable spinYields recursive hasPark w) :
    (w.overflowed = false → (∀ s t, 0 < w.held s → 0 < w.held t → s = t) ∧
      (∀ t, w.owner = some t ↔ 0 < w.held t) ∧
      (∀ t, w.pc t = .lisp → w.owner = some t → w.depth.toNat = w.held t) ∧
      ∀ s t op w', w.owner = some t → next spinYields recursive hasPark w s op = some w' →
        w'.owner ≠ some t → s = t ∧ w.held t = 1 ∧ w'.held t = 0) ∧
    (w.state = none → (∀ u, w.token u = false) → ∀ t l, w.waiting t = true → w.pc t = .park l →
      ∃ u, Carrier spinYields hasPark w u) := by
  have inv := run.inv
  constructor
  · intro fits
    have exclusive := inv.exclusive fits
    refine ⟨fun s t => exclusive.unique, exclusive.owner, ?_, ?_⟩
    · intro t position owner
      exact exclusive.depth t ((exclusive.owner t).mp owner) (by simp [position, Pc.acquiring])
        (by simp [position, Pc.releasing])
    · intro s t op w' owner steps lost
      exact next_frees exclusive steps owner lost
  · intro free tokens t l _ position
    have asleep : Committed hasPark w t :=
      ⟨by simp [position, Pc.parking], tokens t, (inv.own t).handle l position⟩
    rcases inv.carried ⟨t, asleep⟩ with bit | carrier
    · simp [World.contended, free] at bit
    · exact carrier

/-- A lock that is not recursive is acquired only while it is free. -/
theorem next_once (exclusive : Exclusive w) {t : Tid} {op : Op} (once : ∀ u, w.held u ≤ 1)
    (steps : next spinYields false hasPark w t op = some w') :
    w'.overflowed = w.overflowed ∧ ∀ u, w'.held u ≤ 1 := by
  have mine : w'.overflowed = w.overflowed ∧ w'.held t ≤ 1 := by
    have free := fun free => exclusive.free free t
    have held := once t
    unfold next lispStep contendStep topStep takeStep afterWake leaveStep unpark at steps
    repeat' split at steps
    all_goals first
      | injection steps with steps
        subst steps
        simp_all
      | simp at steps
  refine ⟨mine.1, fun u => ?_⟩
  by_cases same : u = t
  · exact same ▸ mine.2
  · rw [(next_frame steps).held u same]
    exact once u

theorem Reachable.once (run : Reachable spinYields false hasPark w) :
    w.overflowed = false ∧ ∀ t, w.held t ≤ 1 := by
  induction run with
  | initial => exact ⟨rfl, fun _ => Nat.zero_le 1⟩
  | step before _ _ steps induction =>
      obtain ⟨fits, once⟩ := induction
      have after := next_once (before.inv.exclusive fits) once steps
      exact ⟨after.1.trans fits, after.2⟩

/-- Without recursion `depth` never wraps, so one thread at most has the lock in every
state of every run; that thread is the owner and has acquired it once, and no step
of another thread frees the lock. -/
theorem plain_lock_exclusive (run : Reachable spinYields false hasPark w) :
    (∀ s t, 0 < w.held s → 0 < w.held t → s = t) ∧ (∀ t, w.owner = some t ↔ w.held t = 1) ∧
      (∀ t, w.pc t = .lisp → w.owner = some t → w.depth = 1) ∧
      ∀ s t op w', w.owner = some t → next spinYields false hasPark w s op = some w' →
        s ≠ t → w'.owner = some t := by
  obtain ⟨fits, once⟩ := run.once
  have exclusive := run.inv.exclusive fits
  have holds : ∀ t, w.owner = some t ↔ w.held t = 1 := fun t => by
    have most := once t
    rw [exclusive.owner t]
    omega
  refine ⟨fun s t => exclusive.unique, holds, ?_, ?_⟩
  · intro t position owner
    have depth := exclusive.depth t ((exclusive.owner t).mp owner)
      (by simp [position, Pc.acquiring]) (by simp [position, Pc.releasing])
    exact UInt32.toNat_inj.mp (depth.trans ((holds t).mp owner))
  · intro s t op w' owner steps other
    by_contra lost
    exact other (next_frees exclusive steps owner lost).1

theorem runSchedule_append (w : World Tid) (schedule rest : List (Tid × Op)) :
    Lock.runSchedule spinYields recursive hasPark w (schedule ++ rest) =
      (Lock.runSchedule spinYields recursive hasPark w schedule).bind
        (Lock.runSchedule spinYields recursive hasPark · rest) := by
  induction schedule generalizing w with
  | nil => rfl
  | cons event events induction =>
      rw [List.cons_append, Lock.runSchedule, Lock.runSchedule, Option.bind_assoc]
      exact Option.bind_congr fun middle _ => induction middle

theorem runSchedule_spin {t : Tid} {s : Tid × Bool} {spins : Nat} (taken : w.state = some s)
    (position : w.pc t = .top ⟨spins, false⟩) (turns : Nat) (few : spins + turns ≤ spinYields) :
    Lock.runSchedule spinYields recursive hasPark w (List.replicate turns (t, .go)) =
      some (w.goto t (.top ⟨spins + turns, false⟩)) := by
  induction turns generalizing w spins with
  | zero =>
      rw [Nat.add_zero, ← position, World.goto, Function.update_eq_self]
      rfl
  | succ turns induction =>
      have turn : next spinYields recursive hasPark w t .go =
          some (w.goto t (.top ⟨spins + 1, false⟩)) := by
        have early : spins < spinYields := by omega
        simp [next, position, topStep, taken, early]
      have there : (w.goto t (.top ⟨spins + 1, false⟩)).pc t = .top ⟨spins + 1, false⟩ := by
        simp
      rw [List.replicate_succ, Lock.runSchedule, turn, Option.bind_some,
        induction (w := w.goto t _) taken there (by omega), Nat.add_right_comm, Nat.add_assoc]
      simp [World.goto]

def storedBeforeScan : List (Fin 2 × Op) :=
  [(0, .register), (1, .register), (0, .acquire true none), (0, .go),
    (1, .acquire true none), (1, .go)] ++ List.replicate 256 (1, .go) ++
    [(1, .go), (1, .go), (1, .go), (1, .go), (1, .go),
    (0, .release), (0, .go), (0, .go)]

def spinning : World (Fin 2) :=
  (runSchedule 256 false (fun _ => true) World.initial (storedBeforeScan.take 6)).get rfl

def asleepWithoutToken (w : World (Fin 2)) : Prop :=
  w.state = none ∧ (∀ u, w.token u = false) ∧ w.waiting 1 = true ∧ w.pc 1 = .park ⟨256, false⟩

instance (w : World (Fin 2)) : Decidable (asleepWithoutToken w) :=
  inferInstanceAs (Decidable (_ ∧ _))

theorem storedBeforeScan_run :
    ∃ w, Reachable 256 false (fun _ => true) w ∧ asleepWithoutToken w := by
  have found : (runSchedule 256 false (fun _ => true) World.initial storedBeforeScan).any
      (fun w => decide (asleepWithoutToken w)) = true := by
    have reached : runSchedule 256 false (fun _ => true) World.initial (storedBeforeScan.take 6) =
        some spinning := (Option.some_get _).symm
    have spun : runSchedule 256 false (fun _ => true) spinning (List.replicate 256 (1, .go)) =
        some (spinning.goto 1 (.top ⟨0 + 256, false⟩)) :=
      runSchedule_spin (s := (0, false)) rfl rfl 256 le_rfl
    have phases : storedBeforeScan = storedBeforeScan.take 6 ++
        (List.replicate 256 (1, .go) ++ storedBeforeScan.drop 262) := rfl
    rw [phases, runSchedule_append, reached, Option.bind_some, runSchedule_append, spun,
      Option.bind_some]
    decide
  obtain ⟨w, steps, asleep⟩ := Option.any_eq_true _ _ |>.mp found
  exact ⟨w, Reachable.initial.runSchedule _ steps, of_decide_eq_true asleep⟩

/-- A free lock can have a sleeping waiter, as long as the releaser has not scanned. -/
theorem free_and_waiter_asleep :
    ¬∀ w : World (Fin 2), Reachable 256 false (fun _ => true) w →
      ¬(w.state = none ∧ (∀ u, w.token u = false) ∧
        ∃ t l, w.waiting t = true ∧ w.pc t = .park l) := by
  intro claim
  obtain ⟨w, run, free, tokens, waits, position⟩ := storedBeforeScan_run
  exact claim w run ⟨free, tokens, 1, _, waits, position⟩

/-- A free lock whose releaser still carries the wake-up. -/
theorem lock_woken_before_scan :
    ∃ w : World (Fin 2), Reachable 256 false (fun _ => true) w ∧ w.state = none ∧
      (∀ u, w.token u = false) ∧ ∃ u, Carrier 256 (fun _ => true) w u := by
  obtain ⟨w, run, free, tokens, waits, position⟩ := storedBeforeScan_run
  exact ⟨w, run, free, tokens, (lock_exclusive_and_woken run).2 free tokens 1 _ waits position⟩

/-- The first of two threads holds the lock while the other spins. -/
theorem spinning_exclusive :
    spinning.owner = some 0 ∧ spinning.held 0 = 1 ∧ ∀ s, 0 < spinning.held s → s = 0 := by
  have run : Reachable 256 false (fun _ => true) spinning :=
    Reachable.initial.runSchedule _ (Option.some_get _).symm
  have owner : spinning.owner = some 0 := by decide
  have exclusive := plain_lock_exclusive run
  have once := (exclusive.2.1 0).mp owner
  exact ⟨owner, once, fun s holds => exclusive.1 s 0 holds (by rw [once]; exact Nat.one_pos)⟩

end Runs

end ClAmiga.Lock
