import ClAmiga.HashTable.Interleaving

/-!
# Sections are atomic

In every interleaving the table is what the sections make of it one after another, in the
order in which the mutex was held, with the collections between them; a section that goes
on has changed the table only as far as its thread is.
-/

namespace ClAmiga.HashTable

open Chain

variable {Tid V : Type}

def Section.apply (s : Store V) : Section V → Store V × Reply V
  | .gethash key default =>
      let (value, found) := biGethash s key default
      (s, .value value found)
  | .setfGethash key value preVec => (syncSection s key value preVec, .done)
  | .remhash key =>
      let (s, found) := biRemhash s key
      (s, .removed found)
  | .clrhash => (biClrhash s, .done)

def Event.apply (s : Store V) : Event Tid V → Store V
  | .ran _ sec _ => (sec.apply s).1
  | .collected places => s.collect places

def replay (s : Store V) (events : List (Event Tid V)) : Store V :=
  events.foldl Event.apply s

def Answered (s : Store V) : List (Event Tid V) → Prop
  | [] => True
  | .ran t sec reply :: rest =>
      reply = (sec.apply s).2 ∧ Answered (Event.apply s (.ran t sec reply)) rest
  | .collected places :: rest => Answered (Event.apply s (.collected places : Event Tid V)) rest

theorem replay_concat (s : Store V) (events : List (Event Tid V)) (event : Event Tid V) :
    replay s (events ++ [event]) = event.apply (replay s events) := by
  rw [replay, List.foldl_append]
  rfl

variable {sec : Section V} {t : Tid} {moved : Option Places}

theorem Answered.concat_ran {s : Store V} {events : List (Event Tid V)}
    (answered : Answered s events) (t : Tid) {reply : Reply V}
    (answers : reply = (sec.apply (replay s events)).2) :
    Answered s (events ++ [.ran t sec reply]) := by
  induction events generalizing s with
  | nil => exact ⟨answers, trivial⟩
  | cons event rest induction =>
      cases event with
      | ran u other reply' => exact ⟨answered.1, induction answered.2 answers⟩
      | collected places => exact induction answered answers

theorem Answered.concat_collected {s : Store V} {events : List (Event Tid V)}
    (answered : Answered s events) (places : Places) :
    Answered s (events ++ [.collected places]) := by
  induction events generalizing s with
  | nil => exact trivial
  | cons event rest induction =>
      cases event with
      | ran u other reply' => exact ⟨answered.1, induction answered.2⟩
      | collected places => exact induction answered

def Pc.inside : Pc V → Bool
  | .search _ | .spliced _ _ _ | .counted _ _ _ | .unlinked _ | .cleared | .leave _ _ => true
  | _ => false

/-- What a section has made so far of the table it has found. -/
def Pc.Partial (found store : Store V) : Pc V → Prop
  | .search _ => store = found
  | .spliced key value _ =>
      found.table.find found.places key = none ∧
        store = { found with table := { found.table with
          buckets := found.table.buckets.modify (found.table.bucketIndex found.places key)
            ((key, value) :: ·) } }
  | .counted key value _ =>
      found.table.find found.places key = none ∧
        store = { found with table := found.table.insert found.places key value }
  | .unlinked key =>
      (found.table.find found.places key).isSome = true ∧
        store = { found with table := { found.table with
          buckets := found.table.buckets.modify (found.table.bucketIndex found.places key)
            (·.eraseP fun pair => keysEqual found.table.test pair.1 key) } }
  | .cleared =>
      store = { found with table := { found.table with
        buckets := found.table.buckets.map fun _ => [] } }
  | .leave sec reply => sec.apply found = (store, reply)
  | _ => False

theorem Pc.Partial.inside {found store : Store V} {pc : Pc V} (started : pc.Partial found store) :
    pc.inside = true := by
  cases pc <;> first | rfl | exact started.elim

/-- The table in a state: what the sections have made of it, and what the section that goes
on has. -/
def System.Present (found : Store V) (w : System Tid V) : Prop :=
  match w.mutex with
  | none => w.store = found
  | some t => (w.pc t).Partial found w.store

structure System.Atomic (start : Store V) (w : System Tid V) : Prop where
  answered : Answered start w.events
  present : w.Present (replay start w.events)
  exclusive : ∀ t, (w.pc t).inside = true → w.mutex = some t

namespace System.Atomic

variable {start : Store V} {w : System Tid V}

theorem initial (start : Store V) : (System.initial Tid start).Atomic start where
  answered := trivial
  present := rfl
  exclusive := fun t inside => by cases inside

theorem holder (atomic : w.Atomic start) (held : w.mutex = some t) :
    (w.pc t).Partial (replay start w.events) w.store := by
  have present := atomic.present
  unfold System.Present at present
  rw [held] at present
  exact present

theorem free (atomic : w.Atomic start) (unheld : w.mutex = none) :
    w.store = replay start w.events := by
  have present := atomic.present
  unfold System.Present at present
  rw [unheld] at present
  exact present

variable {w' : System Tid V}

theorem collect (atomic : w.Atomic start) {places : Places}
    (collected : w.collect places = some w') : w'.Atomic start ∧ w'.pc = w.pc := by
  unfold System.collect at collected
  cases held : w.mutex with
  | some t =>
      rw [held] at collected
      cases collected
  | none =>
      rw [held] at collected
      obtain rfl := Option.some.inj collected
      refine ⟨⟨atomic.answered.concat_collected places, ?_, ?_⟩, rfl⟩
      · unfold System.Present
        dsimp only
        rw [replay_concat, ← atomic.free held]
        rfl
      · intro t inside
        rw [← held]
        exact atomic.exclusive t inside

theorem allocate (atomic : w.Atomic start)
    (allocated : w.allocate moved = some w') : w'.Atomic start ∧ w'.pc = w.pc := by
  cases moved with
  | none =>
      obtain rfl := Option.some.inj allocated
      exact ⟨atomic, rfl⟩
  | some places => exact atomic.collect allocated

variable [DecidableEq Tid]

theorem outside (atomic : w.Atomic start) {pc : Pc V} (old : (w.pc t).inside = false)
    (new : pc.inside = false) : (w.goto t pc).Atomic start := by
  refine ⟨atomic.answered, ?_, ?_⟩
  · have present := atomic.present
    unfold System.Present at present ⊢
    simp only [System.goto]
    cases held : w.mutex with
    | none =>
        rw [held] at present
        exact present
    | some u =>
        have differ : u ≠ t := by
          rintro rfl
          rw [(atomic.holder held).inside] at old
          cases old
        dsimp only
        rw [Function.update_of_ne differ]
        exact atomic.holder held
  · intro u inside
    by_cases same : u = t
    · subst same
      rw [System.goto_pc, Function.update_self, new] at inside
      cases inside
    · rw [System.goto_pc, Function.update_of_ne same] at inside
      exact atomic.exclusive u inside

theorem advance (atomic : w.Atomic start) {pc : Pc V} (old : (w.pc t).inside = true)
    (table : Table V)
    (started : pc.Partial (replay start w.events) { w.store with table := table }) :
    ((w.setTable table).goto t pc).Atomic start := by
  have held := atomic.exclusive t old
  refine ⟨atomic.answered, ?_, ?_⟩
  · unfold System.Present
    simp only [System.goto, System.setTable, held, Function.update_self]
    exact started
  · intro u inside
    by_cases same : u = t
    · rw [same]
      exact held
    · rw [System.goto_pc, Function.update_of_ne same] at inside
      exact atomic.exclusive u inside

theorem search (atomic : w.Atomic start) (here : w.pc t = .search sec) :
    (w.search t sec).Atomic start := by
  have inside : (w.pc t).inside = true := by rw [here]; rfl
  have found := atomic.holder (atomic.exclusive t inside)
  rw [here] at found
  have found' : w.store = replay start w.events := found
  cases sec with
  | gethash key default =>
      apply atomic.advance inside w.store.table
      simp only [Pc.Partial, ← found', Section.apply]
      rfl
  | setfGethash key value preVec =>
      unfold System.search
      dsimp only
      cases isThere : w.store.table.find w.store.places key with
      | some pair =>
          apply atomic.advance inside
          simp only [Pc.Partial, ← found', Section.apply, syncSection, isThere]
      | none =>
          apply atomic.advance inside
          simp only [Pc.Partial, ← found', isThere, and_self]
  | remhash key =>
      unfold System.search
      dsimp only
      cases isThere : w.store.table.find w.store.places key with
      | some pair =>
          apply atomic.advance inside
          simp only [Pc.Partial, ← found', isThere, Option.isSome_some, and_self]
      | none =>
          apply atomic.advance inside w.store.table
          simp only [Pc.Partial, ← found', Section.apply, biRemhash, isThere]
  | clrhash =>
      apply atomic.advance inside
      simp only [Pc.Partial, ← found']

theorem grow (atomic : w.Atomic start) {key : Obj} {value : V} {preVec : Option Nat}
    (here : w.pc t = .counted key value preVec) : (w.grow t key value preVec).Atomic start := by
  have inside : (w.pc t).inside = true := by rw [here]; rfl
  have found := atomic.holder (atomic.exclusive t inside)
  rw [here] at found
  obtain ⟨absent, stored⟩ := found
  unfold System.grow
  dsimp only
  cases preVec with
  | none =>
      apply atomic.advance inside w.store.table
      simp only [Pc.Partial, Section.apply, syncSection, absent, stored]
  | some length =>
      dsimp only
      split
      case isTrue grows =>
        apply atomic.advance inside
        rw [stored] at grows ⊢
        simp only [Pc.Partial, Section.apply, syncSection, absent, if_pos grows]
      case isFalse stays =>
        apply atomic.advance inside w.store.table
        rw [stored] at stays ⊢
        simp only [Pc.Partial, Section.apply, syncSection, absent, if_neg stays]

theorem leave (atomic : w.Atomic start) {reply : Reply V} (here : w.pc t = .leave sec reply) :
    (({ w with mutex := none, events := w.events ++ [.ran t sec reply] } : System Tid V).goto t
      .idle).Atomic start := by
  have inside : (w.pc t).inside = true := by rw [here]; rfl
  have held := atomic.exclusive t inside
  have made := atomic.holder held
  rw [here] at made
  have made' : sec.apply (replay start w.events) = (w.store, reply) := made
  refine ⟨atomic.answered.concat_ran t (by rw [made']), ?_, ?_⟩
  · unfold System.Present
    dsimp only [System.goto]
    rw [replay_concat, Event.apply, made']
  · intro u insideNow
    by_cases same : u = t
    · rw [same, System.goto_pc, Function.update_self] at insideNow
      cases insideNow
    · rw [System.goto_pc, Function.update_of_ne same] at insideNow
      exact absurd (Option.some.inj ((atomic.exclusive u insideNow).symm.trans held)) same

theorem enter (atomic : w.Atomic start) (free : w.mutex = none) :
    (({ w with mutex := some t } : System Tid V).goto t (.search sec)).Atomic start := by
  refine ⟨atomic.answered, ?_, ?_⟩
  · unfold System.Present
    dsimp only [System.goto]
    rw [Function.update_self]
    exact atomic.free free
  · intro u inside
    by_cases same : u = t
    · rw [same]
      rfl
    · rw [System.goto_pc, Function.update_of_ne same] at inside
      rw [atomic.exclusive u inside] at free
      cases free

theorem allocated (atomic : w.Atomic start) {pc : Pc V}
    (old : (w.pc t).inside = false) (new : pc.inside = false)
    (stepped : (w.allocate moved).map (·.goto t pc) = some w') : w'.Atomic start := by
  obtain ⟨between, allocates, rfl⟩ := Option.map_eq_some_iff.mp stepped
  obtain ⟨kept, places⟩ := atomic.allocate allocates
  exact kept.outside (by rw [places]; exact old) new

theorem go (atomic : w.Atomic start) {fails : Bool}
    (stepped : w.go t moved fails = some w') : w'.Atomic start := by
  unfold System.go at stepped
  cases here : w.pc t with
  | idle =>
      rw [here] at stepped
      cases stepped
  | pair key value | cell key value | vector key value prealloc =>
      rw [here] at stepped
      exact atomic.allocated (by rw [here]; rfl) rfl stepped
  | predict key value =>
      rw [here] at stepped
      obtain rfl := Option.some.inj stepped
      exact atomic.outside (by rw [here]; rfl) rfl
  | compare key value prealloc =>
      rw [here] at stepped
      dsimp only at stepped
      split at stepped
      · obtain rfl := Option.some.inj stepped
        exact atomic.outside (by rw [here]; rfl) rfl
      · obtain rfl := Option.some.inj stepped
        exact atomic.outside (by rw [here]; rfl) rfl
  | enter sec =>
      rw [here] at stepped
      dsimp only at stepped
      split at stepped
      case h_1 free =>
        obtain rfl := Option.some.inj stepped
        exact atomic.enter free
      case h_2 => cases stepped
  | search sec =>
      rw [here] at stepped
      obtain rfl := Option.some.inj stepped
      exact atomic.search here
  | spliced key value preVec =>
      rw [here] at stepped
      obtain rfl := Option.some.inj stepped
      have inside : (w.pc t).inside = true := by rw [here]; rfl
      have found := atomic.holder (atomic.exclusive t inside)
      rw [here] at found
      obtain ⟨absent, stored⟩ := found
      apply atomic.advance inside
      rw [stored]
      exact ⟨absent, rfl⟩
  | counted key value preVec =>
      rw [here] at stepped
      obtain rfl := Option.some.inj stepped
      exact atomic.grow here
  | unlinked key =>
      rw [here] at stepped
      obtain rfl := Option.some.inj stepped
      have inside : (w.pc t).inside = true := by rw [here]; rfl
      have found := atomic.holder (atomic.exclusive t inside)
      rw [here] at found
      obtain ⟨present, stored⟩ := found
      obtain ⟨pair, isThere⟩ := Option.isSome_iff_exists.mp present
      apply atomic.advance inside
      simp only [Pc.Partial, Section.apply, biRemhash, isThere, stored]
  | cleared =>
      rw [here] at stepped
      obtain rfl := Option.some.inj stepped
      have inside : (w.pc t).inside = true := by rw [here]; rfl
      have stored := atomic.holder (atomic.exclusive t inside)
      rw [here] at stored
      have stored' : w.store = _ := stored
      apply atomic.advance inside
      simp only [Pc.Partial, Section.apply, biClrhash, stored']
  | leave sec reply =>
      rw [here] at stepped
      obtain rfl := Option.some.inj stepped
      exact atomic.leave here

theorem step (atomic : w.Atomic start) {action : Action Tid V}
    (stepped : w.step action = some w') : w'.Atomic start := by
  cases action with
  | start t request =>
      simp only [System.step] at stepped
      split at stepped
      case h_1 idle =>
        obtain rfl := Option.some.inj stepped
        cases request <;> exact atomic.outside (by rw [idle]; rfl) rfl
      case h_2 => cases stepped
  | go t moved fails => exact atomic.go stepped
  | collect places => exact (atomic.collect stepped).1

theorem run {actions : List (Action Tid V)} {w w' : System Tid V} (atomic : w.Atomic start)
    (ran : w.run actions = some w') : w'.Atomic start := by
  induction actions generalizing w with
  | nil =>
      obtain rfl := Option.some.inj ran
      exact atomic
  | cons action rest induction =>
      obtain ⟨between, stepped, runs⟩ := Option.bind_eq_some_iff.mp ran
      exact induction (atomic.step stepped) runs

end System.Atomic

theorem relink_length (t : Table V) (places : Places) (newCount : Nat) :
    (t.relink places newCount).buckets.length = newCount := by
  have spliced := length_distribute
    (fun pair : Obj × V => Table.index places t.test newCount pair.1) t.buckets.flatten
    (empty newCount)
  rw [List.foldl_flatten, length_empty] at spliced
  exact spliced

/-- The bucket count changes only when a vector is installed, and then the table at that
moment is over its load factor and half as large as the vector. -/
theorem System.step_grows [DecidableEq Tid] {w w' : System Tid V} {action : Action Tid V}
    (stepped : w.step action = some w')
    (grown : w'.store.table.buckets.length ≠ w.store.table.buckets.length) :
    ∃ t moved fails key value length, action = .go t moved fails ∧
      w.pc t = .counted key value (some length) ∧
      w.store.table.count > w.store.table.buckets.length * 3 / 4 ∧
      length = w.store.table.buckets.length * 2 ∧
      w'.store.table.buckets.length = length := by
  have collected {places : Places} {v : System Tid V} (collects : w.collect places = some v) :
      v.store.table.buckets.length = w.store.table.buckets.length := by
    unfold System.collect at collects
    split at collects
    · obtain rfl := Option.some.inj collects
      exact collect_length _ _
    · cases collects
  have allocated {moved : Option Places} {t : Tid} {pc : Pc V}
      (allocates : (w.allocate moved).map (·.goto t pc) = some w') :
      w'.store.table.buckets.length = w.store.table.buckets.length := by
    obtain ⟨between, first, rfl⟩ := Option.map_eq_some_iff.mp allocates
    cases moved with
    | none =>
        obtain rfl := Option.some.inj first
        rfl
    | some places =>
        have kept : between.store.table.buckets.length = _ := collected first
        exact kept
  cases action with
  | start t request =>
      simp only [System.step] at stepped
      split at stepped
      · obtain rfl := Option.some.inj stepped
        cases request <;> exact absurd rfl grown
      · cases stepped
  | collect places => exact absurd (collected stepped) grown
  | go t moved fails =>
      refine ⟨t, moved, fails, ?_⟩
      simp only [System.step, System.go] at stepped
      cases here : w.pc t with
      | counted key value preVec =>
          rw [here] at stepped
          obtain rfl := Option.some.inj stepped
          unfold System.grow at grown ⊢
          dsimp only at grown ⊢
          cases preVec with
          | none => exact absurd rfl grown
          | some length =>
              dsimp only at grown ⊢
              split at grown
              case isTrue grows =>
                refine ⟨key, value, length, rfl, rfl, grows.1, grows.2, ?_⟩
                rw [if_pos grows]
                exact relink_length _ _ _
              case isFalse => exact absurd rfl grown
      | pair key value | cell key value | vector key value prealloc =>
          rw [here] at stepped
          exact absurd (allocated stepped) grown
      | search sec =>
          rw [here] at stepped
          obtain rfl := Option.some.inj stepped
          exfalso
          apply grown
          cases sec with
          | gethash key default => rfl
          | setfGethash key value preVec =>
              unfold System.search
              dsimp only
              split <;> simp [Table.update]
          | remhash key =>
              unfold System.search
              dsimp only
              split <;> simp
          | clrhash => simp [System.search]
      | compare key value prealloc =>
          rw [here] at stepped
          dsimp only at stepped
          split at stepped <;> obtain rfl := Option.some.inj stepped <;> exact absurd rfl grown
      | enter sec =>
          rw [here] at stepped
          dsimp only at stepped
          split at stepped
          · obtain rfl := Option.some.inj stepped
            exact absurd rfl grown
          · cases stepped
      | idle =>
          rw [here] at stepped
          cases stepped
      | _ =>
          rw [here] at stepped
          obtain rfl := Option.some.inj stepped
          exact absurd rfl grown

def Section.Sized : Section V → Prop
  | .setfGethash _ _ preVec => ∀ length, preVec = some length → length ≤ maxBuckets
  | _ => True

def Pc.Sized : Pc V → Prop
  | .vector _ _ prealloc => prealloc * 2 ≤ maxBuckets
  | .enter sec | .search sec | .leave sec _ => sec.Sized
  | .spliced _ _ preVec | .counted _ _ preVec =>
      ∀ length, preVec = some length → length ≤ maxBuckets
  | _ => True

def Event.Sized : Event Tid V → Prop
  | .ran _ sec _ => sec.Sized
  | .collected _ => True

structure System.Sized (w : System Tid V) : Prop where
  pcs : ∀ t, (w.pc t).Sized
  events : ∀ event ∈ w.events, event.Sized

namespace System.Sized

variable {w w' : System Tid V}

theorem initial (start : Store V) : (System.initial Tid start).Sized :=
  ⟨fun _ => trivial, by simp [System.initial]⟩

theorem collect (sized : w.Sized) {places : Places} (collects : w.collect places = some w') :
    w'.Sized := by
  unfold System.collect at collects
  split at collects
  · obtain rfl := Option.some.inj collects
    refine ⟨sized.pcs, fun event member => ?_⟩
    rcases List.mem_append.mp member with old | new
    · exact sized.events event old
    · obtain rfl := List.mem_singleton.mp new
      exact trivial
  · cases collects

variable [DecidableEq Tid]

theorem goto (sized : w.Sized) (t : Tid) {pc : Pc V} (small : pc.Sized) : (w.goto t pc).Sized := by
  refine ⟨fun u => ?_, sized.events⟩
  by_cases same : u = t
  · rw [same, System.goto_pc, Function.update_self]
    exact small
  · rw [System.goto_pc, Function.update_of_ne same]
    exact sized.pcs u

theorem allocated (sized : w.Sized) {pc : Pc V}
    (small : pc.Sized) (stepped : (w.allocate moved).map (·.goto t pc) = some w') : w'.Sized := by
  obtain ⟨between, allocates, rfl⟩ := Option.map_eq_some_iff.mp stepped
  cases moved with
  | none =>
      obtain rfl := Option.some.inj allocates
      exact sized.goto t small
  | some places => exact (sized.collect allocates).goto t small

theorem search (sized : w.Sized) (t : Tid) (small : sec.Sized) : (w.search t sec).Sized := by
  have tabled (table : Table V) : (w.setTable table).Sized := ⟨sized.pcs, sized.events⟩
  cases sec with
  | gethash key default => exact sized.goto t trivial
  | setfGethash key value preVec =>
      unfold System.search
      dsimp only
      split <;> exact (tabled _).goto t small
  | remhash key =>
      unfold System.search
      dsimp only
      split
      · exact (tabled _).goto t trivial
      · exact sized.goto t trivial
  | clrhash => exact (tabled _).goto t trivial

theorem grow (sized : w.Sized) (t : Tid) {key : Obj} {value : V} {preVec : Option Nat}
    (small : ∀ length, preVec = some length → length ≤ maxBuckets) :
    (w.grow t key value preVec).Sized := by
  have tabled (table : Table V) : (w.setTable table).Sized := ⟨sized.pcs, sized.events⟩
  unfold System.grow
  dsimp only
  cases preVec with
  | none => exact sized.goto t small
  | some length =>
      dsimp only
      split
      · exact (tabled _).goto t small
      · exact sized.goto t small

theorem go (sized : w.Sized) {fails : Bool}
    (stepped : w.go t moved fails = some w') : w'.Sized := by
  have tabled (table : Table V) : (w.setTable table).Sized := ⟨sized.pcs, sized.events⟩
  have small := sized.pcs t
  unfold System.go at stepped
  cases here : w.pc t with
  | idle =>
      rw [here] at stepped
      cases stepped
  | pair key value | cell key value =>
      rw [here] at stepped
      refine sized.allocated ?_ stepped
      exact trivial
  | vector key value prealloc =>
      rw [here] at stepped small
      refine sized.allocated ?_ stepped
      intro length
      cases fails with
      | true => simp
      | false =>
          rintro ⟨⟩
          exact small
  | predict key value =>
      rw [here] at stepped
      obtain rfl := Option.some.inj stepped
      exact sized.goto t trivial
  | compare key value prealloc =>
      rw [here] at stepped
      dsimp only at stepped
      split at stepped
      case isTrue wanted =>
        obtain rfl := Option.some.inj stepped
        exact sized.goto t wanted.2
      case isFalse =>
        obtain rfl := Option.some.inj stepped
        exact sized.goto t (by simp [Pc.Sized, Section.Sized])
  | enter sec =>
      rw [here] at stepped small
      dsimp only at stepped
      split at stepped
      · obtain rfl := Option.some.inj stepped
        have held : ({ w with mutex := some t } : System Tid V).Sized := ⟨sized.pcs, sized.events⟩
        exact held.goto t small
      · cases stepped
  | search sec =>
      rw [here] at stepped small
      obtain rfl := Option.some.inj stepped
      exact sized.search t small
  | spliced key value preVec =>
      rw [here] at stepped small
      obtain rfl := Option.some.inj stepped
      exact (tabled _).goto t small
  | counted key value preVec =>
      rw [here] at stepped small
      obtain rfl := Option.some.inj stepped
      exact sized.grow t small
  | unlinked key | cleared =>
      rw [here] at stepped
      obtain rfl := Option.some.inj stepped
      exact (tabled _).goto t trivial
  | leave sec reply =>
      rw [here] at stepped small
      obtain rfl := Option.some.inj stepped
      have logged : ({ w with mutex := none, events := w.events ++ [.ran t sec reply] } :
          System Tid V).Sized := by
        refine ⟨sized.pcs, fun event member => ?_⟩
        rcases List.mem_append.mp member with old | new
        · exact sized.events event old
        · obtain rfl := List.mem_singleton.mp new
          exact small
      exact logged.goto t trivial

theorem step (sized : w.Sized) {action : Action Tid V} (stepped : w.step action = some w') :
    w'.Sized := by
  cases action with
  | start t request =>
      simp only [System.step] at stepped
      split at stepped
      · obtain rfl := Option.some.inj stepped
        cases request <;> exact sized.goto t trivial
      · cases stepped
  | go t moved fails => exact sized.go stepped
  | collect places => exact sized.collect stepped

theorem run {actions : List (Action Tid V)} {w w' : System Tid V} (sized : w.Sized)
    (ran : w.run actions = some w') : w'.Sized := by
  induction actions generalizing w with
  | nil =>
      obtain rfl := Option.some.inj ran
      exact sized
  | cons action rest induction =>
      obtain ⟨between, stepped, runs⟩ := Option.bind_eq_some_iff.mp ran
      exact induction (sized.step stepped) runs

end System.Sized

def Event.command : Event Tid V → Command V
  | .ran _ (.gethash key default) _ => .gethash key default
  | .ran _ (.setfGethash key value _) _ => .setfGethash key value quiet
  | .ran _ (.remhash key) _ => .remhash key
  | .ran _ .clrhash _ => .clrhash
  | .collected places => .collect places

def Event.reply : Event Tid V → Reply V
  | .ran _ _ reply => reply
  | .collected _ => .done

variable {tables : Nat → Nat → Bool} {test : Test} {keys : Set Obj} {s : Store V}
  {entries : List (Obj × V)}

theorem Represents.section (keyed : Keyed tables test keys)
    (represents : Represents tables test keys s entries) (t : Tid)
    (sized : sec.Sized)
    (keyMember : ∀ key, (Event.command (.ran t sec (sec.apply s).2)).key = some key → key ∈ keys) :
    Represents tables test keys (sec.apply s).1
        (mapStep (test.holds tables) entries (Event.command (.ran t sec (sec.apply s).2))).1 ∧
      (sec.apply s).2 =
        (mapStep (test.holds tables) entries (Event.command (.ran t sec (sec.apply s).2))).2 := by
  cases sec with
  | gethash key default => exact represents.step keyed (.gethash key default) keyMember
  | setfGethash key value preVec =>
      exact ⟨represents.syncSection keyed (keyMember key rfl) value fun length => sized length, rfl⟩
  | remhash key => exact represents.step keyed (.remhash key) keyMember
  | clrhash => exact represents.step keyed .clrhash keyMember

theorem Represents.replay (keyed : Keyed tables test keys) {events : List (Event Tid V)}
    (represents : Represents tables test keys s entries) (answered : Answered s events)
    (sized : ∀ event ∈ events, event.Sized) (keyMember : keysOf (events.map Event.command) ⊆ keys) :
    Represents tables test keys (replay s events)
        (mapRun (test.holds tables) entries (events.map Event.command)).1 ∧
      events.map Event.reply = (mapRun (test.holds tables) entries
        (events.map Event.command)).2 := by
  induction events generalizing s entries with
  | nil => exact ⟨represents, rfl⟩
  | cons event rest induction =>
      have later : keysOf (rest.map Event.command) ⊆ keys := by
        rintro key ⟨command, member, isKey⟩
        exact keyMember ⟨command, List.mem_cons_of_mem _ member, isKey⟩
      have first : ∀ key, event.command.key = some key → key ∈ keys := fun key isKey =>
        keyMember ⟨_, List.mem_cons_self, isKey⟩
      have restSized : ∀ event ∈ rest, event.Sized := fun event member =>
        sized event (List.mem_cons_of_mem _ member)
      cases event with
      | ran t sec reply =>
          obtain ⟨rfl, restAnswered⟩ := answered
          obtain ⟨stays, replies⟩ := represents.section keyed t (sized _ List.mem_cons_self) first
          obtain ⟨runs, answers⟩ := induction stays restAnswered restSized later
          exact ⟨runs, List.cons_eq_cons.mpr ⟨replies, answers⟩⟩
      | collected places =>
          obtain ⟨runs, answers⟩ := induction (represents.collect places) answered restSized later
          exact ⟨runs, List.cons_eq_cons.mpr ⟨rfl, answers⟩⟩

theorem Store.Settled.replay (settled : s.Settled) (events : List (Event Tid V)) :
    (replay s events).Settled := by
  induction events generalizing s with
  | nil => exact settled
  | cons event rest induction =>
      apply induction
      cases event with
      | collected places => exact (settled.collect places).1
      | ran t sec reply =>
          cases sec with
          | gethash key default => exact settled
          | setfGethash key value preVec => exact settled.syncSection key value preVec
          | remhash key => exact settled.biRemhash key
          | clrhash => exact settled.biClrhash

/-- In every interleaving of threads at a fresh synchronized table: the sections answer as
they do one after another, and between them the table is what they and the collections make
of it in their order, with as many entries as it counts; on admissible keys its entries are
those of the map, none of them twice, and the answers are those of the map; and the bucket
count changes only when the thread in the section installs its vector, at a moment when the
table is over its load factor and half as large. -/
theorem sync_table_atomic [DecidableEq Tid] (places : Places) (test : Test)
    (actions : List (Action Tid V)) (w : System Tid V)
    (ran : (System.initial Tid ⟨places, biMakeSyncHashTable test⟩).run actions = some w) :
    let start : Store V := ⟨places, biMakeSyncHashTable test⟩
    Answered start w.events ∧
    (w.mutex = none → w.store = replay start w.events ∧
      w.store.table.count = w.store.table.buckets.flatten.length) ∧
    (∀ tables platform, Admissible tables platform test (keysOf (w.events.map Event.command)) →
      let map := mapRun (test.holds tables) [] (w.events.map Event.command)
      w.events.map Event.reply = map.2 ∧ Distinct (test.holds tables) map.1 ∧
        (w.mutex = none → w.store.table.buckets.flatten.Perm map.1)) ∧
    ∀ action w', w.step action = some w' →
      w'.store.table.buckets.length ≠ w.store.table.buckets.length →
      ∃ t moved fails key value length, action = .go t moved fails ∧ w.mutex = some t ∧
        w.pc t = .counted key value (some length) ∧
        w.store.table.count > w.store.table.buckets.length * 3 / 4 ∧
        length = w.store.table.buckets.length * 2 ∧
        w'.store.table.buckets.length = length := by
  intro start
  have atomic := (System.Atomic.initial start).run ran
  have sized := (System.Sized.initial start).run ran
  have settled : start.Settled := clMakeHashtable_settled places 16 test
  refine ⟨atomic.answered, fun free => ?_, fun tables platform admissible => ?_, ?_⟩
  · rw [atomic.free free]
    exact ⟨rfl, (settled.replay w.events).counted⟩
  · intro map
    have fresh : Represents tables test (keysOf (w.events.map Event.command)) start [] :=
      clMakeHashtable_represents places (by decide)
    obtain ⟨represents, replies⟩ := fresh.replay admissible.keyed atomic.answered sized.events
      (Set.Subset.refl _)
    refine ⟨replies, represents.distinct, fun free => ?_⟩
    rw [atomic.free free]
    exact represents.contents
  · intro action w' stepped grown
    obtain ⟨t, moved, fails, key, value, length, isGo, here, full, half, grows⟩ :=
      System.step_grows stepped grown
    have held := atomic.exclusive t (by rw [here]; rfl)
    exact ⟨t, moved, fails, key, value, length, isGo, held, here, full, half, grows⟩

/-- Two threads insert the same key; both have allocated their cells before the first one
enters. -/
theorem sync_table_atomic_twice :
    let start : Store Nat := ⟨fun id => BitVec.ofNat 32 (8 * id), biMakeSyncHashTable .eq⟩
    let prepare (t : Bool) : List (Action Bool Nat) :=
      [.start t (.setfGethash (.other 1) 7), .go t none false, .go t none false,
        .go t none false, .go t none false]
    let insert : List (Action Bool Nat) := List.replicate 5 (.go false none false)
    let update : List (Action Bool Nat) := List.replicate 3 (.go true none false)
    ((System.initial Bool start).run (prepare true ++ prepare false ++ insert ++ update)).map
      (fun w => (w.store.table.count, w.store.table.buckets.flatten.length)) = some (1, 1) := by
  intro start prepare insert update
  have isSome : ((System.initial Bool start).run
      (prepare true ++ prepare false ++ insert ++ update)).isSome = true := by
    decide +kernel
  obtain ⟨w, ran⟩ := Option.isSome_iff_exists.mp isSome
  have summary : ((System.initial Bool start).run
      (prepare true ++ prepare false ++ insert ++ update)).map
      (fun w => (w.mutex, w.store.table.count)) = some (none, 1) := by
    decide +kernel
  rw [ran] at summary ⊢
  obtain ⟨free, count⟩ := Prod.mk.inj (Option.some.inj summary)
  have counted := ((sync_table_atomic _ .eq _ w ran).2.1 free).2
  rw [Option.map_some, ← counted, count]

end ClAmiga.HashTable
