import ClAmiga.Package.Externality

/-!
# Threads that intern names

`cl_intern_in` and `cl_shadow_symbol` look a name up under the read lock, make the symbol
and its cell without a lock, and link them under the write lock after a second lookup.
Any number of threads take these sections in any order, in packages without binding tables.
-/

namespace ClAmiga.Packages

/-- `cl_shadow_symbol` looks at the package's own table only and returns nothing. -/
inductive Kind where
  | intern
  | shadow
  deriving DecidableEq, Repr

inductive Pc where
  | idle
  /-- the fast path has not found the name -/
  | make (kind : Kind) (name : Name) (p : Nat)
  /-- the symbol is made, and the write lock is next -/
  | link (kind : Kind) (name : Name) (p s : Nat)
  /-- a new keyword is linked and not exported yet -/
  | exportKeyword (name : Name) (s : Nat)
  deriving DecidableEq, Repr

/-- A symbol that `cl_intern_in` has returned. -/
structure Returned where
  name : Name
  package : Nat
  symbol : Nat
  deriving DecidableEq, Repr

structure World (Tid : Type) where
  heap : Heap
  pc : Tid → Pc
  returned : List Returned

variable {Tid : Type} [DecidableEq Tid]

namespace World

variable (w : World Tid)

def goto (t : Tid) (heap : Heap) (pc : Pc) : World Tid :=
  { w with heap := heap, pc := Function.update w.pc t pc }

def answer (t : Tid) (heap : Heap) (kind : Kind) (name : Name) (p s : Nat) : World Tid :=
  { heap := heap
    pc := Function.update w.pc t .idle
    returned := if kind = .intern then w.returned ++ [⟨name, p, s⟩] else w.returned }

def lookup (kind : Kind) (name : Name) (p : Nat) : Option Nat :=
  match kind with
  | .intern => w.heap.findSymbol name p
  | .shadow => w.heap.findOwnSymbol name p

def call (t : Tid) (kind : Kind) (name : Name) (p : Nat) : Option (World Tid) :=
  match w.pc t with
  | .idle =>
      match w.lookup kind name p with
      | some s => some (w.answer t w.heap kind name p s)
      | none => some (w.goto t w.heap (.make kind name p))
  | _ => none

def next (t : Tid) : Option (World Tid) :=
  match w.pc t with
  | .idle => none
  | .make kind name p =>
      some (w.goto t (w.heap.makeSymbol name (clHashString name))
        (.link kind name p w.heap.allocated))
  | .link kind name p s =>
      match w.lookup kind name p with
      | some existing => some (w.answer t w.heap kind name p existing)
      | none =>
          let linked := w.heap.addSymbolCell p s
          if kind = .intern ∧ p = w.heap.keyword then some (w.goto t linked (.exportKeyword name s))
          else some (w.answer t linked kind name p s)
  | .exportKeyword name s =>
      match w.heap.exportSymbol s w.heap.keyword with
      | .ok exported => some (w.answer t exported .intern name w.heap.keyword s)
      | .error _ => some (w.goto t w.heap .idle)

end World

/-- The states that calls reach from packages as they are. -/
inductive Interleaved (start : Heap) : World Tid → Prop where
  | start : Interleaved start ⟨start, fun _ => .idle, []⟩
  | call {w w' : World Tid} (before : Interleaved start w) (t : Tid) (kind : Kind) (name : Name)
      (p : Nat) (steps : w.call t kind name p = some w') : Interleaved start w'
  | next {w w' : World Tid} (before : Interleaved start w) (t : Tid) (steps : w.next t = some w') :
      Interleaved start w'

section Heaps

variable {h : Heap} {p s : Nat} {name : Name}

/-- From `h` to `h'` only the symbol `s` changes or becomes present. -/
structure Grows (s : Nat) (h h' : Heap) : Prop where
  symbol : ∀ u, u ≠ s → h'.symbol u = h.symbol u
  name : s < h.allocated → (h'.symbol s).name = (h.symbol s).name
  allocated : h.allocated ≤ h'.allocated
  kept : ∀ q u, u ∈ (h.package q).present → u ∈ (h'.package q).present
  new : ∀ q u, u ∈ (h'.package q).present → u ∈ (h.package q).present ∨ u = s
  keyword : h'.keyword = h.keyword

theorem Grows.refl (s : Nat) (h : Heap) : Grows s h h :=
  ⟨fun _ _ => rfl, fun _ => rfl, Nat.le_refl _, fun _ _ => id, fun _ _ => .inl, rfl⟩

theorem grows_makeSymbol (h : Heap) (name : Name) (hash : UInt32) :
    Grows h.allocated h (h.makeSymbol name hash) where
  symbol u other := by simp [other]
  name impossible := absurd impossible (Nat.lt_irrefl _)
  allocated := Nat.le_succ _
  kept _ _ := id
  new _ _ := .inl
  keyword := rfl

/-- A symbol of a thread's own: made, and neither linked nor exported. -/
structure Fresh (h : Heap) (name : Name) (s : Nat) : Prop where
  made : s < h.allocated
  symbol : h.symbol s = ⟨name, none, clHashString name, false, false⟩
  absent : ∀ q, s ∉ (h.package q).present

theorem fresh_makeSymbol (inv : Inv h) (name : Name) :
    Fresh (h.makeSymbol name (clHashString name)) name h.allocated :=
  ⟨Nat.lt_succ_self _, by simp, inv.notAllocated⟩

theorem Fresh.grows {h' : Heap} {u : Nat} (fresh : Fresh h name u) (grows : Grows s h h')
    (other : u ≠ s) : Fresh h' name u :=
  ⟨Nat.lt_of_lt_of_le fresh.made grows.allocated, (grows.symbol u other).trans fresh.symbol,
    fun q member => (grows.new q u member).elim (fresh.absent q) other⟩

theorem mem_present_addSymbolCell (inv : Inv h) (q u : Nat) :
    u ∈ ((h.addSymbolCell p s).package q).present ↔ u ∈ (h.package q).present ∨ q = p ∧ u = s := by
  have inside : Heap.bucket (h.symbol s).hash < (h.package p).symbols.length := by
    rw [(inv.good p).size]
    exact Heap.bucket_lt _
  by_cases same : q = p
  · subst same
    have contents := (Chain.flatten_push _ _ s inside).mem_iff (a := u)
    simpa [Heap.addSymbolCell, Heap.linkSymbolCell, Package.present, or_comm] using contents
  · simp [Heap.addSymbolCell, Heap.linkSymbolCell, Package.present, same]

theorem grows_addSymbolCell (inv : Inv h) (p s : Nat) : Grows s h (h.addSymbolCell p s) where
  symbol u other := by simp [Heap.addSymbolCell, Heap.linkSymbolCell, other]
  name _ := by simp [Heap.addSymbolCell, Heap.linkSymbolCell]
  allocated := Nat.le_refl _
  kept q u member := (mem_present_addSymbolCell inv q u).mpr (.inl member)
  new q u member := ((mem_present_addSymbolCell inv q u).mp member).imp_right And.right
  keyword := rfl

/-- Linking a fresh symbol keeps the invariant when the lookup has missed. -/
theorem Fresh.link_inv (inv : Inv h) (fresh : Fresh h name s)
    (missed : h.findOwnSymbol name p = none) : Inv (h.addSymbolCell p s) := by
  have linked : Inv (h.linkSymbolCell p s) := by
    apply inv.link fresh.made
    · rw [fresh.symbol]
    · rw [fresh.symbol]
      exact missed
  refine linked.settle fun q member => fresh.absent q ((inv.good q).exportsPresent s ?_)
  by_cases same : q = p
  · subst same
    simpa [Heap.linkSymbolCell] using member
  · simpa [Heap.linkSymbolCell, same] using member

theorem exportSymbol_present (inv : Inv h) (present : s ∈ (h.package p).present) :
    h.exportSymbol s p = .ok (h.markExported p s) := by
  cases found : h.findOwnSymbol (h.symbol s).name p with
  | none => exact absurd rfl (findOwnSymbol_none inv found s present)
  | some existing => simp [Heap.exportSymbol, found]

theorem grows_markExported (h : Heap) (p s : Nat) : Grows s h (h.markExported p s) := by
  have package : ∀ q, ((h.markExported p s).package q).present = (h.package q).present := by
    intro q
    unfold Heap.markExported
    dsimp only
    split
    · rfl
    · by_cases same : q = p <;> simp [Package.present, same]
  refine ⟨fun u other => ?_, fun _ => ?_, ?_, fun q u => ?_, fun q u => ?_, ?_⟩
  · unfold Heap.markExported
    dsimp only
    split <;> simp [other]
  · unfold Heap.markExported
    dsimp only
    split <;> simp
  · unfold Heap.markExported
    dsimp only
    split <;> simp
  · rw [package]
    exact id
  · rw [package]
    exact .inl
  · unfold Heap.markExported
    dsimp only
    split <;> rfl

theorem Grows.name_eq {h' : Heap} {u : Nat} (grows : Grows s h h') (made : u < h.allocated) :
    (h'.symbol u).name = (h.symbol u).name := by
  by_cases same : u = s
  · exact same ▸ grows.name (same ▸ made)
  · rw [grows.symbol u same]

theorem findSymbol_present (inv : Inv h) (present : s ∈ (h.package p).present)
    (named : (h.symbol s).name = name) : h.findSymbol name p = some s := by
  unfold Heap.findSymbol
  cases found : h.findOwnSymbol name p with
  | none => exact absurd named (findOwnSymbol_none inv found s present)
  | some existing =>
      have known := findOwnSymbol_some found
      have same := (inv.good p).named existing known.1 s present (known.2.trans named.symm)
      rw [same, Option.some_or]

/-- The name and the place of a symbol that has been found. -/
def Known (h : Heap) (name : Name) (s : Nat) : Prop :=
  s < h.allocated ∧ (h.symbol s).name = name

theorem known_of_own (inv : Inv h) (found : h.findOwnSymbol name p = some s) : Known h name s :=
  have known := findOwnSymbol_some found
  ⟨(inv.good p).allocated s known.1, known.2⟩

theorem known_of_found (inv : Inv h) (found : h.findSymbol name p = some s) : Known h name s := by
  rcases Option.or_eq_some_iff.mp found with own | ⟨-, inherited⟩
  · exact known_of_own inv own
  · obtain ⟨used, -, external⟩ := List.exists_of_findSome?_eq_some inherited
    exact known_of_own inv (Option.eq_some_of_filter_eq_some external)

end Heaps

/-- The symbol that only its thread knows. -/
def Pc.own : Pc → Option (Name × Nat)
  | .link _ name _ s => some (name, s)
  | _ => none

def Pc.exports : Pc → Option (Name × Nat)
  | .exportKeyword name s => some (name, s)
  | _ => none

structure Sound (w : World Tid) : Prop where
  inv : Inv w.heap
  fresh : ∀ t name s, (w.pc t).own = some (name, s) → Fresh w.heap name s
  distinct : ∀ t u name name' s, (w.pc t).own = some (name, s) → (w.pc u).own = some (name', s) →
    t = u
  exporting : ∀ t name s, (w.pc t).exports = some (name, s) →
    s ∈ (w.heap.package w.heap.keyword).present ∧ (w.heap.symbol s).name = name
  returned : ∀ r ∈ w.returned, Known w.heap r.name r.symbol

/-- A call that returns a symbol returns the one that the name denotes at that moment. -/
def Answers (w w' : World Tid) : Prop :=
  ∀ r, w'.returned = w.returned ++ [r] → w'.heap.findSymbol r.name r.package = some r.symbol

theorem answers_answer {w : World Tid} {t : Tid} {heap : Heap} {kind : Kind} {name : Name}
    {p s : Nat} (found : kind = .intern → heap.findSymbol name p = some s) :
    Answers w (w.answer t heap kind name p s) := by
  intro r longer
  cases kind with
  | intern =>
      have last : [⟨name, p, s⟩] = [r] := List.append_cancel_left longer
      obtain rfl := List.singleton_inj.mp last
      exact found rfl
  | shadow => simp [World.answer] at longer

namespace Sound

variable {w w' : World Tid} {t : Tid}

/-- A section of one thread that touches no other thread's symbol. -/
theorem step (sound : Sound w) {s : Nat} {heap : Heap} {pc : Pc} {returned : List Returned}
    (inv : Inv heap) (grows : Grows s w.heap heap)
    (others : ∀ u, u ≠ t → ∀ name, (w.pc u).own ≠ some (name, s))
    (own : ∀ name own, pc.own = some (name, own) → Fresh heap name own ∧
      ∀ u, u ≠ t → ∀ name', (w.pc u).own ≠ some (name', own))
    (exports : ∀ name s, pc.exports = some (name, s) →
      s ∈ (heap.package heap.keyword).present ∧ (heap.symbol s).name = name)
    (answers : ∀ r ∈ returned, r ∈ w.returned ∨ Known heap r.name r.symbol) :
    Sound ⟨heap, Function.update w.pc t pc, returned⟩ where
  inv := inv
  fresh u name v mine := by
    by_cases same : u = t
    · subst same
      exact (own name v (by simpa using mine)).1
    · have before : (w.pc u).own = some (name, v) := by simpa [same] using mine
      refine (sound.fresh u name v before).grows grows ?_
      rintro rfl
      exact others u same name before
  distinct u v name name' x first second := by
    by_cases mine : u = t <;> by_cases mine' : v = t
    · rw [mine, mine']
    · subst mine
      exact absurd (by simpa [mine'] using second)
        ((own name x (by simpa using first)).2 v mine' name')
    · subst mine'
      exact absurd (by simpa [mine] using first)
        ((own name' x (by simpa using second)).2 u mine name)
    · exact sound.distinct u v name name' x (by simpa [mine] using first)
        (by simpa [mine'] using second)
  exporting u name v mine := by
    by_cases same : u = t
    · subst same
      exact exports name v (by simpa using mine)
    · obtain ⟨present, named⟩ := sound.exporting u name v (by simpa [same] using mine)
      have made := (sound.inv.good _).allocated v present
      change v ∈ (heap.package heap.keyword).present ∧ (heap.symbol v).name = name
      rw [grows.keyword, grows.name_eq made]
      exact ⟨grows.kept _ v present, named⟩
  returned r member := by
    rcases answers r member with old | new
    · obtain ⟨made, named⟩ := sound.returned r old
      exact ⟨Nat.lt_of_lt_of_le made grows.allocated, (grows.name_eq made).trans named⟩
    · exact new

theorem answer (sound : Sound w) {s found : Nat} {heap : Heap} {kind : Kind} {name : Name}
    {p : Nat} (inv : Inv heap) (grows : Grows s w.heap heap)
    (others : ∀ u, u ≠ t → ∀ name, (w.pc u).own ≠ some (name, s))
    (known : Known heap name found)
    (denoted : kind = .intern → heap.findSymbol name p = some found) :
    Sound (w.answer t heap kind name p found) ∧ Answers w (w.answer t heap kind name p found) := by
  refine ⟨sound.step inv grows others (by simp [Pc.own]) (by simp [Pc.exports]) ?_,
    answers_answer denoted⟩
  intro r member
  split at member
  · rcases List.mem_append.mp member with old | new
    · exact .inl old
    · obtain rfl := List.mem_singleton.mp new
      exact .inr known
  · exact .inl member

theorem goes (sound : Sound w) {s : Nat} {heap : Heap} {pc : Pc}
    (inv : Inv heap) (grows : Grows s w.heap heap)
    (others : ∀ u, u ≠ t → ∀ name, (w.pc u).own ≠ some (name, s))
    (own : ∀ name own, pc.own = some (name, own) → Fresh heap name own ∧
      ∀ u, u ≠ t → ∀ name', (w.pc u).own ≠ some (name', own))
    (exports : ∀ name s, pc.exports = some (name, s) →
      s ∈ (heap.package heap.keyword).present ∧ (heap.symbol s).name = name) :
    Sound (w.goto t heap pc) ∧ Answers w (w.goto t heap pc) :=
  ⟨sound.step inv grows others own exports fun _ => .inl, by simp [Answers, World.goto]⟩

omit [DecidableEq Tid] in
theorem unmade (sound : Sound w) (u : Tid) (name : Name) :
    (w.pc u).own ≠ some (name, w.heap.allocated) :=
  fun own => Nat.lt_irrefl _ (sound.fresh u name _ own).made

omit [DecidableEq Tid] in
theorem known_of_lookup (sound : Sound w) {kind : Kind} {name : Name} {p s : Nat}
    (found : w.lookup kind name p = some s) : Known w.heap name s := by
  cases kind with
  | intern => exact known_of_found sound.inv found
  | shadow => exact known_of_own sound.inv found

/-- A name that is found ends the call, and the heap stays as it is. -/
theorem found (sound : Sound w) {kind : Kind} {name : Name} {p s : Nat}
    (found : w.lookup kind name p = some s) :
    Sound (w.answer t w.heap kind name p s) ∧ Answers w (w.answer t w.heap kind name p s) := by
  refine sound.answer sound.inv (.refl _ _) (fun u _ name => sound.unmade u name)
    (sound.known_of_lookup found) ?_
  rintro rfl
  exact found

theorem call (sound : Sound w) {kind : Kind} {name : Name} {p : Nat}
    (steps : w.call t kind name p = some w') : Sound w' ∧ Answers w w' := by
  unfold World.call at steps
  split at steps
  case h_2 => cases steps
  split at steps
  case h_1 s found =>
    cases steps
    exact sound.found found
  case h_2 =>
    cases steps
    exact sound.goes sound.inv (.refl _ _) (fun u _ name => sound.unmade u name)
      (by simp [Pc.own]) (by simp [Pc.exports])

omit [DecidableEq Tid] in
theorem missed_own {kind : Kind} {name : Name} {p : Nat} (missed : w.lookup kind name p = none) :
    w.heap.findOwnSymbol name p = none := by
  cases kind with
  | intern => exact (Option.or_eq_none_iff.mp missed).1
  | shadow => exact missed

theorem next (sound : Sound w) (steps : w.next t = some w') : Sound w' ∧ Answers w w' := by
  unfold World.next at steps
  cases position : w.pc t with
  | idle => simp [position] at steps
  | make kind name p =>
      have unmade := fun u (_ : u ≠ t) name => sound.unmade u name
      simp only [position] at steps
      cases steps
      refine sound.goes (sound.inv.makeSymbol name _) (grows_makeSymbol _ _ _) unmade ?_
        (by simp [Pc.exports])
      rintro name' own mine
      cases mine
      exact ⟨fresh_makeSymbol sound.inv name, unmade⟩
  | link kind name p s =>
      have mine : (w.pc t).own = some (name, s) := by rw [position]; rfl
      have fresh := sound.fresh t name s mine
      have others : ∀ u, u ≠ t → ∀ name', (w.pc u).own ≠ some (name', s) :=
        fun u other name' own => other (sound.distinct u t name' name s own mine)
      simp only [position] at steps
      split at steps
      case h_1 existing found =>
        cases steps
        exact sound.found found
      case h_2 missed =>
        have inv := fresh.link_inv sound.inv (missed_own missed)
        have grows := grows_addSymbolCell sound.inv p s
        have present : s ∈ ((w.heap.addSymbolCell p s).package p).present :=
          (mem_present_addSymbolCell sound.inv _ _).mpr (.inr ⟨rfl, rfl⟩)
        have named : ((w.heap.addSymbolCell p s).symbol s).name = name :=
          (grows.name fresh.made).trans (by rw [fresh.symbol])
        split at steps
        case isTrue keyword =>
          cases steps
          refine sound.goes inv grows others (by simp [Pc.own]) ?_
          rintro name' s' new
          cases new
          rw [grows.keyword, ← keyword.2]
          exact ⟨present, named⟩
        case isFalse =>
          cases steps
          exact sound.answer inv grows others ⟨fresh.made, named⟩
            fun _ => findSymbol_present inv present named
  | exportKeyword name s =>
      obtain ⟨present, named⟩ := sound.exporting t name s (by rw [position]; rfl)
      have made := (sound.inv.good _).allocated s present
      simp only [position, exportSymbol_present sound.inv present] at steps
      cases steps
      have inv := sound.inv.markExported present
      have grows := grows_markExported w.heap w.heap.keyword s
      have known : Known (w.heap.markExported w.heap.keyword s) name s :=
        ⟨Nat.lt_of_lt_of_le made grows.allocated, (grows.name_eq made).trans named⟩
      refine sound.answer inv grows ?_ known
        fun _ => findSymbol_present inv (grows.kept _ s present) known.2
      exact fun u _ name' own => (sound.fresh u name' s own).absent _ present

end Sound

theorem Interleaved.sound {start : Heap} {w : World Tid} (inv : Inv start)
    (run : Interleaved start w) : Sound w := by
  induction run with
  | start => exact ⟨inv, by simp [Pc.own], by simp [Pc.own], by simp [Pc.exports], by simp⟩
  | call _ _ _ _ _ steps induction => exact (induction.call steps).1
  | next _ _ steps induction => exact (induction.next steps).1

/-- However the sections of interning and shadowing threads interleave, no package comes to
hold two symbols of one name; a symbol that an INTERN has returned and that is present in its
package is what the name denotes there from then on, so all of them are the same; and what an
INTERN returns is what the name denotes at that moment. -/
theorem interned_once {start : Heap} {w : World Tid} (inv : Inv start) (run : Interleaved start w) :
    Consistent w.heap ∧ (∀ r ∈ w.returned, r.symbol ∈ (w.heap.package r.package).present →
        w.heap.findSymbol r.name r.package = some r.symbol) ∧
      ∀ t w', (w.next t = some w' ∨ ∃ kind name p, w.call t kind name p = some w') →
        Answers w w' := by
  have sound := run.sound inv
  refine ⟨sound.inv.consistent, ?_, ?_⟩
  · intro r member present
    exact findSymbol_present sound.inv present (sound.returned r member).2
  · rintro t w' (steps | ⟨kind, name, p, steps⟩)
    · exact (sound.next steps).2
    · exact (sound.call steps).2

/-- Two threads miss the same name and make a symbol each; both return the one linked first. -/
theorem interned_once_race : ∃ w : World Nat, Interleaved (Heap.initial 0) w ∧
      w.returned = [⟨[88], 1, 1⟩, ⟨[88], 1, 1⟩] ∧ Consistent w.heap ∧
      w.heap.findSymbol [88] 1 = some 1 := by
  have idle : Interleaved (Heap.initial 0) ⟨Heap.initial 0, fun _ : Nat => .idle, []⟩ := .start
  have missed := idle.call 0 .intern [88] 1 rfl
  have missedToo := missed.call 1 .intern [88] 1 rfl
  have made := (missedToo.next 0 rfl).next 1 rfl
  have linked := (made.next 1 rfl).next 0 rfl
  have once := interned_once (initial_inv 0) linked
  exact ⟨_, linked, rfl, once.1, once.2.1 _ (List.mem_cons_self ..) (by decide)⟩

end ClAmiga.Packages
