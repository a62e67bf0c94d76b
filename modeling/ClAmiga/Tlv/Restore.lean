import Mathlib.Algebra.Group.Nat.Defs
import ClAmiga.Tlv.Refinement

/-!
# Runs of a thread

Over a run with room in the table the value of a symbol is that of its innermost live
binding, and restoring a mark gives back the value at the mark.  A symbol that finds the
table full keeps its global value.
-/

namespace ClAmiga.Tlv

variable {σ α : Type} [DecidableEq σ]

def Bindings.initial (global : σ → α) : Bindings σ α where
  stack := []
  global := global

section Steps

variable {state : State σ α} {bindings : Bindings σ α}

theorem Represents.value (represents : Represents state bindings) (sym : σ) :
    clSymbolValue state sym = bindings.value sym := by
  rw [clSymbolValue, Bindings.value, represents.stands.get, represents.global]
  split
  · cases innermost bindings.stack sym <;> rfl
  · next noEntries =>
      have none := represents.stands.means.eq_none_of_count
        (Nat.le_zero.mp (Nat.le_of_not_lt noEntries))
        (state.addresses.address sym)
      rw [innermost_placed] at none
      rw [none, Option.getD_none]

theorem Represents.setGlobal (represents : Represents state bindings) (sym : σ) (val : α) :
    Represents (state.setGlobal sym val) (bindings.setGlobal sym val) where
  stands := represents.stands
  global := by rw [State.setGlobal, Bindings.setGlobal, represents.global]

theorem Represents.assign (represents : Represents state bindings) (sym : σ) (val : α) :
    Represents (clSetSymbolValue state sym val) (bindings.step (.assign sym val)) := by
  have found := represents.stands.get sym
  rw [clSetSymbolValue, Bindings.step, found]
  cases bound : innermost bindings.stack sym with
  | none =>
      simp only [Option.isSome_none, Bool.false_eq_true, if_false, ite_self]
      exact represents.setGlobal sym val
  | some old =>
      have entries : state.thread.tlvEntryCount > 0 := by
        by_contra noEntries
        have none := represents.stands.means.eq_none_of_count
          (Nat.le_zero.mp (Nat.le_of_not_lt noEntries)) (state.addresses.address sym)
        rw [innermost_placed, bound] at none
        cases none
      simp only [Option.isSome_some, if_true, if_pos entries]
      exact ⟨represents.stands.assign val (by rw [bound]; rfl), represents.global⟩

theorem Represents.room (represents : Represents state bindings) {sym : σ} {val : α}
    (roomy : ((sym, val) :: bindings.stack |>.map Prod.fst).dedup.length ≤ tlvTableSize) :
    (innermost bindings.stack sym).isSome ∨ state.thread.tlvEntryCount < tlvTableSize := by
  by_cases bound : sym ∈ bindings.stack.map Prod.fst
  · exact Or.inl ((innermost_isSome_iff _ _).mpr bound)
  · rw [List.map_cons, List.dedup_cons_of_notMem bound, List.length_cons] at roomy
    rw [represents.stands.count]
    exact Or.inr roomy

theorem Represents.step (represents : Represents state bindings) {op : Op σ α}
    (roomy : (bindings.step op).symbols.length ≤ tlvTableSize) :
    Represents (Tlv.step state op) (bindings.step op) := by
  cases op with
  | bind sym val =>
      rw [Bindings.step] at roomy ⊢
      split at roomy
      · next ended =>
          have stopped : clDynbind state.thread (state.addresses.address sym) val =
            state.thread := by
            rw [clDynbind, if_pos]
            rw [represents.stands.saves, length_saved]
            exact ended
          rw [if_pos ended, Tlv.step, stopped]
          exact represents
      · next below =>
          rw [if_neg below]
          exact ⟨represents.stands.bind (Nat.lt_of_not_le below) (represents.room roomy),
            represents.global⟩
  | assign sym val => exact represents.assign sym val
  | restore mark => exact ⟨represents.stands.restore mark, represents.global⟩
  | assignElsewhere sym val => exact represents.setGlobal sym val
  | collect forwarding => exact ⟨represents.stands.collect forwarding, represents.global⟩

end Steps

theorem Represents.initial (addresses : Addresses σ) (global : σ → α) :
    Represents (State.initial addresses global) (Bindings.initial global) where
  stands := ⟨Means.empty [], rfl⟩
  global := rfl

theorem Represents.run (ops : List (Op σ α)) :
    ∀ {state : State σ α} {bindings : Bindings σ α}, Represents state bindings →
      bindings.Roomy ops → Represents (Tlv.run state ops) (bindings.run ops) := by
  induction ops with
  | nil => intro state bindings represents _; exact represents
  | cons op ops induction =>
      intro state bindings represents roomy
      exact induction (represents.step roomy.1) roomy.2

theorem Bindings.roomy_append (ops later : List (Op σ α)) :
    ∀ {bindings : Bindings σ α}, bindings.Roomy (ops ++ later) →
      bindings.Roomy ops ∧ (bindings.run ops).Roomy later := by
  induction ops with
  | nil => intro bindings roomy; exact ⟨trivial, roomy⟩
  | cons op ops induction =>
      intro bindings roomy
      obtain ⟨before, after⟩ := induction roomy.2
      exact ⟨⟨roomy.1, before⟩, after⟩

theorem Bindings.step_length_le (bindings : Bindings σ α) (op : Op σ α) :
    (bindings.step op).stack.length ≤ bindings.stack.length + 1 := by
  cases op with
  | bind sym val =>
      rw [step]
      split
      · exact Nat.le_succ _
      · exact Nat.le_refl _
  | assign sym val =>
      rw [step]
      split
      · rw [length_rebind]
        exact Nat.le_succ _
      · exact Nat.le_succ _
  | restore mark =>
      rw [step, upTo, List.length_drop]
      omega
  | assignElsewhere sym val => exact Nat.le_succ _
  | collect forwarding => exact Nat.le_succ _

theorem Bindings.roomy_of_length (ops : List (Op σ α)) :
    ∀ {bindings : Bindings σ α}, bindings.stack.length + ops.length ≤ tlvTableSize →
      bindings.Roomy ops := by
  induction ops with
  | nil => intro bindings _; trivial
  | cons op ops induction =>
      intro bindings short
      rw [List.length_cons] at short
      have longer := bindings.step_length_le op
      refine ⟨?_, induction (by omega)⟩
      calc (bindings.step op).symbols.length
          ≤ ((bindings.step op).stack.map Prod.fst).length := (List.dedup_sublist _).length_le
        _ = (bindings.step op).stack.length := List.length_map _
        _ ≤ tlvTableSize := by omega

/-- In a run that never binds more symbols at once than the table has slots, the value of a
symbol is that of its innermost live binding, or its global value; and restoring a mark
gives a symbol the value it had there, unless its value there was assigned since or the
stack was restored below the mark. -/
theorem value_innermost_restore (addresses : Addresses σ) (global : σ → α)
    (ops later : List (Op σ α)) (roomy : (Bindings.initial global).Roomy (ops ++ later)) (sym : σ) :
    let bindings := (Bindings.initial global).run ops
    let before := run (State.initial addresses global) ops
    let after := run (State.initial addresses global) (ops ++ later)
    let mark := before.thread.dynStack.length
    clSymbolValue before sym = bindings.value sym ∧
      clSymbolValue after sym = ((Bindings.initial global).run (ops ++ later)).value sym ∧
      (bindings.KeepsAll mark sym later →
        clSymbolValue (step after (.restore mark)) sym = clSymbolValue before sym) := by
  intro bindings before after mark
  obtain ⟨roomyBefore, roomyLater⟩ := Bindings.roomy_append ops later roomy
  have start := Represents.initial addresses global
  have atMark : Represents before bindings := start.run ops roomyBefore
  have atEnd : Represents after ((Bindings.initial global).run (ops ++ later)) :=
    start.run _ roomy
  have runs : (Bindings.initial global).run (ops ++ later) = bindings.run later :=
    List.foldl_append
  have height : mark = bindings.stack.length := by
    rw [← length_saved before.addresses, ← atMark.stands.saves]
  refine ⟨atMark.value sym, atEnd.value sym, fun keeps => ?_⟩
  have restored : Represents (step after (.restore mark))
    ((bindings.run later).step (.restore mark)) :=
    runs ▸ ⟨atEnd.stands.restore mark, atEnd.global⟩
  calc clSymbolValue (step after (.restore mark)) sym
      = (bindings.run later).valueUpTo mark sym := restored.value sym
    _ = bindings.valueUpTo mark sym := Bindings.run_keeps later (Nat.le_of_eq height) keeps
    _ = bindings.value sym := by rw [height, Bindings.valueUpTo_length]
    _ = clSymbolValue before sym := (atMark.value sym).symm

def spaced : Addresses Nat where
  address sym := 1024 * (sym + 1)
  injective a b same := by
    have : 1024 * (a + 1) = 1024 * (b + 1) := same
    omega

def movedBy8 : Forwarding where
  address old := old + 8
  injective _ _ same := Nat.add_right_cancel same

/-- A binding under which a symbol is rebound and assigned, another symbol is assigned
elsewhere, and the symbols move. -/
theorem value_innermost_restore_run :
    let before := run (State.initial spaced fun _ => 0) [.bind 0 1]
    let after := run before [.bind 0 2, .assign 0 3, .assignElsewhere 1 4, .collect movedBy8]
    clSymbolValue before 0 = 1 ∧ clSymbolValue after 0 = 3 ∧
      clSymbolValue (step after (.restore 1)) 0 = 1 := by
  have runs := value_innermost_restore spaced (fun _ => 0) [.bind 0 1]
    [.bind 0 2, .assign 0 3, .assignElsewhere 1 4, .collect movedBy8]
    (Bindings.roomy_of_length _ (by decide)) 0
  refine ⟨runs.1, runs.2.1, ?_⟩
  have keeps : Bindings.KeepsAll 1 0 ((Bindings.initial fun _ => 0).run [.bind 0 1])
      [.bind 0 2, .assign 0 3, .assignElsewhere 1 4, .collect movedBy8] :=
    ⟨trivial, fun _ => rfl, fun same => absurd same (by decide), trivial, trivial⟩
  exact (runs.2.2 keeps).trans runs.1

/-- A binding of a further symbol in a full table leaves the symbol its global value. -/
theorem Represents.bind_full {state : State σ α} {bindings : Bindings σ α}
    (represents : Represents state bindings) {sym : σ} (val : α)
    (full : bindings.symbols.length = tlvTableSize)
    (unbound : innermost bindings.stack sym = none) :
    clSymbolValue (Tlv.step state (.bind sym val)) sym = state.global sym := by
  have atAddress : innermost (placed state.addresses bindings.stack) (state.addresses.address sym) =
      none := by
    rw [innermost_placed, unbound]
  have entries : state.thread.tlvEntryCount = tlvTableSize := represents.stands.count.trans full
  have unchanged : (clDynbind state.thread (state.addresses.address sym) val).tlvTable =
      state.thread.tlvTable := by
    rw [clDynbind]
    split
    · rfl
    · have dropped := represents.stands.means.withStack
        ((state.addresses.address sym, clTlvGet state.thread (state.addresses.address sym)) ::
          state.thread.dynStack)
      rw [dropped.set_full atAddress entries]
  have none : clTlvGet (clDynbind state.thread (state.addresses.address sym) val)
      (state.addresses.address sym) = none := by
    rw [clTlvGet, unchanged, ← clTlvGet, represents.stands.get, unbound]
  rw [Tlv.step, clSymbolValue]
  simp only [none, ite_self]

/-- So many symbols are bound to 1, one after the other. -/
def bindUpTo (count : Nat) : List (Op Nat Nat) :=
  (List.range count).map fun sym => .bind sym 1

theorem bindUpTo_succ (count : Nat) : bindUpTo (count + 1) = bindUpTo count ++ [.bind count 1] := by
  rw [bindUpTo, List.range_succ, List.map_append, ← bindUpTo]
  rfl

def boundUpTo (count : Nat) : Bindings Nat Nat where
  stack := (List.range count).reverse.map fun sym => (sym, 1)
  global _ := 0

theorem run_bindUpTo {count : Nat} (few : count ≤ maxDynBindings) :
    (Bindings.initial fun _ => 0).run (bindUpTo count) = boundUpTo count := by
  induction count with
  | zero => rfl
  | succ count induction =>
      have height : (boundUpTo count).stack.length = count := by simp [boundUpTo]
      have more : ((Bindings.initial fun _ => 0).run (bindUpTo (count + 1))) =
          (boundUpTo count).step (.bind count 1) := by
        rw [← induction (Nat.le_of_succ_le few), bindUpTo_succ]
        exact List.foldl_append
      rw [more, Bindings.step, height, if_neg (Nat.not_le.mpr few), boundUpTo, boundUpTo,
        List.range_succ, List.reverse_append]
      rfl

theorem symbols_boundUpTo (count : Nat) : (boundUpTo count).symbols.length = count := by
  have names : ((List.range count).reverse.map fun sym => (sym, 1)).map Prod.fst =
      (List.range count).reverse := by
    rw [List.map_map]
    exact List.map_id _
  rw [Bindings.symbols, boundUpTo, names, (List.nodup_reverse.mpr List.nodup_range).dedup,
    List.length_reverse, List.length_range]

theorem innermost_boundUpTo (count : Nat) : innermost (boundUpTo count).stack count = none := by
  rw [← Option.not_isSome_iff_eq_none, innermost_isSome_iff]
  simp [boundUpTo]

/-- An assignment to a symbol that was not bound since the mark outlives the restore; and the
value of the last of 257 symbols bound is its global one. -/
theorem restore_assigned_bind_dropped :
    (let before := State.initial spaced fun _ => 0
     let after := run before [.bind 0 1, .assign 1 5]
     clSymbolValue (step after (.restore before.thread.dynStack.length)) 1 = 5 ∧
       clSymbolValue before 1 = 0) ∧
    clSymbolValue (run (State.initial spaced fun _ => 0) (bindUpTo 257)) 256 = 0 ∧
      ((Bindings.initial fun _ => 0).run (bindUpTo 257)).value 256 = 1 := by
  have represents := (Represents.initial spaced fun _ => 0).run (bindUpTo tlvTableSize)
    (Bindings.roomy_of_length _ (by simp [bindUpTo, Bindings.initial]))
  rw [run_bindUpTo (by decide)] at represents
  refine ⟨⟨by decide, by decide⟩, ?_, ?_⟩
  · have last : run (State.initial spaced fun _ => 0) (bindUpTo 257) =
        step (run (State.initial spaced fun _ => 0) (bindUpTo tlvTableSize))
          (.bind tlvTableSize 1) := by
      rw [show 257 = tlvTableSize + 1 from rfl, bindUpTo_succ]
      exact List.foldl_append
    rw [last]
    have dropped := represents.bind_full 1 (symbols_boundUpTo _) (innermost_boundUpTo _)
    rwa [represents.global] at dropped
  · rw [run_bindUpTo (by decide), Bindings.value, boundUpTo, List.range_succ, List.reverse_append]
    rfl

end ClAmiga.Tlv
