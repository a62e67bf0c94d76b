import ClAmiga.Tlv.Meaning

/-!
# Threads and their bindings

As long as the table has room, the table and the binding stack of a thread stand for its
dynamic bindings: each operation does to the bindings what it is for.
-/

namespace ClAmiga.Tlv

variable {σ α : Type} [DecidableEq σ]

/-- The bindings with the symbols at their addresses. -/
def placed (addresses : Addresses σ) (stack : List (σ × α)) : List (Nat × α) :=
  stack.map fun binding => (addresses.address binding.1, binding.2)

def saved (addresses : Addresses σ) : List (σ × α) → List (Nat × Option α)
  | [] => []
  | (sym, _) :: below => (addresses.address sym, innermost below sym) :: saved addresses below

/-- A thread stands for a stack of bindings. -/
structure Stands (t : Thread α) (addresses : Addresses σ) (stack : List (σ × α)) : Prop where
  means : Means t (innermost (placed addresses stack))
  saves : t.dynStack = saved addresses stack

/-- A state stands for the bindings of its thread. -/
structure Represents (state : State σ α) (bindings : Bindings σ α) : Prop where
  stands : Stands state.thread state.addresses bindings.stack
  global : state.global = bindings.global

@[simp] theorem innermost_placed (addresses : Addresses σ) (stack : List (σ × α)) (sym : σ) :
    innermost (placed addresses stack) (addresses.address sym) = innermost stack sym := by
  induction stack with
  | nil => rfl
  | cons binding below induction =>
      simp only [placed, List.map_cons, innermost, addresses.injective.eq_iff] at induction ⊢
      rw [induction]

theorem placed_rebind (addresses : Addresses σ) (stack : List (σ × α)) (sym : σ) (val : α) :
    placed addresses (rebind stack sym val) =
      rebind (placed addresses stack) (addresses.address sym) val := by
  induction stack with
  | nil => rfl
  | cons binding below induction =>
      simp only [placed, List.map_cons, rebind, addresses.injective.eq_iff] at induction ⊢
      split
      · rfl
      · rw [List.map_cons, induction]

theorem saved_rebind (addresses : Addresses σ) (stack : List (σ × α)) (sym : σ) (val : α) :
    saved addresses (rebind stack sym val) = saved addresses stack := by
  induction stack with
  | nil => rfl
  | cons binding below induction =>
      obtain ⟨bound, old⟩ := binding
      rw [rebind]
      split
      · rfl
      · next different =>
          rw [saved, saved, induction, innermost_rebind, if_neg fun both => different both.1]

theorem length_saved (addresses : Addresses σ) (stack : List (σ × α)) :
    (saved addresses stack).length = stack.length := by
  induction stack with
  | nil => rfl
  | cons binding below induction => rw [saved, List.length_cons, List.length_cons, induction]

theorem saved_forward (addresses : Addresses σ) (forwarding : Forwarding) (stack : List (σ × α)) :
    saved (addresses.forward forwarding) stack =
      (saved addresses stack).map fun binding => (forwarding.address binding.1, binding.2) := by
  induction stack with
  | nil => rfl
  | cons binding below induction => rw [saved, induction, saved, List.map_cons]; rfl

omit [DecidableEq σ] in
/-- The meaning of an address after forwarding is that of the address it came from. -/
theorem innermost_forward (addresses : Addresses σ) (forwarding : Forwarding)
    (stack : List (σ × α)) (sym : Nat) (val : α) :
    innermost (placed (addresses.forward forwarding) stack) sym = some val ↔
      ∃ old, forwarding.address old = sym ∧ innermost (placed addresses stack) old = some val := by
  induction stack with
  | nil => simp [placed]
  | cons binding below induction =>
      simp only [placed, List.map_cons, innermost] at induction ⊢
      by_cases here : (addresses.forward forwarding).address binding.1 = sym
      · rw [if_pos here]
        constructor
        · intro found
          exact ⟨addresses.address binding.1, here, by rw [if_pos rfl]; exact found⟩
        · rintro ⟨old, same, found⟩
          obtain rfl := forwarding.injective (here.trans same.symm)
          rwa [if_pos rfl] at found
      · rw [if_neg here, induction]
        refine exists_congr fun old => and_congr_right fun same => ?_
        rw [if_neg]
        rintro rfl
        exact here same

theorem forwardSlot_eq_entry_iff (forwarding : Forwarding) (slot : Probe.Slot Nat α)
    (sym : Nat) (val : α) :
    forwardSlot forwarding slot = .entry sym val ↔
      ∃ old, forwarding.address old = sym ∧ slot = .entry old val := by
  cases slot <;> simp [forwardSlot]

@[simp] theorem isEntry_forwardSlot (forwarding : Forwarding) (slot : Probe.Slot Nat α) :
    (forwardSlot forwarding slot).isEntry = slot.isEntry := by
  cases slot <;> rfl

section Thread

variable {t : Thread α} {addresses : Addresses σ} {stack : List (σ × α)}

theorem Stands.get (stands : Stands t addresses stack) (sym : σ) :
    clTlvGet t (addresses.address sym) = innermost stack sym := by
  rw [stands.means.get, innermost_placed]

theorem Stands.count (stands : Stands t addresses stack) :
    t.tlvEntryCount = (stack.map Prod.fst).dedup.length := by
  rw [stands.means.count, ← List.length_map addresses.address]
  refine Nat.le_antisymm (Probe.card_entries_le stands.means.probed _ ?_)
    (Probe.le_card_entries ?_ ?_)
  · intro key val held
    have found := (stands.means.holds key val).mp held
    have bound := (innermost_isSome_iff _ key).mp (by rw [found]; rfl)
    simpa [placed] using bound
  · exact (List.nodup_dedup _).map addresses.injective
  · intro key member
    obtain ⟨sym, listed, rfl⟩ := List.mem_map.mp member
    have bound := (innermost_isSome_iff stack sym).mpr (List.mem_dedup.mp listed)
    obtain ⟨val, found⟩ := Option.isSome_iff_exists.mp bound
    exact ⟨val, (stands.means.holds _ val).mpr (by rw [innermost_placed, found])⟩

theorem Stands.bind (stands : Stands t addresses stack) {sym : σ} {val : α}
    (below : stack.length < maxDynBindings)
    (room : (innermost stack sym).isSome ∨ t.tlvEntryCount < tlvTableSize) :
    Stands (clDynbind t (addresses.address sym) val) addresses ((sym, val) :: stack) := by
  have short : t.dynStack.length < maxDynBindings := by
    rw [stands.saves, length_saved]
    exact below
  have atAddress : (innermost (placed addresses stack) (addresses.address sym)).isSome ∨
      t.tlvEntryCount < tlvTableSize := by
    rw [innermost_placed]
    exact room
  rw [clDynbind, if_neg (Nat.not_le.mpr short)]
  constructor
  · have set := (stands.means.withStack ((addresses.address sym,
        clTlvGet t (addresses.address sym)) :: t.dynStack)).set atAddress val
    convert set using 1
    funext other
    by_cases same : other = addresses.address sym
    · subst same
      simp [innermost]
    · rw [Function.update_of_ne same, placed, List.map_cons, innermost, if_neg (Ne.symm same)]
      rfl
  · rw [clTlvSet_dynStack, stands.get, stands.saves, saved]

theorem Stands.assign (stands : Stands t addresses stack) {sym : σ} (val : α)
    (bound : (innermost stack sym).isSome) :
    Stands (clTlvSet t (addresses.address sym) val) addresses (rebind stack sym val) := by
  have atAddress : (innermost (placed addresses stack) (addresses.address sym)).isSome := by
    rw [innermost_placed]
    exact bound
  constructor
  · convert stands.means.set (Or.inl atAddress) val using 1
    funext other
    rw [placed_rebind, innermost_rebind]
    by_cases same : other = addresses.address sym
    · subst same
      rw [if_pos ⟨rfl, atAddress⟩, Function.update_self]
    · rw [if_neg fun both => same both.1, Function.update_of_ne same]
  · rw [clTlvSet_dynStack, saved_rebind, stands.saves]

/-- The end of the innermost binding of a symbol is the end of what it means. -/
theorem update_innermost (addresses : Addresses σ) (sym : σ) (val : α) (below : List (σ × α)) :
    Function.update (innermost (placed addresses ((sym, val) :: below))) (addresses.address sym)
        (innermost below sym) =
      innermost (placed addresses below) := by
  funext other
  by_cases same : other = addresses.address sym
  · subst same
    rw [Function.update_self, innermost_placed]
  · rw [Function.update_of_ne same, placed, List.map_cons, innermost, if_neg (Ne.symm same)]
    rfl

theorem Stands.pop {sym : σ} {val : α} {below : List (σ × α)}
    (stands : Stands t addresses ((sym, val) :: below)) :
    Stands (popBinding t) addresses below := by
  have same := update_innermost addresses sym val below
  have dropped := stands.means.withStack (saved addresses below)
  rw [popBinding, stands.saves, saved]
  cases old : innermost below sym with
  | none =>
      rw [old] at same
      refine ⟨?_, clTlvRemove_dynStack _ _⟩
      rw [← same]
      exact dropped.remove _
  | some saved =>
      rw [old] at same
      refine ⟨?_, clTlvSet_dynStack _ _ _⟩
      rw [← same]
      exact dropped.set (Or.inl (by simp [innermost])) saved

theorem Stands.pops (n : Nat) :
    ∀ {t : Thread α} {stack : List (σ × α)}, Stands t addresses stack → n ≤ stack.length →
      Stands (popBinding^[n] t) addresses (stack.drop n) := by
  induction n with
  | zero => intro t stack stands _; exact stands
  | succ n induction =>
      intro t stack stands fits
      obtain _ | ⟨⟨sym, val⟩, below⟩ := stack
      · exact absurd fits (Nat.not_succ_le_zero n)
      · exact induction stands.pop (Nat.le_of_succ_le_succ fits)

theorem Stands.restore (stands : Stands t addresses stack) (mark : Nat) :
    Stands (clDynbindRestoreTo t mark) addresses (stack.drop (stack.length - mark)) := by
  have size : t.dynStack.length = stack.length := by rw [stands.saves, length_saved]
  rw [clDynbindRestoreTo, size]
  exact Stands.pops _ stands (Nat.sub_le _ _)

theorem Stands.collect (stands : Stands t addresses stack) (forwarding : Forwarding) :
    Stands (collectThread t forwarding) (addresses.forward forwarding) stack := by
  have entry := @forwardSlot_eq_entry_iff α forwarding
  constructor
  · refine Means.rehash ?_ ?_ ?_
    · intro a b key val other aIn bIn left right
      obtain ⟨first, rfl, hereA⟩ := (entry _ key val).mp left
      obtain ⟨second, same, hereB⟩ := (entry _ _ other).mp right
      obtain rfl := forwarding.injective same
      exact stands.means.probed.unique aIn bIn hereA hereB
    · intro key val
      rw [innermost_forward]
      simp only [Probe.Holds, entry, ← stands.means.holds]
      constructor
      · rintro ⟨slot, inside, old, same, here⟩
        exact ⟨old, same, slot, inside, here⟩
      · rintro ⟨old, same, slot, inside, here⟩
        exact ⟨slot, inside, old, same, here⟩
    · simp only [Probe.entries, isEntry_forwardSlot]
      exact stands.means.count
  · rw [collectThread, clTlvRehash_dynStack, saved_forward, stands.saves]

end Thread

end ClAmiga.Tlv
