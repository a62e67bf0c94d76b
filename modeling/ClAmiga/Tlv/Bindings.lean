import ClAmiga.Tlv.Table

/-!
# Dynamic bindings

What the table and the binding stack of a thread are for: a stack of bindings, whose
innermost one of a symbol is its value, over the global values.
-/

namespace ClAmiga.Tlv

variable {σ α : Type} [DecidableEq σ]

def innermost : List (σ × α) → σ → Option α
  | [], _ => none
  | (bound, val) :: below, sym => if bound = sym then some val else innermost below sym

def rebind : List (σ × α) → σ → α → List (σ × α)
  | [], _, _ => []
  | (bound, val) :: below, sym, new =>
      if bound = sym then (bound, new) :: below else (bound, val) :: rebind below sym new

structure Bindings (σ α : Type) where
  stack : List (σ × α)
  global : σ → α

namespace Bindings

def value (bindings : Bindings σ α) (sym : σ) : α :=
  (innermost bindings.stack sym).getD (bindings.global sym)

def symbols (bindings : Bindings σ α) : List σ :=
  (bindings.stack.map Prod.fst).dedup

def upTo (bindings : Bindings σ α) (mark : Nat) : List (σ × α) :=
  bindings.stack.drop (bindings.stack.length - mark)

def since (bindings : Bindings σ α) (mark : Nat) : List (σ × α) :=
  bindings.stack.take (bindings.stack.length - mark)

def setGlobal (bindings : Bindings σ α) (sym : σ) (val : α) : Bindings σ α :=
  { bindings with global := fun other => if other = sym then val else bindings.global other }

def step (bindings : Bindings σ α) : Op σ α → Bindings σ α
  | .bind sym val =>
      if maxDynBindings ≤ bindings.stack.length then bindings
      else { bindings with stack := (sym, val) :: bindings.stack }
  | .assign sym val =>
      if (innermost bindings.stack sym).isSome then
        { bindings with stack := rebind bindings.stack sym val }
      else bindings.setGlobal sym val
  | .restore mark => { bindings with stack := bindings.upTo mark }
  | .assignElsewhere sym val => bindings.setGlobal sym val
  | .collect _ => bindings

def run (bindings : Bindings σ α) (ops : List (Op σ α)) : Bindings σ α :=
  ops.foldl step bindings

def Roomy : Bindings σ α → List (Op σ α) → Prop
  | _, [] => True
  | bindings, op :: ops =>
      (bindings.step op).symbols.length ≤ tlvTableSize ∧ Roomy (bindings.step op) ops

/-- The operation leaves the bindings made up to a mark, and the value they give a symbol. -/
def Keeps (bindings : Bindings σ α) (mark : Nat) (sym : σ) : Op σ α → Prop
  | .bind .. => True
  | .assign other _ => other = sym → (innermost (bindings.since mark) sym).isSome
  | .restore down => mark ≤ down
  | .assignElsewhere other _ => other = sym → (innermost (bindings.upTo mark) sym).isSome
  | .collect _ => True

def KeepsAll (mark : Nat) (sym : σ) : Bindings σ α → List (Op σ α) → Prop
  | _, [] => True
  | bindings, op :: ops => bindings.Keeps mark sym op ∧ KeepsAll mark sym (bindings.step op) ops

end Bindings

@[simp] theorem innermost_nil (sym : σ) : innermost ([] : List (σ × α)) sym = none := rfl

theorem innermost_append (above below : List (σ × α)) (sym : σ) :
    innermost (above ++ below) sym = (innermost above sym).or (innermost below sym) := by
  induction above with
  | nil => rfl
  | cons binding above induction =>
      rw [List.cons_append, innermost, innermost, induction]
      split <;> rfl

theorem innermost_isSome_iff (stack : List (σ × α)) (sym : σ) :
    (innermost stack sym).isSome ↔ sym ∈ stack.map Prod.fst := by
  induction stack with
  | nil => simp
  | cons binding below induction =>
      rw [innermost, List.map_cons, List.mem_cons]
      split
      · next same => simp [same]
      · next different => simp [induction, Ne.symm different]

theorem innermost_rebind (stack : List (σ × α)) (sym : σ) (val : α) (other : σ) :
    innermost (rebind stack sym val) other =
      if other = sym ∧ (innermost stack sym).isSome then some val else innermost stack other := by
  induction stack with
  | nil => simp [rebind]
  | cons binding below induction =>
      obtain ⟨bound, old⟩ := binding
      rw [rebind, innermost, innermost]
      by_cases atSym : bound = sym
      · subst atSym
        rw [if_pos rfl, innermost]
        by_cases same : bound = other
        · simp [same]
        · simp [same, Ne.symm same]
      · rw [if_neg atSym, innermost, induction]
        by_cases same : bound = other
        · subst same
          simp [atSym]
        · simp [same, atSym]

theorem symbols_rebind (stack : List (σ × α)) (sym : σ) (val : α) :
    (rebind stack sym val).map Prod.fst = stack.map Prod.fst := by
  induction stack with
  | nil => rfl
  | cons binding below induction =>
      rw [rebind]
      split
      · rfl
      · rw [List.map_cons, List.map_cons, induction]

theorem length_rebind (stack : List (σ × α)) (sym : σ) (val : α) :
    (rebind stack sym val).length = stack.length := by
  rw [← List.length_map Prod.fst, symbols_rebind, List.length_map]

theorem rebind_append (above below : List (σ × α)) (sym : σ) (val : α) :
    rebind (above ++ below) sym val =
      if (innermost above sym).isSome then rebind above sym val ++ below
      else above ++ rebind below sym val := by
  induction above with
  | nil => rfl
  | cons binding above induction =>
      rw [List.cons_append, rebind, innermost, rebind]
      by_cases same : binding.1 = sym
      · simp [same]
      · simp only [if_neg same, induction]
        split <;> rfl

namespace Bindings

omit [DecidableEq σ] in
theorem since_append_upTo (bindings : Bindings σ α) (mark : Nat) :
    bindings.since mark ++ bindings.upTo mark = bindings.stack :=
  List.take_append_drop _ _

omit [DecidableEq σ] in
theorem length_upTo (bindings : Bindings σ α) {mark : Nat}
    (above : mark ≤ bindings.stack.length) : (bindings.upTo mark).length = mark := by
  rw [upTo, List.length_drop]
  omega

omit [DecidableEq σ] in
theorem upTo_eq {bindings : Bindings σ α} {upper lower : List (σ × α)} {mark : Nat}
    (parts : bindings.stack = upper ++ lower) (size : lower.length = mark) :
    bindings.upTo mark = lower := by
  rw [upTo, parts, List.length_append, size, Nat.add_sub_cancel, List.drop_left]

theorem upTo_setGlobal (bindings : Bindings σ α) (sym : σ) (val : α) (mark : Nat) :
    (bindings.setGlobal sym val).upTo mark = bindings.upTo mark := rfl

def valueUpTo (bindings : Bindings σ α) (mark : Nat) (sym : σ) : α :=
  (innermost (bindings.upTo mark) sym).getD (bindings.global sym)

theorem valueUpTo_setGlobal (bindings : Bindings σ α) {mark : Nat} {sym other : σ} (val : α)
    (kept : other = sym → (innermost (bindings.upTo mark) sym).isSome) :
    (bindings.setGlobal other val).valueUpTo mark sym = bindings.valueUpTo mark sym := by
  rw [valueUpTo, valueUpTo, upTo_setGlobal]
  cases bound : innermost (bindings.upTo mark) sym with
  | some => rfl
  | none =>
      have different : sym ≠ other := by
        rintro rfl
        simpa [bound] using kept rfl
      simp [setGlobal, different]

theorem step_assign_upTo (bindings : Bindings σ α) {mark : Nat} {other : σ} (val : α)
    (above : mark ≤ bindings.stack.length) (bound : (innermost bindings.stack other).isSome) :
    (bindings.step (.assign other val)).upTo mark =
      if (innermost (bindings.since mark) other).isSome then bindings.upTo mark
      else rebind (bindings.upTo mark) other val := by
  have parts : (bindings.step (.assign other val)).stack =
      rebind (bindings.since mark ++ bindings.upTo mark) other val := by
    rw [since_append_upTo, step, if_pos bound]
  rw [rebind_append] at parts
  split at parts
  · next upper => rw [if_pos upper, upTo_eq parts (bindings.length_upTo above)]
  · next lower =>
      rw [if_neg lower, upTo_eq parts]
      rw [length_rebind, bindings.length_upTo above]

theorem step_keeps {bindings : Bindings σ α} {mark : Nat} {sym : σ} {op : Op σ α}
    (above : mark ≤ bindings.stack.length) (keeps : bindings.Keeps mark sym op) :
    mark ≤ (bindings.step op).stack.length ∧
      (bindings.step op).valueUpTo mark sym = bindings.valueUpTo mark sym := by
  cases op with
  | bind other val =>
      rw [step]
      split
      · exact ⟨above, rfl⟩
      · refine ⟨Nat.le_succ_of_le above, ?_⟩
        have parts : (other, val) :: bindings.stack =
            ((other, val) :: bindings.since mark) ++ bindings.upTo mark := by
          rw [List.cons_append, since_append_upTo]
        have same : upTo { bindings with stack := (other, val) :: bindings.stack } mark =
            bindings.upTo mark :=
          upTo_eq parts (bindings.length_upTo above)
        rw [valueUpTo, same, valueUpTo]
  | assign other val =>
      by_cases bound : (innermost bindings.stack other).isSome
      · constructor
        · rw [step, if_pos bound, length_rebind]
          exact above
        · rw [valueUpTo, bindings.step_assign_upTo val above bound, step, if_pos bound]
          split
          · rfl
          · next lower =>
              have different : ¬ sym = other := by
                rintro rfl
                exact lower (keeps rfl)
              rw [innermost_rebind, if_neg (fun both => different both.1), valueUpTo]
      · rw [step, if_neg bound]
        refine ⟨above, bindings.valueUpTo_setGlobal val fun same => ?_⟩
        subst same
        rw [← bindings.since_append_upTo mark, innermost_append] at bound
        have held := keeps rfl
        simp [Option.isSome_or, held] at bound
  | restore down =>
      have lowered : mark ≤ (bindings.upTo down).length := by
        rw [upTo, List.length_drop]
        have : mark ≤ down := keeps
        omega
      refine ⟨lowered, ?_⟩
      have same : (bindings.step (.restore down)).upTo mark = bindings.upTo mark := by
        rw [step, upTo, upTo, upTo, List.length_drop, List.drop_drop]
        congr 1
        have : mark ≤ down := keeps
        omega
      rw [valueUpTo, same, valueUpTo]
      rfl
  | assignElsewhere other val => exact ⟨above, bindings.valueUpTo_setGlobal val keeps⟩
  | collect forwarding => exact ⟨above, rfl⟩

theorem run_keeps {mark : Nat} {sym : σ} (ops : List (Op σ α)) :
    ∀ {bindings : Bindings σ α}, mark ≤ bindings.stack.length → KeepsAll mark sym bindings ops →
      (bindings.run ops).valueUpTo mark sym = bindings.valueUpTo mark sym := by
  induction ops with
  | nil => intro bindings above keeps; rfl
  | cons op ops induction =>
      intro bindings above keeps
      obtain ⟨stays, same⟩ := step_keeps above keeps.1
      calc ((bindings.step op).run ops).valueUpTo mark sym
          = (bindings.step op).valueUpTo mark sym := induction stays keeps.2
        _ = bindings.valueUpTo mark sym := same

theorem valueUpTo_length (bindings : Bindings σ α) (sym : σ) :
    bindings.valueUpTo bindings.stack.length sym = bindings.value sym := by
  rw [valueUpTo, upTo, Nat.sub_self, List.drop_zero, value]

end Bindings

end ClAmiga.Tlv
