/-!
# Runs that end with a state

A run returns a value, or signals an error and leaves a state behind, or spends
its fuel.  A pair of postconditions speaks of the value and of the state left.
-/

namespace ClAmiga.Signals

/-- The ways in which a run does not return. -/
inductive Stop (State : Type) where
  | signalled (state : State)
  | exhausted

abbrev Run (State Value : Type) := Except (Stop State) Value

variable {State Value Result : Type}

/-- The value of a run that returns satisfies `returns`, and the state that an
error leaves behind satisfies `signals`. -/
def Ends (run : Run State Value) (returns : Value → Prop) (signals : State → Prop) : Prop :=
  match run with
  | .ok value => returns value
  | .error (.signalled state) => signals state
  | .error .exhausted => True

theorem Ends.imp {run : Run State Value} {returns returns' : Value → Prop}
    {signals signals' : State → Prop} (ends : Ends run returns signals)
    (onReturn : ∀ value, returns value → returns' value)
    (onSignal : ∀ state, signals state → signals' state) : Ends run returns' signals' := by
  match run, ends with
  | .ok value, ends => exact onReturn value ends
  | .error (.signalled state), ends => exact onSignal state ends
  | .error .exhausted, _ => exact trivial

theorem Ends.bind {run : Run State Value} {next : Value → Run State Result}
    {middle : Value → Prop} {returns : Result → Prop} {signals : State → Prop}
    (first : Ends run middle signals)
    (second : ∀ value, middle value → Ends (next value) returns signals) :
    Ends (run >>= next) returns signals := by
  match run, first with
  | .ok value, first => exact second value first
  | .error (.signalled _), first => exact first
  | .error .exhausted, _ => exact trivial

theorem ends_foldlM {Item : Type} {items : List Item}
    {step : Value → Item → Run State Value} {invariant : Value → Prop}
    {signals : State → Prop}
    (round : ∀ value, invariant value → ∀ item ∈ items, Ends (step value item) invariant signals)
    {start : Value} (holds : invariant start) :
    Ends (items.foldlM step start) invariant signals := by
  induction items generalizing start with
  | nil => exact holds
  | cons item later induction =>
      rw [List.foldlM_cons]
      refine (round start holds item (List.mem_cons_self ..)).bind fun value kept => ?_
      exact induction
        (fun value kept item member => round value kept item (List.mem_cons_of_mem _ member))
        kept

end ClAmiga.Signals
