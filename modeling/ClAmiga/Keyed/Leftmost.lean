import Mathlib.Data.List.Basic
import Mathlib.Logic.Function.Basic

/-!
# Repeated keys

A list of keys and values, in which keys may be repeated, is read into registers, one for each
key.  A reader that goes from the last pair to the first obeys the rule that the leftmost pair
counts if every first value is stored; a reader that goes forward obeys it if the last value
says the same as the first.
-/

namespace ClAmiga.Keyed

variable {κ β ε ρ γ : Type*}

section Pairs

variable [DecidableEq κ]

def values (key : κ) (pairs : List (κ × β)) : List β :=
  pairs.filterMap fun pair => if pair.1 = key then some pair.2 else none

def firstOnlyFrom (seen : List κ) : List (κ × β) → List (κ × β)
  | [] => []
  | (key, value) :: rest =>
      if key ∈ seen then firstOnlyFrom seen rest
      else (key, value) :: firstOnlyFrom (key :: seen) rest

def firstOnly (pairs : List (κ × β)) : List (κ × β) :=
  firstOnlyFrom [] pairs

theorem values_cons (key other : κ) (value : β) (rest : List (κ × β)) :
    values key ((other, value) :: rest) =
      if other = key then value :: values key rest else values key rest := by
  rw [values, List.filterMap_cons]
  split
  · next apart =>
      have different : other ≠ key := fun same => by simp [same] at apart
      rw [if_neg different]
      rfl
  · next found same =>
      have here : other = key := by
        by_contra different
        simp [different] at same
      rw [if_pos here] at same ⊢
      rw [← Option.some.inj same]
      rfl

theorem values_firstOnlyFrom (key : κ) (seen : List κ) (pairs : List (κ × β)) :
    values key (firstOnlyFrom seen pairs) =
      if key ∈ seen then [] else (values key pairs).take 1 := by
  induction pairs generalizing seen with
  | nil => simp [firstOnlyFrom, values]
  | cons pair rest induction =>
      obtain ⟨other, value⟩ := pair
      rw [firstOnlyFrom, values_cons]
      by_cases known : other ∈ seen
      · rw [if_pos known, induction]
        by_cases here : other = key
        · subst here
          rw [if_pos known, if_pos known]
        · rw [if_neg here]
      · rw [if_neg known, values_cons, induction]
        by_cases here : other = key
        · subst here
          simp [known]
        · have apart : key ≠ other := Ne.symm here
          simp [here, apart]

theorem values_firstOnly (key : κ) (pairs : List (κ × β)) :
    values key (firstOnly pairs) = (values key pairs).take 1 := by
  rw [firstOnly, values_firstOnlyFrom, if_neg List.not_mem_nil]

theorem firstOnlyFrom_sublist (seen : List κ) (pairs : List (κ × β)) :
    (firstOnlyFrom seen pairs).Sublist pairs := by
  induction pairs generalizing seen with
  | nil => exact .slnil
  | cons pair rest induction =>
      rw [firstOnlyFrom]
      split
      · exact (induction seen).cons pair
      · exact (induction _).cons_cons pair

/-- A forward reading with marks for the keys it has seen obeys the rule. -/
theorem foldl_firstOnlyFrom {step : ρ → κ → β → ρ} {Seen : ρ → κ → Prop}
    (marks : ∀ r key value, Seen (step r key value) key)
    (keeps : ∀ r key value other, Seen r other → Seen (step r key value) other)
    (ignores : ∀ r key value, Seen r key → step r key value = r) {seen : List κ} {r : ρ}
    (marked : ∀ key ∈ seen, Seen r key) (pairs : List (κ × β)) :
    (firstOnlyFrom seen pairs).foldl (fun r pair => step r pair.1 pair.2) r =
      pairs.foldl (fun r pair => step r pair.1 pair.2) r := by
  induction pairs generalizing seen r with
  | nil => rfl
  | cons pair rest induction =>
      obtain ⟨key, value⟩ := pair
      rw [firstOnlyFrom, List.foldl_cons]
      split
      · next known =>
          rw [ignores r key value (marked key known)]
          exact induction marked
      · refine induction fun other member => ?_
        rcases List.mem_cons.mp member with rfl | earlier
        · exact marks r other value
        · exact keeps r key value other (marked other earlier)

end Pairs

/-- What a value does to the register of its key. -/
inductive Effect (ε γ : Type*) where
  | reject (error : ε)
  | keep
  | store (content : γ)

def Effect.rejection : Effect ε γ → Option ε
  | .reject error => some error
  | _ => none

def Effect.stored : Effect ε γ → Option γ
  | .store content => some content
  | _ => none

def lastRejection (effect : κ → β → Effect ε γ) : List (κ × β) → Option ε
  | [] => none
  | (key, value) :: rest => (lastRejection effect rest).or (effect key value).rejection

def firstRejection (effect : κ → β → Effect ε γ) : List (κ × β) → Option ε
  | [] => none
  | (key, value) :: rest => (effect key value).rejection.or (firstRejection effect rest)

section Scan

variable [DecidableEq κ]

def Effect.apply (effect : Effect ε γ) (registers : κ → γ) (key : κ) : Except ε (κ → γ) :=
  match effect with
  | .reject error => .error error
  | .keep => .ok registers
  | .store content => .ok (Function.update registers key content)

def scanBack (effect : κ → β → Effect ε γ) (registers : κ → γ) :
    List (κ × β) → Except ε (κ → γ)
  | [] => .ok registers
  | (key, value) :: rest => do
      let registers ← scanBack effect registers rest
      (effect key value).apply registers key

def scanForward (effect : κ → β → Effect ε γ) (registers : κ → γ) :
    List (κ × β) → Except ε (κ → γ)
  | [] => .ok registers
  | (key, value) :: rest => do
      let registers ← (effect key value).apply registers key
      scanForward effect registers rest

variable {effect : κ → β → Effect ε γ}

theorem Effect.apply_accepted {effect : Effect ε γ} (accepted : effect.rejection = none)
    (registers : κ → γ) (key : κ) :
    effect.apply registers key =
      .ok (Function.update registers key (effect.stored.getD (registers key))) := by
  cases effect with
  | reject error => cases accepted
  | keep => simp [Effect.apply, Effect.stored]
  | store content => rfl

theorem Effect.apply_rejected {effect : Effect ε γ} {error : ε}
    (rejected : effect.rejection = some error) (registers : κ → γ) (key : κ) :
    effect.apply registers key = .error error := by
  cases effect with
  | reject error' => cases rejected; rfl
  | keep => cases rejected
  | store content => cases rejected

variable {pairs : List (κ × β)}

theorem scanBack_accepted {registers : κ → γ} (accepted : lastRejection effect pairs = none) :
    scanBack effect registers pairs = .ok fun key =>
      ((values key pairs).findSome? fun value => (effect key value).stored).getD
        (registers key) := by
  induction pairs with
  | nil => rfl
  | cons pair rest induction =>
      obtain ⟨key, value⟩ := pair
      rw [lastRejection, Option.or_eq_none_iff] at accepted
      rw [scanBack, induction accepted.1]
      refine (Effect.apply_accepted accepted.2 _ key).trans (congrArg Except.ok ?_)
      funext other
      rw [values_cons]
      by_cases here : key = other
      · subst here
        rw [Function.update_self, if_pos rfl, List.findSome?_cons]
        cases (effect key value).stored <;> rfl
      · rw [Function.update_of_ne (Ne.symm here), if_neg here]

theorem scanBack_rejected {registers : κ → γ} {error : ε}
    (rejected : lastRejection effect pairs = some error) :
    scanBack effect registers pairs = .error error := by
  induction pairs with
  | nil => cases rejected
  | cons pair rest induction =>
      obtain ⟨key, value⟩ := pair
      rw [lastRejection] at rejected
      cases later : lastRejection effect rest with
      | some other =>
          rw [later] at rejected
          obtain rfl : other = error := Option.some.inj rejected
          rw [scanBack, induction later]
          rfl
      | none =>
          rw [later, Option.none_or] at rejected
          rw [scanBack, scanBack_accepted later]
          exact Effect.apply_rejected rejected _ key

theorem scanForward_accepted {registers : κ → γ} (accepted : firstRejection effect pairs = none) :
    scanForward effect registers pairs = .ok fun key =>
      ((values key pairs).reverse.findSome? fun value => (effect key value).stored).getD
        (registers key) := by
  induction pairs generalizing registers with
  | nil => rfl
  | cons pair rest induction =>
      obtain ⟨key, value⟩ := pair
      rw [firstRejection, Option.or_eq_none_iff] at accepted
      rw [scanForward, Effect.apply_accepted accepted.1]
      refine (induction accepted.2).trans (congrArg Except.ok ?_)
      funext other
      rw [values_cons]
      by_cases here : key = other
      · subst here
        rw [Function.update_self, if_pos rfl, List.reverse_cons, List.findSome?_append,
          List.findSome?_singleton]
        cases (values key rest).reverse.findSome? fun value => (effect key value).stored <;> rfl
      · rw [Function.update_of_ne (Ne.symm here), if_neg here]

theorem scanForward_rejected {registers : κ → γ} {error : ε}
    (rejected : firstRejection effect pairs = some error) :
    scanForward effect registers pairs = .error error := by
  induction pairs generalizing registers with
  | nil => cases rejected
  | cons pair rest induction =>
      obtain ⟨key, value⟩ := pair
      rw [firstRejection] at rejected
      cases first : (effect key value).rejection with
      | some other =>
          rw [first] at rejected
          obtain rfl : other = error := Option.some.inj rejected
          rw [scanForward, Effect.apply_rejected first]
          rfl
      | none =>
          rw [first, Option.none_or] at rejected
          rw [scanForward, Effect.apply_accepted first]
          exact induction rejected

end Scan

/-- Two readings end with the same error, or with the same contents of the registers at hand. -/
def SameReading (reads : κ → Prop) : Except ε (κ → γ) → Except ε (κ → γ) → Prop
  | .error error, .error error' => error = error'
  | .ok registers, .ok registers' => ∀ key, reads key → registers key = registers' key
  | _, _ => False

/-- The first value is stored, or the later ones leave the default. -/
def Decided (stored : β → Option γ) (default : γ) (vs : List β) : Prop :=
  ∀ first later, vs = first :: later → stored first = none →
    (later.findSome? stored).getD default = default

/-- The last value that is stored is as the first. -/
def LastAgrees (stored : β → Option γ) (default : γ) (vs : List β) : Prop :=
  ∀ first later, vs = first :: later →
    (vs.reverse.findSome? stored).getD default = (stored first).getD default

theorem decided_iff {stored : β → Option γ} {default : γ} {vs : List β} :
    Decided stored default vs ↔
      (vs.findSome? stored).getD default = ((vs.take 1).findSome? stored).getD default := by
  cases vs with
  | nil => exact ⟨fun _ => rfl, fun _ _ _ none => nomatch none⟩
  | cons first later =>
      rw [List.take_succ_cons, List.take_zero, List.findSome?_cons, List.findSome?_singleton]
      constructor
      · intro decided
        cases does : stored first with
        | some content => rfl
        | none => exact decided first later rfl does
      · rintro same _ _ ⟨rfl, rfl⟩ does
        simpa [does] using same

theorem lastAgrees_iff {stored : β → Option γ} {default : γ} {vs : List β} :
    LastAgrees stored default vs ↔ (vs.reverse.findSome? stored).getD default =
      ((vs.take 1).reverse.findSome? stored).getD default := by
  cases vs with
  | nil => exact ⟨fun _ => rfl, fun _ _ _ none => nomatch none⟩
  | cons first later =>
      rw [List.take_succ_cons, List.take_zero, List.reverse_singleton, List.findSome?_singleton]
      exact ⟨fun agrees => agrees first later rfl, fun same first' later' equal => by
        obtain ⟨rfl, rfl⟩ := List.cons.inj equal
        exact same⟩

/-- A backward reading is that of the first pairs: the last rejection is that of a first pair,
and without one every first value counts. -/
def DecidesBack [DecidableEq κ] (effect : κ → β → Effect ε γ) (registers : κ → γ)
    (reads : κ → Prop) (pairs : List (κ × β)) : Prop :=
  lastRejection effect pairs = lastRejection effect (firstOnly pairs) ∧
    (lastRejection effect pairs = none → ∀ key, reads key →
      Decided (fun value => (effect key value).stored) (registers key) (values key pairs))

/-- A forward reading is that of the first pairs. -/
def DecidesForward [DecidableEq κ] (effect : κ → β → Effect ε γ) (registers : κ → γ)
    (reads : κ → Prop) (pairs : List (κ × β)) : Prop :=
  firstRejection effect pairs = firstRejection effect (firstOnly pairs) ∧
    (firstRejection effect pairs = none → ∀ key, reads key →
      LastAgrees (fun value => (effect key value).stored) (registers key) (values key pairs))

section Rule

variable [DecidableEq κ] {effect : κ → β → Effect ε γ}

theorem scanBack_firstOnly_iff (registers : κ → γ) (reads : κ → Prop) (pairs : List (κ × β)) :
    SameReading reads (scanBack effect registers pairs)
        (scanBack effect registers (firstOnly pairs)) ↔
      DecidesBack effect registers reads pairs := by
  rw [DecidesBack]
  cases whole : lastRejection effect pairs with
  | some error =>
      rw [scanBack_rejected whole]
      cases firsts : lastRejection effect (firstOnly pairs) with
      | some error' =>
          rw [scanBack_rejected firsts]
          simp [SameReading]
      | none =>
          rw [scanBack_accepted firsts]
          simp [SameReading]
  | none =>
      rw [scanBack_accepted whole]
      cases firsts : lastRejection effect (firstOnly pairs) with
      | some error' =>
          rw [scanBack_rejected firsts]
          simp [SameReading]
      | none =>
          rw [scanBack_accepted firsts]
          simp only [SameReading, true_and, true_implies, decided_iff, values_firstOnly]

theorem scanForward_firstOnly_iff (registers : κ → γ) (reads : κ → Prop) (pairs : List (κ × β)) :
    SameReading reads (scanForward effect registers pairs)
        (scanForward effect registers (firstOnly pairs)) ↔
      DecidesForward effect registers reads pairs := by
  rw [DecidesForward]
  cases whole : firstRejection effect pairs with
  | some error =>
      rw [scanForward_rejected whole]
      cases firsts : firstRejection effect (firstOnly pairs) with
      | some error' =>
          rw [scanForward_rejected firsts]
          simp [SameReading]
      | none =>
          rw [scanForward_accepted firsts]
          simp [SameReading]
  | none =>
      rw [scanForward_accepted whole]
      cases firsts : firstRejection effect (firstOnly pairs) with
      | some error' =>
          rw [scanForward_rejected firsts]
          simp [SameReading]
      | none =>
          rw [scanForward_accepted firsts]
          simp only [SameReading, true_and, true_implies, lastAgrees_iff, values_firstOnly]

end Rule

end ClAmiga.Keyed
