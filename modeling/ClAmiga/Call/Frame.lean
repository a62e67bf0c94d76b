import ClAmiga.Call.Binding
import Mathlib.Data.List.GetD
import Mathlib.Data.List.Nodup

/-!
# What a frame setup leaves in the locals

The pushes of a frame setup described cell by cell, and the keyword loop by the value
each keyword parameter ends up with.  `frameLocals` collects both: the locals in terms
of the arguments, the rest list and the list the keywords are taken from.
-/

namespace ClAmiga.Call

theorem push_cells (s : Stack) (v : Val) (a : Nat) :
    (s.push v).cells a = if a = s.sp then v else s.cells a := by
  simp [Stack.push, Function.update_apply]

/-- Pushing NILs writes the new cells only. -/
theorem pushNils_spec (s : Stack) (n : Nat) : (s.pushNils n).sp = s.sp + n ∧
      ∀ a, (s.pushNils n).cells a = if s.sp ≤ a ∧ a < s.sp + n then .nil else s.cells a := by
  induction n generalizing s with
  | zero =>
      refine ⟨rfl, fun a => ?_⟩
      rw [if_neg (by omega)]
      rfl
  | succ n induction =>
      obtain ⟨pointer, cells⟩ := induction (s.push .nil)
      have moved : (s.push .nil).sp = s.sp + 1 := rfl
      refine ⟨by rw [Stack.pushNils, pointer, moved]; omega, fun a => ?_⟩
      rw [Stack.pushNils, cells, moved, push_cells]
      by_cases here : a = s.sp
      · rw [if_neg (by omega), if_pos here, if_pos (by omega)]
      · by_cases later : s.sp + 1 ≤ a ∧ a < s.sp + 1 + n
        · rw [if_pos later, if_pos (by omega)]
        · rw [if_neg later, if_neg here, if_neg (by omega)]

theorem fill_sp (s : Stack) (limit : Nat) : (s.fill limit).sp = max s.sp limit := by
  rw [Stack.fill, (pushNils_spec s _).1]
  omega

theorem fill_cells (s : Stack) (limit a : Nat) :
    (s.fill limit).cells a = if s.sp ≤ a ∧ a < limit then .nil else s.cells a := by
  rw [Stack.fill, (pushNils_spec s _).2]
  by_cases inside : s.sp ≤ a ∧ a < limit
  · rw [if_pos inside, if_pos (by omega)]
  · rw [if_neg inside, if_neg (by omega)]

/-- Pushing values writes them in order and nothing below them. -/
theorem pushAll_spec (s : Stack) (vs : List Val) : (s.pushAll vs).sp = s.sp + vs.length ∧
      (∀ i, i < vs.length → (s.pushAll vs).cells (s.sp + i) = vs.getD i .nil) ∧
      ∀ a, a < s.sp → (s.pushAll vs).cells a = s.cells a := by
  induction vs generalizing s with
  | nil => exact ⟨rfl, by simp, fun _ _ => rfl⟩
  | cons v vs induction =>
      obtain ⟨pointer, pushed, below⟩ := induction (s.push v)
      have moved : (s.push v).sp = s.sp + 1 := rfl
      rw [moved] at pointer pushed below
      refine ⟨by rw [Stack.pushAll, pointer, List.length_cons]; omega, ?_, ?_⟩
      · intro i inside
        rw [Stack.pushAll]
        cases i with
        | zero =>
            rw [Nat.add_zero, below s.sp (Nat.lt_succ_self _), push_cells, if_pos rfl]
            rfl
        | succ i =>
            have later := pushed i (by simpa using inside)
            rw [show s.sp + (i + 1) = s.sp + 1 + i by omega, later]
            rfl
      · intro a before
        rw [Stack.pushAll, below a (by omega), push_cells, if_neg (by omega)]

/-- A copy down the stack: the source may overlap the target. -/
theorem copy_spec (s : Stack) (src n : Nat) (down : s.sp ≤ src) : (s.copy src n).sp = s.sp + n ∧
      (∀ i, i < n → (s.copy src n).cells (s.sp + i) = s.cells (src + i)) ∧
      ∀ a, a < s.sp ∨ s.sp + n ≤ a → (s.copy src n).cells a = s.cells a := by
  induction n generalizing s src with
  | zero => exact ⟨rfl, by simp, fun _ _ => rfl⟩
  | succ n induction =>
      have moved : (s.push (s.cells src)).sp = s.sp + 1 := rfl
      obtain ⟨pointer, copied, frame⟩ := induction (s.push (s.cells src)) (src + 1)
        (by rw [moved]; omega)
      rw [moved] at pointer copied frame
      refine ⟨by rw [Stack.copy, pointer]; omega, ?_, ?_⟩
      · intro i inside
        rw [Stack.copy]
        cases i with
        | zero =>
            simp only [Nat.add_zero]
            rw [frame s.sp (by omega), push_cells, if_pos rfl]
        | succ i =>
            rw [show s.sp + (i + 1) = s.sp + 1 + i by omega, copied i (by omega), push_cells,
              if_neg (by omega)]
            congr 1
            omega
      · intro a outside
        rw [Stack.copy, frame a (by omega), push_cells, if_neg (by omega)]

theorem window_eq {cells : Cells} {start : Nat} {vs : List Val}
    (holds : ∀ i, i < vs.length → cells (start + i) = vs.getD i .nil) :
    window cells start vs.length = vs := by
  apply List.ext_getElem
  · simp [window]
  · intro i inside insideList
    simp only [window, List.getElem_map, List.getElem_range]
    rw [holds i insideList, List.getD_eq_getElem _ _ insideList]

def lookup (key : Val) : List Val → Option Val
  | k :: v :: rest => if k = key then some v else lookup key rest
  | _ => none

/-- Every keyword of the list is declared, or is `:ALLOW-OTHER-KEYS`. -/
def known (f : Bytecode) : List Val → Bool
  | k :: _ :: rest =>
      ((f.keys.find? fun p => decide (k = p.sym)).isSome || decide (k = allowOtherKeys)) &&
        known f rest
  | _ => true

/-- The value that a keyword parameter gets, if one is supplied: the leftmost of its
keyword.  Of parameters of one keyword the first gets it. -/
def paramValue (f : Bytecode) (named : List Val) (p : Key) : Option Val :=
  if (f.keys.find? fun q => decide (p.sym = q.sym)) = some p then lookup p.sym named else none

variable {f : Bytecode}

theorem slot_inj {p q : Key} (pKey : p ∈ f.keys) (qKey : q ∈ f.keys)
    (same : p.slot = q.slot) : p = q :=
  List.inj_on_of_nodup_map (List.nodup_append.mp f.slotsApart).1 pKey qKey same

theorem suppliedp_inj {p q : Key} (pKey : p ∈ f.keys) (qKey : q ∈ f.keys)
    (same : p.suppliedp = q.suppliedp) : p = q :=
  List.inj_on_of_nodup_map (List.nodup_append.mp f.slotsApart).2.1 pKey qKey same

theorem slot_ne_suppliedp {p q : Key} (pKey : p ∈ f.keys) (qKey : q ∈ f.keys) :
    p.slot ≠ q.suppliedp :=
  (List.nodup_append.mp f.slotsApart).2.2 p.slot (List.mem_map_of_mem pKey) q.suppliedp
    (List.mem_map_of_mem qKey)

structure Matched (f : Bytecode) (bp : Nat) (named : List Val) (before after : Cells) : Prop where
  value : ∀ p ∈ f.keys, after (bp + p.slot) =
    (paramValue f named p).getD (before (bp + p.slot))
  suppliedp : ∀ p ∈ f.keys, after (bp + p.suppliedp) =
    if (paramValue f named p).isSome then .t else before (bp + p.suppliedp)
  others : ∀ a, (∀ p ∈ f.keys, a ≠ bp + p.slot ∧ a ≠ bp + p.suppliedp) → after a = before a

theorem Matched.refl {bp : Nat} {named : List Val}
    (short : ∀ key, lookup key named = none) (cells : Cells) : Matched f bp named cells cells := by
  have none : ∀ p, paramValue f named p = none := by
    intro p
    simp [paramValue, short]
  exact ⟨by simp [none], by simp [none], fun _ _ => rfl⟩

theorem paramValue_cons {k v : Val} {rest : List Val} {p : Key}
    (found : (f.keys.find? fun q => decide (k = q.sym)) ≠ some p) :
    paramValue f (k :: v :: rest) p = paramValue f rest p := by
  unfold paramValue
  split
  · next first =>
      rw [lookup, if_neg]
      rintro rfl
      exact found first
  · rfl

theorem bindKey_matched {allow : Bool} {bp : Nat} {k v : Val} {rest : List Val}
    {before middle after : Cells} (matched : Matched f bp rest before middle)
    (bound : bindKey f allow bp k v middle = .ok after) :
    Matched f bp (k :: v :: rest) before after := by
  unfold bindKey at bound
  split at bound
  · next q found =>
      obtain rfl := Except.ok.inj bound
      have qKey : q ∈ f.keys := List.mem_of_find?_eq_some found
      have isKey : k = q.sym := by simpa using List.find?_some found
      have own : paramValue f (k :: v :: rest) q = some v := by
        rw [paramValue, ← isKey, if_pos found, lookup, if_pos rfl]
      have others : ∀ p ∈ f.keys, p ≠ q → paramValue f (k :: v :: rest) p =
          paramValue f rest p := by
        intro p pKey apart
        apply paramValue_cons
        rw [found]
        intro same
        exact apart (Option.some.inj same).symm
      refine ⟨?_, ?_, ?_⟩
      · intro p pKey
        have notFlag : bp + p.slot ≠ bp + q.suppliedp := by
          have apart := slot_ne_suppliedp pKey qKey
          omega
        rw [Function.update_of_ne notFlag]
        by_cases same : p = q
        · subst same
          rw [Function.update_self, own]
          rfl
        · have notSlot : bp + p.slot ≠ bp + q.slot := by
            intro equal
            exact same (slot_inj pKey qKey (by omega))
          rw [Function.update_of_ne notSlot, matched.value p pKey, others p pKey same]
      · intro p pKey
        by_cases same : p = q
        · subst same
          rw [Function.update_self, own]
          rfl
        · have notFlag : bp + p.suppliedp ≠ bp + q.suppliedp := by
            intro equal
            exact same (suppliedp_inj pKey qKey (by omega))
          have notSlot : bp + p.suppliedp ≠ bp + q.slot := by
            have apart := slot_ne_suppliedp qKey pKey
            omega
          rw [Function.update_of_ne notFlag, Function.update_of_ne notSlot,
            matched.suppliedp p pKey, others p pKey same]
      · intro a outside
        obtain ⟨notSlot, notFlag⟩ := outside q qKey
        rw [Function.update_of_ne notFlag, Function.update_of_ne notSlot, matched.others a outside]
  · next missing =>
      split at bound
      · cases bound
      · obtain rfl := Except.ok.inj bound
        have same : ∀ p, paramValue f (k :: v :: rest) p = paramValue f rest p := by
          intro p
          apply paramValue_cons
          simp [missing]
        refine ⟨?_, ?_, matched.others⟩
        · intro p pKey
          rw [same, matched.value p pKey]
        · intro p pKey
          rw [same, matched.suppliedp p pKey]

theorem matchKeys_matched {allow : Bool} {bp : Nat} {named : List Val}
    {before after : Cells} (ok : matchKeys f allow bp named before = .ok after) :
    Matched f bp named before after := by
  fun_induction matchKeys f allow bp named before generalizing after with
  | case1 k v rest before induction =>
      cases first : matchKeys f allow bp rest before with
      | error e =>
          rw [first] at ok
          cases ok
      | ok middle =>
          rw [first] at ok
          exact bindKey_matched (induction first) ok
  | case2 named before short =>
      obtain rfl := Except.ok.inj ok
      apply Matched.refl
      intro key
      cases named with
      | nil => rfl
      | cons k rest =>
          cases rest with
          | nil => rfl
          | cons v rest => exact absurd rfl (short k v rest)

theorem matchKeys_ok (f : Bytecode) (allow : Bool) (bp : Nat) (named : List Val) (cells : Cells) :
    (∃ after, matchKeys f allow bp named cells = .ok after) ↔ (allow || known f named) = true := by
  fun_induction matchKeys f allow bp named cells with
  | case1 k v rest cells induction =>
      cases first : matchKeys f allow bp rest cells with
      | error e =>
          have refused : ¬ (allow || known f rest) = true := by
            rw [← induction, first]
            rintro ⟨after, ⟨⟩⟩
          simp only [Bool.or_eq_true, not_or] at refused
          constructor
          · rintro ⟨after, ⟨⟩⟩
          · intro accepted
            simp [known, refused] at accepted
      | ok middle =>
          have accepted : (allow || known f rest) = true := by
            rw [← induction, first]
            exact ⟨middle, rfl⟩
          have bound : (Except.ok middle >>= bindKey f allow bp k v) =
              bindKey f allow bp k v middle := rfl
          rw [bound, bindKey]
          cases found : f.keys.find? fun p => decide (k = p.sym) with
          | some p => simpa [known, found] using accepted
          | none =>
              by_cases ours : k = allowOtherKeys
              · simpa [known, found, ours] using accepted
              · cases allow <;> simp_all [known]
  | case2 named cells short =>
      have all : known f named = true := by
        cases named with
        | nil => rfl
        | cons k rest =>
            cases rest with
            | nil => rfl
            | cons v rest => exact absurd rfl (short k v rest)
      simp [all]

end ClAmiga.Call
