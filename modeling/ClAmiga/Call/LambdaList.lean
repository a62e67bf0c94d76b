import ClAmiga.Call.Frame

/-!
# Lambda-list rules

`lambdaList` gives the locals of a call by the rules of lambda lists, without a stack:
required, optional and rest arguments by position, keyword arguments by the leftmost
occurrence of their keyword.  Each of the three frame setups is reduced to
`frameLocals`, which is the same computation, so that the setups agree with each other
and with the rules.
-/

namespace ClAmiga.Call

def frameLocal (f : Bytecode) (args named : List Val) (rest : Val) (i : Nat) : Val :=
  if i < f.nPositional then args.getD i .nil
  else if f.hasRest = true ∧ i = f.nPositional then rest
  else
    match f.keys.find? fun p => decide (p.slot = i) with
    | some p => (paramValue f named p).getD .nil
    | none =>
        match f.keys.find? fun p => decide (p.suppliedp = i) with
        | some p => if (paramValue f named p).isSome then .t else .nil
        | none => .nil

def frameLocals (f : Bytecode) (args named : List Val) (rest : Val) : List Val :=
  (List.range f.nLocals).map (frameLocal f args named rest)

def keysPass (f : Bytecode) (extra : List Val) : Bool :=
  !f.hasKey || (decide (extra.length % 2 = 0) && ((f.allow || callerAllows extra) || known f extra))

/-- The positional arguments lie in place at the base of the frame. -/
structure Positioned (f : Bytecode) (bp : Nat) (args : List Val) (s : Stack) : Prop where
  low : bp + min args.length f.nPositional ≤ s.sp
  high : s.sp ≤ bp + f.nPositional
  cells : ∀ i, bp + i < s.sp → s.cells (bp + i) = args.getD i .nil

variable {f : Bytecode} {args : List Val}

theorem Positioned.filled {bp : Nat} {s : Stack} (positioned : Positioned f bp args s) :
    (s.fill (bp + f.nPositional)).sp = bp + f.nPositional ∧
      ∀ i, i < f.nPositional → (s.fill (bp + f.nPositional)).cells (bp + i) = args.getD i .nil := by
  obtain ⟨low, high, cells⟩ := positioned
  refine ⟨by rw [fill_sp]; omega, ?_⟩
  intro i inside
  rw [fill_cells]
  by_cases given : bp + i < s.sp
  · rw [if_neg (by omega), cells i given]
  · rw [if_pos (by omega), List.getD_eq_default]
    omega

theorem prepared_cells {bp : Nat} {s : Stack}
    (positioned : Positioned f bp args s) (rest : Val) (i : Nat) (inside : i < f.nLocals) :
    (((if f.hasRest then (s.fill (bp + f.nPositional)).push rest
      else s.fill (bp + f.nPositional)).fill (bp + f.nLocals)).cells (bp + i)) =
      if i < f.nPositional then args.getD i .nil
      else if f.hasRest = true ∧ i = f.nPositional then rest else .nil := by
  obtain ⟨pointer, cells⟩ := positioned.filled
  have room := f.frame
  cases restFlag : f.hasRest with
  | false =>
      simp only [Bool.false_eq_true, if_false, false_and]
      rw [fill_cells, pointer]
      by_cases position : i < f.nPositional
      · rw [if_neg (by omega), cells i position, if_pos position]
      · rw [if_pos (by omega), if_neg position]
  | true =>
      simp only [if_true, true_and]
      have pushed : ((s.fill (bp + f.nPositional)).push rest).sp = bp + f.nPositional + 1 :=
        congrArg (· + 1) pointer
      rw [fill_cells, pushed, push_cells, pointer]
      by_cases position : i < f.nPositional
      · rw [if_neg (by omega), if_neg (by omega), cells i position, if_pos position]
      · rw [if_neg position]
        by_cases isRest : i = f.nPositional
        · rw [if_neg (by omega), if_pos (by omega), if_pos isRest]
        · rw [if_pos (by omega), if_neg isRest]

theorem find_slot {p : Key} (key : p ∈ f.keys) :
    (f.keys.find? fun q => decide (q.slot = p.slot)) = some p := by
  cases found : f.keys.find? fun q => decide (q.slot = p.slot) with
  | none =>
      rw [List.find?_eq_none] at found
      exact absurd (decide_eq_true rfl) (found p key)
  | some q =>
      have same : q.slot = p.slot := by simpa using List.find?_some found
      rw [slot_inj (List.mem_of_find?_eq_some found) key same]

theorem find_suppliedp {p : Key} (key : p ∈ f.keys) :
    (f.keys.find? fun q => decide (q.suppliedp = p.suppliedp)) = some p := by
  cases found : f.keys.find? fun q => decide (q.suppliedp = p.suppliedp) with
  | none =>
      rw [List.find?_eq_none] at found
      exact absurd (decide_eq_true rfl) (found p key)
  | some q =>
      have same : q.suppliedp = p.suppliedp := by simpa using List.find?_some found
      rw [suppliedp_inj (List.mem_of_find?_eq_some found) key same]

theorem find_slot_suppliedp {p : Key} (key : p ∈ f.keys) :
    (f.keys.find? fun q => decide (q.slot = p.suppliedp)) = none := by
  rw [List.find?_eq_none]
  intro q other
  simpa using slot_ne_suppliedp other key

theorem slot_behind {slot : Nat} (member : slot ∈ f.keys.map Key.slot ++ f.keys.map Key.suppliedp) :
    ¬ slot < f.nPositional ∧ ¬ (f.hasRest = true ∧ slot = f.nPositional) := by
  obtain ⟨behind, -⟩ := f.slotsInside slot member
  rw [Bytecode.nPositional]
  cases restFlag : f.hasRest with
  | false =>
      rw [restFlag, if_neg Bool.false_ne_true] at behind
      exact ⟨by omega, by simp⟩
  | true =>
      rw [restFlag, if_pos rfl] at behind
      exact ⟨by omega, by omega⟩

theorem frameLocal_slot {p : Key} (key : p ∈ f.keys) (args named : List Val)
    (rest : Val) : frameLocal f args named rest p.slot = (paramValue f named p).getD .nil := by
  have behind : ¬ p.slot < f.nPositional ∧ ¬ (f.hasRest = true ∧ p.slot = f.nPositional) :=
    slot_behind (List.mem_append_left _ (List.mem_map_of_mem key))
  rw [frameLocal, if_neg behind.1, if_neg behind.2, find_slot key]

theorem frameLocal_suppliedp {p : Key} (key : p ∈ f.keys) (args named : List Val)
    (rest : Val) : frameLocal f args named rest p.suppliedp =
      if (paramValue f named p).isSome then .t else .nil := by
  have behind : ¬ p.suppliedp < f.nPositional ∧
      ¬ (f.hasRest = true ∧ p.suppliedp = f.nPositional) :=
    slot_behind (List.mem_append_right _ (List.mem_map_of_mem key))
  rw [frameLocal, if_neg behind.1, if_neg behind.2, find_slot_suppliedp key, find_suppliedp key]

theorem frameLocal_other {i : Nat}
    (apart : ∀ p ∈ f.keys, i ≠ p.slot ∧ i ≠ p.suppliedp) (args named : List Val) (rest : Val) :
    frameLocal f args named rest i =
      if i < f.nPositional then args.getD i .nil
      else if f.hasRest = true ∧ i = f.nPositional then rest else .nil := by
  have noSlot : (f.keys.find? fun p => decide (p.slot = i)) = none := by
    rw [List.find?_eq_none]
    intro p key
    simpa using (apart p key).1.symm
  have noFlag : (f.keys.find? fun p => decide (p.suppliedp = i)) = none := by
    rw [List.find?_eq_none]
    intro p key
    simpa using (apart p key).2.symm
  rw [frameLocal, noSlot, noFlag]

theorem Bytecode.keys_eq_nil (keyFlag : f.hasKey = false) : f.keys = [] := by
  by_contra some
  simp [f.keyFlag (.inl some)] at keyFlag

theorem frameLocals_noKeys (keyFlag : f.hasKey = false) (args : List Val)
    (named named' : List Val) (rest : Val) :
    frameLocals f args named rest = frameLocals f args named' rest := by
  apply List.map_congr_left
  intro i _
  have apart : ∀ p ∈ f.keys, i ≠ p.slot ∧ i ≠ p.suppliedp := by
    simp [Bytecode.keys_eq_nil keyFlag]
  rw [frameLocal_other apart, frameLocal_other apart]

theorem window_matched {bp : Nat} {args named : List Val} {rest : Val}
    {before after : Cells} (matched : Matched f bp named before after)
    (prepared : ∀ i, i < f.nLocals → before (bp + i) =
      if i < f.nPositional then args.getD i .nil
      else if f.hasRest = true ∧ i = f.nPositional then rest else .nil) :
    window after bp f.nLocals = frameLocals f args named rest := by
  have fresh : ∀ slot ∈ f.keys.map Key.slot ++ f.keys.map Key.suppliedp,
      before (bp + slot) = .nil := by
    intro slot member
    obtain ⟨notPositional, notRest⟩ := slot_behind member
    rw [prepared slot (f.slotsInside slot member).2, if_neg notPositional, if_neg notRest]
  apply List.map_congr_left
  intro i member
  have inside : i < f.nLocals := List.mem_range.mp member
  by_cases value : ∃ p ∈ f.keys, i = p.slot
  · obtain ⟨p, key, rfl⟩ := value
    have nil := fresh p.slot (List.mem_append_left _ (List.mem_map_of_mem key))
    rw [matched.value p key, nil, frameLocal_slot key]
  · by_cases flag : ∃ p ∈ f.keys, i = p.suppliedp
    · obtain ⟨p, key, rfl⟩ := flag
      have nil := fresh p.suppliedp (List.mem_append_right _ (List.mem_map_of_mem key))
      rw [matched.suppliedp p key, nil, frameLocal_suppliedp key]
    · have apart : ∀ p ∈ f.keys, i ≠ p.slot ∧ i ≠ p.suppliedp := by
        intro p key
        exact ⟨fun equal => value ⟨p, key, equal⟩, fun equal => flag ⟨p, key, equal⟩⟩
      rw [frameLocal_other apart, ← prepared i inside]
      apply matched.others
      intro p key
      have different := apart p key
      omega

theorem finishFrame_locals {bp : Nat} {s : Stack}
    (positioned : Positioned f bp args s) (rest : Val) (extra : List Val) :
    locals f bp (finishFrame f bp rest extra s) =
      if keysPass f extra = true then some (frameLocals f args extra rest) else none := by
  have prepared := prepared_cells positioned rest
  unfold finishFrame
  dsimp only
  generalize (if f.hasRest then (s.fill (bp + f.nPositional)).push rest
      else s.fill (bp + f.nPositional)).fill (bp + f.nLocals) = ready at prepared ⊢
  cases keyFlag : f.hasKey with
  | false =>
      have noKeys := Bytecode.keys_eq_nil keyFlag
      have untouched : Matched f bp extra ready.cells ready.cells := by
        refine ⟨?_, ?_, fun _ _ => rfl⟩ <;> simp [noKeys]
      simp [processKeys, keysPass, keyFlag, locals, window_matched untouched prepared]
  | true =>
      have ok := matchKeys_ok f (f.allow || callerAllows extra) bp extra ready.cells
      rw [processKeys, if_pos keyFlag]
      by_cases odd : extra.length % 2 = 1
      · have even : ¬ extra.length % 2 = 0 := by omega
        simp [odd, keysPass, keyFlag, locals]
      · have even : extra.length % 2 = 0 := by omega
        rw [if_neg odd]
        cases run : matchKeys f (f.allow || callerAllows extra) bp extra ready.cells with
        | error e =>
            have refused : ¬ ((f.allow || callerAllows extra) || known f extra) = true := by
              rw [← ok, run]
              rintro ⟨after, ⟨⟩⟩
            rw [if_neg]
            · rfl
            · simpa [keysPass, keyFlag, even] using refused
        | ok after =>
            have accepted : ((f.allow || callerAllows extra) || known f extra) = true := by
              rw [← ok, run]
              exact ⟨after, rfl⟩
            rw [if_pos]
            · rw [locals, window_matched (matchKeys_matched run) prepared]
            · simpa [keysPass, keyFlag, even] using accepted

structure OnTop (s : Stack) (args : List Val) : Prop where
  room : args.length ≤ s.sp
  cells : ∀ i, i < args.length → s.cells (s.sp - args.length + i) = args.getD i .nil

def fits (f : Bytecode) (nargs : Nat) : Prop :=
  f.arity ≤ nargs ∧ (f.hasRest = true ∨ f.hasKey = true ∨ nargs ≤ f.nPositional)

instance (f : Bytecode) (nargs : Nat) : Decidable (fits f nargs) :=
  inferInstanceAs (Decidable (_ ∧ _))

/-- What each of the setups computes, as a function of the arguments. -/
def setup (f : Bytecode) (args : List Val) : Option (List Val) :=
  let surplus := args.drop f.nPositional
  let named := surplus.take extraArgsSize
  if fits f args.length ∧ keysPass f named = true then
    some (frameLocals f args named (listOf surplus))
  else none

theorem checkArity_bind {limit nargs : Nat} (within : nargs ≤ limit)
    (bp : Nat) (next : Except Failure Cells) :
    locals f bp (checkArity f limit nargs >>= fun _ => next) =
      if fits f nargs then locals f bp next else none := by
  unfold checkArity
  dsimp only
  by_cases few : nargs < f.arity
  · have refused : ¬ fits f nargs := by
      rintro ⟨enough, -⟩
      omega
    rw [if_pos few, if_neg refused]
    rfl
  · rw [if_neg few]
    by_cases unlimited : f.hasRest = true ∨ f.hasKey = true
    · have accepted : fits f nargs := ⟨by omega, by tauto⟩
      rw [if_pos unlimited, if_neg (by omega), if_pos accepted]
      rfl
    · rw [if_neg unlimited]
      by_cases many : f.nPositional < nargs
      · have refused : ¬ fits f nargs := by
          rintro ⟨-, flag⟩
          have positional : nargs ≤ f.nPositional := by tauto
          omega
        rw [if_pos many, if_neg refused]
        rfl
      · have accepted : fits f nargs := ⟨by omega, .inr (.inr (by omega))⟩
        rw [if_neg many, if_pos accepted]
        rfl

theorem window_drop {cells : Cells} {base : Nat} {n : Nat}
    (holds : ∀ i, n ≤ i → i < args.length → cells (base + i) = args.getD i .nil) :
    window cells (base + n) (args.length - n) = args.drop n := by
  have counted : args.length - n = (args.drop n).length := (List.length_drop ..).symm
  rw [counted]
  apply window_eq
  intro i inside
  rw [List.length_drop] at inside
  rw [Nat.add_assoc, holds (n + i) (by omega) (by omega), List.getD_eq_getElem _ _ (by omega),
    List.getD_eq_getElem _ _ (by rw [List.length_drop]; omega), List.getElem_drop]

theorem finished_setup {bp : Nat} {s : Stack} (positioned : Positioned f bp args s) :
    (if fits f args.length then
      locals f bp (finishFrame f bp (listOf (args.drop f.nPositional))
        ((args.drop f.nPositional).take extraArgsSize) s)
    else none) = setup f args := by
  rw [finishFrame_locals positioned, setup]
  by_cases arity : fits f args.length
  · simp only [arity, if_true, true_and]
  · simp only [arity, if_false, false_and]

theorem surplus_fits (byte : args.length ≤ 255) (n : Nat) :
    (args.drop n).take extraArgsSize = args.drop n := by
  apply List.take_of_length_le
  rw [List.length_drop, extraArgsSize]
  omega

theorem opCall_setup {s : Stack} (top : OnTop s args) (byte : args.length ≤ 255) :
    locals f (s.sp - args.length) (opCall f s args.length) = setup f args := by
  obtain ⟨room, cells⟩ := top
  have surplus : extraArgs f s.cells (s.sp - args.length) args.length =
      (args.drop f.nPositional).take extraArgsSize := by
    rw [extraArgs, window_drop (fun i _ inside => cells i inside)]
  have positioned : Positioned f (s.sp - args.length) args
      (if f.nPositional < args.length then
        { s with sp := s.sp - args.length + f.nPositional } else s) := by
    by_cases more : f.nPositional < args.length
    · rw [if_pos more]
      refine ⟨by dsimp only; omega, Nat.le_refl _, ?_⟩
      intro i inside
      dsimp only at inside
      exact cells i (by omega)
    · rw [if_neg more]
      refine ⟨by omega, by omega, ?_⟩
      intro i inside
      exact cells i (by omega)
  rw [opCall, checkArity_bind byte, ← finished_setup positioned]
  dsimp only
  rw [surplus, surplus_fits byte]

theorem opTailcall_setup {s : Stack} {bp : Nat}
    (top : OnTop s args) (down : bp ≤ s.sp - args.length) (byte : args.length ≤ 255) :
    locals f bp (opTailcall f s bp args.length) = setup f args := by
  obtain ⟨room, cells⟩ := top
  obtain ⟨pointer, copied, frame⟩ := copy_spec { s with sp := bp } (s.sp - args.length)
    (min args.length f.nPositional) down
  rw [opTailcall, checkArity_bind byte]
  dsimp only at pointer copied frame ⊢
  generalize ({ s with sp := bp } : Stack).copy (s.sp - args.length)
    (min args.length f.nPositional) = low at pointer copied frame ⊢
  have copiedIn : Positioned f bp args low := by
    refine ⟨by omega, by omega, ?_⟩
    intro i inside
    rw [copied i (by omega), cells i (by omega)]
  obtain ⟨filledPointer, filledCells⟩ := copiedIn.filled
  have positioned : Positioned f bp args (low.fill (bp + f.nPositional)) := by
    refine ⟨by omega, by omega, ?_⟩
    intro i inside
    exact filledCells i (by omega)
  have surplus : extraArgs f (low.fill (bp + f.nPositional)).cells (s.sp - args.length)
      args.length = (args.drop f.nPositional).take extraArgsSize := by
    -- with surplus arguments no optional is filled, and the copy stays below them
    rw [extraArgs, window_drop]
    intro i behind inside
    rw [fill_cells, if_neg (by omega), frame _ (by omega), cells i inside]
  rw [← finished_setup positioned, surplus, surplus_fits byte]

theorem opApply_setup (limit : args.length ≤ callArgsLimit)
    (s : Stack) : locals f s.sp (opApply f s args) = setup f args := by
  obtain ⟨pointer, pushed, -⟩ := pushAll_spec s args
  have within : ¬ callArgsLimit < args.length := by omega
  unfold opApply
  dsimp only
  rw [if_neg within, checkArity_bind limit]
  generalize s.pushAll args = spread at pointer pushed ⊢
  have surplus : window spread.cells (s.sp + f.nPositional) (args.length - f.nPositional) =
      args.drop f.nPositional :=
    window_drop (fun i _ inside => pushed i inside)
  have positioned : Positioned f s.sp args
      (if f.nPositional < args.length then
        { spread with sp := s.sp + f.nPositional } else spread) := by
    by_cases more : f.nPositional < args.length
    · rw [if_pos more]
      refine ⟨by dsimp only; omega, Nat.le_refl _, ?_⟩
      intro i inside
      dsimp only at inside
      exact pushed i (by omega)
    · rw [if_neg more]
      refine ⟨by omega, by omega, ?_⟩
      intro i inside
      exact pushed i (by omega)
  rw [← finished_setup positioned, extraArgs, surplus]
  cases keyFlag : f.hasKey with
  | true => rfl
  | false =>
      have pass : ∀ extra, keysPass f extra = true := by simp [keysPass, keyFlag]
      rw [finishFrame_locals positioned, finishFrame_locals positioned, if_pos (pass _),
        if_pos (pass _), frameLocals_noKeys keyFlag]

/-- Whether other keys are allowed: by the lambda list, or by the leftmost
`:ALLOW-OTHER-KEYS` of the call. -/
def allowed (f : Bytecode) (named : List Val) : Bool :=
  f.allow ||
    match lookup allowOtherKeys named with
    | some val => decide (val ≠ .nil)
    | none => false

/-- The locals of a call, or `none` for an argument error, given the list the keywords are
taken from and whether it is accepted. -/
def bindBy (f : Bytecode) (args named : List Val) (accepted : Bool) : Option (List Val) :=
  let surplus := args.drop f.nPositional
  if args.length < f.arity then none
  else if surplus ≠ [] ∧ f.hasRest = false ∧ f.hasKey = false then none
  else if f.hasKey = true ∧ accepted = false then none
  else some (frameLocals f args named (listOf surplus))

/-- The rules of lambda lists as the frame setups have them: an odd number of keyword
arguments is an error in any case, and the keywords are those among the first
`extraArgsSize` surplus arguments. -/
def lambdaList (f : Bytecode) (args : List Val) : Option (List Val) :=
  let named := (args.drop f.nPositional).take extraArgsSize
  bindBy f args named (decide (named.length % 2 = 0) && (allowed f named || known f named))

/-- The rules of lambda lists over all arguments, where an odd number of keyword
arguments is an error unless other keys are allowed. -/
def lambdaListUnbounded (f : Bytecode) (args : List Val) : Option (List Val) :=
  let named := args.drop f.nPositional
  bindBy f args named (allowed f named || (decide (named.length % 2 = 0) && known f named))

theorem callerAllows_of_lookup {named : List Val} {val : Val}
    (leftmost : lookup allowOtherKeys named = some val) (true_ : val ≠ .nil) :
    callerAllows named = true := by
  fun_induction callerAllows named with
  | case1 key v rest induction =>
      rw [lookup] at leftmost
      by_cases ours : key = allowOtherKeys
      · rw [if_pos ours] at leftmost
        obtain rfl := Option.some.inj leftmost
        simp [ours, true_]
      · rw [if_neg ours] at leftmost
        simp [induction leftmost]
  | case2 named short =>
      cases named with
      | nil => cases leftmost
      | cons k rest =>
          cases rest with
          | nil => cases leftmost
          | cons v rest => exact absurd rfl (short k v rest)

theorem lookup_of_callerAllows {named : List Val} (some_ : callerAllows named = true) :
    ∃ val, lookup allowOtherKeys named = some val := by
  fun_induction callerAllows named with
  | case1 key v rest induction =>
      rw [lookup]
      by_cases ours : key = allowOtherKeys
      · exact ⟨v, if_pos ours⟩
      · rw [if_neg ours]
        apply induction
        simpa [ours] using some_
  | case2 named short => cases some_

/-- With no true `:ALLOW-OTHER-KEYS` behind a false one, the leftmost decides. -/
theorem callerAllows_eq {named : List Val}
    (leftmost : callerAllows named = true → lookup allowOtherKeys named ≠ some .nil) :
    (f.allow || callerAllows named) = allowed f named := by
  unfold allowed
  cases found : lookup allowOtherKeys named with
  | none =>
      have none_ : callerAllows named = false := by
        by_contra some_
        obtain ⟨val, other⟩ := lookup_of_callerAllows (by simpa using some_)
        rw [found] at other
        cases other
      rw [none_]
  | some val =>
      by_cases false_ : val = .nil
      · subst false_
        have none_ : callerAllows named = false := by
          by_contra some_
          exact leftmost (by simpa using some_) found
        simp [none_]
      · simp [callerAllows_of_lookup found false_, false_]

theorem setup_eq_lambdaList
    (leftmost : callerAllows ((args.drop f.nPositional).take extraArgsSize) = true →
      lookup allowOtherKeys ((args.drop f.nPositional).take extraArgsSize) ≠ some .nil) :
    setup f args = lambdaList f args := by
  have pass := callerAllows_eq (f := f) leftmost
  have surplus : args.drop f.nPositional ≠ [] ↔ ¬ args.length ≤ f.nPositional := by
    rw [Ne, List.drop_eq_nil_iff]
  unfold setup lambdaList bindBy
  dsimp only
  rw [keysPass, pass]
  generalize (args.drop f.nPositional).take extraArgsSize = named
  generalize (decide (named.length % 2 = 0) && (allowed f named || known f named)) = accepted
  by_cases few : args.length < f.arity
  · have refused : ¬ fits f args.length := by
      rintro ⟨enough, -⟩
      omega
    rw [if_pos few, if_neg (fun both => refused both.1)]
  · rw [if_neg few]
    by_cases many : args.drop f.nPositional ≠ [] ∧ f.hasRest = false ∧ f.hasKey = false
    · have refused : ¬ fits f args.length := by
        rintro ⟨-, flag⟩
        simp [many.2.1, many.2.2, surplus.mp many.1] at flag
      rw [if_neg (fun both => refused both.1), if_pos many]
    · have arity : fits f args.length := by
        refine ⟨by omega, ?_⟩
        rw [surplus] at many
        cases restFlag : f.hasRest with
        | true => exact .inl rfl
        | false =>
            cases keyFlag : f.hasKey with
            | true => exact .inr (.inl rfl)
            | false => exact .inr (.inr (by simpa [restFlag, keyFlag] using many))
      rw [if_neg many]
      cases f.hasKey <;> cases accepted <;> simp [arity]

/-- The three frame setups bind the same locals, or all fail, and they follow the rules of
lambda lists unless a false `:ALLOW-OTHER-KEYS` comes before a true one. -/
theorem setups_follow_lambda_list (f : Bytecode) (args : List Val)
    (limit : args.length ≤ callArgsLimit) (applied : Stack) :
    (args.length ≤ 255 → ∀ called tail : Stack, ∀ bp, OnTop called args → OnTop tail args →
      bp ≤ tail.sp - args.length →
      locals f (called.sp - args.length) (opCall f called args.length) =
          locals f applied.sp (opApply f applied args) ∧
        locals f bp (opTailcall f tail bp args.length) =
          locals f applied.sp (opApply f applied args)) ∧
    ((callerAllows ((args.drop f.nPositional).take extraArgsSize) = true →
        lookup allowOtherKeys ((args.drop f.nPositional).take extraArgsSize) ≠ some .nil) →
      locals f applied.sp (opApply f applied args) = lambdaList f args) := by
  have apply_ := opApply_setup (f := f) limit applied
  refine ⟨?_, ?_⟩
  · intro byte called tail bp calledTop tailTop down
    rw [apply_]
    exact ⟨opCall_setup calledTop byte, opTailcall_setup tailTop down byte⟩
  · intro leftmost
    rw [apply_]
    exact setup_eq_lambdaList leftmost

/-- `(lambda (&key a))`, or `(lambda (&key a &allow-other-keys))`. -/
def keyed (allow : Bool) : Bytecode where
  arity := 0
  hasRest := false
  nOptional := 0
  hasKey := true
  allow := allow
  keys := [⟨.symbol "A", 0, 1⟩]
  nLocals := 2
  keyFlag := by simp
  frame := by decide
  slotsApart := by decide
  slotsInside := by decide

def emptyStack : Stack :=
  ⟨fun _ => .nil, 0⟩

/-- A keyword given twice: the leftmost value counts. -/
theorem setups_follow_lambda_list_keyed :
    let args : List Val := [.symbol "A", .other 7, .symbol "A", .other 8]
    let s := emptyStack.pushAll args
    locals (keyed false) 0 (opCall (keyed false) s 4) = some [.other 7, .t] ∧
      locals (keyed false) 0 (opTailcall (keyed false) s 0 4) = some [.other 7, .t] ∧
      locals (keyed false) 0 (opApply (keyed false) emptyStack args) = some [.other 7, .t] := by
  intro args s
  have top : OnTop s args := ⟨by decide, by decide⟩
  obtain ⟨agree, rules⟩ := setups_follow_lambda_list (keyed false) args (by decide) emptyStack
  obtain ⟨call, tail⟩ := agree (by decide) s s 0 top top (by decide)
  have bound : locals (keyed false) emptyStack.sp (opApply (keyed false) emptyStack args) =
      some [.other 7, .t] := (rules (by decide)).trans (by decide)
  exact ⟨call.trans bound, tail.trans bound, bound⟩

/-- An odd keyword list with other keys allowed, a keyword behind the buffer, and a false
`:ALLOW-OTHER-KEYS` before a true one. -/
theorem setups_leave_unbounded_rules :
    let odd : List Val := [.symbol "A"]
    let long : List Val :=
      (List.replicate 128 [allowOtherKeys, .nil]).flatten ++ [.symbol "A", .other 7]
    let twice : List Val := [allowOtherKeys, .nil, .symbol "B", .other 7, allowOtherKeys, .t]
    (locals (keyed true) 0 (opApply (keyed true) emptyStack odd) = none ∧
      lambdaListUnbounded (keyed true) odd = some [.nil, .nil]) ∧
    (locals (keyed false) 0 (opApply (keyed false) emptyStack long) = some [.nil, .nil] ∧
      lambdaListUnbounded (keyed false) long = some [.other 7, .t]) ∧
    (locals (keyed false) 0 (opApply (keyed false) emptyStack twice) = some [.nil, .nil] ∧
      lambdaListUnbounded (keyed false) twice = none) := by
  intro odd long twice
  refine ⟨?_, ?_, ?_⟩
  · decide +kernel
  · decide +kernel
  · decide +kernel

end ClAmiga.Call
