import ClAmiga.Peephole.Encode

/-!
# The patterns as edits of single instructions

Every pattern of a round changes instructions one at a time, in one of seven
ways.  What these keep holds of the whole rewriting stage.
-/

namespace ClAmiga.Peephole

variable {code : List Insn} {index : Nat}

theorem le_skipDeleted : index ≤ skipDeleted code index :=
  Nat.le_add_right _ _

theorem lt_nextLive : index < nextLive code index :=
  le_skipDeleted

theorem live_of_skipDeleted {insn : Insn}
    (found : code[skipDeleted code index]? = some insn) : insn.deleted = false := by
  unfold skipDeleted at found
  rw [← List.getElem?_drop] at found
  obtain ⟨inside, rfl⟩ := List.getElem?_eq_some_iff.mp found
  have live := List.findIdx_getElem (w := inside)
  rw [Bool.not_eq_true'] at live
  exact live

theorem deleted_of_skipped {position : Nat} (after : index ≤ position)
    (before : position < skipDeleted code index) {insn : Insn}
    (found : code[position]? = some insn) : insn.deleted = true := by
  unfold skipDeleted at before
  have inDrop : (code.drop index)[position - index]? = some insn := by
    rw [List.getElem?_drop, Nat.add_sub_cancel' after]
    exact found
  obtain ⟨inside, rfl⟩ := List.getElem?_eq_some_iff.mp inDrop
  have early : position - index <
      (code.drop index).findIdx (fun insn => !insn.deleted) := by omega
  have skipped := List.not_of_lt_findIdx early
  simpa using skipped

theorem nextLiveUnjoined_unmarked {next position : Nat} {insn : Insn}
    (step : nextLiveUnjoined code index = (next, false)) (after : index < position)
    (upTo : position ≤ next) (found : code[position]? = some insn) :
    insn.target = false := by
  unfold nextLiveUnjoined at step
  obtain ⟨rfl, unjoined⟩ := Prod.mk.inj step
  rw [List.any_eq_false] at unjoined
  have member : insn ∈ (code.drop (index + 1)).take (nextLive code index - index) := by
    apply List.mem_of_getElem? (i := position - (index + 1))
    rw [List.getElem?_take, if_pos (by omega), List.getElem?_drop, Nat.add_sub_cancel' after]
    exact found
  exact Bool.eq_false_iff.mpr (unjoined insn member)

theorem nextLiveUnjoined_fst {step : Nat × Bool}
    (stepped : nextLiveUnjoined code index = step) : step.1 = nextLive code index := by
  rw [← stepped]
  rfl

def Opcode.IsBranch (op : Opcode) : Prop :=
  op = .opJmp ∨ op = .opJnil ∨ op = .opJtrue

/-- The ways in which a pattern changes an instruction of `code`. -/
inductive Edit (code : List Insn) : Insn → Insn → Prop
  | remove {insn : Insn} (notJump : insn.op ≠ .opJmp) : Edit code insn insn.remove
  | drop {insn : Insn} (free : insn.pinned = false) : Edit code insn insn.drop
  | toReturn {insn : Insn} (jump : insn.op = .opJmp) (free : insn.pinned = false) :
      Edit code insn insn.toReturn
  | storeToReset {insn : Insn} (live : insn.deleted = false)
      (store : insn.op = .opStore) :
      Edit code insn { insn with op := .opMvReset, rawLen := 1, ownLen := 0 }
  | notToReset {insn : Insn} (live : insn.deleted = false) (not : insn.op = .opNot) :
      Edit code insn { insn with op := .opMvReset }
  | flip {insn : Insn} {op : Opcode} (branch : insn.op = .opJnil ∨ insn.op = .opJtrue)
      (flipped : op = .opJnil ∨ op = .opJtrue) :
      Edit code insn { insn with op := op }
  | thread {insn landing : Insn} {target next : Nat} (branch : insn.op.IsBranch)
      (goes : insn.jumpTarget = some target)
      (lands : code[skipDeleted code target]? = some landing)
      (jump : landing.op = .opJmp) (onward : landing.jumpTarget = some next) :
      Edit code insn { insn with jumpTarget := some next }

/-- Edits and fresh target marks, one after the other. -/
inductive Rewrites : List Insn → List Insn → Prop
  | refl (code : List Insn) : Rewrites code code
  | edit {before after : List Insn} {index : Nat} {insn changed : Insn} :
      Rewrites before after → after[index]? = some insn → Edit after insn changed →
      Rewrites before (after.set index changed)
  | mark {before after : List Insn} :
      Rewrites before after → Rewrites before (markTargets after)

theorem Rewrites.trans {first second third : List Insn}
    (rewrites : Rewrites first second) (further : Rewrites second third) :
    Rewrites first third := by
  induction further with
  | refl => exact rewrites
  | edit _ found edit induction => exact .edit induction found edit
  | mark _ induction => exact .mark induction

/-- Every pinned instruction is marked as a target. -/
def Marked (code : List Insn) : Prop :=
  ∀ insn ∈ code, insn.pinned = true → insn.target = true

theorem marked_markTargets (code : List Insn) : Marked (markTargets code) := by
  intro insn member pinned
  obtain ⟨position, inside, rfl⟩ := List.mem_mapIdx.mp member
  dsimp only at pinned ⊢
  rw [pinned, Bool.true_or]

theorem Edit.flags {insn changed : Insn} (edit : Edit code insn changed) :
    changed.pinned = insn.pinned ∧ changed.target = insn.target ∧
      changed.fused = insn.fused ∧ (insn.deleted = true → changed.deleted = true) := by
  cases edit <;> exact ⟨rfl, rfl, rfl, by simp [Insn.remove, Insn.drop, Insn.toReturn]⟩

theorem Rewrites.marked {before after : List Insn}
    (rewrites : Rewrites before after) (marked : Marked before) : Marked after := by
  induction rewrites with
  | refl => exact marked
  | edit _ found edit induction =>
      intro other member pinned
      rcases List.mem_or_eq_of_mem_set member with old | rfl
      · exact induction other old pinned
      · obtain ⟨samePinned, sameTarget, _⟩ := edit.flags
        rw [sameTarget]
        exact induction _ (List.mem_of_getElem? found) (samePinned ▸ pinned)
  | mark => exact marked_markTargets _

theorem Marked.free (marked : Marked code) {insn : Insn}
    (found : code[index]? = some insn) (unmarked : insn.target = false) :
    insn.pinned = false := by
  rw [Bool.eq_false_iff]
  intro pinned
  rw [marked insn (List.mem_of_getElem? found) pinned] at unmarked
  cases unmarked

/-- Edits of a list whose pinned entries are marked. -/
def RewritesMarked (before after : List Insn) : Prop :=
  Marked before → Rewrites before after

theorem foldl_rewrites {State : Type} (round : State → Nat → State) (list : State → List Insn)
    (rewrites : ∀ state index, RewritesMarked (list state) (list (round state index)))
    (indices : List Nat) (state : State) :
    RewritesMarked (list state) (list (indices.foldl round state)) := by
  intro marked
  induction indices generalizing state with
  | nil => exact .refl _
  | cons index later induction =>
      have first := rewrites state index marked
      exact first.trans (induction (round state index) (first.marked marked))

theorem applyRule_rewrites {rule : List Insn → Nat → Option (List Insn)}
    (rewrites : ∀ code index changed, rule code index = some changed →
      RewritesMarked code changed) (state : Counted) :
    RewritesMarked state.1 (applyRule rule state).1 := by
  refine foldl_rewrites _ Prod.fst ?_ _ state
  intro state index marked
  split
  · rename_i changed fired
    exact rewrites _ _ _ fired marked
  · exact .refl _

theorem liveAt_eq_some {op : Opcode} {insn : Insn} (found : liveAt code index op = some insn) :
    code[index]? = some insn ∧ insn.deleted = false ∧ insn.op = op := by
  simp only [liveAt, Option.bind_eq_bind, Option.bind_eq_some_iff,
    Option.ite_none_right_eq_some, Option.some.injEq] at found
  obtain ⟨_, found, ⟨live, opEq⟩, rfl⟩ := found
  exact ⟨found, live, opEq⟩

theorem unjoined_eq_some {op : Opcode} {next : Nat} {insn : Insn}
    (found : unjoined code index op = some (next, insn)) :
    index < next ∧ code[next]? = some insn ∧ insn.op = op ∧ insn.target = false := by
  unfold unjoined at found
  cases stepEq : nextLiveUnjoined code index with
  | mk position joined =>
      rw [stepEq] at found
      simp only [Option.bind_eq_bind, Option.bind_eq_some_iff,
        Option.ite_none_right_eq_some, Option.some.injEq, Prod.mk.injEq] at found
      obtain ⟨_, found, ⟨rfl, opEq⟩, rfl, rfl⟩ := found
      have after : index < position := by
        rw [show position = nextLive code index from nextLiveUnjoined_fst stepEq]
        exact lt_nextLive
      exact ⟨after, found, opEq, nextLiveUnjoined_unmarked stepEq after (Nat.le_refl _) found⟩

theorem getElem?_set_of_lt {position : Nat} {changed : Insn}
    (apart : index < position) : (code.set index changed)[position]? = code[position]? :=
  List.getElem?_set_ne (Nat.ne_of_lt apart)

theorem threadJump_rewrites (hops : Nat) (state : Counted)
    (branch : ∀ insn, state.1[index]? = some insn → insn.op.IsBranch) :
    Rewrites state.1 (threadJump index hops state).1 := by
  induction hops generalizing state with
  | zero => exact .refl _
  | succ hops induction =>
      obtain ⟨code, changed⟩ := state
      unfold threadJump
      split
      · exact .refl _
      · rename_i insn found
        split
        · exact .refl _
        · rename_i target goes
          split
          · exact .refl _
          · rename_i landing lands
            split
            · rename_i returns
              exact .edit (.refl _) found (.toReturn returns.1 returns.2.2)
            · split
              · exact .refl _
              · rename_i jump
                split
                · exact .refl _
                · rename_i next onward
                  split
                  · exact .refl _
                  · have threaded : Edit code insn { insn with jumpTarget := some next } :=
                      .thread (branch insn found) goes lands (not_not.mp jump) onward
                    refine Rewrites.trans (.edit (.refl _) found threaded)
                      (induction (_, changed + 1) ?_)
                    intro other otherFound
                    obtain ⟨_, rfl⟩ := List.getElem?_eq_some_iff.mp otherFound
                    rw [List.getElem_set_self]
                    exact branch insn found

theorem threadJumps_rewrites (state : Counted) : RewritesMarked state.1 (threadJumps state).1 := by
  refine foldl_rewrites _ Prod.fst ?_ _ state
  intro state index _
  unfold threadRule
  split
  · exact .refl _
  · rename_i insn found
    split
    · rename_i isBranch
      apply threadJump_rewrites
      intro other otherFound
      rw [found] at otherFound
      cases otherFound
      exact isBranch.2
    · exact .refl _

variable {changed : List Insn}

theorem jumpToNext_rewrites
    (fired : jumpToNext code index = some changed) : RewritesMarked code changed := by
  intro _
  simp only [jumpToNext, Option.bind_eq_bind, Option.bind_eq_some_iff,
    Option.ite_none_right_eq_some, Option.some.injEq] at fired
  obtain ⟨insn, found, _, _, ⟨free, _⟩, rfl⟩ := fired
  exact .edit (.refl _) (liveAt_eq_some found).1 (.drop free)

theorem deadStoreRet_rewrites
    (fired : deadStoreRet code index = some changed) : RewritesMarked code changed := by
  intro _
  simp only [deadStoreRet, Option.bind_eq_bind, Option.bind_eq_some_iff,
    Option.ite_none_right_eq_some, Option.some.injEq] at fired
  obtain ⟨store, found, _, rfl⟩ := fired
  obtain ⟨found, _, isStore⟩ := liveAt_eq_some found
  exact .edit (.refl _) found (.remove (by simp [isStore]))

theorem storeReload_rewrites
    (fired : storeReload code index = some changed) : RewritesMarked code changed := by
  intro _
  simp only [storeReload, Option.bind_eq_bind, Option.bind_eq_some_iff,
    Option.ite_none_right_eq_some, Option.some.injEq, Prod.exists] at fired
  obtain ⟨_, _, popIndex, pop, popFound, loadIndex, load, loadFound, _, rfl⟩ := fired
  obtain ⟨_, popAt, isPop, _⟩ := unjoined_eq_some popFound
  obtain ⟨apart, loadAt, isLoad, _⟩ := unjoined_eq_some loadFound
  apply Rewrites.edit (.edit (.refl _) popAt (.remove (by simp [isPop])))
  · rw [getElem?_set_of_lt apart]
    exact loadAt
  · exact .remove (by simp [isLoad])

theorem purePop_rewrites
    (fired : purePop code index = some changed) : RewritesMarked code changed := by
  intro _
  simp only [purePop, Option.bind_eq_bind, Option.bind_eq_some_iff,
    Option.ite_none_right_eq_some, Option.ite_none_left_eq_some, Option.some.injEq,
    Prod.exists] at fired
  obtain ⟨push, pushAt, ⟨_, isPure⟩, popIndex, pop, popFound, _, rfl⟩ := fired
  obtain ⟨apart, popAt, isPop, _⟩ := unjoined_eq_some popFound
  have notJump : push.op ≠ .opJmp := by
    intro isJump
    rw [isJump] at isPure
    cases isPure
  apply Rewrites.edit (.edit (.refl _) pushAt (.remove notJump))
  · rw [getElem?_set_of_lt apart]
    exact popAt
  · exact .remove (by simp [isPop])

theorem notBranch_rewrites
    (fired : notBranch code index = some changed) : RewritesMarked code changed := by
  intro _
  unfold notBranch at fired
  cases stepEq : nextLiveUnjoined code index with
  | mk jumpIndex joined =>
      rw [stepEq] at fired
      simp only [Option.bind_eq_bind, Option.bind_eq_some_iff,
        Option.ite_none_right_eq_some, Option.some.injEq] at fired
      obtain ⟨insn, found, jump, jumpAt, ⟨_, branch⟩, rfl⟩ := fired
      obtain ⟨insnAt, live, isNot⟩ := liveAt_eq_some found
      have apart : index < jumpIndex := by
        rw [show jumpIndex = nextLive code index from nextLiveUnjoined_fst stepEq]
        exact lt_nextLive
      have flipped : Edit code jump
          { jump with op := if jump.op = .opJnil then .opJtrue else .opJnil } := by
        apply Edit.flip branch
        split
        · exact Or.inr rfl
        · exact Or.inl rfl
      have insnKept (changed : Insn) : (code.set jumpIndex changed)[index]? = some insn := by
        rw [List.getElem?_set_ne (Nat.ne_of_gt apart)]
        exact insnAt
      have notDone (code : List Insn) (writeDead : Bool) : Edit code insn
          (if writeDead then insn.remove else { insn with op := .opMvReset }) := by
        cases writeDead
        · exact .notToReset live isNot
        · exact .remove (by simp [isNot])
      exact .edit (.edit (.refl _) jumpAt flipped) (insnKept _) (notDone _ _)

theorem returnSite_rewrites
    (fired : returnSite code index = some changed) : RewritesMarked code changed := by
  intro marked
  simp only [returnSite, Option.bind_eq_bind, Option.bind_eq_some_iff,
    Option.ite_none_right_eq_some, Option.some.injEq, Prod.exists] at fired
  obtain ⟨store, storeFound, jumpIndex, jump, jumpFound, loadIndex, _, _, _, rfl⟩ := fired
  obtain ⟨storeAt, live, isStore⟩ := liveAt_eq_some storeFound
  obtain ⟨afterPop, jumpAt, isJump, unmarked⟩ := unjoined_eq_some jumpFound
  have free := marked.free jumpAt unmarked
  -- The store goes or becomes the reset of the landing.
  have storeDone : Edit code store
      (if opAt code (nextLive code loadIndex) = some .opMvReset then
        { store with op := .opMvReset, rawLen := 1, ownLen := 0 }
        else store.remove) := by
    split
    · exact .storeToReset live isStore
    · exact .remove (by simp [isStore])
  have withStore := Rewrites.edit (.refl code) storeAt storeDone
  cases popEq : unjoined code index .opPop with
  | none =>
      rw [popEq] at afterPop
      dsimp only [Option.map, Option.getD] at afterPop ⊢
      refine .edit withStore ?_ (.toReturn isJump free)
      rw [getElem?_set_of_lt afterPop]
      exact jumpAt
  | some step =>
      obtain ⟨popIndex, pop⟩ := step
      obtain ⟨beforePop, popAt, isPop, _⟩ := unjoined_eq_some popEq
      rw [popEq] at afterPop
      dsimp only [Option.map, Option.getD] at afterPop ⊢
      refine .edit (.edit withStore ?_ (.remove (by simp [isPop]))) ?_ (.toReturn isJump free)
      · rw [getElem?_set_of_lt beforePop]
        exact popAt
      · rw [getElem?_set_of_lt afterPop, getElem?_set_of_lt (by omega)]
        exact jumpAt

theorem deadCode_rewrites (state : Counted) : RewritesMarked state.1 (deadCode state).1 := by
  refine foldl_rewrites deadCodeStep (fun state => state.2.1) ?_ _ (true, state)
  rintro ⟨reachable, code, changed⟩ index marked
  simp only [deadCodeStep]
  cases found : code[index]? with
  | none => exact .refl _
  | some insn =>
    dsimp only
    split
    · exact .refl _
    · split
      · rename_i unreached
        have unmarked : insn.target = false := by
          rw [Bool.not_eq_true', Bool.or_eq_false_iff] at unreached
          exact unreached.1
        exact .edit (.refl _) found (.drop (marked.free found unmarked))
      · exact .refl _

theorem RewritesMarked.then {first second third : List Insn}
    (rewrites : RewritesMarked first second) (further : RewritesMarked second third) :
    RewritesMarked first third :=
  fun marked =>
    (rewrites marked).trans (further ((rewrites marked).marked marked))

theorem rewriteRound_rewrites (code : List Insn) : Rewrites code (rewriteRound code).1 := by
  have threaded (state : Counted) : RewritesMarked state.1
      (applyRule jumpToNext (threadJumps state)).1 :=
    (threadJumps_rewrites state).then
      (applyRule_rewrites (fun _ _ _ => jumpToNext_rewrites) _)
  have returned (state : Counted) : RewritesMarked state.1
      (applyRule storeReload (deadCode (applyRule returnSite state))).1 :=
    ((applyRule_rewrites (fun _ _ _ => returnSite_rewrites) _).then
      (deadCode_rewrites _)).then
      (applyRule_rewrites (fun _ _ _ => storeReload_rewrites) _)
  have settled (state : Counted) : RewritesMarked state.1
      (applyRule notBranch (applyRule purePop (applyRule deadStoreRet state))).1 :=
    ((applyRule_rewrites (fun _ _ _ => deadStoreRet_rewrites) _).then
      (applyRule_rewrites (fun _ _ _ => purePop_rewrites) _)).then
      (applyRule_rewrites (fun _ _ _ => notBranch_rewrites) _)
  have first := threaded (markTargets code, 0) (marked_markTargets code)
  unfold rewriteRound
  dsimp only
  generalize applyRule jumpToNext (threadJumps (markTargets code, 0)) = middle
    at first
  have second := ((returned (markTargets middle.1, middle.2)).then (settled _))
    (marked_markTargets middle.1)
  exact (Rewrites.mark (.refl code)).trans ((Rewrites.mark first).trans second)

theorem rewriteRounds_rewrites (rounds : Nat) (state : Counted) :
    Rewrites state.1 (rewriteRounds rounds state).1 := by
  induction rounds generalizing state with
  | zero => exact .refl _
  | succ rounds induction =>
      obtain ⟨code, total⟩ := state
      have round := rewriteRound_rewrites code
      rw [rewriteRounds]
      generalize rewriteRound code = outcome at round ⊢
      obtain ⟨rewritten, changed⟩ := outcome
      dsimp only at round ⊢
      split
      · exact round
      · exact round.trans (induction (rewritten, total + changed))

end ClAmiga.Peephole
