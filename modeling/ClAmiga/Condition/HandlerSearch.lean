import Mathlib.Data.Nat.SuccPred
import Mathlib.Algebra.Order.Ring.Nat
import ClAmiga.Condition.HandlerNesting

/-!
# The discipline of the handler search

Every step keeps the nesting of the handler stack, so it holds in every state a
program reaches.  From it follow which handlers are eligible while another one
runs, in which order a signal tries them, and which mask an exit restores.
-/

namespace ClAmiga.Condition

variable {Ty Cond : Type} {typeMatches : Cond → Ty → Bool}

/-- The state of the stack is the one the open constructs describe. -/
structure WellNested (typeMatches : Cond → Ty → Bool) (s : State Ty Cond) :
    Prop where
  nested : Nested typeMatches s.control s.handlers s.mask
  floors : Floors s.floor s.control
  limit : s.handlers.length ≤ maxHandlerBindings

/-- If the search is about to call a handler function, that handler belongs to
the last clause of its `HANDLER-BIND`, which is the binding pushed first. -/
def CallsLastClause (typeMatches : Cond → Ty → Bool) (s : State Ty Cond) :
    Prop :=
  match s.control with
  | ⟨_, _, _, .search condition bound _⟩ :: _ =>
      match s.handlers[bound - 1]? with
      | some binding =>
          s.floor < bound → s.isActive (bound - 1) = true →
          typeMatches condition binding.typeName = true →
          binding.handler = .function → binding.formMark = bound - 1
      | none => True
  | _ => True

/-- The steps for which the search keeps its discipline. -/
def Orderly (typeMatches : Cond → Ty → Bool) (s : State Ty Cond) :
    Action Ty Cond → Prop
  | .searchStep => CallsLastClause typeMatches s
  | .transfer depth => ∀ inner ∈ s.control.take depth, inner.KeepsFloor
  | .toTopLevel => ∀ inner ∈ s.control, inner.KeepsFloor
  | _ => True

theorem result_of_guard {Value : Type} {guard : Bool} {result : Option Value}
    {value : Value} (taken : (if guard then result else none) = some value) :
    result = some value :=
  (Option.ite_none_right_eq_some.mp taken).2

namespace WellNested

variable {s s' : State Ty Cond}

theorem initial : WellNested typeMatches (Condition.initial : State Ty Cond) :=
  ⟨rfl, rfl, Nat.zero_le _⟩

theorem nested_enter (wellNested : WellNested typeMatches s) {kind : Kind Cond}
    (opens : (Region.mk s.handlers.length s.mask s.floor kind).Opens typeMatches
      s.control.length s.handlers s.mask) :
    Nested typeMatches (s.enter kind).control s.handlers s.mask := by
  refine ⟨opens, ?_⟩
  rw [List.take_length]
  exact wellNested.nested

theorem land_cases {depth : Nat} (landed : s.land depth = some s') :
    ∃ target, s.control = s.control.take depth ++ target :: s'.control ∧
      ¬ isRun target ∧ s'.handlers = s.handlers.take target.mark ∧
      s'.mask = target.entry ∧
      ((target.kind ≠ .boundary ∧ s'.floor = s.floor) ∨
        (target.kind = .boundary ∧ s'.floor = target.floor)) := by
  have split {target : Region Cond} (found : s.control[depth]? = some target) : s.control =
        s.control.take depth ++ target :: s.control.drop (depth + 1) := by
    rw [← (List.getElem?_eq_some_iff.mp found).2, List.getElem_cons_drop, List.take_append_drop]
  unfold State.land at landed
  split at landed
  · rename_i found
    cases landed
    exact ⟨_, split found, by simp [isRun], rfl, rfl, by simp⟩
  · rename_i found
    cases landed
    exact ⟨_, split found, by simp [isRun], rfl, rfl, by simp⟩
  · rename_i found
    cases landed
    exact ⟨_, split found, by simp [isRun], rfl, rfl, by simp⟩
  · simp at landed

theorem land (wellNested : WellNested typeMatches s) {depth : Nat}
    (inside : ∀ inner ∈ s.control.take depth, inner.KeepsFloor)
    (landed : s.land depth = some s') : WellNested typeMatches s' := by
  obtain ⟨target, split, _, handlersEq, maskEq, floorEq⟩ := land_cases landed
  obtain ⟨nested, floors, limit⟩ := wellNested
  rw [split] at nested floors
  have outside := floors.drop inside
  refine ⟨?_, ?_, ?_⟩
  · rw [handlersEq, maskEq]
    exact (nested_suffix nested).2
  · rcases floorEq with ⟨kind, same⟩ | ⟨_, restored⟩
    · rw [same]
      exact (outside.tail (absurd · kind)).2
    · rw [restored]
      exact outside.2
  · rw [handlersEq, List.length_take]
    omega

theorem handlerPush (wellNested : WellNested typeMatches s) {typeName : Ty}
    (pushed : s.handlerPush typeName = some s') :
    WellNested typeMatches s' := by
  unfold State.handlerPush at pushed
  split at pushed
  · rename_i mark entry floor count rest control
    obtain ⟨nested, floors, limit⟩ := wellNested
    rw [control] at nested floors
    obtain ⟨⟨lengthEq, extension⟩, outside⟩ := nested
    dsimp only at lengthEq
    split at pushed
    · simp at pushed
    · rename_i room
      rw [maxHandlerBindings] at room
      have markLe : mark ≤ s.handlers.length := by omega
      cases pushed
      refine ⟨⟨⟨?_, ?_⟩, ?_⟩, floors, ?_⟩
      · dsimp only [State.pushBinding]
        rw [List.length_append, List.length_singleton]
        omega
      · exact extension.pushBinding markLe (by omega) typeName rfl
      · dsimp only [State.pushBinding] at outside ⊢
        rw [List.take_append_of_le_length markLe]
        exact outside
      · simp only [State.pushBinding, List.length_append, List.length_singleton, maxHandlerBindings]
        omega
  · simp at pushed

theorem handlerPop (wellNested : WellNested typeMatches s)
    (popped : s.handlerPop = some s') : WellNested typeMatches s' := by
  unfold State.handlerPop at popped
  split at popped
  · rename_i mark entry floor count rest control
    obtain ⟨nested, floors, limit⟩ := wellNested
    rw [control] at nested floors
    obtain ⟨⟨lengthEq, extension⟩, outside⟩ := nested
    dsimp only at lengthEq
    have top : s.handlers.length - count = mark := by omega
    rw [top] at popped
    simp only [State.popTo, Option.map_map, Option.map_eq_some_iff] at popped
    obtain ⟨band, defined, rfl⟩ := popped
    refine ⟨nested_congr ?_ outside, (floors.tail (by simp [Region.KeepsFloor])).2, ?_⟩
    · intro index low
      exact extension.clear limit defined low
    · simp only [Function.comp_apply, List.length_take]
      omega
  · simp at popped

theorem pushClauses {mark : Nat} {entry : Mask} (types : List Ty)
    (index nlxIndex : Nat) (start : State Ty Cond)
    (extension : Extends (IsClauseOf nlxIndex) mark entry start.handlers start.mask)
    (markLe : mark ≤ start.handlers.length)
    (room : start.handlers.length + types.length ≤ 64) :
    let pushed := State.pushClauses nlxIndex mark entry types index start
    Extends (IsClauseOf nlxIndex) mark entry pushed.handlers pushed.mask ∧
      pushed.handlers.length = start.handlers.length + types.length ∧
      pushed.handlers.take mark = start.handlers.take mark ∧
      pushed.control = start.control ∧ pushed.floor = start.floor := by
  induction types generalizing index with
  | nil => exact ⟨extension, rfl, rfl, rfl, rfl⟩
  | cons typeName later induction =>
      rw [List.length_cons] at room
      obtain ⟨inner, lengthEq, takeEq, sameRest⟩ :=
        induction (index + 1) (by omega)
      dsimp only at inner lengthEq takeEq sameRest ⊢
      unfold State.pushClauses
      refine ⟨inner.pushBinding (by omega) (by omega) typeName ⟨index, rfl⟩, ?_, ?_, sameRest⟩
      · dsimp only [State.pushBinding]
        rw [List.length_append, lengthEq, List.length_cons, List.length_cons, List.length_nil]
        omega
      · dsimp only [State.pushBinding]
        rw [List.take_append_of_le_length (by omega), takeEq]

theorem handlerCasePush (wellNested : WellNested typeMatches s)
    {types : List Ty} (pushed : s.handlerCasePush types = some s') :
    WellNested typeMatches s' := by
  unfold State.handlerCasePush at pushed
  split at pushed
  · simp at pushed
  · rename_i room
    rw [maxHandlerBindings] at room
    cases pushed
    obtain ⟨extension, lengthEq, takeEq, controlEq, floorEq⟩ :=
      pushClauses types 0 s.control.length (s.enter .caseForm) Extends.self (Nat.le_refl _)
        (by dsimp only [State.enter]; omega)
    dsimp only [State.enter] at extension lengthEq takeEq controlEq floorEq
    refine ⟨?_, ?_, ?_⟩
    · rw [State.enter, controlEq]
      refine ⟨⟨by dsimp only; omega, extension⟩, ?_⟩
      dsimp only
      rw [takeEq, List.take_length]
      exact wellNested.nested
    · rw [State.enter, controlEq, floorEq]
      exact ⟨rfl, wellNested.floors⟩
    · rw [State.enter, lengthEq, maxHandlerBindings]
      omega

theorem handlerCasePop (wellNested : WellNested typeMatches s)
    (popped : s.handlerCasePop = some s') : WellNested typeMatches s' := by
  unfold State.handlerCasePop at popped
  split at popped
  · rename_i mark entry floor rest control
    obtain ⟨nested, floors, limit⟩ := wellNested
    rw [control] at nested floors
    obtain ⟨⟨markLe, extension⟩, outside⟩ := nested
    split at popped
    · simp only [State.popTo, Option.map_map, Option.map_eq_some_iff] at popped
      obtain ⟨band, defined, rfl⟩ := popped
      refine ⟨nested_congr ?_ outside, (floors.tail (by simp [Region.KeepsFloor])).2, ?_⟩
      · intro index low
        exact extension.clear limit defined low
      · simp only [Function.comp_apply, List.length_take]
        omega
    · cases popped
      refine ⟨nested_congr ?_ outside, (floors.tail (by simp [Region.KeepsFloor])).2, ?_⟩
      · intro index low
        rw [List.length_take] at low
        exact (extension.below index (by dsimp only at low ⊢; omega)).symm
      · simp only [List.length_take]
        omega
  · simp at popped

theorem leave (wellNested : WellNested typeMatches s)
    (left : s.leave = some s') : WellNested typeMatches s' := by
  obtain ⟨nested, floors, limit⟩ := wellNested
  have leaving {region : Region Cond} {rest : List (Region Cond)}
      (lengthEq : s.handlers.length = region.mark)
      (extension : Extends (fun _ => False) region.mark region.entry s.handlers
        s.mask)
      (outside : Nested typeMatches rest (s.handlers.take region.mark)
        region.entry) : Nested typeMatches rest s.handlers s.mask := by
    rw [← lengthEq, List.take_length] at outside
    apply nested_congr _ outside
    intro index low
    exact (extension.below index (by omega)).symm
  unfold State.leave at left
  split at left
  · rename_i control
    rw [control] at nested floors
    cases left
    exact ⟨leaving nested.1.1 nested.1.2 nested.2, (floors.tail (by simp [Region.KeepsFloor])).2,
      limit⟩
  · rename_i control
    rw [control] at nested floors
    cases left
    exact ⟨leaving nested.1.1 nested.1.2 nested.2, floors.2, limit⟩
  · simp at left

theorem handlerReturn (wellNested : WellNested typeMatches s)
    (returned : s.handlerReturn = some s') : WellNested typeMatches s' := by
  obtain ⟨nested, floors, limit⟩ := wellNested
  unfold State.handlerReturn at returned
  split at returned
  · rename_i control
    rw [control] at nested floors
    cases returned
    obtain ⟨⟨lengthEq, _⟩, outside⟩ := nested
    dsimp only at lengthEq outside
    rw [← lengthEq, List.take_length] at outside
    exact ⟨outside, (floors.tail (by simp [Region.KeepsFloor])).2, limit⟩
  · simp at returned

theorem searched {mark bound : Nat} {entry : Mask} {condition : Cond}
    {tried : List Nat} {handlers : List (Binding Ty)} {mask : Mask}
    {binding : Binding Ty}
    (extension : Extends (fun _ => False) mark entry handlers mask)
    (boundLe : bound ≤ mark)
    (triedEq : tried = eligibleMatches typeMatches handlers entry condition bound)
    (positive : 0 < bound)
    (found : handlers[bound - 1]? = some binding) :
    (if mask.getLsbD (bound - 1) && typeMatches condition binding.typeName then
      (bound - 1) :: tried else tried) =
        eligibleMatches typeMatches handlers entry condition (bound - 1) := by
  rw [eligibleMatches_succ found, extension.below (bound - 1) (by omega),
    Nat.sub_add_cancel positive, ← triedEq]

theorem handlerCaseTransfer (wellNested : WellNested typeMatches s)
    {index clause nlxIndex : Nat} {binding : Binding Ty}
    (found : s.handlers[index]? = some binding)
    (owner : binding.handler = .clause clause nlxIndex)
    (aboveFloor : s.floor ≤ index)
    (transferred : s.handlerCaseTransfer nlxIndex = some s') :
    WellNested typeMatches s' := by
  obtain ⟨above, region, rest, split, position, _, inside⟩ :=
    nested_clause wellNested.nested found owner
  have target : s.control.length - 1 - nlxIndex = above.length := by
    rw [split, List.length_append, List.length_cons]
    omega
  have noBoundary : ∀ inner ∈ above, inner.kind ≠ .boundary := by
    intro inner member isBoundary
    have floors := wellNested.floors
    rw [split] at floors
    obtain ⟨other, otherMember, floorEq⟩ :=
      floors.of_boundary member isBoundary
    have otherAbove := inside other otherMember
    omega
  unfold State.handlerCaseTransfer at transferred
  dsimp only at transferred
  split at transferred
  · apply wellNested.land _ transferred
    intro inner member
    have landsInside : ((s.control.take above.length).findIdx?
        State.isUnwindProtect).getD above.length ≤ above.length := by
      cases search : (s.control.take above.length).findIdx?
          State.isUnwindProtect with
      | none => exact Nat.le_refl _
      | some position =>
          have bound := (List.findIdx?_eq_some_iff_findIdx_eq.mp search).1
          rw [List.length_take] at bound
          dsimp only [Option.getD]
          omega
    rw [target] at member
    have inAbove := List.take_subset_take_left s.control landsInside member
    rw [split, List.take_left] at inAbove
    exact fun isBoundary => absurd isBoundary (noBoundary inner inAbove)
  · simp at transferred

theorem searchStep (wellNested : WellNested typeMatches s)
    (lastClause : CallsLastClause typeMatches s)
    (stepped : s.searchStep typeMatches = some s') :
    WellNested typeMatches s' := by
  unfold State.searchStep at stepped
  split at stepped
  · rename_i mark entry floor condition bound tried rest control
    have kept := wellNested
    obtain ⟨nested, floors, limit⟩ := wellNested
    rw [control] at nested floors
    obtain ⟨⟨lengthEq, extension, boundLe, triedEq⟩, outside⟩ := nested
    obtain ⟨⟨floorEq, _⟩, outerFloors⟩ := floors
    dsimp only at lengthEq extension boundLe triedEq outside floorEq outerFloors
    split at stepped
    · -- The loop is done and nothing has changed.
      cases stepped
      rw [← lengthEq, List.take_length] at outside
      refine ⟨nested_congr ?_ outside, floorEq ▸ outerFloors, limit⟩
      intro index low
      dsimp only at low
      exact (extension.below index (by omega)).symm
    · rename_i moreToDo
      dsimp only at stepped
      split at stepped
      · simp at stepped
      · rename_i binding found
        have next := searched extension boundLe triedEq (by omega) found
        split at stepped
        · rename_i skipped
          cases stepped
          rw [State.isActive, ← Bool.not_and, Bool.not_eq_true'] at skipped
          rw [if_neg (Bool.eq_false_iff.mp skipped)] at next
          exact ⟨⟨⟨lengthEq, extension, by dsimp only; omega, next⟩, outside⟩,
            ⟨⟨floorEq, by dsimp only; omega⟩, outerFloors⟩, limit⟩
        · rename_i called
          simp only [State.isActive, Bool.or_eq_true, Bool.not_eq_true', not_or,
            Bool.not_eq_false] at called
          obtain ⟨active, matching⟩ := called
          rw [active, matching, Bool.true_and, if_pos rfl] at next
          split at stepped
          · rename_i clause nlxIndex owner
            exact kept.handlerCaseTransfer found owner (by omega) stepped
          · rename_i isFunction
            obtain ⟨band, defined, rfl⟩ := Option.map_eq_some_iff.mp stepped
            unfold CallsLastClause at lastClause
            rw [control] at lastClause
            dsimp only at lastClause
            rw [found] at lastClause
            dsimp only at lastClause
            have indexLow : bound - 1 < s.handlers.length := by omega
            refine ⟨⟨⟨rfl, indexLow, active, ?_, ?_⟩, ?_, ?_⟩, ?_, limit⟩
            · intro other otherFound
              rw [found] at otherFound
              cases otherFound
              exact lastClause (by omega) active matching isFunction
            · intro other low
              dsimp only at low ⊢
              rw [maxHandlerBindings] at limit
              have small : other < 64 := by omega
              rw [BitVec.getLsbD_and, BitVec.getLsbD_not,
                decide_eq_true small, getLsbD_bandMask defined small,
                Bool.true_and]
              congr 1
              rw [← decide_not, decide_eq_decide]
              omega
            · dsimp only
              rw [List.take_length]
              exact ⟨lengthEq, extension, by dsimp only; omega, next⟩
            · dsimp only
              rw [List.take_length]
              exact outside
            · exact ⟨rfl, ⟨floorEq, by dsimp only; omega⟩, outerFloors⟩
  · simp at stepped

theorem step (wellNested : WellNested typeMatches s) {action : Action Ty Cond}
    (orderly : Orderly typeMatches s action)
    (stepped : step typeMatches s action = some s') :
    WellNested typeMatches s' := by
  have entered {kind : Kind Cond} (opens : (Region.mk s.handlers.length s.mask
      s.floor kind).Opens typeMatches s.control.length s.handlers s.mask) :=
    wellNested.nested_enter opens
  have nested := wellNested.nested
  have floors := wellNested.floors
  have limit := wellNested.limit
  cases action with
  | searchStep => exact wellNested.searchStep orderly stepped
  | toTopLevel =>
      cases stepped
      rw [← List.append_nil s.control] at floors
      exact ⟨rfl, floors.drop orderly, Nat.zero_le _⟩
  | bindForm =>
      cases result_of_guard stepped
      exact ⟨entered ⟨rfl, Extends.self⟩, ⟨rfl, floors⟩, limit⟩
  | handlerPush typeName => exact wellNested.handlerPush (result_of_guard stepped)
  | handlerPop => exact wellNested.handlerPop (result_of_guard stepped)
  | handlerCasePush types =>
      exact wellNested.handlerCasePush (result_of_guard stepped)
  | handlerCasePop => exact wellNested.handlerCasePop (result_of_guard stepped)
  | frame unwindProtect =>
      cases result_of_guard stepped
      exact ⟨entered ⟨rfl, Extends.self⟩, ⟨rfl, floors⟩, limit⟩
  | boundary =>
      cases result_of_guard stepped
      exact ⟨entered ⟨rfl, Extends.self⟩, ⟨rfl, floors⟩, limit⟩
  | leave => exact wellNested.leave (result_of_guard stepped)
  | signal condition =>
      cases result_of_guard stepped
      have start : [] = eligibleMatches typeMatches s.handlers s.mask condition
          s.handlers.length := (eligibleMatches_top _ _ _).symm
      exact ⟨entered ⟨rfl, Extends.self, Nat.le_refl _, start⟩,
        ⟨⟨rfl, floors.le_length nested⟩, floors⟩, limit⟩
  | handlerReturn => exact wellNested.handlerReturn (result_of_guard stepped)
  | transfer depth => exact wellNested.land orderly (result_of_guard stepped)

theorem run (run : Run typeMatches (Orderly typeMatches) s) : WellNested typeMatches s := by
  induction run with
  | start => exact initial
  | step _ orderly stepped wellNested => exact wellNested.step orderly stepped

end WellNested

theorem pushClauses_control (types : List Ty) (index nlxIndex mark : Nat)
    (entry : Mask) (s : State Ty Cond) :
    (State.pushClauses nlxIndex mark entry types index s).control = s.control := by
  induction types generalizing index with
  | nil => rfl
  | cons typeName later induction => exact induction (index + 1)

theorem step_exits {s s' : State Ty Cond} {action : Action Ty Cond}
    (stepped : step typeMatches s action = some s')
    (shorter : s'.control.length < s.control.length) :
    (∃ head, s.control = head :: s'.control ∧ (isRun head → s'.mask = head.entry)) ∨
    (∃ depth, s.land depth = some s') ∨ s'.handlers = [] := by
  cases action with
  | searchStep =>
      simp only [step, State.searchStep] at stepped
      split at stepped
      · rename_i control
        split at stepped
        · cases stepped
          exact Or.inl ⟨_, control, by simp [isRun]⟩
        · split at stepped
          · simp at stepped
          · split at stepped
            · cases stepped
              rw [control] at shorter
              exact absurd shorter (Nat.lt_irrefl _)
            · split at stepped
              · unfold State.handlerCaseTransfer at stepped
                dsimp only at stepped
                split at stepped
                · exact Or.inr (Or.inl ⟨_, stepped⟩)
                · simp at stepped
              · obtain ⟨_, _, rfl⟩ := Option.map_eq_some_iff.mp stepped
                simp [control] at shorter
      · simp at stepped
  | toTopLevel =>
      cases stepped
      exact Or.inr (Or.inr rfl)
  | transfer depth => exact Or.inr (Or.inl ⟨depth, result_of_guard stepped⟩)
  | handlerReturn =>
      have returned := result_of_guard stepped
      unfold State.handlerReturn at returned
      split at returned
      · rename_i control
        cases returned
        exact Or.inl ⟨_, control, fun _ => rfl⟩
      · simp at returned
  | handlerPop =>
      have popped := result_of_guard stepped
      unfold State.handlerPop at popped
      split at popped
      · rename_i control
        obtain ⟨_, _, rfl⟩ := Option.map_eq_some_iff.mp popped
        exact Or.inl ⟨_, control, by simp [isRun]⟩
      · simp at popped
  | handlerCasePop =>
      have popped := result_of_guard stepped
      unfold State.handlerCasePop at popped
      split at popped
      · rename_i control
        split at popped
        · obtain ⟨_, _, rfl⟩ := Option.map_eq_some_iff.mp popped
          exact Or.inl ⟨_, control, by simp [isRun]⟩
        · cases popped
          exact Or.inl ⟨_, control, by simp [isRun]⟩
      · simp at popped
  | leave =>
      have left := result_of_guard stepped
      unfold State.leave at left
      split at left
      · rename_i control
        cases left
        exact Or.inl ⟨_, control, by simp [isRun]⟩
      · rename_i control
        cases left
        exact Or.inl ⟨_, control, by simp [isRun]⟩
      · simp at left
  | handlerPush typeName =>
      have pushed := result_of_guard stepped
      unfold State.handlerPush at pushed
      split at pushed
      · rename_i control
        split at pushed
        · simp at pushed
        · cases pushed
          simp [control] at shorter
      · simp at pushed
  | handlerCasePush types =>
      have pushed := result_of_guard stepped
      unfold State.handlerCasePush at pushed
      split at pushed
      · simp at pushed
      · cases pushed
        rw [pushClauses_control] at shorter
        simp [State.enter] at shorter
  | bindForm =>
      cases result_of_guard stepped
      simp [State.enter] at shorter
  | frame unwindProtect =>
      cases result_of_guard stepped
      simp [State.enter] at shorter
  | boundary =>
      cases result_of_guard stepped
      simp [State.enter] at shorter
  | signal condition =>
      cases result_of_guard stepped
      simp [State.enter] at shorter

/-- Leaving handler calls gives the bindings that survive the activity they had
before the outermost of these calls. -/
theorem WellNested.exit_restores {s s' : State Ty Cond} {action : Action Ty Cond}
    (wellNested : WellNested typeMatches s)
    (stepped : Condition.step typeMatches s action = some s')
    {above between : List (Region Cond)} {region : Region Cond}
    (running : isRun region)
    (control : s.control = above ++ region :: (between ++ s'.control))
    (outermost : ∀ inner ∈ between, ¬ isRun inner) {index : Nat}
    (survives : index < s'.handlers.length) :
    s'.mask.getLsbD index = region.entry.getLsbD index := by
  have shorter : s'.control.length < s.control.length := by
    rw [control]
    simp only [List.length_append, List.length_cons]
    omega
  rcases step_exits stepped shorter with
    ⟨head, popped, restored⟩ | ⟨depth, landed⟩ | empty
  · -- The innermost construct was left: it is the handler call itself.
    have lengths := congrArg List.length (control.symm.trans popped)
    simp only [List.length_append, List.length_cons] at lengths
    have noAbove : above = [] := List.eq_nil_of_length_eq_zero (by omega)
    have noBetween : between = [] := List.eq_nil_of_length_eq_zero (by omega)
    rw [control, noAbove, noBetween] at popped
    obtain rfl := (List.cons.inj popped).1
    rw [restored running]
  · obtain ⟨target, split, frame, handlersEq, maskEq, _⟩ :=
      WellNested.land_cases landed
    have same : above ++ region :: between = s.control.take depth ++ [target] := by
      have whole : above ++ region :: between ++ s'.control =
          s.control.take depth ++ [target] ++ s'.control := by
        rw [List.append_assoc, List.cons_append, ← control, List.append_assoc]
        exact split
      exact List.append_cancel_right whole
    rcases List.eq_nil_or_concat between with rfl | ⟨inside, last, rfl⟩
    · obtain ⟨_, isTarget⟩ := List.append_inj' same rfl
      cases isTarget
      exact absurd running frame
    · rw [List.concat_eq_append, ← List.cons_append, ← List.append_assoc] at same
      obtain ⟨_, isTarget⟩ := List.append_inj' same rfl
      cases isTarget
      have nested := wellNested.nested
      rw [control, List.concat_eq_append, List.append_assoc] at nested
      have outside := (nested_suffix nested).2
      rw [handlersEq, List.length_take] at survives
      rw [maskEq]
      exact (nested_same_mask (fun inner member =>
        outermost inner (by simp [member])) frame outside (by omega)).symm
  · rw [empty] at survives
    exact absurd survives (Nat.not_lt_zero _)

/-- While a handler runs, only bindings it has established itself are eligible,
and those that were active when the form of the handler was entered. -/
def Confined (s : State Ty Cond) : Prop :=
  ∀ region ∈ s.control, ∀ index, region.kind = .run index →
    ∀ other, s.Eligible other → region.mark ≤ other ∨
      ∃ binding, s.handlers[index]? = some binding ∧
        other < binding.formMark ∧ binding.formMask.getLsbD other = true

/-- The bindings that were eligible for `condition` when `region` was entered. -/
def State.MatchesAt (typeMatches : Cond → Ty → Bool) (s : State Ty Cond)
    (region : Region Cond) (condition : Cond) (index : Nat) : Prop :=
  region.floor ≤ index ∧ index < region.mark ∧
    region.entry.getLsbD index = true ∧ ∃ binding,
      s.handlers[index]? = some binding ∧
        typeMatches condition binding.typeName = true

/-- A signal has called the eligible matching handlers from `bound` on, each
once and the innermost first. -/
def Ordered (typeMatches : Cond → Ty → Bool) (s : State Ty Cond) : Prop :=
  ∀ region ∈ s.control, ∀ condition bound tried,
    region.kind = .search condition bound tried →
    tried.Pairwise (· < ·) ∧ ∀ index, index ∈ tried ↔
      bound ≤ index ∧ s.MatchesAt typeMatches region condition index

/-- When the loop ends, no eligible matching handler is left. -/
def Complete (typeMatches : Cond → Ty → Bool) (s : State Ty Cond) : Prop :=
  ∀ region rest condition bound tried, s.control = region :: rest →
    region.kind = .search condition bound tried → bound ≤ s.floor →
    ∀ index, s.MatchesAt typeMatches region condition index → index ∈ tried

/-- Every step that leaves the call of a handler gives the surviving bindings
the activity they had before the call. -/
def Restoring (typeMatches : Cond → Ty → Bool) (s : State Ty Cond) : Prop :=
  ∀ action s', step typeMatches s action = some s' →
    ∀ above region between, isRun region →
      s.control = above ++ region :: (between ++ s'.control) →
      (∀ inner ∈ between, ¬ isRun inner) →
      ∀ index, index < s'.handlers.length →
        s'.mask.getLsbD index = region.entry.getLsbD index

structure SearchDiscipline (typeMatches : Cond → Ty → Bool)
    (s : State Ty Cond) : Prop where
  confined : Confined s
  ordered : Ordered typeMatches s
  complete : Complete typeMatches s
  restoring : Restoring typeMatches s

namespace WellNested

variable {s : State Ty Cond}

theorem confined (wellNested : WellNested typeMatches s) : Confined s := by
  intro region member index running other ⟨_, inside, active⟩
  exact nested_confined wellNested.nested member running other inside active

theorem floor_le_bound {control : List (Region Cond)} {floor : Nat}
    (floors : Floors floor control) {region : Region Cond}
    (member : region ∈ control) {condition : Cond} {bound : Nat}
    {tried : List Nat} (kind : region.kind = .search condition bound tried) :
    region.floor ≤ bound := by
  obtain ⟨above, rest, rfl⟩ := List.append_of_mem member
  induction above generalizing floor with
  | nil =>
      obtain ⟨head, _⟩ := floors
      rw [kind] at head
      exact head.1 ▸ head.2
  | cons inner above induction =>
      exact induction floors.2 (by simp)

theorem ordered (wellNested : WellNested typeMatches s) : Ordered typeMatches s := by
  intro region member condition bound tried kind
  obtain ⟨position, count, entry, opens⟩ :=
    nested_opens wellNested.nested member
  have floorLe := floor_le_bound wellNested.floors member kind
  unfold Region.Opens at opens
  rw [kind] at opens
  obtain ⟨lengthEq, _, _, rfl⟩ := opens
  constructor
  · exact List.Pairwise.filter _ List.pairwise_lt_range'
  · intro index
    unfold eligibleMatches State.MatchesAt
    rw [List.mem_filter, List.mem_range'_1, lengthEq, Bool.and_eq_true, Option.any_eq_true]
    rw [List.length_take] at lengthEq
    constructor
    · rintro ⟨⟨boundLe, low⟩, active, binding, found, matching⟩
      rw [List.getElem?_take_of_lt (by omega)] at found
      exact ⟨boundLe, by omega, by omega, active, binding, found, matching⟩
    · rintro ⟨boundLe, _, low, active, binding, found, matching⟩
      refine ⟨⟨boundLe, by omega⟩, active, binding, ?_, matching⟩
      rw [List.getElem?_take_of_lt (by omega)]
      exact found

theorem complete (wellNested : WellNested typeMatches s) : Complete typeMatches s := by
  intro region rest condition bound tried control kind done index found
  have member : region ∈ s.control := by
    rw [control]
    exact List.mem_cons_self
  have floors := wellNested.floors
  rw [control] at floors
  have floorEq := (floors.tail (by simp [Region.KeepsFloor, kind])).1
  apply ((wellNested.ordered region member condition bound tried kind).2 index).mpr
  have aboveFloor := found.1
  exact ⟨by omega, found⟩

theorem restoring (wellNested : WellNested typeMatches s) : Restoring typeMatches s :=
  fun _ _ stepped _ _ _ running control outermost _ =>
    wellNested.exit_restores stepped running control outermost

end WellNested

/-- In a run whose steps are all orderly, every search keeps the discipline. -/
theorem handler_search_discipline {s : State Ty Cond}
    (run : Run typeMatches (Orderly typeMatches) s) :
    SearchDiscipline typeMatches s :=
  have wellNested := WellNested.run run
  ⟨wellNested.confined, wellNested.ordered, wellNested.complete, wellNested.restoring⟩

def nestedForms (mask : Mask) (calls : List (Region Nat)) : State Nat Nat :=
  { handlers := [⟨1, .function, 0, 0⟩, ⟨2, .function, 1, 1⟩]
    mask
    floor := 0
    control := calls ++ [⟨1, 1, 0, .bind 1⟩, ⟨0, 0, 0, .bind 1⟩] }

/-- A condition signaled inside a handler is offered to the handlers around that one. -/
theorem handler_search_discipline_nested : SearchDiscipline (· == ·)
      (nestedForms 0 [⟨2, 1, 0, .run 0⟩, ⟨2, 1, 0, .search 1 0 [0]⟩,
        ⟨2, 3, 0, .run 1⟩, ⟨2, 3, 0, .search 2 1 [1]⟩]) :=
  have established : Run (· == ·) (Orderly (· == ·)) (nestedForms 3 []) :=
    .step (.step (.step (.step .start (show Orderly _ _ .bindForm from trivial) rfl)
      (show Orderly _ _ (.handlerPush 1) from trivial) rfl)
      (show Orderly _ _ .bindForm from trivial) rfl)
      (show Orderly _ _ (.handlerPush 2) from trivial) (by decide)
  have innerSearch : Run (· == ·) (Orderly (· == ·)) (nestedForms 3 [⟨2, 3, 0, .search 2 2 []⟩]) :=
    .step established (show Orderly _ _ (.signal 2) from trivial) rfl
  have innerCalled : Run (· == ·) (Orderly (· == ·))
      (nestedForms 1 [⟨2, 3, 0, .run 1⟩, ⟨2, 3, 0, .search 2 1 [1]⟩]) :=
    .step innerSearch (show Orderly _ _ .searchStep from fun _ _ _ _ => rfl)
      (by decide)
  have outerSearch : Run (· == ·) (Orderly (· == ·))
      (nestedForms 1 [⟨2, 1, 0, .search 1 1 []⟩, ⟨2, 3, 0, .run 1⟩, ⟨2, 3, 0, .search 2 1 [1]⟩]) :=
    .step (.step innerCalled (show Orderly _ _ (.signal 1) from trivial) rfl)
      (show Orderly _ _ .searchStep from fun _ _ _ _ => rfl) (by decide)
  handler_search_discipline
    (.step outerSearch (show Orderly _ _ .searchStep from fun _ _ _ _ => rfl)
      (by decide))

def twoClauses (mask : Mask) (calls : List (Region Nat)) : State Nat Nat :=
  { handlers := [⟨2, .function, 0, 0⟩, ⟨1, .function, 0, 0⟩]
    mask
    floor := 0
    control := calls ++ [⟨0, 0, 0, .bind 2⟩] }

/-- While the handler of the first clause runs, the second clause of the same
form is eligible. -/
theorem sibling_clause_eligible :
    ∃ s : State Nat Nat, Run (· == ·) (fun _ _ => True) s ∧ ¬ Confined s := by
  have established : Run (· == ·) (fun _ _ => True) (twoClauses 3 []) :=
    .step (.step (.step .start trivial
      (show step _ _ .bindForm = _ from rfl)) trivial
      (show step _ _ (.handlerPush 2) = _ from rfl)) trivial
      (show step _ _ (.handlerPush 1) = _ by decide)
  have called : Run (· == ·) (fun _ _ => True)
      (twoClauses 1 [⟨2, 3, 0, .run 1⟩, ⟨2, 3, 0, .search 1 1 [1]⟩]) :=
    .step (.step established trivial (show step _ _ (.signal 1) = _ from rfl))
      trivial (show step _ _ .searchStep = _ by decide)
  refine ⟨_, called, ?_⟩
  intro confined
  have sibling := confined ⟨2, 3, 0, .run 1⟩ List.mem_cons_self 1 rfl 0
    ⟨by decide, by decide, by decide⟩
  rcases sibling with own | ⟨binding, found, outer, _⟩
  · exact absurd own (by decide)
  · cases found
    exact absurd outer (Nat.not_lt_zero 0)

end ClAmiga.Condition
