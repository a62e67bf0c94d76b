import Mathlib.Data.List.Basic
import Mathlib.Tactic.Common

/-!
# Multiple values in the virtual machine

The first value of a form is on the operand stack; the number of its values and the others are
beside it, and many instructions leave these as they are.  Before an instruction that looks at them
the compiler resets the number where it may be that of an earlier form.
-/

namespace ClAmiga.Vm

/-- `CL_Obj`, as far as the instructions for multiple values look into it. -/
inductive Obj where
  | nil
  | fixnum (value : Int)
  | cons (car cdr : Obj)
  | other (id : Nat)
deriving DecidableEq, Repr

def Obj.list (objs : List Obj) : Obj :=
  objs.foldr .cons .nil

/-- `CL_MAX_MV` -/
def maxMv : Nat := 20

/-- `CL_MV_SAVE_SIZE` -/
def mvSaveSize : Nat := 2048

/-- The operand stack of a thread with its top first, `cl_mv_count`, `cl_mv_values` and the value
save stack. -/
structure Thread where
  stack : List Obj
  mvCount : Int
  mvValues : Nat → Obj
  mvSaveBuf : Nat → Obj
  mvSaveTop : Nat

namespace Thread

def push (thread : Thread) (obj : Obj) : Thread :=
  { thread with stack := obj :: thread.stack }

/-- `cl_vm_pop` -/
def pop (thread : Thread) : Except String (Obj × Thread) :=
  match thread.stack with
  | [] => .error "VM stack underflow"
  | obj :: stack => .ok (obj, { thread with stack })

/-- `OP_MV_RESET` -/
def mvReset (thread : Thread) : Thread :=
  { thread with mvCount := 1 }

/-- The list that `OP_MV_TO_LIST` makes. -/
def mvList (thread : Thread) (primary : Obj) : Obj :=
  if thread.mvCount = 0 then
    -- a primary other than NIL shows that the count is that of an earlier form
    if primary = .nil then .nil else .cons primary .nil
  else if thread.mvCount = 1 then .cons primary .nil
  else .list ((List.range thread.mvCount.toNat).map thread.mvValues)

/-- `OP_MV_TO_LIST` -/
def mvToList (thread : Thread) : Except String Thread := do
  let (primary, thread) ← thread.pop
  return { thread.push (thread.mvList primary) with mvCount := 1 }

/-- The value that `OP_NTH_VALUE` pushes. -/
def nthOf (thread : Thread) (idx : Int) (primary : Obj) : Obj :=
  if idx = 0 then primary
  else if idx > 0 ∧ idx < thread.mvCount then thread.mvValues idx.toNat else .nil

/-- `OP_NTH_VALUE` -/
def nthValue (thread : Thread) : Except String Thread := do
  let (primary, thread) ← thread.pop
  let (idxObj, thread) ← thread.pop
  match idxObj with
  | .fixnum idx => return { thread.push (thread.nthOf idx primary) with mvCount := 1 }
  | _ => throw "NTH-VALUE: index must be a number"

def park (thread : Thread) (obj : Obj) : Thread :=
  { thread with
    mvSaveBuf := Function.update thread.mvSaveBuf thread.mvSaveTop obj
    mvSaveTop := thread.mvSaveTop + 1 }

/-- The number of values that `OP_MV_SAVE` parks. -/
def parked (thread : Thread) : Nat :=
  min thread.mvCount.toNat maxMv

def mvRecord (thread : Thread) (primary : Obj) : List Obj :=
  (if thread.parked > 0 then
    primary :: (List.range' 1 (thread.parked - 1)).map thread.mvValues else []) ++
    [.fixnum thread.parked]

/-- `OP_MV_SAVE` -/
def mvSave (thread : Thread) : Except String Thread := do
  let (primary, thread) ← thread.pop
  if thread.mvSaveTop + thread.parked + 1 > mvSaveSize then
    throw "UNWIND-PROTECT value-save stack overflow"
  else return (thread.mvRecord primary).foldl park thread

/-- `OP_MV_RESTORE` -/
def mvRestore (thread : Thread) : Except String Thread :=
  if thread.mvSaveTop < 1 then throw "OP_MV_RESTORE: value-save stack underflow"
  else
    match thread.mvSaveBuf (thread.mvSaveTop - 1) with
    | .fixnum n =>
        if n < 0 ∨ n > maxMv ∨ thread.mvSaveTop - 1 < n then
          throw "OP_MV_RESTORE: corrupt value-save record"
        else
          let top := thread.mvSaveTop - 1 - n.toNat
          let values := fun i =>
            if i < n.toNat then thread.mvSaveBuf (top + i) else thread.mvValues i
          .ok
            { stack := (if n > 0 then values 0 else .nil) :: thread.stack
              mvCount := n
              mvValues := values
              mvSaveBuf := thread.mvSaveBuf
              mvSaveTop := top }
    | _ => throw "OP_MV_RESTORE: corrupt value-save record"

/-- `bi_values`, with the arguments past the limit left out. -/
def biValues (thread : Thread) (args : List Obj) : Thread :=
  { thread.push (args.headD .nil) with
    mvCount := min args.length maxMv
    mvValues := fun i => if i < maxMv then args.getD i (thread.mvValues i) else thread.mvValues i }

end Thread

/-- `CL_MV_STALE`, `CL_MV_ONE` and `CL_MV_MANY` of the compiler. -/
inductive MvState where
  | stale
  | one
  | many
deriving DecidableEq, Repr

/-- The stack, the count and the slots are those of a form with these values. -/
structure Describes (thread : Thread) (vals : List Obj) (stack : List Obj) : Prop where
  primary : thread.stack = vals.headD .nil :: stack
  count : thread.mvCount = vals.length
  slots : 2 ≤ vals.length → ∀ i v, vals[i]? = some v → thread.mvValues i = v

/-- A form has been evaluated with these values: its last instruction has pushed a value and left
the count and the slots of an earlier form, it has pushed a value and set the count to one, or it
has been a call. -/
inductive Produced (earlier : Thread) : MvState → List Obj → Thread → Prop where
  | stale (v : Obj) : Produced earlier .stale [v] (earlier.push v)
  | one (v : Obj) : Produced earlier .one [v] (earlier.push v).mvReset
  | many {vals : List Obj} {thread : Thread} (fits : vals.length ≤ maxMv)
      (described : Describes thread vals earlier.stack)
      (buf : thread.mvSaveBuf = earlier.mvSaveBuf) (top : thread.mvSaveTop = earlier.mvSaveTop) :
      Produced earlier .many vals thread

/-- `cl_mv_normalize` before an instruction that looks at the values. -/
def normalize (state : MvState) (thread : Thread) : Thread :=
  match state with
  | .stale => thread.mvReset
  | _ => thread

/-- The instructions of a body, as far as they concern the value save stack. -/
inductive Body where
  | other
  | seq (first second : Body)
  | protect (form cleanup : Body)
  | catching (body : Body)

/-- The landing of a transfer: the records of the cleanups that it has abandoned are dropped. -/
def landing (mark : Nat) (thread : Thread) : Thread :=
  { thread with mvSaveTop := mark }

mutual

inductive Completes : Body → Thread → Thread → Prop where
  | other {thread after : Thread} (buf : after.mvSaveBuf = thread.mvSaveBuf)
      (top : after.mvSaveTop = thread.mvSaveTop) : Completes .other thread after
  | seq {first second : Body} {thread middle after : Thread}
      (one : Completes first thread middle) (two : Completes second middle after) :
      Completes (.seq first second) thread after
  | protect {form cleanup : Body} {thread valued saved cleaned after : Thread}
      (evaluated : Completes form thread valued) (save : valued.mvSave = .ok saved)
      (cleanup_completes : Completes cleanup saved cleaned)
      (restore : cleaned.mvRestore = .ok after) : Completes (.protect form cleanup) thread after
  | resumed {form cleanup : Body} {thread thrown cleaned after : Thread}
      (left : Leaves form thread thrown)
      (cleanup_completes : Completes cleanup
        ((landing thread.mvSaveTop thrown).park (.fixnum 0)) cleaned)
      (restore : cleaned.mvRestore = .ok after) : Completes (.protect form cleanup) thread after
  | caught {body : Body} {thread thrown after : Thread} (left : Leaves body thread thrown)
      (buf : after.mvSaveBuf = thrown.mvSaveBuf) (top : after.mvSaveTop = thread.mvSaveTop) :
      Completes (.catching body) thread after
  | uncaught {body : Body} {thread after : Thread} (completes : Completes body thread after) :
      Completes (.catching body) thread after

inductive Leaves : Body → Thread → Thread → Prop where
  | here {body : Body} {thread thrown : Thread} (buf : thrown.mvSaveBuf = thread.mvSaveBuf)
      (top : thrown.mvSaveTop = thread.mvSaveTop) : Leaves body thread thrown
  | first {first second : Body} {thread thrown : Thread} (left : Leaves first thread thrown) :
      Leaves (.seq first second) thread thrown
  | second {first second : Body} {thread middle thrown : Thread}
      (one : Completes first thread middle) (left : Leaves second middle thrown) :
      Leaves (.seq first second) thread thrown
  | form {form cleanup : Body} {thread thrown cleaned : Thread}
      (left : Leaves form thread thrown)
      (cleanup_completes : Completes cleanup
        ((landing thread.mvSaveTop thrown).park (.fixnum 0)) cleaned) :
      Leaves (.protect form cleanup) thread cleaned
  | landed {form cleanup : Body} {thread thrown again : Thread}
      (left : Leaves form thread thrown)
      (cleanup_left : Leaves cleanup
        ((landing thread.mvSaveTop thrown).park (.fixnum 0)) again) :
      Leaves (.protect form cleanup) thread again
  | cleanup {form cleanup : Body} {thread valued saved thrown : Thread}
      (evaluated : Completes form thread valued) (save : valued.mvSave = .ok saved)
      (left : Leaves cleanup saved thrown) : Leaves (.protect form cleanup) thread thrown
  | catching {body : Body} {thread thrown : Thread} (left : Leaves body thread thrown) :
      Leaves (.catching body) thread thrown

end

def Kept (mark : Nat) (thread after : Thread) : Prop :=
  ∀ j < mark, after.mvSaveBuf j = thread.mvSaveBuf j

theorem Kept.trans {mark : Nat} {first second third : Thread} (one : Kept mark first second)
    (two : Kept mark second third) : Kept mark first third :=
  fun j below => (two j below).trans (one j below)

theorem Kept.mono {mark mark' : Nat} {thread after : Thread} (kept : Kept mark thread after)
    (lower : mark' ≤ mark) : Kept mark' thread after :=
  fun j below => kept j (Nat.lt_of_lt_of_le below lower)

theorem Kept.of_eq {mark : Nat} {thread after : Thread}
    (buf : after.mvSaveBuf = thread.mvSaveBuf) : Kept mark thread after :=
  fun j _ => congrFun buf j

@[simp] theorem park_top (thread : Thread) (obj : Obj) :
    (thread.park obj).mvSaveTop = thread.mvSaveTop + 1 :=
  rfl

theorem park_self (thread : Thread) (obj : Obj) :
    (thread.park obj).mvSaveBuf thread.mvSaveTop = obj :=
  Function.update_self ..

theorem kept_park {mark : Nat} {thread : Thread} (above : mark ≤ thread.mvSaveTop) (obj : Obj) :
    Kept mark thread (thread.park obj) :=
  fun _ below => Function.update_of_ne (Nat.ne_of_lt (Nat.lt_of_lt_of_le below above)) ..

theorem foldl_park (words : List Obj) (thread : Thread) :
    (words.foldl Thread.park thread).stack = thread.stack ∧
      (words.foldl Thread.park thread).mvSaveTop = thread.mvSaveTop + words.length ∧
      Kept thread.mvSaveTop thread (words.foldl Thread.park thread) ∧
      ∀ i v, words[i]? = some v →
        (words.foldl Thread.park thread).mvSaveBuf (thread.mvSaveTop + i) = v := by
  induction words generalizing thread with
  | nil => exact ⟨rfl, rfl, .of_eq rfl, by simp⟩
  | cons word words induction =>
      obtain ⟨stack, top, kept, held⟩ := induction (thread.park word)
      rw [List.foldl_cons]
      refine ⟨stack, ?_, ?_, ?_⟩
      · rw [top, List.length_cons, park_top]
        omega
      · exact (kept_park (Nat.le_refl _) word).trans (kept.mono (Nat.le_succ _))
      · intro i v here
        cases i with
        | zero =>
            rw [List.getElem?_cons_zero] at here
            have first := kept thread.mvSaveTop (Nat.lt_succ_self _)
            rw [Nat.add_zero, first, park_self]
            exact Option.some.inj here
        | succ i =>
            have later := held i v (by simpa using here)
            rwa [park_top, Nat.add_assoc, Nat.add_comm 1 i] at later

/-- The record that `OP_MV_SAVE` has parked. -/
structure Saved (thread : Thread) (primary : Obj) (stack : List Obj) (saved : Thread) : Prop where
  stack : saved.stack = stack
  top : saved.mvSaveTop = thread.mvSaveTop + thread.parked + 1
  kept : Kept thread.mvSaveTop thread saved
  count : saved.mvSaveBuf (thread.mvSaveTop + thread.parked) = .fixnum thread.parked
  first : 0 < thread.parked → saved.mvSaveBuf thread.mvSaveTop = primary
  others : ∀ i, 0 < i → i < thread.parked →
    saved.mvSaveBuf (thread.mvSaveTop + i) = thread.mvValues i

theorem length_mvRecord (thread : Thread) (primary : Obj) :
    (thread.mvRecord primary).length = thread.parked + 1 := by
  unfold Thread.mvRecord
  split
  · rename_i positive
    rw [List.length_append, List.length_cons, List.length_map, List.length_range',
      List.length_singleton, Nat.sub_add_cancel positive]
  · rename_i none
    rw [Nat.eq_zero_of_not_pos none]
    rfl

theorem mvRecord_count (thread : Thread) (primary : Obj) :
    (thread.mvRecord primary)[thread.parked]? = some (.fixnum thread.parked) := by
  have length := length_mvRecord thread primary
  unfold Thread.mvRecord at length ⊢
  rw [List.length_append, List.length_singleton] at length
  have before := Nat.succ.inj length
  rw [List.getElem?_append_right (Nat.le_of_eq before), before, Nat.sub_self]
  rfl

theorem mvRecord_first {thread : Thread} (some_value : 0 < thread.parked) (primary : Obj) :
    (thread.mvRecord primary)[0]? = some primary := by
  rw [Thread.mvRecord, if_pos some_value]
  rfl

theorem mvRecord_others {thread : Thread} {i : Nat} (later : 0 < i) (inside : i < thread.parked)
    (primary : Obj) : (thread.mvRecord primary)[i]? = some (thread.mvValues i) := by
  obtain ⟨i, rfl⟩ := Nat.exists_eq_succ_of_ne_zero (Nat.ne_of_gt later)
  rw [Thread.mvRecord, if_pos (by omega), List.getElem?_append_left (by simp; omega)]
  rw [List.getElem?_cons_succ, List.getElem?_map, List.getElem?_range' (by omega)]
  simp [Nat.add_comm]

theorem mvSave_saved {thread saved : Thread} (save : thread.mvSave = .ok saved) :
    ∃ primary stack, thread.stack = primary :: stack ∧ Saved thread primary stack saved := by
  unfold Thread.mvSave Thread.pop at save
  split at save
  · cases save
  · rename_i primary stack here
    refine ⟨primary, stack, here, ?_⟩
    let popped : Thread := { thread with stack }
    change (if popped.mvSaveTop + popped.parked + 1 > mvSaveSize then
      throw "UNWIND-PROTECT value-save stack overflow"
      else pure ((popped.mvRecord primary).foldl Thread.park popped)) = Except.ok saved at save
    split at save
    · cases save
    · obtain rfl := Except.ok.inj save
      obtain ⟨same, top, kept, held⟩ := foldl_park (popped.mvRecord primary) popped
      constructor
      case stack => exact same
      case top => rw [top, length_mvRecord]; rfl
      case kept => exact kept
      case count => exact held _ _ (mvRecord_count popped primary)
      case first => exact fun some_value => held 0 _ (mvRecord_first some_value primary)
      case others => exact fun i later inside => held i _ (mvRecord_others later inside primary)

theorem mvRestore_record {thread : Thread} {n mark : Nat} (top : thread.mvSaveTop = mark + n + 1)
    (count : thread.mvSaveBuf (mark + n) = .fixnum n) (few : n ≤ maxMv) :
    thread.mvRestore = .ok
      { stack := (if 0 < n then thread.mvSaveBuf mark else .nil) :: thread.stack
        mvCount := n
        mvValues := fun i => if i < n then thread.mvSaveBuf (mark + i) else thread.mvValues i
        mvSaveBuf := thread.mvSaveBuf
        mvSaveTop := mark } := by
  have some_record : ¬ thread.mvSaveTop < 1 := by omega
  have at_count : thread.mvSaveTop - 1 = mark + n := by omega
  have sound : ¬ ((n : Int) < 0 ∨ (n : Int) > maxMv ∨ (thread.mvSaveTop : Int) - 1 < n) := by omega
  have start : mark + n - (n : Int).toNat = mark := by omega
  rw [Thread.mvRestore, if_neg some_record, at_count, count]
  dsimp only
  rw [if_neg sound, start, Int.toNat_natCast]
  rcases Nat.eq_zero_or_pos n with rfl | positive
  · rfl
  · rw [if_pos (by omega), if_pos positive, if_pos positive, Nat.add_zero]

theorem parked_le (thread : Thread) : thread.parked ≤ maxMv :=
  Nat.min_le_right ..

theorem restore_saved {thread saved cleaned : Thread} {primary : Obj} {stack : List Obj}
    (save : Saved thread primary stack saved) (top : cleaned.mvSaveTop = saved.mvSaveTop)
    (kept : Kept saved.mvSaveTop saved cleaned) :
    cleaned.mvRestore = .ok
      { stack := (if 0 < thread.parked then cleaned.mvSaveBuf thread.mvSaveTop else .nil) ::
          cleaned.stack
        mvCount := thread.parked
        mvValues := fun i =>
          if i < thread.parked then cleaned.mvSaveBuf (thread.mvSaveTop + i)
          else cleaned.mvValues i
        mvSaveBuf := cleaned.mvSaveBuf
        mvSaveTop := thread.mvSaveTop } := by
  have above := save.top
  refine mvRestore_record (top.trans above) ?_ (parked_le thread)
  rw [kept _ (by omega), save.count]

theorem restore_empty {thread cleaned : Thread} {mark : Nat}
    (above : thread.mvSaveTop = mark) (top : cleaned.mvSaveTop = mark + 1)
    (kept : Kept (mark + 1) (thread.park (.fixnum 0)) cleaned) :
    ∃ after, cleaned.mvRestore = .ok after ∧ after.mvSaveTop = mark ∧
      after.mvSaveBuf = cleaned.mvSaveBuf := by
  subst above
  have count : cleaned.mvSaveBuf thread.mvSaveTop = .fixnum 0 := by
    rw [kept _ (Nat.lt_succ_self _), park_self]
  exact ⟨_, @mvRestore_record cleaned 0 thread.mvSaveTop top count (Nat.zero_le _), rfl, rfl⟩

theorem kept_landing (thread thrown : Thread) :
    Kept thread.mvSaveTop thrown ((landing thread.mvSaveTop thrown).park (.fixnum 0)) :=
  fun _ below => Function.update_of_ne (Nat.ne_of_lt below) ..

mutual

/-- A body that completes leaves the saved values of those around it. -/
theorem completes_kept {body : Body} {thread after : Thread}
    (completes : Completes body thread after) :
    after.mvSaveTop = thread.mvSaveTop ∧ Kept thread.mvSaveTop thread after := by
  cases completes with
  | other buf top => exact ⟨top, .of_eq buf⟩
  | seq one two =>
      obtain ⟨top, kept⟩ := completes_kept one
      obtain ⟨top', kept'⟩ := completes_kept two
      rw [top] at top' kept'
      exact ⟨top', kept.trans kept'⟩
  | @protect _ _ _ valued saved cleaned _ evaluated save cleanup restore =>
      obtain ⟨top, kept⟩ := completes_kept evaluated
      obtain ⟨top', kept'⟩ := completes_kept cleanup
      obtain ⟨primary, stack, -, record⟩ := mvSave_saved save
      have restored := (restore_saved record top' kept').symm.trans restore
      obtain rfl := Except.ok.inj restored
      refine ⟨top, kept.trans ?_⟩
      rw [← top]
      have above := record.top
      exact record.kept.trans (kept'.mono (by omega))
  | @resumed _ _ _ thrown cleaned _ left cleanup restore =>
      obtain ⟨above, kept⟩ := leaves_kept left
      obtain ⟨top', kept'⟩ := completes_kept cleanup
      obtain ⟨restored, here, top, buf⟩ := restore_empty rfl top' kept'
      obtain rfl := Except.ok.inj (here.symm.trans restore)
      have cleanup_kept := (kept_landing thread thrown).trans (kept'.mono (Nat.le_succ _))
      exact ⟨top, (kept.trans cleanup_kept).trans (.of_eq buf)⟩
  | caught left buf top =>
      obtain ⟨-, kept⟩ := leaves_kept left
      exact ⟨top, kept.trans (.of_eq buf)⟩
  | uncaught completes => exact completes_kept completes

/-- A transfer out of a body leaves the records below it. -/
theorem leaves_kept {body : Body} {thread thrown : Thread} (leaves : Leaves body thread thrown) :
    thread.mvSaveTop ≤ thrown.mvSaveTop ∧ Kept thread.mvSaveTop thread thrown := by
  cases leaves with
  | here buf top => exact ⟨Nat.le_of_eq top.symm, .of_eq buf⟩
  | first left => exact leaves_kept left
  | second one left =>
      obtain ⟨top, kept⟩ := completes_kept one
      obtain ⟨above, kept'⟩ := leaves_kept left
      rw [top] at above kept'
      exact ⟨above, kept.trans kept'⟩
  | @form _ _ _ thrown' _ left cleanup =>
      obtain ⟨-, kept⟩ := leaves_kept left
      obtain ⟨top, kept'⟩ := completes_kept cleanup
      have cleanup_kept := (kept_landing thread thrown').trans (kept'.mono (Nat.le_succ _))
      exact ⟨top ▸ Nat.le_succ _, kept.trans cleanup_kept⟩
  | @landed _ _ _ thrown' _ left cleanup =>
      obtain ⟨-, kept⟩ := leaves_kept left
      obtain ⟨above, kept'⟩ := leaves_kept cleanup
      have cleanup_kept := (kept_landing thread thrown').trans (kept'.mono (Nat.le_succ _))
      exact ⟨Nat.le_of_succ_le above, kept.trans cleanup_kept⟩
  | @cleanup _ _ _ valued saved _ evaluated save left =>
      obtain ⟨top, kept⟩ := completes_kept evaluated
      obtain ⟨above, kept'⟩ := leaves_kept left
      obtain ⟨primary, stack, -, record⟩ := mvSave_saved save
      have saved_top := record.top
      refine ⟨by omega, kept.trans ?_⟩
      rw [← top]
      exact record.kept.trans (kept'.mono (by omega))
  | catching left => exact leaves_kept left

end

theorem normalize_describes {earlier thread : Thread} {state : MvState} {vals : List Obj}
    (produced : Produced earlier state vals thread) :
    Describes (normalize state thread) vals earlier.stack := by
  cases produced with
  | stale v => exact ⟨rfl, rfl, fun two => absurd two (by simp)⟩
  | one v => exact ⟨rfl, rfl, fun two => absurd two (by simp)⟩
  | many fits described buf top => exact described

theorem normalize_frame {earlier thread : Thread} {state : MvState} {vals : List Obj}
    (produced : Produced earlier state vals thread) :
    (normalize state thread).mvSaveBuf = earlier.mvSaveBuf ∧
      (normalize state thread).mvSaveTop = earlier.mvSaveTop := by
  cases produced with
  | stale v => exact ⟨rfl, rfl⟩
  | one v => exact ⟨rfl, rfl⟩
  | many fits described buf top => exact ⟨buf, top⟩

theorem produced_fits {earlier thread : Thread} {state : MvState} {vals : List Obj}
    (produced : Produced earlier state vals thread) : vals.length ≤ maxMv := by
  cases produced with
  | stale v => exact (by decide : 1 ≤ maxMv)
  | one v => exact (by decide : 1 ≤ maxMv)
  | many fits described buf top => exact fits

theorem biValues_describes (thread : Thread) {args : List Obj} (fits : args.length ≤ maxMv) :
    Describes (thread.biValues args) args thread.stack where
  primary := rfl
  count := by
    change min (args.length : Int) maxMv = args.length
    omega
  slots _ i v here := by
    obtain ⟨inside, rfl⟩ := List.getElem?_eq_some_iff.mp here
    change (if i < maxMv then args.getD i (thread.mvValues i) else thread.mvValues i) = _
    rw [if_pos (Nat.lt_of_lt_of_le inside fits), List.getD_eq_getElem?_getD, here, Option.getD_some]

section Described

variable {thread : Thread} {vals stack : List Obj}

theorem Describes.mvList (described : Describes thread vals stack) :
    thread.mvList (vals.headD .nil) = .list vals := by
  have count := described.count
  match vals, described with
  | [], described =>
      rw [Thread.mvList, if_pos (by simp [count])]
      rfl
  | [v], described =>
      rw [Thread.mvList, if_neg (by simp [count]), if_pos (by simp [count])]
      rfl
  | v :: w :: vals, described =>
      have many : thread.mvCount.toNat = (v :: w :: vals).length := by
        rw [count, Int.toNat_natCast]
      rw [Thread.mvList, if_neg (by simp [count]; omega), if_neg (by simp [count]; omega), many]
      congr 1
      refine List.ext_getElem (by simp) fun i inside inside' => ?_
      rw [List.getElem_map, List.getElem_range]
      exact described.slots (by simp) i _ (List.getElem?_eq_getElem inside')

/-- The value with a number, NIL where there is none. -/
def nthOfValues (vals : List Obj) (idx : Int) : Obj :=
  if 0 ≤ idx then vals.getD idx.toNat .nil else .nil

theorem Describes.nthOf (described : Describes thread vals stack) (idx : Int) :
    thread.nthOf idx (vals.headD .nil) = nthOfValues vals idx := by
  have count := described.count
  unfold Thread.nthOf nthOfValues
  by_cases first : idx = 0
  · subst first
    rw [if_pos rfl, if_pos (Int.le_refl 0)]
    cases vals <;> rfl
  · rw [if_neg first]
    by_cases later : 0 ≤ idx
    · rw [if_pos later, List.getD_eq_getElem?_getD]
      by_cases inside : idx < thread.mvCount
      · have below : idx.toNat < vals.length := by omega
        rw [if_pos ⟨by omega, inside⟩, List.getElem?_eq_getElem below, Option.getD_some]
        exact described.slots (by omega) _ _ (List.getElem?_eq_getElem below)
      · rw [if_neg (fun both => inside both.2), List.getElem?_eq_none (by omega),
          Option.getD_none]
    · rw [if_neg later, if_neg (fun both => later (by omega))]

theorem Describes.parked (described : Describes thread vals stack)
    (fits : vals.length ≤ maxMv) : thread.parked = vals.length := by
  have count := described.count
  unfold Thread.parked
  omega

theorem pop_cons {obj : Obj} (top : thread.stack = obj :: stack) :
    thread.pop = .ok (obj, { thread with stack }) := by
  rw [Thread.pop, top]

theorem Describes.mvToList (described : Describes thread vals stack) :
    thread.mvToList = .ok { thread with stack := .list vals :: stack, mvCount := 1 } := by
  have made := described.mvList
  rw [Thread.mvToList, pop_cons described.primary]
  change Except.ok { thread with
    stack := thread.mvList (vals.headD .nil) :: stack, mvCount := 1 } = _
  rw [made]

theorem Describes.nthValue {idx : Int} (described : Describes thread vals (.fixnum idx :: stack)) :
    thread.nthValue = .ok { thread with stack := nthOfValues vals idx :: stack, mvCount := 1 } := by
  have found := described.nthOf idx
  rw [Thread.nthValue, pop_cons described.primary]
  change Except.ok { thread with
    stack := thread.nthOf idx (vals.headD .nil) :: stack, mvCount := 1 } = _
  rw [found]

theorem Describes.restored (described : Describes thread vals stack) (fits : vals.length ≤ maxMv)
    {saved after : Thread} {body : Body} (save : thread.mvSave = .ok saved)
    (completes : Completes body saved after) :
    ∃ restored, after.mvRestore = .ok restored ∧
      Describes restored vals after.stack ∧ restored.mvSaveTop = thread.mvSaveTop ∧
      Kept thread.mvSaveTop thread restored := by
  obtain ⟨primary, stack', here, record⟩ := mvSave_saved save
  obtain ⟨top, kept⟩ := completes_kept completes
  have parked := described.parked fits
  have above := record.top
  have first : vals.headD .nil = primary :=
    (List.cons.inj (described.primary.symm.trans here)).1
  refine ⟨_, restore_saved record top kept, ⟨?_, ?_, ?_⟩, rfl, ?_⟩
  · dsimp only
    congr 1
    rw [parked]
    cases vals with
    | nil => rfl
    | cons v vals =>
        rw [if_pos (by simp), kept _ (by omega), record.first (by simp [parked])]
        exact first.symm
  · rw [parked]
  · intro two i v at_i
    obtain ⟨inside, rfl⟩ := List.getElem?_eq_some_iff.mp at_i
    dsimp only
    rw [if_pos (by omega), kept _ (by omega)]
    rcases Nat.eq_zero_or_pos i with rfl | later
    · rw [Nat.add_zero, record.first (by omega), ← first, List.headD_eq_head?_getD,
        List.head?_eq_getElem?, at_i, Option.getD_some]
    · rw [record.others i later (by omega)]
      exact described.slots two i _ at_i
  · exact record.kept.trans (kept.mono (by omega))

end Described

theorem list_length {first second : List Obj} (same : Obj.list first = Obj.list second) :
    first.length = second.length := by
  induction first generalizing second with
  | nil =>
      cases second with
      | nil => rfl
      | cons head tail => cases same
  | cons head tail induction =>
      cases second with
      | nil => cases same
      | cons head' tail' =>
          rw [List.length_cons, List.length_cons, induction (Obj.cons.inj same).2]

theorem mvList_stale_iff (earlier : Thread) (v : Obj) : (earlier.push v).mvList v = .list [v] ↔
      earlier.mvCount = 1 ∨ (earlier.mvCount = 0 ∧ v ≠ .nil) := by
  unfold Thread.mvList
  change (if earlier.mvCount = 0 then _ else if earlier.mvCount = 1 then _ else _) = _ ↔ _
  by_cases none : earlier.mvCount = 0
  · rw [if_pos none]
    by_cases nil : v = .nil
    · rw [if_pos nil]
      simp [none, nil, Obj.list]
    · rw [if_neg nil]
      simp [none, nil, Obj.list]
  · rw [if_neg none]
    by_cases one : earlier.mvCount = 1
    · simp [one, Obj.list]
    · rw [if_neg one]
      refine iff_of_false ?_ (by simp [none, one])
      intro same
      have length := list_length same
      rw [List.length_map, List.length_range] at length
      change earlier.mvCount.toNat = 1 at length
      omega

/-- The instructions for multiple values see the values of the form, whatever an earlier form has
left, and a cleanup with any saves of its own leaves them as they are.  Without the reset a single
value is told from those of the earlier form by the count and by being NIL. -/
theorem values_preserved {earlier thread : Thread} {state : MvState} {vals : List Obj}
    (produced : Produced earlier state vals thread) :
    (normalize state thread).mvToList =
        .ok { normalize state thread with stack := .list vals :: earlier.stack, mvCount := 1 } ∧
      (∀ idx stack, earlier.stack = .fixnum idx :: stack → (normalize state thread).nthValue =
          .ok { normalize state thread with
            stack := nthOfValues vals idx :: stack, mvCount := 1 }) ∧
      (∀ saved body after, (normalize state thread).mvSave = .ok saved →
        Completes body saved after →
        ∃ restored, after.mvRestore = .ok restored ∧
          restored.stack = vals.headD .nil :: after.stack ∧
          restored.mvCount = (normalize state thread).mvCount ∧
          (∀ i, 0 < i → i < vals.length →
            restored.mvValues i = (normalize state thread).mvValues i) ∧
          restored.mvSaveTop = earlier.mvSaveTop ∧ Kept earlier.mvSaveTop earlier restored) ∧
      ∀ v, (earlier.push v).mvList v = .list [v] ↔
        earlier.mvCount = 1 ∨ (earlier.mvCount = 0 ∧ v ≠ .nil) := by
  have described := normalize_describes produced
  have fits := produced_fits produced
  refine ⟨described.mvToList, ?_, ?_, mvList_stale_iff earlier⟩
  · intro idx stack index
    rw [index] at described
    exact described.nthValue
  · intro saved body after save completes
    obtain ⟨restored, run, back, top, kept⟩ := described.restored fits save completes
    obtain ⟨buf, depth⟩ := normalize_frame produced
    rw [depth] at top kept
    refine ⟨restored, run, back.primary, back.count.trans described.count.symm, ?_, top,
      (Kept.of_eq buf).trans kept⟩
    intro i later inside
    have here := List.getElem?_eq_getElem inside
    rw [back.slots (by omega) i _ here, described.slots (by omega) i _ here]

def twoValues : Thread where
  stack := []
  mvCount := 2
  mvValues i := .fixnum i
  mvSaveBuf _ := .nil
  mvSaveTop := 0

/-- `(values 1 2 3)` after these. -/
def threeValues : Thread :=
  twoValues.biValues [.fixnum 1, .fixnum 2, .fixnum 3]

/-- The cleanup is `(unwind-protect (values nil 5) ...)`, with a save and a restore of its own. -/
theorem values_preserved_nested : ∃ saved inner cleaned restored, threeValues.mvSave = .ok saved ∧
      (saved.biValues [.nil, .fixnum 5]).mvSave = .ok inner ∧ inner.mvRestore = .ok cleaned ∧
      cleaned.mvRestore = .ok restored ∧ restored.stack = .fixnum 1 :: cleaned.stack ∧
      restored.mvCount = 3 ∧ restored.mvValues 2 = .fixnum 3 := by
  have produced : Produced twoValues .many [.fixnum 1, .fixnum 2, .fixnum 3] threeValues :=
    .many (by decide) (biValues_describes twoValues (by decide)) rfl rfl
  have keeps := (values_preserved produced).2.2.1
  obtain ⟨saved, save⟩ : ∃ saved, threeValues.mvSave = .ok saved := ⟨_, rfl⟩
  obtain ⟨inner, nested⟩ : ∃ inner, (saved.biValues [.nil, .fixnum 5]).mvSave = .ok inner := by
    obtain rfl := Except.ok.inj save
    exact ⟨_, rfl⟩
  obtain ⟨cleaned, back⟩ : ∃ cleaned, inner.mvRestore = .ok cleaned := by
    obtain rfl := Except.ok.inj save
    obtain rfl := Except.ok.inj nested
    exact ⟨_, rfl⟩
  have form : Completes .other saved (saved.biValues [.nil, .fixnum 5]) := .other rfl rfl
  have completes : Completes (.protect .other .other) saved cleaned :=
    .protect form nested (.other rfl rfl) back
  obtain ⟨restored, run, stack, count, others, _⟩ := keeps saved _ cleaned save completes
  exact ⟨saved, inner, cleaned, restored, save, nested, back, run, stack, count,
    others 2 (by decide) (by decide)⟩

/-- Without the reset the list is that of the earlier form. -/
theorem stale_list : ¬ ∀ (earlier thread : Thread) (state : MvState) (vals : List Obj),
      Produced earlier state vals thread →
        ∃ after, thread.mvToList = .ok after ∧ after.stack = .list vals :: earlier.stack := by
  intro always
  obtain ⟨after, run, list⟩ := always twoValues _ .stale [.fixnum 7] (.stale (.fixnum 7))
  obtain rfl := Except.ok.inj run
  cases list

end ClAmiga.Vm
