import Mathlib.Data.Nat.SuccPred
import ClAmiga.Sequence.MapIntoSpec
import ClAmiga.Sequence.Substitute

/-!
# Characters in base strings

Every operation that stores characters reads back what it stored, but for the codes above 255
that it stores into a base string: these lose all but their low byte.
-/

namespace ClAmiga.Sequence

open Cells (Memory Linked)
open Stores (assign)

theorem Heap.arrElt_value (h : Heap) (id i : Nat) :
    h.arrElt id i = h.value (.slot (h.arrays id).storage (h.base id + i)) := rfl

variable {h h' : Heap}

theorem SameShape.arrElt (same : SameShape h h') (id i : Nat) :
    h'.arrElt id i = h'.value (.slot (h.arrays id).storage (h.base id + i)) := by
  rw [Heap.arrElt_value, same.arrays, same.base]

theorem kept_char {kind : Data.Kind} {code : Nat} :
    kind.kept (.char code) = .char code ↔ ¬(kind = .chars ∧ 255 < code) := by
  cases kind with
  | chars =>
      simp only [Data.Kind.kept, Obj.char.injEq, true_and, not_lt]
      omega
  | _ => simp [Data.Kind.kept]

/-- The stores into an array up to its end, when none of them stops. -/
structure Stored (h h' : Heap) (id start : Nat) (values : List Obj) : Prop where
  shape : SameShape h h'
  read : ∀ i v, values[i]? = some v → h'.arrElt id (start + i) = (h.kind id).kept v
  others : ∀ i, (i < start ∨ start + values.length ≤ i) → h'.arrElt id i = h.arrElt id i

theorem arrSeqSetBelow_stored {bound : Arr → Nat} {id i : Nat} {v : Obj}
    (ran : arrSeqSetBelow bound id i v h = .ok () h') :
    (h.kind id).accepts v = true ∧ h' = h.setSlot id i v := by
  by_cases accepted : (h.kind id).accepts v = true
  · by_cases below : i < bound (h.arrays id)
    · rw [arrSeqSetBelow_ok below accepted] at ran
      exact ⟨accepted, (EStateM.Result.ok.inj ran).2.symm⟩
    · simp only [arrSeqSetBelow, bind, EStateM.bind, get_run,
        accepted, if_true] at ran
      rw [if_pos (by omega)] at ran
      cases ran
  · rw [Bool.not_eq_true] at accepted
    rw [arrSeqSetBelow_error accepted] at ran
    cases ran

theorem storeArray_one {bound : Arr → Nat} {id : Nat} {i : Int} {v : Obj}
    (ran : arrSeqSetBelow bound id i v h = .ok () h') :
    storeArray bound id i [v] h = .ok () h' := by
  rw [storeArray, Action.bind_ok ran]
  rfl

theorem storeArray_inside {bound : Arr → Nat} {id : Nat} {i : Int} {values : List Obj}
    (ran : storeArray bound id i values h = .ok () h') (some : values ≠ []) :
    0 ≤ i ∧ i.toNat + values.length ≤ bound (h.arrays id) := by
  induction values generalizing h i with
  | nil => exact absurd rfl some
  | cons v rest induction =>
      by_cases accepted : (h.kind id).accepts v = true
      · by_cases inside : i < 0 ∨ (bound (h.arrays id) : Int) ≤ i
        · have stop : arrSeqSetBelow bound id i v h = .error .outside h := by
            simp only [arrSeqSetBelow, bind, EStateM.bind, get_run, accepted, if_true]
            rw [if_pos inside]
            rfl
          rw [storeArray, Action.bind_error stop] at ran
          cases ran
        · obtain ⟨start, rfl⟩ := Int.eq_ofNat_of_zero_le (show 0 ≤ i by omega)
          have below : start < bound (h.arrays id) := by omega
          rw [storeArray, Action.bind_ok (arrSeqSetBelow_ok below accepted)] at ran
          rcases eq_or_ne rest [] with rfl | more
          · rw [List.length_singleton]
            omega
          · obtain ⟨-, room⟩ := induction ran more
            rw [(h.setSlot_shape id start v).arrays] at room
            rw [List.length_cons]
            omega
      · rw [Bool.not_eq_true] at accepted
        rw [storeArray, Action.bind_error (arrSeqSetBelow_error accepted)] at ran
        cases ran

theorem storeArray_stored {bound : Arr → Nat} {id : Nat} {i : Int} {values : List Obj}
    (ran : storeArray bound id i values h = .ok () h') : Stored h h' id i.toNat values := by
  rcases eq_or_ne values [] with rfl | some
  · obtain ⟨-, rfl⟩ := EStateM.Result.ok.inj ran
    exact ⟨SameShape.refl h, by simp, fun _ _ => rfl⟩
  · obtain ⟨positive, room⟩ := storeArray_inside ran some
    have stores := storeArray_run room
    rw [Int.toNat_of_nonneg positive, ran] at stores
    cases stores with
    | all accepted shape stored =>
        have distinct : (h.slots id i.toNat values.length).Nodup := by
          refine (List.nodup_range' ..).map fun a b same => ?_
          have slots := (Place.slot.inj same).2
          omega
        have keys := Stores.nodup_zip distinct (values.map (h.kind id).kept)
        refine ⟨shape, fun k v here => ?_, fun k outside => ?_⟩
        · rw [shape.arrElt, stored]
          refine Stores.assign_of_mem keys (List.mem_iff_getElem?.mpr ⟨k, ?_⟩)
          have below := (List.getElem?_eq_some_iff.mp here).1
          rw [List.getElem?_zip_eq_some, Heap.slots, List.getElem?_map, List.getElem?_range' below,
            List.getElem?_map, here, Nat.one_mul]
          exact ⟨rfl, rfl⟩
        · rw [shape.arrElt, stored, Heap.arrElt_value]
          refine Stores.assign_of_not_mem fun member => ?_
          obtain ⟨⟨place, v⟩, member, same⟩ := List.mem_map.mp member
          obtain ⟨j, inside, rfl⟩ := List.mem_map.mp (List.of_mem_zip member).1
          obtain ⟨low, high⟩ := List.mem_range'_1.mp inside
          have slots := (Place.slot.inj same).2
          omega

/-- Each character that an operation stores is read back. -/
def ReadsBack (stored read : Nat → Option Obj) : Prop :=
  ∀ i code, stored i = some (.char code) → read i = some (.char code)

/-- A character above 255 is to be stored into a base string. -/
def Narrows (kind : Data.Kind) (stored : Nat → Option Obj) : Prop :=
  kind = .chars ∧ ∃ i code, 255 < code ∧ stored i = some (.char code)

theorem readsBack_iff {kind : Data.Kind} {stored read : Nat → Option Obj}
    (kept : ∀ i code, stored i = some (.char code) → read i = some (kind.kept (.char code))) :
    ReadsBack stored read ↔ ¬Narrows kind stored := by
  constructor
  · rintro whole ⟨base, i, code, high, here⟩
    have back := whole i code here
    rw [kept i code here] at back
    exact kept_char.mp (Option.some.inj back) ⟨base, high⟩
  · intro low i code here
    rw [kept i code here, kept_char.mpr fun narrow => low ⟨narrow.1, i, code, narrow.2, here⟩]

theorem setElt_eq {h : Heap} {id : Nat} {i : Int} {v : Obj}
    (accepted : (h.kind id).accepts v = true) :
    setElt id i v h = arrSeqSetBelow Arr.activeLength id i v h := by
  simp only [setElt, arrSeqSetBelow, bind, EStateM.bind, get_run, accepted, if_true]

theorem fillElts_eq {h : Heap} {id rounds : Nat} {i : Int} {v : Obj}
    (accepted : (h.kind id).accepts v = true) :
    fillElts id v rounds i h = storeArray Arr.activeLength id i (List.replicate rounds v) h := by
  induction rounds generalizing h i with
  | zero => rfl
  | succ rounds induction =>
      rw [fillElts, List.replicate_succ, storeArray]
      simp only [bind, EStateM.bind, setElt_eq accepted]
      cases ran : arrSeqSetBelow Arr.activeLength id i v h with
      | error e h' => rfl
      | ok value h' =>
          have shape := (storeArray_stored (storeArray_one ran)).shape
          exact induction (by rw [shape.kind, accepted])

theorem fillCheck_ok {kind : Data.Kind} {item : Obj} (checked : fillCheck kind item = .ok ()) :
    kind.accepts item = true := by
  unfold fillCheck at checked
  split at checked
  · assumption
  · cases kind with
    | objects => rfl
    | _ => cases checked

/-- What FILL is to store, by the indices. -/
def fillStored (h : Heap) (id : Nat) (item : Obj) (start ending : Int) :
    Nat → Option Obj := fun i =>
  if start ≤ i ∧ (i : Int) < min ending (h.arrays id).activeLength then some item else none

/-- A filled element reads as what its array keeps of the item. -/
theorem fillSeq_kept {id : Nat} {item : Obj} {start ending : Int}
    (ran : fillSeq (.array id) item start ending h = .ok () h') {i code : Nat}
    (here : fillStored h id item start ending i = some (.char code)) :
    h'.arrElt id i = (h.kind id).kept (.char code) := by
  rw [fillSeq] at ran
  split at ran
  · cases ran
  · have accepted : (h.kind id).accepts item = true := by
      cases checked : fillCheck (h.kind id) item with
      | ok _ => exact fillCheck_ok checked
      | error stop =>
          simp only [bind, EStateM.bind, get_run, checked] at ran
          cases ran
    have checked : fillCheck (h.kind id) item = .ok () := if_pos accepted
    simp only [bind, EStateM.bind, get_run, checked] at ran
    change fillElts id item (min ending (h.arrays id).activeLength - start).toNat start h = _ at ran
    rw [fillElts_eq accepted] at ran
    have stored := storeArray_stored ran
    rw [fillStored] at here
    split at here
    · rename_i inside
      obtain rfl := Option.some.inj here
      rcases eq_or_ne (min ending (h.arrays id).activeLength - start).toNat 0 with none | some
      · omega
      · obtain ⟨positive, -⟩ := storeArray_inside ran (by
          rw [Ne, List.replicate_eq_nil_iff]
          exact some)
        have read := stored.read (i - start.toNat) (.char code) (by
          rw [List.getElem?_replicate, if_pos (by omega)])
        rwa [show start.toNat + (i - start.toNat) = i by omega] at read
    · cases here

theorem setfEltCheck_ok {kind : Data.Kind} {val : Obj} (checked : setfEltCheck kind val = .ok ()) :
    kind.accepts val = true := by
  unfold setfEltCheck at checked
  split at checked
  · assumption
  · cases kind with
    | objects => rfl
    | _ => cases checked

/-- A set element reads as what its array keeps of the value. -/
theorem setfEltCall_kept {id : Nat} {idx : Int} {val v : Obj}
    (ran : setfEltCall (.array id) (.fixnum idx) val h = .ok v h') :
    h'.arrElt id idx.toNat = (h.kind id).kept val := by
  rw [setfEltCall] at ran
  split at ran
  · cases ran
  · simp only [bind, EStateM.bind, get_run] at ran
    split at ran
    · cases ran
    · cases checked : setfEltCheck (h.kind id) val with
      | error stop =>
          rw [checked] at ran
          cases ran
      | ok _ =>
          rw [checked] at ran
          have accepted := setfEltCheck_ok checked
          replace ran : (setElt id idx val >>= fun _ => pure val : Action Obj) h = .ok v h' := ran
          cases done : arrSeqSetBelow Arr.activeLength id idx val h with
          | error e s =>
              rw [Action.bind_error (setElt_eq accepted |>.trans done)] at ran
              cases ran
          | ok _ s =>
              rw [Action.bind_ok (setElt_eq accepted |>.trans done)] at ran
              obtain ⟨-, rfl⟩ := EStateM.Result.ok.inj ran
              exact (storeArray_stored (storeArray_one done)).read 0 val rfl

/-- What REPLACE is to store, from the start of the region on. -/
def replaceStored (h : Heap) (b : Bounds) (seq2 : Ref) : Nat → Option Obj :=
  match snapshot seq2 b.start2 b.count.toNat h with
  | .ok values _ => fun i => values[i]?
  | .error _ _ => fun _ => none

theorem Heap.places_of_length {h : Heap} {fuel len : Nat} {seq : Ref}
    (length : h.seqLength fuel seq = some len) :
    ∃ places, seq.Places h places ∧ places.length = len := by
  cases seq with
  | array id =>
      refine ⟨_, rfl, ?_⟩
      rw [List.length_map, List.length_range]
      exact Option.some.inj length
  | list head =>
      have linked : ∃ cells, Linked h.memory head cells ∧ cells.length = len := by
        change listLength h.memory fuel head = some len at length
        induction fuel generalizing head len with
        | zero =>
            cases head with
            | none => exact ⟨[], rfl, Option.some.inj length⟩
            | some cell => cases length
        | succ fuel induction =>
            cases head with
            | none => exact ⟨[], rfl, Option.some.inj length⟩
            | some cell =>
                obtain ⟨rest, onto, rfl⟩ := Option.map_eq_some_iff.mp length
                obtain ⟨cells, linked, rfl⟩ := induction _ onto
                exact ⟨cell :: cells, ⟨rfl, linked⟩, rfl⟩
      obtain ⟨cells, linked, same⟩ := linked
      exact ⟨cells.map Place.cell, ⟨cells, linked, rfl⟩, by rw [List.length_map, same]⟩

theorem snapshot_heap {seq : Ref} {start : Int} {count : Nat} {values : List Obj}
    (ran : snapshot seq start count h = .ok values h') : h' = h := by
  induction count generalizing start values h' with
  | zero => exact (EStateM.Result.ok.inj ran).2.symm
  | succ count induction =>
      have quiet : seqEltOf seq start h = .ok (match seqEltOf seq start h with
          | .ok v _ => v
          | .error _ _ => .nil) h ∨ ∃ e, seqEltOf seq start h = .error e h := by
        simp only [seqEltOf, bind, EStateM.bind, get_run]
        cases seq with
        | list head => exact .inl rfl
        | array id =>
            dsimp only
            split
            · exact .inr ⟨_, rfl⟩
            · exact .inl rfl
      rw [snapshot] at ran
      rcases quiet with read | ⟨e, stop⟩
      · rw [Action.bind_ok read] at ran
        cases rest : snapshot seq (start + 1) count h with
        | ok more s =>
            rw [Action.bind_ok rest] at ran
            obtain ⟨-, rfl⟩ := EStateM.Result.ok.inj ran
            exact induction rest
        | error e s =>
            rw [Action.bind_error rest] at ran
            cases ran
      · rw [Action.bind_error stop] at ran
        cases ran

/-- A replaced element reads as what its array keeps of the source's. -/
theorem replaceSeq_kept {fuel len2 id : Nat} {b : Bounds} {seq2 : Ref}
    (length : h.seqLength fuel seq2 = some len2)
    (ran : replaceSeq (h.arrays id).activeLength len2 b (.array id) seq2 h = .ok () h')
    {i code : Nat}
    (here : replaceStored h b seq2 i = some (.char code)) :
    h'.arrElt id (b.start1.toNat + i) = (h.kind id).kept (.char code) := by
  obtain ⟨places2, holds2, rfl⟩ := h.places_of_length length
  have holds1 : (Ref.array id).Places h _ := rfl
  have same := replaceSeq_eq b holds1 holds2
  rw [List.length_map, List.length_range, ran] at same
  rw [replaceByElements] at same
  rw [replaceStored] at here
  cases read : snapshot seq2 b.start2 b.count.toNat h with
  | error e s =>
      rw [read] at here
      cases here
  | ok values s =>
      rw [read] at here
      obtain rfl := snapshot_heap read
      rw [Action.bind_ok read] at same
      exact (storeArray_stored same.symm).read i _ here

def Heap.elements (h : Heap) (id : Nat) : List Obj :=
  (List.range (h.arrays id).activeLength).map (h.arrElt id)

/-- A call of one of the functions on an array. -/
structure SubstInput where
  h : Heap
  id : Nat
  call : Funcall
  mode : SubstMode
  destructive : Bool
  newitem : Obj
  olditem : Obj
  sa : SeqArgs

namespace SubstInput

variable (input : SubstInput)

def len : Nat :=
  (input.h.arrays input.id).activeLength

def tmp : Except Stop (Nat → Obj) :=
  substTmp (substMatch input.call input.mode input.sa input.olditem) input.newitem input.sa
    input.len fun i => (input.h.elements input.id).getD i .nil

def stored : Nat → Option Obj := fun i =>
  match input.tmp with
  | .ok tmp => if i < input.len then some (tmp i) else none
  | .error _ => none

def destination : Data.Kind :=
  if input.destructive then input.h.kind input.id else (input.h.copyArraySeq input.id).kind

def run (fuel : Nat) : EStateM.Result Stop Heap SubstResult :=
  substSeq input.call fuel input.mode input.destructive input.newitem input.olditem
    (.array input.id) input.sa input.h

end SubstInput

def SubstResult.elt (h : Heap) : SubstResult → Nat → Option Obj
  | .given (.array id), i => some (h.arrElt id i)
  | .given (.list _), _ => none
  | .elements xs, i => xs[i]?
  | .array len data, i => if i < len then some (data.elt h.bigEndian i) else none

theorem snapshotArray_run {h : Heap} {id rounds i : Nat}
    (room : i + rounds ≤ (h.arrays id).activeLength) :
    snapshotArray id rounds i h = .ok ((List.range' i rounds).map (h.arrElt id)) h := by
  induction rounds generalizing i with
  | zero => rfl
  | succ rounds induction =>
      have read : arrSeqGet id i h = .ok (h.arrElt id i) h := by
        simp only [arrSeqGet, bind, EStateM.bind, get_run]
        rw [if_neg (by omega), Int.toNat_natCast]
        rfl
      rw [snapshotArray, Action.bind_ok read, Action.bind_ok (@induction (i + 1) (by omega)),
        List.range'_succ]
      rfl

theorem substLoop_others {isMatch : Nat → Obj → Except Stop Bool} {newitem : Obj}
    {count step i replaced : Int} {len rounds round : Nat} {tmp tmp' : Nat → Obj} {j : Nat}
    (ran : substLoop isMatch newitem count step len rounds i round replaced tmp = .ok tmp')
    (unvisited : ∀ r : Nat, r < rounds → i + step * r ≠ j) : tmp' j = tmp j := by
  induction rounds generalizing i round replaced tmp with
  | zero =>
      obtain rfl := Except.ok.inj ran
      rfl
  | succ rounds induction =>
      have later (r : Nat) (below : r < rounds) : i + step + step * r ≠ j := by
        have next := unvisited (r + 1) (by omega)
        rw [Nat.cast_succ, mul_add, mul_one] at next
        omega
      have here := unvisited 0 (by omega)
      rw [substLoop] at ran
      split at ran
      · obtain rfl := Except.ok.inj ran
        rfl
      · split at ran
        · cases ran
        · cases answer : isMatch round (tmp i.toNat) with
          | error stop =>
              rw [answer] at ran
              cases ran
          | ok found =>
              rw [answer] at ran
              cases found with
              | true =>
                  rw [induction ran later, Function.update_of_ne (by omega)]
              | false => exact induction ran later

theorem substTmp_others {isMatch : Nat → Obj → Except Stop Bool} {newitem : Obj} {sa : SeqArgs}
    {len j : Nat} {tmp tmp' : Nat → Obj} (ran : substTmp isMatch newitem sa len tmp = .ok tmp')
    (outside : (j : Int) < substStart sa ∨ substEnd len sa ≤ j) : tmp' j = tmp j := by
  rw [substTmp] at ran
  split at ran
  · exact substLoop_others ran fun r below => by omega
  · exact substLoop_others ran fun r below => by omega

/-- Copying to a fresh array keeps of each element what the array can hold. -/
theorem storeFresh_kept {bigEndian : Bool} {len rounds i : Nat} {tmp : Nat → Obj}
    {data data' : Data}
    (ran : storeFresh bigEndian len tmp rounds i data = .ok data') :
    data'.kind = data.kind ∧
      (∀ j, i ≤ j → j < i + rounds → data'.elt bigEndian j = data.kind.kept (tmp j)) ∧
      ∀ j, (j < i ∨ i + rounds ≤ j) → data'.elt bigEndian j = data.elt bigEndian j := by
  induction rounds generalizing i data with
  | zero =>
      obtain rfl := Except.ok.inj ran
      exact ⟨rfl, fun j low high => by omega, fun _ _ => rfl⟩
  | succ rounds induction =>
      rw [storeFresh, Int.toNat_natCast] at ran
      split at ran
      · rename_i accepted
        split at ran
        · cases ran
        · obtain ⟨kind, read, others⟩ := @induction (i + 1) _ ran
          rw [Data.kind_set] at kind read
          refine ⟨kind, fun j low high => ?_, fun j outside => ?_⟩
          · rcases Nat.lt_or_eq_of_le low with later | rfl
            · exact read j later (by omega)
            · rw [others i (by omega), Data.elt_set_self accepted]
          · rw [others j (by omega), Data.elt_set_of_ne _ (by omega)]
      · cases ran

theorem Data.kept_elt (bigEndian : Bool) (data : Data) (i : Nat) :
    data.kind.kept (data.elt bigEndian i) = data.elt bigEndian i := by
  cases data with
  | chars chars =>
      have below := (chars i).isLt
      rw [Data.elt, Data.kind, Data.Kind.kept, Nat.mod_eq_of_lt below]
  | _ => rfl

theorem copyArraySeq_elt {h : Heap} {id i code : Nat} (below : i < (h.arrays id).activeLength)
    (here : h.arrElt id i = .char code) :
    (h.copyArraySeq id).elt h.bigEndian i = (h.copyArraySeq id).kind.kept (.char code) ∧
      (h.copyArraySeq id).kind.kept (.char code) = .char code := by
  rw [Heap.copyArraySeq]
  by_cases string : h.isStringLike id = true
  · rw [if_pos string]
    by_cases wide : h.needsWide id = true
    · rw [if_pos wide]
      exact ⟨by rw [Data.elt, here]; rfl, rfl⟩
    · have low : code ≤ 255 := by
        by_contra high
        refine wide ?_
        rw [Heap.needsWide, Bool.or_eq_true]
        refine .inr (List.any_eq_true.mpr ⟨i, List.mem_range.mpr below, ?_⟩)
        rw [here, decide_eq_true_eq, charVal]
        omega
      rw [if_neg wide]
      refine ⟨?_, by rw [Data.kind, Data.Kind.kept, Nat.mod_eq_of_lt (by omega)]⟩
      rw [Data.elt, here, Data.kind, Data.Kind.kept, charVal, BitVec.toNat_ofNat]
  · rw [if_neg string]
    rw [Heap.arrElt, Heap.base] at here
    unfold Heap.kind at here
    unfold Heap.isStringLike Heap.kind at string
    rw [Heap.base]
    unfold Heap.kind
    cases data : h.data id with
    | objects objects =>
        rw [data] at here
        exact ⟨here, rfl⟩
    | chars chars => exact absurd (by rw [data]; rfl) string
    | codes codes => exact absurd (by rw [data]; rfl) string
    | bits bits =>
        rw [data] at here
        cases here
    | bytes isSigned wide bytes =>
        rw [data] at here
        cases here

/-- An element of the result reads as what the destination keeps of it. -/
theorem substSeq_kept {input : SubstInput} {fuel : Nat} {result : SubstResult} {h' : Heap}
    (ran : input.run fuel = .ok result h') {i code : Nat}
    (here : input.stored i = some (.char code)) :
    result.elt h' i = some (input.destination.kept (.char code)) := by
  obtain ⟨h, id, call, mode, destructive, newitem, olditem, sa⟩ := input
  simp only [SubstInput.stored] at here
  cases scanned : SubstInput.tmp ⟨h, id, call, mode, destructive, newitem, olditem, sa⟩ with
  | error stop =>
      rw [scanned] at here
      cases here
  | ok tmp =>
      rw [scanned] at here
      dsimp only at here
      split at here
      · rename_i below
        replace here : tmp i = .char code := Option.some.inj here
        change i < (h.arrays id).activeLength at below
        have length : seqLength fuel (.array id) h = .ok (h.arrays id).activeLength h := rfl
        have elems : snapshotArray id (h.arrays id).activeLength 0 h = .ok (h.elements id) h := by
          rw [snapshotArray_run (by omega), ← List.range_eq_range']
          rfl
        have unchanged (outside : (i : Int) < substStart sa ∨
            substEnd (h.arrays id).activeLength sa ≤ i) : h.arrElt id i = .char code := by
          have same := substTmp_others scanned outside
          rw [← here, same]
          simp [Heap.elements, below]
        simp only [SubstInput.run, substSeq] at ran
        rw [Action.bind_ok length, Action.bind_ok elems] at ran
        simp only [SubstInput.tmp, SubstInput.len] at scanned
        rw [scanned] at ran
        change substResult destructive (.array id) sa (h.arrays id).activeLength tmp h =
          .ok result h' at ran
        have positive : 0 ≤ substStart sa := by
          unfold substStart
          split <;> omega
        cases destructive with
        | true =>
            change (storeArray Arr.activeLength id (substStart sa)
              ((List.range' (substStart sa).toNat
              (substEnd (h.arrays id).activeLength sa - substStart sa).toNat).map tmp) >>=
              fun _ => pure (SubstResult.given (.array id)) : Action SubstResult) h = _ at ran
            cases done : storeArray Arr.activeLength id (substStart sa)
                ((List.range' (substStart sa).toNat
                  (substEnd (h.arrays id).activeLength sa - substStart sa).toNat).map tmp) h with
            | error stop s =>
                rw [Action.bind_error done] at ran
                cases ran
            | ok _ s =>
                rw [Action.bind_ok done] at ran
                obtain ⟨rfl, rfl⟩ := EStateM.Result.ok.inj ran
                have stored := storeArray_stored done
                change some (s.arrElt id i) = some ((h.kind id).kept (.char code))
                congr 1
                by_cases outside : (i : Int) < substStart sa ∨
                    substEnd (h.arrays id).activeLength sa ≤ i
                · rw [stored.others i (by rw [List.length_map, List.length_range']; omega),
                    ← unchanged outside, Heap.arrElt]
                  exact (Data.kept_elt ..).symm
                · have read := stored.read (i - (substStart sa).toNat) (.char code) (by
                    rw [List.getElem?_map, List.getElem?_range' (by omega), Option.map_some, ← here]
                    congr 2
                    omega)
                  rwa [Nat.add_sub_cancel' (by omega)] at read
        | false =>
            cases done : storeFresh h.bigEndian (h.arrays id).activeLength tmp
                (substEnd (h.arrays id).activeLength sa - substStart sa).toNat (substStart sa)
                (h.copyArraySeq id) with
            | error stop =>
                simp only [substResult, bind, EStateM.bind, get_run, done] at ran
                cases ran
            | ok data =>
                simp only [substResult, bind, EStateM.bind, get_run, done] at ran
                obtain ⟨rfl, rfl⟩ := EStateM.Result.ok.inj ran
                rw [← Int.toNat_of_nonneg positive] at done
                obtain ⟨-, read, others⟩ := storeFresh_kept done
                change (if i < (h.arrays id).activeLength then
                  some (data.elt h.bigEndian i) else none) =
                  some ((h.copyArraySeq id).kind.kept (.char code))
                rw [if_pos below]
                congr 1
                by_cases outside : (i : Int) < substStart sa ∨
                    substEnd (h.arrays id).activeLength sa ≤ i
                · rw [others i (by omega)]
                  exact (copyArraySeq_elt below (unchanged outside)).1
                · rw [read i (by omega) (by omega), here]
      · cases here

end ClAmiga.Sequence
