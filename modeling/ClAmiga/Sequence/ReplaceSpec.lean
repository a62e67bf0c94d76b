import Mathlib.Data.List.TakeWhile
import ClAmiga.Sequence.MatchSpec
import ClAmiga.Sequence.Places

/-!
# REPLACE copies a region

The snapshot holds the elements of the source before the call, so the stores one after the other
leave them in the destination, but for the codes that a base string does not hold.  The moves of
whole regions come to the same heaps.
-/

namespace ClAmiga.Sequence

open Cells (Memory Linked)
open Stores (assign)

/-- The stores of values at places, up to the first value that is not accepted. -/
inductive StoresAs {α : Type} (returned : α) (accepts : Obj → Bool) (kept : Obj → Obj)
    (typeError : Obj → Stop) (h : Heap) (places : List Place) (values : List Obj) :
    EStateM.Result Stop Heap α → Prop
  | all {h' : Heap} (accepted : ∀ v ∈ values, accepts v = true) (shape : SameShape h h')
      (stored : h'.value = assign h.value (places.zip (values.map kept))) :
      StoresAs returned accepts kept typeError h places values (.ok returned h')
  | upTo {h' : Heap} (before after : List Obj) {v : Obj} (split : values = before ++ v :: after)
      (accepted : ∀ v ∈ before, accepts v = true) (rejected : accepts v = false)
      (shape : SameShape h h')
      (stored : h'.value = assign h.value (places.zip (before.map kept))) :
      StoresAs returned accepts kept typeError h places values (.error (typeError v) h')

section StoresAs

variable {α : Type} {returned : α} {accepts : Obj → Bool} {kept : Obj → Obj}
  {typeError : Obj → Stop} {h h' : Heap} {place : Place} {places : List Place} {v : Obj}
  {values : List Obj} {result : EStateM.Result Stop Heap α}

theorem StoresAs.nil : StoresAs returned accepts kept typeError h places [] (.ok returned h) :=
  .all (by simp) (SameShape.refl h) (by rw [List.map_nil, List.zip_nil_right]; rfl)

theorem StoresAs.cons (accepted : accepts v = true) (shape : SameShape h h')
    (stored : h'.value = Function.update h.value place (kept v))
    (rest : StoresAs returned accepts kept typeError h' places values result) :
    StoresAs returned accepts kept typeError h (place :: places) (v :: values) result := by
  cases rest with
  | all accepted' shape' stored' =>
      refine .all ?_ (shape.trans shape') ?_
      · exact List.forall_mem_cons.mpr ⟨accepted, accepted'⟩
      · rw [stored', stored]
        rfl
  | upTo before after split accepted' rejected shape' stored' =>
      refine .upTo (v :: before) after ?_ ?_ rejected (shape.trans shape') ?_
      · rw [split]
        rfl
      · exact List.forall_mem_cons.mpr ⟨accepted, accepted'⟩
      · rw [stored', stored]
        rfl

theorem StoresAs.stop (rejected : accepts v = false) :
    StoresAs returned accepts kept typeError h places (v :: values) (.error (typeError v) h) :=
  .upTo [] values rfl (by simp) rejected (SameShape.refl h)
    (by rw [List.map_nil, List.zip_nil_right]; rfl)

theorem StoresAs.bind_pure {β : Type} {action : Action α} (last : β)
    (stores : StoresAs returned accepts kept typeError h places values (action h)) :
    StoresAs last accepts kept typeError h places values
      ((action >>= fun _ => pure last : Action β) h) := by
  simp only [bind, EStateM.bind]
  cases ran : action h with
  | ok value h' =>
      rw [ran] at stores
      cases stores with
      | all accepted shape stored => exact .all accepted shape stored
  | error e h' =>
      rw [ran] at stores
      cases stores with
      | upTo before after split accepted rejected shape stored =>
          exact .upTo before after split accepted rejected shape stored

end StoresAs

def Heap.slots (h : Heap) (id start count : Nat) : List Place :=
  (List.range' start count).map fun i => .slot (h.arrays id).storage (h.base id + i)

def Data.Kind.typeError (kind : Data.Kind) (v : Obj) : Stop :=
  .typeError v kind.expected.1 kind.expected.2

theorem arrSeqSetBelow_ok {bound : Arr → Nat} {h : Heap} {id i : Nat} {v : Obj}
    (below : i < bound (h.arrays id)) (accepted : (h.kind id).accepts v = true) :
    arrSeqSetBelow bound id (i : Int) v h = .ok () (h.setSlot id i v) := by
  simp only [arrSeqSetBelow, bind, EStateM.bind, get_run, accepted, if_true]
  rw [if_neg (by omega), Int.toNat_natCast]
  rfl

theorem arrSeqSetBelow_error {bound : Arr → Nat} {h : Heap} {id : Nat} {i : Int} {v : Obj}
    (rejected : (h.kind id).accepts v = false) :
    arrSeqSetBelow bound id i v h = .error ((h.kind id).typeError v) h := by
  simp only [arrSeqSetBelow, bind, EStateM.bind, get_run, rejected, Bool.false_eq_true, if_false]
  rfl

theorem storeArray_run {bound : Arr → Nat} {h : Heap} {id start : Nat} {values : List Obj}
    (room : start + values.length ≤ bound (h.arrays id)) :
    StoresAs () (h.kind id).accepts (h.kind id).kept (h.kind id).typeError h
      (h.slots id start values.length) values (storeArray bound id start values h) := by
  induction values generalizing h start with
  | nil => exact .nil
  | cons v values induction =>
      rw [List.length_cons] at room
      by_cases accepted : (h.kind id).accepts v = true
      · have shape := h.setSlot_shape id start v
        have later := @induction (h.setSlot id start v) (start + 1) (by rw [shape.arrays]; omega)
        rw [Heap.slots, shape.kind, shape.base, shape.arrays] at later
        have ran : storeArray bound id start (v :: values) h =
            storeArray bound id ((start + 1 : Nat) : Int) values (h.setSlot id start v) := by
          have below : start < bound (h.arrays id) := by omega
          simp only [storeArray, bind, EStateM.bind, arrSeqSetBelow_ok below accepted]
          rfl
        rw [ran]
        exact .cons accepted shape (h.setSlot_value start accepted) later
      · rw [Bool.not_eq_true] at accepted
        have ran : storeArray bound id start (v :: values) h =
            .error ((h.kind id).typeError v) h := by
          simp only [storeArray, bind, EStateM.bind, arrSeqSetBelow_error accepted]
        rw [ran]
        exact .stop accepted

theorem storeCells_run {typeError : Obj → Stop} {h : Heap} {link : Option Nat} {cells : List Nat}
    {values : List Obj} (linked : Linked h.memory link cells)
    (room : values.length ≤ cells.length) :
    StoresAs () (fun _ => true) id typeError h ((cells.take values.length).map Place.cell) values
      (storeCells link values h) := by
  induction values generalizing h link cells with
  | nil =>
      cases link <;> exact .nil
  | cons v values induction =>
      match cells with
      | cell :: cells =>
          obtain ⟨rfl, onto⟩ := linked
          have shape := h.setCar_shape cell v
          have later := @induction (h.setCar cell v) (h.memory.cdr cell) cells
            (shape.linked.mpr onto) (Nat.le_of_succ_le_succ room)
          exact .cons rfl shape (h.setCar_value cell v) later

theorem Ref.Places.elt {h : Heap} {seq : Ref} {places : List Place} (holds : seq.Places h places)
    {i : Nat} {place : Place} (here : places[i]? = some place) :
    seqEltOf seq (i : Int) h = .ok (h.value place) h := by
  cases seq with
  | list head =>
      obtain ⟨cells, linked, rfl⟩ := holds
      have car : (cells.map h.memory.car)[i]? = some (h.value place) := by
        rw [List.getElem?_map] at here ⊢
        obtain ⟨cell, found, rfl⟩ := Option.map_eq_some_iff.mp here
        rw [found]
        rfl
      have found := listElt_linked linked car
      simp only [seqEltOf, bind, EStateM.bind, get_run, Int.toNat_natCast, found]
      rfl
  | array id =>
      obtain rfl := holds
      rw [List.getElem?_map] at here
      obtain ⟨j, found, rfl⟩ := Option.map_eq_some_iff.mp here
      obtain ⟨below, rfl⟩ := List.getElem?_eq_some_iff.mp found
      rw [List.length_range] at below
      simp only [seqEltOf, bind, EStateM.bind, get_run]
      rw [if_neg (by omega), Int.toNat_natCast, List.getElem_range]
      rfl

theorem snapshot_run {h : Heap} {seq : Ref} {places : List Place} (holds : seq.Places h places)
    {start count : Nat} (room : start + count ≤ places.length) :
    snapshot seq start count h = .ok (((places.drop start).take count).map h.value) h := by
  induction count generalizing start with
  | zero => rfl
  | succ count induction =>
      have inside : start < places.length := by omega
      have here : places[start]? = some places[start] := List.getElem?_eq_getElem inside
      have later := @induction (start + 1) (by omega)
      rw [Nat.cast_succ] at later
      simp only [snapshot, bind, EStateM.bind, holds.elt here, later]
      rw [List.drop_eq_getElem_cons inside]
      rfl

def Heap.accepts (h : Heap) : Ref → Obj → Bool
  | .list _, _ => true
  | .array id, v => (h.kind id).accepts v

def Heap.kept (h : Heap) : Ref → Obj → Obj
  | .list _, v => v
  | .array id, v => (h.kind id).kept v

def Heap.typeError (h : Heap) : Ref → Obj → Stop
  | .list _, v => .typeError v "T" ""
  | .array id, v => (h.kind id).typeError v

structure Bounds.Valid (len1 len2 : Nat) (b : Bounds) : Prop where
  start1 : 0 ≤ b.start1
  ordered1 : b.start1 ≤ b.ending1
  ending1 : b.ending1 ≤ len1
  start2 : 0 ≤ b.start2
  ordered2 : b.start2 ≤ b.ending2
  ending2 : b.ending2 ≤ len2

theorem Bounds.Valid.room {len1 len2 : Nat} {b : Bounds} (valid : b.Valid len1 len2) :
    b.start1.toNat + b.count.toNat ≤ len1 ∧ b.start2.toNat + b.count.toNat ≤ len2 := by
  obtain ⟨start1, ordered1, ending1, start2, ordered2, ending2⟩ := valid
  unfold Bounds.count
  split <;> omega

def region {α : Type} (xs : List α) (start : Int) (count : Int) : List α :=
  (xs.drop start.toNat).take count.toNat

theorem length_region {α : Type} {xs : List α} {start count : Int}
    (room : start.toNat + count.toNat ≤ xs.length) :
    (region xs start count).length = count.toNat := by
  rw [region, List.length_take, List.length_drop]
  omega

theorem Heap.slots_eq {h : Heap} {id : Nat} {places : List Place} {start count : Int}
    (holds : (Ref.array id).Places h places) (room : start.toNat + count.toNat ≤ places.length) :
    h.slots id start.toNat count.toNat = region places start count := by
  obtain rfl := holds
  rw [List.length_map, List.length_range] at room
  rw [region, ← List.map_drop, ← List.map_take, List.range_eq_range', List.drop_range',
    List.take_range'_of_length_ge (by omega)]
  simp only [Heap.slots, Nat.mul_one, Nat.zero_add]

theorem nthCell_linked {h : Heap} {link : Option Nat} {cells : List Nat} {i : Nat}
    (linked : Linked h.memory link cells) (inside : i ≤ cells.length) :
    Linked h.memory (nthCell h i link) (cells.drop i) := by
  induction i generalizing link cells with
  | zero => cases link <;> exact linked
  | succ i induction =>
      match cells with
      | cell :: cells =>
          obtain ⟨rfl, onto⟩ := linked
          exact induction onto (Nat.le_of_succ_le_succ inside)

section Runs

variable {h : Heap} {seq1 seq2 : Ref} {places1 places2 : List Place} {b : Bounds}

theorem replaceByElements_run (holds1 : seq1.Places h places1) (holds2 : seq2.Places h places2)
    (valid : b.Valid places1.length places2.length) :
    StoresAs () (h.accepts seq1) (h.kept seq1) (h.typeError seq1) h
      (region places1 b.start1 b.count) ((region places2 b.start2 b.count).map h.value)
      (replaceByElements b seq1 seq2 h) := by
  obtain ⟨room1, room2⟩ := valid.room
  have read := snapshot_run holds2 room2
  rw [Int.toNat_of_nonneg valid.start2] at read
  change snapshot seq2 b.start2 b.count.toNat h =
    .ok ((region places2 b.start2 b.count).map h.value) h at read
  have size : ((region places2 b.start2 b.count).map h.value).length = b.count.toNat := by
    rw [List.length_map, length_region room2]
  generalize (region places2 b.start2 b.count).map h.value = values at read size
  simp only [replaceByElements, bind, EStateM.bind, read]
  cases seq1 with
  | array id =>
      have room : b.start1.toNat + values.length ≤ (h.arrays id).activeLength := by
        obtain rfl := holds1
        rw [List.length_map, List.length_range] at room1
        omega
      have ran := storeArray_run room
      rw [size, Heap.slots_eq holds1 room1, Int.toNat_of_nonneg valid.start1] at ran
      exact ran
  | list head =>
      obtain ⟨cells, linked, rfl⟩ := holds1
      rw [List.length_map] at room1
      have places : region (cells.map Place.cell) b.start1 b.count =
          ((cells.drop b.start1.toNat).take values.length).map Place.cell := by
        rw [region, size, List.map_take, List.map_drop]
      rw [places]
      cases head with
      | none =>
          obtain rfl : cells = [] := by
            cases cells with
            | nil => rfl
            | cons cell cells => cases linked.1
          obtain rfl : values = [] := List.eq_nil_of_length_eq_zero (by
            rw [List.length_nil] at room1
            omega)
          exact .nil
      | some first =>
          exact storeCells_run (nthCell_linked linked (by omega)) (by
            rw [List.length_drop]
            omega)

end Runs

theorem memmove_step (dst src : Nat → BitVec 8) (i j n : Nat) :
    memmove (Function.update dst i (src j)) src (i + 1) (j + 1) n = memmove dst src i j
      (n + 1) := by
  funext p
  unfold memmove
  by_cases first : p = i
  · subst first
    rw [if_neg (by omega), if_pos (by omega), Function.update_self, Nat.sub_self, Nat.add_zero]
  · rw [Function.update_of_ne first]
    by_cases inside : i ≤ p ∧ p < i + (n + 1)
    · rw [if_pos (by omega), if_pos inside]
      congr 1
      omega
    · rw [if_neg (by omega), if_neg inside]

theorem bytevecSet_get (bigEndian isSigned wide : Bool) (dst src : Nat → BitVec 8) (i j : Nat) :
    bytevecSet bigEndian wide dst i (bytevecGet bigEndian isSigned wide src j) =
      if wide then
        Function.update (Function.update dst (2 * i) (src (2 * j))) (2 * i + 1) (src (2 * j + 1))
      else Function.update dst i (src j) := by
  cases wide with
  | false => cases isSigned <;> simp [bytevecSet, bytevecGet]
  | true =>
      have same : BitVec.ofInt 16 (bytevecGet bigEndian isSigned true src j) =
          loadU16 bigEndian (src (2 * j)) (src (2 * j + 1)) := by
        cases isSigned <;> simp [bytevecGet]
      simp only [bytevecSet, if_true, same, storeU16_loadU16]

theorem moved_zero {dst src data : Data} {i j : Nat} (same : moved dst src i j 0 = some data) :
    data = dst := by
  have none (d1 d2 : Nat → BitVec 8) (i j : Nat) : memmove d1 d2 i j 0 = d1 := by
    funext p
    exact if_neg (by omega)
  cases dst with
  | chars d1 =>
      cases src with
      | chars d2 =>
          obtain rfl := Option.some.inj same
          rw [none]
      | _ => cases same
  | bytes isSigned1 wide1 d1 =>
      cases src with
      | bytes isSigned2 wide2 d2 =>
          rw [moved] at same
          split at same
          · obtain rfl := Option.some.inj same
            rw [Nat.zero_shiftLeft, none]
          · cases same
      | _ => cases same
  | _ => cases same

theorem moved_step {bigEndian : Bool} {dst src data : Data} {i j n : Nat}
    (same : moved dst src i j (n + 1) = some data) :
    dst.kind.accepts (src.elt bigEndian j) = true ∧
      moved (dst.set bigEndian i (src.elt bigEndian j)) src (i + 1) (j + 1) n = some data := by
  cases dst with
  | chars d1 =>
      cases src with
      | chars d2 =>
          refine ⟨rfl, ?_⟩
          rw [← same, moved, ← memmove_step]
          simp [Data.set, Data.elt, charVal, moved]
      | _ => cases same
  | bytes isSigned1 wide1 d1 =>
      cases src with
      | bytes isSigned2 wide2 d2 =>
          rw [moved] at same
          split at same
          · rename_i alike
            obtain ⟨rfl, rfl⟩ := alike
            refine ⟨?_, ?_⟩
            · have range := bytevecGet_range bigEndian isSigned1 wide1 d2 j
              simpa [Data.kind, Data.Kind.accepts, Data.elt] using range
            · rw [← same]
              simp only [Data.set, Data.elt, moved, and_self, if_true, bytevecSet_get]
              cases wide1 with
              | false => simp only [Bool.false_eq_true, if_false, Nat.shiftLeft_zero, memmove_step]
              | true =>
                  have twice (k : Nat) : k <<< 1 = 2 * k := by rw [Nat.shiftLeft_eq]; omega
                  simp only [if_true, twice, Nat.mul_add, Nat.mul_one]
                  rw [show 2 * i + 2 = 2 * i + 1 + 1 from rfl,
                    show 2 * j + 2 = 2 * j + 1 + 1 from rfl,
                    memmove_step, memmove_step]
          · cases same
      | _ => cases same
  | _ => cases same

theorem moved_packed {h : Heap} {id1 id2 i j n : Nat} {data : Data}
    (same : moved (h.data id1) (h.data id2) i j n = some data) :
    h.base id1 = 0 ∧ h.base id2 = 0 := by
  have packed {dst src : Data} (same : moved dst src i j n = some data) :
      dst.kind ≠ .objects ∧ src.kind ≠ .objects := by
    cases dst <;> cases src <;> simp [moved, Data.kind] at same ⊢
  exact ⟨if_neg (packed same).1, if_neg (packed same).2⟩

theorem Heap.setData_self (h : Heap) (id : Nat) : h.setData id (h.data id) = h := by
  rw [Heap.setData, Heap.data, Function.update_eq_self]

theorem storeArray_moved {bound : Arr → Nat} {h : Heap} {id i j n : Nat} {src data : Data}
    (same : moved (h.data id) src i j n = some data) (packed : h.base id = 0)
    (room : i + n ≤ bound (h.arrays id)) :
    storeArray bound id i ((List.range' j n).map (src.elt h.bigEndian)) h =
      .ok () (h.setData id data) := by
  induction n generalizing h i j with
  | zero =>
      obtain rfl := moved_zero same
      rw [h.setData_self]
      rfl
  | succ n induction =>
      obtain ⟨accepted, later⟩ := @moved_step h.bigEndian _ _ _ _ _ _ same
      have below : i < bound (h.arrays id) := by omega
      have stored := arrSeqSetBelow_ok below accepted
      have next : (h.setSlot id i (src.elt h.bigEndian j)).data id =
          (h.data id).set h.bigEndian i (src.elt h.bigEndian j) := by
        rw [Heap.data, Heap.store_setSlot, (h.setSlot_shape id i _).arrays, Function.update_self,
          packed, Nat.zero_add]
      have shape := h.setSlot_shape id i (src.elt h.bigEndian j)
      have rest := @induction (h.setSlot id i (src.elt h.bigEndian j)) (i + 1) (j + 1)
        (by rw [next]; exact later) (by rw [shape.base, packed]) (by rw [shape.arrays]; omega)
      rw [shape.bigEndian, Nat.cast_succ] at rest
      simp only [List.range'_succ, List.map_cons, storeArray, bind, EStateM.bind, stored, rest]
      congr 1
      simp [Heap.setSlot, Heap.setData]

theorem replaceByElements_moved {h : Heap} {id1 id2 : Nat} {places1 places2 : List Place}
    {b : Bounds}
    {data : Data} (holds1 : (Ref.array id1).Places h places1)
    (holds2 : (Ref.array id2).Places h places2) (valid : b.Valid places1.length places2.length)
    (same : moved (h.data id1) (h.data id2) b.start1.toNat b.start2.toNat b.count.toNat =
      some data) :
    replaceByElements b (.array id1) (.array id2) h = .ok () (h.setData id1 data) := by
  obtain ⟨room1, room2⟩ := valid.room
  obtain ⟨packed1, packed2⟩ := moved_packed same
  have read := snapshot_run holds2 room2
  have values : ((places2.drop b.start2.toNat).take b.count.toNat).map h.value =
      (List.range' b.start2.toNat b.count.toNat).map ((h.data id2).elt h.bigEndian) := by
    change (region places2 b.start2 b.count).map h.value = _
    rw [← Heap.slots_eq holds2 room2, Heap.slots, packed2, List.map_map]
    refine List.map_congr_left fun i _ => ?_
    simp only [Function.comp, Nat.zero_add]
    rfl
  rw [Int.toNat_of_nonneg valid.start2, values] at read
  obtain rfl := holds1
  rw [List.length_map, List.length_range] at room1
  have stored := @storeArray_moved Arr.activeLength _ _ _ _ _ _ _ same packed1 room1
  rw [Int.toNat_of_nonneg valid.start1] at stored
  simp only [replaceByElements, bind, EStateM.bind, read, stored]

/-- The fast paths come to the same heap and the same errors as the path through the snapshot. -/
theorem replaceSeq_eq {h : Heap} {seq1 seq2 : Ref} {places1 places2 : List Place} (b : Bounds)
    (holds1 : seq1.Places h places1) (holds2 : seq2.Places h places2) :
    replaceSeq places1.length places2.length b seq1 seq2 h = replaceByElements b seq1 seq2 h := by
  simp only [replaceSeq, bind, EStateM.bind, get_run]
  by_cases empty : b.count ≤ 0
  · rw [if_pos empty]
    have none : b.count.toNat = 0 := Int.toNat_of_nonpos empty
    cases seq1 with
    | list head =>
        cases head with
        | none => simp only [replaceByElements, none]; rfl
        | some cell =>
            simp only [replaceByElements, none]
            change _ = storeCells (nthCell h b.start1.toNat (some cell)) [] h
            cases nthCell h b.start1.toNat (some cell) <;> rfl
    | array id => simp only [replaceByElements, none]; rfl
  · rw [if_neg empty]
    by_cases guarded :
        0 ≤ b.start1 ∧ 0 ≤ b.start2 ∧ b.ending1 ≤ places1.length ∧ b.ending2 ≤ places2.length
    · rw [if_pos guarded]
      have valid : b.Valid places1.length places2.length := by
        obtain ⟨start1, start2, ending1, ending2⟩ := guarded
        have ordered : b.start1 ≤ b.ending1 ∧ b.start2 ≤ b.ending2 := by
          unfold Bounds.count at empty
          split at empty <;> omega
        exact ⟨start1, ordered.1, ending1, start2, ordered.2, ending2⟩
      cases seq1 with
      | list head => rfl
      | array id1 =>
          cases seq2 with
          | list head => rfl
          | array id2 =>
              dsimp only
              cases same : moved (h.data id1) (h.data id2) b.start1.toNat b.start2.toNat
                  b.count.toNat with
              | none => rfl
              | some data =>
                  obtain ⟨room1, room2⟩ := valid.room
                  have covered : h.covers id1 b.start1.toNat b.count.toNat ∧
                      h.covers id2 b.start2.toNat b.count.toNat := by
                    have size1 : places1.length = (h.arrays id1).activeLength := by
                      rw [show places1 = _ from holds1, List.length_map, List.length_range]
                    have size2 : places2.length = (h.arrays id2).activeLength := by
                      rw [show places2 = _ from holds2, List.length_map, List.length_range]
                    simp only [Heap.covers, decide_eq_true_eq]
                    omega
                  dsimp only
                  rw [if_pos covered, replaceByElements_moved holds1 holds2 valid same]
                  rfl
    · rw [if_neg guarded]

structure Copies (h h' : Heap) (places : List Place) (values : List Obj) : Prop where
  copied : ∀ place v, (place, v) ∈ places.zip values → h'.value place = v
  others : ∀ place, (∀ v, (place, v) ∉ places.zip values) → h'.value place = h.value place
  shape : SameShape h h'

/-- The values are copied, up to the first that the destination does not accept, where a type
error is signalled. -/
inductive Replaces {α : Type} (returned : α) (accepts : Obj → Bool) (typeError : Obj → Stop)
    (h : Heap) (places : List Place) (values : List Obj) : EStateM.Result Stop Heap α → Prop
  | all {h' : Heap} (accepted : ∀ v ∈ values, accepts v = true)
      (copies : Copies h h' places values) :
      Replaces returned accepts typeError h places values (.ok returned h')
  | upTo {h' : Heap} (before after : List Obj) {v : Obj} (split : values = before ++ v :: after)
      (accepted : ∀ v ∈ before, accepts v = true) (rejected : accepts v = false)
      (copies : Copies h h' places before) :
      Replaces returned accepts typeError h places values (.error (typeError v) h')

/-- A code above 255 is stored into a base string. -/
def Heap.Narrows (h : Heap) (seq : Ref) (values : List Obj) : Prop :=
  ∃ id, seq = .array id ∧ h.kind id = .chars ∧
    ∃ code, 255 < code ∧ Obj.char code ∈ values.takeWhile (h.accepts seq)

theorem takeWhile_split {α : Type} {p : α → Bool} {before after : List α} {v : α}
    (accepted : ∀ v ∈ before, p v = true) (rejected : p v = false) :
    (before ++ v :: after).takeWhile p = before := by
  rw [List.takeWhile_append_of_pos accepted, List.takeWhile_cons_of_neg (by simp [rejected]),
    List.append_nil]

section Rule

variable {α : Type} {returned : α} {accepts : Obj → Bool} {kept : Obj → Obj}
  {typeError : Obj → Stop} {h h' : Heap} {places : List Place} {values : List Obj}
  {result : EStateM.Result Stop Heap α}

theorem copies_iff (distinct : places.Nodup) (room : values.length ≤ places.length)
    (shape : SameShape h h')
    (stored : h'.value = assign h.value (places.zip (values.map kept))) :
    Copies h h' places values ↔ ∀ v ∈ values, kept v = v := by
  have keys := Stores.nodup_zip distinct (values.map kept)
  constructor
  · intro copies v member
    obtain ⟨i, here⟩ := List.mem_iff_getElem?.mp member
    have below : i < places.length := by
      have inside := (List.getElem?_eq_some_iff.mp here).1
      omega
    have pair {w : Obj} {ws : List Obj} (found : ws[i]? = some w) :
        (places[i], w) ∈ places.zip ws :=
      List.mem_iff_getElem?.mpr ⟨i, by
        rw [List.getElem?_zip_eq_some]
        exact ⟨List.getElem?_eq_getElem below, found⟩⟩
    have plain := copies.copied _ v (pair here)
    have narrowed : h'.value places[i] = kept v := by
      rw [stored]
      exact Stores.assign_of_mem keys (pair (by rw [List.getElem?_map, here]; rfl))
    exact narrowed.symm.trans plain
  · intro same
    have plain : values.map kept = values := by
      rw [List.map_congr_left same, List.map_id']
    rw [plain] at stored keys
    refine ⟨fun place v member => ?_, fun place untouched => ?_, shape⟩
    · rw [stored]
      exact Stores.assign_of_mem keys member
    · rw [stored]
      refine Stores.assign_of_not_mem fun key => ?_
      obtain ⟨⟨_, v⟩, member, rfl⟩ := List.mem_map.mp key
      exact untouched v member

theorem StoresAs.replaces_iff
    (stores : StoresAs returned accepts kept typeError h places values result)
    (distinct : places.Nodup) (room : values.length ≤ places.length) :
    Replaces returned accepts typeError h places values result ↔
      ∀ v ∈ values.takeWhile accepts, kept v = v := by
  cases stores with
  | all accepted shape stored =>
      rw [List.takeWhile_eq_self_iff.mpr accepted, ← copies_iff distinct room shape stored]
      exact ⟨fun | .all _ copies => copies, fun copies => .all accepted copies⟩
  | @upTo h' before after v split accepted rejected shape stored =>
      subst split
      have shorter : before.length ≤ places.length := by
        rw [List.length_append] at room
        omega
      rw [takeWhile_split accepted rejected, ← copies_iff distinct shorter shape stored]
      constructor
      · intro replaces
        generalize error : typeError v = e at replaces
        cases replaces with
        | upTo before' after' split' accepted' rejected' copies =>
            have front := @takeWhile_split _ _ _ after _ accepted rejected
            rw [split', takeWhile_split accepted' rejected'] at front
            exact front ▸ copies
      · exact fun copies => .upTo before after rfl accepted rejected copies

end Rule

theorem Ref.Places.nodup {h : Heap} {seq : Ref} {places : List Place}
    (holds : seq.Places h places) : places.Nodup := by
  cases seq with
  | list head =>
      obtain ⟨cells, linked, rfl⟩ := holds
      exact linked.nodup.map fun _ _ same => Place.cell.inj same
  | array id =>
      obtain rfl := holds
      refine List.nodup_range.map fun i j same => ?_
      have slots := (Place.slot.inj same).2
      omega

theorem kept_iff {h : Heap} {seq : Ref} {values : List Obj} :
    (∀ v ∈ values.takeWhile (h.accepts seq), h.kept seq v = v) ↔ ¬h.Narrows seq values := by
  constructor
  · rintro same ⟨id, rfl, kind, code, high, member⟩
    have kept := same _ member
    rw [Heap.kept, kind] at kept
    have low : code % 256 = code := Obj.char.inj kept
    omega
  · intro whole v member
    cases seq with
    | list head => rfl
    | array id =>
        rw [Heap.kept]
        cases kind : h.kind id with
        | chars =>
            cases v with
            | char code =>
                have low : code ≤ 255 := by
                  by_contra high
                  exact whole ⟨id, rfl, kind, code, by omega, member⟩
                rw [Data.Kind.kept, Nat.mod_eq_of_lt (by omega)]
            | _ => rfl
        | _ => rfl

theorem replaceSeq_iff {h : Heap} {seq1 seq2 : Ref} {places1 places2 : List Place} {b : Bounds}
    (holds1 : seq1.Places h places1) (holds2 : seq2.Places h places2)
    (valid : b.Valid places1.length places2.length) :
    Replaces seq1 (h.accepts seq1) (h.typeError seq1) h (region places1 b.start1 b.count)
        ((region places2 b.start2 b.count).map h.value)
        ((replaceSeq places1.length places2.length b seq1 seq2 >>= fun _ => pure seq1 :
          Action Ref) h) ↔
      ¬h.Narrows seq1 ((region places2 b.start2 b.count).map h.value) := by
  have stores := replaceByElements_run holds1 holds2 valid
  rw [← replaceSeq_eq b holds1 holds2] at stores
  rw [← kept_iff]
  refine (stores.bind_pure seq1).replaces_iff ?_ ?_
  · exact (holds1.nodup.sublist (List.drop_sublist ..)).sublist (List.take_sublist ..)
  · rw [List.length_map, length_region valid.room.1, length_region valid.room.2]

end ClAmiga.Sequence
