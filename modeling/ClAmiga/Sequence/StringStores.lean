import ClAmiga.Sequence.Narrowing
import ClAmiga.Sequence.Sort

/-!
# Characters that functions return

MAP and MERGE make a base string for their characters, and MAP-INTO is given one.  With the other
operations: each reads back the characters that it stores if and only if none of them is above
255 or the string is not a base string.
-/

namespace ClAmiga.Sequence

open Cells (Memory)

/-- The element at an index, `NIL` behind the end of a list. -/
def Heap.eltAt (h : Heap) : Ref → Nat → Obj
  | .list head, k => listElt h.memory k head
  | .array id, k => h.arrElt id k

def Heap.argsAt (h : Heap) (seqs : List Ref) (k : Nat) : List Obj :=
  seqs.map (h.eltAt · k)

def Ref.cursorAt (h : Heap) (k : Nat) : Ref → Cursor
  | .list head => .list (nthCell h k head)
  | .array id => .array id (h.arrays id).activeLength

theorem nthCell_succ (h : Heap) (k : Nat) (head : Option Nat) :
    nthCell h (k + 1) head = (nthCell h k head).bind h.memory.cdr := by
  induction k generalizing head with
  | zero => cases head <;> rfl
  | succ k induction =>
      cases head with
      | none => rfl
      | some cell => exact induction (h.memory.cdr cell)

theorem listElt_nthCell (h : Heap) (k : Nat) (head : Option Nat) :
    listElt h.memory k head = ((nthCell h k head).map h.memory.car).getD .nil := by
  induction k generalizing head with
  | zero => cases head <;> rfl
  | succ k induction =>
      cases head with
      | none => rfl
      | some cell => exact induction (h.memory.cdr cell)

theorem minLength_le {fuel least n : Nat} {h : Heap} {seqs : List Ref}
    (length : minLength fuel h least seqs = some n) :
    n ≤ least ∧ ∀ id, Ref.array id ∈ seqs → n ≤ (h.arrays id).activeLength := by
  induction seqs generalizing least with
  | nil =>
      obtain rfl := Option.some.inj length
      exact ⟨le_rfl, by simp⟩
  | cons seq seqs induction =>
      rw [minLength] at length
      cases here : h.seqLength fuel seq with
      | none =>
          rw [here] at length
          cases length
      | some len =>
          rw [here] at length
          obtain ⟨below, others⟩ := induction length
          have least : n ≤ least ∧ n ≤ len := by
            split at below <;> omega
          refine ⟨least.1, fun id member => ?_⟩
          rcases List.mem_cons.mp member with rfl | later
          · obtain rfl := Option.some.inj here
            exact least.2
          · exact others id later

theorem collectArgs_run {h : Heap} {k : Nat} {seqs : List Ref}
    (inside : ∀ id, Ref.array id ∈ seqs → k < (h.arrays id).activeLength) :
    collectArgs h k (seqs.map (·.cursorAt h k)) =
      .ok (h.argsAt seqs k, seqs.map (·.cursorAt h (k + 1))) := by
  induction seqs with
  | nil => rfl
  | cons seq seqs induction =>
      have here : (seq.cursorAt h k).collect h k = .ok (h.eltAt seq k, seq.cursorAt h (k + 1)) := by
        cases seq with
        | list head =>
            rw [Ref.cursorAt, Ref.cursorAt, Heap.eltAt, nthCell_succ, listElt_nthCell]
            cases nthCell h k head <;> rfl
        | array id =>
            have below := inside id List.mem_cons_self
            rw [Ref.cursorAt, Cursor.collect, if_neg (by omega)]
            rfl
      have later := induction fun id member => inside id (List.mem_cons_of_mem _ member)
      rw [List.map_cons, collectArgs, here]
      simp only [bind, Except.bind, later]
      rfl

def mapStored (call : Calling) (fuel : Nat) (h : Heap) (seqs : List Ref) : Nat → Option Obj :=
  match minLength fuel h 0x7FFFFFFF seqs with
  | some n => fun k => if k < n then (call k (h.argsAt seqs k)).toOption else none
  | none => fun _ => none

/-- The loop stores the low byte of each character. -/
theorem mapStringLoop_kept {call : Calling} {h : Heap} {seqs : List Ref} {rounds idx : Nat}
    {chars chars' : Nat → BitVec 8} {values : List Obj}
    (inside : ∀ id, Ref.array id ∈ seqs → idx + rounds ≤ (h.arrays id).activeLength)
    (ran : mapStringLoop call h rounds idx (seqs.map (·.cursorAt h idx)) chars =
      .ok (values, chars')) :
    (∀ k, idx ≤ k → k < idx + rounds → ∃ v, call k (h.argsAt seqs k) = .ok v ∧
      chars' k = BitVec.ofNat 8 (charVal v)) ∧ ∀ k, k < idx → chars' k = chars k := by
  induction rounds generalizing idx chars values with
  | zero =>
      obtain ⟨-, rfl⟩ := Prod.mk.inj (Except.ok.inj ran)
      exact ⟨fun k low high => by omega, fun _ _ => rfl⟩
  | succ rounds induction =>
      have gathered := @collectArgs_run h idx seqs fun id member => by
        have room := inside id member
        omega
      rw [mapStringLoop, gathered] at ran
      simp only [bind, Except.bind] at ran
      cases answer : call idx (h.argsAt seqs idx) with
      | error stop =>
          rw [answer] at ran
          cases ran
      | ok v =>
          rw [answer] at ran
          dsimp only at ran
          split at ran
          · cases ran
          · rename_i rest looped
            obtain ⟨-, rfl⟩ := Prod.mk.inj (Except.ok.inj ran)
            obtain ⟨later, before⟩ := @induction (idx + 1) _ _ (fun id member => by
              have room := inside id member
              omega) looped
            refine ⟨fun k low high => ?_, fun k below => ?_⟩
            · rcases Nat.lt_or_eq_of_le low with more | rfl
              · exact later k more (by omega)
              · exact ⟨v, answer, by rw [before idx (by omega), Function.update_self]⟩
            · rw [before k (by omega), Function.update_of_ne (by omega)]

/-- MAP to a string keeps the low byte of a character. -/
theorem mapString_kept {call : Calling} {fuel len : Nat} {h : Heap} {seqs : List Ref}
    {declLen : Option Nat} {values : List Obj} {chars : Nat → BitVec 8}
    (ran : mapString call fuel h seqs declLen = .ok (len, values, chars)) {k code : Nat}
    (here : mapStored call fuel h seqs k = some (.char code)) :
    (Data.chars chars).elt h.bigEndian k = Data.Kind.chars.kept (.char code) := by
  rw [mapString] at ran
  split at ran
  · cases ran
  · rw [mapStored] at here
    cases length : minLength fuel h 0x7FFFFFFF seqs with
    | none =>
        rw [length] at ran
        cases ran
    | some n =>
        rw [length] at ran here
        dsimp only at here
        split at here
        · rename_i below
          have start : seqs.map (·.cursor h) = seqs.map (·.cursorAt h 0) := by
            refine List.map_congr_left fun seq _ => ?_
            cases seq with
            | list head => cases head <;> rfl
            | array id => rfl
          rw [start] at ran
          simp only [bind, Except.bind] at ran
          split at ran
          · cases ran
          · rename_i mapped looped
            have same : chars = mapped.2 := by
              cases declLen with
              | none => exact (Prod.mk.inj (Prod.mk.inj (Except.ok.inj ran)).2).2.symm
              | some len' =>
                  dsimp only at ran
                  split at ran
                  · cases ran
                  · exact (Prod.mk.inj (Prod.mk.inj (Except.ok.inj ran)).2).2.symm
            obtain ⟨each, -⟩ := mapStringLoop_kept (fun id member => by
              rw [Nat.zero_add]
              exact (minLength_le length).2 id member) looped
            obtain ⟨v, answer, stored⟩ := each k (Nat.zero_le k) (by omega)
            rw [answer] at here
            obtain rfl := Option.some.inj here
            rw [same, Data.elt, stored, charVal, BitVec.toNat_ofNat]
            rfl
        · cases here

def mergeStored {σ κ : Type} (calls : Calls σ κ) (fuel : Nat) (seq1 seq2 : Seq)
    (memory : Memory Obj) (s : σ) : Nat → Option Obj :=
  match seqToGcVector fuel memory seq1, seqToGcVector fuel memory seq2 with
  | some a1, some a2 => fun i => (mergeVectors calls a1 a2 (a1.length + a2.length) 0 0 [] s).1[i]?
  | _, _ => fun _ => none

/-- MERGE to a string keeps the low byte of a character. -/
theorem mergeResult_kept {σ κ : Type} {calls : Calls σ κ} {fuel : Nat} {lenConstraint : Option Nat}
    {seq1 seq2 : Seq} {memory memory' : Memory Obj} {s s' : σ} {elements : List Obj}
    (ran : merge calls fuel .string lenConstraint seq1 seq2 memory s =
      some (.ok (.fresh .string elements), memory', s')) {i code : Nat}
    (here : mergeStored calls fuel seq1 seq2 memory s i = some (.char code)) :
    elements[i]? = some (Data.Kind.chars.kept (.char code)) := by
  rw [mergeStored] at here
  cases first : seqToGcVector fuel memory seq1 with
  | none =>
      rw [first] at here
      cases here
  | some a1 =>
      cases second : seqToGcVector fuel memory seq2 with
      | none =>
          rw [first, second] at here
          cases here
      | some a2 =>
          rw [first, second] at here
          dsimp only at here
          simp only [merge, first, second, bind, Option.bind, Option.some.injEq,
            Prod.mk.injEq] at ran
          obtain ⟨result, -, -⟩ := ran
          have same : elements = (mergeVectors calls a1 a2 (a1.length + a2.length) 0 0 [] s).1.map
                ResultType.string.store := by
            unfold mergeResult at result
            cases lenConstraint with
            | none =>
                dsimp only at result
                split at result
                · cases result
                · cases result
                  rfl
            | some length =>
                dsimp only at result
                split at result
                · cases result
                · split at result
                  · cases result
                  · cases result
                    rfl
          rw [same, List.getElem?_map, here]
          rfl

def Callee.ofCalling (call : Calling) : Callee :=
  .other fun k args => Action.ofExcept (call k args)

def Bitwise.result (op : Bitwise) : Int → List Obj → Except Stop Obj
  | result, [] => .ok (Obj.ofInt result)
  | result, arg :: rest =>
      match arg.integer with
      | some n => op.result (op.int result n) rest
      | none => .error (.typeError arg "INTEGER" op.name)

inductive Mapped where
  | bitwise (op : Bitwise)
  | function (call : Calling)

def Mapped.callee : Mapped → Callee
  | .bitwise op => .bitwise op
  | .function call => .ofCalling call

def Mapped.calling : Mapped → Calling
  | .bitwise op => fun _ args => op.result op.ident args
  | .function call => call

theorem Bitwise.fold_eq (op : Bitwise) (result : Int) (args : List Obj) :
    op.fold result args = Action.ofExcept (op.result result args) := by
  induction args generalizing result with
  | nil => rfl
  | cons arg rest induction =>
      rw [Bitwise.fold, Bitwise.result]
      cases arg.integer with
      | none => rfl
      | some n => exact induction _

theorem Mapped.apply_eq (fn : Mapped) : fn.callee.apply = (Callee.ofCalling fn.calling).apply := by
  funext before args
  cases fn with
  | bitwise op => exact op.fold_eq op.ident args
  | function call => rfl

theorem mapIntoLoop_congr {callee callee' : Callee} (same : callee.apply = callee'.apply)
    (result : Ref) (rounds idx : Nat) (cursors : List Cursor) (resCur : Option Nat) :
    mapIntoLoop callee result rounds idx cursors resCur =
      mapIntoLoop callee' result rounds idx cursors resCur := by
  induction rounds generalizing idx cursors resCur with
  | zero => rfl
  | succ rounds induction =>
      unfold mapIntoLoop
      simp only [same, induction]

def Heap.live (h : Heap) (seqs : List Ref) (k : Nat) : Bool :=
  seqs.all fun seq => !(seq.cursorAt h k).exhausted k

def Heap.capOf (h : Heap) (id : Nat) : Nat :=
  match h.kind id with
  | .chars | .codes => (h.arrays id).activeLength
  | _ => (h.arrays id).length

/-- What MAP-INTO is to store: what the function returns for the elements as they were. -/
def mapIntoStored (call : Calling) (h : Heap) (id : Nat) (seqs : List Ref) : Nat → Option Obj :=
  fun k =>
    if k < h.capOf id ∧ h.live seqs k = true then (call k (h.argsAt seqs k)).toOption else none

/-- The state of the loop: the elements up to an index are stored. -/
structure Filled (h h' : Heap) (id idx : Nat) : Prop where
  shape : SameShape h h'
  memory : h'.memory = h.memory
  others : ∀ place, (∀ j, j < idx → place ≠ .slot (h.arrays id).storage (h.base id + j)) →
    h'.value place = h.value place

theorem seqEltOf_array {h h' : Heap} {id : Nat} {i : Int} {v : Obj}
    (ran : seqEltOf (.array id) i h = .ok v h') : h' = h ∧ v = h.arrElt id i.toNat := by
  simp only [seqEltOf, bind, EStateM.bind, get_run] at ran
  split at ran
  · cases ran
  · exact ⟨(EStateM.Result.ok.inj ran).2.symm, (EStateM.Result.ok.inj ran).1.symm⟩

theorem Cursor.next_heap {h h' : Heap} {k : Nat} {cursor : Cursor} {r : Obj × Cursor}
    (ran : cursor.next k h = .ok r h') : h' = h := by
  match cursor with
  | .list none => exact (EStateM.Result.ok.inj ran).2.symm
  | .list (some cell) => exact (EStateM.Result.ok.inj ran).2.symm
  | .array id len =>
      cases read : seqEltOf (.array id) k h with
      | error e s =>
          rw [Cursor.next, Action.bind_error read] at ran
          cases ran
      | ok v s =>
          rw [Cursor.next, Action.bind_ok read] at ran
          obtain ⟨-, rfl⟩ := EStateM.Result.ok.inj ran
          exact (seqEltOf_array read).1

theorem gather_heap {h h' : Heap} {k : Nat} {cursors : List Cursor} {r : List Obj × List Cursor}
    (ran : gather k cursors h = .ok r h') : h' = h := by
  induction cursors generalizing r h' with
  | nil => exact (EStateM.Result.ok.inj ran).2.symm
  | cons cursor cursors induction =>
      rw [gather] at ran
      cases first : cursor.next k h with
      | error e s =>
          rw [Action.bind_error first] at ran
          cases ran
      | ok here s =>
          obtain rfl := Cursor.next_heap first
          obtain ⟨v, cursor'⟩ := here
          rw [Action.bind_ok first] at ran
          dsimp only at ran
          cases rest : gather k cursors s with
          | error e s' =>
              rw [Action.bind_error rest] at ran
              cases ran
          | ok later s' =>
              rw [Action.bind_ok rest] at ran
              obtain ⟨-, rfl⟩ := EStateM.Result.ok.inj ran
              exact induction rest

theorem mapIntoLoop_succ {call : Calling} {id rounds idx : Nat} {cursors : List Cursor}
    {h h' : Heap}
    {values : List Obj}
    (ran : mapIntoLoop (.ofCalling call) (.array id) (rounds + 1) idx cursors none h =
      .ok values h') :
    (cursors.any (·.exhausted idx) = true ∧ values = [] ∧ h' = h) ∨
      (cursors.any (·.exhausted idx) = false ∧ ∃ args cursors' v rest h₁,
        gather idx cursors h = .ok (args, cursors') h ∧ call idx args = .ok v ∧
          arrSeqSetBelow Arr.length id idx v h = .ok () h₁ ∧ values = v :: rest ∧
            mapIntoLoop (.ofCalling call) (.array id) rounds (idx + 1) cursors' none h₁ =
              .ok rest h') := by
  rw [mapIntoLoop] at ran
  split at ran
  · rename_i ended
    obtain ⟨rfl, rfl⟩ := EStateM.Result.ok.inj ran
    exact .inl ⟨ended, rfl, rfl⟩
  · rename_i live
    refine .inr ⟨Bool.eq_false_iff.mpr live, ?_⟩
    dsimp only at ran
    cases gathered : gather idx cursors h with
    | error e s =>
        rw [Action.bind_error gathered] at ran
        cases ran
    | ok r s =>
        obtain rfl := gather_heap gathered
        obtain ⟨args, cursors'⟩ := r
        rw [Action.bind_ok gathered] at ran
        cases answer : call idx args with
        | error stop =>
            have stopped : (Callee.ofCalling call).apply idx args s = .error stop s := by
              simp only [Callee.ofCalling, Callee.apply, answer]
              rfl
            rw [Action.bind_error stopped] at ran
            cases ran
        | ok v =>
            have applied : (Callee.ofCalling call).apply idx args s = .ok v s := by
              simp only [Callee.ofCalling, Callee.apply, answer]
              rfl
            rw [Action.bind_ok applied] at ran
            cases stored : arrSeqSetBelow Arr.length id idx v s with
            | error e s' =>
                rw [Action.bind_error stored] at ran
                cases ran
            | ok _ s' =>
                rw [Action.bind_ok stored] at ran
                cases looped : mapIntoLoop (.ofCalling call) (.array id) rounds (idx + 1) cursors'
                    none s' with
                | error e s'' =>
                    rw [Action.bind_error looped] at ran
                    cases ran
                | ok rest s'' =>
                    rw [Action.bind_ok looped] at ran
                    obtain ⟨rfl, rfl⟩ := EStateM.Result.ok.inj ran
                    exact ⟨args, cursors', v, rest, s', rfl, answer, stored, rfl, looped⟩

/-- MAP-INTO stores each value as its array keeps it. -/
theorem mapIntoLoop_kept {call : Calling} {id rounds idx : Nat} {cursors : List Cursor}
    {h h' : Heap}
    {values : List Obj}
    (ran : mapIntoLoop (.ofCalling call) (.array id) rounds idx cursors none h = .ok values h') :
    SameShape h h' ∧ (∀ k v, values[k]? = some v → h'.arrElt id (idx + k) = (h.kind id).kept v) ∧
      ∀ k, k < idx → h'.arrElt id k = h.arrElt id k := by
  induction rounds generalizing idx cursors h values with
  | zero =>
      obtain ⟨rfl, rfl⟩ := EStateM.Result.ok.inj ran
      exact ⟨SameShape.refl h, by simp, fun _ _ => rfl⟩
  | succ rounds induction =>
      rcases mapIntoLoop_succ ran with ⟨-, rfl, rfl⟩ | ⟨-, args, cursors', v, rest, h₁, -, -, one,
        rfl, looped⟩
      · exact ⟨SameShape.refl _, by simp, fun _ _ => rfl⟩
      · have stored := storeArray_stored (storeArray_one one)
        rw [Int.toNat_natCast] at stored
        obtain ⟨shape, read, before⟩ := induction looped
        refine ⟨stored.shape.trans shape, fun k w here => ?_, fun k below => ?_⟩
        · cases k with
          | zero =>
              obtain rfl := Option.some.inj here
              rw [Nat.add_zero, before idx (by omega)]
              exact stored.read 0 v rfl
          | succ k =>
              have later := read k w here
              rw [stored.shape.kind] at later
              rwa [show idx + (k + 1) = idx + 1 + k by omega]
        · rw [before k (by omega), stored.others k (.inl below)]

theorem gather_filled {h h' : Heap} {id idx : Nat} {seqs : List Ref} {r : List Obj × List Cursor}
    (base : h.kind id = .chars) (filled : Filled h h' id idx)
    (ran : gather idx (seqs.map (·.cursorAt h idx)) h' = .ok r h') :
    r = (h.argsAt seqs idx, seqs.map (·.cursorAt h (idx + 1))) := by
  induction seqs generalizing r with
  | nil => exact (EStateM.Result.ok.inj ran).1.symm
  | cons seq seqs induction =>
      rw [List.map_cons, gather] at ran
      cases first : (seq.cursorAt h idx).next idx h' with
      | error e s =>
          rw [Action.bind_error first] at ran
          cases ran
      | ok here s =>
          obtain rfl := Cursor.next_heap first
          obtain ⟨v, cursor'⟩ := here
          rw [Action.bind_ok first] at ran
          dsimp only at ran
          cases rest : gather idx (seqs.map (·.cursorAt h idx)) s with
          | error e s' =>
              rw [Action.bind_error rest] at ran
              cases ran
          | ok later s' =>
              rw [Action.bind_ok rest] at ran
              obtain ⟨rfl, rfl⟩ := EStateM.Result.ok.inj ran
              obtain rfl := induction rest
              have same : (v, cursor') = (h.eltAt seq idx, seq.cursorAt h (idx + 1)) := by
                cases seq with
                | list head =>
                    rw [Ref.cursorAt, Heap.eltAt, nthCell_succ, listElt_nthCell]
                    rw [Ref.cursorAt] at first
                    cases cell : nthCell h idx head with
                    | none =>
                        rw [cell] at first
                        exact (EStateM.Result.ok.inj first).1.symm
                    | some cell' =>
                        rw [cell] at first
                        have read := (EStateM.Result.ok.inj first).1.symm
                        rw [filled.memory] at read
                        exact read
                | array other =>
                    rw [Ref.cursorAt, Cursor.next] at first
                    cases read : seqEltOf (.array other) idx s' with
                    | error e s =>
                        rw [Action.bind_error read] at first
                        cases first
                    | ok w s =>
                        rw [Action.bind_ok read] at first
                        obtain ⟨rfl, same⟩ := seqEltOf_array read
                        rw [← (EStateM.Result.ok.inj first).1, same, Int.toNat_natCast]
                        refine Prod.ext ?_ rfl
                        change s.arrElt other idx = h.arrElt other idx
                        rw [filled.shape.arrElt]
                        refine filled.others _ fun j below hit => ?_
                        obtain ⟨storage, slot⟩ := Place.slot.inj hit
                        have packed (a : Nat) (kind : h.kind a = .chars) : h.base a = 0 :=
                          if_neg (by rw [kind]; rintro ⟨⟩)
                        have alike : h.kind other = .chars := by
                          rw [← base, Heap.kind, Heap.kind, Heap.data, Heap.data, storage]
                        rw [packed id base, packed other alike] at slot
                        omega
              obtain ⟨rfl, rfl⟩ := Prod.mk.inj same
              rfl

theorem live_iff {h : Heap} {seqs : List Ref} {k : Nat} :
    (seqs.map (·.cursorAt h k)).any (·.exhausted k) = false ↔ h.live seqs k = true := by
  rw [Heap.live, List.any_map, List.any_eq_false, List.all_eq_true]
  simp only [Function.comp, Bool.not_eq_true, Bool.not_eq_true']

theorem nthCell_none {h : Heap} {j k : Nat} {head : Option Nat} (le : j ≤ k)
    (ended : nthCell h j head = none) : nthCell h k head = none := by
  induction le with
  | refl => exact ended
  | step _ induction =>
      rw [nthCell_succ, induction]
      rfl

theorem live_mono {h : Heap} {seqs : List Ref} {j k : Nat} (le : j ≤ k)
    (live : h.live seqs k = true) : h.live seqs j = true := by
  rw [Heap.live, List.all_eq_true] at live ⊢
  intro seq member
  have here := live seq member
  rw [Bool.not_eq_true', ← Bool.not_eq_true] at here ⊢
  refine fun ended => here ?_
  cases seq with
  | array id =>
      simp only [Ref.cursorAt, Cursor.exhausted, decide_eq_true_eq] at ended ⊢
      omega
  | list head =>
      simp only [Ref.cursorAt, Cursor.exhausted, decide_eq_true_eq] at ended ⊢
      exact nthCell_none le ended

theorem Filled.refl (h : Heap) (id : Nat) : Filled h h id 0 :=
  ⟨SameShape.refl h, rfl, fun _ _ => rfl⟩

theorem Filled.next {h h' h₁ : Heap} {id idx : Nat} {v : Obj} (filled : Filled h h' id idx)
    (one : arrSeqSetBelow Arr.length id idx v h' = .ok () h₁) : Filled h h₁ id (idx + 1) := by
  obtain ⟨accepted, rfl⟩ := arrSeqSetBelow_stored one
  refine ⟨filled.shape.trans (h'.setSlot_shape id idx v), filled.memory, fun place away => ?_⟩
  rw [h'.setSlot_value idx accepted, filled.shape.arrays, filled.shape.base,
    Function.update_of_ne (away idx (Nat.lt_succ_self idx))]
  exact filled.others place fun j below => away j (by omega)

theorem mapIntoLoop_values {call : Calling} {id rounds idx : Nat} {seqs : List Ref} {h₀ h h' : Heap}
    {values : List Obj} (base : h₀.kind id = .chars) (filled : Filled h₀ h id idx)
    (ran : mapIntoLoop (.ofCalling call) (.array id) rounds idx
      (seqs.map (·.cursorAt h₀ idx)) none h =
      .ok values h') (k : Nat) :
    values[k]? = if k < rounds ∧ h₀.live seqs (idx + k) = true then
      (call (idx + k) (h₀.argsAt seqs (idx + k))).toOption else none := by
  induction rounds generalizing idx h values k with
  | zero =>
      obtain ⟨rfl, -⟩ := EStateM.Result.ok.inj ran
      rw [if_neg (by omega)]
      rfl
  | succ rounds induction =>
      rcases mapIntoLoop_succ ran with ⟨ended, rfl, -⟩ |
        ⟨live, args, cursors', v, rest, h₁, gathered,
        answer, one, rfl, looped⟩
      · rw [if_neg]
        · rfl
        · rintro ⟨-, live⟩
          rw [live_iff.mpr (live_mono (Nat.le_add_right idx k) live)] at ended
          cases ended
      · obtain ⟨rfl, rfl⟩ := Prod.mk.inj (gather_filled base filled gathered)
        cases k with
        | zero =>
            rw [if_pos ⟨Nat.succ_pos rounds, live_iff.mp live⟩, Nat.add_zero, answer]
            rfl
        | succ k =>
            rw [List.getElem?_cons_succ, induction (filled.next one) looped k,
              show idx + 1 + k = idx + (k + 1) by omega]
            simp only [Nat.succ_lt_succ_iff]

theorem Heap.setFillPointer_elt (h : Heap) (id count other i : Nat) :
    (h.setFillPointer id count).arrElt other i = h.arrElt other i := by
  rw [Heap.setFillPointer]
  split
  · rfl
  · simp only [Heap.arrElt, Heap.base, Heap.kind, Heap.data]
    rcases eq_or_ne other id with rfl | away
    · simp only [Function.update_self]
      congr
    · simp only [Function.update_of_ne away]
      congr

theorem mapElements_run {fuel id : Nat} {fn : Mapped} {seqs : List Ref} {h h' : Heap}
    {values : List Obj} (ran : mapElements fuel fn.callee (.array id) seqs h = .ok values h') :
    ∃ h₁, mapIntoLoop (.ofCalling fn.calling) (.array id) (h.capOf id) 0
        (seqs.map (·.cursorAt h 0)) none h = .ok values h₁ ∧
      ∀ i, h'.arrElt id i = h₁.arrElt id i := by
  have cap : resultCap fuel (.array id) h = .ok (h.capOf id) h := by
    simp only [resultCap, bind, EStateM.bind, get_run, Heap.capOf]
    cases h.kind id <;> rfl
  have start : seqs.map (·.cursor h) = seqs.map (·.cursorAt h 0) := by
    refine List.map_congr_left fun seq _ => ?_
    cases seq with
    | list head => cases head <;> rfl
    | array id => rfl
  rw [mapElements, Action.bind_ok cap] at ran
  replace ran : (mapIntoLoop fn.callee (.array id) (h.capOf id) 0 (seqs.map (·.cursor h)) none >>=
      fun values => finishMapInto (.array id) values.length >>= fun _ => pure values :
    Action (List Obj)) h = .ok values h' := ran
  rw [start, mapIntoLoop_congr fn.apply_eq] at ran
  obtain ⟨values', h₁, looped, ran⟩ := Action.bind_returned ran
  obtain ⟨rfl, rfl⟩ := EStateM.Result.ok.inj ran
  exact ⟨h₁, looped, h₁.setFillPointer_elt id _ id⟩

theorem mapElements_kept {fuel id : Nat} {fn : Mapped} {seqs : List Ref} {h h' : Heap}
    {values : List Obj} (ran : mapElements fuel fn.callee (.array id) seqs h = .ok values h')
    {i code : Nat} (here : values[i]? = some (.char code)) :
    h'.arrElt id i = (h.kind id).kept (.char code) := by
  obtain ⟨h₁, looped, same⟩ := mapElements_run ran
  rw [same, ← (mapIntoLoop_kept looped).2.1 i _ here, Nat.zero_add]

/-- Into a base string, what is stored depends on the elements before the call only. -/
theorem mapElements_values {fuel id : Nat} {fn : Mapped} {seqs : List Ref} {h h' : Heap}
    {values : List Obj} (base : h.kind id = .chars)
    (ran : mapElements fuel fn.callee (.array id) seqs h = .ok values h') :
    (fun i => values[i]?) = mapIntoStored fn.calling h id seqs := by
  obtain ⟨h₁, looped, -⟩ := mapElements_run ran
  funext k
  have value := mapIntoLoop_values base (Filled.refl h id) looped k
  rw [Nat.zero_add] at value
  exact value

/-- An operation that stores into a string or another array, with its arguments. -/
inductive StringOp : Type 1 where
  | map (call : Calling) (seqs : List Ref) (declLen : Option Nat)
  | merge {σ κ : Type} (calls : Calls σ κ) (lenConstraint : Option Nat) (seq1 seq2 : Seq)
      (memory : Memory Obj) (s : σ)
  | substitute (functions : Functions) (call : Funcall) (mode : SubstMode) (destructive : Bool)
      (newitem olditem : Obj) (id : Nat) (args : List Obj)
  | fill (id : Nat) (item : Obj) (args : List Obj)
  | replace (id : Nat) (seq2 : Ref) (args : List Obj)
  | setfElt (id : Nat) (index val : Obj)
  | mapInto (fn : Mapped) (id : Nat) (seqs : List Ref)

def substInput (functions : Functions) (h : Heap) (id : Nat) (call : Funcall) (mode : SubstMode)
    (destructive : Bool) (newitem olditem : Obj) (args : List Obj) :
    Except ArgError SubstInput := do
  let registers ← parseSeqArgs functions args
  .ok ⟨h, id, call, mode, destructive, newitem, olditem, SeqArgs.of registers⟩

def replaceBounds (fuel : Nat) (h : Heap) (id : Nat) (seq2 : Ref) (args : List Obj) :
    Option Bounds := do
  let len2 ← h.seqLength fuel seq2
  let registers ← (replaceArgs (h.arrays id).activeLength len2 args).toOption
  some (Bounds.of registers)

namespace StringOp

def destination (h : Heap) : StringOp → Data.Kind
  | .map .. | .merge .. => .chars
  | .substitute _ _ _ destructive _ _ id _ =>
      if destructive then h.kind id else (h.copyArraySeq id).kind
  | .fill id .. | .replace id .. | .setfElt id .. | .mapInto _ id _ => h.kind id

/-- What an operation is to store, by the indices, as its arguments and the elements before the
call say. -/
def stored (fuel : Nat) (h : Heap) : StringOp → Nat → Option Obj
  | .map call seqs _ => mapStored call fuel h seqs
  | .merge calls _ seq1 seq2 memory s => mergeStored calls fuel seq1 seq2 memory s
  | .substitute functions call mode destructive newitem olditem id args =>
      match substInput functions h id call mode destructive newitem olditem args with
      | .ok input => input.stored
      | .error _ => fun _ => none
  | .fill id item args =>
      match fillArgs (h.arrays id).activeLength args with
      | .ok registers =>
          fillStored h id item (registers (.keyword .start)).toInt
            (registers (.keyword .ending)).toInt
      | .error _ => fun _ => none
  | .replace id seq2 args =>
      match replaceBounds fuel h id seq2 args with
      | some b => replaceStored h b seq2
      | none => fun _ => none
  | .setfElt _ _ val => fun i => if i = 0 then some val else none
  | .mapInto fn id seqs => mapIntoStored fn.calling h id seqs

def run (fuel : Nat) (h : Heap) (op : StringOp) :
    Option ((Nat → Option Obj) × (Nat → Option Obj)) :=
  match op with
  | .map call seqs declLen =>
      match mapString call fuel h seqs declLen with
      | .ok (_, _, chars) =>
          some (op.stored fuel h, fun i => some ((Data.chars chars).elt h.bigEndian i))
      | .error _ => none
  | .merge calls lenConstraint seq1 seq2 memory s =>
      match Sequence.merge calls fuel .string lenConstraint seq1 seq2 memory s with
      | some (.ok (.fresh .string elements), _, _) => some (op.stored fuel h, fun i => elements[i]?)
      | _ => none
  | .substitute functions call mode destructive newitem olditem id args =>
      match substCall functions call fuel mode destructive newitem olditem (.array id) args h with
      | .ok result h' => some (op.stored fuel h, result.elt h')
      | .error .. => none
  | .fill id item args =>
      match fillCall fuel (.array id) item args h with
      | .ok _ h' => some (op.stored fuel h, fun i => some (h'.arrElt id i))
      | .error .. => none
  | .replace id seq2 args =>
      match replaceCall fuel (.array id) seq2 args h, replaceBounds fuel h id seq2 args with
      | .ok _ h', some b =>
          some (op.stored fuel h, fun i => some (h'.arrElt id (b.start1.toNat + i)))
      | _, _ => none
  | .setfElt id index val =>
      match setfEltCall (.array id) index val h, index with
      | .ok _ h', .fixnum idx =>
          some (op.stored fuel h, fun i => some (h'.arrElt id (idx.toNat + i)))
      | _, _ => none
  | .mapInto fn id seqs =>
      match mapIntoCall fuel fn.callee (.array id) seqs h,
          mapElements fuel fn.callee (.array id) seqs h with
      | .ok _ h', .ok values _ => some (fun i => values[i]?, fun i => some (h'.arrElt id i))
      | _, _ => none

/-- No character is altered: an operation that returns reads back the characters that it stored. -/
def Met (fuel : Nat) (h : Heap) (op : StringOp) : Prop :=
  ∀ stored read, op.run fuel h = some (stored, read) → ReadsBack stored read

/-- A run stores what the operation stores, and keeps its characters as the destination does. -/
abbrev Kept (op : StringOp) (fuel : Nat) (h : Heap) (stored read : Nat → Option Obj) : Prop :=
  stored = op.stored fuel h ∧ ∀ i code, stored i = some (.char code) →
    read i = some ((op.destination h).kept (.char code))

attribute [local simp] run stored destination

variable {stored read : Nat → Option Obj}

theorem map_kept {call : Calling} {seqs : List Ref} {declLen : Option Nat} {fuel : Nat} {h : Heap}
    (ran : (map call seqs declLen).run fuel h = some (stored, read)) :
    (map call seqs declLen).Kept fuel h stored read := by
  simp only [run] at ran
  split at ran
  · rename_i mapped
    obtain ⟨rfl, rfl⟩ := Prod.mk.inj (Option.some.inj ran)
    exact ⟨rfl, fun i code here => congrArg some (mapString_kept mapped here)⟩
  · cases ran

theorem merge_kept {σ κ : Type} {calls : Calls σ κ} {lenConstraint : Option Nat} {seq1 seq2 : Seq}
    {memory : Memory Obj} {s : σ} {fuel : Nat} {h : Heap}
    (ran : (merge calls lenConstraint seq1 seq2 memory s).run fuel h = some (stored, read)) :
    (merge calls lenConstraint seq1 seq2 memory s).Kept fuel h stored read := by
  simp only [run] at ran
  split at ran
  · rename_i merged
    obtain ⟨rfl, rfl⟩ := Prod.mk.inj (Option.some.inj ran)
    exact ⟨rfl, fun i code here => mergeResult_kept merged here⟩
  · cases ran

/-- SUBSTITUTE and NSUBSTITUTE. -/
theorem substitute_kept {functions : Functions} {call : Funcall} {mode : SubstMode}
    {destructive : Bool} {newitem olditem : Obj} {id : Nat} {args : List Obj} {fuel : Nat}
    {h : Heap}
    (ran : (substitute functions call mode destructive newitem olditem id args).run fuel h =
      some (stored, read)) :
    (substitute functions call mode destructive newitem olditem id args).Kept fuel h stored
      read := by
  simp only [run] at ran
  split at ran
  · rename_i result h' done
    obtain ⟨rfl, rfl⟩ := Prod.mk.inj (Option.some.inj ran)
    refine ⟨rfl, fun i code here => ?_⟩
    rw [substCall] at done
    obtain ⟨_, _, checked, done⟩ := Action.bind_returned done
    obtain ⟨-, rfl⟩ := Action.ofArgs_returned checked
    obtain ⟨registers, _, read, done⟩ := Action.bind_returned done
    obtain ⟨parsed, rfl⟩ := Action.ofArgs_returned read
    simp only [StringOp.stored, substInput, parsed, bind, Except.bind] at here
    exact @substSeq_kept ⟨h, id, call, mode, destructive, newitem, olditem, SeqArgs.of registers⟩
      fuel result h' done i code here
  · cases ran

/-- FILL. -/
theorem fill_kept {id : Nat} {item : Obj} {args : List Obj} {fuel : Nat} {h : Heap}
    (ran : (fill id item args).run fuel h = some (stored, read)) :
    (fill id item args).Kept fuel h stored read := by
  simp only [run] at ran
  split at ran
  · rename_i result h' done
    obtain ⟨rfl, rfl⟩ := Prod.mk.inj (Option.some.inj ran)
    refine ⟨rfl, fun i code here => ?_⟩
    rw [fillCall] at done
    obtain ⟨_, _, checked, done⟩ := Action.bind_returned done
    obtain ⟨-, rfl⟩ := Action.ofArgs_returned checked
    obtain ⟨len, _, length, done⟩ := Action.bind_returned done
    obtain ⟨rfl, rfl⟩ := EStateM.Result.ok.inj length
    obtain ⟨registers, _, read, done⟩ := Action.bind_returned done
    obtain ⟨parsed, rfl⟩ := Action.ofArgs_returned read
    obtain ⟨_, _, filled, done⟩ := Action.bind_returned done
    obtain ⟨-, rfl⟩ := EStateM.Result.ok.inj done
    simp only [StringOp.stored, parsed] at here
    exact congrArg some (fillSeq_kept filled here)
  · cases ran

/-- REPLACE. -/
theorem replace_kept {id : Nat} {seq2 : Ref} {args : List Obj} {fuel : Nat} {h : Heap}
    (ran : (replace id seq2 args).run fuel h = some (stored, read)) :
    (replace id seq2 args).Kept fuel h stored read := by
  simp only [run] at ran
  split at ran
  · rename_i result h' b done bounds
    obtain ⟨rfl, rfl⟩ := Prod.mk.inj (Option.some.inj ran)
    refine ⟨rfl, fun i code here => ?_⟩
    rw [replaceCall] at done
    obtain ⟨_, _, checked, done⟩ := Action.bind_returned done
    obtain ⟨-, rfl⟩ := Action.ofArgs_returned checked
    obtain ⟨len1, _, length1, done⟩ := Action.bind_returned done
    obtain ⟨rfl, rfl⟩ := EStateM.Result.ok.inj length1
    obtain ⟨len2, _, length2, done⟩ := Action.bind_returned done
    obtain ⟨length, rfl⟩ := seqLength_returned length2
    obtain ⟨registers, _, read, done⟩ := Action.bind_returned done
    obtain ⟨parsed, rfl⟩ := Action.ofArgs_returned read
    obtain ⟨_, _, replaced, done⟩ := Action.bind_returned done
    obtain ⟨-, rfl⟩ := EStateM.Result.ok.inj done
    have same : b = Bounds.of registers := by
      simp only [replaceBounds, length, parsed, bind, Option.bind] at bounds
      exact (Option.some.inj bounds).symm
    simp only [StringOp.stored, bounds] at here
    rw [same] at here ⊢
    exact congrArg some (replaceSeq_kept length replaced here)
  · cases ran

/-- SETF of ELT. -/
theorem setfElt_kept {id : Nat} {index val : Obj} {fuel : Nat} {h : Heap}
    (ran : (setfElt id index val).run fuel h = some (stored, read)) :
    (setfElt id index val).Kept fuel h stored read := by
  simp only [run] at ran
  split at ran
  · rename_i done
    obtain ⟨rfl, rfl⟩ := Prod.mk.inj (Option.some.inj ran)
    refine ⟨rfl, fun i code here => ?_⟩
    simp only [StringOp.stored] at here
    split at here
    · rename_i first
      obtain rfl := first
      obtain rfl := Option.some.inj here
      exact congrArg some (setfEltCall_kept done)
    · cases here
  · cases ran

/-- MAP-INTO. -/
theorem mapInto_kept {fn : Mapped} {id : Nat} {seqs : List Ref} {fuel : Nat} {h : Heap}
    (ran : (mapInto fn id seqs).run fuel h = some (stored, read)) :
    (h.kind id = .chars → stored = (mapInto fn id seqs).stored fuel h) ∧
      ∀ i code, stored i = some (.char code) → read i = some ((h.kind id).kept (.char code)) := by
  simp only [run] at ran
  split at ran
  · rename_i result h' values h'' done mapped
    obtain ⟨rfl, rfl⟩ := Prod.mk.inj (Option.some.inj ran)
    have same : h' = h'' := by
      rw [mapIntoCall] at done
      split at done
      · cases done
      · obtain ⟨_, _, stored, done⟩ := Action.bind_returned done
        obtain ⟨-, rfl⟩ := EStateM.Result.ok.inj done
        rw [mapIntoSeq_eq, mapIntoByElements, Action.bind_ok mapped] at stored
        exact (EStateM.Result.ok.inj stored).2.symm
    exact ⟨fun base => mapElements_values base mapped, fun i code here => by
      rw [same]
      exact congrArg some (mapElements_kept mapped here)⟩
  · cases ran

/-- Each operation reads back what the destination keeps of the character it stored. -/
theorem run_kept {op : StringOp} {fuel : Nat} {h : Heap}
    (ran : op.run fuel h = some (stored, read)) :
    (op.destination h = .chars → stored = op.stored fuel h) ∧
      ∀ i code, stored i = some (.char code) →
        read i = some ((op.destination h).kept (.char code)) := by
  cases op with
  | map call seqs declLen => exact (map_kept ran).imp_left fun same _ => same
  | merge calls lenConstraint seq1 seq2 memory s =>
      exact (merge_kept ran).imp_left fun same _ => same
  | substitute functions call mode destructive newitem olditem id args =>
      exact (substitute_kept ran).imp_left fun same _ => same
  | fill id item args => exact (fill_kept ran).imp_left fun same _ => same
  | replace id seq2 args => exact (replace_kept ran).imp_left fun same _ => same
  | setfElt id index val => exact (setfElt_kept ran).imp_left fun same _ => same
  | mapInto fn id seqs => exact mapInto_kept ran

end StringOp

/-- An operation alters a character if and only if it stores one above 255 into a base string. -/
theorem stringOp_met_iff (fuel : Nat) (h : Heap) (op : StringOp) : op.Met fuel h ↔
      ((op.run fuel h).isSome = true → ¬Narrows (op.destination h) (op.stored fuel h)) := by
  constructor
  · rintro met returned ⟨base, above⟩
    obtain ⟨⟨stored, read⟩, ran⟩ := Option.isSome_iff_exists.mp returned
    obtain ⟨same, kept⟩ := StringOp.run_kept ran
    rw [← same base] at above
    exact (readsBack_iff kept).mp (met stored read ran) ⟨base, above⟩
  · intro low stored read ran
    obtain ⟨same, kept⟩ := StringOp.run_kept ran
    refine (readsBack_iff kept).mpr fun ⟨base, above⟩ => ?_
    rw [same base] at above
    exact low (by rw [ran]; rfl) ⟨base, above⟩

/-- `(map 'string #'identity (list (code-char 955)))` is a string of the character 187. -/
theorem map_greek :
    ¬(StringOp.map (fun _ args => .ok (args.headD .nil))
      [.list (some 0)] none).Met 1 stringHeap := by
  intro met
  exact absurd (met _ _ rfl 0 955 rfl) (by decide)

end ClAmiga.Sequence
