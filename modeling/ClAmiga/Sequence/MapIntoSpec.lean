import Mathlib.Data.Nat.Bitwise
import ClAmiga.Sequence.MapInto

/-!
# The fast paths of REPLACE and MAP-INTO

The loop over packed bytes stores what a mapped bitwise function returns for the elements, as many
times as the mapping would, so it leaves the same heap.
-/

namespace ClAmiga.Sequence

theorem Bitwise.int_toNat (op : Bitwise) (a b : BitVec 8) :
    op.int a.toNat b.toNat = ((op.byte a b).toNat : Int) := by
  cases op with
  | ior => exact congrArg Int.ofNat (BitVec.toNat_or a b).symm
  | and => exact congrArg Int.ofNat (BitVec.toNat_and a b).symm
  | xor => exact congrArg Int.ofNat (BitVec.toNat_xor a b).symm

theorem Bitwise.int_ident (op : Bitwise) (n : Nat) : op.int op.ident n = n := by
  cases op with
  | ior => exact congrArg Int.ofNat (Nat.zero_or n)
  | and =>
      change ((Nat.ldiff n 0 : Nat) : Int) = n
      congr 1
      refine Nat.eq_of_testBit_eq fun i => ?_
      rw [Nat.testBit_ldiff, Nat.zero_testBit, Bool.not_false, Bool.and_true]
  | xor => exact congrArg Int.ofNat (Nat.zero_xor n)

theorem Obj.ofInt_byte (a : BitVec 8) : Obj.ofInt a.toNat = .fixnum a.toNat := by
  have below := a.isLt
  rw [Obj.ofInt, if_pos (by omega)]

theorem Bitwise.fold_bytes (op : Bitwise) (acc : BitVec 8) (bytes : List (BitVec 8)) (h : Heap) :
    op.fold acc.toNat (bytes.map fun a => .fixnum a.toNat) h =
      .ok (.fixnum (bytes.foldl op.byte acc).toNat) h := by
  induction bytes generalizing acc with
  | nil => exact congrArg (EStateM.Result.ok · h) (Obj.ofInt_byte acc)
  | cons a bytes induction =>
      change op.fold (op.int acc.toNat a.toNat) (bytes.map fun a => .fixnum a.toNat) h = _
      rw [op.int_toNat]
      exact induction (op.byte acc a)

section Round

variable {h : Heap} {id idx : Nat}

theorem Heap.arrElt_byte (unsigned : h.kind id = .bytes false false) :
    h.arrElt id idx = .fixnum ((h.data id).byte idx).toNat := by
  have packed : h.base id = 0 := if_neg (by rw [unsigned]; rintro ⟨⟩)
  rw [Heap.arrElt, packed, Nat.zero_add]
  unfold Heap.kind at unsigned
  match h.data id, unsigned with
  | .bytes false false data, _ => rfl

theorem Data.bytes_of_kind {data : Data} (unsigned : data.kind = .bytes false false) :
    ∃ bytes, data = .bytes false false bytes := by
  cases data <;> cases unsigned
  exact ⟨_, rfl⟩

theorem Heap.setSlot_byte (unsigned : h.kind id = .bytes false false) (v : BitVec 8) :
    h.setSlot id idx (.fixnum v.toNat) = h.setData id ((h.data id).setByte idx v) := by
  have packed : h.base id = 0 := if_neg (by rw [unsigned]; rintro ⟨⟩)
  rw [Heap.setSlot, packed, Nat.zero_add]
  congr 1
  obtain ⟨bytes, here⟩ := Data.bytes_of_kind unsigned
  rw [here]
  simp [Data.set, Data.setByte, bytevecSet]

theorem accepts_byte (unsigned : h.kind id = .bytes false false) (v : BitVec 8) :
    (h.kind id).accepts (.fixnum v.toNat) = true := by
  have below := v.isLt
  rw [unsigned]
  simp only [Data.Kind.accepts, bytevecLow, bytevecHigh, Bool.and_eq_true, decide_eq_true_eq,
    Bool.false_eq_true, if_false]
  omega

theorem gather_bytes {ids : List Nat} (unsigned : ∀ id ∈ ids, h.kind id = .bytes false false)
    (inside : ∀ id ∈ ids, idx < (h.arrays id).activeLength) :
    gather idx (ids.map fun id => .array id (h.arrays id).activeLength) h =
      .ok ((ids.map fun id => (h.data id).byte idx).map (fun a => .fixnum a.toNat),
        ids.map fun id => .array id (h.arrays id).activeLength) h := by
  induction ids with
  | nil => rfl
  | cons id ids induction =>
      obtain ⟨unsignedHere, unsigned⟩ := List.forall_mem_cons.mp unsigned
      obtain ⟨here, inside⟩ := List.forall_mem_cons.mp inside
      have read : seqEltOf (.array id) idx h = .ok (.fixnum ((h.data id).byte idx).toNat) h := by
        simp only [seqEltOf, bind, EStateM.bind, get_run]
        rw [if_neg (by omega), Int.toNat_natCast, Heap.arrElt_byte unsignedHere]
        rfl
      have taken : Cursor.next idx (.array id (h.arrays id).activeLength) h =
          .ok (.fixnum ((h.data id).byte idx).toNat, .array id (h.arrays id).activeLength) h := by
        rw [Cursor.next, Action.bind_ok read]
        rfl
      simp only [List.map_cons, gather]
      rw [Action.bind_ok taken, Action.bind_ok (induction unsigned inside)]
      rfl

end Round

/-- The number of elements to fold is the least of the lengths. -/
structure Least (h : Heap) (cap : Nat) (ids : List Nat) (m : Nat) : Prop where
  below : m ≤ cap
  sources : ∀ id ∈ ids, m ≤ (h.arrays id).activeLength
  reached : m = cap ∨ ∃ id ∈ ids, (h.arrays id).activeLength = m

theorem least_foldCount (h : Heap) (cap : Nat) (ids : List Nat) :
    Least h cap ids (foldCount h cap ids) := by
  induction ids generalizing cap with
  | nil => exact ⟨le_rfl, by simp, .inl rfl⟩
  | cons id ids induction =>
      rw [foldCount]
      by_cases shorter : (h.arrays id).activeLength < cap
      · rw [if_pos shorter]
        obtain ⟨below, sources, reached⟩ := induction (h.arrays id).activeLength
        refine ⟨below.trans shorter.le, List.forall_mem_cons.mpr ⟨below, sources⟩, .inr ?_⟩
        rcases reached with here | ⟨other, member, here⟩
        · exact ⟨id, List.mem_cons_self, here.symm⟩
        · exact ⟨other, List.mem_cons_of_mem _ member, here⟩
      · rw [if_neg shorter]
        obtain ⟨below, sources, reached⟩ := induction cap
        refine ⟨below, List.forall_mem_cons.mpr ⟨by omega, sources⟩, ?_⟩
        rcases reached with here | ⟨other, member, here⟩
        · exact .inl here
        · exact .inr ⟨other, List.mem_cons_of_mem _ member, here⟩

theorem mapIntoLoop_bytes {op : Bitwise} {id first : Nat} {rest : List Nat} {h : Heap}
    {m rounds idx : Nat} (unsigned : h.kind id = .bytes false false)
    (sources : ∀ s ∈ first :: rest, h.kind s = .bytes false false)
    (least : Least h (h.arrays id).length (first :: rest) m) (start : idx ≤ m)
    (whole : idx + rounds = (h.arrays id).length) :
    ∃ values h', mapIntoLoop (.bitwise op) (.array id) rounds idx
        ((first :: rest).map fun s => .array s (h.arrays s).activeLength) none h = .ok values h' ∧
      foldLoop op id (first :: rest) (m - idx) idx h = .ok () h' ∧ idx + values.length = m := by
  induction rounds generalizing h idx with
  | zero =>
      obtain rfl : idx = m := le_antisymm start (by have below := least.below; omega)
      rw [Nat.sub_self]
      exact ⟨[], h, rfl, rfl, rfl⟩
  | succ rounds induction =>
      rw [mapIntoLoop]
      by_cases before : idx < m
      · have inside (s : Nat) (member : s ∈ first :: rest) : idx < (h.arrays s).activeLength :=
          before.trans_le (least.sources s member)
        have live : ((first :: rest).map fun s => Cursor.array s (h.arrays s).activeLength).any
            (·.exhausted idx) = false := by
          rw [List.any_map, List.any_eq_false]
          intro s member
          have bound := inside s member
          simp only [Function.comp, Cursor.exhausted, decide_eq_true_eq]
          omega
        have allowed : ¬((h.arrays id).length ≤ idx ∨
            (first :: rest).any (fun s => decide ((h.arrays s).activeLength ≤ idx)) = true) := by
          rintro (beyond | beyond)
          · have below := least.below
            omega
          · obtain ⟨s, member, beyond⟩ := List.any_eq_true.mp beyond
            have bound := inside s member
            simp only [decide_eq_true_eq] at beyond
            omega
        have gathered := gather_bytes sources inside
        have folded := op.fold_bytes ((h.data first).byte idx)
          (rest.map fun s => (h.data s).byte idx) h
        rw [List.foldl_map] at folded
        change _ = EStateM.Result.ok (Obj.fixnum (foldBytes op h idx (first :: rest)).toNat) h
          at folded
        have applied : (Callee.bitwise op).apply idx
            (((first :: rest).map fun s => (h.data s).byte idx).map fun a => Obj.fixnum a.toNat) h =
              .ok (.fixnum (foldBytes op h idx (first :: rest)).toNat) h := by
          rw [← folded]
          change op.fold (op.int op.ident ((h.data first).byte idx).toNat) _ h = _
          rw [op.int_ident]
        have below : idx < (h.arrays id).length := by omega
        have stored := arrSeqSetBelow_ok below
          (accepts_byte unsigned (foldBytes op h idx (first :: rest)))
        rw [Heap.setSlot_byte unsigned] at stored
        have shape := h.setSlot_shape id idx (.fixnum (foldBytes op h idx (first :: rest)).toNat)
        rw [Heap.setSlot_byte unsigned] at shape
        obtain ⟨values, h', looped, foldedRest, count⟩ := @induction (h.setData id
            ((h.data id).setByte idx (foldBytes op h idx (first :: rest)))) (idx + 1)
          (by rw [shape.kind, unsigned])
          (fun s member => by rw [shape.kind, sources s member])
          (by
            obtain ⟨bound, others, reached⟩ := least
            refine ⟨?_, ?_, ?_⟩ <;> rw [shape.arrays] <;> assumption)
          before (by rw [shape.arrays]; omega)
        rw [shape.arrays] at looped
        refine ⟨.fixnum (foldBytes op h idx (first :: rest)).toNat :: values, h', ?_, ?_, ?_⟩
        · rw [if_neg (by rw [live]; exact Bool.false_ne_true)]
          dsimp only
          rw [Action.bind_ok gathered, Action.bind_ok applied, Action.bind_ok stored,
            Action.bind_ok looped]
          rfl
        · rw [show m - idx = m - (idx + 1) + 1 by omega, foldLoop]
          simp only [bind, EStateM.bind, get_run]
          rw [if_neg allowed]
          exact foldedRest
        · rw [List.length_cons]
          omega
      · obtain rfl : idx = m := by omega
        have ended : ((first :: rest).map fun s => Cursor.array s (h.arrays s).activeLength).any
            (·.exhausted idx) = true := by
          rcases least.reached with full | ⟨s, member, here⟩
          · omega
          · refine List.any_eq_true.mpr ⟨_, List.mem_map.mpr ⟨s, member, rfl⟩, ?_⟩
            simp only [Cursor.exhausted, decide_eq_true_eq]
            omega
        rw [if_pos ended, Nat.sub_self]
        exact ⟨[], h, rfl, rfl, rfl⟩

theorem Heap.unsignedBytes_some {h : Heap} {seq : Ref} {id : Nat}
    (found : h.unsignedBytes seq = some id) : seq = .array id ∧ h.kind id = .bytes false false := by
  cases seq with
  | list head => cases found
  | array other =>
      rw [Heap.unsignedBytes] at found
      split at found
      · rename_i unsigned
        obtain rfl := Option.some.inj found
        exact ⟨rfl, unsigned⟩
      · cases found

theorem Heap.allUnsignedBytes_some {h : Heap} {seqs : List Ref} {ids : List Nat}
    (found : h.allUnsignedBytes seqs = some ids) :
    seqs = ids.map Ref.array ∧ ∀ id ∈ ids, h.kind id = .bytes false false := by
  induction seqs generalizing ids with
  | nil =>
      obtain rfl := Option.some.inj found
      exact ⟨rfl, by simp⟩
  | cons seq seqs induction =>
      rw [Heap.allUnsignedBytes] at found
      split at found
      · rename_i id others here later
        obtain rfl := Option.some.inj found
        obtain ⟨rfl, unsigned⟩ := Heap.unsignedBytes_some here
        obtain ⟨rfl, sources⟩ := induction later
        exact ⟨rfl, List.forall_mem_cons.mpr ⟨unsigned, sources⟩⟩
      · cases found

theorem mapIntoByElements_bytes {fuel : Nat} {op : Bitwise} {h : Heap} {id first : Nat}
    {rest : List Nat} (unsigned : h.kind id = .bytes false false)
    (sources : ∀ s ∈ first :: rest, h.kind s = .bytes false false) :
    mapIntoByElements fuel (.bitwise op) (.array id) ((first :: rest).map Ref.array) h =
      (do
        let m := foldCount h (h.arrays id).length (first :: rest)
        foldLoop op id (first :: rest) m 0
        finishMapInto (.array id) m : Action Unit) h := by
  have cap : resultCap fuel (.array id) h = .ok (h.arrays id).length h := by
    simp only [resultCap, bind, EStateM.bind, get_run, unsigned]
    rfl
  obtain ⟨values, h', looped, folded, count⟩ := @mapIntoLoop_bytes op _ _ _ _ _ _ _ unsigned sources
    (least_foldCount h (h.arrays id).length (first :: rest)) (Nat.zero_le _) (Nat.zero_add _)
  rw [Nat.sub_zero] at folded
  rw [Nat.zero_add] at count
  have cursors : ((first :: rest).map Ref.array).map (·.cursor h) =
      (first :: rest).map fun s => Cursor.array s (h.arrays s).activeLength := by
    rw [List.map_map]
    rfl
  rw [mapIntoByElements, mapElements]
  simp only [bind, EStateM.bind, cap, get_run, cursors, looped, count, folded]
  rfl

theorem mapIntoSeq_eq (fuel : Nat) (callee : Callee) (result : Ref) (seqs : List Ref) (h : Heap) :
    mapIntoSeq fuel callee result seqs h = mapIntoByElements fuel callee result seqs h := by
  simp only [mapIntoSeq, bind, EStateM.bind, get_run]
  cases callee with
  | other call => rfl
  | bitwise op =>
      cases found : h.unsignedBytes result with
      | none => rfl
      | some id =>
          cases sources : h.allUnsignedBytes seqs with
          | none => rfl
          | some ids =>
              cases ids with
              | nil => rfl
              | cons first rest =>
                  obtain ⟨rfl, unsigned⟩ := Heap.unsignedBytes_some found
                  obtain ⟨rfl, packed⟩ := Heap.allUnsignedBytes_some sources
                  exact (mapIntoByElements_bytes unsigned packed).symm

theorem Ref.Places.seqLength {fuel : Nat} {h : Heap} {seq : Ref} {places : List Place}
    (holds : seq.Places h places) (enough : places.length ≤ fuel) :
    seqLength fuel seq h = .ok places.length h := by
  have length : h.seqLength fuel seq = some places.length := by
    cases seq with
    | list head =>
        obtain ⟨cells, linked, rfl⟩ := holds
        rw [List.length_map] at enough ⊢
        exact listLength_linked linked enough
    | array id =>
        obtain rfl := holds
        rw [List.length_map, List.length_range]
        rfl
  simp only [Sequence.seqLength, bind, EStateM.bind, get_run, length]
  rfl

/-- A call of REPLACE with checked keywords and valid bounds. -/
structure ReplaceInput where
  h : Heap
  fuel : Nat
  seq1 : Ref
  seq2 : Ref
  places1 : List Place
  places2 : List Place
  args : List Obj
  registers : Registers
  holds1 : seq1.Places h places1
  holds2 : seq2.Places h places2
  enough1 : places1.length ≤ fuel
  enough2 : places2.length ≤ fuel
  checked : checkSeqKeywords 2 skReplaceKeys args = .ok ()
  read : replaceArgs places1.length places2.length args = .ok registers
  valid : (Bounds.of registers).Valid places1.length places2.length

namespace ReplaceInput

variable (input : ReplaceInput)

def bounds : Bounds :=
  Bounds.of input.registers

def places : List Place :=
  region input.places1 input.bounds.start1 input.bounds.count

def values : List Obj :=
  (region input.places2 input.bounds.start2 input.bounds.count).map input.h.value

def run : EStateM.Result Stop Heap Ref :=
  replaceCall input.fuel input.seq1 input.seq2 input.args input.h

def runByElements : EStateM.Result Stop Heap Ref :=
  (replaceByElements input.bounds input.seq1 input.seq2 >>= fun _ => pure input.seq1 :
    Action Ref) input.h

/-- The region is copied, and the path taken makes no difference. -/
structure Met : Prop where
  replaces : Replaces input.seq1 (input.h.accepts input.seq1) (input.h.typeError input.seq1) input.h
    input.places input.values input.run
  byElements : input.run = input.runByElements

theorem run_eq : input.run =
    (replaceSeq input.places1.length input.places2.length input.bounds input.seq1 input.seq2 >>=
      fun _ => pure input.seq1 : Action Ref) input.h := by
  have checked : Action.ofArgs (checkSeqKeywords 2 skReplaceKeys input.args) input.h =
      .ok () input.h := by
    rw [input.checked]
    rfl
  have read : Action.ofArgs (replaceArgs input.places1.length input.places2.length input.args)
      input.h = .ok input.registers input.h := by
    rw [input.read]
    rfl
  rw [run, replaceCall, Action.bind_ok checked,
    Action.bind_ok (input.holds1.seqLength input.enough1),
    Action.bind_ok (input.holds2.seqLength input.enough2), Action.bind_ok read]
  rfl

theorem met_iff : input.Met ↔ ¬input.h.Narrows input.seq1 input.values := by
  have copied := replaceSeq_iff input.holds1 input.holds2 input.valid
  change Replaces input.seq1 _ _ input.h input.places input.values _ ↔ _ at copied
  constructor
  · intro met
    refine copied.mp ?_
    have replaces := met.replaces
    rw [input.run_eq] at replaces
    exact replaces
  · intro whole
    refine ⟨?_, ?_⟩
    · rw [input.run_eq]
      exact copied.mpr whole
    · rw [input.run_eq, runByElements]
      simp only [bind, EStateM.bind, replaceSeq_eq input.bounds input.holds1 input.holds2]

end ReplaceInput

/-- REPLACE copies the values it found unless it narrows; MAP-INTO works element by
element. -/
theorem replace_mapInto_iff (input : ReplaceInput) :
    (input.Met ↔ ¬input.h.Narrows input.seq1 input.values) ∧
      ∀ (fuel : Nat) (callee : Callee) (result : Ref) (seqs : List Ref) (h : Heap),
        mapIntoCall fuel callee result seqs h =
          (if 16 < seqs.length then
            throw (.error "MAP-INTO: too many sequence arguments (%d; max 16)")
          else mapIntoByElements fuel callee result seqs >>= fun _ =>
            pure result : Action Ref) h := by
  refine ⟨input.met_iff, fun fuel callee result seqs h => ?_⟩
  rw [mapIntoCall]
  split
  · rfl
  · simp only [bind, EStateM.bind, mapIntoSeq_eq]

/-- A base string of four characters from `a` on, and a list of one Greek letter. -/
def stringHeap : Heap where
  bigEndian := true
  memory := ⟨fun _ => .char 955, fun _ => none⟩
  arrays := fun id => ⟨id, 0, 4, none, false⟩
  store := fun _ => .chars fun i => BitVec.ofNat 8 (97 + i)

/-- `(replace s s :start1 1)` -/
def shiftInput : ReplaceInput where
  h := stringHeap
  fuel := 4
  seq1 := .array 0
  seq2 := .array 0
  places1 := (List.range 4).map (.slot 0)
  places2 := (List.range 4).map (.slot 0)
  args := [.keyword .start1, .fixnum 1]
  registers := Function.update (replaceDefaults 4 4) (.keyword .start1) (.int 1)
  holds1 := rfl
  holds2 := rfl
  enough1 := le_rfl
  enough2 := le_rfl
  checked := rfl
  read := rfl
  valid := ⟨by decide, by decide, by decide, by decide, by decide, by decide⟩

/-- A string shifted within itself. -/
theorem replace_mapInto_shift : shiftInput.Met := by
  refine (replace_mapInto_iff shiftInput).1.mpr ?_
  rintro ⟨_, _, _, code, high, member⟩
  have codes : Obj.char code ∈ [Obj.char 97, .char 98, .char 99] := member
  simp only [List.mem_cons, Obj.char.injEq, List.not_mem_nil, or_false] at codes
  omega

/-- `(replace s '(#\λ))` -/
def greekInput : ReplaceInput where
  h := stringHeap
  fuel := 4
  seq1 := .array 0
  seq2 := .list (some 0)
  places1 := (List.range 4).map (.slot 0)
  places2 := [.cell 0]
  args := []
  registers := replaceDefaults 4 1
  holds1 := rfl
  holds2 := ⟨[0], ⟨rfl, rfl⟩, rfl⟩
  enough1 := le_rfl
  enough2 := by decide
  checked := rfl
  read := rfl
  valid := ⟨by decide, by decide, by decide, by decide, by decide, by decide⟩

/-- A character from a list is stored as another one. -/
theorem replace_greek : ¬greekInput.Met := fun met =>
  greekInput.met_iff.mp met ⟨0, rfl, rfl, 955, by decide, List.mem_singleton.mpr rfl⟩

end ClAmiga.Sequence
