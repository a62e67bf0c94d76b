import Mathlib.Data.Nat.SuccPred
import ClAmiga.Peephole.Settled

/-!
# What the encoder writes

The emitted bytes decode again, instruction by instruction, and every jump
offset in them leads to the start of an instruction.
-/

namespace ClAmiga.Peephole

variable {constants : Pool}

theorem assignPositions_getElem? (code : List Insn) (position index : Nat) :
    (assignPositions position code)[index]? = (code[index]?).map fun insn =>
      if insn.deleted then insn
      else { insn with newPos := position + liveLength (code.take index) } := by
  induction code generalizing position index with
  | nil => simp [assignPositions]
  | cons head later induction =>
      unfold assignPositions
      cases deletedEq : head.deleted with
      | true =>
          cases index with
          | zero => simp [deletedEq]
          | succ index =>
              simp only [if_true, List.getElem?_cons_succ, induction, List.take_succ_cons]
              simp only [liveLength, List.map_cons, List.sum_cons, Insn.liveLen, deletedEq,
                if_true, Nat.zero_add]
      | false =>
          cases index with
          | zero => simp [deletedEq, liveLength]
          | succ index =>
              simp only [Bool.false_eq_true, if_false, List.getElem?_cons_succ, induction,
                List.take_succ_cons]
              simp only [liveLength, List.map_cons, List.sum_cons, Insn.liveLen, deletedEq,
                Bool.false_eq_true, if_false, Nat.add_assoc]

/-- The same instructions up to their new positions. -/
def Renumbered (code changed : List Insn) : Prop :=
  List.Forall₂ (fun insn now => now = { insn with newPos := now.newPos }) code changed

theorem assignPositions_renumbered (position : Nat) (code : List Insn) :
    Renumbered code (assignPositions position code) := by
  induction code generalizing position with
  | nil => exact .nil
  | cons head later induction =>
      unfold assignPositions
      split
      · exact .cons rfl (induction _)
      · exact .cons rfl (induction _)

variable {code changed : List Insn}

theorem Renumbered.length (renumbered : Renumbered code changed) : changed.length = code.length :=
  (List.Forall₂.length_eq renumbered).symm

theorem Renumbered.getElem? (renumbered : Renumbered code changed) {index : Nat} {now : Insn}
    (found : changed[index]? = some now) :
    ∃ insn : Insn, code[index]? = some insn ∧ now = { insn with newPos := now.newPos } :=
  forall₂_getElem? renumbered found

theorem Renumbered.symm (renumbered : Renumbered code changed) : Renumbered changed code := by
  apply List.Forall₂.imp _ (List.Forall₂.flip renumbered)
  intro now insn same
  rw [same]

theorem Renumbered.skipDeleted (renumbered : Renumbered code changed) (index : Nat) :
    skipDeleted changed index = skipDeleted code index := by
  have findIdx_eq {code changed : List Insn} (renumbered : Renumbered code changed) :
      changed.findIdx (fun insn => !insn.deleted) =
        code.findIdx (fun insn => !insn.deleted) := by
    induction renumbered with
    | nil => rfl
    | cons head _ induction => rw [List.findIdx_cons, List.findIdx_cons, induction, head]
  unfold Peephole.skipDeleted
  rw [findIdx_eq (List.forall₂_drop index renumbered)]

theorem Renumbered.memberOperands
    (renumbered : Renumbered code changed) (fuel : Nat) (index : Option Nat) :
    memberOperands changed fuel index = memberOperands code fuel index := by
  induction fuel generalizing index with
  | zero => rfl
  | succ fuel induction =>
      cases index with
      | none => rfl
      | some index =>
          rw [Peephole.memberOperands, Peephole.memberOperands]
          cases found : changed[index]? with
          | none =>
              have outside := List.getElem?_eq_none_iff.mp found
              rw [renumbered.length] at outside
              rw [List.getElem?_eq_none outside]
          | some now =>
              obtain ⟨insn, insnAt, same⟩ := renumbered.getElem? found
              rw [insnAt]
              dsimp only
              rw [induction, same]

theorem Renumbered.liveLength (renumbered : Renumbered code changed) :
    liveLength changed = liveLength code := by
  unfold Peephole.liveLength
  induction renumbered with
  | nil => rfl
  | cons head _ induction =>
      rw [List.map_cons, List.map_cons, List.sum_cons, List.sum_cons, induction, head]
      rfl

theorem Renumbered.payload (renumbered : Renumbered code changed) {index : Nat} {insn now : Insn}
    (same : now = { insn with newPos := now.newPos }) :
    payload changed index now = payload code index insn := by
  unfold Peephole.payload
  rw [renumbered.length, renumbered.memberOperands, same]

theorem Settled.renumber {decoded settled placed : List Insn}
    (isSettled : Settled constants decoded settled)
    (renumbered : Renumbered settled placed) : Settled constants decoded placed := by
  have more : ∀ (position : Nat) (later : Insn), placed[position]? = some later →
      ∃ earlier : Insn, settled[position]? = some earlier ∧ (earlier.Gone → later.Gone) := by
    intro position later found
    obtain ⟨earlier, earlierAt, same⟩ := renumbered.getElem? found
    rw [same]
    exact ⟨earlier, earlierAt, id⟩
  refine ⟨renumbered.length.trans isSettled.length, ?_, ?_, ?_, ?_, ?_, ?_, ?_⟩
  · intro position before now beforeAt nowAt
    obtain ⟨earlier, earlierAt, same⟩ := renumbered.getElem? nowAt
    rw [same]
    exact isSettled.oldPos position before earlier beforeAt earlierAt
  · intro position now found live
    obtain ⟨earlier, earlierAt, same⟩ := renumbered.getElem? found
    have operands : payload placed position now = payload settled position earlier :=
      renumbered.payload same
    rw [same] at live
    have whole := isSettled.whole position earlier earlierAt live
    refine ⟨?_, ?_, ?_⟩
    · rw [operands, same]
      exact whole.rawLen
    · rw [operands, same]
      exact whole.operands
    · rw [same]
      exact whole.jump
  · intro position now target found goes
    obtain ⟨earlier, earlierAt, same⟩ := renumbered.getElem? found
    rw [same] at goes
    rw [renumbered.length]
    exact isSettled.targets position earlier target earlierAt goes
  · intro position now found isFused
    obtain ⟨earlier, earlierAt, same⟩ := renumbered.getElem? found
    rw [same] at isFused
    obtain ⟨head, insn, before, headAt, live, between⟩ :=
      isSettled.heads position earlier earlierAt isFused
    obtain ⟨headNow, headNowAt, headSame⟩ := renumbered.symm.getElem? headAt
    refine ⟨head, headNow, before, headNowAt, ?_, ?_⟩
    · rw [headSame] at live
      exact live
    · intro middle after upTo other otherAt
      obtain ⟨otherEarlier, otherEarlierAt, otherSame⟩ := renumbered.getElem? otherAt
      rw [otherSame]
      exact between middle after upTo otherEarlier otherEarlierAt
  · intro position before now beforeAt nowAt isPush
    obtain ⟨earlier, earlierAt, same⟩ := renumbered.getElem? nowAt
    obtain ⟨sameOp, sameRaw, shaped, goes⟩ :=
      isSettled.push position before earlier beforeAt earlierAt isPush
    rw [same]
    exact ⟨sameOp, sameRaw, ⟨shaped.rawLen, shaped.ownLen, shaped.operands, shaped.jump,
      shaped.resolved, shaped.plain⟩, goes⟩
  · intro position before now beforeAt nowAt isPinned
    obtain ⟨earlier, earlierAt, same⟩ := renumbered.getElem? nowAt
    obtain ⟨live, jump, five, start, target, starts, goes, follows, image⟩ :=
      isSettled.entry position before earlier beforeAt earlierAt isPinned
    rw [same]
    refine ⟨live, jump, five, start, target, starts, goes, follows.mono more, ?_⟩
    intro between other after upTo otherAt
    rw [renumbered.skipDeleted] at upTo
    obtain ⟨otherEarlier, otherEarlierAt, otherSame⟩ := renumbered.getElem? otherAt
    rw [otherSame]
    exact image between otherEarlier after upTo otherEarlierAt
  · rw [renumbered.liveLength]
    exact isSettled.shrinks

theorem jrelPos_last {op : Opcode} (jumps : op.jrelPos ≠ 0) :
    opndLen op.operands = some (op.jrelPos + 3) := by
  cases op <;> first | rfl | exact absurd rfl jumps

theorem length_i32Bytes (value : Int) : (i32Bytes value).length = 4 := rfl

theorem readI32_i32Bytes {value : Int} (low : -2 ^ 31 ≤ value) (high : value < 2 ^ 31) :
    readI32 (i32Bytes value) 0 = value := by
  have word : ∀ count : Nat, count < 2 ^ 32 → ((UInt8.ofNat (count / 2 ^ 24)).toNat * 2 ^ 8 +
        (UInt8.ofNat (count / 2 ^ 16)).toNat) * 2 ^ 16 +
        ((UInt8.ofNat (count / 2 ^ 8)).toNat * 2 ^ 8 + (UInt8.ofNat count).toNat) =
        count := by
    intro count small
    simp only [UInt8.toNat_ofNat']
    omega
  have small : (value % 2 ^ 32).toNat < 2 ^ 32 := by omega
  unfold readI32 readU16 i32Bytes
  simp only [List.getD_cons_zero, List.getD_cons_succ]
  rw [word _ small]
  unfold toInt32
  split
  · omega
  · omega

theorem readI32_local (before bytes after : List UInt8) (four : bytes.length = 4) :
    readI32 (before ++ (bytes ++ after)) before.length = readI32 bytes 0 := by
  have within (offset : Nat) (inside : offset < 4) :
      (before ++ (bytes ++ after)).getD (before.length + offset) 0 = bytes.getD offset 0 := by
    rw [List.getD_append_right _ _ _ _ (Nat.le_add_right _ _), Nat.add_sub_cancel_left,
      List.getD_append _ _ _ _ (by omega)]
  have first := within 0 (by decide)
  have second := within 1 (by decide)
  have third := within 2 (by decide)
  have fourth := within 3 (by decide)
  unfold readI32 readU16
  simp only [Nat.add_assoc, Nat.add_zero, Nat.zero_add] at first second third fourth ⊢
  rw [first, second, third, fourth]

/-- The operands the encoder writes for an instruction. -/
def emittedOperands (code : List Insn) (index : Nat) (insn : Insn) : List UInt8 :=
  match insn.jumpTarget with
  | none => payload code index insn
  | some target =>
      writeI32 (payload code index insn) (insn.op.jrelPos - 1)
        (landingPos code target - (insn.newPos + insn.rawLen : Nat))

theorem length_writeI32 {bytes : List UInt8} {position : Nat}
    (inside : position + 4 ≤ bytes.length) (value : Int) :
    (writeI32 bytes position value).length = bytes.length := by
  unfold writeI32
  rw [List.length_append, List.length_append, List.length_take, List.length_drop, length_i32Bytes]
  omega

namespace Whole

variable {code : List Insn} {index : Nat} {insn : Insn}

theorem jrelPos_le (whole : Whole constants code index insn) (jumps : insn.op.jrelPos ≠ 0) :
    insn.op.jrelPos - 1 + 4 = (payload code index insn).length := by
  have operands := whole.operands []
  rw [operandLength_fixed (jrelPos_last jumps)] at operands
  have length := Option.some.inj operands
  omega

theorem emitInsn_eq (whole : Whole constants code index insn) :
    emitInsn code index insn = insn.op.byte :: emittedOperands code index insn := by
  unfold emitInsn emittedOperands
  dsimp only
  cases goes : insn.jumpTarget with
  | none => rfl
  | some target =>
      have jumps : insn.op.jrelPos ≠ 0 := whole.jump.mp (by rw [goes]; rfl)
      obtain ⟨position, positionEq⟩ := Nat.exists_eq_succ_of_ne_zero jumps
      rw [positionEq]
      rfl

theorem length_emitted (whole : Whole constants code index insn) :
    (emittedOperands code index insn).length = (payload code index insn).length := by
  unfold emittedOperands
  cases goes : insn.jumpTarget with
  | none => rfl
  | some target =>
      have jumps : insn.op.jrelPos ≠ 0 := whole.jump.mp (by rw [goes]; rfl)
      exact length_writeI32 (Nat.le_of_eq (whole.jrelPos_le jumps)) _

theorem operandLength_emitted (whole : Whole constants code index insn) (following : List UInt8) :
    operandLength constants insn.op (emittedOperands code index insn ++ following) =
      some (emittedOperands code index insn).length := by
  rw [whole.length_emitted]
  cases goes : insn.jumpTarget with
  | none =>
      rw [show emittedOperands code index insn = payload code index insn by
        rw [emittedOperands, goes]]
      exact whole.operands following
  | some target =>
      have jumps : insn.op.jrelPos ≠ 0 := whole.jump.mp (by rw [goes]; rfl)
      have fixed := jrelPos_last jumps
      have operands := whole.operands []
      rw [operandLength_fixed fixed] at operands
      rw [operandLength_fixed fixed, ← operands]

theorem readI32_emitted (whole : Whole constants code index insn) {target : Nat}
    (goes : insn.jumpTarget = some target)
    (low : -2 ^ 31 ≤ (landingPos code target : Int) - (insn.newPos + insn.rawLen : Nat))
    (high : (landingPos code target : Int) - (insn.newPos + insn.rawLen : Nat) < 2 ^ 31) :
    readI32 (emittedOperands code index insn) (insn.op.jrelPos - 1) =
      (landingPos code target : Int) - (insn.newPos + insn.rawLen : Nat) := by
  have jumps : insn.op.jrelPos ≠ 0 := whole.jump.mp (by rw [goes]; rfl)
  have inside := whole.jrelPos_le jumps
  have takeLength : ((payload code index insn).take (insn.op.jrelPos - 1)).length =
      insn.op.jrelPos - 1 := List.length_take_of_le (by omega)
  have bytes := readI32_local ((payload code index insn).take (insn.op.jrelPos - 1))
    (i32Bytes (landingPos code target - (insn.newPos + insn.rawLen : Nat)))
    ((payload code index insn).drop (insn.op.jrelPos - 1 + 4)) rfl
  rw [takeLength, readI32_i32Bytes low high] at bytes
  rw [emittedOperands, goes]
  dsimp only [writeI32]
  rw [List.append_assoc]
  exact bytes

end Whole

/-- The bytes of the instructions of `rest`, which stand in `code` from `start`
on. -/
def emitFrom (code rest : List Insn) (start : Nat) : List UInt8 :=
  (rest.zipIdx start).flatMap fun (insn, index) =>
    if insn.deleted then [] else emitInsn code index insn

/-- The instructions that decoding finds in them. -/
def reread (code rest : List Insn) (start : Nat) : List Insn :=
  (rest.zipIdx start).filterMap fun (insn, index) =>
    if insn.deleted then none
    else some (.decoded insn.newPos insn.op (emittedOperands code index insn))

theorem decode_emitFrom {code rest : List Insn} {start position fuel : Nat}
    (whole : ∀ (index : Nat) (insn : Insn), rest[index]? = some insn →
      insn.deleted = false → Whole constants code (start + index) insn ∧
        insn.newPos = position + liveLength (rest.take index))
    (enough : (emitFrom code rest start).length ≤ fuel) :
    decodeInsns constants fuel position (emitFrom code rest start) = some (reread code rest start) ∧
    (emitFrom code rest start).length = liveLength rest := by
  induction rest generalizing start position fuel with
  | nil =>
      refine ⟨?_, rfl⟩
      cases fuel <;> rfl
  | cons insn later induction =>
      have laterWhole (advance : Nat) (advanceEq : advance = insn.liveLen) :
          ∀ (index : Nat) (other : Insn), later[index]? = some other →
            other.deleted = false → Whole constants code (start + 1 + index) other ∧
              other.newPos = position + advance + liveLength (later.take index) := by
        intro index other found live
        obtain ⟨otherWhole, placed⟩ := whole (index + 1) other found live
        rw [Nat.add_right_comm, Nat.add_assoc start index 1]
        refine ⟨otherWhole, ?_⟩
        rw [placed, advanceEq]
        simp only [liveLength, List.take_succ_cons, List.map_cons, List.sum_cons]
        omega
      have total : liveLength (insn :: later) = insn.liveLen + liveLength later := by
        simp only [liveLength, List.map_cons, List.sum_cons]
      cases live : insn.deleted with
      | true =>
          have noBytes : emitFrom code (insn :: later) start = emitFrom code later (start + 1) := by
            simp [emitFrom, List.zipIdx_cons, live]
          have noInsn : reread code (insn :: later) start = reread code later (start + 1) := by
            simp [reread, List.zipIdx_cons, live]
          have noLength : insn.liveLen = 0 := by
            rw [Insn.liveLen, live]
            rfl
          rw [noBytes] at enough ⊢
          rw [noInsn, total, noLength, Nat.zero_add]
          exact induction (laterWhole 0 noLength.symm) enough
      | false =>
          have headWhole : Whole constants code start insn := (whole 0 insn rfl live).1
          have position_eq : insn.newPos = position := (whole 0 insn rfl live).2
          have headLen : insn.liveLen = 1 + (emittedOperands code start insn).length := by
            rw [liveLen_of_live live, headWhole.rawLen, ← headWhole.length_emitted]
          have bytes : emitFrom code (insn :: later) start = insn.op.byte ::
              (emittedOperands code start insn ++ emitFrom code later (start + 1)) := by
            have first : emitInsn code start insn = _ := headWhole.emitInsn_eq
            simp [emitFrom, List.zipIdx_cons, live, first]
          have insns : reread code (insn :: later) start =
              .decoded insn.newPos insn.op (emittedOperands code start insn) ::
                reread code later (start + 1) := by
            simp [reread, List.zipIdx_cons, live]
          rw [bytes] at enough ⊢
          rw [List.length_cons, List.length_append] at enough
          obtain ⟨fuel, rfl⟩ := Nat.exists_eq_succ_of_ne_zero (show fuel ≠ 0 by omega)
          have fits : (emitFrom code later (start + 1)).length ≤ fuel := by omega
          obtain ⟨laterDecodes, laterLength⟩ := induction (laterWhole _ headLen.symm) fits
          have operands := headWhole.operandLength_emitted (emitFrom code later (start + 1))
          constructor
          · rw [insns, position_eq]
            unfold decodeInsns
            dsimp only [Option.bind_eq_bind]
            rw [Opcode.ofByte_byte, Option.bind_some]
            rw [show operandLength constants insn.op _ = _ from operands, Option.bind_some]
            rw [if_neg (by rw [List.length_append]; omega), List.drop_left, List.take_left,
              Nat.add_assoc, laterDecodes, Option.bind_some]
          · rw [List.length_cons, List.length_append, laterLength, total, headLen]
            omega

end ClAmiga.Peephole
