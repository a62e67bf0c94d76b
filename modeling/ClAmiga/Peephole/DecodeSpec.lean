import Mathlib.Data.List.GetD
import Mathlib.Data.List.Forall2
import ClAmiga.Peephole.Decode

/-!
# What decoding establishes

A decoded list lies end to end over the code, every instruction has the shape of
its opcode, jumps hold the index of an instruction, and landing tables are
pinned.
-/

namespace ClAmiga.Peephole

variable {constants : Pool}

/-- The lengths of the instructions fit their opcode, and exactly the opcodes
with a jump operand have a target. -/
structure Insn.Shaped (constants : Pool) (insn : Insn) : Prop where
  rawLen : insn.rawLen = 1 + insn.ownLen
  ownLen : insn.ownLen ≤ insn.raw.length
  operands : ∀ following,
    operandLength constants insn.op (insn.raw.take insn.ownLen ++ following) =
      some insn.ownLen
  jump : insn.jumpTarget.isSome = true → insn.op.jrelPos ≠ 0
  resolved : insn.deleted = false → insn.op.jrelPos ≠ 0 →
    insn.jumpTarget.isSome = true
  plain : insn.fusedWith = none ∧ insn.synth = none ∧ insn.fused = false

/-- The instructions follow each other from `position` on. -/
def Laid : Nat → List Insn → Prop
  | _, [] => True
  | position, insn :: later =>
      insn.oldPos = position ∧ 0 < insn.rawLen ∧ Laid (position + insn.rawLen) later

theorem readU16_append {bytes following : List UInt8} {position : Nat}
    (inside : position + 2 ≤ bytes.length) :
    readU16 (bytes ++ following) position = readU16 bytes position := by
  unfold readU16
  rw [List.getD_append _ _ _ _ (by omega), List.getD_append _ _ _ _ (by omega)]

theorem readU16_take {bytes : List UInt8} {position count : Nat} (inside : position + 2 ≤ count) :
    readU16 (bytes.take count) position = readU16 bytes position := by
  unfold readU16
  simp only [List.getD_eq_getElem?_getD]
  rw [List.getElem?_take_of_lt (by omega), List.getElem?_take_of_lt (by omega)]

theorem operandLength_local {op : Opcode} {following : List UInt8} {count : Nat}
    (known : operandLength constants op following = some count)
    (enough : count ≤ following.length) (other : List UInt8) :
    operandLength constants op (following.take count ++ other) = some count := by
  unfold operandLength at known ⊢
  split at known
  · exact known
  · split at known
    · simp at known
    · simp only [Option.bind_eq_bind, Option.bind_eq_some_iff] at known
      obtain ⟨pool, poolEq, template⟩ := known
      split at template
      · rename_i nUpvalues entry
        cases template
        rw [if_neg (by rw [List.length_append, List.length_take]; omega), poolEq]
        dsimp only [Option.bind_eq_bind, Option.bind_some]
        rw [readU16_append (by rw [List.length_take]; omega), readU16_take (by omega), entry]
      · simp at template

theorem decodeInsns_shaped {fuel ip : Nat} {code : List UInt8} {insns : List Insn}
    (decoded : decodeInsns constants fuel ip code = some insns) :
    Laid ip insns ∧ (insns.map Insn.rawLen).sum = code.length ∧
      ∀ insn ∈ insns, insn = .decoded insn.oldPos insn.op insn.raw ∧
        ∀ following, operandLength constants insn.op (insn.raw ++ following) =
          some insn.raw.length := by
  induction fuel generalizing ip code insns with
  | zero =>
      cases code with
      | nil =>
          cases decoded
          exact ⟨trivial, rfl, by simp⟩
      | cons byte following => simp [decodeInsns] at decoded
  | succ fuel induction =>
      cases code with
      | nil =>
          cases decoded
          exact ⟨trivial, rfl, by simp⟩
      | cons byte following =>
          simp only [decodeInsns, Option.bind_eq_bind, Option.bind_eq_some_iff,
            Option.ite_none_left_eq_some, Option.some.injEq] at decoded
          obtain ⟨op, _, count, length, enough, later, rest, rfl⟩ := decoded
          rw [Nat.not_lt] at enough
          obtain ⟨laid, total, shaped⟩ := induction rest
          have taken : (following.take count).length = count :=
            List.length_take_of_le enough
          refine ⟨⟨rfl, ?_, ?_⟩, ?_, ?_⟩
          · dsimp only [Insn.decoded]
            omega
          · dsimp only [Insn.decoded]
            rw [taken, ← Nat.add_assoc]
            exact laid
          · rw [List.map_cons, List.sum_cons, total]
            dsimp only [Insn.decoded]
            rw [taken, List.length_drop, List.length_cons]
            omega
          · intro insn member
            rcases List.mem_cons.mp member with rfl | later
            · refine ⟨rfl, ?_⟩
              intro other
              dsimp only [Insn.decoded]
              rw [taken]
              exact operandLength_local length enough other
            · exact shaped insn later

theorem indexOfPosBetween_some {insns : List Insn} {position fuel lo hi index : Nat}
    (found : indexOfPosBetween insns position fuel lo hi = some index) :
    ∃ insn, insns[index]? = some insn ∧ insn.oldPos = position := by
  induction fuel generalizing lo hi with
  | zero => simp [indexOfPosBetween] at found
  | succ fuel induction =>
      unfold indexOfPosBetween at found
      split at found
      · dsimp only at found
        split at found
        · simp at found
        · rename_i insn atMiddle
          split at found
          · rename_i same
            cases found
            exact ⟨insn, atMiddle, same⟩
          · split at found
            · exact induction found
            · exact induction found
      · simp at found

theorem resolve_eq_some {insns : List Insn} {len : Nat} {insn resolved : Insn}
    (succeeded : resolve insns len insn = some resolved) :
    (insn.op.jrelPos = 0 ∧ resolved = insn) ∨ (insn.op.jrelPos ≠ 0 ∧ ∃ target destination,
        resolved = { insn with jumpTarget := some target } ∧
          insns[target]? = some destination ∧ destination.oldPos = insn.jumpPos) := by
  unfold resolve at succeeded
  split at succeeded
  · rename_i plain
    cases succeeded
    exact Or.inl ⟨plain, rfl⟩
  · rename_i jump
    split at succeeded
    · simp at succeeded
    · simp only [Option.bind_eq_bind, Option.bind_eq_some_iff, Option.some.injEq] at succeeded
      obtain ⟨target, found, rfl⟩ := succeeded
      obtain ⟨destination, atTarget, position⟩ := indexOfPosBetween_some found
      exact Or.inr ⟨jump, target, destination, rfl, atTarget, position⟩

theorem forall₂_of_mapM {Source Result : Type} {f : Source → Option Result}
    {sources : List Source} {results : List Result}
    (mapped : sources.mapM f = some results) :
    List.Forall₂ (fun source result => f source = some result) sources results := by
  induction sources generalizing results with
  | nil =>
      cases mapped
      exact .nil
  | cons source later induction =>
      simp only [List.mapM_cons, Option.bind_eq_bind, Option.bind_eq_some_iff,
        Option.pure_def, Option.some.injEq] at mapped
      obtain ⟨result, first, results, rest, rfl⟩ := mapped
      exact .cons first (induction rest)

theorem forall₂_getElem? {Source Result : Type} {relation : Source → Result → Prop}
    {sources : List Source} {results : List Result}
    (related : List.Forall₂ relation sources results) {index : Nat} {result : Result}
    (found : results[index]? = some result) :
    ∃ source, sources[index]? = some source ∧ relation source result := by
  induction related generalizing index with
  | nil => simp at found
  | cons head _ induction =>
      cases index with
      | zero =>
          cases found
          exact ⟨_, rfl, head⟩
      | succ index => exact induction found

/-- A loop that only pins jumps of five bytes. -/
def Pins (before after : List Insn) : Prop :=
  List.Forall₂ (fun insn changed => changed = insn ∨
    (changed = { insn with pinned := true } ∧ insn.op = .opJmp ∧ insn.rawLen = 5))
    before after

theorem Pins.refl (insns : List Insn) : Pins insns insns :=
  List.forall₂_same.mpr fun _ _ => Or.inl rfl

theorem Pins.trans {first second third : List Insn} (pins : Pins first second)
    (further : Pins second third) : Pins first third := by
  induction pins generalizing third with
  | nil => exact further
  | cons head _ induction =>
      cases further with
      | cons next later =>
          refine .cons ?_ (induction later)
          rcases next with rfl | ⟨rfl, jump, length⟩
          · exact head
          · rcases head with rfl | ⟨rfl, jump, length⟩
            · exact Or.inr ⟨rfl, jump, length⟩
            · exact Or.inr ⟨rfl, jump, length⟩

theorem Pins.getElem? {before after : List Insn} (pins : Pins before after)
    {index : Nat} {insn : Insn} (found : before[index]? = some insn) :
    ∃ changed, after[index]? = some changed ∧ changed.op = insn.op ∧
      changed.raw = insn.raw ∧ changed.jumpTarget = insn.jumpTarget ∧
      (insn.pinned = true → changed.pinned = true) := by
  obtain ⟨changed, atIndex, kept⟩ := forall₂_getElem? pins.flip found
  rcases kept with rfl | ⟨rfl, _⟩
  · exact ⟨_, atIndex, rfl, rfl, rfl, id⟩
  · exact ⟨_, atIndex, rfl, rfl, rfl, fun _ => rfl⟩

variable {insns changed : List Insn}

theorem pinEntry_pins {index : Nat} (pinned : pinEntry insns index = some changed) :
    Pins insns changed ∧ ∃ entry, changed[index]? = some entry ∧ entry.pinned = true := by
  simp only [pinEntry, Option.bind_eq_bind, Option.bind_eq_some_iff,
    Option.ite_none_right_eq_some, Option.some.injEq] at pinned
  obtain ⟨entry, found, ⟨jump, length⟩, rfl⟩ := pinned
  obtain ⟨inside, rfl⟩ := List.getElem?_eq_some_iff.mp found
  constructor
  · rw [Pins, List.forall₂_iff_get]
    refine ⟨(List.length_set ..).symm, ?_⟩
    intro other otherInside _
    simp only [List.get_eq_getElem, List.getElem_set]
    split
    · rename_i same
      subst same
      exact Or.inr ⟨rfl, jump, length⟩
    · exact Or.inl rfl
  · exact ⟨_, List.getElem?_set_self inside, rfl⟩

theorem pinEntries {indices : List Nat} (pinned : indices.foldlM pinEntry insns = some changed) :
    Pins insns changed ∧ ∀ index ∈ indices, ∃ entry,
      changed[index]? = some entry ∧ entry.pinned = true := by
  induction indices generalizing insns with
  | nil =>
      cases pinned
      exact ⟨.refl _, by simp⟩
  | cons index later induction =>
      simp only [List.foldlM_cons, Option.bind_eq_bind, Option.bind_eq_some_iff] at pinned
      obtain ⟨next, first, rest⟩ := pinned
      obtain ⟨pins, entry, entryAt, isPinned⟩ := pinEntry_pins first
      obtain ⟨further, all⟩ := induction rest
      refine ⟨pins.trans further, ?_⟩
      intro other member
      rcases List.mem_cons.mp member with rfl | inLater
      · obtain ⟨kept, keptAt, _, _, _, keptPinned⟩ := further.getElem? entryAt
        exact ⟨kept, keptAt, keptPinned isPinned⟩
      · exact all other inLater

/-- The instruction at `index` pushes no table, or its table is pinned. -/
def HasTable (constants : Pool) (insns : List Insn) (index : Nat) : Prop :=
  ∀ insn, insns[index]? = some insn → insn.op = .opHandlerCasePush →
    ∃ count landing, insn.tableLength constants = some count ∧
      insn.jumpTarget = some landing ∧ landing + count ≤ insns.length ∧
      ∀ entry, entry < count → ∃ pinned,
        insns[landing + entry]? = some pinned ∧ pinned.pinned = true

theorem HasTable.pins {before after : List Insn} {index : Nat}
    (table : HasTable constants before index) (pins : Pins before after) :
    HasTable constants after index := by
  intro changed found push
  obtain ⟨insn, atIndex, kept⟩ := forall₂_getElem? pins found
  have same : insn.op = changed.op ∧ insn.raw = changed.raw ∧
      insn.jumpTarget = changed.jumpTarget := by
    rcases kept with rfl | ⟨rfl, _⟩
    · exact ⟨rfl, rfl, rfl⟩
    · exact ⟨rfl, rfl, rfl⟩
  obtain ⟨count, landing, length, target, inside, entries⟩ :=
    table insn atIndex (same.1 ▸ push)
  refine ⟨count, landing, ?_, same.2.2 ▸ target, ?_, ?_⟩
  · rw [← length]
    simp only [Insn.tableLength, same.2.1]
  · rw [← pins.length_eq]
    exact inside
  · intro entry small
    obtain ⟨pinned, pinnedAt, isPinned⟩ := entries entry small
    obtain ⟨later, laterAt, _, _, _, laterPinned⟩ := pins.getElem? pinnedAt
    exact ⟨later, laterAt, laterPinned isPinned⟩

theorem pinTable_pins {index : Nat} (pinned : pinTable constants insns index = some changed) :
    Pins insns changed ∧ HasTable constants changed index := by
  simp only [pinTable, Option.bind_eq_bind, Option.bind_eq_some_iff] at pinned
  obtain ⟨insn, found, pinned⟩ := pinned
  split at pinned
  · rename_i other
    cases pinned
    refine ⟨.refl _, ?_⟩
    intro push pushAt isPush
    rw [found] at pushAt
    cases pushAt
    exact absurd isPush other
  · simp only [Option.bind_eq_some_iff, Option.ite_none_left_eq_some] at pinned
    obtain ⟨count, length, landing, target, inside, pinned⟩ := pinned
    rw [Nat.not_lt] at inside
    obtain ⟨pins, all⟩ := pinEntries pinned
    refine ⟨pins, ?_⟩
    intro push pushAt _
    obtain ⟨kept, keptAt, opEq, rawEq, targetEq, _⟩ := pins.getElem? found
    rw [pushAt] at keptAt
    cases keptAt
    refine ⟨count, landing, ?_, targetEq ▸ target, pins.length_eq ▸ inside, ?_⟩
    · rw [← length]
      simp only [Insn.tableLength, rawEq]
    · intro entry small
      exact all _ (List.mem_range'_1.mpr ⟨by omega, by omega⟩)

theorem pinTables {indices : List Nat}
    (pinned : indices.foldlM (pinTable constants) insns = some changed) :
    Pins insns changed ∧ ∀ index ∈ indices, HasTable constants changed index := by
  induction indices generalizing insns with
  | nil =>
      cases pinned
      exact ⟨.refl _, by simp⟩
  | cons index later induction =>
      simp only [List.foldlM_cons, Option.bind_eq_bind, Option.bind_eq_some_iff] at pinned
      obtain ⟨next, first, rest⟩ := pinned
      obtain ⟨pins, table⟩ := pinTable_pins first
      obtain ⟨further, all⟩ := induction rest
      refine ⟨pins.trans further, ?_⟩
      intro other member
      rcases List.mem_cons.mp member with rfl | inLater
      · exact table.pins further
      · exact all other inLater

/-- What the rewriting starts from. -/
structure Decoded (constants : Pool) (length : Nat) (insns : List Insn) : Prop where
  laid : Laid 0 insns
  total : (insns.map Insn.rawLen).sum = length
  shaped : ∀ insn ∈ insns, insn.Shaped constants
  live : ∀ insn ∈ insns, insn.deleted = false
  targets : ∀ insn ∈ insns, ∀ target, insn.jumpTarget = some target →
    target < insns.length
  pinned : ∀ insn ∈ insns, insn.pinned = true → insn.op = .opJmp ∧ insn.rawLen = 5
  tables : ∀ index, HasTable constants insns index

theorem Laid.congr {position : Nat} {insns others : List Insn}
    (same : List.Forall₂ (fun insn other => other.oldPos = insn.oldPos ∧
      other.rawLen = insn.rawLen) insns others) (laid : Laid position insns) :
    Laid position others := by
  induction same generalizing position with
  | nil => exact laid
  | cons head _ induction =>
      obtain ⟨positionEq, positive, later⟩ := laid
      refine ⟨head.1.trans positionEq, by rw [head.2]; exact positive, ?_⟩
      rw [head.2]
      exact induction later

theorem map_rawLen_congr {insns others : List Insn}
    (same : List.Forall₂ (fun insn other => other.oldPos = insn.oldPos ∧
      other.rawLen = insn.rawLen) insns others) :
    others.map Insn.rawLen = insns.map Insn.rawLen := by
  induction same with
  | nil => rfl
  | cons head _ induction => rw [List.map_cons, List.map_cons, head.2, induction]

theorem Insn.Shaped.pin {insn : Insn} (shaped : insn.Shaped constants) :
    { insn with pinned := true }.Shaped constants :=
  ⟨shaped.rawLen, shaped.ownLen, shaped.operands, shaped.jump, shaped.resolved, shaped.plain⟩

theorem resolve_shaped {insns : List Insn} {length : Nat} {insn resolved : Insn}
    (fresh : insn = .decoded insn.oldPos insn.op insn.raw)
    (operands : ∀ following, operandLength constants insn.op (insn.raw ++ following) =
      some insn.raw.length)
    (succeeded : resolve insns length insn = some resolved) :
    resolved.Shaped constants := by
  have shaped {jumpTarget : Option Nat} (agrees : jumpTarget.isSome = true ↔ insn.op.jrelPos ≠ 0) :
      { insn with jumpTarget := jumpTarget }.Shaped constants := by
    rw [fresh]
    refine ⟨rfl, Nat.le_refl _, ?_, agrees.mp, fun _ => agrees.mpr, rfl, rfl, rfl⟩
    intro following
    dsimp only [Insn.decoded]
    rw [List.take_length]
    exact operands following
  rcases resolve_eq_some succeeded with ⟨plain, rfl⟩ | ⟨jump, target, _, rfl, _⟩
  · have noTarget : resolved.jumpTarget = none := by
      rw [fresh]
      rfl
    rw [← show { resolved with jumpTarget := none } = resolved by rw [← noTarget]]
    exact shaped (by simp [plain])
  · exact shaped (by simp [jump])

theorem peepDecode_decoded {code : List UInt8} {insns : List Insn}
    (succeeded : peepDecode constants code = some insns) :
    Decoded constants code.length insns := by
  simp only [peepDecode, Option.bind_eq_bind, Option.bind_eq_some_iff] at succeeded
  obtain ⟨fresh, decoded, resolved, mapped, pinned⟩ := succeeded
  obtain ⟨laid, total, shaped⟩ := decodeInsns_shaped decoded
  have resolving := forall₂_of_mapM mapped
  obtain ⟨pins, tables⟩ := pinTables pinned
  have length : insns.length = fresh.length := by
    rw [← pins.length_eq, resolving.length_eq]
  have sameResolved : List.Forall₂ (fun insn other => other.oldPos = insn.oldPos ∧
      other.rawLen = insn.rawLen) fresh resolved := by
    apply resolving.imp
    intro insn other succeeded
    rcases resolve_eq_some succeeded with ⟨_, rfl⟩ | ⟨_, _, _, rfl, _⟩
    · exact ⟨rfl, rfl⟩
    · exact ⟨rfl, rfl⟩
  have samePinned : List.Forall₂ (fun insn other => other.oldPos = insn.oldPos ∧
      other.rawLen = insn.rawLen) resolved insns := by
    apply List.Forall₂.imp _ pins
    rintro insn other (rfl | ⟨rfl, _⟩)
    · exact ⟨rfl, rfl⟩
    · exact ⟨rfl, rfl⟩
  -- Where an instruction of the final list comes from.
  have origin {insn : Insn} (member : insn ∈ insns) :
      ∃ start ∈ fresh, ∃ middle, resolve fresh code.length start = some middle ∧
        (insn = middle ∨ (insn = { middle with pinned := true } ∧
          middle.op = .opJmp ∧ middle.rawLen = 5)) := by
    obtain ⟨index, found⟩ := List.mem_iff_getElem?.mp member
    obtain ⟨middle, middleAt, kept⟩ := forall₂_getElem? pins found
    obtain ⟨start, startAt, succeeded⟩ := forall₂_getElem? resolving middleAt
    exact ⟨start, List.mem_of_getElem? startAt, middle, succeeded, kept⟩
  refine ⟨(laid.congr sameResolved).congr samePinned, ?_, ?_, ?_, ?_, ?_, ?_⟩
  · rw [map_rawLen_congr samePinned, map_rawLen_congr sameResolved, total]
  · intro insn member
    obtain ⟨start, inFresh, middle, succeeded, kept⟩ := origin member
    have middleShaped := resolve_shaped (shaped start inFresh).1 (shaped start inFresh).2 succeeded
    rcases kept with rfl | ⟨rfl, _⟩
    · exact middleShaped
    · exact middleShaped.pin
  · intro insn member
    obtain ⟨start, inFresh, middle, succeeded, kept⟩ := origin member
    have startLive : start.deleted = false := by
      rw [(shaped start inFresh).1]
      rfl
    have middleLive : middle.deleted = false := by
      rcases resolve_eq_some succeeded with ⟨_, rfl⟩ | ⟨_, _, _, rfl, _⟩
      · exact startLive
      · exact startLive
    rcases kept with rfl | ⟨rfl, _⟩
    · exact middleLive
    · exact middleLive
  · intro insn member target goes
    obtain ⟨start, inFresh, middle, succeeded, kept⟩ := origin member
    have middleGoes : middle.jumpTarget = some target := by
      rcases kept with rfl | ⟨rfl, _⟩
      · exact goes
      · exact goes
    rw [length]
    rcases resolve_eq_some succeeded with ⟨_, rfl⟩ | ⟨_, _, destination, rfl, atTarget, _⟩
    · rw [(shaped middle inFresh).1] at middleGoes
      cases middleGoes
    · cases middleGoes
      exact (List.getElem?_eq_some_iff.mp atTarget).1
  · intro insn member isPinned
    obtain ⟨start, inFresh, middle, succeeded, kept⟩ := origin member
    rcases kept with rfl | ⟨rfl, jump, five⟩
    · have notPinned : start.pinned = false := by
        rw [(shaped start inFresh).1]
        rfl
      have samePin : insn.pinned = start.pinned := by
        rcases resolve_eq_some succeeded with ⟨_, rfl⟩ | ⟨_, _, _, rfl, _⟩
        · rfl
        · rfl
      rw [samePin, notPinned] at isPinned
      cases isPinned
    · exact ⟨jump, five⟩
  · intro index insn found
    have inside := (List.getElem?_eq_some_iff.mp found).1
    rw [← pins.length_eq] at inside
    exact tables index (List.mem_range.mpr inside) insn found

end ClAmiga.Peephole
