import ClAmiga.Peephole.EncodeSpec

/-!
# The pass fails safe and keeps the landing tables

Either nothing is touched, or the bytes written are again a function body: they
decode to their very end and every jump in them lands on an instruction.  The
dispatch of `HANDLER-CASE` computes the address of a clause's jump from the
landing position, five bytes to an entry; the pass keeps these jumps in their
row.
-/

namespace ClAmiga.Peephole

variable {constants : Pool}

theorem liveLength_take_succ {code : List Insn} {index : Nat} {insn : Insn}
    (found : code[index]? = some insn) :
    liveLength (code.take (index + 1)) = liveLength (code.take index) + insn.liveLen := by
  unfold liveLength
  rw [List.take_add_one, found, Option.toList_some, List.map_append, List.sum_append,
    List.map_singleton, List.sum_singleton]

theorem liveLength_take_mono (code : List Insn) {first second : Nat} (before : first ≤ second) :
    liveLength (code.take first) ≤ liveLength (code.take second) := by
  obtain ⟨gap, rfl⟩ := Nat.exists_eq_add_of_le before
  unfold liveLength
  rw [List.take_add, List.map_append, List.sum_append]
  exact Nat.le_add_right _ _

theorem liveLength_take_of_deleted {code : List Insn} {first second : Nat} (before : first ≤ second)
    (deleted : ∀ (position : Nat) (insn : Insn), first ≤ position → position < second →
      code[position]? = some insn → insn.deleted = true) :
    liveLength (code.take second) = liveLength (code.take first) := by
  induction second, before using Nat.le_induction with
  | base => rfl
  | succ second after induction =>
      have earlier := induction fun position insn low high =>
        deleted position insn low (Nat.lt_succ_of_lt high)
      cases found : code[second]? with
      | none => rw [List.take_add_one, found, Option.toList_none, List.append_nil, earlier]
      | some insn =>
          have gone := deleted second insn after (Nat.lt_succ_self second) found
          rw [liveLength_take_succ found, earlier, Insn.liveLen, gone, if_pos rfl, Nat.add_zero]

theorem liveLength_take_skipDeleted (code : List Insn) (index : Nat) :
    liveLength (code.take (skipDeleted code index)) = liveLength (code.take index) :=
  liveLength_take_of_deleted le_skipDeleted fun _ _ after before found =>
    deleted_of_skipped after before found

theorem liveLength_take_le (code : List Insn) (index : Nat) :
    liveLength (code.take index) ≤ liveLength code := by
  have whole := liveLength_take_mono code (Nat.le_max_left index code.length)
  rwa [List.take_of_length_le (Nat.le_max_right index code.length)] at whole

/-- The list as it is written out: settled, small, every live instruction at the
place where the bytes before it end, and every live jump lands. -/
structure Placed (constants : Pool) (decoded placed : List Insn) : Prop where
  settled : Settled constants decoded placed
  newPos : ∀ (position : Nat) (now : Insn), placed[position]? = some now →
    now.deleted = false → now.newPos = liveLength (placed.take position)
  lands : ∀ (position : Nat) (now : Insn) (target : Nat), placed[position]? = some now →
    now.deleted = false → now.jumpTarget = some target →
    skipDeleted placed target < placed.length
  small : liveLength placed ≤ peepholeMaxCode

theorem Settled.placed {decoded settled : List Insn} (isSettled : Settled constants decoded settled)
    (small : (decoded.map Insn.rawLen).sum ≤ peepholeMaxCode)
    (lands : jumpsLand settled = true) :
    Placed constants decoded (assignPositions 0 settled) := by
  have renumbered := assignPositions_renumbered 0 settled
  refine ⟨isSettled.renumber renumbered, ?_, ?_, ?_⟩
  · intro position now found live
    have sameLength : liveLength ((assignPositions 0 settled).take position) =
        liveLength (settled.take position) :=
      Renumbered.liveLength (List.forall₂_take position renumbered)
    rw [assignPositions_getElem?, Option.map_eq_some_iff] at found
    obtain ⟨earlier, _, same⟩ := found
    rw [sameLength]
    split at same
    · rename_i gone
      rw [← same, gone] at live
      cases live
    · rw [← same]
      exact Nat.zero_add _
  · intro position now target found live goes
    obtain ⟨earlier, earlierAt, same⟩ := renumbered.getElem? found
    rw [same] at live goes
    have landsHere := List.all_eq_true.mp lands earlier (List.mem_of_getElem? earlierAt)
    rw [show earlier.deleted = false from live,
      show earlier.jumpTarget = some target from goes] at landsHere
    rw [renumbered.skipDeleted, renumbered.length]
    simpa using landsHere
  · rw [renumbered.liveLength]
    exact isSettled.shrinks.trans small

theorem rewritten_placed {env : Environment} {code : List UInt8} {settled : List Insn}
    (succeeded : rewritten env constants code = some settled) :
    ∃ decoded, peepDecode constants code = some decoded ∧
      (decoded.map Insn.rawLen).sum = code.length ∧
      Placed constants decoded (assignPositions 0 settled) := by
  obtain ⟨small, lands, decoded, decodes, isSettled⟩ := rewritten_settled succeeded
  have total := (peepDecode_decoded decodes).total
  exact ⟨decoded, decodes, total, isSettled.placed (by omega) lands⟩

variable {position : Nat}

namespace Placed

variable {decoded placed : List Insn}

theorem whole (isPlaced : Placed constants decoded placed) {now : Insn}
    (found : placed[position]? = some now) (live : now.deleted = false) :
    Whole constants placed position now :=
  isPlaced.settled.whole position now found live

theorem end_le (isPlaced : Placed constants decoded placed) {now : Insn}
    (found : placed[position]? = some now) (live : now.deleted = false) :
    now.newPos + now.rawLen ≤ peepholeMaxCode := by
  have ends := liveLength_take_succ found
  rw [← isPlaced.newPos position now found live, liveLen_of_live live] at ends
  have within := liveLength_take_le placed (position + 1)
  have small := isPlaced.small
  omega

theorem jump_lands (isPlaced : Placed constants decoded placed) {position target : Nat}
    {now : Insn} (found : placed[position]? = some now) (live : now.deleted = false)
    (goes : now.jumpTarget = some target) :
    ∃ landing, placed[skipDeleted placed target]? = some landing ∧ landing.deleted = false ∧
      (landing.newPos : Int) = (now.newPos + now.rawLen : Nat) +
        readI32 (emittedOperands placed position now) (now.op.jrelPos - 1) := by
  have inside := isPlaced.lands position now target found live goes
  have landingAt := List.getElem?_eq_getElem inside
  have landingLive := live_of_skipDeleted landingAt
  have landingEnd := isPlaced.end_le landingAt landingLive
  have nowEnd := isPlaced.end_le found live
  unfold peepholeMaxCode at landingEnd nowEnd
  have landingPosEq : landingPos placed target = (placed[skipDeleted placed target]).newPos := by
    rw [landingPos, landingAt]
    rfl
  refine ⟨_, landingAt, landingLive, ?_⟩
  rw [(isPlaced.whole found live).readI32_emitted goes (by omega) (by omega), landingPosEq]
  omega

theorem decode_emit (isPlaced : Placed constants decoded placed) :
    decodeInsns constants (emit placed).length 0 (emit placed) = some (reread placed placed 0) ∧
      (emit placed).length = liveLength placed := by
  apply decode_emitFrom _ (Nat.le_refl _)
  intro index insn found live
  rw [Nat.zero_add, Nat.zero_add]
  exact ⟨isPlaced.whole found live, isPlaced.newPos index insn found live⟩

end Placed

theorem mem_reread {placed : List Insn} {insn : Insn} :
    insn ∈ reread placed placed 0 ↔ ∃ (index : Nat) (now : Insn),
      placed[index]? = some now ∧ now.deleted = false ∧
      insn = .decoded now.newPos now.op (emittedOperands placed index now) := by
  simp only [reread, List.mem_filterMap, Prod.exists, List.mem_zipIdx_iff_getElem?,
    Option.ite_none_left_eq_some, Bool.not_eq_true, Option.some.injEq]
  constructor
  · rintro ⟨now, index, found, live, rfl⟩
    exact ⟨index, now, found, live, rfl⟩
  · rintro ⟨index, now, found, live, rfl⟩
    exact ⟨now, index, found, live, rfl⟩

/-- Some instruction of the list starts where the jump or landing operand of
`insn` leads. -/
def Lands (insns : List Insn) (insn : Insn) : Prop :=
  ∃ target ∈ insns, (target.oldPos : Int) =
    (insn.oldPos + insn.rawLen : Nat) + readI32 insn.raw (insn.op.jrelPos - 1)

theorem Placed.reread_lands {decoded placed : List Insn}
    (isPlaced : Placed constants decoded placed) {insn : Insn}
    (member : insn ∈ reread placed placed 0) (jumps : insn.op.jrelPos ≠ 0) :
    Lands (reread placed placed 0) insn := by
  obtain ⟨index, now, found, live, rfl⟩ := mem_reread.mp member
  have whole := isPlaced.whole found live
  obtain ⟨target, goes⟩ := Option.isSome_iff_exists.mp (whole.jump.mpr jumps)
  obtain ⟨landing, landingAt, landingLive, reaches⟩ := isPlaced.jump_lands found live goes
  refine ⟨_, mem_reread.mpr ⟨_, landing, landingAt, landingLive, rfl⟩, ?_⟩
  have rawLen : 1 + (emittedOperands placed index now).length = now.rawLen := by
    rw [whole.length_emitted]
    exact whole.rawLen.symm
  dsimp only [Insn.decoded]
  rw [rawLen]
  exact reaches

/-- `cl_peephole_run` either leaves code and line map alone, or leaves code no
longer than before that decodes to its end and whose jumps, branches and landing
offsets all lead to instructions. -/
theorem peephole_fails_safe (env : Environment) (constants : Pool) (buffers : Buffers) :
    ((peepholeRun env constants buffers).1 = 0 ∨ (peepholeRun env constants buffers).1 = 1) ∧
    ((peepholeRun env constants buffers).1 = 0 → (peepholeRun env constants buffers).2 = buffers) ∧
    ((peepholeRun env constants buffers).1 = 1 →
      let written := (peepholeRun env constants buffers).2.code
      written.length ≤ buffers.code.length ∧
      ∃ insns, decodeInsns constants written.length 0 written = some insns ∧
        (insns.map Insn.rawLen).sum = written.length ∧
        ∀ insn ∈ insns, insn.op.jrelPos ≠ 0 → Lands insns insn) := by
  unfold peepholeRun
  cases succeeded : rewritten env constants buffers.code with
  | none => exact ⟨Or.inl rfl, fun _ => rfl, fun one => (by cases one)⟩
  | some settled =>
      obtain ⟨decoded, _, total, isPlaced⟩ := rewritten_placed succeeded
      obtain ⟨decodes, length⟩ := isPlaced.decode_emit
      have shrinks := isPlaced.settled.shrinks
      refine ⟨Or.inr rfl, fun zero => (by cases zero), fun _ => ⟨?_, _, decodes, ?_, ?_⟩⟩
      · dsimp only
        omega
      · exact (decodeInsns_shaped decodes).2.1
      · intro insn member jumps
        exact isPlaced.reread_lands member jumps

/-- The list `cl_peephole_run` writes out for a decoded one. -/
def encoded (env : Environment) (decoded : List Insn) : List Insn :=
  assignPositions 0 (rewrite env.fuseEnabled decoded).1

/-- Among the written instructions there is a jump of five bytes at `position`.
It leads to the image of the instruction that the decoded jump `before` led to:
past what is gone, and perhaps through further jumps. -/
def EntryWritten (decoded placed written : List Insn) (before : Insn) (position : Nat) :
    Prop :=
  ∃ entry ∈ written, entry.oldPos = position ∧ entry.op = .opJmp ∧ entry.rawLen = 5 ∧
    ∃ start target destination, before.jumpTarget = some start ∧
      Follows decoded placed start target ∧ HasImage placed target ∧
      placed[skipDeleted placed target]? = some destination ∧
      destination.deleted = false ∧
      (destination.newPos : Int) = (entry.oldPos + entry.rawLen : Nat) +
        readI32 entry.raw (entry.op.jrelPos - 1)

/-- Among the written instructions there is the one at `position` that pushes a
landing table of `count` entries which starts at `base`. -/
def PushWritten (constants : Pool) (written : List Insn) (position count base : Nat) :
    Prop :=
  ∃ push ∈ written, push.oldPos = position ∧ push.op = .opHandlerCasePush ∧
    push.tableLength constants = some count ∧
    (base : Int) = (push.oldPos + push.rawLen : Nat) +
      readI32 push.raw (push.op.jrelPos - 1)

namespace Placed

variable {decoded placed : List Insn}

theorem writtenLen (isPlaced : Placed constants decoded placed)
    {now : Insn} (found : placed[position]? = some now) (live : now.deleted = false) :
    1 + (emittedOperands placed position now).length = now.rawLen := by
  have whole := isPlaced.whole found live
  rw [whole.length_emitted, whole.rawLen]

theorem entry_newPos (isPlaced : Placed constants decoded placed) {landing count : Nat}
    (pinned : ∀ entry, entry < count → ∃ before : Insn,
      decoded[landing + entry]? = some before ∧ before.pinned = true)
    {entry : Nat} (within : entry ≤ count) :
    liveLength (placed.take (landing + entry)) = liveLength (placed.take landing) + 5 * entry := by
  induction entry with
  | zero => rfl
  | succ entry induction =>
      obtain ⟨before, beforeAt, isPinned⟩ := pinned entry within
      have inside := (List.getElem?_eq_some_iff.mp beforeAt).1
      rw [← isPlaced.settled.length] at inside
      have nowAt := List.getElem?_eq_getElem inside
      obtain ⟨live, _, five, _⟩ :=
        isPlaced.settled.entry (landing + entry) before _ beforeAt nowAt isPinned
      rw [← Nat.add_assoc, liveLength_take_succ nowAt, induction (Nat.le_of_succ_le within),
        liveLen_of_live live, five]
      omega

theorem entryWritten (isPlaced : Placed constants decoded placed)
    {before : Insn} (beforeAt : decoded[position]? = some before)
    (isPinned : before.pinned = true) :
    EntryWritten decoded placed (reread placed placed 0) before
      (liveLength (placed.take position)) := by
  have inside := (List.getElem?_eq_some_iff.mp beforeAt).1
  rw [← isPlaced.settled.length] at inside
  have nowAt := List.getElem?_eq_getElem inside
  obtain ⟨live, jump, five, start, target, starts, goes, follows, image⟩ :=
    isPlaced.settled.entry position before _ beforeAt nowAt isPinned
  have rawLen := isPlaced.writtenLen nowAt live
  obtain ⟨destination, destinationAt, destinationLive, leads⟩ :=
    isPlaced.jump_lands nowAt live goes
  refine ⟨_, mem_reread.mpr ⟨position, _, nowAt, live, rfl⟩,
    isPlaced.newPos position _ nowAt live, jump, rawLen.trans five, start, target,
    destination, starts, follows, image, destinationAt, destinationLive, ?_⟩
  dsimp only [Insn.decoded]
  rw [rawLen]
  exact leads

theorem tableLength_emitted (isPlaced : Placed constants decoded placed)
    {now : Insn} (found : placed[position]? = some now) (live : now.deleted = false)
    (isPush : now.op = .opHandlerCasePush) (shaped : now.Shaped constants) :
    (Insn.decoded now.newPos now.op (emittedOperands placed position now)).tableLength
      constants = now.tableLength constants := by
  have whole := isPlaced.whole found live
  have six : now.ownLen = 6 := shaped.ownLen_eq (by rw [isPush]; rfl)
  have sameConstant : readU16 (emittedOperands placed position now) 0 = readU16 now.raw 0 := by
    have goes := whole.jump.mpr (by rw [isPush]; decide)
    obtain ⟨target, goes⟩ := Option.isSome_iff_exists.mp goes
    have long := shaped.ownLen
    rw [emittedOperands, goes, shaped.payload_eq found, isPush, six]
    dsimp only [writeI32, Opcode.jrelPos, Opcode.operands, opndJrelPos]
    rw [List.take_take, List.append_assoc,
      readU16_append (by rw [List.length_take]; omega), readU16_take (by decide)]
  simp only [Insn.tableLength, Insn.decoded, sameConstant]

theorem pushWritten (isPlaced : Placed constants decoded placed)
    {before now : Insn} {count landing : Nat} (beforeAt : decoded[position]? = some before)
    (isPush : before.op = .opHandlerCasePush)
    (length : before.tableLength constants = some count)
    (lands : before.jumpTarget = some landing) (nowAt : placed[position]? = some now)
    (live : now.deleted = false) :
    PushWritten constants (reread placed placed 0) now.newPos count
      (liveLength (placed.take landing)) := by
  obtain ⟨nowPush, sameRaw, shaped, sameTarget⟩ :=
    isPlaced.settled.push position before now beforeAt nowAt isPush
  obtain ⟨first, firstAt, firstLive, leads⟩ :=
    isPlaced.jump_lands nowAt live ((sameTarget live).trans lands)
  have start := isPlaced.newPos _ first firstAt firstLive
  rw [liveLength_take_skipDeleted] at start
  refine ⟨_, mem_reread.mpr ⟨position, now, nowAt, live, rfl⟩, rfl, nowPush, ?_, ?_⟩
  · rw [isPlaced.tableLength_emitted nowAt live nowPush shaped, ← length]
    simp only [Insn.tableLength, sameRaw]
  · dsimp only [Insn.decoded]
    rw [isPlaced.writtenLen nowAt live, ← start]
    exact leads

end Placed

theorem accepted_placed {env : Environment} {buffers : Buffers} {decoded : List Insn}
    (decodes : peepDecode constants buffers.code = some decoded)
    (accepted : (peepholeRun env constants buffers).1 = 1) :
    Placed constants decoded (encoded env decoded) ∧
      (peepholeRun env constants buffers).2.code = emit (encoded env decoded) ∧
      (peepholeRun env constants buffers).2.lines =
        buffers.lines.map (encodeLines (encoded env decoded)) := by
  unfold peepholeRun at accepted ⊢
  cases succeeded : rewritten env constants buffers.code with
  | none =>
      rw [succeeded] at accepted
      cases accepted
  | some settled =>
      obtain ⟨decodedHere, decodesHere, _, isPlaced⟩ := rewritten_placed succeeded
      rw [decodes] at decodesHere
      cases decodesHere
      simp only [rewritten, decodes, Option.bind_eq_bind, Option.bind_some,
        Option.ite_none_left_eq_some, Option.some.injEq] at succeeded
      obtain ⟨_, _, settledEq⟩ := succeeded
      rw [encoded, settledEq]
      exact ⟨isPlaced, rfl, rfl⟩

/-- In the code that was written every landing table of the decoded list is a row
of jumps, each five bytes after the one before and as many as there were; each
leads to the image of its target.  A pushing instruction that is still there
leads to the first of them. -/
theorem landing_tables_kept (env : Environment) (constants : Pool) (buffers : Buffers)
    (decoded : List Insn) (decodes : peepDecode constants buffers.code = some decoded)
    (accepted : (peepholeRun env constants buffers).1 = 1) :
    let code := (peepholeRun env constants buffers).2.code
    let placed := encoded env decoded
    ∃ written, decodeInsns constants code.length 0 code = some written ∧
      ∀ (index : Nat) (push : Insn), decoded[index]? = some push → push.op = .opHandlerCasePush →
        ∃ count landing base, push.tableLength constants = some count ∧
          push.jumpTarget = some landing ∧
          (∀ entry, entry < count → ∃ before, decoded[landing + entry]? = some before ∧
            EntryWritten decoded placed written before (base + 5 * entry)) ∧
          ∀ now : Insn, placed[index]? = some now → now.deleted = false →
            PushWritten constants written now.newPos count base := by
  obtain ⟨isPlaced, codeEq, _⟩ := accepted_placed decodes accepted
  dsimp only
  rw [codeEq]
  refine ⟨_, isPlaced.decode_emit.1, ?_⟩
  intro index push pushAt isPush
  obtain ⟨count, landing, length, lands, _, pinned⟩ :=
    (peepDecode_decoded decodes).tables index push pushAt isPush
  refine ⟨count, landing, liveLength ((encoded env decoded).take landing), length, lands, ?_, ?_⟩
  · intro entry within
    obtain ⟨before, beforeAt, isPinned⟩ := pinned entry within
    refine ⟨before, beforeAt, ?_⟩
    rw [← isPlaced.entry_newPos pinned (Nat.le_of_lt within)]
    exact isPlaced.entryWritten beforeAt isPinned
  · intro now nowAt live
    exact isPlaced.pushWritten pushAt isPush length lands nowAt live

/-- A constant with two clause types. -/
def twoClauses : Pool :=
  some [.cons .other (.cons .other .nil), .nil, .nil]

/-- Two clauses under a useless `NIL`, `POP`. -/
def twoClauseCode : Buffers where
  code := [0xB0, 0, 0, 0, 0, 0, 5, 0x81, 0x10, 0x81, 0xB1, 0x72, 0x60, 0, 0, 0, 5,
    0x60, 0, 0, 0, 5, 0x10, 0x01, 0, 1, 0x72, 0x10, 0x01, 0, 2, 0x72]
  lines := none

/-- A push with two clauses keeps both entries of its table. -/
theorem landing_tables_kept_two : ∃ written base, decodeInsns twoClauses 30 0
        (peepholeRun {} twoClauses twoClauseCode).2.code = some written ∧
      PushWritten twoClauses written 0 2 base := by
  have decodes : peepDecode twoClauses twoClauseCode.code =
      some ((peepDecode twoClauses twoClauseCode.code).getD []) := by decide +kernel
  obtain ⟨written, decoded, tables⟩ :=
    landing_tables_kept {} twoClauses twoClauseCode _ decodes (by decide +kernel)
  obtain ⟨push, pushAt, isPush, two⟩ :
      ∃ push, ((peepDecode twoClauses twoClauseCode.code).getD [])[0]? = some push ∧
        push.op = .opHandlerCasePush ∧ push.tableLength twoClauses = some 2 :=
    ⟨_, Option.eq_some_of_isSome (by decide +kernel), by decide +kernel, by decide +kernel⟩
  obtain ⟨count, landing, base, length, _, _, pushed⟩ := tables 0 push pushAt isPush
  rw [two] at length
  cases length
  have written30 : (peepholeRun {} twoClauses twoClauseCode).2.code.length = 30 := by
    decide +kernel
  rw [written30] at decoded
  refine ⟨written, base, decoded, ?_⟩
  have stays : ∃ now, (encoded {}
      ((peepDecode twoClauses twoClauseCode.code).getD []))[0]? = some now ∧
        now.deleted = false ∧ now.newPos = 0 :=
    ⟨_, Option.eq_some_of_isSome (by decide +kernel), by decide +kernel, by decide +kernel⟩
  obtain ⟨now, nowAt, live, first⟩ := stays
  rw [← first]
  exact pushed now nowAt live

end ClAmiga.Peephole
