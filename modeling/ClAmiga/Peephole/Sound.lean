import ClAmiga.Peephole.DecodeSpec
import ClAmiga.Peephole.Edits

/-!
# What the rewriting keeps

Compared with the decoded list, a rewritten one has the same instructions in the
same places, some deleted and some shortened to one byte, and every jump goes
where the decoded one went, past deleted instructions and through jumps.
-/

namespace ClAmiga.Peephole

variable {constants : Pool}

/-- Removed by a rewrite, and not absorbed by an instruction before it. -/
def Insn.Gone (insn : Insn) : Prop :=
  insn.deleted = true ∧ insn.fused = false

theorem Insn.Gone.not_live {insn : Insn} (gone : insn.Gone) : insn.deleted ≠ false := by
  rw [gone.1]
  decide

/-- A jump to `start` ends at `finish` as well: what lies between is gone, or a
decoded jump leads on. -/
inductive Follows (decoded current : List Insn) : Nat → Nat → Prop
  | refl (position : Nat) : Follows decoded current position position
  | hop {start middle jumpAt finish : Nat} {jump : Insn} :
      Follows decoded current start middle → middle ≤ jumpAt →
      (∀ position, middle ≤ position → position < jumpAt →
        ∀ insn : Insn, current[position]? = some insn → insn.Gone) →
      decoded[jumpAt]? = some jump → jump.op = .opJmp →
      jump.jumpTarget = some finish → Follows decoded current start finish

theorem Follows.trans {decoded current : List Insn} {first second third : Nat}
    (follows : Follows decoded current first second)
    (further : Follows decoded current second third) :
    Follows decoded current first third := by
  induction further with
  | refl => exact follows
  | hop _ after skipped jumpAt isJump goes induction =>
      exact .hop induction after skipped jumpAt isJump goes

theorem Follows.mono {decoded current later : List Insn} {start finish : Nat}
    (more : ∀ (position : Nat) (insn : Insn), later[position]? = some insn →
      ∃ earlier : Insn, current[position]? = some earlier ∧ (earlier.Gone → insn.Gone))
    (follows : Follows decoded current start finish) :
    Follows decoded later start finish := by
  induction follows with
  | refl => exact .refl _
  | hop _ after skipped jumpAt isJump goes induction =>
      refine .hop induction after ?_ jumpAt isJump goes
      intro position after before insn found
      obtain ⟨earlier, earlierAt, stays⟩ := more position insn found
      exact stays (skipped position after before earlier earlierAt)

/-- What an instruction still has in common with the decoded one. -/
structure Kept (constants : Pool) (decoded current : Insn) : Prop where
  oldPos : current.oldPos = decoded.oldPos
  raw : current.raw = decoded.raw
  samePinned : current.pinned = decoded.pinned
  rawLen : current.rawLen ≤ decoded.rawLen
  shaped : current.Shaped constants
  jump : current.op = .opJmp → decoded.op = .opJmp
  push : decoded.op = .opHandlerCasePush → current.op = .opHandlerCasePush ∧
    (current.deleted = false → current.jumpTarget = decoded.jumpTarget)
  entry : decoded.pinned = true →
    current.deleted = false ∧ current.op = .opJmp ∧ current.rawLen = 5

structure Sound (constants : Pool) (decoded current : List Insn) : Prop where
  length : current.length = decoded.length
  kept : ∀ (index : Nat) (before now : Insn), decoded[index]? = some before →
    current[index]? = some now → Kept constants before now
  targets : ∀ (index : Nat) (now : Insn) (target : Nat), current[index]? = some now →
    now.jumpTarget = some target → target < current.length
  follows : ∀ (index : Nat) (before now : Insn) (target : Nat),
    decoded[index]? = some before → current[index]? = some now →
    now.jumpTarget = some target →
    ∃ start, before.jumpTarget = some start ∧ Follows decoded current start target

theorem Decoded.sound {length : Nat} {insns : List Insn}
    (decoded : Decoded constants length insns) : Sound constants insns insns := by
  refine ⟨rfl, ?_, ?_, ?_⟩
  · intro index before now beforeAt nowAt
    rw [beforeAt] at nowAt
    cases nowAt
    have member := List.mem_of_getElem? beforeAt
    refine ⟨rfl, rfl, rfl, Nat.le_refl _, decoded.shaped _ member, id,
      fun push => ⟨push, fun _ => rfl⟩, ?_⟩
    intro isPinned
    exact ⟨decoded.live _ member, decoded.pinned _ member isPinned⟩
  · intro index now target found
    exact decoded.targets now (List.mem_of_getElem? found) target
  · intro index before now target beforeAt nowAt goes
    rw [beforeAt] at nowAt
    cases nowAt
    exact ⟨target, goes, .refl _⟩

theorem opcode_oneByte {op : Opcode} {raw : List UInt8}
    (plain : op = .opRet ∨ op = .opMvReset) (following : List UInt8) :
    operandLength constants op (raw.take 0 ++ following) = some 0 := by
  rcases plain with rfl | rfl
  · rfl
  · rfl

theorem Insn.Shaped.edit {code : List Insn} {insn changed : Insn}
    (shaped : insn.Shaped constants) (edit : Edit code insn changed) :
    changed.Shaped constants := by
  cases edit with
  | remove =>
      exact ⟨shaped.rawLen, shaped.ownLen, shaped.operands, shaped.jump,
        fun live => (by cases live), shaped.plain⟩
  | drop =>
      exact ⟨shaped.rawLen, shaped.ownLen, shaped.operands, fun goes => (by cases goes),
        fun live => (by cases live), shaped.plain⟩
  | toReturn =>
      exact ⟨rfl, Nat.zero_le _, opcode_oneByte (Or.inl rfl), fun goes => (by cases goes),
        fun _ jump => absurd rfl jump, shaped.plain⟩
  | storeToReset live store =>
      have noTarget : insn.jumpTarget.isSome = true → False := by
        intro goes
        have jump := shaped.jump goes
        rw [store] at jump
        exact jump rfl
      exact ⟨rfl, Nat.zero_le _, opcode_oneByte (Or.inr rfl),
        fun goes => absurd goes noTarget, fun _ jump => absurd rfl jump, shaped.plain⟩
  | notToReset live not =>
      have noTarget : insn.jumpTarget.isSome = true → False := by
        intro goes
        have jump := shaped.jump goes
        rw [not] at jump
        exact jump rfl
      have noOperands : insn.ownLen = 0 := by
        have operands := shaped.operands []
        rw [not] at operands
        exact (Option.some.inj operands).symm
      refine ⟨shaped.rawLen, shaped.ownLen, ?_, fun goes => absurd goes noTarget,
        fun _ jump => absurd rfl jump, shaped.plain⟩
      intro following
      dsimp only
      rw [noOperands]
      exact opcode_oneByte (Or.inr rfl) following
  | flip branch flipped =>
      rename_i op
      have fourBytes : insn.ownLen = 4 := by
        have operands := shaped.operands []
        rcases branch with isJnil | isJtrue
        · rw [isJnil] at operands
          exact (Option.some.inj operands).symm
        · rw [isJtrue] at operands
          exact (Option.some.inj operands).symm
      have jumps : insn.op.jrelPos ≠ 0 := by
        rcases branch with isJnil | isJtrue
        · rw [isJnil]
          decide
        · rw [isJtrue]
          decide
      have flippedJumps : op.jrelPos ≠ 0 := by
        rcases flipped with rfl | rfl
        · decide
        · decide
      refine ⟨shaped.rawLen, shaped.ownLen, ?_, fun _ => flippedJumps,
        fun live _ => shaped.resolved live jumps, shaped.plain⟩
      intro following
      dsimp only
      rw [fourBytes]
      rcases flipped with rfl | rfl
      · rfl
      · rfl
  | thread branch goes =>
      have jumps : insn.op.jrelPos ≠ 0 := shaped.jump (by rw [goes]; rfl)
      exact ⟨shaped.rawLen, shaped.ownLen, shaped.operands, fun _ => jumps,
        fun _ _ => rfl, shaped.plain⟩

theorem Kept.edit {code : List Insn} {before now changed : Insn}
    (kept : Kept constants before now) (edit : Edit code now changed) :
    Kept constants before changed := by
  have shaped := kept.shaped.edit edit
  have oneByte : 1 ≤ before.rawLen := by
    have nowLen := kept.shaped.rawLen
    have le := kept.rawLen
    omega
  -- A pinned entry is a live jump, so only threading applies to it.
  have notEntry (other : now.op ≠ .opJmp ∨ now.pinned = false) : before.pinned = true → False := by
    intro isPinned
    rcases other with notJump | free
    · exact notJump (kept.entry isPinned).2.1
    · rw [kept.samePinned, isPinned] at free
      cases free
  have notPush {op : Opcode} (isOp : now.op = op) (other : op ≠ .opHandlerCasePush) :
      before.op = .opHandlerCasePush → False := by
    intro push
    exact other (isOp.symm.trans (kept.push push).1)
  cases edit with
  | remove notJump =>
      exact ⟨kept.oldPos, kept.raw, kept.samePinned, kept.rawLen, shaped, kept.jump,
        fun push => ⟨(kept.push push).1, fun live => (by cases live)⟩,
        fun isPinned => (notEntry (Or.inl notJump) isPinned).elim⟩
  | drop free =>
      exact ⟨kept.oldPos, kept.raw, kept.samePinned, kept.rawLen, shaped, kept.jump,
        fun push => ⟨(kept.push push).1, fun live => (by cases live)⟩,
        fun isPinned => (notEntry (Or.inr free) isPinned).elim⟩
  | toReturn isJump free =>
      exact ⟨kept.oldPos, kept.raw, kept.samePinned, oneByte, shaped,
        fun jump => (by cases jump),
        fun push => (notPush isJump (by decide) push).elim,
        fun isPinned => (notEntry (Or.inr free) isPinned).elim⟩
  | storeToReset live store =>
      exact ⟨kept.oldPos, kept.raw, kept.samePinned, oneByte, shaped,
        fun jump => (by cases jump),
        fun push => (notPush store (by decide) push).elim,
        fun isPinned => (notEntry (Or.inl (by simp [store])) isPinned).elim⟩
  | notToReset live not =>
      exact ⟨kept.oldPos, kept.raw, kept.samePinned, kept.rawLen, shaped,
        fun jump => (by cases jump),
        fun push => (notPush not (by decide) push).elim,
        fun isPinned => (notEntry (Or.inl (by simp [not])) isPinned).elim⟩
  | flip branch flipped =>
      have notJump : now.op ≠ .opJmp := by
        rcases branch with isJnil | isJtrue
        · simp [isJnil]
        · simp [isJtrue]
      refine ⟨kept.oldPos, kept.raw, kept.samePinned, kept.rawLen, shaped, ?_, ?_,
        fun isPinned => (notEntry (Or.inl notJump) isPinned).elim⟩
      · rcases flipped with rfl | rfl
        · exact fun jump => (by cases jump)
        · exact fun jump => (by cases jump)
      · intro push
        rcases branch with isJnil | isJtrue
        · exact (notPush isJnil (by decide) push).elim
        · exact (notPush isJtrue (by decide) push).elim
  | thread branch =>
      refine ⟨kept.oldPos, kept.raw, kept.samePinned, kept.rawLen, shaped, kept.jump, ?_,
        kept.entry⟩
      intro push
      rcases branch with isJmp | isJnil | isJtrue
      · exact (notPush isJmp (by decide) push).elim
      · exact (notPush isJnil (by decide) push).elim
      · exact (notPush isJtrue (by decide) push).elim

theorem getElem?_set_cases {code : List Insn} {index position : Nat}
    {changed insn : Insn} (found : (code.set index changed)[position]? = some insn) :
    (position = index ∧ insn = changed) ∨ code[position]? = some insn := by
  rw [List.getElem?_set] at found
  split at found
  · rename_i same
    split at found
    · exact Or.inl ⟨same.symm, (Option.some.inj found).symm⟩
    · simp at found
  · exact Or.inr found

theorem Edit.target {code : List Insn} {insn changed : Insn} {target : Nat}
    (edit : Edit code insn changed) (goes : changed.jumpTarget = some target) :
    insn.jumpTarget = some target ∨ ∃ through landing, insn.jumpTarget = some through ∧
      code[skipDeleted code through]? = some landing ∧ landing.op = .opJmp ∧
      landing.jumpTarget = some target := by
  cases edit with
  | remove => exact Or.inl goes
  | drop => cases goes
  | toReturn => cases goes
  | storeToReset => exact Or.inl goes
  | notToReset => exact Or.inl goes
  | flip => exact Or.inl goes
  | thread _ through lands jump onward =>
      cases goes
      exact Or.inr ⟨_, _, through, lands, jump, onward⟩

theorem Sound.edit {decoded current : List Insn} {index : Nat} {insn changed : Insn}
    (sound : Sound constants decoded current) (found : current[index]? = some insn)
    (edit : Edit current insn changed) :
    Sound constants decoded (current.set index changed) := by
  have more : ∀ (position : Nat) (later : Insn),
      (current.set index changed)[position]? = some later →
      ∃ earlier : Insn, current[position]? = some earlier ∧ (earlier.Gone → later.Gone) := by
    intro position later laterAt
    rcases getElem?_set_cases laterAt with ⟨rfl, rfl⟩ | same
    · refine ⟨insn, found, fun gone => ⟨edit.flags.2.2.2 gone.1, ?_⟩⟩
      rw [edit.flags.2.2.1]
      exact gone.2
    · exact ⟨later, same, id⟩
  have followed {position target : Nat} {before now : Insn}
      (beforeAt : decoded[position]? = some before)
      (nowAt : current[position]? = some now) (goes : now.jumpTarget = some target) :
      ∃ start, before.jumpTarget = some start ∧
        Follows decoded (current.set index changed) start target := by
    obtain ⟨start, starts, follows⟩ :=
      sound.follows position before now target beforeAt nowAt goes
    exact ⟨start, starts, follows.mono more⟩
  refine ⟨by rw [List.length_set]; exact sound.length, ?_, ?_, ?_⟩
  · intro position before now beforeAt nowAt
    rcases getElem?_set_cases nowAt with ⟨rfl, rfl⟩ | same
    · exact (sound.kept position before insn beforeAt found).edit edit
    · exact sound.kept position before now beforeAt same
  · intro position now target nowAt goes
    rw [List.length_set]
    rcases getElem?_set_cases nowAt with ⟨rfl, rfl⟩ | same
    · rcases edit.target goes with goes | ⟨_, landing, _, landingAt, _, onward⟩
      · exact sound.targets position insn target found goes
      · exact sound.targets _ landing target landingAt onward
    · exact sound.targets position now target same goes
  · intro position before now target beforeAt nowAt goes
    rcases getElem?_set_cases nowAt with ⟨rfl, rfl⟩ | same
    · rcases edit.target goes with goes | ⟨through, landing, goes, landingAt, jump, onward⟩
      · exact followed beforeAt found goes
      · obtain ⟨start, starts, follows⟩ := followed beforeAt found goes
        obtain ⟨decodedLanding, decodedAt⟩ :
            ∃ other, decoded[skipDeleted current through]? = some other := by
          have inside := (List.getElem?_eq_some_iff.mp landingAt).1
          rw [sound.length] at inside
          exact ⟨_, List.getElem?_eq_getElem inside⟩
        obtain ⟨middle, leads, further⟩ := followed decodedAt landingAt onward
        have isJump := (sound.kept _ _ _ decodedAt landingAt).jump jump
        refine ⟨start, starts, .trans (.hop follows le_skipDeleted ?_ decodedAt isJump
          leads) further⟩
        intro skipped after before later laterAt
        obtain ⟨earlier, earlierAt, stays⟩ := more skipped later laterAt
        have inside := (List.getElem?_eq_some_iff.mp earlierAt).1
        rw [sound.length] at inside
        have kept := sound.kept skipped _ earlier (List.getElem?_eq_getElem inside) earlierAt
        exact stays ⟨deleted_of_skipped after before earlierAt, kept.shaped.plain.2.2⟩
    · exact followed beforeAt same goes

theorem Sound.mark {decoded current : List Insn} (sound : Sound constants decoded current) :
    Sound constants decoded (markTargets current) := by
  have marked {position : Nat} {insn : Insn}
      (found : (markTargets current)[position]? = some insn) :
      ∃ earlier, current[position]? = some earlier ∧
        insn = { earlier with target := insn.target } := by
    simp only [markTargets, List.getElem?_mapIdx, Option.map_eq_some_iff] at found
    obtain ⟨earlier, earlierAt, rfl⟩ := found
    exact ⟨earlier, earlierAt, rfl⟩
  have more : ∀ (position : Nat) (later : Insn), (markTargets current)[position]? = some later →
      ∃ earlier : Insn, current[position]? = some earlier ∧ (earlier.Gone → later.Gone) := by
    intro position later laterAt
    obtain ⟨earlier, earlierAt, same⟩ := marked laterAt
    rw [same]
    exact ⟨earlier, earlierAt, id⟩
  refine ⟨by rw [markTargets, List.length_mapIdx]; exact sound.length, ?_, ?_, ?_⟩
  · intro index before now beforeAt nowAt
    obtain ⟨earlier, earlierAt, same⟩ := marked nowAt
    have kept := sound.kept index before earlier beforeAt earlierAt
    rw [same]
    exact ⟨kept.oldPos, kept.raw, kept.samePinned, kept.rawLen,
      ⟨kept.shaped.rawLen, kept.shaped.ownLen, kept.shaped.operands, kept.shaped.jump,
        kept.shaped.resolved, kept.shaped.plain⟩, kept.jump, kept.push, kept.entry⟩
  · intro index now target nowAt goes
    obtain ⟨earlier, earlierAt, same⟩ := marked nowAt
    rw [same] at goes
    rw [markTargets, List.length_mapIdx]
    exact sound.targets index earlier target earlierAt goes
  · intro index before now target beforeAt nowAt goes
    obtain ⟨earlier, earlierAt, same⟩ := marked nowAt
    rw [same] at goes
    obtain ⟨start, starts, follows⟩ :=
      sound.follows index before earlier target beforeAt earlierAt goes
    exact ⟨start, starts, follows.mono more⟩

theorem Sound.rewrites {decoded current later : List Insn}
    (sound : Sound constants decoded current) (rewrites : Rewrites current later) :
    Sound constants decoded later := by
  induction rewrites with
  | refl => exact sound
  | edit _ found edit induction => exact induction.edit found edit
  | mark _ induction => exact induction.mark

end ClAmiga.Peephole
