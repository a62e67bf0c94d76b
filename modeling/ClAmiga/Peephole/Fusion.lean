import ClAmiga.Peephole.Sound

/-!
# What fusion builds

A fused instruction stands where its head stood; its operands are those of the
members, whose sum is the operand length of the fused opcode.  The members are
deleted, and everything between a head and its last member is deleted as well.
-/

namespace ClAmiga.Peephole

variable {constants : Pool}

theorem operandLength_fixed {op : Opcode} {count : Nat}
    (fixed : opndLen op.operands = some count) (following : List UInt8) :
    operandLength constants op following = some count := by
  unfold operandLength
  rw [fixed]

variable {insn : Insn} {code : List Insn} {index : Nat}

theorem Insn.Shaped.ownLen_eq (shaped : insn.Shaped constants) {count : Nat}
    (fixed : opndLen insn.op.operands = some count) : insn.ownLen = count := by
  have operands := shaped.operands []
  rw [operandLength_fixed fixed] at operands
  exact (Option.some.inj operands).symm

/-- The opcodes that fusion leaves alone. -/
def Opcode.Stays (op : Opcode) : Prop :=
  op = .opJmp ∨ op = .opHandlerCasePush

/-- The operands of `a`, of `b` and `extra` bytes more are those of the fused
opcode, whose jump operand is that of `b`. -/
structure PairShape (a b fused : Opcode) (extra : Nat) : Prop where
  lengths : ∃ x y, opndLen a.operands = some x ∧ opndLen b.operands = some y ∧
    opndLen fused.operands = some (extra + (x + y))
  noJump : a.jrelPos = 0
  jump : fused.jrelPos ≠ 0 ↔ b.jrelPos ≠ 0
  moves : ¬ a.Stays ∧ ¬ b.Stays

theorem fusedOpcode_shape {a b fused : Opcode} (fuses : fusedOpcode a b = some fused) :
    PairShape a b fused 0 := by
  unfold fusedOpcode at fuses
  split at fuses
  all_goals cases fuses
  all_goals exact ⟨⟨_, _, rfl, rfl, rfl⟩, rfl, by decide, by simp [Opcode.Stays]⟩

theorem cmpBrKind_shape {a b : Opcode} {kind : UInt8} (fuses : cmpBrKind a b = some kind) :
    PairShape a b .opCmpBr 1 := by
  simp only [cmpBrKind, Option.bind_eq_bind, Option.bind_eq_some_iff] at fuses
  obtain ⟨bits, comparison, branch⟩ := fuses
  have noOperands : opndLen a.operands = some 0 ∧ a.jrelPos = 0 ∧ ¬ a.Stays := by
    unfold cmpBrComparison at comparison
    split at comparison
    all_goals cases comparison
    all_goals exact ⟨rfl, rfl, by simp [Opcode.Stays]⟩
  split at branch
  all_goals cases branch
  all_goals exact ⟨⟨0, 4, noOperands.1, rfl, rfl⟩, noOperands.2.1, by decide,
    noOperands.2.2, by simp [Opcode.Stays]⟩

/-- The same for three members. -/
structure TripleShape (a b c fused : Opcode) : Prop where
  lengths : ∃ x y z, opndLen a.operands = some x ∧ opndLen b.operands = some y ∧
    opndLen c.operands = some z ∧ opndLen fused.operands = some (x + (y + z))
  noJump : a.jrelPos = 0 ∧ b.jrelPos = 0
  jump : fused.jrelPos ≠ 0 ↔ c.jrelPos ≠ 0
  moves : ¬ a.Stays ∧ ¬ b.Stays ∧ ¬ c.Stays

theorem fusedOpcode3_shape {a b c fused : Opcode}
    (fuses : fusedOpcode3 a b c = some fused) : TripleShape a b c fused := by
  unfold fusedOpcode3 at fuses
  split at fuses
  all_goals cases fuses
  all_goals exact ⟨⟨_, _, _, rfl, rfl, rfl, rfl⟩, ⟨rfl, rfl⟩, by decide,
    by simp [Opcode.Stays]⟩

def Insn.liveLen (insn : Insn) : Nat :=
  if insn.deleted then 0 else insn.rawLen

def liveLength (code : List Insn) : Nat :=
  (code.map Insn.liveLen).sum

theorem liveLen_of_live (live : insn.deleted = false) : insn.liveLen = insn.rawLen := by
  rw [Insn.liveLen, live]
  rfl

theorem liveLength_set (found : code[index]? = some insn) (changed : Insn) :
    liveLength (code.set index changed) + insn.liveLen = liveLength code + changed.liveLen := by
  unfold liveLength
  induction code generalizing index with
  | nil => simp at found
  | cons head later induction =>
      cases index with
      | zero =>
          cases found
          simp only [List.set_cons_zero, List.map_cons, List.sum_cons]
          omega
      | succ index =>
          have rest := induction found
          simp only [List.set_cons_succ, List.map_cons, List.sum_cons]
          omega

/-- The operands of the instruction at `index` with those of the members chained
to it. -/
def payload (code : List Insn) (index : Nat) (insn : Insn) : List UInt8 :=
  insn.synth.toList ++ memberOperands code code.length (some index)

/-- The instruction at `index` is ready to be encoded. -/
structure Whole (constants : Pool) (code : List Insn) (index : Nat) (insn : Insn) :
    Prop where
  rawLen : insn.rawLen = 1 + (payload code index insn).length
  operands : ∀ following,
    operandLength constants insn.op (payload code index insn ++ following) =
      some (payload code index insn).length
  jump : insn.jumpTarget.isSome = true ↔ insn.op.jrelPos ≠ 0

theorem memberOperands_none (code : List Insn) (fuel : Nat) :
    memberOperands code fuel none = [] := by
  cases fuel <;> rfl

theorem memberOperands_some {index fuel : Nat} (found : code[index]? = some insn) :
    memberOperands code (fuel + 1) (some index) =
      insn.raw.take insn.ownLen ++ memberOperands code fuel insn.fusedWith := by
  rw [memberOperands, found]

theorem Insn.Shaped.length_own (shaped : insn.Shaped constants) :
    (insn.raw.take insn.ownLen).length = insn.ownLen :=
  List.length_take_of_le shaped.ownLen

theorem Insn.Shaped.payload_eq (shaped : insn.Shaped constants) (found : code[index]? = some insn) :
    payload code index insn = insn.raw.take insn.ownLen := by
  have inside := (List.getElem?_eq_some_iff.mp found).1
  unfold payload
  rw [show code.length = code.length - 1 + 1 by omega, memberOperands_some found,
    shaped.plain.1, memberOperands_none, shaped.plain.2.1, List.append_nil]
  rfl

theorem Insn.Shaped.whole (shaped : insn.Shaped constants) (found : code[index]? = some insn)
    (live : insn.deleted = false) : Whole constants code index insn := by
  have alone := shaped.payload_eq found
  refine ⟨?_, ?_, shaped.jump, shaped.resolved live⟩
  · rw [alone, shaped.length_own]
    exact shaped.rawLen
  · intro following
    rw [alone, shaped.length_own]
    exact shaped.operands following

/-- What one fusion does to the list, from its head to its last member. -/
structure Absorbs (constants : Pool) (before after : List Insn) (index last : Nat) :
    Prop where
  order : index < last
  inside : last < before.length
  length : after.length = before.length
  outside : ∀ position, position < index ∨ last < position →
    after[position]? = before[position]?
  same : ∀ (position : Nat) (now : Insn), after[position]? = some now →
    ∃ earlier : Insn, before[position]? = some earlier ∧ now.oldPos = earlier.oldPos ∧
      now.target = earlier.target ∧ (earlier.Gone → now.Gone) ∧
      (earlier.op.Stays → now = earlier) ∧
      ∀ target, now.jumpTarget = some target → ∃ (source : Nat) (other : Insn),
        before[source]? = some other ∧ other.jumpTarget = some target
  head : ∃ insn, after[index]? = some insn ∧ insn.deleted = false ∧
    Whole constants after index insn
  members : ∀ (position : Nat) (now : Insn), index < position → position ≤ last →
    after[position]? = some now → now.deleted = true ∧ now.target = false
  chain : ∀ (position : Nat) (now : Insn) (member : Nat), index ≤ position →
    position ≤ last → after[position]? = some now → now.fusedWith = some member →
    member ≤ last
  fused : ∀ (position : Nat) (now : Insn), index ≤ position → position ≤ last →
    after[position]? = some now → now.fused = true → index < position
  shrinks : liveLength after ≤ liveLength before

/-- An instruction between the head and the last member afterwards: as it was, or
absorbed and chained to a later member. -/
def AbsorbedIn (last : Nat) (earlier now : Insn) : Prop :=
  now = earlier ∨ (¬ earlier.op.Stays ∧ earlier.deleted = false ∧ ∃ link : Option Nat,
    now = { earlier.absorbed with fusedWith := link } ∧
      ∀ member, link = some member → member ≤ last)

/-- The head at `index` has grown and the members behind it are absorbed up to
`last`; `gone` is the length that head and members had. -/
structure Gathered (before after : List Insn) (index last final : Nat) (grown : Insn)
    (gone : Nat) : Prop where
  order : index ≤ last
  length : after.length = before.length
  headAt : after[index]? = some grown
  outside : ∀ position, position < index ∨ last < position →
    after[position]? = before[position]?
  behind : ∀ (position : Nat) (now : Insn), index < position → position ≤ last →
    after[position]? = some now → (now.deleted = true ∧ now.target = false) ∧
      ∃ earlier : Insn, before[position]? = some earlier ∧ AbsorbedIn final earlier now
  live : liveLength after + gone = liveLength before + grown.rawLen

theorem Gathered.head {head : Insn} (final : Nat)
    (grown : Insn) (headAt : code[index]? = some head) (headLive : head.deleted = false)
    (grownLive : grown.deleted = false) :
    Gathered code (code.set index grown) index index final grown head.rawLen := by
  have inside := (List.getElem?_eq_some_iff.mp headAt).1
  have live := liveLength_set headAt grown
  rw [liveLen_of_live headLive, liveLen_of_live grownLive] at live
  exact ⟨Nat.le_refl _, List.length_set, List.getElem?_set_self inside,
    fun position away => List.getElem?_set_ne (by omega),
    fun position now behind upTo => absurd behind (Nat.not_lt.mpr upTo), live⟩

/-- One more member is absorbed: the next live instruction, which may move and is
no target, nor is any deleted one before it. -/
theorem Gathered.absorb {before after : List Insn} {index last final gone : Nat}
    {grown member : Insn} {link : Option Nat}
    (gathered : Gathered before after index last final grown gone)
    (memberAt : before[nextLive before last]? = some member)
    (moves : ¬ member.op.Stays)
    (unmarked : ∀ (position : Nat) (insn : Insn), last < position →
      position ≤ nextLive before last → before[position]? = some insn → insn.target = false)
    (bounded : ∀ further, link = some further → further ≤ final) :
    Gathered before
      (after.set (nextLive before last) { member.absorbed with fusedWith := link }) index
      (nextLive before last) final grown (gone + member.rawLen) := by
  have order : last < nextLive before last := lt_nextLive
  have between : ∀ (position : Nat) (now : Insn), last < position →
      position < nextLive before last → before[position]? = some now →
      now.deleted = true :=
    fun _ _ behind upTo found => deleted_of_skipped behind upTo found
  have memberLive := live_of_skipDeleted memberAt
  have inside := (List.getElem?_eq_some_iff.mp memberAt).1
  generalize nextLive before last = next at *
  have started := gathered.order
  have still : after[next]? = some member := by
    rw [gathered.outside next (Or.inr order)]
    exact memberAt
  have live := liveLength_set still { member.absorbed with fusedWith := link }
  rw [liveLen_of_live memberLive, show Insn.liveLen { member.absorbed with fusedWith := link } = 0
    from rfl] at live
  have total := gathered.live
  refine ⟨by omega, by rw [List.length_set, gathered.length], ?_, ?_, ?_, by omega⟩
  · rw [List.getElem?_set_ne (by omega)]
    exact gathered.headAt
  · intro position away
    rw [List.getElem?_set_ne (by omega)]
    exact gathered.outside position (by omega)
  · intro position now behind upTo found
    by_cases isMember : position = next
    · subst isMember
      rw [List.getElem?_set_self (by rw [gathered.length]; exact inside)] at found
      cases found
      exact ⟨⟨rfl, unmarked position member order upTo memberAt⟩, member, memberAt,
        Or.inr ⟨moves, memberLive, link, rfl, bounded⟩⟩
    · rw [List.getElem?_set_ne (Ne.symm isMember)] at found
      rcases Nat.lt_or_ge last position with further | near
      · rw [gathered.outside position (Or.inr further)] at found
        exact ⟨⟨between position now further (by omega) found,
          unmarked position now further upTo found⟩, now, found, Or.inl rfl⟩
      · exact gathered.behind position now behind near found

/-- A fusion is told by its head and the members gathered behind it. -/
theorem Gathered.absorbs {before after : List Insn} {index last gone : Nat}
    {head grown : Insn} (gathered : Gathered before after index last last grown gone)
    (order : index < last) (inside : last < before.length)
    (plain : ∀ (position : Nat) (insn : Insn), index ≤ position →
      before[position]? = some insn → insn.Shaped constants)
    (headAt : before[index]? = some head) (headLive : head.deleted = false)
    (headMoves : ¬ head.op.Stays)
    (grownSame : grown.oldPos = head.oldPos ∧ grown.target = head.target ∧
      grown.deleted = head.deleted ∧ grown.fused = head.fused)
    (grownTarget : ∀ target, grown.jumpTarget = some target →
      ∃ (source : Nat) (other : Insn), before[source]? = some other ∧
        other.jumpTarget = some target)
    (grownChain : ∀ member, grown.fusedWith = some member → member ≤ last)
    (whole : Whole constants after index grown) (shrinks : grown.rawLen ≤ gone) :
    Absorbs constants before after index last := by
  obtain ⟨oldPosEq, targetEq, deletedEq, fusedEq⟩ := grownSame
  obtain ⟨_, length, grownAt, outside, behind, live⟩ := gathered
  refine ⟨order, inside, length, outside, ?_, ⟨grown, grownAt, deletedEq.trans headLive,
    whole⟩, fun position now low upTo found => (behind position now low upTo found).1,
    ?_, ?_, by omega⟩
  · intro position now found
    rcases Nat.lt_trichotomy position index with low | rfl | high
    · rw [outside position (Or.inl low)] at found
      exact ⟨now, found, rfl, rfl, id, fun _ => rfl,
        fun target goes => ⟨position, now, found, goes⟩⟩
    · rw [grownAt] at found
      cases found
      exact ⟨head, headAt, oldPosEq, targetEq, fun gone => absurd headLive gone.not_live,
        fun stays => absurd stays headMoves, grownTarget⟩
    · rcases Nat.lt_or_ge last position with away | upTo
      · rw [outside position (Or.inr away)] at found
        exact ⟨now, found, rfl, rfl, id, fun _ => rfl,
          fun target goes => ⟨position, now, found, goes⟩⟩
      · obtain ⟨_, earlier, earlierAt, absorbed⟩ := behind position now high upTo found
        rcases absorbed with rfl | ⟨moves, live, link, rfl, _⟩
        · exact ⟨now, earlierAt, rfl, rfl, id, fun _ => rfl,
            fun target goes => ⟨position, now, earlierAt, goes⟩⟩
        · exact ⟨earlier, earlierAt, rfl, rfl, fun gone => absurd live gone.not_live,
            fun stays => absurd stays moves, fun target goes => by cases goes⟩
  · intro position now member low upTo found chained
    rcases Nat.eq_or_lt_of_le low with rfl | high
    · rw [grownAt] at found
      cases found
      exact grownChain member chained
    · obtain ⟨_, earlier, earlierAt, absorbed⟩ := behind position now high upTo found
      rcases absorbed with rfl | ⟨_, _, link, rfl, bounded⟩
      · rw [(plain position now low earlierAt).plain.1] at chained
        cases chained
      · exact bounded member chained
  · intro position now low _ found isFused
    rcases Nat.eq_or_lt_of_le low with rfl | high
    · rw [grownAt] at found
      cases found
      rw [fusedEq, (plain index head (Nat.le_refl _) headAt).plain.2.2] at isFused
      cases isFused
    · exact high

theorem Insn.Shaped.no_target (shaped : insn.Shaped constants)
    (noJump : insn.op.jrelPos = 0) : insn.jumpTarget = none := by
  rw [← Option.not_isSome_iff_eq_none]
  exact fun goes => shaped.jump goes noJump

theorem fusePair_absorbs {head b : Insn} {fused : Opcode} {synth : Option UInt8}
    (plain : ∀ (position : Nat) (insn : Insn), index ≤ position →
      code[position]? = some insn → insn.Shaped constants)
    (headAt : code[index]? = some head) (headLive : head.deleted = false)
    (bAt : code[nextLive code index]? = some b)
    (unmarked : ∀ (position : Nat) (insn : Insn), index < position →
      position ≤ nextLive code index → code[position]? = some insn → insn.target = false)
    (shape : PairShape head.op b.op fused synth.toList.length) :
    Absorbs constants code (fusePair code index head (nextLive code index) b fused synth) index
      (nextLive code index) := by
  have order : index < nextLive code index := lt_nextLive
  have inside := (List.getElem?_eq_some_iff.mp bAt).1
  have bLive := live_of_skipDeleted bAt
  have headShaped := plain index head (Nat.le_refl _) headAt
  have bShaped := plain _ b (Nat.le_of_lt order) bAt
  obtain ⟨x, y, aLen, bLen, sum⟩ := shape.lengths
  have aOwn := headShaped.ownLen_eq aLen
  have bOwn := bShaped.ownLen_eq bLen
  have noTarget := headShaped.no_target shape.noJump
  let grown : Insn :=
    { head with
      op := fused
      synth := synth
      rawLen := head.rawLen + (if synth.isSome then 1 else 0) + b.ownLen
      jumpTarget := if b.jumpTarget.isSome then b.jumpTarget else head.jumpTarget
      fusedWith := some (nextLive code index) }
  have gathered : Gathered code ((code.set index grown).set (nextLive code index) b.absorbed)
      index (nextLive code index) (nextLive code index) grown (head.rawLen + b.rawLen) :=
    (Gathered.head _ grown headAt headLive headLive).absorb bAt shape.moves.2 unmarked
      fun member (chained : b.fusedWith = some member) => by
        rw [bShaped.plain.1] at chained
        cases chained
  have afterEq : fusePair code index head (nextLive code index) b fused synth =
      (code.set index grown).set (nextLive code index) b.absorbed := rfl
  rw [afterEq]
  generalize afterDef : (code.set index grown).set (nextLive code index) b.absorbed = after at *
  have bAfter : after[nextLive code index]? = some b.absorbed := by
    rw [← afterDef, List.getElem?_set_self (by rw [List.length_set]; exact inside)]
  have grownTarget : grown.jumpTarget = b.jumpTarget := by
    dsimp only [grown]
    rw [noTarget]
    cases b.jumpTarget <;> rfl
  have synthLen : (if synth.isSome then 1 else 0) = synth.toList.length := by
    cases synth <;> rfl
  have grownLen : grown.rawLen = head.rawLen + synth.toList.length + b.ownLen := by
    rw [← synthLen]
  have operands : payload after index grown =
      synth.toList ++ (head.raw.take head.ownLen ++ b.raw.take b.ownLen) := by
    unfold payload
    rw [gathered.length, show code.length = code.length - 2 + 1 + 1 by omega,
      memberOperands_some gathered.headAt, memberOperands_some bAfter]
    dsimp only [grown, Insn.absorbed]
    rw [bShaped.plain.1, memberOperands_none, List.append_nil]
  have length : (payload after index grown).length = synth.toList.length + (x + y) := by
    rw [operands, List.length_append, List.length_append, headShaped.length_own,
      bShaped.length_own, aOwn, bOwn]
  refine gathered.absorbs order inside plain headAt headLive shape.moves.1 ⟨rfl, rfl, rfl, rfl⟩
    ?_ ?_ ⟨?_, ?_, ?_⟩ ?_
  · intro target goes
    rw [grownTarget] at goes
    exact ⟨_, b, bAt, goes⟩
  · intro member chained
    cases chained
    exact Nat.le_refl _
  · rw [length, grownLen, headShaped.rawLen, aOwn, bOwn]
    omega
  · intro following
    rw [length]
    exact operandLength_fixed sum _
  · rw [grownTarget]
    exact ⟨fun goes => shape.jump.mpr (bShaped.jump goes),
      fun jumps => bShaped.resolved bLive (shape.jump.mp jumps)⟩
  · have extra : synth.toList.length ≤ 1 := by
      cases synth <;> simp
    have bRaw := bShaped.rawLen
    omega

theorem fuseTriple_absorbs {head b c : Insn} {fused : Opcode}
    (plain : ∀ (position : Nat) (insn : Insn), index ≤ position →
      code[position]? = some insn → insn.Shaped constants)
    (headAt : code[index]? = some head) (headLive : head.deleted = false)
    (bAt : code[nextLive code index]? = some b)
    (cAt : code[nextLive code (nextLive code index)]? = some c)
    (unmarked : ∀ (position : Nat) (insn : Insn), index < position →
      position ≤ nextLive code (nextLive code index) → code[position]? = some insn →
      insn.target = false)
    (shape : TripleShape head.op b.op c.op fused) :
    Absorbs constants code (fuseTriple code index head (nextLive code index) b
        (nextLive code (nextLive code index)) c fused) index
      (nextLive code (nextLive code index)) := by
  have order : index < nextLive code index := lt_nextLive
  have orderC : nextLive code index < nextLive code (nextLive code index) := lt_nextLive
  have inside := (List.getElem?_eq_some_iff.mp cAt).1
  have cLive := live_of_skipDeleted cAt
  have headShaped := plain index head (Nat.le_refl _) headAt
  have bShaped := plain _ b (Nat.le_of_lt order) bAt
  have cShaped := plain _ c (by omega) cAt
  obtain ⟨x, y, z, aLen, bLen, cLen, sum⟩ := shape.lengths
  have aOwn := headShaped.ownLen_eq aLen
  have bOwn := bShaped.ownLen_eq bLen
  have cOwn := cShaped.ownLen_eq cLen
  have noTarget := headShaped.no_target shape.noJump.1
  have noTargetB := bShaped.no_target shape.noJump.2
  let grown : Insn :=
    { ({ head with op := fused }.grow b).grow c with fusedWith := some (nextLive code index) }
  let linked : Insn :=
    { b.absorbed with fusedWith := some (nextLive code (nextLive code index)) }
  have gathered : Gathered code (((code.set index grown).set (nextLive code index) linked).set
        (nextLive code (nextLive code index)) c.absorbed)
      index (nextLive code (nextLive code index)) (nextLive code (nextLive code index)) grown
      (head.rawLen + b.rawLen + c.rawLen) := by
    refine ((Gathered.head _ grown headAt headLive headLive).absorb bAt shape.moves.2.1 ?_
      ?_).absorb cAt shape.moves.2.2 ?_ ?_
    · exact fun position insn behind upTo found =>
        unmarked position insn behind (by omega) found
    · intro member chained
      cases chained
      exact Nat.le_refl _
    · exact fun position insn behind upTo found =>
        unmarked position insn (by omega) upTo found
    · intro member chained
      rw [cShaped.plain.1] at chained
      cases chained
  have afterEq : fuseTriple code index head (nextLive code index) b
      (nextLive code (nextLive code index)) c fused =
      ((code.set index grown).set (nextLive code index) linked).set
        (nextLive code (nextLive code index)) c.absorbed := rfl
  rw [afterEq]
  generalize afterDef : ((code.set index grown).set (nextLive code index) linked).set
    (nextLive code (nextLive code index)) c.absorbed = after at *
  have bAfter : after[nextLive code index]? = some linked := by
    rw [← afterDef, List.getElem?_set_ne (by omega),
      List.getElem?_set_self (by rw [List.length_set]; omega)]
  have cAfter : after[nextLive code (nextLive code index)]? = some c.absorbed := by
    rw [← afterDef, List.getElem?_set_self (by rw [List.length_set, List.length_set]; exact inside)]
  have grownTarget : grown.jumpTarget = c.jumpTarget := by
    dsimp only [grown, Insn.grow]
    rw [noTargetB, noTarget]
    cases c.jumpTarget <;> rfl
  have grownLen : grown.rawLen = head.rawLen + b.ownLen + c.ownLen := rfl
  have operands : payload after index grown =
      head.raw.take head.ownLen ++ (b.raw.take b.ownLen ++ c.raw.take c.ownLen) := by
    unfold payload
    rw [gathered.length, show code.length = code.length - 3 + 1 + 1 + 1 by omega,
      memberOperands_some gathered.headAt, memberOperands_some bAfter,
      memberOperands_some cAfter]
    dsimp only [grown, linked, Insn.absorbed, Insn.grow]
    rw [cShaped.plain.1, memberOperands_none, List.append_nil, headShaped.plain.2.1]
    rfl
  have length : (payload after index grown).length = x + (y + z) := by
    rw [operands, List.length_append, List.length_append, headShaped.length_own,
      bShaped.length_own, cShaped.length_own, aOwn, bOwn, cOwn]
  refine gathered.absorbs (by omega) inside plain headAt headLive shape.moves.1
    ⟨rfl, rfl, rfl, rfl⟩ ?_ ?_ ⟨?_, ?_, ?_⟩ ?_
  · intro target goes
    rw [grownTarget] at goes
    exact ⟨_, c, cAt, goes⟩
  · intro member chained
    cases chained
    omega
  · rw [length, grownLen, headShaped.rawLen, aOwn, bOwn, cOwn]
    omega
  · intro following
    rw [length]
    exact operandLength_fixed sum _
  · rw [grownTarget]
    exact ⟨fun goes => shape.jump.mpr (cShaped.jump goes),
      fun jumps => cShaped.resolved cLive (shape.jump.mp jumps)⟩
  · have bRaw := bShaped.rawLen
    have cRaw := cShaped.rawLen
    omega

theorem fuseAt_absorbs {code changed : List Insn} {index last : Nat}
    (plain : ∀ (position : Nat) (insn : Insn), index ≤ position →
      code[position]? = some insn → insn.Shaped constants)
    (fired : fuseAt code index = some (changed, last)) :
    Absorbs constants code changed index last := by
  unfold fuseAt at fired
  cases stepEq : nextLiveUnjoined code index with
  | mk bi joined =>
      cases furtherEq : nextLiveUnjoined code bi with
      | mk ci joinedC =>
          have biEq : bi = nextLive code index := nextLiveUnjoined_fst stepEq
          have ciEq : ci = nextLive code bi := nextLiveUnjoined_fst furtherEq
          subst biEq
          subst ciEq
          rw [stepEq] at fired
          simp only [Option.bind_eq_bind, Option.bind_eq_some_iff,
            Option.ite_none_left_eq_some, furtherEq] at fired
          obtain ⟨head, headAt, headLive, b, bAt, notJoined, fired⟩ := fired
          rw [Bool.not_eq_true] at headLive notJoined
          rw [notJoined] at stepEq
          have unmarked {position : Nat} {insn : Insn} (after : index < position)
              (upTo : position ≤ nextLive code index)
              (found : code[position]? = some insn) : insn.target = false :=
            nextLiveUnjoined_unmarked stepEq after upTo found
          rw [Option.orElse_eq_orElse, Option.orElse_eq_or, Option.or_eq_some_iff] at fired
          rcases fired with triple | ⟨_, pair⟩
          · simp only [Option.bind_eq_some_iff, Option.ite_none_left_eq_some,
              Option.some.injEq, Prod.mk.injEq] at triple
            obtain ⟨c, cAt, notJoinedC, fused, fuses, rfl, rfl⟩ := triple
            rw [Bool.not_eq_true] at notJoinedC
            rw [notJoinedC] at furtherEq
            refine fuseTriple_absorbs plain headAt headLive bAt cAt ?_ (fusedOpcode3_shape fuses)
            intro position insn after upTo found
            rcases Nat.lt_or_ge (nextLive code index) position with far | near
            · exact nextLiveUnjoined_unmarked furtherEq far upTo found
            · exact unmarked after near found
          · split at pair
            · rename_i fused fuses
              cases pair
              exact fusePair_absorbs plain headAt headLive bAt
                (fun _ _ => unmarked) (fusedOpcode_shape fuses)
            · simp only [Option.map_eq_some_iff, Prod.mk.injEq] at pair
              obtain ⟨kind, fuses, rfl, rfl⟩ := pair
              exact fusePair_absorbs plain headAt headLive bAt
                (fun _ _ => unmarked) (cmpBrKind_shape fuses)

/-- The instruction at `position` has a live one before it, and from there on all
are deleted and none is a target. -/
def HasHead (code : List Insn) (position : Nat) : Prop :=
  ∃ head insn, head < position ∧ code[head]? = some insn ∧ insn.deleted = false ∧
    ∀ between, head < between → between ≤ position →
      ∀ other : Insn, code[between]? = some other →
        other.deleted = true ∧ other.target = false

/-- The scan has reached `index`: the instructions before it are whole, those from
there on are as at the start. -/
structure Fusing (constants : Pool) (start : List Insn) (index : Nat)
    (code : List Insn) : Prop where
  length : code.length = start.length
  ahead : ∀ position, index ≤ position → code[position]? = start[position]?
  same : ∀ (position : Nat) (now : Insn), code[position]? = some now →
    ∃ earlier : Insn, start[position]? = some earlier ∧ now.oldPos = earlier.oldPos ∧
      now.target = earlier.target ∧ (earlier.Gone → now.Gone) ∧
      (earlier.op.Stays → now = earlier)
  targets : ∀ (position : Nat) (now : Insn) (target : Nat), code[position]? = some now →
    now.jumpTarget = some target → target < code.length
  whole : ∀ (position : Nat) (now : Insn), position < index →
    code[position]? = some now → now.deleted = false → Whole constants code position now
  chain : ∀ (position : Nat) (now : Insn) (member : Nat), position < index →
    code[position]? = some now → now.fusedWith = some member → member < index
  heads : ∀ (position : Nat) (now : Insn), code[position]? = some now →
    now.fused = true → position < index ∧ HasHead code position
  shrinks : liveLength code ≤ liveLength start

theorem Fusing.start {start : List Insn} (plain : ∀ insn ∈ start, insn.Shaped constants)
    (targets : ∀ (position : Nat) (now : Insn) (target : Nat),
      start[position]? = some now → now.jumpTarget = some target →
      target < start.length) : Fusing constants start 0 start := by
  refine ⟨rfl, fun _ _ => rfl, fun _ now found => ⟨now, found, rfl, rfl, id, fun _ => rfl⟩,
    targets, ?_, ?_, ?_, Nat.le_refl _⟩
  · intro _ _ none
    exact absurd none (Nat.not_lt_zero _)
  · intro _ _ _ none
    exact absurd none (Nat.not_lt_zero _)
  · intro position now found isFused
    rw [(plain now (List.mem_of_getElem? found)).plain.2.2] at isFused
    cases isFused

theorem memberOperands_congr {code changed : List Insn}
    (agree : ∀ position, position < index → changed[position]? = code[position]?)
    (closed : ∀ (position : Nat) (now : Insn) (member : Nat), position < index →
      code[position]? = some now → now.fusedWith = some member → member < index)
    (fuel : Nat) {position : Nat} (low : position < index) :
    memberOperands changed fuel (some position) = memberOperands code fuel (some position) := by
  induction fuel generalizing position with
  | zero => rfl
  | succ fuel induction =>
      rw [memberOperands, memberOperands, agree position low]
      cases found : code[position]? with
      | none => rfl
      | some now =>
          dsimp only
          congr 1
          cases chained : now.fusedWith with
          | none => rw [memberOperands_none, memberOperands_none]
          | some member => exact induction (closed position now member low found chained)

theorem Fusing.skip {start code : List Insn} (plain : ∀ insn ∈ start, insn.Shaped constants)
    (fusing : Fusing constants start index code) :
    Fusing constants start (index + 1) code := by
  have shaped {now : Insn} (found : code[index]? = some now) : now.Shaped constants := by
    rw [fusing.ahead index (Nat.le_refl _)] at found
    exact plain now (List.mem_of_getElem? found)
  refine ⟨fusing.length, fun position onward => fusing.ahead position (by omega),
    fusing.same, fusing.targets, ?_, ?_, ?_, fusing.shrinks⟩
  · intro position now low found live
    rcases Nat.lt_succ_iff_lt_or_eq.mp low with before | rfl
    · exact fusing.whole position now before found live
    · exact (shaped found).whole found live
  · intro position now member low found chained
    rcases Nat.lt_succ_iff_lt_or_eq.mp low with before | rfl
    · have bound := fusing.chain position now member before found chained
      omega
    · rw [(shaped found).plain.1] at chained
      cases chained
  · intro position now found isFused
    obtain ⟨low, head⟩ := fusing.heads position now found isFused
    exact ⟨by omega, head⟩

theorem Fusing.absorb {start code changed : List Insn} {index last : Nat}
    (fusing : Fusing constants start index code)
    (absorbs : Absorbs constants code changed index last) :
    Fusing constants start (last + 1) changed := by
  have order := absorbs.order
  obtain ⟨head, headAt, headLive, headWhole⟩ := absorbs.head
  have agree : ∀ position, position < index → changed[position]? = code[position]? :=
    fun position low => absorbs.outside position (Or.inl low)
  refine ⟨absorbs.length.trans fusing.length, ?_, ?_, ?_, ?_, ?_, ?_,
    absorbs.shrinks.trans fusing.shrinks⟩
  · intro position onward
    rw [absorbs.outside position (Or.inr onward)]
    exact fusing.ahead position (by omega)
  · intro position now found
    obtain ⟨middle, middleAt, posEq, targetEq, stays, unmoved, _⟩ :=
      absorbs.same position now found
    obtain ⟨earlier, earlierAt, earlierPos, earlierTarget, earlierStays, earlierUnmoved⟩ :=
      fusing.same position middle middleAt
    refine ⟨earlier, earlierAt, posEq.trans earlierPos, targetEq.trans earlierTarget,
      fun gone => stays (earlierStays gone), ?_⟩
    intro isJump
    have middleEq := earlierUnmoved isJump
    rw [unmoved (middleEq ▸ isJump), middleEq]
  · intro position now target found goes
    obtain ⟨_, _, _, _, _, _, source⟩ := absorbs.same position now found
    obtain ⟨place, other, otherAt, otherGoes⟩ := source target goes
    rw [absorbs.length]
    exact fusing.targets place other target otherAt otherGoes
  · intro position now low found live
    rcases Nat.lt_trichotomy position index with before | rfl | after
    · rw [agree position before] at found
      have whole := fusing.whole position now before found live
      have same : payload changed position now = payload code position now := by
        unfold payload
        rw [absorbs.length, memberOperands_congr agree fusing.chain _ before]
      exact ⟨by rw [same]; exact whole.rawLen, by rw [same]; exact whole.operands,
        whole.jump⟩
    · rw [headAt] at found
      cases found
      exact headWhole
    · rw [(absorbs.members position now after (by omega) found).1] at live
      cases live
  · intro position now member low found chained
    rcases Nat.lt_or_ge position index with before | onward
    · rw [agree position before] at found
      have bound := fusing.chain position now member before found chained
      omega
    · have bound := absorbs.chain position now member onward (by omega) found chained
      omega
  · intro position now found isFused
    rcases Nat.lt_or_ge position index with before | onward
    · have same := agree position before
      rw [same] at found
      obtain ⟨_, old, insn, low, oldAt, oldLive, between⟩ :=
        fusing.heads position now found isFused
      refine ⟨by omega, old, insn, low, ?_, oldLive, ?_⟩
      · rw [agree old (by omega)]
        exact oldAt
      · intro middle after upTo other otherAt
        rw [agree middle (by omega)] at otherAt
        exact between middle after upTo other otherAt
    · rcases Nat.lt_or_ge last position with away | upTo
      · rw [absorbs.outside position (Or.inr away)] at found
        have bound := (fusing.heads position now found isFused).1
        omega
      · have behind := absorbs.fused position now onward upTo found isFused
        refine ⟨by omega, index, head, behind, headAt, headLive, ?_⟩
        intro middle after toMember other otherAt
        exact absorbs.members middle other after (by omega) otherAt

theorem fuseFrom_fusing {start : List Insn}
    (plain : ∀ insn ∈ start, insn.Shaped constants) (fuel index : Nat)
    (state : Counted) (enough : start.length ≤ index + fuel)
    (fusing : Fusing constants start index state.1) :
    ∃ reached, start.length ≤ reached ∧
      Fusing constants start reached (fuseFrom fuel index state).1 := by
  induction fuel generalizing index state with
  | zero => exact ⟨index, by omega, fusing⟩
  | succ fuel induction =>
      obtain ⟨code, changed⟩ := state
      unfold fuseFrom
      split
      · split
        · rename_i fused last fired
          have ahead : ∀ (position : Nat) (insn : Insn), index ≤ position →
              code[position]? = some insn → insn.Shaped constants := by
            intro position insn onward found
            rw [fusing.ahead position onward] at found
            exact plain insn (List.mem_of_getElem? found)
          have absorbs := fuseAt_absorbs ahead fired
          have order := absorbs.order
          exact induction (last + 1) (fused, changed + 1) (by omega) (fusing.absorb absorbs)
        · exact induction (index + 1) (code, changed) (by omega) (fusing.skip plain)
      · rename_i past
        have length : code.length = start.length := fusing.length
        exact ⟨index, by omega, fusing⟩

end ClAmiga.Peephole
