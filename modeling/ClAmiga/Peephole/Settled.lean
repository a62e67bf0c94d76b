import Mathlib.Algebra.Order.BigOperators.Group.List
import ClAmiga.Peephole.Fusion

/-!
# The list that is encoded

What the rounds and the fusion together leave of the decoded list.
-/

namespace ClAmiga.Peephole

variable {constants : Pool}

/-- What a jump to `target` passes over before it ends at a live instruction is
gone: none of it lives on in an instruction before. -/
def HasImage (code : List Insn) (target : Nat) : Prop :=
  ∀ (position : Nat) (insn : Insn), target ≤ position →
    position < skipDeleted code target → code[position]? = some insn → insn.Gone

structure Settled (constants : Pool) (decoded settled : List Insn) : Prop where
  length : settled.length = decoded.length
  oldPos : ∀ (position : Nat) (before now : Insn), decoded[position]? = some before →
    settled[position]? = some now → now.oldPos = before.oldPos
  whole : ∀ (position : Nat) (now : Insn), settled[position]? = some now →
    now.deleted = false → Whole constants settled position now
  targets : ∀ (position : Nat) (now : Insn) (target : Nat),
    settled[position]? = some now → now.jumpTarget = some target →
    target < settled.length
  heads : ∀ (position : Nat) (now : Insn), settled[position]? = some now →
    now.fused = true → HasHead settled position
  push : ∀ (position : Nat) (before now : Insn), decoded[position]? = some before →
    settled[position]? = some now → before.op = .opHandlerCasePush →
    now.op = .opHandlerCasePush ∧ now.raw = before.raw ∧ now.Shaped constants ∧
      (now.deleted = false → now.jumpTarget = before.jumpTarget)
  entry : ∀ (position : Nat) (before now : Insn), decoded[position]? = some before →
    settled[position]? = some now → before.pinned = true →
    now.deleted = false ∧ now.op = .opJmp ∧ now.rawLen = 5 ∧
      ∃ start target, before.jumpTarget = some start ∧ now.jumpTarget = some target ∧
        Follows decoded settled start target ∧ HasImage settled target
  shrinks : liveLength settled ≤ (decoded.map Insn.rawLen).sum

theorem liveLength_le {decoded current : List Insn} (sound : Sound constants decoded current) :
    liveLength current ≤ (decoded.map Insn.rawLen).sum := by
  apply List.Forall₂.sum_le_sum
  rw [List.forall₂_map_left_iff, List.forall₂_map_right_iff, List.forall₂_iff_get]
  refine ⟨sound.length, ?_⟩
  intro index inside insideDecoded
  have kept := sound.kept index _ _ (List.getElem?_eq_getElem insideDecoded)
    (List.getElem?_eq_getElem inside)
  have rawLen := kept.rawLen
  simp only [List.get_eq_getElem, Insn.liveLen]
  split
  · exact Nat.zero_le _
  · exact rawLen

/-- The list that the fusion starts from is marked. -/
def Targeted (code : List Insn) : Prop :=
  ∀ (position : Nat) (jump : Insn) (target : Nat) (destination : Insn),
    code[position]? = some jump → jump.deleted = false →
    jump.jumpTarget = some target → code[target]? = some destination →
    destination.target = true

theorem markTargets_targeted (code : List Insn) : Targeted (markTargets code) := by
  intro position jump target destination jumpAt live goes destinationAt
  simp only [markTargets, List.getElem?_mapIdx, Option.map_eq_some_iff] at jumpAt destinationAt
  obtain ⟨earlier, earlierAt, rfl⟩ := jumpAt
  obtain ⟨_, _, rfl⟩ := destinationAt
  dsimp only at live goes ⊢
  rw [Bool.or_eq_true, List.any_eq_true]
  refine Or.inr ⟨earlier, List.mem_of_getElem? earlierAt, ?_⟩
  rw [Insn.isLiveJump, live, goes]
  simp

theorem Fusing.hasImage {start code : List Insn} {index target : Nat}
    (fusing : Fusing constants start index code)
    (targeted : ∀ destination, start[target]? = some destination →
      destination.target = true) : HasImage code target := by
  intro position insn after before found
  refine ⟨deleted_of_skipped after before found, ?_⟩
  rw [Bool.eq_false_iff]
  intro isFused
  obtain ⟨_, head, headInsn, low, headAt, headLive, between⟩ :=
    fusing.heads position insn found isFused
  rcases Nat.lt_or_ge head target with headBefore | headAfter
  · -- The target stands between a head and its member.
    have inside : target < code.length := by
      have positionInside := (List.getElem?_eq_some_iff.mp found).1
      omega
    have targetAt := List.getElem?_eq_getElem inside
    have unmarked := (between target headBefore after _ targetAt).2
    obtain ⟨earlier, earlierAt, _, sameTarget, _⟩ := fusing.same target _ targetAt
    rw [sameTarget, targeted earlier earlierAt] at unmarked
    cases unmarked
  · have headDeleted := deleted_of_skipped headAfter (by omega) headAt
    rw [headLive] at headDeleted
    cases headDeleted

theorem settled_of_fusing {decoded marked settled : List Insn} {reached : Nat}
    (sound : Sound constants decoded marked) (targeted : Targeted marked)
    (plain : ∀ insn ∈ marked, insn.Shaped constants)
    (fusing : Fusing constants marked reached settled) :
    Settled constants decoded settled := by
  have earlierOf {position : Nat} {now : Insn} (found : settled[position]? = some now) :=
    fusing.same position now found
  have more : ∀ (position : Nat) (later : Insn), settled[position]? = some later →
      ∃ earlier : Insn, marked[position]? = some earlier ∧ (earlier.Gone → later.Gone) := by
    intro position later found
    obtain ⟨earlier, earlierAt, _, _, stays, _⟩ := earlierOf found
    exact ⟨earlier, earlierAt, stays⟩
  refine ⟨fusing.length.trans sound.length, ?_, ?_, fusing.targets,
    fun position now found isFused => (fusing.heads position now found isFused).2, ?_, ?_,
    fusing.shrinks.trans (liveLength_le sound)⟩
  · intro position before now beforeAt nowAt
    obtain ⟨earlier, earlierAt, posEq, _⟩ := earlierOf nowAt
    exact posEq.trans (sound.kept position before earlier beforeAt earlierAt).oldPos
  · intro position now found live
    rcases Nat.lt_or_ge position reached with low | ahead
    · exact fusing.whole position now low found live
    · have same := fusing.ahead position ahead
      rw [found] at same
      exact (plain now (List.mem_of_getElem? same.symm)).whole found live
  · intro position before now beforeAt nowAt isPush
    obtain ⟨earlier, earlierAt, _, _, _, unmoved⟩ := earlierOf nowAt
    have kept := sound.kept position before earlier beforeAt earlierAt
    have push := kept.push isPush
    rw [unmoved (Or.inr push.1)]
    exact ⟨push.1, kept.raw, kept.shaped, push.2⟩
  · intro position before now beforeAt nowAt isPinned
    obtain ⟨earlier, earlierAt, _, _, _, unmoved⟩ := earlierOf nowAt
    have kept := sound.kept position before earlier beforeAt earlierAt
    obtain ⟨live, jump, five⟩ := kept.entry isPinned
    rw [unmoved (Or.inl jump)]
    obtain ⟨target, goes⟩ := Option.isSome_iff_exists.mp
      (kept.shaped.resolved live (by rw [jump]; decide))
    obtain ⟨start, starts, follows⟩ :=
      sound.follows position before earlier target beforeAt earlierAt goes
    exact ⟨live, jump, five, start, target, starts, goes, follows.mono more,
      fusing.hasImage fun destination destinationAt =>
        targeted position earlier target destination earlierAt live goes destinationAt⟩

theorem Sound.plain {decoded current : List Insn} (sound : Sound constants decoded current) :
    ∀ insn ∈ current, insn.Shaped constants := by
  intro insn member
  obtain ⟨index, found⟩ := List.mem_iff_getElem?.mp member
  have inside := (List.getElem?_eq_some_iff.mp found).1
  rw [sound.length] at inside
  exact (sound.kept index _ insn (List.getElem?_eq_getElem inside) found).shaped

theorem rewrite_settled {length : Nat} {decoded : List Insn}
    (isDecoded : Decoded constants length decoded) (fuseEnabled : Bool) :
    Settled constants decoded (rewrite fuseEnabled decoded).1 := by
  have rounds := rewriteRounds_rewrites 8 (decoded, 0)
  unfold rewrite
  generalize rewriteRounds 8 (decoded, 0) = outcome at rounds ⊢
  obtain ⟨current, total⟩ := outcome
  have sound := (isDecoded.sound.rewrites rounds).mark
  have targeted := markTargets_targeted current
  have fresh := Fusing.start sound.plain sound.targets
  unfold peepFuse
  dsimp only
  split
  · obtain ⟨reached, _, fusing⟩ := fuseFrom_fusing sound.plain
      (markTargets current).length 0 (markTargets current, total)
      (Nat.le_of_eq (Nat.zero_add _).symm) fresh
    exact settled_of_fusing sound targeted sound.plain fusing
  · exact settled_of_fusing sound targeted sound.plain fresh

theorem rewritten_settled {env : Environment} {code : List UInt8} {settled : List Insn}
    (succeeded : rewritten env constants code = some settled) :
    code.length ≤ peepholeMaxCode ∧ jumpsLand settled = true ∧ ∃ decoded,
      peepDecode constants code = some decoded ∧ Settled constants decoded settled := by
  simp only [rewritten, Option.bind_eq_bind, Option.ite_none_left_eq_some,
    Option.bind_eq_some_iff, Option.some.injEq, not_or] at succeeded
  obtain ⟨⟨_, small, _⟩, decoded, decodes, ⟨_, lands, _⟩, rfl⟩ := succeeded
  rw [Bool.not_eq_false] at lands
  exact ⟨Nat.le_of_not_lt small, lands, decoded, decodes,
    rewrite_settled (peepDecode_decoded decodes) env.fuseEnabled⟩

end ClAmiga.Peephole
