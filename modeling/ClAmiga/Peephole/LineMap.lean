import ClAmiga.Peephole.FailSafe
import ClAmiga.Table.Collapse

/-!
# The source line map

An entry moves to the first live instruction at or after it, or back to the head
that absorbed its instruction.  Of the entries that meet on one instruction the
first stays.
-/

namespace ClAmiga.Peephole

variable {constants : Pool}

/-- The loop of `lookup_source_line`. -/
def scanLines (ip : Nat) : Nat → List LineEntry → Nat
  | best, [] => best
  | best, entry :: later => if entry.pc ≤ ip then scanLines ip entry.line later else best

/-- `lookup_source_line`: the line of the instruction that ends at `ip`. -/
def lookupSourceLine (lines : List LineEntry) (ip : Nat) : Nat :=
  scanLines (ip - 1) 0 lines

theorem scanLines_eq (ip best : Nat) (lines : List LineEntry) :
    scanLines ip best lines = ((Table.floor LineEntry.pc ip lines).map LineEntry.line).getD
      best := by
  unfold Table.floor
  induction lines generalizing best with
  | nil => rfl
  | cons entry later induction =>
      rw [scanLines]
      split
      · rename_i within
        rw [induction, List.takeWhile_cons_of_pos (by simpa using within), List.getLast?_cons]
        cases (List.takeWhile (fun entry => decide (entry.pc ≤ ip)) later).getLast? <;> rfl
      · rename_i beyond
        rw [List.takeWhile_cons_of_neg (by simpa using beyond)]
        rfl

def Ordered (code : List Insn) : Prop :=
  ∀ (first second : Nat) (a b : Insn), first < second → code[first]? = some a →
    code[second]? = some b → a.oldPos < b.oldPos

/-- `index` is the first instruction at or after `want`. -/
structure AtOrAfter (code : List Insn) (want index : Nat) : Prop where
  within : index ≤ code.length
  below : ∀ (position : Nat) (insn : Insn), position < index →
    code[position]? = some insn → insn.oldPos < want
  above : ∀ (position : Nat) (insn : Insn), index ≤ position →
    code[position]? = some insn → want ≤ insn.oldPos

variable {code : List Insn}

/-- The binary search finds the first instruction at or after the old position. -/
theorem firstAtOrAfter_spec {want fuel lo hi : Nat}
    (ordered : Ordered code) (order : lo ≤ hi) (inside : hi ≤ code.length)
    (enough : hi - lo ≤ fuel)
    (below : ∀ (position : Nat) (insn : Insn), position < lo →
      code[position]? = some insn → insn.oldPos < want)
    (above : ∀ (position : Nat) (insn : Insn), hi ≤ position →
      code[position]? = some insn → want ≤ insn.oldPos) :
    AtOrAfter code want (firstAtOrAfter code want fuel lo hi) := by
  induction fuel generalizing lo hi with
  | zero =>
      obtain rfl : lo = hi := by omega
      exact ⟨inside, below, above⟩
  | succ fuel induction =>
      unfold firstAtOrAfter
      split
      · rename_i nonempty
        have middleInside : lo + (hi - lo) / 2 < code.length := by omega
        have middleAt := List.getElem?_eq_getElem middleInside
        dsimp only
        rw [middleAt, Option.any_some]
        split
        · rename_i early
          apply induction (by omega) inside (by omega) _ above
          intro position insn low found
          rcases Nat.lt_succ_iff_lt_or_eq.mp low with before | rfl
          · have earlier := ordered position _ insn _ before found middleAt
            exact earlier.trans (by simpa using early)
          · rw [middleAt] at found
            cases found
            simpa using early
        · rename_i late
          apply induction (by omega) (by omega) (by omega) below
          intro position insn high found
          have notEarly : want ≤ (code[lo + (hi - lo) / 2]).oldPos := by simpa using late
          rcases Nat.eq_or_lt_of_le high with rfl | after
          · rw [middleAt] at found
            cases found
            exact notEarly
          · exact notEarly.trans (ordered _ position _ insn after middleAt found).le
      · obtain rfl : lo = hi := by omega
        exact ⟨inside, below, above⟩

/-- The index of the instruction at or after `want`. -/
def entryIndex (code : List Insn) (want : Nat) : Nat :=
  firstAtOrAfter code want code.length 0 code.length

theorem entryIndex_spec (ordered : Ordered code) (want : Nat) :
    AtOrAfter code want (entryIndex code want) := by
  apply firstAtOrAfter_spec ordered (Nat.zero_le _) (Nat.le_refl _) (Nat.le_refl _)
  · intro position _ low
    exact absurd low (Nat.not_lt_zero _)
  · intro position _ high found
    have inside := (List.getElem?_eq_some_iff.mp found).1
    omega

theorem entryIndex_mono (ordered : Ordered code) {first second : Nat}
    (before : first ≤ second) : entryIndex code first ≤ entryIndex code second := by
  have firstSpec := entryIndex_spec ordered first
  have secondSpec := entryIndex_spec ordered second
  by_contra notLe
  have inside : entryIndex code second < code.length := by
    have within := firstSpec.within
    omega
  have foundAt := List.getElem?_eq_getElem inside
  have low := firstSpec.below _ _ (by omega) foundAt
  have high := secondSpec.above _ _ (Nat.le_refl _) foundAt
  omega

theorem Laid.oldPos_le {start first second : Nat} {a b : Insn}
    (laid : Laid start code) (before : first < second) (aAt : code[first]? = some a)
    (bAt : code[second]? = some b) : start ≤ a.oldPos ∧ a.oldPos + a.rawLen ≤ b.oldPos ∧
      0 < a.rawLen := by
  induction code generalizing start first second with
  | nil => simp at aAt
  | cons head later induction =>
      obtain ⟨headPos, positive, laterLaid⟩ := laid
      obtain ⟨second, rfl⟩ := Nat.exists_eq_succ_of_ne_zero (show second ≠ 0 by omega)
      rw [List.getElem?_cons_succ] at bAt
      have fromStart : ∀ (position : Nat) (insn : Insn), later[position]? = some insn →
          start + head.rawLen ≤ insn.oldPos := by
        intro position insn found
        clear induction aAt bAt
        generalize start + head.rawLen = place at laterLaid ⊢
        induction later generalizing place position with
        | nil => simp at found
        | cons next rest induction =>
            obtain ⟨nextPos, _, restLaid⟩ := laterLaid
            cases position with
            | zero =>
                cases found
                exact nextPos.ge
            | succ position =>
                have onward := induction position found (place + next.rawLen) restLaid
                omega
      cases first with
      | zero =>
          cases aAt
          have onward := fromStart second b bAt
          omega
      | succ first =>
          obtain ⟨low, order, long⟩ :=
            induction laterLaid (Nat.lt_of_succ_lt_succ before) aAt bAt
          exact ⟨by omega, order, long⟩

theorem skipDeleted_of_live {index : Nat} {insn : Insn}
    (found : code[index]? = some insn) (live : insn.deleted = false) :
    skipDeleted code index = index := by
  have upTo : index ≤ skipDeleted code index := le_skipDeleted
  rcases Nat.eq_or_lt_of_le upTo with same | after
  · exact same.symm
  · rw [deleted_of_skipped (Nat.le_refl _) after found] at live
    cases live

theorem skipDeleted_le {index position : Nat} {insn : Insn}
    (after : index ≤ position) (found : code[position]? = some insn)
    (live : insn.deleted = false) : skipDeleted code index ≤ position := by
  by_contra beyond
  rw [deleted_of_skipped after (Nat.lt_of_not_le beyond) found] at live
  cases live

theorem skipDeleted_le_length {index : Nat}
    (inside : index ≤ code.length) : skipDeleted code index ≤ code.length := by
  have short : (code.drop index).findIdx (fun insn => !insn.deleted) ≤
      (code.drop index).length := List.findIdx_le_length
  rw [List.length_drop] at short
  unfold skipDeleted
  omega

theorem backToLive_eq {head position : Nat} {insn : Insn}
    (order : head ≤ position) (headAt : code[head]? = some insn)
    (headLive : insn.deleted = false)
    (between : ∀ middle, head < middle → middle ≤ position → ∀ other : Insn,
      code[middle]? = some other → other.deleted = true)
    (inside : position < code.length) : backToLive code position = head := by
  induction position with
  | zero =>
      obtain rfl : head = 0 := by omega
      rfl
  | succ position induction =>
      unfold backToLive
      rcases Nat.eq_or_lt_of_le order with rfl | before
      · rw [headAt, Option.any_some, headLive]
        rfl
      · have otherAt := List.getElem?_eq_getElem inside
        have gone := between (position + 1) before (Nat.le_refl _) _ otherAt
        rw [otherAt, Option.any_some, gone, if_pos rfl]
        exact induction (Nat.le_of_lt_succ before)
          (fun middle after upTo => between middle after (Nat.le_succ_of_le upTo))
          (Nat.lt_of_succ_lt inside)

/-- The head that absorbed the instruction at `member`. -/
structure HeadOf (code : List Insn) (member head : Nat) : Prop where
  before : head < member
  live : ∃ insn, code[head]? = some insn ∧ insn.deleted = false
  between : ∀ middle, head < middle → middle ≤ member → ∀ other : Insn,
    code[middle]? = some other → other.deleted = true

variable {decoded placed : List Insn}

/-- An entry moves forward to the next live instruction, unless its instruction
was absorbed. -/
theorem Settled.lineIndex_cases (isSettled : Settled constants decoded placed) (want : Nat) :
    ((placed[entryIndex placed want]?).any Insn.fused = false ∧
      lineIndex placed want = skipDeleted placed (entryIndex placed want)) ∨
    ((placed[entryIndex placed want]?).any Insn.fused = true ∧
      backToLive placed (entryIndex placed want) = lineIndex placed want ∧
      HeadOf placed (entryIndex placed want) (lineIndex placed want)) := by
  have unfolded : lineIndex placed want =
      if (placed[entryIndex placed want]?).any Insn.fused then
        skipDeleted placed (backToLive placed (entryIndex placed want))
      else skipDeleted placed (entryIndex placed want) := rfl
  rw [unfolded]
  cases isFused : (placed[entryIndex placed want]?).any Insn.fused with
  | false => exact Or.inl ⟨rfl, rfl⟩
  | true =>
      obtain ⟨insn, found, absorbed⟩ : ∃ insn,
          placed[entryIndex placed want]? = some insn ∧ insn.fused = true := by
        rwa [Option.any_eq_true] at isFused
      obtain ⟨head, headInsn, before, headAt, headLive, between⟩ :=
        isSettled.heads _ insn found absorbed
      have gone : ∀ middle, head < middle → middle ≤ entryIndex placed want →
          ∀ other : Insn, placed[middle]? = some other → other.deleted = true :=
        fun middle after upTo other otherAt => (between middle after upTo other otherAt).1
      have back := backToLive_eq (Nat.le_of_lt before) headAt headLive gone
        (List.getElem?_eq_some_iff.mp found).1
      rw [if_pos rfl, back, skipDeleted_of_live headAt headLive]
      exact Or.inr ⟨rfl, rfl, before, ⟨headInsn, headAt, headLive⟩, gone⟩

/-- The entry `first` belongs to an instruction that was removed although it
stands between the instruction of `second` and the head that absorbed that one. -/
def Interleaved (code : List Insn) (first second : LineEntry) : Prop :=
  (code[entryIndex code first.pc]?).any Insn.fused = false ∧
    (code[entryIndex code second.pc]?).any Insn.fused = true ∧
    backToLive code (entryIndex code second.pc) < entryIndex code first.pc ∧
    entryIndex code first.pc < entryIndex code second.pc

instance (code : List Insn) (first second : LineEntry) :
    Decidable (Interleaved code first second) :=
  inferInstanceAs (Decidable (_ ∧ _ ∧ _ ∧ _))

/-- Entries stay in their order where none is interleaved with another. -/
theorem Settled.lineIndex_mono (isSettled : Settled constants decoded placed)
    (ordered : Ordered placed) {first second : LineEntry} (order : first.pc ≤ second.pc)
    (apart : ¬ Interleaved placed first second) :
    lineIndex placed first.pc ≤ lineIndex placed second.pc := by
  have indices := entryIndex_mono ordered order
  rcases isSettled.lineIndex_cases first.pc with ⟨plain, forward⟩ | ⟨_, _, firstHead⟩
  · rcases isSettled.lineIndex_cases second.pc with ⟨_, onward⟩ | ⟨absorbed, back, head⟩
    · rw [forward, onward]
      rcases Nat.lt_or_ge (skipDeleted placed (entryIndex placed second.pc)) placed.length
        with inside | past
      · have landsAt := List.getElem?_eq_getElem inside
        exact skipDeleted_le (indices.trans le_skipDeleted) landsAt (live_of_skipDeleted landsAt)
      · exact (skipDeleted_le_length (entryIndex_spec ordered first.pc).within).trans past
    · obtain ⟨insn, headAt, headLive⟩ := head.live
      rw [forward]
      rcases Nat.lt_or_ge (lineIndex placed second.pc) (entryIndex placed first.pc)
        with between | upTo
      · refine absurd ⟨plain, absorbed, by rw [back]; exact between, ?_⟩ apart
        apply Nat.lt_of_le_of_ne indices
        intro same
        rw [same, absorbed] at plain
        cases plain
      · exact skipDeleted_le upTo headAt headLive
  · obtain ⟨insn, headAt, headLive⟩ := firstHead.live
    have before := firstHead.before
    rcases isSettled.lineIndex_cases second.pc with ⟨_, onward⟩ | ⟨_, _, head⟩
    · rw [onward]
      exact (before.le.trans indices).trans le_skipDeleted
    · by_contra beyond
      rw [head.between _ (Nat.lt_of_not_le beyond) (before.le.trans indices) insn headAt]
        at headLive
      cases headLive

end ClAmiga.Peephole
