import ClAmiga.Peephole.LineMap

/-!
# Lines after the pass

The remapped table holds the first of the entries that meet on an instruction,
and an instruction is found under the last of these at or before it.
-/

namespace ClAmiga.Peephole

variable {constants : Pool}

/-- The remapped entries of `lines`, those at `lastPc` left out at the front. -/
def movedFrom (code : List Insn) : Option Nat → List LineEntry → List LineEntry
  | _, [] => []
  | lastPc, entry :: later =>
      match code[lineIndex code entry.pc]? with
      | none => movedFrom code lastPc later
      | some insn =>
          if lastPc = some insn.newPos then movedFrom code lastPc later
          else ⟨insn.newPos, entry.line⟩ :: movedFrom code (some insn.newPos) later

/-- Entries are only written where they have been read already. -/
theorem remapLines_eq (code : List Insn) (lastPc : Option Nat) (written gap rest : List LineEntry) :
    let outcome := remapLines code rest.length (written.length + gap.length) written.length
      lastPc (written ++ gap ++ rest)
    outcome.1.take outcome.2 = written ++ movedFrom code lastPc rest := by
  induction rest generalizing lastPc written gap with
  | nil =>
      dsimp only [remapLines, movedFrom, List.length_nil]
      rw [List.append_nil, List.append_nil, List.take_left]
  | cons entry later induction =>
      have entryAt : (written ++ gap ++ entry :: later)[written.length + gap.length]? =
          some entry := by
        rw [← List.length_append, List.getElem?_append_right (Nat.le_refl _), Nat.sub_self]
        rfl
      have skip := induction lastPc written (gap ++ [entry])
      rw [List.length_append, List.length_singleton, ← Nat.add_assoc, ← List.append_assoc,
        List.append_assoc (written ++ gap)] at skip
      dsimp only [List.length_cons, remapLines, movedFrom]
      rw [entryAt]
      dsimp only
      cases code[lineIndex code entry.pc]? with
      | none => exact skip
      | some insn =>
          dsimp only
          split
          · exact skip
          · obtain ⟨read, others, readEq⟩ : ∃ read others, gap ++ [entry] = read :: others := by
              cases gap with
              | nil => exact ⟨entry, [], rfl⟩
              | cons first others => exact ⟨first, others ++ [entry], rfl⟩
            have lengths : others.length = gap.length := by
              have both := congrArg List.length readEq
              simp only [List.length_append, List.length_cons, List.length_nil] at both
              omega
            have table : (written ++ gap ++ entry :: later).set written.length
                ⟨insn.newPos, entry.line⟩ =
                (written ++ [⟨insn.newPos, entry.line⟩]) ++ others ++ later := by
              rw [show written ++ gap ++ entry :: later = written ++ (read :: (others ++ later)) by
                  rw [List.append_assoc, ← List.cons_append, ← readEq]
                  simp]
              rw [List.set_append_right _ _ (Nat.le_refl _), Nat.sub_self]
              simp
            have step := induction (some insn.newPos)
              (written ++ [⟨insn.newPos, entry.line⟩]) others
            rw [List.length_append, List.length_singleton, lengths,
              Nat.add_right_comm] at step
            rw [table, step, List.append_assoc]
            rfl

theorem encodeLines_eq (code : List Insn) (lines : List LineEntry) :
    encodeLines code lines = movedFrom code none lines :=
  remapLines_eq code none [] [] lines

/-- An entry after it has moved. -/
def moved (code : List Insn) (entry : LineEntry) : LineEntry :=
  ⟨(code[lineIndex code entry.pc]?.map Insn.newPos).getD 0, entry.line⟩

def landing (code : List Insn) (lines : List LineEntry) : List LineEntry :=
  lines.filter fun entry => decide (lineIndex code entry.pc < code.length)

theorem moved_eq {code : List Insn} {entry : LineEntry} {insn : Insn}
    (found : code[lineIndex code entry.pc]? = some insn) :
    moved code entry = ⟨insn.newPos, entry.line⟩ := by
  rw [moved, found]
  rfl

variable {decoded placed : List Insn}

theorem Settled.lineIndex_live (isSettled : Settled constants decoded placed)
    {want : Nat} {insn : Insn} (found : placed[lineIndex placed want]? = some insn) :
    insn.deleted = false := by
  rcases isSettled.lineIndex_cases want with ⟨_, forward⟩ | ⟨_, _, head⟩
  · rw [forward] at found
    exact live_of_skipDeleted found
  · obtain ⟨other, otherAt, live⟩ := head.live
    rw [found] at otherAt
    cases otherAt
    exact live

theorem Placed.newPos_le (isPlaced : Placed constants decoded placed)
    {first second : Nat} {a b : Insn} (before : first < second)
    (aAt : placed[first]? = some a) (bAt : placed[second]? = some b)
    (aLive : a.deleted = false) (bLive : b.deleted = false) :
    a.newPos + a.rawLen ≤ b.newPos ∧ 0 < a.rawLen := by
  have long := (isPlaced.whole aAt aLive).rawLen
  have onward := liveLength_take_mono placed (Nat.succ_le_of_lt before)
  rw [liveLength_take_succ aAt, liveLen_of_live aLive, ← isPlaced.newPos first a aAt aLive,
    ← isPlaced.newPos second b bAt bLive] at onward
  omega

theorem Placed.index_of_newPos (isPlaced : Placed constants decoded placed)
    {first second : Nat} {a b : Insn} (aAt : placed[first]? = some a)
    (bAt : placed[second]? = some b) (aLive : a.deleted = false)
    (bLive : b.deleted = false) (same : a.newPos = b.newPos) : first = second := by
  rcases Nat.lt_trichotomy first second with before | equal | after
  · have apart := isPlaced.newPos_le before aAt bAt aLive bLive
    omega
  · exact equal
  · have apart := isPlaced.newPos_le after bAt aAt bLive aLive
    omega

theorem Placed.movedFrom_eq (isPlaced : Placed constants decoded placed) (lines : List LineEntry) :
    movedFrom placed none lines =
      (Table.collapse (fun entry => lineIndex placed entry.pc) (landing placed lines)).map
        (moved placed) := by
  have behind (last : LineEntry) (lines : List LineEntry) {lastInsn : Insn}
      (lastAt : placed[lineIndex placed last.pc]? = some lastInsn) :
      moved placed last :: movedFrom placed (some lastInsn.newPos) lines =
        ((landing placed lines).destutter' (fun first second =>
          lineIndex placed first.pc ≠ lineIndex placed second.pc) last).map (moved placed) := by
    induction lines generalizing last lastInsn with
    | nil => rfl
    | cons entry later induction =>
        unfold movedFrom
        cases found : placed[lineIndex placed entry.pc]? with
        | none =>
            have outside := List.getElem?_eq_none_iff.mp found
            rw [landing, List.filter_cons_of_neg (by simpa using outside)]
            exact induction last lastAt
        | some insn =>
            have inside := (List.getElem?_eq_some_iff.mp found).1
            rw [landing, List.filter_cons_of_pos (by simpa using inside)]
            dsimp only
            split
            · rename_i same
              have sameIndex := isPlaced.index_of_newPos lastAt found
                (isPlaced.settled.lineIndex_live lastAt)
                (isPlaced.settled.lineIndex_live found) (Option.some.inj same)
              rw [List.destutter'_cons_neg _ (not_not.mpr sameIndex)]
              exact induction last lastAt
            · rename_i different
              have apart : lineIndex placed last.pc ≠ lineIndex placed entry.pc := by
                intro sameIndex
                rw [sameIndex, found] at lastAt
                cases lastAt
                exact different rfl
              rw [List.destutter'_cons_pos (a := entry) (b := last) _ apart, List.map_cons,
                ← moved_eq found]
              exact congrArg _ (induction entry found)
  induction lines with
  | nil => rfl
  | cons entry later induction =>
      unfold movedFrom
      cases found : placed[lineIndex placed entry.pc]? with
      | none =>
          have outside := List.getElem?_eq_none_iff.mp found
          rw [landing, List.filter_cons_of_neg (by simpa using outside)]
          exact induction
      | some insn =>
          have inside := (List.getElem?_eq_some_iff.mp found).1
          rw [landing, List.filter_cons_of_pos (by simpa using inside)]
          dsimp only
          rw [if_neg (by simp), ← moved_eq found]
          exact behind entry later found

/-- The line that the instruction at `index` gets: of the entries that move to it
or to one before it, those that move furthest meet on one instruction, and the
first of these counts.  Without such an entry there is no line. -/
inductive Attributed (placed : List Insn) (lines : List LineEntry) (index : Nat) :
    Nat → Prop
  | first {entry : LineEntry} (member : entry ∈ lines)
      (within : lineIndex placed entry.pc ≤ index)
      (furthest : ∀ other ∈ lines, lineIndex placed other.pc ≤ index →
        lineIndex placed other.pc ≤ lineIndex placed entry.pc)
      (earliest : ∀ other ∈ lines,
        lineIndex placed other.pc = lineIndex placed entry.pc → entry.pc ≤ other.pc) :
      Attributed placed lines index entry.line
  | none (beyond : ∀ entry ∈ lines, index < lineIndex placed entry.pc) :
      Attributed placed lines index 0

/-- Nothing but the entry that covers `before`, the instruction at `index`, bears on
its line: no entry stands inside it, no entry of an absorbed instruction moves
back to it, and no earlier entry meets the covering one. -/
structure Undisturbed (placed : List Insn) (lines : List LineEntry) (index : Nat)
    (before : Insn) : Prop where
  outside : ∀ entry ∈ lines, entry.pc ≤ before.oldPos ∨
    before.oldPos + before.rawLen ≤ entry.pc
  unabsorbed : ∀ entry ∈ lines, before.oldPos < entry.pc →
    lineIndex placed entry.pc ≠ index
  unmet : ∀ entry ∈ lines, ∀ other ∈ lines, other.pc < entry.pc →
    entry.pc ≤ before.oldPos →
    lineIndex placed other.pc = lineIndex placed entry.pc →
    ∃ third ∈ lines, entry.pc < third.pc ∧ third.pc ≤ before.oldPos

theorem Placed.ordered {length : Nat} (isPlaced : Placed constants decoded placed)
    (isDecoded : Decoded constants length decoded) : Ordered placed := by
  intro first second a b before aAt bAt
  have inside {index : Nat} {insn : Insn} (found : placed[index]? = some insn) :
      ∃ earlier, decoded[index]? = some earlier ∧ insn.oldPos = earlier.oldPos := by
    have bound := (List.getElem?_eq_some_iff.mp found).1
    rw [isPlaced.settled.length] at bound
    have earlierAt := List.getElem?_eq_getElem bound
    exact ⟨_, earlierAt, isPlaced.settled.oldPos index _ insn earlierAt found⟩
  obtain ⟨aEarlier, aEarlierAt, aPos⟩ := inside aAt
  obtain ⟨bEarlier, bEarlierAt, bPos⟩ := inside bAt
  have apart := isDecoded.laid.oldPos_le before aEarlierAt bEarlierAt
  omega

theorem Settled.lineIndex_le (isSettled : Settled constants decoded placed)
    (ordered : Ordered placed) {index want : Nat} {now : Insn}
    (nowAt : placed[index]? = some now) (live : now.deleted = false)
    (before : want ≤ now.oldPos) : lineIndex placed want ≤ index := by
  have spec := entryIndex_spec ordered want
  have upTo : entryIndex placed want ≤ index := by
    by_contra beyond
    have early := spec.below index now (Nat.lt_of_not_le beyond) nowAt
    omega
  rcases isSettled.lineIndex_cases want with ⟨_, forward⟩ | ⟨_, _, head⟩
  · rw [forward]
    exact skipDeleted_le upTo nowAt live
  · exact head.before.le.trans upTo

theorem Settled.le_lineIndex (isSettled : Settled constants decoded placed)
    (ordered : Ordered placed) {index want : Nat} {now : Insn}
    (nowAt : placed[index]? = some now) (live : now.deleted = false)
    (behind : now.oldPos < want) : index ≤ lineIndex placed want := by
  have spec := entryIndex_spec ordered want
  have after : index < entryIndex placed want := by
    by_contra upTo
    have late := spec.above index now (Nat.le_of_not_lt upTo) nowAt
    omega
  rcases isSettled.lineIndex_cases want with ⟨_, forward⟩ | ⟨_, _, head⟩
  · rw [forward]
    exact after.le.trans le_skipDeleted
  · by_contra notLe
    rw [head.between index (Nat.lt_of_not_le notLe) after.le now nowAt] at live
    cases live

theorem Attributed.eq_before (isSettled : Settled constants decoded placed)
    (ordered : Ordered placed) {lines : List LineEntry} {index line ip : Nat}
    {before now : Insn} (sorted : lines.Pairwise fun first second => first.pc < second.pc)
    (apart : ∀ first ∈ lines, ∀ second ∈ lines, ¬ Interleaved placed first second)
    (nowAt : placed[index]? = some now) (live : now.deleted = false)
    (beforeAt : decoded[index]? = some before)
    (after : before.oldPos < ip) (upTo : ip ≤ before.oldPos + before.rawLen)
    (undisturbed : Undisturbed placed lines index before)
    (attributed : Attributed placed lines index line) :
    line = lookupSourceLine lines ip := by
  have samePos := isSettled.oldPos index before now beforeAt nowAt
  have within {entry : LineEntry} (member : entry ∈ lines) :
      entry.pc ≤ ip - 1 ↔ entry.pc ≤ before.oldPos := by
    rcases undisturbed.outside entry member with low | high
    · exact ⟨fun _ => low, fun _ => by omega⟩
    · exact ⟨fun inside => by omega, fun inside => by omega⟩
  rw [lookupSourceLine, scanLines_eq]
  rcases Table.exists_greatest LineEntry.pc (ip - 1) lines with
    beyond | ⟨covering, isCovering, inside, greatest⟩
  · rw [Table.floor_eq_none beyond]
    cases attributed with
    | none => rfl
    | @first entry member reaches =>
        have far := beyond entry member
        have low : before.oldPos < entry.pc := by omega
        have notBefore := isSettled.le_lineIndex ordered nowAt live (samePos ▸ low)
        exact absurd (Nat.le_antisymm reaches notBefore) (undisturbed.unabsorbed entry member low)
  · rw [Table.floor_eq_some sorted isCovering inside greatest]
    have coveringLow := (within isCovering).mp inside
    have coveringReaches := isSettled.lineIndex_le ordered nowAt live
      (show covering.pc ≤ now.oldPos by omega)
    cases attributed with
    | none beyond =>
        have far := beyond covering isCovering
        omega
    | @first entry member reaches furthest earliest =>
        have low : entry.pc ≤ before.oldPos := by
          by_contra high
          have behind := Nat.lt_of_not_le high
          have notBefore := isSettled.le_lineIndex ordered nowAt live (samePos ▸ behind)
          exact undisturbed.unabsorbed entry member behind (Nat.le_antisymm reaches notBefore)
        have entryLe := greatest entry member ((within member).mpr low)
        have meets := Nat.le_antisymm (furthest covering isCovering coveringReaches)
          (isSettled.lineIndex_mono ordered entryLe (apart entry member covering isCovering))
        have notLater := earliest covering isCovering meets
        have same : entry.pc = covering.pc := by
          rcases Nat.eq_or_lt_of_le entryLe with same | earlier
          · exact same
          · obtain ⟨third, isThird, beyond, thirdLow⟩ := undisturbed.unmet covering isCovering
              entry member earlier coveringLow meets.symm
            have notBeyond := greatest third isThird ((within isThird).mpr thirdLow)
            omega
        have distinct : (lines.map LineEntry.pc).Nodup :=
          List.pairwise_map.mpr (sorted.imp Nat.ne_of_lt)
        have sameEntry : entry = covering :=
          List.inj_on_of_nodup_map distinct member isCovering same
        rw [sameEntry]
        rfl

section Written

variable {lines : List LineEntry}

theorem mem_landing {code : List Insn} {entry : LineEntry} :
    entry ∈ landing code lines ↔ entry ∈ lines ∧ ∃ insn,
      code[lineIndex code entry.pc]? = some insn := by
  rw [landing, List.mem_filter, decide_eq_true_iff]
  refine and_congr_right fun _ => ⟨fun inside => ⟨_, List.getElem?_eq_getElem inside⟩, ?_⟩
  rintro ⟨insn, found⟩
  exact (List.getElem?_eq_some_iff.mp found).1

def keptEntries (code : List Insn) (lines : List LineEntry) : List LineEntry :=
  Table.collapse (fun entry => lineIndex code entry.pc) (landing code lines)

theorem Settled.landing_mono (isSettled : Settled constants decoded placed)
    (ordered : Ordered placed)
    (sorted : lines.Pairwise fun first second => first.pc < second.pc)
    (apart : ∀ first ∈ lines, ∀ second ∈ lines, ¬ Interleaved placed first second) :
    (landing placed lines).Pairwise fun first second =>
      lineIndex placed first.pc ≤ lineIndex placed second.pc := by
  have stillSorted := sorted.sublist
    (List.filter_sublist (p := fun entry =>
      decide (lineIndex placed entry.pc < placed.length)))
  apply stillSorted.imp_of_mem
  intro first second firstIn secondIn less
  exact isSettled.lineIndex_mono ordered less.le
    (apart first (mem_landing.mp firstIn).1 second (mem_landing.mp secondIn).1)

theorem Placed.moved_sorted (isPlaced : Placed constants decoded placed)
    (monotone : (landing placed lines).Pairwise fun first second =>
      lineIndex placed first.pc ≤ lineIndex placed second.pc) :
    ((keptEntries placed lines).map (moved placed)).Pairwise fun first second =>
      first.pc < second.pc := by
  rw [List.pairwise_map]
  apply (Table.collapse_sorted monotone).imp_of_mem
  intro first second firstIn secondIn less
  obtain ⟨_, a, aAt⟩ := mem_landing.mp (Table.mem_of_mem_collapse firstIn)
  obtain ⟨_, b, bAt⟩ := mem_landing.mp (Table.mem_of_mem_collapse secondIn)
  rw [moved_eq aAt, moved_eq bAt]
  have apart := isPlaced.newPos_le less aAt bAt (isPlaced.settled.lineIndex_live aAt)
    (isPlaced.settled.lineIndex_live bAt)
  dsimp only
  omega

/-- A kept entry is found at an instruction exactly if it moved to it or to one
before. -/
theorem Placed.moved_within (isPlaced : Placed constants decoded placed)
    {entry : LineEntry} (kept : entry ∈ keptEntries placed lines) {index ip : Nat}
    {now : Insn} (nowAt : placed[index]? = some now) (live : now.deleted = false)
    (after : now.newPos < ip) (upTo : ip ≤ now.newPos + now.rawLen) :
    (moved placed entry).pc ≤ ip - 1 ↔ lineIndex placed entry.pc ≤ index := by
  obtain ⟨_, insn, found⟩ := mem_landing.mp (Table.mem_of_mem_collapse kept)
  have insnLive := isPlaced.settled.lineIndex_live found
  rw [moved_eq found]
  dsimp only
  rcases Nat.lt_trichotomy (lineIndex placed entry.pc) index with before | same | beyond
  · have order := isPlaced.newPos_le before found nowAt insnLive live
    exact ⟨fun _ => before.le, fun _ => by omega⟩
  · rw [same, nowAt] at found
    cases found
    exact ⟨fun _ => same.le, fun _ => by omega⟩
  · have order := isPlaced.newPos_le beyond nowAt found live insnLive
    exact ⟨fun low => by omega, fun low => by omega⟩

theorem Placed.attributed (isPlaced : Placed constants decoded placed)
    (sorted : lines.Pairwise fun first second => first.pc < second.pc)
    (monotone : (landing placed lines).Pairwise fun first second =>
      lineIndex placed first.pc ≤ lineIndex placed second.pc)
    {index ip : Nat} {now : Insn} (nowAt : placed[index]? = some now)
    (live : now.deleted = false) (after : now.newPos < ip)
    (upTo : ip ≤ now.newPos + now.rawLen) :
    Attributed placed lines index
      (lookupSourceLine ((keptEntries placed lines).map (moved placed)) ip) := by
  have inside : index < placed.length := (List.getElem?_eq_some_iff.mp nowAt).1
  -- Every entry that moves to `index` or before has a kept one in its place.
  have represented {entry : LineEntry} (member : entry ∈ lines)
      (reaches : lineIndex placed entry.pc ≤ index) : entry ∈ landing placed lines ∧
      ∃ kept ∈ keptEntries placed lines, lineIndex placed kept.pc = lineIndex placed entry.pc := by
    have lands : entry ∈ landing placed lines := mem_landing.mpr
      ⟨member, _, List.getElem?_eq_getElem (reaches.trans_lt inside)⟩
    exact ⟨lands, Table.exists_mem_collapse lands⟩
  rw [lookupSourceLine, scanLines_eq]
  rcases Table.exists_greatest (fun entry => lineIndex placed entry.pc) index
    (keptEntries placed lines) with beyond | ⟨entry, isKept, reaches, greatest⟩
  · rw [Table.floor_eq_none]
    · apply Attributed.none
      intro entry member
      by_contra notBeyond
      obtain ⟨_, kept, isKept, same⟩ := represented member (Nat.le_of_not_lt notBeyond)
      exact notBeyond (same ▸ beyond kept isKept)
    · intro found member
      obtain ⟨kept, isKept, rfl⟩ := List.mem_map.mp member
      by_contra notBeyond
      have within := (isPlaced.moved_within isKept nowAt live after upTo).mp
        (Nat.le_of_not_lt notBeyond)
      exact absurd (beyond kept isKept) (Nat.not_lt_of_le within)
  · obtain ⟨member, insn, insnAt⟩ := mem_landing.mp (Table.mem_of_mem_collapse isKept)
    have insnLive := isPlaced.settled.lineIndex_live insnAt
    have greatestMoved : ∀ found ∈ (keptEntries placed lines).map (moved placed),
        found.pc ≤ ip - 1 → found.pc ≤ (moved placed entry).pc := by
      intro found foundIn within
      obtain ⟨kept, keptIn, rfl⟩ := List.mem_map.mp foundIn
      have keptReaches :=
        (isPlaced.moved_within keptIn nowAt live after upTo).mp within
      have order := greatest kept keptIn keptReaches
      obtain ⟨_, other, otherAt⟩ := mem_landing.mp (Table.mem_of_mem_collapse keptIn)
      rw [moved_eq insnAt, moved_eq otherAt]
      rcases Nat.eq_or_lt_of_le order with same | before
      · rw [same, insnAt] at otherAt
        cases otherAt
        exact Nat.le_refl _
      · have apart := isPlaced.newPos_le before otherAt insnAt
          (isPlaced.settled.lineIndex_live otherAt) insnLive
        dsimp only
        omega
    rw [Table.floor_eq_some (isPlaced.moved_sorted monotone) (List.mem_map_of_mem isKept)
      ((isPlaced.moved_within isKept nowAt live after upTo).mpr reaches) greatestMoved]
    apply Attributed.first member reaches
    · intro other otherIn otherReaches
      obtain ⟨_, kept, keptIn, same⟩ := represented otherIn otherReaches
      have le := greatest kept keptIn (same ▸ otherReaches)
      rwa [same] at le
    · intro other otherIn same
      obtain ⟨lands, _⟩ := represented otherIn (same ▸ reaches)
      have : IsTrans LineEntry fun first second => first.pc < second.pc :=
        ⟨fun _ _ _ => Nat.lt_trans⟩
      rcases Table.collapse_first (sorted.sublist List.filter_sublist) monotone isKept
        lands same with rfl | later
      · exact Nat.le_refl _
      · exact later.le

end Written

/-- Where no entry of a removed instruction stands between an absorbed instruction
with an entry and its head, the written line map is sorted again.  Every live
instruction gets the line of the first of the entries that meet furthest on, and
keeps its own where nothing disturbs that. -/
theorem line_map_remapped (env : Environment) (constants : Pool) (buffers : Buffers)
    (decoded : List Insn) (lines : List LineEntry)
    (decodes : peepDecode constants buffers.code = some decoded)
    (accepted : (peepholeRun env constants buffers).1 = 1)
    (given : buffers.lines = some lines)
    (sorted : lines.Pairwise fun first second => first.pc < second.pc)
    (apart : ∀ first ∈ lines, ∀ second ∈ lines, ¬ Interleaved (encoded env decoded) first second) :
    let placed := encoded env decoded
    ∃ written, (peepholeRun env constants buffers).2.lines = some written ∧
      (written.Pairwise fun first second => first.pc < second.pc) ∧
      ∀ (index : Nat) (before now : Insn) (ip : Nat), decoded[index]? = some before →
        placed[index]? = some now → now.deleted = false →
        now.newPos < ip → ip ≤ now.newPos + now.rawLen →
        Attributed placed lines index (lookupSourceLine written ip) ∧
        (Undisturbed placed lines index before → ∀ ipBefore, before.oldPos < ipBefore →
            ipBefore ≤ before.oldPos + before.rawLen →
            lookupSourceLine written ip = lookupSourceLine lines ipBefore) := by
  obtain ⟨isPlaced, _, linesEq⟩ := accepted_placed decodes accepted
  have ordered := isPlaced.ordered (peepDecode_decoded decodes)
  have monotone := isPlaced.settled.landing_mono ordered sorted apart
  dsimp only
  rw [linesEq, given, Option.map_some, encodeLines_eq, isPlaced.movedFrom_eq]
  refine ⟨_, rfl, isPlaced.moved_sorted monotone, ?_⟩
  intro index before now ip beforeAt nowAt live after upTo
  have attributed := isPlaced.attributed sorted monotone nowAt live after upTo
  refine ⟨attributed, ?_⟩
  intro undisturbed ipBefore afterBefore upToBefore
  exact attributed.eq_before isPlaced.settled ordered sorted apart nowAt live beforeAt
    afterBefore upToBefore undisturbed

/-- `LOAD 0`, `POP`, `NIL`, `RET` with a line each for the pair and its
successors. -/
def removedPair : Buffers where
  code := [0x02, 0, 0x10, 0x81, 0x72]
  lines := some [⟨0, 10⟩, ⟨3, 11⟩, ⟨4, 12⟩]

/-- A removed pair of instructions leaves a sorted line map. -/
theorem line_map_remapped_removedPair :
    ∃ written, (peepholeRun {} none removedPair).2.lines = some written ∧
      written.Pairwise fun first second => first.pc < second.pc := by
  have decodes : peepDecode none removedPair.code =
      some ((peepDecode none removedPair.code).getD []) := by decide +kernel
  obtain ⟨written, found, sorted, _⟩ := line_map_remapped {} none removedPair _ _ decodes
    (by decide +kernel) rfl (by decide) (by decide +kernel)
  exact ⟨written, found, sorted⟩

/-- The pair is removed and its line wins: `NIL`, which had line 11 and is now at
the front, gets line 10. -/
theorem removedPair_takes_line :
    peepholeRun {} none removedPair = (1, ⟨[0x81, 0x72], some [⟨0, 10⟩, ⟨1, 12⟩]⟩) ∧
      ((encoded {} ((peepDecode none removedPair.code).getD []))[2]?.map fun insn =>
        (insn.op, insn.deleted, insn.oldPos, insn.newPos)) = some (.opNil, false, 3, 0) ∧
      lookupSourceLine [⟨0, 10⟩, ⟨3, 11⟩, ⟨4, 12⟩] 4 = 11 ∧
      lookupSourceLine [⟨0, 10⟩, ⟨1, 12⟩] 1 = 10 := by
  decide +kernel

/-- A removed pair between an instruction and the one it absorbs: the table is not
sorted afterwards. -/
example : (peepholeRun {} none
    ⟨[0x02, 1, 0x02, 2, 0x10, 0x02, 3, 0x81, 0x10, 0x72],
      some [⟨0, 10⟩, ⟨2, 11⟩, ⟨5, 12⟩]⟩).2.lines.map (·.map LineEntry.pc) =
      some [0, 3, 0] := by
  decide +kernel

end ClAmiga.Peephole
