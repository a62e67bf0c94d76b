import ClAmiga.Gc.ForwardAgreement
import ClAmiga.Gc.RootUpdateSpec

/-!
# Registered roots are forwarded once

In the sorted list of registered addresses every address has one first copy.
The probe flags the first copies of the addresses the walks visit, so the last
loop is left with the first copies of all others.
-/

namespace ClAmiga.Gc

def IsFirstCopy (buf : List Nat) (slot i : Nat) : Prop :=
  i < buf.length ∧ buf.getD i 0 = slot ∧ (i = 0 ∨ buf.getD (i - 1) 0 ≠ slot)

theorem getD_eq {buf : List Nat} {i : Nat} (inside : i < buf.length) : buf.getD i 0 = buf[i] := by
  simp [List.getD_eq_getElem?_getD, inside]

theorem getD_mono {buf : List Nat} (sorted : buf.Pairwise (· ≤ ·)) {i j : Nat}
    (order : i ≤ j) (inside : j < buf.length) :
    buf.getD i 0 ≤ buf.getD j 0 := by
  have insideI : i < buf.length := order.trans_lt inside
  rw [getD_eq insideI, getD_eq inside]
  rcases Nat.eq_or_lt_of_le order with rfl | before
  · exact le_refl _
  · exact List.pairwise_iff_getElem.mp sorted i j insideI inside before

theorem IsFirstCopy.unique {buf : List Nat} (sorted : buf.Pairwise (· ≤ ·))
    {slot i j : Nat} (first : IsFirstCopy buf slot i)
    (second : IsFirstCopy buf slot j) : i = j := by
  have before : ∀ {i j}, IsFirstCopy buf slot i → IsFirstCopy buf slot j → ¬ i < j := by
    intro i j first second less
    obtain ⟨_, valueI, _⟩ := first
    obtain ⟨insideJ, valueJ, start⟩ := second
    rcases start with zero | different
    · omega
    · have low := getD_mono sorted (show i ≤ j - 1 by omega) (by omega)
      have high := getD_mono sorted (show j - 1 ≤ j by omega) insideJ
      omega
  have := before first second
  have := before second first
  omega

/-- The walk back ends at the first of equal entries. -/
theorem firstCopy_spec {buf : List Nat} {slot mid : Nat}
    (inside : mid < buf.length) (value : buf.getD mid 0 = slot) :
    IsFirstCopy buf slot (firstCopy buf slot mid) := by
  induction mid with
  | zero => exact ⟨inside, value, Or.inl rfl⟩
  | succ mid induction =>
      rw [firstCopy]
      split
      · rename_i same
        exact induction (by omega) same
      · rename_i different
        exact ⟨inside, value, Or.inr different⟩

theorem exists_firstCopy {buf : List Nat} {slot : Nat} (member : slot ∈ buf) :
    ∃ i, IsFirstCopy buf slot i := by
  obtain ⟨k, inside, value⟩ := List.mem_iff_getElem.mp member
  exact ⟨_, firstCopy_spec inside (by rw [getD_eq inside, value])⟩

/-- What the search finds is the first copy of the slot. -/
theorem aliasSearch_sound {buf : List Nat} {slot : Nat} (fuel lo hi i : Nat)
    (inside : hi ≤ buf.length)
    (found : aliasSearch buf slot fuel lo hi = some i) :
    IsFirstCopy buf slot i := by
  induction fuel generalizing lo hi with
  | zero => simp [aliasSearch] at found
  | succ fuel induction =>
      rw [aliasSearch] at found
      split at found
      · dsimp only at found
        split at found
        · exact induction _ _ inside found
        · split at found
          · exact induction _ _ (by omega) found
          · rw [Option.some.injEq] at found
            rw [← found]
            exact firstCopy_spec (by omega) (by omega)
      · simp at found

/-- In a sorted buffer the search finds every slot that is there. -/
theorem aliasSearch_complete {buf : List Nat} (sorted : buf.Pairwise (· ≤ ·))
    {slot k : Nat} (value : buf.getD k 0 = slot) (fuel lo hi : Nat)
    (enough : hi - lo ≤ fuel) (inside : hi ≤ buf.length) (above : lo ≤ k)
    (below : k < hi) : ∃ i, aliasSearch buf slot fuel lo hi = some i := by
  induction fuel generalizing lo hi with
  | zero => omega
  | succ fuel induction =>
      rw [aliasSearch, if_pos (by omega)]
      dsimp only
      split
      · rename_i small
        refine induction _ _ (by omega) inside ?_ below
        by_contra before
        have := getD_mono sorted (show k ≤ (lo + hi) / 2 by omega) (by omega)
        omega
      · split
        · rename_i _ large
          refine induction _ _ (by omega) (by omega) above ?_
          by_contra after
          have := getD_mono sorted (show (lo + hi) / 2 ≤ k by omega) (by omega)
          omega
        · exact ⟨_, rfl⟩

theorem length_gcAliasProbe (buf : List Nat) (flags : List Bool) (slot : Nat) :
    (gcAliasProbe buf flags slot).length = flags.length := by
  unfold gcAliasProbe
  split
  · exact List.length_set
  · rfl

theorem flags_iff {buf : List Nat} (probed : List Nat) (flags : List Bool)
    {i : Nat} (inside : i < flags.length) :
    (probed.foldl (gcAliasProbe buf) flags).getD i false = true ↔
      flags.getD i false = true ∨ ∃ slot ∈ probed,
        aliasSearch buf slot buf.length 0 buf.length = some i := by
  induction probed generalizing flags with
  | nil => simp
  | cons slot probed induction =>
      rw [List.foldl_cons,
        induction _ (by rw [length_gcAliasProbe]; exact inside),
        List.exists_mem_cons_iff, ← or_assoc]
      refine or_congr_left ?_
      unfold gcAliasProbe
      split
      · rename_i j found
        rw [List.getD_eq_getElem?_getD, List.getElem?_set, found]
        by_cases here : j = i
        · subst here
          simp [inside]
        · simp [here, List.getD_eq_getElem?_getD]
      · rename_i missing
        simp [missing]

def Kept (buf : List Nat) (flags : List Bool) (i : Nat) : Bool :=
  !decide (0 < i ∧ buf.getD i 0 = buf.getD (i - 1) 0) && !flags.getD i false

theorem foldl_updateRegistered (forwarder : Forwarder) (buf : List Nat)
    (flags : List Bool) (indices : List Nat) (update : Update) :
    indices.foldl (updateRegistered forwarder buf flags) update =
      ((indices.filter (Kept buf flags)).map (buf.getD · 0)).foldl
        (gcUpdateSlot forwarder) update := by
  induction indices generalizing update with
  | nil => rfl
  | cons i indices induction =>
      rw [List.foldl_cons, induction]
      unfold updateRegistered
      split
      · rename_i copy
        rw [List.filter_cons_of_neg (by rw [Kept, decide_eq_true copy]; simp)]
      · rename_i first
        split
        · rename_i flagged
          rw [List.filter_cons_of_neg (by rw [Kept, flagged]; simp)]
        · rename_i free
          rw [Bool.not_eq_true] at free
          rw [List.filter_cons_of_pos (by rw [Kept, decide_eq_false first, free]; rfl)]
          rfl

theorem kept_iff {buf : List Nat} {flags : List Bool} {i : Nat} (inside : i < buf.length) :
    Kept buf flags i = true ↔ IsFirstCopy buf (buf.getD i 0) i ∧ flags.getD i false = false := by
  rw [Kept, Bool.and_eq_true, Bool.not_eq_true', Bool.not_eq_true',
    decide_eq_false_iff_not, not_and]
  refine and_congr_left fun _ => ?_
  constructor
  · intro first
    refine ⟨inside, rfl, ?_⟩
    rcases Nat.eq_zero_or_pos i with zero | positive
    · exact Or.inl zero
    · exact Or.inr fun same => first positive same.symm
  · rintro ⟨_, _, start⟩ positive same
    rcases start with zero | different
    · omega
    · exact different same.symm

/-- What is forwarded are the registered slots no other walk has, each once. -/
theorem kept_spec {registered probed : List Nat} {buf : List Nat}
    {flags : List Bool} (sort : buf = registered.mergeSort (· ≤ ·))
    (probe : flags = probed.foldl (gcAliasProbe buf) (List.replicate buf.length false)) :
    (((List.range buf.length).filter (Kept buf flags)).map (buf.getD · 0)).Nodup ∧
      ∀ slot, slot ∈ ((List.range buf.length).filter (Kept buf flags)).map
          (buf.getD · 0) ↔ slot ∈ registered ∧ slot ∉ probed := by
  have sorted : buf.Pairwise (· ≤ ·) := by
    rw [sort]
    exact sortPins_sorted registered
  have member : ∀ slot, slot ∈ buf ↔ slot ∈ registered := by
    intro slot
    rw [sort]
    exact List.mem_mergeSort
  have flagged : ∀ i, i < buf.length → (flags.getD i false = true ↔ ∃ slot ∈ probed,
        aliasSearch buf slot buf.length 0 buf.length = some i) := by
    intro i inside
    rw [probe, flags_iff probed _ (by simpa using inside)]
    simp [List.getD_eq_getElem?_getD, inside]
  refine ⟨?_, ?_⟩
  · refine List.Nodup.map_on ?_ (List.nodup_range.filter _)
    intro i first j second same
    simp only [List.mem_filter, List.mem_range] at first second
    have here := ((kept_iff first.1).mp first.2).1
    have there := ((kept_iff second.1).mp second.2).1
    rw [← same] at there
    exact here.unique sorted there
  · intro slot
    simp only [List.mem_map, List.mem_filter, List.mem_range]
    constructor
    · rintro ⟨i, ⟨inside, kept⟩, rfl⟩
      obtain ⟨first, free⟩ := (kept_iff inside).mp kept
      refine ⟨?_, ?_⟩
      · rw [← member, getD_eq inside]
        exact List.getElem_mem inside
      · intro probedHere
        obtain ⟨j, found⟩ := aliasSearch_complete sorted rfl buf.length 0
          buf.length (by omega) (le_refl _) (by omega) inside
        have same : j = i := (aliasSearch_sound _ _ _ j (le_refl _) found).unique sorted first
        have set := (flagged i inside).mpr ⟨_, probedHere, same ▸ found⟩
        rw [free] at set
        simp at set
    · rintro ⟨registeredHere, unprobed⟩
      obtain ⟨i, first⟩ := exists_firstCopy ((member slot).mpr registeredHere)
      have value := first.2.1
      refine ⟨i, ⟨first.1, (kept_iff first.1).mpr ⟨by rwa [value], ?_⟩⟩, value⟩
      rw [← Bool.not_eq_true]
      intro set
      obtain ⟨other, otherProbed, found⟩ := (flagged i first.1).mp set
      have same := (aliasSearch_sound _ _ _ i (le_refl _) found).2.1
      rw [value] at same
      exact unprobed (same ▸ otherProbed)

/-- With the buffer available the registered pass updates every registered
address that no walk visits, once. -/
theorem gcUpdateRegisteredRoots_spec (process : Process) (layout : Layout)
    (forwarder : Forwarder) {slotCap : Nat} {allocated : Bool} (update : Update)
    (available : process.registered.length ≤ slotCap ∨ allocated = true) :
    ∃ kept : List Nat, gcUpdateRegisteredRoots process layout forwarder slotCap allocated update =
        kept.foldl (gcUpdateSlot forwarder) update ∧ kept.Nodup ∧
      ∀ slot, slot ∈ kept ↔ slot ∈ process.registered ∧
        slot ∉ visited layout update.memory (stepsOf process.threadSegments) ++
          visited layout update.memory (stepsOf process.sharedSegments) := by
  unfold gcUpdateRegisteredRoots
  dsimp only
  split
  · rename_i empty
    refine ⟨[], rfl, List.nodup_nil, ?_⟩
    rw [List.eq_nil_of_length_eq_zero empty]
    simp
  · rw [if_neg]
    · obtain ⟨distinct, members⟩ := @kept_spec process.registered
        (visited layout update.memory (stepsOf process.threadSegments) ++
          visited layout update.memory (stepsOf process.sharedSegments)) _ _ rfl
        rfl
      exact ⟨_, foldl_updateRegistered _ _ _ _ _, distinct, members⟩
    · rintro ⟨short, failed⟩
      rcases available with fits | success
      · omega
      · rw [failed] at success
        simp at success

/-- `gc_forward` after the second pass of a compaction. -/
def Arena.forward {host : Host} (arena : Arena host) (pins : List Nat)
    (obj : Nat) : Nat :=
  (gcForward arena (gcComputeForwarding arena pins) obj).getD obj

theorem Arena.forward_cases {host : Host} (arena : Arena host) (pins : List Nat)
    (room : arena.bump + host.page ≤ 2 ^ 32) (obj : Nat) :
    arena.forward pins obj = obj ∨ (0 < obj ∧ obj < clUnbound ∧ 0 < arena.forward pins obj ∧
        arena.forward pins obj < clUnbound) := by
  have page : 256 ≤ host.page := by
    cases host <;> decide
  have positive := host.align_pos
  unfold Arena.forward
  by_cases unmoved : Immediate obj ∨ ¬ LiveAt arena.blocks obj
  · left
    rw [gcForward_same arena pins unmoved]
    rfl
  · right
    rw [not_or, not_not] at unmoved
    obtain ⟨pointer, live⟩ := unmoved
    obtain ⟨above, below⟩ := live.bounds arena.chained
    obtain ⟨low, high⟩ := sumAt_bounds arena pins obj (obj + 1)
    rw [gcForward_live arena pins pointer live (page_inside room below), Option.getD_some]
    unfold clUnbound
    omega

/-- So a compaction's forwarding keeps the sentinels the walks test for. -/
def Arena.forwarder {host : Host} (arena : Arena host) (pins : List Nat)
    (room : arena.bump + host.page ≤ 2 ^ 32) : Forwarder where
  forward := arena.forward pins
  nil_iff obj := by
    rcases arena.forward_cases pins room obj with same | inside
    · rw [same]
    · omega
  unbound_iff obj := by
    rcases arena.forward_cases pins room obj with same | inside
    · rw [same]
    · omega

def RootSlot (process : Process) (layout : Layout) (memory : Memory)
    (slot : Nat) : Prop :=
  slot ∈ process.registered ∨
    slot ∈ visited layout memory (stepsOf process.threadSegments) ∨
    slot ∈ visited layout memory (stepsOf process.sharedSegments)

/-- With the dedup buffer available every root slot is forwarded exactly once,
and no other slot is touched. -/
theorem gcUpdateAllRoots_once (process : Process) (layout : Layout)
    (forwarder : Forwarder) (slotCap : Nat) (allocated : Bool) (memory : Memory)
    (available : process.registered.length ≤ slotCap ∨ allocated = true)
    (slot : Nat) :
    (RootSlot process layout memory slot →
      (gcUpdateAllRoots process layout forwarder slotCap allocated memory).log.count slot = 1 ∧
        (gcUpdateAllRoots process layout forwarder slotCap allocated
          memory).memory slot = forwarder.forward (memory slot)) ∧
    (¬ RootSlot process layout memory slot →
      (gcUpdateAllRoots process layout forwarder slotCap allocated memory).log.count slot = 0 ∧
        (gcUpdateAllRoots process layout forwarder slotCap allocated
          memory).memory slot = memory slot) := by
  have walks := @visited_nodup layout process memory
  obtain ⟨threadsDistinct, sharedDistinct, walksApart⟩ :=
    List.nodup_append.mp walks
  have afterThreads : SameSentinels memory (updateWalk layout forwarder ⟨memory, []⟩
        (stepsOf process.threadSegments)).memory := by
    rw [updateWalk_eq]
    exact sameSentinels_foldl _ _
  obtain ⟨kept, registered, keptDistinct, keptMembers⟩ :=
    gcUpdateRegisteredRoots_spec process layout forwarder (updateWalk layout forwarder ⟨memory, []⟩
        (stepsOf process.threadSegments)) available
  rw [visited_eq afterThreads, visited_eq afterThreads] at keptMembers
  have afterRegistered : SameSentinels memory
      (gcUpdateRegisteredRoots process layout forwarder slotCap allocated
        (updateWalk layout forwarder ⟨memory, []⟩ (stepsOf process.threadSegments))).memory := by
    rw [registered]
    exact afterThreads.trans (sameSentinels_foldl _ _)
  have whole : gcUpdateAllRoots process layout forwarder slotCap allocated memory =
      (visited layout memory (stepsOf process.threadSegments) ++ kept ++
        visited layout memory (stepsOf process.sharedSegments)).foldl
        (gcUpdateSlot forwarder) ⟨memory, []⟩ := by
    unfold gcUpdateAllRoots
    dsimp only
    rw [updateWalk_eq, visited_eq afterRegistered, registered, updateWalk_eq,
      List.foldl_append, List.foldl_append]
  have distinct : (visited layout memory (stepsOf process.threadSegments) ++
      kept ++ visited layout memory (stepsOf process.sharedSegments)).Nodup := by
    rw [List.nodup_append, List.nodup_append]
    refine ⟨⟨threadsDistinct, keptDistinct, ?_⟩, sharedDistinct, ?_⟩
    · rintro other walked _ later rfl
      exact ((keptMembers other).mp later).2 (List.mem_append_left _ walked)
    · rintro other first _ second rfl
      rcases List.mem_append.mp first with walked | later
      · exact walksApart other walked other second rfl
      · exact ((keptMembers other).mp later).2 (List.mem_append_right _ second)
  have members : slot ∈ visited layout memory (stepsOf process.threadSegments) ++
      kept ++ visited layout memory (stepsOf process.sharedSegments) ↔
      RootSlot process layout memory slot := by
    simp only [List.mem_append, keptMembers, RootSlot]
    tauto
  obtain ⟨log, values⟩ := @foldl_gcUpdateSlot forwarder _ distinct ⟨memory, []⟩
  rw [whole, log, values slot, List.nil_append]
  refine ⟨fun root => ?_, fun other => ?_⟩
  · rw [if_pos (members.mpr root)]
    exact ⟨List.count_eq_one_of_mem distinct (members.mpr root), rfl⟩
  · rw [if_neg (fun member => other (members.mp member))]
    exact ⟨List.count_eq_zero_of_not_mem
      (fun member => other (members.mp member)), rfl⟩

def Owner.code : Owner → Nat
  | .thread t => Nat.pair 0 t
  | .compiler t c => Nat.pair 1 (Nat.pair t c)
  | .reader i => Nat.pair 2 i
  | .writer i => Nat.pair 3 i
  | .static => Nat.pair 4 0

theorem Owner.code_injective : Function.Injective Owner.code := by
  intro first second same
  cases first <;> cases second <;> simp_all [Owner.code, Nat.pair_eq_pair]

def evenLayout : Layout where
  addr slot := 2 * Nat.pair (Nat.pair slot.owner.code slot.field.ctorIdx)
    (Nat.pair slot.i slot.j)
  injective := by
    intro first second same
    have halves := Nat.eq_of_mul_eq_mul_left (by decide) same
    simp only [Nat.pair_eq_pair] at halves
    obtain ⟨⟨owner, field⟩, i, j⟩ := halves
    have fields : Function.Injective Field.ctorIdx :=
      Function.LeftInverse.injective Field.ofNat_ctorIdx
    cases first
    cases second
    simp only [Slot.mk.injEq]
    exact ⟨Owner.code_injective owner, fields field, i, j⟩

/-- One thread that protected a variable twice and its first value register
once. -/
def protectingThread : Thread where
  dynTop := 0
  nlxTop := 0
  handlerTop := 0
  restartTop := 0
  hasStack := true
  sp := 2
  fp := 1
  mvSaveTop := 0
  pendingThrow := false
  pendingMvCount := 0
  savedPending := []
  prInprogTop := 0
  prCircleActive := false
  ltvInitCount := 0
  compilers := []
  vmExtraCount := 0
  gcRoots := [5, evenLayout.addr ⟨.thread 0, .mvValues, 0, 0⟩, 5]

def protectingProcess : Process where
  threads := [protectingThread]
  globalRoots := [5]
  readtableAllocMask := 1
  readers := []
  writers := []
  loadForms := none

/-- A dead block of 8 bytes, and a live one behind it that slides down to its place. -/
def slidingArena : Arena .bits32 where
  bump := 20
  header off := ⟨8, off = 12⟩
  bump_lt := by omega
  walkable := .block 4 (by decide) (by decide) (by decide)
    (.block 12 (by decide) (by decide) (by decide) .done)

theorem mvValues_visited (memory : Memory) : evenLayout.addr ⟨.thread 0, .mvValues, 0, 0⟩ ∈
      visited evenLayout memory (stepsOf protectingProcess.threadSegments) := by
  have segment : Segment.each (.thread 0) [.mvValues] maxMv ∈ protectingProcess.threadSegments := by
    simp [Process.threadSegments, protectingProcess, Thread.segments, Thread.leading]
  have step : (⟨.always, [⟨.thread 0, .mvValues, 0, 0⟩]⟩ : Step) ∈
      stepsOf protectingProcess.threadSegments :=
    List.mem_flatMap.mpr ⟨_, segment, List.mem_map.mpr ⟨0, by decide, rfl⟩⟩
  exact List.mem_flatMap.mpr ⟨_, step, by simp [Guard.holds]⟩

def slide : Forwarder :=
  slidingArena.forwarder [] (by decide)

theorem slide_forward : slide.forward 12 = 4 := by
  decide +kernel

/-- The variable and the value register hold the object that moves, and both are forwarded
once. -/
theorem protecting_process_moved :
    ((gcUpdateAllRoots protectingProcess evenLayout slide 0 true fun _ => 12).log.count 5 = 1 ∧
      (gcUpdateAllRoots protectingProcess evenLayout slide 0 true fun _ => 12).memory 5 = 4) ∧
    (gcUpdateAllRoots protectingProcess evenLayout slide 0 true fun _ => 12).log.count
        (evenLayout.addr ⟨.thread 0, .mvValues, 0, 0⟩) = 1 ∧
      (gcUpdateAllRoots protectingProcess evenLayout slide 0 true fun _ => 12).memory
        (evenLayout.addr ⟨.thread 0, .mvValues, 0, 0⟩) = 4 := by
  have once := gcUpdateAllRoots_once protectingProcess evenLayout slide 0 true (fun _ => 12)
    (Or.inr rfl)
  have registered : 5 ∈ protectingProcess.registered := by
    simp [Process.registered, protectingProcess]
  have atVariable := (once 5).1 (Or.inl registered)
  have atValue := (once _).1 (Or.inr (Or.inl (mvValues_visited fun _ => 12)))
  rw [slide_forward] at atVariable atValue
  exact ⟨atVariable, atValue⟩

end ClAmiga.Gc
