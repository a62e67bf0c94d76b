import ClAmiga.Gc.ForwardSpec

/-!
# Where references go is where objects go

A compaction rewrites references with `gc_forward` and then slides the objects.
Unless the page count wraps, both send every live granule to the same address,
and `gc_forward` leaves everything else alone.  With the bump front in the last
page of the 32-bit range the rounded-up page count wraps to zero, no page entry
exists, and no live granule is forwarded.
-/

namespace ClAmiga.Gc

variable {host : Host}

theorem walkable_aligned {header : Nat → Header} {align stop off : Nat}
    (walkable : Walkable header align stop off) (aligned : align ∣ off) :
    align ∣ stop := by
  induction walkable with
  | done => exact aligned
  | block off positive size inside rest induction =>
      exact induction (Nat.dvd_add aligned size)

theorem Arena.covered (arena : Arena host) :
    arena.bump ≤ host.align * (32 * host.nwords arena.bump) := by
  have aligned : host.align ∣ arena.bump :=
    walkable_aligned arena.walkable (dvd_refl _)
  calc arena.bump = host.align * (arena.bump / host.align) :=
        (Nat.mul_div_cancel' aligned).symm
    _ ≤ host.align * (32 * host.nwords arena.bump) := by
        apply Nat.mul_le_mul_left
        unfold Host.nwords
        omega

theorem granule_replicate (words g : Nat) : granule (List.replicate words 0) g = false := by
  unfold granule
  rw [List.getD_eq_getElem?_getD, List.getElem?_replicate]
  split
  · simp
  · simp

theorem gapBelow_replicate (pins : List Nat) (count x : Nat) :
    gapBelow pins (List.replicate count 0) x = 0 := by
  induction pins generalizing count with
  | nil => exact gapBelow_nil _ _
  | cons pin pins induction =>
      cases count with
      | zero => rfl
      | succ count =>
          rw [List.replicate_succ, gapBelow_cons, induction]
          simp

theorem sumAt_start (arena : Arena host) (pins : List Nat) (x y : Nat) :
    sumAt host pins (Pass.start arena pins).gap (Pass.start arena pins).bits x y = host.align := by
  have none : liveBelow (List.replicate (host.nwords arena.bump) 0) (x / host.align) = 0 := by
    rw [liveBelow, Nat.count_iff_forall_not]
    intro g _
    rw [granule_replicate]
    simp
  rw [sumAt, Pass.start, none, gapBelow_replicate]
  omega

theorem passed_start (arena : Arena host) (npages : Nat) (pins : List Nat) :
    Passed host npages pins host.align (Pass.start arena pins) where
  clear _ _ := granule_replicate _ _
  placed :=
    { length := by simp [Pass.start]
      passed := by
        intro i pin before
        simp [Pass.start] at before
      ahead := by
        intro i hole _ entry
        rw [Pass.start, List.getElem?_replicate] at entry
        split at entry
        · simpa using entry.symm
        · simp at entry }
  cursor := (sumAt_start arena pins _ _).symm
  below := le_refl _
  pages := by
    intro i cursor entry
    simp [Pass.start] at entry
  pending _ _ _ := sumAt_start arena pins _ _
  written := Nat.zero_le _

def Arena.lastPass (arena : Arena host) (pins : List Nat) : Pass :=
  arena.blocks.foldl (forwardBlock host (host.npages arena.bump) (sortPins pins))
    (Pass.start arena (sortPins pins))

theorem run_arena (arena : Arena host) (pins : List Nat) :
    Run host (host.npages arena.bump) (sortPins pins) arena.bump host.align
      arena.blocks (Pass.start arena (sortPins pins))
      (arena.lastPass pins) :=
  run_blocks arena.chained (le_refl _)
    (by simpa [Pass.start] using arena.covered) (passed_start arena _ _)

theorem LiveAt.bounds {align stop off : Nat} {blocks : List Block}
    (chained : Chained align stop off blocks) {x : Nat}
    (live : LiveAt blocks x) : off ≤ x ∧ x < stop := by
  induction blocks generalizing off with
  | nil => simp [LiveAt] at live
  | cons block blocks induction =>
      obtain ⟨first, _, _, _, last, rest⟩ := chained
      rcases (liveAt_cons _ _ _).mp live with here | later
      · omega
      · have := induction rest later
        omega

theorem not_immediate {x : Nat} (aligned : host.align ∣ x)
    (above : host.align ≤ x) : ¬ Immediate x := by
  have four : x % 4 = 0 := by
    cases host with
    | bits32 => exact Nat.mod_eq_zero_of_dvd aligned
    | bits64 =>
        exact Nat.mod_eq_zero_of_dvd (Dvd.dvd.trans (by decide) aligned)
  have positive := host.align_pos
  have bit : x &&& 1 = x % 2 := Nat.and_two_pow_sub_one_eq_mod x 1
  have byte : x &&& 0xFF = x % 256 := Nat.and_two_pow_sub_one_eq_mod x 8
  unfold Immediate clUnbound
  rw [bit, byte]
  omega

theorem pageEntry (arena : Arena host) (pins : List Nat) {i : Nat}
    (inside : i < host.npages arena.bump) :
    (gcComputeForwarding arena pins).page[i]? =
      some (sumAt host (sortPins pins) (arena.lastPass pins).gap
        (arena.lastPass pins).bits (i * host.page) (i * host.page)) := by
  obtain ⟨stop, _, passed⟩ := (run_arena arena pins).ends
  obtain ⟨bound, longer, old, new, stops⟩ :=
    @fillPages_spec (host.npages arena.bump) (fun _ => true)
      (fun _ => (arena.lastPass pins).pl.cur) (host.npages arena.bump)
      (arena.lastPass pins).page (by omega) passed.written
  have whole : (gcComputeForwarding arena pins).page =
      fillPages (host.npages arena.bump) (fun _ => true)
        (fun _ => (arena.lastPass pins).pl.cur) (host.npages arena.bump)
        (arena.lastPass pins).page := rfl
  rw [← whole] at bound longer old new stops
  have length : (gcComputeForwarding arena pins).page.length = host.npages arena.bump := by
    by_contra shorter
    have := stops (by omega)
    simp at this
  rcases Nat.lt_or_ge i (arena.lastPass pins).page.length with kept | fresh
  · have entry := List.getElem?_eq_getElem kept
    rw [old i kept, entry, (passed.pages i _ entry).2]
  · rw [(new i fresh (by omega)).2, passed.pending i fresh inside]

theorem gcForward_live (arena : Arena host) (pins : List Nat) {x : Nat}
    (pointer : ¬ Immediate x) (live : LiveAt arena.blocks x)
    (inside : x / host.page < host.npages arena.bump) :
    gcForward arena (gcComputeForwarding arena pins) x =
      some (sumAt host (sortPins pins) (arena.lastPass pins).gap
        (arena.lastPass pins).bits x (x + 1)) := by
  obtain ⟨above, below⟩ := live.bounds arena.chained
  obtain ⟨stop, _, passed⟩ := (run_arena arena pins).ends
  have set : granule (arena.lastPass pins).bits (x / host.align) = true :=
    ((run_arena arena pins).live x).mpr (Or.inr live)
  have start : x / host.page * host.page ≤ x := Nat.div_mul_le_self _ _
  have page : x / host.page * host.page / host.align = x / host.page * 64 := by
    rw [host.page_eq, ← Nat.mul_assoc, Nat.mul_right_comm, Nat.mul_div_cancel _ host.align_pos]
  have counted := liveBelow_page host (arena.lastPass pins).bits x
  have gaps := gapBelow_add (sortPins_sorted pins) passed.placed.length
    (show x / host.page * host.page ≤ x + 1 by omega)
  have bits : (gcComputeForwarding arena pins).bits =
      (arena.lastPass pins).bits := rfl
  have gap : (gcComputeForwarding arena pins).gap =
      (arena.lastPass pins).gap := rfl
  have sorted : (gcComputeForwarding arena pins).pins = sortPins pins := rfl
  unfold gcForward
  rw [if_neg pointer, if_neg (by omega), bits, set,
    if_neg (by simp), pageEntry arena pins inside, gap, sorted]
  simp only [Option.bind_eq_bind, Option.bind_some]
  have sum : sumAt host (sortPins pins) (arena.lastPass pins).gap
        (arena.lastPass pins).bits (x / host.page * host.page)
        (x / host.page * host.page) +
        livePrefix host (arena.lastPass pins).bits x * host.align +
        gcFwdPinGaps (sortPins pins) (arena.lastPass pins).gap (x / host.page * host.page) x =
      sumAt host (sortPins pins) (arena.lastPass pins).gap
        (arena.lastPass pins).bits x (x + 1) := by
    rw [sumAt, sumAt, page, counted, gaps, Nat.mul_add, Nat.mul_comm host.align
      (livePrefix host (arena.lastPass pins).bits x)]
    omega
  split
  · rw [sum]
  · rename_i unpinned
    have nil : sortPins pins = [] := List.eq_nil_of_length_eq_zero (by omega)
    rw [← sum, nil]
    simp [gcFwdPinGaps]

theorem walkable_le {header : Nat → Header} {align stop off : Nat}
    (walkable : Walkable header align stop off) : off ≤ stop := by
  induction walkable with
  | done => exact le_refl _
  | block off positive size inside rest induction => omega

theorem sumAt_bounds (arena : Arena host) (pins : List Nat) (x y : Nat) :
    host.align ≤ sumAt host (sortPins pins) (arena.lastPass pins).gap
        (arena.lastPass pins).bits x y ∧
      sumAt host (sortPins pins) (arena.lastPass pins).gap
        (arena.lastPass pins).bits x y ≤ arena.bump := by
  obtain ⟨stop, below, passed⟩ := (run_arena arena pins).ends
  have start : host.align ≤ arena.bump := walkable_le arena.walkable
  have atEnd := passed.sumAt_eq (le_max_right x stop) (le_max_right y stop)
  have counted : liveBelow (arena.lastPass pins).bits (x / host.align) ≤
      liveBelow (arena.lastPass pins).bits (max x stop / host.align) :=
    Nat.count_monotone _ (Nat.div_le_div_right (le_max_left x stop))
  have scaled := Nat.mul_le_mul_left host.align counted
  have gaps := gapBelow_mono (sortPins pins) (arena.lastPass pins).gap (le_max_left y stop)
  have cursor := passed.below
  rw [sumAt] at atEnd ⊢
  omega

theorem gcForward_same (arena : Arena host) (pins : List Nat) {obj : Nat}
    (unmoved : Immediate obj ∨ ¬ LiveAt arena.blocks obj) :
    gcForward arena (gcComputeForwarding arena pins) obj = some obj := by
  unfold gcForward
  split
  · rfl
  · rename_i pointer
    split
    · rfl
    · have dead : granule (gcComputeForwarding arena pins).bits (obj / host.align) = false := by
        rw [← Bool.not_eq_true]
        intro set
        rcases ((run_arena arena pins).live obj).mp set with start | live
        · rw [Pass.start, granule_replicate] at start
          simp at start
        · exact unmoved.elim pointer fun no => no live
      rw [dead, if_pos rfl]

/-- The slide copies what stands at `x` to `y`. -/
def SlidTo (arena : Arena host) (pins : List Nat) (x y : Nat) : Prop :=
  ∃ move ∈ gcSlide arena pins, move.old ≤ x ∧ x < move.old + move.size ∧
    y = move.new + (x - move.old)

/-- The lookup sends every live granule where the slide copies it, and keeps
immediates and addresses of no live object. -/
def ForwardsAsSlid (arena : Arena host) (pins : List Nat) : Prop :=
  (∀ x, host.align ∣ x → LiveAt arena.blocks x →
    ∃ y, gcForward arena (gcComputeForwarding arena pins) x = some y ∧
      ∀ y', SlidTo arena pins x y' ↔ y' = y) ∧
  ∀ obj, Immediate obj ∨ ¬ LiveAt arena.blocks obj →
    gcForward arena (gcComputeForwarding arena pins) obj = some obj

theorem exists_move {pins : List Nat} {pl : GcPlace} {blocks : List Block}
    {x : Nat} (live : LiveAt blocks x) :
    ∃ move ∈ slideBlocks pins pl blocks, move.old ≤ x ∧ x < move.old + move.size := by
  induction blocks generalizing pl with
  | nil => simp [LiveAt] at live
  | cons block blocks induction =>
      unfold slideBlocks
      rcases (liveAt_cons _ _ _).mp live with ⟨marked, here⟩ | later
      · rw [if_pos marked]
        exact ⟨_, List.mem_cons_self, here⟩
      · split
        · obtain ⟨move, member, inside⟩ := induction later
          exact ⟨move, List.mem_cons_of_mem _ member, inside⟩
        · exact induction later

theorem page_inside {arena : Arena host}
    (room : arena.bump + host.page ≤ 2 ^ 32) {x : Nat} (below : x < arena.bump) :
    x / host.page < host.npages arena.bump := by
  have positive : 0 < host.page := Nat.two_pow_pos _
  unfold Host.npages
  have start : x / host.page * host.page ≤ x := Nat.div_mul_le_self _ _
  rw [Nat.mod_eq_of_lt (by omega), Nat.lt_iff_add_one_le,
    Nat.le_div_iff_mul_le positive, Nat.add_mul]
  omega

theorem npages_eq_zero {arena : Arena host}
    (full : 2 ^ 32 < arena.bump + host.page) : host.npages arena.bump = 0 := by
  have positive : 0 < host.page := Nat.two_pow_pos _
  have small : host.page ≤ 2 ^ 32 := by
    cases host <;> decide
  have front := arena.bump_lt
  unfold Host.npages
  rw [Nat.mod_eq_sub_mod (by omega), Nat.mod_eq_of_lt (by omega)]
  exact Nat.div_eq_of_lt (by omega)

theorem gcForward_wrapped (arena : Arena host) (pins : List Nat)
    (full : 2 ^ 32 < arena.bump + host.page) {x : Nat}
    (aligned : host.align ∣ x) (live : LiveAt arena.blocks x) :
    gcForward arena (gcComputeForwarding arena pins) x = none := by
  obtain ⟨above, below⟩ := live.bounds arena.chained
  have set : granule (arena.lastPass pins).bits (x / host.align) = true :=
    ((run_arena arena pins).live x).mpr (Or.inr live)
  obtain ⟨stop, _, passed⟩ := (run_arena arena pins).ends
  have empty : (arena.lastPass pins).page = [] := by
    have written := passed.written
    rw [npages_eq_zero full] at written
    exact List.eq_nil_of_length_eq_zero (Nat.le_zero.mp written)
  have pages : (gcComputeForwarding arena pins).page = [] := by
    have whole : (gcComputeForwarding arena pins).page =
        fillPages (host.npages arena.bump) (fun _ => true)
          (fun _ => (arena.lastPass pins).pl.cur) (host.npages arena.bump)
          (arena.lastPass pins).page := rfl
    rw [whole, npages_eq_zero full, empty, fillPages]
  have bits : (gcComputeForwarding arena pins).bits =
      (arena.lastPass pins).bits := rfl
  unfold gcForward
  rw [if_neg (not_immediate aligned above), if_neg (by omega), bits, set, if_neg (by simp), pages]
  rfl

theorem chained_block {align stop off : Nat} {blocks : List Block}
    (chained : Chained align stop off blocks) {block : Block}
    (member : block ∈ blocks) : align ∣ block.off ∧ 0 < block.size := by
  induction blocks generalizing off with
  | nil => simp at member
  | cons first blocks induction =>
      obtain ⟨_, positive, aligned, _, _, rest⟩ := chained
      rcases List.mem_cons.mp member with here | later
      · rw [here]
        exact ⟨aligned, positive⟩
      · exact induction rest later

/-- The lookup agrees with the slide exactly when the page count does not wrap
or nothing is live. -/
theorem forwardsAsSlid_iff (arena : Arena host) (pins : List Nat) : ForwardsAsSlid arena pins ↔
      arena.bump + host.page ≤ 2 ^ 32 ∨ ∀ block ∈ arena.blocks, block.marked = false := by
  constructor
  · intro agrees
    by_contra neither
    simp only [not_or, not_le, not_forall, Bool.not_eq_false] at neither
    obtain ⟨full, block, member, marked⟩ := neither
    obtain ⟨aligned, positive⟩ := chained_block arena.chained member
    have live : LiveAt arena.blocks block.off :=
      ⟨block, member, marked, le_refl _, by omega⟩
    obtain ⟨y, forwarded, _⟩ := agrees.1 block.off aligned live
    rw [gcForward_wrapped arena pins full aligned live] at forwarded
    simp at forwarded
  · intro condition
    refine ⟨?_, fun obj unmoved => gcForward_same arena pins unmoved⟩
    intro x aligned live
    rcases condition with room | dead
    · obtain ⟨start, inside⟩ := live.bounds arena.chained
      refine ⟨_, gcForward_live arena pins (not_immediate aligned start) live
        (page_inside room inside), ?_⟩
      have lands : ∀ y, SlidTo arena pins x y →
          y = sumAt host (sortPins pins) (arena.lastPass pins).gap
            (arena.lastPass pins).bits x (x + 1) := by
        rintro y ⟨move, member, above, below, rfl⟩
        exact ((run_arena arena pins).lands move member x aligned above below).symm
      intro y
      refine ⟨lands y, ?_⟩
      rintro rfl
      obtain ⟨move, member, above, below⟩ := exists_move live
      have there : SlidTo arena pins x (move.new + (x - move.old)) :=
        ⟨move, member, above, below, rfl⟩
      rw [← lands _ there]
      exact there
    · obtain ⟨block, member, marked, _⟩ := live
      rw [dead block member] at marked
      simp at marked

theorem walkable_const {size align stop : Nat} (positive : 0 < size)
    (aligned : align ∣ size) (count : Nat) (inside : size * count ≤ stop) :
    Walkable (fun _ => ⟨size, true⟩) align stop (stop - size * count) := by
  induction count with
  | zero => exact Walkable.done
  | succ count induction =>
      rw [Nat.mul_succ] at inside ⊢
      refine Walkable.block _ positive aligned (by dsimp only; omega) ?_
      have next : stop - (size * count + size) + size = stop - size * count := by
        omega
      dsimp only
      rw [next]
      exact induction (by omega)

/-- A 64-bit host's arena of live conses up to the last granule but one. -/
def fullArena : Arena .bits64 where
  bump := 2 ^ 32 - 8
  header _ := ⟨16, true⟩
  bump_lt := by omega
  walkable := walkable_const (by omega) (by decide) (2 ^ 28 - 1) (by omega)

theorem first_block {header : Nat → Header} {stop fuel off : Nat}
    (more : 0 < fuel) (below : off < stop) (positive : 0 < (header off).size) :
    ⟨off, (header off).size, (header off).marked⟩ ∈ gcWalk header stop fuel off := by
  obtain ⟨rounds, rfl⟩ := Nat.exists_eq_add_of_lt more
  rw [Nat.zero_add, gcWalk, if_neg (by omega), if_neg (by omega)]
  exact List.mem_cons_self

/-- There the first cons is live and not forwarded. -/
theorem full_arena_not_forwarded : ¬ ForwardsAsSlid fullArena [] := by
  intro agrees
  have bump : fullArena.bump = 2 ^ 32 - 8 := rfl
  have align : Host.bits64.align = 8 := rfl
  have page : Host.bits64.page = 512 := rfl
  have first : (⟨8, 16, true⟩ : Block) ∈ fullArena.blocks :=
    first_block (by omega) (by omega) (show 0 < 16 by omega)
  have live : LiveAt fullArena.blocks 8 :=
    ⟨_, first, rfl, le_refl _, by dsimp only; omega⟩
  have aligned : Host.bits64.align ∣ 8 := by
    rw [align]
  obtain ⟨y, forwarded, _⟩ := agrees.1 8 aligned live
  rw [gcForward_wrapped fullArena [] (by omega) aligned live] at forwarded
  simp at forwarded

end ClAmiga.Gc
