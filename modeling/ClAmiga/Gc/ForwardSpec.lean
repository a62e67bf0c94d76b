import ClAmiga.Gc.Bitmap
import ClAmiga.Gc.PinGaps

/-!
# The forwarding lookup agrees with the slide

Both passes run the same cursor over the same blocks.  While the second pass
runs, the cursor is the first granule's address plus the live granules below it
plus the holes recorded below it; every page entry is that sum at the start of
its page, and every block lands where the sum at its offset says.  The lookup
computes the sum back from the page entry, the bitmap and the pin gaps.
-/

namespace ClAmiga.Gc

def Chained (align stop : Nat) : Nat → List Block → Prop
  | _, [] => True
  | off, block :: blocks =>
      off ≤ block.off ∧ 0 < block.size ∧ align ∣ block.off ∧
        align ∣ block.size ∧ block.off + block.size ≤ stop ∧
        Chained align stop (block.off + block.size) blocks

theorem gcWalk_chained {header : Nat → Header} {align stop off : Nat}
    (walkable : Walkable header align stop off) (aligned : align ∣ off)
    (fuel : Nat) : Chained align stop off (gcWalk header stop fuel off) := by
  induction walkable generalizing fuel with
  | done =>
      cases fuel with
      | zero => trivial
      | succ fuel =>
          rw [gcWalk, if_pos (le_refl _)]
          trivial
  | block off positive size inside rest induction =>
      cases fuel with
      | zero => trivial
      | succ fuel =>
          rw [gcWalk, if_neg (by omega), if_neg (by omega)]
          exact ⟨le_refl off, positive, aligned, size, inside,
            induction (Nat.dvd_add aligned size) fuel⟩

theorem Arena.chained {host : Host} (arena : Arena host) :
    Chained host.align arena.bump host.align arena.blocks :=
  gcWalk_chained arena.walkable (dvd_refl _) _

/-- The first granule's address, the live granules below an address and the
holes below another one. -/
def sumAt (host : Host) (pins gap : List Nat) (bits : List (BitVec 32))
    (x y : Nat) : Nat :=
  host.align + host.align * liveBelow bits (x / host.align) +
    gapBelow pins gap y

theorem liveBelow_setRange {bits : List (BitVec 32)} {g0 g1 : Nat}
    (order : g0 < g1) (inside : g1 ≤ 32 * bits.length)
    (clear : ∀ g, g0 ≤ g → granule bits g = false) (g : Nat) :
    liveBelow (gcFwdSetRange bits g0 g1) g = liveBelow bits (min g g0) + (min g g1 - g0) := by
  induction g with
  | zero => simp [liveBelow]
  | succ g induction =>
      have next : liveBelow (gcFwdSetRange bits g0 g1) (g + 1) =
          liveBelow (gcFwdSetRange bits g0 g1) g +
            if granule (gcFwdSetRange bits g0 g1) g = true then 1 else 0 :=
        Nat.count_succ _ _
      rw [next, induction, granule_gcFwdSetRange order inside]
      rcases Nat.lt_or_ge g g0 with before | after
      · have step : liveBelow bits (g + 1) =
            liveBelow bits g + if granule bits g = true then 1 else 0 :=
          Nat.count_succ _ _
        rw [Nat.min_eq_left (by omega : g ≤ g0), Nat.min_eq_left (by omega : g + 1 ≤ g0), step]
        simp [show ¬ g0 ≤ g by omega]
        omega
      · rw [Nat.min_eq_right (by omega : g0 ≤ g),
          Nat.min_eq_right (by omega : g0 ≤ g + 1), clear g after]
        by_cases inRange : g < g1
        · simp [after, inRange]
          omega
        · simp [inRange]
          omega

/-- The state of the pass once every block that starts below `stop` is behind
it. -/
structure Passed (host : Host) (npages : Nat) (pins : List Nat) (stop : Nat)
    (pass : Pass) : Prop where
  clear : ∀ g, stop / host.align ≤ g → granule pass.bits g = false
  placed : Placed pins pass.gap pass.pl stop
  cursor : pass.pl.cur = sumAt host pins pass.gap pass.bits stop stop
  below : pass.pl.cur ≤ stop
  pages : ∀ i cursor, pass.page[i]? = some cursor →
    i * host.page < stop ∧
      cursor = sumAt host pins pass.gap pass.bits (i * host.page)
        (i * host.page)
  pending : ∀ i, pass.page.length ≤ i → i < npages →
    sumAt host pins pass.gap pass.bits (i * host.page) (i * host.page) =
      pass.pl.cur
  written : pass.page.length ≤ npages

/-- The loop fills pages from the one it stands at, up to the first that fails the test.
-/
theorem fillPages_spec {npages : Nat} {test : Nat → Bool} {value : Nat → Nat}
    (fuel : Nat) (page : List Nat) (enough : npages - page.length ≤ fuel)
    (written : page.length ≤ npages) :
    let filled := fillPages npages test value fuel page
    filled.length ≤ npages ∧ page.length ≤ filled.length ∧
      (∀ i, i < page.length → filled[i]? = page[i]?) ∧
      (∀ i, page.length ≤ i → i < filled.length → test i = true ∧ filled[i]? = some (value i)) ∧
      (filled.length < npages → test filled.length = false) := by
  induction fuel generalizing page with
  | zero =>
      simp only [fillPages]
      exact ⟨written, le_refl _, fun _ _ => trivial, by omega, by omega⟩
  | succ fuel induction =>
      rw [fillPages]
      split
      · rename_i more
        have longer : (page ++ [value page.length]).length = page.length + 1 := by
          simp
        obtain ⟨bound, longest, old, new, stops⟩ :=
          induction (page ++ [value page.length]) (by omega) (by omega)
        refine ⟨bound, by omega, ?_, ?_, stops⟩
        · intro i inside
          rw [old i (by omega), List.getElem?_append_left inside]
        · intro i outside inside
          rcases Nat.eq_or_lt_of_le outside with here | after
          · rw [← here, old _ (by omega)]
            exact ⟨more.2, by simp⟩
          · exact new i (by omega) inside
      · rename_i done
        refine ⟨written, le_refl _, fun _ _ => rfl, by omega, ?_⟩
        intro fewer
        simpa [fewer] using done

theorem Passed.liveBelow_eq {host : Host} {npages : Nat} {pins : List Nat}
    {stop : Nat} {pass : Pass} (passed : Passed host npages pins stop pass)
    {g : Nat} (beyond : stop / host.align ≤ g) :
    liveBelow pass.bits g = liveBelow pass.bits (stop / host.align) := by
  induction g with
  | zero => rw [Nat.le_zero.mp beyond]
  | succ g induction =>
      rcases Nat.eq_or_lt_of_le beyond with here | after
      · rw [here]
      · have step : liveBelow pass.bits (g + 1) = liveBelow pass.bits g +
            if granule pass.bits g = true then 1 else 0 :=
          Nat.count_succ _ _
        rw [step, passed.clear g (by omega), induction (by omega)]
        simp

theorem Passed.sumAt_eq {host : Host} {npages : Nat} {pins : List Nat}
    {stop : Nat} {pass : Pass} (passed : Passed host npages pins stop pass)
    {x y : Nat} (first : stop ≤ x) (second : stop ≤ y) :
    sumAt host pins pass.gap pass.bits x y = pass.pl.cur := by
  rw [passed.cursor, sumAt, sumAt, passed.liveBelow_eq (Nat.div_le_div_right first),
    passed.placed.gapBelow_eq second (le_refl stop)]

/-- A block that starts at or after the last one and ends inside the bitmap. -/
structure Fits (host : Host) (stop words off size : Nat) : Prop where
  order : stop ≤ off
  positive : 0 < size
  offAligned : host.align ∣ off
  sizeAligned : host.align ∣ size
  inside : off + size ≤ host.align * (32 * words)

theorem Fits.range {host : Host} {stop words off size : Nat}
    (fits : Fits host stop words off size) :
    off / host.align < (off + size) / host.align ∧ (off + size) / host.align ≤ 32 * words := by
  refine ⟨?_, Nat.div_le_of_le_mul fits.inside⟩
  obtain ⟨granules, rfl⟩ := fits.sizeAligned
  rw [Nat.add_mul_div_left _ _ host.align_pos]
  have : 0 < granules := Nat.pos_of_mul_pos_left fits.positive
  omega

section OneBlock

variable {host : Host} {npages : Nat} {pins : List Nat} {stop : Nat}
  {pass : Pass} {off size newOff hole : Nat} {pl : GcPlace} {gap : List Nat}

theorem liveBelow_block (fits : Fits host stop pass.bits.length off size)
    (passed : Passed host npages pins stop pass) (g : Nat) :
    liveBelow (gcFwdSetRange pass.bits (off / host.align) ((off + size) / host.align)) g =
      liveBelow pass.bits (min g (off / host.align)) +
        (min g ((off + size) / host.align) - off / host.align) := by
  refine liveBelow_setRange fits.range.1 fits.range.2 ?_ g
  intro g' above
  exact passed.clear g' ((Nat.div_le_div_right fits.order).trans above)

theorem sumAt_before (fits : Fits host stop pass.bits.length off size)
    (passed : Passed host npages pins stop pass)
    (placed : PlacedAt pins pass.gap pass.pl off size newOff pl gap hole)
    {x y : Nat} (first : x ≤ off) (second : y ≤ off) :
    sumAt host pins gap (gcFwdSetRange pass.bits (off / host.align)
        ((off + size) / host.align)) x y =
      sumAt host pins pass.gap pass.bits x y := by
  have low : x / host.align ≤ off / host.align := Nat.div_le_div_right first
  rw [sumAt, sumAt, placed.sums, if_neg (by omega),
    liveBelow_block fits passed, Nat.min_eq_left low,
    Nat.sub_eq_zero_of_le ((Nat.min_le_left _ _).trans low)]
  rfl

theorem sumAt_inside (fits : Fits host stop pass.bits.length off size)
    (passed : Passed host npages pins stop pass)
    (placed : PlacedAt pins pass.gap pass.pl off size newOff pl gap hole)
    {x y : Nat} (aligned : host.align ∣ x) (above : off ≤ x)
    (below : x ≤ off + size) (second : off < y) :
    sumAt host pins gap (gcFwdSetRange pass.bits (off / host.align)
        ((off + size) / host.align)) x y = newOff + (x - off) := by
  have before := passed.sumAt_eq fits.order (fits.order.trans second.le)
  rw [sumAt] at before
  have distance : host.align * (x / host.align - off / host.align) = x - off := by
    rw [Nat.mul_sub, Nat.mul_div_cancel' aligned, Nat.mul_div_cancel' fits.offAligned]
  rw [sumAt, placed.sums, if_pos second, liveBelow_block fits passed,
    Nat.min_eq_right (Nat.div_le_div_right above),
    Nat.min_eq_left (Nat.div_le_div_right below), Nat.mul_add, distance,
    placed.lands]
  omega

theorem sumAt_after (fits : Fits host stop pass.bits.length off size)
    (passed : Passed host npages pins stop pass)
    (placed : PlacedAt pins pass.gap pass.pl off size newOff pl gap hole)
    {x y : Nat} (first : off + size ≤ x) (second : off + size ≤ y) :
    sumAt host pins gap (gcFwdSetRange pass.bits (off / host.align)
        ((off + size) / host.align)) x y = newOff + size := by
  have positive := fits.positive
  have endAligned : host.align ∣ off + size :=
    Nat.dvd_add fits.offAligned fits.sizeAligned
  have atEnd := sumAt_inside fits passed placed endAligned (by omega)
    (le_refl _) (show off < off + size by omega)
  have distance : off + size - off = size := by omega
  rw [distance, sumAt, liveBelow_block fits passed] at atEnd
  have start : off / host.align ≤ (off + size) / host.align := fits.range.1.le
  have beyond : (off + size) / host.align ≤ x / host.align :=
    Nat.div_le_div_right first
  rw [sumAt, liveBelow_block fits passed, Nat.min_eq_right (start.trans beyond),
    Nat.min_eq_right beyond, placed.placed.gapBelow_eq second (le_refl _),
    ← atEnd, Nat.min_eq_right start, Nat.min_self]

theorem Host.align_dvd_page (host : Host) (i : Nat) : host.align ∣ i * host.page := by
  rw [host.page_eq]
  exact Dvd.intro_left (i * 64) (by ring)

/-- A page entry of the block's round: kept, written with the cursor before the
block, or written with the address inside the block. -/
theorem pageEntry_block (fits : Fits host stop pass.bits.length off size)
    (passed : Passed host npages pins stop pass)
    (placed : PlacedAt pins pass.gap pass.pl off size newOff pl gap hole)
    {below page : List Nat}
    (first : below = fillPages npages (fun i => i * host.page ≤ off)
      (fun _ => pass.pl.cur) npages pass.page)
    (second : page = fillPages npages (fun i => i * host.page < off + size)
      (fun i => newOff + (i * host.page - off)) npages below) :
    page.length ≤ npages ∧ (∀ i cursor, page[i]? = some cursor → i * host.page < off + size ∧
        cursor = sumAt host pins gap (gcFwdSetRange pass.bits
          (off / host.align) ((off + size) / host.align)) (i * host.page)
          (i * host.page)) ∧
      ∀ i, page.length ≤ i → i < npages → off + size ≤ i * host.page := by
  have positive := fits.positive
  have order := fits.order
  obtain ⟨bound1, longer1, old1, new1, stops1⟩ :=
    @fillPages_spec npages (fun i => i * host.page ≤ off)
      (fun _ => pass.pl.cur) npages pass.page (by omega) passed.written
  rw [← first] at bound1 longer1 old1 new1 stops1
  obtain ⟨bound2, longer2, old2, new2, stops2⟩ :=
    @fillPages_spec npages (fun i => i * host.page < off + size)
      (fun i => newOff + (i * host.page - off)) npages below (by omega) bound1
  rw [← second] at bound2 longer2 old2 new2 stops2
  refine ⟨bound2, ?_, ?_⟩
  · intro i cursor entry
    have inside : i < page.length := (List.getElem?_eq_some_iff.mp entry).1
    rcases Nat.lt_or_ge i below.length with early | late
    · rw [old2 i early] at entry
      rcases Nat.lt_or_ge i pass.page.length with kept | fresh
      · rw [old1 i kept] at entry
        obtain ⟨start, value⟩ := passed.pages i cursor entry
        rw [sumAt_before fits passed placed (by omega) (by omega)]
        exact ⟨by omega, value⟩
      · obtain ⟨start, value⟩ := new1 i fresh early
        rw [entry, Option.some.injEq] at value
        simp only [decide_eq_true_eq] at start
        rw [sumAt_before fits passed placed start start, passed.pending i fresh (by omega)]
        exact ⟨by omega, value⟩
    · obtain ⟨start, value⟩ := new2 i late inside
      rw [entry, Option.some.injEq] at value
      simp only [decide_eq_true_eq] at start
      have beyond : off < below.length * host.page := by
        simpa using stops1 (by omega)
      have after : off < i * host.page :=
        beyond.trans_le (Nat.mul_le_mul_right _ late)
      rw [sumAt_inside fits passed placed (host.align_dvd_page i) after.le start.le after]
      exact ⟨start, value⟩
  · intro i late fewer
    have beyond : off + size ≤ page.length * host.page := by
      simpa using stops2 (by omega)
    exact beyond.trans (Nat.mul_le_mul_right _ late)

theorem Passed.block (fits : Fits host stop pass.bits.length off size)
    (passed : Passed host npages pins stop pass) :
    ∃ hole, PlacedAt pins pass.gap pass.pl off size (gcPlace pins pass.pl pass.gap off size true).1
        (gcPlace pins pass.pl pass.gap off size true).2.1
        (gcPlace pins pass.pl pass.gap off size true).2.2 hole ∧
      Passed host npages pins (off + size)
        (forwardBlock host npages pins pass ⟨off, size, true⟩) := by
  have positive := fits.positive
  obtain ⟨hole, placed⟩ := gcPlace_placed passed.placed fits.order positive
    (passed.below.trans fits.order)
  refine ⟨hole, placed, ?_⟩
  unfold forwardBlock
  rw [if_pos rfl]
  dsimp only
  generalize (gcPlace pins pass.pl pass.gap off size true).1 = newOff at placed
  generalize (gcPlace pins pass.pl pass.gap off size true).2.1 = pl at placed
  generalize (gcPlace pins pass.pl pass.gap off size true).2.2 = gap at placed
  obtain ⟨bound, entries, later⟩ := pageEntry_block fits passed placed rfl rfl
  have clear : ∀ g, (off + size) / host.align ≤ g →
      granule (gcFwdSetRange pass.bits (off / host.align)
        ((off + size) / host.align)) g = false := by
    intro g above
    have start : off / host.align ≤ (off + size) / host.align := fits.range.1.le
    rw [granule_gcFwdSetRange fits.range.1 fits.range.2, passed.clear g
        (((Nat.div_le_div_right fits.order).trans start).trans above)]
    simp
    omega
  have cursor := sumAt_after fits passed placed (le_refl _) (le_refl _)
  refine ⟨clear, placed.placed, ?_, ?_, entries, ?_, bound⟩
  · rw [cursor, placed.cursor]
  · rw [placed.cursor]
    have := placed.below
    omega
  · intro i late fewer
    have start := later i late fewer
    rw [sumAt_after fits passed placed start start, placed.cursor]

end OneBlock

/-- The granules of the marked blocks. -/
def LiveAt (blocks : List Block) (x : Nat) : Prop :=
  ∃ block ∈ blocks, block.marked = true ∧ block.off ≤ x ∧
    x < block.off + block.size

/-- What the second pass leaves behind for blocks still ahead of it: the sums
below them stay, the bitmap gains exactly their granules, and each lands where
the slide places it. -/
structure Run (host : Host) (npages : Nat) (pins : List Nat) (bump stop : Nat)
    (blocks : List Block) (pass last : Pass) : Prop where
  ends : ∃ stop', stop' ≤ max stop bump ∧ Passed host npages pins stop' last
  words : last.bits.length = pass.bits.length
  kept : ∀ x y, x ≤ stop → y ≤ stop →
    sumAt host pins last.gap last.bits x y =
      sumAt host pins pass.gap pass.bits x y
  live : ∀ x, granule last.bits (x / host.align) = true ↔
    granule pass.bits (x / host.align) = true ∨ LiveAt blocks x
  lands : ∀ move ∈ slideBlocks pins pass.pl blocks, ∀ x, host.align ∣ x →
    move.old ≤ x → x < move.old + move.size →
    sumAt host pins last.gap last.bits x (x + 1) = move.new + (x - move.old)

theorem granule_inside {host : Host} {stop words off size : Nat}
    (fits : Fits host stop words off size) (x : Nat) :
    (off / host.align ≤ x / host.align ∧ x / host.align < (off + size) / host.align) ↔
      off ≤ x ∧ x < off + size := by
  have positive := host.align_pos
  have endAligned : host.align ∣ off + size :=
    Nat.dvd_add fits.offAligned fits.sizeAligned
  rw [Nat.le_div_iff_mul_le positive, Nat.div_lt_iff_lt_mul positive,
    Nat.div_mul_cancel fits.offAligned, Nat.div_mul_cancel endAligned]

theorem liveAt_cons (block : Block) (blocks : List Block) (x : Nat) : LiveAt (block :: blocks) x ↔
      (block.marked = true ∧ block.off ≤ x ∧ x < block.off + block.size) ∨ LiveAt blocks x := by
  simp [LiveAt]

theorem run_blocks {host : Host} {npages : Nat} {pins : List Nat}
    {bump stop off : Nat} {blocks : List Block} {pass : Pass}
    (chained : Chained host.align bump off blocks) (order : stop ≤ off)
    (inside : bump ≤ host.align * (32 * pass.bits.length))
    (passed : Passed host npages pins stop pass) :
    Run host npages pins bump stop blocks pass
      (blocks.foldl (forwardBlock host npages pins) pass) := by
  induction blocks generalizing stop off pass with
  | nil =>
      refine ⟨⟨stop, le_max_left _ _, passed⟩, rfl, fun _ _ _ _ => rfl, ?_, ?_⟩
      · intro x
        simp [LiveAt]
      · intro move member
        simp [slideBlocks] at member
  | cons block blocks induction =>
      obtain ⟨first, positive, offAligned, sizeAligned, last, rest⟩ := chained
      rw [List.foldl_cons]
      by_cases marked : block.marked = true
      · have fits : Fits host stop pass.bits.length block.off block.size :=
          ⟨by omega, positive, offAligned, sizeAligned, by omega⟩
        obtain ⟨hole, placed, next⟩ := passed.block fits
        have shape : block = ⟨block.off, block.size, true⟩ := by
          cases block
          simp only at marked
          rw [marked]
        rw [← shape] at next
        have pl : (forwardBlock host npages pins pass block).pl =
            (gcPlace pins pass.pl pass.gap block.off block.size true).2.1 := by
          simp [forwardBlock, marked]
        have gap : (forwardBlock host npages pins pass block).gap =
            (gcPlace pins pass.pl pass.gap block.off block.size true).2.2 := by
          simp [forwardBlock, marked]
        have bits : (forwardBlock host npages pins pass block).bits =
            gcFwdSetRange pass.bits (block.off / host.align)
              ((block.off + block.size) / host.align) := by
          simp [forwardBlock, marked]
        have words : (forwardBlock host npages pins pass block).bits.length = pass.bits.length := by
          rw [bits, length_gcFwdSetRange]
        have run := induction rest (le_refl _) (by rw [words]; exact inside)
          next
        obtain ⟨⟨stop', below, ends⟩, sameWords, kept, live, lands⟩ := run
        rw [gap, bits] at kept
        rw [pl] at lands
        rw [bits] at live
        refine ⟨⟨stop', by omega, ends⟩, sameWords.trans words, ?_, ?_, ?_⟩
        · intro x y low second
          rw [kept x y (by omega) (by omega), sumAt_before fits passed placed (by omega) (by omega)]
        · intro x
          rw [live, granule_gcFwdSetRange fits.range.1 fits.range.2,
            Bool.or_eq_true, decide_eq_true_eq, granule_inside fits, liveAt_cons,
            or_assoc]
          simp [marked]
        · intro move member x aligned above below
          obtain ⟨sameAddress, samePlace⟩ := gcPlace_unrecorded pins pass.pl
            pass.gap block.off block.size
          rw [slideBlocks, if_pos marked] at member
          dsimp only at member
          rw [sameAddress, samePlace] at member
          rcases List.mem_cons.mp member with here | later
          · subst here
            dsimp only at above below ⊢
            rw [kept x (x + 1) (by omega) (by omega),
              sumAt_inside fits passed placed aligned above (by omega) (by omega)]
          · exact lands move later x aligned above below
      · have skipped : forwardBlock host npages pins pass block = pass := by
          simp [forwardBlock, marked]
        rw [skipped]
        have run := induction rest (by omega) inside passed
        obtain ⟨ends, words, kept, live, lands⟩ := run
        refine ⟨ends, words, kept, ?_, ?_⟩
        · intro x
          rw [live, liveAt_cons]
          simp [marked]
        · intro move member
          rw [slideBlocks, if_neg marked] at member
          exact lands move member

end ClAmiga.Gc
