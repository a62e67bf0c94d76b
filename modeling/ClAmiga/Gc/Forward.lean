import Mathlib.Algebra.GroupWithZero.Nat

/-!
# The forwarding structures of the sliding compaction

The arena is the chain of block headers the arena iterator walks, with the mark
bits the mark phase left in them.  `gc_compute_forwarding` turns it into a
bitmap of live granules, one slide cursor per page and one gap per pin;
`gc_forward` derives every new address from those, while `gc_slide` places the
objects one after the other with `gc_place`.

Offsets and sizes are natural numbers.  Every block ends at or below the bump
front, which is a `uint32_t`, so the additions of the passes stay below it; the
one sum that can wrap is the rounding up of the page count, which is written
modulo `2 ^ 32`.
-/

namespace ClAmiga.Gc

/-- The two layouts `CL_ALIGN` chooses between. -/
inductive Host where
  | bits32
  | bits64
deriving DecidableEq, Repr

/-- `GC_FWD_ALIGN_SHIFT`. -/
def Host.alignShift : Host → Nat
  | .bits32 => 2
  | .bits64 => 3

/-- `CL_ALIGN`. -/
def Host.align (host : Host) : Nat :=
  2 ^ host.alignShift

/-- `GC_FWD_WORDS_PER_PAGE`. -/
def wordsPerPage : Nat := 2

/-- `GC_FWD_PAGE_SHIFT`. -/
def Host.pageShift (host : Host) : Nat :=
  host.alignShift + 5 + 1

/-- `GC_FWD_PAGE`. -/
def Host.page (host : Host) : Nat :=
  2 ^ host.pageShift

structure Header where
  size : Nat
  marked : Bool
deriving DecidableEq, Repr

/-- From an offset the chain of headers reaches the end of the walk, by steps
that pass every check of `gc_walk_next`. -/
inductive Walkable (header : Nat → Header) (align stop : Nat) : Nat → Prop where
  | done : Walkable header align stop stop
  | block (off : Nat) (positive : 0 < (header off).size)
      (aligned : align ∣ (header off).size)
      (inside : off + (header off).size ≤ stop)
      (rest : Walkable header align stop (off + (header off).size)) :
      Walkable header align stop off

/-- The arena from the first slot after NIL to the bump front. -/
structure Arena (host : Host) where
  bump : Nat
  header : Nat → Header
  bump_lt : bump < 2 ^ 32
  walkable : Walkable header host.align bump host.align

/-- What one step of the walk hands to its body. -/
structure Block where
  off : Nat
  size : Nat
  marked : Bool
deriving DecidableEq, Repr

/-- The blocks `gc_walk_next` yields from `off` on; the walk also ends at a
header of size zero. -/
def gcWalk (header : Nat → Header) (stop : Nat) : Nat → Nat → List Block
  | 0, _ => []
  | fuel + 1, off =>
      if stop ≤ off then
        []
      else if (header off).size = 0 then
        []
      else
        ⟨off, (header off).size, (header off).marked⟩ ::
          gcWalk header stop fuel (off + (header off).size)

/-- A whole walk: `gc_walk_begin`, then `gc_walk_next` to the bump front. -/
def Arena.blocks {host : Host} (arena : Arena host) : List Block :=
  gcWalk arena.header arena.bump arena.bump host.align

/-- `gc_popcount32`, in the form for targets without a popcount instruction. -/
def gcPopcount32 (x : BitVec 32) : BitVec 32 :=
  let pairs := x - ((x >>> 1) &&& 0x55555555#32)
  let nibbles := (pairs &&& 0x33333333#32) + ((pairs >>> 2) &&& 0x33333333#32)
  let bytes := (nibbles + (nibbles >>> 4)) &&& 0x0F0F0F0F#32
  let halves := bytes + (bytes >>> 8)
  let all := halves + (halves >>> 16)
  all &&& 0x3F#32

def fillWords (bits : List (BitVec 32)) : Nat → Nat → List (BitVec 32)
  | _, 0 => bits
  | word, rounds + 1 =>
      fillWords (bits.set word (BitVec.allOnes 32)) (word + 1) rounds

/-- `gc_fwd_set_range`: the bits of granules `[g0, g1)`. -/
def gcFwdSetRange (bits : List (BitVec 32)) (g0 g1 : Nat) :
    List (BitVec 32) :=
  let w0 := g0 / 32
  let w1 := (g1 - 1) / 32
  let m0 := BitVec.allOnes 32 <<< (g0 % 32)
  let m1 := BitVec.allOnes 32 >>> (31 - (g1 - 1) % 32)
  if w0 = w1 then
    bits.modify w0 (· ||| (m0 &&& m1))
  else
    (fillWords (bits.modify w0 (· ||| m0)) (w0 + 1) (w1 - w0 - 1)).modify w1
      (· ||| m1)

/-- `while (i < jit_pinned_count && test(jit_pinned[i])) i++`. -/
def skipPins (test : Nat → Bool) (pins : List Nat) (i : Nat) : Nat :=
  i + ((pins.drop i).takeWhile test).length

/-- `GcPlace`. -/
structure GcPlace where
  cur : Nat
  pinI : Nat
deriving DecidableEq, Repr

/-- `gc_place`: the new address of the block at `off`, the cursor after it, and
the gaps, of which the pass that records them writes one per placed pin. -/
def gcPlace (pins : List Nat) (pl : GcPlace) (gap : List Nat)
    (off size : Nat) (recordGap : Bool) : Nat × GcPlace × List Nat :=
  let i := skipPins (· < off) pins pl.pinI
  if pins[i]? = some off then
    -- Pinned: kept in place, and every further entry for it is skipped.
    (off, ⟨off + size, skipPins (· == off) pins (i + 1)⟩,
      if recordGap then gap.set i (off - pl.cur) else gap)
  else
    (pl.cur, ⟨pl.cur + size, i⟩, gap)

/-- Number of page entries, rounded up in `uint32_t`. -/
def Host.npages (host : Host) (bump : Nat) : Nat :=
  (bump + host.page - 1) % 2 ^ 32 / host.page

def Host.nwords (host : Host) (bump : Nat) : Nat :=
  (bump / host.align + 31) / 32

/-- The page entries `[0, next_page)` extended while the next page is in the
table and its first byte passes the test. -/
def fillPages (npages : Nat) (test : Nat → Bool) (value : Nat → Nat) :
    Nat → List Nat → List Nat
  | 0, page => page
  | fuel + 1, page =>
      if page.length < npages ∧ test page.length then
        fillPages npages test value fuel (page ++ [value page.length])
      else
        page

structure Pass where
  bits : List (BitVec 32)
  page : List Nat
  gap : List Nat
  pl : GcPlace

def forwardBlock (host : Host) (npages : Nat) (pins : List Nat) (pass : Pass)
    (block : Block) : Pass :=
  if block.marked then
    let below := fillPages npages (fun i => i * host.page ≤ block.off)
      (fun _ => pass.pl.cur) npages pass.page
    let placed := gcPlace pins pass.pl pass.gap block.off block.size true
    let page := fillPages npages
      (fun i => i * host.page < block.off + block.size)
      (fun i => placed.1 + (i * host.page - block.off)) npages below
    { bits := gcFwdSetRange pass.bits (block.off / host.align)
        ((block.off + block.size) / host.align)
      page := page
      gap := placed.2.2
      pl := placed.2.1 }
  else
    pass

/-- The structures `gc_forward` reads, with the sorted `jit_pinned`. -/
structure Tables where
  bits : List (BitVec 32)
  page : List Nat
  gap : List Nat
  pins : List Nat

/-- The `qsort` of `jit_pinned` with `cand_cmp`. -/
def sortPins (pins : List Nat) : List Nat :=
  pins.mergeSort (· ≤ ·)

/-- The zeroed structures of `gc_fwd_alloc`, with no page written yet. -/
def Pass.start {host : Host} (arena : Arena host) (pins : List Nat) : Pass where
  bits := List.replicate (host.nwords arena.bump) 0
  page := []
  gap := List.replicate pins.length 0
  pl := ⟨host.align, 0⟩

/-- `gc_compute_forwarding`. -/
def gcComputeForwarding {host : Host} (arena : Arena host) (pins : List Nat) :
    Tables :=
  let npages := host.npages arena.bump
  let sorted := sortPins pins
  let pass := arena.blocks.foldl (forwardBlock host npages sorted)
    (Pass.start arena sorted)
  { bits := pass.bits
    page := fillPages npages (fun _ => true) (fun _ => pass.pl.cur) npages
      pass.page
    gap := pass.gap
    pins := sorted }

/-- The first index in `[a, b)` whose pin is at least `lo`. -/
def firstPin (pins : List Nat) (lo : Nat) : Nat → Nat → Nat → Nat
  | 0, a, _ => a
  | fuel + 1, a, b =>
      if a < b then
        let mid := (a + b) / 2
        if pins.getD mid 0 < lo then
          firstPin pins lo fuel (mid + 1) b
        else
          firstPin pins lo fuel a mid
      else
        a

/-- `gc_fwd_pin_gaps`: the holes left below pins in `[lo, hi]`. -/
def gcFwdPinGaps (pins gap : List Nat) (lo hi : Nat) : Nat :=
  let a := firstPin pins lo pins.length 0 pins.length
  ((((pins.zip gap).drop a).takeWhile (fun entry => entry.1 ≤ hi)).map
    Prod.snd).sum

/-- `CL_UNBOUND`. -/
def clUnbound : Nat := 0xFFFFFFF6

/-- `CL_NULL_P`, `CL_FIXNUM_P`, `CL_CHAR_P` or `CL_UNBOUND`. -/
def Immediate (obj : Nat) : Prop :=
  obj = 0 ∨ obj &&& 1 ≠ 0 ∨ obj &&& 0xFF = 0x0A ∨ obj = clUnbound

instance (obj : Nat) : Decidable (Immediate obj) :=
  inferInstanceAs (Decidable (_ ∨ _))

def granule (bits : List (BitVec 32)) (g : Nat) : Bool :=
  (bits.getD (g / 32) 0).getLsbD (g % 32)

/-- Bits of the whole words `[word, stop)` and of a last word below bit `g`. -/
def countWords (bits : List (BitVec 32)) : Nat → Nat → Nat
  | _, 0 => 0
  | word, rounds + 1 =>
      (gcPopcount32 (bits.getD word 0)).toNat + countWords bits (word + 1) rounds

/-- Live granules from the start of the page of `obj` up to it. -/
def livePrefix (host : Host) (bits : List (BitVec 32)) (obj : Nat) : Nat :=
  let g := obj / host.align
  let w := obj / host.page * wordsPerPage
  countWords bits w (g / 32 - w) +
    (gcPopcount32 (bits.getD (g / 32) 0 &&& ((1#32 <<< (g % 32)) - 1#32))).toNat

/-- `gc_forward`, outside a minor collection.  A page entry that the table does
not have is no value. -/
def gcForward {host : Host} (arena : Arena host) (tables : Tables)
    (obj : Nat) : Option Nat :=
  if Immediate obj then
    some obj
  else if arena.bump ≤ obj then
    some obj
  else if granule tables.bits (obj / host.align) = false then
    some obj
  else do
    let cursor ← tables.page[obj / host.page]?
    let fwd := cursor + livePrefix host tables.bits obj * host.align
    if 0 < tables.pins.length then
      some (fwd + gcFwdPinGaps tables.pins tables.gap
        (obj / host.page * host.page) obj)
    else
      some fwd

/-- A block and the address the slide copies it to. -/
structure Move where
  old : Nat
  size : Nat
  new : Nat
deriving DecidableEq, Repr

/-- The placements of `gc_slide` over the rest of the walk. -/
def slideBlocks (pins : List Nat) : GcPlace → List Block → List Move
  | _, [] => []
  | pl, block :: blocks =>
      if block.marked then
        let placed := gcPlace pins pl [] block.off block.size false
        ⟨block.off, block.size, placed.1⟩ ::
          slideBlocks pins placed.2.1 blocks
      else
        slideBlocks pins pl blocks

/-- `gc_slide`, with the pins as the second pass left them. -/
def gcSlide {host : Host} (arena : Arena host) (pins : List Nat) : List Move :=
  slideBlocks (sortPins pins) ⟨host.align, 0⟩ arena.blocks

end ClAmiga.Gc
