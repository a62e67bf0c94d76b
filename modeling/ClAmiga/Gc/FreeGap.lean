import Mathlib.Algebra.GroupWithZero.Nat
import Mathlib.Logic.Function.Basic

/-!
# Free blocks over a gap

The space between the blocks that slide down and a pinned one is written as free blocks, several of
them where the gap is larger than the size field of a header.  Their sizes add up to the gap, and
each of them has room for its header and its link.
-/

namespace ClAmiga.Gc

/-- `CL_HDR_SIZE_MASK` -/
def hdrSizeMask : BitVec 32 := 0x007FFFFF

/-- `sizeof(CL_FreeBlock)` -/
def freeBlockSize : BitVec 32 := 8

/-- `CL_MIN_ALLOC_SIZE` -/
def minBlockSize : BitVec 32 := 16

/-- `CL_TYPE_DEAD << CL_HDR_TYPE_SHIFT` -/
def deadHeader : BitVec 32 := 0xFF000000

/-- The words of the arena, by their byte offsets, and the head of the free list. -/
structure GapArena where
  word : Nat → BitVec 32
  freeList : Nat

/-- `gc_free_gap_chunk` -/
def gcFreeGapChunk (total align : BitVec 32) : BitVec 32 :=
  if total > hdrSizeMask then
    let chunk := hdrSizeMask &&& ~~~(align - 1)
    if total - chunk < freeBlockSize then chunk - minBlockSize else chunk
  else total

/-- A free block that is linked before the others. -/
def GapArena.writeFree (arena : GapArena) (offset : Nat) (chunk : BitVec 32) : GapArena where
  word := Function.update (Function.update arena.word offset chunk) (offset + 4)
    (BitVec.ofNat 32 arena.freeList)
  freeList := offset

/-- A header without a link. -/
def GapArena.writeDead (arena : GapArena) (offset : Nat) (chunk : BitVec 32) : GapArena :=
  { arena with word := Function.update arena.word offset (deadHeader ||| chunk) }

theorem gcFreeGapChunk_le (total align : BitVec 32) : gcFreeGapChunk total align ≤ total := by
  unfold gcFreeGapChunk
  split
  · rename_i large
    have masked : (hdrSizeMask &&& ~~~(align - 1)).toNat ≤ 0x007FFFFF := by
      rw [BitVec.toNat_and]
      exact Nat.and_le_left
    dsimp only
    generalize hdrSizeMask &&& ~~~(align - 1) = chunk at masked ⊢
    split
    · rename_i little
      simp only [hdrSizeMask, freeBlockSize, minBlockSize] at large little ⊢
      bv_omega
    · simp only [hdrSizeMask] at large
      bv_omega
  · exact BitVec.le_refl total

/-- `gc_make_free_gap` -/
def gcMakeFreeGap (align : BitVec 32) (arena : GapArena) (offset : Nat) (total : BitVec 32) :
    GapArena :=
  if total > 0 then
    if gcFreeGapChunk total align < freeBlockSize then
      arena.writeDead offset (gcFreeGapChunk total align)
    else
      gcMakeFreeGap align (arena.writeFree offset (gcFreeGapChunk total align))
        (offset + (gcFreeGapChunk total align).toNat) (total - gcFreeGapChunk total align)
  else arena
termination_by total.toNat
decreasing_by
  rename_i roomy
  have le := gcFreeGapChunk_le total align
  simp only [freeBlockSize] at roomy
  bv_omega

/-- A walk from an offset on by the sizes in the headers of free blocks. -/
def Tiled (arena : GapArena) : Nat → List (BitVec 32) → Prop
  | _, [] => True
  | offset, size :: sizes => arena.word offset = size ∧ Tiled arena (offset + size.toNat) sizes

/-- The size of a block of a gap: it fits the header, and there is room for the link. -/
structure FreeSize (align size : BitVec 32) : Prop where
  header : freeBlockSize ≤ size
  field : size ≤ hdrSizeMask
  aligned : size.toNat % align.toNat = 0

theorem aligned_mask {align : BitVec 32} (host : align = 4 ∨ align = 8) :
    ∃ top : BitVec 32, hdrSizeMask &&& ~~~(align - 1) = top ∧ 0x007FFFF8 ≤ top ∧
      top ≤ 0x007FFFFC ∧ top.toNat % align.toNat = 0 := by
  rcases host with rfl | rfl
  · exact ⟨0x007FFFFC, by decide, by decide, by decide, by decide⟩
  · exact ⟨0x007FFFF8, by decide, by decide, by decide, by decide⟩

theorem sub_aligned {align a b : BitVec 32} (host : align = 4 ∨ align = 8)
    (first : a.toNat % align.toNat = 0) (second : b.toNat % align.toNat = 0) (le : b ≤ a) :
    (a - b).toNat % align.toNat = 0 := by
  have bound := a.isLt
  rw [BitVec.le_def] at le
  rw [BitVec.toNat_sub_of_le le]
  rcases host with rfl | rfl
  · change a.toNat % 4 = 0 at first
    change b.toNat % 4 = 0 at second
    change (a.toNat - b.toNat) % 4 = 0
    omega
  · change a.toNat % 8 = 0 at first
    change b.toNat % 8 = 0 at second
    change (a.toNat - b.toNat) % 8 = 0
    omega

/-- A chunk has a valid size, and so has what is left, if anything is. -/
theorem gcFreeGapChunk_spec {total align : BitVec 32} (host : align = 4 ∨ align = 8)
    (aligned : total.toNat % align.toNat = 0) (large : freeBlockSize ≤ total) :
    FreeSize align (gcFreeGapChunk total align) ∧ (total - gcFreeGapChunk total align = 0 ∨
        freeBlockSize ≤ total - gcFreeGapChunk total align) := by
  obtain ⟨top, cap, low, high, topAligned⟩ := aligned_mask host
  unfold gcFreeGapChunk
  dsimp only
  rw [cap]
  by_cases oversize : total > hdrSizeMask
  · rw [if_pos oversize]
    by_cases little : total - top < freeBlockSize
    · have two : minBlockSize.toNat % align.toNat = 0 := by
        rcases host with rfl | rfl <;> rfl
      have more : minBlockSize ≤ top := by
        simp only [minBlockSize]
        bv_omega
      rw [if_pos little]
      refine ⟨⟨?_, ?_, sub_aligned host topAligned two more⟩, Or.inr ?_⟩
      all_goals
        simp only [hdrSizeMask, freeBlockSize, minBlockSize] at *
        bv_omega
    · rw [if_neg little]
      refine ⟨⟨?_, ?_, topAligned⟩, Or.inr ?_⟩
      all_goals
        simp only [hdrSizeMask, freeBlockSize] at *
        bv_omega
  · rw [if_neg oversize, BitVec.sub_self]
    refine ⟨⟨large, ?_, aligned⟩, Or.inl rfl⟩
    simp only [hdrSizeMask] at *
    bv_omega

/-- A gap that is written: the blocks in it, and nothing is written outside of it. -/
structure GapCovered (align : BitVec 32) (arena after : GapArena) (offset total : Nat)
    (sizes : List (BitVec 32)) : Prop where
  sum : (sizes.map BitVec.toNat).sum = total
  each : ∀ size ∈ sizes, FreeSize align size
  tiled : Tiled after offset sizes
  outside : ∀ p, p < offset ∨ offset + total ≤ p → after.word p = arena.word p

theorem writeFree_header (arena : GapArena) (offset : Nat) (chunk : BitVec 32) :
    (arena.writeFree offset chunk).word offset = chunk := by
  change Function.update (Function.update arena.word offset chunk) (offset + 4) _ offset = chunk
  rw [Function.update_of_ne (by omega), Function.update_self]

theorem writeFree_outside {arena : GapArena} {offset p : Nat} {chunk : BitVec 32}
    (room : freeBlockSize ≤ chunk) (away : p < offset ∨ offset + chunk.toNat ≤ p) :
    (arena.writeFree offset chunk).word p = arena.word p := by
  have bytes : 8 ≤ chunk.toNat := room
  change Function.update (Function.update arena.word offset chunk) (offset + 4) _ p = _
  rw [Function.update_of_ne (by omega), Function.update_of_ne (by omega)]

theorem GapCovered.cons {align chunk : BitVec 32} {arena after : GapArena} {offset total : Nat}
    {sizes : List (BitVec 32)} (size : FreeSize align chunk) (le : chunk.toNat ≤ total)
    (rest : GapCovered align (arena.writeFree offset chunk) after (offset + chunk.toNat)
      (total - chunk.toNat) sizes) :
    GapCovered align arena after offset total (chunk :: sizes) where
  sum := by
    rw [List.map_cons, List.sum_cons, rest.sum]
    omega
  each := List.forall_mem_cons.mpr ⟨size, rest.each⟩
  tiled := by
    have bytes : 8 ≤ chunk.toNat := size.header
    refine ⟨?_, rest.tiled⟩
    rw [rest.outside offset (by omega), writeFree_header]
  outside := by
    intro p away
    rw [rest.outside p (by omega), writeFree_outside size.header (by omega)]

theorem gcMakeFreeGap_covered {align total : BitVec 32} (host : align = 4 ∨ align = 8)
    (aligned : total.toNat % align.toNat = 0) (large : total = 0 ∨ freeBlockSize ≤ total)
    (arena : GapArena) (offset : Nat) :
    ∃ sizes, GapCovered align arena (gcMakeFreeGap align arena offset total) offset total.toNat
      sizes := by
  induction arena, offset, total using gcMakeFreeGap.induct align with
  | case1 arena offset total positive little =>
      have enough : freeBlockSize ≤ total := by
        rcases large with rfl | large
        · exact absurd positive (by decide)
        · exact large
      have size := (gcFreeGapChunk_spec host aligned enough).1.header
      exact absurd little (BitVec.not_lt.mpr size)
  | case2 arena offset total positive roomy induction =>
      have enough : freeBlockSize ≤ total := by
        rcases large with rfl | large
        · exact absurd positive (by decide)
        · exact large
      obtain ⟨size, rest⟩ := gcFreeGapChunk_spec host aligned enough
      have le := gcFreeGapChunk_le total align
      obtain ⟨sizes, covered⟩ := induction (sub_aligned host aligned size.aligned le) rest
      rw [BitVec.toNat_sub_of_le le] at covered
      refine ⟨gcFreeGapChunk total align :: sizes, ?_⟩
      rw [gcMakeFreeGap, if_pos positive, if_neg roomy]
      exact covered.cons size (BitVec.le_def.mp le)
  | case3 arena offset total empty =>
      obtain rfl : total = 0 := by
        rcases large with rfl | large
        · rfl
        · simp only [freeBlockSize] at large
          bv_omega
      refine ⟨[], ?_⟩
      rw [gcMakeFreeGap, if_neg empty]
      exact ⟨rfl, by simp, trivial, fun _ _ => rfl⟩

/-- The free blocks of a gap tile it. -/
theorem gcMakeFreeGap_tiles {align total : BitVec 32} (host : align = 4 ∨ align = 8)
    (aligned : total.toNat % align.toNat = 0) (large : minBlockSize ≤ total) (arena : GapArena)
    (offset : Nat) :
    ∃ sizes, (sizes.map BitVec.toNat).sum = total.toNat ∧
      (∀ size ∈ sizes, freeBlockSize ≤ size ∧ size ≤ hdrSizeMask) ∧
      Tiled (gcMakeFreeGap align arena offset total) offset sizes ∧
      ∀ p, p < offset ∨ offset + total.toNat ≤ p →
        (gcMakeFreeGap align arena offset total).word p = arena.word p := by
  have header : freeBlockSize ≤ total := by
    simp only [freeBlockSize, minBlockSize] at *
    bv_omega
  obtain ⟨sizes, covered⟩ := gcMakeFreeGap_covered host aligned (Or.inr header) arena offset
  exact ⟨sizes, covered.sum, fun size member =>
    ⟨(covered.each size member).header, (covered.each size member).field⟩, covered.tiled,
    covered.outside⟩

/-- A gap that leaves four bytes behind the largest size: two blocks. -/
theorem gcMakeFreeGap_tiles_remainder :
    ∃ sizes, (sizes.map BitVec.toNat).sum = (0x00800000 : BitVec 32).toNat ∧
      (∀ size ∈ sizes, freeBlockSize ≤ size ∧ size ≤ hdrSizeMask) ∧
      Tiled (gcMakeFreeGap 4 ⟨fun _ => 0, 0⟩ 64 0x00800000) 64 sizes ∧
      ∀ p, p < 64 ∨ 64 + (0x00800000 : BitVec 32).toNat ≤ p →
        (gcMakeFreeGap 4 ⟨fun _ => 0, 0⟩ 64 0x00800000).word p = 0 :=
  gcMakeFreeGap_tiles (Or.inl rfl) (by decide) (by decide) ⟨fun _ => 0, 0⟩ 64

end ClAmiga.Gc
