import ImpossibleOs.Ixfs.DirExtents
import ImpossibleOs.Ixfs.DirSlots

/-!
Who owns the blocks of a volume.

Every data block that an inode lists is marked as used, and no other inode
lists it. The metadata lies below the data, so that the steps of a directory
operation keep apart.
-/

namespace ImpossibleOs.Ixfs

open ByteMem

def DataBlock (sb : Superblock) (b : ℕ) : Prop := sb.dataStart ≤ b ∧ b < sb.totalBlocks

/-- The superblock is block 0; bitmap and inode table lie apart and below the data. -/
structure Laid (sb : Superblock) : Prop where
  bitmapEnd : sb.bitmapStart + sb.bitmapBlocks ≤ sb.dataStart
  inodeEnd : sb.inodeStart + sb.inodeBlocks ≤ sb.dataStart
  inodePos : 0 < sb.inodeStart
  apart : sb.bitmapStart + sb.bitmapBlocks ≤ sb.inodeStart ∨
    sb.inodeStart + sb.inodeBlocks ≤ sb.bitmapStart

structure Owned (g : Grouped) : Prop where
  consistent : Consistent g
  laid : Laid g.vol.sb
  used : ∀ ino, inoInTable g.vol.sb ino = true → ∀ b ∈ inodeBlocks (g.vol.inode ino),
    DataBlock g.vol.sb b → Bitmap.test g.vol.bitmap b = true
  apart : ∀ i j, inoInTable g.vol.sb i = true → inoInTable g.vol.sb j = true → i ≠ j →
    ∀ b ∈ inodeBlocks (g.vol.inode i), DataBlock g.vol.sb b → b ∉ inodeBlocks (g.vol.inode j)

variable {g g' g'' : Grouped} {ino : ℕ} {i : Inode} {P : ℕ → Prop}

theorem dataBlock_congr {sb sb' : Superblock} (h : SameLayout sb sb') (b : ℕ) :
    DataBlock sb' b ↔ DataBlock sb b := by
  rw [DataBlock, DataBlock, h.dataStart, h.totalBlocks]

theorem Laid.congr {sb sb' : Superblock} (h : Laid sb) (hl : SameLayout sb sb') : Laid sb' := by
  obtain ⟨h1, h2, h3, h4⟩ := h
  rw [← hl.bitmapStart, ← hl.bitmapBlocks, ← hl.dataStart] at h1
  rw [← hl.inodeStart, ← hl.inodeBlocks, ← hl.dataStart] at h2
  rw [← hl.inodeStart] at h3
  rw [← hl.inodeStart, ← hl.inodeBlocks, ← hl.bitmapStart, ← hl.bitmapBlocks] at h4
  exact ⟨h1, h2, h3, h4⟩

theorem Laid.inodeBlock_lt {sb : Superblock} (h : Laid sb) (hin : inoInTable sb ino = true) :
    inodeBlock sb ino < sb.dataStart := by
  have hregion := inodeBlock_inRegion hin
  have := h.inodeEnd
  have := hregion.2
  omega

theorem Owned.update (h : Owned g) (hc : Consistent g') (hl : SameLayout g.vol.sb g'.vol.sb)
    (hothers : ∀ j, inoInTable g.vol.sb j = true → j ≠ ino → g'.vol.inode j = g.vol.inode j)
    (hkeep : ∀ j, inoInTable g.vol.sb j = true → j ≠ ino → ∀ b ∈ inodeBlocks (g.vol.inode j),
      DataBlock g.vol.sb b → Bitmap.test g'.vol.bitmap b = true)
    (hown : inoInTable g.vol.sb ino = true → ∀ b ∈ inodeBlocks (g'.vol.inode ino),
      DataBlock g.vol.sb b → Bitmap.test g'.vol.bitmap b = true ∧
        ∀ j, inoInTable g.vol.sb j = true → j ≠ ino → b ∉ inodeBlocks (g.vol.inode j)) :
    Owned g' := by
  refine ⟨hc, h.laid.congr hl, ?_, ?_⟩
  · intro j hj b hb hdata
    rw [inoInTable_congr hl] at hj
    rw [dataBlock_congr hl] at hdata
    rcases eq_or_ne j ino with rfl | hne
    · exact (hown hj b hb hdata).1
    · rw [hothers j hj hne] at hb
      exact hkeep j hj hne b hb hdata
  · intro j k hj hk hjk b hb hdata hb'
    rw [inoInTable_congr hl] at hj hk
    rw [dataBlock_congr hl] at hdata
    rcases eq_or_ne j ino with rfl | hne
    · rw [hothers k hk hjk.symm] at hb'
      exact (hown hj b hb hdata).2 k hk hjk.symm hb'
    · rw [hothers j hj hne] at hb
      rcases eq_or_ne k ino with rfl | hne'
      · exact (hown hk b hb' hdata).2 j hj hne hb
      · rw [hothers k hk hne'] at hb'
        exact h.apart j k hj hk hjk b hb hdata hb'

theorem Owned.congr (h : Owned g) (hc : Consistent g') (hl : SameLayout g.vol.sb g'.vol.sb)
    (hinode : ∀ j, inoInTable g.vol.sb j = true → g'.vol.inode j = g.vol.inode j)
    (hbits : ∀ b, Bitmap.test g.vol.bitmap b = true → Bitmap.test g'.vol.bitmap b = true) :
    Owned g' := by
  apply @Owned.update g g' 0 h hc hl fun j hj _ => hinode j hj
  · intro j hj _ b hb hdata
    exact hbits b (h.used j hj b hb hdata)
  · intro h0
    cases (inoInTable_iff.mp h0).1

/-! ### Steps -/

/-- A step that writes blocks of `P` only. -/
structure Step (P : ℕ → Prop) (g g' : Grouped) : Prop where
  consistent : Consistent g'
  layout : SameLayout g.vol.sb g'.vol.sb
  readOnly : g'.vol.readOnly = g.vol.readOnly
  disk : ∀ blk, ¬ P blk → BlockAgree blk g.vol.disk g'.vol.disk

theorem Step.trans (h : Step P g g') (h' : Step P g' g'') : Step P g g'' :=
  ⟨h'.consistent, h.layout.trans h'.layout, h'.readOnly.trans h.readOnly,
    fun blk hb => (h.disk blk hb).trans (h'.disk blk hb)⟩

theorem Step.mono {Q : ℕ → Prop} (h : Step P g g') (hPQ : ∀ blk, P blk → Q blk) : Step Q g g' :=
  { h with disk := fun blk hb => h.disk blk fun hP => hb (hPQ blk hP) }

theorem MemStep.step (h : MemStep g g') : Step P g g' :=
  ⟨h.consistent, h.layout, h.readOnly, fun blk _ => h.disk ▸ BlockAgree.refl blk _⟩

theorem Step.inode_eq (h : Step P g g') (hP : ¬ P (inodeBlock g.vol.sb ino)) :
    g'.vol.inode ino = g.vol.inode ino :=
  inode_congr h.layout (h.disk _ hP)

theorem Consistent.congr (h : Consistent g) (hbits : g'.vol.bitmap = g.vol.bitmap)
    (hgroups : g'.groups = g.groups) (hl : SameLayout g.vol.sb g'.vol.sb)
    (hfree : g'.vol.sb.freeBlocks = g.vol.sb.freeBlocks) : Consistent g' := by
  constructor
  · rw [hl.dataStart]
    exact h.floor
  · rw [hl.dataStart, hl.totalBlocks]
    exact h.order
  · rw [hl.totalBlocks]
    exact h.small
  · rw [hl.dataStart, hbits]
    exact h.metadata
  · rw [hfree, hbits, hl.dataStart, hl.totalBlocks]
    exact h.free
  · rw [hgroups, hl.totalBlocks]
    exact h.length
  · rw [hgroups, hbits, hl.dataStart, hl.totalBlocks]
    exact h.group

theorem Writes.step {w : Volume} (h : Consistent g) (hw : Writes P g.vol w) :
    Step P g (g.setVol w) := by
  refine ⟨h.congr hw.bitmap rfl ?_ (by rw [Grouped.setVol, hw.sb]), ?_, hw.readOnly, hw.disk⟩ <;>
    exact hw.sb ▸ SameLayout.refl _

theorem step_writeLE (h : Consistent g) {a n : ℕ} (x : ℕ) (ha : a = 32 ∧ n = 4 ∨ a = 128 ∧ n = 4) :
    Step P g (g.setVol { g.vol with sb := writeLE g.vol.sb a n x }) := by
  have hl := sameLayout_writeLE g.vol.sb x (.inr ha)
  refine ⟨h.congr rfl rfl hl ?_, hl, rfl, fun blk _ => BlockAgree.refl blk _⟩
  exact readLE_writeLE_of_disjoint (by omega)

theorem takeInode_step (h : Consistent g) : Step P g g.takeInode :=
    step_writeLE h _ (.inl ⟨rfl, rfl⟩)

theorem giveInode_step (h : Consistent g) : Step P g g.giveInode :=
    step_writeLE h _ (.inl ⟨rfl, rfl⟩)

theorem putInode_sets {v : Volume} (src : ByteMem) (hin : inoInTable v.sb ino = true) :
    SetsInode ino (decodeInode src 0) v (putInode v ino src) := by
  obtain ⟨w, hw, hset⟩ := @writeInode_spec v (fun _ => false) ino src hin rfl
  rw [putInode, hw]
  exact hset

/-- The blocks that `flushDir` writes. -/
def FlushArea (sb : Superblock) (blk : ℕ) : Prop :=
  blk = 0 ∨ InRegion sb.bitmapStart sb.bitmapBlocks blk

theorem Laid.inodeBlock_apart {sb : Superblock} (h : Laid sb) (hin : inoInTable sb ino = true) :
    ¬ FlushArea sb (inodeBlock sb ino) := by
  obtain ⟨hge, hlt⟩ := inodeBlock_inRegion hin
  have hpos := h.inodePos
  have hapart := h.apart
  simp only [FlushArea, InRegion]
  omega

theorem flush_step (h : Consistent g) :
    Step (FlushArea g.vol.sb) g (g.setVol (flushSuperblock (flushBitmap g.vol))) ∧
      (flushSuperblock (flushBitmap g.vol)).bitmap = g.vol.bitmap := by
  have hbitmap := writes_flushBitmap g.vol
  have hstep := Writes.step h hbitmap
  have hsum := @step_writeLE (g.setVol (flushBitmap g.vol)) (FlushArea g.vol.sb) hstep.consistent
    128 4 (crc32c (bytes (flushBitmap g.vol).sb 0 112)) (.inr ⟨rfl, rfl⟩)
  have hsuper := writes_flushSuperblock (flushBitmap g.vol)
  have hlast := Writes.step hsum.consistent hsuper
  refine ⟨?_, hsuper.bitmap.trans hbitmap.bitmap⟩
  refine ((hstep.mono fun blk hb => .inr hb).trans hsum).trans (hlast.mono fun blk hb => .inl hb)

end ImpossibleOs.Ixfs
