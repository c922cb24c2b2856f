import ImpossibleOs.Lib.Loop
import ImpossibleOs.Ixfs.Volume

/-!
Where things are on an IXFS volume, and what a write leaves alone.

A write of a block changes this block only. The inodes lie side by side in the
blocks of the inode table, so that clearing one keeps the others, and the
counters of the superblock lie apart from the layout it describes.
-/

namespace ImpossibleOs.Ixfs

open ByteMem Nat

variable {v w u : Volume} {d d' : ByteMem} {blk : ℕ}

/-! ### Blocks -/

/-- The same bytes in block `blk`. -/
def BlockAgree (blk : ℕ) (d d' : ByteMem) : Prop := AgreeOn (4096 * blk) (4096 * blk + 4096) d d'

theorem readLE_readBuf (d : ByteMem) (blk a n : ℕ) :
    readLE (readBuf d blk) a n = readLE d (4096 * blk + a) n := by
  induction n generalizing a with
  | zero => rfl
  | succ n ih => rw [readLE, readLE, ih, readBuf, Nat.add_assoc]

theorem blockAgree_writeBuf {b : ℕ} (buf : ByteMem) (hb : b ≠ blk) :
    BlockAgree b d (writeBuf d blk buf) := by
  intro x hx hx'
  rw [writeBuf, if_neg (by omega)]

theorem readLE_writeBuf {buf : ByteMem} {a n : ℕ} (h : a + n ≤ 4096) :
    readLE (writeBuf d blk buf) (4096 * blk + a) n = readLE buf a n := by
  rw [← readLE_readBuf]
  apply readLE_congr
  intro x hx hx'
  rw [readBuf, writeBuf, if_pos (by omega), show (4096 * blk + x) % 4096 = x by omega]

theorem BlockAgree.refl (blk : ℕ) (d : ByteMem) : BlockAgree blk d d := AgreeOn.refl _ _ _

theorem BlockAgree.readBuf_eq (h : BlockAgree blk d d') {x : ℕ} (hx : x < 4096) :
    readBuf d' blk x = readBuf d blk x := h _ (by omega) (by omega)

theorem BlockAgree.readLE_eq (h : BlockAgree blk d d') {a n : ℕ} (ha : 4096 * blk ≤ a)
    (he : a + n ≤ 4096 * blk + 4096) : readLE d' a n = readLE d a n :=
  readLE_congr (AgreeOn.mono h ha he)

/-- Only blocks of `P` are written, and nothing but the checksum table changes in memory. -/
structure Writes (P : ℕ → Prop) (v w : Volume) : Prop where
  sb : w.sb = v.sb
  bitmap : w.bitmap = v.bitmap
  refcounts : w.refcounts = v.refcounts
  snapshots : w.snapshots = v.snapshots
  readOnly : w.readOnly = v.readOnly
  active : w.active = v.active
  deviceBlocks : w.deviceBlocks = v.deviceBlocks
  disk : ∀ blk, ¬ P blk → BlockAgree blk v.disk w.disk

variable {P : ℕ → Prop}

theorem Writes.refl (v : Volume) : Writes P v v :=
  ⟨rfl, rfl, rfl, rfl, rfl, rfl, rfl, fun blk _ => BlockAgree.refl blk _⟩

theorem Writes.trans (h : Writes P v w) (h' : Writes P w u) : Writes P v u :=
  ⟨h'.sb.trans h.sb, h'.bitmap.trans h.bitmap, h'.refcounts.trans h.refcounts,
    h'.snapshots.trans h.snapshots, h'.readOnly.trans h.readOnly, h'.active.trans h.active,
    h'.deviceBlocks.trans h.deviceBlocks, fun blk hb => (h.disk blk hb).trans (h'.disk blk hb)⟩

theorem Writes.mono {Q : ℕ → Prop} (h : Writes P v w) (hPQ : ∀ blk, P blk → Q blk) : Writes Q v w :=
  { h with disk := fun blk hb => h.disk blk fun hP => hb (hPQ blk hP) }

theorem writes_diskWrite (buf : ByteMem) (hP : P blk) : Writes P v (v.diskWrite blk buf) :=
  ⟨rfl, rfl, rfl, rfl, rfl, rfl, rfl, fun _ hb =>
    blockAgree_writeBuf buf fun heq => hb (heq ▸ hP)⟩

theorem writes_writeBlock (buf : ByteMem) (hP : P blk) : Writes P v (v.writeBlock blk buf) :=
  ⟨rfl, rfl, rfl, rfl, rfl, rfl, rfl, (writes_diskWrite buf hP).disk⟩

theorem writes_foldl {f : Volume → ℕ → Volume} {n : ℕ}
    (hstep : ∀ i < n, ∀ w, Writes P w (f w i)) : Writes P v ((List.range n).foldl f v) :=
  Loop.foldl_range (fun _ w => Writes P v w) (Writes.refl v) fun i hi w h => h.trans (hstep i hi w)

def InRegion (start blocks blk : ℕ) : Prop := start ≤ blk ∧ blk < start + blocks

theorem writes_flushBitmap (v : Volume) :
    Writes (InRegion v.sb.bitmapStart v.sb.bitmapBlocks) v (flushBitmap v) :=
  writes_foldl fun i hi _ => writes_writeBlock _ ⟨by omega, by omega⟩

theorem writes_refcountFlush (v : Volume) (t : Refcounts) :
    Writes (InRegion v.sb.refcountStart ixfsRefcountBlocks) v (refcountFlush v t) :=
  writes_foldl fun i hi _ => writes_writeBlock _ ⟨by omega, by omega⟩

theorem writes_flushSuperblock (v : Volume) :
    Writes (fun blk => blk = 0) { v with sb := v.sb.withChecksum } (flushSuperblock v) :=
  writes_writeBlock _ rfl

structure SameLayout (sb sb' : Superblock) : Prop where
  magic : sb'.magic = sb.magic
  version : sb'.version = sb.version
  blockSize : sb'.blockSize = sb.blockSize
  totalBlocks : sb'.totalBlocks = sb.totalBlocks
  totalInodes : sb'.totalInodes = sb.totalInodes
  bitmapStart : sb'.bitmapStart = sb.bitmapStart
  bitmapBlocks : sb'.bitmapBlocks = sb.bitmapBlocks
  inodeStart : sb'.inodeStart = sb.inodeStart
  inodeBlocks : sb'.inodeBlocks = sb.inodeBlocks
  dataStart : sb'.dataStart = sb.dataStart
  rootInode : sb'.rootInode = sb.rootInode
  journalStart : sb'.journalStart = sb.journalStart
  journalBlocks : sb'.journalBlocks = sb.journalBlocks
  refcountStart : sb'.refcountStart = sb.refcountStart
  refcountBlocks : sb'.refcountBlocks = sb.refcountBlocks
  snapshotStart : sb'.snapshotStart = sb.snapshotStart
  snapshotCount : sb'.snapshotCount = sb.snapshotCount
  checksumStart : sb'.checksumStart = sb.checksumStart
  checksumBlocks : sb'.checksumBlocks = sb.checksumBlocks

theorem SameLayout.refl (sb : Superblock) : SameLayout sb sb := by constructor <;> rfl

theorem SameLayout.trans {sb sb' sb'' : Superblock} (h : SameLayout sb sb')
    (h' : SameLayout sb' sb'') : SameLayout sb sb'' := by
  constructor
  · exact h'.magic.trans h.magic
  · exact h'.version.trans h.version
  · exact h'.blockSize.trans h.blockSize
  · exact h'.totalBlocks.trans h.totalBlocks
  · exact h'.totalInodes.trans h.totalInodes
  · exact h'.bitmapStart.trans h.bitmapStart
  · exact h'.bitmapBlocks.trans h.bitmapBlocks
  · exact h'.inodeStart.trans h.inodeStart
  · exact h'.inodeBlocks.trans h.inodeBlocks
  · exact h'.dataStart.trans h.dataStart
  · exact h'.rootInode.trans h.rootInode
  · exact h'.journalStart.trans h.journalStart
  · exact h'.journalBlocks.trans h.journalBlocks
  · exact h'.refcountStart.trans h.refcountStart
  · exact h'.refcountBlocks.trans h.refcountBlocks
  · exact h'.snapshotStart.trans h.snapshotStart
  · exact h'.snapshotCount.trans h.snapshotCount
  · exact h'.checksumStart.trans h.checksumStart
  · exact h'.checksumBlocks.trans h.checksumBlocks

theorem sameLayout_writeLE (sb : Superblock) {a n : ℕ} (x : ℕ)
    (h : a = 20 ∧ n = 8 ∨ a = 32 ∧ n = 4 ∨ a = 128 ∧ n = 4) : SameLayout sb (writeLE sb a n x) := by
  constructor <;> exact readLE_writeLE_of_disjoint (by omega)

theorem Superblock.checksum_withChecksum (sb : Superblock) :
    sb.withChecksum.checksum = crc32c (bytes sb.withChecksum 0 112) := by
  have hsame : bytes sb.withChecksum 0 112 = bytes sb 0 112 :=
    bytes_congr (agreeOn_writeLE (by omega))
  rw [hsame, Superblock.checksum, Superblock.withChecksum, readLE_writeLE_same]
  exact mod_eq_of_lt (crc32c_lt _)

/-! ### Inodes -/

theorem inodeAddr_eq (sb : Superblock) (ino : ℕ) :
    inodeAddr sb ino = 4096 * sb.inodeStart + 128 * ino := by
  simp only [inodeAddr, inodeBlock, ixfsInodesPerBlock]
  omega

variable {fails : ℕ → Bool} {ino : ℕ} {sb sb' : Superblock}

theorem inodeAddr_congr (h : SameLayout sb sb') (ino : ℕ) :
    inodeAddr sb' ino = inodeAddr sb ino := by
  rw [inodeAddr_eq, inodeAddr_eq, h.inodeStart]

theorem inoInTable_congr (h : SameLayout sb sb') (ino : ℕ) :
    inoInTable sb' ino = inoInTable sb ino := by
  simp only [inoInTable, h.totalInodes, h.inodeBlocks, h.inodeStart]

theorem inodeBlock_congr (h : SameLayout sb sb') (ino : ℕ) :
    inodeBlock sb' ino = inodeBlock sb ino := by
  simp only [inodeBlock, h.inodeStart]

theorem inoInTable_iff {sb : Superblock} :
    inoInTable sb ino = true ↔ 1 ≤ ino ∧ ino < sb.totalInodes ∧ ino < sb.inodeBlocks * 32 ∧
      sb.inodeStart + ino / 32 < 0xFFFFFFFF :=
  decide_eq_true_iff

theorem inodeBlock_inRegion {sb : Superblock} (h : inoInTable sb ino = true) :
    InRegion sb.inodeStart sb.inodeBlocks (inodeBlock sb ino) := by
  rw [inoInTable_iff] at h
  simp only [InRegion, inodeBlock, ixfsInodesPerBlock]
  omega

theorem decodeInode_shift {m m' : ByteMem} {a b : ℕ} (h : ∀ x < 128, m' (b + x) = m (a + x)) :
    decodeInode m' b = decodeInode m a := by
  have hread : ∀ x n, x + n ≤ 128 → readLE m' (b + x) n = readLE m (a + x) n := by
    intro x n hn
    apply readLE_shift
    intro i hi
    rw [Nat.add_assoc, Nat.add_assoc]
    exact h (x + i) (by omega)
  have hext : ∀ i ∈ List.range ixfsInlineExtents,
      (⟨readLE m' (b + 32 + 12 * i) 8, readLE m' (b + 32 + 12 * i + 8) 4⟩ : Extent) =
        ⟨readLE m (a + 32 + 12 * i) 8, readLE m (a + 32 + 12 * i + 8) 4⟩ := by
    intro i hi
    have hi4 : i < 4 := List.mem_range.mp hi
    have hstart := hread (32 + 12 * i) 8 (by omega)
    have hcount := hread (32 + 12 * i + 8) 4 (by omega)
    simp only [← Nat.add_assoc] at hstart hcount
    rw [hstart, hcount]
  unfold decodeInode
  rw [List.map_congr_left hext, hread 2 2 (by omega), hread 8 8 (by omega),
    hread 16 4 (by omega), hread 80 1 (by omega), hread 81 1 (by omega),
    show readLE m' b 2 = readLE m a 2 from hread 0 2 (by omega)]

theorem decodeInode_congr {m m' : ByteMem} {a : ℕ} (h : AgreeOn a (a + 128) m m') :
    decodeInode m' a = decodeInode m a :=
  decodeInode_shift fun x hx => h (a + x) (by omega) (by omega)

theorem decodeInode_blockAgree {k : ℕ} (hk : k < 32) (h : BlockAgree blk d d') :
    decodeInode d' (4096 * blk + 128 * k) = decodeInode d (4096 * blk + 128 * k) :=
  decodeInode_congr (AgreeOn.mono h (by omega) (by omega))

theorem inode_congr (hl : SameLayout v.sb w.sb)
    (h : BlockAgree (inodeBlock v.sb ino) v.disk w.disk) : w.inode ino = v.inode ino := by
  have hk : ino % ixfsInodesPerBlock < 32 := mod_lt _ (by decide)
  rw [Volume.inode, inodeAddr_congr hl, Volume.inode, inodeAddr]
  exact decodeInode_blockAgree hk h

/-- Inode `ino` is written, and the others stay as they are. -/
structure SetsInode (ino : ℕ) (i : Inode) (v w : Volume) : Prop where
  writes : Writes (InRegion v.sb.inodeStart v.sb.inodeBlocks) v w
  stored : w.inode ino = i
  others : ∀ j, j ≠ ino → w.inode j = v.inode j

theorem writeInode_eq (src : ByteMem)
    (hin : inoInTable v.sb ino = true) (hread : fails (inodeBlock v.sb ino) = false) :
    writeInode fails v ino src = some (v.writeBlock (inodeBlock v.sb ino)
      fun x => if 128 * (ino % ixfsInodesPerBlock) ≤ x ∧ x < 128 * (ino % ixfsInodesPerBlock) + 128
        then src (x - 128 * (ino % ixfsInodesPerBlock))
        else readBuf v.disk (inodeBlock v.sb ino) x) := by
  rw [writeInode, hin, hread]
  rfl

theorem disk_writeInode {ino x : ℕ} {src : ByteMem} {w : Volume}
    (h : writeInode fails v ino src = some w) (hin : inoInTable v.sb ino = true)
    (hread : fails (inodeBlock v.sb ino) = false) (hx : x < 128) :
    w.disk (inodeAddr v.sb ino + x) = src x := by
  have hmod : ino % ixfsInodesPerBlock < 32 := mod_lt _ (by decide)
  rw [writeInode_eq src hin hread] at h
  obtain rfl := Option.some.inj h
  simp only [Volume.writeBlock, Volume.diskWrite, inodeAddr]
  rw [writeBuf, if_pos (by omega), if_pos (by omega)]
  congr 1
  omega

theorem writeInode_spec (src : ByteMem)
    (hin : inoInTable v.sb ino = true) (hread : fails (inodeBlock v.sb ino) = false) :
    ∃ w, writeInode fails v ino src = some w ∧ SetsInode ino (decodeInode src 0) v w := by
  have hmod : ino % ixfsInodesPerBlock < 32 := mod_lt _ (by decide)
  have hdef := writeInode_eq src hin hread
  refine ⟨_, hdef, writes_writeBlock _ (inodeBlock_inRegion hin), ?_, ?_⟩
  · rw [Volume.inode]
    apply decodeInode_shift
    intro x hx
    rw [Nat.zero_add]
    have hbyte := disk_writeInode hdef hin hread hx
    exact hbyte
  · intro j hj
    rw [Volume.inode, Volume.inode]
    apply decodeInode_congr
    intro x hx hx'
    simp only [Volume.writeBlock, Volume.diskWrite, inodeAddr_eq] at hx hx' ⊢
    rw [writeBuf]
    split
    · rename_i hblk
      have hdm := div_add_mod ino ixfsInodesPerBlock
      simp only [inodeBlock, ixfsInodesPerBlock] at hblk hdm hmod
      rw [if_neg (by simp only [ixfsInodesPerBlock]; omega), readBuf]
      congr 1
      simp only [inodeBlock, ixfsInodesPerBlock]
      omega
    · rfl

structure ClearsInode (ino : ℕ) (v w : Volume) : Prop where
  writes : Writes (InRegion v.sb.inodeStart v.sb.inodeBlocks) v w
  freed : (w.inode ino).isFree = true
  others : ∀ j, j ≠ ino → w.inode j = v.inode j

theorem writeInode_zero (hin : inoInTable v.sb ino = true)
    (hread : fails (inodeBlock v.sb ino) = false) :
    ∃ w, writeInode fails v ino (fun _ => 0) = some w ∧ ClearsInode ino v w := by
  obtain ⟨w, hw, hset⟩ := writeInode_spec (fun _ => 0) hin hread
  refine ⟨w, hw, hset.writes, ?_, hset.others⟩
  rw [hset.stored]
  rfl

end ImpossibleOs.Ixfs
