import ImpossibleOs.Ixfs.FsckRepair

/-!
From the volume a fixing run of the IXFS checker starts with to the one it
leaves.

The passes write one after another to directory blocks, inode table, bitmap,
block 0, reference counts and the journal header.
-/

namespace ImpossibleOs.Ixfs

open ByteMem List

variable {faults : ReadFaults} {v w : Volume} {blk : ℕ}

/-! ### The superblock of a volume with the same block 0 -/

theorem SuperblockSound.congr (h : SuperblockSound v) (hsb : w.sb = v.sb)
    (hdisk : BlockAgree 0 v.disk w.disk) : SuperblockSound w := by
  refine ⟨?_, ?_, ?_⟩
  · rw [hsb]
    exact h.crc
  · rw [hsb, ← h.disk.1]
    exact hdisk.readLE_eq (by omega) (by omega)
  · rw [hsb, ← h.disk.2]
    exact hdisk.readLE_eq (by omega) (by omega)

theorem add_ite_eq_zero {p : Prop} [Decidable p] {n : ℕ} :
    n + (if p then 1 else 0) = 0 ↔ n = 0 ∧ ¬ p := by
  split <;> simp_all

/-- The superblock has the right constants and its regions are in order. -/
def FieldsOk (sb : Superblock) : Prop :=
  (((((sb.magic = ixfsMagic ∧ ¬ (sb.version = 0 ∨ ixfsVersion < sb.version)) ∧
    sb.blockSize = ixfsBlockSize) ∧ ¬ sb.totalBlocks = 0) ∧ sb.rootInode = ixfsRootInode) ∧
      (sb.bitmapStart < sb.inodeStart ∧ sb.inodeStart < sb.dataStart)) ∧
        ¬ sb.totalBlocks < sb.dataStart

theorem checkSuperblock_eq_zero_iff {sb : Superblock} :
    checkSuperblock sb = 0 ↔ FieldsOk sb ∧ crc32c (bytes sb 0 112) = sb.checksum := by
  have hone : ∀ {p : Prop} [Decidable p], (if p then 1 else 0) = 0 ↔ ¬ p := by
    intro p _
    split <;> simp_all
  unfold checkSuperblock FieldsOk
  generalize crc32c (bytes sb 0 112) = crc
  rw [add_ite_eq_zero, add_ite_eq_zero, add_ite_eq_zero, add_ite_eq_zero, add_ite_eq_zero,
    add_ite_eq_zero, add_ite_eq_zero, hone, not_not, not_not, not_not, not_not, not_not]

theorem superblockErrors_eq_zero_iff : superblockErrors faults v = 0 ↔
      checkSuperblock v.sb = 0 ∧ faults .superblock 0 = false ∧ sameOnDisk v := by
  unfold superblockErrors
  rw [Nat.add_eq_zero_iff]
  refine and_congr_right fun _ => ?_
  split <;> simp_all

theorem superblockErrors_congr (hl : SameLayout v.sb w.sb) (h : superblockErrors faults v = 0)
    (hsound : SuperblockSound w) : superblockErrors faults w = 0 := by
  rw [superblockErrors_eq_zero_iff, checkSuperblock_eq_zero_iff] at h ⊢
  obtain ⟨⟨hfields, -⟩, hread, -⟩ := h
  refine ⟨⟨?_, hsound.crc⟩, hread, hsound.disk⟩
  unfold FieldsOk
  rw [hl.magic, hl.version, hl.blockSize, hl.totalBlocks, hl.rootInode, hl.bitmapStart,
    hl.inodeStart, hl.dataStart]
  exact hfields

def writtenRegions (sb : Superblock) : List (ℕ × ℕ) :=
  [(0, 1), (sb.bitmapStart, sb.bitmapBlocks), (sb.inodeStart, sb.inodeBlocks),
    (sb.journalStart, sb.journalBlocks), (sb.refcountStart, sb.refcountBlocks)]

theorem Plausible.disjoint (h : Plausible faults v) :
    (writtenRegions v.sb).Pairwise fun r r' =>
      ∀ blk, InRegion r.1 r.2 blk → ¬ InRegion r'.1 r'.2 blk := by
  have hall : metaRegions v.sb = ([(0, 1), (v.sb.bitmapStart, v.sb.bitmapBlocks),
      (v.sb.inodeStart, v.sb.inodeBlocks), (v.sb.checksumStart, v.sb.checksumBlocks),
      (v.sb.journalStart, v.sb.journalBlocks), (v.sb.refcountStart, v.sb.refcountBlocks),
      (v.sb.snapshotStart, if v.sb.snapshotStart = 0 then 0 else ixfsSnapshotBlocks)] :
        List (ℕ × ℕ)).filter fun r => r.2 ≠ 0 := by
    rfl
  have hpair := h.apart
  rw [hall, pairwise_filter] at hpair
  have hsub : (writtenRegions v.sb).Pairwise fun r r' =>
      decide (r.2 ≠ 0) = true → decide (r'.2 ≠ 0) = true → ¬ overlap r r' := by
    refine hpair.sublist ?_
    refine .cons_cons _ (.cons_cons _ (.cons_cons _ (.cons _ (.cons_cons _ (.cons_cons _ ?_)))))
    exact nil_sublist _
  refine hsub.imp ?_
  intro r r' hno blk hin hin'
  simp only [InRegion] at hin hin'
  refine hno (by simp; omega) (by simp; omega) ?_
  simp only [overlap]
  omega

theorem Plausible.order (h : Plausible faults v) :
    v.sb.bitmapStart < v.sb.inodeStart ∧ v.sb.inodeStart < v.sb.dataStart ∧
      v.sb.dataStart ≤ v.sb.totalBlocks := by
  rcases h.layout with hzero | ⟨h1, h2, h3, -⟩
  · obtain ⟨hfields, -⟩ :=
      checkSuperblock_eq_zero_iff.mp (superblockErrors_eq_zero_iff.mp hzero).1
    exact ⟨hfields.1.2.1, hfields.1.2.2, not_lt.mp hfields.2⟩
  · exact ⟨h1, h2, h3⟩

theorem metaRangeOk.lt {start blocks limit : ℕ} (h : metaRangeOk start blocks limit)
    (hin : InRegion start blocks blk) : blk < limit := by
  simp only [InRegion] at hin
  rcases h with hzero | ⟨-, hle⟩ <;> omega

/-! ### The journal of a volume with the same journal blocks -/

/-- The blocks of the journal are the same. -/
def JournalAgree (v w : Volume) : Prop :=
  ∀ blk, InRegion v.sb.journalStart v.sb.journalBlocks blk → BlockAgree blk v.disk w.disk

section

variable (hl : SameLayout v.sb w.sb) (h : JournalAgree v w)
include hl

theorem journaled_congr : w.journaled.journalStart = v.journaled.journalStart ∧
    w.journaled.journalBlocks = v.journaled.journalBlocks := by
  simp only [Volume.journaled, hl.journalStart, hl.journalBlocks, and_self]

include h

theorem header_congr (hpos : 0 < v.sb.journalBlocks) :
    w.journaled.header = v.journaled.header := by
  rw [header_eq, header_eq, hl.journalStart]
  exact blockAgree_iff.mp (h _ ⟨le_rfl, by omega⟩)

/-- Below the data no position of the journal wraps. -/
theorem entry_congr (hr : metaRangeOk v.sb.journalStart v.sb.journalBlocks v.sb.dataStart)
    {slot : UInt32} (hslot : slot < v.journaled.journalBlocks) :
    w.journaled.entry slot = v.journaled.entry slot := by
  rw [UInt32.lt_iff_toNat_lt, toNat_journalBlocks] at hslot
  have hdata : v.sb.dataStart < 2 ^ 32 := readLE_lt v.sb 52 4
  have hin : InRegion v.sb.journalStart v.sb.journalBlocks (v.sb.journalStart + slot.toNat) :=
    ⟨by omega, by omega⟩
  have hlt := hr.lt hin
  have hpos : (v.journaled.journalStart + slot).toNat = v.sb.journalStart + slot.toNat := by
    rw [UInt32.toNat_add, toNat_journalStart, Nat.mod_eq_of_lt (by omega)]
  have hblock := blockAgree_iff.mp (h _ hin)
  rw [← hpos] at hblock
  rw [Journaled.entry, (journaled_congr hl).1]
  exact hblock

theorem journalFound_congr : journalFound faults w ↔ journalFound faults v := by
  unfold journalFound
  rw [hl.journalBlocks, hl.journalStart, hl.totalBlocks]
  refine and_congr_right fun hpos => and_congr_right fun _ => and_congr_right fun _ => ?_
  rw [Journaled.magic, header_congr hl h hpos]
  exact Iff.rfl

end

theorem slotAfter_lt {blocks : UInt32} (h : 1 < blocks) (slot : UInt32) :
    slotAfter blocks slot < blocks := by
  unfold slotAfter
  split
  · exact h
  · rename_i hlt
    exact UInt32.not_le.mp hlt

theorem journalErrors_congr (hl : SameLayout v.sb w.sb) (h : JournalAgree v w)
    (hr : metaRangeOk v.sb.journalStart v.sb.journalBlocks v.sb.dataStart)
    (hsize : 1 < v.journaled.journalBlocks) (hhead : w.journaled.head = v.journaled.head) {n : ℕ}
    {slot : UInt32} (hslot : slot < v.journaled.journalBlocks) (fuel : ℕ) :
    journalErrors faults n w.journaled fuel slot = journalErrors faults n v.journaled fuel slot ∧
      replays w.journaled fuel slot = replays v.journaled fuel slot := by
  induction fuel generalizing slot with
  | zero => exact ⟨rfl, rfl⟩
  | succ fuel ih =>
    obtain ⟨hrest, hrest'⟩ := ih (slotAfter_lt hsize slot)
    obtain ⟨hstart, hblocks⟩ := journaled_congr hl
    simp only [journalErrors, replays, hstart, hblocks, hhead, entry_congr hl h hr hslot, hrest,
      hrest', and_self]

theorem JournalIdle.congr (hl : SameLayout v.sb w.sb) (h : JournalAgree v w)
    (hr : metaRangeOk v.sb.journalStart v.sb.journalBlocks v.sb.dataStart)
    (hidle : JournalIdle faults v) : JournalIdle faults w := by
  have hheader : journalFound faults v → w.journaled.head = v.journaled.head ∧
      w.journaled.tail = v.journaled.tail := by
    intro hfound
    have hsame := header_congr hl h hfound.1
    simp only [Journaled.head, Journaled.tail, hsame, and_self]
  constructor
  · intro hfound
    have hfound' := (journalFound_congr hl h).mp hfound
    obtain ⟨hhead, htail⟩ := hheader hfound'
    unfold Journaled.InRange
    rw [hhead, htail, (journaled_congr hl).2]
    exact hidle.inRange hfound'
  · intro hfound
    have hfound' := (journalFound_congr hl h).mp hfound
    obtain ⟨hhead, htail⟩ := hheader hfound'
    obtain ⟨-, ht, -, ht0⟩ := hidle.inRange hfound'
    have hsize : 1 < v.journaled.journalBlocks := by
      have hpos : 0 < v.journaled.tail.toNat :=
        Nat.pos_of_ne_zero fun hz => ht0 (UInt32.toNat_inj.mp hz)
      rw [UInt32.lt_iff_toNat_lt] at ht ⊢
      rw [UInt32.toNat_one]
      omega
    have hboth := @journalErrors_congr faults v w hl h hr hsize hhead v.sb.totalBlocks _ ht
      v.sb.journalBlocks
    rw [htail, hl.totalBlocks, hl.journalBlocks, hboth.1, hboth.2]
    exact hidle.idle hfound'

/-! ### Conditions on the volume -/

def Inode.Refers (i : Inode) (b : ℕ) : Prop := b ≠ 0 ∧ ∃ idx < 2 ^ 32, getBlock i idx = b

/-- `mb` is a block of the saved inode table of a snapshot. -/
def SavedTable (v : Volume) (mb : ℕ) : Prop :=
  ∃ se ∈ v.snapshots.take ixfsMaxSnapshots, se.flags ≠ 0 ∧ se.rootBlock ≤ mb ∧
    mb < se.rootBlock + se.inodeBlocks ∧ mb < v.sb.totalBlocks

/-- `i` is an inode in use of a saved inode table. -/
def SavedInode (v : Volume) (i : Inode) : Prop :=
  ∃ mb, SavedTable v mb ∧ i ∈ savedInodes v mb ∧ i.isFree = false

def mappedIndices (sb : Superblock) (i : Inode) : ℕ :=
  (scannedIndices sb i).countP fun idx => getBlock i idx ≠ 0

/-- `mb` is a block of a saved table that pass 4 goes through. -/
def ScannedTable (v : Volume) (mb : ℕ) : Prop := ∃ se ∈ v.snapshotSlots, mb ∈ savedBlocks v.sb se

theorem ScannedTable.dataStart_le {mb : ℕ} (h : ScannedTable v mb) : v.sb.dataStart ≤ mb := by
  obtain ⟨se, -, hmb⟩ := h
  unfold savedBlocks at hmb
  split at hmb
  · simp at hmb
  · rw [mem_range'_1] at hmb
    omega

/-- The volumes that a fixing run deals with. The inodes in use that have blocks can be read in
pass 3, and the saved tables with blocks are gone through and can be read in pass 4. Unless the
walk fails at a directory, the inodes in use that the entries of the tree lead to can be read.
No inode has a data block at or beyond its block count, and no directory of the tree a block. Of
the inodes in use only files of the tree have a block of a saved table. The reference counts have
their two blocks if they are to be rebuilt, and the journal is idle. The 32-bit counters of the
report do not wrap. -/
structure Checkable (faults : ReadFaults) (v : Volume) : Prop where
  live : LiveReads faults v
  target : TreeOk faults v → ∀ ino blk, InTree v ino → DirBlock v ino blk → ∀ e < 16,
    Allocated v (entryIno v.disk blk e) →
      faults .target (inodeBlock v.sb (entryIno v.disk blk e)) = false
  saved : ∀ mb, SavedTable v mb → (savedInodes v mb).flatMap (savedMarks v.sb) ≠ [] →
    ScannedTable v mb ∧ faults .saved mb = false
  compact : ∀ ino, Allocated v ino → (v.inode ino).Compact v.sb
  savedCompact : ∀ i, SavedInode v i → i.Compact v.sb
  directories : ∀ ino, InTree v ino → (v.inode ino).CompactDir
  unshared : ∀ mb ino, ScannedTable v mb → Allocated v ino → (v.inode ino).Refers mb →
    InTree v ino ∧ (v.inode ino).isDir = false
  refcounts : ∀ t, v.refcounts = some t →
    refcountMismatches v.sb (scanVolume faults v).refc t ≠ 0 →
      ixfsRefcountBlocks ≤ v.sb.refcountBlocks
  journal : JournalIdle faults v
  small : ((inodeNumbers v.sb).map fun ino =>
    if inoInTable v.sb ino && !(v.inode ino).isFree then mappedIndices v.sb (v.inode ino)
    else 0).sum < 2 ^ 32 - 2 ^ 26

theorem Inode.Compact.mem_inodeMarks {sb : Superblock} {i : Inode} {b : ℕ} (h : i.Compact sb)
    (href : i.Refers b) (hge : sb.dataStart ≤ b) (hlt : b < sb.totalBlocks) :
    b ∈ inodeMarks sb i := by
  obtain ⟨hne, idx, hidx, rfl⟩ := href
  obtain ⟨h1, h2⟩ := h idx hidx ⟨hne, hge, hlt⟩
  exact Ixfs.mem_inodeMarks.mpr ⟨idx, h1, h2, rfl, hne, hge, hlt⟩

theorem refers_of_mem_inodeMarks {sb : Superblock} {i : Inode} {b : ℕ} (h : b ∈ inodeMarks sb i)
    (hi : i.blocks < 2 ^ 32) : i.Refers b := by
  obtain ⟨idx, h1, -, h2, hin⟩ := mem_inodeMarks.mp h
  exact ⟨hin.1, idx, by omega, h2⟩

theorem blocks_lt (v : Volume) (ino : ℕ) : (v.inode ino).blocks < 2 ^ 32 := by
  have := readLE_lt v.disk (inodeAddr v.sb ino + 16) 4
  norm_num at this ⊢
  exact this

theorem Checkable.data_mem_savedUses (h : Checkable faults v) {i : Inode} (hi : SavedInode v i)
    {b : ℕ} (href : i.Refers b) (hge : v.sb.dataStart ≤ b) (hlt : b < v.sb.totalBlocks) :
    Use.data b ∈ savedUses faults v := by
  have hmark := (h.savedCompact i hi).mem_inodeMarks href hge hlt
  obtain ⟨mb, htable, hmem, hfree⟩ := hi
  have hsaved : b ∈ (savedInodes v mb).flatMap (savedMarks v.sb) := by
    refine mem_flatMap.mpr ⟨i, hmem, ?_⟩
    rwa [savedMarks, hfree, if_neg Bool.false_ne_true]
  obtain ⟨⟨se, hse, hmb⟩, hread⟩ := h.saved mb htable (ne_nil_of_mem hsaved)
  refine mem_flatMap.mpr ⟨se, hse, mem_append_right _ (mem_map.mpr ⟨b, ?_, rfl⟩)⟩
  refine mem_flatMap.mpr ⟨mb, hmb, ?_⟩
  rwa [savedBlockMarks, hread, if_neg Bool.false_ne_true]

theorem Reached.inTree (h : Reached faults v ino) : InTree v ino := by
  induction h with
  | root hroot => exact .root hroot
  | entry _ hblk he ht hal ih => exact ih.entry hblk he ht hal.1

/-- If no directory fails, the walk comes to the whole tree. -/
theorem Checkable.reached (h : Checkable faults v) (hok : TreeOk faults v) (ht : InTree v ino) :
    Reached faults v ino := by
  induction ht with
  | root hroot => exact .root hroot
  | @entry ino blk e t hin hblk he ht hal ih =>
    refine ih.entry hblk he ht ⟨hal, ?_⟩
    subst ht
    exact h.target hok ino blk hin hblk e he hal

theorem countFreeInodes_congr (hl : SameLayout v.sb w.sb)
    (h : ∀ ino, inoInTable v.sb ino = true → w.inode ino = v.inode ino) :
    countFreeInodes faults w = countFreeInodes faults v := by
  unfold countFreeInodes
  rw [hl.totalInodes]
  apply countP_congr
  intro ino _
  unfold readInode
  rw [inoInTable_congr hl, inodeBlock_congr hl]
  cases hin : inoInTable v.sb ino with
  | false => rfl
  | true => rw [h ino hin]

/-- The volume `w` that passes 7 to 10 make of `v`. -/
structure Repaired (faults : ReadFaults) (v w : Volume) (expected : ByteMem) : Prop where
  layout : SameLayout v.sb w.sb
  snapshots : w.snapshots = v.snapshots
  readOnly : w.readOnly = v.readOnly
  active : w.active = v.active
  deviceBlocks : w.deviceBlocks = v.deviceBlocks
  bits : ∀ i < v.sb.totalBlocks, Bitmap.test w.bitmap i = Bitmap.test expected i
  data : ∀ blk, v.sb.dataStart ≤ blk → BlockAgree blk v.disk w.disk
  inode : ∀ ino, inoInTable v.sb ino = true → w.inode ino = v.inode ino
  sound : SuperblockSound v → SuperblockSound w
  freeBlocks : w.sb.freeBlocks = expectedFree v.sb expected
  freeInodes : w.sb.freeInodes = countFreeInodes faults w

/-- What lets the repairs keep out of each other's way. -/
structure Separate (v : Volume) (refc : ℕ → ℕ) : Prop where
  disjoint : (writtenRegions v.sb).Pairwise fun r r' =>
    ∀ blk, InRegion r.1 r.2 blk → ¬ InRegion r'.1 r'.2 blk
  bitmap : metaRangeOk v.sb.bitmapStart v.sb.bitmapBlocks v.sb.dataStart
  inode : metaRangeOk v.sb.inodeStart v.sb.inodeBlocks v.sb.dataStart
  journal : metaRangeOk v.sb.journalStart v.sb.journalBlocks v.sb.dataStart
  refcount : metaRangeOk v.sb.refcountStart v.sb.refcountBlocks v.sb.dataStart
  data : 0 < v.sb.dataStart
  counts : ∀ t, v.refcounts = some t → refcountMismatches v.sb refc t ≠ 0 →
    ixfsRefcountBlocks ≤ v.sb.refcountBlocks

theorem repairs_spec {refc : ℕ → ℕ} (hs : Separate v refc) (hidle : JournalIdle faults v)
    {expected : ByteMem} (hrefc : ∀ b, refc b ≤ 255) (repair : Bool) {bm cnt rc : Volume}
    (hbm : bm = (repairBitmap true v expected).1)
    (hcnt : cnt = (repairCounts faults true bm expected).1)
    (hrc : rc = (repairRefcounts repair cnt refc).1) {jr : JournalPass}
    (hjr : jr = checkJournal faults true rc) : Repaired faults v jr.vol expected ∧
      (repair = true → ∀ t, jr.vol.refcounts = some t → ∀ b ∈ countedBlocks v.sb t,
        refc b ≠ 0 → (t.table b).toNat = refc b) ∧
      (jr.repairFailed = false → (checkJournal faults false jr.vol).errors = 0) := by
  obtain ⟨hbw, hbits, -⟩ := hbm ▸ repairBitmap_spec true v expected
  obtain ⟨hlayout, hcw, hsound, hfb, hfi, -⟩ := hcnt ▸ repairCounts_spec faults true bm expected
  obtain ⟨hrw, hcounts⟩ := hrc ▸ repairRefcounts_spec repair cnt hrefc
  have hbsb : bm.sb = v.sb := hbw.sb
  have hrsb : rc.sb = cnt.sb := hrw.sb
  have hbref : bm.refcounts = v.refcounts := hbw.refcounts
  have hcref : cnt.refcounts = v.refcounts := hcw.refcounts.trans hbref
  rw [hbsb] at hlayout
  have hdisjoint := hs.disjoint
  simp only [writtenRegions, pairwise_cons, forall_mem_cons, not_mem_nil,
    false_imp_iff, implies_true, and_true, List.Pairwise.nil] at hdisjoint
  obtain ⟨⟨hzb, hzi, hzj, hzr⟩, ⟨hbi, hbj, hbr⟩, ⟨hij, hir⟩, hjreg⟩ := hdisjoint
  -- the reference counts are written inside their region
  have hrreg : ∀ blk, ((∃ t, cnt.refcounts = some t ∧ refcountMismatches cnt.sb refc t ≠ 0) ∧
      InRegion cnt.sb.refcountStart ixfsRefcountBlocks blk) →
        InRegion v.sb.refcountStart v.sb.refcountBlocks blk := by
    rintro blk ⟨⟨t, hsome, hmism⟩, hin⟩
    have hcounted : countedBlocks cnt.sb t = countedBlocks v.sb t := by
      simp only [countedBlocks, hlayout.dataStart, hlayout.totalBlocks]
    rw [refcountMismatches, hcounted] at hmism
    have := hs.counts t (hcref ▸ hsome) hmism
    rw [hlayout.refcountStart] at hin
    exact ⟨hin.1, by have := hin.2; omega⟩
  have hzero : ∀ blk, blk = 0 ↔ InRegion 0 1 blk := by
    intro blk
    simp only [InRegion]
    omega
  -- up to the journal, a block outside bitmap, superblock and reference counts stays
  have hagree : ∀ blk, ¬ InRegion v.sb.bitmapStart v.sb.bitmapBlocks blk → ¬ InRegion 0 1 blk →
      ¬ InRegion v.sb.refcountStart v.sb.refcountBlocks blk → BlockAgree blk v.disk rc.disk := by
    intro blk h1 h2 h3
    exact (AgreeOn.trans (hbw.disk blk h1) (hcw.disk blk fun h => h2 ((hzero blk).mp h))).trans
      (hrw.disk blk fun h => h3 (hrreg blk h))
  have hlrc : SameLayout v.sb rc.sb := hrsb ▸ hlayout
  have hjagree : JournalAgree v rc := fun blk hin =>
    hagree blk (fun h => hbj blk h hin) (fun h => hzj blk h hin) (hjreg blk hin)
  obtain ⟨hjw, hjclean⟩ := @checkJournal_spec faults true rc (hidle.congr hlrc hjagree hs.journal)
  rw [← hjr] at hjw hjclean
  have hjhead : ∀ blk, (blk = rc.sb.journalStart ∧ 0 < rc.sb.journalBlocks) →
      InRegion v.sb.journalStart v.sb.journalBlocks blk := by
    rintro blk ⟨rfl, hpos⟩
    rw [hlrc.journalBlocks] at hpos
    rw [hlrc.journalStart]
    exact ⟨le_rfl, by omega⟩
  have hend : ∀ blk, ¬ InRegion v.sb.journalStart v.sb.journalBlocks blk →
      BlockAgree blk rc.disk jr.vol.disk := fun blk h => hjw.disk blk fun hj => h (hjhead blk hj)
  have hjsb : jr.vol.sb = cnt.sb := hjw.sb.trans hrsb
  have hlend : SameLayout v.sb jr.vol.sb := hjsb ▸ hlayout
  have hinode : ∀ ino, inoInTable v.sb ino = true → jr.vol.inode ino = v.inode ino := by
    intro ino hin
    have hreg := inodeBlock_inRegion hin
    refine inode_congr hlend ((hagree _ (fun h => hbi _ h hreg) (fun h => hzi _ h hreg)
      (hir _ hreg)).trans (hend _ (hij _ hreg)))
  refine ⟨⟨hlend, ?_, ?_, ?_, ?_, fun i hi => ?_, fun blk hblk => ?_, hinode, fun hv => ?_, ?_, ?_⟩,
    fun hrep t ht b hb => ?_, hjclean rfl⟩
  · exact (hjw.snapshots.trans hrw.snapshots).trans (hcw.snapshots.trans hbw.snapshots)
  · exact (hjw.readOnly.trans hrw.readOnly).trans (hcw.readOnly.trans hbw.readOnly)
  · exact (hjw.active.trans hrw.active).trans (hcw.active.trans hbw.active)
  · exact (hjw.deviceBlocks.trans hrw.deviceBlocks).trans
      (hcw.deviceBlocks.trans hbw.deviceBlocks)
  · have hbmap : jr.vol.bitmap = bm.bitmap := (hjw.bitmap.trans hrw.bitmap).trans hcw.bitmap
    rw [hbmap, hbits i, if_pos ⟨hi, rfl⟩]
  · refine (hagree blk (fun h => ?_) (fun h => ?_) (fun h => ?_)).trans (hend blk fun h => ?_)
    · have := hs.bitmap.lt h
      omega
    · have := hs.data
      rw [← hzero] at h
      omega
    · have := hs.refcount.lt h
      omega
    · have := hs.journal.lt h
      omega
  · -- block 0 is written by pass 8 only
    have h0 : InRegion 0 1 0 := ⟨le_rfl, Nat.one_pos⟩
    have hbm0 : SuperblockSound bm := hv.congr hbsb (hbw.disk 0 (hzb 0 h0))
    have hrc0 : SuperblockSound rc :=
      (hsound hbm0).congr hrsb (hrw.disk 0 fun h => hzr 0 h0 (hrreg 0 h))
    exact hrc0.congr hjw.sb (hend 0 (hzj 0 h0))
  · rw [hjsb, hfb rfl, hbsb]
  · rw [hjsb, hfi rfl]
    have hbinode : ∀ ino, inoInTable v.sb ino = true → bm.inode ino = v.inode ino := fun ino hin =>
      inode_congr (hbsb ▸ SameLayout.refl _)
        (hbw.disk _ fun h => hbi _ h (inodeBlock_inRegion hin))
    refine (countFreeInodes_congr (hbsb.symm ▸ hlend) fun ino hin => ?_).symm
    rw [hbsb] at hin
    rw [hinode ino hin, hbinode ino hin]
  · have href : jr.vol.refcounts = rc.refcounts := hjw.refcounts
    have hcnt' := hcounts hrep t (href ▸ ht) b
    simp only [countedBlocks, hlayout.dataStart, hlayout.totalBlocks] at hcnt' hb
    exact hcnt' hb

end ImpossibleOs.Ixfs
