import ImpossibleOs.Ixfs.Journal
import ImpossibleOs.Ixfs.Volume

/-!
The IXFS consistency checker (`src/kernel/fs/ixfs/ixfs_fsck.c`), with the
checksum scrub (`ixfs_format.c`) it calls. The journal replay is that of `Journal`.

The error counters of the report are natural numbers here and are reduced to the
32 bits they have where the checker reads them. The block groups are left out.
-/

namespace ImpossibleOs.Ixfs

open ByteMem Function

/-- The places of a run that read blocks: the superblock, the inodes of pass 3, the saved
inode tables, the inodes, entries and entry targets of the directory walk, the inodes of pass 6
and of the free count, the journal, its replay and the data blocks. -/
inductive Site where
  | superblock
  | live
  | saved
  | directory
  | entries
  | target
  | orphan
  | count
  | journal
  | replay
  | scrub
  deriving DecidableEq

/-- The blocks that cannot be read, for each place that reads. -/
abbrev ReadFaults := Site → ℕ → Bool

/-! ### Pass 1: the superblock -/

def checkSuperblock (sb : Superblock) : ℕ :=
  (if sb.magic ≠ ixfsMagic then 1 else 0) +
  (if sb.version = 0 ∨ ixfsVersion < sb.version then 1 else 0) +
  (if sb.blockSize ≠ ixfsBlockSize then 1 else 0) +
  (if sb.totalBlocks = 0 then 1 else 0) +
  (if sb.rootInode ≠ ixfsRootInode then 1 else 0) +
  (if ¬ (sb.bitmapStart < sb.inodeStart ∧ sb.inodeStart < sb.dataStart) then 1 else 0) +
  (if sb.totalBlocks < sb.dataStart then 1 else 0) +
  (if crc32c (bytes sb 0 112) ≠ sb.checksum then 1 else 0)

/-- The copy on the device agrees with the mounted superblock. -/
def sameOnDisk (v : Volume) : Prop :=
  readLE v.disk 0 4 = v.sb.magic ∧ readLE v.disk 128 4 = v.sb.checksum

instance (v : Volume) : Decidable (sameOnDisk v) := inferInstanceAs (Decidable (_ ∧ _))

def superblockErrors (faults : ReadFaults) (v : Volume) : ℕ :=
  checkSuperblock v.sb + if faults .superblock 0 = false ∧ sameOnDisk v then 0 else 1

/-- `fsck_meta_range_ok`; 32-bit positions do not overflow its 64-bit sum. -/
def metaRangeOk (start blocks limit : ℕ) : Prop :=
  blocks = 0 ∨ start ≠ 0 ∧ start + blocks ≤ limit

instance (start blocks limit : ℕ) : Decidable (metaRangeOk start blocks limit) :=
  inferInstanceAs (Decidable (_ ∨ _))

/-- The metadata regions that are there, each with first block and number of blocks. -/
def metaRegions (sb : Superblock) : List (ℕ × ℕ) :=
  (0, 1) :: [(sb.bitmapStart, sb.bitmapBlocks), (sb.inodeStart, sb.inodeBlocks),
    (sb.checksumStart, sb.checksumBlocks), (sb.journalStart, sb.journalBlocks),
    (sb.refcountStart, sb.refcountBlocks),
    (sb.snapshotStart, if sb.snapshotStart = 0 then 0 else ixfsSnapshotBlocks)].filter
      fun r => r.2 ≠ 0

def overlap (r r' : ℕ × ℕ) : Prop := r.1 < r'.1 + r'.2 ∧ r'.1 < r.1 + r.2

instance : DecidableRel overlap := fun _ _ => inferInstanceAs (Decidable (_ ∧ _))

/-- The layout is in order, the counts are plausible, and the metadata regions lie apart below
the data: otherwise the run ends before its first pass over the volume. -/
structure Plausible (faults : ReadFaults) (v : Volume) : Prop where
  layout : superblockErrors faults v = 0 ∨
    v.sb.bitmapStart < v.sb.inodeStart ∧ v.sb.inodeStart < v.sb.dataStart ∧
      v.sb.dataStart ≤ v.sb.totalBlocks ∧ v.sb.totalBlocks ≠ 0 ∧ v.sb.dataStart ≠ 0
  counts : v.sb.totalBlocks ≠ 0 ∧ v.sb.totalBlocks ≤ ixfsMaxBlocks ∧
    (v.deviceBlocks = 0 ∨ v.sb.totalBlocks ≤ v.deviceBlocks) ∧
      v.sb.totalInodes ≠ 0 ∧ v.sb.totalInodes ≤ v.sb.totalBlocks
  ranges : metaRangeOk v.sb.bitmapStart v.sb.bitmapBlocks v.sb.dataStart ∧
    metaRangeOk v.sb.inodeStart v.sb.inodeBlocks v.sb.dataStart ∧
    metaRangeOk v.sb.checksumStart v.sb.checksumBlocks v.sb.dataStart ∧
    metaRangeOk v.sb.journalStart v.sb.journalBlocks v.sb.dataStart ∧
    metaRangeOk v.sb.refcountStart v.sb.refcountBlocks v.sb.dataStart ∧
    metaRangeOk v.sb.snapshotStart (if v.sb.snapshotStart = 0 then 0 else ixfsSnapshotBlocks)
      v.sb.dataStart
  apart : (metaRegions v.sb).Pairwise fun r r' => ¬ overlap r r'

instance (faults : ReadFaults) (v : Volume) : Decidable (Plausible faults v) :=
  decidable_of_iff (_ ∧ _ ∧ _ ∧ _)
    ⟨fun h => ⟨h.1, h.2.1, h.2.2.1, h.2.2.2⟩, fun h => ⟨h.layout, h.counts, h.ranges, h.apart⟩⟩

/-! ### Passes 2 to 4: the blocks in use -/

/-- The expected bitmap and reference counts, with the errors met on the way. -/
structure Scan where
  expected : ByteMem
  refc : ℕ → ℕ
  inodeErrors : ℕ
  crossLinks : ℕ

/-- The block is in use once more; counts stop at 255. -/
def Scan.mark (s : Scan) (blk : ℕ) : Scan :=
  { s with
    expected := Bitmap.set s.expected blk
    refc := if s.refc blk < 255 then update s.refc blk (s.refc blk + 1) else s.refc }

/-- Pass 2: the blocks before the data are in use. -/
def markMetadata (sb : Superblock) : Scan :=
  (List.range (min sb.dataStart sb.totalBlocks)).foldl Scan.mark
    ⟨fun _ => 0, fun _ => 0, 0, 0⟩

/-- One index of `fsck_scan_inode_extents`. -/
def scanIndex (sb : Superblock) (countCross : Bool) (inode : Inode) (s : Scan) (idx : ℕ) : Scan :=
  let blk := getBlock inode idx
  if blk = 0 then s
  else if blk < sb.dataStart ∨ sb.totalBlocks ≤ blk then
    { s with inodeErrors := s.inodeErrors + 1 }
  else if countCross && Bitmap.test s.expected blk then
    { s with crossLinks := s.crossLinks + 1 }.mark blk
  else s.mark blk

def scanInodeExtents (sb : Superblock) (countCross : Bool) (inode : Inode) (s : Scan) : Scan :=
  (List.range (min inode.blocks sb.totalBlocks)).foldl (scanIndex sb countCross inode)
    (if ixfsInlineExtents < inode.extentCount then { s with inodeErrors := s.inodeErrors + 1 }
      else s)

/-- The inodes a scan goes through. -/
def inodeNumbers (sb : Superblock) : List ℕ := List.range' 1 (sb.totalInodes - 1)

def scanLive (faults : ReadFaults) (v : Volume) (s : Scan) (ino : ℕ) : Scan :=
  match readInode (faults .live) v ino with
  | none => { s with inodeErrors := s.inodeErrors + 1 }
  | some inode =>
    if inode.isFree then s
    else
      scanInodeExtents v.sb true inode
        (if inode.type = ixfsSFile ∨ inode.type = ixfsSDir then s
          else { s with inodeErrors := s.inodeErrors + 1 })

/-- The blocks of a saved inode table; none for a slot that is not active or points outside. -/
def savedBlocks (sb : Superblock) (se : Snapshot) : List ℕ :=
  if se.flags = 0 ∨ se.rootBlock < sb.dataStart ∨ sb.totalBlocks ≤ se.rootBlock then []
  else List.range' se.rootBlock (min se.inodeBlocks (sb.totalBlocks - se.rootBlock))

/-- A block of a saved table is in use, counted once. -/
def Scan.protect (s : Scan) (mb : ℕ) : Scan :=
  if Bitmap.test s.expected mb then s else s.mark mb

def savedInodes (v : Volume) (mb : ℕ) : List Inode :=
  (List.range ixfsInodesPerBlock).map fun k => decodeInode v.disk (4096 * mb + 128 * k)

def scanSaved (sb : Superblock) (s : Scan) (inode : Inode) : Scan :=
  if inode.isFree then s
  else { scanInodeExtents sb false inode s with inodeErrors := s.inodeErrors }

def scanSavedBlock (faults : ReadFaults) (v : Volume) (s : Scan) (mb : ℕ) : Scan :=
  if faults .saved mb then s else (savedInodes v mb).foldl (scanSaved v.sb) s

def scanSnapshot (faults : ReadFaults) (v : Volume) (s : Scan) (se : Snapshot) : Scan :=
  (savedBlocks v.sb se).foldl (scanSavedBlock faults v)
    ((savedBlocks v.sb se).foldl Scan.protect s)

/-- The snapshots pass 4 looks at. -/
def Volume.snapshotSlots (v : Volume) : List Snapshot :=
  if 0 < v.sb.snapshotCount then v.snapshots.take ixfsMaxSnapshots else []

/-- Passes 2 to 4. -/
def scanVolume (faults : ReadFaults) (v : Volume) : Scan :=
  v.snapshotSlots.foldl (scanSnapshot faults v)
    ((inodeNumbers v.sb).foldl (scanLive faults v) (markMetadata v.sb))

/-! ### Pass 5: the directory walk -/

/-- The walk: the inodes met are `visited`, those of `queue` are still to be read, and `tail`
counts all that were queued. -/
structure Walk where
  vol : Volume
  visited : ByteMem
  queue : List ℕ
  tail : ℕ
  badDirents : ℕ
  repaired : ℕ
  failed : Bool

/-- The walk inside a directory block: the block in memory and the entries cleared in it. -/
structure DirScan where
  buf : ByteMem
  repairs : ℕ
  walk : Walk

/-- An entry that points nowhere. -/
def DirScan.bad (fix : Bool) (s : DirScan) (e : ℕ) : DirScan :=
  { buf := if fix then writeLE s.buf (256 * e) 4 0 else s.buf
    repairs := if fix then s.repairs + 1 else s.repairs
    walk := { s.walk with badDirents := s.walk.badDirents + 1 } }

/-- The inode `tino` is met; a directory is queued the first time. -/
def Walk.visit (w : Walk) (tino : ℕ) (tnode : Inode) : Walk :=
  if Bitmap.test w.visited tino then w
  else if tnode.isDir && w.tail < w.vol.sb.totalInodes then
    { w with
      visited := Bitmap.set w.visited tino, queue := w.queue ++ [tino], tail := w.tail + 1 }
  else { w with visited := Bitmap.set w.visited tino }

/-- The inode an entry leads to. -/
def targetInode (faults : ReadFaults) (v : Volume) (tino : ℕ) : Option Inode :=
  if tino < ixfsRootInode ∨ v.sb.totalInodes ≤ tino then none
  else (readInode (faults .target) v tino).filter fun tnode => !tnode.isFree

/-- Entry `e` of the block. -/
def scanEntry (faults : ReadFaults) (fix : Bool) (s : DirScan) (e : ℕ) : DirScan :=
  let tino := readLE s.buf (256 * e) 4
  if tino = 0 then s
  else
    match targetInode faults s.walk.vol tino with
    | none => s.bad fix e
    | some tnode => { s with walk := s.walk.visit tino tnode }

/-- Block `b` of the directory. The walk stops at the first failure, so that every repair is
made by a walk that has not failed. -/
def walkBlock (faults : ReadFaults) (fix : Bool) (dinode : Inode) (w : Walk) (b : ℕ) : Walk :=
  let dblk := getBlock dinode b
  if w.failed || dblk = 0 then w
  else if dblk < w.vol.sb.dataStart ∨ w.vol.sb.totalBlocks ≤ dblk ∨ faults .entries dblk then
    { w with failed := true }
  else
    let s := (List.range ixfsDirentsPerBlock).foldl (scanEntry faults fix)
      ⟨readBuf w.vol.disk dblk, 0, w⟩
    if 0 < s.repairs then
      { s.walk with
        vol := s.walk.vol.diskWrite dblk s.buf, repaired := s.walk.repaired + s.repairs }
    else s.walk

def sizeBlocks (i : Inode) : ℕ := (i.size + 4095) % 2 ^ 64 / 4096 % 2 ^ 32

def walkDir (faults : ReadFaults) (fix : Bool) (w : Walk) (ino : ℕ) : Walk :=
  match readInode (faults .directory) w.vol ino with
  | none => { w with failed := true }
  | some dinode =>
    if dinode.isDir then
      (List.range (min (sizeBlocks dinode) dinode.blocks)).foldl (walkBlock faults fix dinode) w
    else w

/-- The loop over the queue. Every turn takes an inode off it, and no more than `total_inodes`
are ever put on it. -/
def walkLoop (faults : ReadFaults) (fix : Bool) : ℕ → Walk → Walk
  | 0, w => w
  | n + 1, w =>
    match w.queue with
    | [] => w
    | ino :: queue =>
      let w := walkDir faults fix { w with queue := queue } ino
      if w.failed then w else walkLoop faults fix n w

/-- Pass 5. -/
def walkTree (faults : ReadFaults) (fix : Bool) (v : Volume) : Walk :=
  let start : Walk := ⟨v, fun _ => 0, [], 0, 0, 0, false⟩
  walkLoop faults fix v.sb.totalInodes
    (if ixfsRootInode < v.sb.totalInodes then
      { start with
        visited := Bitmap.set start.visited ixfsRootInode, queue := [ixfsRootInode], tail := 1 }
    else start)

/-! ### Pass 6: orphans -/

structure Orphans where
  vol : Volume
  expected : ByteMem
  refc : ℕ → ℕ
  orphans : ℕ
  freed : ℕ
  repairFailed : Bool

def scannedIndices (sb : Superblock) (i : Inode) : List ℕ :=
  List.range (min i.blocks sb.totalBlocks)

/-- A block of the inode has another owner. -/
def isShared (sb : Superblock) (refc : ℕ → ℕ) (i : Inode) : Bool :=
  (scannedIndices sb i).any fun idx =>
    let blk := getBlock i idx
    blk ≠ 0 && blk < sb.totalBlocks && 1 < refc blk

/-- The block at `idx` of a freed inode is given up. -/
def release (sb : Superblock) (i : Inode) (s : Orphans) (idx : ℕ) : Orphans :=
  let blk := getBlock i idx
  if blk = 0 ∨ sb.totalBlocks ≤ blk ∨ blk < sb.dataStart then s
  else
    { s with
      expected := if Bitmap.test s.expected blk then Bitmap.clear s.expected blk else s.expected
      refc := if 0 < s.refc blk then update s.refc blk (s.refc blk - 1) else s.refc }

/-- The orphan is freed: first the inode, then its blocks. -/
def freeOrphan (faults : ReadFaults) (i : Inode) (s : Orphans) (ino : ℕ) : Orphans :=
  match writeInode (faults .orphan) s.vol ino fun _ => 0 with
  | none => { s with repairFailed := true }
  | some vol =>
    (scannedIndices s.vol.sb i).foldl (release s.vol.sb i)
      { s with vol := vol, freed := s.freed + 1 }

/-- Pass 6 at one inode; `repair` is set in a fixing run with a complete walk. -/
def orphanStep (faults : ReadFaults) (repair : Bool) (visited : ByteMem) (s : Orphans) (ino : ℕ) :
    Orphans :=
  if ino = ixfsRootInode ∨ Bitmap.test visited ino then s
  else
    match readInode (faults .orphan) s.vol ino with
    | none => s
    | some i =>
      if i.isFree then s
      else
        let s := { s with orphans := s.orphans + 1 }
        if repair && !isShared s.vol.sb s.refc i then freeOrphan faults i s ino else s

/-- Pass 6. -/
def freeOrphans (faults : ReadFaults) (repair : Bool) (w : Walk) (s : Scan) : Orphans :=
  (inodeNumbers w.vol.sb).foldl (orphanStep faults repair w.visited)
    ⟨w.vol, s.expected, s.refc, 0, 0, false⟩

/-! ### Passes 7 to 9: bitmap, free counts and reference counts -/

/-- One bit of `ixfs_fsck_reconcile_bitmap`. -/
def reconcileBit (expected : ByteMem) (fix : Bool) (s : ByteMem × ℕ) (i : ℕ) : ByteMem × ℕ :=
  if Bitmap.test expected i = Bitmap.test s.1 i then s
  else
    (if fix then if Bitmap.test expected i then Bitmap.set s.1 i else Bitmap.clear s.1 i else s.1,
      s.2 + 1)

/-- `ixfs_fsck_reconcile_bitmap`: the bitmap after it and the number of differences. -/
def reconcileBitmap (expected actual : ByteMem) (nbits : ℕ) (fix : Bool) : ByteMem × ℕ :=
  (List.range nbits).foldl (reconcileBit expected fix) (actual, 0)

/-- Pass 7, with the number of differences. -/
def repairBitmap (fix : Bool) (v : Volume) (expected : ByteMem) : Volume × ℕ :=
  let r := reconcileBitmap expected v.bitmap v.sb.totalBlocks fix
  (if fix && 0 < r.2 then flushBitmap { v with bitmap := r.1 } else { v with bitmap := r.1 }, r.2)

/-- The blocks that are not in use. -/
def expectedFree (sb : Superblock) (expected : ByteMem) : ℕ :=
  sb.totalBlocks - (List.range sb.totalBlocks).countP fun b => Bitmap.test expected b

def countFreeInodes (faults : ReadFaults) (v : Volume) : ℕ :=
  (List.range v.sb.totalInodes).countP fun ino =>
    ino = 0 || (readInode (faults .count) v ino).any fun i => i.isFree

/-- Pass 8, with the number of errors. -/
def repairCounts (faults : ReadFaults) (fix : Bool) (v : Volume) (expected : ByteMem) :
    Volume × ℕ :=
  let blocks := expectedFree v.sb expected
  let badBlocks : Bool := v.sb.freeBlocks ≠ blocks
  let sb := if badBlocks && fix then v.sb.setFreeBlocks blocks else v.sb
  let inodes := countFreeInodes faults v
  let badInodes : Bool := v.sb.freeInodes ≠ inodes
  let sb := if badInodes && fix then sb.setFreeInodes inodes else sb
  (if fix && (badBlocks || badInodes) then flushSuperblock { v with sb := sb }
    else { v with sb := sb },
    badBlocks.toNat + badInodes.toNat)

def countedBlocks (sb : Superblock) (t : Refcounts) : List ℕ :=
  List.range' sb.dataStart (min sb.totalBlocks t.bytes - sb.dataStart)

def refcountMismatches (sb : Superblock) (refc : ℕ → ℕ) (t : Refcounts) : ℕ :=
  (countedBlocks sb t).countP fun b => refc b ≠ 0 && (t.table b).toNat ≠ refc b

def rebuildRefcounts (sb : Superblock) (refc : ℕ → ℕ) (t : Refcounts) : Refcounts :=
  { t with
    table := (countedBlocks sb t).foldl (fun m b =>
      if 0 < refc b then update m b (UInt8.ofNat (refc b)) else m) t.table }

/-- Pass 9, with the number of differences. -/
def repairRefcounts (repair : Bool) (v : Volume) (refc : ℕ → ℕ) : Volume × ℕ :=
  match v.refcounts with
  | none => (v, 0)
  | some t =>
    let mism := refcountMismatches v.sb refc t
    if repair && 0 < mism then
      let t := rebuildRefcounts v.sb refc t
      (refcountFlush { v with refcounts := some t } t, mism)
    else (v, mism)

/-! ### Pass 10: the journal -/

/-- Block `blk` of the device. -/
def Volume.block (v : Volume) (blk : ℕ) : Block := fun k => v.disk (4096 * blk + k)

def Volume.setBlocks (v : Volume) (dev : UInt32 → Block) : Volume :=
  { v with
    disk := fun x =>
      if x / 4096 < 2 ^ 32 then dev (UInt32.ofNat (x / 4096)) ⟨x % 4096, Nat.mod_lt x (by decide)⟩
      else v.disk x }

/-- The volume as its journal sees it, which goes past the cache. -/
def Volume.journaled (v : Volume) : Journaled where
  vol := ixfsCacheInit none fun blk => v.block blk.toNat
  journalStart := UInt32.ofNat v.sb.journalStart
  journalBlocks := UInt32.ofNat v.sb.journalBlocks
  journalSeq := 0
  jHead := 1
  txn := noTxn 0

/-- The entry in a slot. -/
def Journaled.entry (j : Journaled) (slot : UInt32) : Block := j.vol.dev (j.journalStart + slot)

/-- `ixfs_fsck_journal_entry_valid`. -/
def journalEntryValid (totalBlocks : ℕ) (je : Block) : Bool :=
  if field je 4 = jeCommit then true
  else if field je 4 ≠ jeData then false
  else if field je 8 = 0 ∨ totalBlocks ≤ (field je 8).toNat then false
  else ixfsJournalChecksum (homeBlock je) = field je 12

/-- The errors among the entries from `slot` to the head. -/
def journalErrors (faults : ReadFaults) (totalBlocks : ℕ) (j : Journaled) : ℕ → UInt32 → ℕ
  | 0, _ => 0
  | guard + 1, slot =>
    if slot = j.head then 0
    else if faults .journal (j.journalStart + slot).toNat then 1
    else
      (if journalEntryValid totalBlocks (j.entry slot) then 0 else 1) +
        journalErrors faults totalBlocks j guard (slotAfter j.journalBlocks slot)

/-- The reads of a replay; its writes go well. -/
def replayOutcome (faults : ReadFaults) (j : Journaled) : RecoverOutcome where
  memory := true
  headerFails := faults .replay j.journalStart.toNat
  replay turn :=
    ⟨faults .replay (j.journalStart + (slotAfter j.journalBlocks)^[turn] j.tail).toNat, false, none⟩
  resetFault := none

/-- `ixfs_journal_recover`, `none` when it fails. With head and tail inside the journal its scan
is at its end before the slots are used up. -/
def journalRecover (faults : ReadFaults) (v : Volume) : Option Volume :=
  (ixfsJournalRecover v.journaled (replayOutcome faults v.journaled) v.sb.journalBlocks).bind
    fun r => if r.ret = 0 then some (v.setBlocks r.vol.vol.dev) else none

/-- The journal is given up: its header has nothing to replay. -/
def journalDiscard (v : Volume) : Volume :=
  v.setBlocks (resetJournal v.journaled none v.journaled.vol.dev).vol.dev

def journalFound (faults : ReadFaults) (v : Volume) : Prop :=
  0 < v.sb.journalBlocks ∧ v.sb.journalStart + v.sb.journalBlocks ≤ v.sb.totalBlocks ∧
    faults .journal v.sb.journalStart = false ∧ v.journaled.magic = journalMagic

instance (faults : ReadFaults) (v : Volume) : Decidable (journalFound faults v) :=
  inferInstanceAs (Decidable (_ ∧ _))

/-- Head and tail are slots of the journal. -/
def Journaled.InRange (j : Journaled) : Prop :=
  j.head < j.journalBlocks ∧ j.tail < j.journalBlocks ∧ j.head ≠ 0 ∧ j.tail ≠ 0

instance (j : Journaled) : Decidable j.InRange := inferInstanceAs (Decidable (_ ∧ _))

structure JournalPass where
  vol : Volume
  errors : ℕ
  repairFailed : Bool

def checkJournal (faults : ReadFaults) (fix : Bool) (v : Volume) : JournalPass :=
  if ¬ journalFound faults v then ⟨v, 0, false⟩
  else if ¬ v.journaled.InRange then ⟨v, 1, false⟩
  else
    let errors :=
      journalErrors faults v.sb.totalBlocks v.journaled v.sb.journalBlocks v.journaled.tail
    if !fix then ⟨v, errors, false⟩
    else if errors = 0 then
      match journalRecover faults v with
      | none => ⟨v, errors, true⟩
      | some w => ⟨w, errors, false⟩
    else ⟨journalDiscard v, errors, false⟩

/-! ### Pass 11 and the result -/

/-- `ixfs_scrub`, `none` without a checksum table. -/
def scrub (faults : ReadFaults) (v : Volume) : Option ℕ :=
  v.checksums.map fun t => (List.range v.sb.totalBlocks).countP fun i =>
    v.sb.dataStart ≤ i && Bitmap.test v.bitmap i && t.table i ≠ 0 && !faults .scrub i &&
      crc32c (bytes v.disk (4096 * i) 4096) ≠ t.table i

/-- `struct ixfs_fsck_report`, with the flags of the run. -/
structure Report where
  superblockErrors : ℕ
  inodeErrors : ℕ
  bitmapMismatches : ℕ
  freeCountErrors : ℕ
  orphanInodes : ℕ
  badDirents : ℕ
  crossLinks : ℕ
  refcountMismatches : ℕ
  journalErrors : ℕ
  dataChecksumErrors : ℕ
  inodesRepaired : ℕ
  direntsRepaired : ℕ
  traversalFailed : Bool
  incomplete : Bool
  repairFailed : Bool

def Report.errors (r : Report) : ℕ :=
  (r.superblockErrors + r.inodeErrors + r.bitmapMismatches + r.freeCountErrors + r.orphanInodes +
    r.badDirents + r.crossLinks + r.refcountMismatches + r.journalErrors +
      r.dataChecksumErrors) % 2 ^ 32

def Report.unrepaired (r : Report) : ℕ :=
  (r.superblockErrors + r.inodeErrors + r.crossLinks + r.dataChecksumErrors +
    (r.orphanInodes - r.inodesRepaired) + (r.badDirents - r.direntsRepaired)) % 2 ^ 32

def Report.result (fix : Bool) (r : Report) : ℤ :=
  if r.traversalFailed || r.incomplete || (fix && r.repairFailed) then -1
  else if !fix && 0 < r.errors then -1
  else if fix && 0 < r.unrepaired then -1
  else 0

def fsckPasses (faults : ReadFaults) (fix : Bool) (v : Volume) : Volume × Report :=
  let scan := scanVolume faults v
  let walk := walkTree faults fix v
  let orph := freeOrphans faults (fix && !walk.failed) walk scan
  let bm := repairBitmap fix orph.vol orph.expected
  let cnt := repairCounts faults fix bm.1 orph.expected
  let rc := repairRefcounts (fix && scan.crossLinks % 2 ^ 32 = 0 && !walk.failed) cnt.1 orph.refc
  let jr := checkJournal faults fix rc.1
  let sums := if jr.vol.active then scrub faults jr.vol else some 0
  (jr.vol,
    { superblockErrors := superblockErrors faults v
      inodeErrors := scan.inodeErrors
      bitmapMismatches := bm.2
      freeCountErrors := cnt.2
      orphanInodes := orph.orphans
      badDirents := walk.badDirents
      crossLinks := scan.crossLinks
      refcountMismatches := rc.2
      journalErrors := jr.errors
      dataChecksumErrors := sums.getD 0
      inodesRepaired := orph.freed
      direntsRepaired := walk.repaired
      traversalFailed := walk.failed
      incomplete := sums.isNone
      repairFailed := orph.repairFailed || jr.repairFailed })

/-- `ixfs_fsck_volume`: the volume after it and the value returned. A read-only volume is only
checked. -/
def fsckVolume (faults : ReadFaults) (v : Volume) (fix : Bool) : Volume × ℤ :=
  if Plausible faults v then
    let r := fsckPasses faults (fix && !v.readOnly) v
    (r.1, r.2.result (fix && !v.readOnly))
  else (v, -1)

end ImpossibleOs.Ixfs
