import ImpossibleOs.Lib.Bitmap

/-!
A mounted IXFS volume (`include/kernel/fs/ixfs.h`, `src/kernel/fs/ixfs/ixfs_internal.h`).

The device is byte memory with block `b` at `4096 * b`, read at the offsets of
the packed structures. The buffer cache has a model of its own (`Ixfs.Cache`):
here a block handed to the cache is on the device. A read can fail; writes and
memory allocation succeed, and no transaction is open.
-/

namespace ImpossibleOs.Ixfs

open ByteMem

def ixfsMagic : ℕ := 0x49584653
def ixfsVersion : ℕ := 2
def ixfsBlockSize : ℕ := 4096
def ixfsRootInode : ℕ := 1
def ixfsInlineExtents : ℕ := 4
def ixfsInodesPerBlock : ℕ := 32
def ixfsDirentsPerBlock : ℕ := 16
def ixfsMaxSnapshots : ℕ := 8
def ixfsSnapshotBlocks : ℕ := 1
def ixfsRefcountBlocks : ℕ := 2
/-- `IXFS_MAX_BLOCK_GROUPS * IXFS_BLOCKS_PER_GROUP`. -/
def ixfsMaxBlocks : ℕ := 256 * 32768

def crcBit (c : ℕ) : ℕ := if c % 2 = 1 then (c >>> 1) ^^^ 0x82F63B78 else c >>> 1

def crcByte (c : ℕ) (b : UInt8) : ℕ := crcBit^[8] (c ^^^ b.toNat)

/-- `ixfs_crc32c`, that is `kcrc32c` with each entry of its table computed. -/
def crc32c (data : List UInt8) : ℕ := (data.foldl crcByte 0xFFFFFFFF ^^^ 0xFFFFFFFF) % 2 ^ 32

-- the test vector of `test_klibs.c`
example : crc32c [0x31, 0x32, 0x33, 0x34, 0x35, 0x36, 0x37, 0x38, 0x39] = 0xE3069283 := by
  decide +kernel

theorem crc32c_lt (data : List UInt8) : crc32c data < 2 ^ 32 := Nat.mod_lt _ (by norm_num)

/-! ### The superblock -/

/-- `struct ixfs_superblock`, 512 bytes. -/
abbrev Superblock := ByteMem

namespace Superblock

variable (sb : Superblock)

def magic : ℕ := readLE sb 0 4
def version : ℕ := readLE sb 4 4
def blockSize : ℕ := readLE sb 8 4
def totalBlocks : ℕ := readLE sb 12 8
def freeBlocks : ℕ := readLE sb 20 8
def totalInodes : ℕ := readLE sb 28 4
def freeInodes : ℕ := readLE sb 32 4
def bitmapStart : ℕ := readLE sb 36 4
def bitmapBlocks : ℕ := readLE sb 40 4
def inodeStart : ℕ := readLE sb 44 4
def inodeBlocks : ℕ := readLE sb 48 4
def dataStart : ℕ := readLE sb 52 4
def rootInode : ℕ := readLE sb 56 4
def journalStart : ℕ := readLE sb 92 4
def journalBlocks : ℕ := readLE sb 96 4
def refcountStart : ℕ := readLE sb 104 4
def refcountBlocks : ℕ := readLE sb 108 4
def snapshotStart : ℕ := readLE sb 112 4
def snapshotCount : ℕ := readLE sb 116 4
def checksumStart : ℕ := readLE sb 120 4
def checksumBlocks : ℕ := readLE sb 124 4
def checksum : ℕ := readLE sb 128 4

def setFreeBlocks (n : ℕ) : Superblock := writeLE sb 20 8 n
def setFreeInodes (n : ℕ) : Superblock := writeLE sb 32 4 n

def withChecksum : Superblock := writeLE sb 128 4 (crc32c (bytes sb 0 112))

end Superblock

/-! ### The volume -/

structure Snapshot where
  rootBlock : ℕ
  inodeBlocks : ℕ
  flags : ℕ

/-- `refcount_table` with `refcount_bytes`. -/
structure Refcounts where
  bytes : ℕ
  table : ByteMem

/-- `checksum_table` with `checksum_count`. -/
structure Checksums where
  count : ℕ
  table : ℕ → ℕ

/-- `struct ixfs_volume`. `active` says that it is the one of `ixfs_get_active_volume`, and
`deviceBlocks` is the size of its device in blocks, 0 without a device. -/
structure Volume where
  sb : Superblock
  disk : ByteMem
  bitmap : ByteMem
  bitmapBytes : ℕ
  refcounts : Option Refcounts
  checksums : Option Checksums
  snapshots : List Snapshot
  readOnly : Bool
  active : Bool
  deviceBlocks : ℕ

def readBuf (disk : ByteMem) (block : ℕ) : ByteMem := fun x => disk (4096 * block + x)

def writeBuf (disk : ByteMem) (block : ℕ) (buf : ByteMem) : ByteMem := fun x =>
  if x / 4096 = block then buf (x % 4096) else disk x

def Volume.diskWrite (v : Volume) (block : ℕ) (buf : ByteMem) : Volume :=
  { v with disk := writeBuf v.disk block buf }

def Checksums.update (t : Checksums) (block : ℕ) (buf : ByteMem) : Checksums :=
  if block < t.count then
    { t with table := Function.update t.table block (crc32c (bytes buf 0 4096)) }
  else t

def Volume.writeBlock (v : Volume) (block : ℕ) (buf : ByteMem) : Volume :=
  { v.diskWrite block buf with checksums := v.checksums.map fun t => t.update block buf }

/-! ### Inodes -/

structure Extent where
  start : ℕ
  count : ℕ
  deriving DecidableEq

/-- The fields of `struct ixfs_inode` that block lookup and checker read. -/
structure Inode where
  mode : ℕ
  links : ℕ
  size : ℕ
  blocks : ℕ
  extents : List Extent
  extentCount : ℕ
  extentFlags : ℕ
  deriving DecidableEq

/-- The inode stored at `a`. -/
def decodeInode (m : ByteMem) (a : ℕ) : Inode where
  mode := readLE m a 2
  links := readLE m (a + 2) 2
  size := readLE m (a + 8) 8
  blocks := readLE m (a + 16) 4
  extents := (List.range ixfsInlineExtents).map fun i =>
    ⟨readLE m (a + 32 + 12 * i) 8, readLE m (a + 32 + 12 * i + 8) 4⟩
  extentCount := readLE m (a + 80) 1
  extentFlags := readLE m (a + 81) 1

/-- `i_mode & IXFS_S_TYPEMASK`. -/
def Inode.type (i : Inode) : ℕ := i.mode &&& 0xF000

def ixfsSFile : ℕ := 0x8000
def ixfsSDir : ℕ := 0x4000

def Inode.isFree (i : Inode) : Bool := i.links == 0 && i.type == 0

def Inode.isDir (i : Inode) : Bool := i.type == ixfsSDir

def inoInTable (sb : Superblock) (ino : ℕ) : Bool :=
  decide (ixfsRootInode ≤ ino ∧ ino < sb.totalInodes ∧ ino < sb.inodeBlocks * ixfsInodesPerBlock ∧
    sb.inodeStart + ino / ixfsInodesPerBlock < 0xFFFFFFFF)

def inodeBlock (sb : Superblock) (ino : ℕ) : ℕ := sb.inodeStart + ino / ixfsInodesPerBlock

def inodeAddr (sb : Superblock) (ino : ℕ) : ℕ :=
  4096 * inodeBlock sb ino + 128 * (ino % ixfsInodesPerBlock)

def Volume.inode (v : Volume) (ino : ℕ) : Inode := decodeInode v.disk (inodeAddr v.sb ino)

/-- `ixfs_read_inode`, where the blocks of `fails` cannot be read. -/
def readInode (fails : ℕ → Bool) (v : Volume) (ino : ℕ) : Option Inode :=
  if inoInTable v.sb ino && !fails (inodeBlock v.sb ino) then some (v.inode ino) else none

/-- `ixfs_write_inode` of the 128 bytes `src`. -/
def writeInode (fails : ℕ → Bool) (v : Volume) (ino : ℕ) (src : ByteMem) : Option Volume :=
  if inoInTable v.sb ino && !fails (inodeBlock v.sb ino) then
    let offset := 128 * (ino % ixfsInodesPerBlock)
    let tmp := readBuf v.disk (inodeBlock v.sb ino)
    some (v.writeBlock (inodeBlock v.sb ino) fun x =>
      if offset ≤ x ∧ x < offset + 128 then src (x - offset) else tmp x)
  else none

/-- The loop of `ixfs_get_block`, with `offset` blocks of the file before the extent. -/
def getBlockLoop (index : ℕ) : ℕ → List Extent → ℕ
  | _, [] => 0
  | offset, e :: es =>
    if e.count = 0 then getBlockLoop index offset es
    else if index < (offset + e.count) % 2 ^ 32 then
      -- an extent that starts at block 0 is a hole
      if e.start = 0 then 0 else (e.start + (index + 2 ^ 32 - offset) % 2 ^ 32) % 2 ^ 32
    else getBlockLoop index ((offset + e.count) % 2 ^ 32) es

/-- `ixfs_get_block`; 0 is a hole or an unmapped index. -/
def getBlock (i : Inode) (index : ℕ) : ℕ :=
  if i.extentFlags &&& 0x02 ≠ 0 then 0
  else getBlockLoop index 0 (i.extents.take (min i.extentCount ixfsInlineExtents))

def flushBitmap (v : Volume) : Volume :=
  (List.range v.sb.bitmapBlocks).foldl (fun w i =>
    let offset := i * 4096 % 2 ^ 32
    let remaining := min ((v.bitmapBytes + 2 ^ 32 - offset) % 2 ^ 32) 4096
    w.writeBlock (v.sb.bitmapStart + i) fun j =>
      if j < remaining then v.bitmap (offset + j) else 0) v

def flushSuperblock (v : Volume) : Volume :=
  { v with sb := v.sb.withChecksum }.writeBlock 0
    fun x => if x < 512 then v.sb.withChecksum x else 0

def refcountFlush (v : Volume) (t : Refcounts) : Volume :=
  (List.range ixfsRefcountBlocks).foldl (fun w i =>
    w.writeBlock (v.sb.refcountStart + i) fun j =>
      if i * 4096 + j < t.bytes then t.table (i * 4096 + j) else 0) v

end ImpossibleOs.Ixfs
