import Mathlib.Data.Fintype.Basic
import ImpossibleOs.Lib.Refine
import ImpossibleOs.Lib.WriteBack

/-!
The block cache of IXFS (`src/kernel/fs/ixfs/ixfs_core.c`).

A slot with block number `0xFFFFFFFF` is empty. As for the sector cache, the
outcome of a device operation is an argument: `none` when it went well, and
otherwise what it left in the block or in the buffer.

The checksum table is kept in memory and goes to its blocks at a flush, past
the cache. `ixfs_checksum_verify` only logs and is left out.
-/

namespace ImpossibleOs.Ixfs

open Function

abbrev Block := Fin 4096 → UInt8

def ixfsCacheSize : ℕ := 64

/-- The block number of an empty slot. -/
def unused : UInt32 := 0xFFFFFFFF

structure CacheEntry where
  block : UInt32
  data : Block
  dirty : Bool
  lruTick : UInt32

structure ChecksumTable where
  start : UInt32
  blocks : UInt32
  count : UInt32
  entries : UInt32 → UInt32

/-- The cached volume and the device below it. -/
structure IxfsVolume where
  cache : Fin ixfsCacheSize → CacheEntry
  cacheTick : UInt32
  checksum : Option ChecksumTable
  dev : UInt32 → Block

def IxfsVolume.setEntry (s : IxfsVolume) (i : Fin ixfsCacheSize) (e : CacheEntry) : IxfsVolume :=
  { s with cache := update s.cache i e }

/-- `ixfs_disk_write`; with a fault the block holds what the fault left. -/
def ixfsDiskWrite (dev : UInt32 → Block) (block : UInt32) (data : Block) (fault : Option Block) :
    UInt32 → Block :=
  update dev block (fault.getD data)

def ixfsCacheFind (s : IxfsVolume) (block : UInt32) : Option (Fin ixfsCacheSize) :=
  (List.finRange ixfsCacheSize).find? fun i => (s.cache i).block == block

/-- A hit makes its slot the most recent one. -/
def ixfsCacheTouch (s : IxfsVolume) (i : Fin ixfsCacheSize) : IxfsVolume :=
  { s.setEntry i { s.cache i with lruTick := s.cacheTick + 1 } with cacheTick := s.cacheTick + 1 }

/-- `ixfs_cache_lru`: an empty slot, or else the oldest one. -/
def ixfsCacheLru (s : IxfsVolume) : Fin ixfsCacheSize :=
  match (List.finRange ixfsCacheSize).find? fun i => (s.cache i).block == unused with
  | some i => i
  | none =>
    ((List.finRange ixfsCacheSize).foldl (fun (best : Fin ixfsCacheSize × UInt32) i =>
      if (s.cache i).lruTick < best.2 then (i, (s.cache i).lruTick) else best)
      (⟨0, by decide⟩, 0xFFFFFFFF)).1

/-- The slot holds a block that is not on the device yet. -/
def CacheEntry.pending (e : CacheEntry) : Bool := e.block != unused && e.dirty

/-! ### The checksum table -/

/-- `ixfs_checksum_update`, with `kcrc32c` as a parameter. -/
def ixfsChecksumUpdate (crc32c : Block → UInt32) (s : IxfsVolume) (block : UInt32)
    (data : Block) : IxfsVolume :=
  { s with
    checksum := s.checksum.map fun t =>
      if block < t.count then { t with entries := update t.entries block (crc32c data) }
      else t }

inductive TableWrite where
  | done
  | noMemory
  | failed (left : Block)

/-- A block of the table, 1024 little-endian entries of 32 bits. -/
def tableBlock (t : ChecksumTable) (bi : UInt32) : Block := fun k =>
  let entry := bi * 1024 + UInt32.ofNat (k / 4)
  if entry < t.count then (t.entries entry >>> UInt32.ofNat (8 * (k % 4))).toUInt8 else 0

def flushTableBlock (t : ChecksumTable) (outcome : ℕ → TableWrite) (dev : UInt32 → Block)
    (bi : ℕ) : Except (UInt32 → Block) (UInt32 → Block) :=
  let block := t.start + UInt32.ofNat bi
  match outcome bi with
  | .noMemory => .error dev
  | .done => .ok (ixfsDiskWrite dev block (tableBlock t (UInt32.ofNat bi)) none)
  | .failed left => .ok (ixfsDiskWrite dev block (tableBlock t (UInt32.ofNat bi)) (some left))

def ixfsChecksumFlush (t : ChecksumTable) (outcome : ℕ → TableWrite) (dev : UInt32 → Block) :
    UInt32 → Block :=
  if t.start = 0 then dev
  else
    match (List.range t.blocks.toNat).foldlM (flushTableBlock t outcome) dev with
    | .ok dev => dev
    | .error dev => dev

def flushSlot (faults : Fin ixfsCacheSize → Option Block) (st : IxfsVolume × Int)
    (i : Fin ixfsCacheSize) : IxfsVolume × Int :=
  let s := st.1
  let e := s.cache i
  if e.pending then
    match faults i with
    | some left => ({ s with dev := ixfsDiskWrite s.dev e.block e.data (some left) }, -1)
    | none =>
      ({ s.setEntry i { e with dirty := false } with
          dev := ixfsDiskWrite s.dev e.block e.data none }, st.2)
  else st

def flushSlots (s : IxfsVolume) (faults : Fin ixfsCacheSize → Option Block) : IxfsVolume × Int :=
  (List.finRange ixfsCacheSize).foldl (flushSlot faults) (s, 0)

def ixfsCacheFlush (s : IxfsVolume) (faults : Fin ixfsCacheSize → Option Block)
    (table : ℕ → TableWrite) : IxfsVolume × Int :=
  let (s, err) := flushSlots s faults
  match s.checksum with
  | none => (s, err)
  | some t => ({ s with dev := ixfsChecksumFlush t table s.dev }, err)

/-- `ixfs_read_block`, with the outcomes of the evictee's write and of the read. -/
def ixfsReadBlock (s : IxfsVolume) (block : UInt32) (evictFault readFault : Option Block) :
    IxfsVolume × Option Block :=
  match ixfsCacheFind s block with
  | some i => (ixfsCacheTouch s i, some (s.cache i).data)
  | none =>
    let i := ixfsCacheLru s
    let e := s.cache i
    let s := if e.pending then
        { s.setEntry i { e with dirty := false } with
          dev := ixfsDiskWrite s.dev e.block e.data evictFault }
      else s
    match readFault with
    | some left => (s.setEntry i { s.cache i with data := left }, none)
    | none =>
      ({ s.setEntry i ⟨block, s.dev block, false, s.cacheTick + 1⟩ with
          cacheTick := s.cacheTick + 1 }, some (s.dev block))

/-- `ixfs_write_block`, which always returns 0. -/
def ixfsWriteBlock (crc32c : Block → UInt32) (s : IxfsVolume) (block : UInt32) (data : Block)
    (evictFault : Option Block) : IxfsVolume :=
  let (s, i) := match ixfsCacheFind s block with
    | some i => (ixfsCacheTouch s i, i)
    | none =>
      let i := ixfsCacheLru s
      let e := s.cache i
      (if e.pending then { s with dev := ixfsDiskWrite s.dev e.block e.data evictFault } else s,
        i)
  ixfsChecksumUpdate crc32c
    { s.setEntry i ⟨block, data, true, s.cacheTick + 1⟩ with cacheTick := s.cacheTick + 1 }
    block data

inductive CacheCall where
  | readBlock (block : UInt32) (evictFault readFault : Option Block)
  | writeBlock (block : UInt32) (data : Block) (evictFault : Option Block)
  | flush (faults : Fin ixfsCacheSize → Option Block) (table : ℕ → TableWrite)

def ixfsExec (crc32c : Block → UInt32) (s : IxfsVolume) : CacheCall → IxfsVolume
  | .readBlock block evictFault readFault => (ixfsReadBlock s block evictFault readFault).1
  | .writeBlock block data evictFault => ixfsWriteBlock crc32c s block data evictFault
  | .flush faults table => (ixfsCacheFlush s faults table).1

/-- `ixfs_cache_init`, with a checksum table that may be loaded. -/
def ixfsCacheInit (checksum : Option ChecksumTable) (dev : UInt32 → Block) : IxfsVolume :=
  ⟨fun _ => ⟨unused, fun _ => 0, false, 0⟩, 0, checksum, dev⟩

/-! ### What the cache is for -/

/-- The block belongs to the checksum table, which a flush writes directly. -/
def TableHas (s : IxfsVolume) (block : UInt32) : Prop :=
  ∃ t, s.checksum = some t ∧ t.start ≠ 0 ∧ ∃ bi < t.blocks.toNat, block = t.start + UInt32.ofNat bi

open Classical in
/-- The contents after a call: what it accepted, over what was there. The blocks of the
checksum table have what the flush left on the device. -/
noncomputable def accept (s : IxfsVolume) (view : UInt32 → Block) : CacheCall → UInt32 → Block
  | .readBlock _ _ _ => view
  | .writeBlock block data _ => update view block data
  | .flush faults table => fun b =>
    if TableHas s b then (ixfsCacheFlush s faults table).1.dev b else view b

def Pending (s : IxfsVolume) (block : UInt32) (data : Block) : Prop :=
  ∃ i, (s.cache i).block = block ∧ (s.cache i).pending = true ∧ (s.cache i).data = data

/-- The data of the block is still to be written, or on the device and nothing else is cached. -/
def Stored (s : IxfsVolume) (block : UInt32) (data : Block) : Prop :=
  Pending s block data ∨
    s.dev block = data ∧ ∀ i, (s.cache i).block = block → (s.cache i).data = data

def CacheCall.writes : CacheCall → UInt32 → Prop
  | .writeBlock b _ _, block => b = block
  | _, _ => False

/-- A successful read returns the contents, and a call keeps the pending data of the blocks
that it does not write. -/
structure Answers (crc32c : Block → UInt32) (s : IxfsVolume) (view : UInt32 → Block)
    (call : CacheCall) : Prop where
  reads : ∀ block evictFault readFault, call = .readBlock block evictFault readFault →
    ∀ data, (ixfsReadBlock s block evictFault readFault).2 = some data → data = view block
  keeps : ∀ block data, Pending s block data → ¬ call.writes block →
    Stored (ixfsExec crc32c s call) block data

end ImpossibleOs.Ixfs
