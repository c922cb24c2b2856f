import ImpossibleOs.Ixfs.CowMap

/-!
Reading, writing and truncating a file (`src/kernel/fs/ixfs/ixfs_ops.c`).

A small file keeps its data in its inode, in the 48 bytes of the extents. Every
operation lists the copies it makes of inline data and the sums it makes of an
offset and a size, so that a copy outside its array can be seen; what it
overwrites is not modelled. What `kmalloc` and the device do is an argument.
-/

namespace ImpossibleOs.Ixfs

open ByteMem

def ixfsInlineMax : ℕ := 48

/-- An open file: its volume, the number of its inode, and the inode. -/
structure OpenFile where
  g : Grouped
  ino : ℕ
  inode : ByteMem

/-- What goes wrong in a call: the blocks that cannot be read, the buffer of a promotion, the
buffer of the call, and the buffers of copies on write. -/
structure FileIo where
  fails : ℕ → Bool
  promoteMemory : Bool
  memory : Bool
  copyMemory : ℕ → Bool

/-- The copies and the arithmetic of the inline data. -/
inductive Access where
  /-- Bytes of the inline area. -/
  | area (start len : ℕ)
  /-- Bytes of the saved inline area. -/
  | saved (len : ℕ)
  /-- Bytes of the block that the inline data moves to. -/
  | block (start len : ℕ)
  /-- `offset + size`. -/
  | sum (offset size : ℕ)
  /-- `IXFS_BLOCK_SIZE - offset`. -/
  | room (offset : ℕ)
  deriving DecidableEq

/-- The copy is inside its array, or the arithmetic does not wrap. -/
def Access.Ok : Access → Prop
  | .area start len => len = 0 ∨ start + len ≤ ixfsInlineMax
  | .saved len => len ≤ ixfsInlineMax
  | .block start len => len = 0 ∨ start + len ≤ ixfsBlockSize
  | .sum offset size => offset + size < 2 ^ 32
  | .room offset => offset ≤ ixfsBlockSize

/-! ### Fields of the inode -/

def inodeSize (m : ByteMem) : ℕ := readLE m 8 8

/-- `i_extent_flags & IXFS_INLINE`. -/
def isInline (m : ByteMem) : Prop := readLE m 81 1 &&& ixfsInline ≠ 0

instance (m : ByteMem) : Decidable (isInline m) := inferInstanceAs (Decidable (_ ≠ _))

def setSize (m : ByteMem) (n : ℕ) : ByteMem := writeLE m 8 8 n

def setBlockCount (m : ByteMem) (n : ℕ) : ByteMem := writeLE m 16 4 n

def setExtentCount (m : ByteMem) (n : ℕ) : ByteMem := writeLE m 80 1 n

/-- `i_extent_flags &= ~IXFS_INLINE`. -/
def clearInline (m : ByteMem) : ByteMem := writeLE m 81 1 (readLE m 81 1 &&& 0xFD)

def setTimes (m : ByteMem) (now : ℕ) : ByteMem := writeLE (writeLE m 24 4 now) 28 4 now

def setExtentAt (m : ByteMem) (slot : ℕ) (e : Extent) : ByteMem :=
  writeLE (writeLE m (extentAddr slot) 8 e.start) (extentAddr slot + 8) 4 e.count

def putExtents (m : ByteMem) (es : List Extent) : ByteMem :=
  (List.range ixfsInlineExtents).foldl (fun m slot => setExtentAt m slot (es.getD slot ⟨0, 0⟩)) m

def putInline (m : ByteMem) (start : ℕ) (data : List UInt8) : ByteMem :=
  storeBytes m (extentAddr 0 + start) data

def inlineBytes (m : ByteMem) (start len : ℕ) : List UInt8 := bytes m (extentAddr 0 + start) len

/-- The extents and their number. -/
def putMap (m : ByteMem) (i : Inode) : ByteMem :=
  setExtentCount (putExtents m i.extents) i.extentCount

/-- The inode after its file has given up its inline data. -/
def leaveInline (m : ByteMem) : ByteMem :=
  putInline (setBlockCount (setSize (setExtentCount (clearInline m) 0) 0) 0) 0
    (List.replicate ixfsInlineMax 0)

/-- A piece of a range of bytes that lies in one block: the index of the block, where in the
block it begins, and its length. -/
structure Chunk where
  index : ℕ
  offset : ℕ
  len : ℕ

/-- The pieces of the `size` bytes from `pos` on, at most `fuel` of them. -/
def chunks : (fuel pos size : ℕ) → List Chunk
  | 0, _, _ => []
  | fuel + 1, pos, size =>
    if size = 0 then []
    else
      let len := min (ixfsBlockSize - pos % ixfsBlockSize) size
      ⟨pos / ixfsBlockSize, pos % ixfsBlockSize, len⟩ :: chunks fuel (pos + len) (size - len)

/-- Enough turns for all of the bytes. -/
def allChunks (pos size : ℕ) : List Chunk := chunks (size / ixfsBlockSize + 2) pos size

/-- The bytes of the file in one block; `none` when the block cannot be read. -/
def readChunk (fails : ℕ → Bool) (v : Volume) (i : Inode) (c : Chunk) : Option (List UInt8) :=
  let block := getBlock i c.index
  if block = 0 then some (List.replicate c.len 0)
  else if fails block then none
  else some (bytes v.disk (4096 * block + c.offset) c.len)

/-- The loop of `ixfs_file_read`. -/
def readLoop (fails : ℕ → Bool) (v : Volume) (i : Inode) : List Chunk → List UInt8
  | [] => []
  | c :: cs =>
    match readChunk fails v i c with
    | none => []
    | some data => data ++ readLoop fails v i cs

def OpenFile.store (f : OpenFile) (inode : ByteMem) : OpenFile :=
  { f with inode := inode, g := f.g.setVol (putInode f.g.vol f.ino inode) }

def setAccessTime (m : ByteMem) (now : ℕ) : ByteMem := writeLE m 28 4 now

/-- `ixfs_file_read`: the bytes read, `none` for -1, and the accesses. -/
def ixfsFileRead (io : FileIo) (now : ℕ) (f : OpenFile) (offset size : ℕ) :
    OpenFile × Option (List UInt8) × List Access :=
  let i := decodeInode f.inode 0
  if i.size ≤ offset then (f, some [], [])
  else
    let size' := if i.size < (offset + size) % 2 ^ 32 then (i.size - offset) % 2 ^ 32 else size
    if isInline f.inode then
      (f.store (setAccessTime f.inode now), some (inlineBytes f.inode offset size'),
        [.sum offset size, .area offset size'])
    else if io.memory then
      let data := readLoop io.fails f.g.vol i (allChunks offset size')
      (if data = [] then f else f.store (setAccessTime f.inode now), some data,
        [.sum offset size])
    else (f, none, [.sum offset size])

/-! ### Writing -/

/-- A hole in front of block `index`, if there is a slot left for its extent. -/
def insertHole (inode : ByteMem) (index : ℕ) : ByteMem :=
  let i := decodeInode inode 0
  if i.blocks < index ∧ i.extentCount < ixfsInlineExtents then
    setSize (setExtentCount (setExtentAt inode i.extentCount ⟨0, index - i.blocks⟩)
      (i.extentCount + 1)) (index * ixfsBlockSize % 2 ^ 32)
  else inode

def patchBuf (buf : ByteMem) (offset : ℕ) (data : List UInt8) : ByteMem :=
  storeBytes buf offset data

/-- The block that a chunk is written to, with what it holds; `none` when there is none, or when it
cannot be read. -/
def openBlock (io : FileIo) (g : Grouped) (inode : ByteMem) (index : ℕ) :
    Grouped × ByteMem × Option (ℕ × ByteMem) :=
  let i := decodeInode inode 0
  let block := getBlock i index
  if block = 0 then
    let r := addBlockToExtent g (insertHole inode index)
    (r.1, r.2.1, if r.2.2 = 0 then none else some (r.2.2, zeroBuf))
  else
    let r := cowBlock io.fails (io.copyMemory index) g i index block
    (r.1, putMap inode r.2.1,
      if io.fails r.2.2 then none else some (r.2.2, readBuf r.1.vol.disk r.2.2))

/-- The loop of `ixfs_file_write`: the volume, the inode and the number of bytes written. -/
def writeLoop (io : FileIo) (g : Grouped) (inode : ByteMem) :
    List Chunk → List UInt8 → Grouped × ByteMem × ℕ
  | [], _ => (g, inode, 0)
  | c :: cs, data =>
    match openBlock io g inode c.index with
    | (g, inode, none) => (g, inode, 0)
    | (g, inode, some (block, buf)) =>
      let g := g.setVol (g.vol.writeBlock block (patchBuf buf c.offset (data.take c.len)))
      let r := writeLoop io g inode cs (data.drop c.len)
      (r.1, r.2.1, c.len + r.2.2)

def OpenFile.flush (f : OpenFile) (g : Grouped) (inode : ByteMem) : OpenFile :=
  { f with inode := inode, g := g.setVol (flushDir g.vol f.ino inode) }

/-- The part of `ixfs_file_write` after the inline data, where `written` bytes are written. -/
def writeExtents (io : FileIo) (now : ℕ) (f : OpenFile) (offset written : ℕ) (data : List UInt8) :
    OpenFile × ℤ :=
  if io.memory then
    let r := writeLoop io f.g f.inode
      (allChunks ((offset + written) % 2 ^ 32) (data.length - written)) (data.drop written)
    let stop := (offset + (written + r.2.2)) % 2 ^ 32
    let inode := if inodeSize r.2.1 < stop then setSize r.2.1 stop else r.2.1
    (f.flush r.1 (setTimes inode now), (written + r.2.2 : ℕ))
  else (f, -1)

/-- `first_chunk`: the new bytes that go into the first block. -/
def firstChunk (offset size : ℕ) : ℕ := min ((ixfsBlockSize + 2 ^ 32 - offset) % 2 ^ 32) size

/-- A file of `oldSize` inline bytes in its first block, with the first new bytes. -/
def fillFirst (f : OpenFile) (r : Grouped × ByteMem × ℕ) (offset : ℕ) (data : List UInt8) :
    OpenFile :=
  let oldSize := inodeSize f.inode % 2 ^ 32
  let saved := inlineBytes f.inode 0 (min oldSize ixfsInlineMax)
  let buf := patchBuf (patchBuf zeroBuf 0 saved) offset data
  let stop := (offset + data.length) % 2 ^ 32
  ⟨r.1.setVol (r.1.vol.writeBlock r.2.2 buf), f.ino,
    setSize r.2.1 (if oldSize < stop then stop else oldSize)⟩

def promoteAccesses (oldSize offset first : ℕ) : List Access :=
  [.area 0 ixfsInlineMax, .saved oldSize, .block 0 oldSize, .room offset, .block offset first]

/-- The promotion of inline data to a block, with the rest of the write. -/
def promote (io : FileIo) (now : ℕ) (f : OpenFile) (offset : ℕ) (data : List UInt8) :
    OpenFile × ℤ × List Access :=
  let r := addBlockToExtent f.g (leaveInline f.inode)
  if r.2.2 = 0 ∨ io.promoteMemory = false then
    (⟨r.1, f.ino, r.2.1⟩, -1, [.area 0 ixfsInlineMax])
  else
    let first := firstChunk offset data.length
    let full := fillFirst f r offset (data.take first)
    let accesses := promoteAccesses (inodeSize f.inode % 2 ^ 32) offset first
    if data.length ≤ first then
      (full.flush full.g (setTimes full.inode now), (first : ℕ), accesses)
    else
      let rest := writeExtents io now full offset first data
      (rest.1, rest.2, accesses)

/-- `ixfs_file_write`: the result and the accesses. -/
def ixfsFileWrite (io : FileIo) (now : ℕ) (f : OpenFile) (offset : ℕ) (data : List UInt8) :
    OpenFile × ℤ × List Access :=
  if f.g.vol.readOnly then (f, -1, [])
  else if isInline f.inode then
    let stop := (offset + data.length) % 2 ^ 32
    if stop ≤ ixfsInlineMax then
      let inode := putInline f.inode offset data
      let inode := if inodeSize inode < stop then setSize inode stop else inode
      (f.store (setTimes inode now), (data.length : ℕ),
        [.sum offset data.length, .area offset data.length])
    else
      let r := promote io now f offset data
      (r.1, r.2.1, .sum offset data.length :: r.2.2)
  else
    let r := writeExtents io now f offset 0 data
    (r.1, r.2, [])

def ixfsFreeAllExtents (g : Grouped) (inode : ByteMem) : Grouped × ByteMem :=
  let i := decodeInode inode 0
  if isInline inode then (g, leaveInline inode)
  else
    (freeAllExtents g i, setBlockCount (setExtentCount
      ((List.range (clampedCount i)).foldl (fun m slot => setExtentAt m slot ⟨0, 0⟩) inode) 0) 0)

/-- The extents of the first `newBlocks` blocks, where `kept` blocks come before them. -/
def trimExtents (newBlocks : ℕ) : ℕ → List Extent → List Extent
  | _, [] => []
  | kept, e :: es =>
    if (kept + e.count) % 2 ^ 32 ≤ newBlocks then
      e :: trimExtents newBlocks ((kept + e.count) % 2 ^ 32) es
    else ⟨e.start, (newBlocks + 2 ^ 32 - kept) % 2 ^ 32⟩ :: es.map fun _ => ⟨0, 0⟩

/-- A file that becomes shorter, but not empty. -/
def shrinkFile (g : Grouped) (inode : ByteMem) (newSize : ℕ) : Grouped × ByteMem :=
  let i := decodeInode inode 0
  let newBlocks := (newSize + ixfsBlockSize - 1) % 2 ^ 32 / ixfsBlockSize
  let free := fun g blk => if getBlock i blk = 0 then g else freeBlock g (getBlock i blk)
  let es := trimExtents newBlocks 0 (i.extents.take (clampedCount i)) ++
    i.extents.drop (clampedCount i)
  ((List.range' newBlocks (i.blocks - newBlocks)).foldl free g,
    setBlockCount (setSize (putExtents inode es) newSize) newBlocks)

/-- The size changes, and a shorter file gives up blocks. -/
def resize (g : Grouped) (inode : ByteMem) (newSize : ℕ) : Grouped × ByteMem :=
  if newSize = 0 then
    let r := ixfsFreeAllExtents g inode
    (r.1, setSize r.2 0)
  else if newSize < inodeSize inode then shrinkFile g inode newSize
  else (g, setSize inode newSize)

/-- The part of `ixfs_vfs_truncate` after the search for the volume, on the volume `g`. -/
def truncateOn (now : ℕ) (g : Grouped) (ino : ℕ) (inode : ByteMem) (newSize : ℕ) :
    Grouped × ByteMem :=
  let r := resize g inode newSize
  let inode := writeLE r.2 24 4 now
  (r.1.setVol (putInode r.1.vol ino inode), inode)

end ImpossibleOs.Ixfs
