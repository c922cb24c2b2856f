import ImpossibleOs.Ixfs.Alloc
import ImpossibleOs.Lib.HashIndex

/-!
Directories of an IXFS volume (`ixfs_ops.c`, `ixfs_inode.c`, `ixfs_extent.c`).

A directory is a file of 256-byte entries; a vnode keeps its inode and, for a
large directory, the hash index that the first lookup builds. The inode of a
vnode is the 128 bytes of `struct ixfs_inode`. Device I/O and memory allocation
succeed, and a stored name ends within its field.
-/

namespace ImpossibleOs.Ixfs

open ByteMem

def ixfsMaxName : ℕ := 252
def ixfsMaxOpenNodes : ℕ := 128
def ixfsHashBuckets : ℕ := 128
def ixfsHashThreshold : ℕ := 64
def ixfsHashChainEnd : ℕ := 0xFFFFFFFF
def ixfsPermFile : ℕ := 0x01B4
def ixfsPermDir : ℕ := 0x01ED
def ixfsInline : ℕ := 0x02

def lowerChar (c : UInt8) : UInt8 := if 0x41 ≤ c ∧ c ≤ 0x5A then c + 32 else c

/-- A name as both comparison and hash see it. -/
def foldName (name : List UInt8) : List UInt8 := name.map lowerChar

/-- `ixfs_strcmp`, nonzero for equal names. -/
def strcmp (a b : List UInt8) : Bool := foldName a = foldName b

def fnv1a (name : List UInt8) : ℕ :=
  name.foldl (fun hash c => (hash ^^^ (lowerChar c).toNat) * 0x01000193 % 2 ^ 32) 0x811C9DC5

def hashBucket (name : List UInt8) : ℕ := fnv1a name % ixfsHashBuckets

/-! ### Entries -/

/-- `struct ixfs_vnode`. -/
structure Vnode where
  ino : ℕ
  inode : ByteMem
  dirHash : Option HashIndex.Index

/-- A volume with the vnodes in use, the first `vnode_count` of the table. -/
structure Mount where
  g : Grouped
  vnodes : List Vnode

def Vnode.node (v : Vnode) : Inode := decodeInode v.inode 0

/-- `total_entries` of a directory, a `uint32_t`. -/
def totalEntries (i : Inode) : ℕ := i.size / 256 % 2 ^ 32

/-- The block of entry `k`, 0 if there is none. -/
def entryBlock (i : Inode) (k : ℕ) : ℕ := getBlock i (k * 256 % 2 ^ 32 / 4096)

def entryOffset (k : ℕ) : ℕ := k * 256 % 2 ^ 32 % 4096

def direntAddr (i : Inode) (k : ℕ) : ℕ := 4096 * entryBlock i k + entryOffset k

def direntInode (m : ByteMem) (a : ℕ) : ℕ := readLE m a 4

def direntName (m : ByteMem) (a : ℕ) : List UInt8 :=
  (bytes m (a + 4) ixfsMaxName).takeWhile (· ≠ 0)

/-- An entry in use with this name. -/
def direntMatches (m : ByteMem) (name : List UInt8) (a : ℕ) : Bool :=
  direntInode m a ≠ 0 && strcmp (direntName m a) name

/-- The loops over the entries of a directory: the first one of `ks` that is hit, if all before it
have a block. -/
def scanDir (i : Inode) (hit : ℕ → Bool) : List ℕ → Option ℕ
  | [] => none
  | k :: ks =>
    if entryBlock i k = 0 then none
    else if hit (direntAddr i k) then some k
    else scanDir i hit ks

def linearLookup (m : ByteMem) (i : Inode) (name : List UInt8) : Option ℕ :=
  scanDir i (direntMatches m name) (List.range (totalEntries i))

/-- The loop of `ixfs_hash_build`. -/
def hashLoop (m : ByteMem) (i : Inode) : HashIndex.Index → List ℕ → HashIndex.Index
  | ix, [] => ix
  | ix, k :: ks =>
    if entryBlock i k = 0 then ix
    else if direntInode m (direntAddr i k) = 0 then hashLoop m i ix ks
    else hashLoop m i (ix.insert (hashBucket (direntName m (direntAddr i k))) k) ks

def hashBuild (m : ByteMem) (i : Inode) : Option HashIndex.Index :=
  if totalEntries i = 0 then none
  else some (hashLoop m i (HashIndex.empty ixfsHashChainEnd) (List.range (totalEntries i)))

/-- `ixfs_hash_lookup`. The links of a chain go to earlier nodes, so it is no longer than the
number of nodes. -/
def hashLookup (m : ByteMem) (i : Inode) (dh : Option HashIndex.Index) (name : List UInt8) :
    Option ℕ :=
  dh.bind fun ix => HashIndex.walk ixfsHashChainEnd (fun k => entryBlock i k = 0)
    (fun k => direntMatches m name (direntAddr i k)) ix (ix.nodes.length + 1)
    (ix.bucket (hashBucket name))

/-! ### Inodes and vnodes -/

/-- What `ixfs_read_inode` copies. -/
def inodeBytes (v : Volume) (ino : ℕ) : ByteMem := fun x =>
  if x < 128 then v.disk (inodeAddr v.sb ino + x) else 0

/-- `ixfs_write_inode`; an inode outside the table is not written. -/
def putInode (v : Volume) (ino : ℕ) (src : ByteMem) : Volume :=
  (writeInode (fun _ => false) v ino src).getD v

/-- `ixfs_get_vnode`: the vnode of an inode, whose number is kept here. -/
def getVnode (m : Mount) (ino : ℕ) : Mount × Option ℕ :=
  if ino < ixfsRootInode then (m, none)
  else if m.vnodes.any fun v => v.ino = ino then (m, some ino)
  else if ixfsMaxOpenNodes ≤ m.vnodes.length then (m, none)
  else if inoInTable m.g.vol.sb ino then
    ({ m with vnodes := m.vnodes ++ [⟨ino, inodeBytes m.g.vol ino, none⟩] }, some ino)
  else (m, none)

/-- The mount with another vnode in slot `d`. -/
def Mount.setVnode (m : Mount) (d : ℕ) (v : Vnode) : Mount := { m with vnodes := m.vnodes.set d v }

def Mount.setVol (m : Mount) (v : Volume) : Mount := { m with g := { m.g with vol := v } }

/-- The inode number of entry `k` is looked up. -/
def openEntry (m : Mount) (i : Inode) : Option ℕ → Mount × Option ℕ
  | none => (m, none)
  | some k =>
    if entryBlock i k = 0 then (m, none)
    else getVnode m (direntInode m.g.vol.disk (direntAddr i k))

/-- `ixfs_finddir` in the directory of slot `d`: the inode number of the node it returns. -/
def finddir (m : Mount) (d : ℕ) (name : List UInt8) : Mount × Option ℕ :=
  match m.vnodes[d]? with
  | none => (m, none)
  | some v =>
    if ixfsHashThreshold < totalEntries v.node then
      let dh := if v.dirHash.isNone then hashBuild m.g.vol.disk v.node else v.dirHash
      openEntry (m.setVnode d { v with dirHash := dh }) v.node
        (hashLookup m.g.vol.disk v.node dh name)
    else openEntry m v.node (linearLookup m.g.vol.disk v.node name)

/-! ### Extents -/

/-- Where extent `e` of an inode starts. -/
def extentAddr (e : ℕ) : ℕ := 32 + 12 * e

/-- The number of extents in use, at most four. -/
def clampedCount (i : Inode) : ℕ := min i.extentCount ixfsInlineExtents

/-- `ixfs_add_block_to_extent`: the volume, the inode and the new block, 0 on failure. -/
def addBlockToExtent (g : Grouped) (inode : ByteMem) : Grouped × ByteMem × ℕ :=
  let i := decodeInode inode 0
  let ec := clampedCount i
  let last := i.extents.getD (ec - 1) ⟨0, 0⟩
  let lastEnd := if 0 < ec ∧ 0 < last.count then (last.start + last.count) % 2 ^ 32 else 0
  let r := allocBlock g
  if r.2 = 0 then (r.1, inode, 0)
  else if 0 < ec ∧ r.2 = lastEnd then
    (r.1, writeLE (writeLE inode (extentAddr (ec - 1) + 8) 4 (last.count + 1)) 16 4 (i.blocks + 1),
      r.2)
  else if ec < ixfsInlineExtents then
    (r.1, writeLE (writeLE (writeLE (writeLE inode (extentAddr ec) 8 r.2) (extentAddr ec + 8) 4 1)
      80 1 (ec + 1)) 16 4 (i.blocks + 1), r.2)
  else (freeBlock r.1 r.2, inode, 0)

/-- The blocks that `ixfs_free_all_extents` frees. -/
def extentBlocks (es : List Extent) : List ℕ :=
  es.flatMap fun e => (List.range e.count).map fun j => (e.start + j) % 2 ^ 32

def inodeBlocks (i : Inode) : List ℕ :=
  if i.extentFlags &&& ixfsInline ≠ 0 then []
  else extentBlocks (i.extents.take (clampedCount i))

/-- `ixfs_free_all_extents`. The inode is cleared afterwards. -/
def freeAllExtents (g : Grouped) (i : Inode) : Grouped := (inodeBlocks i).foldl freeBlock g

/-! ### Creating -/

/-- `ixfs_strcpy` of a name to the field at `a`. -/
def putName (m : ByteMem) (a : ℕ) (name : List UInt8) : ByteMem :=
  storeBytes m a (name.take (ixfsMaxName - 1) ++ [0])

def putDirent (buf : ByteMem) (off ino : ℕ) (name : List UInt8) : ByteMem :=
  putName (writeLE buf off 4 ino) (off + 4) name

def zeroBuf : ByteMem := fun _ => 0

def newInode (isDir : Bool) (now blk : ℕ) : ByteMem :=
  let mode := if isDir then ixfsSDir ||| ixfsPermDir else ixfsSFile ||| ixfsPermFile
  let base := writeLE (writeLE (writeLE (writeLE (writeLE zeroBuf 0 2 mode) 2 2 1) 20 4 now) 24 4
    now) 28 4 now
  if isDir then
    writeLE (writeLE (writeLE (writeLE (writeLE base (extentAddr 0) 8 blk) (extentAddr 0 + 8) 4 1)
      80 1 1) 16 4 1) 8 8 512
  else writeLE base 81 1 ixfsInline

def findFreeInode (v : Volume) : Option ℕ :=
  (List.range' 2 (v.sb.totalInodes - 2)).find? fun i =>
    inoInTable v.sb i && (v.inode i).mode = 0

/-- The block of a new directory, with its entries `.` and `..`. -/
def dotBlock (ino parent : ℕ) : ByteMem :=
  putDirent (putDirent zeroBuf 0 ino [0x2E]) 256 parent [0x2E, 0x2E]

/-- A volume with one free inode less. -/
def Grouped.takeInode (g : Grouped) : Grouped :=
  { g with vol := { g.vol with
    sb := g.vol.sb.setFreeInodes ((g.vol.sb.freeInodes + 2 ^ 32 - 1) % 2 ^ 32) } }

def Grouped.giveInode (g : Grouped) : Grouped :=
  { g with vol := { g.vol with
    sb := g.vol.sb.setFreeInodes ((g.vol.sb.freeInodes + 1) % 2 ^ 32) } }

def Grouped.setVol (g : Grouped) (v : Volume) : Grouped := { g with vol := v }

/-- The first half of `ixfs_create`: the new inode is written, if a new directory gets its
block. -/
def makeInode (g : Grouped) (ino parent : ℕ) (isDir : Bool) (now : ℕ) : Grouped × Bool :=
  if isDir then
    let r := allocBlock g
    if r.2 = 0 then (r.1, false)
    else
      let v := r.1.vol.writeBlock r.2 (dotBlock ino parent)
      ((r.1.setVol (putInode v ino (newInode true now r.2))).takeInode, true)
  else ((g.setVol (putInode g.vol ino (newInode false now 0))).takeInode, true)

def Grouped.writeEntry (g : Grouped) (block : ℕ) (buf : ByteMem) : Grouped :=
  g.setVol (g.vol.writeBlock block buf)

/-- The entry goes to a free place, or behind the last one: the volume and the directory's inode;
`none` when the directory cannot grow. -/
def addDirent (g : Grouped) (inode : ByteMem) (ino : ℕ) (name : List UInt8) :
    Grouped × Option ByteMem :=
  let i := decodeInode inode 0
  let total := totalEntries i
  match scanDir i (fun a => direntInode g.vol.disk a = 0) (List.range total) with
  | some k =>
    (g.writeEntry (entryBlock i k)
      (putDirent (readBuf g.vol.disk (entryBlock i k)) (entryOffset k) ino name), some inode)
  | none =>
    let grown := fun inode => writeLE inode 8 8 (readLE inode 8 8 + 256)
    if entryBlock i total = 0 then
      let r := addBlockToExtent g inode
      if r.2.2 = 0 then (r.1, none)
      else (r.1.writeEntry r.2.2 (putDirent zeroBuf (entryOffset total) ino name),
        some (grown r.2.1))
    else
      (g.writeEntry (entryBlock i total)
        (putDirent (readBuf g.vol.disk (entryBlock i total)) (entryOffset total) ino name),
        some (grown inode))

def flushDir (v : Volume) (ino : ℕ) (inode : ByteMem) : Volume :=
  flushSuperblock (flushBitmap (putInode v ino inode))

/-- `ixfs_create` in the directory of slot `d`. -/
def create (m : Mount) (d : ℕ) (name : List UInt8) (isDir : Bool) (now : ℕ) : Mount × ℤ :=
  if m.g.vol.readOnly then (m, -1)
  else
    let r := finddir m d name
    let m := r.1
    match m.vnodes[d]? with
    | none => (m, -1)
    | some v =>
      if r.2.isSome then (m, 0)
      else match findFreeInode m.g.vol with
        | none => (m, -1)
        | some ino =>
          match makeInode m.g ino v.ino isDir now with
          | (g, false) => ({ m with g := g }, -1)
          | (g, true) =>
            match addDirent g v.inode ino name with
            | (g, none) => ({ m with g := g }, -1)
            | (g, some inode) =>
              let vol := flushDir g.vol v.ino inode
              (⟨g.setVol vol, m.vnodes.set d ⟨v.ino, inode, none⟩⟩, 0)

/-- An entry other than `.` and `..`. -/
def isRealEntry (m : ByteMem) (a : ℕ) : Bool :=
  direntInode m a ≠ 0 && direntName m a ≠ [0x2E] && direntName m a ≠ [0x2E, 0x2E]

/-- A directory has no entries but `.` and `..`. -/
def dirEmpty (m : ByteMem) (i : Inode) : Bool :=
  (scanDir i (isRealEntry m) (List.range (totalEntries i))).isNone

def retire (vnodes : List Vnode) (ino : ℕ) : List Vnode :=
  match vnodes.findIdx? fun v => v.ino = ino with
  | none => vnodes
  | some j => vnodes.modify j fun v => { v with ino := 0 }

def unlink (m : Mount) (d : ℕ) (name : List UInt8) : Mount × ℤ :=
  match m.vnodes[d]? with
  | none => (m, -1)
  | some v =>
    let disk := m.g.vol.disk
    match linearLookup disk v.node name with
    | none => (m, -1)
    | some k =>
      let target := direntInode disk (direntAddr v.node k)
      if !inoInTable m.g.vol.sb target then (m, -1)
      else
        let i := m.g.vol.inode target
        if i.mode &&& ixfsSDir ≠ 0 && !dirEmpty disk i then (m, -1)
        else
          let g := freeAllExtents m.g i
          let g := (g.setVol (putInode g.vol target zeroBuf)).giveInode
          let buf := readBuf disk (entryBlock v.node k)
          let g := g.writeEntry (entryBlock v.node k)
            (writeLE (writeLE buf (entryOffset k) 4 0) (entryOffset k + 4) 1 0)
          let vnodes := retire m.vnodes target
          match vnodes[d]? with
          | none => (m, -1)
          | some v' =>
            let vol := flushDir g.vol v'.ino v'.inode
            (⟨g.setVol vol, vnodes.set d { v' with dirHash := none }⟩, 0)

def rename (m : Mount) (d : ℕ) (oldName newName : List UInt8) (replace : Bool) (now : ℕ) :
    Mount × ℤ :=
  match m.vnodes[d]? with
  | none => (m, -1)
  | some v =>
    if replace then (m, -1)
    else match linearLookup m.g.vol.disk v.node oldName with
      | none => (m, -1)
      | some k =>
        let buf := readBuf m.g.vol.disk (entryBlock v.node k)
        let vol := m.g.vol.writeBlock (entryBlock v.node k)
          (putName buf (entryOffset k + 4) newName)
        let inode := writeLE v.inode 24 4 now
        ((m.setVol (putInode vol v.ino inode)).setVnode d { v with inode := inode }, 0)

end ImpossibleOs.Ixfs
