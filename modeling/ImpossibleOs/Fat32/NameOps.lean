import ImpossibleOs.Fat32.Name

/-!
Creating, deleting and renaming entries of a directory
(`src/kernel/fs/fat32/fat32_write.c`, `fat32_dir.c`).

An operation returns the volume and the driver's return value; `none` is a
walk along the FAT without end. Device I/O and buffers do not fail.
-/

namespace ImpossibleOs.Fat32

open ByteMem

def fat32AttrDirectory : UInt8 := 0x10
def fat32AttrArchive : UInt8 := 0x20

/-- What `fat32_stamp_create` reads off the clock. -/
structure Stamp where
  tenth : UInt8
  time : ℕ
  date : ℕ
  deriving DecidableEq

/-! ### New entries -/

def le16 (n : ℕ) : List UInt8 := [UInt8.ofNat n, UInt8.ofNat (n / 256)]

def newEntry (sfn : List UInt8) (attr : UInt8) (cluster : ℕ) (t : Stamp) : List UInt8 :=
  sfn ++ [attr, 0, t.tenth] ++ le16 t.time ++ le16 t.date ++ le16 t.date ++
    le16 (cluster / 2 ^ 16) ++ le16 t.time ++ le16 t.date ++ le16 (cluster % 2 ^ 16) ++ [0, 0, 0, 0]

/-- `fat32_find_free_dir_slot`: the first free entry, or a new cluster. -/
def findFreeDirSlot (v : Volume) (dirCluster : ℕ) : Option (Volume × SlotRun) :=
  match searchSlots v 1 chainFuel dirCluster 0 emptyRun with
  | none => none
  | some (.found run) => some (v, run)
  | some (.ended prev _) =>
    let alloc := allocCluster v
    if alloc.2 = 0 then none
    else
      let v := zeroCluster (setFatEntry alloc.1 prev alloc.2) alloc.2
      some (v, ⟨clusterToSector v.bpb alloc.2, 0, alloc.2, 0⟩)

def writeDirEntry (v : Volume) (sector offset : ℕ) (entry : List UInt8) : Volume :=
  v.setDisk (storeBytes v.disk (sector * 512 + offset) entry)

/-- The short entry is written, behind its long name if it needs one. -/
def putEntry (v : Volume) (dir : ℕ) (sfn name entry : List UInt8) : Option Volume :=
  if needsLfn name then (lfnWriteSlots v dir sfn name entry).map Prod.fst
  else (findFreeDirSlot v dir).map fun r => writeDirEntry r.1 r.2.sector r.2.offset entry

/-- The second half of `fat32_create_file_vol` and `fat32_create_dir_vol`: the entry of the new
cluster. The return value of the short-name generator is not looked at. -/
def linkEntry (v : Volume) (dir : ℕ) (name : List UInt8) (attr : UInt8) (cluster : ℕ)
    (t : Stamp) : Option (Volume × ℤ) :=
  let sfn := (generateSfn v dir name).2
  match putEntry v dir sfn name (newEntry sfn attr cluster t) with
  | some v => some (v, 0)
  | none => (freeChain v cluster chainFuel).map fun v => (v, -1)

def withCluster (v : Volume) : Volume := zeroCluster (allocCluster v).1 (allocCluster v).2

def createFileVol (v : Volume) (dir : ℕ) (name : List UInt8) (t : Stamp) : Option (Volume × ℤ) :=
  if name = [] then some (v, -1)
  else if (allocCluster v).2 = 0 then some ((allocCluster v).1, -1)
  else linkEntry (withCluster v) dir name fat32AttrArchive (allocCluster v).2 t

/-- The entries `.` and `..` of a new directory. -/
def dotEntries (cluster parent : ℕ) : List UInt8 :=
  let dot := fun (name : List UInt8) (c : ℕ) =>
    padTo 11 name ++ [fat32AttrDirectory] ++ List.replicate 8 0 ++ le16 (c / 2 ^ 16) ++
      List.replicate 4 0 ++ le16 (c % 2 ^ 16) ++ List.replicate 4 0
  dot [charDot] cluster ++ dot [charDot, charDot] parent ++ List.replicate 448 0

/-- The volume with a cluster for a new directory, which holds `.` and `..`. -/
def withDirCluster (v : Volume) (parent : ℕ) : Volume :=
  (withCluster v).setDisk (storeBytes (withCluster v).disk
    (clusterAddr v.bpb (allocCluster v).2) (dotEntries (allocCluster v).2 parent))

def createDirVol (v : Volume) (parent : ℕ) (name : List UInt8) (t : Stamp) : Option (Volume × ℤ) :=
  if name = [] then some (v, -1)
  else if dirFindChild v parent name ≠ 0 then some (v, -1)
  else if (allocCluster v).2 = 0 then some ((allocCluster v).1, -1)
  else linkEntry (withDirCluster v parent) parent name fat32AttrDirectory (allocCluster v).2 t

/-! ### Removing entries -/

def writeCluster (v : Volume) (c : ℕ) (buf : ByteMem) : Volume :=
  v.setDisk fun x =>
    if clusterAddr v.bpb c ≤ x ∧ x < clusterAddr v.bpb c + v.bpb.bytesPerCluster then buf x
    else v.disk x

def markDeleted (m : ByteMem) (a : ℕ) : ByteMem := storeBytes m a [0xE5]

/-- The LFN entries before address `a` that carry the checksum are marked as deleted; `n`
entries lie before `a` in its cluster. -/
def wipeLfn (chk : UInt8) : ℕ → ℕ → ByteMem → ByteMem
  | 0, _, m => m
  | n + 1, a, m =>
    if deAttr m (a - 32) = fat32AttrLfn ∧ m (a - 32 + 13) = chk then
      wipeLfn chk n (a - 32) (markDeleted m (a - 32))
    else m

/-- What `fat32_delete_file_vol` does to the buffer. The checksum is taken of the name after
its first byte has been overwritten. -/
def deleteInBuf (b : Bpb) (m : ByteMem) (p : ℕ × ℕ) : ByteMem :=
  let a := entryPos b p
  let m := markDeleted m a
  wipeLfn (lfnChecksum (bytes m a 11)) p.2 a m

/-- The chain of the entry at `a` is freed. -/
def freeEntryChain (v : Volume) (a : ℕ) : Option Volume :=
  if 2 ≤ deFirstCluster v.disk a then freeChain v (deFirstCluster v.disk a) chainFuel else some v

def deleteFileVol (v : Volume) (dir : ℕ) (name : List UInt8) : Option (Volume × ℤ) :=
  match scanChain (nameTurn v name) v v.bpb.lastValidCluster (v.bpb.lastValidCluster + 1) dir
    LfnScan.start with
  | .left (some hit) =>
    if hit.crosses then some (v, -1)
    else
      (freeEntryChain v (entryPos v.bpb hit.entry)).map fun w =>
        (writeCluster w hit.entry.1 (deleteInBuf v.bpb v.disk hit.entry), 0)
  | _ => some (v, -1)

/-- One entry of the check of `fat32_rmdir` that a directory is empty. -/
def childTurn (v : Volume) (_ : Unit) (p : ℕ × ℕ) : Except Bool Unit :=
  let a := entryPos v.bpb p
  if v.disk a = 0x00 then .error true
  else if v.disk a = 0xE5 then .ok ()
  else if deAttr v.disk a = fat32AttrLfn then .ok ()
  else if v.disk a = charDot ∧ (v.disk (a + 1) = charSpace ∨
      v.disk (a + 1) = charDot ∧ v.disk (a + 2) = charSpace) then .ok ()
  else .error false

def rmdir (v : Volume) (parent : ℕ) (name : List UInt8) : Option (Volume × ℤ) :=
  match scanChain (sfnTurn v (makeShortName name)) v fat32Eoc chainFuel parent () with
  | .over => none
  | .left (some p) =>
    let a := entryPos v.bpb p
    if deAttr v.disk a &&& fat32AttrDirectory = 0 then some (v, -1)
    else
      match scanChain (childTurn v) v fat32Eoc chainFuel (deFirstCluster v.disk a) () with
      | .over => none
      | .left false => some (v, -1)
      | _ =>
        (freeEntryChain v a).map fun w =>
          (writeCluster w p.1 (markDeleted v.disk a), 0)
  | _ => some (v, -1)

/-! ### Renaming -/

/-- `fat32_find_dirent_by_sfn`: the entry, `none` when there is none, and an error for a bad
chain. -/
def findDirentBySfn (v : Volume) (dir : ℕ) (sfn : List UInt8) : Except Unit (Option (ℕ × ℕ)) :=
  match scanChain (sfnTurn v sfn) v v.bpb.lastValidCluster (v.bpb.lastValidCluster + 1) dir () with
  | .left r => .ok r
  | .ended _ => .ok none
  | .over => .error ()

def removeDirentInBuf (b : Bpb) (m : ByteMem) (p : ℕ × ℕ) : ByteMem :=
  let a := entryPos b p
  wipeLfn (lfnChecksum (bytes m a 11)) p.2 a (markDeleted m a)

/-- The replace-existing path of `fat32_rename_vol`. An error is the value it returns with. -/
def replaceExisting (v : Volume) (dir : ℕ) (newShort : List UInt8) (src : ℕ × ℕ) :
    Option (Except ℤ Volume) :=
  match findDirentBySfn v dir newShort with
  | .error _ => some (.error (-1))
  | .ok none => some (.ok v)
  | .ok (some dst) =>
    if deAttr v.disk (entryPos v.bpb dst) &&& fat32AttrDirectory ≠ 0 then some (.error (-1))
    else if dst = src then some (.error 0)
    else if dst.1 ≠ dir then some (.error (-1))
    else
      let first := deFirstCluster v.disk (entryPos v.bpb dst)
      let w := writeCluster v dst.1 (removeDirentInBuf v.bpb v.disk dst)
      (if 2 ≤ first then freeChain w first chainFuel else some w).map .ok

/-- `fat32_rename_vol`; `replace` is the flag VFS_RENAME_REPLACE_EXISTING. -/
def renameVol (v : Volume) (dir : ℕ) (oldName newName : List UInt8) (replace : Bool) :
    Option (Volume × ℤ) :=
  let oldShort := makeShortName oldName
  let newShort := makeShortName newName
  match findDirentBySfn v dir oldShort with
  | .ok (some src) =>
    if oldShort = newShort then some (v, 0)
    else
      (if replace then replaceExisting v dir newShort src else some (.ok v)).map fun r =>
        match r with
        | .error rc => (v, rc)
        | .ok w => (w.setDisk (storeBytes w.disk (entryPos w.bpb src) newShort), 0)
  | _ => some (v, -1)

/-- The calls that change the names of a directory. -/
inductive NameCall
  | createFile (name : List UInt8) (t : Stamp)
  | createDir (name : List UInt8) (t : Stamp)
  | delete (name : List UInt8)
  | rmdir (name : List UInt8)
  | rename (oldName newName : List UInt8) (replace : Bool)
  deriving DecidableEq

def nameExec (dir : ℕ) (v : Volume) : NameCall → Option (Volume × ℤ)
  | .createFile name t => createFileVol v dir name t
  | .createDir name t => createDirVol v dir name t
  | .delete name => deleteFileVol v dir name
  | .rmdir name => rmdir v dir name
  | .rename oldName newName replace => renameVol v dir oldName newName replace

end ImpossibleOs.Fat32
