import ImpossibleOs.Ixfs.File
import ImpossibleOs.Ixfs.Layout

/-!
The volume of a truncate (`src/kernel/fs/ixfs/ixfs_ops.c`, `ixfs_vfs_truncate`).

Up to four volumes are mounted. A file knows its volume, but a truncate takes the
first one that is in use.
-/

namespace ImpossibleOs.Ixfs

open ByteMem Function List

def ixfsMaxVolumes : ℕ := 4

instance : NeZero ixfsMaxVolumes := ⟨by decide⟩

/-- A vnode with its `struct vfs_node`. -/
structure FileNode where
  vol : Fin ixfsMaxVolumes
  isDir : Bool
  ino : ℕ
  inode : ByteMem

def findVolume (inUse : Fin ixfsMaxVolumes → Bool) : Option (Fin ixfsMaxVolumes) :=
  (List.finRange ixfsMaxVolumes).find? fun k => inUse k

def ixfsVfsTruncate (now : ℕ) (inUse : Fin ixfsMaxVolumes → Bool)
    (volumes : Fin ixfsMaxVolumes → Grouped) (node : FileNode) (newSize : ℕ) :
    (Fin ixfsMaxVolumes → Grouped) × ByteMem × ℤ :=
  if node.isDir then (volumes, node.inode, -1)
  else
    match findVolume inUse with
    | none => (volumes, node.inode, -1)
    | some k =>
      let r := truncateOn now (volumes k) node.ino node.inode newSize
      (update volumes k r.1, r.2, 0)

/-- A truncate of `node` changes no volume but the node's, and does the same whatever the others
hold. -/
structure OwnVolumeOnly (now : ℕ) (inUse : Fin ixfsMaxVolumes → Bool) (node : FileNode)
    (newSize : ℕ) : Prop where
  modifies : ∀ volumes k, k ≠ node.vol →
    (ixfsVfsTruncate now inUse volumes node newSize).1 k = volumes k
  reads : ∀ volumes volumes', volumes node.vol = volumes' node.vol →
    (ixfsVfsTruncate now inUse volumes node newSize).1 node.vol =
        (ixfsVfsTruncate now inUse volumes' node newSize).1 node.vol ∧
      (ixfsVfsTruncate now inUse volumes node newSize).2 =
        (ixfsVfsTruncate now inUse volumes' node newSize).2

variable {now newSize : ℕ} {inUse : Fin ixfsMaxVolumes → Bool} {node : FileNode}
  {k : Fin ixfsMaxVolumes}

theorem findVolume_eq_some :
    findVolume inUse = some k ↔ inUse k = true ∧ ∀ j < k, inUse j = false := by
  rw [findVolume, List.find?_eq_some_iff_getElem]
  refine and_congr_right fun _ => ⟨?_, ?_⟩
  · rintro ⟨i, hi, hk, hbefore⟩ j hj
    rw [getElem_finRange] at hk
    obtain rfl := hk
    have hlt : j.val < i := hj
    have hnot := hbefore j.val hlt
    rw [getElem_finRange] at hnot
    exact Bool.eq_false_of_not_eq_true' hnot
  · intro hbefore
    refine ⟨k.val, by simp, by simp, ?_⟩
    intro j hj
    rw [getElem_finRange]
    exact congrArg not (hbefore ⟨j, hj.trans k.isLt⟩ hj)

/-! ### A volume of inodes -/

/-- The superblock of a table of all inodes, without a data area. -/
def allInodes : Superblock :=
  writeLE (writeLE (writeLE (fun _ => 0) 28 4 (2 ^ 32 - 1)) 44 4 1) 48 4 (2 ^ 32 - 1)

/-- A volume with all inodes; every byte of its device is `c`. -/
def inodeVolume (c : UInt8) : Grouped where
  vol := {
    sb := allInodes
    disk := fun _ => c
    bitmap := fun _ => 0
    bitmapBytes := 0
    refcounts := none
    checksums := none
    snapshots := []
    readOnly := false
    active := true
    deviceBlocks := 0 }
  groups := []

theorem inoInTable_allInodes {ino : ℕ} (hpos : 1 ≤ ino) (hlt : ino < 2 ^ 32 - 1) :
    inoInTable allInodes ino = true := by
  have htotal : allInodes.totalInodes = 2 ^ 32 - 1 := by decide
  have hblocks : allInodes.inodeBlocks = 2 ^ 32 - 1 := by decide
  have hstart : allInodes.inodeStart = 1 := by decide
  rw [inoInTable_iff, htotal, hblocks, hstart]
  omega

theorem freeBlock_inodeVolume (c : UInt8) (b : ℕ) :
    freeBlock (inodeVolume c) b = inodeVolume c := by
  have htotal : allInodes.totalBlocks = 0 := by decide
  have hout : (inodeVolume c).vol.sb.totalBlocks ≤ b := htotal.trans_le (Nat.zero_le b)
  rw [freeBlock, if_pos (.inr hout)]

theorem resize_inodeVolume (c : UInt8) (m : ByteMem) (newSize : ℕ) :
    (resize (inodeVolume c) m newSize).1 = inodeVolume c := by
  unfold resize
  split
  · unfold ixfsFreeAllExtents
    split
    · rfl
    · exact foldl_fixed' (freeBlock_inodeVolume c) _
  split
  · refine foldl_fixed' (fun blk => ?_) _
    split
    · rfl
    · exact freeBlock_inodeVolume c _
  · rfl

theorem disk_putInode {v : Volume} {ino x : ℕ} (src : ByteMem)
    (hin : inoInTable v.sb ino = true) (hx : x < 128) :
    (putInode v ino src).disk (inodeAddr v.sb ino + x) = src x := by
  obtain ⟨w, hw, -⟩ := @writeInode_spec v (fun _ => false) ino src hin rfl
  have hput : putInode v ino src = w := congrArg (Option.getD · v) hw
  rw [hput]
  exact disk_writeInode hw hin rfl hx

theorem truncateOn_inodeVolume (c : UInt8) {ino : ℕ} (hpos : 1 ≤ ino) (hlt : ino < 2 ^ 32 - 1)
    (now : ℕ) (m : ByteMem) (newSize : ℕ) :
    (truncateOn now (inodeVolume c) ino m newSize).1.vol.disk (inodeAddr allInodes ino + 24) =
      UInt8.ofNat now := by
  have hin : inoInTable (inodeVolume c).vol.sb ino = true := inoInTable_allInodes hpos hlt
  unfold truncateOn
  dsimp only
  rw [resize_inodeVolume]
  refine (disk_putInode _ hin (by omega)).trans ?_
  rw [writeLE, if_pos (by omega), Nat.sub_self, Nat.pow_zero, Nat.div_one]

/-! ### The volume it finds -/

theorem exists_findVolume (h : inUse k = true) : ∃ j, findVolume inUse = some j := by
  cases hfind : findVolume inUse with
  | some j => exact ⟨j, rfl⟩
  | none =>
    have hnone := List.find?_eq_none.mp hfind k (mem_finRange k)
    exact absurd h hnone

theorem not_own_volume (hpos : 1 ≤ node.ino) (hlt : node.ino < 2 ^ 32 - 1)
    (hfile : node.isDir ≠ true) (hk : findVolume inUse = some k) (hne : k ≠ node.vol) :
    ¬ OwnVolumeOnly now inUse node newSize := by
  intro h
  -- every byte of the device differs from the time
  have hkeep := h.modifies (fun _ => inodeVolume (UInt8.ofNat now + 1)) k hne
  rw [ixfsVfsTruncate, if_neg hfile, hk] at hkeep
  dsimp only at hkeep
  rw [update_self] at hkeep
  have hbyte := truncateOn_inodeVolume (UInt8.ofNat now + 1) hpos hlt now node.inode newSize
  rw [hkeep] at hbyte
  have hother : UInt8.ofNat now + 1 ≠ UInt8.ofNat now := by
    intro heq
    have hval := congrArg UInt8.toNat heq
    rw [UInt8.toNat_add, show (1 : UInt8).toNat = 1 from rfl] at hval
    omega
  exact hother hbyte

theorem ownVolumeOnly_of_dir (hdir : node.isDir = true) : OwnVolumeOnly now inUse node newSize := by
  have hsame : ∀ volumes, ixfsVfsTruncate now inUse volumes node newSize =
      (volumes, node.inode, -1) := fun volumes => if_pos hdir
  constructor
  · intro volumes k _
    rw [hsame]
  · intro volumes volumes' heq
    rw [hsame, hsame]
    exact ⟨heq, rfl⟩

theorem ownVolumeOnly_of_found (hk : findVolume inUse = some node.vol) :
    OwnVolumeOnly now inUse node newSize := by
  by_cases hdir : node.isDir = true
  · exact ownVolumeOnly_of_dir hdir
  have hrun : ∀ volumes, ixfsVfsTruncate now inUse volumes node newSize =
      (update volumes node.vol
          (truncateOn now (volumes node.vol) node.ino node.inode newSize).1,
        (truncateOn now (volumes node.vol) node.ino node.inode newSize).2, 0) := by
    intro volumes
    rw [ixfsVfsTruncate, if_neg hdir, hk]
  constructor
  · intro volumes k hne
    rw [hrun]
    exact update_of_ne hne _ _
  · intro volumes volumes' heq
    rw [hrun, hrun, heq]
    refine ⟨?_, rfl⟩
    dsimp only
    rw [update_self, update_self]

theorem truncate_own_volume_iff (now : ℕ) (inUse : Fin ixfsMaxVolumes → Bool) (node : FileNode)
    (newSize : ℕ) (hown : inUse node.vol = true) (hpos : 1 ≤ node.ino)
    (hlt : node.ino < 2 ^ 32 - 1) : OwnVolumeOnly now inUse node newSize ↔
      node.isDir = true ∨ ∀ k < node.vol, inUse k = false := by
  constructor
  · intro h
    by_contra hnot
    obtain ⟨hfile, hfirst⟩ := not_or.mp hnot
    obtain ⟨k, hk⟩ := exists_findVolume hown
    have hne : k ≠ node.vol := by
      rintro rfl
      exact hfirst (findVolume_eq_some.mp hk).2
    exact not_own_volume hpos hlt hfile hk hne h
  · rintro (hdir | hfirst)
    · exact ownVolumeOnly_of_dir hdir
    · exact ownVolumeOnly_of_found (findVolume_eq_some.mpr ⟨hown, hfirst⟩)

def fileOn (vol : Fin ixfsMaxVolumes) : FileNode where
  vol := vol
  isDir := false
  ino := 2
  inode := fun _ => 0

theorem truncate_own_volume_first : OwnVolumeOnly 0 (fun k => k = 0 ∨ k = 1) (fileOn 0) 0 :=
  (truncate_own_volume_iff 0 _ (fileOn 0) 0 (by decide) (by decide) (by decide)).mpr
    (.inr (by decide))

/-- A truncate on the second of two volumes works on the first. -/
theorem truncate_other_volume : ¬ OwnVolumeOnly 0 (fun k => k = 0 ∨ k = 1) (fileOn 1) 0 :=
  not_own_volume (k := 0) (by decide) (by decide) (by decide) (by decide) (by decide)

end ImpossibleOs.Ixfs
