import ImpossibleOs.Lib.ByteMem
import ImpossibleOs.Lib.Loop

/-!
The volume layer of the FAT32 driver (`src/kernel/fs/fat32/fat32_core.c`).

Byte `512 * s + o` of the memory is byte `o` of sector `s`, as the driver sees it
through its sector cache, and device I/O succeeds. The FAT and the clusters are
addressed as in the source, so that a write to a wrong sector is a write to
somebody else's bytes.
-/

namespace ImpossibleOs.Fat32

open ByteMem

def fat32Eoc : ℕ := 0x0FFFFFF8
def fat32Free : ℕ := 0
def fat32Bad : ℕ := 0x0FFFFFF7
def eocMark : ℕ := 0x0FFFFFFF
def fsinfoUnknown : ℕ := 0xFFFFFFFF

def u32 (n : ℕ) : ℕ := n % 2 ^ 32

/-- Subtraction of `uint32_t`. -/
def sub32 (a b : ℕ) : ℕ := if b ≤ a then a - b else 2 ^ 32 - (b - a)

/-- The fields of `struct fat32_bpb` that the driver uses after mounting. -/
structure Bpb where
  bytesPerSector : ℕ
  sectorsPerCluster : ℕ
  reservedSectors : ℕ
  numFats : ℕ
  totalSectors : ℕ
  fatSizeSectors : ℕ
  rootCluster : ℕ
  firstDataSector : ℕ
  firstFatSector : ℕ
  deriving DecidableEq, Repr

structure Volume where
  bpb : Bpb
  disk : ByteMem
  fsinfoValid : Bool
  fsinfoFreeCount : ℕ
  fsinfoNextFree : ℕ
  fsinfoDirty : Bool

/-! ### Clusters -/

def Bpb.bytesPerCluster (b : Bpb) : ℕ := b.sectorsPerCluster * 512

/-- One more than the last cluster number of the volume. -/
def Bpb.maxCluster (b : Bpb) : ℕ :=
  (b.totalSectors - b.firstDataSector) / b.sectorsPerCluster + 2

def clusterToSector (b : Bpb) (cluster : ℕ) : ℕ :=
  u32 (b.firstDataSector + sub32 cluster 2 * b.sectorsPerCluster)

def clusterAddr (b : Bpb) (cluster : ℕ) : ℕ := clusterToSector b cluster * 512

/-- `fat32_zero_cluster` writes the sectors of a cluster one after another. -/
def zeroCluster (v : Volume) (cluster : ℕ) : Volume :=
  { v with disk := zeroRange v.disk (clusterAddr v.bpb cluster) v.bpb.bytesPerCluster }

/-- Device address of the entry of `cluster` in FAT copy `fi`. -/
def fatAddr (b : Bpb) (fi cluster : ℕ) : ℕ :=
  let fatOffset := u32 (cluster * 4)
  u32 (b.firstFatSector + fi * b.fatSizeSectors + fatOffset / 512) * 512 + fatOffset % 512

def getFatEntry (v : Volume) (cluster : ℕ) : ℕ :=
  readLE v.disk (fatAddr v.bpb 0 cluster) 4 % 2 ^ 28

/-- One turn of `fat32_set_fat_entry`: the entry in one FAT copy, top four bits kept. -/
def setFatCopy (b : Bpb) (cluster value : ℕ) (m : ByteMem) (fi : ℕ) : ByteMem :=
  let a := fatAddr b fi cluster
  let existing := readLE m a 4
  writeLE m a 4 (existing - existing % 2 ^ 28 + value % 2 ^ 28)

def setFatEntry (v : Volume) (cluster value : ℕ) : Volume :=
  { v with disk := (List.range v.bpb.numFats).foldl (setFatCopy v.bpb cluster value) v.disk }

/-! ### Allocation -/

def scanFree (v : Volume) (first stop : ℕ) : Option ℕ :=
  (List.range' first (stop - first)).find? fun c => getFatEntry v c = fat32Free

def allocStart (v : Volume) : ℕ :=
  if v.fsinfoValid ∧ 2 ≤ v.fsinfoNextFree ∧ v.fsinfoNextFree < v.bpb.maxCluster then
    v.fsinfoNextFree
  else 2

/-- The cluster that an allocation takes: the first free one from the hint on, else from the
start. -/
def pickFree (v : Volume) : Option ℕ :=
  (scanFree v (allocStart v) v.bpb.maxCluster).or (scanFree v 2 (allocStart v))

/-- `fat32_alloc_cluster`; cluster 0 when the volume is full. -/
def allocCluster (v : Volume) : Volume × ℕ :=
  match pickFree v with
  | none => (v, 0)
  | some cluster =>
    let v := setFatEntry v cluster eocMark
    ({ v with
        fsinfoNextFree :=
          if v.bpb.maxCluster ≤ cluster + 1 then 2 else cluster + 1
        fsinfoFreeCount :=
          if v.fsinfoFreeCount ≠ fsinfoUnknown ∧ 0 < v.fsinfoFreeCount then v.fsinfoFreeCount - 1
          else v.fsinfoFreeCount
        fsinfoDirty := true },
      cluster)

/-- Bound on a walk of a chain: there are no more cluster numbers than this, so a longer walk
goes round in a circle. -/
def chainFuel : ℕ := 2 ^ 28

/-- `fat32_free_chain`; `none` is a walk without end. -/
def freeChain (v : Volume) (cluster : ℕ) : ℕ → Option Volume
  | 0 => none
  | fuel + 1 =>
    if 2 ≤ cluster ∧ cluster < fat32Eoc ∧ cluster ≠ fat32Free then
      let next := getFatEntry v cluster
      let v := setFatEntry v cluster fat32Free
      freeChain
        { v with
          fsinfoFreeCount :=
            if v.fsinfoFreeCount ≠ fsinfoUnknown then u32 (v.fsinfoFreeCount + 1)
            else v.fsinfoFreeCount
          fsinfoNextFree := if cluster < v.fsinfoNextFree then cluster else v.fsinfoNextFree
          fsinfoDirty := true }
        next fuel
    else some v

/-- The volume with other bytes on the device. -/
def Volume.setDisk (v : Volume) (m : ByteMem) : Volume := { v with disk := m }

@[simp] theorem Volume.setDisk_bpb (v : Volume) (m : ByteMem) : (v.setDisk m).bpb = v.bpb := rfl

@[simp] theorem Volume.setDisk_disk (v : Volume) (m : ByteMem) : (v.setDisk m).disk = m := rfl

end ImpossibleOs.Fat32
