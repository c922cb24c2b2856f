import ImpossibleOs.Fat32.Fsck

/-!
The FAT32 consistency checker on a device that fails to read
(`src/kernel/fs/fat32/fat32_fsck.c`, `fat32_core.c`).

The checker of `Fsck` with the outcome of every read. A FAT entry that cannot be
read is taken for an end of chain, a directory cluster for an incomplete
traversal, which keeps the last pass from freeing, and an update of the FAT stops
at the copy that cannot be read. Writes and memory allocation succeed.
-/

namespace ImpossibleOs.Fat32

open ByteMem

/-- The reads that fail: of the boot sector, of the comparison of the FATs by device sector, and
of walk and lost-cluster scan by the number of the read in the pass. -/
structure ReadFaults where
  boot : Bool
  compare : ℕ → Bool
  walk : ℕ → Bool
  lost : ℕ → Bool

/-- `fat32_get_fat_entry`, as read number `reads`. -/
def getFatIo (fails : ℕ → Bool) (v : Volume) (reads cluster : ℕ) : ℕ :=
  if fails reads then fat32Eoc else getFatEntry v cluster

structure FatUpdate where
  disk : ByteMem
  reads : ℕ
  ok : Bool

def setCopyIo (fails : ℕ → Bool) (b : Bpb) (cluster value : ℕ) (st : FatUpdate) (fi : ℕ) :
    FatUpdate :=
  if !st.ok then st
  else if fails st.reads then { st with reads := st.reads + 1, ok := false }
  else ⟨setFatCopy b cluster value st.disk fi, st.reads + 1, true⟩

def setFatIo (fails : ℕ → Bool) (v : Volume) (reads cluster value : ℕ) : FatUpdate :=
  (List.range v.bpb.numFats).foldl (setCopyIo fails v.bpb cluster value) ⟨v.disk, reads, true⟩

/-- `fat32_compare_repair_fats`. A pair of sectors that cannot be read is passed over. -/
def compareRepairFatsIo (fails : ℕ → Bool) (v : Volume) : Volume :=
  if v.bpb.numFats < 2 then v
  else
    let fat1 := v.bpb.firstFatSector
    let fat2 := fat1 + v.bpb.fatSizeSectors
    { v with
      disk := (List.range v.bpb.fatSizeSectors).foldl (fun m i =>
        if fails (fat1 + i) || fails (fat2 + i) then m
        else copyUp m ((fat2 + i) * 512) ((fat1 + i) * 512) 512) v.disk }

/-! ### The walk -/

structure FsckIo where
  core : FsckState
  reads : ℕ
  traversalFailed : Bool
  repairFailed : Bool

/-- The chain is cut behind `prev`. -/
def FsckIo.cut (fails : ℕ → Bool) (s : FsckIo) (prev : ℕ) : FsckIo :=
  let r := setFatIo fails s.core.vol s.reads prev eocMark
  { s with
    core := { s.core with vol := { s.core.vol with disk := r.disk } }
    reads := r.reads
    repairFailed := s.repairFailed || !r.ok }

def walkChainIoLoop (fails : ℕ → Bool) (fix : Bool) : ℕ → FsckIo → ℕ → ℕ → FsckIo
  | 0, s, _, _ => s
  | fuel + 1, s, cluster, prev =>
    if 2 ≤ cluster ∧ cluster < s.core.vol.bpb.maxCluster then
      let fatVal := getFatIo fails s.core.vol s.reads cluster
      let s := { s with reads := s.reads + 1 }
      if s.core.visited cluster then
        let s := { s with core := { s.core with crossLinks := u32 (s.core.crossLinks + 1) } }
        if fix ∧ prev ≠ 0 then s.cut fails prev else s
      else
        let s := { s with core := s.core.mark cluster }
        if fat32Eoc ≤ fatVal then s
        else if fatVal = fat32Bad then s
        else if fatVal < 2 then s
        else walkChainIoLoop fails fix fuel s fatVal cluster
    else s

def walkChainIo (fails : ℕ → Bool) (fix : Bool) (s : FsckIo) (start : ℕ) : FsckIo :=
  walkChainIoLoop fails fix chainFuel s start 0

def walkEntryIo (walkDir : FsckIo → ℕ → Option FsckIo) (fails : ℕ → Bool) (fix : Bool)
    (m : ByteMem) (s : FsckIo) (a : ℕ) : Except (Option FsckIo) FsckIo :=
  if m a = 0x00 then .error (some s)
  else if deSkipped m a || deIsDot m a then .ok s
  else
    let fc := deFirstCluster m a
    if fc < 2 ∨ s.core.vol.bpb.maxCluster ≤ fc then .ok s
    else if deAttr m a &&& 0x10 ≠ 0 then
      match walkDir s fc with
      | none => .error none
      | some s => .ok s
    else .ok (walkChainIo fails fix s fc)

/-- The loop of `walk_directory`. The sectors of a cluster are read in one request. -/
def walkDirIoLoop (walkDir : FsckIo → ℕ → Option FsckIo) (fails : ℕ → Bool) (fix : Bool) :
    ℕ → FsckIo → ℕ → Option FsckIo
  | 0, _, _ => none
  | fuel + 1, s, cur =>
    let b := s.core.vol.bpb
    if 2 ≤ cur ∧ cur < b.maxCluster then
      if fails s.reads then some { s with reads := s.reads + 1, traversalFailed := true }
      else
        let s := { s with reads := s.reads + 1 }
        match (List.range (b.bytesPerCluster / 32)).foldlM
          (fun s' i => walkEntryIo walkDir fails fix s.core.vol.disk s'
            (clusterAddr b cur + 32 * i)) s with
        | .error res => res
        | .ok s =>
          let next := getFatIo fails s.core.vol s.reads cur
          let s := { s with reads := s.reads + 1 }
          if next < 2 ∨ fat32Eoc ≤ next then some s
          else walkDirIoLoop walkDir fails fix fuel s next
    else some s

def walkDirectoryIo (fails : ℕ → Bool) (fix : Bool) : ℕ → FsckIo → ℕ → Option FsckIo
  | 0, _, _ => none
  | n + 1, s, dir =>
    walkDirIoLoop (walkDirectoryIo fails fix n) fails fix chainFuel (walkChainIo fails fix s dir)
      dir

structure LostScan where
  vol : Volume
  reads : ℕ
  lost : ℕ
  repairFailed : Bool

/-- One turn of the lost-cluster scan, which frees if `free`. -/
def scanLostIo (fails : ℕ → Bool) (free : Bool) (visited : ℕ → Bool) (st : LostScan)
    (cluster : ℕ) : LostScan :=
  let fatVal := getFatIo fails st.vol st.reads cluster
  let st := { st with reads := st.reads + 1 }
  if fatVal ≠ fat32Free ∧ !visited cluster then
    let st := { st with lost := u32 (st.lost + 1) }
    if free then
      let r := setFatIo fails st.vol st.reads cluster fat32Free
      { st with
        vol := { st.vol with disk := r.disk }
        reads := r.reads
        repairFailed := st.repairFailed || !r.ok }
    else st
  else st

/-- The walk before its first read. -/
def walkStart (v : Volume) : FsckIo := ⟨⟨v, fun c => c = 0 || c = 1, 0⟩, 0, false, false⟩

/-- The scan after clusters 2 to `c - 1`. -/
def scanLostTo (fails : ℕ → Bool) (free : Bool) (s : FsckIo) (c : ℕ) : LostScan :=
  (List.range' 2 (c - 2)).foldl (scanLostIo fails free s.core.visited)
    ⟨s.core.vol, 0, 0, s.repairFailed⟩

/-- `fat32_fsck`: the volume afterwards and the return value. -/
def fsckIo (f : ReadFaults) (n : ℕ) (v : Volume) (fix : Bool) : Option (Volume × ℤ) :=
  if f.boot then some (v, -1)
  else if !validateBpb v then some (v, -1)
  else
    let v := compareRepairFatsIo f.compare v
    match walkDirectoryIo f.walk fix n (walkStart v) v.bpb.rootCluster with
    | none => none
    | some s =>
      let lost := scanLostTo f.lost (fix && !s.traversalFailed) s v.bpb.maxCluster
      let errors := u32 (s.core.crossLinks + lost.lost)
      some (lost.vol,
        if s.traversalFailed || fix && lost.repairFailed then -1
        else if !fix && 0 < errors then -1
        else 0)

end ImpossibleOs.Fat32
