import ImpossibleOs.Fat32.Dir

/-!
The FAT32 consistency checker (`src/kernel/fs/fat32/fat32_fsck.c`).

The checker marks every cluster it reaches from the root directory, cutting a
chain where it runs into a marked cluster, and then frees what is in use but not
marked. Memory allocation and device I/O succeed. The recursion into
subdirectories has fuel; `none` is a walk that does not end within it.
-/

namespace ImpossibleOs.Fat32

open ByteMem

/-- `fat32_validate_bpb`, on the boot sector in sector 0. -/
def validateBpb (v : Volume) : Bool :=
  let b := v.bpb
  let jmp := v.disk 0
  let rootEntCnt := readLE v.disk 17 2
  let spc := b.sectorsPerCluster
  let fds := b.reservedSectors + b.numFats * b.fatSizeSectors
  let maxCluster := min ((b.totalSectors - fds) / spc + 1) 0x0FFFFFEF
  (jmp = 0xEB || jmp = 0xE9) &&
    (b.bytesPerSector = 512 || b.bytesPerSector = 1024 || b.bytesPerSector = 2048 ||
      b.bytesPerSector = 4096) &&
    (spc ≠ 0 && spc &&& (spc - 1) = 0 && spc ≤ 128) &&
    (b.numFats = 1 || b.numFats = 2) && rootEntCnt = 0 && 2 ≤ b.rootCluster && b.totalSectors ≠ 0 &&
    b.reservedSectors ≠ 0 && b.fatSizeSectors ≠ 0 && fds ≤ 0xFFFFFFFF &&
    fds < b.totalSectors && b.rootCluster ≤ maxCluster

/-- `fat32_compare_repair_fats`: every sector of the second FAT copy that differs from the
first is overwritten with it. -/
def compareRepairFats (v : Volume) : Volume :=
  if v.bpb.numFats < 2 then v
  else
    { v with
      disk := copyUp v.disk ((v.bpb.firstFatSector + v.bpb.fatSizeSectors) * 512)
        (v.bpb.firstFatSector * 512) (v.bpb.fatSizeSectors * 512) }

/-! ### The walk -/

structure FsckState where
  vol : Volume
  visited : ℕ → Bool
  crossLinks : ℕ

def FsckState.mark (s : FsckState) (c : ℕ) : FsckState :=
  { s with visited := fun x => if x = c then true else s.visited x }

/-- The loop of `walk_chain`, at `cluster` after `prev` (0 at the start). Every turn but the
last marks a cluster, so `chainFuel` turns are enough. -/
def walkChainLoop (fix : Bool) : ℕ → FsckState → ℕ → ℕ → FsckState
  | 0, s, _, _ => s
  | fuel + 1, s, cluster, prev =>
    if 2 ≤ cluster ∧ cluster < s.vol.bpb.maxCluster then
      let fatVal := getFatEntry s.vol cluster
      if s.visited cluster then
        -- a cross-link; at the first cluster of the chain there is nothing to cut
        let s := { s with crossLinks := u32 (s.crossLinks + 1) }
        if fix ∧ prev ≠ 0 then { s with vol := setFatEntry s.vol prev eocMark } else s
      else
        let s := s.mark cluster
        if fat32Eoc ≤ fatVal then s
        else if fatVal = fat32Bad then s
        else if fatVal < 2 then s
        else walkChainLoop fix fuel s fatVal cluster
    else s

def walkChain (fix : Bool) (s : FsckState) (start : ℕ) : FsckState :=
  walkChainLoop fix chainFuel s start 0

/-- The entries `.` and `..`. -/
def deIsDot (m : ByteMem) (a : ℕ) : Bool :=
  m a = 0x2E && (m (a + 1) = 0x20 || (m (a + 1) = 0x2E && m (a + 2) = 0x20))

/-- One entry of a directory, at address `a` of the device as it was read into the buffer.
`.error` leaves the directory: with a state at its end mark, with `none` when the recursion ran
out of fuel. -/
def walkEntry (walkDir : FsckState → ℕ → Option FsckState) (fix : Bool) (m : ByteMem)
    (s : FsckState) (a : ℕ) : Except (Option FsckState) FsckState :=
  if m a = 0x00 then .error (some s)
  else if deSkipped m a || deIsDot m a then .ok s
  else
    let fc := deFirstCluster m a
    if fc < 2 ∨ s.vol.bpb.maxCluster ≤ fc then .ok s
    else if deAttr m a &&& 0x10 ≠ 0 then
      match walkDir s fc with
      | none => .error none
      | some s => .ok s
    else .ok (walkChain fix s fc)

/-- The loop of `walk_directory` over the clusters of the directory, as the FAT links them
now. -/
def walkDirLoop (walkDir : FsckState → ℕ → Option FsckState) (fix : Bool) :
    ℕ → FsckState → ℕ → Option FsckState
  | 0, _, _ => none
  | fuel + 1, s, cur =>
    if 2 ≤ cur ∧ cur < s.vol.bpb.maxCluster then
      match (List.range (s.vol.bpb.bytesPerCluster / 32)).foldlM
        (fun s' i =>
          walkEntry walkDir fix s.vol.disk s' (clusterAddr s.vol.bpb cur + 32 * i)) s with
      | .error res => res
      | .ok s =>
        let next := getFatEntry s.vol cur
        if next < 2 ∨ fat32Eoc ≤ next then some s else walkDirLoop walkDir fix fuel s next
    else some s

def walkDirectory (fix : Bool) : ℕ → FsckState → ℕ → Option FsckState
  | 0, _, _ => none
  | n + 1, s, dir =>
    walkDirLoop (walkDirectory fix n) fix chainFuel (walkChain fix s dir) dir

def scanLost (fix : Bool) (visited : ℕ → Bool) (st : Volume × ℕ) (cluster : ℕ) : Volume × ℕ :=
  if getFatEntry st.1 cluster ≠ fat32Free ∧ !visited cluster then
    (if fix then setFatEntry st.1 cluster fat32Free else st.1, u32 (st.2 + 1))
  else st

/-- `fat32_fsck`: the volume afterwards and the return value. -/
def fsck (n : ℕ) (v : Volume) (fix : Bool) : Option (Volume × ℤ) :=
  if !validateBpb v then some (v, -1)
  else
    let v := compareRepairFats v
    let visited : ℕ → Bool := fun c => c = 0 || c = 1
    match walkDirectory fix n ⟨v, visited, 0⟩ v.bpb.rootCluster with
    | none => none
    | some s =>
      let lost := (List.range' 2 (v.bpb.maxCluster - 2)).foldl (scanLost fix s.visited) (s.vol, 0)
      let errors := u32 (s.crossLinks + lost.2)
      some (lost.1, if !fix && 0 < errors then -1 else 0)

end ImpossibleOs.Fat32
