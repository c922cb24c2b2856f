import ImpossibleOs.Lib.Bitmap
import ImpossibleOs.Ntfs.RunList

/-!
The cluster allocator (`src/kernel/fs/ntfs/ntfs_bitmap.c`).

The bitmap in memory is what every search goes by; each change is written
through to the sectors of `$Bitmap`. The search goes round the volume once, so
a run can be found across its end when cluster 0 is free. Device I/O does not
fail.
-/

namespace ImpossibleOs.Ntfs

open ByteMem List Option

/-- The fields of `struct ntfs_volume` that reading and writing files use, and the device. -/
structure Volume where
  bytesPerSector : ℕ
  sectorsPerCluster : ℕ
  totalClusters : ℕ
  freeClusters : ℕ
  bitmapSize : ℕ
  bitmapData : ByteMem
  bitmapRuns : List DataRun
  mftZoneStart : ℕ
  mftZoneEnd : ℕ
  disk : ByteMem
  /-- What stands in memory behind a sector buffer of 512 bytes. -/
  behindBuf : ByteMem

def Volume.clusterSize (v : Volume) : ℕ := v.bytesPerSector * v.sectorsPerCluster

def ntfsOk : ℤ := 0
def ntfsErrIo : ℤ := -1

/-! ### The bitmap in memory and on disk -/

/-- The walk of `bitmap_offset_to_lba` over the runs of `$Bitmap`. -/
def bitmapOffsetFrom (v : Volume) (byteOffset : ℕ) : List DataRun → ℕ → Option (ℕ × ℕ)
  | [], _ => none
  | r :: runs, vcn =>
    if byteOffset / v.clusterSize < vcn + r.length then
      if r.lcn = lcnSparse then none
      else
        let diskByte := (r.lcn + (byteOffset / v.clusterSize - vcn)) * v.clusterSize +
          byteOffset % v.clusterSize
        some (diskByte / v.bytesPerSector, diskByte % v.bytesPerSector)
    else bitmapOffsetFrom v byteOffset runs (vcn + r.length)

def bitmapOffsetToLba (v : Volume) (byteOffset : ℕ) : Option (ℕ × ℕ) :=
  bitmapOffsetFrom v byteOffset v.bitmapRuns 0

/-- A sector as it is written: 512 bytes of the bitmap from `start` on, and what stands behind
that buffer where the device has larger sectors. -/
def sectorBuf (v : Volume) (start : ℕ) : List UInt8 :=
  (List.range v.bytesPerSector).map fun ci =>
    if ci < 512 then (if start + ci < v.bitmapSize then v.bitmapData (start + ci) else 0)
    else v.behindBuf (ci - 512)

def writeSector (v : Volume) (lba start : ℕ) : Volume :=
  { v with disk := storeBytes v.disk (lba * v.bytesPerSector) (sectorBuf v start) }

def flushSector (v : Volume) (byteOff : ℕ) : Volume :=
  match bitmapOffsetToLba v byteOff with
  | some (lba, off) => writeSector v lba (byteOff - off)
  | none => v

def setBit (v : Volume) (cluster : ℕ) (set : Bool) : Volume :=
  { v with bitmapData :=
      if set then Bitmap.set v.bitmapData cluster else Bitmap.clear v.bitmapData cluster }

/-- The loop of `bitmap_set_range`; `cur` is the sector that waits to be written. An error leaves
the volume as it is then. -/
def setRangeFrom (set : Bool) : ℕ → ℕ → Option ℕ → Volume → Except Volume (Volume × Option ℕ)
  | 0, _, cur, v => .ok (v, cur)
  | count + 1, cluster, cur, v =>
    if v.bitmapSize ≤ cluster / 8 then .error v
    else
      let v := setBit v cluster set
      match bitmapOffsetToLba v (cluster / 8) with
      | none => .error v
      | some (lba, _) =>
        if cur = some lba then setRangeFrom set count (cluster + 1) cur v
        else
          let v := if cur.isSome then flushSector v ((cluster - 1) / 8) else v
          setRangeFrom set count (cluster + 1) (some lba) v

/-- `bitmap_set_range`, and whether it succeeds. -/
def bitmapSetRange (v : Volume) (lcn count : ℕ) (set : Bool) : Volume × Bool :=
  match setRangeFrom set count lcn none v with
  | .error v => (v, false)
  | .ok (v, none) => (v, true)
  | .ok (v, some _) => (flushSector v ((lcn + count - 1) / 8), true)

/-! ### Allocator -/

def inMftZone (v : Volume) (lcn : ℕ) : Bool := v.mftZoneStart ≤ lcn ∧ lcn < v.mftZoneEnd

/-- The end of the volume is followed by its start. -/
def wrapLcn (v : Volume) (lcn : ℕ) : ℕ := if v.totalClusters ≤ lcn then 0 else lcn

/-- The loop of `find_contiguous_free` with `left` clusters still to look at. -/
def findFrom (v : Volume) (count : ℕ) (skipMftZone : Bool) : ℕ → ℕ → ℕ → ℕ → ℕ
  | 0, _, _, _ => 0
  | left + 1, lcn, runStart, runLen =>
    if skipMftZone && inMftZone v lcn then
      findFrom v count skipMftZone left (wrapLcn v v.mftZoneEnd) runStart 0
    else if v.bitmapSize ≤ lcn / 8 then 0
    else if Bitmap.test v.bitmapData lcn then
      findFrom v count skipMftZone left (wrapLcn v (lcn + 1)) runStart 0
    else
      let runStart := if runLen = 0 then lcn else runStart
      if count ≤ runLen + 1 then runStart
      else findFrom v count skipMftZone left (wrapLcn v (lcn + 1)) runStart (runLen + 1)

def findContiguousFree (v : Volume) (count startLcn : ℕ) (skipMftZone : Bool) : ℕ :=
  findFrom v count skipMftZone v.totalClusters (wrapLcn v startLcn) 0 0

/-- The three searches of `ntfs_alloc_clusters`: near the hint, from the start, and in the zone
kept for the MFT. -/
def searchClusters (v : Volume) (count hintLcn : ℕ) : ℕ :=
  let near := findContiguousFree v count hintLcn true
  let start := findContiguousFree v count 0 true
  if near ≠ 0 then near
  else if hintLcn ≠ 0 ∧ start ≠ 0 then start
  else findContiguousFree v count 0 false

/-- `ntfs_alloc_clusters`; cluster 0 stands for failure. -/
def allocClusters (v : Volume) (count hintLcn : ℕ) : Volume × ℕ :=
  if count = 0 then (v, 0)
  else
    let lcn := searchClusters v count hintLcn
    if lcn = 0 then (v, 0)
    else
      match bitmapSetRange v lcn count true with
      | (v', true) =>
        ({ v' with freeClusters := (v'.freeClusters + 2 ^ 64 - count) % 2 ^ 64 }, lcn)
      | (v', false) => (v', 0)

/-- `ntfs_free_clusters` -/
def freeClusters (v : Volume) (lcn count : ℕ) : Volume × ℤ :=
  if count = 0 then (v, ntfsErrIo)
  else if v.totalClusters < (lcn + count) % 2 ^ 64 then (v, ntfsErrIo)
  else
    match bitmapSetRange v lcn count false with
    | (v', true) => ({ v' with freeClusters := (v'.freeClusters + count) % 2 ^ 64 }, ntfsOk)
    | (v', false) => (v', ntfsErrIo)

/-! ### Where the bitmap is on disk -/

variable {v : Volume} {b : ℕ}

def bitmapAddr (v : Volume) (b : ℕ) : ℕ :=
  (((clusters v.bitmapRuns).getD (b / v.clusterSize) none).getD 0) * v.clusterSize +
    b % v.clusterSize

theorem bitmapOffsetFrom_eq (v : Volume) (b : ℕ) (runs : List DataRun) (vcn : ℕ)
    (h : vcn ≤ b / v.clusterSize) :
    bitmapOffsetFrom v b runs vcn =
      ((clusters runs).getD (b / v.clusterSize - vcn) none).map fun c =>
        ((c * v.clusterSize + b % v.clusterSize) / v.bytesPerSector,
          (c * v.clusterSize + b % v.clusterSize) % v.bytesPerSector) := by
  induction runs generalizing vcn with
  | nil => simp [bitmapOffsetFrom, clusters]
  | cons r runs ih =>
    rw [bitmapOffsetFrom, clusters]
    split
    · rename_i hlt
      have hk : b / v.clusterSize - vcn < r.length := by omega
      rw [getD_append _ _ _ _ (by simpa using hk),
        getD_eq_getElem _ _ (by simpa using hk)]
      simp only [getElem_map, getElem_range]
      split <;> rfl
    · rename_i hge
      rw [ih (vcn + r.length) (by omega), getD_append_right _ _ _ _ (by simp; omega)]
      simp only [length_map, length_range, Nat.sub_sub]

/-- A volume with the geometry that a mount accepts, whose `$Bitmap` has a bit and a place on disk
for every cluster, and whose boot sector's cluster is in use. -/
structure Volume.Sound (v : Volume) : Prop where
  sector : 0 < v.bytesPerSector
  cluster : 0 < v.sectorsPerCluster
  covered : v.totalClusters ≤ 8 * v.bitmapSize
  small : v.totalClusters < 2 ^ 64
  boot : Bitmap.test v.bitmapData 0 = true
  mapped : ∀ b < v.bitmapSize,
    ((clusters v.bitmapRuns).getD (b / v.clusterSize) none).isSome = true

theorem Volume.Sound.clusterSize_pos (h : v.Sound) : 0 < v.clusterSize :=
  Nat.mul_pos h.sector h.cluster

theorem bitmapOffsetToLba_eq
    (h : ((clusters v.bitmapRuns).getD (b / v.clusterSize) none).isSome = true) :
    bitmapOffsetToLba v b =
      some (bitmapAddr v b / v.bytesPerSector, bitmapAddr v b % v.bytesPerSector) := by
  obtain ⟨c, hc⟩ := isSome_iff_exists.mp h
  rw [bitmapOffsetToLba, bitmapOffsetFrom_eq v b _ 0 (Nat.zero_le _), bitmapAddr, Nat.sub_zero, hc]
  rfl

theorem bitmapAddr_mod (v : Volume) (b : ℕ) :
    bitmapAddr v b % v.bytesPerSector = b % v.bytesPerSector := by
  rw [bitmapAddr, Volume.clusterSize, Nat.mul_left_comm, Nat.mul_add_mod, Nat.mod_mul_right_mod]

theorem bitmapAddr_div (v : Volume) (hv : 0 < v.clusterSize) (b : ℕ) :
    bitmapAddr v b / v.bytesPerSector / v.sectorsPerCluster =
      ((clusters v.bitmapRuns).getD (b / v.clusterSize) none).getD 0 := by
  rw [Nat.div_div_eq_div_mul, ← Volume.clusterSize, bitmapAddr, Nat.mul_comm, Nat.mul_add_div hv,
    Nat.div_eq_of_lt (Nat.mod_lt _ hv), Nat.add_zero]

theorem bitmapAddr_sector (v : Volume) (b : ℕ) :
    bitmapAddr v b / v.bytesPerSector % v.sectorsPerCluster =
      b / v.bytesPerSector % v.sectorsPerCluster := by
  rw [← Nat.mod_mul_right_div_self, ← Nat.mod_mul_right_div_self, ← Volume.clusterSize, bitmapAddr,
    Nat.mul_comm, Nat.mul_add_mod, Nat.mod_mod]

/-- The sectors are not larger than the buffer, and no two clusters of `$Bitmap` are one. -/
structure Volume.WritesThrough (v : Volume) : Prop where
  narrow : v.bytesPerSector ≤ 512
  distinct : ∀ i j, ((clusters v.bitmapRuns).getD i none).isSome = true →
    (clusters v.bitmapRuns).getD i none = (clusters v.bitmapRuns).getD j none → i = j

/-- The bitmap on disk is that in memory. -/
structure Volume.Mirrored (v : Volume) : Prop extends v.WritesThrough where
  same : ∀ b < v.bitmapSize, v.disk (bitmapAddr v b) = v.bitmapData b

theorem sector_eq {p : ℕ} (hv : 0 < v.clusterSize)
    (hb : ((clusters v.bitmapRuns).getD (b / v.clusterSize) none).isSome = true)
    (hp : ((clusters v.bitmapRuns).getD (p / v.clusterSize) none).isSome = true)
    (hw : v.WritesThrough)
    (h : bitmapAddr v b / v.bytesPerSector = bitmapAddr v p / v.bytesPerSector) :
    b / v.bytesPerSector = p / v.bytesPerSector := by
  have hcluster : b / v.clusterSize = p / v.clusterSize := by
    apply hw.distinct _ _ hb
    obtain ⟨cb, hcb⟩ := isSome_iff_exists.mp hb
    obtain ⟨cp, hcp⟩ := isSome_iff_exists.mp hp
    have hdiv := congrArg (· / v.sectorsPerCluster) h
    simp only [bitmapAddr_div v hv, hcb, hcp, getD_some] at hdiv
    rw [hcb, hcp, hdiv]
  have hmod := congrArg (· % v.sectorsPerCluster) h
  simp only [bitmapAddr_sector] at hmod
  rw [Volume.clusterSize, ← Nat.div_div_eq_div_mul, ← Nat.div_div_eq_div_mul] at hcluster
  rw [← Nat.div_add_mod (b / v.bytesPerSector) v.sectorsPerCluster, hcluster, hmod,
    Nat.div_add_mod]

/-! ### Writing the bitmap -/

def Volume.withBits (v : Volume) (bitmap disk : ByteMem) : Volume :=
  { v with bitmapData := bitmap, disk := disk }

/-- Nothing on disk changes outside the clusters of `$Bitmap`. -/
def BitmapFrame (v : Volume) (disk : ByteMem) : Prop :=
  ∀ x, some (x / v.clusterSize) ∉ clusters v.bitmapRuns → disk x = v.disk x

theorem getD_mem {l : List (Option ℕ)} {i c : ℕ} (h : l.getD i none = some c) : some c ∈ l := by
  rw [getD_eq_getElem?_getD] at h
  cases hi : l[i]? with
  | none =>
    rw [hi] at h
    cases h
  | some o =>
    rw [hi, getD_some] at h
    exact h ▸ mem_of_getElem? hi

theorem flushSector_spec {p : ℕ} (hv : 0 < v.clusterSize)
    (hp : ((clusters v.bitmapRuns).getD (p / v.clusterSize) none).isSome = true) :
    ∃ disk, flushSector v p = v.withBits v.bitmapData disk ∧ BitmapFrame v disk ∧
      (∀ x, x / v.bytesPerSector ≠ bitmapAddr v p / v.bytesPerSector → disk x = v.disk x) ∧
      (v.bytesPerSector ≤ 512 → ∀ b < v.bitmapSize, b / v.bytesPerSector = p / v.bytesPerSector →
        bitmapAddr v b / v.bytesPerSector = bitmapAddr v p / v.bytesPerSector →
          disk (bitmapAddr v b) = v.bitmapData b) := by
  have hbps : 0 < v.bytesPerSector := Nat.pos_of_mul_pos_right hv
  have hout : ∀ x, x / v.bytesPerSector ≠ bitmapAddr v p / v.bytesPerSector →
      storeBytes v.disk (bitmapAddr v p / v.bytesPerSector * v.bytesPerSector)
        (sectorBuf v (p - bitmapAddr v p % v.bytesPerSector)) x = v.disk x := by
    intro x hx
    unfold storeBytes
    rw [if_neg]
    rintro ⟨hlo, hhi⟩
    apply hx
    rw [sectorBuf, length_map, length_range] at hhi
    apply Nat.div_eq_of_lt_le hlo
    rw [Nat.succ_mul]
    exact hhi
  refine ⟨_, ?_, ?_, hout, ?_⟩
  · rw [flushSector, bitmapOffsetToLba_eq hp]
    rfl
  · intro x hx
    apply hout
    intro heq
    apply hx
    obtain ⟨c, hc⟩ := isSome_iff_exists.mp hp
    have hdiv := bitmapAddr_div v hv p
    rw [← heq, Nat.div_div_eq_div_mul, ← Volume.clusterSize, hc, getD_some] at hdiv
    rw [hdiv]
    exact getD_mem hc
  · intro hnarrow b hb hsector haddr
    have hmod := bitmapAddr_mod v b
    have hlt : bitmapAddr v b % v.bytesPerSector < v.bytesPerSector := Nat.mod_lt _ hbps
    have hplace : bitmapAddr v b =
        bitmapAddr v p / v.bytesPerSector * v.bytesPerSector + b % v.bytesPerSector := by
      rw [← haddr, ← hmod, Nat.mul_comm, Nat.div_add_mod]
    have hstart : p - bitmapAddr v p % v.bytesPerSector + b % v.bytesPerSector = b := by
      have hpb := Nat.div_add_mod p v.bytesPerSector
      have hbb := Nat.div_add_mod b v.bytesPerSector
      rw [hsector] at hbb
      rw [bitmapAddr_mod]
      omega
    have hlen :
        (sectorBuf v (p - bitmapAddr v p % v.bytesPerSector)).length = v.bytesPerSector := by
      simp [sectorBuf]
    unfold storeBytes
    rw [if_pos (by omega), hplace, Nat.add_sub_cancel_left,
      getD_eq_getElem _ _ (by rw [hlen]; omega)]
    simp only [sectorBuf, getElem_map, getElem_range, hstart]
    rw [if_pos (by omega), if_pos hb]

/-- The sector `cur` waits to be written; all others are as in memory. -/
structure Pending (v : Volume) (cluster : ℕ) (cur : Option ℕ) : Prop where
  last : ∀ lba, cur = some lba → 0 < cluster ∧ (cluster - 1) / 8 < v.bitmapSize ∧
    lba = bitmapAddr v ((cluster - 1) / 8) / v.bytesPerSector
  same : ∀ b < v.bitmapSize, cur ≠ some (bitmapAddr v b / v.bytesPerSector) →
    v.disk (bitmapAddr v b) = v.bitmapData b

variable {cluster count lcn hint : ℕ} {cur : Option ℕ} {set : Bool}

theorem setBit_other {x : ℕ} (h : x ≠ cluster / 8) :
    (setBit v cluster set).bitmapData x = v.bitmapData x := by
  cases set with
  | true => exact if_neg h
  | false => exact if_neg h

theorem test_setBit (v : Volume) (cluster : ℕ) (set : Bool) (c : ℕ) :
    Bitmap.test (setBit v cluster set).bitmapData c =
      if c = cluster then set else Bitmap.test v.bitmapData c := by
  cases set with
  | true =>
    rw [setBit, if_pos rfl, Bitmap.test_set]
    by_cases hc : c = cluster <;> simp [hc]
  | false =>
    rw [setBit, if_neg (by simp), Bitmap.test_clear]
    by_cases hc : c = cluster <;> simp [hc]

theorem Pending.same_sector {lba : ℕ} (h : Pending v cluster (some lba))
    (hb : cluster / 8 < v.bitmapSize) (hlba : lba = bitmapAddr v (cluster / 8) / v.bytesPerSector) :
    Pending (setBit v cluster set) (cluster + 1) (some lba) := by
  refine ⟨?_, ?_⟩
  · rintro _ ⟨⟩
    exact ⟨Nat.succ_pos _, hb, hlba⟩
  · intro b hlt hne
    have hother : b ≠ cluster / 8 := by
      rintro rfl
      exact hne (by rw [hlba]; rfl)
    rw [setBit_other hother]
    exact h.same b hlt hne

theorem Pending.next_sector {disk : ByteMem} {lba : ℕ} (h : Pending v cluster cur)
    (hb : cluster / 8 < v.bitmapSize) (hlba : lba = bitmapAddr v (cluster / 8) / v.bytesPerSector)
    (hflush : ∀ b < v.bitmapSize, cur = some (bitmapAddr v b / v.bytesPerSector) →
      disk (bitmapAddr v b) = (setBit v cluster set).bitmapData b)
    (hkeep : ∀ b < v.bitmapSize, cur ≠ some (bitmapAddr v b / v.bytesPerSector) →
      disk (bitmapAddr v b) = v.disk (bitmapAddr v b)) :
    Pending (v.withBits (setBit v cluster set).bitmapData disk) (cluster + 1) (some lba) := by
  refine ⟨?_, ?_⟩
  · rintro _ ⟨⟩
    exact ⟨Nat.succ_pos _, hb, hlba⟩
  · intro b hlt hne
    change disk (bitmapAddr v b) = (setBit v cluster set).bitmapData b
    by_cases hcur : cur = some (bitmapAddr v b / v.bytesPerSector)
    · exact hflush b hlt hcur
    · have hother : b ≠ cluster / 8 := by
        rintro rfl
        exact hne (by rw [hlba]; rfl)
      rw [hkeep b hlt hcur, setBit_other hother]
      exact h.same b hlt hcur

theorem setRangeFrom_spec (hv : 0 < v.clusterSize) (hroom : cluster + count ≤ 8 * v.bitmapSize)
    (hmap : ∀ b < v.bitmapSize,
      ((clusters v.bitmapRuns).getD (b / v.clusterSize) none).isSome = true)
    (hcur : cur.isSome = true → (cluster - 1) / 8 < v.bitmapSize) :
    ∃ bitmap disk cur', setRangeFrom set count cluster cur v = .ok (v.withBits bitmap disk, cur') ∧
      (cur' = none → cur = none ∧ count = 0) ∧
      (∀ c, Bitmap.test bitmap c =
        if cluster ≤ c ∧ c < cluster + count then set else Bitmap.test v.bitmapData c) ∧
      BitmapFrame v disk ∧
      (v.WritesThrough → Pending v cluster cur →
        Pending (v.withBits bitmap disk) (cluster + count) cur') := by
  induction count generalizing v cluster cur with
  | zero =>
    refine ⟨v.bitmapData, v.disk, cur, rfl, fun h => ⟨h, rfl⟩, fun c => ?_, fun _ _ => rfl,
      fun _ h => h⟩
    rw [if_neg (by omega)]
  | succ count ih =>
    have hb : cluster / 8 < v.bitmapSize := by omega
    have hlba := @bitmapOffsetToLba_eq (setBit v cluster set) (cluster / 8) (hmap _ hb)
    -- the rest of the loop starts from the volume with the new bit, its disk perhaps flushed
    have hrest : ∀ disk, BitmapFrame v disk → ∀ lba,
        (v.WritesThrough → Pending v cluster cur →
          Pending (v.withBits (setBit v cluster set).bitmapData disk) (cluster + 1) (some lba)) →
        ∃ bitmap' disk' cur', setRangeFrom set count (cluster + 1) (some lba)
            (v.withBits (setBit v cluster set).bitmapData disk) =
            .ok (v.withBits bitmap' disk', cur') ∧
          (cur' = none → cur = none ∧ count + 1 = 0) ∧
          (∀ c, Bitmap.test bitmap' c = if cluster ≤ c ∧ c < cluster + (count + 1) then set
            else Bitmap.test v.bitmapData c) ∧
          BitmapFrame v disk' ∧
          (v.WritesThrough → Pending v cluster cur →
            Pending (v.withBits bitmap' disk') (cluster + (count + 1)) cur') := by
      intro disk hframe lba hpend
      obtain ⟨bitmap', disk', cur', heq, hcur', htest, hframe', hpend'⟩ :=
        @ih (v.withBits (setBit v cluster set).bitmapData disk) (cluster + 1) (some lba) hv
          (by dsimp only [Volume.withBits]; omega) hmap (fun _ => hb)
      refine ⟨bitmap', disk', cur', heq, ?_, fun c => ?_, ?_, ?_⟩
      · intro hnone
        cases (hcur' hnone).1
      · rw [htest, Volume.withBits, test_setBit]
        split_ifs <;> first | rfl | omega
      · intro x hx
        exact (hframe' x hx).trans (hframe x hx)
      · intro hw h
        rw [show cluster + (count + 1) = cluster + 1 + count by omega]
        exact hpend' ⟨hw.narrow, hw.distinct⟩ (hpend hw h)
    rw [setRangeFrom, if_neg (by omega)]
    dsimp only
    rw [hlba]
    dsimp only
    split
    · rename_i hsame
      subst hsame
      exact hrest v.disk (fun _ _ => rfl) _ fun _ h => h.same_sector hb rfl
    · rename_i hnext
      cases cur with
      | none =>
        refine hrest v.disk (fun _ _ => rfl) _ fun _ h => ?_
        exact h.next_sector hb rfl (fun _ _ hcur => nomatch hcur) fun _ _ _ => rfl
      | some lba₀ =>
        have hp := hmap _ (hcur rfl)
        obtain ⟨disk, hflush, hframe, hout, hin⟩ := @flushSector_spec
          (setBit v cluster set) ((cluster - 1) / 8) hv hp
        rw [isSome_some, if_pos rfl, hflush]
        refine hrest disk hframe _ fun hw h => ?_
        have hlast := (h.last lba₀ rfl).2.2
        apply h.next_sector hb rfl
        · intro b hlt hcur
          have hsector : bitmapAddr v b / v.bytesPerSector =
              bitmapAddr v ((cluster - 1) / 8) / v.bytesPerSector := by
            rw [← hlast]
            exact (some.inj hcur).symm
          exact hin hw.narrow b hlt (@sector_eq v b _ hv (hmap b hlt) hp hw hsector) hsector
        · intro b hlt hcur
          apply hout
          intro hsector
          exact hcur (by rw [hlast]; exact congrArg some hsector.symm)

theorem bitmapSetRange_spec (set : Bool) (hv : v.Sound) (hcount : 0 < count)
    (h : lcn + count ≤ 8 * v.bitmapSize) :
    ∃ bitmap disk, bitmapSetRange v lcn count set = (v.withBits bitmap disk, true) ∧
      (∀ c, Bitmap.test bitmap c =
        if lcn ≤ c ∧ c < lcn + count then set else Bitmap.test v.bitmapData c) ∧
      BitmapFrame v disk ∧ (v.Mirrored → (v.withBits bitmap disk).Mirrored) := by
  obtain ⟨bitmap, disk, cur, heq, hcur, htest, hframe, hpend⟩ :=
    @setRangeFrom_spec v lcn count none set hv.clusterSize_pos h hv.mapped nofun
  cases cur with
  | none => exact absurd (hcur rfl).2 (by omega)
  | some lba =>
    have hlast : (lcn + count - 1) / 8 < v.bitmapSize := by omega
    obtain ⟨disk', hflush, hframe', hout, hin⟩ := @flushSector_spec
      (v.withBits bitmap disk) ((lcn + count - 1) / 8) hv.clusterSize_pos (hv.mapped _ hlast)
    refine ⟨bitmap, disk', ?_, htest, fun x hx => (hframe' x hx).trans (hframe x hx), ?_⟩
    · rw [bitmapSetRange, heq]
      exact congrArg (·, true) hflush
    · intro hm
      have hp := hpend hm.toWritesThrough ⟨nofun, fun b hlt _ => hm.same b hlt⟩
      refine ⟨⟨hm.narrow, hm.distinct⟩, fun b hlt => ?_⟩
      have hlba := (hp.last lba rfl).2.2
      by_cases hsector : bitmapAddr v b / v.bytesPerSector =
          bitmapAddr v ((lcn + count - 1) / 8) / v.bytesPerSector
      · exact hin hm.narrow b hlt
          (@sector_eq v b _ hv.clusterSize_pos (hv.mapped b hlt) (hv.mapped _ hlast)
            hm.toWritesThrough hsector) hsector
      · refine (hout _ hsector).trans (hp.same b hlt ?_)
        intro hcur'
        exact hsector ((some.inj hcur').symm.trans hlba)

/-! ### Searching -/

def FreeRun (v : Volume) (lcn count : ℕ) : Prop :=
  lcn + count ≤ v.totalClusters ∧
    ∀ c, lcn ≤ c → c < lcn + count → Bitmap.test v.bitmapData c = false

theorem wrapLcn_spec (v : Volume) (lcn : ℕ) :
    (wrapLcn v lcn = 0) ∨ (wrapLcn v lcn = lcn ∧ lcn < v.totalClusters) := by
  rw [wrapLcn]
  split
  · exact .inl rfl
  · exact .inr ⟨rfl, by omega⟩

theorem findFrom_free {skip : Bool} (hboot : Bitmap.test v.bitmapData 0 = true)
    {left runStart runLen : ℕ} (hinv : lcn = 0 ∨ (lcn < v.totalClusters ∧ (runLen = 0 ∨
      (runStart + runLen = lcn ∧
        ∀ c, runStart ≤ c → c < lcn → Bitmap.test v.bitmapData c = false))))
    (h : findFrom v count skip left lcn runStart runLen ≠ 0) :
    FreeRun v (findFrom v count skip left lcn runStart runLen) count := by
  induction left generalizing lcn runStart runLen with
  | zero => exact absurd rfl h
  | succ left ih =>
    rw [findFrom] at h ⊢
    have hwrap : ∀ next, wrapLcn v next = 0 ∨ (wrapLcn v next < v.totalClusters ∧ (0 = 0 ∨
        (runStart + 0 = wrapLcn v next ∧ ∀ c, runStart ≤ c → c < wrapLcn v next →
          Bitmap.test v.bitmapData c = false))) := by
      intro next
      rcases wrapLcn_spec v next with hw | ⟨hw, hlt⟩
      · exact .inl hw
      · exact .inr ⟨by omega, .inl rfl⟩
    split at h
    · rw [if_pos ‹_›]
      exact ih (hwrap _) h
    rw [if_neg ‹_›]
    split at h
    · exact absurd rfl h
    rw [if_neg ‹_›]
    split at h
    · rw [if_pos ‹_›]
      exact ih (hwrap _) h
    rename_i hset
    rw [if_neg hset]
    have hfree : Bitmap.test v.bitmapData lcn = false := by simpa using hset
    have hlt : lcn < v.totalClusters ∧ (runLen = 0 ∨ (runStart + runLen = lcn ∧
        ∀ c, runStart ≤ c → c < lcn → Bitmap.test v.bitmapData c = false)) := by
      rcases hinv with rfl | hinv
      · exact absurd hboot hset
      · exact hinv
    obtain ⟨hlcn, hrun⟩ := hlt
    have hgrown : (if runLen = 0 then lcn else runStart) + (runLen + 1) = lcn + 1 ∧
        ∀ c, (if runLen = 0 then lcn else runStart) ≤ c → c < lcn + 1 →
          Bitmap.test v.bitmapData c = false := by
      rcases hrun with rfl | ⟨hstart, hclear⟩
      · refine ⟨by simp, fun c hlo hhi => ?_⟩
        obtain rfl : c = lcn := by simp at hlo; omega
        exact hfree
      · refine ⟨by split <;> omega, fun c hlo hhi => ?_⟩
        rcases eq_or_ne c lcn with rfl | hne
        · exact hfree
        · apply hclear c _ (by omega)
          split at hlo <;> omega
    dsimp only at h ⊢
    split at h
    · rw [if_pos ‹_›]
      exact ⟨by omega, fun c hlo hhi => hgrown.2 c hlo (by omega)⟩
    · rw [if_neg ‹_›]
      refine ih ?_ h
      rcases wrapLcn_spec v (lcn + 1) with hw | ⟨hw, hlt⟩
      · exact .inl hw
      · rw [hw]
        exact .inr ⟨hlt, .inr hgrown⟩

theorem findContiguousFree_free {skip : Bool} (hboot : Bitmap.test v.bitmapData 0 = true)
    {start : ℕ} (h : findContiguousFree v count start skip ≠ 0) :
    FreeRun v (findContiguousFree v count start skip) count := by
  refine findFrom_free hboot ?_ h
  rcases wrapLcn_spec v start with hw | ⟨hw, hlt⟩
  · exact .inl hw
  · exact .inr ⟨by omega, .inl rfl⟩

theorem searchClusters_free (hboot : Bitmap.test v.bitmapData 0 = true)
    (h : searchClusters v count hint ≠ 0) : FreeRun v (searchClusters v count hint) count := by
  unfold searchClusters at *
  dsimp only at *
  split at h
  · rw [if_pos ‹_›]
    exact findContiguousFree_free hboot h
  rw [if_neg ‹_›]
  split at h
  · rw [if_pos ‹_›]
    exact findContiguousFree_free hboot h
  · rw [if_neg ‹_›]
    exact findContiguousFree_free hboot h

def Volume.withFree (v : Volume) (free : ℕ) : Volume := { v with freeClusters := free }

theorem Volume.Mirrored.withFree (h : v.Mirrored) (free : ℕ) : (v.withFree free).Mirrored where
  narrow := h.narrow
  distinct := h.distinct
  same := h.same

theorem allocClusters_spec (hv : v.Sound) (h : (allocClusters v count hint).2 ≠ 0) :
    ∃ bitmap disk free, allocClusters v count hint =
        ((v.withBits bitmap disk).withFree free, (allocClusters v count hint).2) ∧
      free = (v.freeClusters + 2 ^ 64 - count) % 2 ^ 64 ∧
      0 < count ∧ FreeRun v (allocClusters v count hint).2 count ∧
      (∀ c, Bitmap.test bitmap c =
        if (allocClusters v count hint).2 ≤ c ∧ c < (allocClusters v count hint).2 + count
        then true else Bitmap.test v.bitmapData c) ∧
      BitmapFrame v disk ∧ (v.Mirrored → (v.withBits bitmap disk).Mirrored) := by
  have hcount : count ≠ 0 := by
    rintro rfl
    exact h rfl
  have hlcn : searchClusters v count hint ≠ 0 := by
    intro hzero
    apply h
    simp [allocClusters, hcount, hzero]
  have hfree := searchClusters_free hv.boot hlcn
  obtain ⟨bitmap, disk, heq, htest, hframe, hmirror⟩ :=
    bitmapSetRange_spec true hv (Nat.pos_of_ne_zero hcount) (hfree.1.trans hv.covered)
  have halloc : allocClusters v count hint =
      ((v.withBits bitmap disk).withFree ((v.freeClusters + 2 ^ 64 - count) % 2 ^ 64),
        searchClusters v count hint) := by
    rw [allocClusters, if_neg hcount, if_neg hlcn, heq]
    rfl
  rw [halloc]
  exact ⟨bitmap, disk, _, rfl, rfl, Nat.pos_of_ne_zero hcount, hfree, htest, hframe, hmirror⟩

theorem freeClusters_spec (hv : v.Sound) (hcount : 0 < count) (h : lcn + count ≤ v.totalClusters) :
    ∃ bitmap disk free, freeClusters v lcn count =
        ((v.withBits bitmap disk).withFree free, ntfsOk) ∧
      free = (v.freeClusters + count) % 2 ^ 64 ∧
      (∀ c, Bitmap.test bitmap c =
        if lcn ≤ c ∧ c < lcn + count then false else Bitmap.test v.bitmapData c) ∧
      BitmapFrame v disk ∧ (v.Mirrored → (v.withBits bitmap disk).Mirrored) := by
  have hmod : (lcn + count) % 2 ^ 64 = lcn + count := by
    have := hv.small
    omega
  obtain ⟨bitmap, disk, heq, htest, hframe, hmirror⟩ :=
    bitmapSetRange_spec false hv hcount (h.trans hv.covered)
  refine ⟨bitmap, disk, _, ?_, rfl, htest, hframe, hmirror⟩
  rw [freeClusters, if_neg (by omega), hmod, if_neg (by omega), heq]
  rfl

end ImpossibleOs.Ntfs
