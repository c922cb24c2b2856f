import ImpossibleOs.Fat32.Table

/-!
A new cluster linked behind a chain, a chain that is freed, and how far a read of a file
(`src/kernel/fs/fat32/fat32_ops.c`) follows one.

The open file caches its first cluster and size. Device I/O and buffers do not fail. A read turns
once for each byte at most, so its walk along the FAT ends.
-/

namespace ImpossibleOs.Fat32

open ByteMem List

/-- The fields of `struct fat32_file` that a read uses. -/
structure FatFile where
  firstCluster : ℕ
  fileSize : ℕ

structure FileState where
  vol : Volume
  file : FatFile

def nextCluster (v : Volume) (cluster : ℕ) : ℕ := getFatEntry v cluster

def skipRead (v : Volume) : ℕ → ℕ → ℕ
  | 0, cluster => cluster
  | s + 1, cluster =>
    if cluster < fat32Eoc then skipRead v s (nextCluster v cluster) else cluster

/-- The copy loop, with `remaining` bytes to go. Every turn copies at least one. -/
def readLoop (v : Volume) : ℕ → ℕ → ℕ → ℕ → List UInt8
  | 0, _, _, _ => []
  | fuel + 1, cluster, clusterOffset, remaining =>
    if 0 < remaining ∧ cluster < fat32Eoc ∧ cluster ≠ fat32Free then
      let toRead := min (v.bpb.bytesPerCluster - clusterOffset) remaining
      bytes v.disk (clusterAddr v.bpb cluster + clusterOffset) toRead ++
        readLoop v fuel (nextCluster v cluster) 0 (remaining - toRead)
    else []

/-- `fat32_file_read`: the bytes that arrive in the buffer. -/
def fileRead (s : FileState) (offset size : ℕ) : List UInt8 :=
  if s.file.fileSize ≤ offset then []
  else
    let size :=
      if s.file.fileSize < u32 (offset + size) then s.file.fileSize - offset else size
    let bpc := s.vol.bpb.bytesPerCluster
    readLoop s.vol size (skipRead s.vol (offset / bpc) s.file.firstCluster) (offset % bpc) size

variable {v v' v'' : Volume} {l l' l'' : List ℕ} {first : ℕ}

theorem allocZeroed_spec {w : Volume} {new : ℕ} (hok : v.bpb.Ok)
    (halloc : allocCluster v = (w, new)) (hne : new ≠ 0) :
    v.bpb.InRange new ∧ getFatEntry v new = fat32Free ∧ (zeroCluster w new).bpb = v.bpb ∧
      getFatEntry (zeroCluster w new) new = eocMark ∧
      (∀ d < v.bpb.maxCluster, d ≠ new → getFatEntry (zeroCluster w new) d = getFatEntry v d) ∧
      (∀ x, v.bpb.firstDataSector * 512 ≤ x → ¬ InCluster v.bpb new x →
        (zeroCluster w new).disk x = v.disk x) ∧
      ∀ x, InCluster v.bpb new x → (zeroCluster w new).disk x = 0 := by
  obtain ⟨hpick, hb, heoc, hfat, hdata⟩ := allocCluster_spec hok halloc hne
  obtain ⟨hrnew, hfree⟩ := pickFree_some hpick
  have hokw : w.bpb.Ok := hb ▸ hok
  have hrw : w.bpb.InRange new := hb ▸ hrnew
  refine ⟨hrnew, hfree, hb, ?_, ?_, ?_, ?_⟩
  · rw [getFatEntry_zeroCluster hokw hrw hrw.2, heoc]
  · intro d hd hdn
    rw [getFatEntry_zeroCluster hokw hrw (by rw [hb]; exact hd), hfat d hd hdn]
  · intro x hx hn
    rw [zeroCluster_of_not_mem (by rw [hb]; exact hn), hdata x hx]
  · intro x hin
    exact zeroCluster_of_mem (by rw [hb]; exact hin)

theorem freeChain_spec {c fuel : ℕ} (hok : v.bpb.Ok) (h : IsChain v c l) (hfuel : l.length < fuel) :
    ∃ v', freeChain v c fuel = some v' ∧ v'.bpb = v.bpb ∧
      (∀ d < v.bpb.maxCluster, d ∉ l → getFatEntry v' d = getFatEntry v d) ∧
      ∀ x, v.bpb.firstDataSector * 512 ≤ x → v'.disk x = v.disk x := by
  induction l generalizing v c fuel with
  | nil =>
    cases fuel with
    | zero => omega
    | succ fuel =>
      have hstop : ¬ (2 ≤ c ∧ c < fat32Eoc ∧ c ≠ fat32Free) := by
        have heoc : fat32Eoc ≤ c := h
        omega
      rw [freeChain, if_neg hstop]
      exact ⟨v, rfl, rfl, fun _ _ _ => rfl, fun _ _ => rfl⟩
  | cons d l ih =>
    have hnodup := h.nodup hok
    obtain ⟨rfl, hr, hl⟩ := h
    rw [nodup_cons] at hnodup
    cases fuel with
    | zero => omega
    | succ fuel =>
      have hgo : 2 ≤ d ∧ d < fat32Eoc ∧ d ≠ fat32Free := by
        refine ⟨hr.1, hr.lt_eoc hok, ?_⟩
        rintro rfl
        exact absurd hr.1 (by decide)
      have hset : ∀ e < v.bpb.maxCluster, e ≠ d →
          getFatEntry (setFatEntry v d fat32Free) e = getFatEntry v e :=
        fun e he hne => getFatEntry_setFatEntry_other hok hr.2 he hne
      have htail : IsChain (setFatEntry v d fat32Free) (getFatEntry v d) l := by
        refine hl.congr rfl fun e he => hset e (hl.inRange e he).2 ?_
        rintro rfl
        exact hnodup.1 he
      rw [freeChain, if_pos hgo]
      simp only [length_cons] at hfuel
      have hless : l.length < fuel := by omega
      -- the free count and the hint do not matter to the FAT
      obtain ⟨v', hfree, hb, hfat, hdata⟩ := ih (v :=
        { setFatEntry v d fat32Free with
          fsinfoFreeCount :=
            if v.fsinfoFreeCount ≠ fsinfoUnknown then u32 (v.fsinfoFreeCount + 1)
            else v.fsinfoFreeCount
          fsinfoNextFree := if d < v.fsinfoNextFree then d else v.fsinfoNextFree
          fsinfoDirty := true }) (c := getFatEntry v d) hok
        (htail.congr rfl fun _ _ => rfl) hless
      refine ⟨v', hfree, hb, ?_, ?_⟩
      · intro e he hn
        rw [mem_cons, not_or] at hn
        exact (hfat e he hn.2).trans (hset e he hn.1)
      · intro x hx
        exact (hdata x hx).trans (setFatEntry_sameOutside hok _ hr.2 x (.inr hx))

/-! ### Reads -/

/-- A read that starts at `cluster` gets to the cluster `n` places on. -/
def ReadReaches (v : Volume) : ℕ → ℕ → Prop
  | 0, cluster => cluster < fat32Eoc ∧ cluster ≠ fat32Free
  | n + 1, cluster =>
    (cluster < fat32Eoc ∧ cluster ≠ fat32Free) ∧ ReadReaches v n (nextCluster v cluster)

theorem ReadReaches.live {n cluster : ℕ} (h : ReadReaches v n cluster) :
    cluster < fat32Eoc ∧ cluster ≠ fat32Free := by
  cases n with
  | zero => exact h
  | succ n => exact h.1

theorem lt_length_readLoop {fuel cluster offset remaining n : ℕ}
    (hoff : offset < v.bpb.bytesPerCluster) (hfuel : remaining ≤ fuel) :
    n < (readLoop v fuel cluster offset remaining).length ↔
      n < remaining ∧ ReadReaches v ((offset + n) / v.bpb.bytesPerCluster) cluster := by
  have hpos : 0 < v.bpb.bytesPerCluster := by omega
  induction fuel generalizing cluster offset remaining n with
  | zero =>
    simp only [readLoop, length_nil]
    omega
  | succ fuel ih =>
    rw [readLoop]
    by_cases hgo : 0 < remaining ∧ cluster < fat32Eoc ∧ cluster ≠ fat32Free
    · rw [if_pos hgo]
      dsimp only
      set here := min (v.bpb.bytesPerCluster - offset) remaining
      rw [length_append, length_bytes]
      by_cases hn : n < here
      · have hindex : (offset + n) / v.bpb.bytesPerCluster = 0 := Nat.div_eq_of_lt (by omega)
        rw [hindex]
        exact ⟨fun _ => ⟨by omega, hgo.2⟩, fun _ => by omega⟩
      · -- the byte lies behind this cluster, or behind what is asked for
        have hrest := @ih (nextCluster v cluster) 0 (remaining - here) (n - here) hpos (by omega)
        rw [Nat.zero_add] at hrest
        by_cases hlast : remaining ≤ n
        · have hshort := mt hrest.1 (fun h => by omega)
          omega
        · have hindex : (offset + n) / v.bpb.bytesPerCluster =
              (n - here) / v.bpb.bytesPerCluster + 1 := by
            rw [← Nat.add_div_right _ hpos]
            congr 1
            omega
          rw [hindex, ReadReaches]
          constructor
          · intro h
            exact ⟨by omega, hgo.2, (hrest.1 (by omega)).2⟩
          · intro h
            have hlonger := hrest.2 ⟨by omega, h.2.2⟩
            omega
    · rw [if_neg hgo]
      simp only [length_nil, Nat.not_lt_zero, false_iff, not_and]
      exact fun hn h => hgo ⟨by omega, h.live⟩

/-- What the clamp of `fat32_file_read`, on 32 bits, leaves of `size`. -/
def clampedSize (fileSize offset size : ℕ) : ℕ :=
  if fileSize < u32 (offset + size) then fileSize - offset else size

/-- The byte `n` bytes after `offset` is on the chain of the file. -/
def ByteOnChain (s : FileState) (offset n : ℕ) : Prop :=
  let bpc := s.vol.bpb.bytesPerCluster
  ReadReaches s.vol ((offset % bpc + n) / bpc) (skipRead s.vol (offset / bpc) s.file.firstCluster)

theorem lt_length_fileRead {s : FileState} {offset size n : ℕ}
    (hbpc : 0 < s.vol.bpb.bytesPerCluster) :
    n < (fileRead s offset size).length ↔ offset < s.file.fileSize ∧
      n < clampedSize s.file.fileSize offset size ∧ ByteOnChain s offset n := by
  unfold fileRead ByteOnChain
  by_cases hpast : s.file.fileSize ≤ offset
  · rw [if_pos hpast, length_nil]
    omega
  · rw [if_neg hpast]
    have hloop := @lt_length_readLoop s.vol (clampedSize s.file.fileSize offset size)
      (skipRead s.vol (offset / s.vol.bpb.bytesPerCluster) s.file.firstCluster)
      (offset % s.vol.bpb.bytesPerCluster) (clampedSize s.file.fileSize offset size) n
      (Nat.mod_lt _ hbpc) le_rfl
    exact hloop.trans ⟨fun h => ⟨by omega, h⟩, fun h => h.2⟩

/-- The `int` that `fat32_file_read` returns: the count of copied bytes. -/
def fileReadRet (s : FileState) (offset size : ℕ) : ℤ :=
  let bytesRead := (fileRead s offset size).length
  if bytesRead < 2 ^ 31 then bytesRead else bytesRead - 2 ^ 32

/-- The largest count that is right: the rest of the file, if it fits an `int`. -/
def readLimit (fileSize offset : ℕ) : ℕ := min (fileSize - offset) (2 ^ 31 - 1)

/-- The clamp sees only the low 32 bits of the end of the read. A read whose end wraps copies as
many bytes as the chain has. -/
theorem fileRead_bounded_iff {s : FileState} {offset size : ℕ}
    (hbpc : 0 < s.vol.bpb.bytesPerCluster) :
    (fileReadRet s offset size ≤ (s.file.fileSize - offset : ℕ) ∧
        fileReadRet s offset size = (fileRead s offset size).length) ↔ s.file.fileSize ≤ offset ∨
        clampedSize s.file.fileSize offset size ≤ readLimit s.file.fileSize offset ∨
        ¬ ByteOnChain s offset (readLimit s.file.fileSize offset) := by
  have hlen := @lt_length_fileRead s offset size (readLimit s.file.fileSize offset) hbpc
  have hbound : (fileReadRet s offset size ≤ (s.file.fileSize - offset : ℕ) ∧
      fileReadRet s offset size = (fileRead s offset size).length) ↔
      ¬ readLimit s.file.fileSize offset < (fileRead s offset size).length := by
    unfold fileReadRet readLimit
    dsimp only
    split <;> omega
  rw [hbound, hlen, not_and_or, not_and_or, not_lt, not_lt]

def hundredBytes : FileState where
  vol :=
    { bpb := ⟨512, 1, 32, 2, 70000, 500, 2, 1032, 32⟩
      disk := fun _ => 0
      fsinfoValid := false
      fsinfoFreeCount := fsinfoUnknown
      fsinfoNextFree := 0
      fsinfoDirty := false }
  file := ⟨2, 100⟩

theorem hundredBytes_overread :
    ¬fileReadRet hundredBytes 1 0xFFFFFFFF ≤ (hundredBytes.file.fileSize - 1 : ℕ) := by
  have hmore : 99 < (fileRead hundredBytes 1 0xFFFFFFFF).length :=
    (lt_length_fileRead (by decide)).2 ⟨by decide, by decide, show 2 < fat32Eoc ∧ 2 ≠ 0 by decide⟩
  have hfew : ¬511 < (fileRead hundredBytes 1 0xFFFFFFFF).length := by
    intro h
    obtain ⟨-, -, -, hnext⟩ := (lt_length_fileRead (by decide)).1 h
    exact hnext.2 (by decide)
  have hsize : hundredBytes.file.fileSize = 100 := rfl
  unfold fileReadRet
  dsimp only
  split <;> omega

theorem hundredBytes_bounded :
    fileReadRet hundredBytes 1 50 ≤ (hundredBytes.file.fileSize - 1 : ℕ) ∧
      fileReadRet hundredBytes 1 50 = (fileRead hundredBytes 1 50).length :=
  (fileRead_bounded_iff (by decide)).2 (.inr (.inl (by decide)))

end ImpossibleOs.Fat32
