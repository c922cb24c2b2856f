import ImpossibleOs.Fat32.Volume
import Mathlib.Data.List.Perm.Subperm

/-!
The FAT and the clusters as two arrays, and the chains in them.

On a volume whose geometry makes sense the FAT behaves as an array of 28-bit
numbers that cluster writes do not touch, and the clusters as an array of buffers
that FAT updates do not touch. A chain visits clusters in range only, up to an
end mark.
-/

namespace ImpossibleOs.Fat32

open ByteMem List Nat

/-- The geometry that a formatted volume has. -/
structure Bpb.Ok (b : Bpb) : Prop where
  spcPos : 0 < b.sectorsPerCluster
  fatsPos : 0 < b.numFats
  bootBefore : 0 < b.firstFatSector
  fatsBefore : b.firstFatSector + b.numFats * b.fatSizeSectors ≤ b.firstDataSector
  fatCovers : b.maxCluster * 4 ≤ b.fatSizeSectors * 512
  dataInside : b.firstDataSector < b.totalSectors
  total : b.totalSectors < 2 ^ 32
  clusters : b.maxCluster ≤ fat32Bad

/-- A cluster number of the volume. -/
def Bpb.InRange (b : Bpb) (c : ℕ) : Prop := 2 ≤ c ∧ c < b.maxCluster

variable {b : Bpb}

theorem clusters_le (b : Bpb) : (b.maxCluster - 2) * b.sectorsPerCluster ≤
    b.totalSectors - b.firstDataSector := by
  unfold Bpb.maxCluster
  rw [Nat.add_sub_cancel]
  exact div_mul_le_self _ _

variable {c : ℕ} {w : Volume}

theorem clusterToSector_eq (h : b.Ok) (hc : b.InRange c) :
    clusterToSector b c = b.firstDataSector + (c - 2) * b.sectorsPerCluster ∧
      b.firstDataSector + (c - 2) * b.sectorsPerCluster + b.sectorsPerCluster ≤ b.totalSectors := by
  obtain ⟨hlo, hhi⟩ := hc
  have hmul : (c - 2) * b.sectorsPerCluster + b.sectorsPerCluster ≤
      (b.maxCluster - 2) * b.sectorsPerCluster := by
    rw [← succ_mul]
    exact Nat.mul_le_mul_right _ (by omega)
  have hle := clusters_le b
  have hin := h.dataInside
  have htotal := h.total
  have hspc := h.spcPos
  have hsub : sub32 c 2 = c - 2 := if_pos hlo
  refine ⟨?_, by omega⟩
  rw [clusterToSector, hsub, u32, mod_eq_of_lt (by omega)]

/-- Bytes of cluster `c`. -/
def InCluster (b : Bpb) (c x : ℕ) : Prop :=
  clusterAddr b c ≤ x ∧ x < clusterAddr b c + b.bytesPerCluster

section

variable (h : b.Ok)
include h

theorem clusterAddr_eq (hc : b.InRange c) :
    clusterAddr b c = b.firstDataSector * 512 + (c - 2) * b.bytesPerCluster := by
  rw [clusterAddr, (clusterToSector_eq h hc).1, Bpb.bytesPerCluster, Nat.add_mul, Nat.mul_assoc]

theorem dataStart_le_clusterAddr (hc : b.InRange c) :
    b.firstDataSector * 512 ≤ clusterAddr b c := by
  rw [clusterAddr_eq h hc]
  omega

theorem clusterAddr_add {c n : ℕ} (hc : b.InRange c) (hn : b.InRange (c + n)) :
    clusterAddr b (c + n) = clusterAddr b c + n * b.bytesPerCluster := by
  have := hc.1
  rw [clusterAddr_eq h hc, clusterAddr_eq h hn, show c + n - 2 = c - 2 + n by omega, Nat.add_mul]
  omega

theorem bytesPerCluster_pos : 0 < b.bytesPerCluster := by
  have := h.spcPos
  unfold Bpb.bytesPerCluster
  omega

theorem clusterAddr_lt_of_lt {c c' : ℕ} (hc : b.InRange c) (hc' : b.InRange c')
    (hlt : c < c') : clusterAddr b c + b.bytesPerCluster ≤ clusterAddr b c' := by
  obtain ⟨n, rfl⟩ := Nat.exists_eq_add_of_le (succ_le_of_lt hlt)
  rw [show c.succ + n = c + (n + 1) by omega] at hc' ⊢
  rw [clusterAddr_add h hc hc', Nat.add_mul]
  omega

theorem clusters_apart {c c' : ℕ} (hc : b.InRange c) (hc' : b.InRange c') (hne : c ≠ c') :
    clusterAddr b c + b.bytesPerCluster ≤ clusterAddr b c' ∨
      clusterAddr b c' + b.bytesPerCluster ≤ clusterAddr b c := by
  rcases Nat.lt_or_gt_of_ne hne with hlt | hlt
  · exact .inl (clusterAddr_lt_of_lt h hc hc' hlt)
  · exact .inr (clusterAddr_lt_of_lt h hc' hc hlt)

omit h in
theorem cluster_unique (hok : b.Ok) {c c' a : ℕ} (hc : b.InRange c) (hc' : b.InRange c')
    (ha : InCluster b c a) (ha' : InCluster b c' a) : c = c' := by
  by_contra hne
  have := clusters_apart hok hc hc' hne
  unfold InCluster at ha ha'
  omega

/-! ### FAT entries -/

theorem fatAddr_eq {fi c : ℕ} (hfi : fi < b.numFats) (hc : c < b.maxCluster) :
    fatAddr b fi c = (b.firstFatSector + fi * b.fatSizeSectors) * 512 + c * 4 := by
  have hcov := h.fatCovers
  have hclusters := h.clusters
  have hbefore := h.fatsBefore
  have htotal := h.total
  have hin := h.dataInside
  simp only [fat32Bad] at hclusters
  have hoff : u32 (c * 4) = c * 4 := by
    unfold u32
    omega
  have hcopy : fi * b.fatSizeSectors + b.fatSizeSectors ≤ b.numFats * b.fatSizeSectors := by
    rw [← succ_mul]
    exact Nat.mul_le_mul_right _ hfi
  simp only [fatAddr, hoff]
  unfold u32
  rw [mod_eq_of_lt (by omega)]
  omega

theorem fatAddr_bounds {fi c : ℕ} (hfi : fi < b.numFats) (hc : c < b.maxCluster) :
    b.firstFatSector * 512 ≤ fatAddr b fi c ∧ fatAddr b fi c + 4 ≤ b.firstDataSector * 512 := by
  have hcopy : fi * b.fatSizeSectors + b.fatSizeSectors ≤ b.numFats * b.fatSizeSectors := by
    rw [← succ_mul]
    exact Nat.mul_le_mul_right _ hfi
  have hcov := h.fatCovers
  have hbefore := h.fatsBefore
  rw [fatAddr_eq h hfi hc]
  constructor
  · omega
  · omega

theorem fatAddr_apart {fi fi' c c' : ℕ} (hfi : fi < b.numFats) (hfi' : fi' < b.numFats)
    (hc : c < b.maxCluster) (hc' : c' < b.maxCluster) (hne : fi ≠ fi' ∨ c ≠ c') :
    fatAddr b fi c + 4 ≤ fatAddr b fi' c' ∨ fatAddr b fi' c' + 4 ≤ fatAddr b fi c := by
  rw [fatAddr_eq h hfi hc, fatAddr_eq h hfi' hc']
  have hcov := h.fatCovers
  rcases Nat.lt_trichotomy fi fi' with hlt | rfl | hlt
  · left
    have hmul : fi * b.fatSizeSectors + b.fatSizeSectors ≤ fi' * b.fatSizeSectors := by
      rw [← succ_mul]
      exact Nat.mul_le_mul_right _ hlt
    omega
  · rcases hne with hne | hne
    · exact absurd rfl hne
    · omega
  · right
    have hmul : fi' * b.fatSizeSectors + b.fatSizeSectors ≤ fi * b.fatSizeSectors := by
      rw [← succ_mul]
      exact Nat.mul_le_mul_right _ hlt
    omega

theorem setFatCopy_sameOutside {fi c : ℕ} (value : ℕ) (m : ByteMem)
    (hfi : fi < b.numFats) (hc : c < b.maxCluster) :
    SameOutside (b.firstFatSector * 512) (b.firstDataSector * 512) m
      (setFatCopy b c value m fi) := by
  obtain ⟨hlo, hhi⟩ := fatAddr_bounds h hfi hc
  exact sameOutside_writeLE hlo hhi

end

variable {v : Volume}

theorem setFatEntry_sameOutside (h : v.bpb.Ok) (value : ℕ) (hc : c < v.bpb.maxCluster) :
    SameOutside (v.bpb.firstFatSector * 512) (v.bpb.firstDataSector * 512) v.disk
      (setFatEntry v c value).disk := by
  apply Loop.foldl_range (fun _ m => SameOutside _ _ v.disk m) (SameOutside.refl _ _ _)
  intro fi hfi m hm
  exact hm.trans (setFatCopy_sameOutside h value m hfi hc)

@[simp] theorem setFatEntry_bpb (c value : ℕ) : (setFatEntry v c value).bpb = v.bpb := rfl

/-- The entries of the first copy after the first `k` copies were updated. -/
theorem readLE_setFatCopies (h : v.bpb.Ok) (value : ℕ) (hc : c < v.bpb.maxCluster) {k : ℕ}
    (hk : k ≤ v.bpb.numFats) {m : ByteMem}
    (hm : m = (List.range k).foldl (setFatCopy v.bpb c value) v.disk) :
    (0 < k → readLE m (fatAddr v.bpb 0 c) 4 % 2 ^ 28 = value % 2 ^ 28) ∧
      ∀ c' < v.bpb.maxCluster, c' ≠ c →
        readLE m (fatAddr v.bpb 0 c') 4 = readLE v.disk (fatAddr v.bpb 0 c') 4 := by
  rw [hm]
  refine Loop.foldl_range (n := k) (f := setFatCopy v.bpb c value)
    (fun fi m => (0 < fi → readLE m (fatAddr v.bpb 0 c) 4 % 2 ^ 28 = value % 2 ^ 28) ∧
      ∀ c' < v.bpb.maxCluster, c' ≠ c →
        readLE m (fatAddr v.bpb 0 c') 4 = readLE v.disk (fatAddr v.bpb 0 c') 4)
    ⟨by simp, by simp⟩ ?_
  rintro fi hfi m ⟨hsame, hother⟩
  have hfi := hfi.trans_le hk
  refine ⟨fun _ => ?_, fun c' hc' hne => ?_⟩
  · by_cases h0 : fi = 0
    · subst h0
      have hlt := readLE_lt m (fatAddr v.bpb 0 c) 4
      simp only [setFatCopy, readLE_writeLE_same]
      omega
    · rw [setFatCopy, readLE_writeLE_of_disjoint]
      · exact hsame (by omega)
      · have := fatAddr_apart h hfi h.fatsPos hc hc (.inl h0)
        omega
  · rw [setFatCopy, readLE_writeLE_of_disjoint]
    · exact hother c' hc' hne
    · have := fatAddr_apart h hfi h.fatsPos hc hc' (.inr (Ne.symm hne))
      omega

theorem readLE_setFatEntry (h : v.bpb.Ok) (value : ℕ) (hc : c < v.bpb.maxCluster) :
    readLE (setFatEntry v c value).disk (fatAddr v.bpb 0 c) 4 % 2 ^ 28 = value % 2 ^ 28 ∧
      ∀ c' < v.bpb.maxCluster, c' ≠ c → readLE (setFatEntry v c value).disk (fatAddr v.bpb 0 c') 4 =
          readLE v.disk (fatAddr v.bpb 0 c') 4 :=
  (readLE_setFatCopies h value hc le_rfl rfl).imp_left fun hsame => hsame h.fatsPos

theorem getFatEntry_setFatEntry_same (h : v.bpb.Ok) {c value : ℕ} (hc : c < v.bpb.maxCluster)
    (hv : value < 2 ^ 28) : getFatEntry (setFatEntry v c value) c = value := by
  rw [getFatEntry, setFatEntry_bpb, (readLE_setFatEntry h value hc).1, mod_eq_of_lt hv]

theorem getFatEntry_setFatEntry_other (h : v.bpb.Ok) {c c' value : ℕ} (hc : c < v.bpb.maxCluster)
    (hc' : c' < v.bpb.maxCluster) (hne : c' ≠ c) :
    getFatEntry (setFatEntry v c value) c' = getFatEntry v c' := by
  rw [getFatEntry, setFatEntry_bpb, (readLE_setFatEntry h value hc).2 c' hc' hne, getFatEntry]

theorem getFatEntry_congr (h : v.bpb.Ok) (hb : w.bpb = v.bpb) (hc : c < v.bpb.maxCluster)
    (hag : AgreeOn (v.bpb.firstFatSector * 512) (v.bpb.firstDataSector * 512) v.disk w.disk) :
    getFatEntry w c = getFatEntry v c := by
  obtain ⟨hlo, hhi⟩ := fatAddr_bounds h h.fatsPos hc
  rw [getFatEntry, getFatEntry, hb, readLE_congr (hag.mono hlo hhi)]

@[simp] theorem zeroCluster_bpb (c : ℕ) : (zeroCluster v c).bpb = v.bpb := rfl

theorem getFatEntry_zeroCluster (h : v.bpb.Ok) {c c' : ℕ} (hc : v.bpb.InRange c)
    (hc' : c' < v.bpb.maxCluster) : getFatEntry (zeroCluster v c) c' = getFatEntry v c' := by
  apply getFatEntry_congr h (zeroCluster_bpb c) hc'
  exact agreeOn_zeroRange (.inl (dataStart_le_clusterAddr h hc))

theorem zeroCluster_of_not_mem {c x : ℕ} (hx : ¬ InCluster v.bpb c x) :
    (zeroCluster v c).disk x = v.disk x := by
  unfold InCluster at hx
  exact agreeOn_zeroRange (b := x) (e := x + 1) (by omega) x le_rfl (by omega)

theorem zeroCluster_of_mem {c x : ℕ} (hx : InCluster v.bpb c x) : (zeroCluster v c).disk x = 0 :=
  if_pos hx

theorem scanFree_some {first stop c : ℕ} (h : scanFree v first stop = some c) :
    first ≤ c ∧ c < stop ∧ getFatEntry v c = fat32Free := by
  have hmem := mem_of_find?_eq_some h
  have hfree := find?_some h
  rw [mem_range'_1] at hmem
  exact ⟨hmem.1, by omega, by simpa using hfree⟩

theorem two_le_allocStart (v : Volume) : 2 ≤ allocStart v := by
  unfold allocStart
  split
  · rename_i h
    exact h.2.1
  · exact le_rfl

theorem pickFree_some (h : pickFree v = some c) :
    v.bpb.InRange c ∧ getFatEntry v c = fat32Free := by
  have hstart := two_le_allocStart v
  unfold pickFree at h
  rcases Option.or_eq_some_iff.mp h with h | ⟨-, h⟩
  · obtain ⟨hlo, hhi, hfree⟩ := scanFree_some h
    exact ⟨⟨by omega, hhi⟩, hfree⟩
  · obtain ⟨hlo, hhi, hfree⟩ := scanFree_some h
    refine ⟨⟨hlo, ?_⟩, hfree⟩
    have hle : allocStart v ≤ v.bpb.maxCluster := by
      unfold allocStart
      split
      · omega
      · simp [Bpb.maxCluster]
    omega

theorem allocCluster_eq (h : allocCluster v = (w, c)) (hc : c ≠ 0) :
    pickFree v = some c ∧ w.bpb = v.bpb ∧ w.disk = (setFatEntry v c eocMark).disk := by
  unfold allocCluster at h
  split at h
  · obtain ⟨-, rfl⟩ := Prod.mk.inj h
    exact absurd rfl hc
  · rename_i c' hpick
    obtain ⟨rfl, rfl⟩ := Prod.mk.inj h
    exact ⟨hpick, rfl, rfl⟩

theorem allocCluster_spec (hok : v.bpb.Ok) (h : allocCluster v = (w, c)) (hc : c ≠ 0) :
    pickFree v = some c ∧ w.bpb = v.bpb ∧ getFatEntry w c = eocMark ∧
      (∀ c' < v.bpb.maxCluster, c' ≠ c → getFatEntry w c' = getFatEntry v c') ∧
      ∀ x, v.bpb.firstDataSector * 512 ≤ x → w.disk x = v.disk x := by
  obtain ⟨hpick, hb, hdisk⟩ := allocCluster_eq h hc
  obtain ⟨hrange, -⟩ := pickFree_some hpick
  have hfat : ∀ c', getFatEntry w c' = getFatEntry (setFatEntry v c eocMark) c' := by
    intro c'
    rw [getFatEntry, getFatEntry, hb, hdisk, setFatEntry_bpb]
  have hmark : eocMark < 2 ^ 28 := by norm_num [eocMark]
  refine ⟨hpick, hb, ?_, ?_, ?_⟩
  · rw [hfat, getFatEntry_setFatEntry_same hok hrange.2 hmark]
  · intro c' hc' hne
    rw [hfat, getFatEntry_setFatEntry_other hok hrange.2 hc' hne]
  · intro x hx
    rw [hdisk]
    exact setFatEntry_sameOutside hok eocMark hrange.2 x (.inr hx)

variable {v w : Volume} {c : ℕ} {l : List ℕ}

/-- The chain that starts with the link `c` is `l`. -/
def IsChain (v : Volume) : ℕ → List ℕ → Prop
  | c, [] => fat32Eoc ≤ c
  | c, d :: l => d = c ∧ v.bpb.InRange c ∧ IsChain v (getFatEntry v c) l

theorem Bpb.InRange.lt_eoc (hok : v.bpb.Ok) (h : v.bpb.InRange c) : c < fat32Eoc := by
  have h₁ := h.2
  have h₂ := hok.clusters
  unfold fat32Bad at h₂
  unfold fat32Eoc
  omega

theorem IsChain.inRange (h : IsChain v c l) : ∀ d ∈ l, v.bpb.InRange d := by
  induction l generalizing c with
  | nil => simp
  | cons d l ih =>
    obtain ⟨rfl, hd, hl⟩ := h
    intro e he
    rcases mem_cons.mp he with rfl | he
    · exact hd
    · exact ih hl e he

theorem IsChain.unique (hok : v.bpb.Ok) {l' : List ℕ} (h : IsChain v c l) (h' : IsChain v c l') :
    l = l' := by
  induction l generalizing c l' with
  | nil =>
    cases l' with
    | nil => rfl
    | cons d l' =>
      obtain ⟨rfl, hd, -⟩ := h'
      have hlt := hd.lt_eoc hok
      exact absurd h (by unfold IsChain; omega)
  | cons d l ih =>
    obtain ⟨rfl, hd, hl⟩ := h
    cases l' with
    | nil =>
      have hlt := hd.lt_eoc hok
      exact absurd h' (by unfold IsChain; omega)
    | cons d' l' =>
      obtain ⟨rfl, -, hl'⟩ := h'
      rw [ih hl hl']

theorem IsChain.suffix (pre : List ℕ) {suf : List ℕ} {d : ℕ} (h : IsChain v c (pre ++ d :: suf)) :
    IsChain v d (d :: suf) := by
  induction pre generalizing c with
  | nil =>
    obtain ⟨rfl, hd, hl⟩ := h
    exact ⟨rfl, hd, hl⟩
  | cons e pre ih =>
    obtain ⟨rfl, -, hl⟩ := h
    exact ih hl

theorem IsChain.nodup (hok : v.bpb.Ok) (h : IsChain v c l) : l.Nodup := by
  induction l generalizing c with
  | nil => exact nodup_nil
  | cons d l ih =>
    rw [nodup_cons]
    refine ⟨fun hmem => ?_, ih h.2.2⟩
    -- a second visit would start the same chain again, only shorter
    obtain ⟨pre, suf, rfl⟩ := append_of_mem hmem
    have hd : IsChain v d (d :: (pre ++ d :: suf)) := by
      obtain ⟨rfl, hr, hl⟩ := h
      exact ⟨rfl, hr, hl⟩
    have heq := IsChain.unique hok hd (hd.suffix (d :: pre))
    have hlen := congrArg List.length heq
    simp only [length_cons, length_append] at hlen
    omega

theorem IsChain.congr (h : IsChain v c l) (hb : w.bpb = v.bpb)
    (hfat : ∀ d ∈ l, getFatEntry w d = getFatEntry v d) : IsChain w c l := by
  induction l generalizing c with
  | nil => exact h
  | cons d l ih =>
    obtain ⟨rfl, hd, hl⟩ := h
    refine ⟨rfl, by rw [hb]; exact hd, ?_⟩
    rw [hfat d mem_cons_self]
    exact ih hl fun e he => hfat e (mem_cons_of_mem d he)

theorem IsChain.not_free (h : IsChain v c l) : ∀ d ∈ l, 2 ≤ getFatEntry v d := by
  induction l generalizing c with
  | nil => simp
  | cons d l ih =>
    obtain ⟨rfl, -, hl⟩ := h
    intro e he
    rcases mem_cons.mp he with rfl | he
    · cases l with
      | nil =>
        have : fat32Eoc ≤ getFatEntry v e := hl
        unfold fat32Eoc at this
        omega
      | cons d' l =>
        obtain ⟨-, hd', -⟩ := hl
        exact hd'.1
    · exact ih hl e he

theorem IsChain.length_lt (hok : v.bpb.Ok) (h : IsChain v c l) : l.length < chainFuel := by
  have hsub : l ⊆ List.range v.bpb.maxCluster := by
    intro d hd
    exact mem_range.mpr (h.inRange d hd).2
  have hlen := ((h.nodup hok).subperm hsub).length_le
  have hmax := hok.clusters
  rw [length_range] at hlen
  unfold fat32Bad at hmax
  unfold chainFuel
  omega

theorem IsChain.append {new : ℕ} (hne : l ≠ []) (h : IsChain v c l) (hb : w.bpb = v.bpb)
    (hnew : v.bpb.InRange new) (hend : fat32Eoc ≤ getFatEntry w new)
    (hlast : getFatEntry w (l.getLast hne) = new)
    (hfat : ∀ d ∈ l.dropLast, getFatEntry w d = getFatEntry v d) : IsChain w c (l ++ [new]) := by
  induction l generalizing c with
  | nil => exact absurd rfl hne
  | cons d l ih =>
    obtain ⟨rfl, hd, hl⟩ := h
    refine ⟨rfl, by rw [hb]; exact hd, ?_⟩
    cases l with
    | nil =>
      simp only [getLast_singleton] at hlast
      rw [hlast]
      exact ⟨rfl, by rw [hb]; exact hnew, hend⟩
    | cons d' l =>
      rw [hfat d (by simp)]
      refine ih (by simp) hl ?_ fun e he => hfat e ?_
      · simpa using hlast
      · rw [dropLast_cons_of_ne_nil (by simp)]
        exact mem_cons_of_mem d he

end ImpossibleOs.Fat32
