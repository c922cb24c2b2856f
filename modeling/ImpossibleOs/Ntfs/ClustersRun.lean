import ImpossibleOs.Lib.Refine
import ImpossibleOs.Ntfs.Clusters

/-!
Runs of the cluster allocator.

A volume whose first cluster is in use keeps its bitmap. With the first cluster
free the search can put together a run from both ends of the volume.
-/

namespace ImpossibleOs.Ntfs

open ByteMem Refine

variable {v : Volume} {count hint lcn : ℕ}

/-- Every run of `count` clusters below `pos` has one that is in use. -/
def NoRun (v : Volume) (count pos : ℕ) : Prop :=
  ∀ s, s + count ≤ pos → ∃ c, s ≤ c ∧ c < s + count ∧ Bitmap.test v.bitmapData c = true

theorem findFrom_complete (hv : v.Sound) {left pos runStart runLen : ℕ}
    (hpos : pos + left = v.totalClusters) (hno : NoRun v count pos) (hlen : runLen ≤ pos)
    (hstart : runLen = 0 ∨ runStart ≠ 0)
    (hlast : runLen = pos ∨ Bitmap.test v.bitmapData (pos - runLen - 1) = true)
    (h : findFrom v count false left (wrapLcn v pos) runStart runLen = 0) :
    NoRun v count v.totalClusters := by
  induction left generalizing pos runStart runLen with
  | zero =>
    rw [← hpos]
    exact hno
  | succ left ih =>
    have hlt : pos < v.totalClusters := by omega
    have hbyte : ¬ v.bitmapSize ≤ pos / 8 := by
      have := hv.covered
      omega
    have hwrap : wrapLcn v pos = pos := if_neg (by omega)
    rw [findFrom, hwrap] at h
    simp only [Bool.false_and, Bool.false_eq_true, if_false, hbyte] at h
    split at h
    · rename_i hset
      refine ih (by omega) ?_ (Nat.zero_le _) (.inl rfl) (.inr (by simpa using hset)) h
      intro s hs
      rcases Nat.lt_or_ge pos (s + count) with hin | hout
      · rcases Nat.lt_or_ge pos s with hgt | hle
        · -- an empty run past the end of the volume
          obtain rfl : count = 0 := by omega
          obtain ⟨c, hc⟩ := hno 0 (by omega)
          omega
        · exact ⟨pos, hle, hin, hset⟩
      · exact hno s (by omega)
    · rename_i hset
      have hne : pos ≠ 0 := by
        rintro rfl
        exact hset hv.boot
      have hnext : (if runLen = 0 then pos else runStart) ≠ 0 := by
        split
        · exact hne
        · exact hstart.resolve_left ‹_›
      split at h
      · exact absurd h hnext
      · rename_i hshort
        refine ih (by omega) ?_ (by omega) (.inr hnext) ?_ h
        · intro s hs
          rcases Nat.lt_or_ge pos (s + count) with hin | hout
          · -- the run would reach back over the cluster before the free run
            rcases hlast with hall | hset
            · omega
            · exact ⟨pos - runLen - 1, by omega, by omega, hset⟩
          · exact hno s (by omega)
        · rcases hlast with hall | hset
          · exact .inl (by omega)
          · right
            rwa [show pos + 1 - (runLen + 1) - 1 = pos - runLen - 1 by omega]

theorem searchClusters_complete (hv : v.Sound) (hcount : 0 < count)
    (h : searchClusters v count hint = 0) : NoRun v count v.totalClusters := by
  have hlast : findContiguousFree v count 0 false = 0 := by
    unfold searchClusters at h
    dsimp only at h
    split at h
    · exact absurd h ‹_›
    split at h
    · rename_i hstart
      exact absurd h hstart.2
    · exact h
  exact findFrom_complete hv (Nat.zero_add _) (fun s hs => by omega) le_rfl (.inl rfl) (.inl rfl)
    hlast

theorem allocClusters_fails (hv : v.Sound) (hcount : 0 < count)
    (h : (allocClusters v count hint).2 = 0) :
    (allocClusters v count hint).1 = v ∧ NoRun v count v.totalClusters := by
  by_cases hlcn : searchClusters v count hint = 0
  · refine ⟨?_, searchClusters_complete hv hcount hlcn⟩
    simp [allocClusters, hlcn]
  · exfalso
    have hfree := searchClusters_free hv.boot hlcn
    obtain ⟨bitmap, disk, heq, -⟩ :=
      bitmapSetRange_spec true hv hcount (hfree.1.trans hv.covered)
    rw [allocClusters, if_neg (by omega), if_neg hlcn, heq] at h
    exact hlcn h

/-! ### Runs -/

inductive ClusterOp
  | alloc (count hint : ℕ)
  | free (lcn count : ℕ)
  deriving DecidableEq, Repr

/-- The volume after a call, and the cluster or the status that it returns. -/
def ClusterOp.exec (v : Volume) : ClusterOp → Volume × ℤ
  | alloc count hint => let r := allocClusters v count hint; (r.1, r.2)
  | free lcn count => freeClusters v lcn count

/-- Which clusters are in use. -/
abbrev Usage := ℕ → Bool

def Usage.fill (f : Usage) (lcn count : ℕ) (b : Bool) : Usage := fun c =>
  if lcn ≤ c ∧ c < lcn + count then b else f c

/-- What a call may do to the clusters of a volume of `total`, and what it returns. -/
inductive ClusterStep (total : ℕ) (f : Usage) : ClusterOp → ℤ → Usage → Prop
  | found {count hint lcn : ℕ} (hlcn : lcn ≠ 0) (hend : lcn + count ≤ total)
      (hfree : ∀ c, lcn ≤ c → c < lcn + count → f c = false) :
      ClusterStep total f (.alloc count hint) lcn (f.fill lcn count true)
  | full {count hint : ℕ}
      (h : ∀ s, 0 < s → s + count ≤ total → ∃ c, s ≤ c ∧ c < s + count ∧ f c = true) :
      ClusterStep total f (.alloc count hint) 0 f
  | free {lcn count : ℕ} :
      ClusterStep total f (.free lcn count) ntfsOk (f.fill lcn count false)

def Volume.usage (v : Volume) : Usage := fun c => Bitmap.test v.bitmapData c

/-- The bitmap on disk agrees with that in memory, and the count with both. -/
structure Volume.Counted (v : Volume) : Prop where
  sound : v.Sound
  mirrored : v.Mirrored
  free : v.freeClusters = Bitmap.freeIn v.bitmapData 0 v.totalClusters

/-- Some clusters are asked for, or a range of clusters in use, without the boot sector's, is given
back. -/
def ClusterOp.Safe (v : Volume) : ClusterOp → Prop
  | alloc count _ => 0 < count
  | free lcn count => 0 < count ∧ 0 < lcn ∧ lcn + count ≤ v.totalClusters ∧
      ∀ c, lcn ≤ c → c < lcn + count → v.usage c = true

theorem usage_of_test {bitmap disk : ByteMem} {free : ℕ} {b : Bool}
    (htest : ∀ c, Bitmap.test bitmap c =
      if lcn ≤ c ∧ c < lcn + count then b else Bitmap.test v.bitmapData c) :
    ((v.withBits bitmap disk).withFree free).usage = v.usage.fill lcn count b := by
  funext c
  exact htest c

theorem Volume.Sound.withBits {bitmap disk : ByteMem} {free : ℕ} {b : Bool} (hv : v.Sound)
    (hlcn : 0 < lcn) (htest : ∀ c, Bitmap.test bitmap c =
      if lcn ≤ c ∧ c < lcn + count then b else Bitmap.test v.bitmapData c) :
    ((v.withBits bitmap disk).withFree free).Sound where
  sector := hv.sector
  cluster := hv.cluster
  covered := hv.covered
  small := hv.small
  boot := by
    rw [Volume.withFree, Volume.withBits, htest, if_neg (by omega)]
    exact hv.boot
  mapped := hv.mapped

theorem freeIn_lt (m : ByteMem) (total : ℕ) : Bitmap.freeIn m 0 total ≤ total := by
  refine (Finset.card_filter_le _ _).trans ?_
  simp

theorem alloc_step (h : v.Counted) (hcount : 0 < count) :
    ∃ f, ClusterStep v.totalClusters v.usage (.alloc count hint)
        ((ClusterOp.alloc count hint).exec v).2 f ∧
      ((ClusterOp.alloc count hint).exec v).1.Counted ∧
      ((ClusterOp.alloc count hint).exec v).1.usage = f ∧
      ((ClusterOp.alloc count hint).exec v).1.totalClusters = v.totalClusters := by
  rw [ClusterOp.exec]
  by_cases hzero : (allocClusters v count hint).2 = 0
  · obtain ⟨hsame, hno⟩ := allocClusters_fails h.sound hcount hzero
    rw [hsame, hzero]
    exact ⟨v.usage, .full fun s _ hs => hno s hs, h, rfl, rfl⟩
  · obtain ⟨bitmap, disk, free, heq, hsub, -, ⟨hend, hfree⟩, htest, -, hmirror⟩ :=
      allocClusters_spec h.sound hzero
    rw [heq]
    dsimp only
    refine ⟨_, .found hzero hend hfree, ⟨?_, ?_, ?_⟩, usage_of_test htest, rfl⟩
    · exact h.sound.withBits (Nat.pos_of_ne_zero hzero) htest
    · exact (hmirror h.mirrored).withFree free
    · have hfill := Bitmap.freeIn_fill (Nat.zero_le _) hend hfree htest
      have hlt := freeIn_lt v.bitmapData v.totalClusters
      have hsmall := h.sound.small
      have heq : free = Bitmap.freeIn bitmap 0 v.totalClusters := by
        rw [hsub, h.free]
        omega
      exact heq

theorem free_step (h : v.Counted) (hsafe : (ClusterOp.free lcn count).Safe v) :
    ∃ f, ClusterStep v.totalClusters v.usage (.free lcn count)
        ((ClusterOp.free lcn count).exec v).2 f ∧ ((ClusterOp.free lcn count).exec v).1.Counted ∧
      ((ClusterOp.free lcn count).exec v).1.usage = f ∧
      ((ClusterOp.free lcn count).exec v).1.totalClusters = v.totalClusters := by
  obtain ⟨hcount, hlcn, hend, hused⟩ := hsafe
  obtain ⟨bitmap, disk, free, heq, hadd, htest, -, hmirror⟩ := freeClusters_spec h.sound hcount hend
  rw [ClusterOp.exec, heq]
  dsimp only
  refine ⟨_, .free, ⟨h.sound.withBits hlcn htest, ?_, ?_⟩, usage_of_test htest, rfl⟩
  · exact (hmirror h.mirrored).withFree free
  · -- the old bitmap is the new one with the range filled
    have hback : ∀ c, Bitmap.test v.bitmapData c =
        if lcn ≤ c ∧ c < lcn + count then true else Bitmap.test bitmap c := by
      intro c
      rw [htest]
      split
      · rename_i hin
        exact hused c hin.1 hin.2
      · rfl
    have hclear : ∀ c, lcn ≤ c → c < lcn + count → Bitmap.test bitmap c = false := by
      intro c hlo hhi
      rw [htest, if_pos ⟨hlo, hhi⟩]
    have hfill := Bitmap.freeIn_fill (Nat.zero_le _) hend hclear hback
    have hlt := freeIn_lt bitmap v.totalClusters
    have hsmall := h.sound.small
    have heq : free = Bitmap.freeIn bitmap 0 v.totalClusters := by
      rw [hadd, h.free]
      omega
    exact heq

/-- In a run that starts with cluster 0 in use and does not free it, every allocation hands out
free clusters or finds that there is no run, the bitmap on disk follows that in memory, and the
count of free clusters is that of clear bits. -/
theorem cluster_run (h : v.Counted) {ops : List ClusterOp}
    (hsafe : Meets (fun v op => (ClusterOp.exec v op).1) ClusterOp.Safe v ops) :
    ∃ f, Runs (ClusterStep v.totalClusters) v.usage (answered ClusterOp.exec v ops) f ∧
      (ops.foldl (fun v op => (ClusterOp.exec v op).1) v).usage = f ∧
      (ops.foldl (fun v op => (ClusterOp.exec v op).1) v).Counted := by
  have hstep : ∀ (v' : Volume) f op,
      (v'.Counted ∧ v'.usage = f ∧ v'.totalClusters = v.totalClusters) → op.Safe v' →
        ∃ f', ClusterStep v.totalClusters f op (op.exec v').2 f' ∧
          ((op.exec v').1.Counted ∧ (op.exec v').1.usage = f' ∧
            (op.exec v').1.totalClusters = v.totalClusters) := by
    rintro v' f op ⟨hcounted, rfl, htotal⟩ hsafe
    rw [← htotal]
    cases op with
    | alloc count hint => exact alloc_step hcounted hsafe
    | free lcn count => exact free_step hcounted hsafe
  obtain ⟨f, hruns, hcounted, husage, -⟩ := Meets.simulates _ hstep hsafe ⟨h, rfl, rfl⟩
  exact ⟨f, hruns, husage, hcounted⟩

/-! ### Small volumes -/

/-- Sixteen clusters of one sector; `$Bitmap` is cluster 2. -/
def smallVolume (bitmap : ByteMem) (free : ℕ) : Volume where
  bytesPerSector := 512
  sectorsPerCluster := 1
  totalClusters := 16
  freeClusters := free
  bitmapSize := 8
  bitmapData := bitmap
  bitmapRuns := [⟨0, 2, 1⟩]
  mftZoneStart := 4
  mftZoneEnd := 6
  disk := storeBytes (fun _ => 0) 1024 (bytes bitmap 0 8)
  behindBuf := fun _ => 0

/-- Clusters 0 to 7 are in use. -/
def lowBits : ByteMem := fun x => if x = 0 then 0xFF else 0

theorem smallVolume_counted : (smallVolume lowBits 8).Counted where
  sound := by
    refine ⟨?_, ?_, ?_, ?_, ?_, ?_⟩
    · exact (by decide : 0 < 512)
    · exact Nat.one_pos
    · exact (by decide : 16 ≤ 8 * 8)
    · exact (by omega : 16 < 2 ^ 64)
    · decide
    · decide
  mirrored := by
    refine ⟨⟨le_rfl, ?_⟩, by decide⟩
    intro i j hi heq
    have hi0 : i = 0 := by
      cases i with
      | zero => rfl
      | succ i => cases hi
    subst hi0
    cases j with
    | zero => rfl
    | succ j => cases heq
  free := by decide

theorem cluster_run_small : ∃ f, Runs (ClusterStep 16) (smallVolume lowBits 8).usage
        (answered ClusterOp.exec (smallVolume lowBits 8) [.alloc 4 14, .free 8 4]) f := by
  have hsafe : Meets (fun v op => (ClusterOp.exec v op).1) ClusterOp.Safe (smallVolume lowBits 8)
      [.alloc 4 14, .free 8 4] := by
    have hused : ∀ c < 12, 8 ≤ c →
        (ClusterOp.exec (smallVolume lowBits 8) (.alloc 4 14)).1.usage c = true := by
      decide
    have htotal : (ClusterOp.exec (smallVolume lowBits 8) (.alloc 4 14)).1.totalClusters = 16 := by
      decide
    refine ⟨Nat.succ_pos 3, ⟨Nat.succ_pos 3, Nat.succ_pos 7, ?_, ?_⟩, trivial⟩
    · rw [htotal]
      omega
    · intro c hlo hhi
      exact hused c hhi hlo
  obtain ⟨f, hruns, -⟩ := cluster_run smallVolume_counted hsafe
  exact ⟨f, hruns⟩

def endsFree : ByteMem := fun x => if x = 0 then 0xFC else if x = 1 then 0x3F else 0

theorem alloc_across_end : (allocClusters (smallVolume endsFree 4) 4 14).2 = 14 ∧
    ¬ (14 + 4 ≤ (smallVolume endsFree 4).totalClusters) := by
  constructor
  · decide
  · exact (by decide : ¬ 14 + 4 ≤ 16)

end ImpossibleOs.Ntfs
