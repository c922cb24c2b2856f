import ImpossibleOs.Ixfs.FsckAgain

/-!
Runs of the IXFS checker.

On a volume it can deal with (`Checkable`), a fixing run clears no bit of a
block in use, and after one that returns 0 a check returns 0 as well.
-/

namespace ImpossibleOs.Ixfs

open ByteMem Function List

variable {faults : ReadFaults} {v w : Volume} {walk : Walk} {orph : Orphans}

theorem repairRefcounts_check (v : Volume) (refc : ℕ → ℕ) :
    (repairRefcounts false v refc).1 = v := by
  unfold repairRefcounts
  split <;> rfl

theorem fsckPasses_check (hp : Plausible faults v) : (fsckPasses faults false v).1 = v := by
  have hwalk : WalkResult faults false v (walkTree faults false v) :=
    walkTree_spec hp.ranges.2.1
  have hvol := hwalk.check rfl
  have hbm := fun u e => (repairBitmap_spec false u e).keep rfl
  have hcnt := fun u e => (repairCounts_spec faults false u e).keep rfl
  unfold fsckPasses
  simp only [Bool.false_and, (checkJournal_check _).1, repairRefcounts_check, hcnt, hbm,
    freeOrphans_check, hvol]

theorem expectedFree_congr {sb sb' : Superblock} {e e' : ByteMem} (hl : SameLayout sb sb')
    (h : ∀ b, Bitmap.test e' b = Bitmap.test e b) : expectedFree sb' e' = expectedFree sb e := by
  simp only [expectedFree, hl.totalBlocks, h]

theorem CleanRun.superblock_after (h : CleanRun faults v w walk orph) :
    superblockErrors faults w = 0 := by
  have hsound : SuperblockSound v := by
    have herr := superblockErrors_eq_zero_iff.mp h.superblock
    exact ⟨(checkSuperblock_eq_zero_iff.mp herr.1).2, herr.2.2⟩
  have hwalk : SuperblockSound walk.vol := by
    refine hsound.congr (by rw [h.walked.vol]) (h.walked.cleared.blocks 0 ?_)
    exact fun hno => hno.1.1 rfl
  have horph : SuperblockSound orph.vol := by
    refine hwalk.congr h.orphans.writes.sb (h.orphans.writes.disk 0 fun hin => ?_)
    have := h.accepted.order.1
    have := hin.1
    omega
  exact superblockErrors_congr h.layout h.superblock (h.repaired.sound horph)

theorem CleanRun.accepted_after (h : CleanRun faults v w walk orph) : Plausible faults w := by
  have hl := h.layout
  have hp := h.accepted
  have hdev : w.deviceBlocks = v.deviceBlocks := by
    rw [h.repaired.deviceBlocks, h.orphans.writes.deviceBlocks, h.walked.vol]
  refine ⟨.inl h.superblock_after, ?_, ?_, ?_⟩
  · rw [hl.totalBlocks, hl.totalInodes, hdev]
    exact hp.counts
  · rw [hl.bitmapStart, hl.bitmapBlocks, hl.inodeStart, hl.inodeBlocks, hl.checksumStart,
      hl.checksumBlocks, hl.journalStart, hl.journalBlocks, hl.refcountStart, hl.refcountBlocks,
      hl.snapshotStart, hl.dataStart]
    exact hp.ranges
  · have hreg : metaRegions w.sb = metaRegions v.sb := by
      simp only [metaRegions, hl.bitmapStart, hl.bitmapBlocks, hl.inodeStart, hl.inodeBlocks,
        hl.checksumStart, hl.checksumBlocks, hl.journalStart, hl.journalBlocks, hl.refcountStart,
        hl.refcountBlocks, hl.snapshotStart]
    rw [hreg]
    exact hp.apart

theorem CleanRun.check_after (h : CleanRun faults v w walk orph)
    (hscrub : (if w.active then scrub faults w else some 0) = some 0) :
    (fsckVolume faults w false).2 = 0 := by
  obtain ⟨hnf, hbad, hvol, hall⟩ := h.walk_after
  have hl := h.layout
  have horph : freeOrphans faults false (walkTree faults false w) (scanVolume faults w) =
      ⟨w, (scanVolume faults w).expected, (scanVolume faults w).refc, 0, 0, false⟩ := by
    unfold freeOrphans
    rw [hvol]
    exact foldl_orphanStep_none _ hall
  have hbm := (repairBitmap_spec false w (scanVolume faults w).expected).keep rfl
  have hbm0 : (repairBitmap false w (scanVolume faults w).expected).2 = 0 := by
    refine repairBitmap_clean fun i hi => ?_
    rw [h.expected_after, h.repaired.bits i (by rw [h.sb, ← hl.totalBlocks]; exact hi)]
  have hcnt := (repairCounts_spec faults false w (scanVolume faults w).expected).keep rfl
  have hcnt0 : (repairCounts faults false w (scanVolume faults w).expected).2 = 0 := by
    refine repairCounts_clean ?_ h.repaired.freeInodes
    rw [h.repaired.freeBlocks, h.sb]
    exact (expectedFree_congr hl h.expected_after).symm
  have hrc : repairRefcounts false w (scanVolume faults w).refc = (w, 0) := by
    refine repairRefcounts_clean fun t ht b hb hne => ?_
    rw [h.refc_after] at hne ⊢
    refine h.counts t ht b ?_ hne
    simpa only [countedBlocks, hl.dataStart, hl.totalBlocks] using hb
  obtain ⟨hjvol, hjfail⟩ := @checkJournal_check faults w
  rw [fsckVolume, if_pos h.accepted_after]
  simp only [Bool.false_and]
  unfold fsckPasses Report.result
  simp only [Bool.false_and, horph, hbm, hbm0, hcnt, hcnt0, hrc, hjvol, hjfail, hnf, hbad,
    h.journal, hscrub, Report.errors, h.superblock_after, h.inodeErrors_after, h.crossLinks_after,
    Option.getD_some, Option.isNone_some, Bool.or_false, Bool.false_eq_true, if_false]
  rfl

theorem countP_add_le {α : Type*} {p q r : α → Bool} (hp : ∀ x, p x = true → r x = true)
    (hq : ∀ x, q x = true → r x = true) (hpq : ∀ x, ¬ (p x = true ∧ q x = true)) (l : List α) :
    l.countP p + l.countP q ≤ l.countP r := by
  induction l with
  | nil => simp
  | cons x l ih =>
    rw [countP_cons, countP_cons, countP_cons]
    have h3 := hpq x
    cases hpx : p x <;> cases hqx : q x <;> cases hrx : r x <;> simp_all <;> omega

theorem live_le (faults : ReadFaults) (v : Volume) (ino : ℕ) :
    liveFaults faults v ino + (liveMarks faults v ino).length ≤
      2 + if inoInTable v.sb ino && !(v.inode ino).isFree then mappedIndices v.sb (v.inode ino)
        else 0 := by
  have hsplit : ∀ i : Inode, (scannedIndices v.sb i).countP (leadsOut v.sb i) +
      (inodeMarks v.sb i).length ≤ mappedIndices v.sb i := by
    intro i
    rw [inodeMarks, ← countP_eq_length_filter, countP_map]
    refine countP_add_le (fun idx h => ?_) (fun idx h => ?_) (fun idx h => ?_) _
    · simp only [leadsOut, Bool.and_eq_true] at h
      exact h.1
    · simp only [comp_apply, decide_eq_true_eq] at h ⊢
      exact h.1
    · simp only [leadsOut, comp_apply, Bool.and_eq_true, Bool.not_eq_true',
        decide_eq_false_iff_not, decide_eq_true_eq] at h
      exact h.1.2 h.2
  unfold liveFaults liveMarks readInode
  by_cases hread : (inoInTable v.sb ino && !faults .live (inodeBlock v.sb ino)) = true
  · rw [if_pos hread]
    rw [Bool.and_eq_true] at hread
    cases hfree : (v.inode ino).isFree with
    | true => simp [hfree]
    | false =>
      have hle := hsplit (v.inode ino)
      have hone : ∀ {p : Prop} [Decidable p], (if p then 0 else 1) ≤ 1 := by
        intro p _
        split <;> omega
      have htype := @hone ((v.inode ino).type = ixfsSFile ∨ (v.inode ino).type = ixfsSDir) _
      have hcount : (if ixfsInlineExtents < (v.inode ino).extentCount then 1 else 0) ≤ 1 := by
        split <;> omega
      simp only [hfree, hread.1, Bool.false_eq_true, if_false, Bool.not_false, Bool.and_self,
        if_true, inodeFaults]
      omega
  · rw [if_neg hread]
    simp only [length_nil]
    omega

theorem foldl_orphanStep_le {repair : Bool} {visited : ByteMem} (l : List ℕ) (s : Orphans) :
    (l.foldl (orphanStep faults repair visited) s).orphans ≤ s.orphans + l.length := by
  have hstep : ∀ s ino, (orphanStep faults repair visited s ino).orphans ≤ s.orphans + 1 := by
    intro s ino
    unfold orphanStep
    split
    · omega
    · split
      · omega
      · split
        · omega
        · simp only
          split
          · unfold freeOrphan
            split
            · exact le_rfl
            · exact (foldl_release _ _ _ _ 0).2.1.le
          · exact le_rfl
  induction l generalizing s with
  | nil => exact le_rfl
  | cons ino l ih =>
    have := ih (orphanStep faults repair visited s ino)
    have := hstep s ino
    rw [foldl_cons, length_cons]
    omega

theorem Checkable.scan_lt (h : Checkable faults v) :
    (scanVolume faults v).inodeErrors + (scanVolume faults v).crossLinks <
      2 * v.sb.totalInodes + (2 ^ 32 - 2 ^ 26) := by
  have hcross : (scanVolume faults v).crossLinks ≤ (allMarks faults v).length := by
    have hadd : ∀ (s : Scan) n, (s.addErrors n).crossLinks = s.crossLinks := fun _ _ => rfl
    rw [scanVolume_eq', (crossLinks_foldl_use _ _).1, liveScan, hadd]
    have hle := (foldl_markLive_counters (allMarks faults v) (markMetadata v.sb)).2.2
    have hzero : (markMetadata v.sb).crossLinks = 0 := (foldl_mark_counters _ _).2
    rw [hzero, Nat.zero_add] at hle
    exact hle
  have hlen : (allMarks faults v).length =
      ((inodeNumbers v.sb).map fun ino => (liveMarks faults v ino).length).sum := by
    rw [allMarks, length_flatMap]
  have hsum : ((inodeNumbers v.sb).map (liveFaults faults v)).sum +
      ((inodeNumbers v.sb).map fun ino => (liveMarks faults v ino).length).sum ≤
        ((inodeNumbers v.sb).map fun ino => 2 +
          if inoInTable v.sb ino && !(v.inode ino).isFree then mappedIndices v.sb (v.inode ino)
          else 0).sum := by
    rw [← sum_map_add]
    exact sum_le_sum fun ino _ => live_le faults v ino
  have htwo : ((inodeNumbers v.sb).map fun _ => 2).sum ≤ 2 * v.sb.totalInodes := by
    rw [map_const', sum_replicate_nat, inodeNumbers, length_range']
    omega
  have hsmall := h.small
  rw [sum_map_add] at hsum
  rw [inodeErrors_scanVolume]
  omega

/-! ### A fixing run -/

/-- No bit of a block in use was cleared between `v` and `w`: of a block that an inode refers to
which is in the tree or in use afterwards, and of a block that a saved inode refers to. -/
structure Unharmed (v w : Volume) : Prop where
  live : ∀ ino b, Allocated v ino → InTree v ino ∨ Allocated w ino → (v.inode ino).Refers b →
    b < v.sb.totalBlocks → Bitmap.test v.bitmap b = true → Bitmap.test w.bitmap b = true
  saved : ∀ i b, SavedInode v i → i.Refers b → b < v.sb.totalBlocks →
    Bitmap.test v.bitmap b = true → Bitmap.test w.bitmap b = true

theorem Unharmed.of_bitmap_eq (h : w.bitmap = v.bitmap) : Unharmed v w :=
  ⟨fun _ _ _ _ _ _ hb => h ▸ hb, fun _ _ _ _ _ hb => h ▸ hb⟩

theorem fsckPasses_fix (hc : Checkable faults v) (hp : Plausible faults v)
    (hwalk : walk = walkTree faults true v)
    (horph : orph = freeOrphans faults (!walk.failed) walk (scanVolume faults v))
    (hw : w = (fsckPasses faults true v).1) : WalkResult faults true v walk ∧
    OrphInv faults (!walk.failed) v walk.vol walk.visited (inodeNumbers v.sb) orph ∧
    Repaired faults orph.vol w orph.expected ∧
    (walk.failed = false → (scanVolume faults v).crossLinks = 0 →
      ∀ t, w.refcounts = some t → ∀ b ∈ countedBlocks v.sb t, orph.refc b ≠ 0 →
        (t.table b).toNat = orph.refc b) ∧ ((fsckPasses faults true v).2.repairFailed = false →
      (checkJournal faults false w).errors = 0) := by
  have hres : WalkResult faults true v walk := hwalk ▸ walkTree_spec hp.ranges.2.1
  have hinv : OrphInv faults (!walk.failed) v walk.vol walk.visited (inodeNumbers v.sb) orph :=
    horph ▸ freeOrphans_spec (hres.keepsInodes hp.ranges.2.1) hc.live
  have hosb : orph.vol.sb = v.sb := by rw [hinv.writes.sb, hres.vol]
  have horef : orph.vol.refcounts = v.refcounts := by rw [hinv.writes.refcounts, hres.vol]
  have hsep : Separate orph.vol orph.refc := by
    refine ⟨?_, ?_, ?_, ?_, ?_, ?_, ?_⟩
    · rw [hosb]
      exact hp.disjoint
    · rw [hosb]
      exact hp.ranges.1
    · rw [hosb]
      exact hp.ranges.2.1
    · rw [hosb]
      exact hp.ranges.2.2.2.1
    · rw [hosb]
      exact hp.ranges.2.2.2.2.1
    · rw [hosb]
      have := hp.order
      omega
    · rw [hosb, horef]
      refine fun t ht hmism => hc.refcounts t ht fun hzero => hmism ?_
      rw [refcountMismatches_eq_zero] at hzero ⊢
      intro b hb hne
      rcases hinv.blocks b with ⟨-, -, hgone, -⟩ | ⟨-, hsame, -⟩
      · exact absurd hgone hne
      · rw [hsame] at hne ⊢
        exact hzero b hb hne
  -- neither the walk nor the freeing of orphans touches the journal
  have hidle : JournalIdle faults orph.vol := by
    refine hc.journal.congr (hosb ▸ SameLayout.refl _) (fun blk hin => ?_) hp.ranges.2.2.2.1
    refine AgreeOn.trans (hres.cleared.blocks blk ?_) (hinv.writes.disk blk fun hino => ?_)
    · rintro ⟨⟨-, hge, -⟩, -⟩
      have := hp.ranges.2.2.2.1.lt hin
      omega
    · have hdis := hp.disjoint
      simp only [writtenRegions, pairwise_cons, forall_mem_cons] at hdis
      exact hdis.2.2.1.1 blk hino hin
  have hle : ∀ b, orph.refc b ≤ 255 := by
    intro b
    have := (steady_scanVolume faults v).le b
    rcases hinv.blocks b with ⟨-, -, hzero, -⟩ | ⟨-, hsame, -⟩ <;> omega
  obtain ⟨hrep, hcounts, hjournal⟩ := repairs_spec hsep hidle hle
    (decide ((scanVolume faults v).crossLinks % 2 ^ 32 = 0) && !walk.failed) rfl rfl rfl rfl
  have hvol : w = (checkJournal faults true (repairRefcounts
      (decide ((scanVolume faults v).crossLinks % 2 ^ 32 = 0) && !walk.failed)
      (repairCounts faults true (repairBitmap true orph.vol orph.expected).1 orph.expected).1
      orph.refc).1).vol := by
    rw [hw, horph, hwalk]
    simp only [fsckPasses, Bool.true_and]
  have hfailed : (fsckPasses faults true v).2.repairFailed = (orph.repairFailed ||
      (checkJournal faults true (repairRefcounts
      (decide ((scanVolume faults v).crossLinks % 2 ^ 32 = 0) && !walk.failed)
      (repairCounts faults true (repairBitmap true orph.vol orph.expected).1 orph.expected).1
      orph.refc).1).repairFailed) := by
    rw [horph, hwalk]
    simp only [fsckPasses, Bool.true_and]
  rw [← hvol] at hrep hcounts hjournal
  refine ⟨hres, hinv, hrep, fun hnf hcross => ?_, fun hno => ?_⟩
  · rw [hosb] at hcounts
    exact hcounts (by simp [hnf, hcross])
  · rw [hfailed, Bool.or_eq_false_iff] at hno
    exact hjournal hno.2

theorem unharmed_fix (hc : Checkable faults v) (hp : Plausible faults v) :
    Unharmed v (fsckPasses faults true v).1 := by
  obtain ⟨hres, hinv, hrep, -⟩ := fsckPasses_fix hc hp rfl rfl rfl
  -- after a walk that failed no inode is freed
  have hkeep : (walkTree faults true v).failed = true →
      (freeOrphans faults (!(walkTree faults true v).failed) (walkTree faults true v)
        (scanVolume faults v)).vol = (walkTree faults true v).vol := by
    intro hf
    rw [hf]
    exact freeOrphans_check _ _
  generalize walkTree faults true v = walk at *
  generalize freeOrphans faults (!walk.failed) walk (scanVolume faults v) = orph at *
  generalize (fsckPasses faults true v).1 = w at *
  have hosb : orph.vol.sb = v.sb := by rw [hinv.writes.sb, hres.vol]
  have hkeeps := hres.keepsInodes hp.ranges.2.1
  -- a block that is counted and not given up has its bit
  have hbit : ∀ b < v.sb.totalBlocks, 1 ≤ (scanVolume faults v).refc b → ¬ GivenUp v orph.vol b →
      Bitmap.test w.bitmap b = true := by
    intro b hb hone hno
    rw [hrep.bits b (hosb ▸ hb)]
    rcases hinv.blocks b with ⟨hyes, -⟩ | ⟨-, -, hexp⟩
    · exact absurd hyes hno
    · rw [hexp, (steady_scanVolume faults v).expected]
      exact decide_eq_true hone
  -- the metadata is never given up
  have hmeta : ∀ b < v.sb.totalBlocks, b < v.sb.dataStart → Bitmap.test w.bitmap b = true := by
    intro b hb hlt
    refine hbit b hb (one_le_refc_of_metadata hlt hb) ?_
    rintro ⟨ino, -, -, hmark⟩
    have := (mem_inodeMarks.mp hmark).choose_spec.2.2.2.2.1
    omega
  have hone : ∀ b, GivenUp v orph.vol b → (scanVolume faults v).refc b = 1 := by
    intro b hyes
    rcases hinv.blocks b with ⟨-, hone, -⟩ | ⟨hno, -⟩
    · exact hone
    · exact absurd hyes hno
  constructor
  · intro ino b hal hlive href hb _
    rcases lt_or_ge b v.sb.dataStart with hlt | hge
    · exact hmeta b hb hlt
    have hmark := (hc.compact ino hal).mem_inodeMarks href hge hb
    refine hbit b hb (one_le_refc_of_live (mem_allMarks hc.live hal hmark)) fun hgiven => ?_
    have hcount := hone b hgiven
    obtain ⟨j, halj, hfree, hmarkj⟩ := hgiven
    have hj : ino ≠ j := by
      rintro rfl
      rcases hinv.inode ino with heq | ⟨-, -, hvis, -⟩
      · rw [heq, hkeeps.inode ino hal.1, hal.2] at hfree
        simp at hfree
      · rcases hlive with htree | halw
        · cases hf : walk.failed with
          | false =>
            have hdirs := fun ino (ht : Reached faults v ino) => hc.directories ino ht.inTree
            have hreached := hc.reached (hres.treeOk hdirs hf) htree
            simp [hres.complete hdirs hf hreached] at hvis
          | true =>
            rw [hkeep hf, hkeeps.inode ino hal.1, hal.2] at hfree
            simp at hfree
        · rw [← hrep.inode ino (hosb ▸ hal.1), halw.2] at hfree
          simp at hfree
    have := two_le_refc_of_ne hc.live hal halj hj hmark hmarkj
    omega
  · intro i b hi href hb _
    rcases lt_or_ge b v.sb.dataStart with hlt | hge
    · exact hmeta b hb hlt
    have hsaved := hc.data_mem_savedUses hi href hge hb
    refine hbit b hb (one_le_refc_of_saved hsaved) fun hgiven => ?_
    have hcount := hone b hgiven
    obtain ⟨j, halj, -, hmarkj⟩ := hgiven
    have := two_le_refc_of_saved (mem_allMarks hc.live halj hmarkj) hsaved
    omega

theorem checkSuperblock_le (sb : Superblock) : checkSuperblock sb ≤ 8 := by
  have hone : ∀ {p : Prop} [Decidable p], (if p then 1 else 0) ≤ 1 := by
    intro p _
    split <;> omega
  unfold checkSuperblock
  generalize crc32c (bytes sb 0 112) = crc
  have h1 := @hone (sb.magic ≠ ixfsMagic) _
  have h2 := @hone (sb.version = 0 ∨ ixfsVersion < sb.version) _
  have h3 := @hone (sb.blockSize ≠ ixfsBlockSize) _
  have h4 := @hone (sb.totalBlocks = 0) _
  have h5 := @hone (sb.rootInode ≠ ixfsRootInode) _
  have h6 := @hone (¬ (sb.bitmapStart < sb.inodeStart ∧ sb.inodeStart < sb.dataStart)) _
  have h7 := @hone (sb.totalBlocks < sb.dataStart) _
  have h8 := @hone (crc ≠ sb.checksum) _
  omega

theorem superblockErrors_le (faults : ReadFaults) (v : Volume) : superblockErrors faults v ≤ 9 := by
  have := checkSuperblock_le v.sb
  unfold superblockErrors
  split <;> omega

theorem scrub_le {n : ℕ} (h : scrub faults v = some n) : n ≤ v.sb.totalBlocks := by
  unfold scrub at h
  obtain ⟨t, -, rfl⟩ := Option.map_eq_some_iff.mp h
  exact countP_le_length.trans_eq length_range

theorem result_fix_eq_zero {r : Report} (h : r.result true = 0) :
    r.traversalFailed = false ∧ r.incomplete = false ∧ r.repairFailed = false ∧
      r.unrepaired = 0 := by
  unfold Report.result at h
  split at h
  · simp at h
  · rename_i hflags
    simp only [Bool.not_true, Bool.false_and, Bool.false_eq_true, if_false, Bool.true_and] at h
    split at h
    · simp at h
    · rename_i hun
      simp only [Bool.true_and, Bool.or_eq_true, not_or, Bool.not_eq_true] at hflags
      rw [decide_eq_true_eq] at hun
      exact ⟨hflags.1.1, hflags.1.2, hflags.2, by omega⟩

theorem report_fix (faults : ReadFaults) (v : Volume) {orph : Orphans}
    (horph : orph = freeOrphans faults (!(walkTree faults true v).failed) (walkTree faults true v)
      (scanVolume faults v)) {r : Volume × Report} (hr : r = fsckPasses faults true v) :
    (r.2.superblockErrors = superblockErrors faults v ∧
      r.2.inodeErrors = (scanVolume faults v).inodeErrors ∧
      r.2.crossLinks = (scanVolume faults v).crossLinks) ∧
    (r.2.orphanInodes = orph.orphans ∧ r.2.inodesRepaired = orph.freed ∧
      r.2.badDirents = (walkTree faults true v).badDirents ∧
      r.2.direntsRepaired = (walkTree faults true v).repaired ∧
      r.2.traversalFailed = (walkTree faults true v).failed) ∧
    r.2.dataChecksumErrors = (if r.1.active then scrub faults r.1 else some 0).getD 0 ∧
      r.2.incomplete = (if r.1.active then scrub faults r.1 else some 0).isNone := by
  rw [hr, horph]
  unfold fsckPasses
  generalize superblockErrors faults v = n
  generalize scanVolume faults v = scan
  generalize walkTree faults true v = walk
  simp only [Bool.true_and, and_self]

theorem freeOrphans_le (faults : ReadFaults) (repair : Bool) (walk : Walk) (s : Scan) :
    (freeOrphans faults repair walk s).orphans ≤ walk.vol.sb.totalInodes := by
  have hle := @foldl_orphanStep_le faults repair walk.visited (inodeNumbers walk.vol.sb)
    ⟨walk.vol, s.expected, s.refc, 0, 0, false⟩
  rw [inodeNumbers, length_range'] at hle
  unfold freeOrphans
  rw [inodeNumbers]
  simp only at hle
  omega

theorem cleanRun_of_zero (hc : Checkable faults v) (hp : Plausible faults v)
    (hzero : (fsckPasses faults true v).2.result true = 0) :
    CleanRun faults v (fsckPasses faults true v).1 (walkTree faults true v)
        (freeOrphans faults (!(walkTree faults true v).failed) (walkTree faults true v)
          (scanVolume faults v)) ∧
      (if (fsckPasses faults true v).1.active then scrub faults (fsckPasses faults true v).1
        else some 0) = some 0 := by
  obtain ⟨hres, hinv, hrep, hcounts, hjournal⟩ := fsckPasses_fix hc hp rfl rfl rfl
  obtain ⟨hnf, hcomplete, hrfail, hun⟩ := result_fix_eq_zero hzero
  obtain ⟨⟨hsb, hie, hxl⟩, ⟨horph, hfreed, hbad, hdir, htrav⟩, hsums, hinc⟩ :=
    report_fix faults v rfl rfl
  have horphle := freeOrphans_le faults (!(walkTree faults true v).failed) (walkTree faults true v)
    (scanVolume faults v)
  generalize freeOrphans faults (!(walkTree faults true v).failed) (walkTree faults true v)
    (scanVolume faults v) = orph at *
  generalize fsckPasses faults true v = r at *
  generalize walkTree faults true v = walk at *
  rw [htrav] at hnf
  have hrepd := hres.repaired hnf rfl
  have hwsb : walk.vol.sb = v.sb := by rw [hres.vol]
  have hosb : orph.vol.sb = v.sb := hinv.writes.sb.trans hwsb
  -- the data checksums
  obtain ⟨n, hn, hnle⟩ : ∃ n, (if r.1.active then scrub faults r.1 else some 0) = some n ∧
      n ≤ v.sb.totalBlocks := by
    rw [hinc] at hcomplete
    cases hs : (if r.1.active then scrub faults r.1 else some 0) with
    | none => simp [hs] at hcomplete
    | some n =>
      refine ⟨n, rfl, ?_⟩
      split at hs
      · have hle := scrub_le hs
        rwa [hrep.layout.totalBlocks, hosb] at hle
      · simp only [Option.some.injEq] at hs
        omega
  rw [hn, Option.getD_some] at hsums
  -- nothing wraps
  have hall : r.2.superblockErrors + r.2.inodeErrors + r.2.crossLinks + r.2.dataChecksumErrors +
      (r.2.orphanInodes - r.2.inodesRepaired) + (r.2.badDirents - r.2.direntsRepaired) = 0 := by
    have hlt := hc.scan_lt
    have hsble := superblockErrors_le faults v
    have hmax := hp.counts.2.1
    have hino := hp.counts.2.2.2.2
    have hmax' : ixfsMaxBlocks = 8388608 := rfl
    rw [hwsb] at horphle
    unfold Report.unrepaired at hun
    omega
  have hle := hinv.le
  have hi0 : (scanVolume faults v).inodeErrors = 0 := by omega
  have hx0 : (scanVolume faults v).crossLinks = 0 := by omega
  have hn0 : n = 0 := by omega
  refine ⟨⟨hc, hp, hres, hnf, ?_, by omega, hrep, by omega, ?_, ?_, hcounts hnf hx0,
    hjournal hrfail⟩, hn0 ▸ hn⟩
  · rwa [hnf] at hinv
  · intro ino hmem
    rw [inodeErrors_scanVolume, sum_eq_zero_iff] at hi0
    exact hi0 _ (mem_map_of_mem hmem)
  · exact (crossLinks_scanVolume_eq_zero faults v).mp hx0

/-- Memory with the given fields, each with address, width and value. -/
def storeFields (m : ByteMem) (fields : List (ℕ × ℕ × ℕ)) : ByteMem :=
  fields.foldl (fun m f => writeLE m f.1 f.2.1 f.2.2) m

/-- Twelve blocks: superblock, bitmap, inode table, four blocks of journal, data from block 7. -/
def sampleSb : Superblock :=
  Superblock.withChecksum (storeFields (fun _ => 0)
    [(0, 4, ixfsMagic), (4, 4, 2), (8, 4, 4096), (12, 8, 12), (20, 8, 3),
    (28, 4, 4), (32, 4, 2), (36, 4, 1), (40, 4, 1), (44, 4, 2), (48, 4, 1), (52, 4, 7), (56, 4, 1),
    (92, 4, 3), (96, 4, 4)])

/-- The root directory in block 7 with one entry, the file of inode 2, whose only block is block 8
at index `index`, after a hole if `index` is not 0. The journal is empty with its head at `head`. -/
def sampleVolume (index head : ℕ) : Volume where
  sb := sampleSb
  disk := storeFields sampleSb [
    (8320, 2, 0x4000), (8322, 2, 1), (8328, 8, 4096), (8336, 4, 1), (8352, 8, 7), (8360, 4, 1),
    (8400, 1, 1),
    (8448, 2, 0x8000), (8450, 2, 1), (8456, 8, 4096 * (index + 1)), (8464, 4, 1), (8488, 4, index),
    (8492, 8, 8), (8500, 4, 1), (8528, 1, 2),
    (12288, 4, journalMagic.toNat), (12292, 4, head), (12296, 4, head), (28672, 4, 2)]
  bitmap := fun x => if x = 0 then 0xFF else if x = 1 then 0x03 else 0
  bitmapBytes := 2
  refcounts := none
  checksums := none
  snapshots := []
  readOnly := false
  active := false
  deviceBlocks := 12

def noFaults : ReadFaults := fun _ _ => false

theorem sample_inodes :
    (sampleVolume 0 1).inode 1 = ⟨0x4000, 1, 4096, 1, [⟨7, 1⟩, ⟨0, 0⟩, ⟨0, 0⟩, ⟨0, 0⟩], 1, 0⟩ ∧
      (sampleVolume 0 1).inode 2 = ⟨0x8000, 1, 4096, 1, [⟨0, 0⟩, ⟨8, 1⟩, ⟨0, 0⟩, ⟨0, 0⟩], 2, 0⟩ ∧
        ((sampleVolume 0 1).inode 3).isFree = true := by
  decide

theorem sample_totals : (sampleVolume 0 1).sb.totalInodes = 4 ∧
    (sampleVolume 0 1).sb.totalBlocks = 12 := by
  decide

theorem sample_noSavedTable (mb : ℕ) : ¬ SavedTable (sampleVolume 0 1) mb := by
  rintro ⟨se, hse, -⟩
  simp [sampleVolume] at hse

theorem sample_allocated {ino : ℕ} (hal : Allocated (sampleVolume 0 1) ino) :
    ino = 1 ∨ ino = 2 := by
  have hlt := hal.lt
  have hge := (inoInTable_iff.mp hal.1).1
  rw [sample_totals.1] at hlt
  obtain h | rfl : (ino = 1 ∨ ino = 2) ∨ ino = 3 := by omega
  · exact h
  · have hfree := hal.2
    rw [sample_inodes.2.2] at hfree
    simp at hfree

theorem sample_compact (ino : ℕ) (hal : Allocated (sampleVolume 0 1) ino) :
    ((sampleVolume 0 1).inode ino).Compact (sampleVolume 0 1).sb := by
  intro idx _ hin
  have hne := hin.1
  rcases sample_allocated hal with rfl | rfl
  · rw [sample_inodes.1] at hne ⊢
    rw [sample_totals.2]
    simp [getBlock, getBlockLoop, ixfsInlineExtents] at hne
    simp only
    omega
  · rw [sample_inodes.2.1] at hne ⊢
    rw [sample_totals.2]
    simp [getBlock, getBlockLoop, ixfsInlineExtents] at hne
    simp only
    omega

theorem sample_directories (ino : ℕ) (ht : InTree (sampleVolume 0 1) ino) :
    ((sampleVolume 0 1).inode ino).CompactDir := by
  have hino : ino = 1 ∨ ino = 2 := by
    cases ht with
    | root _ => exact .inl rfl
    | entry _ _ _ _ hal => exact sample_allocated hal
  intro hdir idx hidx _
  rcases hino with rfl | rfl
  · rw [sample_inodes.1] at hidx ⊢
    exact hidx
  · rw [sample_inodes.2.1] at hdir
    exact absurd hdir (by decide)

theorem sample_checkable : Checkable noFaults (sampleVolume 0 1) where
  live := fun _ _ _ => rfl
  target := fun _ _ _ _ _ _ _ _ => rfl
  saved := fun mb hmb => absurd hmb (sample_noSavedTable mb)
  compact := sample_compact
  savedCompact := fun i ⟨mb, hmb, _⟩ => absurd hmb (sample_noSavedTable mb)
  directories := sample_directories
  unshared := fun mb _ ⟨se, hse, _⟩ => by
    have hcount : (sampleVolume 0 1).snapshotSlots = [] := by decide
    simp [hcount] at hse
  refcounts := fun _ hsome => by simp [sampleVolume] at hsome
  journal := ⟨fun _ => by decide, fun _ _ => by decide⟩
  small := by decide

end ImpossibleOs.Ixfs
