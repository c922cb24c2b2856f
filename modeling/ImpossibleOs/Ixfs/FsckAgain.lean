import ImpossibleOs.Ixfs.FsckChain

/-!
The second run of the IXFS checker.

After a fixing run that returned 0 every inode in use is in the tree, and the
inodes that are gone were counted nowhere else.
-/

namespace ImpossibleOs.Ixfs

open ByteMem Function List

variable {faults : ReadFaults} {v w : Volume} {walk : Walk} {orph : Orphans} {ino b : ℕ}

/-- A fixing run of `v` that found nothing it could not repair and left `w`. -/
structure CleanRun (faults : ReadFaults) (v w : Volume) (walk : Walk) (orph : Orphans) : Prop where
  checkable : Checkable faults v
  accepted : Plausible faults v
  walked : WalkResult faults true v walk
  walkOk : walk.failed = false
  orphans : OrphInv faults true v walk.vol walk.visited (inodeNumbers v.sb) orph
  freed : orph.orphans = orph.freed
  repaired : Repaired faults orph.vol w orph.expected
  superblock : superblockErrors faults v = 0
  inodes : ∀ ino ∈ inodeNumbers v.sb, liveFaults faults v ino = 0
  cross : (allMarks faults v).Nodup
  counts : ∀ t, w.refcounts = some t → ∀ b ∈ countedBlocks v.sb t, orph.refc b ≠ 0 →
    (t.table b).toNat = orph.refc b
  journal : (checkJournal faults false w).errors = 0

theorem WalkResult.keepsInodes {fix : Bool} (h : WalkResult faults fix v walk)
    (hr : TableBelow v) : KeepsInodes v walk.vol := by
  rw [h.vol]
  exact ⟨rfl, fun ino hin => h.cleared.inode hr hin⟩

theorem decide_inData_congr {sb sb' : Superblock} (hl : SameLayout sb sb') (blk : ℕ) :
    decide (InData sb' blk) = decide (InData sb blk) := by
  rw [decide_eq_decide, InData, InData, hl.totalBlocks, hl.dataStart]

theorem inodeMarks_congr {sb sb' : Superblock} (hl : SameLayout sb sb') (i : Inode) :
    inodeMarks sb' i = inodeMarks sb i := by
  simp only [inodeMarks, scannedIndices, hl.totalBlocks, decide_inData_congr hl]

theorem inodeFaults_congr {sb sb' : Superblock} (hl : SameLayout sb sb') (i : Inode) :
    inodeFaults sb' i = inodeFaults sb i := by
  have hlead : leadsOut sb' i = leadsOut sb i := by
    funext idx
    simp only [leadsOut, decide_inData_congr hl]
  simp only [inodeFaults, scannedIndices, hl.totalBlocks, hlead]

theorem allocated_of_mem_liveMarks (hb : b ∈ liveMarks faults v ino) :
    Allocated v ino ∧ b ∈ inodeMarks v.sb (v.inode ino) := by
  unfold liveMarks readInode at hb
  split at hb
  · simp at hb
  · rename_i i hi
    split at hi
    · rename_i hread
      rw [Option.some.injEq] at hi
      subst hi
      rw [Bool.and_eq_true] at hread
      split at hb
      · simp at hb
      · rename_i hfree
        exact ⟨⟨hread.1, by simpa using hfree⟩, hb⟩
    · simp at hi

theorem foldl_orphanStep_none {repair : Bool} {visited : ByteMem} {s : Orphans} (l : List ℕ)
    (h : ∀ ino, Allocated s.vol ino → ino = 1 ∨ Bitmap.test visited ino = true ∨
      faults .orphan (inodeBlock s.vol.sb ino) = true) :
    l.foldl (orphanStep faults repair visited) s = s := by
  have hstep : ∀ ino, orphanStep faults repair visited s ino = s := by
    intro ino
    unfold orphanStep
    split
    · rfl
    · rename_i hskip
      unfold readInode
      by_cases hin : inoInTable s.vol.sb ino = true
      · cases hfree : (s.vol.inode ino).isFree with
        | false =>
          rw [not_or] at hskip
          have hfault := ((h ino ⟨hin, hfree⟩).resolve_left hskip.1).resolve_left hskip.2
          simp [hfault]
        | true =>
          split
          · rfl
          · rename_i i hi
            split at hi
            · rw [Option.some.injEq] at hi
              rw [← hi, if_pos hfree]
            · simp at hi
      · simp [hin]
  induction l with
  | nil => rfl
  | cons ino l ih => rw [foldl_cons, hstep, ih]

namespace CleanRun

variable (h : CleanRun faults v w walk orph)
include h

theorem sb : orph.vol.sb = v.sb := by
  rw [h.orphans.writes.sb, h.walked.vol]

theorem layout : SameLayout v.sb w.sb :=
  h.sb ▸ h.repaired.layout

theorem keeps : KeepsInodes v walk.vol :=
  h.walked.keepsInodes h.accepted.ranges.2.1

/-! ### Inodes -/

theorem inode (hin : inoInTable v.sb ino = true) :
    w.inode ino = v.inode ino ∨ (w.inode ino).isFree = true ∧ (orph.vol.inode ino).isFree = true ∧
      Allocated v ino ∧ Bitmap.test walk.visited ino = false ∧ ino ≠ 1 := by
  have hw := h.repaired.inode ino (h.sb.symm ▸ hin)
  rcases h.orphans.inode ino with heq | ⟨hfree, hal, hvis, hne⟩
  · exact .inl (hw.trans (heq.trans (h.keeps.inode ino hin)))
  · exact .inr ⟨hw.symm ▸ hfree, hfree, hal, hvis, hne⟩

theorem inTable (ino : ℕ) :
    inoInTable w.sb ino = inoInTable v.sb ino := inoInTable_congr h.layout ino

theorem allocated (hal : Allocated w ino) : Allocated v ino ∧ w.inode ino = v.inode ino ∧
      (ino = 1 ∨ Bitmap.test walk.visited ino = true ∨
        faults .orphan (inodeBlock v.sb ino) = true) := by
  have hin : inoInTable v.sb ino = true := h.inTable ino ▸ hal.1
  have hsame : w.inode ino = v.inode ino := by
    rcases h.inode hin with heq | ⟨hfree, -⟩
    · exact heq
    · simp [hal.2] at hfree
  have halv : Allocated v ino := ⟨hin, hsame ▸ hal.2⟩
  refine ⟨halv, hsame, h.orphans.left h.freed ino halv.mem_inodeNumbers hin ?_⟩
  have hw := h.repaired.inode ino (h.sb.symm ▸ hin)
  rw [← hw]
  exact hal.2

theorem visited (hin : inoInTable v.sb ino = true)
    (hvis : Bitmap.test walk.visited ino = true) : w.inode ino = v.inode ino := by
  rcases h.inode hin with heq | ⟨-, -, -, hno, -⟩
  · exact heq
  · simp [hvis] at hno

theorem found_of_visited (hal : Found faults v ino)
    (hvis : Bitmap.test walk.visited ino = true) : Found faults w ino := by
  refine ⟨⟨(h.inTable ino).trans hal.1.1, ?_⟩, ?_⟩
  · rw [h.visited hal.1.1 hvis]
    exact hal.1.2
  · rw [inodeBlock_congr h.layout]
    exact hal.2

theorem found_of_after (hal : Found faults w ino) : Found faults v ino :=
  ⟨(h.allocated hal.1).1, inodeBlock_congr h.layout ino ▸ hal.2⟩

/-! ### The tree -/

theorem directories (ino : ℕ) (ht : Reached faults v ino) : (v.inode ino).CompactDir :=
  h.checkable.directories ino ht.inTree

theorem treeOk : TreeOk faults v := h.walked.treeOk h.directories h.walkOk

section

variable (ht : Reached faults v ino)
include ht

theorem complete :
    Bitmap.test walk.visited ino = true := h.walked.complete h.directories h.walkOk ht

theorem walkedInode (hw : Walked v ino) :
    inoInTable v.sb ino = true ∧ w.inode ino = v.inode ino := by
  have hvis := h.complete ht
  have hin := (h.walked.done h.walkOk ino hvis hw).ok.table
  exact ⟨hin, h.visited hin hvis⟩

theorem inTable_of_reached : inoInTable v.sb ino = true := by
  cases ht with
  | root hroot => exact (h.walkedInode (.root hroot) (.inl rfl)).1
  | entry _ _ _ _ hal => exact hal.1.1

theorem treeInode : w.inode ino = v.inode ino := h.visited (h.inTable_of_reached ht) (h.complete ht)

theorem dirBlock {blk : ℕ} (hblk : DirBlock v ino blk) :
    (∀ e < 16, entryIno w.disk blk e = entryIno walk.vol.disk blk e) ∧
      ∀ e < 16, entryIno w.disk blk e = 0 ∨ Found faults w (entryIno w.disk blk e) := by
  obtain ⟨hdir, hne, idx, hidx, rfl⟩ := hblk
  have hd := h.walked.done h.walkOk ino (h.complete ht) (.inr hdir)
  have hlt := h.directories ino ht hdir idx hidx hne
  have hok := hd.ok.blocks hdir idx (lt_min hidx hlt)
  have hent := hd.entries hdir idx (lt_min hidx hlt) hne
  have hge : v.sb.dataStart ≤ getBlock (v.inode ino) idx := (hok.resolve_left hne).1
  have hagree : BlockAgree (getBlock (v.inode ino) idx) walk.vol.disk w.disk := by
    refine AgreeOn.trans (h.orphans.writes.disk _ fun hin => ?_)
      (h.repaired.data _ (h.sb.symm ▸ hge))
    have := h.accepted.ranges.2.1.lt hin
    omega
  have hsame : ∀ e < 16, entryIno w.disk (getBlock (v.inode ino) idx) e =
      entryIno walk.vol.disk (getBlock (v.inode ino) idx) e :=
    fun e he => hagree.readLE_eq (by omega) (by omega)
  refine ⟨hsame, fun e he => ?_⟩
  rw [hsame e he]
  rcases (hent e he).2 rfl with hzero | hal
  · exact .inl hzero
  · exact .inr (h.found_of_visited hal ((hent e he).1 hal))

omit ht in
theorem reached_of_after (ht : Reached faults w ino) : Reached faults v ino := by
  induction ht with
  | root hroot => exact .root (h.layout.totalInodes ▸ hroot)
  | @entry ino blk e t _ hblk he hent hal ih =>
    have halv := h.found_of_after hal
    have hblk' : DirBlock v ino blk := by
      unfold DirBlock at hblk ⊢
      rwa [h.treeInode ih] at hblk
    have hwalk := (h.dirBlock ih hblk').1 e he
    rw [hent] at hwalk
    refine ih.entry hblk' he ?_ halv
    rw [hwalk]
    refine h.walked.cleared.orig he ?_
    rw [← hwalk]
    rintro rfl
    exact not_allocated_zero v halv.1

theorem reached_after : Reached faults w ino := by
  induction ht with
  | root hroot => exact .root (h.layout.totalInodes.symm ▸ hroot)
  | @entry ino blk e t hin hblk he hent hal ih =>
    have htree : Reached faults v t := hin.entry hblk he hent hal
    have hblk' : DirBlock w ino blk := by
      unfold DirBlock at hblk ⊢
      rwa [h.treeInode hin]
    refine ih.entry hblk' he ?_ (h.found_of_visited hal (h.complete htree))
    rw [(h.dirBlock hin hblk).1 e he, h.walked.cleared.kept he (hent ▸ hal), hent]

end

theorem treeOk_after : TreeOk faults w := by
  intro ino ht hw
  have htv := h.reached_of_after ht
  have hsame := h.treeInode htv
  have hwv : Walked v ino := by
    unfold Walked at hw ⊢
    rwa [hsame] at hw
  have hok := h.treeOk ino htv hwv
  refine ⟨(h.inTable ino).trans hok.table, ?_, ?_⟩
  · rw [inodeBlock_congr h.layout]
    exact hok.reads
  · unfold BlockOk
    rw [hsame, h.layout.dataStart, h.layout.totalBlocks]
    exact hok.blocks

theorem treeClean_after : TreeClean faults w := by
  intro ino blk ht hblk
  have htv := h.reached_of_after ht
  have hblk' : DirBlock v ino blk := by
    unfold DirBlock at hblk ⊢
    rwa [h.treeInode htv] at hblk
  exact (h.dirBlock htv hblk').2

theorem liveReads_after : LiveReads faults w := by
  intro ino hal hmarks
  obtain ⟨halv, hsame, -⟩ := h.allocated hal
  rw [hsame, inodeMarks_congr h.layout] at hmarks
  rw [inodeBlock_congr h.layout]
  exact h.checkable.live ino halv hmarks

theorem tableBelow_after : TableBelow w := by
  unfold TableBelow
  rw [h.layout.inodeStart, h.layout.inodeBlocks, h.layout.dataStart]
  exact h.accepted.ranges.2.1

theorem directories_after (ino : ℕ) (ht : Reached faults w ino) : (w.inode ino).CompactDir := by
  have htv := h.reached_of_after ht
  rw [h.treeInode htv]
  exact h.directories ino htv

theorem walk_after :
    (walkTree faults false w).failed = false ∧ (walkTree faults false w).badDirents = 0 ∧
      (walkTree faults false w).vol = w ∧ ∀ ino, Allocated w ino →
        ino = 1 ∨ Bitmap.test (walkTree faults false w).visited ino = true ∨
          faults .orphan (inodeBlock w.sb ino) = true := by
  have hres : WalkResult faults false w (walkTree faults false w) :=
    walkTree_spec h.tableBelow_after
  have hnf : (walkTree faults false w).failed = false := by
    cases hf : (walkTree faults false w).failed with
    | false => rfl
    | true => exact absurd h.treeOk_after (hres.failed hf)
  refine ⟨hnf, hres.clean h.treeClean_after, hres.check rfl, fun ino hal => ?_⟩
  rcases (h.allocated hal).2.2 with rfl | hvis | hfault
  · exact .inl rfl
  · refine .inr (.inl (hres.complete h.directories_after hnf (h.reached_after ?_)))
    exact h.walked.sound ino hvis
  · rw [inodeBlock_congr h.layout]
    exact .inr (.inr hfault)

/-! ### The counts -/

theorem liveMarks_after (ino : ℕ) :
    (Allocated w ino ∧ liveMarks faults w ino = liveMarks faults v ino) ∨
      ¬ Allocated w ino ∧ liveMarks faults w ino = [] ∧
        ∀ b ∈ liveMarks faults v ino, GivenUp v orph.vol b := by
  by_cases hal : Allocated w ino
  · obtain ⟨halv, hsame, -⟩ := h.allocated hal
    refine .inl ⟨hal, ?_⟩
    rw [liveMarks_eq h.liveReads_after hal, liveMarks_eq h.checkable.live halv, hsame,
      inodeMarks_congr h.layout]
  · refine .inr ⟨hal, ?_, fun b hb => ?_⟩
    · exact eq_nil_iff_forall_not_mem.mpr fun b hb => hal (allocated_of_mem_liveMarks hb).1
    · obtain ⟨halv, hmark⟩ := allocated_of_mem_liveMarks hb
      rcases h.inode halv.1 with heq | ⟨-, hfree, -⟩
      · refine absurd ⟨(h.inTable ino).trans halv.1, ?_⟩ hal
        rw [heq]
        exact halv.2
      · exact ⟨ino, halv, hfree, hmark⟩

theorem inodeNumbers_after : inodeNumbers w.sb = inodeNumbers v.sb := by
  rw [inodeNumbers, inodeNumbers, h.layout.totalInodes]

theorem count_after (b : ℕ) : (allMarks faults w).count b ≤ (allMarks faults v).count b ∧
      (¬ GivenUp v orph.vol b → (allMarks faults w).count b = (allMarks faults v).count b) := by
  unfold allMarks
  rw [count_flatMap, count_flatMap, h.inodeNumbers_after]
  constructor
  · refine sum_le_sum fun ino _ => ?_
    rcases h.liveMarks_after ino with ⟨-, heq⟩ | ⟨-, hnil, -⟩
    · simp only [comp_apply, heq, le_refl]
    · simp only [comp_apply, hnil, count_nil, Nat.zero_le]
  · intro hno
    congr 1
    refine map_congr_left fun ino _ => ?_
    simp only [comp_apply]
    rcases h.liveMarks_after ino with ⟨-, heq⟩ | ⟨-, hnil, hgiven⟩
    · rw [heq]
    · rw [hnil, count_nil, count_eq_zero.mpr fun hb => hno (hgiven b hb)]

theorem savedTable_agree {mb : ℕ} (hmb : ScannedTable v mb) : BlockAgree mb v.disk w.disk := by
  have hge := hmb.dataStart_le
  have hwalk : BlockAgree mb v.disk walk.vol.disk := by
    refine h.walked.cleared.blocks mb ?_
    rintro ⟨-, ino, hal, hdir, hne, idx, hidx, hget⟩
    have hidx' := lt_of_lt_of_le hidx (Nat.mod_lt _ (by norm_num)).le
    have hfile := (h.checkable.unshared mb ino hmb hal ⟨hne, idx, hidx', hget⟩).2
    simp [hdir] at hfile
  refine (hwalk.trans (h.orphans.writes.disk _ fun hin => ?_)).trans
    (h.repaired.data _ (h.sb.symm ▸ hge))
  have := h.accepted.ranges.2.1.lt hin
  omega

theorem savedUses_after : savedUses faults w = savedUses faults v := by
  have hsnap : w.snapshots = v.snapshots := by
    rw [h.repaired.snapshots, h.orphans.writes.snapshots, h.walked.vol]
  have hslots : w.snapshotSlots = v.snapshotSlots := by
    rw [Volume.snapshotSlots, Volume.snapshotSlots, h.layout.snapshotCount, hsnap]
  have hblocks : ∀ se, savedBlocks w.sb se = savedBlocks v.sb se := fun se => by
    simp only [savedBlocks, h.layout.dataStart, h.layout.totalBlocks]
  unfold savedUses
  rw [hslots]
  refine flatMap_congr fun se hse => ?_
  unfold snapshotUses
  rw [hblocks se]
  congr 2
  refine flatMap_congr fun mb hmb => ?_
  have hagree := h.savedTable_agree ⟨se, hse, hmb⟩
  have hinodes : savedInodes w mb = savedInodes v mb := by
    refine map_congr_left fun k hk => ?_
    exact decodeInode_blockAgree (mem_range.mp hk) hagree
  have hmarks : savedMarks w.sb = savedMarks v.sb := by
    funext i
    rw [savedMarks, savedMarks, inodeMarks_congr h.layout]
  rw [savedBlockMarks, savedBlockMarks, hinodes, hmarks]

theorem refc_after (b : ℕ) : (scanVolume faults w).refc b = orph.refc b := by
  rw [scanVolume_eq', h.savedUses_after]
  rcases h.orphans.blocks b with ⟨⟨ino, hal, hfree, hmark⟩, hone, hzero, -⟩ | ⟨hno, hsame, -⟩
  · -- a block of a freed inode had no other owner
    have hin := (mem_inodeMarks.mp hmark).choose_spec.2.2.2
    have hcount : (allMarks faults w).count b = 0 := by
      refine count_eq_zero.mpr fun hb => ?_
      obtain ⟨j, -, hbj⟩ := mem_flatMap.mp hb
      obtain ⟨halw, -⟩ := allocated_of_mem_liveMarks hbj
      obtain ⟨halv, hsame, -⟩ := h.allocated halw
      have hj : ino ≠ j := by
        rintro rfl
        have hwfree := h.repaired.inode ino (h.sb.symm ▸ hal.1)
        rw [← hwfree, halw.2] at hfree
        simp at hfree
      have hmarkj : b ∈ inodeMarks v.sb (v.inode j) := by
        have := (allocated_of_mem_liveMarks hbj).2
        rwa [hsame, inodeMarks_congr h.layout] at this
      have := two_le_refc_of_ne h.checkable.live hal halv hj hmark hmarkj
      omega
    rw [foldl_use_of_notMem, hzero, refc_liveScan, hcount, if_neg]
    · rfl
    · rw [h.layout.dataStart]
      have := hin.2.1
      omega
    · intro u hu heq
      cases u with
      | table mb =>
        obtain rfl : b = mb := heq
        obtain ⟨se, hse, hu⟩ := mem_flatMap.mp hu
        have hmb : b ∈ savedBlocks v.sb se := by
          rcases mem_append.mp hu with hu | hu
          · obtain ⟨x, hx, heq⟩ := mem_map.mp hu
            rw [Use.table.injEq] at heq
            exact heq ▸ hx
          · obtain ⟨x, -, heq⟩ := mem_map.mp hu
            simp at heq
        -- a file of the tree is not freed
        have htree := (h.checkable.unshared b ino ⟨se, hse, hmb⟩ hal
          (refers_of_mem_inodeMarks hmark (blocks_lt v ino))).1
        have hkept := h.visited hal.1 (h.complete (h.checkable.reached h.treeOk htree))
        rw [← h.repaired.inode ino (h.sb.symm ▸ hal.1), hkept, hal.2] at hfree
        simp at hfree
      | data blk =>
        obtain rfl : b = blk := heq
        have := two_le_refc_of_saved (mem_allMarks h.checkable.live hal hmark) hu
        omega
  · rw [hsame, scanVolume_eq']
    refine (steady_liveScan faults w).foldl_use_congr (steady_liveScan faults v) _ ?_
    rw [refc_liveScan, refc_liveScan, (h.count_after b).2 hno, h.layout.dataStart,
      h.layout.totalBlocks]

theorem expected_after (b : ℕ) :
    Bitmap.test (scanVolume faults w).expected b = Bitmap.test orph.expected b := by
  rw [(steady_scanVolume faults w).expected, h.refc_after]
  rcases h.orphans.blocks b with ⟨-, -, hzero, hexp⟩ | ⟨-, hsame, hexp⟩
  · rw [hzero, hexp]
    rfl
  · rw [hsame, hexp, (steady_scanVolume faults v).expected]

theorem crossLinks_after : (scanVolume faults w).crossLinks = 0 := by
  rw [crossLinks_scanVolume_eq_zero, nodup_iff_count_le_one]
  intro b
  exact (h.count_after b).1.trans (nodup_iff_count_le_one.mp h.cross b)

theorem inodeErrors_after : (scanVolume faults w).inodeErrors = 0 := by
  rw [inodeErrors_scanVolume, sum_eq_zero_iff]
  intro n hn
  obtain ⟨ino, hino, rfl⟩ := mem_map.mp hn
  rw [h.inodeNumbers_after] at hino
  have hzero := h.inodes ino hino
  unfold liveFaults readInode at hzero ⊢
  rw [h.inTable ino, inodeBlock_congr h.layout]
  split at hzero
  · simp at hzero
  · rename_i i hi
    split at hi
    · rename_i hread
      rw [Option.some.injEq] at hi
      subst hi
      rw [if_pos hread]
      rw [Bool.and_eq_true] at hread
      rcases h.inode hread.1 with heq | ⟨hfree, -⟩
      · simp only [heq, inodeFaults_congr h.layout]
        exact hzero
      · simp only [hfree, if_true]
    · simp at hi

end CleanRun

end ImpossibleOs.Ixfs
