import ImpossibleOs.Ixfs.FsckTree

/-!
What freeing the orphans gives up.

An orphan is freed only if each of its blocks is counted once. Such a block has
no other owner, live or saved, so the blocks given up are those of the freed
inodes and nothing else.
-/

namespace ImpossibleOs.Ixfs

open ByteMem Function List

variable {faults : ReadFaults} {repair : Bool} {v u : Volume} {visited : ByteMem}
  {s : Orphans} {ino b : ℕ}

/-! ### Marks of inodes in use -/

/-- The inodes in use that have blocks can be read where pass 3 marks these. -/
def LiveReads (faults : ReadFaults) (v : Volume) : Prop :=
  ∀ ino, Allocated v ino → inodeMarks v.sb (v.inode ino) ≠ [] →
    faults .live (inodeBlock v.sb ino) = false

theorem mem_inodeNumbers {sb : Superblock} :
    ino ∈ inodeNumbers sb ↔ 1 ≤ ino ∧ ino < sb.totalInodes := by
  rw [inodeNumbers, mem_range'_1]
  omega

theorem Allocated.mem_inodeNumbers (h : Allocated v ino) : ino ∈ inodeNumbers v.sb := by
  have := inoInTable_iff.mp h.1
  exact Ixfs.mem_inodeNumbers.mpr ⟨this.1, this.2.1⟩

theorem liveMarks_eq (hr : LiveReads faults v) (h : Allocated v ino) :
    liveMarks faults v ino = inodeMarks v.sb (v.inode ino) := by
  cases hf : faults .live (inodeBlock v.sb ino) with
  | false =>
    simp only [liveMarks, readInode, h.1, hf, Bool.not_false, Bool.and_self, if_true, h.2,
      Bool.false_eq_true, if_false]
  | true =>
    have hnil : inodeMarks v.sb (v.inode ino) = [] := by
      by_contra hne
      simp [hr ino h hne] at hf
    simp only [liveMarks, readInode, hf, Bool.not_true, Bool.and_false, Bool.false_eq_true,
      if_false, hnil]

theorem mem_allMarks (hr : LiveReads faults v) (h : Allocated v ino)
    (hb : b ∈ inodeMarks v.sb (v.inode ino)) : b ∈ allMarks faults v :=
  mem_flatMap.mpr ⟨ino, h.mem_inodeNumbers, by rwa [liveMarks_eq hr h]⟩

theorem add_le_sum_of_ne {f : ℕ → ℕ} {l : List ℕ} {i j : ℕ} (hi : i ∈ l) (hj : j ∈ l)
    (hne : i ≠ j) : f i + f j ≤ (l.map f).sum := by
  have hle : ∀ (l : List ℕ) (x : ℕ), x ∈ l → f x ≤ (l.map f).sum := fun l x hx =>
    single_le_sum (fun _ _ => Nat.zero_le _) _ (mem_map_of_mem hx)
  induction l with
  | nil => simp at hi
  | cons x l ih =>
    rw [map_cons, sum_cons]
    rcases mem_cons.mp hi with rfl | hi'
    · have := hle l j ((mem_cons.mp hj).resolve_left (Ne.symm hne))
      omega
    · rcases mem_cons.mp hj with rfl | hj'
      · have := hle l i hi'
        omega
      · have := ih hi' hj'
        omega

theorem two_le_refc_of_ne (hr : LiveReads faults v) {i j : ℕ} (hi : Allocated v i)
    (hj : Allocated v j) (hne : i ≠ j) (hbi : b ∈ inodeMarks v.sb (v.inode i))
    (hbj : b ∈ inodeMarks v.sb (v.inode j)) : 2 ≤ (scanVolume faults v).refc b := by
  apply two_le_refc_of_count
  rw [allMarks, count_flatMap]
  have hsum := add_le_sum_of_ne (f := List.count b ∘ liveMarks faults v) hi.mem_inodeNumbers
    hj.mem_inodeNumbers hne
  have hposi : 0 < List.count b (liveMarks faults v i) :=
    count_pos_iff.mpr (by rwa [liveMarks_eq hr hi])
  have hposj : 0 < List.count b (liveMarks faults v j) :=
    count_pos_iff.mpr (by rwa [liveMarks_eq hr hj])
  simp only [comp_apply] at hsum
  omega

theorem release_eq (sb : Superblock) (i : Inode) (s : Orphans) (idx : ℕ) :
    (InData sb (getBlock i idx) ∧ release sb i s idx =
      { s with
        expected := if Bitmap.test s.expected (getBlock i idx) then
          Bitmap.clear s.expected (getBlock i idx) else s.expected
        refc := if 0 < s.refc (getBlock i idx) then
          update s.refc (getBlock i idx) (s.refc (getBlock i idx) - 1) else s.refc }) ∨
      ¬ InData sb (getBlock i idx) ∧ release sb i s idx = s := by
  by_cases hin : InData sb (getBlock i idx)
  · refine .inl ⟨hin, ?_⟩
    obtain ⟨hne, hge, hlt⟩ := hin
    rw [release, if_neg (by omega)]
  · refine .inr ⟨hin, ?_⟩
    rw [release, if_pos]
    by_contra hno
    exact hin ⟨by omega, by omega, by omega⟩

theorem foldl_release (sb : Superblock) (i : Inode) (l : List ℕ) (s : Orphans) (b : ℕ) :
    (l.foldl (release sb i) s).vol = s.vol ∧ (l.foldl (release sb i) s).orphans = s.orphans ∧
    (l.foldl (release sb i) s).freed = s.freed ∧
    (l.foldl (release sb i) s).repairFailed = s.repairFailed ∧
    (b ∉ (l.map (getBlock i)).filter (fun blk => InData sb blk) →
      (l.foldl (release sb i) s).refc b = s.refc b ∧
        Bitmap.test (l.foldl (release sb i) s).expected b = Bitmap.test s.expected b) ∧
    (b ∈ (l.map (getBlock i)).filter (fun blk => InData sb blk) → s.refc b ≤ 1 →
      (l.foldl (release sb i) s).refc b = 0 ∧
        Bitmap.test (l.foldl (release sb i) s).expected b = false) ∧
    (s.refc b = 0 → Bitmap.test s.expected b = false →
      (l.foldl (release sb i) s).refc b = 0 ∧
        Bitmap.test (l.foldl (release sb i) s).expected b = false) := by
  induction l generalizing s with
  | nil =>
    exact ⟨rfl, rfl, rfl, rfl, fun _ => ⟨rfl, rfl⟩, fun hmem => by simp at hmem,
      fun hr he => ⟨hr, he⟩⟩
  | cons idx l ih =>
    rw [foldl_cons, map_cons]
    rcases release_eq sb i s idx with ⟨hin, heq⟩ | ⟨hout, heq⟩
    · obtain ⟨hvol, horph, hfreed, hfail, hout, hmem, hzero⟩ := ih (release sb i s idx)
      rw [filter_cons_of_pos (by simpa using hin)]
      have hself : getBlock i idx = b → s.refc b ≤ 1 → (release sb i s idx).refc b = 0 ∧
          Bitmap.test (release sb i s idx).expected b = false := by
        rintro rfl hle
        rw [heq]
        constructor
        · by_cases hpos : 0 < s.refc (getBlock i idx)
          · simp only [hpos, if_true, update_self]
            omega
          · simp only [hpos, if_false]
            omega
        · cases ht : Bitmap.test s.expected (getBlock i idx) with
          | true => simp [Bitmap.test_clear]
          | false => simp [ht]
      have hother : getBlock i idx ≠ b → (release sb i s idx).refc b = s.refc b ∧
          Bitmap.test (release sb i s idx).expected b = Bitmap.test s.expected b := by
        intro hne
        rw [heq]
        constructor
        · by_cases hpos : 0 < s.refc (getBlock i idx)
          · simp only [hpos, if_true, update_of_ne (Ne.symm hne)]
          · simp only [hpos, if_false]
        · cases ht : Bitmap.test s.expected (getBlock i idx) with
          | true => simp [Bitmap.test_clear, Ne.symm hne]
          | false => simp
      have hconst : (release sb i s idx).vol = s.vol ∧
          (release sb i s idx).orphans = s.orphans ∧ (release sb i s idx).freed = s.freed ∧
            (release sb i s idx).repairFailed = s.repairFailed := by
        rw [heq]
        exact ⟨rfl, rfl, rfl, rfl⟩
      refine ⟨hvol.trans hconst.1, horph.trans hconst.2.1, hfreed.trans hconst.2.2.1,
        hfail.trans hconst.2.2.2, fun hnot => ?_, fun hyes hle => ?_, fun hz ht => ?_⟩
      · rw [mem_cons, not_or] at hnot
        obtain ⟨hr, he⟩ := hout hnot.2
        obtain ⟨hr', he'⟩ := hother (Ne.symm hnot.1)
        exact ⟨hr.trans hr', he.trans he'⟩
      · by_cases hb : getBlock i idx = b
        · obtain ⟨hr, he⟩ := hself hb hle
          exact hzero hr he
        · obtain ⟨hr, he⟩ := hother hb
          exact hmem ((mem_cons.mp hyes).resolve_left (Ne.symm hb)) (hr ▸ hle)
      · by_cases hb : getBlock i idx = b
        · obtain ⟨hr, he⟩ := hself hb (by omega)
          exact hzero hr he
        · obtain ⟨hr, he⟩ := hother hb
          exact hzero (hr.trans hz) (he.trans ht)
    · rw [filter_cons_of_neg (by simpa using hout), heq]
      exact ih s

/-! ### Freeing the orphans -/

/-- Without repair the volume stays as it is. -/
theorem foldl_orphanStep_check (l : List ℕ) (s : Orphans) :
    (l.foldl (orphanStep faults false visited) s).vol = s.vol := by
  induction l generalizing s with
  | nil => rfl
  | cons ino l ih =>
    rw [foldl_cons, ih, orphanStep]
    split
    · rfl
    · split
      · rfl
      · split <;> rfl

theorem freeOrphans_check (w : Walk) (s : Scan) : (freeOrphans faults false w s).vol = w.vol :=
  foldl_orphanStep_check _ _

/-- Block `b` belongs to an inode of `v` that is free in `w`. -/
def GivenUp (v w : Volume) (b : ℕ) : Prop :=
  ∃ ino, Allocated v ino ∧ (w.inode ino).isFree = true ∧ b ∈ inodeMarks v.sb (v.inode ino)

/-- Pass 6 after the inodes `seen`, on the volume `u` that the walk of `v` left. -/
structure OrphInv (faults : ReadFaults) (repair : Bool) (v u : Volume) (visited : ByteMem)
    (seen : List ℕ) (s : Orphans) : Prop where
  writes : Writes (InRegion v.sb.inodeStart v.sb.inodeBlocks) u s.vol
  inode : ∀ ino, s.vol.inode ino = u.inode ino ∨ (s.vol.inode ino).isFree = true ∧
    Allocated v ino ∧ Bitmap.test visited ino = false ∧ ino ≠ 1
  blocks : ∀ b, (GivenUp v s.vol b ∧ (scanVolume faults v).refc b = 1 ∧ s.refc b = 0 ∧
      Bitmap.test s.expected b = false) ∨
    ¬ GivenUp v s.vol b ∧ s.refc b = (scanVolume faults v).refc b ∧
      Bitmap.test s.expected b = Bitmap.test (scanVolume faults v).expected b
  le : s.freed ≤ s.orphans
  left : s.orphans = s.freed → ∀ ino ∈ seen, inoInTable v.sb ino = true →
    (s.vol.inode ino).isFree = false → ino = 1 ∨ Bitmap.test visited ino = true ∨
      faults .orphan (inodeBlock v.sb ino) = true
  failed : s.repairFailed = false

structure KeepsInodes (v u : Volume) : Prop where
  sb : u.sb = v.sb
  inode : ∀ ino, inoInTable v.sb ino = true → u.inode ino = v.inode ino

variable {seen : List ℕ}

theorem OrphInv.skip (h : OrphInv faults repair v u visited seen s)
    (hskip : inoInTable v.sb ino = true → (s.vol.inode ino).isFree = false →
      ino = 1 ∨ Bitmap.test visited ino = true ∨ faults .orphan (inodeBlock v.sb ino) = true) :
    OrphInv faults repair v u visited (seen ++ [ino]) s := by
  refine { h with left := fun heq x hx hin hfree => ?_ }
  rcases mem_append.mp hx with hx | hx
  · exact h.left heq x hx hin hfree
  · rw [mem_singleton] at hx
    subst hx
    exact hskip hin hfree

theorem OrphInv.free (hu : KeepsInodes v u) (hr : LiveReads faults v)
    (h : OrphInv faults true v u visited seen s) (hal : Allocated v ino)
    (hfree : (s.vol.inode ino).isFree = false) (hne : ino ≠ 1)
    (hvis : Bitmap.test visited ino = false)
    (hread : faults .orphan (inodeBlock v.sb ino) = false)
    (hshared : isShared s.vol.sb s.refc (v.inode ino) = false) :
    OrphInv faults true v u visited (seen ++ [ino])
      (freeOrphan faults (v.inode ino) { s with orphans := s.orphans + 1 } ino) := by
  have hsb : s.vol.sb = v.sb := h.writes.sb.trans hu.sb
  -- a block of the inode is counted once, by this inode
  have hsingle : ∀ b ∈ inodeMarks v.sb (v.inode ino), s.refc b = 1 ∧
      (scanVolume faults v).refc b = 1 := by
    intro b hb
    have hpos := one_le_refc_of_live (mem_allMarks hr hal hb)
    have hle : s.refc b ≤ 1 := by
      obtain ⟨idx, hlt, hlt', hget, hin⟩ := mem_inodeMarks.mp hb
      by_contra hgt
      rw [isShared, any_eq_false] at hshared
      refine hshared idx (mem_range.mpr (lt_min hlt (hsb ▸ hlt'))) ?_
      simp only [hget, hsb, Bool.and_eq_true, decide_eq_true_eq]
      exact ⟨⟨hin.1, hin.2.2⟩, by omega⟩
    rcases h.blocks b with ⟨⟨j, halj, hfreej, hbj⟩, hone, -⟩ | ⟨-, heq, -⟩
    · have hij : ino ≠ j := by
        rintro rfl
        simp [hfree] at hfreej
      have := two_le_refc_of_ne hr hal halj hij hb hbj
      omega
    · omega
  obtain ⟨w, hw, hclears⟩ := @writeInode_zero s.vol (faults .orphan) ino (hsb ▸ hal.1)
    (by rw [hsb]; exact hread)
  have hrelease := foldl_release s.vol.sb (v.inode ino) (scannedIndices s.vol.sb (v.inode ino))
    { s with orphans := s.orphans + 1, vol := w, freed := s.freed + 1 }
  have hstep : freeOrphan faults (v.inode ino) { s with orphans := s.orphans + 1 } ino =
      (scannedIndices s.vol.sb (v.inode ino)).foldl (release s.vol.sb (v.inode ino))
        { s with orphans := s.orphans + 1, vol := w, freed := s.freed + 1 } := by
    simp only [freeOrphan, hw]
  rw [hstep]
  generalize (scannedIndices s.vol.sb (v.inode ino)).foldl (release s.vol.sb (v.inode ino))
    { s with orphans := s.orphans + 1, vol := w, freed := s.freed + 1 } = s' at hrelease
  obtain ⟨hvol, horph, hfreed, hfail, -⟩ := hrelease 0
  simp only at hvol horph hfreed hfail
  have hgiven : ∀ b, GivenUp v s'.vol b ↔
      b ∈ inodeMarks v.sb (v.inode ino) ∨ GivenUp v s.vol b := by
    intro b
    rw [hvol]
    constructor
    · rintro ⟨j, halj, hfreej, hbj⟩
      by_cases hj : j = ino
      · exact .inl (hj ▸ hbj)
      · exact .inr ⟨j, halj, by rwa [← hclears.others j hj], hbj⟩
    · rintro (hb | ⟨j, halj, hfreej, hbj⟩)
      · exact ⟨ino, hal, hclears.freed, hb⟩
      · have hj : j ≠ ino := by
          rintro rfl
          simp [hfree] at hfreej
        exact ⟨j, halj, by rwa [hclears.others j hj], hbj⟩
  refine ⟨?_, fun j => ?_, fun b => ?_, ?_, fun heq j hj hin hf => ?_, hfail.trans h.failed⟩
  · rw [hvol]
    refine h.writes.trans ?_
    have := hclears.writes
    rwa [hsb] at this
  · rw [hvol]
    by_cases hj : j = ino
    · subst hj
      exact .inr ⟨hclears.freed, hal, hvis, hne⟩
    · rw [hclears.others j hj]
      exact h.inode j
  · obtain ⟨-, -, -, -, hout, hmem, -⟩ := hrelease b
    rw [hsb] at hout hmem
    by_cases hb : b ∈ inodeMarks v.sb (v.inode ino)
    · obtain ⟨hone, hone'⟩ := hsingle b hb
      obtain ⟨hzero, hexp⟩ := hmem hb hone.le
      exact .inl ⟨(hgiven b).mpr (.inl hb), hone', hzero, hexp⟩
    · obtain ⟨hsame, hexp⟩ := hout hb
      simp only at hsame hexp
      rw [hsame, hexp, hgiven b, or_iff_right hb]
      exact h.blocks b
  · have := h.le
    omega
  · rw [hvol] at hf
    rcases mem_append.mp hj with hj | hj
    · refine h.left (by omega) j hj hin ?_
      have hji : j ≠ ino := by
        rintro rfl
        simp [hclears.freed] at hf
      rwa [hclears.others j hji] at hf
    · rw [mem_singleton] at hj
      subst hj
      simp [hclears.freed] at hf

theorem OrphInv.step (hu : KeepsInodes v u) (hr : LiveReads faults v)
    (h : OrphInv faults repair v u visited seen s) :
    OrphInv faults repair v u visited (seen ++ [ino]) (orphanStep faults repair visited s ino) := by
  have hsb : s.vol.sb = v.sb := h.writes.sb.trans hu.sb
  unfold orphanStep
  split
  · rename_i hskip
    exact h.skip fun _ _ => hskip.imp_right .inl
  · rename_i hskip
    rw [not_or, Bool.not_eq_true] at hskip
    obtain ⟨hne, hvis⟩ := hskip
    by_cases hread : inoInTable v.sb ino = true ∧ faults .orphan (inodeBlock v.sb ino) = false
    · have hsome : readInode (faults .orphan) s.vol ino = some (s.vol.inode ino) := by
        rw [readInode, hsb, hread.1, hread.2]
        rfl
      rw [hsome]
      simp only
      cases hfree : (s.vol.inode ino).isFree with
      | true =>
        rw [if_pos rfl]
        exact h.skip fun _ hno => by simp [hfree] at hno
      | false =>
        rw [if_neg Bool.false_ne_true]
        -- an inode in use here is the one of the volume at the start
        have hsame : s.vol.inode ino = v.inode ino := by
          rcases h.inode ino with heq | ⟨hno, -⟩
          · exact heq.trans (hu.inode ino hread.1)
          · simp [hfree] at hno
        have hal : Allocated v ino := ⟨hread.1, hsame ▸ hfree⟩
        split
        · rename_i hdo
          rw [Bool.and_eq_true, Bool.not_eq_true', hsame] at hdo
          obtain ⟨rfl, hshared⟩ := hdo
          rw [hsame]
          exact OrphInv.free hu hr h hal hfree hne hvis hread.2 hshared
        · -- an orphan that stays is counted and not repaired
          refine ⟨h.writes, h.inode, h.blocks, ?_, fun heq => ?_, h.failed⟩
          · have := h.le
            simp only
            omega
          · have := h.le
            simp only at heq
            omega
    · have hnone : readInode (faults .orphan) s.vol ino = none := by
        rw [readInode, hsb, if_neg]
        simpa using hread
      rw [hnone]
      refine h.skip fun hin _ => .inr (.inr ?_)
      by_contra hno
      exact hread ⟨hin, by simpa using hno⟩

theorem OrphInv.foldl (hu : KeepsInodes v u) (hr : LiveReads faults v) (l : List ℕ)
    (h : OrphInv faults repair v u visited seen s) : OrphInv faults repair v u visited (seen ++ l)
      (l.foldl (orphanStep faults repair visited) s) := by
  induction l generalizing s seen with
  | nil => rwa [append_nil]
  | cons ino l ih =>
    have hstep : OrphInv faults repair v u visited (seen ++ [ino])
        (orphanStep faults repair visited s ino) := h.step hu hr
    have hrest := ih hstep
    rwa [append_assoc] at hrest

theorem freeOrphans_spec {w : Walk} (hw : KeepsInodes v w.vol) (hr : LiveReads faults v) :
    OrphInv faults repair v w.vol w.visited (inodeNumbers v.sb)
      (freeOrphans faults repair w (scanVolume faults v)) := by
  have hstart : OrphInv faults repair v w.vol w.visited []
      ⟨w.vol, (scanVolume faults v).expected, (scanVolume faults v).refc, 0, 0, false⟩ := by
    refine ⟨Writes.refl _, fun ino => .inl rfl, fun b => .inr ⟨?_, rfl, rfl⟩, le_rfl,
      fun _ ino hno => by simp at hno, rfl⟩
    rintro ⟨ino, hal, hfree, -⟩
    rw [hw.inode ino hal.1, hal.2] at hfree
    simp at hfree
  rw [freeOrphans, hw.sb]
  exact hstart.foldl hw hr (inodeNumbers v.sb)

end ImpossibleOs.Ixfs
