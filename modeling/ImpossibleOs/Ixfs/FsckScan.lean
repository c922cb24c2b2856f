import Mathlib.Algebra.Order.BigOperators.Group.List
import ImpossibleOs.Ixfs.Fsck

/-!
What the first passes of the IXFS checker count.

The scan of an inode is a list of marks, one for each index that leads into the
data region. Pass 3 is then the marks of all inodes in a row, and pass 4 a list
of uses: the blocks of the saved tables, counted once, and the marks of the
saved inodes.
-/

namespace ImpossibleOs.Ixfs

open ByteMem Function List

variable {faults : ReadFaults} {v : Volume} {sb : Superblock} {s s' : Scan} {b : ℕ}

/-! ### Marks -/

/-- A block of the data region. -/
def InData (sb : Superblock) (blk : ℕ) : Prop :=
  blk ≠ 0 ∧ sb.dataStart ≤ blk ∧ blk < sb.totalBlocks

instance (sb : Superblock) (blk : ℕ) : Decidable (InData sb blk) :=
  inferInstanceAs (Decidable (_ ∧ _))

def inodeMarks (sb : Superblock) (i : Inode) : List ℕ :=
  ((scannedIndices sb i).map (getBlock i)).filter fun blk => InData sb blk

def leadsOut (sb : Superblock) (i : Inode) (idx : ℕ) : Bool :=
  getBlock i idx ≠ 0 && !decide (InData sb (getBlock i idx))

/-- The errors that the scan of an inode counts. -/
def inodeFaults (sb : Superblock) (i : Inode) : ℕ :=
  (if ixfsInlineExtents < i.extentCount then 1 else 0) +
    (scannedIndices sb i).countP (leadsOut sb i)

theorem mem_inodeMarks {i : Inode} : b ∈ inodeMarks sb i ↔
      ∃ idx, idx < i.blocks ∧ idx < sb.totalBlocks ∧ getBlock i idx = b ∧ InData sb b := by
  simp only [inodeMarks, scannedIndices, mem_filter, mem_map, mem_range,
    decide_eq_true_eq, lt_min_iff]
  constructor
  · rintro ⟨⟨idx, ⟨h, h'⟩, rfl⟩, hin⟩
    exact ⟨idx, h, h', rfl, hin⟩
  · rintro ⟨idx, h, h', rfl, hin⟩
    exact ⟨⟨idx, ⟨h, h'⟩, rfl⟩, hin⟩

/-- The mark of a live inode: a block that is marked already is a cross-link. -/
def Scan.markLive (s : Scan) (blk : ℕ) : Scan :=
  if Bitmap.test s.expected blk then { s with crossLinks := s.crossLinks + 1 }.mark blk
  else s.mark blk

def Scan.addErrors (s : Scan) (n : ℕ) : Scan := { s with inodeErrors := s.inodeErrors + n }

theorem Scan.addErrors_refc (s : Scan) (n : ℕ) : (s.addErrors n).refc = s.refc := rfl

theorem Scan.addErrors_crossLinks (s : Scan) (n : ℕ) :
    (s.addErrors n).crossLinks = s.crossLinks := rfl

@[simp] theorem Scan.addErrors_zero (s : Scan) : s.addErrors 0 = s := rfl

theorem Scan.addErrors_addErrors (s : Scan) (m n : ℕ) :
    (s.addErrors m).addErrors n = s.addErrors (m + n) := by
  simp only [Scan.addErrors, Nat.add_assoc]

theorem Scan.mark_addErrors (s : Scan) (n blk : ℕ) :
    (s.addErrors n).mark blk = (s.mark blk).addErrors n := rfl

theorem Scan.markLive_addErrors (s : Scan) (n blk : ℕ) :
    (s.addErrors n).markLive blk = (s.markLive blk).addErrors n := by
  unfold Scan.markLive
  split <;> rename_i h <;> simp only [Scan.addErrors] at h ⊢ <;> simp [h, Scan.mark]

variable (l : List ℕ)

theorem foldl_markLive_addErrors (s : Scan) (n : ℕ) :
    l.foldl Scan.markLive (s.addErrors n) = (l.foldl Scan.markLive s).addErrors n := by
  induction l generalizing s with
  | nil => rfl
  | cons b l ih => rw [foldl_cons, foldl_cons, Scan.markLive_addErrors, ih]

theorem foldl_mark_addErrors (s : Scan) (n : ℕ) :
    l.foldl Scan.mark (s.addErrors n) = (l.foldl Scan.mark s).addErrors n := by
  induction l generalizing s with
  | nil => rfl
  | cons b l ih => rw [foldl_cons, foldl_cons, Scan.mark_addErrors, ih]

theorem foldl_mark_counters (s : Scan) : (l.foldl Scan.mark s).inodeErrors = s.inodeErrors ∧
      (l.foldl Scan.mark s).crossLinks = s.crossLinks := by
  induction l generalizing s with
  | nil => exact ⟨rfl, rfl⟩
  | cons b l ih => exact ih (s.mark b)

theorem scanIndex_eq (cross : Bool) (i : Inode) (s : Scan) (idx : ℕ) :
    scanIndex sb cross i s idx =
      if InData sb (getBlock i idx) then
        if cross then s.markLive (getBlock i idx) else s.mark (getBlock i idx)
      else s.addErrors (if leadsOut sb i idx then 1 else 0) := by
  unfold scanIndex
  by_cases hzero : getBlock i idx = 0
  · simp [hzero, InData, leadsOut]
  by_cases hin : InData sb (getBlock i idx)
  · rw [if_neg hzero, if_neg (by have := hin.2; omega), if_pos hin]
    cases cross <;> simp [Scan.markLive]
  · have hout : getBlock i idx < sb.dataStart ∨ sb.totalBlocks ≤ getBlock i idx := by
      by_contra hno
      exact hin ⟨hzero, by omega⟩
    rw [if_neg hzero, if_pos hout, if_neg hin, if_pos (by simp [leadsOut, hzero, hin])]
    rfl

theorem foldl_scanIndex (cross : Bool) (i : Inode) (l : List ℕ) (s : Scan) :
    l.foldl (scanIndex sb cross i) s =
      (((l.map (getBlock i)).filter fun blk => InData sb blk).foldl
        (if cross then Scan.markLive else Scan.mark) s).addErrors (l.countP (leadsOut sb i)) := by
  induction l generalizing s with
  | nil => rfl
  | cons idx l ih =>
    rw [foldl_cons, scanIndex_eq, map_cons, countP_cons, ih]
    by_cases hin : InData sb (getBlock i idx)
    · have hlead : leadsOut sb i idx = false := by simp [leadsOut, hin]
      rw [if_pos hin, filter_cons_of_pos (by simpa using hin), foldl_cons, hlead]
      cases cross <;> rfl
    · rw [if_neg hin, filter_cons_of_neg (by simpa using hin)]
      cases cross
      · simp only [Bool.false_eq_true, if_false, foldl_mark_addErrors, Scan.addErrors_addErrors,
          Nat.add_comm]
      · simp only [if_true, foldl_markLive_addErrors, Scan.addErrors_addErrors, Nat.add_comm]

theorem scanInodeExtents_eq (cross : Bool) (i : Inode) (s : Scan) :
    scanInodeExtents sb cross i s =
      ((inodeMarks sb i).foldl (if cross then Scan.markLive else Scan.mark) s).addErrors
        (inodeFaults sb i) := by
  have hstart : (if ixfsInlineExtents < i.extentCount then
      { s with inodeErrors := s.inodeErrors + 1 } else s) =
        s.addErrors (if ixfsInlineExtents < i.extentCount then 1 else 0) := by
    split <;> rfl
  rw [scanInodeExtents, hstart, foldl_scanIndex, inodeMarks, inodeFaults, scannedIndices]
  cases cross
  · simp only [Bool.false_eq_true, if_false, foldl_mark_addErrors, Scan.addErrors_addErrors]
  · simp only [if_true, foldl_markLive_addErrors, Scan.addErrors_addErrors]

def liveMarks (faults : ReadFaults) (v : Volume) (ino : ℕ) : List ℕ :=
  match readInode (faults .live) v ino with
  | none => []
  | some i => if i.isFree then [] else inodeMarks v.sb i

/-- The errors that pass 3 counts for an inode. -/
def liveFaults (faults : ReadFaults) (v : Volume) (ino : ℕ) : ℕ :=
  match readInode (faults .live) v ino with
  | none => 1
  | some i =>
    if i.isFree then 0
    else (if i.type = ixfsSFile ∨ i.type = ixfsSDir then 0 else 1) + inodeFaults v.sb i

theorem scanLive_eq (s : Scan) (ino : ℕ) : scanLive faults v s ino =
      ((liveMarks faults v ino).foldl Scan.markLive s).addErrors (liveFaults faults v ino) := by
  unfold scanLive liveMarks liveFaults
  cases readInode (faults .live) v ino with
  | none => rfl
  | some i =>
    simp only
    split
    · rfl
    · have hstart : (if i.type = ixfsSFile ∨ i.type = ixfsSDir then s
          else { s with inodeErrors := s.inodeErrors + 1 }) =
            s.addErrors (if i.type = ixfsSFile ∨ i.type = ixfsSDir then 0 else 1) := by
        split <;> rfl
      rw [hstart, scanInodeExtents_eq, if_pos rfl, foldl_markLive_addErrors,
        Scan.addErrors_addErrors]

theorem foldl_scanLive (s : Scan) : l.foldl (scanLive faults v) s =
      ((l.flatMap (liveMarks faults v)).foldl Scan.markLive s).addErrors
        (l.map (liveFaults faults v)).sum := by
  induction l generalizing s with
  | nil => rfl
  | cons ino l ih =>
    rw [foldl_cons, scanLive_eq, ih, flatMap_cons, foldl_append,
      foldl_markLive_addErrors, Scan.addErrors_addErrors, map_cons, sum_cons]

def allMarks (faults : ReadFaults) (v : Volume) : List ℕ :=
  (inodeNumbers v.sb).flatMap (liveMarks faults v)

/-! ### Pass 4 -/

/-- What pass 4 does with a block. -/
inductive Use where
  | table (mb : ℕ)
  | data (blk : ℕ)

def Scan.use (s : Scan) : Use → Scan
  | .table mb => s.protect mb
  | .data blk => s.mark blk

def savedMarks (sb : Superblock) (i : Inode) : List ℕ :=
  if i.isFree then [] else inodeMarks sb i

def savedBlockMarks (faults : ReadFaults) (v : Volume) (mb : ℕ) : List ℕ :=
  if faults .saved mb then [] else (savedInodes v mb).flatMap (savedMarks v.sb)

def snapshotUses (faults : ReadFaults) (v : Volume) (se : Snapshot) : List Use :=
  (savedBlocks v.sb se).map .table ++
    ((savedBlocks v.sb se).flatMap (savedBlockMarks faults v)).map .data

def savedUses (faults : ReadFaults) (v : Volume) : List Use :=
  v.snapshotSlots.flatMap (snapshotUses faults v)

theorem scanSaved_eq (s : Scan) (i : Inode) :
    scanSaved sb s i = (savedMarks sb i).foldl Scan.mark s := by
  unfold scanSaved savedMarks
  split
  · rfl
  · rw [scanInodeExtents_eq, if_neg Bool.false_ne_true]
    rw [← (foldl_mark_counters (inodeMarks sb i) s).1]
    rfl

theorem foldl_flatMap {α β γ : Type*} {f : γ → α → γ} {g : γ → β → γ} {h : α → List β}
    (hstep : ∀ s x, f s x = (h x).foldl g s) (l : List α) (s : γ) :
    l.foldl f s = (l.flatMap h).foldl g s := by
  induction l generalizing s with
  | nil => rfl
  | cons x l ih => rw [foldl_cons, hstep, ih, flatMap_cons, foldl_append]

theorem scanSavedBlock_eq (s : Scan) (mb : ℕ) :
    scanSavedBlock faults v s mb = (savedBlockMarks faults v mb).foldl Scan.mark s := by
  unfold scanSavedBlock savedBlockMarks
  split
  · rfl
  · exact foldl_flatMap scanSaved_eq _ s

theorem scanSnapshot_eq (s : Scan) (se : Snapshot) :
    scanSnapshot faults v s se = (snapshotUses faults v se).foldl Scan.use s := by
  rw [scanSnapshot, foldl_flatMap scanSavedBlock_eq, snapshotUses, foldl_append,
    foldl_map, foldl_map]
  rfl

theorem scanVolume_eq (faults : ReadFaults) (v : Volume) : scanVolume faults v =
      (savedUses faults v).foldl Scan.use
        (((allMarks faults v).foldl Scan.markLive (markMetadata v.sb)).addErrors
          ((inodeNumbers v.sb).map (liveFaults faults v)).sum) := by
  rw [scanVolume, foldl_scanLive, foldl_flatMap scanSnapshot_eq]
  rfl

/-! ### Reference counts -/

/-- Counts stay within a byte, and the expected bit of a block says that it is counted. -/
structure Scan.Steady (s : Scan) : Prop where
  le : ∀ b, s.refc b ≤ 255
  expected : ∀ b, Bitmap.test s.expected b = decide (0 < s.refc b)

theorem Scan.refc_mark (s : Scan) (blk b : ℕ) (hle : s.refc blk ≤ 255) :
    (s.mark blk).refc b = if b = blk then min 255 (s.refc blk + 1) else s.refc b := by
  unfold Scan.mark
  by_cases hb : b = blk
  · subst hb
    by_cases hlt : s.refc b < 255
    · simp only [hlt, if_true, update_self]
      omega
    · simp only [hlt, if_false, if_true]
      omega
  · rw [if_neg hb]
    by_cases hlt : s.refc blk < 255
    · simp only [hlt, if_true, update_of_ne hb]
    · simp only [hlt, if_false]

section

variable (h : s.Steady)
include h

theorem Scan.Steady.mark (blk : ℕ) : (s.mark blk).Steady := by
  have hrefc := fun b => s.refc_mark blk b (h.le blk)
  refine ⟨fun b => ?_, fun b => ?_⟩
  · rw [hrefc]
    have := h.le b
    split <;> omega
  · rw [hrefc, Scan.mark, Bitmap.test_set, h.expected]
    by_cases hb : b = blk
    · simp [hb]
    · simp [hb]

theorem Scan.Steady.crossLinks (n : ℕ) : { s with crossLinks := n }.Steady :=
  ⟨h.le, h.expected⟩

theorem Scan.Steady.addErrors (n : ℕ) : (s.addErrors n).Steady :=
  ⟨h.le, h.expected⟩

theorem Scan.Steady.markLive (blk : ℕ) : (s.markLive blk).Steady := by
  unfold Scan.markLive
  split
  · exact (h.crossLinks _).mark blk
  · exact h.mark blk

omit h in
theorem Scan.refc_markLive (s : Scan) (blk b : ℕ) :
    (s.markLive blk).refc b = (s.mark blk).refc b := by
  unfold Scan.markLive
  split <;> rfl

theorem Scan.Steady.protect (mb : ℕ) : (s.protect mb).Steady := by
  unfold Scan.protect
  split
  · exact h
  · exact h.mark mb

theorem Scan.Steady.use (u : Use) : (s.use u).Steady := by
  cases u with
  | table mb => exact h.protect mb
  | data blk => exact h.mark blk

end

theorem Scan.Steady.foldl {α : Type*} {f : Scan → α → Scan}
    (hstep : ∀ s x, s.Steady → (f s x).Steady) (h : s.Steady) (l : List α) :
    (l.foldl f s).Steady := by
  induction l generalizing s with
  | nil => exact h
  | cons x l ih => exact ih (hstep s x h)

theorem refc_foldl_mark {f : Scan → ℕ → Scan} (hrefc : ∀ s x b, (f s x).refc b = (s.mark x).refc b)
    (hsteady : ∀ s x, s.Steady → (f s x).Steady) (h : s.Steady) (l : List ℕ) (b : ℕ) :
    (l.foldl f s).refc b = min 255 (s.refc b + l.count b) := by
  induction l generalizing s with
  | nil =>
    have := h.le b
    simp only [foldl_nil, count_nil]
    omega
  | cons x l ih =>
    rw [foldl_cons, ih (hsteady s x h), hrefc, s.refc_mark x b (h.le x), count_cons]
    by_cases hb : b = x
    · simp only [hb, if_true, beq_self_eq_true]
      omega
    · have hne : (x == b) = false := by simpa using fun heq => hb heq.symm
      simp only [hb, if_false, hne, Bool.false_eq_true, Nat.add_zero]

theorem steady_zero : (⟨fun _ => 0, fun _ => 0, 0, 0⟩ : Scan).Steady :=
  ⟨fun _ => Nat.zero_le _, fun _ => by simp [Bitmap.test]⟩

theorem steady_markMetadata (sb : Superblock) : (markMetadata sb).Steady :=
  steady_zero.foldl (fun _ x h => h.mark x) _

theorem refc_markMetadata (sb : Superblock) (b : ℕ) :
    (markMetadata sb).refc b = if b < sb.dataStart ∧ b < sb.totalBlocks then 1 else 0 := by
  rw [markMetadata, refc_foldl_mark (fun _ _ _ => rfl) (fun _ x h => h.mark x) steady_zero]
  rw [count_range]
  split <;> rename_i h <;> simp only [lt_min_iff] at h <;> simp [h]

/-- The scan after pass 3. -/
def liveScan (faults : ReadFaults) (v : Volume) : Scan :=
  ((allMarks faults v).foldl Scan.markLive (markMetadata v.sb)).addErrors
    ((inodeNumbers v.sb).map (liveFaults faults v)).sum

theorem steady_liveScan (faults : ReadFaults) (v : Volume) : (liveScan faults v).Steady :=
  ((steady_markMetadata v.sb).foldl (fun _ x h => h.markLive x) _).addErrors _

theorem refc_liveScan (faults : ReadFaults) (v : Volume) (b : ℕ) :
    (liveScan faults v).refc b =
      min 255 ((if b < v.sb.dataStart ∧ b < v.sb.totalBlocks then 1 else 0) +
        (allMarks faults v).count b) := by
  rw [← refc_markMetadata, liveScan, Scan.addErrors_refc]
  exact refc_foldl_mark Scan.refc_markLive (fun _ x h => h.markLive x)
    (steady_markMetadata v.sb) _ b

/-! ### What the uses of pass 4 do to a count -/

def Use.block : Use → ℕ
  | .table mb => mb
  | .data blk => blk

theorem Scan.use_of_ne (s : Scan) {u : Use} (h : b ≠ u.block) : (s.use u).refc b = s.refc b := by
  have hmark : (s.mark u.block).refc b = s.refc b := by
    unfold Scan.mark
    split <;> simp only [update_of_ne h]
  cases u with
  | table mb =>
    simp only [Scan.use, Scan.protect]
    split
    · rfl
    · exact hmark
  | data blk => exact hmark

section

variable (h : s.Steady)
include h

theorem Scan.Steady.refc_data (blk : ℕ) :
    (s.use (.data blk)).refc blk = min 255 (s.refc blk + 1) := by
  rw [Scan.use, s.refc_mark blk blk (h.le blk), if_pos rfl]

theorem Scan.Steady.refc_table (mb : ℕ) : (s.use (.table mb)).refc mb = max 1 (s.refc mb) := by
  simp only [Scan.use, Scan.protect, h.expected mb]
  by_cases hpos : 0 < s.refc mb
  · simp only [hpos, decide_true, if_true]
    omega
  · simp only [hpos, decide_false, Bool.false_eq_true, if_false]
    rw [s.refc_mark mb mb (h.le mb), if_pos rfl]
    omega

theorem Scan.Steady.use_congr (h' : s'.Steady) (u : Use)
    (heq : s.refc b = s'.refc b) : (s.use u).refc b = (s'.use u).refc b := by
  by_cases hb : b = u.block
  · subst hb
    cases u with
    | table mb =>
      rw [Use.block, h.refc_table, h'.refc_table]
      exact congrArg _ heq
    | data blk =>
      rw [Use.block, h.refc_data, h'.refc_data]
      exact congrArg (fun n => min 255 (n + 1)) heq
  · rw [s.use_of_ne hb, s'.use_of_ne hb, heq]

theorem Scan.Steady.foldl_use_congr (h' : s'.Steady) (l : List Use)
    (heq : s.refc b = s'.refc b) : (l.foldl Scan.use s).refc b = (l.foldl Scan.use s').refc b := by
  induction l generalizing s s' with
  | nil => exact heq
  | cons u l ih => exact ih (h.use u) (h'.use u) (h.use_congr h' u heq)

theorem Scan.Steady.le_use (u : Use) (b : ℕ) : s.refc b ≤ (s.use u).refc b := by
  by_cases hb : b = u.block
  · subst hb
    have := h.le u.block
    cases u with
    | table mb =>
      rw [Use.block, h.refc_table]
      omega
    | data blk =>
      rw [Use.block, h.refc_data]
      simp only [Use.block] at this
      omega
  · rw [s.use_of_ne hb]

theorem Scan.Steady.le_foldl_use (l : List Use) (b : ℕ) :
    s.refc b ≤ (l.foldl Scan.use s).refc b := by
  induction l generalizing s with
  | nil => exact le_rfl
  | cons u l ih => exact (h.le_use u b).trans (ih (h.use u))

theorem Scan.Steady.foldl_data {l : List Use} (hmem : Use.data b ∈ l) :
    min 255 (s.refc b + 1) ≤ (l.foldl Scan.use s).refc b := by
  induction l generalizing s with
  | nil => simp at hmem
  | cons u l ih =>
    rw [foldl_cons]
    rcases mem_cons.mp hmem with rfl | hmem
    · rw [← h.refc_data]
      exact (h.use _).le_foldl_use l b
    · refine le_trans ?_ (ih (h.use u) hmem)
      have := h.le_use u b
      omega

end

theorem foldl_use_of_notMem {l : List Use} (hmem : ∀ u ∈ l, b ≠ u.block) (s : Scan) :
    (l.foldl Scan.use s).refc b = s.refc b := by
  induction l generalizing s with
  | nil => rfl
  | cons u l ih =>
    rw [foldl_cons, ih (fun u hu => hmem u (mem_cons_of_mem _ hu)),
      s.use_of_ne (hmem u mem_cons_self)]

/-! ### The whole scan -/

theorem scanVolume_eq' (faults : ReadFaults) (v : Volume) :
    scanVolume faults v = (savedUses faults v).foldl Scan.use (liveScan faults v) :=
  scanVolume_eq faults v

theorem steady_scanVolume (faults : ReadFaults) (v : Volume) : (scanVolume faults v).Steady := by
  rw [scanVolume_eq']
  exact (steady_liveScan faults v).foldl (fun _ u h => h.use u) _

theorem le_refc_scanVolume (faults : ReadFaults) (v : Volume) (b : ℕ) :
    (liveScan faults v).refc b ≤ (scanVolume faults v).refc b := by
  rw [scanVolume_eq']
  exact (steady_liveScan faults v).le_foldl_use _ b

theorem one_le_refc_of_metadata (hb : b < v.sb.dataStart) (hb' : b < v.sb.totalBlocks) :
    1 ≤ (scanVolume faults v).refc b := by
  refine le_trans ?_ (le_refc_scanVolume faults v b)
  rw [refc_liveScan, if_pos ⟨hb, hb'⟩]
  omega

theorem one_le_refc_of_live (hb : b ∈ allMarks faults v) : 1 ≤ (scanVolume faults v).refc b := by
  refine le_trans ?_ (le_refc_scanVolume faults v b)
  have := count_pos_iff.mpr hb
  rw [refc_liveScan]
  omega

theorem one_le_refc_of_saved (hb : Use.data b ∈ savedUses faults v) :
    1 ≤ (scanVolume faults v).refc b := by
  have := (steady_liveScan faults v).foldl_data hb
  rw [scanVolume_eq']
  omega

theorem two_le_refc_of_count (hb : 2 ≤ (allMarks faults v).count b) :
    2 ≤ (scanVolume faults v).refc b := by
  refine le_trans ?_ (le_refc_scanVolume faults v b)
  rw [refc_liveScan]
  omega

theorem two_le_refc_of_saved (hlive : b ∈ allMarks faults v)
    (hsaved : Use.data b ∈ savedUses faults v) : 2 ≤ (scanVolume faults v).refc b := by
  have hle := (steady_liveScan faults v).foldl_data hsaved
  have hpos := count_pos_iff.mpr hlive
  rw [refc_liveScan] at hle
  rw [scanVolume_eq']
  omega

/-! ### Cross-links and errors -/

theorem crossLinks_use (s : Scan) (u : Use) :
    (s.use u).crossLinks = s.crossLinks ∧ (s.use u).inodeErrors = s.inodeErrors := by
  cases u with
  | table mb =>
    simp only [Scan.use, Scan.protect]
    split
    · exact ⟨rfl, rfl⟩
    · exact ⟨rfl, rfl⟩
  | data blk => exact ⟨rfl, rfl⟩

theorem crossLinks_foldl_use (l : List Use) (s : Scan) :
    (l.foldl Scan.use s).crossLinks = s.crossLinks ∧
      (l.foldl Scan.use s).inodeErrors = s.inodeErrors := by
  induction l generalizing s with
  | nil => exact ⟨rfl, rfl⟩
  | cons u l ih =>
    obtain ⟨hcross, herr⟩ := crossLinks_use s u
    obtain ⟨hcross', herr'⟩ := ih (s.use u)
    exact ⟨hcross'.trans hcross, herr'.trans herr⟩

theorem markLive_counters (s : Scan) (blk : ℕ) :
    (s.markLive blk).inodeErrors = s.inodeErrors ∧
      (s.markLive blk).crossLinks =
        s.crossLinks + if Bitmap.test s.expected blk then 1 else 0 := by
  unfold Scan.markLive
  split
  · exact ⟨rfl, rfl⟩
  · exact ⟨rfl, rfl⟩

theorem foldl_markLive_counters (s : Scan) : (l.foldl Scan.markLive s).inodeErrors = s.inodeErrors ∧
      s.crossLinks ≤ (l.foldl Scan.markLive s).crossLinks ∧
        (l.foldl Scan.markLive s).crossLinks ≤ s.crossLinks + l.length := by
  induction l generalizing s with
  | nil => exact ⟨rfl, le_rfl, le_rfl⟩
  | cons b l ih =>
    obtain ⟨herr, hge, hle⟩ := ih (s.markLive b)
    obtain ⟨herr', hcross⟩ := markLive_counters s b
    have hone : (if Bitmap.test s.expected b then 1 else 0) ≤ 1 := by split <;> omega
    rw [foldl_cons, length_cons]
    exact ⟨herr.trans herr', by omega, by omega⟩

theorem test_markLive (s : Scan) (blk b : ℕ) :
    Bitmap.test (s.markLive blk).expected b = (b = blk || Bitmap.test s.expected b) := by
  unfold Scan.markLive
  split <;> exact Bitmap.test_set _ _ _

theorem crossLinks_foldl_markLive (s : Scan) : (l.foldl Scan.markLive s).crossLinks = s.crossLinks ↔
      l.Nodup ∧ ∀ b ∈ l, Bitmap.test s.expected b = false := by
  induction l generalizing s with
  | nil => simp
  | cons x l ih =>
    obtain ⟨-, hge, -⟩ := foldl_markLive_counters l (s.markLive x)
    have hcross := (markLive_counters s x).2
    rw [foldl_cons, nodup_cons, forall_mem_cons]
    cases hx : Bitmap.test s.expected x with
    | true =>
      rw [hx, if_pos rfl] at hcross
      constructor
      · intro heq
        omega
      · rintro ⟨-, hno, -⟩
        simp at hno
    | false =>
      rw [hx, if_neg Bool.false_ne_true, Nat.add_zero] at hcross
      rw [← hcross, ih]
      simp only [test_markLive, Bool.or_eq_false_iff, decide_eq_false_iff_not]
      constructor
      · rintro ⟨hnodup, hnew⟩
        exact ⟨⟨fun hmem => (hnew x hmem).1 rfl, hnodup⟩, trivial, fun b hb => (hnew b hb).2⟩
      · rintro ⟨⟨hx', hnodup⟩, -, hnew⟩
        exact ⟨hnodup, fun b hb => ⟨fun heq => hx' (heq ▸ hb), hnew b hb⟩⟩

theorem inData_of_mem_allMarks (hb : b ∈ allMarks faults v) : InData v.sb b := by
  obtain ⟨ino, -, hb⟩ := mem_flatMap.mp hb
  unfold liveMarks at hb
  split at hb
  · simp at hb
  · split at hb
    · simp at hb
    · obtain ⟨e, -, -, -, hdata⟩ := mem_inodeMarks.mp hb
      exact hdata

theorem crossLinks_scanVolume_eq_zero (faults : ReadFaults) (v : Volume) :
    (scanVolume faults v).crossLinks = 0 ↔ (allMarks faults v).Nodup := by
  have hzero : (markMetadata v.sb).crossLinks = 0 := (foldl_mark_counters _ _).2
  have hfold := crossLinks_foldl_markLive (allMarks faults v) (markMetadata v.sb)
  rw [hzero] at hfold
  rw [scanVolume_eq', (crossLinks_foldl_use _ _).1, liveScan, Scan.addErrors_crossLinks]
  refine hfold.trans (and_iff_left ?_)
  intro b hb
  have hin := inData_of_mem_allMarks hb
  rw [(steady_markMetadata v.sb).expected, refc_markMetadata, if_neg (by have := hin.2.1; omega)]
  rfl

theorem inodeErrors_scanVolume (faults : ReadFaults) (v : Volume) :
    (scanVolume faults v).inodeErrors = ((inodeNumbers v.sb).map (liveFaults faults v)).sum := by
  have hzero : (markMetadata v.sb).inodeErrors = 0 := (foldl_mark_counters _ _).1
  rw [scanVolume_eq', (crossLinks_foldl_use _ _).2, liveScan, Scan.addErrors]
  simp only
  rw [(foldl_markLive_counters _ _).1, hzero, Nat.zero_add]

end ImpossibleOs.Ixfs
