import ImpossibleOs.Ixfs.FsckScan
import ImpossibleOs.Ixfs.Layout

/-!
What the directory walk of the IXFS checker visits.

A walk that does not fail visits exactly the inodes of the tree, and a fixing
walk clears exactly the entries of the tree that lead to no inode. The walk
changes directory blocks only, and reads inodes, so what counts as an inode of
the volume stays the same all along.
-/

namespace ImpossibleOs.Ixfs

open ByteMem List

variable {faults : ReadFaults} {fix : Bool} {v : Volume} {w w' : Walk} {ino blk k : ℕ}

/-! ### The tree -/

/-- An inode of the table that is in use. -/
def Allocated (v : Volume) (ino : ℕ) : Prop :=
  inoInTable v.sb ino = true ∧ (v.inode ino).isFree = false

/-- The inode number in entry `e` of block `blk`. -/
def entryIno (d : ByteMem) (blk e : ℕ) : ℕ := readLE d (4096 * blk + 256 * e) 4

def DirBlock (v : Volume) (ino blk : ℕ) : Prop :=
  (v.inode ino).isDir = true ∧ blk ≠ 0 ∧
    ∃ b < sizeBlocks (v.inode ino), getBlock (v.inode ino) b = blk

/-- The inodes that the directories lead to from the root on, through entries whose inodes are in
`found`. -/
inductive Reach (v : Volume) (found : ℕ → Prop) : ℕ → Prop
  | root : 1 < v.sb.totalInodes → Reach v found 1
  | entry {ino blk e t : ℕ} : Reach v found ino → DirBlock v ino blk → e < 16 →
      entryIno v.disk blk e = t → found t → Reach v found t

/-- The inodes of the directory tree. -/
abbrev InTree (v : Volume) : ℕ → Prop := Reach v (Allocated v)

/-- An inode in use that can be read where an entry leads to it. -/
def Found (faults : ReadFaults) (v : Volume) (t : ℕ) : Prop :=
  Allocated v t ∧ faults .target (inodeBlock v.sb t) = false

/-- The inodes that a walk which goes on comes to. -/
abbrev Reached (faults : ReadFaults) (v : Volume) : ℕ → Prop := Reach v (Found faults v)

/-- Every data block of the inode is at an index below its block count and that of the volume. -/
def Inode.Compact (sb : Superblock) (i : Inode) : Prop :=
  ∀ idx < 2 ^ 32, InData sb (getBlock i idx) → idx < i.blocks ∧ idx < sb.totalBlocks

/-- If the inode is a directory, its blocks are at indices below its block count. -/
def Inode.CompactDir (i : Inode) : Prop :=
  i.isDir = true → ∀ idx < sizeBlocks i, getBlock i idx ≠ 0 → idx < i.blocks

/-- The inode table lies below the data. -/
def TableBelow (v : Volume) : Prop :=
  metaRangeOk v.sb.inodeStart v.sb.inodeBlocks v.sb.dataStart

theorem not_allocated_zero (v : Volume) : ¬ Allocated v 0 := by
  rintro ⟨hin, -⟩
  have := (inoInTable_iff.mp hin).1
  omega

theorem Allocated.lt (h : Allocated v ino) : ino < v.sb.totalInodes := (inoInTable_iff.mp h.1).2.1

theorem inodeBlock_lt_dataStart (ht : TableBelow v) (hin : inoInTable v.sb ino = true) :
    inodeBlock v.sb ino < v.sb.dataStart := by
  have hreg := inodeBlock_inRegion hin
  simp only [InRegion] at hreg
  rcases ht with hzero | ⟨-, hle⟩ <;> omega

/-! ### A volume with entries cleared -/

/-- `d` holds the volume with some entries that lead nowhere cleared, in blocks of directories
only. -/
structure Cleared (faults : ReadFaults) (v : Volume) (d : ByteMem) : Prop where
  entry : ∀ blk, ∀ e < 16, entryIno d blk e = entryIno v.disk blk e ∨
    entryIno d blk e = 0 ∧ ¬ Found faults v (entryIno v.disk blk e)
  blocks : ∀ blk, ¬ (InData v.sb blk ∧ ∃ ino, Allocated v ino ∧ DirBlock v ino blk) →
    BlockAgree blk v.disk d

theorem Cleared.refl (v : Volume) : Cleared faults v v.disk :=
  ⟨fun _ _ _ => .inl rfl, fun blk _ => BlockAgree.refl blk _⟩

variable {cur : List ℕ} {d : ByteMem}

theorem Cleared.inode (h : Cleared faults v d) (hr : TableBelow v)
    (hin : inoInTable v.sb ino = true) : { v with disk := d }.inode ino = v.inode ino := by
  refine inode_congr (v := v) (w := { v with disk := d }) (SameLayout.refl v.sb) (h.blocks _ ?_)
  rintro ⟨⟨-, hge, -⟩, -⟩
  have := inodeBlock_lt_dataStart hr hin
  omega

theorem Cleared.kept (h : Cleared faults v d) {e : ℕ} (he : e < 16)
    (hal : Found faults v (entryIno v.disk blk e)) : entryIno d blk e = entryIno v.disk blk e :=
  (h.entry blk e he).resolve_right fun hno => hno.2 hal

theorem Cleared.orig (h : Cleared faults v d) {e : ℕ} (he : e < 16)
    (hne : entryIno d blk e ≠ 0) : entryIno v.disk blk e = entryIno d blk e :=
  ((h.entry blk e he).resolve_right fun hno => hne hno.1).symm

theorem targetInode_eq (h : Cleared faults v d) (hr : TableBelow v) (t : ℕ) :
    (Found faults v t ∧ targetInode faults { v with disk := d } t = some (v.inode t)) ∨
      ¬ Found faults v t ∧ targetInode faults { v with disk := d } t = none := by
  by_cases hin : inoInTable v.sb t = true ∧ faults .target (inodeBlock v.sb t) = false
  · have hrange := inoInTable_iff.mp hin.1
    have hread : readInode (faults .target) { v with disk := d } t = some (v.inode t) := by
      rw [readInode, h.inode hr hin.1, hin.1, hin.2]
      rfl
    unfold targetInode
    rw [if_neg (by simp only [ixfsRootInode]; omega), hread]
    cases hfree : (v.inode t).isFree with
    | false => exact .inl ⟨⟨⟨hin.1, hfree⟩, hin.2⟩, by simp [Option.filter, hfree]⟩
    | true => exact .inr ⟨fun hal => by simp [hal.1.2] at hfree, by simp [Option.filter, hfree]⟩
  · refine .inr ⟨fun hal => hin ⟨hal.1.1, hal.2⟩, ?_⟩
    have hread : readInode (faults .target) { v with disk := d } t = none := by
      rw [readInode, if_neg]
      simpa using hin
    unfold targetInode
    rw [hread]
    split <;> rfl

/-! ### What a walk has finished -/

def BlockOk (faults : ReadFaults) (v : Volume) (blk : ℕ) : Prop :=
  blk = 0 ∨ v.sb.dataStart ≤ blk ∧ blk < v.sb.totalBlocks ∧ faults .entries blk = false

/-- The entries of a block lead to visited inodes, and those of a fixing walk to nothing else. -/
def EntriesDone (faults : ReadFaults) (fix : Bool) (v : Volume) (d visited : ByteMem) (blk : ℕ) :
    Prop :=
  ∀ e < 16, (Found faults v (entryIno d blk e) → Bitmap.test visited (entryIno d blk e) = true) ∧
    (fix = true → entryIno d blk e = 0 ∨ Found faults v (entryIno d blk e))

structure DirOk (faults : ReadFaults) (v : Volume) (ino : ℕ) : Prop where
  table : inoInTable v.sb ino = true
  reads : faults .directory (inodeBlock v.sb ino) = false
  blocks : (v.inode ino).isDir = true →
    ∀ b < min (sizeBlocks (v.inode ino)) (v.inode ino).blocks,
      BlockOk faults v (getBlock (v.inode ino) b)

/-- The walk has been through the directory. -/
structure Done (faults : ReadFaults) (fix : Bool) (v : Volume) (d visited : ByteMem) (ino : ℕ) :
    Prop where
  ok : DirOk faults v ino
  entries : (v.inode ino).isDir = true →
    ∀ b < min (sizeBlocks (v.inode ino)) (v.inode ino).blocks,
      getBlock (v.inode ino) b ≠ 0 → EntriesDone faults fix v d visited (getBlock (v.inode ino) b)

def Walked (v : Volume) (ino : ℕ) : Prop := ino = 1 ∨ (v.inode ino).isDir = true

def TreeOk (faults : ReadFaults) (v : Volume) : Prop :=
  ∀ ino, Reached faults v ino → Walked v ino → DirOk faults v ino

/-- Every entry of the directories it comes to is empty or leads to an inode. -/
def TreeClean (faults : ReadFaults) (v : Volume) : Prop :=
  ∀ ino blk, Reached faults v ino → DirBlock v ino blk →
    ∀ e < 16, entryIno v.disk blk e = 0 ∨ Found faults v (entryIno v.disk blk e)

/-- Visited inodes stay visited, and finished blocks stay finished. -/
structure Grows (faults : ReadFaults) (fix : Bool) (v : Volume) (w w' : Walk) : Prop where
  visited : ∀ x, Bitmap.test w.visited x = true → Bitmap.test w'.visited x = true
  entries : ∀ blk, EntriesDone faults fix v w.vol.disk w.visited blk →
    EntriesDone faults fix v w'.vol.disk w'.visited blk

theorem Grows.refl (w : Walk) : Grows faults fix v w w := ⟨fun _ h => h, fun _ h => h⟩

theorem Done.grows (hg : Grows faults fix v w w') (h : Done faults fix v w.vol.disk w.visited ino) :
    Done faults fix v w'.vol.disk w'.visited ino :=
  ⟨h.ok, fun hdir b hb hne => hg.entries _ (h.entries hdir b hb hne)⟩

/-- The walk after taking `k` inodes off its queue; it is inside the directories of `cur`. -/
structure WalkInv (faults : ReadFaults) (fix : Bool) (v : Volume) (k : ℕ) (cur : List ℕ)
    (w : Walk) : Prop where
  vol : w.vol = { v with disk := w.vol.disk }
  cleared : Cleared faults v w.vol.disk
  check : fix = false → w.vol.disk = v.disk
  root : 1 < v.sb.totalInodes → Bitmap.test w.visited 1 = true
  sound : ∀ ino, Bitmap.test w.visited ino = true → Reached faults v ino
  queued : ∀ ino ∈ w.queue, Bitmap.test w.visited ino = true ∧ Walked v ino
  done : ∀ ino, Bitmap.test w.visited ino = true → Walked v ino →
    ino ∈ cur ∨ ino ∈ w.queue ∨ Done faults fix v w.vol.disk w.visited ino
  tail : w.tail ≤ Bitmap.count w.visited v.sb.totalInodes
  count : w.tail = w.queue.length + k
  clean : TreeClean faults v → w.badDirents = 0

theorem WalkInv.sb (h : WalkInv faults fix v k cur w) : w.vol.sb = v.sb := by
  rw [h.vol]

theorem count_le (m : ByteMem) (n : ℕ) : Bitmap.count m n ≤ n :=
  (Finset.card_filter_le _ _).trans_eq (Finset.card_range n)

theorem WalkInv.visit {t : ℕ} (h : WalkInv faults fix v k cur w)
    (ht : Reached faults v t) (hal : Found faults v t) :
    WalkInv faults fix v k cur (w.visit t (v.inode t)) ∧
      Bitmap.test (w.visit t (v.inode t)).visited t = true ∧
      Grows faults fix v w (w.visit t (v.inode t)) := by
  unfold Walk.visit
  split
  · rename_i hvis
    exact ⟨h, hvis, Grows.refl w⟩
  · rename_i hvis
    rw [Bool.not_eq_true] at hvis
    have hlt := hal.1.lt
    have hset := Bitmap.count_set hlt hvis
    have hcount := count_le (Bitmap.set w.visited t) v.sb.totalInodes
    have htail := h.tail
    have hroom : w.tail < w.vol.sb.totalInodes := by
      rw [h.sb]
      omega
    have hmono : ∀ x, Bitmap.test w.visited x = true →
        Bitmap.test (Bitmap.set w.visited t) x = true := by
      intro x hx
      rw [Bitmap.test_set, hx, Bool.or_true]
    have hself : Bitmap.test (Bitmap.set w.visited t) t = true := by
      rw [Bitmap.test_set, decide_eq_true rfl, Bool.true_or]
    have hor : ∀ x, Bitmap.test (Bitmap.set w.visited t) x = true →
        x = t ∨ Bitmap.test w.visited x = true := by
      intro x hx
      rw [Bitmap.test_set, Bool.or_eq_true, decide_eq_true_eq] at hx
      exact hx
    have hgrow : ∀ w' : Walk, w'.vol = w.vol → w'.visited = Bitmap.set w.visited t →
        Grows faults fix v w w' := by
      intro w' hvol hw'
      refine ⟨fun x hx => hw' ▸ hmono x hx, fun blk hb e he => ?_⟩
      rw [hvol, hw']
      exact ⟨fun hal => hmono _ ((hb e he).1 hal), (hb e he).2⟩
    have hne : t ≠ 1 := by
      rintro rfl
      rw [h.root hlt] at hvis
      simp at hvis
    have hsound : ∀ x, Bitmap.test (Bitmap.set w.visited t) x = true → Reached faults v x := by
      intro x hx
      rcases hor x hx with rfl | hx
      · exact ht
      · exact h.sound x hx
    split
    · -- a directory is queued
      rename_i hdir
      rw [Bool.and_eq_true] at hdir
      refine ⟨⟨h.vol, h.cleared, h.check, fun hroot => hmono 1 (h.root hroot), hsound, ?_, ?_, ?_,
        ?_, h.clean⟩, hself, hgrow _ rfl rfl⟩
      · intro x hx
        rcases mem_append.mp hx with hx | hx
        · exact ⟨hmono x (h.queued x hx).1, (h.queued x hx).2⟩
        · rw [mem_singleton.mp hx]
          exact ⟨hself, .inr hdir.1⟩
      · intro x hx hw
        rcases hor x hx with rfl | hx
        · exact .inr (.inl (mem_append_right _ (mem_singleton_self x)))
        · rcases h.done x hx hw with hcur | hq | hdone
          · exact .inl hcur
          · exact .inr (.inl (mem_append_left _ hq))
          · exact .inr (.inr (hdone.grows (hgrow _ rfl rfl)))
      · simp only
        omega
      · have := h.count
        simp only [length_append, length_singleton]
        omega
    · -- any other inode has nothing to walk through
      rename_i hnot
      have hnodir : (v.inode t).isDir = false := by
        simpa [hroom] using hnot
      refine ⟨⟨h.vol, h.cleared, h.check, fun hroot => hmono 1 (h.root hroot), hsound,
        fun x hx => ⟨hmono x (h.queued x hx).1, (h.queued x hx).2⟩, ?_, ?_, h.count, h.clean⟩,
        hself, hgrow _ rfl rfl⟩
      · intro x hx hw
        rcases hor x hx with rfl | hx
        · rcases hw with hone | hdir
          · exact absurd hone hne
          · simp [hnodir] at hdir
        · rcases h.done x hx hw with hcur | hq | hdone
          · exact .inl hcur
          · exact .inr (.inl hq)
          · exact .inr (.inr (hdone.grows (hgrow _ rfl rfl)))
      · simp only
        omega

/-! ### The entries of a block -/

def bufIno (buf : ByteMem) (e : ℕ) : ℕ := readLE buf (256 * e) 4

theorem bufIno_readBuf (d : ByteMem) (blk e : ℕ) : bufIno (readBuf d blk) e = entryIno d blk e :=
  readLE_readBuf d blk _ _

theorem scanEntry_eq (s : DirScan) (e : ℕ) :
    scanEntry faults fix s e =
      if bufIno s.buf e = 0 then s
      else
        match targetInode faults s.walk.vol (bufIno s.buf e) with
        | none => s.bad fix e
        | some tnode => { s with walk := s.walk.visit (bufIno s.buf e) tnode } := rfl

/-- The scan of block `blk` from the walk `w` on, `n` entries done. -/
structure EntryInv (faults : ReadFaults) (fix : Bool) (v : Volume) (k : ℕ) (cur : List ℕ)
    (w : Walk) (blk n : ℕ) (s : DirScan) : Prop where
  inv : WalkInv faults fix v k cur s.walk
  vol : s.walk.vol = w.vol
  failed : s.walk.failed = w.failed
  repaired : s.walk.repaired = w.repaired
  visited : ∀ x, Bitmap.test w.visited x = true → Bitmap.test s.walk.visited x = true
  orig : ∀ e < 16, bufIno s.buf e = entryIno w.vol.disk blk e ∨
    bufIno s.buf e = 0 ∧ ¬ Found faults v (entryIno w.vol.disk blk e)
  done : ∀ e < n, (Found faults v (bufIno s.buf e) → Bitmap.test s.walk.visited (bufIno s.buf e)) ∧
    (fix = true → bufIno s.buf e = 0 ∨ Found faults v (bufIno s.buf e))
  clean : s.repairs = 0 → s.buf = readBuf w.vol.disk blk
  check : fix = false → s.repairs = 0
  count : fix = true → w.badDirents + s.repairs = s.walk.badDirents

theorem EntryInv.step {n : ℕ} {s : DirScan} (hr : TableBelow v)
    (htree : Reached faults v ino) (hblk : DirBlock v ino blk)
    (h : EntryInv faults fix v k cur w blk n s) (hn : n < 16) :
    EntryInv faults fix v k cur w blk (n + 1) (scanEntry faults fix s n) := by
  have hlast : ∀ e, e < n + 1 → e < n ∨ e = n := by omega
  have hvol := h.inv.vol
  have htarget := targetInode_eq h.inv.cleared hr (bufIno s.buf n)
  rw [← hvol] at htarget
  rw [scanEntry_eq]
  by_cases hzero : bufIno s.buf n = 0
  · rw [if_pos hzero]
    refine { h with done := fun e he => ?_ }
    rcases hlast e he with he | rfl
    · exact h.done e he
    · rw [hzero]
      exact ⟨fun hal => absurd hal.1 (not_allocated_zero v), fun _ => .inl rfl⟩
  · rw [if_neg hzero]
    -- the entry is the one on the volume
    have hdisk : bufIno s.buf n = entryIno w.vol.disk blk n :=
      (h.orig n hn).resolve_right fun hno => hzero hno.1
    have horig : entryIno v.disk blk n = bufIno s.buf n := by
      rw [hdisk]
      refine Cleared.orig (h.vol ▸ h.inv.cleared) hn ?_
      rw [← hdisk]
      exact hzero
    rcases htarget with ⟨hal, hsome⟩ | ⟨hno, hnone⟩
    · rw [hsome]
      have hin : Reached faults v (bufIno s.buf n) := htree.entry hblk hn horig hal
      obtain ⟨hinv, hself, hgrow⟩ := h.inv.visit hin hal
      have hkept : (s.walk.visit (bufIno s.buf n) (v.inode (bufIno s.buf n))).vol = s.walk.vol ∧
          (s.walk.visit (bufIno s.buf n) (v.inode (bufIno s.buf n))).failed = s.walk.failed ∧
          (s.walk.visit (bufIno s.buf n) (v.inode (bufIno s.buf n))).repaired = s.walk.repaired ∧
          (s.walk.visit (bufIno s.buf n) (v.inode (bufIno s.buf n))).badDirents =
            s.walk.badDirents := by
        unfold Walk.visit
        split
        · exact ⟨rfl, rfl, rfl, rfl⟩
        · split <;> exact ⟨rfl, rfl, rfl, rfl⟩
      obtain ⟨hvol', hfailed, hrepaired, hbad⟩ := hkept
      refine ⟨hinv, hvol'.trans h.vol, hfailed.trans h.failed, hrepaired.trans h.repaired,
        fun x hx => hgrow.visited x (h.visited x hx), h.orig, fun e he => ?_, h.clean, h.check,
        fun hfix => (h.count hfix).trans hbad.symm⟩
      rcases hlast e he with he | rfl
      · exact ⟨fun hal => hgrow.visited _ ((h.done e he).1 hal), (h.done e he).2⟩
      · exact ⟨fun _ => hself, fun _ => .inr hal⟩
    · rw [hnone]
      have hdirty : TreeClean faults v → False := by
        intro hclean
        have := hclean ino blk htree hblk n hn
        rw [horig] at this
        exact this.elim hzero hno
      have hinv : WalkInv faults fix v k cur
          { s.walk with badDirents := s.walk.badDirents + 1 } :=
        { h.inv with clean := fun hclean => (hdirty hclean).elim }
      cases hfix : fix with
      | false =>
        subst hfix
        refine ⟨hinv, h.vol, h.failed, h.repaired, h.visited, h.orig, fun e he => ?_, h.clean,
          fun _ => h.check rfl, fun hno => by simp at hno⟩
        rcases hlast e he with he | rfl
        · exact h.done e he
        · exact ⟨fun hal => absurd hal hno, fun hno => by simp at hno⟩
      | true =>
        subst hfix
        have hself : bufIno (writeLE s.buf (256 * n) 4 0) n = 0 := readLE_writeLE_same _ _ _ _
        have hbuf : (s.bad true n).buf = writeLE s.buf (256 * n) 4 0 := rfl
        have hother : ∀ e, e ≠ n → bufIno (writeLE s.buf (256 * n) 4 0) e = bufIno s.buf e :=
          fun e he => readLE_writeLE_of_disjoint (by omega)
        refine ⟨hinv, h.vol, h.failed, h.repaired, h.visited, fun e he => ?_, fun e he => ?_,
          fun hzero => by simp [DirScan.bad] at hzero, fun hno => by simp at hno, fun _ => ?_⟩
        · rw [hbuf]
          by_cases hen : e = n
          · subst hen
            rw [hself, ← hdisk]
            exact .inr ⟨rfl, hno⟩
          · rw [hother e hen]
            exact h.orig e he
        · rw [hbuf]
          rcases hlast e he with he | rfl
          · rw [hother e (by omega)]
            exact h.done e he
          · rw [hself]
            exact ⟨fun hal => absurd hal.1 (not_allocated_zero v), fun _ => .inl rfl⟩
        · have := h.count rfl
          simp only [DirScan.bad, if_true]
          omega

theorem scanEntries_spec (hr : TableBelow v) (htree : Reached faults v ino)
    (hblk : DirBlock v ino blk) (h : WalkInv faults fix v k cur w) :
    EntryInv faults fix v k cur w blk 16
      ((List.range ixfsDirentsPerBlock).foldl (scanEntry faults fix)
        ⟨readBuf w.vol.disk blk, 0, w⟩) := by
  refine Loop.foldl_range (n := 16) (fun n s => EntryInv faults fix v k cur w blk n s) ?_
    fun n hn s hs => hs.step hr htree hblk hn
  exact ⟨h, rfl, rfl, rfl, fun _ hx => hx, fun e _ => .inl (bufIno_readBuf _ _ _),
    fun e he => absurd he (Nat.not_lt_zero e), fun _ => rfl, fun _ => rfl, fun _ => rfl⟩

/-! ### A directory -/

theorem EntryInv.store {s : DirScan} (hin : InData v.sb blk)
    (hal : Allocated v ino) (hblk : DirBlock v ino blk)
    (h : EntryInv faults fix v k cur w blk 16 s) (hw : w'.vol = s.walk.vol.diskWrite blk s.buf)
    (hvisited : w'.visited = s.walk.visited) (hqueue : w'.queue = s.walk.queue)
    (htail : w'.tail = s.walk.tail) (hbad : w'.badDirents = s.walk.badDirents) (hfix : fix = true) :
    WalkInv faults fix v k cur w' ∧ Grows faults fix v w w' ∧
      EntriesDone faults fix v w'.vol.disk w'.visited blk := by
  have hdisk : w'.vol.disk = writeBuf w.vol.disk blk s.buf := by
    rw [hw, h.vol]
    rfl
  have hbuf : ∀ e < 16, entryIno w'.vol.disk blk e = bufIno s.buf e := by
    intro e he
    rw [hdisk]
    exact readLE_writeBuf (by omega)
  have hother : ∀ b, b ≠ blk → BlockAgree b w.vol.disk w'.vol.disk := by
    intro b hb
    rw [hdisk]
    exact blockAgree_writeBuf s.buf hb
  have hentry : ∀ b, b ≠ blk → ∀ e < 16, entryIno w'.vol.disk b e = entryIno w.vol.disk b e :=
    fun b hb e he => (hother b hb).readLE_eq (by omega) (by omega)
  have hdone : EntriesDone faults fix v w'.vol.disk w'.visited blk := by
    intro e he
    rw [hbuf e he, hvisited]
    exact h.done e he
  have hgrows : ∀ u : Walk, u.vol = w.vol →
      (∀ x, Bitmap.test u.visited x = true → Bitmap.test w'.visited x = true) →
        Grows faults fix v u w' := by
    intro u hvol hmono
    refine ⟨hmono, fun b hb => ?_⟩
    by_cases heq : b = blk
    · rw [heq]
      exact hdone
    · intro e he
      rw [hentry b heq e he, ← hvol]
      exact ⟨fun hal => hmono _ ((hb e he).1 hal), (hb e he).2⟩
  have hgrow := hgrows s.walk h.vol fun x hx => hvisited ▸ hx
  refine ⟨⟨?_, ⟨fun b e he => ?_, fun b hb => ?_⟩, fun hno => ?_, ?_, ?_, ?_, ?_, ?_, ?_, ?_⟩,
    hgrows w rfl fun x hx => hvisited ▸ h.visited x hx, hdone⟩
  · rw [hw, h.inv.vol]
    rfl
  · by_cases heq : b = blk
    · subst heq
      rw [hbuf e he]
      rcases h.orig e he with hsame | ⟨hzero, hno⟩
      · rw [hsame, ← h.vol]
        exact h.inv.cleared.entry b e he
      · rw [hzero]
        by_cases hz : entryIno v.disk b e = 0
        · exact .inl hz.symm
        · refine .inr ⟨rfl, fun hal => hno ?_⟩
          rw [← h.vol, h.inv.cleared.kept he hal]
          exact hal
    · rw [hentry b heq e he, ← h.vol]
      exact h.inv.cleared.entry b e he
  · have hne : b ≠ blk := by
      rintro rfl
      exact hb ⟨hin, ino, hal, hblk⟩
    have hcl := h.inv.cleared.blocks b hb
    rw [h.vol] at hcl
    exact hcl.trans (hother b hne)
  · simp [hfix] at hno
  · rw [hvisited]
    exact h.inv.root
  · rw [hvisited]
    exact h.inv.sound
  · rw [hvisited, hqueue]
    exact h.inv.queued
  · intro x hx hwalked
    rw [hvisited] at hx
    rcases h.inv.done x hx hwalked with hcur | hq | hd
    · exact .inl hcur
    · exact .inr (.inl (hqueue ▸ hq))
    · exact .inr (.inr (hd.grows hgrow))
  · rw [hvisited, htail]
    exact h.inv.tail
  · rw [hqueue, htail]
    exact h.inv.count
  · rw [hbad]
    exact h.inv.clean

theorem walkBlock_spec {b : ℕ} (hr : TableBelow v) (htree : Reached faults v ino)
    (hal : Allocated v ino) (hdir : (v.inode ino).isDir = true)
    (hb : b < sizeBlocks (v.inode ino)) (h : WalkInv faults fix v k cur w)
    (hnf : w.failed = false) (hrep : fix = true → w.repaired = w.badDirents)
    (hw' : w' = walkBlock faults fix (v.inode ino) w b) : WalkInv faults fix v k cur w' ∧
      (w'.failed = true ∧ ¬ BlockOk faults v (getBlock (v.inode ino) b) ∨
        w'.failed = false ∧ (fix = true → w'.repaired = w'.badDirents) ∧ Grows faults fix v w w' ∧
          BlockOk faults v (getBlock (v.inode ino) b) ∧ (getBlock (v.inode ino) b ≠ 0 →
            EntriesDone faults fix v w'.vol.disk w'.visited (getBlock (v.inode ino) b))) := by
  unfold walkBlock at hw'
  simp only [hnf, Bool.false_or, decide_eq_true_eq] at hw'
  by_cases hzero : getBlock (v.inode ino) b = 0
  · rw [if_pos hzero] at hw'
    subst hw'
    exact ⟨h, .inr ⟨hnf, hrep, Grows.refl _, .inl hzero, fun hne => absurd hzero hne⟩⟩
  rw [if_neg hzero] at hw'
  by_cases hbad : getBlock (v.inode ino) b < w.vol.sb.dataStart ∨
      w.vol.sb.totalBlocks ≤ getBlock (v.inode ino) b ∨ faults .entries (getBlock (v.inode ino) b)
  · rw [if_pos hbad] at hw'
    subst hw'
    refine ⟨{ h with }, .inl ⟨rfl, ?_⟩⟩
    rw [h.sb] at hbad
    rintro (heq | ⟨hge, hlt, hread⟩)
    · exact hzero heq
    · rcases hbad with hbad | hbad | hbad
      · omega
      · omega
      · simp [hread] at hbad
  · rw [if_neg hbad] at hw'
    rw [h.sb] at hbad
    push Not at hbad
    obtain ⟨hge, hlt, hread⟩ := hbad
    have hblk : DirBlock v ino (getBlock (v.inode ino) b) := ⟨hdir, hzero, b, hb, rfl⟩
    have hent := scanEntries_spec hr htree hblk h
    generalize (List.range ixfsDirentsPerBlock).foldl (scanEntry faults fix)
      ⟨readBuf w.vol.disk (getBlock (v.inode ino) b), 0, w⟩ = s at hw' hent
    have hok : BlockOk faults v (getBlock (v.inode ino) b) :=
      .inr ⟨hge, hlt, by simpa using hread⟩
    by_cases hdirty : 0 < s.repairs
    · rw [if_pos hdirty] at hw'
      have hfix : fix = true := by
        cases hfix : fix with
        | true => rfl
        | false =>
          have := hent.check hfix
          omega
      subst hw'
      obtain ⟨hinv, hgrow, hdone⟩ := @EntryInv.store faults fix v w { s.walk with
          vol := s.walk.vol.diskWrite (getBlock (v.inode ino) b) s.buf
          repaired := s.walk.repaired + s.repairs } _ _ _ _ _
        ⟨hzero, hge, hlt⟩ hal hblk hent rfl rfl rfl rfl rfl hfix
      refine ⟨hinv, .inr ⟨hent.failed.trans hnf, fun hf => ?_, hgrow, hok, fun _ => hdone⟩⟩
      have hcount := hent.count hf
      have hbefore := hrep hf
      simp only [hent.repaired]
      omega
    · rw [if_neg hdirty] at hw'
      subst hw'
      have hclean := hent.clean (by omega)
      refine ⟨hent.inv, .inr ⟨hent.failed.trans hnf, fun hf => ?_, ⟨hent.visited, ?_⟩, hok, ?_⟩⟩
      · have hcount := hent.count hf
        have hbefore := hrep hf
        rw [hent.repaired]
        omega
      · intro b' hb' e he
        rw [hent.vol]
        exact ⟨fun hal => hent.visited _ ((hb' e he).1 hal), (hb' e he).2⟩
      · intro _ e he
        have hd := hent.done e he
        rw [hclean, bufIno_readBuf] at hd
        rw [hent.vol]
        exact hd

theorem isFree_of_isDir {i : Inode} (h : i.isDir = true) : i.isFree = false := by
  have htype : i.type = ixfsSDir := by simpa [Inode.isDir] using h
  simp [Inode.isFree, htype, ixfsSDir]

/-- The state of the walk after `j` blocks of directory `ino`. -/
structure BlocksInv (faults : ReadFaults) (fix : Bool) (v : Volume) (k ino j : ℕ) (w : Walk) :
    Prop where
  inv : WalkInv faults fix v k [ino] w
  failed : w.failed = true → ∃ b < min (sizeBlocks (v.inode ino)) (v.inode ino).blocks,
    ¬ BlockOk faults v (getBlock (v.inode ino) b)
  repaired : w.failed = false → fix = true → w.repaired = w.badDirents
  done : w.failed = false → ∀ b < j, BlockOk faults v (getBlock (v.inode ino) b) ∧
    (getBlock (v.inode ino) b ≠ 0 →
      EntriesDone faults fix v w.vol.disk w.visited (getBlock (v.inode ino) b))

theorem walkBlock_failed {i : Inode} {b : ℕ} (h : w.failed = true) :
    walkBlock faults fix i w b = w := by
  simp [walkBlock, h]

theorem BlocksInv.step {j : ℕ} (hr : TableBelow v) (htree : Reached faults v ino)
    (hal : Allocated v ino) (hdir : (v.inode ino).isDir = true)
    (hj : j < min (sizeBlocks (v.inode ino)) (v.inode ino).blocks)
    (h : BlocksInv faults fix v k ino j w) :
    BlocksInv faults fix v k ino (j + 1) (walkBlock faults fix (v.inode ino) w j) := by
  cases hf : w.failed with
  | true =>
    rw [walkBlock_failed hf]
    exact ⟨h.inv, h.failed, h.repaired, fun hno => by simp [hf] at hno⟩
  | false =>
    obtain ⟨hinv, hcase⟩ := walkBlock_spec hr htree hal hdir (lt_min_iff.mp hj).1 h.inv hf
      (h.repaired hf) rfl
    rcases hcase with ⟨hfail, hnot⟩ | ⟨hnf, hrep, hgrow, hok, hdone⟩
    · exact ⟨hinv, fun _ => ⟨j, hj, hnot⟩, fun hno => by simp [hfail] at hno,
        fun hno => by simp [hfail] at hno⟩
    · refine ⟨hinv, fun hno => by simp [hnf] at hno, fun _ => hrep, fun _ b hb => ?_⟩
      rcases Nat.lt_succ_iff_lt_or_eq.mp hb with hb | rfl
      · obtain ⟨hok', hdone'⟩ := h.done hf b hb
        exact ⟨hok', fun hne => hgrow.entries _ (hdone' hne)⟩
      · exact ⟨hok, hdone⟩

theorem WalkInv.mono {cur cur' : List ℕ} (h : WalkInv faults fix v k cur w)
    (hsub : ∀ ino, Bitmap.test w.visited ino = true → Walked v ino → ino ∈ cur →
      ino ∈ cur' ∨ Done faults fix v w.vol.disk w.visited ino) : WalkInv faults fix v k cur' w := by
  refine { h with done := fun ino hvis hw => ?_ }
  rcases h.done ino hvis hw with hcur | hq | hd
  · rcases hsub ino hvis hw hcur with hcur' | hd
    · exact .inl hcur'
    · exact .inr (.inr hd)
  · exact .inr (.inl hq)
  · exact .inr (.inr hd)

theorem walkDir_spec (hr : TableBelow v) (htree : Reached faults v ino)
    (h : WalkInv faults fix v k [ino] w) (hnf : w.failed = false)
    (hrep : fix = true → w.repaired = w.badDirents) (hw' : w' = walkDir faults fix w ino) :
    (w'.failed = true ∧ WalkInv faults fix v k [ino] w' ∧ ¬ DirOk faults v ino) ∨
      w'.failed = false ∧ WalkInv faults fix v k [] w' ∧
        (fix = true → w'.repaired = w'.badDirents) := by
  -- a finished directory leaves the list of those the walk is inside of
  have hfinish : ∀ u : Walk, WalkInv faults fix v k [ino] u →
      Done faults fix v u.vol.disk u.visited ino → WalkInv faults fix v k [] u := by
    intro u hu hd
    refine hu.mono fun x _ _ hx => .inr ?_
    rw [mem_singleton.mp hx]
    exact hd
  unfold walkDir at hw'
  by_cases hread : inoInTable v.sb ino = true ∧ faults .directory (inodeBlock v.sb ino) = false
  · obtain ⟨hin, hok⟩ := hread
    have hinode : w.vol.inode ino = v.inode ino := by
      rw [h.vol]
      exact h.cleared.inode hr hin
    have hsome : readInode (faults .directory) w.vol ino = some (v.inode ino) := by
      rw [readInode, h.sb, hin, hok, hinode]
      rfl
    rw [hsome] at hw'
    simp only at hw'
    cases hdir : (v.inode ino).isDir with
    | false =>
      rw [hdir, if_neg Bool.false_ne_true] at hw'
      subst hw'
      refine .inr ⟨hnf, hfinish _ h ⟨⟨hin, hok, fun hno => ?_⟩, fun hno => ?_⟩, hrep⟩
      · simp [hdir] at hno
      · simp [hdir] at hno
    | true =>
      rw [hdir, if_pos rfl] at hw'
      have hal : Allocated v ino := ⟨hin, isFree_of_isDir hdir⟩
      have hblocks : BlocksInv faults fix v k ino
          (min (sizeBlocks (v.inode ino)) (v.inode ino).blocks) w' := by
        rw [hw']
        refine Loop.foldl_range (fun j u => BlocksInv faults fix v k ino j u) ?_
          fun j hj u hu => hu.step hr htree hal hdir hj
        exact ⟨h, fun hno => by simp [hnf] at hno, fun _ => hrep,
          fun _ b hb => absurd hb (Nat.not_lt_zero b)⟩
      cases hf : w'.failed with
      | true =>
        obtain ⟨b, hb, hnot⟩ := hblocks.failed hf
        exact .inl ⟨rfl, hblocks.inv, fun hdok => hnot (hdok.blocks hdir b hb)⟩
      | false =>
        refine .inr ⟨rfl, hfinish _ hblocks.inv ⟨⟨hin, hok, fun _ b hb => ?_⟩,
          fun _ b hb hne => ?_⟩, hblocks.repaired hf⟩
        · exact (hblocks.done hf b hb).1
        · exact (hblocks.done hf b hb).2 hne
  · have hnone : readInode (faults .directory) w.vol ino = none := by
      rw [readInode, h.sb, if_neg]
      simpa using hread
    rw [hnone] at hw'
    subst hw'
    exact .inl ⟨rfl, { h with }, fun hdok => hread ⟨hdok.table, hdok.reads⟩⟩

theorem walkLoop_spec (hr : TableBelow v) (n : ℕ) (h : WalkInv faults fix v k [] w)
    (hnf : w.failed = false) (hrep : fix = true → w.repaired = w.badDirents)
    (hfuel : n + k = v.sb.totalInodes) :
    ∃ k' cur, WalkInv faults fix v k' cur (walkLoop faults fix n w) ∧
      ((walkLoop faults fix n w).failed = true → ¬ TreeOk faults v) ∧
      ((walkLoop faults fix n w).failed = false → cur = [] ∧ (walkLoop faults fix n w).queue = [] ∧
        (fix = true → (walkLoop faults fix n w).repaired =
          (walkLoop faults fix n w).badDirents)) := by
  induction n generalizing w k with
  | zero =>
    -- every inode of the volume has been taken off the queue
    have hempty : w.queue = [] := by
      have hle := h.tail.trans (count_le w.visited v.sb.totalInodes)
      have hcount := h.count
      exact length_eq_zero_iff.mp (by omega)
    exact ⟨k, [], h, fun hno => by simp [walkLoop, hnf] at hno, fun _ => ⟨rfl, hempty, hrep⟩⟩
  | succ n ih =>
    cases hq : w.queue with
    | nil =>
      have hself : walkLoop faults fix (n + 1) w = w := by simp [walkLoop, hq]
      rw [hself]
      exact ⟨k, [], h, fun hno => by simp [hnf] at hno, fun _ => ⟨rfl, hq, hrep⟩⟩
    | cons ino queue =>
      obtain ⟨hvis, hwalked⟩ := h.queued ino (hq ▸ mem_cons_self)
      have htree := h.sound ino hvis
      have hopen : WalkInv faults fix v (k + 1) [ino] { w with queue := queue } := by
        refine { h with queued := fun x hx => ?_, done := fun x hx hw => ?_, count := ?_ }
        · exact h.queued x (hq ▸ mem_cons_of_mem _ hx)
        · rcases h.done x hx hw with hno | hmem | hd
          · simp at hno
          · rw [hq] at hmem
            rcases mem_cons.mp hmem with rfl | hmem
            · exact .inl (mem_singleton_self x)
            · exact .inr (.inl hmem)
          · exact .inr (.inr hd)
        · have := h.count
          rw [hq, length_cons] at this
          simp only
          omega
      have hstep : walkLoop faults fix (n + 1) w =
          if (walkDir faults fix { w with queue := queue } ino).failed then
            walkDir faults fix { w with queue := queue } ino
          else walkLoop faults fix n (walkDir faults fix { w with queue := queue } ino) := by
        simp [walkLoop, hq]
      rw [hstep]
      rcases walkDir_spec hr htree hopen hnf hrep rfl with ⟨hf, hinv, hnot⟩ | ⟨hf, hinv, hrep'⟩
      · rw [if_pos hf]
        exact ⟨k + 1, [ino], hinv, fun _ hok => hnot (hok ino htree hwalked),
          fun hno => by simp [hf] at hno⟩
      · rw [hf, if_neg Bool.false_ne_true]
        exact ih hinv hf hrep' (by omega)

structure WalkResult (faults : ReadFaults) (fix : Bool) (v : Volume) (w : Walk) : Prop where
  vol : w.vol = { v with disk := w.vol.disk }
  cleared : Cleared faults v w.vol.disk
  check : fix = false → w.vol = v
  failed : w.failed = true → ¬ TreeOk faults v
  sound : ∀ ino, Bitmap.test w.visited ino = true → Reached faults v ino
  done : w.failed = false → ∀ ino, Bitmap.test w.visited ino = true → Walked v ino →
    Done faults fix v w.vol.disk w.visited ino
  root : 1 < v.sb.totalInodes → Bitmap.test w.visited 1 = true
  repaired : w.failed = false → fix = true → w.repaired = w.badDirents
  clean : TreeClean faults v → w.badDirents = 0

theorem walkTree_spec (hr : TableBelow v) :
    WalkResult faults fix v (walkTree faults fix v) := by
  have hzero : ∀ x, Bitmap.test (fun _ => 0) x = false := fun x => by simp [Bitmap.test]
  have hone : ∀ x, Bitmap.test (Bitmap.set (fun _ => 0) ixfsRootInode) x = true → x = 1 := by
    intro x hx
    rw [Bitmap.test_set, hzero, Bool.or_false, decide_eq_true_eq] at hx
    exact hx
  have hself : Bitmap.test (Bitmap.set (fun _ => 0) ixfsRootInode) ixfsRootInode = true := by
    rw [Bitmap.test_set, decide_eq_true rfl, Bool.true_or]
  have hloop : ∃ k' cur, WalkInv faults fix v k' cur (walkTree faults fix v) ∧
      ((walkTree faults fix v).failed = true → ¬ TreeOk faults v) ∧
      ((walkTree faults fix v).failed = false → cur = [] ∧ (walkTree faults fix v).queue = [] ∧
        (fix = true → (walkTree faults fix v).repaired = (walkTree faults fix v).badDirents)) := by
    unfold walkTree
    split
    · rename_i hroot
      refine walkLoop_spec hr v.sb.totalInodes (k := 0) ⟨rfl, Cleared.refl v, fun _ => rfl,
        fun _ => hself, ?_, ?_, ?_, ?_, rfl, fun _ => rfl⟩ rfl (fun _ => rfl) rfl
      · intro x hx
        rw [hone x hx]
        exact .root hroot
      · intro x hx
        rw [mem_singleton.mp hx]
        exact ⟨hself, .inl rfl⟩
      · intro x hx _
        rw [hone x hx]
        exact .inr (.inl (mem_singleton_self _))
      · have := Bitmap.count_set hroot (hzero ixfsRootInode)
        simp only
        omega
    · rename_i hroot
      refine walkLoop_spec hr v.sb.totalInodes (k := 0) ⟨rfl, Cleared.refl v, fun _ => rfl,
        fun hr => absurd hr hroot, ?_, ?_, ?_, Nat.zero_le _, rfl, fun _ => rfl⟩ rfl (fun _ => rfl)
        rfl
      · intro x hx
        simp [hzero] at hx
      · simp
      · intro x hx
        simp [hzero] at hx
  obtain ⟨k, cur, hinv, hfail, hdone⟩ := hloop
  refine ⟨hinv.vol, hinv.cleared, fun hno => ?_, hfail, hinv.sound, fun hf ino hvis hw => ?_,
    hinv.root, fun hf => (hdone hf).2.2, hinv.clean⟩
  · rw [hinv.vol, hinv.check hno]
  · obtain ⟨rfl, hq, -⟩ := hdone hf
    rcases hinv.done ino hvis hw with hno | hno | hd
    · simp at hno
    · simp [hq] at hno
    · exact hd

theorem WalkResult.complete {w : Walk} (h : WalkResult faults fix v w)
    (hdirs : ∀ ino, Reached faults v ino → (v.inode ino).CompactDir) (hnf : w.failed = false)
    (htree : Reached faults v ino) : Bitmap.test w.visited ino = true := by
  induction htree with
  | root hroot => exact h.root hroot
  | @entry ino blk e t hin hblk he ht hal ih =>
    obtain ⟨hdir, hne, b, hb, rfl⟩ := hblk
    have hd := h.done hnf ino ih (.inr hdir)
    have hlt := hdirs ino hin hdir b hb hne
    have hkept := h.cleared.kept he (ht ▸ hal)
    have hent := (hd.entries hdir b (lt_min hb hlt) hne e he).1
    rw [hkept, ht] at hent
    exact hent hal

theorem WalkResult.treeOk {w : Walk} (h : WalkResult faults fix v w)
    (hdirs : ∀ ino, Reached faults v ino → (v.inode ino).CompactDir) (hnf : w.failed = false) :
    TreeOk faults v :=
  fun ino htree hw => (h.done hnf ino (h.complete hdirs hnf htree) hw).ok

end ImpossibleOs.Ixfs
