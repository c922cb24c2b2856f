import ImpossibleOs.Ixfs.Layout

/-!
The table of reference counts on the device (`src/kernel/fs/ixfs/ixfs_cow.c`).

On the device there is room for two blocks of counts, and in memory there is one
count for each block of the volume. The counts that a load does not find on the
device are what `kmalloc` left in the table, an argument of the load here.
-/

namespace ImpossibleOs.Ixfs

open ByteMem

/-- The loop of `ixfs_refcount_load`, where the blocks of `fails` cannot be read. -/
def readCounts (fails : ℕ → Bool) (v : Volume) (bytes : ℕ) (table : ByteMem) : Option ByteMem :=
  (List.range ixfsRefcountBlocks).foldlM (fun table i =>
    if fails (v.sb.refcountStart + i) then none
    else some fun b =>
      if b < bytes ∧ b / 4096 = i then readBuf v.disk (v.sb.refcountStart + i) (b % 4096)
      else table b) table

def deriveCounts (v : Volume) (bytes : ℕ) (table : ByteMem) : ByteMem := fun b =>
  if b < bytes ∧ (Bitmap.test v.bitmap b ∨ b < v.sb.dataStart) then 1 else table b

/-- `ixfs_refcount_load` into memory that holds `fresh`. -/
def refcountLoad (fails : ℕ → Bool) (fresh : ByteMem) (v : Volume) : Option Refcounts :=
  let bytes := v.sb.totalBlocks % 2 ^ 32
  (readCounts fails v bytes fresh).map fun table =>
    if (List.range bytes).all fun b => table b == 0 then ⟨bytes, deriveCounts v bytes table⟩
    else ⟨bytes, table⟩

variable {v : Volume} {t : Refcounts} {fails : ℕ → Bool} {fresh : ByteMem}

theorem readBuf_writeBlock (v : Volume) (blk b : ℕ) (buf : ByteMem) {x : ℕ} (hx : x < 4096) :
    readBuf (v.writeBlock blk buf).disk b x = if b = blk then buf x else readBuf v.disk b x := by
  show writeBuf v.disk blk buf (4096 * b + x) = _
  rw [writeBuf, show (4096 * b + x) / 4096 = b by omega, show (4096 * b + x) % 4096 = x by omega]
  rfl

theorem readBuf_refcountFlush (v : Volume) (t : Refcounts) {i x : ℕ} (hi : i < ixfsRefcountBlocks)
    (hx : x < 4096) :
    readBuf (refcountFlush v t).disk (v.sb.refcountStart + i) x =
      if i * 4096 + x < t.bytes then t.table (i * 4096 + x) else 0 := by
  rw [show refcountFlush v t = (v.writeBlock (v.sb.refcountStart + 0) _).writeBlock
    (v.sb.refcountStart + 1) _ from rfl, readBuf_writeBlock _ _ _ _ hx,
    readBuf_writeBlock _ _ _ _ hx]
  obtain rfl | rfl : i = 0 ∨ i = 1 := by
    unfold ixfsRefcountBlocks at hi
    omega
  · rw [if_neg (by omega), if_pos rfl]
  · rw [if_pos rfl]

theorem readCounts_spec {bytes : ℕ} {table : ByteMem}
    (h : readCounts fails v bytes fresh = some table) (b : ℕ) :
    table b = if b < bytes ∧ b / 4096 < ixfsRefcountBlocks then
      readBuf v.disk (v.sb.refcountStart + b / 4096) (b % 4096) else fresh b := by
  refine Loop.foldlM_range_some (fun n (table : ByteMem) =>
    table b = if b < bytes ∧ b / 4096 < n then
    readBuf v.disk (v.sb.refcountStart + b / 4096) (b % 4096) else fresh b) ?_ ?_ h
  · rw [if_neg (by omega)]
  · intro i _ table table' hbefore hturn
    split at hturn
    · contradiction
    obtain rfl := Option.some.inj hturn
    dsimp only
    rw [hbefore]
    split
    · rename_i hhere
      rw [if_pos (by omega), hhere.2]
    · split
      · rw [if_pos (by omega)]
      · rw [if_neg (by omega)]

theorem readCounts_refcountFlush {table : ByteMem}
    (h : readCounts fails (refcountFlush v t) t.bytes fresh = some table) {b : ℕ}
    (hb : b < t.bytes) :
    table b = if b < 4096 * ixfsRefcountBlocks then t.table b else fresh b := by
  rw [readCounts_spec h b, (writes_refcountFlush v t).sb]
  split
  · rename_i hin
    rw [readBuf_refcountFlush v t hin.2 (by omega), if_pos (by omega), if_pos (by omega),
      show b / 4096 * 4096 + b % 4096 = b by omega]
  · rw [if_neg (by omega)]

/-! ### The round trip -/

/-- A load of the flushed counts gives every block its count, whatever the fresh memory holds. -/
def SurvivesFlush (v : Volume) (t : Refcounts) : Prop :=
  ∀ fails fresh t', refcountLoad fails fresh (refcountFlush v t) = some t' →
    t'.bytes = t.bytes ∧ ∀ b < t.bytes, t'.table b = t.table b

/-- The counts of a volume without references, as they are derived from its bitmap. -/
def Unreferenced (v : Volume) (bytes : ℕ) : Prop :=
  ∀ b < bytes, Bitmap.test v.bitmap b = false ∧ v.sb.dataStart ≤ b

theorem all_zero_iff {bytes : ℕ} {table : ByteMem} :
    ((List.range bytes).all fun b => table b == 0) = true ↔ ∀ b < bytes, table b = 0 := by
  rw [List.all_eq_true]
  simp only [List.mem_range, beq_iff_eq]

theorem refcountLoad_refcountFlush (ht : t.bytes = v.sb.totalBlocks % 2 ^ 32) {t' : Refcounts}
    (h : refcountLoad fails fresh (refcountFlush v t) = some t') :
    ∃ table, (∀ b < t.bytes,
        table b = if b < 4096 * ixfsRefcountBlocks then t.table b else fresh b) ∧
      t'.bytes = t.bytes ∧
      t'.table = if ∀ b < t.bytes, table b = 0 then deriveCounts v t.bytes table else table := by
  have hflush := writes_refcountFlush v t
  rw [refcountLoad, hflush.sb, ← ht] at h
  obtain ⟨table, hread, rfl⟩ := Option.map_eq_some_iff.mp h
  refine ⟨table, fun b hb => readCounts_refcountFlush hread hb, ?_⟩
  have hderive : deriveCounts (refcountFlush v t) t.bytes table =
      deriveCounts v t.bytes table := by
    funext b
    rw [deriveCounts, deriveCounts, hflush.sb, hflush.bitmap]
  rw [hderive]
  split
  · rename_i hzero
    exact ⟨rfl, (if_pos (all_zero_iff.mp hzero)).symm⟩
  · rename_i hzero
    exact ⟨rfl, (if_neg (hzero ∘ all_zero_iff.mpr)).symm⟩

theorem exists_refcountLoad (v : Volume) (fresh : ByteMem) :
    ∃ t', refcountLoad (fun _ => false) fresh v = some t' := ⟨_, rfl⟩

theorem not_survives_of_large (ht : t.bytes = v.sb.totalBlocks % 2 ^ 32)
    (hlarge : 4096 * ixfsRefcountBlocks < t.bytes) : ¬ SurvivesFlush v t := by
  intro h
  obtain ⟨c, hc, hne⟩ : ∃ c : UInt8, c ≠ 0 ∧ c ≠ t.table (4096 * ixfsRefcountBlocks) := by
    rcases eq_or_ne (t.table (4096 * ixfsRefcountBlocks)) 1 with hone | hone
    · exact ⟨2, by decide, by rw [hone]; decide⟩
    · exact ⟨1, by decide, hone.symm⟩
  obtain ⟨t', hload⟩ := exists_refcountLoad (refcountFlush v t) fun _ => c
  obtain ⟨table, htable, -, heq⟩ := refcountLoad_refcountFlush ht hload
  have hlast := htable _ hlarge
  rw [if_neg (Nat.lt_irrefl _)] at hlast
  rw [if_neg fun hzero => hc (hlast.symm.trans (hzero _ hlarge))] at heq
  have hsame := (h _ _ _ hload).2 _ hlarge
  rw [heq, hlast] at hsame
  exact hne hsame

theorem not_survives_of_derived (ht : t.bytes = v.sb.totalBlocks % 2 ^ 32)
    (hzero : ∀ b < t.bytes, t.table b = 0) {b : ℕ} (hb : b < t.bytes)
    (hused : Bitmap.test v.bitmap b = true ∨ b < v.sb.dataStart) : ¬ SurvivesFlush v t := by
  intro h
  obtain ⟨t', hload⟩ := exists_refcountLoad (refcountFlush v t) fun _ => 0
  obtain ⟨table, htable, -, heq⟩ := refcountLoad_refcountFlush ht hload
  have hempty : ∀ b < t.bytes, table b = 0 := by
    intro b hb
    rw [htable b hb, hzero b hb]
    exact ite_self 0
  have hsame := (h _ _ _ hload).2 b hb
  rw [heq, if_pos hempty, deriveCounts, if_pos ⟨hb, hused⟩, hzero b hb] at hsame
  exact absurd hsame (by decide)

/-- The counts survive exactly when they fit into the two blocks, and are not all zero where the
bitmap gives something else. -/
theorem refcounts_survive_iff (v : Volume) (t : Refcounts)
    (ht : t.bytes = v.sb.totalBlocks % 2 ^ 32) :
    SurvivesFlush v t ↔ t.bytes ≤ 4096 * ixfsRefcountBlocks ∧
      ((∃ b < t.bytes, t.table b ≠ 0) ∨ Unreferenced v t.bytes) := by
  constructor
  · intro h
    constructor
    · by_contra hlarge
      exact not_survives_of_large ht (Nat.not_le.mp hlarge) h
    · by_contra hnone
      obtain ⟨hzero, hused⟩ := not_or.mp hnone
      apply hused
      intro b hb
      have hempty : ∀ b < t.bytes, t.table b = 0 :=
        fun b hb => Classical.not_not.mp fun hne => hzero ⟨b, hb, hne⟩
      constructor
      · by_contra hset
        exact not_survives_of_derived ht hempty hb (.inl (Bool.eq_true_of_not_eq_false hset)) h
      · by_contra hmeta
        exact not_survives_of_derived ht hempty hb (.inr (Nat.not_le.mp hmeta)) h
  · rintro ⟨hfit, hcounts⟩ fails fresh t' hload
    obtain ⟨table, htable, hbytes, heq⟩ := refcountLoad_refcountFlush ht hload
    have hsame : ∀ b < t.bytes, table b = t.table b := by
      intro b hb
      rw [htable b hb, if_pos (by omega)]
    refine ⟨hbytes, ?_⟩
    intro b hb
    rw [heq]
    split
    · rename_i hzero
      obtain ⟨b', hb', hne⟩ | hfree := hcounts
      · exact absurd ((hsame b' hb').symm.trans (hzero b' hb')) hne
      · obtain ⟨hclear, hdata⟩ := hfree b hb
        rw [deriveCounts, if_neg, hsame b hb]
        rintro ⟨-, hset | hmeta⟩
        · rw [hclear] at hset
          contradiction
        · omega
    · exact hsame b hb

/-- A volume of 64 MiB whose last block has two references. -/
def largeCounts : Refcounts := ⟨16384, fun b => if b = 16383 then 2 else 1⟩

def plainLayout (total : ℕ) : Volume where
  sb := writeLE (writeLE (fun _ => 0) 12 8 total) 104 4 1
  disk := fun _ => 0
  bitmap := fun _ => 0
  bitmapBytes := (total + 7) / 8
  refcounts := none
  checksums := none
  snapshots := []
  readOnly := false
  active := true
  deviceBlocks := total

theorem totalBlocks_plainLayout {total : ℕ} (h : total < 2 ^ 64) :
    (plainLayout total).sb.totalBlocks = total := by
  rw [plainLayout, Superblock.totalBlocks, readLE_writeLE_of_disjoint (by omega),
    readLE_writeLE_same]
  exact Nat.mod_eq_of_lt h

theorem refcounts_lost_large : ¬ SurvivesFlush (plainLayout 16384) largeCounts :=
  not_survives_of_large (by rw [totalBlocks_plainLayout (by decide)]; rfl) (by decide)

theorem refcounts_survive_small : SurvivesFlush (plainLayout 16) ⟨16, fun _ => 2⟩ := by
  refine (refcounts_survive_iff (plainLayout 16) ⟨16, fun _ => 2⟩ ?_).mpr
    ⟨by decide, .inl ⟨0, by decide, by decide⟩⟩
  rw [totalBlocks_plainLayout (by decide)]
  rfl

end ImpossibleOs.Ixfs
