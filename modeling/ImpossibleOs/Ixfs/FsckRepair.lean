import ImpossibleOs.Ixfs.FsckFree
import ImpossibleOs.Ixfs.JournalScan

/-!
What the repairs of the IXFS checker leave behind (passes 7 to 10).

Bitmap, free counts and reference counts agree with the scan afterwards, and
the journal has nothing left to replay. Each repair writes its own region of
the metadata, and the regions of a plausible volume lie apart.
-/

namespace ImpossibleOs.Ixfs

open ByteMem Function List Option Nat

variable {faults : ReadFaults} {fix : Bool} {v w : Volume} {expected actual : ByteMem} {blk : ℕ}

theorem reconcileBitmap_spec (expected actual : ByteMem) (n : ℕ) (fix : Bool) :
    (∀ i, Bitmap.test (reconcileBitmap expected actual n fix).1 i =
      if i < n ∧ fix = true then Bitmap.test expected i else Bitmap.test actual i) ∧
    (fix = false → (reconcileBitmap expected actual n fix).1 = actual) ∧
    ((∀ i < n, Bitmap.test expected i = Bitmap.test actual i) →
      (reconcileBitmap expected actual n fix).2 = 0) := by
  have hinv := Loop.foldl_range (n := n) (f := reconcileBit expected fix) (s := (actual, 0))
    (fun k s => (∀ i, Bitmap.test s.1 i =
        if i < k ∧ fix = true then Bitmap.test expected i else Bitmap.test actual i) ∧
      (fix = false → s.1 = actual) ∧
      ((∀ i < k, Bitmap.test expected i = Bitmap.test actual i) → s.2 = 0))
    ⟨fun i => by simp, fun _ => rfl, fun _ => rfl⟩ ?_
  · exact hinv
  rintro k hk ⟨m, c⟩ ⟨hbits, hkeep, hcount⟩
  have hcur : Bitmap.test m k = Bitmap.test actual k := by
    rw [hbits k, if_neg (by omega)]
  have hlt : ∀ i, i ≠ k → (i < k + 1 ↔ i < k) := by omega
  unfold reconcileBit
  simp only at hcur hbits hkeep hcount ⊢
  rw [hcur]
  by_cases hsame : Bitmap.test expected k = Bitmap.test actual k
  · rw [if_pos hsame]
    refine ⟨fun i => ?_, hkeep, fun h => hcount fun i hi => h i (by omega)⟩
    by_cases hik : i = k
    · subst hik
      rw [hcur, hsame, ite_self]
    · rw [hbits i]
      simp only [hlt i hik]
  · rw [if_neg hsame]
    refine ⟨fun i => ?_, fun hno => by simp [hno, hkeep hno],
      fun h => absurd (h k (by omega)) hsame⟩
    cases fix with
    | false =>
      simp only [Bool.false_eq_true, if_false, and_false]
      rw [hkeep rfl]
    | true =>
      have hset : Bitmap.test (if Bitmap.test expected k = true then Bitmap.set m k
          else Bitmap.clear m k) i =
        if i = k then Bitmap.test expected k else Bitmap.test m i := by
        cases hk' : Bitmap.test expected k with
        | true =>
          rw [if_pos rfl, Bitmap.test_set]
          by_cases hik : i = k <;> simp [hik]
        | false =>
          rw [if_neg Bool.false_ne_true, Bitmap.test_clear]
          by_cases hik : i = k <;> simp [hik]
      simp only [if_true, and_true]
      rw [hset]
      by_cases hik : i = k
      · simp [hik]
      · rw [if_neg hik, hbits i]
        simp only [hlt i hik, and_true]

/-- The volume after pass 7. -/
structure BitmapRepaired (fix : Bool) (v w : Volume) (expected : ByteMem) : Prop where
  writes : Writes (InRegion v.sb.bitmapStart v.sb.bitmapBlocks) { v with bitmap := w.bitmap } w
  bits : ∀ i, Bitmap.test w.bitmap i =
    if i < v.sb.totalBlocks ∧ fix = true then Bitmap.test expected i else Bitmap.test v.bitmap i
  keep : fix = false → w = v

theorem repairBitmap_spec (fix : Bool) (v : Volume) (expected : ByteMem) :
    BitmapRepaired fix v (repairBitmap fix v expected).1 expected := by
  obtain ⟨hbits, hkeep, -⟩ := reconcileBitmap_spec expected v.bitmap v.sb.totalBlocks fix
  rw [repairBitmap]
  generalize reconcileBitmap expected v.bitmap v.sb.totalBlocks fix = r at hbits hkeep
  cases hfix : fix && decide (0 < r.2) with
  | true =>
    rw [Bool.and_eq_true] at hfix
    have hw := writes_flushBitmap { v with bitmap := r.1 }
    rw [if_pos rfl]
    generalize flushBitmap { v with bitmap := r.1 } = w at hw
    have hbm : w.bitmap = r.1 := hw.bitmap
    refine ⟨?_, fun i => ?_, fun hno => ?_⟩
    · rw [hbm]
      exact hw
    · rw [hbm]
      exact hbits i
    · rw [hno] at hfix
      exact absurd hfix.1 Bool.false_ne_true
  | false =>
    rw [if_neg Bool.false_ne_true]
    exact ⟨Writes.refl _, hbits, fun hno => by rw [hkeep hno]⟩

theorem repairBitmap_clean
    (h : ∀ i < v.sb.totalBlocks, Bitmap.test expected i = Bitmap.test v.bitmap i) :
    (repairBitmap fix v expected).2 = 0 := by
  have hclean := (reconcileBitmap_spec expected v.bitmap v.sb.totalBlocks fix).2.2 h
  rw [repairBitmap]
  generalize reconcileBitmap expected v.bitmap v.sb.totalBlocks fix = r at hclean
  exact hclean

/-! ### The free counts -/

variable (sb : Superblock)

theorem freeBlocks_setFreeBlocks {n : ℕ} (h : n < 2 ^ 64) :
    (sb.setFreeBlocks n).freeBlocks = n := by
  rw [Superblock.freeBlocks, Superblock.setFreeBlocks, readLE_writeLE_same]
  exact mod_eq_of_lt (by norm_num; omega)

theorem freeInodes_setFreeInodes {n : ℕ} (h : n < 2 ^ 32) :
    (sb.setFreeInodes n).freeInodes = n := by
  rw [Superblock.freeInodes, Superblock.setFreeInodes, readLE_writeLE_same]
  exact mod_eq_of_lt (by norm_num; omega)

theorem freeBlocks_setFreeInodes (n : ℕ) :
    (sb.setFreeInodes n).freeBlocks = sb.freeBlocks := readLE_writeLE_of_disjoint (by omega)

theorem freeInodes_setFreeBlocks (n : ℕ) :
    (sb.setFreeBlocks n).freeInodes = sb.freeInodes := readLE_writeLE_of_disjoint (by omega)

theorem free_withChecksum :
    sb.withChecksum.freeBlocks = sb.freeBlocks ∧ sb.withChecksum.freeInodes = sb.freeInodes :=
  ⟨readLE_writeLE_of_disjoint (by omega), readLE_writeLE_of_disjoint (by omega)⟩

/-- The superblock and its copy in block 0 are in order. -/
structure SuperblockSound (v : Volume) : Prop where
  crc : crc32c (bytes v.sb 0 112) = v.sb.checksum
  disk : sameOnDisk v

/-- The volume after pass 8. -/
structure CountsRepaired (faults : ReadFaults) (fix : Bool) (v w : Volume) (expected : ByteMem) :
    Prop where
  layout : SameLayout v.sb w.sb
  writes : Writes (fun blk => blk = 0) { v with sb := w.sb } w
  sound : SuperblockSound v → SuperblockSound w
  blocks : fix = true → w.sb.freeBlocks = expectedFree v.sb expected
  inodes : fix = true → w.sb.freeInodes = countFreeInodes faults v
  keep : fix = false → w = v

theorem expectedFree_le (expected : ByteMem) :
    expectedFree sb expected ≤ sb.totalBlocks := sub_le _ _

theorem countFreeInodes_le (faults : ReadFaults) (v : Volume) :
    countFreeInodes faults v ≤ v.sb.totalInodes :=
  (countP_le_length).trans_eq length_range

theorem totalInodes_lt : sb.totalInodes < 2 ^ 32 := by
  have := readLE_lt sb 28 4
  norm_num at this ⊢
  exact this

theorem totalBlocks_lt : sb.totalBlocks < 2 ^ 64 := by
  have := readLE_lt sb 12 8
  norm_num at this ⊢
  exact this

theorem sound_flushSuperblock (v : Volume) : SuperblockSound (flushSuperblock v) := by
  have hread : ∀ a n, a + n ≤ 512 →
      readLE (flushSuperblock v).disk a n = readLE v.sb.withChecksum a n := by
    intro a n h
    have hdisk : (flushSuperblock v).disk =
        writeBuf v.disk 0 fun x => if x < 512 then v.sb.withChecksum x else 0 := rfl
    have hblock := @readLE_writeBuf v.disk 0
      (fun x => if x < 512 then v.sb.withChecksum x else 0) a n (by omega)
    rw [Nat.mul_zero, Nat.zero_add] at hblock
    rw [hdisk, hblock]
    apply readLE_congr
    intro x _ hx
    exact if_pos (by omega)
  exact ⟨v.sb.checksum_withChecksum.symm, hread 0 4 (by omega), hread 128 4 (by omega)⟩

theorem repairCounts_spec (faults : ReadFaults) (fix : Bool) (v : Volume) (expected : ByteMem) :
    CountsRepaired faults fix v (repairCounts faults fix v expected).1 expected := by
  have hblocks := lt_of_le_of_lt (expectedFree_le v.sb expected) (totalBlocks_lt v.sb)
  have hinodes := lt_of_le_of_lt (countFreeInodes_le faults v) (totalInodes_lt v.sb)
  unfold repairCounts
  simp only
  cases fix with
  | false =>
    simp only [Bool.and_false, Bool.false_and, Bool.false_eq_true, if_false]
    exact ⟨SameLayout.refl _, Writes.refl _, fun h => h, fun hno => by simp at hno,
      fun hno => by simp at hno, fun _ => rfl⟩
  | true =>
    -- the superblock with both counts
    have hsb : ∃ sb, SameLayout v.sb sb ∧ sb.freeBlocks = expectedFree v.sb expected ∧
        sb.freeInodes = countFreeInodes faults v ∧
        sb = (if decide (v.sb.freeInodes ≠ countFreeInodes faults v) && true then
          (if decide (v.sb.freeBlocks ≠ expectedFree v.sb expected) && true then
            v.sb.setFreeBlocks (expectedFree v.sb expected) else v.sb).setFreeInodes
              (countFreeInodes faults v)
          else if decide (v.sb.freeBlocks ≠ expectedFree v.sb expected) && true then
            v.sb.setFreeBlocks (expectedFree v.sb expected) else v.sb) := by
      have hlb : SameLayout v.sb (v.sb.setFreeBlocks (expectedFree v.sb expected)) :=
        sameLayout_writeLE _ _ (by omega)
      have hli : ∀ sb : Superblock, SameLayout sb (sb.setFreeInodes (countFreeInodes faults v)) :=
        fun sb => sameLayout_writeLE _ _ (by omega)
      refine ⟨_, ?_, ?_, ?_, rfl⟩
      · split
        · refine SameLayout.trans ?_ (hli _)
          split
          · exact hlb
          · exact SameLayout.refl _
        · split
          · exact hlb
          · exact SameLayout.refl _
      · have hfirst : (if decide (v.sb.freeBlocks ≠ expectedFree v.sb expected) && true then
            v.sb.setFreeBlocks (expectedFree v.sb expected) else v.sb).freeBlocks =
              expectedFree v.sb expected := by
          split
          · exact freeBlocks_setFreeBlocks _ hblocks
          · rename_i hok
            simpa using hok
        split
        · rw [freeBlocks_setFreeInodes, hfirst]
        · exact hfirst
      · split
        · exact freeInodes_setFreeInodes _ hinodes
        · rename_i hok
          have heq : v.sb.freeInodes = countFreeInodes faults v := by simpa using hok
          split
          · rw [freeInodes_setFreeBlocks, heq]
          · exact heq
    obtain ⟨sb, hlayout, hfb, hfi, hdef⟩ := hsb
    rw [← hdef]
    have hlw : SameLayout sb sb.withChecksum := sameLayout_writeLE _ _ (by omega)
    split
    · refine ⟨hlayout.trans hlw, writes_flushSuperblock { v with sb := sb },
        fun _ => sound_flushSuperblock _, fun _ => ?_, fun _ => ?_, fun hno => by simp at hno⟩
      · exact (free_withChecksum sb).1.trans hfb
      · exact (free_withChecksum sb).2.trans hfi
    · rename_i hok
      have hsame : sb = v.sb := by
        simp only [Bool.true_and, Bool.or_eq_true, decide_eq_true_eq, not_or, not_not] at hok
        rw [hdef, if_neg (by simp [hok.2]), if_neg (by simp [hok.1])]
      subst hsame
      exact ⟨SameLayout.refl _, Writes.refl _, fun h => h, fun _ => hfb, fun _ => hfi,
        fun _ => rfl⟩

theorem repairCounts_clean (hblocks : v.sb.freeBlocks = expectedFree v.sb expected)
    (hinodes : v.sb.freeInodes = countFreeInodes faults v) :
    (repairCounts faults fix v expected).2 = 0 := by
  simp [repairCounts, ← hblocks, ← hinodes]

theorem foldl_rebuild (refc : ℕ → ℕ) (l : List ℕ) (m : ByteMem) (b : ℕ) :
    l.foldl (fun m b => if 0 < refc b then update m b (UInt8.ofNat (refc b)) else m) m b =
      if b ∈ l ∧ 0 < refc b then UInt8.ofNat (refc b) else m b := by
  induction l generalizing m with
  | nil => simp
  | cons x l ih =>
    rw [foldl_cons, ih]
    by_cases hb : b = x
    · subst hb
      by_cases hpos : 0 < refc b
      · simp [hpos]
      · simp [hpos]
    · have hx :
          (if 0 < refc x then update m x (UInt8.ofNat (refc x)) else m) b = m b := by
        split
        · exact update_of_ne hb _ _
        · rfl
      rw [hx]
      simp only [mem_cons, hb, false_or]

/-- The volume after pass 9. -/
structure RefcountsRepaired (repair : Bool) (v w : Volume) (refc : ℕ → ℕ) : Prop where
  writes : Writes (fun blk => (∃ t, v.refcounts = some t ∧ refcountMismatches v.sb refc t ≠ 0) ∧
    InRegion v.sb.refcountStart ixfsRefcountBlocks blk) { v with refcounts := w.refcounts } w
  counts : repair = true → ∀ t, w.refcounts = some t → ∀ b ∈ countedBlocks v.sb t, refc b ≠ 0 →
    (t.table b).toNat = refc b

theorem refcountMismatches_eq_zero {sb : Superblock} {refc : ℕ → ℕ} {t : Refcounts} :
    refcountMismatches sb refc t = 0 ↔
      ∀ b ∈ countedBlocks sb t, refc b ≠ 0 → (t.table b).toNat = refc b := by
  simp only [refcountMismatches, countP_eq_zero, Bool.and_eq_true, decide_eq_true_eq, not_and,
    not_not]

theorem repairRefcounts_spec (repair : Bool) (v : Volume) {refc : ℕ → ℕ} (hle : ∀ b, refc b ≤ 255) :
    RefcountsRepaired repair v (repairRefcounts repair v refc).1 refc := by
  unfold repairRefcounts
  cases hrc : v.refcounts with
  | none => exact ⟨Writes.refl _, fun _ t ht => by simp [hrc] at ht⟩
  | some t =>
    simp only
    cases hdo : repair && decide (0 < refcountMismatches v.sb refc t) with
    | true =>
      rw [if_pos rfl]
      have hw := writes_refcountFlush
        { v with refcounts := some (rebuildRefcounts v.sb refc t) }
          (rebuildRefcounts v.sb refc t)
      generalize refcountFlush { v with refcounts := some (rebuildRefcounts v.sb refc t) }
        (rebuildRefcounts v.sb refc t) = w at hw
      have href : w.refcounts = some (rebuildRefcounts v.sb refc t) := hw.refcounts
      refine ⟨?_, fun _ t' ht' b hb hne => ?_⟩
      · rw [href]
        rw [Bool.and_eq_true, decide_eq_true_eq] at hdo
        exact hw.mono fun blk hblk => ⟨⟨t, hrc, by omega⟩, hblk⟩
      · rw [href, some.injEq] at ht'
        subst ht'
        have hb' : b ∈ countedBlocks v.sb t := hb
        have hbound := hle b
        have htable : (rebuildRefcounts v.sb refc t).table b = UInt8.ofNat (refc b) :=
          (foldl_rebuild refc _ _ b).trans (if_pos ⟨hb', by omega⟩)
        rw [htable, UInt8.toNat_ofNat']
        omega
    | false =>
      rw [if_neg Bool.false_ne_true]
      refine ⟨Writes.refl _, fun hrep t' ht' => ?_⟩
      simp only [hrc, some.injEq] at ht'
      subst ht'
      rw [hrep, Bool.true_and, decide_eq_false_iff_not] at hdo
      exact refcountMismatches_eq_zero.mp (by omega)

theorem repairRefcounts_clean {repair : Bool} {refc : ℕ → ℕ}
    (h : ∀ t, v.refcounts = some t → ∀ b ∈ countedBlocks v.sb t, refc b ≠ 0 →
      (t.table b).toNat = refc b) : repairRefcounts repair v refc = (v, 0) := by
  unfold repairRefcounts
  cases hrc : v.refcounts with
  | none => rfl
  | some t =>
    have hzero := refcountMismatches_eq_zero.mpr (h t hrc)
    simp [hzero]

/-! ### The journal -/

theorem blockAgree_iff : BlockAgree blk v.disk w.disk ↔ w.block blk = v.block blk := by
  constructor
  · intro h
    funext k
    exact h.readBuf_eq k.isLt
  · intro h x hx hx'
    have hk := congrFun h ⟨x - 4096 * blk, by omega⟩
    simp only [Volume.block] at hk
    rwa [show 4096 * blk + (x - 4096 * blk) = x by omega] at hk

theorem block_setBlocks (v : Volume) (dev : UInt32 → Block) (blk : ℕ) :
    (v.setBlocks dev).block blk =
      if blk < 2 ^ 32 then dev (UInt32.ofNat blk) else v.block blk := by
  funext k
  have hk := k.isLt
  have hdiv : (4096 * blk + k) / 4096 = blk := by omega
  have hmod : (4096 * blk + k) % 4096 = k := by omega
  simp only [Volume.block, Volume.setBlocks, hdiv, hmod]
  split <;> rfl

theorem journalStart_lt (sb : Superblock) : sb.journalStart < 2 ^ 32 := by
  have := readLE_lt sb 92 4
  norm_num at this ⊢
  exact this

theorem journalBlocks_lt (sb : Superblock) : sb.journalBlocks < 2 ^ 32 := by
  have := readLE_lt sb 96 4
  norm_num at this ⊢
  exact this

theorem toNat_journalStart (v : Volume) : v.journaled.journalStart.toNat = v.sb.journalStart :=
  UInt32.toNat_ofNat_of_lt' (journalStart_lt v.sb)

theorem toNat_journalBlocks (v : Volume) : v.journaled.journalBlocks.toNat = v.sb.journalBlocks :=
  UInt32.toNat_ofNat_of_lt' (journalBlocks_lt v.sb)

theorem header_eq (v : Volume) : v.journaled.header = v.block v.sb.journalStart := by
  rw [← toNat_journalStart]
  rfl

theorem block_journalDiscard (v : Volume) (blk : ℕ) : (journalDiscard v).block blk =
      if blk = v.sb.journalStart then emptied v.journaled.header else v.block blk := by
  have hstart := journalStart_lt v.sb
  rw [journalDiscard, block_setBlocks]
  by_cases hblk : blk < 2 ^ 32
  · have hiff : UInt32.ofNat blk = v.journaled.journalStart ↔ blk = v.sb.journalStart := by
      rw [← UInt32.toNat_inj, toNat_journalStart, UInt32.toNat_ofNat_of_lt' hblk]
    rw [if_pos hblk]
    simp only [resetJournal, ixfsDiskWrite, update_apply, hiff]
    split
    · rfl
    · simp only [Volume.journaled, ixfsCacheInit, UInt32.toNat_ofNat_of_lt' hblk]
  · rw [if_neg hblk, if_neg (by omega)]

theorem writes_journalDiscard (hpos : 0 < v.sb.journalBlocks) :
    Writes (fun blk => blk = v.sb.journalStart ∧ 0 < v.sb.journalBlocks) v (journalDiscard v) := by
  refine ⟨rfl, rfl, rfl, rfl, rfl, rfl, rfl, fun blk hblk => ?_⟩
  rw [blockAgree_iff, block_journalDiscard, if_neg fun heq => hblk ⟨heq, hpos⟩]

theorem field_emptied (b : Block) : field (emptied b) 0 = field b 0 ∧
    field (emptied b) 4 = field b 4 ∧ field (emptied b) 8 = field b 4 := ⟨rfl, rfl, rfl⟩

/-- An entry from `slot` to the head would be replayed. -/
def replays (j : Journaled) : ℕ → UInt32 → Bool
  | 0, _ => false
  | fuel + 1, slot =>
    if slot = j.head then false
    else
      decide (field (j.entry slot) 4 = jeData ∧ field (j.entry slot) 8 ≠ 0) ||
        replays j fuel (slotAfter j.journalBlocks slot)

theorem recoverLoop_idle {j : Journaled} {outcome : ℕ → ReplayOutcome} {fuel turn : ℕ}
    {slot : UInt32} {r : (UInt32 → Block) × List UInt32} (h : replays j fuel slot = false)
    (hr : recoverLoop j.journalStart j.journalBlocks j.head outcome fuel turn slot j.vol.dev =
      some r) : r.1 = j.vol.dev := by
  induction fuel generalizing turn slot r with
  | zero => cases hr
  | succ fuel ih =>
    unfold recoverLoop at hr
    unfold replays at h
    by_cases hslot : slot = j.head
    · rw [if_pos hslot] at hr
      cases hr
      rfl
    rw [if_neg hslot, Bool.or_eq_false_iff, decide_eq_false_iff_not] at h
    rw [if_neg hslot] at hr
    split at hr
    · cases hr
      rfl
    · have hkeep : replayEntry j.vol.dev (j.vol.dev (j.journalStart + slot)) (outcome turn) =
          j.vol.dev := if_neg fun hdo => h.1 ⟨hdo.1, hdo.2.1⟩
      rw [hkeep] at hr
      obtain ⟨r', hr', rfl⟩ := map_eq_some_iff.mp hr
      have hrest := ih h.2 hr'
      exact hrest

/-- The journal has in-range positions, and if its entries are valid none of them is replayed. -/
structure JournalIdle (faults : ReadFaults) (v : Volume) : Prop where
  inRange : journalFound faults v → v.journaled.InRange
  idle : journalFound faults v →
    journalErrors faults v.sb.totalBlocks v.journaled v.sb.journalBlocks v.journaled.tail = 0 →
      replays v.journaled v.sb.journalBlocks v.journaled.tail = false

/-- A recovery without anything to replay fails at the header or resets it. -/
theorem journalRecover_idle (hfound : journalFound faults v) (hrange : v.journaled.InRange)
    (hidle : replays v.journaled v.sb.journalBlocks v.journaled.tail = false) :
    journalRecover faults v = none ∧ faults .replay v.sb.journalStart = true ∨
      journalRecover faults v = some (journalDiscard v) := by
  obtain ⟨hhead, htail, hhead0, htail0⟩ := hrange
  rw [UInt32.lt_iff_toNat_lt, toNat_journalBlocks] at hhead htail
  have hpos : 0 < v.journaled.head.toNat :=
    Nat.pos_of_ne_zero fun h => hhead0 (UInt32.toNat_inj.mp h)
  have hpos' : 0 < v.journaled.tail.toNat :=
    Nat.pos_of_ne_zero fun h => htail0 (UInt32.toNat_inj.mp h)
  have hgoes : v.journaled.head = 1 ∨ 1 < v.journaled.head ∧
      v.journaled.head < v.journaled.journalBlocks := by
    rcases Nat.eq_or_lt_of_le hpos with hone | hlt
    · exact .inl (UInt32.toNat_inj.mp hone.symm)
    · refine .inr ⟨UInt32.lt_iff_toNat_lt.mpr hlt, UInt32.lt_iff_toNat_lt.mpr ?_⟩
      rw [toNat_journalBlocks]
      exact hhead
  obtain ⟨r, hr, -⟩ := @recoverLoop_ends v.journaled.journalStart v.journaled.journalBlocks
    v.journaled.head v.journaled.tail (replayOutcome faults v.journaled).replay 0
    v.journaled.vol.dev hgoes v.sb.journalBlocks
    (by
      rw [turnsTo, toNat_journalBlocks]
      split <;> omega)
    (.inr (UInt32.lt_iff_toNat_lt.mpr (by rwa [toNat_journalBlocks])))
  have hdev := recoverLoop_idle hidle hr
  unfold journalRecover ixfsJournalRecover
  cases hf : faults .replay v.sb.journalStart with
  | true =>
    refine .inl ⟨?_, rfl⟩
    rw [if_pos (by simp [replayOutcome, toNat_journalStart, hf])]
    rfl
  | false =>
    refine .inr ?_
    rw [if_neg (by simp [replayOutcome, toNat_journalStart, hf]),
      if_neg (not_not.mpr hfound.2.2.2), hr]
    simp only [Option.map_some, Option.bind_some, if_true, hdev]
    rfl

theorem journalErrors_self {n : ℕ} (j : Journaled) (fuel : ℕ) :
    journalErrors faults n j fuel j.head = 0 := by
  cases fuel with
  | zero => rfl
  | succ n => simp [journalErrors]

theorem checkJournal_emptied (hfound : journalFound faults v) (hrange : v.journaled.InRange) :
    (checkJournal faults false (journalDiscard v)).errors = 0 := by
  have hheader : (journalDiscard v).journaled.header = emptied v.journaled.header := by
    rw [header_eq]
    exact (block_journalDiscard v _).trans (if_pos rfl)
  obtain ⟨hmagic, hhead, htail⟩ := field_emptied v.journaled.header
  rw [← hheader] at hmagic hhead htail
  have hfound' : journalFound faults (journalDiscard v) :=
    ⟨hfound.1, hfound.2.1, hfound.2.2.1, hmagic.trans hfound.2.2.2⟩
  have hself : (journalDiscard v).journaled.tail = (journalDiscard v).journaled.head :=
    htail.trans hhead.symm
  have hsame : (journalDiscard v).journaled.head = v.journaled.head := hhead
  have hrange' : (journalDiscard v).journaled.InRange := by
    unfold Journaled.InRange
    rw [hself, hsame]
    exact ⟨hrange.1, hrange.1, hrange.2.2.1, hrange.2.2.1⟩
  unfold checkJournal
  rw [if_neg (not_not.mpr hfound'), if_neg (not_not.mpr hrange'), hself, journalErrors_self]
  rfl

theorem checkJournal_check (v : Volume) : (checkJournal faults false v).vol = v ∧
    (checkJournal faults false v).repairFailed = false := by
  unfold checkJournal
  split
  · exact ⟨rfl, rfl⟩
  · split
    · exact ⟨rfl, rfl⟩
    · exact ⟨rfl, rfl⟩

theorem checkJournal_spec (h : JournalIdle faults v) :
    Writes (fun blk => blk = v.sb.journalStart ∧ 0 < v.sb.journalBlocks) v
        (checkJournal faults fix v).vol ∧
      (fix = true → (checkJournal faults fix v).repairFailed = false →
        (checkJournal faults false (checkJournal faults fix v).vol).errors = 0) := by
  by_cases hfound : journalFound faults v
  · have hrange := h.inRange hfound
    have hidle := h.idle hfound
    have hempty := checkJournal_emptied hfound hrange
    unfold checkJournal at hempty ⊢
    rw [if_neg (not_not.mpr hfound), if_neg (not_not.mpr hrange)]
    generalize journalErrors faults v.sb.totalBlocks v.journaled v.sb.journalBlocks
      v.journaled.tail = errors at hidle
    cases fix with
    | false => exact ⟨Writes.refl _, fun hno => by simp at hno⟩
    | true =>
      simp only [Bool.not_true, Bool.false_eq_true, if_false]
      by_cases herr : errors = 0
      · rw [if_pos herr]
        rcases journalRecover_idle hfound hrange (hidle herr) with ⟨hnone, -⟩ | hsome
        · rw [hnone]
          exact ⟨Writes.refl _, fun _ hno => by simp at hno⟩
        · rw [hsome]
          exact ⟨writes_journalDiscard hfound.1, fun _ _ => hempty⟩
      · rw [if_neg herr]
        exact ⟨writes_journalDiscard hfound.1, fun _ _ => hempty⟩
  · have hself : ∀ fix, checkJournal faults fix v = ⟨v, 0, false⟩ := by
      intro fix
      unfold checkJournal
      rw [if_pos hfound]
    rw [hself]
    exact ⟨Writes.refl _, fun _ _ => by rw [hself]⟩

end ImpossibleOs.Ixfs
