import ImpossibleOs.Fat32.Scache
import Mathlib.Tactic.Ring

/-!
The sector cache over whole runs.

Flushes and direct writes may fail: the entries stay dirty, or nothing is
accepted. A failed write of an evicted or invalidated entry is not noticed, and
the entry is gone.
-/

namespace ImpossibleOs.Fat32

open WriteBack Function List UInt32

variable {s : Scache} {view : ℕ → Sector} {i j : Fin scacheSlots} {sector count : UInt32}

def ScacheEntry.line (e : ScacheEntry) : Line ℕ Sector :=
  ⟨if e.valid then some e.sector.toNat else none, e.dirty, e.data⟩

def Scache.lines (s : Scache) (i : Fin scacheSlots) : Line ℕ Sector := (s.cache i).line

def Scache.Shows (s : Scache) (view : ℕ → Sector) : Prop := Coherent s.lines s.dev view

theorem lines_update (s : Scache) (i : Fin scacheSlots) (e : ScacheEntry) :
    (fun j => (update s.cache i e j).line) = update s.lines i e.line := by
  funext j
  exact apply_update (fun _ e => ScacheEntry.line e) s.cache i e j

theorem lines_of_update (s : Scache) (i : Fin scacheSlots) (e : ScacheEntry) {t : Scache}
    (h : t.cache = update s.cache i e) : t.lines = update s.lines i e.line := by
  rw [← lines_update, ← h]
  rfl

theorem tag_eq_some {k : ℕ} :
    (s.lines i).tag = some k ↔ (s.cache i).valid = true ∧ (s.cache i).sector.toNat = k := by
  show (if _ then _ else _) = _ ↔ _
  split <;> simp_all

theorem tag_eq_none : (s.lines i).tag = none ↔ (s.cache i).valid = false := by
  show (if _ then _ else _) = _ ↔ _
  split <;> simp_all

@[simp] theorem cache_setEntry_self (s : Scache) (i : Fin scacheSlots) (e : ScacheEntry) :
    (s.setEntry i e).cache i = e := by
  simp only [Scache.setEntry, update_self]

theorem cache_setEntry_of_ne (s : Scache) (e : ScacheEntry) (h : j ≠ i) :
    (s.setEntry i e).cache j = s.cache j := by
  simp only [Scache.setEntry, update_of_ne h]

@[simp] theorem cache_writeOut_self (s : Scache) (i : Fin scacheSlots) (fault : Option Sector) :
    (writeOut s i fault).cache i = { s.cache i with dirty := false } :=
  cache_setEntry_self s i _

theorem cache_writeOut_of_ne (s : Scache) (fault : Option Sector) (h : j ≠ i) :
    (writeOut s i fault).cache j = s.cache j :=
  cache_setEntry_of_ne s _ h

/-! ### Slots -/

theorem scacheFind_some (h : scacheFind s sector = some i) :
    (s.lines i).tag = some sector.toNat := by
  have hi := find?_some h
  simp only [Bool.and_eq_true, beq_iff_eq] at hi
  rw [tag_eq_some, hi.2]
  exact ⟨hi.1, rfl⟩

theorem scacheFind_none (h : scacheFind s sector = none) (j : Fin scacheSlots) :
    (s.lines j).tag ≠ some sector.toNat := by
  intro hj
  obtain ⟨hvalid, hsector⟩ := tag_eq_some.mp hj
  have hn := List.find?_eq_none.mp h j (mem_finRange j)
  simp [hvalid, UInt32.toNat_inj.mp hsector] at hn

theorem scacheFree_some (h : scacheFree s = some i) : (s.lines i).tag = none := by
  have hi := find?_some h
  rw [tag_eq_none]
  simpa using hi

theorem scacheFree_none (h : scacheFree s = none) (j : Fin scacheSlots) :
    (s.lines j).tag = some (s.cache j).sector.toNat := by
  have hj := List.find?_eq_none.mp h j (mem_finRange j)
  exact tag_eq_some.mpr ⟨by simpa using hj, rfl⟩

theorem Scache.Shows.touch (h : s.Shows view) (i : Fin scacheSlots) :
    (scacheTouch s i).Shows view := by
  have hlines : (scacheTouch s i).lines = s.lines := by
    rw [lines_of_update s i { s.cache i with lastAccess := s.cacheAccess + 1 } rfl]
    exact update_eq_self i s.lines
  show Coherent _ _ _
  rw [hlines]
  exact h

theorem Scache.Shows.writeOut (h : s.Shows view) (hvalid : (s.cache i).valid = true) :
    (writeOut s i none).Shows view := by
  have hi : (s.lines i).tag = some (s.cache i).sector.toNat := tag_eq_some.mpr ⟨hvalid, rfl⟩
  show Coherent _ _ _
  rw [lines_of_update s i { s.cache i with dirty := false } rfl]
  exact Coherent.writeBack h hi hi rfl

theorem Scache.Shows.failed (h : s.Shows view) (hvalid : (s.cache i).valid = true)
    (hdirty : (s.cache i).dirty = true) (left : Sector) : Scache.Shows { s with
      dev := blkdevWriteOne s.dev (s.cache i).sector.toNat (s.cache i).data (some left) } view :=
  Coherent.spoil h (tag_eq_some.mpr ⟨hvalid, rfl⟩) hdirty left

theorem Scache.Shows.drop (h : s.Shows view) {e : ScacheEntry} (he : e.valid = false)
    (hclean : (s.cache i).valid = false ∨ (s.cache i).dirty = false) :
    (s.setEntry i e).Shows view := by
  show Coherent _ _ _
  rw [lines_of_update s i e rfl]
  refine Coherent.drop h ?_ (hclean.imp tag_eq_none.mpr id)
  simp [ScacheEntry.line, he]

def evictWrites (s : Scache) : Bool := (scacheFree s).isNone && (s.cache (lruIdx s)).dirty

/-- What an eviction whose write does not fail leaves: an empty slot, and no new sector. -/
structure Evicted (s : Scache) (view : ℕ → Sector) (res : Scache × Fin scacheSlots) : Prop where
  shows : res.1.Shows view
  empty : (res.1.cache res.2).valid = false
  fewer : ∀ k, (∀ j, (s.lines j).tag ≠ some k) → ∀ j, (res.1.lines j).tag ≠ some k

theorem scacheEvict_spec (h : s.Shows view) {fault : Option Sector}
    (hfault : evictWrites s = true → fault = none) : Evicted s view (scacheEvict s fault) := by
  unfold scacheEvict
  unfold evictWrites at hfault
  cases hfree : scacheFree s with
  | some i => exact ⟨h, tag_eq_none.mp (scacheFree_some hfree), fun _ hk => hk⟩
  | none =>
    rw [hfree] at hfault
    simp only
    generalize lruIdx s = v at hfault ⊢
    have hvalid : (s.cache v).valid = true := (tag_eq_some.mp (scacheFree_none hfree v)).1
    -- the entry is clean before it is dropped
    generalize hs' : (if (s.cache v).dirty = true then writeOut s v fault else s) = s'
    have hclean : s'.Shows view ∧ (s'.cache v).dirty = false ∧
        ∀ j, (s'.lines j).tag = (s.lines j).tag := by
      subst hs'
      split
      · rename_i hdirty
        rw [hfault (by simp [hdirty])]
        refine ⟨h.writeOut hvalid, by rw [cache_writeOut_self], fun j => ?_⟩
        rw [lines_of_update s v { s.cache v with dirty := false } rfl]
        by_cases hj : j = v
        · rw [hj, update_self]
          rfl
        · rw [update_of_ne hj]
      · rename_i hdirty
        exact ⟨h, by simpa using hdirty, fun _ => rfl⟩
    obtain ⟨hshows, hclean, htags⟩ := hclean
    refine ⟨hshows.drop rfl (.inr hclean), by rw [cache_setEntry_self], fun k hk j => ?_⟩
    rw [lines_of_update s' v { s'.cache v with valid := false } rfl]
    by_cases hj : j = v
    · rw [hj, update_self]
      simp [ScacheEntry.line]
    · rw [update_of_ne hj, htags]
      exact hk j

theorem fat32ReadSector_spec (h : s.Shows view) {evictFault readFault : Option Sector}
    (hfault : scacheFind s sector = none → evictWrites s = true → evictFault = none) :
    (fat32ReadSector s sector evictFault readFault).1.Shows view ∧
      ∀ data, (fat32ReadSector s sector evictFault readFault).2 = some data →
        data = view sector.toNat := by
  unfold fat32ReadSector
  cases hfind : scacheFind s sector with
  | some i =>
    refine ⟨h.touch i, ?_⟩
    rintro _ ⟨⟩
    exact Coherent.held h i _ (scacheFind_some hfind)
  | none =>
    simp only
    have hevict := scacheEvict_spec h (hfault hfind)
    generalize scacheEvict s evictFault = res at hevict
    obtain ⟨s', i⟩ := res
    have hnone := hevict.fewer sector.toNat (scacheFind_none hfind)
    cases readFault with
    | some left => exact ⟨hevict.shows.drop hevict.empty (.inl hevict.empty), nofun⟩
    | none =>
      refine ⟨?_, ?_⟩
      · show Coherent _ _ _
        rw [lines_of_update s' i ⟨sector, true, false, s'.cacheAccess + 1,
          s'.dev sector.toNat⟩ rfl]
        exact Coherent.load hevict.shows (.inl (tag_eq_none.mpr hevict.empty)) hnone
      · rintro _ ⟨⟩
        exact Coherent.uncached hevict.shows _ hnone

theorem fat32WriteSector_spec (h : s.Shows view) {data : Sector} {evictFault : Option Sector}
    (hfault : scacheFind s sector = none → evictWrites s = true → evictFault = none) :
    (fat32WriteSector s sector data evictFault).Shows (update view sector.toNat data) := by
  -- the slot holds the sector, or is empty and no slot holds it
  have hstore : ∀ (t : Scache) (i : Fin scacheSlots), t.Shows view →
      ((t.lines i).tag = some sector.toNat ∨
        ((t.lines i).tag = none ∨ (t.lines i).dirty = false) ∧
          ∀ j, (t.lines j).tag ≠ some sector.toNat) →
      Scache.Shows { t.setEntry i ⟨sector, true, true, t.cacheAccess + 1, data⟩ with
        cacheAccess := t.cacheAccess + 1 } (update view sector.toNat data) := by
    intro t i ht hi
    show Coherent _ _ _
    rw [lines_of_update t i ⟨sector, true, true, t.cacheAccess + 1, data⟩ rfl]
    exact Coherent.store ht hi
  unfold fat32WriteSector
  cases hfind : scacheFind s sector with
  | some i =>
    refine hstore (scacheTouch s i) i (h.touch i) (.inl ?_)
    rw [lines_of_update s i { s.cache i with lastAccess := s.cacheAccess + 1 } rfl,
      update_self]
    exact scacheFind_some hfind
  | none =>
    have hevict := scacheEvict_spec h (hfault hfind)
    exact hstore _ _ hevict.shows
      (.inr ⟨.inl (tag_eq_none.mpr hevict.empty), hevict.fewer _ (scacheFind_none hfind)⟩)

/-! ### Runs of sectors -/

/-- The 32-bit sums and offsets of the range do not wrap around. -/
def InReach (sector count : UInt32) : Prop :=
  sector.toNat + count.toNat < 2 ^ 32 ∧ count.toNat ≤ 2 ^ 23

theorem inRange_iff (hreach : InReach sector count) (e : ScacheEntry) :
    e.inRange sector count = true ↔ e.valid = true ∧ sector.toNat ≤ e.sector.toNat ∧
      e.sector.toNat < sector.toNat + count.toNat := by
  have hsum : (sector + count).toNat = sector.toNat + count.toNat := by
    rw [UInt32.toNat_add]
    exact Nat.mod_eq_of_lt hreach.1
  unfold ScacheEntry.inRange
  rw [Bool.and_eq_true, Bool.and_eq_true, decide_eq_true_eq, decide_eq_true_eq,
    le_iff_toNat_le, lt_iff_toNat_lt, hsum, and_assoc]

theorem bufIndex_eq (hreach : InReach sector count) {e : ScacheEntry}
    (h : e.inRange sector count = true) : bufIndex e sector = e.sector.toNat - sector.toNat := by
  obtain ⟨_, hle, hlt⟩ := (inRange_iff hreach e).mp h
  have hsmall := hreach.2
  unfold bufIndex
  rw [UInt32.toNat_mul, UInt32.toNat_sub_of_le _ _ (UInt32.le_iff_toNat_le.mpr hle)]
  have h512 : (512 : UInt32).toNat = 512 := rfl
  rw [h512, Nat.mod_eq_of_lt (by omega), Nat.mul_div_cancel _ (by decide)]

theorem overlay_spec (h : s.Shows view) (hreach : InReach sector count) (l : List (Fin scacheSlots))
    (buf : ℕ → Sector) (k : ℕ) (hk : buf k = view (sector.toNat + k) ∨
      ∃ i ∈ l, (s.lines i).tag = some (sector.toNat + k) ∧
        (s.cache i).inRange sector count = true) :
    (l.foldl (overlay s sector count) buf) k = view (sector.toNat + k) := by
  induction l generalizing buf with
  | nil =>
    rcases hk with hk | ⟨i, hi, _⟩
    · exact hk
    · cases hi
  | cons j l ih =>
    refine ih (overlay s sector count buf j) ?_
    unfold overlay
    by_cases hj : (s.cache j).inRange sector count = true
    · rw [if_pos hj, bufIndex_eq hreach hj]
      obtain ⟨hvalid, hle, -⟩ := (inRange_iff hreach _).mp hj
      have hdata : (s.cache j).data = view (s.cache j).sector.toNat :=
        Coherent.held h j _ (tag_eq_some.mpr ⟨hvalid, rfl⟩)
      by_cases hplace : k = (s.cache j).sector.toNat - sector.toNat
      · left
        rw [hplace, update_self, hdata]
        congr 1
        omega
      · rw [update_of_ne hplace]
        rcases hk with hk | ⟨i, hi, htag, hin⟩
        · exact .inl hk
        · rcases mem_cons.mp hi with rfl | hi
          · have := (tag_eq_some.mp htag).2
            omega
          · exact .inr ⟨i, hi, htag, hin⟩
    · rw [if_neg hj]
      rcases hk with hk | ⟨i, hi, htag, hin⟩
      · exact .inl hk
      · rcases mem_cons.mp hi with rfl | hi
        · exact absurd hin hj
        · exact .inr ⟨i, hi, htag, hin⟩

theorem fat32ReadSectorsMulti_spec (h : s.Shows view) (hreach : InReach sector count)
    {failed : Bool} {buf : ℕ → Sector}
    (hbuf : fat32ReadSectorsMulti s sector count failed = some buf) :
    ∀ k < count.toNat, buf k = view (sector.toNat + k) := by
  intro k hk
  unfold fat32ReadSectorsMulti at hbuf
  split at hbuf
  · cases hbuf
  · cases hbuf
    refine overlay_spec h hreach _ _ k ?_
    by_cases hcached : ∃ i, (s.lines i).tag = some (sector.toNat + k)
    · obtain ⟨i, hi⟩ := hcached
      obtain ⟨hvalid, hsector⟩ := tag_eq_some.mp hi
      refine .inr ⟨i, mem_finRange i, hi, (inRange_iff hreach _).mpr ⟨hvalid, ?_⟩⟩
      omega
    · exact .inl (Coherent.uncached h _ (not_exists.mp hcached))

/-- What a failed direct write leaves where no newer copy is cached is what was there. -/
def LeavesDevice (s : Scache) (sector count : UInt32) (left : ℕ → Sector) : Prop :=
  ∀ k < count.toNat, left k = s.dev (sector.toNat + k) ∨
    ∃ i, (s.lines i).tag = some (sector.toNat + k) ∧ (s.cache i).dirty = true

theorem fat32WriteSectorsMulti_spec (h : s.Shows view) (hreach : InReach sector count)
    {buf : ℕ → Sector} {fault : Option (ℕ → Sector)}
    (hfault : ∀ left, fault = some left → LeavesDevice s sector count left) :
    (fat32WriteSectorsMulti s sector count buf fault).1.Shows
      (accept view (.writeMulti sector count buf fault)) := by
  unfold fat32WriteSectorsMulti
  cases fault with
  | some left =>
    refine Coherent.under h fun k => ?_
    show (if _ then _ else _) = _ ∨ _
    split
    · rename_i hk
      rcases hfault left rfl (k - sector.toNat) (by omega) with hsame | hdirty
      · rw [show sector.toNat + (k - sector.toNat) = k by omega] at hsame
        exact .inl hsame
      · rw [show sector.toNat + (k - sector.toNat) = k by omega] at hdirty
        exact .inr hdirty
    · exact .inl rfl
  | none =>
    refine Coherent.overwrite h
      (fun k => sector.toNat ≤ k ∧ k < sector.toNat + count.toNat) ?_ ?_ ?_ ?_ ?_
    · intro i
      show (syncEntry sector count buf (s.cache i)).line.tag = (s.cache i).line.tag
      unfold syncEntry
      split <;> rfl
    · intro k hk
      simp [accept, blkdevWrite, hk]
    · intro k hk
      simp only [accept, blkdevWrite, if_neg hk, and_self]
    · intro i k hi hk
      obtain ⟨hvalid, rfl⟩ := tag_eq_some.mp hi
      have hin := (inRange_iff hreach _).mpr ⟨hvalid, hk⟩
      show (syncEntry sector count buf (s.cache i)).data = _
      rw [syncEntry, if_pos hin, bufIndex_eq hreach hin]
      simp [accept, blkdevWrite, hk]
    · intro i k hi hk
      obtain ⟨hvalid, rfl⟩ := tag_eq_some.mp hi
      show (syncEntry sector count buf (s.cache i)).line = (s.cache i).line
      rw [syncEntry, if_neg]
      exact fun hin => hk ((inRange_iff hreach _).mp hin).2

/-- One slot of a flush: clean slots stay clean, and this one is clean unless its write failed. -/
structure SlotFlushed (st st' : Scache × Int) (view : ℕ → Sector) (i : Fin scacheSlots) :
    Prop where
  shows : st'.1.Shows view
  valid : ∀ j, (st'.1.cache j).valid = (st.1.cache j).valid
  dirty : ∀ j, (st'.1.cache j).dirty = true → (st.1.cache j).dirty = true
  result : st'.2 = 0 → st.2 = 0 ∧
    ((st'.1.cache i).valid = true → (st'.1.cache i).dirty = false)

theorem flushSlot_spec {st : Scache × Int} (h : st.1.Shows view)
    (faults : Fin scacheSlots → Option Sector) (i : Fin scacheSlots) :
    SlotFlushed st (flushSlot faults st i) view i := by
  unfold flushSlot
  simp only
  split
  · rename_i hslot
    rw [Bool.and_eq_true] at hslot
    cases hfault : faults i with
    | none =>
      refine ⟨h.writeOut hslot.1, fun j => ?_, fun j => ?_, fun hrc => ⟨hrc, fun _ => ?_⟩⟩
      · by_cases hj : j = i
        · rw [hj, cache_writeOut_self]
        · rw [cache_writeOut_of_ne _ _ hj]
      · by_cases hj : j = i
        · rw [hj, cache_writeOut_self]
          exact nofun
        · rw [cache_writeOut_of_ne _ _ hj]
          exact id
      · rw [cache_writeOut_self]
    | some left => exact ⟨h.failed hslot.1 hslot.2 left, fun _ => rfl, fun _ hj => hj, nofun⟩
  · rename_i hslot
    refine ⟨h, fun _ => rfl, fun _ hj => hj, fun hrc => ⟨hrc, fun hvalid => ?_⟩⟩
    simpa [hvalid] using hslot

theorem foldl_flushSlot (faults : Fin scacheSlots → Option Sector) (l : List (Fin scacheSlots))
    (st : Scache × Int) (h : st.1.Shows view) : (l.foldl (flushSlot faults) st).1.Shows view ∧
      (∀ j, ((l.foldl (flushSlot faults) st).1.cache j).valid = (st.1.cache j).valid) ∧
      (∀ j, ((l.foldl (flushSlot faults) st).1.cache j).dirty = true →
        (st.1.cache j).dirty = true) ∧ ((l.foldl (flushSlot faults) st).2 = 0 → st.2 = 0 ∧ ∀ i ∈ l,
        ((l.foldl (flushSlot faults) st).1.cache i).valid = true →
          ((l.foldl (flushSlot faults) st).1.cache i).dirty = false) := by
  induction l generalizing st with
  | nil => exact ⟨h, fun _ => rfl, fun _ hj => hj, fun hrc => ⟨hrc, by simp⟩⟩
  | cons i l ih =>
    have hslot := flushSlot_spec h faults i
    obtain ⟨hshows, hvalid, hdirty, hresult⟩ := ih (flushSlot faults st i) hslot.shows
    refine ⟨hshows, fun j => (hvalid j).trans (hslot.valid j),
      fun j hj => hslot.dirty j (hdirty j hj), fun hrc => ?_⟩
    obtain ⟨hrc', hl⟩ := hresult hrc
    obtain ⟨hrc₀, hi⟩ := hslot.result hrc'
    refine ⟨hrc₀, fun k hk hkv => ?_⟩
    rcases mem_cons.mp hk with rfl | hk
    · rw [foldl_cons] at hkv ⊢
      rw [hvalid] at hkv
      by_contra hn
      have := hdirty k (by simpa using hn)
      rw [hi hkv] at this
      cases this
    · exact hl k hk hkv

theorem scacheFlush_spec (h : s.Shows view) (faults : Fin scacheSlots → Option Sector) :
    (scacheFlush s faults).1.Shows view ∧
      ((scacheFlush s faults).2 = 0 → (scacheFlush s faults).1.dev = view) := by
  have hslots : ∀ i : Fin scacheSlots, i ∈ finRange scacheSlots := mem_finRange
  unfold scacheFlush
  generalize finRange scacheSlots = l at hslots ⊢
  obtain ⟨hshows, -, -, hresult⟩ := foldl_flushSlot faults l (s, 0) h
  refine ⟨hshows, fun hrc => Coherent.flushed hshows fun i k hi => ?_⟩
  exact (hresult hrc).2 i (hslots i) (tag_eq_some.mp hi).1

theorem foldl_invalidateSlot {faults : Fin scacheSlots → Option Sector}
    (l : List (Fin scacheSlots)) (h : s.Shows view)
    (hfaults : ∀ i, (s.cache i).valid = true → (s.cache i).dirty = true → faults i = none) :
    (l.foldl (invalidateSlot faults) s).Shows view := by
  induction l generalizing s with
  | nil => exact h
  | cons i l ih =>
    refine ih ?_ fun j hv hd => ?_
    · unfold invalidateSlot
      simp only
      split
      · rename_i hslot
        rw [Bool.and_eq_true] at hslot
        rw [hfaults i hslot.1 hslot.2]
        generalize he : ({ s.cache i with valid := false, dirty := false } : ScacheEntry) = e
        have hdrop := (h.writeOut hslot.1).drop (i := i) (e := e) (by rw [← he])
          (.inr (by rw [cache_writeOut_self]))
        have hcache :
            update (writeOut s i none).cache i e = update s.cache i e :=
          update_idem _ _ _
        show Coherent (fun j => (update s.cache i e j).line) _ _
        rw [← hcache]
        exact hdrop
      · rename_i hslot
        refine h.drop rfl ?_
        simpa [or_iff_not_imp_left] using hslot
    · by_cases hj : j = i
      · have hgone : ((invalidateSlot faults s i).cache i).valid = false :=
          congrArg ScacheEntry.valid (cache_setEntry_self s i _)
        rw [hj, hgone] at hv
        cases hv
      · have hsame : (invalidateSlot faults s i).cache j = s.cache j :=
          cache_setEntry_of_ne s _ hj
        rw [hsame] at hv hd
        exact hfaults j hv hd

/-! ### Runs -/

/-- No write of an eviction or an invalidation fails, a range does not wrap around, and a
failed direct write leaves the device as it was. -/
def KeepsWrites (s : Scache) : ScacheCall → Prop
  | .readSector sector evictFault _ =>
    scacheFind s sector = none → evictWrites s = true → evictFault = none
  | .writeSector sector _ evictFault =>
    scacheFind s sector = none → evictWrites s = true → evictFault = none
  | .readMulti sector count _ => InReach sector count
  | .writeMulti sector count _ fault =>
    InReach sector count ∧ ∀ left, fault = some left → LeavesDevice s sector count left
  | .evict fault => evictWrites s = true → fault = none
  | .flush _ => True
  | .invalidate faults =>
    ∀ i, (s.cache i).valid = true → (s.cache i).dirty = true → faults i = none

theorem Scache.Shows.exec (h : s.Shows view) {call : ScacheCall} (hcall : KeepsWrites s call) :
    (scacheExec s call).Shows (accept view call) ∧ Answers s view call := by
  cases call with
  | readSector sector evictFault readFault => exact fat32ReadSector_spec h hcall
  | writeSector sector data evictFault => exact ⟨fat32WriteSector_spec h hcall, trivial⟩
  | readMulti sector count failed =>
    exact ⟨h, fun _ hbuf => fat32ReadSectorsMulti_spec h hcall hbuf⟩
  | writeMulti sector count buf fault =>
    exact ⟨fat32WriteSectorsMulti_spec h hcall.1 hcall.2, trivial⟩
  | evict fault => exact ⟨(scacheEvict_spec h hcall).shows, trivial⟩
  | flush faults => exact scacheFlush_spec h faults
  | invalidate faults =>
    exact ⟨foldl_invalidateSlot (finRange scacheSlots) h hcall, trivial⟩

theorem scacheInit_shows (dev : ℕ → Sector) : (scacheInit dev).Shows dev :=
  coherent_empty fun _ => rfl

/-- Every call of a run whose writes of evicted and invalidated entries do not fail answers
with the contents that the calls before it accepted. -/
theorem scacheRun_answers (dev : ℕ → Sector) (calls : List ScacheCall) (call : ScacheCall)
    (h : Refine.Meets scacheExec KeepsWrites (scacheInit dev) (calls ++ [call])) :
    Answers (calls.foldl scacheExec (scacheInit dev)) (calls.foldl accept dev) call := by
  have hstep : ∀ s view call, s.Shows view → KeepsWrites s call →
      (scacheExec s call).Shows (accept view call) ∧ Answers s view call :=
    fun _ _ _ hs hcall => hs.exec hcall
  exact h.answers Scache.Shows hstep (scacheInit_shows dev)

def zeroSector : Sector := fun _ => 0
def oneSector : Sector := fun _ => 1

/-- A write, a flush that fails and one that does not. -/
theorem scacheRun_answers_retry :
    Answers ([.writeSector 5 oneSector none, .flush fun _ => some zeroSector].foldl scacheExec
        (scacheInit fun _ => zeroSector))
      ([.writeSector 5 oneSector none, .flush fun _ => some zeroSector].foldl accept
        fun _ => zeroSector)
      (.flush fun _ => none) :=
  scacheRun_answers (fun _ => zeroSector)
    [.writeSector 5 oneSector none, .flush fun _ => some zeroSector] (.flush fun _ => none)
    ⟨fun _ _ => rfl, trivial, trivial, trivial⟩

/-- Writes to sectors 0 to 64, one more than there are slots. Device writes fail and leave the
sector as it was. -/
def overfill : List ScacheCall :=
  (List.range 65).map fun k => .writeSector (UInt32.ofNat k) oneSector (some zeroSector)

/-- The write to sector 0 is lost: it reads as before, and a flush that succeeds does not
bring it to the device. -/
theorem scacheRun_lost :
    ¬ Answers (overfill.foldl scacheExec (scacheInit fun _ => zeroSector))
        (overfill.foldl accept fun _ => zeroSector) (.readSector 0 none none) ∧
      ¬ Answers (overfill.foldl scacheExec (scacheInit fun _ => zeroSector))
        (overfill.foldl accept fun _ => zeroSector) (.flush fun _ => none) := by
  have hview : (overfill.foldl accept fun _ => zeroSector) 0 0 = 1 := by decide
  generalize hs : overfill.foldl scacheExec (scacheInit fun _ => zeroSector) = s
  refine ⟨fun h => ?_, fun h => ?_⟩
  · have hread : (fat32ReadSector s 0 none none).2.map (· 0) = some 0 := by
      subst hs
      decide +kernel
    obtain ⟨data, hdata, hbyte⟩ := Option.map_eq_some_iff.mp hread
    rw [h data hdata] at hbyte
    exact absurd (hview.symm.trans hbyte) (by decide)
  · have hflush : (scacheFlush s fun _ => none).2 = 0 ∧
        (scacheFlush s fun _ => none).1.dev 0 0 = 0 := by
      subst hs
      decide +kernel
    have hdev := h hflush.1
    rw [hdev] at hflush
    exact absurd (hview.symm.trans hflush.2) (by decide)

end ImpossibleOs.Fat32
