import ImpossibleOs.Ixfs.Cache
import ImpossibleOs.Lib.Loop

/-!
The block cache over whole runs.

The invariant ties slots, device and contents together as for the sector
cache. A flush keeps it whatever fails. A miss does not: it drops its evictee
without looking at the result of the write, and reads into the evictee's buffer
while the slot still has the evictee's number.
-/

namespace ImpossibleOs.Ixfs

open WriteBack Function

variable {s : IxfsVolume} {view : UInt32 → Block} {i j : Fin ixfsCacheSize} {block : UInt32}

def CacheEntry.line (e : CacheEntry) : Line UInt32 Block :=
  ⟨if e.block = unused then none else some e.block, e.dirty, e.data⟩

def IxfsVolume.lines (s : IxfsVolume) (i : Fin ixfsCacheSize) : Line UInt32 Block :=
  (s.cache i).line

/-- The cache and the device show `view`. -/
def IxfsVolume.Shows (s : IxfsVolume) (view : UInt32 → Block) : Prop :=
  Coherent s.lines s.dev view

theorem lines_of_update (s : IxfsVolume) (i : Fin ixfsCacheSize) (e : CacheEntry) {t : IxfsVolume}
    (h : t.cache = update s.cache i e) : t.lines = update s.lines i e.line := by
  funext j
  have hj : t.lines j = (update s.cache i e j).line := by rw [← h]; rfl
  rw [hj]
  exact apply_update (fun _ e => CacheEntry.line e) s.cache i e j

theorem tag_eq_some :
    (s.lines i).tag = some block ↔ block ≠ unused ∧ (s.cache i).block = block := by
  show (if _ then _ else _) = _ ↔ _
  split
  · rename_i h
    rw [h]
    exact ⟨nofun, fun hb => absurd hb.2.symm hb.1⟩
  · rename_i h
    rw [Option.some.injEq]
    exact ⟨fun hb => ⟨hb ▸ h, hb⟩, And.right⟩

theorem tag_eq_none : (s.lines i).tag = none ↔ (s.cache i).block = unused := by
  show (if _ then _ else _) = _ ↔ _
  split <;> simp_all

theorem pending_iff : (s.cache i).pending = true ↔
    (s.lines i).tag = some (s.cache i).block ∧ (s.cache i).dirty = true := by
  unfold CacheEntry.pending
  rw [Bool.and_eq_true, bne_iff_ne, tag_eq_some]
  simp

theorem free_of_not_pending (h : (s.cache i).pending = false) :
    (s.lines i).tag = none ∨ (s.lines i).dirty = false := by
  unfold CacheEntry.pending at h
  rw [Bool.and_eq_false_iff] at h
  refine h.imp (fun hb => tag_eq_none.mpr ?_) id
  simpa using hb

@[simp] theorem cache_setEntry_self (s : IxfsVolume) (i : Fin ixfsCacheSize) (e : CacheEntry) :
    (s.setEntry i e).cache i = e := by
  simp only [IxfsVolume.setEntry, update_self]

theorem cache_setEntry_of_ne (s : IxfsVolume) (e : CacheEntry) (h : j ≠ i) :
    (s.setEntry i e).cache j = s.cache j := by
  simp only [IxfsVolume.setEntry, update_of_ne h]

theorem ixfsCacheFind_some (hb : block ≠ unused) (h : ixfsCacheFind s block = some i) :
    (s.lines i).tag = some block :=
  tag_eq_some.mpr ⟨hb, by simpa using List.find?_some h⟩

theorem ixfsCacheFind_none (h : ixfsCacheFind s block = none) (j : Fin ixfsCacheSize) :
    (s.lines j).tag ≠ some block := by
  intro hj
  have hn := List.find?_eq_none.mp h j (List.mem_finRange j)
  simp [(tag_eq_some.mp hj).2] at hn

theorem IxfsVolume.Shows.touch (h : s.Shows view) (i : Fin ixfsCacheSize) :
    (ixfsCacheTouch s i).Shows view := by
  have hlines : (ixfsCacheTouch s i).lines = s.lines := by
    rw [lines_of_update s i { s.cache i with lruTick := s.cacheTick + 1 } rfl]
    exact update_eq_self i s.lines
  show Coherent _ _ _
  rw [hlines]
  exact h

theorem IxfsVolume.Shows.writeOut (h : s.Shows view) (hi : (s.cache i).pending = true) :
    IxfsVolume.Shows { s.setEntry i { s.cache i with dirty := false } with
      dev := ixfsDiskWrite s.dev (s.cache i).block (s.cache i).data none } view := by
  have htag := (pending_iff.mp hi).1
  show Coherent _ _ _
  rw [lines_of_update s i { s.cache i with dirty := false } rfl]
  exact Coherent.writeBack h htag htag rfl

/-- The evictee of a miss has been written: its slot may be used, and the other slots are as
they were. -/
structure Evicted (s : IxfsVolume) (view : UInt32 → Block) (i : Fin ixfsCacheSize)
    (t : IxfsVolume) : Prop where
  shows : t.Shows view
  tags : ∀ j, (t.lines j).tag = (s.lines j).tag
  clean : (t.lines i).tag = none ∨ (t.lines i).dirty = false
  data : (t.cache i).data = (s.cache i).data

theorem evict_spec (h : s.Shows view) {fault : Option Block}
    (hfault : (s.cache i).pending = true → fault = none) :
    Evicted s view i (if (s.cache i).pending = true then
      { s.setEntry i { s.cache i with dirty := false } with
        dev := ixfsDiskWrite s.dev (s.cache i).block (s.cache i).data fault } else s) := by
  split
  · rename_i hi
    rw [hfault hi]
    refine ⟨h.writeOut hi, fun j => ?_, .inr ?_, ?_⟩
    · rw [lines_of_update s i { s.cache i with dirty := false } rfl]
      by_cases hj : j = i
      · rw [hj, update_self]
        rfl
      · rw [update_of_ne hj]
    · rw [lines_of_update s i { s.cache i with dirty := false } rfl, update_self]
      rfl
    · show ((s.setEntry i { s.cache i with dirty := false }).cache i).data = _
      rw [cache_setEntry_self]
  · rename_i hi
    exact ⟨h, fun _ => rfl, free_of_not_pending (by simpa using hi), rfl⟩

theorem ixfsReadBlock_spec (h : s.Shows view) (hb : block ≠ unused)
    {evictFault readFault : Option Block} (hevict : ixfsCacheFind s block = none →
      (s.cache (ixfsCacheLru s)).pending = true → evictFault = none)
    (hread : ixfsCacheFind s block = none → ∀ left, readFault = some left →
      (s.cache (ixfsCacheLru s)).block = unused ∨ left = (s.cache (ixfsCacheLru s)).data) :
    (ixfsReadBlock s block evictFault readFault).1.Shows view ∧
      ∀ data, (ixfsReadBlock s block evictFault readFault).2 = some data → data = view block := by
  unfold ixfsReadBlock
  cases hfind : ixfsCacheFind s block with
  | some i =>
    refine ⟨h.touch i, ?_⟩
    rintro _ ⟨⟩
    exact Coherent.held h i _ (ixfsCacheFind_some hb hfind)
  | none =>
    simp only
    replace hevict := hevict hfind
    replace hread := hread hfind
    generalize ixfsCacheLru s = v at hevict hread ⊢
    have hspec := evict_spec (i := v) h hevict
    generalize (if (s.cache v).pending = true then
      { s.setEntry v { s.cache v with dirty := false } with
        dev := ixfsDiskWrite s.dev (s.cache v).block (s.cache v).data evictFault } else s) = t
      at hspec ⊢
    have hnone : ∀ j, (t.lines j).tag ≠ some block := by
      intro j
      rw [hspec.tags]
      exact ixfsCacheFind_none hfind j
    cases readFault with
    | some left =>
      refine ⟨?_, nofun⟩
      show Coherent _ _ _
      rw [lines_of_update t v { t.cache v with data := left } rfl]
      rcases hread left rfl with hempty | hsame
      · refine Coherent.drop hspec.shows ?_ hspec.clean
        have htag : (t.lines v).tag = none := by
          rw [hspec.tags]
          exact tag_eq_none.mpr hempty
        exact htag
      · rw [hsame, ← hspec.data]
        have hsame : update t.lines v (t.cache v).line = t.lines :=
          update_eq_self v t.lines
        show Coherent (update t.lines v (t.cache v).line) _ _
        rw [hsame]
        exact hspec.shows
    | none =>
      refine ⟨?_, ?_⟩
      · show Coherent _ _ _
        rw [lines_of_update t v ⟨block, t.dev block, false, t.cacheTick + 1⟩ rfl]
        have hline : CacheEntry.line ⟨block, t.dev block, false, t.cacheTick + 1⟩ =
            ⟨some block, false, t.dev block⟩ := by
          simp only [CacheEntry.line, if_neg hb]
        rw [hline]
        exact Coherent.load hspec.shows hspec.clean hnone
      · rintro _ ⟨⟩
        exact Coherent.uncached hspec.shows _ hnone

theorem IxfsVolume.Shows.checksum (h : s.Shows view) (crc32c : Block → UInt32) (block : UInt32)
    (data : Block) : (ixfsChecksumUpdate crc32c s block data).Shows view := h

theorem ixfsWriteBlock_spec (crc32c : Block → UInt32) (h : s.Shows view) (hb : block ≠ unused)
    {data : Block} {evictFault : Option Block} (hevict : ixfsCacheFind s block = none →
      (s.cache (ixfsCacheLru s)).pending = true → evictFault = none) :
    (ixfsWriteBlock crc32c s block data evictFault).Shows (update view block data) := by
  have hline : ∀ tick, CacheEntry.line ⟨block, data, true, tick⟩ = ⟨some block, true, data⟩ := by
    intro tick
    simp only [CacheEntry.line, if_neg hb]
  unfold ixfsWriteBlock
  refine IxfsVolume.Shows.checksum ?_ crc32c block data
  cases hfind : ixfsCacheFind s block with
  | some i =>
    show Coherent _ _ _
    rw [lines_of_update (ixfsCacheTouch s i) i
      ⟨block, data, true, (ixfsCacheTouch s i).cacheTick + 1⟩ rfl, hline]
    refine Coherent.store (h.touch i) (.inl ?_)
    rw [lines_of_update s i { s.cache i with lruTick := s.cacheTick + 1 } rfl,
      update_self]
    exact ixfsCacheFind_some hb hfind
  | none =>
    simp only
    replace hevict := hevict hfind
    generalize ixfsCacheLru s = v at hevict ⊢
    have hspec := evict_spec (i := v) h hevict
    have hstore := Coherent.store (d := data) hspec.shows (.inr ⟨hspec.clean, fun j => by
      rw [hspec.tags]
      exact ixfsCacheFind_none hfind j⟩)
    show Coherent _ _ _
    by_cases hp : (s.cache v).pending = true
    · rw [if_pos hp] at hstore ⊢
      -- the dirty mark of the evictee is overwritten together with its number
      rw [lines_of_update s v { s.cache v with dirty := false } rfl,
        update_idem] at hstore
      rw [lines_of_update s v ⟨block, data, true, s.cacheTick + 1⟩ rfl, hline]
      exact hstore
    · rw [if_neg hp] at hstore ⊢
      rw [lines_of_update s v ⟨block, data, true, s.cacheTick + 1⟩ rfl, hline]
      exact hstore

/-! ### Flush -/

/-- What a flush of slots keeps, apart from the contents. -/
structure SlotsFlushed (s t : IxfsVolume) (view : UInt32 → Block) : Prop where
  shows : t.Shows view
  blocks : ∀ j, (t.cache j).block = (s.cache j).block
  checksum : t.checksum = s.checksum

theorem flushSlot_spec {st : IxfsVolume × Int} (h : st.1.Shows view)
    (faults : Fin ixfsCacheSize → Option Block) (i : Fin ixfsCacheSize) :
    SlotsFlushed st.1 (flushSlot faults st i).1 view := by
  unfold flushSlot
  simp only
  split
  · rename_i hi
    cases faults i with
    | none =>
      refine ⟨h.writeOut hi, fun j => ?_, rfl⟩
      show ((st.1.setEntry i { st.1.cache i with dirty := false }).cache j).block = _
      by_cases hj : j = i
      · rw [hj, cache_setEntry_self]
      · rw [cache_setEntry_of_ne _ _ hj]
    | some left =>
      obtain ⟨htag, hdirty⟩ := pending_iff.mp hi
      exact ⟨Coherent.spoil h htag hdirty left, fun _ => rfl, rfl⟩
  · exact ⟨h, fun _ => rfl, rfl⟩

theorem foldl_flushSlot (faults : Fin ixfsCacheSize → Option Block) (l : List (Fin ixfsCacheSize))
    (st : IxfsVolume × Int) (h : st.1.Shows view) :
    SlotsFlushed st.1 (l.foldl (flushSlot faults) st).1 view := by
  induction l generalizing st with
  | nil => exact ⟨h, fun _ => rfl, rfl⟩
  | cons i l ih =>
    have hslot := flushSlot_spec h faults i
    have hrest := ih (flushSlot faults st i) hslot.shows
    exact ⟨hrest.shows, fun j => (hrest.blocks j).trans (hslot.blocks j),
      hrest.checksum.trans hslot.checksum⟩

theorem ixfsChecksumFlush_frame (t : ChecksumTable) (outcome : ℕ → TableWrite)
    (dev : UInt32 → Block) (b : UInt32)
    (hb : t.start ≠ 0 → ∀ bi < t.blocks.toNat, b ≠ t.start + UInt32.ofNat bi) :
    ixfsChecksumFlush t outcome dev b = dev b := by
  unfold ixfsChecksumFlush
  split
  · rfl
  rename_i hstart
  have hloop := Loop.foldlM_range_except (f := flushTableBlock t outcome) (n := t.blocks.toNat)
    (s := dev) (fun _ d => d b = dev b) (fun d => d b = dev b) rfl ?_
  · cases hres : (List.range t.blocks.toNat).foldlM (flushTableBlock t outcome) dev with
    | ok d => exact hloop.1 d hres
    | error d => exact hloop.2 d hres
  · intro bi hbi d hd
    have hne := hb hstart bi hbi
    unfold flushTableBlock
    simp only
    cases outcome bi with
    | done =>
      refine ⟨?_, nofun⟩
      rintro _ ⟨⟩
      exact (update_of_ne hne _ d).trans hd
    | noMemory =>
      refine ⟨nofun, ?_⟩
      rintro _ ⟨⟩
      exact hd
    | failed left =>
      refine ⟨?_, nofun⟩
      rintro _ ⟨⟩
      exact (update_of_ne hne _ d).trans hd

theorem not_tableHas {t : ChecksumTable} {b : UInt32} (ht : s.checksum = some t)
    (h : ¬ TableHas s b) (hstart : t.start ≠ 0) : ∀ bi < t.blocks.toNat,
      b ≠ t.start + UInt32.ofNat bi :=
  fun bi hbi heq => h ⟨t, ht, hstart, bi, hbi, heq⟩

theorem ixfsCacheFlush_frame (s : IxfsVolume) (faults : Fin ixfsCacheSize → Option Block)
    (table : ℕ → TableWrite) (hsum : (flushSlots s faults).1.checksum = s.checksum) :
    (ixfsCacheFlush s faults table).1.lines = (flushSlots s faults).1.lines ∧ ∀ b, ¬ TableHas s b →
        (ixfsCacheFlush s faults table).1.dev b = (flushSlots s faults).1.dev b := by
  unfold ixfsCacheFlush
  generalize flushSlots s faults = st at hsum ⊢
  obtain ⟨t, err⟩ := st
  simp only at hsum ⊢
  cases hc : t.checksum with
  | none => exact ⟨rfl, fun _ _ => rfl⟩
  | some c =>
    refine ⟨rfl, fun b hb => ?_⟩
    exact ixfsChecksumFlush_frame c table _ b (not_tableHas (hsum ▸ hc) hb)

theorem ixfsCacheFlush_spec (h : s.Shows view) (faults : Fin ixfsCacheSize → Option Block)
    (table : ℕ → TableWrite)
    (hcached : ∀ i, (s.cache i).block ≠ unused → ¬ TableHas s (s.cache i).block) :
    (ixfsCacheFlush s faults table).1.Shows (accept s view (.flush faults table)) := by
  have hslots : SlotsFlushed s (flushSlots s faults).1 view := foldl_flushSlot faults _ (s, 0) h
  obtain ⟨hlines, hdev⟩ := ixfsCacheFlush_frame s faults table hslots.checksum
  have hin : ∀ b, TableHas s b → accept s view (.flush faults table) b =
      (ixfsCacheFlush s faults table).1.dev b := fun b hb => if_pos hb
  have hout : ∀ b, ¬ TableHas s b → accept s view (.flush faults table) b = view b :=
    fun b hb => if_neg hb
  generalize ixfsCacheFlush s faults table = res at hlines hdev hin ⊢
  generalize accept s view (.flush faults table) = view' at hin hout ⊢
  generalize flushSlots s faults = st at hslots hlines hdev
  show Coherent _ _ _
  rw [hlines]
  refine Coherent.overwrite hslots.shows (TableHas s) (fun _ => rfl) ?_ ?_ ?_ fun _ _ _ _ => rfl
  · exact fun b hb => (hin b hb).symm
  · exact fun b hb => ⟨hdev b hb, hout b hb⟩
  · intro i b hi hb
    obtain ⟨hne, hblock⟩ := tag_eq_some.mp hi
    rw [hslots.blocks] at hblock
    exact absurd (hblock ▸ hb) (hcached i (hblock ▸ hne))

/-! ### Runs -/

/-- No write of an evictee fails, no failed read changes the buffer of a slot in use, the
number of empty slots is not used, and no block of the checksum table is cached at a flush. -/
def KeepsBlocks (s : IxfsVolume) : CacheCall → Prop
  | .readBlock block evictFault readFault =>
    block ≠ unused ∧
    (ixfsCacheFind s block = none →
      (s.cache (ixfsCacheLru s)).pending = true → evictFault = none) ∧
    (ixfsCacheFind s block = none → ∀ left, readFault = some left →
      (s.cache (ixfsCacheLru s)).block = unused ∨ left = (s.cache (ixfsCacheLru s)).data)
  | .writeBlock block _ evictFault =>
    block ≠ unused ∧
    (ixfsCacheFind s block = none →
      (s.cache (ixfsCacheLru s)).pending = true → evictFault = none)
  | .flush _ _ => ∀ i, (s.cache i).block ≠ unused → ¬ TableHas s (s.cache i).block

theorem IxfsVolume.Shows.exec (crc32c : Block → UInt32) (h : s.Shows view) {call : CacheCall}
    (hcall : KeepsBlocks s call) : (ixfsExec crc32c s call).Shows (accept s view call) := by
  cases call with
  | readBlock block evictFault readFault =>
    exact (ixfsReadBlock_spec h hcall.1 hcall.2.1 hcall.2.2).1
  | writeBlock block data evictFault => exact ixfsWriteBlock_spec crc32c h hcall.1 hcall.2
  | flush faults table => exact ixfsCacheFlush_spec h faults table hcall

theorem IxfsVolume.Shows.stored (h : s.Shows view) (hb : block ≠ unused) :
    Stored s block (view block) := by
  by_cases hp : Pending s block (view block)
  · exact .inl hp
  refine .inr ⟨?_, fun i hi => Coherent.held h i block (tag_eq_some.mpr ⟨hb, hi⟩)⟩
  by_cases hcached : ∀ i, (s.lines i).tag ≠ some block
  · exact Coherent.uncached h block hcached
  · obtain ⟨i, hi⟩ := not_forall.mp hcached
    have htag := not_not.mp hi
    have hblock := (tag_eq_some.mp htag).2
    refine Coherent.clean h i block htag ?_
    by_contra hd
    have hdirty : (s.cache i).dirty = true := by
      cases hc : (s.cache i).dirty with
      | true => rfl
      | false => exact absurd hc hd
    refine hp ⟨i, hblock, pending_iff.mpr ⟨?_, hdirty⟩, Coherent.held h i block htag⟩
    rw [hblock]
    exact htag

theorem IxfsVolume.Shows.answers (crc32c : Block → UInt32) (h : s.Shows view) {call : CacheCall}
    (hcall : KeepsBlocks s call) : Answers crc32c s view call := by
  refine ⟨?_, ?_⟩
  · rintro block evictFault readFault rfl
    exact (ixfsReadBlock_spec h hcall.1 hcall.2.1 hcall.2.2).2
  · rintro block _ ⟨i, hblock, hp, rfl⟩ hwrites
    have htag : (s.lines i).tag = some block := hblock ▸ (pending_iff.mp hp).1
    obtain ⟨hne, -⟩ := tag_eq_some.mp htag
    have hsame : accept s view call block = view block := by
      cases call with
      | readBlock _ _ _ => rfl
      | writeBlock b _ _ => exact update_of_ne (fun heq => hwrites heq.symm) _ view
      | flush _ _ => exact if_neg (hblock ▸ hcall i (hblock ▸ hne))
    have hdata : (s.cache i).data = view block := Coherent.held h i block htag
    rw [hdata, ← hsame]
    exact (h.exec crc32c hcall).stored hne

theorem ixfsCacheInit_shows (checksum : Option ChecksumTable) (dev : UInt32 → Block) :
    (ixfsCacheInit checksum dev).Shows dev :=
  coherent_empty fun _ => rfl

noncomputable def contentsExec (crc32c : Block → UInt32) (st : IxfsVolume × (UInt32 → Block))
    (call : CacheCall) : IxfsVolume × (UInt32 → Block) :=
  (ixfsExec crc32c st.1 call, accept st.1 st.2 call)

/-- In a run in which no evictee is lost, every call answers with the contents, and keeps what
is pending for other blocks. -/
theorem ixfsRun_answers (crc32c : Block → UInt32) (checksum : Option ChecksumTable)
    (dev : UInt32 → Block) (calls : List CacheCall) (call : CacheCall)
    (h : Refine.Meets (contentsExec crc32c) (fun st => KeepsBlocks st.1)
      (ixfsCacheInit checksum dev, dev) (calls ++ [call])) :
    Answers crc32c (calls.foldl (contentsExec crc32c) (ixfsCacheInit checksum dev, dev)).1
      (calls.foldl (contentsExec crc32c) (ixfsCacheInit checksum dev, dev)).2 call := by
  obtain ⟨hcalls, hcall⟩ := h.concat
  have hshows := hcalls.invariant (fun st => st.1.Shows st.2)
    (fun _ _ hs hcall => hs.exec crc32c hcall) (ixfsCacheInit_shows checksum dev)
  exact hshows.answers crc32c hcall

def zeroBlock : Block := fun _ => 0
def oneBlock : Block := fun _ => 1

/-- The contents of a fresh cache over zero blocks after writes of `oneBlock` to the blocks from
0 on. -/
noncomputable def afterWrites (n : ℕ) : IxfsVolume × (UInt32 → Block) :=
  ((List.range n).map fun k => CacheCall.writeBlock (UInt32.ofNat k) oneBlock none).foldl
    (contentsExec fun _ => 0) (ixfsCacheInit none fun _ => zeroBlock, fun _ => zeroBlock)

/-- A write, and a flush in which the device fails. -/
theorem ixfsRun_answers_retry :
    Answers (fun _ => 0) (afterWrites 1).1 (afterWrites 1).2
      (.flush (fun _ => some zeroBlock) fun _ => .done) := by
  have htable : (contentsExec (fun _ => 0) (ixfsCacheInit none fun _ => zeroBlock,
      fun _ => zeroBlock) (.writeBlock 0 oneBlock none)).1.checksum.isSome = false := by
    decide
  refine ixfsRun_answers (fun _ => 0) none (fun _ => zeroBlock) [.writeBlock 0 oneBlock none]
    (.flush (fun _ => some zeroBlock) fun _ => .done)
    ⟨⟨by decide, fun _ _ => rfl⟩, fun _ _ ⟨t, ht, _⟩ => ?_, trivial⟩
  rw [ht] at htable
  cases htable

/-- With all slots pending, a failed write of the evictee loses block 0, and so does a failed
read after a successful one: what is then read from block 0 is not what was written. -/
theorem ixfsRun_lost :
    ¬ Answers (fun _ => 0) (afterWrites 64).1 (afterWrites 64).2
        (.writeBlock 64 oneBlock (some zeroBlock)) ∧
      ¬ Answers (fun _ => 0)
        (contentsExec (fun _ => 0) (afterWrites 64) (.readBlock 64 none (some zeroBlock))).1
        (contentsExec (fun _ => 0) (afterWrites 64) (.readBlock 64 none (some zeroBlock))).2
        (.readBlock 0 none none) := by
  refine ⟨fun h => ?_, fun h => ?_⟩
  · have hslot : ((afterWrites 64).1.cache ⟨0, by decide⟩).block = 0 ∧
        ((afterWrites 64).1.cache ⟨0, by decide⟩).pending = true ∧
        ((afterWrites 64).1.cache ⟨0, by decide⟩).data 0 = 1 := by decide +kernel
    have hlost : (ixfsExec (fun _ => 0) (afterWrites 64).1
          (.writeBlock 64 oneBlock (some zeroBlock))).dev 0 0 = 0 ∧
        ixfsCacheFind (ixfsExec (fun _ => 0) (afterWrites 64).1
          (.writeBlock 64 oneBlock (some zeroBlock))) 0 = none := by decide +kernel
    rcases h.keeps 0 _ ⟨⟨0, by decide⟩, hslot.1, hslot.2.1, rfl⟩ (by simp [CacheCall.writes]) with
      ⟨i, hi, -, -⟩ | ⟨hdev, -⟩
    · have := List.find?_eq_none.mp hlost.2 i (List.mem_finRange i)
      simp [hi] at this
    · rw [hdev, hslot.2.2] at hlost
      exact absurd hlost.1 (by decide)
  · have hread : (ixfsReadBlock
        (contentsExec (fun _ => 0) (afterWrites 64) (.readBlock 64 none (some zeroBlock))).1
        0 none none).2.map (· 0) = some 0 := by decide +kernel
    have hview : (contentsExec (fun _ => 0) (afterWrites 64)
        (.readBlock 64 none (some zeroBlock))).2 0 0 = 1 := by decide
    obtain ⟨data, hdata, hbyte⟩ := Option.map_eq_some_iff.mp hread
    rw [h.reads 0 none none rfl data hdata] at hbyte
    exact absurd (hview.symm.trans hbyte) (by decide)

end ImpossibleOs.Ixfs
