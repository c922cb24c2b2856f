import ImpossibleOs.Ixfs.CacheRun
import ImpossibleOs.Ixfs.Journal
import ImpossibleOs.Lib.Ring

/-!
What a commit leaves at the targets of its transaction.

The slots behind the header are a ring in which the transaction queues its
entries. An entry has room for 4080 bytes of a
block, and the rest comes home as zeros.
-/

namespace ImpossibleOs.Ixfs

open WriteBack Function List Option Nat UInt32

variable {crc32c : Block → UInt32} {s t : IxfsVolume} {view : UInt32 → Block}
  {P : UInt32 → Prop} {i j : Fin ixfsCacheSize} {b block : UInt32} {data : Block}

/-! ### The cache beside a region -/

def Uncached (P : UInt32 → Prop) (s : IxfsVolume) : Prop := ∀ i, ¬ P (s.cache i).block

/-- The region is left alone. -/
structure Spares (P : UInt32 → Prop) (s t : IxfsVolume) : Prop where
  uncached : Uncached P t
  dev : ∀ b, P b → t.dev b = s.dev b
  table : ∀ b, TableHas t b ↔ TableHas s b

section

variable (h : Uncached P s)
include h

theorem Spares.refl : Spares P s s := ⟨h, fun _ _ => rfl, fun _ => Iff.rfl⟩

omit h in
theorem Spares.trans {u : IxfsVolume} (h : Spares P s t) (h' : Spares P t u) : Spares P s u :=
  ⟨h'.uncached, fun b hb => (h'.dev b hb).trans (h.dev b hb),
    fun b => (h'.table b).trans (h.table b)⟩

theorem Uncached.setEntry {e : CacheEntry} (he : ¬ P e.block) : Uncached P (s.setEntry i e) := by
  intro j
  by_cases hj : j = i
  · rw [hj, cache_setEntry_self]
    exact he
  · rw [cache_setEntry_of_ne _ _ hj]
    exact h j

theorem Uncached.diskWrite (hb : P b) (fault : Option Block) :
    ixfsDiskWrite s.dev (s.cache i).block data fault b = s.dev b :=
  update_of_ne (fun heq : b = (s.cache i).block => h i (heq ▸ hb)) _ s.dev

theorem spares_evict (i : Fin ixfsCacheSize) (fault : Option Block) :
    Spares P s (if (s.cache i).pending = true then
      { s.setEntry i { s.cache i with dirty := false } with
        dev := ixfsDiskWrite s.dev (s.cache i).block (s.cache i).data fault } else s) := by
  split
  · exact ⟨h.setEntry (h i), fun b hb => h.diskWrite hb fault, fun _ => Iff.rfl⟩
  · exact .refl h

theorem spares_readBlock (hb : ¬ P block) (evictFault readFault : Option Block) :
    Spares P s (ixfsReadBlock s block evictFault readFault).1 := by
  unfold ixfsReadBlock
  cases ixfsCacheFind s block with
  | some i => exact ⟨h.setEntry (h i), fun _ _ => rfl, fun _ => Iff.rfl⟩
  | none =>
    dsimp only
    have hevict := spares_evict h (ixfsCacheLru s) evictFault
    generalize (if (s.cache (ixfsCacheLru s)).pending = true then
      { s.setEntry (ixfsCacheLru s) { s.cache (ixfsCacheLru s) with dirty := false } with
        dev := ixfsDiskWrite s.dev (s.cache (ixfsCacheLru s)).block
          (s.cache (ixfsCacheLru s)).data evictFault } else s) = t at hevict ⊢
    cases readFault with
    | some left =>
      exact hevict.trans
        ⟨hevict.uncached.setEntry (hevict.uncached _), fun _ _ => rfl, fun _ => Iff.rfl⟩
    | none =>
      exact hevict.trans ⟨hevict.uncached.setEntry hb, fun _ _ => rfl, fun _ => Iff.rfl⟩

omit h in
theorem tableHas_checksumUpdate (s : IxfsVolume) (block : UInt32) (data : Block) (b : UInt32) :
    TableHas (ixfsChecksumUpdate crc32c s block data) b ↔ TableHas s b := by
  unfold TableHas ixfsChecksumUpdate
  cases s.checksum with
  | none => rfl
  | some t =>
    simp only [map_some, some.injEq, exists_eq_left']
    split <;> rfl

theorem spares_writeBlock (hb : ¬ P block) (data : Block) (evictFault : Option Block) :
    Spares P s (ixfsWriteBlock crc32c s block data evictFault) := by
  unfold ixfsWriteBlock
  cases ixfsCacheFind s block with
  | some i =>
    have htouch : Uncached P (ixfsCacheTouch s i) :=
      h.setEntry (i := i) (e := { s.cache i with lruTick := s.cacheTick + 1 }) (h i)
    have hput := htouch.setEntry (i := i)
      (e := ⟨block, data, true, (ixfsCacheTouch s i).cacheTick + 1⟩) hb
    exact ⟨hput, fun _ _ => rfl, tableHas_checksumUpdate _ _ _⟩
  | none =>
    dsimp only
    split
    · exact ⟨h.setEntry hb, fun b hb' => h.diskWrite hb' evictFault,
        tableHas_checksumUpdate _ _ _⟩
    · exact ⟨h.setEntry hb, fun _ _ => rfl, tableHas_checksumUpdate _ _ _⟩

omit h in
theorem spares_flushSlot (faults : Fin ixfsCacheSize → Option Block) {st : IxfsVolume × Int}
    (h : Uncached P st.1) (i : Fin ixfsCacheSize) : Spares P st.1 (flushSlot faults st i).1 := by
  unfold flushSlot
  dsimp only
  split
  · cases faults i with
    | none => exact ⟨h.setEntry (h i), fun b hb => h.diskWrite hb none, fun _ => Iff.rfl⟩
    | some left => exact ⟨h, fun b hb => h.diskWrite hb (some left), fun _ => Iff.rfl⟩
  · exact .refl h

omit h in
theorem spares_flushSlots (faults : Fin ixfsCacheSize → Option Block)
    (l : List (Fin ixfsCacheSize)) (st : IxfsVolume × Int) (h : Uncached P st.1) :
    Spares P st.1 (l.foldl (flushSlot faults) st).1 := by
  induction l generalizing st with
  | nil => exact .refl h
  | cons i l ih =>
    have hslot := spares_flushSlot faults h i
    exact hslot.trans (ih _ hslot.uncached)

theorem spares_flush (htable : ∀ b, P b → ¬ TableHas s b)
    (faults : Fin ixfsCacheSize → Option Block) (table : ℕ → TableWrite) :
    Spares P s (ixfsCacheFlush s faults table).1 := by
  have hslots : Spares P s (flushSlots s faults).1 := spares_flushSlots faults _ (s, 0) h
  refine hslots.trans ?_
  unfold ixfsCacheFlush
  revert hslots
  generalize flushSlots s faults = st
  obtain ⟨t, err⟩ := st
  intro hslots
  dsimp only
  cases hc : t.checksum with
  | none => exact .refl hslots.uncached
  | some c =>
    refine ⟨hslots.uncached, fun b hb => ?_, fun b => by unfold TableHas; rw [hc]⟩
    exact ixfsChecksumFlush_frame c table _ b
      (not_tableHas hc fun ht => htable b hb ((hslots.table b).mp ht))

end

/-- The call names no block of the region. -/
def CacheCall.Avoids (P : UInt32 → Prop) : CacheCall → Prop
  | .readBlock block _ _ => ¬ P block
  | .writeBlock block _ _ => ¬ P block
  | .flush _ _ => True

theorem spares_exec (h : Uncached P s) (htable : ∀ b, P b → ¬ TableHas s b) {call : CacheCall}
    (hcall : call.Avoids P) : Spares P s (ixfsExec crc32c s call) := by
  cases call with
  | readBlock block evictFault readFault => exact spares_readBlock h hcall evictFault readFault
  | writeBlock block data evictFault => exact spares_writeBlock h hcall data evictFault
  | flush faults table => exact spares_flush h htable faults table

def IxfsVolume.content (s : IxfsVolume) (block : UInt32) : Block :=
  match ixfsCacheFind s block with
  | some i => (s.cache i).data
  | none => s.dev block

theorem IxfsVolume.Shows.content (h : s.Shows view) (hb : block ≠ unused) :
    s.content block = view block := by
  unfold IxfsVolume.content
  cases hfind : ixfsCacheFind s block with
  | some i => exact Coherent.held h i _ (ixfsCacheFind_some hb hfind)
  | none => exact Coherent.uncached h block fun i => ixfsCacheFind_none hfind i

theorem IxfsVolume.Shows.diskWrite (h : s.Shows view) (hcached : ∀ i, (s.cache i).block ≠ b)
    (data : Block) (fault : Option Block) :
    IxfsVolume.Shows { s with dev := ixfsDiskWrite s.dev b data fault }
      (update view b (fault.getD data)) := by
  refine Coherent.overwrite h (· = b) (fun _ => rfl) ?_ ?_ ?_ fun _ _ _ _ => rfl
  · rintro k rfl
    rw [update_self]
    exact update_self ..
  · intro k hk
    exact ⟨update_of_ne hk _ _, update_of_ne hk _ _⟩
  · rintro i k hi rfl
    exact absurd (tag_eq_some.mp hi).2 (hcached i)

theorem content_diskWrite (s : IxfsVolume) (hb : block ≠ b) (fault : Option Block) :
    IxfsVolume.content { s with dev := ixfsDiskWrite s.dev b data fault } block =
      s.content block := by
  unfold IxfsVolume.content
  have hdev : ixfsDiskWrite s.dev b data fault block = s.dev block :=
    update_of_ne hb _ _
  show (match ixfsCacheFind s block with
    | some i => (s.cache i).data
    | none => ixfsDiskWrite s.dev b data fault block) = _
  rw [hdev]

/-! ### The journal as a ring -/

variable {v w : Journaled} {asked : List (UInt32 × Block)} {pos n c : ℕ}

def Journaled.InJournal (v : Journaled) (b : UInt32) : Prop :=
  v.journalStart.toNat ≤ b.toNat ∧ b.toNat < v.journalStart.toNat + v.journalBlocks.toNat

/-- The slots behind the header. -/
def Journaled.ring (v : Journaled) : ℕ := v.journalBlocks.toNat - 1

def ringBlock (start : UInt32) (c : ℕ) : UInt32 := start + UInt32.ofNat (c + 1)

/-- What would come home from the cells of the ring. -/
def Journaled.cells (v : Journaled) (c : ℕ) : Block :=
  homeBlock (v.vol.dev (ringBlock v.journalStart c))

/-- The part of a block for which an entry has room. -/
def truncated (data : Block) : Block := fun k => if k.val < 4080 then data k else 0

theorem homeBlock_journalEntry (txnId type target checksum : UInt32) (data : Block) :
    homeBlock (journalEntry txnId type target checksum data) = truncated data := by
  funext k
  unfold homeBlock truncated
  split
  · rename_i hk
    have hval : (Fin.ofNat 4096 (k.val + 16)).val = k.val + 16 := mod_eq_of_lt (by omega)
    have hback : Fin.ofNat 4096 (k.val + 16 - 16) = k := by
      rw [Nat.add_sub_cancel]
      exact Fin.ext (mod_eq_of_lt k.isLt)
    rw [journalEntry, hval, if_neg (by omega), hback]
  · rfl

/-- A journal with room for a transaction and its commit record, as `ixfs_format` lays it out,
that lies apart from the checksum table and is not cached. -/
structure Journaled.Mounted (v : Journaled) : Prop where
  room : ixfsTxnMaxEntries + 2 ≤ v.journalBlocks.toNat
  fits : v.journalStart.toNat + v.journalBlocks.toNat < 2 ^ 32
  shows : ∃ view, v.vol.Shows view
  uncached : Uncached v.InJournal v.vol
  table : ∀ b, v.InJournal b → ¬ TableHas v.vol b

theorem Journaled.Mounted.ringBlock_toNat (h : v.Mounted) (hc : c < v.ring) :
    (ringBlock v.journalStart c).toNat = v.journalStart.toNat + c + 1 := by
  have hfits := h.fits
  unfold Journaled.ring at hc
  rw [ringBlock, UInt32.toNat_add, toNat_ofNat', mod_eq_of_lt (a := c + 1) (by omega),
    mod_eq_of_lt (by omega)]
  omega

theorem Journaled.Mounted.inJournal (h : v.Mounted) (hc : c < v.ring) :
    v.InJournal (ringBlock v.journalStart c) := by
  have hring := hc
  unfold Journaled.ring at hring
  rw [Journaled.InJournal, h.ringBlock_toNat hc]
  omega

theorem Journaled.Mounted.diskWrite (h : v.Mounted) (hb : v.InJournal b) (fault : Option Block) :
    (v.diskWrite b data fault).Mounted where
  room := h.room
  fits := h.fits
  shows := by
    obtain ⟨view, hview⟩ := h.shows
    exact ⟨_, hview.diskWrite (fun i heq => h.uncached i (heq ▸ hb)) data fault⟩
  uncached := h.uncached
  table := h.table

theorem Journaled.Mounted.cells_diskWrite (h : v.Mounted) (hc : c < v.ring)
    (fault : Option Block) {c' : ℕ} (hc' : c' < v.ring) :
    (v.diskWrite (ringBlock v.journalStart c) data fault).cells c' =
      update v.cells c (homeBlock (fault.getD data)) c' := by
  show homeBlock (ixfsDiskWrite v.vol.dev (ringBlock v.journalStart c) data fault
    (ringBlock v.journalStart c')) = _
  by_cases heq : c' = c
  · rw [heq, update_self, ixfsDiskWrite, update_self]
  · rw [update_of_ne heq, ixfsDiskWrite, update_of_ne, Journaled.cells]
    intro hsame
    have hnat := congrArg UInt32.toNat hsame
    rw [h.ringBlock_toNat hc, h.ringBlock_toNat hc'] at hnat
    omega

theorem Journaled.Mounted.exec (crc32c : Block → UInt32) (h : v.Mounted) {call : CacheCall}
    (hcall : KeepsBlocks v.vol call) (havoids : call.Avoids v.InJournal) :
    (v.setVol (ixfsExec crc32c v.vol call)).Mounted ∧
      ∀ c < v.ring, (v.setVol (ixfsExec crc32c v.vol call)).cells c = v.cells c := by
  have hspares : Spares v.InJournal v.vol (ixfsExec crc32c v.vol call) :=
    spares_exec h.uncached h.table havoids
  obtain ⟨view, hview⟩ := h.shows
  refine ⟨⟨h.room, h.fits, ⟨_, hview.exec crc32c hcall⟩, hspares.uncached, ?_⟩, ?_⟩
  · exact fun b hb ht => h.table b hb ((hspares.table b).mp ht)
  · exact fun c hc => congrArg homeBlock (hspares.dev _ (h.inJournal hc))

/-! ### Transactions -/

/-- A write to the transaction, or a call of the cache while it is open. -/
inductive TxnCall where
  | write (target : UInt32) (data : Block) (memory : Bool) (fault : Option Block)
  | cache (call : CacheCall)

/-- The volume, and the writes that the transaction has accepted. -/
def txnExec (crc32c : Block → UInt32) (st : Journaled × List (UInt32 × Block)) :
    TxnCall → Journaled × List (UInt32 × Block)
  | .write target data memory fault =>
    let r := ixfsTxnWrite st.1 target data memory fault
    (r.1, if r.2 = 0 then st.2 ++ [(target, data)] else st.2)
  | .cache call => (st.1.setVol (ixfsExec crc32c st.1.vol call), st.2)

/-- Targets are blocks outside the journal, and the calls of the cache keep what is cached and
leave the journal alone. -/
def InTxn (st : Journaled × List (UInt32 × Block)) : TxnCall → Prop
  | .write target _ _ _ => target ≠ unused ∧ ¬ st.1.InJournal target
  | .cache call => KeepsBlocks st.1.vol call ∧ call.Avoids st.1.InJournal

def lastAsked (asked : List (UInt32 × Block)) (b : UInt32) : Option Block :=
  (asked.reverse.find? fun w => w.1 = b).map Prod.snd

/-- Every target has what was last written to it, and no other block outside the journal
changes. -/
structure AsAsked (v : Journaled) (asked : List (UInt32 × Block)) (after : IxfsVolume) : Prop where
  targets : ∀ b data, lastAsked asked b = some data → after.content b = data
  others : ∀ b, b ≠ unused → ¬ v.InJournal b → lastAsked asked b = none →
    after.content b = v.vol.content b

/-- The slot of entry `i`. -/
def Journaled.slot (v : Journaled) (pos i : ℕ) : UInt32 := UInt32.ofNat ((pos + i) % v.ring + 1)

/-- The entries of the transaction stand in the ring from `pos` on. -/
structure Recording (v : Journaled) (asked : List (UInt32 × Block)) (pos : ℕ) : Prop
    extends v.Mounted where
  active : v.txn.active = true
  few : asked.length ≤ ixfsTxnMaxEntries
  entries : v.txn.entries = asked.zipIdx.map fun w => (w.1.1, v.slot pos w.2)
  head : v.jHead = v.slot pos asked.length
  held : Ring.Holds v.ring v.cells pos (asked.map fun w => truncated w.2)
  targets : ∀ w ∈ asked, w.1 ≠ unused ∧ ¬ v.InJournal w.1

theorem Journaled.Mounted.ring_pos (h : v.Mounted) : 0 < v.ring := by
  have hroom := h.room
  unfold Journaled.ring
  omega

theorem Journaled.Mounted.cell_lt (h : v.Mounted) (pos i : ℕ) : (pos + i) % v.ring < v.ring :=
  mod_lt _ h.ring_pos

theorem Journaled.Mounted.slotAfter (h : v.Mounted) (i : ℕ) :
    slotAfter v.journalBlocks (v.slot pos i) = v.slot pos (i + 1) := by
  have hlt := h.cell_lt pos i
  have hfits := h.fits
  have hroom := h.room
  have hring : v.ring = v.journalBlocks.toNat - 1 := rfl
  have hnat : (v.slot pos i).toNat = (pos + i) % v.ring + 1 := by
    rw [Journaled.slot, toNat_ofNat', mod_eq_of_lt (by omega)]
  have hsucc : (pos + (i + 1)) % v.ring = ((pos + i) % v.ring + 1) % v.ring := by
    rw [mod_add_mod, Nat.add_assoc]
  rcases Nat.lt_or_ge ((v.slot pos i).toNat + 1) v.journalBlocks.toNat with hin | hlast
  · have hstep : (pos + (i + 1)) % v.ring = (pos + i) % v.ring + 1 := by
      rw [hsucc, mod_eq_of_lt (by omega)]
    apply UInt32.toNat_inj.mp
    rw [slotAfter_of_lt hin, hnat, Journaled.slot, hstep, toNat_ofNat',
      mod_eq_of_lt (b := 2 ^ 32) (by omega)]
  · rw [slotAfter_of_last (by omega), Journaled.slot, hsucc,
      show (pos + i) % v.ring + 1 = v.ring by omega, mod_self]
    rfl

theorem recording_begin (h : v.Mounted) (hlo : 1 ≤ v.jHead) (hhi : v.jHead < v.journalBlocks) :
    Recording (ixfsTxnBegin v) [] (v.jHead.toNat - 1) where
  room := h.room
  fits := h.fits
  shows := h.shows
  uncached := h.uncached
  table := h.table
  active := rfl
  few := Nat.zero_le _
  entries := rfl
  head := by
    have hlo' := UInt32.le_iff_toNat_le.mp hlo
    have hhi' := UInt32.lt_iff_toNat_lt.mp hhi
    rw [toNat_one] at hlo'
    apply UInt32.toNat_inj.mp
    show v.jHead.toNat = (ofNat ((v.jHead.toNat - 1 + 0) % v.ring + 1)).toNat
    have hlt := v.jHead.toNat_lt
    have hring : v.ring = v.journalBlocks.toNat - 1 := rfl
    rw [Nat.add_zero, mod_eq_of_lt (by omega), toNat_ofNat',
      mod_eq_of_lt (by omega)]
    omega
  held := Ring.holds_nil
  targets := nofun

section

variable (h : Recording v asked pos)
include h

theorem Recording.fresh : asked.length < v.ring := by
  have hroom := h.toMounted.room
  have hfew := h.few
  unfold Journaled.ring
  omega

theorem Recording.cell :
    v.journalStart + v.jHead = ringBlock v.journalStart ((pos + asked.length) % v.ring) := by
  rw [h.head]
  rfl

theorem Recording.held_push (data : Block) (fault : Option Block) :
    Ring.Holds v.ring (v.diskWrite (v.journalStart + v.jHead) data fault).cells pos
      (asked.map (fun w => truncated w.2) ++ [homeBlock (fault.getD data)]) := by
  have hpush := h.held.push (x := homeBlock (fault.getD data)) (by
    rw [length_map]
    exact h.fresh)
  rw [length_map] at hpush
  rw [h.cell]
  exact hpush.congr h.toMounted.ring_pos fun c hc =>
    h.toMounted.cells_diskWrite (h.toMounted.cell_lt _ _) fault hc

theorem Recording.mounted_write (data : Block) (fault : Option Block) :
    (v.diskWrite (v.journalStart + v.jHead) data fault).Mounted := by
  rw [h.cell]
  exact h.toMounted.diskWrite (h.toMounted.inJournal (h.toMounted.cell_lt _ _)) fault

theorem Recording.write {target : UInt32}
    (htarget : target ≠ unused ∧ ¬ v.InJournal target) (memory : Bool) (fault : Option Block) :
    Recording (ixfsTxnWrite v target data memory fault).1
      (if (ixfsTxnWrite v target data memory fault).2 = 0 then asked ++ [(target, data)]
        else asked) pos := by
  have hlen : v.txn.entries.length = asked.length := by
    rw [h.entries, length_map, length_zipIdx]
  unfold ixfsTxnWrite
  split
  · exact h
  rename_i hopen
  split
  · exact h
  dsimp only
  have hheld := h.held_push (dataEntry v.txn.txnId target data) fault
  have hmounted := h.mounted_write (dataEntry v.txn.txnId target data) fault
  cases fault with
  | some left =>
    exact { hmounted with
      active := h.active
      few := h.few
      entries := h.entries
      head := h.head
      held := hheld.of_append
      targets := h.targets }
  | none =>
    have hhome : homeBlock ((none : Option Block).getD (dataEntry v.txn.txnId target data)) =
        truncated data := homeBlock_journalEntry ..
    rw [hhome] at hheld
    rw [h.active, Bool.not_true, Bool.false_or, decide_eq_true_eq, hlen] at hopen
    exact { hmounted with
      active := h.active
      few := by
        show (asked ++ [(target, data)]).length ≤ ixfsTxnMaxEntries
        rw [length_append, length_singleton]
        omega
      entries := by
        show v.txn.entries ++ [(target, v.jHead)] =
          (asked ++ [(target, data)]).zipIdx.map fun w => (w.1.1, v.slot pos w.2)
        rw [h.entries, h.head, zipIdx_append, map_append, Nat.zero_add]
        rfl
      head := by
        show slotAfter v.journalBlocks v.jHead = v.slot pos (asked ++ [(target, data)]).length
        rw [h.head, h.toMounted.slotAfter, length_append, length_singleton]
      held := by
        show Ring.Holds _ _ _ ((asked ++ [(target, data)]).map fun w => truncated w.2)
        rw [map_append]
        exact hheld
      targets := by
        intro w hw
        rcases mem_append.mp hw with hw | hw
        · exact h.targets w hw
        · rw [mem_singleton] at hw
          exact hw ▸ htarget }

theorem Recording.exec {call : CacheCall}
    (hcall : KeepsBlocks v.vol call) (havoids : call.Avoids v.InJournal) :
    Recording (v.setVol (ixfsExec crc32c v.vol call)) asked pos := by
  obtain ⟨hmounted, hcells⟩ := h.toMounted.exec crc32c hcall havoids
  exact { hmounted with
    active := h.active
    few := h.few
    entries := h.entries
    head := h.head
    held := h.held.congr h.toMounted.ring_pos hcells
    targets := h.targets }

end

theorem recording_run (h : v.Mounted) (hlo : 1 ≤ v.jHead) (hhi : v.jHead < v.journalBlocks)
    {calls : List TxnCall}
    (hcalls : Refine.Meets (txnExec crc32c) InTxn (ixfsTxnBegin v, []) calls) :
    Recording (calls.foldl (txnExec crc32c) (ixfsTxnBegin v, [])).1
      (calls.foldl (txnExec crc32c) (ixfsTxnBegin v, [])).2 (v.jHead.toNat - 1) := by
  refine hcalls.invariant (fun st => Recording st.1 st.2 (v.jHead.toNat - 1)) ?_
    (recording_begin h hlo hhi)
  rintro ⟨v, asked⟩ call hrec hcall
  cases call with
  | write target data memory fault => exact hrec.write hcall memory fault
  | cache call => exact hrec.exec hcall.1 hcall.2

/-! ### Commit -/

theorem lastAsked_append (asked : List (UInt32 × Block)) (w : UInt32 × Block) (b : UInt32) :
    lastAsked (asked ++ [w]) b = if w.1 = b then some w.2 else lastAsked asked b := by
  rw [lastAsked, reverse_append, reverse_singleton, singleton_append,
    find?_cons]
  by_cases hb : w.1 = b
  · simp [hb]
  · simp [hb, lastAsked]

theorem exists_of_lastAsked {asked : List (UInt32 × Block)} (h : lastAsked asked b = some data) :
    ∃ w ∈ asked, w.1 = b := by
  obtain ⟨w, hfind, -⟩ := Option.map_eq_some_iff.mp h
  exact ⟨w, mem_reverse.mp (mem_of_find?_eq_some hfind),
    by simpa using find?_some hfind⟩

theorem foldl_update (f : Block → Block) (asked : List (UInt32 × Block)) (view : UInt32 → Block)
    (b : UInt32) :
    asked.foldl (fun view w => update view w.1 (f w.2)) view b =
      ((lastAsked asked b).map f).getD (view b) := by
  induction asked using reverseRecOn with
  | nil => rfl
  | append_singleton asked w ih =>
    rw [foldl_append, foldl_cons, foldl_nil, lastAsked_append]
    by_cases hb : w.1 = b
    · rw [if_pos hb, hb, update_self]
      rfl
    · rw [if_neg hb, update_of_ne (Ne.symm hb), ih]

/-- Nothing goes wrong when an entry is written home. -/
def quietHome : HomeOutcome := ⟨false, false, none⟩

theorem foldl_homeWrite (crc32c : Block → UInt32) {start : UInt32} {slot : ℕ → UInt32}
    (hin : ∀ i, P (start + slot i)) (l : List (UInt32 × Block)) (k : ℕ) (hs : s.Shows view)
    (hu : Uncached P s)
    (hheld : ∀ i (h : i < l.length),
      homeBlock (s.dev (start + slot (k + i))) = truncated l[i].2)
    (htargets : ∀ w ∈ l, w.1 ≠ unused ∧ ¬ P w.1) :
    (((l.zipIdx k).map fun w => ((w.1.1, slot w.2), w.2)).foldl
      (homeWrite crc32c start fun _ => quietHome) s).Shows
      (l.foldl (fun view w => update view w.1 (truncated w.2)) view) := by
  induction l generalizing k s view with
  | nil => exact hs
  | cons w l ih =>
    obtain ⟨htarget, hrest⟩ := forall_mem_cons.mp htargets
    have hfirst : homeBlock (s.dev (start + slot k)) = truncated w.2 :=
      hheld 0 (succ_pos _)
    have hwrite : homeWrite crc32c start (fun _ => quietHome) s ((w.1, slot k), k) =
        ixfsWriteBlock crc32c s w.1 (truncated w.2) none := by
      rw [← hfirst]
      rfl
    have hspares : Spares P s (ixfsWriteBlock crc32c s w.1 (truncated w.2) none) :=
      spares_writeBlock hu htarget.2 _ _
    rw [zipIdx_cons, map_cons, foldl_cons, foldl_cons, hwrite]
    refine ih (k + 1) (ixfsWriteBlock_spec crc32c hs htarget.1 fun _ _ => rfl)
      hspares.uncached ?_ hrest
    intro i hi
    rw [hspares.dev _ (hin _), Nat.add_assoc, Nat.add_comm 1 i]
    exact hheld (i + 1) (succ_lt_succ hi)

theorem zipIdx_map_zipIdx {α β : Type} (f : α × ℕ → β) (l : List α) :
    (l.zipIdx.map f).zipIdx = l.zipIdx.map fun w => (f w, w.2) := by
  apply ext_getElem
  · simp
  · intro i h₁ h₂
    simp

theorem Recording.commit (crc32c : Block → UInt32) (h : Recording v asked pos)
    (hview : v.vol.Shows view) (commitFault headerFault : Option Block) (hb : b ≠ unused)
    (hout : ¬ v.InJournal b) :
    (ixfsTxnCommit crc32c v
      ⟨true, commitFault, fun _ => quietHome, headerFault⟩).1.vol.content b =
        ((lastAsked asked b).map truncated).getD (view b) := by
  have hslot : ∀ i, v.InJournal (v.journalStart + v.slot pos i) :=
    fun i => h.toMounted.inJournal (h.toMounted.cell_lt _ i)
  have hhead : v.InJournal (v.journalStart + v.jHead) := h.head ▸ hslot _
  have hstart : b ≠ v.journalStart := by
    rintro rfl
    have hroom := h.toMounted.room
    exact hout ⟨Nat.le_refl _, by omega⟩
  -- the commit record does not stand in the way of the entries
  have hm := h.mounted_write (commitEntry v.txn.txnId) commitFault
  have hheld := (h.held_push (commitEntry v.txn.txnId) commitFault).of_append
  have hshows := hview.diskWrite (fun i heq => h.toMounted.uncached i (heq ▸ hhead))
    (commitEntry v.txn.txnId) commitFault
  have hhomes := foldl_homeWrite (P := v.InJournal) crc32c hslot asked 0 hshows
    hm.uncached (fun i hi => by
      have hcell := hheld i (by rwa [length_map])
      rw [getElem_map] at hcell
      rw [Nat.zero_add]
      exact hcell) h.targets
  have hturns : v.txn.entries.zipIdx = asked.zipIdx.map fun w =>
      ((w.1.1, v.slot pos w.2), w.2) := by
    rw [h.entries]
    exact zipIdx_map_zipIdx _ asked
  rw [← hturns] at hhomes
  have hcontent := hhomes.content hb
  have hne : b ≠ v.journalStart + v.jHead := by
    rintro rfl
    exact hout hhead
  rw [foldl_update, update_of_ne hne] at hcontent
  rw [← hcontent, ixfsTxnCommit, h.active]
  exact content_diskWrite _ hstart headerFault

/-- The bytes for which an entry has no room are zero. -/
def EndsInZeros (data : Block) : Prop := ∀ k : Fin 4096, 4080 ≤ k.val → data k = 0

theorem truncated_eq_iff (data : Block) : truncated data = data ↔ EndsInZeros data := by
  constructor
  · intro h k hk
    rw [← h]
    exact if_neg (by omega)
  · intro h
    funext k
    unfold truncated
    split
    · rfl
    · exact (h k (by omega)).symm

/-- A transaction whose entries can be read back: its commit succeeds, and leaves what was asked
for exactly when the last 16 bytes of the last write to every target are zero. -/
theorem txnCommit_asAsked_iff (crc32c : Block → UInt32) (v : Journaled) (h : v.Mounted)
    (hlo : 1 ≤ v.jHead) (hhi : v.jHead < v.journalBlocks) (calls : List TxnCall)
    (hcalls : Refine.Meets (txnExec crc32c) InTxn (ixfsTxnBegin v, []) calls)
    (commitFault headerFault : Option Block) :
    let st := calls.foldl (txnExec crc32c) (ixfsTxnBegin v, [])
    let res := ixfsTxnCommit crc32c st.1 ⟨true, commitFault, fun _ => quietHome, headerFault⟩
    res.2 = 0 ∧
      (AsAsked st.1 st.2 res.1.vol ↔
        ∀ b data, lastAsked st.2 b = some data → EndsInZeros data) := by
  intro st res
  have hrec : Recording st.1 st.2 (v.jHead.toNat - 1) := recording_run h hlo hhi hcalls
  have hret : res.2 = 0 := by
    show (ixfsTxnCommit crc32c st.1 _).2 = 0
    rw [ixfsTxnCommit, hrec.active]
    rfl
  obtain ⟨view, hview⟩ := hrec.toMounted.shows
  have hafter := fun b hb hout => hrec.commit (b := b) crc32c hview commitFault headerFault hb hout
  have htarget : ∀ b data, lastAsked st.2 b = some data →
      res.1.vol.content b = truncated data := by
    intro b data hlast
    obtain ⟨w, hw, rfl⟩ := exists_of_lastAsked hlast
    obtain ⟨hb, hout⟩ := hrec.targets w hw
    have hcontent := hafter w.1 hb hout
    rwa [hlast] at hcontent
  refine ⟨hret, ?_, ?_⟩
  · intro hasked b data hlast
    rw [← truncated_eq_iff, ← htarget b data hlast]
    exact hasked.targets b data hlast
  · intro hzeros
    refine ⟨fun b data hlast => ?_, fun b hb hout hlast => ?_⟩
    · rw [htarget b data hlast]
      exact (truncated_eq_iff data).mpr (hzeros b data hlast)
    · have hcontent := hafter b hb hout
      rw [hlast] at hcontent
      rw [hview.content hb]
      exact hcontent

/-- A formatted volume with a journal of 16 blocks at block 1. -/
def freshJournal : Journaled :=
  ⟨ixfsCacheInit none fun _ => zeroBlock, 1, 16, 0, 1, noTxn 0⟩

theorem freshJournal_mounted : freshJournal.Mounted where
  room := by decide
  fits := by decide
  shows := ⟨_, ixfsCacheInit_shows none _⟩
  uncached := by
    rintro i ⟨-, hi⟩
    have hempty : ¬ unused.toNat < (1 : UInt32).toNat + (16 : UInt32).toNat := by decide
    exact hempty hi
  table := by
    rintro b - ⟨t, ht, -⟩
    cases ht

/-- A block of ones up to the last 16 bytes, written to block 100. -/
theorem txnCommit_asAsked_short :
    AsAsked (ixfsTxnWrite (ixfsTxnBegin freshJournal) 100 (truncated oneBlock) true none).1
      [(100, truncated oneBlock)]
      (ixfsTxnCommit (fun _ => 0)
        (ixfsTxnWrite (ixfsTxnBegin freshJournal) 100 (truncated oneBlock) true none).1
        ⟨true, none, fun _ => quietHome, none⟩).1.vol := by
  refine (txnCommit_asAsked_iff (fun _ => 0) freshJournal freshJournal_mounted (by decide)
    (by decide) [.write 100 (truncated oneBlock) true none] ⟨⟨by decide, ?_⟩, trivial⟩ none
    none).2.mpr ?_
  · rintro ⟨-, hin⟩
    exact absurd hin (by decide)
  · intro b data hlast k hk
    obtain ⟨w, hw, rfl⟩ := Option.map_eq_some_iff.mp hlast
    obtain rfl := mem_singleton.mp (mem_of_find?_eq_some hw)
    exact if_neg (by omega)

/-- Of a block of ones, the last byte is lost. -/
theorem txnCommit_truncates :
    ¬ AsAsked (ixfsTxnWrite (ixfsTxnBegin freshJournal) 100 oneBlock true none).1
      [(100, oneBlock)]
      (ixfsTxnCommit (fun _ => 0)
        (ixfsTxnWrite (ixfsTxnBegin freshJournal) 100 oneBlock true none).1
        ⟨true, none, fun _ => quietHome, none⟩).1.vol := by
  intro h
  have hbyte : (ixfsTxnCommit (fun _ => 0)
      (ixfsTxnWrite (ixfsTxnBegin freshJournal) 100 oneBlock true none).1
      ⟨true, none, fun _ => quietHome, none⟩).1.vol.content 100 4095 = 0 := by decide
  rw [h.targets 100 oneBlock rfl] at hbyte
  exact absurd hbyte (by decide)

end ImpossibleOs.Ixfs
