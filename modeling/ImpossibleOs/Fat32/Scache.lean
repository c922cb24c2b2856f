import Mathlib.Data.Fintype.Basic
import ImpossibleOs.Lib.Refine
import ImpossibleOs.Lib.WriteBack

/-!
The sector cache (`src/kernel/fs/fat32/fat32_core.c`).

Single sectors go through the cache, runs of sectors go past it and are
reconciled with it. Every device operation may fail. Its outcome is an
argument: `none` when it went well, and otherwise what it left, in the sectors
that were to be written or in the buffer that was to be filled.
-/

namespace ImpossibleOs.Fat32

open Function

abbrev Sector := Fin 512 → UInt8

def scacheSlots : ℕ := 64

structure ScacheEntry where
  sector : UInt32
  valid : Bool
  dirty : Bool
  lastAccess : UInt32
  data : Sector

/-- The cache of a volume and the device below it. -/
structure Scache where
  cache : Fin scacheSlots → ScacheEntry
  cacheAccess : UInt32
  dirtySinceSync : Bool
  dev : ℕ → Sector

def Scache.setEntry (s : Scache) (i : Fin scacheSlots) (e : ScacheEntry) : Scache :=
  { s with cache := update s.cache i e }

/-- `blkdev_write` of `count` sectors; with a fault the sectors hold what the fault left. -/
def blkdevWrite (dev : ℕ → Sector) (lba count : ℕ) (buf : ℕ → Sector)
    (fault : Option (ℕ → Sector)) : ℕ → Sector :=
  fun k => if lba ≤ k ∧ k < lba + count then fault.getD buf (k - lba) else dev k

def blkdevWriteOne (dev : ℕ → Sector) (lba : ℕ) (data : Sector) (fault : Option Sector) :
    ℕ → Sector :=
  update dev lba (fault.getD data)

/-! ### Slots -/

/-- `scache_lookup`: the slot of the sector, which becomes the most recent one. -/
def scacheFind (s : Scache) (sector : UInt32) : Option (Fin scacheSlots) :=
  (List.finRange scacheSlots).find? fun i => (s.cache i).valid && (s.cache i).sector == sector

def scacheTouch (s : Scache) (i : Fin scacheSlots) : Scache :=
  { s.setEntry i { s.cache i with lastAccess := s.cacheAccess + 1 } with
    cacheAccess := s.cacheAccess + 1 }

def lruIdx (s : Scache) : Fin scacheSlots :=
  ((List.finRange scacheSlots).foldl (fun (best : Fin scacheSlots × UInt32) i =>
    if (s.cache i).lastAccess < best.2 then (i, (s.cache i).lastAccess) else best)
    (⟨0, by decide⟩, 0xFFFFFFFF)).1

def scacheFree (s : Scache) : Option (Fin scacheSlots) :=
  (List.finRange scacheSlots).find? fun i => !(s.cache i).valid

/-- The write of a dirty entry whose result is not looked at. -/
def writeOut (s : Scache) (i : Fin scacheSlots) (fault : Option Sector) : Scache :=
  { s.setEntry i { s.cache i with dirty := false } with
    dev := blkdevWriteOne s.dev (s.cache i).sector.toNat (s.cache i).data fault
    dirtySinceSync := true }

/-- `scache_evict`: an invalid slot, or else the oldest one. -/
def scacheEvict (s : Scache) (fault : Option Sector) : Scache × Fin scacheSlots :=
  match scacheFree s with
  | some i => (s, i)
  | none =>
    let i := lruIdx s
    let s := if (s.cache i).dirty then writeOut s i fault else s
    (s.setEntry i { s.cache i with valid := false }, i)

/-! ### Flush and invalidation -/

def flushSlot (faults : Fin scacheSlots → Option Sector) (st : Scache × Int)
    (i : Fin scacheSlots) : Scache × Int :=
  let s := st.1
  if (s.cache i).valid && (s.cache i).dirty then
    match faults i with
    | none => (writeOut s i none, st.2)
    | some left =>
      let e := s.cache i
      ({ s with dev := blkdevWriteOne s.dev e.sector.toNat e.data (some left) }, -1)
  else st

def scacheFlush (s : Scache) (faults : Fin scacheSlots → Option Sector) : Scache × Int :=
  (List.finRange scacheSlots).foldl (flushSlot faults) (s, 0)

def invalidateSlot (faults : Fin scacheSlots → Option Sector) (s : Scache)
    (i : Fin scacheSlots) : Scache :=
  let dev := if (s.cache i).valid && (s.cache i).dirty
    then blkdevWriteOne s.dev (s.cache i).sector.toNat (s.cache i).data (faults i) else s.dev
  { s.setEntry i { s.cache i with valid := false, dirty := false } with dev := dev }

def scacheInvalidate (s : Scache) (faults : Fin scacheSlots → Option Sector) : Scache :=
  { (List.finRange scacheSlots).foldl (invalidateSlot faults) s with cacheAccess := 0 }

/-- `fat32_read_sector`, with the outcomes of the eviction's write and of the read. -/
def fat32ReadSector (s : Scache) (sector : UInt32) (evictFault readFault : Option Sector) :
    Scache × Option Sector :=
  match scacheFind s sector with
  | some i => (scacheTouch s i, some (s.cache i).data)
  | none =>
    let (s, i) := scacheEvict s evictFault
    match readFault with
    | some left => (s.setEntry i { s.cache i with data := left }, none)
    | none =>
      let data := s.dev sector.toNat
      ({ s.setEntry i ⟨sector, true, false, s.cacheAccess + 1, data⟩ with
          cacheAccess := s.cacheAccess + 1 }, some data)

/-- `fat32_write_sector`, which always returns 0. -/
def fat32WriteSector (s : Scache) (sector : UInt32) (data : Sector) (evictFault : Option Sector) :
    Scache :=
  let (s, i) := match scacheFind s sector with
    | some i => (scacheTouch s i, i)
    | none => scacheEvict s evictFault
  { s.setEntry i ⟨sector, true, true, s.cacheAccess + 1, data⟩ with
    cacheAccess := s.cacheAccess + 1 }

/-! ### Runs of sectors -/

def ScacheEntry.inRange (e : ScacheEntry) (sector count : UInt32) : Bool :=
  e.valid && sector ≤ e.sector && e.sector < sector + count

/-- The place of a sector in the caller's buffer; its byte offset is a 32-bit product. -/
def bufIndex (e : ScacheEntry) (sector : UInt32) : ℕ := ((e.sector - sector) * 512).toNat / 512

def overlay (s : Scache) (sector count : UInt32) (buf : ℕ → Sector) (i : Fin scacheSlots) :
    ℕ → Sector :=
  if (s.cache i).inRange sector count
  then update buf (bufIndex (s.cache i) sector) (s.cache i).data else buf

/-- `fat32_read_sectors_multi`; the buffer when it succeeds. -/
def fat32ReadSectorsMulti (s : Scache) (sector count : UInt32) (failed : Bool) :
    Option (ℕ → Sector) :=
  if failed then none
  else some ((List.finRange scacheSlots).foldl (overlay s sector count)
    fun k => s.dev (sector.toNat + k))

def syncEntry (sector count : UInt32) (buf : ℕ → Sector) (e : ScacheEntry) : ScacheEntry :=
  if e.inRange sector count then { e with data := buf (bufIndex e sector), dirty := false } else e

def fat32WriteSectorsMulti (s : Scache) (sector count : UInt32) (buf : ℕ → Sector)
    (fault : Option (ℕ → Sector)) : Scache × Int :=
  let dev := blkdevWrite s.dev sector.toNat count.toNat buf fault
  match fault with
  | some _ => ({ s with dev := dev }, -1)
  | none =>
    ({ s with
        dev := dev
        cache := fun i => syncEntry sector count buf (s.cache i)
        dirtySinceSync := true }, 0)

inductive ScacheCall where
  | readSector (sector : UInt32) (evictFault readFault : Option Sector)
  | writeSector (sector : UInt32) (data : Sector) (evictFault : Option Sector)
  | readMulti (sector count : UInt32) (failed : Bool)
  | writeMulti (sector count : UInt32) (buf : ℕ → Sector) (fault : Option (ℕ → Sector))
  | evict (fault : Option Sector)
  | flush (faults : Fin scacheSlots → Option Sector)
  | invalidate (faults : Fin scacheSlots → Option Sector)

def scacheExec (s : Scache) : ScacheCall → Scache
  | .readSector sector evictFault readFault => (fat32ReadSector s sector evictFault readFault).1
  | .writeSector sector data evictFault => fat32WriteSector s sector data evictFault
  | .readMulti _ _ _ => s
  | .writeMulti sector count buf fault => (fat32WriteSectorsMulti s sector count buf fault).1
  | .evict fault => (scacheEvict s fault).1
  | .flush faults => (scacheFlush s faults).1
  | .invalidate faults => scacheInvalidate s faults

/-- A mounted volume: no slot is valid. -/
def scacheInit (dev : ℕ → Sector) : Scache :=
  ⟨fun _ => ⟨0, false, false, 0, fun _ => 0⟩, 0, false, dev⟩

/-- The contents after a call: what it accepted, over what was there. -/
def accept (view : ℕ → Sector) : ScacheCall → ℕ → Sector
  | .writeSector sector data _ => update view sector.toNat data
  | .writeMulti sector count buf none => blkdevWrite view sector.toNat count.toNat buf none
  | _ => view

/-- A successful read returns the contents, and after a successful flush they are on the
device. -/
def Answers (s : Scache) (view : ℕ → Sector) : ScacheCall → Prop
  | .readSector sector evictFault readFault =>
    ∀ data, (fat32ReadSector s sector evictFault readFault).2 = some data →
      data = view sector.toNat
  | .readMulti sector count failed =>
    ∀ buf, fat32ReadSectorsMulti s sector count failed = some buf →
      ∀ k < count.toNat, buf k = view (sector.toNat + k)
  | .flush faults => (scacheFlush s faults).2 = 0 → (scacheFlush s faults).1.dev = view
  | _ => True

end ImpossibleOs.Fat32
