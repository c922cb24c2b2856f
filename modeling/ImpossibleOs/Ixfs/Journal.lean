import ImpossibleOs.Ixfs.Cache
import ImpossibleOs.Lib.ByteMem

/-!
The write-ahead log (`src/kernel/fs/ixfs/ixfs_journal.c`).

Blocks of the journal are read and written past the block cache; a commit writes
the blocks of its transaction home through it. Slot 0 of the journal is its
header, and `j_head` goes round the others. As in the cache, what the device and
`kmalloc` do is an argument of each function.
-/

namespace ImpossibleOs.Ixfs

open LeBytes Nat UInt32

def journalMagic : UInt32 := 0x4A584653

def jeData : UInt32 := 1

def jeCommit : UInt32 := 2

def ixfsTxnMaxEntries : ℕ := 8

/-! ### Blocks of the journal -/

/-- The 32-bit field at offset `a` of a block. -/
def field (b : Block) (a : ℕ) : UInt32 :=
  UInt32.ofNat (ofLe ((List.range 4).map fun j => b (Fin.ofNat 4096 (a + j))))

def fieldBytes (fields : List UInt32) : List UInt8 := fields.flatMap fun f => le 4 f.toNat

/-- `struct ixfs_journal_header`, the rest of the block zero. -/
def headerBlock (head tail seq : UInt32) : Block :=
  fun k => (fieldBytes [journalMagic, head, tail, seq]).getD k 0

def ixfsJournalChecksum (data : Block) : UInt32 :=
  (List.range 4080).foldl (fun sum k => sum + (data (Fin.ofNat 4096 k)).toUInt32) 0

/-- `struct ixfs_journal_entry`: 16 bytes of fields, and the first 4080 bytes of `data`. -/
def journalEntry (txnId type target checksum : UInt32) (data : Block) : Block := fun k =>
  if k.val < 16 then (fieldBytes [txnId, type, target, checksum]).getD k 0
  else data (Fin.ofNat 4096 (k - 16))

def dataEntry (txnId target : UInt32) (data : Block) : Block :=
  journalEntry txnId jeData target (ixfsJournalChecksum data) data

def commitEntry (txnId : UInt32) : Block := journalEntry txnId jeCommit 0 0 fun _ => 0

/-- `final_buf` and `replay_buf`: `je_data`, and zeros where the entry has no room. -/
def homeBlock (entry : Block) : Block := fun k =>
  if k.val < 4080 then entry (Fin.ofNat 4096 (k + 16)) else 0

/-! ### The volume -/

/-- `vol->txn`; an entry is a target block with its journal slot. -/
structure Txn where
  active : Bool
  txnId : UInt32
  entries : List (UInt32 × UInt32)

/-- The fields of a volume that its journal uses. -/
structure Journaled where
  vol : IxfsVolume
  journalStart : UInt32
  journalBlocks : UInt32
  journalSeq : UInt32
  jHead : UInt32
  txn : Txn

def Journaled.setVol (v : Journaled) (vol : IxfsVolume) : Journaled := { v with vol := vol }

/-- `ixfs_disk_write` to a block of the device. -/
def Journaled.diskWrite (v : Journaled) (block : UInt32) (data : Block) (fault : Option Block) :
    Journaled :=
  v.setVol { v.vol with dev := ixfsDiskWrite v.vol.dev block data fault }

def slotAfter (blocks slot : UInt32) : UInt32 := if blocks ≤ slot + 1 then 1 else slot + 1

theorem slotAfter_of_lt {blocks slot : UInt32} (h : slot.toNat + 1 < blocks.toNat) :
    (slotAfter blocks slot).toNat = slot.toNat + 1 := by
  have hblocks := blocks.toNat_lt
  have hnext : (slot + 1).toNat = slot.toNat + 1 := by
    rw [UInt32.toNat_add, toNat_one, mod_eq_of_lt (by omega)]
  rw [slotAfter, if_neg, hnext]
  rw [le_iff_toNat_le, hnext]
  omega

theorem slotAfter_of_last {blocks slot : UInt32} (h : slot.toNat + 1 = blocks.toNat) :
    slotAfter blocks slot = 1 := by
  have hblocks := blocks.toNat_lt
  have hnext : (slot + 1).toNat = slot.toNat + 1 := by
    rw [UInt32.toNat_add, toNat_one, mod_eq_of_lt (by omega)]
  rw [slotAfter, if_pos]
  rw [le_iff_toNat_le, hnext]
  omega

def noTxn (txnId : UInt32) : Txn := ⟨false, txnId, []⟩

/-! ### Transactions -/

def ixfsTxnBegin (v : Journaled) : Journaled :=
  { v with journalSeq := v.journalSeq + 1, txn := ⟨true, v.journalSeq + 1, []⟩ }

/-- `ixfs_txn_write`. `memory` says whether the buffer was allocated. -/
def ixfsTxnWrite (v : Journaled) (target : UInt32) (data : Block) (memory : Bool)
    (fault : Option Block) : Journaled × Int :=
  if !v.txn.active || decide (ixfsTxnMaxEntries ≤ v.txn.entries.length) then (v, -1)
  else if !memory then (v, -1)
  else
    let written := v.diskWrite (v.journalStart + v.jHead) (dataEntry v.txn.txnId target data) fault
    if fault.isSome then (written, -1)
    else ({ written with
      jHead := slotAfter v.journalBlocks v.jHead
      txn := { v.txn with entries := v.txn.entries ++ [(target, v.jHead)] } }, 0)

/-- What happens when one entry is written home. -/
structure HomeOutcome where
  readFails : Bool
  noMemory : Bool
  evictFault : Option Block

/-- One turn of the loop of `ixfs_txn_commit`. -/
def homeWrite (crc32c : Block → UInt32) (start : UInt32) (homes : ℕ → HomeOutcome)
    (vol : IxfsVolume) (turn : (UInt32 × UInt32) × ℕ) : IxfsVolume :=
  let o := homes turn.2
  if o.readFails || o.noMemory then vol
  else
    ixfsWriteBlock crc32c vol turn.1.1 (homeBlock (vol.dev (start + turn.1.2))) o.evictFault

structure CommitOutcome where
  memory : Bool
  commitFault : Option Block
  homes : ℕ → HomeOutcome
  headerFault : Option Block

def ixfsTxnCommit (crc32c : Block → UInt32) (v : Journaled) (o : CommitOutcome) :
    Journaled × Int :=
  if !v.txn.active then (v, -1)
  else if !o.memory then (v, -1)
  else
    let v := { v.diskWrite (v.journalStart + v.jHead) (commitEntry v.txn.txnId) o.commitFault with
      jHead := slotAfter v.journalBlocks v.jHead }
    let v := v.setVol
      (v.txn.entries.zipIdx.foldl (homeWrite crc32c v.journalStart o.homes) v.vol)
    let v := v.diskWrite v.journalStart (headerBlock v.jHead v.jHead v.journalSeq) o.headerFault
    ({ v with txn := noTxn v.txn.txnId }, 0)

/-! ### Recovery -/

/-- What happens in one turn of the scan. -/
structure ReplayOutcome where
  readFails : Bool
  noMemory : Bool
  writeFault : Option Block

/-- The device after the entry in a slot has been looked at. -/
def replayEntry (dev : UInt32 → Block) (entry : Block) (o : ReplayOutcome) : UInt32 → Block :=
  if field entry 4 = jeData ∧ field entry 8 ≠ 0 ∧ o.noMemory = false then
    ixfsDiskWrite dev (field entry 8) (homeBlock entry) o.writeFault
  else dev

/-- The scan from `slot` to `head`: the device afterwards, and the slots that were read. -/
def recoverLoop (start blocks head : UInt32) (outcome : ℕ → ReplayOutcome) :
    (fuel turn : ℕ) → UInt32 → (UInt32 → Block) → Option ((UInt32 → Block) × List UInt32)
  | 0, _, _, _ => none
  | fuel + 1, turn, slot, dev =>
    if slot = head then some (dev, [])
    else if (outcome turn).readFails then some (dev, [slot])
    else
      (recoverLoop start blocks head outcome fuel (turn + 1) (slotAfter blocks slot)
        (replayEntry dev (dev (start + slot)) (outcome turn))).map fun r => (r.1, slot :: r.2)

structure RecoverOutcome where
  memory : Bool
  headerFails : Bool
  replay : ℕ → ReplayOutcome
  resetFault : Option Block

/-- The volume after a recovery, its return value and the slots that it read. -/
structure Recovered where
  vol : Journaled
  ret : Int
  slots : List UInt32

def Journaled.header (v : Journaled) : Block := v.vol.dev v.journalStart

def Journaled.magic (v : Journaled) : UInt32 := field v.header 0

def Journaled.head (v : Journaled) : UInt32 := field v.header 4

def Journaled.tail (v : Journaled) : UInt32 := field v.header 8

/-- The header with its tail at its head. -/
def emptied (header : Block) : Block := fun k =>
  if 8 ≤ k.val ∧ k.val < 12 then header (Fin.ofNat 4096 (k - 4)) else header k

def resetJournal (v : Journaled) (fault : Option Block) (dev : UInt32 → Block) : Journaled :=
  { v with
    jHead := v.head
    txn := noTxn v.txn.txnId
    vol := { v.vol with dev := ixfsDiskWrite dev v.journalStart (emptied v.header) fault } }

/-- `ixfs_journal_recover`; `none` when the scan is not at its end. -/
def ixfsJournalRecover (v : Journaled) (o : RecoverOutcome) (fuel : ℕ) : Option Recovered :=
  if !o.memory || o.headerFails then some ⟨v, -1, []⟩
  else if v.magic ≠ journalMagic then
    some ⟨{ v with jHead := 1, txn := noTxn v.txn.txnId }, 0, []⟩
  else
    (recoverLoop v.journalStart v.journalBlocks v.head o.replay fuel 0 v.tail v.vol.dev).map
      fun r => ⟨resetJournal v o.resetFault r.1, 0, r.2⟩

end ImpossibleOs.Ixfs
