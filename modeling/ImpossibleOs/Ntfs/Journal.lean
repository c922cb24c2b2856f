import ImpossibleOs.Ntfs.Fixup
import Mathlib.Data.UInt

/-!
The `$LogFile` journal (`src/kernel/fs/ntfs/ntfs_journal.c`).

The log is a flat array of bytes: two restart pages, then the data area. Records are copied from a
buffer of one page on the stack to the data area, at a position that only grows.
-/

namespace ImpossibleOs.Ntfs.Journal

open ByteMem

/-! ### The log -/

def logDefaultPageSize : ℕ := 4096
def logRecHeaderSize : ℕ := 0x50
def logMaxDataSize : ℕ := 3900
def ntfsLogOpNoop : UInt16 := 0
def ntfsLogOpCompensation : UInt16 := 1
def logRecordTypeNormal : ℕ := 1

/-- Where things lie in `$LogFile`. The page buffers of the source hold one default page. -/
structure Layout where
  pageSize : ℕ
  pages : ℕ
  bytesPerSector : ℕ
  pageSize_pos : 0 < pageSize
  pageSize_le : pageSize ≤ logDefaultPageSize

def Layout.dataStart (g : Layout) : ℕ := 2 * g.pageSize

def Layout.dataSize (g : Layout) : ℕ := g.pages * g.pageSize

def logCircularOffset (g : Layout) (pos : ℕ) : ℕ :=
  if g.dataSize = 0 then g.dataStart else g.dataStart + pos % g.dataSize

/-- `log_write`; a write that fails leaves the log as it was. -/
def logWrite (log : ByteMem) (offset : ℕ) (data : List UInt8) (written : Bool) : ByteMem :=
  if written then storeBytes log offset data else log

/-- The page after `ntfs_apply_fixup`, whose result is not looked at. -/
def fixedPage (g : Layout) (page : ByteMem) : ByteMem :=
  match fixupBuffer page g.pageSize g.bytesPerSector with
  | .ok p => p
  | .error p => p

/-- The page after `ntfs_regenerate_fixup`, whose result is not looked at. -/
def stampedPage (g : Layout) (page : ByteMem) : ByteMem :=
  (regenerateFixup page g.pageSize g.bytesPerSector).getD page

/-! ### Transactions -/

structure Txn where
  startLsn : UInt64
  lastLsn : UInt64
  txnId : UInt32
  recordCount : UInt32
  committed : Bool
  aborted : Bool
  deriving DecidableEq

/-- The payload of a record and what it is for. -/
structure Change where
  redoOp : UInt16
  redo : List UInt8
  undoOp : UInt16
  undo : List UInt8
  targetMft : UInt64
  targetAttrOff : UInt16

/-- A record that `ntfs_txn_log` has written, and where. -/
structure Logged where
  lsn : UInt64
  txnId : UInt32
  change : Change
  fileOffset : ℕ

/-- The volume's journal and the open transactions. `overrun` is set when a record was copied
past the end of its buffer, after which nothing is known; `logged` is kept for the statements
only. -/
structure State where
  log : ByteMem
  logCurrentLsn : UInt64
  logWritePos : ℕ
  logNextTxnId : UInt32
  txns : List Txn
  overrun : Bool
  logged : List Logged

def State.setTxn (s : State) (t : ℕ) (txn : Txn) : State := { s with txns := s.txns.set t txn }

/-- `ntfs_txn_begin`; without memory there is no transaction. -/
def ntfsTxnBegin (s : State) (memory : Bool) : State :=
  if memory then
    let txn : Txn := ⟨s.logCurrentLsn, 0, s.logNextTxnId + 1, 0, false, false⟩
    { s with logNextTxnId := s.logNextTxnId + 1, txns := s.txns ++ [txn] }
  else s

/-- The fields of a record header: offset, width, value. -/
def recordFields (txn : Txn) (lsn : UInt64) (c : Change) : List (ℕ × ℕ × ℕ) :=
  [(0x00, 8, lsn.toNat), (0x08, 8, txn.lastLsn.toNat), (0x10, 8, txn.lastLsn.toNat),
    (0x18, 4, logRecHeaderSize - 0x28 + c.redo.length + c.undo.length), (0x1C, 2, 0),
    (0x1E, 2, logRecordTypeNormal), (0x20, 4, txn.txnId.toNat), (0x24, 2, 0),
    (0x28, 2, c.redoOp.toNat), (0x2A, 2, c.undoOp.toNat), (0x2C, 2, logRecHeaderSize),
    (0x2E, 2, c.redo.length), (0x30, 2, logRecHeaderSize + c.redo.length),
    (0x32, 2, c.undo.length), (0x34, 2, 0), (0x36, 2, 0), (0x38, 2, c.targetAttrOff.toNat),
    (0x3A, 2, 0), (0x3C, 2, 0), (0x40, 8, 0), (0x48, 8, c.targetMft.toNat)]

/-- The record in its buffer, which held `stack` before. -/
def recordBuffer (stack : ByteMem) (txn : Txn) (lsn : UInt64) (c : Change) : ByteMem :=
  let header := (recordFields txn lsn c).foldl (fun m f => writeLE m f.1 f.2.1 f.2.2)
    (zeroRange stack 0 logRecHeaderSize)
  storeBytes (storeBytes header logRecHeaderSize c.redo)
    (logRecHeaderSize + c.redo.length) c.undo

def recordSize (c : Change) : ℕ :=
  (logRecHeaderSize + c.redo.length + c.undo.length + 7) / 8 * 8

/-- `ntfs_txn_log` for a transaction that is open: the LSN, 0 on failure. Each length is checked
by itself, so that both together may overrun the buffer. -/
def ntfsTxnLogOpen (g : Layout) (s : State) (t : ℕ) (txn : Txn) (c : Change) (stack : ByteMem)
    (written : Bool) : UInt64 × State :=
  if logMaxDataSize < c.redo.length ∨ logMaxDataSize < c.undo.length then (0, s)
  else if logDefaultPageSize < logRecHeaderSize + c.redo.length + c.undo.length then
    (0, { s with overrun := true })
  else
    let newLsn := s.logCurrentLsn + 1
    let record := recordBuffer stack txn newLsn c
    let writeOffset := logCircularOffset g s.logWritePos
    if !written then (0, s)
    else
      let s :=
        { s with
          log := storeBytes s.log writeOffset (bytes record 0 (recordSize c))
          logWritePos := s.logWritePos + recordSize c
          logCurrentLsn := newLsn
          logged := s.logged ++ [(⟨newLsn, txn.txnId, c, writeOffset⟩ : Logged)] }
      (newLsn, s.setTxn t { txn with lastLsn := newLsn, recordCount := txn.recordCount + 1 })

/-- The transaction, if it was begun and is neither committed nor aborted. -/
def State.openTxn (s : State) (t : ℕ) : Option Txn :=
  s.txns[t]?.filter fun txn => !txn.committed && !txn.aborted

def ntfsTxnLog (g : Layout) (s : State) (t : ℕ) (c : Change) (stack : ByteMem)
    (written : Bool) : UInt64 × State :=
  match s.openTxn t with
  | none => (0, s)
  | some txn => ntfsTxnLogOpen g s t txn c stack written

/-- What the update of the restart pages meets: a page for the buffer, the read, the writes. -/
structure RestartIo where
  memory : Bool
  read : Bool
  first : Bool
  second : Bool

/-- Set `CurrentLsn` in a restart page. -/
def stampLsn (g : Layout) (page : ByteMem) (offset : ℕ) (lsn : UInt64) : ByteMem :=
  stampedPage g (writeLE page offset 8 lsn.toNat)

/-- The part of `ntfs_txn_commit` after the commit record: whether it answers `NTFS_OK`. -/
def updateRestart (g : Layout) (s : State) (lsn : UInt64) (io : RestartIo) : Bool × State :=
  if !io.memory || !io.read then (false, s)
  else
    let page := fixedPage g s.log
    let restart := readLE page 0x10 2
    let offset := if g.pageSize ≤ restart then 0x1E else restart
    let page := stampLsn g page offset lsn
    let log := logWrite s.log 0 (bytes page 0 g.pageSize) io.first
    let page := stampLsn g (fixedPage g page) offset lsn
    (true, { s with log := logWrite log g.pageSize (bytes page 0 g.pageSize) io.second })

/-- The record that ends a transaction. -/
def endChange (op : UInt16) : Change := ⟨op, [], ntfsLogOpNoop, [], 0, 0⟩

def ntfsTxnCommit (g : Layout) (s : State) (t : ℕ) (stack : ByteMem) (written : Bool)
    (io : RestartIo) : State :=
  let res := ntfsTxnLog g s t (endChange ntfsLogOpNoop) stack written
  if res.1 = 0 then res.2
  else
    let upd := updateRestart g res.2 res.1 io
    match upd.1, upd.2.txns[t]? with
    | true, some txn => upd.2.setTxn t { txn with committed := true }
    | _, _ => upd.2

def ntfsTxnAbort (g : Layout) (s : State) (t : ℕ) (stack : ByteMem) (written : Bool) : State :=
  match s.openTxn t with
  | none => s
  | some _ =>
    let s := (ntfsTxnLog g s t (endChange ntfsLogOpCompensation) stack written).2
    match s.txns[t]? with
    | some txn => s.setTxn t { txn with aborted := true }
    | none => s

/-- The calls, with what their surroundings do: memory, what the stack held, the device. -/
inductive Call where
  | begin (memory : Bool)
  | log (t : ℕ) (change : Change) (stack : ByteMem) (written : Bool)
  | commit (t : ℕ) (stack : ByteMem) (written : Bool) (io : RestartIo)
  | abort (t : ℕ) (stack : ByteMem) (written : Bool)

def exec (g : Layout) (s : State) (call : Call) : State :=
  if s.overrun then s
  else
    match call with
    | .begin memory => ntfsTxnBegin s memory
    | .log t change stack written => (ntfsTxnLog g s t change stack written).2
    | .commit t stack written io => ntfsTxnCommit g s t stack written io
    | .abort t stack written => ntfsTxnAbort g s t stack written

/-- The journal after `ntfs_journal_init`. -/
def mounted (log : ByteMem) (lsn : UInt64) (nextTxnId : UInt32) : State :=
  ⟨log, lsn, 0, nextTxnId, [], false, []⟩

end ImpossibleOs.Ntfs.Journal
