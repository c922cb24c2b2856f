import ImpossibleOs.Lib.Refine
import ImpossibleOs.Ntfs.Journal

/-!
The analysis pass of recovery (`src/kernel/fs/ntfs/ntfs_recovery.c`), and whether it finds what
the journal wrote.

The pass takes the data area page by page, skips a page that does not begin with `RCRD`, and reads
records from offset 0x40 of the others on. The journal writes its records from the first byte of the
data area on and never writes a page header.
-/

namespace ImpossibleOs.Ntfs.Journal

open ByteMem
open ByteMem List

def rcrdMagic : ℕ := 0x44524352
def rcrdHeaderSize : ℕ := 0x40
def recoveryMaxTxns : ℕ := 256
def recoveryMaxRecords : ℕ := 65536

inductive TxnState where
  | active
  | committed
  | aborted
  deriving DecidableEq

structure RecoveryTxn where
  txnId : ℕ
  state : TxnState
  firstLsn : ℕ
  lastLsn : ℕ
  redoCount : ℕ
  undoCount : ℕ
  deriving DecidableEq

structure LogRecord where
  lsn : ℕ
  prevLsn : ℕ
  undoNextLsn : ℕ
  txnId : ℕ
  recordType : ℕ
  redoOp : ℕ
  undoOp : ℕ
  redoOff : ℕ
  redoLen : ℕ
  undoOff : ℕ
  undoLen : ℕ
  recordOff : ℕ
  targetLcn : ℕ
  dataLen : ℕ
  fileOffset : ℕ
  deriving DecidableEq

/-- The tables of the pass. -/
structure Analysis where
  txns : List RecoveryTxn
  records : List LogRecord
  total : ℕ
  deriving DecidableEq

def parseRecord (page : ByteMem) (pos pageOffset : ℕ) : LogRecord where
  lsn := readLE page pos 8
  prevLsn := readLE page (pos + 0x08) 8
  undoNextLsn := readLE page (pos + 0x10) 8
  txnId := readLE page (pos + 0x20) 4
  recordType := readLE page (pos + 0x1E) 2
  redoOp := readLE page (pos + 0x28) 2
  undoOp := readLE page (pos + 0x2A) 2
  redoOff := readLE page (pos + 0x2C) 2
  redoLen := readLE page (pos + 0x2E) 2
  undoOff := readLE page (pos + 0x30) 2
  undoLen := readLE page (pos + 0x32) 2
  recordOff := readLE page (pos + 0x38) 2
  targetLcn := readLE page (pos + 0x48) 8
  dataLen := readLE page (pos + 0x18) 4
  fileOffset := pageOffset + pos

/-- The size by which the scan moves on: 32-bit, rounded up to 8. -/
def recTotalSize (dataLen : ℕ) : ℕ := (logRecHeaderSize + dataLen + 7) % 2 ^ 32 / 8 * 8

/-- What a record does to its transaction's entry. -/
def noteRecord (txn : RecoveryTxn) (r : LogRecord) : RecoveryTxn :=
  let txn :=
    { txn with
      firstLsn := if txn.firstLsn = 0 ∨ r.lsn < txn.firstLsn then r.lsn else txn.firstLsn
      lastLsn := max r.lsn txn.lastLsn }
  if r.redoOp = ntfsLogOpNoop.toNat ∧ r.undoOp = ntfsLogOpNoop.toNat ∧
      r.recordType = logRecordTypeNormal then { txn with state := .committed }
  else if r.redoOp = ntfsLogOpCompensation.toNat then { txn with state := .aborted }
  else
    { txn with
      redoCount := if r.redoOp = ntfsLogOpNoop.toNat then txn.redoCount
        else (txn.redoCount + 1) % 2 ^ 16
      undoCount := if r.undoOp = ntfsLogOpNoop.toNat then txn.undoCount
        else (txn.undoCount + 1) % 2 ^ 16 }

/-- `find_or_create_txn` and the update of the entry; a table that is full stays. -/
def updateTxn (txns : List RecoveryTxn) (r : LogRecord) : List RecoveryTxn :=
  match txns.findIdx? fun txn => txn.txnId = r.txnId with
  | some i => txns.modify i fun txn => noteRecord txn r
  | none =>
    if recoveryMaxTxns ≤ txns.length then txns
    else txns ++ [noteRecord ⟨r.txnId, .active, 0, 0, 0, 0⟩ r]

/-- A record that was read. `max_records` bounds both counts. -/
def Analysis.add (a : Analysis) (checkpointLsn : ℕ) (r : LogRecord) : Analysis :=
  if checkpointLsn ≤ r.lsn then
    ⟨updateTxn a.txns r,
      if a.records.length < recoveryMaxRecords then a.records ++ [r] else a.records,
      a.total + 1⟩
  else { a with total := a.total + 1 }

/-- The records of one page from `pos` on. A record moves the position by eight at least, so
that the size of the page bounds the turns. -/
def scanRecords (g : Layout) (checkpointLsn : ℕ) (page : ByteMem) (pageOffset : ℕ) :
    ℕ → ℕ → Analysis → Analysis
  | 0, _, a => a
  | turns + 1, pos, a =>
    if g.pageSize < pos + logRecHeaderSize ∨ recoveryMaxRecords ≤ a.total then a
    else
      let r := parseRecord page pos pageOffset
      let size := recTotalSize r.dataLen
      if r.lsn = 0 then a
      else if size = 0 ∨ g.pageSize < size then a
      else scanRecords g checkpointLsn page pageOffset turns (pos + size) (a.add checkpointLsn r)

def pageAt (log : ByteMem) (offset : ℕ) : ByteMem := fun i => log (offset + i)

def scanPage (g : Layout) (checkpointLsn : ℕ) (log : ByteMem) (a : Analysis) (k : ℕ) : Analysis :=
  let pageOffset := logCircularOffset g (k * g.pageSize)
  let page := pageAt log pageOffset
  if readLE page 0 4 ≠ rcrdMagic then a
  else
    scanRecords g checkpointLsn (fixedPage g page) pageOffset
      g.pageSize rcrdHeaderSize a

/-- `analysis_pass`, where every page can be read. -/
def analysisPass (g : Layout) (checkpointLsn : ℕ) (log : ByteMem) : Analysis :=
  (List.range g.pages).foldl (scanPage g checkpointLsn log) ⟨[], [], 0⟩

variable {g : Layout} {s s' : State}

structure Found (log : ByteMem) (lr : LogRecord) (r : Logged) : Prop where
  lsn : lr.lsn = r.lsn.toNat
  txnId : lr.txnId = r.txnId.toNat
  redoOp : lr.redoOp = r.change.redoOp.toNat
  undoOp : lr.undoOp = r.change.undoOp.toNat
  redo : bytes log (lr.fileOffset + lr.redoOff) lr.redoLen = r.change.redo
  undo : bytes log (lr.fileOffset + lr.undoOff) lr.undoLen = r.change.undo

/-- Transactions that logged a record are in the table with the state they have. -/
structure Classified (a : Analysis) (s : State) : Prop where
  committed : ∀ txn ∈ s.txns, txn.committed = true →
    ∃ e ∈ a.txns, e.txnId = txn.txnId.toNat ∧ e.state = .committed
  active : ∀ txn ∈ s.txns, txn.committed = false → txn.aborted = false →
    (∃ r ∈ s.logged, r.txnId = txn.txnId) →
      ∃ e ∈ a.txns, e.txnId = txn.txnId.toNat ∧ e.state = .active

/-- The pass finds exactly the records that were logged, in order. -/
structure Agrees (g : Layout) (s : State) : Prop where
  intact : s.overrun = false
  records : List.Forall₂ (Found s.log) (analysisPass g 0 s.log).records s.logged
  classified : Classified (analysisPass g 0 s.log) s

/-- The pass finds them where they were written. -/
structure AgreesInPlace (g : Layout) (s : State) : Prop extends Agrees g s where
  place : List.Forall₂ (fun lr r => lr.fileOffset = r.fileOffset)
    (analysisPass g 0 s.log).records s.logged

theorem logCircularOffset_page {k : ℕ} (hk : k < g.pages) :
    logCircularOffset g (k * g.pageSize) = g.dataStart + k * g.pageSize := by
  have hlt : k * g.pageSize < g.dataSize := Nat.mul_lt_mul_of_pos_right hk g.pageSize_pos
  rw [logCircularOffset, if_neg (by omega), Nat.mod_eq_of_lt hlt]

/-- The first page header comes before the first record of a page. -/
def BehindHeader (g : Layout) (lr : LogRecord) : Prop :=
  ∃ k pos, lr.fileOffset = g.dataStart + k * g.pageSize + pos ∧ rcrdHeaderSize ≤ pos

variable {log : ByteMem} {a : Analysis} {page : ByteMem}

theorem Analysis.mem_add {checkpoint : ℕ} {r lr : LogRecord}
    (h : lr ∈ (a.add checkpoint r).records) : lr ∈ a.records ∨ lr = r := by
  unfold Analysis.add at h
  split at h
  · simp only at h
    split at h
    · rcases mem_append.mp h with h | h
      · exact .inl h
      · exact .inr (mem_singleton.mp h)
    · exact .inl h
  · exact .inl h

theorem scanRecords_behind {checkpoint k : ℕ} (turns pos : ℕ) (a : Analysis)
    (hpos : rcrdHeaderSize ≤ pos) (ha : ∀ lr ∈ a.records, BehindHeader g lr) :
    ∀ lr ∈ (scanRecords g checkpoint page (g.dataStart + k * g.pageSize) turns pos a).records,
      BehindHeader g lr := by
  induction turns generalizing pos a with
  | zero => exact ha
  | succ turns ih =>
    unfold scanRecords
    simp only
    split_ifs
    · exact ha
    · exact ha
    · exact ha
    · refine ih _ _ (by omega) ?_
      intro lr hlr
      rcases Analysis.mem_add hlr with hlr | rfl
      · exact ha lr hlr
      · exact ⟨k, pos, rfl, hpos⟩

theorem analysisPass_behind (g : Layout) (checkpoint : ℕ) (log : ByteMem) :
    ∀ lr ∈ (analysisPass g checkpoint log).records, BehindHeader g lr := by
  have hpages : ∀ (ks : List ℕ) (a : Analysis), (∀ k ∈ ks, k < g.pages) →
      (∀ lr ∈ a.records, BehindHeader g lr) →
      ∀ lr ∈ (ks.foldl (scanPage g checkpoint log) a).records, BehindHeader g lr := by
    intro ks
    induction ks with
    | nil => exact fun _ _ ha => ha
    | cons k ks ih =>
      intro a hks ha
      refine ih _ (fun j hj => hks j (mem_cons_of_mem k hj)) ?_
      unfold scanPage
      simp only
      split
      · exact ha
      · rw [logCircularOffset_page (hks k mem_cons_self)]
        exact scanRecords_behind _ _ a le_rfl ha
  exact hpages _ _ (fun k hk => mem_range.mp hk) (fun _ h => absurd h not_mem_nil)

/-! ### Pages without records -/

/-- A page in which the pass finds nothing. -/
def Bare (g : Layout) (log : ByteMem) (k : ℕ) : Prop :=
  let page := pageAt log (g.dataStart + k * g.pageSize)
  let fixed := fixedPage g page
  let size := recTotalSize (readLE fixed (rcrdHeaderSize + 0x18) 4)
  readLE page 0 4 ≠ rcrdMagic ∨ g.pageSize < rcrdHeaderSize + logRecHeaderSize ∨
    readLE fixed rcrdHeaderSize 8 = 0 ∨ size = 0 ∨ g.pageSize < size

theorem Analysis.add_ne_nil (checkpoint : ℕ) (r : LogRecord)
    (h : a.records ≠ []) : (a.add checkpoint r).records ≠ [] := by
  unfold Analysis.add
  split
  · simp only
    split
    · exact append_ne_nil_of_left_ne_nil h _
    · exact h
  · exact h

theorem scanRecords_ne_nil {checkpoint offset : ℕ} (turns pos : ℕ)
    (a : Analysis) (h : a.records ≠ []) :
    (scanRecords g checkpoint page offset turns pos a).records ≠ [] := by
  induction turns generalizing pos a with
  | zero => exact h
  | succ turns ih =>
    unfold scanRecords
    simp only
    split_ifs
    · exact h
    · exact h
    · exact h
    · exact ih _ _ (Analysis.add_ne_nil _ _ h)

theorem scanRecords_succ {checkpoint offset turns pos : ℕ}
    (hroom : ¬ (g.pageSize < pos + logRecHeaderSize ∨ recoveryMaxRecords ≤ a.total))
    (hlsn : readLE page pos 8 ≠ 0) (hsize : ¬ (recTotalSize (readLE page (pos + 0x18) 4) = 0 ∨
      g.pageSize < recTotalSize (readLE page (pos + 0x18) 4))) :
    scanRecords g checkpoint page offset (turns + 1) pos a =
      scanRecords g checkpoint page offset turns (pos + recTotalSize (readLE page (pos + 0x18) 4))
        (a.add checkpoint (parseRecord page pos offset)) := by
  rw [scanRecords, if_neg hroom]
  simp only
  rw [if_neg (show ¬ (parseRecord page pos offset).lsn = 0 from hlsn)]
  exact if_neg hsize

theorem scanPage_ne_nil {checkpoint : ℕ} (k : ℕ)
    (h : a.records ≠ []) : (scanPage g checkpoint log a k).records ≠ [] := by
  unfold scanPage
  simp only
  split
  · exact h
  · exact scanRecords_ne_nil _ _ a h

theorem scanPage_bare {k : ℕ} (hk : k < g.pages) (h : Bare g log k)
    (a : Analysis) : scanPage g 0 log a k = a := by
  obtain ⟨n, hn⟩ := Nat.exists_eq_add_of_lt g.pageSize_pos
  unfold scanPage
  rw [logCircularOffset_page hk]
  simp only
  split
  · rfl
  rename_i hmagic
  have hturns : g.pageSize = n + 1 := by omega
  rcases h with h | h | h | h
  · exact absurd h hmagic
  · rw [show scanRecords g 0 _ _ g.pageSize = scanRecords g 0 _ _ (n + 1) by rw [← hturns],
      scanRecords, if_pos (.inl h)]
  · rw [show scanRecords g 0 _ _ g.pageSize = scanRecords g 0 _ _ (n + 1) by rw [← hturns],
      scanRecords]
    simp only [parseRecord, h, if_true, ite_self]
  · rw [show scanRecords g 0 _ _ g.pageSize = scanRecords g 0 _ _ (n + 1) by rw [← hturns],
      scanRecords]
    simp only [parseRecord, h, if_true, ite_self]

theorem scanPage_framed {k : ℕ} (hk : k < g.pages) (h : ¬ Bare g log k) :
    (scanPage g 0 log ⟨[], [], 0⟩ k).records ≠ [] := by
  obtain ⟨n, hn⟩ := Nat.exists_eq_add_of_lt g.pageSize_pos
  have hturns : g.pageSize = n + 1 := by omega
  simp only [Bare, not_or, not_lt, ne_eq, Decidable.not_not] at h
  obtain ⟨hmagic, hroom, hlsn, hsize, hfit⟩ := h
  unfold scanPage
  rw [logCircularOffset_page hk]
  simp only [hmagic, ne_eq, not_true_eq_false, if_false]
  rw [show scanRecords g 0 _ _ g.pageSize = scanRecords g 0 _ _ (n + 1) by rw [← hturns],
    scanRecords_succ (by simp only [recoveryMaxRecords]; omega) hlsn
      (not_or.mpr ⟨hsize, not_lt.mpr hfit⟩)]
  refine scanRecords_ne_nil _ _ _ ?_
  simp [Analysis.add, recoveryMaxRecords]

theorem analysisPass_eq_nil (g : Layout) (log : ByteMem) :
    (analysisPass g 0 log).records = [] ↔ ∀ k < g.pages, Bare g log k := by
  have hlost : ∀ (ks : List ℕ) (a : Analysis), a.records ≠ [] →
      (ks.foldl (scanPage g 0 log) a).records ≠ [] := by
    intro ks
    induction ks with
    | nil => exact fun _ h => h
    | cons k ks ih => exact fun a h => ih _ (scanPage_ne_nil k h)
  have hpages : ∀ ks : List ℕ, (∀ k ∈ ks, k < g.pages) →
      ((ks.foldl (scanPage g 0 log) ⟨[], [], 0⟩).records = [] ↔ ∀ k ∈ ks, Bare g log k) := by
    intro ks
    induction ks with
    | nil => exact fun _ => ⟨fun _ _ h => absurd h not_mem_nil, fun _ => rfl⟩
    | cons k ks ih =>
      intro hks
      have hk := hks k mem_cons_self
      have hrest := ih fun j hj => hks j (mem_cons_of_mem k hj)
      rw [foldl_cons, forall_mem_cons]
      by_cases hbare : Bare g log k
      · rw [scanPage_bare hk hbare, hrest]
        exact ⟨fun h => ⟨hbare, h⟩, fun h => h.2⟩
      · exact ⟨fun h => absurd h (hlost ks _ (scanPage_framed hk hbare)),
          fun h => absurd h.1 hbare⟩
  rw [analysisPass, hpages _ fun k hk => mem_range.mp hk]
  simp only [mem_range]

/-! ### Calls that log nothing -/

/-- A call that writes no record: it begins a transaction, or is refused, or its write fails. -/
def Silent (s : State) : Call → Prop
  | .begin _ => True
  | .log t c _ written =>
    s.openTxn t = none ∨ logMaxDataSize < c.redo.length ∨ logMaxDataSize < c.undo.length ∨
      (written = false ∧
        logRecHeaderSize + c.redo.length + c.undo.length ≤ logDefaultPageSize)
  | .commit t _ written _ => s.openTxn t = none ∨ written = false
  | .abort t _ written => s.openTxn t = none ∨ written = false

/-- The log and what was logged are as before, and no transaction was committed. -/
structure Same (s s' : State) : Prop where
  log : s'.log = s.log
  writePos : s'.logWritePos = s.logWritePos
  overrun : s'.overrun = s.overrun
  logged : s'.logged = s.logged
  open_ : (∀ txn ∈ s.txns, txn.committed = false) → ∀ txn ∈ s'.txns, txn.committed = false

/-- One more record was logged, or the buffer was overrun. -/
def Wrote (g : Layout) (s s' : State) : Prop :=
  s'.overrun = true ∧ s'.logged = s.logged ∧ s'.logWritePos = s.logWritePos ∨
    ∃ r : Logged, s'.logged = s.logged ++ [r] ∧ r.fileOffset = logCircularOffset g s.logWritePos

theorem Same.refl (s : State) : Same s s := ⟨rfl, rfl, rfl, rfl, fun h => h⟩

theorem ntfsTxnLog_cases (g : Layout) (s : State) (t : ℕ) (c : Change) (stack : ByteMem)
    (written : Bool) :
    (Silent s (.log t c stack written) ∧ ntfsTxnLog g s t c stack written = (0, s)) ∨
      (¬ Silent s (.log t c stack written) ∧ Wrote g s (ntfsTxnLog g s t c stack written).2) := by
  unfold ntfsTxnLog
  split
  · rename_i hnone
    exact .inl ⟨.inl hnone, rfl⟩
  rename_i txn htxn
  unfold ntfsTxnLogOpen
  split_ifs with hlong hroom hwritten
  · exact .inl ⟨.inr (by tauto), rfl⟩
  · refine .inr ⟨?_, .inl ⟨rfl, rfl, rfl⟩⟩
    simp only [Silent, htxn, reduceCtorEq, false_or]
    omega
  · exact .inl ⟨.inr (.inr (.inr ⟨by simpa using hwritten, by omega⟩)), rfl⟩
  · refine .inr ⟨?_, .inr ⟨_, rfl, rfl⟩⟩
    simp only [Silent, htxn, reduceCtorEq, false_or]
    rcases not_or.mp hlong with ⟨h₁, h₂⟩
    rintro (h | h | h)
    · exact h₁ h
    · exact h₂ h
    · rw [h.1] at hwritten
      exact hwritten rfl

theorem mem_set_committed {txns : List Txn} {t : ℕ} {txn : Txn} (h : txn.committed = false)
    (hall : ∀ x ∈ txns, x.committed = false) : ∀ x ∈ txns.set t txn, x.committed = false := by
  intro x hx
  rcases mem_or_eq_of_mem_set hx with hx | rfl
  · exact hall x hx
  · exact h

theorem setTxn_same {t : ℕ} {txn : Txn} (h : (∀ x ∈ s.txns, x.committed = false) →
    txn.committed = false) : Same s (s.setTxn t txn) :=
  ⟨rfl, rfl, rfl, rfl, fun hall => mem_set_committed (h hall) hall⟩

theorem Wrote.of_fields (h : Wrote g s s') {s'' : State} (hover : s''.overrun = s'.overrun)
    (hlogged : s''.logged = s'.logged) (hpos : s''.logWritePos = s'.logWritePos) :
    Wrote g s s'' := by
  rcases h with ⟨h₁, h₂, h₃⟩ | ⟨r, h₁, h₂⟩
  · exact .inl ⟨hover.trans h₁, hlogged.trans h₂, hpos.trans h₃⟩
  · exact .inr ⟨r, hlogged.trans h₁, h₂⟩

theorem updateRestart_fields (g : Layout) (s : State) (lsn : UInt64) (io : RestartIo) :
    (updateRestart g s lsn io).2.overrun = s.overrun ∧
      (updateRestart g s lsn io).2.logged = s.logged ∧
      (updateRestart g s lsn io).2.logWritePos = s.logWritePos := by
  unfold updateRestart
  split
  · exact ⟨rfl, rfl, rfl⟩
  · exact ⟨rfl, rfl, rfl⟩

theorem silent_endChange (s : State) (t : ℕ) (op : UInt16) (stack : ByteMem) (written : Bool) :
    Silent s (.log t (endChange op) stack written) ↔ s.openTxn t = none ∨ written = false := by
  simp [Silent, endChange, logMaxDataSize, logRecHeaderSize, logDefaultPageSize]

theorem exec_cases (g : Layout) (h : s.overrun = false) (call : Call) :
    (Silent s call ∧ Same s (exec g s call)) ∨ (¬ Silent s call ∧ Wrote g s (exec g s call)) := by
  unfold exec
  rw [if_neg (by rw [h]; decide)]
  cases call with
  | begin memory =>
    refine .inl ⟨trivial, ?_⟩
    simp only [ntfsTxnBegin]
    split
    · refine ⟨rfl, rfl, rfl, rfl, fun hall txn htxn => ?_⟩
      rcases mem_append.mp htxn with htxn | htxn
      · exact hall txn htxn
      · rw [mem_singleton.mp htxn]
    · exact Same.refl s
  | log t c stack written =>
    rcases ntfsTxnLog_cases g s t c stack written with ⟨hsilent, hres⟩ | hwrote
    · refine .inl ⟨hsilent, ?_⟩
      simp only [hres]
      exact Same.refl s
    · exact .inr hwrote
  | commit t stack written io =>
    have hend := silent_endChange s t ntfsLogOpNoop stack written
    rcases ntfsTxnLog_cases g s t (endChange ntfsLogOpNoop) stack written with
      ⟨hsilent, hres⟩ | ⟨hloud, hwrote⟩
    · refine .inl ⟨hend.mp hsilent, ?_⟩
      simp only [ntfsTxnCommit, hres, if_true]
      exact Same.refl s
    · refine .inr ⟨fun hs => hloud (hend.mpr hs), ?_⟩
      simp only [ntfsTxnCommit]
      split
      · exact hwrote
      · obtain ⟨h₁, h₂, h₃⟩ := updateRestart_fields g
          (ntfsTxnLog g s t (endChange ntfsLogOpNoop) stack written).2
          (ntfsTxnLog g s t (endChange ntfsLogOpNoop) stack written).1 io
        split
        · exact hwrote.of_fields h₁ h₂ h₃
        · exact hwrote.of_fields h₁ h₂ h₃
  | abort t stack written =>
    have hend := silent_endChange s t ntfsLogOpCompensation stack written
    simp only [ntfsTxnAbort]
    split
    · rename_i hnone
      exact .inl ⟨.inl hnone, Same.refl s⟩
    rcases ntfsTxnLog_cases g s t (endChange ntfsLogOpCompensation) stack written with
      ⟨hsilent, hres⟩ | ⟨hloud, hwrote⟩
    · refine .inl ⟨hend.mp hsilent, ?_⟩
      rw [hres]
      split
      · rename_i txn htxn
        exact setTxn_same fun hall => hall txn (mem_of_getElem? htxn)
      · exact Same.refl s
    · refine .inr ⟨fun hs => hloud (hend.mpr hs), ?_⟩
      split
      · exact hwrote.of_fields rfl rfl rfl
      · exact hwrote

/-! ### Runs -/

/-- Nothing was logged. -/
structure Clean (s : State) : Prop where
  overrun : s.overrun = false
  logged : s.logged = []

/-- The first record lies at the first byte of the data area; before it, nothing has changed. -/
structure Started (g : Layout) (log : ByteMem) (s : State) : Prop where
  head : ∀ r ∈ s.logged.head?, r.fileOffset = g.dataStart
  empty : s.logged = [] → s.logWritePos = 0
  clean : Clean s → s.log = log ∧ ∀ txn ∈ s.txns, txn.committed = false

theorem exec_overrun (h : s.overrun = true) (call : Call) : exec g s call = s := by
  unfold exec
  rw [if_pos h]

theorem Wrote.not_clean (h : Wrote g s s') : ¬ Clean s' := by
  intro hclean
  rcases h with ⟨hover, _, _⟩ | ⟨r, hlogged, _⟩
  · rw [hclean.overrun] at hover
    cases hover
  · rw [hclean.logged] at hlogged
    exact absurd hlogged.symm (append_ne_nil_of_right_ne_nil _ (by simp))

theorem logCircularOffset_zero (g : Layout) : logCircularOffset g 0 = g.dataStart := by
  unfold logCircularOffset
  split <;> simp

theorem silent_iff (hs : Clean s) (call : Call) : Silent s call ↔ Clean (exec g s call) := by
  rcases exec_cases g hs.overrun call with ⟨hsilent, hsame⟩ | ⟨hloud, hwrote⟩
  · exact ⟨fun _ => ⟨hsame.overrun.trans hs.overrun, hsame.logged.trans hs.logged⟩,
      fun _ => hsilent⟩
  · exact ⟨fun h => absurd h hloud, fun h => absurd h hwrote.not_clean⟩

theorem not_clean_exec (hs : ¬ Clean s) (call : Call) : ¬ Clean (exec g s call) := by
  intro hclean
  cases hover : s.overrun with
  | true =>
    rw [exec_overrun hover] at hclean
    exact hs hclean
  | false =>
    rcases exec_cases g hover call with ⟨_, hsame⟩ | ⟨_, hwrote⟩
    · exact hs ⟨hover, hsame.logged.symm.trans hclean.logged⟩
    · exact hwrote.not_clean hclean

theorem Started.exec (h : Started g log s) (call : Call) : Started g log (exec g s call) := by
  cases hover : s.overrun with
  | true =>
    rw [exec_overrun hover]
    exact h
  | false =>
    rcases exec_cases g hover call with ⟨_, hsame⟩ | ⟨_, hwrote⟩
    · refine ⟨?_, ?_, ?_⟩
      · rw [hsame.logged]
        exact h.head
      · rw [hsame.logged, hsame.writePos]
        exact h.empty
      · intro hclean
        obtain ⟨hlog, hopen⟩ := h.clean ⟨hover, hsame.logged.symm.trans hclean.logged⟩
        exact ⟨hsame.log.trans hlog, hsame.open_ hopen⟩
    · rcases id hwrote with ⟨_, hlogged, hpos⟩ | ⟨r, hlogged, hplace⟩
      · refine ⟨?_, ?_, fun hclean => absurd hclean hwrote.not_clean⟩
        · rw [hlogged]
          exact h.head
        · rw [hlogged, hpos]
          exact h.empty
      · refine ⟨?_, ?_, fun hclean => absurd hclean hwrote.not_clean⟩
        · rw [hlogged]
          cases hl : s.logged with
          | nil =>
            rintro r' ⟨⟩
            rw [hplace, h.empty hl, logCircularOffset_zero]
          | cons r₀ rest =>
            intro r' hr'
            exact h.head r' (by rw [hl]; exact hr')
        · rw [hlogged]
          intro hnil
          exact absurd hnil (append_ne_nil_of_right_ne_nil _ (by simp))

theorem mounted_clean (log : ByteMem) (lsn : UInt64) (nextTxnId : UInt32) :
    Clean (mounted log lsn nextTxnId) := ⟨rfl, rfl⟩

theorem mounted_started (g : Layout) (log : ByteMem) (lsn : UInt64) (nextTxnId : UInt32) :
    Started g log (mounted log lsn nextTxnId) :=
  ⟨nofun, fun _ => rfl, fun _ => ⟨rfl, fun _ h => absurd h not_mem_nil⟩⟩

theorem run_started (g : Layout) (log : ByteMem) (lsn : UInt64) (nextTxnId : UInt32)
    (calls : List Call) : Started g log (calls.foldl (exec g) (mounted log lsn nextTxnId)) := by
  have hrun : ∀ (calls : List Call) (s : State), Started g log s →
      Started g log (calls.foldl (exec g) s) := by
    intro calls
    induction calls with
    | nil => exact fun _ h => h
    | cons call calls ih => exact fun s h => ih _ (h.exec call)
  exact hrun calls _ (mounted_started g log lsn nextTxnId)

theorem AgreesInPlace.logged_eq_nil (h : AgreesInPlace g s)
    (hstart : Started g log s) : s.logged = [] := by
  cases hl : s.logged with
  | nil => rfl
  | cons r rest =>
    have hplace := h.place
    rw [hl] at hplace
    have hhead : r.fileOffset = g.dataStart := hstart.head r (by rw [hl]; rfl)
    obtain ⟨lr, records, hlr, _, hrecords⟩ := forall₂_cons_right_iff.mp hplace
    have hmem : lr ∈ (analysisPass g 0 s.log).records := by
      rw [hrecords]
      exact mem_cons_self
    obtain ⟨k, pos, hoff, hpos⟩ := analysisPass_behind g 0 s.log lr hmem
    rw [hlr, hhead, rcrdHeaderSize] at *
    omega

theorem agreesInPlace_of_clean (h : Started g log s) (hclean : Clean s)
    (hnil : (analysisPass g 0 s.log).records = []) : AgreesInPlace g s where
  intact := hclean.overrun
  records := by
    rw [hnil, hclean.logged]
    exact List.Forall₂.nil
  classified :=
    { committed := fun txn htxn hc => by
        rw [(h.clean hclean).2 txn htxn] at hc
        cases hc
      active := fun txn _ _ _ hr => by
        obtain ⟨r, hr, _⟩ := hr
        rw [hclean.logged] at hr
        cases hr }
  place := by
    rw [hnil, hclean.logged]
    exact List.Forall₂.nil

/-- The pass finds the records of a run in their places exactly when there are none, neither
logged nor left in the log from before. Their contents it finds no more than that, unless a page
begins with the header's magic, which only a payload or an older log can put there. -/
theorem analysis_agrees_iff (g : Layout) (log : ByteMem) (lsn : UInt64) (nextTxnId : UInt32)
    (calls : List Call) : (AgreesInPlace g (calls.foldl (exec g) (mounted log lsn nextTxnId)) ↔
      Refine.Meets (exec g) Silent (mounted log lsn nextTxnId) calls ∧
        ∀ k < g.pages, Bare g log k) ∧
    ((∀ k < g.pages, readLE (pageAt (calls.foldl (exec g) (mounted log lsn nextTxnId)).log
        (g.dataStart + k * g.pageSize)) 0 4 ≠ rcrdMagic) →
      (Agrees g (calls.foldl (exec g) (mounted log lsn nextTxnId)) ↔
        Refine.Meets (exec g) Silent (mounted log lsn nextTxnId) calls)) := by
  have hstart := run_started g log lsn nextTxnId calls
  have hmeets : Refine.Meets (exec g) Silent (mounted log lsn nextTxnId) calls ↔
      Clean (calls.foldl (exec g) (mounted log lsn nextTxnId)) :=
    Refine.Meets.iff_keeps Clean (fun _ call hs => silent_iff hs call)
      (fun _ call hs => not_clean_exec hs call) (mounted_clean log lsn nextTxnId)
  rw [hmeets]
  generalize calls.foldl (exec g) (mounted log lsn nextTxnId) = s at hstart ⊢
  refine ⟨⟨fun h => ?_, fun ⟨hclean, hbare⟩ => ?_⟩, fun hbare => ⟨fun h => ?_, fun hclean => ?_⟩⟩
  · have hlogged := h.logged_eq_nil hstart
    have hclean : Clean s := ⟨h.intact, hlogged⟩
    refine ⟨hclean, ?_⟩
    have hrecords := h.records
    rw [hlogged] at hrecords
    rw [← (hstart.clean hclean).1]
    exact (analysisPass_eq_nil g s.log).mp (forall₂_nil_right_iff.mp hrecords)
  · refine agreesInPlace_of_clean hstart hclean ((analysisPass_eq_nil g s.log).mpr ?_)
    rw [(hstart.clean hclean).1]
    exact hbare
  · have hnil := (analysisPass_eq_nil g s.log).mpr fun k hk => .inl (hbare k hk)
    have hrecords := h.records
    rw [hnil] at hrecords
    exact ⟨h.intact, forall₂_nil_left_iff.mp hrecords⟩
  · have hnil := (analysisPass_eq_nil g s.log).mpr fun k hk => .inl (hbare k hk)
    exact (agreesInPlace_of_clean hstart hclean hnil).toAgrees

/-- A log of four empty pages. -/
def smallLayout : Layout := ⟨4096, 4, 512, by decide, by decide⟩

/-- One transaction with one record, committed. -/
def oneCommit : List Call :=
  [.begin true, .log 0 ⟨7, [1, 2, 3], 8, [4], 30, 0x10⟩ (fun _ => 0) true,
    .commit 0 (fun _ => 0) true ⟨true, true, true, true⟩]

/-- The pass finds no record of a committed transaction. -/
theorem oneCommit_lost :
    ¬ Agrees smallLayout (oneCommit.foldl (exec smallLayout) (mounted (fun _ => 0) 5 0)) := by
  intro h
  have hlogged : (oneCommit.foldl (exec smallLayout)
      (mounted (fun _ => 0) 5 0)).logged.length = 2 := by decide
  have hnil : (analysisPass smallLayout 0 (oneCommit.foldl (exec smallLayout)
      (mounted (fun _ => 0) 5 0)).log).records.length = 0 := by
    decide +kernel
  have hlen := h.records.length_eq
  omega

end ImpossibleOs.Ntfs.Journal
