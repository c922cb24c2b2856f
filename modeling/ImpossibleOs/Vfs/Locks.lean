import Mathlib.Data.UInt

/-!
Byte-range locks of a VFS node (`src/kernel/fs/vfs.c`).

The lock table of a node has a fixed number of slots. A request is refused
when it overlaps an active lock and one of the two is exclusive; the end of a
range is computed in 64 bits, and a range whose end wraps is not seen to
overlap what it covers.
-/

namespace ImpossibleOs.Vfs

open List Bool Nat

def vfsMaxLocks : ℕ := 4

def statusFileLockConflict : ℤ := 0xC0000054 - 2 ^ 32

structure VfsLock where
  offset : UInt64
  length : UInt64
  ownerId : UInt32
  exclusive : UInt8
  active : Bool
  deriving DecidableEq, Repr

/-- The overlap test, on ends computed in 64 bits. -/
def overlaps (offset length : UInt64) (l : VfsLock) : Bool :=
  !(offset + length ≤ l.offset || l.offset + l.length ≤ offset)

def lockConflicts (offset length : UInt64) (exclusive : UInt32) (l : VfsLock) : Bool :=
  l.active && overlaps offset length l && (exclusive ≠ 0 || l.exclusive ≠ 0)

/-- `vfs_lock_file`: the table and the return value. -/
def vfsLockFile (locks : List VfsLock) (ownerId : UInt32) (offset length : UInt64)
    (exclusive : UInt32) : List VfsLock × ℤ :=
  if length = 0 then (locks, -1)
  else if locks.any (lockConflicts offset length exclusive) then (locks, statusFileLockConflict)
  else
    match locks.findIdx? fun l => !l.active with
    | none => (locks, -1)
    | some i => (locks.set i ⟨offset, length, ownerId, exclusive.toUInt8, true⟩, 0)

def vfsUnlockFile (locks : List VfsLock) (ownerId : UInt32) (offset length : UInt64) :
    List VfsLock × ℤ :=
  match locks.findIdx? fun l =>
    l.active && l.ownerId = ownerId && l.offset = offset && l.length = length with
  | none => (locks, -1)
  | some i => (locks.modify i fun l => { l with active := false }, 0)

inductive LockCall where
  | lock (ownerId : UInt32) (offset length : UInt64) (exclusive : UInt32)
  | unlock (ownerId : UInt32) (offset length : UInt64)

def lockExec (locks : List VfsLock) : LockCall → List VfsLock
  | .lock ownerId offset length exclusive => (vfsLockFile locks ownerId offset length exclusive).1
  | .unlock ownerId offset length => (vfsUnlockFile locks ownerId offset length).1

/-- The table of a new node. -/
def noLocks : List VfsLock := List.replicate vfsMaxLocks ⟨0, 0, 0, 0, false⟩

def lockRun (calls : List LockCall) : List VfsLock := calls.foldl lockExec noLocks

/-! ### Exclusion -/

def VfsLock.Covers (l : VfsLock) (byte : ℕ) : Prop :=
  l.offset.toNat ≤ byte ∧ byte < l.offset.toNat + l.length.toNat

/-- No two active locks of different owners cover a common byte while one of them is
exclusive. -/
def Exclusion (locks : List VfsLock) : Prop :=
  ∀ l ∈ locks, ∀ l' ∈ locks, l.active → l'.active → l.ownerId ≠ l'.ownerId →
    (l.exclusive ≠ 0 ∨ l'.exclusive ≠ 0) → ∀ byte, ¬ (l.Covers byte ∧ l'.Covers byte)

/-- The range of a lock request ends within 64 bits. -/
def LockCall.Fits : LockCall → Prop
  | .lock _ offset length _ => offset.toNat + length.toNat < 2 ^ 64
  | .unlock _ _ _ => True

/-- Two locks that do not exclude each other. -/
def Compatible (l l' : VfsLock) : Prop :=
  l.active → l'.active → (l.exclusive ≠ 0 ∨ l'.exclusive ≠ 0) →
    ∀ byte, ¬ (l.Covers byte ∧ l'.Covers byte)

/-- What holds of the table in a run whose requests fit: slots are pairwise compatible, and the
ends of active locks do not wrap. -/
structure TableOk (locks : List VfsLock) : Prop where
  apart : ∀ (i j : ℕ) (l l' : VfsLock), i ≠ j → locks[i]? = some l → locks[j]? = some l' →
    Compatible l l'
  fits : ∀ l ∈ locks, l.active → l.offset.toNat + l.length.toNat < 2 ^ 64

theorem Compatible.symm {l l' : VfsLock} (h : Compatible l l') : Compatible l' l :=
  fun ha ha' he byte hb => h ha' ha he.symm byte hb.symm

theorem Compatible.of_inactive {l : VfsLock} (l' : VfsLock) (h : l.active = false) :
    Compatible l l' := by
  intro ha
  rw [h] at ha
  cases ha

theorem overlaps_of_common {offset length : UInt64} {l : VfsLock} {byte : ℕ}
    (hfit : offset.toNat + length.toNat < 2 ^ 64) (hfit' : l.offset.toNat + l.length.toNat < 2 ^ 64)
    (hnew : offset.toNat ≤ byte ∧ byte < offset.toNat + length.toNat) (hold : l.Covers byte) :
    overlaps offset length l = true := by
  have hend : (offset + length).toNat = offset.toNat + length.toNat := by
    rw [UInt64.toNat_add, mod_eq_of_lt hfit]
  have hend' : (l.offset + l.length).toNat = l.offset.toNat + l.length.toNat := by
    rw [UInt64.toNat_add, mod_eq_of_lt hfit']
  unfold VfsLock.Covers at hold
  simp only [overlaps, not_eq_true', or_eq_false_iff, decide_eq_false_iff_not,
    UInt64.le_iff_toNat_le, hend, hend']
  omega

variable {locks : List VfsLock}

section

variable (h : TableOk locks)
include h

theorem TableOk.exclusion : Exclusion locks := by
  intro l hl l' hl' ha ha' howner hex
  obtain ⟨i, hi⟩ := mem_iff_getElem?.mp hl
  obtain ⟨j, hj⟩ := mem_iff_getElem?.mp hl'
  refine h.apart i j l l' ?_ hi hj ha ha' hex
  rintro rfl
  rw [hi] at hj
  cases hj
  exact howner rfl

omit h in
theorem tableOk_noLocks : TableOk noLocks := by
  have hfree : ∀ l ∈ noLocks, l.active = false := by
    intro l hl
    rw [eq_of_mem_replicate hl]
  refine ⟨?_, ?_⟩
  · intro i j l l' _ hi _
    exact Compatible.of_inactive l' (hfree l (mem_of_getElem? hi))
  · intro l hl ha
    rw [hfree l hl] at ha
    cases ha

theorem TableOk.set (i : ℕ) {new : VfsLock}
    (hfit : new.active → new.offset.toNat + new.length.toNat < 2 ^ 64)
    (hnew : ∀ l ∈ locks, Compatible new l) : TableOk (locks.set i new) := by
  refine ⟨?_, ?_⟩
  · intro j k l l' hne hj hk
    rw [getElem?_set] at hj hk
    by_cases hij : i = j
    · have hik : i ≠ k := fun heq => hne (hij.symm.trans heq)
      rw [if_pos hij] at hj
      rw [if_neg hik] at hk
      split at hj
      · cases hj
        exact hnew l' (mem_of_getElem? hk)
      · cases hj
    · rw [if_neg hij] at hj
      by_cases hik : i = k
      · rw [if_pos hik] at hk
        split at hk
        · cases hk
          exact (hnew l (mem_of_getElem? hj)).symm
        · cases hk
      · rw [if_neg hik] at hk
        exact h.apart j k l l' hne hj hk
  · intro l hl ha
    rcases mem_or_eq_of_mem_set hl with hl | rfl
    · exact h.fits l hl ha
    · exact hfit ha

theorem TableOk.lock (ownerId : UInt32) {offset length : UInt64} (exclusive : UInt32)
    (hfit : offset.toNat + length.toNat < 2 ^ 64) :
    TableOk (vfsLockFile locks ownerId offset length exclusive).1 := by
  unfold vfsLockFile
  split
  · exact h
  split
  · exact h
  rename_i hnone
  rw [not_eq_true, any_eq_false] at hnone
  split
  · exact h
  · rename_i i _
    refine h.set i (fun _ => hfit) ?_
    intro l hl _ ha hex byte hbyte
    have hover := overlaps_of_common hfit (h.fits l hl ha) hbyte.1 hbyte.2
    refine hnone l hl ?_
    -- a request that is stored as exclusive was made as exclusive
    have hmode : exclusive ≠ 0 ∨ l.exclusive ≠ 0 := by
      rcases hex with hex | hex
      · left
        rintro rfl
        exact hex rfl
      · exact .inr hex
    simp only [lockConflicts, ha, hover, Bool.true_and, or_eq_true, decide_eq_true_eq]
    exact hmode

theorem TableOk.unlock (ownerId : UInt32)
    (offset length : UInt64) : TableOk (vfsUnlockFile locks ownerId offset length).1 := by
  unfold vfsUnlockFile
  split
  · exact h
  · rename_i i _
    rw [modify_eq_set_getElem?]
    cases hi : locks[i]? with
    | none => exact h
    | some l =>
      refine h.set i (fun ha => absurd ha (by simp)) ?_
      intro l' _
      exact Compatible.of_inactive l' rfl

theorem TableOk.exec {call : LockCall} (hfit : call.Fits) : TableOk (lockExec locks call) := by
  cases call with
  | lock ownerId offset length exclusive => exact h.lock ownerId exclusive hfit
  | unlock ownerId offset length => exact h.unlock ownerId offset length

end

/-- In a run whose lock requests all end within 64 bits, no two locks of different owners share a
byte while one of them is exclusive. -/
theorem lockRun_exclusion (calls : List LockCall) (hfit : ∀ call ∈ calls, call.Fits) :
    Exclusion (lockRun calls) := by
  have hrun : ∀ locks, TableOk locks → TableOk (calls.foldl lockExec locks) := by
    induction calls with
    | nil => exact fun _ h => h
    | cons call calls ih =>
      intro locks h
      exact ih (fun c hc => hfit c (mem_cons_of_mem call hc)) _
        (h.exec (hfit call mem_cons_self))
  exact (hrun noLocks tableOk_noLocks).exclusion

theorem lockRun_exclusion_sample :
    Exclusion (lockRun [.lock 1 0 10 1, .lock 2 10 10 1, .unlock 1 0 10, .lock 3 0 5 0]) := by
  apply lockRun_exclusion
  simp [LockCall.Fits]

/-- Owner 1 locks four bytes near the top of the range, owner 2 the last sixteen: the end of the
second range is 0, and both are granted. -/
theorem lockRun_top :
    ¬ Exclusion (lockRun [.lock 1 (2 ^ 64 - 8) 4 1, .lock 2 (2 ^ 64 - 16) 16 1]) := by
  have hrun : lockRun [.lock 1 (2 ^ 64 - 8) 4 1, .lock 2 (2 ^ 64 - 16) 16 1] =
      [⟨2 ^ 64 - 8, 4, 1, 1, true⟩, ⟨2 ^ 64 - 16, 16, 2, 1, true⟩, ⟨0, 0, 0, 0, false⟩,
        ⟨0, 0, 0, 0, false⟩] := by
    decide +kernel
  rw [hrun]
  intro h
  refine h _ mem_cons_self _ (mem_cons_of_mem _ mem_cons_self) rfl rfl (by decide)
    (.inl (by decide)) (2 ^ 64 - 8) ?_
  unfold VfsLock.Covers
  decide +kernel

end ImpossibleOs.Vfs
