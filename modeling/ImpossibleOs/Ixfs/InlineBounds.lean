import ImpossibleOs.Ixfs.AllocRun
import ImpossibleOs.Ixfs.File
import ImpossibleOs.Lib.Loop

/-!
The inline data of a file stays in its 48 bytes.

A file that is inline has a size of at most 48, and every copy trusts the size.
A truncate can make an inline file longer than its area, and the arithmetic of
offsets and sizes has 32 bits; runs that avoid both stay inside.
-/

namespace ImpossibleOs.Ixfs

open ByteMem List Nat

variable {m m' : ByteMem} {f : OpenFile}

/-! ### The flags -/

theorem isInline_congr (h : m' 81 = m 81) : isInline m' ↔ isInline m := by
  have hread : readLE m' 81 1 = readLE m 81 1 := by
    rw [readLE, readLE, h]
    rfl
  rw [isInline, isInline, hread]

theorem not_isInline_clearInline (m : ByteMem) : ¬ isInline (clearInline m) := by
  rw [isInline, clearInline, readLE_writeLE_same, mod_eq_of_lt (b := 256 ^ 1)
    (Nat.lt_of_le_of_lt and_le_right (by decide)), Nat.and_assoc]
  exact not_not_intro (and_zero _)

theorem setExtentAt_flags {slot : ℕ} (hslot : slot < ixfsInlineExtents) (e : Extent) :
    setExtentAt m slot e 81 = m 81 := by
  unfold ixfsInlineExtents at hslot
  unfold setExtentAt extentAddr
  rw [writeLE_of_lt (by omega), writeLE_of_lt (by omega)]

theorem putExtents_flags (es : List Extent) : putExtents m es 81 = m 81 := by
  refine Loop.foldl_range (fun _ (m' : ByteMem) => m' 81 = m 81) rfl ?_
  intro slot hslot m' h
  exact (setExtentAt_flags hslot _).trans h

theorem setSize_flags (n : ℕ) : setSize m n 81 = m 81 := writeLE_of_lt (by omega)

theorem setBlockCount_flags (n : ℕ) : setBlockCount m n 81 = m 81 := writeLE_of_lt (by omega)

theorem setExtentCount_flags (n : ℕ) : setExtentCount m n 81 = m 81 := writeLE_of_lt (by omega)

theorem putMap_flags (i : Inode) : putMap m i 81 = m 81 :=
  (setExtentCount_flags _).trans (putExtents_flags _)

theorem setTimes_flags (now : ℕ) : setTimes m now 81 = m 81 := by
  rw [setTimes, writeLE_of_lt (by omega), writeLE_of_lt (by omega)]

theorem putInline_flags {start : ℕ} {data : List UInt8}
    (h : start + data.length ≤ ixfsInlineMax) : putInline m start data 81 = m 81 := by
  unfold ixfsInlineMax at h
  unfold putInline storeBytes extentAddr
  rw [if_neg (by omega)]

theorem not_isInline_leaveInline (m : ByteMem) : ¬ isInline (leaveInline m) := by
  rw [leaveInline, isInline_congr (putInline_flags (by simp [ixfsInlineMax])),
    isInline_congr (setBlockCount_flags 0), isInline_congr (setSize_flags 0),
    isInline_congr (setExtentCount_flags 0)]
  exact not_isInline_clearInline m

theorem insertHole_flags (index : ℕ) : insertHole m index 81 = m 81 := by
  rw [insertHole]
  split
  · rename_i hslot
    rw [setSize_flags, setExtentCount_flags, setExtentAt_flags hslot.2]
  · rfl

theorem addBlockToExtent_flags (g : Grouped) : (addBlockToExtent g m).2.1 81 = m 81 := by
  unfold addBlockToExtent
  extract_lets i ec last lastEnd r
  have hslots : ec ≤ 4 := Nat.min_le_right ..
  split
  · rfl
  split
  · dsimp only [extentAddr]
    rw [writeLE_of_lt (by omega), writeLE_of_lt (by omega)]
  split
  · rename_i hslot
    unfold ixfsInlineExtents at hslot
    dsimp only [extentAddr]
    rw [writeLE_of_lt (by omega), writeLE_of_lt (by omega), writeLE_of_lt (by omega),
      writeLE_of_lt (by omega)]
  · rfl

variable (io : FileIo)

theorem openBlock_flags (g : Grouped) (index : ℕ) : (openBlock io g m index).2.1 81 = m 81 := by
  unfold openBlock
  extract_lets i block
  split
  · dsimp only
    rw [addBlockToExtent_flags, insertHole_flags]
  · dsimp only
    rw [putMap_flags]

theorem writeLoop_flags (g : Grouped) (cs : List Chunk) (data : List UInt8) :
    (writeLoop io g m cs data).2.1 81 = m 81 := by
  induction cs generalizing g m data with
  | nil => rfl
  | cons c cs ih =>
    have hopen := @openBlock_flags m io g c.index
    rw [writeLoop]
    rcases hrun : openBlock io g m c.index with ⟨g', inode, _ | ⟨block, buf⟩⟩
    · rw [hrun] at hopen
      exact hopen
    · rw [hrun] at hopen
      exact (ih _ _).trans hopen

theorem writeExtents_flags (now : ℕ) (offset written : ℕ) (data : List UInt8) :
    (writeExtents io now f offset written data).1.inode 81 = f.inode 81 := by
  rw [writeExtents]
  split
  · dsimp only [OpenFile.flush]
    rw [setTimes_flags]
    split
    · rw [setSize_flags, writeLoop_flags]
    · rw [writeLoop_flags]
  · rfl

/-- A call on an open file. A truncate works on the volume it finds, which `elsewhere` gives
when it is not the volume of the file. -/
inductive FileCall where
  | write (io : FileIo) (now offset : ℕ) (data : List UInt8)
  | read (io : FileIo) (now offset size : ℕ)
  | truncate (now newSize : ℕ) (elsewhere : Option Grouped)

def FileCall.exec (f : OpenFile) : FileCall → OpenFile
  | .write io now offset data => (ixfsFileWrite io now f offset data).1
  | .read io now offset size => (ixfsFileRead io now f offset size).1
  | .truncate now newSize none =>
    let r := truncateOn now f.g f.ino f.inode newSize
    { f with g := r.1, inode := r.2 }
  | .truncate now newSize (some g) =>
    { f with inode := (truncateOn now g f.ino f.inode newSize).2 }

def FileCall.accesses (f : OpenFile) : FileCall → List Access
  | .write io now offset data => (ixfsFileWrite io now f offset data).2.2
  | .read io now offset size => (ixfsFileRead io now f offset size).2.2
  | .truncate .. => []

def Small (f : OpenFile) : Prop := isInline f.inode → inodeSize f.inode ≤ ixfsInlineMax

/-- The calls whose copies stay inside: a write to an inline file does not wrap, and begins in
the first block if it goes beyond the area; a read that begins in the file does not wrap; a
truncate does not make an inline file longer than its area. -/
def InlineCall (f : OpenFile) : FileCall → Prop
  | .write _ _ offset data => isInline f.inode →
      offset + data.length < 2 ^ 32 ∧
        (offset + data.length ≤ ixfsInlineMax ∨ offset ≤ ixfsBlockSize)
  | .read _ _ offset size => inodeSize f.inode ≤ offset ∨ offset + size < 2 ^ 32
  | .truncate _ newSize _ => isInline f.inode → newSize ≤ ixfsInlineMax

/-! ### What a call leaves -/

theorem small_of_not_inline (h : ¬ isInline f.inode) : Small f := fun hinline => absurd hinline h

theorem inodeSize_setSize (m : ByteMem) {n : ℕ} (h : n < 2 ^ 64) : inodeSize (setSize m n) = n := by
  rw [inodeSize, setSize, readLE_writeLE_same]
  exact mod_eq_of_lt h

theorem inodeSize_congr (h : ∀ x, x < 16 → m' x = m x) : inodeSize m' = inodeSize m :=
  readLE_congr fun x _ hx => h x (by omega)

theorem fillFirst_flags (r : Grouped × ByteMem × ℕ) (offset : ℕ) (data : List UInt8) :
    (fillFirst f r offset data).inode 81 = r.2.1 81 := by
  unfold fillFirst
  dsimp only
  rw [setSize_flags]

theorem promoteAccesses_ok {oldSize offset : ℕ} (hold : oldSize ≤ ixfsInlineMax)
    (hoffset : offset ≤ ixfsBlockSize) (size : ℕ) :
    ∀ a ∈ promoteAccesses oldSize offset (firstChunk offset size), a.Ok := by
  have hfirst : offset + firstChunk offset size ≤ ixfsBlockSize := by
    unfold firstChunk ixfsBlockSize at *
    omega
  have hblock : 0 + oldSize ≤ ixfsBlockSize := by
    unfold ixfsBlockSize ixfsInlineMax at *
    omega
  simp only [promoteAccesses, forall_mem_cons]
  exact ⟨.inr (Nat.le_refl _), hold, .inr hblock, hoffset, .inr hfirst, nofun⟩

theorem inodeSize_writeLE {a n v : ℕ} (h : 16 ≤ a) : inodeSize (writeLE m a n v) = inodeSize m :=
  inodeSize_congr fun x hx => writeLE_of_lt (by omega)

theorem promote_spec (now : ℕ) (hsize : inodeSize f.inode ≤ ixfsInlineMax)
    {offset : ℕ} (hoffset : offset ≤ ixfsBlockSize) (data : List UInt8) :
    (∀ a ∈ (promote io now f offset data).2.2, a.Ok) ∧
      ¬ isInline (promote io now f offset data).1.inode := by
  have hflags := @addBlockToExtent_flags (leaveInline f.inode) f.g
  have hleft : ∀ m : ByteMem, m 81 = (addBlockToExtent f.g (leaveInline f.inode)).2.1 81 →
      ¬ isInline m := by
    intro m hm h
    exact not_isInline_leaveInline f.inode ((isInline_congr (hm.trans hflags)).mp h)
  have hok := promoteAccesses_ok ((mod_le _ (2 ^ 32)).trans hsize) hoffset data.length
  rw [promote]
  split
  · refine ⟨?_, ?_⟩
    · simp only [forall_mem_singleton]
      exact .inr (Nat.le_refl _)
    · dsimp only
      exact hleft _ rfl
  dsimp only
  split
  · refine ⟨hok, hleft _ ?_⟩
    dsimp only [OpenFile.flush]
    rw [setTimes_flags, fillFirst_flags]
  · refine ⟨hok, hleft _ ?_⟩
    dsimp only
    rw [writeExtents_flags, fillFirst_flags]

theorem write_spec (now : ℕ) (h : Small f) {offset : ℕ} {data : List UInt8}
    (hcall : InlineCall f (.write io now offset data)) :
    (∀ a ∈ (ixfsFileWrite io now f offset data).2.2, a.Ok) ∧
      Small (ixfsFileWrite io now f offset data).1 := by
  unfold ixfsFileWrite
  split
  · exact ⟨nofun, h⟩
  split
  · rename_i hinline
    have hsize := h hinline
    obtain ⟨hwrap, hplace⟩ := hcall hinline
    have hsum : Access.Ok (.sum offset data.length) := hwrap
    rw [mod_eq_of_lt hwrap]
    dsimp only
    split
    · rename_i hfits
      refine ⟨?_, ?_⟩
      · simp only [forall_mem_cons]
        exact ⟨hsum, .inr hfits, nofun⟩
      · intro _
        have hkeep : inodeSize (putInline f.inode offset data) = inodeSize f.inode :=
          inodeSize_congr fun x hx => by
            unfold putInline storeBytes extentAddr
            rw [if_neg (by omega)]
        have htimes : ∀ m, inodeSize (setTimes m now) = inodeSize m := fun m =>
          (inodeSize_writeLE (by omega)).trans (inodeSize_writeLE (by omega))
        dsimp only [OpenFile.store]
        rw [htimes]
        split
        · rw [inodeSize_setSize _ (by omega)]
          exact hfits
        · rw [hkeep]
          exact hsize
    · rename_i hbeyond
      obtain ⟨hok, hnot⟩ := promote_spec io now hsize (hplace.resolve_left hbeyond) data
      dsimp only
      exact ⟨forall_mem_cons.mpr ⟨hsum, hok⟩, small_of_not_inline hnot⟩
  · rename_i hextents
    refine ⟨nofun, small_of_not_inline ?_⟩
    dsimp only
    rw [isInline_congr (writeExtents_flags ..)]
    exact hextents

theorem read_spec (now : ℕ) (h : Small f) {offset size : ℕ}
    (hcall : InlineCall f (.read io now offset size)) :
    (∀ a ∈ (ixfsFileRead io now f offset size).2.2, a.Ok) ∧
      Small (ixfsFileRead io now f offset size).1 := by
  have hstore : Small (f.store (setAccessTime f.inode now)) := by
    intro hinline
    have hkeep : inodeSize (setAccessTime f.inode now) = inodeSize f.inode :=
      inodeSize_writeLE (by omega)
    dsimp only [OpenFile.store] at hinline ⊢
    rw [hkeep]
    exact h ((isInline_congr (writeLE_of_lt (by omega))).mp hinline)
  unfold ixfsFileRead
  extract_lets i size' data
  split
  · exact ⟨nofun, h⟩
  rename_i hin
  have hwrap : offset + size < 2 ^ 32 := hcall.resolve_left hin
  have hsum : ∀ a ∈ [Access.sum offset size], a.Ok := forall_mem_singleton.mpr hwrap
  split
  · rename_i hinline
    have hsize : i.size ≤ ixfsInlineMax := h hinline
    refine ⟨?_, hstore⟩
    simp only [forall_mem_cons]
    refine ⟨hwrap, .inr ?_, nofun⟩
    have hend : offset + size' ≤ i.size := by
      have hlen : size' = if i.size < offset + size then (i.size - offset) % 2 ^ 32 else size :=
        if_congr (by rw [mod_eq_of_lt hwrap]) rfl rfl
      have hle := mod_le (i.size - offset) (2 ^ 32)
      rw [hlen]
      split <;> omega
    exact hend.trans hsize
  split
  · refine ⟨hsum, ?_⟩
    split
    · exact h
    · exact hstore
  · exact ⟨hsum, h⟩

theorem freeAllExtents_inline (g : Grouped) (h : isInline (ixfsFreeAllExtents g m).2) : False := by
  unfold ixfsFreeAllExtents at h
  extract_lets i at h
  split at h
  · exact not_isInline_leaveInline m h
  · rename_i hextents
    have hslots : (List.range (clampedCount i)).foldl
        (fun m slot => setExtentAt m slot ⟨0, 0⟩) m 81 = m 81 := by
      refine Loop.foldl_range (fun _ (m' : ByteMem) => m' 81 = m 81) rfl ?_
      intro slot hslot m' hm
      exact (setExtentAt_flags (Nat.lt_of_lt_of_le hslot (Nat.min_le_right ..)) _).trans hm
    dsimp only at h
    rw [isInline_congr (setBlockCount_flags 0), isInline_congr (setExtentCount_flags 0),
      isInline_congr hslots] at h
    exact hextents h

theorem resize_spec (g : Grouped) (newSize : ℕ) (h : isInline (resize g m newSize).2) :
    isInline m ∧ inodeSize (resize g m newSize).2 = newSize % 2 ^ 64 := by
  have hset : ∀ m', inodeSize (setSize m' newSize) = newSize % 2 ^ 64 :=
    fun m' => readLE_writeLE_same m' 8 8 newSize
  revert h
  unfold resize
  split
  · intro h
    rw [isInline_congr (setSize_flags 0)] at h
    exact (freeAllExtents_inline g h).elim
  split
  · unfold shrinkFile
    intro h
    dsimp only at h ⊢
    rw [isInline_congr (setBlockCount_flags _), isInline_congr (setSize_flags _),
      isInline_congr (putExtents_flags _)] at h
    refine ⟨h, ?_⟩
    rw [setBlockCount, inodeSize_writeLE (Nat.le_refl _), hset]
  · intro h
    exact ⟨(isInline_congr (setSize_flags _)).mp h, hset m⟩

theorem truncate_spec (now : ℕ) (g : Grouped) (ino newSize : ℕ)
    (hnew : isInline m → newSize ≤ ixfsInlineMax)
    (h : isInline (truncateOn now g ino m newSize).2) :
    inodeSize (truncateOn now g ino m newSize).2 ≤ ixfsInlineMax := by
  unfold truncateOn at h ⊢
  dsimp only at h ⊢
  rw [isInline_congr (writeLE_of_lt (by omega))] at h
  obtain ⟨hinline, hsize⟩ := resize_spec g newSize h
  rw [inodeSize_writeLE (by omega), hsize]
  exact (mod_le _ _).trans (hnew hinline)

/-! ### Runs -/

theorem inlineCall_step (h : Small f) {call : FileCall} (hcall : InlineCall f call) :
    (∀ a ∈ call.accesses f, a.Ok) ∧ Small (call.exec f) := by
  cases call with
  | write io now offset data => exact write_spec io now h hcall
  | read io now offset size => exact read_spec io now h hcall
  | truncate now newSize elsewhere =>
    refine ⟨nofun, ?_⟩
    cases elsewhere with
    | none => exact truncate_spec now f.g f.ino newSize hcall
    | some g => exact truncate_spec now g f.ino newSize hcall

/-- In a run whose calls meet their condition the next call that meets it stays inside. -/
theorem inline_in_bounds (f : OpenFile) (h : Small f) (calls : List FileCall) (call : FileCall)
    (hcalls : Refine.Meets FileCall.exec InlineCall f (calls ++ [call])) :
    ∀ a ∈ call.accesses (calls.foldl FileCall.exec f), a.Ok := by
  obtain ⟨hbefore, hcall⟩ := hcalls.concat
  have hsmall := hbefore.invariant Small (fun _ _ hs hc => (inlineCall_step hs hc).2) h
  exact (inlineCall_step hsmall hcall).1

/-- A file as `ixfs_create` leaves it. -/
def newFile : OpenFile := ⟨initGroups smallVolume, 2, newInode false 0 0⟩

theorem newFile_small : Small newFile := by
  intro _
  decide

/-- Nothing goes wrong. -/
def quietIo : FileIo := ⟨fun _ => false, true, true, fun _ => true⟩

theorem inline_in_bounds_filled : .area 0 48 ∈ (FileCall.read quietIo 0 0 48).accesses
      ([FileCall.truncate 0 48 none].foldl FileCall.exec newFile) ∧ (Access.area 0 48).Ok := by
  have hread : .area 0 48 ∈ (FileCall.read quietIo 0 0 48).accesses
      ([FileCall.truncate 0 48 none].foldl FileCall.exec newFile) := by decide
  exact ⟨hread, inline_in_bounds newFile newFile_small [.truncate 0 48 none] (.read quietIo 0 0 48)
    ⟨fun _ => Nat.le_refl _, .inr (by decide), trivial⟩ _ hread⟩

/-- A truncate makes an inline file of 100 bytes, and a read copies all of them from an area
of 48. -/
theorem inline_read_beyond : Small newFile ∧ ∃ a ∈ (FileCall.read quietIo 0 0 100).accesses
      ([FileCall.truncate 0 100 none].foldl FileCall.exec newFile), ¬ a.Ok := by
  have haccesses : (FileCall.read quietIo 0 0 100).accesses
      ([FileCall.truncate 0 100 none].foldl FileCall.exec newFile) =
        [.sum 0 100, .area 0 100] := by decide
  rw [haccesses]
  refine ⟨newFile_small, .area 0 100, by decide, ?_⟩
  rintro (hzero | hfits)
  · exact absurd hzero (by decide)
  · exact absurd hfits (by decide)

end ImpossibleOs.Ixfs
