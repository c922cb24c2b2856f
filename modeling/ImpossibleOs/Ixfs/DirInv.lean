import ImpossibleOs.Ixfs.DirOwned

/-!
A directory on the volume.

The entries of a directory lie in its blocks, sixteen to a block, and a write of
one entry keeps the others.
-/

namespace ImpossibleOs.Ixfs

open ByteMem List Nat

/-! ### Entries -/

/-- The entry stored at `a`. -/
def readDirent (m : ByteMem) (a : ℕ) : Slot := (direntInode m a, direntName m a)

theorem readDirent_shift {m m' : ByteMem} {a b : ℕ} (h : ∀ x < 256, m' (b + x) = m (a + x)) :
    readDirent m' b = readDirent m a := by
  have hino : direntInode m' b = direntInode m a := readLE_shift fun x hx => h x (by omega)
  have hname : bytes m' (b + 4) ixfsMaxName = bytes m (a + 4) ixfsMaxName := by
    apply map_congr_left
    intro x hx
    have hx' : x < 252 := mem_range.mp hx
    rw [Nat.add_assoc, Nat.add_assoc]
    exact h (4 + x) (by omega)
  rw [readDirent, readDirent, hino, direntName, direntName, hname]

theorem takeWhile_terminated {name rest : List UInt8} (h : 0 ∉ name) :
    (name ++ [0] ++ rest).takeWhile (· ≠ 0) = name := by
  rw [append_assoc, takeWhile_append_of_pos]
  · simp
  · intro c hc
    simp only [decide_eq_true_eq]
    rintro rfl
    exact h hc

theorem direntName_putName {m : ByteMem} {a : ℕ} {name : List UInt8} (h : 0 ∉ name)
    (hlen : name.length < ixfsMaxName) : direntName (putName m (a + 4) name) a = name := by
  have htake : name.take (ixfsMaxName - 1) = name := take_of_length_le (by omega)
  rw [direntName, putName, htake, bytes_storeBytes_same _ _ _ (by simp; omega)]
  exact takeWhile_terminated h

theorem readDirent_putDirent {m : ByteMem} {a ino : ℕ} {name : List UInt8} (h : 0 ∉ name)
    (hlen : name.length < ixfsMaxName) (hino : ino < 2 ^ 32) :
    readDirent (putDirent m a ino name) a = (ino, name) := by
  rw [readDirent, putDirent, direntName_putName h hlen, direntInode, putName,
    readLE_congr ((sameOutside_storeBytes le_rfl le_rfl).agreeOn (by omega)), readLE_writeLE_same,
    show ino % 256 ^ 4 = ino from mod_eq_of_lt hino]

theorem length_stored (name : List UInt8) :
    (name.take (ixfsMaxName - 1) ++ [(0 : UInt8)]).length ≤ 252 := by
  simp [ixfsMaxName]

theorem sameOutside_putName (m : ByteMem) (a : ℕ) (name : List UInt8) :
    SameOutside a (a + 256) m (putName m (a + 4) name) := by
  have := length_stored name
  exact sameOutside_storeBytes (by omega) (by omega)

theorem sameOutside_putDirent (m : ByteMem) (a ino : ℕ) (name : List UInt8) :
    SameOutside a (a + 256) m (putDirent m a ino name) :=
  (sameOutside_writeLE le_rfl (by omega)).trans (sameOutside_putName _ a name)

/-! ### Places -/

structure DirShape (sb : Superblock) (i : Inode) : Prop where
  mode : i.mode ≠ 0
  inline : i.extentFlags &&& ixfsInline = 0
  nodup : (inodeBlocks i).Nodup
  data : ∀ b ∈ inodeBlocks i, DataBlock sb b
  covers : totalEntries i ≤ 16 * (inodeBlocks i).length
  small : i.size / 256 ≤ 2 ^ 24

section Places

variable {g : Grouped} {k : ℕ} {i : Inode} {m m' : ByteMem}

theorem DirShape.totalEntries_eq {sb : Superblock} (h : DirShape sb i) :
    totalEntries i = i.size / 256 := by
  have := h.small
  exact mod_eq_of_lt (by omega)

theorem DirShape.length_lt (h : DirShape g.vol.sb i) (hc : Consistent g) :
    (inodeBlocks i).length + ixfsBlocksPerGroup ≤ 2 ^ 32 := by
  have hsub : (inodeBlocks i).toFinset ⊆ Finset.range g.vol.sb.totalBlocks := by
    intro b hb
    exact Finset.mem_range.mpr (h.data b (mem_toFinset.mp hb)).2
  have hcard := Finset.card_le_card hsub
  rw [toFinset_card_of_nodup h.nodup, Finset.card_range] at hcard
  have := hc.small
  omega

theorem entryOffset_eq (hk : k < 2 ^ 24) : entryOffset k = 256 * (k % 16) := by
  rw [entryOffset, mod_eq_of_lt (show k * 256 < 2 ^ 32 by omega)]
  omega

theorem DirShape.entryBlock_eq (h : DirShape g.vol.sb i) (hc : Consistent g) (hk : k < 2 ^ 24) :
    entryBlock i k = (inodeBlocks i).getD (k / 16) 0 := by
  have hlen := h.length_lt hc
  rw [entryBlock, mod_eq_of_lt (show k * 256 < 2 ^ 32 by omega),
    show k * 256 / 4096 = k / 16 by omega]
  apply getBlock_eq
  · simp only [ixfsBlocksPerGroup] at hlen
    omega
  · intro b hb h0
    have := (h.data b hb).1
    have := hc.floor
    omega
  · omega

def HasPlace (i : Inode) (k : ℕ) : Prop := k < 2 ^ 24 ∧ k < 16 * (inodeBlocks i).length

theorem DirShape.hasPlace {sb : Superblock} (h : DirShape sb i) (hk : k < totalEntries i) :
    HasPlace i k := by
  have := h.small
  have := h.covers
  have := h.totalEntries_eq
  exact ⟨by omega, by omega⟩

theorem DirShape.entryBlock_mem (h : DirShape g.vol.sb i) (hc : Consistent g) (hk : HasPlace i k) :
    entryBlock i k ∈ inodeBlocks i := by
  rw [h.entryBlock_eq hc hk.1, getD_eq_getElem _ _ (by have := hk.2; omega)]
  exact getElem_mem _

theorem DirShape.entryBlock_ne_zero (h : DirShape g.vol.sb i) (hc : Consistent g)
    (hk : HasPlace i k) : entryBlock i k ≠ 0 := by
  have := (h.data _ (h.entryBlock_mem hc hk)).1
  have := hc.floor
  omega

theorem DirShape.mapped (h : DirShape g.vol.sb i) (hc : Consistent g) : Mapped i :=
  fun _ hk => h.entryBlock_ne_zero hc (h.hasPlace hk)

theorem direntAddr_eq (hk : k < 2 ^ 24) :
    direntAddr i k = 4096 * entryBlock i k + 256 * (k % 16) := by
  rw [direntAddr, entryOffset_eq hk]

theorem slotAt_congr (hk : k < 2 ^ 24) (h : BlockAgree (entryBlock i k) m m') :
    slotAt m' i k = slotAt m i k := by
  apply readDirent_shift
  intro x hx
  rw [direntAddr_eq hk]
  exact h _ (by omega) (by omega)

theorem DirShape.slots_congr (h : DirShape g.vol.sb i) (hc : Consistent g)
    (hd : ∀ b ∈ inodeBlocks i, BlockAgree b m m') (hk : HasPlace i k) :
    slotAt m' i k = slotAt m i k :=
  slotAt_congr hk.1 (hd _ (h.entryBlock_mem hc hk))

theorem slotAt_writeBuf_self (hk : k < 2 ^ 24) (buf : ByteMem) :
    slotAt (writeBuf m (entryBlock i k) buf) i k = readDirent buf (entryOffset k) := by
  apply readDirent_shift
  intro x hx
  rw [direntAddr_eq hk, entryOffset_eq hk, writeBuf, if_pos (by omega)]
  congr 1
  omega

theorem DirShape.entryOffset_ne {j : ℕ} (h : DirShape g.vol.sb i) (hc : Consistent g)
    (hj : HasPlace i j) (hk : HasPlace i k) (hjk : j ≠ k) (hblk : entryBlock i j = entryBlock i k) :
    j % 16 ≠ k % 16 := by
  have hj' := hj.2
  have hk' := hk.2
  rw [h.entryBlock_eq hc hj.1, h.entryBlock_eq hc hk.1, getD_eq_getElem _ _ (by omega),
    getD_eq_getElem _ _ (by omega)] at hblk
  have := (h.nodup.getElem_inj_iff).mp hblk
  omega

theorem DirShape.slotAt_writeBuf {j : ℕ} {buf : ByteMem} (h : DirShape g.vol.sb i)
    (hc : Consistent g) (hj : HasPlace i j) (hk : HasPlace i k) (hjk : j ≠ k)
    (hout : ∀ x < 4096, x < entryOffset k ∨ entryOffset k + 256 ≤ x →
      buf x = readBuf m (entryBlock i k) x) :
    slotAt (writeBuf m (entryBlock i k) buf) i j = slotAt m i j := by
  by_cases hblk : entryBlock i j = entryBlock i k
  · have hoff := h.entryOffset_ne hc hj hk hjk hblk
    rw [entryOffset_eq hk.1] at hout
    apply readDirent_shift
    intro x hx
    rw [direntAddr_eq hj.1, hblk, writeBuf, if_pos (by omega),
      show (4096 * entryBlock i k + 256 * (j % 16) + x) % 4096 = 256 * (j % 16) + x by omega,
      hout _ (by omega) (by omega), readBuf, Nat.add_assoc]
  · exact slotAt_congr hj.1 (blockAgree_writeBuf buf hblk)

end Places

/-! ### Steps -/

/-- A volume in order, with a directory on it. -/
structure Directory (g : Grouped) (ino : ℕ) (i : Inode) : Prop where
  owned : Owned g
  inTable : inoInTable g.vol.sb ino = true
  stored : g.vol.inode ino = i
  shape : DirShape g.vol.sb i

section Steps

variable {g g' g'' : Grouped} {ino new b : ℕ} {i : Inode} {P : ℕ → Prop} {src : ByteMem}

theorem DirShape.congr {sb sb' : Superblock} (h : DirShape sb i) (hl : SameLayout sb sb') :
    DirShape sb' i :=
  { h with data := fun b hb => (dataBlock_congr hl b).mpr (h.data b hb) }

/-- No block of the inode table is written. -/
def Avoids (sb : Superblock) (P : ℕ → Prop) : Prop :=
  ∀ ino, inoInTable sb ino = true → ¬ P (inodeBlock sb ino)

theorem Laid.avoids_data {sb : Superblock} (h : Laid sb) (hP : ∀ blk, P blk → sb.dataStart ≤ blk) :
    Avoids sb P := by
  intro ino hin hb
  have := h.inodeBlock_lt hin
  have := hP _ hb
  omega

theorem Directory.quiet (h : Directory g ino i) (hstep : Step P g g') (hP : Avoids g.vol.sb P)
    (hbits : ∀ b, Bitmap.test g.vol.bitmap b = true → Bitmap.test g'.vol.bitmap b = true) :
    Directory g' ino i := by
  refine ⟨?_, ?_, ?_, h.shape.congr hstep.layout⟩
  · exact h.owned.congr hstep.consistent hstep.layout
      (fun j hj => hstep.inode_eq (hP j hj)) hbits
  · rw [inoInTable_congr hstep.layout]
    exact h.inTable
  · rw [hstep.inode_eq (hP ino h.inTable)]
    exact h.stored

/-- What an inode may list: blocks that are marked as used and that no other inode lists. -/
def MayList (g : Grouped) (ino : ℕ) (i : Inode) : Prop :=
  ∀ b ∈ inodeBlocks i, DataBlock g.vol.sb b → Bitmap.test g.vol.bitmap b = true ∧
    ∀ j, inoInTable g.vol.sb j = true → j ≠ ino → b ∉ inodeBlocks (g.vol.inode j)

theorem Directory.mayList (h : Directory g ino i) : MayList g ino i := by
  intro b hb hdata
  rw [← h.stored] at hb
  refine ⟨h.owned.used ino h.inTable b hb hdata, fun j hj hne => ?_⟩
  exact h.owned.apart ino j h.inTable hj hne.symm b hb hdata

def InodeArea (sb : Superblock) (blk : ℕ) : Prop := InRegion sb.inodeStart sb.inodeBlocks blk

theorem putInode_step (hc : Consistent g) (hin : inoInTable g.vol.sb new = true) :
    Step (InodeArea g.vol.sb) g (g.setVol (putInode g.vol new src)) :=
  Writes.step hc (putInode_sets src hin).writes

theorem Owned.put (h : Owned g) (hin : inoInTable g.vol.sb new = true)
    (hlist : MayList g new (decodeInode src 0)) : Owned (g.setVol (putInode g.vol new src)) := by
  have hset := putInode_sets src hin
  have hbitmap := hset.writes.bitmap
  apply h.update (Writes.step h.consistent hset.writes).consistent
    (Writes.step h.consistent hset.writes).layout fun j _ hne => hset.others j hne
  · intro j hj _ b hb hdata
    rw [Grouped.setVol, hbitmap]
    exact h.used j hj b hb hdata
  · intro _ b hb hdata
    rw [Grouped.setVol, hset.stored] at hb
    rw [Grouped.setVol, hbitmap]
    exact hlist b hb hdata

theorem Directory.putOther (h : Directory g ino i) (hin : inoInTable g.vol.sb new = true)
    (hne : new ≠ ino) (hlist : MayList g new (decodeInode src 0)) :
    Directory (g.setVol (putInode g.vol new src)) ino i := by
  have hstep := @putInode_step g new src h.owned.consistent hin
  have hset := putInode_sets src hin
  refine ⟨h.owned.put hin hlist, ?_, ?_, h.shape.congr hstep.layout⟩
  · rw [inoInTable_congr hstep.layout]
    exact h.inTable
  · exact (hset.others ino hne.symm).trans h.stored

theorem DirShape.not_metadata (h : DirShape g.vol.sb i) (ho : Owned g) (hb : b ∈ inodeBlocks i) :
    ¬ InodeArea g.vol.sb b ∧ ¬ FlushArea g.vol.sb b := by
  have hdata := (h.data b hb).1
  have hfloor := ho.consistent.floor
  obtain ⟨hbitmap, hinode, -, -⟩ := ho.laid
  simp only [InodeArea, FlushArea, InRegion]
  omega

theorem Owned.flush (h : Owned g) (hin : inoInTable g.vol.sb ino = true)
    (hlist : MayList g ino (decodeInode src 0)) (hshape : DirShape g.vol.sb (decodeInode src 0)) :
    Directory (g.setVol (flushDir g.vol ino src)) ino (decodeInode src 0) ∧
      Step (fun blk => InodeArea g.vol.sb blk ∨ FlushArea g.vol.sb blk) g
        (g.setVol (flushDir g.vol ino src)) := by
  have hput := @putInode_step g ino src h.consistent hin
  have hset := putInode_sets src hin
  have hdir : Directory (g.setVol (putInode g.vol ino src)) ino (decodeInode src 0) :=
    ⟨h.put hin hlist, by rw [inoInTable_congr hput.layout]; exact hin, hset.stored,
      hshape.congr hput.layout⟩
  obtain ⟨hflush, hbitmap⟩ := flush_step hdir.owned.consistent
  have hsb : (g.setVol (putInode g.vol ino src)).vol.sb = g.vol.sb := hset.writes.sb
  constructor
  · apply hdir.quiet hflush fun j hj => hdir.owned.laid.inodeBlock_apart hj
    intro b hb
    exact (congrArg (Bitmap.test · b) hbitmap).trans hb
  · rw [hsb] at hflush
    exact (hput.mono fun _ hb => .inl hb).trans (hflush.mono fun _ hb => .inr hb)

end Steps

end ImpossibleOs.Ixfs
