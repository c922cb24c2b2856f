import ImpossibleOs.Ixfs.DirInv

/-!
What the directory operations do to the volume.

Each operation writes at most one entry of its directory. Around that entry it
makes or clears an inode, takes or frees blocks and flushes metadata, none of
which the other entries notice.
-/

namespace ImpossibleOs.Ixfs

open ByteMem List Nat

variable {g g' g'' : Grouped} {ino new b : ℕ} {i : Inode} {P : ℕ → Prop} {src : ByteMem}

/-- The volume changes, and the directory stays as it is. -/
structure Keeps (g g' : Grouped) (ino : ℕ) (i : Inode) : Prop where
  dir : Directory g' ino i
  layout : SameLayout g.vol.sb g'.vol.sb
  readOnly : g'.vol.readOnly = g.vol.readOnly
  blocks : ∀ b ∈ inodeBlocks i, BlockAgree b g.vol.disk g'.vol.disk

section

variable (h : Directory g ino i)
include h

theorem Keeps.refl : Keeps g g ino i :=
  ⟨h, SameLayout.refl _, rfl, fun b _ => BlockAgree.refl b _⟩

omit h in
theorem Keeps.trans (h : Keeps g g' ino i) (h' : Keeps g' g'' ino i) : Keeps g g'' ino i :=
  ⟨h'.dir, h.layout.trans h'.layout, h'.readOnly.trans h.readOnly,
    fun b hb => (h.blocks b hb).trans (h'.blocks b hb)⟩

omit h in
theorem Directory.keeps (h : Directory g' ino i) (hstep : Step P g g')
    (hP : ∀ b ∈ inodeBlocks i, ¬ P b) : Keeps g g' ino i :=
  ⟨h, hstep.layout, hstep.readOnly, fun b hb => hstep.disk b (hP b hb)⟩

omit h in
theorem Keeps.slot_eq (h : Keeps g g' ino i) {k : ℕ} (hk : HasPlace i k) :
    slotAt g'.vol.disk i k = slotAt g.vol.disk i k :=
  h.dir.shape.slots_congr h.dir.owned.consistent h.blocks hk

theorem Directory.keeps_mem (hstep : MemStep g g')
    (hbits : ∀ b, Bitmap.test g.vol.bitmap b = true → Bitmap.test g'.vol.bitmap b = true) :
    Keeps g g' ino i := by
  have hnone : Step (fun _ => False) g g' := hstep.step
  exact (h.quiet hnone (fun _ _ => not_false) hbits).keeps hnone fun _ _ => not_false

/-! ### A new inode -/

omit h in
theorem inodeBlocks_newFile (now blk : ℕ) :
    inodeBlocks (decodeInode (newInode false now blk) 0) = [] := by
  have hflags : (decodeInode (newInode false now blk) 0).extentFlags = ixfsInline :=
    readLE_writeLE_same _ _ _ _
  rw [inodeBlocks, hflags]
  rfl

omit h in
theorem inodeBlocks_newDir (now : ℕ) {blk : ℕ} (hblk : blk < 2 ^ 32) :
    inodeBlocks (decodeInode (newInode true now blk) 0) = [blk] := by
  -- the stores of `ixfs_add_block_to_extent` for the first extent, and the size
  set base := writeLE (writeLE (writeLE (writeLE (writeLE zeroBuf 0 2 (ixfsSDir ||| ixfsPermDir))
    2 2 1) 20 4 now) 24 4 now) 28 4 now with hbase
  obtain ⟨hsame, hcount⟩ := @file_begin base 0 (by omega) blk 1 1 (by omega)
  have hext := @extents_begin base 0 blk 1 1 hblk
  have hnew : newInode true now blk = writeLE (writeLE (writeLE (writeLE (writeLE base
    (extentAddr 0) 8 blk) (extentAddr 0 + 8) 4 1) 80 1 1) 16 4 1) 8 8 512 := rfl
  rw [hnew]
  generalize writeLE (writeLE (writeLE (writeLE base (extentAddr 0) 8 blk) (extentAddr 0 + 8) 4 1)
    80 1 1) 16 4 1 = m at *
  have hflags : (decodeInode (writeLE m 8 8 512) 0).extentFlags = 0 := by
    have hzero : (decodeInode base 0).extentFlags = 0 := by
      have h81 : (decodeInode base 0).extentFlags = readLE base 81 1 := rfl
      rw [h81, hbase, readLE_writeLE_of_disjoint (by omega), readLE_writeLE_of_disjoint (by omega),
        readLE_writeLE_of_disjoint (by omega), readLE_writeLE_of_disjoint (by omega),
        readLE_writeLE_of_disjoint (by omega)]
      rfl
    exact (@readLE_writeLE_of_disjoint m 8 8 512 81 1 (by omega)).trans (hsame.flags.trans hzero)
  have hclamp : clampedCount (decodeInode (writeLE m 8 8 512) 0) = 1 := by
    have heq : (decodeInode (writeLE m 8 8 512) 0).extentCount = 1 :=
      (@readLE_writeLE_of_disjoint m 8 8 512 80 1 (by omega)).trans hcount
    rw [clampedCount, heq]
    rfl
  rw [inodeBlocks_eq (by rw [hflags]; rfl), hclamp,
    extents_congr (agreeOn_writeLE (by omega)), hext]
  exact extentBlocks_set_next (by simp [decodeInode, ixfsInlineExtents]) hblk

omit h in
theorem findFreeInode_spec {v : Volume} (h : findFreeInode v = some new) :
    inoInTable v.sb new = true ∧ (v.inode new).mode = 0 := by
  have := find?_some h
  simpa using this

omit h in
theorem Owned.not_listed (h : Owned g) (hfree : FreeData g b) {j : ℕ}
    (hj : inoInTable g.vol.sb j = true) : b ∉ inodeBlocks (g.vol.inode j) := by
  intro hb
  have hused := h.used j hj b hb ⟨hfree.1, hfree.2.1⟩
  rw [hfree.2.2] at hused
  cases hused

theorem Directory.not_mem_of_free (hfree : FreeData g b) : b ∉ inodeBlocks i := by
  rw [← h.stored]
  exact h.owned.not_listed hfree h.inTable

theorem Directory.keeps_write (buf : ByteMem)
    (hb : g.vol.sb.dataStart ≤ b) (hnot : b ∉ inodeBlocks i) :
    Keeps g (g.setVol (g.vol.writeBlock b buf)) ino i := by
  have hw : Writes (· = b) g.vol (g.vol.writeBlock b buf) := writes_writeBlock buf rfl
  have hstep := Writes.step h.owned.consistent hw
  refine (h.quiet hstep ?_ fun _ hx => hx).keeps hstep ?_
  · exact h.owned.laid.avoids_data fun blk hblk => by rw [hblk]; exact hb
  · rintro x hx rfl
    exact hnot hx

theorem Directory.keeps_put (hin : inoInTable g.vol.sb new = true)
    (hne : new ≠ ino) (hlist : MayList g new (decodeInode src 0)) :
    Keeps g (g.setVol (putInode g.vol new src)) ino i :=
  (h.putOther hin hne hlist).keeps (putInode_step h.owned.consistent hin)
    fun _ hb => (h.shape.not_metadata h.owned hb).1

theorem Directory.keeps_takeInode : Keeps g g.takeInode ino i := by
  have hstep : Step (fun _ => False) g g.takeInode := takeInode_step h.owned.consistent
  exact (h.quiet hstep (fun _ _ => not_false) fun _ hx => hx).keeps hstep fun _ _ => not_false

theorem Directory.keeps_giveInode : Keeps g g.giveInode ino i := by
  have hstep : Step (fun _ => False) g g.giveInode := giveInode_step h.owned.consistent
  exact (h.quiet hstep (fun _ _ => not_false) fun _ hx => hx).keeps hstep fun _ _ => not_false

theorem Directory.takeBlock (hfree : FreeData g b) (hstep : MemStep g g')
    (hbits : ∀ x, Bitmap.test g'.vol.bitmap x = (x = b || Bitmap.test g.vol.bitmap x))
    (buf : ByteMem) : Keeps g (g'.setVol (g'.vol.writeBlock b buf)) ino i ∧
      Bitmap.test g'.vol.bitmap b = true ∧ ∀ j, inoInTable g'.vol.sb j = true →
        b ∉ inodeBlocks ((g'.setVol (g'.vol.writeBlock b buf)).vol.inode j) := by
  have hmem := h.keeps_mem hstep fun x hx => by rw [hbits, hx, Bool.or_true]
  have hwrite := @Directory.keeps_write _ _ b _ hmem.dir buf
    (by rw [hstep.layout.dataStart]; exact hfree.1) (h.not_mem_of_free hfree)
  refine ⟨hmem.trans hwrite, by simp [hbits], fun j hj => ?_⟩
  have hw : Writes (· = b) g'.vol (g'.vol.writeBlock b buf) := writes_writeBlock _ rfl
  have hsteps := hstep.step.trans (Writes.step hstep.consistent hw)
  rw [inoInTable_congr hstep.layout] at hj
  rw [hsteps.inode_eq]
  · exact h.owned.not_listed hfree hj
  · have := h.owned.laid.inodeBlock_lt hj
    have := hfree.1
    omega

theorem makeInode_keeps (hin : inoInTable g.vol.sb new = true)
    (hne : new ≠ ino) (parent now : ℕ) (isDir : Bool) :
    Keeps g (makeInode g new parent isDir now).1 ino i := by
  cases isDir with
  | false =>
    have hlist : MayList g new (decodeInode (newInode false now 0) 0) := by
      intro b hb
      rw [inodeBlocks_newFile] at hb
      cases hb
    have hput := h.keeps_put hin hne hlist
    exact hput.trans hput.dir.keeps_takeInode
  | true =>
    rcases allocBlock_step h.owned.consistent with heq | ⟨hfree, hstep, hbits⟩
    · have : makeInode g new parent true now = (g, false) := by
        rw [makeInode, heq]
        rfl
      rw [this]
      exact Keeps.refl h
    · have hne0 := h.owned.consistent.ne_zero hfree
      have hlt : (allocBlock g).2 < 2 ^ 32 := by
        have := hfree.2.1
        have := h.owned.consistent.small
        omega
      rw [makeInode, if_pos rfl]
      generalize allocBlock g = r at *
      dsimp only
      rw [if_neg hne0]
      obtain ⟨hkeeps, hset, hnone⟩ := h.takeBlock hfree hstep hbits (dotBlock new parent)
      generalize hg : r.1.setVol (r.1.vol.writeBlock r.2 (dotBlock new parent)) = g₂ at *
      have hlist : MayList g₂ new (decodeInode (newInode true now r.2) 0) := by
        intro x hx _
        rw [inodeBlocks_newDir now hlt, mem_singleton] at hx
        subst hx
        rw [← hg] at hnone ⊢
        exact ⟨hset, fun j hj _ => hnone j hj⟩
      have hput := hkeeps.dir.keeps_put (by rw [inoInTable_congr hkeeps.layout]; exact hin) hne
        hlist
      rw [← hg] at hkeeps hput
      exact (hkeeps.trans hput).trans hput.dir.keeps_takeInode

end

/-! ### A new entry -/

/-- The directory has a new entry; its inode is `i'`, but not yet on the device. -/
structure Adds (g g' : Grouped) (ino : ℕ) (i i' : Inode) (new : ℕ) (name : List UInt8) : Prop where
  dir : Directory g' ino i
  layout : SameLayout g.vol.sb g'.vol.sb
  readOnly : g'.vol.readOnly = g.vol.readOnly
  list : MayList g' ino i'
  shape : DirShape g'.vol.sb i'
  change : ∃ k, Change (totalEntries i) k (totalEntries i') (slotAt g.vol.disk i)
      (slotAt g'.vol.disk i') ∧ slotAt g'.vol.disk i' k = (new, name) ∧
    (k < totalEntries i → (slotAt g.vol.disk i k).1 = 0)

theorem slotAt_grown {i' : Inode} {k : ℕ} {bs : List ℕ} {m : ByteMem} (hc : Consistent g)
    (h : DirShape g.vol.sb i) (h' : DirShape g.vol.sb i')
    (hblocks : inodeBlocks i' = inodeBlocks i ++ bs) (hk : HasPlace i k) :
    slotAt m i' k = slotAt m i k := by
  have hlt := hk.2
  have hblk : entryBlock i' k = entryBlock i k := by
    rw [h'.entryBlock_eq hc hk.1, h.entryBlock_eq hc hk.1, hblocks,
      getD_append _ _ _ _ (by omega)]
  have haddr : direntAddr i' k = direntAddr i k := by rw [direntAddr, direntAddr, hblk]
  rw [slotAt, slotAt, haddr]

/-- The directory's inode with room for one more entry. -/
def grownInode (inode : ByteMem) : ByteMem := writeLE inode 8 8 (readLE inode 8 8 + 256)

theorem inodeBlocks_congr {m m' : ByteMem}
    (h : AgreeOn 32 82 m m') : inodeBlocks (decodeInode m' 0) = inodeBlocks (decodeInode m 0) := by
  have hflags : (decodeInode m' 0).extentFlags = (decodeInode m 0).extentFlags :=
    readLE_congr (h.mono (by omega) (by omega))
  have hcount : (decodeInode m' 0).extentCount = (decodeInode m 0).extentCount :=
    readLE_congr (h.mono (by omega) (by omega))
  rw [inodeBlocks, inodeBlocks, clampedCount, clampedCount, hflags, hcount,
    extents_congr (h.mono le_rfl (by omega))]

theorem grownInode_shape {sb : Superblock} {inode : ByteMem} {bs : List ℕ}
    (h : DirShape sb i) (hfile : (decodeInode inode 0).mode = i.mode ∧
      (decodeInode inode 0).size = i.size ∧ (decodeInode inode 0).extentFlags = i.extentFlags)
    (hblocks : inodeBlocks (decodeInode inode 0) = inodeBlocks i ++ bs)
    (hnodup : (inodeBlocks i ++ bs).Nodup) (hdata : ∀ b ∈ bs, DataBlock sb b)
    (hroom : HasPlace (decodeInode inode 0) (totalEntries i)) :
    DirShape sb (decodeInode (grownInode inode) 0) ∧
      totalEntries (decodeInode (grownInode inode) 0) = totalEntries i + 1 ∧
      inodeBlocks (decodeInode (grownInode inode) 0) = inodeBlocks i ++ bs := by
  obtain ⟨hmode, hsize, hflags⟩ := hfile
  have hb : inodeBlocks (decodeInode (grownInode inode) 0) = inodeBlocks i ++ bs := by
    rw [← hblocks]
    exact inodeBlocks_congr (agreeOn_writeLE (by omega))
  have hsmall := h.small
  have htotal := h.totalEntries_eq
  have hsize' : (decodeInode (grownInode inode) 0).size = i.size + 256 := by
    have hread : (decodeInode (grownInode inode) 0).size = (readLE inode 8 8 + 256) % 256 ^ 8 :=
      readLE_writeLE_same _ _ _ _
    have hold : readLE inode 8 8 = i.size := hsize
    rw [hread, hold]
    apply mod_eq_of_lt
    omega
  have htotal' : totalEntries (decodeInode (grownInode inode) 0) = totalEntries i + 1 := by
    rw [totalEntries, hsize', htotal]
    have := hroom.1
    omega
  refine ⟨⟨?_, ?_, ?_, ?_, ?_, ?_⟩, htotal', hb⟩
  · have : (decodeInode (grownInode inode) 0).mode = (decodeInode inode 0).mode :=
      readLE_writeLE_of_disjoint (by omega)
    rw [this, hmode]
    exact h.mode
  · have : (decodeInode (grownInode inode) 0).extentFlags = (decodeInode inode 0).extentFlags :=
      readLE_writeLE_of_disjoint (by omega)
    rw [this, hflags]
    exact h.inline
  · rw [hb]
    exact hnodup
  · rw [hb]
    intro b hmem
    rcases mem_append.mp hmem with hmem | hmem
    · exact h.data b hmem
    · exact hdata b hmem
  · rw [htotal', hb, ← hblocks]
    exact hroom.2
  · rw [hsize']
    have := hroom.1
    omega

theorem Directory.writeEntry (h : Directory g ino i) {k : ℕ} (hk : HasPlace i k) (buf : ByteMem) :
    Directory (g.writeEntry (entryBlock i k) buf) ino i := by
  have hmem := h.shape.entryBlock_mem h.owned.consistent hk
  have hw : Writes (· = entryBlock i k) g.vol (g.vol.writeBlock (entryBlock i k) buf) :=
    writes_writeBlock buf rfl
  apply h.quiet (Writes.step h.owned.consistent hw) _ fun _ hx => hx
  apply h.owned.laid.avoids_data
  rintro blk rfl
  exact (h.shape.data _ hmem).1

section AddDirent

variable {inode : ByteMem} {name : List UInt8} {k : ℕ}

theorem adds_free (h : Directory g ino i) (hk : k < totalEntries i)
    (hfree : (slotAt g.vol.disk i k).1 = 0) (hnew : new < 2 ^ 32) (hname : 0 ∉ name)
    (hlen : name.length < ixfsMaxName) : Adds g (g.writeEntry (entryBlock i k)
      (putDirent (readBuf g.vol.disk (entryBlock i k)) (entryOffset k) new name)) ino i i new
      name := by
  have hplace := h.shape.hasPlace hk
  have hdir := h.writeEntry hplace
    (putDirent (readBuf g.vol.disk (entryBlock i k)) (entryOffset k) new name)
  refine ⟨hdir, SameLayout.refl _, rfl, hdir.mayList, hdir.shape, k, ⟨.inl ⟨rfl, hk⟩, ?_⟩, ?_,
    fun _ => hfree⟩
  · intro j hj hjk
    exact h.shape.slotAt_writeBuf h.owned.consistent (h.shape.hasPlace hj) hplace hjk
      fun x _ hx => sameOutside_putDirent _ _ _ _ x hx
  · exact (slotAt_writeBuf_self hplace.1 _).trans (readDirent_putDirent hname hlen hnew)

theorem adds_behind (h : Directory g ino (decodeInode inode 0))
    (hplace : HasPlace (decodeInode inode 0) (totalEntries (decodeInode inode 0)))
    (hnew : new < 2 ^ 32) (hname : 0 ∉ name) (hlen : name.length < ixfsMaxName) :
    Adds g (g.writeEntry (entryBlock (decodeInode inode 0) (totalEntries (decodeInode inode 0)))
      (putDirent (readBuf g.vol.disk
        (entryBlock (decodeInode inode 0) (totalEntries (decodeInode inode 0))))
        (entryOffset (totalEntries (decodeInode inode 0))) new name)) ino (decodeInode inode 0)
      (decodeInode (grownInode inode) 0) new name := by
  set i := decodeInode inode 0 with hi
  have hc := h.owned.consistent
  have hdir := h.writeEntry hplace
    (putDirent (readBuf g.vol.disk (entryBlock i (totalEntries i))) (entryOffset (totalEntries i))
      new name)
  obtain ⟨hshape, htotal, hblocks⟩ := @grownInode_shape i g.vol.sb inode [] h.shape ⟨rfl, rfl, rfl⟩
    (by simp [hi]) (by simpa using h.shape.nodup) (by simp) hplace
  refine ⟨hdir, SameLayout.refl _, rfl, ?_, hshape, totalEntries i, ⟨.inr ⟨htotal, rfl⟩, ?_⟩, ?_,
    fun hlt => absurd hlt (lt_irrefl _)⟩
  · intro b hb
    rw [hblocks, append_nil] at hb
    exact hdir.mayList b hb
  · intro j hj hjk
    rw [slotAt_grown hc h.shape hshape hblocks (h.shape.hasPlace hj)]
    exact h.shape.slotAt_writeBuf hc (h.shape.hasPlace hj) hplace hjk
      fun x _ hx => sameOutside_putDirent _ _ _ _ x hx
  · rw [slotAt_grown hc h.shape hshape hblocks hplace]
    exact (slotAt_writeBuf_self hplace.1 _).trans (readDirent_putDirent hname hlen hnew)

theorem adds_block {inode' : ByteMem} (h : Directory g ino (decodeInode inode 0))
    (hfull : totalEntries (decodeInode inode 0) = 16 * (inodeBlocks (decodeInode inode 0)).length)
    (hroom : totalEntries (decodeInode inode 0) < 2 ^ 24) (hfree : FreeData g b)
    (hstep : MemStep g g')
    (hbits : ∀ x, Bitmap.test g'.vol.bitmap x = (x = b || Bitmap.test g.vol.bitmap x))
    (hgrown : inodeBlocks (decodeInode inode' 0) = inodeBlocks (decodeInode inode 0) ++ [b])
    (hfile : SameFile inode inode') (hnew : new < 2 ^ 32) (hname : 0 ∉ name)
    (hlen : name.length < ixfsMaxName) :
    Adds g (g'.writeEntry b (putDirent zeroBuf (entryOffset (totalEntries (decodeInode inode 0)))
      new name)) ino (decodeInode inode 0) (decodeInode (grownInode inode') 0) new name := by
  set i := decodeInode inode 0
  have hc := h.owned.consistent
  have hnot := h.not_mem_of_free hfree
  obtain ⟨hkeeps, hset, hnone⟩ := h.takeBlock hfree hstep hbits
    (putDirent zeroBuf (entryOffset (totalEntries i)) new name)
  have hplace : HasPlace (decodeInode inode' 0) (totalEntries i) := by
    refine ⟨hroom, ?_⟩
    rw [hgrown, length_append, length_singleton]
    omega
  obtain ⟨hshape, htotal, hblocks⟩ := @grownInode_shape i g.vol.sb inode' [b] h.shape
    ⟨hfile.mode, hfile.size, hfile.flags⟩ hgrown
    (nodup_append.mpr ⟨h.shape.nodup, nodup_singleton b, by
      rintro x hx y hy rfl
      exact hnot (mem_singleton.mp hy ▸ hx)⟩)
    (by
      intro x hx
      rw [mem_singleton.mp hx]
      exact ⟨hfree.1, hfree.2.1⟩) hplace
  have hshape' := hshape.congr hkeeps.layout
  have hblk : entryBlock (decodeInode (grownInode inode') 0) (totalEntries i) = b := by
    rw [hshape.entryBlock_eq hc hroom, hblocks, getD_append_right _ _ _ _ (by omega),
      show totalEntries i / 16 - (inodeBlocks i).length = 0 by omega]
    rfl
  refine ⟨hkeeps.dir, hkeeps.layout, hkeeps.readOnly, ?_, hshape', totalEntries i,
    ⟨.inr ⟨htotal, rfl⟩, ?_⟩, ?_, fun hlt => absurd hlt (lt_irrefl _)⟩
  · intro x hx hdata
    rw [hblocks] at hx
    rcases mem_append.mp hx with hx | hx
    · exact hkeeps.dir.mayList x hx hdata
    · rw [mem_singleton.mp hx]
      exact ⟨hset, fun j hj _ => hnone j hj⟩
  · intro j hj _
    have hj' := h.shape.hasPlace hj
    rw [slotAt_grown hc h.shape hshape hblocks hj']
    exact hkeeps.slot_eq hj'
  · have hself := @slotAt_writeBuf_self (totalEntries i) (decodeInode (grownInode inode') 0)
      g'.vol.disk hroom (putDirent zeroBuf (entryOffset (totalEntries i)) new name)
    rw [hblk, readDirent_putDirent hname hlen hnew] at hself
    exact hself

theorem Directory.next_place (h : Directory g ino i) (hroom : totalEntries i < 2 ^ 24) :
    entryBlock i (totalEntries i) ≠ 0 ∧ HasPlace i (totalEntries i) ∨
      entryBlock i (totalEntries i) = 0 ∧ totalEntries i = 16 * (inodeBlocks i).length := by
  have hc := h.owned.consistent
  have hcovers := h.shape.covers
  by_cases hlt : totalEntries i < 16 * (inodeBlocks i).length
  · exact .inl ⟨h.shape.entryBlock_ne_zero hc ⟨hroom, hlt⟩, hroom, hlt⟩
  · refine .inr ⟨?_, by omega⟩
    rw [h.shape.entryBlock_eq hc hroom, getD_eq_default _ _ (by omega)]

theorem addDirent_spec (h : Directory g ino (decodeInode inode 0))
    (hroom : totalEntries (decodeInode inode 0) < 2 ^ 24 ∨ ∃ k < totalEntries (decodeInode inode 0),
        (slotAt g.vol.disk (decodeInode inode 0) k).1 = 0)
    (hnew : new < 2 ^ 32) (hname : 0 ∉ name) (hlen : name.length < ixfsMaxName) :
    (∃ g', addDirent g inode new name = (g', none) ∧ Keeps g g' ino (decodeInode inode 0)) ∨
      ∃ g' inode', addDirent g inode new name = (g', some inode') ∧
        Adds g g' ino (decodeInode inode 0) (decodeInode inode' 0) new name := by
  have hc := h.owned.consistent
  have hscan := (h.shape.mapped hc).scanDir_eq fun a => direntInode g.vol.disk a = 0
  rw [addDirent]
  cases hfind : (List.range (totalEntries (decodeInode inode 0))).find? fun k =>
      decide (direntInode g.vol.disk (direntAddr (decodeInode inode 0) k) = 0) with
  | some k =>
    rw [hfind] at hscan
    simp only [hscan]
    refine .inr ⟨_, _, rfl, adds_free h (mem_range.mp (mem_of_find?_eq_some hfind)) ?_
      hnew hname hlen⟩
    simpa [slotAt] using find?_some hfind
  | none =>
    rw [hfind] at hscan
    simp only [hscan]
    have hlt : totalEntries (decodeInode inode 0) < 2 ^ 24 := by
      rcases hroom with hlt | ⟨k, hk, h0⟩
      · exact hlt
      · have := List.find?_eq_none.mp hfind k (mem_range.mpr hk)
        exact absurd h0 (by simpa [slotAt] using this)
    rcases h.next_place hlt with ⟨hblk, hplace⟩ | ⟨hblk, hfull⟩
    · rw [if_neg hblk]
      exact .inr ⟨_, _, rfl, adds_behind h hplace hnew hname hlen⟩
    · rw [if_pos hblk]
      have hlength := h.shape.length_lt hc
      rcases addBlockToExtent_spec hc h.shape.inline
          (by simp only [ixfsBlocksPerGroup] at hlength; omega) with
        ⟨g', inode', b, heq, hfree, hstep, hbits, hgrown, hfile⟩ | ⟨g', heq, hstep, hbits⟩
      · rw [heq, if_neg (hc.ne_zero hfree)]
        exact .inr ⟨_, _, rfl, adds_block h hfull hlt hfree hstep hbits hgrown hfile hnew hname
          hlen⟩
      · rw [heq, if_pos rfl]
        exact .inl ⟨g', rfl, h.keeps_mem hstep fun x hx => by rw [hbits, hx]⟩

end AddDirent

/-! ### One entry rewritten -/

/-- Slot `k` of the directory holds `s`, and nothing else of it has changed. -/
structure Rewrites (g g' : Grouped) (ino : ℕ) (i : Inode) (k : ℕ) (s : Slot) : Prop where
  dir : Directory g' ino i
  layout : SameLayout g.vol.sb g'.vol.sb
  readOnly : g'.vol.readOnly = g.vol.readOnly
  change : Change (totalEntries i) k (totalEntries i) (slotAt g.vol.disk i) (slotAt g'.vol.disk i)
  slot : slotAt g'.vol.disk i k = s

section Rewrite

variable {k : ℕ} {s : Slot} {buf : ByteMem}

theorem Keeps.rewrites (h : Keeps g g' ino i) (h' : Rewrites g' g'' ino i k s) :
    Rewrites g g'' ino i k s := by
  refine ⟨h'.dir, h.layout.trans h'.layout, h'.readOnly.trans h.readOnly, ?_, h'.slot⟩
  refine ⟨h'.change.size, fun j hj hjk => ?_⟩
  rw [h'.change.others j hj hjk]
  exact h.slot_eq (h.dir.shape.hasPlace hj)

theorem Rewrites.keeps (h : Rewrites g g' ino i k s) (h' : Keeps g' g'' ino i) :
    Rewrites g g'' ino i k s := by
  have hslot : ∀ j < totalEntries i, slotAt g''.vol.disk i j = slotAt g'.vol.disk i j :=
    fun j hj => h'.slot_eq (h.dir.shape.hasPlace hj)
  refine ⟨h'.dir, h.layout.trans h'.layout, h'.readOnly.trans h.readOnly, h.change.congr hslot, ?_⟩
  rw [hslot k h.change.lt]
  exact h.slot

theorem Directory.rewrites (h : Directory g ino i) (hk : k < totalEntries i)
    (hout : ∀ x < 4096, x < entryOffset k ∨ entryOffset k + 256 ≤ x →
      buf x = readBuf g.vol.disk (entryBlock i k) x) :
    Rewrites g (g.writeEntry (entryBlock i k) buf) ino i k (readDirent buf (entryOffset k)) := by
  have hplace := h.shape.hasPlace hk
  refine ⟨h.writeEntry hplace buf, SameLayout.refl _, rfl, ⟨.inl ⟨rfl, hk⟩, ?_⟩,
    slotAt_writeBuf_self hplace.1 buf⟩
  intro j hj hjk
  exact h.shape.slotAt_writeBuf h.owned.consistent (h.shape.hasPlace hj) hplace hjk hout

theorem Owned.keeps_flush (h : Owned g) (hin : inoInTable g.vol.sb ino = true)
    (hlist : MayList g ino (decodeInode src 0)) (hshape : DirShape g.vol.sb (decodeInode src 0)) :
    Keeps g (g.setVol (flushDir g.vol ino src)) ino (decodeInode src 0) := by
  obtain ⟨hdir, hstep⟩ := h.flush hin hlist hshape
  refine hdir.keeps hstep fun b hb => ?_
  have := hshape.not_metadata h hb
  tauto

theorem Directory.keeps_own (h : Directory g ino i) (hsrc : decodeInode src 0 = i) :
    Keeps g (g.setVol (putInode g.vol ino src)) ino i := by
  subst hsrc
  have hstep := @putInode_step g ino src h.owned.consistent h.inTable
  have hdir : Directory (g.setVol (putInode g.vol ino src)) ino (decodeInode src 0) :=
    ⟨h.owned.put h.inTable h.mayList, by rw [inoInTable_congr hstep.layout]; exact h.inTable,
      (putInode_sets src h.inTable).stored, h.shape.congr hstep.layout⟩
  exact hdir.keeps hstep fun _ hb => (h.shape.not_metadata h.owned hb).1

theorem readDirent_putName {m : ByteMem} {a : ℕ} {name : List UInt8} (h : 0 ∉ name)
    (hlen : name.length < ixfsMaxName) :
    readDirent (putName m (a + 4) name) a = (direntInode m a, name) := by
  rw [readDirent, direntName_putName h hlen, direntInode, putName,
    readLE_congr ((sameOutside_storeBytes le_rfl le_rfl).agreeOn (by omega)), direntInode]

theorem decodeInode_stamp (inode : ByteMem) (now : ℕ) :
    decodeInode (writeLE inode 24 4 now) 0 = decodeInode inode 0 := by
  have hread : ∀ a n, a + n ≤ 24 ∨ 28 ≤ a →
      readLE (writeLE inode 24 4 now) a n = readLE inode a n :=
    fun a n h => readLE_writeLE_of_disjoint (by omega)
  have hext := @extents_congr inode (writeLE inode 24 4 now) (agreeOn_writeLE (by omega))
  simp only [decodeInode] at hext ⊢
  rw [hext, hread _ _ (by omega), hread _ _ (by omega), hread _ _ (by omega), hread _ _ (by omega),
    hread _ _ (by omega), hread _ _ (by omega)]

theorem readDirent_cleared (m : ByteMem) (a : ℕ) :
    readDirent (writeLE (writeLE m a 4 0) (a + 4) 1 0) a = (0, []) := by
  have hino : direntInode (writeLE (writeLE m a 4 0) (a + 4) 1 0) a = 0 := by
    rw [direntInode, readLE_writeLE_of_disjoint (by omega), readLE_writeLE_same, zero_mod]
  have hbyte : writeLE (writeLE m a 4 0) (a + 4) 1 0 (a + 4) = 0 := by
    simp [writeLE]
  rw [readDirent, hino, direntName, bytes, ixfsMaxName, range_succ_eq_map, map_cons,
    takeWhile_cons, Nat.add_zero, hbyte]
  rfl

theorem Directory.keeps_release (h : Directory g ino i) {target : ℕ}
    (ht : inoInTable g.vol.sb target = true) (hne : target ≠ ino) :
    Keeps g ((freeAllExtents g (g.vol.inode target)).setVol
      (putInode (freeAllExtents g (g.vol.inode target)).vol target zeroBuf)) ino i := by
  obtain ⟨hmem, hbits⟩ := freeBlocks_step h.owned.consistent (inodeBlocks (g.vol.inode target))
  rw [freeAllExtents]
  generalize (inodeBlocks (g.vol.inode target)).foldl freeBlock g = g₁ at *
  have ht' : inoInTable g₁.vol.sb target = true := by
    rw [inoInTable_congr hmem.layout]
    exact ht
  have hset := putInode_sets zeroBuf ht'
  have hput := @putInode_step g₁ target zeroBuf hmem.consistent ht'
  have hstep := hmem.step.trans hput
  have hsame : ∀ j, g₁.vol.inode j = g.vol.inode j := by
    intro j
    exact inode_congr hmem.layout (hmem.disk ▸ BlockAgree.refl _ _)
  have howned : Owned (g₁.setVol (putInode g₁.vol target zeroBuf)) := by
    apply @Owned.update _ _ target h.owned hstep.consistent hstep.layout
    · intro j _ hj
      exact (hset.others j hj).trans (hsame j)
    · intro j hj hjt b hb hdata
      have hnot : b ∉ inodeBlocks (g.vol.inode target) :=
        h.owned.apart j target hj ht hjt b hb hdata
      rw [Grouped.setVol, hset.writes.bitmap, hbits b hnot]
      exact h.owned.used j hj b hb hdata
    · intro _ b hb
      rw [Grouped.setVol, hset.stored] at hb
      cases hb
  refine Directory.keeps ⟨howned, ?_, ?_, h.shape.congr hstep.layout⟩ hstep ?_
  · rw [inoInTable_congr hstep.layout]
    exact h.inTable
  · exact (hset.others ino hne.symm).trans ((hsame ino).trans h.stored)
  · intro b hb
    have := (h.shape.not_metadata h.owned hb).1
    rw [InodeArea, hmem.layout.inodeStart, hmem.layout.inodeBlocks]
    exact this

end Rewrite

end ImpossibleOs.Ixfs
