import ImpossibleOs.Ixfs.AllocRun
import ImpossibleOs.Ixfs.Dir
import ImpossibleOs.Ixfs.Layout

/-!
The blocks of an inode.

The extents of an inode list its blocks in the order of the file, so that block
lookup is lookup in that list, and a directory that grows gets its new block at
the end of the list.
-/

namespace ImpossibleOs.Ixfs

open ByteMem List Nat

/-! ### Block lookup -/

section Lookup

variable {es : List Extent}

theorem extentBlocks_cons (e : Extent) (es : List Extent) : extentBlocks (e :: es) =
    ((List.range e.count).map fun j => (e.start + j) % 2 ^ 32) ++ extentBlocks es := by
  simp [extentBlocks]

theorem extentBlocks_append (es es' : List Extent) :
    extentBlocks (es ++ es') = extentBlocks es ++ extentBlocks es' := by
  simp [extentBlocks]

theorem getBlockLoop_eq {offset k : ℕ} (hlen : offset + (extentBlocks es).length < 2 ^ 32)
    (hpos : ∀ b ∈ extentBlocks es, b ≠ 0) (hk : offset + k < 2 ^ 32) :
    getBlockLoop (offset + k) offset es = (extentBlocks es).getD k 0 := by
  induction es generalizing offset k with
  | nil => rfl
  | cons e es ih =>
    rw [extentBlocks_cons, length_append, length_map, length_range] at hlen
    rw [extentBlocks_cons] at hpos
    have hrest := fun b hb => hpos b (mem_append_right _ hb)
    rw [getBlockLoop, extentBlocks_cons]
    split
    · rename_i hzero
      rw [hzero, range_zero, map_nil, nil_append]
      exact ih (by omega) hrest hk
    · rename_i hcount
      rw [mod_eq_of_lt (show offset + e.count < 2 ^ 32 by omega)]
      split
      · rename_i hlt
        have hstart : e.start ≠ 0 := by
          intro h0
          have hmem : 0 ∈ (List.range e.count).map fun j => (e.start + j) % 2 ^ 32 :=
            mem_map.mpr ⟨0, mem_range.mpr (by omega), by rw [h0]; rfl⟩
          exact hpos 0 (mem_append_left _ hmem) rfl
        rw [if_neg hstart, getD_append _ _ _ _ (by simp; omega),
          getD_eq_getElem _ _ (by simp; omega), getElem_map, getElem_range,
          show offset + k + 2 ^ 32 - offset = k + 2 ^ 32 by omega, add_mod_right,
          mod_eq_of_lt (show k < 2 ^ 32 by omega)]
      · rename_i hge
        rw [getD_append_right _ _ _ _ (by simp; omega), length_map, length_range,
          ← @ih (offset + e.count) _ (by omega) hrest (by omega)]
        congr 1
        omega

theorem getBlock_eq {i : Inode} {k : ℕ} (hlen : (inodeBlocks i).length < 2 ^ 32)
    (hpos : ∀ b ∈ inodeBlocks i, b ≠ 0) (hk : k < 2 ^ 32) :
    getBlock i k = (inodeBlocks i).getD k 0 := by
  rw [getBlock]
  unfold inodeBlocks at hlen hpos ⊢
  split
  · rename_i hinline
    rw [if_pos (show i.extentFlags &&& ixfsInline ≠ 0 from hinline)]
    rfl
  · rename_i hinline
    rw [if_neg (show ¬ (i.extentFlags &&& ixfsInline ≠ 0) from hinline)] at hlen hpos ⊢
    have := @getBlockLoop_eq _ 0 k (by omega) hpos (by omega)
    rwa [Nat.zero_add] at this

end Lookup

section Fields

variable {m : ByteMem} {n e : ℕ}

theorem extents_congr {m' : ByteMem} (h : AgreeOn 32 80 m m') :
    (decodeInode m' 0).extents = (decodeInode m 0).extents := by
  simp only [decodeInode]
  apply map_congr_left
  intro i hi
  have hi4 : i < 4 := mem_range.mp hi
  rw [readLE_congr (h.mono (by omega) (by omega)), readLE_congr (h.mono (by omega) (by omega))]

theorem getElem_extents (m : ByteMem) (he : e < 4) : (decodeInode m 0).extents.getD e ⟨0, 0⟩ =
      ⟨readLE m (extentAddr e) 8, readLE m (extentAddr e + 8) 4⟩ := by
  have hlen : e < (decodeInode m 0).extents.length := by
    simpa [decodeInode, ixfsInlineExtents] using he
  rw [getD_eq_getElem _ _ hlen]
  simp [decodeInode, extentAddr]

theorem extents_set {m' : ByteMem} (h : SameOutside (extentAddr e) (extentAddr e + 12) m m') :
    (decodeInode m' 0).extents = (decodeInode m 0).extents.set e
      ⟨readLE m' (extentAddr e) 8, readLE m' (extentAddr e + 8) 4⟩ := by
  apply ext_getElem (by simp [decodeInode])
  intro j hj _
  have hj4 : j < 4 := by simpa [decodeInode, ixfsInlineExtents] using hj
  rw [getElem_set]
  unfold extentAddr at *
  split
  · rename_i heq
    subst heq
    simp [decodeInode]
  · rename_i hne
    simp only [decodeInode, getElem_map, getElem_range]
    rw [readLE_congr (h.agreeOn (by omega)), readLE_congr (h.agreeOn (by omega))]

end Fields

/-! ### The allocator in memory -/

/-- A step of the allocator: the device stays as it is, and so does the layout. -/
structure MemStep (g g' : Grouped) : Prop where
  consistent : Consistent g'
  layout : SameLayout g.vol.sb g'.vol.sb
  disk : g'.vol.disk = g.vol.disk
  readOnly : g'.vol.readOnly = g.vol.readOnly

section MemStep

variable {g g' g'' : Grouped}

theorem MemStep.refl (h : Consistent g) : MemStep g g := ⟨h, SameLayout.refl _, rfl, rfl⟩

theorem MemStep.trans (h : MemStep g g') (h' : MemStep g' g'') : MemStep g g'' :=
  ⟨h'.consistent, h.layout.trans h'.layout, h'.disk.trans h.disk, h'.readOnly.trans h.readOnly⟩

theorem allocBlock_step (h : Consistent g) : (allocBlock g = (g, 0)) ∨
      (FreeData g (allocBlock g).2 ∧ MemStep g (allocBlock g).1 ∧
        ∀ x, Bitmap.test (allocBlock g).1.vol.bitmap x =
          (x = (allocBlock g).2 || Bitmap.test g.vol.bitmap x)) := by
  obtain ⟨gi, bg, b, hg, hge, hlt, hfree, heq⟩ | ⟨heq, -⟩ := allocBlock_spec h
  · right
    rw [heq]
    refine ⟨hfree, ⟨takeBlock_consistent h hg hge hlt hfree, ?_, rfl, rfl⟩, ?_⟩
    · exact sameLayout_writeLE _ _ (.inl ⟨rfl, rfl⟩)
    · exact Bitmap.test_set _ _
  · exact .inl heq

theorem freeBlock_step (h : Consistent g) (b : ℕ) : MemStep g (freeBlock g b) := by
  refine ⟨freeBlock_consistent h b, ?_, ?_, ?_⟩ <;> rw [freeBlock] <;> split
  · exact SameLayout.refl _
  · split
    · exact SameLayout.refl _
    · exact sameLayout_writeLE _ _ (.inl ⟨rfl, rfl⟩)
  · rfl
  · split <;> rfl
  · rfl
  · split <;> rfl

theorem freeBlocks_step (h : Consistent g) (bs : List ℕ) : MemStep g (bs.foldl freeBlock g) ∧
      ∀ x ∉ bs, Bitmap.test (bs.foldl freeBlock g).vol.bitmap x = Bitmap.test g.vol.bitmap x := by
  induction bs generalizing g with
  | nil => exact ⟨MemStep.refl h, fun _ _ => rfl⟩
  | cons b bs ih =>
    have hb := freeBlock_step h b
    obtain ⟨hstep, hbits⟩ := ih hb.consistent
    refine ⟨hb.trans hstep, fun x hx => ?_⟩
    rw [mem_cons, not_or] at hx
    rw [foldl_cons, hbits x hx.2, test_freeBlock, if_neg (by tauto)]

end MemStep

/-! ### Growing -/

/-- The fields of an inode that a new block does not change. -/
structure SameFile (m m' : ByteMem) : Prop where
  mode : (decodeInode m' 0).mode = (decodeInode m 0).mode
  size : (decodeInode m' 0).size = (decodeInode m 0).size
  flags : (decodeInode m' 0).extentFlags = (decodeInode m 0).extentFlags

theorem sameFile_of_agree {m m' : ByteMem} (h : ∀ x, x < 16 ∨ x = 81 → m' x = m x) :
    SameFile m m' := by
  constructor
  · exact readLE_congr fun x _ hx => h x (by omega)
  · exact readLE_congr fun x _ hx => h x (by omega)
  · exact readLE_congr fun x hx hx' => h x (by omega)

variable {g : Grouped} {inode : ByteMem}

theorem inodeBlocks_eq {i : Inode} (h : i.extentFlags &&& ixfsInline = 0) :
    inodeBlocks i = extentBlocks (i.extents.take (clampedCount i)) := by
  rw [inodeBlocks, if_neg (by simpa using h)]

theorem extentBlocks_set_last {es : List Extent} {ec b : ℕ} (hec : 0 < ec) (hlen : ec ≤ es.length)
    (hb : b = ((es.getD (ec - 1) ⟨0, 0⟩).start + (es.getD (ec - 1) ⟨0, 0⟩).count) % 2 ^ 32) :
    extentBlocks ((es.set (ec - 1) ⟨(es.getD (ec - 1) ⟨0, 0⟩).start,
      (es.getD (ec - 1) ⟨0, 0⟩).count + 1⟩).take ec) = extentBlocks (es.take ec) ++ [b] := by
  obtain ⟨k, rfl⟩ : ∃ k, ec = k + 1 := ⟨ec - 1, by omega⟩
  have hk : k < es.length := by omega
  simp only [Nat.add_sub_cancel] at hb ⊢
  rw [getD_eq_getElem _ _ hk] at hb ⊢
  rw [take_succ_eq_append_getElem (by simpa using hk), take_succ_eq_append_getElem hk,
    getElem_set_self, take_set_of_le (by omega), extentBlocks_append,
    extentBlocks_append, append_assoc]
  congr 1
  simp only [extentBlocks, flatMap_cons, flatMap_nil, append_nil,
    range_succ, map_append, map_cons, map_nil, hb]

theorem extentBlocks_set_next {es : List Extent} {ec b : ℕ} (hlen : ec < es.length)
    (hb : b < 2 ^ 32) :
    extentBlocks ((es.set ec ⟨b, 1⟩).take (ec + 1)) = extentBlocks (es.take ec) ++ [b] := by
  rw [take_succ_eq_append_getElem (by simpa using hlen), getElem_set_self,
    take_set_of_le (by omega), extentBlocks_append]
  congr 1
  simpa [extentBlocks] using hb

theorem count_le_length {es : List Extent} {e : Extent} (h : e ∈ es) :
    e.count ≤ (extentBlocks es).length := by
  obtain ⟨l, r, rfl⟩ := append_of_mem h
  rw [extentBlocks_append, extentBlocks_cons]
  simp only [length_append, length_map, length_range]
  omega

theorem extents_merge (inode : ByteMem) {e : ℕ} (he : e < 4) {c n : ℕ} (hc : c < 2 ^ 32) :
    (decodeInode (writeLE (writeLE inode (extentAddr e + 8) 4 c) 16 4 n) 0).extents =
      (decodeInode inode 0).extents.set e
        ⟨((decodeInode inode 0).extents.getD e ⟨0, 0⟩).start, c⟩ := by
  have h16 : ∀ m, AgreeOn 32 80 m (writeLE m 16 4 n) := fun m => agreeOn_writeLE (by omega)
  have hout : SameOutside (extentAddr e) (extentAddr e + 12) inode
      (writeLE inode (extentAddr e + 8) 4 c) := sameOutside_writeLE (by omega) (by omega)
  rw [extents_congr (h16 _), extents_set hout, readLE_writeLE_of_disjoint (by omega),
    readLE_writeLE_same, getElem_extents inode he, show c % 256 ^ 4 = c from mod_eq_of_lt hc]

theorem extents_begin (inode : ByteMem) (e : ℕ) {b c n : ℕ} (hb : b < 2 ^ 32) :
    (decodeInode (writeLE (writeLE (writeLE (writeLE inode (extentAddr e) 8 b) (extentAddr e + 8) 4
      1) 80 1 c) 16 4 n) 0).extents = (decodeInode inode 0).extents.set e ⟨b, 1⟩ := by
  have h16 : ∀ m, AgreeOn 32 80 m (writeLE m 16 4 n) := fun m => agreeOn_writeLE (by omega)
  have h80 : ∀ m, AgreeOn 32 80 m (writeLE m 80 1 c) := fun m => agreeOn_writeLE (by omega)
  have hout : SameOutside (extentAddr e) (extentAddr e + 12) inode
      (writeLE (writeLE inode (extentAddr e) 8 b) (extentAddr e + 8) 4 1) :=
    (sameOutside_writeLE (by omega) (by omega)).writeLE (by omega) (by omega)
  rw [extents_congr (h16 _), extents_congr (h80 _), extents_set hout,
    readLE_writeLE_of_disjoint (by omega), readLE_writeLE_same, readLE_writeLE_same,
    show b % 256 ^ 8 = b from mod_eq_of_lt (by omega)]
  rfl

theorem file_merge (inode : ByteMem) {e : ℕ} (he : e < 4) (c n : ℕ) :
    SameFile inode (writeLE (writeLE inode (extentAddr e + 8) 4 c) 16 4 n) ∧
      (decodeInode (writeLE (writeLE inode (extentAddr e + 8) 4 c) 16 4 n) 0).extentCount =
        (decodeInode inode 0).extentCount := by
  unfold extentAddr
  refine ⟨sameFile_of_agree fun x hx => ?_, ?_⟩
  · rw [writeLE_of_lt (by omega), writeLE_of_lt (by omega)]
  · simp only [decodeInode]
    rw [readLE_writeLE_of_disjoint (by omega), readLE_writeLE_of_disjoint (by omega)]

theorem file_begin (inode : ByteMem) {e : ℕ} (he : e < 4) (b n : ℕ) {c : ℕ} (hc : c < 256) :
    SameFile inode (writeLE (writeLE (writeLE (writeLE inode (extentAddr e) 8 b)
      (extentAddr e + 8) 4 1) 80 1 c) 16 4 n) ∧
      (decodeInode (writeLE (writeLE (writeLE (writeLE inode (extentAddr e) 8 b)
        (extentAddr e + 8) 4 1) 80 1 c) 16 4 n) 0).extentCount = c := by
  unfold extentAddr
  refine ⟨sameFile_of_agree fun x hx => ?_, ?_⟩
  · rw [writeLE_of_lt (by omega), writeLE_of_lt (by omega), writeLE_of_lt (by omega),
      writeLE_of_lt (by omega)]
  · simp only [decodeInode]
    rw [readLE_writeLE_of_disjoint (by omega), readLE_writeLE_same]
    exact mod_eq_of_lt hc

theorem addBlockToExtent_spec (h : Consistent g)
    (hinline : (decodeInode inode 0).extentFlags &&& ixfsInline = 0)
    (hlen : (inodeBlocks (decodeInode inode 0)).length + 1 < 2 ^ 32) :
    (∃ g' inode' b, addBlockToExtent g inode = (g', inode', b) ∧ FreeData g b ∧ MemStep g g' ∧
      (∀ x, Bitmap.test g'.vol.bitmap x = (x = b || Bitmap.test g.vol.bitmap x)) ∧
      inodeBlocks (decodeInode inode' 0) = inodeBlocks (decodeInode inode 0) ++ [b] ∧
      SameFile inode inode') ∨ ∃ g', addBlockToExtent g inode = (g', inode, 0) ∧ MemStep g g' ∧
      ∀ x, Bitmap.test g'.vol.bitmap x = Bitmap.test g.vol.bitmap x := by
  rcases allocBlock_step h with heq | ⟨hfree, hstep, hbits⟩
  · right
    refine ⟨g, ?_, MemStep.refl h, fun _ => rfl⟩
    rw [addBlockToExtent, heq]
    rfl
  have hne := h.ne_zero hfree
  have hlt : (allocBlock g).2 < 2 ^ 32 := by
    have := hfree.2.1
    have := h.small
    omega
  generalize hr : allocBlock g = r at *
  rw [inodeBlocks_eq hinline] at hlen
  have hel : (decodeInode inode 0).extents.length = 4 := by simp [decodeInode, ixfsInlineExtents]
  have hec4 : clampedCount (decodeInode inode 0) ≤ 4 := by simp [clampedCount, ixfsInlineExtents]
  rw [addBlockToExtent, hr, if_neg hne]
  set ec := clampedCount (decodeInode inode 0) with hecdef
  set last := (decodeInode inode 0).extents.getD (ec - 1) ⟨0, 0⟩ with hlast
  set lastEnd := if 0 < ec ∧ 0 < last.count then (last.start + last.count) % 2 ^ 32 else 0
    with hlastEnd
  by_cases hmerge : 0 < ec ∧ r.2 = lastEnd
  · rw [if_pos hmerge]
    obtain ⟨hec, hend⟩ := hmerge
    left
    have hend' : r.2 = (last.start + last.count) % 2 ^ 32 := by
      rw [hlastEnd] at hend
      split at hend
      · exact hend
      · exact absurd hend hne
    have hcount : last.count + 1 < 2 ^ 32 := by
      have hmem : last ∈ (decodeInode inode 0).extents.take ec := by
        rw [hlast, getD_eq_getElem _ _ (by omega), mem_take_iff_getElem]
        exact ⟨ec - 1, by omega, rfl⟩
      have := count_le_length hmem
      omega
    refine ⟨_, _, _, rfl, hfree, hstep, hbits, ?_, ?_⟩
    · obtain ⟨hsame, hec'⟩ := file_merge inode (show ec - 1 < 4 by omega) (last.count + 1)
        ((decodeInode inode 0).blocks + 1)
      have hclamp : clampedCount (decodeInode (writeLE (writeLE inode (extentAddr (ec - 1) + 8) 4
          (last.count + 1)) 16 4 ((decodeInode inode 0).blocks + 1)) 0) = ec := by
        rw [clampedCount, hec', hecdef, clampedCount]
      rw [inodeBlocks_eq (by rw [hsame.flags]; exact hinline), inodeBlocks_eq hinline, hclamp,
        extents_merge inode (by omega) hcount]
      exact extentBlocks_set_last hec (by omega) hend'
    · exact (file_merge inode (by omega) _ _).1
  · rw [if_neg hmerge]
    split
    · rename_i hnext
      left
      have hec : ec < 4 := hnext
      refine ⟨_, _, _, rfl, hfree, hstep, hbits, ?_, ?_⟩
      · obtain ⟨hsame, hec'⟩ := @file_begin inode ec hec r.2 ((decodeInode inode 0).blocks + 1)
          (ec + 1) (by omega)
        have hclamp : min (ec + 1) ixfsInlineExtents = ec + 1 := by
          rw [ixfsInlineExtents]
          omega
        rw [inodeBlocks_eq (by rw [hsame.flags]; exact hinline), inodeBlocks_eq hinline,
          clampedCount, hec', hclamp, extents_begin inode ec hlt]
        exact extentBlocks_set_next (by omega) hlt
      · exact (file_begin inode hec _ _ (by omega)).1
    · right
      refine ⟨_, rfl, hstep.trans (freeBlock_step hstep.consistent _), fun x => ?_⟩
      rw [test_freeBlock, hbits]
      -- the block was free before
      split
      · rename_i hx
        rw [hx.1, hfree.2.2]
      · rename_i hx
        have hxb : x ≠ r.2 := by
          rintro rfl
          refine hx ⟨rfl, ?_, ?_⟩
          · rw [hstep.layout.dataStart]
            exact hfree.1
          · rw [hstep.layout.totalBlocks]
            exact hfree.2.1
        simp [hxb]

end ImpossibleOs.Ixfs
