import ImpossibleOs.Ixfs.Alloc
import ImpossibleOs.Lib.Refine

/-!
Runs of the block allocator.

The counters of the superblock and of the groups are the numbers of clear bits
in the data area and in their part of it. An allocation finds a clear bit when a
group has one, so it fails only when the groups are full; blocks that belong to
no group are out of its reach.
-/

namespace ImpossibleOs.Ixfs

open ByteMem List

/-- A volume whose counters agree with its bitmap. The metadata is marked as used. -/
structure Consistent (g : Grouped) : Prop where
  floor : 0 < g.vol.sb.dataStart
  order : g.vol.sb.dataStart ≤ g.vol.sb.totalBlocks
  small : g.vol.sb.totalBlocks + ixfsBlocksPerGroup ≤ 2 ^ 32
  metadata : ∀ b, b < g.vol.sb.dataStart → Bitmap.test g.vol.bitmap b = true
  free : g.vol.sb.freeBlocks = Bitmap.freeIn g.vol.bitmap g.vol.sb.dataStart g.vol.sb.totalBlocks
  length : g.groups.length = groupCount g.vol.sb.totalBlocks
  group : ∀ gi bg, g.groups[gi]? = some bg → bg.start = gi * ixfsBlocksPerGroup ∧
    bg.start + bg.count = min (bg.start + ixfsBlocksPerGroup) g.vol.sb.totalBlocks ∧
    bg.free = Bitmap.freeIn g.vol.bitmap (max bg.start g.vol.sb.dataStart) (bg.start + bg.count)

/-- A clear bit of the data area. -/
def FreeData (g : Grouped) (b : ℕ) : Prop :=
  g.vol.sb.dataStart ≤ b ∧ b < g.vol.sb.totalBlocks ∧ Bitmap.test g.vol.bitmap b = false

section Layout

variable (sb : Superblock) (n : ℕ)

@[simp] theorem dataStart_setFreeBlocks : (sb.setFreeBlocks n).dataStart = sb.dataStart :=
  readLE_writeLE_of_disjoint (by omega)

@[simp] theorem totalBlocks_setFreeBlocks : (sb.setFreeBlocks n).totalBlocks = sb.totalBlocks :=
  readLE_writeLE_of_disjoint (by omega)

end Layout

theorem freeBlocks_set {sb : Superblock} {n : ℕ} (h : n < 2 ^ 64) :
    (sb.setFreeBlocks n).freeBlocks = n := by
  rw [Superblock.freeBlocks, Superblock.setFreeBlocks, readLE_writeLE_same]
  exact Nat.mod_eq_of_lt h

/-! ### Taking and freeing a block -/

variable {g : Grouped}

theorem groupCount_eq {total : ℕ} (h : total + ixfsBlocksPerGroup ≤ 2 ^ 32) : groupCount total =
      min ((total + ixfsBlocksPerGroup - 1) / ixfsBlocksPerGroup) ixfsMaxBlockGroups := by
  have hlt : total + ixfsBlocksPerGroup - 1 < 2 ^ 32 := by
    simp only [ixfsBlocksPerGroup] at *
    omega
  rw [groupCount, Nat.mod_eq_of_lt hlt]

variable {b : ℕ} {bg : BlockGroup}

section

variable (h : Consistent g)
include h

theorem Consistent.group_of_block (hlt : b < g.vol.sb.totalBlocks)
    (hreach : b < ixfsMaxBlockGroups * ixfsBlocksPerGroup) :
    ∃ bg, g.groups[b / ixfsBlocksPerGroup]? = some bg ∧ bg.start ≤ b ∧ b < bg.start + bg.count := by
  have hlen : b / ixfsBlocksPerGroup < g.groups.length := by
    rw [h.length, groupCount_eq h.small]
    simp only [ixfsBlocksPerGroup, ixfsMaxBlockGroups] at *
    omega
  obtain ⟨hstart, hstop, -⟩ := h.group _ _ (getElem?_eq_getElem hlen)
  refine ⟨_, getElem?_eq_getElem hlen, ?_, ?_⟩
  · rw [hstart]
    exact Nat.div_mul_le_self b ixfsBlocksPerGroup
  · rw [hstop, hstart]
    simp only [ixfsBlocksPerGroup] at *
    omega

theorem Consistent.group_unique {gi : ℕ}
    (hg : g.groups[gi]? = some bg) (hge : bg.start ≤ b) (hlt : b < bg.start + bg.count) :
    gi = b / ixfsBlocksPerGroup := by
  obtain ⟨hstart, hstop, -⟩ := h.group gi bg hg
  simp only [ixfsBlocksPerGroup] at *
  omega

theorem Consistent.change {g' : Grouped} (hdata : g'.vol.sb.dataStart = g.vol.sb.dataStart)
    (htotal : g'.vol.sb.totalBlocks = g.vol.sb.totalBlocks) (hfloor : g.vol.sb.dataStart ≤ b)
    (hbits : ∀ x, x ≠ b → Bitmap.test g'.vol.bitmap x = Bitmap.test g.vol.bitmap x)
    (hfree : g'.vol.sb.freeBlocks =
      Bitmap.freeIn g'.vol.bitmap g.vol.sb.dataStart g.vol.sb.totalBlocks)
    (hlength : g'.groups.length = g.groups.length)
    (hother : ∀ gi, gi ≠ b / ixfsBlocksPerGroup → g'.groups[gi]? = g.groups[gi]?)
    (hown : ∀ bg', g'.groups[b / ixfsBlocksPerGroup]? = some bg' →
      ∃ bg, g.groups[b / ixfsBlocksPerGroup]? = some bg ∧ bg'.start = bg.start ∧
        bg'.count = bg.count ∧ bg'.free =
          Bitmap.freeIn g'.vol.bitmap (max bg.start g.vol.sb.dataStart) (bg.start + bg.count)) :
    Consistent g' := by
  constructor
  case floor => rw [hdata]; exact h.floor
  case order => rw [hdata, htotal]; exact h.order
  case small => rw [htotal]; exact h.small
  case metadata =>
    intro x hx
    rw [hdata] at hx
    rw [hbits x (by omega)]
    exact h.metadata x hx
  case free => rw [hdata, htotal, hfree]
  case length => rw [hlength, htotal]; exact h.length
  case group =>
    intro gi bg' hget
    rw [hdata, htotal]
    rcases eq_or_ne gi (b / ixfsBlocksPerGroup) with rfl | hne
    · obtain ⟨bg, hg, hstart, hcount, hval⟩ := hown bg' hget
      obtain ⟨hs, hstop, -⟩ := h.group _ bg hg
      rw [hstart, hcount]
      exact ⟨hs, hstop, hval⟩
    · rw [hother gi hne] at hget
      obtain ⟨hs, hstop, hval⟩ := h.group gi bg' hget
      refine ⟨hs, hstop, ?_⟩
      rw [hval]
      apply (Bitmap.freeIn_congr _).symm
      intro x hge hlt
      apply hbits
      rintro rfl
      exact hne (h.group_unique hget ((le_max_left _ _).trans hge) hlt)

theorem Consistent.freeBlocks_lt : g.vol.sb.freeBlocks < 2 ^ 32 := by
  have hcard : Bitmap.freeIn g.vol.bitmap g.vol.sb.dataStart g.vol.sb.totalBlocks ≤
      (Finset.Ico g.vol.sb.dataStart g.vol.sb.totalBlocks).card := Finset.card_filter_le _ _
  have hsmall := h.small
  rw [Nat.card_Ico] at hcard
  rw [h.free]
  simp only [ixfsBlocksPerGroup] at hsmall
  omega

theorem takeBlock_consistent {gi b : ℕ}
    (hg : g.groups[gi]? = some bg) (hge : bg.start ≤ b) (hlt : b < bg.start + bg.count)
    (hfree : FreeData g b) : Consistent (takeBlock g gi bg b) := by
  obtain ⟨hfloor, htotal, hclear⟩ := hfree
  obtain ⟨-, -, hcount⟩ := h.group gi bg hg
  obtain rfl := h.group_unique hg hge hlt
  have hbelow := h.freeBlocks_lt
  refine h.change (dataStart_setFreeBlocks _ _)
    (totalBlocks_setFreeBlocks _ _) hfloor ?_ ?_ ?_ ?_ ?_
  · intro x hx
    change Bitmap.test (Bitmap.set g.vol.bitmap b) x = _
    rw [Bitmap.test_set]
    simp [hx]
  · have hall := Bitmap.freeIn_set hfloor htotal hclear
    have hnow := h.free
    change (g.vol.sb.setFreeBlocks _).freeBlocks = _
    rw [freeBlocks_set (by omega)]
    change _ = Bitmap.freeIn (Bitmap.set g.vol.bitmap b) _ _
    omega
  · exact length_set
  · intro gj hne
    exact getElem?_set_ne hne.symm
  · intro bg' hget
    have hin := (List.getElem?_eq_some_iff.mp hg).1
    have hset : (takeBlock g (b / ixfsBlocksPerGroup) bg b).groups[b / ixfsBlocksPerGroup]? =
        some { bg with free := bg.free - 1, nextFree := b + 1 } := getElem?_set_self hin
    obtain rfl : { bg with free := bg.free - 1, nextFree := b + 1 } = bg' := by
      rw [hset] at hget
      simpa using hget
    refine ⟨bg, hg, rfl, rfl, ?_⟩
    have hone := @Bitmap.freeIn_set g.vol.bitmap b (max bg.start g.vol.sb.dataStart)
      (bg.start + bg.count) (by omega) hlt hclear
    change bg.free - 1 = Bitmap.freeIn (Bitmap.set g.vol.bitmap b) _ _
    omega

omit h in
theorem freeBlock_of_used (hfloor : g.vol.sb.dataStart ≤ b)
    (htotal : b < g.vol.sb.totalBlocks) (hused : Bitmap.test g.vol.bitmap b = true) :
    freeBlock g b =
    { vol := { g.vol with
        bitmap := Bitmap.clear g.vol.bitmap b
        sb := g.vol.sb.setFreeBlocks (g.vol.sb.freeBlocks + 1)
        checksums := g.vol.checksums.map fun t => t.forget b }
      groups := g.groups.modify (b / ixfsBlocksPerGroup) fun bg =>
        { bg with
          free := bg.free + 1
          nextFree := if b < bg.nextFree then b else bg.nextFree } } := by
  rw [freeBlock, if_neg (by omega), if_neg (by simp [hused])]

omit h in
theorem freeBlock_of_not_used (h : ¬ (g.vol.sb.dataStart ≤ b ∧ b < g.vol.sb.totalBlocks ∧
      Bitmap.test g.vol.bitmap b = true)) : freeBlock g b = g := by
  rw [freeBlock]
  split
  · rfl
  · rw [if_pos]
    intro hused
    exact h ⟨by omega, by omega, hused⟩

theorem freeBlock_consistent (b : ℕ) : Consistent (freeBlock g b) := by
  by_cases hused : g.vol.sb.dataStart ≤ b ∧ b < g.vol.sb.totalBlocks ∧
      Bitmap.test g.vol.bitmap b = true
  · obtain ⟨hfloor, htotal, hset⟩ := hused
    have hbelow := h.freeBlocks_lt
    rw [freeBlock_of_used hfloor htotal hset]
    refine h.change (dataStart_setFreeBlocks _ _) (totalBlocks_setFreeBlocks _ _) hfloor
      ?_ ?_ ?_ ?_ ?_
    · intro x hx
      dsimp only
      rw [Bitmap.test_clear]
      simp [hx]
    · dsimp only
      rw [freeBlocks_set (by omega), Bitmap.freeIn_clear hfloor htotal hset, h.free]
    · exact length_modify ..
    · intro gj hne
      exact getElem?_modify_ne _ _ hne.symm
    · intro bg' hget
      dsimp only at hget ⊢
      rw [getElem?_modify_eq, Option.map_eq_map, Option.map_eq_some_iff] at hget
      obtain ⟨bg, hg, rfl⟩ := hget
      refine ⟨bg, hg, rfl, rfl, ?_⟩
      obtain ⟨hstart, hstop, hcount⟩ := h.group _ bg hg
      have hge : bg.start ≤ b := by
        rw [hstart]
        exact Nat.div_mul_le_self b ixfsBlocksPerGroup
      have hlt : b < bg.start + bg.count := by
        rw [hstop, hstart]
        simp only [ixfsBlocksPerGroup]
        clear hstart hstop hcount
        omega
      rw [Bitmap.freeIn_clear (max_le hge hfloor) hlt hset, hcount]
  · rw [freeBlock_of_not_used hused]
    exact h

end

/-! ### Allocation -/

def Exhausted (g : Grouped) (gis : List ℕ) : Prop :=
  ∀ gi ∈ gis, ∀ bg, g.groups[gi]? = some bg → bg.free = 0

theorem Consistent.search_ne_none (h : Consistent g) {gi : ℕ}
    (hg : g.groups[gi]? = some bg) (hfree : bg.free ≠ 0) :
    searchGroup g.vol.bitmap g.vol.sb.dataStart bg ≠ none := by
  intro hnone
  obtain ⟨-, -, hcount⟩ := h.group gi bg hg
  rw [hcount] at hfree
  obtain ⟨x, hge, hlt, hclear⟩ := Bitmap.freeIn_pos.mp (Nat.pos_of_ne_zero hfree)
  have hset := searchGroup_eq_none hnone (by omega) (by omega) hlt
  simp [hclear] at hset

theorem allocLoop_spec (h : Consistent g) (gis : List ℕ) :
    (∃ gi bg b, g.groups[gi]? = some bg ∧ bg.start ≤ b ∧ b < bg.start + bg.count ∧
      FreeData g b ∧ allocLoop g gis = (takeBlock g gi bg b, b)) ∨
    (allocLoop g gis = (g, 0) ∧ Exhausted g gis) := by
  induction gis with
  | nil => exact Or.inr ⟨rfl, by simp [Exhausted]⟩
  | cons gi gis ih =>
    rw [allocLoop]
    split
    · rename_i hnone
      apply ih.imp_right
      rintro ⟨heq, hfull⟩
      refine ⟨heq, forall_mem_cons.mpr ⟨?_, hfull⟩⟩
      simp [hnone]
    · rename_i bg hg
      split
      · rename_i hzero
        apply ih.imp_right
        rintro ⟨heq, hfull⟩
        refine ⟨heq, forall_mem_cons.mpr ⟨?_, hfull⟩⟩
        intro bg' hg'
        obtain rfl : bg = bg' := Option.some.inj (hg.symm.trans hg')
        exact hzero
      · rename_i hfree
        split
        · rename_i b hb
          obtain ⟨hge, hfloor, hlt, hclear⟩ := searchGroup_eq_some hb
          obtain ⟨-, hstop, -⟩ := h.group gi bg hg
          exact Or.inl ⟨gi, bg, b, hg, hge, hlt, ⟨hfloor, by omega, hclear⟩, rfl⟩
        · rename_i hnone
          exact absurd hnone (h.search_ne_none hg hfree)

theorem exists_mem_round {start count gi : ℕ} (hstart : start < count) (hgi : gi < count) :
    gi ∈ (List.range count).map fun tries => (start + tries) % count := by
  rw [mem_map]
  rcases le_or_gt start gi with hle | hlt
  · refine ⟨gi - start, by simp; omega, ?_⟩
    rw [Nat.add_sub_cancel' hle, Nat.mod_eq_of_lt hgi]
  · refine ⟨gi + count - start, by simp; omega, ?_⟩
    rw [show start + (gi + count - start) = gi + count by omega, Nat.add_mod_right,
      Nat.mod_eq_of_lt hgi]

theorem Consistent.no_free_of_exhausted (h : Consistent g)
    (hfull : ∀ (gi : ℕ) (bg : BlockGroup), g.groups[gi]? = some bg → bg.free = 0)
    (hfree : FreeData g b) : ixfsMaxBlockGroups * ixfsBlocksPerGroup ≤ b := by
  by_contra hreach
  obtain ⟨hfloor, htotal, hclear⟩ := hfree
  obtain ⟨bg, hg, hge, hlt⟩ := h.group_of_block htotal (by omega)
  obtain ⟨-, -, hcount⟩ := h.group _ bg hg
  have hpos := Bitmap.freeIn_pos.mpr ⟨b, max_le hge hfloor, hlt, hclear⟩
  have := hfull _ bg hg
  omega

theorem allocBlock_spec (h : Consistent g) :
    (∃ gi bg b, g.groups[gi]? = some bg ∧ bg.start ≤ b ∧ b < bg.start + bg.count ∧
      FreeData g b ∧ allocBlock g = (takeBlock g gi bg b, b)) ∨ (allocBlock g = (g, 0) ∧
      ∀ b, FreeData g b → ixfsMaxBlockGroups * ixfsBlocksPerGroup ≤ b) := by
  rw [allocBlock, allocBlockNear]
  split
  · rename_i hzero
    refine Or.inr ⟨rfl, ?_⟩
    rintro b ⟨hfloor, htotal, hclear⟩
    have hpos := Bitmap.freeIn_pos.mpr ⟨b, hfloor, htotal, hclear⟩
    have := h.free
    omega
  · dsimp only
    generalize hs : (if g.vol.sb.dataStart / ixfsBlocksPerGroup < g.groups.length then
      g.vol.sb.dataStart / ixfsBlocksPerGroup else 0) = start
    apply (allocLoop_spec h _).imp_right
    rintro ⟨heq, hfull⟩
    refine ⟨heq, fun b hb => h.no_free_of_exhausted ?_ hb⟩
    intro gi bg hg
    have hgi := (List.getElem?_eq_some_iff.mp hg).1
    refine hfull gi (exists_mem_round ?_ hgi) bg hg
    rw [← hs]
    split <;> omega

theorem foldl_countFree (bitmap : ByteMem) (start n : ℕ) (p : ℕ × ℕ) :
    ((range' start n).foldl (countFree bitmap start) p).1 =
      p.1 + Bitmap.freeIn bitmap start (start + n) := by
  induction n with
  | zero => simp [Bitmap.freeIn_self]
  | succ n ih =>
    rw [range'_1_concat, foldl_append, foldl_cons, foldl_nil, countFree,
      ← Nat.add_assoc, Bitmap.freeIn_succ (by omega)]
    split
    · simpa using ih
    · simp only [ih]
      omega

theorem initGroups_consistent {v : Volume} (hfloor : 0 < v.sb.dataStart)
    (horder : v.sb.dataStart ≤ v.sb.totalBlocks)
    (hsmall : v.sb.totalBlocks + ixfsBlocksPerGroup ≤ 2 ^ 32)
    (hmeta : ∀ b, b < v.sb.dataStart → Bitmap.test v.bitmap b = true)
    (hfree : v.sb.freeBlocks = Bitmap.freeIn v.bitmap v.sb.dataStart v.sb.totalBlocks) :
    Consistent (initGroups v) := by
  have htotal : v.sb.totalBlocks % 2 ^ 32 = v.sb.totalBlocks := by
    apply Nat.mod_eq_of_lt
    simp only [ixfsBlocksPerGroup] at hsmall
    omega
  refine ⟨hfloor, horder, hsmall, hmeta, hfree, ?_, ?_⟩
  · rw [initGroups, htotal, length_map, length_range]
  · intro gi bg hget
    have hinit : initGroup v.bitmap v.sb.totalBlocks gi = bg ∧
        gi < groupCount v.sb.totalBlocks := by
      simp only [initGroups, htotal, getElem?_map, Option.map_eq_some_iff] at hget
      obtain ⟨i, hi, rfl⟩ := hget
      obtain ⟨hlt, rfl⟩ := List.getElem?_eq_some_iff.mp hi
      rw [length_range] at hlt
      rw [getElem_range]
      exact ⟨rfl, hlt⟩
    obtain ⟨rfl, hgi⟩ := hinit
    rw [groupCount_eq hsmall] at hgi
    have hle : gi * ixfsBlocksPerGroup ≤ v.sb.totalBlocks := by
      simp only [ixfsBlocksPerGroup] at *
      omega
    refine ⟨rfl, ?_, ?_⟩
    · simp only [initGroup, initGroups]
      exact Nat.add_sub_cancel' (le_min (Nat.le_add_right _ _) hle)
    · simp only [initGroup, initGroups, foldl_countFree, Nat.zero_add]
      apply Bitmap.freeIn_of_set (le_max_left _ _)
      intro x hge hx
      exact hmeta x ((lt_max_iff.mp hx).resolve_left hge.not_gt)

/-! ### Runs -/

inductive BlockOp where
  | alloc
  | free (block : ℕ)

def BlockOp.exec (g : Grouped) : BlockOp → Grouped
  | alloc => (allocBlock g).1
  | free block => freeBlock g block

section

variable (h : Consistent g)
include h

theorem allocBlock_consistent : Consistent (allocBlock g).1 := by
  obtain ⟨gi, bg, b, hg, hge, hlt, hfree, heq⟩ | ⟨heq, -⟩ := allocBlock_spec h
  · rw [heq]
    exact takeBlock_consistent h hg hge hlt hfree
  · rw [heq]
    exact h

theorem BlockOp.run_consistent (ops : List BlockOp) : Consistent (ops.foldl BlockOp.exec g) := by
  induction ops generalizing g with
  | nil => exact h
  | cons op ops ih =>
    apply ih
    cases op with
    | alloc => exact allocBlock_consistent h
    | free b => exact freeBlock_consistent h b

theorem Consistent.ne_zero (hfree : FreeData g b) : b ≠ 0 := by
  have := h.floor
  have := hfree.1
  omega

theorem allocBlock_ok (hok : (allocBlock g).2 ≠ 0) : FreeData g (allocBlock g).2 ∧
      (allocBlock g).1.vol.bitmap = Bitmap.set g.vol.bitmap (allocBlock g).2 := by
  obtain ⟨gi, bg, b, -, -, -, hfree, heq⟩ | ⟨heq, -⟩ := allocBlock_spec h
  · rw [heq]
    exact ⟨hfree, rfl⟩
  · rw [heq] at hok
    exact absurd rfl hok

theorem Consistent.block_lt {gi b : ℕ}
    (hg : g.groups[gi]? = some bg) (hlt : b < bg.start + bg.count) :
    b < ixfsMaxBlockGroups * ixfsBlocksPerGroup := by
  obtain ⟨hstart, hstop, -⟩ := h.group gi bg hg
  have hgi := (List.getElem?_eq_some_iff.mp hg).1
  rw [h.length, groupCount_eq h.small] at hgi
  simp only [ixfsMaxBlockGroups, ixfsBlocksPerGroup] at *
  omega

end

theorem test_freeBlock (b x : ℕ) : Bitmap.test (freeBlock g b).vol.bitmap x =
    if x = b ∧ g.vol.sb.dataStart ≤ b ∧ b < g.vol.sb.totalBlocks then false
    else Bitmap.test g.vol.bitmap x := by
  by_cases hused : g.vol.sb.dataStart ≤ b ∧ b < g.vol.sb.totalBlocks ∧
      Bitmap.test g.vol.bitmap b = true
  · obtain ⟨hfloor, htotal, hset⟩ := hused
    rw [freeBlock_of_used hfloor htotal hset]
    dsimp only
    rw [Bitmap.test_clear]
    rcases eq_or_ne x b with rfl | hne
    · simp [hfloor, htotal]
    · simp [hne]
  · rw [freeBlock_of_not_used hused]
    split
    · rename_i hx
      obtain ⟨rfl, hfloor, htotal⟩ := hx
      simpa [hfloor, htotal] using hused
    · rfl

theorem freeBlock_freeBlock (b : ℕ) : freeBlock (freeBlock g b) b = freeBlock g b := by
  by_cases hused : g.vol.sb.dataStart ≤ b ∧ b < g.vol.sb.totalBlocks ∧
      Bitmap.test g.vol.bitmap b = true
  · apply freeBlock_of_not_used
    rintro ⟨-, -, hset⟩
    rw [test_freeBlock, if_pos ⟨rfl, hused.1, hused.2.1⟩] at hset
    cases hset
  · rw [freeBlock_of_not_used hused, freeBlock_of_not_used hused]

/-- What the allocator does in a state: its counters are those of the bitmap, an allocation takes a
clear data block or fails when none is left in the groups, and a block is freed once. -/
structure Allocates (g : Grouped) : Prop where
  consistent : Consistent g
  ok : (allocBlock g).2 ≠ 0 → FreeData g (allocBlock g).2 ∧
    (allocBlock g).1.vol.bitmap = Bitmap.set g.vol.bitmap (allocBlock g).2
  fails : (allocBlock g).2 = 0 ↔
    ¬ ∃ b, FreeData g b ∧ b < ixfsMaxBlockGroups * ixfsBlocksPerGroup
  frees : ∀ b x, Bitmap.test (freeBlock g b).vol.bitmap x =
    if x = b ∧ g.vol.sb.dataStart ≤ b ∧ b < g.vol.sb.totalBlocks then false
    else Bitmap.test g.vol.bitmap x
  freesOnce : ∀ b, freeBlock (freeBlock g b) b = freeBlock g b

theorem allocator_run (h : Consistent g) (ops : List BlockOp) :
    Allocates (ops.foldl BlockOp.exec g) := by
  have hrun := BlockOp.run_consistent h ops
  refine ⟨hrun, allocBlock_ok hrun, ?_, test_freeBlock, freeBlock_freeBlock⟩
  obtain ⟨gi, bg, b, hg, hge, hlt, hfree, heq⟩ | ⟨heq, hnone⟩ := allocBlock_spec hrun
  · rw [heq]
    apply iff_of_false (hrun.ne_zero hfree)
    rw [not_not]
    exact ⟨b, hfree, hrun.block_lt hg hlt⟩
  · rw [heq]
    apply iff_of_true rfl
    rintro ⟨b, hfree, hlt⟩
    have := hnone b hfree
    omega

/-! ### Two volumes -/

/-- A superblock with `start` blocks of metadata, of which `free` of all `total` blocks are
free. -/
def plainSuperblock (start total free : ℕ) : Superblock :=
  writeLE (writeLE (writeLE (fun _ => 0) 52 4 start) 12 8 total) 20 8 free

def plainVolume (start total free : ℕ) (bitmap : ByteMem) : Volume where
  sb := plainSuperblock start total free
  disk := fun _ => 0
  bitmap := bitmap
  bitmapBytes := (total + 7) / 8
  refcounts := none
  checksums := none
  snapshots := []
  readOnly := false
  active := true
  deviceBlocks := total

section Sample

variable {start total free : ℕ}

theorem dataStart_sample (h : start < 2 ^ 32) :
    (plainSuperblock start total free).dataStart = start := by
  rw [plainSuperblock, Superblock.dataStart, readLE_writeLE_of_disjoint (by omega),
    readLE_writeLE_of_disjoint (by omega), readLE_writeLE_same]
  exact Nat.mod_eq_of_lt h

theorem totalBlocks_sample (h : total < 2 ^ 64) :
    (plainSuperblock start total free).totalBlocks = total := by
  rw [plainSuperblock, Superblock.totalBlocks, readLE_writeLE_of_disjoint (by omega),
    readLE_writeLE_same]
  exact Nat.mod_eq_of_lt h

theorem freeBlocks_sample (h : free < 2 ^ 64) :
    (plainSuperblock start total free).freeBlocks = free := freeBlocks_set h

end Sample

/-- Of 16 blocks all but 9 and 12 are used. -/
def smallVolume : Volume :=
  plainVolume 2 16 2 (Bitmap.clear (Bitmap.clear (fun _ => 0xFF) 9) 12)

/-- Of 2^23 + 1 blocks all but the last one are used. -/
def largeVolume : Volume :=
  plainVolume 1 8388609 1 (Bitmap.clear (fun _ => 0xFF) 8388608)

theorem sample_consistent {start total free : ℕ} {bitmap : ByteMem} (hfloor : 0 < start)
    (horder : start ≤ total) (hsmall : total + ixfsBlocksPerGroup ≤ 2 ^ 32)
    (hmeta : ∀ b, b < start → Bitmap.test bitmap b = true)
    (hfree : free = Bitmap.freeIn bitmap start total) (hlt : free < 2 ^ 64) :
    Consistent (initGroups (plainVolume start total free bitmap)) := by
  simp only [ixfsBlocksPerGroup] at hsmall
  have hstart := @dataStart_sample start total free (by omega)
  have htotal := @totalBlocks_sample start total free (by omega)
  apply initGroups_consistent <;> simp only [plainVolume, hstart, htotal]
  · exact hfloor
  · exact horder
  · simpa only [ixfsBlocksPerGroup] using hsmall
  · exact hmeta
  · rw [freeBlocks_sample hlt, hfree]

theorem smallVolume_consistent : Consistent (initGroups smallVolume) := by
  apply sample_consistent
  · decide
  · decide
  · decide
  · decide
  · decide
  · decide

/-- Both free blocks are handed out, and one of them again when it is back. -/
theorem allocator_run_small :
    Allocates ([.alloc, .alloc, .free 9, .free 9, .alloc].foldl BlockOp.exec
      (initGroups smallVolume)) :=
  allocator_run smallVolume_consistent _

theorem test_full (b : ℕ) : Bitmap.test (fun _ => 0xFF) b = true := Bitmap.test_of_full rfl

theorem largeVolume_consistent : Consistent (initGroups largeVolume) := by
  apply sample_consistent
  · decide
  · decide
  · decide
  · intro b hb
    rw [Bitmap.test_clear, test_full]
    simp
    omega
  · rw [Bitmap.freeIn_clear (by decide) (by decide) (test_full _),
      Bitmap.freeIn_eq_zero.mpr fun b _ _ => test_full b]
  · decide

theorem freeData_largeVolume (b : ℕ) : FreeData (initGroups largeVolume) b ↔ b = 8388608 := by
  have hstart := @dataStart_sample 1 8388609 1 (by decide)
  have htotal := @totalBlocks_sample 1 8388609 1 (by decide)
  simp only [FreeData, initGroups, largeVolume, plainVolume, hstart, htotal, Bitmap.test_clear,
    test_full]
  constructor
  · rintro ⟨-, -, hclear⟩
    simpa using hclear
  · rintro rfl
    decide

/-- The last block of the volume is free and belongs to no group. -/
theorem allocator_out_of_reach :
    Consistent (initGroups largeVolume) ∧ FreeData (initGroups largeVolume) 8388608 ∧
      (allocBlock (initGroups largeVolume)).2 = 0 := by
  have hcons := largeVolume_consistent
  refine ⟨hcons, (freeData_largeVolume _).mpr rfl, ?_⟩
  obtain ⟨gi, bg, b, hg, -, hlt, hfree, -⟩ | ⟨heq, -⟩ := allocBlock_spec hcons
  · obtain rfl := (freeData_largeVolume b).mp hfree
    have hreach := hcons.block_lt hg hlt
    exact absurd hreach (by decide)
  · rw [heq]

end ImpossibleOs.Ixfs
