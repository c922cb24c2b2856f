import ImpossibleOs.Ixfs.AllocRun
import ImpossibleOs.Ixfs.Dir

/-!
Copy on write (`src/kernel/fs/ixfs/ixfs_cow.c`, `ixfs_cow_block`), and what it does to the map of a
file.

A write to a block that has more than one reference goes to a copy, and the
extent that maps the block is split around it. The table of extents has four
slots, and a split can need two more of them: in the middle of an extent, or without
a slot left, blocks of the file are lost.
-/

namespace ImpossibleOs.Ixfs

open ByteMem
open ByteMem List Option

/-! ### The extents -/

/-- The search for the extent of `index`, from the one in slot `k` on: its slot, and the place
of the block in it. -/
def locate (index : ℕ) : ℕ → ℕ → List Extent → Option (ℕ × ℕ)
  | _, _, [] => none
  | k, offset, e :: es =>
    if offset ≤ index ∧ index < (offset + e.count) % 2 ^ 32 then some (k, index - offset)
    else locate index (k + 1) ((offset + e.count) % 2 ^ 32) es

/-- The loop that shifts the extents from slot `k` on up to slot `n`. -/
def shiftUp (k : ℕ) : ℕ → List Extent → List Extent
  | 0, l => l
  | n + 1, l => if k < n + 1 then shiftUp k n (l.set (n + 1) (l.getD n ⟨0, 0⟩)) else l

/-- The single block `new` goes into slot `k` if there is a slot left. -/
def insertSingle (i : Inode) (k new : ℕ) : Inode :=
  if i.extentCount < ixfsInlineExtents then
    { i with
      extents := (shiftUp k i.extentCount i.extents).set k ⟨new, 1⟩
      extentCount := i.extentCount + 1 }
  else i

def setExtent (i : Inode) (k : ℕ) (e : Extent) : Inode :=
  { i with extents := i.extents.set k e }

/-- The extent in slot `k` gives up its block `inner` for `new`. -/
def splitExtent (i : Inode) (k inner new : ℕ) : Inode :=
  let e := i.extents.getD k ⟨0, 0⟩
  if e.count = 1 then setExtent i k ⟨new, e.count⟩
  else if inner = 0 then
    insertSingle (setExtent i k ⟨(e.start % 2 ^ 32 + 1) % 2 ^ 32, e.count - 1⟩) k new
  else if inner = e.count - 1 then
    insertSingle (setExtent i k ⟨e.start, e.count - 1⟩) (k + 1) new
  else
    -- the blocks around it are given up as well
    setExtent i k ⟨new, 1⟩

/-- The last part of `ixfs_cow_block`: block `index` of the file is now `new`. -/
def remap (i : Inode) (index new : ℕ) : Inode :=
  match locate index 0 0 (i.extents.take (clampedCount i)) with
  | none => i
  | some (k, inner) => splitExtent i k inner new

/-- The data of `old` is copied, unless it cannot be read. -/
def copyBlock (fails : ℕ → Bool) (g : Grouped) (old new : ℕ) : Grouped :=
  if fails old then g else { g with vol := g.vol.writeBlock new (readBuf g.vol.disk old) }

def moveReference (g : Grouped) (t : Refcounts) (old new : ℕ) : Grouped :=
  let fresh := if new < t.bytes then Function.update t.table new 1 else t.table
  let table := Function.update fresh old (fresh old - 1)
  let v := { g.vol with refcounts := some ⟨t.bytes, table⟩ }
  if table old = 0 then
    { g with vol := { v with
        bitmap := Bitmap.clear v.bitmap old
        sb := v.sb.setFreeBlocks (v.sb.freeBlocks + 1) } }
  else { g with vol := v }

/-- `ixfs_cow_block`, where the blocks of `fails` cannot be read and `memory` says whether there
is a buffer for the copy: the volume, the inode and the block to write to. -/
def cowBlock (fails : ℕ → Bool) (memory : Bool) (g : Grouped) (i : Inode) (index old : ℕ) :
    Grouped × Inode × ℕ :=
  match g.vol.refcounts with
  | none => (g, i, old)
  | some t =>
    if old = 0 ∨ t.bytes ≤ old ∨ t.table old ≤ 1 then (g, i, old)
    else
      let a := allocBlock g
      if a.2 = 0 then (a.1, i, old)
      else if memory then
        (moveReference (copyBlock fails a.1 old a.2) t old a.2, remap i index a.2, a.2)
      else (freeBlock a.1 a.2, i, old)

variable {i i' : Inode} {e x : Extent} {pre post es : List Extent} {index new k n o c j : ℕ}

@[simp] theorem length_shiftUp (k n : ℕ) (l : List Extent) : (shiftUp k n l).length = l.length := by
  induction n generalizing l with
  | zero => rfl
  | succ n ih =>
    rw [shiftUp]
    split
    · rw [ih, length_set]
    · rfl

theorem getElem?_shiftUp {l : List Extent} (hn : n < l.length) (j : ℕ) :
    (shiftUp k n l)[j]? = if k < j ∧ j ≤ n then l[j - 1]? else l[j]? := by
  induction n generalizing l with
  | zero => rw [shiftUp, if_neg (by omega)]
  | succ n ih =>
    rw [shiftUp]
    split
    · rw [ih (by rw [length_set]; omega)]
      rcases eq_or_ne j (n + 1) with rfl | hne
      · rw [if_neg (by omega), if_pos (by omega), getElem?_set_self hn, Nat.add_sub_cancel,
          getD_eq_getElem _ _ (by omega), getElem?_eq_getElem (by omega)]
      · split
        · rw [if_pos (by omega), getElem?_set_ne (by omega)]
        · rw [if_neg (by omega), getElem?_set_ne (by omega)]
    · rw [if_neg (by omega)]

theorem take_set_shiftUp {l : List Extent} (hn : n < l.length) (hk : k ≤ n) :
    ((shiftUp k n l).set k x).take (n + 1) = l.take k ++ x :: (l.take n).drop k := by
  apply ext_getElem?
  intro j
  rw [getElem?_take, getElem?_set, getElem?_shiftUp hn, length_shiftUp]
  rcases lt_trichotomy j k with hj | rfl | hj
  · rw [getElem?_append_left (by simp; omega), getElem?_take, if_pos (by omega),
      if_neg (by omega), if_neg (by omega), if_pos hj]
  · rw [getElem?_append_right (by simp), if_pos (by omega), if_pos rfl, if_pos (by omega)]
    simp [Nat.min_eq_left (show j ≤ l.length by omega)]
  · rw [getElem?_append_right (by simp; omega), length_take,
      Nat.min_eq_left (by omega), if_neg (by omega : ¬ k = j)]
    obtain ⟨d, rfl⟩ : ∃ d, j = k + 1 + d := ⟨j - (k + 1), by omega⟩
    rw [show k + 1 + d - k = d + 1 by omega, getElem?_cons_succ, getElem?_drop,
      getElem?_take, show k + 1 + d - 1 = k + d by omega]
    split
    · rw [if_pos (by omega), if_pos (by omega)]
    · rw [if_neg (by omega)]

/-! ### The lookup -/

/-- The first block of the file that comes after the extents. -/
def endOf (offset : ℕ) (es : List Extent) : ℕ :=
  es.foldl (fun o e => (o + e.count) % 2 ^ 32) offset

theorem getBlockLoop_append (j : ℕ) (pre : List Extent) (ho : o < 2 ^ 32) :
    (∃ b, ∀ es, getBlockLoop j o (pre ++ es) = b) ∨ (o ≤ j → endOf o pre ≤ j) ∧
        ∀ es, getBlockLoop j o (pre ++ es) = getBlockLoop j (endOf o pre) es := by
  induction pre generalizing o with
  | nil => exact .inr ⟨id, fun _ => rfl⟩
  | cons e pre ih =>
    simp only [cons_append, getBlockLoop, endOf, foldl_cons]
    rcases Nat.eq_zero_or_pos e.count with hzero | hpos
    · rw [hzero, Nat.add_zero, Nat.mod_eq_of_lt ho]
      exact ih ho
    · simp only [Nat.ne_of_gt hpos, if_false]
      split
      · exact .inl ⟨_, fun _ => rfl⟩
      · rename_i hpast
        obtain hend | ⟨hle, hrest⟩ := ih (Nat.mod_lt (o + e.count) (Nat.two_pow_pos 32))
        · exact .inl hend
        · exact .inr ⟨fun _ => hle (Nat.not_lt.mp hpast), hrest⟩

theorem endOf_lt (ho : o < 2 ^ 32) (es : List Extent) : endOf o es < 2 ^ 32 := by
  induction es generalizing o with
  | nil => exact ho
  | cons e es ih => exact ih (Nat.mod_lt _ (Nat.two_pow_pos 32))

structure Located (index o : ℕ) (pre : List Extent) (e : Extent) : Prop where
  start_le : endOf o pre ≤ index
  lt : index < (endOf o pre + e.count) % 2 ^ 32
  skip : ∀ es, getBlockLoop index o (pre ++ es) = getBlockLoop index (endOf o pre) es

theorem locate_eq_some {s inner : ℕ} (ho : o < 2 ^ 32) (hle : o ≤ index)
    (h : locate index k o es = some (s, inner)) :
    ∃ pre e post, es = pre ++ e :: post ∧ s = k + pre.length ∧ inner = index - endOf o pre ∧
      Located index o pre e := by
  induction es generalizing k o with
  | nil => exact absurd h (by simp [locate])
  | cons e es ih =>
    rw [locate] at h
    split at h
    · rename_i hin
      obtain ⟨rfl, rfl⟩ := Prod.mk.inj (some.inj h)
      exact ⟨[], e, es, rfl, rfl, rfl, hin.1, hin.2, fun _ => rfl⟩
    · rename_i hout
      have hpast : ¬ index < (o + e.count) % 2 ^ 32 := fun hlt => hout ⟨hle, hlt⟩
      obtain ⟨pre, e', post, rfl, rfl, rfl, hloc⟩ :=
        ih (Nat.mod_lt _ (Nat.two_pow_pos 32)) (Nat.not_lt.mp hpast) h
      refine ⟨e :: pre, e', post, rfl, ?_, rfl, hloc.start_le, hloc.lt, ?_⟩
      · rw [length_cons]
        omega
      · intro es
        show _ = getBlockLoop index (endOf ((o + e.count) % 2 ^ 32) pre) es
        rw [cons_append, getBlockLoop, if_neg hpast, ← hloc.skip]
        split
        · rename_i hzero
          rw [hzero, Nat.add_zero, Nat.mod_eq_of_lt ho]
        · rfl

theorem getBlockLoop_of_locate_eq_none (ho : o < 2 ^ 32) (hle : o ≤ index)
    (h : locate index k o es = none) : getBlockLoop index o es = 0 := by
  induction es generalizing k o with
  | nil => rfl
  | cons e es ih =>
    rw [locate] at h
    split at h
    · contradiction
    · rename_i hout
      have hpast : ¬ index < (o + e.count) % 2 ^ 32 := fun hlt => hout ⟨hle, hlt⟩
      have hrest := ih (Nat.mod_lt _ (Nat.two_pow_pos 32)) (Nat.not_lt.mp hpast) h
      rw [getBlockLoop, if_neg hpast, hrest]
      split
      · rename_i hzero
        rw [hzero, Nat.add_zero, Nat.mod_eq_of_lt ho] at hrest
        exact hrest
      · rfl

theorem getBlockLoop_of_lt {start count : ℕ} (hend : o + count < 2 ^ 32) (hle : o ≤ j)
    (hj : j < o + count) :
    getBlockLoop j o (⟨start, count⟩ :: es) =
      if start = 0 then 0 else (start + (j - o)) % 2 ^ 32 := by
  rw [getBlockLoop, if_neg (show ¬ count = 0 by omega), Nat.mod_eq_of_lt hend, if_pos hj,
    show (j + 2 ^ 32 - o) % 2 ^ 32 = j - o by omega]

theorem getBlockLoop_of_ge {start count : ℕ} (hpos : 0 < count) (hend : o + count < 2 ^ 32)
    (hge : o + count ≤ j) :
    getBlockLoop j o (⟨start, count⟩ :: es) = getBlockLoop j (o + count) es := by
  rw [getBlockLoop, if_neg (show ¬ count = 0 by omega), Nat.mod_eq_of_lt hend,
    if_neg (Nat.not_lt.mpr hge)]

theorem getBlockLoop_mem (ho : o < 2 ^ 32) (hle : o ≤ j) (hj : j < 2 ^ 32)
    (hcount : ∀ e ∈ es, e.count < 2 ^ 32) :
    getBlockLoop j o es = 0 ∨ ∃ e ∈ es, e.start ≠ 0 ∧ ∃ q < e.count,
      getBlockLoop j o es = (e.start + q) % 2 ^ 32 := by
  induction es generalizing o with
  | nil => exact .inl rfl
  | cons e es ih =>
    obtain ⟨hsmall, hrest⟩ := forall_mem_cons.mp hcount
    rw [getBlockLoop]
    split
    · exact (ih ho hle hrest).imp_right fun ⟨e', he, h⟩ => ⟨e', mem_cons_of_mem _ he, h⟩
    split
    · rename_i hlt
      split
      · exact .inl rfl
      · rename_i hstart
        exact .inr ⟨e, mem_cons_self, hstart, _, by omega, rfl⟩
    · rename_i hpast
      exact (ih (Nat.mod_lt _ (Nat.two_pow_pos 32)) (Nat.not_lt.mp hpast) hrest).imp_right
        fun ⟨e', he, h⟩ => ⟨e', mem_cons_of_mem _ he, h⟩

/-- The extents `es'` map one index to a new block, and the others as `es` does. -/
structure Replaces (index new o : ℕ) (es es' : List Extent) : Prop where
  mapped : getBlockLoop index o es' = new
  others : ∀ j < 2 ^ 32, o ≤ j → j ≠ index → getBlockLoop j o es' = getBlockLoop j o es

section Split

variable {start count : ℕ} (hnew : new ≠ 0) (hlt : new < 2 ^ 32)

include hnew hlt

theorem getBlockLoop_single (ho : o + 1 < 2 ^ 32) : getBlockLoop o o (⟨new, 1⟩ :: es) = new := by
  rw [getBlockLoop_of_lt ho (Nat.le_refl _) (Nat.lt_succ_self o), if_neg hnew, Nat.sub_self]
  exact Nat.mod_eq_of_lt hlt

theorem replaces_single (ho : o + 1 < 2 ^ 32) :
    Replaces o new o (⟨start, 1⟩ :: post) (⟨new, 1⟩ :: post) where
  mapped := getBlockLoop_single hnew hlt ho
  others := by
    intro j hj hle hne
    have hge : o + 1 ≤ j := by omega
    rw [getBlockLoop_of_ge Nat.one_pos ho hge, getBlockLoop_of_ge Nat.one_pos ho hge]

theorem replaces_first {next : ℕ} (hend : o + count < 2 ^ 32) (htwo : 2 ≤ count)
    (hstart : start ≠ 0) (hnonzero : next ≠ 0) (hnext : next % 2 ^ 32 = (start + 1) % 2 ^ 32) :
    Replaces o new o (⟨start, count⟩ :: post)
      (⟨new, 1⟩ :: ⟨next, count - 1⟩ :: post) where
  mapped := getBlockLoop_single hnew hlt (by omega)
  others := by
    intro j hj hle hne
    have hrest : o + 1 + (count - 1) = o + count := by omega
    rw [getBlockLoop_of_ge Nat.one_pos (by omega) (show o + 1 ≤ j by omega)]
    rcases Nat.lt_or_ge j (o + count) with hin | hout
    · have hblock : (next + (j - (o + 1))) % 2 ^ 32 = (start + (j - o)) % 2 ^ 32 := by
        rw [show start + (j - o) = start + 1 + (j - (o + 1)) by omega, Nat.add_mod, hnext,
          ← Nat.add_mod]
      rw [getBlockLoop_of_lt (hrest ▸ hend) (by omega) (hrest ▸ hin),
        getBlockLoop_of_lt hend hle hin, if_neg hnonzero, if_neg hstart, hblock]
    · rw [getBlockLoop_of_ge (by omega) (hrest ▸ hend) (hrest ▸ hout),
        getBlockLoop_of_ge (by omega) hend hout, hrest]

theorem replaces_last (hend : o + count < 2 ^ 32) (htwo : 2 ≤ count) :
    Replaces (o + (count - 1)) new o (⟨start, count⟩ :: post)
      (⟨start, count - 1⟩ :: ⟨new, 1⟩ :: post) where
  mapped := by
    rw [getBlockLoop_of_ge (by omega) (by omega) (Nat.le_refl _)]
    exact getBlockLoop_single hnew hlt (by omega)
  others := by
    intro j hj hle hne
    have hrest : o + (count - 1) + 1 = o + count := by omega
    rcases Nat.lt_or_ge j (o + (count - 1)) with hin | hout
    · rw [getBlockLoop_of_lt (by omega) hle hin, getBlockLoop_of_lt hend hle (by omega)]
    · have hpast : o + count ≤ j := by omega
      rw [getBlockLoop_of_ge (by omega) (by omega) hout,
        getBlockLoop_of_ge Nat.one_pos (hrest ▸ hend) (hrest ▸ hpast),
        getBlockLoop_of_ge (by omega) hend hpast, hrest]

end Split

/-! ### The inode -/

def used (i : Inode) : List Extent := i.extents.take (clampedCount i)

structure InExtent (i : Inode) (index : ℕ) (pre : List Extent) (start count : ℕ)
    (post : List Extent) : Prop where
  slots : used i = pre ++ ⟨start, count⟩ :: post
  found : locate index 0 0 (used i) = some (pre.length, index - endOf 0 pre)
  start_le : endOf 0 pre ≤ index
  lt : index < endOf 0 pre + count
  fits : endOf 0 pre + count < 2 ^ 32
  skip : ∀ es, getBlockLoop index 0 (pre ++ es) = getBlockLoop index (endOf 0 pre) es
  nonzero : start ≠ 0
  block : getBlock i index = (start + (index - endOf 0 pre)) % 2 ^ 32
  flags : i.extentFlags &&& 0x02 = 0

theorem getBlock_of_flags (i : Inode) (hflags : i.extentFlags &&& 0x02 = 0) (j : ℕ) :
    getBlock i j = getBlockLoop j 0 (used i) := by
  rw [getBlock, if_neg (not_not_intro hflags)]
  rfl

theorem exists_inExtent (hcounts : ∀ e ∈ i.extents, e.count < 2 ^ 32)
    (hmapped : getBlock i index ≠ 0) :
    ∃ pre start count post, InExtent i index pre start count post := by
  have hflags : i.extentFlags &&& 0x02 = 0 := by
    by_contra hinline
    exact hmapped (if_pos hinline)
  have hloop := getBlock_of_flags i hflags index
  rcases hfind : locate index 0 0 (used i) with _ | ⟨k, inner⟩
  · rw [hloop, getBlockLoop_of_locate_eq_none (Nat.two_pow_pos 32) (Nat.zero_le _) hfind]
      at hmapped
    exact absurd rfl hmapped
  obtain ⟨pre, ⟨start, count⟩, post, hused, rfl, rfl, hloc⟩ :=
    locate_eq_some (Nat.two_pow_pos 32) (Nat.zero_le _) hfind
  have hsmall : count < 2 ^ 32 := by
    apply hcounts ⟨start, count⟩
    apply mem_of_mem_take (i := clampedCount i)
    rw [show i.extents.take (clampedCount i) = _ from hused]
    exact mem_append_right _ mem_cons_self
  have hend := endOf_lt (Nat.two_pow_pos 32) pre
  have hle := hloc.start_le
  have hlt : index < (endOf 0 pre + count) % 2 ^ 32 := hloc.lt
  have hfits : endOf 0 pre + count < 2 ^ 32 := by omega
  rw [Nat.mod_eq_of_lt hfits] at hlt
  rw [hused, hloc.skip, getBlockLoop_of_lt hfits hle hlt] at hloop
  have hnonzero : start ≠ 0 := by
    rintro rfl
    exact hmapped (hloop.trans (if_pos rfl))
  rw [if_neg hnonzero] at hloop
  rw [Nat.zero_add] at hfind
  exact ⟨pre, start, count, post, hused, hfind, hle, hlt, hfits, hloc.skip, hnonzero, hloop, hflags⟩

theorem take_set_slot {l : List Extent} {m : ℕ} (h : l.take m = pre ++ e :: post) :
    (l.set pre.length x).take m = pre ++ x :: post := by
  rw [take_set, h, set_append_right _ _ (Nat.le_refl _), Nat.sub_self]
  rfl

theorem used_insertSingle (hroom : i.extentCount < ixfsInlineExtents)
    (hslots : i.extents.length = ixfsInlineExtents) (h : used i = pre ++ post) :
    used (insertSingle i pre.length new) = pre ++ ⟨new, 1⟩ :: post := by
  have hcount : clampedCount i = i.extentCount := Nat.min_eq_left (by omega)
  rw [used, hcount] at h
  have hle : pre.length ≤ i.extentCount := by
    have hlen := congrArg List.length h
    rw [length_take, length_append] at hlen
    omega
  have hpre : i.extents.take pre.length = pre := by
    rw [← Nat.min_eq_left hle, ← take_take, h, take_left]
  have hmin : min (i.extentCount + 1) ixfsInlineExtents = i.extentCount + 1 :=
    Nat.min_eq_left hroom
  rw [insertSingle, if_pos hroom]
  show List.take (min (i.extentCount + 1) ixfsInlineExtents) _ = _
  rw [hmin, take_set_shiftUp (by omega) hle, h, drop_left, hpre]

/-- The index is the only one of its extent, or an end of it while there is a free slot. -/
def SplitFits (i : Inode) (index : ℕ) : Prop :=
  ∃ k inner, locate index 0 0 (used i) = some (k, inner) ∧
    ((i.extents.getD k ⟨0, 0⟩).count = 1 ∨ i.extentCount < ixfsInlineExtents ∧
      (inner = 0 ∨ inner = (i.extents.getD k ⟨0, 0⟩).count - 1))

section Remap

variable {start count : ℕ} {es' : List Extent}

section

variable (h : InExtent i index pre start count post)
include h

theorem InExtent.getD_extents : i.extents.getD pre.length ⟨0, 0⟩ = ⟨start, count⟩ := by
  have hget : (i.extents.take (clampedCount i))[pre.length]? = some ⟨start, count⟩ := by
    rw [show i.extents.take (clampedCount i) = _ from h.slots,
      getElem?_append_right (Nat.le_refl _), Nat.sub_self]
    rfl
  rw [getElem?_take] at hget
  split at hget
  · rw [getD_eq_getElem?_getD, hget]
    rfl
  · contradiction

theorem InExtent.remap_eq (new : ℕ) :
    remap i index new = splitExtent i pre.length (index - endOf 0 pre) new := by
  rw [remap, show locate index 0 0 (i.extents.take (clampedCount i)) = _ from h.found]

theorem InExtent.splitFits_iff : SplitFits i index ↔ count = 1 ∨ i.extentCount < ixfsInlineExtents ∧
      (index = endOf 0 pre ∨ index = endOf 0 pre + (count - 1)) := by
  have hle := h.start_le
  have hlt := h.lt
  constructor
  · rintro ⟨k, inner, hfind, hfits⟩
    obtain ⟨rfl, rfl⟩ := Prod.mk.inj (some.inj (h.found.symm.trans hfind))
    simp only [h.getD_extents] at hfits
    omega
  · intro hfits
    refine ⟨_, _, h.found, ?_⟩
    simp only [h.getD_extents]
    omega

theorem InExtent.keeps (hused : used i' = pre ++ es') (hflags : i'.extentFlags = i.extentFlags)
    (hrep : Replaces index new (endOf 0 pre) (⟨start, count⟩ :: post) es') :
    getBlock i' index = new ∧ ∀ j < 2 ^ 32, j ≠ index → getBlock i' j = getBlock i j := by
  have hlook : ∀ j, getBlock i' j = getBlockLoop j 0 (used i') :=
    getBlock_of_flags i' (hflags ▸ h.flags)
  refine ⟨?_, ?_⟩
  · rw [hlook, hused, h.skip]
    exact hrep.mapped
  · intro j hj hne
    rw [hlook, getBlock_of_flags i h.flags, hused, h.slots]
    obtain ⟨b, hend⟩ | ⟨hle, hrest⟩ := getBlockLoop_append j pre (Nat.two_pow_pos 32)
    · rw [hend, hend]
    · rw [hrest, hrest]
      exact hrep.others j hj (hle (Nat.zero_le _)) hne

omit h in
theorem insertSingle_of_full (hfull : ¬ i.extentCount < ixfsInlineExtents) (k new : ℕ) :
    insertSingle i k new = i := if_neg hfull

omit h in
@[simp] theorem extentFlags_insertSingle (i : Inode) (k new : ℕ) :
    (insertSingle i k new).extentFlags = i.extentFlags := by
  rw [insertSingle]
  split <;> rfl

theorem remap_of_fits (hslots : i.extents.length = ixfsInlineExtents) (hfits : SplitFits i index)
    (hblock : getBlock i index ≠ 2 ^ 32 - 1) (hnew : new ≠ 0) (hlt : new < 2 ^ 32) :
    getBlock (remap i index new) index = new ∧
      ∀ j < 2 ^ 32, j ≠ index → getBlock (remap i index new) j = getBlock i j := by
  have hle := h.start_le
  have hin := h.lt
  have hend := h.fits
  have hset : ∀ x, used (setExtent i pre.length x) = pre ++ x :: post :=
    fun x => take_set_slot h.slots
  have hlen : ∀ x, (setExtent i pre.length x).extents.length = ixfsInlineExtents :=
    fun x => (length_set ..).trans hslots
  rw [h.splitFits_iff] at hfits
  rw [h.remap_eq, splitExtent, h.getD_extents]
  dsimp only
  split
  · rename_i hone
    subst hone
    have hindex : index = endOf 0 pre := by omega
    refine h.keeps (hset _) rfl ?_
    rw [hindex]
    exact replaces_single hnew hlt hend
  rename_i hmany
  obtain ⟨hroom, hplace⟩ := hfits.resolve_left hmany
  split
  · rename_i hinner
    have hindex : index = endOf 0 pre := by omega
    refine h.keeps (used_insertSingle hroom (hlen _) (hset _)) (extentFlags_insertSingle ..) ?_
    have hold := h.block
    rw [hindex] at hblock hold ⊢
    rw [Nat.sub_self, Nat.add_zero] at hold
    exact replaces_first hnew hlt hend (by omega) h.nonzero (by omega) (by omega)
  · have hindex : index = endOf 0 pre + (count - 1) := by omega
    rw [if_pos (show index - endOf 0 pre = count - 1 by omega)]
    -- the new extent comes after the shortened one
    have hshort := hset ⟨start, count - 1⟩
    rw [append_cons] at hshort
    have hused := @used_insertSingle (setExtent i _ _) _ _ new hroom (hlen _) hshort
    rw [length_append, append_assoc] at hused
    refine h.keeps hused (extentFlags_insertSingle ..) ?_
    rw [hindex]
    exact replaces_last hnew hlt hend (by omega)

theorem remap_of_not_fits (hcounts : ∀ e ∈ used i, e.count < 2 ^ 32) (hindex : index < 2 ^ 32)
    (hfits : ¬ SplitFits i index) (new : ℕ) :
    getBlock (remap i index new) index = 0 ∨ ∃ e ∈ used i, e.start ≠ 0 ∧ ∃ q < e.count,
      getBlock (remap i index new) index = (e.start + q) % 2 ^ 32 := by
  have hle := h.start_le
  have hin := h.lt
  have hend := h.fits
  have hlook : ∀ x, getBlock (setExtent i pre.length x) index =
      getBlockLoop index (endOf 0 pre) (x :: post) := by
    intro x
    have hset : used (setExtent i pre.length x) = pre ++ x :: post := take_set_slot h.slots
    rw [getBlock_of_flags (setExtent i pre.length x) h.flags, hset, h.skip]
  have hrest : ∀ o ≤ index, getBlockLoop index o post = 0 ∨ ∃ e ∈ used i, e.start ≠ 0 ∧
      ∃ q < e.count, getBlockLoop index o post = (e.start + q) % 2 ^ 32 := by
    intro o ho
    have hpost : ∀ e ∈ post, e ∈ used i := by
      intro e he
      rw [h.slots]
      exact mem_append_right _ (mem_cons_of_mem _ he)
    obtain hzero | ⟨e, he, hblock⟩ :=
      getBlockLoop_mem (by omega) ho hindex fun e he => hcounts e (hpost e he)
    · exact .inl hzero
    · exact .inr ⟨e, hpost e he, hblock⟩
  rw [h.splitFits_iff, not_or] at hfits
  obtain ⟨hmany, hfull⟩ := hfits
  rw [h.remap_eq, splitExtent, h.getD_extents]
  dsimp only
  rw [if_neg hmany]
  split
  · -- the first block: the others move down by one
    rename_i hinner
    have hno : ¬ i.extentCount < ixfsInlineExtents := fun hroom => hfull ⟨hroom, by omega⟩
    rw [insertSingle_of_full (i := setExtent i _ _) hno, hlook, show index = endOf 0 pre by omega,
      getBlockLoop_of_lt (by omega) (Nat.le_refl _) (by omega), Nat.sub_self, Nat.add_zero]
    split
    · exact .inl rfl
    · refine .inr ⟨⟨start, count⟩, ?_, h.nonzero, 1, by show 1 < count; omega, ?_⟩
      · rw [h.slots]
        exact mem_append_right _ mem_cons_self
      · show _ = (start + 1) % 2 ^ 32
        omega
  split
  · -- the last block: the index falls into what comes after the extent
    rename_i hinner
    have hno : ¬ i.extentCount < ixfsInlineExtents := fun hroom => hfull ⟨hroom, by omega⟩
    rw [insertSingle_of_full (i := setExtent i _ _) hno, hlook,
      getBlockLoop_of_ge (by omega) (by omega) (by omega)]
    exact hrest _ (by omega)
  · rw [hlook, getBlockLoop_of_ge Nat.one_pos (by omega) (by omega)]
    exact hrest _ (by omega)

end

end Remap

/-! ### The copy -/

/-- The volume on other contents of its device. -/
def Grouped.setDisk (g : Grouped) (disk : ByteMem) : Grouped :=
  { g with vol := { g.vol with disk := disk } }

theorem allocLoop_setDisk (disk : ByteMem) (g : Grouped) (gis : List ℕ) :
    allocLoop (g.setDisk disk) gis = ((allocLoop g gis).1.setDisk disk, (allocLoop g gis).2) := by
  induction gis generalizing g with
  | nil => rfl
  | cons gi gis ih =>
    rw [allocLoop, allocLoop, show (g.setDisk disk).groups = g.groups from rfl]
    cases g.groups[gi]? with
    | none => exact ih g
    | some bg =>
      dsimp only
      split
      · exact ih g
      · rw [show (g.setDisk disk).vol.bitmap = g.vol.bitmap from rfl,
          show (g.setDisk disk).vol.sb = g.vol.sb from rfl]
        cases searchGroup g.vol.bitmap g.vol.sb.dataStart bg with
        | none =>
          exact ih ⟨g.vol, g.groups.set gi ⟨bg.start, bg.count, 0, bg.start + bg.count⟩⟩
        | some b => rfl

theorem allocBlock_setDisk (disk : ByteMem) (g : Grouped) :
    allocBlock (g.setDisk disk) = ((allocBlock g).1.setDisk disk, (allocBlock g).2) := by
  show allocBlockNear (g.setDisk disk) (g.vol.sb.dataStart / ixfsBlocksPerGroup) = _
  rw [allocBlock, allocBlockNear, allocBlockNear]
  by_cases hzero : g.vol.sb.freeBlocks = 0
  · rw [if_pos hzero, if_pos (show (g.setDisk disk).vol.sb.freeBlocks = 0 from hzero)]
  · rw [if_neg hzero, if_neg (show ¬ (g.setDisk disk).vol.sb.freeBlocks = 0 from hzero)]
    exact allocLoop_setDisk disk g _

/-- What a copy on write of the mapped block `old` promises: the index is mapped to the new
block, which holds the same data, and the other indices are mapped as before. -/
structure CowKeeps (g : Grouped) (i : Inode) (index old : ℕ) (r : Grouped × Inode × ℕ) :
    Prop where
  mapped : getBlock r.2.1 index = r.2.2
  copied : ∀ x < 4096, readBuf r.1.vol.disk r.2.2 x = readBuf g.vol.disk old x
  others : ∀ j < 2 ^ 32, j ≠ index → getBlock r.2.1 j = getBlock i j

/-- A mounted volume with an inode whose blocks are in use. -/
structure CowReady (g : Grouped) (i : Inode) : Prop where
  consistent : Consistent g
  refcounts : ∀ t, g.vol.refcounts = some t → t.bytes < 2 ^ 32
  slots : i.extents.length = ixfsInlineExtents
  counts : ∀ e ∈ i.extents, e.count < 2 ^ 32
  inUse : ∀ e ∈ used i, e.start ≠ 0 → ∀ q < e.count,
    Bitmap.test g.vol.bitmap ((e.start + q) % 2 ^ 32) = true

@[simp] theorem disk_moveReference (g : Grouped) (t : Refcounts) (old new : ℕ) :
    (moveReference g t old new).vol.disk = g.vol.disk := by
  rw [moveReference]
  generalize Function.update _ old _ = table
  dsimp only
  split <;> rfl

theorem readBuf_copyBlock (fails : ℕ → Bool) (g : Grouped) (old new : ℕ) {x : ℕ} (hx : x < 4096) :
    readBuf (copyBlock fails g old new).vol.disk new x =
      readBuf g.vol.disk (if fails old then new else old) x := by
  rw [copyBlock]
  split
  · rfl
  · show writeBuf g.vol.disk new (readBuf g.vol.disk old) (4096 * new + x) = _
    rw [writeBuf, if_pos (by omega), show (4096 * new + x) % 4096 = x by omega]

variable {fails : ℕ → Bool} {memory : Bool} {g : Grouped} {old : ℕ}

theorem cowBlock_done (hdone : (cowBlock fails memory g i index old).2.2 ≠ old) :
    ∃ t, g.vol.refcounts = some t ∧ old ≠ 0 ∧ old < t.bytes ∧ (allocBlock g).2 ≠ 0 ∧
      ∀ disk, cowBlock fails memory (g.setDisk disk) i index old =
        (moveReference (copyBlock fails ((allocBlock g).1.setDisk disk) old (allocBlock g).2) t old
          (allocBlock g).2, remap i index (allocBlock g).2, (allocBlock g).2) := by
  rw [cowBlock] at hdone
  cases ht : g.vol.refcounts with
  | none =>
    rw [ht] at hdone
    exact absurd rfl hdone
  | some t =>
    rw [ht] at hdone
    dsimp only at hdone
    split at hdone
    · exact absurd rfl hdone
    rename_i hshared
    split at hdone
    · exact absurd rfl hdone
    rename_i hnew
    split at hdone
    · rename_i hmemory
      obtain ⟨hold, hbytes, -⟩ := not_or.mp hshared |>.imp_right not_or.mp
      refine ⟨t, rfl, hold, Nat.not_le.mp hbytes, hnew, ?_⟩
      intro disk
      rw [cowBlock, show (g.setDisk disk).vol.refcounts = some t from ht]
      dsimp only
      rw [if_neg hshared, allocBlock_setDisk, if_neg hnew, if_pos hmemory]
    · exact absurd rfl hdone

/-- A copy on write keeps the map of the file and its data, whatever the device holds, exactly
when the block can be read and the extents have room for the pieces. -/
theorem cowBlock_keeps_iff (fails : ℕ → Bool) (memory : Bool) (g : Grouped) (i : Inode)
    (index old : ℕ) (h : CowReady g i) (hindex : index < 2 ^ 32) (hmapped : getBlock i index = old)
    (hdone : (cowBlock fails memory g i index old).2.2 ≠ old) :
    (∀ disk, CowKeeps (g.setDisk disk) i index old
      (cowBlock fails memory (g.setDisk disk) i index old)) ↔
        fails old = false ∧ SplitFits i index := by
  obtain ⟨t, ht, hold, hbytes, hnew, hrun⟩ := cowBlock_done hdone
  obtain ⟨pre, start, count, post, hin⟩ := exists_inExtent h.counts (hmapped.trans_ne hold)
  obtain ⟨⟨hfloor, htotal, hclear⟩, -⟩ := allocBlock_ok h.consistent hnew
  have hlt : (allocBlock g).2 < 2 ^ 32 := by
    have hsmall := h.consistent.small
    omega
  have hblock : getBlock i index ≠ 2 ^ 32 - 1 := by
    have hword := h.refcounts t ht
    omega
  have hne : (allocBlock g).2 ≠ old := by
    have hle := hin.start_le
    have hend := hin.lt
    have hused := h.inUse ⟨start, count⟩ (hin.slots ▸ mem_append_right _ mem_cons_self)
      hin.nonzero (index - endOf 0 pre) (by show _ < count; omega)
    rw [← hin.block, hmapped] at hused
    rintro heq
    rw [heq, hused] at hclear
    exact Bool.noConfusion hclear
  constructor
  · intro hkeeps
    constructor
    · by_contra hfails
      have hcopied := (hkeeps fun x => if x / 4096 = old then 1 else 0).copied 0 (by omega)
      generalize allocBlock g = r at hrun hne
      rw [hrun, disk_moveReference, readBuf_copyBlock _ _ _ _ (by omega),
        if_pos (Bool.eq_true_of_not_eq_false hfails)] at hcopied
      revert hcopied
      show (if _ then (1 : UInt8) else 0) = (if _ then 1 else 0) → False
      rw [if_neg (by omega), if_pos (by omega)]
      decide
    · by_contra hfits
      have hto := (hkeeps g.vol.disk).mapped
      rw [hrun] at hto
      dsimp only at hto
      have hcounts : ∀ e ∈ used i, e.count < 2 ^ 32 :=
        fun e he => h.counts e (mem_of_mem_take he)
      obtain hzero | ⟨e, he, hstart, q, hq, heq⟩ :=
        remap_of_not_fits hin hcounts hindex hfits (allocBlock g).2
      · exact hnew (hto.symm.trans hzero)
      · have hused := h.inUse e he hstart q hq
        rw [← heq, hto, hclear] at hused
        exact Bool.noConfusion hused
  · rintro ⟨hfails, hfits⟩ disk
    obtain ⟨hmap, hothers⟩ := remap_of_fits hin h.slots hfits hblock hnew hlt
    rw [hrun]
    constructor
    case mapped =>
      dsimp only
      exact hmap
    case copied =>
      intro x hx
      rw [disk_moveReference, readBuf_copyBlock _ _ _ _ hx, hfails]
      rfl
    case others =>
      dsimp only
      exact hothers

/-- `smallVolume` with two references to every block. -/
def sharedVolume : Grouped := initGroups { smallVolume with refcounts := some ⟨16, fun _ => 2⟩ }

def sharedFile : Inode := ⟨ixfsSFile, 1, 12288, 3, [⟨4, 3⟩, ⟨0, 0⟩, ⟨0, 0⟩, ⟨0, 0⟩], 1, 0⟩

theorem sharedFile_ready : CowReady sharedVolume sharedFile where
  consistent := by
    have h := smallVolume_consistent
    exact ⟨h.floor, h.order, h.small, h.metadata, h.free, h.length, h.group⟩
  refcounts := by
    rintro t ht
    obtain rfl := some.inj ht
    decide
  slots := rfl
  counts := by decide
  inUse := by
    intro e he _ q hq
    obtain rfl : e = ⟨4, 3⟩ := mem_singleton.mp he
    have hthree : q < 3 := hq
    obtain rfl | rfl | rfl : q = 0 ∨ q = 1 ∨ q = 2 := by omega
    all_goals rfl

theorem cowBlock_keeps_first : CowKeeps (sharedVolume.setDisk fun _ => 7) sharedFile 0 4
      (cowBlock (fun _ => false) true (sharedVolume.setDisk fun _ => 7) sharedFile 0 4) :=
  (cowBlock_keeps_iff (fun _ => false) true sharedVolume sharedFile 0 4 sharedFile_ready (by decide)
    rfl (by decide)).mpr ⟨rfl, 0, 0, rfl, .inr ⟨by decide, .inl rfl⟩⟩ fun _ => 7

/-- The copy of the second block takes the place of the first one, and the other two blocks of
the file are lost. -/
theorem cowBlock_loses_middle :
    let r := cowBlock (fun _ => false) true sharedVolume sharedFile 1 5
    CowReady sharedVolume sharedFile ∧ (∀ j < 3, getBlock sharedFile j = 4 + j) ∧ r.2.2 = 9 ∧
      getBlock r.2.1 0 = 9 ∧ getBlock r.2.1 1 = 0 ∧ getBlock r.2.1 2 = 0 ∧
      ¬ CowKeeps sharedVolume sharedFile 1 5 r := by
  intro r
  have hnew : r.2.2 = 9 := by decide
  have hlost : getBlock r.2.1 1 = 0 := by decide
  refine ⟨sharedFile_ready, by decide, hnew, by decide, hlost, by decide, ?_⟩
  intro h
  have hmapped := h.mapped
  rw [hnew, hlost] at hmapped
  contradiction

end ImpossibleOs.Ixfs
