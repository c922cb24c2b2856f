import ImpossibleOs.Ixfs.Volume

/-!
The block allocator (`ixfs_alloc.c`).

Block groups of 32768 blocks are kept in memory beside the bitmap: each has a
count of its free blocks and a hint where to look for the next one. There are
at most 256 of them, so blocks from 2^23 on belong to no group.
-/

namespace ImpossibleOs.Ixfs

open ByteMem

def ixfsBlocksPerGroup : ℕ := 32768
def ixfsMaxBlockGroups : ℕ := 256

structure BlockGroup where
  start : ℕ
  count : ℕ
  free : ℕ
  nextFree : ℕ
  deriving DecidableEq, Repr

/-- A volume with its `groups`, the first `group_count` of the array. -/
structure Grouped where
  vol : Volume
  groups : List BlockGroup

/-- One block of the loop of `ixfs_init_groups`: the free blocks so far and the hint. -/
def countFree (bitmap : ByteMem) (start : ℕ) (p : ℕ × ℕ) (b : ℕ) : ℕ × ℕ :=
  if Bitmap.test bitmap b then p
  else (p.1 + 1, if p.2 = start ∨ b < p.2 then b else p.2)

def initGroup (bitmap : ByteMem) (total g : ℕ) : BlockGroup :=
  let start := g * ixfsBlocksPerGroup
  let stop := min (start + ixfsBlocksPerGroup) total
  let p := (List.range' start (stop - start)).foldl (countFree bitmap start) (0, start)
  ⟨start, stop - start, p.1, if p.1 = 0 then stop else p.2⟩

/-- `group_count` for `total` blocks, a `uint32_t`. -/
def groupCount (total : ℕ) : ℕ :=
  min ((total + ixfsBlocksPerGroup - 1) % 2 ^ 32 / ixfsBlocksPerGroup) ixfsMaxBlockGroups

def initGroups (v : Volume) : Grouped :=
  let total := v.sb.totalBlocks % 2 ^ 32
  ⟨v, (List.range (groupCount total)).map (initGroup v.bitmap total)⟩

/-! ### Allocation -/

/-- The first free block from `b` up to `stop`. -/
def scan (bitmap : ByteMem) (b stop : ℕ) : Option ℕ :=
  (List.range' b (stop - b)).find? fun x => !Bitmap.test bitmap x

/-- The search in one group: from the hint to the end, then from the front to the hint. -/
def searchGroup (bitmap : ByteMem) (floor : ℕ) (bg : BlockGroup) : Option ℕ :=
  let stop := bg.start + bg.count
  let hint := if bg.nextFree < bg.start ∨ stop ≤ bg.nextFree then bg.start else bg.nextFree
  match scan bitmap (max hint floor) stop with
  | some b => some b
  | none => scan bitmap (if bg.start < floor then floor else bg.start) (min bg.nextFree stop)

def takeBlock (g : Grouped) (gi : ℕ) (bg : BlockGroup) (b : ℕ) : Grouped where
  vol := { g.vol with
    bitmap := Bitmap.set g.vol.bitmap b
    sb := g.vol.sb.setFreeBlocks (g.vol.sb.freeBlocks - 1) }
  groups := g.groups.set gi { bg with free := bg.free - 1, nextFree := b + 1 }

/-- The loop over the groups, in the order in which they are tried. -/
def allocLoop (g : Grouped) : List ℕ → Grouped × ℕ
  | [] => (g, 0)
  | gi :: gis =>
    match g.groups[gi]? with
    | none => allocLoop g gis
    | some bg =>
      if bg.free = 0 then allocLoop g gis
      else match searchGroup g.vol.bitmap g.vol.sb.dataStart bg with
        | some b => (takeBlock g gi bg b, b)
        | none =>
          let full := { bg with free := 0, nextFree := bg.start + bg.count }
          allocLoop { g with groups := g.groups.set gi full } gis

/-- `ixfs_alloc_block_near`: the volume afterwards and the block, 0 on failure. -/
def allocBlockNear (g : Grouped) (preferred : ℕ) : Grouped × ℕ :=
  if g.vol.sb.freeBlocks = 0 then (g, 0)
  else
    let count := g.groups.length
    let start := if preferred < count then preferred else 0
    allocLoop g ((List.range count).map fun tries => (start + tries) % count)

def allocBlock (g : Grouped) : Grouped × ℕ :=
  allocBlockNear g (g.vol.sb.dataStart / ixfsBlocksPerGroup)

def Checksums.forget (t : Checksums) (block : ℕ) : Checksums :=
  if block < t.count then { t with table := Function.update t.table block 0 } else t

def freeBlock (g : Grouped) (block : ℕ) : Grouped :=
  if block < g.vol.sb.dataStart ∨ g.vol.sb.totalBlocks ≤ block then g
  else if ¬ Bitmap.test g.vol.bitmap block then g
  else
    { vol := { g.vol with
        bitmap := Bitmap.clear g.vol.bitmap block
        sb := g.vol.sb.setFreeBlocks (g.vol.sb.freeBlocks + 1)
        checksums := g.vol.checksums.map fun t => t.forget block }
      groups := g.groups.modify (block / ixfsBlocksPerGroup) fun bg =>
        { bg with
          free := bg.free + 1
          nextFree := if block < bg.nextFree then block else bg.nextFree } }

variable {bitmap : ByteMem}

theorem scan_eq_some {b stop x : ℕ} (h : scan bitmap b stop = some x) :
    b ≤ x ∧ x < stop ∧ Bitmap.test bitmap x = false := by
  have hmem := List.mem_of_find?_eq_some h
  have hfree := List.find?_some h
  obtain ⟨hge, hlt⟩ := List.mem_range'_1.mp hmem
  refine ⟨hge, by omega, by simpa using hfree⟩

theorem scan_eq_none {b stop : ℕ} (h : scan bitmap b stop = none) {x : ℕ}
    (hge : b ≤ x) (hlt : x < stop) : Bitmap.test bitmap x = true := by
  have := List.find?_eq_none.mp h x (List.mem_range'_1.mpr ⟨hge, by omega⟩)
  simpa using this

theorem searchGroup_eq_some {floor x : ℕ} {bg : BlockGroup}
    (h : searchGroup bitmap floor bg = some x) :
    bg.start ≤ x ∧ floor ≤ x ∧ x < bg.start + bg.count ∧ Bitmap.test bitmap x = false := by
  unfold searchGroup at h
  dsimp only at h
  split at h
  · rename_i b hb
    obtain rfl : b = x := by simpa using h
    obtain ⟨hge, hlt, hfree⟩ := scan_eq_some hb
    refine ⟨?_, by omega, hlt, hfree⟩
    split at hge <;> omega
  · obtain ⟨hge, hlt, hfree⟩ := scan_eq_some h
    refine ⟨?_, ?_, by omega, hfree⟩ <;> split at hge <;> omega

theorem searchGroup_eq_none {floor x : ℕ} {bg : BlockGroup}
    (h : searchGroup bitmap floor bg = none) (hstart : bg.start ≤ x) (hfloor : floor ≤ x)
    (hlt : x < bg.start + bg.count) : Bitmap.test bitmap x = true := by
  unfold searchGroup at h
  dsimp only at h
  split at h
  · cases h
  · rename_i hfirst
    by_cases hx : max (if bg.nextFree < bg.start ∨ bg.start + bg.count ≤ bg.nextFree then bg.start
        else bg.nextFree) floor ≤ x
    · exact scan_eq_none hfirst hx hlt
    · apply scan_eq_none h
      · split <;> omega
      · split at hx <;> omega

end ImpossibleOs.Ixfs
