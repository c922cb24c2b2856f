import ImpossibleOs.Mm.Frames

/-!
`pmm_init` on an arbitrary boot memory map: its checks, and which frames it
leaves free.

An entry is freed over the frames from the one that contains its base to the
last one that ends within it, so the first may begin below the base; a frame
shared with an entry of another type is freed as well.
-/

namespace ImpossibleOs.Mm

open ByteMem List

/-! ### The input -/

/-- An entry of `g_boot_info.mmap`. -/
structure BootMmapEntry where
  baseAddr : ℕ
  length : ℕ
  uefiMemoryType : ℕ
  base_lt : baseAddr < 2 ^ 64
  length_lt : length < 2 ^ 64

/-- The types that are freed: conventional, loader and boot services memory. -/
def BootMmapEntry.usable (e : BootMmapEntry) : Bool :=
  e.uefiMemoryType = 7 || e.uefiMemoryType = 1 || e.uefiMemoryType = 2 ||
    e.uefiMemoryType = 3 || e.uefiMemoryType = 4

def BootMmapEntry.entry (e : BootMmapEntry) : MmapEntry := ⟨e.baseAddr, e.length, e.usable⟩

def bootMmapMaxEntries : ℕ := 512

/-- A region of the table of `boot_reserved.c`. -/
structure BootReservedRegion where
  physStart : ℕ
  length : ℕ
  payload : Bool

/-- What `pmm_init` goes by: the map, the end of the kernel image, the published boot stack, the
table of retained regions (`none` when it cannot be populated) and the stack pointer. The kernel
image lies between 1 MiB and the end of the identity map. -/
structure BootInput where
  mmap : List BootMmapEntry
  kernelEnd : ℕ
  bootStack : Option (ℕ × ℕ)
  reserved : Option (List BootReservedRegion)
  rsp : ℕ
  kernel_le : 0x100000 ≤ kernelEnd
  kernel_lt : kernelEnd < pmmPhysAddrCap

def BootInput.entries (i : BootInput) : List MmapEntry := i.mmap.map BootMmapEntry.entry

def BootInput.totalFrames (i : BootInput) : ℕ :=
  min (highestAddr i.entries) pmmPhysAddrCap / pmmFrameSize

def BootInput.bitmapEnd (i : BootInput) : ℕ := pageAlign (i.kernelEnd + (i.totalFrames + 7) / 8)

/-- The ranges that are reserved again whatever the map says. -/
def BootInput.internal (i : BootInput) : List (ℕ × ℕ) :=
  [(0, 0x100000), (0x100000, i.kernelEnd - 0x100000), (i.kernelEnd, i.bitmapEnd - i.kernelEnd),
    (userPtWindowBase, userPtWindowSize)]

/-! ### The checks -/

/-- `base + length < base` for an entry that is not empty. -/
def BootMmapEntry.wraps (e : BootMmapEntry) : Bool :=
  e.length ≠ 0 && u64 (e.baseAddr + e.length) < e.baseAddr

def bootStackOverlaps (stack : ℕ × ℕ) (start len : ℕ) : Bool :=
  len ≠ 0 && start ≤ u64 (start + len) && stack.1 < u64 (start + len) &&
    start < u64 (stack.1 + stack.2)

def rangesOverlap (aStart aLen bStart bLen : ℕ) : Bool :=
  aLen ≠ 0 && bLen ≠ 0 && aStart < u64 (bStart + bLen) && bStart < u64 (aStart + aLen)

def BootInput.stackMisplaced (i : BootInput) : Bool :=
  i.bootStack.any fun s =>
    bootStackOverlaps s 0x100000 (i.kernelEnd - 0x100000) ||
      bootStackOverlaps s i.kernelEnd (i.bitmapEnd - i.kernelEnd)

/-- A payload lies in a range of the allocator's own. -/
def BootInput.payloadMisplaced (i : BootInput) (table : List BootReservedRegion) : Bool :=
  table.any fun e => e.payload && i.internal.any fun r => rangesOverlap e.physStart e.length r.1 r.2

def BootInput.stackAllocatable (i : BootInput) (p : Pmm) : Bool :=
  (i.bootStack.any fun s =>
    (List.range' (s.1 / pmmFrameSize) (u64 (s.1 + s.2) / pmmFrameSize - s.1 / pmmFrameSize)).any
      fun f => p.totalFrames ≤ f || !p.used f) ||
  (p.totalFrames ≤ i.rsp / pmmFrameSize || !p.used ((i.rsp - 8) / pmmFrameSize) ||
    !p.used (i.rsp / pmmFrameSize))

/-- `pmm_init`: `none` when it stops the boot. -/
def pmmInitBoot (i : BootInput) : Option Pmm :=
  if bootMmapMaxEntries < i.mmap.length then none
  else if i.mmap.any BootMmapEntry.wraps then none
  else if i.stackMisplaced then none
  else
    match i.reserved with
    | none => none
    | some table =>
      if i.payloadMisplaced table then none
      else
        let p := pmmInit i.entries i.kernelEnd (table.map fun e => (e.physStart, e.length))
        if i.stackAllocatable p then none
        else if 0 < p.totalFrames ∧ p.usedFrames < p.totalFrames then some p
        else none

/-! ### Which frames are free -/

def Reserves (r : ℕ × ℕ) (f : ℕ) : Prop :=
  r.1 / pmmFrameSize ≤ f ∧ f < u64 (r.1 + r.2 + pmmFrameSize - 1) / pmmFrameSize

def Frees (e : MmapEntry) (f : ℕ) : Prop :=
  e.base / pmmFrameSize ≤ f ∧ f < u64 (e.base + e.length) / pmmFrameSize

variable {p : Pmm} {i : BootInput} {f : ℕ}

theorem mem_framesOf_iff {start stop f : ℕ} (hf : f < p.totalFrames) :
    f ∈ framesOf p start stop ↔ start ≤ f ∧ f < stop := by
  rw [framesOf, mem_range'_1]
  omega

theorem used_pmmMarkRegionUsed_iff {base length f : ℕ} (hf : f < p.totalFrames) :
    (pmmMarkRegionUsed p base length).used f = true ↔
      Reserves (base, length) f ∨ p.used f = true := by
  rw [pmmMarkRegionUsed, used_foldl_markUsed, Bool.or_eq_true, decide_eq_true_eq,
    mem_framesOf_iff hf]
  rfl

theorem used_foldl_markFree (l : List ℕ) (p : Pmm) (j : ℕ) :
    (l.foldl markFree p).used j = (j ∉ l && p.used j) := by
  induction l generalizing p with
  | nil => simp
  | cons f l ih =>
    rw [foldl_cons, ih, used_markFree, Bool.eq_iff_iff]
    simp only [Bool.and_eq_true, decide_eq_true_eq, mem_cons]
    tauto

theorem used_pmmMarkRegionFree_iff {base length f : ℕ} (hf : f < p.totalFrames)
    (usable : Bool) : (pmmMarkRegionFree p base length).used f = true ↔
      ¬ Frees ⟨base, length, usable⟩ f ∧ p.used f = true := by
  rw [pmmMarkRegionFree, used_foldl_markFree, Bool.and_eq_true, decide_eq_true_eq,
    mem_framesOf_iff hf]
  rfl

theorem used_foldl_regions (l : List (ℕ × ℕ)) (hf : f < p.totalFrames) :
    (l.foldl (fun p r => pmmMarkRegionUsed p r.1 r.2) p).used f = true ↔
      (∃ r ∈ l, Reserves r f) ∨ p.used f = true := by
  induction l generalizing p with
  | nil => simp
  | cons r l ih =>
    have hkept := (pmmMarkRegionUsed_kept p r.1 r.2).total
    rw [foldl_cons, ih (by omega), used_pmmMarkRegionUsed_iff hf]
    simp only [mem_cons, exists_eq_or_imp, Prod.mk.eta]
    rw [or_left_comm, or_assoc]

theorem used_foldl_entries (l : List MmapEntry) (hf : f < p.totalFrames) :
    (l.foldl (fun p e => if e.usable then pmmMarkRegionFree p e.base e.length else p) p).used f =
        true ↔
      (∀ e ∈ l, e.usable = true → ¬ Frees e f) ∧ p.used f = true := by
  induction l generalizing p with
  | nil => simp
  | cons e l ih =>
    rw [foldl_cons]
    cases husable : e.usable with
    | false =>
      rw [if_neg Bool.false_ne_true, ih hf]
      simp [husable]
    | true =>
      have hkept := (pmmMarkRegionFree_kept p e.base e.length).total
      rw [if_pos rfl, ih (by omega), used_pmmMarkRegionFree_iff hf e.usable]
      simp only [mem_cons, forall_eq_or_imp, husable, true_imp_iff]
      tauto

theorem used_pmmInit_iff (mmap : List MmapEntry) (kernelEnd : ℕ) (reserved : List (ℕ × ℕ))
    (hf : f < (pmmInit mmap kernelEnd reserved).totalFrames) :
    let total := min (highestAddr mmap) pmmPhysAddrCap / pmmFrameSize
    let bitmapEnd := pageAlign (kernelEnd + (total + 7) / 8)
    (pmmInit mmap kernelEnd reserved).used f = true ↔
      (∃ r ∈ [(0, 0x100000), (0x100000, kernelEnd - 0x100000), (kernelEnd, bitmapEnd - kernelEnd),
        (userPtWindowBase, userPtWindowSize)] ++ reserved, Reserves r f) ∨
      ∀ e ∈ mmap, e.usable = true → ¬ Frees e f := by
  rw [pmmInit_total] at hf
  intro total bitmapEnd
  have hfirst : (⟨fun _ => 0xFF, total, total⟩ : Pmm).used f = true := Bitmap.test_of_full rfl
  have hentries := used_foldl_entries mmap (p := ⟨fun _ => 0xFF, total, total⟩) hf
  have htotal := (@foldl_regions_kept _ (fun p e =>
    if e.usable then pmmMarkRegionFree p e.base e.length else p) (fun p e => by
      split
      · exact pmmMarkRegionFree_kept p _ _
      · exact Kept.refl p) mmap ⟨fun _ => 0xFF, total, total⟩).total
  have hregions := used_foldl_regions ([(0, 0x100000), (0x100000, kernelEnd - 0x100000),
    (kernelEnd, bitmapEnd - kernelEnd), (userPtWindowBase, userPtWindowSize)] ++ reserved)
    (p := mmap.foldl (fun p e => if e.usable then pmmMarkRegionFree p e.base e.length else p)
      ⟨fun _ => 0xFF, total, total⟩) (f := f) (by rw [htotal]; exact hf)
  rw [hentries, hfirst, and_iff_left rfl] at hregions
  rw [← hregions, foldl_append]
  simp only [foldl_cons, foldl_nil, pmmInit, Pmm.bitmapSize]
  exact Iff.rfl

/-! ### Admission -/

def InFrame (f x : ℕ) : Prop := f * pmmFrameSize ≤ x ∧ x < (f + 1) * pmmFrameSize

def BootMmapEntry.Covers (e : BootMmapEntry) (x : ℕ) : Prop :=
  e.baseAddr ≤ x ∧ x < e.baseAddr + e.length

/-- What is promised of the frames that are left free. -/
structure Admitted (i : BootInput) (p : Pmm) : Prop where
  usable : ∀ f < p.totalFrames, p.used f = false → ∀ x, InFrame f x →
    ∃ e ∈ i.mmap, e.usable = true ∧ e.Covers x
  other : ∀ f < p.totalFrames, p.used f = false → ∀ x, InFrame f x →
    ∀ e ∈ i.mmap, e.usable = false → ¬ e.Covers x
  internal : ∀ f < p.totalFrames, p.used f = false → ∀ x, InFrame f x →
    ¬ x < 0x100000 ∧ ¬ (0x100000 ≤ x ∧ x < i.kernelEnd) ∧
    ¬ (i.kernelEnd ≤ x ∧ x < i.kernelEnd + p.bitmapSize) ∧
    ¬ (userPtWindowBase ≤ x ∧ x < userPtWindowBase + userPtWindowSize)

/-- The ranges that are reserved whatever the map says. -/
def BootInput.retained (i : BootInput) : List (ℕ × ℕ) :=
  i.internal ++ (i.reserved.getD []).map fun e => (e.physStart, e.length)

/-- Every frame that a usable entry frees, apart from the reserved ones, lies in usable entries as
far as it begins below the entry's base, and shares no byte with an entry of another type. -/
def BootInput.Clean (i : BootInput) : Prop :=
  ∀ e ∈ i.mmap, e.usable = true → ∀ f < i.totalFrames, Frees e.entry f →
    (∀ r ∈ i.retained, ¬ Reserves r f) →
    (∀ x, InFrame f x → x < e.baseAddr → ∃ e' ∈ i.mmap, e'.usable = true ∧ e'.Covers x) ∧
    ∀ n ∈ i.mmap, n.usable = false → ∀ x, InFrame f x → ¬ n.Covers x

theorem pmmInitBoot_eq (h : pmmInitBoot i = some p) :
    (∀ e ∈ i.mmap, e.wraps = false) ∧ ∃ table, i.reserved = some table ∧
      p = pmmInit i.entries i.kernelEnd (table.map fun e => (e.physStart, e.length)) := by
  unfold pmmInitBoot at h
  split_ifs at h with hcount hwraps hstack
  cases hres : i.reserved with
  | none => simp [hres] at h
  | some table =>
    simp only [hres] at h
    split_ifs at h
    refine ⟨?_, table, rfl, (Option.some.inj h).symm⟩
    intro e he
    cases hw : e.wraps with
    | false => rfl
    | true => exact absurd (any_eq_true.mpr ⟨e, he, hw⟩) hwraps

theorem u64_end {e : BootMmapEntry} (h : e.wraps = false) :
    u64 (e.baseAddr + e.length) = e.baseAddr + e.length := by
  have hb := e.base_lt
  have hl := e.length_lt
  unfold BootMmapEntry.wraps at h
  unfold u64 at h ⊢
  simp only [Bool.and_eq_false_imp, decide_eq_true_eq, decide_eq_false_iff_not] at h
  by_cases hzero : e.length = 0
  · rw [hzero]
    omega
  · have := h hzero
    omega

theorem free_iff (h : pmmInitBoot i = some p) (hf : f < p.totalFrames) :
    p.used f = false ↔ (∃ e ∈ i.mmap, e.usable = true ∧ Frees e.entry f) ∧
      ∀ r ∈ i.retained, ¬ Reserves r f := by
  obtain ⟨-, table, htable, rfl⟩ := pmmInitBoot_eq h
  have hused := used_pmmInit_iff i.entries i.kernelEnd
    (table.map fun e => (e.physStart, e.length)) hf
  dsimp only at hused
  rw [← Bool.not_eq_true, hused, not_or]
  have hret : i.retained = [(0, 0x100000), (0x100000, i.kernelEnd - 0x100000),
      (i.kernelEnd, pageAlign (i.kernelEnd +
        (min (highestAddr i.entries) pmmPhysAddrCap / pmmFrameSize + 7) / 8) - i.kernelEnd),
      (userPtWindowBase, userPtWindowSize)] ++ table.map fun e => (e.physStart, e.length) := by
    rw [BootInput.retained, htable, Option.getD_some]
    rfl
  rw [← hret, and_comm]
  refine and_congr ?_ ?_
  · constructor
    · intro hall
      by_contra hnone
      apply hall
      intro e he husable hfrees
      obtain ⟨b, hb, rfl⟩ := mem_map.mp he
      exact hnone ⟨b, hb, husable, hfrees⟩
    · rintro ⟨b, hb, husable, hfrees⟩ hall
      exact hall b.entry (mem_map_of_mem hb) husable hfrees
  · constructor
    · intro hnone r hr hres
      exact hnone ⟨r, hr, hres⟩
    · rintro hall ⟨r, hr, hres⟩
      exact hall r hr hres

theorem totalFrames_eq (h : pmmInitBoot i = some p) : p.totalFrames = i.totalFrames := by
  obtain ⟨-, table, -, rfl⟩ := pmmInitBoot_eq h
  rw [pmmInit_total]
  rfl

theorem reserves_of_mem {base length f x : ℕ} (hwrap : base + length + pmmFrameSize - 1 < 2 ^ 64)
    (hx : InFrame f x) (hlo : base ≤ x) (hhi : x < base + length) : Reserves (base, length) f := by
  unfold InFrame pmmFrameSize at hx
  unfold Reserves u64 pmmFrameSize at *
  dsimp only at *
  rw [Nat.mod_eq_of_lt hwrap]
  omega

theorem totalFrames_le (i : BootInput) : i.totalFrames ≤ 2 ^ 20 := by
  unfold BootInput.totalFrames pmmPhysAddrCap pmmFrameSize
  omega

theorem le_bitmapEnd (i : BootInput) :
    i.kernelEnd + (i.totalFrames + 7) / 8 ≤ i.bitmapEnd ∧ i.bitmapEnd < 2 ^ 33 := by
  have htotal := totalFrames_le i
  have hkernel := i.kernel_lt
  unfold BootInput.bitmapEnd pageAlign pmmFrameSize
  unfold pmmPhysAddrCap at hkernel
  omega

theorem free_internal (h : pmmInitBoot i = some p)
    (hres : ∀ r ∈ i.retained, ¬ Reserves r f) {x : ℕ} (hx : InFrame f x) :
    ¬ x < 0x100000 ∧ ¬ (0x100000 ≤ x ∧ x < i.kernelEnd) ∧
    ¬ (i.kernelEnd ≤ x ∧ x < i.kernelEnd + p.bitmapSize) ∧
    ¬ (userPtWindowBase ≤ x ∧ x < userPtWindowBase + userPtWindowSize) := by
  obtain ⟨hbitmap, hend⟩ := le_bitmapEnd i
  have hkernel := i.kernel_lt
  have hlow := i.kernel_le
  unfold pmmPhysAddrCap at hkernel
  have hsize : p.bitmapSize = (i.totalFrames + 7) / 8 := by
    rw [Pmm.bitmapSize, totalFrames_eq h]
  have hin : ∀ r ∈ i.internal, ¬ Reserves r f := fun r hr =>
    hres r (mem_append_left _ hr)
  refine ⟨fun hc => ?_, fun hc => ?_, fun hc => ?_, fun hc => ?_⟩
  · exact hin (0, 0x100000) (by simp [BootInput.internal])
      (reserves_of_mem (by unfold pmmFrameSize; omega) hx (Nat.zero_le x) (by omega))
  · exact hin (0x100000, i.kernelEnd - 0x100000) (by simp [BootInput.internal])
      (reserves_of_mem (by unfold pmmFrameSize; omega) hx hc.1 (by omega))
  · exact hin (i.kernelEnd, i.bitmapEnd - i.kernelEnd) (by simp [BootInput.internal])
      (reserves_of_mem (by unfold pmmFrameSize; omega) hx hc.1 (by omega))
  · exact hin (userPtWindowBase, userPtWindowSize) (by simp [BootInput.internal])
      (reserves_of_mem (by unfold userPtWindowBase userPtWindowSize pmmFrameSize; omega) hx hc.1
        hc.2)

/-- After `pmm_init` the free frames lie in usable entries only, and apart from the entries of
other types, the low memory, the kernel image, the bitmap and the page-table window, exactly when
the map is clean. -/
theorem pmmInitBoot_admitted (i : BootInput) (p : Pmm) (h : pmmInitBoot i = some p) :
    Admitted i p ↔ i.Clean := by
  have htotal := totalFrames_eq h
  constructor
  · intro hadm e he husable f hf hfrees hres
    rw [← htotal] at hf
    have hfree := (free_iff h hf).mpr ⟨⟨e, he, husable, hfrees⟩, hres⟩
    exact ⟨fun x hx _ => hadm.usable f hf hfree x hx,
      fun n hn hother x hx => hadm.other f hf hfree x hx n hn hother⟩
  · intro hclean
    refine ⟨?_, ?_, ?_⟩
    · intro f hf hfree x hx
      obtain ⟨⟨e, he, husable, hfrees⟩, hres⟩ := (free_iff h hf).mp hfree
      by_cases hbelow : x < e.baseAddr
      · exact (hclean e he husable f (by omega) hfrees hres).1 x hx hbelow
      · -- The frame ends within the entry.
        have hend := hfrees.2
        have hwraps := (pmmInitBoot_eq h).1 e he
        rw [show e.entry.base = e.baseAddr from rfl, show e.entry.length = e.length from rfl,
          u64_end hwraps] at hend
        unfold InFrame pmmFrameSize at hx
        unfold pmmFrameSize at hend
        exact ⟨e, he, husable, by omega, by omega⟩
    · intro f hf hfree x hx n hn hother
      obtain ⟨⟨e, he, husable, hfrees⟩, hres⟩ := (free_iff h hf).mp hfree
      exact (hclean e he husable f (by omega) hfrees hres).2 n hn hother x hx
    · intro f hf hfree x hx
      exact free_internal h ((free_iff h hf).mp hfree).2 hx

/-- Four usable frames above a small kernel, and an entry of `uefi_memory_type` 7 or 0 for the
third of them. -/
def smallBoot (uefiMemoryType : ℕ) : BootInput where
  mmap := [⟨0x110000, 0x4000, 7, by decide, by decide⟩,
    ⟨0x112000, 0x1000, uefiMemoryType, by decide, by decide⟩]
  kernelEnd := 0x101000
  bootStack := none
  reserved := some []
  rsp := 0x100800
  kernel_le := by decide
  kernel_lt := by decide

theorem smallBoot_boots (t : ℕ) (ht : t = 0 ∨ t = 7) : (pmmInitBoot (smallBoot t)).isSome := by
  rcases ht with rfl | rfl <;> decide +kernel

/-- The entry of another type inside a usable one is freed with it. -/
theorem pmmInitBoot_not_admitted :
    ∃ p, pmmInitBoot (smallBoot 0) = some p ∧ ¬ Admitted (smallBoot 0) p ∧
      p.used 0x112 = false := by
  obtain ⟨p, hp⟩ := Option.isSome_iff_exists.mp (smallBoot_boots 0 (.inl rfl))
  have hframe : 0x112 < p.totalFrames := by
    rw [totalFrames_eq hp]
    decide
  have hfree : p.used 0x112 = false := by
    refine (free_iff hp hframe).mpr ⟨⟨_, mem_cons_self, rfl, ?_⟩, ?_⟩
    · unfold Frees
      decide
    · unfold Reserves
      decide
  refine ⟨p, hp, fun hadm => ?_, hfree⟩
  refine hadm.other 0x112 hframe hfree 0x112000 (by unfold InFrame; decide)
    ⟨0x112000, 0x1000, 0, by decide, by decide⟩ ?_ rfl (by unfold BootMmapEntry.Covers; decide)
  simp [smallBoot]

/-- With a usable entry in its place the map is clean. -/
theorem pmmInitBoot_admitted_smallBoot :
    ∃ p, pmmInitBoot (smallBoot 7) = some p ∧ Admitted (smallBoot 7) p := by
  obtain ⟨p, hp⟩ := Option.isSome_iff_exists.mp (smallBoot_boots 7 (.inr rfl))
  refine ⟨p, hp, (pmmInitBoot_admitted (smallBoot 7) p hp).mpr ?_⟩
  intro e he husable f hf hfrees hres
  refine ⟨?_, ?_⟩
  · -- Both bases are at the start of a frame.
    intro x hx hbelow
    have halign : e.baseAddr % 4096 = 0 := by
      simp only [smallBoot, mem_cons, not_mem_nil, or_false] at he
      rcases he with rfl | rfl <;> decide
    have hfirst := hfrees.1
    unfold InFrame pmmFrameSize at hx
    unfold pmmFrameSize at hfirst
    rw [show e.entry.base = e.baseAddr from rfl] at hfirst
    omega
  · intro n hn hother
    simp only [smallBoot, mem_cons, not_mem_nil, or_false] at hn
    rcases hn with rfl | rfl <;> exact absurd hother (by decide)

theorem used_of_total_le (mmap : List MmapEntry) (kernelEnd : ℕ) (reserved : List (ℕ × ℕ))
    (hf : (pmmInit mmap kernelEnd reserved).totalFrames ≤ f) :
    (pmmInit mmap kernelEnd reserved).used f = true := by
  rw [pmmInit_total] at hf
  let Above (p : Pmm) : Prop := p.totalFrames ≤ f ∧ p.used f = true
  have hmark : ∀ (p : Pmm) (base length : ℕ), Above p → Above (pmmMarkRegionUsed p base length) :=
    fun p _ _ h => ⟨(pmmMarkRegionUsed_kept p _ _).total.trans_le h.1, used_pmmMarkRegionUsed h.2⟩
  refine (foldlRecOn (motive := Above) reserved _ (hmark _ _ _ (hmark _ _ _ (hmark _ _ _
    (hmark _ _ _ (foldlRecOn (motive := Above) mmap _ ⟨hf, Bitmap.test_of_full rfl⟩ ?_)))))
    fun p hp r _ => hmark p _ _ hp).2
  intro p hp e _
  split
  · refine ⟨(pmmMarkRegionFree_kept p _ _).total.trans_le hp.1, ?_⟩
    rw [pmmMarkRegionFree, used_foldl_markFree, hp.2, Bool.and_true, decide_eq_true_eq]
    exact fun hmem => absurd (mem_framesOf hmem).2.2 (not_lt.mpr hp.1)
  · exact hp

/-- Only frames that are handed out are given back. -/
def FreesLive (s : PmmState) (call : PmmCall) : Prop := ∀ f ∈ call.freed, f ∈ s.live

/-- Frames in use that nobody gives back stay apart from those that are handed out. -/
theorem PmmInv.exec_append {s : PmmState} {kept : List ℕ} {call : PmmCall} (h0 : 0 ∈ kept)
    (h : PmmInv ⟨s.pmm, kept ++ s.live⟩) (hlive : FreesLive s call) :
    PmmInv ⟨(pmmExec s call).pmm, kept ++ (pmmExec s call).live⟩ := by
  have happart := disjoint_of_nodup_append h.nodup
  have hkept : kept.filter (· ∉ call.freed) = kept := by
    refine filter_eq_self.mpr fun f hf => ?_
    simpa using fun hfreed => happart hf (hlive f hfreed)
  have hexec : PmmInv (pmmExec ⟨_, kept ++ _⟩ call) := h.exec fun hz => happart h0 (hlive 0 hz)
  cases call with
  | allocFrame => simpa [pmmExec] using hexec
  | allocContiguous count => simpa [pmmExec] using hexec
  | freeFrame addr => simpa only [pmmExec, filter_append, hkept] using hexec
  | freeContiguous base count => simpa only [pmmExec, filter_append, hkept] using hexec
  | markUsed base length => exact hexec

/-- However the allocator is used after a boot, as long as only frames that are handed out are
given back: the frames handed out are distinct and hold no byte of the low memory, the kernel
image, the bitmap, the page-table window or a region of the table. -/
theorem pmmRun_withholds (i : BootInput) (p : Pmm) (table : List BootReservedRegion)
    (calls : List PmmCall) (h : pmmInitBoot i = some p) (htable : i.reserved = some table)
    (hcalls : Refine.Meets pmmExec FreesLive ⟨p, []⟩ calls) :
    FramesAccounted (calls.foldl pmmExec ⟨p, []⟩) ∧
    ∀ f ∈ (calls.foldl pmmExec ⟨p, []⟩).live, ∀ x, InFrame f x →
      (¬ x < 0x100000 ∧ ¬ (0x100000 ≤ x ∧ x < i.kernelEnd) ∧
        ¬ (i.kernelEnd ≤ x ∧ x < i.kernelEnd + p.bitmapSize) ∧
        ¬ (userPtWindowBase ≤ x ∧ x < userPtWindowBase + userPtWindowSize)) ∧
      ∀ r ∈ table, r.physStart + r.length + pmmFrameSize ≤ 2 ^ 64 →
        ¬ (r.physStart ≤ x ∧ x < r.physStart + r.length) := by
  have hinit : PmmInv ⟨p, []⟩ := by
    obtain ⟨-, t, -, rfl⟩ := pmmInitBoot_eq h
    exact pmmInit_inv ..
  -- the frames below `n` that the boot has left in use are kept through the run
  have hrun : ∀ n, PmmInv ⟨(calls.foldl pmmExec ⟨p, []⟩).pmm,
      (List.range (n + 1)).filter p.used ++ (calls.foldl pmmExec ⟨p, []⟩).live⟩ := by
    intro n
    refine hcalls.invariant (fun s => PmmInv ⟨s.pmm, (List.range (n + 1)).filter p.used ++ s.live⟩)
      (fun s c hs hc => hs.exec_append (by simpa using hinit.zero) hc) ?_
    rw [append_nil]
    exact ⟨hinit.counted, hinit.zero, nodup_range.filter _, fun f hf => (mem_filter.mp hf).2⟩
  refine ⟨PmmInv.accounted ⟨(hrun 0).counted, (hrun 0).zero, (hrun 0).nodup.of_append_right,
    fun f hf => (hrun 0).live f (mem_append_right _ hf)⟩, fun f hf x hx => ?_⟩
  have hfree : p.used f = false := by
    by_contra hused
    exact disjoint_of_nodup_append (hrun f).nodup (a := f) (by simpa using hused) hf
  have hlt : f < p.totalFrames := by
    by_contra hge
    obtain ⟨-, t, -, rfl⟩ := pmmInitBoot_eq h
    rw [used_of_total_le _ _ _ (not_lt.mp hge)] at hfree
    cases hfree
  have hout := ((free_iff h hlt).mp hfree).2
  refine ⟨free_internal h hout hx, fun r hr hwrap hin => ?_⟩
  refine hout (r.physStart, r.length) ?_
    (reserves_of_mem (by unfold pmmFrameSize at *; omega) hx hin.1 hin.2)
  rw [BootInput.retained, htable]
  exact mem_append_right _ (mem_map_of_mem hr)

/-- Three allocations after a small boot. -/
theorem pmmRun_withholds_smallBoot : ∃ p, pmmInitBoot (smallBoot 7) = some p ∧
    FramesAccounted ([.allocFrame, .allocContiguous 2, .allocFrame].foldl pmmExec ⟨p, []⟩) := by
  obtain ⟨p, hp⟩ := Option.isSome_iff_exists.mp (smallBoot_boots 7 (.inr rfl))
  have hcalls : Refine.Meets pmmExec FreesLive ⟨p, []⟩
      [.allocFrame, .allocContiguous 2, .allocFrame] := by
    simp [Refine.Meets, FreesLive, PmmCall.freed]
  exact ⟨p, hp, (pmmRun_withholds (smallBoot 7) p [] _ hp rfl hcalls).1⟩

end ImpossibleOs.Mm
