import ImpossibleOs.Heap.Calls
import ImpossibleOs.Mm.Frames

/-!
How the heap comes into being: `heap_init` on a machine whose frame allocator
is in some state, and the heap it leaves behind.

The allocator covers at most 4 GiB of physical memory, so a run of frames is
page aligned and ends below `PMM_PHYS_ADDR_CAP`.
-/

namespace ImpossibleOs.Heap

open ByteMem Function List
open Mm (Pmm pmmFrameSize pmmPhysAddrCap pmmAllocFrame pmmAllocContiguous FreeRun)

/-! ### The frames -/

/-- A state of the frame allocator. `pmm_init` caps the highest address before it counts the
frames. -/
structure CappedPmm extends Pmm where
  capped : totalFrames * pmmFrameSize ≤ pmmPhysAddrCap

/-- The answers of `n` successive `pmm_alloc_frame` calls. -/
def pmmAllocFrames : ℕ → Pmm → List ℕ
  | 0, _ => []
  | n + 1, p => (pmmAllocFrame p).2 :: pmmAllocFrames n (pmmAllocFrame p).1

/-- `heap_init` on a machine whose frame allocator is in state `p`. -/
def heapInitFrom (mem : ByteMem) (p : CappedPmm) : Option HeapState :=
  heapInit mem (pmmAllocContiguous p.toPmm (heapInitialPages + 1)).2
    (pmmAllocFrames heapInitialPages p.toPmm)

def FrameAddr (a : ℕ) : Prop := pmmFrameSize ∣ a ∧ a + pmmFrameSize ≤ pmmPhysAddrCap

theorem foldl_take_totalFrames (l : List ℕ) (p : Pmm) :
    (l.foldl Pmm.take p).totalFrames = p.totalFrames :=
  foldlRecOn (motive := fun q : Pmm => q.totalFrames = p.totalFrames) l _ rfl fun _ h _ _ => h

variable {p : Pmm} {count : ℕ} {res : Pmm × ℕ}

/-- An allocation keeps the number of frames, and hands out frames below the cap. -/
theorem allocates_capped (h : Mm.Allocates p count res)
    (hcap : p.totalFrames * pmmFrameSize ≤ pmmPhysAddrCap) :
    res.1.totalFrames = p.totalFrames ∧ (res.2 ≠ 0 →
      pmmFrameSize ∣ res.2 ∧ res.2 + count * pmmFrameSize ≤ pmmPhysAddrCap) := by
  by_cases hnone : ∀ start, ¬ FreeRun p start count
  · rw [h.full hnone]
    exact ⟨rfl, fun hne => absurd rfl hne⟩
  · push Not at hnone
    obtain ⟨_, hfree⟩ := hnone
    obtain ⟨start, hlow⟩ := Mm.exists_lowestRun hfree
    rw [h.found start hlow]
    refine ⟨foldl_take_totalFrames _ p, fun _ => ⟨Dvd.intro_left _ rfl, ?_⟩⟩
    calc start * pmmFrameSize + count * pmmFrameSize = (start + count) * pmmFrameSize := by ring
      _ ≤ p.totalFrames * pmmFrameSize := Nat.mul_le_mul_right _ hlow.1.1
      _ ≤ pmmPhysAddrCap := hcap

theorem pmmAllocFrames_addr {n a : ℕ} (hcap : p.totalFrames * pmmFrameSize ≤ pmmPhysAddrCap)
    (ha : a ∈ pmmAllocFrames n p) (hne : a ≠ 0) : FrameAddr a := by
  induction n generalizing p with
  | zero => simp [pmmAllocFrames] at ha
  | succ n ih =>
    obtain ⟨htotal, haddr⟩ := allocates_capped (Mm.pmmAllocFrame_allocates p) hcap
    rcases mem_cons.mp ha with rfl | ha
    · rw [one_mul] at haddr
      exact haddr hne
    · exact ih (htotal ▸ hcap) ha

theorem contiguousFrames_spec {base i : ℕ} (frames : List ℕ)
    (haddr : ∀ a ∈ frames, a ≠ 0 → FrameAddr a) (hi : i ≤ heapInitialPages)
    (hbase : base + i * heapPageSize ≤ pmmPhysAddrCap) :
    i ≤ contiguousFrames base i frames ∧ contiguousFrames base i frames ≤ heapInitialPages ∧
      base + contiguousFrames base i frames * heapPageSize ≤ pmmPhysAddrCap := by
  induction frames generalizing i with
  | nil => exact ⟨le_rfl, hi, hbase⟩
  | cons frame frames ih =>
    unfold contiguousFrames
    split
    · exact ⟨le_rfl, hi, hbase⟩
    · split
      · exact ⟨le_rfl, hi, hbase⟩
      · split
        · exact ⟨le_rfl, hi, hbase⟩
        · rename_i hroom hne heq
          have hframe := (haddr frame (by simp) hne).2
          have hnext : base + (i + 1) * heapPageSize ≤ pmmPhysAddrCap := by
            simp only [not_not, heapPageSize, pmmFrameSize] at heq hframe ⊢
            omega
          have := ih (fun a ha => haddr a (by simp [ha])) (by omega) hnext
          exact ⟨by omega, this.2⟩

/-- The one free block `heap_init` creates over `pages` frames. -/
def firstBlock (base pages : ℕ) : Block := ⟨base, pages * heapPageSize - headerSize, none⟩

theorem installHeap_ok {mem : ByteMem} {base pages : ℕ} (hpos : 0 < base)
    (hal : pmmFrameSize ∣ base) (hpages : 0 < pages) (hmax : pages ≤ heapInitialPages)
    (hcap : base + pages * heapPageSize ≤ pmmPhysAddrCap) :
    HeapOk (installHeap mem base pages) [firstBlock base pages] := by
  simp only [heapPageSize, pmmFrameSize, heapInitialPages, pmmPhysAddrCap] at *
  have hidx : sub64 base base / heapBitmapGranule = 0 := by
    rw [sub64_of_le le_rfl (by omega)]
    simp
  have hsize : sub64 (pages * 4096) headerSize = pages * 4096 - headerSize :=
    sub64_of_le (by simp only [headerSize]; omega) (by omega)
  have hheap : installHeap mem base pages =
      { mem := setBlockNext (setBlockIsFree (setBlockSize (zeroRange mem base (pages * 4096)) base
          (pages * 4096 - headerSize)) base 1) base 0,
        heapStartBlock := base, totalHeapSize := pages * 4096, usedBytes := 0,
        blockBitmap := update (fun _ => false) 0 true, heapPoisoned := false } := by
    simp only [installHeap, heapBmSet, heapBmIndex, heapPageSize, hidx, hsize]
    rw [if_pos (by decide)]
  rw [hheap]
  refine ⟨⟨hpos, by simp only; omega, ?_, ?_⟩, by simp only; omega, ⟨⟨rfl, ?_, ?_⟩, ?_, ?_, ?_⟩,
    ?_⟩
  · simp only [heapInitialPages, heapPageSize]
    omega
  · simp only
    omega
  · refine ⟨?_, ?_, fun _ => ⟨?_, ?_⟩, by simp [firstBlock]⟩
    · simp (disch := omega) only [firstBlock, blockSize, setBlockSize, setBlockNext,
        setBlockIsFree, heapPageSize, readLE_writeLE_of_disjoint]
      exact read8_write8_same (by omega)
    · simp (disch := omega) only [firstBlock, blockNext, setBlockNext, nextOf_nil,
        read8_write8_same]
    · simp (disch := omega) only [firstBlock, blockIsFree, setBlockSize, setBlockNext,
        setBlockIsFree, readLE_writeLE_of_disjoint, read1_write1_same]
    · simp (disch := omega) only [firstBlock, blockCookie, setBlockSize, setBlockNext,
        setBlockIsFree, readLE_writeLE_of_disjoint]
      exact readLE_zeroRange (by omega) (by omega)
  · simp only [Seg, firstBlock, Block.stop, heapPageSize, headerSize]
    omega
  · simp only [firstBlock, headerSize, mem_singleton, heapPageSize, forall_eq]
    omega
  · intro i _
    simp only [firstBlock, map_cons, map_nil, mem_singleton, heapBitmapGranule,
      minBlockSize, update_apply]
    by_cases hi : i = 0
    · simp [hi]
    · simp only [hi, if_false]
      constructor
      · intro h
        cases h
      · intro h
        omega
  · simp [firstBlock, Block.usedSize]
  · exact isChain_singleton _

theorem heapInitFrom_ok {mem : ByteMem} {p : CappedPmm} {h : HeapState}
    (hinit : heapInitFrom mem p = some h) : ∃ bs, HeapOk h bs ∧ ∀ B ∈ bs, B.user = none := by
  have hsingle : ∀ base pages, ∀ B ∈ [firstBlock base pages], B.user = none := by
    simp [firstBlock]
  unfold heapInitFrom heapInit at hinit
  split at hinit
  · rename_i hcontig
    obtain ⟨hal, hcap⟩ := (allocates_capped (Mm.pmmAllocContiguous_allocates p.toPmm
      (by simp [heapInitialPages])) p.capped).2 hcontig
    cases hinit
    refine ⟨_, installHeap_ok (by omega) hal (by decide) le_rfl ?_, hsingle _ _⟩
    simp only [heapInitialPages, heapPageSize, pmmFrameSize] at hcap ⊢
    omega
  · have haddr : ∀ a ∈ pmmAllocFrames heapInitialPages p.toPmm, a ≠ 0 → FrameAddr a :=
      fun _ => pmmAllocFrames_addr p.capped
    split at hinit
    · cases hinit
    · rename_i base rest hframes
      rw [hframes] at haddr
      split at hinit
      · cases hinit
      · rename_i hbase
        cases hinit
        have hframe := haddr base (by simp) hbase
        have hfirst : base + 1 * heapPageSize ≤ pmmPhysAddrCap := by
          rw [one_mul]
          exact hframe.2
        obtain ⟨hone, hmax, hcap⟩ := contiguousFrames_spec rest
          (fun a ha => haddr a (mem_cons_of_mem _ ha)) (by decide) hfirst
        exact ⟨_, installHeap_ok (by omega) hframe.1 (by omega) hmax hcap, hsingle _ _⟩

end ImpossibleOs.Heap
