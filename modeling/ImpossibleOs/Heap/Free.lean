import ImpossibleOs.Heap.Alloc

/-!
Freeing: `heap_classify` recognises a live allocation, `kfree_locked` marks its
block free, and the coalescing walk merges every run of free neighbours.
-/

namespace ImpossibleOs.Heap

open ByteMem Function List

/-- The block list behind the coalescing walk, `B` being the block it stands on. -/
def coalesceList : Block → List Block → List Block
  | B, [] => [B]
  | B, N :: rest =>
    if B.user = none ∧ N.user = none then
      coalesceList ⟨B.addr, B.size + (headerSize + N.size), none⟩ rest
    else B :: coalesceList N rest

theorem coalesceList_head (B : Block) (rest : List Block) :
    ∃ C tail, coalesceList B rest = C :: tail ∧ C.user = B.user := by
  induction rest generalizing B with
  | nil => exact ⟨B, [], rfl, rfl⟩
  | cons N rest ih =>
    rw [coalesceList]
    split
    · rename_i hfree
      obtain ⟨C, tail, heq, huser⟩ := ih ⟨B.addr, B.size + (headerSize + N.size), none⟩
      exact ⟨C, tail, heq, huser.trans hfree.1.symm⟩
    · exact ⟨B, _, rfl, rfl⟩

theorem noAdjacentFree_coalesceList (B : Block) (rest : List Block) :
    NoAdjacentFree (coalesceList B rest) := by
  induction rest generalizing B with
  | nil => exact List.IsChain.singleton B
  | cons N rest ih =>
    rw [coalesceList]
    split
    · exact ih _
    · rename_i hne
      obtain ⟨C, tail, heq, huser⟩ := coalesceList_head N rest
      have htail := ih N
      rw [heq] at htail ⊢
      refine isChain_cons_cons.mpr ⟨?_, htail⟩
      rwa [huser]

theorem mem_coalesceList_of_used {C : Block} (hC : C.user ≠ none) (B : Block)
    (rest : List Block) : C ∈ coalesceList B rest ↔ C ∈ B :: rest := by
  induction rest generalizing B with
  | nil => rfl
  | cons N rest ih =>
    rw [coalesceList]
    split
    · rename_i hfree
      have hneB : C ≠ B := fun h => hC (h ▸ hfree.1)
      have hneN : C ≠ N := fun h => hC (h ▸ hfree.2)
      have hneM : C ≠ ⟨B.addr, B.size + (headerSize + N.size), none⟩ :=
        fun h => hC (h ▸ rfl)
      rw [ih]
      simp [hneB, hneN, hneM]
    · rw [mem_cons, ih, ← mem_cons]

/-! ### One turn of the walk -/

variable {h : HeapState} {B : Block} {l r : List Block}

theorem BlockOk.free_iff {m : ByteMem} {nx : ℕ} (h : BlockOk m B nx) :
    (blockIsFree m B.addr ≠ 0 ∧ blockCookie m B.addr = 0) ↔ B.user = none := by
  cases huser : B.user with
  | none =>
    have hfree := h.free huser
    simp [hfree.isFree, hfree.cookie]
  | some u =>
    have hused := h.used u.1 u.2 huser
    simp [hused.isFree]

theorem BlockOk.not_smashed {m : ByteMem} {nx : ℕ} (h : BlockOk m B nx) :
    ¬(blockIsFree m B.addr ≠ 0 ∧ blockCookie m B.addr ≠ 0) := by
  rintro ⟨hfree, hcookie⟩
  cases huser : B.user with
  | none => exact hcookie (h.free huser).cookie
  | some u => exact hfree (h.used u.1 u.2 huser).isFree

/-- The state behind the merge of a block with the free block `nxt` after it. -/
def absorbNext (h : HeapState) (curr nxt : ℕ) : HeapState :=
  let h := heapBmClear h nxt
  let m := setBlockSize h.mem curr (blockSize h.mem curr + (headerSize + blockSize h.mem nxt))
  let m := setBlockNext m curr (blockNext m nxt)
  { h with mem := m }

theorem heapBmClear_eq {b : ℕ} (hb : heapBmIndex h b < heapBitmapBits) : heapBmClear h b =
      { h with blockBitmap := update h.blockBitmap (heapBmIndex h b) false } := by
  unfold heapBmClear
  rw [if_pos hb]

theorem marks_absorb {B N : Block} (hp : Placed h) (hrep : Rep h (l ++ B :: N :: r)) :
    heapBmIndex h N.addr < heapBitmapBits ∧ Marks h.heapStartBlock
        (update h.blockBitmap (heapBmIndex h N.addr) false)
        ((l ++ B :: r).map Block.addr) := by
  obtain ⟨hlo, hhi, haddr, -⟩ := hrep.geometry hp (B := N) (by simp)
  have hstop : N.addr < N.stop := by simp only [Block.stop, headerSize]; omega
  obtain ⟨hidx, hN⟩ := heapBmIndex_spec hp hlo (by omega) haddr
  obtain ⟨hl, -, hNaddr, -, hr⟩ := hrep.around
  have hB : B.addr < B.stop := by simp only [Block.stop, headerSize]; omega
  -- the other starts lie below `B` or behind `N`
  have hother : ∀ C ∈ l ++ B :: r, C.addr ≠ N.addr := by
    intro C hC
    simp only [mem_append, mem_cons] at hC
    rcases hC with hC | rfl | hC
    · have := (seg_mem hl hC).2
      have hCstop : C.addr < C.stop := by simp only [Block.stop, headerSize]; omega
      omega
    · omega
    · have := (seg_mem hr hC).1
      omega
  refine ⟨hidx, hrep.marks.clear fun x => ?_⟩
  rw [← hN]
  constructor
  · intro hx
    obtain ⟨C, hC, rfl⟩ := mem_map.mp hx
    refine ⟨hother C hC, mem_map_of_mem ?_⟩
    simp only [mem_append, mem_cons] at hC ⊢
    tauto
  · rintro ⟨hne, hx⟩
    obtain ⟨C, hC, rfl⟩ := mem_map.mp hx
    refine mem_map_of_mem ?_
    have hCN : C ≠ N := fun h => hne (h ▸ rfl)
    simp only [mem_append, mem_cons] at hC ⊢
    tauto

theorem rep_absorbNext {B N : Block} (hp : Placed h)
    (hrep : Rep h (l ++ B :: N :: r)) (hB : B.user = none) (hN : N.user = none) :
    Rep (absorbNext h B.addr N.addr) (l ++ ⟨B.addr, B.size + (headerSize + N.size), none⟩ :: r) ∧
      SameFrame h (absorbNext h B.addr N.addr) := by
  obtain ⟨hl, hokB, hNaddr, hokN, hr⟩ := hrep.around
  obtain ⟨hidx, hmarks⟩ := marks_absorb hp hrep
  obtain ⟨hloB, -, -, hszB⟩ := hrep.geometry hp (B := B) (by simp)
  obtain ⟨-, hhiN, -, hszN⟩ := hrep.geometry hp (B := N) (by simp)
  have hbound := hp.bound
  have hnx := nextOf_lt hp hr
  have hBstop : B.stop = B.addr + headerSize + B.size := rfl
  have hNstop : N.stop = N.addr + headerSize + N.size := rfl
  simp only [headerSize] at hBstop hNstop
  have hfreeB := hokB.free hB
  have hrep' : Rep h (l ++ ([B, N] ++ r)) := hrep
  unfold absorbNext
  rw [heapBmClear_eq hidx]
  refine ⟨hrep'.replace [⟨B.addr, B.size + (headerSize + N.size), none⟩]
    (c := B.addr) (d := N.stop) hl hr ?_ (by simp) (by simp) ?_ rfl rfl ?_ ?_ ?_,
    ⟨rfl, rfl, rfl⟩⟩
  · have hNnext : readLE h.mem (N.addr + 8) 8 = nextOf 0 N.stop r := hokN.next
    have hfield : ∀ o k, 16 ≤ o → readLE (setBlockNext (setBlockSize h.mem B.addr
        (blockSize h.mem B.addr + (headerSize + blockSize h.mem N.addr))) B.addr
        (blockNext (setBlockSize h.mem B.addr (blockSize h.mem B.addr +
          (headerSize + blockSize h.mem N.addr))) N.addr)) (B.addr + o) k =
        readLE h.mem (B.addr + o) k := by
      intro o k ho
      simp (disch := omega) only [setBlockNext, setBlockSize, readLE_writeLE_of_disjoint]
    refine ⟨rfl, ⟨?_, ?_, fun _ => ⟨?_, ?_⟩, by simp⟩, ?_⟩
    · simp only [hokB.size, hokN.size, headerSize]
      simp (disch := omega) only [blockSize, setBlockNext, setBlockSize,
        readLE_writeLE_of_disjoint, read8_write8_same]
    · simp only [hokB.size, hokN.size, headerSize]
      simp (disch := omega) only [blockNext, setBlockNext, setBlockSize,
        readLE_writeLE_of_disjoint, hNnext, read8_write8_same, nextOf_nil]
    · exact (hfield 36 1 (by omega)).trans hfreeB.isFree
    · exact (hfield 16 8 (by omega)).trans hfreeB.cookie
    · simp only [Seg, Block.stop, headerSize]
      omega
  · simp only [setBlockNext, setBlockSize]
    exact (sameOutside_writeLE (by omega) (by omega)).writeLE (by omega) (by omega)
  · intro C hC
    simp only [mem_singleton] at hC
    subst hC
    simp only [headerSize]
    omega
  · simpa using hmarks
  · simp [Block.usedSize, hB, hN]

theorem seg_apart {m : ByteMem} {nx a e : ℕ} {bs : List Block} {B C : Block}
    (h : Seg m nx a e bs) (hB : B ∈ bs) (hC : C ∈ bs) (hne : C ≠ B) :
    C.stop ≤ B.addr ∨ B.stop ≤ C.addr := by
  obtain ⟨l, r, rfl⟩ := append_of_mem hB
  obtain ⟨c, hl, rfl, -, hr⟩ := seg_append.mp h
  simp only [mem_append, mem_cons] at hC
  rcases hC with hC | hC | hC
  · exact .inl (seg_mem hl hC).2
  · exact absurd hC hne
  · exact .inr (seg_mem hr hC).1

theorem absorbNext_out (h : HeapState) (curr nxt : ℕ) :
    SameOutside curr (curr + headerSize) h.mem (absorbNext h curr nxt).mem := by
  have hclear : (heapBmClear h nxt).mem = h.mem := by
    unfold heapBmClear
    split <;> rfl
  simp only [absorbNext, hclear, setBlockSize, setBlockNext, headerSize]
  exact (sameOutside_writeLE (by omega) (by omega)).writeLE (by omega) (by omega)

theorem coalesceLoop_spec {f : HeapFault} (done : List Block) {rest : List Block} (fuel : ℕ)
    (hp : Placed h) (hrep : Rep h (done ++ B :: rest)) (hfuel : rest.length < fuel) :
    ∃ h', coalesceLoop fuel h B.addr f = some (h', f) ∧
      Rep h' (done ++ coalesceList B rest) ∧ SameFrame h h' ∧
      ∀ C ∈ done ++ B :: rest, C.user ≠ none → AgreeOn C.addr C.stop h.mem h'.mem := by
  induction rest generalizing h B done fuel with
  | nil =>
    obtain ⟨fuel, rfl⟩ := Nat.exists_eq_succ_of_ne_zero (by omega : fuel ≠ 0)
    obtain ⟨-, hok, -⟩ := hrep.around
    refine ⟨h, ?_, hrep, SameFrame.refl h, fun _ _ _ => AgreeOn.refl _ _ _⟩
    rw [coalesceLoop, if_pos (.inr hok.next)]
  | cons N rest ih =>
    obtain ⟨fuel, rfl⟩ := Nat.exists_eq_succ_of_ne_zero (by omega : fuel ≠ 0)
    simp only [length_cons] at hfuel
    obtain ⟨-, hokB, hNaddr, hokN, -⟩ := hrep.around
    obtain ⟨hloB, -⟩ := hrep.geometry hp (B := B) (by simp)
    have hpos := hp.pos
    have hnext : blockNext h.mem B.addr = N.addr := hokB.next.trans hNaddr.symm
    have hNpos : N.addr ≠ 0 := by
      rw [hNaddr, Block.stop]
      omega
    rw [coalesceLoop, if_neg (by rw [hnext]; omega)]
    simp only [hnext]
    rw [if_neg hokN.not_smashed]
    by_cases hmerge : B.user = none ∧ N.user = none
    · rw [if_pos ⟨hokB.free_iff.mpr hmerge.1, hokN.free_iff.mpr hmerge.2⟩]
      obtain ⟨hrep', hframe⟩ := rep_absorbNext hp hrep hmerge.1 hmerge.2
      obtain ⟨h', hrun, hres, hframe', hkeep⟩ :=
        ih done fuel (hframe.placed hp) hrep' (by omega)
      refine ⟨h', hrun, by rwa [coalesceList, if_pos hmerge], hframe.trans hframe',
        fun C hC hused => ?_⟩
      have hCB : C ≠ B := fun hc => hused (hc ▸ hmerge.1)
      have hCN : C ≠ N := fun hc => hused (hc ▸ hmerge.2)
      have hB : B.addr + headerSize ≤ B.stop := by
        simp only [Block.stop]
        omega
      have hapart := seg_apart hrep.seg (B := B) (by simp) hC hCB
      have hone : AgreeOn C.addr C.stop h.mem (absorbNext h B.addr N.addr).mem :=
        (absorbNext_out h B.addr N.addr).agreeOn (hapart.imp id fun hle => hB.trans hle)
      refine hone.trans (hkeep C ?_ hused)
      simp only [mem_append, mem_cons, hCB, hCN, false_or] at hC ⊢
      exact hC.imp id .inr
    · rw [if_neg fun hc => hmerge ⟨hokB.free_iff.mp hc.1, hokN.free_iff.mp hc.2⟩]
      have hrep' : Rep h ((done ++ [B]) ++ N :: rest) := by simpa using hrep
      obtain ⟨h', hrun, hres, hframe, hkeep⟩ := ih (done ++ [B]) fuel hp hrep' (by omega)
      refine ⟨h', hrun, ?_, hframe, fun C hC => hkeep C (by simpa using hC)⟩
      rw [coalesceList, if_neg hmerge]
      simpa using hres

/-- The whole list behind `coalesce_free_blocks`. -/
def coalesceAll : List Block → List Block
  | [] => []
  | B :: rest => coalesceList B rest

theorem coalesceFreeBlocks_spec {f : HeapFault} {bs : List Block}
    (hp : Placed h) (hrep : Rep h bs) (hne : bs ≠ []) :
    ∃ h', coalesceFreeBlocks h f = some (h', f) ∧ Rep h' (coalesceAll bs) ∧ SameFrame h h' ∧
      ∀ C ∈ bs, C.user ≠ none → AgreeOn C.addr C.stop h.mem h'.mem := by
  cases bs with
  | nil => exact absurd rfl hne
  | cons B rest =>
    have hlen := length_lt_walkFuel hp hrep
    have hstart : h.heapStartBlock = B.addr := hrep.seg.1.symm
    simp only [length_cons] at hlen
    rw [coalesceFreeBlocks, hstart]
    exact coalesceLoop_spec [] walkFuel hp hrep (by omega)

/-- A block whose first byte of data is in the heap passes the checks of its address. -/
theorem heapClassify_header {bs : List Block} (hp : Placed h) (hrep : Rep h bs) (hB : B ∈ bs)
    (hlt : B.addr + headerSize < h.heapStartBlock + h.totalHeapSize) :
    heapOwns h (B.addr + headerSize) = true ∧ heapBmTest h B.addr = true ∧
      ¬ (B.addr + headerSize) % 16 ≠ 0 ∧ ¬ B.addr + headerSize < h.heapStartBlock + headerSize := by
  obtain ⟨hlo, -, haddr, -⟩ := hrep.geometry hp hB
  obtain ⟨hidx, hBidx⟩ := heapBmIndex_spec hp hlo (by omega) haddr
  simp only [headerSize] at hlt ⊢
  refine ⟨?_, ?_, by omega, by omega⟩
  · have hlow : ¬B.addr + 48 < h.heapStartBlock := by omega
    simp only [heapOwns, hlow, not_le.mpr hlt, decide_false, Bool.not_false, Bool.and_self]
  · have hbit := (hrep.marks _ hidx).mpr
    rw [← hBidx] at hbit
    rw [heapBmTest, if_neg (by omega)]
    exact hbit (mem_map_of_mem hB)

theorem heapClassify_live {bs : List Block} {req : ℕ} {tag : UInt32}
    (hp : Placed h) (hrep : Rep h bs) (hB : B ∈ bs) (huser : B.user = some (req, tag)) :
    heapClassify h (B.addr + headerSize) = .clean B.addr := by
  obtain ⟨-, hhi, -⟩ := hrep.geometry hp hB
  have hstop : B.stop = B.addr + headerSize + B.size := rfl
  have hheader := heapClassify_header hp hrep hB
  obtain ⟨l, r, rfl⟩ := append_of_mem hB
  obtain ⟨-, hok, -⟩ := hrep.around
  have hused := hok.used req tag huser
  have hfits := hused.fits
  simp only [heapRedzoneBackSize] at hfits
  obtain ⟨howns, htest, haligned, hlow⟩ := hheader (by omega)
  have hback : readLE h.mem (heapRedzoneBackAddr h.mem B.addr) 8 = heapRedzoneBack := by
    rw [heapRedzoneBackAddr, hused.reqSize]
    exact hused.back
  have hsub : B.addr + headerSize - headerSize = B.addr := by omega
  unfold heapClassify
  simp only [hsub, howns, htest, hused.isFree, hused.cookie, hused.front, hback, hok.size,
    hused.reqSize, ne_eq, not_true_eq_false, if_false, Bool.true_eq_false]
  rw [if_neg haligned, if_neg hlow, if_neg (by simp only [heapRedzoneBackSize]; omega)]

def freeBlock (B : Block) : Block := ⟨B.addr, B.size, none⟩

theorem rep_releaseBlock (hp : Placed h) (hrep : Rep h (l ++ B :: r)) (huser : B.user ≠ none) :
    Rep (releaseBlock h B.addr) (l ++ freeBlock B :: r) ∧ SameFrame h (releaseBlock h B.addr) := by
  obtain ⟨hl, hok, hr⟩ := hrep.around
  have hsz := hrep.aligned B (by simp)
  have hsum := sum_usedSize_le hrep.seg
  have hold := hrep.used
  have hbound := hp.bound
  have hB : B.usedSize = B.size := by simp [Block.usedSize, huser]
  have hstop : B.stop = B.addr + headerSize + B.size := rfl
  have hsize : blockSize (setBlockIsFree (setBlockCookie h.mem B.addr 0) B.addr 1) B.addr =
      B.size := by
    rw [← hok.size]
    simp (disch := omega) only [blockSize, setBlockIsFree, setBlockCookie,
      readLE_writeLE_of_disjoint]
  have hle : B.size ≤ h.usedBytes := by
    simp only [map_append, map_cons, sum_append, sum_cons, hB] at hold
    omega
  have hrep' : Rep h (l ++ ([B] ++ r)) := hrep
  simp only [releaseBlock, hsize, sub64_of_le hle (by omega)]
  refine ⟨hrep'.replace [freeBlock B] (c := B.addr) (d := B.stop) hl hr ?_ (by simp)
    (by simp) ?_ rfl rfl ?_ ?_ ?_, ⟨rfl, rfl, rfl⟩⟩
  · refine ⟨rfl, ⟨hsize, ?_, fun _ => ⟨?_, ?_⟩, by simp [freeBlock]⟩, rfl⟩
    · refine Eq.trans ?_ hok.next
      simp (disch := omega) only [freeBlock, blockNext, setBlockIsFree, setBlockCookie,
        readLE_writeLE_of_disjoint]
    · simp (disch := omega) only [freeBlock, blockIsFree, setBlockIsFree, read1_write1_same]
    · simp (disch := omega) only [freeBlock, blockCookie, setBlockIsFree, setBlockCookie,
        readLE_writeLE_of_disjoint, read8_write8_same]
  · simp only [setBlockIsFree, setBlockCookie]
    simp only [headerSize] at hstop
    exact (sameOutside_writeLE (by omega) (by omega)).writeLE (by omega) (by omega)
  · simpa [freeBlock] using hsz
  · simpa [freeBlock] using hrep.marks
  · simp only [map_cons, map_nil, sum_cons, sum_nil, hB]
    simp only [freeBlock, Block.usedSize, if_true]
    omega

theorem kfreeLocked_spec {req : ℕ}
    {tag : UInt32} (want : Option UInt32) (f : HeapFault) (hp : Placed h)
    (hrep : Rep h (l ++ B :: r)) (huser : B.user = some (req, tag))
    (hpois : h.heapPoisoned = false) :
    (∃ t, want = some t ∧ t ≠ tag ∧
        kfreeLocked h (B.addr + headerSize) want f =
          some ({ h with heapPoisoned := true },
            ⟨.tag, B.addr + headerSize, tag.toNat, t.toNat⟩)) ∨
      ∃ h', kfreeLocked h (B.addr + headerSize) want f = some (h', f) ∧
        Rep h' (coalesceAll (l ++ freeBlock B :: r)) ∧ SameFrame h h' := by
  have hclass := heapClassify_live hp hrep (B := B) (by simp) huser
  obtain ⟨-, hok, -⟩ := hrep.around
  have htag := (hok.used req tag huser).tagEq
  obtain ⟨hrep', hframe⟩ := rep_releaseBlock hp hrep (by simp [huser])
  obtain ⟨h', hrun, hres, hframe', -⟩ :=
    coalesceFreeBlocks_spec (f := f) (hframe.placed hp) hrep' (by simp)
  have hrelease : ∃ h', coalesceFreeBlocks (releaseBlock h B.addr) f = some (h', f) ∧
      Rep h' (coalesceAll (l ++ freeBlock B :: r)) ∧ SameFrame h h' :=
    ⟨h', hrun, hres, hframe.trans hframe'⟩
  unfold kfreeLocked
  simp only [hpois, hclass, htag, Bool.false_eq_true, if_false]
  cases want with
  | none => exact .inr hrelease
  | some t =>
    by_cases ht : tag = t
    · subst ht
      right
      simpa using hrelease
    · left
      have hne : tag.toNat ≠ t.toNat := fun heq => ht (UInt32.toNat_inj.mp heq)
      exact ⟨t, rfl, fun h => ht h.symm, by simp [hne]⟩

end ImpossibleOs.Heap
