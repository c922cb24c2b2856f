import ImpossibleOs.Heap.Free

/-!
The three ways `krealloc` serves a request: in the block it has, by absorbing the
free block behind it, or by moving the bytes to a new block.
-/

namespace ImpossibleOs.Heap

open ByteMem List

variable {tag : UInt32} {h : HeapState}

theorem rep_userStore {bs : List Block} {B : Block} {req : ℕ}
    {m' : ByteMem} (hrep : Rep h bs) (hB : B ∈ bs) (huser : B.user = some (req, tag))
    (hout : SameOutside (B.addr + headerSize) (B.addr + headerSize + req) h.mem m') :
    Rep { h with mem := m' } bs := by
  obtain ⟨l, r, rfl⟩ := append_of_mem hB
  obtain ⟨hl, hok, hr⟩ := hrep.around
  have hused := hok.used req tag huser
  have hfits := hused.fits
  have hstop : B.stop = B.addr + headerSize + B.size := rfl
  simp only [heapRedzoneBackSize] at hfits
  have hhdr : AgreeOn B.addr (B.addr + headerSize) h.mem m' := hout.agreeOn (.inl le_rfl)
  have hok' : BlockOk m' B (nextOf 0 B.stop r) := by
    refine ⟨?_, ?_, ?_, ?_⟩
    · exact (readLE_congr (hhdr.mono le_rfl (by simp [headerSize]))).trans hok.size
    · exact (readLE_congr (hhdr.mono (by omega) (by simp only [headerSize]; omega))).trans
        hok.next
    · intro hnone
      rw [huser] at hnone
      cases hnone
    · rintro req' tag' hu
      rw [huser] at hu
      cases hu
      exact hused.congr hhdr (hout.agreeOn (.inr le_rfl))
  have hseg : Seg m' 0 h.heapStartBlock (h.heapStartBlock + h.totalHeapSize) (l ++ B :: r) :=
    Seg.replace [B] [B] hl hr ⟨rfl, hok', rfl⟩ (by simp) (by simp)
      (hout.mono (by omega) (by omega))
  exact ⟨hseg, hrep.aligned, hrep.marks, hrep.used⟩

/-! ### Growing or shrinking the request of one block -/

/-- The header fields of an allocated block that no reallocation rewrites. -/
structure UsedHdrFields (m : ByteMem) (b : ℕ) (tag : UInt32) : Prop where
  isFree : blockIsFree m b = 0
  cookie : blockCookie m b = heapCookieFor b
  tagEq : blockTag m b = tag.toNat
  front : blockRedzoneFront m b = heapRedzoneFront

theorem UsedHdr.fields {m : ByteMem} {b size req : ℕ}
    (h : UsedHdr m b size req tag) : UsedHdrFields m b tag :=
  ⟨h.isFree, h.cookie, h.tagEq, h.front⟩

theorem UsedHdrFields.congr {m m' : ByteMem} {b : ℕ}
    (h : UsedHdrFields m b tag) (hag : AgreeOn (b + 16) (b + headerSize) m m') :
    UsedHdrFields m' b tag := by
  have hfield : ∀ o k, 16 ≤ o → o + k ≤ headerSize →
      readLE m' (b + o) k = readLE m (b + o) k :=
    fun o k ho hok => readLE_congr (hag.mono (by omega) (by omega))
  refine ⟨?_, ?_, ?_, ?_⟩
  · exact (hfield 36 1 (by decide) (by decide)).trans h.isFree
  · exact (hfield 16 8 (by decide) (by decide)).trans h.cookie
  · exact (hfield 32 4 (by decide) (by decide)).trans h.tagEq
  · exact (hfield 40 8 (by decide) (by decide)).trans h.front

theorem blockSplit_usedHdr (hp : Placed h) {b need S nx : ℕ}
    (hsize : blockSize h.mem b = S) (hnext : blockNext h.mem b = nx) (hnx : nx < 2 ^ 64)
    (hlo : h.heapStartBlock ≤ b) (hhi : b + headerSize + S ≤ h.heapStartBlock + h.totalHeapSize)
    (hb : 16 ∣ b) (hneed : 16 ∣ need) (hused : UsedHdrFields h.mem b tag) :
    UsedHdrFields (blockSplit h b need).mem b tag := by
  by_cases hfit : need + headerSize + minBlockSize ≤ S
  · obtain ⟨m₂, heq, -, -, hkeep, -⟩ := blockSplit_spec hp hsize hnext hnx hfit hlo hhi hb hneed
    rw [heq]
    exact hused.congr (hkeep.mono le_rfl (by omega))
  · rw [blockSplit_of_lt (by omega)]
    exact hused

/-- The memory before the bytes that a grow exposes are zeroed. -/
def grownMem (m : ByteMem) (b newSize : ℕ) : ByteMem :=
  writeLE (setBlockReqSize m b newSize) (b + 48 + newSize) 8 heapRedzoneBack

theorem growInPlace_mem (h : HeapState) (b oldReq : ℕ) {newSize : ℕ} (hnew : newSize < 2 ^ 64) :
    (growInPlace h b (b + headerSize) newSize oldReq).mem = if oldReq < newSize then
      zeroRange (grownMem h.mem b newSize) (b + headerSize + oldReq) (newSize - oldReq)
    else grownMem h.mem b newSize := by
  have haddr : heapRedzoneBackAddr (setBlockReqSize h.mem b newSize) b = b + 48 + newSize := by
    rw [heapRedzoneBackAddr, blockReqSize, setBlockReqSize, read8_write8_same hnew]
    rfl
  simp only [growInPlace, haddr, heapFastZero]
  split <;> rfl

theorem growInPlace_out (h : HeapState) (b oldReq : ℕ) {newSize : ℕ} (hnew : newSize < 2 ^ 64) :
    SameOutside (b + 16) (b + headerSize + newSize + heapRedzoneBackSize) h.mem
      (growInPlace h b (b + headerSize) newSize oldReq).mem := by
  have hcore : SameOutside (b + 16) (b + headerSize + newSize + heapRedzoneBackSize) h.mem
      (grownMem h.mem b newSize) := by
    simp only [grownMem, setBlockReqSize, headerSize, heapRedzoneBackSize]
    exact (sameOutside_writeLE (by omega) (by omega)).writeLE (by omega) (by omega)
  rw [growInPlace_mem h b oldReq hnew]
  split
  · exact hcore.trans (sameOutside_zeroRange (by simp only [headerSize]; omega) (by omega))
  · exact hcore

theorem growInPlace_spec {b : ℕ} (size oldReq newSize : ℕ)
    (hused : UsedHdrFields h.mem b tag) (hnew : newSize < 2 ^ 64)
    (hfits : newSize + heapRedzoneBackSize ≤ size) :
    UsedHdr (growInPlace h b (b + headerSize) newSize oldReq).mem b size newSize tag ∧
      SameOutside (b + 16) (b + headerSize + newSize + heapRedzoneBackSize) h.mem
        (growInPlace h b (b + headerSize) newSize oldReq).mem := by
  have hcore : UsedHdr (grownMem h.mem b newSize) b size newSize tag := by
    have hfield : ∀ o k, 32 ≤ o ∨ o + k ≤ 24 → o + k ≤ 48 →
        readLE (grownMem h.mem b newSize) (b + o) k = readLE h.mem (b + o) k := by
      intro o k ho hok
      simp (disch := omega) only [grownMem, setBlockReqSize, readLE_writeLE_of_disjoint]
    refine ⟨?_, ?_, ?_, ?_, ?_, hfits, ?_⟩
    · exact (hfield 36 1 (by omega) (by omega)).trans hused.isFree
    · exact (hfield 16 8 (by omega) (by omega)).trans hused.cookie
    · rw [blockReqSize, grownMem, readLE_writeLE_of_disjoint (by omega)]
      exact read8_write8_same hnew
    · exact (hfield 32 4 (by omega) (by omega)).trans hused.tagEq
    · exact (hfield 40 8 (by omega) (by omega)).trans hused.front
    · exact read8_write8_same (by decide)
  refine ⟨?_, growInPlace_out h b oldReq hnew⟩
  rw [growInPlace_mem h b oldReq hnew]
  split
  · exact hcore.congr (agreeOn_zeroRange (.inl (by simp only [headerSize]; omega)))
      (agreeOn_zeroRange (.inr (by simp only [headerSize]; omega)))
  · exact hcore

theorem growInPlace_frame (h : HeapState) (b ptr newSize oldReq : ℕ) :
    SameFrame h (growInPlace h b ptr newSize oldReq) ∧
      (growInPlace h b ptr newSize oldReq).usedBytes = h.usedBytes ∧
      (growInPlace h b ptr newSize oldReq).blockBitmap = h.blockBitmap := by
  unfold growInPlace heapFastZero
  dsimp only
  split <;> exact ⟨⟨rfl, rfl, rfl⟩, rfl, rfl⟩

theorem rep_growInPlace {l r : List Block} {B : Block} {oldReq newSize : ℕ} (hp : Placed h)
    (hrep : Rep h (l ++ B :: r))
    (huser : B.user = some (oldReq, tag)) (hneed : roundNeed newSize ≤ B.size) :
    Rep (growInPlace h B.addr (B.addr + headerSize) newSize oldReq)
      (l ++ ⟨B.addr, B.size, some (newSize, tag)⟩ :: r) := by
  obtain ⟨hl, hok, hr⟩ := hrep.around
  obtain ⟨-, hhi, -, hsz⟩ := hrep.geometry hp (B := B) (by simp)
  obtain ⟨-, hnreq, -⟩ := roundNeed_spec newSize
  have hbound := hp.bound
  have hstop : B.stop = B.addr + headerSize + B.size := rfl
  obtain ⟨hhdr, hout⟩ := growInPlace_spec B.size oldReq newSize
    (hok.used oldReq tag huser).fields (by omega) (by omega)
  obtain ⟨hframe, hub, hbm⟩ := growInPlace_frame h B.addr (B.addr + headerSize) newSize oldReq
  generalize hg : growInPlace h B.addr (B.addr + headerSize) newSize oldReq = h' at *
  have hsize : blockSize h'.mem B.addr = B.size :=
    (readLE_congr (hout.agreeOn (.inl (by omega)))).trans hok.size
  have hnext : blockNext h'.mem B.addr = nextOf 0 B.stop r :=
    (readLE_congr (hout.agreeOn (.inl (by omega)))).trans hok.next
  have hrep' : Rep h (l ++ ([B] ++ r)) := hrep
  refine hrep'.replace [⟨B.addr, B.size, some (newSize, tag)⟩] (c := B.addr)
    (d := B.stop) hl hr ⟨rfl, ⟨hsize, hnext, by simp, ?_⟩, rfl⟩ (by simp) (by simp)
    (hout.mono (by omega) (by omega)) hframe.start hframe.total ?_ ?_ ?_
  · rintro req' tag' hu
    cases hu
    exact hhdr
  · simpa using hsz
  · rw [hbm]
    simpa using hrep.marks
  · rw [hub]
    simp [Block.usedSize, huser]

/-- The block `krealloc` splits after it took over the free block behind it. -/
def mergedBlock (B N : Block) : Block := ⟨B.addr, B.size + headerSize + N.size, none⟩

theorem rep_mergeNext {l r : List Block} {B N : Block} {oldReq newSize : ℕ} (hp : Placed h)
    (hrep : Rep h (l ++ B :: N :: r)) (huser : B.user = some (oldReq, tag)) (hN : N.user = none)
    (hneed : roundNeed newSize ≤ B.size + headerSize + N.size) :
    Rep (growInPlace (mergeNext h B.addr (roundNeed newSize) (B.size + headerSize + N.size))
        B.addr (B.addr + headerSize) newSize oldReq)
      (l ++ (carve (mergedBlock B N) (roundNeed newSize) (some (newSize, tag)) ++ r)) ∧
    SameFrame h (growInPlace (mergeNext h B.addr (roundNeed newSize)
      (B.size + headerSize + N.size)) B.addr (B.addr + headerSize) newSize oldReq) := by
  obtain ⟨hl, hokB, hNaddr, hokN, hr⟩ := hrep.around
  obtain ⟨hidx, hmarks⟩ := marks_absorb hp hrep
  obtain ⟨hloB, -, haddrB, hszB⟩ := hrep.geometry hp (B := B) (by simp)
  obtain ⟨-, hhiN, -, hszN⟩ := hrep.geometry hp (B := N) (by simp)
  obtain ⟨hn16, hnreq, -⟩ := roundNeed_spec newSize
  have hbound := hp.bound
  have hnx := nextOf_lt hp hr
  have husedB := hokB.used oldReq tag huser
  have hBstop : B.stop = B.addr + headerSize + B.size := rfl
  have hNstop : N.stop = N.addr + headerSize + N.size := rfl
  have hMstop : (mergedBlock B N).stop = N.stop := by
    have hM : (mergedBlock B N).stop = B.addr + headerSize + (B.size + headerSize + N.size) := rfl
    rw [hM, hNstop, hNaddr, hBstop]
    omega
  have hcs := le_carvedSize hneed
  have hcs' := carvedSize_le hneed
  have hB : B.usedSize = B.size := by simp [Block.usedSize, huser]
  have hN0 : N.usedSize = 0 := by simp [Block.usedSize, hN]
  have hold := hrep.used
  have hnext : blockNext h.mem B.addr = N.addr := hokB.next.trans hNaddr.symm
  simp only [map_append, map_cons, sum_append, sum_cons, hB, hN0] at hold
  -- the state the split starts from
  let m₁ := setBlockNext (setBlockSize h.mem B.addr (B.size + headerSize + N.size)) B.addr
    (nextOf 0 N.stop r)
  let h₁ : HeapState :=
    { h with
      mem := m₁
      blockBitmap := Function.update h.blockBitmap (heapBmIndex h N.addr) false
      usedBytes := h.usedBytes - B.size }
  have hp₁ : Placed h₁ := ⟨hp.pos, hp.aligned, hp.small, hp.bound⟩
  have hsize₁ : blockSize m₁ B.addr = B.size + headerSize + N.size := by
    simp only [headerSize] at hBstop hNstop
    simp (disch := omega) only [m₁, blockSize, setBlockNext, setBlockSize, headerSize,
      readLE_writeLE_of_disjoint, read8_write8_same]
  have hnext₁ : blockNext m₁ B.addr = nextOf 0 N.stop r := read8_write8_same hnx
  have hsplit : mergeNext h B.addr (roundNeed newSize) (B.size + headerSize + N.size) =
      { blockSplit h₁ B.addr (roundNeed newSize) with
        usedBytes := u64 ((blockSplit h₁ B.addr (roundNeed newSize)).usedBytes +
          blockSize (blockSplit h₁ B.addr (roundNeed newSize)).mem B.addr) } := by
    have hNnext : blockNext (setBlockSize h.mem B.addr (B.size + headerSize + N.size)) N.addr =
        nextOf 0 N.stop r := by
      rw [← hokN.next]
      simp only [headerSize] at hBstop
      simp (disch := omega) only [blockNext, setBlockSize, readLE_writeLE_of_disjoint]
    have hBnext : blockNext (setBlockSize h.mem B.addr (B.size + headerSize + N.size)) B.addr =
        N.addr := by
      rw [← hnext]
      simp (disch := omega) only [blockNext, setBlockSize, readLE_writeLE_of_disjoint]
    have hsub : sub64 h.usedBytes B.size = h.usedBytes - B.size := by
      have hsum := sum_usedSize_le hl
      have hsum' := sum_usedSize_le hr
      simp only [headerSize] at hBstop hNstop
      exact sub64_of_le (by omega) (by omega)
    simp only [mergeNext, hnext, heapBmClear_eq hidx, hBnext, hNnext, hokB.size, hsub]
    rfl
  have hsplitSize : blockSize (blockSplit h₁ B.addr (roundNeed newSize)).mem B.addr =
      carvedSize (B.size + headerSize + N.size) (roundNeed newSize) :=
    blockSplit_size hp₁ hsize₁ hnext₁ hnx hloB (by simp only [h₁]; omega) haddrB hn16
  -- the used header outlives the merge and the split
  have hout₁ : SameOutside B.addr (B.addr + 16) h.mem m₁ := by
    simp only [m₁, setBlockNext, setBlockSize]
    exact (sameOutside_writeLE (by omega) (by omega)).writeLE (by omega) (by omega)
  generalize hmn : mergeNext h B.addr (roundNeed newSize) (B.size + headerSize + N.size) = h₂
    at hsplit ⊢
  have hmem₂ : h₂.mem = (blockSplit h₁ B.addr (roundNeed newSize)).mem := by rw [hsplit]
  have hhdr₂ : UsedHdrFields h₂.mem B.addr tag := by
    rw [hmem₂]
    exact blockSplit_usedHdr hp₁ hsize₁ hnext₁ hnx hloB (by simp only [h₁]; omega) haddrB hn16
      (husedB.fields.congr (hout₁.agreeOn (.inr le_rfl)))
  obtain ⟨hhdr, hout⟩ := growInPlace_spec
    (carvedSize (B.size + headerSize + N.size) (roundNeed newSize)) oldReq newSize hhdr₂ (by omega)
      (by omega)
  obtain ⟨hframe, hub, hbm⟩ := growInPlace_frame h₂ B.addr (B.addr + headerSize) newSize oldReq
  have hframe₂ : SameFrame h h₂ := by
    have hs := blockSplit_frame h₁ B.addr (roundNeed newSize)
    have hh₁ : SameFrame h h₁ := ⟨rfl, rfl, rfl⟩
    rw [hsplit]
    exact (hh₁.trans hs).trans (sameFrame_edit _ _ _ _)
  have hbm₂ : h₂.blockBitmap = (blockSplit h₁ B.addr (roundNeed newSize)).blockBitmap := by
    rw [hsplit]
  have hub₂ : h₂.usedBytes = h.usedBytes - B.size +
      carvedSize (B.size + headerSize + N.size) (roundNeed newSize) := by
    have hsum := sum_usedSize_le hl
    have hsum' := sum_usedSize_le hr
    rw [hsplit]
    simp only [hsplitSize, blockSplit_usedBytes]
    exact u64_of_lt (by simp only [h₁]; omega)
  refine ⟨?_, hframe₂.trans hframe⟩
  have hrep' : Rep h (l ++ ([B, N] ++ r)) := hrep
  refine rep_carve [B, N] (mergedBlock B N) hp hp₁ rfl rfl hrep' (by simp) hl
    (hMstop ▸ hr) ?_ haddrB hn16 hsize₁ (hMstop ▸ hnext₁) ?_ ?_ ?_ ?_
    (hframe₂.trans hframe).start (hframe₂.trans hframe).total hhdr ?_
  · simp only [mergedBlock, headerSize]
    omega
  · exact hout₁.mono le_rfl (by
      rw [hMstop]
      simp only [headerSize] at hBstop hNstop
      show B.addr + 16 ≤ N.stop
      omega)
  · rw [hmem₂] at hout
    exact hout.mono le_rfl (by simp only [mergedBlock]; omega)
  · rw [hbm, hbm₂]
    rfl
  · simpa [h₁, mergedBlock] using hmarks
  · rw [hub, hub₂]
    simp only [map_cons, map_nil, sum_cons, sum_nil, hB, hN0, mergedBlock]
    omega

end ImpossibleOs.Heap
