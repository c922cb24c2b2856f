import ImpossibleOs.Heap.Ops

/-!
`kmalloc_locked` finds the first free block that is large enough, or shows that
there is none, and carves the request out of it.
-/

namespace ImpossibleOs.Heap

open ByteMem List

/-- The states an operation may leave behind share placement and poison with the
state it started from. -/
structure SameFrame (h h' : HeapState) : Prop where
  start : h'.heapStartBlock = h.heapStartBlock
  total : h'.totalHeapSize = h.totalHeapSize
  poisoned : h'.heapPoisoned = h.heapPoisoned

theorem SameFrame.refl (h : HeapState) : SameFrame h h := ⟨rfl, rfl, rfl⟩

theorem SameFrame.trans {h₁ h₂ h₃ : HeapState} (h : SameFrame h₁ h₂) (h' : SameFrame h₂ h₃) :
    SameFrame h₁ h₃ :=
  ⟨h'.start.trans h.start, h'.total.trans h.total, h'.poisoned.trans h.poisoned⟩

theorem sameFrame_edit (h : HeapState) (m : ByteMem) (u : ℕ) (bm : ℕ → Bool) :
    SameFrame h { h with mem := m, usedBytes := u, blockBitmap := bm } := ⟨rfl, rfl, rfl⟩

theorem SameFrame.placed {h h' : HeapState} (hf : SameFrame h h') (hp : Placed h) :
    Placed h' where
  pos := hf.start ▸ hp.pos
  aligned := hf.start ▸ hp.aligned
  small := hf.total ▸ hp.small
  bound := by rw [hf.start, hf.total]; exact hp.bound

@[simp] theorem heapBmSet_frame (h : HeapState) (b : ℕ) : SameFrame h (heapBmSet h b) := by
  unfold heapBmSet
  split <;> exact ⟨rfl, rfl, rfl⟩

@[simp] theorem heapBmClear_frame (h : HeapState) (b : ℕ) : SameFrame h (heapBmClear h b) := by
  unfold heapBmClear
  split <;> exact ⟨rfl, rfl, rfl⟩

theorem blockSplit_frame (h : HeapState) (b size : ℕ) : SameFrame h (blockSplit h b size) := by
  unfold blockSplit
  split
  · exact ((sameFrame_edit _ _ _ _).trans (heapBmSet_frame _ _)).trans (sameFrame_edit _ _ _ _)
  · exact SameFrame.refl h

theorem blockSplit_usedBytes (h : HeapState) (b size : ℕ) :
    (blockSplit h b size).usedBytes = h.usedBytes := by
  unfold blockSplit heapBmSet
  split
  · dsimp only
    split <;> rfl
  · rfl

theorem claimBlock_frame (h : HeapState) (b req : ℕ) (tag : UInt32) :
    SameFrame h (claimBlock h b req tag) :=
  (blockSplit_frame h b (roundNeed req)).trans (sameFrame_edit _ _ _ _)

variable {h : HeapState} {bs : List Block}

theorem blockSplit_size (hp : Placed h) {b need S nx : ℕ}
    (hsize : blockSize h.mem b = S) (hnext : blockNext h.mem b = nx) (hnx : nx < 2 ^ 64)
    (hlo : h.heapStartBlock ≤ b) (hhi : b + headerSize + S ≤ h.heapStartBlock + h.totalHeapSize)
    (hb : 16 ∣ b) (hneed : 16 ∣ need) :
    blockSize (blockSplit h b need).mem b = carvedSize S need := by
  by_cases hfit : need + headerSize + minBlockSize ≤ S
  · obtain ⟨m₂, heq, hs, -⟩ := blockSplit_spec hp hsize hnext hnx hfit hlo hhi hb hneed
    rw [heq, carvedSize, if_pos hfit]
    exact hs
  · rw [blockSplit_of_lt (by omega), carvedSize, if_neg hfit]
    exact hsize

theorem le_carvedSize {S need : ℕ} (h : need ≤ S) : need ≤ carvedSize S need := by
  unfold carvedSize
  split <;> omega

theorem carvedSize_le {S need : ℕ} (h : need ≤ S) : carvedSize S need ≤ S := by
  unfold carvedSize
  split <;> omega

theorem rep_claimBlock {l r : List Block} {B : Block} {req : ℕ} (tag : UInt32)
    (hp : Placed h) (hrep : Rep h (l ++ B :: r)) (hfree : B.user = none)
    (hneed : roundNeed req ≤ B.size) :
    Rep (claimBlock h B.addr req tag) (l ++ (carve B (roundNeed req) (some (req, tag)) ++ r)) := by
  obtain ⟨hl, hok, hr⟩ := hrep.around
  obtain ⟨hlo, hhi, haddr, hsz⟩ := hrep.geometry hp (B := B) (by simp)
  obtain ⟨hn16, hnreq, -⟩ := roundNeed_spec req
  have hbound := hp.bound
  have hstop : B.stop = B.addr + headerSize + B.size := rfl
  have hnx := nextOf_lt hp hr
  have hcs := le_carvedSize hneed
  have hcs' := carvedSize_le hneed
  have hold := hrep.used
  have hB : B.usedSize = 0 := by simp [Block.usedSize, hfree]
  have hsize := blockSplit_size hp hok.size hok.next hnx hlo (hstop ▸ hhi) haddr hn16
  obtain ⟨hhdr, hout⟩ := stamp_spec (blockSplit h B.addr (roundNeed req)).mem
    B.addr req (carvedSize B.size (roundNeed req)) tag (by omega) (by omega) (by omega)
  have hkeep : blockSize (stampHeader (blockSplit h B.addr (roundNeed req)).mem B.addr req tag)
      B.addr = carvedSize B.size (roundNeed req) :=
    (readLE_congr (hout.agreeOn (.inl (by omega)))).trans hsize
  have hused : (claimBlock h B.addr req tag).usedBytes =
      h.usedBytes + carvedSize B.size (roundNeed req) := by
    simp only [claimBlock, hkeep, blockSplit_usedBytes]
    apply u64_of_lt
    -- the counter never exceeds the bytes of the other blocks
    have hother : h.usedBytes + B.size ≤ h.heapStartBlock + h.totalHeapSize := by
      have h1 := sum_usedSize_le hl
      have h2 := sum_usedSize_le hr
      simp only [map_append, map_cons, sum_append, sum_cons] at hold
      omega
    omega
  have hmem : (claimBlock h B.addr req tag).mem =
      stampHeader (blockSplit h B.addr (roundNeed req)).mem B.addr req tag := by
    simp only [claimBlock]
  have hbm : (claimBlock h B.addr req tag).blockBitmap =
      (blockSplit h B.addr (roundNeed req)).blockBitmap := by
    simp only [claimBlock]
  have hframe := claimBlock_frame h B.addr req tag
  have hrep' : Rep h (l ++ ([B] ++ r)) := hrep
  refine rep_carve [B] B hp hp rfl rfl hrep' (by simp) hl hr hsz haddr hn16 hok.size
    hok.next (SameOutside.refl _ _ _) ?_ hbm hrep.marks hframe.start hframe.total ?_ ?_
  · rw [hmem]
    exact hout.mono le_rfl (by omega)
  · rw [hmem]
    exact hhdr
  · simp [hB, hused]

theorem kmallocScan_spec (req : ℕ) (tag : UInt32) {a e : ℕ} (fuel : ℕ) (hseg : Seg h.mem 0 a e bs)
    (ha : 0 < a) (hfuel : bs.length < fuel) :
    kmallocScan h req tag fuel (nextOf 0 a bs) = some (h, 0) ∨
      ∃ l, ∃ B : Block, ∃ r, bs = l ++ B :: r ∧ B.user = none ∧ roundNeed req ≤ B.size ∧
        kmallocScan h req tag fuel (nextOf 0 a bs) =
          some (claimBlock h B.addr req tag, B.addr + headerSize) := by
  induction bs generalizing a fuel with
  | nil =>
    obtain ⟨fuel, rfl⟩ := Nat.exists_eq_succ_of_ne_zero (by omega : fuel ≠ 0)
    left
    simp [kmallocScan]
  | cons B bs ih =>
    obtain ⟨rfl, hok, htail⟩ := hseg
    obtain ⟨fuel, rfl⟩ := Nat.exists_eq_succ_of_ne_zero (by omega : fuel ≠ 0)
    simp only [length_cons] at hfuel
    rw [nextOf_cons, kmallocScan, if_neg (by omega)]
    by_cases hfit : blockIsFree h.mem B.addr ≠ 0 ∧ blockCookie h.mem B.addr = 0 ∧
        roundNeed req ≤ blockSize h.mem B.addr
    · right
      refine ⟨[], B, bs, rfl, ?_, hok.size ▸ hfit.2.2, if_pos hfit⟩
      cases huser : B.user with
      | none => rfl
      | some u => exact absurd (hok.used u.1 u.2 huser).isFree hfit.1
    · rw [if_neg hfit, hok.next]
      have hstop : 0 < B.stop := by simp only [Block.stop]; omega
      rcases ih fuel htail hstop (by omega) with hnone | ⟨l, C, r, rfl, hfree, hneed, hres⟩
      · exact .inl hnone
      · exact .inr ⟨B :: l, C, r, rfl, hfree, hneed, hres⟩

theorem length_lt_walkFuel (hp : Placed h) (hrep : Rep h bs) : bs.length < walkFuel := by
  have hle := seg_le hrep.seg
  have hsmall := hp.small
  simp only [walkFuel, heapBitmapBits, heapInitialPages, heapPageSize, heapBitmapGranule,
    minBlockSize, headerSize] at hle hsmall ⊢
  omega

theorem start_eq_nextOf (hrep : Rep h bs)
    (htotal : 0 < h.totalHeapSize) : h.heapStartBlock = nextOf 0 h.heapStartBlock bs := by
  cases bs with
  | nil =>
    have hseg := hrep.seg
    simp only [Seg] at hseg
    omega
  | cons B bs => rfl

theorem kmallocLocked_spec (req : ℕ) (tag : UInt32)
    (hp : Placed h) (htotal : 0 < h.totalHeapSize) (hrep : Rep h bs) :
    kmallocLocked h req tag = some (h, 0) ∨
      ∃ l, ∃ B : Block, ∃ r, bs = l ++ B :: r ∧ B.user = none ∧ roundNeed req ≤ B.size ∧
        kmallocLocked h req tag = some (claimBlock h B.addr req tag, B.addr + headerSize) := by
  unfold kmallocLocked
  by_cases hpois : h.heapPoisoned
  · left
    simp [hpois]
  · rw [if_neg hpois]
    have hspec := kmallocScan_spec req tag walkFuel hrep.seg hp.pos
      (length_lt_walkFuel hp hrep)
    rwa [← start_eq_nextOf hrep htotal] at hspec

end ImpossibleOs.Heap
