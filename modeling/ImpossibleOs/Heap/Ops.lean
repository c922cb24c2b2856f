import ImpossibleOs.Heap.Blocks

/-!
What the memory operations of the heap do to the block list.

`Rep h bs` ties an allocator state to its block list. Each step of the source
is described by the segment it leaves in place of the one it found; the
bitmap and the counters follow the list.
-/

namespace ImpossibleOs.Heap

open ByteMem Function List

theorem u64_of_lt {n : ℕ} (h : n < 2 ^ 64) : u64 n = n := Nat.mod_eq_of_lt h

theorem sub64_of_le {a b : ℕ} (h : b ≤ a) (ha : a < 2 ^ 64) : sub64 a b = a - b := by
  unfold sub64
  rw [Nat.mod_eq_of_lt (lt_of_le_of_lt h ha)]
  omega

variable {h : HeapState} {m : ByteMem} {bs : List Block} {B : Block} {r : List Block} {nx a e : ℕ}

theorem read8_write8_same {a v : ℕ} (h : v < 2 ^ 64) : readLE (writeLE m a 8 v) a 8 = v := by
  rw [readLE_writeLE_same]
  exact Nat.mod_eq_of_lt (by simpa using h)

theorem read1_write1_same {a v : ℕ} (h : v < 256) : readLE (writeLE m a 1 v) a 1 = v := by
  rw [readLE_writeLE_same]
  exact Nat.mod_eq_of_lt (by simpa using h)

/-! ### Placement of the heap and the block-start bitmap -/

/-- Where the heap lies: fixed by `heap_init` and never changed. -/
structure Placed (h : HeapState) : Prop where
  pos : 0 < h.heapStartBlock
  aligned : 16 ∣ h.heapStartBlock
  small : h.totalHeapSize ≤ heapInitialPages * heapPageSize
  bound : h.heapStartBlock + h.totalHeapSize < 2 ^ 64

/-- The bits set in the bitmap are the block starts in `S`. -/
def Marks (start : ℕ) (bm : ℕ → Bool) (S : List ℕ) : Prop :=
  ∀ i < heapBitmapBits, bm i = true ↔ start + heapBitmapGranule * i ∈ S

theorem Marks.update {start : ℕ} {bm : ℕ → Bool} {S S' : List ℕ} {k : ℕ} (h : Marks start bm S)
    {v : Bool} (hself : v = true ↔ start + heapBitmapGranule * k ∈ S')
    (hother : ∀ x, x ≠ start + heapBitmapGranule * k → (x ∈ S' ↔ x ∈ S)) :
    Marks start (update bm k v) S' := by
  intro i hi
  by_cases hik : i = k
  · subst hik
    rwa [update_self]
  · rw [update_of_ne hik, h i hi, hother]
    simp only [heapBitmapGranule, minBlockSize]
    omega

theorem Marks.set {start : ℕ} {bm : ℕ → Bool} {S S' : List ℕ} {k : ℕ} (h : Marks start bm S)
    (hS : ∀ x, x ∈ S' ↔ x = start + heapBitmapGranule * k ∨ x ∈ S) :
    Marks start (Function.update bm k true) S' :=
  h.update (by simp [hS]) fun x hx => by simp [hS, hx]

theorem Marks.clear {start : ℕ} {bm : ℕ → Bool} {S S' : List ℕ} {k : ℕ} (h : Marks start bm S)
    (hS : ∀ x, x ∈ S' ↔ x ≠ start + heapBitmapGranule * k ∧ x ∈ S) :
    Marks start (Function.update bm k false) S' :=
  h.update (by simp [hS]) fun x hx => by simp [hS, hx]

theorem heapBmIndex_spec (hp : Placed h) {b : ℕ} (hlo : h.heapStartBlock ≤ b)
    (hhi : b < h.heapStartBlock + h.totalHeapSize) (hb : 16 ∣ b) :
    heapBmIndex h b < heapBitmapBits ∧
      b = h.heapStartBlock + heapBitmapGranule * heapBmIndex h b := by
  have hbound := hp.bound
  have hsmall := hp.small
  have hal := hp.aligned
  have hidx : heapBmIndex h b = (b - h.heapStartBlock) / 16 := by
    unfold heapBmIndex
    rw [sub64_of_le hlo (by omega)]
    rfl
  rw [hidx]
  simp only [heapBitmapBits, heapInitialPages, heapPageSize, heapBitmapGranule,
    minBlockSize] at hsmall ⊢
  omega

/-! ### The representation -/

structure Rep (h : HeapState) (bs : List Block) : Prop where
  seg : Seg h.mem 0 h.heapStartBlock (h.heapStartBlock + h.totalHeapSize) bs
  aligned : ∀ B ∈ bs, 16 ∣ B.size
  marks : Marks h.heapStartBlock h.blockBitmap (bs.map Block.addr)
  used : h.usedBytes = (bs.map Block.usedSize).sum

def NoAdjacentFree (bs : List Block) : Prop :=
  bs.IsChain fun A B => ¬(A.user = none ∧ B.user = none)

theorem seg_mem (h : Seg m nx a e bs) (hB : B ∈ bs) : a ≤ B.addr ∧ B.stop ≤ e := by
  obtain ⟨l, r, rfl⟩ := append_of_mem hB
  obtain ⟨c, hl, rfl, -, hr⟩ := seg_append.mp h
  have hlo := seg_le hl
  have hhi := seg_le hr
  omega

theorem seg_aligned (h : Seg m nx a e bs)
    (ha : 16 ∣ a) (hsz : ∀ B ∈ bs, 16 ∣ B.size) : 16 ∣ e ∧ ∀ B ∈ bs, 16 ∣ B.addr := by
  induction bs generalizing a with
  | nil =>
    cases h
    exact ⟨ha, by simp⟩
  | cons B bs ih =>
    obtain ⟨rfl, -, htail⟩ := h
    have hB := hsz B (by simp)
    have hstop : 16 ∣ B.stop := by
      simp only [Block.stop, headerSize]
      omega
    obtain ⟨he, haddr⟩ := ih htail hstop fun C hC => hsz C (by simp [hC])
    refine ⟨he, fun C hC => ?_⟩
    rcases mem_cons.mp hC with rfl | hC
    · exact ha
    · exact haddr C hC

theorem blockSplit_of_lt {b size : ℕ}
    (hlt : blockSize h.mem b < size + headerSize + minBlockSize) : blockSplit h b size = h := by
  unfold blockSplit
  rw [if_neg (by omega)]

theorem blockSplit_spec (hp : Placed h) {b size S nx : ℕ}
    (hsize : blockSize h.mem b = S) (hnext : blockNext h.mem b = nx) (hnx : nx < 2 ^ 64)
    (hfit : size + headerSize + minBlockSize ≤ S)
    (hlo : h.heapStartBlock ≤ b) (hhi : b + headerSize + S ≤ h.heapStartBlock + h.totalHeapSize)
    (hb : 16 ∣ b) (hsz : 16 ∣ size) :
    ∃ m', blockSplit h b size =
        { h with
          mem := m',
          blockBitmap := update h.blockBitmap
            (heapBmIndex h (b + headerSize + size)) true } ∧
      blockSize m' b = size ∧ blockNext m' b = b + headerSize + size ∧
      AgreeOn (b + 16) (b + headerSize + size) h.mem m' ∧
      BlockOk m' ⟨b + headerSize + size, S - size - headerSize, none⟩ nx ∧
      SameOutside b (b + headerSize + S) h.mem m' := by
  have hbound := hp.bound
  simp only [headerSize, minBlockSize] at hfit hhi ⊢
  have hnew : heapBmIndex h (b + 48 + size) < heapBitmapBits :=
    (heapBmIndex_spec hp (by omega) (by omega) (by omega)).1
  have hsub : sub64 (sub64 S size) 48 = S - size - 48 := by
    rw [sub64_of_le (a := S) (by omega) (by omega), sub64_of_le (by omega) (by omega)]
  unfold heapBmIndex at hnew ⊢
  simp only [blockSplit, headerSize, minBlockSize, hsize, if_pos hfit, hsub, heapBmSet,
    heapBmIndex, if_pos hnew]
  -- every read below is over the same seven stores
  refine ⟨_, rfl, ?_, ?_, ?_, ⟨?_, ?_, fun _ => ⟨?_, ?_⟩, by simp⟩, ?_⟩
  · simp (disch := omega) only [blockSize, setBlockSize, setBlockNext,
      readLE_writeLE_of_disjoint, read8_write8_same]
  · simp (disch := omega) only [blockNext, setBlockSize, setBlockNext, read8_write8_same]
  · simp only [setBlockSize, setBlockNext, setBlockCookie, setBlockIsFree]
    refine AgreeOn.trans ?_ (agreeOn_writeLE (by omega))
    refine AgreeOn.trans ?_ (agreeOn_writeLE (by omega))
    refine AgreeOn.trans ?_ (agreeOn_writeLE (by omega))
    refine AgreeOn.trans ?_ (agreeOn_writeLE (by omega))
    exact (agreeOn_writeLE (by omega)).trans (agreeOn_writeLE (by omega))
  · simp (disch := omega) only [blockSize, setBlockSize, setBlockNext, setBlockCookie,
      setBlockIsFree, readLE_writeLE_of_disjoint, read8_write8_same]
  · have hkeep : readLE h.mem (b + 8) 8 = nx := hnext
    simp (disch := omega) only [blockNext, setBlockSize, setBlockNext, setBlockCookie,
      setBlockIsFree, readLE_writeLE_of_disjoint, read8_write8_same, hkeep]
  · simp (disch := omega) only [blockIsFree, setBlockSize, setBlockNext, setBlockCookie,
      setBlockIsFree, readLE_writeLE_of_disjoint, read1_write1_same]
  · simp (disch := omega) only [blockCookie, setBlockSize, setBlockNext, setBlockCookie,
      setBlockIsFree, readLE_writeLE_of_disjoint, read8_write8_same]
  · simp only [setBlockSize, setBlockNext, setBlockCookie, setBlockIsFree]
    refine SameOutside.writeLE ?_ (by omega) (by omega)
    refine SameOutside.writeLE ?_ (by omega) (by omega)
    refine SameOutside.writeLE ?_ (by omega) (by omega)
    refine SameOutside.writeLE ?_ (by omega) (by omega)
    exact (sameOutside_writeLE (by omega) (by omega)).writeLE (by omega) (by omega)

theorem Rep.replace {h h' : HeapState} {l mid : List Block} (mid' : List Block)
    {c d : ℕ} (hrep : Rep h (l ++ (mid ++ r)))
    (hl : Seg h.mem (nextOf 0 c (mid ++ r)) h.heapStartBlock c l)
    (hr : Seg h.mem 0 d (h.heapStartBlock + h.totalHeapSize) r)
    (hmid : Seg h'.mem (nextOf 0 d r) c d mid') (hne : mid ≠ []) (hne' : mid' ≠ [])
    (hout : SameOutside c d h.mem h'.mem)
    (hstart : h'.heapStartBlock = h.heapStartBlock) (htotal : h'.totalHeapSize = h.totalHeapSize)
    (hal : ∀ B ∈ mid', 16 ∣ B.size)
    (hmarks : Marks h.heapStartBlock h'.blockBitmap ((l ++ (mid' ++ r)).map Block.addr))
    (hused : h'.usedBytes + (mid.map Block.usedSize).sum =
      h.usedBytes + (mid'.map Block.usedSize).sum) :
    Rep h' (l ++ (mid' ++ r)) where
  seg := by
    rw [hstart, htotal]
    exact Seg.replace mid mid' hl hr hmid hne hne' hout
  aligned := by
    intro B hB
    have hold := hrep.aligned B
    simp only [mem_append] at hB hold
    rcases hB with hB | hB | hB
    · exact hold (.inl hB)
    · exact hal B hB
    · exact hold (.inr (.inr hB))
  marks := by
    rw [hstart]
    exact hmarks
  used := by
    have hold := hrep.used
    simp only [map_append, sum_append] at hold ⊢
    omega

theorem sum_usedSize_le (h : Seg m nx a e bs) : a + (bs.map Block.usedSize).sum ≤ e := by
  induction bs generalizing a with
  | nil => cases h; simp
  | cons B bs ih =>
    obtain ⟨rfl, -, htail⟩ := h
    have hle := ih htail
    have hB : B.usedSize ≤ B.size := by
      unfold Block.usedSize
      split <;> omega
    simp only [map_cons, sum_cons, Block.stop] at hle ⊢
    omega

theorem Rep.geometry (hp : Placed h) (hrep : Rep h bs) (hB : B ∈ bs) :
    h.heapStartBlock ≤ B.addr ∧ B.stop ≤ h.heapStartBlock + h.totalHeapSize ∧
      16 ∣ B.addr ∧ 16 ∣ B.size := by
  obtain ⟨hlo, hhi⟩ := seg_mem hrep.seg hB
  exact ⟨hlo, hhi, (seg_aligned hrep.seg hp.aligned hrep.aligned).2 B hB, hrep.aligned B hB⟩

theorem Rep.around {l r : List Block} (hrep : Rep h (l ++ B :: r)) :
    Seg h.mem B.addr h.heapStartBlock B.addr l ∧ BlockOk h.mem B (nextOf 0 B.stop r) ∧
      Seg h.mem 0 B.stop (h.heapStartBlock + h.totalHeapSize) r := by
  obtain ⟨c, hl, rfl, hok, hr⟩ := seg_append.mp hrep.seg
  exact ⟨hl, hok, hr⟩

theorem nextOf_lt (hp : Placed h) {c : ℕ}
    (hr : Seg m 0 c (h.heapStartBlock + h.totalHeapSize) r) : nextOf 0 c r < 2 ^ 64 := by
  have hbound := hp.bound
  have hle := seg_le hr
  unfold nextOf
  split <;> omega

/-! ### Carving an allocation out of a block -/

/-- What `block_split` and the stamping of the header leave of `B`: the allocation,
and the rest as a free block when it is worth a header. -/
def carve (B : Block) (need : ℕ) (user : Option (ℕ × UInt32)) : List Block :=
  if need + headerSize + minBlockSize ≤ B.size then
    [⟨B.addr, need, user⟩, ⟨B.addr + headerSize + need, B.size - need - headerSize, none⟩]
  else [⟨B.addr, B.size, user⟩]

/-- The size the allocation ends up with. -/
def carvedSize (size need : ℕ) : ℕ :=
  if need + headerSize + minBlockSize ≤ size then need else size

theorem carve_ne_nil (B : Block) (need : ℕ) (user : Option (ℕ × UInt32)) :
    carve B need user ≠ [] := by
  unfold carve
  split <;> simp

theorem carve_aligned {need : ℕ} {user : Option (ℕ × UInt32)} (hneed : 16 ∣ need)
    (hB : 16 ∣ B.size) : ∀ C ∈ carve B need user, 16 ∣ C.size := by
  intro C hC
  by_cases hfit : need + headerSize + minBlockSize ≤ B.size
  · rw [carve, if_pos hfit] at hC
    simp only [mem_cons, not_mem_nil, or_false] at hC
    rcases hC with rfl | rfl
    · exact hneed
    · simp only [headerSize, minBlockSize] at hfit ⊢
      omega
  · rw [carve, if_neg hfit, mem_singleton] at hC
    subst hC
    exact hB

theorem carve_usedSize (B : Block) (need req : ℕ) (tag : UInt32) :
    ((carve B need (some (req, tag))).map Block.usedSize).sum = carvedSize B.size need := by
  unfold carve carvedSize
  split <;> simp [Block.usedSize]

theorem roundNeed_spec (req : ℕ) : 16 ∣ roundNeed req ∧ req + heapRedzoneBackSize ≤ roundNeed req ∧
      roundNeed req ≤ req + 23 := by
  unfold roundNeed heapRedzoneBackSize
  omega

theorem heapCookieFor_lt {b : ℕ} (hb : b < 2 ^ 64) : heapCookieFor b < 2 ^ 64 :=
  Nat.xor_lt_two_pow (by decide) hb

theorem stamp_spec (m : ByteMem) (b req size : ℕ) (tag : UInt32) (hb : b < 2 ^ 64)
    (hreq : req < 2 ^ 64) (hfits : req + heapRedzoneBackSize ≤ size) :
    UsedHdr (stampHeader m b req tag) b size req tag ∧
      SameOutside (b + 16) (b + headerSize + req + heapRedzoneBackSize) m
        (stampHeader m b req tag) := by
  have hcookie := heapCookieFor_lt hb
  have htag : readLE (writeLE (setBlockReqSize (setBlockIsFree m b 0) b req) (b + 32) 4
      tag.toNat) (b + 32) 4 = tag.toNat := by
    rw [readLE_writeLE_same]
    exact Nat.mod_eq_of_lt (by simpa using tag.toNat_lt)
  unfold stampHeader
  extract_lets m₁ m₂ m₃ m₄ m₅
  have hreq5 : blockReqSize m₅ b = req := by
    simp (disch := omega) only [m₅, m₄, m₃, m₂, blockReqSize, setBlockRedzoneFront,
      setBlockCookie, setBlockTag, setBlockReqSize, readLE_writeLE_of_disjoint,
      read8_write8_same]
  have haddr : heapRedzoneBackAddr m₅ b = b + 48 + req := by
    rw [heapRedzoneBackAddr, hreq5]
    rfl
  simp only [haddr, headerSize, heapRedzoneBackSize]
  refine ⟨⟨?_, ?_, ?_, ?_, ?_, hfits, ?_⟩, ?_⟩
  · simp (disch := omega) only [m₅, m₄, m₃, m₂, m₁, blockIsFree, setBlockRedzoneFront,
      setBlockCookie, setBlockTag, setBlockReqSize, setBlockIsFree,
      readLE_writeLE_of_disjoint, read1_write1_same]
  · simp (disch := omega) only [m₅, m₄, blockCookie, setBlockRedzoneFront, setBlockCookie,
      readLE_writeLE_of_disjoint, read8_write8_same]
  · rw [← hreq5]
    simp (disch := omega) only [blockReqSize, readLE_writeLE_of_disjoint]
  · rw [← htag]
    simp (disch := omega) only [m₅, m₄, m₃, m₂, m₁, blockTag, setBlockRedzoneFront,
      setBlockCookie, setBlockTag, readLE_writeLE_of_disjoint]
  · simp (disch := first | omega | decide) only [m₅, blockRedzoneFront, setBlockRedzoneFront,
      readLE_writeLE_of_disjoint, read8_write8_same]
  · exact read8_write8_same (by decide)
  · simp only [m₅, m₄, m₃, m₂, m₁, setBlockRedzoneFront, setBlockCookie, setBlockTag,
      setBlockReqSize, setBlockIsFree]
    refine SameOutside.writeLE ?_ (by omega) (by omega)
    refine SameOutside.writeLE ?_ (by omega) (by omega)
    refine SameOutside.writeLE ?_ (by omega) (by omega)
    refine SameOutside.writeLE ?_ (by omega) (by omega)
    exact (sameOutside_writeLE (by omega) (by omega)).writeLE (by omega) (by omega)

theorem mem_insert_middle {l r : List ℕ} {a n x : ℕ} :
    x ∈ l ++ a :: n :: r ↔ x = n ∨ x ∈ l ++ a :: r := by
  simp only [mem_append, mem_cons]
  tauto

/-- A split followed by an edit that stays inside the first block, from its `cookie`
field to the end of its data area, carves the block. `h₁` is the state the split starts
from; outside the block its memory is that of `h`. -/
theorem rep_carve {h h₁ h' : HeapState} {l : List Block} (mid : List Block)
    (B : Block) {need req : ℕ} {tag : UInt32} (hp : Placed h) (hp₁ : Placed h₁)
    (hstart₁ : h₁.heapStartBlock = h.heapStartBlock) (htotal₁ : h₁.totalHeapSize = h.totalHeapSize)
    (hrep : Rep h (l ++ (mid ++ r))) (hne : mid ≠ [])
    (hl : Seg h.mem (nextOf 0 B.addr (mid ++ r)) h.heapStartBlock B.addr l)
    (hr : Seg h.mem 0 B.stop (h.heapStartBlock + h.totalHeapSize) r)
    (hB : 16 ∣ B.size) (haddr : 16 ∣ B.addr) (hneed : 16 ∣ need)
    (hsize : blockSize h₁.mem B.addr = B.size) (hnext : blockNext h₁.mem B.addr = nextOf 0 B.stop r)
    (hm₁ : SameOutside B.addr B.stop h.mem h₁.mem)
    (hm' : SameOutside (B.addr + 16) (B.addr + headerSize + carvedSize B.size need)
      (blockSplit h₁ B.addr need).mem h'.mem)
    (hbm : h'.blockBitmap = (blockSplit h₁ B.addr need).blockBitmap)
    (hmarks : Marks h.heapStartBlock h₁.blockBitmap ((l ++ B :: r).map Block.addr))
    (hstart : h'.heapStartBlock = h.heapStartBlock) (htotal : h'.totalHeapSize = h.totalHeapSize)
    (hhdr : UsedHdr h'.mem B.addr (carvedSize B.size need) req tag)
    (hused : h'.usedBytes + (mid.map Block.usedSize).sum = h.usedBytes + carvedSize B.size need) :
    Rep h' (l ++ (carve B need (some (req, tag)) ++ r)) := by
  have hlo := seg_le hl
  have hhi := seg_le hr
  have hnx := nextOf_lt hp hr
  have hstop : B.stop = B.addr + headerSize + B.size := rfl
  have hhdr' : ∀ req' tag', some (req, tag) = some (req', tag') →
      UsedHdr h'.mem B.addr (carvedSize B.size need) req' tag' := by
    rintro req' tag' hu
    cases hu
    exact hhdr
  by_cases hfit : need + headerSize + minBlockSize ≤ B.size
  · -- the split happened: the allocation and a free block behind it
    have hcarve : carve B need (some (req, tag)) =
        [⟨B.addr, need, some (req, tag)⟩,
          ⟨B.addr + headerSize + need, B.size - need - headerSize, none⟩] := if_pos hfit
    have hcs : carvedSize B.size need = need := if_pos hfit
    obtain ⟨m₂, heq, hs, hn, -, hfree, hout⟩ := blockSplit_spec hp₁ hsize hnext hnx hfit
      (by omega) (by omega) haddr hneed
    rw [heq] at hm' hbm
    rw [hcs] at hm' hhdr'
    have hs' : blockSize h'.mem B.addr = need :=
      (readLE_congr (hm'.agreeOn (.inl (by omega)))).trans hs
    have hn' : blockNext h'.mem B.addr = B.addr + headerSize + need :=
      (readLE_congr (hm'.agreeOn (.inl (by omega)))).trans hn
    refine hrep.replace _ hl hr ?_ hne (carve_ne_nil _ _ _) ?_ hstart htotal
      (carve_aligned hneed hB) ?_ (by rw [carve_usedSize]; exact hused)
    · rw [hcarve]
      refine ⟨rfl, ⟨hs', hn', by simp, hhdr'⟩, rfl, ?_, ?_⟩
      · exact hfree.congr (hm'.agreeOn (.inr le_rfl))
      · simp only [Seg, Block.stop, headerSize, minBlockSize] at hfit ⊢
        omega
    · refine hm₁.trans ((hout.mono le_rfl le_rfl).trans (hm'.mono (by omega) ?_))
      omega
    · obtain ⟨-, hnew⟩ := heapBmIndex_spec hp₁
        (show h₁.heapStartBlock ≤ B.addr + headerSize + need by omega)
        (by simp only [headerSize, minBlockSize] at hfit hstop ⊢; omega)
        (by simp only [headerSize]; omega)
      have hstarts : (l ++ (carve B need (some (req, tag)) ++ r)).map Block.addr =
          l.map Block.addr ++ B.addr :: (B.addr + headerSize + need) :: r.map Block.addr := by
        simp [hcarve]
      rw [hbm, hstarts]
      refine hmarks.set fun x => ?_
      rw [hstart₁] at hnew
      rw [mem_insert_middle, ← hnew]
      simp
  · -- too small to split: the block as a whole
    have hcarve : carve B need (some (req, tag)) = [⟨B.addr, B.size, some (req, tag)⟩] :=
      if_neg hfit
    have hcs : carvedSize B.size need = B.size := if_neg hfit
    have hsame : blockSplit h₁ B.addr need = h₁ := blockSplit_of_lt (by rw [hsize]; omega)
    rw [hsame] at hm' hbm
    rw [hcs] at hm' hhdr'
    have hs' : blockSize h'.mem B.addr = B.size :=
      (readLE_congr (hm'.agreeOn (.inl (by omega)))).trans hsize
    have hn' : blockNext h'.mem B.addr = nextOf 0 B.stop r :=
      (readLE_congr (hm'.agreeOn (.inl (by omega)))).trans hnext
    refine hrep.replace _ hl hr ?_ hne (carve_ne_nil _ _ _) ?_ hstart htotal
      (carve_aligned hneed hB) ?_ (by rw [carve_usedSize]; exact hused)
    · rw [hcarve]
      exact ⟨rfl, ⟨hs', hn', by simp, hhdr'⟩, rfl⟩
    · exact hm₁.trans (hm'.mono (by omega) (by omega))
    · rw [hbm]
      simpa [hcarve] using hmarks

end ImpossibleOs.Heap
