import ImpossibleOs.Heap.Realloc
import Mathlib.Data.List.Chain

/-!
What one call of the allocator interface does to the set of allocated blocks.

`HeapOk h bs` is the invariant between calls. Every call turns it into
`HeapOk h' bs'` for a new list that `Trades` at most one allocated block for at
most one other.
-/

namespace ImpossibleOs.Heap

open ByteMem List Option

/-- The invariant between calls. -/
structure HeapOk (h : HeapState) (bs : List Block) : Prop where
  placed : Placed h
  nonempty : 0 < h.totalHeapSize
  rep : Rep h bs
  noAdjacent : NoAdjacentFree bs

/-- `bs'` has the allocated blocks of `bs` without `out` and with `gain`. -/
structure Trades (bs bs' : List Block) (out gain : Option Block) : Prop where
  mem : ∀ C, C.user ≠ none → (C ∈ bs' ↔ gain = some C ∨ (C ∈ bs ∧ out ≠ some C))
  fresh : ∀ U, gain = some U → ∀ C ∈ bs, C.addr = U.addr → C.user = none ∨ out = some C

theorem Trades.nothing (bs : List Block) : Trades bs bs none none :=
  ⟨by simp, by simp⟩

theorem HeapOk.of_frame {h h' : HeapState} {bs bs' : List Block} (hok : HeapOk h bs)
    (hframe : SameFrame h h') (hrep : Rep h' bs') (hadj : NoAdjacentFree bs') : HeapOk h' bs' :=
  ⟨hframe.placed hok.placed, hframe.total ▸ hok.nonempty, hrep, hadj⟩

variable {bs : List Block} {h : HeapState} {B : Block} {tag : UInt32} {l r : List Block} {req : ℕ}

theorem HeapOk.poison (hok : HeapOk h bs) : HeapOk { h with heapPoisoned := true } bs :=
  ⟨⟨hok.placed.pos, hok.placed.aligned, hok.placed.small, hok.placed.bound⟩, hok.nonempty,
    ⟨hok.rep.seg, hok.rep.aligned, hok.rep.marks, hok.rep.used⟩, hok.noAdjacent⟩

theorem seg_addr_inj {m : ByteMem} {nx a e : ℕ} {B C : Block}
    (h : Seg m nx a e (l ++ B :: r)) (hC : C ∈ l ++ B :: r) (haddr : C.addr = B.addr) : C = B := by
  obtain ⟨c, hl, rfl, -, hr⟩ := seg_append.mp h
  have hB : B.addr < B.stop := by simp only [Block.stop, headerSize]; omega
  simp only [mem_append, mem_cons] at hC
  rcases hC with hC | hC | hC
  · have hstop := (seg_mem hl hC).2
    have hlt : C.addr < C.stop := by simp only [Block.stop, headerSize]; omega
    omega
  · exact hC
  · have hlow := (seg_mem hr hC).1
    omega

theorem mem_carve {B C : Block} {need : ℕ} {u : ℕ × UInt32} (hC : C.user ≠ none) :
    C ∈ carve B need (some u) ↔ C = ⟨B.addr, carvedSize B.size need, some u⟩ := by
  have hne : C ≠ ⟨B.addr + headerSize + need, B.size - need - headerSize, none⟩ :=
    fun h => hC (h ▸ rfl)
  unfold carve carvedSize
  split <;> simp [hne]

theorem noAdjacentFree_carve (B : Block) {F : Block} (need : ℕ)
    (u : ℕ × UInt32) (hl : NoAdjacentFree l) (hF : F.user = none) (hr : NoAdjacentFree (F :: r)) :
    NoAdjacentFree (l ++ (carve B need (some u) ++ r)) := by
  have hrtail : NoAdjacentFree r := hr.tail
  have hhead : ∀ y ∈ r.head?, y.user ≠ none := by
    intro y hy hnone
    exact (isChain_cons.mp hr).1 y hy ⟨hF, hnone⟩
  have hcarve : NoAdjacentFree (carve B need (some u) ++ r) := by
    unfold carve
    split
    · refine isChain_cons_cons.mpr ⟨by simp, isChain_cons.mpr ⟨?_, hrtail⟩⟩
      intro y hy hfree
      exact hhead y hy hfree.2
    · exact isChain_cons.mpr ⟨by simp, hrtail⟩
  refine isChain_append.mpr ⟨hl, hcarve, ?_⟩
  intro x _ y hy
  have hy' : y.user ≠ none := by
    unfold carve at hy
    split at hy <;> simp at hy <;> simp [← hy]
  exact fun hfree => hy' hfree.2

theorem noAdjacentFree_split (h : NoAdjacentFree (l ++ B :: r)) :
    NoAdjacentFree l ∧ NoAdjacentFree (B :: r) := by
  have happ := isChain_append.mp h
  exact ⟨happ.1, happ.2.1⟩

theorem noAdjacentFree_set {B B' : Block} (h : NoAdjacentFree (l ++ B :: r))
    (hB' : B'.user ≠ none) : NoAdjacentFree (l ++ B' :: r) := by
  obtain ⟨hl, hr⟩ := noAdjacentFree_split h
  refine isChain_append.mpr ⟨hl, isChain_cons.mpr ⟨?_, hr.tail⟩, ?_⟩
  · exact fun y _ hfree => hB' hfree.1
  · intro x _ y hy hfree
    simp only [head?_cons, mem_def, some.injEq] at hy
    exact hB' (hy ▸ hfree.2)

/-! ### Allocation -/

theorem claim_trades (tag : UInt32)
    (hok : HeapOk h (l ++ B :: r)) (hfree : B.user = none) (hneed : roundNeed req ≤ B.size) :
    ∃ bs' U, HeapOk (claimBlock h B.addr req tag) bs' ∧
      U.addr = B.addr ∧ U.user = some (req, tag) ∧ U ∈ bs' ∧
      Trades (l ++ B :: r) bs' none (some U) := by
  have hrep := rep_claimBlock tag hok.placed hok.rep hfree hneed
  obtain ⟨hadjl, hadjr⟩ := noAdjacentFree_split hok.noAdjacent
  have hadj := noAdjacentFree_carve B (roundNeed req) (req, tag) hadjl
    hfree hadjr
  let U : Block := ⟨B.addr, carvedSize B.size (roundNeed req), some (req, tag)⟩
  have hmem : ∀ C, C.user ≠ none →
      (C ∈ l ++ (carve B (roundNeed req) (some (req, tag)) ++ r) ↔
        some U = some C ∨ (C ∈ l ++ B :: r ∧ (none : Option Block) ≠ some C)) := by
    intro C hC
    have hne : C ≠ B := fun h => hC (h ▸ hfree)
    simp only [mem_append, mem_cons, mem_carve hC, hne, some.injEq]
    constructor
    · rintro (hl | rfl | hr)
      · exact .inr ⟨.inl hl, by simp⟩
      · exact .inl rfl
      · exact .inr ⟨.inr (.inr hr), by simp⟩
    · rintro (rfl | ⟨hl | hB | hr, -⟩)
      · exact .inr (.inl rfl)
      · exact .inl hl
      · exact hB.elim
      · exact .inr (.inr hr)
  refine ⟨_, U, hok.of_frame (claimBlock_frame h B.addr req tag) hrep hadj, rfl, rfl, ?_,
    ⟨hmem, ?_⟩⟩
  · exact (hmem U (by simp [U])).mpr (.inl rfl)
  · intro V hV C hC haddr
    cases hV
    left
    rw [seg_addr_inj hok.rep.seg hC haddr]
    exact hfree

theorem HeapOk.userStore
    {m' : ByteMem} (hok : HeapOk h bs) (hB : B ∈ bs) (huser : B.user = some (req, tag))
    (hout : SameOutside (B.addr + headerSize) (B.addr + headerSize + req) h.mem m') :
    HeapOk { h with mem := m' } bs :=
  hok.of_frame ⟨rfl, rfl, rfl⟩ (rep_userStore hok.rep hB huser hout) hok.noAdjacent

/-- The outcome of an allocating call that asked for `size` bytes: nothing, or a new
block for them. -/
def Allocates (h : HeapState) (bs : List Block) (size : ℕ) (tag : UInt32)
    (res : Option (HeapState × ℕ)) : Prop :=
  res = some (h, 0) ∨
    ∃ h' bs' U, res = some (h', U.addr + headerSize) ∧ HeapOk h' bs' ∧
      U.user = some (size, tag) ∧ U ∈ bs' ∧ Trades bs bs' none (some U)

theorem kmallocAndZero_spec {size : ℕ}
    (hok : HeapOk h bs) : Allocates h bs size tag (kmallocAndZero h size tag) := by
  unfold kmallocAndZero
  split
  · exact .inl rfl
  · rcases kmallocLocked_spec size tag hok.placed hok.nonempty hok.rep with
      hnone | ⟨l, B, r, rfl, hfree, hneed, hres⟩
    · left
      simp [hnone]
    · right
      obtain ⟨bs', U, hok', haddr, huser, hU, htrades⟩ := claim_trades tag hok hfree hneed
      have hz : HeapOk (heapFastZero (claimBlock h B.addr size tag) (B.addr + headerSize) size)
          bs' :=
        hok'.userStore hU huser (haddr ▸ sameOutside_zeroRange le_rfl le_rfl)
      refine ⟨_, bs', U, ?_, hz, huser, hU, htrades⟩
      simp [hres, haddr, headerSize]

theorem kmalloc_spec (size : ℕ) (inject : Bool)
    (hok : HeapOk h bs) : Allocates h bs size 0 (kmalloc h size inject) := by
  unfold kmalloc
  split
  · exact .inl rfl
  · split
    · exact .inl rfl
    · exact kmallocAndZero_spec hok

theorem kmallocZeroed_spec (size : ℕ) (inject : Bool)
    (hok : HeapOk h bs) : Allocates h bs size 0 (kmallocZeroed h size inject) := by
  unfold kmallocZeroed
  split
  · exact .inl rfl
  · split
    · exact .inl rfl
    · exact kmallocAndZero_spec hok

theorem kmallocTagged_spec (size : ℕ) (tag : UInt32)
    (hok : HeapOk h bs) : Allocates h bs size tag (kmallocTagged h size tag) := by
  unfold kmallocTagged
  split
  · exact .inl rfl
  · exact kmallocAndZero_spec hok

theorem coalesce_trades {h h' : HeapState}
    (hok : HeapOk h (l ++ B :: r)) (hrep : Rep h' (coalesceAll (l ++ freeBlock B :: r)))
    (hframe : SameFrame h h') : HeapOk h' (coalesceAll (l ++ freeBlock B :: r)) ∧
      Trades (l ++ B :: r) (coalesceAll (l ++ freeBlock B :: r)) (some B) none := by
  have hadj : NoAdjacentFree (coalesceAll (l ++ freeBlock B :: r)) := by
    cases l with
    | nil => exact noAdjacentFree_coalesceList _ _
    | cons A l => exact noAdjacentFree_coalesceList _ _
  have hmem : ∀ C, C.user ≠ none →
      (C ∈ coalesceAll (l ++ freeBlock B :: r) ↔ C ∈ l ++ freeBlock B :: r) := by
    intro C hC
    cases l with
    | nil => exact mem_coalesceList_of_used hC _ _
    | cons A l => exact mem_coalesceList_of_used hC _ _
  refine ⟨hok.of_frame hframe hrep hadj, ⟨fun C hC => ?_, by simp⟩⟩
  have hneF : C ≠ freeBlock B := fun h => hC (h ▸ rfl)
  rw [hmem C hC]
  constructor
  · intro hmemC
    simp only [mem_append, mem_cons, hneF, false_or] at hmemC
    refine .inr ⟨by simp only [mem_append, mem_cons]; tauto, ?_⟩
    rintro ⟨⟩
    -- a block is not its own neighbour
    obtain ⟨hl, -, hr⟩ := hok.rep.around
    have hlt : B.addr < B.stop := by simp only [Block.stop, headerSize]; omega
    rcases hmemC with hmemC | hmemC
    · have := (seg_mem hl hmemC).2
      omega
    · have := (seg_mem hr hmemC).1
      omega
  · rintro (hgain | ⟨hmemC, hne⟩)
    · cases hgain
    · have hCB : C ≠ B := fun h => hne (h ▸ rfl)
      simp only [mem_append, mem_cons, hCB, false_or] at hmemC ⊢
      tauto

theorem kfreeLocked_trades (hok : HeapOk h bs) (hB : B ∈ bs) (huser : B.user = some (req, tag))
    (hpois : h.heapPoisoned = false) :
    ∃ h' bs', kfreeLocked h (B.addr + headerSize) none noFault = some (h', noFault) ∧
      HeapOk h' bs' ∧ Trades bs bs' (some B) none := by
  obtain ⟨l, r, rfl⟩ := append_of_mem hB
  rcases kfreeLocked_spec none noFault hok.placed hok.rep huser hpois with
    ⟨t, hwant, -⟩ | ⟨h', hres, hrep, hframe⟩
  · cases hwant
  · obtain ⟨hok', htrades⟩ := coalesce_trades hok hrep hframe
    exact ⟨h', _, hres, hok', htrades⟩

theorem kfreeLocked_frees_of_clean (want : Option UInt32) (hok : HeapOk h bs) (hB : B ∈ bs)
    (huser : B.user = some (req, tag)) (hpois : h.heapPoisoned = false) :
    (∃ fault, fault.cls ≠ .none ∧ kfreeLocked h (B.addr + headerSize) want noFault =
      some ({ h with heapPoisoned := true }, fault)) ∨
    ∃ h' bs', kfreeLocked h (B.addr + headerSize) want noFault = some (h', noFault) ∧
      HeapOk h' bs' ∧ Trades bs bs' (some B) none := by
  obtain ⟨l, r, rfl⟩ := append_of_mem hB
  rcases kfreeLocked_spec want noFault hok.placed hok.rep huser hpois with
    ⟨t, -, -, hres⟩ | ⟨h', hres, hrep, hframe⟩
  · exact .inl ⟨_, by simp, hres⟩
  · obtain ⟨hok', htrades⟩ := coalesce_trades hok hrep hframe
    exact .inr ⟨h', _, hres, hok', htrades⟩

/-! ### Reallocation -/

/-- The outcome of reallocating `B` to `newSize` bytes: nothing changes, or `B` is traded
for a block of the new size. -/
def Reallocates (h : HeapState) (bs : List Block) (B : Block) (newSize : ℕ)
    (res : Option (HeapState × HeapFault × ℕ)) : Prop :=
  res = some (h, noFault, 0) ∨
    ∃ h' bs' U tag, res = some (h', noFault, U.addr + headerSize) ∧ HeapOk h' bs' ∧
      U.user = some (newSize, tag) ∧ U ∈ bs' ∧ Trades bs bs' (some B) (some U)

theorem Trades.comp {bs bs₁ bs₂ : List Block} {B U : Block} (h₁ : Trades bs bs₁ none (some U))
    (h₂ : Trades bs₁ bs₂ (some B) none) (hB : B ∈ bs) (huser : B.user ≠ none) :
    Trades bs bs₂ (some B) (some U) := by
  have hUB : U ≠ B := by
    rintro rfl
    rcases h₁.fresh U rfl U hB rfl with hnone | hout
    · exact huser hnone
    · cases hout
  refine ⟨fun C hC => ?_, fun V hV C hC haddr => ?_⟩
  · rw [h₂.mem C hC, h₁.mem C hC]
    constructor
    · rintro (hgain | ⟨hgain | ⟨hmem, -⟩, hne⟩)
      · cases hgain
      · exact .inl hgain
      · exact .inr ⟨hmem, hne⟩
    · rintro (hgain | ⟨hmem, hne⟩)
      · refine .inr ⟨.inl hgain, ?_⟩
        rintro ⟨⟩
        cases hgain
        exact hUB rfl
      · exact .inr ⟨.inr ⟨hmem, by simp⟩, hne⟩
  · rcases h₁.fresh V hV C hC haddr with hnone | hout
    · exact .inl hnone
    · cases hout

theorem trades_set {m : ByteMem} {nx a e : ℕ} {l : List Block} (mid : List Block)
    {r bs' : List Block} {B U : Block} (hseg : Seg m nx a e (l ++ B :: (mid ++ r)))
    (haddr : U.addr = B.addr) (hmid : ∀ C ∈ mid, C.user = none)
    (hbs' : ∀ C, C.user ≠ none → (C ∈ bs' ↔ C ∈ l ∨ C = U ∨ C ∈ r)) :
    Trades (l ++ B :: (mid ++ r)) bs' (some B) (some U) := by
  obtain ⟨c, hl, rfl, -, hr⟩ := seg_append.mp hseg
  have hlt : ∀ C : Block, C.addr < C.stop := by
    intro C
    simp only [Block.stop, headerSize]
    omega
  refine ⟨fun C hC => ?_, fun V hV C hC hCV => ?_⟩
  · have hnmid : C ∉ mid := fun h => hC (hmid C h)
    rw [hbs' C hC]
    simp only [mem_append, mem_cons, hnmid, false_or, some.injEq, ne_eq]
    constructor
    · rintro (hCl | hCU | hCr)
      · refine .inr ⟨.inl hCl, ?_⟩
        rintro rfl
        have := (seg_mem hl hCl).2
        have := hlt B
        omega
      · exact .inl hCU.symm
      · refine .inr ⟨.inr (.inr hCr), ?_⟩
        rintro rfl
        have := (seg_mem hr (mem_append_right mid hCr)).1
        have := hlt B
        omega
    · rintro (hCU | ⟨hCl | hCB | hCr, hne⟩)
      · exact .inr (.inl hCU.symm)
      · exact .inl hCl
      · exact absurd hCB.symm hne
      · exact .inr (.inr hCr)
  · cases hV
    exact .inr (congrArg some (seg_addr_inj hseg hC (hCV.trans haddr)).symm)

/-- A move with the bytes copied to the block claimed at `F` and the old block still allocated. -/
def copiedState (h : HeapState) (F ptr newSize copySize : ℕ) (tag : UInt32) : HeapState :=
  let h := heapFastZero (claimBlock h F newSize tag) (F + headerSize) newSize
  { h with mem := copyUp h.mem (F + headerSize) ptr copySize }

theorem moveBlock_cases (newSize : ℕ) (hok : HeapOk h bs) (hB : B ∈ bs)
    (huser : B.user = some (req, tag)) (hpois : h.heapPoisoned = false) :
    moveBlock h B.addr (B.addr + headerSize) newSize = some (h, noFault, 0) ∨
    ∃ F bs₁ U copySize h' bs₂, F ∈ bs ∧ F.user = none ∧ roundNeed newSize ≤ F.size ∧
      copySize = min (blockReqSize (claimBlock h F.addr newSize tag).mem B.addr) newSize ∧
      U.addr = F.addr ∧ U.user = some (newSize, tag) ∧ U ∈ bs₁ ∧
      HeapOk (copiedState h F.addr (B.addr + headerSize) newSize copySize tag) bs₁ ∧
      Trades bs bs₁ none (some U) ∧
      kfreeLocked (copiedState h F.addr (B.addr + headerSize) newSize copySize tag)
        (B.addr + headerSize) none noFault = some (h', noFault) ∧
      HeapOk h' bs₂ ∧ Trades bs₁ bs₂ (some B) none ∧
      moveBlock h B.addr (B.addr + headerSize) newSize =
        some (h', noFault, F.addr + headerSize) := by
  have htag : UInt32.ofNat (blockTag h.mem B.addr) = tag := by
    obtain ⟨l, r, rfl⟩ := append_of_mem hB
    obtain ⟨-, hokB, -⟩ := hok.rep.around
    rw [(hokB.used req tag huser).tagEq, UInt32.ofNat_toNat]
  unfold moveBlock
  rw [htag]
  rcases kmallocLocked_spec newSize tag hok.placed hok.nonempty hok.rep with
    hnone | ⟨l, F, r, rfl, hfree, hneed, hres⟩
  · left
    simp [hnone]
  · right
    obtain ⟨bs₁, U, hok₁, haddr, hUuser, hU, htrades⟩ := claim_trades tag hok hfree hneed
    have hUne : F.addr + headerSize ≠ 0 := by simp [headerSize]
    simp only [hres, bind_eq_bind, bind_some, hUne, if_false]
    have hmin : (if blockReqSize (claimBlock h F.addr newSize tag).mem B.addr < newSize
        then blockReqSize (claimBlock h F.addr newSize tag).mem B.addr else newSize) =
        min (blockReqSize (claimBlock h F.addr newSize tag).mem B.addr) newSize := by
      split <;> omega
    rw [hmin]
    generalize hcopy : min (blockReqSize (claimBlock h F.addr newSize tag).mem B.addr) newSize =
      copySize
    -- zeroing and copying stay inside the new block
    have hok₂ : HeapOk (copiedState h F.addr (B.addr + headerSize) newSize copySize tag) bs₁ := by
      have hzero : HeapOk (heapFastZero (claimBlock h F.addr newSize tag) (F.addr + headerSize)
          newSize) bs₁ :=
        hok₁.userStore hU hUuser (haddr ▸ sameOutside_zeroRange le_rfl le_rfl)
      refine hzero.userStore hU hUuser ?_
      rw [haddr]
      exact sameOutside_copyUp le_rfl (by omega)
    have hB₁ : B ∈ bs₁ := (htrades.mem B (by simp [huser])).mpr (.inr ⟨hB, by simp⟩)
    have hpois₂ : (copiedState h F.addr (B.addr + headerSize) newSize copySize
        tag).heapPoisoned = false := by
      simp only [copiedState, heapFastZero]
      exact (claimBlock_frame h F.addr newSize tag).poisoned.trans hpois
    obtain ⟨h', bs₂, hfreeRes, hok', htrades₂⟩ := kfreeLocked_trades hok₂ hB₁ huser hpois₂
    refine ⟨F, bs₁, U, copySize, h', bs₂, by simp, hfree, hneed, hcopy.symm, haddr, hUuser,
      hU, hok₂,
      htrades, hfreeRes, hok', htrades₂, ?_⟩
    simp only [copiedState] at hfreeRes
    rw [hfreeRes]
    rfl

theorem moveBlock_spec (newSize : ℕ) (hok : HeapOk h bs) (hB : B ∈ bs)
    (huser : B.user = some (req, tag)) (hpois : h.heapPoisoned = false) :
    Reallocates h bs B newSize (moveBlock h B.addr (B.addr + headerSize) newSize) := by
  rcases moveBlock_cases newSize hok hB huser hpois with
    hnone | ⟨F, bs₁, U, copySize, h', bs₂, -, -, -, -, haddr, hUuser, hU, -, htrades, -, hok',
      htrades₂, hres⟩
  · exact .inl hnone
  · right
    have htotal := htrades.comp htrades₂ hB (by simp [huser])
    exact ⟨h', bs₂, U, tag, haddr ▸ hres, hok', hUuser,
      (htotal.mem U (by simp [hUuser])).mpr (.inl rfl), htotal⟩

theorem krealloc_cases {req newSize : ℕ} (inject : Bool) (hok : HeapOk h bs) (hB : B ∈ bs)
    (huser : B.user = some (req, tag)) (hnew : newSize ≠ 0) :
    krealloc h (B.addr + headerSize) newSize inject = some (h, noFault, 0) ∨
    (roundNeed newSize ≤ B.size ∧ krealloc h (B.addr + headerSize) newSize inject =
      some (growInPlace h B.addr (B.addr + headerSize) newSize req, noFault, B.addr + headerSize)) ∨
    (∃ l N r, bs = l ++ B :: N :: r ∧ N.user = none ∧ B.size < roundNeed newSize ∧
      roundNeed newSize ≤ B.size + headerSize + N.size ∧
      krealloc h (B.addr + headerSize) newSize inject = some (growInPlace
          (mergeNext h B.addr (roundNeed newSize) (B.size + headerSize + N.size))
          B.addr (B.addr + headerSize) newSize req, noFault, B.addr + headerSize)) ∨
    (h.heapPoisoned = false ∧ krealloc h (B.addr + headerSize) newSize inject =
      moveBlock h B.addr (B.addr + headerSize) newSize) := by
  unfold krealloc
  rw [if_neg (by simp [headerSize]), if_neg hnew]
  split
  · exact .inl rfl
  · cases hpois : h.heapPoisoned with
    | true => exact .inl rfl
    | false =>
      rw [heapClassify_live hok.placed hok.rep hB huser]
      obtain ⟨l, r, rfl⟩ := append_of_mem hB
      obtain ⟨-, hokB, hr⟩ := hok.rep.around
      simp only [Bool.false_eq_true, if_false, hokB.size, (hokB.used req tag huser).reqSize]
      split
      · -- the block is large enough
        rename_i hneed
        exact .inr (.inl ⟨hneed, rfl⟩)
      · rename_i hneed
        cases r with
        | nil =>
          rw [hokB.next, nextOf_nil]
          exact .inr (.inr (.inr ⟨trivial, rfl⟩))
        | cons N r =>
          obtain ⟨hNaddr, hokN, hr'⟩ := hr
          have hnext : blockNext h.mem B.addr = N.addr := hokB.next.trans hNaddr.symm
          rw [hnext]
          split
          · rename_i hfreeN
            have hN : N.user = none := by
              cases hNuser : N.user with
              | none => rfl
              | some u => exact absurd (hokN.used u.1 u.2 hNuser).isFree hfreeN.2
            have hbound := hok.placed.bound
            obtain ⟨-, hhiN⟩ := seg_mem hok.rep.seg (B := N) (by simp)
            have hlen : B.size + headerSize + N.size < 2 ^ 64 := by
              simp only [Block.stop] at hhiN hNaddr
              omega
            rw [if_neg (by simp [(hokN.free hN).cookie]), hokN.size, u64_of_lt hlen]
            split
            · rename_i hfit
              exact .inr (.inr (.inl ⟨l, N, r, rfl, hN, by omega, hfit, rfl⟩))
            · exact .inr (.inr (.inr ⟨trivial, rfl⟩))
          · exact .inr (.inr (.inr ⟨trivial, rfl⟩))

theorem krealloc_spec {req newSize : ℕ} (inject : Bool) (hok : HeapOk h bs) (hB : B ∈ bs)
    (huser : B.user = some (req, tag)) (hnew : newSize ≠ 0) :
    Reallocates h bs B newSize (krealloc h (B.addr + headerSize) newSize inject) := by
  rcases krealloc_cases inject hok hB huser hnew with
    hnone | ⟨hneed, hres⟩ | ⟨l, N, r, rfl, hN, -, hfit, hres⟩ | ⟨hpois, hres⟩
  · exact .inl hnone
  · right
    obtain ⟨l, r, rfl⟩ := append_of_mem hB
    have hrep := rep_growInPlace hok.placed hok.rep huser hneed
    obtain ⟨hframe, -, -⟩ := growInPlace_frame h B.addr (B.addr + headerSize) newSize req
    let U : Block := ⟨B.addr, B.size, some (newSize, tag)⟩
    exact ⟨_, l ++ U :: r, U, tag, hres,
      hok.of_frame hframe hrep (noAdjacentFree_set hok.noAdjacent (by simp [U])), rfl,
      by simp, trades_set [] hok.rep.seg rfl (by simp) (by simp)⟩
  · right
    obtain ⟨hrep, hframe⟩ := rep_mergeNext hok.placed hok.rep huser hN hfit
    obtain ⟨hadjl, hadjr⟩ := noAdjacentFree_split hok.noAdjacent
    have hadj := noAdjacentFree_carve (mergedBlock B N)
      (roundNeed newSize) (newSize, tag) hadjl hN hadjr.tail
    let U : Block := ⟨B.addr, carvedSize (B.size + headerSize + N.size) (roundNeed newSize),
      some (newSize, tag)⟩
    have hmem : ∀ C, C.user ≠ none →
        (C ∈ l ++ (carve (mergedBlock B N) (roundNeed newSize) (some (newSize, tag)) ++ r) ↔
          C ∈ l ∨ C = U ∨ C ∈ r) := by
      intro C hC
      simp only [mem_append, mem_carve hC]
      exact Iff.rfl
    exact ⟨_, _, U, tag, hres, hok.of_frame hframe hrep hadj, rfl,
      (hmem U (by simp [U])).mpr (by simp),
      trades_set [N] hok.rep.seg rfl (by simp [hN]) hmem⟩
  · rw [hres]
    exact moveBlock_spec newSize hok hB huser hpois

end ImpossibleOs.Heap
