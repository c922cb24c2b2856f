import ImpossibleOs.Heap.Safety

/-!
The bytes of the allocations under `krealloc`.

Every store of the allocator falls into the header of a block it changes, into a free block, or
into the bytes of the allocation it serves.
-/

namespace ImpossibleOs.Heap

open ByteMem List

theorem claimBlock_out {h : HeapState} {bs : List Block} {F : Block} {req : ℕ} (tag : UInt32)
    (hok : HeapOk h bs) (hF : F ∈ bs) (hneed : roundNeed req ≤ F.size) :
    SameOutside F.addr F.stop h.mem (claimBlock h F.addr req tag).mem := by
  obtain ⟨l, r, rfl⟩ := append_of_mem hF
  obtain ⟨-, hokF, hr⟩ := hok.rep.around
  obtain ⟨hlo, hhi, haddr, -⟩ := hok.rep.geometry hok.placed hF
  obtain ⟨hn16, hnreq, -⟩ := roundNeed_spec req
  have hbound := hok.placed.bound
  have hstop : F.stop = F.addr + headerSize + F.size := rfl
  have hsplit : SameOutside F.addr F.stop h.mem (blockSplit h F.addr (roundNeed req)).mem := by
    by_cases hfit : roundNeed req + headerSize + minBlockSize ≤ F.size
    · obtain ⟨m₂, heq, -, -, -, -, hout⟩ := blockSplit_spec hok.placed hokF.size hokF.next
        (nextOf_lt hok.placed hr) hfit hlo (hstop ▸ hhi) haddr hn16
      rw [heq]
      exact hout
    · rw [blockSplit_of_lt (by rw [hokF.size]; omega)]
      exact SameOutside.refl _ _ _
  obtain ⟨-, hout⟩ := stamp_spec (blockSplit h F.addr (roundNeed req)).mem F.addr req F.size tag
    (by omega) (by omega) (by omega)
  have hmem : (claimBlock h F.addr req tag).mem =
      stampHeader (blockSplit h F.addr (roundNeed req)).mem F.addr req tag := by
    simp only [claimBlock]
  rw [hmem]
  exact hsplit.trans (hout.mono (by omega) (by omega))

theorem kfreeLocked_keeps {h : HeapState} {bs : List Block} {B : Block} {req : ℕ}
    {tag : UInt32} (hok : HeapOk h bs) (hB : B ∈ bs) (huser : B.user = some (req, tag))
    {r : HeapState × HeapFault}
    (hr : kfreeLocked h (B.addr + headerSize) none noFault = some r) {C : Block} (hC : C ∈ bs)
    (hused : C.user ≠ none) (hne : C ≠ B) : AgreeOn C.addr C.stop h.mem r.1.mem := by
  unfold kfreeLocked at hr
  cases hpois : h.heapPoisoned with
  | true =>
    rw [if_pos hpois] at hr
    cases hr
    exact AgreeOn.refl _ _ _
  | false =>
    rw [if_neg (by simp [hpois]), heapClassify_live hok.placed hok.rep hB huser] at hr
    have hapart := seg_apart hok.rep.seg hB hC hne
    have hB48 : B.addr + headerSize ≤ B.stop := by
      simp only [Block.stop]
      omega
    have hrelease : SameOutside B.addr (B.addr + headerSize) h.mem
        (releaseBlock h B.addr).mem := by
      simp only [releaseBlock, setBlockCookie, setBlockIsFree, headerSize]
      exact (sameOutside_writeLE (by omega) (by omega)).writeLE (by omega) (by omega)
    refine (hrelease.agreeOn (hapart.imp id fun hle => hB48.trans hle)).trans ?_
    obtain ⟨l, r', rfl⟩ := append_of_mem hB
    obtain ⟨hrep', hframe⟩ := rep_releaseBlock hok.placed hok.rep (by simp [huser])
    have hC' : C ∈ l ++ freeBlock B :: r' := by
      simp only [mem_append, mem_cons, hne, false_or] at hC ⊢
      exact hC.imp id .inr
    obtain ⟨h', hrun, -, -, hkeep⟩ :=
      coalesceFreeBlocks_spec (f := noFault) (hframe.placed hok.placed) hrep' (by simp)
    obtain rfl := Option.some.inj (hrun.symm.trans hr)
    exact hkeep C hC' hused

theorem growInPlace_bytes (h : HeapState) (b oldReq : ℕ) {newSize : ℕ} (hnew : newSize < 2 ^ 64) :
    (∀ i < min oldReq newSize, (growInPlace h b (b + headerSize) newSize oldReq).mem
      (b + headerSize + i) = h.mem (b + headerSize + i)) ∧ ∀ i, oldReq ≤ i → i < newSize →
      (growInPlace h b (b + headerSize) newSize oldReq).mem (b + headerSize + i) = 0 := by
  have hkeep : ∀ i < newSize, grownMem h.mem b newSize (b + 48 + i) = h.mem (b + 48 + i) := by
    intro i hi
    rw [grownMem, writeLE_of_lt (by omega), setBlockReqSize, writeLE_of_lt (by omega)]
  rw [growInPlace_mem h b oldReq hnew]
  simp only [headerSize]
  split
  · refine ⟨fun i hi => ?_, fun i hlo hhi => ?_⟩
    · refine Eq.trans ?_ (hkeep i (by omega))
      exact if_neg (by omega)
    · exact if_pos (by omega)
  · exact ⟨fun i hi => hkeep i (by omega), fun i hlo hhi => by omega⟩

theorem blockSplit_mem (h : HeapState) (b size : ℕ) {x : ℕ} (hb : x < b ∨ b + 16 ≤ x)
    (hnew : x < b + headerSize + size ∨ b + headerSize + size + headerSize ≤ x) :
    (blockSplit h b size).mem x = h.mem x := by
  simp only [headerSize] at hnew
  unfold blockSplit
  split
  · have hset : ∀ (h : HeapState) (n : ℕ), (heapBmSet h n).mem = h.mem := by
      intro h n
      unfold heapBmSet
      split <;> rfl
    simp only [hset, headerSize, setBlockSize, setBlockIsFree, setBlockCookie, setBlockNext]
    simp (disch := omega) only [writeLE_of_lt]
  · rfl

theorem mergeNext_keeps {h : HeapState} {l r : List Block} {B N : Block} {newSize : ℕ}
    (hp : Placed h) (hrep : Rep h (l ++ B :: N :: r)) (hgrow : B.size < roundNeed newSize) :
    AgreeOn (B.addr + headerSize) B.stop h.mem
      (mergeNext h B.addr (roundNeed newSize) (B.size + headerSize + N.size)).mem ∧
    SameOutside B.addr N.stop h.mem
      (mergeNext h B.addr (roundNeed newSize) (B.size + headerSize + N.size)).mem := by
  obtain ⟨-, -, hNaddr, -, -⟩ := hrep.around
  obtain ⟨-, hhiN, -, -⟩ := hrep.geometry hp (B := N) (by simp)
  have hbound := hp.bound
  have hBstop : B.stop = B.addr + headerSize + B.size := rfl
  have hNstop : N.stop = N.addr + headerSize + N.size := rfl
  have hclear : ∀ n, (heapBmClear h n).mem = h.mem := by
    intro n
    unfold heapBmClear
    split <;> rfl
  simp only [mergeNext, hclear]
  set m₁ := setBlockNext (setBlockSize h.mem B.addr (B.size + headerSize + N.size)) B.addr
    (blockNext (setBlockSize h.mem B.addr (B.size + headerSize + N.size))
      (blockNext (setBlockSize h.mem B.addr (B.size + headerSize + N.size)) B.addr)) with hm₁
  have hout₁ : SameOutside B.addr (B.addr + 16) h.mem m₁ := by
    simp only [hm₁, setBlockNext, setBlockSize]
    exact (sameOutside_writeLE (by omega) (by omega)).writeLE (by omega) (by omega)
  have hsize₁ : blockSize m₁ B.addr = B.size + headerSize + N.size := by
    simp only [headerSize] at hBstop hNstop
    simp (disch := omega) only [hm₁, blockSize, setBlockNext, setBlockSize, headerSize,
      readLE_writeLE_of_disjoint, read8_write8_same]
  simp only [headerSize] at *
  refine ⟨fun x hlo hhi => ?_, fun x hx => ?_⟩
  · rw [blockSplit_mem _ _ _ (.inr (by omega)) (.inl (by simp only [headerSize]; omega))]
    exact hout₁ x (.inr (by omega))
  · by_cases hfit : roundNeed newSize + headerSize + minBlockSize ≤ B.size + 48 + N.size
    · simp only [headerSize, minBlockSize] at hfit
      rw [blockSplit_mem _ _ _ (by omega) (by simp only [headerSize]; omega)]
      exact hout₁ x (by omega)
    · rw [blockSplit_of_lt (by rw [hsize₁]; omega)]
      exact hout₁ x (by omega)

/-! ### The three ways together -/

/-- What stands at `q` and in the other blocks after the allocation at `B` was given `newSize`
bytes there. -/
structure Carries (m m' : ByteMem) (bs : List Block) (B : Block) (req q newSize : ℕ) : Prop where
  kept : ∀ i < min req newSize, m' (q + i) = m (B.addr + headerSize + i)
  zeroed : ∀ i, req ≤ i → i < newSize → m' (q + i) = 0
  others : ∀ C ∈ bs, C.user ≠ none → C ≠ B → AgreeOn C.addr C.stop m m'

section

variable {h : HeapState} {bs : List Block} {B : Block} {req newSize : ℕ} {tag : UInt32}

theorem growInPlace_carries (hok : HeapOk h bs) (hB : B ∈ bs) (hneed : roundNeed newSize ≤ B.size) :
    Carries h.mem (growInPlace h B.addr (B.addr + headerSize) newSize req).mem bs B req
      (B.addr + headerSize) newSize := by
  obtain ⟨-, hhi, -, -⟩ := hok.rep.geometry hok.placed hB
  obtain ⟨-, hnreq, -⟩ := roundNeed_spec newSize
  have hbound := hok.placed.bound
  have hstop : B.stop = B.addr + headerSize + B.size := rfl
  obtain ⟨hkept, hzeroed⟩ := @growInPlace_bytes h B.addr req newSize (by omega)
  refine ⟨hkept, hzeroed, fun C hC _ hne => ?_⟩
  have hout := @growInPlace_out h B.addr req newSize (by omega)
  exact (hout.mono (show B.addr ≤ _ by omega) (show _ ≤ B.stop by omega)).agreeOn
    (seg_apart hok.rep.seg hB hC hne)

theorem mergeNext_carries {l r : List Block} {N : Block} (hok : HeapOk h (l ++ B :: N :: r))
    (huser : B.user = some (req, tag)) (hN : N.user = none) (hgrow : B.size < roundNeed newSize)
    (hfit : roundNeed newSize ≤ B.size + headerSize + N.size) : Carries h.mem (growInPlace
      (mergeNext h B.addr (roundNeed newSize) (B.size + headerSize + N.size))
      B.addr (B.addr + headerSize) newSize req).mem (l ++ B :: N :: r) B req
      (B.addr + headerSize) newSize := by
  obtain ⟨-, hhi, -, -⟩ := hok.rep.geometry hok.placed (B := N) (by simp)
  obtain ⟨-, hokB, hNaddr, -, -⟩ := hok.rep.around
  obtain ⟨-, hnreq, -⟩ := roundNeed_spec newSize
  have hbound := hok.placed.bound
  have hfits := (hokB.used req tag huser).fits
  have hBstop : B.stop = B.addr + headerSize + B.size := rfl
  have hNstop : N.stop = N.addr + headerSize + N.size := rfl
  obtain ⟨hdata, hout⟩ := mergeNext_keeps hok.placed hok.rep hgrow
  obtain ⟨hkept, hzeroed⟩ := @growInPlace_bytes
    (mergeNext h B.addr (roundNeed newSize) (B.size + headerSize + N.size)) B.addr req
    newSize (by omega)
  refine ⟨fun i hi => ?_, hzeroed, fun C hC hused hne => ?_⟩
  · rw [hkept i hi]
    exact hdata _ (by omega) (by omega)
  · have hCN : C ≠ N := fun hc => hused (hc ▸ hN)
    have hgrown := @growInPlace_out
      (mergeNext h B.addr (roundNeed newSize) (B.size + headerSize + N.size)) B.addr req
      newSize (by omega)
    refine (hout.trans (hgrown.mono (show B.addr ≤ _ by omega)
      (show _ ≤ N.stop by omega))).agreeOn ?_
    -- nothing stands between the two blocks
    have hB := seg_apart hok.rep.seg (B := B) (by simp) hC hne
    have hN := seg_apart hok.rep.seg (B := N) (by simp) hC hCN
    have hlt : C.addr < C.stop := by simp only [Block.stop, headerSize]; omega
    omega

theorem copiedState_carries {F : Block} {copySize : ℕ} (hok : HeapOk h bs) (hB : B ∈ bs)
    (huser : B.user = some (req, tag)) (hF : F ∈ bs) (hfree : F.user = none)
    (hneed : roundNeed newSize ≤ F.size)
    (hcopy : copySize = min (blockReqSize (claimBlock h F.addr newSize tag).mem B.addr) newSize) :
    Carries h.mem (copiedState h F.addr (B.addr + headerSize) newSize copySize tag).mem bs B req
      (F.addr + headerSize) newSize ∧ SameOutside F.addr F.stop h.mem
      (copiedState h F.addr (B.addr + headerSize) newSize copySize tag).mem := by
  obtain ⟨-, hnreq, -⟩ := roundNeed_spec newSize
  have hFB : F ≠ B := by
    rintro rfl
    cases hfree.symm.trans huser
  have hapart := seg_apart hok.rep.seg hB hF hFB
  obtain ⟨n, hokB⟩ : ∃ n, BlockOk h.mem B n := by
    obtain ⟨l, r, rfl⟩ := append_of_mem hB
    exact ⟨_, hok.rep.around.2.1⟩
  have hused := hokB.used req tag huser
  have hfits := hused.fits
  have hBstop : B.stop = B.addr + headerSize + B.size := rfl
  have hFstop : F.stop = F.addr + headerSize + F.size := rfl
  have hclaim := claimBlock_out tag hok hF hneed
  have hreq : blockReqSize (claimBlock h F.addr newSize tag).mem B.addr = req := by
    refine (readLE_congr (hclaim.agreeOn ?_)).trans hused.reqSize
    simp only [headerSize] at *
    omega
  rw [hreq] at hcopy
  have hzero : SameOutside F.addr F.stop h.mem (zeroRange (claimBlock h F.addr newSize tag).mem
      (F.addr + headerSize) newSize) :=
    hclaim.trans (sameOutside_zeroRange (by omega) (by omega))
  have hall : SameOutside F.addr F.stop h.mem
      (copiedState h F.addr (B.addr + headerSize) newSize copySize tag).mem := by
    simp only [copiedState, heapFastZero]
    exact hzero.trans (sameOutside_copyUp (by omega) (by omega))
  refine ⟨⟨fun i hi => ?_, fun i hlo hhi => ?_, fun C hC hCused _ => ?_⟩, hall⟩
  · simp only [copiedState, heapFastZero]
    rw [copyUp_apply (by omega) (by omega)]
    exact hzero _ (by omega)
  · simp only [copiedState, heapFastZero]
    refine (agreeOn_copyUp (b := F.addr + headerSize + i) (e := F.addr + headerSize + i + 1)
      (.inr (by omega)) _ le_rfl (by omega)).trans ?_
    exact if_pos ⟨by omega, by omega⟩
  · have hCF : C ≠ F := fun hc => hCused (hc ▸ hfree)
    exact hall.agreeOn (seg_apart hok.rep.seg hF hC hCF)

theorem moveBlock_carries (hok : HeapOk h bs) (hB : B ∈ bs) (huser : B.user = some (req, tag))
    (hpois : h.heapPoisoned = false) :
    moveBlock h B.addr (B.addr + headerSize) newSize = some (h, noFault, 0) ∨
    ∃ h' q, moveBlock h B.addr (B.addr + headerSize) newSize = some (h', noFault, q) ∧ q ≠ 0 ∧
      Carries h.mem h'.mem bs B req q newSize := by
  rcases moveBlock_cases newSize hok hB huser hpois with
    hnone | ⟨F, bs₁, U, copySize, h', bs₂, hF, hfree, hneed, hcopy, haddr, hUuser, hU, hok₁,
      htrades, hfreed, -, -, hres⟩
  · exact .inl hnone
  · right
    obtain ⟨hcarries, -⟩ := copiedState_carries hok hB huser hF hfree hneed hcopy
    have hin : ∀ C ∈ bs, C.user ≠ none → C ∈ bs₁ := fun C hC hused =>
      (htrades.mem C hused).mpr (.inr ⟨hC, by simp⟩)
    have hB₁ := hin B hB (by simp [huser])
    have hUB : U ≠ B := by
      rintro rfl
      rcases htrades.fresh U rfl U hB rfl with hnone | hout
      · cases hUuser.symm.trans hnone
      · cases hout
    obtain ⟨n, hokU⟩ : ∃ n, BlockOk (copiedState h F.addr (B.addr + headerSize) newSize copySize
        tag).mem U n := by
      obtain ⟨l, r, rfl⟩ := append_of_mem hU
      exact ⟨_, hok₁.rep.around.2.1⟩
    have hfits := (hokU.used newSize tag hUuser).fits
    have hUstop : U.stop = U.addr + headerSize + U.size := rfl
    have hkeepU := kfreeLocked_keeps hok₁ hB₁ huser hfreed hU (by simp [hUuser]) hUB
    have hbyte : ∀ i < newSize, h'.mem (F.addr + headerSize + i) =
        (copiedState h F.addr (B.addr + headerSize) newSize copySize tag).mem
          (F.addr + headerSize + i) :=
      fun i hi => hkeepU _ (by omega) (by omega)
    refine ⟨h', _, hres, (by simp [headerSize]), fun i hi => ?_, fun i hlo hhi => ?_,
      fun C hC hused hne => ?_⟩
    · rw [hbyte i (by omega)]
      exact hcarries.kept i hi
    · rw [hbyte i hhi]
      exact hcarries.zeroed i hlo hhi
    · exact (hcarries.others C hC hused hne).trans
        (kfreeLocked_keeps hok₁ hB₁ huser hfreed (hin C hC hused) hused hne)

theorem krealloc_carries (inject : Bool) (hok : HeapOk h bs) (hB : B ∈ bs)
    (huser : B.user = some (req, tag)) (hnew : newSize ≠ 0) :
    krealloc h (B.addr + headerSize) newSize inject = some (h, noFault, 0) ∨
    ∃ h' q, krealloc h (B.addr + headerSize) newSize inject = some (h', noFault, q) ∧ q ≠ 0 ∧
      Carries h.mem h'.mem bs B req q newSize := by
  rcases krealloc_cases inject hok hB huser hnew with
    hnone | ⟨hneed, hres⟩ | ⟨l, N, r, rfl, hN, hgrow, hfit, hres⟩ | ⟨hpois, hres⟩
  · exact .inl hnone
  · exact .inr ⟨_, _, hres, (by simp [headerSize]), growInPlace_carries hok hB hneed⟩
  · exact .inr ⟨_, _, hres, (by simp [headerSize]), mergeNext_carries hok huser hN hgrow hfit⟩
  · rw [hres]
    exact moveBlock_carries hok hB huser hpois

end

/-- What the owner of `old` bytes at `ptr` and the owners of the other allocations find after a
reallocation to `newSize` bytes at `q`. -/
structure Resized (s : HeapSys) (ptr old newSize : ℕ) (h' : HeapState) (q : ℕ) : Prop where
  kept : ∀ i < min old newSize, h'.mem (q + i) = s.heap.mem (ptr + i)
  zeroed : ∀ i, old ≤ i → i < newSize → h'.mem (q + i) = 0
  others : ∀ e ∈ s.live, e.1 ≠ ptr → ∀ i < e.2, h'.mem (e.1 + i) = s.heap.mem (e.1 + i)

theorem Carries.resized {s : HeapSys} {bs : List Block} {B : Block} {old newSize q : ℕ}
    {h' : HeapState} (hc : Carries s.heap.mem h'.mem bs B old q newSize)
    (hok : HeapOk s.heap bs) (hlive : LiveOk s.live bs) :
    Resized s (B.addr + headerSize) old newSize h' q := by
  refine ⟨hc.kept, hc.zeroed, fun e he hne i hi => ?_⟩
  obtain ⟨C, hC, hptr, tag, huser⟩ := hlive.held e he
  have hCB : C ≠ B := by
    rintro rfl
    exact hne hptr
  obtain ⟨n, hokC⟩ := seg_blockOk hok.rep.seg hC
  have hfits := (hokC.used e.2 tag huser).fits
  have hstop : C.stop = C.addr + headerSize + C.size := rfl
  rw [hptr]
  exact hc.others C hC (by simp [huser]) hCB _ (by omega) (by omega)

/-- After every legal run, `krealloc` of a live allocation goes through. Where it returns `NULL`
for a size that is not zero, nothing has changed; where it returns a pointer, the bytes are
carried over, and both ways the live allocations are again in order. -/
theorem krealloc_run {mem : ByteMem} {p : CappedPmm} {h : HeapState} {cs : List HeapCall}
    {s : HeapSys} (hinit : heapInitFrom mem p = some h) (hcs : HeapSys.LegalRun ⟨h, []⟩ cs)
    (hrun : HeapSys.run ⟨h, []⟩ cs = some s) {ptr old : ℕ} (hlive : (ptr, old) ∈ s.live)
    (newSize : ℕ) (inject : Bool) : ∃ h' f q, krealloc s.heap ptr newSize inject = some (h', f, q) ∧
      (newSize ≠ 0 → q = 0 → h' = s.heap) ∧ (q ≠ 0 → Resized s ptr old newSize h' q) ∧
      ∃ bs, HeapInv h' bs ∧ LiveInv h' bs (movePtr s.live ptr q newSize) := by
  obtain ⟨bs₀, hok₀, -⟩ := heapInitFrom_ok hinit
  have hs₀ : HeapSys.Ok ⟨h, []⟩ := ⟨bs₀, hok₀, by simp, by simp⟩
  obtain ⟨s', hrun', bs, hok, hliveOk⟩ := run_ok hs₀ hcs
  obtain rfl : s' = s := Option.some.inj (hrun'.symm.trans hrun)
  obtain ⟨B, hB, hptr, tag, huser⟩ := hliveOk.held _ hlive
  obtain rfl : ptr = B.addr + headerSize := hptr
  obtain ⟨h', f, q, hres, bs', hf⟩ := step_krealloc_follows newSize inject hok hliveOk
    (.inr ⟨B, hB, rfl, old, tag, huser⟩)
  refine ⟨h', f, q, hres, fun hnew hq => ?_, fun hq => ?_, bs'.map Block.addr, hf.heap.inv,
    hf.live.inv hf.heap⟩
  · rcases krealloc_carries inject hok hB huser hnew with hnone | ⟨h₁, q₁, hsome, hq₁, -⟩
    · cases hnone.symm.trans hres
      rfl
    · cases hsome.symm.trans hres
      exact absurd hq hq₁
  · rcases Nat.eq_zero_or_pos newSize with rfl | hpos
    · -- a reallocation to no bytes is a free and returns `NULL`
      rw [krealloc, if_neg (userPtr_ne_zero B), if_pos rfl] at hres
      cases hfree : kfree s'.heap (B.addr + headerSize) with
      | none =>
        rw [hfree] at hres
        cases hres
      | some r =>
        rw [hfree] at hres
        cases hres
        exact absurd rfl hq
    · rcases krealloc_carries inject hok hB huser hpos.ne' with
        hnone | ⟨h₁, q₁, hsome, -, hcarries⟩
      · cases hnone.symm.trans hres
        exact absurd rfl hq
      · cases hsome.symm.trans hres
        exact hcarries.resized hok hliveOk

/-- 100 bytes that grow to 200. -/
theorem krealloc_run_smallPmm :
    ∃ s, HeapSys.run ⟨installHeap (fun _ => 0) 4096 heapInitialPages, []⟩ [.kmalloc 100 false] =
        some s ∧
      ∃ h' f q, krealloc s.heap 4144 200 false = some (h', f, q) ∧
        (200 ≠ 0 → q = 0 → h' = s.heap) ∧ (q ≠ 0 → Resized s 4144 100 200 h' q) ∧
        ∃ bs, HeapInv h' bs ∧ LiveInv h' bs (movePtr s.live 4144 q 200) := by
  have hlegal : HeapSys.LegalRun ⟨installHeap (fun _ => 0) 4096 heapInitialPages, []⟩
      [.kmalloc 100 false] := ⟨rfl, fun _ _ => trivial⟩
  have hlive : (HeapSys.run ⟨installHeap (fun _ => 0) 4096 heapInitialPages, []⟩
      [.kmalloc 100 false]).map HeapSys.live = some [(4144, 100)] := by
    decide
  obtain ⟨s, hrun⟩ : ∃ s, HeapSys.run ⟨installHeap (fun _ => 0) 4096 heapInitialPages, []⟩
      [.kmalloc 100 false] = some s := by
    cases hrun : HeapSys.run ⟨installHeap (fun _ => 0) 4096 heapInitialPages, []⟩
        [.kmalloc 100 false] with
    | none =>
      rw [hrun] at hlive
      cases hlive
    | some s => exact ⟨s, rfl⟩
  rw [hrun] at hlive
  have hs : s.live = [(4144, 100)] := Option.some.inj hlive
  exact ⟨s, hrun, krealloc_run heapInitFrom_smallPmm hlegal hrun (by rw [hs]; simp) 200 false⟩

end ImpossibleOs.Heap
