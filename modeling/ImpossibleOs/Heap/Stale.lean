import ImpossibleOs.Heap.Safety

/-!
Freeing a pointer again.

A pointer that was given back is stale until memory of it is handed out again. While its header
is still in the list the second `kfree` does nothing. Once a free neighbour has absorbed the block
its start bit is clear, the pointer counts as wild, and the second `kfree` poisons the heap.
-/

namespace ImpossibleOs.Heap

open ByteMem List Option

/-! ### Placement and poison -/

structure Advances (h h' : HeapState) : Prop where
  start : h'.heapStartBlock = h.heapStartBlock
  total : h'.totalHeapSize = h.totalHeapSize
  poisoned : h.heapPoisoned = true → h'.heapPoisoned = true

theorem Advances.refl (h : HeapState) : Advances h h := ⟨rfl, rfl, id⟩

theorem Advances.trans {h₁ h₂ h₃ : HeapState} (h : Advances h₁ h₂) (h' : Advances h₂ h₃) :
    Advances h₁ h₃ :=
  ⟨h'.start.trans h.start, h'.total.trans h.total, h'.poisoned ∘ h.poisoned⟩

theorem SameFrame.advances {h h' : HeapState} (hf : SameFrame h h') : Advances h h' :=
  ⟨hf.start, hf.total, fun hp => hf.poisoned.trans hp⟩

theorem advances_poison (h : HeapState) : Advances h { h with heapPoisoned := true } :=
  ⟨rfl, rfl, fun _ => rfl⟩

theorem advances_mem (h : HeapState) (m : ByteMem) : Advances h { h with mem := m } :=
  ⟨rfl, rfl, id⟩

section

variable {h : HeapState} {r : HeapState × ℕ} {rf : HeapState × HeapFault}
  {rr : HeapState × HeapFault × ℕ}

theorem kmallocScan_advances {req : ℕ} {tag : UInt32} {fuel curr : ℕ}
    (hr : kmallocScan h req tag fuel curr = some r) : Advances h r.1 := by
  induction fuel generalizing curr with
  | zero => cases hr
  | succ fuel ih =>
    rw [kmallocScan] at hr
    split_ifs at hr
    · cases hr
      exact .refl h
    · obtain rfl := some.inj hr
      exact (claimBlock_frame h curr req tag).advances
    · exact ih hr

theorem kmallocLocked_advances {req : ℕ} {tag : UInt32}
    (hr : kmallocLocked h req tag = some r) : Advances h r.1 := by
  unfold kmallocLocked at hr
  split_ifs at hr
  · cases hr
    exact .refl h
  · exact kmallocScan_advances hr

theorem kmallocAndZero_advances {size : ℕ} {tag : UInt32}
    (hr : kmallocAndZero h size tag = some r) : Advances h r.1 := by
  unfold kmallocAndZero at hr
  split_ifs at hr
  · cases hr
    exact .refl h
  · obtain ⟨r₁, hlocked, hr⟩ := bind_eq_some_iff.mp hr
    dsimp only at hr
    split_ifs at hr
    · cases hr
      exact (kmallocLocked_advances hlocked).trans (advances_mem _ _)
    · cases hr
      exact kmallocLocked_advances hlocked

theorem kmalloc_advances {size : ℕ} {inject : Bool} (hr : kmalloc h size inject = some r) :
    Advances h r.1 := by
  unfold kmalloc at hr
  split_ifs at hr
  · cases hr
    exact .refl h
  · cases hr
    exact .refl h
  · exact kmallocAndZero_advances hr

theorem coalesceLoop_advances {fuel curr : ℕ} {f : HeapFault}
    (hr : coalesceLoop fuel h curr f = some rf) : Advances h rf.1 := by
  induction fuel generalizing h curr with
  | zero => cases hr
  | succ fuel ih =>
    rw [coalesceLoop] at hr
    dsimp only at hr
    split_ifs at hr
    · cases hr
      exact .refl h
    · cases hr
      exact advances_poison h
    · exact ((heapBmClear_frame h _).advances.trans (advances_mem _ _)).trans (ih hr)
    · exact ih hr

theorem kfreeLocked_advances {ptr : ℕ} {want : Option UInt32} {f : HeapFault}
    (hr : kfreeLocked h ptr want f = some rf) : Advances h rf.1 := by
  have hrelease : ∀ b, coalesceFreeBlocks (releaseBlock h b) f = some rf → Advances h rf.1 := by
    intro b hb
    have hone : Advances h (releaseBlock h b) := ⟨rfl, rfl, id⟩
    exact hone.trans (coalesceLoop_advances hb)
  unfold kfreeLocked at hr
  split_ifs at hr
  · cases hr
    exact .refl h
  · split at hr
    · cases hr
      exact .refl h
    · cases hr
      exact advances_poison h
    · split at hr
      · exact hrelease _ hr
      · split_ifs at hr
        · cases hr
          exact advances_poison h
        · exact hrelease _ hr

theorem kfree_advances {ptr : ℕ} (hr : kfree h ptr = some rf) : Advances h rf.1 := by
  unfold kfree at hr
  split_ifs at hr
  · cases hr
    exact .refl h
  · exact kfreeLocked_advances hr

theorem growInPlace_advances (h : HeapState) (b ptr newSize oldReq : ℕ) :
    Advances h (growInPlace h b ptr newSize oldReq) :=
  (growInPlace_frame h b ptr newSize oldReq).1.advances

theorem mergeNext_advances (h : HeapState) (b need combined : ℕ) :
    Advances h (mergeNext h b need combined) := by
  have hclear := heapBmClear_frame h (blockNext h.mem b)
  have hsplit (h' : HeapState) : SameFrame h' (blockSplit h' b need) := blockSplit_frame h' b need
  unfold mergeNext
  dsimp only
  generalize heapBmClear h (blockNext h.mem b) = h₁ at hclear
  refine (hclear.trans ?_).advances
  refine SameFrame.trans ?_ (sameFrame_edit _ _ _ _)
  refine SameFrame.trans ?_ (hsplit _)
  exact ⟨rfl, rfl, rfl⟩

theorem moveBlock_advances {block ptr newSize : ℕ}
    (hr : moveBlock h block ptr newSize = some rr) : Advances h rr.1 := by
  obtain ⟨⟨h₁, q⟩, hlocked, hr⟩ := bind_eq_some_iff.mp hr
  have hone := kmallocLocked_advances hlocked
  dsimp only at hone hr
  rcases eq_or_ne q 0 with hq | hq
  · rw [if_pos hq] at hr
    obtain rfl := some.inj hr
    exact hone
  · rw [if_neg hq] at hr
    obtain ⟨⟨h₂, f⟩, hfree, hr⟩ := bind_eq_some_iff.mp hr
    obtain rfl := some.inj hr
    exact (hone.trans (advances_mem h₁ _)).trans (kfreeLocked_advances hfree)

theorem krealloc_advances {ptr newSize : ℕ} {inject : Bool}
    (hr : krealloc h ptr newSize inject = some rr) : Advances h rr.1 := by
  rw [krealloc] at hr
  split at hr
  · obtain ⟨r, hm, hr⟩ := bind_eq_some_iff.mp hr
    cases hr
    exact kmalloc_advances hm
  split at hr
  · obtain ⟨r, hf, hr⟩ := bind_eq_some_iff.mp hr
    cases hr
    exact kfree_advances hf
  split at hr
  · cases hr
    exact .refl h
  split at hr
  · cases hr
    exact .refl h
  split at hr
  · cases hr
    exact advances_poison h
  · cases hr
    exact advances_poison h
  · dsimp only at hr
    split_ifs at hr
    · cases hr
      exact growInPlace_advances ..
    · cases hr
      exact advances_poison h
    · cases hr
      exact (mergeNext_advances ..).trans (growInPlace_advances ..)
    · exact moveBlock_advances hr
    · exact moveBlock_advances hr

theorem step_advances {s s' : HeapSys} {c : HeapCall} (hs : s.step c = some s') :
    Advances s.heap s'.heap := by
  cases c with
  | kmalloc size inject =>
    obtain ⟨r, hr, hs⟩ := bind_eq_some_iff.mp hs
    cases hs
    exact kmalloc_advances hr
  | kmallocZeroed size inject =>
    obtain ⟨r, hr, hs⟩ := bind_eq_some_iff.mp hs
    cases hs
    unfold kmallocZeroed at hr
    split_ifs at hr
    · cases hr
      exact .refl _
    · cases hr
      exact .refl _
    · exact kmallocAndZero_advances hr
  | kmallocTagged size tag =>
    obtain ⟨r, hr, hs⟩ := bind_eq_some_iff.mp hs
    cases hs
    unfold kmallocTagged at hr
    split_ifs at hr
    · cases hr
      exact .refl _
    · exact kmallocAndZero_advances hr
  | kfree ptr =>
    obtain ⟨r, hr, hs⟩ := bind_eq_some_iff.mp hs
    cases hs
    exact kfree_advances hr
  | kfreeTagged ptr tag =>
    obtain ⟨r, hr, hs⟩ := bind_eq_some_iff.mp hs
    cases hs
    unfold kfreeTagged at hr
    split_ifs at hr
    · cases hr
      exact .refl _
    · exact kfreeLocked_advances hr
  | krealloc ptr newSize inject =>
    obtain ⟨r, hr, hs⟩ := bind_eq_some_iff.mp hs
    cases hs
    exact krealloc_advances hr
  | store ptr off v =>
    cases hs
    exact advances_mem _ _

end

section

variable {h : HeapState} {bs : List Block} {ptr : ℕ}

theorem heapClassify_free {B : Block} (hok : HeapOk h bs) (hB : B ∈ bs) (hfree : B.user = none)
    (hlt : B.addr + headerSize < h.heapStartBlock + h.totalHeapSize) :
    heapClassify h (B.addr + headerSize) = .alreadyFree := by
  obtain ⟨howns, htest, haligned, hlow⟩ := heapClassify_header hok.placed hok.rep hB hlt
  obtain ⟨n, hokB⟩ := seg_blockOk hok.rep.seg hB
  have hhdr := hokB.free hfree
  have hsub : B.addr + headerSize - headerSize = B.addr := by omega
  unfold heapClassify
  simp only [hsub, howns, htest, hhdr.isFree, hhdr.cookie, Bool.true_eq_false, if_false, if_true,
    ne_eq, one_ne_zero, not_false_eq_true]
  rw [if_neg haligned, if_neg hlow]

theorem heapClassify_absent (hok : HeapOk h bs) (habsent : ptr - headerSize ∉ bs.map Block.addr) :
    ∃ fault, fault.cls ≠ .none ∧ heapClassify h ptr = .corrupt fault := by
  rw [heapClassify]
  by_cases howns : heapOwns h ptr = false
  · exact ⟨_, by simp, if_pos howns⟩
  rw [if_neg howns]
  by_cases haligned : ptr % 16 ≠ 0
  · exact ⟨_, by simp, if_pos haligned⟩
  rw [if_neg haligned]
  by_cases hlow : ptr < h.heapStartBlock + headerSize
  · exact ⟨_, by simp, if_pos hlow⟩
  · rw [if_neg hlow]
    have hlt : ptr < h.heapStartBlock + h.totalHeapSize := by
      by_contra hge
      simp [heapOwns, Nat.not_lt.mp hge] at howns
    have hstart := hok.placed.aligned
    simp only [headerSize] at hlow
    have htest : heapBmTest h (ptr - headerSize) = false := by
      obtain ⟨hidx, hb⟩ := heapBmIndex_spec hok.placed (b := ptr - headerSize)
        (by simp only [headerSize]; omega) (by omega) (by simp only [headerSize]; omega)
      rw [heapBmTest, if_neg (by omega), ← Bool.not_eq_true, hok.rep.marks _ hidx, ← hb]
      exact habsent
    refine ⟨⟨.wild, ptr, 0, 0⟩, by simp, ?_⟩
    simp only [htest, if_true]

end

/-! ### Runs with stale pointers -/

/-- A client state with the allocations that were given back and whose memory was not handed out
since. -/
structure StaleSys where
  sys : HeapSys
  stale : List (ℕ × ℕ)

/-- What was given back stays stale while no live allocation has memory of it. -/
def staleAfter (live live' stale : List (ℕ × ℕ)) : List (ℕ × ℕ) :=
  (live ++ stale).filter fun e =>
    live'.all fun f => decide (f.1 ≠ e.1 ∧ (e.1 + e.2 ≤ f.1 ∨ f.1 + f.2 ≤ e.1))

def StaleSys.step (s : StaleSys) (c : HeapCall) : Option StaleSys :=
  (s.sys.step c).map fun s' => ⟨s', staleAfter s.sys.live s'.live s.stale⟩

def StaleSys.run (s : StaleSys) : List HeapCall → Option StaleSys
  | [] => some s
  | c :: cs => (s.step c).bind fun s' => s'.run cs

def StaleSys.legal (s : StaleSys) (c : HeapCall) : Bool :=
  c.legal s.sys.live || match c with
    | .kfree ptr | .kfreeTagged ptr _ => s.stale.any fun e => e.1 == ptr
    | _ => false

def StaleSys.LegalRun (s : StaleSys) : List HeapCall → Prop
  | [] => True
  | c :: cs => s.legal c = true ∧ ∀ s', s.step c = some s' → s'.LegalRun cs

/-- `LegalRun` as a computation. -/
def StaleSys.checkRun (s : StaleSys) : List HeapCall → Bool
  | [] => true
  | c :: cs => s.legal c && (s.step c).all fun s' => s'.checkRun cs

theorem StaleSys.legalRun_of_check {s : StaleSys} {cs : List HeapCall}
    (h : s.checkRun cs = true) : s.LegalRun cs := by
  induction cs generalizing s with
  | nil => trivial
  | cons c cs ih =>
    obtain ⟨hc, hrest⟩ := Bool.and_eq_true_iff.mp h
    refine ⟨hc, fun s' hs' => ih ?_⟩
    rw [hs'] at hrest
    exact hrest

/-- No stale pointer is live, and unless the heap is poisoned a block at a stale pointer is
free. -/
structure StaleOk (s : HeapSys) (stale : List (ℕ × ℕ)) (bs : List Block) : Prop where
  apart : ∀ e ∈ stale, ∀ f ∈ s.live, f.1 ≠ e.1
  nonzero : ∀ e ∈ stale, e.1 ≠ 0
  below : ∀ e ∈ stale, e.1 < s.heap.heapStartBlock + s.heap.totalHeapSize
  free : s.heap.heapPoisoned = true ∨
    ∀ e ∈ stale, ∀ B ∈ bs, e.1 = B.addr + headerSize → B.user = none

def StaleSys.Ok (s : StaleSys) : Prop :=
  ∃ bs, HeapOk s.sys.heap bs ∧ LiveOk s.sys.live bs ∧ StaleOk s.sys s.stale bs

section

variable {s : HeapSys} {stale : List (ℕ × ℕ)} {bs : List Block} {e : ℕ × ℕ}

theorem mem_staleAfter {live live' stale : List (ℕ × ℕ)} (he : e ∈ staleAfter live live' stale) :
    (e ∈ live ∨ e ∈ stale) ∧ ∀ f ∈ live', f.1 ≠ e.1 := by
  obtain ⟨hmem, hall⟩ := mem_filter.mp he
  refine ⟨mem_append.mp hmem, fun f hf => ?_⟩
  exact (of_decide_eq_true (all_eq_true.mp hall f hf)).1

theorem LiveOk.below (h : LiveOk s.live bs) (hok : HeapOk s.heap bs) (he : e ∈ s.live) :
    e.1 < s.heap.heapStartBlock + s.heap.totalHeapSize := by
  obtain ⟨B, hB, hptr, tag, huser⟩ := h.held e he
  obtain ⟨n, hokB⟩ := seg_blockOk hok.rep.seg hB
  have hfits := (hokB.used e.2 tag huser).fits
  obtain ⟨-, hhi⟩ := seg_mem hok.rep.seg hB
  simp only [Block.stop, heapRedzoneBackSize] at hhi hfits
  omega

theorem StaleOk.follows {s' : HeapSys} {bs' : List Block} (hst : StaleOk s stale bs)
    (hok : HeapOk s.heap bs) (hlive : LiveOk s.live bs) (hf : s.Follows bs s' bs')
    (ha : Advances s.heap s'.heap) : StaleOk s' (staleAfter s.live s'.live stale) bs' := by
  refine ⟨fun e he => (mem_staleAfter he).2, fun e he => ?_, fun e he => ?_, ?_⟩
  · exact (mem_staleAfter he).1.elim hlive.ptr_ne_zero (hst.nonzero e)
  · rw [ha.start, ha.total]
    exact (mem_staleAfter he).1.elim (hlive.below hok) (hst.below e)
  · rcases hst.free with hpois | hfree
    · exact .inl (ha.poisoned hpois)
    · refine hf.traded.imp id ?_
      rintro ⟨out, gain, htrades, hout, hgain, hgone⟩ e he B hB hptr
      obtain ⟨hmem, hapart⟩ := mem_staleAfter he
      by_contra hused
      rcases (htrades.mem B hused).mp hB with hnew | ⟨hold, hkept⟩
      · obtain ⟨n, hn⟩ := hgain B hnew
        exact hapart _ hn hptr.symm
      · rcases hmem with hmem | hmem
        · -- the allocation was given back, so its block went
          obtain ⟨C, hC, hCptr⟩ := hgone e hmem hapart
          obtain ⟨l, r, rfl⟩ := append_of_mem hold
          have hCB : C = B := seg_addr_inj hok.rep.seg (hout C hC) (by omega)
          exact hkept (hCB ▸ hC)
        · exact hused (hfree e hmem B hold hptr)

theorem kfreeLocked_stale (want : Option UInt32) (hok : HeapOk s.heap bs)
    (hst : StaleOk s stale bs) (he : e ∈ stale) :
    ((s.heap.heapPoisoned = true ∨ e.1 - headerSize ∈ bs.map Block.addr) ∧
      kfreeLocked s.heap e.1 want noFault = some (s.heap, noFault)) ∨
    (s.heap.heapPoisoned = false ∧ e.1 - headerSize ∉ bs.map Block.addr ∧
      ∃ fault, fault.cls ≠ .none ∧ kfreeLocked s.heap e.1 want noFault =
        some ({ s.heap with heapPoisoned := true }, fault)) := by
  cases hpois : s.heap.heapPoisoned with
  | true =>
    left
    rw [kfreeLocked, if_pos hpois]
    exact ⟨.inl rfl, rfl⟩
  | false =>
    rcases em (e.1 - headerSize ∈ bs.map Block.addr) with hmem | hmem
    · left
      obtain ⟨B, hB, haddr⟩ := mem_map.mp hmem
      have hlo := (seg_mem hok.rep.seg hB).1
      have hpos := hok.placed.pos
      have hptr : e.1 = B.addr + headerSize := by omega
      have hfree : B.user = none := by
        rcases hst.free with hp | hfree
        · cases hpois.symm.trans hp
        · exact hfree e he B hB hptr
      have hclass := heapClassify_free hok hB hfree (hptr ▸ hst.below e he)
      rw [← hptr] at hclass
      rw [kfreeLocked, if_neg (by simp [hpois]), hclass]
      exact ⟨.inr hmem, rfl⟩
    · right
      obtain ⟨fault, hcls, hclass⟩ := heapClassify_absent hok hmem
      rw [kfreeLocked, if_neg (by simp [hpois]), hclass]
      exact ⟨rfl, hmem, fault, hcls, rfl⟩

theorem StaleOk.freed (want : Option UInt32) (hok : HeapOk s.heap bs) (hlive : LiveOk s.live bs)
    (hst : StaleOk s stale bs) (he : e ∈ stale) :
    ∃ h f, kfreeLocked s.heap e.1 want noFault = some (h, f) ∧
      StaleSys.Ok ⟨⟨h, dropPtr s.live e.1⟩, staleAfter s.live (dropPtr s.live e.1) stale⟩ := by
  have hfollows (h : HeapState) (hh : HeapOk h bs) (ha : Advances s.heap h) :
      StaleSys.Ok ⟨⟨h, dropPtr s.live e.1⟩, staleAfter s.live (dropPtr s.live e.1) stale⟩ := by
    have hf : s.Follows bs ⟨h, dropPtr s.live e.1⟩ bs :=
      HeapSys.follows_of_keep hh (hlive.drop _) (Trades.nothing bs) (by simp)
        fun f hf => mem_dropPtr hf (hst.apart e he f hf)
    exact ⟨bs, hh, hlive.drop _, hst.follows hok hlive hf ha⟩
  rcases kfreeLocked_stale want hok hst he with ⟨-, hres⟩ | ⟨-, -, fault, -, hres⟩
  · exact ⟨_, _, hres, hfollows _ hok (.refl _)⟩
  · exact ⟨_, _, hres, hfollows _ hok.poison (advances_poison _)⟩

end

theorem StaleSys.step_ok {s : StaleSys} {c : HeapCall} (hs : s.Ok) (hc : s.legal c = true) :
    ∃ s', s.step c = some s' ∧ s'.Ok := by
  obtain ⟨bs, hok, hlive, hst⟩ := hs
  rcases Bool.or_eq_true _ _ ▸ hc with hc | hc
  · obtain ⟨s', hstep, bs', hf⟩ := step_follows hok hlive hc
    exact ⟨_, by rw [StaleSys.step, hstep]; rfl, bs', hf.heap, hf.live,
      hst.follows hok hlive hf (step_advances hstep)⟩
  · cases c with
    | kfree ptr =>
      obtain ⟨e, he, hptr⟩ := any_eq_true.mp hc
      obtain rfl : e.1 = ptr := beq_iff_eq.mp hptr
      obtain ⟨h, f, hres, hs'⟩ := hst.freed none hok hlive he
      refine ⟨_, ?_, hs'⟩
      rw [StaleSys.step, HeapSys.step, kfree, if_neg (hst.nonzero e he), hres]
      rfl
    | kfreeTagged ptr tag =>
      obtain ⟨e, he, hptr⟩ := any_eq_true.mp hc
      obtain rfl : e.1 = ptr := beq_iff_eq.mp hptr
      obtain ⟨h, f, hres, hs'⟩ := hst.freed (some tag) hok hlive he
      refine ⟨_, ?_, hs'⟩
      rw [StaleSys.step, HeapSys.step, kfreeTagged, if_neg (hst.nonzero e he), hres]
      rfl
    | _ => cases hc

theorem StaleSys.run_ok {s s' : StaleSys} {cs : List HeapCall} (hs : s.Ok) (hcs : s.LegalRun cs)
    (hrun : s.run cs = some s') : s'.Ok := by
  induction cs generalizing s with
  | nil =>
    cases hrun
    exact hs
  | cons c cs ih =>
    obtain ⟨s₁, hstep, hs₁⟩ := StaleSys.step_ok hs hcs.1
    rw [StaleSys.run, hstep] at hrun
    exact ih hs₁ (hcs.2 s₁ hstep) hrun

/-- After every run, with second frees in it or not: freeing a stale pointer once more changes
nothing and raises no fault exactly where its block is still in the list or the heap is poisoned
already. -/
theorem kfree_stale_run {mem : ByteMem} {p : CappedPmm} {h : HeapState} {cs : List HeapCall}
    {s : StaleSys} (hinit : heapInitFrom mem p = some h)
    (hcs : StaleSys.LegalRun ⟨⟨h, []⟩, []⟩ cs) (hrun : StaleSys.run ⟨⟨h, []⟩, []⟩ cs = some s)
    {e : ℕ × ℕ} (he : e ∈ s.stale) : kfree s.sys.heap e.1 = some (s.sys.heap, noFault) ↔
      s.sys.heap.heapPoisoned = true ∨ ∃ bs, HeapInv s.sys.heap bs ∧ e.1 - headerSize ∈ bs := by
  obtain ⟨bs₀, hok₀, -⟩ := heapInitFrom_ok hinit
  have hs₀ : StaleSys.Ok ⟨⟨h, []⟩, []⟩ :=
    ⟨bs₀, hok₀, ⟨by simp, by simp⟩, by simp, by simp, by simp, .inr (by simp)⟩
  obtain ⟨bs, hok, hlive, hst⟩ := StaleSys.run_ok hs₀ hcs hrun
  rw [kfree, if_neg (hst.nonzero e he)]
  rcases kfreeLocked_stale none hok hst he with ⟨hwhere, hres⟩ | ⟨hpois, habsent, fault, hcls, hres⟩
  · refine ⟨fun _ => hwhere.imp id fun hmem => ⟨_, hok.inv, hmem⟩, fun _ => hres⟩
  · constructor
    · intro hnoop
      have hfault := (Prod.mk.inj (Option.some.inj (hres.symm.trans hnoop))).2
      exact absurd (congrArg HeapFault.cls hfault) hcls
    · rintro (hp | ⟨bs', hinv, hmem⟩)
      · cases hpois.symm.trans hp
      · -- the bitmap knows the block starts
        obtain ⟨i, hi, hidx⟩ := hinv.granular _ hmem
        have hbit := (hinv.bitmap i hi).mpr (hidx ▸ hmem)
        have hin := (hok.inv.bitmap i hi).mp hbit
        exact absurd (hidx ▸ hin) habsent

/-- Two allocations side by side, given back in turn: the second block is absorbed. -/
def absorbedRun : List HeapCall :=
  [.kmalloc 100 false, .kmalloc 100 false, .kfree 4144, .kfree 4304]

theorem absorbedRun_legal :
    StaleSys.LegalRun ⟨⟨installHeap (fun _ => 0) 4096 heapInitialPages, []⟩, []⟩ absorbedRun :=
  StaleSys.legalRun_of_check (by decide)

theorem absorbedRun_stale : ∃ s,
    StaleSys.run ⟨⟨installHeap (fun _ => 0) 4096 heapInitialPages, []⟩, []⟩ absorbedRun = some s ∧
      s.stale = [(4304, 100), (4144, 100)] ∧
      (kfree s.sys.heap 4304).map Prod.snd = some ⟨.wild, 4304, 0, 0⟩ := by
  have hseen : (StaleSys.run ⟨⟨installHeap (fun _ => 0) 4096 heapInitialPages, []⟩, []⟩
      absorbedRun).map (fun s => (s.stale, (kfree s.sys.heap 4304).map Prod.snd)) =
        some ([(4304, 100), (4144, 100)], some ⟨.wild, 4304, 0, 0⟩) := by
    decide
  obtain ⟨s, hrun, hs⟩ := map_eq_some_iff.mp hseen
  obtain ⟨hstale, hfault⟩ := Prod.mk.inj hs
  exact ⟨s, hrun, hstale, hfault⟩

/-- The pointer of the block that absorbed the other is freed again without harm. -/
theorem kfree_stale_run_absorbing : ∃ s,
    StaleSys.run ⟨⟨installHeap (fun _ => 0) 4096 heapInitialPages, []⟩, []⟩ absorbedRun = some s ∧
      (kfree s.sys.heap 4144 = some (s.sys.heap, noFault) ↔
        s.sys.heap.heapPoisoned = true ∨
          ∃ bs, HeapInv s.sys.heap bs ∧ 4144 - headerSize ∈ bs) := by
  obtain ⟨s, hrun, hstale, -⟩ := absorbedRun_stale
  exact ⟨s, hrun, kfree_stale_run (e := (4144, 100)) heapInitFrom_smallPmm absorbedRun_legal hrun
    (by rw [hstale]; simp)⟩

/-- The pointer of the absorbed block is wild to the second free, and the heap is poisoned. -/
theorem kfree_stale_faults : ∃ s,
    heapInitFrom (fun _ => 0) smallPmm = some (installHeap (fun _ => 0) 4096 heapInitialPages) ∧
      StaleSys.LegalRun ⟨⟨installHeap (fun _ => 0) 4096 heapInitialPages, []⟩, []⟩ absorbedRun ∧
      StaleSys.run ⟨⟨installHeap (fun _ => 0) 4096 heapInitialPages, []⟩, []⟩ absorbedRun =
        some s ∧
      (4304, 100) ∈ s.stale ∧ kfree s.sys.heap 4304 ≠ some (s.sys.heap, noFault) := by
  obtain ⟨s, hrun, hstale, hfault⟩ := absorbedRun_stale
  refine ⟨s, heapInitFrom_smallPmm, absorbedRun_legal, hrun, by rw [hstale]; simp, fun hnoop => ?_⟩
  rw [hnoop] at hfault
  cases hfault

end ImpossibleOs.Heap
