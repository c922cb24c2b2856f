import ImpossibleOs.Mm.Frames
import ImpossibleOs.Mm.Swap

/-!
What the swap subsystem keeps.

The `mapping` of a page forgets the bits that the processor and the clock set and clear. The
invariant pairs the markers with the slots in use and keeps mapped frames out of the allocator;
`Steady` says what else a step leaves.
-/

namespace ImpossibleOs.Mm.Swap

/-! ### Entries -/

structure Access where
  user : Bool
  writable : Bool
  noExecute : Bool
  deriving DecidableEq

def access (pte : Pte) : Access :=
  ⟨hasFlag pte vmmFlagUser, hasFlag pte vmmFlagWritable, hasFlag pte vmmFlagNx⟩

/-- What `VMM_KERNEL_RW` gives. -/
def kernelRw : Access := ⟨false, true, false⟩

/-- What an entry says of its page. -/
inductive Mapping where
  | none
  | huge (phys : Pte)
  | mapped (phys : Pte) (access : Access)
  | swapped (slot : ℕ)
  deriving DecidableEq

def pteMapping (pte : Pte) : Mapping :=
  if hasFlag pte vmmFlagPresent then .mapped (pteAddr pte) (access pte)
  else if swapIsSwapped pte then .swapped (swapDecodePte pte)
  else .none

def Walk.mapping : Walk → Mapping
  | .absent => .none
  | .huge l => .huge l.phys
  | .leaf pte => pteMapping pte

def mapping (s : State) (virt : ℕ) : Mapping := (s.pt virt).mapping

theorem hasFlag_andNot (pte : Pte) {flag flags : Pte} (h : ~~~flags &&& flag = flag) :
    hasFlag (pte &&& ~~~flags) flag = hasFlag pte flag := by
  rw [hasFlag, BitVec.and_assoc, h, hasFlag]

theorem hasFlag_or (pte : Pte) {flag flags : Pte} (h : flags &&& flag = 0#64) :
    hasFlag (pte ||| flags) flag = hasFlag pte flag := by
  rw [hasFlag, BitVec.and_or_distrib_right, h, BitVec.or_zero, hasFlag]

theorem pteAddr_andNot (pte : Pte) {flags : Pte} (h : ~~~flags &&& pteAddrMask = pteAddrMask) :
    pteAddr (pte &&& ~~~flags) = pteAddr pte := by
  rw [pteAddr, BitVec.and_assoc, h, pteAddr]

theorem pteAddr_or (pte : Pte) {flags : Pte} (h : flags &&& pteAddrMask = 0#64) :
    pteAddr (pte ||| flags) = pteAddr pte := by
  rw [pteAddr, BitVec.and_or_distrib_right, h, BitVec.or_zero, pteAddr]

theorem pteMapping_clearAccessed {pte : Pte} (h : hasFlag pte vmmFlagPresent = true) :
    pteMapping (pte &&& ~~~vmmFlagAccessed) = pteMapping pte := by
  have hpresent : hasFlag (pte &&& ~~~vmmFlagAccessed) vmmFlagPresent = true := by
    rw [hasFlag_andNot pte (by decide), h]
  rw [pteMapping, if_pos hpresent, pteMapping, if_pos h, pteAddr_andNot pte (by decide), access,
    hasFlag_andNot pte (by decide), hasFlag_andNot pte (by decide),
    hasFlag_andNot pte (by decide), access]

theorem pteMapping_setFlags {pte flags : Pte} (h : hasFlag pte vmmFlagPresent = true)
    (hflags : flags = vmmFlagAccessed ∨ flags = vmmFlagAccessed ||| vmmFlagDirty) :
    pteMapping (pte ||| flags) = pteMapping pte := by
  have hzero : ∀ mask, mask = pteAddrMask ∨ mask = vmmFlagPresent ∨ mask = vmmFlagUser ∨
      mask = vmmFlagWritable ∨ mask = vmmFlagNx → flags &&& mask = 0#64 := by
    rintro mask (rfl | rfl | rfl | rfl | rfl) <;> rcases hflags with rfl | rfl <;> decide
  have hpresent : hasFlag (pte ||| flags) vmmFlagPresent = true := by
    rw [hasFlag_or pte (hzero _ (by simp)), h]
  rw [pteMapping, if_pos hpresent, pteMapping, if_pos h, pteAddr_or pte (hzero _ (by simp)),
    access, hasFlag_or pte (hzero _ (by simp)), hasFlag_or pte (hzero _ (by simp)),
    hasFlag_or pte (hzero _ (by simp)), access]

theorem pteMapping_encode {slot : ℕ} (h : slot < swapMaxSlots) :
    pteMapping (swapEncodePte slot) = .swapped slot := by
  have hall : ∀ i : Fin 256, pteMapping (swapEncodePte i) = .swapped i := by decide +kernel
  exact hall ⟨slot, h⟩

variable {v : ℕ} {phys : Pte} {a : Access}

theorem pteMapping_kernelRw (h : pteAddr phys = phys) :
    pteMapping ((phys &&& ~~~0xFFF#64) ||| vmmKernelRw) = .mapped phys kernelRw := by
  have hbase : phys &&& ~~~0xFFF#64 = phys := by
    rw [← h, pteAddr, BitVec.and_assoc]
    congr 1
  have hlow : ∀ flag, pteAddrMask &&& flag = 0#64 → hasFlag (phys ||| vmmKernelRw) flag =
      hasFlag vmmKernelRw flag := by
    intro flag hflag
    have hphys : phys &&& flag = 0#64 := by
      rw [← h, pteAddr, BitVec.and_assoc, hflag, BitVec.and_zero]
    rw [hasFlag, BitVec.and_or_distrib_right, hphys, BitVec.zero_or, hasFlag]
  rw [hbase, pteMapping, hlow _ (by decide), if_pos (by decide), pteAddr_or phys (by decide), h,
    access, hlow _ (by decide), hlow _ (by decide), hlow _ (by decide)]
  rfl

theorem pteAddr_ofNat {frame : ℕ} (h : frame ≤ 2 ^ 20) :
    pteAddr (BitVec.ofNat 64 (frame * pmmFrameSize)) = BitVec.ofNat 64 (frame * pmmFrameSize) := by
  apply BitVec.eq_of_getLsbD_eq
  intro i hi
  have hmask : ∀ i < 64, pteAddrMask.getLsbD i = (decide (12 ≤ i) && decide (i < 52)) := by
    decide
  have hbit : (frame * pmmFrameSize).testBit i = (decide (12 ≤ i) && frame.testBit (i - 12)) :=
    Nat.testBit_mul_two_pow frame i 12
  rw [pteAddr, BitVec.getLsbD_and, hmask i hi, BitVec.getLsbD_ofNat, hbit]
  by_cases hlow : i < 52
  · cases hd : decide (12 ≤ i) <;> simp [hlow]
  · have hfar : frame.testBit (i - 12) = false :=
      Nat.testBit_lt_two_pow (h.trans_lt (Nat.pow_lt_pow_right (by decide) (by omega)))
    simp [hfar]

theorem mapping_leaf {s : State} {pte : Pte} (h : s.pt v = .leaf pte) :
    mapping s v = pteMapping pte := by
  rw [mapping, h, Walk.mapping]

theorem mapping_update {s s' : State} {pte : Pte}
    (h : s'.pt = Function.update s.pt v (.leaf pte)) (u : ℕ) :
    mapping s' u = if u = v then pteMapping pte else mapping s u := by
  rw [mapping, h]
  split
  · rename_i huv
    rw [huv, Function.update_self, Walk.mapping]
  · rename_i huv
    rw [Function.update_of_ne huv, mapping]

theorem pteMapping_mapped {pte phys : Pte} (h : pteMapping pte = .mapped phys a) :
    hasFlag pte vmmFlagPresent = true ∧ pteAddr pte = phys ∧ access pte = a := by
  unfold pteMapping at h
  split_ifs at h with hpresent
  · injection h with hphys ha
    exact ⟨hpresent, hphys, ha⟩

theorem mapping_mapped {s : State} (h : mapping s v = .mapped phys a) :
    ∃ pte, s.pt v = .leaf pte ∧ hasFlag pte vmmFlagPresent = true ∧ pteAddr pte = phys ∧
      access pte = a := by
  unfold mapping at h
  cases hpt : s.pt v with
  | absent => simp [hpt, Walk.mapping] at h
  | huge l => simp [hpt, Walk.mapping] at h
  | leaf pte =>
    rw [hpt, Walk.mapping] at h
    exact ⟨pte, rfl, pteMapping_mapped h⟩

def pmmFrameIsFree (p : Pmm) (addr : ℕ) : Bool :=
  decide (addr / pmmFrameSize < p.totalFrames) && !p.used (addr / pmmFrameSize)

theorem pmmFrameIsFree_freeFrame {p : Pmm} {a b : ℕ}
    (h : pmmFrameIsFree (pmmFreeFrame p a) b = true) : pmmFrameIsFree p b = true ∨
      (b / pmmFrameSize = a / pmmFrameSize ∧ a / pmmFrameSize < p.totalFrames) := by
  by_cases hout : p.totalFrames ≤ a / pmmFrameSize
  · rw [pmmFreeFrame, if_pos hout] at h
    exact .inl h
  by_cases hab : b / pmmFrameSize = a / pmmFrameSize
  · exact .inr ⟨hab, by omega⟩
  · left
    rw [pmmFrameIsFree, (pmmFreeFrame_kept p a).total, Bool.and_eq_true] at h
    rw [pmmFrameIsFree, Bool.and_eq_true]
    refine ⟨h.1, ?_⟩
    cases hused : p.used (b / pmmFrameSize) with
    | false => rfl
    | true =>
      rw [used_pmmFreeFrame hused hab] at h
      exact absurd h.2 (by decide)

theorem pmmFrameIsFree_take (p : Pmm) (f addr : ℕ) : pmmFrameIsFree (p.take f) addr =
      (pmmFrameIsFree p addr && !decide (addr / pmmFrameSize = f)) := by
  rw [pmmFrameIsFree, used_take, pmmFrameIsFree]
  show (decide (addr / pmmFrameSize < p.totalFrames) && _) = _
  cases decide (addr / pmmFrameSize < p.totalFrames) <;>
    cases p.used (addr / pmmFrameSize) <;> simp

theorem pmmAllocFrame_cases (p : Pmm) : pmmAllocFrame p = (p, 0) ∨
      ∃ f, f < p.totalFrames ∧ p.used f = false ∧
        pmmAllocFrame p = (p.take f, f * pmmFrameSize) := by
  unfold pmmAllocFrame
  split
  · rename_i f hscan
    obtain ⟨hf, hfree⟩ := scanBytes_some hscan
    exact .inr ⟨f, hf, hfree, rfl⟩
  · exact .inl rfl

/-! ### The invariant -/

/-- The markers and the slots in use name each other, and no frame behind an entry is free. -/
structure Sane (s : State) : Prop where
  slots : s.swapNumSlots ≤ swapMaxSlots
  frames : s.pmm.totalFrames ≤ pmmPhysAddrCap / pmmFrameSize
  marker : ∀ v i, mapping s v = .swapped i → i < s.swapNumSlots ∧ s.swapSlots i = ⟨true, v⟩
  slot : ∀ i, (s.swapSlots i).inUse = true →
    i < s.swapNumSlots ∧ mapping s (s.swapSlots i).virtAddr = .swapped i
  used : s.swapUsed =
    ((Finset.range s.swapNumSlots).filter fun i => (s.swapSlots i).inUse = true).card
  held : ∀ v phys a, mapping s v = .mapped phys a → pmmFrameIsFree s.pmm phys.toNat = false

/-- The bytes of a page, wherever they are. -/
def content (s : State) (v : ℕ) : Option Page :=
  match mapping s v with
  | .mapped phys _ => some (s.mem phys)
  | .swapped i => some (s.pagefile i)
  | _ => none

theorem content_mapped {s : State}
    (h : mapping s v = .mapped phys a) : content s v = some (s.mem phys) := by
  simp only [content, h]

theorem content_swapped {s : State} {v i : ℕ} (h : mapping s v = .swapped i) :
    content s v = some (s.pagefile i) := by
  simp only [content, h]

structure Quiet (s s' : State) : Prop where
  mapping : ∀ v, mapping s' v = mapping s v
  mem : s'.mem = s.mem
  total : s'.pmm.totalFrames = s.pmm.totalFrames
  free : ∀ a, pmmFrameIsFree s'.pmm a = true → pmmFrameIsFree s.pmm a = true
  slots : s'.swapSlots = s.swapSlots
  numSlots : s'.swapNumSlots = s.swapNumSlots
  used : s'.swapUsed = s.swapUsed
  pagefile : ∀ i, (s.swapSlots i).inUse = true → s'.pagefile i = s.pagefile i

section Quiet

variable {s s' s'' : State}

theorem Quiet.refl (s : State) : Quiet s s :=
  ⟨fun _ => rfl, rfl, rfl, fun _ h => h, rfl, rfl, rfl, fun _ _ => rfl⟩

theorem Quiet.trans (h : Quiet s s') (h' : Quiet s' s'') : Quiet s s'' where
  mapping v := (h'.mapping v).trans (h.mapping v)
  mem := h'.mem.trans h.mem
  total := h'.total.trans h.total
  free a ha := h.free a (h'.free a ha)
  slots := h'.slots.trans h.slots
  numSlots := h'.numSlots.trans h.numSlots
  used := h'.used.trans h.used
  pagefile i hi := (h'.pagefile i (by rw [h.slots]; exact hi)).trans (h.pagefile i hi)

theorem Quiet.sane (h : Quiet s s') (hs : Sane s) : Sane s' where
  slots := h.numSlots.trans_le hs.slots
  frames := h.total.trans_le hs.frames
  marker v i hv := by
    rw [h.numSlots, h.slots]
    exact hs.marker v i ((h.mapping v).symm.trans hv)
  slot i hi := by
    rw [h.slots] at hi ⊢
    rw [h.numSlots, h.mapping]
    exact hs.slot i hi
  used := by
    rw [h.used, h.numSlots, h.slots]
    exact hs.used
  held v phys a hv := by
    have hfree := hs.held v phys a ((h.mapping v).symm.trans hv)
    cases hnow : pmmFrameIsFree s'.pmm phys.toNat with
    | false => rfl
    | true => rw [h.free _ hnow] at hfree; exact hfree

theorem Quiet.content (h : Quiet s s') (hs : Sane s) (v : ℕ) : content s' v = content s v := by
  cases hv : Swap.mapping s v with
  | none => simp only [Swap.content, h.mapping, hv]
  | huge phys => simp only [Swap.content, h.mapping, hv]
  | mapped phys a => simp only [Swap.content, h.mapping, hv, h.mem]
  | swapped i =>
    have hi : (s.swapSlots i).inUse = true := by rw [(hs.marker v i hv).2]
    simp only [Swap.content, h.mapping, hv, h.pagefile i hi]

theorem Quiet.freeFrame (h : Quiet s s') {phys : Pte}
    (hfree : pmmFrameIsFree s.pmm phys.toNat = true) : Quiet s (freeFrame s' phys) :=
  { h with
    mapping := fun v => h.mapping v
    total := (pmmFreeFrame_kept _ _).total.trans h.total
    free := by
      intro a ha
      rcases pmmFrameIsFree_freeFrame ha with ha | ⟨heq, _⟩
      · exact h.free a ha
      · rwa [pmmFrameIsFree, heq, ← pmmFrameIsFree] }

end Quiet

/-- A step of the swap subsystem: contents stay, and a mapping changes only to a marker. -/
structure Steady (s s' : State) : Prop where
  sane : Sane s'
  content : ∀ v, content s' v = content s v
  mapping : ∀ v, mapping s' v = mapping s v ∨
    ∃ phys a i, mapping s v = .mapped phys a ∧ mapping s' v = .swapped i

section Steady

variable {s s' s'' : State}

theorem Quiet.steady (h : Quiet s s') (hs : Sane s) : Steady s s' :=
  ⟨h.sane hs, h.content hs, fun v => .inl (h.mapping v)⟩

theorem Steady.trans (h : Steady s s') (h' : Steady s' s'') : Steady s s'' where
  sane := h'.sane
  content v := (h'.content v).trans (h.content v)
  mapping v := by
    rcases h.mapping v with hv | ⟨phys, a, i, hv, hv'⟩
    · rw [← hv]
      exact h'.mapping v
    · rcases h'.mapping v with hv₂ | ⟨phys', a', i', hv₂, _⟩
      · exact .inr ⟨phys, a, i, hv, hv₂.trans hv'⟩
      · rw [hv'] at hv₂
        cases hv₂

theorem Steady.swapped (h : Steady s s') {v i : ℕ} (hv : Swap.mapping s v = .swapped i) :
    Swap.mapping s' v = .swapped i := by
  rcases h.mapping v with hsame | ⟨phys, a, j, hmapped, _⟩
  · exact hsame.trans hv
  · rw [hv] at hmapped
    cases hmapped

end Steady

end ImpossibleOs.Mm.Swap
