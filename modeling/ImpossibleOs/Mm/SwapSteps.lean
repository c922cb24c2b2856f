import ImpossibleOs.Mm.SwapInv

/-!
The steps of the swap subsystem: the clock, swapping out, and the frame for swapping in.
-/

namespace ImpossibleOs.Mm.Swap

open Function List Finset

variable {s s' : State} {v : ℕ}

/-! ### The clock and the processor -/

theorem Quiet.entry {pte pte' : Pte} (hpt : s.pt v = .leaf pte)
    (h : pteMapping pte' = pteMapping pte) :
    Quiet s { s with pt := update s.pt v (.leaf pte') } :=
  { Quiet.refl s with
    mapping := by
      intro u
      rw [@mapping_update v s { s with pt := update s.pt v (.leaf pte') } _ rfl u, h]
      split
      · rename_i huv
        rw [huv, mapping_leaf hpt]
      · rfl }

theorem swapWritePte_cases {pteVal phys : Pte} (h : swapWritePte s v pteVal phys = some s') :
    ∃ pte, s.pt v = .leaf pte ∧ hasFlag pte vmmFlagPresent = true ∧ pteAddr pte = phys ∧
      s' = { s with pt := update s.pt v (.leaf pteVal) } := by
  unfold swapWritePte at h
  cases hpt : s.pt v with
  | absent => simp [hpt] at h
  | huge l => simp [hpt] at h
  | leaf pte =>
    rw [hpt] at h
    simp only at h
    split_ifs at h with hbad
    · simp only [Bool.or_eq_true, Bool.not_eq_true', bne_iff_ne, ne_eq, not_or,
        Bool.not_eq_false, Decidable.not_not] at hbad
      injection h with h
      exact ⟨pte, rfl, hbad.1, hbad.2, h.symm⟩

theorem clockRemove_quiet (s : State) (i : ℕ) : Quiet s (clockRemove s i) :=
  { Quiet.refl s with }

theorem clockHand_quiet (s : State) (n : ℕ) : Quiet s { s with clockHand := n } :=
  { Quiet.refl s with }

theorem clockFirst_quiet (s : State) : Quiet s (clockFirst s).2 := by
  unfold clockFirst
  split
  · exact Quiet.refl s
  · exact clockRemove_quiet s _

theorem clearAccessed_quiet (s : State) (v : ℕ) :
    Quiet s ((swapWritePte s v (swapReadPte s v &&& ~~~vmmFlagAccessed)
      (pteAddr (swapReadPte s v))).getD s) := by
  cases hw : swapWritePte s v (swapReadPte s v &&& ~~~vmmFlagAccessed)
      (pteAddr (swapReadPte s v)) with
  | none => exact Quiet.refl s
  | some s' =>
    obtain ⟨pte, hpt, hpresent, _, rfl⟩ := swapWritePte_cases hw
    have hread : swapReadPte s v = pte := by rw [swapReadPte, hpt]
    rw [hread]
    exact Quiet.entry hpt (pteMapping_clearAccessed hpresent)

theorem clockScan_quiet (passes : ℕ) (s : State) : Quiet s (clockScan passes s).2 := by
  induction passes generalizing s with
  | zero => exact clockFirst_quiet s
  | succ passes ih =>
    have hhand := clockHand_quiet s ((s.clockHand + 1) % clockMaxPages)
    unfold clockScan
    simp only
    split_ifs
    · exact hhand.trans (ih _)
    · exact hhand.trans (ih _)
    · exact hhand.trans ((clearAccessed_quiet _ _).trans (ih _))
    · exact hhand.trans (clockRemove_quiet _ _)

theorem swapClockVictim_quiet (s : State) : Quiet s (swapClockVictim s).2 := by
  unfold swapClockVictim
  split
  · exact Quiet.refl s
  · exact clockScan_quiet _ s

theorem swapClockRegister_quiet (s : State) (v : ℕ) : Quiet s (swapClockRegister s v) := by
  unfold swapClockRegister
  split
  · exact Quiet.refl s
  · split
    · exact Quiet.refl s
    · exact { Quiet.refl s with }

theorem touch_quiet (s : State) (v : ℕ) {flags : Pte}
    (hflags : flags = vmmFlagAccessed ∨ flags = vmmFlagAccessed ||| vmmFlagDirty) :
    Quiet s (touch s v flags) := by
  unfold touch
  split
  · rename_i pte hpt
    split
    · rename_i hpresent
      exact Quiet.entry hpt (pteMapping_setFlags hpresent hflags)
    · exact Quiet.refl s
  · exact Quiet.refl s

theorem allocFrame_quiet (s : State) (fails : Bool) : Quiet s (allocFrame s fails).2 := by
  unfold allocFrame
  split
  · exact Quiet.refl s
  · rcases pmmAllocFrame_cases s.pmm with hfull | ⟨f, hf, hfree, htake⟩
    · simp only [hfull]
      exact Quiet.refl s
    · simp only [htake]
      refine { Quiet.refl s with total := rfl, free := ?_ }
      intro a ha
      rw [pmmFrameIsFree_take, Bool.and_eq_true] at ha
      exact ha.1

/-- A frame that was free, is free no more, and whose address fits an entry. -/
structure Fresh (s s' : State) (phys : Pte) : Prop where
  addr : pteAddr phys = phys
  before : pmmFrameIsFree s.pmm phys.toNat = true
  after : pmmFrameIsFree s'.pmm phys.toNat = false

theorem allocFrame_fresh (hs : s.pmm.totalFrames ≤ pmmPhysAddrCap / pmmFrameSize) {fails : Bool}
    (h : (allocFrame s fails).1 ≠ 0#64) :
    Fresh s (allocFrame s fails).2 (allocFrame s fails).1 := by
  unfold allocFrame at h ⊢
  split_ifs at h ⊢
  · exact absurd rfl h
  · rcases pmmAllocFrame_cases s.pmm with hfull | ⟨f, hf, hfree, htake⟩
    · simp only [hfull] at h
      exact absurd rfl h
    · simp only [htake]
      have hcap : f ≤ 2 ^ 20 := (hf.trans_le hs).le
      have hnum : (BitVec.ofNat 64 (f * pmmFrameSize)).toNat / pmmFrameSize = f := by
        rw [BitVec.toNat_ofNat, Nat.mod_eq_of_lt, Nat.mul_div_cancel _ (by decide)]
        rw [pmmFrameSize]
        omega
      refine ⟨pteAddr_ofNat hcap, ?_, ?_⟩
      · rw [pmmFrameIsFree, hnum, hfree, decide_eq_true hf]
        rfl
      · rw [pmmFrameIsFree_take, hnum, decide_eq_true rfl]
        simp

/-! ### Swapping out -/

/-- What a successful `swap_out` does. -/
structure Evicted (s s' : State) (v i : ℕ) (phys : Pte) (write : Io) : Prop where
  mapping : ∀ u, mapping s' u = if u = v then pteMapping (swapEncodePte i) else mapping s u
  mem : s'.mem = s.mem
  pmm : s'.pmm = pmmFreeFrame s.pmm phys.toNat
  slots : s'.swapSlots = update s.swapSlots i ⟨true, v⟩
  numSlots : s'.swapNumSlots = s.swapNumSlots
  used : s'.swapUsed = s.swapUsed + 1
  pagefile : s'.pagefile =
    update s.pagefile i (write.moved (s.mem phys) (s.pagefile i))

theorem freeSlot_spec {i : ℕ} (h : freeSlot s = some i) :
    i < s.swapNumSlots ∧ (s.swapSlots i).inUse = false := by
  unfold freeSlot at h
  refine ⟨List.mem_range.mp (mem_of_find?_eq_some h), ?_⟩
  simpa using find?_some h

theorem swapOut_cases (s : State) (v : ℕ) (write : Io) :
    ((swapOut s v write).1 = none ∧ Quiet s (swapOut s v write).2) ∨
      ∃ i phys a n, (swapOut s v write).1 = some i ∧ freeSlot s = some i ∧
        mapping s v = .mapped phys a ∧ write = .done n ∧
        Evicted s (swapOut s v write).2 v i phys write := by
  unfold swapOut
  split
  · exact .inl ⟨rfl, Quiet.refl s⟩
  split
  · exact .inl ⟨rfl, Quiet.refl s⟩
  rename_i i hslot
  have hwrite : ∀ p q, Quiet s
      { s with swapTempBuf := p, pagefile := update s.pagefile i q } := by
    intro p q
    refine { Quiet.refl s with pagefile := ?_ }
    intro j hj
    refine update_of_ne ?_ _ _
    rintro rfl
    rw [(freeSlot_spec hslot).2] at hj
    cases hj
  simp only
  split_ifs with hphys hhuge hfail
  · exact .inl ⟨rfl, Quiet.refl s⟩
  · exact .inl ⟨rfl, Quiet.refl s⟩
  · exact .inl ⟨rfl, hwrite _ _⟩
  · split
    · exact .inl ⟨rfl, hwrite _ _⟩
    · rename_i s₁ hw
      right
      obtain ⟨pte, hpt, hpresent, haddr, rfl⟩ := swapWritePte_cases hw
      replace hpt : s.pt v = .leaf pte := hpt
      cases write with
      | fail n => exact absurd rfl hfail
      | done n =>
        refine ⟨i, vmmGetPhysical s v, access pte, n, rfl, hslot, ?_, rfl, ?_⟩
        · rw [mapping_leaf hpt, pteMapping, if_pos hpresent, haddr]
        · exact
            { mapping := mapping_update rfl
              mem := rfl
              pmm := rfl
              slots := rfl
              numSlots := rfl
              used := rfl
              pagefile := rfl }

/-- No other entry maps the frame that swapping out a page gives back. -/
def Alone (s : State) (v : ℕ) : Prop :=
  ∀ phys a, mapping s v = .mapped phys a → phys.toNat / pmmFrameSize < s.pmm.totalFrames →
    ∀ u phys' a', mapping s u = .mapped phys' a' →
      phys'.toNat / pmmFrameSize = phys.toNat / pmmFrameSize → u = v

theorem Io.moved_done {n : ℕ} (h : 4096 ≤ n) (p q : Page) : (Io.done n).moved p q = p := by
  funext k
  exact if_pos (k.2.trans_le h)

theorem card_claim {slots : ℕ → SwapSlot} {num i : ℕ} (hi : i < num)
    (hfree : (slots i).inUse = false) (slot : SwapSlot) (hslot : slot.inUse = true) :
    ((Finset.range num).filter fun j => (update slots i slot j).inUse = true).card =
      ((Finset.range num).filter fun j => (slots j).inUse = true).card + 1 := by
  have hinsert :
      ((Finset.range num).filter fun j => (update slots i slot j).inUse = true) =
      insert i ((Finset.range num).filter fun j => (slots j).inUse = true) := by
    ext j
    by_cases hj : j = i
    · simp [hj, hi, hslot]
    · simp [hj]
  rw [hinsert, card_insert_of_notMem (by simp [hfree])]

theorem card_release {slots : ℕ → SwapSlot} {num i : ℕ} (hi : i < num)
    (huse : (slots i).inUse = true) (slot : SwapSlot) (hslot : slot.inUse = false) :
    ((Finset.range num).filter fun j => (update slots i slot j).inUse = true).card =
      ((Finset.range num).filter fun j => (slots j).inUse = true).card - 1 := by
  have herase :
      ((Finset.range num).filter fun j => (update slots i slot j).inUse = true) =
      ((Finset.range num).filter fun j => (slots j).inUse = true).erase i := by
    ext j
    by_cases hj : j = i
    · simp [hj, hslot]
    · simp [hj]
  rw [herase, card_erase_of_mem (by simp [hi, huse])]

theorem steady_of_evicted {i n : ℕ} {phys : Pte} {a : Access} (he : Evicted s s' v i phys (.done n))
    (hs : Sane s) (hslot : freeSlot s = some i) (hv : mapping s v = .mapped phys a)
    (hn : 4096 ≤ n) (halone : Alone s v) : Steady s s' := by
  obtain ⟨hi, hfree⟩ := freeSlot_spec hslot
  have hself : mapping s' v = .swapped i := by
    rw [he.mapping, if_pos rfl, pteMapping_encode (hi.trans_le hs.slots)]
  have hother : ∀ u, u ≠ v → mapping s' u = mapping s u := by
    intro u hu
    rw [he.mapping, if_neg hu]
  -- a slot that another page names is in use, so it is not the one claimed
  have hne : ∀ u j, mapping s u = .swapped j → j ≠ i := by
    rintro u j hu rfl
    rw [(hs.marker u j hu).2] at hfree
    cases hfree
  refine ⟨⟨?_, ?_, ?_, ?_, ?_, ?_⟩, ?_, ?_⟩
  · rw [he.numSlots]
    exact hs.slots
  · rw [he.pmm, (pmmFreeFrame_kept _ _).total]
    exact hs.frames
  · intro u j hu
    rw [he.numSlots, he.slots]
    by_cases huv : u = v
    · rw [huv, hself] at hu
      injection hu with hij
      rw [← hij, huv, update_self]
      exact ⟨hi, rfl⟩
    · rw [hother u huv] at hu
      rw [update_of_ne (hne u j hu)]
      exact hs.marker u j hu
  · intro j hj
    rw [he.slots] at hj ⊢
    rw [he.numSlots]
    by_cases hji : j = i
    · rw [hji, update_self]
      exact ⟨hi, hself⟩
    · rw [update_of_ne hji] at hj ⊢
      obtain ⟨hlt, hmark⟩ := hs.slot j hj
      refine ⟨hlt, ?_⟩
      rw [hother _ ?_, hmark]
      intro hjv
      rw [hjv, hv] at hmark
      cases hmark
  · rw [he.used, he.numSlots, he.slots, card_claim hi hfree _ rfl, hs.used]
  · intro u phys' a' hu
    have huv : u ≠ v := by
      rintro rfl
      rw [hself] at hu
      cases hu
    rw [hother u huv] at hu
    cases hnow : pmmFrameIsFree s'.pmm phys'.toNat with
    | false => rfl
    | true =>
      rw [he.pmm] at hnow
      rcases pmmFrameIsFree_freeFrame hnow with hbefore | ⟨hframe, hlt⟩
      · rw [hs.held u phys' a' hu] at hbefore
        cases hbefore
      · exact absurd (halone phys a hv hlt u phys' a' hu hframe) huv
  · intro u
    by_cases huv : u = v
    · rw [huv, content_swapped hself, content_mapped hv, he.pagefile, update_self,
        Io.moved_done hn]
    · cases hu : mapping s u with
      | none => simp only [content, hother u huv, hu]
      | huge _ => simp only [content, hother u huv, hu]
      | mapped _ _ => simp only [content, hother u huv, hu, he.mem]
      | swapped j =>
        simp only [content, hother u huv, hu, he.pagefile, update_of_ne (hne u j hu)]
  · intro u
    by_cases huv : u = v
    · exact .inr ⟨phys, a, i, by rw [huv, hv], by rw [huv, hself]⟩
    · exact .inl (hother u huv)

/-- What keeps an attempt to swap out harmless: a write that is not an error is whole, and the
frame is given back once. -/
def CarefulOut (s : State) (v : ℕ) (write : Io) : Prop :=
  ∀ i phys a n, freeSlot s = some i → mapping s v = .mapped phys a → write = .done n →
    4096 ≤ n ∧ Alone s v

theorem swapOut_steady (hs : Sane s) {write : Io} (hcare : CarefulOut s v write) :
    Steady s (swapOut s v write).2 := by
  rcases swapOut_cases s v write with ⟨_, hquiet⟩ | ⟨i, phys, a, n, _, hslot, hv, rfl, he⟩
  · exact hquiet.steady hs
  · obtain ⟨hn, halone⟩ := hcare i phys a n hslot hv rfl
    exact steady_of_evicted he hs hslot hv hn halone

/-! ### The frame for swapping in -/

/-- What keeps the eviction of `swap_in` harmless: once a victim has gone, the rest succeeds. -/
def CarefulFrame (s : State) (env : Env) : Prop :=
  (allocFrame s env.noFrame).1 = 0#64 →
    let victim := swapClockVictim (allocFrame s env.noFrame).2
    victim.1 ≠ 0 →
      CarefulOut victim.2 victim.1 env.write ∧
        ((swapOut victim.2 victim.1 env.write).1 ≠ none →
          (allocFrame (swapOut victim.2 victim.1 env.write).2 env.noFrameAgain).1 ≠ 0#64 ∧
            env.read.failed = false)

/-- The frame is behind no entry. -/
def Unmapped (s : State) (phys : Pte) : Prop := ∀ u a, mapping s u ≠ .mapped phys a

theorem Fresh.unmapped {phys : Pte} (h : Fresh s s' phys) (hs : Sane s) (hq : Quiet s s') :
    Unmapped s' phys := by
  intro u a hu
  have hheld := hs.held u phys a ((hq.mapping u).symm.trans hu)
  rw [h.before] at hheld
  cases hheld

/-- The frame that `swap_in` gets: an address for an entry, behind no entry and not free. -/
structure FrameFor (s : State) (phys : Pte) : Prop where
  addr : pteAddr phys = phys
  unmapped : Unmapped s phys
  taken : pmmFrameIsFree s.pmm phys.toNat = false

theorem frameFor_of_alloc (hs : Sane s) {fails : Bool} (h : (allocFrame s fails).1 ≠ 0#64) :
    FrameFor (allocFrame s fails).2 (allocFrame s fails).1 :=
  have hfresh := allocFrame_fresh hs.frames h
  ⟨hfresh.addr, hfresh.unmapped hs (allocFrame_quiet s fails), hfresh.after⟩

/-- Getting a frame: what it leaves, and what it leaves where `swap_in` then fails. -/
structure FrameGot (s : State) (env : Env) (res : Pte × State) : Prop where
  steady : Steady s res.2
  frame : res.1 ≠ 0#64 → FrameFor res.2 res.1
  none : res.1 = 0#64 → Quiet s res.2
  back : res.1 ≠ 0#64 → env.read.failed = true → Quiet s (freeFrame res.2 res.1)

theorem swapInFrame_got (hs : Sane s) {env : Env} (hcare : CarefulFrame s env) :
    FrameGot s env (swapInFrame s env) := by
  have halloc := allocFrame_quiet s env.noFrame
  have hvictim := swapClockVictim_quiet (allocFrame s env.noFrame).2
  have hquiet := halloc.trans hvictim
  unfold swapInFrame
  simp only
  split_ifs with hfirst hnone
  · exact
      { steady := halloc.steady hs
        frame := frameFor_of_alloc hs
        none := fun h => absurd h hfirst
        back := fun h _ => halloc.freeFrame (allocFrame_fresh hs.frames h).before }
  · exact
      { steady := hquiet.steady hs
        frame := fun h => absurd rfl h
        none := fun _ => hquiet
        back := fun h => absurd rfl h }
  · obtain ⟨hout, hrest⟩ := hcare (by simpa using hfirst) hnone
    have hsane := hquiet.sane hs
    have hsteady := swapOut_steady hsane hout
    have hagain := allocFrame_quiet
      (swapOut (swapClockVictim (allocFrame s env.noFrame).2).2
        (swapClockVictim (allocFrame s env.noFrame).2).1 env.write).2 env.noFrameAgain
    refine
      { steady := (hquiet.steady hs).trans (hsteady.trans (hagain.steady hsteady.sane))
        frame := frameFor_of_alloc hsteady.sane
        none := ?_
        back := ?_ }
    -- in the failing cases nothing was swapped out
    · intro hzero
      rcases swapOut_cases (swapClockVictim (allocFrame s env.noFrame).2).2
        (swapClockVictim (allocFrame s env.noFrame).2).1 env.write with
        ⟨_, hq⟩ | ⟨i, _, _, _, hsome, _⟩
      · exact hquiet.trans (hq.trans hagain)
      · exact absurd hzero (hrest (by rw [hsome]; nofun)).1
    · intro hres hfailed
      rcases swapOut_cases (swapClockVictim (allocFrame s env.noFrame).2).2
        (swapClockVictim (allocFrame s env.noFrame).2).1 env.write with
        ⟨_, hq⟩ | ⟨i, _, _, _, hsome, _⟩
      · refine (hquiet.trans (hq.trans hagain)).freeFrame ?_
        exact (hquiet.trans hq).free _ (allocFrame_fresh hsteady.sane.frames hres).before
      · rw [(hrest (by rw [hsome]; nofun)).2] at hfailed
        cases hfailed

end ImpossibleOs.Mm.Swap
