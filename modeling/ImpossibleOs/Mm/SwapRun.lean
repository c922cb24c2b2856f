import ImpossibleOs.Mm.SwapSteps

/-!
Runs of the swap subsystem.

A marker has no room for the access flags, a short transfer is taken for a whole one, and a frame
is given back whoever else maps it; where a run avoids these, no page changes but by the program's
own writes.
-/

namespace ImpossibleOs.Mm.Swap

open Function Option Bool

variable {s s' : State} {v : ℕ}

/-! ### Swapping in -/

variable {w : Watched} {saved : ℕ → Page × Access} {i : ℕ} {phys : Pte}

theorem mapping_swapped (h : mapping s v = .swapped i) :
    ∃ pte, s.pt v = .leaf pte ∧ hasFlag pte vmmFlagPresent = false ∧ swapIsSwapped pte = true ∧
      swapDecodePte pte = i := by
  unfold mapping at h
  cases hpt : s.pt v with
  | absent => simp [hpt, Walk.mapping] at h
  | huge l => simp [hpt, Walk.mapping] at h
  | leaf pte =>
    rw [hpt, Walk.mapping, pteMapping] at h
    split_ifs at h with hpresent hswapped
    injection h with h
    exact ⟨pte, rfl, by simpa using hpresent, hswapped, h⟩

/-- What the part of `swap_in` after the read does. -/
structure Filled (s s' : State) (v i : ℕ) (phys : Pte) : Prop where
  mapping : ∀ u, mapping s' u = if u = v then .mapped phys kernelRw else mapping s u
  mem : s'.mem = update s.mem phys s.swapTempBuf
  pmm : s'.pmm = s.pmm
  slots : s'.swapSlots = update s.swapSlots i ⟨false, 0⟩
  numSlots : s'.swapNumSlots = s.swapNumSlots
  used : s'.swapUsed = s.swapUsed - 1
  pagefile : s'.pagefile = s.pagefile

theorem clockRegister_fields (s : State) (v : ℕ) :
    (swapClockRegister s v).pt = s.pt ∧ (swapClockRegister s v).mem = s.mem ∧
      (swapClockRegister s v).pmm = s.pmm ∧ (swapClockRegister s v).swapSlots = s.swapSlots ∧
      (swapClockRegister s v).swapNumSlots = s.swapNumSlots ∧
      (swapClockRegister s v).swapUsed = s.swapUsed ∧
      (swapClockRegister s v).pagefile = s.pagefile := by
  unfold swapClockRegister
  split
  · exact ⟨rfl, rfl, rfl, rfl, rfl, rfl, rfl⟩
  · split <;> exact ⟨rfl, rfl, rfl, rfl, rfl, rfl, rfl⟩

theorem swapInMap_filled (hv : mapping s v = .swapped i)
    (haddr : pteAddr phys = phys) : Filled s (swapInMap s i v phys) v i phys := by
  obtain ⟨pte, hpt, _⟩ := mapping_swapped hv
  have hmap : vmmMapPage s v phys vmmKernelRw =
      { s with pt := update s.pt v (.leaf ((phys &&& ~~~0xFFF#64) ||| vmmKernelRw)) } := by
    rw [vmmMapPage, hpt]
  have hentry := pteMapping_kernelRw haddr
  have hphys : vmmGetPhysical (vmmMapPage s v phys vmmKernelRw) v = phys := by
    obtain ⟨hpresent, hphys, _⟩ := pteMapping_mapped hentry
    rw [hmap, vmmGetPhysical]
    simp only [update_self, hpresent, if_true, hphys]
  unfold swapInMap
  simp only [hphys]
  obtain ⟨h₁, h₂, h₃, h₄, h₅, h₆, h₇⟩ := clockRegister_fields
    { vmmMapPage s v phys vmmKernelRw with
      mem := update (vmmMapPage s v phys vmmKernelRw).mem phys
        (vmmMapPage s v phys vmmKernelRw).swapTempBuf
      swapSlots := update (vmmMapPage s v phys vmmKernelRw).swapSlots i ⟨false, 0⟩
      swapUsed := (vmmMapPage s v phys vmmKernelRw).swapUsed - 1 } v
  rw [hmap] at h₁ h₂ h₃ h₄ h₅ h₆ h₇ ⊢
  refine ⟨?_, h₂, h₃, h₄, h₅, h₆, h₇⟩
  intro u
  rw [mapping_update h₁ u, hentry]

/-- A handled fault: the page is back, and of the others some may have been swapped out. -/
structure Restored (s s' : State) (v : ℕ) : Prop where
  sane : Sane s'
  content : ∀ u, content s' u = content s u
  page : ∃ phys, mapping s' v = .mapped phys kernelRw
  others : ∀ u, u ≠ v → mapping s' u = mapping s u ∨
    ∃ phys a i, mapping s u = .mapped phys a ∧ mapping s' u = .swapped i

theorem restored_of_filled (hf : Filled s s' v i phys) (hs : Sane s)
    (hv : mapping s v = .swapped i) (hframe : FrameFor s phys)
    (hread : s.swapTempBuf = s.pagefile i) : Restored s s' v := by
  obtain ⟨hi, hslot⟩ := hs.marker v i hv
  have huse : (s.swapSlots i).inUse = true := by rw [hslot]
  have hself : mapping s' v = .mapped phys kernelRw := by rw [hf.mapping, if_pos rfl]
  have hother : ∀ u, u ≠ v → mapping s' u = mapping s u := by
    intro u hu
    rw [hf.mapping, if_neg hu]
  have hne : ∀ u j, u ≠ v → mapping s u = .swapped j → j ≠ i := by
    rintro u j huv hu rfl
    have := (hs.marker u j hu).2
    rw [hslot] at this
    injection this with _ h
    exact huv h.symm
  refine ⟨⟨?_, ?_, ?_, ?_, ?_, ?_⟩, ?_, ⟨phys, hself⟩, fun u hu => .inl (hother u hu)⟩
  · rw [hf.numSlots]
    exact hs.slots
  · rw [hf.pmm]
    exact hs.frames
  · intro u j hu
    have huv : u ≠ v := by
      rintro rfl
      rw [hself] at hu
      cases hu
    rw [hother u huv] at hu
    rw [hf.numSlots, hf.slots, update_of_ne (hne u j huv hu)]
    exact hs.marker u j hu
  · intro j hj
    rw [hf.slots] at hj ⊢
    have hji : j ≠ i := by
      rintro rfl
      rw [update_self] at hj
      cases hj
    rw [update_of_ne hji] at hj ⊢
    obtain ⟨hlt, hmark⟩ := hs.slot j hj
    rw [hf.numSlots]
    refine ⟨hlt, ?_⟩
    rw [hother _ ?_, hmark]
    intro hjv
    rw [hjv, hv] at hmark
    injection hmark with hij
    exact hji hij.symm
  · rw [hf.used, hf.numSlots, hf.slots, card_release hi huse _ rfl, hs.used]
  · intro u phys' a hu
    rw [hf.pmm]
    by_cases huv : u = v
    · rw [huv, hself] at hu
      injection hu with hp
      rw [← hp]
      exact hframe.taken
    · rw [hother u huv] at hu
      exact hs.held u phys' a hu
  · intro u
    by_cases huv : u = v
    · rw [huv, content_mapped hself, content_swapped hv, hf.mem, update_self, hread]
    · cases hu : mapping s u with
      | none => simp only [content, hother u huv, hu]
      | huge _ => simp only [content, hother u huv, hu]
      | mapped phys' a =>
        have hp : phys' ≠ phys := by
          rintro rfl
          exact hframe.unmapped u a hu
        simp only [content, hother u huv, hu, hf.mem, update_of_ne hp]
      | swapped j => simp only [content, hother u huv, hu, hf.pagefile]

theorem Restored.after (h : Steady s s') {s'' : State} (h' : Restored s' s'' v) :
    Restored s s'' v where
  sane := h'.sane
  content u := (h'.content u).trans (h.content u)
  page := h'.page
  others u hu := by
    rcases h.mapping u with hsame | ⟨phys, a, i, hmapped, hswapped⟩
    · rw [← hsame]
      exact h'.others u hu
    · rcases h'.others u hu with hsame | ⟨_, _, _, hmapped', _⟩
      · exact .inr ⟨phys, a, i, hmapped, hsame.trans hswapped⟩
      · rw [hswapped] at hmapped'
        cases hmapped'

theorem tempBuf_quiet (s : State) (p : Page) : Quiet s { s with swapTempBuf := p } :=
  { Quiet.refl s with }

theorem swapInMap_restored (h : Steady s s') (hv : mapping s v = .swapped i)
    (hframe : FrameFor s' phys) :
    Restored s (swapInMap { s' with swapTempBuf := s'.pagefile i } i v phys) v := by
  have hread : Steady s { s' with swapTempBuf := s'.pagefile i } :=
    h.trans ((tempBuf_quiet s' _).steady h.sane)
  have hv' := hread.swapped hv
  have hframe' : FrameFor { s' with swapTempBuf := s'.pagefile i } phys :=
    ⟨hframe.addr, hframe.unmapped, hframe.taken⟩
  exact Restored.after hread
    (restored_of_filled (swapInMap_filled hv' hframe.addr) hread.sane hv' hframe' rfl)

theorem swapIn_cases (hs : Sane s) {env : Env} (hv : mapping s v = .swapped i)
    (hcare : CarefulFrame s env) (hread : ∀ n, env.read = .done n → 4096 ≤ n) :
    ((swapIn s i v env).1 = false ∧ Quiet s (swapIn s i v env).2) ∨
      ((swapIn s i v env).1 = true ∧ Restored s (swapIn s i v env).2 v) := by
  have hgot := swapInFrame_got hs hcare
  unfold swapIn
  simp only
  split_ifs with hready huse hzero hfailed
  · exact .inl ⟨rfl, Quiet.refl s⟩
  · exact .inl ⟨rfl, Quiet.refl s⟩
  · exact .inl ⟨rfl, hgot.none hzero⟩
  · left
    exact ⟨rfl, { hgot.back hzero hfailed with }⟩
  · right
    refine ⟨rfl, ?_⟩
    have hsteady := hgot.steady
    have hframe := hgot.frame hzero
    generalize swapInFrame s env = res at *
    obtain ⟨phys, s₁⟩ := res
    simp only at hsteady hframe
    have hbuf : env.read.moved (s₁.pagefile i) s₁.swapTempBuf = s₁.pagefile i := by
      cases hr : env.read with
      | fail n => rw [hr] at hfailed; exact absurd rfl hfailed
      | done n => exact Io.moved_done (hread n hr) _ _
    rw [hbuf]
    dsimp only
    exact swapInMap_restored hsteady hv hframe

theorem swapHandleFault_cases (s : State) (addr : ℕ) (errorCode : BitVec 64) (env : Env) :
    swapHandleFault s addr errorCode env = (false, s) ∨
      ∃ i, mapping s (addr / 4096) = .swapped i ∧ errorCode &&& 1#64 = 0#64 ∧
        swapHandleFault s addr errorCode env = swapIn s i (addr / 4096) env := by
  unfold swapHandleFault
  split
  · exact .inl rfl
  split
  · exact .inl rfl
  rename_i herr
  simp only
  cases hswapped : swapIsSwapped (swapReadPte s (addr / 4096)) with
  | false => exact .inl rfl
  | true =>
    right
    refine ⟨swapDecodePte (swapReadPte s (addr / 4096)), ?_, by simpa using herr, rfl⟩
    have hpresent : hasFlag (swapReadPte s (addr / 4096)) vmmFlagPresent = false := by
      rw [swapIsSwapped, and_eq_true, not_eq_true'] at hswapped
      exact hswapped.1
    unfold swapReadPte at hswapped hpresent ⊢
    unfold mapping
    cases hpt : s.pt (addr / 4096) with
    | absent =>
      rw [hpt] at hswapped
      exact absurd hswapped (by decide)
    | huge l =>
      rw [hpt] at hpresent
      exact absurd (l.present.symm.trans hpresent) (by decide)
    | leaf pte =>
      rw [hpt] at hswapped hpresent
      simp only at hswapped hpresent
      rw [Walk.mapping, pteMapping, hpresent, hswapped]
      rfl

/-! ### What the program sees -/

/-- The state, and what each page held and how it could be accessed when it was swapped out. -/
structure Watched where
  state : State
  saved : ℕ → Page × Access

def note (s s' : State) (saved : ℕ → Page × Access) (v : ℕ) : Page × Access :=
  match mapping s v, mapping s' v with
  | .mapped phys a, .swapped _ => (s.mem phys, a)
  | _, _ => saved v

def watch (w : Watched) (turn : Turn) : Watched :=
  ⟨exec w.state turn, note w.state (exec w.state turn) w.saved⟩

/-- The bytes and the access flags of a page; for one that is swapped out, those it had. -/
def view (w : Watched) (v : ℕ) : Option (Page × Access) :=
  match mapping w.state v with
  | .mapped phys a => some (w.state.mem phys, a)
  | .swapped _ => some (w.saved v)
  | _ => none

structure Init (s : State) : Prop where
  slots : s.swapNumSlots ≤ swapMaxSlots
  frames : s.pmm.totalFrames ≤ pmmPhysAddrCap / pmmFrameSize
  unused : ∀ i, (s.swapSlots i).inUse = false
  used : s.swapUsed = 0
  resident : ∀ v i, mapping s v ≠ .swapped i
  held : ∀ v phys a, mapping s v = .mapped phys a → pmmFrameIsFree s.pmm phys.toNat = false

/-- The steps that lose nothing. -/
def Careful (w : Watched) : Turn → Prop
  | .swapOut v write => CarefulOut w.state v write
  | .evict write =>
    (swapClockVictim w.state).1 ≠ 0 →
      CarefulOut (swapClockVictim w.state).2 (swapClockVictim w.state).1 write
  | .fault addr errorCode env =>
    ∀ i, mapping w.state (addr / 4096) = .swapped i → errorCode &&& 1#64 = 0#64 →
      (w.saved (addr / 4096)).2 = kernelRw ∧ (∀ n, env.read = .done n → 4096 ≤ n) ∧
        CarefulFrame w.state env
  | _ => True

def Fails (s : State) : Turn → Prop
  | .swapOut v write => (swapOut s v write).1 = none
  | .evict write => (evict s write).1 = none
  | .fault addr errorCode env => (swapHandleFault s addr errorCode env).1 = false
  | _ => False

def Turn.isStore : Turn → Bool
  | .store _ _ _ => true
  | _ => false

/-- The mapping, the slot table and the contents are as they were. -/
structure Unchanged (s s' : State) : Prop where
  mapping : ∀ v, mapping s' v = mapping s v
  slots : s'.swapSlots = s.swapSlots
  used : s'.swapUsed = s.swapUsed
  content : ∀ v, content s' v = content s v

/-- Markers and slots in use are paired, the count is right, and no frame behind an entry is
free. -/
structure Paired (s : State) : Prop where
  paired : ∀ v i, mapping s v = .swapped i ↔
    (s.swapSlots i).inUse = true ∧ (s.swapSlots i).virtAddr = v
  bounded : ∀ i, (s.swapSlots i).inUse = true → i < s.swapNumSlots
  used : s.swapUsed =
    ((Finset.range s.swapNumSlots).filter fun i => (s.swapSlots i).inUse = true).card
  held : ∀ v phys a, mapping s v = .mapped phys a → pmmFrameIsFree s.pmm phys.toNat = false

/-- What one step does to the pages. -/
structure Transparent (w : Watched) (turn : Turn) : Prop where
  view : turn.isStore = false → ∀ v, view (watch w turn) v = view w v
  handled : ∀ addr errorCode env, turn = .fault addr errorCode env →
    (swapHandleFault w.state addr errorCode env).1 = true →
      ∃ phys, mapping (watch w turn).state (addr / 4096) =
          .mapped phys (w.saved (addr / 4096)).2 ∧
        (watch w turn).state.mem phys = (w.saved (addr / 4096)).1
  failed : Fails w.state turn → Unchanged w.state (watch w turn).state

/-! ### Steps -/

/-- The invariant of a run: the slots hold what the pages held. -/
structure Kept (w : Watched) : Prop where
  sane : Sane w.state
  stored : ∀ v i, mapping w.state v = .swapped i → w.state.pagefile i = (w.saved v).1

theorem Sane.paired (h : Sane s) : Paired s where
  paired v i := by
    refine ⟨fun hv => ?_, ?_⟩
    · rw [(h.marker v i hv).2]
      exact ⟨rfl, rfl⟩
    · rintro ⟨hi, rfl⟩
      exact (h.slot i hi).2
  bounded i hi := (h.slot i hi).1
  used := h.used
  held := h.held

theorem Init.kept (h : Init s) (saved : ℕ → Page × Access) : Kept ⟨s, saved⟩ where
  sane :=
    { slots := h.slots
      frames := h.frames
      marker := fun v i hv => absurd hv (h.resident v i)
      slot := fun i hi => by rw [h.unused] at hi; cases hi
      used := by simp [h.used, h.unused]
      held := h.held }
  stored v i hv := absurd hv (h.resident v i)

theorem note_eq (h : mapping s' v = mapping s v) : note s s' saved v = saved v := by
  unfold note
  rw [h]
  cases mapping s v <;> rfl

theorem note_saved (h : mapping s v = .swapped i) : note s s' saved v = saved v := by
  unfold note
  rw [h]

theorem note_out {a : Access} (h : mapping s v = .mapped phys a) (h' : mapping s' v = .swapped i) :
    note s s' saved v = (s.mem phys, a) := by
  unfold note
  rw [h, h']

theorem Kept.of_content (h : Kept w) (hs : Sane s')
    (hcontent : ∀ v, content s' v = content w.state v) :
    Kept ⟨s', note w.state s' w.saved⟩ where
  sane := hs
  stored v i hv := by
    show s'.pagefile i = (note w.state s' w.saved v).1
    replace hv : mapping s' v = .swapped i := hv
    have hc := hcontent v
    rw [content_swapped hv] at hc
    cases hw : mapping w.state v with
    | none => simp [content, hw] at hc
    | huge phys => simp [content, hw] at hc
    | mapped phys a =>
      rw [content_mapped hw] at hc
      rw [note_out hw hv]
      exact some.inj hc
    | swapped j =>
      rw [content_swapped hw] at hc
      rw [note_saved hw, ← h.stored v j hw]
      exact some.inj hc

theorem view_of_steady (hcontent : content s' v = content w.state v)
    (hmapping : mapping s' v = mapping w.state v ∨
      ∃ phys a i, mapping w.state v = .mapped phys a ∧ mapping s' v = .swapped i) :
    view ⟨s', note w.state s' w.saved⟩ v = view w v := by
  rcases hmapping with hsame | ⟨phys, a, i, hw, hv⟩
  · cases hw : mapping w.state v with
    | none => simp only [view, hsame, hw]
    | huge phys => simp only [view, hsame, hw]
    | mapped phys a =>
      rw [content_mapped (hsame.trans hw), content_mapped hw] at hcontent
      simp only [view, hsame, hw, some.inj hcontent]
    | swapped i => simp only [view, hsame, hw, note_eq hsame]
  · simp only [view, hv, hw, note_out hw hv]

theorem Quiet.unchanged (h : Quiet s s') (hs : Sane s) : Unchanged s s' :=
  ⟨h.mapping, h.slots, h.used, h.content hs⟩

theorem transparent_of_steady {turn : Turn} (hs : Sane w.state)
    (hsteady : Steady w.state (exec w.state turn))
    (hfault : ∀ addr errorCode env, turn = .fault addr errorCode env →
      (swapHandleFault w.state addr errorCode env).1 = false)
    (hfailed : Fails w.state turn → Quiet w.state (exec w.state turn)) :
    Transparent w turn where
  view _ v := view_of_steady (hsteady.content v) (hsteady.mapping v)
  handled addr errorCode env hturn htrue := by
    rw [hfault addr errorCode env hturn] at htrue
    cases htrue
  failed hf := (hfailed hf).unchanged hs

theorem evict_steady (hs : Sane s) {write : Io} (hcare : (swapClockVictim s).1 ≠ 0 →
      CarefulOut (swapClockVictim s).2 (swapClockVictim s).1 write) :
    Steady s (evict s write).2 ∧ ((evict s write).1 = none → Quiet s (evict s write).2) := by
  have hvictim := swapClockVictim_quiet s
  unfold evict
  simp only
  split_ifs with hzero
  · exact ⟨hvictim.steady hs, fun _ => hvictim⟩
  · refine ⟨(hvictim.steady hs).trans (swapOut_steady (hvictim.sane hs) (hcare hzero)), ?_⟩
    intro hnone
    rcases swapOut_cases (swapClockVictim s).2 (swapClockVictim s).1 write with
      ⟨_, hquiet⟩ | ⟨i, _, _, _, hsome, _⟩
    · exact hvictim.trans hquiet
    · rw [hsome] at hnone
      cases hnone

theorem swapOut_quiet {write : Io} (h : (swapOut s v write).1 = none) :
    Quiet s (swapOut s v write).2 := by
  rcases swapOut_cases s v write with ⟨_, hquiet⟩ | ⟨i, _, _, _, hsome, _⟩
  · exact hquiet
  · rw [hsome] at h
    cases h

theorem store_sane (hs : Sane s) (v : ℕ) (offset : Fin 4096) (value : UInt8) :
    Sane (store s v offset value) ∧ (∀ u, mapping (store s v offset value) u = mapping s u) ∧
      (store s v offset value).pagefile = s.pagefile := by
  have htouch : Quiet s (touch s v (vmmFlagAccessed ||| vmmFlagDirty)) := touch_quiet s v (.inr rfl)
  have hsane := htouch.sane hs
  unfold store
  split
  · split
    · refine ⟨⟨hsane.slots, hsane.frames, hsane.marker, hsane.slot, hsane.used, hsane.held⟩,
        htouch.mapping, ?_⟩
      show (touch s v _).pagefile = _
      unfold touch
      split
      · split <;> rfl
      · rfl
    · exact ⟨hs, fun _ => rfl, rfl⟩
  · exact ⟨hs, fun _ => rfl, rfl⟩

theorem fault_transparent (h : Kept w) {addr : ℕ} {errorCode : BitVec 64}
    {env : Env} (hcare : Careful w (.fault addr errorCode env)) :
    Kept (watch w (.fault addr errorCode env)) ∧ Transparent w (.fault addr errorCode env) := by
  rcases swapHandleFault_cases w.state addr errorCode env with hres | ⟨i, hv, herr, hres⟩
  · have hsame : exec w.state (.fault addr errorCode env) = w.state := by rw [exec, hres]
    have hquiet : Quiet w.state (exec w.state (.fault addr errorCode env)) := by
      rw [hsame]
      exact Quiet.refl _
    refine ⟨h.of_content (hquiet.sane h.sane) (hquiet.content h.sane), ?_⟩
    refine transparent_of_steady h.sane (hquiet.steady h.sane) ?_ fun _ => hquiet
    rintro _ _ _ ⟨⟩
    rw [hres]
  obtain ⟨haccess, hread, hframe⟩ := hcare i hv herr
  have hexec :
      exec w.state (.fault addr errorCode env) = (swapIn w.state i (addr / 4096) env).2 := by
    rw [exec, hres]
  rcases swapIn_cases h.sane hv hframe hread with ⟨hfalse, hquiet⟩ | ⟨htrue, hrest⟩
  · rw [← hexec] at hquiet
    refine ⟨h.of_content (hquiet.sane h.sane) (hquiet.content h.sane), ?_⟩
    refine transparent_of_steady h.sane (hquiet.steady h.sane) ?_ fun _ => hquiet
    rintro _ _ _ ⟨⟩
    rw [hres, hfalse]
  · rw [← hexec] at hrest
    obtain ⟨phys, hpage⟩ := hrest.page
    have hc := hrest.content (addr / 4096)
    rw [content_mapped hpage, content_swapped hv, h.stored _ i hv] at hc
    have hbytes := some.inj hc
    refine ⟨h.of_content hrest.sane hrest.content, ?_, ?_, ?_⟩
    · intro _ v
      by_cases hvp : v = addr / 4096
      · subst hvp
        simp only [watch, view, hpage, hv, hbytes, ← haccess, Prod.mk.eta]
      · exact view_of_steady (hrest.content v) (hrest.others v hvp)
    · rintro _ _ _ ⟨⟩ _
      refine ⟨phys, ?_, hbytes⟩
      rw [haccess]
      exact hpage
    · intro hfails
      rw [Fails, hres, htrue] at hfails
      cases hfails

theorem watch_transparent (h : Kept w) {turn : Turn} (hcare : Careful w turn) :
    Kept (watch w turn) ∧ Transparent w turn := by
  have hsteady : ∀ {turn : Turn}, Steady w.state (exec w.state turn) → Kept (watch w turn) :=
    fun hst => h.of_content hst.sane hst.content
  cases turn with
  | load v =>
    have hquiet : Quiet w.state (exec w.state (.load v)) := touch_quiet _ v (.inl rfl)
    exact ⟨hsteady (hquiet.steady h.sane),
      transparent_of_steady h.sane (hquiet.steady h.sane) nofun nofun⟩
  | clockRegister v =>
    have hquiet : Quiet w.state (exec w.state (.clockRegister v)) :=
      swapClockRegister_quiet _ v
    exact ⟨hsteady (hquiet.steady h.sane),
      transparent_of_steady h.sane (hquiet.steady h.sane) nofun nofun⟩
  | store v offset value =>
    obtain ⟨hsane, hmap, hpage⟩ := store_sane h.sane v offset value
    refine ⟨⟨hsane, fun u i hu => ?_⟩, nofun, nofun, nofun⟩
    have hu' := (hmap u).symm.trans hu
    show (store w.state v offset value).pagefile i =
      (note w.state (store w.state v offset value) w.saved u).1
    rw [hpage, note_eq (hmap u), h.stored u i hu']
  | swapOut v write =>
    have hst : Steady w.state (exec w.state (.swapOut v write)) := swapOut_steady h.sane hcare
    exact ⟨hsteady hst, transparent_of_steady h.sane hst nofun swapOut_quiet⟩
  | evict write =>
    obtain ⟨hst, hfails⟩ := evict_steady h.sane hcare
    exact ⟨hsteady hst, transparent_of_steady h.sane hst nofun hfails⟩
  | fault addr errorCode env => exact fault_transparent h hcare

/-! ### Runs -/

theorem meets_kept (h : Kept w) {turns : List Turn}
    (hcare : Refine.Meets watch Careful w turns) : Kept (turns.foldl watch w) :=
  Refine.Meets.invariant Kept (fun _ _ hw hc => (watch_transparent hw hc).1) hcare h

def onePage (pte : Pte) : State where
  pt v := if v = 5 then .leaf pte else .absent
  mem _ _ := 7
  pmm := ⟨fun _ => 0xFF, 2, 2⟩
  pagefile _ _ := 0
  swapTempBuf _ := 0
  swapSlots _ := ⟨false, 0⟩
  swapNumSlots := 1
  swapUsed := 0
  swapInited := true
  clockEntries _ := ⟨0, false⟩
  clockHand := 0
  clockCount := 0

theorem onePage_init {pte : Pte} (h : hasFlag pte vmmFlagPresent = true) : Init (onePage pte) where
  slots := show 1 ≤ swapMaxSlots by decide
  frames := show 2 ≤ pmmPhysAddrCap / pmmFrameSize by decide
  unused _ := rfl
  used := rfl
  resident v i hv := by
    obtain ⟨pte', hpt, hpresent, _⟩ := mapping_swapped hv
    simp only [onePage] at hpt
    split_ifs at hpt
    injection hpt with hpt
    rw [← hpt, h] at hpresent
    cases hpresent
  held v phys a _ := by
    rw [pmmFrameIsFree, and_eq_false_iff, not_eq_false', decide_eq_false_iff_not]
    by_cases hlt : phys.toNat / pmmFrameSize < 2
    · have hall : ∀ f < 2, Pmm.used ⟨fun _ => 0xFF, 2, 2⟩ f = true := by decide
      exact .inr (hall _ hlt)
    · exact .inl hlt

def wholeRead : Env := ⟨false, .done 0, false, .done 4096⟩

def swapOutTurn : Turn := .swapOut 5 (.done 4096)

def shortOutTurn : Turn := .swapOut 5 (.done 0)

def faultTurn : Turn := .fault 0x5000 0 wholeRead

end ImpossibleOs.Mm.Swap
