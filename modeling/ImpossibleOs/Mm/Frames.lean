import ImpossibleOs.Mm.Pmm

/-!
The frame allocator over whole runs.

The counter agrees with the bits, what is handed out was free, and the
searches find the lowest run there is. Frame 0 has to stay in use for the
address 0 to mean failure: `pmm_init` reserves it, and a free of it breaks the
last part.
-/

namespace ImpossibleOs.Mm

open ByteMem List

variable {p q : Pmm} {f count : ℕ}

/-! ### Bits and counter -/

theorem used_take (p : Pmm) (f j : ℕ) : (p.take f).used j = (j = f || p.used j) :=
  Bitmap.test_set p.bitmap f j

theorem used_release (p : Pmm) (f j : ℕ) : (p.release f).used j = (j ≠ f && p.used j) :=
  Bitmap.test_clear p.bitmap f j

/-- The counter is the number of set bits. -/
def Counted (p : Pmm) : Prop := p.usedFrames = Bitmap.count p.bitmap p.totalFrames

theorem Counted.take (h : Counted p) (hf : f < p.totalFrames) (hfree : p.used f = false) :
    Counted (p.take f) := by
  show p.usedFrames + 1 = Bitmap.count (Bitmap.set p.bitmap f) p.totalFrames
  rw [Bitmap.count_set hf hfree, h]

theorem Counted.release (h : Counted p) (hf : f < p.totalFrames) (hused : p.used f = true) :
    Counted (p.release f) := by
  show p.usedFrames - 1 = Bitmap.count (Bitmap.clear p.bitmap f) p.totalFrames
  rw [Bitmap.count_clear hf hused, h]

/-- What taking and releasing frames below the last one keeps. -/
structure Kept (p q : Pmm) : Prop where
  total : q.totalFrames = p.totalFrames
  counted : Counted p → Counted q

theorem Kept.refl (p : Pmm) : Kept p p := ⟨rfl, id⟩

theorem Kept.trans {r : Pmm} (h : Kept p q) (h' : Kept q r) : Kept p r :=
  ⟨h'.total.trans h.total, fun hc => h'.counted (h.counted hc)⟩

theorem markUsed_kept (hf : f < p.totalFrames) : Kept p (markUsed p f) := by
  unfold markUsed
  split
  · rename_i hfree
    exact ⟨rfl, fun h => h.take hf (by simpa using hfree)⟩
  · exact Kept.refl p

theorem markFree_kept (hf : f < p.totalFrames) : Kept p (markFree p f) := by
  unfold markFree
  split
  · rename_i hused
    exact ⟨rfl, fun h => h.release hf hused⟩
  · exact Kept.refl p

theorem used_markUsed (p : Pmm) (f j : ℕ) : (markUsed p f).used j = (j = f || p.used j) := by
  unfold markUsed
  split
  · exact used_take p f j
  · rename_i hused
    by_cases hj : j = f
    · subst hj
      simpa using hused
    · simp [hj]

theorem used_markFree (p : Pmm) (f j : ℕ) : (markFree p f).used j = (j ≠ f && p.used j) := by
  unfold markFree
  split
  · exact used_release p f j
  · rename_i hfree
    by_cases hj : j = f
    · subst hj
      simpa using hfree
    · simp [hj]

theorem foldl_kept {mark : Pmm → ℕ → Pmm} (hmark : ∀ p f, f < p.totalFrames → Kept p (mark p f))
    {l : List ℕ} (hl : ∀ f ∈ l, f < p.totalFrames) : Kept p (l.foldl mark p) := by
  induction l generalizing p with
  | nil => exact Kept.refl p
  | cons f l ih =>
    have h₁ := hmark p f (hl f mem_cons_self)
    refine h₁.trans (ih fun g hg => ?_)
    rw [h₁.total]
    exact hl g (mem_cons_of_mem f hg)

theorem mem_framesOf {start stop : ℕ} (h : f ∈ framesOf p start stop) :
    start ≤ f ∧ f < stop ∧ f < p.totalFrames := by
  rw [framesOf, mem_range'_1] at h
  omega

theorem pmmMarkRegionUsed_kept (p : Pmm) (base length : ℕ) :
    Kept p (pmmMarkRegionUsed p base length) :=
  foldl_kept (fun _ _ hf => markUsed_kept hf) fun _ hf => (mem_framesOf hf).2.2

theorem pmmMarkRegionFree_kept (p : Pmm) (base length : ℕ) :
    Kept p (pmmMarkRegionFree p base length) :=
  foldl_kept (fun _ _ hf => markFree_kept hf) fun _ hf => (mem_framesOf hf).2.2

theorem used_foldl_markUsed (l : List ℕ) (p : Pmm) (j : ℕ) :
    (l.foldl markUsed p).used j = (j ∈ l || p.used j) := by
  induction l generalizing p with
  | nil => simp
  | cons f l ih =>
    rw [foldl_cons, ih, used_markUsed, Bool.eq_iff_iff]
    simp only [Bool.or_eq_true, decide_eq_true_eq, mem_cons]
    tauto

theorem used_pmmMarkRegionUsed {base length j : ℕ} (h : p.used j = true) :
    (pmmMarkRegionUsed p base length).used j = true := by
  rw [pmmMarkRegionUsed, used_foldl_markUsed, h]
  simp

theorem foldl_take (l : List ℕ) (p : Pmm) (j : ℕ) :
    (l.foldl Pmm.take p).used j = (j ∈ l || p.used j) := by
  induction l generalizing p with
  | nil => simp
  | cons f l ih =>
    rw [foldl_cons, ih, used_take, Bool.eq_iff_iff]
    simp only [Bool.or_eq_true, decide_eq_true_eq, mem_cons]
    tauto

theorem foldl_take_kept {l : List ℕ} (hl : ∀ f ∈ l, f < p.totalFrames) (hnd : l.Nodup)
    (hfree : ∀ f ∈ l, p.used f = false) : Kept p (l.foldl Pmm.take p) := by
  induction l generalizing p with
  | nil => exact Kept.refl p
  | cons f l ih =>
    rw [nodup_cons] at hnd
    have h₁ : Kept p (p.take f) :=
      ⟨rfl, fun h => h.take (hl f mem_cons_self) (hfree f mem_cons_self)⟩
    refine h₁.trans (ih (fun g hg => hl g (mem_cons_of_mem f hg)) hnd.2 fun g hg => ?_)
    have hne : g ≠ f := by
      rintro rfl
      exact hnd.1 hg
    rw [used_take, hfree g (mem_cons_of_mem f hg)]
    simp [hne]

/-! ### The searches -/

theorem findSome?_range {α : Type*} {g : ℕ → Option α} {n k : ℕ} {r : α} (hk : k < n)
    (hg : g k = some r) (hbefore : ∀ j < k, g j = none) : (List.range n).findSome? g = some r := by
  have hsplit : List.range n = List.range k ++ k :: range' (k + 1) (n - (k + 1)) := by
    have happ : range' 0 k ++ range' (0 + k) (n - (k + 1) + 1) =
        range' 0 (k + (n - (k + 1) + 1)) := range'_append_1
    rw [zero_add, show k + (n - (k + 1) + 1) = n by omega] at happ
    rw [range_eq_range', range_eq_range', ← range'_succ, happ]
  rw [hsplit, findSome?_append, findSome?_cons, hg]
  have hnone : (List.range k).findSome? g = none := by
    rw [findSome?_eq_none_iff]
    intro j hj
    exact hbefore j (mem_range.mp hj)
  rw [hnone]
  rfl

theorem scanBytes_some (h : scanBytes p = some (some f)) :
    f < p.totalFrames ∧ p.used f = false := by
  obtain ⟨i, -, hi⟩ := exists_of_findSome?_eq_some h
  split at hi
  · cases hi
  obtain ⟨bit, -, hbit⟩ := exists_of_findSome?_eq_some hi
  simp only at hbit
  split at hbit
  · cases hbit
  split at hbit
  · rename_i htot hfree
    cases hbit
    exact ⟨by omega, by simpa using hfree⟩
  · cases hbit

theorem scanBytes_eq (hf : f < p.totalFrames) (hfree : p.used f = false)
    (hlow : ∀ j < f, p.used j = true) : scanBytes p = some (some f) := by
  have hsize : f / 8 < p.bitmapSize := by
    unfold Pmm.bitmapSize
    omega
  refine findSome?_range hsize ?_ ?_
  · have hbyte : p.bitmap (f / 8) ≠ 0xFF := by
      intro hfull
      have := Bitmap.test_of_full hfull
      rw [Pmm.used, this] at hfree
      cases hfree
    rw [if_neg hbyte]
    refine findSome?_range (Nat.mod_lt f (by norm_num) : f % 8 < 8) ?_ ?_
    · have hframe : f / 8 * 8 + f % 8 = f := by omega
      simp only [hframe]
      rw [if_neg (by omega), if_pos (by simp [hfree])]
    · intro j hj
      have hlt : f / 8 * 8 + j < f := by omega
      simp only
      rw [if_neg (by omega), if_neg (by simp [hlow _ hlt])]
  · intro i hi
    rw [if_pos]
    refine Bitmap.full_of_test fun k hk => hlow (i * 8 + k) ?_
    omega

theorem freeRun_one : FreeRun p f 1 ↔ f < p.totalFrames ∧ p.used f = false := by
  unfold FreeRun
  constructor
  · rintro ⟨h, hfree⟩
    exact ⟨by omega, hfree 0 (by norm_num)⟩
  · rintro ⟨h, hfree⟩
    refine ⟨by omega, fun i hi => ?_⟩
    obtain rfl : i = 0 := by omega
    exact hfree

theorem LowestRun.unique {s s' : ℕ} (h : LowestRun p s count) (h' : LowestRun p s' count) :
    s = s' := by
  rcases lt_trichotomy s s' with hlt | heq | hlt
  · exact absurd h.1 (h'.2 s hlt)
  · exact heq
  · exact absurd h'.1 (h.2 s' hlt)

theorem exists_lowestRun {s : ℕ} (h : FreeRun p s count) : ∃ s, LowestRun p s count := by
  classical
  have hex : ∃ s, FreeRun p s count := ⟨s, h⟩
  exact ⟨Nat.find hex, Nat.find_spec hex, fun _ hlt => Nat.find_min hex hlt⟩

/-- The run search goes frame by frame: the run so far is free, and none that is long enough
starts before it. -/
structure RunInv (p : Pmm) (count frame : ℕ) (run : ℕ × ℕ) : Prop where
  here : run.1 + run.2 = frame
  short : run.2 < count
  free : ∀ j, run.1 ≤ j → j < frame → p.used j = false
  none : ∀ s < run.1, ¬ FreeRun p s count

theorem runSearch_spec (hcount : 0 < count) :
    (∀ start, (List.range p.totalFrames).foldlM (runTurn p count) (0, 0) = .error start →
      LowestRun p start count) ∧
    ∀ run, (List.range p.totalFrames).foldlM (runTurn p count) (0, 0) = .ok run →
      ∀ s, ¬ FreeRun p s count := by
  have hloop := Loop.foldlM_range_except (f := runTurn p count) (n := p.totalFrames)
    (s := ((0 : ℕ), (0 : ℕ))) (RunInv p count) (fun start => LowestRun p start count)
    ⟨rfl, hcount, by omega, by omega⟩ ?_
  · refine ⟨fun start h => hloop.2 start h, ?_⟩
    intro run hrun s hs
    have hend := hloop.1 run hrun
    by_cases hlt : s < run.1
    · exact hend.none s hlt hs
    · have h₁ := hs.1
      have h₂ := hend.here
      have h₃ := hend.short
      omega
  · intro frame hframe run hinv
    have hhere := hinv.here
    have hshort := hinv.short
    unfold runTurn
    by_cases hused : p.used frame = true
    · rw [if_pos hused]
      refine ⟨?_, nofun⟩
      rintro _ ⟨⟩
      refine ⟨rfl, hcount, by simp only; omega, ?_⟩
      intro s hs hrun
      by_cases hlt : s < run.1
      · exact hinv.none s hlt hrun
      · -- a run from `s` on would go over the used frame
        have hbit := hrun.2 (frame - s) (by simp only at hs; omega)
        rw [show s + (frame - s) = frame by simp only at hs; omega, hused] at hbit
        cases hbit
    · rw [if_neg hused]
      have hfree : p.used frame = false := by simpa using hused
      have hbelow : ∀ j, run.1 ≤ j → j < frame + 1 → p.used j = false := by
        intro j hj hlt
        rcases Nat.lt_succ_iff_lt_or_eq.mp hlt with hlt | rfl
        · exact hinv.free j hj hlt
        · exact hfree
      by_cases hlong : count ≤ run.2 + 1
      · rw [if_pos hlong]
        refine ⟨nofun, ?_⟩
        rintro _ ⟨⟩
        exact ⟨⟨by omega, fun i hi => hbelow _ (by omega) (by omega)⟩, hinv.none⟩
      · rw [if_neg hlong]
        refine ⟨?_, nofun⟩
        rintro _ ⟨⟩
        exact ⟨by simp only; omega, by simp only; omega, hbelow, hinv.none⟩

/-- What an allocation of `count` frames does: it takes the lowest run there is. -/
structure Allocates (p : Pmm) (count : ℕ) (res : Pmm × ℕ) : Prop where
  found : ∀ start, LowestRun p start count →
    res = ((List.range' start count).foldl Pmm.take p, start * pmmFrameSize)
  full : (∀ start, ¬ FreeRun p start count) → res = (p, 0)

theorem pmmAllocFrame_allocates (p : Pmm) : Allocates p 1 (pmmAllocFrame p) := by
  unfold pmmAllocFrame
  refine ⟨?_, ?_⟩
  · intro start hlow
    obtain ⟨htot, hfree⟩ := freeRun_one.mp hlow.1
    have hbelow : ∀ j < start, p.used j = true := by
      intro j hj
      by_contra hn
      exact hlow.2 j hj (freeRun_one.mpr ⟨by omega, by simpa using hn⟩)
    rw [scanBytes_eq htot hfree hbelow]
    rfl
  · intro hnone
    split
    · rename_i f hscan
      exact absurd (freeRun_one.mpr (scanBytes_some hscan)) (hnone f)
    · rfl

theorem pmmAllocContiguous_allocates (p : Pmm) (hcount : 0 < count) :
    Allocates p count (pmmAllocContiguous p count) := by
  unfold pmmAllocContiguous
  rw [if_neg (by omega)]
  split
  · rename_i hone
    rw [hone]
    exact pmmAllocFrame_allocates p
  obtain ⟨herror, hok⟩ := runSearch_spec (p := p) hcount
  cases hloop : (List.range p.totalFrames).foldlM (runTurn p count) (0, 0) with
  | ok run =>
    refine ⟨fun start hlow => ?_, fun _ => rfl⟩
    exact absurd hlow.1 (hok run hloop start)
  | error start =>
    have hlow := herror start hloop
    refine ⟨fun start' hlow' => ?_, fun hnone => absurd hlow.1 (hnone start)⟩
    rw [hlow.unique hlow']

/-- What holds between the calls of a run. -/
structure PmmInv (s : PmmState) : Prop where
  counted : Counted s.pmm
  zero : s.pmm.used 0 = true
  nodup : s.live.Nodup
  live : ∀ f ∈ s.live, s.pmm.used f = true

theorem FreeRun.pos {start : ℕ} (hzero : p.used 0 = true) (hcount : 0 < count)
    (h : FreeRun p start count) : 0 < start := by
  by_contra hn
  have := h.2 0 hcount
  rw [show start + 0 = 0 by omega, hzero] at this
  cases this

theorem frameAddr_ne_zero (h : 0 < f) : f * pmmFrameSize ≠ 0 := by
  unfold pmmFrameSize
  omega

variable {s : PmmState} {res : Pmm × ℕ}

theorem Allocates.result (hzero : p.used 0 = true) (hcount : 0 < count)
    (h : Allocates p count res) : (res.2 = 0 ↔ ∀ start, ¬ FreeRun p start count) ∧
      ∀ start, LowestRun p start count → res.2 = start * pmmFrameSize := by
  refine ⟨⟨?_, fun hnone => by rw [h.full hnone]⟩, fun start hlow => by rw [h.found start hlow]⟩
  intro hres start hrun
  obtain ⟨low, hlow⟩ := exists_lowestRun hrun
  have hpos := hlow.1.pos hzero hcount
  rw [h.found low hlow] at hres
  exact frameAddr_ne_zero hpos hres

theorem PmmInv.allocates (h : PmmInv s) (hcount : 0 < count)
    (hres : Allocates s.pmm count res) : PmmInv ⟨res.1, s.live ++ handedOut res.2 count⟩ := by
  by_cases hnone : ∀ start, ¬ FreeRun s.pmm start count
  · rw [hres.full hnone]
    simpa [handedOut] using h
  obtain ⟨start, hrun⟩ := not_forall_not.mp hnone
  obtain ⟨low, hlow⟩ := exists_lowestRun hrun
  have hpos := hlow.1.pos h.zero hcount
  have hmem : ∀ f, f ∈ range' low count ↔ low ≤ f ∧ f < low + count :=
    fun f => mem_range'_1
  have hfree : ∀ f ∈ range' low count, s.pmm.used f = false := by
    intro f hf
    rw [hmem] at hf
    have := hlow.1.2 (f - low) (by omega)
    rwa [show low + (f - low) = f by omega] at this
  have hbelow : ∀ f ∈ range' low count, f < s.pmm.totalFrames := by
    intro f hf
    rw [hmem] at hf
    have := hlow.1.1
    omega
  have hout : handedOut (low * pmmFrameSize) count = range' low count := by
    unfold handedOut
    rw [if_neg (frameAddr_ne_zero hpos), Nat.mul_div_cancel _ (by decide)]
  rw [hres.found low hlow]
  simp only [hout]
  have hkept := foldl_take_kept hbelow nodup_range' hfree
  refine ⟨hkept.counted h.counted, ?_, ?_, ?_⟩
  · rw [foldl_take, h.zero]
    simp
  · refine h.nodup.append nodup_range' ?_
    intro f hf hf'
    have := hfree f hf'
    rw [h.live f hf] at this
    cases this
  · intro f hf
    rw [foldl_take]
    rcases mem_append.mp hf with hf | hf
    · simp [h.live f hf]
    · simp [hf]

/-! ### Releases -/

theorem pmmFreeFrame_kept (p : Pmm) (addr : ℕ) : Kept p (pmmFreeFrame p addr) := by
  unfold pmmFreeFrame
  simp only
  split
  · exact Kept.refl p
  · exact markFree_kept (by omega)

theorem used_pmmFreeFrame {addr j : ℕ} (h : p.used j = true) (hne : j ≠ addr / pmmFrameSize) :
    (pmmFreeFrame p addr).used j = true := by
  unfold pmmFreeFrame
  simp only
  split
  · exact h
  · rw [used_markFree, h]
    simp [hne]

theorem foldl_pmmFreeFrame (l : List ℕ) (p : Pmm) : Kept p (l.foldl pmmFreeFrame p) ∧
      ∀ j, p.used j = true → (∀ a ∈ l, j ≠ a / pmmFrameSize) →
        (l.foldl pmmFreeFrame p).used j = true := by
  induction l generalizing p with
  | nil => exact ⟨Kept.refl p, fun _ h _ => h⟩
  | cons a l ih =>
    obtain ⟨hkept, hused⟩ := ih (pmmFreeFrame p a)
    refine ⟨(pmmFreeFrame_kept p a).trans hkept, fun j hj hne => ?_⟩
    exact hused j (used_pmmFreeFrame hj (hne a mem_cons_self))
      fun b hb => hne b (mem_cons_of_mem a hb)

def freedAddrs : PmmCall → List ℕ
  | .freeFrame addr => [addr]
  | .freeContiguous base count =>
    if base = 0 ∨ count = 0 then []
    else (List.range count).map fun i => u64 (base + i * pmmFrameSize)
  | _ => []

theorem freed_eq (call : PmmCall) : call.freed = (freedAddrs call).map (· / pmmFrameSize) := by
  cases call with
  | freeContiguous base count =>
    simp only [PmmCall.freed, freedAddrs]
    by_cases hnone : base = 0 ∨ count = 0
    · rw [if_pos hnone, if_pos hnone]
      rfl
    · rw [if_neg hnone, if_neg hnone, map_map]
      rfl
  | _ => rfl

theorem pmmFreeContiguous_eq (p : Pmm) (base count : ℕ) : pmmFreeContiguous p base count =
      (freedAddrs (.freeContiguous base count)).foldl pmmFreeFrame p := by
  simp only [pmmFreeContiguous, freedAddrs]
  by_cases hnone : base = 0 ∨ count = 0
  · rw [if_pos hnone, if_pos hnone]
    rfl
  · rw [if_neg hnone, if_neg hnone, foldl_map]

theorem PmmInv.frees (h : PmmInv s) (call : PmmCall) (hzero : 0 ∉ call.freed) :
    PmmInv ⟨(freedAddrs call).foldl pmmFreeFrame s.pmm, s.live.filter (· ∉ call.freed)⟩ := by
  obtain ⟨hkept, hused⟩ := foldl_pmmFreeFrame (freedAddrs call) s.pmm
  have hstays : ∀ j, s.pmm.used j = true → j ∉ call.freed →
      ((freedAddrs call).foldl pmmFreeFrame s.pmm).used j = true := by
    intro j hj hn
    refine hused j hj fun a ha heq => hn ?_
    rw [freed_eq, heq]
    exact mem_map_of_mem ha
  refine ⟨hkept.counted h.counted, hstays 0 h.zero hzero, h.nodup.filter _, ?_⟩
  intro f hf
  obtain ⟨hf, hn⟩ := mem_filter.mp hf
  exact hstays f (h.live f hf) (by simpa using hn)

/-- The call gives back something other than frame 0, or nothing. -/
def KeepsFrameZero (_ : PmmState) (call : PmmCall) : Prop := 0 ∉ call.freed

theorem PmmInv.exec (h : PmmInv s) {call : PmmCall} (hzero : KeepsFrameZero s call) :
    PmmInv (pmmExec s call) := by
  cases call with
  | allocFrame => exact h.allocates Nat.one_pos (pmmAllocFrame_allocates s.pmm)
  | allocContiguous count =>
    by_cases hcount : count = 0
    · subst hcount
      simpa [pmmExec, pmmAllocContiguous, handedOut] using h
    · exact h.allocates (pos_of_ne_zero hcount)
        (pmmAllocContiguous_allocates s.pmm (pos_of_ne_zero hcount))
  | freeFrame addr => exact h.frees (.freeFrame addr) hzero
  | freeContiguous base count =>
    have hfree := h.frees (.freeContiguous base count) hzero
    rw [← pmmFreeContiguous_eq] at hfree
    exact hfree
  | markUsed base length =>
    exact ⟨(pmmMarkRegionUsed_kept s.pmm base length).counted h.counted,
      used_pmmMarkRegionUsed h.zero, h.nodup, fun f hf => used_pmmMarkRegionUsed (h.live f hf)⟩

theorem count_full (n : ℕ) : Bitmap.count (fun _ => 0xFF) n = n := by
  unfold Bitmap.count
  rw [Finset.filter_true_of_mem, Finset.card_range]
  intro i _
  exact Bitmap.test_of_full rfl

theorem foldl_regions_kept {α : Type*} {step : Pmm → α → Pmm} (hstep : ∀ p a, Kept p (step p a))
    (l : List α) (p : Pmm) : Kept p (l.foldl step p) := by
  induction l generalizing p with
  | nil => exact Kept.refl p
  | cons a l ih => exact (hstep p a).trans (ih (step p a))

theorem used_zero_of_no_frames {α : Type*} {step : Pmm → α → Pmm}
    (hstep : ∀ p a, p.totalFrames = 0 → step p a = p) (l : List α) (hp : p.totalFrames = 0) :
    l.foldl step p = p := by
  induction l with
  | nil => rfl
  | cons a l ih =>
    rw [foldl_cons, hstep p a hp]
    exact ih

theorem framesOf_eq_nil {start stop : ℕ} (hp : p.totalFrames = 0) : framesOf p start stop = [] := by
  unfold framesOf
  rw [hp, Nat.min_zero, Nat.zero_sub]
  rfl

theorem pmmInit_inv (mmap : List MmapEntry) (kernelEnd : ℕ) (reserved : List (ℕ × ℕ)) :
    PmmInv ⟨pmmInit mmap kernelEnd reserved, []⟩ := by
  unfold pmmInit
  generalize htotal : min (highestAddr mmap) pmmPhysAddrCap / pmmFrameSize = total
  simp only
  generalize hstart : (⟨fun _ => 0xFF, total, total⟩ : Pmm) = start
  have hcounted : Counted start := by
    rw [← hstart]
    exact (count_full total).symm
  -- the regions that are freed
  generalize hfreed : mmap.foldl (fun p e => if e.usable then pmmMarkRegionFree p e.base e.length
    else p) start = freed
  have hkept : Kept start freed := by
    rw [← hfreed]
    refine foldl_regions_kept (fun p e => ?_) mmap start
    split
    · exact pmmMarkRegionFree_kept p e.base e.length
    · exact Kept.refl p
  have hzero : (pmmMarkRegionUsed freed 0 0x100000).used 0 = true := by
    rw [pmmMarkRegionUsed, used_foldl_markUsed]
    by_cases hnone : total = 0
    · -- no frames at all: nothing was freed
      have hsame : freed = start := by
        rw [← hfreed]
        refine used_zero_of_no_frames (fun p e hp => ?_) mmap (by rw [← hstart]; exact hnone)
        split
        · rw [pmmMarkRegionFree, framesOf_eq_nil hp]
          rfl
        · rfl
      rw [hsame, ← hstart]
      have hbit : (⟨fun _ => 0xFF, total, total⟩ : Pmm).used 0 = true := Bitmap.test_of_full rfl
      rw [hbit]
      simp
    · have hmem : 0 ∈ framesOf freed (0 / pmmFrameSize)
          (u64 (0 + 0x100000 + pmmFrameSize - 1) / pmmFrameSize) := by
        have hend : u64 (0 + 0x100000 + pmmFrameSize - 1) / pmmFrameSize = 256 := by decide
        have hframes : freed.totalFrames = total := by
          rw [hkept.total, ← hstart]
        rw [framesOf, mem_range'_1, hend, hframes]
        simp only [Nat.zero_div]
        omega
      rw [decide_eq_true hmem, Bool.true_or]
  have hregion : ∀ q base length, Counted q ∧ q.used 0 = true →
      Counted (pmmMarkRegionUsed q base length) ∧ (pmmMarkRegionUsed q base length).used 0 = true :=
    fun q base length h =>
      ⟨(pmmMarkRegionUsed_kept q base length).counted h.1, used_pmmMarkRegionUsed h.2⟩
  have hreserved : ∀ q, Counted q ∧ q.used 0 = true →
      Counted (reserved.foldl (fun p e => pmmMarkRegionUsed p e.1 e.2) q) ∧
        (reserved.foldl (fun p e => pmmMarkRegionUsed p e.1 e.2) q).used 0 = true := by
    induction reserved with
    | nil => exact fun _ h => h
    | cons e reserved ih => exact fun q h => ih _ (hregion q e.1 e.2 h)
  have hbase : Counted (pmmMarkRegionUsed freed 0 0x100000) ∧
      (pmmMarkRegionUsed freed 0 0x100000).used 0 = true :=
    ⟨(pmmMarkRegionUsed_kept freed 0 0x100000).counted (hkept.counted hcounted), hzero⟩
  obtain ⟨hc, hz⟩ := hreserved _ (hregion _ userPtWindowBase userPtWindowSize
    (hregion _ kernelEnd (pageAlign (kernelEnd + start.bitmapSize) - kernelEnd)
      (hregion _ 0x100000 (kernelEnd - 0x100000) hbase)))
  exact ⟨hc, hz, nodup_nil, by simp⟩

/-! ### The allocator -/

/-- What an allocation of `count` frames is to do: fail when there is no run that long, and
otherwise take the lowest one. -/
structure AllocatesLowest (p : Pmm) (count : ℕ) (res : Pmm × ℕ) : Prop where
  fails : res.2 = 0 ↔ ∀ start, ¬ FreeRun p start count
  unchanged : res.2 = 0 → res.1 = p
  lowest : ∀ start, LowestRun p start count → res.2 = start * pmmFrameSize
  marked : ∀ start, LowestRun p start count →
    ∀ f, res.1.used f = (f ∈ List.range' start count || p.used f)

theorem Allocates.lowest (hzero : p.used 0 = true) (hcount : 0 < count)
    (h : Allocates p count res) : AllocatesLowest p count res := by
  obtain ⟨hfails, hlowest⟩ := h.result hzero hcount
  refine ⟨hfails, fun hres => ?_, hlowest, fun start hlow f => ?_⟩
  · rw [h.full (hfails.mp hres)]
  · rw [h.found start hlow]
    exact foldl_take _ p f

/-- What is promised of the allocator between the calls of a run. -/
structure FramesAccounted (s : PmmState) : Prop where
  counted : s.pmm.usedFrames = Bitmap.count s.pmm.bitmap s.pmm.totalFrames
  disjoint : s.live.Nodup
  used : ∀ f ∈ s.live, s.pmm.used f = true
  frame : AllocatesLowest s.pmm 1 (pmmAllocFrame s.pmm)
  contiguous : ∀ count, 0 < count → AllocatesLowest s.pmm count (pmmAllocContiguous s.pmm count)
  nothing : pmmAllocContiguous s.pmm 0 = (s.pmm, 0)

theorem PmmInv.accounted (h : PmmInv s) : FramesAccounted s where
  counted := h.counted
  disjoint := h.nodup
  used := h.live
  frame := (pmmAllocFrame_allocates s.pmm).lowest h.zero Nat.one_pos
  contiguous _ hcount := (pmmAllocContiguous_allocates s.pmm hcount).lowest h.zero hcount
  nothing := rfl

/-- Runs that never give back frame 0. -/
theorem pmmRun_accounted (mmap : List MmapEntry) (kernelEnd : ℕ) (reserved : List (ℕ × ℕ))
    (calls : List PmmCall)
    (h : Refine.Meets pmmExec KeepsFrameZero ⟨pmmInit mmap kernelEnd reserved, []⟩ calls) :
    FramesAccounted (calls.foldl pmmExec ⟨pmmInit mmap kernelEnd reserved, []⟩) :=
  PmmInv.accounted <| h.invariant PmmInv (fun _ _ hs hcall => hs.exec hcall)
    (pmmInit_inv mmap kernelEnd reserved)

/-- Two MiB of memory, all of it usable. -/
def smallMap : List MmapEntry := [⟨0, 0x200000, true⟩]

/-- An allocation, a longer one and the release of the first. -/
theorem pmmRun_accounted_small :
    FramesAccounted ([.allocFrame, .allocContiguous 3, .freeFrame 0x102000].foldl pmmExec
      ⟨pmmInit smallMap 0x101000 [], []⟩) :=
  pmmRun_accounted smallMap 0x101000 [] [.allocFrame, .allocContiguous 3, .freeFrame 0x102000]
    ⟨by simp [KeepsFrameZero, PmmCall.freed], by simp [KeepsFrameZero, PmmCall.freed],
      by simp [KeepsFrameZero, PmmCall.freed, pmmFrameSize], trivial⟩

theorem pmmInit_total (mmap : List MmapEntry) (kernelEnd : ℕ) (reserved : List (ℕ × ℕ)) :
    (pmmInit mmap kernelEnd reserved).totalFrames =
      min (highestAddr mmap) pmmPhysAddrCap / pmmFrameSize := by
  unfold pmmInit
  simp only
  rw [(foldl_regions_kept (fun p e => pmmMarkRegionUsed_kept p _ _) reserved _).total,
    (pmmMarkRegionUsed_kept _ _ _).total, (pmmMarkRegionUsed_kept _ _ _).total,
    (pmmMarkRegionUsed_kept _ _ _).total, (pmmMarkRegionUsed_kept _ _ _).total]
  refine (foldl_regions_kept (fun p e => ?_) mmap _).total
  split
  · exact pmmMarkRegionFree_kept p _ _
  · exact Kept.refl p

theorem lowestRun_zero (h : 0 < p.totalFrames) : LowestRun (pmmFreeFrame p 0) 0 1 := by
  refine ⟨freeRun_one.mpr ⟨?_, ?_⟩, fun _ hlt => absurd hlt (Nat.not_lt_zero _)⟩
  · rw [(pmmFreeFrame_kept p 0).total]
    exact h
  · unfold pmmFreeFrame
    simp only [Nat.zero_div]
    rw [if_neg (by omega), used_markFree]
    rfl

theorem not_accounted_freeFrame {live : List ℕ} (h : 0 < p.totalFrames) :
    ¬ FramesAccounted (pmmExec ⟨p, live⟩ (.freeFrame 0)) := by
  intro hacc
  have hlow := lowestRun_zero h
  have halloc : AllocatesLowest (pmmFreeFrame p 0) 1 (pmmAllocContiguous (pmmFreeFrame p 0) 1) :=
    hacc.contiguous 1 Nat.one_pos
  exact halloc.fails.mp (by rw [halloc.lowest 0 hlow, Nat.zero_mul]) 0 hlow.1

theorem pmmRun_frameZero :
    ¬ FramesAccounted ([.freeFrame 0].foldl pmmExec ⟨pmmInit smallMap 0x101000 [], []⟩) := by
  refine not_accounted_freeFrame ?_
  rw [pmmInit_total]
  decide

end ImpossibleOs.Mm
