import ImpossibleOs.Fat32.FsckWalk

/-!
When a repaired volume is sound.

A walk along a survey claims what the survey claims and leaves every chain
closed, so that a second check finds nothing. Where an entry's first cluster is
claimed already, the walk has nothing to cut, and the entry shares that cluster
with its owner in the repaired volume as well.
-/

namespace ImpossibleOs.Fat32

open ByteMem List

variable {fix : Bool} {v w : Volume} {s s' : FsckState} {T T' : Trace} {e : DirEnt}

/-! ### A walk along a survey -/

/-- The state of a walk over `v` after the entries of a trace: their clusters are marked and
their chains closed; everything else is as it was. -/
structure Follows (v : Volume) (s : FsckState) (T : Trace) : Prop where
  bpb : s.vol.bpb = v.bpb
  data : ∀ x, v.bpb.firstDataSector * 512 ≤ x → s.vol.disk x = v.disk x
  marks : ∀ c, v.bpb.InRange c → (s.visited c ↔ c ∈ T.claimed)
  fat : ∀ c, v.bpb.InRange c → c ∉ T.claimed → getFatEntry s.vol c = getFatEntry v c
  closed : ∀ p ∈ T, Closed s.vol p.1.first p.2

variable {l : List ℕ} {b : Bpb} {n : ℕ} {m : ByteMem}

theorem not_inRange_eocMark (hok : b.Ok) : ¬ b.InRange eocMark := by
  rintro ⟨-, hlt⟩
  have hmax := hok.clusters
  unfold eocMark at hlt
  unfold fat32Bad at hmax
  omega

theorem Claim.closed_cut {xs l : List ℕ} {c k : ℕ} (hok : w.bpb.Ok) (h : Claim v xs c l)
    (hne : l ≠ []) (hb : w.bpb = v.bpb) (hfat : ∀ x ∈ l, getFatEntry w x = getFatEntry v x) :
    Closed (setFatEntry w (l.getLastD k) eocMark) c l := by
  induction l generalizing xs c k with
  | nil => exact absurd rfl hne
  | cons d l ih =>
    have hnodup := h.fresh.1
    obtain ⟨rfl, hr, -, hl⟩ := h
    have hrange : (setFatEntry w ((d :: l).getLastD k) eocMark).bpb.InRange d := by
      rw [setFatEntry_bpb, hb]
      exact hr
    refine ⟨rfl, hrange, ?_⟩
    rw [setFatEntry_bpb] at hrange
    cases l with
    | nil =>
      show ¬ (setFatEntry w d eocMark).bpb.InRange (getFatEntry (setFatEntry w d eocMark) d)
      rw [setFatEntry_bpb, getFatEntry_setFatEntry_same hok hrange.2 (by decide)]
      exact not_inRange_eocMark hok
    | cons d' l =>
      have hlast : (d :: d' :: l).getLastD k = (d' :: l).getLastD d := rfl
      have hmem : (d' :: l).getLastD d ∈ d' :: l := getLastD_mem d (by simp)
      have hlastRange : w.bpb.InRange ((d' :: l).getLastD d) := by
        rw [hb]
        exact (hl.fresh.2 _ hmem).1
      have hother : d ≠ (d' :: l).getLastD d := by
        intro heq
        rw [← heq] at hmem
        exact (nodup_cons.mp hnodup).1 hmem
      rw [hlast, getFatEntry_setFatEntry_other hok hlastRange.2 hrange.2 hother,
        hfat d mem_cons_self]
      exact ih hl (by simp) fun x hx => hfat x (mem_cons_of_mem d hx)

theorem Follows.chain (hok : v.bpb.Ok) (h : Follows v s T)
    (hclaim : Claim v T.claimed e.first l) (hne : l ≠ []) (hfix : fix = true ∨ Closed v e.first l) :
    Follows v (walkChain fix s e.first) (T ++ [(e, l)]) ∧
      (Closed v e.first l → (walkChain fix s e.first).crossLinks = s.crossLinks) := by
  have hfat : ∀ x ∈ l, getFatEntry s.vol x = getFatEntry v x := by
    intro x hx
    obtain ⟨hr, hn⟩ := hclaim.fresh.2 x hx
    exact h.fat x hr hn
  obtain ⟨hmarks, hend, hcut⟩ := walkChainLoop_spec fix hok T.claimed l e.first 0 chainFuel s h.bpb
    h.marks hclaim hfat (hclaim.length_lt hok)
  change ∀ x, (walkChain fix s e.first).visited x = true ↔ _ at hmarks
  have hmarks' : ∀ c, v.bpb.InRange c →
      ((walkChain fix s e.first).visited c ↔ c ∈ Trace.claimed (T ++ [(e, l)])) := by
    intro c hc
    rw [hmarks, h.marks c hc, Trace.claimed_append, Trace.claimed_singleton, mem_append]
  by_cases hclosed : Closed v e.first l
  · obtain ⟨hvol, hlinks⟩ := hend (hclaim.closed_iff.mp hclosed)
    change (walkChain fix s e.first).vol = s.vol at hvol
    refine ⟨⟨by rw [hvol, h.bpb], by rw [hvol]; exact h.data, hmarks', ?_, ?_⟩, fun _ => hlinks⟩
    · intro c hc hn
      rw [hvol]
      rw [Trace.claimed_append, mem_append, not_or] at hn
      exact h.fat c hc hn.1
    · intro p hp
      rw [hvol]
      rcases mem_append.mp hp with hp | hp
      · exact h.closed p hp
      · obtain rfl := mem_singleton.mp hp
        exact hclosed.congr h.bpb hfat
  · have hfix' : fix = true := hfix.resolve_right hclosed
    have hrange : v.bpb.InRange (claimEnd v e.first l) := by
      by_contra hn
      exact hclosed (hclaim.closed_iff.mpr hn)
    obtain ⟨-, hvol⟩ := hcut hrange
    change (walkChain fix s e.first).vol = cutLink fix s.vol (l.getLastD 0) at hvol
    have hmem : l.getLastD 0 ∈ l := getLastD_mem 0 hne
    obtain ⟨hlast, hnew⟩ := hclaim.fresh.2 _ hmem
    have hzero : l.getLastD 0 ≠ 0 := by
      have := hlast.1
      omega
    rw [cutLink, if_pos ⟨hfix', hzero⟩] at hvol
    have hoks : s.vol.bpb.Ok := h.bpb ▸ hok
    have hlasts : l.getLastD 0 < s.vol.bpb.maxCluster := by
      rw [h.bpb]
      exact hlast.2
    refine ⟨⟨by rw [hvol, setFatEntry_bpb, h.bpb], ?_, hmarks', ?_, ?_⟩,
      fun hc => absurd hc hclosed⟩
    · intro x hx
      rw [hvol, (setFatEntry_sameOutside hoks eocMark hlasts) x (.inr (by rwa [h.bpb]))]
      exact h.data x hx
    · intro c hc hn
      rw [Trace.claimed_append, Trace.claimed_singleton, mem_append, not_or] at hn
      rw [hvol, getFatEntry_setFatEntry_other hoks hlasts (by rw [h.bpb]; exact hc.2)]
      · exact h.fat c hc hn.1
      · rintro rfl
        exact hn.2 hmem
    · intro p hp
      rw [hvol]
      rcases mem_append.mp hp with hp | hp
      · refine (h.closed p hp).congr (setFatEntry_bpb _ _) fun x hx => ?_
        have hxr := (h.closed p hp).inRange x hx
        refine getFatEntry_setFatEntry_other hoks hlasts hxr.2 ?_
        rintro rfl
        exact hnew (mem_flatMap.mpr ⟨p, hp, hx⟩)
      · obtain rfl := mem_singleton.mp hp
        exact hclaim.closed_cut hoks hne h.bpb hfat

theorem Follows.directory (hok : v.bpb.Ok) (h : Follows v s T)
    (hclaim : Claim v T.claimed e.first l) (hne : l ≠ [])
    (hfix : fix = true ∨ Closed v e.first l) (n : ℕ) : walkDirectory fix (n + 1) s e.first =
      (liveEntries v.bpb v.disk l).foldlM (walkEnt (walkDirectory fix n) fix)
        (walkChain fix s e.first) := by
  obtain ⟨h₁, -⟩ := h.chain hok hclaim hne hfix
  have hclosed : Closed (walkChain fix s e.first).vol e.first l := h₁.closed (e, l) (by simp)
  have hmarks : ∀ x ∈ l, (walkChain fix s e.first).visited x := by
    intro x hx
    rw [h₁.marks x (hclaim.fresh.2 x hx).1]
    simp [hx]
  rw [walkDirectory,
    walkDirLoop_eq hok (settledWalk_walkDirectory hok fix n) l h₁.bpb hclosed hmarks
    (hclaim.length_lt hok), liveEntries_congr hok (fun x hx => (hclaim.fresh.2 x hx).1) h₁.data]

/-- Every chain of the trace is whole in `v`. -/
def Trace.AllClosed (v : Volume) (T : Trace) : Prop := ∀ p ∈ T, Closed v p.1.first p.2

theorem foldlM_follows {es : List DirEnt}
    (ih : ∀ {s : FsckState} {T e T'}, Surveys v n T e T' → Follows v s T →
      (fix = true ∨ T'.AllClosed v) → ∃ s', walkEnt (walkDirectory fix n) fix s e = some s' ∧
        Follows v s' T' ∧ (T'.AllClosed v → s'.crossLinks = s.crossLinks))
    (hsurvey : FoldRel (Surveys v n) T es T') (h : Follows v s T)
    (hfix : fix = true ∨ T'.AllClosed v) :
    ∃ s', es.foldlM (walkEnt (walkDirectory fix n) fix) s = some s' ∧ Follows v s' T' ∧
      (T'.AllClosed v → s'.crossLinks = s.crossLinks) := by
  induction es generalizing s T with
  | nil =>
    obtain rfl : T' = T := hsurvey
    exact ⟨s, rfl, h, fun _ => rfl⟩
  | cons e es ihes =>
    obtain ⟨T₁, h₁, h₂⟩ := hsurvey
    have hext : T₁ <+: T' := (foldRel_surveyed (fun _ _ _ => surveys_surveyed) h₂).extend
    have hsub : T'.AllClosed v → T₁.AllClosed v := fun hc p hp => hc p (hext.subset hp)
    obtain ⟨s₁, hw₁, hf₁, hl₁⟩ := ih h₁ h (hfix.imp_right hsub)
    obtain ⟨s₂, hw₂, hf₂, hl₂⟩ := ihes h₂ hf₁
    refine ⟨s₂, ?_, hf₂, fun hc => (hl₂ hc).trans (hl₁ (hsub hc))⟩
    rw [foldlM_cons, hw₁]
    exact hw₂

theorem walkEnt_follows (fix : Bool) (hok : v.bpb.Ok) (hsurvey : Surveys v n T e T')
    (h : Follows v s T) (hfix : fix = true ∨ T'.AllClosed v) :
    ∃ s', walkEnt (walkDirectory fix n) fix s e = some s' ∧ Follows v s' T' ∧
      (T'.AllClosed v → s'.crossLinks = s.crossLinks) := by
  induction n generalizing s T e T' with
  | zero => exact absurd hsurvey (by simp [Surveys])
  | succ n ih =>
    obtain ⟨l, hne, hclaim, hrest⟩ := hsurvey
    cases hdir : e.isDir with
    | false =>
      rw [hdir, if_neg (by simp)] at hrest
      subst hrest
      have hlast : Trace.AllClosed v (T ++ [(e, l)]) → Closed v e.first l :=
        fun hc => hc (e, l) (by simp)
      obtain ⟨hf, hlinks⟩ := h.chain hok hclaim hne (hfix.imp_right hlast)
      exact ⟨_, by rw [walkEnt, if_neg (by simp [hdir])], hf, fun hc => hlinks (hlast hc)⟩
    | true =>
      rw [hdir, if_pos rfl] at hrest
      have hext := (foldRel_surveyed (fun _ _ _ => surveys_surveyed) hrest).extend
      have hlast : T'.AllClosed v → Closed v e.first l :=
        fun hc => hc (e, l) (hext.subset (by simp))
      obtain ⟨hf, hlinks⟩ := h.chain hok hclaim hne (hfix.imp_right hlast)
      obtain ⟨s', hw, hf', hlinks'⟩ := foldlM_follows ih hrest hf hfix
      refine ⟨s', ?_, hf', fun hc => (hlinks' hc).trans (hlinks (hlast hc))⟩
      rw [walkEnt, if_pos hdir, h.directory hok hclaim hne (hfix.imp_right hlast), hw]

theorem Surveys.transfer (hok : v.bpb.Ok) (hb : w.bpb = v.bpb)
    (hdata : ∀ x, v.bpb.firstDataSector * 512 ≤ x → w.disk x = v.disk x)
    (hclaims : ∀ p ∈ T', ∀ xs, Claim v xs p.1.first p.2 → Claim w xs p.1.first p.2)
    (h : Surveys v n T e T') : Surveys w n T e T' := by
  induction n generalizing T e T' with
  | zero => exact absurd h (by simp [Surveys])
  | succ n ih =>
    obtain ⟨l, hne, hclaim, hrest⟩ := h
    cases hdir : e.isDir with
    | false =>
      rw [hdir, if_neg (by simp)] at hrest
      subst hrest
      exact ⟨l, hne, hclaims (e, l) (by simp) _ hclaim, by simp [hdir]⟩
    | true =>
      rw [hdir, if_pos rfl] at hrest
      have hext := (foldRel_surveyed (fun _ _ _ => surveys_surveyed) hrest).extend
      refine ⟨l, hne, hclaims (e, l) (hext.subset (by simp)) _ hclaim, ?_⟩
      rw [hdir, if_pos rfl, hb,
        liveEntries_congr hok (fun x hx => (hclaim.fresh.2 x hx).1) hdata]
      clear hext
      generalize liveEntries v.bpb v.disk l = es at hrest
      generalize T ++ [(e, l)] = T₀ at hrest
      induction es generalizing T₀ with
      | nil => exact hrest
      | cons f es ihes =>
        obtain ⟨T₁, h₁, h₂⟩ := hrest
        have hext := (foldRel_surveyed (fun _ _ _ => surveys_surveyed) h₂).extend
        exact ⟨T₁, ih (fun p hp => hclaims p (hext.subset hp)) h₁, ihes T₁ h₂⟩

/-! ### Where entries stand -/

def Inside (b : Bpb) (xs : List ℕ) (a : ℕ) : Prop := ∃ c ∈ xs, b.InRange c ∧ InCluster b c a

theorem not_inCluster_zero (hok : b.Ok) {c : ℕ} (hc : b.InRange c) : ¬ InCluster b c 0 := by
  have hstart := dataStart_le_clusterAddr hok hc
  have hboot := hok.bootBefore
  have hfats := hok.fatsBefore
  unfold InCluster
  omega

theorem mem_entryAddrs {a : ℕ} (ha : a ∈ entryAddrs b l) : ∃ c ∈ l, InCluster b c a := by
  obtain ⟨c, hc, hmap⟩ := mem_flatMap.mp ha
  obtain ⟨i, hi, rfl⟩ := mem_map.mp hmap
  have hlt := mem_range.mp hi
  refine ⟨c, hc, ?_, ?_⟩ <;> omega

theorem liveEnt_addr {a : ℕ} (h : liveEnt b m a = some e) : e.addr = a := by
  unfold liveEnt at h
  split at h
  · cases h
  · split at h
    · cases h
    · cases h
      rfl

theorem inside_of_mem_liveEntries
    (hl : ∀ x ∈ l, b.InRange x) (he : e ∈ liveEntries b m l) : Inside b l e.addr := by
  obtain ⟨a, ha, hlive⟩ := mem_filterMap.mp he
  obtain ⟨c, hc, hin⟩ := mem_entryAddrs (takeWhile_subset _ ha)
  rw [liveEnt_addr hlive]
  exact ⟨c, hc, hl c hc, hin⟩

theorem entryAddrs_nodup (hok : b.Ok) (hl : ∀ x ∈ l, b.InRange x)
    (hnd : l.Nodup) : (entryAddrs b l).Nodup := by
  refine nodup_flatMap.mpr ⟨?_, ?_⟩
  · intro c _
    refine List.Nodup.map ?_ nodup_range
    intro i j hij
    simp only at hij
    omega
  · refine hnd.imp_of_mem ?_
    intro c c' hc hc' hne a ha ha'
    have hone : ∀ d, a ∈ (List.range (b.bytesPerCluster / 32)).map (fun i =>
        clusterAddr b d + 32 * i) → InCluster b d a := by
      intro d hd
      obtain ⟨d', hd', hin⟩ := mem_entryAddrs (l := [d]) (by simpa [entryAddrs] using hd)
      rwa [mem_singleton.mp hd'] at hin
    exact hne (cluster_unique hok (hl c hc) (hl c' hc') (hone c ha) (hone c' ha'))

theorem liveEntries_nodup (hok : b.Ok)
    (hl : ∀ x ∈ l, b.InRange x) (hnd : l.Nodup) : (liveEntries b m l).Nodup := by
  refine List.Nodup.filterMap ?_ ((entryAddrs_nodup hok hl hnd).sublist (takeWhile_sublist _))
  intro a a' e he he'
  rw [← liveEnt_addr he, ← liveEnt_addr he']

/-! ### A walk that ends in single ownership -/

/-- `w` is the volume that the walk at `s` comes to in the end, as far as marked clusters go. -/
structure Final (s : FsckState) (w : Volume) : Prop where
  bpb : w.bpb = s.vol.bpb
  data : ∀ x, s.vol.bpb.firstDataSector * 512 ≤ x → w.disk x = s.vol.disk x
  fat : ∀ c, s.vol.bpb.InRange c → s.visited c → getFatEntry w c = getFatEntry s.vol c

theorem Settled.final (h : Settled s s') (hw : Final s' w) : Final s w where
  bpb := hw.bpb.trans h.bpb
  data := fun x hx => (hw.data x (by rw [h.bpb]; exact hx)).trans (h.data x hx)
  fat := fun c hr hc => (hw.fat c (by rw [h.bpb]; exact hr) (h.marks c hc)).trans (h.fat c hr hc)

theorem Follows.closed_final (h : Follows v s T) (hw : Final s w) : T.AllClosed w := by
  intro p hp
  refine (h.closed p hp).congr hw.bpb fun x hx => ?_
  have hr := (h.closed p hp).inRange x hx
  refine hw.fat x hr ((h.marks x ?_).mpr (mem_flatMap.mpr ⟨p, hp, hx⟩))
  rw [← h.bpb]
  exact hr

/-- Every entry of the trace owns its chain in `w`, and stands in a directory of the trace. -/
structure Charted (w : Volume) (T : Trace) : Prop where
  owner : ∀ p ∈ T, Owner w p.1
  placed : ∀ p ∈ T, p.1.addr = 0 ∨ Inside w.bpb T.claimed p.1.addr

/-- The entries that `T'` has more than `T`, apart from `es`, stand in clusters that `T` did not
claim. -/
def Grown (b : Bpb) (T : Trace) (es : List DirEnt) (T' : Trace) : Prop :=
  ∀ p ∈ T', p ∈ T ∨ p.1 ∈ es ∨ ∃ c, c ∉ T.claimed ∧ b.InRange c ∧ InCluster b c p.1.addr

theorem Inside.mono {xs ys : List ℕ} {a : ℕ} (h : Inside b xs a) (hsub : xs ⊆ ys) :
    Inside b ys a := by
  obtain ⟨c, hc, hin⟩ := h
  exact ⟨c, hsub hc, hin⟩

theorem Trace.claimed_subset (h : T <+: T') : T.claimed ⊆ T'.claimed := by
  obtain ⟨T₁, rfl⟩ := h
  rw [Trace.claimed_append]
  exact subset_append_left _ _

/-- What a completed walk of an entry has to say when it ends in single ownership. -/
def Charts (v w : Volume) (n : ℕ) : Prop :=
  ∀ {s : FsckState} {T : Trace} {e : DirEnt} {s' : FsckState},
    walkEnt (walkDirectory true n) true s e = some s' → Final s' w → Follows v s T → Charted w T →
    v.bpb.InRange e.first → Owner w e → (e.addr = 0 ∨ Inside w.bpb T.claimed e.addr) →
    (∀ p ∈ T, p.1 ≠ e) →
    ∃ T', Surveys v (n + 1) T e T' ∧ Follows v s' T' ∧ Charted w T' ∧ Grown w.bpb T [e] T'

theorem charts_foldlM (hok : v.bpb.Ok) (hcharts : Charts v w n) {es : List DirEnt}
    (hwalk : es.foldlM (walkEnt (walkDirectory true n) true) s = some s') (hw : Final s' w)
    (h : Follows v s T) (hT : Charted w T) (hnd : es.Nodup)
    (hes : ∀ e ∈ es, v.bpb.InRange e.first ∧ Owner w e ∧ Inside w.bpb T.claimed e.addr ∧
      ∀ p ∈ T, p.1 ≠ e) :
    ∃ T', FoldRel (Surveys v (n + 1)) T es T' ∧ Follows v s' T' ∧ Charted w T' ∧
      Grown w.bpb T es T' := by
  induction es generalizing s T with
  | nil =>
    cases hwalk
    exact ⟨T, rfl, h, hT, fun p hp => .inl hp⟩
  | cons e es ih =>
    rw [foldlM_cons] at hwalk
    obtain ⟨s₁, hwalk₁, hwalk₂⟩ := Option.bind_eq_some_iff.mp hwalk
    have hset := settledWalk_walkDirectory hok true n
    have hb₁ := (walkEnt_settled hok hset h.bpb hwalk₁).bpb.trans h.bpb
    have hw₁ : Final s₁ w := (foldlM_walkEnt_settled hok hset hb₁ hwalk₂).final hw
    have hbw : w.bpb = v.bpb := hw₁.bpb.trans hb₁
    obtain ⟨hr, ho, hin, hnew⟩ := hes e mem_cons_self
    obtain ⟨T₁, hsurvey₁, h₁, hT₁, hgrown₁⟩ := hcharts hwalk₁ hw₁ h hT hr ho (.inr hin) hnew
    have hext := (surveys_surveyed hsurvey₁).extend
    rw [nodup_cons] at hnd
    have hes' : ∀ f ∈ es, v.bpb.InRange f.first ∧ Owner w f ∧ Inside w.bpb T₁.claimed f.addr ∧
        ∀ p ∈ T₁, p.1 ≠ f := by
      intro f hf
      obtain ⟨hrf, hof, hinf, hnewf⟩ := hes f (mem_cons_of_mem e hf)
      refine ⟨hrf, hof, hinf.mono (Trace.claimed_subset hext), ?_⟩
      rintro p hp rfl
      rcases hgrown₁ p hp with hold | heq | ⟨c, hc, hrc, hac⟩
      · exact hnewf p hold rfl
      · rw [mem_singleton.mp heq] at hf
        exact hnd.1 hf
      · -- its cluster was claimed before, the others came into new ones
        obtain ⟨c', hc', hrc', hac'⟩ := hinf
        rw [cluster_unique (hbw ▸ hok) hrc hrc' hac hac'] at hc
        exact hc hc'
    obtain ⟨T', hsurvey, h', hT', hgrown⟩ := ih hwalk₂ h₁ hT₁ hnd.2 hes'
    refine ⟨T', ⟨T₁, hsurvey₁, hsurvey⟩, h', hT', ?_⟩
    intro p hp
    rcases hgrown p hp with hp₁ | hmem | ⟨c, hc, hrc, hac⟩
    · rcases hgrown₁ p hp₁ with hold | heq | hfar
      · exact .inl hold
      · exact .inr (.inl (mem_singleton.mp heq ▸ mem_cons_self))
      · exact .inr (.inr hfar)
    · exact .inr (.inl (mem_cons_of_mem e hmem))
    · exact .inr (.inr ⟨c, fun hmem => hc (Trace.claimed_subset hext hmem), hrc, hac⟩)

theorem claim_of_singleOwner (hsingle : SingleOwner w) (h : Follows v s T) (hw : Final s w)
    (hT : Charted w T) (hr : v.bpb.InRange e.first) (ho : Owner w e) (hnew : ∀ p ∈ T, p.1 ≠ e) :
    ∃ l, l ≠ [] ∧ Claim v T.claimed e.first l := by
  obtain ⟨l, hl⟩ := exists_claim v T.claimed e.first
  refine ⟨l, ?_, hl⟩
  rintro rfl
  rcases hl with hn | hmem
  · exact hn hr
  obtain ⟨p, hp, hpe⟩ := mem_flatMap.mp hmem
  have hon : OnChain w p.1.first e.first := (onChain_iff (h.closed_final hw p hp)).mpr hpe
  have hself : OnChain w e.first e.first :=
    ⟨[e.first], ⟨rfl, by rw [hw.bpb, h.bpb]; exact hr, trivial⟩, mem_cons_self⟩
  exact hnew p hp (hsingle p.1 e e.first (hT.owner p hp) ho hon hself)

theorem Charted.append (hT : Charted w T) (ho : Owner w e)
    (hplaced : e.addr = 0 ∨ Inside w.bpb T.claimed e.addr) : Charted w (T ++ [(e, l)]) := by
  have hsub : T.claimed ⊆ Trace.claimed (T ++ [(e, l)]) :=
    Trace.claimed_subset (prefix_append _ _)
  refine ⟨?_, ?_⟩
  · intro p hp
    rcases mem_append.mp hp with hp | hp
    · exact hT.owner p hp
    · obtain rfl := mem_singleton.mp hp
      exact ho
  · intro p hp
    rcases mem_append.mp hp with hp | hp
    · exact (hT.placed p hp).imp_right (·.mono hsub)
    · obtain rfl := mem_singleton.mp hp
      exact hplaced.imp_right (·.mono hsub)

theorem charts_of_singleOwner (hok : v.bpb.Ok) (hsingle : SingleOwner w) (n : ℕ) :
    Charts v w n := by
  have hset := settledWalk_walkDirectory hok true
  have hfile : ∀ n, ∀ {s : FsckState} {T e s'}, e.isDir = false →
      walkEnt (walkDirectory true n) true s e = some s' → Final s' w → Follows v s T →
      Charted w T → v.bpb.InRange e.first → Owner w e →
      (e.addr = 0 ∨ Inside w.bpb T.claimed e.addr) → (∀ p ∈ T, p.1 ≠ e) →
      ∃ T', Surveys v (n + 1) T e T' ∧ Follows v s' T' ∧ Charted w T' ∧ Grown w.bpb T [e] T' := by
    intro n s T e s' hdir hwalk hw h hT hr ho hplaced hnew
    have hws := (walkEnt_settled hok (hset n) h.bpb hwalk).final hw
    obtain ⟨l, hne, hclaim⟩ := claim_of_singleOwner hsingle h hws hT hr ho hnew
    rw [walkEnt, if_neg (by simp [hdir])] at hwalk
    cases hwalk
    refine ⟨T ++ [(e, l)], ⟨l, hne, hclaim, by simp [hdir]⟩,
      (h.chain hok hclaim hne (.inl rfl)).1, hT.append ho hplaced, ?_⟩
    intro p hp
    rcases mem_append.mp hp with hp | hp
    · exact .inl hp
    · obtain rfl := mem_singleton.mp hp
      exact .inr (.inl mem_cons_self)
  induction n with
  | zero =>
    intro s T e s' hwalk
    cases hdir : e.isDir with
    | false => exact hfile 0 hdir hwalk
    | true =>
      rw [walkEnt, if_pos hdir] at hwalk
      cases hwalk
  | succ n ih =>
    intro s T e s' hwalk hw h hT hr ho hplaced hnew
    cases hdir : e.isDir with
    | false => exact hfile (n + 1) hdir hwalk hw h hT hr ho hplaced hnew
    | true =>
      have hws := (walkEnt_settled hok (hset (n + 1)) h.bpb hwalk).final hw
      have hbw : w.bpb = v.bpb := hws.bpb.trans h.bpb
      obtain ⟨l, hne, hclaim⟩ := claim_of_singleOwner hsingle h hws hT hr ho hnew
      have hl : ∀ x ∈ l, w.bpb.InRange x := by
        intro x hx
        rw [hbw]
        exact (hclaim.fresh.2 x hx).1
      rw [walkEnt, if_pos hdir, h.directory hok hclaim hne (.inl rfl)] at hwalk
      have h₁ : Follows v (walkChain true s e.first) (T ++ [(e, l)]) :=
        (h.chain hok hclaim hne (.inl rfl)).1
      have hw₁ := (foldlM_walkEnt_settled hok (hset n) h₁.bpb hwalk).final hw
      have hentries : liveEntries v.bpb v.disk l = liveEntries w.bpb w.disk l := by
        rw [hbw]
        refine (liveEntries_congr hok (hbw ▸ hl) fun x hx => ?_).symm
        exact (hw₁.data x (by rw [h₁.bpb]; exact hx)).trans (h₁.data x hx)
      have hchain : ChainPrefix w e.first l :=
        (h₁.closed_final hw₁ (e, l) (by simp)).chainPrefix
      have hT₁ : Charted w (T ++ [(e, l)]) := hT.append ho hplaced
      -- the entries of the new clusters are none of the trace
      have hapart : ∀ {f : DirEnt}, Inside w.bpb l f.addr →
          ¬ (f.addr = 0 ∨ Inside w.bpb T.claimed f.addr) := by
        rintro f ⟨c, hc, hrc, hac⟩ (hzero | ⟨c', hc', hrc', hac'⟩)
        · rw [hzero] at hac
          exact not_inCluster_zero (hbw ▸ hok) hrc hac
        · rw [cluster_unique (hbw ▸ hok) hrc hrc' hac hac'] at hc
          exact (hclaim.fresh.2 c' hc).2 hc'
      have hes : ∀ f ∈ liveEntries v.bpb v.disk l, v.bpb.InRange f.first ∧ Owner w f ∧
          Inside w.bpb (Trace.claimed (T ++ [(e, l)])) f.addr ∧
          ∀ p ∈ T ++ [(e, l)], p.1 ≠ f := by
        intro f hf
        have hin : Inside w.bpb l f.addr := by
          rw [hentries] at hf
          exact inside_of_mem_liveEntries hl hf
        refine ⟨liveEntries_inRange hf, Owner.child ho hdir hchain (hentries ▸ hf), ?_, ?_⟩
        · refine hin.mono ?_
          simp
        · rintro p hp rfl
          rcases mem_append.mp hp with hp | hp
          · exact hapart hin (hT.placed p hp)
          · obtain rfl := mem_singleton.mp hp
            exact hapart hin hplaced
      have hnodup : (liveEntries v.bpb v.disk l).Nodup :=
        liveEntries_nodup hok (hbw ▸ hl) hclaim.fresh.1
      obtain ⟨T', hsurvey, h', hT', hgrown⟩ :=
        charts_foldlM hok ih hwalk hw h₁ hT₁ hnodup hes
      refine ⟨T', ⟨l, hne, hclaim, by rw [if_pos hdir]; exact hsurvey⟩, h', hT', ?_⟩
      intro p hp
      rcases hgrown p hp with hp | hf | ⟨c, hc, hrc, hac⟩
      · rcases mem_append.mp hp with hp | hp
        · exact .inl hp
        · obtain rfl := mem_singleton.mp hp
          exact .inr (.inl mem_cons_self)
      · rw [hentries] at hf
        obtain ⟨c, hc, hrc, hac⟩ := inside_of_mem_liveEntries hl hf
        exact .inr (.inr ⟨c, (hclaim.fresh.2 c hc).2, hrc, hac⟩)
      · refine .inr (.inr ⟨c, fun hmem => hc ?_, hrc, hac⟩)
        exact Trace.claimed_subset (prefix_append _ _) hmem

end ImpossibleOs.Fat32
