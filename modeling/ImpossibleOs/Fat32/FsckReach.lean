import ImpossibleOs.Fat32.FsckRun

/-!
What a complete walk marks.

The walk of the checker reaches every entry of the tree when no directory is
cut: wherever the chain of a directory meets another chain, it is the rest of
that chain (`DirsWhole`). Then the marked clusters are exactly the clusters of
the tree, and only links to clusters have been changed.
-/

namespace ImpossibleOs.Fat32

open ByteMem List Bool

variable {v w : Volume} {c : ℕ} {s s' : FsckState}

/-! ### The chain from a cluster on -/

/-- The clusters from `c` on, each once. -/
def Path (v : Volume) (c : ℕ) (p : List ℕ) : Prop := Claim v [] c p

theorem exists_path (v : Volume) (c : ℕ) : ∃ p, Path v c p := exists_claim v [] c

theorem Claim.compare (xs : List ℕ) {ys zs l p : List ℕ} (hl : Claim v zs c l) (hp : Claim v ys c p)
    (hmem : ∀ x, x ∈ zs ↔ x ∈ xs ∨ x ∈ ys) :
    ∃ r, p = l ++ r ∧ (r = [] ∨ ∃ y r', r = y :: r' ∧ y ∈ xs) := by
  induction l generalizing c ys zs p with
  | nil =>
    refine ⟨p, rfl, ?_⟩
    cases p with
    | nil => exact .inl rfl
    | cons d p =>
      obtain ⟨rfl, hr, hn, -⟩ := hp
      rcases hl with hout | htaken
      · exact absurd hr hout
      · exact .inr ⟨d, p, rfl, ((hmem d).mp htaken).resolve_right hn⟩
  | cons d l ih =>
    obtain ⟨rfl, hr, hn, hl'⟩ := hl
    have hny : d ∉ ys := fun hy => hn ((hmem d).mpr (.inr hy))
    cases p with
    | nil =>
      rcases hp with hout | htaken
      · exact absurd hr hout
      · exact absurd htaken hny
    | cons d' p =>
      obtain ⟨rfl, -, -, hp'⟩ := hp
      obtain ⟨r, rfl, hcase⟩ := ih hl' hp' fun x => by
        rw [mem_cons, mem_cons, hmem]
        tauto
      exact ⟨r, rfl, hcase⟩

theorem Path.unique {p p' : List ℕ} (h : Path v c p) (h' : Path v c p') : p = p' := by
  obtain ⟨r, rfl, hr⟩ := Claim.compare [] h h' (by simp)
  rcases hr with rfl | ⟨y, r', -, hy⟩
  · rw [append_nil]
  · simp at hy

variable {e : DirEnt} {ys p : List ℕ}

theorem Claim.subset {V : ℕ → Prop} (hp : Claim v ys c p)
    (hclosed : ∀ x, v.bpb.InRange x → V x → v.bpb.InRange (getFatEntry v x) →
      V (getFatEntry v x)) (hc : v.bpb.InRange c → V c) : ∀ x ∈ p, V x := by
  induction p generalizing c ys with
  | nil => simp
  | cons d p ih =>
    obtain ⟨rfl, hr, -, hp'⟩ := hp
    intro x hx
    rcases mem_cons.mp hx with rfl | hx
    · exact hc hr
    · exact ih hp' (fun hnext => hclosed d hr (hc hr) hnext) x hx

theorem Claim.links (hp : Claim v ys c p) {x : ℕ} (hx : x ∈ p)
    (hnext : v.bpb.InRange (getFatEntry v x)) : getFatEntry v x ∈ p ∨ getFatEntry v x ∈ ys := by
  induction p generalizing c ys with
  | nil => simp at hx
  | cons d p ih =>
    obtain ⟨rfl, hr, -, hp'⟩ := hp
    rcases mem_cons.mp hx with rfl | hx
    · cases p with
      | nil =>
        rcases hp' with hout | htaken
        · exact absurd hnext hout
        · rcases mem_cons.mp htaken with heq | htaken
          · exact .inl (by rw [heq]; exact mem_cons_self)
          · exact .inr htaken
      | cons d' p =>
        obtain ⟨rfl, -⟩ := hp'
        exact .inl (mem_cons_of_mem _ mem_cons_self)
    · rcases ih hp' hx with hmem | hmem
      · exact .inl (mem_cons_of_mem _ hmem)
      · rcases mem_cons.mp hmem with heq | hmem
        · exact .inl (by rw [heq]; exact mem_cons_self)
        · exact .inr hmem

theorem Path.links {p : List ℕ} (hp : Path v c p) {x : ℕ} (hx : x ∈ p)
    (hnext : v.bpb.InRange (getFatEntry v x)) : getFatEntry v x ∈ p :=
  (Claim.links hp hx hnext).resolve_right (by simp)

theorem Claim.chainPrefix (hp : Claim v ys c p) : ChainPrefix v c p := by
  induction p generalizing c ys with
  | nil => trivial
  | cons d p ih =>
    obtain ⟨rfl, hr, -, hp'⟩ := hp
    exact ⟨rfl, hr, ih hp'⟩

theorem ChainPrefix.subset {l p : List ℕ} (hl : ChainPrefix v c l) (hp : Path v c p) :
    ∀ x ∈ l, x ∈ p := by
  have hmain : ∀ l d, ChainPrefix v d l → (v.bpb.InRange d → d ∈ p) → ∀ x ∈ l, x ∈ p := by
    intro l
    induction l with
    | nil => simp
    | cons d' l ih =>
      rintro d ⟨rfl, hr, hl⟩ hd x hx
      rcases mem_cons.mp hx with rfl | hx
      · exact hd hr
      · exact ih _ hl (fun hnext => hp.links (hd hr) hnext) x hx
  refine hmain l c hl fun hr => ?_
  exact Claim.head_mem hp (Claim.ne_nil hp hr (by simp))

theorem onChain_iff_path {p : List ℕ} (hp : Path v c p) {d : ℕ} : OnChain v c d ↔ d ∈ p := by
  constructor
  · rintro ⟨l, hl, hd⟩
    exact hl.subset hp d hd
  · intro hd
    exact ⟨p, Claim.chainPrefix hp, hd⟩

theorem ChainPrefix.compare {ys l p : List ℕ} (hl : ChainPrefix v c l) (hp : Claim v ys c p) :
    l <+: p ∨ p <+: l := by
  induction l generalizing c ys p with
  | nil => exact .inl nil_prefix
  | cons d l ih =>
    obtain ⟨rfl, -, hl'⟩ := hl
    cases p with
    | nil => exact .inr nil_prefix
    | cons d' p =>
      obtain ⟨rfl, -, -, hp'⟩ := hp
      exact (ih hl' hp').imp (prefix_cons_inj _).mpr (prefix_cons_inj _).mpr

theorem ChainPrefix.liveEntries {b : Bpb} {m : ByteMem} {l p : List ℕ}
    (hl : ChainPrefix v c l) (hp : Path v c p) (he : e ∈ liveEntries b m l) :
    e ∈ liveEntries b m p := by
  rcases hl.compare hp with hpre | ⟨r, rfl⟩
  · exact mem_liveEntries_mono hpre he
  · obtain ⟨a, ha, hlive⟩ := mem_filterMap.mp he
    refine mem_filterMap.mpr ⟨a, ?_, hlive⟩
    have happ : entryAddrs b (p ++ r) = entryAddrs b p ++ entryAddrs b r := by
      simp [entryAddrs]
    rw [happ] at ha
    by_cases hall : ∀ a ∈ entryAddrs b p, decide (m a ≠ 0x00) = true
    · rw [takeWhile_append_of_pos hall] at ha
      rw [takeWhile_eq_self_iff.mpr hall]
      rcases mem_append.mp ha with ha | ha
      · exact ha
      · obtain ⟨d, hd, hda⟩ := mem_flatMap.mp (takeWhile_subset _ ha)
        exact mem_flatMap.mpr ⟨d, hl.subset hp d (mem_append_right p hd), hda⟩
    · rw [takeWhile_append, if_neg] at ha
      · exact ha
      · intro hlen
        have hself := (takeWhile_sublist _).eq_of_length hlen
        exact hall (takeWhile_eq_self_iff.mp hself)

theorem Closed.append {p r : List ℕ} {d : ℕ} (h : Closed v c (p ++ d :: r)) :
    Closed v d (d :: r) := by
  induction p generalizing c with
  | nil =>
    obtain ⟨rfl, hr, h'⟩ := h
    exact ⟨rfl, hr, h'⟩
  | cons d' p ih => exact ih h.2.2

theorem claimEnd_eq {ys l : List ℕ} (h : Claim v ys c l) (hne : l ≠ []) (k : ℕ) :
    claimEnd v c l = getFatEntry v (l.getLastD k) := by
  induction l generalizing c ys k with
  | nil => exact absurd rfl hne
  | cons d l ih =>
    obtain ⟨rfl, -, -, hl⟩ := h
    rw [claimEnd]
    cases l with
    | nil => rw [claimEnd, getLastD_cons, getLastD_nil]
    | cons d' l =>
      rw [getLastD_cons]
      exact ih hl (by simp) d

/-! ### Marked clusters -/

/-- Where the chain of a directory meets that of another entry, it is the rest of it. -/
def DirsWhole (v : Volume) : Prop :=
  ∀ e e' p p', Owner v e → e.isDir = true → Owner v e' → Path v e.first p → Path v e'.first p' →
    (∃ x ∈ p, x ∈ p') → p <:+ p'

/-- A change of the FAT that only ends chains. -/
def Cuts (v w : Volume) : Prop :=
  ∀ c, v.bpb.InRange c → getFatEntry w c = getFatEntry v c ∨
    (v.bpb.InRange (getFatEntry v c) ∧ getFatEntry w c = eocMark)

theorem Cuts.refl (v : Volume) : Cuts v v := fun _ _ => .inl rfl

theorem Cuts.trans {u : Volume} (hok : v.bpb.Ok) (hb : w.bpb = v.bpb) (h : Cuts v w)
    (h' : Cuts w u) : Cuts v u := by
  intro c hc
  rcases h' c (hb ▸ hc) with heq | ⟨hin, heq⟩
  · rw [heq]
    exact h c hc
  · rcases h c hc with hsame | ⟨-, hcut⟩
    · rw [hsame, hb] at hin
      exact .inr ⟨hin, heq⟩
    · rw [hcut, hb] at hin
      exact absurd hin (not_inRange_eocMark hok)

theorem walkChain_cases (hok : v.bpb.Ok) (hb : s.vol.bpb = v.bpb)
    (hfresh : ∀ c, v.bpb.InRange c → s.visited c = false → getFatEntry s.vol c = getFatEntry v c)
    {l : List ℕ} (hclaim : Claim v s.marked c l) :
    (∀ x, (walkChain true s c).visited x = true ↔ s.visited x = true ∨ x ∈ l) ∧
      ((¬ v.bpb.InRange (claimEnd v c l) ∨ l = []) ∧ (walkChain true s c).vol = s.vol ∨
        v.bpb.InRange (claimEnd v c l) ∧ l ≠ [] ∧
          (walkChain true s c).vol = setFatEntry s.vol (l.getLastD 0) eocMark) := by
  have hvis : ∀ x, v.bpb.InRange x → (s.visited x ↔ x ∈ s.marked) := by
    intro x hx
    exact mem_marked (hb ▸ hx)
  have hfat : ∀ x ∈ l, getFatEntry s.vol x = getFatEntry v x := by
    intro x hx
    obtain ⟨hr, hn⟩ := hclaim.fresh.2 x hx
    refine hfresh x hr ?_
    rw [eq_false_iff]
    exact fun hv => hn ((hvis x hr).mp hv)
  obtain ⟨hmarks, hend, hcut⟩ := walkChainLoop_spec true hok s.marked l c 0 chainFuel s hb hvis
    hclaim hfat (hclaim.length_lt hok)
  refine ⟨hmarks, ?_⟩
  by_cases hr : v.bpb.InRange (claimEnd v c l)
  · have hvol := (hcut hr).2
    change (walkChain true s c).vol = cutLink true s.vol (l.getLastD 0) at hvol
    by_cases hne : l = []
    · left
      refine ⟨.inr hne, ?_⟩
      rw [hvol, hne, cutLink, if_neg (by simp)]
    · right
      have hlast := (hclaim.fresh.2 _ (getLastD_mem 0 hne)).1.1
      refine ⟨hr, hne, ?_⟩
      rw [hvol, cutLink, if_pos ⟨rfl, by omega⟩]
  · exact .inl ⟨.inl hr, (hend hr).1⟩

theorem cuts_walkChain (hok : s.vol.bpb.Ok) (c : ℕ) : Cuts s.vol (walkChain true s c).vol := by
  obtain ⟨l, hl⟩ := exists_claim s.vol s.marked c
  rcases (walkChain_cases hok rfl (fun _ _ _ => rfl) hl).2 with ⟨-, hvol⟩ | ⟨hr, hne, hvol⟩
  · rw [hvol]
    exact Cuts.refl _
  · intro x hx
    have hlast := (hl.fresh.2 _ (getLastD_mem 0 hne)).1
    rw [hvol]
    by_cases hxl : x = l.getLastD 0
    · right
      rw [hxl, ← claimEnd_eq hl hne, getFatEntry_setFatEntry_same hok hlast.2 (by decide)]
      exact ⟨hr, rfl⟩
    · exact .inl (getFatEntry_setFatEntry_other hok hlast.2 hx.2 hxl)

/-- The state of a walk over `v`: marks are closed under links and stand on chains of the tree,
unmarked clusters are as they were, and directories with a marked first cluster are whole. -/
structure Marked (v : Volume) (s : FsckState) : Prop where
  bpb : s.vol.bpb = v.bpb
  data : ∀ x, v.bpb.firstDataSector * 512 ≤ x → s.vol.disk x = v.disk x
  fresh : ∀ c, v.bpb.InRange c → s.visited c = false → getFatEntry s.vol c = getFatEntry v c
  cuts : Cuts v s.vol
  links : ∀ c, v.bpb.InRange c → s.visited c → v.bpb.InRange (getFatEntry v c) →
    s.visited (getFatEntry v c)
  owned : ∀ c, v.bpb.InRange c → s.visited c →
    ∃ e p, Owner v e ∧ Path v e.first p ∧ c ∈ p ∧ ∀ x ∈ p, s.visited x
  dirs : ∀ e p, Owner v e → e.isDir = true → s.visited e.first → Path v e.first p →
    Closed s.vol e.first p

theorem Marked.subset (h : Marked v s) {p : List ℕ} (hp : Path v c p)
    (hc : v.bpb.InRange c → s.visited c) : ∀ x ∈ p, s.visited x :=
  Claim.subset hp (V := fun x => s.visited x) h.links hc

theorem Marked.claim_fresh (h : Marked v s) {ys l : List ℕ} (hl : Claim v ys c l)
    (hys : ∀ x, v.bpb.InRange x → s.visited x → x ∈ ys) :
    ∀ x ∈ l, getFatEntry s.vol x = getFatEntry v x := by
  intro x hx
  obtain ⟨hr, hn⟩ := hl.fresh.2 x hx
  refine h.fresh x hr ?_
  rw [eq_false_iff]
  exact fun hv => hn (hys x hr hv)

theorem Marked.whole (h : Marked v s) (hdirs : DirsWhole v) {e e' : DirEnt} (ho : Owner v e)
    (ho' : Owner v e') (hdir : e'.isDir = true) {l p p' : List ℕ}
    (hl : Claim v s.marked e.first l) (hp : Path v e.first p) (hp' : Path v e'.first p')
    (hmem : e'.first ∈ l) : l = p ∧ p' <:+ p := by
  obtain ⟨r, rfl, hr⟩ := Claim.compare s.marked hl hp (by simp)
  have hrange := (hl.fresh.2 _ hmem).1
  have hne' : p' ≠ [] := Claim.ne_nil hp' hrange (by simp)
  have hfirst : e'.first ∈ p' := Claim.head_mem hp' hne'
  have hsuffix : p' <:+ l ++ r :=
    hdirs e' e p' (l ++ r) ho' hdir ho hp' hp ⟨e'.first, hfirst, mem_append_left r hmem⟩
  rcases hr with rfl | ⟨y, r', rfl, hy⟩
  · rw [append_nil] at hsuffix ⊢
    exact ⟨rfl, hsuffix⟩
  · exfalso
    -- the first mark `y` that the walk meets lies on the chain of the directory
    have hymem : y ∈ p' := by
      obtain ⟨pre, hpre⟩ := hsuffix
      obtain ⟨l₁, l₂, rfl⟩ := append_of_mem hmem
      cases p' with
      | nil => exact absurd rfl hne'
      | cons d p' =>
        obtain ⟨rfl, -⟩ := hp'
        have hnd := (Claim.fresh hp).1
        rw [append_assoc, cons_append] at hpre hnd
        rw [← hpre, nodup_middle, nodup_cons] at hnd
        have hinj := append_cons_inj_of_notMem
          (fun hin => hnd.1 (mem_append_left _ hin))
          (fun hin => hnd.1 (mem_append_right _ hin)) |>.mp hpre
        rw [hinj.2.2]
        simp
    have hyr := ((Claim.fresh hp).2 y (mem_append_right l mem_cons_self)).1
    obtain ⟨e'', p'', ho'', hp'', hyp, hall⟩ := h.owned y hyr
      ((mem_marked (h.bpb ▸ hyr)).mpr hy)
    have hsuf := hdirs e' e'' p' p'' ho' hdir ho'' hp' hp'' ⟨y, hymem, hyp⟩
    have hmarked := hall e'.first (hsuf.subset hfirst)
    exact (hl.fresh.2 _ hmem).2 ((mem_marked (h.bpb ▸ hrange)).mp hmarked)

theorem Marked.chain (hok : v.bpb.Ok) (hdirs : DirsWhole v) (h : Marked v s) (ho : Owner v e) :
    Marked v (walkChain true s e.first) ∧
      (v.bpb.InRange e.first → (walkChain true s e.first).visited e.first) := by
  obtain ⟨l, hl⟩ := exists_claim v s.marked e.first
  obtain ⟨p, hp⟩ := exists_path v e.first
  obtain ⟨hmarks, hvol⟩ := walkChain_cases hok h.bpb h.fresh hl
  set s' := walkChain true s e.first
  have hmem : ∀ x, v.bpb.InRange x → (s.visited x ↔ x ∈ s.marked) :=
    fun x hx => mem_marked (h.bpb ▸ hx)
  have hset : Settled s s' := settled_walkChain true (h.bpb ▸ hok) e.first
  have hb : s'.vol.bpb = v.bpb := hset.bpb.trans h.bpb
  have hfirst : v.bpb.InRange e.first → s'.visited e.first := by
    intro hr
    rw [hmarks]
    by_cases hv : s.visited e.first
    · exact .inl hv
    · exact .inr (hl.head_mem (hl.ne_nil hr fun hin => hv ((hmem _ hr).mpr hin)))
  have hlinks : ∀ c, v.bpb.InRange c → s'.visited c → v.bpb.InRange (getFatEntry v c) →
      s'.visited (getFatEntry v c) := by
    intro c hc hvis hnext
    rw [hmarks] at hvis ⊢
    rcases hvis with hvis | hcl
    · exact .inl (h.links c hc hvis hnext)
    · rcases hl.links hcl hnext with hin | hin
      · exact .inr hin
      · exact .inl ((hmem _ hnext).mpr hin)
  have hsub : ∀ x ∈ p, s'.visited x := Claim.subset hp (V := fun x => s'.visited x) hlinks hfirst
  refine ⟨⟨hb, ?_, ?_, ?_, hlinks, ?_, ?_⟩, hfirst⟩
  · intro x hx
    rw [hset.data x (by rw [h.bpb]; exact hx)]
    exact h.data x hx
  · intro c hc hnot
    have hold : s.visited c = false := by
      rw [eq_false_iff] at hnot ⊢
      exact fun hv => hnot (hset.marks c hv)
    rcases hvol with ⟨-, hvol⟩ | ⟨-, hne, hvol⟩
    · rw [hvol]
      exact h.fresh c hc hold
    · have hin := getLastD_mem 0 hne
      have hlast := (hl.fresh.2 _ hin).1
      rw [hvol, getFatEntry_setFatEntry_other (h.bpb ▸ hok) (h.bpb ▸ hlast.2) (h.bpb ▸ hc.2)]
      · exact h.fresh c hc hold
      · rintro rfl
        rw [eq_false_iff] at hnot
        exact hnot ((hmarks _).mpr (.inr hin))
  · exact h.cuts.trans hok h.bpb (cuts_walkChain (h.bpb ▸ hok) e.first)
  · intro c hc hvis
    rw [hmarks] at hvis
    rcases hvis with hvis | hcl
    · obtain ⟨e', p', ho', hp', hcp, hall⟩ := h.owned c hc hvis
      exact ⟨e', p', ho', hp', hcp, fun x hx => hset.marks x (hall x hx)⟩
    · obtain ⟨r, rfl, -⟩ := Claim.compare s.marked hl hp (by simp)
      exact ⟨e, l ++ r, ho, hp, mem_append_left r hcl, hsub⟩
  · intro e' p' ho' hdir hvis hp'
    rw [hmarks] at hvis
    rcases hvis with hvis | hin
    · -- the directory was whole before, and its clusters are marked
      have hclosed := h.dirs e' p' ho' hdir hvis hp'
      refine hclosed.congr hset.bpb fun x hx => ?_
      exact hset.fat x (hclosed.inRange x hx) (h.subset hp' (fun _ => hvis) x hx)
    · obtain ⟨rfl, pre, hpre⟩ := h.whole hdirs ho ho' hdir hl hp hp' hin
      have hfat := h.claim_fresh hl fun x hx hv => (hmem x hx).mp hv
      have hwhole : Closed s'.vol e.first l := by
        rcases hvol with ⟨hend, hvol⟩ | ⟨-, hne, hvol⟩
        · rw [hvol]
          refine Closed.congr (hl.closed_iff.mpr ?_) h.bpb hfat
          rcases hend with hend | rfl
          · exact hend
          · simp at hin
        · rw [hvol]
          exact hl.closed_cut (h.bpb ▸ hok) hne h.bpb hfat
      cases p' with
      | nil => exact absurd rfl (Claim.ne_nil hp' (hl.fresh.2 _ hin).1 (by simp))
      | cons d p' =>
        obtain ⟨rfl, -⟩ := hp'
        rw [← hpre] at hwhole
        exact hwhole.append

/-! ### Everything below an entry -/

/-- Entry `e'` is `e` or stands somewhere below it. -/
inductive Below (v : Volume) : DirEnt → DirEnt → Prop
  | refl (e : DirEnt) : Below v e e
  | step {e e₁ e' : DirEnt} {l : List ℕ} (hdir : e.isDir = true) (hl : ChainPrefix v e.first l)
      (he : e₁ ∈ liveEntries v.bpb v.disk l) (hrest : Below v e₁ e') : Below v e e'

theorem Below.child {e o e' : DirEnt} {l : List ℕ} (h : Below v e o) (hdir : o.isDir = true)
    (hl : ChainPrefix v o.first l) (he : e' ∈ liveEntries v.bpb v.disk l) : Below v e e' := by
  induction h with
  | refl e => exact .step hdir hl he (.refl e')
  | step hdir' hl' he' _ ih => exact .step hdir' hl' he' (ih hdir hl)

theorem below_root (h : Owner v e) : Below v (rootEnt v.bpb) e := by
  induction h with
  | root => exact .refl _
  | child _ hdir hl he ih => exact ih.child hdir hl he

/-- A walk that marks the first clusters of all that is below an entry. -/
def Reaches (v : Volume) (s s' : FsckState) (e : DirEnt) : Prop :=
  Marked v s' ∧ Settled s s' ∧
    ∀ e', Below v e e' → v.bpb.InRange e'.first → s'.visited e'.first

theorem foldlM_reaches {n : ℕ} (hok : v.bpb.Ok) (hdirs : DirsWhole v)
    (ih : ∀ {s s' : FsckState} {e : DirEnt}, Marked v s → Owner v e → e.isDir = true →
      walkDirectory true n s e.first = some s' → Reaches v s s' e)
    {es : List DirEnt} (hes : ∀ e ∈ es, Owner v e) (h : Marked v s)
    (hwalk : es.foldlM (walkEnt (walkDirectory true n) true) s = some s') :
    Marked v s' ∧ Settled s s' ∧
      ∀ e ∈ es, ∀ e', Below v e e' → v.bpb.InRange e'.first → s'.visited e'.first := by
  induction es generalizing s with
  | nil =>
    cases hwalk
    exact ⟨h, Settled.refl _, by simp⟩
  | cons e es ihes =>
    rw [foldlM_cons] at hwalk
    obtain ⟨s₁, h₁, h₂⟩ := Option.bind_eq_some_iff.mp hwalk
    have ho := hes e mem_cons_self
    have hone : Reaches v s s₁ e := by
      unfold walkEnt at h₁
      split at h₁
      · rename_i hdir
        exact ih h ho hdir h₁
      · rename_i hfile
        cases h₁
        obtain ⟨hm, hfirst⟩ := h.chain hok hdirs ho
        refine ⟨hm, settled_walkChain true (h.bpb ▸ hok) e.first, fun e' hbelow hr => ?_⟩
        cases hbelow with
        | refl => exact hfirst hr
        | step hdir _ _ _ => exact absurd hdir hfile
    obtain ⟨hm, hset, hall⟩ := ihes (fun e' he' => hes e' (mem_cons_of_mem e he')) hone.1 h₂
    refine ⟨hm, hone.2.1.trans hset, fun e₁ he₁ e' hbelow hr => ?_⟩
    rcases mem_cons.mp he₁ with rfl | he₁
    · exact hset.marks _ (hone.2.2 e' hbelow hr)
    · exact hall e₁ he₁ e' hbelow hr

theorem walkDirectory_reaches (hok : v.bpb.Ok) (hdirs : DirsWhole v) (n : ℕ)
    (h : Marked v s) (ho : Owner v e) (hdir : e.isDir = true)
    (hwalk : walkDirectory true n s e.first = some s') : Reaches v s s' e := by
  induction n generalizing s s' e with
  | zero => simp [walkDirectory] at hwalk
  | succ n ih =>
    rw [walkDirectory] at hwalk
    obtain ⟨hm, hfirst⟩ := h.chain hok hdirs ho
    have hset := settled_walkChain true (h.bpb ▸ hok : s.vol.bpb.Ok) e.first
    set s₁ := walkChain true s e.first
    obtain ⟨p, hp⟩ := exists_path v e.first
    have hpv : ∀ x ∈ p, s₁.visited x := hm.subset hp hfirst
    have hclosed : Closed s₁.vol e.first p := by
      by_cases hr : v.bpb.InRange e.first
      · exact hm.dirs e p ho hdir (hfirst hr) hp
      · cases p with
        | nil =>
          show ¬ s₁.vol.bpb.InRange e.first
          rw [hm.bpb]
          exact hr
        | cons d p => exact absurd hp.2.1 hr
    rw [walkDirLoop_eq hok (settledWalk_walkDirectory hok true n) p hm.bpb hclosed hpv
      (Claim.length_lt hok hp), liveEntries_congr hok (fun x hx => ((Claim.fresh hp).2 x hx).1)
      hm.data] at hwalk
    have hes : ∀ e' ∈ liveEntries v.bpb v.disk p, Owner v e' :=
      fun e' he' => .child ho hdir (Claim.chainPrefix hp) he'
    obtain ⟨hm', hset', hall⟩ := foldlM_reaches hok hdirs ih hes hm hwalk
    refine ⟨hm', hset.trans hset', fun e' hbelow hr => ?_⟩
    cases hbelow with
    | refl => exact hset'.marks _ (hfirst hr)
    | step _ hl he hrest => exact hall _ (hl.liveEntries hp he) e' hrest hr

theorem walk_marks {n : ℕ} (hok : v.bpb.Ok) (hdirs : DirsWhole v)
    (hwalk : walkDirectory true n (fsckStart v) v.bpb.rootCluster = some s) :
    Marked v s ∧ ∀ c, v.bpb.InRange c → (s.visited c ↔ ∃ e, Owner v e ∧ OnChain v e.first c) := by
  have hstart : Marked v (fsckStart v) := by
    have hnone : ∀ c, v.bpb.InRange c → ¬ (fsckStart v).visited c := by
      intro c hc
      have hlo := hc.1
      simp only [fsckStart, or_eq_true, decide_eq_true_eq]
      omega
    refine ⟨rfl, fun _ _ => rfl, fun _ _ _ => rfl, Cuts.refl v, ?_, ?_, ?_⟩
    · intro c hc hvis
      exact absurd hvis (hnone c hc)
    · intro c hc hvis
      exact absurd hvis (hnone c hc)
    · intro e p _ _ hvis hp
      cases p with
      | nil => exact fun hr => hnone _ hr hvis
      | cons d p => exact absurd hvis (hnone _ hp.2.1)
  obtain ⟨hm, -, hall⟩ := walkDirectory_reaches hok hdirs n (e := rootEnt v.bpb) hstart .root rfl
    hwalk
  refine ⟨hm, fun c hc => ⟨fun hvis => ?_, ?_⟩⟩
  · obtain ⟨e, p, ho, hp, hcp, -⟩ := hm.owned c hc hvis
    exact ⟨e, ho, (onChain_iff_path hp).mpr hcp⟩
  · rintro ⟨e, ho, hon⟩
    obtain ⟨p, hp⟩ := exists_path v e.first
    exact hm.subset hp (fun hr => hall e (below_root ho) hr) c ((onChain_iff_path hp).mp hon)

end ImpossibleOs.Fat32
