import ImpossibleOs.Fat32.Fsck
import ImpossibleOs.Fat32.Table
import Mathlib.Data.Finset.Card
import Mathlib.Data.List.Pairwise

/-!
Who owns which cluster, read off a volume without changing it.

In the order of the directories every entry, a subdirectory with everything below
it, claims the clusters of its chain up to the first one that is claimed already.
`Surveys` holds when every entry finds its own first cluster unclaimed.
-/

namespace ImpossibleOs.Fat32

open ByteMem List

/-- A directory entry that the tree is built from: its address, its kind, its first cluster. -/
structure DirEnt where
  addr : ℕ
  isDir : Bool
  first : ℕ
  deriving DecidableEq, Repr

def rootEnt (b : Bpb) : DirEnt := ⟨0, true, b.rootCluster⟩

/-- The entry at `a`, when it stands for a file or directory with a cluster in range. -/
def liveEnt (b : Bpb) (m : ByteMem) (a : ℕ) : Option DirEnt :=
  if deSkipped m a || deIsDot m a then none
  else if deFirstCluster m a < 2 ∨ b.maxCluster ≤ deFirstCluster m a then none
  else some ⟨a, deAttr m a &&& 0x10 ≠ 0, deFirstCluster m a⟩

def liveEntries (b : Bpb) (m : ByteMem) (clusters : List ℕ) : List DirEnt :=
  ((entryAddrs b clusters).takeWhile fun a => m a ≠ 0x00).filterMap (liveEnt b m)

/-- The chain from `c` on as far as it meets nothing of `claimed` and not itself. -/
def Claim (v : Volume) : List ℕ → ℕ → List ℕ → Prop
  | claimed, c, [] => ¬ v.bpb.InRange c ∨ c ∈ claimed
  | claimed, c, d :: l =>
    d = c ∧ v.bpb.InRange c ∧ c ∉ claimed ∧ Claim v (c :: claimed) (getFatEntry v c) l

/-- The whole chain from `c` on is `l`: it ends at a link that is no cluster. -/
def Closed (v : Volume) : ℕ → List ℕ → Prop
  | c, [] => ¬ v.bpb.InRange c
  | c, d :: l => d = c ∧ v.bpb.InRange c ∧ Closed v (getFatEntry v c) l

/-- The entries surveyed so far, each with what it claimed. -/
abbrev Trace := List (DirEnt × List ℕ)

def Trace.claimed (t : Trace) : List ℕ := t.flatMap Prod.snd

def FoldRel {σ α : Type*} (r : σ → α → σ → Prop) : σ → List α → σ → Prop
  | s, [], s' => s' = s
  | s, a :: l, s' => ∃ s₁, r s a s₁ ∧ FoldRel r s₁ l s'

/-- Surveying `e` and what is below it, directories nested less than `n` deep, extends the trace
`t` to `t'`. -/
def Surveys (v : Volume) : ℕ → Trace → DirEnt → Trace → Prop
  | 0, _, _, _ => False
  | n + 1, t, e, t' => ∃ l, l ≠ [] ∧ Claim v t.claimed e.first l ∧
      if e.isDir then
        FoldRel (Surveys v n) (t ++ [(e, l)]) (liveEntries v.bpb v.disk l) t'
      else t' = t ++ [(e, l)]

/-- In directory order, every entry of the volume finds its first cluster unclaimed. -/
def HeadsClear (v : Volume) : Prop := ∃ n t, Surveys v n [] (rootEnt v.bpb) t

variable {v w : Volume} {c : ℕ} {l : List ℕ}

variable {xs : List ℕ} {e : DirEnt}

theorem Claim.fresh (h : Claim v xs c l) : l.Nodup ∧ ∀ x ∈ l, v.bpb.InRange x ∧ x ∉ xs := by
  induction l generalizing xs c with
  | nil => simp
  | cons d l ih =>
    obtain ⟨rfl, hr, hn, hl⟩ := h
    obtain ⟨hnd, hmem⟩ := ih hl
    refine ⟨nodup_cons.mpr ⟨fun hd => ?_, hnd⟩, ?_⟩
    · exact (hmem d hd).2 mem_cons_self
    · intro x hx
      rcases mem_cons.mp hx with rfl | hx
      · exact ⟨hr, hn⟩
      · exact ⟨(hmem x hx).1, fun hxs => (hmem x hx).2 (mem_cons_of_mem _ hxs)⟩

theorem Closed.inRange (h : Closed v c l) : ∀ x ∈ l, v.bpb.InRange x := by
  induction l generalizing c with
  | nil => simp
  | cons d l ih =>
    obtain ⟨rfl, hr, hl⟩ := h
    intro x hx
    rcases mem_cons.mp hx with rfl | hx
    · exact hr
    · exact ih hl x hx

theorem Closed.congr (h : Closed v c l) (hb : w.bpb = v.bpb)
    (hfat : ∀ x ∈ l, getFatEntry w x = getFatEntry v x) : Closed w c l := by
  induction l generalizing c with
  | nil =>
    show ¬ w.bpb.InRange c
    rw [hb]
    exact h
  | cons d l ih =>
    obtain ⟨rfl, hr, hl⟩ := h
    refine ⟨rfl, by rw [hb]; exact hr, ?_⟩
    rw [hfat d mem_cons_self]
    exact ih hl fun x hx => hfat x (mem_cons_of_mem _ hx)

theorem Closed.claim (h : Closed v c l) (hnd : l.Nodup) (hnew : ∀ x ∈ l, x ∉ xs) :
    Claim v xs c l := by
  induction l generalizing xs c with
  | nil => exact .inl h
  | cons d l ih =>
    obtain ⟨rfl, hr, hl⟩ := h
    rw [nodup_cons] at hnd
    refine ⟨rfl, hr, hnew d mem_cons_self, ih hl hnd.2 fun x hx => ?_⟩
    rintro (_ | ⟨_, hxs⟩)
    · exact hnd.1 hx
    · exact hnew x (mem_cons_of_mem _ hx) hxs

theorem exists_claim (v : Volume) (xs : List ℕ) (c : ℕ) : ∃ l, Claim v xs c l := by
  -- a claim takes clusters from the finitely many that are not claimed
  have hmain : ∀ k xs c, ((Finset.range v.bpb.maxCluster).filter (· ∉ xs)).card ≤ k →
      ∃ l, Claim v xs c l := by
    intro k
    induction k with
    | zero =>
      intro xs c hk
      refine ⟨[], ?_⟩
      by_contra hc
      have hc' : v.bpb.InRange c ∧ c ∉ xs := by
        simpa [Claim, not_or, not_not] using hc
      have hmem : c ∈ (Finset.range v.bpb.maxCluster).filter (· ∉ xs) := by
        simp [hc'.1.2, hc'.2]
      rw [Nat.le_zero, Finset.card_eq_zero] at hk
      rw [hk] at hmem
      simp at hmem
    | succ k ih =>
      intro xs c hk
      by_cases hc : v.bpb.InRange c ∧ c ∉ xs
      swap
      · refine ⟨[], ?_⟩
        show ¬ v.bpb.InRange c ∨ c ∈ xs
        tauto
      have hlt : ((Finset.range v.bpb.maxCluster).filter (· ∉ c :: xs)).card <
          ((Finset.range v.bpb.maxCluster).filter (· ∉ xs)).card := by
        apply Finset.card_lt_card
        refine ⟨?_, fun hsub => ?_⟩
        · intro x hx
          simp only [Finset.mem_filter, mem_cons, not_or] at hx ⊢
          exact ⟨hx.1, hx.2.2⟩
        · have hmem : c ∈ (Finset.range v.bpb.maxCluster).filter (· ∉ xs) := by
            simp [hc.1.2, hc.2]
          have := hsub hmem
          simp at this
      obtain ⟨l, hl⟩ := ih (c :: xs) (getFatEntry v c) (by omega)
      exact ⟨c :: l, rfl, hc.1, hc.2, hl⟩
  exact hmain _ xs c le_rfl

/-! ### Entries -/

theorem takeWhile_congr {α : Type*} {p q : α → Bool} {l : List α} (h : ∀ a ∈ l, p a = q a) :
    l.takeWhile p = l.takeWhile q := by
  induction l with
  | nil => rfl
  | cons a l ih =>
    rw [takeWhile_cons, takeWhile_cons, h a mem_cons_self,
      ih fun b hb => h b (mem_cons_of_mem a hb)]

theorem dataStart_le_entryAddr {b : Bpb} (h : b.Ok) (hl : ∀ x ∈ l, b.InRange x) :
    ∀ a ∈ entryAddrs b l, b.firstDataSector * 512 ≤ a := by
  intro a ha
  obtain ⟨d, hd, hi⟩ := mem_flatMap.mp ha
  obtain ⟨i, -, rfl⟩ := mem_map.mp hi
  have := dataStart_le_clusterAddr h (hl d hd)
  omega

theorem liveEntries_congr {b : Bpb} {m m' : ByteMem} (h : b.Ok) (hl : ∀ x ∈ l, b.InRange x)
    (hdata : ∀ x, b.firstDataSector * 512 ≤ x → m' x = m x) :
    liveEntries b m' l = liveEntries b m l := by
  have haddr := dataStart_le_entryAddr h hl
  have hent : ∀ a ∈ entryAddrs b l, liveEnt b m' a = liveEnt b m a := by
    intro a ha
    have hge := haddr a ha
    have hfc : deFirstCluster m' a = deFirstCluster m a := by
      unfold deFirstCluster
      rw [readLE_congr fun x hx _ => hdata x (by omega), readLE_congr fun x hx _ =>
        hdata x (by omega)]
    have hattr : deAttr m' a = deAttr m a := hdata (a + 11) (by omega)
    have hskip : deSkipped m' a = deSkipped m a := by
      rw [deSkipped, deSkipped, hattr, hdata a hge]
    have hdot : deIsDot m' a = deIsDot m a := by
      rw [deIsDot, deIsDot, hdata a hge, hdata (a + 1) (by omega), hdata (a + 2) (by omega)]
    rw [liveEnt, liveEnt, hskip, hdot, hfc, hattr]
  have htake : (entryAddrs b l).takeWhile (fun a => m' a ≠ 0x00) =
      (entryAddrs b l).takeWhile fun a => m a ≠ 0x00 := by
    apply takeWhile_congr
    intro a ha
    rw [hdata a (haddr a ha)]
  unfold liveEntries
  rw [htake]
  apply filterMap_congr
  intro a ha
  exact hent a (takeWhile_subset _ ha)

theorem liveEntries_inRange {b : Bpb} {m : ByteMem} (he : e ∈ liveEntries b m l) :
    b.InRange e.first := by
  obtain ⟨a, -, hlive⟩ := mem_filterMap.mp he
  unfold liveEnt at hlive
  split at hlive
  · contradiction
  · split at hlive
    · contradiction
    · rename_i hrange
      cases hlive
      unfold Bpb.InRange
      simp only
      omega

theorem Claim.ne_nil (h : Claim v xs c l) (hr : v.bpb.InRange c) (hn : c ∉ xs) : l ≠ [] := by
  rintro rfl
  rcases h with h | h
  · exact h hr
  · exact hn h

theorem Claim.head_mem (h : Claim v xs c l) (hl : l ≠ []) : c ∈ l := by
  cases l with
  | nil => exact absurd rfl hl
  | cons d l =>
    obtain ⟨rfl, -⟩ := h
    exact mem_cons_self

/-! ### Ownership and reachability -/

/-- The first clusters that the FAT links from `c` on. -/
def ChainPrefix (v : Volume) : ℕ → List ℕ → Prop
  | _, [] => True
  | c, d :: l => d = c ∧ v.bpb.InRange c ∧ ChainPrefix v (getFatEntry v c) l

def OnChain (v : Volume) (c d : ℕ) : Prop := ∃ l, ChainPrefix v c l ∧ d ∈ l

inductive Owner (v : Volume) : DirEnt → Prop
  | root : Owner v (rootEnt v.bpb)
  | child {o e : DirEnt} {l : List ℕ} (ho : Owner v o) (hdir : o.isDir = true)
      (hl : ChainPrefix v o.first l) (he : e ∈ liveEntries v.bpb v.disk l) : Owner v e

theorem Closed.chainPrefix (h : Closed v c l) : ChainPrefix v c l := by
  induction l generalizing c with
  | nil => trivial
  | cons d l ih => exact ⟨h.1, h.2.1, ih h.2.2⟩

theorem ChainPrefix.isPrefix {l' : List ℕ} (h : ChainPrefix v c l') (hl : Closed v c l) :
    l' <+: l := by
  induction l' generalizing c l with
  | nil => exact nil_prefix
  | cons d l' ih =>
    obtain ⟨rfl, hr, h'⟩ := h
    cases l with
    | nil => exact absurd hr hl
    | cons e l =>
      obtain ⟨rfl, -, hl'⟩ := hl
      exact prefix_cons_inj e |>.mpr (ih h' hl')

theorem onChain_iff {d : ℕ} (hl : Closed v c l) : OnChain v c d ↔ d ∈ l := by
  constructor
  · rintro ⟨l', hl', hd⟩
    exact (hl'.isPrefix hl).subset hd
  · intro hd
    exact ⟨l, hl.chainPrefix, hd⟩

theorem mem_takeWhile_append {α : Type*} {p : α → Bool} {a : α} {l r : List α}
    (h : a ∈ l.takeWhile p) : a ∈ (l ++ r).takeWhile p := by
  induction l with
  | nil => simp at h
  | cons b l ih =>
    rw [cons_append, takeWhile_cons] at *
    split at h
    · rename_i hb
      rw [if_pos hb]
      rcases mem_cons.mp h with rfl | h
      · exact mem_cons_self
      · exact mem_cons_of_mem b (ih h)
    · simp at h

theorem mem_liveEntries_mono {b : Bpb} {m : ByteMem} {l l' : List ℕ}
    (hpre : l' <+: l) (he : e ∈ liveEntries b m l') : e ∈ liveEntries b m l := by
  obtain ⟨r, rfl⟩ := hpre
  obtain ⟨a, ha, hlive⟩ := mem_filterMap.mp he
  refine mem_filterMap.mpr ⟨a, ?_, hlive⟩
  rw [entryAddrs, flatMap_append]
  exact mem_takeWhile_append ha

@[simp] theorem Trace.claimed_append (t t' : Trace) :
    Trace.claimed (t ++ t') = t.claimed ++ t'.claimed := by
  simp [Trace.claimed]

@[simp] theorem Trace.claimed_singleton (e : DirEnt) (l : List ℕ) : Trace.claimed [(e, l)] = l := by
  simp [Trace.claimed]

/-- What a survey adds to its trace, given what it was asked to survey. -/
structure Surveyed (v : Volume) (t : Trace) (es : List DirEnt) (t' : Trace) : Prop where
  extend : t <+: t'
  nodup : t.claimed.Nodup → t'.claimed.Nodup
  asked : ∀ e ∈ es, ∃ l, (e, l) ∈ t'
  below : ∀ p ∈ t', p ∈ t ∨ (p.1.isDir → ∀ f ∈ liveEntries v.bpb v.disk p.2, ∃ l, (f, l) ∈ t')
  owner : (∀ p ∈ t', Closed v p.1.first p.2) → (∀ e ∈ es, Owner v e) →
    ∀ p ∈ t', p ∈ t ∨ Owner v p.1

theorem Surveyed.nil (v : Volume) (t : Trace) : Surveyed v t [] t where
  extend := prefix_rfl
  nodup := id
  asked := by simp
  below := fun p hp => .inl hp
  owner := fun _ _ p hp => .inl hp

theorem Surveyed.trans {t t₁ t₂ : Trace} {es es' : List DirEnt} (h : Surveyed v t es t₁)
    (h' : Surveyed v t₁ es' t₂) : Surveyed v t (es ++ es') t₂ where
  extend := h.extend.trans h'.extend
  nodup := fun hn => h'.nodup (h.nodup hn)
  asked := by
    intro e he
    rcases mem_append.mp he with he | he
    · obtain ⟨l, hl⟩ := h.asked e he
      exact ⟨l, h'.extend.subset hl⟩
    · exact h'.asked e he
  below := by
    intro p hp
    rcases h'.below p hp with hp | hp
    · rcases h.below p hp with hp | hp
      · exact .inl hp
      · refine .inr fun hd f hf => ?_
        obtain ⟨l, hl⟩ := hp hd f hf
        exact ⟨l, h'.extend.subset hl⟩
    · exact .inr hp
  owner := by
    intro hc ho p hp
    rcases h'.owner hc (fun e he => ho e (mem_append_right _ he)) p hp with hp | hp
    · exact h.owner (fun q hq => hc q (h'.extend.subset hq))
        (fun e he => ho e (mem_append_left _ he)) p hp
    · exact .inr hp

theorem foldRel_surveyed {n : ℕ} {t t' : Trace} {es : List DirEnt}
    (ih : ∀ t e t', Surveys v n t e t' → Surveyed v t [e] t')
    (h : FoldRel (Surveys v n) t es t') : Surveyed v t es t' := by
  induction es generalizing t with
  | nil =>
    obtain rfl : t' = t := h
    exact Surveyed.nil v t'
  | cons e es ihes =>
    obtain ⟨t₁, h₁, h₂⟩ := h
    exact (ih t e t₁ h₁).trans (ihes h₂)

theorem surveys_surveyed {n : ℕ} {t t' : Trace} (h : Surveys v n t e t') : Surveyed v t [e] t' := by
  induction n generalizing t t' e with
  | zero => exact absurd h (by simp [Surveys])
  | succ n ih =>
    obtain ⟨l, -, hclaim, hrest⟩ := h
    obtain ⟨hnd, hfresh⟩ := hclaim.fresh
    have hnodup : t.claimed.Nodup → (Trace.claimed (t ++ [(e, l)])).Nodup := by
      intro hn
      rw [Trace.claimed_append, Trace.claimed_singleton]
      refine hn.append hnd ?_
      intro x hx hx'
      exact (hfresh x hx').2 hx
    cases hdir : e.isDir with
    | false =>
      rw [hdir, if_neg (by simp)] at hrest
      subst hrest
      refine ⟨⟨_, rfl⟩, hnodup, ?_, ?_, ?_⟩
      · intro f hf
        obtain rfl := mem_singleton.mp hf
        exact ⟨l, by simp⟩
      · intro p hp
        rcases mem_append.mp hp with hp | hp
        · exact .inl hp
        · obtain rfl := mem_singleton.mp hp
          exact .inr fun hd => absurd hd (by simp [hdir])
      · intro _ ho p hp
        rcases mem_append.mp hp with hp | hp
        · exact .inl hp
        · obtain rfl := mem_singleton.mp hp
          exact .inr (ho e mem_cons_self)
    | true =>
      rw [hdir, if_pos rfl] at hrest
      have hs := foldRel_surveyed (fun t e t' => ih) hrest
      have hmem : (e, l) ∈ t' := hs.extend.subset (by simp)
      refine ⟨(prefix_append t _).trans hs.extend, fun hn => hs.nodup (hnodup hn), ?_, ?_,
        ?_⟩
      · intro f hf
        obtain rfl := mem_singleton.mp hf
        exact ⟨l, hmem⟩
      · intro p hp
        rcases hs.below p hp with hp' | hp'
        · rcases mem_append.mp hp' with hp' | hp'
          · exact .inl hp'
          · obtain rfl := mem_singleton.mp hp'
            exact .inr fun _ f hf => hs.asked f hf
        · exact .inr hp'
      · intro hc ho p hp
        have hoe : Owner v e := ho e mem_cons_self
        have hol : ∀ f ∈ liveEntries v.bpb v.disk l, Owner v f := fun f hf =>
          Owner.child hoe hdir (hc (e, l) hmem).chainPrefix hf
        rcases hs.owner hc hol p hp with hp' | hp'
        · rcases mem_append.mp hp' with hp' | hp'
          · exact .inl hp'
          · obtain rfl := mem_singleton.mp hp'
            exact .inr hoe
        · exact .inr hp'

/-- No cluster is on the chains of two owners. -/
def SingleOwner (v : Volume) : Prop :=
  ∀ o o' c, Owner v o → Owner v o' → OnChain v o.first c → OnChain v o'.first c → o = o'

/-- Every cluster in use is on the chain of an owner. -/
def AllReachable (v : Volume) : Prop :=
  ∀ c, v.bpb.InRange c → getFatEntry v c ≠ fat32Free → ∃ o, Owner v o ∧ OnChain v o.first c

section Sound

variable {n : ℕ} {t : Trace} (h : Surveys v n [] (rootEnt v.bpb) t)
  (hclosed : ∀ p ∈ t, Closed v p.1.first p.2)

include h hclosed

theorem owner_mem_trace {o : DirEnt} (ho : Owner v o) : ∃ l, (o, l) ∈ t := by
  have hs := surveys_surveyed h
  induction ho with
  | root => exact hs.asked _ mem_cons_self
  | child _ hdir hl he ih =>
    obtain ⟨l₀, hl₀⟩ := ih
    have hpre := hl.isPrefix (hclosed _ hl₀)
    rcases hs.below _ hl₀ with hnil | hbelow
    · simp at hnil
    · exact hbelow hdir _ (mem_liveEntries_mono hpre he)

theorem singleOwner_of_surveys : SingleOwner v := by
  intro o o' c ho ho' hc hc'
  obtain ⟨l, hl⟩ := owner_mem_trace h hclosed ho
  obtain ⟨l', hl'⟩ := owner_mem_trace h hclosed ho'
  rw [onChain_iff (hclosed _ hl)] at hc
  rw [onChain_iff (hclosed _ hl')] at hc'
  have hnodup : t.claimed.Nodup := (surveys_surveyed h).nodup nodup_nil
  rw [Trace.claimed, nodup_flatMap] at hnodup
  by_contra hne
  have hsymm : Std.Symm (Function.onFun List.Disjoint (Prod.snd : DirEnt × List ℕ → List ℕ)) :=
    ⟨fun _ _ hab => hab.symm⟩
  have hdisj := hnodup.2.forall hl hl' (fun heq => hne (congrArg Prod.fst heq))
  exact hdisj hc hc'

theorem onChain_of_claimed {c : ℕ} (hc : c ∈ t.claimed) : ∃ o, Owner v o ∧ OnChain v o.first c := by
  obtain ⟨p, hp, hcp⟩ := mem_flatMap.mp hc
  refine ⟨p.1, ?_, (onChain_iff (hclosed p hp)).mpr hcp⟩
  rcases (surveys_surveyed h).owner hclosed (by simpa using Owner.root) p hp with hnil | ho
  · simp at hnil
  · exact ho

end Sound

end ImpossibleOs.Fat32
