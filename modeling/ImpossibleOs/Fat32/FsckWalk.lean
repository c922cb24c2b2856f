import ImpossibleOs.Fat32.Survey
import Mathlib.Data.List.TakeWhile

/-!
The walk of the checker, one chain and one directory at a time.

`walk_chain` claims what the survey claims, and in repair mode leaves the
chain closed. What it has marked is never changed again (`Settled`), so that
the loop of `walk_directory` along the FAT visits the clusters its directory
claimed, and a directory is a fold over its live entries.
-/

namespace ImpossibleOs.Fat32

open ByteMem List

variable {fix : Bool} {s s' : FsckState}

/-- What the rest of a walk does to a state: the volume changes in FAT entries of unmarked
clusters only, and marks stay. -/
structure Settled (s s' : FsckState) : Prop where
  bpb : s'.vol.bpb = s.vol.bpb
  outside : SameOutside (s.vol.bpb.firstFatSector * 512) (s.vol.bpb.firstDataSector * 512)
    s.vol.disk s'.vol.disk
  marks : ∀ c, s.visited c → s'.visited c
  fat : ∀ c, s.vol.bpb.InRange c → s.visited c → getFatEntry s'.vol c = getFatEntry s.vol c

theorem Settled.refl (s : FsckState) : Settled s s :=
  ⟨rfl, SameOutside.refl _ _ _, fun _ h => h, fun _ _ _ => rfl⟩

theorem Settled.trans {s₁ : FsckState} (h : Settled s s₁) (h' : Settled s₁ s') : Settled s s' where
  bpb := h'.bpb.trans h.bpb
  outside := h.outside.trans (by simpa only [h.bpb] using h'.outside)
  marks := fun c hc => h'.marks c (h.marks c hc)
  fat := fun c hr hc => (h'.fat c (by rw [h.bpb]; exact hr) (h.marks c hc)).trans (h.fat c hr hc)

theorem Settled.of_vol (hvol : s'.vol = s.vol) (hmarks : ∀ c, s.visited c → s'.visited c) :
    Settled s s' := by
  refine ⟨by rw [hvol], ?_, hmarks, ?_⟩
  · rw [hvol]
    exact SameOutside.refl _ _ _
  · intro c _ _
    rw [hvol]

theorem Settled.data (h : Settled s s') (x : ℕ) (hx : s.vol.bpb.firstDataSector * 512 ≤ x) :
    s'.vol.disk x = s.vol.disk x :=
  h.outside x (.inr hx)

/-! ### One chain -/

/-- The link at which a claim stops. -/
def claimEnd (v : Volume) : ℕ → List ℕ → ℕ
  | c, [] => c
  | _, d :: l => claimEnd v (getFatEntry v d) l

variable {v : Volume}

theorem Claim.closed_iff {xs : List ℕ} {c : ℕ} {l : List ℕ} (h : Claim v xs c l) :
    Closed v c l ↔ ¬ v.bpb.InRange (claimEnd v c l) := by
  induction l generalizing xs c with
  | nil => exact Iff.rfl
  | cons d l ih =>
    obtain ⟨rfl, hr, -, hl⟩ := h
    rw [claimEnd, ← ih hl]
    exact ⟨fun h => h.2.2, fun h => ⟨rfl, hr, h⟩⟩

/-- The repair of a cross-link behind the cluster `cut`. -/
def cutLink (fix : Bool) (v : Volume) (cut : ℕ) : Volume :=
  if fix ∧ cut ≠ 0 then setFatEntry v cut eocMark else v

theorem walkChainLoop_spec (fix : Bool) (hok : v.bpb.Ok)
    (xs l : List ℕ) (c prev fuel : ℕ)
    (s : FsckState) (hb : s.vol.bpb = v.bpb)
    (hvis : ∀ x, v.bpb.InRange x → (s.visited x ↔ x ∈ xs)) (hclaim : Claim v xs c l)
    (hfat : ∀ x ∈ l, getFatEntry s.vol x = getFatEntry v x) (hfuel : l.length < fuel) :
    let s' := walkChainLoop fix fuel s c prev
    let cut := l.getLastD prev
    (∀ x, s'.visited x = true ↔ s.visited x = true ∨ x ∈ l) ∧
      (¬ v.bpb.InRange (claimEnd v c l) → s'.vol = s.vol ∧ s'.crossLinks = s.crossLinks) ∧
      (v.bpb.InRange (claimEnd v c l) → s'.crossLinks = u32 (s.crossLinks + 1) ∧
        s'.vol = cutLink fix s.vol cut) := by
  induction l generalizing xs c prev fuel s with
  | nil =>
    cases fuel with
    | zero => omega
    | succ fuel =>
      simp only [walkChainLoop, hb, claimEnd, getLastD_nil, not_mem_nil, or_false]
      by_cases hr : 2 ≤ c ∧ c < v.bpb.maxCluster
      · have hc : s.visited c := by
          rcases hclaim with hn | hm
          · exact absurd hr hn
          · exact (hvis c hr).mpr hm
        rw [if_pos hr]
        simp only [hc, if_true]
        refine ⟨?_, fun hn => absurd hr hn, fun _ => ?_⟩
        · intro x
          split <;> rfl
        · by_cases hcut : fix = true ∧ prev ≠ 0
          · rw [if_pos hcut, cutLink, if_pos hcut]
            exact ⟨rfl, rfl⟩
          · rw [if_neg hcut, cutLink, if_neg hcut]
            exact ⟨rfl, rfl⟩
      · rw [if_neg hr]
        exact ⟨fun x => Iff.rfl, fun _ => ⟨rfl, rfl⟩, fun h => absurd h hr⟩
  | cons d l ih =>
    obtain ⟨rfl, hr, hn, hl⟩ := hclaim
    cases fuel with
    | zero => omega
    | succ fuel =>
      have hunmarked : ¬ s.visited d := fun h => hn ((hvis d hr).mp h)
      have hd := hfat d mem_cons_self
      have hmax := hok.clusters
      have hmark : ∀ x, (s.mark d).visited x = true ↔ s.visited x = true ∨ x = d := by
        intro x
        by_cases hx : x = d
        · simp [FsckState.mark, hx]
        · simp [FsckState.mark, hx]
      have hrange : 2 ≤ d ∧ d < v.bpb.maxCluster := hr
      simp only [walkChainLoop, hb]
      rw [if_pos hrange, if_neg hunmarked, hd, claimEnd]
      -- the loop goes on exactly when the next link is a cluster
      by_cases hstop : fat32Eoc ≤ getFatEntry v d ∨ getFatEntry v d = fat32Bad ∨
          getFatEntry v d < 2
      · have hout : ¬ v.bpb.InRange (getFatEntry v d) := by
          rintro ⟨h2, hlt⟩
          unfold fat32Bad at hmax hstop
          unfold fat32Eoc at hstop
          omega
        have hnil : l = [] := by
          cases l with
          | nil => rfl
          | cons e l => exact absurd hl.2.1 hout
        subst hnil
        have hres : (if fat32Eoc ≤ getFatEntry v d then s.mark d
            else if getFatEntry v d = fat32Bad then s.mark d
            else if getFatEntry v d < 2 then s.mark d
            else walkChainLoop fix fuel (s.mark d) (getFatEntry v d) d) = s.mark d := by
          split_ifs <;> first | rfl | (exfalso; omega)
        rw [hres]
        refine ⟨?_, fun _ => ⟨rfl, rfl⟩, fun h => absurd h hout⟩
        intro x
        rw [hmark]
        simp
      · obtain ⟨hneoc, hnbad, hnlow⟩ : ¬ fat32Eoc ≤ getFatEntry v d ∧
            getFatEntry v d ≠ fat32Bad ∧ ¬ getFatEntry v d < 2 := by
          simpa only [not_or] using hstop
        rw [if_neg hneoc, if_neg hnbad, if_neg hnlow]
        have hvis' : ∀ x, v.bpb.InRange x → ((s.mark d).visited x ↔ x ∈ d :: xs) := by
          intro x hx
          rw [hmark, hvis x hx, mem_cons, or_comm]
        simp only [length_cons] at hfuel
        obtain ⟨h₁, h₂, h₃⟩ := ih (d :: xs) (getFatEntry v d) d fuel (s.mark d) hb hvis' hl
          (fun x hx => hfat x (mem_cons_of_mem d hx)) (by omega)
        have hlast : (d :: l).getLastD prev = l.getLastD d := by
          cases l <;> rfl
        rw [hlast]
        refine ⟨?_, h₂, h₃⟩
        intro x
        rw [h₁, hmark, mem_cons, or_assoc]

def FsckState.marked (s : FsckState) : List ℕ := (List.range s.vol.bpb.maxCluster).filter s.visited

theorem mem_marked {x : ℕ} (hx : s.vol.bpb.InRange x) : s.visited x ↔ x ∈ s.marked := by
  simp [FsckState.marked, hx.2]

theorem Claim.length_lt {xs l : List ℕ} {c : ℕ} (hok : v.bpb.Ok)
    (h : Claim v xs c l) : l.length < chainFuel := by
  obtain ⟨hnd, hmem⟩ := h.fresh
  have hsub : l ⊆ List.range v.bpb.maxCluster := by
    intro x hx
    exact mem_range.mpr (hmem x hx).1.2
  have hlen := (hnd.subperm hsub).length_le
  have hmax := hok.clusters
  rw [length_range] at hlen
  unfold fat32Bad at hmax
  unfold chainFuel
  omega

theorem getLastD_mem {l : List ℕ} (k : ℕ) (hne : l ≠ []) : l.getLastD k ∈ l := by
  rw [getLastD_eq_getLast?, List.getLast?_eq_getLast_of_ne_nil hne]
  exact getLast_mem hne

theorem settled_walkChain (fix : Bool) (hok : s.vol.bpb.Ok) (c : ℕ) :
    Settled s (walkChain fix s c) := by
  obtain ⟨l, hl⟩ := exists_claim s.vol s.marked c
  obtain ⟨hmarks, hend, hcut⟩ := walkChainLoop_spec fix hok s.marked l c 0 chainFuel s rfl
    (fun x hx => mem_marked hx) hl (fun _ _ => rfl) (hl.length_lt hok)
  have hstay : ∀ x, s.visited x → (walkChain fix s c).visited x := by
    intro x hx
    exact (hmarks x).mpr (.inl hx)
  by_cases hr : s.vol.bpb.InRange (claimEnd s.vol c l)
  · obtain ⟨-, hvol⟩ := hcut hr
    change (walkChain fix s c).vol = _ at hvol
    unfold cutLink at hvol
    split at hvol
    · rename_i hfix
      -- the cluster that is cut behind was marked just now
      have hne : l ≠ [] := by
        rintro rfl
        exact hfix.2 rfl
      obtain ⟨hlast, hnew⟩ := hl.fresh.2 _ (getLastD_mem 0 hne)
      refine ⟨by rw [hvol]; rfl, ?_, hstay, ?_⟩
      · rw [hvol]
        exact setFatEntry_sameOutside hok _ hlast.2
      · intro x hx hvx
        rw [hvol]
        apply getFatEntry_setFatEntry_other hok hlast.2 hx.2
        rintro rfl
        exact hnew ((mem_marked hx).mp hvx)
    · exact Settled.of_vol hvol hstay
  · obtain ⟨hvol, -⟩ := hend hr
    exact Settled.of_vol hvol hstay

/-! ### One directory -/

def walkEnt (walkDir : FsckState → ℕ → Option FsckState) (fix : Bool) (s : FsckState) (e : DirEnt) :
    Option FsckState :=
  if e.isDir then walkDir s e.first else some (walkChain fix s e.first)

/-- Where the scan of a directory stands after some entries: `all` of them are before the end
mark, or it is left with the state it has. -/
def scanned (all : Bool) : Option FsckState → Except (Option FsckState) FsckState
  | none => .error none
  | some s => if all then .ok s else .error (some s)

section Directory

variable {walkDir : FsckState → ℕ → Option FsckState} {b : Bpb} {m : ByteMem}

/-- The walk of subdirectories changes only what is not marked. -/
def SettledWalk (b : Bpb) (walkDir : FsckState → ℕ → Option FsckState) : Prop :=
  ∀ (s : FsckState) (c : ℕ) (s' : FsckState), s.vol.bpb = b → walkDir s c = some s' → Settled s s'

theorem walkEnt_settled (hok : b.Ok) (hw : SettledWalk b walkDir) {e : DirEnt}
    (hb : s.vol.bpb = b) (h : walkEnt walkDir fix s e = some s') : Settled s s' := by
  unfold walkEnt at h
  split at h
  · exact hw s e.first s' hb h
  · cases h
    exact settled_walkChain fix (hb ▸ hok) e.first

theorem foldlM_walkEnt_settled (hok : b.Ok) (hw : SettledWalk b walkDir) {es : List DirEnt}
    (hb : s.vol.bpb = b) (h : es.foldlM (walkEnt walkDir fix) s = some s') : Settled s s' := by
  induction es generalizing s with
  | nil =>
    cases h
    exact Settled.refl _
  | cons e es ih =>
    rw [foldlM_cons] at h
    obtain ⟨s₁, h₁, h₂⟩ := Option.bind_eq_some_iff.mp h
    have hs := walkEnt_settled hok hw hb h₁
    exact hs.trans (ih (hs.bpb.trans hb) h₂)

theorem walkEntry_eq (hb : s.vol.bpb = b) (a : ℕ) (ha : m a ≠ 0x00) :
    walkEntry walkDir fix m s a =
      scanned true (match liveEnt b m a with
        | none => some s
        | some e => walkEnt walkDir fix s e) := by
  unfold walkEntry liveEnt
  rw [if_neg ha, hb]
  by_cases hskip : (deSkipped m a || deIsDot m a) = true
  · rw [if_pos hskip, if_pos hskip]
    rfl
  rw [if_neg hskip, if_neg hskip]
  by_cases hrange : deFirstCluster m a < 2 ∨ b.maxCluster ≤ deFirstCluster m a
  · simp only [if_pos hrange]
    rfl
  simp only [if_neg hrange, walkEnt, decide_eq_true_eq]
  by_cases hdir : deAttr m a &&& 0x10 ≠ 0
  · rw [if_pos hdir, if_pos hdir]
    cases walkDir s (deFirstCluster m a) <;> rfl
  · rw [if_neg hdir, if_neg hdir]
    rfl

theorem foldlM_walkEntry (fix : Bool) (m : ByteMem) (hok : b.Ok) (hw : SettledWalk b walkDir)
    (addrs : List ℕ)
    (hb : s.vol.bpb = b) :
    addrs.foldlM (walkEntry walkDir fix m) s =
      scanned (addrs.all fun a => m a ≠ 0x00)
        (((addrs.takeWhile fun a => m a ≠ 0x00).filterMap (liveEnt b m)).foldlM
          (walkEnt walkDir fix) s) := by
  induction addrs generalizing s with
  | nil => rfl
  | cons a addrs ih =>
    rw [foldlM_cons]
    by_cases ha : m a = 0x00
    · have hend : walkEntry walkDir fix m s a = .error (some s) := by
        unfold walkEntry
        rw [if_pos ha]
      rw [hend]
      simp [ha, scanned]
      rfl
    rw [walkEntry_eq hb a ha]
    simp only [ha, ne_eq, not_false_eq_true, decide_true, takeWhile_cons_of_pos,
      filterMap_cons, all_cons, Bool.true_and]
    cases hlive : liveEnt b m a with
    | none =>
      simp only [scanned, if_true]
      exact ih hb
    | some e =>
      simp only [foldlM_cons]
      cases hent : walkEnt walkDir fix s e with
      | none => rfl
      | some s₁ =>
        exact ih ((walkEnt_settled hok hw hb hent).bpb.trans hb)

theorem entryAddrs_cons (b : Bpb) (c : ℕ) (l : List ℕ) :
    entryAddrs b (c :: l) = entryAddrs b [c] ++ entryAddrs b l := by
  simp [entryAddrs]

variable {fuel cur : ℕ}

theorem walkDirLoop_outside (hcur : ¬ s.vol.bpb.InRange cur) :
    walkDirLoop walkDir fix (fuel + 1) s cur = some s := by
  have hrange : ¬ (2 ≤ cur ∧ cur < s.vol.bpb.maxCluster) := hcur
  rw [walkDirLoop, if_neg hrange]

theorem walkDirLoop_turn (hok : b.Ok) (hw : SettledWalk b walkDir) (hb : s.vol.bpb = b)
    (hcur : b.InRange cur) :
    walkDirLoop walkDir fix (fuel + 1) s cur =
      ((liveEntries b s.vol.disk [cur]).foldlM (walkEnt walkDir fix) s).bind fun s₁ =>
        if (entryAddrs b [cur]).all fun a => s.vol.disk a ≠ 0x00 then
          if getFatEntry s₁.vol cur < 2 ∨ fat32Eoc ≤ getFatEntry s₁.vol cur then some s₁
          else walkDirLoop walkDir fix fuel s₁ (getFatEntry s₁.vol cur)
        else some s₁ := by
  have hrange : 2 ≤ cur ∧ cur < s.vol.bpb.maxCluster := by
    rw [hb]
    exact hcur
  have hone : entryAddrs b [cur] =
      (List.range (b.bytesPerCluster / 32)).map fun i => clusterAddr b cur + 32 * i := by
    simp [entryAddrs]
  have hfold : _ = scanned _ ((liveEntries b s.vol.disk [cur]).foldlM (walkEnt walkDir fix) s) :=
    foldlM_walkEntry fix s.vol.disk hok hw (entryAddrs b [cur]) hb
  rw [hone, foldlM_map, ← hone] at hfold
  rw [walkDirLoop, if_pos hrange, hb, hfold]
  cases (liveEntries b s.vol.disk [cur]).foldlM (walkEnt walkDir fix) s with
  | none => rfl
  | some s₁ =>
    cases (entryAddrs b [cur]).all fun a => s.vol.disk a ≠ 0x00 <;> rfl

theorem walkDirLoop_settled (hok : b.Ok) (hw : SettledWalk b walkDir)
    (hb : s.vol.bpb = b) (h : walkDirLoop walkDir fix fuel s cur = some s') : Settled s s' := by
  induction fuel generalizing s cur with
  | zero => simp [walkDirLoop] at h
  | succ fuel ih =>
    by_cases hcur : b.InRange cur
    · rw [walkDirLoop_turn hok hw hb hcur] at h
      obtain ⟨s₁, hfold, hrest⟩ := Option.bind_eq_some_iff.mp h
      have hs := foldlM_walkEnt_settled hok hw hb hfold
      split at hrest
      · split at hrest
        · cases hrest
          exact hs
        · exact hs.trans (ih (hs.bpb.trans hb) hrest)
      · cases hrest
        exact hs
    · rw [walkDirLoop_outside (by rwa [hb])] at h
      cases h
      exact Settled.refl _

theorem liveEntries_cons (b : Bpb) (m : ByteMem) (d : ℕ) (l : List ℕ) :
    liveEntries b m (d :: l) =
      if (entryAddrs b [d]).all fun a => m a ≠ 0x00 then liveEntries b m [d] ++ liveEntries b m l
      else liveEntries b m [d] := by
  unfold liveEntries
  rw [entryAddrs_cons]
  by_cases hall : (entryAddrs b [d]).all (fun a => m a ≠ 0x00) = true
  · rw [if_pos hall]
    rw [all_eq_true] at hall
    rw [takeWhile_append_of_pos hall, filterMap_append,
      takeWhile_eq_self_iff.mpr hall]
  · rw [if_neg hall, takeWhile_append, if_neg]
    intro hlen
    have hself := (List.takeWhile_sublist _).eq_of_length hlen
    rw [takeWhile_eq_self_iff] at hself
    exact hall (all_eq_true.mpr hself)

theorem walkDirLoop_eq (hok : b.Ok) (hw : SettledWalk b walkDir) (l : List ℕ)
    (hb : s.vol.bpb = b) (hl : Closed s.vol cur l) (hmarks : ∀ x ∈ l, s.visited x)
    (hfuel : l.length < fuel) : walkDirLoop walkDir fix fuel s cur =
      (liveEntries b s.vol.disk l).foldlM (walkEnt walkDir fix) s := by
  induction l generalizing s cur fuel with
  | nil =>
    cases fuel with
    | zero => omega
    | succ fuel => exact walkDirLoop_outside hl
  | cons d l ih =>
    obtain ⟨rfl, hr, htail⟩ := hl
    cases fuel with
    | zero => omega
    | succ fuel =>
      simp only [length_cons] at hfuel
      rw [walkDirLoop_turn hok hw hb (hb ▸ hr), liveEntries_cons b s.vol.disk d l]
      split
      swap
      · exact Option.bind_fun_some _
      rw [foldlM_append]
      apply Option.bind_congr
      intro s₁ hfold
      have hs := foldlM_walkEnt_settled hok hw hb hfold
      -- the cluster is marked: its link is what it was when the chain was walked
      have hlink := hs.fat d hr (hmarks d mem_cons_self)
      have htail₁ : Closed s₁.vol (getFatEntry s₁.vol d) l := by
        rw [hlink]
        apply htail.congr hs.bpb
        intro x hx
        exact hs.fat x (htail.inRange x hx) (hmarks x (mem_cons_of_mem d hx))
      have hentries : liveEntries b s₁.vol.disk l = liveEntries b s.vol.disk l := by
        apply liveEntries_congr hok
        · intro x hx
          exact hb ▸ htail.inRange x hx
        · exact hb ▸ hs.data
      have hloop := ih (hs.bpb.trans hb) htail₁
        (fun x hx => hs.marks x (hmarks x (mem_cons_of_mem d hx)))
          (by omega : l.length < fuel)
      rw [hentries] at hloop
      split
      · rename_i hstop
        rw [← hloop]
        obtain ⟨k, rfl⟩ := Nat.exists_eq_add_of_lt (by omega : 0 < fuel)
        refine (walkDirLoop_outside ?_).symm
        rintro ⟨hlo, hhi⟩
        have hmax := hok.clusters
        rw [hs.bpb, hb] at hhi
        unfold fat32Eoc at hstop
        unfold fat32Bad at hmax
        omega
      · exact hloop

section Mono

variable {walkDir' : FsckState → ℕ → Option FsckState} (hok : b.Ok) (hw : SettledWalk b walkDir)
  (hmono : ∀ s c s', s.vol.bpb = b → walkDir s c = some s' → walkDir' s c = some s')

include hmono

theorem walkEnt_mono {e : DirEnt} (hb : s.vol.bpb = b)
    (h : walkEnt walkDir fix s e = some s') : walkEnt walkDir' fix s e = some s' := by
  unfold walkEnt at *
  split at h
  · rename_i hdir
    rw [if_pos hdir]
    exact hmono s e.first s' hb h
  · rename_i hdir
    rw [if_neg hdir]
    exact h

include hok hw

theorem foldlM_walkEnt_mono {es : List DirEnt} (hb : s.vol.bpb = b)
    (h : es.foldlM (walkEnt walkDir fix) s = some s') :
    es.foldlM (walkEnt walkDir' fix) s = some s' := by
  induction es generalizing s with
  | nil => exact h
  | cons e es ih =>
    rw [foldlM_cons] at h ⊢
    obtain ⟨s₁, h₁, h₂⟩ := Option.bind_eq_some_iff.mp h
    have hb₁ := (walkEnt_settled hok hw hb h₁).bpb.trans hb
    exact Option.bind_eq_some_iff.mpr ⟨s₁, walkEnt_mono hmono hb h₁, ih hb₁ h₂⟩

theorem walkDirLoop_mono (hw' : SettledWalk b walkDir') {fuel cur : ℕ} (hb : s.vol.bpb = b)
    (h : walkDirLoop walkDir fix fuel s cur = some s') :
    walkDirLoop walkDir' fix fuel s cur = some s' := by
  induction fuel generalizing s cur with
  | zero => exact h
  | succ fuel ih =>
    by_cases hcur : b.InRange cur
    · rw [walkDirLoop_turn hok hw hb hcur] at h
      rw [walkDirLoop_turn hok hw' hb hcur]
      obtain ⟨s₁, hfold, hrest⟩ := Option.bind_eq_some_iff.mp h
      refine Option.bind_eq_some_iff.mpr ⟨s₁, foldlM_walkEnt_mono hok hw hmono hb hfold, ?_⟩
      have hb₁ := (foldlM_walkEnt_settled hok hw hb hfold).bpb.trans hb
      split at hrest
      · rename_i hall
        rw [if_pos hall]
        split at hrest
        · rename_i hstop
          rw [if_pos hstop]
          exact hrest
        · rename_i hstop
          rw [if_neg hstop]
          exact ih hb₁ hrest
      · rename_i hall
        rw [if_neg hall]
        exact hrest
    · rw [walkDirLoop_outside (by rwa [hb])] at h ⊢
      exact h

end Mono

end Directory

theorem settledWalk_walkDirectory {b : Bpb} (hok : b.Ok) (fix : Bool) (n : ℕ) :
    SettledWalk b (walkDirectory fix n) := by
  induction n with
  | zero =>
    intro s c s' _ h
    simp [walkDirectory] at h
  | succ n ih =>
    intro s c s' hb h
    have hs := settled_walkChain fix (hb ▸ hok : s.vol.bpb.Ok) c
    exact hs.trans (walkDirLoop_settled hok ih (hs.bpb.trans hb) h)

theorem walkDirectory_mono {b : Bpb} (hok : b.Ok) {n n' : ℕ} (hn : n ≤ n') {s : FsckState} {c : ℕ}
    {s' : FsckState} (hb : s.vol.bpb = b) (h : walkDirectory fix n s c = some s') :
    walkDirectory fix n' s c = some s' := by
  induction n generalizing n' s c s' with
  | zero => simp [walkDirectory] at h
  | succ n ih =>
    obtain ⟨k, rfl⟩ := Nat.exists_eq_add_of_le' hn
    have hs := settled_walkChain fix (hb ▸ hok : s.vol.bpb.Ok) c
    exact walkDirLoop_mono hok (settledWalk_walkDirectory hok fix n)
      (fun s₁ d s₂ hb₁ h₁ => ih (Nat.le_add_left n k) hb₁ h₁)
      (settledWalk_walkDirectory hok fix (k + n)) (hs.bpb.trans hb) h

end ImpossibleOs.Fat32
