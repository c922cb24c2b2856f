import ImpossibleOs.Fat32.FsckReach

/-!
When the consistency checker comes to an end.

`walk_directory` goes from a cluster of a directory to the subdirectories named there and, when
the cluster has no end mark, to the next one, whatever is marked: only a tree without a way back
lets it end.
-/

namespace ImpossibleOs.Fat32

open List

/-- Every entry of the cluster is in use: the directory goes on behind it. -/
def entriesFull (v : Volume) (c : ℕ) : Bool :=
  (entryAddrs v.bpb [c]).all fun a => v.disk a ≠ 0x00

/-- Where a walk goes on from a cluster of a directory. -/
inductive Leads (v : Volume) (c : ℕ) : ℕ → Prop
  | subdirectory (e : DirEnt) (hc : v.bpb.InRange c) (he : e ∈ liveEntries v.bpb v.disk [c])
      (hdir : e.isDir = true) : Leads v c e.first
  | next (hc : v.bpb.InRange c) (hfull : entriesFull v c = true) : Leads v c (getFatEntry v c)

/-- No way from `c` on is endless. -/
def Ends (v : Volume) (c : ℕ) : Prop := Acc (fun d c => Leads v c d) c

variable {v w : Volume} {s s' : FsckState} {fix : Bool} {n fuel c cur : ℕ} {es : List DirEnt}

theorem Ends.outside (hc : ¬ v.bpb.InRange c) : Ends v c := by
  refine .intro c fun d hd => ?_
  cases hd with
  | subdirectory e hin => exact absurd hin hc
  | next hin => exact absurd hin hc

theorem Ends.no_way_back (h : Ends v c) : ¬ Relation.TransGen (Leads v) c c := by
  induction Acc.transGen h with
  | intro c _ ih => exact fun hc => ih c (Relation.transGen_swap.mp hc) h hc

structure Trimmed (v w : Volume) : Prop where
  bpb : w.bpb = v.bpb
  data : ∀ x, v.bpb.firstDataSector * 512 ≤ x → w.disk x = v.disk x
  cuts : Cuts v w

theorem SameFat.trimmed (h : SameFat v w) : Trimmed v w :=
  ⟨h.bpb, fun x hx => h.outside x (.inr hx), fun c hc => .inl (h.fat c hc)⟩

theorem Trimmed.entries (hok : v.bpb.Ok) (h : Trimmed v w) (hc : v.bpb.InRange c) :
    liveEntries v.bpb w.disk [c] = liveEntries v.bpb v.disk [c] ∧
      ((entryAddrs v.bpb [c]).all fun a => w.disk a ≠ 0x00) = entriesFull v c := by
  have hl : ∀ x ∈ [c], v.bpb.InRange x := by simpa using hc
  refine ⟨liveEntries_congr hok hl h.data, ?_⟩
  rw [entriesFull, Bool.eq_iff_iff, all_eq_true, all_eq_true]
  refine forall₂_congr fun a ha => ?_
  rw [h.data a (dataStart_le_entryAddr hok hl a ha)]

theorem walkChain_read (hok : s.vol.bpb.Ok) (c : ℕ) : (walkChain false s c).vol = s.vol := by
  obtain ⟨l, hl⟩ := exists_claim s.vol s.marked c
  obtain ⟨-, hend, hcut⟩ := walkChainLoop_spec false hok s.marked l c 0 chainFuel s rfl
    (fun x hx => mem_marked hx) hl (fun _ _ => rfl) (hl.length_lt hok)
  by_cases hr : s.vol.bpb.InRange (claimEnd s.vol c l)
  · exact (hcut hr).2
  · exact (hend hr).1

theorem Trimmed.walkChain (hok : v.bpb.Ok) (h : Trimmed v s.vol) (fix : Bool) (c : ℕ) :
    Trimmed v (walkChain fix s c).vol := by
  have hok' : s.vol.bpb.Ok := h.bpb ▸ hok
  have hs := settled_walkChain fix hok' c
  refine ⟨hs.bpb.trans h.bpb, fun x hx => (hs.data x (h.bpb ▸ hx)).trans (h.data x hx), ?_⟩
  cases fix with
  | false => exact (walkChain_read hok' c).symm ▸ h.cuts
  | true => exact h.cuts.trans hok h.bpb (cuts_walkChain hok' c)

theorem stop_outside (hok : v.bpb.Ok) (hstop : c < 2 ∨ fat32Eoc ≤ c) : ¬ v.bpb.InRange c := by
  rintro ⟨hlo, hhi⟩
  have hmax := hok.clusters
  unfold fat32Eoc at hstop
  unfold fat32Bad at hmax
  omega

/-! ### Enough fuel -/

/-- From some fuel on the walk comes to an end, always the same. -/
def Arrives (v : Volume) (walk : ℕ → Option FsckState) : Prop :=
  ∃ N s', Trimmed v s'.vol ∧ ∀ n, N ≤ n → walk n = some s'

theorem Arrives.done (h : Trimmed v s.vol) : Arrives v fun _ => some s :=
  ⟨0, s, h, fun _ _ => rfl⟩

theorem Arrives.bind {f : ℕ → Option FsckState} {g : ℕ → FsckState → Option FsckState}
    (hf : Arrives v f) (hg : ∀ s, Trimmed v s.vol → Arrives v fun n => g n s) :
    Arrives v fun n => (f n).bind (g n) := by
  obtain ⟨N₁, s₁, ht₁, h₁⟩ := hf
  obtain ⟨N₂, s₂, ht₂, h₂⟩ := hg s₁ ht₁
  refine ⟨max N₁ N₂, s₂, ht₂, fun n hn => ?_⟩
  change (f n).bind (g n) = some s₂
  rw [h₁ n (le_trans (le_max_left _ _) hn)]
  exact h₂ n (le_trans (le_max_right _ _) hn)

theorem Arrives.directory (h : Arrives v fun n =>
      walkDirLoop (walkDirectory fix n) fix chainFuel (Fat32.walkChain fix s c) c) :
    Arrives v fun n => walkDirectory fix n s c := by
  obtain ⟨N, s', ht, hwalk⟩ := h
  refine ⟨N + 1, s', ht, fun n hn => ?_⟩
  obtain ⟨k, rfl⟩ := Nat.exists_eq_add_of_le' hn
  exact hwalk (k + N) (Nat.le_add_left N k)

theorem foldlM_arrives (hok : v.bpb.Ok)
    (hes : ∀ e ∈ es, e.isDir = true → ∀ s : FsckState, Trimmed v s.vol →
      Arrives v fun n => walkDirectory fix n s e.first) (h : Trimmed v s.vol) :
    Arrives v fun n => es.foldlM (walkEnt (walkDirectory fix n) fix) s := by
  induction es generalizing s with
  | nil => exact .done h
  | cons e es ih =>
    simp only [foldlM_cons]
    refine Arrives.bind ?_ fun s₁ h₁ => ih (fun e he => hes e (mem_cons_of_mem _ he)) h₁
    unfold walkEnt
    cases hdir : e.isDir with
    | true => exact hes e mem_cons_self hdir s h
    | false => exact .done (h.walkChain hok fix e.first)

theorem walkDirLoop_arrives (hok : v.bpb.Ok) (hends : Ends v cur) :
    ∀ {xs l : List ℕ} {fuel : ℕ} {s : FsckState}, Claim v xs cur l →
      (∀ x ∈ xs, Relation.TransGen (Leads v) x cur) → l.length < fuel → Trimmed v s.vol →
      Arrives v fun n => walkDirLoop (walkDirectory fix n) fix fuel s cur := by
  induction hends with
  | intro cur hacc ih =>
    intro xs l fuel s hl hxs hfuel h
    obtain ⟨k, rfl⟩ := Nat.exists_eq_add_of_lt hfuel
    by_cases hcur : v.bpb.InRange cur
    swap
    · simp only [walkDirLoop_outside (h.bpb.symm ▸ hcur)]
      exact .done h
    cases l with
    | nil =>
      -- a chain that comes back to a cluster is an endless way
      rcases hl with hout | hback
      · exact absurd hcur hout
      · exact absurd (hxs cur hback) (Ends.no_way_back (.intro cur hacc))
    | cons d l =>
      obtain ⟨rfl, -, -, hl⟩ := hl
      obtain ⟨hlive, hfull⟩ := h.entries hok hcur
      simp only [walkDirLoop_turn hok (settledWalk_walkDirectory hok fix _) h.bpb hcur, hlive,
        hfull]
      refine Arrives.bind (foldlM_arrives hok (fun e he hdir s hs => ?_) h) fun s₁ h₁ => ?_
      · obtain ⟨p, hp⟩ := exists_path v e.first
        exact .directory (ih e.first (.subdirectory e hcur he hdir) hp
          (fun x hx => absurd hx not_mem_nil) (hp.length_lt hok)
          (hs.walkChain hok fix e.first))
      by_cases hall : entriesFull v d = true
      swap
      · simp only [if_neg hall]
        exact .done h₁
      simp only [if_pos hall]
      by_cases hstop : getFatEntry s₁.vol d < 2 ∨ fat32Eoc ≤ getFatEntry s₁.vol d
      · simp only [if_pos hstop]
        exact .done h₁
      simp only [if_neg hstop]
      rcases h₁.cuts d hcur with heq | ⟨-, hcut⟩
      · rw [heq]
        refine ih _ (.next hcur hall) hl (fun x hx => ?_)
          (by simp only [length_cons]; omega) h₁
        rcases mem_cons.mp hx with rfl | hx
        · exact .single (.next hcur hall)
        · exact (hxs x hx).tail (.next hcur hall)
      · exact absurd (.inr (by rw [hcut]; decide)) hstop

/-! ### A walk that ended -/

theorem foldlM_ends
    (hwalk : ∀ (s s' : FsckState) (d : ℕ), SameFat v s.vol → walkDirectory false n s d = some s' →
      Ends v d ∧ SameFat v s'.vol) (hok : v.bpb.Ok) (h : SameFat v s.vol)
    (hfold : es.foldlM (walkEnt (walkDirectory false n) false) s = some s') :
    (∀ e ∈ es, e.isDir = true → Ends v e.first) ∧ SameFat v s'.vol := by
  induction es generalizing s with
  | nil =>
    cases hfold
    exact ⟨fun _ he => absurd he not_mem_nil, h⟩
  | cons e es ih =>
    rw [foldlM_cons] at hfold
    obtain ⟨s₁, hent, hrest⟩ := Option.bind_eq_some_iff.mp hfold
    have hone : (e.isDir = true → Ends v e.first) ∧ SameFat v s₁.vol := by
      unfold walkEnt at hent
      split at hent
      · obtain ⟨hends, hsame⟩ := hwalk s s₁ e.first h hent
        exact ⟨fun _ => hends, hsame⟩
      · rename_i hfile
        cases hent
        rw [walkChain_read (h.bpb ▸ hok)]
        exact ⟨fun hdir => absurd hdir hfile, h⟩
    obtain ⟨hes, hsame⟩ := ih hone.2 hrest
    refine ⟨fun d hd => ?_, hsame⟩
    rcases mem_cons.mp hd with rfl | hd
    · exact hone.1
    · exact hes d hd

theorem walkDirLoop_ends
    (hwalk : ∀ (s s' : FsckState) (d : ℕ), SameFat v s.vol → walkDirectory false n s d = some s' →
      Ends v d ∧ SameFat v s'.vol) (hok : v.bpb.Ok) (h : SameFat v s.vol)
    (hloop : walkDirLoop (walkDirectory false n) false fuel s cur = some s') :
    Ends v cur ∧ SameFat v s'.vol := by
  induction fuel generalizing s cur with
  | zero => cases hloop
  | succ fuel ih =>
    by_cases hcur : v.bpb.InRange cur
    swap
    · rw [walkDirLoop_outside (h.bpb.symm ▸ hcur)] at hloop
      cases hloop
      exact ⟨.outside hcur, h⟩
    obtain ⟨hlive, hfull⟩ := h.trimmed.entries hok hcur
    rw [walkDirLoop_turn hok (settledWalk_walkDirectory hok false n) h.bpb hcur, hlive,
      hfull] at hloop
    obtain ⟨s₁, hfold, hrest⟩ := Option.bind_eq_some_iff.mp hloop
    obtain ⟨hdirs, h₁⟩ := foldlM_ends hwalk hok h hfold
    have hnext : (entriesFull v cur = true → Ends v (getFatEntry v cur)) ∧
        SameFat v s'.vol := by
      rw [h₁.fat cur hcur] at hrest
      split at hrest
      · split at hrest
        · rename_i hstop
          cases hrest
          exact ⟨fun _ => .outside (stop_outside hok hstop), h₁⟩
        · obtain ⟨hends, hsame⟩ := ih h₁ hrest
          exact ⟨fun _ => hends, hsame⟩
      · rename_i hall
        cases hrest
        exact ⟨fun h => absurd h hall, h₁⟩
    refine ⟨.intro cur fun d hd => ?_, hnext.2⟩
    cases hd with
    | subdirectory e _ he hdir => exact hdirs e he hdir
    | next _ hall => exact hnext.1 hall

theorem walkDirectory_ends (hok : v.bpb.Ok) (n : ℕ) (s s' : FsckState) (c : ℕ)
    (h : SameFat v s.vol) (hwalk : walkDirectory false n s c = some s') :
    Ends v c ∧ SameFat v s'.vol := by
  induction n generalizing s s' c with
  | zero => cases hwalk
  | succ n ih =>
    refine walkDirLoop_ends ih hok ?_ hwalk
    rw [walkChain_read (h.bpb ▸ hok)]
    exact h

/-- The checker comes to an end with and without repairs exactly on the volumes that it refuses
and on those without an endless way from the root directory. -/
theorem fsck_ends_iff (v : Volume) (hok : v.bpb.Ok) : (∀ fix, ∃ n, (fsck n v fix).isSome = true) ↔
      (validateBpb v = true → Ends v v.bpb.rootCluster) := by
  have hsame := compareRepairFats_sameFat hok
  constructor
  · intro h hvalid
    obtain ⟨n, hres⟩ := h false
    unfold fsck at hres
    simp only [hvalid, hsame.bpb] at hres
    cases hwalk : walkDirectory false n (fsckStart (compareRepairFats v)) v.bpb.rootCluster with
    | none =>
      unfold fsckStart at hwalk
      simp [hwalk] at hres
    | some s => exact (walkDirectory_ends hok n _ s _ hsame hwalk).1
  · intro h fix
    cases hvalid : validateBpb v with
    | false => exact ⟨0, by simp [fsck, hvalid]⟩
    | true =>
      obtain ⟨p, hp⟩ := exists_path v v.bpb.rootCluster
      obtain ⟨N, s, -, hwalk⟩ := Arrives.directory (walkDirLoop_arrives hok (h hvalid) hp
        (fun x hx => absurd hx not_mem_nil) (hp.length_lt hok)
        (hsame.trimmed.walkChain (s := fsckStart (compareRepairFats v)) hok fix _))
      refine ⟨N, ?_⟩
      have hrun := hwalk N le_rfl
      unfold fsckStart at hrun
      dsimp only at hrun
      unfold fsck
      simp [hvalid, hsame.bpb, hrun]

/-- A volume whose root directory names itself as a subdirectory. -/
def ownParent : Volume where
  bpb := ⟨512, 1, 1, 1, 10, 1, 2, 2, 1⟩
  disk := fun x =>
    if x = 0 then 0xEB
    else if x = 520 ∨ x = 521 ∨ x = 522 then 0xFF
    else if x = 523 then 0x0F
    else if x = 1024 then 0x41
    else if x = 1035 then 0x10
    else if x = 1050 then 2
    else 0
  fsinfoValid := false
  fsinfoFreeCount := fsinfoUnknown
  fsinfoNextFree := 2
  fsinfoDirty := false

theorem ownParent_ok : ownParent.bpb.Ok := by
  constructor <;> decide

theorem ownParent_walk (n : ℕ) (h : Trimmed ownParent s.vol) : walkDirectory fix n s 2 = none := by
  induction n generalizing s with
  | zero => rfl
  | succ n ih =>
    have hin : ownParent.bpb.InRange 2 := ⟨by decide, by decide⟩
    have hlive : liveEntries ownParent.bpb ownParent.disk [2] = [⟨1024, true, 2⟩] := by
      decide
    have h' := h.walkChain ownParent_ok fix 2
    rw [walkDirectory, show chainFuel = 2 ^ 28 - 1 + 1 from rfl,
      walkDirLoop_turn ownParent_ok (settledWalk_walkDirectory ownParent_ok fix n) h'.bpb hin,
      (h'.entries ownParent_ok hin).1, hlive, foldlM_cons, walkEnt, if_pos rfl, ih h']
    rfl

theorem fsck_ends_iff_ownParent : (∀ fix, ∃ n, (fsck n ownParent fix).isSome = true) ↔
    (validateBpb ownParent = true → Ends ownParent 2) :=
  fsck_ends_iff ownParent ownParent_ok

/-- The walk goes down from the root directory to itself, with repairs and without. -/
theorem fsck_ownParent_never : ¬ ∃ fix n, (fsck n ownParent fix).isSome = true := by
  rintro ⟨fix, n, hres⟩
  have hvalid : validateBpb ownParent = true := by decide
  have hsame := (compareRepairFats_sameFat ownParent_ok).trimmed
  have hwalk := @ownParent_walk (fsckStart (compareRepairFats ownParent)) fix n hsame
  have hroot : ownParent.bpb.rootCluster = 2 := rfl
  unfold fsckStart at hwalk
  unfold fsck at hres
  simp [hvalid, hsame.bpb, hroot, hwalk] at hres

end ImpossibleOs.Fat32
