import ImpossibleOs.Fat32.FsckReach
import ImpossibleOs.Fat32.FsckIo

/-!
What a repair on a failing device may do harm to.

As long as the walk can read the FAT, a run in which the directories are read too
is a run without failures, and one in which they are not frees nothing.
-/

namespace ImpossibleOs.Fat32

open ByteMem List Option Bool Nat

variable {fails : ℕ → Bool} {v w : Volume} {b : Bpb}

/-! ### Reads and updates of the FAT -/

/-- The first `k` reads go well. -/
def Quiet (fails : ℕ → Bool) (k : ℕ) : Prop := ∀ t < k, fails t = false

theorem Quiet.mono {k l : ℕ} (h : Quiet fails l) (hk : k ≤ l) : Quiet fails k :=
  fun t ht => h t (ht.trans_le hk)

variable {c : ℕ} {s : FsckIo}

theorem getFatIo_of_reads {t : ℕ} (h : fails t = false) :
    getFatIo fails v t c = getFatEntry v c := by
  rw [getFatIo, h, if_neg (by simp)]

theorem getFatIo_of_fails {t : ℕ} (h : fails t = true) : getFatIo fails v t c = fat32Eoc := by
  rw [getFatIo, h, if_pos rfl]

/-- An update writes all copies, or those before the first that cannot be read. -/
theorem setFatIo_cases (fails : ℕ → Bool) (v : Volume) (t c value : ℕ) :
    ((setFatIo fails v t c value).ok = true ∧
      (setFatIo fails v t c value).disk = (setFatEntry v c value).disk ∧
      (setFatIo fails v t c value).reads = t + v.bpb.numFats ∧
      (0 < v.bpb.numFats → fails t = false)) ∨
    ((setFatIo fails v t c value).ok = false ∧ ∃ k < v.bpb.numFats,
      (setFatIo fails v t c value).disk =
        (List.range k).foldl (setFatCopy v.bpb c value) v.disk ∧
      fails (t + k) = true ∧ t + k < (setFatIo fails v t c value).reads ∧
      (0 < k → fails t = false)) := by
  refine Loop.foldl_range (n := v.bpb.numFats) (f := setCopyIo fails v.bpb c value) (fun i st =>
    (st.ok = true ∧ st.disk = (List.range i).foldl (setFatCopy v.bpb c value) v.disk ∧
      st.reads = t + i ∧ (0 < i → fails t = false)) ∨
    (st.ok = false ∧ ∃ k < i, st.disk = (List.range k).foldl (setFatCopy v.bpb c value) v.disk ∧
      fails (t + k) = true ∧ t + k < st.reads ∧ (0 < k → fails t = false)))
    (.inl ⟨rfl, rfl, rfl, fun h => absurd h (Nat.lt_irrefl 0)⟩) ?_
  rintro i - st (⟨hok, hdisk, hreads, hfirst⟩ | ⟨hbad, k, hk, hrest⟩)
  · unfold setCopyIo
    rw [hok, hreads]
    cases hf : fails (t + i) with
    | true => exact .inr ⟨rfl, i, Nat.lt_succ_self i, hdisk, hf, Nat.lt_succ_self _, hfirst⟩
    | false =>
      refine .inl ⟨rfl, ?_, rfl, fun _ => ?_⟩
      · rw [range_succ, foldl_append, ← hdisk]
        rfl
      · rcases Nat.eq_zero_or_pos i with rfl | hi
        · exact hf
        · exact hfirst hi
  · have hsame : setCopyIo fails v.bpb c value st i = st := by simp [setCopyIo, hbad]
    rw [hsame]
    exact .inr ⟨hbad, k, by omega, hrest⟩

theorem le_setFatIo_reads (t c value : ℕ) : t ≤ (setFatIo fails v t c value).reads := by
  rcases setFatIo_cases fails v t c value with ⟨-, -, hreads, -⟩ |
    ⟨-, k, -, -, -, hreads, -⟩ <;> omega

theorem setFatIo_quiet {t value : ℕ} (h : Quiet fails (setFatIo fails v t c value).reads) :
    (setFatIo fails v t c value).disk = (setFatEntry v c value).disk ∧
      (setFatIo fails v t c value).ok = true := by
  rcases setFatIo_cases fails v t c value with ⟨hok, hdisk, -⟩ |
    ⟨-, k, -, -, hf, hreads, -⟩
  · exact ⟨hdisk, hok⟩
  · rw [h _ hreads] at hf
    contradiction

theorem getFatEntry_setFatIo_other (hok : v.bpb.Ok) {c c' : ℕ} (hc : c < v.bpb.maxCluster)
    (hc' : c' < v.bpb.maxCluster) (hne : c' ≠ c) (t value : ℕ) :
    getFatEntry { v with disk := (setFatIo fails v t c value).disk } c' = getFatEntry v c' := by
  rcases setFatIo_cases fails v t c value with ⟨-, hdisk, -⟩ |
    ⟨-, k, hk, hdisk, -⟩
  · rw [hdisk]
    exact getFatEntry_setFatEntry_other hok hc hc' hne
  · rw [getFatEntry, getFatEntry, (readLE_setFatCopies hok value hc hk.le hdisk).2 c' hc' hne]

theorem getFatEntry_setFatIo_same (fails : ℕ → Bool) (hok : v.bpb.Ok) (hc : c < v.bpb.maxCluster)
    (t : ℕ) {value : ℕ} (hvalue : value < 2 ^ 28) :
    getFatEntry { v with disk := (setFatIo fails v t c value).disk } c =
      if fails t then getFatEntry v c else value := by
  rcases setFatIo_cases fails v t c value with ⟨-, hdisk, -, hfirst⟩ |
    ⟨-, k, hk, hdisk, hf, -, hfirst⟩
  · rw [hdisk, hfirst hok.fatsPos, if_neg (by simp)]
    exact getFatEntry_setFatEntry_same hok hc hvalue
  · rcases Nat.eq_zero_or_pos k with rfl | hpos
    · rw [Nat.add_zero] at hf
      rw [hf, if_pos rfl, hdisk]
      rfl
    · rw [hfirst hpos, if_neg (by simp), getFatEntry,
        (readLE_setFatCopies hok value hc hk.le hdisk).1 hpos, mod_eq_of_lt hvalue]

theorem compareRepairFatsIo_sameFat (fails : ℕ → Bool) (hok : v.bpb.Ok) :
    SameFat v (compareRepairFatsIo fails v) := by
  unfold compareRepairFatsIo
  split
  · exact ⟨rfl, SameOutside.refl _ _ _, fun _ _ => rfl⟩
  · rename_i hfats
    have hsecond := hok.secondFat hfats
    refine .behind hok (Loop.foldl_range (fun _ m =>
      SameOutside ((v.bpb.firstFatSector + v.bpb.fatSizeSectors) * 512)
        (v.bpb.firstDataSector * 512) v.disk m) (SameOutside.refl _ _ _) fun i hi m hm => ?_)
    split
    · exact hm
    · exact hm.trans (sameOutside_copyUp (by omega) (by omega))

/-! ### A walk with failures -/

/-- How the state `s'` of a walk comes from `s`. If no read has failed, `same` holds, which says
that it is a walk without failures. -/
structure Tracks (b : Bpb) (fails : ℕ → Bool) (s s' : FsckIo) (same : Prop) : Prop where
  bpb : s'.core.vol.bpb = b
  cuts : Cuts s.core.vol s'.core.vol
  reads : s.reads ≤ s'.reads
  failed : s.traversalFailed = true → s'.traversalFailed = true
  core : Quiet fails s'.reads → s'.traversalFailed = false → same

theorem Tracks.trans {s₁ s₂ : FsckIo} {p q r : Prop} (hok : b.Ok) (hb : s.core.vol.bpb = b)
    (h : Tracks b fails s s₁ p) (h' : Tracks b fails s₁ s₂ q) (hpq : p → q → r) :
    Tracks b fails s s₂ r := by
  refine ⟨h'.bpb, h.cuts.trans (hb ▸ hok) (h.bpb.trans hb.symm) h'.cuts, h.reads.trans h'.reads,
    fun hf => h'.failed (h.failed hf), fun hq hf => hpq (h.core (hq.mono h'.reads) ?_)
      (h'.core hq hf)⟩
  rw [eq_false_iff] at hf ⊢
  exact fun ht => hf (h'.failed ht)

theorem Tracks.refl {p : Prop} (hb : s.core.vol.bpb = b) (hp : p) : Tracks b fails s s p :=
  ⟨hb, Cuts.refl _, le_rfl, id, fun _ _ => hp⟩

/-- One read, which leaves volume and marks alone. -/
theorem Tracks.read {p : Prop} {core : FsckState} (hb : s.core.vol.bpb = b)
    (hvol : core.vol = s.core.vol) (hp : fails s.reads = false → p) :
    Tracks b fails s { s with core := core, reads := s.reads + 1 } p :=
  ⟨hvol ▸ hb, hvol ▸ Cuts.refl _, Nat.le_succ _, id, fun hq _ => hp (hq _ (Nat.lt_succ_self _))⟩

/-- The link of `prev` to `c` is cut. -/
theorem cut_tracks (hok : b.Ok) (hb : s.core.vol.bpb = b) {prev : ℕ} (hprev : b.InRange prev)
    (hlink : b.InRange (getFatEntry s.core.vol prev)) :
    Tracks b fails s (s.cut fails prev)
      ((s.cut fails prev).core = { s.core with vol := setFatEntry s.core.vol prev eocMark }) := by
  subst hb
  refine ⟨rfl, fun c hc => ?_, le_setFatIo_reads _ _ _, id, fun hq _ => ?_⟩
  · by_cases hcp : c = prev
    · subst hcp
      have hself := getFatEntry_setFatIo_same fails hok hprev.2 s.reads
        (show eocMark < 2 ^ 28 by decide)
      rcases Bool.eq_false_or_eq_true (fails s.reads) with hf | hf
      · rw [hf, if_pos rfl] at hself
        exact .inl hself
      · rw [hf, if_neg (by simp)] at hself
        exact .inr ⟨hlink, hself⟩
    · exact .inl (getFatEntry_setFatIo_other hok hprev.2 hc.2 hcp _ _)
  · have hdisk := (setFatIo_quiet hq).1
    unfold FsckIo.cut
    simp only [hdisk]
    rfl

theorem walkChainIoLoop_tracks (hok : b.Ok) (fuel : ℕ) (hb : s.core.vol.bpb = b)
    (cluster prev : ℕ)
    (hprev : prev ≠ 0 → b.InRange prev ∧ getFatEntry s.core.vol prev = cluster) :
    Tracks b fails s (walkChainIoLoop fails true fuel s cluster prev)
      (walkChainLoop true fuel s.core cluster prev =
        (walkChainIoLoop fails true fuel s cluster prev).core) := by
  induction fuel generalizing s cluster prev with
  | zero => exact .refl hb rfl
  | succ fuel ih =>
    rw [walkChainIoLoop, walkChainLoop]
    by_cases hr : 2 ≤ cluster ∧ cluster < s.core.vol.bpb.maxCluster
    swap
    · rw [if_neg hr, if_neg hr]
      exact .refl hb rfl
    rw [if_pos hr, if_pos hr]
    dsimp only
    by_cases hvis : s.core.visited cluster
    · rw [if_pos hvis, if_pos hvis]
      by_cases hfix : true = true ∧ prev ≠ 0
      · rw [if_pos hfix, if_pos hfix]
        obtain ⟨hin, hlink⟩ := hprev hfix.2
        have hread : Tracks b fails s { s with
            core := { s.core with crossLinks := u32 (s.core.crossLinks + 1) }
            reads := s.reads + 1 } True := .read hb rfl fun _ => trivial
        have hcut := @cut_tracks fails b { s with
            core := { s.core with crossLinks := u32 (s.core.crossLinks + 1) }
            reads := s.reads + 1 } hok hb prev hin (by rw [hlink, ← hb]; exact hr)
        exact hread.trans hok hb hcut fun _ hcut => hcut.symm
      · rw [if_neg hfix, if_neg hfix]
        exact .read hb rfl fun _ => rfl
    · rw [if_neg hvis, if_neg hvis]
      cases hq : fails s.reads with
      | true =>
        rw [getFatIo_of_fails hq, if_pos le_rfl]
        exact .read hb rfl fun hno => by simp [hq] at hno
      | false =>
        rw [getFatIo_of_reads hq]
        by_cases h₁ : fat32Eoc ≤ getFatEntry s.core.vol cluster
        · rw [if_pos h₁, if_pos h₁]
          exact .read hb rfl fun _ => rfl
        by_cases h₂ : getFatEntry s.core.vol cluster = fat32Bad
        · rw [if_neg h₁, if_neg h₁, if_pos h₂, if_pos h₂]
          exact .read hb rfl fun _ => rfl
        by_cases h₃ : getFatEntry s.core.vol cluster < 2
        · rw [if_neg h₁, if_neg h₁, if_neg h₂, if_neg h₂, if_pos h₃, if_pos h₃]
          exact .read hb rfl fun _ => rfl
        rw [if_neg h₁, if_neg h₁, if_neg h₂, if_neg h₂, if_neg h₃, if_neg h₃]
        have hread : Tracks b fails s { s with core := s.core.mark cluster, reads := s.reads + 1 }
            True := .read hb rfl fun _ => trivial
        exact hread.trans hok hb (ih (s := { s with core := s.core.mark cluster, reads :=
          s.reads + 1 }) hb _ cluster fun _ => ⟨hb ▸ hr, rfl⟩) fun _ h => h

theorem walkChainIo_tracks (fails : ℕ → Bool) (hok : b.Ok) (hb : s.core.vol.bpb = b) (c : ℕ) :
    Tracks b fails s (walkChainIo fails true s c)
      (walkChain true s.core c = (walkChainIo fails true s c).core) :=
  walkChainIoLoop_tracks hok chainFuel hb c 0 fun h => absurd rfl h

section Directory

variable {n : ℕ} (hok : b.Ok) (ih : ∀ {s s' : FsckIo} {c : ℕ}, s.core.vol.bpb = b →
    walkDirectoryIo fails true n s c = some s' →
    Tracks b fails s s' (walkDirectory true n s.core c = some s'.core))

/-- The result of a scan of entries, without what only the walk with failures has. -/
def coreOf : Except (Option FsckIo) FsckIo → Except (Option FsckState) FsckState
  | .error o => .error (o.map FsckIo.core)
  | .ok s => .ok s.core

/-- The state a scan of entries ends with. -/
def stateOf : Except (Option FsckIo) FsckIo → Option FsckIo
  | .error o => o
  | .ok s => some s

/-- What a scan of entries has done, if it did not run out of fuel. -/
def TracksScan (b : Bpb) (fails : ℕ → Bool) (s : FsckIo) (r : Except (Option FsckIo) FsckIo)
    (old : Except (Option FsckState) FsckState) : Prop :=
  ∀ s', stateOf r = some s' → Tracks b fails s s' (old = coreOf r)

theorem TracksScan.refl {r : Except (Option FsckIo) FsckIo} (hb : s.core.vol.bpb = b)
    (hr : stateOf r = some s) : TracksScan b fails s r (coreOf r) := by
  intro s' hs'
  obtain rfl : s = s' := some.inj (hr.symm.trans hs')
  exact .refl hb rfl

include hok ih

theorem walkEntryIo_tracks (m : ByteMem) {s : FsckIo} (hb : s.core.vol.bpb = b) (a : ℕ) :
    TracksScan b fails s (walkEntryIo (walkDirectoryIo fails true n) fails true m s a)
      (walkEntry (walkDirectory true n) true m s.core a) := by
  unfold walkEntryIo walkEntry
  by_cases h0 : m a = 0x00
  · rw [if_pos h0, if_pos h0]
    exact .refl hb rfl
  rw [if_neg h0, if_neg h0]
  by_cases hskip : (deSkipped m a || deIsDot m a) = true
  · rw [if_pos hskip, if_pos hskip]
    exact .refl hb rfl
  rw [if_neg hskip, if_neg hskip]
  dsimp only
  by_cases hrange : deFirstCluster m a < 2 ∨ s.core.vol.bpb.maxCluster ≤ deFirstCluster m a
  · rw [if_pos hrange, if_pos hrange]
    exact .refl hb rfl
  rw [if_neg hrange, if_neg hrange]
  intro s' hs'
  by_cases hdir : deAttr m a &&& 0x10 ≠ 0
  · rw [if_pos hdir] at hs' ⊢
    rw [if_pos hdir]
    cases hwalk : walkDirectoryIo fails true n s (deFirstCluster m a) with
    | none =>
      rw [hwalk] at hs'
      contradiction
    | some s₁ =>
      rw [hwalk] at hs'
      obtain rfl : s₁ = s' := some.inj hs'
      have ht := ih hb hwalk
      refine { ht with core := fun hq hf => ?_ }
      rw [ht.core hq hf]
      rfl
  · rw [if_neg hdir] at hs' ⊢
    rw [if_neg hdir]
    obtain rfl := some.inj hs'
    have ht := walkChainIo_tracks fails hok hb (deFirstCluster m a)
    refine { ht with core := fun hq hf => ?_ }
    rw [ht.core hq hf]
    rfl

theorem foldlM_walkEntryIo_tracks (m : ByteMem) (addrs : List ℕ) {s : FsckIo}
    (hb : s.core.vol.bpb = b) : TracksScan b fails s
      (addrs.foldlM (walkEntryIo (walkDirectoryIo fails true n) fails true m) s)
      (addrs.foldlM (walkEntry (walkDirectory true n) true m) s.core) := by
  induction addrs generalizing s with
  | nil => exact .refl hb rfl
  | cons a addrs ihs =>
    intro s' hs'
    have hone := walkEntryIo_tracks hok ih m hb a
    rw [foldlM_cons] at hs' ⊢
    rw [foldlM_cons]
    cases hent : walkEntryIo (walkDirectoryIo fails true n) fails true m s a with
    | error o =>
      rw [hent] at hs' hone
      have ht := hone s' hs'
      refine { ht with core := fun hq hf => ?_ }
      rw [ht.core hq hf]
      rfl
    | ok s₁ =>
      rw [hent] at hs' hone
      have ht := hone s₁ rfl
      refine ht.trans hok hb (ihs ht.bpb s' hs') fun hold hrest => ?_
      rw [hold]
      exact hrest

theorem walkDirIoLoop_tracks {fuel cur : ℕ} {s s' : FsckIo} (hb : s.core.vol.bpb = b)
    (hwalk : walkDirIoLoop (walkDirectoryIo fails true n) fails true fuel s cur = some s') :
    Tracks b fails s s'
      (walkDirLoop (walkDirectory true n) true fuel s.core cur = some s'.core) := by
  induction fuel generalizing s cur with
  | zero => simp [walkDirIoLoop] at hwalk
  | succ fuel ihf =>
    rw [walkDirIoLoop] at hwalk
    rw [walkDirLoop]
    dsimp only at hwalk
    by_cases hr : 2 ≤ cur ∧ cur < s.core.vol.bpb.maxCluster
    swap
    · rw [if_neg hr] at hwalk ⊢
      obtain rfl := some.inj hwalk
      exact .refl hb rfl
    rw [if_pos hr] at hwalk ⊢
    split at hwalk
    · -- the cluster cannot be read
      obtain rfl := some.inj hwalk
      exact ⟨hb, Cuts.refl _, Nat.le_succ _, fun _ => rfl, fun _ hf => absurd hf (by simp)⟩
    have hread : Tracks b fails s { s with reads := s.reads + 1 } True :=
      .read hb rfl fun _ => trivial
    have hscan := foldlM_walkEntryIo_tracks hok ih s.core.vol.disk
      ((List.range (s.core.vol.bpb.bytesPerCluster / 32)).map fun i =>
        clusterAddr s.core.vol.bpb cur + 32 * i) (s := { s with reads := s.reads + 1 }) hb
    rw [foldlM_map, foldlM_map] at hscan
    split at hwalk
    · rename_i res hfold
      rw [hfold] at hscan
      refine hread.trans hok hb (hscan s' hwalk) fun _ hold => ?_
      rw [hold, coreOf]
      dsimp only
      rw [hwalk]
      rfl
    · rename_i s₁ hfold
      rw [hfold] at hscan
      have ht := hread.trans hok hb (hscan s₁ rfl) fun _ hold => hold
      by_cases hstop : getFatIo fails s₁.core.vol s₁.reads cur < 2 ∨
          fat32Eoc ≤ getFatIo fails s₁.core.vol s₁.reads cur
      · rw [if_pos hstop] at hwalk
        obtain rfl := some.inj hwalk
        refine ht.trans hok hb (q := getFatEntry s₁.core.vol cur < 2 ∨
          fat32Eoc ≤ getFatEntry s₁.core.vol cur) (.read ht.bpb rfl fun hq => ?_)
          fun hold hend => ?_
        · rwa [getFatIo_of_reads hq] at hstop
        · rw [hold, coreOf]
          dsimp only
          rw [if_pos hend]
      · rw [if_neg hstop] at hwalk
        -- an entry that cannot be read ends the loop
        have hq : getFatIo fails s₁.core.vol s₁.reads cur = getFatEntry s₁.core.vol cur := by
          cases hf : fails s₁.reads with
          | false => exact getFatIo_of_reads hf
          | true =>
            rw [getFatIo_of_fails hf] at hstop
            exact absurd (.inr le_rfl) hstop
        rw [hq] at hstop hwalk
        have hread₁ : Tracks b fails s₁ { s₁ with reads := s₁.reads + 1 } True :=
          .read ht.bpb rfl fun _ => trivial
        refine (ht.trans hok hb hread₁ fun hold _ => hold).trans hok hb
          (ihf (s := { s₁ with reads := s₁.reads + 1 }) ht.bpb hwalk) fun hold hrest => ?_
        rw [hold, coreOf]
        dsimp only
        rw [if_neg hstop]
        exact hrest

end Directory

theorem walkDirectoryIo_tracks (hok : b.Ok) (n : ℕ) {s s' : FsckIo} (hb : s.core.vol.bpb = b)
    (hwalk : walkDirectoryIo fails true n s c = some s') :
    Tracks b fails s s' (walkDirectory true n s.core c = some s'.core) := by
  induction n generalizing s s' c with
  | zero => simp [walkDirectoryIo] at hwalk
  | succ n ih =>
    rw [walkDirectoryIo] at hwalk
    rw [walkDirectory]
    have hchain := walkChainIo_tracks fails hok hb c
    refine hchain.trans hok hb (walkDirIoLoop_tracks hok ih hchain.bpb hwalk) fun hold hrest => ?_
    rw [hold]
    exact hrest

section Lost

variable {free : Bool} {visited : ℕ → Bool} {st : LostScan}

theorem scanLostIo_bpb (fails : ℕ → Bool) (free : Bool) (visited : ℕ → Bool) (st : LostScan)
    (d : ℕ) : (scanLostIo fails free visited st d).vol.bpb = st.vol.bpb := by
  unfold scanLostIo
  dsimp only
  repeat' split
  all_goals rfl

theorem scanLostIo_keeps (hok : st.vol.bpb.Ok) {c d : ℕ} (hd : st.vol.bpb.InRange d)
    (hc : st.vol.bpb.InRange c) (hkeep : free = false ∨ visited c = true ∨ c ≠ d) :
    getFatEntry (scanLostIo fails free visited st d).vol c = getFatEntry st.vol c := by
  unfold scanLostIo
  dsimp only
  split
  · rename_i hlost
    split
    · rename_i hfree
      refine getFatEntry_setFatIo_other hok hd.2 hc.2 ?_ _ _
      rcases hkeep with hno | hvis | hne
      · rw [hno] at hfree
        contradiction
      · rintro rfl
        rw [hvis] at hlost
        simp at hlost
      · exact hne
    · rfl
  · rfl

variable {xs : List ℕ}

theorem foldl_scanLostIo_bpb (xs : List ℕ) (st : LostScan) :
    (xs.foldl (scanLostIo fails free visited) st).vol.bpb = st.vol.bpb := by
  induction xs generalizing st with
  | nil => rfl
  | cons d xs ih => rw [foldl_cons, ih, scanLostIo_bpb]

theorem foldl_scanLostIo_keeps (hok : st.vol.bpb.Ok)
    (hxs : ∀ d ∈ xs, st.vol.bpb.InRange d) {c : ℕ} (hc : st.vol.bpb.InRange c)
    (hkeep : free = false ∨ visited c = true ∨ c ∉ xs) :
    getFatEntry (xs.foldl (scanLostIo fails free visited) st).vol c = getFatEntry st.vol c := by
  induction xs generalizing st with
  | nil => rfl
  | cons d xs ih =>
    have hb := scanLostIo_bpb fails free visited st d
    rw [foldl_cons, ih (hb ▸ hok) (fun x hx => hb ▸ hxs x (mem_cons_of_mem d hx))
      (hb ▸ hc)]
    · refine scanLostIo_keeps hok (hxs d mem_cons_self) hc ?_
      rcases hkeep with h | h | h
      · exact .inl h
      · exact .inr (.inl h)
      · exact .inr (.inr fun heq => h (heq ▸ mem_cons_self))
    · rcases hkeep with h | h | h
      · exact .inl h
      · exact .inr (.inl h)
      · exact .inr (.inr fun hin => h (mem_cons_of_mem d hin))

/-- What the scan does to a cluster in use: it is free afterwards, unless it is marked or its
entry cannot be read for the update. -/
theorem scanLostTo_used (fails : ℕ → Bool) {s : FsckIo} (hok : s.core.vol.bpb.Ok)
    (hc : s.core.vol.bpb.InRange c)
    (hused : getFatEntry s.core.vol c ≠ fat32Free) :
    getFatEntry (scanLostTo fails true s s.core.vol.bpb.maxCluster).vol c =
      if s.core.visited c = true ∨ fails ((scanLostTo fails true s c).reads + 1) = true then
        getFatEntry s.core.vol c
      else fat32Free := by
  have hlo := hc.1
  have hhi := hc.2
  have hsplit : List.range' 2 (s.core.vol.bpb.maxCluster - 2) = List.range' 2 (c - 2) ++
      c :: List.range' (c + 1) (s.core.vol.bpb.maxCluster - 1 - c) := by
    have h₁ := @range'_append_1 2 (c - 2) (s.core.vol.bpb.maxCluster - 1 - c + 1)
    rw [range'_succ, show 2 + (c - 2) = c by omega,
      show c - 2 + (s.core.vol.bpb.maxCluster - 1 - c + 1) = s.core.vol.bpb.maxCluster - 2 by
        omega] at h₁
    exact h₁.symm
  have hbefore : ∀ d ∈ List.range' 2 (c - 2), s.core.vol.bpb.InRange d ∧ d < c := by
    intro d hd
    rw [mem_range'_1] at hd
    exact ⟨⟨hd.1, by omega⟩, by omega⟩
  have hfirst : getFatEntry (scanLostTo fails true s c).vol c = getFatEntry s.core.vol c :=
    foldl_scanLostIo_keeps hok (fun d hd => (hbefore d hd).1) hc
      (.inr (.inr fun hin => Nat.lt_irrefl c (hbefore c hin).2))
  have hb : (scanLostTo fails true s c).vol.bpb = s.core.vol.bpb := foldl_scanLostIo_bpb _ _
  have hstep : (scanLostTo fails true s s.core.vol.bpb.maxCluster) =
      (List.range' (c + 1) (s.core.vol.bpb.maxCluster - 1 - c)).foldl
        (scanLostIo fails true s.core.visited)
        (scanLostIo fails true s.core.visited (scanLostTo fails true s c) c) := by
    rw [scanLostTo, hsplit, foldl_append]
    rfl
  rw [hstep]
  generalize scanLostTo fails true s c = st at hfirst hb
  have hb' := (scanLostIo_bpb fails true s.core.visited st c).trans hb
  rw [foldl_scanLostIo_keeps (hb' ▸ hok) _ (hb' ▸ hc)]
  · unfold scanLostIo
    dsimp only
    cases hvis : s.core.visited c with
    | true => simp [hfirst]
    | false =>
      have hne : getFatIo fails st.vol st.reads c ≠ fat32Free := by
        cases hf : fails st.reads with
        | true =>
          rw [getFatIo_of_fails hf]
          decide
        | false =>
          rw [getFatIo_of_reads hf, hfirst]
          exact hused
      rw [if_pos ⟨hne, rfl⟩, if_pos rfl]
      rw [getFatEntry_setFatIo_same fails (hb ▸ hok) (hb ▸ hhi) _ (by decide), hfirst]
      simp
  · exact .inr (.inr fun hin => by
      rw [mem_range'_1] at hin
      omega)
  · intro d hd
    rw [mem_range'_1] at hd
    rw [hb']
    exact ⟨by omega, by omega⟩

end Lost

/-! ### The whole run -/

theorem SameFat.chainPrefix (h : SameFat v w) {l : List ℕ} (hl : ChainPrefix v c l) :
    ChainPrefix w c l := by
  induction l generalizing c with
  | nil => trivial
  | cons d l ih =>
    obtain ⟨rfl, hr, hl'⟩ := hl
    refine ⟨rfl, by rw [h.bpb]; exact hr, ?_⟩
    rw [h.fat d hr]
    exact ih hl'

theorem SameFat.onChain (h : SameFat v w) {c d : ℕ} (hd : OnChain v c d) : OnChain w c d := by
  obtain ⟨l, hl, hmem⟩ := hd
  exact ⟨l, h.chainPrefix hl, hmem⟩

theorem ChainPrefix.inRange {l : List ℕ} (h : ChainPrefix v c l) : ∀ x ∈ l, v.bpb.InRange x := by
  induction l generalizing c with
  | nil => simp
  | cons d l ih =>
    obtain ⟨rfl, hr, h'⟩ := h
    intro x hx
    rcases mem_cons.mp hx with rfl | hx
    · exact hr
    · exact ih h' x hx

theorem SameFat.owner (hok : v.bpb.Ok) (h : SameFat v w) {e : DirEnt} (ho : Owner v e) :
    Owner w e := by
  induction ho with
  | root => exact h.bpb ▸ .root
  | child _ hdir hl he ih =>
    refine .child ih hdir (h.chainPrefix hl) ?_
    rw [h.bpb, liveEntries_congr hok hl.inRange fun x hx => h.outside x (.inr hx)]
    exact he

theorem SameFat.dirsWhole (hok : v.bpb.Ok) (h : SameFat v w) (hdirs : DirsWhole v) :
    DirsWhole w := by
  have hok' : w.bpb.Ok := h.bpb ▸ hok
  intro e e' p p' ho hdir ho' hp hp' hmeet
  exact hdirs e e' p p' (h.symm.owner hok' ho) hdir (h.symm.owner hok' ho') (h.symm.claim hp)
    (h.symm.claim hp') hmeet

/-- No cluster in use of the tree of `v` is free in `w`, and clusters marked bad still are. -/
structure Harmless (v w : Volume) : Prop where
  tree : ∀ e c, Owner v e → OnChain v e.first c → getFatEntry v c ≠ fat32Free →
    getFatEntry w c ≠ fat32Free
  bad : ∀ c, v.bpb.InRange c → getFatEntry v c = fat32Bad → getFatEntry w c = fat32Bad

theorem Cuts.used (hcuts : Cuts v w) (hc : v.bpb.InRange c)
    (hused : getFatEntry v c ≠ fat32Free) : getFatEntry w c ≠ fat32Free := by
  rcases hcuts c hc with heq | ⟨-, heq⟩
  · rw [heq]
    exact hused
  · rw [heq]
    decide

theorem Cuts.bad (hok : v.bpb.Ok) (hcuts : Cuts v w) (hc : v.bpb.InRange c)
    (hbad : getFatEntry v c = fat32Bad) : getFatEntry w c = fat32Bad := by
  rcases hcuts c hc with heq | ⟨hin, -⟩
  · rw [heq, hbad]
  · rw [hbad] at hin
    have := hin.2
    have := hok.clusters
    omega

theorem OnChain.inRange {c d : ℕ} (h : OnChain v c d) : v.bpb.InRange d := by
  obtain ⟨l, hl, hd⟩ := h
  exact hl.inRange d hd

/-- Cluster `c` is on the chain of an entry of the tree. -/
def OnTree (v : Volume) (c : ℕ) : Prop := ∃ e, Owner v e ∧ OnChain v e.first c

/-- The run goes on to free clusters: the boot sector can be read and is accepted, and the walk,
which ends in `s`, has read every directory cluster that it came to. -/
structure Frees (f : ReadFaults) (n : ℕ) (v : Volume) (s : FsckIo) : Prop where
  boot : f.boot = false
  valid : validateBpb v = true
  walk : walkDirectoryIo f.walk true n (walkStart (compareRepairFatsIo f.compare v))
    v.bpb.rootCluster = some s
  complete : s.traversalFailed = false

/-- The entry of `c` cannot be read when the scan is to free it. -/
def Unreadable (f : ReadFaults) (s : FsckIo) (c : ℕ) : Prop :=
  f.lost ((scanLostTo f.lost true s c).reads + 1) = true

theorem Harmless.of_cuts (hok : v.bpb.Ok) (hcuts : Cuts v w) : Harmless v w :=
  ⟨fun _ _ _ hon hused => hcuts.used hon.inRange hused, fun _ hc h => hcuts.bad hok hc h⟩

/-- What a run has done: only cut chains, or what it frees comes on top of that. -/
theorem fsckIo_cases {f : ReadFaults} {n : ℕ} {rc : ℤ} (hok : v.bpb.Ok)
    (hrun : fsckIo f n v true = some (w, rc)) :
    (Cuts v w ∧ ∀ s, ¬ Frees f n v s) ∨ ∃ s, Frees f n v s ∧ s.core.vol.bpb = v.bpb ∧
      Cuts v s.core.vol ∧ (Quiet f.walk s.reads → walkDirectory true n
        (fsckStart (compareRepairFatsIo f.compare v)) v.bpb.rootCluster = some s.core) ∧
      w = (scanLostTo f.lost true s v.bpb.maxCluster).vol := by
  unfold fsckIo at hrun
  cases hboot : f.boot with
  | true =>
    rw [if_pos hboot, some.injEq, Prod.mk.injEq] at hrun
    exact .inl ⟨hrun.1 ▸ Cuts.refl v, fun s hs => by simp [hs.boot] at hboot⟩
  | false =>
  rw [hboot, if_neg (by simp)] at hrun
  cases hvalid : validateBpb v with
  | false =>
    rw [hvalid, Bool.not_false, if_pos rfl, some.injEq, Prod.mk.injEq] at hrun
    exact .inl ⟨hrun.1 ▸ Cuts.refl v, fun s hs => by simp [hs.valid] at hvalid⟩
  | true =>
  rw [hvalid, Bool.not_true, if_neg (by simp)] at hrun
  dsimp only at hrun
  have hsame := compareRepairFatsIo_sameFat f.compare hok
  rw [hsame.bpb] at hrun
  split at hrun
  · contradiction
  rename_i s hwalk
  have ht := walkDirectoryIo_tracks hok n (by exact hsame.bpb) hwalk
  have hcuts : Cuts v s.core.vol :=
    Cuts.trans hok hsame.bpb (fun c hc => .inl (hsame.fat c hc)) ht.cuts
  rw [some.injEq, Prod.mk.injEq] at hrun
  obtain ⟨hw, -⟩ := hrun
  cases hfailed : s.traversalFailed with
  | true =>
    refine .inl ⟨fun c hc => ?_, fun s' hs' => ?_⟩
    · have hkeep : getFatEntry w c = getFatEntry s.core.vol c := by
        rw [← hw, hfailed]
        exact foldl_scanLostIo_keeps (ht.bpb ▸ hok)
          (fun d hd => ht.bpb ▸ mem_clusterRange.mp hd) (ht.bpb ▸ hc) (.inl rfl)
      rw [hkeep]
      exact hcuts c hc
    · obtain rfl := some.inj (hwalk.symm.trans hs'.walk)
      simp [hs'.complete] at hfailed
  | false =>
    refine .inr ⟨s, ⟨hboot, hvalid, hwalk, hfailed⟩, ht.bpb, hcuts, fun hq => ht.core hq hfailed,
      ?_⟩
    rw [← hw, hfailed]
    rfl

/-- A volume with a FAT of two sectors. The root directory in cluster 2 has one file, whose
chain is 3, 130, 131. -/
def longFile : Volume where
  bpb := ⟨512, 1, 1, 1, 133, 2, 2, 3, 1⟩
  disk := fun x =>
    if x = 0 then 0xEB
    else if 512 ≤ x ∧ x < 1536 then
      let c := (x - 512) / 4
      let link := if c = 3 then 130 else if c = 130 then 131
        else if c = 2 ∨ c = 131 then eocMark else 0
      UInt8.ofNat (link / 256 ^ ((x - 512) % 4))
    else if x = 1536 then 0x41
    else if x = 1562 then 3
    else 0
  fsinfoValid := false
  fsinfoFreeCount := fsinfoUnknown
  fsinfoNextFree := 2
  fsinfoDirty := false

theorem longFile_ok : longFile.bpb.Ok := by
  constructor <;> decide

def longFileEnt : DirEnt := ⟨1536, false, 3⟩

theorem longFile_paths : Path longFile 2 [2] ∧ Path longFile 3 [3, 130, 131] := by
  have hmax : longFile.bpb.maxCluster = 132 := by decide
  have h2 : getFatEntry longFile 2 = eocMark := by decide
  have h3 : getFatEntry longFile 3 = 130 := by decide
  have h130 : getFatEntry longFile 130 = 131 := by decide
  have h131 : getFatEntry longFile 131 = eocMark := by decide
  constructor
  · simp [Path, Claim, Bpb.InRange, hmax, h2, eocMark]
  · simp [Path, Claim, Bpb.InRange, hmax, h3, h130, h131, eocMark]

theorem longFile_owner {e : DirEnt} :
    Owner longFile e ↔ e = rootEnt longFile.bpb ∨ e = longFileEnt := by
  have hlive : liveEntries longFile.bpb longFile.disk [2] = [longFileEnt] := by decide
  constructor
  · intro ho
    induction ho with
    | root => exact .inl rfl
    | child _ hdir hl he ih =>
      rcases ih with rfl | rfl
      · have hmem := hl.liveEntries longFile_paths.1 he
        rw [hlive] at hmem
        exact .inr (by simpa using hmem)
      · contradiction
  · rintro (rfl | rfl)
    · exact .root
    · refine .child .root rfl (Claim.chainPrefix longFile_paths.1) ?_
      rw [hlive]
      exact mem_cons_self

theorem longFile_dirsWhole : DirsWhole longFile := by
  obtain ⟨hroot, hfile⟩ := longFile_paths
  intro e e' p p' ho hdir ho' hp hp' ⟨x, hx, hx'⟩
  obtain rfl : e = rootEnt longFile.bpb := by
    rcases longFile_owner.mp ho with h | rfl
    · exact h
    · contradiction
  obtain rfl : p = [2] := hp.unique hroot
  rcases longFile_owner.mp ho' with rfl | rfl
  · rw [hp'.unique hroot]
  · obtain rfl : p' = [3, 130, 131] := hp'.unique hfile
    obtain rfl : x = 2 := by simpa using hx
    simp at hx'

end ImpossibleOs.Fat32
