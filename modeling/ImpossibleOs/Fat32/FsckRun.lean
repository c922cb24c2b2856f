import ImpossibleOs.Fat32.FsckSound

/-!
The checker as a whole: what a completed repair promises.

The two passes around the walk bring the second FAT copy in line and free
what the walk did not mark.
-/

namespace ImpossibleOs.Fat32

open ByteMem List Bool

variable {fix : Bool} {v w : Volume} {T T' : Trace} {e : DirEnt}

/-! ### The passes around the walk -/

/-- Two volumes with the same first FAT and the same bytes outside the FAT copies. -/
structure SameFat (v w : Volume) : Prop where
  bpb : w.bpb = v.bpb
  outside : SameOutside (v.bpb.firstFatSector * 512) (v.bpb.firstDataSector * 512) v.disk w.disk
  fat : ∀ c, v.bpb.InRange c → getFatEntry w c = getFatEntry v c

/-- What is written behind the first FAT leaves it as it is. -/
theorem SameFat.behind {m : ByteMem} (hok : v.bpb.Ok)
    (h : SameOutside ((v.bpb.firstFatSector + v.bpb.fatSizeSectors) * 512)
      (v.bpb.firstDataSector * 512) v.disk m) : SameFat v { v with disk := m } := by
  refine ⟨rfl, h.mono (by omega) le_rfl, fun c hc => ?_⟩
  have hcov := hok.fatCovers
  have hlt := hc.2
  have haddr : fatAddr v.bpb 0 c =
      (v.bpb.firstFatSector + 0 * v.bpb.fatSizeSectors) * 512 + c * 4 :=
    fatAddr_eq hok hok.fatsPos hlt
  show readLE _ (fatAddr v.bpb 0 c) 4 % 2 ^ 28 = readLE v.disk (fatAddr v.bpb 0 c) 4 % 2 ^ 28
  rw [readLE_congr fun x hx hx' => h x (.inl (by omega))]

theorem Bpb.Ok.secondFat {b : Bpb} (hok : b.Ok) (hfats : ¬ b.numFats < 2) :
    b.firstFatSector + 2 * b.fatSizeSectors ≤ b.firstDataSector := by
  have hcopies : 2 * b.fatSizeSectors ≤ b.numFats * b.fatSizeSectors :=
    Nat.mul_le_mul_right _ (by omega)
  have hbefore := hok.fatsBefore
  omega

theorem compareRepairFats_sameFat (hok : v.bpb.Ok) : SameFat v (compareRepairFats v) := by
  unfold compareRepairFats
  split
  · exact ⟨rfl, SameOutside.refl _ _ _, fun _ _ => rfl⟩
  · rename_i hfats
    have hsecond := hok.secondFat hfats
    exact .behind hok (sameOutside_copyUp (by omega) (by omega))

theorem SameFat.symm (h : SameFat v w) : SameFat w v where
  bpb := h.bpb.symm
  outside := fun x hx => (h.outside x (by rwa [h.bpb] at hx)).symm
  fat := fun c hc => (h.fat c (by rwa [h.bpb] at hc)).symm

theorem SameFat.claim (h : SameFat v w) {xs l : List ℕ} {c : ℕ} (hl : Claim v xs c l) :
    Claim w xs c l := by
  induction l generalizing xs c with
  | nil =>
    rcases hl with hn | hm
    · exact .inl (by rwa [h.bpb])
    · exact .inr hm
  | cons d l ih =>
    obtain ⟨rfl, hr, hn, hl⟩ := hl
    refine ⟨rfl, by rwa [h.bpb], hn, ?_⟩
    rw [h.fat d hr]
    exact ih hl

theorem SameFat.surveys {n : ℕ} (hok : v.bpb.Ok) (h : SameFat v w) (hs : Surveys v n T e T') :
    Surveys w n T e T' :=
  hs.transfer hok h.bpb (fun x hx => h.outside x (.inr hx)) fun _ _ _ hc => h.claim hc

theorem foldl_scanLost_fix (visited : ℕ → Bool) (hok : v.bpb.Ok) (xs : List ℕ) (k : ℕ)
    (hxs : ∀ c ∈ xs, v.bpb.InRange c) :
    let u := (xs.foldl (scanLost true visited) (v, k)).1
    u.bpb = v.bpb ∧
      SameOutside (v.bpb.firstFatSector * 512) (v.bpb.firstDataSector * 512) v.disk u.disk ∧
      ∀ c, v.bpb.InRange c → getFatEntry u c =
        if c ∈ xs ∧ visited c = false then fat32Free else getFatEntry v c := by
  induction xs generalizing v k with
  | nil => exact ⟨rfl, SameOutside.refl _ _ _, fun c _ => by simp⟩
  | cons d xs ih =>
    have hd := hxs d mem_cons_self
    have hxs' := fun c hc => hxs c (mem_cons_of_mem d hc)
    rw [foldl_cons]
    by_cases hlost : getFatEntry v d ≠ fat32Free ∧ visited d = false
    · have hstep : scanLost true visited (v, k) d = (setFatEntry v d fat32Free, u32 (k + 1)) := by
        unfold scanLost
        rw [if_pos (by simpa using hlost)]
        rfl
      obtain ⟨hb, hout, hfat⟩ := ih (v := setFatEntry v d fat32Free) hok (u32 (k + 1)) hxs'
      rw [hstep]
      refine ⟨hb, (setFatEntry_sameOutside hok _ hd.2).trans hout, ?_⟩
      intro c hc
      rw [hfat c hc]
      by_cases hcd : c = d
      · subst hcd
        rw [getFatEntry_setFatEntry_same hok hc.2 (by decide), ite_self,
          if_pos ⟨mem_cons_self, hlost.2⟩]
      · rw [getFatEntry_setFatEntry_other hok hd.2 hc.2 hcd]
        simp [hcd]
    · have hstep : scanLost true visited (v, k) d = (v, k) := by
        unfold scanLost
        rw [if_neg (by simpa using hlost)]
      obtain ⟨hb, hout, hfat⟩ := ih hok k hxs'
      rw [hstep]
      refine ⟨hb, hout, ?_⟩
      intro c hc
      rw [hfat c hc]
      by_cases hcd : c = d
      · subst hcd
        by_cases hvis : visited c = false
        · have hfree : getFatEntry v c = fat32Free := by
            by_contra hn
            exact hlost ⟨hn, hvis⟩
          rw [hfree, ite_self, ite_self]
        · simp [hvis]
      · simp [hcd]

theorem foldl_scanLost_clean {visited : ℕ → Bool} {xs : List ℕ} {k : ℕ}
    (hxs : ∀ c ∈ xs, visited c = true ∨ getFatEntry v c = fat32Free) :
    xs.foldl (scanLost fix visited) (v, k) = (v, k) := by
  induction xs with
  | nil => rfl
  | cons d xs ih =>
    have hstep : scanLost fix visited (v, k) d = (v, k) := by
      unfold scanLost
      rw [if_neg]
      rcases hxs d mem_cons_self with hv | hf
      · simp [hv]
      · simp [hf]
    rw [foldl_cons, hstep]
    exact ih fun c hc => hxs c (mem_cons_of_mem d hc)

theorem validateBpb_congr (hok : v.bpb.Ok) (hb : w.bpb = v.bpb)
    (hout : SameOutside (v.bpb.firstFatSector * 512) (v.bpb.firstDataSector * 512) v.disk w.disk) :
    validateBpb w = validateBpb v := by
  have hboot := hok.bootBefore
  have hjmp : w.disk 0 = v.disk 0 := hout 0 (.inl (by omega))
  have hroot : readLE w.disk 17 2 = readLE v.disk 17 2 :=
    readLE_congr fun x _ hx => hout x (.inl (by omega))
  unfold validateBpb
  rw [hb, hjmp, hroot]

/-! ### A completed repair -/

structure Bpb.Mounted (b : Bpb) : Prop where
  fatStart : b.firstFatSector = b.reservedSectors
  dataStart : b.firstDataSector = b.reservedSectors + b.numFats * b.fatSizeSectors

theorem rootCluster_inRange (hm : v.bpb.Mounted) (hvalid : validateBpb v = true) :
    v.bpb.InRange v.bpb.rootCluster := by
  simp only [validateBpb, and_eq_true, decide_eq_true_eq] at hvalid
  have hlo : 2 ≤ v.bpb.rootCluster := by tauto
  have hhi := hvalid.2
  rw [← hm.dataStart] at hhi
  refine ⟨hlo, ?_⟩
  unfold Bpb.maxCluster
  omega

def fsckStart (v : Volume) : FsckState := ⟨v, fun c => c = 0 || c = 1, 0⟩

theorem fsckStart_follows (v : Volume) : Follows v (fsckStart v) [] := by
  refine ⟨rfl, fun _ _ => rfl, ?_, fun _ _ _ => rfl, by simp⟩
  intro c hc
  have hlo := hc.1
  simp only [fsckStart, Trace.claimed, flatMap_nil, not_mem_nil, iff_false,
    or_eq_true, decide_eq_true_eq]
  omega

theorem mem_clusterRange {b : Bpb} {c : ℕ} :
    c ∈ range' 2 (b.maxCluster - 2) ↔ b.InRange c := by
  rw [mem_range'_1]
  unfold Bpb.InRange
  omega

theorem fsck_fix_cases (hok : v.bpb.Ok) {n : ℕ} (hrun : fsck n v true = some (w, 0)) :
    validateBpb v = true ∧ ∃ s, walkDirectory true n (fsckStart (compareRepairFats v))
        v.bpb.rootCluster = some s ∧ Final s w ∧
      SameOutside (v.bpb.firstFatSector * 512) (v.bpb.firstDataSector * 512) v.disk w.disk ∧
      ∀ c, v.bpb.InRange c → s.visited c = false → getFatEntry w c = fat32Free := by
  have hsame := compareRepairFats_sameFat hok
  unfold fsck at hrun
  cases hvalid : validateBpb v with
  | false => simp [hvalid] at hrun
  | true =>
    refine ⟨rfl, ?_⟩
    simp only [hvalid, Bool.not_true, false_eq_true, if_false, hsame.bpb] at hrun
    cases hwalk : walkDirectory true n (fsckStart (compareRepairFats v)) v.bpb.rootCluster with
    | none =>
      rw [fsckStart] at hwalk
      rw [hwalk] at hrun
      cases hrun
    | some s =>
      rw [fsckStart] at hwalk
      rw [hwalk] at hrun
      obtain ⟨hw, -⟩ := Prod.mk.inj (Option.some.inj hrun)
      have hset := settledWalk_walkDirectory hok true n _ _ _ hsame.bpb hwalk
      have hb : s.vol.bpb = v.bpb := hset.bpb.trans hsame.bpb
      obtain ⟨hbw, hout, hfat⟩ := foldl_scanLost_fix s.visited (hb ▸ hok)
        (range' 2 (v.bpb.maxCluster - 2)) 0
        (fun c hc => hb ▸ mem_clusterRange.mp hc)
      rw [hw] at hbw hout hfat
      refine ⟨s, rfl, ⟨hbw, fun x hx => hout x (.inr hx), ?_⟩, ?_, ?_⟩
      · intro c hc hvis
        rw [hfat c hc, if_neg (by simp [hvis])]
      · have hbs : s.vol.bpb = v.bpb := hb
        rw [hbs] at hout
        have hwalked := hset.outside
        simp only [hsame.bpb] at hwalked
        exact (hsame.outside.trans hwalked).trans hout
      · intro c hc hvis
        rw [hfat c (hb ▸ hc), if_pos ⟨mem_clusterRange.mpr hc, hvis⟩]

/-- Every cluster has at most one owner, every cluster in use has one, and a check without
repairs comes to an end and reports nothing. -/
def FsckSound (v : Volume) : Prop :=
  SingleOwner v ∧ AllReachable v ∧ ∃ n v', fsck n v false = some (v', 0)

section Repaired

variable {n : ℕ} {s : FsckState} (hok : v.bpb.Ok)
  (hwalk : walkDirectory true n (fsckStart (compareRepairFats v)) v.bpb.rootCluster = some s)

include hok hwalk

theorem follows_of_surveys {m : ℕ} (hsurvey : Surveys v m [] (rootEnt v.bpb) T) :
    Follows (compareRepairFats v) s T := by
  have hsame := compareRepairFats_sameFat hok
  have hok' : (compareRepairFats v).bpb.Ok := hsame.bpb ▸ hok
  obtain ⟨s', hwalk', hfollows, -⟩ := walkEnt_follows true hok' (hsame.surveys hok hsurvey)
    (fsckStart_follows _) (.inl rfl)
  have h₁ := walkDirectory_mono hok (Nat.le_max_left n m) hsame.bpb hwalk
  have h₂ := walkDirectory_mono hok (Nat.le_max_right n m) hsame.bpb hwalk'
  rw [rootEnt, h₁] at h₂
  cases h₂
  exact hfollows

end Repaired

theorem fsck_clean {m : ℕ} (hok : v.bpb.Ok) (hvalid : validateBpb v = true)
    (hsurvey : Surveys v m [] (rootEnt v.bpb) T) (hclosed : T.AllClosed v)
    (hfree : ∀ c, v.bpb.InRange c → c ∉ T.claimed → getFatEntry v c = fat32Free) :
    ∃ v', fsck m v false = some (v', 0) := by
  have hsame := compareRepairFats_sameFat hok
  have hok' : (compareRepairFats v).bpb.Ok := hsame.bpb ▸ hok
  have hclosed' : T.AllClosed (compareRepairFats v) := by
    intro p hp
    exact (hclosed p hp).congr hsame.bpb fun x hx => hsame.fat x ((hclosed p hp).inRange x hx)
  obtain ⟨s, hwalk, hfollows, hlinks⟩ := walkEnt_follows false hok' (hsame.surveys hok hsurvey)
    (fsckStart_follows _) (.inr hclosed')
  have hscan : (range' 2 (v.bpb.maxCluster - 2)).foldl (scanLost false s.visited) (s.vol, 0) =
      (s.vol, 0) := by
    apply foldl_scanLost_clean
    intro c hc
    have hr := mem_clusterRange.mp hc
    by_cases hmem : c ∈ T.claimed
    · exact .inl ((hfollows.marks c (hsame.bpb ▸ hr)).mpr hmem)
    · exact .inr ((hfollows.fat c (hsame.bpb ▸ hr) hmem).trans
        ((hsame.fat c hr).trans (hfree c hr hmem)))
  have hzero : s.crossLinks = 0 := hlinks hclosed'
  have hdir : walkDirectory false m (fsckStart (compareRepairFats v)) v.bpb.rootCluster = some s :=
    hwalk
  rw [fsckStart] at hdir
  refine ⟨s.vol, ?_⟩
  unfold fsck
  simp only [hvalid, hsame.bpb, hdir, hscan, hzero]
  rfl

/-- A repair that returns 0 leaves a sound volume exactly when, in directory order, every entry
found its first cluster unclaimed. -/
theorem fsck_sound_iff (v w : Volume) (n : ℕ) (hok : v.bpb.Ok) (hm : v.bpb.Mounted)
    (hrun : fsck n v true = some (w, 0)) : FsckSound w ↔ HeadsClear v := by
  obtain ⟨hvalid, s, hwalk, hfinal, hout, hfree⟩ := fsck_fix_cases hok hrun
  have hsame := compareRepairFats_sameFat hok
  have hok' : (compareRepairFats v).bpb.Ok := hsame.bpb ▸ hok
  have hbs : s.vol.bpb = v.bpb :=
    (settledWalk_walkDirectory hok true n _ _ _ hsame.bpb hwalk).bpb.trans hsame.bpb
  have hbw : w.bpb = v.bpb := hfinal.bpb.trans hbs
  constructor
  · rintro ⟨hsingle, -⟩
    have hroot : Owner w (rootEnt v.bpb) := hbw ▸ Owner.root
    have hrange : (compareRepairFats v).bpb.InRange (rootEnt v.bpb).first := by
      rw [hsame.bpb]
      exact rootCluster_inRange hm hvalid
    obtain ⟨T, hsurvey, -⟩ := charts_of_singleOwner hok' hsingle n (T := []) (e := rootEnt v.bpb)
      hwalk hfinal (fsckStart_follows _) ⟨by simp, by simp⟩ hrange hroot (.inl rfl) (by simp)
    exact ⟨n + 1, T, hsame.symm.surveys hok' hsurvey⟩
  · rintro ⟨m, T, hsurvey⟩
    have hfollows := follows_of_surveys hok hwalk hsurvey
    have hclosed : T.AllClosed w := hfollows.closed_final hfinal
    have hsurvey' : Surveys w m [] (rootEnt w.bpb) T := by
      rw [hbw]
      refine hsurvey.transfer hok hbw (fun x hx => hout x (.inr hx)) fun p hp xs hclaim => ?_
      exact (hclosed p hp).claim hclaim.fresh.1 fun x hx => (hclaim.fresh.2 x hx).2
    have hfree' : ∀ c, w.bpb.InRange c → c ∉ T.claimed → getFatEntry w c = fat32Free := by
      intro c hc hn
      rw [hbw] at hc
      refine hfree c hc ?_
      rw [Bool.eq_false_iff]
      exact fun hvis => hn ((hfollows.marks c (hsame.bpb ▸ hc)).mp hvis)
    refine ⟨singleOwner_of_surveys hsurvey' hclosed, ?_, m, ?_⟩
    · intro c hc hused
      apply onChain_of_claimed hsurvey' hclosed
      by_contra hn
      exact hused (hfree' c hc hn)
    · exact fsck_clean (hbw ▸ hok) ((validateBpb_congr hok hbw hout).trans hvalid) hsurvey' hclosed
        hfree'

def twoFiles (fat : List ℕ) (first second : ℕ) : Volume where
  bpb := ⟨512, 1, 1, 1, 10, 1, 2, 2, 1⟩
  disk := fun x =>
    if x = 0 then 0xEB
    else if 512 ≤ x ∧ x < 1024 then
      UInt8.ofNat (fat.getD ((x - 512) / 4) 0 / 256 ^ ((x - 512) % 4))
    else if x = 1024 ∨ x = 1056 then 0x41
    else if x = 1050 then UInt8.ofNat first
    else if x = 1082 then UInt8.ofNat second
    else 0
  fsinfoValid := false
  fsinfoFreeCount := fsinfoUnknown
  fsinfoNextFree := 2
  fsinfoDirty := false

/-- Two files that run into each other behind their first clusters. -/
def crossedFiles : Volume := twoFiles [0, 0, eocMark, 4, eocMark, 4] 3 5

theorem crossedFiles_ok : crossedFiles.bpb.Ok := by
  constructor <;> decide

theorem headsClear_crossedFiles : HeadsClear crossedFiles := by
  have hmax : crossedFiles.bpb.maxCluster = 10 := by decide
  have h2 : getFatEntry crossedFiles 2 = eocMark := by decide
  have h3 : getFatEntry crossedFiles 3 = 4 := by decide
  have h4 : getFatEntry crossedFiles 4 = eocMark := by decide
  have h5 : getFatEntry crossedFiles 5 = 4 := by decide
  have hlive : liveEntries crossedFiles.bpb crossedFiles.disk [2] =
      [⟨1024, false, 3⟩, ⟨1056, false, 5⟩] := by decide
  have hroot : Claim crossedFiles [] 2 [2] := by
    simp [Claim, Bpb.InRange, hmax, h2, eocMark]
  have hfirst : Claim crossedFiles [2] 3 [3, 4] := by
    simp [Claim, Bpb.InRange, hmax, h3, h4, eocMark]
  have hsecond : Claim crossedFiles [2, 3, 4] 5 [5] := by
    simp [Claim, Bpb.InRange, hmax, h5]
  refine ⟨2, [(rootEnt crossedFiles.bpb, [2]), (⟨1024, false, 3⟩, [3, 4]),
    (⟨1056, false, 5⟩, [5])], [2], by simp, hroot, ?_⟩
  show FoldRel (Surveys crossedFiles 1) _ _ _
  rw [hlive]
  exact ⟨_, ⟨[3, 4], by simp, hfirst, rfl⟩, _, ⟨[5], by simp, hsecond, rfl⟩, rfl⟩

theorem fsck_sound_iff_crossedFiles :
    ∃ w, fsck 1 crossedFiles true = some (w, 0) ∧ FsckSound w := by
  have hzero : (fsck 1 crossedFiles true).map Prod.snd = some 0 := by decide
  obtain ⟨⟨w, r⟩, hrun, hr⟩ := Option.map_eq_some_iff.mp hzero
  obtain rfl : r = 0 := hr
  exact ⟨w, hrun, (fsck_sound_iff crossedFiles w 1 crossedFiles_ok ⟨rfl, rfl⟩ hrun).mpr
    headsClear_crossedFiles⟩

def sharedFiles : Volume := twoFiles [0, 0, eocMark, eocMark] 3 3

/-- The repair returns 0 and leaves both files on cluster 3. -/
theorem fsck_sharedFiles : ∃ w, fsck 1 sharedFiles true = some (w, 0) ∧ ¬ FsckSound w := by
  have hzero : (fsck 1 sharedFiles true).map Prod.snd = some 0 := by decide
  have hbpb : (fsck 1 sharedFiles true).map (fun r => r.1.bpb) = some sharedFiles.bpb := by
    decide
  have hlive : (fsck 1 sharedFiles true).map
      (fun r => liveEntries sharedFiles.bpb r.1.disk [2]) =
        some [⟨1024, false, 3⟩, ⟨1056, false, 3⟩] := by decide
  obtain ⟨⟨w, r⟩, hrun, hr⟩ := Option.map_eq_some_iff.mp hzero
  obtain rfl : r = 0 := hr
  simp only [hrun, Option.map_some, Option.some.injEq] at hbpb hlive
  refine ⟨w, hrun, ?_⟩
  rintro ⟨hsingle, -⟩
  have hrange : ∀ c, 2 ≤ c → c < 10 → w.bpb.InRange c := by
    intro c hlo hhi
    rw [hbpb]
    exact ⟨hlo, hhi⟩
  have hroot : ChainPrefix w (rootEnt w.bpb).first [2] := by
    have hfirst : (rootEnt w.bpb).first = 2 := by
      rw [hbpb]
      rfl
    rw [hfirst]
    exact ⟨rfl, hrange 2 (by omega) (by omega), trivial⟩
  have howner : ∀ a, ⟨a, false, 3⟩ ∈ liveEntries w.bpb w.disk [2] → Owner w ⟨a, false, 3⟩ :=
    fun a ha => Owner.child Owner.root rfl hroot ha
  have hon : OnChain w 3 3 := ⟨[3], ⟨rfl, hrange 3 (by omega) (by omega), trivial⟩, by simp⟩
  rw [hbpb, hlive] at howner
  have heq := hsingle _ _ 3 (howner 1024 (by simp)) (howner 1056 (by simp)) hon hon
  simp at heq

end ImpossibleOs.Fat32
