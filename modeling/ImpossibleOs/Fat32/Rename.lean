import ImpossibleOs.Fat32.NameRun
import ImpossibleOs.Fat32.Lookup

/-!
What a rename does to the names of a directory.

`fat32_rename_vol` rewrites the 8.3 name of the source in place and nothing
else: LFN entries in front of the source stay, and an entry that has the new
name already is removed only on request.
-/

namespace ImpossibleOs.Fat32

open ByteMem List
open Option hiding mem_map

variable {v w : Volume} {dir : ℕ} {chain : List ℕ}

/-- The files of a directory, without the bound of the driver's table. -/
def dirFiles (v : Volume) (chain : List ℕ) : List DirFile :=
  listing v .idle (dirEntries v.bpb chain)

theorem split_at {b : Bpb} {k : ℕ} {p : ℕ × ℕ} (hp : (dirEntries b chain)[k]? = some p) :
    dirEntries b chain = (dirEntries b chain).take k ++ p :: (dirEntries b chain).drop (k + 1) := by
  obtain ⟨hk, rfl⟩ := List.getElem?_eq_some_iff.mp hp
  rw [getElem_cons_drop, take_append_drop]

theorem Tidy.before {k : ℕ} {e : Slot} (htidy : Tidy (dirSlots v chain))
    (hnamed : Named (dirSlots v chain) k e) :
    ∀ q ∈ (dirEntries v.bpb chain).take k, v.disk (entryPos v.bpb q) ≠ 0 := by
  intro q hq h0
  obtain ⟨i, hi⟩ := getElem?_of_mem hq
  rw [getElem?_take] at hi
  split at hi
  · rename_i hik
    refine hnamed.2.1 (htidy i k (bytes v.disk (entryPos v.bpb q) 32) e (by omega) ?_ ?_ hnamed.1)
    · rw [getElem?_dirSlots, hi, map_some]
    · rw [slotFirst_bytes]
      exact h0
  · contradiction

theorem others_apart {k : ℕ} {p : ℕ × ℕ} (hok : v.bpb.Ok) (hchain : IsChain v dir chain)
    (hp : (dirEntries v.bpb chain)[k]? = some p) {q : ℕ × ℕ}
    (hq : q ∈ (dirEntries v.bpb chain).take k ++ (dirEntries v.bpb chain).drop (k + 1)) :
    entryPos v.bpb q + 32 ≤ entryPos v.bpb p ∨ entryPos v.bpb p + 32 ≤ entryPos v.bpb q := by
  have hnd := dirEntries_nodup (b := v.bpb) (hchain.nodup hok)
  have hmem : ∀ q ∈ (dirEntries v.bpb chain).take k ++ (dirEntries v.bpb chain).drop (k + 1),
      q ∈ dirEntries v.bpb chain ∧ q ≠ p := by
    intro q hq
    rw [split_at hp, nodup_middle] at hnd
    refine ⟨?_, ?_⟩
    · rcases mem_append.mp hq with hq | hq
      · exact mem_of_mem_take hq
      · exact mem_of_mem_drop hq
    · rintro rfl
      exact (nodup_cons.mp hnd).1 hq
  obtain ⟨hqmem, hne⟩ := hmem q hq
  obtain ⟨hqc, hqi⟩ := mem_dirEntries.mp hqmem
  obtain ⟨hpc, hpi⟩ := mem_dirEntries.mp (mem_of_getElem? hp)
  exact entryPos_apart hok (hchain.inRange _ hqc) (hchain.inRange _ hpc) hqi hpi hne

section Rewrite

variable {k : ℕ} {p : ℕ × ℕ} {sfn : List UInt8}

/-- The volume with another 8.3 name of the entry `p`. -/
def withSfn (v : Volume) (p : ℕ × ℕ) (sfn : List UInt8) : Volume :=
  v.setDisk (storeBytes v.disk (entryPos v.bpb p) sfn)

theorem withSfn_outside (v : Volume) (p : ℕ × ℕ) (hlen : sfn.length = 11) {x : ℕ}
    (hx : x < entryPos v.bpb p ∨ entryPos v.bpb p + 11 ≤ x) : (withSfn v p sfn).disk x = v.disk x :=
  sameOutside_storeBytes le_rfl (by rw [hlen]) x hx

/-- A file of which the 8.3 name has been rewritten. A long name stays. -/
def DirFile.withSfn (f : DirFile) (sfn : List UInt8) : DirFile :=
  { f with name := if f.long then f.name else shortNameToStr sfn, sfn := sfn }

theorem dirFiles_withSfn (hok : v.bpb.Ok) (hchain : IsChain v dir chain)
    (htidy : Tidy (dirSlots v chain)) (hlen : sfn.length = 11) (h0 : sfn.getD 0 0 ≠ 0)
    (hdot' : sfn.getD 0 0 ≠ charDot) (hp : (dirEntries v.bpb chain)[k]? = some p)
    (hnamed : Named (dirSlots v chain) k (bytes v.disk (entryPos v.bpb p) 32))
    (hdot : v.disk (entryPos v.bpb p) ≠ charDot) :
    ∃ A f B, dirFiles v chain = A ++ f :: B ∧
      f.key = (p, deFirstCluster v.disk (entryPos v.bpb p), deFileSize v.disk (entryPos v.bpb p)) ∧
      dirFiles (withSfn v p sfn) chain =
        if sfn.getD 0 0 = 0xE5 then A ++ B else A ++ f.withSfn sfn :: B := by
  set w := withSfn v p sfn
  set a := entryPos v.bpb p with ha
  have hname : bytes w.disk a 11 = sfn := by
    show bytes (storeBytes v.disk a sfn) a 11 = sfn
    rw [bytes_storeBytes_same _ _ _ (by omega), drop_of_length_le (by simp [hlen]),
      append_nil]
  have hfirst : w.disk a = sfn.getD 0 0 := by
    rw [← hname, getD_bytes (by omega), add_zero]
  have htail : AgreeOn (a + 11) (a + 32) v.disk w.disk := by
    intro x hx _
    exact withSfn_outside v p hlen (.inr hx)
  have hattr : deAttr w.disk a = deAttr v.disk a := htail (a + 11) le_rfl (by omega)
  have hcl : deFirstCluster w.disk a = deFirstCluster v.disk a := by
    unfold deFirstCluster
    rw [readLE_congr (htail.mono (by omega) (by omega)),
      readLE_congr (htail.mono (by omega) (by omega))]
  have hsize : deFileSize w.disk a = deFileSize v.disk a :=
    readLE_congr (htail.mono (by omega) (by omega))
  have hsame : ∀ q ∈ (dirEntries v.bpb chain).take k ++ (dirEntries v.bpb chain).drop (k + 1),
      AgreeOn (entryPos v.bpb q) (entryPos v.bpb q + 32) v.disk w.disk := by
    intro q hq x hx hx'
    have := others_apart hok hchain hp hq
    exact withSfn_outside v p hlen (by omega)
  obtain ⟨A, B, s, hv, hfile, hpass⟩ := listing_at (w := w) (split_at hp) (htidy.before hnamed) rfl
    hsame
  have hlive : deSkipped v.disk a = false := by simpa using hnamed.2.2
  have hread := readItem_file (by simpa using hnamed.2.1) hlive hdot s
  refine ⟨A, _, B, hv _ hread, rfl, ?_⟩
  split
  · rename_i hE5
    exact hpass s.off (readItem_deleted (show w.disk a = 0xE5 by rw [hfirst, hE5]) s) rfl
  · rename_i hE5
    have hlive' : deSkipped w.disk a = false := by
      simp only [deSkipped, Bool.or_eq_false_iff, decide_eq_false_iff_not] at hlive ⊢
      rw [hfirst, hattr]
      exact ⟨⟨hE5, hlive.1.2⟩, hlive.2⟩
    have hread' := readItem_file (v := w) (p := p) (show w.disk a ≠ 0 by rw [hfirst]; exact h0)
      hlive' (show w.disk a ≠ charDot by rw [hfirst]; exact hdot') s
    have hb : w.bpb = v.bpb := rfl
    refine hfile _ ?_
    rw [hread', hb, ← ha, hname, hattr, hcl, hsize, DirFile.withSfn]
    cases s.holds with
    | false => rfl
    | true => rfl

end Rewrite

/-! ### Removing an entry -/

theorem dirFiles_nodup (hok : v.bpb.Ok) (hchain : IsChain v dir chain) :
    ((dirFiles v chain).map DirFile.entry).Nodup :=
  (listing_entries _ _).nodup (dirEntries_nodup (hchain.nodup hok))

theorem ne_of_nodup {A B : List DirFile} {f : DirFile}
    (h : ((A ++ f :: B).map DirFile.entry).Nodup) : ∀ g ∈ A ++ B, g.entry ≠ f.entry := by
  rw [map_append, map_cons, nodup_middle, ← map_append, nodup_cons] at h
  intro g hg heq
  exact h.1 (mem_map.mpr ⟨g, hg, heq⟩)

theorem split_unique {A B A' B' : List DirFile} {f f' : DirFile}
    (hnd : ((A ++ f :: B).map DirFile.entry).Nodup) (heq : A ++ f :: B = A' ++ f' :: B')
    (hentry : f'.entry = f.entry) : A' = A ∧ f' = f ∧ B' = B := by
  have hne := ne_of_nodup hnd
  have hne' := ne_of_nodup (heq ▸ hnd)
  rcases append_eq_append_iff.mp heq with ⟨l, hA, hB⟩ | ⟨l, hA, hB⟩
  · cases l with
    | nil =>
      rw [nil_append, List.cons.injEq] at hB
      rw [append_nil] at hA
      exact ⟨hA, hB.1.symm, hB.2.symm⟩
    | cons g l =>
      rw [cons_append, List.cons.injEq] at hB
      refine absurd hentry.symm (hne' f (mem_append_left _ ?_))
      rw [hA, hB.1]
      simp
  · cases l with
    | nil =>
      rw [nil_append, List.cons.injEq] at hB
      rw [append_nil] at hA
      exact ⟨hA.symm, hB.1, hB.2⟩
    | cons g l =>
      rw [cons_append, List.cons.injEq] at hB
      refine absurd hentry (hne f' (mem_append_left _ ?_))
      rw [hA, hB.1]
      simp

theorem filter_split {A B : List DirFile} {f : DirFile}
    (hnd : ((A ++ f :: B).map DirFile.entry).Nodup) :
    (A ++ f :: B).filter (fun g => g.entry ≠ f.entry) = A ++ B := by
  have hne := ne_of_nodup hnd
  have hkeep : ∀ g ∈ A ++ B, decide (g.entry ≠ f.entry) = true := by
    intro g hg
    rw [decide_eq_true_eq]
    exact hne g hg
  rw [filter_append, filter_cons_of_neg (by simp), ← filter_append,
    filter_eq_self.mpr hkeep]

theorem dirFiles_marked {k : ℕ} {p : ℕ × ℕ} (hok : v.bpb.Ok) (hchain : IsChain v dir chain)
    (htidy : Tidy (dirSlots v chain)) (hb : w.bpb = v.bpb)
    (hp : (dirEntries v.bpb chain)[k]? = some p)
    (hnamed : Named (dirSlots v chain) k (bytes v.disk (entryPos v.bpb p) 32))
    (hdot : v.disk (entryPos v.bpb p) ≠ charDot)
    (hmarked : MarkedAt (dirSlots v chain) (dirSlots w chain) k) :
    dirFiles w chain = (dirFiles v chain).filter fun g => g.entry ≠ p := by
  -- an entry of the same index in both lists
  have hslot : ∀ u : Volume, u.bpb = v.bpb → ∀ (i : ℕ) q, (dirEntries v.bpb chain)[i]? = some q →
      (dirSlots u chain)[i]? = some (bytes u.disk (entryPos v.bpb q) 32) := by
    intro u hu i q hq
    rw [getElem?_dirSlots, hu, hq, map_some]
  have hagree : ∀ (i : ℕ) q, (dirEntries v.bpb chain)[i]? = some q →
      (dirSlots w chain)[i]? = (dirSlots v chain)[i]? →
      AgreeOn (entryPos v.bpb q) (entryPos v.bpb q + 32) v.disk w.disk := by
    intro i q hq heq
    rw [hslot w hb i q hq, hslot v rfl i q hq, some.injEq] at heq
    exact agreeOn_of_bytes heq
  have hE5 : w.disk (entryPos v.bpb p) = 0xE5 := by
    obtain ⟨e, he, hE5⟩ := hmarked.1
    rw [hslot w hb k p hp] at he
    cases he
    simpa using hE5
  have hsuf : ∀ q ∈ (dirEntries v.bpb chain).drop (k + 1),
      AgreeOn (entryPos v.bpb q) (entryPos v.bpb q + 32) v.disk w.disk := by
    intro q hq
    obtain ⟨i, hi⟩ := getElem?_of_mem hq
    rw [getElem?_drop] at hi
    rcases hmarked.2 (k + 1 + i) with heq | ⟨hle, -⟩
    · exact hagree _ q hi heq
    · omega
  have hwiped : ∀ l q r, (dirEntries v.bpb chain).take k = l ++ q :: r → WipedIn v w q r := by
    intro l q r heq
    -- the members of `q :: r` have the indices from `l.length` up to `k`
    have hindex : ∀ (j : ℕ) q', (q :: r)[j]? = some q' → l.length + j < k ∧
        (dirEntries v.bpb chain)[l.length + j]? = some q' := by
      intro j q' hj
      have hget : ((dirEntries v.bpb chain).take k)[l.length + j]? = some q' := by
        rw [heq, getElem?_append_right (by omega), Nat.add_sub_cancel_left, hj]
      rw [getElem?_take] at hget
      split at hget
      · exact ⟨by assumption, hget⟩
      · contradiction
    obtain ⟨-, hq⟩ := hindex 0 q rfl
    rcases hmarked.2 l.length with hsame | ⟨-, ⟨e, he, hmark⟩, hlfn⟩
    · exact .inl (hagree _ q hq hsame)
    · refine .inr ⟨?_, fun q' hq' => ?_⟩
      · rw [add_zero] at hq
        rw [hslot w hb _ q hq] at he
        cases he
        simpa using hmark
      · obtain ⟨j, hj⟩ := getElem?_of_mem hq'
        obtain ⟨hlt, hq''⟩ := hindex j q' hj
        obtain ⟨e', he', hattr⟩ := hlfn (l.length + j) (by omega) hlt
        rw [hslot v rfl _ q' hq''] at he'
        cases he'
        simpa using hattr
  have hlive : deSkipped v.disk (entryPos v.bpb p) = false := by simpa using hnamed.2.2
  obtain ⟨A, B, f, hfp, hv, hw⟩ := listing_removed (split_at hp) (htidy.before hnamed) hb hwiped hE5
    hsuf fun s => ⟨_, readItem_file (by simpa using hnamed.2.1) hlive hdot s, rfl⟩
  have hnd := dirFiles_nodup hok hchain
  have hv' : dirFiles v chain = A ++ f :: B := hv
  have hw' : dirFiles w chain = A ++ B := by
    rw [dirFiles, hb]
    exact hw
  rw [hv'] at hnd ⊢
  rw [hw', ← hfp, filter_split hnd]

theorem makeShortName_ne_dot (name : List UInt8) : (makeShortName name).getD 0 0 ≠ charDot := by
  refine makeShortName_first (· ≠ charDot) (by decide) fun c _ hc => ?_
  unfold toUpper
  unfold charDot at *
  grind

theorem makeShortName_ne_zero {name : List UInt8} (h : 0 ∉ name) :
    (makeShortName name).getD 0 0 ≠ 0 := by
  refine makeShortName_first (· ≠ 0) (by decide) fun c hc _ => ?_
  have hc0 : c ≠ 0 := fun heq => h (heq ▸ hc)
  unfold toUpper
  grind

theorem dirSlots_withSfn {k : ℕ} {p : ℕ × ℕ} {sfn : List UInt8} (hok : v.bpb.Ok)
    (hchain : IsChain v dir chain) (hlen : sfn.length = 11)
    (hp : (dirEntries v.bpb chain)[k]? = some p) : dirSlots (withSfn v p sfn) chain =
      (dirSlots v chain).set k (sfn ++ (bytes v.disk (entryPos v.bpb p) 32).drop 11) := by
  have hslots := dirSlots_storeBytes (l := sfn) hok hchain.inRange (hchain.nodup hok) hp (by omega)
  rw [hlen] at hslots
  exact hslots

theorem nodup_withSfn {k : ℕ} {p : ℕ × ℕ} {sfn : List UInt8} (hok : v.bpb.Ok)
    (hchain : IsChain v dir chain) (htidy : Tidy (dirSlots v chain))
    (hnames : Distinct slotName (dirSlots v chain)) (hlen : sfn.length = 11)
    (h0 : sfn.getD 0 0 ≠ 0) (hE5 : sfn.getD 0 0 ≠ 0xE5) (hp : (dirEntries v.bpb chain)[k]? = some p)
    (hnamed : Named (dirSlots v chain) k (bytes v.disk (entryPos v.bpb p) 32))
    (hne : bytes v.disk (entryPos v.bpb p) 11 ≠ sfn) :
    (shortNames (dirSlots (withSfn v p sfn) chain)).Nodup ↔ Absent (dirSlots v chain) sfn := by
  rw [dirSlots_withSfn hok hchain hlen hp]
  set e := bytes v.disk (entryPos v.bpb p) 32 with he
  set e₀ := sfn ++ e.drop 11 with he₀
  have hfirst : slotFirst e₀ = sfn.getD 0 0 := by
    rw [slotFirst, he₀, getD_append _ _ _ _ (by omega)]
  have hname : slotName e₀ = sfn := by
    rw [slotName, he₀, take_append_of_le_length (by omega), take_of_length_le (by omega)]
  have hattr : slotAttr e₀ = slotAttr e := by
    rw [slotAttr, slotAttr, he₀, getD_append_right _ _ _ _ (by omega), hlen,
      getD_eq_getElem?_getD, getElem?_drop, ← getD_eq_getElem?_getD]
  have hlive : slotLive e₀ = true := by
    have hlive := hnamed.2.2
    simp only [slotLive, Bool.not_eq_true', Bool.or_eq_false_iff, decide_eq_false_iff_not,
      hfirst, hattr] at hlive ⊢
    exact ⟨⟨hE5, hlive.1.2⟩, hlive.2⟩
  have htidy' : Tidy ((dirSlots v chain).set k e₀) := htidy.set hnamed (by rw [hfirst]; exact h0)
  rw [nodup_shortNames htidy']
  have hk : k < (dirSlots v chain).length := (List.getElem?_eq_some_iff.mp hnamed.1).1
  constructor
  · intro hd j e' hj heq
    have hjk : j ≠ k := by
      rintro rfl
      have : e' = e := by
        have := hj.1.symm.trans hnamed.1
        exact some.inj this
      rw [this, he, slotName_bytes] at heq
      exact hne heq
    refine hjk (hd j k e' e₀ ⟨?_, hj.2⟩ ⟨?_, ?_, hlive⟩ (by rw [heq, hname]))
    · rw [getElem?_set_ne (Ne.symm hjk)]
      exact hj.1
    · rw [getElem?_set_self hk]
    · rw [hfirst]
      exact h0
  · intro habsent i j e₁ e₂ hi hj heq
    have hgain := gained_set (dirSlots v chain) k e₀
    rcases hgain i e₁ hi with ⟨-, hi'⟩ | ⟨rfl, rfl⟩ <;>
      rcases hgain j e₂ hj with ⟨-, hj'⟩ | ⟨rfl, rfl⟩
    · exact hnames i j e₁ e₂ hi' hj' heq
    · exact absurd (heq.trans hname) (habsent i e₁ hi')
    · exact absurd (heq.symm.trans hname) (habsent j e₂ hj')
    · rfl

/-- A directory in which names resolve. Its chain ends, nothing follows the end mark, no two
live entries share a short name and no two files show one name, the driver's table has room for
all files, and their chains are apart from the directory's. -/
structure SoundDir (v : Volume) (dir : ℕ) (chain : List ℕ) : Prop where
  ok : v.bpb.Ok
  isChain : IsChain v dir chain
  tidy : Tidy (dirSlots v chain)
  names : Distinct slotName (dirSlots v chain)
  fits : (dirFiles v chain).length ≤ fat32MaxDirEntries
  shown : (dirFiles v chain).Pairwise fun f g => strcasecmp f.name g.name = false
  apart : ∀ j e, Named (dirSlots v chain) j e → slotFirst e ≠ charDot → 2 ≤ slotCluster e →
    ∃ l, IsChain v (slotCluster e) l ∧ ∀ c ∈ l, c ∉ chain

/-- The volume `w`, in which the entry `dst` of the short name `sfn` has been removed, if there
is one. -/
structure Cleared (v w : Volume) (dir : ℕ) (chain : List ℕ) (sfn : List UInt8)
    (dst : Option (ℕ × ℕ)) : Prop where
  bpb : w.bpb = v.bpb
  isChain : IsChain w dir chain
  tidy : Tidy (dirSlots w chain)
  files : dirFiles w chain = (dirFiles v chain).filter fun g => some g.entry ≠ dst
  named : ∀ j e, Named (dirSlots w chain) j e → Named (dirSlots v chain) j e
  keeps : ∀ j e, Named (dirSlots v chain) j e → slotName e ≠ sfn → Named (dirSlots w chain) j e
  elsewhere : ∀ c, v.bpb.InRange c → c ∉ chain → ∀ x, InCluster v.bpb c x → w.disk x = v.disk x

theorem SoundDir.cleared_none (h : SoundDir v dir chain) (sfn : List UInt8) :
    Cleared v v dir chain sfn none where
  bpb := rfl
  isChain := h.isChain
  tidy := h.tidy
  files := by simp
  named := fun _ _ hj => hj
  keeps := fun _ _ hj _ => hj
  elsewhere := fun _ _ _ _ _ => rfl

theorem SoundDir.cleared_some (h : SoundDir v dir chain) {sfn : List UInt8} {dst : ℕ × ℕ}
    (hfind : findDirentBySfn v dir sfn = .ok (some dst)) (hdot : sfn.getD 0 0 ≠ charDot)
    (hfree : (if 2 ≤ deFirstCluster v.disk (entryPos v.bpb dst) then
        freeChain (writeCluster v dst.1 (removeDirentInBuf v.bpb v.disk dst))
          (deFirstCluster v.disk (entryPos v.bpb dst)) chainFuel
      else some (writeCluster v dst.1 (removeDirentInBuf v.bpb v.disk dst))) = some w) :
    Cleared v w dir chain sfn (some dst) ∧ Absent (dirSlots w chain) sfn := by
  obtain ⟨k, hdst, hnamed, hsfn⟩ := findDirent_found h.ok h.isChain hfind
  have hdot' : v.disk (entryPos v.bpb dst) ≠ charDot := by
    rw [← hsfn, getD_bytes (by omega), add_zero] at hdot
    exact hdot
  set m' := removeDirentInBuf v.bpb v.disk dst
  set first := deFirstCluster v.disk (entryPos v.bpb dst) with hfirst
  set w₀ := writeCluster v dst.1 m' with hw₀
  have hmarks : Marks v.bpb v.disk m' dst := removeDirentInBuf_marks v.bpb v.disk dst
  have hdc := (mem_dirEntries.mp (mem_of_getElem? hdst)).1
  have hfat₀ : ∀ d < v.bpb.maxCluster, getFatEntry w₀ d = getFatEntry v d :=
    fun d hd => writeCluster_fat h.ok rfl (h.isChain.inRange _ hdc) hd
  -- freeing touches neither the directory's part of the FAT nor any data
  have hspec : w.bpb = v.bpb ∧ (∀ d ∈ chain, getFatEntry w d = getFatEntry v d) ∧
      ∀ x, v.bpb.firstDataSector * 512 ≤ x → w.disk x = w₀.disk x := by
    split at hfree
    · rename_i h2
      obtain ⟨l, hl, hout⟩ := h.apart k _ hnamed (by simpa using hdot') (by simpa using h2)
      rw [slotCluster_bytes, ← hfirst] at hl
      have hl₀ : IsChain w₀ first l := hl.congr rfl fun d hd => hfat₀ d (hl.inRange d hd).2
      obtain ⟨w₁, hfree₁, hb, hfat, hdisk⟩ := freeChain_spec (v := w₀) h.ok hl₀
        (hl₀.length_lt (show w₀.bpb.Ok from h.ok))
      rw [hfree] at hfree₁
      cases hfree₁
      refine ⟨hb, fun d hd => ?_, hdisk⟩
      have hd' := (h.isChain.inRange d hd).2
      rw [hfat d hd' fun hdl => hout d hdl hd, hfat₀ d hd']
    · rw [← some.inj hfree]
      exact ⟨rfl, fun d hd => hfat₀ d (h.isChain.inRange d hd).2, fun _ _ => rfl⟩
  obtain ⟨hb, hfat, hdisk⟩ := hspec
  have hdisk' : ∀ c ∈ chain, ∀ x, InCluster v.bpb c x → w.disk x = m' x := by
    intro c hc x hx
    have hlow := dataStart_le_clusterAddr h.ok (h.isChain.inRange c hc)
    rw [hdisk x (hlow.trans hx.1)]
    exact writeCluster_marks h.ok h.isChain.inRange hdst hmarks rfl (fun _ _ => rfl) c hc x hx
  have hmarked := dirSlots_marks h.ok h.isChain.inRange (h.isChain.nodup h.ok) hdst hmarks hb hdisk'
  refine ⟨⟨hb, h.isChain.congr hb hfat, hmarked.tidy h.tidy hnamed, ?_,
    fun j e hj => (hmarked.named hj).2, ?_, ?_⟩, ?_⟩
  · rw [dirFiles_marked h.ok h.isChain h.tidy hb hdst hnamed hdot' hmarked]
    simp only [ne_eq, some.injEq]
  · intro j e hj hne
    refine hmarked.keeps hj ?_
    rintro rfl
    have heq : e = bytes v.disk (entryPos v.bpb dst) 32 :=
      some.inj (hj.1.symm.trans hnamed.1)
    rw [heq, slotName_bytes] at hne
    exact hne hsfn
  · intro c hc hnot x hx
    rw [hdisk x ((dataStart_le_clusterAddr h.ok hc).trans hx.1), hw₀, writeCluster,
      Volume.setDisk_disk, if_neg]
    intro hx'
    rw [cluster_unique h.ok hc (h.isChain.inRange _ hdc) hx hx'] at hnot
    exact hnot hdc
  · intro j e hj heq
    obtain ⟨hjk, hj'⟩ := hmarked.named hj
    exact hjk (h.names j k e _ hj' hnamed (by rw [heq, slotName_bytes, hsfn]))

/-! ### The outcome of a rename -/

/-- The entry that a rename removes. -/
def replacedEntry (v : Volume) (dir : ℕ) (old new : List UInt8) (replace : Bool) :
    Option (ℕ × ℕ) :=
  if replace = true ∧ makeShortName old ≠ makeShortName new then
    match findDirentBySfn v dir (makeShortName new) with
    | .ok dst => dst
    | .error _ => none
  else none

section Outcome

variable {v' : Volume} {old new : List UInt8} {replace : Bool}

theorem renameVol_zero (h : SoundDir v dir chain)
    (hret : renameVol v dir old new replace = some (v', 0)) :
    ∃ src, findDirentBySfn v dir (makeShortName old) = .ok (some src) ∧
      ((makeShortName old = makeShortName new ∧ v' = v) ∨
        (makeShortName old ≠ makeShortName new ∧
          ∃ w, Cleared v w dir chain (makeShortName new) (replacedEntry v dir old new replace) ∧
            v' = withSfn w src (makeShortName new) ∧
            if replace then Absent (dirSlots w chain) (makeShortName new) else w = v)) := by
  unfold renameVol at hret
  dsimp only at hret
  split at hret
  · rename_i src hfind
    refine ⟨src, hfind, ?_⟩
    split at hret
    · rename_i hsame
      rw [some.injEq, Prod.mk.injEq] at hret
      exact .inl ⟨hsame, hret.1.symm⟩
    rename_i hdiff
    refine .inr ⟨hdiff, ?_⟩
    cases replace with
    | false =>
      rw [if_neg (by simp), map_some, some.injEq, Prod.mk.injEq] at hret
      refine ⟨v, ?_, hret.1.symm, rfl⟩
      rw [replacedEntry, if_neg (by simp)]
      exact h.cleared_none _
    | true =>
      rw [if_pos rfl] at hret
      rw [replacedEntry, if_pos ⟨rfl, hdiff⟩]
      unfold replaceExisting at hret
      split at hret
      · simp at hret
      · rename_i hnone
        rw [map_some, some.injEq, Prod.mk.injEq] at hret
        rw [hnone]
        exact ⟨v, h.cleared_none _, hret.1.symm, findDirent_absent h.ok h.isChain h.tidy hnone⟩
      · rename_i dst hdst
        split at hret
        · simp at hret
        split at hret
        · -- one entry does not have both names
          rename_i heq
          obtain ⟨-, -, -, hold⟩ := findDirent_found h.ok h.isChain hfind
          obtain ⟨-, -, -, hnew⟩ := findDirent_found h.ok h.isChain hdst
          rw [heq, hold] at hnew
          exact absurd hnew hdiff
        split at hret
        · simp at hret
        dsimp only at hret
        rw [Option.map_map] at hret
        obtain ⟨w, hfree, hw⟩ := Option.map_eq_some_iff.mp hret
        obtain ⟨hcleared, habsent⟩ := h.cleared_some hdst (makeShortName_ne_dot new) hfree
        rw [hdst]
        exact ⟨w, hcleared, (congrArg Prod.fst hw).symm, habsent⟩
  · simp at hret

def nameAfter (f : DirFile) (old new : List UInt8) : List UInt8 :=
  if makeShortName old = makeShortName new ∨ f.long = true then f.name
  else shortNameToStr (makeShortName new)

/-- The names resolve as after a rename: the new name to the old file, the old name to nothing,
the other names as before, and short names are still distinct. -/
structure RenameOk (v v' : Volume) (dir : ℕ) (chain : List ℕ) (src : ℕ × ℕ)
    (old new : List UInt8) : Prop where
  finds : (finddir v' dir new).map DirFile.key =
    some (src, deFirstCluster v.disk (entryPos v.bpb src), deFileSize v.disk (entryPos v.bpb src))
  gone : strcasecmp old new = true ∨ finddir v' dir old = none
  others : ∀ n, strcasecmp n old = false → strcasecmp n new = false →
    (finddir v' dir n).map DirFile.key = (finddir v dir n).map DirFile.key
  isChain : IsChain v' dir chain
  distinct : (shortNames (dirSlots v' chain)).Nodup

/-- The condition on the directory before a rename. Unless both names have one 8.3 form, the new
one is not in use or it is replaced, and it does not start with the deletion mark. The source
then shows the new name and no name but the two is lost. -/
structure RenameFits (v : Volume) (dir : ℕ) (src : ℕ × ℕ) (old new : List UInt8)
    (replace : Bool) : Prop where
  short : makeShortName old = makeShortName new ∨
    ((makeShortName new).getD 0 0 ≠ 0xE5 ∧
      (replace = true ∨ sfnExistsInDir v dir (makeShortName new) = false))
  names : ∃ A f B, readDir v dir = A ++ f :: B ∧ f.entry = src ∧
    NamesFit A B f (nameAfter f old new)
      (fun g => some g.entry ≠ replacedEntry v dir old new replace) old new

theorem readDir_eq_dirFiles (hok : v.bpb.Ok) (hchain : IsChain v dir chain)
    (hfits : (dirFiles v chain).length ≤ fat32MaxDirEntries) :
    readDir v dir = dirFiles v chain := by
  rw [readDir_eq hok hchain]
  exact take_of_length_le hfits

variable {src : ℕ × ℕ}

theorem lookups_iff {A B : List DirFile} {f f' : DirFile} {keep : DirFile → Bool}
    (hv : readDir v dir = A ++ f :: B) (hv' : readDir v' dir = A.filter keep ++ f' :: B.filter keep)
    (hkey : f.key = (src, deFirstCluster v.disk (entryPos v.bpb src),
      deFileSize v.disk (entryPos v.bpb src))) (hchain : IsChain v' dir chain) :
    RenameOk v v' dir chain src old new ↔
      Moved A B f f' keep old new ∧ (shortNames (dirSlots v' chain)).Nodup := by
  constructor
  · rintro ⟨hfinds, hgone, hothers, -, hnd⟩
    simp only [finddir, hv, hv', ← hkey] at hfinds hgone hothers
    exact ⟨⟨hfinds, hgone, hothers⟩, hnd⟩
  · rintro ⟨⟨hfinds, hgone, hothers⟩, hnd⟩
    refine ⟨?_, ?_, ?_, hchain, hnd⟩
    · rw [finddir, hv', ← hkey]
      exact hfinds
    · rw [finddir, hv']
      exact hgone
    · intro n hn hn'
      rw [finddir, finddir, hv, hv']
      exact hothers n hn hn'

theorem replacedEntry_ne (h : SoundDir v dir chain)
    (hfind : findDirentBySfn v dir (makeShortName old) = .ok (some src)) :
    replacedEntry v dir old new replace ≠ some src := by
  intro heq
  unfold replacedEntry at heq
  split at heq
  · rename_i hdiff
    split at heq
    · rename_i dst hdst
      subst heq
      obtain ⟨-, -, -, hold⟩ := findDirent_found h.ok h.isChain hfind
      obtain ⟨-, -, -, hnew⟩ := findDirent_found h.ok h.isChain hdst
      rw [hold] at hnew
      exact hdiff.2 hnew
    · contradiction
  · contradiction

theorem SoundDir.source (h : SoundDir v dir chain) (old : List UInt8) (replace : Bool)
    (hnew : 0 ∉ new) {k : ℕ}
    (hsrc : (dirEntries v.bpb chain)[k]? = some src)
    (hnamed : Named (dirSlots v chain) k (bytes v.disk (entryPos v.bpb src) 32))
    (hdot : v.disk (entryPos v.bpb src) ≠ charDot) :
    ∃ A f B, readDir v dir = A ++ f :: B ∧
      f.key = (src, deFirstCluster v.disk (entryPos v.bpb src),
        deFileSize v.disk (entryPos v.bpb src)) ∧
      ((A ++ f :: B).map DirFile.entry).Nodup ∧
      ((A ++ f :: B).Pairwise fun f g => strcasecmp f.name g.name = false) ∧
      (RenameFits v dir src old new replace ↔
        (makeShortName old = makeShortName new ∨ ((makeShortName new).getD 0 0 ≠ 0xE5 ∧
          (replace = true ∨ sfnExistsInDir v dir (makeShortName new) = false))) ∧
        NamesFit A B f (nameAfter f old new)
          (fun g => some g.entry ≠ replacedEntry v dir old new replace) old new) := by
  obtain ⟨A, f, B, hfiles, hkey, -⟩ := dirFiles_withSfn h.ok h.isChain h.tidy
    (length_makeShortName new) (makeShortName_ne_zero hnew) (makeShortName_ne_dot new) hsrc hnamed
    hdot
  have hnd := dirFiles_nodup h.ok h.isChain
  have hshown := h.shown
  rw [hfiles] at hnd hshown
  have hread : readDir v dir = A ++ f :: B := by
    rw [readDir_eq_dirFiles h.ok h.isChain h.fits, hfiles]
  have hentry : f.entry = src := congrArg Prod.fst hkey
  refine ⟨A, f, B, hread, hkey, hnd, hshown, ?_⟩
  constructor
  · rintro ⟨hshort, A', f', B', hread', hentry', hfit⟩
    obtain ⟨rfl, rfl, rfl⟩ := split_unique hnd (hread.symm.trans hread')
      (hentry'.trans hentry.symm)
    exact ⟨hshort, hfit⟩
  · rintro ⟨hshort, hfit⟩
    exact ⟨hshort, A, f, B, hread, hentry, hfit⟩

theorem renamed_iff (h : SoundDir v dir chain) (hnew : 0 ∉ new)
    (hfind : findDirentBySfn v dir (makeShortName old) = .ok (some src))
    (hdiff : makeShortName old ≠ makeShortName new)
    (hc : Cleared v w dir chain (makeShortName new) (replacedEntry v dir old new replace))
    (habsent : if replace then Absent (dirSlots w chain) (makeShortName new) else w = v) :
    RenameOk v (withSfn w src (makeShortName new)) dir chain src old new ↔
      RenameFits v dir src old new replace := by
  obtain ⟨k, hsrc, hnamed, hsfn⟩ := findDirent_found h.ok h.isChain hfind
  have hdot : v.disk (entryPos v.bpb src) ≠ charDot := by
    have := makeShortName_ne_dot old
    rwa [← hsfn, getD_bytes (by omega), add_zero] at this
  obtain ⟨A, f, B, hread, hkey, hnd, hshown, hfits⟩ :=
    h.source old replace hnew hsrc hnamed hdot
  have hfiles : dirFiles v chain = A ++ f :: B := by
    rw [← readDir_eq_dirFiles h.ok h.isChain h.fits, hread]
  have hentry : f.entry = src := congrArg Prod.fst hkey
  set keep : DirFile → Bool :=
    fun g => some g.entry ≠ replacedEntry v dir old new replace with hkeep
  have hkeepf : keep f = true := by
    rw [hkeep, decide_eq_true_eq, hentry]
    exact (replacedEntry_ne h hfind).symm
  -- the entry to rename is where it was
  have hok : w.bpb.Ok := hc.bpb ▸ h.ok
  have hnamed' := hc.keeps k _ hnamed (by rw [slotName_bytes, hsfn]; exact hdiff)
  have hsrc' : (dirEntries w.bpb chain)[k]? = some src := by
    rw [hc.bpb]
    exact hsrc
  have hsame : bytes w.disk (entryPos w.bpb src) 32 = bytes v.disk (entryPos v.bpb src) 32 := by
    have hslot := hnamed'.1
    rw [getElem?_dirSlots, hsrc', map_some, some.injEq] at hslot
    exact hslot
  rw [← hsame] at hnamed'
  have hagree : AgreeOn (entryPos v.bpb src) (entryPos v.bpb src + 32) v.disk w.disk := by
    apply agreeOn_of_bytes
    rw [← hsame, hc.bpb]
  have hfirst : w.disk (entryPos w.bpb src) = v.disk (entryPos v.bpb src) := by
    rw [hc.bpb]
    exact hagree _ le_rfl (by omega)
  obtain ⟨A', f', B', hfiles', hkey', hafter⟩ := dirFiles_withSfn hok hc.isChain hc.tidy
    (length_makeShortName new) (makeShortName_ne_zero hnew) (makeShortName_ne_dot new) hsrc' hnamed'
    (by rw [hfirst]; exact hdot)
  obtain ⟨rfl, hf, rfl⟩ : A' = A.filter keep ∧ f' = f ∧ B' = B.filter keep := by
    have hcleared := hc.files
    rw [hfiles, filter_append, filter_cons_of_pos hkeepf] at hcleared
    have hnd' := dirFiles_nodup hok hc.isChain
    rw [hcleared] at hnd' hfiles'
    exact split_unique hnd' hfiles' ((congrArg Prod.fst hkey').trans hentry.symm)
  rw [hf] at hafter
  set v' := withSfn w src (makeShortName new)
  have hb' : v'.bpb = w.bpb := rfl
  have hlow := dataStart_le_clusterAddr hok
    (hc.isChain.inRange _ (mem_dirEntries.mp (mem_of_getElem? hsrc')).1)
  have hchain' : IsChain v' dir chain := by
    refine hc.isChain.congr hb' fun d hd =>
      getFatEntry_congr hok hb' (hc.isChain.inRange d hd).2 ?_
    intro x _ hx
    refine withSfn_outside w src (length_makeShortName new) (.inl ?_)
    unfold entryPos
    omega
  have hlen' : (dirFiles v' chain).length ≤ fat32MaxDirEntries := by
    have hlen := h.fits
    have hA := length_filter_le keep A
    have hB := length_filter_le keep B
    rw [hfiles, length_append, length_cons] at hlen
    rw [hafter]
    split
    · rw [length_append]
      omega
    · rw [length_append, length_cons]
      omega
  have hread' : readDir v' dir = dirFiles v' chain := readDir_eq_dirFiles hok hchain' hlen'
  by_cases hE5 : (makeShortName new).getD 0 0 = 0xE5
  · -- the source is deleted
    rw [if_pos hE5] at hafter
    refine iff_of_false ?_ ?_
    · intro hrename
      obtain ⟨g, hg, hgkey⟩ := Option.map_eq_some_iff.mp hrename.finds
      rw [finddir, hread', hafter, ← filter_append] at hg
      have hmem := mem_of_mem_filter (mem_of_find?_eq_some hg)
      exact ne_of_nodup hnd g hmem ((congrArg Prod.fst hgkey).trans hentry.symm)
    · rintro ⟨hshort, -⟩
      rcases hshort with hsame | hgood
      · exact hdiff hsame
      · exact hgood.1 hE5
  · rw [if_neg hE5] at hafter
    rw [hafter] at hread'
    have hname : (f.withSfn (makeShortName new)).name = nameAfter f old new := by
      simp only [DirFile.withSfn, nameAfter, hdiff, false_or]
    have hnames : Distinct slotName (dirSlots w chain) := by
      intro i j e e' hi hj heq
      exact h.names i j e e' (hc.named i e hi) (hc.named j e' hj) heq
    have hsfn' : bytes w.disk (entryPos w.bpb src) 11 ≠ makeShortName new := by
      rw [hc.bpb, bytes_congr (hagree.mono le_rfl (by omega)), hsfn]
      exact hdiff
    have hfree : Absent (dirSlots w chain) (makeShortName new) ↔
        replace = true ∨ sfnExistsInDir v dir (makeShortName new) = false := by
      cases replace with
      | true => exact iff_of_true habsent (.inl rfl)
      | false =>
        obtain rfl : w = v := habsent
        rw [sfnExists_iff h.ok h.isChain h.tidy]
        simp
    have hkept : (f.withSfn (makeShortName new)).key = f.key := rfl
    rw [lookups_iff hread hread' hkey hchain', moved_iff (ne_of_nodup hnd) hkept hshown, hname,
      nodup_withSfn hok hc.isChain hc.tidy hnames (length_makeShortName new)
        (makeShortName_ne_zero hnew) hE5 hsrc' hnamed' hsfn', hfree, hfits]
    constructor
    · rintro ⟨hfit, hshort⟩
      exact ⟨.inr ⟨hE5, hshort⟩, hfit⟩
    · rintro ⟨hshort, hfit⟩
      exact ⟨hfit, (hshort.resolve_left hdiff).2⟩

/-- In a sound directory a rename that returns 0 leaves the other directories alone, and the
names resolve after it as they should exactly if `RenameFits` holds before it. -/
theorem renameVol_iff (v v' : Volume) (dir : ℕ) (chain : List ℕ) (old new : List UInt8)
    (replace : Bool) (h : SoundDir v dir chain) (hnew : 0 ∉ new)
    (hret : renameVol v dir old new replace = some (v', 0)) :
    (∀ other, (∀ c ∈ other, v.bpb.InRange c ∧ c ∉ chain) → dirSlots v' other = dirSlots v other) ∧
      ∃ src, findDirentBySfn v dir (makeShortName old) = .ok (some src) ∧
        (RenameOk v v' dir chain src old new ↔ RenameFits v dir src old new replace) := by
  obtain ⟨src, hfind, hcase⟩ := renameVol_zero h hret
  obtain ⟨k, hsrc, hnamed, hsfn⟩ := findDirent_found h.ok h.isChain hfind
  rcases hcase with ⟨hsame, rfl⟩ | ⟨hdiff, w, hc, rfl, habsent⟩
  · refine ⟨fun _ _ => rfl, src, hfind, ?_⟩
    have hdot : v'.disk (entryPos v'.bpb src) ≠ charDot := by
      have := makeShortName_ne_dot old
      rwa [← hsfn, getD_bytes (by omega), Nat.add_zero] at this
    obtain ⟨A, f, B, hread, hkey, hnd, hshown, hfits⟩ :=
      h.source old replace hnew hsrc hnamed hdot
    have hnone : replacedEntry v' dir old new replace = none := by
      rw [replacedEntry, if_neg fun hboth => hboth.2 hsame]
    have hname : nameAfter f old new = f.name := if_pos (.inl hsame)
    have hnames := (nodup_shortNames h.tidy).mpr h.names
    have hread' : readDir v' dir =
        A.filter (fun g => some g.entry ≠ replacedEntry v' dir old new replace) ++
          f :: B.filter fun g => some g.entry ≠ replacedEntry v' dir old new replace := by
      rw [hread, hnone]
      simp
    rw [hfits, hname, ← moved_iff (ne_of_nodup hnd) rfl hshown,
      lookups_iff hread hread' hkey h.isChain]
    exact ⟨fun hmoved => ⟨.inl hsame, hmoved.1⟩, fun hmoved => ⟨hmoved.2, hnames⟩⟩
  · refine ⟨fun other hother => ?_, src, hfind, renamed_iff h hnew hfind hdiff hc habsent⟩
    refine dirSlots_congr (w := withSfn w src (makeShortName new)) hc.bpb fun c hc' x hx => ?_
    obtain ⟨hsc, hsi⟩ := mem_dirEntries.mp (mem_of_getElem? hsrc)
    rw [withSfn_outside w src (length_makeShortName new), hc.elsewhere c (hother c hc').1
      (hother c hc').2 x hx]
    -- the entry lies in a cluster of the directory
    by_contra hin
    rw [hc.bpb] at hin
    have hx' := entryPos_inCluster (b := v.bpb) hsi (x := x) (by omega) (by omega)
    have heq := cluster_unique h.ok (hother c hc').1 (h.isChain.inRange _ hsc) hx hx'
    exact (hother c hc').2 (heq ▸ hsc)

end Outcome

/-! ### A root directory with one file -/

/-- The volume `emptyRoot` with a file `A` of cluster 3. -/
def oneFile : Volume :=
  setFatEntry (emptyRoot.setDisk (storeBytes emptyRoot.disk (entryPos emptyRoot.bpb (2, 0))
    (newEntry (makeShortName [0x41]) fat32AttrArchive 3 ⟨0, 0, 0⟩))) 3 eocMark

theorem oneFile_slots : dirSlots oneFile [2] =
    [newEntry (makeShortName [0x41]) fat32AttrArchive 3 ⟨0, 0, 0⟩] ++
      replicate 15 zeroSlot := by
  decide

def fileA : DirFile := ⟨(2, 0), [0x61], false, false, 3, 0, makeShortName [0x41]⟩

theorem oneFile_files : dirFiles oneFile [2] = [fileA] := by decide +kernel

theorem oneFile_named {j : ℕ} {e : Slot} (h : Named (dirSlots oneFile [2]) j e) :
    j = 0 ∧ e = newEntry (makeShortName [0x41]) fat32AttrArchive 3 ⟨0, 0, 0⟩ := by
  rw [oneFile_slots, named_append_zero] at h
  have hj := (List.getElem?_eq_some_iff.mp h.1).1
  obtain rfl : j = 0 := by simpa using hj
  exact ⟨rfl, (some.inj h.1).symm⟩

theorem oneFile_sound : SoundDir oneFile 2 [2] where
  ok := emptyRoot_ok
  isChain := ⟨rfl, emptyRoot_inRange, show fat32Eoc ≤ getFatEntry oneFile 2 by decide⟩
  tidy := by
    have htidy : Tidy [newEntry (makeShortName [0x41]) fat32AttrArchive 3 ⟨0, 0, 0⟩] := by
      intro i j e e' _ hi h0 _
      obtain rfl : i = 0 := by simpa using (List.getElem?_eq_some_iff.mp hi).1
      rw [← some.inj hi] at h0
      exact absurd h0 (by decide)
    rw [oneFile_slots]
    exact htidy.append_zero 15
  names := by
    intro i j e e' hi hj _
    rw [(oneFile_named hi).1, (oneFile_named hj).1]
  fits := by
    rw [oneFile_files]
    decide
  shown := by
    rw [oneFile_files]
    exact pairwise_singleton _ _
  apart := by
    intro j e hj _ _
    rw [(oneFile_named hj).2]
    refine ⟨[3], ⟨rfl, ?_, show fat32Eoc ≤ getFatEntry oneFile 3 by decide⟩, by decide⟩
    unfold Bpb.InRange
    decide

/-- File `A` is renamed to `C`. -/
theorem renameVol_iff_oneFile : ∃ v' src, renameVol oneFile 2 [0x41] [0x43] false = some (v', 0) ∧
      RenameOk oneFile v' 2 [2] src [0x41] [0x43] := by
  have hret : (renameVol oneFile 2 [0x41] [0x43] false).map Prod.snd = some 0 := by
    decide
  obtain ⟨⟨v', rc⟩, hrun, rfl⟩ := Option.map_eq_some_iff.mp hret
  obtain ⟨-, src, hfind, hiff⟩ := renameVol_iff oneFile v' 2 [2] [0x41] [0x43] false oneFile_sound
    (by decide) hrun
  refine ⟨v', src, hrun, hiff.mpr ⟨.inr ⟨by decide, .inr (by decide)⟩, ?_⟩⟩
  have hsrc : findDirentBySfn oneFile 2 (makeShortName [0x41]) = .ok (some (2, 0)) := by rfl
  rw [hfind, Except.ok.injEq, Option.some.injEq] at hsrc
  refine ⟨[], fileA, [], ?_, hsrc.symm, ?_, by simp, by simp, by decide, by simp⟩
  · rw [readDir_eq_dirFiles oneFile_sound.ok oneFile_sound.isChain oneFile_sound.fits,
      oneFile_files, nil_append]
  · decide

/-- After a file with a long name has been renamed, it is found under the long name still, and
not under the new one. -/
theorem renameVol_longName : ∃ v v', Refine.run (nameExec 2) emptyRoot
        [.createFile [0x61, 0x62, 0x63, 0x64, 0x65, 0x66, 0x67, 0x68, 0x69] ⟨0, 0, 0⟩] =
          some (v, [0]) ∧
      renameVol v 2 [0x61, 0x62, 0x63, 0x64, 0x65, 0x66, 0x67, 0x68, 0x69] [0x42] false =
        some (v', 0) ∧ finddir v' 2 [0x42] = none ∧
      finddir v' 2 [0x61, 0x62, 0x63, 0x64, 0x65, 0x66, 0x67, 0x68, 0x69] ≠ none := by
  set name : List UInt8 := [0x61, 0x62, 0x63, 0x64, 0x65, 0x66, 0x67, 0x68, 0x69]
  have hcreate : (Refine.run (nameExec 2) emptyRoot [.createFile name ⟨0, 0, 0⟩]).map Prod.snd =
      some [0] := by
    decide
  have hrename : ((Refine.run (nameExec 2) emptyRoot [.createFile name ⟨0, 0, 0⟩]).bind
      fun p => renameVol p.1 2 name [0x42] false).map Prod.snd = some 0 := by
    decide
  have hnew : ((Refine.run (nameExec 2) emptyRoot [.createFile name ⟨0, 0, 0⟩]).bind
      fun p => renameVol p.1 2 name [0x42] false).map (fun p => finddir p.1 2 [0x42]) =
        some none := by
    decide
  have hold : ((Refine.run (nameExec 2) emptyRoot [.createFile name ⟨0, 0, 0⟩]).bind
      fun p => renameVol p.1 2 name [0x42] false).map (fun p => (finddir p.1 2 name).isSome) =
        some true := by
    decide
  obtain ⟨⟨v, rets⟩, hrun, rfl⟩ := Option.map_eq_some_iff.mp hcreate
  rw [hrun, Option.bind_some] at hrename hnew hold
  obtain ⟨⟨v', rc⟩, hret, rfl⟩ := Option.map_eq_some_iff.mp hrename
  rw [hret, Option.map_some, Option.some.injEq] at hnew hold
  exact ⟨v, v', hrun, hret, hnew, Option.isSome_iff_ne_none.mp hold⟩

end ImpossibleOs.Fat32
