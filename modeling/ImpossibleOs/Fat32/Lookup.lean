import Mathlib.Data.List.Pairwise
import ImpossibleOs.Fat32.ReadDir

/-!
Lookups in a directory of which one entry has changed.

Rewriting the 8.3 name of an entry replaces one file of the listing, and
removing an entry drops one. What the lookups of a directory make of both at
once, a file that has become another and files that are gone, is `Moved`.
-/

namespace ImpossibleOs.Fat32

open ByteMem List Option

variable {v w : Volume} {dir : ℕ} {chain : List ℕ}

/-! ### Listings after a change -/

variable {p : ℕ × ℕ}

theorem readItem_file (h0 : v.disk (entryPos v.bpb p) ≠ 0)
    (hlive : deSkipped v.disk (entryPos v.bpb p) = false)
    (hdot : v.disk (entryPos v.bpb p) ≠ charDot) (s : LfnBuf) :
    readItem v s p = .file
      { entry := p
        name := if s.holds then (cString s.name).take (fat32MaxName - 1)
          else shortNameToStr (bytes v.disk (entryPos v.bpb p) 11)
        long := s.holds
        isDirectory := deAttr v.disk (entryPos v.bpb p) &&& fat32AttrDirectory ≠ 0
        firstCluster := deFirstCluster v.disk (entryPos v.bpb p)
        fileSize := deFileSize v.disk (entryPos v.bpb p)
        sfn := bytes v.disk (entryPos v.bpb p) 11 } := by
  simp only [deSkipped, Bool.or_eq_false_iff, decide_eq_false_iff_not] at hlive
  unfold readItem
  dsimp only
  rw [if_neg h0, if_neg hlive.1.1, if_neg (show ¬ deAttr v.disk _ = fat32AttrLfn from hlive.1.2),
    if_neg hlive.2, if_neg hdot]

theorem listing_at {ps pre suf : List (ℕ × ℕ)} (hps : ps = pre ++ p :: suf)
    (hpre : ∀ q ∈ pre, v.disk (entryPos v.bpb q) ≠ 0) (hb : w.bpb = v.bpb)
    (hsame : ∀ q ∈ pre ++ suf, AgreeOn (entryPos v.bpb q) (entryPos v.bpb q + 32) v.disk w.disk) :
    ∃ A B s, (∀ f, readItem v s p = .file f → listing v .idle ps = A ++ f :: B) ∧
      (∀ f, readItem w s p = .file f → listing w .idle ps = A ++ f :: B) ∧
      ∀ s', readItem w s p = .pass s' → s'.active = false → listing w .idle ps = A ++ B := by
  have hleft := fun q (hq : q ∈ pre) => hsame q (mem_append_left suf hq)
  have hright := fun q (hq : q ∈ suf) => hsame q (mem_append_right pre hq)
  obtain ⟨s, hs⟩ := lfnAfter_of_nonzero (s := .idle) hpre
  have hs' : lfnAfter w .idle pre = some s := (listing_congr hb hleft .idle).2.trans hs
  have hw : listing w .idle ps = listing v .idle pre ++ listing w s (p :: suf) := by
    rw [hps, listing_append hs', (listing_congr hb hleft .idle).1]
  refine ⟨listing v .idle pre, listing v s.off suf, s, ?_, ?_, ?_⟩
  · intro f hf
    rw [hps, listing_append hs, listing, hf]
  · intro f hf
    rw [hw, listing, hf]
    dsimp only
    rw [(listing_congr hb hright s.off).1]
  · intro s₁ hpass hoff
    rw [hw, listing, hpass]
    dsimp only
    rw [(listing_congr hb hright s₁).1, listing_idle hoff (show s.off.active = false from rfl)]

theorem listing_eq_nil {ps : List (ℕ × ℕ)} {s : LfnBuf}
    (h : ∀ q ∈ ps, ∀ s, ∃ s', readItem v s q = .pass s') : listing v s ps = [] := by
  induction ps generalizing s with
  | nil => rfl
  | cons q ps ih =>
    obtain ⟨s', hs'⟩ := h q mem_cons_self s
    rw [listing, hs']
    exact ih fun q' hq' => h q' (mem_cons_of_mem q hq')

theorem readItem_pass_lfn {q : ℕ × ℕ} (h0 : v.disk (entryPos v.bpb q) ≠ 0)
    (hlfn : deAttr v.disk (entryPos v.bpb q) = fat32AttrLfn) (s : LfnBuf) :
    ∃ s', readItem v s q = .pass s' := by
  unfold readItem
  dsimp only
  rw [if_neg h0]
  split
  · exact ⟨_, rfl⟩
  · exact ⟨_, rfl⟩

theorem readItem_deleted {q : ℕ × ℕ} (hE5 : v.disk (entryPos v.bpb q) = 0xE5) (s : LfnBuf) :
    readItem v s q = .pass s.off := by
  unfold readItem
  dsimp only
  rw [if_neg (by rw [hE5]; decide), if_pos hE5]

/-- In `w` the entry `q` is as in `v`, or it is marked, and from it on `qs` are LFN entries. -/
def WipedIn (v w : Volume) (q : ℕ × ℕ) (qs : List (ℕ × ℕ)) : Prop :=
  AgreeOn (entryPos v.bpb q) (entryPos v.bpb q + 32) v.disk w.disk ∨
    (w.disk (entryPos v.bpb q) = 0xE5 ∧
      ∀ q' ∈ q :: qs, deAttr v.disk (entryPos v.bpb q') = fat32AttrLfn)

theorem listing_wiped (hb : w.bpb = v.bpb) {ps : List (ℕ × ℕ)}
    (h0 : ∀ q ∈ ps, v.disk (entryPos v.bpb q) ≠ 0)
    (h : ∀ l q r, ps = l ++ q :: r → WipedIn v w q r) (s : LfnBuf) :
    listing w s ps = listing v s ps := by
  induction ps generalizing s with
  | nil => rfl
  | cons q ps ih =>
    have hrest : ∀ l q' r, ps = l ++ q' :: r → WipedIn v w q' r := by
      intro l q' r heq
      exact h (q :: l) q' r (by rw [heq, cons_append])
    have h0' := fun q' (hq' : q' ∈ ps) => h0 q' (mem_cons_of_mem q hq')
    rcases h [] q ps rfl with hagree | ⟨hE5, hlfn⟩
    · rw [listing, listing, readItem_congr hb hagree]
      cases readItem v s q with
      | endMark => rfl
      | pass s' => exact ih h0' hrest s'
      | file f => exact congrArg (f :: ·) (ih h0' hrest s.off)
    · -- only LFN entries are left, marked or not
      have hv : ∀ q' ∈ q :: ps, ∀ s, ∃ s', readItem v s q' = .pass s' :=
        fun q' hq' s => readItem_pass_lfn (h0 q' hq') (hlfn q' hq') s
      rw [listing_eq_nil hv, listing_eq_nil]
      intro q' hq' s
      obtain ⟨l, r, heq⟩ := append_of_mem hq'
      rcases h l q' r heq with hagree | ⟨hE5', -⟩
      · rw [readItem_congr hb hagree]
        exact hv q' hq' s
      · exact ⟨_, readItem_deleted (by rw [hb]; exact hE5') s⟩

theorem listing_removed {ps pre suf : List (ℕ × ℕ)} (hps : ps = pre ++ p :: suf)
    (hpre : ∀ q ∈ pre, v.disk (entryPos v.bpb q) ≠ 0) (hb : w.bpb = v.bpb)
    (hwiped : ∀ l q r, pre = l ++ q :: r → WipedIn v w q r) (hE5 : w.disk (entryPos v.bpb p) = 0xE5)
    (hsuf : ∀ q ∈ suf, AgreeOn (entryPos v.bpb q) (entryPos v.bpb q + 32) v.disk w.disk)
    (hfile : ∀ s, ∃ f, readItem v s p = .file f ∧ f.entry = p) :
    ∃ A B, ∃ f : DirFile, f.entry = p ∧ listing v .idle ps = A ++ f :: B ∧
      listing w .idle ps = A ++ B := by
  have hpre' : ∀ q ∈ pre, w.disk (entryPos w.bpb q) ≠ 0 := by
    intro q hq
    obtain ⟨l, r, heq⟩ := append_of_mem hq
    rw [hb]
    rcases hwiped l q r heq with hagree | ⟨hmark, -⟩
    · rw [hagree _ le_rfl (by omega)]
      exact hpre q hq
    · rw [hmark]
      decide
  obtain ⟨s, hs⟩ := lfnAfter_of_nonzero (s := .idle) hpre
  obtain ⟨s', hs'⟩ := lfnAfter_of_nonzero (s := .idle) hpre'
  obtain ⟨f, hf, hfp⟩ := hfile s
  refine ⟨listing v .idle pre, listing v s.off suf, f, hfp, ?_, ?_⟩
  · rw [hps, listing_append hs, listing, hf]
  · rw [hps, listing_append hs', listing_wiped hb hpre hwiped, listing,
      readItem_deleted (by rw [hb]; exact hE5)]
    dsimp only
    rw [(listing_congr hb hsuf s'.off).1]
    congr 1
    exact listing_idle rfl rfl suf

theorem readItem_entry {s : LfnBuf} {f : DirFile} (h : readItem v s p = .file f) : f.entry = p := by
  unfold readItem at h
  dsimp only at h
  iterate 5
    split at h
    · simp at h
  rw [← ReadItem.file.inj h]

theorem listing_entries (s : LfnBuf) (ps : List (ℕ × ℕ)) :
    ((listing v s ps).map DirFile.entry).Sublist ps := by
  induction ps generalizing s with
  | nil => exact List.Sublist.refl _
  | cons p ps ih =>
    rw [listing]
    cases hp : readItem v s p with
    | endMark => exact nil_sublist _
    | pass s' => exact (ih s').cons p
    | file f =>
      dsimp only
      rw [map_cons, readItem_entry hp]
      exact (ih s.off).cons_cons p

/-- What a lookup tells about a file: the entry, its first cluster and its size. -/
def DirFile.key (f : DirFile) : (ℕ × ℕ) × ℕ × ℕ := (f.entry, f.firstCluster, f.fileSize)

section Lookup

variable {A B : List DirFile} {f f' : DirFile} {keep : DirFile → Bool} {q : DirFile → Bool}

theorem find?_key_iff (hent : ∀ g ∈ A ++ B, g.entry ≠ f.entry) :
    ((A ++ f :: B).find? q).map DirFile.key = some f.key ↔ q f = true ∧ ∀ g ∈ A, q g = false := by
  rw [find?_append]
  constructor
  · intro h
    cases hA : A.find? q with
    | some g =>
      rw [hA, some_or, map_some, some.injEq] at h
      have hg := mem_of_find?_eq_some hA
      exact absurd (congrArg Prod.fst h) (hent g (mem_append_left B hg))
    | none =>
      have hnone : ∀ g ∈ A, q g = false := by simpa using List.find?_eq_none.mp hA
      refine ⟨?_, hnone⟩
      by_contra hq
      rw [hA, none_or, find?_cons_of_neg (by simpa using hq)] at h
      obtain ⟨g, hg, hkey⟩ := map_eq_some_iff.mp h
      exact hent g (mem_append_right A (mem_of_find?_eq_some hg))
        (congrArg Prod.fst hkey)
  · rintro ⟨hq, hnone⟩
    have hA : A.find? q = none := by
      rw [find?_eq_none]
      simpa using hnone
    rw [hA, none_or, find?_cons_of_pos hq, map_some]

theorem find?_filter_eq (hf : q f = false) (hf' : q f' = false)
    (hgone : ∀ g ∈ A ++ B, keep g = false → q g = false) :
    (A.filter keep ++ f' :: B.filter keep).find? q = (A ++ f :: B).find? q := by
  have hfilter : ∀ l : List DirFile, (∀ g ∈ l, keep g = false → q g = false) →
      (l.filter keep).find? q = l.find? q := by
    intro l hl
    induction l with
    | nil => rfl
    | cons g l ih =>
      have ih' := ih fun g' hg' => hl g' (mem_cons_of_mem g hg')
      cases hk : keep g with
      | true => rw [filter_cons_of_pos hk, find?_cons, find?_cons, ih']
      | false =>
        rw [filter_cons_of_neg (by simp [hk]), ih',
          find?_cons_of_neg (by simp [hl g mem_cons_self hk])]
  rw [find?_append, find?_append, find?_cons_of_neg (by simp [hf']),
    find?_cons_of_neg (by simp [hf]),
    hfilter A fun g hg => hgone g (mem_append_left B hg),
    hfilter B fun g hg => hgone g (mem_append_right A hg)]

end Lookup

/-! ### Names up to case -/

theorem strcasecmp_comm (a b : List UInt8) : strcasecmp a b = strcasecmp b a := by
  simp [strcasecmp, eq_comm]

theorem strcasecmp_self (a : List UInt8) : strcasecmp a a = true := by simp [strcasecmp]

theorem strcasecmp_of_left {a b c : List UInt8} (h : strcasecmp a b = true) :
    strcasecmp a c = strcasecmp b c := by
  simp only [strcasecmp, decide_eq_true_eq] at *
  rw [h]

section Moved

variable {A B : List DirFile} {f f' : DirFile} {keep : DirFile → Bool} {old new : List UInt8}

/-- The names of a directory after file `f` has become `f'` and those that are not kept are
gone. -/
structure Moved (A B : List DirFile) (f f' : DirFile) (keep : DirFile → Bool)
    (old new : List UInt8) : Prop where
  finds : ((A.filter keep ++ f' :: B.filter keep).find? fun g => strcasecmp g.name new).map
    DirFile.key = some f.key
  gone : strcasecmp old new = true ∨
    (A.filter keep ++ f' :: B.filter keep).find? (fun g => strcasecmp g.name old) = none
  others : ∀ n, strcasecmp n old = false → strcasecmp n new = false →
    ((A.filter keep ++ f' :: B.filter keep).find? fun g => strcasecmp g.name n).map DirFile.key =
      ((A ++ f :: B).find? fun g => strcasecmp g.name n).map DirFile.key

/-- The name that the changed file shows is the one asked for, and nobody before it that is kept
shows it; the old name is nobody's; and no name but the two has been lost. -/
structure NamesFit (A B : List DirFile) (f : DirFile) (name : List UInt8) (keep : DirFile → Bool)
    (old new : List UInt8) : Prop where
  shows : strcasecmp name new = true
  first : ∀ g ∈ A, keep g = true → strcasecmp g.name new = false
  free : strcasecmp old new = true ∨ ∀ g ∈ A ++ B, keep g = true → strcasecmp g.name old = false
  lost : strcasecmp f.name old = true ∨ strcasecmp f.name new = true
  removed : ∀ g ∈ A ++ B, keep g = false →
    strcasecmp g.name old = true ∨ strcasecmp g.name new = true

theorem moved_iff (hent : ∀ g ∈ A ++ B, g.entry ≠ f.entry) (hkey : f'.key = f.key)
    (hshown : (A ++ f :: B).Pairwise fun g h => strcasecmp g.name h.name = false) :
    Moved A B f f' keep old new ↔ NamesFit A B f f'.name keep old new := by
  have hent' : ∀ g ∈ A.filter keep ++ B.filter keep, g.entry ≠ f'.entry := by
    intro g hg
    have hentry : f'.entry = f.entry := congrArg Prod.fst hkey
    rw [hentry]
    refine hent g ?_
    rw [← filter_append] at hg
    exact (mem_filter.mp hg).1
  have hfinds : ((A.filter keep ++ f' :: B.filter keep).find? fun g => strcasecmp g.name new).map
      DirFile.key = some f.key ↔ strcasecmp f'.name new = true ∧
        ∀ g ∈ A, keep g = true → strcasecmp g.name new = false := by
    rw [← hkey, find?_key_iff hent']
    simp only [mem_filter, and_imp]
  have hsymm : Std.Symm fun g h : DirFile => strcasecmp g.name h.name = false :=
    ⟨fun g h hgh => (strcasecmp_comm h.name g.name).trans hgh⟩
  -- another file never shows the name of a given one
  have hother : ∀ g ∈ A ++ f :: B, ∀ h ∈ A ++ f :: B, g ≠ h → strcasecmp g.name h.name = false := by
    intro g hg h hh hne
    exact hshown.forall hg hh hne
  -- a name that only `g` showed has to be one of the two
  have hlost : ∀ g ∈ A ++ f :: B, (g = f ∨ keep g = false) → strcasecmp f'.name new = true →
      (∀ n, strcasecmp n old = false → strcasecmp n new = false →
        ((A.filter keep ++ f' :: B.filter keep).find? fun h => strcasecmp h.name n).map
            DirFile.key =
          ((A ++ f :: B).find? fun h => strcasecmp h.name n).map DirFile.key) →
      strcasecmp g.name old = true ∨ strcasecmp g.name new = true := by
    intro g hg hlost hnew hothers
    by_contra hnot
    rw [not_or, Bool.not_eq_true, Bool.not_eq_true] at hnot
    have hsame := hothers g.name hnot.1 hnot.2
    have hnone : (A.filter keep ++ f' :: B.filter keep).find?
        (fun h => strcasecmp h.name g.name) = none := by
      rw [find?_eq_none]
      intro h hh
      rw [Bool.not_eq_true]
      rcases mem_append.mp hh with hh | hh
      · obtain ⟨hhA, hk⟩ := mem_filter.mp hh
        refine hother h (mem_append_left _ hhA) g hg ?_
        rintro rfl
        rcases hlost with rfl | hk'
        · exact hent h (mem_append_left B hhA) rfl
        · rw [hk] at hk'
          contradiction
      · rcases mem_cons.mp hh with rfl | hh
        · rw [strcasecmp_of_left hnew, strcasecmp_comm]
          exact hnot.2
        · obtain ⟨hhB, hk⟩ := mem_filter.mp hh
          refine hother h (mem_append_right A (mem_cons_of_mem f hhB)) g hg ?_
          rintro rfl
          rcases hlost with rfl | hk'
          · exact hent h (mem_append_right A hhB) rfl
          · rw [hk] at hk'
            contradiction
    have hsome : ((A ++ f :: B).find? fun h => strcasecmp h.name g.name) ≠ none := by
      rw [Ne, find?_eq_none]
      intro hall
      exact hall g hg (strcasecmp_self _)
    rw [hnone, map_none] at hsame
    exact hsome (map_eq_none_iff.mp hsame.symm)
  have hsub : ∀ g ∈ A ++ B, g ∈ A ++ f :: B := by
    intro g hg
    rcases mem_append.mp hg with hg | hg
    · exact mem_append_left _ hg
    · exact mem_append_right A (mem_cons_of_mem f hg)
  constructor
  · rintro ⟨h₁, h₂, h₃⟩
    obtain ⟨hnew, hfirst⟩ := hfinds.mp h₁
    refine ⟨hnew, hfirst, h₂.imp id fun hnone g hg hk => ?_, ?_, ?_⟩
    · rw [find?_eq_none] at hnone
      refine Bool.not_eq_true _ ▸ hnone g ?_
      rcases mem_append.mp hg with hg | hg
      · exact mem_append_left _ (mem_filter.mpr ⟨hg, hk⟩)
      · exact mem_append_right _ (mem_cons_of_mem f' (mem_filter.mpr ⟨hg, hk⟩))
    · exact hlost f (by simp) (.inl rfl) hnew h₃
    · intro g hg hk
      exact hlost g (hsub g hg) (.inr hk) hnew h₃
  · rintro ⟨hnew, hfirst, hold, hname, hremoved⟩
    refine ⟨hfinds.mpr ⟨hnew, hfirst⟩, ?_, ?_⟩
    · rcases Bool.eq_false_or_eq_true (strcasecmp old new) with heq | hne
      · exact .inl heq
      right
      rw [find?_eq_none]
      intro g hg
      rw [Bool.not_eq_true]
      have hall := hold.resolve_left (by simp [hne])
      rcases mem_append.mp hg with hg | hg
      · obtain ⟨hgA, hk⟩ := mem_filter.mp hg
        exact hall g (mem_append_left B hgA) hk
      · rcases mem_cons.mp hg with rfl | hg
        · rw [strcasecmp_of_left hnew, strcasecmp_comm]
          exact hne
        · obtain ⟨hgB, hk⟩ := mem_filter.mp hg
          exact hall g (mem_append_right A hgB) hk
    · intro n hn hn'
      have hpass : ∀ g : DirFile, (strcasecmp g.name old = true ∨ strcasecmp g.name new = true) →
          strcasecmp g.name n = false := by
        intro g hg
        rcases hg with hg | hg
        · rw [strcasecmp_of_left hg, strcasecmp_comm]
          exact hn
        · rw [strcasecmp_of_left hg, strcasecmp_comm]
          exact hn'
      rw [find?_filter_eq (hpass f hname) (hpass f' (.inr hnew))
        fun g hg hk => hpass g (hremoved g hg hk)]

end Moved

end ImpossibleOs.Fat32
