import ImpossibleOs.Fat32.DirStep

/-!
The invariant of a directory whose names are created, deleted and renamed.

The chain of the directory is sound, nothing follows the end mark, live
entries have distinct short names, and every live entry but `.` and `..` owns
its one cluster. An operation takes a live entry away or adds one.
-/

namespace ImpossibleOs.Fat32

open ByteMem List Option

variable {v w : Volume} {dir : ℕ} {chain chain' : List ℕ} {l l' : List Slot}

variable {name : List UInt8} {p : ℕ × ℕ} {k : ℕ} {m' : ByteMem} {e : Slot}

theorem MarkedAt.tidy {j : ℕ} (hm : MarkedAt l l' j) (h : Tidy l) (hj : Named l j e) : Tidy l' := by
  intro i k e₁ e₂ hik hi h0 hk
  have hi' : l[i]? = some e₁ := by
    rcases hm.2 i with heq | ⟨-, ⟨e', he', hE5⟩, -⟩
    · rw [← heq, hi]
    · rw [hi] at he'
      cases he'
      rw [h0] at hE5
      contradiction
  rcases hm.2 k with heq | ⟨hkj, -⟩
  · exact h i k e₁ e₂ hik hi' h0 (heq ▸ hk)
  · exact absurd (h i j e₁ e (by omega) hi' h0 hj.1) hj.2.1

theorem Tidy.set {j : ℕ} {e e' : Slot} (h : Tidy l) (hj : Named l j e) (h0 : slotFirst e' ≠ 0) :
    Tidy (l.set j e') := by
  intro i k e₁ e₂ hik hi hz hk
  rw [getElem?_set] at hi hk
  have hlt := (List.getElem?_eq_some_iff.mp hj.1).1
  split at hi
  · cases hi
    exact absurd hz h0
  · split at hk
    · rename_i hjk
      exact absurd (h i j e₁ e (by omega) hi hz hj.1) hj.2.1
    · exact h i k e₁ e₂ hik hi hz hk

theorem Tidy.append_zero (h : Tidy l) (n : ℕ) : Tidy (l ++ replicate n zeroSlot) := by
  intro i j e e' hij hi h0 hj
  by_cases hjl : j < l.length
  · rw [getElem?_append_left hjl] at hj
    rw [getElem?_append_left (by omega)] at hi
    exact h i j e e' hij hi h0 hj
  · rw [getElem?_append_right (by omega), getElem?_replicate] at hj
    split at hj
    · cases hj
      rfl
    · contradiction

theorem WrittenAt.tidy {q n : ℕ} {entry : ℕ → Slot} (hw : WrittenAt l l' q n entry) (h : Tidy l)
    (hentry : ∀ k < n, slotFirst (entry k) ≠ 0)
    (hbefore : ∀ i < q, ∀ e, l[i]? = some e → slotFirst e ≠ 0) : Tidy l' := by
  intro i j e e' hij hi h0 hj
  rw [hw] at hi hj
  split at hi
  · rename_i hin
    cases hi
    exact absurd h0 (hentry (i - q) (by omega))
  · rename_i hin
    have hqi : q ≤ i := by
      by_contra hlt
      exact hbefore i (by omega) e hi h0
    rw [if_neg (by omega)] at hj
    exact h i j e e' hij hi h0 hj

/-! ### Live entries of a changed list -/

theorem MarkedAt.named {j i : ℕ} (hm : MarkedAt l l' j) (h : Named l' i e) :
    i ≠ j ∧ Named l i e := by
  have hnot : ∀ e', l'[i]? = some e' → slotFirst e' ≠ 0xE5 := by
    intro e' he' hE5
    rw [h.1] at he'
    cases he'
    have := h.2.2
    simp [slotLive, hE5] at this
  refine ⟨?_, ?_⟩
  · rintro rfl
    obtain ⟨e', he', hE5⟩ := hm.1
    exact hnot e' he' hE5
  · rcases hm.2 i with heq | ⟨-, ⟨e', he', hE5⟩, -⟩
    · exact ⟨heq ▸ h.1, h.2⟩
    · exact absurd hE5 (hnot e' he')

theorem MarkedAt.keeps {j i : ℕ} (hm : MarkedAt l l' j) (h : Named l i e) (hij : i ≠ j) :
    Named l' i e := by
  rcases hm.2 i with heq | ⟨hle, -, hlfn⟩
  · exact ⟨heq.trans h.1, h.2⟩
  · obtain ⟨e', he', hlfn⟩ := hlfn i le_rfl (by omega)
    rw [h.1] at he'
    cases he'
    have hlive := h.2.2
    simp [slotLive, hlfn, fat32AttrLfn] at hlive

/-- The live entries of `l'` are those of `l`, but for entry `k`, which is `e₀`. -/
def Gained (l l' : List Slot) (k : ℕ) (e₀ : Slot) : Prop :=
  ∀ j e, Named l' j e → (j ≠ k ∧ Named l j e) ∨ (j = k ∧ e = e₀)

theorem gained_set (l : List Slot) (k : ℕ) (e₀ : Slot) : Gained l (l.set k e₀) k e₀ := by
  rintro j e ⟨hj, h⟩
  rw [getElem?_set] at hj
  split at hj
  · rename_i hkj
    split at hj
    · exact .inr ⟨hkj.symm, (some.inj hj).symm⟩
    · contradiction
  · rename_i hkj
    exact .inl ⟨fun heq => hkj heq.symm, hj, h⟩

theorem WrittenAt.gained {q n : ℕ} {entry : ℕ → Slot} (hw : WrittenAt l l' q (n + 1) entry)
    (hdead : ∀ k < n, slotLive (entry k) = false) : Gained l l' (q + n) (entry n) := by
  rintro j e ⟨hj, h⟩
  rw [hw] at hj
  split at hj
  · rename_i hin
    cases hj
    by_cases hk : j = q + n
    · subst hk
      rw [Nat.add_sub_cancel_left]
      exact .inr ⟨rfl, rfl⟩
    · rw [hdead (j - q) (by omega)] at h
      simp at h
  · rename_i hout
    exact .inl ⟨by omega, hj, h⟩

theorem named_append_zero {n j : ℕ} : Named (l ++ replicate n zeroSlot) j e ↔ Named l j e := by
  constructor
  · rintro ⟨hj, h0, hlive⟩
    by_cases hjl : j < l.length
    · rw [getElem?_append_left hjl] at hj
      exact ⟨hj, h0, hlive⟩
    · rw [getElem?_append_right (by omega), getElem?_replicate] at hj
      split at hj
      · cases hj
        exact absurd rfl h0
      · contradiction
  · rintro ⟨hj, h⟩
    refine ⟨?_, h⟩
    rw [getElem?_append_left (List.getElem?_eq_some_iff.mp hj).1, hj]

/-! ### The invariant -/

/-- The entry at hand owns its cluster, apart from the directory's. -/
def Owns (v : Volume) (chain : List ℕ) (e : Slot) : Prop :=
  IsChain v (slotCluster e) [slotCluster e] ∧ slotCluster e ∉ chain

structure DirInv (v : Volume) (dir : ℕ) (chain : List ℕ) : Prop where
  ok : v.bpb.Ok
  isChain : IsChain v dir chain
  nonempty : chain ≠ []
  tidy : Tidy (dirSlots v chain)
  names : Distinct slotName (dirSlots v chain)
  owned : ∀ j e, Named (dirSlots v chain) j e → slotFirst e ≠ charDot → Owns v chain e
  apart : ∀ i j e e', Named (dirSlots v chain) i e → Named (dirSlots v chain) j e' →
    slotFirst e ≠ charDot → slotFirst e' ≠ charDot → slotCluster e = slotCluster e' → i = j

section

variable (h : DirInv v dir chain)
include h

theorem DirInv.inRange : ∀ c ∈ chain, v.bpb.InRange c :=
  h.isChain.inRange

theorem DirInv.nodup : chain.Nodup := h.isChain.nodup h.ok

theorem DirInv.lose (hb : w.bpb = v.bpb)
    (hchain : IsChain w dir chain) (htidy : Tidy (dirSlots w chain))
    (hlost : ∀ j e, Named (dirSlots w chain) j e → j ≠ k ∧ Named (dirSlots v chain) j e)
    (howns : ∀ j e, j ≠ k → Named (dirSlots v chain) j e → slotFirst e ≠ charDot →
      Owns w chain e) : DirInv w dir chain where
  ok := hb ▸ h.ok
  isChain := hchain
  nonempty := h.nonempty
  tidy := htidy
  names := by
    intro i j e e' hi hj heq
    exact h.names i j e e' (hlost i e hi).2 (hlost j e' hj).2 heq
  owned := by
    intro j e hj hdot
    exact howns j e (hlost j e hj).1 (hlost j e hj).2 hdot
  apart := by
    intro i j e e' hi hj hdot hdot' heq
    exact h.apart i j e e' (hlost i e hi).2 (hlost j e' hj).2 hdot hdot' heq

theorem DirInv.gain {e₀ : Slot} (hb : w.bpb = v.bpb)
    (hchain : IsChain w dir chain') (hne : chain' ≠ []) (htidy : Tidy (dirSlots w chain'))
    (hgain : Gained (dirSlots v chain) (dirSlots w chain') k e₀)
    (hname : ∀ j e, j ≠ k → Named (dirSlots v chain) j e → slotName e ≠ slotName e₀)
    (hown₀ : Owns w chain' e₀)
    (howns : ∀ j e, j ≠ k → Named (dirSlots v chain) j e → slotFirst e ≠ charDot →
      Owns w chain' e ∧ slotCluster e ≠ slotCluster e₀) : DirInv w dir chain' where
  ok := hb ▸ h.ok
  isChain := hchain
  nonempty := hne
  tidy := htidy
  names := by
    intro i j e e' hi hj heq
    rcases hgain i e hi with ⟨hik, hi'⟩ | ⟨rfl, rfl⟩ <;>
      rcases hgain j e' hj with ⟨hjk, hj'⟩ | ⟨rfl, rfl⟩
    · exact h.names i j e e' hi' hj' heq
    · exact absurd heq (hname i e hik hi')
    · exact absurd heq.symm (hname j e' hjk hj')
    · rfl
  owned := by
    intro j e hj hdot
    rcases hgain j e hj with ⟨hjk, hj'⟩ | ⟨rfl, rfl⟩
    · exact (howns j e hjk hj' hdot).1
    · exact hown₀
  apart := by
    intro i j e e' hi hj hdot hdot' heq
    rcases hgain i e hi with ⟨hik, hi'⟩ | ⟨rfl, rfl⟩ <;>
      rcases hgain j e' hj with ⟨hjk, hj'⟩ | ⟨rfl, rfl⟩
    · exact h.apart i j e e' hi' hj' hdot hdot' heq
    · exact absurd heq (howns i e hik hi' hdot).2
    · exact absurd heq.symm (howns j e' hjk hj' hdot').2
    · rfl

omit h in
theorem Owns.congr (h : Owns v chain e) (hb : w.bpb = v.bpb)
    (hfat : getFatEntry w (slotCluster e) = getFatEntry v (slotCluster e))
    (hnot : slotCluster e ∉ chain') : Owns w chain' e := by
  refine ⟨h.1.congr hb fun d hd => ?_, hnot⟩
  rw [mem_singleton] at hd
  rw [hd, hfat]

theorem DirInv.frame {c : ℕ} (hb : w.bpb = v.bpb)
    (hdisk : ∀ d ∈ chain, ∀ x, InCluster v.bpb d x → w.disk x = v.disk x)
    (hfat : ∀ d < v.bpb.maxCluster, d ≠ c → getFatEntry w d = getFatEntry v d) (hc : c ∉ chain)
    (hfree : ∀ j e, Named (dirSlots v chain) j e → slotFirst e ≠ charDot → slotCluster e ≠ c) :
    dirSlots w chain = dirSlots v chain ∧ DirInv w dir chain := by
  have hslots := dirSlots_congr hb hdisk
  refine ⟨hslots, hb ▸ h.ok, ?_, h.nonempty, hslots ▸ h.tidy, hslots ▸ h.names, ?_, ?_⟩
  · refine h.isChain.congr hb fun d hd => hfat d (h.inRange d hd).2 ?_
    rintro rfl
    exact hc hd
  · rw [hslots]
    intro j e hj hdot
    have hown := h.owned j e hj hdot
    exact hown.congr hb (hfat _ (hown.1.inRange _ mem_cons_self).2 (hfree j e hj hdot)) hown.2
  · rw [hslots]
    exact h.apart

/-! ### Removing an entry -/

theorem DirInv.remove (hp : (dirEntries v.bpb chain)[k]? = some p)
    (hnamed : Named (dirSlots v chain) k (bytes v.disk (entryPos v.bpb p) 32))
    (hdot : v.disk (entryPos v.bpb p) ≠ charDot) (hm : Marks v.bpb v.disk m' p) (hb : w.bpb = v.bpb)
    (hfat : ∀ d < v.bpb.maxCluster, d ≠ deFirstCluster v.disk (entryPos v.bpb p) →
      getFatEntry w d = getFatEntry v d)
    (hdisk : ∀ c ∈ chain, ∀ x, InCluster v.bpb c x → w.disk x = m' x) : DirInv w dir chain := by
  have hmarked := dirSlots_marks h.ok h.inRange h.nodup hp hm hb hdisk
  have hown := h.owned k _ hnamed (by simpa using hdot)
  rw [Owns, slotCluster_bytes] at hown
  refine h.lose hb ?_ (hmarked.tidy h.tidy hnamed) (fun j e hj => hmarked.named hj) ?_
  · refine h.isChain.congr hb fun d hd => hfat d (h.inRange d hd).2 ?_
    rintro rfl
    exact hown.2 hd
  · intro j e hj hje hdot'
    have hown' := h.owned j e hje hdot'
    refine hown'.congr hb (hfat _ (hown'.1.inRange _ mem_cons_self).2 fun heq => ?_) hown'.2
    exact hj (h.apart j k e _ hje hnamed hdot' (by simpa using hdot) (by simpa using heq))

theorem DirInv.freeEntryChain
    (hnamed : Named (dirSlots v chain) k (bytes v.disk (entryPos v.bpb p) 32))
    (hdot : v.disk (entryPos v.bpb p) ≠ charDot) :
    ∃ w, freeEntryChain v (entryPos v.bpb p) = some w ∧ w.bpb = v.bpb ∧
      (∀ d < v.bpb.maxCluster, d ≠ deFirstCluster v.disk (entryPos v.bpb p) →
        getFatEntry w d = getFatEntry v d) ∧
      ∀ x, v.bpb.firstDataSector * 512 ≤ x → w.disk x = v.disk x := by
  have hown := h.owned k _ hnamed (by simpa using hdot)
  rw [Owns, slotCluster_bytes] at hown
  have h2 := (hown.1.inRange _ mem_cons_self).1
  obtain ⟨w, hfree, hb, hfat, hdisk⟩ := freeChain_spec h.ok hown.1 (hown.1.length_lt h.ok)
  refine ⟨w, ?_, hb, fun d hd hne => hfat d hd (by simpa using hne), hdisk⟩
  rw [Fat32.freeEntryChain, if_pos h2, hfree]

omit h in
theorem writeCluster_marks (hok : v.bpb.Ok) (hr : ∀ c ∈ chain, v.bpb.InRange c)
    (hp : (dirEntries v.bpb chain)[k]? = some p) (hm : Marks v.bpb v.disk m' p)
    (hb : w.bpb = v.bpb) (hdisk : ∀ x, v.bpb.firstDataSector * 512 ≤ x → w.disk x = v.disk x) :
    ∀ c ∈ chain, ∀ x, InCluster v.bpb c x → (writeCluster w p.1 m').disk x = m' x := by
  intro c hc x hx
  unfold writeCluster
  rw [Volume.setDisk_disk, hb]
  split
  · rfl
  · rename_i hout
    have hlow := dataStart_le_clusterAddr hok (hr c hc)
    rw [hdisk x (hlow.trans hx.1)]
    by_contra hne
    obtain ⟨-, i, hi, rfl, -⟩ := hm.other x fun heq => hne heq.symm
    have hpi := (mem_dirEntries.mp (mem_of_getElem? hp)).2
    exact hout (entryPos_inCluster (show (p.1, i).2 < _ by dsimp only; omega) le_rfl (by omega))

omit h in
theorem writeCluster_fat (hok : v.bpb.Ok) (hb : w.bpb = v.bpb) {c d : ℕ}
    (hc : v.bpb.InRange c) (hd : d < v.bpb.maxCluster) :
    getFatEntry (writeCluster w c m') d = getFatEntry w d := by
  have hwb : (writeCluster w c m').bpb = w.bpb := rfl
  refine getFatEntry_congr (by rw [hb]; exact hok) hwb (by rw [hb]; exact hd) ?_
  intro x _ hx
  have hlow := dataStart_le_clusterAddr hok hc
  rw [hb] at hx
  unfold writeCluster
  rw [Volume.setDisk_disk, hb, if_neg (by omega)]

theorem DirInv.removeEntry (hp : (dirEntries v.bpb chain)[k]? = some p)
    (hnamed : Named (dirSlots v chain) k (bytes v.disk (entryPos v.bpb p) 32))
    (hdot : v.disk (entryPos v.bpb p) ≠ charDot) (hm : Marks v.bpb v.disk m' p) :
    ∃ w, Fat32.freeEntryChain v (entryPos v.bpb p) = some w ∧
      DirInv (writeCluster w p.1 m') dir chain := by
  obtain ⟨w, hfree, hb, hfat, hdisk⟩ := h.freeEntryChain hnamed hdot
  have hpc := h.inRange p.1 (mem_dirEntries.mp (mem_of_getElem? hp)).1
  refine ⟨w, hfree, h.remove hp hnamed hdot hm hb ?_
    (writeCluster_marks h.ok h.inRange hp hm hb hdisk)⟩
  intro d hd hne
  rw [writeCluster_fat h.ok hb hpc hd, hfat d hd hne]

end

/-- A deletion matches the entry `.` or `..` of the directory. -/
def MatchesDot (v : Volume) (dir : ℕ) (name : List UInt8) : Prop :=
  ∃ hit, scanChain (nameTurn v name) v v.bpb.lastValidCluster (v.bpb.lastValidCluster + 1) dir
    LfnScan.start = .left (some hit) ∧ v.disk (entryPos v.bpb hit.entry) = charDot

theorem deleteFileVol_inv (h : DirInv v dir chain) (name : List UInt8)
    (hdot : ¬ MatchesDot v dir name) :
    ∃ r, deleteFileVol v dir name = some r ∧ DirInv r.1 dir chain := by
  unfold deleteFileVol
  split
  · rename_i hit hscan
    split
    · exact ⟨_, rfl, h⟩
    rcases scanChain_spec h.ok h.isChain with hover | hleft
    · rw [hscan] at hover
      contradiction
    split at hleft
    · rename_i r hfold
      rw [hscan] at hleft
      cases hleft
      obtain ⟨k, hp, hnamed, -⟩ := (nameTurn_searches v name).found hfold (p := hit.entry) rfl
      have hdot' : v.disk (entryPos v.bpb hit.entry) ≠ charDot := fun heq => hdot ⟨hit, hscan, heq⟩
      obtain ⟨w, hfree, hinv⟩ := h.removeEntry hp hnamed hdot'
        (deleteInBuf_marks v.bpb v.disk hit.entry)
      rw [hfree]
      exact ⟨_, rfl, hinv⟩
    · obtain ⟨link, -, hended⟩ := hleft
      rw [hscan] at hended
      contradiction
  · exact ⟨_, rfl, h⟩

/-! ### Names that are ASCII -/

def AsciiName (name : List UInt8) : Prop := ∀ c ∈ name, 0 < c ∧ c < 128

instance (name : List UInt8) : Decidable (AsciiName name) :=
  List.decidableBAll (fun c => 0 < c ∧ c < 128) name

/-- A first byte of a short name that neither ends nor deletes the entry, nor makes it `.` or
`..`. -/
def GoodFirst (c : UInt8) : Prop := c ≠ 0 ∧ c ≠ 0xE5 ∧ c ≠ charDot

instance (c : UInt8) : Decidable (GoodFirst c) := inferInstanceAs (Decidable (_ ∧ _ ∧ _))

theorem goodFirst_toUpper {c : UInt8} (h : 0 < c ∧ c < 128) (hdot : c ≠ charDot) :
    GoodFirst (toUpper c) := by
  unfold GoodFirst toUpper
  unfold charDot at *
  grind

theorem length_padTo {n : ℕ} {l : List UInt8} (h : l.length ≤ n) : (padTo n l).length = n := by
  rw [padTo, length_append, length_replicate]
  omega

theorem length_makeShortName (name : List UInt8) : (makeShortName name).length = 11 := by
  unfold makeShortName
  have hbase : (padTo 8 (map toUpper (List.take 8 (filter
      (fun c => decide (c ≠ charSpace ∧ c ≠ charDot)) (nameStem name))))).length = 8 :=
    length_padTo (by rw [length_map, length_take]; omega)
  have hext : (padTo 3 (map toUpper (List.take 3 (nameExt name)))).length = 3 :=
    length_padTo (by rw [length_map, length_take]; omega)
  dsimp only
  rw [length_append, hext]
  split
  · rw [length_set, length_set, hbase]
  · rw [hbase]

theorem mem_of_mem_nameStem {c : UInt8} (h : c ∈ nameStem name) : c ∈ name := by
  unfold nameStem at h
  split at h
  · exact mem_of_mem_take h
  · exact h

theorem makeShortName_first (P : UInt8 → Prop) (hspace : P charSpace)
    (h : ∀ c ∈ name, c ≠ charDot → P (toUpper c)) : P ((makeShortName name).getD 0 0) := by
  set kept := List.take 8 (filter (fun c => decide (c ≠ charSpace ∧ c ≠ charDot))
    (nameStem name)) with hkept
  have hbase : P ((padTo 8 (kept.map toUpper)).getD 0 0) := by
    cases hk : kept with
    | nil => exact hspace
    | cons c rest =>
      have hmem : c ∈ kept := by simp [hk]
      rw [hkept] at hmem
      have hfilter := mem_of_mem_take hmem
      rw [mem_filter, decide_eq_true_eq] at hfilter
      exact h c (mem_of_mem_nameStem hfilter.1) hfilter.2.2
  have hlen : (padTo 8 (kept.map toUpper)).length = 8 :=
    length_padTo (by rw [length_map, hkept, length_take]; omega)
  have hfront : ∀ (l ext : List UInt8), l.length = 8 → (l ++ ext).getD 0 0 = l.getD 0 0 := by
    intro l ext hl
    rw [getD_append _ _ _ _ (by omega)]
  unfold makeShortName
  dsimp only
  rw [← hkept]
  split
  · rw [hfront _ _ (by rw [length_set, length_set, hlen])]
    simpa [getD_eq_getElem?_getD] using hbase
  · rw [hfront _ _ hlen]
    exact hbase

theorem goodFirst_makeShortName (h : AsciiName name) : GoodFirst ((makeShortName name).getD 0 0) :=
  makeShortName_first GoodFirst (by decide) fun c hc hdot => goodFirst_toUpper (h c hc) hdot

theorem length_withTail (sfn : List UInt8) (tail : ℕ) :
    (withTail sfn tail).length = sfn.length := by
  unfold withTail
  split <;> simp

theorem getD_withTail (sfn : List UInt8) (tail : ℕ) :
    (withTail sfn tail).getD 0 0 = sfn.getD 0 0 := by
  unfold withTail
  split <;> simp [getD_eq_getElem?_getD]

/-! ### Searches by short name -/

def Absent (l : List Slot) (sfn : List UInt8) : Prop := ∀ j e, Named l j e → slotName e ≠ sfn

section SfnScan

variable {sfn : List UInt8} {limit fuel : ℕ}

theorem sfnScan_found (hok : v.bpb.Ok) (hchain : IsChain v dir chain) {p : ℕ × ℕ}
    (hscan : scanChain (sfnTurn v sfn) v limit fuel dir () = .left (some p)) :
    ∃ k, (dirEntries v.bpb chain)[k]? = some p ∧
      Named (dirSlots v chain) k (bytes v.disk (entryPos v.bpb p) 32) ∧
      bytes v.disk (entryPos v.bpb p) 11 = sfn := by
  rcases scanChain_spec hok hchain with hover | hleft
  · rw [hscan] at hover
    contradiction
  split at hleft
  · rename_i r hfold
    rw [hscan] at hleft
    cases hleft
    exact (sfnTurn_searches v sfn).found hfold rfl
  · obtain ⟨link, -, hended⟩ := hleft
    rw [hscan] at hended
    contradiction

theorem sfnScan_absent (hok : v.bpb.Ok) (hchain : IsChain v dir chain)
    (htidy : Tidy (dirSlots v chain))
    (hscan : scanChain (sfnTurn v sfn) v limit fuel dir () = .left none ∨
      ∃ link, scanChain (sfnTurn v sfn) v limit fuel dir () = .ended link) :
    Absent (dirSlots v chain) sfn := by
  rcases scanChain_spec hok hchain with hover | hleft
  · rw [hover] at hscan
    rcases hscan with hscan | ⟨link, hscan⟩ <;> contradiction
  refine (sfnTurn_searches v sfn).absent (s := ()) htidy fun r hfold => ?_
  rw [hfold] at hleft
  dsimp only at hleft
  rw [hleft] at hscan
  rcases hscan with hscan | ⟨link, hscan⟩
  · cases hscan
    rfl
  · contradiction

theorem sfnExists_iff (hok : v.bpb.Ok) (hchain : IsChain v dir chain)
    (htidy : Tidy (dirSlots v chain)) (sfn : List UInt8) :
    sfnExistsInDir v dir sfn = false ↔ Absent (dirSlots v chain) sfn := by
  have hnot : scanChain (sfnTurn v sfn) v fat32Eoc chainFuel dir () ≠ .over := by
    refine scanChain_ne_over hok hchain ?_ (hchain.length_lt hok)
    have := hok.clusters
    unfold fat32Bad at this
    unfold fat32Eoc
    omega
  unfold sfnExistsInDir
  constructor
  · intro hexists
    refine sfnScan_absent hok hchain htidy
      (show scanChain _ v fat32Eoc chainFuel dir () = _ ∨ _ from ?_)
    rcases hscan : scanChain (sfnTurn v sfn) v fat32Eoc chainFuel dir () with (_ | p) | link | _
    · exact .inl rfl
    · rw [hscan] at hexists
      contradiction
    · exact .inr ⟨link, rfl⟩
    · exact absurd hscan hnot
  · intro habsent
    split
    · rename_i p hscan
      obtain ⟨k, -, hnamed, hname⟩ := sfnScan_found hok hchain hscan
      exact absurd (by simpa using hname) (habsent k _ hnamed)
    · rfl

end SfnScan

theorem not_dot_of_name {m : ByteMem} {a : ℕ} (hname : AsciiName name)
    (h : bytes m a 11 = makeShortName name) : m a ≠ charDot := by
  have hgood := goodFirst_makeShortName hname
  rw [← h, getD_bytes (by omega), Nat.add_zero] at hgood
  exact hgood.2.2

theorem rmdir_inv (h : DirInv v dir chain) (hname : AsciiName name) :
    ∃ r, rmdir v dir name = some r ∧ DirInv r.1 dir chain := by
  have hlimit : v.bpb.maxCluster ≤ fat32Eoc + 1 := by
    have := h.ok.clusters
    unfold fat32Bad at this
    unfold fat32Eoc
    omega
  unfold rmdir
  split
  · rename_i hover
    exact absurd hover (scanChain_ne_over h.ok h.isChain hlimit (h.isChain.length_lt h.ok))
  · rename_i p hscan
    obtain ⟨k, hp, hnamed, hsfn⟩ := sfnScan_found h.ok h.isChain hscan
    have hdot := not_dot_of_name hname hsfn
    have hown := h.owned k _ hnamed (by simpa using hdot)
    rw [Owns, slotCluster_bytes] at hown
    dsimp only
    split
    · exact ⟨_, rfl, h⟩
    split
    · rename_i hover
      exact absurd hover (scanChain_ne_over h.ok hown.1 hlimit (hown.1.length_lt h.ok))
    · exact ⟨_, rfl, h⟩
    · obtain ⟨w, hfree, hinv⟩ := h.removeEntry hp hnamed hdot
        (marks_markDeleted v.bpb v.disk p)
      rw [hfree]
      exact ⟨_, rfl, hinv⟩
  · exact ⟨_, rfl, h⟩

/-! ### Renaming -/

theorem findDirent_found (hok : v.bpb.Ok) (hchain : IsChain v dir chain) {sfn : List UInt8}
    (hfind : findDirentBySfn v dir sfn = .ok (some p)) :
    ∃ k, (dirEntries v.bpb chain)[k]? = some p ∧
      Named (dirSlots v chain) k (bytes v.disk (entryPos v.bpb p) 32) ∧
      bytes v.disk (entryPos v.bpb p) 11 = sfn := by
  unfold findDirentBySfn at hfind
  split at hfind
  · rename_i r hscan
    cases hfind
    exact sfnScan_found hok hchain hscan
  · cases hfind
  · cases hfind

theorem findDirent_absent (hok : v.bpb.Ok) (hchain : IsChain v dir chain)
    (htidy : Tidy (dirSlots v chain)) {sfn : List UInt8}
    (hfind : findDirentBySfn v dir sfn = .ok none) : Absent (dirSlots v chain) sfn := by
  unfold findDirentBySfn at hfind
  split at hfind
  · rename_i r hscan
    cases hfind
    exact sfnScan_absent hok hchain htidy (.inl hscan)
  · rename_i link hscan
    exact sfnScan_absent hok hchain htidy (.inr ⟨link, hscan⟩)
  · cases hfind

theorem slotCluster_rename {m : ByteMem} {a : ℕ} {sfn : List UInt8} (hlen : sfn.length = 11) :
    slotCluster (sfn ++ (bytes m a 32).drop sfn.length) = deFirstCluster m a := by
  have hget : ∀ i, 11 ≤ i → i < 32 →
      (sfn ++ (bytes m a 32).drop sfn.length).getD i 0 = m (a + i) := by
    intro i hi hi'
    rw [getD_append_right _ _ _ _ (by omega), getD_eq_getElem?_getD, getElem?_drop,
      Nat.add_sub_cancel' (by omega), getElem?_bytes hi', getD_some]
  rw [← slotCluster_bytes]
  simp only [slotCluster, getD_bytes (show 20 < 32 by omega), getD_bytes (show 21 < 32 by omega),
    getD_bytes (show 26 < 32 by omega), getD_bytes (show 27 < 32 by omega),
    hget 20 (by omega) (by omega), hget 21 (by omega) (by omega), hget 26 (by omega) (by omega),
    hget 27 (by omega) (by omega)]

theorem DirInv.rewriteName (h : DirInv v dir chain) {sfn : List UInt8}
    (hlen : sfn.length = 11) (hgood : GoodFirst (sfn.getD 0 0))
    (hp : (dirEntries v.bpb chain)[k]? = some p)
    (hnamed : Named (dirSlots v chain) k (bytes v.disk (entryPos v.bpb p) 32))
    (hdot : v.disk (entryPos v.bpb p) ≠ charDot) (habsent : Absent (dirSlots v chain) sfn) :
    DirInv (v.setDisk (storeBytes v.disk (entryPos v.bpb p) sfn)) dir chain := by
  obtain ⟨hpc, hpi⟩ := mem_dirEntries.mp (mem_of_getElem? hp)
  have hslots := dirSlots_storeBytes (l := sfn) h.ok h.inRange h.nodup hp (by omega)
  set w := v.setDisk (storeBytes v.disk (entryPos v.bpb p) sfn)
  set e₀ := sfn ++ (bytes v.disk (entryPos v.bpb p) 32).drop sfn.length with he₀
  have hcl : slotCluster e₀ = deFirstCluster v.disk (entryPos v.bpb p) := slotCluster_rename hlen
  have hname₀ : slotName e₀ = sfn := by
    rw [slotName, he₀, take_append_of_le_length (by omega), take_of_length_le (by omega)]
  have hfirst₀ : slotFirst e₀ = sfn.getD 0 0 := by
    rw [slotFirst, he₀, getD_append _ _ _ _ (by omega)]
  have hfat : ∀ d < v.bpb.maxCluster, getFatEntry w d = getFatEntry v d := by
    intro d hd
    refine getFatEntry_congr h.ok (show w.bpb = v.bpb from rfl) hd ?_
    intro x _ hx
    have hlow := dataStart_le_clusterAddr h.ok (h.inRange p.1 hpc)
    refine sameOutside_storeBytes le_rfl le_rfl x (.inl ?_)
    unfold entryPos
    omega
  have hown := h.owned k _ hnamed (by simpa using hdot)
  have howns : ∀ e, Owns v chain e → Owns w chain e := by
    intro e he
    exact he.congr rfl (hfat _ (he.1.inRange _ mem_cons_self).2) he.2
  have hgain : Gained (dirSlots v chain) (dirSlots w chain) k e₀ := by
    rw [hslots]
    exact gained_set _ _ _
  refine h.gain rfl (h.isChain.congr rfl fun d hd => hfat d (h.inRange d hd).2) h.nonempty ?_
    hgain ?_ ?_ ?_
  · rw [hslots]
    exact h.tidy.set hnamed (by rw [hfirst₀]; exact hgood.1)
  · intro j e _ hj
    rw [hname₀]
    exact habsent j e hj
  · have := howns _ hown
    rw [Owns, slotCluster_bytes, ← hcl] at this
    exact this
  · intro j e hjk hj hdot'
    refine ⟨howns e (h.owned j e hj hdot'), fun heq => hjk ?_⟩
    rw [hcl, ← slotCluster_bytes] at heq
    exact h.apart j k e _ hj hnamed hdot' (by simpa using hdot) heq

theorem replaceExisting_inv (h : DirInv v dir chain) (hname : AsciiName name) {src : ℕ × ℕ}
    (hsrc : (dirEntries v.bpb chain)[k]? = some src)
    (hnamed : Named (dirSlots v chain) k (bytes v.disk (entryPos v.bpb src) 32))
    (hne : bytes v.disk (entryPos v.bpb src) 11 ≠ makeShortName name) :
    ∃ r, replaceExisting v dir (makeShortName name) src = some r ∧
      ∀ w, r = .ok w → w.bpb = v.bpb ∧ DirInv w dir chain ∧
        Absent (dirSlots w chain) (makeShortName name) ∧
        Named (dirSlots w chain) k (bytes v.disk (entryPos v.bpb src) 32) := by
  unfold replaceExisting
  split
  · exact ⟨_, rfl, by simp⟩
  · rename_i hfind
    refine ⟨_, rfl, ?_⟩
    rintro w hw
    cases hw
    exact ⟨rfl, h, findDirent_absent h.ok h.isChain h.tidy hfind, hnamed⟩
  · rename_i dst hfind
    split
    · exact ⟨_, rfl, by simp⟩
    split
    · exact ⟨_, rfl, by simp⟩
    split
    · exact ⟨_, rfl, by simp⟩
    obtain ⟨k', hdst, hnamed', hsfn⟩ := findDirent_found h.ok h.isChain hfind
    have hdot := not_dot_of_name hname hsfn
    have hown := h.owned k' _ hnamed' (by simpa using hdot)
    rw [Owns, slotCluster_bytes] at hown
    set m' := removeDirentInBuf v.bpb v.disk dst with hm'
    have hmarks : Marks v.bpb v.disk m' dst := removeDirentInBuf_marks v.bpb v.disk dst
    have hdc := h.inRange dst.1 (mem_dirEntries.mp (mem_of_getElem? hdst)).1
    set w₀ := writeCluster v dst.1 m' with hw₀
    set first := deFirstCluster v.disk (entryPos v.bpb dst) with hfirst
    have hfat₀ : ∀ d < v.bpb.maxCluster, getFatEntry w₀ d = getFatEntry v d :=
      fun d hd => writeCluster_fat h.ok rfl hdc hd
    have hchain₀ : IsChain w₀ first [first] := by
      refine hown.1.congr rfl fun d hd => hfat₀ d (hown.1.inRange d hd).2
    obtain ⟨w, hfree, hb, hfat, hdisk⟩ := freeChain_spec (v := w₀) h.ok hchain₀
      (hchain₀.length_lt (show w₀.bpb.Ok from h.ok))
    have h2 : 2 ≤ first := (hown.1.inRange first mem_cons_self).1
    dsimp only
    rw [if_pos h2, hfree]
    refine ⟨_, rfl, ?_⟩
    rintro w' hw'
    cases hw'
    have hdisk' : ∀ c ∈ chain, ∀ x, InCluster v.bpb c x → w.disk x = m' x := by
      intro c hc x hx
      have hlow := dataStart_le_clusterAddr h.ok (h.inRange c hc)
      rw [hdisk x (hlow.trans hx.1)]
      exact writeCluster_marks h.ok h.inRange hdst hmarks rfl (fun _ _ => rfl) c hc x hx
    have hmarked := dirSlots_marks h.ok h.inRange h.nodup hdst hmarks hb hdisk'
    refine ⟨hb, h.remove hdst hnamed' hdot hmarks hb ?_ hdisk', ?_, ?_⟩
    · intro d hd hne'
      rw [hfat d hd (by simpa using hne'), hfat₀ d hd]
    · intro j e hj heq
      obtain ⟨hjk, hj'⟩ := hmarked.named hj
      exact hjk (h.names j k' e _ hj' hnamed' (by rw [heq, slotName_bytes, hsfn]))
    · refine hmarked.keeps hnamed ?_
      rintro rfl
      rw [hsrc] at hdst
      cases hdst
      exact hne hsfn

theorem renameVol_inv (h : DirInv v dir chain) {oldName newName : List UInt8} {replace : Bool}
    (hold : AsciiName oldName) (hnew : AsciiName newName)
    (hsafe : replace = true ∨ makeShortName oldName = makeShortName newName ∨
      sfnExistsInDir v dir (makeShortName newName) = false ∨
      sfnExistsInDir v dir (makeShortName oldName) = false) :
    ∃ r, renameVol v dir oldName newName replace = some r ∧ DirInv r.1 dir chain := by
  unfold renameVol
  dsimp only
  split
  · rename_i src hfind
    obtain ⟨k, hsrc, hnamed, hsfn⟩ := findDirent_found h.ok h.isChain hfind
    have hdot := not_dot_of_name hold hsfn
    split
    · exact ⟨_, rfl, h⟩
    rename_i hdiff
    have hlen := length_makeShortName newName
    have hgood := goodFirst_makeShortName hnew
    cases replace with
    | false =>
      rw [if_neg (by simp)]
      refine ⟨_, rfl, ?_⟩
      have habsent : Absent (dirSlots v chain) (makeShortName newName) := by
        rcases hsafe with hfalse | hsame | hfree | hgone
        · simp at hfalse
        · exact absurd hsame hdiff
        · exact (sfnExists_iff h.ok h.isChain h.tidy _).mp hfree
        · exact absurd (by simpa using hsfn)
            ((sfnExists_iff h.ok h.isChain h.tidy _).mp hgone k _ hnamed)
      exact h.rewriteName hlen hgood hsrc hnamed hdot habsent
    | true =>
      rw [if_pos rfl]
      obtain ⟨r, hr, hok⟩ := replaceExisting_inv h hnew hsrc hnamed (by rw [hsfn]; exact hdiff)
      rw [hr]
      refine ⟨_, rfl, ?_⟩
      cases r with
      | error rc => exact h
      | ok w =>
        obtain ⟨hb, hinv, habsent, hnamed'⟩ := hok w rfl
        -- the entry to rename is where it was
        have hsame : bytes w.disk (entryPos w.bpb src) 32 =
            bytes v.disk (entryPos v.bpb src) 32 := by
          have := hnamed'.1
          rw [getElem?_dirSlots, hb, hsrc, map_some, some.injEq] at this
          rw [hb]
          exact this
        rw [← hsame] at hnamed'
        have hfirst : w.disk (entryPos w.bpb src) = v.disk (entryPos v.bpb src) := by
          have := congrArg slotFirst hsame
          simpa using this
        refine hinv.rewriteName hlen hgood (by rw [hb]; exact hsrc) hnamed' ?_ habsent
        rw [hfirst]
        exact hdot
  · exact ⟨_, rfl, h⟩

end ImpossibleOs.Fat32
