import Mathlib.Data.List.Find
import ImpossibleOs.Ixfs.Dir

/-!
A directory as a table of slots.

What a directory binds is a function of the inode numbers and names in its
slots. With no name in two slots, both searches find the slot of a name, and a
change of one slot changes the binding of the names that were or are in it.
-/

namespace ImpossibleOs.Ixfs

open ByteMem Function List Option

/-- An inode number, 0 in a free slot, and a name. -/
abbrev Slot := ℕ × List UInt8

/-- The slot is in use under a name that folds to `key`. -/
def Slot.binds (s : Slot) (key : List UInt8) : Prop := s.1 ≠ 0 ∧ foldName s.2 = key

instance (s : Slot) (key : List UInt8) : Decidable (s.binds key) := by
  unfold Slot.binds
  infer_instance

theorem Slot.binds_iff {s : Slot} {key key' : List UInt8} (h : s.binds key) :
    s.binds key' ↔ key' = key :=
  ⟨fun hb => hb.2.symm.trans h.2, fun heq => heq ▸ h⟩

/-- No name is bound twice among the first `n` slots. -/
def Unique (n : ℕ) (D : ℕ → Slot) : Prop :=
  ∀ j k key, j < n → k < n → (D j).binds key → (D k).binds key → j = k

/-- The inode that a name is bound to. -/
def names (n : ℕ) (D : ℕ → Slot) (key : List UInt8) : Option ℕ :=
  ((List.range n).find? fun k => (D k).binds key).map fun k => (D k).1

section Slots

variable {n k : ℕ} {D D' : ℕ → Slot} {key : List UInt8}

theorem find?_binds (hu : Unique n D) (hk : k < n) (hb : (D k).binds key) :
    ((List.range n).find? fun k => (D k).binds key) = some k := by
  cases hfind : (List.range n).find? fun k => decide ((D k).binds key) with
  | none =>
    have := List.find?_eq_none.mp hfind k (mem_range.mpr hk)
    simp [hb] at this
  | some j =>
    have hj := mem_range.mp (mem_of_find?_eq_some hfind)
    have hbj := find?_some hfind
    rw [hu j k key hj hk (by simpa using hbj) hb]

theorem names_eq_some (hu : Unique n D) (hk : k < n) (hb : (D k).binds key) :
    names n D key = some (D k).1 := by
  rw [names, find?_binds hu hk hb, map_some]

theorem names_eq_none : names n D key = none ↔ ∀ k < n, ¬ (D k).binds key := by
  simp [names, find?_eq_none]

theorem exists_of_names {ino : ℕ} (h : names n D key = some ino) :
    ∃ k < n, (D k).binds key ∧ (D k).1 = ino := by
  obtain ⟨k, hfind, rfl⟩ := Option.map_eq_some_iff.mp h
  have hb := find?_some hfind
  exact ⟨k, mem_range.mp (mem_of_find?_eq_some hfind), by simpa using hb, rfl⟩

theorem Unique.congr (hu : Unique n D) (h : ∀ k < n, D' k = D k) : Unique n D' := by
  intro j k key hj hk hbj hbk
  rw [h j hj] at hbj
  rw [h k hk] at hbk
  exact hu j k key hj hk hbj hbk

theorem names_congr (h : ∀ k < n, D' k = D k) : names n D' = names n D := by
  funext key
  have hfind : ((List.range n).find? fun k => (D' k).binds key) =
      (List.range n).find? fun k => (D k).binds key := by
    apply find?_congr
    intro k hk
    rw [h k (mem_range.mp hk)]
  rw [names, names, hfind]
  apply Option.map_congr
  intro k hk
  rw [h k (mem_range.mp (mem_of_find?_eq_some hk))]

/-- The new contents of slot `k`, one of the first `n` or the next one. -/
structure Change (n k n' : ℕ) (D D' : ℕ → Slot) : Prop where
  size : n' = n ∧ k < n ∨ n' = n + 1 ∧ k = n
  others : ∀ j < n, j ≠ k → D' j = D j

variable {n' : ℕ}

theorem Change.lt (h : Change n k n' D D') : k < n' := by
  have := h.size
  omega

theorem Change.congr {D'' : ℕ → Slot} (h : Change n k n' D D')
    (heq : ∀ j < n', D'' j = D' j) : Change n k n' D D'' := by
  have hsize := h.size
  refine ⟨hsize, fun j hj hjk => ?_⟩
  rw [heq j (by omega), h.others j hj hjk]

theorem Change.unique (h : Change n k n' D D') (hu : Unique n D)
    (hfree : ∀ j < n, j ≠ k → ∀ key, (D' k).binds key → ¬ (D j).binds key) : Unique n' D' := by
  have hsize := h.size
  intro i j key hi hj hbi hbj
  rcases eq_or_ne i k with rfl | hik
  · rcases eq_or_ne j i with rfl | hji
    · rfl
    · rw [h.others j (by omega) hji] at hbj
      exact absurd hbj (hfree j (by omega) hji key hbi)
  · rw [h.others i (by omega) hik] at hbi
    rcases eq_or_ne j k with rfl | hjk
    · exact absurd hbi (hfree i (by omega) hik key hbj)
    · rw [h.others j (by omega) hjk] at hbj
      exact hu i j key (by omega) (by omega) hbi hbj

theorem Change.names_eq (h : Change n k n' D D') (hu : Unique n D) (hu' : Unique n' D')
    (key : List UInt8) :
    names n' D' key = if (D' k).binds key then some (D' k).1
      else if k < n ∧ (D k).binds key then none else names n D key := by
  have hsize := h.size
  split
  · rename_i hb
    exact names_eq_some hu' h.lt hb
  · rename_i hb
    split
    · rename_i hold
      rw [names_eq_none]
      intro j hj hbj
      rcases eq_or_ne j k with rfl | hjk
      · exact hb hbj
      · rw [h.others j (by omega) hjk] at hbj
        exact hjk (hu j k key (by omega) hold.1 hbj hold.2)
    · rename_i hold
      cases hn : names n D key with
      | none =>
        rw [names_eq_none] at hn ⊢
        intro j hj hbj
        rcases eq_or_ne j k with rfl | hjk
        · exact hb hbj
        · rw [h.others j (by omega) hjk] at hbj
          exact hn j (by omega) hbj
      | some ino =>
        obtain ⟨j, hj, hbj, rfl⟩ := exists_of_names hn
        have hjk : j ≠ k := by
          rintro rfl
          exact hold ⟨hj, hbj⟩
        rw [← h.others j hj hjk] at hbj ⊢
        exact names_eq_some hu' (by omega) hbj

theorem Change.add {n' ino : ℕ} {name : List UInt8} (h : Change n k n' D D') (hu : Unique n D)
    (hslot : D' k = (ino, name)) (hino : ino ≠ 0) (hfree : k < n → (D k).1 = 0)
    (hnew : names n D (foldName name) = none) :
    Unique n' D' ∧ names n' D' = update (names n D) (foldName name) (some ino) := by
  rw [names_eq_none] at hnew
  have hbinds : ∀ key, (D' k).binds key ↔ key = foldName name := by
    intro key
    apply Slot.binds_iff
    rw [hslot]
    exact ⟨hino, rfl⟩
  have hu' : Unique n' D' := by
    apply h.unique hu
    intro j hj _ key hb
    rw [(hbinds key).mp hb]
    exact hnew j hj
  refine ⟨hu', ?_⟩
  funext key
  rw [h.names_eq hu hu' key]
  simp only [hbinds, update_apply]
  split
  · rw [hslot]
  · rw [if_neg]
    rintro ⟨hk, hb⟩
    exact hb.1 (hfree hk)

theorem Change.remove {key : List UInt8} (h : Change n k n D D') (hu : Unique n D)
    (hslot : (D' k).1 = 0) (hold : (D k).binds key) :
    Unique n D' ∧ names n D' = update (names n D) key none := by
  have hk : k < n := by
    have := h.size
    omega
  have hno : ∀ key, ¬ (D' k).binds key := fun key hb => hb.1 hslot
  have hu' : Unique n D' := h.unique hu fun j hj hjk key hb => absurd hb (hno key)
  refine ⟨hu', ?_⟩
  funext key'
  rw [h.names_eq hu hu' key', if_neg (hno key'), update_apply]
  simp only [hk, true_and, Slot.binds_iff hold]

theorem Change.move {old new : List UInt8} (h : Change n k n D D') (hu : Unique n D)
    (hslot : D' k = ((D k).1, new)) (hold : (D k).binds old)
    (hnew : foldName new = old ∨ names n D (foldName new) = none) : Unique n D' ∧ names n D' =
      update (update (names n D) old none) (foldName new) (some (D k).1) := by
  have hk : k < n := by
    have := h.size
    omega
  have hbinds : ∀ key, (D' k).binds key ↔ key = foldName new := by
    intro key
    apply Slot.binds_iff
    rw [hslot]
    exact ⟨hold.1, rfl⟩
  have hu' : Unique n D' := by
    apply h.unique hu
    intro j hj hjk key hb hbj
    rw [(hbinds key).mp hb] at hbj
    rcases hnew with heq | hnone
    · rw [heq] at hbj
      exact hjk (hu j k old hj hk hbj hold)
    · exact names_eq_none.mp hnone j hj hbj
  refine ⟨hu', ?_⟩
  funext key
  rw [h.names_eq hu hu' key]
  simp only [hbinds, hk, true_and, Slot.binds_iff hold, update_apply]
  rw [hslot]

end Slots

/-! ### Slots of a directory on the device -/

/-- Slot `k` of a directory. -/
def slotAt (m : ByteMem) (i : Inode) (k : ℕ) : Slot :=
  (direntInode m (direntAddr i k), direntName m (direntAddr i k))

def Mapped (i : Inode) : Prop := ∀ k < totalEntries i, entryBlock i k ≠ 0

section Searches

variable {m : ByteMem} {i : Inode} {name : List UInt8}

theorem scanDir_eq {hit : ℕ → Bool} {ks : List ℕ} (h : ∀ k ∈ ks, entryBlock i k ≠ 0) :
    scanDir i hit ks = ks.find? fun k => hit (direntAddr i k) := by
  induction ks with
  | nil => rfl
  | cons k ks ih =>
    rw [scanDir, if_neg (h k mem_cons_self), find?_cons,
      ih fun j hj => h j (mem_cons_of_mem k hj)]
    cases hit (direntAddr i k) <;> rfl

theorem Mapped.scanDir_eq (h : Mapped i) (hit : ℕ → Bool) :
    scanDir i hit (List.range (totalEntries i)) =
      (List.range (totalEntries i)).find? fun k => hit (direntAddr i k) :=
  Ixfs.scanDir_eq fun k hk => h k (mem_range.mp hk)

theorem direntMatches_iff (k : ℕ) :
    direntMatches m name (direntAddr i k) = decide ((slotAt m i k).binds (foldName name)) := by
  rw [Bool.eq_iff_iff, decide_eq_true_iff]
  simp [direntMatches, strcmp, Slot.binds, slotAt]

theorem linearLookup_eq (h : Mapped i) : linearLookup m i name =
    (List.range (totalEntries i)).find? fun k => (slotAt m i k).binds (foldName name) := by
  rw [linearLookup, h.scanDir_eq]
  simp only [direntMatches_iff]

theorem fnv1a_eq (name : List UInt8) : fnv1a name =
    (foldName name).foldl (fun hash c => (hash ^^^ c.toNat) * 0x01000193 % 2 ^ 32) 0x811C9DC5 := by
  rw [fnv1a, foldName, foldl_map]

theorem hashBucket_congr {a b : List UInt8} (h : foldName a = foldName b) :
    hashBucket a = hashBucket b := by
  rw [hashBucket, hashBucket, fnv1a_eq, fnv1a_eq, h]

def Indexes (ix : HashIndex.Index) (n : ℕ) (D : ℕ → Slot) : Prop :=
  ∃ content, HashIndex.Holds ixfsHashChainEnd ix content ∧
    ∀ b k, k ∈ content b ↔ k < n ∧ (D k).1 ≠ 0 ∧ hashBucket (D k).2 = b

variable {ix : HashIndex.Index}

theorem Indexes.congr {n : ℕ} {D D' : ℕ → Slot} (h : Indexes ix n D)
    (hsame : ∀ k < n, ((D' k).1 ≠ 0 ↔ (D k).1 ≠ 0) ∧ hashBucket (D' k).2 = hashBucket (D k).2) :
    Indexes ix n D' := by
  obtain ⟨content, hholds, hcontent⟩ := h
  refine ⟨content, hholds, fun b k => ?_⟩
  rw [hcontent]
  constructor
  · rintro ⟨hk, hlive, hb⟩
    obtain ⟨h1, h2⟩ := hsame k hk
    exact ⟨hk, h1.mpr hlive, h2.trans hb⟩
  · rintro ⟨hk, hlive, hb⟩
    obtain ⟨h1, h2⟩ := hsame k hk
    exact ⟨hk, h1.mp hlive, h2.symm.trans hb⟩

theorem Indexes.hashLookup_eq (h : Indexes ix (totalEntries i) (slotAt m i)) (hmap : Mapped i)
    (hu : Unique (totalEntries i) (slotAt m i)) :
    hashLookup m i (some ix) name = linearLookup m i name := by
  obtain ⟨content, hholds, hcontent⟩ := h
  rw [hashLookup, bind_some, hholds.walk_eq]
  · rw [linearLookup_eq hmap]
    simp only [direntMatches_iff]
    cases hfind : (List.range (totalEntries i)).find?
        fun k => decide ((slotAt m i k).binds (foldName name)) with
    | none =>
      rw [find?_eq_none] at hfind ⊢
      intro k hk
      obtain ⟨hlt, -, -⟩ := (hcontent _ k).mp hk
      exact hfind k (mem_range.mpr hlt)
    | some k =>
      have hlt := mem_range.mp (mem_of_find?_eq_some hfind)
      have hb : (slotAt m i k).binds (foldName name) := by simpa using find?_some hfind
      have hmem : k ∈ content (hashBucket name) :=
        (hcontent _ k).mpr ⟨hlt, hb.1, hashBucket_congr hb.2⟩
      cases hfind' : (content (hashBucket name)).find?
          fun k => decide ((slotAt m i k).binds (foldName name)) with
      | none =>
        have := List.find?_eq_none.mp hfind' k hmem
        simp [hb] at this
      | some j =>
        obtain ⟨hj, -, -⟩ := (hcontent _ j).mp (mem_of_find?_eq_some hfind')
        have hbj : (slotAt m i j).binds (foldName name) := by
          simpa using find?_some hfind'
        rw [hu j k _ hj hlt hbj hb]
  · intro k hk
    obtain ⟨hlt, -, -⟩ := (hcontent _ k).mp hk
    simpa using hmap k hlt

theorem hashLoop_holds {content : ℕ → List ℕ} {ks : List ℕ}
    (h : HashIndex.Holds ixfsHashChainEnd ix content) (hmap : ∀ k ∈ ks, entryBlock i k ≠ 0)
    (hroom : ix.nodes.length + ks.length ≤ ixfsHashChainEnd) :
    ∃ content', HashIndex.Holds ixfsHashChainEnd (hashLoop m i ix ks) content' ∧
      ∀ b k, k ∈ content' b ↔ k ∈ content b ∨
        k ∈ ks ∧ (slotAt m i k).1 ≠ 0 ∧ hashBucket (slotAt m i k).2 = b := by
  induction ks generalizing ix content with
  | nil => exact ⟨content, h, by simp⟩
  | cons j ks ih =>
    have hmap' := fun k hk => hmap k (mem_cons_of_mem j hk)
    rw [length_cons] at hroom
    rw [hashLoop, if_neg (hmap j mem_cons_self)]
    split
    · rename_i hfree
      obtain ⟨content', hholds, hcontent⟩ := ih h hmap' (by omega)
      refine ⟨content', hholds, fun b k => ?_⟩
      rw [hcontent]
      constructor
      · rintro (hmem | ⟨hmem, hlive⟩)
        · exact .inl hmem
        · exact .inr ⟨mem_cons_of_mem j hmem, hlive⟩
      · rintro (hmem | ⟨hmem, hlive⟩)
        · exact .inl hmem
        · rcases mem_cons.mp hmem with rfl | hmem
          · exact absurd hfree hlive.1
          · exact .inr ⟨hmem, hlive⟩
    · rename_i hlive
      obtain ⟨content', hholds, hcontent⟩ := ih (h.insert (by omega)
        (hashBucket (direntName m (direntAddr i j))) j) hmap' (by
          simp [HashIndex.Index.insert]
          omega)
      refine ⟨content', hholds, fun b k => ?_⟩
      rw [hcontent, update_apply, mem_cons]
      constructor
      · rintro (hmem | ⟨hmem, hk⟩)
        · split at hmem
          · rename_i hb
            rcases mem_cons.mp hmem with rfl | hmem
            · exact .inr ⟨.inl rfl, hlive, hb.symm⟩
            · exact .inl (hb ▸ hmem)
          · exact .inl hmem
        · exact .inr ⟨.inr hmem, hk⟩
      · rintro (hmem | ⟨rfl | hmem, hk, hb⟩)
        · left
          split
          · rename_i hb
            exact mem_cons_of_mem j (hb ▸ hmem)
          · exact hmem
        · left
          rw [show hashBucket (direntName m (direntAddr i k)) = b from hb, if_pos rfl]
          exact mem_cons_self
        · exact .inr ⟨hmem, hk, hb⟩

theorem hashBuild_indexes (hmap : Mapped i) (hpos : 0 < totalEntries i) :
    ∃ ix, hashBuild m i = some ix ∧ Indexes ix (totalEntries i) (slotAt m i) := by
  have hlt : totalEntries i < 2 ^ 32 := Nat.mod_lt _ (by norm_num)
  have hroom : (HashIndex.empty ixfsHashChainEnd).nodes.length +
      (List.range (totalEntries i)).length ≤ ixfsHashChainEnd := by
    simp only [HashIndex.empty, length_nil, length_range, ixfsHashChainEnd]
    omega
  obtain ⟨content, hholds, hcontent⟩ := @hashLoop_holds m i _ _ (List.range (totalEntries i))
    (HashIndex.holds_empty ixfsHashChainEnd) (fun k hk => hmap k (mem_range.mp hk)) hroom
  refine ⟨_, if_neg (by omega), content, hholds, fun b k => ?_⟩
  rw [hcontent]
  simp

end Searches

end ImpossibleOs.Ixfs
