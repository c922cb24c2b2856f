import ImpossibleOs.Registry.Api

/-!
Taking down a subtree.

While a subtree is taken down its keys are freed before they are unlinked, so
the tree is not a good one in between. What a call leaves is said by the set of
keys it has freed: with a key also the keys below it, and with a key other than
the first also the one above it.
-/

namespace ImpossibleOs.Registry

open Function List

/-- A key whose slot has been freed. -/
def Key.wipe (k : Key) : Key :=
  { k with name := [], children := fun _ => [], childCount := 0, values := [], valueCount := 0,
           isVolatile := false, isLink := false }

/-- The keys of `D` have been freed and no others changed. -/
structure Wiped (t t' : Tree) (D : Set ℕ) : Prop where
  keyNext : t'.keyNext = t.keyNext
  inside : ∀ d ∈ D, t'.key d = (t.key d).wipe
  outside : ∀ d, d ∉ D → t'.key d = t.key d
  closed : ∀ d ∈ D, ∀ b c, c ∈ (t.key d).children b → c ∈ D

/-- What is not the tree and the cache stays. -/
structure State.SameHandles (s s' : State) : Prop where
  handles : s'.handles = s.handles
  currentUser : s'.currentUser = s.currentUser

theorem State.SameHandles.trans {s s' s'' : State} (h : s.SameHandles s')
    (h' : s'.SameHandles s'') : s.SameHandles s'' :=
  ⟨h'.handles.trans h.handles, h'.currentUser.trans h.currentUser⟩

namespace Wiped

variable {t t' t'' : Tree} {D D' : Set ℕ}

theorem parent (h : Wiped t t' D) (d : ℕ) : (t'.key d).parent = (t.key d).parent := by
  by_cases hd : d ∈ D
  · rw [h.inside d hd]
    rfl
  · rw [h.outside d hd]

theorem children (h : Wiped t t' D) {d b c : ℕ} (hc : c ∈ (t'.key d).children b) :
    c ∈ (t.key d).children b := by
  by_cases hd : d ∈ D
  · rw [h.inside d hd] at hc
    cases hc
  · rwa [h.outside d hd] at hc

theorem ordered (h : Wiped t t' D) (ho : t.Ordered) : t'.Ordered := by
  refine ⟨?_, ?_, ?_, ?_⟩
  · exact fun p b c hc => ho.later p b c (h.children hc)
  · intro p b c hc
    rw [h.keyNext]
    exact ho.used p b c (h.children hc)
  · intro p b c hc
    rw [h.parent]
    exact ho.parent p b c (h.children hc)
  · exact fun p b c hc => ho.chain p b c (h.children hc)

theorem none (t : Tree) : Wiped t t ∅ := ⟨rfl, nofun, fun _ _ => rfl, nofun⟩

theorem trans (h : Wiped t t' D) (h' : Wiped t' t'' D') : Wiped t t'' (D ∪ D') := by
  refine ⟨h'.keyNext.trans h.keyNext, ?_, ?_, ?_⟩
  · intro d hd
    by_cases hd' : d ∈ D'
    · rw [h'.inside d hd']
      by_cases hd₁ : d ∈ D
      · rw [h.inside d hd₁]
        rfl
      · rw [h.outside d hd₁]
    · rw [h'.outside d hd', h.inside d (hd.resolve_right hd')]
  · intro d hd
    rw [h'.outside d fun hcon => hd (.inr hcon), h.outside d fun hcon => hd (.inl hcon)]
  · intro d hd b c hc
    by_cases hd₁ : d ∈ D
    · exact .inl (h.closed d hd₁ b c hc)
    · rw [← h.outside d hd₁] at hc
      exact .inr (h'.closed d (hd.resolve_left hd₁) b c hc)

end Wiped

/-- `del` frees the key it is given, and otherwise only keys below freed ones, for keys past `k` in
a pool of which `next` slots are in use. -/
def Deletes (del : State → ℕ → State) (k next : ℕ) : Prop :=
  ∀ s c, s.tree.Ordered → s.tree.keyNext = next → k < c → c < next →
    s.SameHandles (del s c) ∧ ∃ D, Wiped s.tree (del s c).tree D ∧ c ∈ D ∧ (∀ d ∈ D, c ≤ d) ∧
      ∀ d ∈ D, d = c ∨ ∃ p ∈ D, (s.tree.key d).parent = some p

variable {del : State → ℕ → State} {s : State}

theorem deletes_chain {k : ℕ}
    (hdel : Deletes del k s.tree.keyNext) {l : List ℕ} (ho : s.tree.Ordered)
      (hl : ∀ c ∈ l, k < c ∧ c < s.tree.keyNext ∧ (s.tree.key c).parent = some k) :
    s.SameHandles (l.foldl del s) ∧ ∃ D, Wiped s.tree (l.foldl del s).tree D ∧ (∀ c ∈ l, c ∈ D) ∧
      (∀ d ∈ D, k < d) ∧ ∀ d ∈ D, ∃ p, (s.tree.key d).parent = some p ∧ (p = k ∨ p ∈ D) := by
  induction l generalizing s with
  | nil => exact ⟨⟨rfl, rfl⟩, ∅, Wiped.none _, nofun, nofun, nofun⟩
  | cons c l ih =>
    obtain ⟨hkc, hc, hparent⟩ := hl c mem_cons_self
    obtain ⟨hsame, D, hD, hcD, hle, hup⟩ := hdel s c ho rfl hkc hc
    have hl' : ∀ x ∈ l, k < x ∧ x < (del s c).tree.keyNext ∧
        ((del s c).tree.key x).parent = some k := by
      intro x hx
      obtain ⟨h₁, h₂, h₃⟩ := hl x (mem_cons_of_mem _ hx)
      exact ⟨h₁, by rwa [hD.keyNext], by rwa [hD.parent]⟩
    obtain ⟨hsame', D', hD', hlD, hlt, hup'⟩ := ih (hD.keyNext ▸ hdel) (hD.ordered ho) hl'
    refine ⟨hsame.trans hsame', D ∪ D', hD.trans hD', ?_, ?_, ?_⟩
    · intro x hx
      rcases mem_cons.mp hx with rfl | hx
      · exact .inl hcD
      · exact .inr (hlD x hx)
    · rintro d (hd | hd)
      · exact hkc.trans_le (hle d hd)
      · exact hlt d hd
    · rintro d (hd | hd)
      · rcases hup d hd with rfl | ⟨p, hp, hpar⟩
        · exact ⟨k, hparent, .inl rfl⟩
        · exact ⟨p, hpar, .inr (.inl hp)⟩
      · obtain ⟨p, hpar, hp⟩ := hup' d hd
        rw [hD.parent] at hpar
        exact ⟨p, hpar, hp.imp id .inr⟩

/-- The first `n` chains of `k` have been taken down. -/
structure Cleared (t t' : Tree) (k n : ℕ) (D : Set ℕ) : Prop where
  keyNext : t'.keyNext = t.keyNext
  self : t'.key k =
    { t.key k with children := fun b => if b < n then [] else (t.key k).children b }
  inside : ∀ d ∈ D, t'.key d = (t.key d).wipe
  outside : ∀ d, d ∉ D → d ≠ k → t'.key d = t.key d
  closed : ∀ d ∈ D, ∀ b c, c ∈ (t.key d).children b → c ∈ D
  own : ∀ b < n, ∀ c ∈ (t.key k).children b, c ∈ D
  above : ∀ d ∈ D, k < d
  under : ∀ d ∈ D, ∃ p, (t.key d).parent = some p ∧ (p = k ∨ p ∈ D)

namespace Cleared

variable {t t' : Tree} {k n : ℕ} {D : Set ℕ}

theorem parent (h : Cleared t t' k n D) (d : ℕ) : (t'.key d).parent = (t.key d).parent := by
  by_cases hd : d ∈ D
  · rw [h.inside d hd]
    rfl
  · rcases eq_or_ne d k with rfl | hdk
    · rw [h.self]
    · rw [h.outside d hd hdk]

theorem children (h : Cleared t t' k n D) {d b c : ℕ} (hc : c ∈ (t'.key d).children b) :
    c ∈ (t.key d).children b := by
  by_cases hd : d ∈ D
  · rw [h.inside d hd] at hc
    cases hc
  · rcases eq_or_ne d k with rfl | hdk
    · rw [h.self] at hc
      dsimp only at hc
      split at hc
      · cases hc
      · exact hc
    · rwa [h.outside d hd hdk] at hc

theorem ordered (h : Cleared t t' k n D) (ho : t.Ordered) : t'.Ordered := by
  refine ⟨?_, ?_, ?_, ?_⟩
  · exact fun p b c hc => ho.later p b c (h.children hc)
  · intro p b c hc
    rw [h.keyNext]
    exact ho.used p b c (h.children hc)
  · intro p b c hc
    rw [h.parent]
    exact ho.parent p b c (h.children hc)
  · exact fun p b c hc => ho.chain p b c (h.children hc)

end Cleared

theorem update_lt_succ (f : ℕ → List ℕ) (n : ℕ) :
    update (fun b => if b < n then [] else f b) n [] =
      fun b => if b < n + 1 then [] else f b := by
  funext b
  rcases Nat.lt_trichotomy b n with hb | rfl | hb
  · simp [hb.ne, hb, Nat.lt_succ_of_lt hb]
  · simp
  · simp [hb.ne', Nat.not_lt.mpr hb.le, Nat.not_lt.mpr (Nat.succ_le_of_lt hb)]

theorem deletes_buckets {k : ℕ}
    (hdel : Deletes del k s.tree.keyNext) (ho : s.tree.Ordered) (n : ℕ) :
    let s' := (List.range n).foldl (fun s b =>
      let s := ((s.tree.key k).children b).foldl del s
      s.setTree (s.tree.setKey k { s.tree.key k with
        children := update (s.tree.key k).children b [] })) s
    s.SameHandles s' ∧ ∃ D, Cleared s.tree s'.tree k n D := by
  induction n with
  | zero =>
    exact ⟨⟨rfl, rfl⟩, ∅, rfl, by simp, nofun, fun _ _ _ => rfl, nofun, nofun, nofun, nofun⟩
  | succ n ih =>
    obtain ⟨hsame, D, hD⟩ := ih
    rw [range_succ, foldl_append]
    set s₁ := (List.range n).foldl (fun s b =>
      let s := ((s.tree.key k).children b).foldl del s
      s.setTree (s.tree.setKey k { s.tree.key k with
        children := update (s.tree.key k).children b [] })) s
    have hchain : (s₁.tree.key k).children n = (s.tree.key k).children n := by
      rw [hD.self]
      simp
    have ho₁ := hD.ordered ho
    have hl : ∀ c ∈ (s₁.tree.key k).children n, k < c ∧ c < s₁.tree.keyNext ∧
        (s₁.tree.key c).parent = some k :=
      fun c hc => ⟨ho₁.later k n c hc, ho₁.used k n c hc, ho₁.parent k n c hc⟩
    obtain ⟨hsame', D', hD', hlD, hlt, hup⟩ := deletes_chain (hD.keyNext ▸ hdel) ho₁ hl
    set s₂ := ((s₁.tree.key k).children n).foldl del s₁
    have hk : k ∉ D' := fun hcon => Nat.lt_irrefl k (hlt k hcon)
    refine ⟨hsame.trans ⟨hsame'.handles, hsame'.currentUser⟩, D ∪ D', ?_, ?_, ?_, ?_, ?_, ?_, ?_,
      ?_⟩
    · exact hD'.keyNext.trans hD.keyNext
    · change (s₂.tree.setKey k _).key k = _
      rw [Tree.setKey_self, hD'.outside k hk, hD.self]
      dsimp only
      rw [update_lt_succ]
    · intro d hd
      have hdk : d ≠ k := by
        rintro rfl
        rcases hd with hd | hd
        · exact Nat.lt_irrefl d (hD.above d hd)
        · exact hk hd
      change (s₂.tree.setKey k _).key d = _
      rw [Tree.setKey_of_ne _ _ hdk]
      by_cases hd' : d ∈ D'
      · rw [hD'.inside d hd']
        by_cases hd₁ : d ∈ D
        · rw [hD.inside d hd₁]
          rfl
        · rw [hD.outside d hd₁ hdk]
      · rw [hD'.outside d hd', hD.inside d (hd.resolve_right hd')]
    · intro d hd hdk
      change (s₂.tree.setKey k _).key d = _
      rw [Tree.setKey_of_ne _ _ hdk, hD'.outside d fun hcon => hd (.inr hcon),
        hD.outside d (fun hcon => hd (.inl hcon)) hdk]
    · intro d hd b c hc
      by_cases hd₁ : d ∈ D
      · exact .inl (hD.closed d hd₁ b c hc)
      · have hd' := hd.resolve_left hd₁
        have hdk : d ≠ k := fun hcon => hk (hcon ▸ hd')
        rw [← hD.outside d hd₁ hdk] at hc
        exact .inr (hD'.closed d hd' b c hc)
    · intro b hb c hc
      rcases Nat.lt_succ_iff_lt_or_eq.mp hb with hb | rfl
      · exact .inl (hD.own b hb c hc)
      · exact .inr (hlD c (hchain ▸ hc))
    · rintro d (hd | hd)
      · exact hD.above d hd
      · exact hlt d hd
    · rintro d (hd | hd)
      · obtain ⟨p, hpar, hp⟩ := hD.under d hd
        exact ⟨p, hpar, hp.imp id .inl⟩
      · obtain ⟨p, hpar, hp⟩ := hup d hd
        rw [hD.parent] at hpar
        exact ⟨p, hpar, hp.imp id .inr⟩

/-- `k` has lost its children, and they and all below them are freed. -/
structure Bared (t t' : Tree) (k : ℕ) (D : Set ℕ) : Prop where
  keyNext : t'.keyNext = t.keyNext
  self : t'.key k = { t.key k with children := fun _ => [], childCount := 0 }
  inside : ∀ d ∈ D, t'.key d = (t.key d).wipe
  outside : ∀ d, d ∉ D → d ≠ k → t'.key d = t.key d
  closed : ∀ d ∈ D, ∀ b c, c ∈ (t.key d).children b → c ∈ D
  own : ∀ b, ∀ c ∈ (t.key k).children b, c ∈ D
  above : ∀ d ∈ D, k < d
  under : ∀ d ∈ D, ∃ p, (t.key d).parent = some p ∧ (p = k ∨ p ∈ D)

theorem deleteChildren_spec {k : ℕ} (hdel : Deletes del k s.tree.keyNext) (ho : s.tree.Ordered) :
    s.SameHandles (s.deleteChildren del k) ∧
      ∃ D, Bared s.tree (s.deleteChildren del k).tree k D := by
  obtain ⟨hsame, D, hD⟩ := deletes_buckets hdel ho childBuckets
  unfold State.deleteChildren
  set s₁ := (List.range childBuckets).foldl (fun s b =>
    let s := ((s.tree.key k).children b).foldl del s
    s.setTree (s.tree.setKey k { s.tree.key k with
      children := update (s.tree.key k).children b [] })) s
  have hkD : k ∉ D := fun hcon => Nat.lt_irrefl k (hD.above k hcon)
  have hempty : (fun b => if b < childBuckets then [] else (s.tree.key k).children b) =
      fun _ => [] := by
    funext b
    split
    · rfl
    · rename_i hb
      exact eq_nil_iff_forall_not_mem.mpr fun c hc => hb (ho.chain k b c hc)
  refine ⟨⟨hsame.handles, hsame.currentUser⟩, D, hD.keyNext, ?_, ?_, ?_, hD.closed, ?_, hD.above,
    hD.under⟩
  · change (s₁.tree.setKey k _).key k = _
    rw [Tree.setKey_self, hD.self]
    dsimp only
    rw [hempty]
  · intro d hd
    change (s₁.tree.setKey k _).key d = _
    have hdk : d ≠ k := fun hcon => hkD (hcon ▸ hd)
    rw [Tree.setKey_of_ne _ _ hdk, hD.inside d hd]
  · intro d hd hdk
    change (s₁.tree.setKey k _).key d = _
    rw [Tree.setKey_of_ne _ _ hdk, hD.outside d hd hdk]
  · intro b c hc
    exact hD.own b (ho.chain k b c hc) c hc

theorem deleteSubtree_spec (fuel : ℕ) {k : ℕ} (ho : s.tree.Ordered)
    (hk : k < s.tree.keyNext) (hfuel : s.tree.keyNext ≤ k + fuel) :
    s.SameHandles (State.deleteSubtree fuel s k) ∧
      ∃ D, Wiped s.tree (State.deleteSubtree fuel s k).tree D ∧ k ∈ D ∧ (∀ d ∈ D, k ≤ d) ∧
        ∀ d ∈ D, d = k ∨ ∃ p ∈ D, (s.tree.key d).parent = some p := by
  induction fuel generalizing s k with
  | zero => omega
  | succ fuel ih =>
    have hdel : Deletes (State.deleteSubtree fuel) k s.tree.keyNext := by
      intro s₁ c ho₁ hnext hkc hc
      exact ih ho₁ (by omega) (by omega)
    obtain ⟨hsame, D, hD⟩ := deleteChildren_spec hdel ho
    rw [State.deleteSubtree]
    set s₁ := s.deleteChildren (State.deleteSubtree fuel) k
    have hkD : k ∉ D := fun hcon => Nat.lt_irrefl k (hD.above k hcon)
    refine ⟨⟨hsame.handles, hsame.currentUser⟩, insert k D, ⟨hD.keyNext, ?_, ?_, ?_⟩,
      Set.mem_insert k D, ?_, ?_⟩
    · intro d hd
      change ((s₁.tree.setKey k _).setKey k _).key d = _
      rcases Set.mem_insert_iff.mp hd with rfl | hd
      · rw [Tree.setKey_self]
        change ({ (s₁.tree.setKey d _).key d with
          name := [], isVolatile := false, isLink := false } : Key) = _
        rw [Tree.setKey_self, hD.self]
        rfl
      · have hdk : d ≠ k := fun hcon => hkD (hcon ▸ hd)
        rw [Tree.setKey_of_ne _ _ hdk, Tree.setKey_of_ne _ _ hdk, hD.inside d hd]
    · intro d hd
      have hdk : d ≠ k := fun hcon => hd (hcon ▸ Set.mem_insert k D)
      change ((s₁.tree.setKey k _).setKey k _).key d = _
      rw [Tree.setKey_of_ne _ _ hdk, Tree.setKey_of_ne _ _ hdk,
        hD.outside d (fun hcon => hd (Set.mem_insert_of_mem _ hcon)) hdk]
    · intro d hd b c hc
      rcases Set.mem_insert_iff.mp hd with rfl | hd
      · exact Set.mem_insert_of_mem _ (hD.own b c hc)
      · exact Set.mem_insert_of_mem _ (hD.closed d hd b c hc)
    · intro d hd
      rcases Set.mem_insert_iff.mp hd with rfl | hd
      · exact Nat.le_refl d
      · exact (hD.above d hd).le
    · intro d hd
      rcases Set.mem_insert_iff.mp hd with rfl | hd
      · exact .inl rfl
      · obtain ⟨p, hpar, hp⟩ := hD.under d hd
        refine .inr ⟨p, ?_, hpar⟩
        rcases hp with rfl | hp
        · exact Set.mem_insert p D
        · exact Set.mem_insert_of_mem _ hp

theorem Wiped.keepsValues {t t' : Tree} {D : Set ℕ} (h : Wiped t t' D) : t.KeepsValues t' := by
  intro k
  by_cases hk : k ∈ D
  · rw [h.inside k hk]
    exact ⟨.inr ⟨rfl, rfl⟩, fun _ => rfl⟩
  · rw [h.outside k hk]
    exact ⟨.inl ⟨rfl, rfl⟩, id⟩

theorem Bared.keepsValues {t t' : Tree} {k : ℕ} {D : Set ℕ} (h : Bared t t' k D) :
    t.KeepsValues t' := by
  intro d
  by_cases hd : d ∈ D
  · rw [h.inside d hd]
    exact ⟨.inr ⟨rfl, rfl⟩, fun _ => rfl⟩
  · rcases eq_or_ne d k with rfl | hdk
    · rw [h.self]
      exact ⟨.inl ⟨rfl, rfl⟩, id⟩
    · rw [h.outside d hd hdk]
      exact ⟨.inl ⟨rfl, rfl⟩, id⟩

/-! ### What is left is a good tree -/

/-- The keys of `D` are gone from the tree: they are freed, and a chain that held one held no
other keys and is empty now. -/
structure Cut (t t' : Tree) (D : Set ℕ) : Prop where
  keyNext : t'.keyNext = t.keyNext
  fresh : ∀ k, t.keyNext ≤ k → t'.key k = Key.blank
  parent : ∀ d, (t'.key d).parent = (t.key d).parent
  name_inside : ∀ d ∈ D, (t'.key d).name = []
  name_outside : ∀ d, d ∉ D → (t'.key d).name = (t.key d).name
  chains : ∀ d b, (d ∉ D ∧ (t'.key d).children b = (t.key d).children b ∧
      ∀ c ∈ (t.key d).children b, c ∉ D) ∨
    ((t'.key d).children b = [] ∧ ∀ c ∈ (t.key d).children b, c ∈ D)
  count : ∀ d, (t'.key d).childCount = linkedCount (t'.key d).children

theorem TreeOk.cut {t t' : Tree} {D : Set ℕ} (h : TreeOk t) (hcut : Cut t t' D) : TreeOk t' := by
  have hmem {d b c : ℕ} (hc : c ∈ (t'.key d).children b) : c ∈ (t.key d).children b ∧ c ∉ D := by
    rcases hcut.chains d b with ⟨-, heq, hout⟩ | ⟨hnil, -⟩
    · rw [heq] at hc
      exact ⟨hc, hout c hc⟩
    · rw [hnil] at hc
      cases hc
  have hname {d b c : ℕ} (hc : c ∈ (t'.key d).children b) : (t'.key c).name = (t.key c).name :=
    hcut.name_outside c (hmem hc).2
  refine ⟨⟨?_, ?_, ?_, ?_⟩, ?_, ?_, ?_, ?_, ?_, ?_, ?_, ?_, hcut.count, ?_⟩
  · exact fun p b c hc => h.later p b c (hmem hc).1
  · intro p b c hc
    rw [hcut.keyNext]
    exact h.used p b c (hmem hc).1
  · intro p b c hc
    rw [hcut.parent]
    exact h.parent p b c (hmem hc).1
  · exact fun p b c hc => h.chain p b c (hmem hc).1
  · rw [hcut.keyNext]
    exact h.pool
  · rw [hcut.keyNext]
    exact h.roots
  · intro k hk
    rw [hcut.parent]
    exact h.root k hk
  · intro k hk
    rw [hcut.keyNext] at hk
    exact hcut.fresh k hk
  · intro k
    by_cases hk : k ∈ D
    · rw [hcut.name_inside k hk]
      exact Nat.zero_le _
    · rw [hcut.name_outside k hk]
      exact h.short k
  · intro p b c hc
    rw [hname hc]
    exact h.bucket_eq p b c (hmem hc).1
  · intro p b
    rcases hcut.chains p b with ⟨-, heq, -⟩ | ⟨hnil, -⟩
    · rw [heq]
      exact h.nodup p b
    · rw [hnil]
      exact nodup_nil
  · rintro p c c' ⟨b, hc⟩ ⟨b', hc'⟩ heq
    rw [hname hc, hname hc'] at heq
    exact h.siblings p c c' ⟨b, (hmem hc).1⟩ ⟨b', (hmem hc').1⟩ heq
  · intro p c hnamed hparent
    have hc : c ∉ D := fun hcon => hnamed (hcut.name_inside c hcon)
    rw [hcut.name_outside c hc] at hnamed ⊢
    rw [hcut.parent] at hparent
    have hlinked := h.named p c hnamed hparent
    rcases hcut.chains p (bucket (t.key c).name) with ⟨-, heq, -⟩ | ⟨-, hall⟩
    · rwa [heq]
    · exact absurd (hall c hlinked) hc

theorem linkedCount_empty : linkedCount (fun _ => []) = 0 := by simp [linkedCount]

theorem TreeOk.wiped {t t' : Tree} {D : Set ℕ} (h : TreeOk t) (hw : Wiped t t' D)
    (hup : ∀ d ∈ D, (∀ q, ¬ t.Child q d) ∨ ∃ p ∈ D, (t.key d).parent = some p) : TreeOk t' := by
  refine @TreeOk.cut t t' D h ⟨hw.keyNext, ?_, hw.parent, ?_, ?_, ?_, ?_⟩
  · intro k hk
    by_cases hkD : k ∈ D
    · rw [hw.inside k hkD, h.fresh k hk]
      rfl
    · rw [hw.outside k hkD, h.fresh k hk]
  · intro d hd
    rw [hw.inside d hd]
    rfl
  · intro d hd
    rw [hw.outside d hd]
  · intro d b
    by_cases hd : d ∈ D
    · refine .inr ⟨?_, hw.closed d hd b⟩
      rw [hw.inside d hd]
      rfl
    · refine .inl ⟨hd, by rw [hw.outside d hd], ?_⟩
      intro c hc hcD
      rcases hup c hcD with hnone | ⟨p, hp, hpar⟩
      · exact hnone d ⟨b, hc⟩
      · rw [h.parent d b c hc] at hpar
        cases hpar
        exact hd hp
  · intro d
    by_cases hd : d ∈ D
    · rw [hw.inside d hd]
      exact linkedCount_empty.symm
    · rw [hw.outside d hd]
      exact h.count d

theorem TreeOk.bared {t t' : Tree} {k : ℕ} {D : Set ℕ} (h : TreeOk t) (hb : Bared t t' k D)
    (hk : k < t.keyNext) : TreeOk t' := by
  have hkD : k ∉ D := fun hcon => Nat.lt_irrefl k (hb.above k hcon)
  refine @TreeOk.cut t t' D h ⟨hb.keyNext, ?_, ?_, ?_, ?_, ?_, ?_⟩
  · intro x hx
    by_cases hxD : x ∈ D
    · rw [hb.inside x hxD, h.fresh x hx]
      rfl
    · rw [hb.outside x hxD (by omega), h.fresh x hx]
  · intro d
    by_cases hd : d ∈ D
    · rw [hb.inside d hd]
      rfl
    · rcases eq_or_ne d k with rfl | hdk
      · rw [hb.self]
      · rw [hb.outside d hd hdk]
  · intro d hd
    rw [hb.inside d hd]
    rfl
  · intro d hd
    rcases eq_or_ne d k with rfl | hdk
    · rw [hb.self]
    · rw [hb.outside d hd hdk]
  · intro d b
    by_cases hd : d ∈ D
    · refine .inr ⟨?_, hb.closed d hd b⟩
      rw [hb.inside d hd]
      rfl
    · rcases eq_or_ne d k with rfl | hdk
      · exact .inr ⟨by rw [hb.self], hb.own b⟩
      · refine .inl ⟨hd, by rw [hb.outside d hd hdk], ?_⟩
        intro c hc hcD
        obtain ⟨p, hpar, hp⟩ := hb.under c hcD
        rw [h.parent d b c hc] at hpar
        cases hpar
        exact hp.elim hdk hd
  · intro d
    by_cases hd : d ∈ D
    · rw [hb.inside d hd]
      exact linkedCount_empty.symm
    · rcases eq_or_ne d k with rfl | hdk
      · rw [hb.self]
        exact linkedCount_empty.symm
      · rw [hb.outside d hd hdk]
        exact h.count d

theorem TreeOk.freeValues {t : Tree} (h : TreeOk t) {k : ℕ} (hk : k < t.keyNext) :
    TreeOk (t.freeValues k) :=
  h.sameKeys (setKey_sameKeys hk rfl rfl rfl rfl)

theorem TreeOk.detach {t : Tree} (h : TreeOk t) (k : ℕ) :
    TreeOk (t.detach k) ∧ (t.detach k).keyNext = t.keyNext ∧ (∀ q, ¬ (t.detach k).Child q k) ∧
      ∀ q x, (t.detach k).Child q x → t.Child q x := by
  unfold Tree.detach
  split
  · rename_i hnone
    refine ⟨h, rfl, ?_, fun _ _ hx => hx⟩
    intro q hq
    rw [h.child_parent hq] at hnone
    cases hnone
  · rename_i p hsome
    refine ⟨?_, removeChild_keyNext t p k, ?_⟩
    · by_cases hlinked : k ∈ (t.key p).children (bucket (t.key k).name)
      · exact (h.unlink ⟨_, hlinked⟩).1
      · rw [Tree.removeChild, if_neg hlinked]
        exact h
    · by_cases hlinked : k ∈ (t.key p).children (bucket (t.key k).name)
      · exact (h.unlink ⟨_, hlinked⟩).2
      · rw [Tree.removeChild, if_neg hlinked]
        refine ⟨?_, fun _ _ hx => hx⟩
        intro q hq
        have hpar := h.child_parent hq
        rw [hsome] at hpar
        cases hpar
        exact hlinked (h.child_mem hq)

theorem TreeOk.tombstone {t : Tree} (h : TreeOk t) {k : ℕ} (hk : k < t.keyNext)
    (hout : ∀ q, ¬ t.Child q k) (hbare : ∀ c, ¬ t.Child k c) : TreeOk (t.tombstone k) := by
  have hself : (t.tombstone k).key k =
      { t.key k with name := [], isVolatile := false, isLink := false } :=
    Tree.setKey_self ..
  have hother {x : ℕ} (hx : x ≠ k) : (t.tombstone k).key x = t.key x := Tree.setKey_of_ne _ _ hx
  have hempty (b : ℕ) : (t.key k).children b = [] :=
    eq_nil_iff_forall_not_mem.mpr fun c hc => hbare c ⟨b, hc⟩
  refine @TreeOk.cut t _ {k} h ⟨rfl, ?_, ?_, ?_, ?_, ?_, ?_⟩
  · intro x hx
    rw [hother (by omega), h.fresh x hx]
  · intro x
    rcases eq_or_ne x k with rfl | hx
    · rw [hself]
    · rw [hother hx]
  · rintro d rfl
    rw [hself]
  · intro d hd
    rw [hother hd]
  · intro d b
    rcases eq_or_ne d k with rfl | hd
    · refine .inr ⟨by rw [hself]; exact hempty b, ?_⟩
      rw [hempty]
      exact nofun
    · refine .inl ⟨hd, by rw [hother hd], ?_⟩
      rintro c hc rfl
      exact hout d ⟨b, hc⟩
  · intro d
    rcases eq_or_ne d k with rfl | hd
    · rw [hself]
      exact h.count d
    · rw [hother hd]
      exact h.count d

end ImpossibleOs.Registry
