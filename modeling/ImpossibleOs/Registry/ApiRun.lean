import ImpossibleOs.Registry.Delete

/-!
The key tree and its cache over whole runs of the registry's calls.
-/

namespace ImpossibleOs.Registry

open Function List Option

/-- A state between two calls. -/
structure StateOk (s : State) : Prop where
  tree : TreeOk s.tree
  values : ValuesOk s.tree
  handles : ∀ slot h k, s.handles slot = some h → h.key = some k → k < s.tree.keyNext
  user : s.currentUser.length ≤ maxKeyName

theorem StateOk.grows {s s' : State} (h : StateOk s) (hg : s.Grows s') : StateOk s' := by
  refine ⟨hg.tree, h.values.keeps hg.values, ?_, ?_⟩
  · intro slot hd k hslot hkey
    rw [hg.handles] at hslot
    exact (h.handles slot hd k hslot hkey).trans_le hg.keyNext
  · rw [hg.currentUser]
    exact h.user

theorem StateOk.of_tree {s s' : State} (h : StateOk s) (ht : TreeOk s'.tree)
    (hnext : s.tree.keyNext ≤ s'.tree.keyNext) (hv : s.tree.KeepsValues s'.tree)
    (hs : s.SameHandles s') : StateOk s' :=
  h.grows ⟨ht, hnext, hv, hs.handles, hs.currentUser⟩

/-- A call that looks for a key: the state only grows, and the key is one of the pool. -/
def Looks (s : State) (r : State × Option ℕ) : Prop :=
  s.Grows r.1 ∧ ∀ k, r.2 = some k → k < r.1.tree.keyNext

variable {s : State} {t : Tree} {k : ℕ} {name : Name}

section

variable (h : StateOk s)
include h

theorem resolveHkcu_looks : Looks s s.resolveHkcu := by
  have hroot : rootHku < s.tree.keyNext := Nat.lt_trans (by decide) h.tree.roots
  unfold State.resolveHkcu
  split
  · rename_i k hf
    refine ⟨⟨h.tree, Nat.le_refl _, .of_eq rfl, rfl, rfl⟩, ?_⟩
    rintro k ⟨⟩
    exact Tree.findChild_lt h.tree hf
  · obtain ⟨ht, hle, hchild⟩ := createChild_spec h.tree hroot h.user
    refine ⟨⟨ht, hle, .createChild _ _ _, rfl, rfl⟩, ?_⟩
    intro k hk
    exact (hchild k hk).1.elim fun b hb => ht.used _ b k hb

theorem resolveKey_looks (hKey : Hkey) : Looks s (s.resolveKey hKey) := by
  have hgrows : s.Grows s := ⟨h.tree, Nat.le_refl _, .of_eq rfl, rfl, rfl⟩
  cases hKey with
  | currentUser => exact resolveHkcu_looks h
  | classesRoot =>
    refine ⟨hgrows, ?_⟩
    intro k hk
    obtain ⟨sw, -, hk⟩ := bind_eq_some_iff.mp hk
    exact Tree.findChild_lt h.tree hk
  | localMachine =>
    refine ⟨hgrows, ?_⟩
    rintro k ⟨⟩
    exact Nat.lt_trans (by decide) h.tree.roots
  | users =>
    refine ⟨hgrows, ?_⟩
    rintro k ⟨⟩
    exact Nat.lt_trans (by decide) h.tree.roots
  | currentConfig =>
    refine ⟨hgrows, ?_⟩
    rintro k ⟨⟩
    exact h.tree.roots
  | handle slot =>
    refine ⟨hgrows, ?_⟩
    intro k hk
    obtain ⟨hd, hslot, hk⟩ := bind_eq_some_iff.mp hk
    obtain ⟨k', hkey, hk⟩ := bind_eq_some_iff.mp hk
    split at hk
    · cases hk
    · cases hk
      exact h.handles slot hd k hslot hkey

theorem target_looks {base : ℕ} (hbase : base < s.tree.keyNext)
    (path : Name) (create : Bool) : Looks s (s.target base path create) := by
  unfold State.target
  split
  · refine ⟨⟨h.tree, Nat.le_refl _, .of_eq rfl, rfl, rfl⟩, ?_⟩
    rintro k ⟨⟩
    exact hbase
  · exact walkPath_grows h.tree hbase

/-! ### Handles -/

omit h in
theorem StateOk.allocHandle {s s' : State} (h : StateOk s) {key : Option ℕ} {access : UInt32}
    {slot : ℕ} (hkey : ∀ k, key = some k → k < s.tree.keyNext)
    (heq : s.allocHandle key access = some (s', slot)) :
    StateOk s' ∧ s'.tree = s.tree ∧ s'.handles slot = some ⟨key, access⟩ := by
  unfold State.allocHandle at heq
  obtain ⟨i, -, heq⟩ := map_eq_some_iff.mp heq
  cases heq
  refine ⟨⟨h.tree, h.values, ?_, h.user⟩, rfl, update_self ..⟩
  intro j hd k hj hk
  rcases eq_or_ne j slot with rfl | hne
  · dsimp only at hj
    rw [update_self] at hj
    cases hj
    exact hkey k hk
  · dsimp only at hj
    rw [update_of_ne hne] at hj
    exact h.handles j hd k hj hk

theorem StateOk.setHandle (slot : ℕ) {hd : Option Handle}
    (hkey : ∀ x k, hd = some x → x.key = some k → k < s.tree.keyNext) :
    StateOk { s with handles := update s.handles slot hd } := by
  refine ⟨h.tree, h.values, ?_, h.user⟩
  intro j x k hj hk
  rcases eq_or_ne j slot with rfl | hne
  · dsimp only at hj
    rw [update_self] at hj
    exact hkey x k hj hk
  · dsimp only at hj
    rw [update_of_ne hne] at hj
    exact h.handles j x k hj hk

theorem StateOk.bindHandle (slot : ℕ)
    (hk : k < s.tree.keyNext) : StateOk (s.bindHandle slot k) := by
  apply h.setHandle
  intro x k' hx hk'
  obtain ⟨hd, -, rfl⟩ := map_eq_some_iff.mp hx
  cases hk'
  exact hk

theorem StateOk.freeHandle (slot : ℕ) : StateOk (s.freeHandle slot) :=
  h.setHandle slot nofun

theorem StateOk.closeKey (hKey : Hkey) : StateOk (s.closeKey hKey) := by
  cases hKey with
  | handle slot =>
    unfold State.closeKey
    dsimp only
    split
    · exact h.freeHandle slot
    · rename_i k _
      split
      · exact h.freeHandle slot
      · rename_i p _
        exact (h.grows ((kcbInsert_same s p k).grows h.tree)).freeHandle slot
  | classesRoot => exact h
  | currentUser => exact h
  | localMachine => exact h
  | users => exact h
  | currentConfig => exact h

theorem StateOk.openKey (hKey : Hkey) (path : Name)
    (samDesired : UInt32) : StateOk (s.openKey hKey path samDesired).1 := by
  unfold State.openKey
  split
  · exact h
  have hres := resolveKey_looks h hKey
  split
  · rename_i s₁ heq
    rw [heq] at hres
    exact h.grows hres.1
  · rename_i s₁ base heq
    rw [heq] at hres
    have h₁ := h.grows hres.1
    have htgt := target_looks h₁ (hres.2 base rfl) path false
    split
    · rename_i s₂ heq₂
      rw [heq₂] at htgt
      exact h₁.grows htgt.1
    · rename_i s₂ k heq₂
      rw [heq₂] at htgt
      have h₂ := h₁.grows htgt.1
      split
      · exact h₂
      · rename_i s₃ slot halloc
        refine (h₂.allocHandle ?_ halloc).1
        rintro _ ⟨⟩
        exact htgt.2 k rfl

theorem StateOk.setVolatile (hk : k < s.tree.keyNext) :
    StateOk (s.setTree (s.tree.setKey k { s.tree.key k with isVolatile := true })) := by
  exact h.of_tree (h.tree.sameKeys (setKey_sameKeys hk rfl rfl rfl rfl)) (Nat.le_refl _)
    (.setKey rfl rfl id) ⟨rfl, rfl⟩

theorem StateOk.createKey (hKey : Hkey) (path : Name) (isVolatile : Bool) (samDesired : UInt32) :
    StateOk (s.createKey hKey path isVolatile samDesired).1 := by
  unfold State.createKey
  have hres := resolveKey_looks h hKey
  split
  · rename_i s₁ heq
    rw [heq] at hres
    exact h.grows hres.1
  rename_i s₁ base heq
  rw [heq] at hres
  have h₁ := h.grows hres.1
  split
  · exact h₁
  have htgt := target_looks h₁ (hres.2 base rfl) path false
  split
  rename_i s₂ existing heq₂
  rw [heq₂] at htgt
  have h₂ := h₁.grows htgt.1
  split
  · split
    · exact h₂
    rename_i s₃ slot halloc
    obtain ⟨h₃, htree, -⟩ := h₂.allocHandle (fun k hk => by cases hk) halloc
    have hbase : base < s₃.tree.keyNext := by
      rw [htree]
      exact (hres.2 base rfl).trans_le htgt.1.keyNext
    have hwalk := target_looks h₃ hbase path true
    split
    · rename_i s₄ heq₄
      rw [heq₄] at hwalk
      exact (h₃.grows hwalk.1).freeHandle slot
    · rename_i s₄ k heq₄
      rw [heq₄] at hwalk
      have h₄ := h₃.grows hwalk.1
      have hk := hwalk.2 k rfl
      dsimp only
      split
      · exact (h₄.setVolatile hk).bindHandle slot hk
      · exact h₄.bindHandle slot hk
  · exact h₂

/-! ### Deleting -/

omit h in
theorem TreeOk.bare_of_count (h : TreeOk t) (hcount : (t.key k).childCount = 0)
    (c : ℕ) : ¬ t.Child k c := by
  rintro ⟨b, hc⟩
  rw [h.count] at hcount
  have hb := h.chain k b c hc
  have hzero := (Finset.sum_eq_zero_iff.mp hcount) b (Finset.mem_range.mpr hb)
  rw [length_eq_zero_iff.mp hzero] at hc
  cases hc

theorem StateOk.dropKey (hk : k < s.tree.keyNext)
    (hbare : ∀ c, ¬ s.tree.Child k c) : StateOk (s.dropKey k) := by
  have hfree := h.tree.freeValues hk
  have hchild {c : ℕ} (hc : (s.tree.freeValues k).Child k c) : s.tree.Child k c := by
    obtain ⟨b, hb⟩ := hc
    simp only [Tree.freeValues, Tree.setKey_self] at hb
    exact ⟨b, hb⟩
  obtain ⟨hdet, hnext, hout, hsub⟩ := hfree.detach k
  have hk' : k < ((s.tree.freeValues k).detach k).keyNext := by
    rw [hnext]
    exact hk
  have htomb := hdet.tombstone hk' hout fun c hc => hbare c (hchild (hsub k c hc))
  have hvals := (Tree.KeepsValues.freeValues s.tree k).trans (.detach _ k)
  exact h.of_tree htomb (Nat.le_of_eq hnext.symm) (hvals.trans (.tombstone _ _)) ⟨rfl, rfl⟩

theorem StateOk.deleteKeyDirect (hk : k < s.tree.keyNext) : StateOk (s.deleteKeyDirect k).1 := by
  unfold State.deleteKeyDirect
  split
  · exact h
  rename_i hcount
  split
  · exact h
  · exact h.dropKey hk (h.tree.bare_of_count (Nat.eq_zero_of_not_pos hcount))

theorem StateOk.deleteKey (hKey : Hkey) (path : Name) : StateOk (s.deleteKey hKey path).1 := by
  unfold State.deleteKey
  have hres := resolveKey_looks h hKey
  split
  · rename_i s₁ heq
    rw [heq] at hres
    exact h.grows hres.1
  rename_i s₁ base heq
  rw [heq] at hres
  have h₁ := h.grows hres.1
  split
  · split
    · exact h₁
    have hwalk := @walkPath_grows s₁ h₁.tree base path false (hres.2 base rfl)
    split
    · rename_i s₂ heq₂
      rw [heq₂] at hwalk
      exact h₁.grows hwalk.1
    · rename_i s₂ k heq₂
      rw [heq₂] at hwalk
      have h₂ := h₁.grows hwalk.1
      split
      · exact h₂
      · rename_i hcount
        exact h₂.dropKey (hwalk.2 k rfl) (h₂.tree.bare_of_count (Nat.eq_zero_of_not_pos hcount))
  · exact h₁

theorem handleKey_lt {slot k : ℕ} (hk : s.handleKey slot = some k) : k < s.tree.keyNext :=
  (resolveKey_looks h (.handle slot)).2 k hk

theorem StateOk.ntDeleteKey (slot : ℕ) : StateOk (s.ntDeleteKey slot).1 := by
  unfold State.ntDeleteKey
  split
  · exact h
  rename_i k hkey
  split
  · have hdel := h.deleteKeyDirect (handleKey_lt h hkey)
    split
    · rename_i s₁ heq
      rw [heq] at hdel
      exact hdel.closeKey (.handle slot)
    · exact hdel
  · exact h

theorem deletes_pool (k : ℕ) : Deletes (State.deleteSubtree keyPoolSize) k s.tree.keyNext := by
  intro s₁ c ho hnext _ hc
  have := h.tree.pool
  exact deleteSubtree_spec keyPoolSize ho (by omega) (by omega)

theorem StateOk.deleteChildren (hk : k < s.tree.keyNext) :
    StateOk (s.deleteChildren (State.deleteSubtree keyPoolSize) k) ∧
      (s.deleteChildren (State.deleteSubtree keyPoolSize) k).tree.keyNext = s.tree.keyNext ∧
      ∀ c, ¬ (s.deleteChildren (State.deleteSubtree keyPoolSize) k).tree.Child k c := by
  obtain ⟨hsame, D, hD⟩ := deleteChildren_spec (deletes_pool h k) h.tree.toOrdered
  refine ⟨h.of_tree (h.tree.bared hD hk) (Nat.le_of_eq hD.keyNext.symm) hD.keepsValues hsame,
    hD.keyNext, ?_⟩
  rintro c ⟨b, hc⟩
  rw [hD.self] at hc
  cases hc

theorem StateOk.unloadHive (hk : k < s.tree.keyNext) : StateOk (s.unloadHive k).1 := by
  unfold State.unloadHive
  split
  · exact h
  · obtain ⟨h₁, hnext, hbare⟩ := h.deleteChildren hk
    exact h₁.dropKey (hnext ▸ hk) hbare

theorem StateOk.ntUnloadKey (root : Hkey) (path : Name) : StateOk (s.ntUnloadKey root path).1 := by
  unfold State.ntUnloadKey
  split
  · exact h
  have hopen := h.openKey root path keyAllAccess
  split
  · rename_i s₁ e slot heq
    rw [heq] at hopen
    split
    · exact hopen.closeKey (.handle slot)
    · rename_i k hkey
      obtain ⟨hd, hslot, hk⟩ := bind_eq_some_iff.mp hkey
      exact (hopen.unloadHive (hopen.handles slot hd k hslot hk)).closeKey (.handle slot)
  · rename_i s₁ e heq
    rw [heq] at hopen
    exact hopen

theorem StateOk.deleteTree (hKey : Hkey) (path : Name) : StateOk (s.deleteTree hKey path).1 := by
  unfold State.deleteTree
  have hres := resolveKey_looks h hKey
  split
  · rename_i s₁ heq
    rw [heq] at hres
    exact h.grows hres.1
  rename_i s₁ base heq
  rw [heq] at hres
  have h₁ := h.grows hres.1
  have hbase := hres.2 base rfl
  split
  · split
    · exact h₁
    split
    · obtain ⟨h₂, hnext, -⟩ := h₁.deleteChildren hbase
      exact h₂.of_tree (h₂.tree.freeValues (hnext ▸ hbase)) (Nat.le_refl _)
        (.freeValues _ _) ⟨rfl, rfl⟩
    · have hwalk := @walkPath_grows s₁ h₁.tree base path false hbase
      split
      · rename_i s₂ heq₂
        rw [heq₂] at hwalk
        exact h₁.grows hwalk.1
      · rename_i s₂ k heq₂
        rw [heq₂] at hwalk
        have h₂ := h₁.grows hwalk.1
        obtain ⟨hdet, hnext, hout, -⟩ := h₂.tree.detach k
        have h₃ : StateOk (s₂.setTree (s₂.tree.detach k)) :=
          h₂.of_tree hdet (Nat.le_of_eq hnext.symm) (.detach _ _) ⟨rfl, rfl⟩
        have hk : k < (s₂.tree.detach k).keyNext := hnext ▸ hwalk.2 k rfl
        have hpool := h₃.tree.pool
        obtain ⟨hsame, D, hD, -, -, hup⟩ := @deleteSubtree_spec (s₂.setTree (s₂.tree.detach k))
          keyPoolSize k h₃.tree.toOrdered hk (by omega)
        refine h₃.of_tree (h₃.tree.wiped hD ?_) (Nat.le_of_eq hD.keyNext.symm)
          hD.keepsValues hsame
        intro d hd
        rcases hup d hd with rfl | hp
        · exact .inl hout
        · exact .inr hp
  · exact h₁

/-! ### Renaming -/

omit h in
theorem TreeOk.rename_same (h : TreeOk t) (hk : k < t.keyNext)
    (hlen : name.length ≤ maxKeyName) (hsame : stricmp (t.key k).name name = 0) :
      TreeOk (t.rename k name) := by
  have hself : (t.rename k name).key k = { t.key k with name := name } := by
    rw [Tree.rename, Tree.setKey_self, take_of_length_le hlen]
  have hother {x : ℕ} (hx : x ≠ k) : (t.rename k name).key x = t.key x := Tree.setKey_of_ne _ _ hx
  have hname (x : ℕ) : stricmp ((t.rename k name).key x).name (t.key x).name = 0 := by
    rcases eq_or_ne x k with rfl | hx
    · rw [hself]
      exact stricmp_symm hsame
    · rw [hother hx]
      exact stricmp_self _
  have hparent (x : ℕ) : ((t.rename k name).key x).parent = (t.key x).parent := by
    rcases eq_or_ne x k with rfl | hx
    · rw [hself]
    · rw [hother hx]
  have hchildren (x : ℕ) : ((t.rename k name).key x).children = (t.key x).children := by
    rcases eq_or_ne x k with rfl | hx
    · rw [hself]
    · rw [hother hx]
  have hcount (x : ℕ) : ((t.rename k name).key x).childCount = (t.key x).childCount := by
    rcases eq_or_ne x k with rfl | hx
    · rw [hself]
    · rw [hother hx]
  have hchild {p c : ℕ} (hc : (t.rename k name).Child p c) : t.Child p c := by
    obtain ⟨b, hb⟩ := hc
    exact ⟨b, hchildren p ▸ hb⟩
  refine ⟨⟨?_, ?_, ?_, ?_⟩, h.pool, h.roots, ?_, ?_, ?_, ?_, ?_, ?_, ?_, ?_⟩
  · exact fun p b c hc => h.later p b c (hchildren p ▸ hc)
  · exact fun p b c hc => h.used p b c (hchildren p ▸ hc)
  · intro p b c hc
    rw [hparent]
    exact h.parent p b c (hchildren p ▸ hc)
  · exact fun p b c hc => h.chain p b c (hchildren p ▸ hc)
  · intro x hx
    rw [hparent]
    exact h.root x hx
  · intro x hx
    have hx' : t.keyNext ≤ x := hx
    rw [hother (by omega), h.fresh x hx']
  · intro x
    rcases eq_or_ne x k with rfl | hx
    · rw [hself]
      exact hlen
    · rw [hother hx]
      exact h.short x
  · intro p b c hc
    rw [bucket_congr (hname c)]
    exact h.bucket_eq p b c (hchildren p ▸ hc)
  · intro p b
    rw [hchildren]
    exact h.nodup p b
  · intro p c c' hc hc' heq
    apply h.siblings p c c' (hchild hc) (hchild hc')
    exact stricmp_trans (stricmp_symm (hname c)) (stricmp_trans heq (hname c'))
  · intro p
    rw [hcount, hchildren, h.count]
  · intro p c hnamed hpar
    rw [bucket_congr (hname c), hchildren]
    rw [hparent] at hpar
    refine h.named p c ?_ hpar
    intro hnil
    have hnil' := hname c
    rw [hnil] at hnil'
    exact hnamed (stricmp_nil hnil')

omit h in
theorem TreeOk.rename_new (h : TreeOk t) {p k : ℕ}
    (hlinked : t.Child p k) (hlen : name.length ≤ maxKeyName) (hnew : t.findChild p name = none) :
    TreeOk (((t.removeChild p k).rename k name).addChild p k) := by
  have hmem := h.child_mem hlinked
  have hpk : p ≠ k := (h.later p _ k hmem).ne
  have hroot : rootHkcc < k := by
    refine Nat.not_le.mp fun hle => ?_
    have hpar := h.child_parent hlinked
    rw [h.root k hle] at hpar
    cases hpar
  obtain ⟨hun, hout, hsub⟩ := h.unlink hlinked
  obtain ⟨hp, hkKey, hother⟩ := removeChild_key hpk hmem
  have hnext := removeChild_keyNext t p k
  generalize t.removeChild p k = t₁ at hun hout hsub hp hkKey hother hnext
  have hself : (t₁.rename k name).key k = { t₁.key k with name := name } := by
    rw [Tree.rename, Tree.setKey_self, take_of_length_le hlen]
  have hrest {x : ℕ} (hx : x ≠ k) : (t₁.rename k name).key x = t₁.key x :=
    Tree.setKey_of_ne _ _ hx
  obtain ⟨hap, hak, haother⟩ := addChild_key (t₁.rename k name) hpk
  have hname : ((t₁.rename k name).key k).name = name := by rw [hself]
  rw [hname, hrest hpk] at hap
  rw [hself] at hak
  refine hun.link (h.later p _ k hmem) hroot (hnext ▸ h.used p _ k hmem) hun.pool (Nat.le_refl _)
    ?_ ?_ hap ?_ hlen ?_ ?_ ?_ hout ?_
  · intro x hx
    have hx' : t₁.keyNext ≤ x := hx
    have hpl := h.parent_lt hmem
    have hkl := h.used p _ k hmem
    rw [haother x (by omega) (by omega), hrest (by omega), hun.fresh x hx']
  · intro x hxp hxk
    rw [haother x hxp hxk, hrest hxk]
  · rw [hak]
  · rw [hak]
  · rw [hak]
  · rw [hak]
  · intro c hc
    have hck : c ≠ k := fun hcon => hout p (hcon ▸ hc)
    have hnameEq : (t₁.key c).name = (t.key c).name := by
      rcases eq_or_ne c p with rfl | hcp
      · rw [hp]
      · rw [hother c hcp hck]
    rw [hnameEq]
    exact h.findChild_none hnew (hsub p c hc)

theorem StateOk.renameKeyDirect (newName : Name)
    (hk : k < s.tree.keyNext) (hatt : s.tree.Attached k) :
    StateOk (s.renameKeyDirect k newName).1 := by
  have hpurge : StateOk (s.kcbPurgeKey k) :=
    h.of_tree h.tree (Nat.le_refl _) (.of_eq rfl) ⟨rfl, rfl⟩
  unfold State.renameKeyDirect
  split
  · exact h
  split
  · exact h
  rename_i parent hparent
  split
  · exact h
  dsimp only
  split
  · exact hpurge
  rename_i hgood
  have hlen : newName.length ≤ maxKeyName := Nat.not_lt.mp fun hcon => hgood (.inr hcon)
  split
  · rename_i existing hf
    split
    · exact hpurge
    · rename_i heq
      obtain rfl : existing = k := not_not.mp heq
      exact hpurge.of_tree (h.tree.rename_same hk hlen (h.tree.findChild_some.mp hf).2)
        (Nat.le_refl _) (.rename _ _ _) ⟨rfl, rfl⟩
  · rename_i hf
    have hvals := ((Tree.KeepsValues.removeChild s.tree parent k).trans
      (.rename _ k newName)).trans (.addChild _ parent k)
    refine hpurge.of_tree (h.tree.rename_new (hatt parent hparent) hlen hf) ?_ hvals ⟨rfl, rfl⟩
    exact Nat.le_of_eq (removeChild_keyNext s.tree parent k).symm

omit h in
theorem walkFrom_attached (h : TreeOk t) {steps : List (Option Name)} {cur k : ℕ}
    (hcur : t.Attached cur) (hk : t.walkFrom steps cur = some k) : t.Attached k := by
  induction steps generalizing cur with
  | nil =>
    cases hk
    exact hcur
  | cons step rest ih =>
    cases step with
    | none => cases hk
    | some component =>
      obtain ⟨c, hc, hk⟩ := bind_eq_some_iff.mp hk
      exact ih (h.attached_child (h.findChild_some.mp hc).1) hk

theorem target_attached {base k : ℕ} {path : Name}
    (hbase : s.tree.Attached base) (hk : (s.target base path false).2 = some k) :
    (s.target base path false).1.tree.Attached k := by
  unfold State.target at hk ⊢
  split at hk
  · rename_i hnil
    rw [if_pos hnil]
    cases hk
    exact hbase
  · rename_i hne
    obtain ⟨hsame, heq⟩ := walkPath_spec h.tree base path
    rw [if_neg hne, hsame.tree]
    rw [heq] at hk
    exact walkFrom_attached h.tree hbase hk

theorem resolveKey_attached {hKey : Hkey}
    (hk : (s.resolveKey hKey).2 = some k) : (s.resolveKey hKey).1.tree.Attached k := by
  cases hKey with
  | currentUser =>
    have hroot : rootHku < s.tree.keyNext := Nat.lt_trans (by decide) h.tree.roots
    change s.resolveHkcu.2 = some k at hk
    change s.resolveHkcu.1.tree.Attached k
    unfold State.resolveHkcu at hk ⊢
    split at hk
    · rename_i k' hf
      cases hk
      exact h.tree.attached_child (h.tree.findChild_some.mp hf).1
    · obtain ⟨ht, -, hchild⟩ := createChild_spec h.tree hroot h.user
      exact ht.attached_child (hchild k hk).1
  | classesRoot =>
    obtain ⟨sw, -, hk⟩ := bind_eq_some_iff.mp hk
    exact h.tree.attached_child (h.tree.findChild_some.mp hk).1
  | localMachine =>
    cases hk
    exact h.tree.attached_root (by decide)
  | users =>
    cases hk
    exact h.tree.attached_root (by decide)
  | currentConfig =>
    cases hk
    exact h.tree.attached_root (by decide)
  | handle slot =>
    obtain ⟨hd, -, hk⟩ := bind_eq_some_iff.mp hk
    obtain ⟨k', -, hk⟩ := bind_eq_some_iff.mp hk
    split at hk
    · cases hk
    · rename_i hnamed
      cases hk
      exact h.tree.attached_named hnamed

theorem StateOk.renameKey (hKey : Hkey) (path newName : Name) :
    StateOk (s.renameKey hKey path newName).1 := by
  unfold State.renameKey
  have hres := resolveKey_looks h hKey
  have hatt := fun base => @resolveKey_attached s base h hKey
  split
  · rename_i s₁ heq
    rw [heq] at hres
    exact h.grows hres.1
  rename_i s₁ base heq
  rw [heq] at hres hatt
  have h₁ := h.grows hres.1
  split
  · exact h₁
  split
  · split
    · exact h₁
    have htgt := target_looks h₁ (hres.2 base rfl) path false
    have hatt₂ := @target_attached s₁ h₁ base
    split
    · rename_i s₂ heq₂
      rw [heq₂] at htgt
      exact h₁.grows htgt.1
    · rename_i s₂ k heq₂
      have hk := @hatt₂ k path (hatt _ rfl) (by rw [heq₂])
      rw [heq₂] at htgt hk
      have h₂ := h₁.grows htgt.1
      split
      · exact h₂
      · exact h₂.renameKeyDirect newName (htgt.2 k rfl) hk
  · exact h₁

theorem StateOk.ntRenameKey (slot : ℕ) (newName : Name) :
    StateOk (s.ntRenameKey slot newName).1 := by
  unfold State.ntRenameKey
  split
  · exact h
  rename_i k hkey
  split
  · exact h.renameKeyDirect newName (handleKey_lt h hkey)
      (@resolveKey_attached s k h (.handle slot) hkey)
  · exact h

end

/-! ### Values and copies -/

/-- A call on the tree that leaves it good and takes no key from the pool away. -/
structure Extends (t t' : Tree) : Prop where
  tree : TreeOk t'
  keyNext : t.keyNext ≤ t'.keyNext
  values : ValuesOk t → ValuesOk t'

theorem Extends.trans {t t' t'' : Tree} (h : Extends t t') (h' : Extends t' t'') : Extends t t'' :=
  ⟨h'.tree, h.keyNext.trans h'.keyNext, fun hv => h'.values (h.values hv)⟩

theorem TreeOk.extends_self (h : TreeOk t) : Extends t t := ⟨h, Nat.le_refl _, id⟩

theorem StateOk.extends (h : StateOk s) (ht : Extends s.tree t) : StateOk (s.setTree t) :=
  ⟨ht.tree, ht.values h.values,
    fun slot hd k hslot hk => (h.handles slot hd k hslot hk).trans_le ht.keyNext, h.user⟩

theorem ValuesOk.setKey (h : ValuesOk t) {key : Key}
    (hcount : key.valueCount = key.values.length) (hfits : ∀ v ∈ key.values, ValueOk v)
    (hlink : key.isLink = (t.key k).isLink) : ValuesOk (t.setKey k key) := by
  refine ⟨?_, ?_, ?_⟩
  · intro x
    rcases eq_or_ne x k with rfl | hx
    · rwa [Tree.setKey_self]
    · rw [Tree.setKey_of_ne _ _ hx]
      exact h.count x
  · intro x
    rcases eq_or_ne x k with rfl | hx
    · rwa [Tree.setKey_self]
    · rw [Tree.setKey_of_ne _ _ hx]
      exact h.fits x
  · intro x
    rcases eq_or_ne x k with rfl | hx
    · rw [Tree.setKey_self, hlink, h.noLink]
    · rw [Tree.setKey_of_ne _ _ hx, h.noLink]

theorem updateValue_spec {f : Value → Value} {vs : List Value}
    (hf : ∀ v, ValueOk v → ValueOk (f v)) (hvs : ∀ v ∈ vs, ValueOk v) :
    (updateValue name f vs).length = vs.length ∧ ∀ v ∈ updateValue name f vs, ValueOk v := by
  induction vs with
  | nil => exact ⟨rfl, hvs⟩
  | cons w ws ih =>
    have hw := hvs w mem_cons_self
    obtain ⟨hlen, hall⟩ := ih fun v hv => hvs v (mem_cons_of_mem _ hv)
    rw [updateValue]
    split
    · refine ⟨rfl, ?_⟩
      intro v hv
      rcases mem_cons.mp hv with rfl | hv
      · exact hf w hw
      · exact hvs v (mem_cons_of_mem _ hv)
    · refine ⟨by simp [hlen], ?_⟩
      intro v hv
      rcases mem_cons.mp hv with rfl | hv
      · exact hw
      · exact hall v hv

theorem setValueDirect_extends (h : TreeOk t) (hk : k < t.keyNext) (name : Name)
    (type : UInt32) (data : Option (List UInt8)) (size : ℕ) :
    Extends t (t.setValueDirect k name type data size).1 := by
  unfold Tree.setValueDirect
  split
  · exact h.extends_self
  rename_i hsize
  have hval (v : Value) (hv : v.name.length ≤ maxValueName) : ValueOk (v.put type data size) := by
    unfold Value.put
    split <;> exact ⟨hv, Nat.not_lt.mp hsize⟩
  split
  · refine ⟨h.sameKeys (setKey_sameKeys hk rfl rfl rfl rfl), Nat.le_refl _, ?_⟩
    intro hv
    obtain ⟨hlen, hall⟩ := @updateValue_spec name (fun v => v.put type data size) _
      (fun v hv => hval v hv.name) (hv.fits k)
    exact hv.setKey ((hv.count k).trans hlen.symm) hall rfl
  · split
    · exact h.extends_self
    · rename_i t₁ v halloc
      unfold Tree.allocValue at halloc
      split at halloc
      · cases halloc
      cases halloc
      have h₁ : TreeOk { t with valueNext := t.valueNext + 1 } :=
        h.sameKeys ⟨rfl, fun _ => rfl, fun _ => rfl, fun _ => rfl, fun _ => rfl, fun _ _ => rfl⟩
      refine ⟨h₁.sameKeys (@setKey_sameKeys { t with valueNext := t.valueNext + 1 } k hk _ rfl rfl
        rfl rfl), Nat.le_refl _, ?_⟩
      intro hv
      have hv₁ : ValuesOk { t with valueNext := t.valueNext + 1 } :=
        ⟨hv.count, hv.fits, hv.noLink⟩
      refine hv₁.setKey (congrArg (· + 1) (hv.count k)) ?_ rfl
      intro w hw
      rcases mem_cons.mp hw with rfl | hw
      · exact hval ⟨name.take maxValueName, type, fun _ => 0, 0⟩ (length_take_le _ _)
      · exact hv.fits k w hw

theorem copyValues_extends (h : TreeOk t) {dst : ℕ} (hdst : dst < t.keyNext)
    (vs : List Value) : Extends t (t.copyValues dst vs).1 := by
  induction vs generalizing t with
  | nil => exact h.extends_self
  | cons v vs ih =>
    have hset := setValueDirect_extends h hdst v.name v.type (some v.bytes) v.dataSize
    rw [Tree.copyValues]
    split
    · rename_i t₁ heq
      rw [heq] at hset
      exact hset.trans (ih hset.tree (hdst.trans_le hset.keyNext))
    · exact hset

/-- What the copy of a subtree does to a tree, for any source and any target in use. -/
def Copies (copy : Tree → ℕ → ℕ → Tree × Status) : Prop :=
  ∀ t src dst, TreeOk t → dst < t.keyNext → Extends t (copy t src dst).1

theorem copyChain_extends {copy : Tree → ℕ → ℕ → Tree × Status} (hcopy : Copies copy) {dst : ℕ}
    (cs : List ℕ) (h : TreeOk t) (hdst : dst < t.keyNext) :
    Extends t (Tree.copyChain copy dst cs t).1 := by
  induction cs generalizing t with
  | nil => exact h.extends_self
  | cons c cs ih =>
    have hvals := Tree.KeepsValues.createChild t dst (t.key c).name
    obtain ⟨ht, hle, hchild⟩ := createChild_spec h hdst (h.short c)
    rw [Tree.copyChain]
    split
    · rename_i t₁ heq
      rw [heq] at ht hle hvals
      exact ⟨ht, hle, fun hv => hv.keeps hvals⟩
    · rename_i t₁ dc heq
      rw [heq] at ht hle hchild hvals
      have hdc : dc < t₁.keyNext := (hchild dc rfl).1.elim fun b hb => ht.used dst b dc hb
      have hsub := hcopy t₁ c dc ht hdc
      have hall : Extends t (copy t₁ c dc).1 :=
        Extends.trans ⟨ht, hle, fun hv => hv.keeps hvals⟩ hsub
      split
      · rename_i t₂ heq₂
        rw [heq₂] at hall
        exact hall.trans (ih hall.tree (hdst.trans_le hall.keyNext))
      · exact hall

theorem copyBuckets_extends {copy : Tree → ℕ → ℕ → Tree × Status} (hcopy : Copies copy)
    (src : ℕ) {dst : ℕ} (bs : List ℕ) (h : TreeOk t) (hdst : dst < t.keyNext) :
    Extends t (Tree.copyBuckets copy src dst bs t).1 := by
  induction bs generalizing t with
  | nil => exact h.extends_self
  | cons b bs ih =>
    have hchain := copyChain_extends hcopy ((t.key src).children b) h hdst
    rw [Tree.copyBuckets]
    split
    · rename_i t₁ heq
      rw [heq] at hchain
      exact hchain.trans (ih hchain.tree (hdst.trans_le hchain.keyNext))
    · exact hchain

theorem copySubtree_extends (fuel : ℕ) : Copies (Tree.copySubtree fuel) := by
  induction fuel with
  | zero => exact fun t _ _ h _ => h.extends_self
  | succ fuel ih =>
    intro t src dst h hdst
    have hvals := copyValues_extends h hdst (t.key src).values
    rw [Tree.copySubtree]
    split
    · rename_i t₁ heq
      rw [heq] at hvals
      exact hvals.trans (copyBuckets_extends ih src _ hvals.tree (hdst.trans_le hvals.keyNext))
    · exact hvals

theorem StateOk.copyTree (h : StateOk s) (hKeySrc : Hkey) (path : Name)
    (hKeyDest : Hkey) : StateOk (s.copyTree hKeySrc path hKeyDest).1 := by
  unfold State.copyTree
  have hsrc := resolveKey_looks h hKeySrc
  split
  · rename_i s₁ heq
    rw [heq] at hsrc
    exact h.grows hsrc.1
  rename_i s₁ src heq
  rw [heq] at hsrc
  have h₁ := h.grows hsrc.1
  have hdst := resolveKey_looks h₁ hKeyDest
  split
  · rename_i s₂ heq₂
    rw [heq₂] at hdst
    exact h₁.grows hdst.1
  rename_i s₂ dst heq₂
  rw [heq₂] at hdst
  have h₂ := h₁.grows hdst.1
  split
  · split
    · split
      · exact h₂
      have hroot := target_looks h₂ ((hsrc.2 src rfl).trans_le hdst.1.keyNext) path false
      split
      · rename_i s₃ heq₃
        rw [heq₃] at hroot
        exact h₂.grows hroot.1
      · rename_i s₃ root heq₃
        rw [heq₃] at hroot
        have h₃ := h₂.grows hroot.1
        split
        · exact h₃
        dsimp only
        split
        · exact h₃
        · have hcopy := copySubtree_extends keyPoolSize s₃.tree root dst h₃.tree
            ((hdst.2 dst rfl).trans_le hroot.1.keyNext)
          exact h₃.extends hcopy
    · exact h₂
  · exact h₂

theorem StateOk.setValue (h : StateOk s) (hKey : Hkey) (name : Name) (type : UInt32)
    (data : Option (List UInt8)) (size : ℕ) : StateOk (s.setValue hKey name type data size).1 := by
  unfold State.setValue
  have hres := resolveKey_looks h hKey
  split
  · rename_i s₁ heq
    rw [heq] at hres
    exact h.grows hres.1
  rename_i s₁ k heq
  rw [heq] at hres
  have h₁ := h.grows hres.1
  split
  · have hset := setValueDirect_extends h₁.tree (hres.2 k rfl) name type data size
    exact h₁.extends hset
  · exact h₁

theorem StateOk.setCurrentUser (h : StateOk s) (name : Name) : StateOk (s.setCurrentUser name) :=
  ⟨h.tree, h.values, h.handles, length_take_le _ _⟩

/-! ### Runs -/

inductive RegOp
  | openKey (hKey : Hkey) (path : Name) (samDesired : UInt32)
  | createKey (hKey : Hkey) (path : Name) (isVolatile : Bool) (samDesired : UInt32)
  | closeKey (hKey : Hkey)
  | deleteKey (hKey : Hkey) (path : Name)
  | ntDeleteKey (slot : ℕ)
  | deleteTree (hKey : Hkey) (path : Name)
  | renameKey (hKey : Hkey) (path newName : Name)
  | ntRenameKey (slot : ℕ) (newName : Name)
  | ntUnloadKey (root : Hkey) (path : Name)
  | copyTree (hKeySrc : Hkey) (path : Name) (hKeyDest : Hkey)
  | setValue (hKey : Hkey) (name : Name) (type : UInt32) (data : Option (List UInt8)) (size : ℕ)
  | setCurrentUser (name : Name)

def State.apply (s : State) : RegOp → State
  | .openKey hKey path samDesired => (s.openKey hKey path samDesired).1
  | .createKey hKey path isVolatile samDesired => (s.createKey hKey path isVolatile samDesired).1
  | .closeKey hKey => s.closeKey hKey
  | .deleteKey hKey path => (s.deleteKey hKey path).1
  | .ntDeleteKey slot => (s.ntDeleteKey slot).1
  | .deleteTree hKey path => (s.deleteTree hKey path).1
  | .renameKey hKey path newName => (s.renameKey hKey path newName).1
  | .ntRenameKey slot newName => (s.ntRenameKey slot newName).1
  | .ntUnloadKey root path => (s.ntUnloadKey root path).1
  | .copyTree hKeySrc path hKeyDest => (s.copyTree hKeySrc path hKeyDest).1
  | .setValue hKey name type data size => (s.setValue hKey name type data size).1
  | .setCurrentUser name => s.setCurrentUser name

theorem StateOk.apply (h : StateOk s) (op : RegOp) : StateOk (s.apply op) := by
  cases op with
  | openKey hKey path samDesired => exact h.openKey hKey path samDesired
  | createKey hKey path isVolatile samDesired => exact h.createKey hKey path isVolatile samDesired
  | closeKey hKey => exact h.closeKey hKey
  | deleteKey hKey path => exact h.deleteKey hKey path
  | ntDeleteKey slot => exact h.ntDeleteKey slot
  | deleteTree hKey path => exact h.deleteTree hKey path
  | renameKey hKey path newName => exact h.renameKey hKey path newName
  | ntRenameKey slot newName => exact h.ntRenameKey slot newName
  | ntUnloadKey root path => exact h.ntUnloadKey root path
  | copyTree hKeySrc path hKeyDest => exact h.copyTree hKeySrc path hKeyDest
  | setValue hKey name type data size => exact h.setValue hKey name type data size
  | setCurrentUser name => exact h.setCurrentUser name

/-- Keys without parents and children. -/
structure Tree.Bare (t : Tree) : Prop where
  pool : t.keyNext ≤ keyPoolSize
  fresh : ∀ k, t.keyNext ≤ k → t.key k = Key.blank
  bare : ∀ k, ∃ name : Name, name.length ≤ maxKeyName ∧ t.key k = { Key.blank with name := name }

theorem Tree.Bare.allocKey (h : t.Bare) (name : Name) :
    ((t.allocKey name).elim t Prod.fst).Bare := by
  cases halloc : t.allocKey name with
  | none => exact h
  | some r =>
    obtain ⟨t', c⟩ := r
    obtain ⟨rfl, hroom, hnext, hkey, hrest⟩ := allocKey_spec halloc
    change t'.Bare
    refine ⟨by omega, ?_, ?_⟩
    · intro k hk
      rw [hrest k (by omega), h.fresh k (by omega)]
    · intro k
      rcases eq_or_ne k t.keyNext with rfl | hne
      · exact ⟨_, length_take_le _ _, hkey⟩
      · rw [hrest k hne]
        exact h.bare k

theorem Tree.Bare.treeOk (h : t.Bare) (hroots : rootHkcc < t.keyNext) : TreeOk t := by
  have hchildren (k b : ℕ) : (t.key k).children b = [] := by
    obtain ⟨name, -, heq⟩ := h.bare k
    rw [heq]
    rfl
  have hparent (k : ℕ) : (t.key k).parent = none := by
    obtain ⟨name, -, heq⟩ := h.bare k
    rw [heq]
    rfl
  have hmem {P : Prop} {p b c : ℕ} (hc : c ∈ (t.key p).children b) : P := by
    rw [hchildren] at hc
    cases hc
  refine ⟨⟨fun p b c => hmem, fun p b c => hmem, fun p b c => hmem, fun p b c => hmem⟩, h.pool,
    hroots, fun k _ => hparent k, h.fresh, ?_, fun p b c => hmem, ?_, ?_, ?_, ?_⟩
  · intro k
    obtain ⟨name, hlen, heq⟩ := h.bare k
    rw [heq]
    exact hlen
  · intro p b
    rw [hchildren]
    exact nodup_nil
  · rintro p c c' ⟨b, hc⟩
    exact hmem hc
  · intro p
    obtain ⟨name, -, heq⟩ := h.bare p
    rw [heq]
    exact linkedCount_empty.symm
  · intro p c _ hpar
    rw [hparent] at hpar
    cases hpar

theorem rootKeys_bare : State.rootKeys.Bare := by
  unfold State.rootKeys
  refine foldlRecOn _ _ ?_ (fun t ht name _ => ht.allocKey name)
  exact ⟨Nat.zero_le _, fun _ _ => rfl, fun _ => ⟨[], Nat.zero_le _, rfl⟩⟩

theorem rootKeys_treeOk : TreeOk State.rootKeys := rootKeys_bare.treeOk (by decide)

theorem initTree_treeOk : TreeOk State.initTree := by
  have hcreate {t : Tree} (h : TreeOk t) {p : ℕ} (hp : p ≤ rootHkcc) {name : Name}
      (hlen : name.length ≤ maxKeyName) : TreeOk (t.createChild p name).1 :=
    (createChild_spec h (Nat.lt_of_le_of_lt hp h.roots) hlen).1
  have h₁ := @hcreate _ rootKeys_treeOk rootHklm (by decide) (ascii "SYSTEM") (by decide)
  obtain ⟨h₂, -, hchild⟩ := @createChild_spec (ascii "SOFTWARE") _ h₁ rootHklm
    (Nat.lt_of_le_of_lt (by decide) h₁.roots) (by decide)
  have h₃ := @createChild_spec (ascii "HARDWARE") _ h₂ rootHklm
    (Nat.lt_of_le_of_lt (by decide) h₂.roots) (by decide)
  unfold State.initTree
  dsimp only
  refine hcreate ?_ (by decide) (by decide)
  split
  · exact h₃.1
  · rename_i sw heq
    have hlt := (hchild sw heq).1.elim fun b hb => h₂.used _ b sw hb
    exact (createChild_spec h₃.1 (hlt.trans_le h₃.2.1) (by decide)).1

theorem initTree_valuesOk : ValuesOk State.initTree := by
  have hroots : ValuesOk State.rootKeys := by
    refine ⟨fun k => ?_, fun k => ?_, fun k => ?_⟩
    · obtain ⟨name, -, heq⟩ := rootKeys_bare.bare k
      rw [heq]
      rfl
    · obtain ⟨name, -, heq⟩ := rootKeys_bare.bare k
      rw [heq]
      exact nofun
    · obtain ⟨name, -, heq⟩ := rootKeys_bare.bare k
      rw [heq]
      rfl
  have hcreate {t : Tree} (h : ValuesOk t) (p : ℕ) (name : Name) :
      ValuesOk (t.createChild p name).1 := h.keeps (.createChild t p name)
  have h₃ := hcreate (hcreate (hcreate hroots rootHklm (ascii "SYSTEM")) rootHklm
    (ascii "SOFTWARE")) rootHklm (ascii "HARDWARE")
  unfold State.initTree
  refine hcreate ?_ _ _
  split
  · exact h₃
  · exact hcreate h₃ _ _

theorem init_stateOk : StateOk State.init := by
  refine ⟨initTree_treeOk, initTree_valuesOk, ?_, by decide⟩
  intro slot hd k hslot
  cases hslot

theorem apply_run (ops : List RegOp) : StateOk (ops.foldl State.apply State.init) :=
  foldlRecOn _ _ init_stateOk fun _ h op _ => h.apply op

/-- The tree is well linked, and the cache gives the answers of the tree. -/
structure Coherent (s : State) : Prop where
  /-- A live child is linked once: in one chain of one key, that of its present name. -/
  once : ∀ p c, (s.tree.key c).name ≠ [] → (s.tree.key c).parent = some p →
    ((s.tree.key p).children (bucket (s.tree.key c).name)).count c = 1 ∧
      ∀ q b, c ∈ (s.tree.key q).children b → q = p ∧ b = bucket (s.tree.key c).name
  linked : ∀ p c, s.tree.Child p c → (s.tree.key c).parent = some p ∧
    c ∈ (s.tree.key p).children (bucket (s.tree.key c).name)
  count : ∀ p, (s.tree.key p).childCount = linkedCount (s.tree.key p).children
  siblings : ∀ p c c', s.tree.Child p c → s.tree.Child p c' →
    stricmp (s.tree.key c).name (s.tree.key c').name = 0 → c = c'
  hit : ∀ p name c, (s.kcbLookup p name).2 = some c → s.tree.findChild p name = some c
  walk : ∀ start path, (s.walkPath start path false).2 = s.tree.walk start path
  /-- A path does not lead to a key that is gone. -/
  live : ∀ start path k, (s.walkPath start path false).2 = some k → k ≠ start →
    ∃ p, s.tree.Child p k ∧ (s.tree.key k).name ≠ []

theorem componentsFrom_ne_nil {fuel : ℕ} {p component : Name}
    (h : some component ∈ componentsFrom fuel p) : component ≠ [] := by
  induction fuel generalizing p with
  | zero => cases h
  | succ fuel ih =>
    rw [componentsFrom] at h
    split at h
    · simp at h
    split at h
    · cases h
    rename_i hne
    rcases mem_cons.mp h with hcomp | h
    · cases hcomp
      exact hne
    · exact ih h

theorem walkFrom_live (h : TreeOk t) {steps : List (Option Name)} {cur k : ℕ}
    (hsteps : ∀ c, some c ∈ steps → c ≠ []) (hk : t.walkFrom steps cur = some k) (hne : k ≠ cur) :
    ∃ p, t.Child p k ∧ (t.key k).name ≠ [] := by
  induction steps generalizing cur with
  | nil =>
    cases hk
    exact absurd rfl hne
  | cons step rest ih =>
    cases step with
    | none => cases hk
    | some component =>
      obtain ⟨c, hc, hk⟩ := bind_eq_some_iff.mp hk
      obtain ⟨hchild, hname⟩ := h.findChild_some.mp hc
      rcases eq_or_ne k c with rfl | hkc
      · refine ⟨cur, hchild, ?_⟩
        intro hnil
        rw [hnil] at hname
        exact hsteps component mem_cons_self (stricmp_nil (stricmp_symm hname))
      · exact ih (fun c' hc' => hsteps c' (mem_cons_of_mem _ hc')) hk hkc

theorem StateOk.coherent (h : StateOk s) : Coherent s := by
  refine ⟨?_, ?_, h.tree.count, h.tree.siblings, ?_, ?_, ?_⟩
  · intro p c hname hparent
    have hmem := h.tree.named p c hname hparent
    refine ⟨count_eq_one_of_mem (h.tree.nodup p _) hmem, ?_⟩
    intro q b hq
    have hpar := h.tree.parent q b c hq
    rw [hparent] at hpar
    exact ⟨(some.inj hpar).symm, (h.tree.bucket_eq q b c hq).symm⟩
  · intro p c hc
    exact ⟨h.tree.child_parent hc, h.tree.child_mem hc⟩
  · intro p name c hhit
    exact kcbLookup_some h.tree hhit
  · intro start path
    exact (walkPath_spec h.tree start path).2
  · intro start path k hk hne
    rw [(walkPath_spec h.tree start path).2] at hk
    exact walkFrom_live h.tree (fun _ hc => componentsFrom_ne_nil hc) hk hne

/-- After any calls since the start, the tree is well linked and a path resolved through the cache
leads where the chains lead. -/
theorem registry_run (ops : List RegOp) : Coherent (ops.foldl State.apply State.init) :=
  (apply_run ops).coherent

end ImpossibleOs.Registry
