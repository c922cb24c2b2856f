import ImpossibleOs.Registry.Tree
import Mathlib.Algebra.BigOperators.Group.Finset.Piecewise

/-!
What the operations on the key tree keep.

Every child is linked once, in the chain of its present name; a key with a name
is linked under its parent. A child comes later in the pool than its parent,
which is what makes the recursions over the tree end.
-/

namespace ImpossibleOs.Registry

open Function List

def Tree.Child (t : Tree) (p c : ℕ) : Prop := ∃ b, c ∈ (t.key p).children b

/-- How many keys hang in the chains of a key. -/
def linkedCount (children : ℕ → List ℕ) : ℕ :=
  ∑ b ∈ Finset.range childBuckets, (children b).length

/-- The shape of the tree, also while a subtree is being taken down. -/
structure Tree.Ordered (t : Tree) : Prop where
  later : ∀ p b c, c ∈ (t.key p).children b → p < c
  used : ∀ p b c, c ∈ (t.key p).children b → c < t.keyNext
  parent : ∀ p b c, c ∈ (t.key p).children b → (t.key c).parent = some p
  chain : ∀ p b c, c ∈ (t.key p).children b → b < childBuckets

structure TreeOk (t : Tree) : Prop extends t.Ordered where
  pool : t.keyNext ≤ keyPoolSize
  roots : rootHkcc < t.keyNext
  root : ∀ k, k ≤ rootHkcc → (t.key k).parent = none
  fresh : ∀ k, t.keyNext ≤ k → t.key k = Key.blank
  short : ∀ k, (t.key k).name.length ≤ maxKeyName
  bucket_eq : ∀ p b c, c ∈ (t.key p).children b → bucket (t.key c).name = b
  nodup : ∀ p b, ((t.key p).children b).Nodup
  siblings : ∀ p c c', t.Child p c → t.Child p c' →
    stricmp (t.key c).name (t.key c').name = 0 → c = c'
  count : ∀ p, (t.key p).childCount = linkedCount (t.key p).children
  /-- A key that has a name and a parent is linked there. -/
  named : ∀ p c, (t.key c).name ≠ [] → (t.key c).parent = some p →
    c ∈ (t.key p).children (bucket (t.key c).name)

namespace TreeOk

variable {t : Tree}

section

variable (h : TreeOk t)
include h

theorem child_parent {p c : ℕ} (hc : t.Child p c) : (t.key c).parent = some p :=
  hc.elim fun b hb => h.parent p b c hb

theorem child_mem {p c : ℕ} (hc : t.Child p c) :
    c ∈ (t.key p).children (bucket (t.key c).name) := by
  obtain ⟨b, hb⟩ := hc
  rwa [h.bucket_eq p b c hb]

theorem parent_lt {p b c : ℕ} (hc : c ∈ (t.key p).children b) : p < t.keyNext :=
  (h.later p b c hc).trans (h.used p b c hc)

/-! ### Finding a child -/

theorem findChild_some {p c : ℕ} {name : Name} :
    t.findChild p name = some c ↔ t.Child p c ∧ stricmp (t.key c).name name = 0 := by
  constructor
  · intro hf
    refine ⟨⟨_, mem_of_find?_eq_some hf⟩, ?_⟩
    simpa using List.find?_some hf
  · rintro ⟨hc, hname⟩
    have hmem : c ∈ (t.key p).children (bucket name) := by
      rw [← bucket_congr hname]
      exact h.child_mem hc
    cases hf : t.findChild p name with
    | none =>
      have := List.find?_eq_none.mp hf c hmem
      simp [hname] at this
    | some c' =>
      have hc' : t.Child p c' := ⟨_, mem_of_find?_eq_some hf⟩
      have hname' : stricmp (t.key c').name name = 0 := by simpa using List.find?_some hf
      rw [h.siblings p c' c hc' hc (stricmp_trans hname' (stricmp_symm hname))]

theorem findChild_none {p : ℕ} {name : Name} (hf : t.findChild p name = none)
    {c : ℕ} (hc : t.Child p c) : stricmp (t.key c).name name ≠ 0 := by
  intro hname
  rw [h.findChild_some.mpr ⟨hc, hname⟩] at hf
  cases hf

end

end TreeOk

def Tree.Attached (t : Tree) (k : ℕ) : Prop := ∀ p, (t.key k).parent = some p → t.Child p k

namespace TreeOk

variable {t : Tree} (h : TreeOk t)
include h

theorem attached_root {k : ℕ} (hk : k ≤ rootHkcc) : t.Attached k := by
  intro p hp
  rw [h.root k hk] at hp
  cases hp

theorem attached_named {k : ℕ} (hk : (t.key k).name ≠ []) : t.Attached k :=
  fun p hp => ⟨_, h.named p k hk hp⟩

theorem attached_child {p k : ℕ} (hk : t.Child p k) : t.Attached k := by
  intro q hq
  rw [h.child_parent hk] at hq
  cases hq
  exact hk

end TreeOk

/-- Only the values of the keys are other ones. -/
structure Tree.SameKeys (t t' : Tree) : Prop where
  keyNext : t'.keyNext = t.keyNext
  name : ∀ k, (t'.key k).name = (t.key k).name
  parent : ∀ k, (t'.key k).parent = (t.key k).parent
  children : ∀ k, (t'.key k).children = (t.key k).children
  childCount : ∀ k, (t'.key k).childCount = (t.key k).childCount
  fresh : ∀ k, t.keyNext ≤ k → t'.key k = t.key k

theorem Tree.SameKeys.trans {t t' t'' : Tree} (h : t.SameKeys t') (h' : t'.SameKeys t'') :
    t.SameKeys t'' := by
  refine ⟨h'.keyNext.trans h.keyNext, fun k => (h'.name k).trans (h.name k),
    fun k => (h'.parent k).trans (h.parent k), fun k => (h'.children k).trans (h.children k),
    fun k => (h'.childCount k).trans (h.childCount k), ?_⟩
  intro k hk
  exact (h'.fresh k (h.keyNext ▸ hk)).trans (h.fresh k hk)

theorem TreeOk.sameKeys {t t' : Tree} (h : TreeOk t) (hs : t.SameKeys t') : TreeOk t' := by
  have hchild {p c : ℕ} (hc : t'.Child p c) : t.Child p c := by
    obtain ⟨b, hb⟩ := hc
    exact ⟨b, hs.children p ▸ hb⟩
  refine ⟨⟨?_, ?_, ?_, ?_⟩, ?_, ?_, ?_, ?_, ?_, ?_, ?_, ?_, ?_, ?_⟩
  · intro p b c hc
    exact h.later p b c (hs.children p ▸ hc)
  · intro p b c hc
    rw [hs.keyNext]
    exact h.used p b c (hs.children p ▸ hc)
  · intro p b c hc
    rw [hs.parent]
    exact h.parent p b c (hs.children p ▸ hc)
  · intro p b c hc
    exact h.chain p b c (hs.children p ▸ hc)
  · rw [hs.keyNext]
    exact h.pool
  · rw [hs.keyNext]
    exact h.roots
  · intro k hk
    rw [hs.parent]
    exact h.root k hk
  · intro k hk
    rw [hs.keyNext] at hk
    rw [hs.fresh k hk, h.fresh k hk]
  · intro k
    rw [hs.name]
    exact h.short k
  · intro p b c hc
    rw [hs.name]
    exact h.bucket_eq p b c (hs.children p ▸ hc)
  · intro p b
    rw [hs.children]
    exact h.nodup p b
  · intro p c c' hc hc' hname
    rw [hs.name, hs.name] at hname
    exact h.siblings p c c' (hchild hc) (hchild hc') hname
  · intro p
    rw [hs.childCount, h.count, hs.children]
  · intro p c hname hparent
    rw [hs.name] at hname ⊢
    rw [hs.parent] at hparent
    rw [hs.children]
    exact h.named p c hname hparent

theorem setKey_sameKeys {t : Tree} {k : ℕ} (hk : k < t.keyNext) {key : Key}
    (hname : key.name = (t.key k).name) (hparent : key.parent = (t.key k).parent)
    (hchildren : key.children = (t.key k).children)
    (hcount : key.childCount = (t.key k).childCount) : t.SameKeys (t.setKey k key) := by
  refine ⟨rfl, ?_, ?_, ?_, ?_, ?_⟩
  · intro x
    rcases eq_or_ne x k with rfl | hx <;> simp [*]
  · intro x
    rcases eq_or_ne x k with rfl | hx <;> simp [*]
  · intro x
    rcases eq_or_ne x k with rfl | hx <;> simp [*]
  · intro x
    rcases eq_or_ne x k with rfl | hx <;> simp [*]
  · intro x hx
    have hxk : x ≠ k := by omega
    simp [hxk]

/-! ### Values of the keys -/

structure ValueOk (v : Value) : Prop where
  name : v.name.length ≤ maxValueName
  size : v.dataSize ≤ maxValueSize

/-- The values of every key are counted and fit their slots, and no key is a link. -/
structure ValuesOk (t : Tree) : Prop where
  count : ∀ k, (t.key k).valueCount = (t.key k).values.length
  fits : ∀ k, ∀ v ∈ (t.key k).values, ValueOk v
  noLink : ∀ k, (t.key k).isLink = false

/-- Every key has the values it had, or none, and is a link only if it was one. -/
def Tree.KeepsValues (t t' : Tree) : Prop :=
  ∀ k, (((t'.key k).values = (t.key k).values ∧ (t'.key k).valueCount = (t.key k).valueCount) ∨
    ((t'.key k).values = [] ∧ (t'.key k).valueCount = 0)) ∧
      ((t.key k).isLink = false → (t'.key k).isLink = false)

theorem ValuesOk.keeps {t t' : Tree} (h : ValuesOk t) (hk : t.KeepsValues t') : ValuesOk t' := by
  refine ⟨?_, ?_, fun k => (hk k).2 (h.noLink k)⟩
  · intro k
    rcases (hk k).1 with ⟨hv, hc⟩ | ⟨hv, hc⟩
    · rw [hv, hc]
      exact h.count k
    · rw [hv, hc]
      rfl
  · intro k
    rcases (hk k).1 with ⟨hv, -⟩ | ⟨hv, -⟩
    · rw [hv]
      exact h.fits k
    · rw [hv]
      exact nofun

namespace Tree.KeepsValues

theorem of_eq {t t' : Tree} (h : t'.key = t.key) : t.KeepsValues t' :=
  fun k => by rw [h]; exact ⟨.inl ⟨rfl, rfl⟩, id⟩

theorem trans {t t' t'' : Tree} (h : t.KeepsValues t') (h' : t'.KeepsValues t'') :
    t.KeepsValues t'' := by
  intro k
  refine ⟨?_, fun hl => (h' k).2 ((h k).2 hl)⟩
  rcases (h' k).1 with ⟨hv, hc⟩ | hnone
  · rw [hv, hc]
    exact (h k).1
  · exact .inr hnone

theorem setKey {t : Tree} {k : ℕ} {key : Key} (hv : key.values = (t.key k).values)
    (hc : key.valueCount = (t.key k).valueCount)
    (hl : (t.key k).isLink = false → key.isLink = false) : t.KeepsValues (t.setKey k key) := by
  intro x
  rcases eq_or_ne x k with rfl | hx
  · rw [setKey_self]
    exact ⟨.inl ⟨hv, hc⟩, hl⟩
  · rw [setKey_of_ne _ _ hx]
    exact ⟨.inl ⟨rfl, rfl⟩, id⟩

theorem freeValues (t : Tree) (k : ℕ) : t.KeepsValues (t.freeValues k) := by
  intro x
  rcases eq_or_ne x k with rfl | hx
  · rw [Tree.freeValues, setKey_self]
    exact ⟨.inr ⟨rfl, rfl⟩, id⟩
  · rw [Tree.freeValues, setKey_of_ne _ _ hx]
    exact ⟨.inl ⟨rfl, rfl⟩, id⟩

theorem addChild (t : Tree) (p c : ℕ) : t.KeepsValues (t.addChild p c) := by
  unfold Tree.addChild
  refine trans (setKey ?_ ?_ ?_) (setKey ?_ ?_ ?_) <;> first | rfl | exact id

theorem removeChild (t : Tree) (p c : ℕ) : t.KeepsValues (t.removeChild p c) := by
  unfold Tree.removeChild
  dsimp only
  split
  · refine trans (setKey ?_ ?_ ?_) (setKey ?_ ?_ ?_) <;> first | rfl | exact id
  · exact of_eq rfl

theorem detach (t : Tree) (k : ℕ) : t.KeepsValues (t.detach k) := by
  unfold Tree.detach
  split
  · exact of_eq rfl
  · exact removeChild _ _ _

theorem tombstone (t : Tree) (k : ℕ) : t.KeepsValues (t.tombstone k) :=
  setKey rfl rfl fun _ => rfl

theorem rename (t : Tree) (k : ℕ) (name : Name) : t.KeepsValues (t.rename k name) :=
  setKey rfl rfl id

theorem createChild (t : Tree) (p : ℕ) (name : Name) : t.KeepsValues (t.createChild p name).1 := by
  unfold Tree.createChild
  split
  · exact of_eq rfl
  split
  · exact of_eq rfl
  · rename_i t₁ c halloc
    refine trans ?_ (addChild t₁ p c)
    unfold Tree.allocKey at halloc
    split at halloc
    · cases halloc
    cases halloc
    intro x
    rcases eq_or_ne x t.keyNext with rfl | hx
    · simp [Key.blank]
    · simp [hx]

end Tree.KeepsValues

/-! ### Linking and unlinking -/

theorem linkedCount_update (children : ℕ → List ℕ) {b : ℕ} (hb : b < childBuckets) (l : List ℕ) :
    linkedCount (update children b l) + (children b).length =
      linkedCount children + l.length := by
  have hmem : b ∈ Finset.range childBuckets := Finset.mem_range.mpr hb
  have hrest : ∑ x ∈ (Finset.range childBuckets).erase b,
      (update children b l x).length =
        ∑ x ∈ (Finset.range childBuckets).erase b, (children x).length := by
    apply Finset.sum_congr rfl
    intro x hx
    rw [update_of_ne (Finset.ne_of_mem_erase hx)]
  unfold linkedCount
  rw [← Finset.add_sum_erase _ (fun x => (update children b l x).length) hmem,
    ← Finset.add_sum_erase _ (fun x => (children x).length) hmem, hrest, update_self]
  omega

variable {p c : ℕ} {name : Name}

theorem TreeOk.link {t t' : Tree} (h : TreeOk t) (hpc : p < c)
    (hroot : rootHkcc < c)
    (hlt : c < t'.keyNext) (hpool : t'.keyNext ≤ keyPoolSize) (hnext : t.keyNext ≤ t'.keyNext)
    (hfresh : ∀ k, t'.keyNext ≤ k → t'.key k = Key.blank)
    (hother : ∀ k, k ≠ p → k ≠ c → t'.key k = t.key k)
    (hp : t'.key p = { t.key p with
      children := update (t.key p).children (bucket name)
        (c :: (t.key p).children (bucket name))
      childCount := (t.key p).childCount + 1 })
    (hname : (t'.key c).name = name) (hshort : name.length ≤ maxKeyName)
    (hparent : (t'.key c).parent = some p)
    (hchildren : (t'.key c).children = (t.key c).children)
    (hcount : (t'.key c).childCount = (t.key c).childCount)
    (hout : ∀ q, ¬ t.Child q c) (hnew : ∀ c', t.Child p c' → stricmp (t.key c').name name ≠ 0) :
    TreeOk t' := by
  have hne : p ≠ c := hpc.ne
  -- the chains of every key: as before, but for the one that has got `c`
  have hchains (q b : ℕ) : (t'.key q).children b =
      if q = p ∧ b = bucket name then c :: (t.key p).children b else (t.key q).children b := by
    rcases eq_or_ne q p with rfl | hq
    · rw [hp]
      rcases eq_or_ne b (bucket name) with rfl | hb
      · simp
      · simp [hb]
    · rw [if_neg fun hcon => hq hcon.1]
      rcases eq_or_ne q c with rfl | hqc
      · rw [hchildren]
      · rw [hother q hq hqc]
  have hmem {q b x : ℕ} (hx : x ∈ (t'.key q).children b) :
      (q = p ∧ b = bucket name ∧ x = c) ∨ (x ∈ (t.key q).children b ∧ x ≠ c) := by
    rw [hchains] at hx
    have hold : x ∈ (t.key q).children b → x ≠ c := fun hx hcon => hout q ⟨b, hcon ▸ hx⟩
    split at hx
    · rename_i hq
      obtain ⟨rfl, rfl⟩ := hq
      rcases mem_cons.mp hx with rfl | hx
      · exact .inl ⟨rfl, rfl, rfl⟩
      · exact .inr ⟨hx, hold hx⟩
    · exact .inr ⟨hx, hold hx⟩
  have hkeep {q b x : ℕ} (hx : x ∈ (t.key q).children b) : x ∈ (t'.key q).children b := by
    rw [hchains]
    split
    · rename_i hq
      rw [← hq.1]
      exact mem_cons_of_mem _ hx
    · exact hx
  have hnameOf {x : ℕ} (hx : x ≠ c) : (t'.key x).name = (t.key x).name := by
    rcases eq_or_ne x p with rfl | hxp
    · rw [hp]
    · rw [hother x hxp hx]
  have hparentOf {x : ℕ} (hx : x ≠ c) : (t'.key x).parent = (t.key x).parent := by
    rcases eq_or_ne x p with rfl | hxp
    · rw [hp]
    · rw [hother x hxp hx]
  refine ⟨⟨?_, ?_, ?_, ?_⟩, hpool, h.roots.trans_le hnext, ?_, hfresh, ?_, ?_, ?_, ?_, ?_, ?_⟩
  · intro q b x hx
    rcases hmem hx with ⟨rfl, rfl, rfl⟩ | ⟨hx, -⟩
    · exact hpc
    · exact h.later q b x hx
  · intro q b x hx
    rcases hmem hx with ⟨rfl, rfl, rfl⟩ | ⟨hx, -⟩
    · exact hlt
    · exact (h.used q b x hx).trans_le hnext
  · intro q b x hx
    rcases hmem hx with ⟨rfl, rfl, rfl⟩ | ⟨hx, hxc⟩
    · exact hparent
    · rw [hparentOf hxc]
      exact h.parent q b x hx
  · intro q b x hx
    rcases hmem hx with ⟨rfl, rfl, rfl⟩ | ⟨hx, -⟩
    · exact bucket_lt name
    · exact h.chain q b x hx
  · intro x hx
    rw [hparentOf (by omega)]
    exact h.root x hx
  · intro x
    rcases eq_or_ne x c with rfl | hxc
    · rwa [hname]
    · rw [hnameOf hxc]
      exact h.short x
  · intro q b x hx
    rcases hmem hx with ⟨rfl, rfl, rfl⟩ | ⟨hx, hxc⟩
    · rw [hname]
    · rw [hnameOf hxc]
      exact h.bucket_eq q b x hx
  · intro q b
    rw [hchains]
    split
    · refine nodup_cons.mpr ⟨fun hcon => hout p ⟨b, hcon⟩, h.nodup p b⟩
    · exact h.nodup q b
  · intro q x y ⟨b, hx⟩ ⟨b', hy⟩ heq
    rcases hmem hx with ⟨rfl, rfl, rfl⟩ | ⟨hx, hxc⟩
    · rcases hmem hy with ⟨-, -, rfl⟩ | ⟨hy, hyc⟩
      · rfl
      · rw [hname, hnameOf hyc] at heq
        exact absurd (stricmp_symm heq) (hnew y ⟨b', hy⟩)
    · rcases hmem hy with ⟨rfl, rfl, rfl⟩ | ⟨hy, hyc⟩
      · rw [hname, hnameOf hxc] at heq
        exact absurd heq (hnew x ⟨b, hx⟩)
      · rw [hnameOf hxc, hnameOf hyc] at heq
        exact h.siblings q x y ⟨b, hx⟩ ⟨b', hy⟩ heq
  · intro q
    rcases eq_or_ne q p with rfl | hq
    · have hlinked := linkedCount_update (t.key q).children (bucket_lt name)
        (c :: (t.key q).children (bucket name))
      rw [length_cons] at hlinked
      rw [hp]
      dsimp only
      rw [h.count]
      omega
    · rcases eq_or_ne q c with rfl | hqc
      · rw [hcount, h.count, hchildren]
      · rw [hother q hq hqc]
        exact h.count q
  · intro q x hxname hxparent
    rcases eq_or_ne x c with rfl | hxc
    · rw [hparent] at hxparent
      cases hxparent
      rw [hname, hchains, if_pos ⟨rfl, rfl⟩]
      exact mem_cons_self
    · rw [hnameOf hxc] at hxname ⊢
      rw [hparentOf hxc] at hxparent
      exact hkeep (h.named q x hxname hxparent)

theorem addChild_key (t : Tree) (hne : p ≠ c) :
    (t.addChild p c).key p = { t.key p with
        children := update (t.key p).children (bucket (t.key c).name)
          (c :: (t.key p).children (bucket (t.key c).name))
        childCount := (t.key p).childCount + 1 } ∧
      (t.addChild p c).key c = { t.key c with parent := some p } ∧
      ∀ k, k ≠ p → k ≠ c → (t.addChild p c).key k = t.key k := by
  refine ⟨?_, ?_, ?_⟩
  · simp [Tree.addChild, hne]
  · simp [Tree.addChild, hne.symm]
  · intro k hkp hkc
    simp [Tree.addChild, hkp, hkc]

theorem removeChild_key {t : Tree} (hne : p ≠ c)
    (hc : c ∈ (t.key p).children (bucket (t.key c).name)) :
    (t.removeChild p c).key p = { t.key p with
        children := update (t.key p).children (bucket (t.key c).name)
          (((t.key p).children (bucket (t.key c).name)).erase c)
        childCount := (t.key p).childCount - 1 } ∧
      (t.removeChild p c).key c = { t.key c with parent := none } ∧
      ∀ k, k ≠ p → k ≠ c → (t.removeChild p c).key k = t.key k := by
  refine ⟨?_, ?_, ?_⟩
  · simp [Tree.removeChild, hc, hne]
  · simp [Tree.removeChild, hc, hne.symm]
  · intro k hkp hkc
    simp [Tree.removeChild, hc, hkp, hkc]

theorem addChild_keyNext (t : Tree) (p c : ℕ) : (t.addChild p c).keyNext = t.keyNext := rfl

theorem removeChild_keyNext (t : Tree) (p c : ℕ) : (t.removeChild p c).keyNext = t.keyNext := by
  unfold Tree.removeChild
  dsimp only
  split <;> rfl

theorem allocKey_spec {t t' : Tree} {c : ℕ} (heq : t.allocKey name = some (t', c)) :
    c = t.keyNext ∧ t.keyNext < keyPoolSize ∧ t'.keyNext = t.keyNext + 1 ∧
      t'.key c = { Key.blank with name := name.take maxKeyName } ∧
      ∀ k, k ≠ c → t'.key k = t.key k := by
  unfold Tree.allocKey at heq
  split at heq
  · cases heq
  rename_i hroom
  cases heq
  refine ⟨rfl, Nat.not_le.mp hroom, rfl, ?_, ?_⟩
  · exact Tree.setKey_self ..
  · intro k hk
    exact Tree.setKey_of_ne _ _ hk

theorem TreeOk.fresh_no_child {t : Tree} (h : TreeOk t) {c : ℕ} (hc : t.keyNext ≤ c) (q : ℕ) :
    ¬ t.Child q c := by
  rintro ⟨b, hb⟩
  have := h.used q b c hb
  omega

theorem createChild_spec {t : Tree} (h : TreeOk t) {p : ℕ} (hp : p < t.keyNext)
    (hshort : name.length ≤ maxKeyName) :
    TreeOk (t.createChild p name).1 ∧ t.keyNext ≤ (t.createChild p name).1.keyNext ∧
      ∀ c, (t.createChild p name).2 = some c → (t.createChild p name).1.Child p c ∧
          stricmp ((t.createChild p name).1.key c).name name = 0 := by
  unfold Tree.createChild
  split
  · rename_i c hf
    refine ⟨h, le_refl _, ?_⟩
    rintro c ⟨⟩
    exact h.findChild_some.mp hf
  · rename_i hnone
    split
    · exact ⟨h, le_refl _, nofun⟩
    · rename_i t₁ c halloc
      obtain ⟨rfl, hroom, hnext, hkey, hrest⟩ := allocKey_spec halloc
      rw [take_of_length_le hshort] at hkey
      have hne : p ≠ t.keyNext := hp.ne
      obtain ⟨hap, hac, hother⟩ := addChild_key t₁ hne
      have hname : (t₁.key t.keyNext).name = name := by rw [hkey]
      have hblank := h.fresh t.keyNext (le_refl _)
      rw [hname, hrest p hne] at hap
      rw [hkey] at hac
      refine ⟨?_, ?_, ?_⟩
      · refine h.link hp h.roots ?_ ?_ ?_ ?_ ?_ hap ?_ hshort ?_ ?_ ?_
          (h.fresh_no_child (le_refl _)) (fun c' hc' => h.findChild_none hnone hc')
        · rw [addChild_keyNext, hnext]
          omega
        · rw [addChild_keyNext, hnext]
          omega
        · rw [addChild_keyNext, hnext]
          omega
        · intro k hk
          rw [addChild_keyNext, hnext] at hk
          rw [hother k (by omega) (by omega), hrest k (by omega)]
          exact h.fresh k (by omega)
        · intro k hkp hkc
          rw [hother k hkp hkc, hrest k hkc]
        · rw [hac]
        · rw [hac]
        · rw [hac, hblank]
        · rw [hac, hblank]
      · rw [addChild_keyNext, hnext]
        omega
      · rintro c ⟨⟩
        refine ⟨⟨bucket name, ?_⟩, ?_⟩
        · rw [hap]
          simp
        · rw [hac]
          exact stricmp_self name

theorem TreeOk.unlink {t : Tree} (h : TreeOk t) (hc : t.Child p c) :
    TreeOk (t.removeChild p c) ∧ (∀ q, ¬ (t.removeChild p c).Child q c) ∧
      ∀ q x, (t.removeChild p c).Child q x → t.Child q x := by
  have hmem := h.child_mem hc
  have hne : p ≠ c := (h.later p _ c hmem).ne
  obtain ⟨hp, hcKey, hother⟩ := removeChild_key hne hmem
  set t' := t.removeChild p c with ht'
  have hnext : t'.keyNext = t.keyNext := removeChild_keyNext t p c
  have hchains {q b x : ℕ} (hx : x ∈ (t'.key q).children b) : x ∈ (t.key q).children b ∧ x ≠ c := by
    have hparent : x ∈ (t.key q).children b → x = c → q = p := by
      intro hold hxc
      rw [hxc] at hold
      exact Option.some.inj ((h.parent q b c hold).symm.trans (h.child_parent hc))
    rcases eq_or_ne q p with rfl | hq
    · rw [hp] at hx
      dsimp only at hx
      rcases eq_or_ne b (bucket (t.key c).name) with rfl | hb
      · rw [update_self, (h.nodup q _).mem_erase_iff] at hx
        exact ⟨hx.2, hx.1⟩
      · rw [update_of_ne hb] at hx
        refine ⟨hx, ?_⟩
        rintro rfl
        exact hb (h.bucket_eq q b x hx).symm
    · have hx' : x ∈ (t.key q).children b := by
        rcases eq_or_ne q c with rfl | hqc
        · rwa [hcKey] at hx
        · rwa [hother q hq hqc] at hx
      exact ⟨hx', fun hcon => hq (hparent hx' hcon)⟩
  have hkeep {q b x : ℕ} (hx : x ∈ (t.key q).children b) (hxc : x ≠ c) :
      x ∈ (t'.key q).children b := by
    rcases eq_or_ne q p with rfl | hq
    · rw [hp]
      dsimp only
      rcases eq_or_ne b (bucket (t.key c).name) with rfl | hb
      · rw [update_self, (h.nodup q _).mem_erase_iff]
        exact ⟨hxc, hx⟩
      · rwa [update_of_ne hb]
    · rcases eq_or_ne q c with rfl | hqc
      · rwa [hcKey]
      · rwa [hother q hq hqc]
  have hname (x : ℕ) : (t'.key x).name = (t.key x).name := by
    rcases eq_or_ne x p with rfl | hxp
    · rw [hp]
    · rcases eq_or_ne x c with rfl | hxc
      · rw [hcKey]
      · rw [hother x hxp hxc]
  have hparent {x : ℕ} (hxc : x ≠ c) : (t'.key x).parent = (t.key x).parent := by
    rcases eq_or_ne x p with rfl | hxp
    · rw [hp]
    · rw [hother x hxp hxc]
  have hchild {q x : ℕ} (hx : t'.Child q x) : t.Child q x := hx.elim fun b hb => ⟨b, (hchains hb).1⟩
  refine ⟨⟨⟨?_, ?_, ?_, ?_⟩, ?_, ?_, ?_, ?_, ?_, ?_, ?_, ?_, ?_, ?_⟩, ?_,
    fun q x hx => hchild hx⟩
  · exact fun q b x hx => h.later q b x (hchains hx).1
  · intro q b x hx
    rw [hnext]
    exact h.used q b x (hchains hx).1
  · intro q b x hx
    rw [hparent (hchains hx).2]
    exact h.parent q b x (hchains hx).1
  · exact fun q b x hx => h.chain q b x (hchains hx).1
  · rw [hnext]
    exact h.pool
  · rw [hnext]
    exact h.roots
  · intro k hk
    rcases eq_or_ne k c with rfl | hkc
    · rw [hcKey]
    · rw [hparent hkc]
      exact h.root k hk
  · intro k hk
    rw [hnext] at hk
    have hcl := h.used p _ c hmem
    have hpl := h.parent_lt hmem
    rw [hother k (by omega) (by omega)]
    exact h.fresh k hk
  · intro k
    rw [hname]
    exact h.short k
  · intro q b x hx
    rw [hname]
    exact h.bucket_eq q b x (hchains hx).1
  · intro q b
    rcases eq_or_ne q p with rfl | hq
    · rw [hp]
      dsimp only
      rcases eq_or_ne b (bucket (t.key c).name) with rfl | hb
      · rw [update_self]
        exact (h.nodup q _).erase c
      · rw [update_of_ne hb]
        exact h.nodup q b
    · rcases eq_or_ne q c with rfl | hqc
      · rw [hcKey]
        exact h.nodup q b
      · rw [hother q hq hqc]
        exact h.nodup q b
  · intro q x y hx hy heq
    rw [hname, hname] at heq
    exact h.siblings q x y (hchild hx) (hchild hy) heq
  · intro q
    rcases eq_or_ne q p with rfl | hq
    · have hlinked := linkedCount_update (t.key q).children (bucket_lt (t.key c).name)
        (((t.key q).children (bucket (t.key c).name)).erase c)
      have hlen := length_erase_of_mem hmem
      have hpos := length_pos_of_mem hmem
      rw [hp]
      dsimp only
      rw [h.count]
      omega
    · rcases eq_or_ne q c with rfl | hqc
      · rw [hcKey]
        exact h.count q
      · rw [hother q hq hqc]
        exact h.count q
  · intro q x hxname hxparent
    rcases eq_or_ne x c with rfl | hxc
    · rw [hcKey] at hxparent
      cases hxparent
    · rw [hname] at hxname ⊢
      rw [hparent hxc] at hxparent
      exact hkeep (h.named q x hxname hxparent) hxc
  · rintro q ⟨b, hb⟩
    exact (hchains hb).2 rfl

end ImpossibleOs.Registry
