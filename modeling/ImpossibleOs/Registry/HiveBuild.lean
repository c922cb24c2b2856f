import ImpossibleOs.Registry.HiveParse

/-!
Building a tree from the records of a hive.

The records of a key are applied below a key that has no child of that name
yet. They take the next slots of the pool, in their own order, and what they
build there mirrors the part of the old tree that was saved.
-/

namespace ImpossibleOs.Registry

open LeBytes Function List

/-- What a value says. -/
def Value.view (v : Value) : Name × UInt32 × List UInt8 := (v.name, v.type, v.bytes)

def allChildren (T : Tree) (k : ℕ) : List ℕ := (List.range childBuckets).flatMap (T.key k).children

/-- The key `k'` of `T`, whose keys from there on lie in `D`, has the values and the saved children
of the key `k` of `t`, and each child is mirrored by one of the same name. -/
inductive Mirrors (t T : Tree) (D : Set ℕ) : ℕ → ℕ → Prop
  | mk {k k' : ℕ} (ids : List ℕ) (hmem : k' ∈ D)
      (hvalues : ((T.key k').values.map Value.view).Perm ((t.key k).values.map Value.view))
      (hids : (allChildren T k').Perm ids) (hlen : ids.length = (savedChildren t k).length)
      (hname : ∀ q ∈ (savedChildren t k).zip ids, (T.key q.2).name = (t.key q.1).name)
      (hsub : ∀ q ∈ (savedChildren t k).zip ids, Mirrors t T D q.1 q.2) : Mirrors t T D k k'

theorem Mirrors.mem {t T : Tree} {D : Set ℕ} {k k' : ℕ} (h : Mirrors t T D k k') : k' ∈ D := by
  cases h with
  | mk ids hmem => exact hmem

theorem Mirrors.frame {t T T' : Tree} {D D' : Set ℕ} {k k' : ℕ} (h : Mirrors t T D k k')
    (hsub : D ⊆ D') (hsame : ∀ x ∈ D, T'.key x = T.key x) : Mirrors t T' D' k k' := by
  induction h with
  | mk ids hmem hvalues hids hlen hname hmir ih =>
    rename_i k k'
    refine .mk ids (hsub hmem) ?_ ?_ hlen ?_ ih
    · rw [hsame k' hmem]
      exact hvalues
    · rw [allChildren, hsame k' hmem]
      exact hids
    · intro q hq
      rw [hsame q.2 (hmir q hq).mem]
      exact hname q hq

/-! ### Values -/

/-- A value as it is read back. -/
def Value.stored (v : Value) : Value :=
  (⟨v.name, v.type, fun _ => 0, 0⟩ : Value).put v.type (some v.bytes) v.dataSize

theorem stored_view (v : Value) : v.stored.view = v.view := by
  unfold Value.view Value.stored Value.put Value.write
  simp only [Prod.mk.injEq, true_and]
  apply ext_getElem
  · simp [Value.bytes]
  · intro i h₁ h₂
    have hi : i < v.dataSize := by simpa [Value.bytes] using h₁
    simp [Value.bytes, hi]

def Tree.addValue (T : Tree) (q : ℕ) (v : Value) : Tree :=
  let T := { T with valueNext := T.valueNext + 1 }
  T.setKey q { T.key q with
    values := v :: (T.key q).values
    valueCount := (T.key q).valueCount + 1 }

variable {t : Tree} {T : Tree} {levels fuel k : ℕ}

theorem addValue_sameKeys {q : ℕ} (hq : q < T.keyNext) (v : Value) :
    T.SameKeys (T.addValue q v) := by
  have hbump : T.SameKeys { T with valueNext := T.valueNext + 1 } :=
    ⟨rfl, fun _ => rfl, fun _ => rfl, fun _ => rfl, fun _ => rfl, fun _ _ => rfl⟩
  refine hbump.trans ?_
  unfold Tree.addValue
  refine setKey_sameKeys ?_ ?_ ?_ ?_ ?_
  · exact hq
  all_goals rfl

theorem hiveParseValue_new {v : Value} (hv : ValueOk v) {q : ℕ}
    (hnew : findValue (T.key q).values v.name = none) (hroom : T.valueNext < valuePoolSize)
    (rest : List UInt8) (m n l : ℕ) : hiveParseValue (some q) ⟨valueBytes v ++ rest, T, m, n, l⟩ =
      some ⟨rest, T.addValue q v.stored, m, n + 1, l + 1⟩ := by
  have hname := hv.name
  have hsize := hv.size
  have hlen : ofLe (le 2 v.name.length) = v.name.length :=
    ofLe_two (lt_of_le_of_lt hname (by decide))
  have hdata : ofLe (le 4 v.dataSize) = v.dataSize :=
    ofLe_four (lt_of_le_of_lt hsize (by decide))
  have htype : UInt32.ofNat (ofLe (le 4 v.type.toNat)) = v.type := by
    rw [ofLe_four v.type.toNat_lt, UInt32.ofNat_toNat]
  have halloc : T.allocValue v.name v.type =
      some ({ T with valueNext := T.valueNext + 1 }, ⟨v.name, v.type, fun _ => 0, 0⟩) := by
    rw [Tree.allocValue, if_neg (Nat.not_le.mpr hroom), take_of_length_le hname]
  unfold hiveParseValue valueBytes
  simp only [append_assoc, Option.bind_eq_bind, read_append (length_le 2 _),
    Option.bind_some, hlen, if_neg (Nat.not_lt.mpr hname), read_append (length_nameBytes _),
    read_append (length_le 4 _), hdata, if_neg (Nat.not_lt.mpr hsize), cString_nameBytes, hnew,
    htype, halloc, read_append (length_bytes v)]
  rfl

/-- The values `vs` have been added to the key `q`. -/
structure ValuesAdded (T T' : Tree) (q : ℕ) (vs : List Value) : Prop where
  same : T.SameKeys T'
  valueNext : T'.valueNext = T.valueNext + vs.length
  other : ∀ x, x ≠ q → T'.key x = T.key x
  values : (T'.key q).values = (vs.map Value.stored).reverse ++ (T.key q).values

theorem hiveParseValues_new {vs : List Value} (hvs : ∀ v ∈ vs, ValueOk v) {q : ℕ}
    (hq : q < T.keyNext) (hold : ∀ v ∈ vs, ∀ w ∈ (T.key q).values, stricmp w.name v.name ≠ 0)
    (hdistinct : vs.Pairwise fun v w => stricmp v.name w.name ≠ 0)
    (hroom : T.valueNext + vs.length ≤ valuePoolSize) (rest : List UInt8) (m n l : ℕ) :
    ∃ T', times (hiveParseValue (some q)) vs.length ⟨vs.flatMap valueBytes ++ rest, T, m, n, l⟩ =
        some ⟨rest, T', m, n + vs.length, l + vs.length⟩ ∧ ValuesAdded T T' q vs := by
  induction vs generalizing T n l with
  | nil =>
    refine ⟨T, rfl, ⟨rfl, fun _ => rfl, fun _ => rfl, fun _ => rfl, fun _ => rfl, fun _ _ => rfl⟩,
      rfl, fun _ _ => rfl, rfl⟩
  | cons v vs ih =>
    obtain ⟨hv, hrest⟩ := pairwise_cons.mp hdistinct
    rw [length_cons] at hroom
    have hnew : findValue (T.key q).values v.name = none := by
      refine List.find?_eq_none.mpr fun w hw => ?_
      simpa using hold v mem_cons_self w hw
    have hparse := hiveParseValue_new (hvs v mem_cons_self) hnew (by omega)
      (vs.flatMap valueBytes ++ rest) m n l
    have hself : (T.addValue q v.stored).key q = { T.key q with
        values := v.stored :: (T.key q).values
        valueCount := (T.key q).valueCount + 1 } := Tree.setKey_self ..
    have hother {x : ℕ} (hx : x ≠ q) : (T.addValue q v.stored).key x = T.key x :=
      Tree.setKey_of_ne _ _ hx
    obtain ⟨T', htimes, hadded⟩ := @ih (T.addValue q v.stored)
      (fun w hw => hvs w (mem_cons_of_mem _ hw)) hq (by
        intro u hu w hw
        rw [hself] at hw
        rcases mem_cons.mp hw with rfl | hw
        · exact hv u hu
        · exact hold u (mem_cons_of_mem _ hu) w hw) hrest
      (by change T.valueNext + 1 + vs.length ≤ _; omega) (n + 1) (l + 1)
    refine ⟨T', ?_, ?_, ?_, ?_, ?_⟩
    · rw [length_cons, flatMap_cons, append_assoc, times_add _ hparse, htimes]
      congr 2 <;> omega
    · exact (addValue_sameKeys hq v.stored).trans hadded.same
    · rw [hadded.valueNext, length_cons]
      change T.valueNext + 1 + vs.length = _
      omega
    · intro x hx
      rw [hadded.other x hx, hother hx]
    · rw [hadded.values, hself]
      simp

/-! ### Keys -/

/-- The values of the key are told apart by their names. -/
def NamesDistinct (t : Tree) (k : ℕ) : Prop :=
  (t.key k).values.Pairwise fun v w => stricmp v.name w.name ≠ 0

/-- The keys that a save from `root` writes. -/
inductive Saved (t : Tree) (root : ℕ) : ℕ → Prop
  | root : Saved t root root
  | child {k c : ℕ} (hk : Saved t root k) (hc : c ∈ savedChildren t k) : Saved t root c

theorem Saved.of_child {k c d : ℕ} (hc : c ∈ savedChildren t k) (h : Saved t c d) :
    Saved t k d := by
  induction h with
  | root => exact .child .root hc
  | child _ hc' ih => exact .child ih hc'

/-- The keys of the pool from `lo` up to `hi`. -/
def span (lo hi : ℕ) : Set ℕ := {x | lo ≤ x ∧ x < hi}

/-- The keys `ks` of `t` have been built below the key `p`, as `ids`. -/
structure Rebuilt (t T T' : Tree) (p : ℕ) (ks ids : List ℕ) : Prop where
  treeOk : TreeOk T'
  frame : ∀ x, x < T.keyNext → x ≠ p → T'.key x = T.key x
  name : (T'.key p).name = (T.key p).name
  values : (T'.key p).values = (T.key p).values
  children : (allChildren T' p).Perm (ids ++ allChildren T p)
  length : ids.length = ks.length
  names : ∀ q ∈ ks.zip ids, (T'.key q.2).name = (t.key q.1).name
  mirrors : ∀ q ∈ ks.zip ids, Mirrors t T' (span T.keyNext T'.keyNext) q.1 q.2

/-- Applying the records of `ks` below `p` builds them. -/
def Builds (t : Tree) (levels fuel : ℕ) (ks : List ℕ) : Prop :=
  ∀ T p, TreeOk T → p < T.keyNext →
    (∀ k ∈ ks, ∀ c, T.Child p c → stricmp (T.key c).name (t.key k).name ≠ 0) →
    T.keyNext + (ks.map fun c => (hiveCount t fuel c).1).sum ≤ keyPoolSize →
    T.valueNext + (ks.map fun c => (hiveCount t fuel c).2).sum ≤ valuePoolSize →
    ∀ rest m n l, ∃ T' ids, Rebuilt t T T' p ks ids ∧
      T'.keyNext = T.keyNext + (ks.map fun c => (hiveCount t fuel c).1).sum ∧
      T'.valueNext = T.valueNext + (ks.map fun c => (hiveCount t fuel c).2).sum ∧
      times (hiveParseKey levels (some p)) ks.length
          ⟨ks.flatMap (keyBytes t fuel) ++ rest, T, m, n, l⟩ =
        some ⟨rest, T', m + (ks.map fun c => (hiveCount t fuel c).1).sum,
          n + (ks.map fun c => (hiveCount t fuel c).2).sum,
          l + (ks.map fun c => (hiveCount t fuel c).2).sum⟩

theorem mem_allChildren (h : TreeOk T) {p c : ℕ} : c ∈ allChildren T p ↔ T.Child p c := by
  constructor
  · intro hc
    obtain ⟨b, -, hb⟩ := mem_flatMap.mp hc
    exact ⟨b, hb⟩
  · rintro ⟨b, hb⟩
    exact mem_flatMap.mpr ⟨b, mem_range.mpr (h.chain p b c hb), hb⟩

theorem builds_cons {ks : List ℕ} (hk : Builds t levels fuel [k]) (hks : Builds t levels fuel ks)
    (hdistinct : ∀ c ∈ ks, stricmp (t.key k).name (t.key c).name ≠ 0) :
    Builds t levels fuel (k :: ks) := by
  intro T p hT hp hnew hroom hvroom rest m n l
  rw [map_cons, sum_cons] at hroom hvroom
  have hnew₁ : ∀ x ∈ [k], ∀ c, T.Child p c → stricmp (T.key c).name (t.key x).name ≠ 0 := by
    intro x hx
    exact hnew x (mem_cons.mpr (.inl (mem_singleton.mp hx)))
  obtain ⟨T₁, ids₁, h₁, hnext₁, hvnext₁, hparse₁⟩ := hk T p hT hp hnew₁
    (by simp only [map_cons, map_nil, sum_cons, sum_nil]; omega)
    (by simp only [map_cons, map_nil, sum_cons, sum_nil]; omega)
    (ks.flatMap (keyBytes t fuel) ++ rest) m n l
  simp only [map_cons, map_nil, sum_cons, sum_nil, add_zero] at hnext₁
  simp only [map_cons, map_nil, sum_cons, sum_nil, add_zero] at hvnext₁
  simp only [map_cons, map_nil, sum_cons, sum_nil, add_zero,
    flatMap_cons, flatMap_nil, append_nil] at hparse₁
  obtain ⟨id, rfl⟩ : ∃ id, ids₁ = [id] := length_eq_one_iff.mp h₁.length
  have hid := h₁.mirrors (k, id) (by simp)
  have hnew₂ : ∀ x ∈ ks, ∀ c, T₁.Child p c → stricmp (T₁.key c).name (t.key x).name ≠ 0 := by
    intro x hx c hc
    have hmem := h₁.children.mem_iff.mp ((mem_allChildren h₁.treeOk).mpr hc)
    rcases mem_append.mp hmem with hc' | hc'
    · rw [mem_singleton.mp hc', h₁.names (k, id) (by simp)]
      exact hdistinct x hx
    · have hold := (mem_allChildren hT).mp hc'
      obtain ⟨b, hb⟩ := hold
      rw [h₁.frame c (hT.used p b c hb) (hT.later p b c hb).ne']
      exact hnew x (mem_cons_of_mem _ hx) c ⟨b, hb⟩
  obtain ⟨T', ids, h₂, hnext₂, hvnext₂, hparse₂⟩ := hks T₁ p h₁.treeOk (by omega) hnew₂
    (by omega) (by omega) rest (m + (hiveCount t fuel k).1) (n + (hiveCount t fuel k).2)
    (l + (hiveCount t fuel k).2)
  have hspan : span T.keyNext T₁.keyNext ⊆ span T.keyNext T'.keyNext := by
    intro x hx
    have := hx.1
    have := hx.2
    exact ⟨by omega, by omega⟩
  have hspan' : span T₁.keyNext T'.keyNext ⊆ span T.keyNext T'.keyNext := by
    intro x hx
    have := hx.1
    have := hx.2
    exact ⟨by omega, by omega⟩
  have hkeep : ∀ x ∈ span T.keyNext T₁.keyNext, T'.key x = T₁.key x := by
    intro x hx
    have := hx.1
    exact h₂.frame x hx.2 (by omega)
  refine ⟨T', id :: ids, ⟨h₂.treeOk, ?_, ?_, ?_, ?_, ?_, ?_, ?_⟩, ?_, ?_, ?_⟩
  · intro x hx hxp
    rw [h₂.frame x (by omega) hxp, h₁.frame x hx hxp]
  · rw [h₂.name, h₁.name]
  · rw [h₂.values, h₁.values]
  · refine h₂.children.trans ?_
    refine (List.Perm.append_left ids h₁.children).trans ?_
    exact perm_middle
  · rw [length_cons, length_cons, h₂.length]
  · intro q hq
    rcases mem_cons.mp hq with rfl | hq
    · rw [hkeep id hid.mem]
      exact h₁.names (k, id) (by simp)
    · exact h₂.names q hq
  · intro q hq
    rcases mem_cons.mp hq with rfl | hq
    · exact hid.frame hspan hkeep
    · exact (h₂.mirrors q hq).frame hspan' fun _ _ => rfl
  · rw [map_cons, sum_cons]
    omega
  · rw [map_cons, sum_cons]
    omega
  · have hstep : hiveParseKey levels (some p)
        ⟨keyBytes t fuel k ++ (ks.flatMap (keyBytes t fuel) ++ rest), T, m, n, l⟩ =
          some ⟨ks.flatMap (keyBytes t fuel) ++ rest, T₁, m + (hiveCount t fuel k).1,
            n + (hiveCount t fuel k).2, l + (hiveCount t fuel k).2⟩ := by
      have := hparse₁
      rw [length_singleton, times] at this
      obtain ⟨c, hc, heq⟩ := Option.bind_eq_some_iff.mp this
      rw [hc]
      exact heq
    rw [length_cons, flatMap_cons, append_assoc, times_add _ hstep, hparse₂]
    simp only [map_cons, sum_cons, add_assoc]

theorem builds_nil (t : Tree) (levels fuel : ℕ) : Builds t levels fuel [] := by
  intro T p hT hp _ _ _ rest m n l
  exact ⟨T, [], ⟨hT, fun _ _ _ => rfl, rfl, rfl, List.Perm.refl _, rfl, nofun, nofun⟩, rfl, rfl,
    rfl⟩

theorem builds_list {levels fuel : ℕ} {ks : List ℕ}
    (h : ∀ k ∈ ks, Builds t levels fuel [k])
    (hdistinct : ks.Pairwise fun k c => stricmp (t.key k).name (t.key c).name ≠ 0) :
    Builds t levels fuel ks := by
  induction ks with
  | nil => exact builds_nil t levels fuel
  | cons k ks ih =>
    obtain ⟨hk, hks⟩ := pairwise_cons.mp hdistinct
    exact builds_cons (h k mem_cons_self)
      (ih (fun c hc => h c (mem_cons_of_mem _ hc)) hks) hk

theorem savedChildren_distinct (h : TreeOk t) (k : ℕ) :
    (savedChildren t k).Pairwise fun c d => stricmp (t.key c).name (t.key d).name ≠ 0 := by
  have hnodup : (allChildren t k).Nodup := by
    refine nodup_flatMap.mpr ⟨fun b _ => h.nodup k b, ?_⟩
    refine List.Pairwise.imp ?_ nodup_range
    intro b b' hne
    rw [onFun, disjoint_left]
    intro c hc hc'
    exact hne ((h.bucket_eq k b c hc).symm.trans (h.bucket_eq k b' c hc'))
  refine List.Pairwise.imp_of_mem ?_ (hnodup.filter _)
  intro c d hc hd hne heq
  exact hne (h.siblings k c d (savedChildren_child hc) (savedChildren_child hd) heq)

theorem flatMap_update_cons {l : List ℕ} (hl : l.Nodup) {b : ℕ} (hb : b ∈ l) (f : ℕ → List ℕ)
    (c : ℕ) : (l.flatMap (update f b (c :: f b))).Perm (c :: l.flatMap f) := by
  induction l with
  | nil => exact absurd hb not_mem_nil
  | cons a l ih =>
    obtain ⟨ha, hl⟩ := nodup_cons.mp hl
    rw [flatMap_cons, flatMap_cons]
    rcases mem_cons.mp hb with rfl | hb
    · have hrest : l.flatMap (update f b (c :: f b)) = l.flatMap f := by
        refine flatMap_congr fun x hx => update_of_ne ?_ ..
        rintro rfl
        exact ha hx
      rw [update_self, hrest, cons_append]
    · have hne : a ≠ b := by
        rintro rfl
        exact ha hb
      rw [update_of_ne hne]
      exact ((ih hl hb).append_left (f a)).trans perm_middle

theorem allChildren_update {T T' : Tree} {p b c : ℕ} (hb : b < childBuckets)
    (h : (T'.key p).children = update (T.key p).children b (c :: (T.key p).children b)) :
    (allChildren T' p).Perm (c :: allChildren T p) := by
  rw [allChildren, h]
  exact flatMap_update_cons nodup_range (mem_range.mpr hb) _ c

theorem allChildren_nil {p : ℕ} (h : (T.key p).children = fun _ => []) :
    allChildren T p = [] := by
  simp [allChildren, h]

/-- `T'` is `T` with a new key of that name below `p`, the next one of the pool. -/
structure ChildMade (T T' : Tree) (p : ℕ) (name : Name) : Prop where
  treeOk : TreeOk T'
  keyNext : T'.keyNext = T.keyNext + 1
  valueNext : T'.valueNext = T.valueNext
  key : T'.key T.keyNext = { Key.blank with name := name, parent := some p }
  other : ∀ x, x ≠ p → x ≠ T.keyNext → T'.key x = T.key x
  name : (T'.key p).name = (T.key p).name
  values : (T'.key p).values = (T.key p).values
  children : (allChildren T' p).Perm (T.keyNext :: allChildren T p)

theorem child_new (hT : TreeOk T) {p : ℕ} (hp : p < T.keyNext) {name : Name}
    (hshort : name.length ≤ maxKeyName) (hroom : T.keyNext < keyPoolSize)
    (hnew : ∀ c, T.Child p c → stricmp (T.key c).name name ≠ 0) (rest : List UInt8) (m n l : ℕ) :
    ∃ T', (⟨rest, T, m, n, l⟩ : Cursor).child p name = some (⟨rest, T', m, n, l⟩, T.keyNext) ∧
      ChildMade T T' p name := by
  have hfind : T.findChild p name = none := by
    refine List.find?_eq_none.mpr fun c hc => ?_
    simpa using hnew c ⟨_, hc⟩
  obtain ⟨T₁, halloc⟩ : ∃ T₁, T.allocKey name = some (T₁, T.keyNext) := by
    rw [Tree.allocKey, if_neg (Nat.not_le.mpr hroom)]
    exact ⟨_, rfl⟩
  have hvnext : T₁.valueNext = T.valueNext := by
    rw [Tree.allocKey, if_neg (Nat.not_le.mpr hroom)] at halloc
    cases halloc
    rfl
  have hcreate : T.createChild p name = (T₁.addChild p T.keyNext, some T.keyNext) := by
    rw [Tree.createChild, hfind]
    dsimp only
    rw [halloc]
  have hok := (createChild_spec hT hp hshort).1
  rw [hcreate] at hok
  obtain ⟨-, -, hnext, hkey, hrest⟩ := allocKey_spec halloc
  rw [take_of_length_le hshort] at hkey
  obtain ⟨hap, hac, hother⟩ := addChild_key T₁ hp.ne
  rw [hrest p hp.ne] at hap
  refine ⟨T₁.addChild p T.keyNext, ?_, hok, hnext, hvnext, ?_, ?_, ?_, ?_, ?_⟩
  · unfold Cursor.child
    dsimp only
    rw [hfind, hcreate]
  · rw [hac, hkey]
  · intro x hxp hxc
    rw [hother x hxp hxc, hrest x hxc]
  · rw [hap]
  · rw [hap]
  · exact allChildren_update (bucket_lt _) (by rw [hap])

theorem builds_key (ht : Savable t) (h : Fuelled t (fuel + 1) k)
    (hvalues : NamesDistinct t k) (hkids : Builds t levels fuel (savedChildren t k)) :
    Builds t (levels + 1) (fuel + 1) [k] := by
  intro T p hT hp hnew hroom hvroom rest m n l
  simp only [map_cons, map_nil, sum_cons, sum_nil, add_zero,
    hiveCount_succ] at hroom hvroom
  obtain ⟨T₁, hchild, h₁⟩ := child_new hT hp (ht.tree.short k) (by omega)
    (hnew k mem_cons_self)
    ((t.key k).values.flatMap valueBytes ++
      ((savedChildren t k).flatMap (keyBytes t fuel) ++ rest)) (m + 1) n l
  have hnext₁ := h₁.keyNext
  have hvnext₁ := h₁.valueNext
  have hkey₁ := h₁.key
  obtain ⟨T₂, hparse₂, h₂⟩ := @hiveParseValues_new T₁ (t.key k).values (ht.values.fits k) T.keyNext
    (by omega) (by simp [hkey₁, Key.blank]) hvalues (by omega)
    ((savedChildren t k).flatMap (keyBytes t fuel) ++ rest) (m + 1) n l
  have hnext₂ := h₂.same.keyNext
  have hvnext₂ := h₂.valueNext
  have hbare : allChildren T₂ T.keyNext = [] := by
    refine allChildren_nil ?_
    rw [h₂.same.children, hkey₁]
    rfl
  have hT₂ := h₁.treeOk.sameKeys h₂.same
  obtain ⟨T₃, ids, h₃, hnext₃, hvnext₃, hparse₃⟩ := hkids T₂ T.keyNext hT₂ (by omega)
    (by
      intro c _ d hd
      have := (mem_allChildren hT₂).mpr hd
      rw [hbare] at this
      exact absurd this not_mem_nil)
    (by omega) (by omega) rest (m + 1) (n + (t.key k).values.length)
    (l + (t.key k).values.length)
  have hp₃ : T₃.key p = T₁.key p := by
    rw [h₃.frame p (by omega) hp.ne, h₂.other p hp.ne]
  refine ⟨T₃, [T.keyNext], ⟨h₃.treeOk, ?_, ?_, ?_, ?_, rfl, ?_, ?_⟩, ?_, ?_, ?_⟩
  · intro x hx hxp
    rw [h₃.frame x (by omega) hx.ne, h₂.other x hx.ne, h₁.other x hxp hx.ne]
  · rw [hp₃, h₁.name]
  · rw [hp₃, h₁.values]
  · rw [allChildren, hp₃]
    exact h₁.children
  · intro q hq
    rw [zip_cons_cons, zip_nil_left] at hq
    rw [mem_singleton.mp hq]
    dsimp only
    rw [h₃.name, h₂.same.name, hkey₁]
  · intro q hq
    rw [zip_cons_cons, zip_nil_left] at hq
    rw [mem_singleton.mp hq]
    refine .mk ids ⟨le_refl _, by omega⟩ ?_ ?_ h₃.length h₃.names ?_
    · rw [h₃.values, h₂.values, hkey₁]
      dsimp only [Key.blank]
      rw [append_nil, map_reverse, map_map]
      refine (reverse_perm _).trans ?_
      rw [show Value.view ∘ Value.stored = Value.view from funext stored_view]
    · have hperm := h₃.children
      rwa [hbare, append_nil] at hperm
    · intro q hq
      refine (h₃.mirrors q hq).frame ?_ fun _ _ => rfl
      intro x hx
      have := hx.1
      exact ⟨by omega, hx.2⟩
  · simp only [map_cons, map_nil, sum_cons, sum_nil, hiveCount_succ]
    omega
  · simp only [map_cons, map_nil, sum_cons, sum_nil, hiveCount_succ]
    omega
  · have hone : hiveParseKey (levels + 1) (some p)
        ⟨keyBytes t (fuel + 1) k ++ rest, T, m, n, l⟩ =
          some ⟨rest, T₃, m + (hiveCount t (fuel + 1) k).1, n + (hiveCount t (fuel + 1) k).2,
            l + (hiveCount t (fuel + 1) k).2⟩ := by
      rw [hiveParseKey_head ht h]
      dsimp only
      rw [hchild, Option.bind_some]
      dsimp only
      rw [hparse₂, Option.bind_some, hparse₃, hiveCount_succ]
      simp only [add_assoc]
    simp only [map_cons, map_nil, sum_cons, sum_nil, add_zero,
      flatMap_cons, flatMap_nil, append_nil, length_singleton]
    rw [times_add _ hone]
    rfl

theorem builds_saved (ht : Savable t) (h : Fuelled t fuel k)
    (hdepth : DepthOk t levels k) (hvalues : ∀ d, Saved t k d → NamesDistinct t d) :
    Builds t levels fuel [k] := by
  induction levels generalizing fuel k with
  | zero => exact hdepth.elim
  | succ levels ih =>
    obtain ⟨fuel, rfl⟩ : ∃ f, fuel = f + 1 := by
      have hused := h.used
      have henough := h.enough
      exact ⟨fuel - 1, by omega⟩
    refine builds_key ht h (hvalues k .root) (builds_list ?_ (savedChildren_distinct ht.tree k))
    intro c hc
    exact ih (h.child ht.tree hc) (hdepth c hc) fun d hd => hvalues d (.of_child hc hd)

end ImpossibleOs.Registry
