import ImpossibleOs.Registry.HiveBuild
import ImpossibleOs.Registry.Journal
import Mathlib.Algebra.BigOperators.Ring.List

/-!
A hive that has been saved and is loaded again.

The file is the header page and the records, put over what the file whose write
fills it held before. The records of a tree that is not too deep pass the check; what
they build under an empty key mirrors the saved tree if no saved key has two
values of one name.
-/

namespace ImpossibleOs.Registry

open LeBytes Function List UInt32
open Option hiding map_map

/-! ### The header page -/

variable {c c' : Cursor} {a : List UInt8} {fuel k : ℕ}

theorem field_left {n : ℕ} (h : a.length = n) (b : List UInt8) : field (a ++ b) 0 n = ofLe a := by
  rw [field, drop_zero, take_left' h]

theorem field_right {k : ℕ} (h : a.length = k) (b : List UInt8) (i n : ℕ) :
    field (a ++ b) (k + i) n = field b i n := by
  rw [field, field, ← drop_drop, drop_left' h]

theorem length_rootNameField (name : Name) : (rootNameField name).length = 64 := by
  simp only [rootNameField, length_append, length_nameBytes, length_replicate,
    length_take]
  have : hiveRootNameMax = 64 := rfl
  omega

structure HiveHeader.Fits (h : HiveHeader) : Prop where
  magic : h.magic < 2 ^ 32
  version : h.version < 2 ^ 32
  checksum : h.checksum < 2 ^ 32
  rootName : h.rootName.length = 64
  totalKeys : h.totalKeys < 2 ^ 32
  totalValues : h.totalValues < 2 ^ 32
  dataOffset : h.dataOffset < 2 ^ 32
  dataSize : h.dataSize < 2 ^ 32

namespace HiveHeader.Fits

variable {h : HiveHeader}

section

variable (hf : h.Fits)
include hf

theorem length_bytes : h.bytes.length = hiveHeaderSize := by
  simp only [HiveHeader.bytes, length_append, length_le, hf.rootName, length_replicate]
  rfl

theorem field_magic : field h.bytes 0 4 = h.magic := by
  simp only [HiveHeader.bytes, append_assoc]
  rw [field_left (length_le 4 _), ofLe_four hf.magic]

theorem field_version : field h.bytes 4 4 = h.version := by
  simp only [HiveHeader.bytes, append_assoc]
  rw [show 4 = 4 + 0 from rfl, field_right (length_le 4 _), field_left (length_le 4 _),
    ofLe_four hf.version]

theorem field_checksum : field h.bytes 8 4 = h.checksum := by
  simp only [HiveHeader.bytes, append_assoc]
  rw [show 8 = 4 + (4 + 0) from rfl, field_right (length_le 4 _), field_right (length_le 4 _),
    field_left (length_le 4 _), ofLe_four hf.checksum]

theorem field_tail (i : ℕ) : field h.bytes (88 + i) 4 =
    field (le 4 h.totalKeys ++ (le 4 h.totalValues ++ (le 4 h.dataOffset ++ (le 4 h.dataSize ++
      replicate 3992 0)))) i 4 := by
  have hoffset : 88 + i = 4 + (4 + (4 + (4 + (8 + (64 + i))))) := by omega
  simp only [HiveHeader.bytes, append_assoc]
  rw [hoffset, field_right (length_le 4 _), field_right (length_le 4 _),
    field_right (length_le 4 _), field_right (length_le 4 _), field_right (length_le 8 _),
    field_right hf.rootName]

theorem field_totalKeys : field h.bytes 88 4 = h.totalKeys := by
  rw [hf.field_tail 0, field_left (length_le 4 _), ofLe_four hf.totalKeys]

theorem field_totalValues : field h.bytes 92 4 = h.totalValues := by
  rw [hf.field_tail (4 + 0), field_right (length_le 4 _), field_left (length_le 4 _),
    ofLe_four hf.totalValues]

theorem field_dataOffset : field h.bytes 96 4 = h.dataOffset := by
  rw [hf.field_tail (4 + (4 + 0)), field_right (length_le 4 _), field_right (length_le 4 _),
    field_left (length_le 4 _), ofLe_four hf.dataOffset]

theorem field_dataSize : field h.bytes 100 4 = h.dataSize := by
  rw [hf.field_tail (4 + (4 + (4 + 0))), field_right (length_le 4 _), field_right (length_le 4 _),
    field_right (length_le 4 _), field_left (length_le 4 _), ofLe_four hf.dataSize]

end

end HiveHeader.Fits

theorem bytes_unsigned (h : HiveHeader) :
    h.bytes.take 8 ++ le 4 0 ++ h.bytes.drop 12 = { h with checksum := 0 }.bytes := by
  have htake : h.bytes.take 8 = le 4 h.magic ++ le 4 h.version := by
    simp only [HiveHeader.bytes, append_assoc]
    rw [← append_assoc, take_left' (by simp)]
  have hdrop : h.bytes.drop 12 = le 4 0 ++ (le 8 h.timestamp ++ (h.rootName ++
      (le 4 h.totalKeys ++ (le 4 h.totalValues ++ (le 4 h.dataOffset ++ (le 4 h.dataSize ++
        replicate 3992 0)))))) := by
    simp only [HiveHeader.bytes, append_assoc]
    rw [← append_assoc, ← append_assoc, drop_left' (by simp)]
  rw [htake, hdrop]
  simp only [HiveHeader.bytes, append_assoc]

theorem hiveReadValidHeader_bytes {crc : List UInt8 → UInt32} {h : HiveHeader} (hf : h.Fits)
    (hmagic : h.magic = hiveMagic) (hversion : h.version = hiveVersion)
    (hoffset : h.dataOffset = hiveHeaderSize)
    (hcrc : h.checksum = (crc { h with checksum := 0 }.bytes).toNat) (rest : List UInt8) :
    hiveReadValidHeader crc (h.bytes ++ rest) = some h.bytes := by
  unfold hiveReadValidHeader
  dsimp only
  rw [take_left' hf.length_bytes, if_neg (by rw [hf.length_bytes]; omega), hf.field_magic,
    if_neg (by simp [hmagic]), hf.field_version, if_neg (by simp [hversion]), hf.field_dataOffset,
    if_neg (by simp [hoffset]), hf.field_checksum, bytes_unsigned, if_neg (by simp [hcrc])]

theorem hiveParsePayload_head {t : Tree} (ht : Savable t)
    (h : Fuelled t (fuel + 1) k) (root : Option ℕ) (T : Tree) :
    hiveParsePayload root T (keyBytes t (fuel + 1) k) =
      ((times (hiveParseValue root) (t.key k).values.length
        ⟨(t.key k).values.flatMap valueBytes ++ (savedChildren t k).flatMap (keyBytes t fuel), T, 1,
          0, 0⟩).bind
        (times (hiveParseKey hiveMaxParseDepth root) (savedChildren t k).length)).bind fun c =>
          if c.rest = [] then some c else none := by
  obtain ⟨hvals, hkids⟩ := h.counts ht
  rw [ht.values.count] at hvals
  have hshort := ht.tree.short k
  have hlen : ofLe (le 2 (t.key k).name.length) = (t.key k).name.length :=
    ofLe_two (Nat.lt_of_le_of_lt hshort (by decide))
  rw [hiveParsePayload, keyBytes]
  simp only [append_assoc, bind_eq_bind, read_append (length_le 2 _),
    bind_some, hlen, if_neg (Nat.not_lt.mpr hshort), read_append (length_nameBytes _),
    ofLe_two hvals, ofLe_two hkids, ht.values.count k, bind_assoc]
  rfl

theorem hiveParsePayload_none {t : Tree} (ht : Savable t) (h : Fuelled t (fuel + 1) k) (T : Tree) :
    ((∀ c ∈ savedChildren t k, DepthOk t hiveMaxParseDepth c) →
      hiveParsePayload none T (keyBytes t (fuel + 1) k) =
        some ⟨[], T, (hiveCount t (fuel + 1) k).1, (hiveCount t (fuel + 1) k).2, 0⟩) ∧
    ((¬ ∀ c ∈ savedChildren t k, DepthOk t hiveMaxParseDepth c) →
      hiveParsePayload none T (keyBytes t (fuel + 1) k) = none) := by
  have hkids := @hiveParseKeys_none t hiveMaxParseDepth fuel (savedChildren t k)
    (fun c hc => hiveParseKey_none ht _ (h.child ht.tree hc)) [] T 1 (t.key k).values.length 0
  rw [append_nil] at hkids
  rw [hiveParsePayload_head ht h, hiveParseValues_none (ht.values.fits k), bind_some,
    Nat.zero_add]
  refine ⟨?_, ?_⟩
  · intro hdepth
    rw [hkids.1 hdepth, bind_some, if_pos rfl, hiveCount_succ]
  · intro hdeep
    rw [hkids.2 hdeep]
    rfl

/-- A key with nothing in it. -/
structure Empty (T : Tree) (k : ℕ) : Prop where
  used : k < T.keyNext
  values : (T.key k).values = []
  children : (T.key k).children = fun _ => []

theorem hiveParsePayload_build {t : Tree} (ht : Savable t) (h : Fuelled t (fuel + 1) k)
    (hdepth : ∀ c ∈ savedChildren t k, DepthOk t hiveMaxParseDepth c)
    (hnames : ∀ d, Saved t k d → NamesDistinct t d) {T : Tree} (hT : TreeOk T) {root : ℕ}
    (hroot : Empty T root) (hroom : T.keyNext + ((hiveCount t (fuel + 1) k).1 - 1) ≤ keyPoolSize)
    (hvroom : T.valueNext + (hiveCount t (fuel + 1) k).2 ≤ valuePoolSize) :
    ∃ c, hiveParsePayload (some root) T (keyBytes t (fuel + 1) k) = some c ∧
      Mirrors t c.tree Set.univ k root := by
  simp only [hiveCount_succ] at hroom hvroom
  have hused := hroot.used
  obtain ⟨T₁, hparse₁, h₁⟩ := @hiveParseValues_new T (t.key k).values (ht.values.fits k) root
    hroot.used (by simp [hroot.values]) (hnames k .root) (by omega)
    ((savedChildren t k).flatMap (keyBytes t fuel)) 1 0 0
  have hT₁ := hT.sameKeys h₁.same
  have hnext₁ := h₁.same.keyNext
  have hvnext₁ := h₁.valueNext
  have hbare : allChildren T₁ root = [] := by
    refine allChildren_nil ?_
    rw [h₁.same.children, hroot.children]
  have hbuilds : Builds t hiveMaxParseDepth fuel (savedChildren t k) := by
    refine builds_list ?_ (savedChildren_distinct ht.tree k)
    intro c hc
    exact builds_saved ht (h.child ht.tree hc) (hdepth c hc) fun d hd => hnames d (.of_child hc hd)
  obtain ⟨T₂, ids, h₂, -, -, hparse₂⟩ := hbuilds T₁ root hT₁ (by omega)
    (by
      intro c _ d hd
      have := (mem_allChildren hT₁).mpr hd
      rw [hbare] at this
      exact absurd this not_mem_nil)
    (by omega) (by omega) [] 1 (0 + (t.key k).values.length) (0 + (t.key k).values.length)
  rw [append_nil] at hparse₂
  have hrun := hiveParsePayload_head ht h (some root) T
  rw [hparse₁, bind_some, hparse₂, bind_some, if_pos rfl] at hrun
  refine ⟨_, hrun, ?_⟩
  refine .mk ids trivial ?_ ?_ h₂.length h₂.names ?_
  · dsimp only
    rw [h₂.values, h₁.values, hroot.values, append_nil, map_reverse, map_map]
    refine (reverse_perm _).trans ?_
    rw [show Value.view ∘ Value.stored = Value.view from funext stored_view]
  · have hperm := h₂.children
    rwa [hbare, append_nil] at hperm
  · intro q hq
    exact (h₂.mirrors q hq).frame (Set.subset_univ _) fun _ _ => rfl

/-! ### What a load leaves -/

theorem read_spec {n : ℕ} (h : c.read n = some (a, c')) : a.length = n ∧ c'.tree = c.tree := by
  unfold Cursor.read at h
  split at h
  · cases h
  · cases h
    exact ⟨by rw [length_take]; omega, rfl⟩

theorem length_cString (bytes : List UInt8) : (cString bytes).length ≤ bytes.length := by
  induction bytes with
  | nil => exact Nat.le_refl _
  | cons b bytes ih =>
    rw [cString]
    split
    · exact Nat.zero_le _
    · rw [length_cons, length_cons]
      omega

theorem hiveParseValue_cases {k : ℕ} (h : hiveParseValue (some k) c = some c') :
    (∃ name f, (∀ v : Value, (f v).name = v.name) ∧ c'.tree = c.tree.setKey k
      { c.tree.key k with values := updateValue name f (c.tree.key k).values }) ∨
    (∃ v : Value, findValue (c.tree.key k).values v.name = none ∧
      c'.tree = c.tree.addValue k v) := by
  unfold hiveParseValue at h
  simp only [bind_eq_bind, bind_eq_some_iff, Prod.exists] at h
  obtain ⟨len, c₁, h₁, h⟩ := h
  split at h
  · cases h
  rename_i hshort
  simp only [bind_eq_some_iff, Prod.exists] at h
  obtain ⟨name, c₂, h₂, type, c₃, h₃, size, c₄, h₄, h⟩ := h
  split at h
  · cases h
  have htree : c₄.tree = c.tree := by
    rw [(read_spec h₄).2, (read_spec h₃).2, (read_spec h₂).2, (read_spec h₁).2]
  have hname : (cString name).length ≤ maxValueName := by
    have := length_cString name
    have := (read_spec h₂).1
    omega
  rw [htree] at h
  split at h
  · simp only [bind_eq_some_iff, Prod.exists] at h
    obtain ⟨data, c₅, h₅, h⟩ := h
    have htree₅ := (read_spec h₅).2
    dsimp only at htree₅
    cases h
    refine .inl ⟨cString name, fun v => v.put (ofNat (ofLe type)) (some data) (ofLe size),
      fun _ => rfl, by rw [htree₅]⟩
  · rename_i hnone
    simp only [bind_eq_some_iff, Prod.exists] at h
    obtain ⟨t, v, halloc, data, c₅, h₅, h⟩ := h
    have htree₅ := (read_spec h₅).2
    dsimp only at htree₅
    cases h
    unfold Tree.allocValue at halloc
    split at halloc
    · cases halloc
    cases halloc
    refine .inr ⟨_, ?_, by rw [htree₅]; rfl⟩
    change findValue _ ((cString name).take maxValueName) = none
    rw [take_of_length_le hname]
    exact hnone

theorem updateValue_names (name : Name) {f : Value → Value} (hf : ∀ v, (f v).name = v.name)
    (vs : List Value) : (updateValue name f vs).map Value.name = vs.map Value.name := by
  induction vs with
  | nil => rfl
  | cons v vs ih =>
    rw [updateValue]
    split
    · rw [map_cons, map_cons, hf]
    · rw [map_cons, map_cons, ih]

theorem namesDistinct_iff {T : Tree} {k : ℕ} : NamesDistinct T k ↔
    ((T.key k).values.map Value.name).Pairwise fun a b => stricmp a b ≠ 0 := by
  rw [NamesDistinct, pairwise_map]

/-- While records are applied to `root`: the keys from `n` on are new, and the keys that are
reached have no two values of one name. -/
structure Loading (root n : ℕ) (T : Tree) : Prop where
  treeOk : TreeOk T
  grown : n ≤ T.keyNext
  distinct : ∀ x, x = root ∨ n ≤ x → NamesDistinct T x
  below : ∀ x, x = root ∨ n ≤ x → ∀ c, T.Child x c → n ≤ c

theorem Loading.value {root n k : ℕ} (h : Loading root n c.tree)
    (hk : k = root ∨ n ≤ k) (hused : k < c.tree.keyNext)
    (hparse : hiveParseValue (some k) c = some c') :
    Loading root n c'.tree ∧ c.tree.keyNext ≤ c'.tree.keyNext := by
  have hone (T' : Tree) (hsame : c.tree.SameKeys T')
      (hother : ∀ x, x ≠ k → T'.key x = c.tree.key x) (hself : NamesDistinct T' k) :
      Loading root n T' ∧ c.tree.keyNext ≤ T'.keyNext := by
    refine ⟨⟨h.treeOk.sameKeys hsame, ?_, ?_, ?_⟩, hsame.keyNext.ge⟩
    · rw [hsame.keyNext]
      exact h.grown
    · intro x hx
      rcases eq_or_ne x k with rfl | hne
      · exact hself
      · rw [NamesDistinct, hother x hne]
        exact h.distinct x hx
    · intro x hx d hd
      refine h.below x hx d ?_
      rwa [Tree.Child, hsame.children] at hd
  have hdistinct := namesDistinct_iff.mp (h.distinct k hk)
  rcases hiveParseValue_cases hparse with ⟨name, f, hf, htree⟩ | ⟨v, hnew, htree⟩
  · rw [htree]
    refine hone _ (setKey_sameKeys hused rfl rfl rfl rfl)
      (fun x hx => Tree.setKey_of_ne _ _ hx) (namesDistinct_iff.mpr ?_)
    rw [Tree.setKey_self, updateValue_names name hf]
    exact hdistinct
  · rw [htree]
    refine hone _ (addValue_sameKeys hused v) (fun x hx => Tree.setKey_of_ne _ _ hx) ?_
    have hself : ((c.tree.addValue k v).key k).values = v :: (c.tree.key k).values := by
      rw [Tree.addValue, Tree.setKey_self]
    rw [NamesDistinct, hself]
    refine pairwise_cons.mpr ⟨?_, h.distinct k hk⟩
    intro w hw heq
    have := List.find?_eq_none.mp hnew w hw
    exact this (by simpa using stricmp_symm heq)

theorem Loading.child {root n p k : ℕ} {name : Name} (h : Loading root n c.tree)
    (hp : p = root ∨ n ≤ p) (hused : p < c.tree.keyNext) (hshort : name.length ≤ maxKeyName)
    (hchild : c.child p name = some (c', k)) :
    Loading root n c'.tree ∧ c.tree.keyNext ≤ c'.tree.keyNext ∧ n ≤ k ∧ k < c'.tree.keyNext := by
  unfold Cursor.child at hchild
  split at hchild
  · rename_i d hfind
    cases hchild
    have hd := (h.treeOk.findChild_some.mp hfind).1
    obtain ⟨b, hb⟩ := hd
    exact ⟨h, Nat.le_refl _, h.below p hp _ ⟨b, hb⟩, h.treeOk.used p b _ hb⟩
  · rename_i hnone
    have hspec := createChild_spec h.treeOk hused hshort
    have hgrown := h.grown
    unfold Tree.createChild at hchild hspec
    rw [hnone] at hchild hspec
    dsimp only at hchild hspec
    cases halloc : c.tree.allocKey name with
    | none =>
      rw [halloc] at hchild
      cases hchild
    | some r =>
      obtain ⟨T₁, id⟩ := r
      rw [halloc] at hchild hspec
      cases hchild
      obtain ⟨rfl, -, hnext, hkey, hrest⟩ := allocKey_spec halloc
      obtain ⟨hap, hac, hother⟩ := addChild_key T₁ hused.ne
      rw [hrest p hused.ne] at hap
      rw [hkey] at hac
      dsimp only at hspec ⊢
      rw [addChild_keyNext, hnext]
      refine ⟨⟨hspec.1, ?_, ?_, ?_⟩, by omega, h.grown, by omega⟩
      · rw [addChild_keyNext]
        omega
      · intro x hx
        rcases eq_or_ne x p with rfl | hxp
        · rw [NamesDistinct, hap]
          exact h.distinct x hp
        rcases eq_or_ne x c.tree.keyNext with rfl | hxc
        · rw [NamesDistinct, hac]
          exact List.Pairwise.nil
        · rw [NamesDistinct, hother x hxp hxc, hrest x hxc]
          exact h.distinct x hx
      · rintro x hx d ⟨b, hb⟩
        rcases eq_or_ne x p with rfl | hxp
        · rw [hap] at hb
          dsimp only at hb
          rcases eq_or_ne b (bucket (T₁.key c.tree.keyNext).name) with rfl | hne
          · rw [update_self] at hb
            rcases mem_cons.mp hb with rfl | hb
            · exact h.grown
            · exact h.below x hp d ⟨_, hb⟩
          · rw [update_of_ne hne] at hb
            exact h.below x hp d ⟨b, hb⟩
        rcases eq_or_ne x c.tree.keyNext with rfl | hxc
        · rw [hac] at hb
          exact absurd hb not_mem_nil
        · rw [hother x hxp hxc, hrest x hxc] at hb
          exact h.below x hx d ⟨b, hb⟩

theorem Loading.times {root n k : ℕ} {f : Cursor → Option Cursor}
    (hf : ∀ c c', Loading root n c.tree → k < c.tree.keyNext → f c = some c' →
      Loading root n c'.tree ∧ c.tree.keyNext ≤ c'.tree.keyNext) (m : ℕ)
    (h : Loading root n c.tree) (hused : k < c.tree.keyNext)
    (hrun : Registry.times f m c = some c') :
    Loading root n c'.tree ∧ c.tree.keyNext ≤ c'.tree.keyNext := by
  induction m generalizing c with
  | zero =>
    cases hrun
    exact ⟨h, Nat.le_refl _⟩
  | succ m ih =>
    obtain ⟨c₁, h₁, hrest⟩ := Option.bind_eq_some_iff.mp hrun
    obtain ⟨hok, hle⟩ := hf c c₁ h hused h₁
    obtain ⟨hok', hle'⟩ := ih hok (by omega) hrest
    exact ⟨hok', by omega⟩

theorem Loading.key {root n levels p : ℕ} (h : Loading root n c.tree)
    (hp : p = root ∨ n ≤ p) (hused : p < c.tree.keyNext)
    (hparse : hiveParseKey levels (some p) c = some c') :
    Loading root n c'.tree ∧ c.tree.keyNext ≤ c'.tree.keyNext := by
  induction levels generalizing p c c' with
  | zero => cases hparse
  | succ levels ih =>
    rw [hiveParseKey] at hparse
    simp only [bind_eq_bind, bind_eq_some_iff, Prod.exists] at hparse
    obtain ⟨len, c₁, h₁, hparse⟩ := hparse
    split at hparse
    · cases hparse
    rename_i hlen
    simp only [bind_eq_some_iff, Prod.exists] at hparse
    obtain ⟨name, c₂, h₂, vals, c₃, h₃, kids, c₄, h₄, c₅, k, h₅, c₆, h₆, h₇⟩ := hparse
    have htree : c₄.tree = c.tree := by
      rw [(read_spec h₄).2, (read_spec h₃).2, (read_spec h₂).2, (read_spec h₁).2]
    have hname : (cString name).length ≤ maxKeyName := by
      have := length_cString name
      have := (read_spec h₂).1
      omega
    rw [← htree] at h hused ⊢
    obtain ⟨hok₅, hle₅, hnew, hk⟩ := @Loading.child
      { c₄ with parsedKeys := c₄.parsedKeys + 1 } c₅ root n p k _ h hp hused hname h₅
    obtain ⟨hok₆, hle₆⟩ := Loading.times (fun _ _ hc hkc hv => hc.value (.inr hnew) hkc hv) _
      hok₅ hk h₆
    obtain ⟨hok₇, hle₇⟩ := Loading.times (fun _ _ hc hkc hv => ih hc (.inr hnew) hkc hv) _
      hok₆ (by omega) h₇
    refine ⟨hok₇, ?_⟩
    dsimp only at hle₅
    omega

theorem Loading.payload {root n : ℕ} {T : Tree} {payload : List UInt8} {c : Cursor}
    (h : Loading root n T) (hused : root < T.keyNext)
    (hparse : hiveParsePayload (some root) T payload = some c) : Loading root n c.tree := by
  unfold hiveParsePayload at hparse
  simp only [bind_eq_bind, bind_eq_some_iff, Prod.exists] at hparse
  obtain ⟨len, c₁, h₁, hparse⟩ := hparse
  split at hparse
  · cases hparse
  simp only [bind_eq_some_iff, Prod.exists] at hparse
  obtain ⟨name, c₂, h₂, vals, c₃, h₃, kids, c₄, h₄, c₅, h₅, c₆, h₆, hend⟩ := hparse
  have htree : c₄.tree = T := by
    rw [(read_spec h₄).2, (read_spec h₃).2, (read_spec h₂).2, (read_spec h₁).2]
  rw [← htree] at h hused
  obtain ⟨hok₅, hle₅⟩ := @Loading.times { c₄ with parsedKeys := c₄.parsedKeys + 1 } _ root n root _
    (fun _ _ hc hkc hv => hc.value (.inl rfl) hkc hv) _ h hused h₅
  have hle : root < c₅.tree.keyNext := Nat.lt_of_lt_of_le hused hle₅
  obtain ⟨hok₆, -⟩ := Loading.times (fun _ _ hc hkc hv => hc.key (.inl rfl) hkc hv) _ hok₅ hle h₆
  split at hend
  · cases hend
    exact hok₆
  · cases hend

theorem Mirrors.namesDistinct {t T : Tree} {root n k root' : ℕ} (h : Loading root' n T)
    (hm : Mirrors t T Set.univ root root') (hk : Saved t root k) : NamesDistinct t k := by
  have hreach : ∃ k', (k' = root' ∨ n ≤ k') ∧ Mirrors t T Set.univ k k' := by
    induction hk with
    | root => exact ⟨root', .inl rfl, hm⟩
    | @child k c _ hc ih =>
      obtain ⟨k', hk', hmk⟩ := ih
      cases hmk with
      | mk ids _ _ hids hlen _ hsub =>
        obtain ⟨i, hi, rfl⟩ := mem_iff_getElem.mp hc
        have hi' : i < ids.length := by omega
        have hzip : ((savedChildren t k)[i], ids[i]) ∈ (savedChildren t k).zip ids := by
          refine mem_iff_getElem.mpr ⟨i, by simp [hi, hi'], ?_⟩
          rw [getElem_zip]
        have hchild := hids.mem_iff.mpr (getElem_mem hi')
        exact ⟨ids[i], .inr (h.below k' hk' _ ((mem_allChildren h.treeOk).mp hchild)),
          hsub _ hzip⟩
  obtain ⟨k', hk', hmk⟩ := hreach
  cases hmk with
  | mk _ _ hvalues =>
    have hnames := hvalues.map Prod.fst
    rw [map_map, map_map] at hnames
    refine namesDistinct_iff.mpr ((hnames.pairwise_iff ?_).mp
      (namesDistinct_iff.mp (h.distinct k' hk')))
    intro a b hne heq
    exact hne (stricmp_symm heq)

/-! ### Saving and loading -/

theorem length_valueBytes {v : Value} (hv : ValueOk v) : (valueBytes v).length ≤ 777 := by
  have hname : v.name.length ≤ 255 := hv.name
  have hsize : v.dataSize ≤ 512 := hv.size
  simp only [valueBytes, length_append, length_le, length_nameBytes, length_bytes]
  omega

theorem length_flatMap_le {α : Type} {l : List α} {f : α → List UInt8} {g : α → ℕ}
    (h : ∀ a ∈ l, (f a).length ≤ g a) : (l.flatMap f).length ≤ (l.map g).sum := by
  induction l with
  | nil => exact Nat.le_refl _
  | cons a l ih =>
    have ha := h a mem_cons_self
    have hl := ih fun x hx => h x (mem_cons_of_mem _ hx)
    rw [flatMap_cons, length_append, map_cons, sum_cons]
    omega

theorem length_keyBytes {t : Tree} (ht : Savable t) (fuel k : ℕ) : (keyBytes t fuel k).length ≤
      261 * (hiveCount t fuel k).1 + 777 * (hiveCount t fuel k).2 := by
  induction fuel generalizing k with
  | zero => exact Nat.zero_le _
  | succ fuel ih =>
    have hname : (t.key k).name.length ≤ 255 := ht.tree.short k
    have hvalues := @length_flatMap_le _ (t.key k).values valueBytes (fun _ => 777)
      fun v hv => length_valueBytes (ht.values.fits k v hv)
    have hkids := @length_flatMap_le _ (savedChildren t k) (keyBytes t fuel) _ fun c _ => ih c
    rw [map_const', sum_replicate_nat] at hvalues
    rw [sum_map_add, sum_map_mul_left, sum_map_mul_left] at hkids
    rw [hiveCount_succ, keyBytes]
    simp only [length_append, length_le, length_nameBytes]
    omega

theorem hiveSave_spec {crc : List UInt8 → UInt32} {t : Tree} {root timestamp : ℕ}
    {bytes : List UInt8} (hsave : hiveSave crc t root timestamp = some bytes) :
    ∃ h : HiveHeader, bytes = h.bytes ++ keyBytes t keyPoolSize root ∧
      h.magic = hiveMagic ∧ h.version = hiveVersion ∧ h.dataOffset = hiveHeaderSize ∧
      h.checksum = (crc { h with checksum := 0 }.bytes).toNat ∧
      h.rootName = rootNameField (t.key root).name ∧
      h.totalKeys = (hiveCount t keyPoolSize root).1 ∧
      h.totalValues = (hiveCount t keyPoolSize root).2 ∧
      h.dataSize = (keyBytes t keyPoolSize root).length := by
  unfold hiveSave at hsave
  simp only [bind_eq_bind, hiveSerializeKey_eq] at hsave
  obtain ⟨payload, hemit, hsave⟩ := Option.bind_eq_some_iff.mp hsave
  unfold emit at hemit
  split at hemit
  · cases hemit
  rw [nil_append] at hemit
  cases hemit
  cases hsave
  exact ⟨_, rfl, rfl, rfl, rfl, rfl, rfl, rfl, rfl, rfl⟩

/-- Loading the file under `root'` gives the saved part of the tree below `root`. -/
def Restores (crc : List UInt8 → UInt32) (t : Tree) (root : ℕ) (T : Tree) (root' : ℕ)
    (file : List UInt8) : Prop :=
  ∃ T' n, hiveLoad crc file T root' = some (T', n) ∧ Mirrors t T' Set.univ root root'

theorem hiveLoad_page {crc : List UInt8 → UInt32} {file page : List UInt8} {T : Tree} {root : ℕ}
    {r : Tree × ℕ} (hpage : hiveReadValidHeader crc file = some page)
    (hload : hiveLoad crc file T root = some r) :
    ∃ c, (file.drop hiveHeaderSize).length ≥ field page 100 4 ∧
      hiveParsePayload none ⟨fun _ => Key.blank, 0, 0⟩
        ((file.drop hiveHeaderSize).take (field page 100 4)) ≠ none ∧
      hiveParsePayload (some root) T ((file.drop hiveHeaderSize).take (field page 100 4)) =
        some c ∧ r.1 = c.tree := by
  unfold hiveLoad at hload
  rw [hpage] at hload
  simp only [bind_eq_bind, bind_some, bind_eq_some_iff, Prod.exists] at hload
  obtain ⟨data, keys, values, hread, hload⟩ := hload
  unfold hiveReadValidatedPayload at hread
  dsimp only at hread
  split at hread
  · cases hread
  split at hread
  · cases hread
  rename_i hlong
  rw [length_take] at hlong
  simp only [bind_eq_bind, bind_eq_some_iff] at hread
  obtain ⟨c₀, hcheck, hread⟩ := hread
  split at hread
  · cases hread
  cases hread
  split at hload
  · cases hload
  split at hload
  · cases hload
  simp only [bind_eq_some_iff] at hload
  obtain ⟨c, hparse, hload⟩ := hload
  cases hload
  refine ⟨c, by omega, ?_, hparse, rfl⟩
  rw [hcheck]
  exact nofun

section RoundTrip

variable {crc : List UInt8 → UInt32} {t T : Tree} {root root' timestamp : ℕ} {bytes : List UInt8}

theorem fuelled_of_room (ht : Savable t) (hroot : root < t.keyNext)
    (hkeys : T.keyNext + ((hiveCount t keyPoolSize root).1 - 1) ≤ keyPoolSize)
    (hvalues : T.valueNext + (hiveCount t keyPoolSize root).2 ≤ valuePoolSize) :
    Fuelled t keyPoolSize root ∧ (keyBytes t keyPoolSize root).length ≤ 1024 * 1024 := by
  have hlen := length_keyBytes ht keyPoolSize root
  have hpool := ht.tree.pool
  have h₁ : keyPoolSize = 512 := rfl
  have h₂ : valuePoolSize = 1024 := rfl
  refine ⟨⟨hroot, ?_, ?_, ?_⟩, ?_⟩ <;> omega

theorem fits_of_room (hf : Fuelled t keyPoolSize root)
    (hlen : (keyBytes t keyPoolSize root).length ≤ 1024 * 1024) {h : HiveHeader}
    (hmagic : h.magic = hiveMagic) (hversion : h.version = hiveVersion)
    (hoffset : h.dataOffset = hiveHeaderSize)
    (hcrc : h.checksum = (crc { h with checksum := 0 }.bytes).toNat)
    (hname : h.rootName = rootNameField (t.key root).name)
    (hkeys : h.totalKeys = (hiveCount t keyPoolSize root).1)
    (hvalues : h.totalValues = (hiveCount t keyPoolSize root).2)
    (hsize : h.dataSize = (keyBytes t keyPoolSize root).length) : h.Fits := by
  have h₁ := hf.keys
  have h₂ := hf.values
  refine ⟨?_, ?_, ?_, ?_, ?_, ?_, ?_, ?_⟩
  · rw [hmagic]
    decide
  · rw [hversion]
    decide
  · rw [hcrc]
    exact toNat_lt _
  · rw [hname, length_rootNameField]
  · omega
  · omega
  · rw [hoffset]
    decide
  · omega

theorem loading_start (hT : TreeOk T) (hempty : Empty T root') : Loading root' T.keyNext T := by
  have hvalues : ∀ x, x = root' ∨ T.keyNext ≤ x → (T.key x).values = [] := by
    rintro x (rfl | hx)
    · exact hempty.values
    · rw [hT.fresh x hx]
      rfl
  have hchildren : ∀ x, x = root' ∨ T.keyNext ≤ x → (T.key x).children = fun _ => [] := by
    rintro x (rfl | hx)
    · exact hempty.children
    · rw [hT.fresh x hx]
      rfl
  refine ⟨hT, Nat.le_refl _, ?_, ?_⟩
  · intro x hx
    rw [NamesDistinct, hvalues x hx]
    exact List.Pairwise.nil
  · rintro x hx c ⟨b, hb⟩
    rw [hchildren x hx] at hb
    exact absurd hb not_mem_nil

theorem restores_all (ht : Savable t) (hT : TreeOk T) (hempty : Empty T root')
    (hkeys : T.keyNext + ((hiveCount t keyPoolSize root).1 - 1) ≤ keyPoolSize)
    (hvalues : T.valueNext + (hiveCount t keyPoolSize root).2 ≤ valuePoolSize)
    (hf : Fuelled t keyPoolSize root)
    (hlen : (keyBytes t keyPoolSize root).length ≤ 1024 * 1024) {file page : List UInt8}
    (hpage : hiveReadValidHeader crc file = some page)
    (hsize : field page 100 4 = (keyBytes t keyPoolSize root).length)
    (htotalKeys : field page 88 4 = (hiveCount t keyPoolSize root).1)
    (htotalValues : field page 92 4 = (hiveCount t keyPoolSize root).2)
    (hdata : (file.drop hiveHeaderSize).take (field page 100 4) = keyBytes t keyPoolSize root) :
    Restores crc t root T root' file ↔ (∀ c ∈ savedChildren t root, DepthOk t hiveMaxParseDepth c) ∧
      (∀ k, Saved t root k → NamesDistinct t k) := by
  have hpool : keyPoolSize = 511 + 1 := rfl
  rw [hpool] at hf hdata hsize htotalKeys htotalValues hkeys hvalues hlen
  have hcheck := hiveParsePayload_none ht hf ⟨fun _ => Key.blank, 0, 0⟩
  have hpos : (keyBytes t (511 + 1) root).length ≠ 0 := by
    rw [keyBytes]
    simp only [length_append, length_le]
    omega
  refine ⟨?_, ?_⟩
  · rintro ⟨T', n, hload, hmirrors⟩
    obtain ⟨c, -, hvalid, hparse, htree⟩ := hiveLoad_page hpage hload
    rw [hdata] at hvalid hparse
    refine ⟨?_, ?_⟩
    · by_contra hdeep
      exact hvalid (hcheck.2 hdeep)
    · intro k hk
      have hstart := (loading_start hT hempty).payload hempty.used hparse
      rw [← htree] at hstart
      exact hmirrors.namesDistinct hstart hk
  · rintro ⟨hdepth, hnames⟩
    obtain ⟨c, hparse, hmirrors⟩ :=
      hiveParsePayload_build ht hf hdepth hnames hT hempty hkeys hvalues
    refine ⟨c.tree, c.loadedValues, ?_, hmirrors⟩
    unfold hiveLoad hiveReadValidatedPayload
    rw [hpage]
    simp only [bind_eq_bind, bind_some, hdata]
    rw [hsize, if_neg (by omega), if_neg (by omega), hcheck.1 hdepth, bind_some]
    dsimp only
    rw [if_neg (by omega), Option.pure_def, bind_some]
    dsimp only
    rw [if_neg (by omega), if_neg (by omega), hparse]
    rfl

theorem hiveLoad_short {page payload : List UInt8} {written : ℕ}
    (hlen : page.length = hiveHeaderSize)
    (hpage : ∀ rest, hiveReadValidHeader crc (page ++ rest) = some page)
    (hsize : field page 100 4 = payload.length) (hshort : written < (page ++ payload).length) :
    hiveLoad crc ((page ++ payload).take written) T root = none := by
  rw [length_append, hlen] at hshort
  rw [take_append, hlen]
  rcases Nat.lt_or_ge written hiveHeaderSize with hlt | hge
  · have hnone : hiveReadValidHeader crc
        (page.take written ++ payload.take (written - hiveHeaderSize)) = none := by
      unfold hiveReadValidHeader
      dsimp only
      rw [if_pos]
      simp only [length_take, length_append, hlen]
      omega
    unfold hiveLoad
    rw [hnone]
    rfl
  · rw [take_of_length_le (by omega)]
    refine Option.eq_none_iff_forall_ne_some.mpr fun r hload => ?_
    obtain ⟨c, hroom, -⟩ := hiveLoad_page (hpage _) hload
    rw [drop_left' hlen, hsize, length_take] at hroom
    omega

theorem restores_iff (ht : Savable t) (hT : TreeOk T) (hroot : root < t.keyNext)
    (hempty : Empty T root')
    (hkeys : T.keyNext + ((hiveCount t keyPoolSize root).1 - 1) ≤ keyPoolSize)
    (hvalues : T.valueNext + (hiveCount t keyPoolSize root).2 ≤ valuePoolSize)
    (hsave : hiveSave crc t root timestamp = some bytes) {old : List UInt8} {written : ℕ}
    (hwrite : bytes.length ≤ written ∨ old = []) :
    Restores crc t root T root' (ByteFile.splice old 0 (bytes.take written)) ↔
      (∀ c ∈ savedChildren t root, DepthOk t hiveMaxParseDepth c) ∧
      (∀ k, Saved t root k → NamesDistinct t k) ∧ bytes.length ≤ written := by
  obtain ⟨hf, hlen⟩ := fuelled_of_room ht hroot hkeys hvalues
  obtain ⟨h, rfl, hmagic, hversion, hoffset, hcrc, hname, htotalKeys, htotalValues, hsize⟩ :=
    hiveSave_spec hsave
  have hfits := fits_of_room hf hlen hmagic hversion hoffset hcrc hname htotalKeys htotalValues
    hsize
  have hpage (rest : List UInt8) : hiveReadValidHeader crc (h.bytes ++ rest) = some h.bytes :=
    hiveReadValidHeader_bytes hfits hmagic hversion hoffset hcrc rest
  have hpageLen := hfits.length_bytes
  have hsize' := hfits.field_dataSize.trans hsize
  have hkeys' := hfits.field_totalKeys.trans htotalKeys
  have hvalues' := hfits.field_totalValues.trans htotalValues
  generalize h.bytes = page at *
  rw [ByteFile.splice_zero]
  by_cases hfull : (page ++ keyBytes t keyPoolSize root).length ≤ written
  · rw [take_of_length_le hfull, append_assoc,
      restores_all ht hT hempty hkeys hvalues hf hlen (hpage _) hsize' hkeys' hvalues'
        (by rw [drop_left' hpageLen, hsize', take_left])]
    exact ⟨fun hok => ⟨hok.1, hok.2, hfull⟩, fun hok => ⟨hok.1, hok.2.1⟩⟩
  · obtain rfl := hwrite.resolve_left hfull
    refine ⟨?_, fun hok => absurd hok.2.2 hfull⟩
    rintro ⟨T', n, hload, -⟩
    rw [drop_nil, append_nil,
      hiveLoad_short hpageLen hpage hsize' (Nat.not_le.mp hfull)] at hload
    cases hload

end RoundTrip

/-- Loading the hive that a save leaves behind, whatever became of its rename, for every tree that
the calls of the registry leave and every empty key of another such tree whose pools have room. -/
theorem hive_round_trip (crc : List UInt8 → UInt32) (ops ops' : List RegOp)
    {root root' timestamp : ℕ} {bytes : List UInt8}
    (hroot : root < (ops.foldl State.apply State.init).tree.keyNext)
    (hempty : Empty (ops'.foldl State.apply State.init).tree root')
    (hkeys : (ops'.foldl State.apply State.init).tree.keyNext +
      ((hiveCount (ops.foldl State.apply State.init).tree keyPoolSize root).1 - 1) ≤ keyPoolSize)
    (hvalues : (ops'.foldl State.apply State.init).tree.valueNext +
      (hiveCount (ops.foldl State.apply State.init).tree keyPoolSize root).2 ≤ valuePoolSize)
    (hsave : hiveSave crc (ops.foldl State.apply State.init).tree root timestamp = some bytes)
    (io : SaveIo) {fs fs' : Files} (hfiles : hiveSaveFiles io fs bytes = some fs')
    (hwrite : bytes.length ≤ io.filled ∨ (fs io.target).getD [] = []) :
    (∃ file, fs' .hive = some file ∧ Restores crc (ops.foldl State.apply State.init).tree root
        (ops'.foldl State.apply State.init).tree root' file) ↔
      (∀ c ∈ savedChildren (ops.foldl State.apply State.init).tree root,
        DepthOk (ops.foldl State.apply State.init).tree hiveMaxParseDepth c) ∧
      (∀ k, Saved (ops.foldl State.apply State.init).tree root k →
        NamesDistinct (ops.foldl State.apply State.init).tree k) ∧ bytes.length ≤ io.filled := by
  rw [hiveSaveFiles_hive hfiles, ← restores_iff ⟨(apply_run ops).tree, (apply_run ops).values⟩
    (apply_run ops').tree hroot hempty hkeys hvalues hsave hwrite]
  exact ⟨fun ⟨file, hfile, h⟩ => Option.some.inj hfile ▸ h, fun h => ⟨_, rfl, h⟩⟩

theorem system_empty : Empty State.init.tree 5 := by
  refine ⟨by decide, ?_, ?_⟩
  · refine eq_nil_of_length_eq_zero ?_
    decide
  · have hchains : ∀ b < childBuckets, (State.init.tree.key 5).children b = [] := by
      decide
    funext b
    refine eq_nil_iff_forall_not_mem.mpr fun c hc => ?_
    rw [hchains b (init_stateOk.tree.chain 5 b c hc)] at hc
    cases hc

/-- A key with one value below `HKLM\SYSTEM`. -/
def oneValueOps (data : List UInt8) : List RegOp :=
  [.createKey .localMachine (ascii "SYSTEM\\a") false keyAllAccess,
    .setValue (.handle 0) (ascii "v") 4 (some data) 4]

/-- Every write takes all the bytes. -/
def fullWrites (bytes : List UInt8) (renamed : Bool) : SaveIo :=
  ⟨some bytes.length, renamed, some bytes.length⟩

/-- The hive is there and the rename fails, after a short write of the journal. -/
theorem hive_round_trip_one_value : ∃ bytes fs',
    hiveSave kcrc32 ((oneValueOps [1, 2, 3, 4]).foldl State.apply State.init).tree 5 0 =
        some bytes ∧
      hiveSaveFiles ⟨some 7, false, some bytes.length⟩
        (fun path => if path = .hive then some [1, 2, 3] else none) bytes = some fs' ∧
      ∃ file, fs' .hive = some file ∧
        Restores kcrc32 ((oneValueOps [1, 2, 3, 4]).foldl State.apply State.init).tree 5
          State.init.tree 5 file := by
  obtain ⟨bytes, hsave⟩ := Option.isSome_iff_exists.mp (show (hiveSave kcrc32
    ((oneValueOps [1, 2, 3, 4]).foldl State.apply State.init).tree 5 0).isSome by decide)
  have hkids : savedChildren ((oneValueOps [1, 2, 3, 4]).foldl State.apply State.init).tree 5 =
    [10] := by
    decide
  have hleaf : savedChildren ((oneValueOps [1, 2, 3, 4]).foldl State.apply State.init).tree 10 =
    [] := by
    decide
  refine ⟨bytes, _, hsave, rfl, (hive_round_trip kcrc32 (oneValueOps [1, 2, 3, 4]) []
    (by decide) system_empty (by decide) (by decide) hsave ⟨some 7, false, some bytes.length⟩ rfl
    (.inl (Nat.le_refl _))).mpr ⟨?_, ?_, Nat.le_refl _⟩⟩
  · decide
  · intro k hk
    have hk' : k = 5 ∨ k = 10 := by
      induction hk with
      | root => exact .inl rfl
      | child _ hc ih =>
        rcases ih with rfl | rfl
        · rw [hkids] at hc
          exact .inr (mem_singleton.mp hc)
        · rw [hleaf] at hc
          cases hc
    rcases hk' with rfl | rfl
    · unfold NamesDistinct
      decide
    · unfold NamesDistinct
      decide

/-- Thirteen keys, one below the other, under `HKLM\SYSTEM`. -/
def deepOps : List RegOp :=
  [.createKey .localMachine (ascii "SYSTEM\\a\\a\\a\\a\\a\\a\\a\\a\\a\\a\\a\\a\\a") false
    keyAllAccess]

theorem hive_round_trip_deep : ∃ bytes fs',
    hiveSave kcrc32 (deepOps.foldl State.apply State.init).tree 5 0 = some bytes ∧
      hiveSaveFiles (fullWrites bytes true) noFiles bytes = some fs' ∧
      ¬ ∃ file, fs' .hive = some file ∧
        Restores kcrc32 (deepOps.foldl State.apply State.init).tree 5 State.init.tree 5 file := by
  obtain ⟨bytes, hsave⟩ := Option.isSome_iff_exists.mp (show (hiveSave kcrc32
    (deepOps.foldl State.apply State.init).tree 5 0).isSome by decide +kernel)
  have hok := apply_run deepOps
  refine ⟨bytes, _, hsave, rfl, ?_⟩
  rintro ⟨file, hfile, h⟩
  have hsaved : hiveSaveFiles (fullWrites bytes true) noFiles bytes = some _ := rfl
  rw [hiveSaveFiles_hive hsaved] at hfile
  obtain rfl := Option.some.inj hfile
  obtain ⟨hdepth, -⟩ := (restores_iff ⟨hok.tree, hok.values⟩ init_stateOk.tree (by decide)
    system_empty (by decide) (by decide) hsave (.inr rfl)).mp h
  exact absurd hdepth (by decide)

end ImpossibleOs.Registry
