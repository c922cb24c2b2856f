import ImpossibleOs.Registry.ApiRun
import ImpossibleOs.Registry.Hive
import Mathlib.Algebra.Order.BigOperators.Group.List
import Mathlib.Algebra.Order.Ring.Nat

/-!
The records of a hive and their check.

What the serializer writes is the records of the tree, if they fit the buffer.
The check reads records back without building anything; it accepts those of a
tree that is not too deep.
-/

namespace ImpossibleOs.Registry

open LeBytes List Option

/-! ### The records -/

def valueBytes (v : Value) : List UInt8 :=
  le 2 v.name.length ++ nameBytes v.name ++ le 4 v.type.toNat ++ le 4 v.dataSize ++ v.bytes

def keyBytes (t : Tree) : ℕ → ℕ → List UInt8
  | 0, _ => []
  | fuel + 1, k =>
    le 2 (t.key k).name.length ++ nameBytes (t.key k).name ++ le 2 (t.key k).valueCount ++
      le 2 (savedChildren t k).length ++ (t.key k).values.flatMap valueBytes ++
      (savedChildren t k).flatMap (keyBytes t fuel)

theorem emit_bind (cap : ℕ) (buf a b : List UInt8) :
    ((emit cap buf a).bind fun buf => emit cap buf b) = emit cap buf (a ++ b) := by
  unfold emit
  split
  · rw [if_pos (by rw [length_append]; omega)]
    rfl
  · rw [bind_some, length_append, length_append, append_assoc]
    split
    · rw [if_pos (by omega)]
    · rw [if_neg (by omega)]

theorem emit_nil (cap : ℕ) (buf : List UInt8) : emit cap buf [] = some buf := by
  rw [emit, if_neg (by simp), append_nil]

@[simp] theorem length_bytes (v : Value) : v.bytes.length = v.dataSize := by
  simp [Value.bytes]

theorem serializeValues_eq (cap : ℕ) (vs : List Value) (buf : List UInt8) :
    serializeValues cap vs buf = emit cap buf (vs.flatMap valueBytes) := by
  induction vs generalizing buf with
  | nil => exact (emit_nil cap buf).symm
  | cons v vs ih =>
    have hassoc (x : Option (List UInt8)) (f g : List UInt8 → Option (List UInt8)) :
        (x.bind f).bind g = x.bind fun y => (f y).bind g := bind_assoc ..
    rw [serializeValues, flatMap_cons, valueBytes]
    simp only [bind_eq_bind, ih, ← emit_bind, hassoc]

theorem foldlM_emit {α : Type} {cap : ℕ} {f : List UInt8 → α → Option (List UInt8)}
    {g : α → List UInt8} (l : List α) (hf : ∀ a ∈ l, ∀ buf, f buf a = emit cap buf (g a))
    (buf : List UInt8) : l.foldlM f buf = emit cap buf (l.flatMap g) := by
  induction l generalizing buf with
  | nil => exact (emit_nil cap buf).symm
  | cons a l ih =>
    rw [foldlM_cons, hf a mem_cons_self, flatMap_cons, ← emit_bind]
    congr 1
    funext buf
    exact ih (fun x hx => hf x (mem_cons_of_mem _ hx)) buf

theorem hiveSerializeKey_eq (t : Tree) (cap fuel k : ℕ) (buf : List UInt8) :
    hiveSerializeKey t cap fuel k buf = emit cap buf (keyBytes t fuel k) := by
  induction fuel generalizing k buf with
  | zero => exact (emit_nil cap buf).symm
  | succ fuel ih =>
    have hkids (buf : List UInt8) := @foldlM_emit ℕ cap
      (fun buf c => hiveSerializeKey t cap fuel c buf) (keyBytes t fuel) (savedChildren t k)
      (fun c _ buf => ih c buf) buf
    have hassoc (x : Option (List UInt8)) (f g : List UInt8 → Option (List UInt8)) :
        (x.bind f).bind g = x.bind fun y => (f y).bind g := bind_assoc ..
    rw [hiveSerializeKey, keyBytes]
    simp only [bind_eq_bind, hkids, serializeValues_eq, ← emit_bind, hassoc]

theorem hiveCount_succ (t : Tree) (fuel k : ℕ) :
    hiveCount t (fuel + 1) k =
      (1 + ((savedChildren t k).map fun c => (hiveCount t fuel c).1).sum,
        (t.key k).values.length +
          ((savedChildren t k).map fun c => (hiveCount t fuel c).2).sum) := by
  have hfold (l : List ℕ) (n : ℕ × ℕ) :
      l.foldl (fun n c => (n.1 + (hiveCount t fuel c).1, n.2 + (hiveCount t fuel c).2)) n =
        (n.1 + (l.map fun c => (hiveCount t fuel c).1).sum,
          n.2 + (l.map fun c => (hiveCount t fuel c).2).sum) := by
    induction l generalizing n with
    | nil => simp
    | cons c l ih =>
      rw [foldl_cons, ih]
      simp [add_assoc]
  exact hfold _ _

/-! ### Reading records -/

theorem read_append {a rest : List UInt8} {T : Tree} {m n l k : ℕ} (h : a.length = k) :
    (⟨a ++ rest, T, m, n, l⟩ : Cursor).read k = some (a, ⟨rest, T, m, n, l⟩) := by
  unfold Cursor.read
  rw [if_neg (by simp [h]), take_left' h, drop_left' h]

@[simp] theorem length_nameBytes (name : Name) : (nameBytes name).length = name.length :=
  length_map ..

theorem ofLe_two {v : ℕ} (h : v < 2 ^ 16) : ofLe (le 2 v) = v := ofLe_le h

theorem ofLe_four {v : ℕ} (h : v < 2 ^ 32) : ofLe (le 4 v) = v := ofLe_le h

theorem cString_nameBytes (name : Name) : cString (nameBytes name) = name := by
  induction name with
  | nil => rfl
  | cons c name ih =>
    rw [nameBytes, map_cons, cString, dif_neg c.2]
    exact congrArg (c :: ·) ih

theorem hiveParseValue_none {v : Value} (hv : ValueOk v) (rest : List UInt8) (T : Tree)
    (m n l : ℕ) :
    hiveParseValue none ⟨valueBytes v ++ rest, T, m, n, l⟩ = some ⟨rest, T, m, n + 1, l⟩ := by
  have hname := hv.name
  have hsize := hv.size
  have hlen : ofLe (le 2 v.name.length) = v.name.length :=
    ofLe_two (lt_of_le_of_lt hname (by decide))
  have hdata : ofLe (le 4 v.dataSize) = v.dataSize :=
    ofLe_four (lt_of_le_of_lt hsize (by decide))
  unfold hiveParseValue valueBytes
  simp only [append_assoc, bind_eq_bind, read_append (length_le 2 _),
    bind_some, hlen, if_neg (Nat.not_lt.mpr hname), read_append (length_nameBytes _),
    read_append (length_le 4 _), hdata, if_neg (Nat.not_lt.mpr hsize),
    read_append (length_bytes v)]
  rfl

theorem times_add {α : Type} (f : α → Option α) {n : ℕ} {a b : α} (h : f a = some b) :
    times f (n + 1) a = times f n b := by
  rw [times, h, bind_some]

theorem hiveParseValues_none {vs : List Value} (hvs : ∀ v ∈ vs, ValueOk v) (rest : List UInt8)
    (T : Tree) (m n l : ℕ) :
    times (hiveParseValue none) vs.length ⟨vs.flatMap valueBytes ++ rest, T, m, n, l⟩ =
      some ⟨rest, T, m, n + vs.length, l⟩ := by
  induction vs generalizing n with
  | nil => rfl
  | cons v vs ih =>
    rw [length_cons, flatMap_cons, append_assoc,
      times_add _ (hiveParseValue_none (hvs v mem_cons_self) _ T m n l),
      ih fun w hw => hvs w (mem_cons_of_mem _ hw)]
    congr 2
    omega

/-! ### The depth of a tree -/

/-- From `k` on there are at most so many levels of keys that are saved. -/
def DepthOk (t : Tree) : ℕ → ℕ → Prop
  | 0, _ => False
  | levels + 1, k => ∀ c ∈ savedChildren t k, DepthOk t levels c

instance decidableDepthOk (t : Tree) : (levels k : ℕ) → Decidable (DepthOk t levels k)
  | 0, _ => isFalse id
  | levels + 1, k =>
    have := decidableDepthOk t levels
    List.decidableBAll (DepthOk t levels) (savedChildren t k)

theorem savedChildren_child {t : Tree} {k c : ℕ} (hc : c ∈ savedChildren t k) : t.Child k c := by
  obtain ⟨b, -, hb⟩ := mem_flatMap.mp (mem_filter.mp hc).1
  exact ⟨b, hb⟩

/-- A tree whose records can be written: what the registry's calls leave. -/
structure Savable (t : Tree) : Prop where
  tree : TreeOk t
  values : ValuesOk t

/-- `fuel` is enough below `k`, and the counts fit their fields. -/
structure Fuelled (t : Tree) (fuel k : ℕ) : Prop where
  used : k < t.keyNext
  enough : t.keyNext ≤ k + fuel
  keys : (hiveCount t fuel k).1 < 2 ^ 16
  values : (hiveCount t fuel k).2 < 2 ^ 16

theorem hiveCount_pos {t : Tree} {fuel k : ℕ} (h : 0 < fuel) : 0 < (hiveCount t fuel k).1 := by
  obtain ⟨n, rfl⟩ := Nat.exists_eq_succ_of_ne_zero h.ne'
  rw [hiveCount_succ]
  exact Nat.add_pos_left Nat.one_pos _

theorem length_le_sum {α : Type} {l : List α} {f : α → ℕ} (h : ∀ a ∈ l, 0 < f a) :
    l.length ≤ (l.map f).sum := by
  induction l with
  | nil => exact le_refl _
  | cons a l ih =>
    have ha := h a mem_cons_self
    have hl := ih fun x hx => h x (mem_cons_of_mem _ hx)
    rw [map_cons, sum_cons, length_cons]
    omega

namespace Fuelled

variable {t : Tree} {fuel k : ℕ}

theorem child (ht : TreeOk t) (h : Fuelled t (fuel + 1) k) {c : ℕ} (hc : c ∈ savedChildren t k) :
    Fuelled t fuel c := by
  obtain ⟨b, hb⟩ := savedChildren_child hc
  have hlater := ht.later k b c hb
  have hkeys := h.keys
  have hvalues := h.values
  have henough := h.enough
  rw [hiveCount_succ] at hkeys hvalues
  have hk := le_sum_of_mem (mem_map_of_mem (f := fun c => (hiveCount t fuel c).1) hc)
  have hv := le_sum_of_mem (mem_map_of_mem (f := fun c => (hiveCount t fuel c).2) hc)
  dsimp only at hkeys hvalues
  exact ⟨ht.used k b c hb, by omega, by omega, by omega⟩

theorem counts (ht : Savable t) (h : Fuelled t (fuel + 1) k) :
    (t.key k).valueCount < 2 ^ 16 ∧ (savedChildren t k).length < 2 ^ 16 := by
  have hkeys := h.keys
  have hvalues := h.values
  rw [hiveCount_succ] at hkeys hvalues
  dsimp only at hkeys hvalues
  refine ⟨?_, ?_⟩
  · rw [ht.values.count]
    omega
  · have hle := @length_le_sum ℕ (savedChildren t k) (fun c => (hiveCount t fuel c).1) (by
      intro c hc
      obtain ⟨b, hb⟩ := savedChildren_child hc
      have hlater := ht.tree.later k b c hb
      have hused := ht.tree.used k b c hb
      have henough := h.enough
      exact hiveCount_pos (by omega))
    omega

end Fuelled

/-- The check of the records of a key and of all below it. -/
def Checks (t : Tree) (levels fuel k : ℕ) : Prop :=
  ∀ rest T m n l,
    (DepthOk t levels k → hiveParseKey levels none ⟨keyBytes t fuel k ++ rest, T, m, n, l⟩ =
      some ⟨rest, T, m + (hiveCount t fuel k).1, n + (hiveCount t fuel k).2, l⟩) ∧
    (¬ DepthOk t levels k →
      hiveParseKey levels none ⟨keyBytes t fuel k ++ rest, T, m, n, l⟩ = none)

theorem hiveParseKeys_none {t : Tree} {levels fuel : ℕ} {ks : List ℕ}
    (h : ∀ c ∈ ks, Checks t levels fuel c) (rest : List UInt8) (T : Tree) (m n l : ℕ) :
    ((∀ c ∈ ks, DepthOk t levels c) → times (hiveParseKey levels none) ks.length
        ⟨ks.flatMap (keyBytes t fuel) ++ rest, T, m, n, l⟩ =
      some ⟨rest, T, m + (ks.map fun c => (hiveCount t fuel c).1).sum,
        n + (ks.map fun c => (hiveCount t fuel c).2).sum, l⟩) ∧
    ((¬ ∀ c ∈ ks, DepthOk t levels c) → times (hiveParseKey levels none) ks.length
      ⟨ks.flatMap (keyBytes t fuel) ++ rest, T, m, n, l⟩ = none) := by
  induction ks generalizing m n with
  | nil => exact ⟨fun _ => rfl, fun hdeep => absurd nofun hdeep⟩
  | cons c ks ih =>
    obtain ⟨hok, hdeep⟩ := h c mem_cons_self (ks.flatMap (keyBytes t fuel) ++ rest) T m n l
    have hrest := ih (fun x hx => h x (mem_cons_of_mem _ hx))
      (m + (hiveCount t fuel c).1) (n + (hiveCount t fuel c).2)
    rw [flatMap_cons, append_assoc, length_cons, map_cons, map_cons,
      sum_cons, sum_cons, ← add_assoc, ← add_assoc]
    refine ⟨?_, ?_⟩
    · intro hall
      rw [times_add _ (hok (hall c mem_cons_self))]
      exact hrest.1 fun x hx => hall x (mem_cons_of_mem _ hx)
    · intro hnot
      by_cases hc : DepthOk t levels c
      · rw [times_add _ (hok hc)]
        refine hrest.2 fun hall => hnot fun x hx => ?_
        rcases mem_cons.mp hx with rfl | hx
        · exact hc
        · exact hall x hx
      · rw [times, hdeep hc]
        rfl

theorem hiveParseKey_head {t : Tree} (ht : Savable t) {levels fuel k : ℕ}
    (h : Fuelled t (fuel + 1) k) (parent : Option ℕ) (rest : List UInt8) (T : Tree) (m n l : ℕ) :
    hiveParseKey (levels + 1) parent ⟨keyBytes t (fuel + 1) k ++ rest, T, m, n, l⟩ =
      let c : Cursor := ⟨(t.key k).values.flatMap valueBytes ++
        ((savedChildren t k).flatMap (keyBytes t fuel) ++ rest), T, m + 1, n, l⟩
      match parent with
      | none => (times (hiveParseValue none) (t.key k).values.length c).bind
          (times (hiveParseKey levels none) (savedChildren t k).length)
      | some p => (c.child p (t.key k).name).bind fun r =>
        (times (hiveParseValue (some r.2)) (t.key k).values.length r.1).bind
          (times (hiveParseKey levels (some r.2)) (savedChildren t k).length) := by
  obtain ⟨hvals, hkids⟩ := h.counts ht
  rw [ht.values.count] at hvals
  have hshort := ht.tree.short k
  have hlen : ofLe (le 2 (t.key k).name.length) = (t.key k).name.length :=
    ofLe_two (lt_of_le_of_lt hshort (by decide))
  rw [hiveParseKey, keyBytes]
  cases parent <;>
    simp only [append_assoc, bind_eq_bind, read_append (length_le 2 _),
      bind_some, hlen, if_neg (Nat.not_lt.mpr hshort), read_append (length_nameBytes _),
      ofLe_two hvals, ofLe_two hkids, cString_nameBytes, ht.values.count k]

theorem hiveParseKey_none {t : Tree} (ht : Savable t) (levels : ℕ) {fuel k : ℕ}
    (h : Fuelled t fuel k) : Checks t levels fuel k := by
  induction levels generalizing fuel k with
  | zero => exact fun rest T m n l => ⟨False.elim, fun _ => rfl⟩
  | succ levels ih =>
    obtain ⟨fuel, rfl⟩ : ∃ f, fuel = f + 1 := by
      have hused := h.used
      have henough := h.enough
      exact ⟨fuel - 1, by omega⟩
    intro rest T m n l
    have hkids := @hiveParseKeys_none t levels fuel (savedChildren t k)
      (fun c hc => ih (h.child ht.tree hc)) rest T (m + 1) (n + (t.key k).values.length) l
    rw [hiveParseKey_head ht h]
    dsimp only
    rw [hiveParseValues_none (ht.values.fits k), bind_some, hiveCount_succ]
    refine ⟨?_, ?_⟩
    · intro hdepth
      rw [hkids.1 hdepth]
      congr 2 <;> omega
    · exact hkids.2

end ImpossibleOs.Registry
