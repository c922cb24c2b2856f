import ImpossibleOs.Fat32.NameOps
import ImpossibleOs.Fat32.Slots

/-!
A directory as the list of its entries.

`dirSlots v chain` are the 32-byte entries along the chain. The scans of the
driver are searches in this list, and what its operations write is a change of
single members of it.
-/

namespace ImpossibleOs.Fat32

open ByteMem List Nat

/-! ### Entries -/

abbrev Slot := List UInt8

def slotFirst (e : Slot) : UInt8 := e.getD 0 0
def slotAttr (e : Slot) : UInt8 := e.getD 11 0
def slotName (e : Slot) : List UInt8 := e.take 11

def slotCluster (e : Slot) : ℕ :=
  ((e.getD 20 0).toNat + 256 * (e.getD 21 0).toNat) * 2 ^ 16 +
    ((e.getD 26 0).toNat + 256 * (e.getD 27 0).toNat)

/-- An entry of a file or directory, and not a deleted one, a part of a long name or a volume
label. -/
def slotLive (e : Slot) : Bool :=
  !(slotFirst e = 0xE5 || slotAttr e = 0x0F || slotAttr e &&& 0x08 ≠ 0)

def dirSlots (v : Volume) (chain : List ℕ) : List Slot :=
  (dirEntries v.bpb chain).map fun p => bytes v.disk (entryPos v.bpb p) 32

def shortNames (slots : List Slot) : List (List UInt8) :=
  ((slots.takeWhile fun e => slotFirst e ≠ 0).filter slotLive).map slotName

theorem getD_bytes {m : ByteMem} {a n i : ℕ} (hi : i < n) : (bytes m a n).getD i 0 = m (a + i) := by
  rw [getD_eq_getElem?_getD, getElem?_bytes hi, Option.getD_some]

variable (m : ByteMem)

@[simp] theorem slotFirst_bytes (a : ℕ) : slotFirst (bytes m a 32) = m a := by
  rw [slotFirst, getD_bytes (by omega), Nat.add_zero]

@[simp] theorem slotAttr_bytes (a : ℕ) : slotAttr (bytes m a 32) = deAttr m a := by
  rw [slotAttr, getD_bytes (by omega), deAttr]

theorem take_bytes {m : ByteMem} {a n k : ℕ} (h : k ≤ n) : (bytes m a n).take k = bytes m a k := by
  rw [bytes, bytes, ← map_take, take_range, Nat.min_eq_left h]

@[simp] theorem slotName_bytes (a : ℕ) : slotName (bytes m a 32) = bytes m a 11 :=
  take_bytes (by omega)

@[simp] theorem slotLive_bytes (a : ℕ) : slotLive (bytes m a 32) = !deSkipped m a := by
  simp [slotLive, deSkipped]

@[simp] theorem slotCluster_bytes (a : ℕ) : slotCluster (bytes m a 32) = deFirstCluster m a := by
  simp only [slotCluster, getD_bytes (show 20 < 32 by omega), getD_bytes (show 21 < 32 by omega),
    getD_bytes (show 26 < 32 by omega), getD_bytes (show 27 < 32 by omega), deFirstCluster, readLE]
  ring_nf

theorem agreeOn_of_bytes {m m' : ByteMem} {a n : ℕ} (h : bytes m' a n = bytes m a n) :
    AgreeOn a (a + n) m m' := by
  intro x hx hx'
  have hi : x - a < n := by omega
  have hget := congrArg (fun l => l[x - a]?) h
  simp only [getElem?_bytes hi, Option.some.injEq] at hget
  rw [Nat.add_sub_cancel' hx] at hget
  exact hget

/-! ### Positions -/

section Positions

variable {b : Bpb} {chain : List ℕ}

theorem length_dirEntries (b : Bpb) (chain : List ℕ) :
    (dirEntries b chain).length = entryCount b chain := by
  induction chain with
  | nil => simp [dirEntries, entryCount]
  | cons c chain ih =>
    simp only [dirEntries, entryCount, flatMap_cons, length_append, length_map,
      length_range, length_cons, succ_mul] at ih ⊢
    omega

theorem dirEntries_append (b : Bpb) (l l' : List ℕ) :
    dirEntries b (l ++ l') = dirEntries b l ++ dirEntries b l' := by
  simp [dirEntries]

theorem getElem?_dirEntries {j : ℕ} (hj : j < entryCount b chain) : (dirEntries b chain)[j]? =
      some (chain.getD (j / entriesPerCluster b) 0, j % entriesPerCluster b) := by
  induction chain generalizing j with
  | nil => simp [entryCount] at hj
  | cons c chain ih =>
    set E := entriesPerCluster b with hE
    have hcons : dirEntries b (c :: chain) =
        (List.range E).map (fun i => (c, i)) ++ dirEntries b chain := by
      simp [dirEntries, hE]
    rw [hcons]
    by_cases hlt : j < E
    · rw [getElem?_append_left (by simpa using hlt)]
      simp [hlt, div_eq_of_lt hlt, mod_eq_of_lt hlt]
    · rw [getElem?_append_right (by simpa using hlt)]
      simp only [entryCount, length_cons, succ_mul, ← hE] at hj
      have hpos : 0 < E := by
        by_contra h0
        have h0' : E = 0 := by omega
        simp [h0'] at hj
      have hj' : j - E < entryCount b chain := by
        rw [entryCount, ← hE]
        omega
      have hdiv : j / E = (j - E) / E + 1 := by
        rw [div_eq j E, if_pos ⟨hpos, by omega⟩]
      have hmod : j % E = (j - E) % E := by
        rw [mod_eq_sub_mod (by omega)]
      simp only [length_map, length_range]
      rw [ih hj', hdiv, hmod, getD_cons_succ]

variable {p : ℕ × ℕ}

theorem entryPos_of_getElem? {j : ℕ} (hp : (dirEntries b chain)[j]? = some p) :
    entryPos b p = entryAddr b chain j ∧ j < entryCount b chain := by
  have hj : j < entryCount b chain := by
    rw [← length_dirEntries]
    exact (List.getElem?_eq_some_iff.mp hp).1
  rw [getElem?_dirEntries hj, Option.some.injEq] at hp
  subst hp
  exact ⟨rfl, hj⟩

theorem mem_dirEntries : p ∈ dirEntries b chain ↔ p.1 ∈ chain ∧ p.2 < entriesPerCluster b := by
  obtain ⟨c, i⟩ := p
  simp only [dirEntries, mem_flatMap, mem_map, mem_range, Prod.mk.injEq]
  constructor
  · rintro ⟨c', hc', i', hi', rfl, rfl⟩
    exact ⟨hc', hi'⟩
  · rintro ⟨hc, hi⟩
    exact ⟨c, hc, i, hi, rfl, rfl⟩

theorem entryPos_inCluster (hp : p.2 < entriesPerCluster b) {x : ℕ}
    (hx : entryPos b p ≤ x) (hx' : x < entryPos b p + 32) : InCluster b p.1 x := by
  have := entriesPerCluster_mul b
  unfold entryPos at hx hx'
  unfold InCluster
  omega

theorem entryPos_apart (hok : b.Ok) {p p' : ℕ × ℕ} (hp : b.InRange p.1) (hp' : b.InRange p'.1)
    (hi : p.2 < entriesPerCluster b) (hi' : p'.2 < entriesPerCluster b) (hne : p ≠ p') :
    entryPos b p + 32 ≤ entryPos b p' ∨ entryPos b p' + 32 ≤ entryPos b p := by
  have hbytes := entriesPerCluster_mul b
  unfold entryPos
  by_cases hc : p.1 = p'.1
  · have hi : p.2 ≠ p'.2 := fun h => hne (Prod.ext hc h)
    rw [hc]
    omega
  · have := clusters_apart hok hp hp' hc
    omega

theorem dirEntries_nodup (hnd : chain.Nodup) : (dirEntries b chain).Nodup := by
  rw [dirEntries, nodup_flatMap]
  refine ⟨fun c _ => ?_, ?_⟩
  · rw [nodup_map_iff fun i i' h => (Prod.mk.inj h).2]
    exact nodup_range
  · refine hnd.imp fun {c c'} hne => ?_
    intro p hp hp'
    rw [mem_map] at hp hp'
    obtain ⟨i, -, rfl⟩ := hp
    obtain ⟨i', -, h⟩ := hp'
    exact hne (Prod.mk.inj h).1.symm

end Positions

section Scans

variable {σ ρ : Type} {turn : σ → ℕ × ℕ → Except ρ σ}

theorem foldlM_left {l : List (ℕ × ℕ)} {s : σ} {r : ρ} (h : l.foldlM turn s = .error r) :
    ∃ j p s', l[j]? = some p ∧ (l.take j).foldlM turn s = .ok s' ∧ turn s' p = .error r := by
  induction l generalizing s with
  | nil => simp [pure, Except.pure] at h
  | cons p l ih =>
    rw [foldlM_cons] at h
    cases hp : turn s p with
    | error r' =>
      rw [hp] at h
      obtain rfl : r' = r := by simpa [bind, Except.bind] using h
      exact ⟨0, p, s, rfl, rfl, hp⟩
    | ok s₁ =>
      rw [hp] at h
      obtain ⟨j, p', s', hj, htake, hturn⟩ := ih h
      refine ⟨j + 1, p', s', by simpa using hj, ?_, hturn⟩
      rw [take_succ_cons, foldlM_cons, hp]
      exact htake

theorem foldlM_passed {l : List (ℕ × ℕ)} {s s' : σ} (P : ℕ × ℕ → Prop)
    (hturn : ∀ s p s', turn s p = .ok s' → P p) (h : l.foldlM turn s = .ok s') : ∀ p ∈ l, P p := by
  induction l generalizing s with
  | nil => simp
  | cons p l ih =>
    rw [foldlM_cons] at h
    cases hp : turn s p with
    | error r' =>
      rw [hp] at h
      simp [bind, Except.bind] at h
    | ok s₁ =>
      rw [hp] at h
      intro p' hp'
      rcases mem_cons.mp hp' with rfl | hp'
      · exact hturn _ _ _ hp
      · exact ih h p' hp'

variable {v : Volume} {chain : List ℕ} {limit fuel cur : ℕ} {s : σ}

theorem scanChain_spec (hok : v.bpb.Ok) (h : IsChain v cur chain) :
    scanChain turn v limit fuel cur s = .over ∨
      match (dirEntries v.bpb chain).foldlM turn s with
      | .error r => scanChain turn v limit fuel cur s = .left r
      | .ok _ => ∃ link, fat32Eoc ≤ link ∧ scanChain turn v limit fuel cur s = .ended link := by
  induction chain generalizing fuel cur s with
  | nil =>
    have hend : ¬ (2 ≤ cur ∧ cur < fat32Eoc) := by
      have : fat32Eoc ≤ cur := h
      omega
    right
    refine ⟨cur, h, ?_⟩
    cases fuel with
    | zero => rw [scanChain, if_neg hend]
    | succ fuel => rw [scanChain, if_neg hend]
  | cons c chain ih =>
    obtain ⟨rfl, hc, hl⟩ := h
    have hin : 2 ≤ c ∧ c < fat32Eoc := ⟨hc.1, hc.lt_eoc hok⟩
    cases fuel with
    | zero =>
      left
      rw [scanChain, if_pos hin]
    | succ fuel =>
      rw [scanChain, if_pos hin]
      by_cases hlimit : limit < c
      · left
        rw [if_pos hlimit]
      rw [if_neg hlimit]
      have happ : dirEntries v.bpb (c :: chain) =
          dirEntries v.bpb [c] ++ dirEntries v.bpb chain :=
        dirEntries_append v.bpb [c] chain
      rw [happ, foldlM_append]
      cases hfold : (dirEntries v.bpb [c]).foldlM turn s with
      | error r => exact .inr rfl
      | ok s₁ => exact ih hl

theorem scanChain_ne_over (hok : v.bpb.Ok) (h : IsChain v cur chain)
    (hlimit : v.bpb.maxCluster ≤ limit + 1) (hfuel : chain.length < fuel) :
    scanChain turn v limit fuel cur s ≠ .over := by
  induction chain generalizing fuel cur s with
  | nil =>
    have hend : ¬ (2 ≤ cur ∧ cur < fat32Eoc) := by
      have : fat32Eoc ≤ cur := h
      omega
    cases fuel with
    | zero => simp [scanChain, if_neg hend]
    | succ fuel => simp [scanChain, if_neg hend]
  | cons c chain ih =>
    obtain ⟨rfl, hc, hl⟩ := h
    have hin : 2 ≤ c ∧ c < fat32Eoc := ⟨hc.1, hc.lt_eoc hok⟩
    have hc' : ¬ limit < c := by
      have := hc.2
      omega
    cases fuel with
    | zero => omega
    | succ fuel =>
      rw [length_cons] at hfuel
      rw [scanChain, if_pos hin, if_neg hc']
      cases hfold : (dirEntries v.bpb [c]).foldlM turn s with
      | error r => simp
      | ok s₁ => exact ih hl (by omega)

end Scans

/-! ### Live entries -/

def Named (l : List Slot) (j : ℕ) (e : Slot) : Prop :=
  l[j]? = some e ∧ slotFirst e ≠ 0 ∧ slotLive e = true

/-- Nothing follows the end mark. -/
def Tidy (l : List Slot) : Prop :=
  ∀ (i j : ℕ) (e e' : Slot), i ≤ j → l[i]? = some e → slotFirst e = 0 →
    l[j]? = some e' → slotFirst e' = 0

/-- No two live entries have one value of `f`. -/
def Distinct {α : Type} (f : Slot → α) (l : List Slot) : Prop :=
  ∀ i j e e', Named l i e → Named l j e' → f e = f e' → i = j

variable {l : List Slot}

theorem Tidy.tail {e : Slot} (h : Tidy (e :: l)) : Tidy l := by
  intro i j e₁ e₂ hij hi h0 hj
  exact h (i + 1) (j + 1) e₁ e₂ (by omega) (by simpa using hi) h0 (by simpa using hj)

theorem Tidy.takeWhile (h : Tidy l) :
    (l.takeWhile fun e => slotFirst e ≠ 0) = l.filter fun e => slotFirst e ≠ 0 := by
  induction l with
  | nil => rfl
  | cons e l ih =>
    by_cases h0 : slotFirst e = 0
    · have hnone : l.filter (fun e => decide (slotFirst e ≠ 0)) = [] := by
        rw [filter_eq_nil_iff]
        intro e' he'
        obtain ⟨j, hj⟩ := getElem?_of_mem he'
        simpa using h 0 (j + 1) e e' (by omega) rfl h0 (by simpa using hj)
      simp [h0]
      simpa using hnone
    · rw [takeWhile_cons_of_pos (by simpa using h0),
        filter_cons_of_pos (by simpa using h0), ih h.tail]

theorem nodup_shortNames (h : Tidy l) : (shortNames l).Nodup ↔ Distinct slotName l := by
  rw [shortNames, h.takeWhile, filter_filter, List.Nodup, pairwise_map,
    pairwise_filter, pairwise_iff_getElem]
  constructor
  · intro hpw i j e e' hi hj heq
    obtain ⟨hi', rfl⟩ := List.getElem?_eq_some_iff.mp hi.1
    obtain ⟨hj', rfl⟩ := List.getElem?_eq_some_iff.mp hj.1
    rcases Nat.lt_trichotomy i j with hlt | rfl | hlt
    · exact absurd heq (hpw i j hi' hj' hlt (by simpa using ⟨hi.2.2, hi.2.1⟩)
        (by simpa using ⟨hj.2.2, hj.2.1⟩))
    · rfl
    · exact absurd heq.symm (hpw j i hj' hi' hlt (by simpa using ⟨hj.2.2, hj.2.1⟩)
        (by simpa using ⟨hi.2.2, hi.2.1⟩))
  · intro hd i j hi hj hlt hli hlj heq
    have hne := hd i j _ _ ⟨getElem?_eq_getElem hi, by simpa [and_comm] using hli⟩
      ⟨getElem?_eq_getElem hj, by simpa [and_comm] using hlj⟩ heq
    omega

/-! ### Searches -/

section Search

variable {σ ρ : Type} {turn : σ → ℕ × ℕ → Except ρ σ} {entry : ρ → Option (ℕ × ℕ)} {v : Volume}
  {sfn : List UInt8} {chain : List ℕ} {s s' : σ} {r : ρ}

/-- A turn that passes over the entries that are not live or do not carry the name, and is left
at the end mark or at a live entry that satisfies `Q`. -/
structure Searches (turn : σ → ℕ × ℕ → Except ρ σ) (entry : ρ → Option (ℕ × ℕ)) (v : Volume)
    (sfn : List UInt8) (Q : ℕ × ℕ → Prop) : Prop where
  passed : ∀ s p s', turn s p = .ok s' → v.disk (entryPos v.bpb p) ≠ 0 ∧
    (deSkipped v.disk (entryPos v.bpb p) = false → bytes v.disk (entryPos v.bpb p) 11 ≠ sfn)
  left : ∀ s p r, turn s p = .error r →
    (entry r = none ∧ v.disk (entryPos v.bpb p) = 0) ∨
      (entry r = some p ∧ v.disk (entryPos v.bpb p) ≠ 0 ∧
        deSkipped v.disk (entryPos v.bpb p) = false ∧ Q p)

theorem getElem?_dirSlots (v : Volume) (chain : List ℕ) (j : ℕ) : (dirSlots v chain)[j]? =
      ((dirEntries v.bpb chain)[j]?).map fun p => bytes v.disk (entryPos v.bpb p) 32 := by
  rw [dirSlots, getElem?_map]

variable {Q : ℕ × ℕ → Prop}

theorem Searches.found (h : Searches turn entry v sfn Q)
    (hleft : (dirEntries v.bpb chain).foldlM turn s = .error r) {p : ℕ × ℕ}
    (hr : entry r = some p) : ∃ j, (dirEntries v.bpb chain)[j]? = some p ∧
      Named (dirSlots v chain) j (bytes v.disk (entryPos v.bpb p) 32) ∧ Q p := by
  obtain ⟨j, p', s', hj, -, hturn⟩ := foldlM_left hleft
  rcases h.left _ _ _ hturn with ⟨hnone, -⟩ | ⟨hsome, h0, hlive, hQ⟩
  · rw [hr] at hnone
    contradiction
  obtain rfl : p = p' := by
    rw [hr] at hsome
    exact Option.some.inj hsome
  refine ⟨j, hj, ⟨?_, by simpa using h0, by simpa using hlive⟩, hQ⟩
  rw [getElem?_dirSlots, hj, Option.map_some]

theorem Searches.absent_of_passed (h : Searches turn entry v sfn Q) {l : List (ℕ × ℕ)}
    (hok : l.foldlM turn s = .ok s') {p : ℕ × ℕ} (hp : p ∈ l)
    (hlive : slotLive (bytes v.disk (entryPos v.bpb p) 32) = true) :
    slotName (bytes v.disk (entryPos v.bpb p) 32) ≠ sfn := by
  have hpass := foldlM_passed _ (fun s p s' => h.passed s p s') hok p hp
  rw [slotName_bytes]
  exact hpass.2 (by simpa using hlive)

theorem Searches.absent (h : Searches turn entry v sfn Q) (htidy : Tidy (dirSlots v chain))
    (hend : ∀ r, (dirEntries v.bpb chain).foldlM turn s = .error r → entry r = none) :
    ∀ j e, Named (dirSlots v chain) j e → slotName e ≠ sfn := by
  rintro j e ⟨hj, h0, hlive⟩
  rw [getElem?_dirSlots] at hj
  obtain ⟨p, hp, rfl⟩ := Option.map_eq_some_iff.mp hj
  cases hfold : (dirEntries v.bpb chain).foldlM turn s with
  | ok s' => exact h.absent_of_passed hfold (mem_of_getElem? hp) hlive
  | error r =>
    obtain ⟨k, p', s', hk, htake, hturn⟩ := foldlM_left hfold
    rcases h.left _ _ _ hturn with ⟨-, hz⟩ | ⟨hsome, -⟩
    · -- the scan stopped at the end mark, and the entry comes before it
      have hjk : j < k := by
        by_contra hge
        refine h0 (htidy k j (bytes v.disk (entryPos v.bpb p') 32) _ (by omega) ?_
          (by simpa using hz) ?_)
        · rw [getElem?_dirSlots, hk, Option.map_some]
        · rw [getElem?_dirSlots, hp, Option.map_some]
      refine h.absent_of_passed htake (mem_of_getElem? (i := j) ?_) hlive
      rw [getElem?_take, if_pos hjk, hp]
    · rw [hend r hfold] at hsome
      contradiction

theorem sfnTurn_searches (v : Volume) (sfn : List UInt8) :
    Searches (sfnTurn v sfn) id v sfn fun p => bytes v.disk (entryPos v.bpb p) 11 = sfn where
  passed := by
    intro s p s' h
    unfold sfnTurn at h
    dsimp only at h
    split at h
    · contradiction
    · rename_i h0
      refine ⟨h0, fun hlive heq => ?_⟩
      simp [hlive, heq] at h
  left := by
    intro s p r h
    unfold sfnTurn at h
    dsimp only at h
    split at h
    · rename_i h0
      obtain rfl : none = r := by simpa using h
      exact .inl ⟨rfl, h0⟩
    rename_i h0
    split at h
    · contradiction
    rename_i hlive
    split at h
    · rename_i heq
      obtain rfl : some p = r := by simpa using h
      exact .inr ⟨rfl, h0, by simpa using hlive, heq⟩
    · contradiction

theorem nameTurn_searches (v : Volume) (name : List UInt8) :
    Searches (nameTurn v name) (fun r => r.map NameHit.entry) v (makeShortName name)
      fun _ => True where
  passed := by
    intro s p s' h
    unfold nameTurn at h
    dsimp only at h
    split at h
    · contradiction
    · rename_i h0
      refine ⟨h0, fun hlive heq => ?_⟩
      simp only [deSkipped, Bool.or_eq_false_iff, decide_eq_false_iff_not] at hlive
      rw [if_neg hlive.1.1, if_neg (show ¬ deAttr v.disk _ = fat32AttrLfn from hlive.1.2),
        if_neg hlive.2, if_pos (.inr heq)] at h
      contradiction
  left := by
    intro s p r h
    unfold nameTurn at h
    dsimp only at h
    split at h
    · rename_i h0
      obtain rfl : none = r := by simpa using h
      exact .inl ⟨rfl, h0⟩
    rename_i h0
    split at h
    · contradiction
    rename_i h1
    split at h
    · simp at h
    rename_i h2
    split at h
    · contradiction
    rename_i h3
    split at h
    · obtain rfl := Except.error.inj h
      refine .inr ⟨rfl, h0, ?_, trivial⟩
      simp only [deSkipped, Bool.or_eq_false_iff, decide_eq_false_iff_not]
      exact ⟨⟨h1, h2⟩, h3⟩
    · contradiction

end Search

end ImpossibleOs.Fat32
