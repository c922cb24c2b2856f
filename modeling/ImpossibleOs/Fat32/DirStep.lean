import ImpossibleOs.Fat32.DirView
import ImpossibleOs.Fat32.FileChain

/-!
What the operations do to the list of entries of a directory.

Writes outside the directory's clusters leave the list as it is. A write to an
entry changes that member, marks set first bytes to 0xE5, and the writer of a
new name replaces a run of members, after a cluster of empty ones if the
directory had to grow.
-/

namespace ImpossibleOs.Fat32

open ByteMem List Option Nat

variable {v w : Volume} {chain : List ℕ}

theorem dirSlots_congr (hb : w.bpb = v.bpb)
    (hdisk : ∀ c ∈ chain, ∀ x, InCluster v.bpb c x → w.disk x = v.disk x) :
    dirSlots w chain = dirSlots v chain := by
  rw [dirSlots, dirSlots, hb]
  apply map_congr_left
  intro p hp
  obtain ⟨hc, hi⟩ := mem_dirEntries.mp hp
  apply bytes_congr
  intro x hx hx'
  exact hdisk p.1 hc x (entryPos_inCluster hi hx hx')

variable {p : ℕ × ℕ} {chain' : List ℕ}

theorem dirSlots_set {j : ℕ} (hok : v.bpb.Ok) (hr : ∀ c ∈ chain, v.bpb.InRange c)
    (hnd : chain.Nodup) (hb : w.bpb = v.bpb) (hp : (dirEntries v.bpb chain)[j]? = some p)
    (hdisk : ∀ c ∈ chain, ∀ x, InCluster v.bpb c x →
      x < entryPos v.bpb p ∨ entryPos v.bpb p + 32 ≤ x → w.disk x = v.disk x) :
    dirSlots w chain = (dirSlots v chain).set j (bytes w.disk (entryPos v.bpb p) 32) := by
  apply ext_getElem?
  intro i
  rw [getElem?_dirSlots, hb]
  cases hi : (dirEntries v.bpb chain)[i]? with
  | none =>
    have hlen : (dirSlots v chain).length ≤ i := by
      rw [dirSlots, length_map]
      exact List.getElem?_eq_none_iff.mp hi
    rw [getElem?_eq_none (by simpa using hlen), map_none]
  | some p' =>
    rw [map_some, getElem?_set, getElem?_dirSlots, hi, map_some]
    by_cases hij : j = i
    · subst hij
      obtain rfl : p = p' := by
        rw [hp] at hi
        exact some.inj hi
      have hlt : j < (dirSlots v chain).length := by
        rw [dirSlots, length_map]
        exact (List.getElem?_eq_some_iff.mp hp).1
      rw [if_pos rfl, if_pos hlt]
    · rw [if_neg hij, some.injEq]
      obtain ⟨hc, hpi⟩ := mem_dirEntries.mp (mem_of_getElem? hp)
      obtain ⟨hc', hpi'⟩ := mem_dirEntries.mp (mem_of_getElem? hi)
      have hne : p ≠ p' := by
        rintro rfl
        exact hij ((getElem?_inj (List.getElem?_eq_some_iff.mp hp).1
          (dirEntries_nodup hnd)).mp (hp.trans hi.symm))
      have hapart := entryPos_apart hok (hr _ hc) (hr _ hc') hpi hpi' hne
      apply bytes_congr
      intro x hx hx'
      exact hdisk p'.1 hc' x (entryPos_inCluster hpi' hx hx') (by omega)

theorem dirSlots_storeBytes {j : ℕ} {l : List UInt8} (hok : v.bpb.Ok)
    (hr : ∀ c ∈ chain, v.bpb.InRange c) (hnd : chain.Nodup)
    (hp : (dirEntries v.bpb chain)[j]? = some p) (hl : l.length ≤ 32) :
    dirSlots (v.setDisk (storeBytes v.disk (entryPos v.bpb p) l)) chain =
      (dirSlots v chain).set j (l ++ (bytes v.disk (entryPos v.bpb p) 32).drop l.length) := by
  have hset := dirSlots_set (w := v.setDisk (storeBytes v.disk (entryPos v.bpb p) l)) hok hr hnd rfl
    hp fun c _ x _ hx =>
      sameOutside_storeBytes le_rfl (show entryPos v.bpb p + l.length ≤ entryPos v.bpb p + 32
        by omega) x hx
  rw [hset, Volume.setDisk_disk, bytes_storeBytes_same _ _ _ hl]

/-! ### Marks -/

/-- The buffer `m'` of a cluster is `m` with the entry `p` and the LFN entries of some stretch
before it in its cluster marked as deleted. -/
structure Marks (b : Bpb) (m m' : ByteMem) (p : ℕ × ℕ) : Prop where
  entry : m' (entryPos b p) = 0xE5
  other : ∀ x, m' x ≠ m x → m' x = 0xE5 ∧ ∃ i ≤ p.2, x = entryPos b (p.1, i) ∧
    ∀ i', i ≤ i' → i' < p.2 → deAttr m (entryPos b (p.1, i')) = fat32AttrLfn

theorem markDeleted_other {m : ByteMem} {a x : ℕ} (h : x ≠ a) : markDeleted m a x = m x := by
  unfold markDeleted storeBytes
  rw [if_neg (by simp; omega)]

theorem markDeleted_same (m : ByteMem) (a : ℕ) : markDeleted m a a = 0xE5 := by
  simp [markDeleted, storeBytes]

theorem marks_markDeleted (b : Bpb) (m : ByteMem) (p : ℕ × ℕ) :
    Marks b m (markDeleted m (entryPos b p)) p where
  entry := markDeleted_same _ _
  other := by
    intro x hx
    by_cases h : x = entryPos b p
    · rw [h]
      exact ⟨markDeleted_same _ _, p.2, le_rfl, rfl, fun i' _ _ => by omega⟩
    · exact absurd (markDeleted_other h) hx

theorem wipeLfn_marks {b : Bpb} {m m' : ByteMem} (chk : UInt8) {n : ℕ} (hn : n ≤ p.2)
    (h : Marks b m m' p)
    (hlfn : ∀ i', n ≤ i' → i' < p.2 → deAttr m (entryPos b (p.1, i')) = fat32AttrLfn) :
    Marks b m (wipeLfn chk n (entryPos b (p.1, n)) m') p := by
  induction n generalizing m' with
  | zero => exact h
  | succ n ih =>
    have hpos : entryPos b (p.1, n + 1) - 32 = entryPos b (p.1, n) := by
      unfold entryPos
      dsimp only
      omega
    rw [wipeLfn, hpos]
    split
    · rename_i hmatch
      -- attribute bytes are not marked
      have hattr : deAttr m (entryPos b (p.1, n)) = fat32AttrLfn := by
        rw [← hmatch.1]
        by_contra hne
        obtain ⟨-, i, -, heq, -⟩ := h.other (entryPos b (p.1, n) + 11) fun heq => hne heq.symm
        unfold entryPos at heq
        dsimp only at heq
        omega
      have hlfn' : ∀ i', n ≤ i' → i' < p.2 →
          deAttr m (entryPos b (p.1, i')) = fat32AttrLfn := by
        intro i' hi hi'
        by_cases heq : i' = n
        · rw [heq]
          exact hattr
        · exact hlfn i' (by omega) hi'
      refine ih (by omega) ⟨?_, ?_⟩ hlfn'
      · have hne : entryPos b p ≠ entryPos b (p.1, n) := by
          unfold entryPos
          dsimp only
          omega
        rw [markDeleted_other hne, h.entry]
      · intro x hx
        by_cases hxa : x = entryPos b (p.1, n)
        · rw [hxa]
          exact ⟨markDeleted_same _ _, n, by omega, rfl, hlfn'⟩
        · rw [markDeleted_other hxa] at hx ⊢
          exact h.other x hx
    · exact h

theorem deleteInBuf_marks (b : Bpb) (m : ByteMem) (p : ℕ × ℕ) : Marks b m (deleteInBuf b m p) p :=
  wipeLfn_marks _ le_rfl (marks_markDeleted b m p) fun i' _ _ => by omega

theorem removeDirentInBuf_marks (b : Bpb) (m : ByteMem) (p : ℕ × ℕ) :
    Marks b m (removeDirentInBuf b m p) p :=
  wipeLfn_marks _ le_rfl (marks_markDeleted b m p) fun i' _ _ => by omega

/-- Entry `j` is marked, and perhaps a stretch of LFN entries before it. -/
def MarkedAt (l l' : List Slot) (j : ℕ) : Prop :=
  (∃ e, l'[j]? = some e ∧ slotFirst e = 0xE5) ∧
    ∀ i : ℕ, l'[i]? = l[i]? ∨ (i ≤ j ∧ (∃ e, l'[i]? = some e ∧ slotFirst e = 0xE5) ∧
      ∀ i', i ≤ i' → i' < j → ∃ e, l[i']? = some e ∧ slotAttr e = fat32AttrLfn)

theorem index_add {b : Bpb} {i j : ℕ} {n : ℕ} (hnd : chain.Nodup)
    (hi : (dirEntries b chain)[i]? = some (p.1, n)) (hj : (dirEntries b chain)[j]? = some p) :
    i + p.2 = j + n := by
  have hi' := (entryPos_of_getElem? hi).2
  have hj' := (entryPos_of_getElem? hj).2
  rw [getElem?_dirEntries hi', some.injEq, Prod.mk.injEq] at hi
  rw [getElem?_dirEntries hj', some.injEq] at hj
  subst hj
  obtain ⟨hc, rfl⟩ := hi
  simp only at hc ⊢
  set E := entriesPerCluster b with hE
  have hpos : 0 < E := by
    by_contra h0
    have h0' : E = 0 := by omega
    rw [entryCount, ← hE, h0', Nat.mul_zero] at hi'
    omega
  have hdi : i / E < chain.length := (Nat.div_lt_iff_lt_mul hpos).mpr hi'
  have hdj : j / E < chain.length := (Nat.div_lt_iff_lt_mul hpos).mpr hj'
  rw [getD_eq_getElem _ _ hdi, getD_eq_getElem _ _ hdj] at hc
  have hdiv : i / E = j / E := (List.Nodup.getElem_inj_iff hnd).mp hc
  have h₁ := div_add_mod i E
  have h₂ := div_add_mod j E
  rw [hdiv] at h₁
  omega

theorem dirSlots_marks {j : ℕ} {m' : ByteMem} (hok : v.bpb.Ok)
    (hr : ∀ c ∈ chain, v.bpb.InRange c) (hnd : chain.Nodup)
    (hp : (dirEntries v.bpb chain)[j]? = some p) (h : Marks v.bpb v.disk m' p) (hb : w.bpb = v.bpb)
    (hdisk : ∀ c ∈ chain, ∀ x, InCluster v.bpb c x → w.disk x = m' x) :
    MarkedAt (dirSlots v chain) (dirSlots w chain) j := by
  have hslots : dirSlots w chain = dirSlots (v.setDisk m') chain :=
    dirSlots_congr hb hdisk
  rw [hslots]
  refine ⟨⟨_, by rw [getElem?_dirSlots, Volume.setDisk_bpb, hp, map_some], ?_⟩, fun i => ?_⟩
  · rw [slotFirst_bytes]
    exact h.entry
  rw [getElem?_dirSlots, getElem?_dirSlots, Volume.setDisk_bpb, Volume.setDisk_disk]
  cases hi : (dirEntries v.bpb chain)[i]? with
  | none => exact .inl rfl
  | some p' =>
    obtain ⟨hc, hpi⟩ := mem_dirEntries.mp (mem_of_getElem? hp)
    obtain ⟨hc', hpi'⟩ := mem_dirEntries.mp (mem_of_getElem? hi)
    rw [map_some, map_some]
    by_cases hsame : ∀ x, entryPos v.bpb p' ≤ x → x < entryPos v.bpb p' + 32 →
        m' x = v.disk x
    · exact .inl (congrArg some (bytes_congr hsame))
    · -- a changed byte is the first one of its entry
      push Not at hsame
      obtain ⟨x, hx, hx', hne⟩ := hsame
      obtain ⟨hE5, n, hn, rfl, hlfn⟩ := h.other x hne
      have heq : p' = (p.1, n) := by
        by_contra hne'
        have hapart := entryPos_apart hok (hr _ hc') (show v.bpb.InRange (p.1, n).1 from hr _ hc)
          hpi' (show (p.1, n).2 < _ by dsimp only; omega) hne'
        omega
      subst heq
      have hindex := index_add hnd hi hp
      refine .inr ⟨by omega, ⟨_, rfl, by rw [slotFirst_bytes]; exact hE5⟩, fun i' hi' hlt => ?_⟩
      -- the entries up to `p` lie in its cluster
      have hentry : (dirEntries v.bpb chain)[i']? = some (p.1, p.2 - (j - i')) := by
        have hj := (entryPos_of_getElem? hp).2
        have hp' := hp
        rw [getElem?_dirEntries hj, some.injEq] at hp'
        subst hp'
        dsimp only at hn hindex ⊢
        set E := entriesPerCluster v.bpb
        have h₁ := div_add_mod j E
        have h₂ : i' = E * (j / E) + (j % E - (j - i')) := by omega
        have hlt' : j % E - (j - i') < E := by
          have := mod_lt j (show 0 < E by omega)
          omega
        have hdiv : i' / E = j / E := by
          rw [h₂, mul_add_div (by omega), div_eq_of_lt hlt', Nat.add_zero]
        have hmod : i' % E = j % E - (j - i') := by
          conv_lhs => rw [h₂]
          rw [mul_add_mod, mod_eq_of_lt hlt']
        rw [getElem?_dirEntries (by omega), hdiv, hmod]
      refine ⟨bytes v.disk (entryPos v.bpb (p.1, p.2 - (j - i'))) 32, ?_, ?_⟩
      · rw [getElem?_dirSlots, hentry, map_some]
      · rw [slotAttr_bytes]
        exact hlfn _ (by omega) (by omega)

theorem writeSlots_disk (v : Volume) (run : SlotRun) (n : ℕ) {entry : ℕ → List UInt8}
    (hlen : ∀ i, (entry i).length = 32) (x : ℕ) :
    ((List.range n).foldl (writeSlot run entry) v).disk x =
      if slotAddr run 0 ≤ x ∧ x < slotAddr run n then
        (entry ((x - slotAddr run 0) / 32)).getD ((x - slotAddr run 0) % 32) 0
      else v.disk x := by
  obtain ⟨a, ha⟩ : ∃ a, ∀ k, slotAddr run k = a + 32 * k := ⟨_, slotAddr_eq run⟩
  simp only [ha, Nat.mul_zero, Nat.add_zero]
  refine Loop.foldl_range (n := n) (f := writeSlot run entry) (s := v)
    (fun i w => w.disk x =
      if a ≤ x ∧ x < a + 32 * i then (entry ((x - a) / 32)).getD ((x - a) % 32) 0
      else v.disk x) ?_ ?_
  · rw [if_neg (by omega)]
  intro i _ w hw
  show storeBytes w.disk (slotAddr run i) (entry i) x = _
  rw [storeBytes, hlen, ha]
  by_cases hx : a + 32 * i ≤ x ∧ x < a + 32 * i + 32
  · have hdiv : (x - a) / 32 = i := by omega
    have hmod : (x - a) % 32 = x - (a + 32 * i) := by omega
    have hin : a ≤ x ∧ x < a + 32 * (i + 1) := by omega
    rw [if_pos hx, if_pos hin, hdiv, hmod]
  · rw [if_neg hx, hw]
    by_cases hlt : a ≤ x ∧ x < a + 32 * i
    · have hin : a ≤ x ∧ x < a + 32 * (i + 1) := by omega
      rw [if_pos hlt, if_pos hin]
    · have hout : ¬ (a ≤ x ∧ x < a + 32 * (i + 1)) := by omega
      rw [if_neg hlt, if_neg hout]

/-- The list in which the `n` members from `q` on are the given entries. -/
def WrittenAt (l l' : List Slot) (q n : ℕ) (entry : ℕ → Slot) : Prop :=
  ∀ j : ℕ, l'[j]? = if q ≤ j ∧ j < q + n then some (entry (j - q)) else l[j]?

theorem dirSlots_writeSlots {run : SlotRun} {q n : ℕ} {entry : ℕ → List UInt8} (hok : v.bpb.Ok)
    (hr : ∀ c ∈ chain, v.bpb.InRange c) (hnd : chain.Nodup) (hlen : ∀ i, (entry i).length = 32)
    (hn : q + n ≤ entryCount v.bpb chain)
    (hplace : ∀ k < n, slotAddr run k = entryAddr v.bpb chain (q + k)) :
    WrittenAt (dirSlots v chain)
      (dirSlots ((List.range n).foldl (writeSlot run entry) v) chain) q n entry := by
  intro j
  set w := (List.range n).foldl (writeSlot run entry) v
  have hb : w.bpb = v.bpb := (writeSlots_spec v run n hlen).1
  obtain ⟨a, ha⟩ : ∃ a, ∀ k, slotAddr run k = a + 32 * k := ⟨_, slotAddr_eq run⟩
  have hdisk : ∀ x, w.disk x = if a ≤ x ∧ x < a + 32 * n then
      (entry ((x - a) / 32)).getD ((x - a) % 32) 0 else v.disk x := by
    intro x
    rw [writeSlots_disk v run n hlen x, ha, ha, Nat.mul_zero, Nat.add_zero]
  simp only [ha] at hplace
  rw [getElem?_dirSlots, getElem?_dirSlots, hb]
  cases hj : (dirEntries v.bpb chain)[j]? with
  | none =>
    have hlen' : entryCount v.bpb chain ≤ j := by
      rw [← length_dirEntries]
      exact List.getElem?_eq_none_iff.mp hj
    rw [if_neg (by omega)]
    rfl
  | some p =>
    obtain ⟨hpos, hlt⟩ := entryPos_of_getElem? hj
    rw [map_some, map_some, hpos]
    by_cases hin : q ≤ j ∧ j < q + n
    · rw [if_pos hin]
      have haddr := hplace (j - q) (by omega)
      rw [show q + (j - q) = j by omega] at haddr
      rw [← haddr]
      congr 1
      apply ext_getElem?
      intro i
      by_cases hi : i < 32
      · have hx : a ≤ a + 32 * (j - q) + i ∧ a + 32 * (j - q) + i < a + 32 * n := by omega
        have hdiv : (a + 32 * (j - q) + i - a) / 32 = j - q := by omega
        have hmod : (a + 32 * (j - q) + i - a) % 32 = i := by omega
        rw [getElem?_bytes hi, hdisk, if_pos hx, hdiv, hmod, getD_eq_getElem?_getD,
          getElem?_eq_getElem (by rw [hlen]; exact hi), getD_some]
      · rw [getElem?_eq_none (by simpa using hi),
          getElem?_eq_none (by rw [hlen]; omega)]
    · rw [if_neg hin]
      congr 1
      apply bytes_congr
      intro x hx hx'
      rw [hdisk, if_neg]
      -- a byte of another entry is not one of the run
      rintro ⟨hlo, hhi⟩
      obtain ⟨k, hk, hk', hk''⟩ : ∃ k < n, a + 32 * k ≤ x ∧ x < a + 32 * k + 32 :=
        ⟨(x - a) / 32, by omega, by omega, by omega⟩
      rw [hplace k hk] at hk' hk''
      have hqk : q + k < entryCount v.bpb chain := by omega
      have hentry := getElem?_dirEntries hqk
      obtain ⟨hc, hi⟩ := mem_dirEntries.mp (mem_of_getElem? hj)
      obtain ⟨hc', hi'⟩ := mem_dirEntries.mp (mem_of_getElem? hentry)
      have hne : p ≠ (chain.getD ((q + k) / entriesPerCluster v.bpb) 0,
          (q + k) % entriesPerCluster v.bpb) := by
        rintro rfl
        have : j = q + k := (getElem?_inj (List.getElem?_eq_some_iff.mp hj).1
          (dirEntries_nodup hnd)).mp (hj.trans hentry.symm)
        omega
      have hapart := entryPos_apart hok (hr _ hc) (hr _ hc') hi hi' hne
      rw [hpos, (entryPos_of_getElem? hentry).1] at hapart
      omega

/-! ### Room for new entries -/

def zeroSlot : Slot := List.replicate 32 0

theorem bytes_zero {m : ByteMem} {a n : ℕ} (h : ∀ x, a ≤ x → x < a + n → m x = 0) :
    bytes m a n = replicate n 0 := by
  apply ext_getElem?
  intro i
  by_cases hi : i < n
  · rw [getElem?_bytes hi, h (a + i) (by omega) (by omega), getElem?_replicate, if_pos hi]
  · rw [getElem?_eq_none (by simpa using hi), getElem?_eq_none (by simpa using hi)]

theorem dirSlots_append (v : Volume) (l l' : List ℕ) :
    dirSlots v (l ++ l') = dirSlots v l ++ dirSlots v l' := by
  rw [dirSlots, dirEntries_append, map_append, dirSlots, dirSlots]

theorem dirSlots_zeroed {c : ℕ} (h : ∀ x, InCluster v.bpb c x → v.disk x = 0) :
    dirSlots v [c] = replicate (entriesPerCluster v.bpb) zeroSlot := by
  rw [eq_replicate_iff]
  refine ⟨by rw [dirSlots, length_map, length_dirEntries, entryCount]; simp, ?_⟩
  intro e he
  obtain ⟨p, hp, rfl⟩ := mem_map.mp he
  obtain ⟨hc, hi⟩ := mem_dirEntries.mp hp
  have hc' : p.1 = c := by simpa using hc
  apply bytes_zero
  intro x hx hx'
  exact h x (hc' ▸ entryPos_inCluster hi hx hx')

theorem Extends.slots {dir : ℕ} (hext : Extends v w chain chain') (hok : v.bpb.Ok)
    (hchain : IsChain v dir chain) :
    ∃ n, dirSlots w chain' = dirSlots v chain ++ replicate n zeroSlot := by
  rcases hext with ⟨rfl, rfl⟩ | ⟨last, new, w₁, hlast, halloc, hnew, rfl, rfl⟩
  · exact ⟨0, by simp⟩
  obtain ⟨hpick, -, hdisk⟩ := extendChain_spec hok hchain hlast halloc hnew
  obtain ⟨hrange, hfree⟩ := pickFree_some hpick
  have hb : (zeroCluster (setFatEntry w₁ last new) new).bpb = v.bpb :=
    (allocCluster_spec hok halloc hnew).2.1
  refine ⟨entriesPerCluster v.bpb, ?_⟩
  rw [dirSlots_append, dirSlots_zeroed fun x hx => zeroCluster_of_mem hx, hb]
  congr 1
  apply dirSlots_congr hb
  intro c hc x hx
  have hcr := hchain.inRange c hc
  refine hdisk x ((dataStart_le_clusterAddr hok hcr).trans hx.1) fun hx' => ?_
  have heq := cluster_unique hok hcr hrange hx hx'
  have := hchain.not_free c hc
  rw [heq, hfree, fat32Free] at this
  omega

theorem Extends.fat {dir : ℕ} (hext : Extends v w chain chain') (hok : v.bpb.Ok)
    (hchain : IsChain v dir chain) {d : ℕ} (hd : d < v.bpb.maxCluster) (hnot : d ∉ chain') :
    getFatEntry w d = getFatEntry v d := by
  rcases hext with ⟨rfl, rfl⟩ | ⟨last, new, w₁, hlast, halloc, hnew, rfl, rfl⟩
  · rfl
  obtain ⟨hpick, hb, -, hother, -⟩ := allocCluster_spec hok halloc hnew
  have hrange := (pickFree_some hpick).1
  have hlmem := mem_of_getLast? hlast
  have hl := (hchain.inRange last hlmem).2
  rw [mem_append, mem_singleton, not_or] at hnot
  have hwok : w₁.bpb.Ok := hb ▸ hok
  have hset : (setFatEntry w₁ last new).bpb = v.bpb := hb
  rw [getFatEntry_zeroCluster (by rw [hset]; exact hok) (by rw [hset]; exact hrange)
      (by rw [hset]; exact hd),
    getFatEntry_setFatEntry_other hwok (by rw [hb]; exact hl) (by rw [hb]; exact hd) ?_,
    hother d hd hnot.2]
  rintro rfl
  exact hnot.1 hlmem

theorem Extends.mem (hext : Extends v w chain chain') (hok : v.bpb.Ok) {d : ℕ}
    (hd : d ∈ chain') : d ∈ chain ∨ getFatEntry v d = fat32Free := by
  rcases hext with ⟨rfl, rfl⟩ | ⟨last, new, w₁, hlast, halloc, hnew, rfl, rfl⟩
  · exact .inl hd
  · rcases mem_append.mp hd with hd | hd
    · exact .inl hd
    · rw [mem_singleton] at hd
      rw [hd]
      exact .inr (pickFree_some (allocCluster_spec hok halloc hnew).1).2

end ImpossibleOs.Fat32
