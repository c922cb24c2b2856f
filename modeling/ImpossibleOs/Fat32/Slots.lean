import ImpossibleOs.Fat32.Table
import ImpossibleOs.Fat32.Dir
import Mathlib.Data.List.Nodup

/-!
Where the slots of a new name go.

The search returns the first run of free entries along the cluster chain, or the
free entries at its end and one new cluster after them. The writer however goes
on from the start of the run by device address. The two agree exactly when the
clusters under the run are neighbours and the one new cluster is enough.
-/

namespace ImpossibleOs.Fat32

open ByteMem List Option

/-! ### Entries in chain order -/

/-- Device address of entry `j` of the directory with the given chain. -/
def entryAddr (b : Bpb) (chain : List ℕ) (j : ℕ) : ℕ :=
  clusterAddr b (chain.getD (j / entriesPerCluster b) 0) + 32 * (j % entriesPerCluster b)

/-- Entry `j` is deleted or was never used. -/
def EntryFree (v : Volume) (chain : List ℕ) (j : ℕ) : Prop :=
  v.disk (entryAddr v.bpb chain j) = 0x00 ∨ v.disk (entryAddr v.bpb chain j) = 0xE5

def entryCount (b : Bpb) (chain : List ℕ) : ℕ := chain.length * entriesPerCluster b

def RunOf (free : ℕ → Prop) (q count : ℕ) : Prop := ∀ k < count, free (q + k)

/-- The position where the slots of a name of `count` entries belong: the first run of free
entries of that length, or else the free entries at the end. -/
def SlotStart (free : ℕ → Prop) (n count q : ℕ) : Prop :=
  (q + count ≤ n ∧ RunOf free q count ∧ ∀ q' < q, ¬ RunOf free q' count) ∨
    ((∀ q', q' + count ≤ n → ¬ RunOf free q' count) ∧ q ≤ n ∧
      (∀ k, q ≤ k → k < n → free k) ∧ (0 < q → ¬ free (q - 1)))

/-- The directory's chain once there is room for `count` slots: as it was, or with the next
free cluster at its end. -/
def SlotChain (v : Volume) (chain : List ℕ) (count : ℕ) (chain' : List ℕ) : Prop :=
  ((∃ q, q + count ≤ entryCount v.bpb chain ∧ RunOf (EntryFree v chain) q count) ∧
      chain' = chain) ∨
    ((∀ q, q + count ≤ entryCount v.bpb chain → ¬ RunOf (EntryFree v chain) q count) ∧
      ∃ new, pickFree v = some new ∧ chain' = chain ++ [new])

section Scan

variable {free : ℕ → Prop} {addr : ℕ → ℕ} {count j : ℕ} {run : SlotRun}

/-- What the search knows after `j` entries. -/
structure ScanInv (free : ℕ → Prop) (addr : ℕ → ℕ) (count j : ℕ) (run : SlotRun) : Prop where
  short : run.len < count
  le : run.len ≤ j
  tail : ∀ k, j - run.len ≤ k → k < j → free k
  stop : run.len < j → ¬ free (j - run.len - 1)
  noRun : ∀ q, q + count ≤ j → ¬ RunOf free q count
  start : 0 < run.len → run.sector * 512 + run.offset = addr (j - run.len)

/-- What it returns when it finds a run within `n` entries. -/
def ScanFound (free : ℕ → Prop) (addr : ℕ → ℕ) (n count : ℕ) (run : SlotRun) : Prop :=
  ∃ q, q + count ≤ n ∧ RunOf free q count ∧ (∀ q' < q, ¬ RunOf free q' count) ∧
    run.sector * 512 + run.offset = addr q

theorem scanInv_empty (hcount : 0 < count) : ScanInv free addr count 0 emptyRun where
  short := hcount
  le := le_rfl
  tail := by intro k _ hk; omega
  stop := by intro h; exact absurd h (by simp [emptyRun])
  noRun := by
    intro q hq
    omega
  start := by intro h; exact absurd h (by simp [emptyRun])

theorem ScanInv.used (h : ScanInv free addr count j run) (hj : ¬ free j) :
    ScanInv free addr count (j + 1) { run with len := 0 } where
  short := by have := h.short; simp only; omega
  le := Nat.zero_le _
  tail := by intro k hk hk'; simp only at hk; omega
  stop := by intro _; simpa using hj
  noRun := by
    intro q hq hrun
    by_cases heq : q + count = j + 1
    · have hshort := h.short
      have := hrun (j - q) (by omega)
      rw [show q + (j - q) = j by omega] at this
      exact hj this
    · exact h.noRun q (by omega) hrun
  start := by intro h; exact absurd h (by simp)

theorem ScanInv.more {run' : SlotRun} (h : ScanInv free addr count j run) (hj : free j)
    (hlen : run'.len = run.len + 1) (hshort : run.len + 1 < count)
    (hstart : run'.sector * 512 + run'.offset = addr (j - run.len)) :
    ScanInv free addr count (j + 1) run' where
  short := by omega
  le := by have := h.le; omega
  tail := by
    intro k hk hk'
    by_cases heq : k = j
    · rwa [heq]
    · have := h.le
      exact h.tail k (by omega) (by omega)
  stop := by
    intro hlt
    have := h.stop (by omega)
    rwa [show j + 1 - run'.len - 1 = j - run.len - 1 by omega]
  noRun := by
    intro q hq hrun
    by_cases heq : q + count = j + 1
    · -- it would contain the used entry before the run at hand
      have hle := h.le
      refine h.stop (by omega) ?_
      have := hrun (j - run.len - 1 - q) (by omega)
      rwa [show q + (j - run.len - 1 - q) = j - run.len - 1 by omega] at this
    · exact h.noRun q (by omega) hrun
  start := by
    intro _
    rw [hstart]
    congr 1
    have := h.le
    omega

theorem ScanInv.found {run' : SlotRun} {n : ℕ} (h : ScanInv free addr count j run) (hj : free j)
    (hdone : count ≤ run.len + 1) (hn : j < n)
    (hstart : run'.sector * 512 + run'.offset = addr (j - run.len)) :
    ScanFound free addr n count run' := by
  have hshort := h.short
  have hle := h.le
  refine ⟨j - run.len, by omega, ?_, ?_, hstart⟩
  · intro k hk
    by_cases heq : j - run.len + k = j
    · rwa [heq]
    · exact h.tail _ (by omega) (by omega)
  · intro q' hq'
    exact h.noRun q' (by omega)

end Scan

section Search

variable {v : Volume} {chain : List ℕ} {count : ℕ}

theorem entriesPerCluster_eq (b : Bpb) : entriesPerCluster b = b.sectorsPerCluster * 16 := by
  unfold entriesPerCluster Bpb.bytesPerCluster
  omega

theorem entriesPerCluster_mul (b : Bpb) : 32 * entriesPerCluster b = b.bytesPerCluster := by
  rw [entriesPerCluster_eq, Bpb.bytesPerCluster]
  omega

theorem entriesPerCluster_pos (h : v.bpb.Ok) : 0 < entriesPerCluster v.bpb := by
  have := h.spcPos
  rw [entriesPerCluster_eq]
  omega

theorem entryAddr_add (chain : List ℕ) (b : Bpb) {k i : ℕ} (hi : i < entriesPerCluster b) :
    entryAddr b chain (k * entriesPerCluster b + i) = clusterAddr b (chain.getD k 0) + 32 * i := by
  have hdiv : (k * entriesPerCluster b + i) / entriesPerCluster b = k := by
    rw [Nat.add_comm, Nat.add_mul_div_right _ _ (by omega), Nat.div_eq_of_lt hi, Nat.zero_add]
  have hmod : (k * entriesPerCluster b + i) % entriesPerCluster b = i := by
    rw [Nat.mul_add_mod_of_lt hi]
  rw [entryAddr, hdiv, hmod]

theorem slotTurn_spec {k i cluster : ℕ} {run : SlotRun} (hk : chain[k]? = some cluster)
    (hi : i < entriesPerCluster v.bpb)
    (h : ScanInv (EntryFree v chain) (entryAddr v.bpb chain) count
      (k * entriesPerCluster v.bpb + i) run) : (∀ run', slotTurn v count cluster run i = .ok run' →
      ScanInv (EntryFree v chain) (entryAddr v.bpb chain) count
        (k * entriesPerCluster v.bpb + (i + 1)) run') ∧
    ∀ run', slotTurn v count cluster run i = .error run' →
      ScanFound (EntryFree v chain) (entryAddr v.bpb chain) (entryCount v.bpb chain) count
        run' := by
  set j := k * entriesPerCluster v.bpb + i with hj
  have haddr : entryAddr v.bpb chain j = clusterAddr v.bpb cluster + 32 * i := by
    rw [hj, entryAddr_add chain v.bpb hi, getD_eq_getElem?_getD, hk, getD_some]
  have hstart : (clusterToSector v.bpb cluster + 32 * i / 512) * 512 + 32 * i % 512 =
      entryAddr v.bpb chain j := by
    rw [haddr, clusterAddr]
    omega
  have hn : j < entryCount v.bpb chain := by
    have hlt : k < chain.length := (List.getElem?_eq_some_iff.mp hk).1
    have hmul : k * entriesPerCluster v.bpb + entriesPerCluster v.bpb ≤
        chain.length * entriesPerCluster v.bpb := by
      rw [← Nat.succ_mul]
      exact Nat.mul_le_mul_right _ hlt
    unfold entryCount
    omega
  unfold slotTurn
  rw [← haddr]
  by_cases hfree : EntryFree v chain j
  swap
  · have hne : ¬ (v.disk (entryAddr v.bpb chain j) = 0x00 ∨
        v.disk (entryAddr v.bpb chain j) = 0xE5) := hfree
    simp only [if_neg hne]
    refine ⟨?_, by simp⟩
    rintro run' ⟨⟩
    exact h.used hfree
  have hyes : v.disk (entryAddr v.bpb chain j) = 0x00 ∨
      v.disk (entryAddr v.bpb chain j) = 0xE5 := hfree
  simp only [if_pos hyes]
  -- the run at hand, begun here if there was none
  set run₁ : SlotRun := if run.len = 0 then
      ⟨clusterToSector v.bpb cluster + 32 * i / 512, 32 * i % 512, cluster, run.len⟩
    else run with hrun₁
  have hlen₁ : run₁.len = run.len := by
    rw [hrun₁]
    split <;> rfl
  have hstart₁ : run₁.sector * 512 + run₁.offset = entryAddr v.bpb chain (j - run.len) := by
    rw [hrun₁]
    split
    · rename_i h0
      rw [h0]
      exact hstart
    · rename_i h0
      exact h.start (by omega)
  by_cases hdone : count ≤ run.len + 1
  · rw [hlen₁, if_pos hdone]
    refine ⟨by simp, ?_⟩
    rintro run' ⟨⟩
    exact h.found hfree hdone hn hstart₁
  · rw [hlen₁, if_neg hdone]
    refine ⟨?_, by simp⟩
    rintro run' ⟨⟩
    exact h.more hfree rfl (by omega) hstart₁

theorem searchSlots_spec (hok : v.bpb.Ok) (pre suf : List ℕ) (prev : ℕ)
    {cur fuel : ℕ} {run : SlotRun} (hsuf : IsChain v cur suf) (hfuel : suf.length < fuel)
    (h : ScanInv (EntryFree v (pre ++ suf)) (entryAddr v.bpb (pre ++ suf)) count
      (entryCount v.bpb pre) run) :
    (∃ run', searchSlots v count fuel cur prev run = some (.found run') ∧
      ScanFound (EntryFree v (pre ++ suf)) (entryAddr v.bpb (pre ++ suf))
        (entryCount v.bpb (pre ++ suf)) count run') ∨
    ∃ run', searchSlots v count fuel cur prev run = some (.ended (suf.getLastD prev) run') ∧
      ScanInv (EntryFree v (pre ++ suf)) (entryAddr v.bpb (pre ++ suf)) count
        (entryCount v.bpb (pre ++ suf)) run' := by
  induction suf generalizing pre cur prev fuel run with
  | nil =>
    right
    cases fuel with
    | zero => omega
    | succ fuel =>
      refine ⟨run, ?_, by simpa using h⟩
      have hend : ¬ (2 ≤ cur ∧ cur < fat32Eoc) := by
        have : fat32Eoc ≤ cur := hsuf
        omega
      rw [searchSlots, if_neg hend]
      rfl
  | cons d suf ih =>
    obtain ⟨rfl, hd, hl⟩ := hsuf
    cases fuel with
    | zero => omega
    | succ fuel =>
      have hin : 2 ≤ d ∧ d < fat32Eoc := ⟨hd.1, hd.lt_eoc hok⟩
      have hk : (pre ++ d :: suf)[pre.length]? = some d := by simp
      -- the loop over the entries of this cluster
      obtain ⟨hloopOk, hloopErr⟩ := Loop.foldlM_range_except
        (n := entriesPerCluster v.bpb) (f := slotTurn v count d) (s := run)
        (fun i run => ScanInv (EntryFree v (pre ++ d :: suf))
          (entryAddr v.bpb (pre ++ d :: suf)) count
          (pre.length * entriesPerCluster v.bpb + i) run)
        (ScanFound (EntryFree v (pre ++ d :: suf)) (entryAddr v.bpb (pre ++ d :: suf))
          (entryCount v.bpb (pre ++ d :: suf)) count)
        h (fun i hi s hs => slotTurn_spec hk hi hs)
      rw [searchSlots, if_pos hin]
      cases hfold : (List.range (entriesPerCluster v.bpb)).foldlM (slotTurn v count d) run with
      | error run' => exact .inl ⟨run', rfl, hloopErr run' hfold⟩
      | ok run' =>
        have hinv := hloopOk run' hfold
        have hcount : pre.length * entriesPerCluster v.bpb + entriesPerCluster v.bpb =
            entryCount v.bpb (pre ++ [d]) := by
          simp [entryCount, Nat.succ_mul]
        rw [hcount] at hinv
        have happ : pre ++ d :: suf = pre ++ [d] ++ suf := by simp
        rw [happ] at hinv ⊢
        simp only [length_cons] at hfuel
        rcases ih (pre ++ [d]) d hl (show suf.length < fuel by omega) hinv with
          ⟨run'', hs, hf⟩ | ⟨run'', hs, hi⟩
        · exact .inl ⟨run'', hs, hf⟩
        · refine .inr ⟨run'', hs.trans ?_, hi⟩
          cases suf with
          | nil => rfl
          | cons e suf => rfl

theorem entryAddr_append {j : ℕ} (h : v.bpb.Ok) (hj : j < entryCount v.bpb chain)
    (rest : List ℕ) : entryAddr v.bpb (chain ++ rest) j = entryAddr v.bpb chain j := by
  have hdiv : j / entriesPerCluster v.bpb < chain.length := by
    rw [Nat.div_lt_iff_lt_mul (entriesPerCluster_pos h)]
    exact hj
  simp only [entryAddr, getD_eq_getElem?_getD, getElem?_append_left hdiv]

theorem mem_chain_of_lt {j : ℕ} (h : v.bpb.Ok) (hj : j < entryCount v.bpb chain) :
    chain.getD (j / entriesPerCluster v.bpb) 0 ∈ chain := by
  have hdiv : j / entriesPerCluster v.bpb < chain.length := by
    rw [Nat.div_lt_iff_lt_mul (entriesPerCluster_pos h)]
    exact hj
  rw [getD_eq_getElem?_getD, getElem?_eq_getElem hdiv, getD_some]
  exact getElem_mem hdiv

theorem entryAddr_inCluster {j : ℕ} (h : v.bpb.Ok) :
    clusterAddr v.bpb (chain.getD (j / entriesPerCluster v.bpb) 0) ≤ entryAddr v.bpb chain j ∧
      entryAddr v.bpb chain j + 32 ≤
        clusterAddr v.bpb (chain.getD (j / entriesPerCluster v.bpb) 0) + v.bpb.bytesPerCluster := by
  have hmod := Nat.mod_lt j (entriesPerCluster_pos h)
  have hbytes := entriesPerCluster_mul v.bpb
  unfold entryAddr
  omega

theorem extendChain_spec {dir last new : ℕ} {w : Volume} (h : v.bpb.Ok)
    (hchain : IsChain v dir chain) (hlast : chain.getLast? = some last)
    (halloc : allocCluster v = (w, new)) (hnew : new ≠ 0) : pickFree v = some new ∧
      IsChain (zeroCluster (setFatEntry w last new) new) dir (chain ++ [new]) ∧
      ∀ x, v.bpb.firstDataSector * 512 ≤ x → ¬ InCluster v.bpb new x →
        (zeroCluster (setFatEntry w last new) new).disk x = v.disk x := by
  obtain ⟨hpick, hb, hmark, hother, hdisk⟩ := allocCluster_spec h halloc hnew
  obtain ⟨hrange, hfree⟩ := pickFree_some hpick
  have hne : chain ≠ [] := by
    rintro rfl
    simp at hlast
  have hlast' : chain.getLast hne = last := by
    rw [getLast?_eq_some_getLast hne] at hlast
    simpa using hlast
  have hlmem : last ∈ chain := hlast' ▸ getLast_mem hne
  have hlrange := hchain.inRange last hlmem
  -- members of the chain are in use, the new cluster was not
  have hnotin : new ∉ chain := by
    intro hmem
    have := hchain.not_free new hmem
    rw [hfree, fat32Free] at this
    omega
  have hnl : new ≠ last := fun heq => hnotin (heq ▸ hlmem)
  have hwok : w.bpb.Ok := by rw [hb]; exact h
  set y := setFatEntry w last new with hy
  have hyb : y.bpb = v.bpb := hb
  have hyok : y.bpb.Ok := hwok
  have hfatz : ∀ c < v.bpb.maxCluster, getFatEntry (zeroCluster y new) c = getFatEntry y c := by
    intro c hc
    exact getFatEntry_zeroCluster hyok (by rw [hyb]; exact hrange) (by rw [hyb]; exact hc)
  have hfaty : ∀ c < v.bpb.maxCluster, c ≠ last → getFatEntry y c = getFatEntry w c := by
    intro c hc hcl
    exact getFatEntry_setFatEntry_other hwok (by rw [hb]; exact hlrange.2) (by rw [hb]; exact hc)
      hcl
  have hnlt : new < 2 ^ 28 := by
    have := hrange.lt_eoc h
    unfold fat32Eoc at this
    omega
  refine ⟨hpick, ?_, ?_⟩
  · refine IsChain.append hne hchain hyb hrange ?_ ?_ ?_
    · rw [hfatz new hrange.2, hfaty new hrange.2 hnl, hmark]
      decide
    · rw [hlast', hfatz last hlrange.2]
      exact getFatEntry_setFatEntry_same hwok (by rw [hb]; exact hlrange.2) hnlt
    · intro d hd
      have hdmem : d ∈ chain := dropLast_subset chain hd
      have hdrange := hchain.inRange d hdmem
      have hdne : d ≠ last := by
        rintro rfl
        have hnd := hchain.nodup h
        rw [← dropLast_append_getLast hne, hlast', nodup_append] at hnd
        exact hnd.2.2 d hd d (by simp) rfl
      rw [hfatz d hdrange.2, hfaty d hdrange.2 hdne,
        hother d hdrange.2 fun heq => hnotin (heq ▸ hdmem)]
  · intro x hx hxc
    rw [zeroCluster_of_not_mem (by rw [hyb]; exact hxc), ← hdisk x hx]
    exact setFatEntry_sameOutside hwok new (by rw [hb]; exact hlrange.2) x
      (.inr (by rw [hb]; exact hx))

/-- The volume after a search: as it was, or with a zeroed cluster at the end of the chain. -/
def Extends (v w : Volume) (chain chain' : List ℕ) : Prop :=
  (w = v ∧ chain' = chain) ∨
    ∃ last new w₁, chain.getLast? = some last ∧ allocCluster v = (w₁, new) ∧ new ≠ 0 ∧
      w = zeroCluster (setFatEntry w₁ last new) new ∧ chain' = chain ++ [new]

theorem Extends.spec {dir : ℕ} {w : Volume} {chain' : List ℕ} (hext : Extends v w chain chain')
    (h : v.bpb.Ok) (hchain : IsChain v dir chain) : w.bpb = v.bpb ∧ IsChain w dir chain' ∧
      ∀ x, v.bpb.firstDataSector * 512 ≤ x → (∀ c ∈ chain', ¬ InCluster v.bpb c x) →
        w.disk x = v.disk x := by
  rcases hext with ⟨rfl, rfl⟩ | ⟨last, new, w₁, hlast, halloc, hnew, rfl, rfl⟩
  · exact ⟨rfl, hchain, fun _ _ _ => rfl⟩
  · obtain ⟨-, hchain', hdisk⟩ := extendChain_spec h hchain hlast halloc hnew
    refine ⟨(allocCluster_spec h halloc hnew).2.1, hchain', ?_⟩
    intro x hx hxc
    exact hdisk x hx (hxc new (by simp))

theorem findFreeDirSlots_start {dir : ℕ} {w : Volume} {run : SlotRun} (h : v.bpb.Ok)
    (hchain : IsChain v dir chain) (hne : chain ≠ []) (hcount : 0 < count)
    (hrun : findFreeDirSlots v dir count = some (w, run)) :
    ∃ q chain', SlotStart (EntryFree v chain) (entryCount v.bpb chain) count q ∧
      SlotChain v chain count chain' ∧ Extends v w chain chain' ∧ q < entryCount v.bpb chain' ∧
      run.sector * 512 + run.offset = entryAddr v.bpb chain' q := by
  have hpos := entriesPerCluster_pos h
  have hinv : ScanInv (EntryFree v chain) (entryAddr v.bpb chain) count
      (entryCount v.bpb []) emptyRun := by
    simpa [entryCount] using scanInv_empty hcount
  unfold findFreeDirSlots at hrun
  rcases searchSlots_spec h [] chain 0 hchain (hchain.length_lt h) hinv with
    ⟨run', hs, hf⟩ | ⟨run', hs, hi⟩
  · rw [hs] at hrun
    obtain ⟨rfl, rfl⟩ : v = w ∧ run' = run := by simpa using hrun
    obtain ⟨q, hq, hqrun, hqmin, hstart⟩ := hf
    simp only [nil_append] at hq hqrun hqmin hstart
    exact ⟨q, chain, .inl ⟨hq, hqrun, hqmin⟩, .inl ⟨⟨q, hq, hqrun⟩, rfl⟩, .inl ⟨rfl, rfl⟩,
      by omega, hstart⟩
  · rw [hs] at hrun
    simp only [nil_append] at hi
    obtain ⟨last, hlast⟩ : ∃ last, chain.getLast? = some last :=
      ⟨_, getLast?_eq_some_getLast hne⟩
    have hprev : chain.getLastD 0 = last := by
      rw [getLastD_eq_getLast?, hlast, getD_some]
    have hlast2 : last ≠ 0 := by
      have := (hchain.inRange last (mem_of_getLast? hlast)).1
      omega
    rcases halloc : allocCluster v with ⟨w₁, new⟩
    simp only [hprev, halloc] at hrun
    split at hrun
    · contradiction
    rename_i hnew
    have hpick := (extendChain_spec h hchain hlast halloc hnew).1
    have hzb : (zeroCluster (setFatEntry w₁ last new) new).bpb = v.bpb :=
      (allocCluster_spec h halloc hnew).2.1
    set z := zeroCluster (setFatEntry w₁ last new) new with hz
    have hlen := hi.le
    have hn : entryCount v.bpb (chain ++ [new]) =
        entryCount v.bpb chain + entriesPerCluster v.bpb := by
      simp [entryCount, Nat.succ_mul]
    have hstart : SlotStart (EntryFree v chain) (entryCount v.bpb chain) count
        (entryCount v.bpb chain - run'.len) := by
      refine .inr ⟨hi.noRun, by omega, hi.tail, ?_⟩
      intro hpos'
      exact hi.stop (by omega)
    have hrun' : w = z ∧ run.sector * 512 + run.offset =
        entryAddr v.bpb (chain ++ [new]) (entryCount v.bpb chain - run'.len) := by
      split at hrun
      · rename_i h0
        obtain ⟨rfl, rfl⟩ : z = w ∧ _ = run := by simpa using hrun
        have haddr := entryAddr_add (chain ++ [new]) v.bpb (k := chain.length) hpos
        refine ⟨rfl, ?_⟩
        rw [h0, Nat.sub_zero, entryCount, ← Nat.add_zero (chain.length * _), haddr]
        simp [clusterAddr, hzb]
      · rename_i h0
        obtain ⟨rfl, rfl⟩ : z = w ∧ run' = run := by simpa using hrun
        refine ⟨rfl, ?_⟩
        rw [entryAddr_append h (by omega)]
        exact hi.start (by omega)
    obtain ⟨rfl, haddr⟩ := hrun'
    exact ⟨_, chain ++ [new], hstart, .inr ⟨hi.noRun, new, hpick, rfl⟩,
      .inr ⟨last, new, w₁, hlast, halloc, hnew, hz, rfl⟩, by omega, haddr⟩

end Search

/-! ### The writer against the chain -/

theorem SlotStart.unique {free : ℕ → Prop} {n count q q' : ℕ} (h : SlotStart free n count q)
    (h' : SlotStart free n count q') : q = q' := by
  rcases h with ⟨hq, hrun, hmin⟩ | ⟨hnone, hq, htail, hstop⟩
  · rcases h' with ⟨hq', hrun', hmin'⟩ | ⟨hnone', -⟩
    · rcases Nat.lt_trichotomy q q' with hlt | heq | hlt
      · exact absurd hrun (hmin' q hlt)
      · exact heq
      · exact absurd hrun' (hmin q' hlt)
    · exact absurd hrun (hnone' q hq)
  · rcases h' with ⟨hq', hrun', -⟩ | ⟨-, hq', htail', hstop'⟩
    · exact absurd hrun' (hnone q' hq')
    · rcases Nat.lt_trichotomy q q' with hlt | heq | hlt
      · exact absurd (htail (q' - 1) (by omega) (by omega)) (hstop' (by omega))
      · exact heq
      · exact absurd (htail' (q - 1) (by omega) (by omega)) (hstop (by omega))

theorem SlotChain.unique {v : Volume} {chain l l' : List ℕ} {count : ℕ}
    (h : SlotChain v chain count l) (h' : SlotChain v chain count l') : l = l' := by
  rcases h with ⟨⟨q, hq, hrun⟩, rfl⟩ | ⟨hnone, new, hnew, rfl⟩
  · rcases h' with ⟨-, rfl⟩ | ⟨hnone', -⟩
    · rfl
    · exact absurd hrun (hnone' q hq)
  · rcases h' with ⟨⟨q, hq, hrun⟩, -⟩ | ⟨-, new', hnew', rfl⟩
    · exact absurd hrun (hnone q hq)
    · rw [hnew] at hnew'
      cases hnew'
      rfl

/-- The `count` entries from `q` on exist, in clusters that follow each other on the device. -/
def Neighbours (b : Bpb) (chain : List ℕ) (q count : ℕ) : Prop :=
  q + count ≤ entryCount b chain ∧
    ∀ k < count, chain.getD ((q + k) / entriesPerCluster b) 0 =
      chain.getD (q / entriesPerCluster b) 0 +
        ((q + k) / entriesPerCluster b - q / entriesPerCluster b)

/-- Where the slots of a name of `count` entries belong in the directory with the given chain,
with the cluster added at its end if need be, is a stretch of neighbouring clusters. -/
def SlotsContiguous (v : Volume) (chain : List ℕ) (count : ℕ) : Prop :=
  ∀ q chain', SlotStart (EntryFree v chain) (entryCount v.bpb chain) count q →
    SlotChain v chain count chain' → Neighbours v.bpb chain' q count

/-- The entries at `addrs`, written from `v` to `v'`, are consecutive entries of the directory,
and no data outside the directory's clusters changed. -/
def SlotsInDirectory (v v' : Volume) (dir : ℕ) (addrs : List ℕ) : Prop :=
  ∃ chain, IsChain v' dir chain ∧
    (∃ q, ∀ k < addrs.length, q + k < entryCount v.bpb chain ∧
      addrs[k]? = some (entryAddr v.bpb chain (q + k))) ∧
    ∀ x, v.bpb.firstDataSector * 512 ≤ x → (∀ c ∈ chain, ¬ InCluster v.bpb c x) →
      v'.disk x = v.disk x

section Writer

variable {b : Bpb} {chain : List ℕ}

theorem slotAddr_eq (run : SlotRun) (k : ℕ) :
    slotAddr run k = run.sector * 512 + run.offset + 32 * k := by
  unfold slotAddr
  omega

theorem entryAddr_linear_iff (h : b.Ok) (hpos : 0 < entriesPerCluster b)
    (hrange : ∀ c ∈ chain, b.InRange c) {q k : ℕ} (hk : q + k < entryCount b chain) :
    entryAddr b chain (q + k) = entryAddr b chain q + 32 * k ↔
      chain.getD ((q + k) / entriesPerCluster b) 0 = chain.getD (q / entriesPerCluster b) 0 +
          ((q + k) / entriesPerCluster b - q / entriesPerCluster b) := by
  have hmem : ∀ j < entryCount b chain, b.InRange (chain.getD (j / entriesPerCluster b) 0) := by
    intro j hj
    have hdiv : j / entriesPerCluster b < chain.length := by
      rw [Nat.div_lt_iff_lt_mul hpos]
      exact hj
    rw [getD_eq_getElem?_getD, getElem?_eq_getElem hdiv, getD_some]
    exact hrange _ (getElem_mem hdiv)
  have hc := hmem q (by omega)
  have hc' := hmem (q + k) hk
  set E := entriesPerCluster b with hE
  set c := chain.getD (q / E) 0 with hcdef
  set c' := chain.getD ((q + k) / E) 0 with hcdef'
  set d := (q + k) / E - q / E
  have hbytes : b.bytesPerCluster = 32 * E := (entriesPerCluster_mul b).symm
  -- the offsets inside the clusters make up the rest of the distance
  have hdist : q % E + k = d * E + (q + k) % E := by
    have h₁ := Nat.div_add_mod q E
    have h₂ := Nat.div_add_mod (q + k) E
    have h₃ : q / E ≤ (q + k) / E := Nat.div_le_div_right (by omega)
    have h₄ : (q + k) / E = q / E + d := by omega
    rw [h₄, Nat.mul_add] at h₂
    rw [Nat.mul_comm d E]
    omega
  have hlinear : entryAddr b chain (q + k) = entryAddr b chain q + 32 * k ↔
      clusterAddr b c' = clusterAddr b c + d * b.bytesPerCluster := by
    simp only [entryAddr, ← hE, ← hcdef, ← hcdef', hbytes]
    rw [show d * (32 * E) = 32 * (d * E) by rw [Nat.mul_left_comm]]
    omega
  rw [hlinear]
  constructor
  · intro heq
    rw [clusterAddr_eq h hc, clusterAddr_eq h hc', Nat.add_assoc, ← Nat.add_mul,
      Nat.add_left_cancel_iff] at heq
    have hcancel := Nat.eq_of_mul_eq_mul_right (bytesPerCluster_pos h) heq
    have h2 := hc.1
    have h2' := hc'.1
    omega
  · intro heq
    rw [heq] at hc' ⊢
    exact clusterAddr_add h hc hc'

theorem entryAddr_inj (h : b.Ok) (hpos : 0 < entriesPerCluster b)
    (hrange : ∀ c ∈ chain, b.InRange c) (hnodup : chain.Nodup) {i j : ℕ}
    (hi : i < entryCount b chain) (hj : j < entryCount b chain)
    (heq : entryAddr b chain i = entryAddr b chain j) : i = j := by
  set E := entriesPerCluster b with hE
  have hbytes : b.bytesPerCluster = 32 * E := (entriesPerCluster_mul b).symm
  have hdi : i / E < chain.length := by
    rw [Nat.div_lt_iff_lt_mul hpos]
    exact hi
  have hdj : j / E < chain.length := by
    rw [Nat.div_lt_iff_lt_mul hpos]
    exact hj
  simp only [entryAddr, getD_eq_getElem?_getD, getElem?_eq_getElem hdi,
    getElem?_eq_getElem hdj, getD_some, ← hE] at heq
  have hmi := Nat.mod_lt i hpos
  have hmj := Nat.mod_lt j hpos
  have hsame : chain[i / E] = chain[j / E] := by
    by_contra hne
    have := clusters_apart h (hrange _ (getElem_mem hdi)) (hrange _ (getElem_mem hdj)) hne
    omega
  have hdiv : i / E = j / E := (List.Nodup.getElem_inj_iff hnodup).mp hsame
  rw [hsame] at heq
  have h₁ := Nat.div_add_mod i E
  have h₂ := Nat.div_add_mod j E
  rw [hdiv] at h₁
  omega

theorem length_lfnChar (name : List UInt8) (idx : ℕ) : (lfnChar name idx).length = 2 := by
  unfold lfnChar
  split
  · rfl
  · split <;> rfl

theorem length_lfnChars (name : List UInt8) (base n : ℕ) :
    (lfnChars name base n).length = 2 * n := by
  simp [lfnChars, length_flatMap, length_lfnChar, Nat.mul_comm]

theorem length_lfnEntry (name : List UInt8) (sum : UInt8) (slots s : ℕ) :
    (lfnEntry name sum slots s).length = 32 := by
  simp [lfnEntry, length_lfnChars]

theorem length_slotEntry (sfn name : List UInt8) {sfnEntry : List UInt8}
    (h : sfnEntry.length = 32) (i : ℕ) : (slotEntry sfn name sfnEntry i).length = 32 := by
  simp only [slotEntry]
  split
  · exact length_lfnEntry _ _ _ _
  · exact h

theorem writeSlots_spec (v : Volume) (run : SlotRun) (n : ℕ) {entry : ℕ → List UInt8}
    (hlen : ∀ i, (entry i).length = 32) :
    ((List.range n).foldl (writeSlot run entry) v).bpb = v.bpb ∧
      ∀ x, (∀ k < n, x < slotAddr run k ∨ slotAddr run k + 32 ≤ x) →
        ((List.range n).foldl (writeSlot run entry) v).disk x = v.disk x := by
  refine Loop.foldl_range (n := n) (f := writeSlot run entry) (s := v)
    (fun i w => w.bpb = v.bpb ∧
      ∀ x, (∀ k < i, x < slotAddr run k ∨ slotAddr run k + 32 ≤ x) → w.disk x = v.disk x)
    ⟨rfl, fun _ _ => rfl⟩ ?_
  rintro i hi w ⟨hb, hd⟩
  refine ⟨hb, fun x hx => ?_⟩
  have hthis := hx i (by omega)
  rw [← hd x fun k hk => hx k (by omega)]
  refine sameOutside_storeBytes le_rfl le_rfl x ?_
  rw [hlen]
  exact hthis

theorem lfnWriteSlots_eq {v v' : Volume} {dir : ℕ} {sfn name sfnEntry : List UInt8}
    {addrs : List ℕ} (h : lfnWriteSlots v dir sfn name sfnEntry = some (v', addrs)) :
    ∃ w run, findFreeDirSlots v dir (lfnSlotCount name + 1) = some (w, run) ∧
      v' = (List.range (lfnSlotCount name + 1)).foldl
        (writeSlot run (slotEntry sfn name sfnEntry)) w ∧
      addrs = (List.range (lfnSlotCount name + 1)).map (slotAddr run) := by
  unfold lfnWriteSlots at h
  dsimp only at h
  split at h
  · contradiction
  · rename_i w run hfind
    obtain ⟨rfl, rfl⟩ := Prod.mk.inj (some.inj h)
    exact ⟨w, run, hfind, rfl, rfl⟩

theorem consecutive_iff (h : b.Ok) (hpos : 0 < entriesPerCluster b)
    (hrange : ∀ c ∈ chain, b.InRange c) (hnodup : chain.Nodup) {q count : ℕ}
    (hq : q < entryCount b chain) (hcount : 0 < count) :
    (∃ q₁, ∀ k < count, q₁ + k < entryCount b chain ∧
      entryAddr b chain (q₁ + k) = entryAddr b chain q + 32 * k) ↔ Neighbours b chain q count := by
  constructor
  · rintro ⟨q₁, hq₁⟩
    obtain rfl : q₁ = q := by
      obtain ⟨hlt, heq⟩ := hq₁ 0 hcount
      exact entryAddr_inj h hpos hrange hnodup (by omega) hq (by simpa using heq)
    refine ⟨?_, fun k hk => ?_⟩
    · have := (hq₁ (count - 1) (by omega)).1
      omega
    · exact (entryAddr_linear_iff h hpos hrange (hq₁ k hk).1).mp (hq₁ k hk).2
  · rintro ⟨hfit, hnb⟩
    refine ⟨q, fun k hk => ⟨by omega, ?_⟩⟩
    exact (entryAddr_linear_iff h hpos hrange (by omega)).mpr (hnb k hk)

theorem lfnWriteSlots_place {v v' : Volume} {dir : ℕ} {chain : List ℕ}
    {sfn name sfnEntry : List UInt8} {addrs : List ℕ} (hok : v.bpb.Ok)
    (hchain : IsChain v dir chain) (hdir : v.bpb.InRange dir) (hentry : sfnEntry.length = 32)
    (hrun : lfnWriteSlots v dir sfn name sfnEntry = some (v', addrs)) : ∃ w run q chain',
      v' = (List.range (lfnSlotCount name + 1)).foldl
        (writeSlot run (slotEntry sfn name sfnEntry)) w ∧
      SlotStart (EntryFree v chain) (entryCount v.bpb chain) (lfnSlotCount name + 1) q ∧
      SlotChain v chain (lfnSlotCount name + 1) chain' ∧ Extends v w chain chain' ∧
      v'.bpb = v.bpb ∧ IsChain v' dir chain' ∧ q < entryCount v.bpb chain' ∧
      (∀ k, slotAddr run k = entryAddr v.bpb chain' q + 32 * k) ∧
      addrs = (List.range (lfnSlotCount name + 1)).map (slotAddr run) := by
  have hne : chain ≠ [] := by
    rintro rfl
    have hend : fat32Eoc ≤ dir := hchain
    have := hdir.lt_eoc hok
    omega
  obtain ⟨w, run, hfind, rfl, rfl⟩ := lfnWriteSlots_eq hrun
  set count := lfnSlotCount name + 1
  obtain ⟨q, chain', hstart, hslot, hext, hq, haddr⟩ :=
    findFreeDirSlots_start hok hchain hne (by omega) hfind
  obtain ⟨hwb, hchain', -⟩ := hext.spec hok hchain
  obtain ⟨hvb, hvd⟩ := writeSlots_spec w run count (length_slotEntry sfn name hentry)
  have hslotAddr : ∀ k, slotAddr run k = entryAddr v.bpb chain' q + 32 * k := by
    intro k
    rw [slotAddr_eq, haddr]
  have hlow : v.bpb.firstDataSector * 512 ≤ entryAddr v.bpb chain' q := by
    have := dataStart_le_clusterAddr hok (hwb ▸ hchain'.inRange _ (mem_chain_of_lt hok hq))
    unfold entryAddr
    omega
  refine ⟨w, run, q, chain', rfl, hstart, hslot, hext, hvb.trans hwb, ?_, hq, hslotAddr, rfl⟩
  have hwok : w.bpb.Ok := by rw [hwb]; exact hok
  refine hchain'.congr hvb fun d hd => ?_
  refine getFatEntry_congr hwok hvb (hchain'.inRange d hd).2 ?_
  intro x _ hx
  apply hvd
  intro k _
  rw [hslotAddr, hwb] at *
  omega

/-- A new name goes into consecutive entries of its directory, and no other cluster is
touched, exactly when the place for it is a stretch of neighbouring clusters. -/
theorem lfnWriteSlots_inDirectory_iff (v v' : Volume) (dir : ℕ) (chain : List ℕ)
    (sfn name sfnEntry : List UInt8) (addrs : List ℕ) (hok : v.bpb.Ok)
    (hchain : IsChain v dir chain) (hdir : v.bpb.InRange dir) (hentry : sfnEntry.length = 32)
    (hrun : lfnWriteSlots v dir sfn name sfnEntry = some (v', addrs)) :
    SlotsInDirectory v v' dir addrs ↔ SlotsContiguous v chain (lfnSlotCount name + 1) := by
  have hpos := entriesPerCluster_pos hok
  obtain ⟨w, run, q, chain', rfl, hstart, hslot, hext, hb, hchain', hq, haddr, rfl⟩ :=
    lfnWriteSlots_place hok hchain hdir hentry hrun
  obtain ⟨-, hvd⟩ := writeSlots_spec w run (lfnSlotCount name + 1)
    (length_slotEntry sfn name hentry)
  set count := lfnSlotCount name + 1
  set v' := (List.range count).foldl (writeSlot run (slotEntry sfn name sfnEntry)) w
  have hok' : v'.bpb.Ok := by rw [hb]; exact hok
  have hrange : ∀ c ∈ chain', v.bpb.InRange c := by
    rw [← hb]
    exact hchain'.inRange
  have hplace := @consecutive_iff v.bpb chain' hok hpos hrange (hchain'.nodup hok') q count hq
    (by omega)
  constructor
  · rintro ⟨chain₁, hchain₁, ⟨q₁, hq₁⟩, -⟩ q₂ chain₂ hstart₂ hslot₂
    obtain rfl := hstart.unique hstart₂
    obtain rfl := hslot.unique hslot₂
    obtain rfl : chain₁ = chain' := IsChain.unique hok' hchain₁ hchain'
    refine hplace.mp ⟨q₁, fun k hk => ?_⟩
    obtain ⟨hlt, hget⟩ := hq₁ k (by simpa using hk)
    refine ⟨hlt, ?_⟩
    rw [List.getElem?_map, List.getElem?_range hk, map_some, Option.some.injEq,
      haddr] at hget
    exact hget.symm
  · intro hcont
    obtain ⟨hfit, hnb⟩ := hcont q chain' hstart hslot
    have hslots : ∀ k < count, slotAddr run k = entryAddr v.bpb chain' (q + k) := by
      intro k hk
      rw [haddr, (entryAddr_linear_iff hok hpos hrange (by omega)).mpr (hnb k hk)]
    refine ⟨chain', hchain', ⟨q, fun k hk => ?_⟩, fun x hx hxc => ?_⟩
    · have hk' : k < count := by simpa using hk
      refine ⟨by omega, ?_⟩
      rw [List.getElem?_map, List.getElem?_range hk', map_some, hslots k hk']
    · rw [hvd x, (hext.spec hok hchain).2.2 x hx hxc]
      intro k hk
      -- a slot lies inside its cluster
      have hmem := mem_chain_of_lt hok (show q + k < entryCount v.bpb chain' by omega)
      have hout := hxc _ hmem
      have hin := @entryAddr_inCluster v chain' (q + k) hok
      rw [hslots k hk]
      unfold InCluster at hout
      omega

end Writer

/-! ### A directory in two clusters that are not neighbours -/

/-- Cluster 2 goes on in cluster 4; cluster 3 is a file's. The one free entry of cluster 2 is its
last. -/
def splitVolume : Volume where
  bpb := ⟨512, 1, 1, 1, 10, 1, 2, 2, 1⟩
  disk := fun x =>
    if 512 ≤ x ∧ x < 1024 then
      UInt8.ofNat ([0, 0, 4, eocMark, eocMark].getD ((x - 512) / 4) 0 / 256 ^ ((x - 512) % 4))
    else if 1024 ≤ x ∧ x < 1504 then 0x41
    else 0
  fsinfoValid := false
  fsinfoFreeCount := fsinfoUnknown
  fsinfoNextFree := 2
  fsinfoDirty := false

theorem splitVolume_ok : splitVolume.bpb.Ok := by
  constructor <;> decide

theorem splitVolume_chain : IsChain splitVolume 2 [2, 4] :=
  ⟨rfl, by unfold Bpb.InRange; decide, by decide, by unfold Bpb.InRange; decide,
    show fat32Eoc ≤ _ by decide⟩

theorem splitVolume_keeps_chain {v' : Volume} (hbpb : v'.bpb = splitVolume.bpb)
    (hfat2 : getFatEntry v' 2 = 4) (hfat4 : getFatEntry v' 4 = eocMark) : IsChain v' 2 [2, 4] := by
  refine ⟨rfl, ?_, hfat2.symm, ?_, ?_⟩
  · rw [hbpb]
    unfold Bpb.InRange
    decide
  · rw [hbpb, hfat2]
    unfold Bpb.InRange
    decide
  · rw [hfat2, hfat4]
    show fat32Eoc ≤ eocMark
    decide

theorem splitVolume_entryAddr {j : ℕ} (hj : j < entryCount splitVolume.bpb [2, 4]) :
    entryAddr splitVolume.bpb [2, 4] j ≠ 1536 := by
  have hcases : ∀ j < 32, entryAddr splitVolume.bpb [2, 4] j ≠ 1536 := by decide
  have hcount : entryCount splitVolume.bpb [2, 4] = 32 := by decide
  exact hcases j (by omega)

theorem lfnWriteSlots_inDirectory_iff_splitVolume :
    ∃ v' addrs, lfnWriteSlots splitVolume 2 [] [0x61] (List.replicate 32 0x41) = some (v', addrs) ∧
      (SlotsInDirectory splitVolume v' 2 addrs ↔ SlotsContiguous splitVolume [2, 4] 2) := by
  have hsome : (lfnWriteSlots splitVolume 2 [] [0x61] (List.replicate 32 0x41)).isSome := by
    decide
  obtain ⟨⟨v', addrs⟩, hrun⟩ := isSome_iff_exists.mp hsome
  refine ⟨v', addrs, hrun, ?_⟩
  exact lfnWriteSlots_inDirectory_iff splitVolume v' 2 [2, 4] [] [0x61] (List.replicate 32 0x41)
    addrs splitVolume_ok splitVolume_chain (by unfold Bpb.InRange; decide) (by decide) hrun

/-- The short entry of the name `a` lands in cluster 3. -/
theorem lfnWriteSlots_splitVolume :
    ∃ v' addrs, lfnWriteSlots splitVolume 2 [] [0x61] (List.replicate 32 0x41) = some (v', addrs) ∧
      addrs = [1504, 1536] ∧ ¬ SlotsInDirectory splitVolume v' 2 addrs := by
  have hsome : (lfnWriteSlots splitVolume 2 [] [0x61] (List.replicate 32 0x41)).isSome := by
    decide
  have haddrs : (lfnWriteSlots splitVolume 2 [] [0x61] (List.replicate 32 0x41)).map Prod.snd =
      some [1504, 1536] := by decide
  have hbpb : (lfnWriteSlots splitVolume 2 [] [0x61] (List.replicate 32 0x41)).map
      (fun p => p.1.bpb) = some splitVolume.bpb := by decide
  have hfat : (lfnWriteSlots splitVolume 2 [] [0x61] (List.replicate 32 0x41)).map
      (fun p => (getFatEntry p.1 2, getFatEntry p.1 4)) = some (4, eocMark) := by decide
  obtain ⟨⟨v', addrs⟩, hrun⟩ := isSome_iff_exists.mp hsome
  simp only [hrun, map_some, Option.some.injEq, Prod.mk.injEq] at haddrs hbpb hfat
  obtain ⟨hfat2, hfat4⟩ := hfat
  refine ⟨v', addrs, hrun, haddrs, ?_⟩
  rintro ⟨chain, hchain, ⟨q, hq⟩, -⟩
  have hchain' := splitVolume_keeps_chain hbpb hfat2 hfat4
  obtain rfl := IsChain.unique (by rw [hbpb]; exact splitVolume_ok) hchain hchain'
  -- the second address is in neither cluster
  obtain ⟨hlt, hget⟩ := hq 1 (by simp [haddrs])
  rw [haddrs] at hget
  exact splitVolume_entryAddr hlt (by simpa using hget.symm)

/-! ### Room for the run -/

section Room

variable {v w : Volume} {chain chain' : List ℕ} {dir count : ℕ} {run : SlotRun}

/-- The position found starts `count` free entries of the directory. -/
def SlotsFound (w : Volume) (dir count : ℕ) (run : SlotRun) : Prop :=
  ∃ chain q, IsChain w dir chain ∧ run.sector * 512 + run.offset = entryAddr w.bpb chain q ∧
    q + count ≤ entryCount w.bpb chain ∧ RunOf (EntryFree w chain) q count

/-- There is room: in the chain as it is, or in the free entries at its end with one cluster
more. -/
def RoomOrOneMore (v : Volume) (chain : List ℕ) (count : ℕ) : Prop :=
  (∃ q, q + count ≤ entryCount v.bpb chain ∧ RunOf (EntryFree v chain) q count) ∨
    ∃ q ≤ entryCount v.bpb chain,
      (∀ k, q ≤ k → k < entryCount v.bpb chain → EntryFree v chain k) ∧
        q + count ≤ entryCount v.bpb chain + entriesPerCluster v.bpb

theorem entryCount_append (b : Bpb) (chain : List ℕ) (new : ℕ) :
    entryCount b (chain ++ [new]) = entryCount b chain + entriesPerCluster b := by
  simp [entryCount, Nat.succ_mul]

theorem Extends.entryFree_iff {j : ℕ} (hext : Extends v w chain chain') (h : v.bpb.Ok)
    (hchain : IsChain v dir chain) (hj : j < entryCount v.bpb chain') :
    EntryFree w chain' j ↔ (j < entryCount v.bpb chain → EntryFree v chain j) := by
  rcases hext with ⟨rfl, rfl⟩ | ⟨last, new, w₁, hlast, halloc, hnew, rfl, rfl⟩
  · exact ⟨fun hfree _ => hfree, fun hfree => hfree hj⟩
  · obtain ⟨hpick, hchain', hdisk⟩ := extendChain_spec h hchain hlast halloc hnew
    have hb : w₁.bpb = v.bpb := (allocCluster_spec h halloc hnew).2.1
    have hzb : (zeroCluster (setFatEntry w₁ last new) new).bpb = v.bpb := hb
    have hrange := (pickFree_some hpick).1
    unfold EntryFree
    rw [hzb]
    by_cases hold : j < entryCount v.bpb chain
    · have hmem := mem_chain_of_lt h hold
      have hentry := @entryAddr_inCluster v chain j h
      have hin : InCluster v.bpb _ (entryAddr v.bpb chain j) := ⟨hentry.1, by omega⟩
      have hcr := hchain.inRange _ hmem
      have hnodup := hchain'.nodup (by rw [hzb]; exact h)
      rw [entryAddr_append h hold, hdisk _ ((dataStart_le_clusterAddr h hcr).trans hin.1)]
      · exact ⟨fun hfree _ => hfree, fun hfree => hfree hold⟩
      · intro hnewin
        have heq := cluster_unique h hcr hrange hin hnewin
        rw [heq] at hmem
        exact (nodup_append.1 hnodup).2.2 new hmem new (by simp) rfl
    · rw [entryCount_append] at hj
      have hdiv : j / entriesPerCluster v.bpb = chain.length := by
        rw [Nat.div_eq_iff (entriesPerCluster_pos h)]
        unfold entryCount at hj hold
        omega
      have hentry := @entryAddr_inCluster v (chain ++ [new]) j h
      have hin : InCluster (setFatEntry w₁ last new).bpb new
          (entryAddr v.bpb (chain ++ [new]) j) := by
        have hyb : (setFatEntry w₁ last new).bpb = v.bpb := hb
        rw [hdiv] at hentry
        rw [hyb]
        simp only [getD_eq_getElem?_getD, getElem?_concat_length, getD_some]
          at hentry
        exact ⟨hentry.1, by omega⟩
      have hzero := @zeroCluster_of_mem (setFatEntry w₁ last new) new _ hin
      exact ⟨fun _ hlt => absurd hlt hold, fun _ => .inl hzero⟩

theorem slotsFound_iff_fits {q : ℕ} (h : v.bpb.Ok) (hchain : IsChain v dir chain)
    (hcount : 0 < count) (hstart : SlotStart (EntryFree v chain) (entryCount v.bpb chain) count q)
    (hext : Extends v w chain chain') (hq : q < entryCount v.bpb chain')
    (haddr : run.sector * 512 + run.offset = entryAddr v.bpb chain' q) :
    SlotsFound w dir count run ↔ q + count ≤ entryCount v.bpb chain' := by
  obtain ⟨hwb, hchain', -⟩ := hext.spec h hchain
  have hwok : w.bpb.Ok := hwb ▸ h
  constructor
  · rintro ⟨chain₁, q₁, hchain₁, haddr₁, hfit, -⟩
    obtain rfl := IsChain.unique hwok hchain₁ hchain'
    rw [hwb] at haddr₁ hfit
    have hrange : ∀ c ∈ chain₁, v.bpb.InRange c := hwb ▸ hchain'.inRange
    have heq := entryAddr_inj h (entriesPerCluster_pos h) hrange (hchain'.nodup hwok)
      hq (show q₁ < _ by omega) (haddr.symm.trans haddr₁)
    omega
  · intro hfit
    refine ⟨chain', q, hchain', by rw [hwb]; exact haddr, by rw [hwb]; exact hfit, ?_⟩
    intro k hk
    rw [hext.entryFree_iff h hchain (by omega)]
    intro hold
    rcases hstart with ⟨-, hrun, -⟩ | ⟨-, -, htail, -⟩
    · exact hrun k hk
    · exact htail (q + k) (by omega) hold

theorem SlotStart.fits_iff {q : ℕ}
    (hstart : SlotStart (EntryFree v chain) (entryCount v.bpb chain) count q)
    (hslot : SlotChain v chain count chain') :
    q + count ≤ entryCount v.bpb chain' ↔ RoomOrOneMore v chain count := by
  rcases hstart with ⟨hq, hrun, -⟩ | ⟨hnone, hq, htail, hstop⟩
  · have hroom : RoomOrOneMore v chain count := .inl ⟨q, hq, hrun⟩
    rcases hslot with ⟨-, rfl⟩ | ⟨hnone, -⟩
    · exact iff_of_true hq hroom
    · exact absurd hrun (hnone q hq)
  · rcases hslot with ⟨⟨q', hq', hrun'⟩, -⟩ | ⟨-, new, -, rfl⟩
    · exact absurd hrun' (hnone q' hq')
    · rw [entryCount_append]
      constructor
      · exact fun hfit => .inr ⟨q, hq, htail, hfit⟩
      · rintro (⟨q', hq', hrun'⟩ | ⟨q', hq', htail', hfit⟩)
        · exact absurd hrun' (hnone q' hq')
        · -- the run begins no later than any free stretch at the end
          have hle : q ≤ q' := by
            by_contra hlt
            exact hstop (by omega) (htail' (q - 1) (by omega) (by omega))
          omega

theorem searchSlots_zero (v : Volume) (fuel cur prev : ℕ) (run : SlotRun) :
    searchSlots v 0 fuel cur prev run = searchSlots v 1 fuel cur prev run := by
  have hturn : slotTurn v 0 = slotTurn v 1 := by
    funext cluster run i
    simp [slotTurn]
  induction fuel generalizing cur prev run with
  | zero => rfl
  | succ fuel ih =>
    simp only [searchSlots, hturn, ih]

/-- Only one cluster is ever added: a success starts a free run of the length asked for exactly
when that is room enough. -/
theorem findFreeDirSlots_room_iff (hok : v.bpb.Ok) (hchain : IsChain v dir chain)
    (hne : chain ≠ []) (hrun : findFreeDirSlots v dir count = some (w, run)) :
    SlotsFound w dir count run ↔ RoomOrOneMore v chain count := by
  rcases Nat.eq_zero_or_pos count with rfl | hcount
  · -- a search for no entries is a search for one
    have hone : findFreeDirSlots v dir 1 = some (w, run) := by
      rw [← hrun]
      simp only [findFreeDirSlots, searchSlots_zero]
    obtain ⟨q, chain', -, -, hext, hq, haddr⟩ :=
      findFreeDirSlots_start hok hchain hne Nat.one_pos hone
    obtain ⟨hwb, hchain', -⟩ := hext.spec hok hchain
    rw [← hwb] at hq haddr
    exact iff_of_true ⟨chain', q, hchain', haddr, hq.le, fun k hk => absurd hk (by omega)⟩
      (.inl ⟨0, by omega, fun k hk => absurd hk (by omega)⟩)
  · obtain ⟨q, chain', hstart, hslot, hext, hq, haddr⟩ :=
      findFreeDirSlots_start hok hchain hne hcount hrun
    exact (slotsFound_iff_fits hok hchain hcount hstart hext hq haddr).trans
      (hstart.fits_iff hslot)

theorem splitVolume_room :
    ∃ w run, findFreeDirSlots splitVolume 2 2 = some (w, run) ∧ SlotsFound w 2 2 run := by
  have hsome : (findFreeDirSlots splitVolume 2 2).isSome := by decide
  obtain ⟨⟨w, run⟩, hrun⟩ := isSome_iff_exists.mp hsome
  refine ⟨w, run, hrun, ?_⟩
  refine (findFreeDirSlots_room_iff splitVolume_ok splitVolume_chain (by simp) hrun).2
    (.inl ⟨15, by decide, ?_⟩)
  have hfree : ∀ k < 2, splitVolume.disk (entryAddr splitVolume.bpb [2, 4] (15 + k)) = 0 := by
    decide
  exact fun k hk => .inl (hfree k hk)

/-- A directory of one cluster, with 16 used entries. -/
def fullDirectory : Volume :=
  { splitVolume with
    disk := fun x =>
      if 512 ≤ x ∧ x < 1024 then
        UInt8.ofNat ([0, 0, eocMark].getD ((x - 512) / 4) 0 / 256 ^ ((x - 512) % 4))
      else if 1024 ≤ x ∧ x < 1536 then 0x41
      else 0 }

theorem fullDirectory_chain : IsChain fullDirectory 2 [2] :=
  ⟨rfl, by unfold Bpb.InRange; decide, show fat32Eoc ≤ _ by decide⟩

/-- 17 entries, for a name of 16 long slots, do not fit the 16 of the new cluster. -/
theorem fullDirectory_noRoom :
    ∃ w run, findFreeDirSlots fullDirectory 2 17 = some (w, run) ∧ ¬SlotsFound w 2 17 run := by
  have hok : fullDirectory.bpb.Ok := splitVolume_ok
  have hsome : (findFreeDirSlots fullDirectory 2 17).isSome := by decide
  obtain ⟨⟨w, run⟩, hrun⟩ := isSome_iff_exists.mp hsome
  obtain ⟨q, chain', hstart, hslot, hext, hq, haddr⟩ :=
    findFreeDirSlots_start hok fullDirectory_chain (by simp) (by decide) hrun
  refine ⟨w, run, hrun, fun hfound => ?_⟩
  have hfits := (slotsFound_iff_fits hok fullDirectory_chain (by decide) hstart hext hq haddr).1
    hfound
  have hcount : entryCount fullDirectory.bpb [2] = 16 := by decide
  have hper : entriesPerCluster fullDirectory.bpb = 16 := by decide
  have hused : ∀ j < 16, ¬EntryFree fullDirectory [2] j := by
    unfold EntryFree
    decide
  rcases (hstart.fits_iff hslot).1 hfits with ⟨q', hq', -⟩ | ⟨q', hq', htail, hfit⟩
  · omega
  · rw [hcount] at hq' htail
    rw [hcount, hper] at hfit
    exact hused q' (by omega) (htail q' le_rfl (by omega))

end Room

end ImpossibleOs.Fat32
