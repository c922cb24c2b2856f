import ImpossibleOs.Ke.DpcInv

/-!
The sections under the lock keep the queues and answer to the history.
-/

namespace ImpossibleOs.Ke.Dpc

open Function List Option Nat

open Function (update)
open Chain (Queue Family)

variable {K R V : Type} [DecidableEq K] [Fintype K]
variable {maxCpus : ℕ} {m m' : Mem K R V} {l l' : Lists K} {k : K} {cpu : ℕ}

/-- The lists after a step, which goes on with the history. -/
def Sound (maxCpus : ℕ) (m : Mem K R V) (l : Lists K) (m' : Mem K R V) (ev : Event K V) : Prop :=
  ∃ l', Inv maxCpus m' l' ∧ ∀ es, History m l es → History m' l' (es ++ [ev])

/-- What stays when only marks without a part in the lists change. -/
structure SameLists (m m' : Mem K R V) : Prop where
  next : m'.next = m.next
  cpuQueues : m'.cpuQueues = m.cpuQueues
  depth : m'.depth = m.depth
  threadedQ : m'.threadedQ = m.threadedQ
  queued : ∀ k, (m'.dpc k).queued = (m.dpc k).queued
  queuedCpu : ∀ k, (m'.dpc k).queuedCpu = (m.dpc k).queuedCpu

omit [DecidableEq K] [Fintype K] in
theorem Inv.same (h : Inv maxCpus m l) (hm : SameLists m m')
    (hpending : ∀ cpu, l (.inr cpu) ≠ [] → m'.pending cpu = true) : Inv maxCpus m' l where
  family := by
    rw [hm.next, hm.cpuQueues, hm.threadedQ]
    exact h.family
  queued k := by
    rw [hm.queued]
    exact h.queued k
  cpu hp := by
    rw [hm.queuedCpu]
    exact h.cpu hp
  depth cpu := by
    rw [hm.depth]
    exact h.depth cpu
  pending := hpending

omit [Fintype K] in
theorem update_field {W : Type*} (field : Kdpc R V → W) (dpc : K → Kdpc R V) (k : K)
    {d : Kdpc R V} (h : field d = field (dpc k)) (k' : K) :
    field (update dpc k d k') = field (dpc k') := by
  by_cases hk : k' = k
  · rw [hk, update_self, h]
  · rw [update_of_ne hk]

/-! ### Insert -/

omit [Fintype K] in
theorem refresh_sound (h : Inv maxCpus m l) (args : V × V) :
    Sound maxCpus m l (refresh m k args) (.refreshed k args) := by
  have hqueued : ∀ k', ((refresh m k args).dpc k').queued = (m.dpc k').queued :=
    update_field Kdpc.queued m.dpc k (by rfl)
  have hcpu : ∀ k', ((refresh m k args).dpc k').queuedCpu = (m.dpc k').queuedCpu :=
    update_field Kdpc.queuedCpu m.dpc k (by rfl)
  have hstamp : ∀ k', ((refresh m k args).dpc k').stamp = (m.dpc k').stamp :=
    update_field Kdpc.stamp m.dpc k (by rfl)
  refine ⟨l, h.same ⟨rfl, rfl, rfl, rfl, hqueued, hcpu⟩ h.pending,
    fun es hes => hes.snoc (fun k' => ?_) (fun k' hk' => ?_) trivial fun cpu => ?_⟩
  · rw [hqueued]
    rfl
  · rw [hqueued] at hk'
    by_cases hkk : k' = k
    · subst hkk
      show (if k' = k' then some args else none).or _ = some (update m.dpc k' _ k').systemArgs
      rw [update_self, if_pos rfl]
      rfl
    · have hdpc : (refresh m k args).dpc k' = m.dpc k' := update_of_ne hkk _ _
      rw [hdpc, Event.argsOf, if_neg (Ne.symm hkk)]
      exact hes.latest k' hk'
  · rw [stamps_congr fun k' _ => hstamp k']
    have hclock : (refresh m k args).clock = m.clock := rfl
    simpa [Event.left, hclock] using hes.order cpu

/-- What `link` does to the lists. -/
def linkedNodes (m : Mem K R V) (l : Lists K) (k : K) (cpu : ℕ) : List K :=
  if (m.dpc k).importance = .high then k :: l (.inl cpu) else l (.inl cpu) ++ [k]

omit [DecidableEq K] [Fintype K] in
theorem mem_linkedNodes {b : K} : b ∈ linkedNodes m l k cpu ↔ b = k ∨ b ∈ l (.inl cpu) := by
  unfold linkedNodes
  split
  · exact mem_cons
  · rw [mem_append, mem_singleton, or_comm]

omit [Fintype K] in
theorem link_family (h : Inv maxCpus m l) (hk : (m.dpc k).queued = false) (args : V × V) :
    Family (link m k args cpu).next
      (Sum.elim (link m k args cpu).cpuQueues (link m k args cpu).threadedQ)
      (update l (.inl cpu) (linkedNodes m l k cpu)) := by
  unfold link linkedNodes
  simp only
  rw [← Sum.update_elim_inl]
  split
  · exact h.family.pushFront (.inl cpu) (h.free hk)
  · exact h.family.pushBack (.inl cpu) (h.free hk)

omit [Fintype K] in
theorem link_inv (h : Inv maxCpus m l) (hk : (m.dpc k).queued = false) (hcpu : cpu < maxCpus)
    (args : V × V) :
    Inv maxCpus (link m k args cpu) (update l (.inl cpu) (linkedNodes m l k cpu)) where
  family := link_family h hk args
  queued k' := by
    by_cases hkk : k' = k
    · subst hkk
      have hmem : k' ∈ update l (.inl cpu) (linkedNodes m l k' cpu) (.inl cpu) := by
        rw [update_self]
        exact mem_linkedNodes.mpr (.inl rfl)
      have hq : ((link m k' args cpu).dpc k').queued = true := by
        show (update m.dpc k' _ k').queued = true
        rw [update_self]
      exact ⟨fun _ => ⟨_, hmem⟩, fun _ => hq⟩
    · have hdpc : ((link m k args cpu).dpc k').queued = (m.dpc k').queued :=
        congrArg Kdpc.queued (update_of_ne hkk _ _)
      rw [hdpc, h.queued k']
      refine exists_congr fun p => ?_
      by_cases hp : p = .inl cpu
      · rw [hp, update_self, mem_linkedNodes]
        exact ⟨.inr, fun h => h.resolve_left hkk⟩
      · rw [update_of_ne hp]
  cpu {k' p} hp := by
    by_cases hkk : k' = k
    · subst hkk
      have hp' : p = .inl cpu := by
        by_contra hne
        rw [update_of_ne hne] at hp
        exact h.free hk p hp
      subst hp'
      have hd : ((link m k' args cpu).dpc k').queuedCpu = cpu := by
        show (update m.dpc k' _ k').queuedCpu = cpu
        rw [update_self]
      rw [hd]
      exact ⟨rfl, hcpu⟩
    · have hdpc : ((link m k args cpu).dpc k').queuedCpu = (m.dpc k').queuedCpu :=
        congrArg Kdpc.queuedCpu (update_of_ne hkk _ _)
      rw [hdpc]
      by_cases hpc : p = .inl cpu
      · rw [hpc, update_self, mem_linkedNodes] at hp
        rw [hpc]
        exact h.cpu (hp.resolve_left hkk)
      · rw [update_of_ne hpc] at hp
        exact h.cpu hp
  depth c := by
    show update m.depth cpu _ c = _
    by_cases hc : c = cpu
    · rw [hc, update_self, update_self, h.depth cpu]
      unfold linkedNodes
      split <;> simp
    · have hne : (Sum.inl c : ℕ ⊕ ℕ) ≠ .inl cpu := fun h => hc (Sum.inl.inj h)
      rw [update_of_ne hc, update_of_ne hne]
      exact h.depth c
  pending c hc := h.pending c (by rwa [update_of_ne (by nofun)] at hc)

omit [DecidableEq K] [Fintype K] in
theorem stamps_append (m : Mem K R V) (l₁ l₂ : List K) :
    stamps m (l₁ ++ l₂) = stamps m l₁ ++ stamps m l₂ :=
  filterMap_append

omit [DecidableEq K] [Fintype K] in
theorem stamps_cons (m : Mem K R V) (k : K) (nodes : List K) :
    stamps m (k :: nodes) = (m.dpc k).stamp.toList ++ stamps m nodes := by
  unfold stamps
  cases hs : (m.dpc k).stamp <;> simp [hs]

theorem pairwise_tick {times : List ℕ} {t : ℕ} (h : (times ++ [t]).Pairwise (· < ·)) :
    (times ++ [t + 1]).Pairwise (· < ·) ∧ (times ++ [t] ++ [t + 1]).Pairwise (· < ·) := by
  obtain ⟨htimes, -, hlt⟩ := pairwise_append.mp h
  have hlt' : ∀ a ∈ times, a < t := fun a ha => hlt a ha t (mem_singleton_self t)
  refine ⟨pairwise_append.mpr ⟨htimes, pairwise_singleton _ _, ?_⟩,
    pairwise_append.mpr ⟨h, pairwise_singleton _ _, ?_⟩⟩
  · intro a ha b hb
    obtain rfl := mem_singleton.mp hb
    exact lt_succ_of_lt (hlt' a ha)
  · intro a ha b hb
    obtain rfl := mem_singleton.mp hb
    rcases mem_append.mp ha with ha | ha
    · exact lt_succ_of_lt (hlt' a ha)
    · obtain rfl := mem_singleton.mp ha
      exact lt_succ_self a

omit [Fintype K] in
theorem stamps_link (h : Inv maxCpus m l) (hk : (m.dpc k).queued = false) (args : V × V) :
    stamps (link m k args cpu) (linkedNodes m l k cpu) = stamps m (l (.inl cpu)) ++
      if (m.dpc k).importance = .high then [] else [m.clock] := by
  have hself : ((link m k args cpu).dpc k).stamp =
      if (m.dpc k).importance = .high then none else some m.clock := by
    show (update m.dpc k _ k).stamp = _
    rw [update_self]
  have hold : stamps (link m k args cpu) (l (.inl cpu)) = stamps m (l (.inl cpu)) := by
    refine stamps_congr fun b hb => congrArg Kdpc.stamp (update_of_ne ?_ _ _)
    rintro rfl
    exact h.free hk _ hb
  unfold linkedNodes
  split
  · rename_i hhigh
    rw [stamps_cons, hself, if_pos hhigh, hold]
    simp
  · rename_i hlow
    have hnil : stamps (link m k args cpu) [] = [] := rfl
    rw [stamps_append, stamps_cons, hself, if_neg hlow, hold, hnil]
    simp

omit [Fintype K] in
theorem link_sound (h : Inv maxCpus m l) (hk : (m.dpc k).queued = false) (hcpu : cpu < maxCpus)
    (args : V × V) : Sound maxCpus m l (link m k args cpu) (.inserted k cpu args) := by
  refine ⟨_, link_inv h hk hcpu args,
    fun es hes => hes.snoc (fun k' => ?_) (fun k' hk' => ?_) trivial fun c => ?_⟩
  · by_cases hkk : k' = k
    · subst hkk
      have hq : ((link m k' args cpu).dpc k').queued = true := by
        show (update m.dpc k' _ k').queued = true
        rw [update_self]
      rw [hq, hk]
      simp [Event.inserts, Event.starts, Event.removes]
    · have hdpc : ((link m k args cpu).dpc k').queued = (m.dpc k').queued :=
        congrArg Kdpc.queued (update_of_ne hkk _ _)
      rw [hdpc]
      simp [Event.inserts, Event.starts, Event.removes, Ne.symm hkk]
  · by_cases hkk : k' = k
    · subst hkk
      show (if k' = k' then some args else none).or _ = some (update m.dpc k' _ k').systemArgs
      rw [update_self, if_pos rfl]
      rfl
    · have hdpc : (link m k args cpu).dpc k' = m.dpc k' := update_of_ne hkk _ _
      rw [hdpc] at hk' ⊢
      rw [Event.argsOf, if_neg (Ne.symm hkk)]
      exact hes.latest k' hk'
  · have hclock : (link m k args cpu).clock = m.clock + 1 := rfl
    have htick := pairwise_tick (hes.order c)
    have hleft : Event.left c (.inserted k cpu args : Event K V) = none := rfl
    rw [hclock, hleft, toList_none, append_nil]
    by_cases hc : c = cpu
    · subst hc
      rw [update_self, stamps_link h hk args, ← append_assoc]
      split
      · rw [append_nil]
        exact htick.1
      · exact htick.2
    · have hne : (Sum.inl c : ℕ ⊕ ℕ) ≠ .inl cpu := fun h => hc (Sum.inl.inj h)
      rw [update_of_ne hne]
      have hst : stamps (link m k args cpu) (l (.inl c)) = stamps m (l (.inl c)) := by
        refine stamps_congr fun b hb => congrArg Kdpc.stamp (update_of_ne ?_ _ _)
        rintro rfl
        exact h.free hk _ hb
      rw [hst]
      exact htick.1

/-! ### Leaving the lists -/

section

omit [Fintype K]

theorem release_self : release maxCpus m k k =
    { m.dpc k with queuedCpu := maxCpus, queued := false } :=
  update_self ..

theorem release_other {k' : K} (hk : k' ≠ k) : release maxCpus m k k' = m.dpc k' :=
  update_of_ne hk _ _

theorem stamps_release (hdpc : m'.dpc = release maxCpus m k) (nodes : List K) :
    stamps m' nodes = stamps m nodes := by
  refine stamps_congr fun k' _ => ?_
  rw [hdpc]
  exact update_field Kdpc.stamp m.dpc k (by rfl) k'

end

variable {rest : List K} {p : ℕ ⊕ ℕ} {out : Outcome K R V}

omit [Fintype K] in
theorem Inv.leave (h : Inv maxCpus m l) (hk : k ∈ l p)
    (hrest : ∀ b, b ∈ rest ↔ b ∈ l p ∧ b ≠ k) (hdpc : m'.dpc = release maxCpus m k)
    (hfamily : Family m'.next (Sum.elim m'.cpuQueues m'.threadedQ) (update l p rest))
    (hdepth : ∀ cpu, m'.depth cpu = (update l p rest (.inl cpu)).length)
    (hpending : ∀ cpu, update l p rest (.inr cpu) ≠ [] → m'.pending cpu = true) :
    Inv maxCpus m' (update l p rest) := by
  have hmem : ∀ {k' p'}, k' ∈ update l p rest p' ↔ k' ∈ l p' ∧ k' ≠ k := by
    intro k' p'
    by_cases hp : p' = p
    · rw [hp, update_self, hrest]
    · rw [update_of_ne hp]
      refine ⟨fun hk' => ⟨hk', ?_⟩, And.left⟩
      rintro rfl
      exact hp (h.family.apart hk' hk)
  refine ⟨hfamily, fun k' => ?_, fun {k' p'} hk' => ?_, hdepth, hpending⟩
  · rw [hdpc]
    by_cases hkk : k' = k
    · subst hkk
      rw [release_self]
      constructor
      · nofun
      · rintro ⟨p', hp'⟩
        exact absurd rfl (hmem.mp hp').2
    · rw [release_other hkk, h.queued k']
      exact exists_congr fun p' => ⟨fun hp' => hmem.mpr ⟨hp', hkk⟩, fun hp' => (hmem.mp hp').1⟩
  · obtain ⟨hold, hkk⟩ := hmem.mp hk'
    rw [hdpc, release_other hkk]
    exact h.cpu hold

/-- The event by which a `KDPC` leaves the lists. -/
structure Event.Takes (e : Event K V) (k : K) : Prop where
  inserts : ∀ k', e.inserts k' = false
  leaves : ∀ k', (e.starts k').toNat + (e.removes k').toNat = if k' = k then 1 else 0
  argsOf : ∀ k', e.argsOf k' = none

section

omit [Fintype K]

theorem History.leave {es : List (Event K V)} (hes : History m l es) {e : Event K V}
    (hk : (m.dpc k).queued = true) (he : e.Takes k) (hdpc : m'.dpc = release maxCpus m k)
    (hclock : m'.clock = m.clock) (hanswers : e.Answers es)
    (hsub : ∀ cpu, ((e.left cpu).toList ++ stamps m (l' (.inl cpu))).Sublist
      (stamps m (l (.inl cpu)))) : History m' l' (es ++ [e]) := by
  refine hes.snoc (fun k' => ?_) (fun k' hk' => ?_) hanswers fun cpu => ?_
  · rw [he.inserts, he.leaves, hdpc]
    by_cases hkk : k' = k
    · subst hkk
      rw [release_self, hk, if_pos rfl]
      rfl
    · rw [release_other hkk, if_neg hkk]
      rfl
  · rw [he.argsOf, none_or]
    rw [hdpc] at hk' ⊢
    by_cases hkk : k' = k
    · subst hkk
      rw [release_self] at hk'
      cases hk'
    · rw [release_other hkk] at hk' ⊢
      exact hes.latest k' hk'
  · rw [stamps_release hdpc, hclock, append_assoc (es.filterMap _)]
    exact (hes.order cpu).sublist
      (((hsub cpu).append_left _).append_right _)

theorem removed_takes : (Event.removed k : Event K V).Takes k where
  inserts _ := rfl
  leaves k' := by
    by_cases hkk : k' = k
    · simp [Event.starts, Event.removes, hkk]
    · simp [Event.starts, Event.removes, hkk, Ne.symm hkk]
  argsOf _ := rfl

theorem started_takes {args : V × V} {stamp : Option ℕ} :
    (Event.started k args cpu stamp : Event K V).Takes k where
  inserts _ := rfl
  leaves k' := by
    by_cases hkk : k' = k
    · simp [Event.starts, Event.removes, hkk]
    · simp [Event.starts, Event.removes, hkk, Ne.symm hkk]
  argsOf _ := rfl

theorem startedThreaded_takes {args : V × V} :
    (Event.startedThreaded k args : Event K V).Takes k where
  inserts _ := rfl
  leaves k' := by
    by_cases hkk : k' = k
    · simp [Event.starts, Event.removes, hkk]
    · simp [Event.starts, Event.removes, hkk, Ne.symm hkk]
  argsOf _ := rfl

end

omit [DecidableEq K] [Fintype K] in
theorem stamps_sublist (hsub : rest.Sublist (l p)) (c : ℕ) :
    (stamps m (update l p rest (.inl c))).Sublist (stamps m (l (.inl c))) := by
  by_cases hp : (Sum.inl c : ℕ ⊕ ℕ) = p
  · subst hp
    rw [update_self]
    exact hsub.filterMap _
  · rw [update_of_ne hp]

section

variable (h : Inv maxCpus m l)
include h

omit [Fintype K] in
theorem mem_erase_iff (p : ℕ ⊕ ℕ) (b : K) : b ∈ (l p).erase k ↔ b ∈ l p ∧ b ≠ k := by
  rw [(Chain.linked_nodup (h.family.holds p).linked).mem_erase_iff, and_comm]

omit [Fintype K] in
theorem removed_history (hk : k ∈ l p)
    (hdpc : m'.dpc = release maxCpus m k) (hclock : m'.clock = m.clock)
    (es : List (Event K V)) (hes : History m l es) :
    History m' (update l p ((l p).erase k)) (es ++ [Event.removed k]) := by
  refine hes.leave ((h.queued k).mpr ⟨p, hk⟩) removed_takes hdpc hclock trivial fun c => ?_
  exact stamps_sublist erase_sublist c

theorem removeLocked_sound
    (hout : removeLocked maxCpus m k cpu = out) : Sound maxCpus m l out.1.1 out.2 := by
  have hquiet : Sound maxCpus m l m .silent :=
    ⟨l, h, fun es hes => hes.silent ⟨fun _ => rfl, fun _ => rfl, fun _ => rfl, rfl⟩⟩
  subst hout
  unfold removeLocked
  split
  · exact hquiet
  · rename_i hguard
    simp only [Bool.or_eq_true, Bool.not_eq_true', bne_iff_ne, not_or, Bool.not_eq_false,
      not_not] at hguard
    by_cases hn : k ∈ l (.inl cpu)
    · obtain ⟨q', next', hu, hfamily⟩ := h.family.unlink hn (h.length_le _)
      simp only [Sum.elim_inl] at hu
      rw [hu]
      refine ⟨_, h.leave hn (mem_erase_iff h _) rfl ?_ (fun c => ?_) fun c hc => ?_,
        removed_history h hn rfl rfl⟩
      · rw [← Sum.update_elim_inl]
        exact hfamily
      · show update m.depth cpu _ c = _
        by_cases hc : c = cpu
        · rw [hc, update_self, update_self, h.depth cpu,
            length_erase_of_mem hn]
        · have hne : (Sum.inl c : ℕ ⊕ ℕ) ≠ .inl cpu := fun h => hc (Sum.inl.inj h)
          rw [update_of_ne hc, update_of_ne hne]
          exact h.depth c
      · rw [update_of_ne (by nofun)] at hc
        exact h.pending c hc
    · have hw : k ∈ l (.inr cpu) := (h.located hguard.1 hguard.2).resolve_left hn
      have hnone : (m.cpuQueues cpu).unlink m.next (turns K) k = none :=
        Chain.unlink_none (h.family.holds (.inl cpu)) hn
      obtain ⟨q', next', hu, hfamily⟩ := h.family.unlink hw (h.length_le _)
      simp only [Sum.elim_inr] at hu
      simp only [hnone, hu]
      refine ⟨_, h.leave hw (mem_erase_iff h _) rfl ?_ (fun c => ?_) fun c hc => ?_,
        removed_history h hw rfl rfl⟩
      · rw [← Sum.update_elim_inr]
        exact hfamily
      · rw [update_of_ne (by nofun)]
        exact h.depth c
      · show (if q'.head.isNone then update m.pending cpu false else m.pending) c = true
        have hhead := Chain.head_eq_none (hfamily.holds (.inr cpu))
        rw [update_self, update_self] at hhead
        by_cases hcc : c = cpu
        · subst hcc
          rw [update_self] at hc
          rw [if_neg]
          · exact h.pending c (ne_nil_of_mem hw)
          · rw [isNone_iff_eq_none, hhead]
            exact hc
        · have hne : (Sum.inr c : ℕ ⊕ ℕ) ≠ .inr cpu := fun h => hcc (Sum.inr.inj h)
          rw [update_of_ne hne] at hc
          split
          · rw [update_of_ne hcc]
            exact h.pending c hc
          · exact h.pending c hc

/-! ### Drain and worker -/

omit [Fintype K] in
theorem mem_rest_iff (hp : l p = k :: rest) (b : K) : b ∈ rest ↔ b ∈ l p ∧ b ≠ k := by
  rw [← mem_erase_iff h, hp, erase_cons_head]

omit h [DecidableEq K] [Fintype K] in
theorem stamps_pop (hp : l (.inl cpu) = k :: rest) (c : ℕ) :
    ((if cpu = c then (m.dpc k).stamp else none).toList ++
      stamps m (update l (.inl cpu) rest (.inl c))).Sublist (stamps m (l (.inl c))) := by
  by_cases hc : cpu = c
  · subst hc
    rw [if_pos rfl, update_self, hp, stamps_cons]
  · have hne : (Sum.inl c : ℕ ⊕ ℕ) ≠ .inl cpu := fun h => hc (Sum.inl.inj h).symm
    rw [if_neg hc, update_of_ne hne]
    rfl

omit [DecidableEq K] [Fintype K] in
theorem depth_pop (hp : l (.inl cpu) = k :: rest) (c : ℕ) :
    update m.depth cpu (m.depth cpu - 1) c = (update l (.inl cpu) rest (.inl c)).length := by
  by_cases hc : c = cpu
  · rw [hc, update_self, update_self, h.depth cpu, hp]
    rfl
  · have hne : (Sum.inl c : ℕ ⊕ ℕ) ≠ .inl cpu := fun h => hc (Sum.inl.inj h)
    rw [update_of_ne hc, update_of_ne hne]
    exact h.depth c

section

omit [Fintype K]

theorem handOff_inv (hp : l (.inl cpu) = k :: rest) (hdpc : m'.dpc = m.dpc)
    (hfamily : Family m'.next (Sum.elim m'.cpuQueues m'.threadedQ)
      (update (update l (.inl cpu) rest) (.inr cpu) (l (.inr cpu) ++ [k])))
    (hdepth : ∀ c, m'.depth c = (update l (.inl cpu) rest (.inl c)).length)
    (hpending : m'.pending = update m.pending cpu true) :
    Inv maxCpus m' (update (update l (.inl cpu) rest) (.inr cpu) (l (.inr cpu) ++ [k])) := by
  have hk : k ∈ l (.inl cpu) := by
    rw [hp]
    exact mem_cons_self
  have hmem : ∀ {k' p'},
      k' ∈ update (update l (.inl cpu) rest) (.inr cpu) (l (.inr cpu) ++ [k]) p' ↔
      (k' ≠ k ∧ k' ∈ l p') ∨ (k' = k ∧ p' = .inr cpu) := by
    intro k' p'
    by_cases hr : p' = .inr cpu
    · rw [hr, update_self, mem_append, mem_singleton]
      constructor
      · rintro (hin | rfl)
        · refine .inl ⟨?_, hin⟩
          rintro rfl
          cases h.family.apart hin hk
        · exact .inr ⟨rfl, rfl⟩
      · rintro (⟨-, hin⟩ | ⟨rfl, -⟩)
        · exact .inl hin
        · exact .inr rfl
    · rw [update_of_ne hr]
      have hdrop : ∀ {P : Prop}, (P ∨ (k' = k ∧ p' = .inr cpu)) ↔ P :=
        or_iff_left fun hand => hr hand.2
      rw [hdrop]
      by_cases hl : p' = .inl cpu
      · rw [hl, update_self, mem_rest_iff h hp, and_comm]
      · rw [update_of_ne hl]
        refine ⟨fun hin => ⟨?_, hin⟩, And.right⟩
        rintro rfl
        exact hl (h.family.apart hin hk)
  refine ⟨hfamily, fun k' => ?_, fun {k' p'} hk' => ?_, fun c => ?_, fun c hc => ?_⟩
  · rw [hdpc, h.queued k']
    by_cases hkk : k' = k
    · subst hkk
      exact ⟨fun _ => ⟨_, hmem.mpr (.inr ⟨rfl, rfl⟩)⟩, fun _ => ⟨_, hk⟩⟩
    · refine exists_congr fun p' => ?_
      rw [hmem]
      exact ⟨fun hin => .inl ⟨hkk, hin⟩, fun hin => (hin.resolve_right fun h => hkk h.1).2⟩
  · rw [hdpc]
    rcases hmem.mp hk' with ⟨-, hin⟩ | ⟨rfl, rfl⟩
    · exact h.cpu hin
    · have hold := h.cpu hk
      exact hold
  · rw [update_of_ne (by nofun)]
    exact hdepth c
  · rw [hpending]
    by_cases hcc : c = cpu
    · rw [hcc, update_self]
    · have hne : (Sum.inr c : ℕ ⊕ ℕ) ≠ .inr cpu := fun h => hcc (Sum.inr.inj h)
      rw [update_of_ne hne, update_of_ne (by nofun)] at hc
      rw [update_of_ne hcc]
      exact h.pending c hc

theorem drainLocked_sound {dispatched : ℕ} {flush : Option ℕ}
    (hout : drainLocked maxCpus m cpu dispatched flush = out) :
    Sound maxCpus m l out.1.1 out.2 := by
  subst hout
  unfold drainLocked
  split
  · exact ⟨l, h, fun es hes => hes.silent ⟨fun _ => rfl, fun _ => rfl, fun _ => rfl, rfl⟩⟩
  · rename_i k hhead
    have hlinked := (h.family.holds (.inl cpu)).linked
    simp only [Sum.elim_inl] at hlinked
    rw [hhead] at hlinked
    obtain ⟨rest, hp, -⟩ := Chain.linked_some hlinked
    have hk : k ∈ l (.inl cpu) := by
      rw [hp]
      exact mem_cons_self
    have hqueued := (h.queued k).mpr ⟨_, hk⟩
    have hpop := h.family.popFront hp
    rw [Sum.elim_inl, Sum.update_elim_inl] at hpop
    have hgone : ∀ p, k ∉ update l (.inl cpu) rest p := by
      intro p hin
      by_cases hpl : p = .inl cpu
      · rw [hpl, update_self, mem_rest_iff h hp] at hin
        exact hin.2 rfl
      · rw [update_of_ne hpl] at hin
        exact hpl (h.family.apart hin hk)
    simp only
    split
    · have hpush := hpop.pushBack (.inr cpu) hgone
      rw [Sum.elim_inr, Sum.update_elim_inr, update_of_ne (by nofun)] at hpush
      refine ⟨_, handOff_inv h hp rfl hpush (depth_pop h hp) rfl,
        fun es hes => hes.snoc (fun k' => rfl) (fun k' hk' => hes.latest k' hk') trivial
          fun c => ?_⟩
      rw [update_of_ne (by nofun), append_assoc (es.filterMap _)]
      exact (hes.order c).sublist (((stamps_pop hp c).append_left _).append_right _)
    · refine ⟨_, h.leave hk (mem_rest_iff h hp) rfl hpop (depth_pop h hp) fun c hc => ?_,
        fun es hes => hes.leave hqueued started_takes rfl rfl (hes.latest k hqueued)
          (stamps_pop hp)⟩
      rw [update_of_ne (by nofun)] at hc
      exact h.pending c hc

theorem workerLocked_sound {budget : ℕ}
    (hout : workerLocked maxCpus m cpu budget = out) : Sound maxCpus m l out.1.1 out.2 := by
  subst hout
  have hlinked := (h.family.holds (.inr cpu)).linked
  simp only [Sum.elim_inr] at hlinked
  unfold workerLocked
  split
  · rename_i hhead
    rw [hhead] at hlinked
    have hempty := Chain.linked_none hlinked
    refine ⟨l, h.same ⟨rfl, rfl, rfl, rfl, fun _ => rfl, fun _ => rfl⟩ fun c hc => ?_,
      fun es hes => hes.silent ⟨fun _ => rfl, fun _ => rfl, fun _ => rfl, rfl⟩⟩
    show update m.pending cpu false c = true
    rw [update_of_ne]
    · exact h.pending c hc
    · rintro rfl
      exact hc hempty
  · rename_i k hhead
    rw [hhead] at hlinked
    obtain ⟨rest, hp, -⟩ := Chain.linked_some hlinked
    have hk : k ∈ l (.inr cpu) := by
      rw [hp]
      exact mem_cons_self
    have hqueued := (h.queued k).mpr ⟨_, hk⟩
    have hpop := h.family.popFront hp
    rw [Sum.elim_inr, Sum.update_elim_inr] at hpop
    have hnormal : ∀ c, update l (.inr cpu) rest (.inl c) = l (.inl c) :=
      fun c => update_of_ne (by nofun) _ _
    refine ⟨_, h.leave hk (mem_rest_iff h hp) rfl hpop (fun c => ?_) fun c hc => ?_,
      fun es hes => hes.leave hqueued startedThreaded_takes rfl rfl (hes.latest k hqueued)
        fun c => ?_⟩
    · rw [hnormal]
      exact h.depth c
    · by_cases hcc : c = cpu
      · subst hcc
        exact h.pending c (ne_nil_of_mem hk)
      · have hne : (Sum.inr c : ℕ ⊕ ℕ) ≠ .inr cpu := fun h => hcc (Sum.inr.inj h)
        rw [update_of_ne hne] at hc
        exact h.pending c hc
    · rw [hnormal]
      exact List.Sublist.refl _

end

end

end ImpossibleOs.Ke.Dpc
