import ImpossibleOs.Ke.ApcInv

/-!
Every step of the APC machine keeps the invariant.
-/

namespace ImpossibleOs.Ke.Apc

open Function List Option
open Bool hiding decide_false decide_true not_or or_comm

open Chain (Linked)
open Function (update)

variable {T A : Type}
variable {o : Objects T A} {s : State T A} {q : T → Mode → List A} {w : ℕ → Mode → List A}

/-! ### Insert -/

def inserted (o : Objects T A) (l : List A) (a : A) : List A :=
  if o.normal a then l ++ [a] else a :: l

variable {l : List A} {th : Thread A} {rest : List (Frame A)} {next : A → Option A}
  {head : Option A} {entry : ℕ}

theorem mem_inserted {a b : A} : b ∈ inserted o l a ↔ b ∈ l ∨ b = a := by
  unfold inserted
  split
  · simp
  · simp [or_comm]

theorem length_inserted (l : List A) (a : A) : (inserted o l a).length = l.length + 1 := by
  unfold inserted
  split <;> simp

theorem enqueue_spec [DecidableEq A] [Fintype A] {a : A} (h : Linked next head l) (ha : a ∉ l)
    (hl : l.length ≤ turns A) :
    Linked (enqueue o next head a).2 (enqueue o next head a).1 (inserted o l a) ∧
      ∀ b, b ∉ l → b ≠ a → (enqueue o next head a).2 b = next b := by
  unfold enqueue inserted
  cases hn : o.normal a with
  | false =>
    rw [o.special_kernel a hn]
    exact ⟨Chain.linked_push h ha, fun b _ hb => update_of_ne hb _ _⟩
  | true =>
    exact ⟨Chain.append_linked h ha hl, fun b hb hba => Chain.append_other h hl hb hba⟩

theorem ordered_inserted [DecidableEq A] {stamp : A → ℕ} {clock : ℕ} {a : A}
    (h : Ordered o stamp l) (ha : a ∉ l) (hclock : ∀ b ∈ l, stamp b < clock) :
    Ordered o (update stamp a clock) (inserted o l a) := by
  have hother : ∀ b ∈ l, update stamp a clock b = stamp b := by
    intro b hb
    refine update_of_ne ?_ _ _
    rintro rfl
    exact ha hb
  have h' := h.congr hother
  unfold inserted
  cases hn : o.normal a with
  | false => exact h'.push hn
  | true =>
    refine h'.append hn ?_
    intro b hb
    rw [hother b hb, update_self]
    exact hclock b hb

theorem forall_update [DecidableEq T] {P : T → Thread A → Prop} {threads : T → Thread A} {t : T}
    (hself : P t th) (hother : ∀ t', t' ≠ t → P t' (threads t')) :
    ∀ t', P t' (update threads t th t') := by
  intro t'
  by_cases htt : t' = t
  · rw [htt, update_self]
    exact hself
  · rw [update_of_ne htt]
    exact hother t' htt

theorem insert_inv [DecidableEq T] [DecidableEq A] [Fintype A] (h : Inv o s q w) (a : A) :
    ∃ q', Inv o (keInsertQueueApc o s a) q' w := by
  unfold keInsertQueueApc
  cases ht : o.thread a with
  | none => exact ⟨q, h⟩
  | some t =>
    simp only
    split
    · exact ⟨q, h⟩
    rename_i hok
    simp only [or_eq_true, not_or, not_eq_true] at hok
    obtain ⟨halive, hins⟩ := hok
    have hown : Owned o a t (o.mode a) := ⟨ht, rfl⟩
    have hnot : a ∉ q t (o.mode a) := by
      intro ha
      rw [((h.links.mem a t _).mp ha).1] at hins
      cases hins
    -- the list of a rundown holds APCs of dead threads only
    have hfree : s.rundownOf a = none := by
      refine eq_none_iff_forall_ne_some.mpr fun i hof => ?_
      obtain ⟨-, -, t', ht', hd⟩ := h.links.gone a i hof
      obtain rfl : t = t' := some.inj (ht.symm.trans ht')
      rw [halive] at hd
      cases hd
    obtain ⟨hlinked, hnext⟩ := enqueue_spec (o := o) (h.links.queue t (o.mode a)) hnot
      (h.links.length_le t _)
    refine ⟨setQueue q t (o.mode a) (inserted o (q t (o.mode a)) a), ?_, ?_, ?_, ?_, ?_, ?_, ?_⟩
    · refine h.links.relink hown hfree hnext hlinked rfl rfl rfl ?_ ?_ rfl rfl rfl
      · intro b
        rw [mem_inserted, h.links.mem b t _]
        by_cases hba : b = a
        · subst hba
          simp [hown]
        · simp [hba]
      · intro b hb
        exact update_of_ne hb _ _
    · refine forall_update (P := fun t' th => th.kernelApcDepth =
        (setQueue q t (o.mode a) (inserted o (q t (o.mode a)) a) t' .kernel).length) ?_ ?_
      · cases hm : o.mode a with
        | kernel => rw [setQueue_self, length_inserted, if_pos rfl, h.depth t]
        | user => rw [setQueue_other _ (by simp), if_neg (by simp), h.depth t]
      · intro t' htt
        rw [setQueue_apart htt, h.depth t']
    · refine forall_update (P := fun t' th => ∀ m',
        setQueue q t (o.mode a) (inserted o (q t (o.mode a)) a) t' m' ≠ [] →
          th.apcPending m' = true) ?_ ?_
      · intro m' hne
        by_cases hm : m' = o.mode a
        · rw [hm]
          exact update_self ..
        · rw [setQueue_other _ fun hmm => hm hmm.2] at hne
          exact (update_of_ne hm _ _).trans (h.pending t m' hne)
      · intro t' htt m' hne
        rw [setQueue_apart htt] at hne
        exact h.pending t' m' hne
    · intro t'
      have hclock : ∀ b ∈ q t' .kernel, s.stamp b < s.clock := fun b hb =>
        h.stamped b ((h.links.mem b t' .kernel).mp hb).1
      by_cases hq : t' = t ∧ Mode.kernel = o.mode a
      · obtain ⟨rfl, hm⟩ := hq
        rw [← hm, setQueue_self] at *
        exact ordered_inserted (h.order t') hnot hclock
      · rw [setQueue_other _ hq]
        refine (h.order t').congr fun b hb => update_of_ne ?_ _ _
        rintro rfl
        exact hq (((h.links.mem b t' .kernel).mp hb).2.unique hown)
    · intro b hb
      by_cases hba : b = a
      · subst hba
        show update s.stamp b s.clock b < s.clock + 1
        rw [update_self]
        omega
      · have hb' : s.inserted b = true := by
          rw [← hb]
          exact (update_of_ne hba _ _).symm
        show update s.stamp a s.clock b < s.clock + 1
        rw [update_of_ne hba]
        exact (h.stamped b hb').trans (by omega)
    · intro b
      have hbal := h.balance b
      by_cases hba : b = a
      · subst hba
        simp only [update_self, hins, hfree] at hbal ⊢
        simp only [false_eq_true, if_false, if_true, isSome_none] at hbal ⊢
        omega
      · simp only [update_of_ne hba]
        exact hbal
    · exact forall_update (P := fun _ th => Control th)
        ⟨(h.control t).progress, (h.control t).below⟩ fun t' _ => h.control t'

theorem clearPending_eq {pending : Mode → Bool} {m : Mode} (hl : Linked next head l)
    (hm : l ≠ [] → pending m = true) : l ≠ [] → clearPending pending m head m = true := by
  intro hne
  cases l with
  | nil => exact absurd rfl hne
  | cons b l =>
    obtain ⟨rfl, _⟩ := hl
    exact hm hne

theorem clearPending_other {pending : Mode → Bool} {m m' : Mode} (head : Option A)
    (h : m' ≠ m) : clearPending pending m head m' = pending m' := by
  unfold clearPending
  split
  · exact update_of_ne h _ _
  · rfl

theorem Inv.dequeue [DecidableEq T] [DecidableEq A] {s' : State T A} (h : Inv o s q w) {a : A}
    {t : T} {m : Mode} (ha : a ∈ q t m)
    (hl : Linked next head ((q t m).erase a))
    (hnext : ∀ b, b ∉ (q t m).erase a → next b = s.next b)
    (hnext' : s'.next = update next a none) (hins : s'.inserted = update s.inserted a false)
    (hthreads : s'.threads = update s.threads t th)
    (hth : th.apcListHead = update (s.threads t).apcListHead m head)
    (hdead : th.dead = (s.threads t).dead)
    (hpending : th.apcPending = clearPending (s.threads t).apcPending m head)
    (hdepth : th.kernelApcDepth = if m = .kernel then (s.threads t).kernelApcDepth - 1
      else (s.threads t).kernelApcDepth)
    (hcontrol : Control th)
    (hrun : s'.rundowns = s.rundowns) (hof : s'.rundownOf = s.rundownOf)
    (hstarted : s'.started = s.started) (hclock : s'.clock = s.clock)
    (hstamp : s'.stamp = s.stamp) (hinserts : s'.inserts = s.inserts)
    (hran : s'.ranDown = s.ranDown)
    (hcount : ∀ b, s'.delivered b + s'.removed b =
      s.delivered b + s.removed b + if b = a then 1 else 0) :
    Inv o s' (setQueue q t m ((q t m).erase a)) w := by
  obtain ⟨hinserted, hown⟩ := (h.links.mem a t m).mp ha
  have hnodup := h.links.nodup t m
  have hfree : s.rundownOf a = none := h.links.not_waiting ha
  have hnot : a ∉ (q t m).erase a := hnodup.not_mem_erase
  refine ⟨?_, ?_, ?_, ?_, ?_, ?_, ?_⟩
  · refine h.links.relink hown hfree ?_ ?_ hthreads hth hdead ?_ ?_ hrun hof hstarted
    · intro b hb hba
      rw [hnext', update_of_ne hba]
      exact hnext b fun hm => hb (mem_of_mem_erase hm)
    · rw [hnext']
      exact Chain.linked_update hl hnot _
    · intro b
      rw [hnodup.mem_erase_iff, h.links.mem b t m, hins]
      by_cases hba : b = a
      · simp [hba]
      · simp [hba]
    · intro b hb
      rw [hins]
      exact update_of_ne hb _ _
  · rw [hthreads]
    refine forall_update (P := fun t' th => th.kernelApcDepth =
      (setQueue q t m ((q t m).erase a) t' .kernel).length) ?_ ?_
    · rw [hdepth]
      cases m with
      | kernel => rw [setQueue_self, if_pos rfl, length_erase_of_mem ha, h.depth t]
      | user => rw [setQueue_other _ (by simp), if_neg (by simp), h.depth t]
    · intro t' htt
      rw [setQueue_apart htt, h.depth t']
  · rw [hthreads]
    refine forall_update (P := fun t' th => ∀ m',
      setQueue q t m ((q t m).erase a) t' m' ≠ [] → th.apcPending m' = true) ?_ ?_
    · intro m' hne
      rw [hpending]
      by_cases hm : m' = m
      · subst hm
        rw [setQueue_self] at hne
        refine clearPending_eq hl (fun _ => h.pending t m' ?_) hne
        exact ne_nil_of_mem ha
      · rw [setQueue_other _ fun hmm => hm hmm.2] at hne
        rw [clearPending_other head hm]
        exact h.pending t m' hne
    · intro t' htt m' hne
      rw [setQueue_apart htt] at hne
      exact h.pending t' m' hne
  · intro t'
    rw [hstamp]
    by_cases hq : t' = t ∧ Mode.kernel = m
    · obtain ⟨rfl, rfl⟩ := hq
      rw [setQueue_self]
      exact (h.order t').sublist erase_sublist
    · rw [setQueue_other _ hq]
      exact h.order t'
  · intro b hb
    rw [hstamp, hclock]
    rw [hins] at hb
    by_cases hba : b = a
    · rw [hba, update_self] at hb
      cases hb
    · rw [update_of_ne hba] at hb
      exact h.stamped b hb
  · intro b
    have hbal := h.balance b
    have hc := hcount b
    rw [hinserts, hins, hof, hran]
    by_cases hba : b = a
    · subst hba
      rw [if_pos rfl] at hc
      simp only [update_self, hinserted, if_true, false_eq_true, if_false]
        at hbal ⊢
      omega
    · rw [if_neg hba] at hc
      rw [update_of_ne hba]
      omega
  · rw [hthreads]
    exact forall_update (P := fun _ th => Control th) hcontrol fun t' _ => h.control t'

theorem remove_inv [DecidableEq T] [DecidableEq A] [Fintype A] (h : Inv o s q w) (a : A) :
    ∃ q', Inv o (keRemoveQueueApc o s a) q' w := by
  unfold keRemoveQueueApc
  cases ht : o.thread a with
  | none => exact ⟨q, h⟩
  | some t =>
    simp only
    split
    · exact ⟨q, h⟩
    rename_i hins
    have ha : a ∈ q t (o.mode a) :=
      (h.links.mem a t _).mpr ⟨by simpa using hins, ht, rfl⟩
    obtain ⟨head, next, hremove, hlinked, hnext⟩ :=
      Chain.remove_linked (h.links.queue t (o.mode a)) ha (h.links.length_le t _)
    rw [hremove]
    refine ⟨_, h.dequeue ha hlinked hnext rfl rfl rfl rfl rfl rfl rfl ?_ rfl rfl rfl rfl rfl
      rfl rfl ?_⟩
    · exact ⟨(h.control t).progress, (h.control t).below⟩
    · intro b
      by_cases hba : b = a
      · subst hba
        simp only [update_self, if_true]
        omega
      · simp [hba]

/-! ### Delivery -/

theorem Control.move {th th' : Thread A} {pc pc' : Pc A}
    (h : Control th) (hstack : th.stack = ⟨entry, pc⟩ :: rest)
    (hstack' : th'.stack = ⟨entry, pc'⟩ :: rest)
    (hprogress : (if pc'.busy then 1 else 0) + (if th.kernelApcInProgress then 1 else 0) =
      (if th'.kernelApcInProgress then 1 else 0) + if pc.busy then 1 else 0) : Control th' := by
  have hp := h.progress
  have hb := h.below
  rw [hstack, countP_cons] at hp
  rw [hstack] at hb
  refine ⟨?_, ?_⟩
  · rw [hstack', countP_cons]
    dsimp only at hp ⊢
    omega
  · rw [hstack']
    exact hb

theorem Control.leave {th th' : Thread A}
    (h : Control th) (hstack : th.stack = ⟨entry, .top⟩ :: rest) (hstack' : th'.stack = rest)
    (hprogress : th'.kernelApcInProgress = th.kernelApcInProgress) : Control th' := by
  have hp := h.progress
  have hb := h.below
  rw [hstack, countP_cons] at hp
  rw [hstack, tail_cons] at hb
  refine ⟨?_, ?_⟩
  · rw [hstack', hprogress, ← hp]
    rfl
  · rw [hstack']
    exact fun f hf => hb f (mem_of_mem_tail hf)

theorem Control.call (h : Control th) (hcode : th.inCode = true) (irql : ℕ) :
    Control (th.call irql) := by
  refine ⟨?_, ?_⟩
  · rw [Thread.call, countP_cons, h.progress]
    rfl
  · show ∀ f ∈ th.stack, f.pc.settled = false
    unfold Thread.inCode at hcode
    have hb := h.below
    intro f hf
    cases hstack : th.stack with
    | nil =>
      rw [hstack] at hf
      cases hf
    | cons g rest =>
      rw [hstack] at hcode hf hb
      rcases mem_cons.mp hf with rfl | hf
      · obtain ⟨entry, pc⟩ := f
        cases pc with
        | top => cases hcode
        | kernel a n => rfl
        | normal a => rfl
        | finish a => cases hcode
      · exact hb f hf

theorem deliverTop_inv [DecidableEq T] [DecidableEq A] (h : Inv o s q w)
    (hstack : (s.threads s.current).stack = ⟨entry, .top⟩ :: rest) :
    ∃ q', Inv o (deliverTop o s entry rest) q' w := by
  have hctl := h.control s.current
  have hqueue := h.links.queue s.current .kernel
  unfold deliverTop
  simp only
  cases hhead : (s.threads s.current).apcListHead .kernel with
  | none =>
    rw [hhead] at hqueue
    have hempty := Chain.linked_none hqueue
    refine ⟨q, h.setThread _ rfl (fun hd => hd) rfl ?_ (hctl.leave hstack rfl rfl)⟩
    intro m hm
    have hmk : m ≠ .kernel := by
      rintro rfl
      exact hm hempty
    exact (update_of_ne hmk _ _).trans (h.pending _ m hm)
  | some a =>
    simp only
    split_ifs with hguard hcrit
    · exact ⟨q, h.setControl _ rfl rfl rfl rfl (hctl.leave hstack rfl rfl)⟩
    · exact ⟨q, h.setControl _ rfl rfl rfl rfl (hctl.leave hstack rfl rfl)⟩
    · rw [hhead] at hqueue
      obtain ⟨l, hl, hrest⟩ := Chain.linked_some hqueue
      have ha : a ∈ q s.current .kernel := by rw [hl]; exact mem_cons_self
      have herase : (q s.current .kernel).erase a = l := by rw [hl, erase_cons_head]
      have hlinked : Chain.Linked s.next (s.next a) ((q s.current .kernel).erase a) := by
        rw [herase]
        exact hrest
      refine ⟨_, h.dequeue ha hlinked (fun _ _ => rfl) rfl rfl rfl rfl rfl rfl rfl ?_
        rfl rfl rfl rfl rfl rfl rfl ?_⟩
      · refine hctl.move hstack rfl ?_
        -- a normal APC starts only where none is in progress
        cases hn : o.normal a with
        | false => simp [Pc.busy]
        | true =>
          rw [hn] at hcrit
          simp only [Bool.true_and, or_eq_true, not_or, not_eq_true] at hcrit
          simp [Pc.busy, hcrit.2]
      · intro b
        by_cases hba : b = a
        · subst hba
          simp only [update_self, if_true]
          omega
        · simp [hba]

theorem Inv.goOn [DecidableEq T] {th : Thread A} {irql : ℕ}
    (h' : Inv o (s.setThread s.current th) q w) : Inv o (s.goOn th irql) q w :=
  ⟨h'.links.same rfl rfl (fun _ => rfl) (fun _ hd => hd) rfl rfl rfl, h'.depth, h'.pending,
    h'.order, h'.stamped, h'.balance, h'.control⟩

theorem advance_inv [DecidableEq T] [DecidableEq A] (h : Inv o s q w) (keepsNormal : Bool) :
    ∃ q', Inv o (advance o s keepsNormal) q' w := by
  have hctl := h.control s.current
  unfold advance
  simp only
  cases hstack : (s.threads s.current).stack with
  | nil => exact ⟨q, h⟩
  | cons f rest =>
    obtain ⟨entry, pc⟩ := f
    cases pc with
    | top => exact deliverTop_inv h hstack
    | kernel a normal =>
      simp only
      split
      · rename_i hrun
        refine ⟨q, .goOn (h.setControl _ rfl rfl rfl rfl (hctl.move hstack rfl ?_))⟩
        rw [and_eq_true] at hrun
        simp only [Pc.busy, hrun.1, if_true]
        omega
      · refine ⟨q, .goOn (h.setControl _ rfl rfl rfl rfl (hctl.move hstack rfl ?_))⟩
        cases normal with
        | true =>
          simp only [Pc.busy, if_true]
          omega
        | false => simp [Pc.busy]
    | normal a =>
      refine ⟨q, .goOn (h.setControl _ rfl rfl rfl rfl (hctl.move hstack rfl ?_))⟩
      simp only [Pc.busy, if_true]
      omega
    | finish a =>
      refine ⟨q, h.setControl _ rfl rfl rfl rfl (hctl.move hstack rfl ?_)⟩
      -- the call that is at its end is the one that the flag stands for
      have hp := hctl.progress
      rw [hstack, countP_cons] at hp
      simp only [Pc.busy, if_true, false_eq_true, if_false] at hp ⊢
      split_ifs at hp ⊢
      all_goals omega

theorem code_keeps (th : Thread A) (irql : ℕ) (step : Step T A) :
    (th.code irql step).apcListHead = th.apcListHead ∧ (th.code irql step).dead = th.dead ∧
      (th.code irql step).kernelApcDepth = th.kernelApcDepth ∧
      (th.code irql step).apcPending = th.apcPending := by
  cases step with
  | leaveCritical =>
    simp only [Thread.code, Thread.leaveCritical]
    split_ifs <;> exact ⟨rfl, rfl, rfl, rfl⟩
  | leaveGuarded =>
    simp only [Thread.code, Thread.leaveGuarded]
    split_ifs <;> exact ⟨rfl, rfl, rfl, rfl⟩
  | _ => exact ⟨rfl, rfl, rfl, rfl⟩

/-- A thread that runs code changes its region counters, and may make a call. -/
theorem code_calls (th : Thread A) (irql : ℕ) (step : Step T A) :
    (th.code irql step).kernelApcInProgress = th.kernelApcInProgress ∧
      ((th.code irql step).stack = th.stack ∨
        (th.code irql step).stack = ⟨irql, .top⟩ :: th.stack) := by
  cases step with
  | deliver => exact ⟨rfl, .inr rfl⟩
  | leaveCritical =>
    simp only [Thread.code, Thread.leaveCritical]
    split_ifs
    · exact ⟨rfl, .inl rfl⟩
    · exact ⟨rfl, .inr rfl⟩
    · exact ⟨rfl, .inl rfl⟩
  | leaveGuarded =>
    simp only [Thread.code, Thread.leaveGuarded]
    split_ifs
    · exact ⟨rfl, .inl rfl⟩
    · exact ⟨rfl, .inr rfl⟩
    · exact ⟨rfl, .inl rfl⟩
  | _ => exact ⟨rfl, .inl rfl⟩

theorem Control.congr {th' : Thread A} (h : Control th) (hstack : th'.stack = th.stack)
    (hprogress : th'.kernelApcInProgress = th.kernelApcInProgress) : Control th' :=
  ⟨by rw [hstack, hprogress]; exact h.progress, by rw [hstack]; exact h.below⟩

theorem code_control (h : Control th) (hcode : th.inCode = true) (irql : ℕ)
    (step : Step T A) : Control (th.code irql step) := by
  obtain ⟨hprogress, hstack | hstack⟩ := code_calls th irql step
  · exact h.congr hstack hprogress
  · exact (h.call hcode irql).congr hstack hprogress

theorem Links.nodes [Fintype A] (h : Links o s q w) (t : T) (m : Mode) :
    Chain.nodes s.next (turns A) ((s.threads t).apcListHead m) = q t m :=
  Chain.nodes_eq (h.queue t m) (h.length_le t m)

theorem Links.mem_both (h : Links o s q w) {t : T} {a : A} :
    a ∈ q t .kernel ++ q t .user ↔ s.inserted a = true ∧ o.thread a = some t := by
  rw [mem_append, h.mem a t .kernel, h.mem a t .user]
  unfold Owned
  cases o.mode a <;> simp

theorem Links.both_free (h : Links o s q w) {t : T} {a : A} (ha : a ∈ q t .kernel ++ q t .user) :
    s.rundownOf a = none := by
  rcases mem_append.mp ha with ha | ha
  · exact h.not_waiting ha
  · exact h.not_waiting ha

theorem Links.detach [DecidableEq T] [DecidableEq A] [Fintype A] (h : Links o s q w) {t : T}
    (hdead : (s.threads t).dead = true) : Links o (rundownDetach s t) (update q t fun _ => [])
      (update w s.started (q t)) := by
  simp only [rundownDetach, hdead, h.nodes, Bool.not_true, Bool.false_eq_true, if_false]
  refine ⟨?_, ?_, ?_, ?_, ?_, ?_⟩
  · intro t' m
    simp only
    by_cases htt : t' = t
    · rw [htt, update_self, update_self]
      exact Chain.linked_nil
    · rw [update_of_ne htt, update_of_ne htt]
      exact h.queue t' m
  · intro a t' m
    simp only [and_eq_true, not_eq_true', decide_eq_false_iff_not, h.mem_both]
    by_cases htt : t' = t
    · rw [htt, update_self]
      simp only [not_mem_nil, false_iff]
      rintro ⟨⟨hi, hn⟩, hown⟩
      exact hn ⟨hi, hown.1⟩
    · rw [update_of_ne htt, h.mem a t' m]
      refine and_congr_left fun hown => ⟨fun hi => ⟨hi, fun hn => htt ?_⟩, fun hi => hi.1⟩
      exact some.inj (hown.1.symm.trans hn.2)
  · intro a ha
    rw [and_eq_true] at ha
    exact h.targeted a ha.1
  · intro i m
    simp only
    by_cases hi : i = s.started
    · rw [hi, update_self, update_self]
      exact h.queue t m
    · rw [update_of_ne hi, update_of_ne hi]
      exact h.rest i m
  · intro a i m
    simp only
    by_cases ha : a ∈ q t .kernel ++ q t .user
    · rw [if_pos ha]
      by_cases hi : i = s.started
      · rw [hi, update_self, h.mem a t m]
        simp [Owned, h.mem_both.mp ha]
      · rw [update_of_ne hi, h.waiting a i m, h.both_free ha]
        simp [Ne.symm hi]
    · rw [if_neg ha]
      by_cases hi : i = s.started
      · rw [hi, update_self, h.mem a t m]
        exact iff_of_false (fun hm => ha (h.mem_both.mpr ⟨hm.1, hm.2.1⟩))
          fun hw => (h.gone a _ hw.1).1.ne rfl
      · rw [update_of_ne hi, h.waiting a i m]
  · intro a i hof
    simp only at hof ⊢
    by_cases ha : a ∈ q t .kernel ++ q t .user
    · rw [if_pos ha] at hof
      refine ⟨by simp [some.inj hof.symm], by simp [ha], t, (h.mem_both.mp ha).2, ?_⟩
      rw [update_self]
    · rw [if_neg ha] at hof
      obtain ⟨hi, hno, t', ht', hd⟩ := h.gone a i hof
      refine ⟨hi.trans (Nat.lt_succ_self _), by simp [hno], t', ht', ?_⟩
      by_cases htt : t' = t
      · rw [htt, update_self]
      · rw [update_of_ne htt]
        exact hd

theorem rundown_inv [DecidableEq T] [DecidableEq A] [Fintype A] (h : Inv o s q w) (t : T) :
    ∃ q' w', Inv o (rundownDetach s t) q' w' := by
  cases hdead : (s.threads t).dead with
  | false => exact ⟨q, w, by simpa [rundownDetach, hdead] using h⟩
  | true =>
  refine ⟨_, _, h.links.detach hdead, ?_, ?_, ?_, ?_, ?_, ?_⟩
  all_goals
    simp only [rundownDetach, hdead, h.links.nodes, Bool.not_true, Bool.false_eq_true, if_false]
  · refine forall_update (P := fun t' th => th.kernelApcDepth =
      (update q t (fun _ => []) t' .kernel).length) ?_ ?_
    · rw [update_self]
      rfl
    · intro t' htt
      rw [update_of_ne htt, h.depth t']
  · refine forall_update (P := fun t' th => ∀ m, update q t (fun _ => []) t' m ≠ [] →
      th.apcPending m = true) ?_ ?_
    · intro m hne
      rw [update_self] at hne
      exact absurd rfl hne
    · intro t' htt m hne
      rw [update_of_ne htt] at hne
      exact h.pending t' m hne
  · intro t'
    by_cases htt : t' = t
    · rw [htt, update_self]
      exact Ordered.nil
    · rw [update_of_ne htt]
      exact h.order t'
  · intro a ha
    rw [and_eq_true] at ha
    exact h.stamped a ha.1
  · intro a
    have hbal := h.balance a
    by_cases ha : a ∈ q t .kernel ++ q t .user
    · rw [(h.links.mem_both.mp ha).1, h.links.both_free ha] at hbal
      simp only [ha, decide_true, Bool.not_true, Bool.and_false, false_eq_true, if_false,
        if_true, isSome_some, isSome_none] at hbal ⊢
      omega
    · simp only [ha, decide_false, Bool.not_false, Bool.and_true, if_false]
      exact hbal
  · refine forall_update (P := fun _ th => Control th) ?_ fun t' _ => h.control t'
    exact ⟨(h.control t).progress, (h.control t).below⟩

theorem rundownStep_inv [DecidableEq A] (h : Inv o s q w) (i : ℕ) :
    ∃ w', Inv o (rundownStep s i) q w' := by
  unfold rundownStep
  dsimp only
  generalize (if (s.rundowns i .kernel).isSome = true then Mode.kernel else .user) = m
  have hqueue := h.links.rest i m
  cases hhead : s.rundowns i m with
  | none => exact ⟨w, h⟩
  | some a =>
    rw [hhead] at hqueue
    obtain ⟨l, hl, hrest⟩ := Chain.linked_some hqueue
    have hnodup : a ∉ l := by
      have := Chain.linked_nodup hqueue
      rw [hl] at this
      exact (nodup_cons.mp this).1
    obtain ⟨hof, hmode⟩ := (h.links.waiting a i m).mp (by rw [hl]; exact mem_cons_self)
    have honly : ∀ j m', a ∈ w j m' → j = i ∧ m' = m := by
      intro j m' hm
      obtain ⟨hof', hmode'⟩ := (h.links.waiting a j m').mp hm
      exact ⟨some.inj (hof'.symm.trans hof), hmode'.symm.trans hmode⟩
    refine ⟨setQueue w i m l, { h with
      links := ⟨?_, h.links.mem, h.links.targeted, ?_, ?_, ?_⟩, balance := ?_ }⟩
    · intro t m'
      refine Chain.linked_update (h.links.queue t m') (fun hm => ?_) _
      rw [h.links.not_waiting hm] at hof
      cases hof
    · intro j m'
      by_cases hj : j = i ∧ m' = m
      · obtain ⟨rfl, rfl⟩ := hj
        simp only [setQueue_self, update_self]
        exact Chain.linked_update hrest hnodup _
      · have hother : update s.rundowns i (update (s.rundowns i) m (s.next a)) j m' =
            s.rundowns j m' := by
          by_cases hji : j = i
          · subst hji
            rw [update_self, update_of_ne fun hm => hj ⟨rfl, hm⟩]
          · rw [update_of_ne hji]
        rw [setQueue_other _ hj]
        simp only [hother]
        exact Chain.linked_update (h.links.rest j m') (fun hm => hj (honly j m' hm)) _
    · intro b j m'
      by_cases hba : b = a
      · subst hba
        refine iff_of_false (fun hm => ?_) (by simp)
        by_cases hj : j = i ∧ m' = m
        · obtain ⟨rfl, rfl⟩ := hj
          rw [setQueue_self] at hm
          exact hnodup hm
        · rw [setQueue_other _ hj] at hm
          exact hj (honly j m' hm)
      · simp only [update_of_ne hba]
        rw [← h.links.waiting b j m']
        by_cases hj : j = i ∧ m' = m
        · obtain ⟨rfl, rfl⟩ := hj
          rw [setQueue_self, hl]
          simp [hba]
        · rw [setQueue_other _ hj]
    · intro b j hb
      simp only at hb
      by_cases hba : b = a
      · subst hba
        rw [update_self] at hb
        cases hb
      · rw [update_of_ne hba] at hb
        exact h.links.gone b j hb
    · intro b
      have hbal := h.balance b
      by_cases hba : b = a
      · subst hba
        simp only [update_self, hof, isSome_some, isSome_none,
          false_eq_true, if_false, if_true] at hbal ⊢
        omega
      · simp only [update_of_ne hba]
        exact hbal

theorem inCode_inv [DecidableEq T] (h : Inv o s q w) (step : Step T A) :
    Inv o (inCode s step) q w := by
  unfold inCode
  split
  · rename_i hcode
    obtain ⟨hhead, hdead, hdepth, hpending⟩ := code_keeps (s.threads s.current) s.irql step
    exact h.setControl _ hhead hdead hdepth hpending (code_control (h.control _) hcode _ step)
  · exact h

end ImpossibleOs.Ke.Apc
