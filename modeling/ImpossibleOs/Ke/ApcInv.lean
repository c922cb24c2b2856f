import ImpossibleOs.Ke.Apc

/-!
What the APC queues keep.

The invariant names the lists that the heads lead to: the queues of every thread, and what the
rundowns under way still hold. A step changes one queue, or one rundown, and leaves the links of
all other nodes alone.
-/

namespace ImpossibleOs.Ke.Apc

open Function List

open Chain (Linked)
open Function (update)

variable {T A : Type}

/-! ### Links -/

def Owned (o : Objects T A) (a : A) (t : T) (m : Mode) : Prop := o.thread a = some t ∧ o.mode a = m

/-- An APC is in its queue exactly when it is inserted, and in the list of a rundown exactly when
that rundown has it. -/
structure Links (o : Objects T A) (s : State T A) (q : T → Mode → List A)
    (w : ℕ → Mode → List A) : Prop where
  queue : ∀ t m, Linked s.next ((s.threads t).apcListHead m) (q t m)
  mem : ∀ a t m, a ∈ q t m ↔ s.inserted a = true ∧ Owned o a t m
  targeted : ∀ a, s.inserted a = true → ∃ t, o.thread a = some t
  rest : ∀ i m, Linked s.next (s.rundowns i m) (w i m)
  waiting : ∀ a i m, a ∈ w i m ↔ s.rundownOf a = some i ∧ o.mode a = m
  gone : ∀ a i, s.rundownOf a = some i → i < s.started ∧ s.inserted a = false ∧
    ∃ t, o.thread a = some t ∧ (s.threads t).dead = true

section Links

variable {o : Objects T A} {s s' : State T A} {q : T → Mode → List A} {w : ℕ → Mode → List A}

theorem Owned.unique {a : A} {t t' : T} {m m' : Mode} (h : Owned o a t m) (h' : Owned o a t' m') :
    t = t' ∧ m = m' :=
  ⟨Option.some.inj (h.1.symm.trans h'.1), h.2.symm.trans h'.2⟩

theorem Links.nodup (h : Links o s q w) (t : T) (m : Mode) : (q t m).Nodup :=
  Chain.linked_nodup (h.queue t m)

theorem Links.length_le [Fintype A] (h : Links o s q w) (t : T) (m : Mode) :
    (q t m).length ≤ turns A :=
  Chain.linked_length_le (h.queue t m)

/-- An APC that waits for its rundown routine is in no queue. -/
theorem Links.not_waiting (h : Links o s q w) {a : A} {t : T} {m : Mode} (ha : a ∈ q t m) :
    s.rundownOf a = none := by
  cases hof : s.rundownOf a with
  | none => rfl
  | some i =>
    have hins := ((h.mem a t m).mp ha).1
    rw [(h.gone a i hof).2.1] at hins
    cases hins

section

variable {ι : Type} [DecidableEq ι] {i : ι} {m : Mode}

def setQueue (q : ι → Mode → List A) (i : ι) (m : Mode) (l : List A) : ι → Mode → List A :=
  fun i' m' => if i' = i ∧ m' = m then l else q i' m'

theorem setQueue_self (q : ι → Mode → List A) (i : ι) (m : Mode) (l : List A) :
    setQueue q i m l i m = l := if_pos ⟨rfl, rfl⟩

theorem setQueue_other {q : ι → Mode → List A} {i' : ι} {m' : Mode} (l : List A)
    (h : ¬ (i' = i ∧ m' = m)) : setQueue q i m l i' m' = q i' m' := if_neg h

theorem setQueue_apart {q : ι → Mode → List A} {l : List A} {i' : ι} (h : i' ≠ i) (m' : Mode) :
    setQueue q i m l i' m' = q i' m' := setQueue_other l fun hm => h hm.1

end

theorem Links.relink [DecidableEq T] (h : Links o s q w) {t : T} {m : Mode} {a : A} {l : List A}
    {head : Option A} {th : Thread A} (ha : Owned o a t m) (hfree : s.rundownOf a = none)
    (hnext : ∀ b, b ∉ q t m → b ≠ a → s'.next b = s.next b)
    (hl : Linked s'.next head l) (hthreads : s'.threads = update s.threads t th)
    (hth : th.apcListHead = update (s.threads t).apcListHead m head)
    (hdead : th.dead = (s.threads t).dead)
    (hmem : ∀ b, b ∈ l ↔ s'.inserted b = true ∧ Owned o b t m)
    (hins : ∀ b, b ≠ a → s'.inserted b = s.inserted b)
    (hrun : s'.rundowns = s.rundowns) (hof : s'.rundownOf = s.rundownOf)
    (hstarted : s'.started = s.started) : Links o s' (setQueue q t m l) w := by
  have hother : ∀ t' m', ¬ (t' = t ∧ m' = m) → ∀ b ∈ q t' m', s'.next b = s.next b := by
    intro t' m' hne b hb
    have hb' := ((h.mem b t' m').mp hb).2
    refine hnext b (fun hbq => hne ?_) ?_
    · exact hb'.unique ((h.mem b t m).mp hbq).2
    · rintro rfl
      exact hne (hb'.unique ha)
  refine ⟨?_, ?_, ?_, ?_, ?_, ?_⟩
  · intro t' m'
    by_cases hne : t' = t ∧ m' = m
    · obtain ⟨rfl, rfl⟩ := hne
      rw [setQueue_self, hthreads, update_self, hth, update_self]
      exact hl
    · have hhead : (s'.threads t').apcListHead m' = (s.threads t').apcListHead m' := by
        rw [hthreads]
        by_cases htt : t' = t
        · rw [htt, update_self, hth, update_of_ne fun hm => hne ⟨htt, hm⟩]
        · rw [update_of_ne htt]
      rw [setQueue_other l hne, hhead]
      exact Chain.linked_congr (h.queue t' m') (hother t' m' hne)
  · intro b t' m'
    by_cases hne : t' = t ∧ m' = m
    · obtain ⟨rfl, rfl⟩ := hne
      rw [setQueue_self]
      exact hmem b
    · rw [setQueue_other l hne, h.mem b t' m']
      by_cases hba : b = a
      · subst hba
        have hno : ¬ Owned o b t' m' := fun hb => hne (hb.unique ha)
        simp [hno]
      · rw [hins b hba]
  · intro b hb
    by_cases hba : b = a
    · exact ⟨t, hba ▸ ha.1⟩
    · exact h.targeted b (hins b hba ▸ hb)
  · intro i m'
    rw [hrun]
    refine Chain.linked_congr (h.rest i m') fun b hb => ?_
    have hbi := ((h.waiting b i m').mp hb).1
    refine hnext b (fun hbq => ?_) ?_
    · rw [h.not_waiting hbq] at hbi
      cases hbi
    · rintro rfl
      rw [hfree] at hbi
      cases hbi
  · rw [hof]
    exact h.waiting
  · intro b i hb
    rw [hof] at hb
    obtain ⟨hi, hins', t', ht', hd⟩ := h.gone b i hb
    have hba : b ≠ a := by
      rintro rfl
      rw [hfree] at hb
      cases hb
    refine ⟨hstarted ▸ hi, (hins b hba).trans hins', t', ht', ?_⟩
    rw [hthreads]
    by_cases htt : t' = t
    · rw [htt, update_self, hdead, ← htt]
      exact hd
    · rw [update_of_ne htt]
      exact hd

theorem Links.same (h : Links o s q w) (hnext : s'.next = s.next)
    (hins : s'.inserted = s.inserted)
    (hhead : ∀ t, (s'.threads t).apcListHead = (s.threads t).apcListHead)
    (hdead : ∀ t, (s.threads t).dead = true → (s'.threads t).dead = true)
    (hrun : s'.rundowns = s.rundowns) (hof : s'.rundownOf = s.rundownOf)
    (hstarted : s'.started = s.started) : Links o s' q w where
  queue t m := by rw [hnext, hhead]; exact h.queue t m
  mem a t m := by rw [hins]; exact h.mem a t m
  targeted := by rw [hins]; exact h.targeted
  rest i m := by rw [hnext, hrun]; exact h.rest i m
  waiting := by rw [hof]; exact h.waiting
  gone a i ha := by
    rw [hof] at ha
    obtain ⟨hi, hno, t, ht, hd⟩ := h.gone a i ha
    exact ⟨hstarted ▸ hi, hins ▸ hno, t, ht, hdead t hd⟩

end Links

/-! ### Order -/

/-- APCs without a `NormalRoutine` first, then the others as they were inserted. -/
def Ordered (o : Objects T A) (stamp : A → ℕ) (l : List A) : Prop :=
  ∃ special normal, l = special ++ normal ∧ (∀ a ∈ special, o.normal a = false) ∧
    (∀ a ∈ normal, o.normal a = true) ∧ normal.Pairwise fun a b => stamp a < stamp b

section Order

variable {o : Objects T A} {stamp stamp' : A → ℕ} {l l' : List A}

theorem Ordered.nil : Ordered o stamp [] := ⟨[], [], rfl, by simp, by simp, List.Pairwise.nil⟩

section

variable (h : Ordered o stamp l)
include h

theorem Ordered.sublist (hl : l'.Sublist l) : Ordered o stamp l' := by
  obtain ⟨special, normal, rfl, hs, hn, hp⟩ := h
  obtain ⟨special', normal', rfl, hs', hn'⟩ := sublist_append_iff.mp hl
  exact ⟨special', normal', rfl, fun a ha => hs a (hs'.subset ha), fun a ha => hn a (hn'.subset ha),
    hp.sublist hn'⟩

theorem Ordered.congr (hstamp : ∀ a ∈ l, stamp' a = stamp a) : Ordered o stamp' l := by
  obtain ⟨special, normal, rfl, hs, hn, hp⟩ := h
  refine ⟨special, normal, rfl, hs, hn, hp.imp_of_mem ?_⟩
  intro a b ha hb hab
  rw [hstamp a (mem_append_right _ ha), hstamp b (mem_append_right _ hb)]
  exact hab

theorem Ordered.push {a : A} (ha : o.normal a = false) : Ordered o stamp (a :: l) := by
  obtain ⟨special, normal, rfl, hs, hn, hp⟩ := h
  exact ⟨a :: special, normal, rfl, forall_mem_cons.mpr ⟨ha, hs⟩, hn, hp⟩

theorem Ordered.append {a : A} (ha : o.normal a = true)
    (hlast : ∀ b ∈ l, stamp b < stamp a) : Ordered o stamp (l ++ [a]) := by
  obtain ⟨special, normal, rfl, hs, hn, hp⟩ := h
  refine ⟨special, normal ++ [a], by simp, hs, ?_, ?_⟩
  · intro b hb
    rcases mem_append.mp hb with hb | hb
    · exact hn b hb
    · rw [mem_singleton.mp hb]
      exact ha
  · refine pairwise_append.mpr ⟨hp, pairwise_singleton _ _, ?_⟩
    intro b hb c hc
    rw [mem_singleton.mp hc]
    exact hlast b (mem_append_right _ hb)

end

end Order

/-- A call of `KiDeliverApc` has started an APC with a `NormalRoutine` and not yet cleared the
flag. -/
def Pc.busy : Pc A → Bool
  | .top => false
  | .kernel _ n => n
  | .normal _ => true
  | .finish _ => true

/-- A call that runs no routine is at the IRQL it was entered at. -/
def Pc.settled : Pc A → Bool
  | .top => true
  | .finish _ => true
  | _ => false

/-- At most one normal APC is in progress, as the flag says, and a call was made from a routine of
the one it is in. -/
structure Control (th : Thread A) : Prop where
  progress : th.stack.countP (fun f => f.pc.busy) = if th.kernelApcInProgress then 1 else 0
  below : ∀ f ∈ th.stack.tail, f.pc.settled = false

/-- Where the thread is between two routines, `irql` is the one its innermost call was entered
at. -/
def Thread.Level (th : Thread A) (irql : ℕ) : Prop :=
  ∀ f ∈ th.stack.head?, f.pc.settled = true → irql = f.entryIrql

structure Inv (o : Objects T A) (s : State T A) (q : T → Mode → List A)
    (w : ℕ → Mode → List A) : Prop where
  links : Links o s q w
  depth : ∀ t, (s.threads t).kernelApcDepth = (q t .kernel).length
  pending : ∀ t m, q t m ≠ [] → (s.threads t).apcPending m = true
  order : ∀ t, Ordered o s.stamp (q t .kernel)
  stamped : ∀ a, s.inserted a = true → s.stamp a < s.clock
  balance : ∀ a, s.inserts a = s.delivered a + s.removed a + s.ranDown a +
    (if s.inserted a then 1 else 0) + (if (s.rundownOf a).isSome then 1 else 0)
  control : ∀ t, Control (s.threads t)

section Steps

variable [DecidableEq T]
variable {o : Objects T A} {s : State T A} {q : T → Mode → List A} {w : ℕ → Mode → List A}

theorem setThread_self (s : State T A) (t : T) (th : Thread A) :
    (s.setThread t th).threads t = th := update_self ..

theorem setThread_other (s : State T A) {t t' : T} (th : Thread A) (h : t' ≠ t) :
    (s.setThread t th).threads t' = s.threads t' := update_of_ne h ..

theorem Inv.setThread (h : Inv o s q w) (t : T) {th : Thread A}
    (hhead : th.apcListHead = (s.threads t).apcListHead)
    (hdead : (s.threads t).dead = true → th.dead = true)
    (hdepth : th.kernelApcDepth = (s.threads t).kernelApcDepth)
    (hpending : ∀ m, q t m ≠ [] → th.apcPending m = true) (hcontrol : Control th) :
    Inv o (s.setThread t th) q w := by
  have hall : ∀ {P : T → Thread A → Prop}, P t th → (∀ t', P t' (s.threads t')) →
      ∀ t', P t' ((s.setThread t th).threads t') := by
    intro P hself hother t'
    by_cases htt : t' = t
    · rw [htt, setThread_self]
      exact hself
    · rw [setThread_other s th htt]
      exact hother t'
  refine ⟨h.links.same rfl rfl ?_ ?_ rfl rfl rfl, ?_, ?_, h.order, h.stamped, h.balance, ?_⟩
  · exact hall (P := fun t' th' => th'.apcListHead = (s.threads t').apcListHead) hhead fun _ => rfl
  · exact hall (P := fun t' th' => (s.threads t').dead = true → th'.dead = true) hdead
      fun _ hd => hd
  · exact hall (P := fun t' th' => th'.kernelApcDepth = (q t' .kernel).length)
      (hdepth.trans (h.depth t)) h.depth
  · exact hall (P := fun t' th' => ∀ m, q t' m ≠ [] → th'.apcPending m = true) hpending h.pending
  · exact hall (P := fun _ th' => Control th') hcontrol h.control

theorem Inv.setControl (h : Inv o s q w) (t : T) {th : Thread A}
    (hhead : th.apcListHead = (s.threads t).apcListHead) (hdead : th.dead = (s.threads t).dead)
    (hdepth : th.kernelApcDepth = (s.threads t).kernelApcDepth)
    (hpending : th.apcPending = (s.threads t).apcPending) (hcontrol : Control th) :
    Inv o (s.setThread t th) q w :=
  h.setThread t hhead (fun hd => hdead.trans hd) hdepth
    (fun m hm => (congrFun hpending m).trans (h.pending t m hm)) hcontrol

end Steps

end ImpossibleOs.Ke.Apc
