import ImpossibleOs.Ke.ApcSteps
import ImpossibleOs.Lib.Refine

/-!
Runs of the APC machine: what holds in every state that the threads can reach, when an APC starts,
and at which IRQL a call of `KiDeliverApc` returns.
-/

namespace ImpossibleOs.Ke.Apc

open Function List Nat

open Chain (Linked)
open Function (update)

variable {T A : Type}
variable {o : Objects T A} {s : State T A} {q : T → Mode → List A} {w : ℕ → Mode → List A}

theorem Inv.cpu (h : Inv o s q w) (t : T) (irql : ℕ) :
    Inv o { s with current := t, irql := irql } q w :=
  ⟨h.links.same rfl rfl (fun _ => rfl) (fun _ hd => hd) rfl rfl rfl, h.depth, h.pending, h.order,
    h.stamped, h.balance, h.control⟩

theorem setIrql_inv (h : Inv o s q w) (irql : ℕ) : Inv o (setIrql s irql) q w := by
  unfold setIrql
  split
  · exact h.cpu s.current irql
  · exact h

theorem schedule_inv (h : Inv o s q w) (t : T) : Inv o (schedule s t) q w := by
  unfold schedule
  split
  · exact h
  · exact h.cpu t s.irql

theorem initial_inv (o : Objects T A) (boot : T) :
    Inv o (initial boot) (fun _ _ => []) (fun _ _ => []) where
  links :=
    { queue := fun _ _ => Chain.linked_nil
      mem := by simp [initial]
      targeted := nofun
      rest := fun _ _ => Chain.linked_nil
      waiting := by simp [initial]
      gone := nofun }
  depth _ := rfl
  pending _ _ h := absurd rfl h
  order _ := Ordered.nil
  stamped _ h := by cases h
  balance _ := rfl
  control _ := ⟨rfl, nofun⟩

section

variable [DecidableEq T] [DecidableEq A] [Fintype A]

theorem exec_inv (h : Inv o s q w) (step : Step T A) : ∃ q' w', Inv o (exec o s step) q' w' := by
  cases step with
  | insert a =>
    obtain ⟨q', h'⟩ := insert_inv h a
    exact ⟨q', w, h'⟩
  | remove a =>
    obtain ⟨q', h'⟩ := remove_inv h a
    exact ⟨q', w, h'⟩
  | die t =>
    refine ⟨q, w, h.setThread t rfl (fun _ => rfl) rfl (h.pending t) ?_⟩
    exact ⟨(h.control t).progress, (h.control t).below⟩
  | rundown t => exact rundown_inv h t
  | rundownStep i =>
    obtain ⟨w', h'⟩ := rundownStep_inv h i
    exact ⟨q, w', h'⟩
  | advance keepsNormal =>
    obtain ⟨q', h'⟩ := advance_inv h keepsNormal
    exact ⟨q', w, h'⟩
  | deliver | enterCritical | leaveCritical | enterGuarded | leaveGuarded =>
    exact ⟨q, w, inCode_inv h _⟩
  | setIrql irql => exact ⟨q, w, setIrql_inv h irql⟩
  | switch t => exact ⟨q, w, schedule_inv h t⟩

theorem run_inv (steps : List (Step T A)) (h : ∃ q w, Inv o s q w) :
    ∃ q w, Inv o (steps.foldl (exec o) s) q w := by
  induction steps generalizing s with
  | nil => exact h
  | cons step steps ih =>
    obtain ⟨q, w, h⟩ := h
    exact ih (exec_inv h step)

end

/-! ### Steps beside the deliveries -/

/-- No call of `KiDeliverApc` moves, and the CPU stays where it is. -/
structure Aside (s s' : State T A) : Prop where
  stack : ∀ t, (s'.threads t).stack = (s.threads t).stack
  current : s'.current = s.current
  irql : s'.irql = s.irql
  delivered : s'.delivered = s.delivered

theorem Aside.refl (s : State T A) : Aside s s := ⟨fun _ => rfl, rfl, rfl, rfl⟩

section

variable [DecidableEq T]

theorem stack_update {threads : T → Thread A} {t : T} {th : Thread A}
    (h : th.stack = (threads t).stack) (t' : T) :
    (update threads t th t').stack = (threads t').stack := by
  by_cases htt : t' = t
  · rw [htt, update_self, h]
  · rw [update_of_ne htt]

theorem die_aside (s : State T A) (t : T) :
    Aside s (s.setThread t { s.threads t with dead := true }) := by
  refine ⟨fun t' => stack_update ?_ t', rfl, rfl, rfl⟩
  rfl

section

variable [DecidableEq A] [Fintype A]

theorem insert_aside (o : Objects T A) (s : State T A) (a : A) :
    Aside s (keInsertQueueApc o s a) := by
  unfold keInsertQueueApc
  split
  · exact .refl s
  · simp only
    split
    · exact .refl s
    · refine ⟨fun t => stack_update ?_ t, rfl, rfl, rfl⟩
      rfl

theorem remove_aside (o : Objects T A) (s : State T A) (a : A) :
    Aside s (keRemoveQueueApc o s a) := by
  unfold keRemoveQueueApc
  split
  · exact .refl s
  · split
    · exact .refl s
    · simp only
      split
      · refine ⟨fun t => stack_update ?_ t, rfl, rfl, rfl⟩
        rfl
      · refine ⟨fun t => stack_update ?_ t, rfl, rfl, rfl⟩
        rfl

theorem rundown_aside (s : State T A) (t : T) : Aside s (rundownDetach s t) := by
  unfold rundownDetach
  simp only
  split
  · exact .refl s
  · refine ⟨fun t' => stack_update ?_ t', rfl, rfl, rfl⟩
    rfl

end

end

theorem rundownStep_aside [DecidableEq A] (s : State T A) (i : ℕ) : Aside s (rundownStep s i) := by
  unfold rundownStep
  dsimp only
  split
  · exact .refl s
  · exact ⟨fun _ => rfl, rfl, rfl, rfl⟩

/-! ### Starts -/

/-- An APC starts on its own thread, outside a guarded region; a normal one outside a critical
region and while no other normal one of the thread is in progress. -/
def Admitted (o : Objects T A) (s : State T A) (a : A) : Prop :=
  ∃ t, o.thread a = some t ∧ (s.threads t).specialApcDisable = 0 ∧
    (o.normal a = true → (s.threads t).kernelApcDisable = 0 ∧
      ∀ f ∈ (s.threads t).stack, f.pc.busy = false)

variable {rest : List (Frame A)} {entry : ℕ}

theorem setIrql_apart (s : State T A) (irql : ℕ) :
    (setIrql s irql).threads = s.threads ∧ (setIrql s irql).delivered = s.delivered := by
  unfold setIrql
  split <;> exact ⟨rfl, rfl⟩

theorem schedule_apart (s : State T A) (t : T) :
    (schedule s t).threads = s.threads ∧ (schedule s t).delivered = s.delivered := by
  unfold schedule
  split <;> exact ⟨rfl, rfl⟩

section

variable [DecidableEq T]

theorem inCode_delivered (s : State T A) (step : Step T A) :
    (inCode s step).delivered = s.delivered := by
  unfold inCode
  split <;> rfl

variable [DecidableEq A]

theorem deliverTop_admitted (h : Inv o s q w) {a : A}
    (hstart : (deliverTop o s entry rest).delivered a ≠ s.delivered a) : Admitted o s a := by
  have hqueue := h.links.queue s.current .kernel
  unfold deliverTop at hstart
  simp only at hstart
  cases hhead : (s.threads s.current).apcListHead .kernel with
  | none => simp [hhead, State.setThread] at hstart
  | some b =>
    rw [hhead] at hstart hqueue
    simp only at hstart
    split_ifs at hstart with hguard hcrit
    · exact absurd rfl hstart
    · exact absurd rfl hstart
    · have hab : a = b := by
        by_contra hab
        exact hstart (update_of_ne hab _ _)
      subst hab
      obtain ⟨l, hl, _⟩ := Chain.linked_some hqueue
      have hmem : a ∈ q s.current .kernel := by rw [hl]; exact mem_cons_self
      refine ⟨s.current, ((h.links.mem a s.current .kernel).mp hmem).2.1, by omega, fun hn => ?_⟩
      simp only [hn, Bool.true_and, Bool.or_eq_true, decide_eq_true_eq, not_or,
        Bool.not_eq_true] at hcrit
      refine ⟨by omega, fun f hf => ?_⟩
      have hp := (h.control s.current).progress
      rw [hcrit.2, if_neg (by decide), countP_eq_zero] at hp
      simpa using hp f hf

theorem advance_admitted (h : Inv o s q w) {keepsNormal : Bool} {a : A}
    (hstart : (advance o s keepsNormal).delivered a ≠ s.delivered a) : Admitted o s a := by
  unfold advance at hstart
  simp only at hstart
  split at hstart
  · exact absurd rfl hstart
  · split at hstart
    · exact deliverTop_admitted h hstart
    · split at hstart
      · exact absurd rfl hstart
      · exact absurd rfl hstart
    · exact absurd rfl hstart
    · exact absurd rfl hstart

theorem exec_admitted [Fintype A] (h : Inv o s q w) {step : Step T A} {a : A}
    (hstart : (exec o s step).delivered a ≠ s.delivered a) : Admitted o s a := by
  cases step with
  | insert b => exact absurd (congrFun (insert_aside o s b).delivered a) hstart
  | remove b => exact absurd (congrFun (remove_aside o s b).delivered a) hstart
  | die t => exact absurd rfl hstart
  | rundown t => exact absurd (congrFun (rundown_aside s t).delivered a) hstart
  | rundownStep i => exact absurd (congrFun (rundownStep_aside s i).delivered a) hstart
  | advance keepsNormal => exact advance_admitted h hstart
  | deliver | enterCritical | leaveCritical | enterGuarded | leaveGuarded =>
    exact absurd (congrFun (inCode_delivered s _) a) hstart
  | setIrql irql => exact absurd (congrFun (setIrql_apart s irql).2 a) hstart
  | switch t => exact absurd (congrFun (schedule_apart s t).2 a) hstart

end

/-! ### Returns -/

/-- The current thread is level at the IRQL of the CPU. -/
def Level (s : State T A) : Prop := (s.threads s.current).Level s.irql

/-- A switch finds the CPU at the IRQL that the thread it goes to needs. -/
def Switches (s : State T A) : Step T A → Prop
  | .switch t => (s.threads t).dead = true ∨ (s.threads t).Level s.irql
  | _ => True

theorem Aside.level {s' : State T A} (h : Aside s s') (hl : Level s) : Level s' := by
  unfold Level Thread.Level
  rw [h.current, h.irql, h.stack]
  exact hl

/-- Code runs inside a routine, or outside every call. -/
theorem Thread.inCode_level {th : Thread A} (h : th.inCode = true) (irql : ℕ) :
    th.Level irql := by
  unfold Thread.inCode at h
  intro f hf hsettled
  cases hs : th.stack with
  | nil =>
    rw [hs] at hf
    cases hf
  | cons g rest =>
    rw [hs] at h hf
    obtain rfl : g = f := Option.some.inj hf
    obtain ⟨entry, pc⟩ := g
    cases pc with
    | top => cases h
    | kernel a n => cases hsettled
    | normal a => cases hsettled
    | finish a => cases h

theorem level_cons {th : Thread A} {irql : ℕ} {f : Frame A} (hstack : th.stack = f :: rest)
    (h : f.pc.settled = true → irql = f.entryIrql) : th.Level irql := by
  unfold Thread.Level
  rw [hstack]
  rintro g ⟨⟩
  exact h

/-- The call below the innermost one is in a routine. -/
theorem level_rest {th : Thread A} {irql : ℕ} {f : Frame A} (hrest : th.stack = rest)
    {th' : Thread A} (h : Control th') (hstack : th'.stack = f :: rest) : th.Level irql := by
  intro g hg hsettled
  rw [hrest] at hg
  have hb := h.below g (by rw [hstack]; exact mem_of_mem_head? hg)
  rw [hb] at hsettled
  cases hsettled

section

variable [DecidableEq T]

theorem setThread_current (s : State T A) (th : Thread A) :
    Level (s.setThread s.current th) ↔ th.Level s.irql := by
  show (update s.threads s.current th s.current).Level s.irql ↔ _
  rw [update_self]

theorem goOn_level (s : State T A) {th : Thread A} {irql : ℕ} (h : th.Level irql) :
    Level (s.goOn th irql) := by
  show (update s.threads s.current th s.current).Level irql
  rw [update_self]
  exact h

theorem inCode_level (hl : Level s) (step : Step T A) : Level (inCode s step) := by
  unfold inCode
  split
  · rename_i hcode
    rw [setThread_current]
    obtain ⟨-, hstack | hstack⟩ := code_calls (s.threads s.current) s.irql step
    · unfold Thread.Level
      rw [hstack]
      exact hl
    · exact level_cons hstack fun _ => rfl
  · exact hl

variable [DecidableEq A]

theorem deliverTop_level (h : Inv o s q w)
    (hstack : (s.threads s.current).stack = ⟨entry, .top⟩ :: rest) :
    Level (deliverTop o s entry rest) := by
  have hleave : ∀ th : Thread A, th.stack = rest → Level (s.setThread s.current th) := by
    intro th hth
    rw [setThread_current]
    exact level_rest hth (h.control s.current) hstack
  unfold deliverTop
  simp only
  split
  · exact hleave _ rfl
  · split_ifs
    · exact hleave _ rfl
    · exact hleave _ rfl
    · show (update s.threads s.current _ s.current).Level apcLevel
      rw [update_self]
      exact level_cons rfl nofun

theorem advance_level (h : Inv o s q w) (hl : Level s) (keepsNormal : Bool) :
    Level (advance o s keepsNormal) := by
  unfold advance
  simp only
  cases hstack : (s.threads s.current).stack with
  | nil => exact hl
  | cons f rest =>
    obtain ⟨entry, pc⟩ := f
    cases pc with
    | top => exact deliverTop_level h hstack
    | kernel a normal =>
      simp only
      split
      · exact goOn_level s (level_cons rfl nofun)
      · exact goOn_level s (level_cons rfl fun _ => rfl)
    | normal a => exact goOn_level s (level_cons rfl fun _ => rfl)
    | finish a =>
      rw [setThread_current]
      have hirql := hl ⟨entry, .finish a⟩ (by rw [hstack]; rfl) rfl
      exact level_cons rfl fun _ => hirql

variable [Fintype A]

theorem exec_level (h : Inv o s q w) (hl : Level s) {step : Step T A} (hok : Switches s step) :
    Level (exec o s step) := by
  cases step with
  | insert a => exact (insert_aside o s a).level hl
  | remove a => exact (remove_aside o s a).level hl
  | die t => exact (die_aside s t).level hl
  | rundown t => exact (rundown_aside s t).level hl
  | rundownStep i => exact (rundownStep_aside s i).level hl
  | advance keepsNormal => exact advance_level h hl keepsNormal
  | deliver | enterCritical | leaveCritical | enterGuarded | leaveGuarded =>
    exact inCode_level hl _
  | setIrql irql =>
    show Level (setIrql s irql)
    unfold setIrql
    split
    · rename_i hcode
      exact Thread.inCode_level hcode irql
    · exact hl
  | switch t =>
    show Level (schedule s t)
    unfold schedule
    split
    · exact hl
    · rename_i hdead
      exact hok.resolve_left hdead

end

/-- A call that returns was entered at the IRQL of the CPU. -/
def Returns (s s' : State T A) : Prop :=
  ∀ t f rest, (s.threads t).stack = f :: rest → (s'.threads t).stack = rest →
    s'.irql = f.entryIrql

theorem Returns.of_le {s' : State T A}
    (h : ∀ t, (s.threads t).stack.length ≤ (s'.threads t).stack.length) : Returns s s' := by
  intro t f rest hstack hreturn
  have hle := h t
  rw [hreturn, hstack, length_cons] at hle
  omega

theorem Returns.of_threads {s' : State T A} (h : s'.threads = s.threads) : Returns s s' :=
  .of_le fun t => by rw [h]

theorem Aside.returns {s' : State T A} (h : Aside s s') : Returns s s' :=
  .of_le fun t => (congrArg length (h.stack t)).ge

section

variable [DecidableEq T]

theorem length_setThread {t : T} {th : Thread A}
    (h : (s.threads t).stack.length ≤ th.stack.length) (t' : T) :
    (s.threads t').stack.length ≤ (update s.threads t th t').stack.length := by
  by_cases htt : t' = t
  · rw [htt, update_self]
    exact h
  · rw [update_of_ne htt]

theorem inCode_returns (s : State T A) (step : Step T A) : Returns s (inCode s step) := by
  unfold inCode
  split
  · refine .of_le (length_setThread ?_)
    obtain ⟨-, hstack | hstack⟩ := code_calls (s.threads s.current) s.irql step
    · rw [hstack]
    · rw [hstack]
      exact le_succ _
  · exact .of_le fun _ => le_rfl

variable [DecidableEq A]

theorem deliverTop_returns (hl : Level s)
    (hstack : (s.threads s.current).stack = ⟨entry, .top⟩ :: rest) :
    Returns s (deliverTop o s entry rest) := by
  have hirql : s.irql = entry := hl ⟨entry, .top⟩ (by rw [hstack]; rfl) rfl
  have hleave : ∀ th : Thread A, Returns s (s.setThread s.current th) := by
    intro th t f rest' hs hreturn
    by_cases htt : t = s.current
    · rw [htt, hstack] at hs
      injection hs with hf
      rw [← hf]
      exact hirql
    · rw [setThread_other s th htt, hs] at hreturn
      exact absurd hreturn (cons_ne_self f rest')
  unfold deliverTop
  simp only
  split
  · exact hleave _
  · split_ifs
    · exact hleave _
    · exact hleave _
    · refine .of_le (length_setThread ?_)
      rw [hstack]
      rfl

theorem advance_returns (hl : Level s) (keepsNormal : Bool) :
    Returns s (advance o s keepsNormal) := by
  unfold advance
  simp only
  split
  · exact .of_le fun _ => le_rfl
  · rename_i entry pc rest hstack
    have hlength : ∀ pc', (s.threads s.current).stack.length ≤
        (Frame.mk entry pc' :: rest).length := by
      intro pc'
      rw [hstack]
      rfl
    split
    · exact deliverTop_returns hl hstack
    · split
      · exact .of_le (length_setThread (hlength _))
      · exact .of_le (length_setThread (hlength _))
    · exact .of_le (length_setThread (hlength _))
    · exact .of_le (length_setThread (hlength _))

theorem exec_returns [Fintype A] (hl : Level s) (step : Step T A) :
    Returns s (exec o s step) := by
  cases step with
  | insert a => exact (insert_aside o s a).returns
  | remove a => exact (remove_aside o s a).returns
  | die t => exact (die_aside s t).returns
  | rundown t => exact (rundown_aside s t).returns
  | rundownStep i => exact (rundownStep_aside s i).returns
  | advance keepsNormal => exact advance_returns hl keepsNormal
  | deliver | enterCritical | leaveCritical | enterGuarded | leaveGuarded =>
    exact inCode_returns s _
  | setIrql irql => exact .of_threads (setIrql_apart s irql).1
  | switch t => exact .of_threads (schedule_apart s t).1

end

structure Holds (o : Objects T A) (s : State T A) (q : T → Mode → List A) : Prop where
  linked : ∀ t m, Linked s.next ((s.threads t).apcListHead m) (q t m)
  nodup : ∀ t m, (q t m).Nodup
  inserted : ∀ a, s.inserted a = true ↔ ∃ t m, a ∈ q t m
  owned : ∀ a t m, a ∈ q t m → o.thread a = some t ∧ o.mode a = m
  depth : ∀ t, (s.threads t).kernelApcDepth = (q t .kernel).length
  ordered : ∀ t, Ordered o s.stamp (q t .kernel)
  pending : ∀ t m, q t m ≠ [] → (s.threads t).apcPending m = true
  /-- Each insert was answered by one delivery, removal or rundown, but for the APC that is still
  linked or waits for its rundown routine. -/
  once : ∀ a, s.inserts a = s.delivered a + s.removed a + s.ranDown a +
    (if s.inserted a then 1 else 0) + (if (s.rundownOf a).isSome then 1 else 0)

theorem Inv.holds (h : Inv o s q w) : Holds o s q where
  linked := h.links.queue
  nodup := h.links.nodup
  inserted a := by
    refine ⟨fun ha => ?_, fun ⟨t, m, ha⟩ => ((h.links.mem a t m).mp ha).1⟩
    obtain ⟨t, hta⟩ := h.links.targeted a ha
    exact ⟨t, o.mode a, (h.links.mem a t _).mpr ⟨ha, hta, rfl⟩⟩
  owned a t m ha := ((h.links.mem a t m).mp ha).2
  depth := h.depth
  ordered := h.order
  pending := h.pending
  once := h.balance

section

variable [DecidableEq T] [DecidableEq A] [Fintype A]

/-- In every state that any interleaving of the threads can reach, the queues are as they should
be, and whatever step is next, an APC starts only where the regions and the flag admit it. In a run
whose switches find the IRQL as the thread needs it, a call of `KiDeliverApc` returns at the IRQL it
was entered at. -/
theorem apc_run (o : Objects T A) (boot : T) (steps : List (Step T A)) :
    (∃ q, Holds o (steps.foldl (exec o) (initial boot)) q) ∧
      (∀ step a, (exec o (steps.foldl (exec o) (initial boot)) step).delivered a ≠
          (steps.foldl (exec o) (initial boot)).delivered a →
        Admitted o (steps.foldl (exec o) (initial boot)) a) ∧
      (Refine.Meets (exec o) Switches (initial boot) steps → ∀ step,
        Returns (steps.foldl (exec o) (initial boot))
          (exec o (steps.foldl (exec o) (initial boot)) step)) := by
  obtain ⟨q, w, h⟩ := run_inv (o := o) steps ⟨_, _, initial_inv o boot⟩
  refine ⟨⟨q, h.holds⟩, ?_, ?_⟩
  · exact fun step a hstart => exec_admitted h hstart
  · intro hcond step
    have hlevel := hcond.invariant (fun s => (∃ q w, Inv o s q w) ∧ Level s)
      (fun s step ⟨⟨q, w, h⟩, hl⟩ hok => ⟨exec_inv h step, exec_level h hl hok⟩)
      ⟨⟨_, _, initial_inv o boot⟩, nofun⟩
    exact exec_returns hlevel.2 step

end

/-- Each thread has one special APC. -/
def twoSpecials : Objects Bool Bool where
  thread := some
  mode _ := .kernel
  normal _ := false
  special_kernel _ _ := rfl

/-- Thread `true` delivers its APC, and is switched away from before the call returns. Meanwhile
`false` gets to the `KernelRoutine` of its own. -/
def carriedOver : List (Step Bool Bool) :=
  [.insert true, .insert false, .switch true, .deliver, .advance false, .advance false,
    .switch false, .deliver, .advance false, .switch true]

/-- As `carriedOver`, but `false` has returned before `true` goes on. -/
def takenTurns : List (Step Bool Bool) :=
  [.insert true, .insert false, .switch true, .deliver, .advance false, .advance false,
    .switch false, .deliver, .advance false, .advance false, .advance false, .switch true]

theorem apc_run_takenTurns :
    ((takenTurns.foldl (exec twoSpecials) (initial false)).threads true).stack = [⟨0, .top⟩] ∧
      Returns (takenTurns.foldl (exec twoSpecials) (initial false))
        (exec twoSpecials (takenTurns.foldl (exec twoSpecials) (initial false))
          (.advance false)) := by
  refine ⟨rfl, (apc_run twoSpecials false takenTurns).2.2 ?_ _⟩
  refine ⟨trivial, trivial, .inr nofun, trivial, trivial, trivial, .inr nofun, trivial, trivial,
    trivial, trivial, .inr ?_, trivial⟩
  rintro f ⟨⟩ _
  rfl

/-- The IRQL of the `KernelRoutine` of one thread becomes the IRQL at which the call of the other
returns. -/
theorem apc_run_carriedOver :
    ¬ ∀ steps : List (Step Bool Bool), ∀ step,
      Returns (steps.foldl (exec twoSpecials) (initial false))
        (exec twoSpecials (steps.foldl (exec twoSpecials) (initial false)) step) := by
  intro h
  exact absurd (h carriedOver (.advance false) true ⟨0, .top⟩ [] rfl rfl) (by decide)

end ImpossibleOs.Ke.Apc
