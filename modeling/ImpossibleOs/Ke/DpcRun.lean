import ImpossibleOs.Ke.DpcSteps
import Mathlib.Algebra.GroupWithZero.Nat
import Mathlib.Algebra.Order.BigOperators.Group.Finset

/-!
Whole runs of deferred procedure calls, and the barrier of `KeFlushQueuedDpcs`.

The barrier samples one CPU after the other. A CPU that it has seen idle stays idle until an insert
links a `KDPC`: its threaded list is only fed from its own normal queue.
-/

namespace ImpossibleOs.Ke.Dpc

open Function Option Finset
open Bool hiding and_assoc

open Function (update)

variable {K R V : Type} [DecidableEq K] [Fintype K]
variable {maxCpus : ℕ} {m m' : Mem K R V} {l l' : Lists K} {k : K} {cpu : ℕ} {call : Call K R V}

/-! ### What a thread relies on -/

def Call.InRange (maxCpus : ℕ) : Call K R V → Prop
  | .insertOn _ _ cpu _ => cpu < maxCpus
  | .drain cpu _ _ => cpu < maxCpus
  | .running cpu _ _ _ => cpu < maxCpus
  | .workerOn cpu _ => cpu < maxCpus
  | .workerRunning cpu _ _ => cpu < maxCpus
  | _ => True

/-- When the flush of a thread began. -/
def Call.since : Call K R V → Option ℕ
  | .drain _ _ flush => flush
  | .running _ _ flush _ => flush
  | .barrier since _ _ => some since
  | .barrierCount since _ _ => some since
  | .flushed since => some since
  | _ => none

/-- Nothing waits and no routine runs. -/
structure Quiet (maxCpus : ℕ) (m : Mem K R V) : Prop where
  idle : ∀ cpu < maxCpus, sampledIdle m cpu = true
  threaded : m.inFlightThreaded = 0

/-- What the samples of the barrier say, as long as no insert linked a `KDPC`. -/
def Call.Seen (maxCpus : ℕ) (m : Mem K R V) : Call K R V → Prop
  | .barrier since _ cpu => m.clock = since → ∀ c < cpu, sampledIdle m c = true
  | .barrierCount since _ busy =>
    busy = false → m.clock = since → ∀ c < maxCpus, sampledIdle m c = true
  | .flushed since => m.clock = since → Quiet maxCpus m
  | _ => True

structure Call.Ok (maxCpus : ℕ) (m : Mem K R V) (call : Call K R V) : Prop where
  inRange : call.InRange maxCpus
  since : ∀ t ∈ call.since, t ≤ m.clock
  seen : call.Seen maxCpus m

/-- A step that links nothing leaves idle CPUs idle. -/
structure Settles (maxCpus : ℕ) (m m' : Mem K R V) : Prop where
  clock : m.clock ≤ m'.clock
  idle : m'.clock = m.clock → ∀ c, sampledIdle m c = true → sampledIdle m' c = true
  threaded : m'.clock = m.clock → Quiet maxCpus m → m'.inFlightThreaded = 0

section

omit [DecidableEq K] [Fintype K]

theorem Call.Ok.stable (h : call.Ok maxCpus m) (hs : Settles maxCpus m m') :
    call.Ok maxCpus m' := by
  refine ⟨h.inRange, fun t ht => (h.since t ht).trans hs.clock, ?_⟩
  have hsince := h.since
  have hseen := h.seen
  -- a clock that stands where the flush began has not moved in this step
  have hsame : ∀ {since : ℕ}, since ≤ m.clock → m'.clock = since → m'.clock = m.clock :=
    fun hle heq => le_antisymm (heq ▸ hle) hs.clock
  cases call with
  | barrier since spin cpu =>
    intro hclock c hc
    have heq := hsame (hsince since rfl) hclock
    exact hs.idle heq c (hseen (heq.symm.trans hclock) c hc)
  | barrierCount since spin busy =>
    intro hbusy hclock c hc
    have heq := hsame (hsince since rfl) hclock
    exact hs.idle heq c (hseen hbusy (heq.symm.trans hclock) c hc)
  | flushed since =>
    intro hclock
    have heq := hsame (hsince since rfl) hclock
    have hquiet := hseen (heq.symm.trans hclock)
    exact ⟨fun c hc => hs.idle heq c (hquiet.idle c hc), hs.threaded heq hquiet⟩
  | _ => trivial

theorem settles_of_eq (hclock : m'.clock = m.clock) (hqueues : m'.cpuQueues = m.cpuQueues)
    (hthreaded : m'.threadedQ = m.threadedQ) (hflight : m'.inFlight = m.inFlight)
    (hcount : m'.inFlightThreaded = m.inFlightThreaded) : Settles maxCpus m m' := by
  refine ⟨hclock.ge, fun _ c hc => ?_, fun _ hq => hcount.trans hq.threaded⟩
  unfold sampledIdle at hc ⊢
  rwa [hqueues, hthreaded, hflight]

theorem settles_refl (maxCpus : ℕ) (m : Mem K R V) : Settles maxCpus m m :=
  settles_of_eq rfl rfl rfl rfl rfl

theorem sampledIdle_iff {c : ℕ} : sampledIdle m c = true ↔
    (m.cpuQueues c).head = none ∧ (m.threadedQ c).head = none ∧ m.inFlight c = 0 := by
  unfold sampledIdle
  rw [and_eq_true, and_eq_true, isNone_iff_eq_none, isNone_iff_eq_none,
    beq_iff_eq, and_assoc]

end

variable {out : Outcome K R V} {flush : Option ℕ} {choice : Choice K V} {req : Request K V}
  {dispatched : ℕ} {budget : ℕ} {spins : ℕ}

theorem removeLocked_settles (hout : removeLocked maxCpus m k cpu = out) :
    Settles maxCpus m out.1.1 := by
  subst hout
  have hmissing : ∀ (q : Chain.Queue K), q.head = none → q.unlink m.next (turns K) k = none := by
    intro q hq
    unfold Chain.Queue.unlink
    rw [hq]
    cases turns K <;> rfl
  unfold removeLocked
  split
  · exact settles_refl maxCpus m
  · split
    · rename_i q' next' hu
      refine ⟨le_rfl, fun _ c hc => ?_, fun _ hq => hq.threaded⟩
      obtain ⟨hhead, hthead, hflight⟩ := sampledIdle_iff.mp hc
      refine sampledIdle_iff.mpr ⟨?_, hthead, hflight⟩
      by_cases hcc : c = cpu
      · subst hcc
        rw [hmissing _ hhead] at hu
        cases hu
      · exact (congrArg Chain.Queue.head (update_of_ne hcc _ _)).trans hhead
    · split
      · rename_i q' next' hu
        refine ⟨le_rfl, fun _ c hc => ?_, fun _ hq => hq.threaded⟩
        obtain ⟨hhead, hthead, hflight⟩ := sampledIdle_iff.mp hc
        refine sampledIdle_iff.mpr ⟨hhead, ?_, hflight⟩
        by_cases hcc : c = cpu
        · subst hcc
          rw [hmissing _ hthead] at hu
          cases hu
        · exact (congrArg Chain.Queue.head (update_of_ne hcc _ _)).trans hthead
      · exact settles_refl maxCpus m

omit [Fintype K] in
theorem drainLocked_settles
    (hout : drainLocked maxCpus m cpu dispatched flush = out) : Settles maxCpus m out.1.1 := by
  subst hout
  unfold drainLocked
  split
  · exact settles_refl maxCpus m
  · rename_i k hhead
    have hne : ∀ {c}, sampledIdle m c = true → c ≠ cpu := by
      rintro c hc rfl
      rw [(sampledIdle_iff.mp hc).1] at hhead
      cases hhead
    simp only
    split
    · refine ⟨le_rfl, fun _ c hc => ?_, fun _ hq => hq.threaded⟩
      obtain ⟨hq, hw, hflight⟩ := sampledIdle_iff.mp hc
      exact sampledIdle_iff.mpr
        ⟨(congrArg Chain.Queue.head (update_of_ne (hne hc) _ _)).trans hq,
          (congrArg Chain.Queue.head (update_of_ne (hne hc) _ _)).trans hw, hflight⟩
    · refine ⟨le_rfl, fun _ c hc => ?_, fun _ hq => hq.threaded⟩
      obtain ⟨hq, hw, hflight⟩ := sampledIdle_iff.mp hc
      exact sampledIdle_iff.mpr
        ⟨(congrArg Chain.Queue.head (update_of_ne (hne hc) _ _)).trans hq, hw,
          (update_of_ne (hne hc) _ _).trans hflight⟩

omit [Fintype K] in
theorem workerLocked_settles (hcpu : cpu < maxCpus)
    (hout : workerLocked maxCpus m cpu budget = out) : Settles maxCpus m out.1.1 := by
  subst hout
  unfold workerLocked
  split
  · exact settles_of_eq rfl rfl rfl rfl rfl
  · rename_i k hhead
    refine ⟨le_rfl, fun _ c hc => ?_, fun _ hq => ?_⟩
    · obtain ⟨hq, hw, hflight⟩ := sampledIdle_iff.mp hc
      have hne : c ≠ cpu := by
        rintro rfl
        rw [hw] at hhead
        cases hhead
      exact sampledIdle_iff.mpr
        ⟨hq, (congrArg Chain.Queue.head (update_of_ne hne _ _)).trans hw, hflight⟩
    · rw [(sampledIdle_iff.mp (hq.idle cpu hcpu)).2.1] at hhead
      cases hhead

/-! ### Steps -/

/-- What every step of a thread does, beside the lists. -/
structure Moves (maxCpus : ℕ) (m : Mem K R V) (call : Call K R V) (out : Outcome K R V) : Prop where
  settles : Settles maxCpus m out.1.1
  ok : out.1.2.Ok maxCpus out.1.1

omit [DecidableEq K] [Fintype K] in
theorem afterDrain_ok (h : ∀ t ∈ flush, t ≤ m.clock) :
    (afterDrain flush : Call K R V).Ok maxCpus m := by
  cases flush with
  | none => exact ⟨trivial, nofun, trivial⟩
  | some since => exact ⟨trivial, h, fun _ c hc => absurd hc (Nat.not_lt_zero c)⟩

omit [DecidableEq K] [Fintype K] in
theorem insertLook_moves (look : Look) :
    Moves maxCpus m call (insertLook maxCpus m req spins look) := by
  unfold insertLook
  split
  · exact ⟨settles_of_eq rfl rfl rfl rfl rfl, trivial, nofun, trivial⟩
  · split
    · split
      · exact ⟨settles_refl maxCpus m, trivial, nofun, trivial⟩
      · rename_i hcpu
        exact ⟨settles_refl maxCpus m, not_le.mp hcpu, nofun, trivial⟩
    · simp only
      split
      · exact ⟨settles_refl maxCpus m, trivial, nofun, trivial⟩
      · rename_i hcpu
        exact ⟨settles_refl maxCpus m, not_le.mp hcpu, nofun, trivial⟩

omit [Fintype K] in
theorem insertLocked_moves {seen : Bool} :
    Moves maxCpus m call (insertLocked m req spins cpu seen) := by
  unfold insertLocked
  simp only
  split
  · split
    · exact ⟨settles_of_eq rfl rfl rfl rfl rfl, trivial, nofun, trivial⟩
    · exact ⟨settles_refl maxCpus m, trivial, nofun, trivial⟩
  · split
    · exact ⟨settles_refl maxCpus m, trivial, nofun, trivial⟩
    · refine ⟨⟨Nat.le_succ _, fun h => ?_, fun h => ?_⟩, trivial, nofun, trivial⟩
      · exact absurd h (Nat.succ_ne_self _)
      · exact absurd h (Nat.succ_ne_self _)

theorem removeLocked_moves : Moves maxCpus m call (removeLocked maxCpus m k cpu) := by
  refine ⟨removeLocked_settles rfl, ?_⟩
  have hidle : (removeLocked maxCpus m k cpu).1.2 = .idle := by
    unfold removeLocked
    split
    · rfl
    · split
      · rfl
      · split <;> rfl
  rw [hidle]
  exact ⟨trivial, by rintro _ ⟨⟩, trivial⟩

omit [Fintype K] in
theorem drainLocked_moves (hcpu : cpu < maxCpus) (hflush : ∀ t ∈ flush, t ≤ m.clock) :
    Moves maxCpus m call (drainLocked maxCpus m cpu dispatched flush) := by
  refine ⟨drainLocked_settles rfl, ?_⟩
  unfold drainLocked
  split
  · exact afterDrain_ok hflush
  · simp only
    split
    · exact ⟨hcpu, hflush, trivial⟩
    · exact ⟨hcpu, hflush, trivial⟩

omit [Fintype K] in
theorem workerLocked_moves (hcpu : cpu < maxCpus) :
    Moves maxCpus m call (workerLocked maxCpus m cpu budget) := by
  refine ⟨workerLocked_settles hcpu rfl, ?_⟩
  unfold workerLocked
  split
  · exact ⟨trivial, nofun, trivial⟩
  · exact ⟨hcpu, nofun, trivial⟩

theorem advance_moves (h : call.Ok maxCpus m) (look : Look) :
    Moves maxCpus m call (advance maxCpus m look call) := by
  have hstay : Settles maxCpus m m := settles_refl maxCpus m
  have hrange := h.inRange
  have hsince := h.since
  have hseen := h.seen
  cases call with
  | idle => exact ⟨hstay, trivial, nofun, trivial⟩
  | insert req spins => exact insertLook_moves look
  | insertOn req spins cpu seen => exact insertLocked_moves
  | remove k =>
    simp only [advance]
    split
    · exact ⟨hstay, trivial, nofun, trivial⟩
    · exact ⟨hstay, trivial, nofun, trivial⟩
  | removeOn k cpu => exact removeLocked_moves
  | drain cpu dispatched flush =>
    simp only [advance]
    split
    · exact ⟨hstay, afterDrain_ok hsince⟩
    · split
      · exact drainLocked_moves hrange hsince
      · exact ⟨hstay, afterDrain_ok hsince⟩
  | running cpu dispatched flush run =>
    refine ⟨⟨le_rfl, fun _ c hc => ?_, fun _ hq => hq.threaded⟩, hrange, hsince, trivial⟩
    obtain ⟨hq, hw, hflight⟩ := sampledIdle_iff.mp hc
    refine sampledIdle_iff.mpr ⟨hq, hw, ?_⟩
    show update m.inFlight cpu (m.inFlight cpu - 1) c = 0
    by_cases hcc : c = cpu
    · rw [hcc, update_self, ← hcc, hflight]
    · rw [update_of_ne hcc, hflight]
  | worker cpu =>
    simp only [advance]
    split
    · exact ⟨hstay, trivial, nofun, trivial⟩
    · rename_i hcpu
      split
      · exact ⟨hstay, not_le.mp hcpu, nofun, trivial⟩
      · exact ⟨hstay, trivial, nofun, trivial⟩
  | workerOn cpu budget =>
    cases budget with
    | zero => exact ⟨hstay, trivial, nofun, trivial⟩
    | succ budget => exact workerLocked_moves hrange
  | workerRunning cpu budget run =>
    refine ⟨⟨le_rfl, fun _ c hc => hc, fun _ hq => ?_⟩, hrange, nofun, trivial⟩
    show m.inFlightThreaded - 1 = 0
    rw [hq.threaded]
  | barrier since spin cpu =>
    simp only [advance]
    split
    · rename_i hcpu
      exact ⟨hstay, trivial, hsince, fun _ hclock c hc => hseen hclock c (hc.trans_le hcpu)⟩
    · split
      · rename_i hidle
        refine ⟨hstay, trivial, hsince, fun hclock c hc => ?_⟩
        rcases Nat.lt_succ_iff_lt_or_eq.mp hc with hlt | rfl
        · exact hseen hclock c hlt
        · exact hidle
      · exact ⟨hstay, trivial, hsince, nofun⟩
  | barrierCount since spin busy =>
    simp only [advance]
    split
    · rename_i hdone
      rw [and_eq_true, not_eq_true', beq_iff_eq] at hdone
      exact ⟨hstay, trivial, hsince, fun hclock => ⟨hseen hdone.1 hclock, hdone.2⟩⟩
    · split
      · exact ⟨settles_of_eq rfl rfl rfl rfl rfl, trivial, nofun, trivial⟩
      · exact ⟨hstay, trivial, hsince, fun _ c hc => absurd hc (Nat.not_lt_zero c)⟩
  | flushed since => exact ⟨hstay, h⟩

theorem thread_moves (h : call.Ok maxCpus m)
    (hout : thread maxCpus m call choice = some out) : Moves maxCpus m call out := by
  have hstay : Settles maxCpus m m := settles_refl maxCpus m
  unfold thread at hout
  split at hout
  · cases hout
  · cases choice with
    | insert req =>
      obtain ⟨-, hout⟩ := ite_none_right_eq_some.mp hout
      cases hout
      exact ⟨hstay, trivial, nofun, trivial⟩
    | remove k =>
      obtain ⟨-, hout⟩ := ite_none_right_eq_some.mp hout
      cases hout
      exact ⟨hstay, trivial, nofun, trivial⟩
    | drain cpu =>
      obtain ⟨hcpu, hout⟩ := ite_none_right_eq_some.mp hout
      cases hout
      rw [and_eq_true, decide_eq_true_eq] at hcpu
      exact ⟨hstay, hcpu.2, nofun, trivial⟩
    | worker =>
      obtain ⟨-, hout⟩ := ite_none_right_eq_some.mp hout
      cases hout
      exact ⟨hstay, trivial, nofun, trivial⟩
    | flush here legal =>
      simp only at hout
      have hnow : ∀ t ∈ some m.clock, t ≤ m.clock := by
        rintro t ⟨⟩
        exact le_rfl
      split at hout
      · cases hout
      · split at hout
        · cases hout
          exact ⟨settles_of_eq rfl rfl rfl rfl rfl, trivial, nofun, trivial⟩
        · split at hout
          · rename_i hhere
            cases hout
            exact ⟨hstay, hhere, hnow, trivial⟩
          · cases hout
            exact ⟨hstay, trivial, hnow, fun _ c hc => absurd hc (Nat.not_lt_zero c)⟩
    | setTargetProcessor k cpu =>
      obtain ⟨-, hout⟩ := ite_none_right_eq_some.mp hout
      cases hout
      have hs : Settles maxCpus m
          { m with dpc := update m.dpc k { m.dpc k with cpuTarget := some cpu } } :=
        settles_of_eq rfl rfl rfl rfl rfl
      exact ⟨hs, h.stable hs⟩
    | setImportance k importance =>
      obtain ⟨-, hout⟩ := ite_none_right_eq_some.mp hout
      cases hout
      have hs : Settles maxCpus m
          { m with dpc := update m.dpc k { m.dpc k with importance := importance } } :=
        settles_of_eq rfl rfl rfl rfl rfl
      exact ⟨hs, h.stable hs⟩
    | go look =>
      cases hout
      exact advance_moves h look

/-! ### Lists and history -/

section

variable (h : Inv maxCpus m l)
include h

section

omit [Fintype K]

theorem quiet_sound (hlists : SameLists m m') (hmarks : SameMarks m m')
    (hpending : m'.pending = m.pending) : Sound maxCpus m l m' .silent := by
  refine ⟨l, h.same hlists fun c hc => ?_, fun es hes => hes.silent hmarks⟩
  rw [hpending]
  exact h.pending c hc

theorem still_sound (hdpc : m'.dpc = m.dpc) (hnext : m'.next = m.next)
    (hqueues : m'.cpuQueues = m.cpuQueues) (hdepth : m'.depth = m.depth)
    (hthreaded : m'.threadedQ = m.threadedQ) (hpending : m'.pending = m.pending)
    (hclock : m'.clock = m.clock) : Sound maxCpus m l m' .silent := by
  refine quiet_sound h ⟨hnext, hqueues, hdepth, hthreaded, fun k => ?_, fun k => ?_⟩
    ⟨fun k => ?_, fun k => ?_, fun k => ?_, hclock⟩ hpending
  all_goals rw [hdpc]

theorem refl_sound : Sound maxCpus m l m .silent :=
  still_sound h rfl rfl rfl rfl rfl rfl rfl

theorem bugcheck_sound : Sound maxCpus m l { m with bugcheck := true } .silent :=
  still_sound h rfl rfl rfl rfl rfl rfl rfl

theorem insertLocked_sound {seen : Bool} (hcpu : cpu < maxCpus) :
    Sound maxCpus m l (insertLocked m req spins cpu seen).1.1
      (insertLocked m req spins cpu seen).2 := by
  unfold insertLocked
  simp only
  split
  · split
    · exact refresh_sound h req.args
    · exact refl_sound h
  · rename_i hqueued
    split
    · exact refl_sound h
    · exact link_sound h (Bool.eq_false_iff.mpr hqueued) hcpu req.args

end

theorem advance_sound (hrange : call.InRange maxCpus) (look : Look) :
    Sound maxCpus m l (advance maxCpus m look call).1.1 (advance maxCpus m look call).2 := by
  have hstay : Sound maxCpus m l m .silent := refl_sound h
  cases call with
  | idle => exact hstay
  | insert req spins =>
    simp only [advance, insertLook]
    split
    · exact bugcheck_sound h
    · split
      · split
        · exact hstay
        · exact hstay
      · split
        · exact hstay
        · exact hstay
  | insertOn req spins cpu seen => exact insertLocked_sound h hrange
  | remove k =>
    simp only [advance]
    split
    · exact hstay
    · exact hstay
  | removeOn k cpu => exact removeLocked_sound h rfl
  | drain cpu dispatched flush =>
    simp only [advance]
    split
    · exact hstay
    · split
      · exact drainLocked_sound h rfl
      · exact hstay
  | running cpu dispatched flush run => exact still_sound h rfl rfl rfl rfl rfl rfl rfl
  | worker cpu =>
    simp only [advance]
    split
    · exact hstay
    · split
      · exact hstay
      · exact hstay
  | workerOn cpu budget =>
    cases budget with
    | zero => exact hstay
    | succ budget => exact workerLocked_sound h rfl
  | workerRunning cpu budget run => exact still_sound h rfl rfl rfl rfl rfl rfl rfl
  | barrier since spin cpu =>
    simp only [advance]
    split
    · exact hstay
    · split
      · exact hstay
      · exact hstay
  | barrierCount since spin busy =>
    simp only [advance]
    split
    · exact hstay
    · split
      · exact bugcheck_sound h
      · exact hstay
  | flushed since => exact hstay

omit [Fintype K] in
theorem setField_sound {d : Kdpc R V}
    (hqueued : d.queued = (m.dpc k).queued) (hcpu : d.queuedCpu = (m.dpc k).queuedCpu)
    (hargs : d.systemArgs = (m.dpc k).systemArgs) (hstamp : d.stamp = (m.dpc k).stamp) :
    Sound maxCpus m l { m with dpc := update m.dpc k d } .silent :=
  quiet_sound h
    ⟨rfl, rfl, rfl, rfl, update_field Kdpc.queued m.dpc k hqueued,
      update_field Kdpc.queuedCpu m.dpc k hcpu⟩
    ⟨update_field Kdpc.queued m.dpc k hqueued, update_field Kdpc.systemArgs m.dpc k hargs,
      update_field Kdpc.stamp m.dpc k hstamp, rfl⟩ rfl

theorem thread_sound (hrange : call.InRange maxCpus)
    (hout : thread maxCpus m call choice = some out) : Sound maxCpus m l out.1.1 out.2 := by
  unfold thread at hout
  split at hout
  · cases hout
  · cases choice with
    | go look =>
      cases hout
      exact advance_sound h hrange look
    | flush here legal =>
      simp only at hout
      split at hout
      · cases hout
      · split at hout
        · cases hout
          exact bugcheck_sound h
        · split at hout
          · cases hout
            exact refl_sound h
          · cases hout
            exact refl_sound h
    | setTargetProcessor k cpu =>
      obtain ⟨-, hout⟩ := ite_none_right_eq_some.mp hout
      cases hout
      exact setField_sound h rfl rfl rfl rfl
    | setImportance k importance =>
      obtain ⟨-, hout⟩ := ite_none_right_eq_some.mp hout
      cases hout
      exact setField_sound h rfl rfl rfl rfl
    | _ =>
      obtain ⟨-, hout⟩ := ite_none_right_eq_some.mp hout
      cases hout
      exact refl_sound h

end

/-! ### Routines in flight -/

def Call.runsOn (cpu : ℕ) : Call K R V → ℕ
  | .running cpu' _ _ _ => if cpu' = cpu then 1 else 0
  | _ => 0

def Call.runsRoutine : Call K R V → Bool
  | .running _ _ _ _ => true
  | .workerRunning _ _ _ => true
  | _ => false

def Call.runsThreaded : Call K R V → ℕ
  | .workerRunning _ _ _ => 1
  | _ => 0

/-- The counters follow the thread that moves. -/
structure Counts (m : Mem K R V) (call : Call K R V) (out : Outcome K R V) : Prop where
  inFlight : ∀ cpu, call.runsOn cpu ≤ m.inFlight cpu →
    out.1.1.inFlight cpu + call.runsOn cpu = m.inFlight cpu + out.1.2.runsOn cpu
  threaded : call.runsThreaded ≤ m.inFlightThreaded →
    out.1.1.inFlightThreaded + call.runsThreaded = m.inFlightThreaded + out.1.2.runsThreaded

section

omit [DecidableEq K] [Fintype K]

theorem counts_of_quiet (hflight : out.1.1.inFlight = m.inFlight)
    (hthreaded : out.1.1.inFlightThreaded = m.inFlightThreaded)
    (hcall : ∀ cpu, call.runsOn cpu = 0) (hcall' : call.runsThreaded = 0)
    (hnew : ∀ cpu, out.1.2.runsOn cpu = 0) (hnew' : out.1.2.runsThreaded = 0) :
    Counts m call out := by
  refine ⟨fun c _ => ?_, fun _ => ?_⟩
  · rw [hflight, hcall, hnew]
  · rw [hthreaded, hcall', hnew']

theorem afterDrain_runs (flush : Option ℕ) :
    (∀ cpu, (afterDrain flush : Call K R V).runsOn cpu = 0) ∧
      (afterDrain flush : Call K R V).runsThreaded = 0 := by
  cases flush with
  | none => exact ⟨fun _ => rfl, rfl⟩
  | some since => exact ⟨fun _ => rfl, rfl⟩

theorem afterDrain_counts (flush : Option ℕ) (hcall : ∀ cpu, call.runsOn cpu = 0)
    (hcall' : call.runsThreaded = 0) : Counts m call (quietly m (afterDrain flush)) :=
  counts_of_quiet rfl rfl hcall hcall' (afterDrain_runs flush).1 (afterDrain_runs flush).2

end

omit [Fintype K] in
theorem drainLocked_counts (hcall : ∀ c, call.runsOn c = 0) (hcall' : call.runsThreaded = 0) :
    Counts m call (drainLocked maxCpus m cpu dispatched flush) := by
  unfold drainLocked
  split
  · exact afterDrain_counts flush hcall hcall'
  · simp only
    split
    · exact counts_of_quiet rfl rfl hcall hcall' (fun _ => rfl) rfl
    · refine ⟨fun c _ => ?_, fun _ => by rw [hcall']; rfl⟩
      rw [hcall]
      show update m.inFlight cpu (m.inFlight cpu + 1) c + 0 =
        m.inFlight c + if cpu = c then 1 else 0
      by_cases hc : cpu = c
      · rw [← hc, update_self, if_pos rfl]
      · rw [update_of_ne (Ne.symm hc), if_neg hc]

omit [Fintype K] in
theorem workerLocked_counts (hcall : ∀ c, call.runsOn c = 0) (hcall' : call.runsThreaded = 0) :
    Counts m call (workerLocked maxCpus m cpu budget) := by
  unfold workerLocked
  split
  · exact counts_of_quiet rfl rfl hcall hcall' (fun _ => rfl) rfl
  · refine ⟨fun c _ => by rw [hcall]; rfl, fun _ => ?_⟩
    rw [hcall']
    rfl

theorem removeLocked_counts (hcall : ∀ c, call.runsOn c = 0) (hcall' : call.runsThreaded = 0) :
    Counts m call (removeLocked maxCpus m k cpu) := by
  unfold removeLocked
  split
  · exact counts_of_quiet rfl rfl hcall hcall' (fun _ => rfl) rfl
  · split
    · exact counts_of_quiet rfl rfl hcall hcall' (fun _ => rfl) rfl
    · split
      · exact counts_of_quiet rfl rfl hcall hcall' (fun _ => rfl) rfl
      · exact counts_of_quiet rfl rfl hcall hcall' (fun _ => rfl) rfl

theorem advance_counts (look : Look) : Counts m call (advance maxCpus m look call) := by
  have hquiet : ∀ {call' : Call K R V} {b : Bool}, (∀ c, call.runsOn c = 0) →
      call.runsThreaded = 0 → (∀ c, call'.runsOn c = 0) → call'.runsThreaded = 0 →
        Counts m call (quietly { m with bugcheck := b } call') :=
    fun hcall hcall' hnew hnew' => counts_of_quiet rfl rfl hcall hcall' hnew hnew'
  cases call with
  | idle => exact hquiet (fun _ => rfl) rfl (fun _ => rfl) rfl
  | insert req spins =>
    simp only [advance, insertLook]
    split
    · exact hquiet (fun _ => rfl) rfl (fun _ => rfl) rfl
    · split
      · split
        · exact hquiet (fun _ => rfl) rfl (fun _ => rfl) rfl
        · exact hquiet (fun _ => rfl) rfl (fun _ => rfl) rfl
      · split
        · exact hquiet (fun _ => rfl) rfl (fun _ => rfl) rfl
        · exact hquiet (fun _ => rfl) rfl (fun _ => rfl) rfl
  | insertOn req spins cpu seen =>
    simp only [advance, insertLocked]
    split
    · split
      · exact counts_of_quiet rfl rfl (fun _ => rfl) rfl (fun _ => rfl) rfl
      · exact hquiet (fun _ => rfl) rfl (fun _ => rfl) rfl
    · split
      · exact hquiet (fun _ => rfl) rfl (fun _ => rfl) rfl
      · exact counts_of_quiet rfl rfl (fun _ => rfl) rfl (fun _ => rfl) rfl
  | remove k =>
    simp only [advance]
    split
    · exact hquiet (fun _ => rfl) rfl (fun _ => rfl) rfl
    · exact hquiet (fun _ => rfl) rfl (fun _ => rfl) rfl
  | removeOn k cpu => exact removeLocked_counts (fun _ => rfl) rfl
  | drain cpu dispatched flush =>
    simp only [advance]
    split
    · exact afterDrain_counts flush (fun _ => rfl) rfl
    · split
      · exact drainLocked_counts (fun _ => rfl) rfl
      · exact afterDrain_counts flush (fun _ => rfl) rfl
  | running cpu dispatched flush run =>
    refine ⟨fun c hc => ?_, fun _ => rfl⟩
    have hold : (Call.running cpu dispatched flush run).runsOn c = if cpu = c then 1 else 0 := rfl
    show update m.inFlight cpu (m.inFlight cpu - 1) c + _ = m.inFlight c + 0
    rw [hold] at hc ⊢
    by_cases hcc : cpu = c
    · subst hcc
      rw [if_pos rfl] at hc ⊢
      rw [update_self]
      omega
    · rw [update_of_ne (Ne.symm hcc), if_neg hcc]
  | worker cpu =>
    simp only [advance]
    split
    · exact hquiet (fun _ => rfl) rfl (fun _ => rfl) rfl
    · split
      · exact hquiet (fun _ => rfl) rfl (fun _ => rfl) rfl
      · exact hquiet (fun _ => rfl) rfl (fun _ => rfl) rfl
  | workerOn cpu budget =>
    cases budget with
    | zero => exact hquiet (fun _ => rfl) rfl (fun _ => rfl) rfl
    | succ budget => exact workerLocked_counts (fun _ => rfl) rfl
  | workerRunning cpu budget run =>
    refine ⟨fun c _ => rfl, fun hone => ?_⟩
    have hone' : 1 ≤ m.inFlightThreaded := hone
    show m.inFlightThreaded - 1 + 1 = m.inFlightThreaded + 0
    omega
  | barrier since spin cpu =>
    simp only [advance]
    split
    · exact hquiet (fun _ => rfl) rfl (fun _ => rfl) rfl
    · split
      · exact hquiet (fun _ => rfl) rfl (fun _ => rfl) rfl
      · exact hquiet (fun _ => rfl) rfl (fun _ => rfl) rfl
  | barrierCount since spin busy =>
    simp only [advance]
    split
    · exact hquiet (fun _ => rfl) rfl (fun _ => rfl) rfl
    · split
      · exact hquiet (fun _ => rfl) rfl (fun _ => rfl) rfl
      · exact hquiet (fun _ => rfl) rfl (fun _ => rfl) rfl
  | flushed since => exact hquiet (fun _ => rfl) rfl (fun _ => rfl) rfl

omit [DecidableEq K] [Fintype K] in
theorem free_runs (h : call.free = true) : (∀ c, call.runsOn c = 0) ∧ call.runsThreaded = 0 := by
  cases call with
  | idle => exact ⟨fun _ => rfl, rfl⟩
  | flushed since => exact ⟨fun _ => rfl, rfl⟩
  | _ => cases h

theorem thread_counts (hout : thread maxCpus m call choice = some out) : Counts m call out := by
  unfold thread at hout
  split at hout
  · cases hout
  · cases choice with
    | go look =>
      cases hout
      exact advance_counts look
    | drain cpu =>
      obtain ⟨hfree, hout⟩ := ite_none_right_eq_some.mp hout
      cases hout
      rw [and_eq_true] at hfree
      obtain ⟨hcall, hcall'⟩ := free_runs hfree.1
      exact counts_of_quiet rfl rfl hcall hcall' (fun _ => rfl) rfl
    | flush here legal =>
      simp only at hout
      split at hout
      · cases hout
      · rename_i hfree
        rw [not_eq_true, not_eq_false'] at hfree
        obtain ⟨hcall, hcall'⟩ := free_runs hfree
        split at hout
        · cases hout
          exact counts_of_quiet rfl rfl hcall hcall' (fun _ => rfl) rfl
        · split at hout
          · cases hout
            exact counts_of_quiet rfl rfl hcall hcall' (fun _ => rfl) rfl
          · cases hout
            exact counts_of_quiet rfl rfl hcall hcall' (fun _ => rfl) rfl
    | setTargetProcessor k cpu =>
      obtain ⟨hfree, hout⟩ := ite_none_right_eq_some.mp hout
      cases hout
      rw [and_eq_true] at hfree
      obtain ⟨hcall, hcall'⟩ := free_runs hfree.1
      exact counts_of_quiet rfl rfl hcall hcall' hcall hcall'
    | setImportance k importance =>
      obtain ⟨hfree, hout⟩ := ite_none_right_eq_some.mp hout
      cases hout
      obtain ⟨hcall, hcall'⟩ := free_runs hfree
      exact counts_of_quiet rfl rfl hcall hcall' hcall hcall'
    | _ =>
      obtain ⟨hfree, hout⟩ := ite_none_right_eq_some.mp hout
      cases hout
      obtain ⟨hcall, hcall'⟩ := free_runs hfree
      exact counts_of_quiet rfl rfl hcall hcall' (fun _ => rfl) rfl

/-! ### Runs -/

variable {Tid : Type} [DecidableEq Tid] [Fintype Tid]

/-- Threads over the queues. -/
abbrev Machine (Tid K R V : Type) := Interleave.Config Tid (Mem K R V) (Call K R V)

def step (maxCpus : ℕ) : Machine Tid K R V → Tid × Choice K V →
    Option (Machine Tid K R V × (Tid × Event K V)) :=
  Interleave.step (thread maxCpus)

/-- What holds of the whole machine after the events `es`. -/
structure Sane (maxCpus : ℕ) (c : Machine Tid K R V) (l : Lists K) (es : List (Event K V)) :
    Prop where
  inv : Inv maxCpus c.shared l
  history : History c.shared l es
  ok : ∀ t, (c.threads t).Ok maxCpus c.shared
  inFlight : ∀ cpu, c.shared.inFlight cpu = ∑ t, (c.threads t).runsOn cpu
  threaded : c.shared.inFlightThreaded = ∑ t, (c.threads t).runsThreaded

theorem step_sane {c c' : Machine Tid K R V} {es : List (Event K V)} {i : Tid × Choice K V}
    {e : Tid × Event K V} (h : Sane maxCpus c l es) (hstep : step maxCpus c i = some (c', e)) :
    ∃ l', Sane maxCpus c' l' (es ++ [e.2]) := by
  obtain ⟨m', call', ev, hthread, rfl, rfl⟩ := Interleave.step_eq_some.mp hstep
  obtain ⟨l', hinv, hhistory⟩ := thread_sound h.inv (h.ok i.1).inRange hthread
  obtain ⟨hsettles, hok⟩ := thread_moves (h.ok i.1) hthread
  obtain ⟨hflight, hthreaded⟩ := thread_counts hthread
  refine ⟨l', hinv, hhistory es h.history, fun t => ?_, fun cpu => ?_, ?_⟩
  · exact Interleave.forall_update h.ok hok (fun _ hk => hk.stable hsettles) t
  · have hle : (c.threads i.1).runsOn cpu ≤ c.shared.inFlight cpu := by
      rw [h.inFlight]
      exact single_le_sum (f := fun t => (c.threads t).runsOn cpu)
        (fun _ _ => Nat.zero_le _) (mem_univ i.1)
    have hsum := Interleave.sum_update (Call.runsOn cpu) c.threads i.1 call'
    have hmove := hflight cpu hle
    rw [← h.inFlight] at hsum
    simp only at hmove ⊢
    omega
  · have hle : (c.threads i.1).runsThreaded ≤ c.shared.inFlightThreaded := by
      rw [h.threaded]
      exact single_le_sum (f := fun t => (c.threads t).runsThreaded)
        (fun _ _ => Nat.zero_le _) (mem_univ i.1)
    have hsum := Interleave.sum_update Call.runsThreaded c.threads i.1 call'
    have hmove := hthreaded hle
    rw [← h.threaded] at hsum
    simp only at hmove ⊢
    omega

/-- Every thread is idle, and nothing was ever queued. -/
def start (maxCpus : ℕ) (routine : K → R) (ctx : K → V) (threaded : K → Bool) (null : V) :
    Machine Tid K R V :=
  ⟨initial maxCpus routine ctx threaded null, fun _ => .idle⟩

omit [DecidableEq Tid] [Fintype K] in
theorem start_sane (routine : K → R) (ctx : K → V) (threaded : K → Bool) (null : V) :
    Sane maxCpus (start maxCpus routine ctx threaded null : Machine Tid K R V) (fun _ => [])
      [] where
  inv := initial_inv maxCpus routine ctx threaded null
  history := initial_history maxCpus routine ctx threaded null
  ok _ := ⟨trivial, nofun, trivial⟩
  inFlight _ := by
    symm
    exact sum_eq_zero fun _ _ => rfl
  threaded := by
    symm
    exact sum_eq_zero fun _ _ => rfl

theorem run_sane {c c' : Machine Tid K R V} {is : List (Tid × Choice K V)}
    {es : List (Tid × Event K V)} {pre : List (Event K V)} (h : Sane maxCpus c l pre)
    (hrun : Refine.run (step maxCpus) c is = some (c', es)) :
    ∃ l', Sane maxCpus c' l' (pre ++ es.map Prod.snd) := by
  induction is generalizing c l pre es with
  | nil =>
    obtain ⟨rfl, rfl⟩ : c = c' ∧ [] = es := by simpa [Refine.run] using hrun
    exact ⟨l, by simpa using h⟩
  | cons i is ih =>
    simp only [Refine.run, bind_eq_some_iff, map_eq_some_iff,
      Prod.mk.injEq] at hrun
    obtain ⟨⟨c₁, e⟩, hstep, ⟨c₂, es'⟩, hrest, rfl, rfl⟩ := hrun
    obtain ⟨l₁, h₁⟩ := step_sane h hstep
    obtain ⟨l₂, h₂⟩ := ih h₁ hrest
    exact ⟨l₂, by simpa using h₂⟩

omit [DecidableEq Tid] [Fintype K] in
theorem Sane.quiet {c : Machine Tid K R V} {es : List (Event K V)} (h : Sane maxCpus c l es)
    (hquiet : Quiet maxCpus c.shared) :
    (∀ p, l p = []) ∧ ∀ t, (c.threads t).runsRoutine = false := by
  refine ⟨fun p => ?_, fun t => ?_⟩
  · by_contra hne
    obtain ⟨k, hk⟩ := List.exists_mem_of_ne_nil _ hne
    obtain ⟨hp, hcpu⟩ := h.inv.cpu hk
    have hlinked := (h.inv.family.holds p).linked
    obtain ⟨hq, hw, -⟩ := sampledIdle_iff.mp (hquiet.idle _ hcpu)
    cases p with
    | inl cpu =>
      obtain rfl : cpu = _ := hp
      simp only [Sum.elim_inl, hq] at hlinked
      exact hne (Chain.linked_none hlinked)
    | inr cpu =>
      obtain rfl : cpu = _ := hp
      simp only [Sum.elim_inr, hw] at hlinked
      exact hne (Chain.linked_none hlinked)
  · have hrange := (h.ok t).inRange
    cases hcall : c.threads t with
    | running cpu dispatched flush run =>
      rw [hcall] at hrange
      have hsum := h.inFlight cpu
      rw [(sampledIdle_iff.mp (hquiet.idle cpu hrange)).2.2] at hsum
      have hone := sum_eq_zero_iff.mp hsum.symm t (mem_univ t)
      rw [hcall, Call.runsOn, if_pos rfl] at hone
      cases hone
    | workerRunning cpu budget run =>
      have hsum := h.threaded
      rw [hquiet.threaded] at hsum
      have hone := sum_eq_zero_iff.mp hsum.symm t (mem_univ t)
      rw [hcall, Call.runsThreaded] at hone
      cases hone
    | _ => rfl

/-- In every run, the queues are as they should be, what was done answers to the inserts, and a
flush that has returned while no insert linked a `KDPC` leaves nothing queued or running. -/
theorem dpc_run {routine : K → R} {ctx : K → V} {threaded : K → Bool} {null : V}
    {is : List (Tid × Choice K V)} {c : Machine Tid K R V} {es : List (Tid × Event K V)}
    (hrun : Refine.run (step maxCpus) (start maxCpus routine ctx threaded null) is = some (c, es)) :
    ∃ l, Inv maxCpus c.shared l ∧ (∀ p, (l p).Nodup) ∧ History c.shared l (es.map Prod.snd) ∧
      ∀ t since, c.threads t = .flushed since → c.shared.clock = since →
        (∀ p, l p = []) ∧ ∀ u, (c.threads u).runsRoutine = false := by
  obtain ⟨l, h⟩ := run_sane (start_sane routine ctx threaded null) hrun
  refine ⟨l, h.inv, fun p => Chain.linked_nodup (h.inv.family.holds p).linked,
    by simpa using h.history, fun t since ht hclock => ?_⟩
  have hseen := (h.ok t).seen
  rw [ht] at hseen
  exact h.quiet (hseen hclock)

def sampleLook : Look := ⟨0, false, 0, true, true⟩

local instance neZeroThree : NeZero 3 := ⟨Nat.succ_ne_zero 2⟩

def goOn (t : Fin 3) : Fin 3 × Choice Bool ℕ := (t, .go sampleLook)

/-- Thread 0 inserts a `KDPC` on CPU 1 and a threaded one on its own, and flushes. Its drain hands
the threaded one to the worker, thread 1. The first round of the barrier finds CPU 1 busy, and in
the second its drain, thread 2, and the worker are done. -/
def sampleRun : List (Fin 3 × Choice Bool ℕ) :=
  [(0, .insert ⟨false, (7, 8), some 1⟩), goOn 0, goOn 0, (0, .insert ⟨true, (1, 2), none⟩), goOn 0,
    goOn 0, (1, .worker), (0, .flush 0 true), goOn 0, goOn 0, goOn 1, goOn 1, goOn 0, goOn 0,
    goOn 0, (2, .drain 1), goOn 2, goOn 2, goOn 2, goOn 1, goOn 0, goOn 0, goOn 0, goOn 0]

def sampleStart : Machine (Fin 3) Bool Unit ℕ :=
  start 2 (fun _ => ()) (fun _ => 0) (fun k => k) 0

theorem dpc_run_flush : ∃ (c : Machine (Fin 3) Bool Unit ℕ) (es : _),
    Refine.run (step 2) sampleStart sampleRun = some (c, es) ∧ c.threads 0 = .flushed 2 ∧
      c.shared.clock = 2 ∧
      ∃ l, Inv 2 c.shared l ∧ (∀ p, (l p).Nodup) ∧ History c.shared l (es.map Prod.snd) ∧
        ∀ t since, c.threads t = .flushed since → c.shared.clock = since →
          (∀ p, l p = []) ∧ ∀ u, (c.threads u).runsRoutine = false := by
  have hend : (Refine.run (step 2) sampleStart sampleRun).map
      (fun p => (p.1.threads 0, p.1.shared.clock)) =
        some ((.flushed 2 : Call Bool Unit ℕ), 2) := rfl
  obtain ⟨⟨c, es⟩, hrun, hc⟩ := map_eq_some_iff.mp hend
  exact ⟨c, es, hrun, congrArg Prod.fst hc, congrArg Prod.snd hc, dpc_run hrun⟩

end ImpossibleOs.Ke.Dpc
