import ImpossibleOs.Ipc.AlpcPool

/-!
What the two ends of an ALPC connection can rely on: messages arrive in order, a request is
answered once, and a disconnect is final when the call that took the link has returned.
-/

namespace ImpossibleOs.Ipc.Alpc

open List

open Function (update)

variable {P : Type} [DecidableEq P] [Fintype P] {Tid : Type} [DecidableEq Tid] [Fintype Tid]
variable {links : Links P} {m m' : Mem P} {call call' : Call P} {es : List (Event P)} {ev : Event P}
variable {c c' : Machine Tid P} {log log' : List (Option Tid × Event P)} {t : Tid} {p q : P}

section

omit [DecidableEq P] [Fintype P]

theorem removes_of_drained {r : ℕ} (h : r ∈ ev.drained) : ev.removes r = true := by
  cases ev with
  | cut p rs => exact decide_eq_true h
  | closed p q marker rs => exact decide_eq_true h
  | _ => cases h

theorem Told.removes_le (h : Told m es) (r : ℕ) : es.countP (Event.removes r) ≤ 1 := by
  have honce := h.once r
  by_cases hoff : m.Off r
  · rwa [← h.off hoff]
  · unfold Mem.Off at hoff
    push Not at hoff
    obtain ⟨p, hp⟩ := hoff
    have := h.on hp
    omega

theorem Told.removes_unique (h : Told m es) {r : ℕ} {e e' : Event P} (he : e ∈ es) (he' : e' ∈ es)
    (hr : e.removes r = true) (hr' : e'.removes r = true) : e' = e := by
  obtain ⟨pre, post, rfl⟩ := append_of_mem he
  have hle := h.removes_le r
  rw [countP_append, countP_cons_of_pos hr] at hle
  have hnone : ∀ l : List (Event P), l.countP (Event.removes r) = 0 → e' ∉ l := fun l hl hin =>
    absurd hr' (countP_eq_zero.mp hl e' hin)
  rcases mem_append.mp he' with hin | hin
  · exact absurd hin (hnone pre (by omega))
  · rcases mem_cons.mp hin with heq | hin
    · exact heq
    · exact absurd hin (hnone post (by omega))

theorem Answered.of_drained (ht : Told m es) {a : Asked P} {id : ℕ} {result : Result}
    (h : Answered links es a id result) {e : Event P} (he : e ∈ es) (hr : a.record ∈ e.drained) :
    result = .status .portDisconnected := by
  have hremoves := removes_of_drained hr
  match result with
  | .replied r id' body =>
    obtain ⟨rfl, rfl, pre, q, full, post, rfl, -⟩ := h
    have heq := ht.removes_unique he (mem_append_right _ mem_cons_self) hremoves
      (decide_eq_true rfl)
    rw [← heq] at hr
    cases hr
  | .status .timeout =>
    have heq := ht.removes_unique he h hremoves (decide_eq_true rfl)
    rw [← heq] at hr
    cases hr
  | .status .portDisconnected => rfl

end

section

omit [Fintype P]

theorem disconnectPort_self (m : Mem P) (p : P) (port : Port P) :
    ((m.disconnectPort p port).port p).disconnected = true := by
  rw [Mem.disconnectPort, setPort_self]

theorem disconnectPort_keeps (m : Mem P) (p : P) (port : Port P)
    (hq : (m.port q).disconnected = true) :
    ((m.disconnectPort p port).port q).disconnected = true := by
  by_cases hqp : q = p
  · rw [hqp]
    exact disconnectPort_self m p port
  · rw [Mem.disconnectPort, setPort_other _ _ hqp]
    exact hq

theorem thread_closed (hbuilt : call.Built) (h : call.Ok links m es) {choice : Choice P}
    {marker : Option Entry} {rs : List ℕ}
    (hthread : thread m call choice = some ((m', call'), .closed p q marker rs)) :
    links.peer p = some q ∧ (m.port p).disconnected = true ∧ (m'.port q).disconnected = true := by
  have hcall : call = .closing p q := by
    cases thread_turned hbuilt hthread with
    | move hcall hmove =>
      cases hmove with
      | still hs _ _ => exact hs.elim
      | shut _ _ _ _ _ => rfl
    | woke s r id todo result hout hev => exact hev.elim
    | released x todo result hout hev => exact hev.elim
    | returned result hev => cases hev
  subst hcall
  refine ⟨h.1, h.2, ?_⟩
  cases choice with
  | begin req => cases hthread
  | go o =>
    have hout : goClosing m p q o = ((m', call'), .closed p q marker rs) :=
      Option.some.inj hthread
    have hm' : (goClosing m p q o).1.1 = m' := by rw [hout]
    rw [← hm']
    exact disconnectPort_self m q _

end

/-- After the second section of `AlpcDisconnectPort` nothing is accepted. -/
def Final (log : List (Option Tid × Event P)) : Prop :=
  ∀ pre u p q marker rs post, log = pre ++ (u, Event.closed p q marker rs) :: post →
    ∀ e ∈ post, ¬ e.2.Admits p ∧ ¬ e.2.Admits q

omit [DecidableEq P] [Fintype P] [DecidableEq Tid] [Fintype Tid] in
theorem Final.snoc (h : Final log) {e : Option Tid × Event P}
    (he : ∀ u p q marker rs, (u, .closed p q marker rs) ∈ log →
      ¬ e.2.Admits p ∧ ¬ e.2.Admits q) : Final (log ++ [e]) := by
  intro pre u p q marker rs post heq
  rcases eq_nil_or_concat post with rfl | ⟨post', x, rfl⟩
  · exact nofun
  · rw [concat_eq_append, ← cons_append, ← append_assoc] at heq
    obtain ⟨hlog, hlast⟩ := append_inj' heq rfl
    obtain rfl := singleton_inj.mp hlast
    intro e' hin
    rw [concat_eq_append] at hin
    rcases mem_append.mp hin with hold | hnew
    · exact h pre u p q marker rs post' hlog e' hold
    · obtain rfl := mem_singleton.mp hnew
      refine he u p q marker rs ?_
      rw [hlog]
      exact mem_append_right _ mem_cons_self

/-! ### Runs -/

/-- A call returns what it knows of its request; when its port was disconnected meanwhile, that. -/
def Tells (links : Links P) (t : Tid) (pre : List (Option Tid × Event P)) (result : Result) :
    Prop :=
  Answers links (events pre) (asking t pre) result ∧
    ∀ a id, asking t pre = some (a, id) → (∃ e ∈ events pre, a.record ∈ e.drained) →
      result = .status .portDisconnected

structure Spoken (links : Links P) (c : Machine Tid P) (log : List (Option Tid × Event P)) :
    Prop where
  booked : Booked links c log
  tells : Returns (Tells links) log
  severed : ∀ u p q marker rs, (u, .closed p q marker rs) ∈ log → links.peer p = some q ∧
    (c.shared.port p).disconnected = true ∧ (c.shared.port q).disconnected = true
  final : Final log

theorem Spoken.turn (h : Spoken links c log) (t : Tid) {choice : Choice P}
    (hthread : thread c.shared (c.threads t) choice = some ((m', call'), ev))
    (hbooked : Booked links ⟨m', update c.threads t call'⟩ (log ++ [(some t, ev)])) :
    Spoken links ⟨m', update c.threads t call'⟩ (log ++ [(some t, ev)]) := by
  have hsane := h.booked.sane
  have hdisc : ∀ p, (c.shared.port p).disconnected = true → (m'.port p).disconnected = true :=
    (thread_turn hsane.mem hsane.told (hsane.ok t) hthread).disconnected
  have he := thread_effect (hsane.ok t) (h.booked.ledger.bytes_le t) hthread
  refine ⟨hbooked, h.tells.snoc fun u result heq => ?_, fun u p q marker rs hin => ?_,
    h.final.snoc fun u p q marker rs hin => ?_⟩
  · obtain ⟨hu, rfl⟩ := Prod.mk.inj heq
    obtain rfl : t = u := Option.some.inj hu
    obtain ⟨hcall, -⟩ := thread_returned (hsane.built t) hthread
    have hasks := hsane.asks t
    rw [hcall] at hasks
    have hanswers : Answers links (events log) (asking t log) result := hasks
    refine ⟨hanswers, ?_⟩
    rintro a id ha ⟨e, hein, hr⟩
    rw [ha] at hanswers
    exact Answered.of_drained hsane.told hanswers hein hr
  · rcases mem_append.mp hin with hold | hnew
    · obtain ⟨hpeer, hp, hq⟩ := h.severed u p q marker rs hold
      exact ⟨hpeer, hdisc p hp, hdisc q hq⟩
    · obtain ⟨-, rfl⟩ := Prod.mk.inj (mem_singleton.mp hnew)
      obtain ⟨hpeer, hp, hq⟩ := thread_closed (hsane.built t) (hsane.ok t) hthread
      exact ⟨hpeer, hdisc p hp, hq⟩
  · obtain ⟨-, hp, hq⟩ := h.severed u p q marker rs hin
    refine ⟨fun hadmits => ?_, fun hadmits => ?_⟩
    · rw [he.admits p hadmits] at hp
      cases hp
    · rw [he.admits q hadmits] at hq
      cases hq

theorem Spoken.exec (h : Spoken links c log) {step : Step Tid P} {e : Option Tid × Event P}
    (hexec : Alpc.exec c step = some (c', e)) : Spoken links c' (log ++ [e]) := by
  have hbooked := h.booked.exec hexec
  rcases exec_cases hexec with ⟨t, choice, m', call', ev, hthread, rfl, rfl⟩ |
    ⟨p, -, -, rfl, rfl⟩
  · exact h.turn t hthread hbooked
  · have hdisc : ∀ q, (c.shared.port q).disconnected = true →
        ((c.shared.onDelete p).port q).disconnected = true :=
      fun q hq => disconnectPort_keeps c.shared p _ hq
    refine ⟨hbooked, h.tells.snoc (fun _ _ heq => nomatch heq), fun u q q' marker rs hin => ?_,
      h.final.snoc fun u q q' marker rs hin => ⟨fun h => h.elim, fun h => h.elim⟩⟩
    rcases mem_append.mp hin with hold | hnew
    · obtain ⟨hpeer, hq, hq'⟩ := h.severed u q q' marker rs hold
      exact ⟨hpeer, hdisc q hq, hdisc q' hq'⟩
    · cases mem_singleton.mp hnew

theorem initial_spoken (links : Links P) : Spoken links (links.initial : Machine Tid P) [] where
  booked := initial_booked links
  tells := by
    intro pre t result post h
    simp at h
  severed := nofun
  final := by
    intro pre u p q marker rs post h
    simp at h

theorem run_spoken {steps : List (Step Tid P)}
    (hrun : Refine.run exec links.initial steps = some (c, log)) : Spoken links c log :=
  Refine.run_invariant (Spoken links) (fun _ _ _ _ _ h _ hexec => h.exec hexec)
    (initial_spoken links) (Refine.along_true exec links.initial steps) hrun

/-- What holds of messages, requests and disconnects in every run. -/
structure Messaging (links : Links P) (c : Machine Tid P) (log : List (Option Tid × Event P)) :
    Prop where
  /-- the messages that were accepted are those that were delivered and those in the queue -/
  order : ∀ p, (c.shared.port p).deleted = false →
    accepted p log = delivered p log ++ (c.shared.port p).messageQueue
  /-- a queue of requests has those of its port that nobody has completed -/
  pending : ∀ p r, r ∈ (c.shared.port p).pendingQueue ↔ ∃ t s id rec,
    c.threads t = .wait s r id ∧ s.port = p ∧ c.shared.record r = some rec ∧ rec.completed = false
  single : ∀ p, (c.shared.port p).pendingQueue.Nodup ∧ ∀ q r,
    r ∈ (c.shared.port p).pendingQueue → r ∈ (c.shared.port q).pendingQueue → p = q
  /-- a record goes into a queue once, and is taken from there once -/
  once : ∀ r, (events log).countP (Event.enqueues r) ≤ 1 ∧
    (∀ p, r ∈ (c.shared.port p).pendingQueue →
      (events log).countP (Event.enqueues r) = (events log).countP (Event.removes r) + 1) ∧
        (c.shared.Off r →
          (events log).countP (Event.enqueues r) = (events log).countP (Event.removes r))
  /-- no record was touched after it had been freed -/
  fault : c.shared.fault = false
  tells : Returns (Tells links) log
  final : Final log
  /-- whoever still waits on a port that was disconnected has been completed -/
  closed : ∀ u p q marker rs, (u, .closed p q marker rs) ∈ log → links.peer p = some q ∧
    ((c.shared.port p).pendingQueue = [] ∧ (c.shared.port q).pendingQueue = []) ∧
      ∀ t s r id, c.threads t = .wait s r id → s.port = p ∨ s.port = q → ∃ rec,
        c.shared.record r = some rec ∧ rec.completed = true ∧
          Completed links (events log) s.port r rec

theorem Spoken.waits (h : Spoken links c log) {s : Send P} {r id : ℕ}
    (hcall : c.threads t = .wait s r id) : ∃ rec, Waits links c.shared (events log) s r id rec := by
  have hok := h.booked.sane.ok t
  rw [hcall] at hok
  exact hok

theorem alpcMessaging_run {steps : List (Step Tid P)}
    (hrun : Refine.run exec links.initial steps = some (c, log)) : Messaging links c log := by
  have h := run_spoken hrun
  have hsane := h.booked.sane
  refine ⟨h.booked.ledger.mail, fun p r => ⟨hsane.waiting, ?_⟩,
    fun p => ⟨hsane.mem.nodup p, fun q r => hsane.mem.apart⟩,
    fun r => ⟨hsane.told.once r, fun p => hsane.told.on, hsane.told.off⟩, hsane.mem.fault,
    h.tells, h.final, fun u p q marker rs hin => ?_⟩
  · rintro ⟨t, s, id, rec, hcall, rfl, hrec, hwaiting⟩
    obtain ⟨rec', hw⟩ := h.waits hcall
    obtain rfl : rec' = rec := Option.some.inj (hw.record.symm.trans hrec)
    exact hw.pending hwaiting
  · obtain ⟨hpeer, hp, hq⟩ := h.severed u p q marker rs hin
    have hp' := hsane.mem.drained p hp
    have hq' := hsane.mem.drained q hq
    refine ⟨hpeer, ⟨hp', hq'⟩, fun t s r id hcall hport => ?_⟩
    obtain ⟨rec, hw⟩ := h.waits hcall
    have hcompleted : rec.completed = true := by
      by_contra hne
      have hmem := hw.pending (by simpa using hne)
      rcases hport with heq | heq
      · rw [heq, hp'] at hmem
        cases hmem
      · rw [heq, hq'] at hmem
        cases hmem
    exact ⟨rec, hw.record, hcompleted, hw.completed hcompleted⟩

/-- A request is made and replied to. -/
def requestSteps : List (Step Bool Bool) :=
  Step.turn true (.begin (.sync false [7] 64)) ::
    (List.replicate 9 (Step.turn true (.go plenty)) ++
      Step.turn false (.begin (.reply true 1 [8, 9])) ::
        (List.replicate 3 (Step.turn false (.go plenty)) ++
          List.replicate 4 (Step.turn true (.go plenty))))

theorem alpcMessaging_run_request :
    ∃ c log, Refine.run exec (pairLinks.initial : Machine Bool Bool) requestSteps =
        some (c, log) ∧ log.getLast?.map Prod.snd = some (.returned (.replied 0 1 [8, 9])) ∧
      Messaging pairLinks c log := by
  obtain ⟨c, log, hrun, hlast⟩ : ∃ c log,
      Refine.run exec (pairLinks.initial : Machine Bool Bool) requestSteps = some (c, log) ∧
        log.getLast?.map Prod.snd = some (.returned (.replied 0 1 [8, 9])) := ⟨_, _, rfl, rfl⟩
  exact ⟨c, log, hrun, hlast, alpcMessaging_run hrun⟩

/-- When a call of `AlpcDisconnectPort` has returned, nothing is accepted in either direction. -/
def QuietAfterReturn (links : Links P) (log : List (Option Tid × Event P)) : Prop :=
  ∀ pre mid post t p q rs, links.peer p = some q →
    log = pre ++ (some t, Event.cut p rs) ::
      (mid ++ (some t, Event.returned (.status .success)) :: post) →
      ∀ e ∈ post, ¬ e.2.Admits p ∧ ¬ e.2.Admits q

local instance neZeroThree : NeZero 3 := ⟨by decide⟩

/-- A datagram has passed its checks when one call takes the link and another, which finds none,
returns. -/
def lateSteps : List (Step (Fin 3) Bool) :=
  Step.turn 0 (.begin (.datagram false [7])) ::
    (List.replicate 6 (Step.turn 0 (.go plenty)) ++
      [Step.turn 1 (.begin (.disconnect false)), Step.turn 1 (.go plenty),
        Step.turn 2 (.begin (.disconnect false)), Step.turn 2 (.go plenty),
        Step.turn 2 (.go plenty), Step.turn 0 (.go plenty)])

/-- What happens until the second call has returned, and after that. -/
def lateLog : List (Option (Fin 3) × Event Bool) :=
  [(some 0, .silent), (some 0, .silent), (some 0, .silent), (some 0, .charged true 121),
    (some 0, .quotaCharged 0), (some 0, .silent), (some 0, .silent), (some 1, .silent),
    (some 1, .cut false []), (some 2, .silent), (some 2, .cut false []),
    (some 2, .returned (.status .success))]

def lateEvent : Option (Fin 3) × Event Bool :=
  (some 0, .accepted true ⟨1, .datagram, [7], 121, some 0⟩ none)

theorem disconnect_not_quiet :
    ∃ c log, Refine.run exec (pairLinks.initial : Machine (Fin 3) Bool) lateSteps =
      some (c, log) ∧ ¬ QuietAfterReturn pairLinks log := by
  refine ⟨_, lateLog ++ [lateEvent], rfl, fun h => ?_⟩
  have hquiet := h (lateLog.take 10) [] [lateEvent] 2 false true [] rfl rfl lateEvent
    (mem_singleton_self _)
  exact hquiet.2 (Or.inl rfl)

end ImpossibleOs.Ipc.Alpc
