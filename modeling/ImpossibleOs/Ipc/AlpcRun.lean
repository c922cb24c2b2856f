import ImpossibleOs.Ipc.AlpcSteps

/-!
Runs of the ALPC machine: the records of the requests, and how a request ends.
-/

namespace ImpossibleOs.Ipc.Alpc

open Function List Option Bool

open Function (update)

variable {P : Type} [DecidableEq P]
variable {links : Links P} {m m' : Mem P} {call call' : Call P} {es : List (Event P)} {ev : Event P}

/-! ### How a request ends -/

/-- The request that a thread waits for, with the id of its message, as an event leaves it. -/
def Event.asking (a : Option (Asked P × ℕ)) : Event P → Option (Asked P × ℕ)
  | .accepted _ entry (some asked) => some (asked, entry.messageId)
  | .returned _ => none
  | _ => a

/-- A request that was accepted got a reply, ran out of time, or lost its port. -/
def Answered (links : Links P) (es : List (Event P)) (a : Asked P) (id : ℕ) : Result → Prop
  | .replied r id' body => r = a.record ∧ id' = id ∧ Replied links es a.port r id a.cap body
  | .status .timeout => .timedOut a.port a.record ∈ es
  | .status .portDisconnected => ∃ e ∈ es, a.record ∈ e.drained
  | _ => False

def Result.NoReply : Result → Prop
  | .replied _ _ _ => False
  | _ => True

/-- The result of a call: it answers the request, if there is one. -/
def Answers (links : Links P) (es : List (Event P)) (a : Option (Asked P × ℕ)) (result : Result) :
    Prop :=
  match a with
  | none => result.NoReply
  | some (asked, id) => Answered links es asked id result

/-- Only a call that waits, or has waited, has a request. -/
def Call.Asks (links : Links P) (es : List (Event P)) (a : Option (Asked P × ℕ)) : Call P → Prop
  | .wait s r id => a = some (⟨s.port, r, s.replyCap.getD 0⟩, id)
  | .unwind _ result => Answers links es a result
  | _ => a = none

/-- The call has not got as far as its request. -/
def Call.Unasked : Call P → Prop
  | .wait _ _ _ => False
  | .unwind _ _ => False
  | _ => True

variable {a : Option (Asked P × ℕ)} {choice : Choice P} {result : Result}

section

omit [DecidableEq P]

theorem Answered.grow {a : Asked P} {id : ℕ} (h : Answered links es a id result) (ev : Event P) :
    Answered links (es ++ [ev]) a id result := by
  match result with
  | .replied r id' body =>
    obtain ⟨hr, hid, hreplied⟩ := h
    exact ⟨hr, hid, hreplied.grow ev⟩
  | .status .timeout => exact mem_append_left _ h
  | .status .portDisconnected =>
    obtain ⟨e, he, hr⟩ := h
    exact ⟨e, mem_append_left _ he, hr⟩

theorem Answers.grow
    (h : Answers links es a result) (ev : Event P) : Answers links (es ++ [ev]) a result := by
  match a with
  | none => exact h
  | some (asked, id) => exact Answered.grow h ev

theorem Call.Asks.grow (h : call.Asks links es a) (ev : Event P) :
    call.Asks links (es ++ [ev]) a := by
  cases call with
  | unwind todo result => exact Answers.grow h ev
  | _ => exact h

end

theorem goWait_answers {s : Send P} {r id : ℕ} (h : (Call.wait s r id).Ok links m es)
    (ha : (Call.wait s r id).Asks links es a) :
    (goWait m s r id).1.2.Asks links (es ++ [(goWait m s r id).2])
      ((goWait m s r id).2.asking a) := by
  obtain ⟨rec, hw⟩ := h
  obtain rfl : a = _ := ha
  have hcap : s.replyCap.getD 0 = rec.replyBodyCap := by
    rw [hw.replyCap]
    rfl
  unfold goWait
  simp only [hw.record]
  split
  · rename_i hcompleted
    rcases hw.completed hcompleted with ⟨hs, hreplied⟩ | ⟨hs, e, he, hdrained⟩
    · rw [if_pos hs]
      refine ⟨rfl, rfl, ?_⟩
      rw [hcap, ← hw.messageId]
      exact hreplied.grow .silent
    · rw [if_neg (by simp [hs]), hs]
      exact ⟨e, mem_append_left _ he, hdrained⟩
  · rename_i hcompleted
    have hmem : r ∈ (m.port s.port).pendingQueue := hw.pending (by simpa using hcompleted)
    rw [if_pos hmem]
    exact mem_append_right _ (mem_singleton_self _)

theorem goUnwind_answers (m : Mem P) {todo : List (Release P)} (ha : Answers links es a result) :
    (goUnwind m todo result).1.2.Asks links (es ++ [(goUnwind m todo result).2])
      ((goUnwind m todo result).2.asking a) := by
  match todo with
  | [] => exact rfl
  | .bytes p size :: todo => exact ha.grow _
  | .message token :: todo => exact ha.grow _
  | .record r :: todo => exact ha.grow _

/-! ### What a call does to messages -/

/-- No message is put into a queue or taken from it, and no call returns. -/
def Event.Still : Event P → Prop
  | .accepted _ _ _ => False
  | .delivered _ _ => False
  | .closed _ _ _ _ => False
  | .returned _ => False
  | _ => True

/-- The call does not wait, and did not get a reply. -/
def Call.Plain : Call P → Prop
  | .wait _ _ _ => False
  | .unwind _ result => result.NoReply
  | _ => True

/-- The message of a send; the marker of a disconnect is another one. -/
def Entry.Built (entry : Entry) : Prop :=
  entry.type ≠ .portClosed ∧ entry.chargedSize = sizeofEntry + entry.body.length

def Call.Built : Call P → Prop
  | .enqueue _ _ _ entry => entry.Built
  | _ => True

/-- The step of a call before its request, by what it does to messages. -/
inductive Move : Call P → Event P → Call P → Prop where
  | still {call call' : Call P} {ev : Event P} (h : ev.Still) (hcall : call'.Plain)
      (hbuilt : call'.Built) : Move call ev call'
  | put (s : Send P) (q : P) (entry : Entry) (h : entry.Built) :
      Move (.enqueue s q none entry) (.accepted q entry none) (.unwind [] (.status .success))
  | ask (s : Send P) (q : P) (r : ℕ) (entry : Entry) (h : entry.Built) :
      Move (.enqueue s q (some r) entry)
        (.accepted q entry (some ⟨s.port, r, s.replyCap.getD 0⟩)) (.wait s r entry.messageId)
  | get (p : P) (room : ℕ) (entry : Entry) (todo : List (Release P)) (body : List UInt8) :
      Move (.receive p room) (.delivered p entry) (.unwind todo (.received body))
  | shut (p q : P) (marker : Option Entry) (rs : List ℕ) (h : ∀ e ∈ marker, e = closedMarker) :
      Move (.closing p q) (.closed p q marker rs) (.unwind [] (.status .success))

omit [DecidableEq P] in
theorem Move.silent (hcall : call'.Plain) (hbuilt : call'.Built) : Move call .silent call' :=
  .still trivial hcall hbuilt

theorem closedMarker_of_mem (b : Bool) : ∀ e ∈ (if b then some closedMarker else none),
    e = closedMarker := by
  cases b with
  | true => exact fun e he => (some.inj he).symm
  | false => exact nofun

theorem advance_move (hcall : call.Unasked) (hbuilt : call.Built) (o : Oracle) :
    Move call (advance m o call).2 (advance m o call).1.2 := by
  cases call with
  | idle => exact .silent trivial trivial
  | send s =>
    simp only [advance, goSend]
    split
    · exact .silent trivial trivial
    · split <;> exact .silent trivial trivial
  | checkPeer s peer =>
    simp only [advance, goCheckPeer]
    split
    · exact .silent trivial trivial
    · split <;> exact .silent trivial trivial
  | reserveRecord s peer cap =>
    simp only [advance, goReserveRecord]
    split
    · exact .silent trivial trivial
    · split
      · exact .silent trivial trivial
      · exact .still trivial trivial trivial
  | makeRecord s peer cap =>
    simp only [advance, goMakeRecord]
    split <;> exact .silent trivial trivial
  | reserve s peer r =>
    simp only [advance, goReserve]
    split
    · exact .silent trivial trivial
    · split
      · exact .silent trivial trivial
      · exact .still trivial trivial trivial
  | charge s peer r =>
    simp only [advance, goCharge]
    split
    · exact .silent trivial trivial
    · exact .silent trivial trivial
    · exact .still trivial trivial trivial
  | allocate s peer r token =>
    simp only [advance, goAllocate]
    split <;> exact .silent trivial trivial
  | stamp s peer r token =>
    simp only [advance, goStamp]
    cases r with
    | none => exact .silent trivial ⟨nofun, rfl⟩
    | some r => exact .silent trivial ⟨nofun, rfl⟩
  | enqueue s peer r entry =>
    simp only [advance, goEnqueue]
    cases r with
    | none =>
      simp only
      split
      · exact .silent trivial trivial
      · exact .put s peer entry hbuilt
    | some r =>
      simp only
      split
      · exact .silent trivial trivial
      · exact .ask s peer r entry hbuilt
  | receive p room =>
    simp only [advance, goReceive]
    split
    · split
      · exact .silent trivial trivial
      · split <;> exact .silent trivial trivial
    · exact .get _ _ _ _ _
  | reply p id body =>
    simp only [advance, goReply]
    split <;> exact .silent trivial trivial
  | replyOn p peer id body =>
    simp only [advance, goReplyOn]
    split
    · exact .silent trivial trivial
    · split
      · exact .silent trivial trivial
      · exact .still trivial trivial trivial
  | disconnect p =>
    simp only [advance, goDisconnect]
    split <;> exact .still trivial trivial trivial
  | closing p peer => exact .shut _ _ _ _ (closedMarker_of_mem o.kmalloc)
  | wait s r id => exact hcall.elim
  | unwind todo result => exact hcall.elim

omit [DecidableEq P] in
theorem start_move (m : Mem P) (req : Request P) :
    Move .idle (start m req).2 (start m req).1.2 := by
  cases req with
  | datagram p body =>
    simp only [start]
    split <;> exact .silent trivial trivial
  | sync p body recvBufLen =>
    simp only [start]
    split
    · exact .silent trivial trivial
    · split <;> exact .silent trivial trivial
  | receive p recvBufLen =>
    simp only [start]
    split <;> exact .silent trivial trivial
  | reply p id body =>
    simp only [start]
    split <;> exact .silent trivial trivial
  | disconnect p => exact .silent trivial trivial

theorem goWait_still (m : Mem P) (s : Send P) (r id : ℕ) : (goWait m s r id).2.Still ∧
      ∃ todo result, (goWait m s r id).1.2 = .unwind todo result := by
  unfold goWait
  simp only
  split
  · exact ⟨trivial, _, _, rfl⟩
  · split
    · exact ⟨trivial, _, _, rfl⟩
    · split
      · exact ⟨trivial, _, _, rfl⟩
      · exact ⟨trivial, _, _, rfl⟩

theorem goUnwind_still (m : Mem P) (x : Release P) (todo : List (Release P)) (result : Result) :
    (goUnwind m (x :: todo) result).2.Still ∧
      (goUnwind m (x :: todo) result).1.2 = .unwind todo result := by
  cases x with
  | bytes p size => exact ⟨trivial, rfl⟩
  | message token => exact ⟨trivial, rfl⟩
  | record r => exact ⟨trivial, rfl⟩

/-- The step of a thread: before its request, while it waits, on its way out, at its end. -/
inductive Turned (m : Mem P) (out : Outcome P) : Call P → Prop where
  | move {call : Call P} (hcall : call.Unasked) (h : Move call out.2 out.1.2) :
      Turned m out call
  | woke (s : Send P) (r id : ℕ) (todo : List (Release P)) (result : Result)
      (hout : out = goWait m s r id) (hev : out.2.Still) (hcall : out.1.2 = .unwind todo result) :
      Turned m out (.wait s r id)
  | released (x : Release P) (todo : List (Release P)) (result : Result)
      (hout : out = goUnwind m (x :: todo) result) (hev : out.2.Still)
      (hcall : out.1.2 = .unwind todo result) : Turned m out (.unwind (x :: todo) result)
  | returned (result : Result) (hev : out.2 = .returned result) (hcall : out.1.2 = .idle) :
      Turned m out (.unwind [] result)

theorem thread_turned (hbuilt : call.Built) {out : Outcome P}
    (hthread : thread m call choice = some out) : Turned m out call := by
  cases choice with
  | begin req =>
    cases call with
    | idle =>
      rw [thread] at hthread
      split at hthread
      · cases hthread
      · obtain rfl := some.inj hthread
        exact .move trivial (start_move m req)
    | _ => cases hthread
  | go o =>
    obtain rfl := some.inj hthread
    have hmove : call.Unasked → Move call (advance m o call).2 (advance m o call).1.2 :=
      fun hcall => advance_move hcall hbuilt o
    cases call with
    | wait s r id =>
      obtain ⟨hev, todo, result, hcall⟩ := goWait_still m s r id
      exact .woke s r id todo result rfl hev hcall
    | unwind todo result =>
      cases todo with
      | nil => exact .returned result rfl rfl
      | cons x todo =>
        obtain ⟨hev, hcall⟩ := goUnwind_still m x todo result
        exact .released x todo result rfl hev hcall
    | _ => exact .move trivial (hmove trivial)

omit [DecidableEq P] in
theorem Move.asks (h : Move call ev call') : call'.Asks links es (ev.asking none) := by
  cases h with
  | still h hcall hbuilt =>
    have hnone : ev.asking none = none := by
      cases ev with
      | accepted q entry request => exact h.elim
      | _ => rfl
    rw [hnone]
    cases call' with
    | wait s r id => exact hcall.elim
    | unwind todo result => exact hcall
    | _ => exact rfl
  | put s q entry h => exact trivial
  | ask s q r entry h => exact rfl
  | get p room entry todo body => exact trivial
  | shut p q marker rs h => exact trivial

omit [DecidableEq P] in
theorem Move.built (h : Move call ev call') : call'.Built := by
  cases h with
  | still h hcall hbuilt => exact hbuilt
  | put s q entry h => exact trivial
  | ask s q r entry h => exact trivial
  | get p room entry todo body => exact trivial
  | shut p q marker rs h => exact trivial

theorem thread_asks (h : call.Ok links m es) (hbuilt : call.Built) (ha : call.Asks links es a)
    (hthread : thread m call choice = some ((m', call'), ev)) :
    call'.Asks links (es ++ [ev]) (ev.asking a) := by
  cases thread_turned hbuilt hthread with
  | move hcall hmove =>
    have hnone : a = none := by
      cases call with
      | wait s r id => exact hcall.elim
      | unwind todo result => exact hcall.elim
      | _ => exact ha
    rw [hnone]
    exact hmove.asks
  | woke s r id todo result hout =>
    have hwait := goWait_answers h ha
    rw [← hout] at hwait
    exact hwait
  | released x todo result hout =>
    have hunwind := @goUnwind_answers P _ links es a result m (x :: todo) ha
    rw [← hout] at hunwind
    exact hunwind
  | returned result hev hcall =>
    obtain rfl : ev = .returned result := hev
    obtain rfl : call' = .idle := hcall
    exact rfl

theorem thread_built (hbuilt : call.Built)
    (hthread : thread m call choice = some ((m', call'), ev)) : call'.Built := by
  cases thread_turned hbuilt hthread with
  | move hcall hmove => exact hmove.built
  | woke s r id todo result hout hev hcall =>
    obtain rfl : call' = .unwind todo result := hcall
    exact trivial
  | released x todo result hout hev hcall =>
    obtain rfl : call' = .unwind todo result := hcall
    exact trivial
  | returned result hev hcall =>
    obtain rfl : call' = .idle := hcall
    exact trivial

/-! ### All threads -/

variable {Tid : Type} [DecidableEq Tid] [Fintype Tid] [Fintype P]
variable {c c' : Machine Tid P} {log : List (Option Tid × Event P)} {t : Tid}

/-- What happened, whoever did it. -/
def events (log : List (Option Tid × Event P)) : List (Event P) := log.map Prod.snd

/-- The request that `t` waits for, as the log tells it. -/
def asking (t : Tid) (log : List (Option Tid × Event P)) : Option (Asked P × ℕ) :=
  log.foldl (fun a e => if e.1 = some t then e.2.asking a else a) none

omit [DecidableEq P] [DecidableEq Tid] [Fintype Tid] [Fintype P] in
@[simp] theorem events_snoc (log : List (Option Tid × Event P)) (u : Option Tid) (ev : Event P) :
    events (log ++ [(u, ev)]) = events log ++ [ev] := by
  simp [events]

omit [DecidableEq P] [Fintype Tid] [Fintype P] in
theorem asking_self (log : List (Option Tid × Event P)) (t : Tid) (ev : Event P) :
    asking t (log ++ [(some t, ev)]) = ev.asking (asking t log) := by
  simp [asking]

omit [DecidableEq P] [Fintype Tid] [Fintype P] in
theorem asking_other (log : List (Option Tid × Event P)) {u : Option Tid} (h : u ≠ some t)
    (ev : Event P) : asking t (log ++ [(u, ev)]) = asking t log := by
  simp [asking, h]

/-- Every record belongs to one thread, and every thread knows where it stands. -/
structure Sane (links : Links P) (c : Machine Tid P) (log : List (Option Tid × Event P)) :
    Prop where
  mem : c.shared.Ok links
  told : Told c.shared (events log)
  ok : ∀ t, (c.threads t).Ok links c.shared (events log)
  asks : ∀ t, (c.threads t).Asks links (events log) (asking t log)
  built : ∀ t, (c.threads t).Built
  apart : ∀ {t u r}, r ∈ (c.threads t).held → r ∈ (c.threads u).held → t = u
  owned : ∀ {r}, c.shared.record r ≠ none → ∃ t, r ∈ (c.threads t).held

section

variable (h : Sane links c log)
include h

omit [DecidableEq P] [Fintype Tid] [Fintype P] in
theorem Sane.waiting {p : P} {r : ℕ} (hr : r ∈ (c.shared.port p).pendingQueue) :
    ∃ t s id rec, c.threads t = .wait s r id ∧ s.port = p ∧ c.shared.record r = some rec ∧
      rec.completed = false := by
  obtain ⟨rec, hrec, hwaiting⟩ := h.mem.pending hr
  obtain ⟨t, ht⟩ := h.owned (hrec ▸ some_ne_none rec)
  have hok := h.ok t
  have hprivate : ∀ {s : Send P} {o : Option ℕ}, Private c.shared (events log) s o →
      r ∉ o.toList := by
    intro s o hp ho
    obtain rfl := mem_toList.mp ho
    obtain ⟨-, -, -, -, -, hoff, -⟩ := hp
    exact hoff p hr
  cases hcall : c.threads t with
  | wait s r' id =>
    rw [hcall] at ht hok
    obtain rfl := mem_singleton.mp ht
    obtain ⟨rec', hw⟩ := hok
    obtain rfl : rec' = rec := some.inj (hw.record.symm.trans hrec)
    exact ⟨t, s, id, rec', hcall, h.mem.apart (hw.pending hwaiting) hr, hrec, hwaiting⟩
  | unwind todo result =>
    rw [hcall] at ht hok
    exact absurd hr ((hok.2.1 r ht).2 p)
  | reserve s peer o =>
    rw [hcall] at ht hok
    exact absurd ht (hprivate hok.2)
  | charge s peer o =>
    rw [hcall] at ht hok
    exact absurd ht (hprivate hok.2)
  | allocate s peer o token =>
    rw [hcall] at ht hok
    exact absurd ht (hprivate hok.2)
  | stamp s peer o token =>
    rw [hcall] at ht hok
    exact absurd ht (hprivate hok.2)
  | enqueue s peer o entry =>
    rw [hcall] at ht hok
    exact absurd ht (hprivate hok.2.1)
  | _ =>
    rw [hcall] at ht
    cases ht

omit [Fintype Tid] [Fintype P] [DecidableEq P] in
theorem Sane.turn (t : Tid) (hturn : Turn links c.shared (events log) (c.threads t) m' call' ev)
    (hasks : call'.Asks links (events log ++ [ev]) (ev.asking (asking t log)))
    (hbuilt : call'.Built) : Sane links ⟨m', update c.threads t call'⟩ (log ++ [(some t, ev)]) := by
  have hself : update c.threads t call' t = call' := update_self ..
  have hother : ∀ {u}, u ≠ t → update c.threads t call' u = c.threads u :=
    fun hu => update_of_ne hu _ _
  have hfollows : ∀ u, u ≠ t → ∀ r ∈ (c.threads u).held, Follows links c.shared m' ev r :=
    fun u hu r hr => hturn.follows r ((h.ok u).held_some hr) fun ht => hu (h.apart hr ht)
  have hnew : ∀ {u r}, u ≠ t → r ∈ call'.held → r ∉ (c.threads u).held := by
    intro u r hu hr hru
    rcases hturn.held r hr with hold | hnone
    · exact hu (h.apart hru hold)
    · exact (h.ok u).held_some hru hnone
  refine ⟨hturn.mem, by simpa using hturn.told, fun u => ?_, fun u => ?_,
    Interleave.forall_update h.built hbuilt fun _ hk => hk, fun {u v r} hu hv => ?_,
    fun {r} hr => ?_⟩
  · rw [events_snoc]
    show (update c.threads t call' u).Ok links m' _
    by_cases hu : u = t
    · rw [hu, hself]
      exact hturn.ok
    · rw [hother hu]
      exact (h.ok u).stable h.mem (hfollows u hu) hturn.disconnected
  · rw [events_snoc]
    show (update c.threads t call' u).Asks links _ _
    by_cases hu : u = t
    · rw [hu, asking_self, hself]
      exact hasks
    · rw [asking_other log (by simpa using Ne.symm hu), hother hu]
      exact (h.asks u).grow ev
  · change r ∈ (update c.threads t call' u).held at hu
    change r ∈ (update c.threads t call' v).held at hv
    by_cases hut : u = t
    · by_cases hvt : v = t
      · rw [hut, hvt]
      · rw [hut, hself] at hu
        rw [hother hvt] at hv
        exact absurd hv (hnew hvt hu)
    · rw [hother hut] at hu
      by_cases hvt : v = t
      · rw [hvt, hself] at hv
        exact absurd hu (hnew hut hv)
      · rw [hother hvt] at hv
        exact h.apart hu hv
  · rcases hturn.owned r hr with hin | ⟨hold, hout⟩
    · refine ⟨t, ?_⟩
      show r ∈ (update c.threads t call' t).held
      rwa [hself]
    · obtain ⟨u, hu⟩ := h.owned hold
      have hut : u ≠ t := by
        rintro rfl
        exact hout hu
      refine ⟨u, ?_⟩
      show r ∈ (update c.threads t call' u).held
      rwa [hother hut]

theorem Sane.unreferenced {p : P} (hp : unreferenced c p = true) :
    (c.shared.port p).pendingQueue = [] := by
  rw [Alpc.unreferenced, decide_eq_true_eq] at hp
  refine eq_nil_iff_forall_not_mem.mpr fun r hr => ?_
  obtain ⟨t, s, id, rec, hcall, rfl, -⟩ := h.waiting hr
  apply hp.1 t
  rw [hcall]
  exact mem_singleton_self _

theorem Sane.delete {p : P} (hp : Alpc.unreferenced c p = true) (entries : List Entry) :
    Sane links ⟨c.shared.onDelete p, c.threads⟩ (log ++ [(none, Event.deleted p entries)]) := by
  have hnil : (c.shared.port p).pendingQueue = [] := h.unreferenced hp
  have hturn : Turn links c.shared (events log) .idle (c.shared.onDelete p) .idle
      (.deleted p entries) := by
    refine disconnect_turn h.mem h.told rfl nofun (fun _ => rfl) hnil.symm (fun r => ?_) rfl rfl
      trivial
    simp [hnil, Event.removes]
  refine ⟨hturn.mem, by simpa using hturn.told, fun t => ?_, fun t => ?_, h.built,
    h.apart, fun {r} hr => ?_⟩
  · rw [events_snoc]
    exact (h.ok t).stable h.mem
      (fun r hr => hturn.follows r ((h.ok t).held_some hr) not_mem_nil) hturn.disconnected
  · rw [events_snoc, asking_other log (some_ne_none t).symm]
    exact (h.asks t).grow _
  · rcases hturn.owned r hr with hin | ⟨hold, -⟩
    · cases hin
    · exact h.owned hold

omit h in
theorem exec_cases {step : Step Tid P} {e : Option Tid × Event P}
    (hexec : exec c step = some (c', e)) :
    (∃ t choice m' call' ev, thread c.shared (c.threads t) choice = some ((m', call'), ev) ∧
      c' = ⟨m', update c.threads t call'⟩ ∧ e = (some t, ev)) ∨
    (∃ p, (c.shared.port p).deleted = false ∧ unreferenced c p = true ∧
      c' = ⟨c.shared.onDelete p, c.threads⟩ ∧
        e = (none, .deleted p (c.shared.port p).messageQueue)) := by
  cases step with
  | turn t choice =>
    obtain ⟨⟨c₁, e₁⟩, hstep, heq⟩ := map_eq_some_iff.mp hexec
    obtain ⟨m', call', ev, hthread, rfl, rfl⟩ := Interleave.step_eq_some.mp hstep
    obtain ⟨rfl, rfl⟩ := Prod.mk.inj heq
    exact .inl ⟨t, choice, m', call', ev, hthread, rfl, rfl⟩
  | delete p =>
    rw [exec] at hexec
    split at hexec
    · rename_i hp
      rw [and_eq_true, not_eq_true'] at hp
      obtain ⟨rfl, rfl⟩ := Prod.mk.inj (some.inj hexec)
      exact .inr ⟨p, hp.1, hp.2, rfl, rfl⟩
    · cases hexec

theorem exec_sane {step : Step Tid P} {e : Option Tid × Event P}
    (hexec : exec c step = some (c', e)) : Sane links c' (log ++ [e]) := by
  rcases exec_cases hexec with ⟨t, choice, m', call', ev, hthread, rfl, rfl⟩ |
    ⟨p, -, hp, rfl, rfl⟩
  · exact h.turn t (thread_turn h.mem h.told (h.ok t) hthread)
      (thread_asks (h.ok t) (h.built t) (h.asks t) hthread) (thread_built (h.built t) hthread)
  · exact h.delete hp _

end

omit [DecidableEq P] [Fintype Tid] [Fintype P] in
theorem initial_sane (links : Links P) : Sane links (links.initial : Machine Tid P) [] where
  mem :=
    { fresh := fun _ _ => rfl
      pending := nofun
      apart := nofun
      nodup := fun _ => nodup_nil
      drained := fun _ _ => rfl
      link := fun h => h
      cut := fun h hnone => absurd (h.symm.trans hnone) (some_ne_none _)
      fault := rfl }
  told := ⟨nofun, fun _ => rfl, fun _ => Nat.zero_le _, fun _ _ => rfl⟩
  ok _ := trivial
  asks _ := rfl
  built _ := trivial
  apart := nofun
  owned h := absurd rfl h

end ImpossibleOs.Ipc.Alpc
