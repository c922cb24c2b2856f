import ImpossibleOs.Ipc.Alpc

/-!
The records of the requests that wait for a reply.

A record belongs to the thread that made the request. Others reach it through the queue of the
port of that thread only, and whoever takes it from there completes it.
-/

namespace ImpossibleOs.Ipc.Alpc

open List Option

open Function (update)

variable {P : Type} [DecidableEq P]
variable {links : Links P} {m m' : Mem P} {call call' : Call P} {es : List (Event P)} {ev : Event P}

/-! ### What the events say -/

def Event.enqueues (r : ℕ) : Event P → Bool
  | .accepted _ _ (some asked) => asked.record = r
  | _ => false

/-- The records that are completed because of a disconnect. -/
def Event.drained : Event P → List ℕ
  | .cut _ rs => rs
  | .closed _ _ _ rs => rs
  | _ => []

def Event.removes (r : ℕ) : Event P → Bool
  | .replied _ _ r' _ _ => r' = r
  | .timedOut _ r' => r' = r
  | .cut _ rs => r ∈ rs
  | .closed _ _ _ rs => r ∈ rs
  | _ => false

/-- The step neither moves nor completes a record. -/
def Event.Plain (e : Event P) : Prop :=
  ∀ r, e.enqueues r = false ∧ e.removes r = false

/-- A reply to the request with the record `r` was made on the peer of its port, after the request
had been accepted. `body` is what it says, as far as there is room. -/
def Replied (links : Links P) (es : List (Event P)) (p : P) (r id cap : ℕ) (body : List UInt8) :
    Prop :=
  ∃ pre q full post, es = pre ++ Event.replied q p r id full :: post ∧ links.peer q = some p ∧
    body = full.take cap ∧
      ∃ peer entry, Event.accepted peer entry (some ⟨p, r, cap⟩) ∈ pre ∧ entry.messageId = id

def Completed (links : Links P) (es : List (Event P)) (p : P) (r : ℕ) (rec : Record) : Prop :=
  (rec.replyStatus = .success ∧
      Replied links es p r rec.messageId rec.replyBodyCap rec.replyBody) ∨
    (rec.replyStatus = .portDisconnected ∧ ∃ e ∈ es, r ∈ e.drained)

omit [DecidableEq P] in
theorem Replied.grow {p : P} {r id cap : ℕ} {body : List UInt8}
    (h : Replied links es p r id cap body) (ev : Event P) :
    Replied links (es ++ [ev]) p r id cap body := by
  obtain ⟨pre, q, full, post, rfl, hrest⟩ := h
  exact ⟨pre, q, full, post ++ [ev], by simp, hrest⟩

omit [DecidableEq P] in
theorem Completed.grow {p : P} {r : ℕ} {rec : Record} (h : Completed links es p r rec)
    (ev : Event P) : Completed links (es ++ [ev]) p r rec := by
  rcases h with ⟨hs, hr⟩ | ⟨hs, e, he, hr⟩
  · exact .inl ⟨hs, hr.grow ev⟩
  · exact .inr ⟨hs, e, mem_append_left _ he, hr⟩

/-- The queues hold records that wait, each one in one queue, and a disconnected port has none. -/
structure Mem.Ok (links : Links P) (m : Mem P) : Prop where
  fresh : ∀ r, m.nextRecord ≤ r → m.record r = none
  pending : ∀ {p r}, r ∈ (m.port p).pendingQueue →
    ∃ rec, m.record r = some rec ∧ rec.completed = false
  apart : ∀ {p q r}, r ∈ (m.port p).pendingQueue → r ∈ (m.port q).pendingQueue → p = q
  nodup : ∀ p, (m.port p).pendingQueue.Nodup
  drained : ∀ p, (m.port p).disconnected = true → (m.port p).pendingQueue = []
  link : ∀ {p q}, (m.port p).connectedPort = some q → links.peer p = some q
  cut : ∀ {p q}, links.peer p = some q → (m.port p).connectedPort = none →
    (m.port p).disconnected = true
  fault : m.fault = false

def Mem.Off (m : Mem P) (r : ℕ) : Prop := ∀ p, r ∉ (m.port p).pendingQueue

/-- A record went into a queue at most once, and came out at most once. -/
structure Told (m : Mem P) (es : List (Event P)) : Prop where
  on : ∀ {p r}, r ∈ (m.port p).pendingQueue →
    es.countP (Event.enqueues r) = es.countP (Event.removes r) + 1
  off : ∀ {r}, m.Off r → es.countP (Event.enqueues r) = es.countP (Event.removes r)
  once : ∀ r, es.countP (Event.enqueues r) ≤ 1
  unborn : ∀ r, m.nextRecord ≤ r → es.countP (Event.enqueues r) = 0

/-! ### The calls -/

def Release.record? : Release P → Option ℕ
  | .record r => some r
  | _ => none

/-- The records a call has to free. -/
def Call.held : Call P → List ℕ
  | .reserve _ _ r => r.toList
  | .charge _ _ r => r.toList
  | .allocate _ _ r _ => r.toList
  | .stamp _ _ r _ => r.toList
  | .enqueue _ _ r _ => r.toList
  | .wait _ r _ => [r]
  | .unwind todo _ => todo.filterMap Release.record?
  | _ => []

def Send.recordCharge (s : Send P) : ℕ := s.replyCap.elim 0 recordSize

/-- The record of a request that nobody has seen yet; a datagram has none. -/
def Private (m : Mem P) (es : List (Event P)) (s : Send P) : Option ℕ → Prop
  | none => s.replyCap = none
  | some r => ∃ rec, m.record r = some rec ∧ rec.completed = false ∧
      rec.chargedSize = s.recordCharge ∧ s.replyCap = some rec.replyBodyCap ∧ m.Off r ∧
        es.countP (Event.enqueues r) = 0

structure Waits (links : Links P) (m : Mem P) (es : List (Event P)) (s : Send P) (r id : ℕ)
    (rec : Record) : Prop where
  record : m.record r = some rec
  messageId : rec.messageId = id
  chargedSize : rec.chargedSize = s.recordCharge
  replyCap : s.replyCap = some rec.replyBodyCap
  asked : ∃ peer entry, Event.accepted peer entry (some ⟨s.port, r, rec.replyBodyCap⟩) ∈ es ∧
    entry.messageId = id
  pending : rec.completed = false → r ∈ (m.port s.port).pendingQueue
  completed : rec.completed = true → Completed links es s.port r rec

/-- What a request that succeeded returns. -/
def Result.Ok (links : Links P) (es : List (Event P)) : Result → Prop
  | .replied r id body => ∃ p cap, Replied links es p r id cap body
  | _ => True

/-- What a thread knows where it stands. -/
def Call.Ok (links : Links P) (m : Mem P) (es : List (Event P)) : Call P → Prop
  | .checkPeer s peer => links.peer s.port = some peer
  | .reserveRecord s peer cap => links.peer s.port = some peer ∧ s.replyCap = some cap
  | .makeRecord s peer cap => links.peer s.port = some peer ∧ s.replyCap = some cap
  | .reserve s peer r => links.peer s.port = some peer ∧ Private m es s r
  | .charge s peer r => links.peer s.port = some peer ∧ Private m es s r
  | .allocate s peer r _ => links.peer s.port = some peer ∧ Private m es s r
  | .stamp s peer r _ => links.peer s.port = some peer ∧ Private m es s r
  | .enqueue s peer r entry => links.peer s.port = some peer ∧ Private m es s r ∧
      ∀ r' ∈ r, (m.record r').map Record.messageId = some entry.messageId
  | .wait s r id => ∃ rec, Waits links m es s r id rec
  | .replyOn p peer _ _ => links.peer p = some peer
  | .closing p peer => links.peer p = some peer ∧ (m.port p).disconnected = true
  | .unwind todo result => (todo.filterMap Release.record?).Nodup ∧
      (∀ r ∈ todo.filterMap Release.record?, m.record r ≠ none ∧ m.Off r) ∧ result.Ok links es
  | _ => True

omit [DecidableEq P] in
theorem Call.Ok.held_some (h : call.Ok links m es) {r : ℕ} (hr : r ∈ call.held) :
    m.record r ≠ none := by
  have hprivate : ∀ {s : Send P} {o : Option ℕ}, Private m es s o → r ∈ o.toList →
      m.record r ≠ none := by
    intro s o hp ho
    obtain rfl := Option.mem_toList.mp ho
    obtain ⟨rec, hrec, -⟩ := hp
    rw [hrec]
    exact some_ne_none rec
  cases call with
  | reserve s peer o => exact hprivate h.2 hr
  | charge s peer o => exact hprivate h.2 hr
  | allocate s peer o token => exact hprivate h.2 hr
  | stamp s peer o token => exact hprivate h.2 hr
  | enqueue s peer o entry => exact hprivate h.2.1 hr
  | wait s r' id =>
    obtain ⟨rec, hw⟩ := h
    obtain rfl : r = r' := mem_singleton.mp hr
    rw [hw.record]
    exact some_ne_none rec
  | unwind todo result => exact (h.2.1 r hr).1
  | _ => cases hr

/-! ### Steps of other threads -/

/-- How a step completes a record that was in the queue of `p`. -/
def Completes (links : Links P) (ev : Event P) (p : P) (r : ℕ) (rec : Record) : Prop :=
  (rec.replyStatus = .success ∧ ∃ q full, ev = .replied q p r rec.messageId full ∧
      links.peer q = some p ∧ rec.replyBody = full.take rec.replyBodyCap) ∨
    (rec.replyStatus = .portDisconnected ∧ r ∈ ev.drained)

/-- What becomes of a record in a step of a thread that does not own it: nothing, or it is taken
from its queue and completed. -/
inductive Follows (links : Links P) (m m' : Mem P) (ev : Event P) (r : ℕ) : Prop where
  | same (record : m'.record r = m.record r)
      (pending : ∀ p, r ∈ (m'.port p).pendingQueue ↔ r ∈ (m.port p).pendingQueue)
      (event : ev.enqueues r = false)
  | done (p : P) (rec rec' : Record) (pending : r ∈ (m.port p).pendingQueue)
      (old : m.record r = some rec) (record : m'.record r = some rec')
      (completed : rec'.completed = true)
      (same : rec'.messageId = rec.messageId ∧ rec'.chargedSize = rec.chargedSize ∧
        rec'.replyBodyCap = rec.replyBodyCap)
      (completes : Completes links ev p r rec') (off : m'.Off r)

section

omit [DecidableEq P]

theorem countP_snoc (p : Event P → Bool) (es : List (Event P)) (ev : Event P) :
    (es ++ [ev]).countP p = es.countP p + (p ev).toNat := by
  rw [countP_append, countP_singleton]
  cases p ev <;> rfl

theorem Private.stable {s : Send P} {o : Option ℕ} (h : Private m es s o)
    (hf : ∀ r ∈ o.toList, Follows links m m' ev r) : Private m' (es ++ [ev]) s o := by
  cases o with
  | none => exact h
  | some r =>
    obtain ⟨rec, hrec, hcompleted, hcharge, hcap, hoff, hcount⟩ := h
    rcases hf r (by simp) with ⟨hsame, hpending, hevent⟩ | ⟨p, -, -, hpending, -⟩
    · refine ⟨rec, hsame.trans hrec, hcompleted, hcharge, hcap, fun p hp => ?_, ?_⟩
      · exact hoff p ((hpending p).mp hp)
      · rw [countP_snoc, hcount, hevent]
        rfl
    · exact absurd hpending (hoff p)

theorem Waits.stable {s : Send P} {r id : ℕ} {rec : Record} (hm : m.Ok links)
    (h : Waits links m es s r id rec) (hf : Follows links m m' ev r) :
    ∃ rec', Waits links m' (es ++ [ev]) s r id rec' := by
  obtain ⟨peer, entry, hasked, hid⟩ := h.asked
  have hasked' : Event.accepted peer entry (some ⟨s.port, r, rec.replyBodyCap⟩) ∈ es ++ [ev] :=
    mem_append_left _ hasked
  rcases hf with ⟨hsame, hpending, hevent⟩ |
    ⟨p, rec₁, rec', hpending, hold, hrecord, hcompleted, hfields, hcompletes, hoff⟩
  · refine ⟨rec, hsame.trans h.record, h.messageId, h.chargedSize, h.replyCap,
      ⟨peer, entry, hasked', hid⟩, fun hc => ?_, fun hc => (h.completed hc).grow ev⟩
    exact (hpending _).mpr (h.pending hc)
  · obtain rfl : rec₁ = rec := some.inj (hold.symm.trans h.record)
    obtain ⟨hid', hcharge, hcap⟩ := hfields
    obtain ⟨rec₂, hrec₂, hwaiting⟩ := hm.pending hpending
    obtain rfl : rec₂ = rec₁ := some.inj (hrec₂.symm.trans hold)
    obtain rfl : p = s.port := hm.apart hpending (h.pending hwaiting)
    refine ⟨rec', hrecord, hid'.trans h.messageId, hcharge.trans h.chargedSize, ?_,
      ⟨peer, entry, ?_, hid⟩, fun hc => ?_, fun _ => ?_⟩
    · rw [hcap]
      exact h.replyCap
    · rw [hcap]
      exact hasked'
    · rw [hcompleted] at hc
      cases hc
    · rcases hcompletes with ⟨hs, q, full, rfl, hq, hbody⟩ | ⟨hs, hdrained⟩
      · refine .inl ⟨hs, es, q, full, [], rfl, hq, hbody, peer, entry, ?_, ?_⟩
        · rw [hcap]
          exact hasked
        · rw [hid', hid, h.messageId]
      · exact .inr ⟨hs, ev, by simp, hdrained⟩

theorem Call.Ok.stable (hm : m.Ok links) (h : call.Ok links m es)
    (hf : ∀ r ∈ call.held, Follows links m m' ev r)
    (hd : ∀ p, (m.port p).disconnected = true → (m'.port p).disconnected = true) :
    call.Ok links m' (es ++ [ev]) := by
  cases call with
  | reserve s peer o => exact ⟨h.1, h.2.stable hf⟩
  | charge s peer o => exact ⟨h.1, h.2.stable hf⟩
  | allocate s peer o token => exact ⟨h.1, h.2.stable hf⟩
  | stamp s peer o token => exact ⟨h.1, h.2.stable hf⟩
  | enqueue s peer o entry =>
    refine ⟨h.1, h.2.1.stable hf, fun r hr => ?_⟩
    have hid := h.2.2 r hr
    rcases hf r (Option.mem_toList.mpr hr) with ⟨hsame, -, -⟩ | ⟨p, -, -, hpending, -⟩
    · rwa [hsame]
    · obtain rfl := hr
      obtain ⟨-, -, -, -, -, hoff, -⟩ := h.2.1
      exact absurd hpending (hoff p)
  | wait s r id =>
    obtain ⟨rec, hw⟩ := h
    exact hw.stable hm (hf r (mem_singleton_self r))
  | closing p peer => exact ⟨h.1, hd p h.2⟩
  | unwind todo result =>
    refine ⟨h.1, fun r hr => ?_, ?_⟩
    · obtain ⟨hrec, hoff⟩ := h.2.1 r hr
      rcases hf r hr with ⟨hsame, hpending, -⟩ | ⟨p, -, -, hpending, -⟩
      · exact ⟨hsame ▸ hrec, fun p hp => hoff p ((hpending p).mp hp)⟩
      · exact absurd hpending (hoff p)
    · cases result with
      | replied r id body =>
        obtain ⟨p, cap, hr⟩ := h.2.2
        exact ⟨p, cap, hr.grow ev⟩
      | status st => trivial
      | received body => trivial
  | checkPeer s peer => exact h
  | reserveRecord s peer cap => exact h
  | makeRecord s peer cap => exact h
  | replyOn p peer id body => exact h
  | _ => trivial

end

end ImpossibleOs.Ipc.Alpc
