import ImpossibleOs.Ipc.AlpcSteps
import Mathlib.Tactic.Ring

/-!
What a step does to the queues of messages, to the pools and to the quota.

Bytes and quota that were taken are with a message in a queue or with a call; an event moves
them from one to the other.
-/

namespace ImpossibleOs.Ipc.Alpc

open Function List Option

open Function (update)

variable {P : Type} [DecidableEq P]
variable {links : Links P} {m m' : Mem P} {call call' : Call P} {es : List (Event P)} {ev : Event P}

/-! ### Entries of the ledger -/

/-- An amount that belongs to one port. -/
def part (p q : P) (size : ℕ) : ℕ := if q = p then size else 0

/-- What was put into the queue of `p`. -/
def Event.accepts (p : P) : Event P → List Entry
  | .accepted q entry _ => if q = p then [entry] else []
  | .closed _ q marker _ => if q = p then marker.toList else []
  | _ => []

def Event.delivers (p : P) : Event P → List Entry
  | .delivered q entry => if q = p then [entry] else []
  | _ => []

/-- A send by, or to, the port went through. -/
def Event.Admits (p : P) : Event P → Prop
  | .accepted q _ request => q = p ∨ ∃ asked ∈ request, asked.port = p
  | _ => False

def Event.charges (p : P) : Event P → ℕ
  | .charged q size => part p q size
  | _ => 0

def Event.uncharges (p : P) : Event P → ℕ
  | .uncharged q size => part p q size
  | _ => 0

/-- The quota that was charged. -/
def Event.granted : Event P → List ℕ
  | .quotaCharged token => [token]
  | _ => []

/-- The quota that was returned. -/
def Event.destroyed? : Event P → List ℕ
  | .destroyed token => token.toList
  | .deleted _ entries => entries.filterMap Entry.token
  | _ => []

def Release.bytesOf (p : P) : Release P → ℕ
  | .bytes q size => part p q size
  | _ => 0

def Release.token? : Release P → Option ℕ
  | .message token => token
  | _ => none

def releasedBytes (p : P) (todo : List (Release P)) : ℕ := (todo.map (Release.bytesOf p)).sum

/-- The bytes of the pool of `p` that a call has to give back. -/
def Call.bytes (p : P) : Call P → ℕ
  | .makeRecord s _ _ => part p s.port s.recordCharge
  | .reserve s _ _ => part p s.port s.recordCharge
  | .charge s peer _ => part p peer s.entrySize + part p s.port s.recordCharge
  | .allocate s peer _ _ => part p peer s.entrySize + part p s.port s.recordCharge
  | .stamp s peer _ _ => part p peer s.entrySize + part p s.port s.recordCharge
  | .enqueue s peer _ entry => part p peer entry.chargedSize + part p s.port s.recordCharge
  | .wait s _ _ => part p s.port s.recordCharge
  | .unwind todo _ => releasedBytes p todo
  | _ => 0

/-- The quota that a call has to return. -/
def Call.tokens : Call P → List ℕ
  | .allocate _ _ _ token => token.toList
  | .stamp _ _ _ token => token.toList
  | .enqueue _ _ _ entry => entry.token.toList
  | .unwind todo _ => todo.filterMap Release.token?
  | _ => []

def entryBytes (entries : List Entry) : ℕ := (entries.map Entry.chargedSize).sum

def entryTokens (entries : List Entry) : List ℕ := entries.filterMap Entry.token

/-! ### One step -/

/-- The queues, the pools and the quota around a step. -/
structure Effect [Fintype P] (m : Mem P) (call : Call P) (m' : Mem P) (call' : Call P)
    (ev : Event P) : Prop where
  mail : ∀ p, (m.port p).messageQueue ++ ev.accepts p = ev.delivers p ++ (m'.port p).messageQueue
  pool : ∀ p, (m'.port p).poolUsageBytes + ev.uncharges p =
    (m.port p).poolUsageBytes + ev.charges p
  cap : ∀ p, (m'.port p).maxPoolUsage = (m.port p).maxPoolUsage
  under : ∀ p, 0 < ev.charges p → 0 < (m.port p).maxPoolUsage →
    (m'.port p).poolUsageBytes ≤ (m.port p).maxPoolUsage
  bytes : ∀ p, call.bytes p + ev.charges p + entryBytes (ev.delivers p) =
    call'.bytes p + ev.uncharges p + entryBytes (ev.accepts p)
  tokens : ∀ k, call.tokens.count k + ev.granted.count k +
      ∑ p, (entryTokens (ev.delivers p)).count k =
    call'.tokens.count k + ev.destroyed?.count k + ∑ p, (entryTokens (ev.accepts p)).count k
  granted : ∀ k ∈ ev.granted, k = m.nextToken
  nextToken : m'.nextToken = m.nextToken + ev.granted.length
  deleted : ∀ p, (m'.port p).deleted = (m.port p).deleted
  admits : ∀ p, ev.Admits p → (m.port p).disconnected = false

abbrev Effects [Fintype P] (m : Mem P) (call : Call P) (out : Outcome P) : Prop :=
  Effect m call out.1.1 out.1.2 out.2

/-- Neither messages nor bytes nor quota moved. -/
structure Kept (m m' : Mem P) : Prop where
  mail : ∀ p, (m'.port p).messageQueue = (m.port p).messageQueue
  pool : ∀ p, (m'.port p).poolUsageBytes = (m.port p).poolUsageBytes
  cap : ∀ p, (m'.port p).maxPoolUsage = (m.port p).maxPoolUsage
  deleted : ∀ p, (m'.port p).deleted = (m.port p).deleted
  nextToken : m'.nextToken = m.nextToken

/-- An event that tells nothing about messages, bytes or quota. -/
structure Event.Mute (ev : Event P) : Prop where
  accepts : ∀ p, ev.accepts p = []
  delivers : ∀ p, ev.delivers p = []
  charges : ∀ p, ev.charges p = 0
  uncharges : ∀ p, ev.uncharges p = 0
  granted : ev.granted = []
  destroyed : ev.destroyed? = []
  admits : ∀ p, ¬ ev.Admits p

theorem mute_silent : (Event.silent : Event P).Mute :=
  ⟨fun _ => rfl, fun _ => rfl, fun _ => rfl, fun _ => rfl, rfl, rfl, fun _ h => h⟩

omit [DecidableEq P] in
theorem Kept.of_ports (h : m'.port = m.port) (hnext : m'.nextToken = m.nextToken) : Kept m m' :=
  ⟨fun p => by rw [h], fun p => by rw [h], fun p => by rw [h], fun p => by rw [h], hnext⟩

omit [DecidableEq P] in
theorem Kept.refl (m : Mem P) : Kept m m := Kept.of_ports rfl rfl

theorem Kept.of_update {p : P} {port : Port P} (h : m'.port = update m.port p port)
    (hmail : port.messageQueue = (m.port p).messageQueue)
    (hpool : port.poolUsageBytes = (m.port p).poolUsageBytes)
    (hcap : port.maxPoolUsage = (m.port p).maxPoolUsage)
    (hdeleted : port.deleted = (m.port p).deleted) (hnext : m'.nextToken = m.nextToken) :
    Kept m m' := by
  have hport : m'.port = (m.setPort p port).port := h
  refine ⟨fun q => ?_, fun q => ?_, fun q => ?_, fun q => ?_, hnext⟩
  · rw [hport]
    exact setPort_field Port.messageQueue m hmail q
  · rw [hport]
    exact setPort_field Port.poolUsageBytes m hpool q
  · rw [hport]
    exact setPort_field Port.maxPoolUsage m hcap q
  · rw [hport]
    exact setPort_field Port.deleted m hdeleted q

theorem Kept.effect [Fintype P] (hk : Kept m m') (hev : ev.Mute)
    (hbytes : ∀ p, call.bytes p = call'.bytes p) (htokens : call.tokens = call'.tokens) :
    Effect m call m' call' ev where
  mail p := by rw [hev.accepts, hev.delivers, hk.mail, append_nil, nil_append]
  pool p := by rw [hev.charges, hev.uncharges, hk.pool]
  cap := hk.cap
  under p h := by
    rw [hev.charges] at h
    exact absurd h (Nat.lt_irrefl 0)
  bytes p := by rw [hev.charges, hev.uncharges, hev.accepts, hev.delivers, hbytes]
  tokens k := by simp [hev.accepts, hev.delivers, hev.granted, hev.destroyed, htokens]
  granted k h := by
    rw [hev.granted] at h
    cases h
  nextToken := by
    rw [hev.granted, hk.nextToken]
    rfl
  deleted := hk.deleted
  admits p h := absurd h (hev.admits p)

variable {s : Send P} {peer : P} {r : Option ℕ} {entry : Entry}

theorem bytes_recordReleases (h : Private m es s r) (p : P) :
    releasedBytes p (m.recordReleases s.port r) = part p s.port s.recordCharge := by
  cases r with
  | none =>
    have hcap : s.replyCap = none := h
    simp [releasedBytes, Mem.recordReleases, Send.recordCharge, hcap, part]
  | some r =>
    obtain ⟨rec, hrec, -, hcharge, -⟩ := h
    simp [releasedBytes, Mem.recordReleases, Release.bytesOf, hrec, hcharge]

omit [DecidableEq P] in
theorem tokens_recordReleases (m : Mem P) (p : P) (r : Option ℕ) :
    (m.recordReleases p r).filterMap Release.token? = [] := by
  cases r with
  | none => rfl
  | some r => rfl

theorem releasedBytes_cons (p : P) (x : Release P) (todo : List (Release P)) :
    releasedBytes p (x :: todo) = x.bytesOf p + releasedBytes p todo := by
  simp [releasedBytes]

variable [Fintype P]

theorem give_effect (hbytes : ∀ p, call.bytes p = 0) (htokens : call.tokens = [])
    (status : Status) : Effect m call m (.unwind [] (.status status)) .silent :=
  (Kept.refl m).effect mute_silent hbytes htokens

/-! ### Sends -/

theorem reserve_effect {q : P} {size : ℕ} {port : Port P} (h : (m.port q).reserve size = some port)
    (hbytes : ∀ p, call'.bytes p = part p q size + call.bytes p)
    (htokens : call.tokens = call'.tokens) :
    Effect m call (m.setPort q port) call' (.charged q size) := by
  unfold Port.reserve at h
  split at h
  · cases h
  · rename_i hroom
    obtain rfl := some.inj h
    refine ⟨fun p => ?_, fun p => ?_, fun p => ?_, fun p hp hcap => ?_, fun p => ?_, fun k => ?_,
      nofun, rfl, fun p => ?_, fun _ h => h.elim⟩
    · exact (append_nil _).trans (setPort_field Port.messageQueue m (by rfl) p).symm
    · by_cases hq : p = q
      · rw [hq, setPort_self]
        simp [Event.charges, Event.uncharges, part]
      · rw [setPort_other m _ hq]
        simp [Event.charges, Event.uncharges, part, Ne.symm hq]
    · exact setPort_field Port.maxPoolUsage m (by rfl) p
    · by_cases hq : p = q
      · subst hq
        rw [setPort_self]
        simp only
        omega
      · simp [Event.charges, part, Ne.symm hq] at hp
    · rw [hbytes]
      simp only [Event.charges, Event.uncharges, Event.accepts, Event.delivers]
      omega
    · simp [htokens, Event.granted, Event.destroyed?, Event.accepts, Event.delivers]
    · exact setPort_field Port.deleted m (by rfl) p

theorem goSend_effect (m : Mem P) (s : Send P) : Effects m (.send s) (goSend m s) := by
  unfold goSend
  split
  · exact give_effect (fun _ => rfl) rfl _
  · split
    · exact give_effect (fun _ => rfl) rfl _
    · exact (Kept.refl m).effect mute_silent (fun _ => rfl) rfl

theorem goCheckPeer_effect :
    Effects m (.checkPeer s peer) (goCheckPeer m s peer) := by
  unfold goCheckPeer
  split
  · exact give_effect (fun _ => rfl) rfl _
  · split
    · rename_i hcap
      refine (Kept.refl m).effect mute_silent (fun p => ?_) rfl
      show 0 = part p s.port s.recordCharge
      simp [Send.recordCharge, hcap, part]
    · exact (Kept.refl m).effect mute_silent (fun _ => rfl) rfl

theorem goReserveRecord_effect {cap : ℕ} (h : (Call.reserveRecord s peer cap).Ok links m es) :
    Effects m (.reserveRecord s peer cap) (goReserveRecord m s peer cap) := by
  unfold goReserveRecord
  split
  · exact give_effect (fun _ => rfl) rfl _
  · split
    · exact give_effect (fun _ => rfl) rfl _
    · rename_i port hport
      refine reserve_effect hport (fun p => ?_) rfl
      simp [Call.bytes, Send.recordCharge, h.2]

theorem goMakeRecord_effect {cap : ℕ}
    (h : (Call.makeRecord s peer cap).Ok links m es) (o : Oracle) :
    Effects m (.makeRecord s peer cap) (goMakeRecord m s peer cap o) := by
  unfold goMakeRecord
  split
  · exact Kept.effect (Kept.of_ports rfl rfl) mute_silent (fun _ => rfl) rfl
  · refine (Kept.refl m).effect mute_silent (fun p => ?_) rfl
    show part p s.port s.recordCharge = part p s.port (recordSize cap) + 0
    simp [Send.recordCharge, h.2]

theorem goReserve_effect (h : (Call.reserve s peer r).Ok links m es) :
    Effects m (.reserve s peer r) (goReserve m s peer r) := by
  have hrefused : ∀ st, Effect m (.reserve s peer r) m
      (.unwind (m.recordReleases s.port r) (.status st)) .silent := fun st =>
    (Kept.refl m).effect mute_silent (fun p => (bytes_recordReleases h.2 p).symm)
      (tokens_recordReleases m s.port r).symm
  unfold goReserve
  split
  · exact hrefused _
  · split
    · exact hrefused _
    · rename_i port hport
      exact reserve_effect hport (fun _ => rfl) rfl

theorem goCharge_effect (h : (Call.charge s peer r).Ok links m es) (o : Oracle) :
    Effects m (.charge s peer r) (goCharge m s peer r o) := by
  unfold goCharge
  split
  · refine (Kept.refl m).effect mute_silent (fun p => ?_)
      (tokens_recordReleases m s.port r).symm
    show _ = releasedBytes p (_ :: _)
    rw [releasedBytes_cons, bytes_recordReleases h.2]
    rfl
  · exact (Kept.refl m).effect mute_silent (fun _ => rfl) rfl
  · refine ⟨fun p => (append_nil _), fun p => rfl, fun _ => rfl,
      fun _ h => absurd h (Nat.lt_irrefl 0), fun p => rfl, fun k => ?_, fun k hk => ?_, rfl,
      fun _ => rfl, fun _ h => h.elim⟩
    · simp [Call.tokens, Event.granted, Event.destroyed?, Event.accepts, Event.delivers]
    · exact mem_singleton.mp hk

theorem goAllocate_effect {r token : Option ℕ}
    (h : (Call.allocate s peer r token).Ok links m es) (o : Oracle) :
    Effects m (.allocate s peer r token) (goAllocate m s peer r token o) := by
  unfold goAllocate
  split
  · exact (Kept.refl m).effect mute_silent (fun _ => rfl) rfl
  · refine (Kept.refl m).effect mute_silent (fun p => ?_) ?_
    · show _ = releasedBytes p (_ :: _ :: _)
      rw [releasedBytes_cons, releasedBytes_cons, bytes_recordReleases h.2]
      exact (Nat.zero_add _).symm
    · show token.toList = (Release.message token :: _ :: _).filterMap Release.token?
      cases token with
      | none => exact (tokens_recordReleases m s.port r).symm
      | some k => exact congrArg (k :: ·) (tokens_recordReleases m s.port r).symm

theorem goStamp_effect (m : Mem P) (s : Send P) (peer : P) (r token : Option ℕ) :
    Effects m (.stamp s peer r token) (goStamp m s peer r token) := by
  have hk : Kept m (m.setPort s.port { m.port s.port with
      nextMessageId := ((m.port s.port).nextMessageId + 1) % 2 ^ 64 }) :=
    Kept.of_update rfl rfl rfl rfl rfl rfl
  unfold goStamp
  cases r with
  | none => exact hk.effect mute_silent (fun _ => rfl) rfl
  | some r =>
    simp only
    generalize m.setPort s.port { m.port s.port with
      nextMessageId := ((m.port s.port).nextMessageId + 1) % 2 ^ 64 } = m₁ at hk
    cases m.record r with
    | none =>
      exact Kept.effect ⟨hk.mail, hk.pool, hk.cap, hk.deleted, hk.nextToken⟩ mute_silent
        (fun _ => rfl) rfl
    | some rec =>
      exact Kept.effect ⟨hk.mail, hk.pool, hk.cap, hk.deleted, hk.nextToken⟩ mute_silent
        (fun _ => rfl) rfl

theorem accept_effect {q : P} {request : Option (Asked P)}
    (hmail : ∀ p, (m'.port p).messageQueue =
      (m.port p).messageQueue ++ if q = p then [entry] else [])
    (hpool : ∀ p, (m'.port p).poolUsageBytes = (m.port p).poolUsageBytes)
    (hcap : ∀ p, (m'.port p).maxPoolUsage = (m.port p).maxPoolUsage)
    (hdeleted : ∀ p, (m'.port p).deleted = (m.port p).deleted)
    (hnext : m'.nextToken = m.nextToken)
    (hbytes : ∀ p, call.bytes p = part p q entry.chargedSize + call'.bytes p)
    (htokens : call.tokens = entry.token.toList) (htokens' : call'.tokens = [])
    (hopen : ∀ p, (Event.accepted q entry request).Admits p → (m.port p).disconnected = false) :
    Effect m call m' call' (.accepted q entry request) where
  mail p := (hmail p).symm
  pool := hpool
  cap := hcap
  under _ h := absurd h (Nat.lt_irrefl 0)
  bytes p := by
    rw [hbytes]
    by_cases hq : q = p
    · simp [Event.charges, Event.uncharges, Event.accepts, Event.delivers, entryBytes, part, hq]
      omega
    · simp [Event.charges, Event.uncharges, Event.accepts, Event.delivers, entryBytes, part, hq]
  tokens k := by
    have hsum : ∑ p, (entryTokens (Event.accepts p (.accepted q entry request))).count k =
        entry.token.toList.count k := by
      rw [Finset.sum_eq_single q]
      · cases htoken : entry.token <;> simp [Event.accepts, entryTokens, htoken]
      · intro p _ hp
        simp [Event.accepts, entryTokens, Ne.symm hp]
      · exact fun h => absurd (Finset.mem_univ q) h
    rw [hsum, htokens, htokens']
    simp [Event.granted, Event.destroyed?, Event.delivers, entryTokens]
  granted := nofun
  nextToken := hnext
  deleted := hdeleted
  admits := hopen

theorem refuse_effect (h : (Call.enqueue s peer r entry).Ok links m es) :
    Effects m (.enqueue s peer r entry) (refuse m s peer r entry) := by
  refine (Kept.refl m).effect mute_silent (fun p => ?_) ?_
  · show _ = releasedBytes p (_ :: _ :: _)
    rw [releasedBytes_cons, releasedBytes_cons, bytes_recordReleases h.2.1]
    exact congrArg _ (Nat.zero_add _).symm
  · show entry.token.toList = (.bytes peer entry.chargedSize :: .message entry.token ::
      m.recordReleases s.port r : List (Release P)).filterMap Release.token?
    cases htoken : entry.token with
    | none => exact (tokens_recordReleases m s.port r).symm
    | some k => exact congrArg (k :: ·) (tokens_recordReleases m s.port r).symm

theorem goEnqueue_effect (h : (Call.enqueue s peer r entry).Ok links m es) :
    Effects m (.enqueue s peer r entry) (goEnqueue m s peer r entry) := by
  have hmail : ∀ (m : Mem P) p,
      ((m.setPort peer ((m.port peer).enqueue entry)).port p).messageQueue =
        (m.port p).messageQueue ++ if peer = p then [entry] else [] := by
    intro m p
    by_cases hp : p = peer
    · rw [hp, setPort_self, if_pos rfl]
      rfl
    · rw [setPort_other m _ hp, if_neg (Ne.symm hp), append_nil]
  unfold goEnqueue
  cases r with
  | none =>
    simp only
    split
    · exact refuse_effect h
    · rename_i hopen
      have hcap : s.replyCap = none := h.2.1
      refine accept_effect (hmail m) (setPort_field Port.poolUsageBytes m rfl)
        (setPort_field Port.maxPoolUsage m rfl) (setPort_field Port.deleted m rfl) rfl
        (fun p => ?_) rfl rfl ?_
      · show _ + part p s.port s.recordCharge = _
        simp [Send.recordCharge, hcap, part, releasedBytes, Call.bytes]
      · rintro p (rfl | ⟨asked, hasked, -⟩)
        · simpa using hopen
        · cases hasked
  | some r =>
    simp only
    split
    · exact refuse_effect h
    · rename_i hopen
      rw [Bool.or_eq_true, not_or, Bool.not_eq_true, Bool.not_eq_true] at hopen
      have hk : Kept m (m.setPort s.port { m.port s.port with
          pendingQueue := (m.port s.port).pendingQueue ++ [r] }) :=
        Kept.of_update rfl rfl rfl rfl rfl rfl
      generalize m.setPort s.port { m.port s.port with
        pendingQueue := (m.port s.port).pendingQueue ++ [r] } = m₁ at hk
      refine accept_effect (fun p => ?_) (fun p => ?_) (fun p => ?_) (fun p => ?_) hk.nextToken
        (fun p => rfl) rfl rfl ?_
      · rw [hmail, hk.mail]
      · exact (setPort_field Port.poolUsageBytes m₁ (by rfl) p).trans (hk.pool p)
      · exact (setPort_field Port.maxPoolUsage m₁ (by rfl) p).trans (hk.cap p)
      · exact (setPort_field Port.deleted m₁ (by rfl) p).trans (hk.deleted p)
      · rintro p (rfl | ⟨asked, hasked, rfl⟩)
        · exact hopen.2
        · obtain rfl := some.inj hasked
          exact hopen.1

theorem goWait_effect {r id : ℕ} (h : (Call.wait s r id).Ok links m es) :
    Effects m (.wait s r id) (goWait m s r id) := by
  obtain ⟨rec, hw⟩ := h
  have hbytes : ∀ p, part p s.port s.recordCharge =
      releasedBytes p (m.recordReleases s.port (some r)) := by
    intro p
    simp [releasedBytes, Mem.recordReleases, Release.bytesOf, hw.record, hw.chargedSize]
  have hmute : (Event.timedOut s.port r : Event P).Mute :=
    ⟨fun _ => rfl, fun _ => rfl, fun _ => rfl, fun _ => rfl, rfl, rfl, fun _ h => h⟩
  unfold goWait
  simp only [hw.record]
  split
  · exact (Kept.refl m).effect mute_silent hbytes rfl
  · split
    · exact Kept.effect (Kept.of_update (by rfl) (by rfl) (by rfl) (by rfl) (by rfl) (by rfl))
        hmute hbytes rfl
    · exact Kept.effect (Kept.of_ports rfl rfl) mute_silent hbytes rfl

theorem goReceive_effect (m : Mem P) (p : P) (room : ℕ) (o : Oracle) :
    Effects m (.receive p room) (goReceive m p room o) := by
  unfold goReceive
  simp only
  split
  · split
    · exact give_effect (fun _ => rfl) rfl _
    · split
      · exact give_effect (fun _ => rfl) rfl _
      · exact (Kept.refl m).effect mute_silent (fun _ => rfl) rfl
  · rename_i entry rest hqueue
    refine ⟨fun q => ?_, fun q => ?_, fun q => ?_, fun _ h => absurd h (Nat.lt_irrefl 0),
      fun q => ?_, fun k => ?_, nofun, rfl, fun q => ?_, fun _ h => h.elim⟩
    · by_cases hq : q = p
      · rw [hq, setPort_self, hqueue]
        simp [Event.accepts, Event.delivers]
      · rw [setPort_other m _ hq]
        simp [Event.accepts, Event.delivers, Ne.symm hq]
    · exact setPort_field Port.poolUsageBytes m (by rfl) q
    · exact setPort_field Port.maxPoolUsage m (by rfl) q
    · show 0 + 0 + entryBytes (if p = q then [entry] else []) =
        (part q p entry.chargedSize + (0 + 0)) + 0 + 0
      by_cases hq : p = q
      · simp [entryBytes, part, hq]
      · simp [entryBytes, part, hq]
    · have hsum : ∑ q, (entryTokens (Event.delivers q (.delivered p entry))).count k =
          entry.token.toList.count k := by
        rw [Finset.sum_eq_single p]
        · cases htoken : entry.token <;> simp [Event.delivers, entryTokens, htoken]
        · intro q _ hq
          simp [Event.delivers, entryTokens, Ne.symm hq]
        · exact fun h => absurd (Finset.mem_univ p) h
      have htokens : ([.bytes p entry.chargedSize, .message entry.token] :
          List (Release P)).filterMap Release.token? = entry.token.toList := by
        cases htoken : entry.token with
        | none => rfl
        | some k => rfl
      rw [hsum]
      show _ = (filterMap Release.token? _).count k + _ + _
      rw [htokens]
      simp [Call.tokens, Event.granted, Event.destroyed?, Event.accepts, entryTokens]
    · exact setPort_field Port.deleted m (by rfl) q

theorem goReply_effect (m : Mem P) (p : P) (id : ℕ) (body : List UInt8) :
    Effects m (.reply p id body) (goReply m p id body) := by
  unfold goReply
  split
  · exact give_effect (fun _ => rfl) rfl _
  · exact (Kept.refl m).effect mute_silent (fun _ => rfl) rfl

theorem goReplyOn_effect (m : Mem P) (p peer : P) (id : ℕ) (body : List UInt8) :
    Effects m (.replyOn p peer id body) (goReplyOn m p peer id body) := by
  have hgive : ∀ rs, Effect m (.replyOn p peer id body) (m.touch rs)
      (.unwind [] (.status .replyMessageMismatch)) .silent := fun rs =>
    Kept.effect (Kept.of_ports rfl rfl) mute_silent (fun _ => rfl) rfl
  unfold goReplyOn
  simp only
  split
  · exact hgive _
  · split
    · exact hgive _
    · refine Kept.effect ?_ ⟨fun _ => rfl, fun _ => rfl, fun _ => rfl, fun _ => rfl, rfl, rfl,
        fun _ h => h⟩ (fun _ => rfl) rfl
      exact Kept.of_update rfl (by rfl) (by rfl) (by rfl) (by rfl) rfl

/-! ### Disconnects, and the way out -/

theorem goDisconnect_effect (m : Mem P) (p : P) : Effects m (.disconnect p) (goDisconnect m p) := by
  have hk : Kept m (m.disconnectPort p { m.port p with connectedPort := none }) :=
    Kept.of_update rfl rfl rfl rfl rfl rfl
  have hmute : (Event.cut p (m.port p).pendingQueue : Event P).Mute :=
    ⟨fun _ => rfl, fun _ => rfl, fun _ => rfl, fun _ => rfl, rfl, rfl, fun _ h => h⟩
  unfold goDisconnect
  simp only
  split
  · exact hk.effect hmute (fun _ => rfl) rfl
  · exact hk.effect hmute (fun _ => rfl) rfl

theorem entryBytes_marker (b : Bool) :
    entryBytes (if b then some closedMarker else none).toList = 0 ∧
      entryTokens (if b then some closedMarker else none).toList = [] := by
  cases b <;> exact ⟨rfl, rfl⟩

theorem goClosing_effect (m : Mem P) (p peer : P) (o : Oracle) :
    Effects m (.closing p peer) (goClosing m p peer o) := by
  obtain ⟨hbytes, htokens⟩ := entryBytes_marker o.kmalloc
  unfold goClosing
  simp only
  generalize (if o.kmalloc then some closedMarker else none) = marker at hbytes htokens
  refine ⟨fun q => ?_, fun q => ?_, fun q => ?_, fun _ h => absurd h (Nat.lt_irrefl 0),
    fun q => ?_, fun k => ?_, nofun, rfl, fun q => ?_, fun _ h => h.elim⟩
  · show _ ++ (if peer = q then marker.toList else []) = [] ++ _
    by_cases hq : q = peer
    · rw [hq, if_pos rfl]
      show _ = (update m.port peer _ peer).messageQueue
      rw [update_self]
    · rw [if_neg (Ne.symm hq), append_nil]
      show _ = (update m.port peer _ q).messageQueue
      rw [update_of_ne hq]
  · exact setPort_field Port.poolUsageBytes m (by rfl) q
  · exact setPort_field Port.maxPoolUsage m (by rfl) q
  · show 0 + 0 + 0 = 0 + 0 + entryBytes (if peer = q then marker.toList else [])
    by_cases hq : peer = q
    · rw [if_pos hq, hbytes]
    · rw [if_neg hq]
      rfl
  · have hnone : ∀ q, (entryTokens (if peer = q then marker.toList else [])).count k = 0 := by
      intro q
      by_cases hq : peer = q
      · rw [if_pos hq, htokens, count_nil]
      · rw [if_neg hq]
        rfl
    have hsum : ∑ q, (entryTokens (if peer = q then marker.toList else [])).count k = 0 :=
      Finset.sum_eq_zero fun q _ => hnone q
    show 0 + 0 + ∑ _q : P, 0 = 0 + 0 + ∑ q, (entryTokens (if peer = q then _ else [])).count k
    rw [hsum, Finset.sum_const_zero]
  · exact setPort_field Port.deleted m (by rfl) q

theorem uncharge_effect {q : P} {size : ℕ} {todo : List (Release P)} {result : Result}
    (hle : size ≤ (m.port q).poolUsageBytes) :
    Effect m (.unwind (.bytes q size :: todo) result) (m.setPort q ((m.port q).uncharge size))
      (.unwind todo result) (.uncharged q size) := by
  rw [Port.uncharge, if_pos hle]
  refine ⟨fun p => ?_, fun p => ?_, fun p => ?_, fun _ h => absurd h (Nat.lt_irrefl 0),
    fun p => ?_, fun k => ?_, nofun, rfl, fun p => ?_, fun _ h => h.elim⟩
  · exact (append_nil _).trans (setPort_field Port.messageQueue m (by rfl) p).symm
  · by_cases hq : p = q
    · rw [hq, setPort_self]
      simp [Event.charges, Event.uncharges, part]
      omega
    · rw [setPort_other m _ hq]
      simp [Event.charges, Event.uncharges, part, Ne.symm hq]
  · exact setPort_field Port.maxPoolUsage m (by rfl) p
  · show releasedBytes p (.bytes q size :: todo) + 0 + 0 =
      releasedBytes p todo + part p q size + 0
    rw [releasedBytes_cons, Nat.add_comm (Release.bytesOf p _)]
    rfl
  · rfl
  · exact setPort_field Port.deleted m (by rfl) p

theorem goUnwind_effect {todo : List (Release P)} {result : Result}
    (hle : ∀ p, (Call.unwind todo result).bytes p ≤ (m.port p).poolUsageBytes) :
    Effects m (.unwind todo result) (goUnwind m todo result) := by
  match todo with
  | [] =>
    exact (Kept.refl m).effect ⟨fun _ => rfl, fun _ => rfl, fun _ => rfl, fun _ => rfl, rfl, rfl,
      fun _ h => h⟩ (fun _ => rfl) rfl
  | .bytes q size :: todo =>
    refine uncharge_effect ((Nat.le_add_right _ (releasedBytes q todo)).trans ?_)
    have := hle q
    change releasedBytes q (.bytes q size :: todo) ≤ _ at this
    rw [releasedBytes_cons, Release.bytesOf, part, if_pos rfl] at this
    exact this
  | .message token :: todo =>
    refine ⟨fun p => append_nil _, fun p => rfl, fun _ => rfl,
      fun _ h => absurd h (Nat.lt_irrefl 0), fun p => ?_, fun k => ?_, nofun, rfl,
      fun _ => rfl, fun _ h => h.elim⟩
    · show releasedBytes p (.message token :: todo) + 0 + 0 = releasedBytes p todo + 0 + 0
      rw [releasedBytes_cons, Release.bytesOf, Nat.zero_add]
      nofun
    · show ((Release.message token :: todo).filterMap Release.token?).count k + _ + _ =
        (todo.filterMap Release.token?).count k + token.toList.count k + _
      cases token with
      | none => rfl
      | some k' =>
        rw [filterMap_cons_some (by rfl), ← singleton_append, count_append,
          Nat.add_comm ([k'].count k)]
        rfl
  | .record r :: todo =>
    refine Kept.effect (Kept.of_ports rfl rfl) mute_silent (fun p => ?_) rfl
    show releasedBytes p (.record r :: todo) = releasedBytes p todo
    rw [releasedBytes_cons, Release.bytesOf, Nat.zero_add]
    nofun

theorem start_effect (m : Mem P) (req : Request P) : Effects m .idle (start m req) := by
  have hquiet : ∀ {call' : Call P}, (∀ p, call'.bytes p = 0) → call'.tokens = [] →
      Effect m .idle m call' .silent := fun hbytes htokens =>
    (Kept.refl m).effect mute_silent (fun p => (hbytes p).symm) htokens.symm
  cases req with
  | datagram p body =>
    simp only [start]
    split
    · exact give_effect (fun _ => rfl) rfl _
    · exact hquiet (fun _ => rfl) rfl
  | sync p body recvBufLen =>
    simp only [start]
    split
    · exact give_effect (fun _ => rfl) rfl _
    · split
      · exact give_effect (fun _ => rfl) rfl _
      · exact hquiet (fun _ => rfl) rfl
  | receive p recvBufLen =>
    simp only [start]
    split
    · exact give_effect (fun _ => rfl) rfl _
    · exact hquiet (fun _ => rfl) rfl
  | reply p id body =>
    simp only [start]
    split
    · exact give_effect (fun _ => rfl) rfl _
    · exact hquiet (fun _ => rfl) rfl
  | disconnect p => exact hquiet (fun _ => rfl) rfl

theorem advance_effect (h : call.Ok links m es)
    (hle : ∀ p, call.bytes p ≤ (m.port p).poolUsageBytes) (o : Oracle) :
    Effects m call (advance m o call) := by
  cases call with
  | idle => exact (Kept.refl m).effect mute_silent (fun _ => rfl) rfl
  | send s => exact goSend_effect m s
  | checkPeer s peer => exact goCheckPeer_effect
  | reserveRecord s peer cap => exact goReserveRecord_effect h
  | makeRecord s peer cap => exact goMakeRecord_effect h o
  | reserve s peer r => exact goReserve_effect h
  | charge s peer r => exact goCharge_effect h o
  | allocate s peer r token => exact goAllocate_effect h o
  | stamp s peer r token => exact goStamp_effect m s peer r token
  | enqueue s peer r entry => exact goEnqueue_effect h
  | wait s r id => exact goWait_effect h
  | receive p room => exact goReceive_effect m p room o
  | reply p id body => exact goReply_effect m p id body
  | replyOn p peer id body => exact goReplyOn_effect m p peer id body
  | disconnect p => exact goDisconnect_effect m p
  | closing p peer => exact goClosing_effect m p peer o
  | unwind todo result => exact goUnwind_effect hle

theorem thread_effect (h : call.Ok links m es)
    (hle : ∀ p, call.bytes p ≤ (m.port p).poolUsageBytes) {choice : Choice P}
    (hthread : thread m call choice = some ((m', call'), ev)) : Effect m call m' call' ev := by
  cases choice with
  | begin req =>
    cases call with
    | idle =>
      rw [thread] at hthread
      split at hthread
      · cases hthread
      · have hstart := start_effect m req
        rw [some.inj hthread] at hstart
        exact hstart
    | _ => cases hthread
  | go o =>
    have hadvance := advance_effect h hle o
    rw [some.inj hthread] at hadvance
    exact hadvance

end ImpossibleOs.Ipc.Alpc
