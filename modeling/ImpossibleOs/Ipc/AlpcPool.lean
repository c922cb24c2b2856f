import ImpossibleOs.Ipc.AlpcLedger
import ImpossibleOs.Ipc.AlpcRun
import Mathlib.Algebra.Order.BigOperators.Group.Finset

/-!
Messages, bytes and quota over whole runs.
-/

namespace ImpossibleOs.Ipc.Alpc

open Function List

open Function (update)

variable {P : Type} [DecidableEq P] [Fintype P] {Tid : Type} [DecidableEq Tid] [Fintype Tid]
variable {links : Links P} {m' : Mem P} {call' : Call P} {ev : Event P}
variable {c c' : Machine Tid P} {log log' : List (Option Tid × Event P)} {t : Tid} {p : P}

/-! ### The log as a ledger -/

/-- The messages that were put into the queue of `p`, in this order. -/
def accepted (p : P) (log : List (Option Tid × Event P)) : List Entry :=
  log.flatMap fun e => e.2.accepts p

def delivered (p : P) (log : List (Option Tid × Event P)) : List Entry :=
  log.flatMap fun e => e.2.delivers p

def granted (log : List (Option Tid × Event P)) : List ℕ := log.flatMap fun e => e.2.granted

def destroyed (log : List (Option Tid × Event P)) : List ℕ := log.flatMap fun e => e.2.destroyed?

omit [Fintype P] [DecidableEq Tid] [Fintype Tid] in
@[simp] theorem accepted_snoc (log : List (Option Tid × Event P)) (u : Option Tid) (ev : Event P) :
    accepted p (log ++ [(u, ev)]) = accepted p log ++ ev.accepts p := by
  simp [accepted]

omit [Fintype P] [DecidableEq Tid] [Fintype Tid] in
@[simp] theorem delivered_snoc (log : List (Option Tid × Event P)) (u : Option Tid) (ev : Event P) :
    delivered p (log ++ [(u, ev)]) = delivered p log ++ ev.delivers p := by
  simp [delivered]

omit [DecidableEq P] [Fintype P] [DecidableEq Tid] [Fintype Tid] in
@[simp] theorem granted_snoc (log : List (Option Tid × Event P)) (u : Option Tid) (ev : Event P) :
    granted (log ++ [(u, ev)]) = granted log ++ ev.granted := by
  simp [granted]

omit [DecidableEq P] [Fintype P] [DecidableEq Tid] [Fintype Tid] in
@[simp] theorem destroyed_snoc (log : List (Option Tid × Event P)) (u : Option Tid) (ev : Event P) :
    destroyed (log ++ [(u, ev)]) = destroyed log ++ ev.destroyed? := by
  simp [destroyed]

theorem entryBytes_append (xs ys : List Entry) :
    entryBytes (xs ++ ys) = entryBytes xs + entryBytes ys := by
  simp [entryBytes]

theorem count_entryTokens_append (k : ℕ) (xs ys : List Entry) :
    (entryTokens (xs ++ ys)).count k = (entryTokens xs).count k + (entryTokens ys).count k := by
  simp [entryTokens]

/-- The bytes of `p` that calls have to give back. -/
def heldBytes (c : Machine Tid P) (p : P) : ℕ := ∑ t, (c.threads t).bytes p

def queuedBytes (c : Machine Tid P) (p : P) : ℕ := entryBytes (c.shared.port p).messageQueue

/-- Every message, byte and charge is where the log says. The pool of a port that was deleted
keeps what its queue had. -/
structure Ledger (links : Links P) (c : Machine Tid P) (log : List (Option Tid × Event P)) :
    Prop where
  mail : ∀ p, (c.shared.port p).deleted = false →
    accepted p log = delivered p log ++ (c.shared.port p).messageQueue
  room : ∀ p, queuedBytes c p + heldBytes c p ≤ (c.shared.port p).poolUsageBytes
  pool : ∀ p, (c.shared.port p).deleted = false →
    (c.shared.port p).poolUsageBytes = queuedBytes c p + heldBytes c p
  cap : ∀ p, (c.shared.port p).maxPoolUsage = links.maxPoolUsage p
  under : ∀ p, 0 < links.maxPoolUsage p →
    (c.shared.port p).poolUsageBytes ≤ links.maxPoolUsage p
  tokens : ∀ k, (granted log).count k = (destroyed log).count k +
    ∑ p, (entryTokens (c.shared.port p).messageQueue).count k +
      ∑ t, (c.threads t).tokens.count k
  fresh : ∀ k, c.shared.nextToken ≤ k → (granted log).count k = 0
  once : ∀ k, (granted log).count k ≤ 1

omit [DecidableEq Tid] in
theorem Ledger.bytes_le (h : Ledger links c log) (t : Tid) (p : P) :
    (c.threads t).bytes p ≤ (c.shared.port p).poolUsageBytes := by
  have hle : (c.threads t).bytes p ≤ heldBytes c p :=
    Finset.single_le_sum (f := fun u => (c.threads u).bytes p) (fun _ _ => Nat.zero_le _)
      (Finset.mem_univ t)
  exact hle.trans ((Nat.le_add_left _ _).trans (h.room p))

theorem Ledger.turn (h : Ledger links c log) (t : Tid)
    (he : Effect c.shared (c.threads t) m' call' ev) :
    Ledger links ⟨m', update c.threads t call'⟩ (log ++ [(some t, ev)]) := by
  have hmail : ∀ p, queuedBytes c p + entryBytes (ev.accepts p) =
      entryBytes (ev.delivers p) + entryBytes (m'.port p).messageQueue := by
    intro p
    have := congrArg entryBytes (he.mail p)
    rwa [entryBytes_append, entryBytes_append] at this
  have hheld : ∀ p, heldBytes ⟨m', update c.threads t call'⟩ p + (c.threads t).bytes p =
      heldBytes c p + call'.bytes p :=
    fun p => Interleave.sum_update (Call.bytes p) c.threads t call'
  have hqueued : ∀ p, queuedBytes ⟨m', update c.threads t call'⟩ p =
      entryBytes (m'.port p).messageQueue := fun _ => rfl
  refine ⟨fun p hp => ?_, fun p => ?_, fun p hp => ?_, fun p => (he.cap p).trans (h.cap p),
    fun p hp => ?_, fun k => ?_, fun k hk => ?_, fun k => ?_⟩
  · rw [accepted_snoc, delivered_snoc, h.mail p ((he.deleted p).symm.trans hp), append_assoc,
      he.mail p, append_assoc]
  · have hpool := he.pool p
    have hbytes := he.bytes p
    have hroom := h.room p
    have := hmail p
    have := hheld p
    rw [hqueued]
    show _ ≤ (m'.port p).poolUsageBytes
    omega
  · have hpool := he.pool p
    have hbytes := he.bytes p
    have heq := h.pool p ((he.deleted p).symm.trans hp)
    have := hmail p
    have := hheld p
    rw [hqueued]
    show (m'.port p).poolUsageBytes = _
    omega
  · show (m'.port p).poolUsageBytes ≤ _
    rcases Nat.eq_zero_or_pos (ev.charges p) with hzero | hpos
    · have hpool := he.pool p
      have := h.under p hp
      omega
    · have := he.under p hpos
      rw [h.cap] at this
      exact this hp
  · have htokens := he.tokens k
    have hsum : ∑ u, (update c.threads t call' u).tokens.count k + (c.threads t).tokens.count k =
        ∑ u, (c.threads u).tokens.count k + call'.tokens.count k :=
      Interleave.sum_update (fun l => l.tokens.count k) c.threads t call'
    have hqueues : ∑ p, (entryTokens (c.shared.port p).messageQueue).count k +
        ∑ p, (entryTokens (ev.accepts p)).count k =
          ∑ p, (entryTokens (ev.delivers p)).count k +
            ∑ p, (entryTokens (m'.port p).messageQueue).count k := by
      rw [← Finset.sum_add_distrib, ← Finset.sum_add_distrib]
      refine Finset.sum_congr rfl fun p _ => ?_
      rw [← count_entryTokens_append, he.mail, count_entryTokens_append]
    have hbefore := h.tokens k
    rw [granted_snoc, destroyed_snoc, count_append, count_append]
    show _ = _ + ∑ p, (entryTokens (m'.port p).messageQueue).count k +
      ∑ u, (update c.threads t call' u).tokens.count k
    omega
  · have hk' : c.shared.nextToken + ev.granted.length ≤ k := he.nextToken ▸ hk
    rw [granted_snoc, count_append, h.fresh k (by omega), Nat.zero_add]
    refine count_eq_zero_of_not_mem fun hin => ?_
    have := he.granted k hin
    have := length_pos_of_mem hin
    omega
  · rw [granted_snoc, count_append]
    by_cases hin : k ∈ ev.granted
    · rw [h.fresh k (he.granted k hin).ge]
      cases ev with
      | quotaCharged token =>
        show 0 + [token].count k ≤ [token].length
        rw [Nat.zero_add]
        exact List.count_le_length
      | _ => cases hin
    · rw [count_eq_zero_of_not_mem hin]
      exact h.once k

omit [DecidableEq Tid] in
theorem Ledger.delete (h : Ledger links c log) (hp : (c.shared.port p).deleted = false) :
    Ledger links ⟨c.shared.onDelete p, c.threads⟩
      (log ++ [(none, Event.deleted p (c.shared.port p).messageQueue)]) := by
  have hself : ∀ {V : Type} (field : Port P → V),
      field ((c.shared.onDelete p).port p) = field { c.shared.port p with
        connectedPort := none, messageQueue := [], deleted := true, disconnected := true,
        pendingQueue := [] } := fun field => congrArg field (update_self ..)
  have hother : ∀ {q}, q ≠ p → (c.shared.onDelete p).port q = c.shared.port q :=
    fun hq => update_of_ne hq _ _
  have hfield : ∀ {V : Type} (field : Port P → V) {q}, (q = p → field { c.shared.port p with
      connectedPort := none, messageQueue := [], deleted := true, disconnected := true,
      pendingQueue := [] } = field (c.shared.port p)) →
        field ((c.shared.onDelete p).port q) = field (c.shared.port q) := by
    intro V field q hsame
    by_cases hq : q = p
    · rw [hq, hself field, hsame hq]
    · rw [hother hq]
  have halive : ∀ {q}, ((c.shared.onDelete p).port q).deleted = false → q ≠ p := by
    rintro q hq rfl
    rw [hself Port.deleted] at hq
    cases hq
  refine ⟨fun q hq => ?_, fun q => ?_, fun q hq => ?_, fun q => ?_, fun q hq => ?_, fun k => ?_,
    fun k hk => ?_, fun k => ?_⟩
  · have hne := halive hq
    rw [accepted_snoc, delivered_snoc]
    show _ ++ [] = _ ++ [] ++ ((c.shared.onDelete p).port q).messageQueue
    rw [hother hne] at hq ⊢
    rw [append_nil, append_nil]
    exact h.mail q hq
  · have hroom := h.room q
    show entryBytes ((c.shared.onDelete p).port q).messageQueue + heldBytes c q ≤
      ((c.shared.onDelete p).port q).poolUsageBytes
    by_cases hq : q = p
    · subst hq
      rw [hself Port.messageQueue, hself Port.poolUsageBytes]
      exact (Nat.add_le_add_right (Nat.zero_le _) _).trans hroom
    · rw [hother hq]
      exact hroom
  · have hne := halive hq
    show ((c.shared.onDelete p).port q).poolUsageBytes =
      entryBytes ((c.shared.onDelete p).port q).messageQueue + heldBytes c q
    rw [hother hne] at hq ⊢
    exact h.pool q hq
  · exact (hfield Port.maxPoolUsage fun _ => rfl).trans (h.cap q)
  · exact (hfield Port.poolUsageBytes fun _ => rfl).trans_le (h.under q hq)
  · have hsum : ∑ q, (entryTokens (c.shared.port q).messageQueue).count k =
        (entryTokens (c.shared.port p).messageQueue).count k +
          ∑ q, (entryTokens ((c.shared.onDelete p).port q).messageQueue).count k := by
      rw [← Finset.add_sum_erase _ _ (Finset.mem_univ p),
        ← Finset.add_sum_erase _ (fun q =>
          (entryTokens ((c.shared.onDelete p).port q).messageQueue).count k) (Finset.mem_univ p)]
      rw [hself Port.messageQueue]
      show _ = _ + (0 + _)
      rw [Nat.zero_add]
      refine congrArg _ (Finset.sum_congr rfl fun q hq => ?_)
      rw [hother (Finset.ne_of_mem_erase hq)]
    have hbefore := h.tokens k
    rw [granted_snoc, destroyed_snoc, count_append, count_append]
    show _ + 0 = _ + (entryTokens (c.shared.port p).messageQueue).count k +
      ∑ q, (entryTokens ((c.shared.onDelete p).port q).messageQueue).count k + _
    show _ = _ + ∑ u, (c.threads u).tokens.count k
    omega
  · rw [granted_snoc]
    exact (congrArg (List.count k) (append_nil _)).trans (h.fresh k hk)
  · rw [granted_snoc]
    exact (congrArg (List.count k) (append_nil _)).trans_le (h.once k)

variable {es : List (Event P)} {call : Call P} {choice : Choice P} {e : Option Tid × Event P}
  {m : Mem P}

theorem exec_ledger (hs : Sane links c log) (h : Ledger links c log) {step : Step Tid P}
    (hexec : exec c step = some (c', e)) : Ledger links c' (log ++ [e]) := by
  rcases exec_cases hexec with ⟨t, choice, m', call', ev, hthread, rfl, rfl⟩ |
    ⟨p, hp, -, rfl, rfl⟩
  · exact h.turn t (thread_effect (hs.ok t) (h.bytes_le t) hthread)
  · exact h.delete hp

omit [DecidableEq Tid] in
theorem initial_ledger (links : Links P) : Ledger links (links.initial : Machine Tid P) [] where
  mail _ _ := rfl
  room p := by simp [queuedBytes, heldBytes, entryBytes, Links.initial, Links.connected, Call.bytes]
  pool p _ := by
    simp [queuedBytes, heldBytes, entryBytes, Links.initial, Links.connected, Call.bytes]
  cap _ := rfl
  under p _ := Nat.zero_le _
  tokens k := by
    simp [granted, destroyed, entryTokens, Links.initial, Links.connected, Call.tokens]
  fresh _ _ := rfl
  once _ := Nat.zero_le _

/-! ### One call -/

/-- What `t` did since its last call returned. -/
def current (t : Tid) (log : List (Option Tid × Event P)) : List (Event P) :=
  log.foldl (fun es e => if e.1 = some t then
    match e.2 with
    | .returned _ => []
    | ev => es ++ [ev]
  else es) []

section

omit [DecidableEq P] [Fintype P] [Fintype Tid]

theorem current_other (log : List (Option Tid × Event P)) {u : Option Tid} (h : u ≠ some t)
    (ev : Event P) : current t (log ++ [(u, ev)]) = current t log := by
  simp [current, h]

theorem current_returned (log : List (Option Tid × Event P)) (t : Tid) (result : Result) :
    current t (log ++ [(some t, Event.returned result)]) = [] := by
  simp [current]

theorem current_self (log : List (Option Tid × Event P)) (t : Tid)
    (h : ∀ result, ev ≠ .returned result) :
    current t (log ++ [(some t, ev)]) = current t log ++ [ev] := by
  cases ev with
  | returned result => exact absurd rfl (h result)
  | _ => simp [current]

end

omit [Fintype P] in
theorem thread_returned (hbuilt : call.Built) {result : Result}
    (hthread : thread m call choice = some ((m', call'), .returned result)) :
    call = .unwind [] result ∧ call' = .idle := by
  cases thread_turned hbuilt hthread with
  | move hcall hmove =>
    cases hmove with
    | still h _ _ => exact h.elim
  | woke s r id todo result hout hev => exact hev.elim
  | released x todo result hout hev => exact hev.elim
  | returned result' hev hcall =>
    obtain rfl : result = result' := Event.returned.inj hev
    exact ⟨rfl, hcall⟩

/-- Bytes of `p` that were taken from its pool, and given back. -/
def taken (p : P) (es : List (Event P)) : ℕ := (es.map (Event.charges p)).sum

def givenBack (p : P) (es : List (Event P)) : ℕ := (es.map (Event.uncharges p)).sum

/-- The bytes of `p` that a call took are those it gave back, put into a queue, or has. -/
def Balanced (p : P) (es : List (Event P)) (call : Call P) : Prop :=
  taken p es + (es.map fun ev => entryBytes (ev.delivers p)).sum =
    givenBack p es + (es.map fun ev => entryBytes (ev.accepts p)).sum + call.bytes p

/-- What a call has put into a queue, or got from one, by what it is about to return. -/
def Call.Sent (es : List (Event P)) : Call P → Prop
  | .wait _ _ _ => ∃ q entry asked, .accepted q entry (some asked) ∈ es
  | .unwind _ (.status st) => st = .success ∨
      (∃ q entry asked, .accepted q entry (some asked) ∈ es) ∨ ∀ ev ∈ es, ev.Still
  | .unwind _ _ => True
  | _ => ∀ ev ∈ es, ev.Still

theorem Balanced.step (h : Balanced p es call)
    (he : Effect m call m' call' ev) : Balanced p (es ++ [ev]) call' := by
  have hbytes := he.bytes p
  unfold Balanced taken givenBack at h ⊢
  simp only [map_append, map_cons, map_nil, sum_append, sum_cons,
    sum_nil, Nat.add_zero]
  omega

omit [DecidableEq P] [Fintype P] in
theorem sent_of_still (h : ∀ ev ∈ es, ev.Still) (hcall : call.Plain) : call.Sent es := by
  cases call with
  | wait s r id => exact hcall.elim
  | unwind todo result =>
    cases result with
    | status st => exact .inr (.inr h)
    | replied r id body => exact trivial
    | received body => exact trivial
  | _ => exact h

omit [Fintype P] in
theorem Call.Sent.step (hbuilt : call.Built) (h : call.Sent es)
    (hthread : thread m call choice = some ((m', call'), ev))
    (hev : ∀ result, ev ≠ .returned result) : call'.Sent (es ++ [ev]) := by
  have hgrow : ∀ {ev' : Event P}, (∃ q entry asked, .accepted q entry (some asked) ∈ es) →
      ∃ q entry asked, .accepted q entry (some asked) ∈ es ++ [ev'] := by
    rintro ev' ⟨q, entry, asked, hin⟩
    exact ⟨q, entry, asked, mem_append_left _ hin⟩
  have hstill : ∀ {ev' : Event P}, ev'.Still → (∀ ev ∈ es, ev.Still) →
      ∀ ev ∈ es ++ [ev'], ev.Still := by
    intro ev' hs hes ev hin
    rcases mem_append.mp hin with hold | hnew
    · exact hes ev hold
    · obtain rfl := mem_singleton.mp hnew
      exact hs
  have hresult : ∀ {todo : List (Release P)} {result : Result},
      (∀ st, result = .status st → st = .success ∨
        (∃ q entry asked, .accepted q entry (some asked) ∈ es ++ [ev]) ∨
          ∀ ev' ∈ es ++ [ev], ev'.Still) → (Call.unwind todo result).Sent (es ++ [ev]) := by
    intro todo result hst
    cases result with
    | status st => exact hst st rfl
    | replied r id body => exact trivial
    | received body => exact trivial
  cases thread_turned hbuilt hthread with
  | move hcall hmove =>
    have hes : ∀ ev ∈ es, ev.Still := by
      cases call with
      | wait s r id => exact hcall.elim
      | unwind todo result => exact hcall.elim
      | _ => exact h
    cases hmove with
    | still hs hplain _ => exact sent_of_still (hstill hs hes) hplain
    | put s q entry _ => exact .inl rfl
    | ask s q r entry _ =>
      exact ⟨q, entry, _, mem_append_right _ (mem_singleton_self _)⟩
    | get p room entry todo body => exact trivial
    | shut p q marker rs _ => exact .inl rfl
  | woke s r id todo result hout hs hcall =>
    obtain rfl : call' = .unwind todo result := hcall
    exact hresult fun st _ => .inr (.inl (hgrow h))
  | released x todo result hout hs hcall =>
    obtain rfl : call' = .unwind todo result := hcall
    refine hresult ?_
    rintro st rfl
    exact h.imp_right (Or.imp hgrow (hstill hs))
  | returned result hret hcall => exact absurd hret (hev result)

/-! ### Runs -/

/-- What a call did when it returned. The bytes it took were given back, or are with a message it
sent; when it did not succeed, and no request of it was accepted, all were given back. -/
structure Closes (es : List (Event P)) (result : Result) : Prop where
  balanced : ∀ p, taken p es + (es.map fun ev => entryBytes (ev.delivers p)).sum =
    givenBack p es + (es.map fun ev => entryBytes (ev.accepts p)).sum
  failed : ∀ st, result = .status st → st ≠ .success →
    (∃ q entry asked, .accepted q entry (some asked) ∈ es) ∨ ∀ p, taken p es = givenBack p es

def Returns (Q : Tid → List (Option Tid × Event P) → Result → Prop)
    (log : List (Option Tid × Event P)) : Prop :=
  ∀ pre t result post, log = pre ++ (some t, Event.returned result) :: post → Q t pre result

omit [DecidableEq P] [Fintype P] [DecidableEq Tid] [Fintype Tid] in
theorem Returns.snoc {Q : Tid → List (Option Tid × Event P) → Result → Prop} (h : Returns Q log)
    (he : ∀ t result, e = (some t, .returned result) → Q t log result) :
    Returns Q (log ++ [e]) := by
  intro pre t result post heq
  rcases eq_nil_or_concat post with rfl | ⟨post', x, rfl⟩
  · obtain ⟨rfl, hlast⟩ := append_inj' heq rfl
    exact he t result (singleton_inj.mp hlast)
  · rw [concat_eq_append, ← cons_append, ← append_assoc] at heq
    exact h pre t result post' (append_inj' heq rfl).1

section

omit [Fintype P]

theorem Event.Still.accepts (h : ev.Still) (p : P) : ev.accepts p = [] := by
  cases ev with
  | accepted q entry request => exact h.elim
  | closed q q' marker rs => exact h.elim
  | _ => rfl

theorem Event.Still.delivers (h : ev.Still) (p : P) : ev.delivers p = [] := by
  cases ev with
  | delivered q entry => exact h.elim
  | _ => rfl

theorem closes_of_sent {result : Result}
    (hb : ∀ p, Balanced p es (.unwind [] result)) (hs : (Call.unwind [] result : Call P).Sent es) :
    Closes es result := by
  have hbal : ∀ p, taken p es + (es.map fun ev => entryBytes (ev.delivers p)).sum =
      givenBack p es + (es.map fun ev => entryBytes (ev.accepts p)).sum := hb
  refine ⟨hbal, ?_⟩
  rintro st rfl hst
  rcases hs with rfl | hask | hstill
  · exact absurd rfl hst
  · exact .inl hask
  · refine .inr fun p => ?_
    have hzero : ∀ {f : Event P → ℕ}, (∀ ev ∈ es, f ev = 0) → (es.map f).sum = 0 := by
      intro f hf
      refine sum_eq_zero fun x hx => ?_
      obtain ⟨ev, hev, rfl⟩ := mem_map.mp hx
      exact hf ev hev
    have hgot := @hzero (fun ev => entryBytes (ev.delivers p)) fun ev hev => by
      rw [(hstill ev hev).delivers]
      rfl
    have hput := @hzero (fun ev => entryBytes (ev.accepts p)) fun ev hev => by
      rw [(hstill ev hev).accepts]
      rfl
    have := hbal p
    omega

theorem thread_accepts (hbuilt : call.Built)
    (hthread : thread m call choice = some ((m', call'), ev)) :
    ∀ entry ∈ ev.accepts p, entry = closedMarker ∨ entry.Built := by
  intro entry hin
  have hmem : ∀ {q : P} {l : List Entry}, entry ∈ (if q = p then l else []) → entry ∈ l := by
    intro q l h
    split at h
    · exact h
    · cases h
  cases thread_turned hbuilt hthread with
  | move hcall hmove =>
    cases hmove with
    | still hs _ _ =>
      rw [hs.accepts] at hin
      cases hin
    | put s q entry' h =>
      obtain rfl := mem_singleton.mp (hmem hin)
      exact .inr h
    | ask s q r entry' h =>
      obtain rfl := mem_singleton.mp (hmem hin)
      exact .inr h
    | get q room entry' todo body => cases hin
    | shut q q' marker rs h => exact .inl (h entry (Option.mem_toList.mp (hmem hin)))
  | woke s r id todo result hout hev =>
    rw [hev.accepts] at hin
    cases hin
  | released x todo result hout hev =>
    rw [hev.accepts] at hin
    cases hin
  | returned result hev =>
    obtain rfl : ev = .returned result := hev
    cases hin

end

/-- The records, the ledger, and what every call did so far. -/
structure Booked (links : Links P) (c : Machine Tid P) (log : List (Option Tid × Event P)) :
    Prop where
  sane : Sane links c log
  ledger : Ledger links c log
  balanced : ∀ t p, Balanced p (current t log) (c.threads t)
  sent : ∀ t, (c.threads t).Sent (current t log)
  closes : Returns (fun t pre result => Closes (current t pre) result) log
  conserved : ∀ p, (c.shared.port p).poolUsageBytes + givenBack p (events log) =
    taken p (events log)
  built : ∀ p, ∀ entry ∈ accepted p log, entry = closedMarker ∨ entry.Built

omit [Fintype P] in
theorem taken_snoc (p : P) (es : List (Event P)) (ev : Event P) :
    taken p (es ++ [ev]) = taken p es + ev.charges p := by
  simp [taken]

omit [Fintype P] in
theorem givenBack_snoc (p : P) (es : List (Event P)) (ev : Event P) :
    givenBack p (es ++ [ev]) = givenBack p es + ev.uncharges p := by
  simp [givenBack]

theorem Booked.turn (h : Booked links c log) (t : Tid)
    (hthread : thread c.shared (c.threads t) choice = some ((m', call'), ev))
    (hsane : Sane links ⟨m', update c.threads t call'⟩ (log ++ [(some t, ev)]))
    (hledger : Ledger links ⟨m', update c.threads t call'⟩ (log ++ [(some t, ev)])) :
    Booked links ⟨m', update c.threads t call'⟩ (log ++ [(some t, ev)]) := by
  have he := thread_effect (h.sane.ok t) (h.ledger.bytes_le t) hthread
  have hself : update c.threads t call' t = call' := update_self ..
  have hother : ∀ {u}, u ≠ t → update c.threads t call' u = c.threads u :=
    fun hu => update_of_ne hu _ _
  have hkeep : ∀ {u}, u ≠ t → current u (log ++ [(some t, ev)]) = current u log :=
    fun hu => current_other log (by simpa using Ne.symm hu) ev
  -- a call that returns is over, any other goes on
  have hown : (∀ p, Balanced p (current t (log ++ [(some t, ev)])) call') ∧
      call'.Sent (current t (log ++ [(some t, ev)])) := by
    by_cases hret : ∃ result, ev = .returned result
    · obtain ⟨result, rfl⟩ := hret
      obtain ⟨-, rfl⟩ := thread_returned (h.sane.built t) hthread
      rw [current_returned]
      exact ⟨fun p => rfl, nofun⟩
    · have hev : ∀ result, ev ≠ .returned result := fun result heq => hret ⟨result, heq⟩
      rw [current_self log t hev]
      exact ⟨fun p => (h.balanced t p).step he, (h.sent t).step (h.sane.built t) hthread hev⟩
  refine ⟨hsane, hledger, fun u p => ?_, fun u => ?_, h.closes.snoc fun u result heq => ?_,
    fun p => ?_, fun p entry hin => ?_⟩
  · show Balanced p _ (update c.threads t call' u)
    by_cases hu : u = t
    · rw [hu, hself]
      exact hown.1 p
    · rw [hother hu, hkeep hu]
      exact h.balanced u p
  · show (update c.threads t call' u).Sent _
    by_cases hu : u = t
    · rw [hu, hself]
      exact hown.2
    · rw [hother hu, hkeep hu]
      exact h.sent u
  · obtain ⟨hu, rfl⟩ := Prod.mk.inj heq
    obtain rfl : t = u := Option.some.inj hu
    obtain ⟨hcall, -⟩ := thread_returned (h.sane.built t) hthread
    have hb := h.balanced t
    have hs := h.sent t
    rw [hcall] at hb hs
    exact closes_of_sent hb hs
  · rw [events_snoc, taken_snoc, givenBack_snoc]
    have hpool := he.pool p
    have := h.conserved p
    show (m'.port p).poolUsageBytes + _ = _
    omega
  · rw [accepted_snoc, mem_append] at hin
    rcases hin with hold | hnew
    · exact h.built p entry hold
    · exact thread_accepts (h.sane.built t) hthread entry hnew

omit [Fintype P] in
theorem onDelete_pool (m : Mem P) (q p : P) :
    ((m.onDelete q).port p).poolUsageBytes = (m.port p).poolUsageBytes :=
  setPort_field Port.poolUsageBytes m (by rfl) p

theorem Booked.exec (h : Booked links c log) {step : Step Tid P}
    (hexec : Alpc.exec c step = some (c', e)) : Booked links c' (log ++ [e]) := by
  have hsane := exec_sane h.sane hexec
  have hledger := exec_ledger h.sane h.ledger hexec
  rcases exec_cases hexec with ⟨t, choice, m', call', ev, hthread, rfl, rfl⟩ |
    ⟨p, -, -, rfl, rfl⟩
  · exact h.turn t hthread hsane hledger
  · have hkeep : ∀ t, current t (log ++ [(none, Event.deleted p (c.shared.port p).messageQueue)]) =
        current t log := fun t => current_other log (Option.some_ne_none t).symm _
    refine ⟨hsane, hledger, fun t q => ?_, fun t => ?_,
      h.closes.snoc (fun _ _ heq => nomatch heq), fun q => ?_, fun q entry hin => ?_⟩
    · rw [hkeep]
      exact h.balanced t q
    · rw [hkeep]
      exact h.sent t
    · rw [events_snoc, taken_snoc, givenBack_snoc]
      exact (congrArg (· + _) (onDelete_pool c.shared p q)).trans (h.conserved q)
    · rw [accepted_snoc, mem_append] at hin
      rcases hin with hold | hnew
      · exact h.built q entry hold
      · cases hnew

theorem initial_booked (links : Links P) : Booked links (links.initial : Machine Tid P) [] where
  sane := initial_sane links
  ledger := initial_ledger links
  balanced _ _ := rfl
  sent _ := nofun
  closes := by
    intro pre t result post h
    simp at h
  conserved _ := rfl
  built _ := nofun

theorem run_booked {steps : List (Step Tid P)}
    (hrun : Refine.run exec links.initial steps = some (c, log)) : Booked links c log := by
  have h := Refine.run_invariant (Booked links) (fun c log step c' e h _ hexec => h.exec hexec)
    (initial_booked links) (Refine.along_true exec links.initial steps) hrun
  exact h

/-! ### The pools -/

def Call.recordBytes (m : Mem P) (p : P) : Call P → ℕ
  | .wait s r _ => part p s.port ((m.record r).elim 0 Record.chargedSize)
  | _ => 0

/-- Every call is at rest: it has not begun, or it waits for its reply. -/
def Call.Rests : Call P → Prop
  | .idle => True
  | .wait _ _ _ => True
  | _ => False

structure PoolAccounts (links : Links P) (c : Machine Tid P)
    (log : List (Option Tid × Event P)) : Prop where
  /-- the messages in the queue, and what calls have in hand -/
  usage : ∀ p, (c.shared.port p).deleted = false →
    (c.shared.port p).poolUsageBytes = queuedBytes c p + heldBytes c p
  /-- between the calls: the messages in the queue and the records of those who wait -/
  atRest : (∀ t, (c.threads t).Rests) → ∀ p, (c.shared.port p).deleted = false →
    (c.shared.port p).poolUsageBytes =
      queuedBytes c p + ∑ t, (c.threads t).recordBytes c.shared p
  /-- a record is in the hand of one call -/
  records : ∀ r, c.shared.record r ≠ none → ∃! t, r ∈ (c.threads t).held
  cap : ∀ p, 0 < links.maxPoolUsage p →
    (c.shared.port p).poolUsageBytes ≤ links.maxPoolUsage p
  /-- nothing was kept back by the guards against a negative usage -/
  conserved : ∀ p, (c.shared.port p).poolUsageBytes + givenBack p (events log) =
    taken p (events log)
  closes : Returns (fun t pre result => Closes (current t pre) result) log
  /-- the marker has no bytes and no quota; any other message has its own bytes -/
  marker : ∀ p, ∀ entry ∈ accepted p log, (entry.type = .portClosed ↔ entry.chargedSize = 0) ∧
    (entry.type = .portClosed → entry.token = none) ∧
      (entry.type ≠ .portClosed → entry.chargedSize = sizeofEntry + entry.body.length)
  /-- a charge is with one message or call, or was returned, once -/
  tokens : ∀ k, (destroyed log).count k +
      ∑ p, (entryTokens (c.shared.port p).messageQueue).count k +
        ∑ t, (c.threads t).tokens.count k = (granted log).count k ∧ (granted log).count k ≤ 1

theorem Booked.held_at_rest (h : Booked links c log) (hrest : ∀ t, (c.threads t).Rests) (p : P) :
    heldBytes c p = ∑ t, (c.threads t).recordBytes c.shared p := by
  refine Finset.sum_congr rfl fun t _ => ?_
  have hok := h.sane.ok t
  have ht := hrest t
  cases hcall : c.threads t with
  | idle => rfl
  | wait s r id =>
    rw [hcall] at hok
    obtain ⟨rec, hw⟩ := hok
    simp [Call.bytes, Call.recordBytes, hw.record, hw.chargedSize]
  | _ =>
    rw [hcall] at ht
    exact ht.elim

theorem alpcPool_run {steps : List (Step Tid P)}
    (hrun : Refine.run exec links.initial steps = some (c, log)) : PoolAccounts links c log := by
  have h := run_booked hrun
  refine ⟨h.ledger.pool, fun hrest p hp => ?_, fun r hr => ?_, h.ledger.under, h.conserved,
    h.closes, fun p entry hin => ?_, fun k => ⟨(h.ledger.tokens k).symm, h.ledger.once k⟩⟩
  · rw [← h.held_at_rest hrest p]
    exact h.ledger.pool p hp
  · obtain ⟨t, ht⟩ := h.sane.owned hr
    exact ⟨t, ht, fun u hu => h.sane.apart hu ht⟩
  · rcases h.built p entry hin with rfl | ⟨htype, hsize⟩
    · exact ⟨⟨fun _ => rfl, fun _ => rfl⟩, fun _ => rfl, fun hne => absurd rfl hne⟩
    · refine ⟨⟨fun heq => absurd heq htype, fun hzero => ?_⟩, fun heq => absurd heq htype,
        fun _ => hsize⟩
      rw [hsize] at hzero
      exact absurd hzero (by simp [sizeofEntry])

/-- Two ports that are linked to each other. -/
def pairLinks : Links Bool where
  peer p := some !p
  symm h := by
    obtain rfl := Option.some.inj h
    simp
  maxPoolUsage _ := 4096
  maxMessageLength _ := 0

/-- The memory there is, and nothing runs out of time. -/
def plenty : Oracle := ⟨true, .granted, false⟩

/-- A datagram is sent, and received. -/
def datagramSteps : List (Step Bool Bool) :=
  Step.turn true (.begin (.datagram false [7])) ::
    (List.replicate 8 (Step.turn true (.go plenty)) ++
      Step.turn false (.begin (.receive true 64)) ::
        List.replicate 4 (Step.turn false (.go plenty)))

theorem alpcPool_run_datagram :
    ∃ c log, Refine.run exec (pairLinks.initial : Machine Bool Bool) datagramSteps =
        some (c, log) ∧ destroyed log = [0] ∧ PoolAccounts pairLinks c log := by
  obtain ⟨c, log, hrun, hdestroyed⟩ : ∃ c log,
      Refine.run exec (pairLinks.initial : Machine Bool Bool) datagramSteps = some (c, log) ∧
        destroyed log = [0] := ⟨_, _, rfl, rfl⟩
  exact ⟨c, log, hrun, hdestroyed, alpcPool_run hrun⟩

end ImpossibleOs.Ipc.Alpc
