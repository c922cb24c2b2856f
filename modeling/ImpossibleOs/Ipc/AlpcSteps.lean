import ImpossibleOs.Ipc.AlpcInv

/-!
What one step does to the records.
-/

namespace ImpossibleOs.Ipc.Alpc

open List
open Option hiding any_eq_false

open Function (update)

variable {P : Type} [DecidableEq P]
variable {links : Links P} {m m' : Mem P} {call call' : Call P} {es : List (Event P)} {ev : Event P}

/-- A step keeps the records in order. What it does to records of others is said by `Follows`. -/
structure Turn (links : Links P) (m : Mem P) (es : List (Event P)) (call : Call P) (m' : Mem P)
    (call' : Call P) (ev : Event P) : Prop where
  mem : m'.Ok links
  told : Told m' (es ++ [ev])
  ok : call'.Ok links m' (es ++ [ev])
  follows : ∀ r, m.record r ≠ none → r ∉ call.held → Follows links m m' ev r
  held : ∀ r ∈ call'.held, r ∈ call.held ∨ m.record r = none
  owned : ∀ r, m'.record r ≠ none → r ∈ call'.held ∨ (m.record r ≠ none ∧ r ∉ call.held)
  disconnected : ∀ p, (m.port p).disconnected = true → (m'.port p).disconnected = true

abbrev Turns (links : Links P) (m : Mem P) (es : List (Event P)) (call : Call P)
    (out : Outcome P) : Prop := Turn links m es call out.1.1 out.1.2 out.2

/-! ### Steps that leave the records alone -/

structure Same (m m' : Mem P) : Prop where
  record : m'.record = m.record
  nextRecord : m'.nextRecord = m.nextRecord
  fault : m'.fault = m.fault
  pending : ∀ p, (m'.port p).pendingQueue = (m.port p).pendingQueue
  disconnected : ∀ p, (m'.port p).disconnected = (m.port p).disconnected
  connectedPort : ∀ p, (m'.port p).connectedPort = (m.port p).connectedPort

omit [DecidableEq P] in
theorem Same.refl (m : Mem P) : Same m m :=
  ⟨rfl, rfl, rfl, fun _ => rfl, fun _ => rfl, fun _ => rfl⟩

theorem setPort_self (m : Mem P) (p : P) (port : Port P) : (m.setPort p port).port p = port :=
  Function.update_self ..

theorem setPort_other (m : Mem P) {p q : P} (port : Port P) (h : q ≠ p) :
    (m.setPort p port).port q = m.port q :=
  Function.update_of_ne h ..

variable {s : Send P} {peer : P} {port : Port P} {r : ℕ} {rs : List ℕ} {p : P} {entry : Entry}

theorem setPort_field {W : Type*} (field : Port P → W) (m : Mem P)
    (h : field port = field (m.port p)) (q : P) : field ((m.setPort p port).port q) =
      field (m.port q) := by
  by_cases hq : q = p
  · rw [hq, setPort_self, h]
  · rw [setPort_other m port hq]

theorem same_setPort (hpending : port.pendingQueue = (m.port p).pendingQueue)
    (hdisconnected : port.disconnected = (m.port p).disconnected)
    (hconnected : port.connectedPort = (m.port p).connectedPort) : Same m (m.setPort p port) :=
  ⟨rfl, rfl, rfl, setPort_field Port.pendingQueue m hpending,
    setPort_field Port.disconnected m hdisconnected,
    setPort_field Port.connectedPort m hconnected⟩

section

omit [DecidableEq P]

theorem Mem.Ok.same (h : m.Ok links) (hs : Same m m') : m'.Ok links where
  fresh r hr := by
    rw [hs.nextRecord] at hr
    rw [hs.record]
    exact h.fresh r hr
  pending hr := by
    rw [hs.pending] at hr
    rw [hs.record]
    exact h.pending hr
  apart hp hq := by
    rw [hs.pending] at hp hq
    exact h.apart hp hq
  nodup p := by
    rw [hs.pending]
    exact h.nodup p
  drained p hp := by
    rw [hs.disconnected] at hp
    rw [hs.pending]
    exact h.drained p hp
  link hp := by
    rw [hs.connectedPort] at hp
    exact h.link hp
  cut hp hc := by
    rw [hs.connectedPort] at hc
    rw [hs.disconnected]
    exact h.cut hp hc
  fault := by
    rw [hs.fault]
    exact h.fault

theorem off_congr (h : ∀ p, (m'.port p).pendingQueue = (m.port p).pendingQueue) :
    m'.Off r ↔ m.Off r := by
  refine forall_congr' fun p => ?_
  rw [h p]

theorem Told.same (h : Told m es)
    (hpending : ∀ p, (m'.port p).pendingQueue = (m.port p).pendingQueue)
    (hnext : m.nextRecord ≤ m'.nextRecord) (hev : ev.Plain) : Told m' (es ++ [ev]) where
  on hr := by
    rw [hpending] at hr
    rw [countP_snoc, countP_snoc, (hev _).1, (hev _).2]
    exact h.on hr
  off hr := by
    rw [countP_snoc, countP_snoc, (hev _).1, (hev _).2]
    exact h.off ((off_congr hpending).mp hr)
  once r := by
    rw [countP_snoc, (hev r).1]
    exact h.once r
  unborn r hr := by
    rw [countP_snoc, (hev r).1]
    exact h.unborn r (hnext.trans hr)

theorem Same.follows (hs : Same m m') (links : Links P) (hev : ev.Plain) (r : ℕ) :
    Follows links m m' ev r :=
  .same (congrFun hs.record r) (fun p => by rw [hs.pending p]) (hev r).1

end

section

variable (hm : m.Ok links)
include hm

omit [DecidableEq P] in
theorem quiet_turn (ht : Told m es) (hs : Same m m') (hev : ev.Plain)
    (hheld : call'.held = call.held) (hok : call'.Ok links m' (es ++ [ev])) :
    Turn links m es call m' call' ev where
  mem := hm.same hs
  told := ht.same hs.pending hs.nextRecord.ge hev
  ok := hok
  follows r _ _ := hs.follows links hev r
  held r hr := .inl (hheld ▸ hr)
  owned r hr := by
    rw [hs.record] at hr
    rw [hheld]
    by_cases h : r ∈ call.held
    · exact .inl h
    · exact .inr ⟨hr, h⟩
  disconnected p hp := by
    rw [hs.disconnected]
    exact hp

omit hm in
omit [DecidableEq P] in
theorem plain_silent : (Event.silent : Event P).Plain := fun _ => ⟨rfl, rfl⟩

omit [DecidableEq P] in
theorem quiet_turn_trivial (ht : Told m es) (hs : Same m m') (hev : ev.Plain)
    (hheld : call'.held = call.held) (hok : ∀ es', call'.Ok links m' es') :
    Turn links m es call m' call' ev :=
  quiet_turn hm ht hs hev hheld (hok _)

omit [DecidableEq P] in
theorem give_turn (ht : Told m es) (hheld : call.held = []) (status : Status) :
    Turn links m es call m (.unwind [] (.status status)) .silent :=
  quiet_turn_trivial hm ht (Same.refl m) plain_silent hheld.symm
    fun _ => ⟨nodup_nil, nofun, trivial⟩

/-! ### The way out of a send -/

omit hm in
omit [DecidableEq P] in
theorem recordReleases_records (m : Mem P) (p : P) (r : Option ℕ) :
    (m.recordReleases p r).filterMap Release.record? = r.toList := by
  cases r with
  | none => rfl
  | some r => rfl

omit [DecidableEq P] in
theorem unwind_turn (ht : Told m es) {r : Option ℕ}
    (hp : Private m es s r) (hheld : call.held = r.toList) {l : List (Release P)}
    (hl : l.filterMap Release.record? = []) (status : Status) :
    Turn links m es call m (.unwind (l ++ m.recordReleases s.port r) (.status status)) .silent := by
  have hrecords : (l ++ m.recordReleases s.port r).filterMap Release.record? = r.toList := by
    rw [filterMap_append, hl, recordReleases_records]
    rfl
  refine quiet_turn hm ht (Same.refl m) plain_silent (hrecords.trans hheld.symm)
    ⟨?_, fun r' hr' => ?_, trivial⟩
  · rw [hrecords]
    cases r with
    | none => exact nodup_nil
    | some r => exact nodup_singleton r
  · rw [hrecords] at hr'
    obtain rfl := Option.mem_toList.mp hr'
    obtain ⟨rec, hrec, -, -, -, hoff, -⟩ := hp
    exact ⟨by simp [hrec], hoff⟩

omit hm in
theorem reserve_same {size : ℕ}
    (h : (m.port p).reserve size = some port) : Same m (m.setPort p port) := by
  unfold Port.reserve at h
  split at h
  · cases h
  · obtain rfl := some.inj h
    exact same_setPort rfl rfl rfl

omit [DecidableEq P] in
theorem goSend_turn (ht : Told m es) (s : Send P) : Turns links m es (.send s) (goSend m s) := by
  unfold goSend
  split
  · exact give_turn hm ht rfl _
  · split
    · exact give_turn hm ht rfl _
    · rename_i peer hpeer
      exact quiet_turn_trivial hm ht (Same.refl m) plain_silent rfl fun _ => hm.link hpeer

omit [DecidableEq P] in
theorem goCheckPeer_turn (ht : Told m es) (h : (Call.checkPeer s peer).Ok links m es) :
    Turns links m es (.checkPeer s peer) (goCheckPeer m s peer) := by
  unfold goCheckPeer
  split
  · exact give_turn hm ht rfl _
  · split
    · rename_i hcap
      exact quiet_turn_trivial hm ht (Same.refl m) plain_silent rfl fun _ => ⟨h, hcap⟩
    · rename_i cap hcap
      exact quiet_turn_trivial hm ht (Same.refl m) plain_silent rfl fun _ => ⟨h, hcap⟩

theorem goReserveRecord_turn (ht : Told m es) {cap : ℕ}
    (h : (Call.reserveRecord s peer cap).Ok links m es) :
    Turns links m es (.reserveRecord s peer cap) (goReserveRecord m s peer cap) := by
  unfold goReserveRecord
  split
  · exact give_turn hm ht rfl _
  · split
    · exact give_turn hm ht rfl _
    · rename_i port hport
      exact quiet_turn_trivial hm ht (reserve_same hport) (fun _ => ⟨rfl, rfl⟩) rfl fun _ => h

theorem goReserve_turn (ht : Told m es) {r : Option ℕ} (h : (Call.reserve s peer r).Ok links m es) :
    Turns links m es (.reserve s peer r) (goReserve m s peer r) := by
  unfold goReserve
  split
  · exact unwind_turn hm ht (l := []) h.2 rfl rfl _
  · split
    · exact unwind_turn hm ht (l := []) h.2 rfl rfl _
    · rename_i port hport
      have hs := reserve_same hport
      have hplain : (Event.charged peer s.entrySize : Event P).Plain := fun _ => ⟨rfl, rfl⟩
      exact quiet_turn hm ht hs hplain rfl
        ⟨h.1, h.2.stable fun r _ => hs.follows links hplain r⟩

omit [DecidableEq P] in
theorem goCharge_turn (ht : Told m es) {r : Option ℕ}
    (h : (Call.charge s peer r).Ok links m es) (o : Oracle) :
    Turns links m es (.charge s peer r) (goCharge m s peer r o) := by
  unfold goCharge
  split
  · exact unwind_turn hm ht (l := [.bytes peer s.entrySize]) h.2 rfl rfl _
  · exact quiet_turn hm ht (Same.refl m) plain_silent rfl
      ⟨h.1, h.2.stable fun r _ => (Same.refl m).follows links plain_silent r⟩
  · have hs : Same m { m with nextToken := m.nextToken + 1 } :=
      ⟨rfl, rfl, rfl, fun _ => rfl, fun _ => rfl, fun _ => rfl⟩
    have hplain : (Event.quotaCharged m.nextToken : Event P).Plain := fun _ => ⟨rfl, rfl⟩
    exact quiet_turn hm ht hs hplain rfl
      ⟨h.1, h.2.stable fun r _ => hs.follows links hplain r⟩

omit [DecidableEq P] in
theorem goAllocate_turn (ht : Told m es)
    {r token : Option ℕ} (h : (Call.allocate s peer r token).Ok links m es) (o : Oracle) :
    Turns links m es (.allocate s peer r token) (goAllocate m s peer r token o) := by
  unfold goAllocate
  split
  · exact quiet_turn hm ht (Same.refl m) plain_silent rfl
      ⟨h.1, h.2.stable fun r _ => (Same.refl m).follows links plain_silent r⟩
  · exact unwind_turn hm ht (l := [.message token, .bytes peer s.entrySize]) h.2 rfl rfl _

omit [DecidableEq P] in
theorem goMakeRecord_turn (ht : Told m es) {cap : ℕ}
    (h : (Call.makeRecord s peer cap).Ok links m es) (o : Oracle) :
    Turns links m es (.makeRecord s peer cap) (goMakeRecord m s peer cap o) := by
  unfold goMakeRecord
  split
  · have hfree : m.record m.nextRecord = none := hm.fresh _ le_rfl
    have hother : ∀ {r rec}, r ≠ m.nextRecord →
        (m.setRecord m.nextRecord rec).record r = m.record r :=
      fun hr => Function.update_of_ne hr _ _
    have hself : ∀ {rec}, (m.setRecord m.nextRecord rec).record m.nextRecord = some rec :=
      Function.update_self ..
    have hold : ∀ {r}, m.record r ≠ none → r ≠ m.nextRecord := by
      rintro r hr rfl
      exact hr hfree
    refine ⟨⟨fun r hr => ?_, fun {p r} hr => ?_, hm.apart, hm.nodup, hm.drained, hm.link, hm.cut,
        hm.fault⟩, ht.same (fun _ => rfl) (Nat.le_succ _) plain_silent, ⟨h.1, ?_⟩,
      fun r hr _ => ?_, fun r hr => ?_, fun r hr => ?_, fun _ hp => hp⟩
    · have hlt : m.nextRecord < r := hr
      exact (hother hlt.ne').trans (hm.fresh r hlt.le)
    · obtain ⟨rec, hrec, hc⟩ := hm.pending hr
      have hne : r ≠ m.nextRecord := hold (by simp [hrec])
      exact ⟨rec, (hother hne).trans hrec, hc⟩
    · refine ⟨_, hself, rfl, ?_, h.2, fun p hp => ?_, ?_⟩
      · rw [Send.recordCharge, h.2]
        rfl
      · obtain ⟨rec, hrec, -⟩ := hm.pending hp
        rw [hfree] at hrec
        cases hrec
      · rw [countP_snoc, ht.unborn _ le_rfl]
        rfl
    · exact .same (hother (hold hr)) (fun _ => Iff.rfl) rfl
    · obtain rfl := mem_singleton.mp hr
      exact .inr hfree
    · by_cases hne : r = m.nextRecord
      · exact .inl (mem_singleton.mpr hne)
      · exact .inr ⟨(hother hne) ▸ hr, not_mem_nil⟩
  · exact quiet_turn_trivial hm ht (Same.refl m) plain_silent rfl
      fun _ => ⟨nodup_nil, nofun, trivial⟩

theorem goStamp_turn (ht : Told m es)
    {r token : Option ℕ} (h : (Call.stamp s peer r token).Ok links m es) :
    Turns links m es (.stamp s peer r token) (goStamp m s peer r token) := by
  have hs : Same m (m.setPort s.port { m.port s.port with
      nextMessageId := ((m.port s.port).nextMessageId + 1) % 2 ^ 64 }) := same_setPort rfl rfl rfl
  cases r with
  | none =>
    exact quiet_turn hm ht hs plain_silent rfl
      ⟨h.1, h.2.stable fun r _ => hs.follows links plain_silent r, nofun⟩
  | some r =>
    obtain ⟨rec, hrec, hcompleted, hcharge, hcap, hoff, hcount⟩ := h.2
    unfold goStamp
    simp only [hrec]
    generalize m.setPort s.port { m.port s.port with
      nextMessageId := ((m.port s.port).nextMessageId + 1) % 2 ^ 64 } = m₁ at hs
    generalize (m.port s.port).nextMessageId = id
    have hself : (m₁.setRecord r { rec with messageId := id }).record r =
        some { rec with messageId := id } := Function.update_self ..
    have hother : ∀ {r'}, r' ≠ r →
        (m₁.setRecord r { rec with messageId := id }).record r' = m.record r' :=
      fun hr => (Function.update_of_ne hr _ _).trans (congrFun hs.record _)
    show Turn links m es _ (m₁.setRecord r { rec with messageId := id })
      (.enqueue s peer (some r) ⟨id, .request, s.body, s.entrySize, token⟩) .silent
    have hok := hm.same hs
    have hoff' : m₁.Off r := (off_congr hs.pending).mpr hoff
    have hother' : ∀ {r' p}, r' ∈ (m₁.port p).pendingQueue → r' ≠ r := by
      rintro r' p hr' rfl
      exact hoff' p hr'
    refine ⟨⟨fun r' hr' => ?_, fun {p r'} hr' => ?_, hok.apart, hok.nodup, hok.drained, hok.link,
        hok.cut, hok.fault⟩, ht.same hs.pending hs.nextRecord.ge plain_silent,
      ⟨h.1, ⟨_, hself, hcompleted, hcharge, hcap, hoff', ?_⟩, fun r' hr' => ?_⟩,
      fun r' hr' hheld => ?_, fun r' hr' => .inl hr', fun r' hr' => ?_, fun p hp => ?_⟩
    · rw [hother]
      · rw [← congrFun hs.record r']
        exact hok.fresh r' hr'
      · rintro rfl
        have hnone := hok.fresh r' hr'
        rw [congrFun hs.record, hrec] at hnone
        cases hnone
    · rw [hother (hother' hr'), ← congrFun hs.record r']
      exact hok.pending hr'
    · rw [countP_snoc, hcount]
      rfl
    · obtain rfl := some.inj hr'
      rw [hself]
      rfl
    · have hne : r' ≠ r := fun heq => hheld (by rw [heq]; exact mem_singleton_self r)
      exact .same (hother hne) (fun p => iff_of_eq (congrArg (r' ∈ ·) (hs.pending p))) rfl
    · by_cases hne : r' = r
      · exact .inl (mem_singleton.mpr hne)
      · rw [hother hne] at hr'
        exact .inr ⟨hr', fun hin => hne (mem_singleton.mp hin)⟩
    · have hd := hs.disconnected p
      rw [hp] at hd
      exact hd

/-! ### Into the queues -/

omit [DecidableEq P] in
theorem refuse_turn (ht : Told m es) {r : Option ℕ}
    (h : (Call.enqueue s peer r entry).Ok links m es) :
    Turns links m es (.enqueue s peer r entry) (refuse m s peer r entry) :=
  unwind_turn hm ht (l := [.bytes peer entry.chargedSize, .message entry.token]) h.2.1 rfl rfl _

end

/-- Both queues of a request that was accepted. -/
structure Asks (m m' : Mem P) (s : Send P) (r : ℕ) : Prop where
  record : m'.record = m.record
  nextRecord : m'.nextRecord = m.nextRecord
  fault : m'.fault = m.fault
  pending : ∀ p, (m'.port p).pendingQueue =
    (m.port p).pendingQueue ++ if p = s.port then [r] else []
  disconnected : ∀ p, (m'.port p).disconnected = (m.port p).disconnected
  connectedPort : ∀ p, (m'.port p).connectedPort = (m.port p).connectedPort

theorem goEnqueue_asks (m : Mem P) (s : Send P) (peer : P) (r : ℕ) (entry : Entry) :
    let m₁ := m.setPort s.port { m.port s.port with
      pendingQueue := (m.port s.port).pendingQueue ++ [r] }
    Asks m (m₁.setPort peer ((m₁.port peer).enqueue entry)) s r := by
  intro m₁
  have hsame : Same m₁ (m₁.setPort peer ((m₁.port peer).enqueue entry)) :=
    same_setPort rfl rfl rfl
  refine ⟨rfl, rfl, rfl, fun p => ?_, fun p => ?_, fun p => ?_⟩
  · rw [hsame.pending]
    by_cases hp : p = s.port
    · rw [hp, setPort_self, if_pos rfl]
    · rw [setPort_other m _ hp, if_neg hp, append_nil]
  · rw [hsame.disconnected]
    exact setPort_field Port.disconnected m (by rfl) p
  · rw [hsame.connectedPort]
    exact setPort_field Port.connectedPort m (by rfl) p

theorem Asks.mem (ha : Asks m m' s r) {r' : ℕ} : r' ∈ (m'.port p).pendingQueue ↔
      r' ∈ (m.port p).pendingQueue ∨ (p = s.port ∧ r' = r) := by
  rw [ha.pending, mem_append]
  by_cases hp : p = s.port
  · rw [if_pos hp, mem_singleton]
    exact or_congr Iff.rfl ⟨fun h => ⟨hp, h⟩, And.right⟩
  · rw [if_neg hp]
    exact or_congr Iff.rfl ⟨fun h => absurd h not_mem_nil, fun h => absurd h.1 hp⟩

theorem Asks.mem_other (ha : Asks m m' s r) {r' : ℕ} (hr : r' ≠ r) (p : P) :
    r' ∈ (m'.port p).pendingQueue ↔ r' ∈ (m.port p).pendingQueue := by
  rw [ha.mem]
  exact or_iff_left fun h => hr h.2

theorem ask_turn (hm : m.Ok links) (ht : Told m es)
    (h : (Call.enqueue s peer (some r) entry).Ok links m es)
    (ha : Asks m m' s r) (hopen : (m.port s.port).disconnected = false) :
    Turn links m es (.enqueue s peer (some r) entry) m' (.wait s r entry.messageId)
      (.accepted peer entry (some ⟨s.port, r, s.replyCap.getD 0⟩)) := by
  obtain ⟨-, ⟨rec, hrec, hcompleted, hcharge, hcap, hoff, hcount⟩, hid⟩ := h
  have hid' : rec.messageId = entry.messageId := by
    have := hid r rfl
    rw [hrec] at this
    exact some.inj this
  have henq : ∀ r', (Event.accepted peer entry (some ⟨s.port, r, s.replyCap.getD 0⟩) :
      Event P).enqueues r' = decide (r = r') := fun _ => rfl
  have hrem : ∀ r', (Event.accepted peer entry (some ⟨s.port, r, s.replyCap.getD 0⟩) :
      Event P).removes r' = false := fun _ => rfl
  have hother : ∀ {r'}, r' ≠ r → ∀ p, r' ∈ (m'.port p).pendingQueue ↔
      r' ∈ (m.port p).pendingQueue := fun hr p => ha.mem_other hr p
  refine ⟨⟨fun r' hr' => ?_, fun {p r'} hr' => ?_, fun {p q r'} hp hq => ?_, fun p => ?_,
      fun p hp => ?_, fun hp => ?_, fun hp hc => ?_, ha.fault.trans hm.fault⟩,
    ⟨fun {p r'} hr' => ?_, fun {r'} hr' => ?_, fun r' => ?_, fun r' hr' => ?_⟩,
    ⟨rec, ?_, hid', hcharge, hcap, ⟨peer, entry, ?_, rfl⟩, fun _ => ?_, fun hc => ?_⟩,
    fun r' hr' hheld => ?_, fun r' hr' => .inl hr', fun r' hr' => ?_, fun p hp => ?_⟩
  · rw [ha.record]
    exact hm.fresh r' (ha.nextRecord ▸ hr')
  · rw [ha.record]
    rcases ha.mem.mp hr' with hold | ⟨-, rfl⟩
    · exact hm.pending hold
    · exact ⟨rec, hrec, hcompleted⟩
  · rcases ha.mem.mp hp with hp' | ⟨rfl, rfl⟩
    · rcases ha.mem.mp hq with hq' | ⟨rfl, rfl⟩
      · exact hm.apart hp' hq'
      · exact absurd hp' (hoff p)
    · rcases ha.mem.mp hq with hq' | ⟨rfl, -⟩
      · exact absurd hq' (hoff q)
      · rfl
  · rw [ha.pending]
    by_cases hp : p = s.port
    · rw [if_pos hp]
      refine nodup_append.mpr ⟨hm.nodup p, nodup_singleton r, ?_⟩
      rintro a hin b hb rfl
      obtain rfl := mem_singleton.mp hb
      exact hoff p hin
    · rw [if_neg hp, append_nil]
      exact hm.nodup p
  · rw [ha.disconnected] at hp
    have hne : p ≠ s.port := by
      rintro rfl
      rw [hopen] at hp
      cases hp
    rw [ha.pending, if_neg hne, append_nil]
    exact hm.drained p hp
  · rw [ha.connectedPort] at hp
    exact hm.link hp
  · rw [ha.connectedPort] at hc
    rw [ha.disconnected]
    exact hm.cut hp hc
  · rw [countP_snoc, countP_snoc, henq, hrem]
    by_cases hr : r' = r
    · subst hr
      have hbal := ht.off hoff
      simp only [decide_true, Bool.toNat_true, Bool.toNat_false]
      omega
    · rw [decide_eq_false (Ne.symm hr)]
      exact ht.on ((hother hr p).mp hr')
  · rw [countP_snoc, countP_snoc, henq, hrem]
    have hr : r' ≠ r := by
      rintro rfl
      exact hr' s.port (ha.mem.mpr (.inr ⟨rfl, rfl⟩))
    rw [decide_eq_false (Ne.symm hr)]
    exact ht.off fun p hp => hr' p ((hother hr p).mpr hp)
  · rw [countP_snoc, henq]
    by_cases hr : r' = r
    · subst hr
      rw [hcount, decide_eq_true rfl]
      exact le_rfl
    · rw [decide_eq_false (Ne.symm hr)]
      exact ht.once r'
  · rw [countP_snoc, henq]
    rw [ha.nextRecord] at hr'
    have hr : r' ≠ r := by
      rintro rfl
      rw [hm.fresh r' hr'] at hrec
      cases hrec
    rw [decide_eq_false (Ne.symm hr)]
    exact ht.unborn r' hr'
  · rw [ha.record]
    exact hrec
  · rw [hcap]
    simp
  · exact ha.mem.mpr (.inr ⟨rfl, rfl⟩)
  · rw [hcompleted] at hc
    cases hc
  · have hr : r' ≠ r := fun heq => hheld (by rw [heq]; exact mem_singleton_self r)
    refine .same (congrFun ha.record r') (hother hr) ?_
    rw [henq, decide_eq_false (Ne.symm hr)]
  · rw [ha.record] at hr'
    by_cases hr : r' = r
    · exact .inl (mem_singleton.mpr hr)
    · exact .inr ⟨hr', fun hin => hr (mem_singleton.mp hin)⟩
  · rw [ha.disconnected]
    exact hp

theorem goEnqueue_turn (hm : m.Ok links) (ht : Told m es) {r : Option ℕ}
    (h : (Call.enqueue s peer r entry).Ok links m es) :
    Turns links m es (.enqueue s peer r entry) (goEnqueue m s peer r entry) := by
  unfold goEnqueue
  cases r with
  | none =>
    simp only
    split
    · exact refuse_turn hm ht h
    · exact quiet_turn_trivial hm ht (same_setPort rfl rfl rfl) (fun _ => ⟨rfl, rfl⟩) rfl
        fun _ => ⟨nodup_nil, nofun, trivial⟩
  | some r =>
    simp only
    split
    · exact refuse_turn hm ht h
    · rename_i hopen
      rw [Bool.or_eq_true, not_or, Bool.not_eq_true] at hopen
      exact ask_turn hm ht h (goEnqueue_asks m s peer r entry) hopen.1

/-! ### Out of the queues -/

omit [DecidableEq P] in
theorem touch_eq (h : ∀ r ∈ rs, m.record r ≠ none) : m.touch rs = m := by
  have hany : (rs.any fun r => (m.record r).isNone) = false := by
    rw [any_eq_false]
    intro r hr hnone
    exact h r hr (Option.isNone_iff_eq_none.mp hnone)
  unfold Mem.touch
  rw [hany, Bool.or_false]

omit [DecidableEq P] in
theorem touch_pending (hm : m.Ok links) (p : P) : m.touch (m.port p).pendingQueue = m := by
  refine touch_eq fun r hr => ?_
  obtain ⟨rec, hrec, -⟩ := hm.pending hr
  rw [hrec]
  exact some_ne_none rec

/-- The records `rs` of one queue leave it. -/
structure Leaves (m m' : Mem P) (rs : List ℕ) : Prop where
  queued : ∀ r ∈ rs, ∃ p, r ∈ (m.port p).pendingQueue
  pending : ∀ p r, r ∈ (m'.port p).pendingQueue ↔ r ∈ (m.port p).pendingQueue ∧ r ∉ rs
  nodup : ∀ p, (m'.port p).pendingQueue.Nodup
  record : ∀ r, r ∉ rs → m'.record r = m.record r
  nextRecord : m'.nextRecord = m.nextRecord
  fault : m'.fault = m.fault
  disconnected : ∀ p, (m.port p).disconnected = true → (m'.port p).disconnected = true
  drained : ∀ p, (m'.port p).disconnected = true → (m'.port p).pendingQueue = []
  link : ∀ p q, (m'.port p).connectedPort = some q → (m.port p).connectedPort = some q
  cut : ∀ p, (m'.port p).connectedPort = none →
    (m.port p).connectedPort = none ∨ (m'.port p).disconnected = true

section

variable (hl : Leaves m m' rs)
include hl

section

omit [DecidableEq P]

theorem Leaves.mem (hm : m.Ok links) : m'.Ok links where
  fresh r hr := by
    rw [hl.nextRecord] at hr
    have hnone := hm.fresh r hr
    rw [hl.record r]
    · exact hnone
    · intro hin
      obtain ⟨p, hp⟩ := hl.queued r hin
      obtain ⟨rec, hrec, -⟩ := hm.pending hp
      rw [hrec] at hnone
      cases hnone
  pending hr := by
    obtain ⟨hold, hout⟩ := (hl.pending _ _).mp hr
    rw [hl.record _ hout]
    exact hm.pending hold
  apart hp hq := hm.apart ((hl.pending _ _).mp hp).1 ((hl.pending _ _).mp hq).1
  nodup := hl.nodup
  drained := hl.drained
  link hp := hm.link (hl.link _ _ hp)
  cut hp hc := by
    rcases hl.cut _ hc with hold | hd
    · exact hl.disconnected _ (hm.cut hp hold)
    · exact hd
  fault := hl.fault.trans hm.fault

theorem Leaves.told (ht : Told m es)
    (henq : ∀ r, ev.enqueues r = false) (hrem : ∀ r, ev.removes r = decide (r ∈ rs)) :
    Told m' (es ++ [ev]) where
  on hr := by
    obtain ⟨hold, hout⟩ := (hl.pending _ _).mp hr
    rw [countP_snoc, countP_snoc, henq, hrem, decide_eq_false hout]
    exact ht.on hold
  off {r} hr := by
    rw [countP_snoc, countP_snoc, henq, hrem]
    by_cases hin : r ∈ rs
    · obtain ⟨p, hp⟩ := hl.queued r hin
      rw [decide_eq_true hin]
      exact ht.on hp
    · rw [decide_eq_false hin]
      exact ht.off fun p hp => hr p ((hl.pending p r).mpr ⟨hp, hin⟩)
  once r := by
    rw [countP_snoc, henq]
    exact ht.once r
  unborn r hr := by
    rw [countP_snoc, henq]
    exact ht.unborn r (hl.nextRecord ▸ hr)

theorem Leaves.off (hr : r ∈ rs) : m'.Off r :=
  fun p hp => ((hl.pending p r).mp hp).2 hr

theorem Leaves.same (henq : ∀ r, ev.enqueues r = false) (hr : r ∉ rs) : Follows links m m' ev r :=
  .same (hl.record r hr) (fun p => (hl.pending p r).trans (and_iff_left hr)) (henq r)

end

end

section

variable (hm : m.Ok links)
include hm

theorem erase_leaves (hr : r ∈ (m.port p).pendingQueue)
    (hrecord : ∀ r', r' ≠ r → m'.record r' = m.record r') (hnext : m'.nextRecord = m.nextRecord)
    (hfault : m'.fault = m.fault) (hport : m'.port = (m.setPort p { m.port p with
      pendingQueue := (m.port p).pendingQueue.erase r }).port) : Leaves m m' [r] := by
  have hpending : ∀ q, (m'.port q).pendingQueue = (m.port q).pendingQueue.erase r := by
    intro q
    rw [hport]
    by_cases hq : q = p
    · rw [hq, setPort_self]
    · rw [setPort_other m _ hq]
      exact (erase_of_not_mem fun h => hq (hm.apart h hr)).symm
  have hdisconnected : ∀ q, (m'.port q).disconnected = (m.port q).disconnected := by
    intro q
    rw [hport]
    exact setPort_field Port.disconnected m (by rfl) q
  have hconnected : ∀ q, (m'.port q).connectedPort = (m.port q).connectedPort := by
    intro q
    rw [hport]
    exact setPort_field Port.connectedPort m (by rfl) q
  refine ⟨fun r' hr' => ?_, fun q r' => ?_, fun q => ?_, fun r' hr' => ?_, hnext, hfault,
    fun q hq => ?_, fun q hq => ?_, fun q x hx => ?_, fun q hq => ?_⟩
  · obtain rfl := mem_singleton.mp hr'
    exact ⟨p, hr⟩
  · rw [hpending, (hm.nodup q).mem_erase_iff, mem_singleton, and_comm]
  · rw [hpending]
    exact (hm.nodup q).erase r
  · exact hrecord r' fun h => hr' (mem_singleton.mpr h)
  · rw [hdisconnected]
    exact hq
  · rw [hdisconnected] at hq
    rw [hpending, hm.drained q hq]
    rfl
  · rwa [hconnected] at hx
  · rw [hconnected] at hq
    exact .inl hq

theorem goReplyOn_turn (ht : Told m es) {p peer : P} {id : ℕ}
    {body : List UInt8} (h : (Call.replyOn p peer id body).Ok links m es) :
    Turns links m es (.replyOn p peer id body) (goReplyOn m p peer id body) := by
  unfold goReplyOn
  simp only [touch_pending hm peer]
  split
  · exact give_turn hm ht rfl _
  · rename_i r hfind
    split
    · exact give_turn hm ht rfl _
    · rename_i rec hrec
      have hmem : r ∈ (m.port peer).pendingQueue := mem_of_find?_eq_some hfind
      have hid : rec.messageId = id := by
        have := List.find?_some hfind
        rw [hrec] at this
        simpa using this
      have hl : Leaves m ((m.setPort peer { m.port peer with
          pendingQueue := (m.port peer).pendingQueue.erase r }).setRecord r
            { rec with replyBody := body.take rec.replyBodyCap, completed := true,
                       replyStatus := .success }) [r] :=
        erase_leaves hm hmem (fun r' hr' => Function.update_of_ne hr' _ _) rfl rfl rfl
      have henq : ∀ r', (Event.replied p peer r id body : Event P).enqueues r' = false :=
        fun _ => rfl
      refine ⟨hl.mem hm, hl.told ht henq fun r' => ?_, ⟨nodup_nil, nofun, trivial⟩,
        fun r' hr' _ => ?_, nofun, fun r' hr' => .inr ⟨?_, not_mem_nil⟩, hl.disconnected⟩
      · simp [Event.removes, eq_comm]
      · by_cases hr : r' = r
        · subst hr
          refine .done peer rec _ hmem hrec (Function.update_self ..) rfl ⟨rfl, rfl, rfl⟩
            (.inl ⟨rfl, p, body, ?_, h, rfl⟩) (hl.off (mem_singleton_self r'))
          rw [← hid]
        · exact hl.same henq fun hin => hr (mem_singleton.mp hin)
      · by_cases hr : r' = r
        · rw [hr, hrec]
          exact some_ne_none rec
        · rwa [hl.record r' fun hin => hr (mem_singleton.mp hin)] at hr'

theorem goWait_turn (ht : Told m es) {r id : ℕ} (h : (Call.wait s r id).Ok links m es) :
    Turns links m es (.wait s r id) (goWait m s r id) := by
  obtain ⟨rec, hw⟩ := h
  unfold goWait
  simp only [hw.record, touch_pending hm s.port]
  split
  · rename_i hcompleted
    have hoff : m.Off r := by
      intro p hp
      obtain ⟨rec', hrec', hwaiting⟩ := hm.pending hp
      obtain rfl : rec = rec' := some.inj (hw.record.symm.trans hrec')
      rw [hcompleted] at hwaiting
      cases hwaiting
    refine quiet_turn hm ht (Same.refl m) plain_silent rfl
      ⟨nodup_singleton r, fun r' hr' => ?_, ?_⟩
    · obtain rfl := mem_singleton.mp hr'
      exact ⟨fun hnone => some_ne_none _ (hw.record.symm.trans hnone), hoff⟩
    · rcases hw.completed hcompleted with ⟨hs, hreplied⟩ | ⟨hs, -⟩
      · rw [if_pos hs]
        rw [hw.messageId] at hreplied
        exact ⟨s.port, rec.replyBodyCap, hreplied.grow .silent⟩
      · rw [if_neg (by simp [hs])]
        trivial
  · rename_i hcompleted
    have hmem : r ∈ (m.port s.port).pendingQueue := hw.pending (by simpa using hcompleted)
    rw [if_pos hmem]
    have hl : Leaves m (m.setPort s.port { m.port s.port with
        pendingQueue := (m.port s.port).pendingQueue.erase r }) [r] :=
      erase_leaves hm hmem (fun _ _ => rfl) rfl rfl rfl
    have henq : ∀ r', (Event.timedOut s.port r : Event P).enqueues r' = false := fun _ => rfl
    have hown : ∀ {r'}, r' ∉ (Call.wait s r id).held → r' ∉ [r] := fun h => h
    refine ⟨hl.mem hm, hl.told ht henq fun r' => ?_,
      ⟨nodup_singleton r, fun r' hr' => ?_, trivial⟩, fun r' _ hr' => ?_,
      fun r' hr' => .inl hr', fun r' hr' => ?_, hl.disconnected⟩
    · simp [Event.removes, eq_comm]
    · obtain rfl := mem_singleton.mp hr'
      exact ⟨by simp [Mem.setPort, hw.record], hl.off (mem_singleton_self r')⟩
    · exact hl.same henq (hown hr')
    · by_cases hr : r' ∈ [r]
      · exact .inl hr
      · exact .inr ⟨hr', hr⟩

/-! ### Disconnects -/

theorem disconnect_leaves (hpending : port.pendingQueue = (m.port p).pendingQueue)
    (hlink : ∀ q, port.connectedPort = some q → (m.port p).connectedPort = some q) :
    Leaves m (m.disconnectPort p port) port.pendingQueue := by
  have hself : (m.disconnectPort p port).port p =
      { port with disconnected := true, pendingQueue := [] } := Function.update_self ..
  have hother : ∀ {q}, q ≠ p → (m.disconnectPort p port).port q = m.port q :=
    fun hq => Function.update_of_ne hq _ _
  refine ⟨fun r hr => ⟨p, hpending ▸ hr⟩, fun q r => ?_, fun q => ?_, fun r hr => if_neg hr, rfl,
    ?_, fun q hq => ?_, fun q hq => ?_, fun q x hx => ?_, fun q hq => ?_⟩
  · by_cases hq : q = p
    · subst hq
      rw [hself, hpending]
      exact iff_of_false not_mem_nil fun h => h.2 h.1
    · rw [hother hq, hpending, iff_self_and]
      exact fun h hin => hq (hm.apart h hin)
  · by_cases hq : q = p
    · rw [hq, hself]
      exact nodup_nil
    · rw [hother hq]
      exact hm.nodup q
  · show (m.touch port.pendingQueue).fault = m.fault
    rw [hpending, touch_pending hm]
  · by_cases h : q = p
    · rw [h, hself]
    · rwa [hother h]
  · by_cases h : q = p
    · rw [h, hself]
    · rw [hother h] at hq ⊢
      exact hm.drained q hq
  · by_cases h : q = p
    · subst h
      rw [hself] at hx
      exact hlink x hx
    · rwa [hother h] at hx
  · by_cases h : q = p
    · rw [h, hself]
      exact .inr rfl
    · rw [hother h] at hq
      exact .inl hq

theorem disconnect_follows (hpending : port.pendingQueue = (m.port p).pendingQueue)
    (hl : Leaves m (m.disconnectPort p port) port.pendingQueue)
    (henq : ∀ r, ev.enqueues r = false) (hdrained : ev.drained = port.pendingQueue) (r : ℕ) :
    Follows links m (m.disconnectPort p port) ev r := by
  by_cases hr : r ∈ port.pendingQueue
  · obtain ⟨rec, hrec, -⟩ := hm.pending (hpending ▸ hr)
    have hrecord : (m.disconnectPort p port).record r = some { rec with
        replyBody := [], completed := true, replyStatus := .portDisconnected } := by
      refine (if_pos hr).trans ?_
      rw [show (m.touch port.pendingQueue).record r = some rec from hrec]
      rfl
    exact .done p rec _ (hpending ▸ hr) hrec hrecord rfl ⟨rfl, rfl, rfl⟩
      (.inr ⟨rfl, hdrained ▸ hr⟩) (hl.off hr)
  · exact hl.same henq hr

omit hm in
theorem disconnect_record (m : Mem P) (p : P) (port : Port P) (r : ℕ) :
    (m.disconnectPort p port).record r = none ↔ m.record r = none := by
  change (if r ∈ port.pendingQueue then _ else m.record r) = none ↔ _
  split
  · exact map_eq_none_iff
  · exact Iff.rfl

theorem disconnect_turn (ht : Told m es) (hpending : port.pendingQueue = (m.port p).pendingQueue)
    (hlink : ∀ q, port.connectedPort = some q → (m.port p).connectedPort = some q)
    (henq : ∀ r, ev.enqueues r = false) (hdrained : ev.drained = port.pendingQueue)
    (hrem : ∀ r, ev.removes r = decide (r ∈ port.pendingQueue)) (hheld : call.held = [])
    (hheld' : call'.held = []) (hok : call'.Ok links (m.disconnectPort p port) (es ++ [ev])) :
    Turn links m es call (m.disconnectPort p port) call' ev := by
  have hl := disconnect_leaves hm hpending hlink
  refine ⟨hl.mem hm, hl.told ht henq hrem, hok,
    fun r _ _ => disconnect_follows hm hpending hl henq hdrained r, fun r hr => ?_,
    fun r hr => .inr ⟨fun hnone => hr ((disconnect_record m p port r).mpr hnone), ?_⟩,
    hl.disconnected⟩
  · rw [hheld'] at hr
    cases hr
  · rw [hheld]
    exact not_mem_nil

theorem goDisconnect_turn (ht : Told m es) (p : P) :
    Turns links m es (.disconnect p) (goDisconnect m p) := by
  unfold goDisconnect
  simp only
  split
  · exact disconnect_turn hm ht rfl nofun (fun _ => rfl) rfl (fun _ => rfl) rfl rfl
      ⟨nodup_nil, nofun, trivial⟩
  · rename_i peer hpeer
    refine disconnect_turn hm ht rfl nofun (fun _ => rfl) rfl (fun _ => rfl) rfl rfl
      ⟨hm.link hpeer, ?_⟩
    rw [Mem.disconnectPort, setPort_self]

theorem goClosing_turn (ht : Told m es) (p peer : P) (o : Oracle) :
    Turns links m es (.closing p peer) (goClosing m p peer o) := by
  unfold goClosing
  exact disconnect_turn hm ht rfl (fun _ h => h) (fun _ => rfl) rfl (fun _ => rfl) rfl rfl
    ⟨nodup_nil, nofun, trivial⟩

/-! ### Receives, and the way out -/

theorem goReceive_turn (ht : Told m es) (p : P) (room : ℕ) (o : Oracle) :
    Turns links m es (.receive p room) (goReceive m p room o) := by
  unfold goReceive
  simp only
  split
  · split
    · exact give_turn hm ht rfl _
    · split
      · exact give_turn hm ht rfl _
      · exact quiet_turn_trivial hm ht (Same.refl m) plain_silent rfl fun _ => trivial
  · exact quiet_turn_trivial hm ht (same_setPort rfl rfl rfl) (fun _ => ⟨rfl, rfl⟩) rfl
      fun _ => ⟨nodup_nil, nofun, trivial⟩

omit [DecidableEq P] in
theorem goReply_turn (ht : Told m es) (p : P) (id : ℕ) (body : List UInt8) :
    Turns links m es (.reply p id body) (goReply m p id body) := by
  unfold goReply
  split
  · exact give_turn hm ht rfl _
  · rename_i peer hpeer
    exact quiet_turn_trivial hm ht (Same.refl m) plain_silent rfl fun _ => hm.link hpeer

omit hm in
theorem uncharge_same (m : Mem P) (p : P) (size : ℕ) :
    Same m (m.setPort p ((m.port p).uncharge size)) := by
  have hfields : ((m.port p).uncharge size).pendingQueue = (m.port p).pendingQueue ∧
      ((m.port p).uncharge size).disconnected = (m.port p).disconnected ∧
        ((m.port p).uncharge size).connectedPort = (m.port p).connectedPort := by
    unfold Port.uncharge
    split
    · exact ⟨rfl, rfl, rfl⟩
    · exact ⟨rfl, rfl, rfl⟩
  exact same_setPort hfields.1 hfields.2.1 hfields.2.2

omit [DecidableEq P] in
theorem free_turn (ht : Told m es) {todo : List (Release P)}
    {result : Result} (h : (Call.unwind (.record r :: todo) result).Ok links m es) :
    Turn links m es (.unwind (.record r :: todo) result) { m with record := update m.record r none }
      (.unwind todo result) .silent := by
  obtain ⟨hnodup, hheld, hresult⟩ := h
  have hnodup' : (r :: todo.filterMap Release.record?).Nodup := hnodup
  have hheld' : ∀ r' ∈ r :: todo.filterMap Release.record?, m.record r' ≠ none ∧ m.Off r' := hheld
  obtain ⟨hfirst, hrest⟩ := nodup_cons.mp hnodup'
  have hoff : m.Off r := (hheld' r mem_cons_self).2
  have hother : ∀ {r'}, r' ≠ r → update m.record r none r' = m.record r' :=
    fun hr => Function.update_of_ne hr _ _
  have hgone : update m.record r none r = none := Function.update_self ..
  refine ⟨⟨fun r' hr' => ?_, fun {p r'} hr' => ?_, hm.apart, hm.nodup, hm.drained, hm.link, hm.cut,
      hm.fault⟩, ht.same (fun _ => rfl) le_rfl plain_silent, ⟨hrest, fun r' hr' => ?_, ?_⟩,
    fun r' _ hr' => ?_, fun r' hr' => .inl (mem_cons_of_mem r hr'), fun r' hr' => ?_,
    fun _ hp => hp⟩
  · by_cases hr : r' = r
    · rw [hr]
      exact hgone
    · exact (hother hr).trans (hm.fresh r' hr')
  · have hr : r' ≠ r := by
      rintro rfl
      exact hoff p hr'
    obtain ⟨rec, hrec, hwaiting⟩ := hm.pending hr'
    exact ⟨rec, (hother hr).trans hrec, hwaiting⟩
  · have hr : r' ≠ r := by
      rintro rfl
      exact hfirst hr'
    obtain ⟨hrec, hoff'⟩ := hheld' r' (mem_cons_of_mem r hr')
    exact ⟨fun hnone => hrec ((hother hr).symm.trans hnone), hoff'⟩
  · cases result with
    | replied r' id body =>
      obtain ⟨p, cap, hr⟩ := hresult
      exact ⟨p, cap, hr.grow .silent⟩
    | status st => trivial
    | received body => trivial
  · have hr : r' ≠ r := fun heq => hr' (heq ▸ mem_cons_self)
    exact .same (hother hr) (fun _ => Iff.rfl) rfl
  · by_cases hr : r' = r
    · rw [hr] at hr'
      exact absurd hgone hr'
    · by_cases hin : r' ∈ todo.filterMap Release.record?
      · exact .inl hin
      · exact .inr ⟨fun hnone => hr' ((hother hr).trans hnone),
          not_mem_cons_of_ne_of_not_mem hr hin⟩

theorem goUnwind_turn (ht : Told m es) {todo : List (Release P)}
    {result : Result} (h : (Call.unwind todo result).Ok links m es) :
    Turns links m es (.unwind todo result) (goUnwind m todo result) := by
  match todo with
  | [] =>
    exact quiet_turn_trivial hm ht (Same.refl m) (fun _ => ⟨rfl, rfl⟩) rfl fun _ => trivial
  | .bytes p size :: todo =>
    have hs := uncharge_same m p size
    have hplain : (Event.uncharged p size : Event P).Plain := fun _ => ⟨rfl, rfl⟩
    have hrest : (Call.unwind todo result).Ok links m es := h
    exact quiet_turn hm ht hs hplain rfl
      (hrest.stable hm (fun r _ => hs.follows links hplain r)
        fun q hq => (hs.disconnected q).trans hq)
  | .message token :: todo =>
    have hplain : (Event.destroyed token : Event P).Plain := fun _ => ⟨rfl, rfl⟩
    have hrest : (Call.unwind todo result).Ok links m es := h
    exact quiet_turn hm ht (Same.refl m) hplain rfl
      (hrest.stable hm (fun r _ => (Same.refl m).follows links hplain r) fun _ hq => hq)
  | .record r :: todo =>
    have hrec : ∀ r' ∈ [r], m.record r' ≠ none := by
      intro r' hr'
      obtain rfl := mem_singleton.mp hr'
      exact (h.2.1 r' mem_cons_self).1
    have hturn := free_turn hm ht h
    simp only [goUnwind, touch_eq hrec]
    exact hturn

omit [DecidableEq P] in
theorem start_turn (ht : Told m es) (req : Request P) : Turns links m es .idle (start m req) := by
  have hquiet : ∀ {call' : Call P}, call'.held = [] → (∀ es', call'.Ok links m es') →
      Turn links m es .idle m call' .silent :=
    fun hheld hok => quiet_turn_trivial hm ht (Same.refl m) plain_silent hheld hok
  cases req with
  | datagram p body =>
    simp only [start]
    split
    · exact give_turn hm ht rfl _
    · exact hquiet rfl fun _ => trivial
  | sync p body recvBufLen =>
    simp only [start]
    split
    · exact give_turn hm ht rfl _
    · split
      · exact give_turn hm ht rfl _
      · exact hquiet rfl fun _ => trivial
  | receive p recvBufLen =>
    simp only [start]
    split
    · exact give_turn hm ht rfl _
    · exact hquiet rfl fun _ => trivial
  | reply p id body =>
    simp only [start]
    split
    · exact give_turn hm ht rfl _
    · exact hquiet rfl fun _ => trivial
  | disconnect p => exact hquiet rfl fun _ => trivial

theorem advance_turn (ht : Told m es) (h : call.Ok links m es) (o : Oracle) :
    Turns links m es call (advance m o call) := by
  cases call with
  | idle => exact quiet_turn_trivial hm ht (Same.refl m) plain_silent rfl fun _ => trivial
  | send s => exact goSend_turn hm ht s
  | checkPeer s peer => exact goCheckPeer_turn hm ht h
  | reserveRecord s peer cap => exact goReserveRecord_turn hm ht h
  | makeRecord s peer cap => exact goMakeRecord_turn hm ht h o
  | reserve s peer r => exact goReserve_turn hm ht h
  | charge s peer r => exact goCharge_turn hm ht h o
  | allocate s peer r token => exact goAllocate_turn hm ht h o
  | stamp s peer r token => exact goStamp_turn hm ht h
  | enqueue s peer r entry => exact goEnqueue_turn hm ht h
  | wait s r id => exact goWait_turn hm ht h
  | receive p room => exact goReceive_turn hm ht p room o
  | reply p id body => exact goReply_turn hm ht p id body
  | replyOn p peer id body => exact goReplyOn_turn hm ht h
  | disconnect p => exact goDisconnect_turn hm ht p
  | closing p peer => exact goClosing_turn hm ht p peer o
  | unwind todo result => exact goUnwind_turn hm ht h

theorem thread_turn (ht : Told m es) (h : call.Ok links m es) {choice : Choice P}
    (hthread : thread m call choice = some ((m', call'), ev)) :
    Turn links m es call m' call' ev := by
  cases choice with
  | begin req =>
    cases call with
    | idle =>
      rw [thread] at hthread
      split at hthread
      · cases hthread
      · have hstart := start_turn hm ht req
        rw [some.inj hthread] at hstart
        exact hstart
    | _ => cases hthread
  | go o =>
    have hadvance := advance_turn hm ht h o
    rw [some.inj hthread] at hadvance
    exact hadvance

end

end ImpossibleOs.Ipc.Alpc
