import ImpossibleOs.Quota.LedgerMoves

/-!
Every interleaving of charges, returns and drains keeps the slots of a quota
ledger in order, as long as the counter of the epochs does not wrap.
-/

namespace ImpossibleOs.Quota.Ledger

open Interleave Function List

variable {Tid Block : Type*}

/-! ### From steps to moves -/

/-- What the protocol sees of a ledger. -/
def Mem.view (m : Mem Block) : View :=
  ⟨m.owner, m.rtype, m.deferredToken, m.obligations, m.epochNext, m.issued⟩

/-- The role of a thread at a point of its call. -/
def Pc.role : Pc → Role
  | .reserveTry o _ cur => .reserving o.type cur
  | .scanHint o _ => .reserved o.type
  | .scanCap o _ _ => .reserved o.type
  | .scan o _ => .reserved o.type
  | .draw o _ => .reserved o.type
  | .claim o k epoch => .claiming o.type k.i epoch
  | .setHint o slot epoch => .building o.type slot epoch false
  | .grow o _ => .reserved o.type
  | .noSlot o => .reserved o.type
  | .setType o slot epoch => .building o.type slot epoch false
  | .chargeStart o slot epoch => .building o.type slot epoch true
  | .charging o slot epoch => .building o.type slot epoch true
  | .undo o slot epoch _ => .building o.type slot epoch true
  | .unreserve o epoch _ => .releasing o.type epoch
  | .deferTry h => .presenting h
  | .deferCount h => .stamping h.slot
  | .deferStamp h => .stamping h.slot
  | .readType r =>
    match r.visit with
    | none => .presenting ⟨r.slot, r.token, r.word⟩
    | some _ => .carrying r.slot r.word
  | .returnStart r => .returning r.slot r.word r.type r.visit.isSome
  | .returning r => .returning r.slot r.word r.type r.visit.isSome
  | .readTag r => .returning r.slot r.word r.type r.visit.isSome
  | .free r => .returning r.slot r.word r.type r.visit.isSome
  | .release r => .releasing r.type (epochOf r.word)
  | .drainOwner v _ => .taken v.last
  | .drainRestore _ slot _ => .stamping slot
  | _ => .bystander

/-- The scan for a free slot stays inside the slots that there can be. -/
def Pc.Bounded : Pc → Prop
  | .scan _ k => k.hint ≤ capMax ∧ k.cap ≤ capMax
  | .draw _ k => (k.hint ≤ capMax ∧ k.cap ≤ capMax) ∧ k.i < capMax
  | .claim _ k _ => (k.hint ≤ capMax ∧ k.cap ≤ capMax) ∧ k.i < capMax
  | .drainTake _ token => token ≠ 0
  | _ => True

/-- A ledger grows by whole chunks. -/
def Mem.Sized (m : Mem Block) : Prop :=
  ∃ chunks ≤ maxChunks, m.capacity = inlineSlots + chunks * chunkSlots

theorem Mem.Sized.le {m : Mem Block} (h : m.Sized) : m.capacity ≤ capMax := by
  obtain ⟨chunks, hle, heq⟩ := h
  simp only [capMax, maxChunks, chunkSlots] at *
  omega

variable {m m₁ m' : Mem Block} {l l₁ l' : Local Block} {ev : Event} {pc : Pc} {env : Env Block}

/-- A step is a move of the protocol and stays inside the ledger. -/
def Keeps (m : Mem Block) (l : Local Block) (m' : Mem Block) (l' : Local Block) (ev : Event) :
    Prop :=
  Move m.view l.pc.role m'.view l'.pc.role ev ∧ m'.Sized ∧ l'.pc.Bounded

theorem keeps_stay (h : stay m₁ l₁ pc = some ((m', l'), ev))
    (hmove : Move m.view l.pc.role m₁.view pc.role .silent) (hsize : m₁.Sized)
    (hbound : pc.Bounded) : Keeps m l m' l' ev := by
  obtain ⟨⟨rfl, rfl⟩, rfl⟩ : (m₁ = m' ∧ l₁.goto pc = l') ∧ .silent = ev := by simpa [stay] using h
  exact ⟨hmove, hsize, hbound⟩

theorem keeps_answer {e : Event} (h : answer m₁ l₁ e = some ((m', l'), ev))
    (hmove : Move m.view l.pc.role m₁.view .bystander e) (hsize : m₁.Sized) :
    Keeps m l m' l' ev := by
  obtain ⟨⟨rfl, rfl⟩, rfl⟩ : (m₁ = m' ∧ l₁.goto .idle = l') ∧ e = ev := by simpa [answer] using h
  exact ⟨hmove, hsize, trivial⟩

theorem keeps_finish {r : Ret} {outcome : Outcome} (h : finish m l r outcome = some ((m', l'), ev))
    (hrole : l.pc.role = .returning r.slot r.word r.type r.visit.isSome) (hsize : m.Sized) :
    Keeps m l m' l' ev := by
  unfold finish at h
  split at h
  · rename_i hvisit
    rw [hvisit] at hrole
    exact keeps_answer h (hrole ▸ .leave rfl ⟨rfl, rfl, rfl, rfl⟩) hsize
  · rename_i hvisit _
    rw [hvisit] at hrole
    exact keeps_answer h (hrole ▸ .leave rfl ⟨rfl, rfl, rfl, rfl⟩) hsize
  · rename_i hvisit
    rw [hvisit] at hrole
    split at h
    · exact keeps_stay h (hrole ▸ .restore) hsize trivial
    · cases h
      exact ⟨hrole ▸ .drop, hsize, trivial⟩
  · rename_i hvisit _
    rw [hvisit] at hrole
    cases h
    exact ⟨hrole ▸ .drop, hsize, trivial⟩

theorem inner_eq_some [LinearOrder Block] {turn : Charge.Turn ℕ Block}
    {next : Mem Block → Local Block → Charge.Event ℕ Block → Result Block}
    {res : (Mem Block × Local Block) × Event} (h : inner m l turn next = some res) :
    ∃ chain lower cev, next { m with chain := chain } { l with chain := lower } cev = some res := by
  obtain ⟨⟨⟨chain, lower⟩, cev⟩, -, hnext⟩ := Option.bind_eq_some_iff.mp h
  exact ⟨chain, lower, cev, hnext⟩

theorem view_releaseObligation (m : Mem Block) (type : ℕ) :
    (m.releaseObligation type).view = m.view.release type := by
  unfold Mem.releaseObligation View.release
  split <;> rfl

theorem Mem.Sized.release (h : m.Sized) (type : ℕ) : (m.releaseObligation type).Sized := by
  unfold Mem.releaseObligation
  split <;> exact h

theorem keeps_afterCharge {o : Order} {slot epoch : ℕ} {cev : Charge.Event ℕ Block}
    (h : afterCharge o slot epoch m₁ l₁ cev = some ((m', l'), ev))
    (hrole : l.pc.role = .building o.type slot epoch true) (hview : m₁.view = m.view)
    (hsize : m₁.Sized) : Keeps m l m' l' ev := by
  have hstill : Move m.view l.pc.role m₁.view (.building o.type slot epoch true) .silent := by
    rw [hrole, hview]
    exact .aside plain_silent
  unfold afterCharge at h
  split at h
  · split at h
    · exact keeps_stay h hstill hsize trivial
    · refine keeps_answer h ?_ hsize
      rw [hrole, ← hview]
      exact .issue
  · exact keeps_stay h hstill hsize trivial
  · exact keeps_stay h hstill hsize trivial

theorem keeps_afterReturn {r : Ret} {cev : Charge.Event ℕ Block}
    (h : afterReturn r m₁ l₁ cev = some ((m', l'), ev))
    (hrole : l.pc.role = .returning r.slot r.word r.type r.visit.isSome)
    (hview : m₁.view = m.view) (hsize : m₁.Sized) : Keeps m l m' l' ev := by
  have hstill : Move m.view l.pc.role m₁.view
      (.returning r.slot r.word r.type r.visit.isSome) .silent := by
    rw [hrole, hview]
    exact .aside plain_silent
  unfold afterReturn at h
  split at h
  · exact keeps_stay h hstill hsize trivial
  · exact keeps_stay h hstill hsize trivial

theorem keeps_goCharge [LinearOrder Block] (h : goCharge m l env = some ((m', l'), ev))
    (hsize : m.Sized) (hbound : l.pc.Bounded) (hwrap : m.epochNext + 1 < 2 ^ 64) :
    Keeps m l m' l' ev := by
  unfold goCharge at h
  split at h
  case h_1 hpc => exact keeps_answer h (by rw [hpc]; exact .aside ⟨rfl, rfl, rfl, rfl⟩) hsize
  case h_2 o hpc =>
    split at h
    · exact keeps_stay h (by rw [hpc]; exact .aside plain_silent) hsize trivial
    · exact keeps_answer h (by rw [hpc]; exact .aside ⟨rfl, rfl, rfl, rfl⟩) hsize
  case h_3 o left hpc =>
    dsimp only at h
    have hstill : Move m.view l.pc.role m.view .bystander .silent := by
      rw [hpc]
      exact .aside plain_silent
    split at h
    · exact keeps_stay h hstill hsize trivial
    split at h
    · exact keeps_stay h hstill hsize trivial
    rename_i hrange
    split at h
    · exact keeps_stay h hstill hsize trivial
    rename_i hcap
    refine keeps_stay h ?_ hsize trivial
    rw [hpc]
    exact .look ⟨by omega, by omega⟩
  case h_4 o left cur hpc =>
    split at h
    · rename_i hcur
      refine keeps_stay h ?_ hsize trivial
      rw [hpc]
      exact .reserve hcur
    · exact keeps_stay h (by rw [hpc]; exact .leave rfl plain_silent) hsize trivial
  case h_5 st hpc => exact keeps_answer h (by rw [hpc]; exact .aside ⟨rfl, rfl, rfl, rfl⟩) hsize
  case h_6 o attempt hpc =>
    exact keeps_stay h (by rw [hpc]; exact .aside plain_silent) hsize trivial
  case h_7 o attempt hint hpc =>
    refine keeps_stay h (by rw [hpc]; exact .aside plain_silent) hsize ⟨?_, hsize.le⟩
    have hle := hsize.le
    dsimp only
    split <;> omega
  case h_8 o k hpc =>
    rw [hpc] at hbound
    obtain ⟨hhint, hcap⟩ := hbound
    have hstill : Move m.view l.pc.role m.view (.reserved o.type) .silent := by
      rw [hpc]
      exact .aside plain_silent
    split at h
    · rename_i hi
      split at h
      · exact keeps_stay h hstill hsize ⟨hhint, hcap⟩
      · refine keeps_stay h hstill hsize ⟨⟨hhint, hcap⟩, ?_⟩
        unfold Scan.upto at hi
        split at hi <;> omega
    split at h
    · exact keeps_stay h hstill hsize ⟨hhint, hcap⟩
    split at h
    · exact keeps_stay h hstill hsize trivial
    · exact keeps_stay h hstill hsize trivial
  case h_9 o k hpc =>
    rw [hpc] at hbound
    obtain ⟨hscan, hi⟩ := hbound
    dsimp only at h
    rw [Nat.mod_eq_of_lt hwrap] at h
    split at h
    · exact keeps_stay h (by rw [hpc]; exact .waste) hsize trivial
    · rename_i hepoch
      refine keeps_stay h ?_ hsize ⟨hscan, hi⟩
      rw [hpc]
      exact .draw hi (not_lt.mp (not_or.mp hepoch).2)
  case h_10 o k epoch hpc =>
    rw [hpc] at hbound
    split at h
    · rename_i howner
      cases h
      refine ⟨?_, hsize, trivial⟩
      rw [hpc]
      exact .claim howner
    · exact keeps_stay h (by rw [hpc]; exact .lose) hsize hbound.1
  case h_11 o slot epoch hpc =>
    exact keeps_stay h (by rw [hpc]; exact .aside plain_silent) hsize trivial
  case h_12 o attempt hpc =>
    split at h
    · exact keeps_stay h (by rw [hpc]; exact .aside plain_silent) hsize trivial
    · rename_i hgrow
      refine keeps_stay h (by rw [hpc]; exact .aside plain_silent) ?_ trivial
      obtain ⟨chunks, hle, heq⟩ := hsize
      refine ⟨chunks + 1, ?_, ?_⟩
      · simp only [capMax, inlineSlots, maxChunks, chunkSlots] at *
        omega
      · simp only [heq, inlineSlots, chunkSlots]
        omega
  case h_13 o hpc =>
    refine keeps_stay h ?_ ?_ trivial
    · rw [hpc, view_releaseObligation]
      exact .giveUp
    · exact hsize.release o.type
  case h_14 o slot epoch hpc => exact keeps_stay h (by rw [hpc]; exact .publish) hsize trivial
  case h_15 o slot epoch hpc =>
    obtain ⟨chain, lower, cev, hnext⟩ := inner_eq_some h
    exact keeps_afterCharge hnext (by rw [hpc]; rfl) rfl hsize
  case h_16 o slot epoch hpc =>
    obtain ⟨chain, lower, cev, hnext⟩ := inner_eq_some h
    exact keeps_afterCharge hnext (by rw [hpc]; rfl) rfl hsize
  case h_17 o slot epoch st hpc =>
    cases h
    refine ⟨?_, hsize, trivial⟩
    rw [hpc]
    exact .undo
  case h_18 o epoch st hpc =>
    cases h
    refine ⟨?_, hsize.release o.type, trivial⟩
    rw [hpc, view_releaseObligation]
    exact .release
  case h_19 st hpc => exact keeps_answer h (by rw [hpc]; exact .aside ⟨rfl, rfl, rfl, rfl⟩) hsize
  case h_20 => cases h

theorem keeps_goReturn [LinearOrder Block] (h : goReturn m l env = some ((m', l'), ev))
    (hsize : m.Sized) : Keeps m l m' l' ev := by
  unfold goReturn at h
  split at h
  case h_1 k hpc =>
    split at h
    · rename_i howner
      cases h
      refine ⟨?_, hsize, trivial⟩
      rw [hpc]
      exact .mark howner
    · exact keeps_answer h (by rw [hpc]; exact .leave rfl ⟨rfl, rfl, rfl, rfl⟩) hsize
  case h_2 k hpc => exact keeps_stay h (by rw [hpc]; exact .aside plain_silent) hsize trivial
  case h_3 k hpc => exact keeps_stay h (by rw [hpc]; exact .stamp) hsize trivial
  case h_4 hpc => exact keeps_answer h (by rw [hpc]; exact .aside ⟨rfl, rfl, rfl, rfl⟩) hsize
  case h_5 r hpc =>
    refine keeps_stay h ?_ hsize trivial
    rw [hpc]
    cases hvisit : r.visit with
    | none =>
      simp only [Pc.role, hvisit]
      exact @Move.readType m.view ⟨r.slot, r.token, r.word⟩
    | some v =>
      simp only [Pc.role, hvisit]
      exact .readDeferred
  case h_6 r hpc =>
    obtain ⟨chain, lower, cev, hnext⟩ := inner_eq_some h
    exact keeps_afterReturn hnext (by rw [hpc]; rfl) rfl hsize
  case h_7 r hpc =>
    obtain ⟨chain, lower, cev, hnext⟩ := inner_eq_some h
    exact keeps_afterReturn hnext (by rw [hpc]; rfl) rfl hsize
  case h_8 r hpc =>
    dsimp only at h
    have hrole : l.pc.role = .returning r.slot r.word r.type r.visit.isSome := by
      rw [hpc]
      rfl
    split at h
    · exact keeps_stay h (by rw [hrole]; exact .aside plain_silent) hsize trivial
    split at h
    · split at h
      · exact keeps_finish h hrole hsize
      · exact keeps_stay h (by rw [hrole]; exact .aside plain_silent) hsize trivial
    · exact keeps_finish h hrole hsize
  case h_9 r hpc =>
    split at h
    · rename_i howner
      cases h
      refine ⟨?_, hsize, trivial⟩
      rw [hpc]
      cases hvisit : r.visit with
      | none =>
        simp only [Pc.role, hvisit]
        exact .free howner
      | some v =>
        simp only [Pc.role, hvisit]
        exact .complete howner
    · exact keeps_finish h (by rw [hpc]; rfl) hsize
  case h_10 r hpc =>
    cases h
    refine ⟨?_, hsize.release r.type, ?_⟩
    · rw [hpc, view_releaseObligation]
      cases r.visit <;> exact .release
    · cases r.visit <;> trivial
  case h_11 a hpc => exact keeps_answer h (by rw [hpc]; exact .aside ⟨rfl, rfl, rfl, rfl⟩) hsize
  case h_12 => cases h

theorem bystander_afterSettle (v : Visit) (abandoned : Bool) :
    (afterSettle v abandoned).role = .bystander ∧ (afterSettle v abandoned).Bounded := by
  cases abandoned <;> exact ⟨rfl, trivial⟩

theorem keeps_goDrain (h : goDrain m l env = some ((m', l'), ev)) (hsize : m.Sized)
    (hbound : l.pc.Bounded) : Keeps m l m' l' ev := by
  unfold goDrain at h
  split at h
  case h_1 hpc =>
    split at h
    · exact keeps_answer h (by rw [hpc]; exact .aside plain_silent) hsize
    · exact keeps_stay h (by rw [hpc]; exact .aside plain_silent) hsize trivial
  case h_2 visited budget hpc =>
    have hstill : Move m.view l.pc.role m.view .bystander .silent := by
      rw [hpc]
      exact .aside plain_silent
    split at h
    · split at h
      · exact keeps_stay h hstill hsize trivial
      · exact keeps_stay h hstill hsize trivial
      · split at h
        · exact keeps_stay h hstill hsize trivial
        · cases h
    · exact keeps_stay h hstill hsize trivial
  case h_3 v hpc => exact keeps_stay h (by rw [hpc]; exact .aside plain_silent) hsize trivial
  case h_4 v hpc => exact keeps_stay h (by rw [hpc]; exact .aside plain_silent) hsize trivial
  case h_5 v hpc =>
    have hstill : Move m.view l.pc.role m.view .bystander .silent := by
      rw [hpc]
      exact .aside plain_silent
    split at h
    · exact keeps_stay h hstill hsize trivial
    split at h
    · exact keeps_stay h hstill hsize trivial
    dsimp only at h
    split at h
    · exact keeps_stay h hstill hsize trivial
    · rename_i htoken
      exact keeps_stay h hstill hsize htoken
  case h_6 v token hpc =>
    rw [hpc] at hbound
    split at h
    · rename_i heq
      refine keeps_stay h ?_ hsize trivial
      rw [hpc]
      refine .take ?_
      change m.deferredToken v.last ≠ 0
      rw [heq]
      exact hbound
    · exact keeps_stay h (by rw [hpc]; exact .aside plain_silent) hsize trivial
  case h_7 v token hpc => exact keeps_stay h (by rw [hpc]; exact .readOwner) hsize trivial
  case h_8 v slot token hpc => exact keeps_stay h (by rw [hpc]; exact .stamp) hsize trivial
  case h_9 v abandoned hpc =>
    obtain ⟨hrole, hok⟩ := bystander_afterSettle v abandoned
    have hstill : ∀ n, Move m.view l.pc.role ({ m with deferPending := n } : Mem Block).view
        .bystander .silent := by
      intro n
      rw [hpc]
      exact .aside plain_silent
    have hsized : ∀ n, ({ m with deferPending := n } : Mem Block).Sized := fun _ => hsize
    dsimp only at h
    split at h
    · exact keeps_stay h (hstill _) (hsized _) trivial
    · exact keeps_stay h (hrole ▸ hstill _) (hsized _) hok
  case h_10 v abandoned hpc =>
    obtain ⟨hrole, hok⟩ := bystander_afterSettle v abandoned
    exact keeps_stay h (by rw [hpc, hrole]; exact .aside plain_silent) hsize hok
  case h_11 v hpc => exact keeps_stay h (by rw [hpc]; exact .aside plain_silent) hsize trivial
  case h_12 v hpc => exact keeps_stay h (by rw [hpc]; exact .aside plain_silent) hsize trivial
  case h_13 v hpc => exact keeps_stay h (by rw [hpc]; exact .aside plain_silent) hsize trivial
  case h_14 v hpc => exact keeps_stay h (by rw [hpc]; exact .aside plain_silent) hsize trivial
  case h_15 hpc => exact keeps_answer h (by rw [hpc]; exact .aside plain_silent) hsize
  case h_16 => cases h

section Thread

variable [LinearOrder Block]

theorem keeps_goOutside {turn : Charge.Turn ℕ Block} (h : goOutside m l turn = some ((m', l'), ev))
    (hrole : l.pc.role = .bystander) (hsize : m.Sized) : Keeps m l m' l' ev := by
  obtain ⟨chain, lower, cev, hnext⟩ := inner_eq_some h
  split at hnext
  · exact keeps_answer hnext (by rw [hrole]; exact .aside plain_silent) hsize
  · exact keeps_stay hnext (by rw [hrole]; exact .aside plain_silent) hsize trivial

theorem keeps_start {turn : Turn Block} (h : start m l turn = some ((m', l'), ev))
    (hpc : l.pc = .idle) (hsize : m.Sized) : Keeps m l m' l' ev := by
  have hrole : l.pc.role = .bystander := by
    rw [hpc]
    rfl
  cases turn with
  | charge type amount source =>
    simp only [start] at h
    split at h
    · exact keeps_answer h (by rw [hrole]; exact .aside ⟨rfl, rfl, rfl, rfl⟩) hsize
    split at h
    · exact keeps_stay h (by rw [hrole]; exact .aside plain_silent) hsize trivial
    · exact keeps_stay h (by rw [hrole]; exact .aside plain_silent) hsize trivial
  | giveBack k raised ready =>
    simp only [start] at h
    split at h
    · rename_i hk
      split at h
      · exact keeps_answer h (by rw [hrole]; exact .aside ⟨rfl, rfl, rfl, rfl⟩) hsize
      split at h
      · exact keeps_stay h (by rw [hrole]; exact .present hk) hsize trivial
      · exact keeps_stay h (by rw [hrole]; exact .present hk) hsize trivial
    · cases h
  | drain => exact keeps_stay h (by rw [hrole]; exact .aside plain_silent) hsize trivial
  | adjust k amount =>
    simp only [start] at h
    split at h
    · exact keeps_goOutside h hrole hsize
    · cases h
  | other turn =>
    simp only [start] at h
    split at h
    · split at h
      · exact keeps_goOutside h hrole hsize
      · cases h
    · cases h
  | setLimit b type n =>
    cases h
    exact ⟨.aside plain_silent, hsize, by rw [hpc]; trivial⟩
  | go env => cases h

theorem keeps_go (h : go m l env = some ((m', l'), ev)) (hsize : m.Sized) (hbound : l.pc.Bounded)
    (hwrap : m.epochNext + 1 < 2 ^ 64) : Keeps m l m' l' ev := by
  unfold go at h
  split at h
  · rename_i hpc
    exact keeps_goOutside h (by rw [hpc]; rfl) hsize
  · rcases Option.or_eq_some_iff.mp h with h | ⟨-, h⟩
    · exact keeps_goCharge h hsize hbound hwrap
    rcases Option.or_eq_some_iff.mp h with h | ⟨-, h⟩
    · exact keeps_goReturn h hsize
    · exact keeps_goDrain h hsize hbound

theorem keeps_thread {turn : Turn Block} (h : thread m l turn = some ((m', l'), ev))
    (hsize : m.Sized) (hbound : l.pc.Bounded) (hwrap : m.epochNext + 1 < 2 ^ 64) :
    Keeps m l m' l' ev := by
  unfold thread at h
  split at h
  · exact keeps_go h hsize hbound hwrap
  · cases h
    exact ⟨.aside plain_silent, hsize, hbound⟩
  · rename_i hpc
    exact keeps_start h hpc hsize
  · cases h

end Thread

/-! ### Runs -/

section Runs

variable [Fintype Tid]

def roles (c : State Tid Block) (t : Tid) : Role := (c.threads t).pc.role

/-- What holds in every state that a run reaches. -/
structure RunOk (c : State Tid Block) (es : List (Tid × Event)) : Prop where
  slots : SlotsOk c.shared.view (roles c) es
  sized : c.shared.Sized
  bounded : ∀ t, (c.threads t).pc.Bounded

theorem initial_runOk (limit : Block → ℕ → ℤ) : RunOk (initial limit : State Tid Block) [] where
  slots :=
    { word := fun _ => .inl ⟨rfl, rfl⟩
      held := nofun
      claim := nofun
      epochs_nodup := nodup_nil
      freed_nodup := nodup_nil
      freed_epoch := nofun
      own := by simp [FreesOwn]
      released_nodup := nodup_nil
      released_freed := nofun
      settled_nodup := nodup_nil
      settled_epoch := nofun
      settled_word := nofun
      issued := nofun
      count := by
        intro type
        have hocc : occupied ([] : List (Tid × Event)) type = 0 := by
          refine Finset.card_eq_zero.mpr (Finset.filter_eq_empty_iff.mpr ?_)
          simp [holders]
        have hprog : inProgress (roles (initial limit : State Tid Block)) type = 0 :=
          Finset.sum_eq_zero fun _ _ => rfl
        rw [hocc, hprog]
        rfl
      bound := fun type => Int.natCast_nonneg (typeCap type)
      token := fun s hs => absurd rfl hs
      custody := nofun
      carry := nofun
      threads := fun _ => trivial }
  sized := ⟨0, Nat.zero_le _, rfl⟩
  bounded := fun _ => trivial

variable [DecidableEq Tid] [LinearOrder Block]

def EpochsLast (c : State Tid Block) (_ : Tid × Turn Block) : Prop :=
  c.shared.epochNext + 1 < 2 ^ 64

theorem run_runOk {limit : Block → ℕ → ℤ} {turns : List (Tid × Turn Block)} {c : State Tid Block}
    {es : List (Tid × Event)}
    (hcond : Refine.Along (step Ledger.thread) EpochsLast (initial limit) turns)
    (hrun : Refine.run (step Ledger.thread) (initial limit) turns = some (c, es)) : RunOk c es := by
  have hkeeps := @Refine.run_invariant _ _ _ (step Ledger.thread) turns EpochsLast
    (fun c es => RunOk c es) (by
      intro c es i c' e h hwrap hstep
      obtain ⟨m, l, ev, hthread, rfl, rfl⟩ := step_eq_some.mp hstep
      obtain ⟨hmove, hsize, hbound⟩ := keeps_thread hthread h.sized (h.bounded i.1) hwrap
      have hroles : roles (⟨m, update c.threads i.1 l⟩ : State Tid Block) =
          update (roles c) i.1 l.pc.role := by
        funext u
        rcases eq_or_ne u i.1 with rfl | hu
        · simp [roles]
        · simp [roles, update_of_ne hu]
      refine ⟨?_, hsize, ?_⟩
      · rw [hroles]
        exact h.slots.move hmove
      · exact (forall_update_iff c.threads fun _ k => k.pc.Bounded).mpr
          ⟨hbound, fun u _ => h.bounded u⟩) (initial limit) c [] es
    (initial_runOk limit) hcond hrun
  exact hkeeps

/-- The slots of a ledger are in order: the log says who holds a slot, and the owner words and
counters of the memory agree with it. -/
structure InOrder (c : State Tid Block) (es : List (Tid × Event)) : Prop where
  /-- No slot is held by two obligations. -/
  one_holder : ∀ s, (holders es s).length ≤ 1 ∧ (c.shared.owner s = 0 ↔ holders es s = [])
  counted : ∀ type,
    c.shared.obligations type = occupied es type + inProgress (roles c) type
  capped : ∀ type, 0 ≤ c.shared.obligations type ∧ c.shared.obligations type ≤ typeCap type
  /-- No two charges take a slot under one epoch. -/
  epochs_nodup : (epochs es).Nodup
  /-- A slot is freed only in the name of the obligation that holds it. -/
  own : FreesOwn es
  freed_nodup : (freed es).Nodup
  released_nodup : (released es).Nodup
  /-- The drain settles a deferred return at most once. -/
  settled_nodup : (settled es).Nodup

/-- For every interleaving of charges, returns and drains in which the counter of the epochs does
not wrap. -/
theorem ledger_in_order {limit : Block → ℕ → ℤ} {turns : List (Tid × Turn Block)}
    {c : State Tid Block} {es : List (Tid × Event)}
    (hcond : Refine.Along (step Ledger.thread) EpochsLast (initial limit) turns)
    (hrun : Refine.run (step Ledger.thread) (initial limit) turns = some (c, es)) :
    InOrder c es := by
  have h := (run_runOk hcond hrun).slots
  refine ⟨?_, h.count, ?_, h.epochs_nodup, h.own, h.freed_nodup, h.released_nodup,
    h.settled_nodup⟩
  · intro s
    refine ⟨?_, h.holders_nil, fun hnil => ?_⟩
    · rcases h.word s with ⟨-, hheld⟩ | ⟨e, type, hheld, -⟩ <;> simp [hheld]
    · rcases h.word s with ⟨hzero, -⟩ | ⟨e, type, hheld, -⟩
      · exact hzero
      · rw [hnil] at hheld
        cases hheld
  · intro type
    refine ⟨?_, h.bound type⟩
    have hcount := h.count type
    change (0 : ℤ) ≤ c.shared.view.obligations type
    omega

theorem Move.drawn_le {v v' : View} {r r' : Role} {ev : Event} (h : Move v r v' r' ev) :
    v'.drawn ≤ v.drawn + 1 := by
  cases h with
  | draw => exact le_rfl
  | waste => exact le_rfl
  | giveUp =>
    unfold View.release
    split <;> exact Nat.le_succ _
  | release =>
    unfold View.release
    split <;> exact Nat.le_succ _
  | _ => exact Nat.le_succ _

omit [Fintype Tid] in
theorem along_short {c : State Tid Block} {turns : List (Tid × Turn Block)}
    (hsize : c.shared.Sized) (hbound : ∀ t, (c.threads t).pc.Bounded)
    (hlen : c.shared.epochNext + turns.length < 2 ^ 64) :
    Refine.Along (step Ledger.thread) EpochsLast c turns := by
  induction turns generalizing c with
  | nil => trivial
  | cons i turns ih =>
    rw [length_cons] at hlen
    have hwrap : c.shared.epochNext + 1 < 2 ^ 64 := by omega
    refine ⟨hwrap, fun p hp => ?_⟩
    obtain ⟨m, l, ev, hthread, hc, -⟩ := step_eq_some.mp (show step Ledger.thread c i =
      some (p.1, p.2) from hp)
    obtain ⟨hmove, hsize', hbound'⟩ := keeps_thread hthread hsize (hbound i.1) hwrap
    rw [hc]
    refine ih hsize' ?_ ?_
    · exact (forall_update_iff c.threads fun _ k => k.pc.Bounded).mpr
        ⟨hbound', fun u _ => hbound u⟩
    · have hle : m.epochNext ≤ c.shared.epochNext + 1 := hmove.drawn_le
      change m.epochNext + turns.length < 2 ^ 64
      omega

/-- A task with one block, an allocator that works and a queue with this ledger in it. -/
def openEnv : Env ℕ := ⟨⟨true, false, some 0, none, none, true⟩, true, true, .this⟩

/-- A thread takes steps of its call. -/
def goes {Tid : Type*} (t : Tid) (n : ℕ) (env : Env ℕ) : List (Tid × Turn ℕ) :=
  List.replicate n (t, .go env)

local instance neZeroTwo : NeZero 2 := ⟨by decide⟩

/-- A charge is returned twice, deferred and at once, and then the drain comes. -/
def sampleTurns : List (Fin 2 × Turn ℕ) :=
  [(0, Turn.charge 3 5 0)] ++ goes 0 19 openEnv ++ [(1, Turn.giveBack ⟨0, 1, 1⟩ true true)] ++
    goes 1 4 openEnv ++ [(1, Turn.giveBack ⟨0, 1, 1⟩ false false)] ++ goes 1 8 openEnv ++
    [(0, Turn.drain)] ++ goes 0 14 openEnv

theorem ledger_in_order_sample : ∃ (c : State (Fin 2) ℕ) (es : List (Fin 2 × Event)),
    Refine.Along (step Ledger.thread) EpochsLast (initial fun _ _ => 0) sampleTurns ∧
      Refine.run (step Ledger.thread) (initial fun _ _ => 0) sampleTurns = some (c, es) ∧
      freed es = [1] ∧ settled es = [(0, 1)] ∧ c.shared.obligations 3 = 0 ∧ InOrder c es := by
  have hsome : (Refine.run (step Ledger.thread)
      (initial (fun _ _ => 0) : State (Fin 2) ℕ) sampleTurns).map
      (fun p => (freed p.2, settled p.2, p.1.shared.obligations 3)) =
        some ([1], [(0, 1)], 0) := by
    decide
  obtain ⟨⟨c, es⟩, hrun, hval⟩ := Option.map_eq_some_iff.mp hsome
  obtain ⟨hfreed, hsettled, hob⟩ : freed es = [1] ∧ settled es = [(0, 1)] ∧
      c.shared.obligations 3 = 0 := by simpa using hval
  have hcond : Refine.Along (step Ledger.thread) EpochsLast
      (initial fun _ _ => 0 : State (Fin 2) ℕ) sampleTurns :=
    along_short ⟨0, Nat.zero_le _, rfl⟩ (fun _ => trivial) (by decide)
  exact ⟨c, es, hcond, hrun, hfreed, hsettled, hob, ledger_in_order hcond hrun⟩

end Runs

end ImpossibleOs.Quota.Ledger
