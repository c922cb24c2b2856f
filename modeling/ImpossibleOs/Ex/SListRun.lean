import ImpossibleOs.Ex.SList

/-!
Runs of the interlocked list.

The list in the memory is the stack that the exchanges so far have made. A
compare-and-swap that goes through has found the number it read, so nothing was
exchanged in between as long as the number has not gone all the way round; the
link that a pop read is then the link of the first entry.
-/

namespace ImpossibleOs.Ex.SList

open Interleave Linearize Function List

variable {Tid : Type*}

/-! ### The stack -/

/-- A LIFO stack of entries with what the calls return; 0 is NULL. -/
def stackSpec (s : List Word) : Op → List Word × Word
  | .push entry => (entry :: s, s.headD 0#64)
  | .pop => (s.tail, s.headD 0#64)
  | .flush => ([], s.headD 0#64)

def Event.apply (s : List Word) : Event → List Word
  | .exchanged op _ => (stackSpec s op).1
  | _ => s

/-- The stack that the exchanges of a run make. -/
def stackOf (es : List (Tid × Event)) : List Word :=
  es.foldl (fun s e => e.2.apply s) []

/-- What the callers see of a step. -/
def Event.view : Event → Option (Linearize.Event Op Word)
  | .called op => some (.call op)
  | .exchanged _ result => some (.ret result)
  | .returned result => some (.ret result)
  | _ => none

/-- The calls and returns of a run. -/
def historyOf (es : List (Tid × Event)) : List (Tid × Linearize.Event Op Word) :=
  es.filterMap fun e => e.2.view.map (e.1, ·)

/-- Entries put on the list by the exchanges of a run, the last one first. -/
def pushedBy (es : List (Tid × Event)) : List Word :=
  es.foldl (fun xs e => match e.2 with
    | .exchanged (.push entry) _ => entry :: xs
    | _ => xs) []

/-- Entries taken off the list, by a pop that returns one or with the chain of a flush. -/
def takenBy (es : List (Tid × Event)) : List Word :=
  (es.foldl (fun (p : List Word × List Word) e =>
    (e.2.apply p.1, match e.2 with
      | .exchanged .pop result => result :: p.2
      | .exchanged .flush _ => p.1 ++ p.2
      | _ => p.2)) ([], [])).2

/-! ### Exchanges since a read -/

def Event.exchanges : Event → Bool
  | .exchanged _ _ => true
  | _ => false

def exchangesOf (es : List (Tid × Event)) : ℕ := es.countP fun e => e.2.exchanges

variable [DecidableEq Tid]

/-- Exchanges since thread `t` last read `SeqDepth`. -/
def since (t : Tid) (es : List (Tid × Event)) : ℕ :=
  es.foldl (fun n e => if e = (t, .read) then 0 else if e.2.exchanges then n + 1 else n) 0

/-- The sequence number does not come round within one operation: a compare-and-swap that goes
through has seen fewer than 2^48 exchanges since its thread read the number. -/
def NoWrap (es : List (Tid × Event)) : Prop :=
  ∀ pre t op result post, es = pre ++ (t, Event.exchanged op result) :: post → since t pre < 2 ^ 48

omit [DecidableEq Tid] in
theorem exchangesOf_concat (es : List (Tid × Event)) (e : Tid × Event) :
    exchangesOf (es ++ [e]) = exchangesOf es + if e.2.exchanges then 1 else 0 := by
  simp [exchangesOf, countP_append, countP_singleton]

theorem since_concat (t : Tid) (es : List (Tid × Event)) (e : Tid × Event) :
    since t (es ++ [e]) =
      if e = (t, .read) then 0 else if e.2.exchanges then since t es + 1 else since t es := by
  simp [since, foldl_append]

omit [DecidableEq Tid] in
theorem stackOf_concat (es : List (Tid × Event)) (e : Tid × Event) :
    stackOf (es ++ [e]) = e.2.apply (stackOf es) := by
  simp [stackOf, foldl_append]

omit [DecidableEq Tid] in
theorem historyOf_concat (es : List (Tid × Event)) (e : Tid × Event) :
    historyOf (es ++ [e]) = historyOf es ++ (e.2.view.map (e.1, ·)).toList := by
  rw [historyOf, historyOf, filterMap_append]
  cases h : e.2.view <;> simp [h]

theorem since_le (t : Tid) (es : List (Tid × Event)) : since t es ≤ exchangesOf es := by
  induction es using List.reverseRecOn with
  | nil => exact le_rfl
  | append_singleton es e ih =>
    rw [since_concat, exchangesOf_concat]
    split
    · omega
    · split <;> omega

theorem NoWrap.of_concat {es : List (Tid × Event)} {e : Tid × Event} (h : NoWrap (es ++ [e])) :
    NoWrap es ∧ ∀ t op result, e = (t, .exchanged op result) → since t es < 2 ^ 48 := by
  refine ⟨?_, ?_⟩
  · rintro pre t op result post rfl
    exact h pre t op result (post ++ [e]) (by simp)
  · rintro t op result rfl
    exact h es t op result [] rfl

/-! ### The invariant -/

/-- Nobody but its owner has the entry: it is not on the list, and not about to be pushed. -/
def Free (c : State Tid) (e : Word) : Prop :=
  (∀ s, Chain c.shared.links c.shared.next s → e ∉ s) ∧ ∀ t, pushing (c.threads t) ≠ some e

/-- The callers own the entries they push and those whose links they write. -/
def Owned (c : State Tid) (i : Tid × Turn) : Prop :=
  match i.2 with
  | .call (.push entry) => entry ≠ 0#64 ∧ Free c entry
  | .write entry _ => Free c entry
  | _ => True

structure Inv (c : State Tid) (es : List (Tid × Event)) : Prop where
  chain : Chain c.shared.links c.shared.next (stackOf es)
  seq : c.shared.seqDepth.toNat / 2 ^ 16 = exchangesOf es % 2 ^ 48
  own : ∀ t e, pushing (c.threads t) = some e → e ≠ 0#64 ∧ e ∉ stackOf es
  apart : ∀ t u e, pushing (c.threads t) = some e → pushing (c.threads u) = some e → t = u
  seen : ∀ t hi, hiOf (c.threads t) = some hi →
    hi.toNat / 2 ^ 16 = (exchangesOf es - since t es) % 2 ^ 48
  linked : ∀ t e lo hi, c.threads t = .pushTry e lo hi → c.shared.links e = lo
  popped : ∀ t lo hi next, c.threads t = .popTry lo hi next →
    lo ≠ 0#64 ∧ (since t es = 0 → c.shared.next = lo → next = c.shared.links lo)

section Steps

variable {c : State Tid} {es : List (Tid × Event)} {t : Tid} {m : Memory} {pc : Pc}
  {turn : Turn} {ev : Event}

theorem Initialized.inv (h : Initialized c) : Inv c [] where
  chain := h.1
  seq := by rw [h.2.1]; rfl
  own := by simp [h.2.2, pushing]
  apart := by simp [h.2.2, pushing]
  seen := by simp [h.2.2, hiOf]
  linked := by simp [h.2.2]
  popped := by simp [h.2.2]

theorem Inv.since_eq_zero (h : Inv c es) (hhi : hiOf (c.threads t) = some c.shared.seqDepth)
    (hwrap : since t es < 2 ^ 48) : since t es = 0 := by
  have hseen := h.seen t _ hhi
  have hseq := h.seq
  have hle := since_le t es
  omega

theorem Inv.next_mem (h : Inv c es) (hne : c.shared.next ≠ 0#64) : c.shared.next ∈ stackOf es := by
  obtain ⟨s, hs, -⟩ := h.chain.cons_of_ne hne
  rw [hs]
  exact mem_cons_self

theorem Inv.keep (h : Inv c es) (hev : ev.exchanges = false) (hnext : m.next = c.shared.next)
    (hsd : m.seqDepth = c.shared.seqDepth) (hlinks : ∀ e, m.links e = c.shared.links e ∨
      e ∉ stackOf es ∧ ∀ u, u ≠ t → pushing (c.threads u) ≠ some e)
    (hown : ∀ e, pushing pc = some e →
      e ≠ 0#64 ∧ e ∉ stackOf es ∧ ∀ u, u ≠ t → pushing (c.threads u) ≠ some e)
    (hseen : ∀ hi, hiOf pc = some hi →
      hi.toNat / 2 ^ 16 = (exchangesOf es - since t (es ++ [(t, ev)])) % 2 ^ 48)
    (hlinked : ∀ e lo hi, pc = .pushTry e lo hi → m.links e = lo)
    (hpopped : ∀ lo hi next, pc = .popTry lo hi next → lo ≠ 0#64 ∧ next = m.links lo) :
    Inv ⟨m, update c.threads t pc⟩ (es ++ [(t, ev)]) := by
  have hstack : stackOf (es ++ [(t, ev)]) = stackOf es := by
    rw [stackOf_concat]
    cases ev <;> first | rfl | cases hev
  have hcount : exchangesOf (es ++ [(t, ev)]) = exchangesOf es := by
    rw [exchangesOf_concat, hev]
    rfl
  have hsince : ∀ u, u ≠ t → since u (es ++ [(t, ev)]) = since u es := by
    intro u hu
    rw [since_concat, if_neg (by simp [Ne.symm hu]), hev]
    rfl
  -- what the other threads rely on is in memory that this step does not touch
  have hrest : ∀ e, e ∈ stackOf es → m.links e = c.shared.links e :=
    fun e he => (hlinks e).resolve_right fun hfree => hfree.1 he
  constructor <;> dsimp only
  · rw [hstack, hnext]
    exact h.chain.congr hrest
  · rw [hcount, hsd]
    exact h.seq
  · rw [hstack]
    intro u e hu
    rcases eq_or_ne u t with rfl | hne
    · rw [update_self] at hu
      exact ⟨(hown e hu).1, (hown e hu).2.1⟩
    · rw [update_of_ne hne] at hu
      exact h.own u e hu
  · intro u v e hu hv
    by_contra huv
    rcases eq_or_ne u t with rfl | hut
    · rw [update_self] at hu
      rw [update_of_ne (Ne.symm huv)] at hv
      exact (hown e hu).2.2 v (Ne.symm huv) hv
    · rw [update_of_ne hut] at hu
      rcases eq_or_ne v t with rfl | hvt
      · rw [update_self] at hv
        exact (hown e hv).2.2 u hut hu
      · rw [update_of_ne hvt] at hv
        exact huv (h.apart u v e hu hv)
  · rw [hcount]
    intro u hi hu
    rcases eq_or_ne u t with rfl | hne
    · rw [update_self] at hu
      exact hseen hi hu
    · rw [update_of_ne hne] at hu
      rw [hsince u hne]
      exact h.seen u hi hu
  · intro u e lo hi hu
    rcases eq_or_ne u t with rfl | hne
    · rw [update_self] at hu
      exact hlinked e lo hi hu
    · rw [update_of_ne hne] at hu
      have hpush : pushing (c.threads u) = some e := by rw [hu]; rfl
      have hsame := (hlinks e).resolve_right fun hfree => hfree.2 u hne hpush
      rw [hsame]
      exact h.linked u e lo hi hu
  · intro u lo hi next hu
    rcases eq_or_ne u t with rfl | hne
    · rw [update_self] at hu
      exact ⟨(hpopped lo hi next hu).1, fun _ _ => (hpopped lo hi next hu).2⟩
    · rw [update_of_ne hne] at hu
      obtain ⟨hlo, hread⟩ := h.popped u lo hi next hu
      refine ⟨hlo, ?_⟩
      rw [hsince u hne, hnext]
      intro hzero hfirst
      have hmem := h.next_mem (hfirst ▸ hlo)
      rw [hread hzero hfirst, ← hfirst, hrest _ hmem]

theorem Inv.exchange {op : Op} {result : Word} (h : Inv c es) (hlinks : m.links = c.shared.links)
    (hchain : Chain c.shared.links m.next (stackSpec (stackOf es) op).1)
    (hsd : m.seqDepth.toNat / 2 ^ 16 = (c.shared.seqDepth.toNat / 2 ^ 16 + 1) % 2 ^ 48)
    (hsub : ∀ e ∈ (stackSpec (stackOf es) op).1, e ∈ stackOf es ∨ pushing (c.threads t) = some e) :
    Inv ⟨m, update c.threads t .idle⟩ (es ++ [(t, Event.exchanged op result)]) := by
  have hstack : stackOf (es ++ [(t, Event.exchanged op result)]) = (stackSpec (stackOf es) op).1 :=
    stackOf_concat es _
  have hcount : exchangesOf (es ++ [(t, Event.exchanged op result)]) = exchangesOf es + 1 :=
    exchangesOf_concat es _
  have hsince : ∀ u, since u (es ++ [(t, Event.exchanged op result)]) = since u es + 1 := by
    intro u
    rw [since_concat, if_neg (by simp)]
    rfl
  -- the thread that moves is done; every fact below is about another one
  have hother : ∀ {u : Tid} {pc : Pc}, pc ≠ .idle →
      update c.threads t .idle u = pc → u ≠ t ∧ c.threads u = pc := by
    intro u pc hpc hu
    rcases eq_or_ne u t with rfl | hne
    · rw [update_self] at hu
      exact absurd hu.symm hpc
    · rw [update_of_ne hne] at hu
      exact ⟨hne, hu⟩
  have hpushing : ∀ {u : Tid} {e : Word},
      pushing (update c.threads t .idle u) = some e →
        u ≠ t ∧ pushing (c.threads u) = some e := by
    intro u e hu
    rcases eq_or_ne u t with rfl | hne
    · rw [update_self] at hu
      cases hu
    · rw [update_of_ne hne] at hu
      exact ⟨hne, hu⟩
  constructor <;> dsimp only
  · rw [hstack, hlinks]
    exact hchain
  · rw [hcount, hsd, h.seq]
    omega
  · rw [hstack]
    intro u e hu
    obtain ⟨hne, hu⟩ := hpushing hu
    obtain ⟨hnull, hnot⟩ := h.own u e hu
    refine ⟨hnull, fun hmem => ?_⟩
    rcases hsub e hmem with hold | hmine
    · exact hnot hold
    · exact hne (h.apart u t e hu hmine)
  · intro u v e hu hv
    exact h.apart u v e (hpushing hu).2 (hpushing hv).2
  · rw [hcount]
    intro u hi hu
    have hne : u ≠ t := by
      rintro rfl
      rw [update_self] at hu
      cases hu
    rw [update_of_ne hne] at hu
    rw [hsince u, Nat.add_sub_add_right]
    exact h.seen u hi hu
  · intro u e lo hi hu
    obtain ⟨-, hu⟩ := hother (by simp) hu
    rw [hlinks]
    exact h.linked u e lo hi hu
  · intro u lo hi next hu
    obtain ⟨-, hu⟩ := hother (by simp) hu
    refine ⟨(h.popped u lo hi next hu).1, fun hzero => ?_⟩
    rw [hsince u] at hzero
    cases hzero

/-- What an exchange does to the stack, and what it returns. -/
structure Exchanged (c : State Tid) (es : List (Tid × Event)) (t : Tid) (m : Memory) (op : Op)
    (ret : Word) : Prop where
  links : m.links = c.shared.links
  chain : Chain c.shared.links m.next (stackSpec (stackOf es) op).1
  seqDepth : m.seqDepth.toNat / 2 ^ 16 = (c.shared.seqDepth.toNat / 2 ^ 16 + 1) % 2 ^ 48
  sub : ∀ e ∈ (stackSpec (stackOf es) op).1, e ∈ stackOf es ∨ pushing (c.threads t) = some e
  result : ret = (stackSpec (stackOf es) op).2
  first : ret = c.shared.next
  phase : phaseOf (c.threads t) = .pending op
  popped : op = .pop → ret ≠ 0#64

theorem Inv.headD (h : Inv c es) : (stackOf es).headD 0#64 = c.shared.next := by
  have hchain := h.chain
  cases hs : stackOf es with
  | nil =>
    rw [hs] at hchain
    exact hchain.symm
  | cons e s =>
    rw [hs] at hchain
    exact hchain.1.symm

theorem Inv.exchanged {op : Op} {result : Word} (h : Inv c es)
    (hm : Moves c.shared turn (c.threads t) m pc (.exchanged op result))
    (hwrap : since t es < 2 ^ 48) : Exchanged c es t m op result ∧ pc = .idle := by
  generalize hpc : c.threads t = pc₀ at hm
  cases hm with
  | push entry =>
    have hpush : pushing (c.threads t) = some entry := by rw [hpc]; rfl
    have hlinked := h.linked t _ _ _ hpc
    refine ⟨⟨rfl, ?_, toNat_sdMake_succ _ _, ?_, h.headD.symm, rfl, by rw [hpc]; rfl,
      by simp⟩, rfl⟩
    · refine ⟨rfl, (h.own t entry hpush).1, ?_⟩
      rw [hlinked]
      exact h.chain
    · intro e he
      rcases mem_cons.mp he with rfl | he
      · exact .inr hpush
      · exact .inl he
  | pop next =>
    obtain ⟨hne, hread⟩ := h.popped t _ _ _ hpc
    -- the link was read since the last exchange, so it is still the link of the first entry
    have hzero := h.since_eq_zero (by rw [hpc]; rfl) hwrap
    obtain ⟨s, hs, hrest⟩ := h.chain.cons_of_ne hne
    refine ⟨⟨rfl, ?_, toNat_sdMake_succ _ _, ?_, h.headD.symm, rfl, by rw [hpc]; rfl,
      fun _ => hne⟩, rfl⟩
    · dsimp only
      rw [hread hzero rfl]
      rw [hs]
      exact hrest
    · intro e he
      exact .inl (mem_of_mem_tail he)
  | flush =>
    refine ⟨⟨rfl, rfl, toNat_sdMake_succ _ _, ?_, h.headD.symm, rfl, by rw [hpc]; rfl,
      by simp⟩, rfl⟩
    intro e he
    cases he

theorem Inv.step (h : Inv c es) (howned : Owned c (t, turn))
    (hm : Moves c.shared turn (c.threads t) m pc ev)
    (hwrap : ∀ op result, ev = .exchanged op result → since t es < 2 ^ 48) :
    Inv ⟨m, update c.threads t pc⟩ (es ++ [(t, ev)]) := by
  cases hx : ev.exchanges with
  | true =>
    cases ev with
    | exchanged op result =>
      obtain ⟨hex, rfl⟩ := h.exchanged hm (hwrap op result rfl)
      exact h.exchange hex.links hex.chain hex.seqDepth hex.sub
    | _ => cases hx
  | false =>
    generalize hpc : c.threads t = pc₀ at hm
    have hothers : ∀ e, pushing pc₀ = some e → e ≠ 0#64 ∧ e ∉ stackOf es ∧
        ∀ u, u ≠ t → pushing (c.threads u) ≠ some e := by
      intro e he
      have ht : pushing (c.threads t) = some e := by rw [hpc]; exact he
      exact ⟨(h.own t e ht).1, (h.own t e ht).2, fun u hu hue => hu (h.apart u t e hue ht)⟩
    cases hm with
    | call op =>
      refine h.keep hx rfl rfl (fun _ => .inl rfl) ?_ ?_ ?_ ?_
      · intro e he
        cases op with
        | push entry =>
          obtain rfl : entry = e := by simpa [Op.start, pushing] using he
          exact ⟨howned.1, howned.2.1 _ h.chain, fun u _ => howned.2.2 u⟩
        | pop => cases he
        | flush => cases he
      · cases op <;> simp [Op.start, hiOf]
      · cases op <;> simp [Op.start]
      · cases op <;> simp [Op.start]
    | still hhi hpushing hpush hpop =>
      refine h.keep hx rfl rfl (fun _ => .inl rfl) ?_ ?_ ?_ hpop
      · rw [hpushing]
        exact hothers
      · intro hi hhi'
        rw [since_concat, if_neg (by simp)]
        exact h.seen t hi (by rw [hpc]; exact hhi hi hhi')
      · intro e lo hi he
        exact absurd he (hpush e lo hi)
    | read hhi hpushing hpush hpop =>
      refine h.keep hx rfl rfl (fun _ => .inl rfl) ?_ ?_ ?_ ?_
      · rw [hpushing]
        exact hothers
      · intro hi hhi'
        obtain rfl : c.shared.seqDepth = hi := by simpa [hhi] using hhi'
        rw [since_concat, if_pos rfl]
        exact h.seq
      · intro e lo hi he
        exact absurd he (hpush e lo hi)
      · intro lo hi next he
        exact absurd he (hpop lo hi next)
    | empty hi =>
      exact h.keep hx rfl rfl (fun _ => .inl rfl) (by simp [pushing]) (by simp [hiOf])
        (by simp) (by simp)
    | link entry lo hi =>
      obtain ⟨hne, hnot, hfree⟩ := hothers entry rfl
      refine h.keep hx rfl rfl ?_ ?_ ?_ ?_ (by simp)
      · intro e
        rcases eq_or_ne e entry with rfl | he
        · exact .inr ⟨hnot, hfree⟩
        · exact .inl (update_of_ne he _ _)
      · intro e he
        obtain rfl : entry = e := by simpa [pushing] using he
        exact ⟨hne, hnot, hfree⟩
      · intro hi' hhi
        rw [since_concat, if_neg (by simp)]
        exact h.seen t hi' (by rw [hpc]; exact hhi)
      · rintro _ _ _ ⟨⟩
        exact update_self ..
    | write entry value =>
      refine h.keep hx rfl rfl ?_ (by simp [pushing]) (by simp [hiOf]) (by simp) (by simp)
      intro e
      rcases eq_or_ne e entry with rfl | he
      · exact .inr ⟨howned.1 _ h.chain, fun u _ => howned.2 u⟩
      · exact .inl (update_of_ne he _ _)
    | push => cases hx
    | pop => cases hx
    | flush => cases hx

/-! ### Linearization -/

/-- The atomic stack beside the list: the same entries, the same callers. -/
def Beside (c : State Tid) (es : List (Tid × Event)) (o : Object Tid (List Word) Op Word) : Prop :=
  o.state = stackOf es ∧ o.phase = phaseOf ∘ c.threads

omit [DecidableEq Tid] in
theorem stackOf_apply_eq (hev : ev.exchanges = false) : stackOf (es ++ [(t, ev)]) = stackOf es := by
  rw [stackOf_concat]
  cases ev <;> first | rfl | cases hev

theorem Inv.explained_advance (h : Inv c es) (hev : ev.exchanges = false) (hview : ev.view = none)
    (hphase : Advances c.shared (c.threads t) pc)
    (hx : Explained stackSpec [] (historyOf es) (Beside c es)) :
    Explained stackSpec [] (historyOf (es ++ [(t, ev)]))
      (Beside ⟨m, update c.threads t pc⟩ (es ++ [(t, ev)])) := by
  rw [historyOf_concat]
  dsimp only
  rw [hview]
  rcases hphase with hsame | ⟨hnull, hpend, hdone⟩
  · refine hx.append [] rfl ?_
    rintro o ⟨hstate, hphase⟩
    refine ⟨o, rfl, hstate.trans (stackOf_apply_eq hev).symm, ?_⟩
    rw [hphase, comp_update, hsame]
    exact (update_eq_self t (phaseOf ∘ c.threads)).symm
  · have hempty : stackOf es = [] := by
      have hchain := h.chain
      rw [hnull] at hchain
      exact hchain.nil_of_null
    refine hx.append [(t, .effect)] rfl ?_
    rintro o ⟨hstate, hphase⟩
    have hop : o.phase t = .pending .pop := by rw [hphase]; exact hpend
    rw [hempty] at hstate
    refine ⟨_, by rw [foldlM_cons, exec_effect hop]; rfl, ?_, ?_⟩
    · rw [stackOf_apply_eq hev, hempty, hstate]
      rfl
    · dsimp only
      rw [hphase, comp_update, hdone, hstate]
      rfl

theorem Inv.explained_step (h : Inv c es) (hm : Moves c.shared turn (c.threads t) m pc ev)
    (hwrap : ∀ op result, ev = .exchanged op result → since t es < 2 ^ 48)
    (hx : Explained stackSpec [] (historyOf es) (Beside c es)) :
    Explained stackSpec [] (historyOf (es ++ [(t, ev)]))
      (Beside ⟨m, update c.threads t pc⟩ (es ++ [(t, ev)])) := by
  cases ev with
  | exchanged op result =>
    obtain ⟨hex, rfl⟩ := h.exchanged hm (hwrap op result rfl)
    rw [historyOf_concat]
    refine hx.append [(t, .effect), (t, .ret result)] rfl ?_
    rintro o ⟨hstate, hphase⟩
    have hop : o.phase t = .pending op := by rw [hphase]; exact hex.phase
    have hret : result = (stackSpec o.state op).2 := by rw [hstate]; exact hex.result
    rw [hret]
    refine ⟨_, exec_effect_ret hop, ?_, ?_⟩
    · rw [stackOf_concat, hstate]
      rfl
    · dsimp only
      rw [hphase, comp_update]
      rfl
  | silent =>
    generalize hpc : c.threads t = pc₀ at hm
    refine h.explained_advance rfl rfl ?_ hx
    rw [hpc]
    cases hm with
    | still _ _ _ _ hphase => exact hphase
    | link entry lo hi => exact .inl rfl
    | write entry value => exact .inl rfl
  | read =>
    generalize hpc : c.threads t = pc₀ at hm
    refine h.explained_advance rfl rfl ?_ hx
    rw [hpc]
    cases hm with
    | read _ _ _ _ hphase => exact hphase
  | called op =>
    generalize hpc : c.threads t = pc₀ at hm
    cases hm with
    | call =>
      rw [historyOf_concat]
      refine hx.append [(t, .call op)] rfl ?_
      rintro o ⟨hstate, hphase⟩
      have hidle : o.phase t = .idle := by rw [hphase, comp_apply, hpc]; rfl
      refine ⟨_, by rw [foldlM_cons, exec_call hidle]; rfl, ?_, ?_⟩
      · exact hstate.trans (stackOf_apply_eq rfl).symm
      · dsimp only
        rw [hphase, comp_update]
        cases op <;> rfl
  | returned result =>
    generalize hpc : c.threads t = pc₀ at hm
    cases hm with
    | empty hi =>
      rw [historyOf_concat]
      refine hx.append [(t, .ret 0#64)] rfl ?_
      rintro o ⟨hstate, hphase⟩
      have hdone : o.phase t = .done 0#64 := by rw [hphase, comp_apply, hpc]; rfl
      refine ⟨_, by rw [foldlM_cons, exec_ret hdone]; rfl, ?_, ?_⟩
      · exact hstate.trans (stackOf_apply_eq rfl).symm
      · dsimp only
        rw [hphase, comp_update]
        rfl

omit [DecidableEq Tid] in
theorem pushedBy_concat (es : List (Tid × Event)) (e : Tid × Event) :
    pushedBy (es ++ [e]) = match e.2 with
      | .exchanged (.push entry) _ => entry :: pushedBy es
      | _ => pushedBy es := by
  simp [pushedBy, foldl_append]

omit [DecidableEq Tid] in
theorem takenBy_concat (es : List (Tid × Event)) (e : Tid × Event) :
    takenBy (es ++ [e]) = match e.2 with
      | .exchanged .pop result => result :: takenBy es
      | .exchanged .flush _ => stackOf es ++ takenBy es
      | _ => takenBy es := by
  have hstack : ∀ es : List (Tid × Event), ∀ p : List Word × List Word,
      (es.foldl (fun (p : List Word × List Word) e =>
        (e.2.apply p.1, match e.2 with
          | .exchanged .pop result => result :: p.2
          | .exchanged .flush _ => p.1 ++ p.2
          | _ => p.2)) p).1 = es.foldl (fun s e => e.2.apply s) p.1 := by
    intro es
    induction es with
    | nil => exact fun _ => rfl
    | cons e es ih => exact fun p => ih _
  have hs := hstack es ([], [])
  simp only [takenBy, foldl_append, foldl_cons, foldl_nil, hs, stackOf]

theorem Inv.perm_step (h : Inv c es) (hm : Moves c.shared turn (c.threads t) m pc ev)
    (hwrap : ∀ op result, ev = .exchanged op result → since t es < 2 ^ 48)
    (hperm : (pushedBy es).Perm (takenBy es ++ stackOf es)) : (pushedBy (es ++ [(t, ev)])).Perm
      (takenBy (es ++ [(t, ev)]) ++ stackOf (es ++ [(t, ev)])) := by
  rw [pushedBy_concat, takenBy_concat, stackOf_concat]
  cases ev with
  | exchanged op result =>
    obtain ⟨hex, -⟩ := h.exchanged hm (hwrap op result rfl)
    cases op with
    | push entry => exact (hperm.cons entry).trans perm_middle.symm
    | pop =>
      have hne := hex.popped rfl
      rw [hex.first] at hne
      obtain ⟨s, hs, -⟩ := h.chain.cons_of_ne hne
      rw [hs] at hperm
      have hresult := hex.first
      dsimp only [Event.apply, stackSpec]
      rw [hs, hresult]
      exact hperm.trans perm_middle
    | flush =>
      dsimp only [Event.apply, stackSpec]
      rw [append_nil]
      exact hperm.trans perm_append_comm
  | _ => exact hperm

end Steps

/-! ### Every interleaving -/

/-- What holds of a run in which the number has not come round. -/
structure Sound (c : State Tid) (es : List (Tid × Event)) : Prop where
  inv : Inv c es
  explained : Explained stackSpec [] (historyOf es) (Beside c es)
  perm : (pushedBy es).Perm (takenBy es ++ stackOf es)

theorem Initialized.sound {c : State Tid} (h : Initialized c) : Sound c [] := by
  refine ⟨h.inv, Explained.nil ⟨rfl, ?_⟩, List.Perm.refl _⟩
  funext t
  rw [comp_apply, h.2.2 t]
  rfl

theorem run_sound {c c' : State Tid} {sched : List (Tid × Turn)} {es : List (Tid × Event)}
    (hinit : Initialized c) (howned : Refine.Along (step thread) Owned c sched)
    (hrun : Refine.run (step thread) c sched = some (c', es)) : NoWrap es → Sound c' es := by
  have h₀ : NoWrap ([] : List (Tid × Event)) → Sound c [] := fun _ => hinit.sound
  refine Refine.run_invariant (fun c es => NoWrap es → Sound c es) ?_ h₀ howned hrun
  intro c es i c' e hP hi hstep hwrap
  obtain ⟨hwrap₀, hlast⟩ := hwrap.of_concat
  obtain ⟨hinv, hx, hperm⟩ := hP hwrap₀
  obtain ⟨m, l, ev, hthread, rfl, rfl⟩ := step_eq_some.mp hstep
  have hm := thread_moves hthread
  have hlast' : ∀ op result, ev = .exchanged op result → since i.1 es < 2 ^ 48 := by
    rintro op result rfl
    exact hlast i.1 op result rfl
  exact ⟨hinv.step hi hm hlast', hinv.explained_step hm hlast' hx,
    hinv.perm_step hm hlast' hperm⟩

/-- For every interleaving of pushes, pops and flushes the history is that of a stack, every
entry that was pushed is returned once or still on the list, and a flush returns the chain of
all entries. -/
theorem run_linearizable {c c' : State Tid} {sched : List (Tid × Turn)}
    {es : List (Tid × Event)} (hinit : Initialized c)
    (howned : Refine.Along (step thread) Owned c sched)
    (hrun : Refine.run (step thread) c sched = some (c', es)) (hwrap : NoWrap es) :
    Linearizable stackSpec [] (historyOf es) ∧
      Chain c'.shared.links c'.shared.next (stackOf es) ∧
      (∀ e, (pushedBy es).count e =
        (takenBy es).count e + if e ∈ stackOf es then 1 else 0) ∧
      ∀ t turn d result, step thread c' (t, turn) = some (d, (t, .exchanged .flush result)) →
        Chain d.shared.links result (stackOf es) := by
  obtain ⟨hinv, hx, hperm⟩ := run_sound hinit howned hrun hwrap
  refine ⟨hx.linearizable, hinv.chain, fun e => ?_, ?_⟩
  · rw [hperm.count_eq, count_append, hinv.chain.nodup.count]
  · intro t turn d result hstep
    obtain ⟨m, l, ev, hthread, rfl, hev⟩ := step_eq_some.mp hstep
    obtain rfl : Event.exchanged .flush result = ev := congrArg Prod.snd hev
    have hm := thread_moves hthread
    dsimp only at hm
    generalize c'.threads t = pc₀ at hm
    cases hm with
    | flush => exact hinv.chain

theorem noWrap_of_length {es : List (Tid × Event)} (h : es.length < 2 ^ 48) : NoWrap es := by
  rintro pre t op result post rfl
  have hle := since_le t pre
  have hcount : exchangesOf pre ≤ pre.length := countP_le_length
  rw [length_append] at h
  omega

def twoThreads : State Bool := ⟨⟨0#64, 0#64, fun _ => 0#64⟩, fun _ => .idle⟩

/-- Both threads push; the second one loses the race and tries again, and the first one pops. -/
def raceTurns : List (Bool × Turn) :=
  [(false, .call (.push 16#64)), (true, .call (.push 32#64)), (true, .go), (true, .go),
    (true, .go), (false, .go), (false, .go), (false, .go), (false, .go), (true, .go), (true, .go),
    (true, .go), (false, .call .pop), (false, .go), (false, .go), (false, .go), (false, .go)]

theorem along_raceTurns : Refine.Along (step thread) Owned twoThreads raceTurns := by
  have hempty : ∀ s, Chain twoThreads.shared.links twoThreads.shared.next s → s = [] :=
    fun s hs => hs.nil_of_null
  refine ⟨⟨by decide, fun s hs => by simp [hempty s hs], by simp [twoThreads, pushing]⟩, ?_⟩
  rintro p ⟨⟩
  refine ⟨⟨by decide, fun s hs => ?_, ?_⟩, ?_⟩
  · simp [Chain.nil_of_null hs]
  · decide
  · rintro p ⟨⟩
    refine Refine.along_of_forall ?_ _
    simp [Owned]

theorem run_linearizable_race : ∃ (c : State Bool) (es : List (Bool × Event)),
      Refine.run (step thread) twoThreads raceTurns = some (c, es) ∧
        historyOf es = [(false, .call (.push 16#64)), (true, .call (.push 32#64)),
          (false, .ret 0#64), (true, .ret 16#64), (false, .call .pop), (false, .ret 32#64)] ∧
        Linearizable stackSpec [] (historyOf es) := by
  have hinit : Initialized twoThreads := ⟨rfl, rfl, fun _ => rfl⟩
  have hrun : Refine.run (step thread) twoThreads raceTurns = some (_, _) := rfl
  exact ⟨_, _, hrun, rfl,
    (run_linearizable hinit along_raceTurns hrun (noWrap_of_length (by decide))).1⟩

end ImpossibleOs.Ex.SList
