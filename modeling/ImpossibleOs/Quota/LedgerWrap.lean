import ImpossibleOs.Quota.LedgerRun

/-!
The counter of the epochs wraps.

The ceiling on epochs refuses a claim but lets the counter go on, so after
`2 ^ 64` draws the same epochs are given out again. A handle that was returned
long ago then names the slot of a later charge, and returning its duplicate
frees that slot.
-/

namespace ImpossibleOs.Quota.Ledger

open Interleave Function List

variable {c : State Bool ℕ} {n k e : ℕ} {P Q : State Bool ℕ → Prop}

/-- Some turns lead to such a state and free the obligation of epoch `8` at least `n` times. -/
def Leads (c : State Bool ℕ) (n : ℕ) (P : State Bool ℕ → Prop) : Prop :=
  ∃ turns c' es, Refine.run (step Ledger.thread) c turns = some (c', es) ∧
    n ≤ (freed es).count 8 ∧ P c'

theorem freed_append {Tid : Type*} (es es' : List (Tid × Event)) :
    freed (es ++ es') = freed es ++ freed es' := by
  simp [freed, frees]

theorem Leads.here (h : P c) : Leads c 0 P := ⟨[], c, [], rfl, Nat.zero_le _, h⟩

theorem Leads.trans (h : Leads c n P) (hnext : ∀ c', P c' → Leads c' k Q) : Leads c (n + k) Q := by
  obtain ⟨is, c₁, es, hrun, hn, hp⟩ := h
  obtain ⟨js, c₂, es', hrun', hk, hq⟩ := hnext c₁ hp
  refine ⟨is ++ js, c₂, es ++ es', Refine.run_append hrun hrun', ?_, hq⟩
  rw [freed_append, count_append]
  exact Nat.add_le_add hn hk

/-- The turn of a thread, computed on what is known of the state. -/
theorem Leads.step (t : Bool) (turn : Turn ℕ)
    (h : ∃ p, thread c.shared (c.threads t) turn = some p ∧
      Leads ⟨p.1.1, update c.threads t p.1.2⟩ n P) : Leads c n P := by
  obtain ⟨⟨⟨m, l⟩, ev⟩, hthread, is, c', es, hrun, hn, hp⟩ := h
  refine ⟨(t, turn) :: is, c', (t, ev) :: es,
    Refine.run_cons (step_eq_some.mpr ⟨m, l, ev, hthread, rfl, rfl⟩) hrun, ?_, hp⟩
  rw [← singleton_append, freed_append, count_append]
  exact hn.trans (Nat.le_add_left ..)

theorem Leads.free (t : Bool) (turn : Turn ℕ) {s : ℕ}
    (h : ∃ p, thread c.shared (c.threads t) turn = some (p, .freed s 8)) :
    Leads c 1 fun _ => True := by
  obtain ⟨⟨m, l⟩, hthread⟩ := h
  exact ⟨[(t, turn)], _, [(t, .freed s 8)],
    Refine.run_cons (step_eq_some.mpr ⟨m, l, _, hthread, rfl, rfl⟩) rfl, le_rfl, trivial⟩

/-- The gate of the task is closed. -/
def closedEnv : Env ℕ := ⟨⟨false, false, some 0, none, none, true⟩, true, true, .nothing⟩

/-- All slots but the last are held, and the charge of the last has been returned. -/
structure Calm (e : ℕ) (c : State Bool ℕ) : Prop where
  free : c.shared.owner 7 = 0
  held : ∀ s < 7, c.shared.owner s ≠ 0
  obligations : c.shared.obligations 0 = 7
  epoch : c.shared.epochNext = e
  capacity : c.shared.capacity = 8
  hint : c.shared.claimHint = 8
  issued : ⟨7, 1, 8⟩ ∈ c.shared.issued
  tag : (c.shared.chain.receipt 7).tag = Charge.receiptTag 1 Charge.receiptIdle
  idle : ∀ t, (c.threads t).pc = .idle ∧ (c.threads t).chain.pc = .idle

/-- The first thread has reserved a charge and found the last slot. -/
def drawing (c : State Bool ℕ) : State Bool ℕ :=
  ⟨c.shared.setObligations 0 8,
    update c.threads false ⟨.draw ⟨0, 1, 0⟩ ⟨0, 8, 8, true, 7⟩, (c.threads false).chain⟩⟩

section Turns

attribute [local simp] thread start go goCharge goReturn stay answer inner afterCharge afterReturn
  ends Local.goto Charge.thread Charge.start Charge.go Charge.stay Charge.failCharge
  Charge.returnDone Charge.takeCharge Charge.Local.goto Mem.setObligations Mem.setOwner
  Mem.setRtype Mem.releaseObligation Charge.Mem.setReceipt Scan.upto closedEnv
  Charge.receiptTag Charge.tagGen Charge.tagState Charge.receiptIdle Charge.receiptBusy
  Charge.receiptActive Charge.genMax Charge.typeCount Charge.amountMax Charge.sourceCount

theorem Calm.search (h : Calm e c) (hnext : Leads (drawing c) n P) : Leads c n P := by
  refine .step false (.charge 0 1 0) ?_
  simp [h.idle]
  -- Seven slots are held, and the search starts behind the last one.
  iterate 14
    refine .step false (.go closedEnv) ?_
    simp [h.obligations, reserveTries, typeCap, capDefault, h.hint, h.capacity, h.free, h.held]
  simpa [drawing, h.capacity, h.hint] using hnext

theorem Calm.cycle (h : Calm e c) : Leads c 0 (Calm ((e + 1) % 2 ^ 64)) := by
  generalize hep : (e + 1) % 2 ^ 64 = ep
  have hdrawn : (c.shared.epochNext + 1) % 18446744073709551616 = ep := h.epoch ▸ hep
  have hsame : update c.shared.owner 7 0 = c.shared.owner := update_eq_self_iff.mpr h.free.symm
  refine h.search ?_
  -- The ceiling refuses the epoch, or the gate does the charge.
  by_cases hrefused : ep = 0 ∨ slotEpochMax < ep
  · iterate 3
      refine .step false (.go closedEnv) ?_
      simp [drawing, hdrawn, hrefused]
    refine .here ⟨h.free, h.held, rfl, rfl, h.capacity, h.hint, h.issued, h.tag, ?_⟩
    simp [h.idle]
  · iterate 13
      refine .step false (.go closedEnv) ?_
      simp [drawing, hdrawn, hrefused, h.free, h.tag, h.idle, hsame]
    refine .here ⟨h.free, h.held, rfl, rfl, h.capacity, rfl, h.issued, ?_, ?_⟩
    all_goals simp [h.idle]

theorem Calm.cycles (n : ℕ) (h : Calm e c) : Leads c 0 (Calm ((e + (n + 1)) % 2 ^ 64)) := by
  induction n with
  | zero => exact h.cycle
  | succ n ih =>
    refine ih.trans (k := 0) fun c' h' => ?_
    have hnext := h'.cycle
    rwa [Nat.mod_add_mod, Nat.add_assoc] at hnext

theorem Calm.twice (h : Calm 7 c) : Leads c 1 fun _ => True := by
  refine h.search ?_
  iterate 2
    refine .step false (.go closedEnv) ?_
    simp [drawing, h.epoch, h.free, slotEpochMax]
  refine .step true (.giveBack ⟨7, 1, 8⟩ false false) ?_
  simp [h.idle, h.issued, h.capacity]
  iterate 5
    refine .step true (.go closedEnv) ?_
    simp [h.idle, h.tag, Charge.returnBusyTries]
  refine .free (s := 7) true (.go closedEnv) ?_
  simp [epochOf, slotDeferred]

end Turns

/-- All slots are charged, and the last one is returned. -/
def openingTurns : List (Bool × Turn ℕ) :=
  (List.replicate 8 ([(false, Turn.charge 0 1 0)] ++ goes false 19 openEnv)).flatten ++
    [(false, Turn.giveBack ⟨7, 1, 8⟩ false false)] ++ goes false 10 openEnv

theorem opening : Leads (initial fun _ _ => 0) 1 (Calm 8) := by
  have hsome : (Refine.run (step Ledger.thread) (initial fun _ _ => 0) openingTurns).any
      (fun (p : State Bool ℕ × List (Bool × Event)) =>
        decide (1 ≤ (freed p.2).count 8 ∧ p.1.shared.owner 7 = 0) &&
        decide (∀ s ∈ range 7, p.1.shared.owner s ≠ 0) &&
        decide (p.1.shared.obligations 0 = 7 ∧ p.1.shared.epochNext = 8) &&
        decide (p.1.shared.capacity = 8 ∧ p.1.shared.claimHint = 8) &&
        decide (⟨7, 1, 8⟩ ∈ p.1.shared.issued) &&
        decide ((p.1.shared.chain.receipt 7).tag = Charge.receiptTag 1 Charge.receiptIdle) &&
        decide (∀ t, (p.1.threads t).pc = .idle ∧ (p.1.threads t).chain.pc = .idle)) = true := by
    decide +kernel
  obtain ⟨⟨c, es⟩, hrun, hval⟩ := (Option.any_eq_true _ _).mp hsome
  simp only [Bool.and_eq_true, decide_eq_true_eq] at hval
  obtain ⟨⟨⟨⟨⟨⟨⟨hcount, hfree⟩, hheld⟩, hob, hepoch⟩, hcap, hhint⟩, hissued⟩, htag⟩, hidle⟩ := hval
  exact ⟨_, c, es, hrun, hcount, hfree, fun s hs => hheld s (mem_range.mpr hs), hob, hepoch,
    hcap, hhint, hissued, htag, hidle⟩

/-- After the counter has wrapped, one obligation is freed twice: the second time in place of the
charge that holds its slot now. -/
theorem ledger_epoch_wraps : ∃ (turns : List (Bool × Turn ℕ)) (c : State Bool ℕ)
    (es : List (Bool × Event)),
    Refine.run (step Ledger.thread) (initial fun _ _ => 0) turns = some (c, es) ∧
      ¬ InOrder c es := by
  have htwice : Leads (initial fun _ _ => 0) 2 fun _ => True :=
    (opening.trans fun c h => h.cycles (2 ^ 64 - 2)).trans fun c h => h.twice
  obtain ⟨turns, c, es, hrun, hcount, -⟩ := htwice
  refine ⟨turns, c, es, hrun, fun hok => ?_⟩
  have hle := nodup_iff_count_le_one.mp hok.freed_nodup 8
  omega

end ImpossibleOs.Quota.Ledger
