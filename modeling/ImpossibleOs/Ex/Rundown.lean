import ImpossibleOs.Lib.Interleave
import Mathlib.Data.BitVec
import Mathlib.Tactic.Ring

/-!
Rundown protection (`ex_rundown.c`).

`EX_RUNDOWN_REF` is one 64-bit word: bit 0 says that the rundown has begun, the
bits above count the references. Acquire, release and the first half of the
wait load the word and then try a weak compare-and-swap until it goes through;
the second half of the wait polls. Each access is a step of its own.
-/

namespace ImpossibleOs.Ex.Rundown

open Interleave List

/-- `Count` of an `EX_RUNDOWN_REF`. -/
abbrev Count := BitVec 64

def rundownActive : Count := 0x1#64

def rundownRefInc : Count := 0x2#64

/-- `ExInitializeRundownProtection` and `ExReInitializeRundownProtection` store this. -/
def initialCount : Count := 0#64

def isRundownActive (count : Count) : Bool := count &&& rundownActive != 0#64

def refCount (count : Count) : Count := count >>> 1

/-- What stands in the memory: the word, and whether the machine was stopped by a bugcheck. -/
structure Memory where
  count : Count
  bugchecked : Bool := false
  deriving DecidableEq, Repr

inductive Op
  | acquire
  | release
  | wait
  deriving DecidableEq, Repr

/-- Where a thread stands, with its copy `cur` of the word. -/
inductive Pc
  | idle
  | acquireLoad
  | acquireTry (cur : Count)
  | releaseLoad
  | releaseTry (cur : Count)
  | waitLoad
  | waitTry (cur : Count)
  | waitPoll
  deriving DecidableEq, Repr

/-- A turn of a thread: it calls one of the functions, goes on, or goes on with a weak
compare-and-swap that fails although the word is the expected one. -/
inductive Turn
  | call (op : Op)
  | go
  | spurious
  deriving DecidableEq, Repr

inductive Event
  | silent
  | acquired (ok : Bool)
  | released
  | waited
  | unbalanced
  deriving DecidableEq, Repr

/-- The first instruction of a call. -/
def Op.start : Op → Pc
  | .acquire => .acquireLoad
  | .release => .releaseLoad
  | .wait => .waitLoad

/-- Whether a weak `__atomic_compare_exchange_n` stores. -/
def Exchanges (count cur : Count) (turn : Turn) : Prop := count = cur ∧ turn ≠ .spurious

instance (count cur : Count) (turn : Turn) : Decidable (Exchanges count cur turn) :=
  inferInstanceAs (Decidable (_ ∧ _))

/-- One atomic access of a thread, with the local computation up to the next one. -/
def thread (m : Memory) (pc : Pc) (turn : Turn) : Option ((Memory × Pc) × Event) :=
  if m.bugchecked then none
  else match pc, turn with
  | .idle, .call op => some ((m, op.start), .silent)
  | .idle, _ => none
  | _, .call _ => none
  | .acquireLoad, _ => some ((m, .acquireTry m.count), .silent)
  | .acquireTry cur, _ =>
    if isRundownActive cur then some ((m, .idle), .acquired false)
    else if Exchanges m.count cur turn then
      some (({ m with count := cur + rundownRefInc }, .idle), .acquired true)
    else some ((m, .acquireTry m.count), .silent)
  | .releaseLoad, _ => some ((m, .releaseTry m.count), .silent)
  | .releaseTry cur, _ =>
    if refCount cur = 0#64 then some (({ m with bugchecked := true }, .idle), .unbalanced)
    else if Exchanges m.count cur turn then
      some (({ m with count := cur - rundownRefInc }, .idle), .released)
    else some ((m, .releaseTry m.count), .silent)
  | .waitLoad, _ => some ((m, .waitTry m.count), .silent)
  | .waitTry cur, _ =>
    if cur = cur ||| rundownActive then some ((m, .waitPoll), .silent)
    else if Exchanges m.count cur turn then
      some (({ m with count := cur ||| rundownActive }, .waitPoll), .silent)
    else some ((m, .waitTry m.count), .silent)
  | .waitPoll, _ =>
    if refCount m.count ≠ 0#64 then some ((m, .waitPoll), .silent)
    else some ((m, .idle), .waited)

/-- The turns of the threads. -/
abbrev State (Tid : Type*) := Config Tid Memory Pc

/-- References taken and not yet given back. -/
def outstanding {Tid : Type*} (es : List (Tid × Event)) : ℤ :=
  es.countP (fun e => e.2 = .acquired true) - es.countP (fun e => e.2 = .released)

/-! ### The word -/

def activeBit (count : Count) : ℕ := if isRundownActive count then 1 else 0

theorem isRundownActive_iff (count : Count) :
    isRundownActive count = true ↔ count.toNat % 2 = 1 := by
  have h : (count &&& rundownActive).toNat = count.toNat % 2 := by
    rw [BitVec.toNat_and]
    exact Nat.and_one_is_mod _
  rw [isRundownActive, bne_iff_ne, ne_eq, ← BitVec.toNat_inj, h]
  simp

theorem activeBit_eq (count : Count) : activeBit count = count.toNat % 2 := by
  rw [activeBit]
  split
  · exact ((isRundownActive_iff count).mp ‹_›).symm
  · have := (isRundownActive_iff count).not.mp ‹_›
    omega

theorem refCount_eq_zero (count : Count) : refCount count = 0#64 ↔ count.toNat < 2 := by
  rw [refCount, ← BitVec.toNat_inj, BitVec.toNat_ushiftRight, Nat.shiftRight_eq_div_pow]
  simp

variable {m m' : Memory} {pc pc' : Pc} {count : Count} {ev : Event}

theorem toNat_or_active (h : ¬ isRundownActive count) :
    (count ||| rundownActive).toNat = count.toNat + 1 := by
  have h0 : count &&& rundownActive = 0#64 := by simpa [isRundownActive] using h
  have heven : count.toNat % 2 = 0 := by
    have := (isRundownActive_iff count).not.mp h
    omega
  rw [← BitVec.add_eq_or_of_and_eq_zero _ _ h0, BitVec.toNat_add]
  change (count.toNat + 1) % 2 ^ 64 = _
  omega

theorem toNat_add_refInc (h : count.toNat + 2 < 2 ^ 64) :
    (count + rundownRefInc).toNat = count.toNat + 2 := by
  rw [BitVec.toNat_add]
  exact Nat.mod_eq_of_lt h

theorem toNat_sub_refInc (h : 2 ≤ count.toNat) :
    (count - rundownRefInc).toNat = count.toNat - 2 := by
  rw [BitVec.toNat_sub]
  change (2 ^ 64 - 2 + count.toNat) % 2 ^ 64 = _
  omega

theorem eq_or_active_iff (count : Count) :
    count = count ||| rundownActive ↔ isRundownActive count = true := by
  constructor
  · intro h
    by_contra hn
    have := toNat_or_active hn
    rw [← h] at this
    omega
  · intro h
    have h0 : count.getLsbD 0 = true := by
      rw [BitVec.getLsbD, Nat.testBit_zero, decide_eq_true_eq]
      exact (isRundownActive_iff count).mp h
    apply BitVec.eq_of_getLsbD_eq
    intro i hi
    rw [BitVec.getLsbD_or, rundownActive, BitVec.getLsbD_one]
    cases i with
    | zero => simp [h0]
    | succ i => simp

/-- The steps by what they do to the word. -/
inductive Moves (m : Memory) : Pc → Memory → Pc → Event → Prop
  | still {pc pc' : Pc} {ev : Event} (m' : Memory) (hcount : m'.count = m.count)
      (htry : ∀ cur, pc' = .waitTry cur → cur = m.count)
      (hpoll : pc' = .waitPoll →
        pc = .waitPoll ∨ ∃ cur, pc = .waitTry cur ∧ isRundownActive cur)
      (hev : ev ≠ .acquired true ∧ ev ≠ .released)
      (hwaited : ev = .waited → pc = .waitPoll ∧ m.count.toNat < 2) : Moves m pc m' pc' ev
  | take (h : ¬ isRundownActive m.count) :
      Moves m (.acquireTry m.count) { m with count := m.count + rundownRefInc } .idle
        (.acquired true)
  | give (h : 2 ≤ m.count.toNat) :
      Moves m (.releaseTry m.count) { m with count := m.count - rundownRefInc } .idle .released
  | begin (h : ¬ isRundownActive m.count) :
      Moves m (.waitTry m.count) { m with count := m.count ||| rundownActive } .waitPoll .silent

theorem Moves.aside {m m₁ m' : Memory} {pc pc₁ pc' : Pc} {ev₁ ev : Event}
    (h : some ((m₁, pc₁), ev₁) = some ((m', pc'), ev)) (hcount : m₁.count = m.count)
    (htry : ∀ cur, pc₁ ≠ .waitTry cur) (hpoll : pc₁ ≠ .waitPoll)
    (hev : ev₁ = .silent ∨ ev₁ = .acquired false ∨ ev₁ = .unbalanced) : Moves m pc m' pc' ev := by
  obtain ⟨⟨rfl, rfl⟩, rfl⟩ := by simpa using h
  refine .still m₁ hcount (fun cur h => absurd h (htry cur)) (fun h => absurd h hpoll) ?_ ?_
  · rcases hev with rfl | rfl | rfl <;> simp
  · rcases hev with rfl | rfl | rfl <;> simp

theorem thread_moves {turn : Turn}
    (h : thread m pc turn = some ((m', pc'), ev)) : Moves m pc m' pc' ev := by
  unfold thread at h
  split at h
  · cases h
  · split at h
    · rename_i op
      cases op with
      | acquire => exact .aside h rfl (by simp [Op.start]) (by simp [Op.start]) (by simp)
      | release => exact .aside h rfl (by simp [Op.start]) (by simp [Op.start]) (by simp)
      | wait => exact .aside h rfl (by simp [Op.start]) (by simp [Op.start]) (by simp)
    · cases h
    · cases h
    · exact .aside h rfl (by simp) (by simp) (by simp)
    · rename_i cur _
      split at h
      · exact .aside h rfl (by simp) (by simp) (by simp)
      · rename_i hactive
        split at h
        · rename_i hx
          obtain ⟨⟨rfl, rfl⟩, rfl⟩ := by simpa using h
          rw [← hx.1] at hactive ⊢
          exact .take hactive
        · exact .aside h rfl (by simp) (by simp) (by simp)
    · exact .aside h rfl (by simp) (by simp) (by simp)
    · rename_i cur _
      split at h
      · exact .aside h rfl (by simp) (by simp) (by simp)
      · rename_i hzero
        split at h
        · rename_i hx
          obtain ⟨⟨rfl, rfl⟩, rfl⟩ := by simpa using h
          rw [← hx.1] at hzero ⊢
          rw [refCount_eq_zero] at hzero
          exact .give (by omega)
        · exact .aside h rfl (by simp) (by simp) (by simp)
    · obtain ⟨⟨rfl, rfl⟩, rfl⟩ := by simpa using h
      exact .still m rfl (by simp) (by simp) (by simp) (by simp)
    · rename_i cur _
      split at h
      · rename_i hsame
        obtain ⟨⟨rfl, rfl⟩, rfl⟩ := by simpa using h
        exact .still m rfl (by simp)
          (fun _ => .inr ⟨cur, rfl, (eq_or_active_iff cur).mp hsame⟩) (by simp) (by simp)
      · rename_i hne
        split at h
        · rename_i hx
          obtain ⟨⟨rfl, rfl⟩, rfl⟩ := by simpa using h
          rw [← hx.1] at hne ⊢
          exact .begin fun hact => hne ((eq_or_active_iff _).mpr hact)
        · obtain ⟨⟨rfl, rfl⟩, rfl⟩ := by simpa using h
          exact .still m rfl (by simp) (by simp) (by simp) (by simp)
    · split at h
      · obtain ⟨⟨rfl, rfl⟩, rfl⟩ := by simpa using h
        exact .still m rfl (by simp) (fun _ => .inl rfl) (by simp) (by simp)
      · rename_i hzero
        obtain ⟨⟨rfl, rfl⟩, rfl⟩ := by simpa using h
        rw [not_not, refCount_eq_zero] at hzero
        exact .still m rfl (by simp) (by simp) (by simp) (fun _ => ⟨rfl, hzero⟩)

/-! ### The invariant -/

/-- The word holds the references taken and not given back. -/
def Counts {Tid : Type*} (m : Memory) (es : List (Tid × Event)) : Prop :=
  (m.count.toNat : ℤ) = 2 * outstanding es + activeBit m.count ∧ 0 ≤ outstanding es

/-- A wait that is past its first half, or about to skip it, has the active bit behind it. -/
def Waits (m : Memory) : Pc → Prop
  | .waitTry cur => isRundownActive cur → isRundownActive m.count
  | .waitPoll => isRundownActive m.count
  | _ => True

/-- The step does not take a reference while 2^63 - 1 are out. -/
def Fits {Tid : Type*} (c : State Tid) (i : Tid × Turn) : Prop :=
  ∀ cur, c.threads i.1 = .acquireTry cur → c.shared.count.toNat ≠ 2 ^ 64 - 2

theorem outstanding_concat {Tid : Type*} (es : List (Tid × Event)) (e : Tid × Event) :
    outstanding (es ++ [e]) = outstanding es +
      (if e.2 = .acquired true then 1 else 0) - (if e.2 = .released then 1 else 0) := by
  simp only [outstanding, countP_append, countP_singleton, decide_eq_true_eq]
  push_cast
  ring

theorem Moves.active (h : Moves m pc m' pc' ev)
    (hact : isRundownActive m.count) : isRundownActive m'.count := by
  cases h with
  | still _ hcount => rwa [hcount]
  | take hn => exact absurd hact hn
  | give hge =>
    rw [isRundownActive_iff] at hact ⊢
    change (m.count - rundownRefInc).toNat % 2 = 1
    rw [toNat_sub_refInc hge]
    omega
  | begin hn => exact absurd hact hn

theorem Moves.count_le (h : Moves m pc m' pc' ev)
    (hlt : m.count.toNat + 2 < 2 ^ 64) : m'.count.toNat ≤ m.count.toNat + 2 := by
  cases h with
  | still _ hcount => rw [hcount]; omega
  | take => exact (toNat_add_refInc hlt).le
  | give hge =>
    dsimp only
    rw [toNat_sub_refInc hge]
    omega
  | begin hn =>
    dsimp only
    rw [toNat_or_active hn]
    omega

theorem Moves.not_active (h : Moves m pc m' pc' (.acquired true)) : ¬ isRundownActive m.count := by
  cases h with
  | still _ _ _ _ hev => exact absurd rfl hev.1
  | take hn => exact hn

theorem Moves.waited (h : Moves m pc m' pc' .waited) :
    pc = .waitPoll ∧ m.count.toNat < 2 ∧ m'.count = m.count := by
  cases h with
  | still _ hcount _ _ _ hwaited =>
    obtain ⟨hpc, hlt⟩ := hwaited rfl
    exact ⟨hpc, hlt, hcount⟩

theorem Counts.step {Tid : Type*}
    {es : List (Tid × Event)} {t : Tid} (h : Counts m es) (hm : Moves m pc m' pc' ev)
    (hfits : ∀ cur, pc = .acquireTry cur → m.count.toNat ≠ 2 ^ 64 - 2) :
    Counts m' (es ++ [(t, ev)]) := by
  obtain ⟨hcount, hpos⟩ := h
  rw [activeBit_eq] at hcount
  rw [Counts, outstanding_concat, activeBit_eq]
  cases hm with
  | still _ hsame _ _ hev =>
    rw [hsame, if_neg hev.1, if_neg hev.2]
    exact ⟨by omega, by omega⟩
  | take hn =>
    have heven := (isRundownActive_iff m.count).not.mp hn
    have hne := hfits _ rfl
    have hval := @toNat_add_refInc m.count (by omega)
    rw [if_pos rfl, if_neg (by simp)]
    dsimp only
    rw [hval]
    exact ⟨by omega, by omega⟩
  | give hge =>
    rw [if_neg (by simp), if_pos rfl]
    dsimp only
    rw [toNat_sub_refInc hge]
    exact ⟨by omega, by omega⟩
  | begin hn =>
    have heven := (isRundownActive_iff m.count).not.mp hn
    rw [if_neg (by simp), if_neg (by simp)]
    dsimp only
    rw [toNat_or_active hn]
    exact ⟨by omega, by omega⟩

theorem Moves.waits (h : Moves m pc m' pc' ev) (hw : Waits m pc) : Waits m' pc' := by
  cases h with
  | still _ hcount htry hpoll =>
    cases pc' with
    | waitTry cur =>
      intro hcur
      rw [htry cur rfl] at hcur
      rwa [hcount]
    | waitPoll =>
      have hact : isRundownActive m.count = true := by
        rcases hpoll rfl with rfl | ⟨cur, rfl, hcur⟩
        · exact hw
        · exact hw hcur
      change isRundownActive m'.count = true
      rwa [hcount]
    | _ => trivial
  | take => trivial
  | give => trivial
  | begin =>
    change isRundownActive (m.count ||| rundownActive) = true
    rw [← eq_or_active_iff]
    simp [BitVec.or_assoc]

theorem Moves.waits_other {pc pc' k : Pc}
    (h : Moves m pc m' pc' ev) (hw : Waits m k) : Waits m' k := by
  cases k with
  | waitTry cur => exact fun hcur => h.active (hw hcur)
  | waitPoll => exact h.active hw
  | _ => trivial

/-! ### Every interleaving -/

section Runs

variable {Tid : Type*} {c c' : State Tid} {sched : List (Tid × Turn)} {es : List (Tid × Event)}

/-- The word was just (re)initialised, and no thread is in the middle of a wait. Acquires and
releases may be under way, with copies of the word from before. -/
structure Armed (c : State Tid) : Prop where
  count : c.shared.count = initialCount
  noTry : ∀ t cur, c.threads t ≠ .waitTry cur
  noPoll : ∀ t, c.threads t ≠ .waitPoll

theorem Armed.waits (h : Armed c) (t : Tid) : Waits c.shared (c.threads t) := by
  cases ht : c.threads t with
  | waitTry cur => exact absurd ht (h.noTry t cur)
  | waitPoll => exact absurd ht (h.noPoll t)
  | _ => trivial

theorem Armed.counts (h : Armed c) : Counts c.shared ([] : List (Tid × Event)) := by
  rw [Counts, h.count]
  simp [outstanding, activeBit, isRundownActive, initialCount, rundownActive]

variable [DecidableEq Tid]

theorem run_counts (h : Armed c) (hfits : Refine.Along (step thread) Fits c sched)
    (hrun : Refine.run (step thread) c sched = some (c', es)) :
    Counts c'.shared es ∧ ∀ t, Waits c'.shared (c'.threads t) := by
  refine run_keeps Counts Waits ?_ h.counts h.waits hfits hrun
  intro c es i m l ev hi hG hL hthread
  have hm := thread_moves hthread
  exact ⟨hG.step hm hi, hm.waits hL, fun k hk => hm.waits_other hk⟩

theorem run_active (hact : isRundownActive c.shared.count)
    (hrun : Refine.run (step thread) c sched = some (c', es)) :
    isRundownActive c'.shared.count ∧ ∀ t, (t, Event.acquired true) ∉ es := by
  refine Refine.run_invariant
    (fun c es => isRundownActive c.shared.count ∧ ∀ t, (t, Event.acquired true) ∉ es) ?_
    ⟨hact, fun t => (not_mem_nil : (t, Event.acquired true) ∉ [])⟩
    (Refine.along_true _ _ _) hrun
  rintro c es i c' e ⟨hact, hnone⟩ - hs
  obtain ⟨m, l, ev, hthread, rfl, rfl⟩ := step_eq_some.mp hs
  have hm := thread_moves hthread
  refine ⟨hm.active hact, fun t hmem => ?_⟩
  rcases mem_append.mp hmem with hmem | hmem
  · exact hnone t hmem
  · obtain ⟨rfl, rfl⟩ : t = i.1 ∧ Event.acquired true = ev := by simpa using hmem
    exact hm.not_active hact

theorem along_fits (h : c.shared.count.toNat + 2 * sched.length < 2 ^ 64 - 1) :
    Refine.Along (step thread) Fits c sched := by
  induction sched generalizing c with
  | nil => trivial
  | cons i sched ih =>
    rw [length_cons] at h
    refine ⟨fun cur _ => by omega, ?_⟩
    rintro ⟨c₁, e⟩ hstep
    obtain ⟨m, l, ev, hthread, rfl, rfl⟩ := step_eq_some.mp hstep
    have hle := (thread_moves hthread).count_le (by omega)
    exact ih (by dsimp only; omega)

theorem waited_spec {t : Tid} {turn : Turn} (hcounts : Counts c.shared es)
    (hwaits : Waits c.shared (c.threads t))
    (hstep : step thread c (t, turn) = some (c', (t, .waited))) :
    outstanding es = 0 ∧ isRundownActive c'.shared.count := by
  obtain ⟨m, l, ev, hthread, rfl, hev⟩ := step_eq_some.mp hstep
  obtain rfl : Event.waited = ev := congrArg Prod.snd hev
  obtain ⟨hpc, hlt, hcount⟩ := (thread_moves hthread).waited
  dsimp only at hpc
  rw [hpc] at hwaits
  have hbit := (isRundownActive_iff _).mp hwaits
  obtain ⟨hval, hpos⟩ := hcounts
  rw [activeBit_eq] at hval
  refine ⟨by omega, ?_⟩
  dsimp only
  rw [hcount]
  exact hwaits

/-- Rundown protection: the word counts the references, an acquire never goes through behind
the active bit, and a wait returns when no reference is out and leaves none to be taken. -/
theorem run_protects (harmed : Armed c) (hfits : Refine.Along (step thread) Fits c sched)
    (hrun : Refine.run (step thread) c sched = some (c', es)) :
    ((c'.shared.count.toNat : ℤ) = 2 * outstanding es + activeBit c'.shared.count) ∧
      (isRundownActive c'.shared.count → ∀ later d ds,
        Refine.run (step thread) c' later = some (d, ds) → ∀ t, (t, .acquired true) ∉ ds) ∧
      ∀ t turn d, step thread c' (t, turn) = some (d, (t, .waited)) →
        outstanding es = 0 ∧ ∀ later d' ds, Refine.run (step thread) d later = some (d', ds) →
          ∀ u, (u, .acquired true) ∉ ds := by
  obtain ⟨hcounts, hwaits⟩ := run_counts harmed hfits hrun
  refine ⟨hcounts.1, ?_, ?_⟩
  · intro hact later d ds hlater
    exact (run_active hact hlater).2
  · intro t turn d hstep
    obtain ⟨hnone, hact⟩ := waited_spec hcounts (hwaits t) hstep
    exact ⟨hnone, fun later d' ds hlater => (run_active hact hlater).2⟩

end Runs

/-- Two threads: one takes a reference, the other begins to wait, the first gives it back. -/
def drainTurns : List (Bool × Turn) :=
  [(false, .call .acquire), (false, .go), (false, .go), (true, .call .wait), (true, .go),
    (true, .go), (true, .go), (false, .call .release), (false, .go), (false, .go)]

def drainStart : State Bool := ⟨⟨initialCount, false⟩, fun _ => .idle⟩

theorem run_protects_drain : ∃ (c d : State Bool) (es : List (Bool × Event)),
      Refine.run (step thread) drainStart drainTurns = some (c, es) ∧
        step thread c (true, .go) = some (d, (true, .waited)) ∧ outstanding es = 0 ∧
          ∀ later d' ds, Refine.run (step thread) d later = some (d', ds) →
            ∀ u, (u, .acquired true) ∉ ds := by
  have harmed : Armed drainStart := ⟨rfl, by simp [drainStart], by simp [drainStart]⟩
  have hfits : Refine.Along (step thread) Fits drainStart drainTurns :=
    along_fits (by decide)
  obtain ⟨-, -, hwait⟩ := run_protects harmed hfits rfl
  exact ⟨_, _, _, rfl, rfl, hwait true .go _ rfl⟩

/-! ### Too many references -/

/-- One thread, between calls. -/
def alone (count : Count) : State Unit := ⟨⟨count, false⟩, fun _ => .idle⟩

/-- An acquire that runs undisturbed. -/
def acquireTurns : List (Unit × Turn) := [((), .call .acquire), ((), .go), ((), .go)]

def acquireEvents : List (Unit × Event) := [((), .silent), ((), .silent), ((), .acquired true)]

theorem run_acquireTurns (h : ¬ isRundownActive count) :
    Refine.run (step thread) (alone count) acquireTurns =
      some (alone (count + rundownRefInc), acquireEvents) := by
  simp [Refine.run, step, thread, alone, acquireTurns, acquireEvents, Op.start, Exchanges, h]

theorem isRundownActive_add_refInc (h : ¬ isRundownActive count) :
    ¬ isRundownActive (count + rundownRefInc) := by
  rw [isRundownActive_iff] at h ⊢
  have hval : (count + rundownRefInc).toNat = (count.toNat + 2) % 2 ^ 64 := BitVec.toNat_add _ _
  omega

theorem run_acquires (n : ℕ) (h : ¬ isRundownActive count) :
    Refine.run (step thread) (alone count) (replicate n acquireTurns).flatten =
      some (alone (count + BitVec.ofNat 64 (2 * n)), (replicate n acquireEvents).flatten) := by
  induction n generalizing count with
  | zero => simp [Refine.run]
  | succ n ih =>
    have hstep := run_acquireTurns h
    have hrest := ih (isRundownActive_add_refInc h)
    have hsum : count + rundownRefInc + BitVec.ofNat 64 (2 * n) =
        count + BitVec.ofNat 64 (2 * (n + 1)) := by
      apply BitVec.eq_of_toNat_eq
      simp only [BitVec.toNat_add, BitVec.toNat_ofNat, rundownRefInc]
      omega
    rw [hsum] at hrest
    simpa [replicate_succ] using Refine.run_append hstep hrest

theorem outstanding_append {Tid : Type*} (es ds : List (Tid × Event)) :
    outstanding (es ++ ds) = outstanding es + outstanding ds := by
  simp only [outstanding, countP_append]
  push_cast
  ring

theorem outstanding_acquires (n : ℕ) :
    outstanding (replicate n acquireEvents).flatten = n := by
  induction n with
  | zero => rfl
  | succ n ih =>
    rw [replicate_succ, flatten_cons, outstanding_append, ih]
    have hone : outstanding acquireEvents = 1 := rfl
    rw [hone]
    push_cast
    ring

/-- A wait on the word 0, up to its last read of the word. -/
def waitTurns : List (Unit × Turn) := [((), .call .wait), ((), .go), ((), .go)]

def waitEvents : List (Unit × Event) := [((), .silent), ((), .silent), ((), .silent)]

theorem run_wraps {n : ℕ} (hn : n = 2 ^ 63) :
    ∃ (sched : List (Unit × Turn)) (c d : State Unit) (es : List (Unit × Event)),
      Refine.run (step thread) (alone initialCount) sched = some (c, es) ∧
        outstanding es = n ∧ c.shared.count = rundownActive ∧
          step thread c ((), .go) = some (d, ((), .waited)) := by
  have hacq := @run_acquires initialCount n (by decide)
  have hzero : initialCount + BitVec.ofNat 64 (2 * n) = initialCount := by
    apply BitVec.eq_of_toNat_eq
    simp only [BitVec.toNat_add, BitVec.toNat_ofNat, initialCount]
    omega
  rw [hzero] at hacq
  have hwait : Refine.run (step thread) (alone initialCount) waitTurns =
      some (⟨⟨rundownActive, false⟩, fun _ => .waitPoll⟩, waitEvents) := by
    rfl
  refine ⟨_, ⟨⟨rundownActive, false⟩, fun _ => .waitPoll⟩, alone rundownActive, _,
    Refine.run_append hacq hwait, ?_, rfl, rfl⟩
  rw [outstanding_append, outstanding_acquires]
  have hnone : outstanding waitEvents = 0 := rfl
  rw [hnone, add_zero]

theorem run_protects_wrapped :
    ∃ (sched : List (Unit × Turn)) (c d : State Unit) (es : List (Unit × Event)),
      Armed (alone initialCount) ∧
        Refine.run (step thread) (alone initialCount) sched = some (c, es) ∧
          (c.shared.count.toNat : ℤ) ≠ 2 * outstanding es + activeBit c.shared.count ∧
            step thread c ((), .go) = some (d, ((), .waited)) ∧ outstanding es ≠ 0 := by
  obtain ⟨sched, c, d, es, hrun, hout, hcount, hwait⟩ := @run_wraps (2 ^ 63) rfl
  have harmed : Armed (alone initialCount) := ⟨rfl, by simp [alone], by simp [alone]⟩
  refine ⟨sched, c, d, es, harmed, hrun, ?_, hwait, ?_⟩
  · rw [hcount, hout]
    decide
  · rw [hout]
    decide

end ImpossibleOs.Ex.Rundown
