import ImpossibleOs.Lib.Interleave
import Mathlib.Data.Nat.Bitwise
import Mathlib.Tactic.Ring

/-!
The charge gate of a task (`src/kernel/quota/quota_ledger.c`).

The gate is one 64-bit word: two bits of state below the number of chargers in
flight. Every change is a compare-and-swap on the whole word, so a step is
either a load, with what the caller does with the value, or an attempt to
exchange it.
-/

namespace ImpossibleOs.Quota.Gate

open Interleave Function List

/-! ### The word -/

def stateOpen : ℕ := 0
def stateClosed : ℕ := 1
def stateSealed : ℕ := 2

/-- `QUOTA_GATE_PACK` -/
def pack (state count : ℕ) : ℕ := (count <<< 2) % 2 ^ 64 ||| state

/-- `QUOTA_GATE_STATE` -/
def stateOf (word : ℕ) : ℕ := word &&& 3

/-- `QUOTA_GATE_COUNT` -/
def countOf (word : ℕ) : ℕ := word >>> 2

/-- `QUOTA_GATE_COUNT_MAX` -/
def countMax : ℕ := 0x3FFFFFFFFFFFFFFF

/-- `QUOTA_GATE_DRAIN_SPINS` -/
def drainSpins : ℕ := 2 ^ 17

/-- `QUOTA_GATE_CLAIM_TRIES` -/
def claimTries : ℕ := 64

theorem stateOf_eq (word : ℕ) : stateOf word = word % 4 := Nat.and_two_pow_sub_one_eq_mod word 2

theorem countOf_eq (word : ℕ) : countOf word = word / 4 := Nat.shiftRight_eq_div_pow word 2

variable {state count : ℕ}

theorem pack_eq (hs : state < 4) (hc : count ≤ countMax) :
    pack state count = 4 * count + state := by
  rw [countMax] at hc
  rw [pack, Nat.shiftLeft_eq, Nat.mod_eq_of_lt (by omega), Nat.mul_comm]
  exact (Nat.two_pow_add_eq_or_of_lt (i := 2) hs count).symm

theorem stateOf_pack (hs : state < 4) (hc : count ≤ countMax) :
    stateOf (pack state count) = state := by
  rw [stateOf_eq, pack_eq hs hc]
  omega

theorem countOf_pack (hs : state < 4) (hc : count ≤ countMax) :
    countOf (pack state count) = count := by
  rw [countOf_eq, pack_eq hs hc]
  omega

theorem stateOf_lt (word : ℕ) : stateOf word < 4 := by
  rw [stateOf_eq]
  omega

/-! ### Threads -/

/-- The calls; `close` is `quota_gate_seal`. -/
inductive Op
  | enter
  | exit
  | quiesce
  | reopen
  | close
  deriving DecidableEq, Repr

/-- What a quiesce returns. -/
inductive Status
  | success
  | retry
  | terminating
  deriving DecidableEq, Repr

/-- Where a thread stands, with its copy of the word. The reopen of a quiesce that gave up is
marked `timedOut`. -/
inductive Pc
  | idle
  | enterLoad
  | enterTry (word : ℕ)
  | exitLoad
  | exitTry (word : ℕ)
  | sealLoad
  | sealTry (word : ℕ)
  | reopenLoad (timedOut : Bool)
  | reopenTry (timedOut : Bool) (word : ℕ)
  | claimLoad (left : ℕ)
  | claimTry (left word : ℕ)
  | drain (left : ℕ)
  deriving DecidableEq, Repr

/-- A thread; `holds` from the return of a quiesce that succeeded until its reopen. -/
structure Local where
  pc : Pc
  holds : Bool
  deriving DecidableEq, Repr

def Local.goto (l : Local) (pc : Pc) : Local := { l with pc := pc }

inductive Turn
  | call (op : Op)
  | go
  deriving DecidableEq, Repr

inductive Event
  | silent
  | entered (ok : Bool)
  | exited
  | returned
  | quiesced (status : Status)
  deriving DecidableEq, Repr

/-- The start of a call. Reopen is called only by a caller whose quiesce succeeded. -/
def start (l : Local) : Op → Option Local
  | .enter => some (l.goto .enterLoad)
  | .exit => some (l.goto .exitLoad)
  | .close => some (l.goto .sealLoad)
  | .quiesce => some (l.goto (.claimLoad (claimTries - 1)))
  | .reopen => if l.holds then some ⟨.reopenLoad false, false⟩ else none

def reopened (timedOut : Bool) : Event := if timedOut then .quiesced .retry else .returned

/-- One access of the word, with the local computation up to the next one. -/
def go (w : ℕ) (l : Local) : Option ((ℕ × Local) × Event) :=
  match l.pc with
  | .idle => none
  | .enterLoad =>
    if stateOf w ≠ stateOpen then some ((w, l.goto .idle), .entered false)
    else if countMax ≤ countOf w then some ((w, l.goto .idle), .entered false)
    else some ((w, l.goto (.enterTry w)), .silent)
  | .enterTry word =>
    if w = word then some ((pack stateOpen (countOf word + 1), l.goto .idle), .entered true)
    else some ((w, l.goto .enterLoad), .silent)
  | .exitLoad =>
    if countOf w = 0 then some ((w, l.goto .idle), .returned)
    else some ((w, l.goto (.exitTry w)), .silent)
  | .exitTry word =>
    if w = word then some ((pack (stateOf word) (countOf word - 1), l.goto .idle), .exited)
    else some ((w, l.goto .exitLoad), .silent)
  | .sealLoad =>
    if stateOf w = stateSealed then some ((w, l.goto .idle), .returned)
    else some ((w, l.goto (.sealTry w)), .silent)
  | .sealTry word =>
    if w = word then some ((pack stateSealed (countOf word), l.goto .idle), .returned)
    else some ((w, l.goto .sealLoad), .silent)
  | .reopenLoad timedOut =>
    if stateOf w ≠ stateClosed then some ((w, l.goto .idle), reopened timedOut)
    else some ((w, l.goto (.reopenTry timedOut w)), .silent)
  | .reopenTry timedOut word =>
    if w = word then some ((pack stateOpen (countOf word), l.goto .idle), reopened timedOut)
    else some ((w, l.goto (.reopenLoad timedOut)), .silent)
  | .claimLoad left =>
    if stateOf w = stateSealed then some ((w, l.goto .idle), .quiesced .terminating)
    else if stateOf w = stateClosed then some ((w, l.goto .idle), .quiesced .retry)
    else some ((w, l.goto (.claimTry left w)), .silent)
  | .claimTry left word =>
    if w = word then
      some ((pack stateClosed (countOf word), l.goto (.drain (drainSpins - 1))), .silent)
    else if left = 0 then some ((w, l.goto .idle), .quiesced .retry)
    else some ((w, l.goto (.claimLoad (left - 1))), .silent)
  | .drain left =>
    if stateOf w = stateSealed then some ((w, l.goto .idle), .quiesced .terminating)
    else if countOf w = 0 then some ((w, ⟨.idle, true⟩), .quiesced .success)
    else if left = 0 then some ((w, l.goto (.reopenLoad true)), .silent)
    else some ((w, l.goto (.drain (left - 1))), .silent)

def thread (w : ℕ) (l : Local) : Turn → Option ((ℕ × Local) × Event)
  | .call op =>
    if l.pc = .idle then (start l op).map fun l' => ((w, l'), .silent) else none
  | .go => go w l

abbrev State (Tid : Type*) := Config Tid ℕ Local

/-- A task slot that was just zeroed. -/
def initial (Tid : Type*) : State Tid := ⟨0, fun _ => ⟨.idle, false⟩⟩

/-- Successful enters that have not exited. -/
def inFlight {Tid : Type*} (es : List (Tid × Event)) : ℤ :=
  es.countP (fun e => e.2 = .entered true) - es.countP (fun e => e.2 = .exited)

/-! ### Who owns a closed gate -/

/-- The thread has closed the gate and neither finished its quiesce without success nor
reopened. -/
def Pc.closing : Pc → Bool
  | .reopenLoad _ => true
  | .reopenTry _ _ => true
  | .drain _ => true
  | _ => false

def Local.Owns (l : Local) : Prop := l.holds = true ∨ l.pc.closing = true

/-- A thread that is still closing, or already reopening, does not hold the gate. -/
def Local.Apart (l : Local) : Prop := l.pc.closing = true → l.holds = false

/-- What a thread knows of its copy of the word. -/
def Pc.Ready : Pc → Prop
  | .enterTry word => stateOf word = stateOpen ∧ countOf word < countMax
  | .exitTry word => 0 < countOf word
  | .reopenTry _ word => stateOf word = stateClosed
  | .claimTry _ word => stateOf word ≠ stateSealed ∧ stateOf word ≠ stateClosed
  | _ => True

/-- Steps by what they do to the word and to its owner. -/
inductive Moves (w : ℕ) (l : Local) : ℕ → Local → Event → Prop
  | still {l' : Local} {ev : Event} (howns : l'.Owns ↔ l.Owns) (hholds : l'.holds → l.holds)
      (hapart : l.Apart → l'.Apart) (hready : l'.pc.Ready) (hin : ev ≠ .entered true)
      (hout : ev ≠ .exited) (hsucc : ev ≠ .quiesced .success)
      (hidle : ∀ st, ev = .quiesced st → l'.pc = .idle) : Moves w l w l' ev
  | enter (hpc : l.pc = .enterTry w) :
      Moves w l (pack stateOpen (countOf w + 1)) (l.goto .idle) (.entered true)
  | exit (hpc : l.pc = .exitTry w) :
      Moves w l (pack (stateOf w) (countOf w - 1)) (l.goto .idle) .exited
  | close (hpc : l.pc = .sealTry w) :
      Moves w l (pack stateSealed (countOf w)) (l.goto .idle) .returned
  | reopen (timedOut : Bool) (hpc : l.pc = .reopenTry timedOut w) :
      Moves w l (pack stateOpen (countOf w)) (l.goto .idle) (reopened timedOut)
  | claim (left : ℕ) (hpc : l.pc = .claimTry left w) :
      Moves w l (pack stateClosed (countOf w)) (l.goto (.drain (drainSpins - 1))) .silent
  | drop {ev : Event} (hpc : l.pc.closing = true) (hstate : stateOf w ≠ stateClosed)
      (hin : ev ≠ .entered true) (hout : ev ≠ .exited) (hsucc : ev ≠ .quiesced .success) :
      Moves w l w (l.goto .idle) ev
  | succeed (left : ℕ) (hpc : l.pc = .drain left) (hstate : stateOf w ≠ stateSealed)
      (hcount : countOf w = 0) : Moves w l w ⟨.idle, true⟩ (.quiesced .success)

theorem reopened_ne (timedOut : Bool) : reopened timedOut ≠ .entered true ∧
    reopened timedOut ≠ .exited ∧ reopened timedOut ≠ .quiesced .success := by
  cases timedOut <;> simp [reopened]

theorem Moves.aside {w w' : ℕ} {l l₁ l' : Local} {ev₁ ev : Event}
    (h : some ((w, l₁), ev₁) = some ((w', l'), ev)) (hclosing : l₁.pc.closing = l.pc.closing)
    (hholds : l₁.holds = l.holds) (hready : l₁.pc.Ready) (hin : ev₁ ≠ .entered true)
    (hout : ev₁ ≠ .exited) (hsucc : ev₁ ≠ .quiesced .success)
    (hidle : ∀ st, ev₁ = .quiesced st → l₁.pc = .idle) : Moves w l w' l' ev := by
  obtain ⟨⟨rfl, rfl⟩, rfl⟩ := by simpa using h
  refine .still ?_ (fun h => hholds ▸ h) ?_ hready hin hout hsucc hidle
  · rw [Local.Owns, Local.Owns, hclosing, hholds]
  · rw [Local.Apart, Local.Apart, hclosing, hholds]
    exact id

theorem Moves.onward {w w' : ℕ} {l l' : Local} {pc p : Pc} {ev₁ ev : Event} (hpc : l.pc = pc)
    (h : some ((w, l.goto p), ev₁) = some ((w', l'), ev)) (hclosing : p.closing = pc.closing)
    (hready : p.Ready) (hin : ev₁ ≠ .entered true) (hout : ev₁ ≠ .exited)
    (hsucc : ev₁ ≠ .quiesced .success) (hidle : ∀ st, ev₁ = .quiesced st → p = .idle) :
    Moves w l w' l' ev :=
  .aside h (by rw [hpc]; exact hclosing) rfl hready hin hout hsucc hidle

theorem go_moves {w w' : ℕ} {l l' : Local} {ev : Event} (h : go w l = some ((w', l'), ev)) :
    Moves w l w' l' ev := by
  unfold go at h
  cases hpc : l.pc with
  | idle =>
    rw [hpc] at h
    cases h
  | enterLoad =>
    simp only [hpc] at h
    split at h
    · exact .onward hpc h rfl trivial nofun nofun nofun nofun
    rename_i hopen
    split at h
    · exact .onward hpc h rfl trivial nofun nofun nofun nofun
    · rename_i hlt
      exact .onward hpc h rfl ⟨not_not.mp hopen, Nat.not_le.mp hlt⟩ nofun nofun nofun nofun
  | enterTry word =>
    simp only [hpc] at h
    split at h
    · rename_i heq
      subst heq
      obtain ⟨⟨rfl, rfl⟩, rfl⟩ := by simpa using h
      exact .enter hpc
    · exact .onward hpc h rfl trivial nofun nofun nofun nofun
  | exitLoad =>
    simp only [hpc] at h
    split at h
    · exact .onward hpc h rfl trivial nofun nofun nofun nofun
    · rename_i hne
      exact .onward hpc h rfl (Nat.pos_of_ne_zero hne) nofun nofun nofun nofun
  | exitTry word =>
    simp only [hpc] at h
    split at h
    · rename_i heq
      subst heq
      obtain ⟨⟨rfl, rfl⟩, rfl⟩ := by simpa using h
      exact .exit hpc
    · exact .onward hpc h rfl trivial nofun nofun nofun nofun
  | sealLoad =>
    simp only [hpc] at h
    split at h
    · exact .onward hpc h rfl trivial nofun nofun nofun nofun
    · exact .onward hpc h rfl trivial nofun nofun nofun nofun
  | sealTry word =>
    simp only [hpc] at h
    split at h
    · rename_i heq
      subst heq
      obtain ⟨⟨rfl, rfl⟩, rfl⟩ := by simpa using h
      exact .close hpc
    · exact .onward hpc h rfl trivial nofun nofun nofun nofun
  | reopenLoad timedOut =>
    simp only [hpc] at h
    split at h
    · rename_i hstate
      obtain ⟨⟨rfl, rfl⟩, rfl⟩ := by simpa using h
      obtain ⟨hin, hout, hsucc⟩ := reopened_ne timedOut
      exact .drop (by rw [hpc]; rfl) hstate hin hout hsucc
    · rename_i hclosed
      exact .onward hpc h rfl (not_not.mp hclosed) nofun nofun nofun nofun
  | reopenTry timedOut word =>
    simp only [hpc] at h
    split at h
    · rename_i heq
      subst heq
      obtain ⟨⟨rfl, rfl⟩, rfl⟩ := by simpa using h
      exact .reopen timedOut hpc
    · exact .onward hpc h rfl trivial nofun nofun nofun nofun
  | claimLoad left =>
    simp only [hpc] at h
    split at h
    · exact .onward hpc h rfl trivial nofun nofun nofun fun _ _ => rfl
    rename_i hsealed
    split at h
    · exact .onward hpc h rfl trivial nofun nofun nofun fun _ _ => rfl
    · rename_i hclosed
      exact .onward hpc h rfl ⟨hsealed, hclosed⟩ nofun nofun nofun nofun
  | claimTry left word =>
    simp only [hpc] at h
    split at h
    · rename_i heq
      subst heq
      obtain ⟨⟨rfl, rfl⟩, rfl⟩ := by simpa using h
      exact .claim left hpc
    split at h
    · exact .onward hpc h rfl trivial nofun nofun nofun fun _ _ => rfl
    · exact .onward hpc h rfl trivial nofun nofun nofun nofun
  | drain left =>
    simp only [hpc] at h
    split at h
    · rename_i hsealed
      obtain ⟨⟨rfl, rfl⟩, rfl⟩ := by simpa using h
      exact .drop (by rw [hpc]; rfl) (by rw [hsealed]; decide) nofun nofun nofun
    rename_i hstate
    split at h
    · rename_i hcount
      obtain ⟨⟨rfl, rfl⟩, rfl⟩ := by simpa using h
      exact .succeed left hpc hstate hcount
    split at h
    · exact .onward hpc h rfl trivial nofun nofun nofun nofun
    · exact .onward hpc h rfl trivial nofun nofun nofun nofun

theorem thread_moves {w w' : ℕ} {l l' : Local} {turn : Turn} {ev : Event}
    (h : thread w l turn = some ((w', l'), ev)) : Moves w l w' l' ev := by
  cases turn with
  | go => exact go_moves h
  | call op =>
    simp only [thread] at h
    split at h
    swap
    · cases h
    rename_i hpc
    cases op with
    | reopen =>
      simp only [start] at h
      split at h
      · rename_i hholds
        obtain ⟨⟨rfl, rfl⟩, rfl⟩ := by simpa using h
        refine .still ?_ nofun ?_ trivial nofun nofun nofun nofun
        · simp [Local.Owns, hholds, Pc.closing]
        · simp [Local.Apart]
      · cases h
    | enter =>
      exact .onward hpc h rfl trivial nofun nofun nofun nofun
    | exit =>
      exact .onward hpc h rfl trivial nofun nofun nofun nofun
    | close =>
      exact .onward hpc h rfl trivial nofun nofun nofun nofun
    | quiesce =>
      exact .onward hpc h rfl trivial nofun nofun nofun nofun

/-! ### The invariant -/

section Runs

variable {Tid : Type*}

structure GateOk (c : State Tid) (es : List (Tid × Event)) : Prop where
  state : stateOf c.shared ≤ stateSealed
  bound : countOf c.shared ≤ countMax
  count : (countOf c.shared : ℤ) = inFlight es
  ready : ∀ t, (c.threads t).pc.Ready
  apart : ∀ t, (c.threads t).Apart
  owned : stateOf c.shared = stateClosed → ∃ t, (c.threads t).Owns
  shut : ∀ t, (c.threads t).Owns → stateOf c.shared ≠ stateOpen
  unique : ∀ t u, (c.threads t).Owns → (c.threads u).Owns → t = u
  drained : ∀ t, (c.threads t).holds = true → countOf c.shared = 0

theorem inFlight_concat (es : List (Tid × Event)) (e : Tid × Event) :
    inFlight (es ++ [e]) = inFlight es + (if e.2 = .entered true then 1 else 0) -
      (if e.2 = .exited then 1 else 0) := by
  simp only [inFlight, countP_append, countP_singleton, decide_eq_true_eq]
  push_cast
  ring

theorem inFlight_aside (es : List (Tid × Event)) {e : Tid × Event} (hin : e.2 ≠ .entered true)
    (hout : e.2 ≠ .exited) : inFlight (es ++ [e]) = inFlight es := by
  rw [inFlight_concat, if_neg hin, if_neg hout]
  ring

theorem gateOk_initial : GateOk (initial Tid) [] where
  state := (by decide : stateOf 0 ≤ stateSealed)
  bound := (by decide : countOf 0 ≤ countMax)
  count := by simp [initial, countOf, inFlight]
  ready _ := trivial
  apart _ := fun h => nomatch h
  owned := fun h => absurd h (by decide : stateOf 0 ≠ stateClosed)
  shut _ := by simp [initial, Local.Owns, Pc.closing]
  unique _ _ := by simp [initial, Local.Owns, Pc.closing]
  drained _ := nofun

variable [DecidableEq Tid] {c : State Tid} {es : List (Tid × Event)} {t : Tid}

variable {ev : Event} {es' : List (Tid × Event)} {w : ℕ} {l : Local}

theorem GateOk.keep (h : GateOk c es)
    (hstate : stateOf w ≤ stateSealed) (hbound : countOf w ≤ countMax)
    (hcount : (countOf w : ℤ) = inFlight (es ++ [(t, ev)])) (hready : l.pc.Ready)
    (hapart : l.Apart) (howns : l.Owns ↔ (c.threads t).Owns)
    (hholds : l.holds = true → (c.threads t).holds = true)
    (hclosed : stateOf w = stateClosed → stateOf c.shared = stateClosed)
    (hopen : stateOf w = stateOpen → stateOf c.shared = stateOpen)
    (hzero : countOf c.shared = 0 → (∃ u, (c.threads u).holds = true) → countOf w = 0) :
    GateOk ⟨w, update c.threads t l⟩ (es ++ [(t, ev)]) := by
  have hiff : ∀ u, (update c.threads t l u).Owns ↔ (c.threads u).Owns := by
    intro u
    rcases eq_or_ne u t with rfl | hu
    · rw [update_self, howns]
    · rw [update_of_ne hu]
  refine ⟨hstate, hbound, hcount, ?_, ?_, ?_, ?_, ?_, ?_⟩
  · exact forall_update (L := fun l : Local => l.pc.Ready) h.ready hready fun _ => id
  · exact forall_update (L := Local.Apart) h.apart hapart fun _ => id
  · intro hw
    obtain ⟨u, hu⟩ := h.owned (hclosed hw)
    exact ⟨u, (hiff u).mpr hu⟩
  · intro u hu hw
    exact h.shut u ((hiff u).mp hu) (hopen hw)
  · intro u u' hu hu'
    exact h.unique u u' ((hiff u).mp hu) ((hiff u').mp hu')
  · intro u hu
    dsimp only at hu
    have hold : (c.threads u).holds = true := by
      rcases eq_or_ne u t with rfl | hne
      · rw [update_self] at hu
        exact hholds hu
      · rwa [update_of_ne hne] at hu
    exact hzero (h.drained u hold) ⟨u, hold⟩

theorem GateOk.release (h : GateOk c es)
    (hpc : (c.threads t).pc.closing = true) (hstate : stateOf w ≤ stateSealed)
    (hcount : countOf w = countOf c.shared) (hclosed : stateOf w ≠ stateClosed)
    (hin : ev ≠ .entered true) (hout : ev ≠ .exited) :
    GateOk ⟨w, update c.threads t ((c.threads t).goto .idle)⟩ (es ++ [(t, ev)]) := by
  have hfree : (c.threads t).holds = false := h.apart t hpc
  have hnone : ∀ u, ¬ (update c.threads t ((c.threads t).goto .idle) u).Owns := by
    intro u hu
    rcases eq_or_ne u t with rfl | hne
    · rw [update_self] at hu
      simp [Local.Owns, Local.goto, hfree, Pc.closing] at hu
    · rw [update_of_ne hne] at hu
      exact hne (h.unique u t hu (.inr hpc))
  refine ⟨hstate, hcount ▸ h.bound, ?_, ?_, ?_, fun hw => absurd hw hclosed,
    fun u hu => absurd hu (hnone u), fun u _ hu => absurd hu (hnone u),
    fun u hu => absurd (.inl hu) (hnone u)⟩
  · rw [inFlight_aside _ hin hout, hcount]
    exact h.count
  · exact forall_update (L := fun l : Local => l.pc.Ready) h.ready trivial fun _ => id
  · exact forall_update (L := Local.Apart) h.apart (by simp [Local.Apart, Local.goto, Pc.closing])
      fun _ => id

theorem GateOk.claim (h : GateOk c es) (hl : l.Owns)
    (hothers : ∀ u ≠ t, ¬ (c.threads u).Owns) (hstate : stateOf w = stateClosed)
    (hcount : countOf w = countOf c.shared) (hready : l.pc.Ready) (hapart : l.Apart)
    (hzero : l.holds = true → countOf w = 0) (hin : ev ≠ .entered true) (hout : ev ≠ .exited) :
    GateOk ⟨w, update c.threads t l⟩ (es ++ [(t, ev)]) := by
  have honly : ∀ u, (update c.threads t l u).Owns → u = t := by
    intro u hu
    by_contra hne
    rw [update_of_ne hne] at hu
    exact hothers u hne hu
  refine ⟨by rw [hstate]; decide, hcount ▸ h.bound, ?_, ?_, ?_, ?_, ?_, ?_, ?_⟩
  · rw [inFlight_aside _ hin hout, hcount]
    exact h.count
  · exact forall_update (L := fun l : Local => l.pc.Ready) h.ready hready fun _ => id
  · exact forall_update (L := Local.Apart) h.apart hapart fun _ => id
  · intro _
    refine ⟨t, ?_⟩
    dsimp only
    rwa [update_self]
  · intro u _ hw
    rw [hstate] at hw
    cases hw
  · intro u u' hu hu'
    rw [honly u hu, honly u' hu']
  · intro u hu
    obtain rfl := honly u (.inl hu)
    dsimp only at hu
    rw [update_self] at hu
    exact hzero hu

theorem GateOk.step (h : GateOk c es) (hm : Moves c.shared (c.threads t) w l ev) :
    GateOk ⟨w, update c.threads t l⟩ (es ++ [(t, ev)]) := by
  have hbound := h.bound
  have hready := h.ready t
  cases hm with
  | still howns hholds hapart hready hin hout =>
    refine h.keep h.state h.bound ?_ hready (hapart (h.apart t)) howns hholds id id fun hz _ => hz
    rw [inFlight_aside _ hin hout]
    exact h.count
  | enter hpc =>
    rw [hpc] at hready
    obtain ⟨hopen, hlt⟩ := hready
    have hs := @stateOf_pack stateOpen _ (by decide) (Nat.succ_le_of_lt hlt)
    have hc := @countOf_pack stateOpen _ (by decide) (Nat.succ_le_of_lt hlt)
    have hnone : ∀ u, ¬ (c.threads u).Owns := fun u hu => h.shut u hu hopen
    refine h.keep (by rw [hs]; decide) (by rw [hc]; omega) ?_ trivial ?_ ?_ id ?_ (fun _ => hopen)
      fun _ ⟨u, hu⟩ => absurd (.inl hu) (hnone u)
    · rw [hc, inFlight_concat, if_pos rfl, if_neg (by simp), ← h.count]
      push_cast
      ring
    · simp [Local.Apart, Local.goto, Pc.closing]
    · simp [Local.Owns, Local.goto, hpc, Pc.closing]
    · rw [hs]
      exact nofun
  | exit hpc =>
    rw [hpc] at hready
    have hpos : 0 < countOf c.shared := hready
    have hle : countOf c.shared - 1 ≤ countMax := by omega
    have hs := stateOf_pack (stateOf_lt c.shared) hle
    have hc := countOf_pack (stateOf_lt c.shared) hle
    refine h.keep (by rw [hs]; exact h.state) (by rw [hc]; omega) ?_ trivial ?_ ?_ id
      (fun hw => hs ▸ hw) (fun hw => hs ▸ hw) fun hz _ => by omega
    · rw [hc, inFlight_concat, if_neg (by simp), if_pos rfl, ← h.count]
      push_cast [hpos]
      ring
    · simp [Local.Apart, Local.goto, Pc.closing]
    · simp [Local.Owns, Local.goto, hpc, Pc.closing]
  | close hpc =>
    have hs := @stateOf_pack stateSealed _ (by decide) hbound
    have hc := @countOf_pack stateSealed _ (by decide) hbound
    refine h.keep (by rw [hs]) (by rw [hc]; exact hbound) ?_ trivial ?_ ?_ id ?_ ?_
      fun hz _ => by rw [hc, hz]
    · rw [hc, inFlight_aside _ (by simp) (by simp)]
      exact h.count
    · simp [Local.Apart, Local.goto, Pc.closing]
    · simp [Local.Owns, Local.goto, hpc, Pc.closing]
    · rw [hs]
      exact nofun
    · rw [hs]
      exact nofun
  | reopen timedOut hpc =>
    have hs := @stateOf_pack stateOpen _ (by decide) hbound
    have hc := @countOf_pack stateOpen _ (by decide) hbound
    obtain ⟨hin, hout, -⟩ := reopened_ne timedOut
    exact h.release (by rw [hpc]; rfl) (by rw [hs]; decide) hc (by rw [hs]; decide) hin hout
  | claim left hpc =>
    rw [hpc] at hready
    have hopen : stateOf c.shared = stateOpen := by
      have hle := h.state
      obtain ⟨hns, hnc⟩ := hready
      simp only [stateOpen, stateClosed, stateSealed] at hle hns hnc ⊢
      omega
    have hs := @stateOf_pack stateClosed _ (by decide) hbound
    have hc := @countOf_pack stateClosed _ (by decide) hbound
    have hnone : ∀ u, ¬ (c.threads u).Owns := fun u hu => h.shut u hu hopen
    have hfree : (c.threads t).holds = false := by
      by_contra hh
      exact hnone t (.inl (by simpa using hh))
    refine h.claim (.inr rfl) (fun u _ => hnone u) hs hc trivial (fun _ => hfree) ?_ nofun nofun
    intro hh
    rw [Local.goto, hfree] at hh
    cases hh
  | drop hpc hstate hin hout => exact h.release hpc h.state rfl hstate hin hout
  | succeed left hpc hstate hcount =>
    have howns : (c.threads t).Owns := .inr (by rw [hpc]; rfl)
    have hclosed : stateOf c.shared = stateClosed := by
      have hle := h.state
      have hopen := h.shut t howns
      simp only [stateOpen, stateClosed, stateSealed] at hle hopen hstate ⊢
      omega
    exact h.claim (.inl rfl) (fun u hne hu => hne (h.unique u t hu howns)) hclosed rfl trivial
      nofun (fun _ => hcount) nofun nofun

variable {c' : State Tid} {sched : List (Tid × Turn)}

theorem gateOk_step {i : Tid × Turn} {e : Tid × Event} (h : GateOk c es)
    (hs : step thread c i = some (c', e)) : GateOk c' (es ++ [e]) := by
  obtain ⟨w, l, ev, hthread, rfl, rfl⟩ := step_eq_some.mp hs
  exact h.step (thread_moves hthread)

theorem gateOk_run (h : GateOk c es)
    (hrun : Refine.run (step thread) c sched = some (c', es')) : GateOk c' (es ++ es') :=
  Refine.run_invariant GateOk (fun _ _ _ _ _ h _ hs => gateOk_step h hs) h
    (Refine.along_true _ _ _) hrun

/-! ### Sealed, and held -/

theorem Moves.stays_sealed {w w' : ℕ} {l l' : Local} (hm : Moves w l w' l' ev)
    (hready : l.pc.Ready) (hbound : countOf w ≤ countMax) (h : stateOf w = stateSealed) :
    stateOf w' = stateSealed := by
  cases hm with
  | still => exact h
  | enter hpc =>
    rw [hpc] at hready
    exact absurd (h.symm.trans hready.1) (by decide)
  | exit => rw [stateOf_pack (stateOf_lt w) (by omega), h]
  | close => rw [@stateOf_pack stateSealed _ (by decide) hbound]
  | reopen _ hpc =>
    rw [hpc] at hready
    exact absurd (h.symm.trans hready) (by decide)
  | claim _ hpc =>
    rw [hpc] at hready
    exact absurd h hready.1
  | drop => exact h
  | succeed => exact h

theorem run_sealed (h : GateOk c es) (hsealed : stateOf c.shared = stateSealed)
    (hrun : Refine.run (step thread) c sched = some (c', es')) :
    stateOf c'.shared = stateSealed := by
  refine (Refine.run_invariant (fun c es => GateOk c es ∧ stateOf c.shared = stateSealed) ?_
    ⟨h, hsealed⟩ (Refine.along_true _ _ _) hrun).2
  rintro c es i c' e ⟨h, hsealed⟩ - hs
  refine ⟨gateOk_step h hs, ?_⟩
  obtain ⟨w, l, ev, hthread, rfl, rfl⟩ := step_eq_some.mp hs
  exact (thread_moves hthread).stays_sealed (h.ready i.1) h.bound hsealed

omit [DecidableEq Tid] in
theorem GateOk.excludes {u : Tid} (h : GateOk c es)
    (hholds : (c.threads t).holds = true) (hm : Moves c.shared (c.threads u) w l ev) :
    ev ≠ .entered true ∧ ev ≠ .quiesced .success := by
  have hshut := h.shut t (.inl hholds)
  have hready := h.ready u
  cases hm with
  | still _ _ _ _ hin _ hsucc => exact ⟨hin, hsucc⟩
  | enter hpc =>
    rw [hpc] at hready
    exact absurd hready.1 hshut
  | exit => exact ⟨nofun, nofun⟩
  | close => exact ⟨nofun, nofun⟩
  | reopen timedOut =>
    obtain ⟨hin, -, hsucc⟩ := reopened_ne timedOut
    exact ⟨hin, hsucc⟩
  | claim => exact ⟨nofun, nofun⟩
  | drop _ _ hin _ hsucc => exact ⟨hin, hsucc⟩
  | succeed left hpc =>
    -- the thread that drains owns the gate, so it is the one that holds it
    have hclosing : (c.threads u).pc.closing = true := by rw [hpc]; rfl
    obtain rfl := h.unique t u (.inl hholds) (.inr hclosing)
    rw [h.apart t hclosing] at hholds
    cases hholds

theorem Moves.holds {w w' : ℕ} {l l' : Local} {turn : Turn}
    (hthread : thread w l turn = some ((w', l'), ev)) (hturn : turn ≠ .call .reopen)
    (h : l.holds = true) : l'.holds = true := by
  cases turn with
  | call op =>
    simp only [thread] at hthread
    split at hthread
    swap
    · cases hthread
    cases op with
    | reopen => exact absurd rfl hturn
    | enter =>
      obtain ⟨⟨rfl, rfl⟩, rfl⟩ := by simpa [start] using hthread
      exact h
    | exit =>
      obtain ⟨⟨rfl, rfl⟩, rfl⟩ := by simpa [start] using hthread
      exact h
    | quiesce =>
      obtain ⟨⟨rfl, rfl⟩, rfl⟩ := by simpa [start] using hthread
      exact h
    | close =>
      obtain ⟨⟨rfl, rfl⟩, rfl⟩ := by simpa [start] using hthread
      exact h
  | go =>
    simp only [thread, go] at hthread
    split at hthread
    · cases hthread
    all_goals
      split_ifs at hthread
      all_goals
        obtain ⟨⟨rfl, rfl⟩, rfl⟩ := by simpa using hthread
        first | exact h | rfl

theorem run_held (h : GateOk c es)
    (hholds : (c.threads t).holds = true) (hcalls : (t, .call .reopen) ∉ sched)
    (hrun : Refine.run (step thread) c sched = some (c', es')) : (c'.threads t).holds = true ∧
      ∀ u, (u, .entered true) ∉ es' ∧ (u, .quiesced .success) ∉ es' := by
  have hinv := @Refine.run_invariant _ _ _ (step thread) sched (fun _ i => i ≠ (t, .call .reopen))
    (fun c rs => GateOk c (es ++ rs) ∧ (c.threads t).holds = true ∧
      ∀ u, (u, .entered true) ∉ rs ∧ (u, .quiesced .success) ∉ rs) ?_
    c c' [] es' ⟨by simpa using h, hholds, fun u => ⟨not_mem_nil, not_mem_nil⟩⟩
    (Refine.along_of_forall (fun i hi _ => by rintro rfl; exact hcalls hi) c) hrun
  · exact hinv.2
  rintro c rs i c' e ⟨h, hholds, hnone⟩ hi hs
  refine ⟨by simpa using gateOk_step h hs, ?_⟩
  obtain ⟨w, l, ev, hthread, rfl, rfl⟩ := step_eq_some.mp hs
  obtain ⟨hin, hsucc⟩ := h.excludes hholds (thread_moves hthread)
  refine ⟨?_, fun u => ⟨?_, ?_⟩⟩
  · rcases eq_or_ne t i.1 with rfl | hne
    · dsimp only
      rw [update_self]
      exact Moves.holds hthread (fun hturn => hi (Prod.ext rfl hturn)) hholds
    · dsimp only
      rwa [update_of_ne hne]
  · rw [mem_append, not_or]
    refine ⟨(hnone u).1, fun hmem => hin ?_⟩
    exact (congrArg Prod.snd (mem_singleton.mp hmem)).symm
  · rw [mem_append, not_or]
    refine ⟨(hnone u).2, fun hmem => hsucc ?_⟩
    exact (congrArg Prod.snd (mem_singleton.mp hmem)).symm

omit [DecidableEq Tid] in
theorem Moves.failed {w w' : ℕ} {l l' : Local} {st : Status} (hm : Moves w l w' l' (.quiesced st))
    (hst : st ≠ .success) (howns : l'.Owns) : l.holds = true := by
  have hdone : l'.pc = .idle ∧ (l'.holds = true → l.holds = true) := by
    generalize hev : Event.quiesced st = ev at hm
    cases hm with
    | still _ hholds _ _ _ _ _ hidle => exact ⟨hidle st hev.symm, hholds⟩
    | enter => exact ⟨rfl, id⟩
    | exit => exact ⟨rfl, id⟩
    | close => exact ⟨rfl, id⟩
    | reopen => exact ⟨rfl, id⟩
    | claim => cases hev
    | drop => exact ⟨rfl, id⟩
    | succeed => exact absurd (Event.quiesced.inj hev) hst
  rcases howns with hholds | hclosing
  · exact hdone.2 hholds
  · rw [hdone.1] at hclosing
    cases hclosing

/-- The gate protocol, for every schedule of a new gate. The count is that of the chargers in
flight and stays below the state field; a sealed gate stays sealed; from the return of a quiesce
that succeeded until its caller calls reopen no charger is in flight, none enters and no other
quiesce succeeds; and after a quiesce that failed, a closed gate has an owner by another quiesce. -/
theorem gate_run (hrun : Refine.run (step thread) (initial Tid) sched = some (c, es)) :
    ((countOf c.shared : ℤ) = inFlight es ∧ countOf c.shared ≤ countMax ∧
        (stateOf c.shared = stateOpen ∨ stateOf c.shared = stateClosed ∨
          stateOf c.shared = stateSealed)) ∧ (stateOf c.shared = stateSealed → ∀ later d ds,
        Refine.run (step thread) c later = some (d, ds) → stateOf d.shared = stateSealed) ∧
      (∀ t turn d, step thread c (t, turn) = some (d, (t, .quiesced .success)) →
        ∀ later e ds, Refine.run (step thread) d later = some (e, ds) → (t, .call .reopen) ∉ later →
            inFlight (es ++ ds) = 0 ∧ stateOf e.shared ≠ stateOpen ∧
              ∀ u, (u, .entered true) ∉ ds ∧ (u, .quiesced .success) ∉ ds) ∧
      ∀ t turn d st, st ≠ .success → step thread c (t, turn) = some (d, (t, .quiesced st)) →
        stateOf d.shared = stateClosed →
          ∃ u, (d.threads u).Owns ∧ (u = t → (c.threads t).holds = true) := by
  have hok : GateOk c es := by simpa using gateOk_run gateOk_initial hrun
  refine ⟨⟨hok.count, hok.bound, ?_⟩, ?_, ?_, ?_⟩
  · have hle := hok.state
    simp only [stateOpen, stateClosed, stateSealed] at hle ⊢
    omega
  · intro hsealed later d ds hlater
    exact run_sealed hok hsealed hlater
  · intro t turn d hs later e ds hlater hcalls
    have hd := gateOk_step hok hs
    have hholds : (d.threads t).holds = true := by
      obtain ⟨w, l, ev, hthread, rfl, hev⟩ := step_eq_some.mp hs
      obtain rfl : Event.quiesced .success = ev := congrArg Prod.snd hev
      dsimp only
      rw [update_self]
      generalize hq : Event.quiesced .success = ev at hthread
      cases thread_moves hthread with
      | still _ _ _ _ _ _ hsucc => exact absurd hq.symm hsucc
      | reopen timedOut => exact absurd hq.symm (reopened_ne timedOut).2.2
      | drop _ _ _ _ hsucc => exact absurd hq.symm hsucc
      | succeed => rfl
      | _ => cases hq
    obtain ⟨hheld, hnone⟩ := run_held hd hholds hcalls hlater
    have he := gateOk_run hd hlater
    refine ⟨?_, he.shut t (.inl hheld), hnone⟩
    -- the step that returned success entered nobody
    rw [append_assoc] at he
    have hcount := he.count
    have hzero := he.drained t hheld
    simp only [inFlight, countP_append, countP_cons] at hcount ⊢
    simp [hzero] at hcount ⊢
    omega
  · intro t turn d st hst hs hclosed
    have hd := gateOk_step hok hs
    obtain ⟨u, hu⟩ := hd.owned hclosed
    refine ⟨u, hu, ?_⟩
    rintro rfl
    obtain ⟨w, l, ev, hthread, rfl, hev⟩ := step_eq_some.mp hs
    obtain rfl : Event.quiesced st = ev := congrArg Prod.snd hev
    dsimp only at hu
    rw [update_self] at hu
    exact (thread_moves hthread).failed hst hu

end Runs

/-- One thread charges while the other quiesces: the quiesce claims the gate, sees the charger,
and succeeds when it has left. -/
def drainTurns : List (Bool × Turn) :=
  [(false, .call .enter), (false, .go), (false, .go), (true, .call .quiesce), (true, .go),
    (true, .go), (true, .go), (false, .call .exit), (false, .go), (false, .go)]

theorem gate_run_drain : ∃ (c d : State Bool) (es : List (Bool × Event)),
    Refine.run (step thread) (initial Bool) drainTurns = some (c, es) ∧
      step thread c (true, .go) = some (d, (true, .quiesced .success)) ∧
      ∀ later e ds, Refine.run (step thread) d later = some (e, ds) →
        (true, .call .reopen) ∉ later → inFlight (es ++ ds) = 0 := by
  obtain ⟨c, es, hrun⟩ : ∃ c es,
      Refine.run (step thread) (initial Bool) drainTurns = some (c, es) := ⟨_, _, rfl⟩
  obtain ⟨d, hs⟩ : ∃ d, step thread c (true, .go) = some (d, (true, .quiesced .success)) := by
    cases hrun
    exact ⟨_, rfl⟩
  refine ⟨c, d, es, hrun, hs, fun later e ds hlater hcalls => ?_⟩
  exact ((gate_run hrun).2.2.1 true .go d hs later e ds hlater hcalls).1

end ImpossibleOs.Quota.Gate
