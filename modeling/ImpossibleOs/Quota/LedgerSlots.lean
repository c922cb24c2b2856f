import ImpossibleOs.Quota.Ledger
import Mathlib.Algebra.BigOperators.Group.Finset.Piecewise
import Mathlib.Algebra.Order.BigOperators.Group.Finset

/-!
The protocol of the slots of a quota ledger.

Of a thread only its role matters here: which reservation it holds, which epoch
is still its own, which deferred return it carries. The moves are all that a step
can do to the owner words, the counters and the tokens.
-/

namespace ImpossibleOs.Quota.Ledger

open Function List

variable {Tid : Type*}

/-! ### The log of a run -/

/-- A slot, the epoch and the type of the charge that takes it. -/
def Event.claim? : Event → Option (ℕ × ℕ × ℕ)
  | .claimed s e type => some (s, e, type)
  | _ => none

/-- A slot that becomes free, and the obligation in whose name. -/
def Event.free? : Event → Option (ℕ × ℕ)
  | .undone s e => some (s, e)
  | .freed s e => some (s, e)
  | .completed s e => some (s, e)
  | _ => none

def Event.release? : Event → Option ℕ
  | .released e _ => some e
  | _ => none

/-- A deferred return that the drain is done with. -/
def Event.settle? : Event → Option (ℕ × ℕ)
  | .completed s e => some (s, e)
  | .dropped s e => some (s, e)
  | _ => none

def claims (es : List (Tid × Event)) : List (ℕ × ℕ × ℕ) := es.filterMap fun x => x.2.claim?

/-- The epochs of all charges that took a slot. -/
def epochs (es : List (Tid × Event)) : List ℕ := (claims es).map fun x => x.2.1

def frees (es : List (Tid × Event)) : List (ℕ × ℕ) := es.filterMap fun x => x.2.free?

/-- The obligations whose slot has become free. -/
def freed (es : List (Tid × Event)) : List ℕ := (frees es).map Prod.snd

/-- The obligations whose budget has been given back. -/
def released (es : List (Tid × Event)) : List ℕ := es.filterMap fun x => x.2.release?

def settled (es : List (Tid × Event)) : List (ℕ × ℕ) := es.filterMap fun x => x.2.settle?

/-- The obligations that hold slot `s`, after one more event. -/
def hold (s : ℕ) (held : List (ℕ × ℕ)) (ev : Event) : List (ℕ × ℕ) :=
  match ev.claim?, ev.free? with
  | some (s', e, type), _ => if s' = s then held ++ [(e, type)] else held
  | none, some (s', e) => if s' = s then held.filter (fun x => x.1 ≠ e) else held
  | none, none => held

/-- The obligations that hold slot `s`: epoch and type. -/
def holders (es : List (Tid × Event)) (s : ℕ) : List (ℕ × ℕ) :=
  es.foldl (fun held x => hold s held x.2) []

/-- How many slots are held by an obligation of a type. -/
def occupied (es : List (Tid × Event)) (type : ℕ) : ℕ :=
  ((Finset.range capMax).filter fun s => type ∈ (holders es s).map Prod.snd).card

section Concat

variable (es : List (Tid × Event)) (t : Tid) (ev : Event)

theorem claims_concat : claims (es ++ [(t, ev)]) = claims es ++ ev.claim?.toList := by
  simp only [claims, filterMap_append]
  cases h : ev.claim? <;> simp [h]

theorem epochs_concat :
    epochs (es ++ [(t, ev)]) = epochs es ++ ev.claim?.toList.map fun x => x.2.1 := by
  simp [epochs, claims_concat]

theorem frees_concat : frees (es ++ [(t, ev)]) = frees es ++ ev.free?.toList := by
  simp only [frees, filterMap_append]
  cases h : ev.free? <;> simp [h]

theorem freed_concat : freed (es ++ [(t, ev)]) = freed es ++ ev.free?.toList.map Prod.snd := by
  simp [freed, frees_concat]

theorem released_concat : released (es ++ [(t, ev)]) = released es ++ ev.release?.toList := by
  simp only [released, filterMap_append]
  cases h : ev.release? <;> simp [h]

theorem settled_concat : settled (es ++ [(t, ev)]) = settled es ++ ev.settle?.toList := by
  simp only [settled, filterMap_append]
  cases h : ev.settle? <;> simp [h]

theorem holders_concat (s : ℕ) : holders (es ++ [(t, ev)]) s = hold s (holders es s) ev := by
  simp [holders]

end Concat

/-- Every slot is freed only in the name of the one obligation that holds it. -/
def FreesOwn (es : List (Tid × Event)) : Prop :=
  ∀ pre x post, es = pre ++ x :: post → ∀ s e, x.2.free? = some (s, e) →
    (holders pre s).map Prod.fst = [e]

theorem FreesOwn.concat {es : List (Tid × Event)} (h : FreesOwn es) {x : Tid × Event}
    (hx : ∀ s e, x.2.free? = some (s, e) → (holders es s).map Prod.fst = [e]) :
    FreesOwn (es ++ [x]) := by
  intro pre y post heq
  rcases eq_nil_or_concat post with rfl | ⟨post', z, rfl⟩
  · obtain ⟨rfl, hlast⟩ := append_inj' heq rfl
    obtain rfl : x = y := by simpa using hlast
    exact hx
  · rw [concat_eq_append, ← cons_append, ← append_assoc] at heq
    obtain ⟨rfl, -⟩ := append_inj' heq rfl
    exact h pre y post' rfl

/-! ### Owner words -/

/-- The word of an obligation whose return has been deferred. -/
def marked (e : ℕ) : ℕ := e ||| slotDeferred

theorem marked_eq {e : ℕ} (he : e ≤ slotEpochMax) : marked e = slotDeferred + e := by
  have hlt : e < 2 ^ 63 := Nat.lt_succ_of_le he
  have hor := Nat.two_pow_add_eq_or_of_lt hlt 1
  rw [marked, Nat.or_comm, slotDeferred]
  simpa using hor.symm

theorem epochOf_marked {e : ℕ} (he : e ≤ slotEpochMax) : epochOf (marked e) = e := by
  rw [marked_eq he, epochOf, Nat.add_mod_left]
  exact Nat.mod_eq_of_lt (Nat.lt_succ_of_le he)

theorem epochOf_epoch {e : ℕ} (he : e ≤ slotEpochMax) : epochOf e = e :=
  Nat.mod_eq_of_lt (Nat.lt_succ_of_le he)

theorem marked_ne {e e' : ℕ} (he : e ≤ slotEpochMax) (he' : e' ≤ slotEpochMax) : marked e ≠ e' := by
  rw [marked_eq he]
  simp only [slotDeferred, slotEpochMax] at *
  omega

/-- An owner word says who holds the slot. -/
def Held (word : ℕ) (hs : List (ℕ × ℕ)) : Prop :=
  (word = 0 ∧ hs = []) ∨ ∃ e type, hs = [(e, type)] ∧ (word = e ∨ word = marked e)

/-! ### Roles and moves -/

/-- What the protocol sees of the memory. -/
structure View where
  owner : ℕ → ℕ
  rtype : ℕ → ℕ
  token : ℕ → ℕ
  obligations : ℕ → ℤ
  drawn : ℕ
  issued : List Handle

namespace View

def setOwner (v : View) (s word : ℕ) : View :=
  { v with owner := update v.owner s word }

def setRtype (v : View) (s type : ℕ) : View :=
  { v with rtype := update v.rtype s type }

def setToken (v : View) (s token : ℕ) : View :=
  { v with token := update v.token s token }

def setObligations (v : View) (type : ℕ) (n : ℤ) : View :=
  { v with obligations := update v.obligations type n }

def release (v : View) (type : ℕ) : View :=
  if Charge.typeCount ≤ type then v else v.setObligations type (v.obligations type - 1)

end View

/-- What a thread stands for. -/
inductive Role
  | bystander
  /-- It has seen a count below the cap. -/
  | reserving (type : ℕ) (cur : ℤ)
  | reserved (type : ℕ)
  | claiming (type slot epoch : ℕ)
  /-- The slot is its own; `typed` once the type is written there. -/
  | building (type slot epoch : ℕ) (typed : Bool)
  /-- The slot is free and the budget is still to be given back. -/
  | releasing (type epoch : ℕ)
  | presenting (h : Handle)
  /-- A return on its way, of a handle or for the drain. -/
  | returning (slot word type : ℕ) (deferred : Bool)
  /-- It is about to leave a token in the slot. -/
  | stamping (slot : ℕ)
  /-- It has taken the token of the slot. -/
  | taken (slot : ℕ)
  | carrying (slot word : ℕ)

namespace Role

/-- The type of the reservation that is in progress. -/
def pending : Role → Option ℕ
  | .reserved type => some type
  | .claiming type _ _ => some type
  | .releasing type _ => some type
  | _ => none

/-- The epoch that is in the hands of this thread alone. -/
def custody : Role → Option ℕ
  | .claiming _ _ e => some e
  | .building _ _ e _ => some e
  | .releasing _ e => some e
  | _ => none

/-- The slot whose deferred return is in the hands of this thread alone. -/
def carry : Role → Option ℕ
  | .returning s _ _ true => some s
  | .stamping s => some s
  | .taken s => some s
  | .carrying s _ => some s
  | _ => none

/-- How many reservations of a type the thread has in progress. -/
def share (r : Role) (type : ℕ) : ℕ := if r.pending = some type then 1 else 0

/-- A thread in this role may leave at any time. -/
def loose : Role → Bool
  | .bystander => true
  | .reserving _ _ => true
  | .presenting _ => true
  | .returning _ _ _ false => true
  | _ => false

end Role

/-- The event says nothing about slots and budgets. -/
def Event.Plain (ev : Event) : Prop :=
  ev.claim? = none ∧ ev.free? = none ∧ ev.release? = none ∧ ev.settle? = none

/-- All that a step of a thread can do to the slots. -/
inductive Move (v : View) : Role → View → Role → Event → Prop
  | aside {r : Role} {ev : Event} (hev : ev.Plain) : Move v r v r ev
  | leave {r : Role} {ev : Event} (hr : r.loose = true) (hev : ev.Plain) :
      Move v r v .bystander ev
  | look {type : ℕ} {cur : ℤ} (hcur : 0 ≤ cur ∧ cur < typeCap type) :
      Move v .bystander v (.reserving type cur) .silent
  | reserve {type : ℕ} {cur : ℤ} (h : v.obligations type = cur) :
      Move v (.reserving type cur) (v.setObligations type (cur + 1)) (.reserved type) .silent
  | draw {type s : ℕ} (hs : s < capMax) (hmax : v.drawn + 1 ≤ slotEpochMax) :
      Move v (.reserved type) { v with drawn := v.drawn + 1 }
        (.claiming type s (v.drawn + 1)) .silent
  | waste {type : ℕ} :
      Move v (.reserved type) { v with drawn := v.drawn + 1 } (.reserved type) .silent
  | lose {type s e : ℕ} : Move v (.claiming type s e) v (.reserved type) .silent
  | claim {type s e : ℕ} (h : v.owner s = 0) :
      Move v (.claiming type s e) (v.setOwner s e) (.building type s e false)
        (.claimed s e type)
  | giveUp {type : ℕ} : Move v (.reserved type) (v.release type) .bystander .silent
  | publish {type s e : ℕ} {typed : Bool} :
      Move v (.building type s e typed) (v.setRtype s type) (.building type s e true) .silent
  | issue {type s e token : ℕ} :
      Move v (.building type s e true) { v with issued := v.issued ++ [⟨s, token, e⟩] }
        .bystander (.charged ⟨s, token, e⟩)
  | undo {type s e : ℕ} {typed : Bool} :
      Move v (.building type s e typed) (v.setOwner s 0) (.releasing type e) (.undone s e)
  | release {type e : ℕ} :
      Move v (.releasing type e) (v.release type) .bystander (.released e type)
  | present {h : Handle} (hh : h ∈ v.issued) : Move v .bystander v (.presenting h) .silent
  | mark {h : Handle} (howner : v.owner h.slot = h.epoch) :
      Move v (.presenting h) (v.setOwner h.slot (marked h.epoch)) (.stamping h.slot)
        (.deferred h.slot h.epoch)
  | readType {h : Handle} :
      Move v (.presenting h) v (.returning h.slot h.epoch (v.rtype h.slot) false) .silent
  | stamp {s token : ℕ} : Move v (.stamping s) (v.setToken s token) .bystander .silent
  | take {s : ℕ} (h : v.token s ≠ 0) : Move v .bystander (v.setToken s 0) (.taken s) .silent
  | readOwner {s : ℕ} : Move v (.taken s) v (.carrying s (v.owner s)) .silent
  | readDeferred {s w : ℕ} :
      Move v (.carrying s w) v (.returning s w (v.rtype s) true) .silent
  | restore {s w type : ℕ} : Move v (.returning s w type true) v (.stamping s) .silent
  | free {s w type : ℕ} (h : v.owner s = w) :
      Move v (.returning s w type false) (v.setOwner s 0) (.releasing type (epochOf w))
        (.freed s (epochOf w))
  | complete {s w type : ℕ} (h : v.owner s = w) :
      Move v (.returning s w type true) (v.setOwner s 0) (.releasing type (epochOf w))
        (.completed s (epochOf w))
  | drop {s w type : ℕ} :
      Move v (.returning s w type true) v .bystander (.dropped s (epochOf w))

/-! ### The invariant -/

/-- The return of the obligation that holds `s` is deferred, and the drain has not settled it. -/
def Deferral (v : View) (es : List (Tid × Event)) (s : ℕ) : Prop :=
  ∃ e type, holders es s = [(e, type)] ∧ v.owner s = marked e ∧ (s, e) ∉ settled es ∧
    ∃ h ∈ v.issued, h.slot = s ∧ h.epoch = e

/-- What a thread may rely on in its role. -/
def Knows (v : View) (es : List (Tid × Event)) : Role → Prop
  | .bystander => True
  | .reserving type cur => 0 ≤ cur ∧ cur < typeCap type
  | .reserved _ => True
  | .claiming _ s e => s < capMax ∧ 0 < e ∧ e ≤ slotEpochMax ∧ e ≤ v.drawn ∧ e ∉ epochs es
  | .building type s e typed =>
    v.owner s = e ∧ holders es s = [(e, type)] ∧ (∀ h ∈ v.issued, h.epoch ≠ e) ∧
      (typed = true → v.rtype s = type)
  | .releasing _ e => e ∈ freed es ∧ e ∉ released es
  | .presenting h => h ∈ v.issued
  | .returning s w type false =>
    (∃ h ∈ v.issued, h.slot = s ∧ h.epoch = w) ∧
      ∀ type', holders es s = [(w, type')] → type' = type
  | .returning s w type true =>
    Deferral v es s ∧ v.owner s = w ∧ ∀ e type', holders es s = [(e, type')] → type' = type
  | .stamping s => Deferral v es s
  | .taken s => Deferral v es s
  | .carrying s w => Deferral v es s ∧ v.owner s = w

/-- No two threads have the same thing in their hands. -/
def Apart (f : Role → Option ℕ) (roles : Tid → Role) : Prop :=
  ∀ t u x, f (roles t) = some x → f (roles u) = some x → t = u

/-- A handle is of a charge that took its slot and wrote its type there. -/
def IssuedOk (v : View) (es : List (Tid × Event)) (h : Handle) : Prop :=
  ∃ type, (h.slot, h.epoch, type) ∈ claims es ∧
    (holders es h.slot = [(h.epoch, type)] → v.rtype h.slot = type)

def inProgress [Fintype Tid] (roles : Tid → Role) (type : ℕ) : ℕ := ∑ t, (roles t).share type

structure SlotsOk [Fintype Tid] (v : View) (roles : Tid → Role) (es : List (Tid × Event)) :
    Prop where
  word : ∀ s, Held (v.owner s) (holders es s)
  held : ∀ s e type, holders es s = [(e, type)] → (s, e, type) ∈ claims es ∧ e ∉ freed es
  claim : ∀ s e type, (s, e, type) ∈ claims es →
    s < capMax ∧ 0 < e ∧ e ≤ slotEpochMax ∧ e ≤ v.drawn
  epochs_nodup : (epochs es).Nodup
  freed_nodup : (freed es).Nodup
  freed_epoch : ∀ e ∈ freed es, e ∈ epochs es
  own : FreesOwn es
  released_nodup : (released es).Nodup
  released_freed : ∀ e ∈ released es, e ∈ freed es
  settled_nodup : (settled es).Nodup
  settled_epoch : ∀ s e, (s, e) ∈ settled es → e ∈ epochs es
  settled_word : ∀ s e, (s, e) ∈ settled es → v.owner s ≠ e
  issued : ∀ h ∈ v.issued, IssuedOk v es h
  count : ∀ type, v.obligations type = occupied es type + inProgress roles type
  bound : ∀ type, v.obligations type ≤ typeCap type
  token : ∀ s, v.token s ≠ 0 → Deferral v es s ∧ ∀ t, (roles t).carry ≠ some s
  custody : Apart Role.custody roles
  carry : Apart Role.carry roles
  threads : ∀ t, Knows v es (roles t)

end ImpossibleOs.Quota.Ledger
