import ImpossibleOs.Quota.Charge
import Mathlib.Algebra.BigOperators.Ring.Finset
import Mathlib.Algebra.Order.BigOperators.Group.Finset
import Mathlib.Algebra.Order.Ring.Int

/-!
Conservation of quota charges.

The usage of a block is the sum of what the receipts have booked there: a call
changes both by the same, and only while it owns the receipt. A receipt that no
call owns has booked its amount at all of its blocks or at none.
-/

namespace ImpossibleOs.Quota.Charge

open Interleave Function List

variable {Tid Rid Block : Type*} [DecidableEq Tid] [DecidableEq Rid] [LinearOrder Block]

theorem tagGen_receiptTag {gen state : ℕ} (hg : gen ≤ genMax) (hs : state ≤ receiptBusy) :
    tagGen (receiptTag gen state) = gen :=
  Gate.countOf_pack (lt_of_le_of_lt hs (by decide)) hg

theorem tagState_receiptTag {gen state : ℕ} (hg : gen ≤ genMax) (hs : state ≤ receiptBusy) :
    tagState (receiptTag gen state) = state :=
  Gate.stateOf_pack (lt_of_le_of_lt hs (by decide)) hg

/-! ### One block -/

namespace Mem

variable {m : Mem Rid Block}

omit [LinearOrder Block] in
@[simp] theorem setReceipt_self (m : Mem Rid Block) (r : Rid) (rc : Receipt Block) :
    (m.setReceipt r rc).receipt r = rc :=
  update_self ..

omit [LinearOrder Block] in
@[simp] theorem setReceipt_of_ne (m : Mem Rid Block) {r r' : Rid} (rc : Receipt Block)
    (h : r' ≠ r) : (m.setReceipt r rc).receipt r' = m.receipt r' :=
  update_of_ne h ..

/-- One usage has changed by `d`. -/
def Adds (m m' : Mem Rid Block) (b : Block) (type : ℕ) (d : ℤ) : Prop :=
  m'.receipt = m.receipt ∧
    ∀ x ty, m'.usage x ty = m.usage x ty + if x = b ∧ ty = type then d else 0

omit [DecidableEq Rid] in
theorem setUsage_adds (m : Mem Rid Block) (b : Block) (type : ℕ) (d : ℤ) :
    m.Adds (m.setUsage b type (m.usage b type + d)) b type d := by
  refine ⟨rfl, ?_⟩
  intro x ty
  unfold setUsage
  dsimp only
  rcases eq_or_ne x b with rfl | hx
  · rw [update_self]
    rcases eq_or_ne ty type with rfl | hty
    · rw [update_self, if_pos ⟨rfl, rfl⟩]
    · rw [update_of_ne hty, if_neg (fun h => hty h.2), add_zero]
  · rw [update_of_ne hx, if_neg (fun h => hx h.1), add_zero]

omit [DecidableEq Rid] in
theorem adds_zero (m : Mem Rid Block) (b : Block) (type : ℕ) : m.Adds m b type 0 := by
  refine ⟨rfl, ?_⟩
  intro x ty
  rw [ite_self, add_zero]

omit [DecidableEq Rid] [LinearOrder Block] in
theorem checkLocked_ok {b : Block} {type add : ℕ} {total : ℤ}
    (h : m.checkLocked b type add = .ok total) :
    total = m.usage b type + add ∧ total ≤ amountMax := by
  unfold checkLocked at h
  dsimp only at h
  split at h
  · cases h
  split at h
  · cases h
  rename_i hmax
  split at h
  · cases h
  cases h
  exact ⟨rfl, by omega⟩

omit [DecidableEq Rid] [LinearOrder Block] in
theorem releaseLocked_ok {b : Block} {type sub : ℕ} {total : ℤ}
    (h : m.releaseLocked b type sub = .ok total) : total = m.usage b type - sub := by
  unfold releaseLocked at h
  dsimp only at h
  split at h
  · cases h
  split at h
  · cases h
  cases h
  rfl

omit [DecidableEq Rid] in
theorem charge_spec (m : Mem Rid Block) (b : Block) (type amount : ℕ) :
    ((m.charge b type amount).2 = .success ∧ type < typeCount ∧ amount ≤ amountMax ∧
      m.Adds (m.charge b type amount).1 b type amount ∧
      ((m.charge b type amount).1.usage b type ≤ amountMax ∨ (m.charge b type amount).1 = m)) ∨
    ((m.charge b type amount).2 ≠ .success ∧ (m.charge b type amount).1 = m) := by
  unfold charge
  split
  · exact .inr ⟨nofun, rfl⟩
  rename_i hok
  obtain ⟨htype, hamount⟩ := not_or.mp hok
  split
  · rename_i hzero
    subst hzero
    exact .inl ⟨rfl, by omega, by omega, m.adds_zero b type, .inr rfl⟩
  cases hcheck : m.checkLocked b type amount with
  | error st =>
    refine .inr ⟨?_, rfl⟩
    unfold checkLocked at hcheck
    dsimp only at hcheck
    split at hcheck
    · cases hcheck
      exact nofun
    split at hcheck
    · cases hcheck
      exact nofun
    split at hcheck
    · cases hcheck
      exact nofun
    · cases hcheck
  | ok total =>
    obtain ⟨rfl, hmax⟩ := checkLocked_ok hcheck
    refine .inl ⟨rfl, by omega, by omega, m.setUsage_adds b type amount, .inl ?_⟩
    rw [(m.setUsage_adds b type amount).2, if_pos ⟨rfl, rfl⟩]
    exact hmax

omit [DecidableEq Rid] in
theorem giveBack_spec {b : Block} {type amount : ℕ} (htype : type < typeCount)
    (hamount : amount ≤ amountMax) (hheld : (amount : ℤ) ≤ m.usage b type) :
    m.Adds (m.giveBack b type amount).1 b type (-amount) := by
  unfold giveBack
  rw [if_neg (by omega)]
  split
  · rename_i hzero
    subst hzero
    exact m.adds_zero b type
  unfold releaseLocked
  dsimp only
  rw [if_neg (by omega), if_neg (by omega)]
  exact m.setUsage_adds b type (-amount)

end Mem

omit [DecidableEq Rid] in
theorem Mem.resizeLocked_ok {m m' : Mem Rid Block} {type old new : ℕ} {bs : List Block}
    (h : m.resizeLocked type old new bs = .ok m') :
    m'.receipt = m.receipt ∧
      (∀ x ty, m'.usage x ty =
        m.usage x ty + if ty = type then ((new : ℤ) - old) * bs.count x else 0) ∧
      ((∀ x ty, m.usage x ty ≤ amountMax) → ∀ x ty, m'.usage x ty ≤ amountMax) := by
  induction bs generalizing m with
  | nil =>
    cases h
    exact ⟨rfl, by simp, id⟩
  | cons b bs ih =>
    rw [resizeLocked] at h
    have hone : ∃ total, m.resizeLocked type old new (b :: bs) =
          (m.setUsage b type total).resizeLocked type old new bs ∧
        total = m.usage b type + ((new : ℤ) - old) ∧ (m.usage b type ≤ amountMax →
          total ≤ amountMax) := by
      rw [resizeLocked]
      split at h
      · cases h
      · rename_i total heq
        refine ⟨total, rfl, ?_⟩
        split at heq
        · obtain ⟨rfl, hmax⟩ := checkLocked_ok heq
          exact ⟨by omega, fun _ => hmax⟩
        · obtain rfl := releaseLocked_ok heq
          exact ⟨by omega, fun _ => by omega⟩
    obtain ⟨total, heq, rfl, hmax⟩ := hone
    rw [resizeLocked] at heq
    rw [heq] at h
    obtain ⟨-, hadds⟩ := m.setUsage_adds b type ((new : ℤ) - old)
    obtain ⟨hreceipt, husage, hbound⟩ := ih h
    refine ⟨hreceipt, ?_, ?_⟩
    · intro x ty
      rw [husage, hadds, count_cons]
      rcases eq_or_ne ty type with rfl | hty
      · rcases eq_or_ne x b with rfl | hx
        · simp
          ring
        · simp [hx, hx.symm]
      · simp [hty]
    · intro hall
      refine hbound ?_
      intro x ty
      rcases eq_or_ne x b with rfl | hx
      · rcases eq_or_ne ty type with rfl | hty
        · rw [hadds, if_pos ⟨rfl, rfl⟩]
          exact hmax (hall x ty)
        · rw [hadds, if_neg (fun h => hty h.2), add_zero]
          exact hall x ty
      · rw [hadds, if_neg (fun h => hx h.1), add_zero]
        exact hall x ty

theorem sortInsert_perm {b : Block} {s : List Block} (h : b ∉ s) :
    (sortInsert b s).Perm (b :: s) := by
  induction s with
  | nil => exact List.Perm.refl _
  | cons x s ih =>
    obtain ⟨hx, hs⟩ := not_or.mp (fun hmem => h (mem_cons.mpr hmem))
    rw [sortInsert, if_neg (Ne.symm hx)]
    split
    · exact List.Perm.refl _
    · exact ((ih hs).cons x).trans (List.Perm.swap b x s)

theorem adjustSortBlocks_perm {blocks : List Block} (h : blocks.Nodup) :
    (adjustSortBlocks blocks).Perm blocks := by
  have hfold (l s : List Block) (hnodup : (s ++ l).Nodup) :
      (l.foldl (fun sorted b => sortInsert b sorted) s).Perm (s ++ l) := by
    induction l generalizing s with
    | nil => rw [foldl_nil, append_nil]
    | cons b l ih =>
      have hb : b ∉ s := by
        intro hmem
        exact (nodup_append.mp hnodup).2.2 b hmem b mem_cons_self rfl
      have hperm : (sortInsert b s ++ l).Perm (s ++ b :: l) :=
        ((sortInsert_perm hb).append_right l).trans perm_middle.symm
      exact (ih _ (hperm.nodup_iff.mpr hnodup)).trans hperm
  exact hfold blocks [] h

theorem chainAppend_nodup {chain chain' : List Block} {b : Option Block} (h : chain.Nodup)
    (happend : chainAppend chain b = some chain') : chain'.Nodup := by
  cases b with
  | none =>
    cases happend
    exact h
  | some b =>
    rw [chainAppend] at happend
    split at happend
    · cases happend
      exact h
    rename_i hb
    split at happend
    · cases happend
    · cases happend
      exact nodup_append.mpr ⟨h, nodup_singleton b, fun x hx y hy hxy =>
        hb (mem_singleton.mp hy ▸ hxy ▸ hx)⟩

theorem chainOf_nodup {env : Env Block} {chain : List Block} (h : chainOf env = some chain) :
    chain.Nodup := by
  obtain ⟨c₁, h₁, h⟩ := Option.bind_eq_some_iff.mp h
  obtain ⟨c₂, h₂, h₃⟩ := Option.bind_eq_some_iff.mp h
  exact chainAppend_nodup (chainAppend_nodup (chainAppend_nodup nodup_nil h₁) h₂) h₃

/-! ### What receipts and threads say -/

def part (rc : Receipt Block) (b : Block) (type : ℕ) : ℤ :=
  if type = rc.type then rc.amount * rc.booked.count b else 0

theorem part_nonneg (rc : Receipt Block) (b : Block) (type : ℕ) : 0 ≤ part rc b type := by
  unfold part
  split
  · exact Int.mul_nonneg (Int.natCast_nonneg _) (Int.natCast_nonneg _)
  · exact Int.le_refl 0

theorem part_nil {rc : Receipt Block} (h : rc.booked = []) (b : Block) (type : ℕ) :
    part rc b type = 0 := by
  simp [part, h]

structure ReceiptOk (rc : Receipt Block) : Prop where
  tag : ∃ gen state, gen ≤ genMax ∧ state ≤ receiptBusy ∧ rc.tag = receiptTag gen state
  idle : tagState rc.tag = receiptIdle → rc.booked = [] ∧ rc.live = false
  active : tagState rc.tag = receiptActive → rc.booked = rc.blocks ∧ rc.live = true
  fits : rc.booked ≠ [] → rc.amount ≤ amountMax ∧ rc.type < typeCount
  nodup : rc.booked.Nodup

structure Owned (rc : Receipt Block) (gen : ℕ) (booked : List Block) (live : Bool) : Prop where
  tag : rc.tag = receiptTag gen receiptBusy
  gen : gen ≤ genMax
  booked : rc.booked = booked
  live : rc.live = live

/-- The receipt that a call owns. -/
def Pc.held : Pc Rid → Option Rid
  | .chargeFill r _ _ _ => some r
  | .chargeGate r _ => some r
  | .chargeChain r _ => some r
  | .charging r _ _ => some r
  | .unwinding r _ _ _ _ => some r
  | .chargeRelease r _ _ => some r
  | .publish r _ => some r
  | .crediting r _ _ => some r
  | .returnRelease r _ => some r
  | .adjusting r _ _ => some r
  | .republish r _ _ => some r
  | _ => none

/-- What a thread knows. -/
def Knows (m : Mem Rid Block) (l : Local Rid Block) : Prop :=
  match l.pc with
  | .idle => True
  | .chargeLoad _ _ _ => l.moved = fun _ _ => 0
  | .chargeTry _ _ _ claim =>
    tagState claim = receiptIdle ∧ tagGen claim < genMax ∧ l.moved = fun _ _ => 0
  | .chargeFill r _ _ gen => Owned (m.receipt r) gen [] false ∧ gen < genMax ∧
      l.moved = fun _ _ => 0
  | .chargeGate r gen => Owned (m.receipt r) gen [] false ∧ gen < genMax ∧ l.moved = fun _ _ => 0
  | .chargeChain r gen => Owned (m.receipt r) gen [] false ∧ gen < genMax ∧ l.moved = fun _ _ => 0
  | .charging r gen i => Owned (m.receipt r) gen ((m.receipt r).blocks.take i) false ∧
      gen < genMax ∧ (m.receipt r).blocks.Nodup ∧ i ≤ (m.receipt r).blocks.length ∧
      l.moved = part (m.receipt r)
  | .unwinding r gen i j _ => Owned (m.receipt r) gen (((m.receipt r).blocks.take i).drop j) false ∧
      i ≤ (m.receipt r).blocks.length ∧ l.moved = part (m.receipt r)
  | .chargeRelease r gen _ => Owned (m.receipt r) gen [] false ∧ l.moved = fun _ _ => 0
  | .publish r gen => Owned (m.receipt r) gen (m.receipt r).blocks false ∧ gen < genMax
  | .returnTry _ token => token ≤ genMax
  | .returnLoad _ token _ => token ≤ genMax
  | .returnSpin _ token _ => token ≤ genMax
  | .returnLast _ token => token ≤ genMax
  | .crediting r token i => Owned (m.receipt r) token ((m.receipt r).blocks.drop i) false
  | .returnRelease r token => Owned (m.receipt r) token [] false
  | .adjustTry _ token amount => token ≤ genMax ∧ amount ≤ amountMax ∧ l.moved = fun _ _ => 0
  | .adjusting r token amount => Owned (m.receipt r) token (m.receipt r).blocks true ∧
      amount ≤ amountMax ∧ l.moved = fun _ _ => 0
  | .republish r token st => Owned (m.receipt r) token (m.receipt r).blocks true ∧
      (st ≠ .success → l.moved = fun _ _ => 0)

omit [DecidableEq Rid] in
theorem Knows.frame {m m' : Mem Rid Block} {l : Local Rid Block} (h : Knows m l)
    (hsame : ∀ r, l.pc.held = some r → m'.receipt r = m.receipt r) : Knows m' l := by
  unfold Knows at h ⊢
  cases hpc : l.pc <;> rw [hpc] at h hsame <;> dsimp only at h ⊢ <;>
    first
      | exact h
      | rw [hsame _ rfl]
        exact h

/-! ### The history -/

def isCharged (r : Rid) (gen : ℕ) : Tid × Event Rid Block → Bool
  | (_, .charged r' token) => r' = r ∧ token = gen
  | _ => false

def isTaken (r : Rid) (gen : ℕ) : Tid × Event Rid Block → Bool
  | (_, .taken r' gen' _) => r' = r ∧ gen' = gen
  | _ => false

/-- Calls that give no token have moved nothing, nor have resizes that fail, and a return takes
the charge whose token it presents. -/
def Event.Fair : Event Rid Block → Prop
  | .uncharged _ moved => moved = fun _ _ => 0
  | .adjusted st moved => st ≠ .success → moved = fun _ _ => 0
  | .taken _ gen token => gen = token
  | _ => True

/-- A charge is handed out once for each generation, and taken once unless it is live. -/
def History (rc : Receipt Block) (r : Rid) (es : List (Tid × Event Rid Block)) : Prop :=
  ∀ g, es.countP (isCharged r g) = (if 0 < g ∧ g ≤ tagGen rc.tag then 1 else 0) ∧
    es.countP (isTaken r g) + (if rc.live = true ∧ g = tagGen rc.tag then 1 else 0) =
      es.countP (isCharged r g)

inductive Records (r : Rid) (rc rc' : Receipt Block) : Event Rid Block → Prop
  | plain {ev : Event Rid Block} (hcharged : ∀ r token, ev ≠ .charged r token)
      (htaken : ∀ r gen token, ev ≠ .taken r gen token) (hgen : tagGen rc'.tag = tagGen rc.tag)
      (hlive : rc'.live = rc.live) : Records r rc rc' ev
  | charged (hgen : tagGen rc'.tag = tagGen rc.tag + 1) (hlive : rc.live = false)
      (hlive' : rc'.live = true) : Records r rc rc' (.charged r (tagGen rc.tag + 1))
  | taken (token : ℕ) (hgen : tagGen rc'.tag = tagGen rc.tag) (hlive : rc.live = true)
      (hlive' : rc'.live = false) : Records r rc rc' (.taken r (tagGen rc.tag) token)

omit [DecidableEq Tid] [LinearOrder Block] in
theorem History.step {rc rc' : Receipt Block} {r : Rid} {es : List (Tid × Event Rid Block)}
    {ev : Event Rid Block} (h : History rc r es) (hev : Records r rc rc' ev) (t : Tid) :
    History rc' r (es ++ [(t, ev)]) := by
  intro g
  obtain ⟨hissued, htaken⟩ := h g
  rw [countP_append, countP_append, countP_singleton, countP_singleton]
  cases hev with
  | plain hcharged htake hgen hlive =>
    have h₁ : isCharged r g (t, ev) = false := by
      cases ev <;> first | rfl | exact absurd rfl (hcharged _ _)
    have h₂ : isTaken r g (t, ev) = false := by
      cases ev <;> first | rfl | exact absurd rfl (htake _ _ _)
    rw [h₁, h₂, hgen, hlive]
    exact ⟨hissued, htaken⟩
  | charged hgen hlive hlive' =>
    rw [hlive] at htaken
    rw [hgen, hlive']
    simp only [isCharged, isTaken, true_and, Bool.false_eq_true, if_false, false_and,
      decide_eq_true_eq] at htaken ⊢
    rcases eq_or_ne g (tagGen rc.tag + 1) with rfl | hne
    · rw [if_neg (by omega)] at hissued
      refine ⟨?_, ?_⟩
      · rw [if_pos rfl, if_pos ⟨by omega, by omega⟩, hissued]
      · rw [if_pos rfl]
        omega
    · refine ⟨?_, ?_⟩
      · rw [if_neg (Ne.symm hne), hissued]
        split <;> rename_i hg
        · rw [if_pos ⟨hg.1, by omega⟩]
        · rw [if_neg (fun h => hg ⟨h.1, by omega⟩)]
      · rw [if_neg hne, if_neg (Ne.symm hne)]
        omega
  | taken token hgen hlive hlive' =>
    rw [hlive] at htaken
    rw [hgen, hlive']
    simp only [isCharged, isTaken, true_and, Bool.false_eq_true, if_false, false_and,
      decide_eq_true_eq] at htaken ⊢
    refine ⟨hissued, ?_⟩
    rcases eq_or_ne g (tagGen rc.tag) with rfl | hne
    · rw [if_pos rfl] at htaken ⊢
      omega
    · rw [if_neg hne] at htaken
      rw [if_neg (Ne.symm hne)]
      omega

omit [DecidableEq Tid] [LinearOrder Block] in
theorem History.aside {rc : Receipt Block} {r r' : Rid} {es : List (Tid × Event Rid Block)}
    {rc₁ rc₂ : Receipt Block} {ev : Event Rid Block} (h : History rc r es)
    (hev : Records r' rc₁ rc₂ ev) (hne : r ≠ r') (t : Tid) : History rc r (es ++ [(t, ev)]) := by
  intro g
  have h₁ : isCharged r g (t, ev) = false := by
    cases hev with
    | plain hcharged => cases ev <;> first | rfl | exact absurd rfl (hcharged _ _)
    | charged => simp [isCharged, hne.symm]
    | taken => rfl
  have h₂ : isTaken r g (t, ev) = false := by
    cases hev with
    | plain _ htaken => cases ev <;> first | rfl | exact absurd rfl (htaken _ _ _)
    | charged => rfl
    | taken => simp [isTaken, hne.symm]
  rw [countP_append, countP_append, countP_singleton, countP_singleton, h₁, h₂]
  exact h g

/-! ### The invariant -/

section Runs

variable [Fintype Rid]

/-- At every moment: usages are what the receipts have booked, and each busy receipt has one
owner. -/
structure ChargeOk (c : State Tid Rid Block) (es : List (Tid × Event Rid Block)) : Prop where
  receipts : ∀ r, ReceiptOk (c.shared.receipt r)
  usage : ∀ b type, c.shared.usage b type = ∑ r, part (c.shared.receipt r) b type
  bound : ∀ b type, c.shared.usage b type ≤ amountMax
  knows : ∀ t, Knows c.shared (c.threads t)
  exclusive : ∀ t u r, (c.threads t).pc.held = some r → (c.threads u).pc.held = some r → t = u
  owner : ∀ r, tagState (c.shared.receipt r).tag = receiptBusy →
    ∃ t, (c.threads t).pc.held = some r
  history : ∀ r, History (c.shared.receipt r) r es
  fair : ∀ e ∈ es, e.2.Fair

theorem sum_change {f g : Rid → ℤ} (r : Rid) (h : ∀ x, x ≠ r → g x = f x) :
    ∑ x, g x = ∑ x, f x + (g r - f r) := by
  have hrest : ∑ x ∈ Finset.univ.erase r, g x = ∑ x ∈ Finset.univ.erase r, f x := by
    apply Finset.sum_congr rfl
    intro x hx
    exact h x (Finset.ne_of_mem_erase hx)
  rw [← Finset.add_sum_erase _ g (Finset.mem_univ r), hrest,
    ← Finset.add_sum_erase _ f (Finset.mem_univ r)]
  ring

omit [DecidableEq Rid] [Fintype Rid] in
theorem Knows.busy {m : Mem Rid Block} {l : Local Rid Block} (h : Knows m l) {r : Rid}
    (hheld : l.pc.held = some r) : tagState (m.receipt r).tag = receiptBusy := by
  have hown {r' : Rid} {gen : ℕ} {booked : List Block} {live : Bool}
      (ho : Owned (m.receipt r') gen booked live) :
      tagState (m.receipt r').tag = receiptBusy := by
    rw [ho.tag]
    exact tagState_receiptTag ho.gen (le_refl _)
  unfold Knows at h
  cases hpc : l.pc <;> rw [hpc] at h hheld <;> dsimp only [Pc.held] at h hheld <;>
    first
      | cases hheld
        done
      | cases hheld
        first
          | exact hown h.1
          | exact hown h

namespace ChargeOk

variable {c : State Tid Rid Block} {es : List (Tid × Event Rid Block)}

omit [DecidableEq Tid] in
theorem part_le (h : ChargeOk c es) (r : Rid) (b : Block) (type : ℕ) :
    part (c.shared.receipt r) b type ≤ c.shared.usage b type := by
  rw [h.usage]
  exact Finset.single_le_sum (f := fun r => part (c.shared.receipt r) b type)
    (fun x _ => part_nonneg _ b type) (Finset.mem_univ r)

theorem quiet (h : ChargeOk c es) {t : Tid} {m' : Mem Rid Block} {l' : Local Rid Block}
    {ev : Event Rid Block} (hreceipt : m'.receipt = c.shared.receipt)
    (husage : m'.usage = c.shared.usage) (hheld : (c.threads t).pc.held = none)
    (hheld' : l'.pc.held = none) (hknows : Knows m' l')
    (hcharged : ∀ r token, ev ≠ .charged r token)
    (htaken : ∀ r gen token, ev ≠ .taken r gen token) (hfair : ev.Fair) :
    ChargeOk ⟨m', update c.threads t l'⟩ (es ++ [(t, ev)]) := by
  have hpc (u : Tid) (r : Rid) : (update c.threads t l' u).pc.held = some r ↔
      (c.threads u).pc.held = some r := by
    rcases eq_or_ne u t with rfl | hu
    · rw [update_self, hheld, hheld']
    · rw [update_of_ne hu]
  refine ⟨?_, ?_, ?_, ?_, ?_, ?_, ?_, ?_⟩
  · intro r
    rw [hreceipt]
    exact h.receipts r
  · intro b type
    rw [husage, hreceipt]
    exact h.usage b type
  · intro b type
    rw [husage]
    exact h.bound b type
  · intro u
    dsimp only
    rcases eq_or_ne u t with rfl | hu
    · rwa [update_self]
    · rw [update_of_ne hu]
      exact (h.knows u).frame fun r _ => by rw [hreceipt]
  · intro u v r hu hv
    exact h.exclusive u v r ((hpc u r).mp hu) ((hpc v r).mp hv)
  · intro r hbusy
    rw [hreceipt] at hbusy
    obtain ⟨u, hu⟩ := h.owner r hbusy
    exact ⟨u, (hpc u r).mpr hu⟩
  · intro r
    rw [hreceipt]
    exact (h.history r).step (.plain hcharged htaken rfl rfl) t
  · intro e he
    rcases mem_append.mp he with he | he
    · exact h.fair e he
    · rw [mem_singleton.mp he]
      exact hfair

theorem act (h : ChargeOk c es) {t : Tid} {m' : Mem Rid Block} {l' : Local Rid Block}
    {ev : Event Rid Block} (r : Rid)
    (hheld : (c.threads t).pc.held = some r ∨ ((c.threads t).pc.held = none ∧
      tagState (c.shared.receipt r).tag ≠ receiptBusy))
    (hheld' : l'.pc.held = some r ∨ (l'.pc.held = none ∧ tagState (m'.receipt r).tag ≠ receiptBusy))
    (hrest : ∀ x, x ≠ r → m'.receipt x = c.shared.receipt x) (hok : ReceiptOk (m'.receipt r))
    (husage : ∀ b type, m'.usage b type = c.shared.usage b type +
      (part (m'.receipt r) b type - part (c.shared.receipt r) b type))
    (hbound : ∀ b type, m'.usage b type ≤ amountMax) (hknows : Knows m' l')
    (hrecords : Records r (c.shared.receipt r) (m'.receipt r) ev) (hfair : ev.Fair) :
    ChargeOk ⟨m', update c.threads t l'⟩ (es ++ [(t, ev)]) := by
  -- no other thread owns the receipt
  have hother (u : Tid) (hu : u ≠ t) : (c.threads u).pc.held ≠ some r := by
    intro hheldu
    rcases hheld with hheld | ⟨-, hfree⟩
    · exact hu (h.exclusive u t r hheldu hheld)
    · exact hfree ((h.knows u).busy hheldu)
  refine ⟨?_, ?_, hbound, ?_, ?_, ?_, ?_, ?_⟩
  · intro x
    dsimp only
    rcases eq_or_ne x r with rfl | hx
    · exact hok
    · rw [hrest x hx]
      exact h.receipts x
  · intro b type
    dsimp only
    rw [husage, h.usage, sum_change (f := fun x => part (c.shared.receipt x) b type)
      (g := fun x => part (m'.receipt x) b type) r (fun x hx => by rw [hrest x hx])]
  · intro u
    dsimp only
    rcases eq_or_ne u t with rfl | hu
    · rwa [update_self]
    · rw [update_of_ne hu]
      refine (h.knows u).frame fun x hx => hrest x ?_
      rintro rfl
      exact hother u hu hx
  · intro u v x hu hv
    dsimp only at hu hv
    have hmine (w : Tid) (hw : (update c.threads t l' w).pc.held = some x) :
        (w = t ∧ x = r) ∨ (w ≠ t ∧ x ≠ r ∧ (c.threads w).pc.held = some x) := by
      rcases eq_or_ne w t with rfl | hwt
      · rw [update_self] at hw
        rcases hheld' with hheld' | ⟨hheld', -⟩
        · rw [hheld'] at hw
          exact .inl ⟨rfl, (Option.some.inj hw).symm⟩
        · rw [hheld'] at hw
          cases hw
      · rw [update_of_ne hwt] at hw
        refine .inr ⟨hwt, ?_, hw⟩
        rintro rfl
        exact hother w hwt hw
    rcases hmine u hu with ⟨rfl, hxr⟩ | ⟨-, hxr, hu'⟩
    · rcases hmine v hv with ⟨rfl, -⟩ | ⟨-, hxr', -⟩
      · rfl
      · exact absurd hxr hxr'
    · rcases hmine v hv with ⟨rfl, hxr'⟩ | ⟨-, -, hv'⟩
      · exact absurd hxr' hxr
      · exact h.exclusive u v x hu' hv'
  · intro x hbusy
    dsimp only at hbusy
    rcases eq_or_ne x r with rfl | hx
    · refine ⟨t, ?_⟩
      dsimp only
      rw [update_self]
      exact hheld'.resolve_right fun hfree => hfree.2 hbusy
    · rw [hrest x hx] at hbusy
      obtain ⟨u, hu⟩ := h.owner x hbusy
      refine ⟨u, ?_⟩
      rcases eq_or_ne u t with rfl | hut
      · rcases hheld with hheld | ⟨hheld, -⟩
        · rw [hheld] at hu
          exact absurd (Option.some.inj hu).symm hx
        · rw [hheld] at hu
          cases hu
      · dsimp only
        rwa [update_of_ne hut]
  · intro x
    dsimp only
    rcases eq_or_ne x r with rfl | hx
    · exact (h.history x).step hrecords t
    · rw [hrest x hx]
      exact (h.history x).aside hrecords hx t
  · intro e he
    rcases mem_append.mp he with he | he
    · exact h.fair e he
    · rw [mem_singleton.mp he]
      exact hfair

end ChargeOk

end Runs

end ImpossibleOs.Quota.Charge
