import ImpossibleOs.Quota.LedgerSlots

/-!
Every move keeps the invariant of the slots.
-/

namespace ImpossibleOs.Quota.Ledger

open Interleave Function List Option Nat

variable {Tid : Type*} {v v' : View} {es es' : List (Tid × Event)} {t : Tid} {r r' : Role}
  {ev : Event}

/-! ### Plain events -/

section Plain

theorem plain_silent : Event.Plain .silent := ⟨rfl, rfl, rfl, rfl⟩

section

variable (hev : ev.Plain)
include hev

theorem claims_plain : claims (es ++ [(t, ev)]) = claims es := by
  simp [claims_concat, hev.1]

theorem epochs_plain : epochs (es ++ [(t, ev)]) = epochs es := by
  simp [epochs_concat, hev.1]

theorem freed_plain : freed (es ++ [(t, ev)]) = freed es := by
  simp [freed_concat, hev.2.1]

theorem released_plain : released (es ++ [(t, ev)]) = released es := by
  simp [released_concat, hev.2.2.1]

theorem settled_plain : settled (es ++ [(t, ev)]) = settled es := by
  simp [settled_concat, hev.2.2.2]

theorem holders_plain (s : ℕ) : holders (es ++ [(t, ev)]) s = holders es s := by
  simp [holders_concat, hold, hev.1, hev.2.1]

end

end Plain

theorem occupied_congr (h : ∀ s, holders es' s = holders es s) (type : ℕ) :
    occupied es' type = occupied es type := by
  refine congrArg Finset.card (Finset.filter_congr fun s _ => ?_)
  rw [h s]

theorem occupied_eq_sum (es : List (Tid × Event)) (type : ℕ) : occupied es type =
    ∑ s ∈ Finset.range capMax, if type ∈ (holders es s).map Prod.snd then 1 else 0 := by
  rw [occupied, Finset.card_filter]

variable {s : ℕ}

theorem occupied_change (hs : s < capMax)
    (h : ∀ s', s' ≠ s → holders es' s' = holders es s') (type : ℕ) :
    occupied es' type + (if type ∈ (holders es s).map Prod.snd then 1 else 0) =
      occupied es type + (if type ∈ (holders es' s).map Prod.snd then 1 else 0) := by
  have hmem : s ∈ Finset.range capMax := Finset.mem_range.mpr hs
  have hrest : ∑ s' ∈ (Finset.range capMax).erase s,
      (if type ∈ (holders es' s').map Prod.snd then 1 else 0) =
      ∑ s' ∈ (Finset.range capMax).erase s,
        (if type ∈ (holders es s').map Prod.snd then 1 else 0) := by
    apply Finset.sum_congr rfl
    intro s' hs'
    rw [h s' (Finset.ne_of_mem_erase hs')]
  rw [occupied_eq_sum, occupied_eq_sum, ← Finset.add_sum_erase _ _ hmem, hrest,
    ← Finset.add_sum_erase _ (fun s' => if type ∈ (holders es s').map Prod.snd then 1 else 0) hmem]
  omega

/-! ### What the other threads rely on -/

def Role.slot? : Role → Option ℕ
  | .building _ s _ _ => some s
  | r => r.carry

theorem Role.slot?_of_carry (h : r.carry = some s) : r.slot? = some s := by
  cases r with
  | building => cases h
  | _ => exact h

theorem Deferral.stable (h : Deferral v es s) (hissued : v.issued ⊆ v'.issued)
    (howner : v'.owner s = v.owner s) (hholders : holders es' s = holders es s)
    (hsettled : ∀ e, (s, e) ∈ settled es' → (s, e) ∈ settled es) : Deferral v' es' s := by
  obtain ⟨e, type, hheld, hword, hopen, k, hk, hslot, hepoch⟩ := h
  refine ⟨e, type, ?_, ?_, fun hmem => hopen (hsettled e hmem), k, hissued hk, hslot, hepoch⟩
  · rw [hholders]
    exact hheld
  · rw [howner]
    exact hword

theorem Knows.stable (h : Knows v es r) (hdrawn : v.drawn ≤ v'.drawn)
    (hissued : v.issued ⊆ v'.issued) (hfreed : freed es ⊆ freed es')
    (hfresh : ∀ e, r.custody = some e → (e ∈ epochs es' → e ∈ epochs es) ∧
      (∀ k ∈ v'.issued, k.epoch = e → k ∈ v.issued) ∧ (e ∈ released es' → e ∈ released es))
    (hslot : ∀ s, r.slot? = some s → v'.owner s = v.owner s ∧ holders es' s = holders es s ∧
      v'.rtype s = v.rtype s ∧ ∀ e, (s, e) ∈ settled es' → (s, e) ∈ settled es)
    (hheld : ∀ k ∈ v.issued, ∀ type, holders es' k.slot = [(k.epoch, type)] →
      holders es k.slot = [(k.epoch, type)]) : Knows v' es' r := by
  cases r with
  | bystander => trivial
  | reserving type cur => exact h
  | reserved type => trivial
  | claiming type s e =>
    obtain ⟨hs, hpos, hmax, hle, hnew⟩ := h
    exact ⟨hs, hpos, hmax, hle.trans hdrawn, fun hmem => hnew ((hfresh e rfl).1 hmem)⟩
  | building type s e typed =>
    obtain ⟨howner, hholds, hunissued, htyped⟩ := h
    obtain ⟨howner', hholders', hrtype', -⟩ := hslot s rfl
    refine ⟨howner'.trans howner, hholders'.trans hholds, ?_, fun ht => ?_⟩
    · intro k hk hepoch
      exact hunissued k ((hfresh e rfl).2.1 k hk hepoch) hepoch
    · rw [hrtype']
      exact htyped ht
  | releasing type e =>
    exact ⟨hfreed h.1, fun hmem => h.2 ((hfresh e rfl).2.2 hmem)⟩
  | presenting k => exact hissued h
  | returning s w type deferred =>
    cases deferred with
    | false =>
      obtain ⟨⟨k, hk, rfl, rfl⟩, htype⟩ := h
      exact ⟨⟨k, hissued hk, rfl, rfl⟩, fun type' h' => htype type' (hheld k hk type' h')⟩
    | true =>
      obtain ⟨hdef, hword, htype⟩ := h
      obtain ⟨howner', hholders', -, hsettled⟩ := hslot s rfl
      refine ⟨hdef.stable hissued howner' hholders' hsettled, howner'.trans hword, ?_⟩
      rw [hholders']
      exact htype
  | stamping s =>
    obtain ⟨howner', hholders', -, hsettled⟩ := hslot s rfl
    exact Deferral.stable h hissued howner' hholders' hsettled
  | taken s =>
    obtain ⟨howner', hholders', -, hsettled⟩ := hslot s rfl
    exact Deferral.stable h hissued howner' hholders' hsettled
  | carrying s w =>
    obtain ⟨howner', hholders', -, hsettled⟩ := hslot s rfl
    exact ⟨Deferral.stable h.1 hissued howner' hholders' hsettled, howner'.trans h.2⟩

theorem Knows.deferral (h : Knows v es r) (hc : r.carry = some s) : Deferral v es s := by
  cases r with
  | returning s' w type deferred =>
    cases deferred with
    | false => cases hc
    | true =>
      cases hc
      exact h.1
  | stamping s' =>
    cases hc
    exact h
  | taken s' =>
    cases hc
    exact h
  | carrying s' w =>
    cases hc
    exact h.1
  | _ => cases hc

theorem Knows.slot_cases (h : Knows v es r) (hs : r.slot? = some s) :
    (∃ e type, r.custody = some e ∧ v.owner s = e ∧ holders es s = [(e, type)] ∧
      ∀ k ∈ v.issued, k.epoch ≠ e) ∨ (r.carry = some s ∧ Deferral v es s) := by
  cases r with
  | building type s' e typed =>
    cases hs
    obtain ⟨howner, hheld, hunissued, -⟩ := h
    exact .inl ⟨e, type, rfl, howner, hheld, hunissued⟩
  | _ => exact .inr ⟨hs, h.deferral hs⟩

theorem Apart.update [DecidableEq Tid] {f : Role → Option ℕ} {roles : Tid → Role}
    (h : Apart f roles) (hnew : ∀ u, u ≠ t → ∀ x, f r' = some x → f (roles u) ≠ some x) :
    Apart f (update roles t r') := by
  intro u w x hu hw
  rcases eq_or_ne u t with rfl | hut
  · rcases eq_or_ne w u with rfl | hwu
    · rfl
    · rw [update_self] at hu
      rw [update_of_ne hwu] at hw
      exact absurd hw (hnew w hwu x hu)
  · rw [update_of_ne hut] at hu
    rcases eq_or_ne w t with rfl | hwt
    · rw [update_self] at hw
      exact absurd hu (hnew u hut x hw)
    · rw [update_of_ne hwt] at hw
      exact h u w x hu hw

theorem Apart.other {f : Role → Option ℕ} {roles : Tid → Role} (h : Apart f roles) {u : Tid}
    (hu : u ≠ t) {x : ℕ} (hx : f (roles t) = some x) : f (roles u) ≠ some x :=
  fun hux => hu (h u t x hux hx)

variable [Fintype Tid]

namespace SlotsOk

variable {roles : Tid → Role}

variable {type : ℕ} {k : Handle}

section

variable (h : SlotsOk v roles es)
include h

theorem obligations_pos (hp : (roles t).pending = some type) : 0 < v.obligations type := by
  have hshare : (roles t).share type = 1 := if_pos hp
  have hle : (roles t).share type ≤ inProgress roles type :=
    Finset.single_le_sum (f := fun u => (roles u).share type) (fun u _ => Nat.zero_le _)
      (Finset.mem_univ t)
  have hcount := h.count type
  omega

theorem pending_type (hp : (roles t).pending = some type) : type < Charge.typeCount := by
  have hpos := h.obligations_pos hp
  have hbound := h.bound type
  by_contra hge
  rw [typeCap, if_pos (not_lt.mp hge)] at hbound
  simp at hbound
  omega

theorem release_eq (hp : (roles t).pending = some type) :
    v.release type = v.setObligations type (v.obligations type - 1) :=
  if_neg (not_le.mpr (h.pending_type hp))

theorem holders_nil {s : ℕ} (howner : v.owner s = 0) : holders es s = [] := by
  rcases h.word s with ⟨-, hnil⟩ | ⟨e, type, hheld, hword⟩
  · exact hnil
  · obtain ⟨-, hpos, hmax, -⟩ := h.claim s e type (h.held s e type hheld).1
    rw [howner] at hword
    rcases hword with rfl | hword
    · exact absurd hpos (lt_irrefl 0)
    · rw [marked_eq hmax] at hword
      simp only [slotDeferred] at hword
      omega

theorem holders_of_owner {s e : ℕ} (howner : v.owner s = e) (hpos : 0 < e)
    (hmax : e ≤ slotEpochMax) : ∃ type, holders es s = [(e, type)] := by
  rcases h.word s with ⟨hzero, -⟩ | ⟨e', type, hheld, hword⟩
  · omega
  · obtain ⟨-, -, hmax', -⟩ := h.claim s e' type (h.held s e' type hheld).1
    rcases hword with hword | hword
    · obtain rfl : e' = e := hword.symm.trans howner
      exact ⟨type, hheld⟩
    · exact absurd (hword.symm.trans howner) (marked_ne hmax' hmax)

theorem issued_epoch (hk : k ∈ v.issued) :
    0 < k.epoch ∧ k.epoch ≤ slotEpochMax ∧ k.epoch ∈ epochs es := by
  obtain ⟨type, hclaim, -⟩ := h.issued k hk
  obtain ⟨-, hpos, hmax, -⟩ := h.claim _ _ _ hclaim
  exact ⟨hpos, hmax, mem_map.mpr ⟨_, hclaim, rfl⟩⟩

theorem not_deferral {s e : ℕ} (howner : v.owner s = e)
    (hmax : e ≤ slotEpochMax) : ¬ Deferral v es s := by
  rintro ⟨e', type, hheld, hword, -⟩
  obtain ⟨-, -, hmax', -⟩ := h.claim s e' type (h.held s e' type hheld).1
  exact marked_ne hmax' hmax (hword.symm.trans howner)

theorem epoch_le {e : ℕ} (he : e ∈ epochs es) : 0 < e ∧ e ≤ v.drawn := by
  obtain ⟨⟨s, e, type⟩, hclaim, rfl⟩ := mem_map.mp he
  obtain ⟨-, hpos, -, hle⟩ := h.claim s e type hclaim
  exact ⟨hpos, hle⟩

theorem custody_le {u : Tid} {e : ℕ} (hc : (roles u).custody = some e) : e ≤ v.drawn := by
  have hknows := h.threads u
  cases hr : roles u with
  | claiming type s e' =>
    rw [hr] at hc hknows
    cases hc
    exact hknows.2.2.2.1
  | building type s e' typed =>
    rw [hr] at hc hknows
    cases hc
    exact (h.claim s _ type (h.held s _ type hknows.2.1).1).2.2.2
  | releasing type e' =>
    rw [hr] at hc hknows
    cases hc
    exact (h.epoch_le (h.freed_epoch _ hknows.1)).2
  | _ =>
    rw [hr] at hc
    cases hc

theorem claim_unique {s s' e type type' : ℕ}
    (h₁ : (s, e, type) ∈ claims es) (h₂ : (s', e, type') ∈ claims es) : s = s' ∧ type = type' := by
  have heq := inj_on_of_nodup_map h.epochs_nodup h₁ h₂ rfl
  simp only [Prod.mk.injEq] at heq
  exact ⟨heq.1, heq.2.2⟩

theorem issued_type (hk : k ∈ v.issued)
    (hheld : holders es k.slot = [(k.epoch, type)]) : type = v.rtype k.slot := by
  obtain ⟨type', hclaim, hrtype⟩ := h.issued k hk
  obtain ⟨-, rfl⟩ := h.claim_unique hclaim (h.held _ _ _ hheld).1
  exact (hrtype hheld).symm

theorem slot_building {type s e : ℕ} {typed : Bool}
    (hr : roles t = .building type s e typed) {u : Tid} (hu : u ≠ t) :
    (roles u).slot? ≠ some s := by
  have hknows := h.threads t
  rw [hr] at hknows
  obtain ⟨howner, hheld, -⟩ := hknows
  obtain ⟨-, -, hmax, -⟩ := h.claim s e type (h.held s e type hheld).1
  intro hs
  rcases (h.threads u).slot_cases hs with ⟨e', type', hc, -, hheld', -⟩ | ⟨-, hd⟩
  · rw [hheld] at hheld'
    simp only [List.cons.injEq, Prod.mk.injEq, and_true] at hheld'
    have ht : (roles t).custody = some e' := by rw [hr, ← hheld'.1]; rfl
    exact h.custody.other hu ht hc
  · exact h.not_deferral howner hmax hd

theorem slot_issued (hk : k ∈ v.issued)
    (howner : v.owner k.slot = k.epoch) (u : Tid) : (roles u).slot? ≠ some k.slot := by
  obtain ⟨hpos, hmax, -⟩ := h.issued_epoch hk
  intro hs
  rcases (h.threads u).slot_cases hs with ⟨e, type, -, howner', -, hunissued⟩ | ⟨-, hd⟩
  · exact hunissued k hk (howner.symm.trans howner')
  · exact h.not_deferral howner hmax hd

theorem slot_carried {s : ℕ} (hc : (roles t).carry = some s) {u : Tid}
    (hu : u ≠ t) : (roles u).slot? ≠ some s := by
  intro hs
  rcases (h.threads u).slot_cases hs with ⟨e, type, -, howner, hheld, -⟩ | ⟨hc', -⟩
  · obtain ⟨-, -, hmax, -⟩ := h.claim s e type (h.held s e type hheld).1
    exact h.not_deferral howner hmax ((h.threads t).deferral hc)
  · exact h.carry.other hu hc hc'

theorem deferred_word {s w type : ℕ}
    (hr : roles t = .returning s w type true) : ∃ e, w = marked e ∧ epochOf w = e ∧
      e ≤ slotEpochMax ∧ v.owner s = marked e ∧ holders es s = [(e, type)] ∧
        (s, e) ∉ settled es := by
  have hknows := h.threads t
  rw [hr] at hknows
  obtain ⟨⟨e, type', hheld, hword, hopen, -⟩, rfl, htype⟩ := hknows
  obtain ⟨-, -, hmax, -⟩ := h.claim s e type' (h.held s e type' hheld).1
  obtain rfl := htype e type' hheld
  exact ⟨e, hword, by rw [hword, epochOf_marked hmax], hmax, hword, hheld, hopen⟩

theorem token_zero {s : ℕ} (hd : ¬ Deferral v es s) : v.token s = 0 := by
  by_contra hne
  exact hd (h.token s hne).1

theorem custody_issued (hk : k ∈ v.issued)
    (hheld : holders es k.slot = [(k.epoch, type)]) (u : Tid) :
    (roles u).custody ≠ some k.epoch := by
  intro hc
  have hknows := h.threads u
  cases hr : roles u with
  | claiming type' s e =>
    rw [hr] at hc hknows
    cases hc
    exact hknows.2.2.2.2 (h.issued_epoch hk).2.2
  | building type' s e typed =>
    rw [hr] at hc hknows
    cases hc
    exact hknows.2.2.1 k hk rfl
  | releasing type' e =>
    rw [hr] at hc hknows
    cases hc
    exact (h.held _ _ _ hheld).2 hknows.1
  | _ =>
    rw [hr] at hc
    cases hc

end

end SlotsOk

variable [DecidableEq Tid]

theorem inProgress_update (roles : Tid → Role) (t : Tid) (r' : Role) (type : ℕ) :
    inProgress (update roles t r') type + (roles t).share type =
      inProgress roles type + r'.share type :=
  sum_update (fun r => r.share type) roles t r'

namespace SlotsOk

variable {roles : Tid → Role}

section

variable (h : SlotsOk v roles es)
include h

theorem plain (hev : ev.Plain) (hdrawn : v.drawn ≤ v'.drawn)
    (hword : ∀ s, Held (v'.owner s) (holders es s))
    (hsettled : ∀ s e, (s, e) ∈ settled es → v'.owner s ≠ e)
    (hissued : ∀ k ∈ v'.issued, IssuedOk v' es k)
    (hcount : ∀ type, v'.obligations type + (roles t).share type =
      v.obligations type + r'.share type) (hbound : ∀ type, v'.obligations type ≤ typeCap type)
    (htoken : ∀ s, v'.token s ≠ 0 → Deferral v' es s ∧ r'.carry ≠ some s ∧
      ∀ u, u ≠ t → (roles u).carry ≠ some s)
    (hcustody : ∀ u, u ≠ t → ∀ e, r'.custody = some e → (roles u).custody ≠ some e)
    (hcarry : ∀ u, u ≠ t → ∀ s, r'.carry = some s → (roles u).carry ≠ some s)
    (hself : Knows v' es r') (hothers : ∀ u, u ≠ t → Knows v' es (roles u)) :
    SlotsOk v' (update roles t r') (es ++ [(t, ev)]) := by
  have hdef : ∀ s, Deferral v' es s → Deferral v' (es ++ [(t, ev)]) s := fun s hd =>
    hd.stable (List.Subset.refl _) rfl (holders_plain hev s) (by simp [settled_plain hev])
  have hknows : ∀ k, Knows v' es k → Knows v' (es ++ [(t, ev)]) k := fun k hk =>
    hk.stable le_rfl (List.Subset.refl _) (by simp [freed_plain hev])
      (fun e _ => ⟨by simp [epochs_plain hev], fun k hk _ => hk, by simp [released_plain hev]⟩)
      (by simp [holders_plain hev, settled_plain hev]) (by simp [holders_plain hev])
  constructor
  · simpa [holders_plain hev] using hword
  · simpa [holders_plain hev, claims_plain hev, freed_plain hev] using h.held
  · intro s e type hmem
    rw [claims_plain hev] at hmem
    obtain ⟨hs, hpos, hmax, hle⟩ := h.claim s e type hmem
    exact ⟨hs, hpos, hmax, hle.trans hdrawn⟩
  · simpa [epochs_plain hev] using h.epochs_nodup
  · simpa [freed_plain hev] using h.freed_nodup
  · simpa [freed_plain hev, epochs_plain hev] using h.freed_epoch
  · exact h.own.concat fun s e hfree => by simp [hev.2.1] at hfree
  · simpa [released_plain hev] using h.released_nodup
  · simpa [released_plain hev, freed_plain hev] using h.released_freed
  · simpa [settled_plain hev] using h.settled_nodup
  · simpa [settled_plain hev, epochs_plain hev] using h.settled_epoch
  · simpa [settled_plain hev] using hsettled
  · intro k hk
    obtain ⟨type, hclaim, hrtype⟩ := hissued k hk
    exact ⟨type, by rwa [claims_plain hev], by rwa [holders_plain hev]⟩
  · intro type
    have hsum := inProgress_update roles t r' type
    have hocc := occupied_congr (holders_plain hev : ∀ s, holders (es ++ [(t, ev)]) s = _) type
    have hold := h.count type
    have hnew := hcount type
    rw [hocc]
    omega
  · exact hbound
  · intro s hs
    obtain ⟨hd, hself', hothers'⟩ := htoken s hs
    exact ⟨hdef s hd, (forall_update_iff roles fun _ k => k.carry ≠ some s).mpr
      ⟨hself', hothers'⟩⟩
  · exact h.custody.update hcustody
  · exact h.carry.update hcarry
  · refine (forall_update_iff roles fun _ k => Knows v' (es ++ [(t, ev)]) k).mpr ?_
    exact ⟨hknows _ hself, fun u hu => hknows _ (hothers u hu)⟩

theorem still (hev : ev.Plain) (hpending : r'.pending = (roles t).pending)
    (hcustody : ∀ e, r'.custody = some e → (roles t).custody = some e)
    (hcarry : ∀ s, r'.carry = some s → (roles t).carry = some s) (hself : Knows v es r') :
    SlotsOk v (update roles t r') (es ++ [(t, ev)]) := by
  refine h.plain hev le_rfl h.word h.settled_word h.issued ?_ h.bound ?_ ?_ ?_ hself
    fun u _ => h.threads u
  · intro type
    simp [Role.share, hpending]
  · intro s hs
    obtain ⟨hd, hfree⟩ := h.token s hs
    exact ⟨hd, fun hc => hfree t (hcarry s hc), fun u _ => hfree u⟩
  · exact fun u hu e he => h.custody.other hu (hcustody e he)
  · exact fun u hu s hs => h.carry.other hu (hcarry s hs)

theorem recount (hev : ev.Plain) {type : ℕ} {n : ℤ}
    (hn : n + (roles t).share type = v.obligations type + r'.share type) (hmax : n ≤ typeCap type)
    (hshare : ∀ ty, ty ≠ type → r'.share ty = (roles t).share ty)
    (hcustody : r'.custody = none) (hcarry : r'.carry = none) (hself : Knows v es r') :
    SlotsOk (v.setObligations type n) (update roles t r') (es ++ [(t, ev)]) := by
  have hk : ∀ k, Knows v es k → Knows (v.setObligations type n) es k := fun k hk =>
    hk.stable le_rfl (List.Subset.refl _) (List.Subset.refl _)
      (fun e _ => ⟨id, fun k hk _ => hk, id⟩) (fun s _ => ⟨rfl, rfl, rfl, fun _ => id⟩)
      (fun _ _ _ => id)
  refine h.plain hev le_rfl h.word h.settled_word h.issued ?_ ?_ ?_ ?_ ?_ (hk _ hself)
    fun u _ => hk _ (h.threads u)
  · intro ty
    rcases eq_or_ne ty type with rfl | hne
    · simpa [View.setObligations] using hn
    · simp [View.setObligations, update_of_ne hne, hshare ty hne]
  · intro ty
    rcases eq_or_ne ty type with rfl | hne
    · simpa [View.setObligations] using hmax
    · simpa [View.setObligations, update_of_ne hne] using h.bound ty
  · intro s hs
    obtain ⟨hd, hfree⟩ := h.token s hs
    exact ⟨hd, by simp [hcarry], fun u _ => hfree u⟩
  · simp [hcustody]
  · simp [hcarry]

omit h in
theorem share_bystander (type : ℕ) : Role.share .bystander type = 0 := rfl

theorem unreserve (hev : ev.Plain) {type : ℕ} (hp : (roles t).pending = some type) :
    SlotsOk (v.release type) (update roles t .bystander) (es ++ [(t, ev)]) := by
  rw [h.release_eq hp]
  have hshare : (roles t).share type = 1 := if_pos hp
  refine h.recount hev ?_ ?_ ?_ rfl rfl trivial
  · rw [hshare, share_bystander]
    simp
  · have hbound := h.bound type
    omega
  · intro ty hne
    rw [share_bystander, Role.share, hp, if_neg (by simpa using hne.symm)]

theorem reserve {type : ℕ} {cur : ℤ}
    (hr : roles t = .reserving type cur) (hcur : v.obligations type = cur) :
    SlotsOk (v.setObligations type (cur + 1)) (update roles t (.reserved type))
      (es ++ [(t, Event.silent)]) := by
  have hknows := h.threads t
  rw [hr] at hknows
  obtain ⟨-, hlt⟩ : 0 ≤ cur ∧ cur < typeCap type := hknows
  refine h.recount plain_silent ?_ hlt ?_ rfl rfl trivial
  · rw [hr, hcur]
    simp [Role.share, Role.pending]
  · intro ty hne
    simp [hr, Role.share, Role.pending, hne.symm]

theorem count_epoch (hpending : r'.pending = (roles t).pending)
    (hcustody : ∀ u, u ≠ t → ∀ e, r'.custody = some e → (roles u).custody ≠ some e)
    (hcarry : r'.carry = none) (hself : Knows { v with drawn := v.drawn + 1 } es r') :
    SlotsOk { v with drawn := v.drawn + 1 } (update roles t r')
      (es ++ [(t, Event.silent)]) := by
  refine h.plain plain_silent (le_succ _) h.word h.settled_word h.issued ?_ h.bound ?_
    hcustody ?_ hself fun u _ => ?_
  · intro type
    simp [Role.share, hpending]
  · intro s hs
    obtain ⟨hd, hfree⟩ := h.token s hs
    exact ⟨hd, by simp [hcarry], fun u _ => hfree u⟩
  · simp [hcarry]
  · exact (h.threads u).stable (le_succ _) (List.Subset.refl _) (List.Subset.refl _)
      (fun e _ => ⟨id, fun k hk _ => hk, id⟩) (fun s _ => ⟨rfl, rfl, rfl, fun _ => id⟩)
      (fun _ _ _ => id)

theorem draw {type s : ℕ} (hr : roles t = .reserved type)
    (hs : s < capMax) (hmax : v.drawn + 1 ≤ slotEpochMax) : SlotsOk { v with drawn := v.drawn + 1 }
      (update roles t (.claiming type s (v.drawn + 1))) (es ++ [(t, Event.silent)]) := by
  refine h.count_epoch (by rw [hr]; rfl) ?_ rfl ⟨hs, succ_pos _, hmax, le_rfl, ?_⟩
  · intro u _ e he hu
    cases he
    exact absurd (h.custody_le hu) (not_succ_le_self _)
  · intro hmem
    exact absurd (h.epoch_le hmem).2 (not_succ_le_self _)

theorem publish {type s e : ℕ} {typed : Bool} (hr : roles t = .building type s e typed) :
    SlotsOk (v.setRtype s type) (update roles t (.building type s e true))
      (es ++ [(t, Event.silent)]) := by
  have hknows := h.threads t
  rw [hr] at hknows
  obtain ⟨howner, hheld, hunissued, -⟩ := hknows
  refine h.plain plain_silent le_rfl h.word h.settled_word ?_ ?_ h.bound ?_ ?_ ?_ ?_ ?_
  · intro k hk
    obtain ⟨type', hclaim, hrtype⟩ := h.issued k hk
    refine ⟨type', hclaim, fun hk' => ?_⟩
    rcases eq_or_ne k.slot s with hs | hs
    · rw [hs, hheld] at hk'
      simp only [List.cons.injEq, Prod.mk.injEq, and_true] at hk'
      exact absurd hk'.1.symm (hunissued k hk)
    · simpa [View.setRtype, update_of_ne hs] using hrtype hk'
  · intro ty
    simp [hr, Role.share, Role.pending, View.setRtype]
  · intro s' hs'
    obtain ⟨hd, hfree⟩ := h.token s' hs'
    exact ⟨hd, nofun, fun u _ => hfree u⟩
  · intro u hu e' he'
    exact h.custody.other hu (by rw [hr]; exact he')
  · exact fun _ _ _ => nofun
  · exact ⟨howner, hheld, hunissued, fun _ => update_self ..⟩
  · intro u hu
    refine (h.threads u).stable le_rfl (List.Subset.refl _) (List.Subset.refl _)
      (fun e _ => ⟨id, fun k hk _ => hk, id⟩) (fun s' hs' => ⟨rfl, rfl, ?_, fun _ => id⟩)
      (fun _ _ _ => id)
    rcases eq_or_ne s' s with rfl | hne
    · exact absurd hs' (h.slot_building hr hu)
    · exact update_of_ne hne ..

theorem issue {type s e token : ℕ} (hr : roles t = .building type s e true) :
    SlotsOk { v with issued := v.issued ++ [⟨s, token, e⟩] }
      (update roles t .bystander) (es ++ [(t, Event.charged ⟨s, token, e⟩)]) := by
  have hknows := h.threads t
  rw [hr] at hknows
  obtain ⟨howner, hheld, -, htyped⟩ := hknows
  have hsub : v.issued ⊆ v.issued ++ [⟨s, token, e⟩] := subset_append_left _ _
  refine h.plain ⟨rfl, rfl, rfl, rfl⟩ le_rfl h.word h.settled_word ?_ ?_ h.bound ?_ ?_ ?_ trivial ?_
  · intro k hk
    rcases mem_append.mp hk with hk | hk
    · exact h.issued k hk
    · obtain rfl := mem_singleton.mp hk
      exact ⟨type, (h.held s e type hheld).1, fun _ => htyped rfl⟩
  · intro ty
    simp [hr, Role.share, Role.pending]
  · intro s' hs'
    obtain ⟨hd, hfree⟩ := h.token s' hs'
    exact ⟨hd.stable hsub rfl rfl fun _ => id, nofun, fun u _ => hfree u⟩
  · exact fun _ _ _ => nofun
  · exact fun _ _ _ => nofun
  · intro u hu
    refine (h.threads u).stable le_rfl hsub (List.Subset.refl _) (fun e' he' => ⟨id, ?_, id⟩)
      (fun s' _ => ⟨rfl, rfl, rfl, fun _ => id⟩) (fun _ _ _ => id)
    intro k hk hepoch
    rcases mem_append.mp hk with hk | hk
    · exact hk
    · obtain rfl := mem_singleton.mp hk
      obtain rfl : e = e' := hepoch
      exact absurd he' (h.custody.other hu (by rw [hr]; rfl))

theorem mark {k : Handle} (hr : roles t = .presenting k) (howner : v.owner k.slot = k.epoch) :
    SlotsOk (v.setOwner k.slot (marked k.epoch)) (update roles t (.stamping k.slot))
      (es ++ [(t, Event.deferred k.slot k.epoch)]) := by
  have hk := h.threads t
  rw [hr] at hk
  replace hk : k ∈ v.issued := hk
  obtain ⟨hpos, hmax, -⟩ := h.issued_epoch hk
  obtain ⟨type, hheld⟩ := h.holders_of_owner howner hpos hmax
  have hopen : (k.slot, k.epoch) ∉ settled es := fun hmem => h.settled_word _ _ hmem howner
  have hslot := h.slot_issued hk howner
  have hothers : ∀ u s, (roles u).slot? = some s →
      (v.setOwner k.slot (marked k.epoch)).owner s = v.owner s := by
    intro u s hs
    rcases eq_or_ne s k.slot with rfl | hne
    · exact absurd hs (hslot u)
    · exact update_of_ne hne ..
  have hd : Deferral (v.setOwner k.slot (marked k.epoch)) es k.slot :=
    ⟨k.epoch, type, hheld, update_self .., hopen, k, hk, rfl, rfl⟩
  refine h.plain ⟨rfl, rfl, rfl, rfl⟩ le_rfl ?_ ?_ h.issued ?_ h.bound ?_ ?_ ?_ hd ?_
  · intro s
    rcases eq_or_ne s k.slot with rfl | hne
    · refine .inr ⟨k.epoch, type, hheld, .inr ?_⟩
      exact update_self ..
    · simpa [View.setOwner, update_of_ne hne] using h.word s
  · intro s e hmem
    rcases eq_or_ne s k.slot with rfl | hne
    · intro heq
      have hmark : marked k.epoch = e := by simpa [View.setOwner] using heq
      obtain ⟨⟨s', e', type'⟩, hclaim, rfl⟩ := mem_map.mp (h.settled_epoch _ _ hmem)
      exact marked_ne hmax (h.claim _ _ _ hclaim).2.2.1 hmark
    · simpa [View.setOwner, update_of_ne hne] using h.settled_word s e hmem
  · intro ty
    simp [hr, Role.share, Role.pending, View.setOwner]
  · intro s hs
    obtain ⟨hds, hfree⟩ := h.token s hs
    have hne : s ≠ k.slot := by
      rintro rfl
      exact h.not_deferral howner hmax hds
    refine ⟨hds.stable (List.Subset.refl _) ?_ rfl fun _ => id, ?_, fun u _ => hfree u⟩
    · exact update_of_ne hne ..
    · simpa [Role.carry] using hne.symm
  · exact fun _ _ _ => nofun
  · intro u _ s hs hu
    cases hs
    exact hslot u (Role.slot?_of_carry hu)
  · intro u _
    exact (h.threads u).stable le_rfl (List.Subset.refl _) (List.Subset.refl _)
      (fun e _ => ⟨id, fun k hk _ => hk, id⟩)
      (fun s hs => ⟨hothers u s hs, rfl, rfl, fun _ => id⟩) (fun _ _ _ => id)

theorem setToken {s token : ℕ} (hpending : r'.pending = (roles t).pending)
    (hcustody : r'.custody = none) (hd : Deferral v es s)
    (hothers : ∀ u, u ≠ t → (roles u).carry ≠ some s)
    (hcarry : ∀ s', r'.carry = some s' → s' = s) (htoken : token ≠ 0 → r'.carry = none)
    (hself : Knows v es r') :
    SlotsOk (v.setToken s token) (update roles t r') (es ++ [(t, Event.silent)]) := by
  have hk : ∀ k, Knows v es k → Knows (v.setToken s token) es k := fun k hk =>
    hk.stable le_rfl (List.Subset.refl _) (List.Subset.refl _)
      (fun e _ => ⟨id, fun k hk _ => hk, id⟩) (fun s _ => ⟨rfl, rfl, rfl, fun _ => id⟩)
      (fun _ _ _ => id)
  refine h.plain plain_silent le_rfl h.word h.settled_word h.issued ?_ h.bound ?_ ?_ ?_ (hk _ hself)
    fun u _ => hk _ (h.threads u)
  · intro type
    simp [Role.share, hpending, View.setToken]
  · intro s' hs'
    rcases eq_or_ne s' s with rfl | hne
    · have htok : token ≠ 0 := by simpa [View.setToken] using hs'
      exact ⟨hd, by simp [htoken htok], hothers⟩
    · obtain ⟨hd', hfree⟩ := h.token s' (by
        simpa [View.setToken, update_of_ne hne] using hs')
      exact ⟨hd', fun hc => hne (hcarry s' hc), fun u _ => hfree u⟩
  · simp [hcustody]
  · intro u hu s' hs'
    obtain rfl := hcarry s' hs'
    exact hothers u hu

theorem stamp {s token : ℕ} (hr : roles t = .stamping s) :
    SlotsOk (v.setToken s token) (update roles t .bystander)
      (es ++ [(t, Event.silent)]) := by
  have hc : (roles t).carry = some s := by rw [hr]; rfl
  exact h.setToken (by rw [hr]; rfl) rfl ((h.threads t).deferral hc)
    (fun u hu => h.carry.other hu hc) nofun (fun _ => rfl) trivial

theorem take {s : ℕ} (hr : roles t = .bystander) (htoken : v.token s ≠ 0) :
    SlotsOk (v.setToken s 0) (update roles t (.taken s)) (es ++ [(t, Event.silent)]) := by
  obtain ⟨hd, hfree⟩ := h.token s htoken
  refine h.setToken (by rw [hr]; rfl) rfl hd (fun u _ => hfree u) ?_ (fun hne => absurd rfl hne) hd
  intro s' hs'
  cases hs'
  rfl

theorem record {ob : ℕ → ℤ} (hob : ∀ type, ob type + (roles t).share type = v.obligations type)
    (hclaim : ev.claim? = none) (hfree : ev.free? = none)
    (hreleased : ∀ e, ev.release? = some e → (roles t).custody = some e ∧ e ∈ freed es ∧
      e ∉ released es) (hsettled : ∀ s e, ev.settle? = some (s, e) → (roles t).carry = some s ∧
      v.owner s = marked e ∧ e ≤ slotEpochMax ∧ e ∈ epochs es ∧ (s, e) ∉ settled es) :
    SlotsOk { v with obligations := ob } (update roles t .bystander)
      (es ++ [(t, ev)]) := by
  have hholders : ∀ s, holders (es ++ [(t, ev)]) s = holders es s := by
    intro s
    simp [holders_concat, hold, hclaim, hfree]
  have hfreed : freed (es ++ [(t, ev)]) = freed es := by simp [freed_concat, hfree]
  have hclaims : claims (es ++ [(t, ev)]) = claims es := by simp [claims_concat, hclaim]
  have hepochs : epochs (es ++ [(t, ev)]) = epochs es := by simp [epochs_concat, hclaim]
  -- another slot's deferred return is not the one that is settled now
  have hother : ∀ s, (roles t).carry ≠ some s → ∀ e, (s, e) ∈ settled (es ++ [(t, ev)]) →
      (s, e) ∈ settled es := by
    intro s hs e hmem
    rw [settled_concat] at hmem
    rcases mem_append.mp hmem with hmem | hmem
    · exact hmem
    · exact absurd (hsettled s e (mem_toList.mp hmem)).1 hs
  constructor
  · simpa [hholders] using h.word
  · simpa [hholders, hclaims, hfreed] using h.held
  · simpa [hclaims] using h.claim
  · simpa [hepochs] using h.epochs_nodup
  · simpa [hfreed] using h.freed_nodup
  · simpa [hfreed, hepochs] using h.freed_epoch
  · exact h.own.concat fun s e he => by simp [hfree] at he
  · rw [released_concat]
    cases hev : ev.release? with
    | none => simpa using h.released_nodup
    | some e =>
      refine nodup_append.mpr ⟨h.released_nodup, nodup_singleton e, ?_⟩
      intro e₁ he₁ e₂ he₂
      obtain rfl : e₂ = e := by simpa using he₂
      rintro rfl
      exact (hreleased _ hev).2.2 he₁
  · intro e he
    rw [released_concat] at he
    rw [hfreed]
    rcases mem_append.mp he with he | he
    · exact h.released_freed e he
    · exact (hreleased e (mem_toList.mp he)).2.1
  · rw [settled_concat]
    cases hev : ev.settle? with
    | none => simpa using h.settled_nodup
    | some p =>
      refine nodup_append.mpr ⟨h.settled_nodup, nodup_singleton p, ?_⟩
      intro p₁ hp₁ p₂ hp₂
      obtain rfl : p₂ = p := by simpa using hp₂
      rintro rfl
      exact (hsettled _ _ hev).2.2.2.2 hp₁
  · intro s e hmem
    rw [settled_concat] at hmem
    rw [hepochs]
    rcases mem_append.mp hmem with hmem | hmem
    · exact h.settled_epoch s e hmem
    · exact (hsettled s e (mem_toList.mp hmem)).2.2.2.1
  · intro s e hmem
    rw [settled_concat] at hmem
    rcases mem_append.mp hmem with hmem | hmem
    · exact h.settled_word s e hmem
    · obtain ⟨-, hword, hmax, -⟩ := hsettled s e (mem_toList.mp hmem)
      rw [hword]
      exact marked_ne hmax hmax
  · intro k hk
    obtain ⟨type, hk₁, hk₂⟩ := h.issued k hk
    exact ⟨type, by rwa [hclaims], by rwa [hholders]⟩
  · intro type
    have hsum := inProgress_update roles t .bystander type
    have hold := h.count type
    have hnew := hob type
    rw [occupied_congr hholders]
    rw [share_bystander] at hsum
    change ob type = _
    omega
  · intro type
    have hold := h.bound type
    have hnew := hob type
    change ob type ≤ _
    omega
  · intro s hs
    obtain ⟨hd, hfree'⟩ := h.token s hs
    refine ⟨hd.stable (List.Subset.refl _) rfl (hholders s) (hother s (hfree' t)), ?_⟩
    exact (forall_update_iff roles fun _ k => k.carry ≠ some s).mpr
      ⟨nofun, fun u _ => hfree' u⟩
  · exact h.custody.update fun _ _ _ => nofun
  · exact h.carry.update fun _ _ _ => nofun
  · refine (forall_update_iff roles fun _ k => Knows _ (es ++ [(t, ev)]) k).mpr
      ⟨trivial, fun u hu => ?_⟩
    refine (h.threads u).stable le_rfl (List.Subset.refl _) (by rw [hfreed]; exact fun _ => id)
      (fun e he => ⟨by rw [hepochs]; exact id, fun k hk _ => hk, ?_⟩)
      (fun s hs => ⟨rfl, hholders s, rfl, hother s ?_⟩) (fun k _ ty => by rw [hholders]; exact id)
    · intro hmem
      rw [released_concat] at hmem
      rcases mem_append.mp hmem with hmem | hmem
      · exact hmem
      · exact absurd he (h.custody.other hu (hreleased e (mem_toList.mp hmem)).1)
    · intro hc
      exact h.slot_carried hc hu hs

theorem release {type e : ℕ} (hr : roles t = .releasing type e) :
    SlotsOk (v.release type) (update roles t .bystander)
      (es ++ [(t, Event.released e type)]) := by
  have hknows := h.threads t
  rw [hr] at hknows
  obtain ⟨hfreed, hnew⟩ := hknows
  rw [h.release_eq (by rw [hr]; rfl)]
  refine h.record ?_ rfl rfl ?_ nofun
  · intro ty
    rcases eq_or_ne ty type with rfl | hne
    · simp [hr, Role.share, Role.pending]
    · simp [hr, Role.share, Role.pending, update_of_ne hne, hne.symm]
  · intro e' he'
    cases he'
    exact ⟨by rw [hr]; rfl, hfreed, hnew⟩

theorem drop {s w type : ℕ} (hr : roles t = .returning s w type true) :
    SlotsOk v (update roles t .bystander) (es ++ [(t, Event.dropped s (epochOf w))]) := by
  obtain ⟨e, -, hepoch, hmax, hword, hheld, hopen⟩ := h.deferred_word hr
  refine @record _ _ _ t _ _ _ _ h v.obligations ?_ rfl rfl nofun ?_
  · intro ty
    simp [hr, Role.share, Role.pending]
  · intro s' e' he'
    cases he'
    rw [hepoch]
    exact ⟨by rw [hr]; rfl, hword, hmax, mem_map.mpr ⟨_, (h.held s e type hheld).1, rfl⟩,
      hopen⟩

end

end SlotsOk

end ImpossibleOs.Quota.Ledger
