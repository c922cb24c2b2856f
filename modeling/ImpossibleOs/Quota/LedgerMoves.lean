import ImpossibleOs.Quota.LedgerInv

/-!
The two moves that change who holds a slot: a charge takes a free one, and the
one obligation that holds a slot lets it go. With them every move keeps the
invariant.
-/

namespace ImpossibleOs.Quota.Ledger

open Interleave Function List

variable {Tid : Type*} [Fintype Tid] [DecidableEq Tid] {v v' : View} {es : List (Tid × Event)}
  {t : Tid} {r r' : Role} {ev : Event} {roles : Tid → Role}

namespace SlotsOk

section

variable (h : SlotsOk v roles es)
include h

theorem claimed {type s e : ℕ} (hr : roles t = .claiming type s e) (howner : v.owner s = 0) :
    SlotsOk (v.setOwner s e) (update roles t (.building type s e false))
      (es ++ [(t, Event.claimed s e type)]) := by
  have hknows := h.threads t
  rw [hr] at hknows
  obtain ⟨hs, hpos, hmax, hdrawn, hnew⟩ := hknows
  have hnil := h.holders_nil howner
  have hheld : holders (es ++ [(t, Event.claimed s e type)]) s = [(e, type)] := by
    simp [holders_concat, hold, Event.claim?, hnil]
  have hne : ∀ s', s' ≠ s → holders (es ++ [(t, Event.claimed s e type)]) s' = holders es s' := by
    intro s' hs'
    simp [holders_concat, hold, Event.claim?, hs'.symm]
  have hclaims : claims (es ++ [(t, Event.claimed s e type)]) = claims es ++ [(s, e, type)] := by
    simp [claims_concat, Event.claim?]
  have hepochs : epochs (es ++ [(t, Event.claimed s e type)]) = epochs es ++ [e] := by
    simp [epochs_concat, Event.claim?]
  have hfreed : freed (es ++ [(t, Event.claimed s e type)]) = freed es := by
    simp [freed_concat, Event.free?]
  have hreleased : released (es ++ [(t, Event.claimed s e type)]) = released es := by
    simp [released_concat, Event.release?]
  have hsettled : settled (es ++ [(t, Event.claimed s e type)]) = settled es := by
    simp [settled_concat, Event.settle?]
  have howner' : ∀ s', s' ≠ s → (v.setOwner s e).owner s' = v.owner s' := fun s' hs' =>
    update_of_ne hs' ..
  have hfree : ∀ s', holders es s' ≠ [] → s' ≠ s := by
    rintro s' hs' rfl
    exact hs' hnil
  have hdef : ∀ s', Deferral v es s' → s' ≠ s := by
    rintro s' ⟨e', type', hheld', -⟩
    exact hfree s' (by rw [hheld']; exact cons_ne_nil _ _)
  constructor
  · intro s'
    rcases eq_or_ne s' s with rfl | hs'
    · exact .inr ⟨e, type, hheld, .inl (update_self ..)⟩
    · rw [hne s' hs', howner' s' hs']
      exact h.word s'
  · intro s' e' type' hs'
    rw [hclaims, hfreed]
    rcases eq_or_ne s' s with rfl | hs''
    · rw [hheld] at hs'
      simp only [List.cons.injEq, Prod.mk.injEq, and_true] at hs'
      obtain ⟨rfl, rfl⟩ := hs'
      exact ⟨by simp, fun hmem => hnew (h.freed_epoch _ hmem)⟩
    · rw [hne s' hs''] at hs'
      obtain ⟨hclaim, hopen⟩ := h.held s' e' type' hs'
      exact ⟨mem_append_left _ hclaim, hopen⟩
  · intro s' e' type' hmem
    rw [hclaims] at hmem
    rcases mem_append.mp hmem with hmem | hmem
    · exact h.claim s' e' type' hmem
    · simp only [mem_singleton, Prod.mk.injEq] at hmem
      obtain ⟨rfl, rfl, rfl⟩ := hmem
      exact ⟨hs, hpos, hmax, hdrawn⟩
  · rw [hepochs]
    refine nodup_append.mpr ⟨h.epochs_nodup, nodup_singleton e, ?_⟩
    intro e₁ he₁ e₂ he₂
    obtain rfl : e₂ = e := by simpa using he₂
    rintro rfl
    exact hnew he₁
  · rw [hfreed]
    exact h.freed_nodup
  · intro e' he'
    rw [hfreed] at he'
    rw [hepochs]
    exact mem_append_left _ (h.freed_epoch e' he')
  · exact h.own.concat (by rintro _ _ ⟨⟩)
  · rw [hreleased]
    exact h.released_nodup
  · rw [hreleased, hfreed]
    exact h.released_freed
  · rw [hsettled]
    exact h.settled_nodup
  · intro s' e' hmem
    rw [hsettled] at hmem
    rw [hepochs]
    exact mem_append_left _ (h.settled_epoch s' e' hmem)
  · intro s' e' hmem
    rw [hsettled] at hmem
    rcases eq_or_ne s' s with rfl | hs'
    · intro heq
      obtain rfl : e = e' := by simpa [View.setOwner] using heq
      exact hnew (h.settled_epoch s' e hmem)
    · rw [howner' s' hs']
      exact h.settled_word s' e' hmem
  · intro k hk
    obtain ⟨type', hclaim, hrtype⟩ := h.issued k hk
    refine ⟨type', by rw [hclaims]; exact mem_append_left _ hclaim, fun hk' => ?_⟩
    rcases eq_or_ne k.slot s with hks | hks
    · rw [hks, hheld] at hk'
      simp only [List.cons.injEq, Prod.mk.injEq, and_true] at hk'
      exact absurd (hk'.1 ▸ (h.issued_epoch hk).2.2) hnew
    · rw [hne _ hks] at hk'
      exact hrtype hk'
  · intro ty
    have hsum := inProgress_update roles t (.building type s e false) ty
    have hocc := occupied_change hs hne ty
    have hcount := h.count ty
    rw [hheld, hnil] at hocc
    rw [hr] at hsum
    simp only [Role.share, Role.pending, map_nil, not_mem_nil, if_false, map_cons,
      mem_singleton, Option.some.injEq, reduceCtorEq] at hsum hocc
    change v.obligations ty = _
    split at hsum <;> split at hocc <;> omega
  · exact h.bound
  · intro s' hs'
    obtain ⟨hd, hcarry⟩ := h.token s' hs'
    refine ⟨hd.stable (List.Subset.refl _) (howner' s' (hdef s' hd)) (hne s' (hdef s' hd))
      (by rw [hsettled]; exact fun _ => id), ?_⟩
    exact (forall_update_iff roles fun _ k => k.carry ≠ some s').mpr
      ⟨by rintro ⟨⟩, fun u _ => hcarry u⟩
  · refine h.custody.update fun u hu e' he' => ?_
    exact h.custody.other hu (by rw [hr]; exact he')
  · exact h.carry.update fun _ _ _ => by rintro ⟨⟩
  · refine (forall_update_iff roles fun _ k => Knows _ _ k).mpr ⟨?_, fun u hu => ?_⟩
    · refine ⟨update_self .., hheld, ?_, by rintro ⟨⟩⟩
      intro k hk hepoch
      exact hnew (hepoch ▸ (h.issued_epoch hk).2.2)
    · have hslot : ∀ s', (roles u).slot? = some s' → s' ≠ s := by
        intro s' hs'
        rcases (h.threads u).slot_cases hs' with ⟨e', type', -, -, hheld', -⟩ | ⟨-, hd⟩
        · exact hfree s' (by rw [hheld']; exact cons_ne_nil _ _)
        · exact hdef s' hd
      refine (h.threads u).stable le_rfl (List.Subset.refl _) (by rw [hfreed]; exact fun _ => id)
        (fun e' he' => ⟨?_, fun k hk _ => hk, by rw [hreleased]; exact id⟩)
        (fun s' hs' => ⟨howner' s' (hslot s' hs'), hne s' (hslot s' hs'), rfl,
          by rw [hsettled]; exact fun _ => id⟩) ?_
      · intro hmem
        rw [hepochs] at hmem
        rcases mem_append.mp hmem with hmem | hmem
        · exact hmem
        · obtain rfl := mem_singleton.mp hmem
          exact absurd he' (h.custody.other hu (by rw [hr]; rfl))
      · intro k hk type' hk'
        rcases eq_or_ne k.slot s with hks | hks
        · rw [hks, hheld] at hk'
          simp only [List.cons.injEq, Prod.mk.injEq, and_true] at hk'
          exact absurd (hk'.1 ▸ (h.issued_epoch hk).2.2) hnew
        · rw [hne _ hks] at hk'
          exact hk'

theorem vacate {type s e : ℕ} (hheld : holders es s = [(e, type)])
    (hclaim : ev.claim? = none) (hfree : ev.free? = some (s, e)) (hrelease : ev.release? = none)
    (hsettle : ∀ p, ev.settle? = some p → p = (s, e) ∧ (s, e) ∉ settled es)
    (hpending : (roles t).pending = none) (htoken : v.token s = 0)
    (hcustody : ∀ u, u ≠ t → (roles u).custody ≠ some e)
    (hslot : ∀ u, u ≠ t → (roles u).slot? ≠ some s) :
    SlotsOk (v.setOwner s 0) (update roles t (.releasing type e)) (es ++ [(t, ev)]) := by
  obtain ⟨hmem, hopen⟩ := h.held s e type hheld
  obtain ⟨hs, hpos, hmax, hdrawn⟩ := h.claim s e type hmem
  have hepoch : e ∈ epochs es := mem_map.mpr ⟨_, hmem, rfl⟩
  have hnil : holders (es ++ [(t, ev)]) s = [] := by
    simp [holders_concat, hold, hclaim, hfree, hheld]
  have hne : ∀ s', s' ≠ s → holders (es ++ [(t, ev)]) s' = holders es s' := by
    intro s' hs'
    simp [holders_concat, hold, hclaim, hfree, hs'.symm]
  have hclaims : claims (es ++ [(t, ev)]) = claims es := by simp [claims_concat, hclaim]
  have hepochs : epochs (es ++ [(t, ev)]) = epochs es := by simp [epochs_concat, hclaim]
  have hfreed : freed (es ++ [(t, ev)]) = freed es ++ [e] := by simp [freed_concat, hfree]
  have hreleased : released (es ++ [(t, ev)]) = released es := by
    simp [released_concat, hrelease]
  have hsettled : ∀ p, p ∈ settled (es ++ [(t, ev)]) → p ∈ settled es ∨ p = (s, e) := by
    intro p hp
    rw [settled_concat] at hp
    rcases mem_append.mp hp with hp | hp
    · exact .inl hp
    · exact .inr (hsettle p (Option.mem_toList.mp hp)).1
  have hother : ∀ s', s' ≠ s → ∀ e', (s', e') ∈ settled (es ++ [(t, ev)]) →
      (s', e') ∈ settled es := by
    intro s' hs' e' hp
    rcases hsettled _ hp with hp | hp
    · exact hp
    · exact absurd (congrArg Prod.fst hp) hs'
  have howner : ∀ s', s' ≠ s → (v.setOwner s 0).owner s' = v.owner s' := fun s' hs' =>
    update_of_ne hs' ..
  constructor
  · intro s'
    rcases eq_or_ne s' s with rfl | hs'
    · exact .inl ⟨update_self .., hnil⟩
    · rw [hne s' hs', howner s' hs']
      exact h.word s'
  · intro s' e' type' hs'
    rcases eq_or_ne s' s with rfl | hs''
    · rw [hnil] at hs'
      cases hs'
    · rw [hne s' hs''] at hs'
      obtain ⟨hmem', hopen'⟩ := h.held s' e' type' hs'
      rw [hclaims, hfreed]
      refine ⟨hmem', fun hin => ?_⟩
      rcases mem_append.mp hin with hin | hin
      · exact hopen' hin
      · obtain rfl := mem_singleton.mp hin
        exact hs'' (h.claim_unique hmem' hmem).1
  · rw [hclaims]
    exact h.claim
  · rw [hepochs]
    exact h.epochs_nodup
  · rw [hfreed]
    refine nodup_append.mpr ⟨h.freed_nodup, nodup_singleton e, ?_⟩
    intro e₁ he₁ e₂ he₂
    obtain rfl : e₂ = e := by simpa using he₂
    rintro rfl
    exact hopen he₁
  · intro e' he'
    rw [hfreed] at he'
    rw [hepochs]
    rcases mem_append.mp he' with he' | he'
    · exact h.freed_epoch e' he'
    · obtain rfl := mem_singleton.mp he'
      exact hepoch
  · refine h.own.concat fun s' e' hx => ?_
    obtain ⟨rfl, rfl⟩ : s = s' ∧ e = e' := by simpa [hfree] using hx
    simp [hheld]
  · rw [hreleased]
    exact h.released_nodup
  · intro e' he'
    rw [hreleased] at he'
    rw [hfreed]
    exact mem_append_left _ (h.released_freed e' he')
  · rw [settled_concat]
    cases hev : ev.settle? with
    | none => simpa using h.settled_nodup
    | some p =>
      obtain ⟨rfl, hnew⟩ := hsettle p hev
      refine nodup_append.mpr ⟨h.settled_nodup, nodup_singleton _, ?_⟩
      intro p₁ hp₁ p₂ hp₂
      obtain rfl : p₂ = (s, e) := by simpa using hp₂
      rintro rfl
      exact hnew hp₁
  · intro s' e' hp
    rw [hepochs]
    rcases hsettled _ hp with hp | hp
    · exact h.settled_epoch s' e' hp
    · obtain ⟨rfl, rfl⟩ := Prod.mk.inj hp
      exact hepoch
  · intro s' e' hp
    rcases eq_or_ne s' s with rfl | hs'
    · have hin : e' ∈ epochs es := by
        rcases hsettled _ hp with hp | hp
        · exact h.settled_epoch s' e' hp
        · obtain ⟨-, rfl⟩ := Prod.mk.inj hp
          exact hepoch
      intro heq
      obtain rfl : 0 = e' := by simpa [View.setOwner] using heq
      exact absurd (h.epoch_le hin).1 (lt_irrefl 0)
    · rw [howner s' hs']
      exact h.settled_word s' e' (hother s' hs' e' hp)
  · intro k hk
    obtain ⟨type', hk₁, hk₂⟩ := h.issued k hk
    refine ⟨type', by rwa [hclaims], fun hk' => ?_⟩
    rcases eq_or_ne k.slot s with hks | hks
    · rw [hks, hnil] at hk'
      cases hk'
    · rw [hne _ hks] at hk'
      exact hk₂ hk'
  · intro ty
    have hsum := inProgress_update roles t (.releasing type e) ty
    have hocc := occupied_change hs hne ty
    have hcount := h.count ty
    have hold : (roles t).share ty = 0 := if_neg (by simp [hpending])
    have hnew : Role.share (.releasing type e) ty = if type = ty then 1 else 0 := by
      simp [Role.share, Role.pending]
    rw [hheld, hnil] at hocc
    simp only [map_nil, not_mem_nil, if_false, map_cons,
      mem_singleton] at hocc
    change v.obligations ty = _
    split at hnew <;> split at hocc <;> omega
  · exact h.bound
  · intro s' hs'
    have hss : s' ≠ s := by
      rintro rfl
      exact hs' htoken
    obtain ⟨hd, hcarry⟩ := h.token s' hs'
    refine ⟨hd.stable (List.Subset.refl _) (howner s' hss) (hne s' hss) (hother s' hss), ?_⟩
    exact (forall_update_iff roles fun _ k => k.carry ≠ some s').mpr
      ⟨by rintro ⟨⟩, fun u _ => hcarry u⟩
  · refine h.custody.update fun u hu e' he' => ?_
    cases he'
    exact hcustody u hu
  · exact h.carry.update fun _ _ _ => by rintro ⟨⟩
  · refine (forall_update_iff roles fun _ k => Knows _ _ k).mpr ⟨?_, fun u hu => ?_⟩
    · refine ⟨by rw [hfreed]; simp, fun hin => ?_⟩
      rw [hreleased] at hin
      exact hopen (h.released_freed e hin)
    · have hss : ∀ s', (roles u).slot? = some s' → s' ≠ s := by
        rintro s' hs' rfl
        exact hslot u hu hs'
      refine (h.threads u).stable le_rfl (List.Subset.refl _)
        (by rw [hfreed]; exact subset_append_left _ _)
        (fun e' _ => ⟨by rw [hepochs]; exact id, fun k hk _ => hk, by rw [hreleased]; exact id⟩)
        (fun s' hs' => ⟨howner s' (hss s' hs'), hne s' (hss s' hs'), rfl,
          hother s' (hss s' hs')⟩) ?_
      intro k _ type' hk'
      rcases eq_or_ne k.slot s with hks | hks
      · rw [hks, hnil] at hk'
        cases hk'
      · rw [hne _ hks] at hk'
        exact hk'

theorem undone {type s e : ℕ} {typed : Bool} (hr : roles t = .building type s e typed) :
    SlotsOk (v.setOwner s 0) (update roles t (.releasing type e))
      (es ++ [(t, Event.undone s e)]) := by
  have hknows := h.threads t
  rw [hr] at hknows
  obtain ⟨howner, hheld, -⟩ := hknows
  obtain ⟨-, -, hmax, -⟩ := h.claim s e type (h.held s e type hheld).1
  refine h.vacate hheld rfl rfl rfl nofun (by rw [hr]; rfl)
    (h.token_zero (h.not_deferral howner hmax)) ?_ fun u hu => h.slot_building hr hu
  exact fun u hu => h.custody.other hu (by rw [hr]; rfl)

theorem free {s w type : ℕ} (hr : roles t = .returning s w type false) (howner : v.owner s = w) :
    SlotsOk (v.setOwner s 0) (update roles t (.releasing type (epochOf w)))
      (es ++ [(t, Event.freed s (epochOf w))]) := by
  have hknows := h.threads t
  rw [hr] at hknows
  obtain ⟨⟨k, hk, rfl, rfl⟩, htype⟩ := hknows
  obtain ⟨hpos, hmax, -⟩ := h.issued_epoch hk
  obtain ⟨type', hheld⟩ := h.holders_of_owner howner hpos hmax
  obtain rfl := htype type' hheld
  rw [epochOf_epoch hmax]
  exact h.vacate hheld rfl rfl rfl nofun (by rw [hr]; rfl)
    (h.token_zero (h.not_deferral howner hmax)) (fun u _ => h.custody_issued hk hheld u)
    fun u _ => h.slot_issued hk howner u

theorem complete {s w type : ℕ} (hr : roles t = .returning s w type true) :
    SlotsOk (v.setOwner s 0) (update roles t (.releasing type (epochOf w)))
      (es ++ [(t, Event.completed s (epochOf w))]) := by
  have hcarry : (roles t).carry = some s := by rw [hr]; rfl
  obtain ⟨e, -, hepoch, -, -, hheld, hopen⟩ := h.deferred_word hr
  obtain ⟨e', type', hheld', -, -, k, hk, rfl, rfl⟩ := (h.threads t).deferral hcarry
  obtain ⟨rfl, rfl⟩ : e = k.epoch ∧ type = type' := by simpa [hheld] using hheld'
  rw [hepoch]
  refine h.vacate hheld rfl rfl rfl ?_ (by rw [hr]; rfl) ?_
    (fun u _ => h.custody_issued hk hheld u) fun u hu => h.slot_carried hcarry hu
  · rintro p hp
    cases hp
    exact ⟨rfl, hopen⟩
  · by_contra hne
    exact (h.token _ hne).2 t hcarry

theorem move (hm : Move v (roles t) v' r' ev) :
    SlotsOk v' (update roles t r') (es ++ [(t, ev)]) := by
  generalize hr : roles t = r at hm
  have hknows := h.threads t
  rw [hr] at hknows
  cases hm with
  | aside hev => exact h.still hev (by rw [hr]) (by rw [hr]; simp) (by rw [hr]; simp) hknows
  | leave hloose hev =>
    refine h.still hev ?_ nofun nofun trivial
    rw [hr]
    cases r <;> first | rfl | cases hloose
  | look hcur => exact h.still plain_silent (by rw [hr]; rfl) nofun nofun hcur
  | reserve hcur => exact h.reserve hr hcur
  | draw hs hmax => exact h.draw hr hs hmax
  | waste => exact h.count_epoch (by rw [hr]) nofun rfl trivial
  | lose => exact h.still plain_silent (by rw [hr]; rfl) nofun nofun trivial
  | claim howner => exact h.claimed hr howner
  | giveUp => exact h.unreserve plain_silent (by rw [hr]; rfl)
  | publish => exact h.publish hr
  | issue => exact h.issue hr
  | undo => exact h.undone hr
  | release => exact h.release hr
  | present hk => exact h.still plain_silent (by rw [hr]; rfl) nofun nofun hk
  | mark howner => exact h.mark hr howner
  | readType =>
    refine h.still plain_silent (by rw [hr]; rfl) nofun nofun ⟨⟨_, hknows, rfl, rfl⟩, ?_⟩
    exact fun type' hheld => h.issued_type hknows hheld
  | stamp => exact h.stamp hr
  | take htoken => exact h.take hr htoken
  | readOwner =>
    refine h.still plain_silent (by rw [hr]; rfl) nofun ?_ ⟨hknows, rfl⟩
    rw [hr]
    exact fun _ => id
  | readDeferred =>
    refine h.still plain_silent (by rw [hr]; rfl) nofun ?_ ⟨hknows.1, hknows.2, ?_⟩
    · rw [hr]
      exact fun _ => id
    · intro e type' hheld
      obtain ⟨e', type'', hheld', -, -, k, hk, rfl, rfl⟩ := hknows.1
      obtain ⟨rfl, rfl⟩ : k.epoch = e ∧ type'' = type' := by simpa [hheld'] using hheld
      exact h.issued_type hk hheld
  | restore =>
    refine h.still plain_silent (by rw [hr]; rfl) nofun ?_ hknows.1
    rw [hr]
    exact fun _ => id
  | free howner => exact h.free hr howner
  | complete _ => exact h.complete hr
  | drop => exact h.drop hr

end

end SlotsOk

end ImpossibleOs.Quota.Ledger
