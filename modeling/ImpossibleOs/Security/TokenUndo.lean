import ImpossibleOs.Security.TokenRun

/-!
Undoing an adjustment of privileges.

Writing the enabled bit of the first privilege with a LUID commutes with the
same for another LUID, and writing it again with the bit saved before restores
it. So the saved entries of an adjustment that lists no LUID twice undo it in
the order in which they were saved.
-/

namespace ImpossibleOs.Security.Token

open ByteMem List

/-! ### Well-formed tokens -/

/-- No LUID twice, and no entry that would remove a privilege when it is applied. -/
structure AccessToken.WellFormed (t : AccessToken) : Prop where
  luids : (t.privileges.map LuidAndAttributes.luid).Nodup
  live : ∀ p ∈ t.privileges, has p.attributes sePrivilegeRemoved = false

theorem luids_sublist {qs ps : List LuidAndAttributes}
    (h : List.SublistForall₂ PrivilegeFrom qs ps) :
    (qs.map LuidAndAttributes.luid).Sublist (ps.map LuidAndAttributes.luid) := by
  induction h with
  | nil => exact nil_sublist _
  | cons hp _ ih => simpa [hp.luid] using ih
  | cons_right _ ih => exact ih.cons _

theorem exists_privilegeFrom {qs ps : List LuidAndAttributes}
    (h : List.SublistForall₂ PrivilegeFrom qs ps) {q : LuidAndAttributes} (hq : q ∈ qs) :
    ∃ p ∈ ps, PrivilegeFrom q p := by
  induction h with
  | nil => exact absurd hq not_mem_nil
  | cons hp _ ih =>
    rcases mem_cons.mp hq with rfl | hq
    · exact ⟨_, mem_cons_self, hp⟩
    · obtain ⟨p, hmem, hfrom⟩ := ih hq
      exact ⟨p, mem_cons_of_mem _ hmem, hfrom⟩
  | cons_right _ ih =>
    obtain ⟨p, hmem, hfrom⟩ := ih hq
    exact ⟨p, mem_cons_of_mem _ hmem, hfrom⟩

theorem Derived.wellFormed {u t : AccessToken} (h : Derived u t) (ht : t.WellFormed) :
    u.WellFormed := by
  refine ⟨ht.luids.sublist (luids_sublist h.privileges), ?_⟩
  intro p hp
  obtain ⟨q, hq, hpq⟩ := exists_privilegeFrom h.privileges hp
  rw [has_congr hpq.others (by decide)]
  exact ht.live q hq

theorem Descends.wellFormed {s s' : Tokens} {origin : ℕ → ℕ} (h : Descends s' s origin)
    (hs : ∀ t ∈ s.tokens, t.WellFormed) : ∀ u ∈ s'.tokens, u.WellFormed := by
  intro u hu
  obtain ⟨i, hi⟩ := List.getElem?_of_mem hu
  obtain ⟨t, ht, hd⟩ := h.from_ i u hi
  exact hd.wellFormed (hs t (mem_of_getElem? ht))

instance (t : AccessToken) : Decidable t.WellFormed :=
  decidable_of_iff ((t.privileges.map LuidAndAttributes.luid).Nodup ∧
      ∀ p ∈ t.privileges, has p.attributes sePrivilegeRemoved = false)
    ⟨fun h => ⟨h.1, h.2⟩, fun h => ⟨h.luids, h.live⟩⟩

variable {ps : List LuidAndAttributes}

theorem tokenAddPriv_privileges {l : List UInt32} {attrs : UInt32}
    {tok : AccessToken} (hps : tok.privileges = ps) (h : ps.length + l.length ≤ tokenMaxPrivs) :
    (l.foldl (fun tok n => tokenAddPriv tok (sePrivilegeLuid n) attrs) tok).privileges =
      ps ++ l.map fun n => ⟨sePrivilegeLuid n, attrs⟩ := by
  induction l generalizing tok ps with
  | nil => simpa using hps
  | cons n l ih =>
    rw [length_cons] at h
    have hadd : (tokenAddPriv tok (sePrivilegeLuid n) attrs).privileges =
        ps ++ [⟨sePrivilegeLuid n, attrs⟩] := by
      rw [tokenAddPriv, if_neg (by rw [hps]; omega), hps]
    rw [foldl_cons, ih hadd (by simp; omega)]
    simp

@[simp] theorem tokenAddGroup_privileges (tok : AccessToken) (sid : ℕ) (attrs : UInt32) :
    (tokenAddGroup tok sid attrs).privileges = tok.privileges := by
  unfold tokenAddGroup
  split <;> rfl

theorem seCreateSystemToken_wellFormed (sids : WellKnownSids) (tokenId modifiedId : Luid)
    (quota : ℕ) : (seCreateSystemToken sids tokenId modifiedId quota).WellFormed := by
  have h : (seCreateSystemToken sids tokenId modifiedId quota).privileges =
      [] ++ systemPrivileges.map fun n =>
        ⟨sePrivilegeLuid n, sePrivilegeEnabled ||| sePrivilegeEnabledByDefault⟩ :=
    tokenAddPriv_privileges (by simp) (by decide)
  constructor
  · rw [h]
    decide
  · rw [h]
    decide

section

variable {sids : WellKnownSids} {userSid : ℕ} {admin : Bool}
  {tokenId authenticationId modifiedId : Luid} {quota : ℕ} {t : AccessToken}
  (h : seCreateUserToken sids userSid admin tokenId authenticationId modifiedId quota = some t)
include h

theorem seCreateUserToken_privileges : t.privileges =
    ([] ++ (userPrivileges admin).map fun n =>
      ⟨sePrivilegeLuid n, sePrivilegeEnabled ||| sePrivilegeEnabledByDefault⟩) ++
    (adminDisabledPrivileges admin).map fun n =>
      ⟨sePrivilegeLuid n, sePrivilegeEnabledByDefault⟩ := by
  unfold seCreateUserToken at h
  split at h
  · exact absurd h nofun
  · rw [← Option.some.inj h]
    apply tokenAddPriv_privileges
    · apply tokenAddPriv_privileges
      · cases admin <;> simp
      · cases admin <;> decide
    · cases admin <;> decide

theorem seCreateUserToken_wellFormed : t.WellFormed := by
  constructor
  · rw [seCreateUserToken_privileges h]
    cases admin <;> decide
  · rw [seCreateUserToken_privileges h]
    cases admin <;> decide

/-- In a run on a new user token every token has privileges of the user's profile only, none twice
and none removed; those of a standard user stay among three. -/
theorem userToken_run (n : UInt64) (calls : List Call) :
    ∀ u ∈ (Tokens.run ⟨[t], n⟩ calls).tokens, u.WellFormed ∧
      ∀ p ∈ u.privileges, ∃ k ∈ userPrivileges admin ++ adminDisabledPrivileges admin,
        p.luid = sePrivilegeLuid k := by
  intro u hu
  obtain ⟨i, hi⟩ := getElem?_of_mem hu
  obtain ⟨t', ht', hd⟩ := (Tokens.run_descends ⟨[t], n⟩ calls).from_ i u hi
  obtain rfl : t' = t := by simpa using mem_of_getElem? ht'
  refine ⟨hd.wellFormed (seCreateUserToken_wellFormed h), fun p hp => ?_⟩
  obtain ⟨q, hq, hpq⟩ := exists_privilegeFrom hd.privileges hp
  rw [seCreateUserToken_privileges h, nil_append, mem_append, mem_map, mem_map] at hq
  rw [hpq.luid]
  rcases hq with ⟨k, hk, rfl⟩ | ⟨k, hk, rfl⟩
  · exact ⟨k, mem_append_left _ hk, rfl⟩
  · exact ⟨k, mem_append_right _ hk, rfl⟩

end

def standardUserToken : Option AccessToken :=
  seCreateUserToken ⟨200, 300, 400, 16, 500, 600, 700, 800⟩ 900 false (sePrivilegeLuid 1001)
    (sePrivilegeLuid 1002) (sePrivilegeLuid 1003) 0

/-- The token is duplicated. -/
theorem userToken_run_duplicate : ∃ t, standardUserToken = some t ∧
    ∀ u ∈ (Tokens.run ⟨[t], 1003⟩ [.duplicate 0 true .impersonation true]).tokens,
      u.WellFormed := by
  obtain ⟨t, ht⟩ := Option.isSome_iff_exists.mp (by decide : standardUserToken.isSome = true)
  exact ⟨t, ht, fun u hu => (userToken_run ht 1003 _ u hu).1⟩

/-! ### Writing the enabled bit of a privilege -/

/-- Write the enabled bit of the first privilege with a LUID. -/
def mark (l : Luid) (on : Bool) : List LuidAndAttributes → List LuidAndAttributes
  | [] => []
  | p :: ps => if p.luid = l then p.setEnabled on :: ps else p :: mark l on ps

/-- The entries of a list applied one after another. -/
def replay (ps : List LuidAndAttributes) (news : List LuidAndAttributes) :
    List LuidAndAttributes :=
  news.foldl (fun ps n => mark n.luid (has n.attributes sePrivilegeEnabled) ps) ps

@[simp] theorem setEnabled_setEnabled (p : LuidAndAttributes) (a b : Bool) :
    (p.setEnabled a).setEnabled b = p.setEnabled b := by
  simp [LuidAndAttributes.setEnabled]

theorem setEnabled_has (p : LuidAndAttributes) :
    p.setEnabled (has p.attributes sePrivilegeEnabled) = p := by
  have h := put_has (a := p.attributes) (k := 1) (show sePrivilegeEnabled.toNat = 2 ^ 1 from rfl)
  simp [LuidAndAttributes.setEnabled, h]

@[simp] theorem mark_luids (l : Luid) (on : Bool) (ps : List LuidAndAttributes) :
    (mark l on ps).map LuidAndAttributes.luid = ps.map LuidAndAttributes.luid := by
  induction ps with
  | nil => rfl
  | cons p ps ih =>
    unfold mark
    split <;> simp [ih]

theorem mark_mark (l : Luid) (a b : Bool) (ps : List LuidAndAttributes) :
    mark l b (mark l a ps) = mark l b ps := by
  induction ps with
  | nil => rfl
  | cons p ps ih => by_cases h : p.luid = l <;> simp [mark, h, ih]

theorem mark_comm {l l' : Luid} (hne : l ≠ l') (a b : Bool) (ps : List LuidAndAttributes) :
    mark l a (mark l' b ps) = mark l' b (mark l a ps) := by
  induction ps with
  | nil => rfl
  | cons p ps ih =>
    by_cases h : p.luid = l
    · simp [mark, h, hne]
    · by_cases h' : p.luid = l' <;> simp [mark, h, h', hne.symm, ih]

theorem replay_mark {l : Luid} {on : Bool} {ps news : List LuidAndAttributes}
    (h : l ∉ news.map LuidAndAttributes.luid) :
    replay (mark l on ps) news = mark l on (replay ps news) := by
  induction news generalizing ps with
  | nil => rfl
  | cons n news ih =>
    rw [map_cons, mem_cons, not_or] at h
    unfold replay at ih ⊢
    rw [foldl_cons, foldl_cons, mark_comm (fun heq => h.1 heq.symm), ih h.2]

theorem replay_cons {p : LuidAndAttributes} {ps news : List LuidAndAttributes}
    (h : p.luid ∉ news.map LuidAndAttributes.luid) :
    replay (p :: ps) news = p :: replay ps news := by
  induction news generalizing ps with
  | nil => rfl
  | cons n news ih =>
    rw [map_cons, mem_cons, not_or] at h
    unfold replay at ih ⊢
    rw [foldl_cons, mark, if_neg h.1, ih h.2, foldl_cons]

theorem replay_self {f : LuidAndAttributes → Bool} (h : (ps.map LuidAndAttributes.luid).Nodup) :
    replay (ps.map fun p => p.setEnabled (f p)) ps = ps := by
  induction ps with
  | nil => rfl
  | cons p ps ih =>
    rw [map_cons, nodup_cons] at h
    have hhead : replay ((p :: ps).map fun p => p.setEnabled (f p)) (p :: ps) =
        replay (p :: ps.map fun p => p.setEnabled (f p)) ps := by
      simp [replay, mark, setEnabled_has]
    rw [hhead, replay_cons h.1, ih h.2]

/-! ### Adjusting without removing -/

def Keeps (n : LuidAndAttributes) : Prop := has n.attributes sePrivilegeRemoved = false

theorem adjustPrivilege_eq_none {new : LuidAndAttributes} :
    adjustPrivilege new ps = none ↔ new.luid ∉ ps.map LuidAndAttributes.luid := by
  induction ps with
  | nil => simp [adjustPrivilege]
  | cons p ps ih =>
    unfold adjustPrivilege
    split
    · rename_i h
      simp [rtlEqualLuid_iff.mp h]
    · rename_i h
      rw [rtlEqualLuid_iff] at h
      rw [Option.map_eq_none_iff, ih, map_cons, mem_cons, not_or]
      exact ⟨fun hn => ⟨fun heq => h heq.symm, hn⟩, fun hn => hn.2⟩

theorem adjustPrivilege_keeps {new old : LuidAndAttributes} {ps ps' : List LuidAndAttributes}
    (hkeep : Keeps new) (h : adjustPrivilege new ps = some (old, ps')) :
    old ∈ ps ∧ old.luid = new.luid ∧
      ps' = mark new.luid (has new.attributes sePrivilegeEnabled) ps ∧
      mark new.luid (has old.attributes sePrivilegeEnabled) ps = ps := by
  induction ps generalizing ps' with
  | nil => simp [adjustPrivilege] at h
  | cons p ps ih =>
    unfold adjustPrivilege at h
    split at h
    · rename_i heq
      rw [rtlEqualLuid_iff] at heq
      obtain ⟨rfl, rfl⟩ := by
        simpa [show has new.attributes sePrivilegeRemoved = false from hkeep] using h
      exact ⟨mem_cons_self, heq, by simp [mark, heq], by simp [mark, heq, setEnabled_has]⟩
    · rename_i hne
      rw [rtlEqualLuid_iff] at hne
      obtain ⟨r, hr, heq⟩ := Option.map_eq_some_iff.mp h
      obtain ⟨rfl, rfl⟩ := by simpa using heq
      obtain ⟨hmem, hluid, hmark, hback⟩ := ih hr
      exact ⟨mem_cons_of_mem _ hmem, hluid, by simp [mark, hne, hmark],
        by simp [mark, hne, hback]⟩

theorem adjustPrivileges_eq {news ps : List LuidAndAttributes}
    {prev : Previous LuidAndAttributes} (hkeep : ∀ n ∈ news, Keeps n)
    (hfound : ∀ n ∈ news, n.luid ∈ ps.map LuidAndAttributes.luid) :
    ∃ prev', adjustPrivileges ps prev news = (replay ps news, prev', true) := by
  induction news generalizing ps prev with
  | nil => exact ⟨prev, rfl⟩
  | cons n news ih =>
    have hn := hfound n mem_cons_self
    cases h : adjustPrivilege n ps with
    | none => exact absurd hn (adjustPrivilege_eq_none.mp h)
    | some r =>
      obtain ⟨-, -, hps, -⟩ := adjustPrivilege_keeps (hkeep n mem_cons_self) h
      simp only [adjustPrivileges, h]
      rw [hps]
      apply ih
      · exact fun k hk => hkeep k (mem_cons_of_mem _ hk)
      · intro k hk
        rw [mark_luids]
        exact hfound k (mem_cons_of_mem _ hk)

@[simp] theorem Previous.empty_saved (α : Type) (previousState : Bool) (prevCount : Option ℕ) :
    (Previous.empty α previousState prevCount).saved = [] := rfl

theorem Previous.save_of_lt {α : Type} {r : Previous α} (x : α) (h : r.saved.length < r.room) :
    r.save x = { r with saved := r.saved ++ [x] } := if_pos h

theorem Previous.foldl_save {α : Type} {r : Previous α} {l : List α}
    (h : r.saved.length + l.length ≤ r.room) :
    l.foldl Previous.save r = { r with saved := r.saved ++ l } := by
  induction l generalizing r with
  | nil => simp
  | cons x l ih =>
    rw [length_cons] at h
    rw [foldl_cons, Previous.save_of_lt x (by omega), ih (by simp; omega)]
    simp

theorem adjustPrivileges_undo {news ps ps' : List LuidAndAttributes}
    {prev prev' : Previous LuidAndAttributes} (hkeep : ∀ n ∈ news, Keeps n)
    (hnodup : (news.map LuidAndAttributes.luid).Nodup)
    (hroom : prev.saved.length + news.length ≤ prev.room)
    (h : adjustPrivileges ps prev news = (ps', prev', true)) :
    ps'.map LuidAndAttributes.luid = ps.map LuidAndAttributes.luid ∧
    ∃ olds, prev'.saved = prev.saved ++ olds ∧
      olds.map LuidAndAttributes.luid = news.map LuidAndAttributes.luid ∧
      (∀ o ∈ olds, ∃ p ∈ ps, PrivilegeFrom o p) ∧ replay ps' olds = ps := by
  induction news generalizing ps prev with
  | nil =>
    obtain ⟨rfl, rfl⟩ : ps = ps' ∧ prev = prev' := by simpa [adjustPrivileges] using h
    exact ⟨rfl, [], by simp, rfl, nofun, rfl⟩
  | cons n news ih =>
    rw [map_cons, nodup_cons] at hnodup
    rw [length_cons] at hroom
    cases hn : adjustPrivilege n ps with
    | none => simp [adjustPrivileges, hn] at h
    | some r =>
      obtain ⟨old, ps₁⟩ := r
      have hderived := adjustPrivilege_derived hn
      obtain ⟨hmem, hluid, rfl, hback⟩ :=
        adjustPrivilege_keeps (hkeep n mem_cons_self) hn
      simp only [adjustPrivileges, hn] at h
      rw [Previous.save_of_lt old (by omega)] at h
      obtain ⟨hsame, olds, hsaved, hluids, hfrom, hundo⟩ := ih
        (fun k hk => hkeep k (mem_cons_of_mem _ hk)) hnodup.2 (by simp; omega) h
      refine ⟨by simpa using hsame, old :: olds, by simp [hsaved], by simp [hluid, hluids],
        ?_, ?_⟩
      · intro o ho
        rcases mem_cons.mp ho with rfl | ho
        · exact ⟨o, hmem, Std.Refl.refl o⟩
        · obtain ⟨p, hp, hop⟩ := hfrom o ho
          obtain ⟨q, hq, hpq⟩ := exists_privilegeFrom hderived hp
          exact ⟨q, hq, IsTrans.trans _ _ _ hop hpq⟩
      · -- The first entry commutes with the others, which name other privileges.
        calc replay ps' (old :: olds)
            = replay (mark n.luid (has old.attributes sePrivilegeEnabled) ps') olds := by
              rw [← hluid]
              rfl
          _ = mark n.luid (has old.attributes sePrivilegeEnabled) (replay ps' olds) :=
              replay_mark (by rw [hluids]; exact hnodup.1)
          _ = ps := by rw [hundo, mark_mark, hback]

/-- A call that changes what it can undo: it has room for every old entry, removes nothing and
names no LUID twice. -/
structure Undoable (t : AccessToken) (disableAll : Bool)
    (newState : Option (List LuidAndAttributes)) (previousState : Bool) (prevCount : Option ℕ) :
    Prop where
  room : (if disableAll then t.privileges.length else (newState.getD []).length) ≤
    (Previous.empty LuidAndAttributes previousState prevCount).room
  keeps : disableAll = false → ∀ n ∈ newState.getD [], Keeps n
  nodup : disableAll = false → ((newState.getD []).map LuidAndAttributes.luid).Nodup

theorem ntAdjustPrivilegesToken_undo {t : AccessToken} (ht : t.WellFormed) {disableAll : Bool}
    {newState : Option (List LuidAndAttributes)} {previousState : Bool} {prevCount : Option ℕ}
    {modifiedId : Luid} {r : Adjusted LuidAndAttributes}
    (hr : ntAdjustPrivilegesToken t disableAll newState previousState prevCount modifiedId = r)
    (hok : r.status = .success)
    (hundo : Undoable t disableAll newState previousState prevCount)
    (previousState' : Bool) (prevCount' : Option ℕ) (modifiedId' : Luid) :
    let r' := ntAdjustPrivilegesToken r.token false (some r.saved) previousState' prevCount'
      modifiedId'
    r'.status = .success ∧ r'.token.privileges = t.privileges := by
  -- It is enough that the saved entries come from the token and that replaying them undoes.
  have happly : ∀ olds : List LuidAndAttributes, r.saved = olds →
      r.token.privileges.map LuidAndAttributes.luid = t.privileges.map LuidAndAttributes.luid →
      (∀ o ∈ olds, ∃ p ∈ t.privileges, PrivilegeFrom o p) →
      replay r.token.privileges olds = t.privileges →
      let r' := ntAdjustPrivilegesToken r.token false (some r.saved) previousState' prevCount'
        modifiedId'
      r'.status = .success ∧ r'.token.privileges = t.privileges := by
    intro olds hsaved hluids hfrom hreplay
    have hkeep : ∀ o ∈ olds, Keeps o := by
      intro o ho
      obtain ⟨p, hp, hop⟩ := hfrom o ho
      exact (has_congr hop.others (by decide)).trans (ht.live p hp)
    have hfound : ∀ o ∈ olds, o.luid ∈ r.token.privileges.map LuidAndAttributes.luid := by
      intro o ho
      obtain ⟨p, hp, hop⟩ := hfrom o ho
      rw [hluids, hop.luid]
      exact mem_map_of_mem hp
    obtain ⟨prev', heq⟩ := @adjustPrivileges_eq _ _
      (Previous.empty LuidAndAttributes previousState' prevCount') hkeep hfound
    rw [hsaved]
    simp [ntAdjustPrivilegesToken, heq, hreplay]
  subst hr
  cases disableAll with
  | true =>
    have hroom : t.privileges.length ≤
        (Previous.empty LuidAndAttributes previousState prevCount).room := hundo.room
    refine happly t.privileges ?_ ?_ ?_ ?_
    · simp [ntAdjustPrivilegesToken,
        Previous.foldl_save (r := Previous.empty LuidAndAttributes previousState prevCount)
          (l := t.privileges) (by simpa using hroom)]
    · simp [ntAdjustPrivilegesToken, Function.comp_def]
    · exact fun o ho => ⟨o, ho, Std.Refl.refl o⟩
    · exact replay_self ht.luids
  | false =>
    cases newState with
    | none => exact absurd hok (by simp [ntAdjustPrivilegesToken])
    | some news =>
      have hroom : news.length ≤
          (Previous.empty LuidAndAttributes previousState prevCount).room := hundo.room
      generalize hrun : adjustPrivileges t.privileges
        (Previous.empty LuidAndAttributes previousState prevCount) news = r at *
      obtain ⟨ps', prev', all⟩ := r
      have hall : all = true := by
        by_contra hne
        simp [ntAdjustPrivilegesToken, hrun, hne] at hok
      subst hall
      obtain ⟨hluids, olds, hsaved, -, hfrom, hreplay⟩ := adjustPrivileges_undo
        (hundo.keeps rfl) (hundo.nodup rfl) (by simpa using hroom) hrun
      refine happly olds ?_ ?_ hfrom ?_
      · simp [ntAdjustPrivilegesToken, hrun, hsaved]
      · simp [ntAdjustPrivilegesToken, hrun, hluids]
      · simp [ntAdjustPrivilegesToken, hrun, hreplay]

/-! ### Every token and every sequence of calls -/

/-- Every token after a sequence of calls comes from the token it descends from, with no new
privilege or group and no deny-only group enabled anew; and a successful adjustment of its
privileges that can be undone is undone by the entries it saved. -/
theorem token_monotone (s : Tokens) (calls : List Call) :
    (∀ i u, (s.run calls).tokens[i]? = some u →
      ∃ t, s.tokens[s.origin calls i]? = some t ∧ (i < s.tokens.length → s.origin calls i = i) ∧
        List.SublistForall₂ PrivilegeFrom u.privileges t.privileges ∧
        List.SublistForall₂ GroupFrom u.groups t.groups) ∧
    ((∀ t ∈ s.tokens, t.WellFormed) → ∀ u ∈ (s.run calls).tokens,
      ∀ (disableAll : Bool) (newState : Option (List LuidAndAttributes)) (previousState : Bool)
        (prevCount : Option ℕ) (modifiedId : Luid) (r : Adjusted LuidAndAttributes),
      ntAdjustPrivilegesToken u disableAll newState previousState prevCount modifiedId = r →
      r.status = .success → Undoable u disableAll newState previousState prevCount →
      ∀ (previousState' : Bool) (prevCount' : Option ℕ) (modifiedId' : Luid),
      (ntAdjustPrivilegesToken r.token false (some r.saved) previousState' prevCount'
        modifiedId').token.privileges = u.privileges) := by
  refine ⟨?_, ?_⟩
  · intro i u hu
    have hrun := s.run_descends calls
    obtain ⟨t, ht, hd⟩ := hrun.from_ i u hu
    exact ⟨t, ht, hrun.own i, hd.privileges, hd.groups⟩
  · intro hs u hu disableAll newState previousState prevCount modifiedId r hr hok hundo
      previousState' prevCount' modifiedId'
    have hwf := (s.run_descends calls).wellFormed hs u hu
    exact (ntAdjustPrivilegesToken_undo hwf hr hok hundo previousState' prevCount' modifiedId').2

def worldSidMemory : ByteMem := fun a => if a = 16 then 1 else 0

def someSids : WellKnownSids :=
  { localSystem := 200, builtinAdministrators := 300, builtinUsers := 400, world := 16
    interactive := 500, ilSystem := 600, ilHigh := 700, ilMedium := 800 }

def systemOnly : Tokens :=
  { tokens := [seCreateSystemToken someSids (sePrivilegeLuid 1001) (sePrivilegeLuid 1002) 0]
    nextLuid := 1002 }

def copyAndDisable : List Call :=
  [.duplicate 0 true .impersonation true,
    .adjustPrivileges 1 false (some [⟨sePrivilegeLuid 20, 0⟩]) true (some 1)]

theorem token_monotone_copyAndDisable :
    (∀ t ∈ systemOnly.tokens, t.WellFormed) ∧
    ((systemOnly.run copyAndDisable).tokens[1]?.map fun u =>
      (ntAdjustPrivilegesToken (ntAdjustPrivilegesToken u true none true (some 36)
        (sePrivilegeLuid 0)).token false (some (ntAdjustPrivilegesToken u true none true (some 36)
        (sePrivilegeLuid 0)).saved) false none (sePrivilegeLuid 0)).token.privileges) =
      (systemOnly.run copyAndDisable).tokens[1]?.map AccessToken.privileges := by
  have hwf : ∀ t ∈ systemOnly.tokens, t.WellFormed := by
    intro t ht
    rw [mem_singleton.mp ht]
    exact seCreateSystemToken_wellFormed _ _ _ _
  refine ⟨hwf, ?_⟩
  cases hu : (systemOnly.run copyAndDisable).tokens[1]? with
  | none => rfl
  | some u =>
    apply congrArg some
    refine (token_monotone systemOnly copyAndDisable).2 hwf u (mem_of_getElem? hu) true none
      true (some 36) (sePrivilegeLuid 0) _ rfl rfl ⟨?_, nofun, nofun⟩ false none _
    have hlen : (systemOnly.run copyAndDisable).tokens[1]?.map (fun u => u.privileges.length) =
        some 24 := by decide
    rw [hu] at hlen
    show u.privileges.length ≤ 36
    have h : u.privileges.length = 24 := Option.some.inj hlen
    omega

/-- A mandatory group is disabled by an adjustment of groups, and neither the removal of a
privilege nor a request that names a privilege twice is undone by the entries it saves. -/
theorem token_not_monotone :
    ((systemOnly.tokens[0]?.bind fun t => t.groups[1]?) =
        some ⟨16, seGroupMandatory ||| seGroupEnabledByDefault ||| seGroupEnabled⟩ ∧
      ((systemOnly.run [.adjustGroups worldSidMemory 0 false (some [⟨16, 0⟩]) false
        none]).tokens[0]?.bind fun t => t.groups[1]?) =
          some ⟨16, seGroupMandatory ||| seGroupEnabledByDefault⟩) ∧
    (∀ news ∈ [[LuidAndAttributes.mk (sePrivilegeLuid 20) sePrivilegeRemoved],
        [⟨sePrivilegeLuid 20, 0⟩, ⟨sePrivilegeLuid 20, sePrivilegeEnabled⟩]],
      ∀ t ∈ systemOnly.tokens,
        let r := ntAdjustPrivilegesToken t false (some news) true (some 36) (sePrivilegeLuid 0)
        r.status = .success ∧
        (ntAdjustPrivilegesToken r.token false (some r.saved) false none
          (sePrivilegeLuid 0)).token.privileges ≠ t.privileges) := by
  decide

end ImpossibleOs.Security.Token
