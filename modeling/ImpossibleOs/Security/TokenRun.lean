import ImpossibleOs.Security.Token
import Mathlib.Data.List.Nodup

/-!
What adjustments and duplicates keep of a token.

An entry of a descendant token is an entry of the token it descends from with
another enabled bit, so authority is never gained; a deny-only group keeps
that bit too.
-/

namespace ImpossibleOs.Security.Token

open ByteMem List

/-! ### Attribute words -/

theorem and_eq_zero_or_self {a f : UInt32} {k : ℕ} (hf : f.toNat = 2 ^ k) :
    a &&& f = 0 ∨ a &&& f = f := by
  have h : (a &&& f).toNat = (a.toNat.testBit k).toNat * 2 ^ k := by
    rw [UInt32.toNat_and, hf, Nat.and_two_pow]
  cases hb : a.toNat.testBit k with
  | false =>
    left
    apply UInt32.toNat_inj.mp
    simpa [hb] using h
  | true =>
    right
    apply UInt32.toNat_inj.mp
    simpa [hb, hf] using h

theorem put_eq (a f : UInt32) (on : Bool) :
    put a f on = (a &&& ~~~f) ||| (if on then f else 0) := by
  apply UInt32.toBitVec_inj.mp
  ext i hi
  cases on <;> simp [put]
  cases f.toBitVec[i] <;> simp

@[simp] theorem put_and_compl (a f : UInt32) (on : Bool) : put a f on &&& ~~~f = a &&& ~~~f := by
  apply UInt32.toBitVec_inj.mp
  ext i hi
  cases on <;> simp [put]
  cases f.toBitVec[i] <;> simp

@[simp] theorem put_put (a f : UInt32) (b c : Bool) : put (put a f b) f c = put a f c := by
  simp [put_eq (put a f b), put_eq a f c]

theorem and_compl_or (a f : UInt32) : (a &&& ~~~f) ||| (a &&& f) = a := by
  apply UInt32.toBitVec_inj.mp
  ext i hi
  simp
  cases f.toBitVec[i] <;> simp

theorem put_has {a f : UInt32} {k : ℕ} (hf : f.toNat = 2 ^ k) : put a f (has a f) = a := by
  have hbit : (if has a f then f else 0) = a &&& f := by
    rcases and_eq_zero_or_self (a := a) hf with h | h
    · simp [has, h]
    · by_cases h0 : f = 0
      · simp [has, h0]
      · simp [has, h, h0]
  rw [put_eq, hbit, and_compl_or]

theorem has_congr {a b f g : UInt32} (h : a &&& ~~~f = b &&& ~~~f) (hfg : g &&& ~~~f = g) :
    has a g = has b g := by
  have hmask : ∀ x : UInt32, x &&& g = x &&& ~~~f &&& g := by
    intro x
    rw [UInt32.and_assoc, UInt32.and_comm (~~~f), hfg]
  unfold has
  rw [hmask a, hmask b, h]

@[simp] theorem LuidAndAttributes.setEnabled_luid (p : LuidAndAttributes) (on : Bool) :
    (p.setEnabled on).luid = p.luid := rfl

@[simp] theorem SidAndAttributes.setEnabled_sid (g : SidAndAttributes) (on : Bool) :
    (g.setEnabled on).sid = g.sid := rfl

theorem rtlEqualLuid_iff {a b : Luid} : rtlEqualLuid a b = true ↔ a = b := by
  cases a
  cases b
  simp [rtlEqualLuid]

/-! ### Entries of a descendant token -/

/-- `q` is the privilege `p` with another enabled bit. -/
structure PrivilegeFrom (q p : LuidAndAttributes) : Prop where
  luid : q.luid = p.luid
  others : q.attributes &&& ~~~sePrivilegeEnabled = p.attributes &&& ~~~sePrivilegeEnabled

/-- `h` is the group `g` with another enabled bit, which is not set anew when the group is used
for deny only. -/
structure GroupFrom (h g : SidAndAttributes) : Prop where
  sid : h.sid = g.sid
  others : h.attributes &&& ~~~seGroupEnabled = g.attributes &&& ~~~seGroupEnabled
  denyOnly : has g.attributes seGroupUseForDenyOnly → has h.attributes seGroupEnabled →
    has g.attributes seGroupEnabled

instance : Std.Refl PrivilegeFrom := ⟨fun _ => ⟨rfl, rfl⟩⟩

instance : IsTrans LuidAndAttributes PrivilegeFrom :=
  ⟨fun _ _ _ h h' => ⟨h.luid.trans h'.luid, h.others.trans h'.others⟩⟩

instance : Std.Refl GroupFrom := ⟨fun _ => ⟨rfl, rfl, fun _ h => h⟩⟩

theorem GroupFrom.denyOnly_eq {h g : SidAndAttributes} (hg : GroupFrom h g) :
    has h.attributes seGroupUseForDenyOnly = has g.attributes seGroupUseForDenyOnly :=
  has_congr hg.others (by decide)

instance : IsTrans SidAndAttributes GroupFrom :=
  ⟨fun _ _ _ h h' => ⟨h.sid.trans h'.sid, h.others.trans h'.others, fun hd he =>
    h'.denyOnly hd (h.denyOnly (h'.denyOnly_eq.trans hd) he)⟩⟩

theorem PrivilegeFrom.setEnabled (p : LuidAndAttributes) (on : Bool) :
    PrivilegeFrom (p.setEnabled on) p := ⟨rfl, put_and_compl _ _ _⟩

theorem GroupFrom.setEnabled {g : SidAndAttributes} {on : Bool}
    (h : has g.attributes seGroupUseForDenyOnly → on = false) : GroupFrom (g.setEnabled on) g := by
  refine ⟨rfl, put_and_compl _ _ _, ?_⟩
  intro hd he
  have hoff : has (put g.attributes seGroupEnabled false) seGroupEnabled = false := by
    have hz : ∀ a f : UInt32, a &&& ~~~f &&& f = 0 := by
      intro a f
      rw [UInt32.and_assoc]
      simp [UInt32.and_comm]
    simp [has, put, hz]
  rw [h hd] at he
  exact absurd he (by simp [SidAndAttributes.setEnabled, hoff])

/-- The groups and privileges of `u` come, in order, from those of `t`. -/
structure Derived (u t : AccessToken) : Prop where
  groups : List.SublistForall₂ GroupFrom u.groups t.groups
  privileges : List.SublistForall₂ PrivilegeFrom u.privileges t.privileges

instance : Std.Refl Derived := ⟨fun _ => ⟨refl _, refl _⟩⟩

instance : IsTrans AccessToken Derived :=
  ⟨fun _ _ _ h h' => ⟨IsTrans.trans _ _ _ h.groups h'.groups,
    IsTrans.trans _ _ _ h.privileges h'.privileges⟩⟩

/-! ### One adjustment -/

theorem adjustPrivilege_derived {new old : LuidAndAttributes} {ps ps' : List LuidAndAttributes}
    (h : adjustPrivilege new ps = some (old, ps')) : List.SublistForall₂ PrivilegeFrom ps' ps := by
  induction ps generalizing ps' with
  | nil => simp [adjustPrivilege] at h
  | cons p ps ih =>
    unfold adjustPrivilege at h
    split at h
    · obtain ⟨rfl, rfl⟩ := by simpa using h
      split
      · exact (sublist_cons_self _ _).sublistForall₂
      · exact .cons (PrivilegeFrom.setEnabled _ _) (refl _)
    · obtain ⟨r, hr, heq⟩ := Option.map_eq_some_iff.mp h
      obtain ⟨rfl, rfl⟩ := by simpa using heq
      exact .cons (refl _) (ih hr)

theorem adjustPrivileges_derived (news ps : List LuidAndAttributes)
    (prev : Previous LuidAndAttributes) :
    List.SublistForall₂ PrivilegeFrom (adjustPrivileges ps prev news).1 ps := by
  induction news generalizing ps prev with
  | nil => exact refl _
  | cons new news ih =>
    unfold adjustPrivileges
    cases h : adjustPrivilege new ps with
    | none => exact ih ps prev
    | some r => exact IsTrans.trans _ _ _ (ih r.2 _) (adjustPrivilege_derived h)

theorem ntAdjustPrivilegesToken_derived (t : AccessToken) (disableAll : Bool)
    (newState : Option (List LuidAndAttributes)) (previousState : Bool) (prevCount : Option ℕ)
    (modifiedId : Luid) :
    Derived (ntAdjustPrivilegesToken t disableAll newState previousState prevCount
      modifiedId).token t := by
  unfold ntAdjustPrivilegesToken
  cases disableAll with
  | true =>
    refine ⟨refl _, ?_⟩
    apply sublistForall₂_map_left_iff.mpr
    apply sublistForall₂_iff.mpr
    exact ⟨_, forall₂_same.mpr fun p _ => PrivilegeFrom.setEnabled p false,
      List.Sublist.refl _⟩
  | false =>
    cases newState with
    | none => exact refl _
    | some news => exact ⟨refl _, adjustPrivileges_derived _ _ _⟩

theorem adjustGroup_derived {m : ByteMem} {new old : SidAndAttributes}
    {gs gs' : List SidAndAttributes} (h : adjustGroup m new gs = some (old, gs')) :
    List.SublistForall₂ GroupFrom gs' gs := by
  induction gs generalizing gs' with
  | nil => simp [adjustGroup] at h
  | cons g gs ih =>
    unfold adjustGroup at h
    split at h
    · obtain ⟨r, hr, heq⟩ := Option.map_eq_some_iff.mp h
      obtain ⟨rfl, rfl⟩ := by simpa using heq
      exact .cons (refl _) (ih hr)
    · rename_i hcond
      obtain ⟨rfl, rfl⟩ := by simpa using h
      refine .cons (GroupFrom.setEnabled ?_) (refl _)
      intro hd
      exact (by simpa [hd] using hcond : _ ∧ _).2

theorem adjustGroups_derived (m : ByteMem) (news gs : List SidAndAttributes)
    (prev : Previous SidAndAttributes) :
    List.SublistForall₂ GroupFrom (adjustGroups m gs prev news).1 gs := by
  induction news generalizing gs prev with
  | nil => exact refl _
  | cons new news ih =>
    unfold adjustGroups
    cases h : adjustGroup m new gs with
    | none => exact ih gs prev
    | some r => exact IsTrans.trans _ _ _ (ih r.2 _) (adjustGroup_derived h)

theorem resetGroup_from (g : SidAndAttributes) : GroupFrom (resetGroup g) g := by
  unfold resetGroup
  split
  · exact refl _
  · rename_i hd
    exact GroupFrom.setEnabled fun h => absurd h hd

theorem ntAdjustGroupsToken_derived (m : ByteMem) (t : AccessToken) (resetToDefault : Bool)
    (newState : Option (List SidAndAttributes)) (previousState : Bool) (prevCount : Option ℕ)
    (modifiedId : Luid) :
    Derived (ntAdjustGroupsToken m t resetToDefault newState previousState prevCount
      modifiedId).token t := by
  unfold ntAdjustGroupsToken
  cases resetToDefault with
  | true =>
    refine ⟨?_, refl _⟩
    apply sublistForall₂_map_left_iff.mpr
    apply sublistForall₂_iff.mpr
    exact ⟨_, forall₂_same.mpr fun g _ => resetGroup_from g, List.Sublist.refl _⟩
  | false =>
    cases newState with
    | none => exact refl _
    | some news => exact ⟨adjustGroups_derived _ _ _ _, refl _⟩

theorem ntDuplicateToken_derived (t : AccessToken) (effectiveOnly : Bool) (newType : TokenType)
    (tokenId modifiedId : Luid) :
    Derived (ntDuplicateToken t effectiveOnly newType tokenId modifiedId) t :=
  ⟨((take_sublist _ _).trans filter_sublist).sublistForall₂,
    ((take_sublist _ _).trans filter_sublist).sublistForall₂⟩

/-! ### Sequences of calls -/

/-- Every token `i` of `s'` comes from the token `origin i` of `s`, a token that `s` has from
itself. -/
structure Descends (s' s : Tokens) (origin : ℕ → ℕ) : Prop where
  length_le : s.tokens.length ≤ s'.tokens.length
  from_ : ∀ i u, s'.tokens[i]? = some u → ∃ t, s.tokens[origin i]? = some t ∧ Derived u t
  own : ∀ i < s.tokens.length, origin i = i

theorem Descends.refl (s : Tokens) {origin : ℕ → ℕ}
    (h : ∀ i < s.tokens.length, origin i = i) : Descends s s origin := by
  refine ⟨le_refl _, fun i u hu => ⟨u, ?_, Std.Refl.refl _⟩, h⟩
  rw [h i (List.getElem?_eq_some_iff.mp hu).1, hu]

theorem Descends.trans {s s' s'' : Tokens} {o o' : ℕ → ℕ} (h : Descends s'' s' o')
    (h' : Descends s' s o) : Descends s'' s fun i => o (o' i) := by
  refine ⟨h'.length_le.trans h.length_le, ?_, ?_⟩
  · intro i u hu
    obtain ⟨t, ht, hut⟩ := h.from_ i u hu
    obtain ⟨r, hr, htr⟩ := h'.from_ (o' i) t ht
    exact ⟨r, hr, IsTrans.trans _ _ _ hut htr⟩
  · intro i hi
    rw [h.own i (lt_of_lt_of_le hi h'.length_le), h'.own i hi]

theorem Descends.set {s : Tokens} {i : ℕ} {t u : AccessToken} {n : UInt64}
    (ht : s.tokens[i]? = some t) (h : Derived u t) :
    Descends { tokens := s.tokens.set i u, nextLuid := n } s id := by
  refine ⟨by simp, ?_, fun _ _ => rfl⟩
  intro k v hv
  by_cases hk : i = k
  · subst hk
    obtain ⟨hlt, -⟩ := List.getElem?_eq_some_iff.mp ht
    obtain rfl : u = v := by simpa [getElem?_set_self hlt] using hv
    exact ⟨t, ht, h⟩
  · rw [getElem?_set_ne hk] at hv
    exact ⟨v, hv, Std.Refl.refl _⟩

theorem Descends.concat {s : Tokens} {i : ℕ} {t u : AccessToken} {n : UInt64}
    (ht : s.tokens[i]? = some t) (h : Derived u t) :
    Descends { tokens := s.tokens ++ [u], nextLuid := n } s
      fun k => if k < s.tokens.length then k else i := by
  refine ⟨by simp, ?_, fun k hk => if_pos hk⟩
  intro k v hv
  by_cases hk : k < s.tokens.length
  · rw [getElem?_append_left hk] at hv
    exact ⟨v, by rwa [if_pos hk], Std.Refl.refl _⟩
  · rw [getElem?_append_right (by omega), getElem?_singleton] at hv
    obtain ⟨-, rfl⟩ := by simpa using hv
    exact ⟨t, by rwa [if_neg hk], h⟩

theorem Tokens.exec_descends (s : Tokens) (c : Call) : Descends (s.exec c) s (s.parent c) := by
  cases c with
  | duplicate existing effectiveOnly newType allocated =>
    simp only [Tokens.exec]
    cases ht : s.tokens[existing]? with
    | none => exact Descends.refl s fun i hi => if_pos hi
    | some t =>
      cases allocated with
      | false => exact Descends.refl s fun i hi => if_pos hi
      | true => exact Descends.concat ht (ntDuplicateToken_derived t _ _ _ _)
  | adjustPrivileges token disableAll newState previousState prevCount =>
    simp only [Tokens.exec]
    cases ht : s.tokens[token]? with
    | none => exact Descends.refl s fun _ _ => rfl
    | some t => exact Descends.set ht (ntAdjustPrivilegesToken_derived t _ _ _ _ _)
  | adjustGroups mem token resetToDefault newState previousState prevCount =>
    simp only [Tokens.exec]
    cases ht : s.tokens[token]? with
    | none => exact Descends.refl s fun _ _ => rfl
    | some t => exact Descends.set ht (ntAdjustGroupsToken_derived mem t _ _ _ _ _)

theorem Tokens.run_descends (s : Tokens) (calls : List Call) :
    Descends (s.run calls) s (s.origin calls) := by
  induction calls generalizing s with
  | nil => exact Descends.refl s fun _ _ => rfl
  | cons c calls ih => exact (ih (s.exec c)).trans (s.exec_descends c)

end ImpossibleOs.Security.Token
