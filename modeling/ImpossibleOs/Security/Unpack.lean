import ImpossibleOs.Security.Checked

/-!
What `RtlSelfRelativeToAbsoluteSD` leaves in the buffer.

The components stand one after the other: each is copied behind what is in use,
and what is copied later does not reach it.
-/

namespace ImpossibleOs.Security

open ByteMem List

variable {m m' : ByteMem} {lengthOf : ByteMem → ℕ → ℕ → ℕ} {lo hi p n : ℕ}

/-- A component that is absent or that stands in `[lo, hi)`. -/
def Component (lengthOf : ByteMem → ℕ → ℕ → ℕ) (m : ByteMem) (lo hi p : ℕ) : Prop :=
  p ≠ 0 → ∃ n, n ≠ 0 ∧ lo ≤ p ∧ p + n ≤ hi ∧ lengthOf m p n = n

/-- The length of a well-formed component is that of the same bytes anywhere else. -/
def Portable (lengthOf : ByteMem → ℕ → ℕ → ℕ) : Prop :=
  ∀ m a n m' a', lengthOf m a n ≠ 0 → a' ≠ 0 → Relocated (lengthOf m a n) m a m' a' →
    lengthOf m' a' (lengthOf m a n) = lengthOf m a n

theorem rtlLengthSidBounded_ne_zero (h : rtlLengthSidBounded m p n ≠ 0) :
    rtlValidSid m p = true ∧ rtlLengthSid m p = rtlLengthSidBounded m p n := by
  unfold rtlLengthSidBounded at h ⊢
  split_ifs at h ⊢ with hnull hsmall hrev hcount hfit
  · exact absurd rfl h
  · exact absurd rfl h
  · exact absurd rfl h
  · exact absurd rfl h
  · exact absurd rfl h
  · refine ⟨?_, by rw [rtlLengthSid, if_neg hnull]⟩
    simp only [rtlValidSid, Bool.and_eq_true, decide_eq_true_eq]
    exact ⟨⟨hnull, not_not.mp hrev⟩, Nat.le_of_not_lt hcount⟩

theorem aclLengthBounded_ne_zero (h : aclLengthBounded m p n ≠ 0) :
    rtlValidAcl m p (aclSize m p) = true ∧ aclSize m p = aclLengthBounded m p n := by
  unfold aclLengthBounded at h ⊢
  split at h
  · rename_i hvalid
    rw [if_pos hvalid]
    obtain ⟨hsize, hlarge, -⟩ := Checked.aclHeader_of_valid hvalid
    have hown : aclHeaderValid m p (aclSize m p) = aclHeaderValid m p n := by
      rw [hsize]
      have hne : aclHeaderValid m p n ≠ 0 := by
        simp only [aclHeaderSize] at hlarge
        omega
      unfold aclHeaderValid at hne ⊢
      split_ifs at hne ⊢ <;> omega
    refine ⟨?_, rfl⟩
    unfold rtlValidAcl at hvalid ⊢
    rwa [hown]
  · exact absurd rfl h

theorem portable_sid : Portable rtlLengthSidBounded := by
  intro m a n m' a' hne ha' hsame
  obtain ⟨hvalid, hlen⟩ := rtlLengthSidBounded_ne_zero hne
  have hrec := recognizes_sidBytes hvalid m' a' (rtlLengthSid m a) ha'
  rw [sidBytes, length_bytes, hlen] at hrec
  exact hrec (Nat.le_refl _) (bytes_eq_iff.mpr hsame)

theorem portable_acl : Portable aclLengthBounded := by
  intro m a n m' a' hne ha' hsame
  obtain ⟨hvalid, hlen⟩ := aclLengthBounded_ne_zero hne
  have ha : a ≠ 0 := by
    rintro rfl
    simp [rtlValidAcl, aclHeaderValid] at hvalid
  have hrec := recognizes_aclBytes hvalid m' a' (aclSize m a) ha'
  rw [aclBytes, length_bytes, aclLength, if_neg ha, hlen] at hrec
  exact hrec (Nat.le_refl _) (bytes_eq_iff.mpr hsame)

theorem Component.agree (hport : Portable lengthOf) (h : Component lengthOf m lo hi p)
    (hagree : AgreeOn lo hi m m') : Component lengthOf m' lo hi p := by
  intro hp
  obtain ⟨n, hn, hlow, hhigh, hlen⟩ := h hp
  refine ⟨n, hn, hlow, hhigh, ?_⟩
  have hsame := hport m p n m' p (by rwa [hlen]) hp (fun i hi => hagree _ (by omega) (by omega))
  rwa [hlen] at hsame

/-- The source and the buffer do not meet, which `memcpy` asks for. -/
def Checked.Buffers.Apart (A : Checked.Buffers) : Prop :=
  A.rel + A.relLen.toNat ≤ A.absBuf ∨ A.absBuf + A.absBufLen.toNat ≤ A.rel

section Take

variable {set : SecurityDescriptor → ℕ → SecurityDescriptor}
  {rel relLen absBuf absBufLen field : ℕ} {st st' : Unpacked}

theorem takeComponent_placed (hport : Portable lengthOf) (hle : ∀ m p n, lengthOf m p n ≤ n)
    (hapart : rel + relLen ≤ absBuf ∨ absBuf + absBufLen ≤ rel) (hbuf : absBuf ≠ 0)
    (hused : st.used ≤ absBufLen)
    (h : takeComponent lengthOf set rel relLen absBuf absBufLen field st = .ok st') :
    st.used ≤ st'.used ∧ st'.used ≤ absBufLen ∧ AgreeOn absBuf (absBuf + st.used) st.mem st'.mem ∧
      (st'.abs = st.abs ∨ ∃ p, st'.abs = set st.abs p ∧
        Component lengthOf st'.mem (absBuf + st.used) (absBuf + st'.used) p) := by
  unfold takeComponent at h
  dsimp only at h
  split at h
  · cases h
    exact ⟨Nat.le_refl _, hused, AgreeOn.refl _ _ _, .inl rfl⟩
  split at h
  · cases h
  rename_i havail
  split at h
  · cases h
  rename_i hlen
  split at h
  · cases h
  rename_i hroom
  cases h
  have hfit := hle st.mem (rel + readLE st.mem (rel + field) 4)
    (srOffsetAvail (readLE st.mem (rel + field) 4) relLen)
  have hsource : readLE st.mem (rel + field) 4 +
      srOffsetAvail (readLE st.mem (rel + field) 4) relLen ≤ relLen := by
    unfold srOffsetAvail at havail ⊢
    split at havail
    · exact absurd rfl havail
    · rw [if_neg ‹_›]
      omega
  generalize hk : lengthOf st.mem (rel + readLE st.mem (rel + field) 4)
    (srOffsetAvail (readLE st.mem (rel + field) 4) relLen) = k at hlen hroom hfit ⊢
  refine ⟨Nat.le_add_right _ _, by dsimp only; omega, agreeOn_copyUp (.inl (Nat.le_refl _)),
    .inr ⟨_, rfl, fun _ => ⟨k, hlen, Nat.le_refl _, Nat.le_of_eq (Nat.add_assoc _ _ _), ?_⟩⟩⟩
  have hsame := hport st.mem _ _
    (copyUp st.mem (absBuf + st.used) (rel + readLE st.mem (rel + field) 4) k)
    (absBuf + st.used) (by rwa [hk]) (by omega) (fun i hi => copyUp_apply (by rwa [hk] at hi)
      (by omega))
  rwa [hk] at hsame

end Take

/-! ### The whole descriptor -/

/-- Where the components of a descriptor stand, each with its length. -/
def extents (m : ByteMem) (sd : SecurityDescriptor) : List (ℕ × ℕ) :=
  [(sd.owner, rtlLengthSid m sd.owner), (sd.group, rtlLengthSid m sd.group),
    (sd.sacl, aclLength m sd.sacl), (sd.dacl, aclLength m sd.dacl)]

/-- Every component that is there is valid and lies in the buffer, and no two of them meet. -/
structure Placed (m : ByteMem) (buf len : ℕ) (sd : SecurityDescriptor) : Prop where
  owner : sd.owner ≠ 0 → rtlValidSid m sd.owner = true
  group : sd.group ≠ 0 → rtlValidSid m sd.group = true
  sacl : sd.sacl ≠ 0 → rtlValidAcl m sd.sacl (aclSize m sd.sacl) = true
  dacl : sd.dacl ≠ 0 → rtlValidAcl m sd.dacl (aclSize m sd.dacl) = true
  inside : ∀ e ∈ extents m sd, e.1 ≠ 0 → buf ≤ e.1 ∧ e.1 + e.2 ≤ buf + len
  disjoint : (extents m sd).Pairwise fun d e =>
    d.1 ≠ 0 → e.1 ≠ 0 → d.1 + d.2 ≤ e.1 ∨ e.1 + e.2 ≤ d.1

theorem Component.sid (h : Component rtlLengthSidBounded m lo hi p) (hp : p ≠ 0) :
    rtlValidSid m p = true ∧ lo ≤ p ∧ p + rtlLengthSid m p ≤ hi := by
  obtain ⟨n, hn, hlow, hhigh, hlen⟩ := h hp
  obtain ⟨hvalid, heq⟩ := rtlLengthSidBounded_ne_zero (m := m) (p := p) (n := n) (by rwa [hlen])
  rw [heq, hlen]
  exact ⟨hvalid, hlow, hhigh⟩

theorem Component.acl (h : Component aclLengthBounded m lo hi p) (hp : p ≠ 0) :
    rtlValidAcl m p (aclSize m p) = true ∧ lo ≤ p ∧ p + aclLength m p ≤ hi := by
  obtain ⟨n, hn, hlow, hhigh, hlen⟩ := h hp
  obtain ⟨hvalid, heq⟩ := aclLengthBounded_ne_zero (m := m) (p := p) (n := n) (by rwa [hlen])
  have hsize : aclLength m p = n := by rw [aclLength, if_neg hp, heq, hlen]
  exact ⟨hvalid, hlow, hsize ▸ hhigh⟩

theorem placed_of_components {buf len u₁ u₂ u₃ u₄ : ℕ} {sd : SecurityDescriptor}
    (howner : Component rtlLengthSidBounded m buf (buf + u₁) sd.owner)
    (hgroup : Component rtlLengthSidBounded m (buf + u₁) (buf + u₂) sd.group)
    (hsacl : Component aclLengthBounded m (buf + u₂) (buf + u₃) sd.sacl)
    (hdacl : Component aclLengthBounded m (buf + u₃) (buf + u₄) sd.dacl)
    (h₁₂ : u₁ ≤ u₂) (h₂₃ : u₂ ≤ u₃) (h₃₄ : u₃ ≤ u₄) (hlen : u₄ ≤ len) :
    Placed m buf len sd where
  owner hp := (howner.sid hp).1
  group hp := (hgroup.sid hp).1
  sacl hp := (hsacl.acl hp).1
  dacl hp := (hdacl.acl hp).1
  inside := by
    simp only [extents, forall_mem_cons, not_mem_nil, false_imp_iff, implies_true,
      and_true]
    refine ⟨fun hp => ?_, fun hp => ?_, fun hp => ?_, fun hp => ?_⟩
    · have h := (howner.sid hp).2
      omega
    · have h := (hgroup.sid hp).2
      omega
    · have h := (hsacl.acl hp).2
      omega
    · have h := (hdacl.acl hp).2
      omega
  disjoint := by
    simp only [extents, pairwise_cons, forall_mem_cons, not_mem_nil,
      false_imp_iff, implies_true, and_true, List.Pairwise.nil]
    refine ⟨⟨fun hp hq => ?_, fun hp hq => ?_, fun hp hq => ?_⟩,
      ⟨fun hp hq => ?_, fun hp hq => ?_⟩, fun hp hq => ?_⟩
    · have h := (howner.sid hp).2
      have h' := (hgroup.sid hq).2
      omega
    · have h := (howner.sid hp).2
      have h' := (hsacl.acl hq).2
      omega
    · have h := (howner.sid hp).2
      have h' := (hdacl.acl hq).2
      omega
    · have h := (hgroup.sid hp).2
      have h' := (hsacl.acl hq).2
      omega
    · have h := (hgroup.sid hp).2
      have h' := (hdacl.acl hq).2
      omega
    · have h := (hsacl.acl hp).2
      have h' := (hdacl.acl hq).2
      omega

theorem bind_eq_ok {ε α β : Type} {x : Except ε α} {f : α → Except ε β} {b : β}
    (h : x >>= f = .ok b) : ∃ a, x = .ok a ∧ f a = .ok b := by
  match x, h with
  | .ok a, h => exact ⟨a, rfl, h⟩

theorem mapError_eq_ok {ε ε' α : Type} {x : Except ε α} {f : ε → ε'} {a : α}
    (h : x.mapError f = .ok a) : x = .ok a := by
  match x, h with
  | .ok b, h =>
    cases h
    rfl

theorem rtlSelfRelativeToAbsoluteSD_placed {rel relLen absBuf absBufLen : ℕ}
    {abs : Option SecurityDescriptor} {st : Unpacked}
    (hapart : rel + relLen ≤ absBuf ∨ absBuf + absBufLen ≤ rel)
    (h : rtlSelfRelativeToAbsoluteSD m rel relLen abs absBuf absBufLen = .ok st) :
    Placed st.mem absBuf absBufLen st.abs := by
  unfold rtlSelfRelativeToAbsoluteSD at h
  match abs, h with
  | some abs, h =>
    dsimp only at h
    split_ifs at h with hnull hshort hrev hself
    have hbuf : absBuf ≠ 0 := (not_or.mp hnull).2
    obtain ⟨st₁, h₁, h⟩ := bind_eq_ok (mapError_eq_ok h)
    obtain ⟨st₂, h₂, h⟩ := bind_eq_ok h
    obtain ⟨st₃, h₃, h₄⟩ := bind_eq_ok h
    obtain ⟨-, hu₁, -, hset₁⟩ := takeComponent_placed portable_sid
      Checked.rtlLengthSidBounded_le hapart hbuf (Nat.zero_le _) h₁
    obtain ⟨h₁₂, hu₂, hagree₂, hset₂⟩ := takeComponent_placed portable_sid
      Checked.rtlLengthSidBounded_le hapart hbuf hu₁ h₂
    obtain ⟨h₂₃, hu₃, hagree₃, hset₃⟩ := takeComponent_placed portable_acl
      Checked.aclLengthBounded_le hapart hbuf hu₂ h₃
    obtain ⟨h₃₄, hu₄, hagree₄, hset₄⟩ := takeComponent_placed portable_acl
      Checked.aclLengthBounded_le hapart hbuf hu₃ h₄
    have howner : Component rtlLengthSidBounded st₁.mem absBuf (absBuf + st₁.used)
        st₁.abs.owner ∧ st₁.abs.group = 0 ∧ st₁.abs.sacl = 0 ∧ st₁.abs.dacl = 0 := by
      rcases hset₁ with heq | ⟨p, heq, hp⟩
      · rw [heq]
        exact ⟨fun hne => absurd rfl hne, rfl, rfl, rfl⟩
      · rw [heq]
        exact ⟨hp, rfl, rfl, rfl⟩
    obtain ⟨howner, hzero₁⟩ := howner
    have hgroup : Component rtlLengthSidBounded st₂.mem (absBuf + st₁.used)
        (absBuf + st₂.used) st₂.abs.group ∧ st₂.abs.owner = st₁.abs.owner ∧
        st₂.abs.sacl = 0 ∧ st₂.abs.dacl = 0 := by
      rcases hset₂ with heq | ⟨p, heq, hp⟩
      · rw [heq]
        exact ⟨fun hne => absurd hzero₁.1 hne, rfl, hzero₁.2⟩
      · rw [heq]
        exact ⟨hp, rfl, hzero₁.2⟩
    obtain ⟨hgroup, hown₂, hzero₂⟩ := hgroup
    have hsacl : Component aclLengthBounded st₃.mem (absBuf + st₂.used)
        (absBuf + st₃.used) st₃.abs.sacl ∧ st₃.abs.owner = st₂.abs.owner ∧
        st₃.abs.group = st₂.abs.group ∧ st₃.abs.dacl = 0 := by
      rcases hset₃ with heq | ⟨p, heq, hp⟩
      · rw [heq]
        exact ⟨fun hne => absurd hzero₂.1 hne, rfl, rfl, hzero₂.2⟩
      · rw [heq]
        exact ⟨hp, rfl, rfl, hzero₂.2⟩
    obtain ⟨hsacl, hown₃, hgrp₃, hzero₃⟩ := hsacl
    have hdacl : Component aclLengthBounded st.mem (absBuf + st₃.used)
        (absBuf + st.used) st.abs.dacl ∧ st.abs.owner = st₃.abs.owner ∧
        st.abs.group = st₃.abs.group ∧ st.abs.sacl = st₃.abs.sacl := by
      rcases hset₄ with heq | ⟨p, heq, hp⟩
      · rw [heq]
        exact ⟨fun hne => absurd hzero₃ hne, rfl, rfl, rfl⟩
      · rw [heq]
        exact ⟨hp, rfl, rfl, rfl⟩
    obtain ⟨hdacl, hown₄, hgrp₄, hsacl₄⟩ := hdacl
    refine @placed_of_components _ _ _ st₁.used st₂.used st₃.used st.used _ ?_ ?_ ?_ hdacl
      h₁₂ h₂₃ h₃₄ hu₄
    · rw [hown₄, hown₃, hown₂]
      exact howner.agree portable_sid (hagree₂.trans
        ((hagree₃.mono (Nat.le_refl _) (by omega)).trans
          (hagree₄.mono (Nat.le_refl _) (by omega))))
    · rw [hgrp₄, hgrp₃]
      exact hgroup.agree portable_sid ((hagree₃.mono (by omega) (Nat.le_refl _)).trans
        (hagree₄.mono (by omega) (by omega)))
    · rw [hsacl₄]
      exact hsacl.agree portable_acl (hagree₄.mono (by omega) (Nat.le_refl _))

/-- Whatever the source holds, no access leaves the two buffers and no more than the buffer is
in use; and when the call succeeds, its components are valid, lie in the buffer and do not meet. -/
theorem rtlSelfRelativeToAbsoluteSD_safe (A : Checked.Buffers) (m : ByteMem)
    (abs : Option SecurityDescriptor) : ∃ r, Checked.rtlSelfRelativeToAbsoluteSD A m abs = some r ∧
      (∀ st, r = .ok st ∨ r = .error (some st) → st.used.toNat ≤ A.absBufLen.toNat) ∧
      (A.Apart → ∀ st, r = .ok st → Placed st.mem A.absBuf A.absBufLen.toNat st.abs) := by
  obtain ⟨r, hr, hplain, hused⟩ := Checked.rtlSelfRelativeToAbsoluteSD_returns A m abs
  refine ⟨r, hr, hused, fun hapart st hst => ?_⟩
  rw [hst] at hplain
  exact rtlSelfRelativeToAbsoluteSD_placed hapart hplain.symm

/-- A descriptor with an owner and nothing else, in 32 bytes. -/
theorem rtlSelfRelativeToAbsoluteSD_safe_owner :
    let m := storeBytes (fun _ => 0) 100
      [1, 0, 0, 128, 20, 0, 0, 0, 0, 0, 0, 0, 0, 0, 0, 0, 0, 0, 0, 0,
        1, 1, 0, 0, 0, 0, 0, 5, 18, 0, 0, 0]
    ∃ st, Checked.rtlSelfRelativeToAbsoluteSD ⟨100, 32, 200, 64⟩ m (some ⟨0, 0, 0, 0, 0, 0⟩) =
        some (.ok st) ∧
      st.abs.owner = 200 ∧ Placed st.mem 200 64 st.abs := by
  intro m
  obtain ⟨r, hr, -, hplaced⟩ := rtlSelfRelativeToAbsoluteSD_safe ⟨100, 32, 200, 64⟩ m
    (some ⟨0, 0, 0, 0, 0, 0⟩)
  have howner : (Checked.rtlSelfRelativeToAbsoluteSD ⟨100, 32, 200, 64⟩ m
      (some ⟨0, 0, 0, 0, 0, 0⟩)).map (fun r => r.toOption.map fun st => st.abs.owner) =
        some (some 200) := by
    decide
  rw [hr] at howner
  match r, hr, hplaced with
  | .ok st, hr, hplaced =>
    exact ⟨st, hr, by simpa [Except.toOption] using howner, hplaced (.inl (by decide)) st rfl⟩

end ImpossibleOs.Security
