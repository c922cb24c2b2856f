import ImpossibleOs.Security.Checked

/-!
The two walks over an ACL that is not trusted, `RtlValidAcl` and `RtlGetAceEx`, and the ACLs
that the builder makes (`acl.c`).

The walks ask the same of an ACE and move on by the same size, so one accepts the list exactly
when the other finds every entry of it. With checked loads both stay within `AclSize`.
-/

namespace ImpossibleOs.Security

open ByteMem List Option

/-- The loop of `RtlGetAceEx` with `i` ACEs still to pass, the next at `p` with `remaining` bytes
of the ACL from there on. -/
def aceEx (m : ByteMem) : ℕ → ℕ → ℕ → Option ℕ
  | 0, p, remaining => if aceBodyValid m p remaining = 0 then none else some p
  | i + 1, p, remaining =>
    if aceBodyValid m p remaining = 0 then none
    else aceEx m i (p + aceBodyValid m p remaining) (remaining - aceBodyValid m p remaining)

def rtlGetAceEx (m : ByteMem) (acl index avail : ℕ) : Option ℕ :=
  if aclHeaderValid m acl avail = 0 then none
  else if aceCount m acl ≤ index then none
  else aceEx m index (acl + aclHeaderSize) (aclHeaderValid m acl avail - aclHeaderSize)

def rtlAddMandatoryAce (m : ByteMem) (acl : ℕ) (flags : UInt8) (mask sid : ℕ) : Option ByteMem :=
  aclAppendAce m acl systemMandatoryLabelAceType flags mask sid

theorem validAces_iff (m : ByteMem) (n p remaining : ℕ) :
    validAces m n p remaining = true ↔ ∀ i < n, (aceEx m i p remaining).isSome := by
  induction n generalizing p remaining with
  | zero => exact iff_of_true rfl (by simp)
  | succ n ih =>
    rw [validAces]
    by_cases hbody : aceBodyValid m p remaining = 0
    · rw [if_pos hbody]
      refine iff_of_false Bool.false_ne_true fun h => ?_
      have hfirst := h 0 (Nat.succ_pos n)
      rw [aceEx, if_pos hbody] at hfirst
      cases hfirst
    · rw [if_neg hbody, ih]
      refine ⟨fun h i hi => ?_, fun h i hi => ?_⟩
      · cases i with
        | zero =>
          rw [aceEx, if_neg hbody]
          rfl
        | succ i =>
          rw [aceEx, if_neg hbody]
          exact h i (Nat.lt_of_succ_lt_succ hi)
      · have hnext := h (i + 1) (Nat.succ_lt_succ hi)
        rwa [aceEx, if_neg hbody] at hnext

theorem rtlValidAcl_iff (m : ByteMem) (acl avail : ℕ) :
    rtlValidAcl m acl avail = true ↔ aclHeaderValid m acl avail ≠ 0 ∧
      ∀ i < aceCount m acl, (rtlGetAceEx m acl i avail).isSome := by
  rw [rtlValidAcl]
  by_cases hheader : aclHeaderValid m acl avail = 0
  · rw [if_pos hheader]
    exact iff_of_false Bool.false_ne_true fun h => h.1 hheader
  · rw [if_neg hheader, validAces_iff, and_iff_right hheader]
    refine forall₂_congr fun i hi => ?_
    rw [rtlGetAceEx, if_neg hheader, if_neg (Nat.not_le.mpr hi)]

/-! ### ACLs that were built -/

variable {l : List Ace} {size : UInt16} {rev : UInt8}

theorem AcesAt.aceEx {m : ByteMem} {p remaining i : ℕ} (h : AcesAt m p l)
    (hfit : acesSize l ≤ remaining) (hv : ∀ a ∈ l, aceIsSidBearing a.type ∧ SidValid a.sid)
    (hi : i < l.length) : ∃ q, Security.aceEx m i p remaining = some q ∧ readAce m q = l[i] ∧
      aceSize m q = l[i].size := by
  induction l generalizing p remaining i with
  | nil => cases hi
  | cons a l ih =>
    obtain ⟨hread, hsize, htail⟩ := h
    rw [acesSize_cons] at hfit
    obtain ⟨htype, hsid⟩ := hv a mem_cons_self
    have hbody : aceBodyValid m p remaining = a.size :=
      aceBodyValid_of_acesAt hread hsize (by omega) htype hsid
    have hne : aceBodyValid m p remaining ≠ 0 := by
      have h4 := four_le_size a
      omega
    cases i with
    | zero =>
      rw [Security.aceEx, if_neg hne]
      exact ⟨p, rfl, hread, hsize⟩
    | succ i =>
      rw [Security.aceEx, if_neg hne, hbody]
      exact ih htail (by omega) (fun b hb => hv b (mem_cons_of_mem a hb))
        (Nat.lt_of_succ_lt_succ hi)

theorem AclHolds.header {m : ByteMem} {acl size avail : ℕ}
    (h : AclHolds m acl size l) (hrev : (m acl).toNat = aclRevision ∨ (m acl).toNat = aclRevisionDs)
    (havail : size ≤ avail) : aclHeaderValid m acl avail = size := by
  have hfits := h.fits
  have hnn := h.notNull
  rw [aclHeaderValid, h.sizeEq, if_neg (by omega), if_neg (by omega), if_neg (by omega)]

theorem AclHolds.congr {m m' : ByteMem} {acl size : ℕ} (h : AclHolds m acl size l)
    (hag : AgreeOn acl (acl + size) m m') : AclHolds m' acl size l := by
  have hfits := h.fits
  simp only [aclHeaderSize] at hfits
  refine ⟨h.notNull, ?_, ?_, ?_, h.fits⟩
  · rw [← h.sizeEq]
    exact readLE_congr (hag.mono (by omega) (by omega))
  · rw [← h.count]
    exact readLE_congr (hag.mono (by omega) (by omega))
  · exact h.acesAt.congr (hag.mono (by omega) (by simp only [aclHeaderSize]; omega))

/-- A call that appends an ACE. -/
inductive AddAce where
  | accessAllowed
  | accessDenied
  | mandatory (flags : UInt8)

def AddAce.call (m : ByteMem) (acl mask sid : ℕ) : AddAce → Option ByteMem
  | .accessAllowed => rtlAddAccessAllowedAce m acl mask sid
  | .accessDenied => rtlAddAccessDeniedAce m acl mask sid
  | .mandatory flags => rtlAddMandatoryAce m acl flags mask sid

/-- What a call means to append. -/
def AddAce.ace (m : ByteMem) (mask sid : ℕ) : AddAce → Ace
  | .accessAllowed => ⟨accessAllowedAceType, 0, mask, bytes m sid (rtlLengthSid m sid)⟩
  | .accessDenied => ⟨accessDeniedAceType, 0, mask, bytes m sid (rtlLengthSid m sid)⟩
  | .mandatory flags =>
    ⟨systemMandatoryLabelAceType, flags, mask, bytes m sid (rtlLengthSid m sid)⟩

/-- The ACL at `acl` was created and the ACEs of the list were appended to it, in this order. The
SID of an ACE does not lie where the ACE goes; between the calls the rest of the memory is
whatever it is. -/
inductive Builds (acl : ℕ) (size : UInt16) (rev : UInt8) : ByteMem → List Ace → Prop
  | create {m m' : ByteMem} (hrun : rtlCreateAcl m acl size.toNat rev.toNat = some m') :
      Builds acl size rev m' []
  | elsewhere {m m' : ByteMem} {l : List Ace} (h : Builds acl size rev m l)
      (hacl : AgreeOn acl (acl + size.toNat) m m') : Builds acl size rev m' l
  | add {m m' : ByteMem} {l : List Ace} (h : Builds acl size rev m l) (add : AddAce)
      (mask : UInt32) {sid : ℕ} (hsid : rtlValidSid m sid = true)
      (hapart : sid + rtlLengthSid m sid ≤ acl + aclHeaderSize + acesSize l ∨
        acl + aclHeaderSize + acesSize l + (aceHeaderSize + 4 + rtlLengthSid m sid) ≤ sid)
      (hrun : add.call m acl mask.toNat sid = some m') :
      Builds acl size rev m' (l ++ [add.ace m mask.toNat sid])

theorem sidValid_of_rtlValidSid {m : ByteMem} {sid : ℕ} (h : rtlValidSid m sid = true) :
    SidValid (bytes m sid (rtlLengthSid m sid)) := by
  simp only [rtlValidSid, Bool.and_eq_true, decide_eq_true_eq] at h
  obtain ⟨⟨hne, hrev⟩, hcount⟩ := h
  have hlen : rtlLengthSid m sid = 8 + 4 * subAuthorityCount m sid := if_neg hne
  refine ⟨?_, m (sid + 1), ?_, hcount⟩
  · rw [getElem?_bytes (by omega)]
    exact congrArg some (UInt8.toNat_inj.mp hrev)
  · exact getElem?_bytes (by omega)

theorem AclHolds.add {m m' : ByteMem} {acl size mask sid : ℕ}
    (h : AclHolds m acl size l) (add : AddAce) (hmask : mask < 2 ^ 32)
    (hsid : rtlValidSid m sid = true)
    (hapart : sid + rtlLengthSid m sid ≤ acl + aclHeaderSize + acesSize l ∨
      acl + aclHeaderSize + acesSize l + (aceHeaderSize + 4 + rtlLengthSid m sid) ≤ sid)
    (hrun : add.call m acl mask sid = some m') :
    AclHolds m' acl size (l ++ [add.ace m mask sid]) ∧ m' acl = m acl := by
  have hne : sid ≠ 0 := by
    rintro rfl
    cases hsid
  have happend : ∀ {type flags}, aclAppendAce m acl type flags mask sid = some m' →
      AclHolds m' acl size (l ++ [⟨type, flags, mask, bytes m sid (rtlLengthSid m sid)⟩]) ∧
        m' acl = m acl := by
    intro type flags hrun
    have hfit : aclHeaderSize + acesSize l + (aceHeaderSize + 4 + rtlLengthSid m sid) ≤ size := by
      rw [h.append_eq type flags hne] at hrun
      by_contra hover
      rw [if_pos (Nat.lt_of_not_le hover)] at hrun
      cases hrun
    obtain ⟨m₁, hrun₁, hholds, hsame⟩ := h.append type flags hne hmask hfit hapart
    obtain rfl : m₁ = m' := some.inj (hrun₁.symm.trans hrun)
    exact ⟨hholds, hsame acl (by omega)⟩
  cases add with
  | accessAllowed => exact happend hrun
  | accessDenied => exact happend hrun
  | mandatory flags => exact happend hrun

theorem rtlCreateAcl_holds {m m' : ByteMem} {acl : ℕ}
    (hrun : rtlCreateAcl m acl size.toNat rev.toNat = some m') :
    AclHolds m' acl size.toNat [] ∧ m' acl = rev := by
  have hlt := size.toNat_lt
  unfold rtlCreateAcl at hrun
  split at hrun
  · cases hrun
  · rename_i hok
    obtain ⟨hacl, hsize⟩ := not_or.mp hok
    obtain rfl := some.inj hrun
    refine ⟨⟨hacl, ?_, ?_, trivial, ?_⟩, ?_⟩
    · unfold aclSize
      rw [readLE_writeLE_of_disjoint (by omega), readLE_writeLE_same]
      omega
    · unfold aceCount
      rw [readLE_writeLE_same]
      rfl
    · rw [acesSize_nil]
      omega
    · rw [writeLE_of_lt (by omega), writeLE_of_lt (by omega)]
      simp [writeLE]

/-- What building keeps. -/
structure Built (m : ByteMem) (acl : ℕ) (size : UInt16) (rev : UInt8) (l : List Ace) : Prop where
  holds : AclHolds m acl size.toNat l
  revision : m acl = rev
  valid : ∀ a ∈ l, aceIsSidBearing a.type ∧ SidValid a.sid

theorem Builds.built {m : ByteMem} {acl : ℕ}
    (h : Builds acl size rev m l) : Built m acl size rev l := by
  induction h with
  | create hrun =>
    obtain ⟨hholds, hrev⟩ := rtlCreateAcl_holds hrun
    exact ⟨hholds, hrev, nofun⟩
  | elsewhere h hacl ih =>
    have hfits := ih.holds.fits
    refine ⟨ih.holds.congr hacl, ?_, ih.valid⟩
    rw [hacl _ le_rfl (by simp only [aclHeaderSize] at hfits; omega), ih.revision]
  | @add m m' l h add mask sid hsid hapart hrun ih =>
    obtain ⟨hholds, hrev⟩ := ih.holds.add add mask.toNat_lt hsid hapart hrun
    refine ⟨hholds, hrev.trans ih.revision, fun a ha => ?_⟩
    rcases mem_append.mp ha with hold | hnew
    · exact ih.valid a hold
    · obtain rfl := mem_singleton.mp hnew
      cases add with
      | accessAllowed => exact ⟨rfl, sidValid_of_rtlValidSid hsid⟩
      | accessDenied => exact ⟨rfl, sidValid_of_rtlValidSid hsid⟩
      | mandatory flags => exact ⟨rfl, sidValid_of_rtlValidSid hsid⟩

theorem Built.getAceEx {m : ByteMem} {acl avail i : ℕ} (h : Built m acl size rev l)
    (hrev : rev.toNat = aclRevision ∨ rev.toNat = aclRevisionDs) (havail : size.toNat ≤ avail)
      (hi : i < l.length) :
    ∃ q, rtlGetAceEx m acl i avail = some q ∧ readAce m q = l[i] ∧ aceSize m q = l[i].size := by
  have hfits := h.holds.fits
  rw [← h.revision] at hrev
  simp only [aclHeaderSize] at hfits
  rw [rtlGetAceEx, h.holds.header hrev havail, if_neg (by omega), h.holds.count,
    if_neg (Nat.not_le.mpr hi)]
  exact h.holds.acesAt.aceEx (by simp only [aclHeaderSize]; omega) h.valid hi

namespace Checked

section Functions

variable (A : Buffers) (m : ByteMem)

/-- The loop of `RtlGetAceEx` with `i` ACEs still to pass. -/
def aceEx (aclSize : UInt32) : ℕ → ℕ → UInt32 → Option (Option ℕ)
  | 0, p, cursor =>
    (aceBodyValid A m p (aclSize - cursor)).map fun size => if size = 0 then none else some p
  | i + 1, p, cursor =>
    (aceBodyValid A m p (aclSize - cursor)).bind fun size =>
      if size = 0 then some none else aceEx aclSize i (p + size.toNat) (cursor + size)

def rtlGetAceEx (acl : ℕ) (index avail : UInt32) : Option (Option ℕ) :=
  (aclHeaderValid A m acl avail).bind fun size =>
    if size = 0 then some none
    else
      (load A m (acl + 4) 2).bind fun count =>
        if count ≤ index.toNat then some none else aceEx A m size index.toNat (acl + 8) 8

end Functions

variable {A : Buffers} {m : ByteMem} {p : ℕ} {avail : UInt32}

theorem aceEx_spec {size cursor : UInt32} (i : ℕ) (hcursor : cursor ≤ size)
    (h : A.Source p (size.toNat - cursor.toNat)) :
    aceEx A m size i p cursor = some (Security.aceEx m i p (size.toNat - cursor.toNat)) := by
  induction i generalizing p cursor with
  | zero =>
    obtain ⟨ace, hrun, hace, -⟩ := aceBodyValid_step (m := m) hcursor h
    rw [aceEx, Security.aceEx, hrun, map_some, ← hace]
    exact congrArg some (ite_congr (propext (eq_zero_iff rfl)) (fun _ => rfl) fun _ => rfl)
  | succ i ih =>
    obtain ⟨ace, hrun, hace, hnext, hrest, hsource⟩ := aceBodyValid_step (m := m) hcursor h
    rw [aceEx, Security.aceEx, hrun, bind_some, ← hace]
    by_cases hzero : ace = 0
    · simp [hzero]
    · rw [if_neg hzero, if_neg (mt (eq_zero_iff rfl).mpr hzero), hrest]
      exact ih hnext hsource

theorem rtlGetAceEx_window (index : UInt32) (h : A.Source p (aclWindow m p avail.toNat)) :
    rtlGetAceEx A m p index avail = some (Security.rtlGetAceEx m p index.toNat avail.toNat) := by
  obtain ⟨size, hsize, hbind⟩ := (aclHeaderValid_spec (m := m) h).bind fun size =>
    if size = 0 then some none
    else
      (load A m (p + 4) 2).bind fun count =>
        if count ≤ index.toNat then some none else aceEx A m size index.toNat (p + 8) 8
  rw [rtlGetAceEx, Security.rtlGetAceEx, hbind, ← hsize]
  by_cases hzero : size = 0
  · simp [hzero]
  obtain ⟨hlarge, hsource⟩ := aclHeaderValid_window hsize hzero h
  rw [if_neg hzero, if_neg (mt (eq_zero_iff rfl).mpr hzero), (hsource.part (by omega)).bind]
  change (if aceCount m p ≤ index.toNat then _ else _) = _
  split_ifs
  · rfl
  · exact aceEx_spec _ hlarge (hsource.part (by change 8 + (size.toNat - 8) ≤ _; omega))

end Checked

/-- The walks agree on any bytes; with loads checked against the bytes of `AclSize` that are
there, and the four bytes that hold it, they still run; and they accept what the builder made,
entry by entry. -/
theorem acl_walks_agree : (∀ (m : ByteMem) (acl avail : ℕ), rtlValidAcl m acl avail = true ↔
      aclHeaderValid m acl avail ≠ 0 ∧ ∀ i < aceCount m acl, (rtlGetAceEx m acl i avail).isSome) ∧
    (∀ (A : Checked.Buffers) (m : ByteMem) (acl : ℕ) (avail : UInt32),
      A.Source acl (Checked.aclWindow m acl avail.toNat) →
        Checked.rtlValidAcl A m acl avail = some (rtlValidAcl m acl avail.toNat) ∧
          ∀ index : UInt32, Checked.rtlGetAceEx A m acl index avail =
            some (rtlGetAceEx m acl index.toNat avail.toNat)) ∧
    (∀ (m : ByteMem) (acl avail : ℕ) (size : UInt16) (rev : UInt8) (l : List Ace),
      rev.toNat = aclRevision ∨ rev.toNat = aclRevisionDs → Builds acl size rev m l →
        size.toNat ≤ avail → rtlValidAcl m acl avail = true ∧ ∀ i (hi : i < l.length),
            ∃ ace, rtlGetAceEx m acl i avail = some ace ∧ readAce m ace = l[i] ∧
              aceSize m ace = l[i].size) := by
  refine ⟨rtlValidAcl_iff, fun A m acl avail h => ⟨Checked.rtlValidAcl_window h,
    fun index => Checked.rtlGetAceEx_window index h⟩,
    fun m acl avail size rev l hrev h havail => ?_⟩
  have hbuilt := h.built
  refine ⟨?_, fun i hi => hbuilt.getAceEx hrev havail hi⟩
  rw [rtlValidAcl_iff, hbuilt.holds.count]
  refine ⟨?_, fun i hi => ?_⟩
  · have hfits := hbuilt.holds.fits
    rw [hbuilt.holds.header (hbuilt.revision ▸ hrev) havail]
    simp only [aclHeaderSize] at hfits
    omega
  · obtain ⟨ace, hrun, -⟩ := hbuilt.getAceEx hrev havail hi
    rw [hrun]
    rfl

/-- A SID of one sub-authority at 300. -/
def someSid : ByteMem := fun x => if x = 300 ∨ x = 301 ∨ x = 311 then 1 else 0

theorem acl_walks_agree_someSid : ∃ m₁ m₂, rtlCreateAcl someSid 100 64 2 = some m₁ ∧
      AddAce.call m₁ 100 7 300 .accessDenied = some m₂ ∧ rtlValidAcl m₂ 100 64 = true := by
  obtain ⟨m₁, hcreate⟩ : ∃ m₁, rtlCreateAcl someSid 100 64 2 = some m₁ := ⟨_, rfl⟩
  obtain ⟨m₂, hadd⟩ : ∃ m₂, AddAce.call m₁ 100 7 300 .accessDenied = some m₂ := by
    obtain rfl := Option.some.inj hcreate
    exact ⟨_, rfl⟩
  refine ⟨m₁, m₂, hcreate, hadd, ?_⟩
  have hbuilds : Builds 100 64 2 m₁ [] := .create hcreate
  have hsid : rtlValidSid m₁ 300 = true := by
    obtain rfl := Option.some.inj hcreate
    rfl
  have hapart : 100 + aclHeaderSize + acesSize [] + (aceHeaderSize + 4 + rtlLengthSid m₁ 300) ≤
      300 := by
    obtain rfl := Option.some.inj hcreate
    decide
  exact ((acl_walks_agree.2.2 m₂ 100 64 64 2 _ (.inl rfl)
    (hbuilds.add .accessDenied 7 hsid (.inr hapart) hadd) le_rfl).1)

/-- An ACL may be created with a revision that no walk accepts; to learn that `AclSize` is 0 a
walk reads beyond it; and a SID of which only the first byte is in the list changes while its
ACE is written. -/
theorem acl_walks_disagree :
    (∃ m, rtlCreateAcl someSid 100 8 1 = some m ∧ rtlValidAcl m 100 8 = false) ∧
    (min (aclSize (fun _ => 0) 100) 8 = 0 ∧
      Checked.rtlValidAcl ⟨100, 0, 0, 0⟩ (fun _ => 0) 100 8 = none) ∧
    (∃ m₁ m₂ m₃, rtlCreateAcl someSid 100 64 2 = some m₁ ∧
      AddAce.call m₁ 100 7 300 .accessDenied = some m₂ ∧ rtlValidSid m₂ 127 = true ∧
        AddAce.call m₂ 100 7 127 .accessDenied = some m₃ ∧ rtlValidAcl m₃ 100 64 = false) := by
  refine ⟨⟨_, rfl, rfl⟩, ⟨by decide, rfl⟩, ⟨_, _, _, rfl, rfl, rfl, rfl, rfl⟩⟩

end ImpossibleOs.Security
