import ImpossibleOs.Security.Acl

/-!
Self-relative security descriptors (`acl.c`).

An absolute descriptor points to its SIDs and ACLs; the self-relative form is a
header of 20 bytes with offsets, 0 for a component that is not there, and the
components one after the other. `RtlAbsoluteToSelfRelativeSD` packs and
`RtlSelfRelativeToAbsoluteSD` unpacks, the second from bytes it does not trust.
-/

namespace ImpossibleOs.Security

open ByteMem

def seSelfRelative : ℕ := 0x8000

/-- `SECURITY_DESCRIPTOR_REVISION`, the revision a self-relative header must have. -/
def relativeRevision : ℕ := 1

/-- `sizeof(SECURITY_DESCRIPTOR_RELATIVE)` and where its fields stand. -/
def relHeaderSize : ℕ := 20
def relControl : ℕ := 2
def relOwner : ℕ := 4
def relGroup : ℕ := 8
def relSacl : ℕ := 12
def relDacl : ℕ := 16

/-- `AclSize` of an ACL that is there. -/
def aclLength (m : ByteMem) (acl : ℕ) : ℕ := if acl = 0 then 0 else aclSize m acl

def putComponent (relBuf field src len : ℕ) (st : ByteMem × ℕ) : ByteMem × ℕ :=
  if src ≠ 0 ∧ len ≠ 0 then
    (copyUp (writeLE st.1 (relBuf + field) 4 st.2) (relBuf + st.2) src len, st.2 + len)
  else st

/-- Bytes that the self-relative form of `abs` takes. -/
def relativeSize (m : ByteMem) (abs : SecurityDescriptor) : ℕ :=
  relHeaderSize + rtlLengthSid m abs.owner + rtlLengthSid m abs.group + aclLength m abs.sacl +
    aclLength m abs.dacl

/-- The memory, `*rel_len` and the status afterwards. No sum here reaches 2^32: a SID has at
most 1028 bytes and an ACL at most 65535. -/
def rtlAbsoluteToSelfRelativeSD (m : ByteMem) (abs : Option SecurityDescriptor) (relBuf : ℕ)
    (relLen : Option ℕ) : ByteMem × Option ℕ × ℤ :=
  match abs, relLen with
  | some abs, some len =>
    let needed := relativeSize m abs
    if relBuf = 0 ∨ len < needed then (m, some needed, -1)
    else
      let m₁ := zeroRange m relBuf needed
      let m₁ := writeLE m₁ relBuf 1 abs.revision
      let m₁ := writeLE m₁ (relBuf + relControl) 2 (abs.control ||| seSelfRelative)
      let st := putComponent relBuf relOwner abs.owner (rtlLengthSid m abs.owner)
        (m₁, relHeaderSize)
      let st := putComponent relBuf relGroup abs.group (rtlLengthSid m abs.group) st
      let st := putComponent relBuf relSacl abs.sacl (aclLength m abs.sacl) st
      let st := putComponent relBuf relDacl abs.dacl (aclLength m abs.dacl) st
      (st.1, some needed, 0)
  | _, _ => (m, relLen, -1)

/-- Bytes from a present offset to the end of the source, 0 when it is out of range. -/
def srOffsetAvail (off relLen : ℕ) : ℕ :=
  if off < relHeaderSize ∨ relLen ≤ off then 0 else relLen - off

/-- The memory, the descriptor `*abs` and the bytes of `abs_buf` in use. -/
structure Unpacked where
  mem : ByteMem
  abs : SecurityDescriptor
  used : ℕ

/-- Length of the ACL at `src` when it is valid within `avail` bytes, else 0. -/
def aclLengthBounded (m : ByteMem) (src avail : ℕ) : ℕ :=
  if rtlValidAcl m src avail then aclSize m src else 0

/-- One component: its header field gives the source, `lengthOf` the bounded length and 0 when
it is malformed, `set` the pointer of the descriptor. An error is the return of -1. -/
def takeComponent (lengthOf : ByteMem → ℕ → ℕ → ℕ)
    (set : SecurityDescriptor → ℕ → SecurityDescriptor) (rel relLen absBuf absBufLen field : ℕ)
    (st : Unpacked) : Except Unpacked Unpacked :=
  let off := readLE st.mem (rel + field) 4
  if off = 0 then .ok st
  else
    let avail := srOffsetAvail off relLen
    if avail = 0 then .error st
    else
      let len := lengthOf st.mem (rel + off) avail
      if len = 0 then .error st
      else if absBufLen - st.used < len then .error st
      else .ok ⟨copyUp st.mem (absBuf + st.used) (rel + off) len,
        set st.abs (absBuf + st.used), st.used + len⟩

/-- `abs` is what `*abs` held before; a NULL pointer is `none`. -/
def rtlSelfRelativeToAbsoluteSD (m : ByteMem) (rel relLen : ℕ) (abs : Option SecurityDescriptor)
    (absBuf absBufLen : ℕ) : Except (Option Unpacked) Unpacked :=
  match abs with
  | none => .error none
  | some abs =>
    if rel = 0 ∨ absBuf = 0 then .error (some ⟨m, abs, 0⟩)
    else if relLen < relHeaderSize then .error (some ⟨m, abs, 0⟩)
    else if (m rel).toNat ≠ relativeRevision then .error (some ⟨m, abs, 0⟩)
    else if ¬ hasFlag (readLE m (rel + relControl) 2) seSelfRelative then
      .error (some ⟨m, abs, 0⟩)
    else
      let abs := { rtlCreateSecurityDescriptor (m rel).toNat with
        control := putFlag (readLE m (rel + relControl) 2) seSelfRelative false }
      (do
        let st ← takeComponent rtlLengthSidBounded (fun sd p => { sd with owner := p })
          rel relLen absBuf absBufLen relOwner ⟨m, abs, 0⟩
        let st ← takeComponent rtlLengthSidBounded (fun sd p => { sd with group := p })
          rel relLen absBuf absBufLen relGroup st
        let st ← takeComponent aclLengthBounded (fun sd p => { sd with sacl := p })
          rel relLen absBuf absBufLen relSacl st
        takeComponent aclLengthBounded (fun sd p => { sd with dacl := p })
          rel relLen absBuf absBufLen relDacl st).mapError some

/-! ### The same bytes at another place -/

/-- The `n` bytes at `a'` in `m'` are those at `a` in `m`. -/
def Relocated (n : ℕ) (m : ByteMem) (a : ℕ) (m' : ByteMem) (a' : ℕ) : Prop :=
  ∀ i, i < n → m' (a' + i) = m (a + i)

section Relocation

variable {m m' : ByteMem} {a a' n : ℕ}

theorem bytes_eq_iff : bytes m' a' n = bytes m a n ↔ Relocated n m a m' a' := by
  rw [bytes, bytes, List.map_inj_left]
  exact ⟨fun h i hi => h i (List.mem_range.mpr hi), fun h i hi => h i (List.mem_range.mp hi)⟩

theorem Relocated.shift {k l : ℕ} (h : Relocated n m a m' a') (hk : k + l ≤ n) :
    Relocated l m (a + k) m' (a' + k) := by
  intro i hi
  rw [add_assoc, add_assoc]
  exact h (k + i) (by omega)

section

variable (h : Relocated n m a m' a')
include h

theorem Relocated.readLE_eq : readLE m' a' n = readLE m a n :=
  readLE_shift h

theorem Relocated.readLE_at (k l : ℕ) (hk : k + l ≤ n) :
    readLE m' (a' + k) l = readLE m (a + k) l :=
  (h.shift hk).readLE_eq

theorem Relocated.rtlLengthSidBounded_eq (ha : a ≠ 0) (ha' : a' ≠ 0) :
    rtlLengthSidBounded m' a' n = rtlLengthSidBounded m a n := by
  unfold rtlLengthSidBounded
  rw [if_neg ha, if_neg ha']
  by_cases hn : n < 8
  · rw [if_pos hn, if_pos hn]
  · rw [if_neg hn, if_neg hn, subAuthorityCount, subAuthorityCount, h 1 (by omega)]
    have h0 : m' a' = m a := h 0 (by omega)
    rw [h0]

theorem Relocated.aceBodyValid_eq : aceBodyValid m' a' n = aceBodyValid m a n := by
  unfold aceBodyValid
  by_cases hn : n < aceHeaderSize
  · rw [if_pos hn, if_pos hn]
  · have hfour : 4 ≤ n := Nat.le_of_not_lt hn
    have hsize : aceSize m' a' = aceSize m a := h.readLE_at 2 2 hfour
    have htype : aceType m' a' = aceType m a := h 0 (by omega)
    rw [if_neg hn, if_neg hn, hsize, htype]
    by_cases hfit : aceSize m a < aceHeaderSize ∨ n < aceSize m a
    · rw [if_pos hfit, if_pos hfit]
    · have hsid : Relocated (aceSize m a - (aceHeaderSize + 4)) m (aceSid a) m' (aceSid a') := by
        simp only [aceHeaderSize, not_or, not_lt] at hfit ⊢
        rw [aceSid, aceSid, add_assoc, add_assoc]
        by_cases hroom : 8 ≤ aceSize m a
        · exact h.shift (by simp [aceHeaderSize]; omega)
        · intro i hi
          omega
      have hne : ∀ p, aceSid p ≠ 0 := fun p => by simp [aceSid]
      rw [hsid.rtlLengthSidBounded_eq (hne a) (hne a')]

end

theorem aceBodyValid_le (m : ByteMem) (p remaining : ℕ) :
    aceBodyValid m p remaining ≤ remaining := by
  unfold aceBodyValid
  split_ifs <;> omega

theorem Relocated.validAces_eq (k : ℕ) (h : Relocated n m a m' a') :
    validAces m' k a' n = validAces m k a n := by
  induction k generalizing a a' n with
  | zero => rfl
  | succ k ih =>
    rw [validAces, validAces, h.aceBodyValid_eq]
    have hle := aceBodyValid_le m a n
    have hrest : Relocated (n - aceBodyValid m a n) m (a + aceBodyValid m a n) m'
        (a' + aceBodyValid m a n) := h.shift (by omega)
    rw [ih hrest]

/-! ### Components as bytes -/

def sidBytes (m : ByteMem) (sid : ℕ) : List UInt8 := bytes m sid (rtlLengthSid m sid)

def aclBytes (m : ByteMem) (acl : ℕ) : List UInt8 := bytes m acl (aclLength m acl)

/-- Wherever these bytes stand with enough room, `lengthOf` finds their length. -/
def Recognizes (lengthOf : ByteMem → ℕ → ℕ → ℕ) (content : List UInt8) : Prop :=
  ∀ m a avail, a ≠ 0 → content.length ≤ avail → bytes m a content.length = content →
    lengthOf m a avail = content.length

theorem recognizes_sidBytes {sid : ℕ} (h : rtlValidSid m sid) :
    Recognizes rtlLengthSidBounded (sidBytes m sid) := by
  intro m' a' avail ha' havail hsame
  simp only [rtlValidSid, Bool.and_eq_true, decide_eq_true_eq] at h
  obtain ⟨⟨hne, hrev⟩, hcount⟩ := h
  have hlen : (sidBytes m sid).length = 8 + 4 * subAuthorityCount m sid := by
    rw [sidBytes, length_bytes, rtlLengthSid, if_neg hne]
  rw [hlen] at havail hsame ⊢
  have hrel : Relocated (8 + 4 * subAuthorityCount m sid) m sid m' a' := by
    rw [← bytes_eq_iff, hsame, sidBytes, rtlLengthSid, if_neg hne]
  have hcount' : subAuthorityCount m' a' = subAuthorityCount m sid := by
    rw [subAuthorityCount, subAuthorityCount, hrel 1 (by omega)]
  have hrev' : m' a' = m sid := hrel 0 (by omega)
  rw [rtlLengthSidBounded, if_neg ha', if_neg (by omega), hrev', if_neg (by simpa using hrev),
    hcount', if_neg (by omega), if_neg (by omega)]

theorem aclHeaderValid_ne_zero {acl avail : ℕ} (h : aclHeaderValid m acl avail ≠ 0) :
    aclHeaderValid m acl avail = aclSize m acl ∧
      ¬ ((m acl).toNat ≠ aclRevision ∧ (m acl).toNat ≠ aclRevisionDs) ∧
        aclHeaderSize ≤ aclSize m acl := by
  unfold aclHeaderValid at h ⊢
  split_ifs at h ⊢ with hsmall hrev hfit
  · exact absurd rfl h
  · exact absurd rfl h
  · exact absurd rfl h
  · exact ⟨rfl, hrev, Nat.le_of_not_lt (not_or.mp hfit).1⟩

theorem recognizes_aclBytes {acl : ℕ} (h : rtlValidAcl m acl (aclSize m acl)) :
    Recognizes aclLengthBounded (aclBytes m acl) := by
  intro m' a' avail ha' havail hsame
  have hne : acl ≠ 0 := by
    rintro rfl
    simp [rtlValidAcl, aclHeaderValid] at h
  have hlen : (aclBytes m acl).length = aclSize m acl := by
    rw [aclBytes, length_bytes, aclLength, if_neg hne]
  rw [hlen] at havail hsame ⊢
  have hrel : Relocated (aclSize m acl) m acl m' a' := by
    rw [← bytes_eq_iff, hsame, aclBytes, aclLength, if_neg hne]
  rw [rtlValidAcl] at h
  split at h
  · cases h
  rename_i hzero
  obtain ⟨hval, hrev, hfit⟩ := aclHeaderValid_ne_zero hzero
  rw [hval] at h
  simp only [aclHeaderSize] at hfit
  have hsize' : aclSize m' a' = aclSize m acl := hrel.readLE_at 2 2 (by omega)
  have hcount' : aceCount m' a' = aceCount m acl := hrel.readLE_at 4 2 (by omega)
  have hrev' : m' a' = m acl := hrel 0 (by omega)
  have haces : validAces m' (aceCount m acl) (a' + aclHeaderSize) (aclSize m acl - aclHeaderSize) =
      validAces m (aceCount m acl) (acl + aclHeaderSize) (aclSize m acl - aclHeaderSize) := by
    apply Relocated.validAces_eq
    exact hrel.shift (by simp only [aclHeaderSize]; omega)
  have hheader : aclHeaderValid m' a' avail = aclSize m acl := by
    have hroom : ¬ (a' = 0 ∨ avail < aclHeaderSize) := by simp only [aclHeaderSize]; omega
    have hsizes : ¬ (aclSize m acl < aclHeaderSize ∨ avail < aclSize m acl) := by
      simp only [aclHeaderSize]
      omega
    rw [aclHeaderValid, hrev', hsize', if_neg hroom, if_neg hrev, if_neg hsizes]
  have hvalid' : rtlValidAcl m' a' avail = true := by
    rw [rtlValidAcl, hheader, if_neg (by omega), hcount', haces]
    exact h
  rw [aclLengthBounded, if_pos hvalid', hsize']

end Relocation

end ImpossibleOs.Security
