import ImpossibleOs.Lib.Loop
import ImpossibleOs.Security.Model

/-!
The list of ACEs an ACL holds.

`aces` reads an ACL off memory as a list. `AcesAt` is the same list as a shape of
memory, one record after another with no gap, which is how `acl_append_ace` builds
it; `AclBuilt` adds the header.
-/

namespace ImpossibleOs.Security

open ByteMem Function List

/-- One ACE, with the bytes of its SID. -/
structure Ace where
  type : UInt8
  flags : UInt8
  mask : ℕ
  sid : List UInt8
  deriving DecidableEq, Repr

def Ace.size (a : Ace) : ℕ := aceHeaderSize + 4 + a.sid.length

def acesSize (l : List Ace) : ℕ := (l.map Ace.size).sum

@[simp] theorem acesSize_nil : acesSize [] = 0 := rfl

@[simp] theorem acesSize_cons (a : Ace) (l : List Ace) :
    acesSize (a :: l) = a.size + acesSize l := by
  simp [acesSize]

@[simp] theorem acesSize_append (l l' : List Ace) :
    acesSize (l ++ l') = acesSize l + acesSize l' := by
  simp [acesSize]

def readAce (m : ByteMem) (p : ℕ) : Ace :=
  ⟨aceType m p, aceFlags m p, aceMask m p, bytes m (aceSid p) (rtlLengthSid m (aceSid p))⟩

def aces (m : ByteMem) (acl : ℕ) : List Ace :=
  (List.range (aceCount m acl)).map fun i => readAce m (aceWalk m acl i)

@[simp] theorem length_aces (m : ByteMem) (acl : ℕ) : (aces m acl).length = aceCount m acl := by
  simp [aces]

/-- What `RtlValidSid` asks of the bytes of a SID. -/
def SidValid (s : List UInt8) : Prop :=
  s[0]? = some 1 ∧ ∃ c : UInt8, s[1]? = some c ∧ c.toNat ≤ sidMaxSubAuthorities

theorem rtlLengthSid_aceSid (m : ByteMem) (p : ℕ) :
    rtlLengthSid m (aceSid p) = 8 + 4 * subAuthorityCount m (aceSid p) := by
  simp [rtlLengthSid, aceSid]

theorem sub32_of_le {a b : ℕ} (hb : b ≤ a) (ha : a < 2 ^ 32) : sub32 a b = a - b := by
  unfold sub32
  omega

/-! ### Reading ACEs -/

theorem readAce_size (m : ByteMem) (p : ℕ) :
    (readAce m p).size = aceHeaderSize + 4 + (8 + 4 * subAuthorityCount m (aceSid p)) := by
  simp [readAce, Ace.size, rtlLengthSid_aceSid]

variable {m : ByteMem} {l : List Ace} {acl size : ℕ} {p : ℕ} {mask sid : ℕ} {a : Ace}

theorem readAce_congr {m m' : ByteMem}
    (h : AgreeOn p (p + (readAce m p).size) m m') : readAce m' p = readAce m p := by
  rw [readAce_size] at h
  simp only [aceHeaderSize] at h
  have hcount : m' (aceSid p + 1) = m (aceSid p + 1) :=
    h _ (by simp only [aceSid, aceHeaderSize]; omega) (by simp only [aceSid, aceHeaderSize]; omega)
  have hlen : rtlLengthSid m' (aceSid p) = rtlLengthSid m (aceSid p) := by
    rw [rtlLengthSid_aceSid, rtlLengthSid_aceSid, subAuthorityCount, hcount, subAuthorityCount]
  unfold readAce
  congr 1
  · exact h p le_rfl (by omega)
  · exact h (p + 1) (by omega) (by omega)
  · exact readLE_congr (h.mono (by simp only [aceHeaderSize]; omega)
      (by simp only [aceHeaderSize]; omega))
  · rw [hlen]
    apply bytes_congr
    rw [rtlLengthSid_aceSid]
    exact h.mono (by simp only [aceSid, aceHeaderSize]; omega)
      (by simp only [aceSid, aceHeaderSize]; omega)

theorem aceSize_congr {m m' : ByteMem} (h : AgreeOn p (p + 4) m m') : aceSize m' p = aceSize m p :=
  readLE_congr (h.mono (by omega) (by omega))

theorem four_le_size (a : Ace) : 4 ≤ a.size := by
  simp only [Ace.size, aceHeaderSize]
  omega

/-- Records one after another from `p` on, each exactly as long as its ACE. -/
def AcesAt (m : ByteMem) : ℕ → List Ace → Prop
  | _, [] => True
  | p, a :: l => readAce m p = a ∧ aceSize m p = a.size ∧ AcesAt m (p + a.size) l

theorem acesAt_append {l l' : List Ace} :
    AcesAt m p (l ++ l') ↔ AcesAt m p l ∧ AcesAt m (p + acesSize l) l' := by
  induction l generalizing p with
  | nil => simp [AcesAt]
  | cons a l ih =>
    simp only [cons_append, AcesAt, acesSize_cons, ih, and_assoc]
    rw [add_assoc]

theorem AcesAt.congr {m m' : ByteMem} (h : AcesAt m p l)
    (hag : AgreeOn p (p + acesSize l) m m') : AcesAt m' p l := by
  induction l generalizing p with
  | nil => trivial
  | cons a l ih =>
    obtain ⟨hread, hsize, htail⟩ := h
    rw [acesSize_cons] at hag
    have h4 := four_le_size a
    refine ⟨?_, ?_, ih htail (hag.mono (by omega) (by omega))⟩
    · rw [readAce_congr, hread]
      exact hag.mono le_rfl (by rw [hread]; omega)
    · rw [aceSize_congr (hag.mono le_rfl (by omega)), hsize]

theorem AcesAt.walk (h : AcesAt m p l) :
    (fun q => q + aceSize m q)^[l.length] p = p + acesSize l ∧
      (List.range l.length).map (fun i => readAce m ((fun q => q + aceSize m q)^[i] p)) = l := by
  induction l generalizing p with
  | nil => simp
  | cons a l ih =>
    obtain ⟨hread, hsize, htail⟩ := h
    obtain ⟨hend, hlist⟩ := ih htail
    refine ⟨?_, ?_⟩
    · rw [length_cons, iterate_succ_apply, hsize, hend, acesSize_cons,
        add_assoc]
    · rw [length_cons, range_succ_eq_map, map_cons, map_map]
      congr 1
      conv_rhs => rw [← hlist]
      apply map_congr_left
      intro i _
      simp only [comp_apply, Nat.succ_eq_add_one, iterate_succ_apply, hsize]

/-! ### Building an ACL -/

/-- An ACL of `size` bytes at `acl` that holds exactly `l`, packed. -/
structure AclBuilt (m : ByteMem) (acl size : ℕ) (l : List Ace) : Prop where
  notNull : acl ≠ 0
  revision : (m acl).toNat = aclRevision
  sizeEq : aclSize m acl = size
  count : aceCount m acl = l.length
  acesAt : AcesAt m (acl + aclHeaderSize) l
  fits : aclHeaderSize + acesSize l ≤ size

theorem AclBuilt.size_lt (h : AclBuilt m acl size l) : size < 2 ^ 16 := by
  have hlt := readLE_lt m (acl + 2) 2
  rw [← h.sizeEq]
  simpa [aclSize] using hlt

theorem AclBuilt.aces_eq (h : AclBuilt m acl size l) : aces m acl = l := by
  unfold aces
  rw [h.count]
  exact h.acesAt.walk.2

theorem AclBuilt.aceWalk_count
    (h : AclBuilt m acl size l) : aceWalk m acl l.length = acl + aclHeaderSize + acesSize l :=
  h.acesAt.walk.1

theorem four_mul_length_le (l : List Ace) : 4 * l.length ≤ acesSize l := by
  induction l with
  | nil => simp
  | cons a l ih =>
    have := four_le_size a
    simp only [length_cons, acesSize_cons]
    omega

theorem AclBuilt.congr {m m' : ByteMem} (h : AclBuilt m acl size l)
    (hag : AgreeOn acl (acl + size) m m') : AclBuilt m' acl size l := by
  have hfits := h.fits
  simp only [aclHeaderSize] at hfits
  refine ⟨h.notNull, ?_, ?_, ?_, ?_, h.fits⟩
  · rw [hag acl le_rfl (by omega), h.revision]
  · rw [← h.sizeEq]
    exact readLE_congr (hag.mono (by omega) (by omega))
  · rw [← h.count]
    exact readLE_congr (hag.mono (by omega) (by omega))
  · exact h.acesAt.congr (hag.mono (by omega) (by simp only [aclHeaderSize]; omega))

theorem rtlCreateAcl_spec (m : ByteMem) (hacl : acl ≠ 0)
    (hsize : aclHeaderSize ≤ size) (hlt : size < 2 ^ 16) :
    ∃ m', rtlCreateAcl m acl size aclRevision = some m' ∧ AclBuilt m' acl size [] ∧
      SameOutside acl (acl + size) m m' := by
  simp only [aclHeaderSize] at hsize
  have hne : ¬ (acl = 0 ∨ size < aclHeaderSize) := by
    simp only [aclHeaderSize]
    omega
  refine ⟨_, if_neg hne, ⟨hacl, ?_, ?_, ?_, trivial, ?_⟩, ?_⟩
  · rw [writeLE_of_lt (by omega), writeLE_of_lt (by omega)]
    simp [writeLE, aclRevision]
  · unfold aclSize
    rw [readLE_writeLE_of_disjoint (by omega), readLE_writeLE_same]
    omega
  · unfold aceCount
    rw [readLE_writeLE_same]
    rfl
  · simpa [aclHeaderSize] using hsize
  · have hzero : SameOutside acl (acl + size) m (zeroRange m acl size) :=
      sameOutside_zeroRange le_rfl le_rfl
    exact ((hzero.writeLE le_rfl (by omega)).writeLE (by omega) (by omega)).writeLE
      (by omega) (by omega)

/-- The record `acl_append_ace` writes at `p`. -/
def writeAce (m : ByteMem) (p : ℕ) (type flags : UInt8) (mask sid len : ℕ) : ByteMem :=
  copyUp (writeLE (writeLE (writeLE (writeLE m p 1 type.toNat) (p + 1) 1 flags.toNat) (p + 2) 2
    (aceHeaderSize + 4 + len)) (p + aceHeaderSize) 4 mask) (p + aceHeaderSize + 4) sid len

theorem sameOutside_writeAce {type flags : UInt8} {mask sid len : ℕ} :
    SameOutside p (p + (aceHeaderSize + 4 + len)) m (writeAce m p type flags mask sid len) := by
  simp only [writeAce, aceHeaderSize]
  have htype : SameOutside p (p + (4 + 4 + len)) m (writeLE m p 1 type.toNat) :=
    sameOutside_writeLE le_rfl (by omega)
  refine (((htype.writeLE ?_ ?_).writeLE ?_ ?_).writeLE ?_ ?_).trans (sameOutside_copyUp ?_ ?_)
  all_goals omega

theorem writeLE_byte (m : ByteMem) (p : ℕ) (b : UInt8) : writeLE m p 1 b.toNat p = b := by
  simp [writeLE]

theorem readAce_writeAce (type flags : UInt8)
    (hsid : sid ≠ 0) (hmask : mask < 2 ^ 32)
    (hd : sid + rtlLengthSid m sid ≤ p ∨
      p + (aceHeaderSize + 4 + rtlLengthSid m sid) ≤ sid) :
    let m' := writeAce m p type flags mask sid (rtlLengthSid m sid)
    readAce m' p = ⟨type, flags, mask, bytes m sid (rtlLengthSid m sid)⟩ ∧
      aceSize m' p = aceHeaderSize + 4 + rtlLengthSid m sid := by
  intro m'
  have hlen : rtlLengthSid m sid = 8 + 4 * subAuthorityCount m sid := by
    simp [rtlLengthSid, hsid]
  have hcount : subAuthorityCount m sid < 256 := (m (sid + 1)).toNat_lt
  simp only [aceHeaderSize] at hd ⊢
  -- the copied SID is the source's, byte for byte
  have hhead : AgreeOn p (p + 8) (writeLE (writeLE (writeLE (writeLE m p 1 type.toNat) (p + 1) 1
      flags.toNat) (p + 2) 2 (4 + 4 + rtlLengthSid m sid)) (p + 4) 4 mask) m' :=
    agreeOn_copyUp (by simp only [aceHeaderSize]; omega)
  have hsrc : SameOutside p (p + 8) m (writeLE (writeLE (writeLE (writeLE m p 1 type.toNat) (p + 1)
      1 flags.toNat) (p + 2) 2 (4 + 4 + rtlLengthSid m sid)) (p + 4) 4 mask) := by
    have htype : SameOutside p (p + 8) m (writeLE m p 1 type.toNat) :=
      sameOutside_writeLE le_rfl (by omega)
    refine ((htype.writeLE ?_ ?_).writeLE ?_ ?_).writeLE ?_ ?_
    all_goals omega
  have hcopy : bytes m' (aceSid p) (rtlLengthSid m sid) = bytes m sid (rtlLengthSid m sid) := by
    rw [← bytes_congr (hsrc.agreeOn (b := sid) (by omega))]
    exact bytes_copyUp (by simp only [aceHeaderSize]; omega)
  have hsub : subAuthorityCount m' (aceSid p) = subAuthorityCount m sid := by
    have h1 : m' (aceSid p + 1) = m (sid + 1) := by
      have h2 := congrArg (fun l => l[1]?) hcopy
      simpa [getElem?_bytes (show 1 < rtlLengthSid m sid by omega)] using h2
    rw [subAuthorityCount, h1, subAuthorityCount]
  refine ⟨?_, ?_⟩
  · unfold readAce
    congr 1
    · rw [aceType, hhead p le_rfl (by omega), writeLE_of_lt (by omega), writeLE_of_lt (by omega),
        writeLE_of_lt (by omega), writeLE_byte]
    · rw [aceFlags, hhead _ (by omega) (by omega), writeLE_of_lt (by omega),
        writeLE_of_lt (by omega), writeLE_byte]
    · rw [aceMask, aceHeaderSize, readLE_congr (hhead.mono (by omega) (by omega)),
        readLE_writeLE_same]
      omega
    · rw [rtlLengthSid_aceSid, hsub, ← hlen, hcopy]
  · rw [aceSize, readLE_congr (hhead.mono (by omega) (by omega)),
      readLE_writeLE_of_disjoint (by omega), readLE_writeLE_same]
    omega

theorem acesAt_singleton : AcesAt m p [a] ↔ readAce m p = a ∧ aceSize m p = a.size := by
  simp [AcesAt]

/-- An ACL of `size` bytes at `acl` that holds exactly `l`, whatever its revision. -/
structure AclHolds (m : ByteMem) (acl size : ℕ) (l : List Ace) : Prop where
  notNull : acl ≠ 0
  sizeEq : aclSize m acl = size
  count : aceCount m acl = l.length
  acesAt : AcesAt m (acl + aclHeaderSize) l
  fits : aclHeaderSize + acesSize l ≤ size

theorem AclBuilt.holds (h : AclBuilt m acl size l) : AclHolds m acl size l :=
  ⟨h.notNull, h.sizeEq, h.count, h.acesAt, h.fits⟩

theorem AclHolds.size_lt (h : AclHolds m acl size l) : size < 2 ^ 16 := by
  have hlt := readLE_lt m (acl + 2) 2
  rw [← h.sizeEq]
  simpa [aclSize] using hlt

theorem AclHolds.append_eq (h : AclHolds m acl size l) (type flags : UInt8) (hsid : sid ≠ 0) :
    aclAppendAce m acl type flags mask sid =
      if size < aclHeaderSize + acesSize l + (aceHeaderSize + 4 + rtlLengthSid m sid) then none
      else
        let mw := writeAce m (acl + aclHeaderSize + acesSize l) type flags mask sid
          (rtlLengthSid m sid)
        some (writeLE mw (acl + 4) 2 (aceCount mw acl + 1)) := by
  have hlt := h.size_lt
  have hfits := h.fits
  have hwalk : aceWalk m acl (aceCount m acl) = acl + aclHeaderSize + acesSize l := by
    rw [h.count]
    exact h.acesAt.walk.1
  simp only [aclHeaderSize, aceHeaderSize] at hfits hwalk ⊢
  have hused : (acl + 8 + acesSize l - acl) % 2 ^ 32 = 8 + acesSize l := by omega
  have havail : sub32 (aclSize m acl) ((acl + 8 + acesSize l - acl) % 2 ^ 32) =
      size - (8 + acesSize l) := by
    rw [h.sizeEq, hused]
    exact sub32_of_le hfits (by omega)
  simp only [aclAppendAce, h.notNull, hsid, or_self, if_false, hwalk, havail, aceHeaderSize]
  refine ite_congr (propext ?_) (fun _ => rfl) fun _ => rfl
  omega

theorem AclHolds.append (type flags : UInt8) (h : AclHolds m acl size l) (hsid : sid ≠ 0)
    (hmask : mask < 2 ^ 32)
    (hfit : aclHeaderSize + acesSize l + (aceHeaderSize + 4 + rtlLengthSid m sid) ≤ size)
    (hd : sid + rtlLengthSid m sid ≤ acl + aclHeaderSize + acesSize l ∨
      acl + aclHeaderSize + acesSize l + (aceHeaderSize + 4 + rtlLengthSid m sid) ≤ sid) :
    ∃ m', aclAppendAce m acl type flags mask sid = some m' ∧
      AclHolds m' acl size (l ++ [⟨type, flags, mask, bytes m sid (rtlLengthSid m sid)⟩]) ∧
      SameOutside (acl + 4) (acl + size) m m' := by
  have hlt := h.size_lt
  rw [h.append_eq type flags hsid, if_neg (Nat.not_lt.mpr hfit)]
  set len := rtlLengthSid m sid
  set p := acl + aclHeaderSize + acesSize l with hp
  simp only [aclHeaderSize, aceHeaderSize] at hfit hp
  set mw := writeAce m p type flags mask sid len
  have hsame : SameOutside p (p + (aceHeaderSize + 4 + len)) m mw := sameOutside_writeAce
  simp only [aceHeaderSize] at hsame
  have hcount : aceCount mw acl = l.length := by
    rw [← h.count]
    exact readLE_congr (hsame.agreeOn (by omega))
  have hroom := four_mul_length_le l
  refine ⟨writeLE mw (acl + 4) 2 (aceCount mw acl + 1), rfl, ⟨h.notNull, ?_, ?_, ?_, ?_⟩, ?_⟩
  · unfold aclSize
    rw [readLE_writeLE_of_disjoint (by omega), ← h.sizeEq]
    exact readLE_congr (hsame.agreeOn (by omega))
  · unfold aceCount
    rw [readLE_writeLE_same, ← aceCount, hcount, length_append, length_singleton]
    omega
  · -- the count is before the first ACE, the new record after the last one
    have hbefore : AgreeOn (acl + 8) p m (writeLE mw (acl + 4) 2 (aceCount mw acl + 1)) :=
      (hsame.agreeOn (by omega)).trans (agreeOn_writeLE (by omega))
    have hafter : AgreeOn p (p + (4 + 4 + len)) mw (writeLE mw (acl + 4) 2 (aceCount mw acl + 1)) :=
      agreeOn_writeLE (by omega)
    obtain ⟨hread, hsize⟩ := readAce_writeAce (m := m) (p := p) type flags hsid hmask hd
    rw [acesAt_append]
    refine ⟨h.acesAt.congr (hbefore.mono le_rfl (by rw [hp]; rfl)), ?_⟩
    apply AcesAt.congr (m := mw)
    · rw [acesAt_singleton]
      refine ⟨hread, ?_⟩
      rw [Ace.size, length_bytes]
      exact hsize
    · simp only [acesSize_cons, acesSize_nil, Ace.size, length_bytes, aceHeaderSize]
      exact hafter
  · simp only [acesSize_append, acesSize_cons, acesSize_nil, Ace.size, length_bytes,
      aclHeaderSize, aceHeaderSize]
    omega
  · exact (hsame.mono (by omega) (by omega)).writeLE (by omega) (by omega)

theorem aclAppendAce_spec (type flags : UInt8) (h : AclBuilt m acl size l) (hsid : sid ≠ 0)
    (hmask : mask < 2 ^ 32)
    (hfit : aclHeaderSize + acesSize l + (aceHeaderSize + 4 + rtlLengthSid m sid) ≤ size)
    (hd : sid + rtlLengthSid m sid ≤ acl ∨ acl + size ≤ sid) :
    ∃ m', aclAppendAce m acl type flags mask sid = some m' ∧
      AclBuilt m' acl size (l ++ [⟨type, flags, mask, bytes m sid (rtlLengthSid m sid)⟩]) ∧
      SameOutside acl (acl + size) m m' := by
  obtain ⟨m', hrun, hholds, hsame⟩ := h.holds.append type flags hsid hmask hfit (by omega)
  refine ⟨m', hrun, ⟨h.notNull, ?_, hholds.sizeEq, hholds.count, hholds.acesAt, hholds.fits⟩,
    hsame.mono (by omega) le_rfl⟩
  rw [hsame acl (by omega), h.revision]

theorem AclBuilt.stampFlags (h : AclBuilt m acl size (l ++ [a])) (cf : UInt8) :
    ∃ p, rtlGetAce m acl (sub32 (aceCount m acl) 1) = some p ∧
      AclBuilt (writeLE m (p + 1) 1 cf.toNat) acl size (l ++ [{ a with flags := cf }]) ∧
      SameOutside acl (acl + size) m (writeLE m (p + 1) 1 cf.toNat) := by
  have hlt := h.size_lt
  have hfits := h.fits
  have hroom := four_mul_length_le (l ++ [a])
  have h4 := four_le_size a
  obtain ⟨hinit, hlast⟩ := acesAt_append.mp h.acesAt
  obtain ⟨hread, hsize⟩ := acesAt_singleton.mp hlast
  simp only [aclHeaderSize, acesSize_append, acesSize_cons, acesSize_nil, length_append,
    length_singleton] at hfits hroom hinit hread hsize
  set p := acl + 8 + acesSize l
  have hidx : sub32 (aceCount m acl) 1 = l.length := by
    rw [h.count, length_append, length_singleton, sub32_of_le (by omega) (by omega)]
    omega
  have hout : SameOutside acl (acl + size) m (writeLE m (p + 1) 1 cf.toNat) :=
    sameOutside_writeLE (by omega) (by omega)
  refine ⟨p, ?_, ⟨h.notNull, ?_, ?_, ?_, ?_, ?_⟩, hout⟩
  · rw [hidx, rtlGetAce, if_neg]
    · exact congrArg some hinit.walk.1
    · rw [h.count]
      simp [h.notNull]
  · rw [writeLE_of_lt (by omega), h.revision]
  · unfold aclSize
    rw [readLE_writeLE_of_disjoint (by omega)]
    exact h.sizeEq
  · unfold aceCount
    rw [readLE_writeLE_of_disjoint (by omega), ← aceCount, h.count]
    simp
  · rw [acesAt_append]
    refine ⟨hinit.congr (agreeOn_writeLE (by omega)), ?_⟩
    rw [acesAt_singleton, ← hread, show acl + aclHeaderSize + acesSize l = p from rfl]
    have hsid : AgreeOn (p + 8) (p + 8 + rtlLengthSid m (aceSid p)) m
        (writeLE m (p + 1) 1 cf.toNat) := agreeOn_writeLE (by omega)
    have hsub : rtlLengthSid (writeLE m (p + 1) 1 cf.toNat) (aceSid p) =
        rtlLengthSid m (aceSid p) := by
      rw [rtlLengthSid_aceSid, rtlLengthSid_aceSid, subAuthorityCount, subAuthorityCount,
        writeLE_of_lt]
      simp only [aceSid, aceHeaderSize]
      omega
    refine ⟨?_, ?_⟩
    · simp only [readAce, Ace.mk.injEq]
      refine ⟨writeLE_of_lt (by omega), writeLE_byte _ _ _, ?_, ?_⟩
      · exact readLE_writeLE_of_disjoint (by simp only [aceHeaderSize]; omega)
      · rw [hsub]
        exact bytes_congr hsid
    · rw [aceSize, readLE_writeLE_of_disjoint (by omega), ← aceSize]
      exact hsize.trans (by rw [← hread]; rfl)
  · simpa [Ace.size, aclHeaderSize] using h.fits

/-! ### Validity -/

theorem aceBodyValid_of_acesAt {p remaining : ℕ}
    (hread : readAce m p = a) (hsize : aceSize m p = a.size) (hfit : a.size ≤ remaining)
    (htype : aceIsSidBearing a.type) (hsid : SidValid a.sid) :
    aceBodyValid m p remaining = a.size := by
  obtain ⟨hrev, c, hc, hcle⟩ := hsid
  have hlen : a.sid.length = 8 + 4 * subAuthorityCount m (aceSid p) := by
    rw [← hread, readAce, length_bytes, rtlLengthSid_aceSid]
  have hrev' : m (aceSid p) = 1 := by
    rw [← hread, readAce, getElem?_bytes (by rw [rtlLengthSid_aceSid]; omega)] at hrev
    simpa using hrev
  have hcount : m (aceSid p + 1) = c := by
    rw [← hread, readAce, getElem?_bytes (by rw [rtlLengthSid_aceSid]; omega)] at hc
    simpa using hc
  have hbound : rtlLengthSidBounded m (aceSid p) (a.size - (aceHeaderSize + 4)) = a.sid.length := by
    have hsub : subAuthorityCount m (aceSid p) = c.toNat := by rw [subAuthorityCount, hcount]
    have hrest : a.size - (aceHeaderSize + 4) = a.sid.length := by simp [Ace.size]
    have hnn : aceSid p ≠ 0 := by simp [aceSid]
    rw [hsub] at hlen
    simp only [rtlLengthSidBounded, hrest, hrev', hsub, sidMaxSubAuthorities] at hcle ⊢
    rw [if_neg hnn, if_neg (by omega), if_neg (by decide), if_neg (by omega), if_neg (by omega)]
    exact hlen.symm
  have htype' : aceIsSidBearing (aceType m p) := by
    rw [← hread] at htype
    exact htype
  have h8 : aceHeaderSize + 4 ≤ a.size := by simp [Ace.size]
  have hsidLen : a.sid.length ≠ 0 := by omega
  have hhs : aceHeaderSize = 4 := rfl
  rw [aceBodyValid, hsize, hbound, if_neg (by omega), if_neg (by omega), if_neg (by simp [htype']),
    if_neg (by omega), if_neg hsidLen]

theorem validAces_of_acesAt {p remaining : ℕ} (h : AcesAt m p l) (hfit : acesSize l ≤ remaining)
    (hv : ∀ a ∈ l, aceIsSidBearing a.type ∧ SidValid a.sid) :
    validAces m l.length p remaining = true := by
  induction l generalizing p remaining with
  | nil => rfl
  | cons a l ih =>
    obtain ⟨hread, hsize, htail⟩ := h
    rw [acesSize_cons] at hfit
    obtain ⟨htype, hsid⟩ := hv a mem_cons_self
    have hbody : aceBodyValid m p remaining = a.size :=
      aceBodyValid_of_acesAt hread hsize (by omega) htype hsid
    have h4 := four_le_size a
    rw [length_cons, validAces, hbody, if_neg (by omega)]
    exact ih htail (by omega) fun b hb => hv b (mem_cons_of_mem a hb)

theorem AclBuilt.valid (h : AclBuilt m acl size l)
    (hv : ∀ a ∈ l, aceIsSidBearing a.type ∧ SidValid a.sid) : rtlValidAcl m acl size = true := by
  have hfits := h.fits
  have hnn := h.notNull
  have hhs : aclHeaderSize = 8 := rfl
  have hhdr : aclHeaderValid m acl size = size := by
    rw [aclHeaderValid, h.sizeEq, h.revision, if_neg (by omega), if_neg (by simp),
      if_neg (by omega)]
  rw [rtlValidAcl, hhdr, if_neg (by omega), h.count]
  exact validAces_of_acesAt h.acesAt (by simp only [aclHeaderSize]; omega) hv

theorem aceBodyValid_ne_zero {p remaining : ℕ} (h : aceBodyValid m p remaining ≠ 0) :
    aceBodyValid m p remaining = aceSize m p ∧ aceSize m p ≤ remaining ∧
      (readAce m p).size ≤ aceSize m p ∧ aceIsSidBearing (readAce m p).type ∧
      SidValid (readAce m p).sid := by
  unfold aceBodyValid at h ⊢
  split at h <;> try contradiction
  split at h <;> try contradiction
  split at h <;> try contradiction
  split at h <;> try contradiction
  split at h <;> try contradiction
  rename_i h4 hrem htype h8 hsid
  rw [if_neg h4, if_neg hrem, if_neg htype, if_neg h8, if_neg hsid]
  -- the bounded length is not zero, so none of its checks failed
  unfold rtlLengthSidBounded at hsid
  split at hsid <;> try contradiction
  split at hsid <;> try contradiction
  split at hsid <;> try contradiction
  split at hsid <;> try contradiction
  split at hsid <;> try contradiction
  rename_i hnn havail hrev hcount hlen
  have hrev' : m (aceSid p) = 1 := by
    have hrev'' : (m (aceSid p)).toNat = 1 := not_not.mp hrev
    exact UInt8.toNat_inj.mp hrev''
  refine ⟨rfl, by omega, ?_, not_not.mp htype, ?_, m (aceSid p + 1), ?_, ?_⟩
  · rw [readAce_size]
    omega
  · rw [readAce, getElem?_bytes (by rw [rtlLengthSid_aceSid]; omega), add_zero, hrev']
  · rw [readAce, getElem?_bytes (by rw [rtlLengthSid_aceSid]; omega)]
  · exact not_lt.mp hcount

theorem validAces_spec {n p remaining : ℕ} (h : validAces m n p remaining = true) :
    ∀ i < n, p ≤ (fun q => q + aceSize m q)^[i] p ∧
      (fun q => q + aceSize m q)^[i] p + aceSize m ((fun q => q + aceSize m q)^[i] p) ≤
        p + remaining ∧
      aceBodyValid m ((fun q => q + aceSize m q)^[i] p)
        (p + remaining - (fun q => q + aceSize m q)^[i] p) ≠ 0 := by
  induction n generalizing p remaining with
  | zero => intro i hi; omega
  | succ n ih =>
    intro i hi
    rw [validAces] at h
    split at h
    · contradiction
    rename_i hbody
    obtain ⟨heq, hle, -⟩ := aceBodyValid_ne_zero hbody
    cases i with
    | zero =>
      refine ⟨le_rfl, ?_, ?_⟩
      · simp only [iterate_zero, id_eq]
        omega
      · simpa using hbody
    | succ i =>
      rw [heq] at h
      obtain ⟨h1, h2, h3⟩ := ih h i (by omega)
      simp only [iterate_succ_apply]
      have hend : p + aceSize m p + (remaining - aceSize m p) = p + remaining := by omega
      rw [hend] at h2 h3
      exact ⟨by omega, h2, h3⟩

/-- An ACL that passes `dacl_shape_ok`: every ACE lies inside it, with a well-formed SID. -/
structure AclShape (m : ByteMem) (acl : ℕ) : Prop where
  notNull : acl ≠ 0
  header : aclHeaderSize ≤ aclSize m acl
  inside : ∀ i < aceCount m acl, acl + aclHeaderSize ≤ aceWalk m acl i ∧
    aceWalk m acl i + aceSize m (aceWalk m acl i) ≤ acl + aclSize m acl
  body : ∀ i < aceCount m acl,
    (readAce m (aceWalk m acl i)).size ≤ aceSize m (aceWalk m acl i) ∧
      aceIsSidBearing (readAce m (aceWalk m acl i)).type ∧
      SidValid (readAce m (aceWalk m acl i)).sid

theorem aclShape_of_rtlValidAcl {acl avail : ℕ} (h : rtlValidAcl m acl avail) : AclShape m acl := by
  unfold rtlValidAcl at h
  split at h
  · contradiction
  rename_i hhdr
  have hsize : aclHeaderValid m acl avail = aclSize m acl ∧ aclHeaderSize ≤ aclSize m acl ∧
      acl ≠ 0 := by
    unfold aclHeaderValid at hhdr ⊢
    split at hhdr <;> try contradiction
    split at hhdr <;> try contradiction
    split at hhdr <;> try contradiction
    rename_i h1 h2 h3
    rw [if_neg h1, if_neg h2, if_neg h3]
    exact ⟨rfl, by omega, by omega⟩
  obtain ⟨heq, hle, hnn⟩ := hsize
  rw [heq] at h
  have hspec := validAces_spec h
  have hend : acl + aclHeaderSize + (aclSize m acl - aclHeaderSize) = acl + aclSize m acl := by
    omega
  refine ⟨hnn, hle, ?_, ?_⟩
  · intro i hi
    obtain ⟨h1, h2, -⟩ := hspec i hi
    rw [hend] at h2
    exact ⟨h1, h2⟩
  · intro i hi
    obtain ⟨-, -, h3⟩ := hspec i hi
    exact (aceBodyValid_ne_zero h3).2.2

theorem AclShape.aceSize_congr {m m' : ByteMem} {acl i : ℕ} (h : AclShape m acl)
    (hag : AgreeOn acl (acl + aclSize m acl) m m') (hi : i < aceCount m acl) :
    aceSize m' (aceWalk m acl i) = aceSize m (aceWalk m acl i) := by
  obtain ⟨hlo, hhi⟩ := h.inside i hi
  have h4 := four_le_size (readAce m (aceWalk m acl i))
  have hbody := (h.body i hi).1
  exact Security.aceSize_congr (hag.mono (by omega) (by omega))

theorem AclShape.congr {m m' : ByteMem} {acl : ℕ} (h : AclShape m acl)
    (hag : AgreeOn acl (acl + aclSize m acl) m m') : aceCount m' acl = aceCount m acl ∧
      ∀ i < aceCount m acl, aceWalk m' acl i = aceWalk m acl i ∧
        readAce m' (aceWalk m acl i) = readAce m (aceWalk m acl i) := by
  have hhs : aclHeaderSize = 8 := rfl
  have hheader := h.header
  have hwalk : ∀ i < aceCount m acl, aceWalk m' acl i = aceWalk m acl i := by
    intro i
    induction i with
    | zero => intro _; rfl
    | succ i ih =>
      intro hi
      have ih' := ih (by omega)
      have hs := h.aceSize_congr hag (show i < aceCount m acl by omega)
      unfold aceWalk at ih' hs ⊢
      rw [iterate_succ_apply', iterate_succ_apply', ih', hs]
  refine ⟨readLE_congr (hag.mono (by omega) (by omega)), ?_⟩
  intro i hi
  obtain ⟨hlo, hhi⟩ := h.inside i hi
  have hbody := (h.body i hi).1
  exact ⟨hwalk i hi, readAce_congr (hag.mono (by omega) (by omega))⟩

theorem AclShape.aclSize_congr {m m' : ByteMem} {acl : ℕ} (h : AclShape m acl)
    (hag : AgreeOn acl (acl + aclSize m acl) m m') : aclSize m' acl = aclSize m acl := by
  have hheader := h.header
  simp only [aclHeaderSize] at hheader
  exact readLE_congr (hag.mono (by omega) (by omega))

theorem AclShape.transport {m m' : ByteMem} {acl : ℕ} (h : AclShape m acl)
    (hag : AgreeOn acl (acl + aclSize m acl) m m') : AclShape m' acl := by
  obtain ⟨hcount, hsame⟩ := h.congr hag
  have hsize := h.aclSize_congr hag
  refine ⟨h.notNull, by rw [hsize]; exact h.header, ?_, ?_⟩
  · intro i hi
    rw [hcount] at hi
    rw [(hsame i hi).1, h.aceSize_congr hag hi, hsize]
    exact h.inside i hi
  · intro i hi
    rw [hcount] at hi
    rw [(hsame i hi).1, (hsame i hi).2, h.aceSize_congr hag hi]
    exact h.body i hi

theorem AclShape.aces_congr {m m' : ByteMem} {acl : ℕ} (h : AclShape m acl)
    (hag : AgreeOn acl (acl + aclSize m acl) m m') : aces m' acl = aces m acl := by
  obtain ⟨hcount, hsame⟩ := h.congr hag
  unfold aces
  rw [hcount]
  apply map_congr_left
  intro i hi
  obtain ⟨hwalk, hread⟩ := hsame i (mem_range.mp hi)
  rw [hwalk, hread]

theorem getElem?_aces {acl i : ℕ} (hi : i < aceCount m acl) :
    (aces m acl)[i]? = some (readAce m (aceWalk m acl i)) := by
  simp [aces, hi]

theorem AclShape.mem_aces {acl : ℕ} (h : AclShape m acl)
    (ha : a ∈ aces m acl) : aceIsSidBearing a.type ∧ SidValid a.sid := by
  obtain ⟨i, hi, rfl⟩ := mem_map.mp ha
  exact (h.body i (mem_range.mp hi)).2

end ImpossibleOs.Security
