import ImpossibleOs.Lib.ByteMem

/-!
SIDs, access control lists and `SeAssignSecurity`, from `src/kernel/security`
(`sid.c`, `acl.c`, `assign_security.c`).

SIDs and ACLs are variable-length records that the code walks with pointers, so
they are bytes of a memory here and a pointer is an address; `0` is `NULL`. A
`SECURITY_DESCRIPTOR` is a record of such pointers.
-/

namespace ImpossibleOs.Security

open ByteMem

inductive NtStatus
  | success | invalidParameter | insufficientResources | noMemory
  deriving DecidableEq, Repr

/-- Subtraction of `uint32_t`. -/
def sub32 (a b : ℕ) : ℕ := (a + (2 ^ 32 - b % 2 ^ 32)) % 2 ^ 32

/-! ### SIDs -/

def sidRevision : ℕ := 1
def sidMaxSubAuthorities : ℕ := 15

def subAuthorityCount (m : ByteMem) (sid : ℕ) : ℕ := (m (sid + 1)).toNat

def rtlLengthSid (m : ByteMem) (sid : ℕ) : ℕ :=
  if sid = 0 then 0 else 8 + 4 * subAuthorityCount m sid

/-- Length of the SID at `sid` when it is well formed and fits `avail` bytes, else 0. -/
def rtlLengthSidBounded (m : ByteMem) (sid avail : ℕ) : ℕ :=
  if sid = 0 then 0
  else if avail < 8 then 0
  else if (m sid).toNat ≠ sidRevision then 0
  else if sidMaxSubAuthorities < subAuthorityCount m sid then 0
  else if avail < 8 + 4 * subAuthorityCount m sid then 0
  else 8 + 4 * subAuthorityCount m sid

def rtlValidSid (m : ByteMem) (sid : ℕ) : Bool :=
  sid ≠ 0 && (m sid).toNat = sidRevision && subAuthorityCount m sid ≤ sidMaxSubAuthorities

def rtlEqualSid (m : ByteMem) (a b : ℕ) : Bool :=
  a ≠ 0 && b ≠ 0 && rtlValidSid m a && rtlValidSid m b &&
    rtlLengthSid m a = rtlLengthSid m b &&
    (List.range (rtlLengthSid m a)).all fun i => m (a + i) = m (b + i)

def rtlCopySid (m : ByteMem) (buf bufSize src : ℕ) : Option ByteMem :=
  if buf = 0 ∨ src = 0 then none
  else if ¬ rtlValidSid m src then none
  else if bufSize < rtlLengthSid m src then none
  else some (copyUp m buf src (rtlLengthSid m src))

/-! ### ACLs and ACEs -/

def aclHeaderSize : ℕ := 8
def aceHeaderSize : ℕ := 4
def aclRevision : ℕ := 2
def aclRevisionDs : ℕ := 4

def accessAllowedAceType : UInt8 := 0x00
def accessDeniedAceType : UInt8 := 0x01
def systemAuditAceType : UInt8 := 0x02
def systemAlarmAceType : UInt8 := 0x03
def accessAllowedCallbackAceType : UInt8 := 0x09
def accessDeniedCallbackAceType : UInt8 := 0x0A
def systemAuditCallbackAceType : UInt8 := 0x0D
def systemAlarmCallbackAceType : UInt8 := 0x0E
def systemMandatoryLabelAceType : UInt8 := 0x11

def objectInheritAce : UInt8 := 0x01
def containerInheritAce : UInt8 := 0x02
def noPropagateInheritAce : UInt8 := 0x04
def inheritOnlyAce : UInt8 := 0x08
def inheritedAce : UInt8 := 0x10

def aclSize (m : ByteMem) (acl : ℕ) : ℕ := readLE m (acl + 2) 2
def aceCount (m : ByteMem) (acl : ℕ) : ℕ := readLE m (acl + 4) 2

def aceType (m : ByteMem) (ace : ℕ) : UInt8 := m ace
def aceFlags (m : ByteMem) (ace : ℕ) : UInt8 := m (ace + 1)
def aceSize (m : ByteMem) (ace : ℕ) : ℕ := readLE m (ace + 2) 2
def aceMask (m : ByteMem) (ace : ℕ) : ℕ := readLE m (ace + aceHeaderSize) 4
def aceSid (ace : ℕ) : ℕ := ace + aceHeaderSize + 4

/-- The pointer after `i` steps `p += ((ACE_HEADER *)p)->AceSize` from the end of the header. -/
def aceWalk (m : ByteMem) (acl i : ℕ) : ℕ :=
  (fun p => p + aceSize m p)^[i] (acl + aclHeaderSize)

def rtlCreateAcl (m : ByteMem) (acl size rev : ℕ) : Option ByteMem :=
  if acl = 0 ∨ size < aclHeaderSize then none
  else
    let m := zeroRange m acl size
    let m := writeLE m acl 1 rev
    let m := writeLE m (acl + 2) 2 size
    some (writeLE m (acl + 4) 2 0)

def aclAppendAce (m : ByteMem) (acl : ℕ) (type flags : UInt8) (mask sid : ℕ) :
    Option ByteMem :=
  if acl = 0 ∨ sid = 0 then none
  else
    let sidLen := rtlLengthSid m sid
    let size := aceHeaderSize + 4 + sidLen
    let count := aceCount m acl
    let p := aceWalk m acl count
    let used := (p - acl) % 2 ^ 32
    let avail := sub32 (aclSize m acl) used
    if avail < size then none
    else
      let m := writeLE m p 1 type.toNat
      let m := writeLE m (p + 1) 1 flags.toNat
      let m := writeLE m (p + 2) 2 size
      let m := writeLE m (p + aceHeaderSize) 4 mask
      let m := copyUp m (p + aceHeaderSize + 4) sid sidLen
      some (writeLE m (acl + 4) 2 (aceCount m acl + 1))

def rtlAddAccessAllowedAce (m : ByteMem) (acl mask sid : ℕ) : Option ByteMem :=
  aclAppendAce m acl accessAllowedAceType 0 mask sid

def rtlAddAccessDeniedAce (m : ByteMem) (acl mask sid : ℕ) : Option ByteMem :=
  aclAppendAce m acl accessDeniedAceType 0 mask sid

def rtlGetAce (m : ByteMem) (acl index : ℕ) : Option ℕ :=
  if acl = 0 ∨ aceCount m acl ≤ index then none else some (aceWalk m acl index)

def aceIsSidBearing (t : UInt8) : Bool :=
  t = accessAllowedAceType || t = accessDeniedAceType || t = systemAuditAceType ||
    t = systemAlarmAceType || t = systemMandatoryLabelAceType ||
    t = accessAllowedCallbackAceType || t = accessDeniedCallbackAceType ||
    t = systemAuditCallbackAceType || t = systemAlarmCallbackAceType

/-- Size of the ACE at `hdr` when it is well formed within `remaining` bytes, else 0. -/
def aceBodyValid (m : ByteMem) (hdr remaining : ℕ) : ℕ :=
  if remaining < aceHeaderSize then 0
  else if aceSize m hdr < aceHeaderSize ∨ remaining < aceSize m hdr then 0
  else if ¬ aceIsSidBearing (aceType m hdr) then 0
  else if aceSize m hdr < aceHeaderSize + 4 then 0
  else if rtlLengthSidBounded m (aceSid hdr) (aceSize m hdr - (aceHeaderSize + 4)) = 0 then 0
  else aceSize m hdr

def aclHeaderValid (m : ByteMem) (acl avail : ℕ) : ℕ :=
  if acl = 0 ∨ avail < aclHeaderSize then 0
  else if (m acl).toNat ≠ aclRevision ∧ (m acl).toNat ≠ aclRevisionDs then 0
  else if aclSize m acl < aclHeaderSize ∨ avail < aclSize m acl then 0
  else aclSize m acl

/-- The loop of `RtlValidAcl` over the last `n` ACEs, the next at `p` with `remaining` bytes
of the ACL from there on. -/
def validAces (m : ByteMem) : ℕ → ℕ → ℕ → Bool
  | 0, _, _ => true
  | n + 1, p, remaining =>
    if aceBodyValid m p remaining = 0 then false
    else validAces m n (p + aceBodyValid m p remaining) (remaining - aceBodyValid m p remaining)

def rtlValidAcl (m : ByteMem) (acl avail : ℕ) : Bool :=
  if aclHeaderValid m acl avail = 0 then false
  else
    validAces m (aceCount m acl) (acl + aclHeaderSize)
      (aclHeaderValid m acl avail - aclHeaderSize)

/-! ### Security descriptors -/

def seOwnerDefaulted : ℕ := 0x0001
def seGroupDefaulted : ℕ := 0x0002
def seDaclPresent : ℕ := 0x0004
def seDaclDefaulted : ℕ := 0x0008
def seDaclAutoInherited : ℕ := 0x0400
def seDaclProtected : ℕ := 0x1000

structure SecurityDescriptor where
  revision : ℕ
  control : ℕ
  owner : ℕ
  group : ℕ
  sacl : ℕ
  dacl : ℕ
  deriving DecidableEq, Repr

def hasFlag (control flag : ℕ) : Bool := control &&& flag ≠ 0

/-- `Control |= flag` when `set`, else `Control &= ~flag`. -/
def putFlag (control flag : ℕ) (set : Bool) : ℕ :=
  if set then control ||| flag else control &&& (0xFFFF - flag)

def rtlCreateSecurityDescriptor (rev : ℕ) : SecurityDescriptor := ⟨rev, 0, 0, 0, 0, 0⟩

def rtlSetOwnerSecurityDescriptor (sd : SecurityDescriptor) (owner : ℕ) (defaulted : Bool) :
    SecurityDescriptor :=
  { sd with owner := owner, control := putFlag sd.control seOwnerDefaulted defaulted }

def rtlSetGroupSecurityDescriptor (sd : SecurityDescriptor) (group : ℕ) (defaulted : Bool) :
    SecurityDescriptor :=
  { sd with group := group, control := putFlag sd.control seGroupDefaulted defaulted }

def rtlSetDaclSecurityDescriptor (sd : SecurityDescriptor) (present : Bool) (dacl : ℕ)
    (defaulted : Bool) : SecurityDescriptor :=
  { sd with
    dacl := if present then dacl else 0
    control := putFlag (putFlag sd.control seDaclPresent present) seDaclDefaulted defaulted }

end ImpossibleOs.Security
