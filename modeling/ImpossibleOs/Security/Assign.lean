import ImpossibleOs.Security.Token

/-!
`SeAssignSecurity` (`src/kernel/security/assign_security.c`): the security
descriptor of a new object.

The function first decides, from its arguments alone, where the DACL comes
from and how large the block must be (`assignPlan`), then allocates one block
and builds the descriptor in it (`assignBuild`).
-/

namespace ImpossibleOs.Security

open ByteMem
open Token (AccessToken)

/-- What `SeAssignSecurity` takes from the rest of the kernel: the heap and the addresses of
two well-known SIDs. `kmallocZeroed` returns `0` when it fails. -/
structure Kernel where
  kmallocZeroed : ByteMem → ℕ → ByteMem × ℕ
  kfree : ByteMem → ℕ → ByteMem
  seLocalSystemSid : ℕ
  seWorldSid : ℕ

def round4 (n : ℕ) : ℕ := (n + 3) / 4 * 4

def seAssignMaxSd : ℕ := 4096
def securityDescriptorSize : ℕ := 40
def securityDescriptorRevision : ℕ := 1
def genericAll : ℕ := 0x10000000
def readControl : ℕ := 0x00020000

def aceIsDaclType (t : UInt8) : Bool := t = accessAllowedAceType || t = accessDeniedAceType

def aceIsCallbackType (t : UInt8) : Bool :=
  t = accessAllowedCallbackAceType || t = accessDeniedCallbackAceType ||
    t = systemAuditCallbackAceType || t = systemAlarmCallbackAceType

def daclShapeOk (m : ByteMem) (acl : ℕ) : Bool :=
  acl ≠ 0 && aclHeaderSize ≤ aclSize m acl && rtlValidAcl m acl (aclSize m acl)

/-- Flags of the child's copy of a parent ACE with flags `pf`; `none` when the child does not
inherit it. -/
def inheritChildFlags (pf : UInt8) (isDir : Bool) : Option UInt8 :=
  let np := pf &&& noPropagateInheritAce ≠ 0
  if !isDir then
    if pf &&& objectInheritAce = 0 then none else some inheritedAce
  else if pf &&& containerInheritAce ≠ 0 then
    if np then some inheritedAce
    else some (inheritedAce ||| (pf &&& (objectInheritAce ||| containerInheritAce)))
  else if pf &&& objectInheritAce ≠ 0 then
    if np then none else some (inheritedAce ||| inheritOnlyAce ||| objectInheritAce)
  else none

/-- The two scans of the parent DACL for an ACE that the child inherits, one per set of types.
`RtlGetAce` does not fail below `AceCount`. -/
def parentHasInheritableOf (isType : UInt8 → Bool) (m : ByteMem)
    (parent : Option SecurityDescriptor) (isDir : Bool) : Bool :=
  match parent with
  | none => false
  | some parent =>
    daclShapeOk m parent.dacl &&
      (List.range (aceCount m parent.dacl)).any fun i =>
        match rtlGetAce m parent.dacl i with
        | none => false
        | some ace => isType (aceType m ace) && (inheritChildFlags (aceFlags m ace) isDir).isSome

def parentHasInheritable : ByteMem → Option SecurityDescriptor → Bool → Bool :=
  parentHasInheritableOf aceIsDaclType

def parentHasInheritableCallback : ByteMem → Option SecurityDescriptor → Bool → Bool :=
  parentHasInheritableOf aceIsCallbackType

/-- One turn of the sizing pass, for the parent's ACE number `i`. -/
def addInheritedAceBytes (m : ByteMem) (parent : SecurityDescriptor) (isDir : Bool)
    (bytes i : ℕ) : ℕ :=
  match rtlGetAce m parent.dacl i with
  | none => bytes
  | some ace =>
    if aceIsDaclType (aceType m ace) && (inheritChildFlags (aceFlags m ace) isDir).isSome
    then bytes + (aceHeaderSize + 4 + rtlLengthSid m (aceSid ace))
    else bytes

def inheritedDaclBytes (m : ByteMem) (parent : SecurityDescriptor) (isDir : Bool) : ℕ :=
  (List.range (aceCount m parent.dacl)).foldl (addInheritedAceBytes m parent isDir) aclHeaderSize

/-- One turn of the emission loop, for the parent's ACE number `i`. -/
def emitInheritedAce (parent : SecurityDescriptor) (isDir : Bool) (wantType : UInt8) (dst : ℕ)
    (m : ByteMem) (i : ℕ) : Option ByteMem :=
  (rtlGetAce m parent.dacl i).bind fun ace =>
    if aceType m ace ≠ wantType then some m
    else
      match inheritChildFlags (aceFlags m ace) isDir with
      | none => some m
      | some cf => do
        let m ←
          if wantType = accessDeniedAceType then
            rtlAddAccessDeniedAce m dst (aceMask m ace) (aceSid ace)
          else rtlAddAccessAllowedAce m dst (aceMask m ace) (aceSid ace)
        let added ← rtlGetAce m dst (sub32 (aceCount m dst) 1)
        return writeLE m (added + 1) 1 cf.toNat

/-- Emit the ACEs of one type. The parent's count is read before the loop: the loop writes
only to the new block. -/
def emitInheritedPass (m : ByteMem) (dst : ℕ) (parent : SecurityDescriptor) (isDir : Bool)
    (wantType : UInt8) : Option ByteMem :=
  (List.range (aceCount m parent.dacl)).foldlM (emitInheritedAce parent isDir wantType dst) m

def buildFallbackDacl (k : Kernel) (m : ByteMem) (dst cap owner : ℕ) : Option ByteMem := do
  let m ← rtlCreateAcl m dst cap aclRevision
  let m ← rtlAddAccessAllowedAce m dst genericAll owner
  let m ← rtlAddAccessAllowedAce m dst genericAll k.seLocalSystemSid
  rtlAddAccessAllowedAce m dst readControl k.seWorldSid

inductive DaclSource
  | explicitCopy | explicitNull | inherit | tokenDefault | fallback
  deriving DecidableEq, Repr

/-- What is settled before the block is allocated. -/
structure AssignPlan where
  ownerSid : ℕ
  groupSid : ℕ
  source : DaclSource
  copySrc : ℕ
  daclBytes : ℕ
  daclDefaulted : Bool
  deriving DecidableEq, Repr

/-- Owner (or group) SID: the creator's when it has one, else the token's. -/
def pickSid (fromCreator fromToken : ℕ) : ℕ := if fromCreator ≠ 0 then fromCreator else fromToken

def creatorExplicit (creator : Option SecurityDescriptor) : Bool :=
  creator.any fun c => hasFlag c.control seDaclPresent && !hasFlag c.control seDaclDefaulted

def childProtected (creator : Option SecurityDescriptor) : Bool :=
  creator.any fun c => hasFlag c.control seDaclProtected

def ownerSidOf (creator : Option SecurityDescriptor) (tok : Option AccessToken) : ℕ :=
  pickSid (creator.elim 0 SecurityDescriptor.owner) (tok.elim 0 AccessToken.userSid)

def groupSidOf (creator : Option SecurityDescriptor) (tok : Option AccessToken) : ℕ :=
  pickSid (creator.elim 0 SecurityDescriptor.group) (tok.elim 0 AccessToken.primaryGroup)

/-- The choice of the DACL source, its size, and whether it counts as defaulted. -/
def pickDacl (k : Kernel) (m : ByteMem) (parent creator : Option SecurityDescriptor)
    (isDir : Bool) (tok : Option AccessToken) (ownerSid groupSid : ℕ) :
    Except NtStatus AssignPlan :=
  let creatorDacl := creator.elim 0 SecurityDescriptor.dacl
  let defaultDacl := tok.elim 0 AccessToken.defaultDacl
  if creatorExplicit creator then
    if creatorDacl = 0 then .ok ⟨ownerSid, groupSid, .explicitNull, 0, 0, false⟩
    else if daclShapeOk m creatorDacl then
      .ok ⟨ownerSid, groupSid, .explicitCopy, creatorDacl, aclSize m creatorDacl, false⟩
    else .error .invalidParameter
  else if !childProtected creator && parentHasInheritable m parent isDir then
    .ok ⟨ownerSid, groupSid, .inherit, 0,
      parent.elim 0 fun p => inheritedDaclBytes m p isDir, false⟩
  else if daclShapeOk m defaultDacl then
    .ok ⟨ownerSid, groupSid, .tokenDefault, defaultDacl, aclSize m defaultDacl, true⟩
  else
    .ok ⟨ownerSid, groupSid, .fallback, 0,
      aclHeaderSize + 3 * (aceHeaderSize + 4) + rtlLengthSid m ownerSid +
        rtlLengthSid m k.seLocalSystemSid + rtlLengthSid m k.seWorldSid, true⟩

/-- Size of the block: the descriptor, the DACL and the two SIDs, each rounded up. -/
def AssignPlan.total (m : ByteMem) (p : AssignPlan) : ℕ :=
  round4 securityDescriptorSize + round4 p.daclBytes + round4 (rtlLengthSid m p.ownerSid) +
    round4 (rtlLengthSid m p.groupSid)

def assignPlan (k : Kernel) (m : ByteMem) (parent creator : Option SecurityDescriptor)
    (isDir : Bool) (tok : Option AccessToken) : Except NtStatus AssignPlan := do
  let ownerSid := ownerSidOf creator tok
  if ownerSid = 0 then throw .invalidParameter
  let groupSid := groupSidOf creator tok
  if !rtlValidSid m ownerSid then throw .invalidParameter
  if groupSid ≠ 0 ∧ !rtlValidSid m groupSid then throw .invalidParameter
  if !creatorExplicit creator && !childProtected creator &&
      parentHasInheritableCallback m parent isDir then
    throw .invalidParameter
  let plan ← pickDacl k m parent creator isDir tok ownerSid groupSid
  if 0xFFFF < plan.daclBytes then throw .insufficientResources
  if seAssignMaxSd < plan.total m then throw .insufficientResources
  return plan

/-- The DACL body, written at `dacl`. -/
def buildDacl (k : Kernel) (m : ByteMem) (parent : Option SecurityDescriptor) (isDir : Bool)
    (plan : AssignPlan) (dacl : ℕ) : Option ByteMem :=
  match plan.source with
  | .explicitCopy | .tokenDefault => some (copyUp m dacl plan.copySrc (aclSize m plan.copySrc))
  | .inherit => do
    let parent ← parent
    let m ← rtlCreateAcl m dacl (round4 plan.daclBytes) aclRevision
    let m ← emitInheritedPass m dacl parent isDir accessDeniedAceType
    emitInheritedPass m dacl parent isDir accessAllowedAceType
  | .fallback => buildFallbackDacl k m dacl (round4 plan.daclBytes) plan.ownerSid
  | .explicitNull => some m

/-- Memory, status and `*NewSD` (the descriptor and its address) after a call. -/
structure AssignResult where
  mem : ByteMem
  status : NtStatus
  newSD : Option (ℕ × SecurityDescriptor)

def AssignResult.fail (m : ByteMem) (s : NtStatus) : AssignResult := ⟨m, s, none⟩

/-- The part of the function that fills the block at `block`. The lengths of the SIDs were
taken before the allocation. What a failed step has written stands in the block that is
freed, and is left out. -/
def assignBuild (k : Kernel) (m : ByteMem) (parent creator : Option SecurityDescriptor)
    (isDir : Bool) (plan : AssignPlan) (ownerLen groupLen block : ℕ) : AssignResult :=
  let sd := rtlCreateSecurityDescriptor securityDescriptorRevision
  let cursor := block + round4 securityDescriptorSize
  let dacl := if plan.source = .explicitNull then 0 else cursor
  let cursor := if plan.source = .explicitNull then cursor else cursor + round4 plan.daclBytes
  match buildDacl k m parent isDir plan dacl with
  | none => .fail (k.kfree m block) .insufficientResources
  | some m =>
    match rtlCopySid m cursor ownerLen plan.ownerSid with
    | none => .fail (k.kfree m block) .invalidParameter
    | some m =>
      let sd := rtlSetOwnerSecurityDescriptor sd cursor false
      let cursor := cursor + round4 ownerLen
      let finish (m : ByteMem) (sd : SecurityDescriptor) : AssignResult :=
        let sd := rtlSetDaclSecurityDescriptor sd true dacl plan.daclDefaulted
        let control := if plan.source = .inherit then sd.control ||| seDaclAutoInherited
          else sd.control
        let control := if childProtected creator then control ||| seDaclProtected
          else control
        ⟨m, .success, some (block, { sd with control := control })⟩
      if plan.groupSid = 0 then finish m sd
      else
        match rtlCopySid m cursor groupLen plan.groupSid with
        | none => .fail (k.kfree m block) .invalidParameter
        | some m => finish m (rtlSetGroupSecurityDescriptor sd cursor false)

/-- `hasOut` says whether the caller's `NewSD` is not `NULL`; `*NewSD` is cleared on entry. -/
def seAssignSecurity (k : Kernel) (m : ByteMem) (parent creator : Option SecurityDescriptor)
    (isDir : Bool) (tok : Option AccessToken) (hasOut : Bool) : AssignResult :=
  if !hasOut then .fail m .invalidParameter
  else
    match assignPlan k m parent creator isDir tok with
    | .error s => .fail m s
    | .ok plan =>
      let alloc := k.kmallocZeroed m (plan.total m)
      if alloc.2 = 0 then .fail alloc.1 .noMemory
      else
        assignBuild k alloc.1 parent creator isDir plan (rtlLengthSid m plan.ownerSid)
          (rtlLengthSid m plan.groupSid) alloc.2

end ImpossibleOs.Security
