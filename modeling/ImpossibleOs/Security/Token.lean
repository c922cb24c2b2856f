import ImpossibleOs.Security.Model

/-!
Access tokens, from `src/kernel/security/token.c`: creation, duplication and
the adjustment of privileges and groups.

The counted arrays of a token are lists. A SID is named by its address, and
`RtlEqualSid` reads its bytes from a memory. The quota block of a token is kept
by its address; its reference count belongs to the quota ledger.
-/

namespace ImpossibleOs.Security.Token

open ByteMem

/-! ### Identifiers and attribute words -/

structure Luid where
  lowPart : UInt32
  highPart : Int32
  deriving DecidableEq, Repr

def rtlEqualLuid (a b : Luid) : Bool := a.lowPart = b.lowPart && a.highPart = b.highPart

def rtlLuidFromValue (value : UInt64) : Luid :=
  { lowPart := value.toUInt32, highPart := (value >>> 32).toUInt32.toInt32 }

structure LuidAndAttributes where
  luid : Luid
  attributes : UInt32
  deriving DecidableEq, Repr

structure SidAndAttributes where
  sid : ℕ
  attributes : UInt32
  deriving DecidableEq, Repr

def has (attributes flag : UInt32) : Bool := attributes &&& flag ≠ 0

/-- `Attributes |= flag` when `on`, else `Attributes &= ~flag`. -/
def put (attributes flag : UInt32) (on : Bool) : UInt32 :=
  if on then attributes ||| flag else attributes &&& ~~~flag

def sePrivilegeEnabledByDefault : UInt32 := 0x00000001
def sePrivilegeEnabled : UInt32 := 0x00000002
def sePrivilegeRemoved : UInt32 := 0x00000004

def seGroupMandatory : UInt32 := 0x00000001
def seGroupEnabledByDefault : UInt32 := 0x00000002
def seGroupEnabled : UInt32 := 0x00000004
def seGroupOwner : UInt32 := 0x00000008
def seGroupUseForDenyOnly : UInt32 := 0x00000010

def LuidAndAttributes.setEnabled (p : LuidAndAttributes) (on : Bool) : LuidAndAttributes :=
  { p with attributes := put p.attributes sePrivilegeEnabled on }

def SidAndAttributes.setEnabled (g : SidAndAttributes) (on : Bool) : SidAndAttributes :=
  { g with attributes := put g.attributes seGroupEnabled on }

/-! ### The token -/

def tokenMaxGroups : ℕ := 32
def tokenMaxPrivs : ℕ := 36

inductive TokenType
  | primary | impersonation
  deriving DecidableEq, Repr

inductive ImpersonationLevel
  | anonymous | identification | impersonation | delegation
  deriving DecidableEq, Repr

inductive ElevationType
  | default | full | limited
  deriving DecidableEq, Repr

def tokenMandatoryPolicyNoWriteUp : ℕ := 0x1

structure AccessToken where
  userSid : ℕ
  groups : List SidAndAttributes
  privileges : List LuidAndAttributes
  primaryGroup : ℕ
  defaultDacl : ℕ
  tokenType : TokenType
  impersonationLevel : ImpersonationLevel
  tokenId : Luid
  authenticationId : Luid
  modifiedId : Luid
  sessionId : ℕ
  integrityLevelSid : ℕ
  integrityPolicy : ℕ
  isElevated : Bool
  linkedTokenId : Luid
  elevationType : ElevationType
  restrictedSids : ℕ
  restrictedSidCount : ℕ
  flags : ℕ
  quotaBlock : ℕ
  deriving DecidableEq, Repr

def tokenAddPriv (tok : AccessToken) (luid : Luid) (attrs : UInt32) : AccessToken :=
  if tokenMaxPrivs ≤ tok.privileges.length then tok
  else { tok with privileges := tok.privileges ++ [⟨luid, attrs⟩] }

def tokenAddGroup (tok : AccessToken) (sid : ℕ) (attrs : UInt32) : AccessToken :=
  if tokenMaxGroups ≤ tok.groups.length then tok
  else { tok with groups := tok.groups ++ [⟨sid, attrs⟩] }

/-! ### Creation -/

/-- A well-known privilege: `SE_PRIVILEGE_LUID(n)`. -/
def sePrivilegeLuid (n : UInt32) : Luid := { lowPart := n, highPart := 0 }

structure WellKnownSids where
  localSystem : ℕ
  builtinAdministrators : ℕ
  builtinUsers : ℕ
  world : ℕ
  interactive : ℕ
  ilSystem : ℕ
  ilHigh : ℕ
  ilMedium : ℕ
  deriving DecidableEq, Repr

def groupDefault : UInt32 := seGroupEnabled ||| seGroupEnabledByDefault ||| seGroupMandatory

/-- Privileges of the SYSTEM token, in the order in which they are added. -/
def systemPrivileges : List UInt32 :=
  [2, 3, 4, 5, 7, 8, 9, 10, 11, 12, 13, 14, 15, 17, 18, 19, 20, 21, 23, 25, 28, 29, 30, 35]

/-- `SeCreateSystemToken` on a zeroed body; `tokenId` and `modifiedId` are fresh identifiers and
`quota` is the user's quota block. -/
def seCreateSystemToken (sids : WellKnownSids) (tokenId modifiedId : Luid) (quota : ℕ) :
    AccessToken :=
  let tok : AccessToken :=
    { userSid := sids.localSystem, groups := [], privileges := []
      primaryGroup := sids.builtinAdministrators, defaultDacl := 0
      tokenType := .primary, impersonationLevel := .impersonation
      tokenId := tokenId, authenticationId := sePrivilegeLuid 999, modifiedId := modifiedId
      sessionId := 0, integrityLevelSid := sids.ilSystem
      integrityPolicy := tokenMandatoryPolicyNoWriteUp, isElevated := true
      linkedTokenId := sePrivilegeLuid 0, elevationType := .default
      restrictedSids := 0, restrictedSidCount := 0, flags := 0, quotaBlock := quota }
  let tok := tokenAddGroup tok sids.builtinAdministrators (groupDefault ||| seGroupOwner)
  let tok := tokenAddGroup tok sids.world groupDefault
  systemPrivileges.foldl (fun tok n => tokenAddPriv tok (sePrivilegeLuid n)
    (sePrivilegeEnabled ||| sePrivilegeEnabledByDefault)) tok

/-- Privileges that a user token holds enabled; an administrator's also has the next list. -/
def userPrivileges (admin : Bool) : List UInt32 :=
  if admin then [23, 19, 25, 14] else [23, 19, 25]

def adminDisabledPrivileges (admin : Bool) : List UInt32 :=
  if admin then [17, 18, 10, 20, 12, 8, 9, 28, 29, 30, 35] else []

def seCreateUserToken (sids : WellKnownSids) (userSid : ℕ) (admin : Bool)
    (tokenId authenticationId modifiedId : Luid) (quota : ℕ) : Option AccessToken :=
  if userSid = 0 then none
  else
    let tok : AccessToken :=
      { userSid := userSid, groups := [], privileges := []
        primaryGroup := sids.builtinUsers, defaultDacl := 0
        tokenType := .primary, impersonationLevel := .impersonation
        tokenId := tokenId, authenticationId := authenticationId, modifiedId := modifiedId
        sessionId := 1, integrityLevelSid := if admin then sids.ilHigh else sids.ilMedium
        integrityPolicy := tokenMandatoryPolicyNoWriteUp, isElevated := admin
        linkedTokenId := sePrivilegeLuid 0
        elevationType := if admin then .full else .default
        restrictedSids := 0, restrictedSidCount := 0, flags := 0, quotaBlock := quota }
    let tok := tokenAddGroup tok sids.world groupDefault
    let tok := tokenAddGroup tok sids.interactive groupDefault
    let tok := tokenAddGroup tok sids.builtinUsers groupDefault
    let tok := if admin then
        tokenAddGroup tok sids.builtinAdministrators (groupDefault ||| seGroupOwner)
      else tok
    let tok := (userPrivileges admin).foldl (fun tok n => tokenAddPriv tok (sePrivilegeLuid n)
      (sePrivilegeEnabled ||| sePrivilegeEnabledByDefault)) tok
    some <| (adminDisabledPrivileges admin).foldl (fun tok n =>
      tokenAddPriv tok (sePrivilegeLuid n) sePrivilegeEnabledByDefault) tok

def ntDuplicateToken (existing : AccessToken) (effectiveOnly : Bool) (newType : TokenType)
    (tokenId modifiedId : Luid) : AccessToken :=
  { existing with
    tokenType := newType
    tokenId := tokenId
    modifiedId := modifiedId
    groups := (existing.groups.filter fun g =>
      !effectiveOnly || has g.attributes seGroupEnabled).take tokenMaxGroups
    privileges := (existing.privileges.filter fun p =>
      !effectiveOnly || has p.attributes sePrivilegeEnabled).take tokenMaxPrivs }

/-! ### Adjustment -/

inductive TokenStatus
  | success | notAllAssigned | invalidHandle | invalidParameter
  deriving DecidableEq, Repr

/-- The entries written to `previous_state`, which has room for `room` of them. -/
structure Previous (α : Type) where
  room : ℕ
  saved : List α
  deriving DecidableEq, Repr

/-- Store an entry while there is room. -/
def Previous.save {α : Type} (r : Previous α) (x : α) : Previous α :=
  if r.saved.length < r.room then { r with saved := r.saved ++ [x] } else r

/-- The buffer a caller passes: nothing is stored in a `NULL` buffer or without a count. -/
def Previous.empty (α : Type) (previousState : Bool) (prevCount : Option ℕ) : Previous α :=
  { room := if previousState then prevCount.getD 0 else 0, saved := [] }

/-- One entry of `new_state`: the old entry of the first privilege with its LUID and the
privileges after the change; `none` when the token has no such privilege. -/
def adjustPrivilege (new : LuidAndAttributes) :
    List LuidAndAttributes → Option (LuidAndAttributes × List LuidAndAttributes)
  | [] => none
  | p :: ps =>
    if rtlEqualLuid p.luid new.luid then
      some (p,
        if has new.attributes sePrivilegeRemoved then ps
        else p.setEnabled (has new.attributes sePrivilegeEnabled) :: ps)
    else (adjustPrivilege new ps).map fun r => (r.1, p :: r.2)

/-- The loop over `new_state`: privileges, saved entries and whether every entry was found. -/
def adjustPrivileges (ps : List LuidAndAttributes) (prev : Previous LuidAndAttributes) :
    List LuidAndAttributes → List LuidAndAttributes × Previous LuidAndAttributes × Bool
  | [] => (ps, prev, true)
  | new :: news =>
    match adjustPrivilege new ps with
    | none => let r := adjustPrivileges ps prev news; (r.1, r.2.1, false)
    | some (old, ps') => adjustPrivileges ps' (prev.save old) news

/-- What an adjustment returns: its status, the token, the entries in `previous_state` and
`*prev_count`. -/
structure Adjusted (α : Type) where
  status : TokenStatus
  token : AccessToken
  saved : List α
  prevCount : Option ℕ
  deriving DecidableEq, Repr

def ntAdjustPrivilegesToken (token : AccessToken) (disableAll : Bool)
    (newState : Option (List LuidAndAttributes)) (previousState : Bool) (prevCount : Option ℕ)
    (modifiedId : Luid) : Adjusted LuidAndAttributes :=
  let prev := Previous.empty LuidAndAttributes previousState prevCount
  if disableAll then
    let prev := token.privileges.foldl Previous.save prev
    { status := .success
      token := { token with
        privileges := token.privileges.map fun p => p.setEnabled false
        modifiedId := modifiedId }
      saved := prev.saved, prevCount := prevCount.map fun _ => prev.saved.length }
  else
    match newState with
    | none => { status := .invalidParameter, token := token, saved := [], prevCount := prevCount }
    | some news =>
      let r := adjustPrivileges token.privileges prev news
      { status := if r.2.2 then .success else .notAllAssigned
        token := { token with privileges := r.1, modifiedId := modifiedId }
        saved := r.2.1.saved, prevCount := prevCount.map fun _ => r.2.1.saved.length }

/-- One entry of `new_state` of a group adjustment. The search goes on past a deny-only group that
the entry would enable. -/
def adjustGroup (m : ByteMem) (new : SidAndAttributes) :
    List SidAndAttributes → Option (SidAndAttributes × List SidAndAttributes)
  | [] => none
  | g :: gs =>
    if !rtlEqualSid m g.sid new.sid ||
        (has g.attributes seGroupUseForDenyOnly && has new.attributes seGroupEnabled) then
      (adjustGroup m new gs).map fun r => (r.1, g :: r.2)
    else
      some (g, g.setEnabled (has new.attributes seGroupEnabled) :: gs)

def adjustGroups (m : ByteMem) (gs : List SidAndAttributes) (prev : Previous SidAndAttributes) :
    List SidAndAttributes → List SidAndAttributes × Previous SidAndAttributes
  | [] => (gs, prev)
  | new :: news =>
    match adjustGroup m new gs with
    | none => adjustGroups m gs prev news
    | some (old, gs') => adjustGroups m gs' (prev.save old) news

/-- A group put back to its default; a deny-only group stays as it is. -/
def resetGroup (g : SidAndAttributes) : SidAndAttributes :=
  if has g.attributes seGroupUseForDenyOnly then g
  else g.setEnabled (has g.attributes seGroupEnabledByDefault)

def ntAdjustGroupsToken (m : ByteMem) (token : AccessToken) (resetToDefault : Bool)
    (newState : Option (List SidAndAttributes)) (previousState : Bool) (prevCount : Option ℕ)
    (modifiedId : Luid) : Adjusted SidAndAttributes :=
  let prev := Previous.empty SidAndAttributes previousState prevCount
  if resetToDefault then
    let prev := token.groups.foldl Previous.save prev
    { status := .success
      token := { token with groups := token.groups.map resetGroup, modifiedId := modifiedId }
      saved := prev.saved, prevCount := prevCount.map fun _ => prev.saved.length }
  else
    match newState with
    | none => { status := .invalidParameter, token := token, saved := [], prevCount := prevCount }
    | some news =>
      let r := adjustGroups m token.groups prev news
      { status := .success
        token := { token with groups := r.1, modifiedId := modifiedId }
        saved := r.2.saved, prevCount := prevCount.map fun _ => r.2.saved.length }

/-! ### Sequences of calls -/

/-- The tokens of the system and the counter of `NtAllocateLocallyUniqueId`. -/
structure Tokens where
  tokens : List AccessToken
  nextLuid : UInt64
  deriving DecidableEq, Repr

/-- The value that the next call of `NtAllocateLocallyUniqueId` returns. -/
def Tokens.freshLuid (s : Tokens) : Luid := rtlLuidFromValue (s.nextLuid + 1)

/-- A call; a token is named by its index. `allocated` says whether the body of a duplicate could
be allocated, and `mem` is the memory that holds the SIDs when a group call is made. -/
inductive Call
  | duplicate (existing : ℕ) (effectiveOnly : Bool) (newType : TokenType) (allocated : Bool)
  | adjustPrivileges (token : ℕ) (disableAll : Bool) (newState : Option (List LuidAndAttributes))
      (previousState : Bool) (prevCount : Option ℕ)
  | adjustGroups (mem : ByteMem) (token : ℕ) (resetToDefault : Bool)
      (newState : Option (List SidAndAttributes)) (previousState : Bool) (prevCount : Option ℕ)

/-- A call on a token that does not exist fails with an invalid handle and changes nothing. -/
def Tokens.exec (s : Tokens) : Call → Tokens
  | .duplicate existing effectiveOnly newType allocated =>
    match s.tokens[existing]? with
    | none => s
    | some t =>
      if allocated then
        { tokens := s.tokens ++ [ntDuplicateToken t effectiveOnly newType s.freshLuid
            (rtlLuidFromValue (s.nextLuid + 2))]
          nextLuid := s.nextLuid + 2 }
      else s
  | .adjustPrivileges token disableAll newState previousState prevCount =>
    match s.tokens[token]? with
    | none => s
    | some t =>
      let r := ntAdjustPrivilegesToken t disableAll newState previousState prevCount s.freshLuid
      { tokens := s.tokens.set token r.token
        nextLuid := if r.status = .invalidParameter then s.nextLuid else s.nextLuid + 1 }
  | .adjustGroups mem token resetToDefault newState previousState prevCount =>
    match s.tokens[token]? with
    | none => s
    | some t =>
      let r := ntAdjustGroupsToken mem t resetToDefault newState previousState prevCount
        s.freshLuid
      { tokens := s.tokens.set token r.token
        nextLuid := if r.status = .invalidParameter then s.nextLuid else s.nextLuid + 1 }

def Tokens.run (s : Tokens) (calls : List Call) : Tokens := calls.foldl Tokens.exec s

/-- What token `i` after a call was before it: for a new token the one that the call copied. -/
def Tokens.parent (s : Tokens) (c : Call) (i : ℕ) : ℕ :=
  match c with
  | .duplicate existing _ _ _ => if i < s.tokens.length then i else existing
  | .adjustPrivileges .. => i
  | .adjustGroups .. => i

/-- The token at the start that token `i` after the calls descends from. -/
def Tokens.origin (s : Tokens) : List Call → ℕ → ℕ
  | [], i => i
  | c :: calls, i => s.parent c ((s.exec c).origin calls i)

end ImpossibleOs.Security.Token
