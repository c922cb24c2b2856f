import ImpossibleOs.Security.Acl
import ImpossibleOs.Security.Token

/-!
Impersonation of the client of an ALPC port, from `src/kernel/ipc/alpc_port.c`.

A server without `SeImpersonatePrivilege` may act with its client's token when
`alpc_authority_is_subset` finds no authority in it that the server lacks. An
enabled group denies as well as a deny-only one, and integrity groups are not
compared.
-/

namespace ImpossibleOs.Security.Token

open ByteMem List
open Bool hiding or_assoc

/-- Does the DACL grant access bit `b`: of the ACEs that name the bit the first one that matches
the subject decides. -/
def granted (allows denies : List UInt8 → Bool) (b : ℕ) : List Ace → Bool
  | [] => false
  | a :: dacl =>
    if a.mask.testBit b && a.type = accessDeniedAceType && denies a.sid then false
    else if a.mask.testBit b && a.type = accessAllowedAceType && allows a.sid then true
    else granted allows denies b dacl

/-- A subject gains nothing over another, on any DACL, exactly when whatever allows it allows the
other and whatever denies the other denies it. -/
theorem granted_mono_iff {allows denies allows' denies' : List UInt8 → Bool} {u : List UInt8}
    (hu : allows u = true) :
    (∀ dacl b, granted allows denies b dacl = true → granted allows' denies' b dacl = true) ↔
      (∀ s, allows s = true → allows' s = true) ∧ ∀ s, denies' s = true → denies s = true := by
  constructor
  · intro h
    constructor
    · intro s hs
      have hg := h [⟨accessAllowedAceType, 0, 1, s⟩] 0
      simpa [granted, hs, accessAllowedAceType, accessDeniedAceType] using hg
    · intro s hs
      have hg := h [⟨accessDeniedAceType, 0, 1, s⟩, ⟨accessAllowedAceType, 0, 1, u⟩] 0
      simpa [granted, hs, hu, accessAllowedAceType, accessDeniedAceType] using hg
  · rintro ⟨ha, hd⟩ dacl b
    induction dacl with
    | nil => exact id
    | cons a dacl ih =>
      intro h
      rw [granted, Bool.if_false_left, Bool.if_true_left, and_eq_true, or_eq_true] at h ⊢
      refine ⟨?_, h.2.imp ?_ ih⟩
      · cases hden : denies' a.sid with
        | false => simp
        | true => simpa [hd _ hden] using h.1
      · intro hall
        simp only [decide_eq_true_eq, and_eq_true] at hall ⊢
        exact ⟨hall.1, ha _ hall.2⟩

/-! ### Subjects -/

/-- The SID at `p` is well formed and has the bytes `s`. -/
def namesSid (m : ByteMem) (p : ℕ) (s : List UInt8) : Bool :=
  rtlValidSid m p && bytes m p (rtlLengthSid m p) = s

/-- An allow ACE for `s` matches the group: enabled and not deny-only. -/
def SidAndAttributes.allows (m : ByteMem) (g : SidAndAttributes) (s : List UInt8) : Bool :=
  has g.attributes seGroupEnabled && !has g.attributes seGroupUseForDenyOnly && namesSid m g.sid s

/-- A deny ACE for `s` matches the group: enabled or deny-only. -/
def SidAndAttributes.denies (m : ByteMem) (g : SidAndAttributes) (s : List UInt8) : Bool :=
  (has g.attributes seGroupEnabled || has g.attributes seGroupUseForDenyOnly) &&
    namesSid m g.sid s

def AccessToken.allows (m : ByteMem) (tok : AccessToken) (s : List UInt8) : Bool :=
  namesSid m tok.userSid s || tok.groups.any fun g => g.allows m s

def AccessToken.denies (m : ByteMem) (tok : AccessToken) (s : List UInt8) : Bool :=
  namesSid m tok.userSid s || tok.groups.any fun g => g.denies m s

theorem rtlEqualSid_spec {m : ByteMem} {a b : ℕ} (h : rtlEqualSid m a b = true) :
    ∃ s, namesSid m a s = true ∧ namesSid m b s = true := by
  simp only [rtlEqualSid, and_eq_true, decide_eq_true_eq, all_eq_true,
    mem_range] at h
  obtain ⟨⟨⟨⟨-, ha⟩, hb⟩, hlen⟩, hall⟩ := h
  simp only [namesSid, and_eq_true, decide_eq_true_eq]
  refine ⟨_, ⟨ha, rfl⟩, hb, ?_⟩
  rw [← hlen]
  exact map_congr_left fun i hi => (hall i (mem_range.mp hi)).symm

def seGroupIntegrity : UInt32 := 0x00000020
def tokenIsRestricted : ℕ := 0x0001

/-- The server holds the client's group `c` as authority of its own. -/
def groupHeld (m : ByteMem) (server : AccessToken) (c : SidAndAttributes) : Bool :=
  server.groups.any fun g =>
    g.sid ≠ 0 && rtlEqualSid m c.sid g.sid && !has g.attributes seGroupUseForDenyOnly &&
      !(has c.attributes seGroupEnabled && !has g.attributes seGroupEnabled)

/-- The client carries the server's deny-only group `g`, and only as deny-only. -/
def stillDenied (m : ByteMem) (client : AccessToken) (g : SidAndAttributes) : Bool :=
  let same := client.groups.filter fun c => c.sid ≠ 0 && rtlEqualSid m g.sid c.sid
  !same.isEmpty && same.all fun c => has c.attributes seGroupUseForDenyOnly

def alpcAuthorityIsSubset (m : ByteMem) (client server : AccessToken) : Bool :=
  client.privileges.length ≤ tokenMaxPrivs && server.privileges.length ≤ tokenMaxPrivs &&
  client.groups.length ≤ tokenMaxGroups && server.groups.length ≤ tokenMaxGroups &&
  !(hasFlag client.flags tokenIsRestricted || hasFlag server.flags tokenIsRestricted ||
    client.restrictedSidCount ≠ 0 || server.restrictedSidCount ≠ 0) &&
  (client.privileges.all fun p => server.privileges.any fun q => p.luid = q.luid) &&
  (client.groups.all fun c =>
    has c.attributes seGroupIntegrity || has c.attributes seGroupUseForDenyOnly ||
      (c.sid ≠ 0 && groupHeld m server c)) &&
  (server.groups.all fun g =>
    !has g.attributes seGroupUseForDenyOnly || (g.sid ≠ 0 && stillDenied m client g))

/-! ### Impersonation -/

def sidIsIntegrityLabel (m : ByteMem) (sid : ℕ) : Bool :=
  sid ≠ 0 && (m sid).toNat = sidRevision && subAuthorityCount m sid = 1 &&
    bytes m (sid + 2) 6 = [0, 0, 0, 0, 0, 16]

def seTryGetTokenIntegrityLevel (m : ByteMem) (token : AccessToken) : Option ℕ :=
  if sidIsIntegrityLabel m token.integrityLevelSid then
    some (readLE m (token.integrityLevelSid + 8) 4)
  else none

def sepTokenHolds (tok : AccessToken) (n : UInt32) : Bool :=
  tok.privileges.length ≤ tokenMaxPrivs && tok.privileges.any fun p =>
    rtlEqualLuid p.luid (sePrivilegeLuid n) && has p.attributes sePrivilegeEnabled

def seImpersonatePrivilege : UInt32 := 29

/-- `SeSinglePrivilegeCheck` of a user-mode caller; `eff` is its effective token. -/
def seSinglePrivilegeCheck (eff : Option AccessToken) (n : UInt32) : Bool :=
  eff.any fun tok => sepTokenHolds tok n

/-- `no_amplification`: the client token may be taken without the privilege. -/
def noAmplification (m : ByteMem) (client server : AccessToken) : Bool :=
  server.userSid ≠ 0 && client.userSid ≠ 0 && rtlEqualSid m client.userSid server.userSid &&
  (match seTryGetTokenIntegrityLevel m client, seTryGetTokenIntegrityLevel m server with
    | some clientIl, some serverIl => clientIl ≤ serverIl
    | _, _ => false) &&
  !(client.isElevated && !server.isElevated) && alpcAuthorityIsSubset m client server

inductive ImpersonateStatus
  | success | invalidParameter | invalidPortHandle | noToken | badImpersonationLevel
  | privilegeNotHeld
  deriving DecidableEq, Repr

/-- What the function reads of the port: its type and the token of the client. -/
structure ClientPort where
  isServerComm : Bool
  clientToken : Option AccessToken

/-- `AlpcImpersonateClientOfPort` on a thread with impersonation token `thr`, in a task with token
`cur`; the thread's impersonation token afterwards is returned. -/
def alpcImpersonateClientOfPort (m : ByteMem) (port : Option ClientPort)
    (thr cur : Option AccessToken) (user : Bool) : ImpersonateStatus × Option AccessToken :=
  match port with
  | none => (.invalidParameter, thr)
  | some port =>
    if !port.isServerComm then (.invalidPortHandle, thr)
    else match port.clientToken with
      | none => (.noToken, thr)
      | some client =>
        if client.impersonationLevel = .anonymous ∨ client.impersonationLevel = .identification then
          (.badImpersonationLevel, thr)
        else
          let serverEff := thr.or cur
          if user && !serverEff.any (noAmplification m client) &&
              !seSinglePrivilegeCheck serverEff seImpersonatePrivilege then
            (.privilegeNotHeld, thr)
          else (.success, some client)

section Subset

variable {m : ByteMem} {client server : AccessToken}

/-- An enabled group of the server that is not deny-only denies the client too. -/
def KeepsDenials (m : ByteMem) (client server : AccessToken) : Prop :=
  ∀ g ∈ server.groups, ∀ s, g.allows m s = true → client.denies m s = true

/-- An integrity group that allows something to the client allows it to the server. -/
def HoldsLabels (m : ByteMem) (client server : AccessToken) : Prop :=
  ∀ c ∈ client.groups, has c.attributes seGroupIntegrity = true →
    ∀ s, c.allows m s = true → server.allows m s = true

theorem namesSid_unique {p : ℕ} {s s' : List UInt8} (h : namesSid m p s = true)
    (h' : namesSid m p s' = true) : s = s' := by
  simp only [namesSid, and_eq_true, decide_eq_true_eq] at h h'
  rw [← h.2, h'.2]

theorem namesSid_congr {a b : ℕ} {s : List UInt8} (h : rtlEqualSid m a b = true) :
    namesSid m a s = namesSid m b s := by
  obtain ⟨s', ha, hb⟩ := rtlEqualSid_spec h
  rw [Bool.eq_iff_iff]
  exact ⟨fun hs => namesSid_unique ha hs ▸ hb, fun hs => namesSid_unique hb hs ▸ ha⟩

section

variable (h : noAmplification m client server = true)
include h

theorem noAmplification_user : rtlEqualSid m client.userSid server.userSid = true := by
  simp only [noAmplification, and_eq_true] at h
  exact h.1.1.1.2

theorem noAmplification_subset :
    (∀ p ∈ client.privileges, ∃ q ∈ server.privileges, p.luid = q.luid) ∧
    (∀ c ∈ client.groups, has c.attributes seGroupIntegrity = true ∨
      has c.attributes seGroupUseForDenyOnly = true ∨ groupHeld m server c = true) ∧
    ∀ g ∈ server.groups, has g.attributes seGroupUseForDenyOnly = true →
      stillDenied m client g = true := by
  simp only [noAmplification, alpcAuthorityIsSubset, and_eq_true, or_eq_true,
    all_eq_true, any_eq_true, decide_eq_true_eq] at h
  obtain ⟨⟨⟨-, hpriv⟩, hgroups⟩, hdeny⟩ := h.2
  refine ⟨hpriv, fun c hc => ?_, fun g hg hon => ?_⟩
  · rw [← or_assoc]
    exact (hgroups c hc).imp_right And.right
  · simpa [hon] using hdeny g hg |>.imp_right And.right

theorem allows_of_noAmplification
    (hlabel : HoldsLabels m client server) {s : List UInt8} (hs : client.allows m s = true) :
    server.allows m s = true := by
  rw [AccessToken.allows, or_eq_true, any_eq_true] at hs
  rcases hs with hs | ⟨c, hc, hs⟩
  · rw [AccessToken.allows, ← namesSid_congr (noAmplification_user h), hs, Bool.true_or]
  · rcases (noAmplification_subset h).2.1 c hc with hint | hden | hheld
    · exact hlabel c hc hint s hs
    · simp [SidAndAttributes.allows, hden] at hs
    · obtain ⟨g, hg, hsame⟩ := any_eq_true.mp hheld
      rw [AccessToken.allows, or_eq_true, any_eq_true]
      refine .inr ⟨g, hg, ?_⟩
      simp only [SidAndAttributes.allows, and_eq_true, decide_eq_true_eq] at hs hsame ⊢
      rw [← namesSid_congr hsame.1.1.2]
      exact ⟨⟨by simpa [hs.1.1] using hsame.2, hsame.1.2⟩, hs.2⟩

theorem denies_of_noAmplification
    (hkeep : KeepsDenials m client server) {s : List UInt8} (hs : server.denies m s = true) :
    client.denies m s = true := by
  rw [AccessToken.denies, or_eq_true, any_eq_true] at hs
  rcases hs with hs | ⟨g, hg, hs⟩
  · rw [AccessToken.denies, namesSid_congr (noAmplification_user h), hs, Bool.true_or]
  · cases hon : has g.attributes seGroupUseForDenyOnly with
    | false =>
      refine hkeep g hg s ?_
      simpa [SidAndAttributes.allows, SidAndAttributes.denies, hon] using hs
    | true =>
      have hstill := (noAmplification_subset h).2.2 g hg hon
      simp only [stillDenied, and_eq_true, all_eq_true, mem_filter] at hstill
      obtain ⟨c, hc, hnull, hsame⟩ : ∃ c ∈ client.groups, c.sid ≠ 0 ∧
          rtlEqualSid m g.sid c.sid = true := by
        simpa using hstill.1
      rw [AccessToken.denies, or_eq_true, any_eq_true]
      refine .inr ⟨c, hc, ?_⟩
      simp only [SidAndAttributes.denies, and_eq_true] at hs ⊢
      rw [← namesSid_congr hsame, hstill.2 c ⟨hc, by simp [hnull], hsame⟩, Bool.or_true]
      exact ⟨rfl, hs.2⟩

end

theorem noAmplification_of_success {port : ClientPort} {thr cur : Option AccessToken}
    (hclient : port.clientToken = some client) (hserver : thr.or cur = some server)
    (hok : (alpcImpersonateClientOfPort m (some port) thr cur true).1 = .success)
    (hpriv : seSinglePrivilegeCheck (thr.or cur) seImpersonatePrivilege = false) :
    noAmplification m client server = true := by
  by_contra hno
  rw [not_eq_true] at hno
  rw [hserver] at hpriv
  simp only [alpcImpersonateClientOfPort, hclient, hserver, hpriv, Option.any_some, hno] at hok
  split_ifs at hok
  simp_all

/-- A server that takes its client's token without the privilege gains no access exactly when the
client is denied whatever its enabled groups deny it, and the integrity groups of the client allow
nothing that the server is not allowed. -/
theorem impersonate_gains_nothing_iff {port : ClientPort} {thr cur : Option AccessToken}
    (hclient : port.clientToken = some client) (hserver : thr.or cur = some server)
    (hok : (alpcImpersonateClientOfPort m (some port) thr cur true).1 = .success)
    (hpriv : seSinglePrivilegeCheck (thr.or cur) seImpersonatePrivilege = false) :
    ((∀ dacl b, granted (client.allows m) (client.denies m) b dacl = true →
        granted (server.allows m) (server.denies m) b dacl = true) ∧
      ∀ p ∈ client.privileges, ∃ q ∈ server.privileges, p.luid = q.luid) ↔
    KeepsDenials m client server ∧ HoldsLabels m client server := by
  have h := noAmplification_of_success hclient hserver hok hpriv
  obtain ⟨u, hu, -⟩ := rtlEqualSid_spec (noAmplification_user h)
  rw [granted_mono_iff (u := u) (by rw [AccessToken.allows, hu, Bool.true_or]),
    and_iff_left (noAmplification_subset h).1]
  constructor
  · rintro ⟨ha, hd⟩
    refine ⟨fun g hg s hs => hd s ?_, fun c hc _ s hs => ha s ?_⟩
    · rw [AccessToken.denies, Bool.or_eq_true, any_eq_true]
      refine .inr ⟨g, hg, ?_⟩
      simp only [SidAndAttributes.allows, SidAndAttributes.denies, Bool.and_eq_true,
        Bool.or_eq_true] at hs ⊢
      exact ⟨.inl hs.1.1, hs.2⟩
    · rw [AccessToken.allows, Bool.or_eq_true, any_eq_true]
      exact .inr ⟨c, hc, hs⟩
  · rintro ⟨hkeep, hlabel⟩
    exact ⟨fun s => allows_of_noAmplification h hlabel, fun s => denies_of_noAmplification h hkeep⟩

/-- The SIDs `S-1-5-100`, `S-1-5-4` and the medium integrity label, at 16, 28 and 40. -/
def sampleSids : ByteMem := fun x =>
  ([1, 1, 0, 0, 0, 0, 0, 5, 100, 0, 0, 0, 1, 1, 0, 0, 0, 0, 0, 5, 4, 0, 0, 0,
    1, 1, 0, 0, 0, 0, 0, 16, 0, 32, 0, 0] : List UInt8).getD (x - 16) 0

def sampleToken (group : UInt32) : AccessToken :=
  { seCreateSystemToken ⟨0, 0, 0, 0, 0, 0, 0, 40⟩ (sePrivilegeLuid 0) (sePrivilegeLuid 0) 0 with
    userSid := 16, integrityLevelSid := 40, groups := [⟨28, group⟩], privileges := [] }

/-- The client disabled a group that the server has enabled: a DACL that denies the group first
grants the client token what it refuses the server. -/
theorem impersonate_gains : ∃ (client server : AccessToken) (dacl : List Ace),
    alpcImpersonateClientOfPort sampleSids (some ⟨true, some client⟩) none (some server) true =
      (.success, some client) ∧
    seSinglePrivilegeCheck (some server) seImpersonatePrivilege = false ∧
    granted (client.allows sampleSids) (client.denies sampleSids) 0 dacl = true ∧
    granted (server.allows sampleSids) (server.denies sampleSids) 0 dacl = false :=
  ⟨sampleToken 0, sampleToken seGroupEnabled,
    [⟨accessDeniedAceType, 0, 1, bytes sampleSids 28 12⟩,
      ⟨accessAllowedAceType, 0, 1, bytes sampleSids 16 12⟩], by decide⟩

/-- The client has the group for deny only, the server has it enabled. -/
theorem impersonate_gains_nothing_sample :
    KeepsDenials sampleSids (sampleToken 16) (sampleToken 4) ∧ ∀ dacl b,
      granted ((sampleToken 16).allows sampleSids) ((sampleToken 16).denies sampleSids) b dacl =
        true →
      granted ((sampleToken 4).allows sampleSids) ((sampleToken 4).denies sampleSids) b dacl =
        true := by
  have hkeep : KeepsDenials sampleSids (sampleToken 16) (sampleToken 4) := by
    intro g hg s hs
    obtain rfl := mem_singleton.mp hg
    simp only [SidAndAttributes.allows, and_eq_true] at hs
    simp [AccessToken.denies, SidAndAttributes.denies, sampleToken, hs.2, has,
      seGroupUseForDenyOnly]
  refine ⟨hkeep, ((impersonate_gains_nothing_iff
    (rfl : (ClientPort.mk true (some (sampleToken 16))).clientToken = some (sampleToken 16))
    (rfl : Option.or none (some (sampleToken 4)) = some (sampleToken 4))
    (by decide) (by decide)).mpr ⟨hkeep, ?_⟩).1⟩
  intro c hc hint
  obtain rfl := mem_singleton.mp hc
  exact absurd hint (by decide)

end Subset

end ImpossibleOs.Security.Token
