import ImpossibleOs.Security.Acl
import ImpossibleOs.Security.Assign

/-!
Inheritance of a DACL.

The rules of inheritance are stated on lists of ACEs: which parent ACEs a
child inherits, with which flags, denies before allows. The sizing pass of
`assign_security.c` computes the size of that list.
-/

namespace ImpossibleOs.Security

open ByteMem List
open Token (AccessToken)

/-! ### The rules -/

/-- Whether a child inherits a parent ACE with flags `pf`: files take object-inherit ACEs,
directories take container-inherit ones, and object-inherit ones to pass on. -/
def inherits (pf : UInt8) (isDir : Bool) : Bool :=
  let oi := pf &&& objectInheritAce ≠ 0
  let ci := pf &&& containerInheritAce ≠ 0
  let np := pf &&& noPropagateInheritAce ≠ 0
  if isDir then ci || (oi && !np) else oi

/-- Flags of the inherited copy. Only a directory's copy propagates, and not under
no-propagate; an ACE that a directory holds for its files only is inherit-only there. -/
def childFlags (pf : UInt8) (isDir : Bool) : UInt8 :=
  let oi := pf &&& objectInheritAce ≠ 0
  let ci := pf &&& containerInheritAce ≠ 0
  let np := pf &&& noPropagateInheritAce ≠ 0
  inheritedAce ||| (if isDir ∧ oi ∧ ¬ np then objectInheritAce else 0) |||
    (if isDir ∧ ci ∧ ¬ np then containerInheritAce else 0) |||
    (if isDir ∧ ¬ ci then inheritOnlyAce else 0)

def childAce (isDir : Bool) (a : Ace) : Ace := { a with flags := childFlags a.flags isDir }

/-- The inherited copies of the parent's ACEs of one type, in the parent's order. -/
def inheritedOf (type : UInt8) (isDir : Bool) (parent : List Ace) : List Ace :=
  (parent.filter fun a => a.type = type && inherits a.flags isDir).map (childAce isDir)

def inheritedDacl (isDir : Bool) (parent : List Ace) : List Ace :=
  inheritedOf accessDeniedAceType isDir parent ++ inheritedOf accessAllowedAceType isDir parent

theorem inheritChildFlags_eq (pf : UInt8) (isDir : Bool) :
    inheritChildFlags pf isDir =
      if inherits pf isDir then some (childFlags pf isDir) else none := by
  -- finitely many flags: compare the two on all of them
  obtain ⟨⟨n⟩⟩ := pf
  revert n isDir
  decide +kernel

@[simp] theorem isSome_inheritChildFlags (pf : UInt8) (isDir : Bool) :
    (inheritChildFlags pf isDir).isSome = inherits pf isDir := by
  rw [inheritChildFlags_eq]
  cases inherits pf isDir <;> rfl

@[simp] theorem childAce_size (isDir : Bool) (a : Ace) : (childAce isDir a).size = a.size := rfl

theorem inheritedOf_append (type : UInt8) (isDir : Bool) (l l' : List Ace) :
    inheritedOf type isDir (l ++ l') = inheritedOf type isDir l ++ inheritedOf type isDir l' := by
  simp [inheritedOf]

theorem inheritedOf_singleton (type : UInt8) (isDir : Bool) (a : Ace) :
    inheritedOf type isDir [a] =
      if a.type = type ∧ inherits a.flags isDir then [childAce isDir a] else [] := by
  by_cases h : a.type = type ∧ inherits a.flags isDir
  · simp [inheritedOf, h]
  · simp only [inheritedOf, if_neg h]
    simpa using h

variable {tok : Option AccessToken} {k : Kernel} {creator : Option SecurityDescriptor}
  {plan : AssignPlan} {l : List Ace}

theorem inheritedOf_take_succ {type : UInt8} {isDir : Bool} {i : ℕ} {a : Ace}
    (ha : l[i]? = some a) :
    inheritedOf type isDir (l.take (i + 1)) =
      inheritedOf type isDir (l.take i) ++
        if a.type = type ∧ inherits a.flags isDir then [childAce isDir a] else [] := by
  rw [take_add_one, ha, Option.toList_some, inheritedOf_append, inheritedOf_singleton]

theorem acesSize_inheritedOf_take_le (type : UInt8) (isDir : Bool) (l : List Ace) (i : ℕ) :
    acesSize (inheritedOf type isDir (l.take i)) ≤ acesSize (inheritedOf type isDir l) := by
  conv_rhs => rw [← take_append_drop i l, inheritedOf_append, acesSize_append]
  omega

theorem rtlGetAce_of_lt {m : ByteMem} {acl i : ℕ} (hnn : acl ≠ 0) (hi : i < aceCount m acl) :
    rtlGetAce m acl i = some (aceWalk m acl i) := by
  rw [rtlGetAce, if_neg]
  omega

theorem aceIsDaclType_iff (t : UInt8) :
    aceIsDaclType t = true ↔ t = accessAllowedAceType ∨ t = accessDeniedAceType := by
  simp [aceIsDaclType]

theorem inheritedDaclBytes_eq {m : ByteMem} {parent : SecurityDescriptor} (isDir : Bool)
    (hnn : parent.dacl ≠ 0) : inheritedDaclBytes m parent isDir =
      aclHeaderSize + acesSize (inheritedDacl isDir (aces m parent.dacl)) := by
  set l := aces m parent.dacl with hl
  -- after `i` turns the pass has sized what is inherited from the first `i` ACEs
  have hloop := Loop.foldl_range (n := aceCount m parent.dacl) (s := aclHeaderSize)
    (f := addInheritedAceBytes m parent isDir)
    (fun i b => b = aclHeaderSize + acesSize (inheritedDacl isDir (l.take i)))
    (by simp [inheritedDacl, inheritedOf]) ?_
  · rw [inheritedDaclBytes, hloop, take_of_length_le (by simp [hl])]
  · intro i hi b hb
    have hget : l[i]? = some (readAce m (aceWalk m parent.dacl i)) := getElem?_aces hi
    set a := readAce m (aceWalk m parent.dacl i) with ha
    have hsize :
        a.size = aceHeaderSize + 4 + rtlLengthSid m (aceSid (aceWalk m parent.dacl i)) := by
      rw [ha, readAce_size, rtlLengthSid_aceSid]
    have htype : aceType m (aceWalk m parent.dacl i) = a.type := rfl
    have hflags : aceFlags m (aceWalk m parent.dacl i) = a.flags := rfl
    rw [addInheritedAceBytes, rtlGetAce_of_lt hnn hi]
    simp only [isSome_inheritChildFlags, htype, hflags, ← hsize, Bool.and_eq_true,
      aceIsDaclType_iff]
    simp only [inheritedDacl, inheritedOf_take_succ hget, acesSize_append] at hb ⊢
    have hne : accessAllowedAceType ≠ accessDeniedAceType := by decide
    by_cases hinh : inherits a.flags isDir
    · by_cases hden : a.type = accessDeniedAceType
      · simp [hden, hinh, hne.symm, hb]
        omega
      · by_cases hall : a.type = accessAllowedAceType
        · simp [hall, hinh, hne, hb]
          omega
        · simp [hall, hden, hb]
    · simp [hinh, hb]

section Emission

variable {m : ByteMem} {parent : SecurityDescriptor} (isDir : Bool) {type : UInt8}
  {dst size : ℕ} {l : List Ace}

theorem emitInheritedAce_spec {i : ℕ} (hshape : AclShape m parent.dacl)
    (hi : i < aceCount m parent.dacl) (hbuilt : AclBuilt m dst size l)
    (hd : parent.dacl + aclSize m parent.dacl ≤ dst ∨ dst + size ≤ parent.dacl)
    (htype : type = accessDeniedAceType ∨ type = accessAllowedAceType) :
    let a := readAce m (aceWalk m parent.dacl i)
    let l' := l ++ if a.type = type ∧ inherits a.flags isDir then [childAce isDir a] else []
    aclHeaderSize + acesSize l' ≤ size →
    ∃ m', emitInheritedAce parent isDir type dst m i = some m' ∧ AclBuilt m' dst size l' ∧
      SameOutside dst (dst + size) m m' := by
  intro a l' hfit
  set p := aceWalk m parent.dacl i with hp
  have hget : rtlGetAce m parent.dacl i = some p := rtlGetAce_of_lt hshape.notNull hi
  by_cases hty : a.type = type
  swap
  · -- another type: skipped
    have hl' : l' = l := by simp [l', hty]
    refine ⟨m, ?_, by rwa [hl'], SameOutside.refl _ _ m⟩
    have hty' : aceType m p ≠ type := hty
    simp [emitInheritedAce, hget, hty']
  have hty' : aceType m p = type := hty
  have hflags : inheritChildFlags (aceFlags m p) isDir =
      if inherits a.flags isDir then some (childFlags a.flags isDir) else none :=
    inheritChildFlags_eq _ _
  by_cases hinh : inherits a.flags isDir
  swap
  · have hl' : l' = l := by simp [l', hinh]
    refine ⟨m, ?_, by rwa [hl'], SameOutside.refl _ _ m⟩
    rw [if_neg hinh] at hflags
    simp [emitInheritedAce, hget, hty', hflags]
  rw [if_pos hinh] at hflags
  have hl' : l' = l ++ [childAce isDir a] := by simp [l', hty, hinh]
  -- the source SID is inside the parent's ACL, hence outside the destination
  obtain ⟨hlo, hhi⟩ := hshape.inside i hi
  have hbody := (hshape.body i hi).1
  have hasize := readAce_size m p
  rw [← hp] at hlo hhi hbody
  have hlen := rtlLengthSid_aceSid m p
  have hhs : aclHeaderSize = 8 := rfl
  have has : aceHeaderSize = 4 := rfl
  have hsid : aceSid p = p + 8 := rfl
  have hlast : (childAce isDir a).size = aceHeaderSize + 4 + rtlLengthSid m (aceSid p) := by
    rw [childAce_size, show a = readAce m p from rfl, hasize, hlen]
  have hmask : aceMask m p < 2 ^ 32 := by
    have := readLE_lt m (p + aceHeaderSize) 4
    simpa [aceMask] using this
  rw [hl', acesSize_append, acesSize_cons, acesSize_nil, hlast] at hfit
  obtain ⟨m₁, hadd, hbuilt₁, hsame₁⟩ := aclAppendAce_spec type 0 hbuilt
    (show aceSid p ≠ 0 by omega) hmask (by omega) (by omega)
  obtain ⟨q, hq, hbuilt₂, hsame₂⟩ := hbuilt₁.stampFlags (childFlags a.flags isDir)
  refine ⟨_, ?_, ?_, hsame₁.trans hsame₂⟩
  · rw [emitInheritedAce, hget, Option.bind_some, if_neg (not_not.mpr hty'), hflags]
    rcases htype with rfl | rfl
    · have hadd' : rtlAddAccessDeniedAce m dst (aceMask m p) (aceSid p) = some m₁ := hadd
      simp [hadd', hq]
    · have hadd' : rtlAddAccessAllowedAce m dst (aceMask m p) (aceSid p) = some m₁ := hadd
      have hne : accessAllowedAceType ≠ accessDeniedAceType := by decide
      simp [hne, hadd', hq]
  · rw [hl']
    have hchild : Ace.mk type (childFlags a.flags isDir) (aceMask m p)
        (bytes m (aceSid p) (rtlLengthSid m (aceSid p))) = childAce isDir a := by
      rw [childAce, ← hty]
      rfl
    rw [← hchild]
    exact hbuilt₂

theorem emitInheritedPass_spec (hshape : AclShape m parent.dacl) (hbuilt : AclBuilt m dst size l)
    (hd : parent.dacl + aclSize m parent.dacl ≤ dst ∨ dst + size ≤ parent.dacl)
    (htype : type = accessDeniedAceType ∨ type = accessAllowedAceType)
    (hfit : aclHeaderSize + acesSize (l ++ inheritedOf type isDir (aces m parent.dacl)) ≤ size) :
    ∃ m', emitInheritedPass m dst parent isDir type = some m' ∧
      AclBuilt m' dst size (l ++ inheritedOf type isDir (aces m parent.dacl)) ∧
      SameOutside dst (dst + size) m m' := by
  set ps := aces m parent.dacl with hps
  have hloop := Loop.foldlM_range (n := aceCount m parent.dacl) (s := m)
    (f := emitInheritedAce parent isDir type dst)
    (fun i m' => AclBuilt m' dst size (l ++ inheritedOf type isDir (ps.take i)) ∧
      SameOutside dst (dst + size) m m')
    ⟨by simpa [inheritedOf] using hbuilt, SameOutside.refl _ _ m⟩ ?_
  · obtain ⟨m', hm', hb, hs⟩ := hloop
    rw [take_of_length_le (by simp [hps])] at hb
    exact ⟨m', hm', hb, hs⟩
  · rintro i hi m' ⟨hb, hs⟩
    -- the parent is read through memory that only the new block changed in
    have hag : AgreeOn parent.dacl (parent.dacl + aclSize m parent.dacl) m m' := hs.agreeOn hd
    obtain ⟨hcount, hsame⟩ := hshape.congr hag
    obtain ⟨hwalk, hread⟩ := hsame i hi
    have hshape' : AclShape m' parent.dacl := hshape.transport hag
    have hsize : aclSize m' parent.dacl = aclSize m parent.dacl := hshape.aclSize_congr hag
    have hget : ps[i]? = some (readAce m (aceWalk m parent.dacl i)) := getElem?_aces hi
    have hle := acesSize_inheritedOf_take_le type isDir ps (i + 1)
    rw [acesSize_append] at hfit
    obtain ⟨m'', hm'', hb'', hs''⟩ := emitInheritedAce_spec isDir (i := i) hshape'
      (by omega) hb (by omega) htype (by
        rw [hwalk, hread, append_assoc, ← inheritedOf_take_succ hget, acesSize_append]
        omega)
    rw [hwalk, hread, append_assoc, ← inheritedOf_take_succ hget] at hb''
    exact ⟨m'', hm'', hb'', hs.trans hs''⟩

end Emission

/-! ### The whole function -/

theorem round4_eq {n : ℕ} (h : n % 4 = 0) : round4 n = n := by
  unfold round4
  omega

theorem acesSize_mod_four (h : ∀ a ∈ l, a.size % 4 = 0) : acesSize l % 4 = 0 := by
  induction l with
  | nil => rfl
  | cons a l ih =>
    have ha := h a mem_cons_self
    have hl := ih fun b hb => h b (mem_cons_of_mem a hb)
    rw [acesSize_cons]
    omega

theorem mem_inheritedOf {type : UInt8} {isDir : Bool} {c : Ace} : c ∈ inheritedOf type isDir l ↔
      ∃ a ∈ l, a.type = type ∧ inherits a.flags isDir ∧ childAce isDir a = c := by
  simp [inheritedOf, and_assoc]

theorem mem_inheritedDacl {isDir : Bool} {c : Ace}
    (h : c ∈ inheritedDacl isDir l) : ∃ a ∈ l, childAce isDir a = c := by
  rcases mem_append.mp h with h | h
  all_goals
    obtain ⟨a, ha, -, -, hc⟩ := mem_inheritedOf.mp h
    exact ⟨a, ha, hc⟩

theorem inheritedDacl_size_mod (m : ByteMem) (acl : ℕ) (isDir : Bool) :
    acesSize (inheritedDacl isDir (aces m acl)) % 4 = 0 := by
  apply acesSize_mod_four
  intro c hc
  obtain ⟨a, ha, rfl⟩ := mem_inheritedDacl hc
  obtain ⟨i, -, rfl⟩ := mem_map.mp ha
  rw [childAce_size, readAce_size, aceHeaderSize]
  omega

theorem rtlCopySid_spec {m : ByteMem} {buf len src : ℕ} (hbuf : buf ≠ 0)
    (hvalid : rtlValidSid m src) (hlen : len = rtlLengthSid m src) :
    rtlCopySid m buf len src = some (copyUp m buf src len) := by
  have hsrc : src ≠ 0 := by
    intro h
    simp [rtlValidSid, h] at hvalid
  rw [rtlCopySid, if_neg (by omega), if_neg (by simpa using hvalid), if_neg (by omega), hlen]

theorem rtlSid_congr {m m' : ByteMem} (sid : ℕ) (h : AgreeOn sid (sid + rtlLengthSid m sid) m m') :
    rtlLengthSid m' sid = rtlLengthSid m sid ∧ rtlValidSid m' sid = rtlValidSid m sid := by
  by_cases hs : sid = 0
  · simp [rtlLengthSid, rtlValidSid, hs]
  have hlen : rtlLengthSid m sid = 8 + 4 * subAuthorityCount m sid := by simp [rtlLengthSid, hs]
  have hcount : subAuthorityCount m' sid = subAuthorityCount m sid := by
    rw [subAuthorityCount, h _ (by omega) (by omega), subAuthorityCount]
  refine ⟨?_, ?_⟩
  · rw [rtlLengthSid, rtlLengthSid, hcount]
  · rw [rtlValidSid, rtlValidSid, hcount, h sid le_rfl (by omega)]

theorem buildDacl_inherit {m : ByteMem} {parent : SecurityDescriptor} {isDir : Bool} {dacl : ℕ}
    (hsource : plan.source = .inherit) (hshape : AclShape m parent.dacl) (hdacl : dacl ≠ 0)
    (hbytes : plan.daclBytes = aclHeaderSize + acesSize (inheritedDacl isDir (aces m parent.dacl)))
    (hle : plan.daclBytes ≤ 0xFFFF)
    (hd : parent.dacl + aclSize m parent.dacl ≤ dacl ∨ dacl + plan.daclBytes ≤ parent.dacl) :
    ∃ m', buildDacl k m (some parent) isDir plan dacl = some m' ∧
      AclBuilt m' dacl plan.daclBytes (inheritedDacl isDir (aces m parent.dacl)) ∧
      SameOutside dacl (dacl + plan.daclBytes) m m' := by
  have hmod := inheritedDacl_size_mod m parent.dacl isDir
  have hhs : aclHeaderSize = 8 := rfl
  have hround : round4 plan.daclBytes = plan.daclBytes := round4_eq (by omega)
  obtain ⟨m₁, h₁, hb₁, hs₁⟩ := rtlCreateAcl_spec m hdacl
    (show aclHeaderSize ≤ plan.daclBytes by omega) (by omega)
  have hag₁ : AgreeOn parent.dacl (parent.dacl + aclSize m parent.dacl) m m₁ := hs₁.agreeOn hd
  have haces₁ := hshape.aces_congr hag₁
  rw [inheritedDacl, acesSize_append] at hbytes
  obtain ⟨m₂, h₂, hb₂, hs₂⟩ := emitInheritedPass_spec isDir
    (hshape.transport hag₁) hb₁ (by rw [hshape.aclSize_congr hag₁]; exact hd) (.inl rfl)
    (by rw [nil_append, haces₁]; omega)
  have hag₂ : AgreeOn parent.dacl (parent.dacl + aclSize m parent.dacl) m m₂ :=
    (hs₁.trans hs₂).agreeOn hd
  have haces₂ := hshape.aces_congr hag₂
  rw [nil_append, haces₁] at hb₂
  obtain ⟨m₃, h₃, hb₃, hs₃⟩ := emitInheritedPass_spec isDir
    (hshape.transport hag₂) hb₂ (by rw [hshape.aclSize_congr hag₂]; exact hd) (.inr rfl)
    (by rw [acesSize_append, haces₂]; omega)
  rw [haces₂] at hb₃
  refine ⟨m₃, ?_, hb₃, (hs₁.trans hs₂).trans hs₃⟩
  simp [buildDacl, hsource, hround, h₁, h₂, h₃]

/-- `[a, a + n)` and `[b, b + k)` do not meet. -/
def Apart (a n b k : ℕ) : Prop := a + n ≤ b ∨ b + k ≤ a

theorem assignBuild_inherit (k : Kernel) {m : ByteMem} {parent : SecurityDescriptor} (isDir : Bool)
    (plan : AssignPlan) {ownerLen groupLen block : ℕ} (hsource : plan.source = .inherit)
    (hdef : plan.daclDefaulted = false) (hprot : childProtected creator = false)
    (hshape : AclShape m parent.dacl) (hbytes : plan.daclBytes =
      aclHeaderSize + acesSize (inheritedDacl isDir (aces m parent.dacl)))
    (hle : plan.daclBytes ≤ 0xFFFF) (howner : rtlValidSid m plan.ownerSid)
    (hgroup : plan.groupSid ≠ 0 → rtlValidSid m plan.groupSid)
    (hol : ownerLen = rtlLengthSid m plan.ownerSid) (hgl : groupLen = rtlLengthSid m plan.groupSid)
    (hap : Apart parent.dacl (aclSize m parent.dacl) block
      (round4 securityDescriptorSize + round4 plan.daclBytes + round4 ownerLen + round4 groupLen))
    (hao : Apart plan.ownerSid ownerLen block
      (round4 securityDescriptorSize + round4 plan.daclBytes + round4 ownerLen + round4 groupLen))
    (hag : Apart plan.groupSid groupLen block
      (round4 securityDescriptorSize + round4 plan.daclBytes + round4 ownerLen + round4 groupLen)) :
    ∃ m' sd, assignBuild k m (some parent) creator isDir plan ownerLen groupLen block =
        ⟨m', .success, some (block, sd)⟩ ∧ sd.control = seDaclPresent ||| seDaclAutoInherited ∧
      AclBuilt m' sd.dacl plan.daclBytes (inheritedDacl isDir (aces m parent.dacl)) := by
  have hmod := inheritedDacl_size_mod m parent.dacl isDir
  have hhs : aclHeaderSize = 8 := rfl
  have hround : round4 plan.daclBytes = plan.daclBytes := round4_eq (by omega)
  have hsd : round4 securityDescriptorSize = 40 := rfl
  have hro : ownerLen ≤ round4 ownerLen := by unfold round4; omega
  have hne : plan.source ≠ .explicitNull := by rw [hsource]; simp
  rw [hround, hsd] at hap hao hag
  unfold Apart at hap hao hag
  set dacl := block + 40 with hdacl
  obtain ⟨m₁, h₁, hb₁, hs₁⟩ := buildDacl_inherit (k := k) hsource hshape
    (show dacl ≠ 0 by omega) hbytes hle (by omega)
  -- the owner's SID goes right after the DACL
  obtain ⟨hlo₁, hvo₁⟩ := rtlSid_congr plan.ownerSid (hs₁.agreeOn (by omega))
  have h₂ : rtlCopySid m₁ (dacl + plan.daclBytes) ownerLen plan.ownerSid =
      some (copyUp m₁ (dacl + plan.daclBytes) plan.ownerSid ownerLen) :=
    rtlCopySid_spec (by omega) (by rw [hvo₁]; exact howner) (by rw [hlo₁]; exact hol)
  have hs₂ : SameOutside (dacl + plan.daclBytes) (dacl + plan.daclBytes + ownerLen) m₁
      (copyUp m₁ (dacl + plan.daclBytes) plan.ownerSid ownerLen) :=
    sameOutside_copyUp le_rfl le_rfl
  set m₂ := copyUp m₁ (dacl + plan.daclBytes) plan.ownerSid ownerLen
  have hb₂ : AclBuilt m₂ dacl plan.daclBytes _ := hb₁.congr (hs₂.agreeOn (by omega))
  unfold assignBuild
  simp only [if_neg hne, hround, hsd, ← hdacl, h₁, h₂]
  by_cases hg : plan.groupSid = 0
  · refine ⟨m₂, _, by rw [if_pos hg], ?_, ?_⟩
    · simp [hprot, hsource, hdef, rtlSetDaclSecurityDescriptor, rtlSetOwnerSecurityDescriptor,
        rtlCreateSecurityDescriptor, putFlag, seDaclPresent, seDaclDefaulted]
    · exact hb₂
  · have hout₂ : SameOutside block (block + (40 + plan.daclBytes + ownerLen)) m m₂ :=
      (hs₁.mono (by omega) (by omega)).trans (hs₂.mono (by omega) (by omega))
    obtain ⟨hlg₂, hvg₂⟩ := rtlSid_congr plan.groupSid (hout₂.agreeOn (by omega))
    have h₃ : rtlCopySid m₂ (dacl + plan.daclBytes + round4 ownerLen) groupLen plan.groupSid =
        some (copyUp m₂ (dacl + plan.daclBytes + round4 ownerLen) plan.groupSid groupLen) :=
      rtlCopySid_spec (by omega) (by rw [hvg₂]; exact hgroup hg) (by rw [hlg₂]; exact hgl)
    simp only [if_neg hg, h₃]
    refine ⟨_, _, rfl, ?_, ?_⟩
    · simp [hprot, hsource, hdef, rtlSetDaclSecurityDescriptor, rtlSetOwnerSecurityDescriptor,
        rtlSetGroupSecurityDescriptor, rtlCreateSecurityDescriptor, putFlag, seDaclPresent,
        seDaclDefaulted]
    · exact hb₂.congr (agreeOn_copyUp (by omega))

theorem parentHasInheritableOf_iff {isType : UInt8 → Bool} {m : ByteMem}
    {parent : SecurityDescriptor} {isDir : Bool} (hshape : daclShapeOk m parent.dacl) :
    parentHasInheritableOf isType m (some parent) isDir ↔
      ∃ a ∈ aces m parent.dacl, isType a.type ∧ inherits a.flags isDir := by
  have hnn : parent.dacl ≠ 0 := by
    intro h
    simp [daclShapeOk, h] at hshape
  simp only [parentHasInheritableOf, hshape, Bool.true_and, any_eq_true, mem_range, aces,
    mem_map]
  constructor
  · rintro ⟨i, hi, h⟩
    rw [rtlGetAce_of_lt hnn hi] at h
    simp only [isSome_inheritChildFlags, Bool.and_eq_true] at h
    exact ⟨_, ⟨i, hi, rfl⟩, h⟩
  · rintro ⟨a, ⟨i, hi, rfl⟩, h⟩
    refine ⟨i, hi, ?_⟩
    rw [rtlGetAce_of_lt hnn hi]
    simp only [isSome_inheritChildFlags, Bool.and_eq_true]
    exact h

theorem assignPlan_ok {m : ByteMem} {parent creator : Option SecurityDescriptor} {isDir : Bool}
    (h : assignPlan k m parent creator isDir tok = .ok plan) :
    rtlValidSid m (ownerSidOf creator tok) ∧
      (groupSidOf creator tok ≠ 0 → rtlValidSid m (groupSidOf creator tok)) ∧
      (creatorExplicit creator = false → childProtected creator = false →
        parentHasInheritableCallback m parent isDir = false) ∧
      pickDacl k m parent creator isDir tok (ownerSidOf creator tok) (groupSidOf creator tok) =
        .ok plan ∧ plan.daclBytes ≤ 0xFFFF := by
  simp only [assignPlan, bind, Except.bind, pure, Except.pure, throw, throwThe,
    MonadExceptOf.throw] at h
  split at h
  · simp at h
  split at h
  · simp at h
  rename_i howner
  split at h
  · simp at h
  rename_i hgroup
  split at h
  · simp at h
  rename_i hcallback
  split at h
  · simp at h
  rename_i plan' hpick
  split at h
  · simp at h
  rename_i hbytes
  split at h
  · simp at h
  obtain rfl : plan' = plan := by simpa using h
  refine ⟨by simpa using howner, ?_, ?_, hpick, not_lt.mp hbytes⟩
  · intro hg
    simpa [hg] using hgroup
  · intro he hp
    simpa [he, hp] using hcallback

theorem pickDacl_inherit {m : ByteMem} {parent : SecurityDescriptor} {isDir : Bool}
    {owner group : ℕ} (hexp : creatorExplicit creator = false)
    (hprot : childProtected creator = false) (hinh : parentHasInheritable m (some parent) isDir)
    (h : pickDacl k m (some parent) creator isDir tok owner group = .ok plan) :
    plan = ⟨owner, group, .inherit, 0, inheritedDaclBytes m parent isDir, false⟩ := by
  simp only [pickDacl, hexp, hprot, hinh, Bool.not_false, Bool.and_self, if_true] at h
  simpa using h.symm

/-- The heap as its callers see it: a new block is not part of live memory, and allocating it
changes none. -/
def FreshBlocks (k : Kernel) (m : ByteMem) (live : ℕ → Prop) : Prop :=
  ∀ size, (k.kmallocZeroed m size).2 ≠ 0 → ∀ x, live x →
    (k.kmallocZeroed m size).1 x = m x ∧
      (x < (k.kmallocZeroed m size).2 ∨ (k.kmallocZeroed m size).2 + size ≤ x)

/-- `n` live bytes at `a`. -/
def LiveRange (live : ℕ → Prop) (a n : ℕ) : Prop := ∀ x, a ≤ x → x < a + n → live x

/-- The arguments are kernel memory in use: the parent's DACL and the SIDs of the new owner
and group. -/
structure InputsLive (m : ByteMem) (parent creator : Option SecurityDescriptor)
    (tok : Option AccessToken) (live : ℕ → Prop) : Prop where
  parent : ∀ p, parent = some p → LiveRange live p.dacl (aclSize m p.dacl)
  owner : LiveRange live (ownerSidOf creator tok) (rtlLengthSid m (ownerSidOf creator tok))
  group : LiveRange live (groupSidOf creator tok) (rtlLengthSid m (groupSidOf creator tok))

theorem FreshBlocks.range {m : ByteMem} {live : ℕ → Prop} (h : FreshBlocks k m live)
    {size a n : ℕ} (hp : (k.kmallocZeroed m size).2 ≠ 0) (hsize : 0 < size)
    (hn : 0 < n) (hlive : LiveRange live a n) : AgreeOn a (a + n) m (k.kmallocZeroed m size).1 ∧
      Apart a n (k.kmallocZeroed m size).2 size := by
  refine ⟨fun x hx hx' => (h size hp x (hlive x hx hx')).1, ?_⟩
  unfold Apart
  by_contra hmeet
  -- the larger of the two starts is in both ranges
  have hx := (h size hp (max a (k.kmallocZeroed m size).2)
    (hlive _ (by omega) (by omega))).2
  omega

theorem seAssignSecurity_of_alloc {m : ByteMem} {parent : SecurityDescriptor} {isDir : Bool}
    {live : ℕ → Prop} (hfresh : FreshBlocks k m live)
    (hin : InputsLive m (some parent) creator tok live) (hshape : daclShapeOk m parent.dacl)
    (hexp : creatorExplicit creator = false) (hprot : childProtected creator = false)
    (hinh : parentHasInheritable m (some parent) isDir)
    (hplan : assignPlan k m (some parent) creator isDir tok = .ok plan)
    (halloc : (k.kmallocZeroed m (plan.total m)).2 ≠ 0) :
    ∃ m' block sd, seAssignSecurity k m (some parent) creator isDir tok true =
        ⟨m', .success, some (block, sd)⟩ ∧ sd.control = seDaclPresent ||| seDaclAutoInherited ∧
      AclBuilt m' sd.dacl (inheritedDaclBytes m parent isDir)
        (inheritedDacl isDir (aces m parent.dacl)) := by
  obtain ⟨howner, hgroup, -, hpick, hle⟩ := assignPlan_ok hplan
  obtain rfl := pickDacl_inherit hexp hprot hinh hpick
  have hacl : AclShape m parent.dacl := by
    simp only [daclShapeOk, Bool.and_eq_true] at hshape
    exact aclShape_of_rtlValidAcl hshape.2
  have hbytes := inheritedDaclBytes_eq (m := m) isDir hacl.notNull
  have hheader := hacl.header
  have hhs : aclHeaderSize = 8 := rfl
  set plan : AssignPlan := ⟨ownerSidOf creator tok, groupSidOf creator tok, .inherit, 0,
    inheritedDaclBytes m parent isDir, false⟩
  have htotal : 0 < plan.total m := by
    have hsd : round4 securityDescriptorSize = 40 := rfl
    unfold AssignPlan.total
    omega
  have holen : rtlLengthSid m (ownerSidOf creator tok) =
      8 + 4 * subAuthorityCount m (ownerSidOf creator tok) := by
    rw [rtlLengthSid, if_neg]
    intro h
    simp [rtlValidSid, h] at howner
  obtain ⟨hpa, hpd⟩ := hfresh.range halloc htotal (by omega) (hin.parent parent rfl)
  obtain ⟨hoa, hod⟩ := hfresh.range halloc htotal (by omega) hin.owner
  have hg : AgreeOn (groupSidOf creator tok) (groupSidOf creator tok +
        rtlLengthSid m (groupSidOf creator tok)) m (k.kmallocZeroed m (plan.total m)).1 ∧
      Apart (groupSidOf creator tok) (rtlLengthSid m (groupSidOf creator tok))
        (k.kmallocZeroed m (plan.total m)).2 (plan.total m) := by
    by_cases h0 : groupSidOf creator tok = 0
    · have hl0 : rtlLengthSid m (groupSidOf creator tok) = 0 := by simp [rtlLengthSid, h0]
      rw [hl0, h0]
      exact ⟨fun x _ hx => by omega, .inl (by omega)⟩
    · refine hfresh.range halloc htotal ?_ hin.group
      rw [rtlLengthSid, if_neg h0]
      omega
  obtain ⟨hga, hgd⟩ := hg
  have haces := hacl.aces_congr hpa
  obtain ⟨hol, hov⟩ := rtlSid_congr _ hoa
  obtain ⟨hgl, hgv⟩ := rtlSid_congr _ hga
  obtain ⟨m', sd, hbuild, hctl, hb⟩ := assignBuild_inherit k isDir plan rfl rfl hprot
    (hacl.transport hpa)
    (by rw [haces]; exact hbytes) hle (by rw [← howner]; exact hov)
    (fun h => by rw [← hgroup h]; exact hgv) hol.symm hgl.symm
    (by rw [hacl.aclSize_congr hpa]; exact hpd) hod hgd
  rw [haces] at hb
  refine ⟨m', (k.kmallocZeroed m (plan.total m)).2, sd, ?_, hctl, hb⟩
  rw [seAssignSecurity, hplan]
  simpa only [Bool.not_true, Bool.false_eq_true, if_false, if_neg halloc] using hbuild

theorem seAssignSecurity_fail {m : ByteMem}
    {parent creator : Option SecurityDescriptor} {isDir hasOut : Bool}
    (h : (seAssignSecurity k m parent creator isDir tok hasOut).status ≠ .success) :
    (seAssignSecurity k m parent creator isDir tok hasOut).newSD = none := by
  have hbuild : ∀ m' plan ol gl block,
      (assignBuild k m' parent creator isDir plan ol gl block).status ≠ .success →
      (assignBuild k m' parent creator isDir plan ol gl block).newSD = none := by
    intro m' plan ol gl block
    unfold assignBuild
    dsimp only
    split
    · exact fun _ => rfl
    split
    · exact fun _ => rfl
    split
    · exact fun h => absurd rfl h
    split
    · exact fun _ => rfl
    · exact fun h => absurd rfl h
  unfold seAssignSecurity at h ⊢
  split
  · rfl
  split
  · rfl
  rename_i hout _ plan hplan
  rw [if_neg hout, hplan] at h
  dsimp only at h ⊢
  split
  · rfl
  · rename_i halloc
    rw [if_neg halloc] at h
    exact hbuild _ _ _ _ _ h

theorem pickDacl_ne_error_success {m : ByteMem}
    {parent creator : Option SecurityDescriptor} {isDir : Bool} {owner group : ℕ} :
    pickDacl k m parent creator isDir tok owner group ≠ .error .success := by
  unfold pickDacl
  dsimp only
  split_ifs <;> simp

theorem assignPlan_ne_error_success {m : ByteMem}
    {parent creator : Option SecurityDescriptor} {isDir : Bool} :
    assignPlan k m parent creator isDir tok ≠ .error .success := by
  simp only [assignPlan, bind, Except.bind, pure, Except.pure, throw, throwThe,
    MonadExceptOf.throw]
  split
  · simp
  split
  · simp
  split
  · simp
  split
  · simp
  split
  · rename_i err herr
    intro h
    rw [Except.error.injEq] at h
    exact pickDacl_ne_error_success (h ▸ herr)
  · split_ifs <;> simp

theorem plan_of_success {m : ByteMem} {parent creator : Option SecurityDescriptor}
    {isDir hasOut : Bool}
    (h : (seAssignSecurity k m parent creator isDir tok hasOut).status = .success) :
    hasOut = true ∧ ∃ plan, assignPlan k m parent creator isDir tok = .ok plan ∧
      (k.kmallocZeroed m (plan.total m)).2 ≠ 0 := by
  unfold seAssignSecurity at h
  split at h
  · contradiction
  rename_i hout
  split at h
  · rename_i s hs
    obtain rfl : s = .success := h
    exact absurd hs assignPlan_ne_error_success
  rename_i plan hplan
  refine ⟨by simpa using hout, plan, hplan, ?_⟩
  intro h0
  rw [if_pos h0] at h
  contradiction

/-- Inheritance by `SeAssignSecurity`. A call that fails leaves no descriptor. When the creator
does not rule inheritance out and the parent's valid DACL has something to inherit: once the
block is allocated the call succeeds; the child's DACL is the inherited one, fills exactly the
bytes the sizing pass computed and passes `RtlValidAcl`. And no call that succeeds drops a
deny ACE of the parent, conditional or not, that the child inherits. -/
theorem seAssignSecurity_inheritance (k : Kernel) (m : ByteMem)
    (parent creator : Option SecurityDescriptor) (isDir : Bool) (tok : Option AccessToken)
    (hasOut : Bool) (live : ℕ → Prop) (hfresh : FreshBlocks k m live)
    (hin : InputsLive m parent creator tok live) :
    let r := seAssignSecurity k m parent creator isDir tok hasOut
    (r.status ≠ .success → r.newSD = none) ∧
    ∀ p, parent = some p → daclShapeOk m p.dacl → creatorExplicit creator = false →
      childProtected creator = false →
      ((∃ a ∈ aces m p.dacl, aceIsDaclType a.type ∧ inherits a.flags isDir) →
        (hasOut → ∀ plan, assignPlan k m parent creator isDir tok = .ok plan →
          (k.kmallocZeroed m (plan.total m)).2 ≠ 0 → r.status = .success) ∧
        (r.status = .success → ∃ block sd, r.newSD = some (block, sd) ∧
          sd.control = seDaclPresent ||| seDaclAutoInherited ∧
          aces r.mem sd.dacl = inheritedDacl isDir (aces m p.dacl) ∧
          aceWalk r.mem sd.dacl (aceCount r.mem sd.dacl) =
            sd.dacl + inheritedDaclBytes m p isDir ∧
          aclSize r.mem sd.dacl = inheritedDaclBytes m p isDir ∧
          rtlValidAcl r.mem sd.dacl (aclSize r.mem sd.dacl))) ∧
      (r.status = .success → ∀ a ∈ aces m p.dacl,
        a.type = accessDeniedAceType ∨ a.type = accessDeniedCallbackAceType →
        inherits a.flags isDir →
        ∃ block sd, r.newSD = some (block, sd) ∧ a.type = accessDeniedAceType ∧
          childAce isDir a ∈ aces r.mem sd.dacl) := by
  intro r
  refine ⟨seAssignSecurity_fail, ?_⟩
  rintro p rfl hshape hexp hprot
  have hacl : AclShape m p.dacl := by
    simp only [daclShapeOk, Bool.and_eq_true] at hshape
    exact aclShape_of_rtlValidAcl hshape.2
  refine ⟨fun hsome => ⟨?_, ?_⟩, ?_⟩
  · intro hout plan hplan halloc
    have hinh := (parentHasInheritableOf_iff hshape).mpr hsome
    obtain ⟨m', block, sd, hr, -⟩ :=
      seAssignSecurity_of_alloc hfresh hin hshape hexp hprot hinh hplan halloc
    simp only [r, hout, hr]
  · intro hsuccess
    obtain ⟨rfl, plan, hplan, halloc⟩ := plan_of_success hsuccess
    have hinh := (parentHasInheritableOf_iff hshape).mpr hsome
    obtain ⟨m', block, sd, hr, hctl, hb⟩ :=
      seAssignSecurity_of_alloc hfresh hin hshape hexp hprot hinh hplan halloc
    refine ⟨block, sd, by simp only [r, hr], hctl, ?_, ?_, ?_, ?_⟩
    all_goals simp only [r, hr]
    · exact hb.aces_eq
    · rw [hb.count, hb.aceWalk_count, inheritedDaclBytes_eq isDir hacl.notNull, Nat.add_assoc]
    · exact hb.sizeEq
    · rw [hb.sizeEq]
      apply hb.valid
      intro c hc
      obtain ⟨a, ha, rfl⟩ := mem_inheritedDacl hc
      show aceIsSidBearing a.type ∧ SidValid a.sid
      exact hacl.mem_aces ha
  · intro hsuccess a ha htype hflags
    obtain ⟨rfl, plan, hplan, halloc⟩ := plan_of_success hsuccess
    obtain ⟨-, -, hcallback, -, -⟩ := assignPlan_ok hplan
    -- a conditional deny would have stopped the call
    have hdenied : a.type = accessDeniedAceType := by
      rcases htype with h | h
      · exact h
      · have hcb : parentHasInheritableCallback m (some p) isDir = true :=
          (parentHasInheritableOf_iff hshape).mpr ⟨a, ha, by rw [h]; decide, hflags⟩
        rw [hcallback hexp hprot] at hcb
        contradiction
    have hinh : parentHasInheritable m (some p) isDir = true :=
      (parentHasInheritableOf_iff hshape).mpr ⟨a, ha, by rw [hdenied]; decide, hflags⟩
    obtain ⟨m', block, sd, hr, -, hb⟩ :=
      seAssignSecurity_of_alloc hfresh hin hshape hexp hprot hinh hplan halloc
    refine ⟨block, sd, by simp only [r, hr], hdenied, ?_⟩
    simp only [r, hr, hb.aces_eq]
    exact mem_append_left _ (mem_inheritedOf.mpr ⟨a, ha, hdenied, hflags, rfl⟩)

/-- A parent DACL that allows Everyone and then denies LocalSystem on files only; the owner's
SID stands after it. -/
def sampleBytes : List UInt8 :=
  [2, 0, 48, 0, 2, 0, 0, 0] ++
  [0, 3, 20, 0, 0xFF, 0, 0, 0, 1, 1, 0, 0, 0, 0, 0, 1, 0, 0, 0, 0] ++
  [1, 1, 20, 0, 2, 0, 0, 0, 1, 1, 0, 0, 0, 0, 0, 5, 18, 0, 0, 0] ++
  [1, 1, 0, 0, 0, 0, 0, 5, 18, 0, 0, 0]

def sampleMem : ByteMem := fun x => sampleBytes.getD (x - 16) 0

def sampleParent : SecurityDescriptor := ⟨1, seDaclPresent, 0, 0, 0, 16⟩

/-- A heap whose next block is at 4096. -/
def sampleKernel : Kernel where
  kmallocZeroed m size := (zeroRange m 4096 size, 4096)
  kfree m _ := m
  seLocalSystemSid := 64
  seWorldSid := 32

/-- A token of the user with the SID at 64. -/
def sampleUser : AccessToken :=
  Token.seCreateSystemToken ⟨64, 0, 0, 0, 0, 0, 0, 0⟩ ⟨0, 0⟩ ⟨0, 0⟩ 0

/-- On a new directory the deny comes first, kept for the files below it. -/
theorem seAssignSecurity_inheritance_sample :
    ∃ block sd, (seAssignSecurity sampleKernel sampleMem (some sampleParent) none true
        (some sampleUser) true).newSD = some (block, sd) ∧
      aces (seAssignSecurity sampleKernel sampleMem (some sampleParent) none true
        (some sampleUser) true).mem sd.dacl = [⟨1, 0x19, 2, [1, 1, 0, 0, 0, 0, 0, 5, 18, 0, 0, 0]⟩,
          ⟨0, 0x13, 0xFF, [1, 1, 0, 0, 0, 0, 0, 1, 0, 0, 0, 0]⟩] := by
  have hfresh : FreshBlocks sampleKernel sampleMem (fun x => x < 4096) := by
    intro size _ x hx
    exact ⟨agreeOn_zeroRange (b := x) (e := 4096) (.inl le_rfl) x le_rfl hx, .inl hx⟩
  have hin : InputsLive sampleMem (some sampleParent) none (some sampleUser)
      (fun x => x < 4096) := by
    have hsize : aclSize sampleMem sampleParent.dacl = 48 := by decide
    have hparent : sampleParent.dacl = 16 := rfl
    refine ⟨?_, ?_, ?_⟩
    · rintro p ⟨⟩ x _ hx
      rw [hsize, hparent] at hx
      omega
    · intro x _ hx
      have hlen : rtlLengthSid sampleMem 64 = 12 := by decide
      have hx' : x < 64 + rtlLengthSid sampleMem 64 := hx
      omega
    · intro x _ hx
      have hx' : x < 0 + 0 := hx
      omega
  have hplan : assignPlan sampleKernel sampleMem (some sampleParent) none true
      (some sampleUser) = .ok ⟨64, 0, .inherit, 0, 48, false⟩ := by rfl
  obtain ⟨hsome, -⟩ := (seAssignSecurity_inheritance sampleKernel sampleMem (some sampleParent) none
    true (some sampleUser) true (fun x => x < 4096) hfresh hin).2 sampleParent rfl
      (by decide)
    rfl rfl
  obtain ⟨hok, hspec⟩ := hsome ⟨⟨1, 1, 2, [1, 1, 0, 0, 0, 0, 0, 5, 18, 0, 0, 0]⟩,
    by decide, by decide, by decide⟩
  obtain ⟨block, sd, hnew, -, haces, -⟩ := hspec (hok rfl _ hplan (by decide))
  refine ⟨block, sd, hnew, ?_⟩
  rw [haces]
  decide

end ImpossibleOs.Security
