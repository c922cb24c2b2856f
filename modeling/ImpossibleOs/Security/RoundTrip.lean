import ImpossibleOs.Security.Relative

/-!
The round trip of a security descriptor.

Packing leaves a buffer in which every component that is there has its offset in
the header and its bytes at that offset, and every other one the offset 0.
Unpacking such a buffer gives the components back at a new place.
-/

namespace ImpossibleOs.Security

open ByteMem List Nat

/-! ### The packed buffer -/

/-- The component of a header field has these bytes, and they end before `cur`. -/
def Holds (m : ByteMem) (rel cur field : ℕ) (content : List UInt8) : Prop :=
  ∃ off, readLE m (rel + field) 4 = (if content = [] then 0 else off) ∧ relHeaderSize ≤ off ∧
    off + content.length ≤ cur ∧ bytes m (rel + off) content.length = content

variable {m m' : ByteMem} {content : List UInt8}

theorem Holds.congr {rel cur cur' field : ℕ} (h : Holds m rel cur field content) (hcur : cur ≤ cur')
    (hfield : AgreeOn (rel + field) (rel + field + 4) m m')
    (hbody : AgreeOn (rel + relHeaderSize) (rel + cur) m m') : Holds m' rel cur' field content := by
  obtain ⟨off, hoff, hge, hle, hbytes⟩ := h
  refine ⟨off, ?_, hge, by omega, ?_⟩
  · rw [readLE_congr hfield, hoff]
  · rw [bytes_congr (hbody.mono (by omega) (by omega)), hbytes]

/-- A buffer on the way: `placed` are the fields done, with their bytes, `left` those to come. -/
structure Packing (m₀ mh m : ByteMem) (rel needed cur : ℕ) (placed : List (ℕ × List UInt8))
    (left : List ℕ) : Prop where
  outside : SameOutside rel (rel + needed) m₀ m
  header : AgreeOn rel (rel + 4) mh m
  holds : ∀ p ∈ placed, Holds m rel cur p.1 p.2
  zero : ∀ f ∈ left, readLE m (rel + f) 4 = 0
  fields : ∀ f, f ∈ placed.map Prod.fst ∨ f ∈ left → 4 ≤ f ∧ f + 4 ≤ relHeaderSize ∧ f % 4 = 0
  distinct : (placed.map Prod.fst ++ left).Nodup
  start : relHeaderSize ≤ cur

theorem length_of_absent {src len : ℕ} (hsrc : src = 0 → len = 0) (h : ¬ (src ≠ 0 ∧ len ≠ 0)) :
    len = 0 := by
  by_contra hlen
  exact h ⟨fun h0 => hlen (hsrc h0), hlen⟩

theorem putComponent_outside {m : ByteMem} {rel field src len cur x : ℕ}
    (hfield : x < rel + field ∨ rel + field + 4 ≤ x) (hbody : x < rel + cur ∨ rel + cur + len ≤ x) :
    (putComponent rel field src len (m, cur)).1 x = m x := by
  rw [putComponent]
  split
  · dsimp only
    have hcopy := @sameOutside_copyUp (writeLE m (rel + field) 4 cur) (rel + cur) src len
      (rel + cur) (rel + cur + len) le_rfl le_rfl x hbody
    rw [hcopy]
    exact writeLE_of_lt hfield
  · rfl

theorem putComponent_snd {m : ByteMem} {rel field src len cur : ℕ} (hsrc : src = 0 → len = 0) :
    (putComponent rel field src len (m, cur)).2 = cur + len := by
  rw [putComponent]
  split
  · rfl
  · rename_i h
    rw [length_of_absent hsrc h]
    rfl

theorem putComponent_holds {m : ByteMem} {rel field src len cur : ℕ}
    (hfield : field + 4 ≤ relHeaderSize) (hcur : relHeaderSize ≤ cur) (hlt : cur < 2 ^ 32)
    (hsrc : src = 0 → len = 0) (hzero : readLE m (rel + field) 4 = 0)
    (hapart : src + len ≤ rel ∨ rel + cur + len ≤ src) :
    Holds (putComponent rel field src len (m, cur)).1 rel (cur + len) field (bytes m src len) := by
  refine ⟨cur, ?_, hcur, by simp, ?_⟩
  · rw [putComponent]
    split
    · rename_i h
      have hne : bytes m src len ≠ [] := by
        intro h0
        exact h.2 (by simpa using congrArg List.length h0)
      rw [if_neg hne]
      dsimp only
      rw [readLE_congr (agreeOn_copyUp (by omega)), readLE_writeLE_same]
      exact mod_eq_of_lt hlt
    · rename_i h
      obtain rfl := length_of_absent hsrc h
      exact hzero
  · rw [length_bytes, putComponent]
    split
    · dsimp only
      rw [bytes_copyUp (by omega)]
      exact bytes_congr (agreeOn_writeLE (by omega))
    · rename_i h
      obtain rfl := length_of_absent hsrc h
      rfl

theorem Packing.put {m₀ mh m : ByteMem} {rel needed cur field src len : ℕ}
    {placed : List (ℕ × List UInt8)} {left : List ℕ} {st : ByteMem × ℕ}
    (h : Packing m₀ mh m rel needed cur placed (field :: left))
    (hst : putComponent rel field src len (m, cur) = st) (hfit : cur + len ≤ needed)
    (hlt : needed < 2 ^ 32) (hsrc : src = 0 → len = 0)
    (hapart : src + len ≤ rel ∨ rel + needed ≤ src) :
    Packing m₀ mh st.1 rel needed (cur + len) ((field, bytes m₀ src len) :: placed) left ∧
      st = (st.1, cur + len) := by
  subst hst
  obtain ⟨hfour, hfield, hmod⟩ := h.fields field (.inr mem_cons_self)
  have hstart := h.start
  have hperm : (field :: (placed.map Prod.fst ++ left)).Nodup :=
    (perm_middle.nodup_iff).mp h.distinct
  have hother : ∀ f, f ∈ placed.map Prod.fst ∨ f ∈ left → f + 4 ≤ field ∨ field + 4 ≤ f := by
    intro f hf
    obtain ⟨-, -, hfmod⟩ := h.fields f (hf.imp_right (mem_cons_of_mem _))
    have hne : f ≠ field := by
      rintro rfl
      exact (nodup_cons.mp hperm).1 (mem_append.mpr hf)
    omega
  have hsource : bytes m src len = bytes m₀ src len :=
    bytes_congr (h.outside.agreeOn (by omega))
  refine ⟨⟨?_, ?_, ?_, ?_, ?_, hperm, by omega⟩, Prod.ext rfl (putComponent_snd hsrc)⟩
  · intro x hx
    rw [putComponent_outside (by simp only [relHeaderSize] at *; omega) (by omega)]
    exact h.outside x hx
  · intro x hx hx'
    rw [putComponent_outside (by omega) (by simp only [relHeaderSize] at *; omega)]
    exact h.header x hx hx'
  · intro p hp
    rcases mem_cons.mp hp with rfl | hp
    · rw [← hsource]
      exact putComponent_holds hfield hstart (by omega) hsrc
        (h.zero field mem_cons_self) (by omega)
    · have hpf := hother p.1 (.inl (mem_map_of_mem hp))
      obtain ⟨-, hple, -⟩ := h.fields p.1 (.inl (mem_map_of_mem hp))
      refine (h.holds p hp).congr (by omega) ?_ ?_
      · intro x hx hx'
        exact putComponent_outside (by omega) (by omega)
      · intro x hx hx'
        exact putComponent_outside (by omega) (by omega)
  · intro f hf
    have hpf := hother f (.inr hf)
    obtain ⟨-, hfle, -⟩ := h.fields f (.inr (mem_cons_of_mem _ hf))
    rw [← h.zero f (mem_cons_of_mem _ hf)]
    apply readLE_congr
    intro x hx hx'
    exact putComponent_outside (by omega) (by omega)
  · intro f hf
    apply h.fields
    rcases hf with hf | hf
    · rcases mem_cons.mp hf with rfl | hf
      · exact .inr mem_cons_self
      · exact .inl hf
    · exact .inr (mem_cons_of_mem _ hf)

/-- A descriptor of valid parts, each of them there or not. -/
structure WellFormed (m : ByteMem) (abs : SecurityDescriptor) : Prop where
  revision : abs.revision = relativeRevision
  control : abs.control < 2 ^ 16
  owner : abs.owner ≠ 0 → rtlValidSid m abs.owner
  group : abs.group ≠ 0 → rtlValidSid m abs.group
  sacl : abs.sacl ≠ 0 → rtlValidAcl m abs.sacl (aclSize m abs.sacl)
  dacl : abs.dacl ≠ 0 → rtlValidAcl m abs.dacl (aclSize m abs.dacl)

/-- The parts of the descriptor lie outside `[a, a + n)`. -/
structure PartsApart (m : ByteMem) (abs : SecurityDescriptor) (a n : ℕ) : Prop where
  owner : abs.owner + rtlLengthSid m abs.owner ≤ a ∨ a + n ≤ abs.owner
  group : abs.group + rtlLengthSid m abs.group ≤ a ∨ a + n ≤ abs.group
  sacl : abs.sacl + aclLength m abs.sacl ≤ a ∨ a + n ≤ abs.sacl
  dacl : abs.dacl + aclLength m abs.dacl ≤ a ∨ a + n ≤ abs.dacl

/-- A buffer that `RtlAbsoluteToSelfRelativeSD` filled from `abs`. -/
structure Packed (m₀ : ByteMem) (abs : SecurityDescriptor) (m : ByteMem) (rel len : ℕ) : Prop where
  revision : (m rel).toNat = abs.revision
  control : readLE m (rel + relControl) 2 = abs.control ||| seSelfRelative
  owner : Holds m rel len relOwner (sidBytes m₀ abs.owner)
  group : Holds m rel len relGroup (sidBytes m₀ abs.group)
  sacl : Holds m rel len relSacl (aclBytes m₀ abs.sacl)
  dacl : Holds m rel len relDacl (aclBytes m₀ abs.dacl)

theorem rtlLengthSid_le (m : ByteMem) (sid : ℕ) : rtlLengthSid m sid ≤ 1028 := by
  have := (m (sid + 1)).toNat_lt
  rw [rtlLengthSid, subAuthorityCount]
  split <;> omega

theorem aclLength_lt (m : ByteMem) (acl : ℕ) : aclLength m acl < 2 ^ 16 := by
  have : aclSize m acl < 256 ^ 2 := readLE_lt m (acl + 2) 2
  rw [aclLength]
  split <;> omega

theorem relativeSize_lt (m : ByteMem) (abs : SecurityDescriptor) : relativeSize m abs < 2 ^ 32 := by
  have := rtlLengthSid_le m abs.owner
  have := rtlLengthSid_le m abs.group
  have := aclLength_lt m abs.sacl
  have := aclLength_lt m abs.dacl
  simp only [relativeSize, relHeaderSize]
  omega

theorem packing_header {mh : ByteMem} {abs : SecurityDescriptor} {rel needed : ℕ} (m : ByteMem)
    (hmh : writeLE (writeLE (zeroRange m rel needed) rel 1 abs.revision) (rel + relControl) 2
      (abs.control ||| seSelfRelative) = mh) (hneeded : relHeaderSize ≤ needed) :
    Packing m mh mh rel needed relHeaderSize [] [relOwner, relGroup, relSacl, relDacl] := by
  subst hmh
  simp only [relHeaderSize, relControl] at *
  have hkeep : ∀ x, x < rel ∨ rel + 4 ≤ x →
      writeLE (writeLE (zeroRange m rel needed) rel 1 abs.revision) (rel + 2) 2
        (abs.control ||| seSelfRelative) x = zeroRange m rel needed x := by
    intro x hx
    rw [writeLE_of_lt (by omega), writeLE_of_lt (by omega)]
  refine ⟨?_, AgreeOn.refl _ _ _, by simp, ?_, ?_, by decide, le_rfl⟩
  · intro x hx
    rw [hkeep x (by omega)]
    exact sameOutside_zeroRange le_rfl le_rfl x hx
  · intro f hf
    have hf4 : 4 ≤ f ∧ f ≤ 16 := by
      simp [relOwner, relGroup, relSacl, relDacl] at hf
      omega
    rw [readLE_congr (fun x hx hx' => hkeep x (by omega)), readLE_zeroRange (by omega) (by omega)]
  · intro f hf
    simp [relOwner, relGroup, relSacl, relDacl] at hf
    simp only [relHeaderSize]
    omega

theorem rtlAbsoluteToSelfRelativeSD_spec {m : ByteMem} {abs : SecurityDescriptor} {rel len : ℕ}
    (hrev : abs.revision < 256) (hcontrol : abs.control < 2 ^ 16) (hrel : rel ≠ 0)
    (hlen : relativeSize m abs ≤ len) (hapart : PartsApart m abs rel (relativeSize m abs)) :
    ∃ m₁, rtlAbsoluteToSelfRelativeSD m (some abs) rel (some len) =
        (m₁, some (relativeSize m abs), 0) ∧ Packed m abs m₁ rel (relativeSize m abs) := by
  have hlt := relativeSize_lt m abs
  have hsid : ∀ sid, sid = 0 → rtlLengthSid m sid = 0 := fun sid h => by rw [rtlLengthSid, if_pos h]
  have hacl : ∀ acl, acl = 0 → aclLength m acl = 0 := fun acl h => by rw [aclLength, if_pos h]
  have hsize : relativeSize m abs = relHeaderSize + rtlLengthSid m abs.owner +
      rtlLengthSid m abs.group + aclLength m abs.sacl + aclLength m abs.dacl := rfl
  rw [rtlAbsoluteToSelfRelativeSD, if_neg (by omega)]
  generalize relativeSize m abs = needed at *
  -- the header, over zeros
  dsimp only
  generalize hmh : writeLE (writeLE (zeroRange m rel needed) rel 1 abs.revision)
    (rel + relControl) 2 (abs.control ||| seSelfRelative) = mh
  have hstart := packing_header m hmh (by omega)
  generalize hst₁ : putComponent rel relOwner _ _ _ = st₁
  obtain ⟨h₁, he₁⟩ := hstart.put hst₁ (by omega) hlt (hsid abs.owner) hapart.owner
  rw [he₁]
  generalize hst₂ : putComponent rel relGroup _ _ _ = st₂
  obtain ⟨h₂, he₂⟩ := h₁.put hst₂ (by omega) hlt (hsid abs.group) hapart.group
  rw [he₂]
  generalize hst₃ : putComponent rel relSacl _ _ _ = st₃
  obtain ⟨h₃, he₃⟩ := h₂.put hst₃ (by omega) hlt (hacl abs.sacl) hapart.sacl
  rw [he₃]
  generalize hst₄ : putComponent rel relDacl _ _ _ = st₄
  obtain ⟨h₄, he₄⟩ := h₃.put hst₄ (by omega) hlt (hacl abs.dacl) hapart.dacl
  rw [← hsize] at h₄
  refine ⟨st₄.1, rfl, ?_, ?_, ?_, ?_, ?_, ?_⟩
  · rw [h₄.header rel le_rfl (by omega), ← hmh, writeLE_of_lt (by simp only [relControl]; omega)]
    simpa [readLE, mod_eq_of_lt hrev] using
      readLE_writeLE_same (zeroRange m rel needed) rel 1 abs.revision
  · rw [readLE_congr (h₄.header.mono (by omega) (by simp only [relControl]; omega)), ← hmh,
      readLE_writeLE_same]
    have hor : abs.control ||| seSelfRelative < 2 ^ 16 := or_lt_two_pow hcontrol (by decide)
    exact mod_eq_of_lt hor
  · exact h₄.holds (relOwner, sidBytes m abs.owner) (by rw [sidBytes]; simp)
  · exact h₄.holds (relGroup, sidBytes m abs.group) (by rw [sidBytes]; simp)
  · exact h₄.holds (relSacl, aclBytes m abs.sacl) (by rw [aclBytes]; simp)
  · exact h₄.holds (relDacl, aclBytes m abs.dacl) (by rw [aclBytes]; simp)

/-! ### Unpacking -/

theorem Holds.of_agree {rel len field : ℕ}
    (h : Holds m rel len field content) (hfield : field + 4 ≤ relHeaderSize)
    (hlen : relHeaderSize ≤ len) (hagree : AgreeOn rel (rel + len) m m') :
    Holds m' rel len field content :=
  h.congr le_rfl (hagree.mono (by omega) (by omega)) (hagree.mono (by omega) le_rfl)

/-- The pointer to a part with these bytes at `p`; NULL when there are none. -/
def partAt (content : List UInt8) (p : ℕ) : ℕ := if content = [] then 0 else p

theorem takeComponent_spec {lengthOf : ByteMem → ℕ → ℕ → ℕ}
    {set : SecurityDescriptor → ℕ → SecurityDescriptor} {rel len absBuf absBufLen field : ℕ}
      {m : ByteMem} {sd : SecurityDescriptor} {used : ℕ}
    (hset : set sd 0 = sd) (hholds : Holds m rel len field content)
    (hrecog : content ≠ [] → Recognizes lengthOf content)
    (hroom : used + content.length ≤ absBufLen)
    (hapart : absBuf + absBufLen ≤ rel ∨ rel + len ≤ absBuf) :
    ∃ mem, takeComponent lengthOf set rel len absBuf absBufLen field ⟨m, sd, used⟩ =
        .ok ⟨mem, set sd (partAt content (absBuf + used)), used + content.length⟩ ∧
      SameOutside (absBuf + used) (absBuf + used + content.length) m mem ∧
        bytes mem (absBuf + used) content.length = content := by
  obtain ⟨off, hoff, hge, hle, hbytes⟩ := hholds
  rw [takeComponent]
  dsimp only
  rw [hoff]
  by_cases hempty : content = []
  · subst hempty
    exact ⟨m, by simp [partAt, hset], SameOutside.refl _ _ _, rfl⟩
  · have hpos : 0 < content.length := length_pos_iff.mpr hempty
    have hne : off ≠ 0 := by simp only [relHeaderSize] at hge; omega
    have havail : srOffsetAvail off len = len - off := by
      rw [srOffsetAvail, if_neg (by omega)]
    have hlength : lengthOf m (rel + off) (len - off) = content.length :=
      hrecog hempty m (rel + off) (len - off) (by omega) (by omega) hbytes
    simp only [partAt, if_neg hempty, if_neg hne, havail, hlength]
    rw [if_neg (by omega), if_neg (by omega), if_neg (by omega)]
    refine ⟨_, rfl, sameOutside_copyUp le_rfl le_rfl, ?_⟩
    rw [bytes_copyUp (by omega), hbytes]

theorem sidBytes_of_bytes {sid p : ℕ} (hp : p ≠ 0)
    (hlen : sidBytes m sid ≠ []) (h : bytes m' p (sidBytes m sid).length = sidBytes m sid) :
    sidBytes m' p = sidBytes m sid := by
  have hne : sid ≠ 0 := by
    rintro rfl
    exact hlen rfl
  have hrel : Relocated (rtlLengthSid m sid) m sid m' p := by
    rw [← bytes_eq_iff]
    simpa [sidBytes] using h
  have hcount : subAuthorityCount m' p = subAuthorityCount m sid := by
    rw [subAuthorityCount, subAuthorityCount, hrel 1 (by rw [rtlLengthSid, if_neg hne]; omega)]
  have hsame : rtlLengthSid m' p = rtlLengthSid m sid := by
    rw [rtlLengthSid, rtlLengthSid, if_neg hp, if_neg hne, hcount]
  rw [sidBytes, hsame]
  simpa [sidBytes] using h

theorem aclBytes_of_bytes {acl p : ℕ} (hp : p ≠ 0)
    (hvalid : acl ≠ 0 → rtlValidAcl m acl (aclSize m acl)) (hlen : aclBytes m acl ≠ [])
    (h : bytes m' p (aclBytes m acl).length = aclBytes m acl) : aclBytes m' p = aclBytes m acl := by
  have hne : acl ≠ 0 := by
    rintro rfl
    exact hlen rfl
  have hvalid := hvalid hne
  rw [rtlValidAcl] at hvalid
  split at hvalid
  · cases hvalid
  rename_i hzero
  obtain ⟨-, -, hge⟩ := aclHeaderValid_ne_zero hzero
  have hrel : Relocated (aclSize m acl) m acl m' p := by
    rw [← bytes_eq_iff]
    simpa [aclBytes, aclLength, hne] using h
  have hsize : aclSize m' p = aclSize m acl :=
    hrel.readLE_at 2 2 (by simp only [aclHeaderSize] at hge; omega)
  have hsame : aclLength m' p = aclLength m acl := by
    rw [aclLength, aclLength, if_neg hp, if_neg hne, hsize]
  rw [aclBytes, hsame]
  simpa [aclBytes] using h

theorem sidBytes_eq_nil (m : ByteMem) (sid : ℕ) : sidBytes m sid = [] ↔ sid = 0 := by
  rw [← length_eq_zero_iff, sidBytes, length_bytes, rtlLengthSid]
  split <;> simp_all

theorem aclBytes_eq_nil {m : ByteMem} {acl : ℕ}
    (hvalid : acl ≠ 0 → rtlValidAcl m acl (aclSize m acl)) : aclBytes m acl = [] ↔ acl = 0 := by
  rw [← length_eq_zero_iff, aclBytes, length_bytes, aclLength]
  split
  · simp_all
  · rename_i hne
    have h := hvalid hne
    rw [rtlValidAcl] at h
    split at h
    · cases h
    · rename_i hzero
      obtain ⟨-, -, hge⟩ := aclHeaderValid_ne_zero hzero
      simp only [aclHeaderSize] at hge
      exact ⟨fun h0 => by omega, fun h0 => absurd h0 hne⟩

theorem hasFlag_selfRelative (control : ℕ) :
    hasFlag (control ||| seSelfRelative) seSelfRelative := by
  rw [hasFlag, decide_eq_true_eq, and_or_distrib_right]
  intro h
  exact absurd (Nat.or_eq_zero_iff.mp h).2 (by decide)

theorem putFlag_selfRelative (control : ℕ) :
    putFlag (control ||| seSelfRelative) seSelfRelative false =
      putFlag control seSelfRelative false := by
  simp only [putFlag, Bool.false_eq_true, if_false, and_or_distrib_right]
  have hnone : seSelfRelative &&& (0xFFFF - seSelfRelative) = 0 := by decide
  rw [hnone, or_zero]

structure SameParts (m : ByteMem) (abs : SecurityDescriptor) (m' : ByteMem)
    (abs' : SecurityDescriptor) : Prop where
  owner : sidBytes m' abs'.owner = sidBytes m abs.owner ∧ (abs'.owner = 0 ↔ abs.owner = 0)
  group : sidBytes m' abs'.group = sidBytes m abs.group ∧ (abs'.group = 0 ↔ abs.group = 0)
  sacl : aclBytes m' abs'.sacl = aclBytes m abs.sacl ∧ (abs'.sacl = 0 ↔ abs.sacl = 0)
  dacl : aclBytes m' abs'.dacl = aclBytes m abs.dacl ∧ (abs'.dacl = 0 ↔ abs.dacl = 0)

theorem same_sid {sid p : ℕ} (hp : p ≠ 0)
    (h : bytes m' p (sidBytes m sid).length = sidBytes m sid) :
    sidBytes m' (partAt (sidBytes m sid) p) = sidBytes m sid ∧
      (partAt (sidBytes m sid) p = 0 ↔ sid = 0) := by
  rw [partAt]
  split
  · rename_i hnil
    exact ⟨hnil.symm, by rw [← sidBytes_eq_nil m sid]; simp [hnil]⟩
  · rename_i hne
    refine ⟨sidBytes_of_bytes hp hne h, ?_⟩
    rw [← sidBytes_eq_nil m sid]
    simp [hp, hne]

theorem same_acl {acl p : ℕ} (hp : p ≠ 0) (hvalid : acl ≠ 0 → rtlValidAcl m acl (aclSize m acl))
    (h : bytes m' p (aclBytes m acl).length = aclBytes m acl) :
    aclBytes m' (partAt (aclBytes m acl) p) = aclBytes m acl ∧
      (partAt (aclBytes m acl) p = 0 ↔ acl = 0) := by
  rw [partAt]
  split
  · rename_i hnil
    exact ⟨hnil.symm, by rw [← aclBytes_eq_nil hvalid]; simp [hnil]⟩
  · rename_i hne
    refine ⟨aclBytes_of_bytes hp hvalid hne h, ?_⟩
    rw [← aclBytes_eq_nil hvalid]
    simp [hp, hne]

theorem rtlSelfRelativeToAbsoluteSD_spec {m₀ m : ByteMem} {abs old : SecurityDescriptor}
    {rel len absBuf absBufLen : ℕ} (hwf : WellFormed m₀ abs) (hp : Packed m₀ abs m rel len)
    (hrel : rel ≠ 0) (hlen : relHeaderSize ≤ len) (habs : absBuf ≠ 0)
    (hroom : relativeSize m₀ abs ≤ relHeaderSize + absBufLen)
    (hapart : absBuf + absBufLen ≤ rel ∨ rel + len ≤ absBuf) :
    ∃ u, rtlSelfRelativeToAbsoluteSD m rel len (some old) absBuf absBufLen = .ok u ∧
      u.abs.revision = abs.revision ∧ u.abs.control = putFlag abs.control seSelfRelative false ∧
          SameParts m₀ abs u.mem u.abs := by
  have hflag : hasFlag (readLE m (rel + relControl) 2) seSelfRelative := by
    rw [hp.control]
    exact hasFlag_selfRelative abs.control
  have hsizes : relativeSize m₀ abs = relHeaderSize + (sidBytes m₀ abs.owner).length +
      (sidBytes m₀ abs.group).length + (aclBytes m₀ abs.sacl).length +
        (aclBytes m₀ abs.dacl).length := by
    simp only [sidBytes, aclBytes, length_bytes]
    rfl
  have hrev : (m rel).toNat = relativeRevision := hp.revision.trans hwf.revision
  rw [rtlSelfRelativeToAbsoluteSD, if_neg (by omega), if_neg (by omega), if_neg (by omega),
    if_neg (by rw [hflag]; simp), hp.control, putFlag_selfRelative]
  -- the four components, one after the other into the free bytes of the destination
  have hkeep : ∀ {used k : ℕ} {m₁ m₂ : ByteMem}, used + k ≤ absBufLen →
      SameOutside (absBuf + used) (absBuf + used + k) m₁ m₂ → AgreeOn rel (rel + len) m₁ m₂ :=
    fun hle hout => hout.agreeOn (by omega)
  obtain ⟨m₁, he₁, hout₁, hb₁⟩ := @takeComponent_spec _ rtlLengthSidBounded
    (fun sd p => { sd with owner := p }) rel len absBuf absBufLen relOwner m
    ⟨(m rel).toNat, putFlag abs.control seSelfRelative false, 0, 0, 0, 0⟩ 0 rfl hp.owner
    (fun hne => recognizes_sidBytes (hwf.owner ((sidBytes_eq_nil _ _).not.mp hne))) (by omega)
    hapart
  have hk₁ := hkeep (by omega) hout₁
  generalize hused₁ : 0 + (sidBytes m₀ abs.owner).length = used₁ at he₁
  generalize hpo : partAt (sidBytes m₀ abs.owner) (absBuf + 0) = po at he₁
  obtain ⟨m₂, he₂, hout₂, hb₂⟩ := @takeComponent_spec _ rtlLengthSidBounded
    (fun sd p => { sd with group := p }) rel len absBuf absBufLen relGroup m₁
    ⟨(m rel).toNat, putFlag abs.control seSelfRelative false, po, 0, 0, 0⟩ used₁ rfl
    (hp.group.of_agree (by decide) hlen hk₁)
    (fun hne => recognizes_sidBytes (hwf.group ((sidBytes_eq_nil _ _).not.mp hne))) (by omega)
    hapart
  have hk₂ := hk₁.trans (hkeep (by omega) hout₂)
  generalize hused₂ : used₁ + (sidBytes m₀ abs.group).length = used₂ at he₂
  generalize hpg : partAt (sidBytes m₀ abs.group) (absBuf + used₁) = pg at he₂
  obtain ⟨m₃, he₃, hout₃, hb₃⟩ := @takeComponent_spec _ aclLengthBounded
    (fun sd p => { sd with sacl := p }) rel len absBuf absBufLen relSacl m₂
    ⟨(m rel).toNat, putFlag abs.control seSelfRelative false, po, pg, 0, 0⟩ used₂ rfl
    (hp.sacl.of_agree (by decide) hlen hk₂)
    (fun hne => recognizes_aclBytes (hwf.sacl ((aclBytes_eq_nil hwf.sacl).not.mp hne))) (by omega)
    hapart
  have hk₃ := hk₂.trans (hkeep (by omega) hout₃)
  generalize hused₃ : used₂ + (aclBytes m₀ abs.sacl).length = used₃ at he₃
  generalize hps : partAt (aclBytes m₀ abs.sacl) (absBuf + used₂) = ps at he₃
  obtain ⟨m₄, he₄, hout₄, hb₄⟩ := @takeComponent_spec _ aclLengthBounded
    (fun sd p => { sd with dacl := p }) rel len absBuf absBufLen relDacl m₃
    ⟨(m rel).toNat, putFlag abs.control seSelfRelative false, po, pg, ps, 0⟩ used₃ rfl
    (hp.dacl.of_agree (by decide) hlen hk₃)
    (fun hne => recognizes_aclBytes (hwf.dacl ((aclBytes_eq_nil hwf.dacl).not.mp hne))) (by omega)
    hapart
  refine ⟨⟨m₄, ⟨(m rel).toNat, putFlag abs.control seSelfRelative false, po, pg, ps,
    partAt (aclBytes m₀ abs.dacl) (absBuf + used₃)⟩, used₃ + (aclBytes m₀ abs.dacl).length⟩,
    ?_, hp.revision, rfl, ?_⟩
  · dsimp only [rtlCreateSecurityDescriptor]
    rw [he₁]
    dsimp only [bind, Except.bind]
    rw [he₂]
    dsimp only
    rw [he₃]
    dsimp only
    rw [he₄]
    rfl
  -- later components lie behind the earlier ones
  · have hb₁' : bytes m₄ (absBuf + 0) (sidBytes m₀ abs.owner).length = sidBytes m₀ abs.owner := by
      rw [bytes_congr (hout₄.agreeOn (by omega)), bytes_congr (hout₃.agreeOn (by omega)),
        bytes_congr (hout₂.agreeOn (by omega)), hb₁]
    have hb₂' : bytes m₄ (absBuf + used₁) (sidBytes m₀ abs.group).length =
        sidBytes m₀ abs.group := by
      rw [bytes_congr (hout₄.agreeOn (by omega)), bytes_congr (hout₃.agreeOn (by omega)), hb₂]
    have hb₃' : bytes m₄ (absBuf + used₂) (aclBytes m₀ abs.sacl).length = aclBytes m₀ abs.sacl := by
      rw [bytes_congr (hout₄.agreeOn (by omega)), hb₃]
    subst hpo hpg hps
    exact ⟨same_sid (by omega) hb₁', same_sid (by omega) hb₂',
      same_acl (by omega) hwf.sacl hb₃', same_acl (by omega) hwf.dacl hb₄⟩

/-- Packing a well-formed descriptor and unpacking the result gives it back at a new place. -/
theorem rtlSelfRelativeToAbsoluteSD_roundTrip {m : ByteMem} {abs old : SecurityDescriptor}
    {rel len absBuf absBufLen : ℕ} (hwf : WellFormed m abs) (hrel : rel ≠ 0)
    (hlen : relativeSize m abs ≤ len) (hapart : PartsApart m abs rel (relativeSize m abs))
    (habs : absBuf ≠ 0) (hroom : relativeSize m abs ≤ relHeaderSize + absBufLen)
    (hbufs : absBuf + absBufLen ≤ rel ∨ rel + relativeSize m abs ≤ absBuf) :
    ∃ m₁ u, rtlAbsoluteToSelfRelativeSD m (some abs) rel (some len) =
        (m₁, some (relativeSize m abs), 0) ∧
      rtlSelfRelativeToAbsoluteSD m₁ rel (relativeSize m abs) (some old) absBuf absBufLen = .ok u ∧
        u.abs.revision = abs.revision ∧ u.abs.control = putFlag abs.control seSelfRelative false ∧
            SameParts m abs u.mem u.abs := by
  have hrev : abs.revision < 256 := by
    rw [hwf.revision]
    decide
  have hge : relHeaderSize ≤ relativeSize m abs := by
    simp only [relativeSize]
    omega
  obtain ⟨m₁, hpack, hp⟩ := rtlAbsoluteToSelfRelativeSD_spec hrev hwf.control hrel hlen hapart
  obtain ⟨u, hunpack, hresult⟩ :=
    rtlSelfRelativeToAbsoluteSD_spec hwf hp hrel hge habs hroom hbufs
  exact ⟨m₁, u, hpack, hunpack, hresult⟩

/-- An owner and a DACL with one entry for it; no group, and a SACL that is not there. -/
def sampleParts : ByteMem :=
  storeBytes (storeBytes (fun _ => 0) 100 [1, 1, 0, 0, 0, 0, 0, 5, 18, 0, 0, 0]) 200
    [2, 0, 28, 0, 1, 0, 0, 0, 0, 0, 20, 0, 1, 0, 0, 0, 1, 1, 0, 0, 0, 0, 0, 5, 18, 0, 0, 0]

def sampleDescriptor : SecurityDescriptor := ⟨1, seDaclPresent, 100, 0, 0, 200⟩

theorem rtlSelfRelativeToAbsoluteSD_roundTrip_sample :
    ∃ m₁ u, rtlAbsoluteToSelfRelativeSD sampleParts (some sampleDescriptor) 1000 (some 60) =
        (m₁, some 60, 0) ∧
      rtlSelfRelativeToAbsoluteSD m₁ 1000 60 (some ⟨0, 0, 0, 0, 0, 0⟩) 2000 40 = .ok u ∧
        u.abs.revision = 1 ∧ u.abs.control = seDaclPresent ∧
          SameParts sampleParts sampleDescriptor u.mem u.abs := by
  have hwf : WellFormed sampleParts sampleDescriptor :=
    ⟨by decide, by decide, by decide, by decide, by decide, by decide⟩
  have hapart : PartsApart sampleParts sampleDescriptor 1000 60 :=
    ⟨by decide, by decide, by decide, by decide⟩
  exact rtlSelfRelativeToAbsoluteSD_roundTrip hwf (by decide) (by decide) hapart (by decide)
    (by decide) (by decide)

end ImpossibleOs.Security
