import ImpossibleOs.Security.Relative

/-!
`RtlSelfRelativeToAbsoluteSD` with every access checked (`acl.c`, `sid.c`).

The function of `Relative` once more, on the `uint32_t` the code computes with.
A load that leaves the source and a copy that leaves the source or the buffer
is a fault, `none`.
-/

namespace ImpossibleOs.Security.Checked

open ByteMem

/-- The source `rel` and the buffer `abs_buf`, each with its length. -/
structure Buffers where
  rel : ℕ
  relLen : UInt32
  absBuf : ℕ
  absBufLen : UInt32

section Functions

variable (A : Buffers) (m : ByteMem)

/-- The `n` bytes at `p` lie in the source. -/
def Buffers.Source (p n : ℕ) : Prop := A.rel ≤ p ∧ p + n ≤ A.rel + A.relLen.toNat

/-- The `n` bytes at `p` lie in the buffer. -/
def Buffers.Target (p n : ℕ) : Prop := A.absBuf ≤ p ∧ p + n ≤ A.absBuf + A.absBufLen.toNat

instance (p n : ℕ) : Decidable (A.Source p n) := inferInstanceAs (Decidable (_ ∧ _))

instance (p n : ℕ) : Decidable (A.Target p n) := inferInstanceAs (Decidable (_ ∧ _))

/-- An `n`-byte load of the source. -/
def load (p n : ℕ) : Option ℕ :=
  if A.Source p n then some (readLE m p n) else none

/-- `memcpy` from the source into the buffer. -/
def memcpy (dst src n : ℕ) : Option ByteMem :=
  if A.Source src n ∧ A.Target dst n then some (copyUp m dst src n) else none

def srOffsetAvail (off : UInt32) : UInt32 :=
  if off < 20 ∨ A.relLen ≤ off then 0 else A.relLen - off

def rtlLengthSidBounded (sid : ℕ) (avail : UInt32) : Option UInt32 :=
  if sid = 0 then some 0
  else if avail < 8 then some 0
  else
    (load A m sid 1).bind fun rev =>
      if rev ≠ sidRevision then some 0
      else
        (load A m (sid + 1) 1).bind fun count =>
          if sidMaxSubAuthorities < count then some 0
          else
            let len := 8 + 4 * UInt32.ofNat count
            if avail < len then some 0 else some len

def aceBodyValid (hdr : ℕ) (remaining : UInt32) : Option UInt32 :=
  if remaining < 4 then some 0
  else
    (load A m (hdr + 2) 2).bind fun size =>
      let size := UInt32.ofNat size
      if size < 4 ∨ remaining < size then some 0
      else
        (load A m hdr 1).bind fun type =>
          if ¬ aceIsSidBearing (UInt8.ofNat type) then some 0
          else if size < 8 then some 0
          else
            (rtlLengthSidBounded A m (hdr + 8) (size - 8)).map fun len =>
              if len = 0 then 0 else size

def aclHeaderValid (acl : ℕ) (avail : UInt32) : Option UInt32 :=
  if acl = 0 ∨ avail < 8 then some 0
  else
    (load A m acl 1).bind fun rev =>
      if rev ≠ aclRevision ∧ rev ≠ aclRevisionDs then some 0
      else
        (load A m (acl + 2) 2).map fun size =>
          let size := UInt32.ofNat size
          if size < 8 ∨ avail < size then 0 else size

/-- The loop of `RtlValidAcl` over the last `n` ACEs. -/
def validAces (aclSize : UInt32) : ℕ → ℕ → UInt32 → Option Bool
  | 0, _, _ => some true
  | n + 1, p, cursor =>
    (aceBodyValid A m p (aclSize - cursor)).bind fun size =>
      if size = 0 then some false
      else validAces aclSize n (p + size.toNat) (cursor + size)

def rtlValidAcl (acl : ℕ) (avail : UInt32) : Option Bool :=
  (aclHeaderValid A m acl avail).bind fun size =>
    if size = 0 then some false
    else (load A m (acl + 4) 2).bind fun count => validAces A m size count (acl + 8) 8

/-- `AclSize` of the ACL at `src` when it is valid within `avail` bytes, else 0. -/
def aclLengthBounded (src : ℕ) (avail : UInt32) : Option UInt32 :=
  (rtlValidAcl A m src avail).bind fun valid =>
    if valid then (load A m (src + 2) 2).map UInt32.ofNat else some 0

structure State where
  mem : ByteMem
  abs : SecurityDescriptor
  used : UInt32

def takeComponent (lengthOf : Buffers → ByteMem → ℕ → UInt32 → Option UInt32)
    (set : SecurityDescriptor → ℕ → SecurityDescriptor) (field : ℕ) (st : State) :
    Option (Except State State) :=
  (load A st.mem (A.rel + field) 4).bind fun word =>
    let off := UInt32.ofNat word
    if off = 0 then some (.ok st)
    else
      let avail := srOffsetAvail A off
      if avail = 0 then some (.error st)
      else
        (lengthOf A st.mem (A.rel + off.toNat) avail).bind fun len =>
          if len = 0 then some (.error st)
          else if A.absBufLen - st.used < len then some (.error st)
          else
            (memcpy A st.mem (A.absBuf + st.used.toNat) (A.rel + off.toNat) len.toNat).map
              fun mem => .ok ⟨mem, set st.abs (A.absBuf + st.used.toNat), st.used + len⟩

/-- The next component, after the last one has been copied. -/
def next (r : Option (Except State State)) (f : State → Option (Except State State)) :
    Option (Except State State) :=
  r.bind fun
    | .ok st => f st
    | .error st => some (.error st)

def rtlSelfRelativeToAbsoluteSD (abs : Option SecurityDescriptor) :
    Option (Except (Option State) State) :=
  match abs with
  | none => some (.error none)
  | some abs =>
    if A.rel = 0 ∨ A.absBuf = 0 then some (.error (some ⟨m, abs, 0⟩))
    else if A.relLen < 20 then some (.error (some ⟨m, abs, 0⟩))
    else
      (load A m A.rel 1).bind fun rev =>
        if rev ≠ relativeRevision then some (.error (some ⟨m, abs, 0⟩))
        else
          (load A m (A.rel + relControl) 2).bind fun control =>
            if ¬ hasFlag control seSelfRelative then some (.error (some ⟨m, abs, 0⟩))
            else
              let abs := { rtlCreateSecurityDescriptor rev with
                control := putFlag control seSelfRelative false }
              let r := takeComponent A rtlLengthSidBounded
                (fun sd p => { sd with owner := p }) relOwner ⟨m, abs, 0⟩
              let r := next r (takeComponent A rtlLengthSidBounded
                (fun sd p => { sd with group := p }) relGroup)
              let r := next r (takeComponent A aclLengthBounded
                (fun sd p => { sd with sacl := p }) relSacl)
              let r := next r (takeComponent A aclLengthBounded
                (fun sd p => { sd with dacl := p }) relDacl)
              r.map (Except.mapError some)

end Functions

/-! ### What the checked functions compute -/

/-- The checked computation returns this number. -/
def Agrees (r : Option UInt32) (v : ℕ) : Prop := ∃ len, r = some len ∧ len.toNat = v

theorem agrees_zero : Agrees (some 0) 0 := ⟨0, rfl, rfl⟩

theorem Agrees.ite {c d : Prop} [Decidable c] [Decidable d] {r r' : Option UInt32} {v v' : ℕ}
    (h : c ↔ d) (hr : d → Agrees r v) (hr' : ¬ d → Agrees r' v') :
    Agrees (if c then r else r') (if d then v else v') := by
  by_cases hd : d
  · rw [if_pos (h.mpr hd), if_pos hd]
    exact hr hd
  · rw [if_neg (mt h.mp hd), if_neg hd]
    exact hr' hd

theorem Agrees.bind {α : Type*} {r : Option UInt32} {v : ℕ} (h : Agrees r v)
    (f : UInt32 → Option α) : ∃ len, len.toNat = v ∧ r.bind f = f len := by
  obtain ⟨len, rfl, hlen⟩ := h
  exact ⟨len, hlen, rfl⟩

variable {A : Buffers} {m : ByteMem} {p n : ℕ} {avail : UInt32}

theorem toNat_readLE (hn : n ≤ 4) : (UInt32.ofNat (readLE m p n)).toNat = readLE m p n := by
  have hlt : readLE m p n < 256 ^ n := readLE_lt m p n
  have hle : 256 ^ n ≤ 256 ^ 4 := Nat.pow_le_pow_right (by decide) hn
  exact UInt32.toNat_ofNat_of_lt' (lt_of_lt_of_le hlt (by simpa using hle))

theorem readLE_one (m : ByteMem) (p : ℕ) : readLE m p 1 = (m p).toNat := by
  simp [readLE]

theorem eq_zero_iff {a : UInt32} {v : ℕ} (h : a.toNat = v) : a = 0 ↔ v = 0 := by
  rw [← UInt32.toNat_inj, h]
  rfl

theorem Buffers.Source.bind {α : Type*} (h : A.Source p n) (f : ℕ → Option α) :
    (load A m p n).bind f = f (readLE m p n) := by
  rw [load, if_pos h]
  rfl

theorem Buffers.Source.part {i k : ℕ} (h : A.Source p n) (hi : i + k ≤ n) : A.Source (p + i) k := by
  unfold Buffers.Source at *
  omega

theorem Buffers.Source.start {k : ℕ} (h : A.Source p n) (hk : k ≤ n) : A.Source p k :=
  h.part (i := 0) (by omega)

theorem rtlLengthSidBounded_spec (h : A.Source p avail.toNat) :
    Agrees (rtlLengthSidBounded A m p avail) (Security.rtlLengthSidBounded m p avail.toNat) := by
  unfold rtlLengthSidBounded Security.rtlLengthSidBounded
  refine .ite Iff.rfl (fun _ => agrees_zero) fun _ => ?_
  refine .ite UInt32.lt_iff_toNat_lt (fun _ => agrees_zero) fun hroom => ?_
  rw [(h.start (k := 1) (by omega)).bind, readLE_one]
  refine .ite Iff.rfl (fun _ => agrees_zero) fun _ => ?_
  rw [(h.part (i := 1) (k := 1) (by omega)).bind, readLE_one]
  refine .ite Iff.rfl (fun _ => agrees_zero) fun hcount => ?_
  have hlen : (8 + 4 * UInt32.ofNat (m (p + 1)).toNat).toNat = 8 + 4 * subAuthorityCount m p := by
    have hle : (m (p + 1)).toNat ≤ 15 := Nat.le_of_not_lt hcount
    simp [subAuthorityCount, UInt32.toNat_add, UInt32.toNat_mul]
    omega
  refine .ite ?_ (fun _ => agrees_zero) fun _ => ⟨_, rfl, hlen⟩
  rw [UInt32.lt_iff_toNat_lt, hlen]

theorem aceBodyValid_spec (h : A.Source p avail.toNat) :
    Agrees (aceBodyValid A m p avail) (Security.aceBodyValid m p avail.toNat) := by
  unfold aceBodyValid Security.aceBodyValid
  refine .ite UInt32.lt_iff_toNat_lt (fun _ => agrees_zero) fun hroom => ?_
  have hroom' : 4 ≤ avail.toNat := Nat.le_of_not_lt hroom
  rw [(h.part (i := 2) (k := 2) (by omega)).bind]
  have hsize : (UInt32.ofNat (readLE m (p + 2) 2)).toNat = aceSize m p := toNat_readLE (by decide)
  refine .ite (or_congr ?_ ?_) (fun _ => agrees_zero) fun hfit => ?_
  · rw [UInt32.lt_iff_toNat_lt, hsize]
    rfl
  · rw [UInt32.lt_iff_toNat_lt, hsize]
  rw [(h.start (k := 1) (by omega)).bind, readLE_one, UInt8.ofNat_toNat]
  refine .ite Iff.rfl (fun _ => agrees_zero) fun _ => ?_
  refine .ite ?_ (fun _ => agrees_zero) fun hlarge => ?_
  · rw [UInt32.lt_iff_toNat_lt, hsize]
    rfl
  have hlarge' : 8 ≤ aceSize m p := Nat.le_of_not_lt hlarge
  have hsub : (UInt32.ofNat (readLE m (p + 2) 2) - 8).toNat = aceSize m p - 8 := by
    rw [UInt32.toNat_sub_of_le _ _ (by rw [UInt32.le_iff_toNat_le, hsize]; exact hlarge'), hsize]
    rfl
  obtain ⟨len, hlen, heq⟩ := @rtlLengthSidBounded_spec A m (p + 8)
    (UInt32.ofNat (readLE m (p + 2) 2) - 8) (by rw [hsub]; exact h.part (by omega))
  rw [hsub] at heq
  rw [hlen, Option.map_some, apply_ite some]
  exact .ite (eq_zero_iff heq) (fun _ => agrees_zero) fun _ => ⟨_, rfl, hsize⟩

/-- The bytes of an ACL that a walk may look at: those of `AclSize` that are there, and the first
four, where `AclSize` is. -/
def aclWindow (m : ByteMem) (acl avail : ℕ) : ℕ :=
  if avail < aclHeaderSize then 0 else max 4 (min (aclSize m acl) avail)

theorem aclHeaderValid_spec (h : A.Source p (aclWindow m p avail.toNat)) :
    Agrees (aclHeaderValid A m p avail) (Security.aclHeaderValid m p avail.toNat) := by
  unfold aclHeaderValid Security.aclHeaderValid
  refine .ite (or_congr Iff.rfl UInt32.lt_iff_toNat_lt) (fun _ => agrees_zero) fun hroom => ?_
  have hwindow : 4 ≤ aclWindow m p avail.toNat := by
    rw [aclWindow, if_neg (not_or.mp hroom).2]
    exact le_max_left ..
  rw [(h.start (k := 1) (by omega)).bind, readLE_one]
  refine .ite Iff.rfl (fun _ => agrees_zero) fun _ => ?_
  have hsize : (UInt32.ofNat (readLE m (p + 2) 2)).toNat = aclSize m p := toNat_readLE (by decide)
  rw [load, if_pos (h.part (by omega)), Option.map_some, apply_ite some]
  refine .ite (or_congr ?_ ?_) (fun _ => agrees_zero) fun _ => ⟨_, rfl, hsize⟩
  · rw [UInt32.lt_iff_toNat_lt, hsize]
    rfl
  · rw [UInt32.lt_iff_toNat_lt, hsize]

theorem aclHeaderValid_le (m : ByteMem) (p n : ℕ) : Security.aclHeaderValid m p n ≤ n := by
  unfold Security.aclHeaderValid
  split_ifs <;> omega

theorem aclHeader_of_valid (h : Security.rtlValidAcl m p n = true) :
    Security.aclHeaderValid m p n = aclSize m p ∧ aclHeaderSize ≤ aclSize m p ∧
      aclSize m p ≤ n := by
  unfold Security.rtlValidAcl at h
  split at h
  · cases h
  · rename_i hne
    obtain ⟨hsize, -, hlarge⟩ := aclHeaderValid_ne_zero hne
    exact ⟨hsize, hlarge, hsize ▸ aclHeaderValid_le m p n⟩

theorem aceBodyValid_step {size cursor : UInt32} (hcursor : cursor ≤ size)
    (h : A.Source p (size.toNat - cursor.toNat)) :
    ∃ ace : UInt32, aceBodyValid A m p (size - cursor) = some ace ∧
      ace.toNat = Security.aceBodyValid m p (size.toNat - cursor.toNat) ∧ cursor + ace ≤ size ∧
        size.toNat - cursor.toNat - ace.toNat = size.toNat - (cursor + ace).toNat ∧
          A.Source (p + ace.toNat) (size.toNat - (cursor + ace).toNat) := by
  have hleft : (size - cursor).toNat = size.toNat - cursor.toNat :=
    UInt32.toNat_sub_of_le _ _ hcursor
  rw [← hleft] at h ⊢
  obtain ⟨ace, hrun, hace⟩ := aceBodyValid_spec (m := m) h
  have hle : ace.toNat ≤ size.toNat - cursor.toNat := by
    rw [hace, ← hleft]
    exact aceBodyValid_le m p _
  have hsize := size.toNat_lt
  have hcursor' : cursor.toNat ≤ size.toNat := hcursor
  have hnext : (cursor + ace).toNat = cursor.toNat + ace.toNat := by
    rw [UInt32.toNat_add, Nat.mod_eq_of_lt (by omega)]
  refine ⟨ace, hrun, hace, ?_, by omega, h.part (by omega)⟩
  rw [UInt32.le_iff_toNat_le, hnext]
  omega

theorem validAces_spec {size cursor : UInt32} (k : ℕ) (hcursor : cursor ≤ size)
    (h : A.Source p (size.toNat - cursor.toNat)) : validAces A m size k p cursor =
      some (Security.validAces m k p (size.toNat - cursor.toNat)) := by
  induction k generalizing p cursor with
  | zero => rfl
  | succ k ih =>
    obtain ⟨ace, hrun, hace, hnext, hrest, hsource⟩ := aceBodyValid_step (m := m) hcursor h
    rw [validAces, Security.validAces, hrun, Option.bind_some, ← hace]
    by_cases hzero : ace = 0
    · simp [hzero]
    · rw [if_neg hzero, if_neg (mt (eq_zero_iff rfl).mpr hzero), hrest]
      exact ih hnext hsource

theorem aclHeaderValid_window {size : UInt32}
    (hsize : size.toNat = Security.aclHeaderValid m p avail.toNat) (hne : size ≠ 0)
    (h : A.Source p (aclWindow m p avail.toNat)) : 8 ≤ size.toNat ∧ A.Source p size.toNat := by
  have hne' : Security.aclHeaderValid m p avail.toNat ≠ 0 := by
    rw [← hsize]
    exact mt (eq_zero_iff rfl).mpr hne
  obtain ⟨heq, -, hlarge⟩ := aclHeaderValid_ne_zero hne'
  have hle := aclHeaderValid_le m p avail.toNat
  have hheader : aclHeaderSize = 8 := rfl
  refine ⟨by omega, h.start ?_⟩
  rw [aclWindow, if_neg (by omega)]
  exact le_max_of_le_right (le_min (by omega) (by omega))

theorem rtlValidAcl_window (h : A.Source p (aclWindow m p avail.toNat)) :
    rtlValidAcl A m p avail = some (Security.rtlValidAcl m p avail.toNat) := by
  obtain ⟨size, hsize, hbind⟩ := (aclHeaderValid_spec (m := m) h).bind fun size =>
    if size = 0 then some false
    else (load A m (p + 4) 2).bind fun count => validAces A m size count (p + 8) 8
  rw [rtlValidAcl, Security.rtlValidAcl, hbind, ← hsize]
  by_cases hzero : size = 0
  · simp [hzero]
  obtain ⟨hlarge, hsource⟩ := aclHeaderValid_window hsize hzero h
  rw [if_neg hzero, if_neg (mt (eq_zero_iff rfl).mpr hzero), (hsource.part (by omega)).bind]
  exact validAces_spec _ hlarge (hsource.part (by change 8 + (size.toNat - 8) ≤ _; omega))

theorem rtlValidAcl_spec (h : A.Source p avail.toNat) :
    rtlValidAcl A m p avail = some (Security.rtlValidAcl m p avail.toNat) := by
  refine rtlValidAcl_window (h.start ?_)
  have hheader : aclHeaderSize = 8 := rfl
  unfold aclWindow
  split_ifs
  · exact Nat.zero_le _
  · exact max_le (by omega) (min_le_right _ _)

theorem aclLengthBounded_spec (h : A.Source p avail.toNat) :
    Agrees (aclLengthBounded A m p avail) (Security.aclLengthBounded m p avail.toNat) := by
  rw [aclLengthBounded, Security.aclLengthBounded, rtlValidAcl_spec h, Option.bind_some]
  refine .ite Iff.rfl (fun hvalid => ?_) (fun _ => agrees_zero)
  obtain ⟨-, hlarge, hfit⟩ := aclHeader_of_valid hvalid
  have hroom : 8 ≤ avail.toNat := hlarge.trans hfit
  rw [load, if_pos (h.part (by omega))]
  exact ⟨_, rfl, toNat_readLE (by decide)⟩

/-! ### The whole function -/

def State.plain (st : State) : Unpacked := ⟨st.mem, st.abs, st.used.toNat⟩

def plain (r : Except State State) : Except Unpacked Unpacked :=
  (r.map State.plain).mapError State.plain

theorem srOffsetAvail_spec (off : UInt32) :
    (srOffsetAvail A off).toNat = Security.srOffsetAvail off.toNat A.relLen.toNat := by
  unfold srOffsetAvail Security.srOffsetAvail
  by_cases h : off.toNat < relHeaderSize ∨ A.relLen.toNat ≤ off.toNat
  · rw [if_pos h, if_pos]
    · rfl
    · exact h
  · rw [if_neg h, if_neg]
    · exact UInt32.toNat_sub_of_le _ _ (Nat.le_of_not_le (not_or.mp h).2)
    · exact h

/-- The checked computation does not fault, computes this on plain numbers, and leaves no more
in use than the buffer has. -/
def Runs (A : Buffers) (r : Option (Except State State)) (r' : Except Unpacked Unpacked) : Prop :=
  ∃ x, r = some x ∧ plain x = r' ∧
    ∀ st, x = .ok st ∨ x = .error st → st.used ≤ A.absBufLen

variable {st : State}

theorem runs_ok (h : st.used ≤ A.absBufLen) : Runs A (some (.ok st)) (.ok st.plain) := by
  refine ⟨_, rfl, rfl, ?_⟩
  rintro st' (heq | heq)
  · cases heq
    exact h
  · cases heq

theorem runs_error (h : st.used ≤ A.absBufLen) : Runs A (some (.error st)) (.error st.plain) := by
  refine ⟨_, rfl, rfl, ?_⟩
  rintro st' (heq | heq)
  · cases heq
  · cases heq
    exact h

theorem Runs.next {r : Option (Except State State)} {r' : Except Unpacked Unpacked}
    {f : State → Option (Except State State)} {f' : Unpacked → Except Unpacked Unpacked}
    (h : Runs A r r') (hf : ∀ st, st.used ≤ A.absBufLen → Runs A (f st) (f' st.plain)) :
    Runs A (next r f) (r' >>= f') := by
  obtain ⟨x, rfl, rfl, hused⟩ := h
  match x with
  | .ok st => exact hf st (hused st (.inl rfl))
  | .error st => exact runs_error (hused st (.inr rfl))

theorem rtlLengthSidBounded_le (m : ByteMem) (p n : ℕ) :
    Security.rtlLengthSidBounded m p n ≤ n := by
  unfold Security.rtlLengthSidBounded
  split_ifs <;> omega

theorem aclLengthBounded_le (m : ByteMem) (p n : ℕ) : Security.aclLengthBounded m p n ≤ n := by
  unfold Security.aclLengthBounded
  split
  · exact (aclHeader_of_valid ‹_›).2.2
  · exact Nat.zero_le n

theorem source_offset {off : UInt32} (h : srOffsetAvail A off ≠ 0) :
    A.Source (A.rel + off.toNat) (srOffsetAvail A off).toNat := by
  have hspec := srOffsetAvail_spec (A := A) off
  have hne := mt (eq_zero_iff hspec).mpr h
  unfold Security.srOffsetAvail at hspec hne
  split at hspec
  · exact absurd (if_pos ‹_›) hne
  · unfold Buffers.Source
    omega

theorem takeComponent_runs {lengthOf : Buffers → ByteMem → ℕ → UInt32 → Option UInt32}
    {lengthOf' : ByteMem → ℕ → ℕ → ℕ} {set : SecurityDescriptor → ℕ → SecurityDescriptor}
    {field : ℕ} (hlen : ∀ m p avail, A.Source p avail.toNat →
      Agrees (lengthOf A m p avail) (lengthOf' m p avail.toNat))
    (hle : ∀ m p n, lengthOf' m p n ≤ n) (hfield : A.Source (A.rel + field) 4)
    (hused : st.used ≤ A.absBufLen) : Runs A (takeComponent A lengthOf set field st)
      (Security.takeComponent lengthOf' set A.rel A.relLen.toNat A.absBuf A.absBufLen.toNat field
        st.plain) := by
  unfold takeComponent Security.takeComponent
  rw [hfield.bind]
  have hoff : (UInt32.ofNat (readLE st.mem (A.rel + field) 4)).toNat =
      readLE st.mem (A.rel + field) 4 := toNat_readLE (by decide)
  generalize UInt32.ofNat (readLE st.mem (A.rel + field) 4) = off at hoff
  simp only [State.plain, ← hoff, ← srOffsetAvail_spec]
  by_cases hzero : off = 0
  · rw [if_pos hzero, if_pos (by simp [hzero])]
    exact runs_ok hused
  rw [if_neg hzero, if_neg (mt (eq_zero_iff rfl).mpr hzero)]
  by_cases havail : srOffsetAvail A off = 0
  · rw [if_pos havail, if_pos (by simp [havail])]
    exact runs_error hused
  rw [if_neg havail, if_neg (mt (eq_zero_iff rfl).mpr havail)]
  have hsource : A.Source (A.rel + off.toNat) (srOffsetAvail A off).toNat := source_offset havail
  have hroom : (A.absBufLen - st.used).toNat = A.absBufLen.toNat - st.used.toNat :=
    UInt32.toNat_sub_of_le _ _ hused
  obtain ⟨len, heq, hbind⟩ := (hlen st.mem _ _ hsource).bind _
  rw [hbind, ← heq]
  have hfit : len.toNat ≤ (srOffsetAvail A off).toNat := heq ▸ hle _ _ _
  by_cases hmalformed : len = 0
  · rw [if_pos hmalformed, if_pos (by simp [hmalformed])]
    exact runs_error hused
  rw [if_neg hmalformed, if_neg (mt (eq_zero_iff rfl).mpr hmalformed)]
  by_cases hfull : A.absBufLen - st.used < len
  · have hfull' := UInt32.lt_iff_toNat_lt.mp hfull
    rw [if_pos hfull, if_pos (by omega)]
    exact runs_error hused
  have hfits := mt UInt32.lt_iff_toNat_lt.mpr hfull
  have hused' : st.used.toNat ≤ A.absBufLen.toNat := hused
  have hbuf := A.absBufLen.toNat_lt
  have hnext : (st.used + len).toNat = st.used.toNat + len.toNat := by
    rw [UInt32.toNat_add, Nat.mod_eq_of_lt (by omega)]
  have htarget : A.Target (A.absBuf + st.used.toNat) len.toNat := by
    unfold Buffers.Target
    omega
  rw [if_neg hfull, if_neg (by omega), memcpy, if_pos ⟨hsource.start hfit, htarget⟩,
    Option.map_some, ← hnext]
  apply runs_ok
  rw [UInt32.le_iff_toNat_le, hnext]
  omega

/-- What `Runs` says, once the last state is the value of the whole function. -/
def Returns (A : Buffers) (r : Option (Except (Option State) State))
    (r' : Except (Option Unpacked) Unpacked) : Prop :=
  ∃ x, r = some x ∧ (x.map State.plain).mapError (Option.map State.plain) = r' ∧
    ∀ st, x = .ok st ∨ x = .error (some st) → st.used ≤ A.absBufLen

theorem Runs.returns {r : Option (Except State State)} {r' : Except Unpacked Unpacked}
    (h : Runs A r r') : Returns A (r.map (Except.mapError some)) (r'.mapError some) := by
  obtain ⟨x, rfl, rfl, hused⟩ := h
  match x with
  | .ok st =>
    refine ⟨_, rfl, rfl, ?_⟩
    rintro st' (heq | heq)
    · cases heq
      exact hused st (.inl rfl)
    · cases heq
  | .error st =>
    refine ⟨_, rfl, rfl, ?_⟩
    rintro st' (heq | heq)
    · cases heq
    · cases heq
      exact hused st (.inr rfl)

theorem rtlSelfRelativeToAbsoluteSD_returns (A : Buffers) (m : ByteMem)
    (abs : Option SecurityDescriptor) : Returns A (rtlSelfRelativeToAbsoluteSD A m abs)
      (Security.rtlSelfRelativeToAbsoluteSD m A.rel A.relLen.toNat abs A.absBuf
        A.absBufLen.toNat) := by
  match abs with
  | none =>
    refine ⟨_, rfl, rfl, ?_⟩
    rintro st (heq | heq) <;> cases heq
  | some abs =>
    have herror : Returns A (some (.error (some ⟨m, abs, 0⟩))) (.error (some ⟨m, abs, 0⟩)) :=
      (@runs_error A ⟨m, abs, 0⟩ UInt32.zero_le).returns
    unfold rtlSelfRelativeToAbsoluteSD Security.rtlSelfRelativeToAbsoluteSD
    dsimp only
    by_cases hnull : A.rel = 0 ∨ A.absBuf = 0
    · rw [if_pos hnull, if_pos hnull]
      exact herror
    rw [if_neg hnull, if_neg hnull]
    by_cases hshort : A.relLen.toNat < relHeaderSize
    · rw [if_pos (UInt32.lt_iff_toNat_lt.mpr hshort), if_pos hshort]
      exact herror
    have hheader : A.Source A.rel 20 := ⟨Nat.le_refl _, by
      simp only [relHeaderSize] at hshort
      omega⟩
    rw [if_neg (mt UInt32.lt_iff_toNat_lt.mp hshort), if_neg hshort,
      (hheader.start (k := 1) (by decide)).bind, readLE_one]
    by_cases hrev : (m A.rel).toNat ≠ relativeRevision
    · rw [if_pos hrev, if_pos hrev]
      exact herror
    rw [if_neg hrev, if_neg hrev, (hheader.part (i := relControl) (k := 2) (by decide)).bind]
    by_cases hself : ¬ hasFlag (readLE m (A.rel + relControl) 2) seSelfRelative
    · rw [if_pos hself, if_pos hself]
      exact herror
    rw [if_neg hself, if_neg hself]
    apply Runs.returns
    have hsid := fun m p avail => @rtlLengthSidBounded_spec A m p avail
    have hacl := fun m p avail => @aclLengthBounded_spec A m p avail
    have hfield : ∀ field, field + 4 ≤ 20 → A.Source (A.rel + field) 4 := fun field h =>
      hheader.part h
    simp only [← bind_assoc]
    refine .next (.next (.next ?_ fun st hst => ?_) fun st hst => ?_) fun st hst => ?_
    · exact takeComponent_runs hsid rtlLengthSidBounded_le (hfield _ (by decide)) UInt32.zero_le
    · exact takeComponent_runs hsid rtlLengthSidBounded_le (hfield _ (by decide)) hst
    · exact takeComponent_runs hacl aclLengthBounded_le (hfield _ (by decide)) hst
    · exact takeComponent_runs hacl aclLengthBounded_le (hfield _ (by decide)) hst

end ImpossibleOs.Security.Checked
