import ImpossibleOs.Vfs.ResolveSpec

/-!
`vfs_resolve_path` computes the component-wise normal form.
-/

namespace ImpossibleOs.Vfs

open ByteMem Split List

variable {m : ByteMem} {out outSize oi : ℕ} {drive : UInt8} {stack : List (List UInt8)}

theorem components_next {p : List UInt8} (hp : p.dropWhile isSep ≠ []) :
    Piece isSep ((p.dropWhile isSep).takeWhile fun c => !isSep c) ∧
      components isSep p = ((p.dropWhile isSep).takeWhile fun c => !isSep c) ::
        components isSep ((p.dropWhile isSep).dropWhile fun c => !isSep c) ∧
      ((p.dropWhile isSep).dropWhile fun c => !isSep c).length < p.length := by
  rcases dropWhile_eq_nil_or (p := isSep) p with hnil | ⟨x, ys, hcons, hx⟩
  · exact absurd hnil hp
  · obtain ⟨hpiece, hcomp⟩ := components_takeWhile (p := isSep) hp (by simp [hcons, hx])
    refine ⟨hpiece, by rw [← components_dropWhile, hcomp], ?_⟩
    have hle := (dropWhile_suffix isSep (l := p)).length_le
    have hlt := (dropWhile_suffix (fun c => !isSep c) (l := ys)).length_le
    rw [hcons] at hle ⊢
    rw [dropWhile_cons_of_pos (by simp [hx])]
    simp only [length_cons] at hle
    omega

theorem normalizeLoop_spec {fuel : ℕ} {p : List UInt8} (h : Built m out outSize oi drive stack) :
    SameOutside out (out + outSize) m (normalizeLoop out outSize fuel p m oi).1 ∧
    ∀ oi', (normalizeLoop out outSize fuel p m oi).2 = some oi' →
      Built (normalizeLoop out outSize fuel p m oi).1 out outSize oi' drive
        ((components isSep p).foldl applyComponent stack) := by
  induction fuel generalizing p m oi stack with
  | zero => exact ⟨SameOutside.refl _ _ _, nofun⟩
  | succ fuel ih =>
    unfold normalizeLoop
    dsimp only
    by_cases hend : p.dropWhile isSep = []
    · rw [if_pos hend]
      refine ⟨SameOutside.refl _ _ _, ?_⟩
      rintro oi' ⟨⟩
      rw [← components_dropWhile, hend]
      exact h
    rw [if_neg hend]
    obtain ⟨hpiece, hcomp, -⟩ := components_next hend
    rw [hcomp, foldl_cons]
    generalize (p.dropWhile isSep).takeWhile (fun c => !isSep c) = comp at hpiece ⊢
    generalize (p.dropWhile isSep).dropWhile (fun c => !isSep c) = rest
    by_cases hlong : vfsMaxName ≤ comp.length
    · rw [if_pos hlong]
      exact ⟨SameOutside.refl _ _ _, nofun⟩
    rw [if_neg hlong]
    by_cases hdot : comp = [dot]
    · rw [if_pos hdot, show applyComponent stack comp = stack from if_pos hdot]
      exact ih h
    rw [if_neg hdot]
    by_cases hdotdot : comp = [dot, dot]
    · rw [if_pos hdotdot, show applyComponent stack comp = stack.dropLast by
        rw [applyComponent, if_neg hdot, if_pos hdotdot]]
      have hpop := h.pop
      obtain ⟨hsame, hbuilt⟩ := ih (p := rest) hpop
      refine ⟨SameOutside.trans ?_ hsame, hbuilt⟩
      exact sameOutside_putByte (by omega) (by have := hpop.fits; omega)
    rw [if_neg hdotdot]
    by_cases hroom : outSize ≤ oi + 1 + comp.length
    · rw [if_pos hroom]
      exact ⟨SameOutside.refl _ _ _, nofun⟩
    · rw [if_neg hroom, show applyComponent stack comp = stack ++ [comp] by
        rw [applyComponent, if_neg hdot, if_neg hdotdot]]
      have hpush := h.push ⟨hpiece, hdot, hdotdot⟩ (by omega) (by omega)
      obtain ⟨hsame, hbuilt⟩ := ih (p := rest) hpush
      refine ⟨SameOutside.trans ?_ hsame, hbuilt⟩
      exact (pushComponent_sameOutside m out oi comp).mono (by omega) (by omega)

theorem normalizeLoop_accepts {fuel : ℕ} {p : List UInt8} (hfuel : p.length < fuel)
    (h : Built m out outSize oi drive stack)
    (hproper : ∀ c ∈ components isSep p, Proper c ∧ c.length < vfsMaxName)
    (hroom : 2 + (join backslash (stack ++ components isSep p)).length < outSize) :
    ∃ oi', (normalizeLoop out outSize fuel p m oi).2 = some oi' := by
  induction fuel generalizing p m oi stack with
  | zero => omega
  | succ fuel ih =>
    unfold normalizeLoop
    dsimp only
    by_cases hend : p.dropWhile isSep = []
    · rw [if_pos hend]
      exact ⟨oi, rfl⟩
    rw [if_neg hend]
    obtain ⟨-, hcomp, hlt⟩ := components_next hend
    rw [hcomp] at hproper hroom
    obtain ⟨hfirst, hshort⟩ := hproper _ mem_cons_self
    rw [if_neg (by omega), if_neg hfirst.ne_dot, if_neg hfirst.ne_dotdot]
    have hlen := h.len
    have hfit : oi + 1 + ((p.dropWhile isSep).takeWhile fun c => !isSep c).length < outSize := by
      simp only [join, flatMap_append, flatMap_cons, length_append,
        length_cons] at hroom hlen
      omega
    rw [if_neg (by omega)]
    refine ih (by omega) (h.push hfirst hshort hfit) ?_ ?_
    · exact fun c hc => hproper c (mem_cons_of_mem _ hc)
    · rw [append_assoc]
      exact hroom

/-! ### The work buffer -/

theorem pushAll_eq (work l : List UInt8) :
    pushAll work l = if l = [] ∨ work.length + l.length ≤ vfsMaxPath * 2 - 1 then some (work ++ l)
      else none := by
  induction l generalizing work with
  | nil => simp [pushAll]
  | cons b l ih =>
    unfold pushAll at ih ⊢
    rw [foldlM_cons, pushWork]
    by_cases hfull : vfsMaxPath * 2 - 1 ≤ work.length
    · rw [if_pos hfull, if_neg (by simp; omega)]
      rfl
    · rw [if_neg hfull]
      change l.foldlM pushWork (work ++ [b]) = _
      rw [ih]
      by_cases hfit : work.length + (b :: l).length ≤ vfsMaxPath * 2 - 1
      · rw [if_pos (.inr (by simpa [add_assoc, add_comm, Nat.add_left_comm] using hfit)),
          if_pos (.inr hfit)]
        simp
      · rw [if_neg, if_neg (by simp only [reduceCtorEq, false_or]; exact hfit)]
        rintro (rfl | h)
        · simp at hfit
          omega
        · simp at hfit h
          omega

theorem pushAll_eq_some {work l work' : List UInt8} (h : pushAll work l = some work') :
    work' = work ++ l := by
  rw [pushAll_eq] at h
  split at h
  · exact (Option.some.inj h).symm
  · exact absurd h nofun

theorem driveOf_upper {c : UInt8} (h : isLetter c = true) :
    0x41 ≤ driveOf c ∧ driveOf c ≤ 0x5A := by
  have hall : ∀ n : Fin 256, isLetter (UInt8.ofNat n) = true →
      0x41 ≤ driveOf (UInt8.ofNat n) ∧ driveOf (UInt8.ofNat n) ≤ 0x5A := by decide +kernel
  have := hall ⟨c.toNat, c.toNat_lt⟩
  simpa using this (by simpa using h)

theorem driveOf_of_upper {c : UInt8} (h : c ≤ 0x5A) : driveOf c = c := by
  unfold driveOf
  rw [if_neg]
  intro hle
  exact absurd (UInt8.le_trans hle h) (by decide)

theorem Canonical.at_zero {cwd : CString} (h : Canonical cwd.bytes drive stack) :
    cwd.at 0 = drive := by
  simp [CString.at, h.eq, render]

theorem Canonical.at_one {cwd : CString} (h : Canonical cwd.bytes drive stack) :
    cwd.at 1 = colon := by
  simp [CString.at, h.eq, render]

theorem Canonical.components_tail {path : List UInt8} (h : Canonical path drive stack) :
    components isSep (path.drop 2) = stack := by
  rw [h.eq, render]
  simp only [drop_succ_cons, drop_zero]
  split
  · rename_i hnil
    rw [hnil]
    decide
  · exact components_join (by decide) fun c hc => (h.proper c hc).toPiece

theorem CString.at_zero_ne_zero {s : CString} (h : s.at 1 = colon) : s.at 0 ≠ 0 := by
  obtain ⟨bytes, hne⟩ := s
  cases bytes with
  | nil => simp [CString.at, colon] at h
  | cons b bs => simpa [CString.at] using hne b mem_cons_self

theorem assemble_spec {cwd inp : CString} {work : List UInt8}
    (hcwd : inp.at 1 = colon ∨ ∃ d s, Canonical cwd.bytes d s)
    (h : assemble cwd inp = some (drive, work)) :
    (drive, components isSep work) = named cwd inp ∧ (0x41 ≤ drive ∧ drive ≤ 0x5A) ∧
      ∀ b ∈ work, b ≠ 0 := by
  unfold assemble at h
  unfold named
  by_cases hdrive : inp.at 1 = colon
  · rw [if_pos ⟨CString.at_zero_ne_zero hdrive, hdrive⟩] at h
    split at h
    · rename_i hletter
      obtain ⟨work', hwork, heq⟩ := Option.map_eq_some_iff.mp h
      obtain ⟨rfl, rfl⟩ := Prod.mk.inj heq
      rw [pushAll_eq_some hwork, if_pos hdrive]
      exact ⟨rfl, driveOf_upper hletter, fun b hb => inp.ne_zero b (mem_of_mem_drop hb)⟩
    · exact absurd h nofun
  · obtain ⟨d, s, hcan⟩ := hcwd.resolve_left hdrive
    have hupper : 0x41 ≤ driveOf (cwd.at 0) ∧ driveOf (cwd.at 0) ≤ 0x5A := by
      rw [hcan.at_zero, driveOf_of_upper hcan.drive.2]
      exact hcan.drive
    have hvalid : ¬ (cwd.at 0 = 0 ∨ cwd.at 1 ≠ colon) := by
      rintro (hz | hz)
      · exact CString.at_zero_ne_zero hcan.at_one hz
      · exact hz hcan.at_one
    rw [if_neg (fun hc => hdrive hc.2), if_neg hvalid] at h
    rw [if_neg hdrive]
    by_cases hroot : inp.at 0 = backslash ∨ inp.at 0 = slash
    · rw [if_pos hroot] at h
      obtain ⟨work', hwork, heq⟩ := Option.map_eq_some_iff.mp h
      obtain ⟨rfl, rfl⟩ := Prod.mk.inj heq
      rw [pushAll_eq_some hwork, if_pos (by simpa [isSep] using hroot)]
      exact ⟨rfl, hupper, fun b hb => inp.ne_zero b (by simpa using hb)⟩
    · rw [if_neg hroot] at h
      rw [if_neg (by simpa [isSep] using hroot)]
      cases h₁ : pushAll [] (cwd.bytes.drop 2) with
      | none => simp [h₁] at h
      | some w₁ =>
        cases h₂ : pushWork w₁ backslash with
        | none => simp [h₁, h₂] at h
        | some w₂ =>
          cases h₃ : pushAll w₂ inp.bytes with
          | none => simp [h₁, h₂, h₃] at h
          | some w₃ =>
            obtain ⟨rfl, rfl⟩ : driveOf (cwd.at 0) = drive ∧ w₃ = work := by
              simpa [h₁, h₂, h₃] using h
            have hw₂ : w₂ = w₁ ++ [backslash] := by
              unfold pushWork at h₂
              split at h₂
              · exact absurd h₂ nofun
              · exact (Option.some.inj h₂).symm
            have hw₁ := pushAll_eq_some h₁
            rw [nil_append] at hw₁
            rw [pushAll_eq_some h₃, hw₂, append_assoc, singleton_append,
              components_append_cons (by decide), hw₁]
            refine ⟨rfl, hupper, ?_⟩
            intro b hb
            rcases mem_append.mp hb with hb | hb
            · exact cwd.ne_zero b (mem_of_mem_drop hb)
            · rcases mem_cons.mp hb with rfl | hb
              · decide
              · exact inp.ne_zero b hb

/-! ### The result -/

structure StringAt (m : ByteMem) (a : ℕ) (l : List UInt8) : Prop where
  text : bytes m a l.length = l
  nul : m (a + l.length) = 0

theorem mem_foldl_applyComponent {l : List (List UInt8)} {c : List UInt8}
    (h : c ∈ l.foldl applyComponent stack) : c ∈ stack ∨ c ∈ l := by
  induction l generalizing stack with
  | nil => exact .inl h
  | cons d l ih =>
    rcases ih h with hc | hc
    · unfold applyComponent at hc
      split at hc
      · exact .inl hc
      · split at hc
        · exact .inl (dropLast_subset _ hc)
        · rcases mem_append.mp hc with hc | hc
          · exact .inl hc
          · rw [mem_singleton.mp hc]
            exact .inr mem_cons_self
    · exact .inr (mem_cons_of_mem _ hc)

theorem foldl_applyComponent_proper {l : List (List UInt8)} (h : ∀ c ∈ l, Proper c) :
    l.foldl applyComponent stack = stack ++ l := by
  induction l generalizing stack with
  | nil => simp
  | cons c l ih =>
    have hc := h c mem_cons_self
    rw [foldl_cons, applyComponent, if_neg hc.ne_dot, if_neg hc.ne_dotdot,
      ih fun d hd => h d (mem_cons_of_mem _ hd)]
    simp

theorem Built.render (h : Built m out outSize oi drive stack) (hsize : 4 ≤ outSize) :
    let m' := if oi = 2 then putByte (putByte m (out + oi) backslash) (out + oi + 1) 0 else m
    SameOutside out (out + outSize) m m' ∧ StringAt m' out (render drive stack) ∧
      (Vfs.render drive stack).length + 1 ≤ outSize := by
  have hlen := h.len
  have hfits := h.fits
  by_cases hroot : stack = []
  · subst hroot
    obtain rfl : oi = 2 := by simpa using hlen
    have htext := h.text
    simp only [bytes, range_succ, range_zero, nil_append, map_cons,
      map_nil, join_nil, cons_append] at htext
    obtain ⟨h₀, h₁⟩ : m (out + 0) = drive ∧ m (out + 1) = colon := by simpa using htext
    dsimp only
    rw [if_pos rfl]
    refine ⟨?_, ⟨?_, ?_⟩, ?_⟩
    · exact (sameOutside_putByte (by omega) (by omega)).trans
        (sameOutside_putByte (by omega) (by omega))
    · have hout : out ≠ out + 2 + 1 := by omega
      simp [Vfs.render, bytes, range_succ, putByte, h₁, show m out = drive from h₀, hout]
    · exact putByte_same _ _ _
    · simp only [Vfs.render, if_true, length_cons, length_nil]
      omega
  · have hne : oi ≠ 2 := by
      intro heq
      cases stack with
      | nil => exact hroot rfl
      | cons c l =>
        simp at hlen
        omega
    have hrender : (Vfs.render drive stack).length = oi := by
      simp only [Vfs.render, if_neg hroot, length_cons]
      omega
    dsimp only
    rw [if_neg hne]
    refine ⟨SameOutside.refl _ _ _, ⟨?_, ?_⟩, by omega⟩
    · rw [hrender, h.text, Vfs.render, if_neg hroot]
    · rw [hrender]
      exact h.nul

theorem start_sameOutside (m : ByteMem) (drive : UInt8) (hsize : 4 ≤ outSize) :
    SameOutside out (out + outSize) m
      (putByte (putByte (putByte m out drive) (out + 1) colon) (out + 2) 0) :=
  ((sameOutside_putByte (by omega) (by omega)).trans
    (sameOutside_putByte (by omega) (by omega))).trans
    (sameOutside_putByte (by omega) (by omega))

theorem vfsResolvePath_assembled {cwd inp : CString} {work : List UInt8} (hout : out ≠ 0)
    (hsize : 4 ≤ outSize) (hasm : assemble cwd inp = some (drive, work)) :
    let r := vfsResolvePath m (some cwd) (some inp) out outSize
    let stack := (components isSep work).foldl applyComponent []
    SameOutside out (out + outSize) m r.1 ∧
      (r.2 = true → StringAt r.1 out (render drive stack) ∧
        (render drive stack).length + 1 ≤ outSize ∧
        ∀ c ∈ stack, Proper c ∧ c.length < vfsMaxName) ∧
      ((∀ c ∈ components isSep work, Proper c ∧ c.length < vfsMaxName) →
        2 + (join backslash (components isSep work)).length < outSize → r.2 = true) := by
  have hstart := @Built.start outSize m out drive hsize
  obtain ⟨hsame, hbuilt⟩ := @normalizeLoop_spec _ _ _ _ _ _ (work.length + 1) work hstart
  have hfirst := @start_sameOutside out _ m drive hsize
  have haccept := normalizeLoop_accepts (Nat.lt_succ_self work.length) hstart
  simp only [vfsResolvePath, hasm, show ¬ (out = 0 ∨ outSize < 4) by omega, if_false]
  generalize hrun : normalizeLoop out outSize (work.length + 1) work
    (putByte (putByte (putByte m out drive) (out + 1) colon) (out + 2) 0) 2 = res at *
  obtain ⟨m', done⟩ := res
  cases done with
  | none =>
    refine ⟨hfirst.trans hsame, fun h => absurd h Bool.false_ne_true, ?_⟩
    intro hproper hroom
    obtain ⟨oi', hoi'⟩ := haccept hproper (by simpa using hroom)
    exact absurd hoi' (by simp)
  | some oi =>
    have hb := hbuilt oi rfl
    obtain ⟨hlast, hstring, hfit⟩ := hb.render hsize
    refine ⟨?_, ?_, ?_⟩
    · by_cases hroot : oi = 2
      · simp only [hroot, if_true] at hlast ⊢
        exact (hfirst.trans hsame).trans hlast
      · simp only [hroot, if_false] at hlast ⊢
        exact hfirst.trans hsame
    · intro _
      refine ⟨?_, hfit, fun c hc => ⟨hb.proper c hc, hb.short c hc⟩⟩
      by_cases hroot : oi = 2
      · simp only [hroot, if_true] at hstring ⊢
        exact hstring
      · simp only [hroot, if_false] at hstring ⊢
        exact hstring
    · intro _ _
      by_cases hroot : oi = 2 <;> simp [hroot]

theorem render_ne_zero {drive : UInt8} (hdrive : 0x41 ≤ drive) {stack : List (List UInt8)}
    (h : ∀ c ∈ stack, ∀ b ∈ c, b ≠ 0) : ∀ b ∈ render drive stack, b ≠ 0 := by
  intro b hb
  rcases mem_cons.mp hb with rfl | hb
  · rintro rfl
    exact absurd hdrive (by decide)
  rcases mem_cons.mp hb with rfl | hb
  · decide
  split at hb
  · rw [mem_singleton.mp hb]
    decide
  · obtain ⟨c, hc, hbc⟩ := mem_flatMap.mp hb
    rcases mem_cons.mp hbc with rfl | hbc
    · decide
    · exact h c hc b hbc

theorem Canonical.assemble_eq {path : CString} (h : Canonical path.bytes drive stack)
    (cwd : CString) : assemble cwd path =
      if path.bytes.length ≤ vfsMaxPath * 2 + 1 then some (drive, path.bytes.drop 2) else none := by
  have hletter : isLetter drive = true := by
    simp [isLetter, h.drive.1, h.drive.2]
  have hlen : 2 ≤ (path.bytes).length := by
    rw [h.eq, render]
    simp
  have hne : path.bytes.drop 2 ≠ [] := by
    rw [h.eq, render]
    simp only [drop_succ_cons, drop_zero]
    split
    · exact cons_ne_nil _ _
    · cases stack with
      | nil => exact absurd rfl ‹_›
      | cons c l => simp
  rw [assemble, if_pos ⟨CString.at_zero_ne_zero h.at_one, h.at_one⟩, h.at_zero, if_pos hletter,
    driveOf_of_upper h.drive.2, pushAll_eq]
  simp only [hne, false_or, length_nil, zero_add, length_drop, nil_append]
  by_cases hfit : path.bytes.length ≤ vfsMaxPath * 2 + 1
  · rw [if_pos (by unfold vfsMaxPath at *; omega), if_pos hfit]
    rfl
  · rw [if_neg (by unfold vfsMaxPath at *; omega), if_neg hfit]
    rfl

theorem Canonical.fixed {path : CString} (h : Canonical path.bytes drive stack)
    (hshort : ∀ c ∈ stack, c.length < vfsMaxName) (hout : out ≠ 0) (hsize : 4 ≤ outSize)
    (hfits : path.bytes.length + 1 ≤ outSize) (m : ByteMem) (cwd : CString) :
    ((vfsResolvePath m (some cwd) (some path) out outSize).2 = true ↔
      path.bytes.length ≤ vfsMaxPath * 2 + 1) ∧
    ((vfsResolvePath m (some cwd) (some path) out outSize).2 = true →
      StringAt (vfsResolvePath m (some cwd) (some path) out outSize).1 out path.bytes) := by
  have hasm := h.assemble_eq cwd
  by_cases hwork : path.bytes.length ≤ vfsMaxPath * 2 + 1
  · rw [if_pos hwork] at hasm
    obtain ⟨-, hstring, haccept⟩ := vfsResolvePath_assembled (m := m) hout hsize hasm
    rw [h.components_tail] at hstring haccept
    have hjoin : 2 + (join backslash stack).length < outSize := by
      rw [h.eq, render] at hfits
      by_cases hroot : stack = []
      · subst hroot
        simp
        omega
      · rw [if_neg hroot] at hfits
        simp only [length_cons] at hfits
        omega
    have hdone := haccept (fun c hc => ⟨h.proper c hc, hshort c hc⟩) hjoin
    refine ⟨iff_of_true hdone hwork, fun _ => ?_⟩
    obtain ⟨hat, -⟩ := hstring hdone
    rw [foldl_applyComponent_proper h.proper, nil_append, ← h.eq] at hat
    exact hat
  · rw [if_neg hwork] at hasm
    have hfail : (vfsResolvePath m (some cwd) (some path) out outSize).2 = false := by
      simp [vfsResolvePath, hasm, show ¬ (out = 0 ∨ outSize < 4) by omega]
    rw [hfail]
    exact ⟨iff_of_false Bool.false_ne_true hwork, fun hf => absurd hf Bool.false_ne_true⟩

/-- Under a canonical working directory a call writes to its buffer only, and when it returns 0 the
buffer holds the component-wise normal form of the input, a canonical path that fits with its
terminator; resolving it again returns 0 exactly when it has at most 1025 characters, and then
gives the same path. -/
theorem vfsResolvePath_normal (m : ByteMem) (cwd inp : CString) (out outSize : ℕ)
    (hcwd : ∃ drive stack, Canonical cwd.bytes drive stack) {r : ByteMem × Bool}
    (hr : vfsResolvePath m (some cwd) (some inp) out outSize = r) :
    SameOutside out (out + outSize) m r.1 ∧
    (r.2 = true → ∃ path : CString, path.bytes = normalForm cwd inp ∧
      (∃ drive stack, Canonical path.bytes drive stack) ∧
      path.bytes.length + 1 ≤ outSize ∧ StringAt r.1 out path.bytes ∧
      ∀ m' cwd' r', vfsResolvePath m' (some cwd') (some path) out outSize = r' →
        (r'.2 = true ↔ path.bytes.length ≤ vfsMaxPath * 2 + 1) ∧
        (r'.2 = true → StringAt r'.1 out path.bytes)) := by
  subst hr
  by_cases hbad : out = 0 ∨ outSize < 4
  · simp only [vfsResolvePath, hbad, if_true]
    exact ⟨SameOutside.refl _ _ _, fun h => absurd h Bool.false_ne_true⟩
  cases hasm : assemble cwd inp with
  | none =>
    simp only [vfsResolvePath, hbad, hasm, if_false]
    exact ⟨SameOutside.refl _ _ _, fun h => absurd h Bool.false_ne_true⟩
  | some p =>
    obtain ⟨drive, work⟩ := p
    obtain ⟨hnamed, hdrive, hwork⟩ := assemble_spec (.inr hcwd) hasm
    obtain ⟨hsame, hstring, -⟩ :=
      @vfsResolvePath_assembled m out outSize _ _ _ _ (by omega) (by omega) hasm
    refine ⟨hsame, ?_⟩
    intro hdone
    obtain ⟨hat, hfits, hstack⟩ := hstring hdone
    have hform : normalForm cwd inp =
        render drive ((components isSep work).foldl applyComponent []) := by
      rw [normalForm, ← hnamed]
    have hzero : ∀ c ∈ (components isSep work).foldl applyComponent [], ∀ b ∈ c, b ≠ 0 := by
      intro c hc b hb
      rcases mem_foldl_applyComponent hc with hc | hc
      · exact absurd hc not_mem_nil
      · exact hwork b (mem_of_mem_components hc b hb)
    have hcan : Canonical (render drive ((components isSep work).foldl applyComponent [])) drive
        ((components isSep work).foldl applyComponent []) :=
      ⟨rfl, hdrive, fun c hc => (hstack c hc).1⟩
    refine ⟨⟨_, render_ne_zero hdrive.1 hzero⟩, hform.symm, ⟨_, _, hcan⟩, hfits, hat, ?_⟩
    rintro m' cwd' r' rfl
    exact @Canonical.fixed _ _ _ _ ⟨_, render_ne_zero hdrive.1 hzero⟩ hcan
      (fun c hc => (hstack c hc).2) (by omega) (by omega) hfits m' cwd'

theorem ne_zero_of_all {bytes : List UInt8} (h : bytes.all (· != 0) = true) :
    ∀ b ∈ bytes, b ≠ 0 := by
  intro b hb
  exact bne_iff_ne.mp (all_eq_true.mp h b hb)

def rootDir : CString := ⟨[0x43, 0x3A, 0x5C], ne_zero_of_all rfl⟩

theorem rootDir_canonical : Canonical rootDir.bytes 0x43 [] := ⟨rfl, by decide, nofun⟩

/-- `a\..\b/.` -/
def mixedInput : CString := ⟨[0x61, 0x5C, 0x2E, 0x2E, 0x5C, 0x62, 0x2F, 0x2E],
  ne_zero_of_all rfl⟩

theorem vfsResolvePath_normal_mixedInput :
    (∃ drive stack, Canonical rootDir.bytes drive stack) ∧
      StringAt (vfsResolvePath (fun _ => 0) (some rootDir) (some mixedInput) 1 16).1 1
        [0x43, 0x3A, 0x5C, 0x62] := by
  refine ⟨⟨_, _, rootDir_canonical⟩, ?_⟩
  obtain ⟨-, h⟩ := vfsResolvePath_normal (fun _ => 0) rootDir mixedInput 1 16
    ⟨_, _, rootDir_canonical⟩ rfl
  obtain ⟨path, hform, -, -, hat, -⟩ := h (by decide)
  rw [hform] at hat
  exact hat

/-- Four components of 255 characters that follow the drive without a separator. -/
def longTail : List UInt8 :=
  List.replicate 255 0x61 ++ 0x5C :: (List.replicate 255 0x61 ++ 0x5C ::
    (List.replicate 255 0x61 ++ 0x5C :: List.replicate 255 0x61))

def longInput : CString := ⟨0x43 :: 0x3A :: longTail, ne_zero_of_all (by decide +kernel)⟩

def longPath : CString :=
  ⟨0x43 :: 0x3A :: 0x5C :: longTail, ne_zero_of_all (by decide +kernel)⟩

/-- An input that fills the work buffer resolves to a path that does not resolve. -/
theorem vfsResolvePath_not_fixed :
    (∃ drive stack, Canonical rootDir.bytes drive stack) ∧
    (vfsResolvePath (fun _ => 0) (some rootDir) (some longInput) 1 2000).2 = true ∧
    StringAt (vfsResolvePath (fun _ => 0) (some rootDir) (some longInput) 1 2000).1 1
      longPath.bytes ∧
    (vfsResolvePath (fun _ => 0) (some rootDir) (some longPath) 1 2000).2 = false := by
  have hasm : assemble rootDir longInput = some (0x43, longTail) := by
    rw [assemble, if_pos (by decide), if_pos (by decide), pushAll_eq,
      if_pos (.inr (by decide +kernel))]
    rfl
  have hcomp : components isSep longTail = List.replicate 4 (List.replicate 255 0x61) := by
    decide +kernel
  obtain ⟨-, hstring, haccept⟩ := @vfsResolvePath_assembled (fun _ => 0) 1 2000 _ _ _ _
    (by decide) (by decide) hasm
  rw [hcomp] at hstring haccept
  have hproper : ∀ c ∈ List.replicate 4 (List.replicate 255 (0x61 : UInt8)),
      Proper c ∧ c.length < vfsMaxName := by
    intro c hc
    rw [eq_of_mem_replicate hc]
    refine ⟨⟨⟨by decide, ?_⟩, by decide, by decide⟩, by decide +kernel⟩
    intro x hx
    rw [eq_of_mem_replicate hx]
    decide
  have hdone := haccept hproper (by decide +kernel)
  have hat := (hstring hdone).1
  rw [foldl_applyComponent_proper fun c hc => (hproper c hc).1] at hat
  have hcan : Canonical longPath.bytes 0x43 (List.replicate 4 (List.replicate 255 0x61)) :=
    ⟨by decide +kernel, by decide, fun c hc => (hproper c hc).1⟩
  refine ⟨⟨_, _, rootDir_canonical⟩, hdone, hcan.eq ▸ hat, ?_⟩
  have hfail : assemble rootDir longPath = none := by
    rw [hcan.assemble_eq rootDir, if_neg (by decide +kernel)]
  simp [vfsResolvePath, hfail]

end ImpossibleOs.Vfs
