import ImpossibleOs.Vfs.Resolve

/-!
The path that `vfs_resolve_path` leaves in its buffer.
-/

namespace ImpossibleOs.Vfs

open ByteMem Split List

/-! ### The buffer -/

@[simp] theorem putByte_same (m : ByteMem) (a : ℕ) (b : UInt8) : putByte m a b a = b := by
  simp [putByte]

theorem putByte_of_ne {m : ByteMem} {a x : ℕ} {b : UInt8} (h : x ≠ a) : putByte m a b x = m x :=
  if_neg h

theorem sameOutside_putByte {m : ByteMem} {a lo hi : ℕ} {b : UInt8} (hlo : lo ≤ a) (hhi : a < hi) :
    SameOutside lo hi m (putByte m a b) := fun x hx => putByte_of_ne (by omega)

theorem bytes_add (m : ByteMem) (a n k : ℕ) :
    bytes m a (n + k) = bytes m a n ++ bytes m (a + n) k := by
  simp only [bytes, range_add, map_append, map_map]
  congr 1
  apply map_congr_left
  intro i _
  simp [add_assoc]

/-- The buffer holds the path of a stack of components, without the separator of the root. -/
structure Built (m : ByteMem) (out outSize oi : ℕ) (drive : UInt8) (stack : List (List UInt8)) :
    Prop where
  len : oi = 2 + (join backslash stack).length
  fits : oi < outSize
  text : bytes m out oi = drive :: colon :: join backslash stack
  nul : m (out + oi) = 0
  proper : ∀ c ∈ stack, Proper c
  short : ∀ c ∈ stack, c.length < vfsMaxName

variable {m : ByteMem} {out outSize oi : ℕ} {drive : UInt8} {stack : List (List UInt8)}

theorem Built.start (m : ByteMem) (out : ℕ) (drive : UInt8) (hsize : 4 ≤ outSize) :
    Built (putByte (putByte (putByte m out drive) (out + 1) colon) (out + 2) 0) out outSize 2 drive
      [] := by
  refine ⟨rfl, by omega, ?_, putByte_same _ _ _, nofun, nofun⟩
  simp [bytes, range_succ, putByte]

theorem pushComponent_sameOutside (m : ByteMem) (out oi : ℕ) (comp : List UInt8) :
    SameOutside (out + oi) (out + oi + 1 + comp.length + 1) m (pushComponent m out oi comp) := by
  have h₁ := sameOutside_putByte (m := m) (b := backslash) (le_refl (out + oi))
    (show out + oi < out + oi + 1 + comp.length + 1 by omega)
  have h₂ := sameOutside_storeBytes (m := putByte m (out + oi) backslash) (a := out + oi + 1)
    (l := comp) (b := out + oi) (e := out + oi + 1 + comp.length + 1) (by omega) (by omega)
  exact (h₁.trans h₂).trans (sameOutside_putByte (by omega) (by omega))

theorem bytes_pushComponent (m : ByteMem) (out oi : ℕ) (comp : List UInt8) :
    bytes (pushComponent m out oi comp) out (oi + 1 + comp.length) =
      bytes m out oi ++ backslash :: comp := by
  have hold : bytes (pushComponent m out oi comp) out oi = bytes m out oi :=
    bytes_congr ((pushComponent_sameOutside m out oi comp).agreeOn (.inl (le_refl _)))
  have hsep : bytes (pushComponent m out oi comp) (out + oi) 1 = [backslash] := by
    have hval : pushComponent m out oi comp (out + oi) = backslash := by
      unfold pushComponent
      rw [putByte_of_ne (by omega)]
      have := sameOutside_storeBytes (m := putByte m (out + oi) backslash) (a := out + oi + 1)
        (l := comp) (le_refl _) (le_refl _) (out + oi) (by omega)
      rw [this, putByte_same]
    simp [bytes, range_succ, hval]
  have hcomp : bytes (pushComponent m out oi comp) (out + (oi + 1)) comp.length = comp := by
    have hagree := (sameOutside_putByte (m := storeBytes (putByte m (out + oi) backslash)
      (out + oi + 1) comp) (a := out + oi + 1 + comp.length) (b := 0)
      (le_refl (out + oi + 1 + comp.length))
      (show out + oi + 1 + comp.length < out + oi + 1 + comp.length + 1 by omega)).agreeOn
      (b := out + oi + 1) (c := out + oi + 1 + comp.length) (.inl (le_refl _))
    have hstore := bytes_storeBytes_same (putByte m (out + oi) backslash) (out + oi + 1)
      comp.length (le_refl comp.length)
    rw [← add_assoc, pushComponent, bytes_congr hagree, hstore]
    simp [drop_of_length_le]
  rw [show oi + 1 + comp.length = oi + 1 + comp.length from rfl, bytes_add, bytes_add, hold, hsep,
    hcomp, append_assoc, singleton_append]

section

variable (h : Built m out outSize oi drive stack)
include h

theorem Built.push {c : List UInt8} (hc : Proper c)
    (hshort : c.length < vfsMaxName) (hroom : oi + 1 + c.length < outSize) :
    Built (pushComponent m out oi c) out outSize (oi + 1 + c.length) drive (stack ++ [c]) := by
  refine ⟨?_, hroom, ?_, ?_, ?_, ?_⟩
  · rw [join_concat, h.len]
    simp
    omega
  · rw [bytes_pushComponent, h.text, join_concat]
    rfl
  · unfold pushComponent
    rw [show out + (oi + 1 + c.length) = out + oi + 1 + c.length by omega, putByte_same]
  · intro d hd
    rcases mem_append.mp hd with hd | hd
    · exact h.proper d hd
    · rw [mem_singleton.mp hd]
      exact hc
  · intro d hd
    rcases mem_append.mp hd with hd | hd
    · exact h.short d hd
    · rw [mem_singleton.mp hd]
      exact hshort

omit h in
theorem popBytes_eq {k : ℕ} (hk : 2 < k) (hle : k ≤ oi) (hsep : m (out + (k - 1)) = backslash)
    (hclean : ∀ j, k ≤ j → j < oi → m (out + j) ≠ backslash) : popBytes m out oi = k := by
  induction oi with
  | zero => omega
  | succ oi ih =>
    unfold popBytes
    by_cases hlast : k = oi + 1
    · rw [if_neg, hlast]
      rintro ⟨-, hne⟩
      rw [show k - 1 = oi by omega] at hsep
      exact hne hsep
    · rw [if_pos ⟨by omega, hclean oi (by omega) (by omega)⟩]
      exact ih (by omega) fun j hj hlt => hclean j hj (by omega)

theorem Built.apply_eq {j : ℕ} (hj : j < oi) :
    (drive :: colon :: join backslash stack)[j]? = some (m (out + j)) := by
  rw [← h.text, getElem?_bytes hj]

theorem Built.popComponent_eq :
    popComponent m out oi = 2 + (join backslash stack.dropLast).length := by
  have hlen := h.len
  rcases eq_nil_or_concat' stack with rfl | ⟨init, c, rfl⟩
  · -- At the root there is nothing to pop.
    rw [join_nil, length_nil, add_zero] at hlen
    subst hlen
    simp [popComponent, popBytes]
  · rw [dropLast_concat]
    rw [join_concat] at hlen
    simp only [length_append, length_cons] at hlen
    have hclean := (h.proper c (by simp)).clean
    have hget : ∀ j, j ≤ c.length → m (out + (2 + (join backslash init).length + j)) =
        (backslash :: c).getD j 0 := by
      intro j hj
      have hat := h.apply_eq (j := 2 + (join backslash init).length + j) (by omega)
      rw [join_concat, show 2 + (join backslash init).length + j =
        (join backslash init).length + j + 1 + 1 by omega, getElem?_cons_succ,
        getElem?_cons_succ, getElem?_append_right (by omega),
        Nat.add_sub_cancel_left] at hat
      rw [getD_eq_getElem?_getD, hat, Option.getD_some]
      congr 2
      omega
    have hpop : popBytes m out oi = 2 + (join backslash init).length + 1 := by
      apply popBytes_eq (by omega) (by omega)
      · have := hget 0 (by omega)
        simpa using this
      · intro j hj hlt
        have hat := hget (j - (2 + (join backslash init).length)) (by omega)
        rw [show 2 + (join backslash init).length + (j - (2 + (join backslash init).length)) = j
          by omega] at hat
        have hpos : j - (2 + (join backslash init).length) =
          (j - (2 + (join backslash init).length) - 1) + 1 := by omega
        rw [hpos, getD_cons_succ] at hat
        have hlt' : j - (2 + (join backslash init).length) - 1 < c.length := by omega
        rw [hat, getD_eq_getElem _ _ hlt']
        intro heq
        have := hclean _ (getElem_mem hlt')
        rw [heq] at this
        exact absurd this (by decide)
    rw [popComponent, hpop, if_pos (by omega)]
    omega

theorem Built.pop :
    Built (putByte m (out + popComponent m out oi) 0) out outSize (popComponent m out oi) drive
      stack.dropLast := by
  have hpop := h.popComponent_eq
  have hlen := h.len
  have hprefix : ∃ rest, join backslash stack = join backslash stack.dropLast ++ rest := by
    rcases eq_nil_or_concat' stack with rfl | ⟨init, c, rfl⟩
    · exact ⟨[], rfl⟩
    · exact ⟨backslash :: c, by rw [join_concat, dropLast_concat]⟩
  obtain ⟨rest, hrest⟩ := hprefix
  have hle : popComponent m out oi ≤ oi := by
    rw [hpop, hlen, hrest, length_append]
    omega
  have hfits := h.fits
  refine ⟨hpop, by omega, ?_, putByte_same _ _ _, ?_, ?_⟩
  · have hagree := (sameOutside_putByte (m := m) (b := 0) (le_refl (out + popComponent m out oi))
      (Nat.lt_succ_self _)).agreeOn (b := out) (c := out + popComponent m out oi) (.inl (le_refl _))
    have htext := h.text
    rw [show oi = popComponent m out oi + (oi - popComponent m out oi) by omega, bytes_add,
      hrest] at htext
    rw [bytes_congr hagree]
    have htake := congrArg (List.take (popComponent m out oi)) htext
    rw [take_left' (length_bytes _ _ _)] at htake
    rw [htake, hpop, show 2 + (join backslash stack.dropLast).length =
      (join backslash stack.dropLast).length + 1 + 1 by omega]
    simp
  · exact fun c hc => h.proper c (dropLast_subset _ hc)
  · exact fun c hc => h.short c (dropLast_subset _ hc)

end

end ImpossibleOs.Vfs
