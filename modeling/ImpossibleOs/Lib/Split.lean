import Mathlib.Data.List.Basic
import Mathlib.Data.List.TakeWhile

/-!
Components of a list between separators.

Several separators in a row and separators at the ends count as one, so that a
list of nonempty components without separators is read back from the list in
which each of them follows a separator.
-/

namespace Split

open List

variable {α : Type*} {p : α → Bool} {sep : α} {xs ys : List α} {l : List (List α)}

/-- The nonempty pieces between separators. -/
def components (p : α → Bool) (xs : List α) : List (List α) :=
  (xs.splitOnP p).filter fun c => !c.isEmpty

/-- A nonempty piece without separators. -/
structure Piece (p : α → Bool) (c : List α) : Prop where
  ne_nil : c ≠ []
  clean : ∀ x ∈ c, p x = false

@[simp] theorem components_nil : components p [] = [] := rfl

theorem components_append_cons (hsep : p sep = true) :
    components p (xs ++ sep :: ys) = components p xs ++ components p ys := by
  rw [components, splitOnP_append_cons xs ys hsep, filter_append, components, components]

theorem components_cons (hsep : p sep = true) : components p (sep :: xs) = components p xs :=
  @components_append_cons _ _ _ [] _ hsep

theorem components_piece {c : List α} (hc : Piece p c) : components p c = [c] := by
  rw [components, splitOnP_eq_singleton hc.clean]
  simp [hc.ne_nil]

theorem components_dropWhile (xs : List α) : components p (xs.dropWhile p) = components p xs := by
  induction xs with
  | nil => rfl
  | cons x xs ih =>
    by_cases hx : p x = true
    · rw [dropWhile_cons_of_pos hx, ih, components_cons hx]
    · rw [dropWhile_cons_of_neg hx]

theorem dropWhile_eq_nil_or (xs : List α) :
    xs.dropWhile p = [] ∨ ∃ x ys, xs.dropWhile p = x :: ys ∧ p x = false := by
  cases h : xs.dropWhile p with
  | nil => exact .inl rfl
  | cons x ys =>
    refine .inr ⟨x, ys, rfl, ?_⟩
    have hne : xs.dropWhile p ≠ [] := by simp [h]
    have hhead := head_dropWhile_not p hne
    simpa [h] using hhead

theorem components_takeWhile (hxs : xs ≠ []) (hfirst : ∀ x ∈ xs.head?, p x = false) :
    Piece p (xs.takeWhile fun x => !p x) ∧
      components p xs =
        (xs.takeWhile fun x => !p x) :: components p (xs.dropWhile fun x => !p x) := by
  have hpiece : Piece p (xs.takeWhile fun x => !p x) := by
    refine ⟨?_, ?_⟩
    · cases xs with
      | nil => exact absurd rfl hxs
      | cons x xs => simp [hfirst x rfl]
    · intro x hx
      simpa using mem_takeWhile_imp hx
  refine ⟨hpiece, ?_⟩
  have hsplit : components p xs = components p
      ((xs.takeWhile fun x => !p x) ++ xs.dropWhile fun x => !p x) := by
    rw [takeWhile_append_dropWhile]
  rw [hsplit]
  rcases dropWhile_eq_nil_or (p := fun x => !p x) xs with hrest | ⟨x, ys, hrest, hx⟩
  · rw [hrest, append_nil, components_piece hpiece, components_nil]
  · have hsep : p x = true := by simpa using hx
    rw [hrest, components_append_cons hsep, components_piece hpiece, components_cons hsep]
    rfl

theorem flatten_components (xs : List α) : (components p xs).flatten = xs.filter fun x => !p x := by
  have hsplit : (xs.splitOnP p).flatten = xs.filter fun x => !p x := by
    induction xs with
    | nil => rfl
    | cons x xs ih =>
      rw [splitOnP_cons_eq_if_modifyHead]
      split
      · rename_i hx
        rw [flatten_cons, nil_append, ih, filter_cons_of_neg (by simp [hx])]
      · rename_i hx
        rw [filter_cons_of_pos (by simp [hx]), ← ih]
        cases hs : xs.splitOnP p with
        | nil => exact absurd hs (splitOnP_ne_nil p xs)
        | cons c cs => rfl
  rw [components, flatten_filter_not_isEmpty, hsplit]

theorem mem_of_mem_components {c : List α} (h : c ∈ components p xs) : ∀ x ∈ c, x ∈ xs := by
  intro x hx
  have hsub : ∀ xs : List α, ∀ c ∈ xs.splitOnP p, ∀ x ∈ c, x ∈ xs := by
    intro xs
    induction xs with
    | nil => simp [splitOnP_nil]
    | cons y ys ih =>
      intro c hc x hx
      rw [splitOnP_cons_eq_if_modifyHead] at hc
      split at hc
      · rcases mem_cons.mp hc with rfl | hc
        · exact absurd hx not_mem_nil
        · exact mem_cons_of_mem _ (ih c hc x hx)
      · cases hs : ys.splitOnP p with
        | nil => exact absurd hs (splitOnP_ne_nil p ys)
        | cons d ds =>
          rw [hs, modifyHead_cons] at hc
          rcases mem_cons.mp hc with rfl | hc
          · rcases mem_cons.mp hx with rfl | hx
            · exact mem_cons_self
            · exact mem_cons_of_mem _ (ih d (by simp [hs]) x hx)
          · exact mem_cons_of_mem _ (ih c (by simp [hs, hc]) x hx)
  exact hsub xs c (mem_filter.mp h).1 x hx

/-- Each piece after a separator. -/
def join (sep : α) (l : List (List α)) : List α := l.flatMap fun c => sep :: c

@[simp] theorem join_nil : join sep [] = [] := rfl

@[simp] theorem join_cons (c : List α) : join sep (c :: l) = sep :: (c ++ join sep l) := rfl

theorem join_concat (c : List α) : join sep (l ++ [c]) = join sep l ++ sep :: c := by
  simp [join]

theorem components_join (hsep : p sep = true) (hl : ∀ c ∈ l, Piece p c) :
    components p (join sep l) = l := by
  induction l with
  | nil => rfl
  | cons c l ih =>
    have hc := hl c mem_cons_self
    have ih' := ih fun d hd => hl d (mem_cons_of_mem _ hd)
    rw [join_cons, components_cons hsep]
    cases l with
    | nil => rw [join_nil, append_nil, components_piece hc]
    | cons d l =>
      rw [join_cons] at ih' ⊢
      rw [components_append_cons hsep, components_piece hc, ← components_cons hsep, ih']
      rfl

end Split
