import Mathlib.Data.List.Range

/-!
First-fit search for a run of items.

`firstFit` tries start positions one after another; a scan from left to right that
remembers only how long the current run is finds the same position, whether it
takes one item or a block of equal items at a time.
-/

namespace RunSearch

open List

variable {p : ℕ → Bool} {size count lo hi i run s : ℕ}

/-- A run of `count` items within the first `size` starts at `s`. -/
def Fits (p : ℕ → Bool) (size count s : ℕ) : Prop :=
  s + count ≤ size ∧ ∀ k < count, p (s + k) = true

instance : Decidable (Fits p size count s) := inferInstanceAs (Decidable (_ ∧ _))

def firstFit (p : ℕ → Bool) (size count : ℕ) (starts : List ℕ) : Option ℕ :=
  starts.find? fun s => Fits p size count s

/-- All start positions from `hint` on and then those before it. -/
def circular (size hint : ℕ) : List ℕ :=
  List.range' (min hint size) (size + 1 - min hint size) ++ List.range (min hint size)

theorem firstFit_append (l l' : List ℕ) :
    firstFit p size count (l ++ l') = (firstFit p size count l).or (firstFit p size count l') :=
  find?_append

theorem firstFit_eq_none {l : List ℕ} :
    firstFit p size count l = none ↔ ∀ s ∈ l, ¬ Fits p size count s := by
  simp [firstFit]

theorem firstFit_range'_eq_some {n : ℕ} (hs : Fits p size count s) (hlo : lo ≤ s)
    (hhi : s < lo + n) (hfirst : ∀ k, lo ≤ k → k < s → ¬ Fits p size count k) :
    firstFit p size count (range' lo n) = some s := by
  induction n generalizing lo with
  | zero => omega
  | succ n ih =>
    rw [range'_succ, firstFit]
    by_cases heq : lo = s
    · subst heq
      exact find?_cons_of_pos (by simpa using hs)
    · rw [find?_cons_of_neg (by simpa using hfirst lo (le_refl _) (by omega))]
      exact ih (by omega) (by omega) fun k hk => hfirst k (by omega)

theorem mem_of_firstFit {l : List ℕ} (h : firstFit p size count l = some s) :
    s ∈ l ∧ Fits p size count s := by
  refine ⟨mem_of_find?_eq_some h, ?_⟩
  simpa using find?_some h

/-- The state of a scan that started at `lo`, before item `i`: the last `run` items satisfy the
predicate, and no run fits at a start position before them. -/
structure Scanned (p : ℕ → Bool) (size count lo i run : ℕ) : Prop where
  le : lo + run ≤ i
  hits : ∀ k, i - run ≤ k → k < i → p k = true
  misses : ∀ s, lo ≤ s → s < i - run → ¬ Fits p size count s

theorem Scanned.start (p : ℕ → Bool) (size count lo : ℕ) : Scanned p size count lo lo 0 :=
  ⟨le_refl _, by omega, by omega⟩

section

variable (h : Scanned p size count lo i run)
include h

theorem Scanned.absorb {n : ℕ}
    (hp : ∀ k, i ≤ k → k < i + n → p k = true) : Scanned p size count lo (i + n) (run + n) := by
  have hle := h.le
  refine ⟨by omega, ?_, ?_⟩
  · intro k hk hlt
    by_cases hki : k < i
    · exact h.hits k (by omega) hki
    · exact hp k (by omega) hlt
  · intro s hlo hs
    exact h.misses s hlo (by omega)

theorem Scanned.skip (hrun : run < count) {n : ℕ} (hn : 0 < n)
    (hp : ∀ k, i ≤ k → k < i + n → p k = false) : Scanned p size count lo (i + n) 0 := by
  have hle := h.le
  refine ⟨by omega, by omega, ?_⟩
  intro s hlo hs hfits
  by_cases hold : s < i - run
  · exact h.misses s hlo hold hfits
  · by_cases hsi : s < i
    · have hin := hfits.2 (i - s) (by omega)
      rw [show s + (i - s) = i by omega, hp i (le_refl _) (by omega)] at hin
      exact absurd hin (by decide)
    · have hin := hfits.2 0 (by omega)
      rw [hp (s + 0) (by omega) (by omega)] at hin
      exact absurd hin (by decide)

theorem Scanned.found (hrun : count ≤ run) (hi : i ≤ size) : Fits p size count (i - run) := by
  have hle := h.le
  exact ⟨by omega, fun k hk => h.hits _ (by omega) (by omega)⟩

theorem Scanned.exhausted (hrun : run < count)
    (hi : size ≤ i) (hlo : lo ≤ s) : ¬ Fits p size count s := by
  intro hfits
  by_cases hold : s < i - run
  · exact h.misses s hlo hold hfits
  · have := hfits.1
    omega

theorem Scanned.firstFit_found (hrun : count ≤ run)
    (hi' : i ≤ size) : firstFit p size count (range' lo (hi - lo)) =
      if i - run < hi then some (i - run) else none := by
  have hle := h.le
  split
  · exact firstFit_range'_eq_some (h.found hrun hi') (by omega) (by omega) h.misses
  · apply firstFit_eq_none.mpr
    intro s hs
    rw [mem_range'_1] at hs
    exact h.misses s hs.1 (by omega)

theorem Scanned.firstFit_none (hrun : run < count) (hend : size ≤ i ∨ run = 0 ∧ hi ≤ i) :
    firstFit p size count (range' lo (hi - lo)) = none := by
  apply firstFit_eq_none.mpr
  intro s hs
  rw [mem_range'_1] at hs
  rcases hend with hend | ⟨rfl, hend⟩
  · exact h.exhausted hrun hend hs.1
  · exact h.misses s hs.1 (by omega)

end

theorem firstFit_circular (hcount : 0 < count) (hint : ℕ) :
    firstFit p size count (circular size hint) =
      (firstFit p size count (range' (min hint size) (size - min hint size))).or
        (firstFit p size count (range' 0 (min hint size))) := by
  have hsplit : range' (min hint size) (size + 1 - min hint size) =
      range' (min hint size) (size - min hint size) ++ [size] := by
    rw [show size + 1 - min hint size = (size - min hint size) + 1 by omega, range'_concat]
    congr 2
    omega
  have hend : firstFit p size count [size] = none := by
    apply firstFit_eq_none.mpr
    intro s hs hfits
    have := List.mem_singleton.mp hs
    have := hfits.1
    omega
  rw [circular, hsplit, firstFit_append, firstFit_append, hend, Option.or_none,
    range_eq_range']

end RunSearch
