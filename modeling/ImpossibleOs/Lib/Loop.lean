import Mathlib.Data.List.Basic

/-!
The invariant rule for a counted loop.
-/

namespace Loop

open List

theorem foldl_range {α : Type*} {f : α → ℕ → α} {n : ℕ} {s : α} (P : ℕ → α → Prop) (h0 : P 0 s)
    (hstep : ∀ i < n, ∀ s, P i s → P (i + 1) (f s i)) : P n ((List.range n).foldl f s) := by
  induction n with
  | zero => exact h0
  | succ n ih =>
    rw [range_succ, foldl_append]
    exact hstep n (by omega) _ (ih fun i hi => hstep i (by omega))

theorem foldlM_range {α : Type*} {f : α → ℕ → Option α} {n : ℕ} {s : α} (P : ℕ → α → Prop)
    (h0 : P 0 s) (hstep : ∀ i < n, ∀ s, P i s → ∃ s', f s i = some s' ∧ P (i + 1) s') :
    ∃ s', (List.range n).foldlM f s = some s' ∧ P n s' := by
  induction n with
  | zero => exact ⟨s, rfl, h0⟩
  | succ n ih =>
    obtain ⟨s', hs', hP⟩ := ih fun i hi => hstep i (by omega)
    obtain ⟨s'', hs'', hP'⟩ := hstep n (by omega) s' hP
    refine ⟨s'', ?_, hP'⟩
    rw [range_succ, foldlM_append, hs']
    simpa using hs''

theorem foldlM_range_some {α : Type*} {f : α → ℕ → Option α} {n : ℕ} {s s' : α}
    (P : ℕ → α → Prop) (h0 : P 0 s) (hstep : ∀ i < n, ∀ s s', P i s → f s i = some s' →
      P (i + 1) s') (h : (List.range n).foldlM f s = some s') : P n s' := by
  induction n generalizing s' with
  | zero =>
    obtain rfl := Option.some.inj h
    exact h0
  | succ n ih =>
    rw [range_succ, foldlM_append] at h
    obtain ⟨t, ht, hlast⟩ := Option.bind_eq_some_iff.mp h
    rw [foldlM_cons] at hlast
    obtain ⟨t', ht', hend⟩ := Option.bind_eq_some_iff.mp hlast
    obtain rfl := Option.some.inj hend
    exact hstep n (by omega) t _ (ih (fun i hi => hstep i (by omega)) ht) ht'

theorem foldlM_range_except {α ε : Type*} {f : α → ℕ → Except ε α} {n : ℕ} {s : α}
    (P : ℕ → α → Prop) (Q : ε → Prop) (h0 : P 0 s)
    (hstep : ∀ i < n, ∀ s, P i s → (∀ s', f s i = .ok s' → P (i + 1) s') ∧
      ∀ e, f s i = .error e → Q e) : (∀ s', (List.range n).foldlM f s = .ok s' → P n s') ∧
      ∀ e, (List.range n).foldlM f s = .error e → Q e := by
  induction n with
  | zero =>
    refine ⟨?_, ?_⟩
    · rintro s' ⟨⟩
      exact h0
    · rintro e ⟨⟩
  | succ n ih =>
    obtain ⟨hok, herr⟩ := ih fun i hi => hstep i (by omega)
    rw [range_succ, foldlM_append]
    cases hfold : (List.range n).foldlM f s with
    | error e =>
      refine ⟨?_, ?_⟩
      · rintro s' ⟨⟩
      · rintro e' ⟨⟩
        exact herr e hfold
    | ok s₁ =>
      obtain ⟨hok', herr'⟩ := hstep n (by omega) s₁ (hok s₁ hfold)
      have hlast : (Except.ok s₁ >>= fun s => [n].foldlM f s) = f s₁ n := by
        simp only [foldlM_cons, foldlM_nil, bind_pure]
        rfl
      rw [hlast]
      exact ⟨hok', herr'⟩

end Loop
