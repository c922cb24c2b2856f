import ImpossibleOs.Lib.Refine
import Mathlib.Algebra.BigOperators.Group.Finset.Basic
import Mathlib.Data.Fintype.Basic

/-!
Threads over a shared memory.

A thread takes one atomic step at a time; which thread takes the next one, and
with which of its choices, is up to a schedule. An invariant is carried over every
run: the thread that moves keeps it, and what the others rely on survives the move.
-/

namespace Refine

open Function Option Finset

variable {σ ι ρ : Type*}

variable {exec : σ → ι → Option (σ × ρ)} {is : List ι} {cond : σ → ι → Prop}

theorem run_invariant (P : σ → List ρ → Prop)
    (hstep : ∀ s rs i s' r, P s rs → cond s i → exec s i = some (s', r) → P s' (rs ++ [r]))
    {s s' : σ} {pre rs : List ρ} (h : P s pre) (hcond : Along exec cond s is)
    (hrun : run exec s is = some (s', rs)) : P s' (pre ++ rs) := by
  induction is generalizing s pre rs with
  | nil =>
    obtain ⟨rfl, rfl⟩ : s = s' ∧ [] = rs := by simpa [run] using hrun
    simpa using h
  | cons i is ih =>
    simp only [run, bind_eq_some_iff, map_eq_some_iff, Prod.mk.injEq] at hrun
    obtain ⟨⟨s₁, r⟩, hexec, ⟨s₂, rs'⟩, hrest, rfl, rfl⟩ := hrun
    have h₁ := hstep s pre i s₁ r h hcond.1 hexec
    have h₂ := ih h₁ (hcond.2 _ hexec) hrest
    simpa using h₂

theorem along_cons {s s' : σ} {i : ι} {r : ρ} (hi : cond s i) (hexec : exec s i = some (s', r))
    (his : Along exec cond s' is) : Along exec cond s (i :: is) := by
  refine ⟨hi, fun p hp => ?_⟩
  obtain rfl : (s', r) = p := Option.some.inj (hexec.symm.trans hp)
  exact his

theorem along_of_forall (h : ∀ i ∈ is, ∀ s, cond s i) (s : σ) : Along exec cond s is := by
  induction is generalizing s with
  | nil => trivial
  | cons i is ih =>
    obtain ⟨hi, his⟩ := List.forall_mem_cons.mp h
    exact ⟨hi s, fun p _ => ih his p.1⟩

theorem along_true (exec : σ → ι → Option (σ × ρ)) (s : σ) (is : List ι) :
    Along exec (fun _ _ => True) s is :=
  along_of_forall (fun _ _ _ => trivial) s

theorem run_preserves {P : σ → Prop}
    (hstep : ∀ s i s' r, P s → exec s i = some (s', r) → P s') {s s' : σ}
    {rs : List ρ} (h : P s) (hrun : run exec s is = some (s', rs)) : P s' := by
  induction is generalizing s rs with
  | nil =>
    obtain ⟨rfl, rfl⟩ : s = s' ∧ [] = rs := by simpa [run] using hrun
    exact h
  | cons i is ih =>
    simp only [run, bind_eq_some_iff, map_eq_some_iff, Prod.mk.injEq] at hrun
    obtain ⟨⟨s₁, r⟩, hexec, ⟨s₂, rs'⟩, hrest, rfl, rfl⟩ := hrun
    exact ih (hstep s i s₁ r h hexec) hrest

theorem run_cons {s s₁ s₂ : σ} {i : ι} {r : ρ}
    {rs : List ρ} (h : exec s i = some (s₁, r)) (hrest : run exec s₁ is = some (s₂, rs)) :
    run exec s (i :: is) = some (s₂, r :: rs) := by
  rw [run, h, bind_some, hrest, map_some]

theorem run_append {s s₁ s₂ : σ} {is js : List ι}
    {rs qs : List ρ} (h₁ : run exec s is = some (s₁, rs)) (h₂ : run exec s₁ js = some (s₂, qs)) :
    run exec s (is ++ js) = some (s₂, rs ++ qs) := by
  induction is generalizing s rs with
  | nil =>
    obtain ⟨rfl, rfl⟩ : s = s₁ ∧ [] = rs := by simpa [run] using h₁
    exact h₂
  | cons i is ih =>
    simp only [run, bind_eq_some_iff, map_eq_some_iff, Prod.mk.injEq] at h₁
    obtain ⟨⟨s', r⟩, hexec, ⟨s'', rs'⟩, hrest, rfl, rfl⟩ := h₁
    simp [run, hexec, ih hrest]

end Refine

namespace Interleave

open Function Option Finset

variable {Tid σ ℓ ι ε : Type*}

/-- The memory the threads share and the local state of each. -/
structure Config (Tid σ ℓ : Type*) where
  shared : σ
  threads : Tid → ℓ

variable [DecidableEq Tid]

/-- Thread `i.1` takes the step it can take with the choice `i.2`. -/
def step (thread : σ → ℓ → ι → Option ((σ × ℓ) × ε)) (c : Config Tid σ ℓ) (i : Tid × ι) :
    Option (Config Tid σ ℓ × (Tid × ε)) :=
  (thread c.shared (c.threads i.1) i.2).map fun p =>
    (⟨p.1.1, update c.threads i.1 p.1.2⟩, (i.1, p.2))

theorem step_eq_some {thread : σ → ℓ → ι → Option ((σ × ℓ) × ε)} {c c' : Config Tid σ ℓ}
    {i : Tid × ι} {e : Tid × ε} : step thread c i = some (c', e) ↔ ∃ m l ev,
      thread c.shared (c.threads i.1) i.2 = some ((m, l), ev) ∧
        c' = ⟨m, update c.threads i.1 l⟩ ∧ e = (i.1, ev) := by
  simp only [step, map_eq_some_iff, Prod.mk.injEq]
  constructor
  · rintro ⟨⟨⟨m, l⟩, ev⟩, h, rfl, rfl⟩
    exact ⟨m, l, ev, h, rfl, rfl⟩
  · rintro ⟨m, l, ev, h, rfl, rfl⟩
    exact ⟨((m, l), ev), h, rfl, rfl⟩

theorem forall_update {L L' : ℓ → Prop} {threads : Tid → ℓ} {t : Tid} {l : ℓ}
    (h : ∀ u, L (threads u)) (hown : L' l) (hstable : ∀ k, L k → L' k) (u : Tid) :
    L' (update threads t l u) := by
  rcases eq_or_ne u t with rfl | hu
  · rw [update_self]
    exact hown
  · rw [update_of_ne hu]
    exact hstable _ (h u)

theorem run_keeps {thread : σ → ℓ → ι → Option ((σ × ℓ) × ε)}
    {cond : Config Tid σ ℓ → Tid × ι → Prop} (G : σ → List (Tid × ε) → Prop) (L : σ → ℓ → Prop)
    (hstep : ∀ (c : Config Tid σ ℓ) es i m l ev, cond c i → G c.shared es →
      L c.shared (c.threads i.1) → thread c.shared (c.threads i.1) i.2 = some ((m, l), ev) →
        G m (es ++ [(i.1, ev)]) ∧ L m l ∧ ∀ k, L c.shared k → L m k)
    {c c' : Config Tid σ ℓ} {is : List (Tid × ι)} {pre es : List (Tid × ε)}
    (hG : G c.shared pre) (hL : ∀ t, L c.shared (c.threads t))
    (hcond : Refine.Along (step thread) cond c is)
    (hrun : Refine.run (step thread) c is = some (c', es)) :
    G c'.shared (pre ++ es) ∧ ∀ t, L c'.shared (c'.threads t) := by
  refine Refine.run_invariant (fun c es => G c.shared es ∧ ∀ t, L c.shared (c.threads t))
    ?_ ⟨hG, hL⟩ hcond hrun
  rintro c es i c' e ⟨hG, hL⟩ hi hs
  obtain ⟨m, l, ev, hthread, rfl, rfl⟩ := step_eq_some.mp hs
  obtain ⟨hG', hown, hother⟩ := hstep c es i m l ev hi hG (hL i.1) hthread
  exact ⟨hG', forall_update hL hown hother⟩

theorem sum_update [Fintype Tid] (f : ℓ → ℕ) (threads : Tid → ℓ) (t : Tid) (l : ℓ) :
    ∑ u, f (update threads t l u) + f (threads t) = ∑ u, f (threads u) + f l := by
  have hrest : ∑ u ∈ Finset.univ.erase t, f (update threads t l u) =
      ∑ u ∈ Finset.univ.erase t, f (threads u) := by
    apply sum_congr rfl
    intro u hu
    rw [update_of_ne (ne_of_mem_erase hu)]
  rw [← add_sum_erase _ _ (mem_univ t), hrest, update_self,
    ← add_sum_erase _ (fun u => f (threads u)) (mem_univ t)]
  omega

end Interleave
