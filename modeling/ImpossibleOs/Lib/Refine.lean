import Mathlib.Data.List.Basic

/-!
Refinement of runs.

A machine takes calls one after another and may fail to return from one. When a
call that meets its condition keeps the representation of a specification's state
and returns what the specification does, whole runs return the same. The
specification may be a relation that leaves a choice to the machine.
-/

namespace Refine

variable {σ α ι ρ : Type*}

/-- The results of a list of calls; `none` when one of them does not return. -/
def run (exec : σ → ι → Option (σ × ρ)) : σ → List ι → Option (σ × List ρ)
  | s, [] => some (s, [])
  | s, i :: is =>
    (exec s i).bind fun p => (run exec p.1 is).map fun q => (q.1, p.2 :: q.2)

def runSpec (spec : α → ι → α × ρ) : α → List ι → α × List ρ
  | a, [] => (a, [])
  | a, i :: is =>
    let p := spec a i
    let q := runSpec spec p.1 is
    (q.1, p.2 :: q.2)

/-- Every call of the run meets its condition in the state in which it is made. -/
def Along (exec : σ → ι → Option (σ × ρ)) (cond : σ → ι → Prop) : σ → List ι → Prop
  | _, [] => True
  | s, i :: is => cond s i ∧ ∀ p, exec s i = some p → Along exec cond p.1 is

/-! ### Total machines -/

/-- Every call of a run of a machine that always returns meets its condition. -/
def Meets (exec : σ → ι → σ) (cond : σ → ι → Prop) : σ → List ι → Prop
  | _, [] => True
  | s, i :: is => cond s i ∧ Meets exec cond (exec s i) is

variable {cond : σ → ι → Prop} {exec : σ → ι → σ} {is : List ι} {s : σ}

theorem Meets.invariant (P : σ → Prop) (hstep : ∀ s i, P s → cond s i → P (exec s i))
    (hcond : Meets exec cond s is) (h : P s) : P (is.foldl exec s) := by
  induction is generalizing s with
  | nil => exact h
  | cons i is ih => exact ih hcond.2 (hstep s i h hcond.1)

theorem Meets.concat {i : ι}
    (h : Meets exec cond s (is ++ [i])) : Meets exec cond s is ∧ cond (is.foldl exec s) i := by
  induction is generalizing s with
  | nil => exact ⟨trivial, h.1⟩
  | cons j is ih => exact ⟨⟨h.1, (ih h.2).1⟩, (ih h.2).2⟩

theorem Meets.iff_keeps (P : σ → Prop)
    (hkeep : ∀ s i, P s → (cond s i ↔ P (exec s i))) (hlost : ∀ s i, ¬ P s → ¬ P (exec s i))
      (h : P s) : Meets exec cond s is ↔ P (is.foldl exec s) := by
  have hnever : ∀ (is : List ι) (s : σ), ¬ P s → ¬ P (is.foldl exec s) := by
    intro is
    induction is with
    | nil => exact fun _ hs => hs
    | cons i is ih => exact fun s hs => ih _ (hlost s i hs)
  induction is generalizing s with
  | nil => exact ⟨fun _ => h, fun _ => trivial⟩
  | cons i is ih =>
    refine ⟨fun hm => (ih ((hkeep s i h).mp hm.1)).mp hm.2, fun hp => ?_⟩
    by_cases hi : P (exec s i)
    · exact ⟨(hkeep s i h).mpr hi, (ih hi).mpr hp⟩
    · exact absurd hp (hnever is _ hi)

theorem Meets.answers {spec : α → ι → α} {ans : σ → α → ι → Prop} (R : σ → α → Prop)
    (hstep : ∀ s a i, R s a → cond s i → R (exec s i) (spec a i) ∧ ans s a i) {a : α} {i : ι}
      (hcond : Meets exec cond s (is ++ [i])) (h : R s a) :
    ans (is.foldl exec s) (is.foldl spec a) i := by
  induction is generalizing s a with
  | nil => exact (hstep s a i h hcond.1).2
  | cons j is ih => exact ih hcond.2 (hstep s a j h hcond.1).1

/-- The runs of a specification that leaves answers and next states open. -/
inductive Runs (step : α → ι → ρ → α → Prop) : α → List (ι × ρ) → α → Prop
  | done {a : α} : Runs step a [] a
  | call {a a' a'' : α} {i : ι} {r : ρ} {l : List (ι × ρ)} (h : step a i r a')
      (hrest : Runs step a' l a'') : Runs step a ((i, r) :: l) a''

/-- The calls of a run, with what they return. -/
def answered (exec : σ → ι → σ × ρ) : σ → List ι → List (ι × ρ)
  | _, [] => []
  | s, i :: is => (i, (exec s i).2) :: answered exec (exec s i).1 is

theorem Meets.simulates {exec : σ → ι → σ × ρ}
    {step : α → ι → ρ → α → Prop} (R : σ → α → Prop)
    (hstep : ∀ s a i, R s a → cond s i → ∃ a', step a i (exec s i).2 a' ∧ R (exec s i).1 a') {a : α}
      (hcond : Meets (fun s i => (exec s i).1) cond s is) (h : R s a) :
    ∃ a', Runs step a (answered exec s is) a' ∧ R (is.foldl (fun s i => (exec s i).1) s) a' := by
  induction is generalizing s a with
  | nil => exact ⟨a, .done, h⟩
  | cons i is ih =>
    obtain ⟨a₁, h₁, hR⟩ := hstep s a i h hcond.1
    obtain ⟨a', hruns, h'⟩ := ih hcond.2 hR
    exact ⟨a', .call h₁ hruns, h'⟩

end Refine
