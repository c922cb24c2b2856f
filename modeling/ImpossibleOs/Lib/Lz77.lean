import Mathlib.Data.List.Basic
import Mathlib.Data.List.GetD
import Mathlib.Data.List.TakeDrop

/-!
Dictionary compression by tokens.

A token is one item, or a distance back into what has been put out together
with a number of items to take from there. The items of a reference may be
ones that the same reference puts out.
-/

namespace Lz77

open List

variable {α : Type*}

inductive Token (α : Type*)
  | lit (b : α)
  | ref (disp len : ℕ)
  deriving DecidableEq, Repr

namespace Token

def isRef : Token α → Bool
  | lit _ => false
  | ref _ _ => true

/-- How many items the token stands for. -/
def size : Token α → ℕ
  | lit _ => 1
  | ref _ len => len

end Token

variable [Inhabited α]

/-- Take `n` items one after another from position `pos` on, to the end. -/
def copyBack (out : List α) (pos : ℕ) : ℕ → List α
  | 0 => out
  | n + 1 => copyBack (out ++ [out.getD pos default]) (pos + 1) n

def Token.apply (out : List α) : Token α → List α
  | lit b => out ++ [b]
  | ref disp len => copyBack out (out.length - disp) len

/-- What a list of tokens puts out behind `out`. -/
def expand (out : List α) : List (Token α) → List α
  | [] => out
  | t :: ts => expand (t.apply out) ts

theorem expand_append (out : List α) (ts us : List (Token α)) :
    expand out (ts ++ us) = expand (expand out ts) us := by
  induction ts generalizing out with
  | nil => rfl
  | cons t ts ih => exact ih _

@[simp] theorem length_copyBack (out : List α) (pos n : ℕ) :
    (copyBack out pos n).length = out.length + n := by
  induction n generalizing out pos with
  | zero => rfl
  | succ n ih =>
    rw [copyBack, ih, length_append, length_singleton]
    omega

theorem Token.length_apply (out : List α) (t : Token α) :
    (t.apply out).length = out.length + t.size := by
  cases t with
  | lit b => simp [apply, size]
  | ref disp len => simp [apply, size]

theorem length_le_expand (out : List α) (ts : List (Token α)) :
    out.length ≤ (expand out ts).length := by
  induction ts generalizing out with
  | nil => exact Nat.le_refl _
  | cons t ts ih =>
    have hle := ih (t.apply out)
    rw [t.length_apply] at hle
    exact Nat.le_trans (Nat.le_add_right _ _) hle

theorem apply_lit_take {src : List α} {p : ℕ} (h : p < src.length) :
    (Token.lit src[p]).apply (src.take p) = src.take (p + 1) := by
  rw [Token.apply, take_concat_get']

theorem copyBack_take {src : List α} {j p n : ℕ} (hj : j < p) (hend : p + n ≤ src.length)
    (hmatch : ∀ k < n, src.getD (j + k) default = src.getD (p + k) default) :
    copyBack (src.take p) j n = src.take (p + n) := by
  induction n generalizing j p with
  | zero => rfl
  | succ n ih =>
    have hfirst : (src.take p).getD j default = src[p] := by
      have h0 := hmatch 0 (Nat.succ_pos n)
      rw [Nat.add_zero, Nat.add_zero, getD_eq_getElem _ _ (by omega),
        getD_eq_getElem _ _ (by omega)] at h0
      rw [getD_eq_getElem _ _ (by rw [length_take]; omega), getElem_take, h0]
    have hrest : ∀ k < n, src.getD (j + 1 + k) default = src.getD (p + 1 + k) default := by
      intro k hk
      have hk' := hmatch (k + 1) (by omega)
      rwa [show j + (k + 1) = j + 1 + k by omega, show p + (k + 1) = p + 1 + k by omega] at hk'
    rw [copyBack, hfirst, take_concat_get', ih (by omega) (by omega) hrest]
    congr 1
    omega

end Lz77
