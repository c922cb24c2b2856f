import Mathlib.Data.List.Basic

/-!
Ring buffers.

A ring of `size` cells holds a queue: the cell `i` places behind the read
position, around the end, is the `i`-th of the queue.
-/

namespace Ring

open Function List Nat

variable {α : Type*} {size pos : ℕ} {buf : ℕ → α} {q : List α} {x : α}

/-- The ring holds the queue `q` from the read position on. -/
def Holds (size : ℕ) (buf : ℕ → α) (pos : ℕ) (q : List α) : Prop :=
  ∀ i (h : i < q.length), buf ((pos + i) % size) = q[i]

theorem holds_nil : Holds size buf pos [] := by
  intro i h
  cases h

theorem Holds.congr {buf' : ℕ → α} (h : Holds size buf pos q) (hsize : 0 < size)
    (heq : ∀ c < size, buf' c = buf c) : Holds size buf' pos q := by
  intro i hi
  rw [heq _ (mod_lt _ hsize)]
  exact h i hi

theorem Holds.of_append {r : List α} (h : Holds size buf pos (q ++ r)) : Holds size buf pos q := by
  intro i hi
  rw [h i (by rw [length_append]; omega), getElem_append_left hi]

theorem cell_ne {i j : ℕ} (hij : i < j) (hj : j < i + size) :
    (pos + i) % size ≠ (pos + j) % size := by
  intro heq
  have hmod : (j - i) % size = 0 := by
    have hsub := sub_mod_eq_zero_of_mod_eq heq.symm
    rwa [Nat.add_sub_add_left] at hsub
  have hle := le_of_dvd (by omega) (dvd_of_mod_eq_zero hmod)
  omega

theorem Holds.push (h : Holds size buf pos q) (hroom : q.length < size) :
    Holds size (update buf ((pos + q.length) % size) x) pos (q ++ [x]) := by
  intro i hi
  rw [length_append, length_singleton] at hi
  rcases Nat.lt_or_ge i q.length with hlt | hge
  · rw [getElem_append_left hlt, update_of_ne (cell_ne hlt (by omega))]
    exact h i hlt
  · obtain rfl : i = q.length := by omega
    rw [update_self, getElem_append_right (Nat.le_refl _)]
    simp

theorem Holds.head (h : Holds size buf pos (x :: q)) (hpos : pos < size) : buf pos = x := by
  have hzero := h 0 (by simp)
  rwa [Nat.add_zero, mod_eq_of_lt hpos] at hzero

theorem Holds.pop (h : Holds size buf pos (x :: q)) : Holds size buf ((pos + 1) % size) q := by
  intro i hi
  have hnext := h (i + 1) (by simpa using hi)
  rw [mod_add_mod, Nat.add_assoc, Nat.add_comm 1 i]
  simpa using hnext

end Ring
