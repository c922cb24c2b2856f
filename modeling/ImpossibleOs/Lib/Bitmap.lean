import ImpossibleOs.Lib.ByteMem
import Mathlib.Order.Interval.Finset.Nat

/-!
Bitmaps stored in bytes, least significant bit first.
-/

namespace Bitmap

open ByteMem Finset

/-- The bit of item `i` in its byte. -/
def mask (i : ℕ) : UInt8 := UInt8.ofNat (1 <<< (i % 8))

def set (m : ByteMem) (i : ℕ) : ByteMem := fun x => if x = i / 8 then m x ||| mask i else m x

def clear (m : ByteMem) (i : ℕ) : ByteMem := fun x =>
  if x = i / 8 then m x &&& ~~~mask i else m x

def test (m : ByteMem) (i : ℕ) : Bool := m (i / 8) &&& mask i ≠ 0

/-- The number of set bits among the first `n`. -/
def count (m : ByteMem) (n : ℕ) : ℕ := ((Finset.range n).filter fun i => test m i = true).card

theorem toNat_mask (i : ℕ) : (mask i).toNat = 2 ^ (i % 8) := by
  have hlt : i % 8 < 8 := Nat.mod_lt i (by norm_num)
  have hpow : 2 ^ (i % 8) < 2 ^ 8 := Nat.pow_lt_pow_right (by norm_num) hlt
  rw [mask, UInt8.toNat_ofNat', Nat.one_shiftLeft, Nat.mod_eq_of_lt hpow]

theorem test_eq_testBit (m : ByteMem) (i : ℕ) : test m i = (m (i / 8)).toNat.testBit (i % 8) := by
  have hnat : (m (i / 8) &&& mask i).toNat =
      ((m (i / 8)).toNat.testBit (i % 8)).toNat * 2 ^ (i % 8) := by
    rw [UInt8.toNat_and, toNat_mask, Nat.and_two_pow]
  have hzero : m (i / 8) &&& mask i = 0 ↔ (m (i / 8) &&& mask i).toNat = 0 :=
    ⟨fun h => by rw [h]; rfl, fun h => UInt8.toNat_inj.mp h⟩
  unfold test
  cases hbit : (m (i / 8)).toNat.testBit (i % 8) with
  | false =>
    rw [hbit] at hnat
    simp [hzero, hnat]
  | true =>
    rw [hbit] at hnat
    simp [hzero, hnat]

theorem eq_of_div_mod {i j : ℕ} (hdiv : j / 8 = i / 8) (hmod : j % 8 = i % 8) : j = i := by
  omega

theorem test_set (m : ByteMem) (i j : ℕ) : test (set m i) j = (j = i || test m j) := by
  rw [test_eq_testBit, test_eq_testBit, set]
  by_cases hdiv : j / 8 = i / 8
  · rw [if_pos hdiv, UInt8.toNat_or, Nat.testBit_or, toNat_mask, Nat.testBit_two_pow,
      Bool.or_comm]
    congr 1
    by_cases hmod : i % 8 = j % 8
    · simp [hmod, eq_of_div_mod hdiv hmod.symm]
    · have hne : j ≠ i := by
        rintro rfl
        exact hmod rfl
      simp [hmod, hne]
  · have hne : j ≠ i := by
      rintro rfl
      exact hdiv rfl
    simp [hdiv, hne]

theorem testBit_not (b : UInt8) {k : ℕ} (hk : k < 8) :
    (~~~b).toNat.testBit k = !b.toNat.testBit k := by
  rw [UInt8.toNat_not, show UInt8.size - 1 - b.toNat = 2 ^ 8 - (b.toNat + 1) by
    have : UInt8.size = 2 ^ 8 := rfl
    omega, Nat.testBit_two_pow_sub_succ b.toNat_lt]
  simp [hk]

theorem test_clear (m : ByteMem) (i j : ℕ) : test (clear m i) j = (j ≠ i && test m j) := by
  have hlt : j % 8 < 8 := Nat.mod_lt j (by norm_num)
  rw [test_eq_testBit, test_eq_testBit, clear]
  by_cases hdiv : j / 8 = i / 8
  · rw [if_pos hdiv, UInt8.toNat_and, Nat.testBit_and, testBit_not _ hlt, toNat_mask,
      Nat.testBit_two_pow, Bool.and_comm]
    congr 1
    by_cases hmod : i % 8 = j % 8
    · simp [hmod, eq_of_div_mod hdiv hmod.symm]
    · have hne : j ≠ i := by
        rintro rfl
        exact hmod rfl
      simp [hmod, hne]
  · have hne : j ≠ i := by
      rintro rfl
      exact hdiv rfl
    simp [hdiv, hne]

variable {m : ByteMem} {lo hi : ℕ}

theorem test_of_full {i : ℕ} (h : m (i / 8) = 0xFF) : test m i = true := by
  have hlt : i % 8 < 8 := Nat.mod_lt i (by norm_num)
  rw [test_eq_testBit, h, show (0xFF : UInt8).toNat = 2 ^ 8 - 1 from rfl,
    Nat.testBit_two_pow_sub_one]
  simp [hlt]

theorem full_of_test {x : ℕ} (h : ∀ k < 8, test m (x * 8 + k) = true) : m x = 0xFF := by
  apply UInt8.toNat_inj.mp
  apply Nat.eq_of_testBit_eq
  intro k
  rw [show (0xFF : UInt8).toNat = 2 ^ 8 - 1 from rfl, Nat.testBit_two_pow_sub_one]
  by_cases hk : k < 8
  · have := h k hk
    rw [test_eq_testBit, show (x * 8 + k) / 8 = x by omega,
      show (x * 8 + k) % 8 = k by omega] at this
    simp [this, hk]
  · have hlt : (m x).toNat < 2 ^ k :=
      lt_of_lt_of_le (m x).toNat_lt (Nat.pow_le_pow_right (by norm_num) (by omega))
    rw [Nat.testBit_lt_two_pow hlt]
    simp [hk]

theorem count_set {i n : ℕ} (hi : i < n) (hfree : test m i = false) :
    count (set m i) n = count m n + 1 := by
  have hins : (Finset.range n).filter (fun j => test (set m i) j = true) =
      insert i ((Finset.range n).filter fun j => test m j = true) := by
    ext j
    simp only [mem_filter, mem_range, mem_insert, test_set, Bool.or_eq_true,
      decide_eq_true_eq]
    constructor
    · rintro ⟨hj, rfl | ht⟩
      · exact .inl rfl
      · exact .inr ⟨hj, ht⟩
    · rintro (rfl | ⟨hj, ht⟩)
      · exact ⟨hi, .inl rfl⟩
      · exact ⟨hj, .inr ht⟩
  rw [count, hins, card_insert_of_notMem (by simp [hfree]), count]

theorem count_clear {i n : ℕ} (hi : i < n) (hset : test m i = true) :
    count (clear m i) n = count m n - 1 := by
  have hers : (Finset.range n).filter (fun j => test (clear m i) j = true) =
      ((Finset.range n).filter fun j => test m j = true).erase i := by
    ext j
    simp only [mem_filter, mem_range, mem_erase, test_clear,
      Bool.and_eq_true, decide_eq_true_eq]
    tauto
  rw [count, hers, card_erase_of_mem (by simp [hi, hset]), count]

/-! ### Clear bits of a range -/

/-- The number of clear bits from `lo` up to `hi`. -/
def freeIn (m : ByteMem) (lo hi : ℕ) : ℕ :=
  ((Finset.Ico lo hi).filter fun i => test m i = false).card

theorem freeIn_pos : 0 < freeIn m lo hi ↔ ∃ i, lo ≤ i ∧ i < hi ∧ test m i = false := by
  rw [freeIn, card_pos]
  constructor
  · rintro ⟨i, hi⟩
    obtain ⟨hmem, hfree⟩ := mem_filter.mp hi
    exact ⟨i, (mem_Ico.mp hmem).1, (mem_Ico.mp hmem).2, hfree⟩
  · rintro ⟨i, hlo, hhi, hfree⟩
    exact ⟨i, mem_filter.mpr ⟨mem_Ico.mpr ⟨hlo, hhi⟩, hfree⟩⟩

theorem freeIn_eq_zero : freeIn m lo hi = 0 ↔ ∀ i, lo ≤ i → i < hi → test m i = true := by
  rw [← not_iff_not, ← Ne, ← Nat.pos_iff_ne_zero, freeIn_pos]
  simp

theorem freeIn_succ (hle : lo ≤ hi) :
    freeIn m lo (hi + 1) = freeIn m lo hi + if test m hi then 0 else 1 := by
  rw [freeIn, ← Nat.succ_eq_add_one, Nat.Ico_succ_right_eq_insert_Ico hle, filter_insert]
  cases htest : test m hi with
  | false => simp [freeIn]
  | true => simp [freeIn]

theorem freeIn_self (m : ByteMem) (lo : ℕ) : freeIn m lo lo = 0 := by simp [freeIn]

theorem freeIn_congr {m m' : ByteMem}
    (h : ∀ i, lo ≤ i → i < hi → test m' i = test m i) : freeIn m' lo hi = freeIn m lo hi := by
  rw [freeIn, freeIn]
  congr 1
  apply filter_congr
  intro i hi
  rw [h i (mem_Ico.mp hi).1 (mem_Ico.mp hi).2]

theorem freeIn_of_set {lo lo' hi : ℕ} (hle : lo ≤ lo')
    (h : ∀ i, lo ≤ i → i < lo' → test m i = true) : freeIn m lo hi = freeIn m lo' hi := by
  rw [freeIn, freeIn]
  congr 1
  ext i
  simp only [mem_filter, mem_Ico]
  constructor
  · rintro ⟨⟨hlo, hhi⟩, hfree⟩
    refine ⟨⟨?_, hhi⟩, hfree⟩
    by_contra hlt
    rw [h i hlo (by omega)] at hfree
    cases hfree
  · rintro ⟨⟨hlo, hhi⟩, hfree⟩
    exact ⟨⟨by omega, hhi⟩, hfree⟩

theorem freeIn_set {i lo hi : ℕ} (hlo : lo ≤ i) (hhi : i < hi)
    (hfree : test m i = false) : freeIn (set m i) lo hi + 1 = freeIn m lo hi := by
  have hers : (Finset.Ico lo hi).filter (fun j => test (set m i) j = false) =
      ((Finset.Ico lo hi).filter fun j => test m j = false).erase i := by
    ext j
    simp only [mem_filter, mem_erase, test_set, Bool.or_eq_false_iff,
      decide_eq_false_iff_not]
    tauto
  have hmem : i ∈ (Finset.Ico lo hi).filter fun j => test m j = false :=
    mem_filter.mpr ⟨mem_Ico.mpr ⟨hlo, hhi⟩, hfree⟩
  rw [freeIn, hers, card_erase_add_one hmem, freeIn]

theorem freeIn_clear {i lo hi : ℕ} (hlo : lo ≤ i) (hhi : i < hi)
    (hset : test m i = true) : freeIn (clear m i) lo hi = freeIn m lo hi + 1 := by
  have hfree : test (clear m i) i = false := by simp [test_clear]
  have hback : freeIn (set (clear m i) i) lo hi = freeIn m lo hi := by
    apply freeIn_congr
    intro j _ _
    rw [test_set, test_clear]
    rcases eq_or_ne j i with rfl | hne
    · simp [hset]
    · simp [hne]
  rw [← freeIn_set hlo hhi hfree, hback]

theorem freeIn_fill {m m' : ByteMem} {lo hi a n : ℕ} (hlo : lo ≤ a) (hhi : a + n ≤ hi)
    (hfree : ∀ i, a ≤ i → i < a + n → test m i = false)
    (h : ∀ i, test m' i = if a ≤ i ∧ i < a + n then true else test m i) :
    freeIn m' lo hi + n = freeIn m lo hi := by
  have hsub : Finset.Ico a (a + n) ⊆ (Finset.Ico lo hi).filter fun i => test m i = false := by
    intro i hi
    have hmem := mem_Ico.mp hi
    exact mem_filter.mpr ⟨mem_Ico.mpr ⟨by omega, by omega⟩, hfree i hmem.1 hmem.2⟩
  have hrest : (Finset.Ico lo hi).filter (fun i => test m' i = false) =
      (Finset.Ico lo hi).filter (fun i => test m i = false) \ Finset.Ico a (a + n) := by
    ext i
    simp only [mem_filter, mem_sdiff, mem_Ico, h]
    split
    · rename_i hin
      simp [hin]
    · rename_i hout
      simp [hout]
  have hle := card_le_card hsub
  rw [Nat.card_Ico, Nat.add_sub_cancel_left] at hle
  rw [freeIn, hrest, card_sdiff_of_subset hsub, Nat.card_Ico, Nat.add_sub_cancel_left,
    freeIn]
  omega

end Bitmap
