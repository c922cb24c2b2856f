import ImpossibleOs.Ex.RtlBitmap

/-!
The bits that the operations of a bitmap read and write.
-/

namespace ImpossibleOs.Ex.Rtl

open RunSearch List UInt32

/-- Bit `i` of a buffer. -/
def bit (words : ℕ → UInt32) (i : ℕ) : Bool := (words (i / 32)).toNat.testBit (i % 32)

/-! ### Masks -/

theorem lowMask_toNat {n : ℕ} (hn : n < 32) : (lowMask n).toNat = 2 ^ n - 1 := by
  have h : ∀ n : Fin 32, (lowMask n).toNat = 2 ^ n.val - 1 := by decide
  exact h ⟨n, hn⟩

theorem testBit_lowMask {n k : ℕ} (hn : n < 32) : (lowMask n).toNat.testBit k = decide (k < n) := by
  rw [lowMask_toNat hn, Nat.testBit_two_pow_sub_one]

theorem testBit_allOnes {k : ℕ} (hk : k < 32) : allOnes.toNat.testBit k = true := by
  rw [show allOnes.toNat = 2 ^ 32 - 1 from rfl, Nat.testBit_two_pow_sub_one]
  simpa using hk

theorem testBit_not (w : UInt32) {k : ℕ} (hk : k < 32) :
    (~~~w).toNat.testBit k = !w.toNat.testBit k := by
  rw [toNat_not, show UInt32.size - 1 - w.toNat = 2 ^ 32 - (w.toNat + 1) by
    have : UInt32.size = 2 ^ 32 := rfl
    omega, Nat.testBit_two_pow_sub_succ w.toNat_lt]
  simp [hk]

theorem testBit_of_le (w : UInt32) {k : ℕ} (hk : 32 ≤ k) : w.toNat.testBit k = false :=
  Nat.testBit_lt_two_pow (lt_of_lt_of_le w.toNat_lt (Nat.pow_le_pow_right (by omega) hk))

theorem word_ext {v w : UInt32} (h : ∀ k < 32, v.toNat.testBit k = w.toNat.testBit k) : v = w := by
  apply UInt32.toNat_inj.mp
  apply Nat.eq_of_testBit_eq
  intro k
  by_cases hk : k < 32
  · exact h k hk
  · rw [testBit_of_le v (by omega), testBit_of_le w (by omega)]

theorem testBit_rangeMask {lo hi k : ℕ} (hlo : lo < 32) (hk : k < 32) :
    (rangeMask lo hi).toNat.testBit k = (decide (lo ≤ k) && decide (k ≤ hi)) := by
  have hlow : (if lo = 0 then allOnes else ~~~lowMask lo).toNat.testBit k = decide (lo ≤ k) := by
    split
    · simp [testBit_allOnes hk, *]
    · rw [testBit_not _ hk, testBit_lowMask hlo, ← decide_not]
      simp
  have hhigh : (if 31 ≤ hi then allOnes else lowMask (hi + 1)).toNat.testBit k =
      decide (k ≤ hi) := by
    split
    · rw [testBit_allOnes hk]
      simp
      omega
    · rw [testBit_lowMask (by omega)]
      exact decide_eq_decide.mpr Nat.lt_succ_iff
  rw [rangeMask, UInt32.toNat_and, Nat.testBit_and, hlow, hhigh]

theorem testBit_tailMask {size k : ℕ} (hk : k < 32) :
    (tailMask size).toNat.testBit k = (decide (size % 32 = 0) || decide (k < size % 32)) := by
  have hlt : size % 32 < 32 := Nat.mod_lt _ (by omega)
  unfold tailMask bitsPerWord
  by_cases h : size % 32 = 0
  · simp [h, testBit_allOnes hk]
  · simp [h, testBit_lowMask hlt]

theorem toNat_shift_one {n : ℕ} (hn : n < 32) :
    ((1 : UInt32) <<< ofNat n).toNat = 2 ^ n := by
  have h : ∀ n : Fin 32, ((1 : UInt32) <<< ofNat n).toNat = 2 ^ n.val := by decide
  exact h ⟨n, hn⟩

theorem testBit_bitMask (i k : ℕ) : (bitMask i).toNat.testBit k = decide (i % 32 = k) := by
  rw [bitMask, bitsPerWord, toNat_shift_one (Nat.mod_lt i (by omega)), Nat.testBit_two_pow]

theorem readBit_eq (words : ℕ → UInt32) (i : ℕ) : readBit words i = bit words i := by
  have hlt : i % 32 < 32 := Nat.mod_lt i (by omega)
  have hnat : (words (i / 32) >>> ofNat (i % 32) &&& 1).toNat =
      ((words (i / 32)).toNat.testBit (i % 32)).toNat := by
    rw [UInt32.toNat_and, UInt32.toNat_shiftRight, toNat_ofNat', toNat_one,
      Nat.and_one_is_mod, Nat.mod_eq_of_lt (by omega : i % 32 < 2 ^ 32), Nat.mod_mod,
      Nat.shiftRight_eq_div_pow, Nat.toNat_testBit]
  have hzero : words (i / 32) >>> ofNat (i % 32) &&& 1 = 0 ↔
      (words (i / 32) >>> ofNat (i % 32) &&& 1).toNat = 0 :=
    ⟨fun h => by rw [h]; rfl, fun h => UInt32.toNat_inj.mp h⟩
  unfold readBit bit bitsPerWord
  cases hbit : (words (i / 32)).toNat.testBit (i % 32) <;> simp [hzero, hnat, hbit]

theorem bit_orWord (words : ℕ → UInt32) (w : ℕ) (m : UInt32) (i : ℕ) : bit (orWord words w m) i =
      (bit words i || (decide (i / 32 = w) && m.toNat.testBit (i % 32))) := by
  unfold bit orWord putWord
  by_cases h : i / 32 = w
  · simp [h, Nat.testBit_or]
  · simp [h]

theorem bit_andNotWord (words : ℕ → UInt32) (w : ℕ) (m : UInt32) (i : ℕ) :
    bit (andNotWord words w m) i =
      (bit words i && !(decide (i / 32 = w) && m.toNat.testBit (i % 32))) := by
  have hlt : i % 32 < 32 := Nat.mod_lt i (by omega)
  unfold bit andNotWord putWord
  by_cases h : i / 32 = w
  · rw [if_pos h, UInt32.toNat_and, Nat.testBit_and, testBit_not _ hlt, h]
    simp
  · simp [h]

theorem fillWords_eq (words : ℕ → UInt32) (lo hi : ℕ) (v : UInt32) (x : ℕ) :
    fillWords words lo hi v x = if lo ≤ x ∧ x < hi then v else words x := by
  have h : ∀ n, (List.range n).foldl (fun words k => putWord words (lo + k) v) words x =
      if lo ≤ x ∧ x < lo + n then v else words x := by
    intro n
    induction n with
    | zero =>
      rw [if_neg (by omega)]
      rfl
    | succ n ih =>
      rw [range_succ, foldl_append, foldl_cons, foldl_nil, putWord, ih]
      by_cases hx : x = lo + n
      · rw [if_pos hx, if_pos (by omega)]
      · rw [if_neg hx]
        congr 1
        apply propext
        omega
  rw [fillWords, h]
  congr 1
  apply propext
  omega

theorem bit_fillWords (words : ℕ → UInt32) (lo hi : ℕ) (v : UInt32) (i : ℕ) :
    bit (fillWords words lo hi v) i =
      if lo ≤ i / 32 ∧ i / 32 < hi then v.toNat.testBit (i % 32) else bit words i := by
  unfold bit
  rw [fillWords_eq]
  split <;> rfl

/-! ### Ranges -/

/-- Bit `i` lies between the end bits of a range. -/
def Span.Holds (r : Span) (i : ℕ) : Prop :=
  (r.fw = r.lw ∧ i / 32 = r.fw ∧ r.fb ≤ i % 32 ∧ i % 32 ≤ r.lb) ∨
  (r.fw ≠ r.lw ∧ ((i / 32 = r.fw ∧ r.fb ≤ i % 32) ∨ (r.fw + 1 ≤ i / 32 ∧ i / 32 < r.lw) ∨
    (i / 32 = r.lw ∧ i % 32 ≤ r.lb)))

theorem span_holds {start count i : ℕ} (hcount : 0 < count) :
    (span start count).Holds i ↔ start ≤ i ∧ i < start + count := by
  unfold Span.Holds span bitsPerWord
  constructor
  · rintro (⟨h, h₁, h₂, h₃⟩ | ⟨h, ⟨h₁, h₂⟩ | ⟨h₁, h₂⟩ | ⟨h₁, h₂⟩⟩) <;> dsimp only at * <;> omega
  · rintro ⟨h₁, h₂⟩
    dsimp only
    by_cases h : start / 32 = (start + count - 1) / 32
    · left
      omega
    · right
      refine ⟨h, ?_⟩
      by_cases hf : i / 32 = start / 32
      · left
        omega
      · right
        by_cases hl : i / 32 = (start + count - 1) / 32
        · right
          omega
        · left
          omega

theorem span_fb_lt (start count : ℕ) : (span start count).fb < 32 := Nat.mod_lt _ (by decide)

theorem bit_setSpan (words : ℕ → UInt32) {r : Span} (hfb : r.fb < 32) (i : ℕ) :
    bit (setSpan words r) i = true ↔ r.Holds i ∨ bit words i = true := by
  have hlt : i % 32 < 32 := Nat.mod_lt i (by omega)
  unfold setSpan Span.Holds bitsPerWord
  split
  · rename_i h
    simp only [bit_orWord, testBit_rangeMask hfb hlt, Bool.or_eq_true, Bool.and_eq_true,
      decide_eq_true_eq]
    tauto
  · rename_i h
    simp only [bit_orWord, bit_fillWords, testBit_rangeMask hfb hlt,
      testBit_rangeMask (show 0 < 32 by omega) hlt, testBit_allOnes hlt, Bool.or_eq_true,
      Bool.and_eq_true, decide_eq_true_eq]
    split
    · rename_i hmid
      exact iff_of_true (.inl rfl) (.inl (.inr ⟨h, .inr (.inl hmid)⟩))
    · rename_i hmid
      have hfb' : i % 32 ≤ 32 - 1 := by omega
      have hzero : 0 ≤ i % 32 := Nat.zero_le _
      simp only [Bool.or_eq_true, Bool.and_eq_true, decide_eq_true_eq]
      tauto

theorem bit_clearSpan (words : ℕ → UInt32) {r : Span} (hfb : r.fb < 32) (i : ℕ) :
    bit (clearSpan words r) i = true ↔ ¬ r.Holds i ∧ bit words i = true := by
  have hlt : i % 32 < 32 := Nat.mod_lt i (by omega)
  unfold clearSpan Span.Holds bitsPerWord
  split
  · rename_i h
    simp only [bit_andNotWord, testBit_rangeMask hfb hlt, Bool.and_eq_true, Bool.not_eq_true',
      Bool.and_eq_false_imp, decide_eq_true_eq, decide_eq_false_iff_not]
    tauto
  · rename_i h
    simp only [bit_andNotWord, bit_fillWords, testBit_rangeMask hfb hlt,
      testBit_rangeMask (show 0 < 32 by omega) hlt, UInt32.toNat_zero, Nat.zero_testBit,
      Bool.and_eq_true, Bool.not_eq_true', Bool.and_eq_false_imp, decide_eq_true_eq,
      decide_eq_false_iff_not]
    split
    · rename_i hmid
      refine iff_of_false (fun hf => absurd hf.1 (by decide)) ?_
      exact fun hf => hf.1 (.inr ⟨h, .inr (.inl hmid)⟩)
    · rename_i hmid
      have hfb' : i % 32 ≤ 32 - 1 := by omega
      have hzero : 0 ≤ i % 32 := Nat.zero_le _
      simp only [Bool.and_eq_true, Bool.not_eq_true', Bool.and_eq_false_imp, decide_eq_true_eq,
        decide_eq_false_iff_not]
      tauto

variable {wantSet : Bool} {words : ℕ → UInt32}

theorem maskIs_iff {word m : UInt32} : maskIs word m wantSet = true ↔
      ∀ k < 32, m.toNat.testBit k = true → word.toNat.testBit k = wantSet := by
  unfold maskIs
  cases wantSet with
  | true =>
    simp only [if_true, decide_eq_true_eq]
    constructor
    · intro h k _ hm
      rw [← h, UInt32.toNat_and, Nat.testBit_and, Bool.and_eq_true] at hm
      exact hm.1
    · intro h
      apply word_ext
      intro k hk
      rw [UInt32.toNat_and, Nat.testBit_and]
      cases hm : m.toNat.testBit k with
      | false => simp
      | true => simp [h k hk hm]
  | false =>
    simp only [Bool.false_eq_true, if_false, decide_eq_true_eq]
    constructor
    · intro h k _ hm
      have hand : (word &&& m).toNat.testBit k = false := by simp [h]
      rw [UInt32.toNat_and, Nat.testBit_and, hm, Bool.and_true] at hand
      exact hand
    · intro h
      apply word_ext
      intro k hk
      rw [UInt32.toNat_and, Nat.testBit_and]
      cases hm : m.toNat.testBit k with
      | false => simp
      | true => simp [h k hk hm]

theorem eq_desiredWord_iff {word : UInt32} :
    word = desiredWord wantSet ↔ ∀ k < 32, word.toNat.testBit k = wantSet := by
  have hdes : ∀ k < 32, (desiredWord wantSet).toNat.testBit k = wantSet := by
    intro k hk
    unfold desiredWord
    cases wantSet <;> simp [testBit_allOnes hk]
  constructor
  · rintro rfl
    exact hdes
  · intro h
    apply word_ext
    intro k hk
    rw [h k hk, hdes k hk]

theorem forall_word {x : ℕ} {P : ℕ → Prop} : (∀ k < 32, P k → (words x).toNat.testBit k = wantSet) ↔
      ∀ i, i / 32 = x → P (i % 32) → bit words i = wantSet := by
  constructor
  · rintro h i rfl hP
    exact h (i % 32) (Nat.mod_lt _ (by omega)) hP
  · intro h k hk hP
    have hi := h (x * 32 + k) (by omega) (by rwa [show (x * 32 + k) % 32 = k by omega])
    rwa [bit, show (x * 32 + k) / 32 = x by omega, show (x * 32 + k) % 32 = k by omega] at hi

theorem maskIs_rangeMask {x lo hi : ℕ} (hlo : lo < 32) :
    maskIs (words x) (rangeMask lo hi) wantSet = true ↔
      ∀ i, i / 32 = x → lo ≤ i % 32 ∧ i % 32 ≤ hi → bit words i = wantSet := by
  rw [maskIs_iff, ← forall_word (P := fun b => lo ≤ b ∧ b ≤ hi)]
  constructor
  · intro h k hk hP
    exact h k hk (by simpa [testBit_rangeMask hlo hk] using hP)
  · intro h k hk hm
    exact h k hk (by simpa [testBit_rangeMask hlo hk] using hm)

theorem spanIs_iff {r : Span} (hfb : r.fb < 32) :
    spanIs words r wantSet = true ↔ ∀ i, r.Holds i → bit words i = wantSet := by
  unfold spanIs Span.Holds bitsPerWord
  split
  · rename_i h
    rw [maskIs_rangeMask hfb]
    constructor
    · rintro hone i (⟨-, hx, hb⟩ | ⟨hne, -⟩)
      · exact hone i hx hb
      · exact absurd h hne
    · intro hall i hx hb
      exact hall i (.inl ⟨h, hx, hb⟩)
  · rename_i h
    have hmid : (List.range (r.lw - (r.fw + 1))).all
          (fun k => words (r.fw + 1 + k) = desiredWord wantSet) = true ↔
        ∀ i, r.fw + 1 ≤ i / 32 → i / 32 < r.lw → bit words i = wantSet := by
      simp only [all_eq_true, mem_range, decide_eq_true_eq, eq_desiredWord_iff]
      constructor
      · intro hw i hlo hhi
        have hi := hw (i / 32 - (r.fw + 1)) (by omega) (i % 32) (Nat.mod_lt _ (by omega))
        rwa [show r.fw + 1 + (i / 32 - (r.fw + 1)) = i / 32 by omega] at hi
      · intro hall k hk
        have hword := @forall_word wantSet words (r.fw + 1 + k) (fun _ => True)
        intro b hb
        exact hword.mpr (fun i hi _ => hall i (by omega) (by omega)) b hb trivial
    rw [Bool.and_eq_true, Bool.and_eq_true, hmid, maskIs_rangeMask hfb,
      maskIs_rangeMask (show 0 < 32 by omega)]
    constructor
    · rintro ⟨⟨hfirst, hmiddle⟩, hlast⟩ i (⟨heq, -⟩ | ⟨-, ⟨hx, hb⟩ | ⟨hlo, hhi⟩ | ⟨hx, hb⟩⟩)
      · exact absurd heq h
      · exact hfirst i hx ⟨hb, by omega⟩
      · exact hmiddle i hlo hhi
      · exact hlast i hx ⟨Nat.zero_le _, hb⟩
    · intro hall
      refine ⟨⟨?_, ?_⟩, ?_⟩
      · exact fun i hx hb => hall i (.inr ⟨h, .inl ⟨hx, hb.1⟩⟩)
      · exact fun i hlo hhi => hall i (.inr ⟨h, .inr (.inl ⟨hlo, hhi⟩)⟩)
      · exact fun i hx hb => hall i (.inr ⟨h, .inr (.inr ⟨hx, hb.2⟩)⟩)

/-! ### Counting -/

/-- The number of set bits among the first `size`, bit by bit. -/
def countSet (words : ℕ → UInt32) (size : ℕ) : ℕ := (List.range size).countP (bit words)

theorem countSet_add (words : ℕ → UInt32) (n k : ℕ) (hk : k ≤ 32) : countSet words (32 * n + k) =
      countSet words (32 * n) + (List.range k).countP fun b => (words n).toNat.testBit b := by
  rw [countSet, range_add, countP_append, countP_map, countSet]
  congr 1
  apply countP_congr
  intro b hb
  have hlt := mem_range.mp hb
  rw [Function.comp_apply, bit, show (32 * n + b) / 32 = n by omega,
    show (32 * n + b) % 32 = b by omega]

theorem foldl_popcount (words : ℕ → UInt32) (n : ℕ) :
    (List.range n).foldl (fun n i => n + popcount (words i)) 0 = countSet words (32 * n) := by
  induction n with
  | zero => rfl
  | succ n ih =>
    rw [range_succ, foldl_append, foldl_cons, foldl_nil, ih,
      show 32 * (n + 1) = 32 * n + 32 by omega, countSet_add words n 32 (le_refl _), popcount]

theorem popcount_and {w m : UInt32} {n : ℕ} (hn : n ≤ 32)
    (hm : ∀ k < 32, m.toNat.testBit k = decide (k < n)) :
    popcount (w &&& m) = (List.range n).countP fun b => w.toNat.testBit b := by
  have hbit : ∀ k < 32, (w &&& m).toNat.testBit k = (w.toNat.testBit k && decide (k < n)) := by
    intro k hk
    rw [UInt32.toNat_and, Nat.testBit_and, hm k hk]
  rw [popcount, show 32 = n + (32 - n) by omega, range_add, countP_append]
  have hlow : (List.range n).countP (fun k => (w &&& m).toNat.testBit k) =
      (List.range n).countP fun b => w.toNat.testBit b := by
    apply countP_congr
    intro k hk
    have hlt := mem_range.mp hk
    rw [hbit k (by omega)]
    simp [hlt]
  have hhigh : ((List.range (32 - n)).map fun k => n + k).countP
      (fun k => (w &&& m).toNat.testBit k) = 0 := by
    rw [countP_eq_zero]
    intro k hk
    obtain ⟨j, hj, rfl⟩ := mem_map.mp hk
    have hlt := mem_range.mp hj
    rw [hbit (n + j) (by omega)]
    simp
  rw [hlow, hhigh, Nat.add_zero]

theorem numberOfSetBits_eq (words : ℕ → UInt32) {size : ℕ} (hsize : size ≠ 0) :
    ((List.range (wordCount size - 1)).foldl (fun n i => n + popcount (words i)) 0) +
      popcount (words (wordCount size - 1) &&& tailMask size) = countSet words size := by
  have hlast : ∃ k, k ≤ 32 ∧ size = 32 * (wordCount size - 1) + k ∧
      ∀ b < 32, (tailMask size).toNat.testBit b = decide (b < k) := by
    by_cases hrem : size % 32 = 0
    · refine ⟨32, le_refl _, ?_, ?_⟩
      · unfold wordCount bitsPerWord
        simp only [hrem, ne_eq, not_true, if_false]
        omega
      · intro b hb
        simp [testBit_tailMask hb, hrem, hb]
    · refine ⟨size % 32, by omega, ?_, ?_⟩
      · unfold wordCount bitsPerWord
        simp only [hrem, ne_eq, not_false_iff, if_true]
        omega
      · intro b hb
        simp [testBit_tailMask hb, hrem]
  obtain ⟨k, hk, hsplit, hmask⟩ := hlast
  rw [foldl_popcount, popcount_and hk hmask]
  conv_rhs => rw [hsplit]
  rw [countSet_add words _ k hk]

theorem size_sub_countSet (words : ℕ → UInt32) (size : ℕ) :
    size - countSet words size = (List.range size).countP fun i => !bit words i := by
  have h := length_eq_countP_add_countP (p := bit words) (l := List.range size)
  rw [length_range] at h
  have hnot : (List.range size).countP (fun i => decide ¬bit words i = true) =
      (List.range size).countP fun i => !bit words i := by
    apply countP_congr
    intro i _
    simp
  rw [hnot] at h
  unfold countSet
  omega

end ImpossibleOs.Ex.Rtl
