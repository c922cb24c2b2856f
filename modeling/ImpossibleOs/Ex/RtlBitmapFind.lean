import ImpossibleOs.Ex.RtlBitmapSpec

/-!
The operations of a bitmap and their bit-by-bit definitions.
-/

namespace ImpossibleOs.Ex.Rtl

open RunSearch Option List

/-! ### Searching -/

/-- Bit `i` is the one looked for. -/
def wanted (words : ℕ → UInt32) (wantSet : Bool) (i : ℕ) : Bool := bit words i = wantSet

variable {words : ℕ → UInt32} {bm : RtlBitmap} {wantSet : Bool}

theorem wanted_of_word {wantSet b : Bool} {i : ℕ} (hi : i % 32 = 0)
    (hword : words (i / 32) = desiredWord b) :
    ∀ k, i ≤ k → k < i + 32 → wanted words wantSet k = (b == wantSet) := by
  intro k hk hlt
  have hbit := eq_desiredWord_iff.mp hword (k % 32) (Nat.mod_lt _ (by omega))
  have hkb : bit words k = b := by rwa [bit, show k / 32 = i / 32 by omega]
  rw [wanted, hkb]
  cases b <;> cases wantSet <;> rfl

theorem findRunLoop_spec {size count from_ maxStart : ℕ}
    {fuel i run runStart : ℕ} (hscan : Scanned (wanted words wantSet) size count from_ i run)
    (hrun : run < count) (hstart : run ≠ 0 → runStart = i - run) (hi : i ≤ size)
    (hfuel : size - i < fuel) : findRunLoop words size count maxStart wantSet fuel i run runStart =
      (firstFit (wanted words wantSet) size count
        (range' from_ (maxStart - from_))).getD rtlBitmapNotFound := by
  induction fuel generalizing i run runStart with
  | zero => omega
  | succ fuel ih =>
    have hbegin : (if run = 0 then i else runStart) = i - run := by
      split
      · omega
      · exact hstart ‹_›
    have hle := hscan.le
    unfold findRunLoop
    rw [hbegin]
    by_cases hend : size ≤ i
    · rw [if_pos hend, hscan.firstFit_none hrun (.inl hend), getD_none]
    rw [if_neg hend]
    by_cases hlate : run = 0 ∧ maxStart ≤ i
    · rw [if_pos hlate, hscan.firstFit_none hrun (.inr hlate), getD_none]
    rw [if_neg hlate]
    dsimp only
    by_cases hskip : (i % bitsPerWord = 0 ∧ bitsPerWord ≤ size - i) ∧
        words (i / bitsPerWord) = desiredWord (!wantSet)
    · -- No bit of the word is as wanted.
      rw [if_pos hskip]
      obtain ⟨⟨hal, hroom⟩, hword⟩ := hskip
      unfold bitsPerWord at hal hroom hword ⊢
      have hmiss := hscan.skip hrun (show 0 < 32 by omega) fun k hk hlt => by
        rw [wanted_of_word hal hword k hk hlt]
        cases wantSet <;> rfl
      exact ih hmiss (by omega) (fun h => absurd rfl h) (by omega) (by omega)
    rw [if_neg hskip]
    by_cases hwhole : (i % bitsPerWord = 0 ∧ bitsPerWord ≤ size - i) ∧
        words (i / bitsPerWord) = desiredWord wantSet
    · -- All bits of the word are as wanted.
      rw [if_pos hwhole]
      obtain ⟨⟨hal, hroom⟩, hword⟩ := hwhole
      unfold bitsPerWord at hal hroom hword ⊢
      have hhit := hscan.absorb (n := 32) fun k hk hlt => by
        rw [wanted_of_word hal hword k hk hlt]
        cases wantSet <;> rfl
      by_cases hdone : count ≤ run + 32
      · rw [if_pos hdone, hhit.firstFit_found hdone (by omega),
          show i + 32 - (run + 32) = i - run by omega]
        split <;> rfl
      · rw [if_neg hdone]
        exact ih hhit (by omega) (fun _ => by omega) (by omega) (by omega)
    rw [if_neg hwhole]
    by_cases hbit : readBit words i = wantSet
    · rw [if_pos hbit]
      have hhit := hscan.absorb (n := 1) fun k hk hlt => by
        obtain rfl : k = i := by omega
        simpa [wanted, readBit_eq] using hbit
      by_cases hdone : run + 1 = count
      · rw [if_pos hdone, hhit.firstFit_found (by omega) (by omega),
          show i + 1 - (run + 1) = i - run by omega]
        split <;> rfl
      · rw [if_neg hdone]
        exact ih hhit (by omega) (fun _ => by omega) (by omega) (by omega)
    · rw [if_neg hbit]
      have hmiss := hscan.skip hrun (show 0 < 1 by omega) fun k hk hlt => by
        obtain rfl : k = i := by omega
        simpa [wanted, readBit_eq] using hbit
      exact ih hmiss (by omega) (fun h => absurd rfl h) (by omega) (by omega)

theorem findRun_spec {size count from_ maxStart : ℕ} (hcount : 0 < count) :
    findRun words size count from_ maxStart wantSet = (firstFit (wanted words wantSet) size count
        (range' from_ (maxStart - from_))).getD rtlBitmapNotFound := by
  unfold findRun
  split
  · rename_i hbad
    rw [firstFit_eq_none.mpr, getD_none]
    intro s hs hfits
    have := (List.mem_range'_1.mp hs).1
    have := hfits.1
    omega
  · exact findRunLoop_spec (Scanned.start _ _ _ _) hcount (fun h => absurd rfl h) (by omega)
      (by omega)

theorem firstFit_ne_notFound {p : ℕ → Bool} {size count s : ℕ} {l : List ℕ} (hcount : 0 < count)
    (hsize : size < 2 ^ 32) (h : firstFit p size count l = some s) : s ≠ rtlBitmapNotFound := by
  have hfits := (mem_of_firstFit h).2.1
  unfold rtlBitmapNotFound
  omega

section

variable (hbuf : bm.buffer = some words)
include hbuf

theorem findBits_spec (count hint : ℕ) (wantSet : Bool) : findBits bm count hint wantSet =
      (firstFit (wanted words wantSet) bm.sizeOfBitMap count
        (circular bm.sizeOfBitMap hint)).getD rtlBitmapNotFound := by
  simp only [findBits, hbuf]
  by_cases hzero : count = 0
  · -- An empty run fits at the first start position.
    have hfirst : firstFit (wanted words wantSet) bm.sizeOfBitMap count
        (circular bm.sizeOfBitMap hint) = some (min hint bm.sizeOfBitMap) := by
      rw [circular, show bm.sizeOfBitMap + 1 - min hint bm.sizeOfBitMap =
        (bm.sizeOfBitMap - min hint bm.sizeOfBitMap) + 1 by omega, range'_succ, firstFit,
        cons_append]
      apply find?_cons_of_pos
      simp [Fits, hzero]
    rw [if_pos hzero, hfirst, getD_some]
    split <;> omega
  · rw [if_neg hzero]
    have hcount : 0 < count := Nat.pos_of_ne_zero hzero
    rw [firstFit_circular hcount, findRun_spec hcount, findRun_spec hcount]
    by_cases hin : hint < bm.sizeOfBitMap
    · rw [if_pos hin, Nat.min_eq_left (by omega)]
      cases hfirst : firstFit (wanted words wantSet) bm.sizeOfBitMap count
          (range' hint (bm.sizeOfBitMap - hint)) with
      | some s =>
        have hne := firstFit_ne_notFound hcount bm.size_lt hfirst
        rw [getD_some, if_pos (.inl hne)]
        rfl
      | none =>
        rw [getD_none, none_or, Nat.sub_zero]
        by_cases hh : hint = 0
        · subst hh
          simp [firstFit]
        · rw [if_neg (by simp [hh])]
    · -- A hint past the end searches everything once.
      rw [if_neg hin, Nat.min_eq_right (by omega), if_pos (.inr rfl), Nat.sub_self,
        range'_zero, Nat.sub_zero]
      rfl

theorem rtlSetBits_buffer
    (start count : ℕ) : ∃ words', (rtlSetBits bm start count).buffer = some words' ∧
      ∀ i, bit words' i = true ↔ (start + count ≤ bm.sizeOfBitMap ∧ start ≤ i ∧ i < start + count) ∨
          bit words i = true := by
  unfold rtlSetBits validRange
  split_ifs with hbad
  · simp only [hbuf]
    exact ⟨words, rfl, fun i => ⟨.inr, fun h => h.resolve_left (by omega)⟩⟩
  · simp only [hbuf]
    refine ⟨_, rfl, ?_⟩
    intro i
    rw [bit_setSpan words (span_fb_lt start count), span_holds (by omega)]
    have hfit : start + count ≤ bm.sizeOfBitMap := by omega
    simp [hfit]

theorem rtlClearBits_buffer
    (start count : ℕ) : ∃ words', (rtlClearBits bm start count).buffer = some words' ∧
      ∀ i, bit words' i = true ↔
        ¬ (start + count ≤ bm.sizeOfBitMap ∧ start ≤ i ∧ i < start + count) ∧
          bit words i = true := by
  unfold rtlClearBits validRange
  split_ifs with hbad
  · simp only [hbuf]
    exact ⟨words, rfl, fun i => ⟨fun h => ⟨by omega, h⟩, fun h => h.2⟩⟩
  · simp only [hbuf]
    refine ⟨_, rfl, ?_⟩
    intro i
    rw [bit_clearSpan words (span_fb_lt start count), span_holds (by omega)]
    have hfit : start + count ≤ bm.sizeOfBitMap := by omega
    simp [hfit]

theorem areBits_iff (start count : ℕ) (wantSet : Bool) : areBits bm start count wantSet = true ↔
      count = 0 ∨ start + count ≤ bm.sizeOfBitMap ∧
        ∀ i, start ≤ i → i < start + count → bit words i = wantSet := by
  simp only [areBits, hbuf]
  by_cases hzero : count = 0
  · simp [hzero]
  rw [if_neg hzero]
  by_cases hbad : bm.sizeOfBitMap ≤ start ∨ bm.sizeOfBitMap - start < count
  · rw [if_pos hbad]
    refine iff_of_false (by decide) ?_
    rintro (h | ⟨h, -⟩)
    · exact hzero h
    · omega
  · rw [if_neg hbad, spanIs_iff (span_fb_lt start count)]
    have hfit : start + count ≤ bm.sizeOfBitMap := by omega
    simp only [span_holds (Nat.pos_of_ne_zero hzero), hzero, hfit, false_or, true_and]
    exact ⟨fun h i h₁ h₂ => h i ⟨h₁, h₂⟩, fun h i hi => h i hi.1 hi.2⟩

/-! ### Single bits and whole bitmaps -/

theorem rtlSetBit_buffer (b : ℕ) : ∃ words', (rtlSetBit bm b).buffer = some words' ∧
      ∀ i, bit words' i = true ↔ (b < bm.sizeOfBitMap ∧ i = b) ∨ bit words i = true := by
  simp only [rtlSetBit, hbuf]
  split
  · rename_i h
    exact ⟨words, hbuf, fun i => ⟨.inr, fun hb => hb.resolve_left (by omega)⟩⟩
  · rename_i h
    refine ⟨_, rfl, ?_⟩
    intro i
    have hin : b < bm.sizeOfBitMap := by omega
    have hsame : i = b ↔ i / 32 = b / 32 ∧ b % 32 = i % 32 := by omega
    rw [bit_orWord, testBit_bitMask, Bool.or_eq_true, Bool.and_eq_true, decide_eq_true_eq,
      decide_eq_true_eq, hsame]
    unfold bitsPerWord
    tauto

theorem rtlClearBit_buffer (b : ℕ) : ∃ words', (rtlClearBit bm b).buffer = some words' ∧
      ∀ i, bit words' i = true ↔ ¬ (b < bm.sizeOfBitMap ∧ i = b) ∧ bit words i = true := by
  simp only [rtlClearBit, hbuf]
  split
  · rename_i h
    exact ⟨words, hbuf, fun i => ⟨fun hb => ⟨by omega, hb⟩, fun hb => hb.2⟩⟩
  · rename_i h
    refine ⟨_, rfl, ?_⟩
    intro i
    have hin : b < bm.sizeOfBitMap := by omega
    have hsame : i = b ↔ i / 32 = b / 32 ∧ b % 32 = i % 32 := by omega
    rw [bit_andNotWord, testBit_bitMask, Bool.and_eq_true, Bool.not_eq_true', Bool.and_eq_false_imp,
      decide_eq_true_eq, decide_eq_false_iff_not, hsame]
    unfold bitsPerWord
    tauto

theorem rtlClearAllBits_buffer : ∃ words', (rtlClearAllBits bm).buffer = some words' ∧
      ∀ i, bit words' i = true ↔ wordCount bm.sizeOfBitMap ≤ i / 32 ∧ bit words i = true := by
  simp only [rtlClearAllBits, hbuf]
  refine ⟨_, rfl, ?_⟩
  intro i
  rw [bit_fillWords]
  split
  · rename_i h
    exact iff_of_false (by simp) (by omega)
  · rename_i h
    exact ⟨fun hb => ⟨by omega, hb⟩, fun hb => hb.2⟩

theorem rtlSetAllBits_buffer : ∃ words', (rtlSetAllBits bm).buffer = some words' ∧
      ∀ i, bit words' i = true ↔ i < bm.sizeOfBitMap ∨
        wordCount bm.sizeOfBitMap ≤ i / 32 ∧ bit words i = true := by
  simp only [rtlSetAllBits, hbuf]
  split
  · rename_i h
    refine ⟨words, hbuf, ?_⟩
    intro i
    simp [h, wordCount, bitsPerWord]
  · rename_i h
    refine ⟨_, rfl, ?_⟩
    intro i
    have hlt : i % 32 < 32 := Nat.mod_lt i (by omega)
    have hwc : wordCount bm.sizeOfBitMap = (bm.sizeOfBitMap + 31) / 32 := by
      unfold wordCount bitsPerWord
      split <;> omega
    rw [hwc, bit, putWord]
    split
    · rename_i hlast
      rw [testBit_tailMask hlt, Bool.or_eq_true, decide_eq_true_eq, decide_eq_true_eq]
      omega
    · rename_i hlast
      rw [fillWords_eq]
      split
      · rw [testBit_allOnes hlt]
        simp only [true_iff]
        omega
      · change bit words i = true ↔ _
        have hin : ¬ i < bm.sizeOfBitMap := by omega
        have hout : (bm.sizeOfBitMap + 31) / 32 ≤ i / 32 := by omega
        simp [hin, hout]

end

/-- The bitmap operations are their bit-by-bit definitions: the searches are first fit in circular
order, the range writes change the bits of the range only, the range tests read the bits of the
range only, and the counts are those of the bits below the size. -/
theorem rtlBitmap_bitwise (bm : RtlBitmap) (words : ℕ → UInt32) (hbuf : bm.buffer = some words)
    (start count hint : ℕ) :
    rtlFindClearBits bm count hint = (firstFit (fun i => bit words i = false) bm.sizeOfBitMap count
      (circular bm.sizeOfBitMap hint)).getD rtlBitmapNotFound ∧
    rtlFindSetBits bm count hint = (firstFit (fun i => bit words i = true) bm.sizeOfBitMap count
      (circular bm.sizeOfBitMap hint)).getD rtlBitmapNotFound ∧
    (∃ words', (rtlSetBits bm start count).buffer = some words' ∧
      ∀ i, bit words' i = true ↔
        (start + count ≤ bm.sizeOfBitMap ∧ start ≤ i ∧ i < start + count) ∨
          bit words i = true) ∧
    (∃ words', (rtlClearBits bm start count).buffer = some words' ∧
      ∀ i, bit words' i = true ↔
        ¬ (start + count ≤ bm.sizeOfBitMap ∧ start ≤ i ∧ i < start + count) ∧
          bit words i = true) ∧
    (rtlAreBitsSet bm start count = true ↔ count = 0 ∨ start + count ≤ bm.sizeOfBitMap ∧
      ∀ i, start ≤ i → i < start + count → bit words i = true) ∧
    (rtlAreBitsClear bm start count = true ↔ count = 0 ∨ start + count ≤ bm.sizeOfBitMap ∧
      ∀ i, start ≤ i → i < start + count → bit words i = false) ∧
    rtlNumberOfSetBits bm = (List.range bm.sizeOfBitMap).countP (fun i => bit words i) ∧
    rtlNumberOfClearBits bm = (List.range bm.sizeOfBitMap).countP (fun i => !bit words i) := by
  have hset : rtlNumberOfSetBits bm = countSet words bm.sizeOfBitMap := by
    simp only [rtlNumberOfSetBits, hbuf]
    by_cases hsize : bm.sizeOfBitMap = 0
    · rw [if_pos hsize, hsize]
      rfl
    · rw [if_neg hsize, numberOfSetBits_eq words hsize]
  refine ⟨findBits_spec hbuf count hint false, findBits_spec hbuf count hint true,
    rtlSetBits_buffer hbuf start count, rtlClearBits_buffer hbuf start count,
    areBits_iff hbuf start count true, areBits_iff hbuf start count false, hset, ?_⟩
  rw [rtlNumberOfClearBits, hset, size_sub_countSet]

/-- Forty bits in two words of ones: the 24 high bits of the second word are padding. -/
def fortyOnes : RtlBitmap :=
  { sizeOfBitMap := 40, size_lt := by decide, buffer := some fun _ => allOnes }

theorem rtlBitmap_bitwise_fortyOnes :
    rtlFindClearBits fortyOnes 1 7 = rtlBitmapNotFound ∧ rtlNumberOfSetBits fortyOnes = 40 := by
  have h := rtlBitmap_bitwise fortyOnes (fun _ => allOnes) rfl 0 1 7
  exact ⟨h.1.trans (by decide), h.2.2.2.2.2.2.1.trans (by decide)⟩

/-! ### Runs -/

inductive BitmapCall where
  | setAllBits
  | clearAllBits
  | setBit (b : ℕ)
  | clearBit (b : ℕ)
  | setBits (start count : ℕ)
  | clearBits (start count : ℕ)
  | findClearBitsAndSet (count hint : ℕ)
  | findSetBitsAndClear (count hint : ℕ)

def exec (bm : RtlBitmap) : BitmapCall → RtlBitmap
  | .setAllBits => rtlSetAllBits bm
  | .clearAllBits => rtlClearAllBits bm
  | .setBit b => rtlSetBit bm b
  | .clearBit b => rtlClearBit bm b
  | .setBits start count => rtlSetBits bm start count
  | .clearBits start count => rtlClearBits bm start count
  | .findClearBitsAndSet count hint => (rtlFindClearBitsAndSet bm count hint).2
  | .findSetBitsAndClear count hint => (rtlFindSetBitsAndClear bm count hint).2

def firstRun (size : ℕ) (s : ℕ → Bool) (count hint : ℕ) (wantSet : Bool) : Option ℕ :=
  firstFit (s · = wantSet) size count (circular size hint)

/-- The call on a set of bits; it leaves the words past the bitmap alone. -/
def apply (size : ℕ) (s : ℕ → Bool) : BitmapCall → ℕ → Bool
  | .setAllBits, i => i < size ∨ wordCount size ≤ i / 32 ∧ s i
  | .clearAllBits, i => wordCount size ≤ i / 32 ∧ s i
  | .setBit b, i => b < size ∧ i = b ∨ s i
  | .clearBit b, i => ¬ (b < size ∧ i = b) ∧ s i
  | .setBits start count, i => (start + count ≤ size ∧ start ≤ i ∧ i < start + count) ∨ s i
  | .clearBits start count, i => ¬ (start + count ≤ size ∧ start ≤ i ∧ i < start + count) ∧ s i
  | .findClearBitsAndSet count hint, i =>
    (∃ r ∈ firstRun size s count hint false, r ≤ i ∧ i < r + count) ∨ s i
  | .findSetBitsAndClear count hint, i =>
    ¬ (∃ r ∈ firstRun size s count hint true, r ≤ i ∧ i < r + count) ∧ s i

theorem exec_size (bm : RtlBitmap) (c : BitmapCall) :
    (exec bm c).sizeOfBitMap = bm.sizeOfBitMap := by
  cases c <;>
    simp only [exec, rtlSetAllBits, rtlClearAllBits, rtlSetBit, rtlClearBit, rtlSetBits,
      rtlClearBits, rtlFindClearBitsAndSet, rtlFindSetBitsAndClear] <;> (repeat' split) <;> rfl

theorem findBits_cases (hbuf : bm.buffer = some words) {count : ℕ} (hcount : count ≠ 0)
    (hint : ℕ) (wantSet : Bool) :
    (firstRun bm.sizeOfBitMap (bit words) count hint wantSet = none ∧
      findBits bm count hint wantSet = rtlBitmapNotFound) ∨
    ∃ r, firstRun bm.sizeOfBitMap (bit words) count hint wantSet = some r ∧
      findBits bm count hint wantSet = r ∧ r ≠ rtlBitmapNotFound ∧ r + count ≤ bm.sizeOfBitMap := by
  have hspec : _ = (firstRun _ (bit words) _ _ _).getD _ := findBits_spec hbuf count hint wantSet
  cases hfirst : firstRun bm.sizeOfBitMap (bit words) count hint wantSet with
  | none => exact .inl ⟨rfl, by rw [hspec, hfirst, getD_none]⟩
  | some r =>
    have hne := firstFit_ne_notFound (Nat.pos_of_ne_zero hcount) bm.size_lt hfirst
    exact .inr ⟨r, rfl, by rw [hspec, hfirst, getD_some], hne, (mem_of_firstFit hfirst).2.1⟩

theorem exec_bits (hbuf : bm.buffer = some words) (c : BitmapCall) :
    ∃ words', (exec bm c).buffer = some words' ∧
      bit words' = apply bm.sizeOfBitMap (bit words) c := by
  suffices h : ∃ words', (exec bm c).buffer = some words' ∧
      ∀ i, bit words' i = true ↔ apply bm.sizeOfBitMap (bit words) c i = true by
    obtain ⟨words', hbuf', hbits⟩ := h
    exact ⟨words', hbuf', funext fun i => Bool.eq_iff_iff.mpr (hbits i)⟩
  cases c <;> simp only [apply, decide_eq_true_eq]
  · exact rtlSetAllBits_buffer hbuf
  · exact rtlClearAllBits_buffer hbuf
  · exact rtlSetBit_buffer hbuf _
  · exact rtlClearBit_buffer hbuf _
  · exact rtlSetBits_buffer hbuf _ _
  · exact rtlClearBits_buffer hbuf _ _
  · rename_i count hint
    by_cases hcount : count = 0
    · simp [exec, rtlFindClearBitsAndSet, hcount, hbuf]
    obtain ⟨hf, hr⟩ | ⟨r, hf, hr, hne, hfits⟩ := findBits_cases hbuf hcount hint false
    · simp [exec, rtlFindClearBitsAndSet, hf, hr, hbuf]
    · simpa [exec, rtlFindClearBitsAndSet, hf, hr, hne, hcount, hfits] using
        rtlSetBits_buffer hbuf r count
  · rename_i count hint
    by_cases hcount : count = 0
    · simp [exec, rtlFindSetBitsAndClear, hcount, hbuf]
    obtain ⟨hf, hr⟩ | ⟨r, hf, hr, hne, hfits⟩ := findBits_cases hbuf hcount hint true
    · simp [exec, rtlFindSetBitsAndClear, hf, hr, hbuf]
    · simpa [exec, rtlFindSetBitsAndClear, hf, hr, hne, hcount, hfits] using
        rtlClearBits_buffer hbuf r count

/-- Over a run of calls a bitmap is a set of bits. -/
theorem rtlBitmap_run (hbuf : bm.buffer = some words) (calls : List BitmapCall) :
    ∃ words', (calls.foldl exec bm).buffer = some words' ∧
      bit words' = calls.foldl (apply bm.sizeOfBitMap) (bit words) := by
  induction calls generalizing bm words with
  | nil => exact ⟨words, hbuf, rfl⟩
  | cons c calls ih =>
    obtain ⟨words', hbuf', hbits⟩ := exec_bits hbuf c
    rw [foldl_cons, foldl_cons, ← hbits, ← exec_size bm c]
    exact ih hbuf'

theorem rtlBitmap_run_fortyOnes :
    ∃ words', ([.clearAllBits, .setBit 5, .findClearBitsAndSet 3 4].foldl exec fortyOnes).buffer =
      some words' ∧ bit words' 8 = true := by
  obtain ⟨words', hbuf, hbits⟩ := rtlBitmap_run (rfl : fortyOnes.buffer = some _) _
  exact ⟨words', hbuf, by rw [hbits]; decide⟩

end ImpossibleOs.Ex.Rtl
