import ImpossibleOs.Lib.ByteMem

/-!
The update sequence of multi-sector records (`src/kernel/fs/ntfs/ntfs_mft.c`).

Before a record is written the last word of each of its sectors is moved to
the update sequence array and replaced by the sequence number; after it is
read the numbers are compared and the words put back. A record is the memory
from address 0 on; `none` is an error, after which the buffer is not used.
-/

namespace ImpossibleOs.Ntfs

open ByteMem Function List Nat

variable {b b' b₁ b₂ d₁ d₂ : ByteMem} {recordSize sectorSize usaOff usn n i k x : ℕ}

def usaOffset (b : ByteMem) : ℕ := readLE b 0x04 2

def usaSizeWords (b : ByteMem) : ℕ := readLE b 0x06 2

def fixupChecks (b : ByteMem) (recordSize sectorSize : ℕ) : Bool :=
  sectorSize ≠ 0 && sectorSize ≤ recordSize &&
    usaOffset b + usaSizeWords b * 2 ≤ recordSize &&
    usaSizeWords b = recordSize / sectorSize + 1

def lastWordOff (sectorSize i : ℕ) : ℕ := (i + 1) * sectorSize - 2

/-- Two bytes are copied one after the other. -/
def copyWord (b : ByteMem) (dst src : ℕ) : ByteMem :=
  let b := update b dst (b src)
  update b (dst + 1) (b (src + 1))

/-- One sector of `ntfs_apply_fixup`, which stops at a torn one. -/
def restoreSector (usaOff usn sectorSize : ℕ) (b : ByteMem) (i : ℕ) : Except ByteMem ByteMem :=
  if readLE b (lastWordOff sectorSize i) 2 ≠ usn then .error b
  else .ok (copyWord b (lastWordOff sectorSize i) (usaOff + 2 + 2 * i))

/-- `ntfs_apply_fixup`, with the buffer as it is left also by an error. -/
def fixupBuffer (b : ByteMem) (recordSize sectorSize : ℕ) : Except ByteMem ByteMem :=
  if fixupChecks b recordSize sectorSize then
    (List.range (recordSize / sectorSize)).foldlM
      (restoreSector (usaOffset b) (readLE b (usaOffset b) 2) sectorSize) b
  else .error b

/-- `ntfs_apply_fixup` -/
def applyFixup (b : ByteMem) (recordSize sectorSize : ℕ) : Option ByteMem :=
  (fixupBuffer b recordSize sectorSize).toOption

/-- The sequence number after `usn`; 0 is invalid. -/
def nextUsn (usn : ℕ) : ℕ := if (usn + 1) % 2 ^ 16 = 0 then 1 else (usn + 1) % 2 ^ 16

/-- One sector of `ntfs_regenerate_fixup`. -/
def stampSector (usaOff usn sectorSize : ℕ) (b : ByteMem) (i : ℕ) : ByteMem :=
  writeLE (copyWord b ((usaOff + 2 + 2 * i) % 2 ^ 16) (lastWordOff sectorSize i))
    (lastWordOff sectorSize i) 2 usn

/-- `ntfs_regenerate_fixup` -/
def regenerateFixup (b : ByteMem) (recordSize sectorSize : ℕ) : Option ByteMem :=
  if fixupChecks b recordSize sectorSize then
    let usn := nextUsn (readLE b (usaOffset b) 2)
    some ((List.range (recordSize / sectorSize)).foldl (stampSector (usaOffset b) usn sectorSize)
      (writeLE b (usaOffset b) 2 usn))
  else none

/-! ### Words -/

theorem nextUsn_lt (usn : ℕ) : nextUsn usn < 2 ^ 16 := by
  unfold nextUsn
  split <;> omega

theorem nextUsn_ne (h : usn < 2 ^ 16) : nextUsn usn ≠ usn := by
  unfold nextUsn
  split <;> omega

theorem copyWord_of_ne {dst src : ℕ} (h : x < dst ∨ dst + 2 ≤ x) : copyWord b dst src x = b x := by
  unfold copyWord
  rw [update_of_ne (by omega), update_of_ne (by omega)]

theorem copyWord_word {dst src j : ℕ} (h : dst + 2 ≤ src ∨ src + 2 ≤ dst) (hj : j < 2) :
    copyWord b dst src (dst + j) = b (src + j) := by
  unfold copyWord
  obtain rfl | rfl : j = 0 ∨ j = 1 := by omega
  · rw [update_of_ne (by omega)]
    exact update_self dst (b src) b
  · rw [update_self, update_of_ne (by omega)]

theorem lastWordOff_apart (h : i < k) (hsize : 2 ≤ sectorSize) :
    lastWordOff sectorSize i + 2 ≤ lastWordOff sectorSize k := by
  have hmul := Nat.mul_le_mul_right sectorSize (succ_le_of_lt h)
  unfold lastWordOff
  rw [succ_mul k]
  rw [succ_mul] at hmul ⊢
  omega

theorem le_lastWordOff (sectorSize i : ℕ) : sectorSize - 2 ≤ lastWordOff sectorSize i := by
  unfold lastWordOff
  rw [succ_mul]
  omega

structure Stamped (b b' : ByteMem) (usaOff usn sectorSize k : ℕ) : Prop where
  last : ∀ i < k, readLE b' (lastWordOff sectorSize i) 2 = usn
  entry : ∀ i < k, ∀ j < 2, b' (usaOff + 2 + 2 * i + j) = b (lastWordOff sectorSize i + j)
  other : ∀ x, (∀ i < k, x < lastWordOff sectorSize i ∨ lastWordOff sectorSize i + 2 ≤ x) →
    (x < usaOff + 2 ∨ usaOff + 2 + 2 * k ≤ x) → b' x = b x

theorem Stamped.step (h : Stamped b b' usaOff usn sectorSize k) (husn : usn < 2 ^ 16)
    (hin : usaOff + 2 + 2 * (k + 1) ≤ sectorSize - 2) (hsize : sectorSize < 2 ^ 16) :
    Stamped b (stampSector usaOff usn sectorSize b' k) usaOff usn sectorSize (k + 1) := by
  have hfirst := le_lastWordOff sectorSize
  have hapart : ∀ i < k, lastWordOff sectorSize i + 2 ≤ lastWordOff sectorSize k :=
    fun i hi => lastWordOff_apart hi (by omega)
  have hmod : (usaOff + 2 + 2 * k) % 2 ^ 16 = usaOff + 2 + 2 * k := mod_eq_of_lt (by omega)
  have hk := hfirst k
  unfold stampSector
  rw [hmod]
  refine ⟨fun i hi => ?_, fun i hi j hj => ?_, fun x hlast hentry => ?_⟩
  · by_cases hik : i = k
    · rw [hik, readLE_writeLE_same]
      exact mod_eq_of_lt husn
    · have hi' : i < k := by omega
      have hsep := hapart i hi'
      rw [readLE_writeLE_of_disjoint (by omega), ← h.last i hi']
      have := hfirst i
      exact readLE_congr fun x _ _ => copyWord_of_ne (by omega)
  · by_cases hik : i = k
    · rw [hik, writeLE_of_lt (by omega), copyWord_word (by omega) hj]
      exact h.other _ (fun i hi => .inr (by have := hapart i hi; omega)) (by omega)
    · rw [writeLE_of_lt (by omega), copyWord_of_ne (by omega)]
      exact h.entry i (by omega) j hj
  · have hhere := hlast k (lt_succ_self k)
    rw [writeLE_of_lt hhere, copyWord_of_ne (by omega)]
    exact h.other x (fun i hi => hlast i (by omega)) (by omega)

theorem stamped_fold (b : ByteMem) (husn : usn < 2 ^ 16)
    (hin : usaOff + 2 + 2 * n ≤ sectorSize - 2) (hsize : sectorSize < 2 ^ 16) :
    Stamped b ((List.range n).foldl (stampSector usaOff usn sectorSize) b) usaOff usn sectorSize
      n := by
  induction n with
  | zero => exact ⟨by simp, by simp, fun _ _ _ => rfl⟩
  | succ n ih =>
    rw [range_succ, foldl_append]
    exact (ih (by omega)).step husn hin hsize

/-- The first `k` sectors of `b` have their words back: `b'`. -/
structure Restored (b b' : ByteMem) (usaOff sectorSize k : ℕ) : Prop where
  last : ∀ i < k, ∀ j < 2, b' (lastWordOff sectorSize i + j) = b (usaOff + 2 + 2 * i + j)
  other : ∀ x, (∀ i < k, x < lastWordOff sectorSize i ∨ lastWordOff sectorSize i + 2 ≤ x) →
    b' x = b x

theorem restoreSectors_cases (b : ByteMem) (hin : usaOff + 2 + 2 * n ≤ sectorSize - 2)
    (hsize : 2 ≤ sectorSize) :
    (∃ b', (List.range n).foldlM (restoreSector usaOff usn sectorSize) b = .ok b' ∧
        Restored b b' usaOff sectorSize n ∧ ∀ i < n, readLE b (lastWordOff sectorSize i) 2 = usn) ∨
      (∃ b', (List.range n).foldlM (restoreSector usaOff usn sectorSize) b = .error b') ∧
        ∃ i < n, readLE b (lastWordOff sectorSize i) 2 ≠ usn := by
  have hfirst := le_lastWordOff sectorSize
  induction n with
  | zero => exact .inl ⟨b, rfl, ⟨by simp, fun _ _ => rfl⟩, by simp⟩
  | succ n ih =>
    rw [range_succ, foldlM_append]
    rcases ih (by omega) with ⟨b', hrun, hrest, hlast⟩ | ⟨⟨b', hrun⟩, i, hi, hne⟩
    · have hapart : ∀ i < n, lastWordOff sectorSize i + 2 ≤ lastWordOff sectorSize n :=
        fun i hi => lastWordOff_apart hi hsize
      have hsame : readLE b' (lastWordOff sectorSize n) 2 =
          readLE b (lastWordOff sectorSize n) 2 :=
        readLE_congr fun x hx _ => hrest.other x fun i hi => .inr ((hapart i hi).trans hx)
      have hn := hfirst n
      rw [hrun]
      by_cases heq : readLE b (lastWordOff sectorSize n) 2 = usn
      · refine .inl ⟨copyWord b' (lastWordOff sectorSize n) (usaOff + 2 + 2 * n), ?_,
          ⟨fun i hi j hj => ?_, fun x hx => ?_⟩, fun i hi => ?_⟩
        · change [n].foldlM (restoreSector usaOff usn sectorSize) b' = _
          simp [restoreSector, hsame, heq]
        · by_cases hin' : i = n
          · rw [hin', copyWord_word (by omega) hj]
            exact hrest.other _ fun i _ => .inl (by have := hfirst i; omega)
          · have hsep := hapart i (by omega)
            rw [copyWord_of_ne (by omega)]
            exact hrest.last i (by omega) j hj
        · rw [copyWord_of_ne (hx n (lt_succ_self n))]
          exact hrest.other x fun i hi => hx i (by omega)
        · by_cases hin' : i = n
          · rw [hin', heq]
          · exact hlast i (by omega)
      · refine .inr ⟨⟨b', ?_⟩, n, lt_succ_self n, heq⟩
        change [n].foldlM (restoreSector usaOff usn sectorSize) b' = _
        simp [restoreSector, hsame, heq]
    · rw [hrun]
      exact .inr ⟨⟨b', rfl⟩, i, by omega, hne⟩

/-! ### Records -/

/-- The array has an entry for each sector, and lies behind the header fields and before the
last word of the first sector. Sizes of sectors are of 16 bits. -/
structure UsaOk (b : ByteMem) (recordSize sectorSize : ℕ) : Prop where
  checks : fixupChecks b recordSize sectorSize = true
  behind : 8 ≤ usaOffset b
  inFirst : usaOffset b + usaSizeWords b * 2 ≤ sectorSize - 2
  size : sectorSize < 2 ^ 16

theorem UsaOk.words (h : UsaOk b recordSize sectorSize) :
    usaSizeWords b = recordSize / sectorSize + 1 := by
  have hchecks := h.checks
  simp only [fixupChecks, Bool.and_eq_true, decide_eq_true_eq] at hchecks
  exact hchecks.2

theorem UsaOk.entries (h : UsaOk b recordSize sectorSize) :
    usaOffset b + 2 + 2 * (recordSize / sectorSize) ≤ sectorSize - 2 := by
  have hwords := h.words
  have hin := h.inFirst
  omega

structure Written (b d : ByteMem) (recordSize sectorSize : ℕ) : Prop where
  header : ∀ x < usaOffset b, d x = b x
  number : readLE d (usaOffset b) 2 = nextUsn (readLE b (usaOffset b) 2)
  last : ∀ i < recordSize / sectorSize, readLE d (lastWordOff sectorSize i) 2 =
    nextUsn (readLE b (usaOffset b) 2)
  entry : ∀ i < recordSize / sectorSize, ∀ j < 2,
    d (usaOffset b + 2 + 2 * i + j) = b (lastWordOff sectorSize i + j)
  other : ∀ x, (∀ i < recordSize / sectorSize,
      x < lastWordOff sectorSize i ∨ lastWordOff sectorSize i + 2 ≤ x) →
    (x < usaOffset b ∨ usaOffset b + usaSizeWords b * 2 ≤ x) → d x = b x

theorem UsaOk.written (h : UsaOk b recordSize sectorSize) :
    ∃ d, regenerateFixup b recordSize sectorSize = some d ∧ Written b d recordSize sectorSize := by
  have hentries := h.entries
  have hwords := h.words
  have hfirst := le_lastWordOff sectorSize
  have hstamped := @stamped_fold sectorSize (usaOffset b)
    (nextUsn (readLE b (usaOffset b) 2)) (recordSize / sectorSize)
    (writeLE b (usaOffset b) 2 (nextUsn (readLE b (usaOffset b) 2))) (nextUsn_lt _) hentries h.size
  refine ⟨_, if_pos h.checks, ?_, ?_, hstamped.last, ?_, ?_⟩
  · intro x hx
    rw [hstamped.other x (fun i _ => .inl (by have := hfirst i; omega)) (by omega),
      writeLE_of_lt (by omega)]
  · rw [readLE_congr fun x _ hx => hstamped.other x
      (fun i _ => .inl (by have := hfirst i; omega)) (by omega), readLE_writeLE_same]
    exact mod_eq_of_lt (nextUsn_lt _)
  · intro i hi j hj
    have := hfirst i
    rw [hstamped.entry i hi j hj, writeLE_of_lt (by omega)]
  · intro x hlast hout
    rw [hstamped.other x hlast (by omega), writeLE_of_lt (by omega)]

theorem fixupChecks_congr (h : ∀ x < 8, b' x = b x) :
    usaOffset b' = usaOffset b ∧ usaSizeWords b' = usaSizeWords b ∧
      fixupChecks b' recordSize sectorSize = fixupChecks b recordSize sectorSize := by
  have hoff : usaOffset b' = usaOffset b := readLE_congr fun x _ hx => h x (by omega)
  have hwords : usaSizeWords b' = usaSizeWords b := readLE_congr fun x _ hx => h x (by omega)
  exact ⟨hoff, hwords, by rw [fixupChecks, hoff, hwords, fixupChecks]⟩

theorem Written.restored {d : ByteMem} (h : UsaOk b recordSize sectorSize)
    (hd : Written b d recordSize sectorSize) : ∃ b', applyFixup d recordSize sectorSize = some b' ∧
      (∀ x, (x < usaOffset b ∨ usaOffset b + usaSizeWords b * 2 ≤ x) → b' x = b x) ∧
      readLE b' (usaOffset b) 2 = nextUsn (readLE b (usaOffset b) 2) ∧
      ∀ i < recordSize / sectorSize, ∀ j < 2,
        b' (usaOffset b + 2 + 2 * i + j) = b (lastWordOff sectorSize i + j) := by
  have hbehind := h.behind
  have hentries := h.entries
  have hfirst := le_lastWordOff sectorSize
  obtain ⟨hoff, -, hchecks⟩ := @fixupChecks_congr b d recordSize sectorSize
    fun x hx => hd.header x (by omega)
  unfold applyFixup fixupBuffer
  rw [if_pos (hchecks.trans h.checks), hoff, hd.number]
  rcases restoreSectors_cases d hentries (by omega) with
    ⟨b', hrun, hrest, -⟩ | ⟨-, i, hi, hne⟩
  · -- the array lies before every last word
    have harray : ∀ x < usaOffset b + 2 + 2 * (recordSize / sectorSize), b' x = d x := fun x hx =>
      hrest.other x fun i _ => .inl (by have := hfirst i; omega)
    refine ⟨b', by rw [hrun]; rfl, fun x hout => ?_, ?_, fun i hi j hj => ?_⟩
    · by_cases hlast : ∀ i < recordSize / sectorSize,
          x < lastWordOff sectorSize i ∨ lastWordOff sectorSize i + 2 ≤ x
      · rw [hrest.other x hlast, hd.other x hlast hout]
      · -- a byte of a last word came back through the array
        push Not at hlast
        obtain ⟨i, hi, hlo, hhi⟩ := hlast
        obtain ⟨j, rfl⟩ := Nat.exists_eq_add_of_le hlo
        rw [hrest.last i hi j (by omega), hd.entry i hi j (by omega)]
    · rw [← hd.number]
      exact readLE_congr fun x _ hx => harray x (by omega)
    · rw [harray _ (by omega), hd.entry i hi j hj]
  · exact absurd (hd.last i hi) hne

/-- Sectors from two versions: where `pick` says so from `d₁`, else from `d₂`. -/
def mixture (pick : ℕ → Bool) (sectorSize : ℕ) (d₁ d₂ : ByteMem) : ByteMem := fun x =>
  if pick (x / sectorSize) then d₁ x else d₂ x

theorem Written.rejected {d m : ByteMem} (h : UsaOk b recordSize sectorSize)
    (hd : Written b d recordSize sectorSize) (hfirst : ∀ x < sectorSize, m x = d x)
    (hi : i < recordSize / sectorSize)
    (hne : readLE m (lastWordOff sectorSize i) 2 ≠ nextUsn (readLE b (usaOffset b) 2)) :
    applyFixup m recordSize sectorSize = none := by
  have hbehind := h.behind
  have hentries := h.entries
  obtain ⟨hoff, -, hchecks⟩ := @fixupChecks_congr b m recordSize sectorSize fun x hx =>
    (hfirst x (by omega)).trans (hd.header x (by omega))
  have hnumber : readLE m (usaOffset b) 2 = nextUsn (readLE b (usaOffset b) 2) := by
    rw [← hd.number]
    exact readLE_congr fun x _ hx => hfirst x (by omega)
  unfold applyFixup fixupBuffer
  rw [if_pos (hchecks.trans h.checks), hoff, hnumber]
  rcases restoreSectors_cases m hentries (by omega) with ⟨-, -, -, hlast⟩ | ⟨⟨_, hrun⟩, -⟩
  · exact absurd (hlast i hi) hne
  · rw [hrun]
    rfl

theorem mixture_last (pick : ℕ → Bool) (hsize : 2 ≤ sectorSize) :
    readLE (mixture pick sectorSize d₁ d₂) (lastWordOff sectorSize i) 2 =
      if pick i then readLE d₁ (lastWordOff sectorSize i) 2
      else readLE d₂ (lastWordOff sectorSize i) 2 := by
  have hsector : ∀ x, lastWordOff sectorSize i ≤ x → x < lastWordOff sectorSize i + 2 →
      x / sectorSize = i := by
    intro x hlo hhi
    unfold lastWordOff at hlo hhi
    rw [succ_mul] at hlo hhi
    exact Nat.div_eq_of_lt_le (by omega) (by rw [succ_mul]; omega)
  split <;> rename_i hpick <;> refine readLE_congr fun x hlo hhi => ?_
  · simp [mixture, hsector x hlo hhi, hpick]
  · simp [mixture, hsector x hlo hhi, hpick]

/-- Regeneration and application give a record back but for its array, which keeps the new number
and the saved words, and what is left of two successive versions in different sectors is not
accepted. -/
theorem fixup_detects_tears : (∀ b recordSize sectorSize, UsaOk b recordSize sectorSize →
      ∃ d b', regenerateFixup b recordSize sectorSize = some d ∧
        applyFixup d recordSize sectorSize = some b' ∧
        (∀ x, (x < usaOffset b ∨ usaOffset b + usaSizeWords b * 2 ≤ x) → b' x = b x) ∧
        readLE b' (usaOffset b) 2 = nextUsn (readLE b (usaOffset b) 2) ∧
        ∀ i < recordSize / sectorSize, ∀ j < 2,
          b' (usaOffset b + 2 + 2 * i + j) = b (lastWordOff sectorSize i + j)) ∧
    ∀ b₁ b₂ d₁ d₂ recordSize sectorSize pick i j, UsaOk b₁ recordSize sectorSize →
      UsaOk b₂ recordSize sectorSize → regenerateFixup b₁ recordSize sectorSize = some d₁ →
      regenerateFixup b₂ recordSize sectorSize = some d₂ →
      readLE b₂ (usaOffset b₂) 2 = readLE d₁ (usaOffset b₁) 2 →
      i < recordSize / sectorSize → j < recordSize / sectorSize → pick i = true →
      pick j = false → applyFixup (mixture pick sectorSize d₁ d₂) recordSize sectorSize = none := by
  constructor
  · intro b recordSize sectorSize h
    obtain ⟨d, hregen, hd⟩ := h.written
    obtain ⟨b', happly, hsame⟩ := hd.restored h
    exact ⟨d, b', hregen, happly, hsame⟩
  · intro b₁ b₂ d₁ d₂ recordSize sectorSize pick i j h₁ h₂ hregen₁ hregen₂ hsucc hi hj hpi hpj
    obtain ⟨d, hd, hw₁⟩ := h₁.written
    obtain rfl := Option.some.inj (hregen₁.symm.trans hd)
    obtain ⟨d', hd', hw₂⟩ := h₂.written
    obtain rfl := Option.some.inj (hregen₂.symm.trans hd')
    have hentries := h₁.entries
    rw [hw₁.number] at hsucc
    have hnumbers : nextUsn (readLE b₂ (usaOffset b₂) 2) ≠
        nextUsn (readLE b₁ (usaOffset b₁) 2) := by
      rw [hsucc]
      exact nextUsn_ne (nextUsn_lt _)
    have hzero : ∀ x < sectorSize, x / sectorSize = 0 := fun x hx => Nat.div_eq_of_lt hx
    -- the first sector decides which number is looked for
    by_cases hp0 : pick 0
    · refine hw₁.rejected h₁ (fun x hx => by simp [mixture, hzero x hx, hp0]) hj ?_
      rw [mixture_last pick (by omega), hpj, hw₂.last j hj]
      exact hnumbers
    · refine hw₂.rejected h₂ (fun x hx => by simp [mixture, hzero x hx, hp0]) hi ?_
      rw [mixture_last pick (by omega), hpi, hw₁.last i hi]
      exact hnumbers.symm

/-- A record of one sector of 512 bytes, with 7 in its last word. -/
def oneSector (usaOff words : UInt8) : ByteMem := fun x =>
  if x = 0x04 then usaOff else if x = 0x06 then words else if x = 510 then 7 else 0

def afterWrite (b : ByteMem) : Option ByteMem :=
  (regenerateFixup b 512 512).bind fun d => applyFixup d 512 512

/-- The entries of the array are not put back; an array over the header fields is not found
again, and one without an entry for each sector is not accepted at all. -/
theorem oneSector_not_restored :
    UsaOk (oneSector 48 2) 512 512 ∧ oneSector 48 2 50 = 0 ∧
      (afterWrite (oneSector 48 2)).map (fun b => b 50) = some 7 ∧
      (regenerateFixup (oneSector 4 2) 512 512).isSome ∧ (afterWrite (oneSector 4 2)).isNone ∧
      (afterWrite (oneSector 48 3)).isNone := by
  refine ⟨⟨by decide, by decide, by decide, by decide⟩, by decide, ?_, ?_, ?_, ?_⟩ <;>
    decide

end ImpossibleOs.Ntfs
