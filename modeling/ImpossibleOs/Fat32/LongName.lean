import ImpossibleOs.Fat32.NameRun
import ImpossibleOs.Fat32.Lookup

/-!
The round trip of a long name.

LFN entry `s` holds the 13 characters from `13 * (s - 1)` on, with a terminator
and padding behind the last one. Both decoders start with the entry of the highest
number, so after the entries down to `s` the zeroed buffer holds the name from
`13 * (s - 1)` on.
-/

namespace ImpossibleOs.Fat32

open ByteMem List

/-! ### One entry -/

section Entry

variable {name : List UInt8} {chk : UInt8} {slots s : ℕ} {m : ByteMem} {a : ℕ}

/-- The code unit in place `idx` of a name as the writer stores it. -/
def nameUnit (name : List UInt8) (idx : ℕ) : ℕ :=
  if idx < name.length then (name.getD idx 0).toNat else if idx = name.length then 0 else 0xFFFF

theorem lfnChars_succ (name : List UInt8) (base n : ℕ) :
    lfnChars name base (n + 1) = lfnChars name base n ++ lfnChar name (base + n) := by
  simp [lfnChars, range_succ]

theorem getD_lfnChars {base n i k : ℕ} (hi : i < n) (hk : k < 2) :
    (lfnChars name base n).getD (2 * i + k) 0 = (lfnChar name (base + i)).getD k 0 := by
  induction n with
  | zero => omega
  | succ n ih =>
    rw [lfnChars_succ]
    rcases Nat.lt_succ_iff_lt_or_eq.mp hi with hlt | rfl
    · rw [getD_append _ _ _ _ (by rw [length_lfnChars]; omega)]
      exact ih hlt
    · rw [getD_append_right _ _ _ _ (by rw [length_lfnChars]; omega), length_lfnChars,
        Nat.add_sub_cancel_left]

theorem lfnChar_unit (name : List UInt8) (idx : ℕ) :
    ((lfnChar name idx).getD 0 0).toNat + 256 * ((lfnChar name idx).getD 1 0).toNat =
      nameUnit name idx := by
  unfold lfnChar nameUnit
  split
  · simp
  · split
    · rfl
    · rfl

/-- Where code unit `i` stands in an LFN entry. -/
def unitOffset (i : ℕ) : ℕ :=
  if i < 5 then 1 + 2 * i else if i < 11 then 14 + 2 * (i - 5) else 28 + 2 * (i - 11)

theorem getD_lfnEntry {i k : ℕ} (hi : i < 13) (hk : k < 2) :
    (lfnEntry name chk slots s).getD (unitOffset i + k) 0 =
      (lfnChar name ((s - 1) * 13 + i)).getD k 0 := by
  have h₁ := length_lfnChars name ((s - 1) * 13) 5
  have h₂ := length_lfnChars name ((s - 1) * 13 + 5) 6
  simp only [lfnEntry, append_assoc]
  unfold unitOffset
  rw [getD_append_right _ _ _ _ (by simp; split <;> [omega; split <;> omega])]
  split
  · rw [getD_append _ _ _ _ (by simp [h₁]; omega)]
    simp only [length_cons, length_nil]
    rw [show 1 + 2 * i + k - (0 + 1) = 2 * i + k by omega, getD_lfnChars (by omega) hk]
  · rw [getD_append_right _ _ _ _ (by simp [h₁]; split <;> omega),
      getD_append_right _ _ _ _ (by simp [h₁]; split <;> omega)]
    split
    · rw [getD_append _ _ _ _ (by simp [h₁, h₂]; omega)]
      simp only [length_cons, length_nil, h₁]
      rw [show 14 + 2 * (i - 5) + k - (0 + 1) - 2 * 5 - (0 + 1 + 1 + 1) = 2 * (i - 5) + k by omega,
        getD_lfnChars (by omega) hk, show (s - 1) * 13 + 5 + (i - 5) = (s - 1) * 13 + i by omega]
    · rw [getD_append_right _ _ _ _ (by simp [h₁, h₂]; omega),
        getD_append_right _ _ _ _ (by simp [h₁, h₂]; omega)]
      simp only [length_cons, length_nil, h₁, h₂]
      rw [show 28 + 2 * (i - 11) + k - (0 + 1) - 2 * 5 - (0 + 1 + 1 + 1) - 2 * 6 - (0 + 1 + 1) =
          2 * (i - 11) + k by omega,
        getD_lfnChars (by omega) hk, show (s - 1) * 13 + 11 + (i - 11) = (s - 1) * 13 + i by omega]

theorem lfnUnit_stored (h : bytes m a 32 = lfnEntry name chk slots s) {i : ℕ} (hi : i < 13) :
    lfnUnit m a i = nameUnit name ((s - 1) * 13 + i) := by
  have hbyte : ∀ k < 2, m (a + unitOffset i + k) = (lfnChar name ((s - 1) * 13 + i)).getD k 0 := by
    intro k hk
    have hoff : unitOffset i + k < 32 := by
      unfold unitOffset
      split <;> [omega; split <;> omega]
    rw [← getD_lfnEntry hi hk, ← h, getD_bytes hoff, Nat.add_assoc]
  change readLE m (a + unitOffset i) 2 = _
  rw [← lfnChar_unit, ← hbyte 0 (by omega), ← hbyte 1 (by omega)]
  simp [readLE]

/-- What the decoder makes of stored characters: all up to the terminator or padding. -/
def unitChars (units : List ℕ) : List UInt8 :=
  (units.takeWhile fun ch => ch ≠ 0 ∧ ch ≠ 0xFFFF).map fun ch =>
    if ch < 128 then UInt8.ofNat ch else 0x5F

theorem unitChars_cons {ch : UInt8} (h : 0 < ch ∧ ch < 128) (units : List ℕ) :
    unitChars (ch.toNat :: units) = ch :: unitChars units := by
  have hpos : 0 < ch.toNat := h.1
  have hlt : ch.toNat < 128 := h.2
  rw [unitChars, takeWhile_cons_of_pos (by simp; omega), map_cons, if_pos hlt,
    UInt8.ofNat_toNat]
  rfl

theorem unitChars_name (hname : AsciiName name) {base n : ℕ} (hbase : base ≤ name.length) :
    unitChars ((range' base n).map (nameUnit name)) = (name.drop base).take n := by
  induction n generalizing base with
  | zero => rfl
  | succ n ih =>
    rw [range'_succ, map_cons]
    rcases Nat.lt_or_eq_of_le hbase with hlt | rfl
    · rw [drop_eq_getElem_cons hlt, take_succ_cons, nameUnit, if_pos hlt,
        getD_eq_getElem _ _ hlt, unitChars_cons (hname _ (getElem_mem hlt)), ih hlt]
    · rw [drop_length, nameUnit, if_neg (by omega), if_pos rfl]
      rfl

theorem lfnUnits_stored (h : bytes m a 32 = lfnEntry name chk slots s) (hname : AsciiName name)
    (hs : (s - 1) * 13 ≤ name.length) : lfnUnits m a = (name.drop ((s - 1) * 13)).take 13 := by
  rw [← unitChars_name hname hs, lfnUnits, unitChars, range'_eq_map_range, map_map]
  congr 2
  apply map_congr_left
  intro i hi
  exact lfnUnit_stored h (mem_range.mp hi)

end Entry

/-! ### The name buffer -/

/-- The buffer holds the name from `base` on and zeros in front of it and behind it. -/
structure Collected (name : List UInt8) (base : ℕ) (buf : List UInt8) : Prop where
  length : buf.length = fat32MaxName
  byte : ∀ j < fat32MaxName, buf.getD j 0 = if base ≤ j then name.getD j 0 else 0

theorem getD_foldl_set (chars : List UInt8) {buf : List UInt8} {base n : ℕ} :
    ((chars.zipIdx n).foldl (fun buf p => buf.set (base + p.2) p.1) buf).length = buf.length ∧
    ∀ j < buf.length,
      ((chars.zipIdx n).foldl (fun buf p => buf.set (base + p.2) p.1) buf).getD j 0 =
        if base + n ≤ j ∧ j < base + n + chars.length then chars.getD (j - (base + n)) 0
        else buf.getD j 0 := by
  induction chars generalizing buf n with
  | nil =>
    refine ⟨rfl, fun j _ => ?_⟩
    rw [if_neg (by simp)]
    rfl
  | cons c chars ih =>
    rw [zipIdx_cons, foldl_cons]
    obtain ⟨hlen, hget⟩ := @ih (buf.set (base + n) c) (n + 1)
    rw [length_set] at hlen hget
    refine ⟨hlen, fun j hj => ?_⟩
    rw [hget j hj]
    rcases Nat.lt_trichotomy j (base + n) with hlt | rfl | hgt
    · rw [if_neg (by omega), if_neg (by omega), getD_eq_getElem?_getD,
        getElem?_set_ne (by omega), getD_eq_getElem?_getD]
    · rw [if_neg (by omega), if_pos (by simp), getD_eq_getElem?_getD,
        getElem?_set_self hj, Nat.sub_self]
      rfl
    · have hset : (buf.set (base + n) c).getD j 0 = buf.getD j 0 := by
        rw [getD_eq_getElem?_getD, getElem?_set_ne (by omega),
          ← getD_eq_getElem?_getD]
      rw [hset, length_cons]
      by_cases hin : j < base + n + (chars.length + 1)
      · rw [if_pos (by omega), if_pos (by omega),
          show j - (base + n) = j - (base + (n + 1)) + 1 by omega, getD_cons_succ]
      · rw [if_neg (by omega), if_neg (by omega)]

theorem Collected.extract {name buf : List UInt8} {chk : UInt8} {slots s : ℕ} {m : ByteMem} {a : ℕ}
    (hbuf : Collected name (s * 13) buf) (h : bytes m a 32 = lfnEntry name chk slots s)
    (hname : AsciiName name) (hpos : 0 < s) (hs : (s - 1) * 13 ≤ name.length) :
    Collected name ((s - 1) * 13) (lfnExtractChars m a buf (s - 1)) := by
  obtain ⟨hlen, hget⟩ :=
    @getD_foldl_set ((name.drop ((s - 1) * 13)).take 13) buf ((s - 1) * 13) 0
  rw [lfnExtractChars, lfnUnits_stored h hname hs]
  refine ⟨hlen.trans hbuf.length, fun j hj => ?_⟩
  rw [hget j (by rw [hbuf.length]; exact hj), hbuf.byte j hj, Nat.add_zero, length_take,
    length_drop]
  by_cases hfront : (s - 1) * 13 ≤ j
  · rw [if_pos hfront]
    by_cases hin : j < (s - 1) * 13 + min 13 (name.length - (s - 1) * 13)
    · rw [if_pos ⟨hfront, hin⟩, getD_eq_getElem?_getD, getElem?_take_of_lt (by omega),
        getElem?_drop, Nat.add_sub_cancel' hfront, ← getD_eq_getElem?_getD]
    · rw [if_neg (by omega)]
      split
      · rfl
      · rw [getD_eq_default _ _ (by omega)]
  · rw [if_neg (by omega), if_neg (by omega), if_neg hfront]

theorem collected_emptyName {name : List UInt8} {base : ℕ} (h : name.length ≤ base) :
    Collected name base emptyName := by
  refine ⟨length_replicate, fun j hj => ?_⟩
  rw [emptyName, getD_replicate _ hj]
  split
  · rw [getD_eq_default _ _ (by omega)]
  · rfl

theorem Collected.cString {name buf : List UInt8} (h : Collected name 0 buf)
    (hname : AsciiName name) (hlen : name.length < fat32MaxName) : cString buf = name := by
  obtain ⟨n, hn⟩ : ∃ n, fat32MaxName = name.length + (n + 1) :=
    ⟨fat32MaxName - name.length - 1, by omega⟩
  have hsplit : buf = name ++ replicate (n + 1) 0 := by
    apply ext_getElem
    · simp [h.length, hn]
    · intro j hj _
      have hbyte := h.byte j (by rw [← h.length]; exact hj)
      rw [if_pos (Nat.zero_le j), getD_eq_getElem _ _ hj] at hbyte
      rw [hbyte, getElem_append]
      split
      · rename_i hlt
        exact getD_eq_getElem _ _ hlt
      · rw [getD_eq_default _ _ (by omega), getElem_replicate]
  rw [hsplit, Fat32.cString, takeWhile_append_of_pos]
  · simp
  · intro c hc
    have := (hname c hc).1
    simp
    rintro rfl
    exact absurd this (by decide)

def lfnSeq (slots s : ℕ) : UInt8 :=
  if s = slots then UInt8.ofNat s ||| lfnLastEntry else UInt8.ofNat s

theorem lfnSeq_number {slots s : ℕ} (hs : s ≤ fat32LfnMaxEntries) :
    (lfnSeq slots s &&& lfnSeqMask).toNat = s := by
  have hall : ∀ s ≤ 20, ((UInt8.ofNat s ||| lfnLastEntry) &&& lfnSeqMask).toNat = s ∧
      (UInt8.ofNat s &&& lfnSeqMask).toNat = s := by decide
  unfold lfnSeq
  split
  · exact (hall s hs).1
  · exact (hall s hs).2

theorem lfnSeq_last {slots s : ℕ} (hs : s ≤ fat32LfnMaxEntries) :
    lfnSeq slots s &&& lfnLastEntry ≠ 0 ↔ s = slots := by
  have hall : ∀ s ≤ 20, (UInt8.ofNat s ||| lfnLastEntry) &&& lfnLastEntry ≠ 0 ∧
      UInt8.ofNat s &&& lfnLastEntry = 0 := by decide
  unfold lfnSeq
  split
  · rename_i heq
    exact iff_of_true (hall s hs).1 heq
  · rename_i hne
    exact iff_of_false (not_not.mpr (hall s hs).2) hne

theorem lfnSeq_used {slots s : ℕ} (hpos : 0 < s) (hs : s ≤ fat32LfnMaxEntries) :
    lfnSeq slots s ≠ 0x00 ∧ lfnSeq slots s ≠ 0xE5 := by
  have hall : ∀ s ≤ 20, 0 < s → UInt8.ofNat s ||| lfnLastEntry ≠ 0x00 ∧
      UInt8.ofNat s ||| lfnLastEntry ≠ 0xE5 ∧ UInt8.ofNat s ≠ 0x00 ∧ UInt8.ofNat s ≠ 0xE5 := by
    decide
  obtain ⟨h₁, h₂, h₃, h₄⟩ := hall s hs hpos
  unfold lfnSeq
  split
  · exact ⟨h₁, h₂⟩
  · exact ⟨h₃, h₄⟩

/-! ### The decoders -/

section Decode

variable {name : List UInt8} {chk : UInt8} {slots s : ℕ} {m : ByteMem} {a : ℕ}

section

variable (h : bytes m a 32 = lfnEntry name chk slots s)
include h

theorem lfnFields_stored : m a = lfnSeq slots s ∧ deAttr m a = fat32AttrLfn ∧ m (a + 13) = chk := by
  have hbyte : ∀ i < 32, m (a + i) = (lfnEntry name chk slots s).getD i 0 := by
    intro i hi
    rw [← h, getD_bytes hi]
  have hlen := length_lfnChars name ((s - 1) * 13) 5
  refine ⟨hbyte 0 (by omega), (hbyte 11 (by omega)).trans ?_, (hbyte 13 (by omega)).trans ?_⟩
  · simp only [lfnEntry, append_assoc]
    rw [getD_append_right _ _ _ _ (by simp), getD_append_right _ _ _ _ (by simp [hlen]),
      hlen]
    rfl
  · simp only [lfnEntry, append_assoc]
    rw [getD_append_right _ _ _ _ (by simp), getD_append_right _ _ _ _ (by simp [hlen]),
      hlen]
    rfl

theorem LfnBuf.collect_stored
    (hname : AsciiName name) (hslots : slots = lfnSlotCount name) (hpos : 0 < s) (hle : s ≤ slots)
    (hmax : slots ≤ fat32LfnMaxEntries) {st : LfnBuf}
    (hst : s < slots → st.active = true ∧ Collected name (s * 13) st.name) :
    (st.collect m a).active = true ∧ Collected name ((s - 1) * 13) (st.collect m a).name := by
  obtain ⟨hseq, -, -⟩ := lfnFields_stored h
  have hs : s ≤ fat32LfnMaxEntries := hle.trans hmax
  have hroom : (s - 1) * 13 ≤ name.length ∧ name.length ≤ slots * 13 := by
    rw [hslots, lfnSlotCount] at *
    omega
  unfold LfnBuf.collect
  dsimp only
  rw [hseq, lfnSeq_number hs]
  simp only [lfnSeq_last hs]
  set st' : LfnBuf := if s = slots then ⟨emptyName, true⟩ else st with hst'
  have hcur : st'.active = true ∧ Collected name (s * 13) st'.name := by
    rw [hst']
    split
    · rename_i heq
      exact ⟨rfl, collected_emptyName (heq ▸ hroom.2)⟩
    · exact hst (by omega)
  rw [if_pos ⟨hcur.1, hpos, hs⟩]
  exact ⟨hcur.1, hcur.2.extract h hname hpos hroom.1⟩

theorem LfnScan.collect_stored
    (hname : AsciiName name) (hslots : slots = lfnSlotCount name) (hpos : 0 < s) (hle : s ≤ slots)
    (hmax : slots ≤ fat32LfnMaxEntries) (cluster : ℕ) {st : LfnScan}
    (hst : s < slots → st.active = true ∧ st.chk = chk ∧ st.expectSeq = s ∧
      Collected name (s * 13) st.name) :
    (st.collect m cluster a).active = true ∧ (st.collect m cluster a).chk = chk ∧
      (st.collect m cluster a).expectSeq = s - 1 ∧
      Collected name ((s - 1) * 13) (st.collect m cluster a).name := by
  obtain ⟨hseq, -, hchk⟩ := lfnFields_stored h
  have hs : s ≤ fat32LfnMaxEntries := hle.trans hmax
  have hroom : (s - 1) * 13 ≤ name.length ∧ name.length ≤ slots * 13 := by
    rw [hslots, lfnSlotCount] at *
    omega
  unfold LfnScan.collect
  dsimp only
  rw [hseq, lfnSeq_number hs, hchk]
  simp only [lfnSeq_last hs]
  set st' : LfnScan := if s = slots then ⟨emptyName, true, cluster, chk, s⟩ else st with hst'
  have hcur : st'.active = true ∧ st'.chk = chk ∧ st'.expectSeq = s ∧
      Collected name (s * 13) st'.name := by
    rw [hst']
    split
    · rename_i heq
      exact ⟨rfl, rfl, rfl, collected_emptyName (heq ▸ hroom.2)⟩
    · exact hst (by omega)
  obtain ⟨hactive, hsum, hexpect, hbuf⟩ := hcur
  have haccept : ¬ (s ≠ st'.expectSeq ∨ chk ≠ st'.chk ∨ s < 1 ∨ fat32LfnMaxEntries < s) := by
    rw [hexpect, hsum]
    simp only [ne_eq, not_true_eq_false, false_or]
    omega
  rw [if_pos hactive, if_neg haccept]
  exact ⟨hactive, hsum, rfl, hbuf.extract h hname hpos hroom.1⟩

end

variable {v : Volume}

/-- The entries `ps` hold the last `ps.length` LFN entries of a name, in their order. -/
def HoldsSlots (v : Volume) (name : List UInt8) (chk : UInt8) (slots : ℕ) (ps : List (ℕ × ℕ)) :
    Prop :=
  ∀ k p, ps[k]? = some p →
    bytes v.disk (entryPos v.bpb p) 32 = lfnEntry name chk slots (ps.length - k)

variable {ps : List (ℕ × ℕ)}

theorem HoldsSlots.head {p : ℕ × ℕ}
    (h : HoldsSlots v name chk slots (p :: ps)) :
    bytes v.disk (entryPos v.bpb p) 32 = lfnEntry name chk slots (ps.length + 1) := h 0 p rfl

theorem HoldsSlots.tail {p : ℕ × ℕ}
    (h : HoldsSlots v name chk slots (p :: ps)) : HoldsSlots v name chk slots ps := by
  intro k q hq
  have := h (k + 1) q hq
  rwa [length_cons, Nat.add_sub_add_right] at this

theorem lfnAfter_stored (h : HoldsSlots v name chk slots ps)
    (hname : AsciiName name) (hslots : slots = lfnSlotCount name) (hle : ps.length ≤ slots)
    (hmax : slots ≤ fat32LfnMaxEntries) {st : LfnBuf}
    (hst : ps.length < slots → st.active = true ∧ Collected name (ps.length * 13) st.name)
    (hne : ps ≠ []) :
    ∃ st', lfnAfter v st ps = some st' ∧ listing v st ps = [] ∧ st'.active = true ∧
      Collected name 0 st'.name := by
  induction ps generalizing st with
  | nil => exact absurd rfl hne
  | cons p ps ih =>
    rw [length_cons] at hle hst
    obtain ⟨hseq, hattr, -⟩ := lfnFields_stored h.head
    obtain ⟨h0, hE5⟩ := @lfnSeq_used slots (ps.length + 1) (by omega) (hle.trans hmax)
    have hitem : readItem v st p = .pass (st.collect v.disk (entryPos v.bpb p)) := by
      unfold readItem
      dsimp only
      rw [if_neg (by rw [hseq]; exact h0), if_neg (by rw [hseq]; exact hE5), if_pos hattr]
    obtain ⟨hactive, hbuf⟩ :=
      LfnBuf.collect_stored h.head hname hslots (by omega) hle hmax hst
    rw [lfnAfter, listing, hitem]
    dsimp only
    rcases eq_or_ne ps [] with rfl | hps
    · exact ⟨_, rfl, rfl, hactive, by simpa using hbuf⟩
    · exact ih h.tail (by omega) (fun _ => ⟨hactive, hbuf⟩) hps

theorem nameTurn_stored (h : HoldsSlots v name chk slots ps)
    (hname : AsciiName name) (hslots : slots = lfnSlotCount name) (hle : ps.length ≤ slots)
    (hmax : slots ≤ fat32LfnMaxEntries) (target : List UInt8) {st : LfnScan}
    (hst : ps.length < slots → st.active = true ∧ st.chk = chk ∧ st.expectSeq = ps.length ∧
      Collected name (ps.length * 13) st.name) (hne : ps ≠ []) :
    ∃ st', ps.foldlM (nameTurn v target) st = .ok st' ∧ st'.active = true ∧ st'.chk = chk ∧
      st'.expectSeq = 0 ∧ Collected name 0 st'.name := by
  induction ps generalizing st with
  | nil => exact absurd rfl hne
  | cons p ps ih =>
    rw [length_cons] at hle hst
    obtain ⟨hseq, hattr, -⟩ := lfnFields_stored h.head
    obtain ⟨h0, hE5⟩ := @lfnSeq_used slots (ps.length + 1) (by omega) (hle.trans hmax)
    have hturn : nameTurn v target st p = .ok (st.collect v.disk p.1 (entryPos v.bpb p)) := by
      unfold nameTurn
      dsimp only
      rw [if_neg (by rw [hseq]; exact h0), if_neg (by rw [hseq]; exact hE5), if_pos hattr]
    obtain ⟨hactive, hsum, hexpect, hbuf⟩ :=
      LfnScan.collect_stored h.head hname hslots (by omega) hle hmax p.1 hst
    rw [foldlM_cons, hturn]
    rcases eq_or_ne ps [] with rfl | hps
    · exact ⟨_, rfl, hactive, hsum, hexpect, by simpa using hbuf⟩
    · exact ih h.tail (by omega) (fun _ => ⟨hactive, hsum, hexpect, hbuf⟩) hps

theorem Collected.nonempty {buf : List UInt8} (h : Collected name 0 buf) (hname : AsciiName name)
    (hne : name ≠ []) : buf.getD 0 0 ≠ 0 := by
  obtain ⟨c, l, rfl⟩ := exists_cons_of_ne_nil hne
  rw [h.byte 0 (by decide), if_pos (Nat.zero_le 0), getD_cons_zero]
  rintro rfl
  exact absurd (hname 0 mem_cons_self).1 (by decide)

theorem Collected.string {buf : List UInt8} (h : Collected name 0 buf) (hname : AsciiName name)
    (hlen : name.length < fat32MaxName) : (Fat32.cString buf).take (fat32MaxName - 1) = name := by
  rw [h.cString hname hlen, take_of_length_le (by omega)]

end Decode

end ImpossibleOs.Fat32
