import ImpossibleOs.Pm.HiberImage
import ImpossibleOs.Lib.Refine

/-!
The records of a hibernation image.

A record stands in the memory at a mark: a cursor with the checksum of what came
before it and the lowest frame that may follow. A list of records, one behind the
other, is a payload.
-/

namespace ImpossibleOs.Pm

open ByteMem List

/-- What the codec relies on of LZ4: no call writes more than its capacity, what is returned as
the length has been written, and what was compressed is decompressed into its own length. -/
structure Lz4.Lawful (lz4 : Lz4) : Prop where
  compress_le : ∀ src cap, (lz4.compress src cap).1 ≤ (lz4.compress src cap).2.length ∧
    (lz4.compress src cap).2.length ≤ cap
  decompress_le : ∀ src cap, (lz4.decompress src cap).1 ≤ (lz4.decompress src cap).2.length ∧
    (lz4.decompress src cap).2.length ≤ cap
  round_trip : ∀ src cap, 0 < (lz4.compress src cap).1 →
    lz4.decompress ((lz4.compress src cap).2.take (lz4.compress src cap).1.toNat) src.length =
      ((src.length : ℤ), src)

/-- An extent, the pages that go there, and how the record stores them. -/
structure HiberRecord where
  startPfn : ℕ
  pages : List UInt8
  pageCount : ℕ
  storedLen : ℕ
  flags : ℕ

def HiberRecord.desc (r : HiberRecord) : ChunkDesc :=
  ⟨r.startPfn, r.pageCount, r.pageCount * hiberPageSize, r.storedLen, r.flags⟩

def HiberRecord.size (r : HiberRecord) : ℕ := descBytes + r.storedLen

/-- Where a record may start, what was checksummed before it, and where its extent may start. -/
structure Mark where
  cursor : ℕ
  crc : UInt32
  nextPfn : ℕ

/-- The extent is not empty, is not longer than a chunk, and ends at or below the last frame. -/
structure GoodExtent (next start count : ℕ) : Prop where
  pos : 0 < count
  le : count ≤ hiberChunkPages
  ordered : next ≤ start
  bounded : start + (count - 1) ≤ hiberMaxPfn

variable {lz4 : Lz4} {m m' : ByteMem} {a b : Mark} {r : HiberRecord} {rs : List HiberRecord}

structure At (lz4 : Lz4) (m : ByteMem) (a : Mark) (r : HiberRecord) : Prop where
  extent : GoodExtent a.nextPfn r.startPfn r.pageCount
  length : r.pages.length = r.pageCount * hiberPageSize
  desc : readDesc m a.cursor = r.desc
  payload :
    r.flags = 1 ∧ r.storedLen = r.pageCount * hiberPageSize ∧
        bytes m (a.cursor + descBytes) r.storedLen = r.pages ∨
      r.flags = 0 ∧ 0 < r.storedLen ∧ r.storedLen < r.pageCount * hiberPageSize ∧
        lz4.decompress (bytes m (a.cursor + descBytes) r.storedLen)
          (r.pageCount * hiberPageSize) = ((r.pages.length : ℤ), r.pages)

def Mark.after (m : ByteMem) (a : Mark) (r : HiberRecord) : Mark :=
  ⟨a.cursor + r.size, kcrc32cCont a.crc (bytes m a.cursor r.size), r.startPfn + r.pageCount⟩

/-- The records stand one behind the other from the first mark to the second. -/
def Laid (lz4 : Lz4) (m : ByteMem) : Mark → List HiberRecord → Mark → Prop
  | a, [], b => a = b
  | a, r :: rs, b => At lz4 m a r ∧ Laid lz4 m (a.after m r) rs b

theorem Laid.concat (h : Laid lz4 m a rs b) (hr : At lz4 m b r) :
    Laid lz4 m a (rs ++ [r]) (b.after m r) := by
  induction rs generalizing a with
  | nil =>
    obtain rfl : a = b := h
    exact ⟨hr, rfl⟩
  | cons r' rs ih => exact ⟨h.1, ih h.2⟩

theorem Laid.cursor_eq (h : Laid lz4 m a rs b) :
    b.cursor = a.cursor + (rs.map HiberRecord.size).sum := by
  induction rs generalizing a with
  | nil =>
    obtain rfl : a = b := h
    rfl
  | cons r rs ih =>
    rw [ih h.2, map_cons, sum_cons, Mark.after, add_assoc]

theorem Laid.cursor_le (h : Laid lz4 m a rs b) : a.cursor ≤ b.cursor := by
  rw [h.cursor_eq]
  exact Nat.le_add_right _ _

theorem At.size_le (h : At lz4 m a r) : r.size ≤ descBytes + r.pageCount * hiberPageSize := by
  unfold HiberRecord.size
  rcases h.payload with ⟨-, heq, -⟩ | ⟨-, -, hlt, -⟩ <;> omega

theorem readDesc_congr {p : ℕ} (h : AgreeOn p (p + descBytes) m m') :
    readDesc m' p = readDesc m p := by
  simp only [descBytes] at h
  simp only [readDesc, ChunkDesc.mk.injEq]
  refine ⟨readLE_congr ?_, readLE_congr ?_, readLE_congr ?_, readLE_congr ?_, readLE_congr ?_⟩
  all_goals exact h.mono (by omega) (by omega)

theorem At.agree (h : At lz4 m a r) (hagree : AgreeOn a.cursor (a.cursor + r.size) m m') :
    At lz4 m' a r := by
  have hpayload : bytes m' (a.cursor + descBytes) r.storedLen =
      bytes m (a.cursor + descBytes) r.storedLen :=
    bytes_congr (hagree.mono (Nat.le_add_right _ _) (by unfold HiberRecord.size; omega))
  refine ⟨h.extent, h.length, ?_, ?_⟩
  · rw [readDesc_congr (hagree.mono (le_refl _) (by unfold HiberRecord.size; omega)), h.desc]
  · rw [hpayload]
    exact h.payload

theorem Laid.agree (h : Laid lz4 m a rs b) (hagree : AgreeOn a.cursor b.cursor m m') :
    Laid lz4 m' a rs b := by
  induction rs generalizing a with
  | nil => exact h
  | cons r rs ih =>
    have hle := h.2.cursor_le
    have hr := hagree.mono (le_refl _) hle
    have hafter : a.after m' r = a.after m r := by
      rw [Mark.after, Mark.after, bytes_congr hr]
    refine ⟨h.1.agree hr, ?_⟩
    rw [hafter]
    exact ih h.2 (hagree.mono (Nat.le_add_right _ _) (le_refl _))

/-! ### The encoder writes a record -/

theorem readDesc_writeDesc {p : ℕ} {d : ChunkDesc} (hstart : d.startPfn < 2 ^ 64)
    (hcount : d.pageCount < 2 ^ 32) (hunc : d.uncompressedLen < 2 ^ 32)
    (hstored : d.storedLen < 2 ^ 32) (hflags : d.flags < 2 ^ 32) :
    readDesc (writeDesc m p d) p = d := by
  obtain ⟨start, count, unc, stored, flags⟩ := d
  simp only [readDesc, writeDesc, ChunkDesc.mk.injEq]
  simp (disch := omega) only [readLE_writeLE_of_disjoint, readLE_writeLE_same]
  refine ⟨?_, ?_, ?_, ?_, ?_⟩ <;> exact Nat.mod_eq_of_lt (by simpa using ‹_›)

/-- What the encoder has written so far. -/
structure Encodes (lz4 : Lz4) (enc : Encoder) (rs : List HiberRecord) : Prop where
  started : enc.started = true
  open_ : enc.finalized = false
  header : ∀ i < hiberHeaderBytes, enc.out i = 0
  laid : Laid lz4 enc.out ⟨hiberHeaderBytes, 0, 0⟩ rs ⟨enc.cursor, enc.payloadCrc, enc.nextPfn⟩
  chunkCount : enc.chunkCount = rs.length
  chunkCount_lt : enc.chunkCount < 2 ^ 32
  pageCount : enc.pageCount = (rs.map HiberRecord.pageCount).sum
  cursor_le : enc.cursor ≤ enc.outCap

theorem Laid.sum_le (h : Laid lz4 m a rs b) :
    (rs.map HiberRecord.pageCount).sum ≤ rs.length * hiberChunkPages := by
  induction rs generalizing a with
  | nil => simp
  | cons r rs ih =>
    have hle := h.1.extent.le
    have hrest := ih h.2
    simp only [map_cons, sum_cons, length_cons, Nat.succ_mul]
    omega

section Append

variable {enc : Encoder} {startPfn pageCount : ℕ} {pages : ByteMem}

/-- The checks of `hibernate_image_append_chunk` that do not speak of the buffer. -/
structure Appends (enc : Encoder) (startPfn pageCount : ℕ) : Prop where
  started : enc.started = true
  open_ : enc.finalized = false
  extent : GoodExtent enc.nextPfn startPfn pageCount
  chunkCount : enc.chunkCount ≠ 0xFFFFFFFF

/-- The room that a chunk asks for. -/
def Room (enc : Encoder) (pageCount : ℕ) : Prop :=
  enc.cursor + (descBytes + pageCount * hiberPageSize) ≤ enc.outCap

theorem goodExtent_iff {next start count : ℕ} :
    GoodExtent next start count ↔ ¬ (count = 0 ∨ hiberChunkPages < count) ∧ ¬ start < next ∧
      ¬ (hiberMaxPfn < start ∨ hiberMaxPfn - start < count - 1) := by
  constructor
  · rintro ⟨hpos, hle, hordered, hbounded⟩
    refine ⟨?_, ?_, ?_⟩ <;> omega
  · rintro ⟨hcount, hordered, hbounded⟩
    refine ⟨?_, ?_, ?_, ?_⟩ <;> omega

/-- The memory and the descriptor fields that a chunk leaves. -/
def stored (lz4 : Lz4) (enc : Encoder) (pages : ByteMem) (pageCount : ℕ) : ByteMem × ℕ × ℕ :=
  let data := bytes pages 0 (pageCount * hiberPageSize)
  let r := lz4.compress data (pageCount * hiberPageSize - 1)
  let out := storeBytes enc.out (enc.cursor + descBytes) r.2
  if 0 < r.1 then (out, r.1.toNat, 0)
  else
    (storeBytes out (enc.cursor + descBytes) data, pageCount * hiberPageSize,
      hiberChunkFlagStored)

/-- The encoder after a chunk. -/
def appended (lz4 : Lz4) (enc : Encoder) (startPfn : ℕ) (pages : ByteMem) (pageCount : ℕ) :
    Encoder :=
  let s := stored lz4 enc pages pageCount
  let out := writeDesc s.1 enc.cursor
    ⟨startPfn, pageCount, pageCount * hiberPageSize, s.2.1, s.2.2⟩
  { enc with
    out := out
    payloadCrc := kcrc32cCont enc.payloadCrc (bytes out enc.cursor (descBytes + s.2.1))
    cursor := enc.cursor + (descBytes + s.2.1)
    chunkCount := enc.chunkCount + 1
    pageCount := (enc.pageCount + pageCount) % 2 ^ 64
    nextPfn := startPfn + pageCount }

theorem appendChunk_ok (happends : Appends enc startPfn pageCount) (hroom : Room enc pageCount) :
    hibernateImageAppendChunk lz4 enc startPfn pages pageCount =
      (.ok, appended lz4 enc startPfn pages pageCount) := by
  obtain ⟨hcount, horder, hbound⟩ := goodExtent_iff.mp happends.extent
  unfold Room at hroom
  unfold hibernateImageAppendChunk
  rw [if_neg (by simp [happends.started, happends.open_]), if_neg hcount, if_neg horder,
    if_neg hbound, if_neg happends.chunkCount]
  dsimp only
  rw [if_neg (by omega), if_neg (by omega)]
  rfl

theorem appendChunk_cases (lz4 : Lz4) (enc : Encoder) (startPfn : ℕ) (pages : ByteMem)
    (pageCount : ℕ) : (Appends enc startPfn pageCount ∧ Room enc pageCount ∧
        hibernateImageAppendChunk lz4 enc startPfn pages pageCount =
          (.ok, appended lz4 enc startPfn pages pageCount)) ∨ ∃ rc, rc ≠ .ok ∧
        hibernateImageAppendChunk lz4 enc startPfn pages pageCount = (rc, enc) ∧
        (rc = .errNospace → Appends enc startPfn pageCount ∧ ¬ Room enc pageCount) := by
  unfold hibernateImageAppendChunk
  by_cases hstate : ¬ enc.started ∨ enc.finalized
  · exact .inr ⟨.errState, by decide, if_pos hstate, nofun⟩
  rw [if_neg hstate]
  by_cases hcount : pageCount = 0 ∨ hiberChunkPages < pageCount
  · exact .inr ⟨.errArg, by decide, if_pos hcount, nofun⟩
  rw [if_neg hcount]
  by_cases horder : startPfn < enc.nextPfn
  · exact .inr ⟨.errOrder, by decide, if_pos horder, nofun⟩
  rw [if_neg horder]
  by_cases hbound : hiberMaxPfn < startPfn ∨ hiberMaxPfn - startPfn < pageCount - 1
  · exact .inr ⟨.errBounds, by decide, if_pos hbound, nofun⟩
  rw [if_neg hbound]
  by_cases hmax : enc.chunkCount = 0xFFFFFFFF
  · exact .inr ⟨.errCount, by decide, if_pos hmax, nofun⟩
  rw [if_neg hmax]
  have hstate' : enc.started = true ∧ enc.finalized = false := by simpa using hstate
  have happends : Appends enc startPfn pageCount :=
    ⟨hstate'.1, hstate'.2, goodExtent_iff.mpr ⟨hcount, horder, hbound⟩, hmax⟩
  dsimp only
  by_cases hdesc : enc.outCap < enc.cursor ∨ enc.outCap - enc.cursor < descBytes
  · refine .inr ⟨.errNospace, by decide, if_pos hdesc, fun _ => ⟨happends, ?_⟩⟩
    unfold Room
    omega
  rw [if_neg hdesc]
  by_cases hroom : enc.outCap - enc.cursor - descBytes < pageCount * hiberPageSize
  · refine .inr ⟨.errNospace, by decide, if_pos hroom, fun _ => ⟨happends, ?_⟩⟩
    unfold Room
    omega
  rw [if_neg hroom]
  refine .inl ⟨happends, ?_, rfl⟩
  unfold Room
  omega

/-- The record that a chunk becomes. -/
def recordOf (lz4 : Lz4) (enc : Encoder) (startPfn : ℕ) (pages : ByteMem) (pageCount : ℕ) :
    HiberRecord :=
  ⟨startPfn, bytes pages 0 (pageCount * hiberPageSize), pageCount,
    (stored lz4 enc pages pageCount).2.1, (stored lz4 enc pages pageCount).2.2⟩

theorem writeLE_desc {p : ℕ} {d : ChunkDesc} (m : ByteMem) :
    SameOutside p (p + descBytes) m (writeDesc m p d) := by
  have hle : descBytes = 24 := rfl
  unfold writeDesc
  refine (((((SameOutside.refl _ _ m).writeLE ?_ ?_).writeLE ?_ ?_).writeLE ?_ ?_).writeLE
    ?_ ?_).writeLE ?_ ?_ <;> omega

theorem bytes_storeBytes_take {m : ByteMem} {p n : ℕ} {l : List UInt8} (hn : n ≤ l.length) :
    bytes (storeBytes m p l) p n = l.take n := by
  apply ext_getElem?
  intro i
  by_cases hi : i < n
  · rw [getElem?_bytes hi, getElem?_take_of_lt hi, storeBytes, if_pos (by omega),
      Nat.add_sub_cancel_left, getD_eq_getElem?_getD, getElem?_eq_getElem (by omega),
      Option.getD_some]
  · rw [getElem?_eq_none (by simpa using hi), getElem?_eq_none]
    rw [length_take]
    omega

theorem stored_spec (hlaw : lz4.Lawful) (hpos : 0 < pageCount) :
    let s := stored lz4 enc pages pageCount
    SameOutside (enc.cursor + descBytes) (enc.cursor + (descBytes + pageCount * hiberPageSize))
        enc.out s.1 ∧
      (s.2.2 = 1 ∧ s.2.1 = pageCount * hiberPageSize ∧
          bytes s.1 (enc.cursor + descBytes) s.2.1 =
            bytes pages 0 (pageCount * hiberPageSize) ∨
        s.2.2 = 0 ∧ 0 < s.2.1 ∧ s.2.1 < pageCount * hiberPageSize ∧
          lz4.decompress (bytes s.1 (enc.cursor + descBytes) s.2.1)
              (pageCount * hiberPageSize) =
            (((pageCount * hiberPageSize : ℕ) : ℤ),
              bytes pages 0 (pageCount * hiberPageSize))) := by
  have hunc : 0 < pageCount * hiberPageSize := Nat.mul_pos hpos (by decide)
  have hdata : (bytes pages 0 (pageCount * hiberPageSize)).length = pageCount * hiberPageSize :=
    length_bytes _ _ _
  unfold stored
  dsimp only
  generalize bytes pages 0 (pageCount * hiberPageSize) = data at hdata
  generalize pageCount * hiberPageSize = unc at hunc hdata
  obtain ⟨hlen, hcap⟩ := hlaw.compress_le data (unc - 1)
  have htrip := hlaw.round_trip data (unc - 1)
  generalize lz4.compress data (unc - 1) = res at hlen hcap htrip
  have hout : SameOutside (enc.cursor + descBytes) (enc.cursor + (descBytes + unc)) enc.out
      (storeBytes enc.out (enc.cursor + descBytes) res.2) :=
    sameOutside_storeBytes (le_refl _) (by omega)
  by_cases hrc : 0 < res.1
  · simp only [if_pos hrc]
    refine ⟨hout, .inr ⟨trivial, by omega, by omega, ?_⟩⟩
    rw [bytes_storeBytes_take (by omega), ← hdata]
    exact htrip hrc
  · simp only [if_neg hrc]
    refine ⟨hout.trans (sameOutside_storeBytes (le_refl _) (by omega)),
      .inl ⟨rfl, trivial, ?_⟩⟩
    rw [← hdata, bytes_storeBytes_take (le_refl _), take_length]

theorem Encodes.append (h : Encodes lz4 enc rs) (hlaw : lz4.Lawful)
    (happends : Appends enc startPfn pageCount) (hroom : Room enc pageCount) :
    Encodes lz4 (appended lz4 enc startPfn pages pageCount)
      (rs ++ [recordOf lz4 enc startPfn pages pageCount]) := by
  obtain ⟨hout, hpayload⟩ := @stored_spec _ enc _ pages hlaw happends.extent.pos
  have hpages : (bytes pages 0 (pageCount * hiberPageSize)).length = pageCount * hiberPageSize :=
    length_bytes _ _ _
  have hsize : (stored lz4 enc pages pageCount).2.1 ≤ pageCount * hiberPageSize := by
    rcases hpayload with ⟨-, heq, -⟩ | ⟨-, -, hlt, -⟩ <;> omega
  have hunc : pageCount * hiberPageSize ≤ 64 * 4096 := Nat.mul_le_mul_right _ happends.extent.le
  have hflags : (stored lz4 enc pages pageCount).2.2 < 2 ^ 32 := by
    rcases hpayload with ⟨heq, -⟩ | ⟨heq, -⟩ <;> rw [heq] <;> decide
  have hdesc := writeLE_desc (p := enc.cursor) (d := (recordOf lz4 enc startPfn pages
    pageCount).desc) (stored lz4 enc pages pageCount).1
  have hall : SameOutside enc.cursor (enc.cursor + (descBytes + pageCount * hiberPageSize))
      enc.out (appended lz4 enc startPfn pages pageCount).out :=
    (hout.mono (Nat.le_add_right _ _) (le_refl _)).trans
      (hdesc.mono (le_refl _) (by omega))
  have hat : At lz4 (appended lz4 enc startPfn pages pageCount).out
      ⟨enc.cursor, enc.payloadCrc, enc.nextPfn⟩ (recordOf lz4 enc startPfn pages pageCount) := by
    have hafter : bytes (appended lz4 enc startPfn pages pageCount).out (enc.cursor + descBytes)
        (stored lz4 enc pages pageCount).2.1 = bytes (stored lz4 enc pages pageCount).1
          (enc.cursor + descBytes) (stored lz4 enc pages pageCount).2.1 :=
      bytes_congr (hdesc.agreeOn (.inr (le_refl _)))
    have hpfn : startPfn ≤ hiberMaxPfn := by
      have hbounded := happends.extent.bounded
      omega
    refine ⟨happends.extent, hpages, ?_, ?_⟩
    · apply readDesc_writeDesc
      · exact lt_of_le_of_lt hpfn (by decide)
      · exact lt_of_le_of_lt happends.extent.le (by decide)
      · exact lt_of_le_of_lt hunc (by decide)
      · exact lt_of_le_of_lt (hsize.trans hunc) (by decide)
      · exact hflags
    · dsimp only [recordOf]
      rw [hafter, hpages]
      exact hpayload
  have hcount : enc.chunkCount + 1 < 2 ^ 32 := by
    have hlt := h.chunkCount_lt
    have hne := happends.chunkCount
    omega
  have hsum := h.laid.sum_le
  have hle := happends.extent.le
  refine ⟨h.started, h.open_, fun i hi => ?_, ?_, ?_, hcount, ?_, ?_⟩
  · rw [hall i (.inl (lt_of_lt_of_le hi h.laid.cursor_le))]
    exact h.header i hi
  · exact (h.laid.agree (hall.agreeOn (.inl (le_refl _)))).concat hat
  · rw [length_append, length_singleton, ← h.chunkCount]
    rfl
  · rw [map_append, sum_append, ← h.pageCount]
    change (enc.pageCount + pageCount) % 2 ^ 64 = enc.pageCount + (pageCount + 0)
    rw [← h.pageCount, ← h.chunkCount] at hsum
    simp only [hiberChunkPages] at hsum hle
    exact Nat.mod_eq_of_lt (by omega)
  · change enc.cursor + (descBytes + _) ≤ enc.outCap
    unfold Room at hroom
    omega

end Append

end ImpossibleOs.Pm
