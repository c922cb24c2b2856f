import ImpossibleOs.Pm.HiberRecords

/-!
The decoder reads records.

A record that stands in the image is delivered as it is. Of an image that holds
anything at all, an extent that is delivered has passed the same checks that
the encoder makes.
-/

namespace ImpossibleOs.Pm

open ByteMem Option List

variable {lz4 : Lz4} {m : ByteMem} {a b : Mark} {r : HiberRecord} {rs : List HiberRecord}

section View

variable {len p n : ℕ}

theorem view_eq (h : p + n ≤ len) : view m len p n = some fun i => m (p + i) :=
  if_pos h

theorem readLE_view (i k : ℕ) : readLE (fun j => m (p + j)) i k = readLE m (p + i) k :=
  readLE_shift fun j _ => by rw [add_assoc]

theorem bytes_view (i k : ℕ) : bytes (fun j => m (p + j)) i k = bytes m (p + i) k := by
  unfold bytes
  simp only [add_assoc]

theorem readDesc_view : readDesc (fun j => m (p + j)) 0 = readDesc m p := by
  simp [readDesc, readLE_view]

end View

/-- Where a decoder stands in its image. -/
def Decoder.mark (dec : Decoder) : Mark := ⟨dec.cursor, dec.payloadCrc, dec.nextPfn⟩

def Decoder.after (dec : Decoder) (desc : ChunkDesc) : Decoder :=
  { dec with
    payloadCrc := kcrc32cCont dec.payloadCrc
      (bytes dec.img dec.cursor (descBytes + desc.storedLen))
    cursor := dec.cursor + (descBytes + desc.storedLen)
    chunksRead := dec.chunksRead + 1
    pagesRead := (dec.pagesRead + desc.pageCount) % 2 ^ 64
    nextPfn := desc.startPfn + desc.pageCount }

section Read

variable {dec : Decoder} {dst : ByteMem} {dstCap : ℕ}

theorem readChunk_ok {desc : ChunkDesc} (hdesc : readDesc dec.img dec.cursor = desc)
    (hstate : dec.started = true ∧ dec.finished = false)
    (hchunks : dec.chunksRead < dec.declaredChunks)
    (hfits : dec.cursor + (descBytes + desc.storedLen) ≤ dec.imgLen)
    (hcheck : descCheck dec desc (dec.imgLen - dec.cursor) dstCap = .ok)
    (hunpack : (unpack lz4 desc (bytes dec.img (dec.cursor + descBytes) desc.storedLen)
      dst).2 = true) : hibernateImageReadChunk lz4 dec dst dstCap = some ⟨.ok, dec.after desc,
        (unpack lz4 desc (bytes dec.img (dec.cursor + descBytes) desc.storedLen) dst).1,
        some (desc.startPfn, desc.pageCount)⟩ := by
  have hdescBytes : descBytes = 24 := rfl
  unfold hibernateImageReadChunk
  rw [if_neg (by simp [hstate]), if_neg (Nat.not_le_of_lt hchunks)]
  dsimp only
  rw [if_neg (by omega), view_eq (by omega), bind_some, readDesc_view, hdesc,
    if_neg (by simp [hcheck]), view_eq hfits, map_some]
  simp only [bytes_view, add_zero, hunpack, not_true_eq_false, if_false]
  rfl

theorem readChunk_cases (lz4 : Lz4) (dec : Decoder) (dst : ByteMem) (dstCap : ℕ) :
    (∃ rc dst', rc ≠ .ok ∧ hibernateImageReadChunk lz4 dec dst dstCap = some ⟨rc, dec, dst', none⟩ ∧
        (dst' = dst ∨ dst' = (unpack lz4 (readDesc dec.img dec.cursor)
          (bytes dec.img (dec.cursor + descBytes) (readDesc dec.img dec.cursor).storedLen)
          dst).1 ∧ descCheck dec (readDesc dec.img dec.cursor) (dec.imgLen - dec.cursor)
            dstCap = .ok)) ∨ ∃ desc, desc = readDesc dec.img dec.cursor ∧
        (dec.started = true ∧ dec.finished = false) ∧ dec.chunksRead < dec.declaredChunks ∧
        dec.cursor + (descBytes + desc.storedLen) ≤ dec.imgLen ∧
        descCheck dec desc (dec.imgLen - dec.cursor) dstCap = .ok ∧
        (unpack lz4 desc (bytes dec.img (dec.cursor + descBytes) desc.storedLen) dst).2 = true ∧
        hibernateImageReadChunk lz4 dec dst dstCap = some ⟨.ok, dec.after desc,
            (unpack lz4 desc (bytes dec.img (dec.cursor + descBytes) desc.storedLen) dst).1,
            some (desc.startPfn, desc.pageCount)⟩ := by
  unfold hibernateImageReadChunk
  by_cases hstate : ¬ dec.started ∨ dec.finished
  · exact .inl ⟨.errState, dst, by decide, if_pos hstate, .inl rfl⟩
  rw [if_neg hstate]
  by_cases hchunks : dec.declaredChunks ≤ dec.chunksRead
  · exact .inl ⟨.errState, dst, by decide, if_pos hchunks, .inl rfl⟩
  rw [if_neg hchunks]
  dsimp only
  by_cases hshort : dec.imgLen - dec.cursor < descBytes
  · exact .inl ⟨.errTruncated, dst, by decide, if_pos hshort, .inl rfl⟩
  have hdescBytes : descBytes = 24 := rfl
  rw [if_neg hshort, view_eq (by omega), bind_some, readDesc_view]
  by_cases hcheck : descCheck dec (readDesc dec.img dec.cursor) (dec.imgLen - dec.cursor)
      dstCap ≠ .ok
  · exact .inl ⟨_, dst, hcheck, if_pos hcheck, .inl rfl⟩
  rw [if_neg hcheck]
  have hok := not_not.mp hcheck
  have hfits : dec.cursor + (descBytes + (readDesc dec.img dec.cursor).storedLen) ≤
      dec.imgLen := by
    unfold descCheck at hok
    split_ifs at hok
    omega
  rw [view_eq hfits, map_some]
  simp only [bytes_view, add_zero]
  by_cases hunpack : (unpack lz4 (readDesc dec.img dec.cursor) (bytes dec.img
      (dec.cursor + descBytes) (readDesc dec.img dec.cursor).storedLen) dst).2 = true
  · refine .inr ⟨_, rfl, by simpa using hstate, Nat.lt_of_not_le hchunks, hfits, hok, hunpack, ?_⟩
    rw [if_neg (by simp [hunpack])]
    rfl
  · refine .inl ⟨.errLz4, _, by decide, ?_, .inr ⟨rfl, hok⟩⟩
    rw [if_pos hunpack]

theorem descCheck_ok {desc : ChunkDesc} {remaining : ℕ}
    (h : descCheck dec desc remaining dstCap = .ok) :
    GoodExtent dec.nextPfn desc.startPfn desc.pageCount ∧
      desc.uncompressedLen = desc.pageCount * hiberPageSize ∧
      (desc.isStored = true → desc.storedLen = desc.uncompressedLen) ∧
      desc.uncompressedLen ≤ dstCap := by
  unfold descCheck at h
  split_ifs at h with hcount hunc hflags horder hbound hstored hsmall hshort hcap
  refine ⟨goodExtent_iff.mpr ⟨hcount, horder, hbound⟩, not_not.mp hunc, fun hs => ?_, by omega⟩
  exact not_not.mp fun hne => hstored ⟨hs, hne⟩

theorem At.descCheck (h : At lz4 dec.img dec.mark r) (hfits : dec.cursor + r.size ≤ dec.imgLen)
    (hcap : r.pageCount * hiberPageSize ≤ dstCap) :
    Pm.descCheck dec r.desc (dec.imgLen - dec.cursor) dstCap = .ok := by
  obtain ⟨hcount, horder, hbound⟩ := goodExtent_iff.mp h.extent
  unfold HiberRecord.size at hfits
  have horder' : ¬ r.startPfn < dec.nextPfn := horder
  unfold Pm.descCheck HiberRecord.desc ChunkDesc.isStored
  dsimp only
  rw [if_neg hcount, if_neg (by simp)]
  rcases h.payload with ⟨hflags, hlen, -⟩ | ⟨hflags, hpos, hlt, -⟩
  · rw [if_neg (by simp [hflags, hiberChunkFlagStored]), if_neg horder', if_neg hbound,
      if_neg (by simp [hlen]), if_neg (by simp [hflags, hiberChunkFlagStored]),
      if_neg (by omega), if_neg (by omega)]
  · rw [if_neg (by simp [hflags]), if_neg horder', if_neg hbound, if_neg (by simp [hflags]),
      if_neg (by omega), if_neg (by omega), if_neg (by omega)]

theorem At.unpack (h : At lz4 dec.img dec.mark r) :
    (Pm.unpack lz4 r.desc (bytes dec.img (dec.cursor + descBytes) r.storedLen) dst).2 = true ∧
      bytes (Pm.unpack lz4 r.desc (bytes dec.img (dec.cursor + descBytes) r.storedLen) dst).1 0
        (r.pageCount * hiberPageSize) = r.pages := by
  have hlength := h.length
  rcases h.payload with ⟨hflags, hlen, hbytes⟩ | ⟨hflags, -, -, hlz4⟩
  · have hstored : r.desc.isStored = true := by
      simp [ChunkDesc.isStored, HiberRecord.desc, hflags, hiberChunkFlagStored]
    unfold Pm.unpack
    rw [if_pos hstored]
    refine ⟨rfl, ?_⟩
    change bytes (storeBytes dst 0 (bytes dec.img (dec.mark.cursor + descBytes) r.storedLen)) 0
      (r.pageCount * hiberPageSize) = r.pages
    rw [hbytes, bytes_storeBytes_take (by omega), ← hlength, take_length]
  · have hstored : ¬ r.desc.isStored = true := by
      simp [ChunkDesc.isStored, HiberRecord.desc, hflags]
    have hrun : lz4.decompress (bytes dec.img (dec.cursor + descBytes) r.storedLen)
        r.desc.uncompressedLen = ((r.pages.length : ℤ), r.pages) := hlz4
    unfold Pm.unpack
    rw [if_neg hstored, hrun]
    refine ⟨?_, ?_⟩
    · rw [Bool.and_eq_true, decide_eq_true_eq, decide_eq_true_eq, Int.toNat_natCast]
      exact ⟨Int.natCast_nonneg _, hlength⟩
    dsimp only
    rw [bytes_storeBytes_take (by omega), ← hlength, take_length]

theorem At.readChunk (h : At lz4 dec.img dec.mark r)
    (hstate : dec.started = true ∧ dec.finished = false)
    (hchunks : dec.chunksRead < dec.declaredChunks) (hfits : dec.cursor + r.size ≤ dec.imgLen)
    (hcap : r.pageCount * hiberPageSize ≤ dstCap) :
    ∃ dst', hibernateImageReadChunk lz4 dec dst dstCap =
        some ⟨.ok, dec.after r.desc, dst', some (r.startPfn, r.pageCount)⟩ ∧
      bytes dst' 0 (r.pageCount * hiberPageSize) = r.pages := by
  obtain ⟨hunpack, hpages⟩ := @At.unpack _ _ _ dst h
  exact ⟨_, readChunk_ok h.desc hstate hchunks hfits (h.descCheck hfits hcap) hunpack, hpages⟩

theorem unpack_sameOutside (hlaw : lz4.Lawful) {desc : ChunkDesc} {payload : List UInt8}
    {remaining : ℕ} (hcheck : descCheck dec desc remaining dstCap = .ok)
    (hpayload : payload.length = desc.storedLen) :
    SameOutside 0 desc.uncompressedLen dst (Pm.unpack lz4 desc payload dst).1 := by
  obtain ⟨-, -, hstored, -⟩ := descCheck_ok hcheck
  unfold Pm.unpack
  by_cases hs : desc.isStored = true
  · rw [if_pos hs]
    refine sameOutside_storeBytes (le_refl _) ?_
    have heq := hstored hs
    omega
  · rw [if_neg hs]
    refine sameOutside_storeBytes (le_refl _) ?_
    have hle := (hlaw.decompress_le payload desc.uncompressedLen).2
    omega

end Read

end ImpossibleOs.Pm
