import ImpossibleOs.Lib.Interleave
import ImpossibleOs.Pm.HiberDecode

/-!
The codec of hibernation images, over whole images.

Whatever the encoder accepts comes back from the decoder, extent by extent.
-/

namespace ImpossibleOs.Pm

open ByteMem List Nat

variable {lz4 : Lz4} {enc : Encoder} {ident : HiberIdent} {rs : List HiberRecord}

theorem readLE_storeBytes_of_disjoint {m : ByteMem} {p b k : ℕ} {l : List UInt8}
    (h : b + k ≤ p ∨ p + l.length ≤ b) : readLE (storeBytes m p l) b k = readLE m b k :=
  readLE_congr ((sameOutside_storeBytes (Nat.le_refl _) (Nat.le_refl _)).agreeOn h)

theorem storeBytes_of_disjoint {m : ByteMem} {p x : ℕ} {l : List UInt8}
    (h : x < p ∨ p + l.length ≤ x) : storeBytes m p l x = m x :=
  sameOutside_storeBytes (Nat.le_refl _) (Nat.le_refl _) x h

/-- The image that is left in the buffer. -/
def finalized (enc : Encoder) (ident : HiberIdent) : ByteMem :=
  writeLE (writeHeader enc ident) 136 4 (hiberHeaderCrc (writeHeader enc ident)).toNat

theorem finalized_of_untouched {x : ℕ} (hx : 104 ≤ x ∧ x < 132 ∨ 152 ≤ x) :
    finalized enc ident x = enc.out x := by
  have hlen := ident.kernelId_length
  simp (disch := omega) only [finalized, writeHeader, writeLE_of_lt, storeBytes_of_disjoint]

structure HeaderFields (m : ByteMem) (enc : Encoder) (ident : HiberIdent) : Prop where
  magic : readLE m 0 8 = hiberMagic
  formatVersion : readLE m 8 4 = hiberFormatVersion
  headerBytes : readLE m 12 4 = hiberHeaderBytes
  imageBytes : readLE m 16 8 = enc.cursor
  pageCount : readLE m 24 8 = enc.pageCount
  chunkCount : readLE m 32 4 = enc.chunkCount
  resumeType : readLE m 36 4 = ident.resumeType.toNat
  flags : readLE m 44 4 = 0
  cipher : readLE m 96 4 = 0
  keyId : readLE m 100 4 = 0
  payloadCrc : readLE m 132 4 = enc.payloadCrc.toNat
  headerCrc : readLE m 136 4 = (hiberHeaderCrc m).toNat
  cpuCount : readLE m 140 4 = ident.cpuCountPresent.toNat

theorem hiberHeaderCrc_finalized :
    hiberHeaderCrc (finalized enc ident) = hiberHeaderCrc (writeHeader enc ident) := by
  unfold hiberHeaderCrc finalized
  rw [bytes_congr (agreeOn_writeLE (.inl (by decide))),
    bytes_congr (agreeOn_writeLE (.inr (by decide)))]

theorem finalized_fields (hcursor : enc.cursor < 2 ^ 64) (hpages : enc.pageCount < 2 ^ 64)
    (hchunks : enc.chunkCount < 2 ^ 32) : HeaderFields (finalized enc ident) enc ident := by
  have hlen := ident.kernelId_length
  constructor
  case headerCrc =>
    rw [hiberHeaderCrc_finalized, finalized, readLE_writeLE_same]
    exact mod_eq_of_lt (hiberHeaderCrc (writeHeader enc ident)).toNat_lt
  all_goals
    simp (disch := omega) only [finalized, writeHeader, readLE_writeLE_of_disjoint,
      readLE_writeLE_same, readLE_storeBytes_of_disjoint]
  case magic => rfl
  case formatVersion => rfl
  case headerBytes => rfl
  case imageBytes => exact mod_eq_of_lt hcursor
  case pageCount => exact mod_eq_of_lt hpages
  case chunkCount => exact mod_eq_of_lt hchunks
  case resumeType => exact mod_eq_of_lt ident.resumeType.toNat_lt
  case flags => rfl
  case cipher => rfl
  case keyId => rfl
  case payloadCrc => exact mod_eq_of_lt enc.payloadCrc.toNat_lt
  case cpuCount => exact mod_eq_of_lt ident.cpuCountPresent.toNat_lt

theorem any_bytes_zero {m : ByteMem} {p n : ℕ} (h : ∀ i < n, m (p + i) = 0) :
    (bytes m p n).any (· ≠ 0) = false := by
  rw [any_eq_false]
  intro x hx
  obtain ⟨i, hi, rfl⟩ := mem_map.mp hx
  simp [h i (mem_range.mp hi)]

theorem Laid.sum_bounds {m : ByteMem} {a b : Mark} (h : Laid lz4 m a rs b) :
    rs.length ≤ (rs.map HiberRecord.pageCount).sum ∧
      rs.length * descBytes ≤ (rs.map HiberRecord.size).sum ∧ (rs.map HiberRecord.size).sum ≤
        (rs.map HiberRecord.pageCount).sum * (descBytes + hiberPageSize) := by
  induction rs generalizing a with
  | nil => simp
  | cons r rs ih =>
    obtain ⟨hlen, hdesc, hsize⟩ := ih h.2
    have hpos := h.1.extent.pos
    have hle := h.1.size_le
    have hge : descBytes ≤ r.size := Nat.le_add_right _ _
    have hone : descBytes ≤ r.pageCount * descBytes := Nat.le_mul_of_pos_left _ hpos
    simp only [map_cons, sum_cons, length_cons, succ_mul, Nat.add_mul,
      Nat.mul_add] at hsize ⊢
    refine ⟨?_, ?_, ?_⟩ <;> omega

theorem Encodes.fits (h : Encodes lz4 enc rs) : enc.cursor < 2 ^ 64 ∧ enc.pageCount < 2 ^ 64 := by
  have hsum := h.laid.sum_le
  obtain ⟨-, -, hsize⟩ := h.laid.sum_bounds
  have hcursor := h.laid.cursor_eq
  have hchunks := h.chunkCount_lt
  simp only [hiberChunkPages, descBytes, hiberPageSize, hiberHeaderBytes] at hsum hsize hcursor
  rw [h.pageCount]
  rw [h.chunkCount] at hchunks
  omega

theorem Encodes.headerCheck (h : Encodes lz4 enc rs)
    (htype : hiberResumeTypeKnown ident.resumeType.toNat = true)
    (hcpu : ident.cpuCountPresent ≠ 0) {imgLen : ℕ} (hlen : enc.cursor ≤ imgLen) :
    Pm.headerCheck (finalized enc ident) imgLen = .ok := by
  obtain ⟨hcursor, hpages⟩ := h.fits
  have hf := @finalized_fields _ ident hcursor hpages h.chunkCount_lt
  have hsum := h.laid.sum_le
  obtain ⟨hone, hdesc, hsize⟩ := h.laid.sum_bounds
  have heq : enc.cursor = hiberHeaderBytes + (rs.map HiberRecord.size).sum := h.laid.cursor_eq
  rw [← h.pageCount] at hsum hone hsize
  rw [← h.chunkCount] at hsum hone hdesc
  have hge : hiberHeaderBytes ≤ enc.cursor := h.laid.cursor_le
  have hcpu' : ident.cpuCountPresent.toNat ≠ 0 := fun hzero =>
    hcpu (UInt32.toNat_inj.mp (hzero.trans rfl))
  have hzero : ∀ p n, (104 ≤ p ∧ p + n ≤ 132 ∨ 152 ≤ p ∧ p + n ≤ hiberHeaderBytes) →
      (bytes (finalized enc ident) p n).any (· ≠ 0) = false := by
    intro p n hpn
    refine any_bytes_zero fun i hi => ?_
    have hbytes : hiberHeaderBytes = 4096 := rfl
    rw [finalized_of_untouched (by omega)]
    exact h.header _ (by omega)
  unfold Pm.headerCheck
  simp only [hf.magic, hf.formatVersion, hf.headerBytes, hf.imageBytes, hf.pageCount,
    hf.chunkCount, hf.resumeType, hf.flags, hf.cipher, hf.keyId, hf.headerCrc, hf.cpuCount,
    hzero 152 3944 (.inr (by decide)), hzero 104 12 (.inl (by decide)),
    hzero 116 16 (.inl (by decide)), htype]
  have hcipher : hiberCipherKnown 0 = true := rfl
  simp only [hcipher, ne_eq, not_true_eq_false, or_self, and_false, if_false, Bool.false_eq_true,
    if_neg hcpu', if_neg (Nat.not_lt_of_le hge), if_neg (Nat.not_lt_of_le hlen)]
  by_cases hempty : enc.chunkCount = 0
  · rw [if_pos hempty, if_neg]
    rw [hempty, Nat.zero_mul] at hsum
    rw [Nat.le_zero.mp hsum, Nat.zero_mul] at hsize
    omega
  · rw [if_neg hempty, if_neg (by omega), if_neg (by omega)]

open Option hiding map_map

/-- A call of `hibernate_image_append_chunk`. -/
structure AppendRequest where
  startPfn : ℕ
  pages : ByteMem
  pageCount : ℕ

def AppendRequest.bytes (req : AppendRequest) : List UInt8 :=
  ByteMem.bytes req.pages 0 (req.pageCount * hiberPageSize)

def appendStep (lz4 : Lz4) (enc : Encoder) (req : AppendRequest) : Encoder × HiberRc :=
  let r := hibernateImageAppendChunk lz4 enc req.startPfn req.pages req.pageCount
  (r.2, r.1)

/-- A call of `hibernate_image_read_chunk` with a buffer and its capacity. -/
def readStep (lz4 : Lz4) (dec : Decoder) (buf : ByteMem × ℕ) : Option (Decoder × ChunkRead) :=
  (hibernateImageReadChunk lz4 dec buf.1 buf.2).map fun r => (r.dec, r)

def accepted (reqs : List AppendRequest) (rcs : List HiberRc) : List AppendRequest :=
  ((reqs.zip rcs).filter fun p => p.2 = .ok).map Prod.fst

structure Delivers (req : AppendRequest) (read : ChunkRead) : Prop where
  rc : read.rc = .ok
  extent : read.extent = some (req.startPfn, req.pageCount)
  pages : ByteMem.bytes read.dst 0 (req.pageCount * hiberPageSize) = req.bytes

/-! ### What the codec promises -/

/-- The image of any sequence of chunks is accepted, gives back what was accepted when every
buffer has room for its pages, and is accepted as a whole. -/
def RoundTrips (lz4 : Lz4) : Prop :=
  ∀ (out : ByteMem) (aligned : Bool) (outCap : ℕ) (reqs : List AppendRequest)
    (ident : HiberIdent) (enc₀ enc enc' : Encoder) (rcs : List HiberRc) (imageBytes imgLen : ℕ),
    hibernateImageBegin out aligned outCap = (.ok, enc₀) →
    Refine.runSpec (appendStep lz4) enc₀ reqs = (enc, rcs) →
    hibernateImageFinalize enc ident = (.ok, enc', some imageBytes) →
    imageBytes ≤ imgLen →
    ∃ dec, hibernateImageDecodeBegin enc'.out aligned imgLen = some (.ok, dec) ∧
      ∀ bufs : List (ByteMem × ℕ),
        List.Forall₂ (fun req buf => req.pageCount * hiberPageSize ≤ buf.2)
          (accepted reqs rcs) bufs →
        ∃ dec' reads, Refine.run (readStep lz4) dec bufs = some (dec', reads) ∧
          List.Forall₂ Delivers (accepted reqs rcs) reads ∧
          (hibernateImageDecodeFinish dec').1 = .ok

/-- A buffer of the encoded bound of all the pages has room for every chunk, when there is
such a bound. -/
def NeverShort (lz4 : Lz4) : Prop :=
  ∀ (out : ByteMem) (aligned : Bool) (outCap : ℕ) (reqs : List AppendRequest) (enc₀ : Encoder),
    hibernateImageBegin out aligned outCap = (.ok, enc₀) →
    (reqs.map AppendRequest.pageCount).sum ≤ 0xFFFFFFFF →
    hibernateImageEncodedBound (reqs.map AppendRequest.pageCount).sum ≤ outCap →
    .errNospace ∉ (Refine.runSpec (appendStep lz4) enc₀ reqs).2

def extentsOf (reads : List ChunkRead) : List (ℕ × ℕ) := reads.filterMap ChunkRead.extent

/-- An image that is accepted as a whole delivered ascending extents that do not meet, end at
or below the last frame, and have the pages of the header. -/
def DecodeSound (lz4 : Lz4) : Prop :=
  ∀ (img : ByteMem) (aligned : Bool) (imgLen : ℕ) (dec dec' : Decoder)
    (bufs : List (ByteMem × ℕ)) (reads : List ChunkRead),
    hibernateImageDecodeBegin img aligned imgLen = some (.ok, dec) →
    Refine.run (readStep lz4) dec bufs = some (dec', reads) →
    (hibernateImageDecodeFinish dec').1 = .ok →
    (extentsOf reads).Pairwise (fun d e => d.1 + d.2 ≤ e.1) ∧
      (∀ e ∈ extentsOf reads, 0 < e.2 ∧ e.1 + (e.2 - 1) ≤ hiberMaxPfn) ∧
      ((extentsOf reads).map Prod.snd).sum = readLE img 24 8

/-- Whatever the image holds, no call faults, the decoder never takes more of it to be there
than is, and no byte of `dst` behind the declared length is written. -/
def Confined (lz4 : Lz4) : Prop :=
  (∀ (img : ByteMem) (aligned : Bool) (imgLen : ℕ),
    ∃ rc dec, hibernateImageDecodeBegin img aligned imgLen = some (rc, dec) ∧
      dec.imgLen ≤ imgLen) ∧
  ∀ (dec : Decoder) (buf : ByteMem × ℕ),
    ∃ read, readStep lz4 dec buf = some (read.dec, read) ∧ read.dec.img = dec.img ∧
      read.dec.imgLen = dec.imgLen ∧
      SameOutside 0 (readLE dec.img (dec.cursor + 12) 4) buf.1 read.dst ∧
      SameOutside 0 buf.2 buf.1 read.dst

/-- A chunk that is refused leaves the encoder as it was, a read that fails the decoder. -/
def FailuresKeep (lz4 : Lz4) : Prop :=
  (∀ (enc : Encoder) (req : AppendRequest), (appendStep lz4 enc req).2 ≠ .ok →
    (appendStep lz4 enc req).1 = enc) ∧
  ∀ (dec dec' : Decoder) (buf : ByteMem × ℕ) (read : ChunkRead),
    readStep lz4 dec buf = some (dec', read) → read.rc ≠ .ok → dec' = dec

variable {lz4 : Lz4}

theorem failuresKeep (lz4 : Lz4) : FailuresKeep lz4 := by
  refine ⟨fun enc req hrc => ?_, fun dec dec' buf read hread hrc => ?_⟩
  · rcases appendChunk_cases lz4 enc req.startPfn req.pages req.pageCount with
      ⟨-, -, heq⟩ | ⟨rc, -, heq, -⟩
    · simp only [appendStep, heq] at hrc
      exact absurd rfl hrc
    · simp only [appendStep, heq]
  · obtain ⟨read', hread', heq⟩ := Option.map_eq_some_iff.mp hread
    cases heq
    rcases readChunk_cases lz4 dec buf.1 buf.2 with ⟨rc, dst', -, hrun, -⟩ |
      ⟨desc, -, -, -, -, -, -, hrun⟩
    · rw [hrun] at hread'
      cases hread'
      rfl
    · rw [hrun] at hread'
      cases hread'
      exact absurd rfl hrc

/-! ### Encoding -/

section Encoding

variable {enc enc₀ enc' : Encoder} {rs : List HiberRecord} {reqs : List AppendRequest}
  {rcs : List HiberRc} {out : ByteMem} {aligned : Bool} {outCap : ℕ}

structure Holds (req : AppendRequest) (r : HiberRecord) : Prop where
  startPfn : r.startPfn = req.startPfn
  pageCount : r.pageCount = req.pageCount
  pages : r.pages = req.bytes

theorem begin_ok (h : hibernateImageBegin out aligned outCap = (.ok, enc₀)) :
    aligned = true ∧ Encodes lz4 enc₀ [] ∧ enc₀.outCap = outCap := by
  unfold hibernateImageBegin at h
  split_ifs at h with haligned hcap
  · cases h
  · cases h
    refine ⟨haligned, ⟨rfl, rfl, fun i hi => ?_, rfl, rfl, ?_, rfl, ?_⟩, rfl⟩
    · exact if_pos ⟨Nat.zero_le i, by rwa [Nat.zero_add]⟩
    · exact Nat.two_pow_pos 32
    · exact Nat.le_of_not_lt hcap
  · cases h

theorem accepted_cons_ok {req : AppendRequest} :
    accepted (req :: reqs) (.ok :: rcs) = req :: accepted reqs rcs := by
  simp [accepted]

theorem accepted_cons_error {req : AppendRequest} {rc : HiberRc} (h : rc ≠ .ok) :
    accepted (req :: reqs) (rc :: rcs) = accepted reqs rcs := by
  simp [accepted, h]

theorem Encodes.run (hlaw : lz4.Lawful) (h : Encodes lz4 enc rs)
    (hrun : Refine.runSpec (appendStep lz4) enc reqs = (enc', rcs)) :
    ∃ rs', Encodes lz4 enc' (rs ++ rs') ∧ List.Forall₂ Holds (accepted reqs rcs) rs' := by
  induction reqs generalizing enc rs rcs with
  | nil =>
    cases hrun
    exact ⟨[], by rwa [append_nil], .nil⟩
  | cons req reqs ih =>
    simp only [Refine.runSpec, Prod.mk.injEq] at hrun
    obtain ⟨hlast, rfl⟩ := hrun
    rcases appendChunk_cases lz4 enc req.startPfn req.pages req.pageCount with
      ⟨happends, hroom, heq⟩ | ⟨rc, hrc, heq, -⟩
    · simp only [appendStep, heq] at hlast ⊢
      have hnext := @Encodes.append _ _ _ _ _ req.pages h hlaw happends hroom
      obtain ⟨rs', henc, hall⟩ := ih hnext (Prod.ext hlast rfl)
      rw [append_assoc] at henc
      refine ⟨_, henc, ?_⟩
      rw [accepted_cons_ok]
      exact .cons ⟨rfl, rfl, rfl⟩ hall
    · simp only [appendStep, heq] at hlast ⊢
      obtain ⟨rs', henc, hall⟩ := ih h (Prod.ext hlast rfl)
      refine ⟨rs', henc, ?_⟩
      rwa [accepted_cons_error hrc]

theorem Encodes.room {pageCount total : ℕ} (h : Encodes lz4 enc rs) (hpos : 0 < pageCount)
    (htotal : (rs.map HiberRecord.pageCount).sum + pageCount ≤ total)
    (hcap : hiberHeaderBytes + total * (descBytes + hiberPageSize) ≤ enc.outCap) :
    Room enc pageCount := by
  obtain ⟨-, -, hsize⟩ := h.laid.sum_bounds
  have heq : enc.cursor = hiberHeaderBytes + (rs.map HiberRecord.size).sum := h.laid.cursor_eq
  have hmul := Nat.mul_le_mul_right (descBytes + hiberPageSize) htotal
  have hone : descBytes ≤ pageCount * descBytes := Nat.le_mul_of_pos_left _ hpos
  rw [Nat.add_mul, Nat.mul_add pageCount] at hmul
  unfold Room
  omega

theorem Encodes.neverShort {total : ℕ} (hlaw : lz4.Lawful) (h : Encodes lz4 enc rs)
    (htotal : (rs.map HiberRecord.pageCount).sum + (reqs.map AppendRequest.pageCount).sum ≤ total)
    (hcap : hiberHeaderBytes + total * (descBytes + hiberPageSize) ≤ enc.outCap) :
    .errNospace ∉ (Refine.runSpec (appendStep lz4) enc reqs).2 := by
  induction reqs generalizing enc rs with
  | nil => exact not_mem_nil
  | cons req reqs ih =>
    simp only [map_cons, sum_cons] at htotal
    simp only [Refine.runSpec, mem_cons, not_or]
    rcases appendChunk_cases lz4 enc req.startPfn req.pages req.pageCount with
      ⟨happends, hroom, heq⟩ | ⟨rc, -, heq, hnospace⟩
    · simp only [appendStep, heq]
      refine ⟨nofun, ih (@Encodes.append _ _ _ _ _ req.pages h hlaw happends hroom) ?_ hcap⟩
      simp only [map_append, List.sum_append, map_cons, sum_cons, map_nil,
        sum_nil, recordOf]
      omega
    · simp only [appendStep, heq]
      refine ⟨?_, ih h (by omega) hcap⟩
      rintro rfl
      obtain ⟨happends, hshort⟩ := hnospace rfl
      exact hshort (h.room happends.extent.pos (by omega) hcap)

theorem neverShort (hlaw : lz4.Lawful) : NeverShort lz4 := by
  intro out aligned outCap reqs enc₀ hbegin htotal hbound
  obtain ⟨-, henc, hcap⟩ : _ ∧ Encodes lz4 _ _ ∧ _ := begin_ok hbegin
  rw [hibernateImageEncodedBound, if_neg (Nat.not_lt_of_le htotal), ← hcap] at hbound
  exact henc.neverShort hlaw (by simp) hbound

end Encoding

/-! ### Decoding what was encoded -/

section Decoding

variable {dec : Decoder} {a b : Mark} {rs : List HiberRecord} {enc enc' : Encoder}
  {ident : HiberIdent}

structure Decodes (lz4 : Lz4) (dec : Decoder) (rs : List HiberRecord) (crc : UInt32)
    (nextPfn : ℕ) : Prop where
  state : dec.started = true ∧ dec.finished = false
  laid : Laid lz4 dec.img dec.mark rs ⟨dec.imgLen, crc, nextPfn⟩
  chunks : dec.chunksRead + rs.length = dec.declaredChunks
  pages : dec.pagesRead + (rs.map HiberRecord.pageCount).sum = dec.declaredPages
  pages_lt : dec.declaredPages < 2 ^ 64
  crc : crc.toNat = dec.declaredCrc

/-- A call delivers the record. -/
structure Gives (r : HiberRecord) (read : ChunkRead) : Prop where
  rc : read.rc = .ok
  extent : read.extent = some (r.startPfn, r.pageCount)
  pages : ByteMem.bytes read.dst 0 (r.pageCount * hiberPageSize) = r.pages

theorem Decodes.run {crc : UInt32} {nextPfn : ℕ} {bufs : List (ByteMem × ℕ)}
    (h : Decodes lz4 dec rs crc nextPfn)
    (hbufs : List.Forall₂ (fun r buf => r.pageCount * hiberPageSize ≤ buf.2) rs bufs) :
    ∃ dec' reads, Refine.run (readStep lz4) dec bufs = some (dec', reads) ∧
      List.Forall₂ Gives rs reads ∧ (hibernateImageDecodeFinish dec').1 = .ok := by
  induction hbufs generalizing dec with
  | nil =>
    refine ⟨dec, [], rfl, .nil, ?_⟩
    have hmark : dec.mark = ⟨dec.imgLen, crc, nextPfn⟩ := h.laid
    have hcursor : dec.cursor = dec.imgLen := congrArg Mark.cursor hmark
    have hcrc : dec.payloadCrc = crc := congrArg Mark.crc hmark
    have hchunks : dec.chunksRead = dec.declaredChunks := h.chunks
    have hpages : dec.pagesRead = dec.declaredPages := h.pages
    unfold hibernateImageDecodeFinish
    rw [if_neg (by simp [h.state]), if_neg (by simp [hchunks, hpages]),
      if_neg (by simp [hcursor]), if_neg (by rw [hcrc, h.crc]; simp)]
  | @cons r buf rs bufs hroom _ ih =>
    have hat : At lz4 dec.img dec.mark r := h.laid.1
    have hrest := h.laid.2
    have hchunks : dec.chunksRead + (rs.length + 1) = dec.declaredChunks := h.chunks
    have hpages : dec.pagesRead + (r.pageCount + (rs.map HiberRecord.pageCount).sum) =
        dec.declaredPages := h.pages
    have hlt := h.pages_lt
    obtain ⟨dst', hread, hgives⟩ := @At.readChunk _ _ _ buf.1 _ hat h.state (by omega)
      hrest.cursor_le hroom
    have hnext : Decodes lz4 (dec.after r.desc) rs crc nextPfn := by
      refine ⟨h.state, hrest, ?_, ?_, h.pages_lt, h.crc⟩
      · change dec.chunksRead + 1 + rs.length = dec.declaredChunks
        omega
      · change (dec.pagesRead + r.pageCount) % 2 ^ 64 + _ = dec.declaredPages
        rw [Nat.mod_eq_of_lt (by omega)]
        omega
    obtain ⟨dec', reads, hrun, hall, hfinish⟩ := ih hnext
    refine ⟨dec', ⟨.ok, dec.after r.desc, dst', some (r.startPfn, r.pageCount)⟩ :: reads, ?_,
      .cons ⟨rfl, rfl, hgives⟩ hall, hfinish⟩
    simp [Refine.run, readStep, hread, hrun]

theorem finalize_ok {imageBytes : ℕ}
    (h : hibernateImageFinalize enc ident = (.ok, enc', some imageBytes)) :
    enc'.out = finalized enc ident ∧ imageBytes = enc.cursor ∧
      hiberResumeTypeKnown ident.resumeType.toNat = true ∧ ident.cpuCountPresent ≠ 0 := by
  unfold hibernateImageFinalize at h
  split_ifs at h with hstate htype hcpu
  all_goals cases h
  exact ⟨rfl, rfl, htype, hcpu⟩

theorem Encodes.decodeBegin (h : Encodes lz4 enc rs)
    (htype : hiberResumeTypeKnown ident.resumeType.toNat = true)
    (hcpu : ident.cpuCountPresent ≠ 0) {imgLen : ℕ} (hlen : enc.cursor ≤ imgLen) :
    ∃ dec, hibernateImageDecodeBegin (finalized enc ident) true imgLen = some (.ok, dec) ∧
      Decodes lz4 dec rs enc.payloadCrc enc.nextPfn := by
  obtain ⟨hcursor, hpages⟩ := h.fits
  have hf := @finalized_fields _ ident hcursor hpages h.chunkCount_lt
  have hge : hiberHeaderBytes ≤ enc.cursor := h.laid.cursor_le
  have hview : (fun i => finalized enc ident (0 + i)) = finalized enc ident := by
    funext i
    rw [Nat.zero_add]
  have hbegin : hibernateImageDecodeBegin (finalized enc ident) true imgLen =
      some (.ok, { Decoder.zero (finalized enc ident) with
        imgLen := enc.cursor
        cursor := hiberHeaderBytes
        declaredPages := enc.pageCount
        declaredChunks := enc.chunkCount
        declaredCrc := enc.payloadCrc.toNat
        started := true }) := by
    unfold hibernateImageDecodeBegin hibernateImageHeaderValidate
    rw [if_neg (by simp), if_neg (by omega), view_eq (by omega), map_some, map_some,
      hview, h.headerCheck htype hcpu hlen]
    simp [hf.imageBytes, hf.pageCount, hf.chunkCount, hf.payloadCrc]
  refine ⟨_, hbegin, ⟨rfl, rfl⟩, ?_, ?_, ?_, hpages, rfl⟩
  · refine h.laid.agree fun x hx _ => finalized_of_untouched (.inr ?_)
    have hle : 4096 ≤ x := hx
    omega
  · exact (Nat.zero_add _).trans h.chunkCount.symm
  · exact (Nat.zero_add _).trans h.pageCount.symm

theorem delivers_of_holds {reqs : List AppendRequest} (h : List.Forall₂ Holds reqs rs) :
    (∀ bufs : List (ByteMem × ℕ),
      List.Forall₂ (fun req buf => req.pageCount * hiberPageSize ≤ buf.2) reqs bufs →
        List.Forall₂ (fun r buf => r.pageCount * hiberPageSize ≤ buf.2) rs bufs) ∧
      ∀ reads, List.Forall₂ Gives rs reads → List.Forall₂ Delivers reqs reads := by
  induction h with
  | nil =>
    refine ⟨fun bufs hbufs => ?_, fun reads hreads => ?_⟩
    · cases hbufs
      exact .nil
    · cases hreads
      exact .nil
  | cons hr _ ih =>
    refine ⟨fun bufs hbufs => ?_, fun reads hreads => ?_⟩
    · cases hbufs with
      | cons hroom hrest => exact .cons (by rwa [hr.pageCount]) (ih.1 _ hrest)
    · cases hreads with
      | cons hgives hrest =>
        refine .cons ⟨hgives.rc, ?_, ?_⟩ (ih.2 _ hrest)
        · rw [hgives.extent, hr.startPfn, hr.pageCount]
        · rw [← hr.pageCount, hgives.pages, hr.pages]

theorem roundTrips (hlaw : lz4.Lawful) : RoundTrips lz4 := by
  intro out aligned outCap reqs ident enc₀ enc enc' rcs imageBytes imgLen hbegin hrun hfinal hlen
  obtain ⟨rfl, hstart, -⟩ : _ ∧ Encodes lz4 _ _ ∧ _ := begin_ok hbegin
  obtain ⟨rs, henc, hholds⟩ := hstart.run hlaw hrun
  obtain ⟨hout, rfl, htype, hcpu⟩ := finalize_ok hfinal
  rw [hout]
  obtain ⟨dec, hdec, hdecodes⟩ := henc.decodeBegin htype hcpu hlen
  refine ⟨dec, hdec, fun bufs hbufs => ?_⟩
  obtain ⟨hrooms, hdelivers⟩ := delivers_of_holds hholds
  obtain ⟨dec', reads, hreads, hgives, hfinish⟩ := hdecodes.run (hrooms bufs hbufs)
  exact ⟨dec', reads, hreads, hdelivers reads hgives, hfinish⟩

end Decoding

/-! ### Decoding anything -/

section Hostile

variable {dec dec' : Decoder} {bufs : List (ByteMem × ℕ)} {reads : List ChunkRead}

theorem extentsOf_concat {read : ChunkRead} :
    extentsOf (reads ++ [read]) = extentsOf reads ++ read.extent.toList := by
  rw [extentsOf, filterMap_append]
  cases h : read.extent with
  | none => simp [extentsOf, h]
  | some e => simp [extentsOf, h]

/-- The extents delivered so far: in order, good, and as many pages as were counted. -/
structure Delivered (dec : Decoder) (extents : List (ℕ × ℕ)) : Prop where
  ordered : extents.Pairwise fun d e => d.1 + d.2 ≤ e.1
  below : ∀ e ∈ extents, e.1 + e.2 ≤ dec.nextPfn
  good : ∀ e ∈ extents, 0 < e.2 ∧ e.1 + (e.2 - 1) ≤ hiberMaxPfn
  chunks : dec.chunksRead = extents.length
  chunks_le : dec.chunksRead ≤ dec.declaredChunks
  chunks_lt : dec.declaredChunks < 2 ^ 32
  short : (extents.map Prod.snd).sum ≤ extents.length * hiberChunkPages
  pages : dec.pagesRead = (extents.map Prod.snd).sum

theorem Delivered.read {lz4 : Lz4} {extents : List (ℕ × ℕ)} (h : Delivered dec extents)
    {buf : ByteMem × ℕ} {read : ChunkRead} (hread : readStep lz4 dec buf = some (dec', read)) :
    Delivered dec' (extents ++ read.extent.toList) ∧ dec'.declaredPages = dec.declaredPages := by
  obtain ⟨read', hread', heq⟩ := Option.map_eq_some_iff.mp hread
  cases heq
  rcases readChunk_cases lz4 dec buf.1 buf.2 with ⟨rc, dst', -, hrun, -⟩ |
    ⟨desc, -, -, hchunks, -, hcheck, -, hrun⟩
  · rw [hrun] at hread'
    cases hread'
    exact ⟨by simpa using h, rfl⟩
  · rw [hrun] at hread'
    cases hread'
    obtain ⟨hgood, -⟩ := descCheck_ok hcheck
    have hordered := hgood.ordered
    have hshort := h.short
    have hlt := h.chunks_lt
    have hlen := h.chunks
    have hsum : ((extents ++ [(desc.startPfn, desc.pageCount)]).map Prod.snd).sum =
        (extents.map Prod.snd).sum + desc.pageCount := by simp
    have hlength : (extents ++ [(desc.startPfn, desc.pageCount)]).length = extents.length + 1 := by
      simp
    have hle : desc.pageCount ≤ 64 := hgood.le
    simp only [hiberChunkPages] at hshort
    refine ⟨⟨?_, ?_, ?_, ?_, hchunks, hlt, ?_, ?_⟩, rfl⟩
    · refine pairwise_append.mpr ⟨h.ordered, pairwise_singleton _ _, fun d hd e he => ?_⟩
      rw [eq_of_mem_singleton he]
      exact (h.below d hd).trans hordered
    · intro e he
      change e.1 + e.2 ≤ desc.startPfn + desc.pageCount
      rcases mem_append.mp he with he | he
      · exact ((h.below e he).trans hordered).trans (Nat.le_add_right _ _)
      · rw [eq_of_mem_singleton he]
    · intro e he
      rcases mem_append.mp he with he | he
      · exact h.good e he
      · rw [eq_of_mem_singleton he]
        exact ⟨hgood.pos, hgood.bounded⟩
    · rw [toList_some, hlength, ← hlen]
      rfl
    · rw [toList_some, hsum, hlength]
      simp only [hiberChunkPages]
      omega
    · rw [toList_some, hsum, ← h.pages]
      rw [← h.pages] at hshort
      exact Nat.mod_eq_of_lt (by omega)

theorem decodeBegin_ok {img : ByteMem} {aligned : Bool} {imgLen : ℕ}
    (h : hibernateImageDecodeBegin img aligned imgLen = some (.ok, dec)) :
    Delivered dec [] ∧ dec.declaredPages = readLE img 24 8 := by
  unfold hibernateImageDecodeBegin hibernateImageHeaderValidate at h
  by_cases haligned : ¬ aligned
  · simp [haligned] at h
  by_cases hlen : imgLen < hiberHeaderBytes
  · simp [haligned, hlen] at h
  rw [if_neg haligned, if_neg hlen, view_eq (by omega), map_some, map_some] at h
  dsimp only at h
  split_ifs at h with hcheck
  · have hrc : _ = HiberRc.ok := (Prod.mk.inj (some.inj h)).1
    exact absurd hrc hcheck
  · cases h
    refine ⟨⟨.nil, nofun, nofun, rfl, Nat.zero_le _, ?_, Nat.le_refl _, rfl⟩, ?_⟩
    · exact readLE_lt _ 32 4
    · exact readLE_view 24 8

theorem decodeSound (lz4 : Lz4) : DecodeSound lz4 := by
  intro img aligned imgLen dec dec' bufs reads hbegin hrun hfinish
  obtain ⟨hstart, hpages⟩ := decodeBegin_ok hbegin
  have hinv := Refine.run_invariant
    (fun d rs => Delivered d (extentsOf rs) ∧ d.declaredPages = readLE img 24 8)
    (fun d rs buf d' read hd _ hstep => by
      obtain ⟨hnext, heq⟩ := hd.1.read hstep
      refine ⟨?_, heq.trans hd.2⟩
      rwa [extentsOf_concat])
    (show Delivered dec (extentsOf []) ∧ _ from ⟨hstart, hpages⟩)
    (Refine.along_true _ dec bufs) hrun
  obtain ⟨hdelivered, hdeclared⟩ := hinv
  refine ⟨hdelivered.ordered, hdelivered.good, ?_⟩
  unfold hibernateImageDecodeFinish at hfinish
  split_ifs at hfinish with hstate hcount
  rw [← hdeclared, ← not_not.mp (not_or.mp hcount).2, hdelivered.pages]
  rfl

theorem of_ite_ok {c : Prop} [Decidable c] {e r : HiberRc} (he : e ≠ .ok)
    (h : (if c then e else r) = .ok) : ¬ c ∧ r = .ok := by
  by_cases hc : c
  · rw [if_pos hc] at h
    exact absurd h he
  · rw [if_neg hc] at h
    exact ⟨hc, h⟩

theorem headerCheck_ok {h : ByteMem} {imgLen : ℕ} (hok : headerCheck h imgLen = .ok) :
    readLE h 16 8 ≤ imgLen := by
  unfold headerCheck at hok
  dsimp only at hok
  -- the checks before the one on the length, one after the other
  iterate 9 replace hok := (of_ite_ok (by decide) hok).2
  exact Nat.le_of_not_lt (of_ite_ok (by decide) hok).1

theorem confined (hlaw : lz4.Lawful) : Confined lz4 := by
  refine ⟨fun img aligned imgLen => ?_, fun dec buf => ?_⟩
  · unfold hibernateImageDecodeBegin hibernateImageHeaderValidate
    by_cases haligned : ¬ aligned
    · exact ⟨.errArg, .zero img, by rw [if_pos haligned]; rfl, Nat.zero_le _⟩
    by_cases hlen : imgLen < hiberHeaderBytes
    · exact ⟨.errTruncated, .zero img, by rw [if_neg haligned, if_pos hlen]; rfl, Nat.zero_le _⟩
    rw [if_neg haligned, if_neg hlen, view_eq (by omega), map_some, map_some]
    by_cases hcheck : headerCheck (fun i => img (0 + i)) imgLen = .ok
    · have himage := headerCheck_ok hcheck
      dsimp only
      rw [if_neg (not_not.mpr hcheck)]
      refine ⟨_, _, rfl, ?_⟩
      exact himage
    · dsimp only
      rw [if_pos hcheck]
      exact ⟨_, _, rfl, Nat.zero_le _⟩
  · have hwrites : ∀ {dst' : ByteMem},
        dst' = (unpack lz4 (readDesc dec.img dec.cursor) (ByteMem.bytes dec.img
          (dec.cursor + descBytes) (readDesc dec.img dec.cursor).storedLen) buf.1).1 →
        descCheck dec (readDesc dec.img dec.cursor) (dec.imgLen - dec.cursor) buf.2 = .ok →
        SameOutside 0 (readLE dec.img (dec.cursor + 12) 4) buf.1 dst' ∧
          SameOutside 0 buf.2 buf.1 dst' := by
      rintro dst' rfl hcheck
      have hsame := @unpack_sameOutside _ _ buf.1 _ hlaw _ _ _ hcheck
        (length_bytes dec.img (dec.cursor + descBytes) _)
      exact ⟨hsame, hsame.mono (Nat.le_refl _) (descCheck_ok hcheck).2.2.2⟩
    rcases readChunk_cases lz4 dec buf.1 buf.2 with ⟨rc, dst', -, hrun, hdst⟩ |
      ⟨desc, rfl, -, -, -, hcheck, -, hrun⟩
    · refine ⟨_, by rw [readStep, hrun]; rfl, rfl, rfl, ?_⟩
      rcases hdst with rfl | ⟨hdst, hcheck⟩
      · exact ⟨SameOutside.refl _ _ _, SameOutside.refl _ _ _⟩
      · exact hwrites hdst hcheck
    · exact ⟨_, by rw [readStep, hrun]; rfl, rfl, rfl, hwrites rfl hcheck⟩

end Hostile

/-- What the codec promises, with an LZ4 that does what it is documented to do. -/
theorem hibernate_image_codec (hlaw : lz4.Lawful) :
    RoundTrips lz4 ∧ NeverShort lz4 ∧ DecodeSound lz4 ∧ Confined lz4 ∧ FailuresKeep lz4 :=
  ⟨roundTrips hlaw, neverShort hlaw, decodeSound lz4, confined hlaw, failuresKeep lz4⟩

/-- An LZ4 that knows one block. -/
def onlyLz4 (page packed : List UInt8) : Lz4 where
  compress src cap :=
    if src = page ∧ packed.length ≤ cap then (packed.length, packed) else (-3, [])
  decompress src cap :=
    if src = packed ∧ page.length ≤ cap then (page.length, page) else (-3, [])

theorem onlyLz4_lawful (page packed : List UInt8) : (onlyLz4 page packed).Lawful where
  compress_le src cap := by
    simp only [onlyLz4]
    split
    · exact ⟨Int.le_refl _, (‹_ ∧ _› : _ ∧ _).2⟩
    · exact ⟨by decide, Nat.zero_le _⟩
  decompress_le src cap := by
    simp only [onlyLz4]
    split
    · exact ⟨Int.le_refl _, (‹_ ∧ _› : _ ∧ _).2⟩
    · exact ⟨by decide, Nat.zero_le _⟩
  round_trip src cap := by
    simp only [onlyLz4]
    split
    · rename_i hsrc
      intro _
      rw [Int.toNat_natCast, take_length, hsrc.1, if_pos ⟨rfl, Nat.le_refl _⟩]
    · exact fun hneg => absurd hneg (by decide)

/-- LZ4 on a page of zeros: a literal, a match at distance 1, and the last five literals. -/
def zeroLz4 : Lz4 :=
  onlyLz4 (List.replicate 4096 0)
    ([0x1F, 0x00, 0x01, 0x00] ++ List.replicate 15 0xFF ++ [0xF6, 0x50, 0, 0, 0, 0, 0])

/-- A chunk of one page in a buffer of four. -/
theorem hibernate_image_codec_zeros :
    (RoundTrips zeroLz4 ∧ NeverShort zeroLz4 ∧ DecodeSound zeroLz4 ∧ Confined zeroLz4 ∧
        FailuresKeep zeroLz4) ∧
      ∃ enc₀, hibernateImageBegin (fun _ => 0) true 16384 = (.ok, enc₀) ∧
        (appendStep zeroLz4 enc₀ ⟨5, fun _ => 0, 1⟩).2 = .ok := by
  refine ⟨hibernate_image_codec (onlyLz4_lawful _ _), _, rfl, ?_⟩
  have hextent : GoodExtent 0 5 1 := ⟨by decide, by decide, by decide, by decide⟩
  rw [appendStep, appendChunk_ok ⟨rfl, rfl, hextent, by decide⟩ (by unfold Room; decide)]

/-- Chunks of 64 pages, one behind the other. -/
def manyChunks (n : ℕ) : List AppendRequest :=
  (List.range n).map fun i => ⟨hiberChunkPages * i, fun _ => 0, hiberChunkPages⟩

theorem manyChunks_pages (n : ℕ) :
    ((manyChunks n).map AppendRequest.pageCount).sum = n * hiberChunkPages := by
  rw [manyChunks, map_map]
  exact (congrArg List.sum (map_const' ..)).trans (by simp [hiberChunkPages])

/-- The bound of more pages than an image can have is 0, and a buffer of that size, or of the
4096 bytes that `hibernate_image_begin` asks for, has no room for the first chunk. -/
theorem encodedBound_zero_nospace :
    ∃ (reqs : List AppendRequest) (enc₀ : Encoder),
      hibernateImageBegin (fun _ => 0) true 4096 = (.ok, enc₀) ∧
      hibernateImageEncodedBound (reqs.map AppendRequest.pageCount).sum ≤ 4096 ∧
      .errNospace ∈ (Refine.runSpec (appendStep zeroLz4) enc₀ reqs).2 := by
  obtain ⟨n, hn⟩ : ∃ n : ℕ, n = 67108863 := ⟨_, rfl⟩
  refine ⟨manyChunks (n + 1), _, rfl, ?_, ?_⟩
  · rw [manyChunks_pages, hibernateImageEncodedBound, if_pos]
    · exact Nat.zero_le _
    · simp only [hiberChunkPages]
      omega
  · rw [manyChunks, range_succ_eq_map, map_cons, Refine.runSpec]
    refine mem_cons.mpr (.inl ?_)
    rfl

end ImpossibleOs.Pm
