import ImpossibleOs.Lib.ByteMem

/-!
The codec of hibernation images (`src/kernel/pm/hibernate_image.c`).

An image is a header of 4096 bytes and a sequence of records, each a descriptor
of 24 bytes and the pages of one extent, compressed by LZ4 or verbatim. LZ4 is a
parameter. The buffers are memories of their own, addressed from 0.
-/

namespace ImpossibleOs.Pm

open ByteMem

def crc32cTab : Array UInt32 :=
  #[
    0x00000000, 0xF26B8303, 0xE13B70F7, 0x1350F3F4, 0xC79A971F, 0x35F1141C, 0x26A1E7E8, 0xD4CA64EB,
    0x8AD958CF, 0x78B2DBCC, 0x6BE22838, 0x9989AB3B, 0x4D43CFD0, 0xBF284CD3, 0xAC78BF27, 0x5E133C24,
    0x105EC76F, 0xE235446C, 0xF165B798, 0x030E349B, 0xD7C45070, 0x25AFD373, 0x36FF2087, 0xC494A384,
    0x9A879FA0, 0x68EC1CA3, 0x7BBCEF57, 0x89D76C54, 0x5D1D08BF, 0xAF768BBC, 0xBC267848, 0x4E4DFB4B,
    0x20BD8EDE, 0xD2D60DDD, 0xC186FE29, 0x33ED7D2A, 0xE72719C1, 0x154C9AC2, 0x061C6936, 0xF477EA35,
    0xAA64D611, 0x580F5512, 0x4B5FA6E6, 0xB93425E5, 0x6DFE410E, 0x9F95C20D, 0x8CC531F9, 0x7EAEB2FA,
    0x30E349B1, 0xC288CAB2, 0xD1D83946, 0x23B3BA45, 0xF779DEAE, 0x05125DAD, 0x1642AE59, 0xE4292D5A,
    0xBA3A117E, 0x4851927D, 0x5B016189, 0xA96AE28A, 0x7DA08661, 0x8FCB0562, 0x9C9BF696, 0x6EF07595,
    0x417B1DBC, 0xB3109EBF, 0xA0406D4B, 0x522BEE48, 0x86E18AA3, 0x748A09A0, 0x67DAFA54, 0x95B17957,
    0xCBA24573, 0x39C9C670, 0x2A993584, 0xD8F2B687, 0x0C38D26C, 0xFE53516F, 0xED03A29B, 0x1F682198,
    0x5125DAD3, 0xA34E59D0, 0xB01EAA24, 0x42752927, 0x96BF4DCC, 0x64D4CECF, 0x77843D3B, 0x85EFBE38,
    0xDBFC821C, 0x2997011F, 0x3AC7F2EB, 0xC8AC71E8, 0x1C661503, 0xEE0D9600, 0xFD5D65F4, 0x0F36E6F7,
    0x61C69362, 0x93AD1061, 0x80FDE395, 0x72966096, 0xA65C047D, 0x5437877E, 0x4767748A, 0xB50CF789,
    0xEB1FCBAD, 0x197448AE, 0x0A24BB5A, 0xF84F3859, 0x2C855CB2, 0xDEEEDFB1, 0xCDBE2C45, 0x3FD5AF46,
    0x7198540D, 0x83F3D70E, 0x90A324FA, 0x62C8A7F9, 0xB602C312, 0x44694011, 0x5739B3E5, 0xA55230E6,
    0xFB410CC2, 0x092A8FC1, 0x1A7A7C35, 0xE811FF36, 0x3CDB9BDD, 0xCEB018DE, 0xDDE0EB2A, 0x2F8B6829,
    0x82F63B78, 0x709DB87B, 0x63CD4B8F, 0x91A6C88C, 0x456CAC67, 0xB7072F64, 0xA457DC90, 0x563C5F93,
    0x082F63B7, 0xFA44E0B4, 0xE9141340, 0x1B7F9043, 0xCFB5F4A8, 0x3DDE77AB, 0x2E8E845F, 0xDCE5075C,
    0x92A8FC17, 0x60C37F14, 0x73938CE0, 0x81F80FE3, 0x55326B08, 0xA759E80B, 0xB4091BFF, 0x466298FC,
    0x1871A4D8, 0xEA1A27DB, 0xF94AD42F, 0x0B21572C, 0xDFEB33C7, 0x2D80B0C4, 0x3ED04330, 0xCCBBC033,
    0xA24BB5A6, 0x502036A5, 0x4370C551, 0xB11B4652, 0x65D122B9, 0x97BAA1BA, 0x84EA524E, 0x7681D14D,
    0x2892ED69, 0xDAF96E6A, 0xC9A99D9E, 0x3BC21E9D, 0xEF087A76, 0x1D63F975, 0x0E330A81, 0xFC588982,
    0xB21572C9, 0x407EF1CA, 0x532E023E, 0xA145813D, 0x758FE5D6, 0x87E466D5, 0x94B49521, 0x66DF1622,
    0x38CC2A06, 0xCAA7A905, 0xD9F75AF1, 0x2B9CD9F2, 0xFF56BD19, 0x0D3D3E1A, 0x1E6DCDEE, 0xEC064EED,
    0xC38D26C4, 0x31E6A5C7, 0x22B65633, 0xD0DDD530, 0x0417B1DB, 0xF67C32D8, 0xE52CC12C, 0x1747422F,
    0x49547E0B, 0xBB3FFD08, 0xA86F0EFC, 0x5A048DFF, 0x8ECEE914, 0x7CA56A17, 0x6FF599E3, 0x9D9E1AE0,
    0xD3D3E1AB, 0x21B862A8, 0x32E8915C, 0xC083125F, 0x144976B4, 0xE622F5B7, 0xF5720643, 0x07198540,
    0x590AB964, 0xAB613A67, 0xB831C993, 0x4A5A4A90, 0x9E902E7B, 0x6CFBAD78, 0x7FAB5E8C, 0x8DC0DD8F,
    0xE330A81A, 0x115B2B19, 0x020BD8ED, 0xF0605BEE, 0x24AA3F05, 0xD6C1BC06, 0xC5914FF2, 0x37FACCF1,
    0x69E9F0D5, 0x9B8273D6, 0x88D28022, 0x7AB90321, 0xAE7367CA, 0x5C18E4C9, 0x4F48173D, 0xBD23943E,
    0xF36E6F75, 0x0105EC76, 0x12551F82, 0xE03E9C81, 0x34F4F86A, 0xC69F7B69, 0xD5CF889D, 0x27A40B9E,
    0x79B737BA, 0x8BDCB4B9, 0x988C474D, 0x6AE7C44E, 0xBE2DA0A5, 0x4C4623A6, 0x5F16D052, 0xAD7D5351
  ]

def crc32cSw (c : UInt32) (data : List UInt8) : UInt32 :=
  data.foldl (fun c b => (c >>> 8) ^^^ crc32cTab.getD ((c ^^^ b.toUInt32) &&& 0xFF).toNat 0) c

def kcrc32cCont (crc : UInt32) (data : List UInt8) : UInt32 :=
  crc32cSw (crc ^^^ 0xFFFFFFFF) data ^^^ 0xFFFFFFFF

def kcrc32c (data : List UInt8) : UInt32 := kcrc32cCont 0 data

/-- `lz4_compress` and `lz4_decompress`: from the source and the capacity, what is returned
and the bytes that have been written to the destination from its start on. -/
structure Lz4 where
  compress : List UInt8 → ℕ → ℤ × List UInt8
  decompress : List UInt8 → ℕ → ℤ × List UInt8

/-! ### Constants and records -/

inductive HiberRc
  | ok
  | errArg
  | errMagic
  | errFormat
  | errHeaderCrc
  | errBounds
  | errOrder
  | errFlags
  | errLz4
  | errPayloadCrc
  | errTruncated
  | errTrailing
  | errCount
  | errNospace
  | errState
  | errReserved
  deriving DecidableEq, Repr

def hiberMagic : ℕ := 0x52424948534F5049
def hiberFormatVersion : ℕ := 2
def hiberHeaderBytes : ℕ := 4096
def hiberPageSize : ℕ := 4096
def hiberChunkPages : ℕ := 64

/-- `HIBER_MAX_PFN`, the last frame whose address fits 64 bits. -/
def hiberMaxPfn : ℕ := 0xFFFFFFFFFFFFFFFF / hiberPageSize

/-- `sizeof(hiber_chunk_desc_t)` -/
def descBytes : ℕ := 24

def hiberChunkFlagStored : ℕ := 1

def hiberResumeTypeKnown (t : ℕ) : Bool := t = 1 || t = 2 || t = 3

def hiberCipherKnown (c : ℕ) : Bool := c = 0 || c = 1

/-- `hiber_chunk_desc_t` -/
structure ChunkDesc where
  startPfn : ℕ
  pageCount : ℕ
  uncompressedLen : ℕ
  storedLen : ℕ
  flags : ℕ

/-- The pages of the record are verbatim. -/
def ChunkDesc.isStored (desc : ChunkDesc) : Bool := desc.flags &&& hiberChunkFlagStored ≠ 0

def readDesc (m : ByteMem) (p : ℕ) : ChunkDesc :=
  ⟨readLE m p 8, readLE m (p + 8) 4, readLE m (p + 12) 4, readLE m (p + 16) 4,
    readLE m (p + 20) 4⟩

def writeDesc (m : ByteMem) (p : ℕ) (d : ChunkDesc) : ByteMem :=
  let m := writeLE m p 8 d.startPfn
  let m := writeLE m (p + 8) 4 d.pageCount
  let m := writeLE m (p + 12) 4 d.uncompressedLen
  let m := writeLE m (p + 16) 4 d.storedLen
  writeLE m (p + 20) 4 d.flags

/-- The fields of `hiber_ident_t` that `hibernate_image_finalize` writes. -/
structure HiberIdent where
  kernelId : List UInt8
  bootInfoVersion : UInt32
  resumeType : UInt32
  cpuCountPresent : UInt32
  rootVolumeId : UInt64
  resumeGeneration : UInt64
  totalRamPages : UInt64
  kernelId_length : kernelId.length = 32

/-- CRC-32C over the header with `header_crc32c` read as zero. -/
def hiberHeaderCrc (m : ByteMem) : UInt32 :=
  let crc := kcrc32c (bytes m 0 136)
  let crc := kcrc32cCont crc [0, 0, 0, 0]
  kcrc32cCont crc (bytes m 140 (hiberHeaderBytes - 136 - 4))

def hibernateImageEncodedBound (pageCount : ℕ) : ℕ :=
  if 0xFFFFFFFF < pageCount then 0
  else hiberHeaderBytes + pageCount * (descBytes + hiberPageSize)

/-! ### Encoder -/

structure Encoder where
  out : ByteMem
  outCap : ℕ
  cursor : ℕ
  pageCount : ℕ
  nextPfn : ℕ
  chunkCount : ℕ
  payloadCrc : UInt32
  started : Bool
  finalized : Bool

/-- The state that refuses every later call. -/
def Encoder.zero (out : ByteMem) : Encoder := ⟨out, 0, 0, 0, 0, 0, 0, false, false⟩

/-- `aligned` says whether the address of the buffer is a multiple of 8. -/
def hibernateImageBegin (out : ByteMem) (aligned : Bool) (outCap : ℕ) : HiberRc × Encoder :=
  if ¬ aligned then (.errArg, .zero out)
  else if outCap < hiberHeaderBytes then (.errNospace, .zero out)
  else
    (.ok, { Encoder.zero (zeroRange out 0 hiberHeaderBytes) with
      outCap := outCap
      cursor := hiberHeaderBytes
      started := true })

def hibernateImageAppendChunk (lz4 : Lz4) (enc : Encoder) (startPfn : ℕ) (pages : ByteMem)
    (pageCount : ℕ) : HiberRc × Encoder :=
  if ¬ enc.started ∨ enc.finalized then (.errState, enc)
  else if pageCount = 0 ∨ hiberChunkPages < pageCount then (.errArg, enc)
  else if startPfn < enc.nextPfn then (.errOrder, enc)
  else if hiberMaxPfn < startPfn ∨ hiberMaxPfn - startPfn < pageCount - 1 then (.errBounds, enc)
  else if enc.chunkCount = 0xFFFFFFFF then (.errCount, enc)
  else
    let uncompressedLen := pageCount * hiberPageSize
    if enc.outCap < enc.cursor ∨ enc.outCap - enc.cursor < descBytes then (.errNospace, enc)
    else if enc.outCap - enc.cursor - descBytes < uncompressedLen then (.errNospace, enc)
    else
      let data := bytes pages 0 uncompressedLen
      let r := lz4.compress data (uncompressedLen - 1)
      let out := storeBytes enc.out (enc.cursor + descBytes) r.2
      -- a compressor that declines may have written before it did
      let stored : ByteMem × ℕ × ℕ :=
        if 0 < r.1 then (out, r.1.toNat, 0)
        else
          (storeBytes out (enc.cursor + descBytes) data, uncompressedLen, hiberChunkFlagStored)
      let out := writeDesc stored.1 enc.cursor
        ⟨startPfn, pageCount, uncompressedLen, stored.2.1, stored.2.2⟩
      (.ok, { enc with
        out := out
        payloadCrc := kcrc32cCont enc.payloadCrc (bytes out enc.cursor (descBytes + stored.2.1))
        cursor := enc.cursor + (descBytes + stored.2.1)
        chunkCount := enc.chunkCount + 1
        pageCount := (enc.pageCount + pageCount) % 2 ^ 64
        nextPfn := startPfn + pageCount })

/-- The fields of the header but its own checksum, in the order of the code. -/
def writeHeader (enc : Encoder) (ident : HiberIdent) : ByteMem :=
  let m := writeLE enc.out 0 8 hiberMagic
  let m := writeLE m 8 4 hiberFormatVersion
  let m := writeLE m 12 4 hiberHeaderBytes
  let m := writeLE m 16 8 enc.cursor
  let m := writeLE m 24 8 enc.pageCount
  let m := writeLE m 32 4 enc.chunkCount
  let m := writeLE m 36 4 ident.resumeType.toNat
  let m := writeLE m 40 4 ident.bootInfoVersion.toNat
  let m := writeLE m 44 4 0
  let m := writeLE m 48 8 ident.rootVolumeId.toNat
  let m := writeLE m 56 8 ident.resumeGeneration.toNat
  let m := writeLE m 140 4 ident.cpuCountPresent.toNat
  let m := writeLE m 144 8 ident.totalRamPages.toNat
  let m := storeBytes m 64 ident.kernelId
  let m := writeLE m 96 4 0
  let m := writeLE m 100 4 0
  writeLE m 132 4 enc.payloadCrc.toNat

/-- The result, the encoder and `*image_bytes_out` when it is set. -/
def hibernateImageFinalize (enc : Encoder) (ident : HiberIdent) :
    HiberRc × Encoder × Option ℕ :=
  if ¬ enc.started ∨ enc.finalized then (.errState, enc, none)
  else if ¬ hiberResumeTypeKnown ident.resumeType.toNat then (.errArg, enc, none)
  else if ident.cpuCountPresent = 0 then (.errArg, enc, none)
  else
    let m := writeHeader enc ident
    let m := writeLE m 136 4 (hiberHeaderCrc m).toNat
    (.ok, { enc with out := m, finalized := true }, some enc.cursor)

/-! ### Decoder

A load that leaves the image is a fault, `none`. -/

/-- The `n` bytes at `p` of an image of `len` bytes, as a memory of their own. -/
def view (img : ByteMem) (len p n : ℕ) : Option ByteMem :=
  if p + n ≤ len then some fun i => img (p + i) else none

structure Decoder where
  img : ByteMem
  imgLen : ℕ
  cursor : ℕ
  pagesRead : ℕ
  nextPfn : ℕ
  declaredPages : ℕ
  declaredChunks : ℕ
  declaredCrc : ℕ
  chunksRead : ℕ
  payloadCrc : UInt32
  started : Bool
  finished : Bool

def Decoder.zero (img : ByteMem) : Decoder := ⟨img, 0, 0, 0, 0, 0, 0, 0, 0, 0, false, false⟩

/-- The checks on the header `h` of an image of which `imgLen` bytes are there. -/
def headerCheck (h : ByteMem) (imgLen : ℕ) : HiberRc :=
  let imageBytes := readLE h 16 8
  let pageCount := readLE h 24 8
  let chunkCount := readLE h 32 4
  if readLE h 0 8 ≠ hiberMagic then .errMagic
  else if readLE h 8 4 ≠ hiberFormatVersion ∨ readLE h 12 4 ≠ hiberHeaderBytes then .errFormat
  else if (hiberHeaderCrc h).toNat ≠ readLE h 136 4 then .errHeaderCrc
  else if (bytes h 152 3944).any (· ≠ 0) then .errReserved
  else if readLE h 44 4 ≠ 0 then .errFlags
  else if ¬ hiberResumeTypeKnown (readLE h 36 4) ∨ ¬ hiberCipherKnown (readLE h 96 4) then
    .errFormat
  else if readLE h 96 4 = 0 ∧ (readLE h 100 4 ≠ 0 ∨ (bytes h 104 12).any (· ≠ 0) ∨
      (bytes h 116 16).any (· ≠ 0)) then .errReserved
  else if readLE h 140 4 = 0 then .errFormat
  else if imageBytes < hiberHeaderBytes then .errBounds
  else if imgLen < imageBytes then .errTruncated
  else if chunkCount = 0 then
    if pageCount ≠ 0 ∨ imageBytes ≠ hiberHeaderBytes then .errCount else .ok
  else if pageCount < chunkCount ∨ chunkCount * hiberChunkPages < pageCount then .errCount
  else if imageBytes - hiberHeaderBytes < chunkCount * descBytes then .errTruncated
  else .ok

/-- The result and, when it is `ok`, the header. -/
def hibernateImageHeaderValidate (img : ByteMem) (aligned : Bool) (imgLen : ℕ) :
    Option (HiberRc × ByteMem) :=
  if ¬ aligned then some (.errArg, img)
  else if imgLen < hiberHeaderBytes then some (.errTruncated, img)
  else (view img imgLen 0 hiberHeaderBytes).map fun h => (headerCheck h imgLen, h)

def hibernateImageDecodeBegin (img : ByteMem) (aligned : Bool) (imgLen : ℕ) :
    Option (HiberRc × Decoder) :=
  (hibernateImageHeaderValidate img aligned imgLen).map fun r =>
    if r.1 ≠ .ok then (r.1, .zero img)
    else
      (.ok, { Decoder.zero img with
        imgLen := readLE r.2 16 8
        cursor := hiberHeaderBytes
        declaredPages := readLE r.2 24 8
        declaredChunks := readLE r.2 32 4
        declaredCrc := readLE r.2 132 4
        started := true })

/-- What a call of `hibernate_image_read_chunk` leaves: the result, the decoder, the memory at
`dst`, and the extent when one is delivered. -/
structure ChunkRead where
  rc : HiberRc
  dec : Decoder
  dst : ByteMem
  extent : Option (ℕ × ℕ)

/-- The checks on a descriptor, with `remaining` bytes of the image from it on. -/
def descCheck (dec : Decoder) (desc : ChunkDesc) (remaining dstCap : ℕ) : HiberRc :=
  if desc.pageCount = 0 ∨ hiberChunkPages < desc.pageCount then .errBounds
  else if desc.uncompressedLen ≠ desc.pageCount * hiberPageSize then .errBounds
  else if desc.flags &&& (0xFFFFFFFF - hiberChunkFlagStored) ≠ 0 then .errFlags
  else if desc.startPfn < dec.nextPfn then .errOrder
  else if hiberMaxPfn < desc.startPfn ∨ hiberMaxPfn - desc.startPfn < desc.pageCount - 1 then
    .errBounds
  else if desc.isStored ∧ desc.storedLen ≠ desc.uncompressedLen then .errBounds
  else if ¬ desc.isStored ∧
      (desc.storedLen = 0 ∨ desc.uncompressedLen ≤ desc.storedLen) then .errBounds
  else if remaining - descBytes < desc.storedLen then .errTruncated
  else if dstCap < desc.uncompressedLen then .errNospace
  else .ok

/-- The pages of a record: what is written to `dst`, and whether it is what the record
declares. -/
def unpack (lz4 : Lz4) (desc : ChunkDesc) (payload : List UInt8) (dst : ByteMem) :
    ByteMem × Bool :=
  if desc.isStored then (storeBytes dst 0 payload, true)
  else
    let r := lz4.decompress payload desc.uncompressedLen
    (storeBytes dst 0 r.2, 0 ≤ r.1 && r.1.toNat = desc.uncompressedLen)

def hibernateImageReadChunk (lz4 : Lz4) (dec : Decoder) (dst : ByteMem) (dstCap : ℕ) :
    Option ChunkRead :=
  if ¬ dec.started ∨ dec.finished then some ⟨.errState, dec, dst, none⟩
  else if dec.declaredChunks ≤ dec.chunksRead then some ⟨.errState, dec, dst, none⟩
  else
    let remaining := dec.imgLen - dec.cursor
    if remaining < descBytes then some ⟨.errTruncated, dec, dst, none⟩
    else
      (view dec.img dec.imgLen dec.cursor descBytes).bind fun rec =>
        let desc := readDesc rec 0
        if descCheck dec desc remaining dstCap ≠ .ok then
          some ⟨descCheck dec desc remaining dstCap, dec, dst, none⟩
        else
          (view dec.img dec.imgLen dec.cursor (descBytes + desc.storedLen)).map fun rec =>
            let r := unpack lz4 desc (bytes rec descBytes desc.storedLen) dst
            if ¬ r.2 then ⟨.errLz4, dec, r.1, none⟩
            else
              ⟨.ok, { dec with
                payloadCrc := kcrc32cCont dec.payloadCrc (bytes rec 0 (descBytes + desc.storedLen))
                cursor := dec.cursor + (descBytes + desc.storedLen)
                chunksRead := dec.chunksRead + 1
                pagesRead := (dec.pagesRead + desc.pageCount) % 2 ^ 64
                nextPfn := desc.startPfn + desc.pageCount },
                r.1, some (desc.startPfn, desc.pageCount)⟩

def hibernateImageDecodeFinish (dec : Decoder) : HiberRc × Decoder :=
  if ¬ dec.started ∨ dec.finished then (.errState, dec)
  else if dec.chunksRead ≠ dec.declaredChunks ∨ dec.pagesRead ≠ dec.declaredPages then
    (.errCount, dec)
  else if dec.cursor ≠ dec.imgLen then (.errTrailing, dec)
  else if dec.payloadCrc.toNat ≠ dec.declaredCrc then (.errPayloadCrc, dec)
  else (.ok, { dec with finished := true })

end ImpossibleOs.Pm
