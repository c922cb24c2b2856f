import ImpossibleOs.Lib.Lz77
import Mathlib.Data.Nat.Bitwise
import Mathlib.Data.UInt

/-!
LZNT1 compression (`src/kernel/fs/ntfs/ntfs_compress.c`).

A stream is a sequence of blocks of at most 4096 bytes of plain data, each with
a header of two bytes. In a compressed block a flag byte goes before every eight
tokens; how the sixteen bits of a reference are split depends on how much of the
block has been put out. Buffers are lists here: what has been written of one,
and what is left to be read of one.
-/

namespace ImpossibleOs.Ntfs.Lznt1

def blockSize : ℕ := 4096

/-- The loop of `displacement_bits`, which stops at 12 bits. -/
def displacementFrom (position : ℕ) : ℕ → ℕ → ℕ
  | 0, _ => 0
  | n + 1, threshold =>
    if threshold < position then displacementFrom position n (threshold <<< 1) + 1 else 0

def displacementBits (position : ℕ) : ℕ := 4 + displacementFrom position 8 0x10

/-! ### Decompressor -/

/-- Copy from earlier in the output, up to the end of the block. -/
def copyRef (dst : List UInt8) (copyPos : ℕ) : ℕ → List UInt8
  | 0 => dst
  | n + 1 =>
    if dst.length < blockSize then copyRef (dst ++ [dst.getD copyPos 0]) (copyPos + 1) n
    else dst

/-- The tokens of a group, `left` of them to come. The block ends here with an error: with what
there is when a reference is cut off, without when it goes back too far. -/
def decompressGroup (flags : ℕ) : ℕ → List UInt8 → List UInt8 →
    Except (Option (List UInt8)) (List UInt8 × List UInt8)
  | 0, src, dst => .ok (src, dst)
  | _ + 1, [], dst => .ok ([], dst)
  | left + 1, b :: src, dst =>
    if blockSize ≤ dst.length then .ok (b :: src, dst)
    else if flags.testBit (7 - left) = false then decompressGroup flags left src (dst ++ [b])
    else
      match src with
      | [] => .error (some dst)
      | hi :: rest =>
        let ref := b.toNat ||| hi.toNat <<< 8
        let lenBits := 16 - displacementBits dst.length
        let displacement := ref >>> lenBits + 1
        let length := (ref &&& (1 <<< lenBits - 1)) + 3
        if dst.length < displacement then .error none
        else decompressGroup flags left rest (copyRef dst (dst.length - displacement) length)

/-- The loop of `lznt1_decompress_block`; every group takes a byte, so the bytes are fuel enough. -/
def decompressBlockFrom : ℕ → List UInt8 → List UInt8 → Option (List UInt8)
  | 0, _, dst => some dst
  | _ + 1, [], dst => some dst
  | fuel + 1, flags :: src, dst =>
    if blockSize ≤ dst.length then some dst
    else
      match decompressGroup flags.toNat 8 src dst with
      | .ok (src, dst) => decompressBlockFrom fuel src dst
      | .error r => r

def decompressBlock (src : List UInt8) : Option (List UInt8) :=
  decompressBlockFrom src.length src []

/-- The loop of `ntfs_lznt1_decompress` over the blocks. -/
def decompressFrom (dstLen : ℕ) : ℕ → List UInt8 → List UInt8 → Option (List UInt8)
  | 0, _, dst => some dst
  | fuel + 1, lo :: hi :: src, dst =>
    if dstLen ≤ dst.length then some dst
    else
      let header := lo.toNat ||| hi.toNat <<< 8
      let size := (header &&& 0x0FFF) + 1
      if header = 0 then some dst
      else if src.length < size then some dst
      else if header &&& 0x8000 ≠ 0 then
        match decompressBlock (src.take size) with
        | none => none
        | some temp =>
          decompressFrom dstLen fuel (src.drop size) (dst ++ temp.take (dstLen - dst.length))
      else
        decompressFrom dstLen fuel (src.drop size)
          (dst ++ (src.take size).take (dstLen - dst.length))
  | _ + 1, _, dst => some dst

/-- `ntfs_lznt1_decompress`: the bytes written to the buffer, whose number is returned. -/
def lznt1Decompress (src : List UInt8) (dstLen : ℕ) : Option (List UInt8) :=
  if src = [] ∨ dstLen = 0 then none else decompressFrom dstLen src.length src []

/-! ### Match finder -/

/-- `head[]` by bucket and `prev[]` by position. -/
structure Table where
  head : ℕ → Option ℕ
  prev : ℕ → Option ℕ

def emptyTable : Table := ⟨fun _ => none, fun _ => none⟩

def hash3 (src : List UInt8) (p : ℕ) : ℕ :=
  let v := (src.getD p 0).toNat ||| (src.getD (p + 1) 0).toNat <<< 8 |||
    (src.getD (p + 2) 0).toNat <<< 16
  (v ^^^ v >>> 8 ^^^ v >>> 16) &&& 0xFF

/-- How far the bytes from `j` on are those from `pos` on, up to `avail`. -/
def matchLen (src : List UInt8) (j pos : ℕ) : ℕ → ℕ
  | 0 => 0
  | avail + 1 =>
    if src.getD j 0 = src.getD pos 0 then matchLen src (j + 1) (pos + 1) avail + 1 else 0

/-- `best_len` and `best_disp`. -/
structure Match where
  len : ℕ
  disp : ℕ
  deriving DecidableEq, Repr

/-- The walk along the chain of bucket `h`, for at most `steps` more steps. -/
def walkChain (src : List UInt8) (srcPos h maxLen maxDisp : ℕ) :
    ℕ → Option ℕ → Table → Match → Table × Match
  | 0, _, t, best => (t, best)
  | _ + 1, none, t, best => (t, best)
  | steps + 1, some j, t, best =>
    let disp := srcPos - j
    if maxDisp < disp then (t, best)
    else
      let mlen := matchLen src j srcPos (min (src.length - srcPos) maxLen)
      let better := 3 ≤ mlen ∧ best.len < mlen
      let best := if better then ⟨mlen, disp⟩ else best
      if better ∧ mlen = maxLen then (t, best)
      else
        let t := { t with prev := Function.update t.prev j (t.head h) }
        walkChain src srcPos h maxLen maxDisp steps (t.prev j) t best

def Table.insert (t : Table) (src : List UInt8) (pos : ℕ) : Table :=
  if pos + 3 ≤ src.length then
    let h := hash3 src pos
    ⟨Function.update t.head h (some pos), Function.update t.prev pos (t.head h)⟩
  else t

/-- Enter the positions after `pos` of a match of `n + 1` bytes. -/
def Table.insertNext (t : Table) (src : List UInt8) (pos n : ℕ) : Table :=
  (List.range n).foldl (fun t k => t.insert src (pos + 1 + k)) t

/-! ### Compressor -/

/-- The state of `lznt1_compress_block`: the groups that are closed, and the flag byte, the bytes
and the number of tokens of the open one. -/
structure CompState where
  srcPos : ℕ
  table : Table
  out : List UInt8
  flag : ℕ
  group : List UInt8
  tokenCount : ℕ

/-- `out_pos`; the open group has its flag byte already. -/
def CompState.outPos (s : CompState) : ℕ := s.out.length + 1 + s.group.length

def outSize : ℕ := blockSize + 16

/-- The best match at the current position. -/
def findMatch (src : List UInt8) (s : CompState) : Table × Match :=
  let dispBits := displacementBits s.srcPos
  let maxLen := 1 <<< (16 - dispBits) - 1 + 3
  let maxDisp := 1 <<< dispBits
  if s.srcPos + 3 ≤ src.length then
    let h := hash3 src s.srcPos
    walkChain src s.srcPos h maxLen maxDisp 16 (s.table.head h) s.table ⟨0, 0⟩
  else (s.table, ⟨0, 0⟩)

/-- Write the token for a match, or for the next byte when there is none. -/
def emitToken (src : List UInt8) (s : CompState) : Option CompState :=
  let (t, best) := findMatch src s
  let t := t.insert src s.srcPos
  if 3 ≤ best.len then
    let lenBits := 16 - displacementBits s.srcPos
    let encoded := ((best.disp - 1) <<< lenBits ||| (best.len - 3)) % 2 ^ 16
    if outSize < s.outPos + 2 then none
    else
      some { s with
        srcPos := s.srcPos + best.len
        table := t.insertNext src s.srcPos (best.len - 1)
        flag := s.flag ||| 1 <<< s.tokenCount
        group := s.group ++ [UInt8.ofNat (encoded &&& 0xFF), UInt8.ofNat (encoded >>> 8)] }
  else if outSize < s.outPos + 1 then none
  else
    some { s with
      srcPos := s.srcPos + 1
      table := t
      group := s.group ++ [src.getD s.srcPos 0] }

/-- Count the token, and close the group after eight. -/
def countToken (s : CompState) : CompState :=
  if s.tokenCount + 1 = 8 then
    { s with
      out := s.out ++ UInt8.ofNat s.flag :: s.group
      flag := 0
      group := []
      tokenCount := 0 }
  else { s with tokenCount := s.tokenCount + 1 }

/-- The loop of `lznt1_compress_block`; `none` is the jump to `store_raw`. Every token takes a
byte, so the bytes are fuel enough. -/
def compressLoop (src : List UInt8) : ℕ → CompState → Option CompState
  | 0, s => some s
  | fuel + 1, s =>
    if src.length ≤ s.srcPos then some s
    else
      match emitToken src s with
      | none => none
      | some s =>
        let s := countToken s
        if src.length ≤ s.outPos + 2 then none else compressLoop src fuel s

/-- The bytes of the block; an open group without tokens is taken back. -/
def CompState.data (s : CompState) : List UInt8 :=
  if 0 < s.tokenCount then s.out ++ UInt8.ofNat s.flag :: s.group else s.out

def header (size flags : ℕ) : List UInt8 :=
  let hdr := (size - 1) ||| flags
  [UInt8.ofNat (hdr &&& 0xFF), UInt8.ofNat (hdr >>> 8)]

def storeRaw (src : List UInt8) (dstMax : ℕ) : Option (List UInt8) :=
  if dstMax < 2 + src.length then none else some (header src.length (0x3 <<< 12) ++ src)

/-- `lznt1_compress_block`: the bytes written; `none` when 0 is returned and nothing written. -/
def compressBlock (src : List UInt8) (dstMax : ℕ) : Option (List UInt8) :=
  if src = [] ∨ dstMax < src.length + 2 then none
  else
    match compressLoop src src.length ⟨0, emptyTable, [], 0, [], 0⟩ with
    | none => storeRaw src dstMax
    | some s =>
      if dstMax < 2 + s.data.length then storeRaw src dstMax
      else some (header s.data.length (0x3 <<< 12 ||| 1 <<< 15) ++ s.data)

/-- The loop of `ntfs_lznt1_compress`: what has been written, and whether it succeeds. Lengths of
2^31 and more become negative numbers and are refused. -/
def compressFrom (dstLen : ℕ) : ℕ → List UInt8 → List UInt8 → List UInt8 × Bool
  | 0, _, out => (out, false)
  | _ + 1, [], out => if dstLen < out.length + 2 then (out, false) else (out ++ [0, 0], true)
  | fuel + 1, b :: src, out =>
    let block := (b :: src).take blockSize
    if 2 ^ 31 ≤ (b :: src).length then (out, false)
    else if dstLen < out.length + 2 + block.length then (out, false)
    else if 2 ^ 31 ≤ dstLen - out.length then (out, false)
    else
      match compressBlock block (dstLen - out.length) with
      | none => (out, false)
      | some written => compressFrom dstLen fuel ((b :: src).drop blockSize) (out ++ written)

/-- `ntfs_lznt1_compress`: the bytes written to the buffer, and whether their number is returned
and not -1. -/
def lznt1Compress (src : List UInt8) (dstLen : ℕ) : List UInt8 × Bool :=
  if src = [] ∨ dstLen = 0 then ([], false) else compressFrom dstLen (src.length + 1) src []

end ImpossibleOs.Ntfs.Lznt1
