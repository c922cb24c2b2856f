import ImpossibleOs.Lib.ByteMem

/-!
The kernel heap allocator of `src/kernel/mm/heap.c`.

The heap is one run of physical frames carved into blocks, each a 48-byte
`struct block_header` followed by its data area. Every header field is read from
the byte memory: a stray store into a header is a different heap, not an
excluded case.

Walks of the `next` list are bounded by `walkFuel`; `none` is a walk that did
not end within the bound. A `HeapFault` becomes a BugCheck of the caller.
-/

namespace ImpossibleOs.Heap

open ByteMem

/-! ### Constants -/

def headerSize : ℕ := 48
def minBlockSize : ℕ := 16
def heapInitialPages : ℕ := 512
def heapPageSize : ℕ := 4096
def heapCookieSecret : ℕ := 0xDEADBEEFC0FFEE01
def heapRedzoneFront : ℕ := 0xFEFEFEFEFEFEFEFE
def heapRedzoneBack : ℕ := 0xBDBDBDBDBDBDBDBD
def heapRedzoneBackSize : ℕ := 8
def kmallocMax : ℕ := 256 * 1024 * 1024
def heapBitmapGranule : ℕ := minBlockSize
def heapBitmapBits : ℕ := heapInitialPages * heapPageSize / heapBitmapGranule

/-- Bound on a walk of the block list: one more than the bitmap has bits, so a
longer walk has passed some block start twice. -/
def walkFuel : ℕ := heapBitmapBits + 1

def u64 (n : ℕ) : ℕ := n % 2 ^ 64

def sub64 (a b : ℕ) : ℕ := (a + (2 ^ 64 - b % 2 ^ 64)) % 2 ^ 64

inductive HeapFaultClass
  | none | wild | misaligned | cookie | redzoneFront | redzoneBack | tag
  deriving DecidableEq, Repr

structure HeapFault where
  cls : HeapFaultClass
  ptr : ℕ
  got : ℕ
  want : ℕ
  deriving DecidableEq, Repr

def noFault : HeapFault := ⟨.none, 0, 0, 0⟩

/-- The allocator's statics over the byte memory they describe. `blockBitmap i`
is bit `i & 63` of word `i >> 6` of `s_block_bitmap`. -/
structure HeapState where
  mem : ByteMem
  heapStartBlock : ℕ
  totalHeapSize : ℕ
  usedBytes : ℕ
  blockBitmap : ℕ → Bool
  heapPoisoned : Bool

/-! ### Header fields, at their offsets in `struct block_header` -/

def blockSize (m : ByteMem) (b : ℕ) : ℕ := readLE m b 8
def blockNext (m : ByteMem) (b : ℕ) : ℕ := readLE m (b + 8) 8
def blockCookie (m : ByteMem) (b : ℕ) : ℕ := readLE m (b + 16) 8
def blockReqSize (m : ByteMem) (b : ℕ) : ℕ := readLE m (b + 24) 8
def blockTag (m : ByteMem) (b : ℕ) : ℕ := readLE m (b + 32) 4
def blockIsFree (m : ByteMem) (b : ℕ) : ℕ := readLE m (b + 36) 1
def blockRedzoneFront (m : ByteMem) (b : ℕ) : ℕ := readLE m (b + 40) 8

def setBlockSize (m : ByteMem) (b v : ℕ) : ByteMem := writeLE m b 8 v
def setBlockNext (m : ByteMem) (b v : ℕ) : ByteMem := writeLE m (b + 8) 8 v
def setBlockCookie (m : ByteMem) (b v : ℕ) : ByteMem := writeLE m (b + 16) 8 v
def setBlockReqSize (m : ByteMem) (b v : ℕ) : ByteMem := writeLE m (b + 24) 8 v
def setBlockTag (m : ByteMem) (b v : ℕ) : ByteMem := writeLE m (b + 32) 4 v
def setBlockIsFree (m : ByteMem) (b v : ℕ) : ByteMem := writeLE m (b + 36) 1 v
def setBlockRedzoneFront (m : ByteMem) (b v : ℕ) : ByteMem := writeLE m (b + 40) 8 v

def heapCookieFor (b : ℕ) : ℕ := heapCookieSecret ^^^ b

/-- Address of the back redzone: the caller's bytes end there. -/
def heapRedzoneBackAddr (m : ByteMem) (b : ℕ) : ℕ := b + headerSize + blockReqSize m b

/-! ### The block-start bitmap -/

def heapBmIndex (h : HeapState) (b : ℕ) : ℕ := sub64 b h.heapStartBlock / heapBitmapGranule

def heapBmSet (h : HeapState) (b : ℕ) : HeapState :=
  if heapBmIndex h b < heapBitmapBits then
    { h with blockBitmap := Function.update h.blockBitmap (heapBmIndex h b) true }
  else h

def heapBmClear (h : HeapState) (b : ℕ) : HeapState :=
  if heapBmIndex h b < heapBitmapBits then
    { h with blockBitmap := Function.update h.blockBitmap (heapBmIndex h b) false }
  else h

def heapBmTest (h : HeapState) (b : ℕ) : Bool :=
  if heapBitmapBits ≤ heapBmIndex h b then false else h.blockBitmap (heapBmIndex h b)

def heapOwns (h : HeapState) (ptr : ℕ) : Bool :=
  !decide (ptr < h.heapStartBlock) && !decide (h.heapStartBlock + h.totalHeapSize ≤ ptr)

/-- The three answers of `heap_classify`: 0, 1 and -1. -/
inductive Classified
  | clean (block : ℕ)
  | alreadyFree
  | corrupt (fault : HeapFault)
  deriving DecidableEq, Repr

def heapClassify (h : HeapState) (ptr : ℕ) : Classified :=
  if heapOwns h ptr = false then .corrupt ⟨.wild, ptr, 0, 0⟩
  else if ptr % 16 ≠ 0 then .corrupt ⟨.misaligned, ptr, 0, 0⟩
  else if ptr < h.heapStartBlock + headerSize then .corrupt ⟨.wild, ptr, 0, 0⟩
  else
    let block := ptr - headerSize
    if heapBmTest h block = false then .corrupt ⟨.wild, ptr, 0, 0⟩
    else if blockIsFree h.mem block ≠ 0 then
      if blockCookie h.mem block = 0 then .alreadyFree
      else .corrupt ⟨.cookie, ptr, blockCookie h.mem block, 0⟩
    else if blockCookie h.mem block ≠ heapCookieFor block then
      .corrupt ⟨.cookie, ptr, blockCookie h.mem block, heapCookieFor block⟩
    else if blockSize h.mem block < blockReqSize h.mem block ∨
        blockSize h.mem block - blockReqSize h.mem block < heapRedzoneBackSize then
      .corrupt ⟨.redzoneBack, ptr, blockReqSize h.mem block, blockSize h.mem block⟩
    else if blockRedzoneFront h.mem block ≠ heapRedzoneFront then
      .corrupt ⟨.redzoneFront, ptr, blockRedzoneFront h.mem block, heapRedzoneFront⟩
    else if readLE h.mem (heapRedzoneBackAddr h.mem block) 8 ≠ heapRedzoneBack then
      .corrupt ⟨.redzoneBack, ptr, readLE h.mem (heapRedzoneBackAddr h.mem block) 8,
        heapRedzoneBack⟩
    else .clean block

def blockSplit (h : HeapState) (block size : ℕ) : HeapState :=
  if size + headerSize + minBlockSize ≤ blockSize h.mem block then
    let newBlock := block + headerSize + size
    let m := setBlockSize h.mem newBlock (sub64 (sub64 (blockSize h.mem block) size) headerSize)
    let m := setBlockIsFree m newBlock 1
    let m := setBlockCookie m newBlock 0
    let m := setBlockNext m newBlock (blockNext m block)
    let h := heapBmSet { h with mem := m } newBlock
    let m := setBlockSize h.mem block size
    let m := setBlockNext m block newBlock
    { h with mem := m }
  else h

/-- The `while (curr && curr->next)` loop of `coalesce_free_blocks`. -/
def coalesceLoop : ℕ → HeapState → ℕ → HeapFault → Option (HeapState × HeapFault)
  | 0, _, _, _ => none
  | fuel + 1, h, curr, f =>
    if curr = 0 ∨ blockNext h.mem curr = 0 then some (h, f)
    else
      let nxt := blockNext h.mem curr
      if blockIsFree h.mem nxt ≠ 0 ∧ blockCookie h.mem nxt ≠ 0 then
        some ({ h with heapPoisoned := true },
          ⟨.cookie, nxt + headerSize, blockCookie h.mem nxt, 0⟩)
      else if (blockIsFree h.mem curr ≠ 0 ∧ blockCookie h.mem curr = 0) ∧
          (blockIsFree h.mem nxt ≠ 0 ∧ blockCookie h.mem nxt = 0) then
        let h := heapBmClear h nxt
        let m := setBlockSize h.mem curr
          (blockSize h.mem curr + (headerSize + blockSize h.mem nxt))
        let m := setBlockNext m curr (blockNext m nxt)
        coalesceLoop fuel { h with mem := m } curr f
      else coalesceLoop fuel h nxt f

def coalesceFreeBlocks (h : HeapState) (f : HeapFault) : Option (HeapState × HeapFault) :=
  coalesceLoop walkFuel h h.heapStartBlock f

/-! ### Allocation -/

def roundNeed (req : ℕ) : ℕ := (req + heapRedzoneBackSize + 15) / 16 * 16

/-- The header stores of `kmalloc_locked` and the back redzone. -/
def stampHeader (m : ByteMem) (curr req : ℕ) (tag : UInt32) : ByteMem :=
  let m := setBlockIsFree m curr 0
  let m := setBlockReqSize m curr req
  let m := setBlockTag m curr tag.toNat
  let m := setBlockCookie m curr (heapCookieFor curr)
  let m := setBlockRedzoneFront m curr heapRedzoneFront
  writeLE m (heapRedzoneBackAddr m curr) 8 heapRedzoneBack

/-- What `kmalloc_locked` does with the block it settled on. -/
def claimBlock (h : HeapState) (curr req : ℕ) (tag : UInt32) : HeapState :=
  let h := blockSplit h curr (roundNeed req)
  let m := stampHeader h.mem curr req tag
  { h with mem := m, usedBytes := u64 (h.usedBytes + blockSize m curr) }

def kmallocScan (h : HeapState) (req : ℕ) (tag : UInt32) : ℕ → ℕ → Option (HeapState × ℕ)
  | 0, _ => none
  | fuel + 1, curr =>
    if curr = 0 then some (h, 0)
    else if blockIsFree h.mem curr ≠ 0 ∧ blockCookie h.mem curr = 0 ∧
        roundNeed req ≤ blockSize h.mem curr then
      some (claimBlock h curr req tag, curr + headerSize)
    else kmallocScan h req tag fuel (blockNext h.mem curr)

def kmallocLocked (h : HeapState) (req : ℕ) (tag : UInt32) : Option (HeapState × ℕ) :=
  if h.heapPoisoned then some (h, 0)
  else kmallocScan h req tag walkFuel h.heapStartBlock

/-- Word stores while eight bytes remain, then byte stores. -/
def heapFastZero (h : HeapState) (p n : ℕ) : HeapState := { h with mem := zeroRange h.mem p n }

/-- The part `kmalloc`, `kmalloc_zeroed` and `kmalloc_tagged` share: allocate under
the lock, then zero the user bytes outside it. -/
def kmallocAndZero (h : HeapState) (size : ℕ) (tag : UInt32) : Option (HeapState × ℕ) :=
  if kmallocMax < size then some (h, 0)
  else do
    let (h, p) ← kmallocLocked h size tag
    if p ≠ 0 then some (heapFastZero h p size, p) else some (h, p)

/-- `inject` is the answer of `heap_fault_injection_fires`, `false` outside test builds. -/
def kmalloc (h : HeapState) (size : ℕ) (inject : Bool) : Option (HeapState × ℕ) :=
  if size = 0 then some (h, 0)
  else if inject then some (h, 0)
  else kmallocAndZero h size 0

def kmallocZeroed (h : HeapState) (size : ℕ) (inject : Bool) : Option (HeapState × ℕ) :=
  if inject then some (h, 0)
  else if size = 0 then some (h, 0)
  else kmallocAndZero h size 0

def kmallocTagged (h : HeapState) (size : ℕ) (tag : UInt32) : Option (HeapState × ℕ) :=
  if size = 0 then some (h, 0)
  else kmallocAndZero h size tag

/-- What `kfree_locked` stores before it coalesces. -/
def releaseBlock (h : HeapState) (block : ℕ) : HeapState :=
  let m := setBlockCookie h.mem block 0
  let m := setBlockIsFree m block 1
  { h with mem := m, usedBytes := sub64 h.usedBytes (blockSize m block) }

/-- `kfree_locked`; `wantTag` is `some` where `check_tag` is set. -/
def kfreeLocked (h : HeapState) (ptr : ℕ) (wantTag : Option UInt32) (f : HeapFault) :
    Option (HeapState × HeapFault) :=
  if h.heapPoisoned then some (h, f)
  else
    match heapClassify h ptr with
    | .alreadyFree => some (h, f)
    | .corrupt fault => some ({ h with heapPoisoned := true }, fault)
    | .clean block =>
      match wantTag with
      | none => coalesceFreeBlocks (releaseBlock h block) f
      | some tag =>
        if blockTag h.mem block ≠ tag.toNat then
          some ({ h with heapPoisoned := true },
            ⟨.tag, ptr, blockTag h.mem block, tag.toNat⟩)
        else coalesceFreeBlocks (releaseBlock h block) f

def kfree (h : HeapState) (ptr : ℕ) : Option (HeapState × HeapFault) :=
  if ptr = 0 then some (h, noFault) else kfreeLocked h ptr none noFault

def kfreeTagged (h : HeapState) (ptr : ℕ) (tag : UInt32) : Option (HeapState × HeapFault) :=
  if ptr = 0 then some (h, noFault) else kfreeLocked h ptr (some tag) noFault

/-! ### Reallocation -/

/-- Record the new request in the block kept for it and zero what a grow exposes. -/
def growInPlace (h : HeapState) (block ptr newSize oldReq : ℕ) : HeapState :=
  let m := setBlockReqSize h.mem block newSize
  let m := writeLE m (heapRedzoneBackAddr m block) 8 heapRedzoneBack
  let h := { h with mem := m }
  if oldReq < newSize then heapFastZero h (ptr + oldReq) (newSize - oldReq) else h

/-- The merge with the free block behind, when the two together are large enough. -/
def mergeNext (h : HeapState) (block need combined : ℕ) : HeapState :=
  let oldSize := blockSize h.mem block
  let h := heapBmClear h (blockNext h.mem block)
  let h := { h with usedBytes := sub64 h.usedBytes oldSize }
  let m := setBlockSize h.mem block combined
  let m := setBlockNext m block (blockNext m (blockNext m block))
  let h := blockSplit { h with mem := m } block need
  { h with usedBytes := u64 (h.usedBytes + blockSize h.mem block) }

/-- The last resort of `krealloc`: a new block, the bytes copied over, the old one freed. -/
def moveBlock (h : HeapState) (block ptr newSize : ℕ) : Option (HeapState × HeapFault × ℕ) := do
  let (h, newPtr) ← kmallocLocked h newSize (UInt32.ofNat (blockTag h.mem block))
  if newPtr = 0 then some (h, noFault, 0)
  else
    let copySize :=
      if blockReqSize h.mem block < newSize then blockReqSize h.mem block else newSize
    let h := heapFastZero h newPtr newSize
    let h := { h with mem := copyUp h.mem newPtr ptr copySize }
    let (h, fault) ← kfreeLocked h ptr none noFault
    some (h, fault, newPtr)

def krealloc (h : HeapState) (ptr newSize : ℕ) (inject : Bool) :
    Option (HeapState × HeapFault × ℕ) :=
  if ptr = 0 then do
    let (h, p) ← kmalloc h newSize inject
    some (h, noFault, p)
  else if newSize = 0 then do
    let (h, fault) ← kfree h ptr
    some (h, fault, 0)
  else if kmallocMax < newSize then some (h, noFault, 0)
  else if h.heapPoisoned then some (h, noFault, 0)
  else
    match heapClassify h ptr with
    | .alreadyFree => some ({ h with heapPoisoned := true }, ⟨.cookie, ptr, 0, 0⟩, 0)
    | .corrupt fault => some ({ h with heapPoisoned := true }, fault, 0)
    | .clean block =>
      let need := roundNeed newSize
      if need ≤ blockSize h.mem block then
        some (growInPlace h block ptr newSize (blockReqSize h.mem block), noFault, ptr)
      else
        let nxt := blockNext h.mem block
        if nxt ≠ 0 ∧ blockIsFree h.mem nxt ≠ 0 then
          if blockCookie h.mem nxt ≠ 0 then
            some ({ h with heapPoisoned := true },
              ⟨.cookie, nxt + headerSize, blockCookie h.mem nxt, 0⟩, 0)
          else
            let combined := u64 (blockSize h.mem block + headerSize + blockSize h.mem nxt)
            if need ≤ combined then
              some (growInPlace (mergeNext h block need combined) block ptr newSize
                (blockReqSize h.mem block), noFault, ptr)
            else moveBlock h block ptr newSize
        else moveBlock h block ptr newSize

/-- Frames the fallback loop of `heap_init` keeps: as many of the successive
`pmm_alloc_frame` results as continue the run that starts at `base`. -/
def contiguousFrames (base : ℕ) : ℕ → List ℕ → ℕ
  | i, [] => i
  | i, frame :: frames =>
    if heapInitialPages ≤ i then i
    else if frame = 0 then i
    else if frame ≠ base + i * heapPageSize then i
    else contiguousFrames base (i + 1) frames

/-- Zero the run and put the one free block over it. -/
def installHeap (mem : ByteMem) (base pages : ℕ) : HeapState :=
  let total := pages * heapPageSize
  let m := zeroRange mem base total
  let m := setBlockSize m base (sub64 total headerSize)
  let m := setBlockIsFree m base 1
  let m := setBlockNext m base 0
  heapBmSet
    { mem := m, heapStartBlock := base, totalHeapSize := total, usedBytes := 0,
      blockBitmap := fun _ => false, heapPoisoned := false } base

/-- `heap_init`, with the answers of the frame allocator: `contig` from
`pmm_alloc_contiguous(HEAP_INITIAL_PAGES + 1)`, `frames` from the successive
`pmm_alloc_frame` calls of the fallback. `none` is `BOOT_FATAL`. -/
def heapInit (mem : ByteMem) (contig : ℕ) (frames : List ℕ) : Option HeapState :=
  if contig ≠ 0 then some (installHeap mem contig heapInitialPages)
  else
    match frames with
    | [] => none
    | base :: rest =>
      if base = 0 then none else some (installHeap mem base (contiguousFrames base 1 rest))

end ImpossibleOs.Heap
