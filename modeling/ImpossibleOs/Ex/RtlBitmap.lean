import ImpossibleOs.Lib.RunSearch
import Mathlib.Data.Nat.Bitwise
import Mathlib.Order.Interval.Finset.Nat

/-!
`RTL_BITMAP`, from `src/kernel/ex/ex_bitmap.c`.

The buffer is a function from word indices to words, so that a write outside
the bitmap would be seen; bits at or after `SizeOfBitMap` are padding. Counts
and indices are natural numbers: the code compares before it adds, so none of
its `uint32_t` sums wraps.
-/

namespace ImpossibleOs.Ex.Rtl

open RunSearch

def bitsPerWord : ℕ := 32
def rtlBitmapNotFound : ℕ := 0xFFFFFFFF

/-- A bitmap; `buffer` is `none` when the pointer is `NULL`. -/
structure RtlBitmap where
  sizeOfBitMap : ℕ
  size_lt : sizeOfBitMap < 2 ^ 32
  buffer : Option (ℕ → UInt32)

def wordCount (size : ℕ) : ℕ := size / bitsPerWord + if size % bitsPerWord ≠ 0 then 1 else 0

def allOnes : UInt32 := 0xFFFFFFFF

/-- `(1u << n) - 1u`. -/
def lowMask (n : ℕ) : UInt32 := ((1 : UInt32) <<< UInt32.ofNat n) - 1

def tailMask (size : ℕ) : UInt32 :=
  if size % bitsPerWord ≠ 0 then lowMask (size % bitsPerWord) else allOnes

def rangeMask (lo hi : ℕ) : UInt32 :=
  let low := if lo = 0 then allOnes else ~~~lowMask lo
  let high := if 31 ≤ hi then allOnes else lowMask (hi + 1)
  low &&& high

/-- The end words and bits of a range. -/
structure Span where
  fw : ℕ
  fb : ℕ
  lw : ℕ
  lb : ℕ

def span (start count : ℕ) : Span :=
  { fw := start / bitsPerWord, fb := start % bitsPerWord
    lw := (start + count - 1) / bitsPerWord, lb := (start + count - 1) % bitsPerWord }

def validRange (bm : RtlBitmap) (start count : ℕ) : Option Span :=
  if count = 0 ∨ bm.sizeOfBitMap ≤ start ∨ bm.sizeOfBitMap - start < count then none
  else some (span start count)

/-- `Buffer[w] = v`. -/
def putWord (words : ℕ → UInt32) (w : ℕ) (v : UInt32) : ℕ → UInt32 :=
  fun x => if x = w then v else words x

/-- `Buffer[w] |= m`. -/
def orWord (words : ℕ → UInt32) (w : ℕ) (m : UInt32) : ℕ → UInt32 :=
  putWord words w (words w ||| m)

/-- `Buffer[w] &= ~m`. -/
def andNotWord (words : ℕ → UInt32) (w : ℕ) (m : UInt32) : ℕ → UInt32 :=
  putWord words w (words w &&& ~~~m)

/-- `for (w = lo; w < hi; w++) Buffer[w] = v`. -/
def fillWords (words : ℕ → UInt32) (lo hi : ℕ) (v : UInt32) : ℕ → UInt32 :=
  (List.range (hi - lo)).foldl (fun words k => putWord words (lo + k) v) words

def rtlClearAllBits (bm : RtlBitmap) : RtlBitmap :=
  match bm.buffer with
  | none => bm
  | some words => { bm with buffer := some (fillWords words 0 (wordCount bm.sizeOfBitMap) 0) }

def rtlSetAllBits (bm : RtlBitmap) : RtlBitmap :=
  match bm.buffer with
  | none => bm
  | some words =>
    if bm.sizeOfBitMap = 0 then bm
    else
      let wc := wordCount bm.sizeOfBitMap
      let words := fillWords words 0 (wc - 1) allOnes
      { bm with buffer := some (putWord words (wc - 1) (tailMask bm.sizeOfBitMap)) }

/-- `1u << (bit & (BPW - 1u))`. -/
def bitMask (bit : ℕ) : UInt32 := (1 : UInt32) <<< UInt32.ofNat (bit % bitsPerWord)

def rtlSetBit (bm : RtlBitmap) (bit : ℕ) : RtlBitmap :=
  match bm.buffer with
  | none => bm
  | some words =>
    if bm.sizeOfBitMap ≤ bit then bm
    else { bm with buffer := some (orWord words (bit / bitsPerWord) (bitMask bit)) }

def rtlClearBit (bm : RtlBitmap) (bit : ℕ) : RtlBitmap :=
  match bm.buffer with
  | none => bm
  | some words =>
    if bm.sizeOfBitMap ≤ bit then bm
    else { bm with buffer := some (andNotWord words (bit / bitsPerWord) (bitMask bit)) }

/-- `(Buffer[i / BPW] >> (i & (BPW - 1u))) & 1u`. -/
def readBit (words : ℕ → UInt32) (i : ℕ) : Bool :=
  (words (i / bitsPerWord) >>> UInt32.ofNat (i % bitsPerWord)) &&& 1 ≠ 0

def setSpan (words : ℕ → UInt32) (r : Span) : ℕ → UInt32 :=
  if r.fw = r.lw then orWord words r.fw (rangeMask r.fb r.lb)
  else
    let words := orWord words r.fw (rangeMask r.fb (bitsPerWord - 1))
    let words := fillWords words (r.fw + 1) r.lw allOnes
    orWord words r.lw (rangeMask 0 r.lb)

def clearSpan (words : ℕ → UInt32) (r : Span) : ℕ → UInt32 :=
  if r.fw = r.lw then andNotWord words r.fw (rangeMask r.fb r.lb)
  else
    let words := andNotWord words r.fw (rangeMask r.fb (bitsPerWord - 1))
    let words := fillWords words (r.fw + 1) r.lw 0
    andNotWord words r.lw (rangeMask 0 r.lb)

def rtlSetBits (bm : RtlBitmap) (start count : ℕ) : RtlBitmap :=
  match bm.buffer, validRange bm start count with
  | some words, some r => { bm with buffer := some (setSpan words r) }
  | _, _ => bm

def rtlClearBits (bm : RtlBitmap) (start count : ℕ) : RtlBitmap :=
  match bm.buffer, validRange bm start count with
  | some words, some r => { bm with buffer := some (clearSpan words r) }
  | _, _ => bm

def maskIs (word m : UInt32) (wantSet : Bool) : Bool :=
  if wantSet then word &&& m = m else word &&& m = 0

def desiredWord (wantSet : Bool) : UInt32 := if wantSet then allOnes else 0

def spanIs (words : ℕ → UInt32) (r : Span) (wantSet : Bool) : Bool :=
  if r.fw = r.lw then maskIs (words r.fw) (rangeMask r.fb r.lb) wantSet
  else
    maskIs (words r.fw) (rangeMask r.fb (bitsPerWord - 1)) wantSet &&
      (List.range (r.lw - (r.fw + 1))).all
        (fun k => words (r.fw + 1 + k) = desiredWord wantSet) &&
      maskIs (words r.lw) (rangeMask 0 r.lb) wantSet

def areBits (bm : RtlBitmap) (start count : ℕ) (wantSet : Bool) : Bool :=
  match bm.buffer with
  | none => false
  | some words =>
    if count = 0 then true
    else if bm.sizeOfBitMap ≤ start ∨ bm.sizeOfBitMap - start < count then false
    else spanIs words (span start count) wantSet

def rtlAreBitsSet (bm : RtlBitmap) (start count : ℕ) : Bool := areBits bm start count true
def rtlAreBitsClear (bm : RtlBitmap) (start count : ℕ) : Bool := areBits bm start count false

def popcount (w : UInt32) : ℕ := (List.range 32).countP fun k => w.toNat.testBit k

def rtlNumberOfSetBits (bm : RtlBitmap) : ℕ :=
  match bm.buffer with
  | none => 0
  | some words =>
    if bm.sizeOfBitMap = 0 then 0
    else
      let wc := wordCount bm.sizeOfBitMap
      ((List.range (wc - 1)).foldl (fun n i => n + popcount (words i)) 0) +
        popcount (words (wc - 1) &&& tailMask bm.sizeOfBitMap)

def rtlNumberOfClearBits (bm : RtlBitmap) : ℕ := bm.sizeOfBitMap - rtlNumberOfSetBits bm

/-- The loop of `find_run`, with at most `fuel` more iterations. -/
def findRunLoop (words : ℕ → UInt32) (size count maxStart : ℕ) (wantSet : Bool) :
    (fuel i run runStart : ℕ) → ℕ
  | 0, _, _, _ => rtlBitmapNotFound
  | fuel + 1, i, run, runStart =>
    if size ≤ i then rtlBitmapNotFound
    else if run = 0 ∧ maxStart ≤ i then rtlBitmapNotFound
    else
      let aligned := i % bitsPerWord = 0 ∧ bitsPerWord ≤ size - i
      let start := if run = 0 then i else runStart
      if aligned ∧ words (i / bitsPerWord) = desiredWord (!wantSet) then
        findRunLoop words size count maxStart wantSet fuel (i + bitsPerWord) 0 runStart
      else if aligned ∧ words (i / bitsPerWord) = desiredWord wantSet then
        if count ≤ run + bitsPerWord then
          if start < maxStart then start else rtlBitmapNotFound
        else
          findRunLoop words size count maxStart wantSet fuel (i + bitsPerWord)
            (run + bitsPerWord) start
      else if readBit words i = wantSet then
        if run + 1 = count then
          if start < maxStart then start else rtlBitmapNotFound
        else findRunLoop words size count maxStart wantSet fuel (i + 1) (run + 1) start
      else findRunLoop words size count maxStart wantSet fuel (i + 1) 0 runStart

/-- Every iteration moves `i` on, so `size - from` iterations and the last test are enough. -/
def findRun (words : ℕ → UInt32) (size count from_ maxStart : ℕ) (wantSet : Bool) : ℕ :=
  if size < count ∨ size ≤ from_ then rtlBitmapNotFound
  else findRunLoop words size count maxStart wantSet (size - from_ + 1) from_ 0 from_

def findBits (bm : RtlBitmap) (count hint : ℕ) (wantSet : Bool) : ℕ :=
  match bm.buffer with
  | none => rtlBitmapNotFound
  | some words =>
    if count = 0 then if hint ≤ bm.sizeOfBitMap then hint else bm.sizeOfBitMap
    else
      let h := if hint < bm.sizeOfBitMap then hint else 0
      let r := findRun words bm.sizeOfBitMap count h bm.sizeOfBitMap wantSet
      if r ≠ rtlBitmapNotFound ∨ h = 0 then r
      else findRun words bm.sizeOfBitMap count 0 h wantSet

def rtlFindClearBits (bm : RtlBitmap) (count hint : ℕ) : ℕ := findBits bm count hint false
def rtlFindSetBits (bm : RtlBitmap) (count hint : ℕ) : ℕ := findBits bm count hint true

def rtlFindClearBitsAndSet (bm : RtlBitmap) (count hint : ℕ) : ℕ × RtlBitmap :=
  let r := findBits bm count hint false
  (r, if r ≠ rtlBitmapNotFound ∧ count ≠ 0 then rtlSetBits bm r count else bm)

def rtlFindSetBitsAndClear (bm : RtlBitmap) (count hint : ℕ) : ℕ × RtlBitmap :=
  let r := findBits bm count hint true
  (r, if r ≠ rtlBitmapNotFound ∧ count ≠ 0 then rtlClearBits bm r count else bm)

end ImpossibleOs.Ex.Rtl
