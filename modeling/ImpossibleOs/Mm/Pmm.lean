import ImpossibleOs.Lib.Bitmap
import ImpossibleOs.Lib.Loop
import ImpossibleOs.Lib.Refine

/-!
The physical frame allocator (`src/kernel/mm/pmm.c`).

One bit per frame, set for a frame in use, and a counter that is kept beside
the bits. Address 0 stands for a failed allocation.
-/

namespace ImpossibleOs.Mm

open ByteMem

def pmmFrameSize : ℕ := 4096
def pmmPhysAddrCap : ℕ := 0x100000000
def userPtWindowBase : ℕ := 0x800000
def userPtWindowSize : ℕ := 0x200000

def u64 (n : ℕ) : ℕ := n % 2 ^ 64

structure Pmm where
  bitmap : ByteMem
  totalFrames : ℕ
  usedFrames : ℕ

def Pmm.bitmapSize (p : Pmm) : ℕ := (p.totalFrames + 7) / 8

def Pmm.used (p : Pmm) (frame : ℕ) : Bool := Bitmap.test p.bitmap frame

/-! ### Marking -/

def Pmm.take (p : Pmm) (frame : ℕ) : Pmm :=
  { p with bitmap := Bitmap.set p.bitmap frame, usedFrames := p.usedFrames + 1 }

def Pmm.release (p : Pmm) (frame : ℕ) : Pmm :=
  { p with bitmap := Bitmap.clear p.bitmap frame, usedFrames := p.usedFrames - 1 }

def markUsed (p : Pmm) (frame : ℕ) : Pmm := if !p.used frame then p.take frame else p

def markFree (p : Pmm) (frame : ℕ) : Pmm := if p.used frame then p.release frame else p

/-- The frames `[start, end)` of a loop, with the end cut at the last frame. -/
def framesOf (p : Pmm) (start stop : ℕ) : List ℕ :=
  List.range' start (min stop p.totalFrames - start)

def pmmMarkRegionUsed (p : Pmm) (base length : ℕ) : Pmm :=
  (framesOf p (base / pmmFrameSize)
    (u64 (base + length + pmmFrameSize - 1) / pmmFrameSize)).foldl markUsed p

def pmmMarkRegionFree (p : Pmm) (base length : ℕ) : Pmm :=
  (framesOf p (base / pmmFrameSize) (u64 (base + length) / pmmFrameSize)).foldl markFree p

/-- A region of the boot memory map; `usable` is one of the five types that are freed. -/
structure MmapEntry where
  base : ℕ
  length : ℕ
  usable : Bool

def highestAddr (mmap : List MmapEntry) : ℕ :=
  mmap.foldl (fun h e => if e.usable then max h (u64 (e.base + e.length)) else h) 0

def pageAlign (n : ℕ) : ℕ := (n + pmmFrameSize - 1) / pmmFrameSize * pmmFrameSize

/-- `pmm_init`: the state it leaves. Its checks, which stop the boot, are left out. `reserved`
is the table that `boot_reserved_apply` goes through. -/
def pmmInit (mmap : List MmapEntry) (kernelEnd : ℕ) (reserved : List (ℕ × ℕ)) : Pmm :=
  let totalFrames := min (highestAddr mmap) pmmPhysAddrCap / pmmFrameSize
  let p : Pmm := ⟨fun _ => 0xFF, totalFrames, totalFrames⟩
  let bitmapEnd := pageAlign (kernelEnd + p.bitmapSize)
  let p := mmap.foldl (fun p e => if e.usable then pmmMarkRegionFree p e.base e.length else p) p
  let p := pmmMarkRegionUsed p 0 0x100000
  let p := pmmMarkRegionUsed p 0x100000 (kernelEnd - 0x100000)
  let p := pmmMarkRegionUsed p kernelEnd (bitmapEnd - kernelEnd)
  let p := pmmMarkRegionUsed p userPtWindowBase userPtWindowSize
  reserved.foldl (fun p e => pmmMarkRegionUsed p e.1 e.2) p

/-! ### Allocation -/

/-- The bits of byte `i`: `some none` when the frames end, `some` of the first free frame. -/
def scanBits (p : Pmm) (i : ℕ) : Option (Option ℕ) :=
  (List.range 8).findSome? fun bit =>
    let frame := i * 8 + bit
    if p.totalFrames ≤ frame then some none
    else if !p.used frame then some (some frame)
    else none

def scanBytes (p : Pmm) : Option (Option ℕ) :=
  (List.range p.bitmapSize).findSome? fun i => if p.bitmap i = 0xFF then none else scanBits p i

/-- `pmm_alloc_frame`: the state and the address. -/
def pmmAllocFrame (p : Pmm) : Pmm × ℕ :=
  match scanBytes p with
  | some (some frame) => (p.take frame, frame * pmmFrameSize)
  | _ => (p, 0)

/-- One turn of the run search, on the start and length of the run so far. It is left with the
start of a run that is long enough. -/
def runTurn (p : Pmm) (count : ℕ) (run : ℕ × ℕ) (frame : ℕ) : Except ℕ (ℕ × ℕ) :=
  if p.used frame then .ok (frame + 1, 0)
  else if count ≤ run.2 + 1 then .error run.1
  else .ok (run.1, run.2 + 1)

def pmmAllocContiguous (p : Pmm) (count : ℕ) : Pmm × ℕ :=
  if count = 0 then (p, 0)
  else if count = 1 then pmmAllocFrame p
  else
    match (List.range p.totalFrames).foldlM (runTurn p count) (0, 0) with
    | .ok _ => (p, 0)
    | .error start =>
      ((List.range' start count).foldl Pmm.take p, start * pmmFrameSize)

def pmmFreeFrame (p : Pmm) (addr : ℕ) : Pmm :=
  let frame := addr / pmmFrameSize
  if p.totalFrames ≤ frame then p else markFree p frame

def pmmFreeContiguous (p : Pmm) (base count : ℕ) : Pmm :=
  if base = 0 ∨ count = 0 then p
  else (List.range count).foldl (fun p i => pmmFreeFrame p (u64 (base + i * pmmFrameSize))) p

/-! ### Runs -/

inductive PmmCall where
  | allocFrame
  | allocContiguous (count : ℕ)
  | freeFrame (addr : ℕ)
  | freeContiguous (base count : ℕ)
  | markUsed (base length : ℕ)

/-- The allocator and the frames that are handed out. -/
structure PmmState where
  pmm : Pmm
  live : List ℕ

/-- The frames that a call gives back. -/
def PmmCall.freed : PmmCall → List ℕ
  | .freeFrame addr => [addr / pmmFrameSize]
  | .freeContiguous base count =>
    if base = 0 ∨ count = 0 then []
    else (List.range count).map fun i => u64 (base + i * pmmFrameSize) / pmmFrameSize
  | _ => []

/-- The frames of an allocation; none when it failed. -/
def handedOut (addr count : ℕ) : List ℕ :=
  if addr = 0 then [] else List.range' (addr / pmmFrameSize) count

def pmmExec (s : PmmState) (call : PmmCall) : PmmState :=
  match call with
  | .allocFrame =>
    let res := pmmAllocFrame s.pmm
    ⟨res.1, s.live ++ handedOut res.2 1⟩
  | .allocContiguous count =>
    let res := pmmAllocContiguous s.pmm count
    ⟨res.1, s.live ++ handedOut res.2 count⟩
  | .freeFrame addr => ⟨pmmFreeFrame s.pmm addr, s.live.filter (· ∉ call.freed)⟩
  | .freeContiguous base count =>
    ⟨pmmFreeContiguous s.pmm base count, s.live.filter (· ∉ call.freed)⟩
  | .markUsed base length => ⟨pmmMarkRegionUsed s.pmm base length, s.live⟩

def FreeRun (p : Pmm) (start count : ℕ) : Prop :=
  start + count ≤ p.totalFrames ∧ ∀ i < count, p.used (start + i) = false

def LowestRun (p : Pmm) (start count : ℕ) : Prop :=
  FreeRun p start count ∧ ∀ start' < start, ¬ FreeRun p start' count

end ImpossibleOs.Mm
