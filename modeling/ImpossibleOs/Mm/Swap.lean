import ImpossibleOs.Mm.Pmm

/-!
The swap subsystem (`src/kernel/mm/swap.c`, `include/kernel/mm/swap.h`) over the page tables of
one address space.

A virtual address is the number of its page: every caller passes page-aligned addresses. A walk
of the tables ends in nothing, in a huge leaf, or at an entry of the last level. The pagefile is
an array of pages, and a transfer to or from it may fail or stop short.
-/

namespace ImpossibleOs.Mm.Swap

open Function

/-! ### Page table entries -/

abbrev Pte := BitVec 64

def vmmFlagPresent : Pte := 0x1#64
def vmmFlagWritable : Pte := 0x2#64
def vmmFlagUser : Pte := 0x4#64
def vmmFlagAccessed : Pte := 0x20#64
def vmmFlagDirty : Pte := 0x40#64
def vmmFlagHuge : Pte := 0x80#64
def vmmFlagNx : Pte := 0x8000000000000000#64
def vmmKernelRw : Pte := vmmFlagPresent ||| vmmFlagWritable
def pteAddrMask : Pte := 0x000FFFFFFFFFF000#64

/-- `pte & flag`, as a condition. -/
def hasFlag (pte flag : Pte) : Bool := pte &&& flag != 0#64

/-- The physical address in an entry. -/
def pteAddr (pte : Pte) : Pte := pte &&& pteAddrMask

def swapMaxSlots : ℕ := 256
def swapPteFlag : Pte := 0x2#64
def swapPteMask : Pte := 0x7FFFFFFFFFE00#64

def swapEncodePte (slot : ℕ) : Pte := swapPteFlag ||| (BitVec.ofNat 64 slot <<< 9)

def swapDecodePte (pte : Pte) : ℕ := (((pte &&& swapPteMask) >>> 9).setWidth 32).toNat

def swapIsSwapped (pte : Pte) : Bool := !hasFlag pte 1#64 && hasFlag pte swapPteFlag

/-- A leaf above the last level, with the address that it translates the page to. -/
structure HugeLeaf where
  pte : Pte
  phys : Pte
  present : hasFlag pte vmmFlagPresent = true
  huge : hasFlag pte vmmFlagHuge = true

inductive Walk where
  | absent
  | huge (leaf : HugeLeaf)
  | leaf (pte : Pte)

/-! ### State -/

abbrev Page := Fin 4096 → UInt8

structure SwapSlot where
  inUse : Bool
  virtAddr : ℕ

structure ClockEntry where
  virtAddr : ℕ
  inUse : Bool

def clockMaxPages : ℕ := 512

/-- `swapInited` also stands for the open pagefile: `swap_init` sets it last. -/
structure State where
  pt : ℕ → Walk
  mem : Pte → Page
  pmm : Pmm
  pagefile : ℕ → Page
  swapTempBuf : Page
  swapSlots : ℕ → SwapSlot
  swapNumSlots : ℕ
  swapUsed : ℕ
  swapInited : Bool
  clockEntries : ℕ → ClockEntry
  clockHand : ℕ
  clockCount : ℕ

def swapReadPte (s : State) (virt : ℕ) : Pte :=
  match s.pt virt with
  | .absent => 0#64
  | .huge leaf => leaf.pte
  | .leaf pte => pte

/-- `swap_write_pte`: `none` when it answers -1. -/
def swapWritePte (s : State) (virt : ℕ) (pteVal expectedPhys : Pte) : Option State :=
  match s.pt virt with
  | .leaf pte =>
    if !hasFlag pte vmmFlagPresent || pteAddr pte != expectedPhys then none
    else some { s with pt := update s.pt virt (.leaf pteVal) }
  | _ => none

def vmmGetPhysical (s : State) (virt : ℕ) : Pte :=
  match s.pt virt with
  | .absent => 0#64
  | .huge leaf => leaf.phys
  | .leaf pte => if hasFlag pte vmmFlagPresent then pteAddr pte else 0#64

/-- `vmm_map_page` where the last level exists: the tables above it, which the source would
build, are there whenever a fault finds a swap marker. -/
def vmmMapPage (s : State) (virt : ℕ) (phys flags : Pte) : State :=
  match s.pt virt with
  | .leaf _ =>
    { s with pt := update s.pt virt (.leaf ((phys &&& ~~~0xFFF#64) ||| flags)) }
  | _ => s

/-! ### Transfers and frames -/

/-- What a transfer of one page does: it fails or returns a count of bytes, after it has moved
that many. -/
inductive Io where
  | fail (bytes : ℕ)
  | done (bytes : ℕ)

def Io.bytes : Io → ℕ
  | .fail n => n
  | .done n => n

def Io.failed : Io → Bool
  | .fail _ => true
  | .done _ => false

/-- The receiving page after a transfer. -/
def Io.moved (io : Io) (source target : Page) : Page :=
  fun k => if k.1 < io.bytes then source k else target k

/-- `pmm_alloc_frame`, which may also be made to fail. -/
def allocFrame (s : State) (fails : Bool) : Pte × State :=
  if fails then (0#64, s)
  else
    let res := pmmAllocFrame s.pmm
    (BitVec.ofNat 64 res.2, { s with pmm := res.1 })

def freeFrame (s : State) (phys : Pte) : State :=
  { s with pmm := pmmFreeFrame s.pmm phys.toNat }

def swapClockRegister (s : State) (virtAddr : ℕ) : State :=
  if (List.range clockMaxPages).any fun i =>
      (s.clockEntries i).inUse && (s.clockEntries i).virtAddr == virtAddr then s
  else
    match (List.range clockMaxPages).find? fun i => !(s.clockEntries i).inUse with
    | none => s
    | some i =>
      { s with
        clockEntries := update s.clockEntries i ⟨virtAddr, true⟩
        clockCount := s.clockCount + 1 }

def clockRemove (s : State) (i : ℕ) : State :=
  { s with
    clockEntries :=
      update s.clockEntries i { s.clockEntries i with inUse := false }
    clockCount := s.clockCount - 1 }

/-- The fallback of `swap_clock_victim`: the first valid entry. -/
def clockFirst (s : State) : ℕ × State :=
  match (List.range clockMaxPages).find? fun i => (s.clockEntries i).inUse with
  | none => (0, s)
  | some i => ((s.clockEntries i).virtAddr, clockRemove s i)

/-- The scan of `swap_clock_victim` with a number of passes left. -/
def clockScan : ℕ → State → ℕ × State
  | 0, s => clockFirst s
  | passes + 1, s =>
    let i := s.clockHand
    let s := { s with clockHand := (s.clockHand + 1) % clockMaxPages }
    if !(s.clockEntries i).inUse then clockScan passes s
    else
      let vaddr := (s.clockEntries i).virtAddr
      let pte := swapReadPte s vaddr
      if !hasFlag pte vmmFlagPresent then clockScan passes s
      else if hasFlag pte vmmFlagAccessed then
        -- the result of the write is not looked at
        clockScan passes
          ((swapWritePte s vaddr (pte &&& ~~~vmmFlagAccessed) (pteAddr pte)).getD s)
      else (vaddr, clockRemove s i)

/-- `swap_clock_victim`: 0 when there is nothing to evict. -/
def swapClockVictim (s : State) : ℕ × State :=
  if s.clockCount = 0 then (0, s) else clockScan (clockMaxPages * 2) s

/-! ### Swapping out and in -/

def freeSlot (s : State) : Option ℕ :=
  (List.range s.swapNumSlots).find? fun i => !(s.swapSlots i).inUse

def swapOut (s : State) (virtAddr : ℕ) (write : Io) : Option ℕ × State :=
  if !s.swapInited then (none, s)
  else
    match freeSlot s with
    | none => (none, s)
    | some i =>
      let phys := vmmGetPhysical s virtAddr
      if phys = 0#64 then (none, s)
      else if hasFlag (swapReadPte s virtAddr) vmmFlagHuge then (none, s)
      else
        let s := { s with swapTempBuf := s.mem phys }
        let s :=
          { s with
            pagefile :=
              update s.pagefile i (write.moved s.swapTempBuf (s.pagefile i)) }
        if write.failed then (none, s)
        else
          match swapWritePte s virtAddr (swapEncodePte i) phys with
          | none => (none, s)
          | some s =>
            let s := freeFrame s phys
            (some i,
              { s with
                swapSlots := update s.swapSlots i ⟨true, virtAddr⟩
                swapUsed := s.swapUsed + 1 })

/-- What the calls out of `swap_in` do: the two allocations, the write of the victim and the
read of the slot. -/
structure Env where
  noFrame : Bool
  write : Io
  noFrameAgain : Bool
  read : Io

/-- The frame that `swap_in` fills; 0 when there is none. -/
def swapInFrame (s : State) (env : Env) : Pte × State :=
  let res := allocFrame s env.noFrame
  if res.1 ≠ 0#64 then res
  else
    let victim := swapClockVictim res.2
    if victim.1 = 0 then (0#64, victim.2)
    else allocFrame (swapOut victim.2 victim.1 env.write).2 env.noFrameAgain

/-- The part of `swap_in` after the pagefile was read. -/
def swapInMap (s : State) (swapId virtAddr : ℕ) (newFrame : Pte) : State :=
  let s := vmmMapPage s virtAddr newFrame vmmKernelRw
  let s := { s with mem := update s.mem (vmmGetPhysical s virtAddr) s.swapTempBuf }
  let s :=
    { s with
      swapSlots := update s.swapSlots swapId ⟨false, 0⟩
      swapUsed := s.swapUsed - 1 }
  swapClockRegister s virtAddr

/-- `swap_in`: whether it answers 0. -/
def swapIn (s : State) (swapId virtAddr : ℕ) (env : Env) : Bool × State :=
  if !s.swapInited || decide (s.swapNumSlots ≤ swapId) then (false, s)
  else if !(s.swapSlots swapId).inUse then (false, s)
  else
    let res := swapInFrame s env
    if res.1 = 0#64 then (false, res.2)
    else
      let s := res.2
      let s := { s with swapTempBuf := env.read.moved (s.pagefile swapId) s.swapTempBuf }
      if env.read.failed then (false, freeFrame s res.1)
      else (true, swapInMap s swapId virtAddr res.1)

def swapHandleFault (s : State) (faultAddr : ℕ) (errorCode : BitVec 64) (env : Env) :
    Bool × State :=
  if !s.swapInited then (false, s)
  else if errorCode &&& 1#64 != 0#64 then (false, s)
  else
    let page := faultAddr / 4096
    let pte := swapReadPte s page
    if !swapIsSwapped pte then (false, s)
    else swapIn s (swapDecodePte pte) page env

/-- The processor marks an entry that it uses. -/
def touch (s : State) (virt : ℕ) (flags : Pte) : State :=
  match s.pt virt with
  | .leaf pte =>
    if hasFlag pte vmmFlagPresent then
      { s with pt := update s.pt virt (.leaf (pte ||| flags)) }
    else s
  | _ => s

/-- The program writes a byte of a page that it may write. -/
def store (s : State) (virt : ℕ) (offset : Fin 4096) (value : UInt8) : State :=
  match s.pt virt with
  | .leaf pte =>
    if hasFlag pte vmmFlagPresent && hasFlag pte vmmFlagWritable then
      let s := touch s virt (vmmFlagAccessed ||| vmmFlagDirty)
      { s with
        mem := update s.mem (pteAddr pte)
          (update (s.mem (pteAddr pte)) offset value) }
    else s
  | _ => s

inductive Turn where
  | load (virt : ℕ)
  | store (virt : ℕ) (offset : Fin 4096) (value : UInt8)
  | clockRegister (virt : ℕ)
  | swapOut (virt : ℕ) (write : Io)
  | evict (write : Io)
  | fault (addr : ℕ) (errorCode : BitVec 64) (env : Env)

def evict (s : State) (write : Io) : Option ℕ × State :=
  let victim := swapClockVictim s
  if victim.1 = 0 then (none, victim.2) else swapOut victim.2 victim.1 write

def exec (s : State) : Turn → State
  | .load virt => touch s virt vmmFlagAccessed
  | .store virt offset value => store s virt offset value
  | .clockRegister virt => swapClockRegister s virt
  | .swapOut virt write => (swapOut s virt write).2
  | .evict write => (evict s write).2
  | .fault addr errorCode env => (swapHandleFault s addr errorCode env).2

end ImpossibleOs.Mm.Swap
