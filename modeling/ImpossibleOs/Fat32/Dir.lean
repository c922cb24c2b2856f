import ImpossibleOs.Fat32.Volume

/-!
Directory entries of the FAT32 driver (`src/kernel/fs/fat32/fat32_dir.c`): the
fields that scans look at, the search for a run of free entries and the writer
of a long name with its short entry.

`lfnWriteSlots` also returns the device addresses of the entries it wrote, in
the order of the entries.
-/

namespace ImpossibleOs.Fat32

open ByteMem

def fat32AttrLfn : UInt8 := 0x0F
def lfnLastEntry : UInt8 := 0x40

/-- The first cluster of the directory entry at address `a`. -/
def deFirstCluster (m : ByteMem) (a : ℕ) : ℕ := readLE m (a + 20) 2 * 2 ^ 16 + readLE m (a + 26) 2

def deFileSize (m : ByteMem) (a : ℕ) : ℕ := readLE m (a + 28) 4

def deAttr (m : ByteMem) (a : ℕ) : UInt8 := m (a + 11)

/-- The tests by which directory scans pass over an entry: deleted, part of a long name, a
volume label. -/
def deSkipped (m : ByteMem) (a : ℕ) : Bool :=
  m a = 0xE5 || deAttr m a = 0x0F || deAttr m a &&& 0x08 ≠ 0

def entryAddrs (b : Bpb) (clusters : List ℕ) : List ℕ :=
  clusters.flatMap fun c => (List.range (b.bytesPerCluster / 32)).map fun i =>
    clusterAddr b c + 32 * i

def lfnChecksum (sfn : List UInt8) : UInt8 :=
  sfn.foldl (fun sum b => ((sum &&& 1) <<< 7) + (sum >>> 1) + b) 0

def lfnSlotCount (name : List UInt8) : ℕ := (name.length + 12) / 13

/-- Character `idx` of a name as an LFN entry stores it: the name, a terminator, padding. -/
def lfnChar (name : List UInt8) (idx : ℕ) : List UInt8 :=
  if idx < name.length then [name.getD idx 0, 0]
  else if idx = name.length then [0, 0]
  else [0xFF, 0xFF]

def lfnChars (name : List UInt8) (base count : ℕ) : List UInt8 :=
  (List.range count).flatMap fun ci => lfnChar name (base + ci)

/-- The 32 bytes of LFN entry number `s` (1-based) of `slots`. -/
def lfnEntry (name : List UInt8) (checksum : UInt8) (slots s : ℕ) : List UInt8 :=
  let base := (s - 1) * 13
  let seq := if s = slots then UInt8.ofNat s ||| lfnLastEntry else UInt8.ofNat s
  [seq] ++ lfnChars name base 5 ++ [fat32AttrLfn, 0, checksum] ++ lfnChars name (base + 5) 6 ++
    [0, 0] ++ lfnChars name (base + 11) 2

/-! ### The slot search -/

/-- A run of free entries under construction: where it starts and its length so far. -/
structure SlotRun where
  sector : ℕ
  offset : ℕ
  cluster : ℕ
  len : ℕ
  deriving DecidableEq, Repr

def emptyRun : SlotRun := ⟨0, 0, 0, 0⟩

def entriesPerCluster (b : Bpb) : ℕ := b.bytesPerCluster / 32

/-- One entry of the search, number `i` of `cluster`. The search is left with the run when it
is long enough. -/
def slotTurn (v : Volume) (count cluster : ℕ) (run : SlotRun) (i : ℕ) :
    Except SlotRun SlotRun :=
  let firstByte := v.disk (clusterAddr v.bpb cluster + 32 * i)
  if firstByte = 0x00 ∨ firstByte = 0xE5 then
    let run :=
      if run.len = 0 then
        ⟨clusterToSector v.bpb cluster + 32 * i / 512, 32 * i % 512, cluster, run.len⟩
      else run
    let run := { run with len := run.len + 1 }
    if count ≤ run.len then .error run else .ok run
  else .ok { run with len := 0 }

/-- What the search of the existing chain ends with. -/
inductive SlotSearch
  | found (run : SlotRun)
  | ended (prev : ℕ) (run : SlotRun)

/-- The search along the chain from `cur` on; `none` is a walk without end. -/
def searchSlots (v : Volume) (count : ℕ) : ℕ → ℕ → ℕ → SlotRun → Option SlotSearch
  | 0, _, _, _ => none
  | fuel + 1, cur, prev, run =>
    if 2 ≤ cur ∧ cur < fat32Eoc then
      match (List.range (entriesPerCluster v.bpb)).foldlM (slotTurn v count cur) run with
      | .error run => some (.found run)
      | .ok run => searchSlots v count fuel (getFatEntry v cur) cur run
    else some (.ended prev run)

/-- `fat32_find_free_dir_slots`: the volume and the start of the run. -/
def findFreeDirSlots (v : Volume) (dirCluster count : ℕ) : Option (Volume × SlotRun) :=
  match searchSlots v count chainFuel dirCluster 0 emptyRun with
  | none => none
  | some (.found run) => some (v, run)
  | some (.ended prev run) =>
    let alloc := allocCluster v
    if alloc.2 = 0 then none
    else
      let v := if prev ≠ 0 then setFatEntry alloc.1 prev alloc.2 else alloc.1
      let v := zeroCluster v alloc.2
      if run.len = 0 then
        some (v, ⟨clusterToSector v.bpb alloc.2, 0, alloc.2, 0⟩)
      else some (v, run)

/-- Device address of entry `idx` of the writer's run: `sector` and `offset` are carried on
linearly from the start of the run. -/
def slotAddr (run : SlotRun) (idx : ℕ) : ℕ :=
  (run.sector + (run.offset + idx * 32) / 512) * 512 + (run.offset + idx * 32) % 512

def writeSlot (run : SlotRun) (entry : ℕ → List UInt8) (v : Volume) (idx : ℕ) : Volume :=
  { v with disk := storeBytes v.disk (slotAddr run idx) (entry idx) }

/-- The entries in directory order: the LFN entries, last one first, and the short entry. -/
def slotEntry (sfn name sfnEntry : List UInt8) (idx : ℕ) : List UInt8 :=
  let slots := lfnSlotCount name
  if idx < slots then lfnEntry name (lfnChecksum sfn) slots (slots - idx) else sfnEntry

/-- `fat32_lfn_write_slots`. `sfnEntry` is the 32-byte short entry. -/
def lfnWriteSlots (v : Volume) (dirCluster : ℕ) (sfn name sfnEntry : List UInt8) :
    Option (Volume × List ℕ) :=
  let total := lfnSlotCount name + 1
  match findFreeDirSlots v dirCluster total with
  | none => none
  | some (v, run) =>
    some ((List.range total).foldl (writeSlot run (slotEntry sfn name sfnEntry)) v,
      (List.range total).map (slotAddr run))

end ImpossibleOs.Fat32
