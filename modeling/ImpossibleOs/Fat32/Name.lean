import ImpossibleOs.Fat32.Dir

/-!
Names of the FAT32 driver (`src/kernel/fs/fat32/fat32_dir.c`, `fat32_core.c`):
the 8.3 form of a name, when a long name is needed, how an entry is turned back
into a name and how a scan collects the long name in front of an entry.

A name is the list of its bytes without the terminating zero.
-/

namespace ImpossibleOs.Fat32

open ByteMem

def charSpace : UInt8 := 0x20
def charDot : UInt8 := 0x2E
def charTilde : UInt8 := 0x7E

def toUpper (c : UInt8) : UInt8 := if 0x61 ≤ c ∧ c ≤ 0x7A then c - 32 else c

def toLower (c : UInt8) : UInt8 := if 0x41 ≤ c ∧ c ≤ 0x5A then c + 32 else c

/-- `fat32_strcasecmp`, nonzero for equal names. -/
def strcasecmp (a b : List UInt8) : Bool := a.map toLower = b.map toLower

/-! ### The 8.3 form -/

def lastDot (name : List UInt8) : Option ℕ :=
  (List.range name.length).foldl
    (fun dot i => if name.getD i 0 = charDot then some i else dot) none

def nameStem (name : List UInt8) : List UInt8 :=
  match lastDot name with
  | some dot => name.take dot
  | none => name

def nameExt (name : List UInt8) : List UInt8 :=
  match lastDot name with
  | some dot => name.drop (dot + 1)
  | none => []

/-- The field of `n` bytes that starts with `l` and is filled up with spaces. -/
def padTo (n : ℕ) (l : List UInt8) : List UInt8 := l ++ List.replicate (n - l.length) charSpace

def makeShortName (name : List UInt8) : List UInt8 :=
  let stem := nameStem name
  let kept := (stem.filter fun c => c ≠ charSpace ∧ c ≠ charDot).take 8
  let base := padTo 8 (kept.map toUpper)
  let base := if 8 < stem.length then (base.set 6 charTilde).set 7 0x31 else base
  base ++ padTo 3 (((nameExt name).take 3).map toUpper)

def needsLfn (name : List UInt8) : Bool :=
  name.any (fun c => 127 < c || (0x61 ≤ c && c ≤ 0x7A) || c = charSpace) ||
    1 < name.count charDot ||
    match lastDot name with
    | none => 8 < name.length
    | some dot => 8 < dot || 3 < name.length - dot - 1

/-- Digit `d` as a character. -/
def digit (d : ℕ) : UInt8 := UInt8.ofNat (0x30 + d)

/-- The short name with numeric tail `tail`, which replaces its last base characters. -/
def withTail (sfn : List UInt8) (tail : ℕ) : List UInt8 :=
  if tail ≤ 9 then (sfn.set 6 charTilde).set 7 (digit tail)
  else ((sfn.set 5 charTilde).set 6 (digit (tail / 10))).set 7 (digit (tail % 10))

/-! ### Names of entries -/

def cString (buf : List UInt8) : List UInt8 := buf.takeWhile (· ≠ 0)

def shortNameToStr (raw : List UInt8) : List UInt8 :=
  let part := fun (l : List UInt8) => (l.filter (· ≠ charSpace)).map toLower
  cString (part (raw.take 8) ++
    if raw.getD 8 0 ≠ charSpace then charDot :: part ((raw.drop 8).take 3) else [])

/-- UTF-16 code unit `i` of the LFN entry at `a`. -/
def lfnUnit (m : ByteMem) (a i : ℕ) : ℕ :=
  readLE m (a + if i < 5 then 1 + 2 * i else if i < 11 then 14 + 2 * (i - 5)
    else 28 + 2 * (i - 11)) 2

/-- The characters of the LFN entry at `a`, up to its terminator or padding. -/
def lfnUnits (m : ByteMem) (a : ℕ) : List UInt8 :=
  (((List.range 13).map (lfnUnit m a)).takeWhile fun ch => ch ≠ 0 ∧ ch ≠ 0xFFFF).map fun ch =>
    if ch < 128 then UInt8.ofNat ch else 0x5F

def fat32MaxName : ℕ := 256
def fat32LfnMaxEntries : ℕ := 20
def lfnSeqMask : UInt8 := 0x1F

def emptyName : List UInt8 := List.replicate fat32MaxName 0

/-- `lfn_extract_chars`: the characters of an entry go to their place in the name buffer. -/
def lfnExtractChars (m : ByteMem) (a : ℕ) (buf : List UInt8) (seqIndex : ℕ) : List UInt8 :=
  (lfnUnits m a).zipIdx.foldl (fun buf p => buf.set (seqIndex * 13 + p.2) p.1) buf

/-! ### Scans along a directory -/

def dirEntries (b : Bpb) (clusters : List ℕ) : List (ℕ × ℕ) :=
  clusters.flatMap fun c => (List.range (entriesPerCluster b)).map fun i => (c, i)

def entryPos (b : Bpb) (p : ℕ × ℕ) : ℕ := clusterAddr b p.1 + 32 * p.2

/-- What a scan ends with: it was left with a value, the chain ended with the given link, or
the chain was too long or left the volume. -/
inductive ScanEnd (ρ : Type)
  | left (r : ρ)
  | ended (link : ℕ)
  | over

/-- A scan of the entries along the chain from `cur` on, over at most `fuel` clusters, none of
them above `limit`. -/
def scanChain {σ ρ : Type} (turn : σ → ℕ × ℕ → Except ρ σ) (v : Volume) (limit : ℕ) :
    ℕ → ℕ → σ → ScanEnd ρ
  | 0, cur, _ => if 2 ≤ cur ∧ cur < fat32Eoc then .over else .ended cur
  | fuel + 1, cur, s =>
    if 2 ≤ cur ∧ cur < fat32Eoc then
      if limit < cur then .over
      else
        match (dirEntries v.bpb [cur]).foldlM turn s with
        | .error r => .left r
        | .ok s => scanChain turn v limit fuel (getFatEntry v cur) s
    else .ended cur

def Bpb.lastValidCluster (b : Bpb) : ℕ :=
  max 2 (min 0x0FFFFFEF
    ((b.totalSectors - b.firstDataSector) / (if b.sectorsPerCluster = 0 then 1
      else b.sectorsPerCluster) + 1))

/-- One entry of a search by short name. The scan is left at the end mark and at a match. -/
def sfnTurn (v : Volume) (sfn : List UInt8) (_ : Unit) (p : ℕ × ℕ) :
    Except (Option (ℕ × ℕ)) Unit :=
  let a := entryPos v.bpb p
  if v.disk a = 0x00 then .error none
  else if deSkipped v.disk a then .ok ()
  else if bytes v.disk a 11 = sfn then .error (some p)
  else .ok ()

def sfnExistsInDir (v : Volume) (dirCluster : ℕ) (sfn : List UInt8) : Bool :=
  match scanChain (sfnTurn v sfn) v fat32Eoc chainFuel dirCluster () with
  | .left (some _) => true
  | _ => false

/-- `fat32_generate_sfn`: the return value and the short name. -/
def generateSfn (v : Volume) (dirCluster : ℕ) (name : List UInt8) : ℤ × List UInt8 :=
  let sfn := makeShortName name
  if needsLfn name then
    match (List.range' 1 99).find? fun tail => !sfnExistsInDir v dirCluster (withTail sfn tail) with
    | some tail => (0, withTail sfn tail)
    | none => (-1, withTail sfn 99)
  else (0, sfn)

/-! ### Scans that know long names -/

/-- The long name collected so far. -/
structure LfnScan where
  name : List UInt8
  active : Bool
  startCluster : ℕ
  chk : UInt8
  expectSeq : ℕ
  deriving DecidableEq

def LfnScan.start : LfnScan := ⟨emptyName, false, 0, 0, 0⟩

/-- An LFN entry of the scan: the run has to count down and to keep its checksum. -/
def LfnScan.collect (m : ByteMem) (cluster a : ℕ) (s : LfnScan) : LfnScan :=
  let seq := (m a &&& lfnSeqMask).toNat
  let chk := m (a + 13)
  let s := if m a &&& lfnLastEntry ≠ 0 then ⟨emptyName, true, cluster, chk, seq⟩ else s
  if s.active then
    if seq ≠ s.expectSeq ∨ chk ≠ s.chk ∨ seq < 1 ∨ fat32LfnMaxEntries < seq then
      { s with active := false }
    else { s with name := lfnExtractChars m a s.name (seq - 1), expectSeq := seq - 1 }
  else s

/-- Whether the collected run belongs to the short entry at `a`. -/
def LfnScan.binds (m : ByteMem) (a : ℕ) (s : LfnScan) : Bool :=
  s.active && s.expectSeq = 0 && lfnChecksum (bytes m a 11) = s.chk

def LfnScan.entryName (m : ByteMem) (a : ℕ) (s : LfnScan) : List UInt8 :=
  if s.binds m a && s.name.getD 0 0 ≠ 0 then (cString s.name).take (fat32MaxName - 1)
  else shortNameToStr (bytes m a 11)

/-- A match of the scan; `crosses` when its long name starts in an earlier cluster. -/
structure NameHit where
  entry : ℕ × ℕ
  crosses : Bool
  deriving DecidableEq

/-- One entry of a scan by name: `fat32_dir_find_child` and `fat32_delete_file_vol` look for
the long name, or else the short one, and also take the 8.3 form. -/
def nameTurn (v : Volume) (name : List UInt8) (s : LfnScan) (p : ℕ × ℕ) :
    Except (Option NameHit) LfnScan :=
  let a := entryPos v.bpb p
  if v.disk a = 0x00 then .error none
  else if v.disk a = 0xE5 then .ok { s with active := false }
  else if deAttr v.disk a = fat32AttrLfn then .ok (s.collect v.disk p.1 a)
  else if deAttr v.disk a &&& 0x08 ≠ 0 then .ok { s with active := false }
  else if strcasecmp (s.entryName v.disk a) name ∨ bytes v.disk a 11 = makeShortName name then
    .error (some ⟨p, s.binds v.disk a && s.startCluster ≠ p.1⟩)
  else .ok { s with active := false }

/-- `fat32_dir_find_child`: 1 for a child of that name, 0 for none, -1 for a bad chain. -/
def dirFindChild (v : Volume) (parentCluster : ℕ) (name : List UInt8) : ℤ :=
  if parentCluster < 2 ∨ v.bpb.lastValidCluster < parentCluster then -1
  else
    match scanChain (nameTurn v name) v v.bpb.lastValidCluster (v.bpb.lastValidCluster + 1)
      parentCluster LfnScan.start with
    | .left (some _) => 1
    | .left none => 0
    | .ended link => if link < 2 then -1 else 0
    | .over => -1

end ImpossibleOs.Fat32
