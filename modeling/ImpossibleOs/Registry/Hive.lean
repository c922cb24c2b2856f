import ImpossibleOs.Lib.ByteMem
import ImpossibleOs.Registry.Api

/-!
Hive files: how a subtree of the registry is written to a file and read back.

A file is a header of one page and the records of the keys, depth first. The
checksum covers the header only. Volatile keys and what is below them are left
out of the records and of the totals in the header. The checksum function is a
parameter; the kernel's is `kcrc32`.
-/

namespace ImpossibleOs.Registry

open LeBytes

def hiveMagic : ℕ := 0x48474552
def hiveVersion : ℕ := 1
def hiveHeaderSize : ℕ := 4096
def hiveRootNameMax : ℕ := 64
def hiveMaxParseDepth : ℕ := 12

/-- An entry of the table `k_crc32_ieee`. -/
def crc32Entry (i : ℕ) : ℕ :=
  Nat.repeat (fun c => if c % 2 = 1 then c / 2 ^^^ 0xEDB88320 else c / 2) 8 i

def kcrc32 (data : List UInt8) : UInt32 :=
  UInt32.ofNat (data.foldl (fun c b => (c >>> 8) ^^^ crc32Entry ((c ^^^ b.toNat) &&& 0xFF))
    0xFFFFFFFF ^^^ 0xFFFFFFFF)

example : kcrc32 [0x31, 0x32, 0x33, 0x34, 0x35, 0x36, 0x37, 0x38, 0x39] = 0xCBF43926 := by
  decide

/-! ### Writing -/

/-- `hive_buf_write_*`: nothing is written that does not fit. -/
def emit (cap : ℕ) (buf bytes : List UInt8) : Option (List UInt8) :=
  if cap - buf.length < bytes.length then none else some (buf ++ bytes)

def nameBytes (name : Name) : List UInt8 := name.map Subtype.val

/-- The children of a key in the order of the chains, without the volatile ones. -/
def savedChildren (t : Tree) (k : ℕ) : List ℕ :=
  ((List.range childBuckets).flatMap (t.key k).children).filter fun c => !(t.key c).isVolatile

/-- `hive_count`: keys and values. -/
def hiveCount (t : Tree) : ℕ → ℕ → ℕ × ℕ
  | 0, _ => (0, 0)
  | fuel + 1, k =>
    (savedChildren t k).foldl
      (fun n c => (n.1 + (hiveCount t fuel c).1, n.2 + (hiveCount t fuel c).2))
      (1, (t.key k).values.length)

def serializeValues (cap : ℕ) : List Value → List UInt8 → Option (List UInt8)
  | [], buf => some buf
  | v :: vs, buf => do
    let buf ← emit cap buf (le 2 v.name.length)
    let buf ← emit cap buf (nameBytes v.name)
    let buf ← emit cap buf (le 4 v.type.toNat)
    let buf ← emit cap buf (le 4 v.dataSize)
    let buf ← emit cap buf v.bytes
    serializeValues cap vs buf

def hiveSerializeKey (t : Tree) (cap : ℕ) : ℕ → ℕ → List UInt8 → Option (List UInt8)
  | 0, _, buf => some buf
  | fuel + 1, k, buf => do
    let buf ← emit cap buf (le 2 (t.key k).name.length)
    let buf ← emit cap buf (nameBytes (t.key k).name)
    let buf ← emit cap buf (le 2 (t.key k).valueCount)
    let buf ← emit cap buf (le 2 (savedChildren t k).length)
    let buf ← serializeValues cap (t.key k).values buf
    (savedChildren t k).foldlM (fun buf c => hiveSerializeKey t cap fuel c buf) buf

structure HiveHeader where
  magic : ℕ
  version : ℕ
  checksum : ℕ
  timestamp : ℕ
  rootName : List UInt8
  totalKeys : ℕ
  totalValues : ℕ
  dataOffset : ℕ
  dataSize : ℕ

/-- The page of a header; the root name takes 64 bytes. -/
def HiveHeader.bytes (h : HiveHeader) : List UInt8 :=
  le 4 h.magic ++ le 4 h.version ++ le 4 h.checksum ++ le 4 0 ++ le 8 h.timestamp ++ h.rootName ++
    le 4 h.totalKeys ++ le 4 h.totalValues ++ le 4 h.dataOffset ++ le 4 h.dataSize ++
    List.replicate 3992 0

/-- The first 63 characters of the name, and zeros. -/
def rootNameField (name : Name) : List UInt8 :=
  let text := nameBytes (name.take (hiveRootNameMax - 1))
  text ++ List.replicate (hiveRootNameMax - text.length) 0

/-- `cap` of the buffer that is taken for so many keys and values. -/
def hiveBufCap (totalKeys totalValues : ℕ) : ℕ :=
  let size := max (hiveHeaderSize + totalKeys * 256 + totalValues * 768) (hiveHeaderSize + 4096)
  (size + 4095) / 4096 * 4096 - hiveHeaderSize

/-- What `hive_save` hands to the file system, in one write; `none` when it gives up before. -/
def hiveSave (crc : List UInt8 → UInt32) (t : Tree) (root timestamp : ℕ) :
    Option (List UInt8) := do
  let total := hiveCount t keyPoolSize root
  let payload ← hiveSerializeKey t (hiveBufCap total.1 total.2) keyPoolSize root []
  let header : HiveHeader :=
    ⟨hiveMagic, hiveVersion, 0, timestamp, rootNameField (t.key root).name, total.1, total.2,
      hiveHeaderSize, payload.length⟩
  let checksum := (crc header.bytes).toNat
  return { header with checksum := checksum }.bytes ++ payload

/-! ### Reading -/

structure Cursor where
  rest : List UInt8
  tree : Tree
  parsedKeys : ℕ
  parsedValues : ℕ
  loadedValues : ℕ

def Cursor.read (c : Cursor) (n : ℕ) : Option (List UInt8 × Cursor) :=
  if c.rest.length < n then none else some (c.rest.take n, { c with rest := c.rest.drop n })

/-- `hive_parse_value`; there is no key when nothing is to be applied. -/
def hiveParseValue (key : Option ℕ) (c : Cursor) : Option Cursor := do
  let (len, c) ← c.read 2
  if maxValueName < ofLe len then none
  else
    let (name, c) ← c.read (ofLe len)
    let (type, c) ← c.read 4
    let (size, c) ← c.read 4
    if maxValueSize < ofLe size then none
    else
      let c := { c with parsedValues := c.parsedValues + 1 }
      match key with
      | none =>
        let (_, c) ← c.read (ofLe size)
        return c
      | some k =>
        let put (data : List UInt8) (v : Value) : Value :=
          v.put (UInt32.ofNat (ofLe type)) (some data) (ofLe size)
        match findValue (c.tree.key k).values (cString name) with
        | some _ =>
          let (data, c) ← c.read (ofLe size)
          let values := updateValue (cString name) (put data) (c.tree.key k).values
          return { c with
            tree := c.tree.setKey k { c.tree.key k with values := values }
            loadedValues := c.loadedValues + 1 }
        | none =>
          let (t, v) ← c.tree.allocValue (cString name) (UInt32.ofNat (ofLe type))
          let (data, c) ← { c with tree := t }.read (ofLe size)
          return { c with
            tree := c.tree.setKey k { c.tree.key k with
              values := put data v :: (c.tree.key k).values
              valueCount := (c.tree.key k).valueCount + 1 }
            loadedValues := c.loadedValues + 1 }

def times {α : Type} (f : α → Option α) : ℕ → α → Option α
  | 0, a => some a
  | n + 1, a => (f a).bind (times f n)

/-- The key of that name below `parent`, found or created. -/
def Cursor.child (c : Cursor) (parent : ℕ) (name : Name) : Option (Cursor × ℕ) :=
  match c.tree.findChild parent name with
  | some k => some (c, k)
  | none =>
    match c.tree.createChild parent name with
    | (_, none) => none
    | (t, some k) => some ({ c with tree := t }, k)

/-- `hive_parse_key` for a key that may have so many levels of keys from it on. -/
def hiveParseKey : ℕ → Option ℕ → Cursor → Option Cursor
  | 0, _, _ => none
  | levels + 1, parent, c => do
    let (len, c) ← c.read 2
    if maxKeyName < ofLe len then none
    else
      let (name, c) ← c.read (ofLe len)
      let (valCount, c) ← c.read 2
      let (childCount, c) ← c.read 2
      let c := { c with parsedKeys := c.parsedKeys + 1 }
      match parent with
      | none =>
        let c ← times (hiveParseValue none) (ofLe valCount) c
        times (hiveParseKey levels none) (ofLe childCount) c
      | some p =>
        let (c, k) ← c.child p (cString name)
        let c ← times (hiveParseValue (some k)) (ofLe valCount) c
        times (hiveParseKey levels (some k)) (ofLe childCount) c

/-- `hive_parse_payload`; the records are applied to `root`, if there is one. -/
def hiveParsePayload (root : Option ℕ) (t : Tree) (payload : List UInt8) : Option Cursor := do
  let c : Cursor := ⟨payload, t, 0, 0, 0⟩
  let (len, c) ← c.read 2
  if maxKeyName < ofLe len then none
  else
    let (_, c) ← c.read (ofLe len)
    let (valCount, c) ← c.read 2
    let (childCount, c) ← c.read 2
    let c := { c with parsedKeys := c.parsedKeys + 1 }
    let c ← times (hiveParseValue root) (ofLe valCount) c
    let c ← times (hiveParseKey hiveMaxParseDepth root) (ofLe childCount) c
    if c.rest = [] then return c else none

def field (page : List UInt8) (offset n : ℕ) : ℕ := ofLe ((page.drop offset).take n)

/-- `hive_read_valid_header`: the header page of a file, if it is a good one. -/
def hiveReadValidHeader (crc : List UInt8 → UInt32) (file : List UInt8) :
    Option (List UInt8) :=
  let page := file.take hiveHeaderSize
  if page.length < hiveHeaderSize then none
  else if field page 0 4 ≠ hiveMagic then none
  else if field page 4 4 ≠ hiveVersion then none
  else if field page 96 4 ≠ hiveHeaderSize then none
  else if (crc (page.take 8 ++ le 4 0 ++ page.drop 12)).toNat ≠ field page 8 4 then none
  else some page

/-- `hive_read_validated_payload` for a header page: the payload with the keys and values in it. -/
def hiveReadValidatedPayload (page file : List UInt8) : Option (List UInt8 × ℕ × ℕ) := do
  let size := field page 100 4
  if size = 0 ∨ 1024 * 1024 < size then none
  else
    let data := (file.drop hiveHeaderSize).take size
    if data.length < size then none
    else
      let c ← hiveParsePayload none ⟨fun _ => Key.blank, 0, 0⟩ data
      if c.parsedKeys ≠ field page 88 4 ∨ c.parsedValues ≠ field page 92 4 then none
      else return (data, c.parsedKeys, c.parsedValues)

/-- `hive_load`: the tree after it and the number of values loaded. -/
def hiveLoad (crc : List UInt8 → UInt32) (file : List UInt8) (t : Tree) (root : ℕ) :
    Option (Tree × ℕ) := do
  let page ← hiveReadValidHeader crc file
  let (data, keys, values) ← hiveReadValidatedPayload page file
  if 0 < keys ∧ keyPoolSize - t.keyNext < keys - 1 then none
  else if valuePoolSize - t.valueNext < values then none
  else
    let c ← hiveParsePayload (some root) t data
    return (c.tree, c.loadedValues)

end ImpossibleOs.Registry
