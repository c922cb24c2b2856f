import Mathlib.Data.List.DropRight
import ImpossibleOs.Vfs.Resolve

/-!
Calls on a parent directory (`src/kernel/fs/vfs.c`, `vfs_create`, `vfs_unlink` and
`vfs_rename_ex`).

Each of them splits a path at its last separator, copies what is before it to a
buffer, looks the components up and hands the node of the directory to its file
system. A lookup may change what the nodes handed out before stand for, so that the
file systems carry a state. Null paths are refused at once.
-/

namespace ImpossibleOs.Vfs

open Split

def vfsMaxDrives : ℕ := 26

/-- What the calls use of the file systems: the mounted roots and the hooks of a node, false where
the pointer is null. -/
structure FileSystems (σ N : Type) where
  root : Fin vfsMaxDrives → Option N
  finddir : σ → N → List UInt8 → σ × Option N
  hasFinddir : N → Bool
  hasCreate : N → Bool
  hasUnlink : N → Bool
  hasRename : N → Bool
  refCount : σ → N → ℕ

def driveIndex (letter : UInt8) : Option (Fin vfsMaxDrives) :=
  let letter := if 0x61 ≤ letter ∧ letter ≤ 0x7A then letter - 32 else letter
  if h : 0x41 ≤ letter.toNat ∧ letter.toNat ≤ 0x5A then
    some ⟨letter.toNat - 0x41, Nat.sub_lt_left_of_lt_add h.1 (Nat.lt_succ_of_le h.2)⟩
  else none

/-- `parse_drive`: the drive and the path behind `X:\`. -/
def parseDrive (path : CString) : Option (Fin vfsMaxDrives × List UInt8) :=
  if path.at 0 = 0 ∨ path.at 1 ≠ colon then none
  else if path.at 2 ≠ backslash ∧ path.at 2 ≠ slash ∧ path.at 2 ≠ 0 then none
  else
    (driveIndex (path.at 0)).map fun idx =>
      (idx, if path.at 2 = backslash ∨ path.at 2 = slash then path.bytes.drop 3
        else path.bytes.drop 2)

/-- `str_copy`: at most `max - 1` bytes and the terminator. -/
def strCopy (dst src : List UInt8) (max : ℕ) : List UInt8 :=
  let copied := src.take (max - 1)
  copied ++ 0 :: dst.drop (copied.length + 1)

def cString (buf : List UInt8) : List UInt8 := buf.takeWhile fun b => b ≠ 0

/-- The loop of `walk_path`; `comp` is the component read so far. -/
def walkPath {σ N : Type} (fs : FileSystems σ N) (s : σ) (current : N) :
    (p : List UInt8) → (comp : List UInt8) → σ × Option N
  | [], comp =>
    if comp = [] then (s, some current)
    else if fs.hasFinddir current then fs.finddir s current comp
    else (s, none)
  | c :: p, comp =>
    if isSep c then
      if comp = [] then walkPath fs s current p []
      else if fs.hasFinddir current then
        match fs.finddir s current comp with
        | (s, none) => (s, none)
        | (s, some child) => walkPath fs s child p []
      else (s, none)
    else walkPath fs s current p (if comp.length < vfsMaxName - 1 then comp ++ [c] else comp)

/-- The search for the last separator: the index of the name behind it. -/
def nameLoop : (rest : List UInt8) → (p name : ℕ) → ℕ
  | [], _, name => name
  | c :: rest, p, name => nameLoop rest (p + 1) (if isSep c then p + 1 else name)

/-- `len`, `parent_path` and `name`. -/
structure PathSplit where
  len : ℕ
  parentPath : List UInt8
  name : List UInt8

/-- The split of a path, or `none` when it writes outside the buffer. -/
def splitPath (buf rest : List UInt8) : Option PathSplit :=
  let start := nameLoop rest 0 0
  let len := start % 2 ^ 32
  if 0 < len then
    let buf := strCopy buf rest (if len < vfsMaxPath then len + 1 else vfsMaxPath)
    if len - 1 < buf.length then some ⟨len, buf.set (len - 1) 0, rest.drop start⟩ else none
  else some ⟨len, buf, rest.drop start⟩

/-- What a call comes to: a refusal, a write outside the buffer, or the call of the file system
in its state, with a parent and the names. -/
inductive Outcome (σ N : Type) where
  | refused
  | outOfBounds
  | call (s : σ) (parent : N) (names : List (List UInt8))

section
variable {σ N : Type} (fs : FileSystems σ N)

def walkParent (s : σ) (root : N) (sp : PathSplit) : σ × Option N :=
  if 0 < sp.len then walkPath fs s root (cString sp.parentPath) [] else (s, some root)

def mountOf (path : CString) : Option (N × List UInt8) :=
  match parseDrive path with
  | none => none
  | some (idx, rest) => (fs.root idx).map fun root => (root, rest)

/-- `vfs_create`; `buf` is what the stack holds. -/
def vfsCreate (s : σ) (buf : List UInt8) (path : CString) : Outcome σ N :=
  match mountOf fs path with
  | none => .refused
  | some (root, rest) =>
    match splitPath buf rest with
    | none => .outOfBounds
    | some sp =>
      match walkParent fs s root sp with
      | (_, none) => .refused
      | (s, some parent) => if fs.hasCreate parent then .call s parent [sp.name] else .refused

/-- The part of `vfs_unlink` behind the first lookup: an open file stays, and the parent is looked
up again. -/
def unlinkIn (s : σ) (root parent : N) (sp : PathSplit) : Outcome σ N :=
  if !fs.hasUnlink parent then .refused
  else if fs.hasFinddir parent then
    match fs.finddir s parent sp.name with
    | (s, target) =>
      if target.any fun t => 0 < fs.refCount s t then .refused
      else
        match walkParent fs s root sp with
        | (_, none) => .refused
        | (s, some parent) =>
          if fs.hasUnlink parent then .call s parent [sp.name] else .refused
  else .call s parent [sp.name]

def vfsUnlink (s : σ) (buf : List UInt8) (path : CString) : Outcome σ N :=
  match mountOf fs path with
  | none => .refused
  | some (root, rest) =>
    match splitPath buf rest with
    | none => .outOfBounds
    | some sp =>
      match walkParent fs s root sp with
      | (_, none) => .refused
      | (s, some parent) => unlinkIn fs s root parent sp

/-- The part of `vfs_rename_ex` behind the lookups. -/
def renameIn (s : σ) (root parent : N) (oldName : List UInt8) (new : PathSplit)
    (replaceExisting : Bool) : Outcome σ N :=
  if !fs.hasRename parent then .refused
  else if replaceExisting && fs.hasFinddir parent then
    match fs.finddir s parent new.name with
    | (s, dst) =>
      if dst.any fun t => 0 < fs.refCount s t then .refused
      else
        match walkParent fs s root new with
        | (_, none) => .refused
        | (s, some parent) =>
          if fs.hasRename parent then .call s parent [oldName, new.name] else .refused
  else .call s parent [oldName, new.name]

/-- `vfs_rename_ex`: both paths go through the same buffer. -/
def vfsRename [DecidableEq N] (s : σ) (buf : List UInt8) (oldPath newPath : CString)
    (replaceExisting : Bool) : Outcome σ N :=
  match parseDrive oldPath, parseDrive newPath with
  | some (oldIdx, oldRest), some (newIdx, newRest) =>
    if oldIdx ≠ newIdx then .refused
    else
      match fs.root oldIdx with
      | none => .refused
      | some root =>
        match splitPath buf oldRest with
        | none => .outOfBounds
        | some old =>
          let (s, oldParent) := walkParent fs s root old
          match splitPath old.parentPath newRest with
          | none => .outOfBounds
          | some new =>
            match oldParent, walkParent fs s root new with
            | some oldParent, (s, some newParent) =>
              if oldParent ≠ newParent then .refused
              else renameIn fs s root oldParent old.name new replaceExisting
            | _, _ => .refused
  | _, _ => .refused

end

/-! ### What the calls are to do -/

def dirPart (rest : List UInt8) : List UInt8 := rest.rdropWhile fun c => !isSep c

def dirComponents (rest : List UInt8) : List (List UInt8) := components isSep (dirPart rest)

def lastName (rest : List UInt8) : List UInt8 := rest.rtakeWhile fun c => !isSep c

structure Meaning (σ N Obj : Type) where
  root : Fin vfsMaxDrives → Obj
  child : Obj → List UInt8 → Option Obj
  standsFor : σ → N → Option Obj

/-- The object that components lead to. -/
def Meaning.denoted {σ N Obj : Type} (m : Meaning σ N Obj) (idx : Fin vfsMaxDrives)
    (comps : List (List UInt8)) : Option Obj := comps.foldlM m.child (m.root idx)

/-- Root nodes stay root nodes, and a lookup that finds a node finds the child of that name. Other
nodes may stand for something else afterwards. -/
structure Lawful {σ N Obj : Type} (fs : FileSystems σ N) (m : Meaning σ N Obj) : Prop where
  root : ∀ s idx n, fs.root idx = some n → m.standsFor s n = some (m.root idx)
  finddir : ∀ s n name obj n', m.standsFor s n = some obj →
    (fs.finddir s n name).2 = some n' →
    ∃ child, m.child obj name = some child ∧
      m.standsFor (fs.finddir s n name).1 n' = some child

/-- A call does nothing, or its file system is called on the directory before the last separator
of each path, with the name behind it. -/
def Acts {σ N Obj : Type} (m : Meaning σ N Obj) (paths : List CString) : Outcome σ N → Prop
  | .refused => True
  | .outOfBounds => False
  | .call s parent names => List.Forall₂ (fun path name => ∃ idx rest obj,
      parseDrive path = some (idx, rest) ∧ name = lastName rest ∧
        m.denoted idx (dirComponents rest) = some obj ∧ m.standsFor s parent = some obj)
      paths names

end ImpossibleOs.Vfs
