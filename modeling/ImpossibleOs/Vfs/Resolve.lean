import ImpossibleOs.Lib.ByteMem
import ImpossibleOs.Lib.Split

/-!
`vfs_resolve_path` (`src/kernel/fs/vfs.c`): a path against a working directory.

A C string is the list of its bytes before the terminator; reading past the
last of them yields the terminator. The output buffer is memory at an address,
in which the code keeps the path built so far as a stack of components; `oi` is
the index of its terminator.
-/

namespace ImpossibleOs.Vfs

open ByteMem Split

/-- The bytes of a C string. -/
structure CString where
  bytes : List UInt8
  ne_zero : ∀ b ∈ bytes, b ≠ 0

/-- Character `i` of a string. -/
def CString.at (s : CString) (i : ℕ) : UInt8 := s.bytes.getD i 0

def vfsMaxName : ℕ := 256
def vfsMaxPath : ℕ := 512

def backslash : UInt8 := 0x5C
def slash : UInt8 := 0x2F
def colon : UInt8 := 0x3A
def dot : UInt8 := 0x2E

def isSep (c : UInt8) : Bool := c = backslash || c = slash

def isLetter (c : UInt8) : Bool := 0x41 ≤ c && c ≤ 0x5A || 0x61 ≤ c && c ≤ 0x7A

/-- `(cc >= 'a') ? cc - 32 : cc`. -/
def driveOf (c : UInt8) : UInt8 := if 0x61 ≤ c then c - 32 else c

/-- `work[wi++] = b` with its bound: `work` has `VFS_MAX_PATH * 2` bytes. -/
def pushWork (work : List UInt8) (b : UInt8) : Option (List UInt8) :=
  if vfsMaxPath * 2 - 1 ≤ work.length then none else some (work ++ [b])

def pushAll (work l : List UInt8) : Option (List UInt8) := l.foldlM pushWork work

/-- Phase 1: the drive letter and the path relative to its root. -/
def assemble (cwd inp : CString) : Option (UInt8 × List UInt8) :=
  if inp.at 0 ≠ 0 ∧ inp.at 1 = colon then
    if isLetter (inp.at 0) then
      (pushAll [] (inp.bytes.drop 2)).map fun work => (driveOf (inp.at 0), work)
    else none
  else if cwd.at 0 = 0 ∨ cwd.at 1 ≠ colon then none
  else if inp.at 0 = backslash ∨ inp.at 0 = slash then
    (pushAll [] inp.bytes).map fun work => (driveOf (cwd.at 0), work)
  else do
    let work ← pushAll [] (cwd.bytes.drop 2)
    let work ← pushWork work backslash
    let work ← pushAll work inp.bytes
    return (driveOf (cwd.at 0), work)

/-! ### Normalising -/

def putByte (m : ByteMem) (a : ℕ) (b : UInt8) : ByteMem := fun x => if x = a then b else m x

/-- `while (oi > 2 && out[oi - 1] != '\\') oi--`. -/
def popBytes (m : ByteMem) (out : ℕ) : ℕ → ℕ
  | 0 => 0
  | oi + 1 => if 2 < oi + 1 ∧ m (out + oi) ≠ backslash then popBytes m out oi else oi + 1

/-- The index after the last component and its separator are dropped. -/
def popComponent (m : ByteMem) (out oi : ℕ) : ℕ :=
  let oi := popBytes m out oi
  if 2 < oi then oi - 1 else oi

/-- Write a separator, a component and the terminator. -/
def pushComponent (m : ByteMem) (out oi : ℕ) (comp : List UInt8) : ByteMem :=
  let m := putByte m (out + oi) backslash
  let m := storeBytes m (out + oi + 1) comp
  putByte m (out + oi + 1 + comp.length) 0

/-- Phase 2 on the rest `p` of the work buffer: the memory and, unless the path is refused, the
index of the terminator. Every iteration consumes a component. -/
def normalizeLoop (out outSize : ℕ) :
    (fuel : ℕ) → (p : List UInt8) → (m : ByteMem) → (oi : ℕ) → ByteMem × Option ℕ
  | 0, _, m, _ => (m, none)
  | fuel + 1, p, m, oi =>
    let start := p.dropWhile isSep
    if start = [] then (m, some oi)
    else
      let comp := start.takeWhile fun c => !isSep c
      let rest := start.dropWhile fun c => !isSep c
      if vfsMaxName ≤ comp.length then (m, none)
      else if comp = [dot] then normalizeLoop out outSize fuel rest m oi
      else if comp = [dot, dot] then
        let oi := popComponent m out oi
        normalizeLoop out outSize fuel rest (putByte m (out + oi) 0) oi
      else if outSize ≤ oi + 1 + comp.length then (m, none)
      else
        normalizeLoop out outSize fuel rest (pushComponent m out oi comp) (oi + 1 + comp.length)

/-- The memory afterwards and whether the call returned 0. -/
def vfsResolvePath (m : ByteMem) (cwd inp : Option CString) (out outSize : ℕ) : ByteMem × Bool :=
  match cwd, inp with
  | some cwd, some inp =>
    if out = 0 ∨ outSize < 4 then (m, false)
    else
      match assemble cwd inp with
      | none => (m, false)
      | some (drive, work) =>
        let m := putByte (putByte (putByte m out drive) (out + 1) colon) (out + 2) 0
        match normalizeLoop out outSize (work.length + 1) work m 2 with
        | (m, none) => (m, false)
        | (m, some oi) =>
          if oi = 2 then
            (putByte (putByte m (out + oi) backslash) (out + oi + 1) 0, true)
          else (m, true)
  | _, _ => (m, false)

/-! ### The component-wise normal form -/

/-- A component that is neither `.` nor `..`. -/
structure Proper (c : List UInt8) : Prop extends Piece isSep c where
  ne_dot : c ≠ [dot]
  ne_dotdot : c ≠ [dot, dot]

/-- What one component does to the stack of components; `..` at the root does nothing. -/
def applyComponent (stack : List (List UInt8)) (c : List UInt8) : List (List UInt8) :=
  if c = [dot] then stack
  else if c = [dot, dot] then stack.dropLast
  else stack ++ [c]

/-- The path of a stack of components. -/
def render (drive : UInt8) (stack : List (List UInt8)) : List UInt8 :=
  drive :: colon :: if stack = [] then [backslash] else join backslash stack

/-- A drive letter in upper case, proper components and a separator before each of them. -/
structure Canonical (path : List UInt8) (drive : UInt8) (stack : List (List UInt8)) : Prop where
  eq : path = render drive stack
  drive : 0x41 ≤ drive ∧ drive ≤ 0x5A
  proper : ∀ c ∈ stack, Proper c

/-- The drive and the components that an input names: those of the input alone when it has a drive
or starts with a separator, else those of the working directory and then its own. -/
def named (cwd inp : CString) : UInt8 × List (List UInt8) :=
  if inp.at 1 = colon then (driveOf (inp.at 0), components isSep (inp.bytes.drop 2))
  else if isSep (inp.at 0) then (driveOf (cwd.at 0), components isSep inp.bytes)
  else (driveOf (cwd.at 0),
    components isSep (cwd.bytes.drop 2) ++ components isSep inp.bytes)

def normalForm (cwd inp : CString) : List UInt8 :=
  render (named cwd inp).1 ((named cwd inp).2.foldl applyComponent [])

end ImpossibleOs.Vfs
