import ImpossibleOs.Registry.Kcb

/-!
The calls of the registry that build, search, rename and take down keys.

Notifications, time stamps, dirty flags of hives and security descriptors are
left out: none of them decides where a key is linked. Recursions over a subtree
go down the pool, so its size is fuel enough.
-/

namespace ImpossibleOs.Registry

open Function

inductive Status
  | success
  | fileNotFound
  | accessDenied
  | invalidHandle
  | outOfMemory
  | invalidParameter
  | alreadyExists
  deriving DecidableEq, Repr

/-- A predefined root, or a slot of the handle pool. -/
inductive Hkey
  | classesRoot
  | currentUser
  | localMachine
  | users
  | currentConfig
  | handle (slot : ℕ)
  deriving DecidableEq, Repr

/-! ### Roots and handles -/

def ascii (text : String) : Name := cString (text.toList.map fun c => UInt8.ofNat c.toNat)

def handlePoolSize : ℕ := 128
def keyAllAccess : UInt32 := 0xF003F
def keyRead : UInt32 := 0x20019
def keyWrite : UInt32 := 0x20006
def keySetValue : UInt32 := 0x0002
def keyCreateSubKey : UInt32 := 0x0004
def deleteRight : UInt32 := 0x00010000
def maximumAllowed : UInt32 := 0x02000000

def effectiveAccess (samDesired : UInt32) : UInt32 :=
  let out := samDesired
  let out := if samDesired &&& 0x80000000 ≠ 0 then out ||| keyRead else out
  let out := if samDesired &&& 0x40000000 ≠ 0 then out ||| keyWrite else out
  let out := if samDesired &&& 0x20000000 ≠ 0 then out ||| keyRead else out
  let out := if samDesired &&& 0x10000000 ≠ 0 then out ||| keyAllAccess else out
  let out := out &&& 0x0FFFFFFF
  if out = 0 ∨ samDesired &&& maximumAllowed ≠ 0 then keyAllAccess else out

namespace State

def setTree (s : State) (t : Tree) : State := { s with tree := t }

/-- `HKU\{current_user}`, created when it is missing. -/
def resolveHkcu (s : State) : State × Option ℕ :=
  match s.tree.findChild rootHku s.currentUser with
  | some k => (s, some k)
  | none =>
    let r := s.tree.createChild rootHku s.currentUser
    (s.setTree r.1, r.2)

/-- `HKLM\SOFTWARE\Classes` -/
def resolveHkcr (s : State) : Option ℕ :=
  (s.tree.findChild rootHklm (ascii "SOFTWARE")).bind fun sw =>
    s.tree.findChild sw (ascii "Classes")

def handleKey (s : State) (slot : ℕ) : Option ℕ :=
  (s.handles slot).bind fun h => h.key.bind fun k =>
    if (s.tree.key k).name = [] then none else some k

def resolveKey (s : State) : Hkey → State × Option ℕ
  | .currentUser => s.resolveHkcu
  | .classesRoot => (s, s.resolveHkcr)
  | .localMachine => (s, some rootHklm)
  | .users => (s, some rootHku)
  | .currentConfig => (s, some rootHkcc)
  | .handle slot => (s, s.handleKey slot)

def checkAccess (s : State) (hKey : Hkey) (mask : UInt32) : Status :=
  match hKey with
  | .handle slot =>
    match s.handleKey slot, s.handles slot with
    | some _, some h => if h.access &&& mask = mask then .success else .accessDenied
    | _, _ => .invalidHandle
  | _ => .success

def sourceAccess (s : State) : Hkey → UInt32
  | .handle slot => ((s.handles slot).map Handle.access).getD 0
  | _ => keyAllAccess

def allocHandle (s : State) (key : Option ℕ) (access : UInt32) : Option (State × ℕ) :=
  ((List.range handlePoolSize).find? fun i => (s.handles i).isNone).map fun i =>
    ({ s with handles := update s.handles i (some ⟨key, access⟩) }, i)

def freeHandle (s : State) (slot : ℕ) : State :=
  { s with handles := update s.handles slot none }

/-- `handle->key = target` -/
def bindHandle (s : State) (slot k : ℕ) : State :=
  let hd := (s.handles slot).map fun h => { h with key := some k }
  { s with handles := update s.handles slot hd }

end State

def maxKeyDepth : ℕ := 512

def validateFrom (depth comp : ℕ) : Name → Bool
  | [] => (if 0 < comp then depth + 1 else depth) ≤ maxKeyDepth
  | c :: cs =>
    if c = backslash then validateFrom (if 0 < comp then depth + 1 else depth) 0 cs
    else if maxKeyName < comp + 1 then false
    else validateFrom depth (comp + 1) cs

def validatePathLimits (path : Name) : Bool := validateFrom 0 0 path

/-- The loop of `reg_count_missing_components`; no key to search below once one is missing. -/
def missingFrom (t : Tree) : ℕ → Name → Option ℕ → ℕ → ℕ
  | 0, _, _, missing => missing
  | fuel + 1, p, cur, missing =>
    let component := (p.takeWhile (· ≠ backslash)).take maxKeyName
    let rest := p.drop component.length
    if rest ≠ [] ∧ rest.head? ≠ some backslash then missing
    else if component = [] then missing
    else
      let child := cur.bind fun k => t.findChild k component
      let missing := if child.isSome then missing else missing + 1
      let rest := rest.dropWhile (· = backslash)
      if rest = [] then missing else missingFrom t fuel rest child missing

def countMissingComponents (t : Tree) (base : ℕ) (path : Name) : ℕ :=
  missingFrom t (path.length + 1) (if path.head? = some backslash then path.drop 1 else path)
    (some base) 0

namespace State

def target (s : State) (base : ℕ) (path : Name) (create : Bool) : State × Option ℕ :=
  if path = [] then (s, some base) else s.walkPath base path create

def openKey (s : State) (hKey : Hkey) (path : Name) (samDesired : UInt32) :
    State × Status × Option ℕ :=
  if validatePathLimits path = false then (s, .invalidParameter, none)
  else
    match s.resolveKey hKey with
    | (s, none) => (s, .invalidHandle, none)
    | (s, some base) =>
      match s.target base path false with
      | (s, none) => (s, .fileNotFound, none)
      | (s, some k) =>
        match s.allocHandle (some k) (effectiveAccess samDesired &&& s.sourceAccess hKey) with
        | none => (s, .outOfMemory, none)
        | some (s, slot) => (s, .success, some slot)

def mayCreate (s : State) (hKey : Hkey) (base : ℕ) (path : Name) : Status :=
  match s.checkAccess hKey keyCreateSubKey with
  | .success =>
    if keyPoolSize - s.tree.keyNext < countMissingComponents s.tree base path then .outOfMemory
    else .success
  | e => e

def createKey (s : State) (hKey : Hkey) (path : Name) (isVolatile : Bool) (samDesired : UInt32) :
    State × Status × Option ℕ :=
  match s.resolveKey hKey with
  | (s, none) => (s, .invalidHandle, none)
  | (s, some base) =>
    if validatePathLimits path = false then (s, .invalidParameter, none)
    else
      match s.target base path false with
      | (s, existing) =>
        match if existing.isNone ∧ path ≠ [] then s.mayCreate hKey base path else .success with
        | .success =>
          match s.allocHandle none (effectiveAccess samDesired &&& s.sourceAccess hKey) with
          | none => (s, .outOfMemory, none)
          | some (s, slot) =>
            match s.target base path true with
            | (s, none) => (s.freeHandle slot, .outOfMemory, none)
            | (s, some k) =>
              let s := if existing.isNone ∧ isVolatile then
                  s.setTree (s.tree.setKey k { s.tree.key k with isVolatile := true })
                else s
              (s.bindHandle slot k, .success, some slot)
        | e => (s, e, none)

def closeKey (s : State) : Hkey → State
  | .handle slot =>
    let s :=
      match (s.handles slot).bind Handle.key with
      | none => s
      | some k =>
        match (s.tree.key k).parent with
        | none => s
        | some p => s.kcbInsert p k
    s.freeHandle slot
  | _ => s

/-! ### Deleting -/

/-- Free the values of a key, unlink it, and mark its slot as freed. -/
def dropKey (s : State) (k : ℕ) : State :=
  let s := (s.setTree ((s.tree.freeValues k).detach k)).kcbPurgeKey k
  s.setTree (s.tree.tombstone k)

def deleteKey (s : State) (hKey : Hkey) (path : Name) : State × Status :=
  match s.resolveKey hKey with
  | (s, none) => (s, .invalidHandle)
  | (s, some base) =>
    match s.checkAccess hKey deleteRight with
    | .success =>
      if path = [] ∨ validatePathLimits path = false then (s, .invalidParameter)
      else
        match s.walkPath base path false with
        | (s, none) => (s, .fileNotFound)
        | (s, some k) =>
          if 0 < (s.tree.key k).childCount then (s, .accessDenied)
          else (s.dropKey k, .success)
    | e => (s, e)

def deleteKeyDirect (s : State) (k : ℕ) : State × Status :=
  if 0 < (s.tree.key k).childCount then (s, .accessDenied)
  else if (s.tree.key k).parent = none then (s, .accessDenied)
  else (s.dropKey k, .success)

/-- `NtDeleteKey`, which takes a handle of the key itself. -/
def ntDeleteKey (s : State) (slot : ℕ) : State × Status :=
  match s.handleKey slot with
  | none => (s, .invalidHandle)
  | some k =>
    match s.checkAccess (.handle slot) deleteRight with
    | .success =>
      match s.deleteKeyDirect k with
      | (s, .success) => (s.closeKey (.handle slot), .success)
      | r => r
    | e => (s, e)

/-- Take down what hangs below `k`, chain by chain. -/
def deleteChildren (del : State → ℕ → State) (s : State) (k : ℕ) : State :=
  let s := (List.range childBuckets).foldl (fun s b =>
    let s := ((s.tree.key k).children b).foldl del s
    s.setTree (s.tree.setKey k { s.tree.key k with
      children := update (s.tree.key k).children b [] })) s
  s.setTree (s.tree.setKey k { s.tree.key k with childCount := 0 })

/-- `reg_delete_subtree` -/
def deleteSubtree : ℕ → State → ℕ → State
  | 0, s, _ => s
  | fuel + 1, s, k =>
    let s := deleteChildren (deleteSubtree fuel) s k
    let s := (s.setTree (s.tree.freeValues k)).kcbPurgeKey k
    s.setTree (s.tree.tombstone k)

def unloadHive (s : State) (k : ℕ) : State × Status :=
  if (s.tree.key k).parent = none then (s, .accessDenied)
  else ((deleteChildren (deleteSubtree keyPoolSize) s k).dropKey k, .success)

def ntUnloadKey (s : State) (root : Hkey) (path : Name) : State × Status :=
  if path = [] then (s, .accessDenied)
  else
    match s.openKey root path keyAllAccess with
    | (s, _, some slot) =>
      match (s.handles slot).bind Handle.key with
      | none => (s.closeKey (.handle slot), .invalidHandle)
      | some k =>
        let r := s.unloadHive k
        (r.1.closeKey (.handle slot), r.2)
    | (s, e, none) => (s, e)

def deleteTree (s : State) (hKey : Hkey) (path : Name) : State × Status :=
  match s.resolveKey hKey with
  | (s, none) => (s, .invalidHandle)
  | (s, some base) =>
    match s.checkAccess hKey deleteRight with
    | .success =>
      if validatePathLimits path = false then (s, .invalidParameter)
      else if path = [] then
        let s := deleteChildren (deleteSubtree keyPoolSize) s base
        (s.setTree (s.tree.freeValues base), .success)
      else
        match s.walkPath base path false with
        | (s, none) => (s, .fileNotFound)
        | (s, some k) =>
          (deleteSubtree keyPoolSize (s.setTree (s.tree.detach k)) k, .success)
    | e => (s, e)

def isStructuralKey (s : State) (k : ℕ) : Bool :=
  match (s.tree.key k).parent with
  | none => false
  | some p => p = rootHklm ∨ p = rootHku ∨ s.resolveHkcr = some k

def renameKeyDirect (s : State) (k : ℕ) (newName : Name) : State × Status :=
  if newName = [] then (s, .invalidParameter)
  else
    match (s.tree.key k).parent with
    | none => (s, .accessDenied)
    | some parent =>
      if s.isStructuralKey k then (s, .accessDenied)
      else
        let s := s.kcbPurgeKey k
        if backslash ∈ newName ∨ maxKeyName < newName.length then (s, .invalidParameter)
        else
          match s.tree.findChild parent newName with
          | some existing =>
            if existing ≠ k then (s, .alreadyExists)
            else (s.setTree (s.tree.rename k newName), .success)
          | none =>
            (s.setTree (((s.tree.removeChild parent k).rename k newName).addChild parent k),
              .success)

/-- Whether another key below the same parent has the name. -/
def nameTaken (s : State) (k : ℕ) (newName : Name) : Bool :=
  match (s.tree.key k).parent with
  | none => false
  | some p => (s.tree.findChild p newName).any (· ≠ k)

def renameKey (s : State) (hKey : Hkey) (path newName : Name) : State × Status :=
  match s.resolveKey hKey with
  | (s, none) => (s, .invalidHandle)
  | (s, some base) =>
    if newName = [] ∨ maxKeyName < newName.length then (s, .invalidParameter)
    else
      match s.checkAccess hKey deleteRight with
      | .success =>
        if validatePathLimits path = false then (s, .invalidParameter)
        else
          match s.target base path false with
          | (s, none) => (s, .fileNotFound)
          | (s, some k) =>
            if s.nameTaken k newName then (s, .alreadyExists)
            else s.renameKeyDirect k newName
      | e => (s, e)

def ntRenameKey (s : State) (slot : ℕ) (newName : Name) : State × Status :=
  match s.handleKey slot with
  | none => (s, .invalidHandle)
  | some k =>
    match s.checkAccess (.handle slot) deleteRight with
    | .success => s.renameKeyDirect k newName
    | e => (s, e)

end State

/-! ### Values and copies -/

namespace Tree

def setValueDirect (t : Tree) (k : ℕ) (name : Name) (type : UInt32) (data : Option (List UInt8))
    (size : ℕ) : Tree × Status :=
  if maxValueSize < size then (t, .invalidParameter)
  else
    match findValue (t.key k).values name with
    | some _ =>
      let values := updateValue name (fun v => v.put type data size) (t.key k).values
      (t.setKey k { t.key k with values := values }, .success)
    | none =>
      match t.allocValue name type with
      | none => (t, .outOfMemory)
      | some (t, v) =>
        (t.setKey k { t.key k with
          values := v.put type data size :: (t.key k).values
          valueCount := (t.key k).valueCount + 1 }, .success)

def copyValues (t : Tree) (dst : ℕ) : List Value → Tree × Status
  | [] => (t, .success)
  | v :: vs =>
    match t.setValueDirect dst v.name v.type (some v.bytes) v.dataSize with
    | (t, .success) => t.copyValues dst vs
    | r => r

def copyChain (copy : Tree → ℕ → ℕ → Tree × Status) (dst : ℕ) : List ℕ → Tree → Tree × Status
  | [], t => (t, .success)
  | c :: cs, t =>
    match t.createChild dst (t.key c).name with
    | (t, none) => (t, .outOfMemory)
    | (t, some dc) =>
      match copy t c dc with
      | (t, .success) => copyChain copy dst cs t
      | r => r

def copyBuckets (copy : Tree → ℕ → ℕ → Tree × Status) (src dst : ℕ) :
    List ℕ → Tree → Tree × Status
  | [], t => (t, .success)
  | b :: bs, t =>
    match copyChain copy dst ((t.key src).children b) t with
    | (t, .success) => copyBuckets copy src dst bs t
    | r => r

def copySubtree : ℕ → Tree → ℕ → ℕ → Tree × Status
  | 0, t, _, _ => (t, .success)
  | fuel + 1, t, src, dst =>
    match t.copyValues dst (t.key src).values with
    | (t, .success) => copyBuckets (copySubtree fuel) src dst (List.range childBuckets) t
    | r => r

/-- `k` is `a` or below it. -/
def isBelow (t : Tree) (a : ℕ) : ℕ → ℕ → Bool
  | 0, _ => false
  | fuel + 1, k =>
    if k = a then true
    else
      match (t.key k).parent with
      | none => false
      | some p => t.isBelow a fuel p

/-- The keys below `k`, and the values there and at `k`. -/
def countSubtree (t : Tree) : ℕ → ℕ → ℕ × ℕ
  | 0, _ => (0, 0)
  | fuel + 1, k =>
    ((List.range childBuckets).flatMap (t.key k).children).foldl
      (fun n c => (n.1 + 1 + (t.countSubtree fuel c).1, n.2 + (t.countSubtree fuel c).2))
      (0, (t.key k).values.length)

end Tree

namespace State

def copyTree (s : State) (hKeySrc : Hkey) (path : Name) (hKeyDest : Hkey) : State × Status :=
  match s.resolveKey hKeySrc with
  | (s, none) => (s, .invalidHandle)
  | (s, some src) =>
    match s.resolveKey hKeyDest with
    | (s, none) => (s, .invalidHandle)
    | (s, some dst) =>
      match s.checkAccess hKeySrc keyRead with
      | .success =>
        match s.checkAccess hKeyDest keyWrite with
        | .success =>
          if validatePathLimits path = false then (s, .invalidParameter)
          else
            match s.target src path false with
            | (s, none) => (s, .fileNotFound)
            | (s, some root) =>
              if s.tree.isBelow root keyPoolSize dst ∨
                  s.tree.isBelow dst keyPoolSize root then (s, .invalidParameter)
              else
                let need := s.tree.countSubtree keyPoolSize root
                if keyPoolSize - s.tree.keyNext < need.1 ∨
                    valuePoolSize - s.tree.valueNext < need.2 then (s, .outOfMemory)
                else
                  let r := s.tree.copySubtree keyPoolSize root dst
                  (s.setTree r.1, r.2)
        | e => (s, e)
      | e => (s, e)

def setValue (s : State) (hKey : Hkey) (name : Name) (type : UInt32) (data : Option (List UInt8))
    (size : ℕ) : State × Status :=
  match s.resolveKey hKey with
  | (s, none) => (s, .invalidHandle)
  | (s, some k) =>
    match s.checkAccess hKey keySetValue with
    | .success =>
      let r := s.tree.setValueDirect k name type data size
      (s.setTree r.1, r.2)
    | e => (s, e)

def setCurrentUser (s : State) (name : Name) : State :=
  { s with currentUser := name.take maxKeyName }

def kcbCacheSize : ℕ := 32

/-- The root keys of an empty pool, by `reg_alloc_key`. -/
def rootKeys : Tree :=
  [ascii "HKEY_LOCAL_MACHINE", ascii "HKEY_CURRENT_USER", ascii "HKEY_CLASSES_ROOT",
    ascii "HKEY_USERS", ascii "HKEY_CURRENT_CONFIG"].foldl
    (fun t name => (t.allocKey name).elim t Prod.fst) ⟨fun _ => Key.blank, 0, 0⟩

/-- The tree that `registry_init` builds. -/
def initTree : Tree :=
  let t := (rootKeys.createChild rootHklm (ascii "SYSTEM")).1
  let r := t.createChild rootHklm (ascii "SOFTWARE")
  let t := (r.1.createChild rootHklm (ascii "HARDWARE")).1
  let t := match r.2 with
    | none => t
    | some sw => (t.createChild sw (ascii "Classes")).1
  (t.createChild rootHku (ascii "Default")).1

def init : State :=
  { tree := initTree
    cache := List.replicate kcbCacheSize ⟨0, 0, [], 0⟩
    clock := 0
    handles := fun _ => none
    currentUser := ascii "Default" }

end State

end ImpossibleOs.Registry
