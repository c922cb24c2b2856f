import Mathlib.Algebra.BigOperators.Group.Finset.Piecewise
import Mathlib.Algebra.Order.BigOperators.Group.Finset
import Mathlib.Tactic.Ring

/-!
Handle tables and object reference counts: `src/kernel/ob/handle_table.c` and the
counting half of `src/kernel/ob/ob.c`.

Parameters of a call are the registered pre-callbacks, the answer of the type's
`on_open` hook and whether memory for a larger entry array can be had.

`NtDuplicateObject` runs its pre-callbacks while it holds a pin on the source
object, and those may call back into the handle tables. The model cuts it there:
`ntDuplicateObjectBegin` leaves a frame, `ntDuplicateObjectFinish` takes it up
again, and any other call may come in between.
-/

namespace ImpossibleOs.Ob

open Function

/-! ### Constants -/

def objProtectClose : UInt32 := 0x00000001
def objInherit : UInt32 := 0x00000002
def handleTableInitCap : ℕ := 64
def handleTableAbsoluteMax : ℕ := 2 ^ 20
def duplicateCloseSource : UInt32 := 0x00000001
def duplicateSameAccess : UInt32 := 0x00000002
def maximumAllowed : UInt32 := 0x02000000
def invalidHandleValue : ℤ := -1

/-! ### State -/

/-- `HANDLE_TABLE_ENTRY`. `hid` is a ghost: the number of the handle the entry holds,
counted over all handles ever created. -/
structure Entry where
  object : Option ℕ
  grantedAccess : UInt32
  attributes : UInt32
  hid : ℕ
  deriving DecidableEq, Repr

/-- A zeroed slot. -/
def freeEntry : Entry := ⟨none, 0, 0, 0⟩

/-- `HANDLE_TABLE`. The entry array carries its capacity; `none` is the NULL array of a
table that was destroyed or never initialised. -/
structure HandleTable where
  entries : Option (List Entry)
  count : ℕ
  handleLimit : ℕ
  quotaWarned : Bool
  deriving DecidableEq, Repr

def noTable : HandleTable := ⟨none, 0, 0, false⟩

/-- The fields of `OBJECT_HEADER` that the handle paths use; both counts are 32 bits wide and
wrap. `alive` is cleared when the block is freed; `outside` is a ghost that counts the references
held outside tables. -/
structure ObjectHeader where
  refCount : UInt32
  handleCount : UInt32
  permanent : Bool
  hasOnClose : Bool
  alive : Bool
  outside : ℕ
  deriving DecidableEq, Repr

def noObject : ObjectHeader := ⟨0, 0, false, false, false, 0⟩

/-- What `NtDuplicateObject` keeps on its stack across the pre-callbacks. -/
structure DupFrame where
  srcTable : ℕ
  srcHandle : ℤ
  dstTable : ℕ
  srcObj : ℕ
  srcHid : ℕ
  requestCeiling : UInt32
  attrs : UInt32
  options : UInt32
  deriving DecidableEq, Repr

/-- Calls into type callbacks and the freeing of objects, and as a ghost which handle was
derived from which. -/
inductive ObEvent
  | onClose (o : ℕ)
  | freed (o : ℕ)
  | derived (src dst : ℕ)
  deriving DecidableEq, Repr

/-- The tables and objects of the system. `grants` is a ghost: the access each handle was
created with, by its number. -/
structure ObSys where
  nTables : ℕ
  tables : ℕ → HandleTable
  nObjects : ℕ
  objects : ℕ → ObjectHeader
  pending : List DupFrame
  log : List ObEvent
  grants : List UInt32

/-- Nothing created yet. -/
def ObSys.boot : ObSys := ⟨0, fun _ => noTable, 0, fun _ => noObject, [], [], []⟩

@[simps -fullyApplied]
def ObSys.setTable (s : ObSys) (t : ℕ) (T : HandleTable) : ObSys :=
  { s with tables := update s.tables t T }

@[simps -fullyApplied]
def ObSys.setObject (s : ObSys) (o : ℕ) (h : ObjectHeader) : ObSys :=
  { s with objects := update s.objects o h }

def ObSys.setPending (s : ObSys) (fs : List DupFrame) : ObSys := { s with pending := fs }

@[simps -fullyApplied]
def ObSys.emit (s : ObSys) (e : ObEvent) : ObSys := { s with log := e :: s.log }

/-! ### Reference counts -/

/-- `ob_alloc_object`: the creator holds the first reference. -/
def obAllocObject (s : ObSys) (permanent hasOnClose : Bool) : ObSys :=
  { s with
    nObjects := s.nObjects + 1
    objects := update s.objects s.nObjects ⟨1, 0, permanent, hasOnClose, true, 1⟩ }

def obReferenceObject (s : ObSys) (o : ℕ) : ObSys :=
  s.setObject o { s.objects o with refCount := (s.objects o).refCount + 1 }

/-- A count that reaches zero frees the object, unless it is permanent: then it gets its
standing reference back. -/
def obDereferenceObject (s : ObSys) (o : ℕ) : ObSys :=
  let h := s.objects o
  if h.refCount = 1 then
    if h.permanent then s.setObject o { h with refCount := 1, outside := h.outside + 1 }
    else (s.setObject o { h with refCount := 0, alive := false }).emit (.freed o)
  else s.setObject o { h with refCount := h.refCount - 1 }

def obMakeTemporaryObject (s : ObSys) (o : ℕ) : ObSys :=
  s.setObject o { s.objects o with permanent := false }

def takeReference (s : ObSys) (o : ℕ) : ObSys :=
  let s := obReferenceObject s o
  s.setObject o { s.objects o with outside := (s.objects o).outside + 1 }

def dropReference (s : ObSys) (o : ℕ) : ObSys :=
  obDereferenceObject (s.setObject o { s.objects o with outside := (s.objects o).outside - 1 }) o

/-! ### Tables -/

/-- `ob_handle_table_init`, with the value of the `handle.quota_default` tunable. -/
def obHandleTableInit (s : ObSys) (quota : ℕ) : ObSys :=
  { s with
    nTables := s.nTables + 1
    tables := update s.tables s.nTables
      ⟨some (List.replicate handleTableInitCap freeEntry), 0, quota, false⟩ }

/-- `growOk n` tells whether memory for `n` entries can be had; `kmalloc(0)` is NULL. -/
def handleTableGrow (growOk : ℕ → Bool) (T : HandleTable) : Option HandleTable :=
  match T.entries with
  | none => none
  | some es =>
    let newCap := es.length * 2 % 2 ^ 32
    let capCeiling :=
      if 0 < T.handleLimit then (T.handleLimit + 1) % 2 ^ 32 else handleTableAbsoluteMax + 1
    if capCeiling ≤ es.length then none
    else
      let newCap := if capCeiling < newCap then capCeiling else newCap
      if newCap = 0 ∨ growOk newCap = false then none
      else some
        { T with entries := some (es ++ List.replicate (newCap - es.length) freeEntry) }

def findFreeSlot (es : List Entry) : Option ℕ :=
  (es.tail.findIdx? fun e => e.object.isNone).map (· + 1)

/-- `ob_dispatch_pre` over the matching callbacks: each may only strip access, and one that
strips the last right denies the operation. -/
def obInvokePreCallbacks : List (UInt32 → UInt32) → UInt32 → Option UInt32
  | [], access => some access
  | cb :: cbs, prior =>
    let access := cb prior &&& prior
    if access = 0 ∧ prior ≠ 0 then none else obInvokePreCallbacks cbs access

/-- The stores at `found:` with the two counts of the object. -/
def fillSlot (s : ObSys) (t i o : ℕ) (access attrs : UInt32) : ObSys :=
  let T := s.tables t
  let es := T.entries.getD []
  let e : Entry := ⟨some o, access, attrs, s.grants.length⟩
  let s := s.setTable t { T with entries := some (es.set i e), count := T.count + 1 }
  let s := obReferenceObject { s with grants := s.grants ++ [access] } o
  s.setObject o { s.objects o with handleCount := (s.objects o).handleCount + 1 }

/-- `obp_allocate_handle_inner`. `cbs` are the matching CREATE pre-callbacks, none of them on
the duplicate path; `openOk` is the answer of the `on_open` hook, `true` where it does not
apply. -/
def obpAllocateHandleInner (s : ObSys) (t o : ℕ) (access attrs : UInt32)
    (cbs : List (UInt32 → UInt32)) (openOk : Bool) (growOk : ℕ → Bool) : ObSys × ℤ :=
  let T := s.tables t
  match T.entries with
  | none => (s, invalidHandleValue)
  | some es =>
    match obInvokePreCallbacks cbs access with
    | none => (s, invalidHandleValue)
    | some access =>
      if openOk = false then (s, invalidHandleValue)
      else if 0 < T.handleLimit ∧ T.handleLimit ≤ T.count then
        (s.setTable t { T with quotaWarned := true }, invalidHandleValue)
      else
        match findFreeSlot es with
        | some i => (fillSlot s t i o access attrs, (i : ℤ) * 4)
        | none =>
          match handleTableGrow growOk T with
          | none => (s, invalidHandleValue)
          | some T' =>
            -- the index still stands at the old capacity
            (fillSlot (s.setTable t T') t es.length o access attrs,
              (es.length : ℤ) * 4)

def slotOf (handle : ℤ) : Option ℕ :=
  if handle < 0 then none
  else if handle % 4 ≠ 0 then none
  else some (handle / 4).toNat

/-- `ObpLookupHandle`: the occupied slot and its entry. -/
def obpLookupHandle (T : HandleTable) (handle : ℤ) : Option (ℕ × ℕ × Entry) := do
  let i ← slotOf handle
  let es ← T.entries
  let e ← es[i]?
  let o ← e.object
  some (i, o, e)

/-- `ObpFreeHandle` clears the slot first, then the handle count of the object falls and
`on_close` runs if it is zero. -/
def dropEntry (s : ObSys) (t i o : ℕ) : ObSys :=
  let T := s.tables t
  let es := T.entries.getD []
  let count := T.count - 1
  let h := s.objects o
  let h := if 0 < h.handleCount then { h with handleCount := h.handleCount - 1 } else h
  let s := s.setTable t
    { T with
      entries := some (es.set i freeEntry)
      count := count
      quotaWarned := if count < T.handleLimit then false else T.quotaWarned }
  let s := s.setObject o h
  if h.handleCount = 0 ∧ h.hasOnClose = true then s.emit (.onClose o) else s

/-- What `ObpFreeHandle` does to the slot it settled on. -/
def clearSlot (s : ObSys) (t i o : ℕ) : ObSys := obDereferenceObject (dropEntry s t i o) o

/-- `ObpFreeHandle`; `false` is the return of -1. -/
def obpFreeHandle (s : ObSys) (t : ℕ) (handle : ℤ) : ObSys × Bool :=
  match obpLookupHandle (s.tables t) handle with
  | none => (s, false)
  | some (i, o, e) =>
    if e.attributes &&& objProtectClose ≠ 0 then (s, false) else (clearSlot s t i o, true)

/-- `entry->attributes &= ~OBJ_PROTECT_CLOSE` on slot `i`. -/
def unprotectSlot (s : ObSys) (t i : ℕ) : ObSys :=
  let T := s.tables t
  let es := T.entries.getD []
  s.setTable t
    { T with
      entries := some (es.modify i fun e =>
        { e with attributes := e.attributes &&& ~~~objProtectClose }) }

/-- One round of the loop of `ob_handle_table_destroy`. -/
def destroySlot (s : ObSys) (t i : ℕ) : ObSys :=
  match ((s.tables t).entries.getD [])[i]? with
  | none => s
  | some e =>
    if e.object = none then s
    else (obpFreeHandle (unprotectSlot s t i) t ((i : ℤ) * 4)).1

def obHandleTableDestroy (s : ObSys) (t : ℕ) : ObSys :=
  match (s.tables t).entries with
  | none => s
  | some es =>
    let s := (List.range es.length).foldl (fun s i => destroySlot s t i) s
    s.setTable t { s.tables t with entries := none, count := 0 }

/-! ### Inheritance -/

def inheritable (e : Entry) : Bool := e.object.isSome && (e.attributes &&& objInherit != 0)

/-- One more than the highest slot that carries an inheritable handle, 0 where none does. -/
def inheritBound (es : List Entry) : ℕ :=
  es.length - (es.reverse.findIdx inheritable)

/-- The growth loop: until slot `bound - 1` exists or memory runs out. -/
def growToward (growOk : ℕ → Bool) (bound : ℕ) : ℕ → HandleTable → HandleTable
  | 0, T => T
  | fuel + 1, T =>
    if bound ≤ (T.entries.getD []).length then T
    else
      match handleTableGrow growOk T with
      | none => T
      | some T' => growToward growOk bound fuel T'

/-- Copy the inheritable entry of slot `i`, with a reference and a handle of its own. -/
def inheritSlot (s : ObSys) (parent child i : ℕ) : ObSys :=
  match ((s.tables parent).entries.getD [])[i]? with
  | none => s
  | some e =>
    match e.object with
    | none => s
    | some o =>
      if e.attributes &&& objInherit = 0 then s
      else (fillSlot s child i o e.grantedAccess e.attributes).emit
        (.derived e.hid s.grants.length)

/-- `ob_handle_table_inherit`. Growing adds at least one slot a round, so `bound` rounds are
enough. -/
def obHandleTableInherit (s : ObSys) (parent child : ℕ) (growOk : ℕ → Bool) : ObSys :=
  match (s.tables parent).entries, (s.tables child).entries with
  | some pes, some _ =>
    let bound := inheritBound pes
    if bound = 0 then s
    else
      let C := growToward growOk bound bound (s.tables child)
      let s := s.setTable child C
      (List.range (min bound (C.entries.getD []).length)).foldl
        (fun s i => inheritSlot s parent child i) s
  | _, _ => s

def obHandleTableSetLimit (s : ObSys) (t newLimit : ℕ) : ObSys :=
  let newLimit := if handleTableAbsoluteMax < newLimit then handleTableAbsoluteMax else newLimit
  s.setTable t { s.tables t with handleLimit := newLimit, quotaWarned := false }

/-! ### Duplication -/

/-- The access a duplicate may not exceed. -/
def requestCeiling (srcGranted desiredAccess options : UInt32) : UInt32 :=
  if options &&& duplicateSameAccess ≠ 0 then srcGranted
  else if desiredAccess &&& maximumAllowed ≠ 0 then srcGranted
  else desiredAccess &&& srcGranted

/-- `NtDuplicateObject` up to its pre-callbacks: the source is looked up and pinned. -/
def ntDuplicateObjectBegin (s : ObSys) (srcTable : ℕ) (srcHandle : ℤ) (dstTable : ℕ)
    (desiredAccess attrs options : UInt32) : ObSys × Bool :=
  match obpLookupHandle (s.tables srcTable) srcHandle with
  | none => (s, false)
  | some (_, o, e) =>
    if options &&& duplicateCloseSource ≠ 0 ∧ e.attributes &&& objProtectClose ≠ 0 then
      (s, false)
    else
      let s := obReferenceObject s o
      (s.setPending (⟨srcTable, srcHandle, dstTable, o, e.hid,
        requestCeiling e.grantedAccess desiredAccess options, attrs, options⟩ :: s.pending), true)

/-- Whether the source handle still names the pinned object after the callbacks, and may be
closed if it has to be. -/
def sourceStands (s : ObSys) (f : DupFrame) : Bool :=
  match obpLookupHandle (s.tables f.srcTable) f.srcHandle with
  | none => false
  | some (_, o, e) =>
    o == f.srcObj && !(f.options &&& duplicateCloseSource != 0 &&
      e.attributes &&& objProtectClose != 0)

def capGrant (s : ObSys) (t : ℕ) (handle : ℤ) (ceiling : UInt32) : ObSys :=
  match obpLookupHandle (s.tables t) handle with
  | none => s
  | some (i, _, _) =>
    let T := s.tables t
    let es := T.entries.getD []
    s.setTable t
      { T with
        entries := some (es.modify i fun e =>
          { e with grantedAccess := e.grantedAccess &&& ceiling }) }

/-- `NtDuplicateObject` from its pre-callbacks on; `f` is the frame the first half left. -/
def dupFinish (s : ObSys) (f : DupFrame) (cbs : List (UInt32 → UInt32)) (openOk : Bool)
    (growOk : ℕ → Bool) : ObSys × Bool :=
  match obInvokePreCallbacks cbs f.requestCeiling with
  | none => (obDereferenceObject s f.srcObj, false)
  | some access =>
    if sourceStands s f = false then (obDereferenceObject s f.srcObj, false)
    else
      let dst := s.grants.length
      let (s, newH) := obpAllocateHandleInner s f.dstTable f.srcObj
        (access &&& f.requestCeiling) f.attrs [] openOk growOk
      if newH = invalidHandleValue then (obDereferenceObject s f.srcObj, false)
      else
        let s := capGrant s f.dstTable newH f.requestCeiling
        let (s, closed) :=
          if f.options &&& duplicateCloseSource ≠ 0 then obpFreeHandle s f.srcTable f.srcHandle
          else (s, true)
        if closed = false then
          -- roll the destination back
          let s := match obpLookupHandle (s.tables f.dstTable) newH with
            | none => s
            | some (i, _, _) => unprotectSlot s f.dstTable i
          let s := (obpFreeHandle s f.dstTable newH).1
          (obDereferenceObject s f.srcObj, false)
        else
          (obDereferenceObject (s.emit (.derived f.srcHid dst)) f.srcObj, true)

/-- Take up the `k`-th pending duplication. -/
def ntDuplicateObjectFinish (s : ObSys) (k : ℕ) (cbs : List (UInt32 → UInt32)) (openOk : Bool)
    (growOk : ℕ → Bool) : ObSys × Bool :=
  match s.pending[k]? with
  | none => (s, false)
  | some f => dupFinish (s.setPending (s.pending.eraseIdx k)) f cbs openOk growOk

/-- `NtDuplicateObject` with callbacks that do not call back. -/
def ntDuplicateObject (s : ObSys) (srcTable : ℕ) (srcHandle : ℤ) (dstTable : ℕ)
    (desiredAccess attrs options : UInt32) (cbs : List (UInt32 → UInt32)) (openOk : Bool)
    (growOk : ℕ → Bool) : ObSys × Bool :=
  match ntDuplicateObjectBegin s srcTable srcHandle dstTable desiredAccess attrs options with
  | (s, false) => (s, false)
  | (s, true) => ntDuplicateObjectFinish s 0 cbs openOk growOk

end ImpossibleOs.Ob
