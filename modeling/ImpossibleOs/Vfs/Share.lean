import ImpossibleOs.Lib.Refine
import Mathlib.Data.UInt

/-!
Share modes of a VFS node (`src/kernel/fs/vfs.c`).

Every successful open of a file takes a slot of the node's handle table with
its access and share mode. `vfs_close` is given the node only and drops the first
active slot whose access bits are those that the last open has left in
`node->flags`. The state also lists the open handles, and a close names one.
-/

namespace ImpossibleOs.Vfs

open List

def vfsORead : UInt32 := 0x01
def vfsOWrite : UInt32 := 0x02
def vfsOTrunc : UInt32 := 0x10
def vfsODeleteOnClose : UInt32 := 0x20
def vfsMaxHandles : ℕ := 4

structure VfsOpenHandle where
  accessMode : UInt32
  shareMode : UInt32
  active : Bool
  deriving DecidableEq, Repr

/-- The fields of `struct vfs_node` that opening and closing use. -/
structure VfsNode where
  isFile : Bool
  flags : UInt32
  refCount : ℕ
  openHandles : List VfsOpenHandle
  deleteOnClose : Bool
  deriving DecidableEq, Repr

def accessOf (flags : UInt32) : UInt32 := flags &&& (vfsORead ||| vfsOWrite)

/-- The share mode of open flags; everything is shared when none is given. -/
def shareOf (flags : UInt32) : UInt32 :=
  let share := (flags >>> 8) &&& 0x07
  if share = 0 then 0x07 else share

/-- Two opens, each given by access bits and share mode, do not go together. -/
def conflicts (new old : UInt32 × UInt32) : Bool :=
  new.1 &&& ~~~old.2 ≠ 0 || old.1 &&& ~~~new.2 ≠ 0

def VfsOpenHandle.record (h : VfsOpenHandle) : UInt32 × UInt32 := (h.accessMode, h.shareMode)

/-- `vfs_check_sharing`: whether the open is refused. -/
def checkSharing (node : VfsNode) (flags share : UInt32) : Bool :=
  node.openHandles.any fun h => h.active && conflicts (accessOf flags, share) h.record

/-- `vfs_add_handle`: the table and the slot. -/
def addHandle (handles : List VfsOpenHandle) (access share : UInt32) :
    Option (List VfsOpenHandle × ℕ) :=
  (handles.findIdx? fun h => !h.active).map fun i =>
    (handles.set i ⟨accessOf access, share, true⟩, i)

def removeHandleAt (handles : List VfsOpenHandle) (i : ℕ) : List VfsOpenHandle :=
  handles.modify i fun h => { h with active := false }

def handleMatches (access : UInt32) (h : VfsOpenHandle) : Bool :=
  h.active && h.accessMode = accessOf access

def removeHandle (handles : List VfsOpenHandle) (access : UInt32) : List VfsOpenHandle :=
  match handles.findIdx? (handleMatches access) with
  | none => handles
  | some i => removeHandleAt handles i

inductive OpenResult where
  | opened
  | truncReadOnly
  | deletePending
  | sharingViolation
  | tableFull
  | openFailed
  | truncFailed
  deriving DecidableEq, Repr

/-- The part of `vfs_open` behind the share check: `fsOpen` and `trunc` are the answers of the
file system. -/
def openHandle (node : VfsNode) (flags share : UInt32) (fsOpen trunc : Bool) :
    VfsNode × OpenResult :=
  let node :=
    if flags &&& vfsODeleteOnClose ≠ 0 then { node with deleteOnClose := true } else node
  if node.isFile then
    match addHandle node.openHandles flags share with
    | none => (node, .tableFull)
    | some (handles, i) =>
      let node := { node with openHandles := handles, flags := flags }
      if !fsOpen then
        ({ node with openHandles := removeHandleAt node.openHandles i }, .openFailed)
      else if flags &&& vfsOTrunc ≠ 0 && !trunc then
        ({ node with openHandles := removeHandleAt node.openHandles i }, .truncFailed)
      else ({ node with refCount := node.refCount + 1 }, .opened)
  else
    let node := { node with flags := flags }
    if !fsOpen then (node, .openFailed)
    else ({ node with refCount := node.refCount + 1 }, .opened)

/-- `vfs_open`, from the node that the path leads to on. Oplocks are left out. -/
def vfsOpen (node : VfsNode) (flags : UInt32) (fsOpen trunc : Bool) : VfsNode × OpenResult :=
  let share := shareOf flags
  let flags := if !node.isFile then flags &&& ~~~vfsOTrunc else flags
  if node.isFile && flags &&& vfsOTrunc ≠ 0 && flags &&& vfsOWrite = 0 then (node, .truncReadOnly)
  else if node.deleteOnClose && flags &&& vfsODeleteOnClose = 0 then (node, .deletePending)
  else if node.isFile && 0 < node.refCount && checkSharing node flags share then
    (node, .sharingViolation)
  else openHandle node flags share fsOpen trunc

def vfsClose (node : VfsNode) : VfsNode :=
  let node := { node with refCount := node.refCount - 1 }
  let node :=
    if node.isFile then { node with openHandles := removeHandle node.openHandles node.flags }
    else node
  if node.deleteOnClose && node.refCount = 0 then { node with deleteOnClose := false } else node

/-! ### Runs -/

/-- A node and the access and share modes of its open handles. -/
structure ShareState where
  node : VfsNode
  live : List (UInt32 × UInt32)

/-- An open by some opener, or the close of open handle number `k`. -/
inductive ShareCall where
  | openFile (flags : UInt32) (fsOpen trunc : Bool)
  | closeFile (k : ℕ)

def shareExec (s : ShareState) : ShareCall → ShareState
  | .openFile flags fsOpen trunc =>
    let res := vfsOpen s.node flags fsOpen trunc
    ⟨res.1,
      if res.2 = .opened then s.live ++ [(accessOf flags, shareOf flags)] else s.live⟩
  | .closeFile k => if k < s.live.length then ⟨vfsClose s.node, s.live.eraseIdx k⟩ else s

def noHandles : List VfsOpenHandle := List.replicate vfsMaxHandles ⟨0, 0, false⟩

def newNode (isFile : Bool) : ShareState := ⟨⟨isFile, 0, 0, noHandles, false⟩, []⟩

def records (handles : List VfsOpenHandle) : List (UInt32 × UInt32) :=
  (handles.filter (·.active)).map VfsOpenHandle.record

/-! ### The handle table -/

variable {handles : List VfsOpenHandle} {i : ℕ} {h : VfsOpenHandle}

theorem records_append (l l' : List VfsOpenHandle) :
    records (l ++ l') = records l ++ records l' := by
  simp [records]

theorem records_cons (h : VfsOpenHandle) (l : List VfsOpenHandle) :
    records (h :: l) = if h.active then h.record :: records l else records l := by
  cases ha : h.active <;> simp [records, ha]

theorem split_at (hi : handles[i]? = some h) (h' : VfsOpenHandle) :
    ∃ l r, handles = l ++ h :: r ∧ handles.set i h' = l ++ h' :: r := by
  obtain ⟨hlt, rfl⟩ := List.getElem?_eq_some_iff.mp hi
  refine ⟨handles.take i, handles.drop (i + 1), ?_, ?_⟩
  · rw [getElem_cons_drop, take_append_drop]
  · exact set_eq_take_append_cons_drop.trans (if_pos hlt)

theorem records_set_free (hi : handles[i]? = some h) (hfree : h.active = false)
    (h' : VfsOpenHandle) :
    (records (handles.set i h')).Perm
      (if h'.active then h'.record :: records handles else records handles) := by
  obtain ⟨l, r, hsplit, hset⟩ := split_at hi h'
  rw [hset, hsplit, records_append, records_append, records_cons, records_cons, hfree]
  cases h'.active with
  | false => exact List.Perm.refl _
  | true => exact perm_middle

theorem records_removeHandleAt (hi : handles[i]? = some h) (hactive : h.active = true) :
    (records handles).Perm (h.record :: records (removeHandleAt handles i)) := by
  unfold removeHandleAt
  rw [modify_eq_set_getElem?, hi]
  obtain ⟨l, r, hsplit, hset⟩ := split_at hi { h with active := false }
  show (records handles).Perm (h.record :: records (handles.set i _))
  rw [hset, hsplit, records_append, records_append, records_cons, records_cons, hactive]
  exact perm_middle

theorem length_removeHandleAt (handles : List VfsOpenHandle) (i : ℕ) :
    (removeHandleAt handles i).length = handles.length := by
  simp [removeHandleAt]

theorem addHandle_some {access share : UInt32} {handles' : List VfsOpenHandle}
    (hadd : addHandle handles access share = some (handles', i)) :
    ∃ h, handles[i]? = some h ∧ h.active = false ∧
      handles' = handles.set i ⟨accessOf access, share, true⟩ := by
  unfold addHandle at hadd
  obtain ⟨j, hj, heq⟩ := Option.map_eq_some_iff.mp hadd
  obtain ⟨rfl, rfl⟩ := Prod.mk.inj heq
  obtain ⟨hlt, hfree, -⟩ := List.findIdx?_eq_some_iff_getElem.mp hj
  exact ⟨handles[j], getElem?_eq_getElem hlt, by simpa using hfree, rfl⟩

theorem addHandle_none {access share : UInt32} (hadd : addHandle handles access share = none) :
    (records handles).length = handles.length := by
  unfold addHandle at hadd
  rw [Option.map_eq_none_iff, findIdx?_eq_none_iff] at hadd
  have hall : handles.filter (·.active) = handles := by
    rw [filter_eq_self]
    intro h hh
    simpa using hadd h hh
  rw [records, length_map, hall]

theorem mem_records {r : UInt32 × UInt32} :
    r ∈ records handles ↔ ∃ h ∈ handles, h.active = true ∧ h.record = r := by
  simp [records, and_assoc]

/-! ### The accounting -/

/-- The records of a file are those of its open handles. -/
structure Accounted (s : ShareState) : Prop where
  file : s.node.isFile = true
  count : s.node.refCount = s.live.length
  slots : s.node.openHandles.length = vfsMaxHandles
  perm : (records s.node.openHandles).Perm s.live

/-- The record that a close drops is that of the handle it is for: the first active record whose
access bits are those of `node->flags`. -/
def CloseMatches (s : ShareState) : ShareCall → Prop
  | .openFile _ _ _ => True
  | .closeFile k => ∀ r, s.live[k]? = some r →
      (s.node.openHandles.find? (handleMatches s.node.flags)).map VfsOpenHandle.record = some r

theorem accounted_newNode : Accounted (newNode true) := by
  refine ⟨rfl, rfl, rfl, ?_⟩
  show (records noHandles).Perm []
  decide

/-- What an open of a file does to the table: a success adds its record, a failure nothing. -/
structure Opened (node : VfsNode) (flags share : UInt32) (res : VfsNode × OpenResult) : Prop where
  file : res.1.isFile = true
  slots : res.1.openHandles.length = node.openHandles.length
  success : res.2 = .opened → res.1.refCount = node.refCount + 1 ∧
    (records res.1.openHandles).Perm ((accessOf flags, share) :: records node.openHandles)
  failure : res.2 ≠ .opened → res.1.refCount = node.refCount ∧
    (records res.1.openHandles).Perm (records node.openHandles)

theorem removeHandleAt_set (hi : handles[i]? = some h) (hfree : h.active = false)
    (h' : VfsOpenHandle) :
    (records (removeHandleAt (handles.set i h') i)).Perm (records handles) := by
  have hlt := (List.getElem?_eq_some_iff.mp hi).1
  have hslot : removeHandleAt (handles.set i h') i = handles.set i { h' with active := false } := by
    unfold removeHandleAt
    rw [modify_eq_set_getElem?, getElem?_set_self hlt]
    simp
  rw [hslot]
  exact records_set_free hi hfree { h' with active := false }

theorem openHandle_opened {node : VfsNode} (hfile : node.isFile = true) (flags share : UInt32)
    (fsOpen trunc : Bool) : Opened node flags share (openHandle node flags share fsOpen trunc) := by
  unfold openHandle
  -- marking the node for deletion does not touch the table
  generalize hmark : (if flags &&& vfsODeleteOnClose ≠ 0 then { node with deleteOnClose := true }
    else node) = marked
  obtain ⟨hf, hh, hc⟩ : marked.isFile = true ∧ marked.openHandles = node.openHandles ∧
      marked.refCount = node.refCount := by
    rw [← hmark]
    split <;> exact ⟨hfile, rfl, rfl⟩
  simp only [hf, if_true, hh]
  cases hadd : addHandle node.openHandles flags share with
  | none =>
    refine ⟨hf, by rw [hh], nofun, fun _ => ⟨hc, ?_⟩⟩
    simp only [hh]
    exact List.Perm.refl _
  | some p =>
    obtain ⟨handles', i⟩ := p
    obtain ⟨h, hi, hfree, rfl⟩ := addHandle_some hadd
    simp only
    split
    · refine ⟨rfl, by simp [length_removeHandleAt], nofun, fun _ => ⟨hc, ?_⟩⟩
      exact removeHandleAt_set hi hfree _
    split
    · refine ⟨rfl, by simp [length_removeHandleAt], nofun, fun _ => ⟨hc, ?_⟩⟩
      exact removeHandleAt_set hi hfree _
    · refine ⟨rfl, by simp, fun _ => ⟨by simp [hc], ?_⟩, fun hne => absurd rfl hne⟩
      exact records_set_free hi hfree ⟨accessOf flags, share, true⟩

theorem vfsOpen_opened {node : VfsNode} (hfile : node.isFile = true) (flags : UInt32)
    (fsOpen trunc : Bool) :
    Opened node flags (shareOf flags) (vfsOpen node flags fsOpen trunc) := by
  have hrefused : ∀ r, r ≠ OpenResult.opened → Opened node flags (shareOf flags) (node, r) :=
    fun r hr => ⟨hfile, rfl, fun h => absurd h hr, fun _ => ⟨rfl, List.Perm.refl _⟩⟩
  unfold vfsOpen
  simp only [hfile, Bool.not_true, Bool.false_eq_true, if_false, Bool.true_and]
  split
  · exact hrefused _ nofun
  split
  · exact hrefused _ nofun
  split
  · exact hrefused _ nofun
  · exact openHandle_opened hfile flags (shareOf flags) fsOpen trunc

variable {s : ShareState}

theorem Accounted.openFile (h : Accounted s) (flags : UInt32) (fsOpen trunc : Bool) :
    Accounted (shareExec s (.openFile flags fsOpen trunc)) := by
  have hopened := vfsOpen_opened h.file flags fsOpen trunc
  unfold shareExec
  by_cases hres : (vfsOpen s.node flags fsOpen trunc).2 = .opened
  · obtain ⟨hcount, hperm⟩ := hopened.success hres
    refine ⟨hopened.file, ?_, hopened.slots.trans h.slots, ?_⟩
    · simp [hres, hcount, h.count]
    · simp only [hres, if_true]
      exact hperm.trans ((h.perm.cons _).trans (perm_append_singleton _ _).symm)
  · obtain ⟨hcount, hperm⟩ := hopened.failure hres
    refine ⟨hopened.file, ?_, hopened.slots.trans h.slots, ?_⟩
    · simp [hres, hcount, h.count]
    · simp only [hres, if_false]
      exact hperm.trans h.perm

theorem Accounted.closeFile (h : Accounted s) {k : ℕ}
    (hmatch : CloseMatches s (.closeFile k)) : Accounted (shareExec s (.closeFile k)) := by
  unfold shareExec
  simp only
  split
  swap
  · exact h
  rename_i hk
  have hr := hmatch _ (getElem?_eq_getElem hk)
  obtain ⟨r, hfind, hrec⟩ := Option.map_eq_some_iff.mp hr
  -- the slot that the close drops
  obtain ⟨j, hj, hget⟩ : ∃ j, s.node.openHandles.findIdx? (handleMatches s.node.flags) = some j ∧
      s.node.openHandles[j]? = some r := by
    rw [find?_eq_some_iff_getElem] at hfind
    obtain ⟨hp, j, hlt, hjr, hbefore⟩ := hfind
    refine ⟨j, List.findIdx?_eq_some_iff_getElem.mpr ⟨hlt, hjr ▸ hp, ?_⟩, ?_⟩
    · intro m hm
      simpa using hbefore m hm
    · rw [getElem?_eq_getElem hlt, hjr]
  have hactive : r.active = true := by
    have hp := find?_some hfind
    simp only [handleMatches, Bool.and_eq_true] at hp
    exact hp.1
  have hperm : (records (removeHandleAt s.node.openHandles j)).Perm (s.live.eraseIdx k) := by
    have h₁ := records_removeHandleAt hget hactive
    rw [hrec] at h₁
    have h₂ := getElem_cons_eraseIdx_perm hk
    exact List.Perm.cons_inv ((h₁.symm.trans h.perm).trans h₂.symm)
  have hhandles : (vfsClose s.node).openHandles = removeHandleAt s.node.openHandles j ∧
      (vfsClose s.node).isFile = true ∧ (vfsClose s.node).refCount = s.node.refCount - 1 := by
    unfold vfsClose
    simp only [h.file, if_true, removeHandle, hj]
    split <;> exact ⟨rfl, rfl, rfl⟩
  obtain ⟨hhandles, hfile, hcount⟩ := hhandles
  refine ⟨hfile, ?_, ?_, ?_⟩
  · rw [hcount, h.count, length_eraseIdx_of_lt hk]
  · rw [hhandles, length_removeHandleAt]
    exact h.slots
  · rw [hhandles]
    exact hperm

theorem Accounted.exec (h : Accounted s) {call : ShareCall}
    (hmatch : CloseMatches s call) : Accounted (shareExec s call) := by
  cases call with
  | openFile flags fsOpen trunc => exact h.openFile flags fsOpen trunc
  | closeFile k => exact h.closeFile hmatch

/-- Nothing but sharing stands against an open: the checks before the share check pass, there is
a free slot and the file system agrees. -/
def Unobstructed (s : ShareState) (flags : UInt32) (fsOpen trunc : Bool) : Prop :=
  (flags &&& vfsOTrunc ≠ 0 → flags &&& vfsOWrite ≠ 0 ∧ trunc = true) ∧
    (s.node.deleteOnClose = true → flags &&& vfsODeleteOnClose ≠ 0) ∧
    s.live.length < vfsMaxHandles ∧ fsOpen = true

theorem Accounted.checkSharing_iff (h : Accounted s) (flags share : UInt32) :
    checkSharing s.node flags share = true ↔
      ∃ r ∈ s.live, conflicts (accessOf flags, share) r = true := by
  unfold checkSharing
  rw [any_eq_true]
  constructor
  · rintro ⟨x, hx, hc⟩
    rw [Bool.and_eq_true] at hc
    exact ⟨x.record, h.perm.subset (mem_records.mpr ⟨x, hx, hc.1, rfl⟩), hc.2⟩
  · rintro ⟨r, hr, hc⟩
    obtain ⟨x, hx, hactive, rfl⟩ := mem_records.mp (h.perm.symm.subset hr)
    exact ⟨x, hx, by rw [hactive, hc]; rfl⟩

theorem Accounted.opened_iff (h : Accounted s) {flags : UInt32}
    {fsOpen trunc : Bool} (hfree : Unobstructed s flags fsOpen trunc) :
    (vfsOpen s.node flags fsOpen trunc).2 = .opened ↔
      ¬ ∃ r ∈ s.live, conflicts (accessOf flags, shareOf flags) r = true := by
  obtain ⟨htrunc, hdelete, hroom, hfs⟩ := hfree
  have hcheck := h.checkSharing_iff flags (shareOf flags)
  have hnoTrunc : ¬ (flags &&& vfsOTrunc ≠ 0 ∧ flags &&& vfsOWrite = 0) :=
    fun hc => (htrunc hc.1).1 hc.2
  have hnoDelete : ¬ (s.node.deleteOnClose = true ∧ flags &&& vfsODeleteOnClose = 0) :=
    fun hc => hdelete hc.1 hc.2
  unfold vfsOpen
  simp only [h.file, Bool.not_true, Bool.false_eq_true, if_false, Bool.true_and, Bool.and_eq_true,
    decide_eq_true_eq]
  rw [if_neg hnoTrunc, if_neg hnoDelete]
  by_cases hc : ∃ r ∈ s.live, conflicts (accessOf flags, shareOf flags) r = true
  · obtain ⟨r, hr, -⟩ := id hc
    have hcount : 0 < s.node.refCount := by
      rw [h.count]
      exact length_pos_of_mem hr
    rw [if_pos ⟨hcount, hcheck.mpr hc⟩]
    simp [hc]
  · rw [if_neg (fun hx => hc (hcheck.mp hx.2))]
    have hopen : (openHandle s.node flags (shareOf flags) fsOpen trunc).2 = .opened := by
      unfold openHandle
      generalize hmark : (if flags &&& vfsODeleteOnClose ≠ 0 then
        { s.node with deleteOnClose := true } else s.node) = marked
      obtain ⟨hf, hh⟩ : marked.isFile = true ∧ marked.openHandles = s.node.openHandles := by
        rw [← hmark]
        split <;> exact ⟨h.file, rfl⟩
      simp only [hf, if_true, hh]
      cases hadd : addHandle s.node.openHandles flags (shareOf flags) with
      | none =>
        have hfull := addHandle_none hadd
        rw [h.perm.length_eq, h.slots] at hfull
        omega
      | some p =>
        have hno : ¬ (flags &&& vfsOTrunc ≠ 0 ∧ trunc = false) := by
          rintro ⟨ht, hf⟩
          rw [(htrunc ht).2] at hf
          cases hf
        simp only [hfs, Bool.not_true, Bool.false_eq_true, if_false, Bool.and_eq_true,
          decide_eq_true_eq, Bool.not_eq_true']
        rw [if_neg hno]
    simp [hopen, hc]

/-- In a run on a file in which every close finds the record of its own handle, the active records
are those of the open handles, and sharing refuses an open exactly when it conflicts with one of
them. -/
theorem shareRun_accounted (calls : List ShareCall)
    (hmatch : Refine.Meets shareExec CloseMatches (newNode true) calls) :
    let s := calls.foldl shareExec (newNode true)
    (records s.node.openHandles : Multiset (UInt32 × UInt32)) = s.live ∧
      ∀ flags fsOpen trunc, Unobstructed s flags fsOpen trunc →
        ((vfsOpen s.node flags fsOpen trunc).2 ≠ .opened ↔
          ∃ r ∈ s.live, conflicts (accessOf flags, shareOf flags) r = true) := by
  have h : Accounted (calls.foldl shareExec (newNode true)) :=
    hmatch.invariant Accounted (fun _ _ hs hc => hs.exec hc) accounted_newNode
  refine ⟨Multiset.coe_eq_coe.mpr h.perm, ?_⟩
  intro flags fsOpen trunc hfree
  rw [ne_eq, h.opened_iff hfree, not_not]

/-- Two opens closed last one first. -/
theorem shareRun_accounted_nested :
    let s := [ShareCall.openFile 1 true true, .openFile 3 true true, .closeFile 1].foldl shareExec
      (newNode true)
    (records s.node.openHandles : Multiset (UInt32 × UInt32)) = s.live := by
  refine (shareRun_accounted [.openFile 1 true true, .openFile 3 true true, .closeFile 1] ?_).1
  refine ⟨trivial, trivial, ?_, trivial⟩
  intro r hr
  have hlive : (shareExec (shareExec (newNode true) (.openFile 1 true true))
      (.openFile 3 true true)).live[1]? = some (3, 7) := by decide
  rw [hlive] at hr
  cases hr
  decide

/-- A reader and a writer; the reader closes and the writer's record goes. An open that shares
reading only is then let in beside the writer. -/
theorem shareRun_mismatch :
    let s := [ShareCall.openFile 1 true true, .openFile 2 true true, .closeFile 0].foldl shareExec
      (newNode true)
    s.live = [(2, 7)] ∧ records s.node.openHandles = [(1, 7)] ∧
      (records s.node.openHandles : Multiset (UInt32 × UInt32)) ≠ s.live ∧
      conflicts (accessOf 0x101, shareOf 0x101) (2, 7) = true ∧
      (vfsOpen s.node 0x101 true true).2 = .opened := by
  decide

end ImpossibleOs.Vfs
