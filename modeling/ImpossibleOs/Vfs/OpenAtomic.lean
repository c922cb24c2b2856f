import ImpossibleOs.Vfs.Share

/-!
Failed opens and oplocks (`src/kernel/fs/vfs.c`, `vfs_open`).

An open breaks the oplock of a file before the checks that may refuse it. The
mark for deletion, the handle slot and the flags follow, and of these a failure
takes back the slot only. The open, truncate and close hooks of the file systems
leave all of this alone; they are their answers here.
-/

namespace ImpossibleOs.Vfs

inductive OplockLevel where
  | none
  | level1
  | level2
  deriving DecidableEq, Repr

structure OplockNode where
  node : VfsNode
  oplockLevel : OplockLevel
  oplockOwner : UInt32
  deriving DecidableEq, Repr

def vfsBreakOplock (n : OplockNode) (access : UInt32) : OplockNode :=
  match n.oplockLevel with
  | .none => n
  | .level1 =>
    if access &&& vfsOWrite ≠ 0 then { n with oplockLevel := .none, oplockOwner := 0 }
    else { n with oplockLevel := .level2, oplockOwner := 0 }
  | .level2 => if access &&& vfsOWrite ≠ 0 then { n with oplockLevel := .none } else n

def openFlags (node : VfsNode) (flags : UInt32) : UInt32 :=
  if !node.isFile then flags &&& ~~~vfsOTrunc else flags

def truncWithoutWrite (node : VfsNode) (flags : UInt32) : Bool :=
  node.isFile && flags &&& vfsOTrunc ≠ 0 && flags &&& vfsOWrite = 0

/-- The part of `vfs_open` behind the oplock. -/
def openChecked (node : VfsNode) (flags share : UInt32) (fsOpen trunc : Bool) :
    VfsNode × OpenResult :=
  if node.deleteOnClose && flags &&& vfsODeleteOnClose = 0 then (node, .deletePending)
  else if node.isFile && 0 < node.refCount && checkSharing node flags share then
    (node, .sharingViolation)
  else openHandle node flags share fsOpen trunc

/-- `vfs_open`, from the node that the path leads to on. -/
def vfsOpenOplock (n : OplockNode) (flags : UInt32) (fsOpen trunc : Bool) :
    OplockNode × OpenResult :=
  let share := shareOf flags
  let flags := openFlags n.node flags
  if truncWithoutWrite n.node flags then (n, .truncReadOnly)
  else
    let n := if n.node.isFile then vfsBreakOplock n flags else n
    let r := openChecked n.node flags share fsOpen trunc
    ({ n with node := r.1 }, r.2)

def activeOpens (handles : List VfsOpenHandle) : List (Option (UInt32 × UInt32)) :=
  handles.map fun h => if h.active then some h.record else none

/-- What an open that fails is to leave alone. -/
structure OpenUndone (n n' : OplockNode) : Prop where
  flags : n'.node.flags = n.node.flags
  deleteOnClose : n'.node.deleteOnClose = n.node.deleteOnClose
  level : n'.oplockLevel = n.oplockLevel
  owner : n'.oplockOwner = n.oplockOwner
  opens : activeOpens n'.node.openHandles = activeOpens n.node.openHandles

instance (n n' : OplockNode) : Decidable (OpenUndone n n') :=
  decidable_of_iff
    (n'.node.flags = n.node.flags ∧ n'.node.deleteOnClose = n.node.deleteOnClose ∧
      n'.oplockLevel = n.oplockLevel ∧ n'.oplockOwner = n.oplockOwner ∧
      activeOpens n'.node.openHandles = activeOpens n.node.openHandles)
    ⟨fun ⟨a, b, c, d, e⟩ => ⟨a, b, c, d, e⟩, fun ⟨a, b, c, d, e⟩ => ⟨a, b, c, d, e⟩⟩

def OpenResult.isRefusal : OpenResult → Bool
  | .truncReadOnly | .deletePending | .sharingViolation => true
  | .opened | .tableFull | .openFailed | .truncFailed => false

def OpenResult.isDriverFailure : OpenResult → Bool
  | .openFailed | .truncFailed => true
  | .opened | .tableFull | .truncReadOnly | .deletePending | .sharingViolation => false

variable {n : OplockNode} {node : VfsNode} {flags share : UInt32} {fsOpen trunc : Bool}

@[simp] theorem vfsBreakOplock_node (n : OplockNode) (access : UInt32) :
    (vfsBreakOplock n access).node = n.node := by
  unfold vfsBreakOplock
  split
  · rfl
  · split <;> rfl
  · split <;> rfl

theorem activeOpens_set_inactive {handles : List VfsOpenHandle} {i : ℕ} {h h' : VfsOpenHandle}
    (hi : handles[i]? = some h) (hfree : h.active = false) (hfree' : h'.active = false) :
    activeOpens (handles.set i h') = activeOpens handles := by
  obtain ⟨l, r, hsplit, hset⟩ := split_at hi h'
  rw [hset, hsplit]
  simp [activeOpens, hfree, hfree']

theorem activeOpens_removeHandleAt {handles handles' : List VfsOpenHandle} {i : ℕ}
    {access : UInt32} (hadd : addHandle handles access share = some (handles', i)) :
    activeOpens (removeHandleAt handles' i) = activeOpens handles := by
  obtain ⟨h, hi, hfree, rfl⟩ := addHandle_some hadd
  have hlt := (List.getElem?_eq_some_iff.mp hi).1
  rw [removeHandleAt, List.modify_eq_set_getElem?, List.getElem?_set_self hlt]
  simp only [List.set_set, Option.map_eq_map, Option.map_some, Option.getD_some]
  exact activeOpens_set_inactive hi hfree rfl

/-! ### The part behind the checks -/

/-- What the part behind the checks leaves when it fails. -/
structure HandleFailed (node : VfsNode) (flags : UInt32) (res : VfsNode × OpenResult) : Prop where
  refusal : res.2.isRefusal = false
  opens : activeOpens res.1.openHandles = activeOpens node.openHandles
  flags_kept : res.2.isDriverFailure = false → res.1.flags = node.flags
  mark_kept : flags &&& vfsODeleteOnClose = 0 → res.1.deleteOnClose = node.deleteOnClose

theorem openHandle_failed (hfail : (openHandle node flags share fsOpen trunc).2 ≠ .opened) :
    HandleFailed node flags (openHandle node flags share fsOpen trunc) := by
  revert hfail
  unfold openHandle
  generalize hmark : (if flags &&& vfsODeleteOnClose ≠ 0 then { node with deleteOnClose := true }
    else node) = marked
  obtain ⟨hh, hflags, hdelete⟩ : marked.openHandles = node.openHandles ∧
      marked.flags = node.flags ∧
      (flags &&& vfsODeleteOnClose = 0 → marked.deleteOnClose = node.deleteOnClose) := by
    rw [← hmark]
    split
    · rename_i hgiven
      exact ⟨rfl, rfl, fun hnot => absurd hnot hgiven⟩
    · exact ⟨rfl, rfl, fun _ => rfl⟩
  dsimp only
  split
  · cases hadd : addHandle marked.openHandles flags share with
    | none => exact fun _ => ⟨rfl, congrArg activeOpens hh, fun _ => hflags, hdelete⟩
    | some p =>
      obtain ⟨handles', i⟩ := p
      have hopens : activeOpens (removeHandleAt handles' i) = activeOpens node.openHandles :=
        (activeOpens_removeHandleAt hadd).trans (congrArg activeOpens hh)
      dsimp only
      split
      · exact fun _ => ⟨rfl, hopens, nofun, hdelete⟩
      split
      · exact fun _ => ⟨rfl, hopens, nofun, hdelete⟩
      · exact fun hfail => absurd rfl hfail
  · split
    · exact fun _ => ⟨rfl, congrArg activeOpens hh, nofun, hdelete⟩
    · exact fun hfail => absurd rfl hfail

/-- What the part behind the oplock leaves when it fails. -/
structure CheckedFailed (node : VfsNode) (flags : UInt32) (res : VfsNode × OpenResult) :
    Prop where
  opens : activeOpens res.1.openHandles = activeOpens node.openHandles
  flags_kept : res.2.isDriverFailure = false → res.1.flags = node.flags
  mark_kept : res.2.isRefusal = true ∨ flags &&& vfsODeleteOnClose = 0 →
    res.1.deleteOnClose = node.deleteOnClose
  answer : res.2 ≠ .truncReadOnly

theorem CheckedFailed.of_same {r : OpenResult} (hr : r ≠ .truncReadOnly) :
    CheckedFailed node flags (node, r) :=
  ⟨rfl, fun _ => rfl, fun _ => rfl, hr⟩

theorem HandleFailed.checked {res : VfsNode × OpenResult} (h : HandleFailed node flags res) :
    CheckedFailed node flags res := by
  refine ⟨h.opens, h.flags_kept, ?_, ?_⟩
  · rintro (hrefusal | hnot)
    · exact absurd (hrefusal.symm.trans h.refusal) Bool.noConfusion
    · exact h.mark_kept hnot
  · intro heq
    have hrefusal := h.refusal
    rw [heq] at hrefusal
    exact Bool.noConfusion hrefusal

theorem openChecked_failed (hfail : (openChecked node flags share fsOpen trunc).2 ≠ .opened) :
    CheckedFailed node flags (openChecked node flags share fsOpen trunc) := by
  revert hfail
  unfold openChecked
  split
  · exact fun _ => .of_same nofun
  split
  · exact fun _ => .of_same nofun
  · exact fun hfail => (openHandle_failed hfail).checked

theorem openFlags_deleteOnClose (node : VfsNode) (flags : UInt32) :
    openFlags node flags &&& vfsODeleteOnClose = flags &&& vfsODeleteOnClose := by
  unfold openFlags
  split
  · rw [UInt32.and_assoc]
    rfl
  · rfl

theorem openFlags_file (hfile : node.isFile = true) : openFlags node flags = flags := by
  rw [openFlags, hfile]
  rfl

/-- What a failed open leaves. The oplock of a file is broken unless the open is refused
before. -/
structure OpenFailed (n : OplockNode) (flags : UInt32) (res : OplockNode × OpenResult) :
    Prop where
  opens : activeOpens res.1.node.openHandles = activeOpens n.node.openHandles
  oplock : res.1 = { n with node := res.1.node } ∨
    n.node.isFile = true ∧ res.2 ≠ .truncReadOnly ∧
      res.1 = { vfsBreakOplock n flags with node := res.1.node }
  flags_kept : res.2.isDriverFailure = false → res.1.node.flags = n.node.flags
  mark_kept : res.2.isRefusal = true ∨ flags &&& vfsODeleteOnClose = 0 →
    res.1.node.deleteOnClose = n.node.deleteOnClose

/-- An open that fails leaves the active opens as they are, and the oplock but for the break that
goes before the checks. -/
theorem vfsOpen_failed (n : OplockNode) (flags : UInt32) (fsOpen trunc : Bool)
    (hfail : (vfsOpenOplock n flags fsOpen trunc).2 ≠ .opened) :
    OpenFailed n flags (vfsOpenOplock n flags fsOpen trunc) := by
  revert hfail
  unfold vfsOpenOplock
  dsimp only
  split
  · exact fun _ => ⟨rfl, .inl rfl, fun _ => rfl, fun _ => rfl⟩
  intro hfail
  have hchecked := openChecked_failed hfail
  cases hfile : n.node.isFile with
  | true =>
    simp only [hfile, if_true, vfsBreakOplock_node, openFlags_file hfile] at hchecked ⊢
    exact ⟨hchecked.opens, .inr ⟨hfile, hchecked.answer, rfl⟩, hchecked.flags_kept,
      hchecked.mark_kept⟩
  | false =>
    simp only [hfile, Bool.false_eq_true, if_false] at hchecked ⊢
    refine ⟨hchecked.opens, .inl rfl, hchecked.flags_kept, ?_⟩
    rw [← openFlags_deleteOnClose n.node flags]
    exact hchecked.mark_kept

def cachedFile : OplockNode where
  node := {
    isFile := true
    flags := vfsORead
    refCount := 1
    openHandles := ⟨vfsORead, 0x01, true⟩ :: List.replicate 3 ⟨0, 0, false⟩
    deleteOnClose := false }
  oplockLevel := .level1
  oplockOwner := 7

theorem vfsOpen_failed_sharing :
    OpenFailed cachedFile vfsOWrite (vfsOpenOplock cachedFile vfsOWrite true true) :=
  vfsOpen_failed cachedFile vfsOWrite true true (by decide)

/-- A writer that sharing refuses breaks the oplock all the same. -/
theorem vfsOpen_not_undone : (vfsOpenOplock cachedFile vfsOWrite true true).2 = .sharingViolation ∧
      ¬ OpenUndone cachedFile (vfsOpenOplock cachedFile vfsOWrite true true).1 := by
  decide

end ImpossibleOs.Vfs
