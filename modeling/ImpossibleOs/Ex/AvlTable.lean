import Mathlib.Algebra.Order.Ring.Int

/-!
The balanced generic table (`src/kernel/ex/ex_avltable.c`).

Nodes are addresses with 0 for `NULL`, and the memory is kept field by field. A
walk along pointers has fuel, and `none` stands for one that has not come to
its end. The allocation routine is an argument of the insertion: the address
that it returns, 0 when it fails.
-/

namespace ImpossibleOs.Ex

open Function

/-- The `RTL_BALANCED_LINKS` of all nodes, and the elements behind them. -/
structure Nodes (α : Type) where
  parent : ℕ → ℕ
  left : ℕ → ℕ
  right : ℕ → ℕ
  height : ℕ → ℤ
  body : ℕ → α

variable {α : Type}

namespace Nodes

@[simps -fullyApplied left right height body]
def setParent (m : Nodes α) (n v : ℕ) : Nodes α :=
  { m with parent := update m.parent n v }

@[simps -fullyApplied parent right height body]
def setLeft (m : Nodes α) (n v : ℕ) : Nodes α := { m with left := update m.left n v }

@[simps -fullyApplied parent left height body]
def setRight (m : Nodes α) (n v : ℕ) : Nodes α := { m with right := update m.right n v }

@[simps -fullyApplied parent left right body]
def setHeight (m : Nodes α) (n : ℕ) (v : ℤ) : Nodes α :=
  { m with height := update m.height n v }

/-- A store that is made when the address is not `NULL`. -/
def setParentOf (m : Nodes α) (n v : ℕ) : Nodes α := if n ≠ 0 then m.setParent n v else m

end Nodes

structure AvlTable (α : Type) where
  nodes : Nodes α
  root : ℕ
  numberOfElements : UInt32
  enumNext : ℕ

/-- `RtlInitializeGenericTableAvl`, over whatever the memory holds. -/
def rtlInitialize (nodes : Nodes α) : AvlTable α := ⟨nodes, 0, 0, 0⟩

/-! ### Balancing -/

def avlHeight (m : Nodes α) (n : ℕ) : ℤ := if n = 0 then 0 else m.height n

def avlUpdateHeight (m : Nodes α) (n : ℕ) : Nodes α :=
  m.setHeight n (1 + max (avlHeight m (m.left n)) (avlHeight m (m.right n)))

def avlBalance (m : Nodes α) (n : ℕ) : ℤ :=
  if n = 0 then 0 else avlHeight m (m.right n) - avlHeight m (m.left n)

/-- The links of `avl_rotate_left`, before the heights are computed again. -/
def linkLeft (m : Nodes α) (x : ℕ) : Nodes α :=
  let y := m.right x
  let t2 := m.left y
  (((m.setLeft y x).setParent x y).setRight x t2).setParentOf t2 x

def avlRotateLeft (m : Nodes α) (x : ℕ) : Nodes α × ℕ :=
  let y := m.right x
  (avlUpdateHeight (avlUpdateHeight (linkLeft m x) x) y, y)

def linkRight (m : Nodes α) (x : ℕ) : Nodes α :=
  let y := m.left x
  let t2 := m.right y
  (((m.setRight y x).setParent x y).setLeft x t2).setParentOf t2 x

def avlRotateRight (m : Nodes α) (x : ℕ) : Nodes α × ℕ :=
  let y := m.left x
  (avlUpdateHeight (avlUpdateHeight (linkRight m x) x) y, y)

/-- `avl_rebalance`: the memory and the root of the subtree, whose parent the caller sets. -/
def avlRebalance (m : Nodes α) (n : ℕ) : Nodes α × ℕ :=
  let m := avlUpdateHeight m n
  if avlBalance m n < -1 then
    let m := if avlBalance m (m.left n) > 0 then
        let (m, c) := avlRotateLeft m (m.left n)
        (m.setLeft n c).setParent c n
      else m
    avlRotateRight m n
  else if avlBalance m n > 1 then
    let m := if avlBalance m (m.right n) < 0 then
        let (m, c) := avlRotateRight m (m.right n)
        (m.setRight n c).setParent c n
      else m
    avlRotateLeft m n
  else (m, n)

/-! ### Lookup and insertion -/

variable (cmp : α → α → Ordering)

def avlFind (m : Nodes α) (key : α) : ℕ → ℕ → Option ℕ
  | 0, _ => none
  | fuel + 1, n =>
    if n = 0 then some 0
    else
      match cmp key (m.body n) with
      | .lt => avlFind m key fuel (m.left n)
      | .gt => avlFind m key fuel (m.right n)
      | .eq => some n

/-- `RtlLookupElementGenericTableAvl`: the node of the element, or 0. -/
def rtlLookup (fuel : ℕ) (t : AvlTable α) (key : α) : Option ℕ :=
  avlFind cmp t.nodes key fuel t.root

def avlInsertRec (nn : ℕ) : ℕ → Nodes α → ℕ → Option (Nodes α × ℕ)
  | 0, _, _ => none
  | fuel + 1, m, root =>
    if root = 0 then some (m, nn)
    else
      match cmp (m.body nn) (m.body root) with
      | .lt => do
        let (m, c) ← avlInsertRec nn fuel m (m.left root)
        some (avlRebalance ((m.setLeft root c).setParent c root) root)
      | _ => do
        let (m, c) ← avlInsertRec nn fuel m (m.right root)
        some (avlRebalance ((m.setRight root c).setParent c root) root)

/-- The size of `RTL_BALANCED_LINKS`. -/
def linksSize : UInt32 := 32

def newNode (m : Nodes α) (nn : ℕ) (buffer : α) : Nodes α where
  parent := update m.parent nn 0
  left := update m.left nn 0
  right := update m.right nn 0
  height := update m.height nn 1
  body := update m.body nn buffer

/-- `RtlInsertElementGenericTableAvl`: the table, the node that is returned (0 for none) and
`*new_element`. -/
def rtlInsert (fuel : ℕ) (t : AvlTable α) (buffer : α) (size : UInt32) (allocated : ℕ) :
    Option (AvlTable α × ℕ × Bool) :=
  if size = 0 ∨ size > 0xFFFFFFFF - linksSize then some (t, 0, false)
  else do
    let existing ← avlFind cmp t.nodes buffer fuel t.root
    if existing ≠ 0 then some (t, existing, false)
    else if allocated = 0 then some (t, 0, false)
    else do
      let (m, root) ← avlInsertRec cmp allocated fuel (newNode t.nodes allocated buffer) t.root
      some ({ t with
        nodes := m.setParent root 0, root := root
        numberOfElements := t.numberOfElements + 1 }, allocated, true)

/-! ### Deletion -/

def avlMin (m : Nodes α) : ℕ → ℕ → Option ℕ
  | 0, _ => none
  | fuel + 1, n => if n ≠ 0 ∧ m.left n ≠ 0 then avlMin m fuel (m.left n) else some n

/-- Where `old` is linked, under `p` or as the root, `new` is. -/
def relink (t : AvlTable α) (p old new : ℕ) : AvlTable α :=
  if p = 0 then { t with root := new }
  else if t.nodes.left p = old then { t with nodes := t.nodes.setLeft p new }
  else { t with nodes := t.nodes.setRight p new }

/-- `y` is taken out, with `x`, its only child or `NULL`, in its place. -/
def spliceOut (t : AvlTable α) (y : ℕ) : AvlTable α :=
  let x := if t.nodes.left y ≠ 0 then t.nodes.left y else t.nodes.right y
  let p := t.nodes.parent y
  relink { t with nodes := t.nodes.setParentOf x p } p y x

def takePlace (t : AvlTable α) (y z : ℕ) : AvlTable α :=
  let m := t.nodes
  let m := m.setParent y (m.parent z)
  let m := m.setLeft y (m.left z)
  let m := m.setRight y (m.right z)
  let m := m.setHeight y (m.height z)
  let m := m.setParentOf (m.left z) y
  let m := m.setParentOf (m.right z) y
  relink { t with nodes := m } (m.parent z) z y

/-- One turn of the way back: `n` is rebalanced and a new root of its subtree is linked. -/
def retraceStep (t : AvlTable α) (n : ℕ) : AvlTable α :=
  let parent := t.nodes.parent n
  let (m, new) := avlRebalance t.nodes n
  let t := { t with nodes := m }
  if new ≠ n then
    let t := relink t parent n new
    { t with nodes := t.nodes.setParent new parent }
  else t

def retrace : ℕ → AvlTable α → ℕ → Option (AvlTable α)
  | 0, _, _ => none
  | fuel + 1, t, n =>
    if n = 0 then some t else retrace fuel (retraceStep t n) (t.nodes.parent n)

/-- `RtlDeleteElementGenericTableAvl`: the table and the node that goes to the free routine; it
returns false when there is none. -/
def rtlDelete (fuel : ℕ) (t : AvlTable α) (key : α) : Option (AvlTable α × ℕ) := do
  let z ← avlFind cmp t.nodes key fuel t.root
  if z = 0 then some (t, 0)
  else do
    let y ← if t.nodes.left z ≠ 0 ∧ t.nodes.right z ≠ 0
      then avlMin t.nodes fuel (t.nodes.right z) else some z
    let p := t.nodes.parent y
    let t := spliceOut t y
    let (t, start) := if y ≠ z then (takePlace t y z, if p = z then y else p) else (t, p)
    let t ← retrace fuel t start
    some ({ t with numberOfElements := t.numberOfElements - 1, enumNext := 0 }, z)

/-! ### Enumeration -/

/-- The climb of `avl_successor`. -/
def climb (m : Nodes α) : ℕ → ℕ → Option ℕ
  | 0, _ => none
  | fuel + 1, n =>
    if m.parent n ≠ 0 ∧ m.right (m.parent n) = n then climb m fuel (m.parent n)
    else some (m.parent n)

def avlSuccessor (fuel : ℕ) (m : Nodes α) (n : ℕ) : Option ℕ :=
  if m.right n ≠ 0 then avlMin m fuel (m.right n) else climb m fuel n

/-- `RtlEnumerateGenericTableAvl`: the next element. -/
def rtlEnumerate (fuel : ℕ) (t : AvlTable α) (restart : Bool) : Option (AvlTable α × Option α) := do
  let t ← if restart then (avlMin t.nodes fuel t.root).map fun n => { t with enumNext := n }
    else some t
  let cur := t.enumNext
  if cur = 0 then some (t, none)
  else do
    let next ← avlSuccessor fuel t.nodes cur
    some ({ t with enumNext := next }, some (t.nodes.body cur))

/-- The elements that further calls yield, up to the first `NULL`. -/
def enumerateRest (fuel : ℕ) : ℕ → AvlTable α → Option (List α)
  | 0, _ => none
  | steps + 1, t => do
    let (t, cur) ← rtlEnumerate fuel t false
    match cur with
    | none => some []
    | some x => (enumerateRest fuel steps t).map (x :: ·)

/-- A restarted enumeration, up to the first `NULL`. -/
def enumerateAll (fuel : ℕ) (t : AvlTable α) : Option (List α) := do
  let (t, cur) ← rtlEnumerate fuel t true
  match cur with
  | none => some []
  | some x => (enumerateRest fuel fuel t).map (x :: ·)

inductive AvlCall (α : Type) where
  | insert (buffer : α) (size : UInt32) (allocated : ℕ)
  | delete (key : α)

/-- The table and the nodes that the allocation routine has handed out. -/
structure AvlState (α : Type) where
  table : AvlTable α
  live : List ℕ

/-- A call and what it reports: a new element, or an element deleted. -/
def avlExec (fuel : ℕ) (s : AvlState α) : AvlCall α → Option (AvlState α × Bool)
  | .insert buffer size allocated =>
    (rtlInsert cmp fuel s.table buffer size allocated).map fun res =>
      (⟨res.1, if res.2.2 then allocated :: s.live else s.live⟩, res.2.2)
  | .delete key =>
    (rtlDelete cmp fuel s.table key).map fun res =>
      (⟨res.1, s.live.erase res.2⟩, decide (res.2 ≠ 0))

end ImpossibleOs.Ex
