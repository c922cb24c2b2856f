import Mathlib.Algebra.BigOperators.Group.Finset.Basic
import Mathlib.Data.Nat.Bitwise
import Mathlib.Data.UInt

/-!
The key tree of the registry (`src/kernel/registry.c`).

Keys come from a pool whose slots are never used twice, so a key is its index.
The children of a key hang in sixteen chains, one for each value of a hash of the
name that does not see case. A deleted key keeps its slot, with an empty name.
-/

namespace ImpossibleOs.Registry

open Function List

/-! ### Names -/

abbrev NameChar := {c : UInt8 // c ≠ 0}

abbrev Name := List NameChar

def maxKeyName : ℕ := 255
def maxValueName : ℕ := 255
def maxValueSize : ℕ := 512
def childBuckets : ℕ := 16
def keyPoolSize : ℕ := 512
def valuePoolSize : ℕ := 1024

/-- The characters of a buffer up to its first zero. -/
def cString : List UInt8 → Name
  | [] => []
  | b :: bs => if h : b = 0 then [] else ⟨b, h⟩ :: cString bs

def upcaseChar (c : NameChar) : ℕ :=
  let c := c.1.toNat
  if 0x61 ≤ c ∧ c ≤ 0x7A then c - 0x20
  else if c < 0x80 then c
  else if 0xE0 ≤ c ∧ c ≤ 0xFE ∧ c ≠ 0xF7 then c - 0x20
  else if c = 0xFF then 0x178
  else c

def fnv1a (name : Name) : ℕ :=
  name.foldl (fun hash c => (hash ^^^ upcaseChar c) * 0x01000193 % 2 ^ 32) 0x811C9DC5

def bucket (name : Name) : ℕ := fnv1a name &&& (childBuckets - 1)

def stricmp : Name → Name → ℤ
  | [], [] => 0
  | a :: _, [] => upcaseChar a
  | [], b :: _ => -upcaseChar b
  | a :: as, b :: bs =>
    if upcaseChar a ≠ upcaseChar b then upcaseChar a - upcaseChar b else stricmp as bs

theorem upcaseChar_pos (c : NameChar) : 0 < upcaseChar c := by
  have hc : c.1.toNat ≠ 0 := fun h => c.2 (UInt8.toNat_inj.mp h)
  unfold upcaseChar
  dsimp only
  split_ifs <;> omega

theorem stricmp_eq_zero {a b : Name} : stricmp a b = 0 ↔ a.map upcaseChar = b.map upcaseChar := by
  induction a generalizing b with
  | nil =>
    cases b with
    | nil => simp [stricmp]
    | cons y b =>
      have := upcaseChar_pos y
      simp [stricmp]
      omega
  | cons x a ih =>
    cases b with
    | nil =>
      have := upcaseChar_pos x
      simp [stricmp]
      omega
    | cons y b =>
      rw [stricmp, map_cons, map_cons, List.cons.injEq]
      split
      · rename_i hne
        simp [hne]
        omega
      · rename_i heq
        simp [ih, not_not.mp heq]

theorem stricmp_self (a : Name) : stricmp a a = 0 := stricmp_eq_zero.mpr rfl

theorem stricmp_symm {a b : Name} (h : stricmp a b = 0) : stricmp b a = 0 :=
  stricmp_eq_zero.mpr (stricmp_eq_zero.mp h).symm

theorem stricmp_trans {a b c : Name} (h : stricmp a b = 0) (h' : stricmp b c = 0) :
    stricmp a c = 0 :=
  stricmp_eq_zero.mpr ((stricmp_eq_zero.mp h).trans (stricmp_eq_zero.mp h'))

theorem bucket_lt (name : Name) : bucket name < childBuckets := by
  rw [bucket, show childBuckets - 1 = 2 ^ 4 - 1 by rfl, Nat.and_two_pow_sub_one_eq_mod]
  exact Nat.mod_lt _ (by decide)

theorem bucket_congr {a b : Name} (h : stricmp a b = 0) : bucket a = bucket b := by
  have hfold (name : Name) : fnv1a name =
      (name.map upcaseChar).foldl (fun hash c => (hash ^^^ c) * 0x01000193 % 2 ^ 32)
        0x811C9DC5 := by
    rw [fnv1a, foldl_map]
  rw [bucket, bucket, hfold a, hfold b, stricmp_eq_zero.mp h]

theorem stricmp_nil {a : Name} (h : stricmp a [] = 0) : a = [] :=
  map_eq_nil_iff.mp (stricmp_eq_zero.mp h)

/-! ### Keys and values -/

structure Value where
  name : Name
  type : UInt32
  data : ℕ → UInt8
  dataSize : ℕ

structure Key where
  name : Name
  parent : Option ℕ
  /-- The chains `children[b]`. -/
  children : ℕ → List ℕ
  childCount : ℕ
  values : List Value
  valueCount : ℕ
  /-- `REG_FLAG_VOLATILE` -/
  isVolatile : Bool
  /-- `REG_FLAG_LINK` -/
  isLink : Bool

/-- A slot of the pool before its first use. -/
def Key.blank : Key := ⟨[], none, fun _ => [], 0, [], 0, false, false⟩

/-! The root keys are the first ones of the pool. -/

def rootHklm : ℕ := 0
def rootHku : ℕ := 3
def rootHkcc : ℕ := 4

/-- The pools, and how many of their slots have been used. -/
structure Tree where
  key : ℕ → Key
  keyNext : ℕ
  valueNext : ℕ

namespace Tree

def setKey (t : Tree) (k : ℕ) (key : Key) : Tree := { t with key := update t.key k key }

@[simp] theorem setKey_self (t : Tree) (k : ℕ) (key : Key) : (t.setKey k key).key k = key :=
  update_self ..

@[simp] theorem setKey_of_ne (t : Tree) {k k' : ℕ} (key : Key) (h : k' ≠ k) :
    (t.setKey k key).key k' = t.key k' :=
  update_of_ne h ..

/-- `reg_alloc_key`; the name is cut to what fits. -/
def allocKey (t : Tree) (name : Name) : Option (Tree × ℕ) :=
  if keyPoolSize ≤ t.keyNext then none
  else
    some ({ t.setKey t.keyNext { Key.blank with name := name.take maxKeyName } with
      keyNext := t.keyNext + 1 }, t.keyNext)

def addChild (t : Tree) (parent child : ℕ) : Tree :=
  let b := bucket (t.key child).name
  let p := t.key parent
  let t := t.setKey parent
    { p with
      children := update p.children b (child :: p.children b)
      childCount := p.childCount + 1 }
  t.setKey child { t.key child with parent := some parent }

def findChild (t : Tree) (parent : ℕ) (name : Name) : Option ℕ :=
  ((t.key parent).children (bucket name)).find? fun c => stricmp (t.key c).name name = 0

def createChild (t : Tree) (parent : ℕ) (name : Name) : Tree × Option ℕ :=
  match t.findChild parent name with
  | some c => (t, some c)
  | none =>
    match t.allocKey name with
    | none => (t, none)
    | some (t, c) => (t.addChild parent c, some c)

/-- `reg_remove_child`; a key that is not in its chain is left alone. -/
def removeChild (t : Tree) (parent child : ℕ) : Tree :=
  let b := bucket (t.key child).name
  let p := t.key parent
  if child ∈ p.children b then
    let t := t.setKey parent
      { p with
        children := update p.children b ((p.children b).erase child)
        childCount := p.childCount - 1 }
    t.setKey child { t.key child with parent := none }
  else t

/-- `reg_remove_child(k->parent, k)` -/
def detach (t : Tree) (k : ℕ) : Tree :=
  match (t.key k).parent with
  | none => t
  | some p => t.removeChild p k

def freeValues (t : Tree) (k : ℕ) : Tree :=
  t.setKey k { t.key k with values := [], valueCount := 0 }

/-- Mark the slot of a key as freed. -/
def tombstone (t : Tree) (k : ℕ) : Tree :=
  t.setKey k { t.key k with name := [], isVolatile := false, isLink := false }

def rename (t : Tree) (k : ℕ) (name : Name) : Tree :=
  t.setKey k { t.key k with name := name.take maxKeyName }

/-- `reg_alloc_value`; the name is cut to what fits. -/
def allocValue (t : Tree) (name : Name) (type : UInt32) : Option (Tree × Value) :=
  if valuePoolSize ≤ t.valueNext then none
  else some ({ t with valueNext := t.valueNext + 1 }, ⟨name.take maxValueName, type, fun _ => 0, 0⟩)

end Tree

namespace Value

/-- Write `bytes` to the front of the data. -/
def write (v : Value) (bytes : List UInt8) : Value :=
  { v with data := fun i => if h : i < bytes.length then bytes[i] else v.data i }

/-- Type, size and data of a value; without data only the size is set. -/
def put (v : Value) (type : UInt32) (data : Option (List UInt8)) (size : ℕ) : Value :=
  let v := { v with type := type, dataSize := size }
  match data with
  | none => v
  | some bytes => v.write (bytes.take size)

def bytes (v : Value) : List UInt8 := (List.range v.dataSize).map v.data

end Value

/-- `reg_find_value_in_key` -/
def findValue (values : List Value) (name : Name) : Option Value :=
  values.find? fun v => stricmp v.name name = 0

def updateValue (name : Name) (f : Value → Value) : List Value → List Value
  | [] => []
  | v :: vs => if stricmp v.name name = 0 then f v :: vs else v :: updateValue name f vs

end ImpossibleOs.Registry
