import Mathlib.Data.List.Nodup
import ImpossibleOs.Ex.AvlTable
import ImpossibleOs.Lib.AvlTree

/-!
Trees in memory.

`Rep m p t` says that the nodes of `t` are linked from `p` on, with the right
heights and parents; the parent of the root is left open, since the rotations
leave it to their caller. `Child` adds it. Every operation has a lemma that
names the tree it leaves and what it does not touch.
-/

namespace ImpossibleOs.Ex

open AvlTree AvlTree.Tree Function
open List hiding cons nil

variable {α : Type} {m m' : Nodes α} {p q n v x y : ℕ} {t l r a b c : AvlTree.Tree ℕ}

/-! ### Memory -/

namespace Nodes

@[simp] theorem setParent_parent (m : Nodes α) (n v q : ℕ) :
    (m.setParent n v).parent q = if q = n then v else m.parent q := update_apply ..
@[simp] theorem setLeft_left (m : Nodes α) (n v q : ℕ) :
    (m.setLeft n v).left q = if q = n then v else m.left q := update_apply ..
@[simp] theorem setRight_right (m : Nodes α) (n v q : ℕ) :
    (m.setRight n v).right q = if q = n then v else m.right q := update_apply ..
@[simp] theorem setHeight_height (m : Nodes α) (n : ℕ) (v : ℤ) (q : ℕ) :
    (m.setHeight n v).height q = if q = n then v else m.height q := update_apply ..

@[simp] theorem setParentOf_parent (m : Nodes α) (n v q : ℕ) :
    (m.setParentOf n v).parent q = if n ≠ 0 ∧ q = n then v else m.parent q := by
  unfold setParentOf
  by_cases hn : n = 0
  · simp [hn]
  · simp [hn]
@[simp] theorem setParentOf_left (m : Nodes α) (n v : ℕ) : (m.setParentOf n v).left = m.left := by
  unfold setParentOf; split <;> rfl
@[simp] theorem setParentOf_right (m : Nodes α) (n v : ℕ) :
    (m.setParentOf n v).right = m.right := by
  unfold setParentOf; split <;> rfl
@[simp] theorem setParentOf_height (m : Nodes α) (n v : ℕ) :
    (m.setParentOf n v).height = m.height := by
  unfold setParentOf; split <;> rfl
@[simp] theorem setParentOf_body (m : Nodes α) (n v : ℕ) : (m.setParentOf n v).body = m.body := by
  unfold setParentOf; split <;> rfl

end Nodes

structure Same (m m' : Nodes α) (q : ℕ) : Prop where
  parent : m'.parent q = m.parent q
  left : m'.left q = m.left q
  right : m'.right q = m.right q
  height : m'.height q = m.height q

theorem Same.refl (m : Nodes α) (q : ℕ) : Same m m q := ⟨rfl, rfl, rfl, rfl⟩

theorem Same.trans {m'' : Nodes α} (h : Same m m' q) (h' : Same m' m'' q) : Same m m'' q :=
  ⟨h'.parent.trans h.parent, h'.left.trans h.left, h'.right.trans h.right,
    h'.height.trans h.height⟩

/-! ### Trees -/

/-- The tree stands at `p`; the parent of its root is left open. -/
def Rep (m : Nodes α) : ℕ → AvlTree.Tree ℕ → Prop
  | p, nil => p = 0
  | p, node l q r => p = q ∧ q ≠ 0 ∧ m.height q = (node l q r).height ∧
      (Rep m (m.left q) l ∧ (m.left q ≠ 0 → m.parent (m.left q) = q)) ∧
      (Rep m (m.right q) r ∧ (m.right q ≠ 0 → m.parent (m.right q) = q))

/-- The tree stands at `p`, below `q`. -/
def Child (m : Nodes α) (q p : ℕ) (t : AvlTree.Tree ℕ) : Prop :=
  Rep m p t ∧ (p ≠ 0 → m.parent p = q)

theorem rep_node : Rep m p (node l q r) ↔ p = q ∧ q ≠ 0 ∧ m.height q = (node l q r).height ∧
    Child m q (m.left q) l ∧ Child m q (m.right q) r := Iff.rfl

theorem Rep.eq_zero_iff (h : Rep m p t) : p = 0 ↔ t = nil := by
  cases t with
  | nil => exact ⟨fun _ => rfl, fun _ => h⟩
  | node l q r =>
    obtain ⟨rfl, hne, -⟩ := rep_node.mp h
    exact ⟨fun h0 => absurd h0 hne, nofun⟩

theorem Rep.mem (h : Rep m p t) (hp : p ≠ 0) : p ∈ t.toList := by
  cases t with
  | nil => exact absurd h hp
  | node l q r =>
    obtain ⟨rfl, -⟩ := rep_node.mp h
    simp [toList]

theorem Rep.zero_notMem (h : Rep m p t) : 0 ∉ t.toList := by
  induction t generalizing p with
  | nil => simp [toList]
  | node l q r ihl ihr =>
    obtain ⟨-, hne, -, hl, hr⟩ := rep_node.mp h
    have h₁ := ihl hl.1
    have h₂ := ihr hr.1
    simp only [toList, mem_append, mem_cons, not_or]
    exact ⟨h₁, hne.symm, h₂⟩

theorem Rep.height (h : Rep m p t) : avlHeight m p = t.height := by
  cases t with
  | nil =>
    rw [show p = 0 from h]
    rfl
  | node l q r =>
    obtain ⟨rfl, hne, hh, -⟩ := rep_node.mp h
    rw [avlHeight, if_neg hne, hh]

theorem Rep.congr (h : Rep m p t) (hsame : ∀ q ∈ t.toList, Same m m' q) : Rep m' p t := by
  induction t generalizing p with
  | nil => exact h
  | node l q r ihl ihr =>
    obtain ⟨rfl, hne, hh, hl, hr⟩ := rep_node.mp h
    have hp := hsame p (by simp [toList])
    have hchild : ∀ (c : ℕ) (s : AvlTree.Tree ℕ), (∀ q ∈ s.toList, Same m m' q) →
        Child m p c s → c ≠ 0 → m'.parent c = p := by
      intro c s hs hc hc0
      rw [(hs c (hc.1.mem hc0)).parent]
      exact hc.2 hc0
    have hsl : ∀ q ∈ l.toList, Same m m' q := fun q hq => hsame q (by simp [toList, hq])
    have hsr : ∀ q ∈ r.toList, Same m m' q := fun q hq => hsame q (by simp [toList, hq])
    refine rep_node.mpr ⟨rfl, hne, hp.height.trans hh, ?_, ?_⟩
    · rw [hp.left]
      exact ⟨ihl hl.1 hsl, hchild _ l hsl hl⟩
    · rw [hp.right]
      exact ⟨ihr hr.1 hsr, hchild _ r hsr hr⟩

theorem Child.congr (h : Child m q p t) (hsame : ∀ q ∈ t.toList, Same m m' q) : Child m' q p t := by
  refine ⟨h.1.congr hsame, fun hp => ?_⟩
  rw [(hsame p (h.1.mem hp)).parent]
  exact h.2 hp

theorem Rep.reparent (h : Rep m p t) (hnd : t.toList.Nodup)
    (hsame : ∀ q ∈ t.toList, q ≠ p → Same m m' q) (hroot : p ≠ 0 →
      m'.left p = m.left p ∧ m'.right p = m.right p ∧ m'.height p = m.height p) : Rep m' p t := by
  cases t with
  | nil => exact h
  | node l q r =>
    obtain ⟨rfl, hne, hh, hl, hr⟩ := rep_node.mp h
    replace hroot := hroot hne
    simp only [toList, nodup_append, nodup_cons, mem_cons] at hnd
    refine rep_node.mpr ⟨rfl, hne, hroot.2.2.trans hh, ?_, ?_⟩
    · rw [hroot.1]
      refine hl.congr fun q hq => hsame q (by simp [toList, hq]) ?_
      exact hnd.2.2 q hq p (.inl rfl)
    · rw [hroot.2.1]
      refine hr.congr fun q hq => hsame q (by simp [toList, hq]) ?_
      rintro rfl
      exact hnd.2.1.1 hq

/-! ### Heights and rotations -/

theorem avlUpdateHeight_same (h : q ≠ n) : Same m (avlUpdateHeight m n) q := by
  refine ⟨rfl, rfl, rfl, ?_⟩
  simp [avlUpdateHeight, h]

theorem avlUpdateHeight_spec (hn : n ≠ 0) (hl : Child m n (m.left n) l)
    (hr : Child m n (m.right n) r) (hnl : n ∉ l.toList) (hnr : n ∉ r.toList) :
    Rep (avlUpdateHeight m n) n (node l n r) := by
  refine rep_node.mpr ⟨rfl, hn, ?_, ?_, ?_⟩
  · simp [avlUpdateHeight, AvlTree.Tree.height, hl.1.height, hr.1.height]
  · refine hl.congr fun q hq => avlUpdateHeight_same ?_
    rintro rfl
    exact hnl hq
  · refine hr.congr fun q hq => avlUpdateHeight_same ?_
    rintro rfl
    exact hnr hq

theorem avlBalance_eq (hn : n ≠ 0) (hl : Child m n (m.left n) l) (hr : Child m n (m.right n) r) :
    avlBalance m n = r.height - l.height := by
  rw [avlBalance, if_neg hn, hl.1.height, hr.1.height]

theorem Rep.balance (h : Rep m p t) : avlBalance m p = t.balance := by
  cases t with
  | nil =>
    rw [show p = 0 from h]
    rfl
  | node l q r =>
    obtain ⟨rfl, hne, -, hl, hr⟩ := rep_node.mp h
    exact avlBalance_eq hne hl hr

/-- What a change of a subtree leaves: the new tree at the new root, the elements and all other
nodes as they were. -/
structure Turned (m m' : Nodes α) (p : ℕ) (t : AvlTree.Tree ℕ) : Prop where
  rep : Rep m' p t
  frame : ∀ q, q ∉ t.toList → Same m m' q
  body : m'.body = m.body

theorem avlRotateLeft_spec (hx : x ≠ 0) (ha : Child m x (m.left x) a)
    (hr : Child m x (m.right x) (node b y c)) (hnd : (node a x (node b y c)).toList.Nodup) :
    (avlRotateLeft m x).2 = y ∧ Turned m (avlRotateLeft m x).1 y (node (node a x b) y c) := by
  obtain ⟨⟨hy, hy0, -, hb, hc⟩, -⟩ := hr
  simp only [toList, nodup_append, nodup_cons, mem_cons, mem_append] at hnd
  unfold avlRotateLeft
  simp only [hy]
  have hxy : x ≠ y := by grind
  -- the links, with stale heights
  generalize hm₁ : linkLeft m x = m₁
  have hlink : m₁ = (((m.setLeft y x).setParent x y).setRight x (m.left y)).setParentOf
      (m.left y) x := by
    rw [← hm₁, linkLeft, hy]
  have hleft : m₁.left x = m.left x ∧ m₁.left y = x := by
    rw [hlink]
    simp [hxy]
  have hright : m₁.right x = m.left y ∧ m₁.right y = m.right y := by
    rw [hlink]
    simp [hxy.symm]
  have hinner : m.left y ≠ 0 → m.left y ∈ b.toList := hb.1.mem
  have hparent : m₁.parent x = y := by
    have hne : m.left y ≠ 0 → x ≠ m.left y := by grind
    rw [hlink]
    simp only [Nodes.setParentOf_parent, Nodes.setRight_parent, Nodes.setParent_parent]
    rw [if_neg (fun h => hne h.1 h.2), if_pos trivial]
  have hsame : ∀ q, q ≠ x → q ≠ y → q ∉ b.toList → Same m m₁ q := by
    intro q hqx hqy hqb
    rw [hlink]
    constructor <;> simp [hqx, hqy]
    rintro h0 rfl
    exact absurd (hinner h0) hqb
  have ha₁ : Child m₁ x (m₁.left x) a := by
    rw [hleft.1]
    exact ha.congr fun q hq => hsame q (by grind) (by grind) (by grind)
  have hb₁ : Child m₁ x (m₁.right x) b := by
    rw [hright.1, hlink]
    refine ⟨hb.1.reparent (by grind) (fun q hq hqp => ?_) fun h0 => ?_, fun h0 => by simp [h0]⟩
    · have hqx : q ≠ x := by grind
      have hqy : q ≠ y := by grind
      constructor <;> simp [hqx, hqy, hqp]
    · have h₁ : m.left y ≠ x := by grind
      have h₂ : m.left y ≠ y := by grind
      simp [h₁, h₂]
  -- the heights, first of `x`
  have hx₂ := avlUpdateHeight_spec hx ha₁ hb₁ (by grind) (by grind)
  have hx₃ : Child (avlUpdateHeight m₁ x) y ((avlUpdateHeight m₁ x).left y) (node a x b) := by
    have hl : (avlUpdateHeight m₁ x).left y = x := hleft.2
    rw [hl]
    exact ⟨hx₂, fun _ => hparent⟩
  have hc₃ : Child (avlUpdateHeight m₁ x) y ((avlUpdateHeight m₁ x).right y) c := by
    have hr : (avlUpdateHeight m₁ x).right y = m.right y := hright.2
    rw [hr]
    exact Child.congr hc fun q hq => (hsame q (by grind) (by grind) (by grind)).trans
      (avlUpdateHeight_same (by grind))
  refine ⟨trivial, avlUpdateHeight_spec hy0 hx₃ hc₃ (by simp only [toList]; grind) (by grind),
    fun q hq => ?_, ?_⟩
  · simp only [toList, mem_append, mem_cons, not_or] at hq
    exact ((hsame q (by grind) (by grind) (by grind)).trans (avlUpdateHeight_same (by grind))).trans
      (avlUpdateHeight_same (by grind))
  · show m₁.body = m.body
    rw [hlink]
    simp

/-! ### Mirror images -/

def Nodes.mirror (m : Nodes α) : Nodes α := { m with left := m.right, right := m.left }

def mirror : AvlTree.Tree ℕ → AvlTree.Tree ℕ
  | nil => nil
  | node l q r => node (mirror r) q (mirror l)

theorem height_mirror (t : AvlTree.Tree ℕ) : (mirror t).height = t.height := by
  induction t with
  | nil => rfl
  | node l q r ihl ihr => simp only [mirror, AvlTree.Tree.height, ihl, ihr, max_comm]

theorem toList_mirror (t : AvlTree.Tree ℕ) : (mirror t).toList = t.toList.reverse := by
  induction t with
  | nil => rfl
  | node l q r ihl ihr => simp [mirror, toList, ihl, ihr]

theorem rep_mirror : Rep m.mirror p (mirror t) ↔ Rep m p t := by
  induction t generalizing p with
  | nil => exact Iff.rfl
  | node l q r ihl ihr =>
    simp only [mirror, Rep, ihl, ihr, AvlTree.Tree.height, height_mirror, max_comm]
    constructor
    · rintro ⟨h₁, h₂, h₃, h₄, h₅⟩
      exact ⟨h₁, h₂, h₃, h₅, h₄⟩
    · rintro ⟨h₁, h₂, h₃, h₄, h₅⟩
      exact ⟨h₁, h₂, h₃, h₅, h₄⟩

theorem child_mirror : Child m.mirror q p (mirror t) ↔ Child m q p t := by
  unfold Child
  rw [rep_mirror]
  exact Iff.rfl

theorem avlUpdateHeight_mirror (m : Nodes α) (n : ℕ) :
    avlUpdateHeight m.mirror n = (avlUpdateHeight m n).mirror := by
  unfold avlUpdateHeight Nodes.mirror Nodes.setHeight avlHeight
  simp only [max_comm]

theorem linkRight_mirror (m : Nodes α) (x : ℕ) : linkRight m x = (linkLeft m.mirror x).mirror := by
  unfold linkRight linkLeft Nodes.setParentOf
  have ht2 : m.mirror.left (m.mirror.right x) = m.right (m.left x) := rfl
  simp only [ht2]
  by_cases h0 : m.right (m.left x) ≠ 0
  · rw [if_pos h0, if_pos h0]
    rfl
  · rw [if_neg h0, if_neg h0]
    rfl

theorem avlRotateRight_mirror (m : Nodes α) (x : ℕ) :
    avlRotateRight m x = ((avlRotateLeft m.mirror x).1.mirror, (avlRotateLeft m.mirror x).2) := by
  unfold avlRotateRight avlRotateLeft
  simp only [← avlUpdateHeight_mirror, linkRight_mirror]
  rfl

theorem Turned.mirror (h : Turned m.mirror m' p (Ex.mirror t)) : Turned m m'.mirror p t := by
  refine ⟨rep_mirror.mp h.rep, fun q hq => ?_, h.body⟩
  have hsame := h.frame q (by rwa [toList_mirror, mem_reverse])
  exact ⟨hsame.parent, hsame.right, hsame.left, hsame.height⟩

theorem avlRotateRight_spec (hx : x ≠ 0) (hc : Child m x (m.right x) c)
    (hl : Child m x (m.left x) (node a y b)) (hnd : (node (node a y b) x c).toList.Nodup) :
    (avlRotateRight m x).2 = y ∧ Turned m (avlRotateRight m x).1 y (node a y (node b x c)) := by
  have hnd' : (node (mirror c) x (node (mirror b) y (mirror a))).toList.Nodup := by
    have := toList_mirror (node (node a y b) x c)
    simp only [mirror] at this
    rw [this, nodup_reverse]
    exact hnd
  have hspec := avlRotateLeft_spec (m := m.mirror) hx (child_mirror.mpr hc) (child_mirror.mpr hl)
    hnd'
  rw [avlRotateRight_mirror]
  exact ⟨hspec.1, hspec.2.mirror⟩

/-- The node has the changed subtree `s` on one side and `r`, as before, on the other. -/
structure Hung (m m' : Nodes α) (n : ℕ) (s l r : AvlTree.Tree ℕ) : Prop where
  left : Child m' n (m'.left n) l
  right : Child m' n (m'.right n) r
  frame : ∀ q, q ∉ s.toList → q ≠ n → Same m m' q
  parent : m'.parent n = m.parent n
  body : m'.body = m.body

variable {s : AvlTree.Tree ℕ} {m₀ : Nodes α}

theorem hangLeft_spec (hs : Turned m m' p s) (hp : p ≠ 0)
    (hnd : (node s n r).toList.Nodup) (hr : Child m n (m.right n) r) :
    Hung m ((m'.setLeft n p).setParent p n) n s s r := by
  simp only [toList, nodup_append, nodup_cons, mem_cons] at hnd
  have hmem := hs.rep.mem hp
  have hpn : n ≠ p := by grind
  have hn := hs.frame n (by grind)
  have hsame : ∀ q, q ∉ s.toList → q ≠ n → Same m ((m'.setLeft n p).setParent p n) q := by
    intro q hq hqn
    have hqp : q ≠ p := by grind
    refine (hs.frame q hq).trans ?_
    constructor <;> simp [hqn, hqp]
  refine ⟨?_, ?_, hsame, by simp [hpn, hn.parent], by simp [hs.body]⟩
  · have hl : ((m'.setLeft n p).setParent p n).left n = p := by simp
    rw [hl]
    refine ⟨hs.rep.reparent hnd.1 (fun q hq hqp => ?_) fun _ => ?_, fun _ => by simp⟩
    · have hqn : q ≠ n := by grind
      constructor <;> simp [hqn, hqp]
    · simp [hpn.symm]
  · have hright : ((m'.setLeft n p).setParent p n).right n = m.right n := by simp [hn.right]
    rw [hright]
    exact hr.congr fun q hq => hsame q (by grind) (by grind)

theorem hangRight_spec (hs : Turned m m' p s) (hp : p ≠ 0)
    (hnd : (node l n s).toList.Nodup) (hl : Child m n (m.left n) l) :
    Hung m ((m'.setRight n p).setParent p n) n s l s := by
  have hs' : Turned m.mirror m'.mirror p (mirror s) := by
    refine ⟨rep_mirror.mpr hs.rep, fun q hq => ?_, hs.body⟩
    rw [toList_mirror, mem_reverse] at hq
    have hsame := hs.frame q hq
    exact ⟨hsame.parent, hsame.right, hsame.left, hsame.height⟩
  have hnd' : (node (mirror s) n (mirror l)).toList.Nodup := by
    have := toList_mirror (node l n s)
    simp only [mirror] at this
    rw [this, nodup_reverse]
    exact hnd
  have hspec := hangLeft_spec hs' hp hnd' (child_mirror.mpr hl)
  have hfinal : (m'.mirror.setLeft n p).setParent p n = ((m'.setRight n p).setParent p n).mirror :=
    rfl
  rw [hfinal] at hspec
  refine ⟨child_mirror.mp hspec.right, child_mirror.mp hspec.left, fun q hq hqn => ?_,
    hspec.parent, hspec.body⟩
  have hsame := hspec.frame q (by rwa [toList_mirror, mem_reverse]) hqn
  exact ⟨hsame.parent, hsame.right, hsame.left, hsame.height⟩

/-! ### Rebalancing -/

/-- The result of `avl_rebalance`; when the root stays, so does its parent. -/
structure Rebalanced (m : Nodes α) (n : ℕ) (t : AvlTree.Tree ℕ) (res : Nodes α × ℕ) : Prop where
  turned : Turned m res.1 res.2 t
  parent : res.2 = n → res.1.parent n = m.parent n

theorem exists_node_of_height (h : 0 < t.height) : ∃ l q r, t = node l q r := by
  cases t with
  | nil => exact absurd h (lt_irrefl 0)
  | node l q r => exact ⟨l, q, r, rfl⟩

theorem rotateRight_turned (hn : n ≠ 0)
    (hnd : (node (node a y b) n r).toList.Nodup) (hs : ∀ q, q ∈ s.toList ↔ q ∈ (node a y b).toList)
    (h : Hung m₀ m n s (node a y b) r) :
    Rebalanced m₀ n (node a y (node b n r)) (avlRotateRight m n) := by
  obtain ⟨hroot, hturn⟩ := avlRotateRight_spec hn h.right h.left hnd
  simp only [toList, nodup_append, nodup_cons, mem_cons, mem_append] at hnd hs
  refine ⟨⟨by rw [hroot]; exact hturn.rep, fun q hq => (h.frame q ?_ ?_).trans (hturn.frame q hq),
    hturn.body.trans h.body⟩, fun heq => ?_⟩
  · simp only [toList, mem_append, mem_cons, not_or] at hq
    rw [hs]
    grind
  · simp only [toList, mem_append, mem_cons, not_or] at hq
    grind
  · rw [hroot] at heq
    grind

theorem rotateLeft_turned (hn : n ≠ 0)
    (hnd : (node l n (node b y c)).toList.Nodup) (hs : ∀ q, q ∈ s.toList ↔ q ∈ (node b y c).toList)
    (h : Hung m₀ m n s l (node b y c)) :
    Rebalanced m₀ n (node (node l n b) y c) (avlRotateLeft m n) := by
  obtain ⟨hroot, hturn⟩ := avlRotateLeft_spec hn h.left h.right hnd
  simp only [toList, nodup_append, nodup_cons, mem_cons, mem_append] at hnd hs
  refine ⟨⟨by rw [hroot]; exact hturn.rep, fun q hq => (h.frame q ?_ ?_).trans (hturn.frame q hq),
    hturn.body.trans h.body⟩, fun heq => ?_⟩
  · simp only [toList, mem_append, mem_cons, not_or] at hq
    rw [hs]
    grind
  · simp only [toList, mem_append, mem_cons, not_or] at hq
    grind
  · rw [hroot] at heq
    grind

theorem doubleRight_turned {z : ℕ} {b₁ b₂ : AvlTree.Tree ℕ} (hn : n ≠ 0)
    (hnd : (node (node a y (node b₁ z b₂)) n r).toList.Nodup)
    (h : Hung m₀ m n (node a y (node b₁ z b₂)) (node a y (node b₁ z b₂)) r) :
    Rebalanced m₀ n (node (node a y b₁) z (node b₂ n r))
      (avlRotateRight (((avlRotateLeft m (m.left n)).1.setLeft n
        (avlRotateLeft m (m.left n)).2).setParent (avlRotateLeft m (m.left n)).2 n) n) := by
  obtain ⟨hy, hy0, -, ha, hb⟩ := rep_node.mp h.left.1
  have hz0 : z ≠ 0 := (rep_node.mp hb.1).2.1
  have hnd₁ : (node a y (node b₁ z b₂)).toList.Nodup := (List.nodup_append.mp hnd).1
  have hlist : (node (node a y b₁) z b₂).toList = (node a y (node b₁ z b₂)).toList := by
    simp [toList]
  have hnd₂ : (node (node (node a y b₁) z b₂) n r).toList.Nodup := by
    rw [toList, hlist]
    exact hnd
  obtain ⟨hroot, hturn⟩ := avlRotateLeft_spec hy0 ha hb hnd₁
  rw [hy, hroot]
  have hung := hangLeft_spec hturn hz0 hnd₂ h.right
  refine rotateRight_turned hn hnd₂ (fun _ => Iff.rfl) ⟨hung.left, hung.right, fun q hq hqn => ?_,
    hung.parent.trans h.parent, hung.body.trans h.body⟩
  exact (h.frame q (by rwa [← hlist]) hqn).trans (hung.frame q hq hqn)

theorem doubleLeft_turned {z : ℕ} {b₁ b₂ : AvlTree.Tree ℕ} (hn : n ≠ 0)
    (hnd : (node l n (node (node b₁ z b₂) y c)).toList.Nodup)
    (h : Hung m₀ m n (node (node b₁ z b₂) y c) l (node (node b₁ z b₂) y c)) :
    Rebalanced m₀ n (node (node l n b₁) z (node b₂ y c))
      (avlRotateLeft (((avlRotateRight m (m.right n)).1.setRight n
        (avlRotateRight m (m.right n)).2).setParent (avlRotateRight m (m.right n)).2 n) n) := by
  obtain ⟨hy, hy0, -, hb, hc⟩ := rep_node.mp h.right.1
  have hz0 : z ≠ 0 := (rep_node.mp hb.1).2.1
  have hnd₁ : (node (node b₁ z b₂) y c).toList.Nodup :=
    (List.nodup_cons.mp (List.nodup_append.mp hnd).2.1).2
  have hlist : (node b₁ z (node b₂ y c)).toList = (node (node b₁ z b₂) y c).toList := by
    simp [toList]
  have hnd₂ : (node l n (node b₁ z (node b₂ y c))).toList.Nodup := by
    rw [toList, hlist]
    exact hnd
  obtain ⟨hroot, hturn⟩ := avlRotateRight_spec hy0 hc hb hnd₁
  rw [hy, hroot]
  have hung := hangRight_spec hturn hz0 hnd₂ h.left
  refine rotateLeft_turned hn hnd₂ (fun _ => Iff.rfl) ⟨hung.left, hung.right, fun q hq hqn => ?_,
    hung.parent.trans h.parent, hung.body.trans h.body⟩
  exact (h.frame q (by rwa [← hlist]) hqn).trans (hung.frame q hq hqn)

theorem avlRebalance_spec (hn : n ≠ 0) (hl : Child m n (m.left n) l)
    (hr : Child m n (m.right n) r) (hnd : (node l n r).toList.Nodup) :
    Rebalanced m n (node l n r).rebalance (avlRebalance m n) := by
  have hnl : n ∉ l.toList ∧ n ∉ r.toList := by
    simp only [toList, nodup_append, nodup_cons, mem_cons] at hnd
    exact ⟨by grind, by grind⟩
  have hrep := avlUpdateHeight_spec hn hl hr hnl.1 hnl.2
  have hupd : ∀ q, q ≠ n → Same m (avlUpdateHeight m n) q := fun q hq => avlUpdateHeight_same hq
  have hpar : (avlUpdateHeight m n).parent n = m.parent n := rfl
  have hbody : (avlUpdateHeight m n).body = m.body := rfl
  unfold avlRebalance
  simp only
  generalize avlUpdateHeight m n = m₁ at hrep hupd hpar hbody
  obtain ⟨-, -, -, hl₁, hr₁⟩ := rep_node.mp hrep
  have hung : ∀ s : AvlTree.Tree ℕ, Hung m m₁ n s l r :=
    fun _ => ⟨hl₁, hr₁, fun q _ hq => hupd q hq, hpar, hbody⟩
  rw [avlBalance_eq hn hl₁ hr₁, AvlTree.Tree.rebalance]
  by_cases hleft : r.height - l.height < -1
  · rw [if_pos hleft, if_pos hleft, hl₁.1.balance]
    obtain ⟨a, y, b, rfl⟩ := exists_node_of_height (t := l) (by have := height_nonneg r; omega)
    by_cases hturn : (node a y b).balance > 0
    · rw [if_pos hturn, if_pos hturn]
      obtain ⟨b₁, z, b₂, rfl⟩ := exists_node_of_height (t := b)
        (by have := height_nonneg a; simp only [balance] at hturn; omega)
      exact doubleRight_turned hn hnd (hung _)
    · rw [if_neg hturn, if_neg hturn]
      exact rotateRight_turned hn hnd (fun _ => Iff.rfl) (hung (node a y b))
  · rw [if_neg hleft, if_neg hleft]
    by_cases hright : r.height - l.height > 1
    · rw [if_pos hright, if_pos hright, hr₁.1.balance]
      obtain ⟨b, y, c, rfl⟩ := exists_node_of_height (t := r) (by have := height_nonneg l; omega)
      by_cases hturn : (node b y c).balance < 0
      · rw [if_pos hturn, if_pos hturn]
        obtain ⟨b₁, z, b₂, rfl⟩ := exists_node_of_height (t := b)
          (by have := height_nonneg c; simp only [balance] at hturn; omega)
        exact doubleLeft_turned hn hnd (hung _)
      · rw [if_neg hturn, if_neg hturn]
        exact rotateLeft_turned hn hnd (fun _ => Iff.rfl) (hung (node b y c))
    · rw [if_neg hright, if_neg hright]
      exact ⟨⟨hrep, fun q hq => hupd q (by simp only [toList] at hq; grind), hbody⟩, fun _ => hpar⟩

end ImpossibleOs.Ex
