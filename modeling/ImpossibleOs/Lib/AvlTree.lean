import Mathlib.Algebra.Order.Ring.Int
import Mathlib.Data.List.Basic

/-!
Height-balanced trees.

Trees over arbitrary labels, their rotations, and contexts: a tree with a hole,
kept as the list of frames from the hole up to the root. A change at a hole is
followed by rebalancing along the context (`rebuild`). No rotation changes the list
of labels.
-/

namespace AvlTree

open List

inductive Tree (β : Type*) where
  | nil
  | node (l : Tree β) (x : β) (r : Tree β)

variable {β : Type*}

namespace Tree

def height : Tree β → ℤ
  | nil => 0
  | node l _ r => 1 + max l.height r.height

def toList : Tree β → List β
  | nil => []
  | node l x r => l.toList ++ x :: r.toList

/-- At every node the heights of the two sides differ by one at most. -/
def Balanced : Tree β → Prop
  | nil => True
  | node l _ r => l.Balanced ∧ r.Balanced ∧ -1 ≤ r.height - l.height ∧ r.height - l.height ≤ 1

def balance : Tree β → ℤ
  | nil => 0
  | node l _ r => r.height - l.height

theorem height_nonneg : ∀ t : Tree β, 0 ≤ t.height
  | nil => le_rfl
  | node l x r => by
    have := height_nonneg l
    simp only [height]
    omega

theorem height_le_length : ∀ t : Tree β, t.height ≤ t.toList.length
  | nil => le_rfl
  | node l x r => by
    have hl := height_le_length l
    have hr := height_le_length r
    simp only [height, toList, length_append, length_cons]
    push_cast
    omega

/-- The height of a balanced tree is logarithmic in the number of its labels. -/
theorem two_pow_height_le {t : Tree β} {h : ℕ} (ht : t.Balanced) (hh : t.height = h) :
    2 ^ (h / 2) ≤ t.toList.length + 1 := by
  induction t generalizing h with
  | nil =>
    obtain rfl : h = 0 := by simpa [height] using hh.symm
    simp
  | node l x r ihl ihr =>
    obtain ⟨hl, hr, hlo, hhi⟩ := ht
    obtain ⟨a, ha⟩ := Int.eq_ofNat_of_zero_le (height_nonneg l)
    obtain ⟨b, hb⟩ := Int.eq_ofNat_of_zero_le (height_nonneg r)
    rw [toList, length_append, length_cons]
    cases hk : h / 2 with
    | zero => simp
    | succ k =>
      -- neither side is lower by more than two
      simp only [height] at hh
      have hleft := (Nat.pow_le_pow_right Nat.two_pos (by omega : k ≤ a / 2)).trans (ihl hl ha)
      have hright := (Nat.pow_le_pow_right Nat.two_pos (by omega : k ≤ b / 2)).trans (ihr hr hb)
      rw [Nat.pow_succ]
      omega

/-! ### Rotations -/

def rotateLeft : Tree β → Tree β
  | node a x (node b y c) => node (node a x b) y c
  | t => t

def rotateRight : Tree β → Tree β
  | node (node a y b) x c => node a y (node b x c)
  | t => t

/-- The double rotations first turn the inner child. -/
def rebalance : Tree β → Tree β
  | nil => nil
  | node l x r =>
    if r.height - l.height < -1 then
      rotateRight (node (if l.balance > 0 then l.rotateLeft else l) x r)
    else if r.height - l.height > 1 then
      rotateLeft (node l x (if r.balance < 0 then r.rotateRight else r))
    else node l x r

theorem toList_rotateLeft : ∀ t : Tree β, t.rotateLeft.toList = t.toList
  | nil => rfl
  | node _ _ nil => rfl
  | node a x (node b y c) => by simp [rotateLeft, toList]

theorem toList_rotateRight : ∀ t : Tree β, t.rotateRight.toList = t.toList
  | nil => rfl
  | node nil _ _ => rfl
  | node (node a y b) x c => by simp [rotateRight, toList]

theorem toList_rebalance (t : Tree β) : t.rebalance.toList = t.toList := by
  cases t with
  | nil => rfl
  | node l x r =>
    simp only [rebalance]
    split
    · rw [toList_rotateRight]
      simp only [toList]
      split
      · rw [toList_rotateLeft]
      · rfl
    · split
      · rw [toList_rotateLeft]
        simp only [toList]
        split
        · rw [toList_rotateRight]
        · rfl
      · rfl

theorem balanced_rebalance {l r : Tree β} {x : β} (hl : l.Balanced) (hr : r.Balanced)
    (h₁ : -2 ≤ r.height - l.height) (h₂ : r.height - l.height ≤ 2) :
    (node l x r).rebalance.Balanced ∧ ((node l x r).rebalance.height = (node l x r).height ∨
        (node l x r).rebalance.height = (node l x r).height - 1 ∧
          (r.height - l.height = 2 ∨ r.height - l.height = -2)) := by
  by_cases hleft : r.height - l.height < -1
  · simp only [rebalance, if_pos hleft]
    cases l with
    | nil =>
      have := height_nonneg r
      simp only [height] at hleft
      omega
    | node a y b =>
      obtain ⟨ha, hb, hba₁, hba₂⟩ := hl
      by_cases hturn : (node a y b).balance > 0
      · rw [if_pos hturn]
        simp only [balance] at hturn
        cases b with
        | nil =>
          have := height_nonneg a
          simp only [height] at hturn
          omega
        | node b₁ z b₂ =>
          obtain ⟨hb₁, hb₂, hbb₁, hbb₂⟩ := hb
          simp only [rotateLeft, rotateRight, Balanced, height] at *
          refine ⟨⟨⟨ha, hb₁, ?_, ?_⟩, ⟨hb₂, hr, ?_, ?_⟩, ?_, ?_⟩, ?_⟩ <;> omega
      · rw [if_neg hturn]
        simp only [balance] at hturn
        simp only [rotateRight, Balanced, height] at *
        refine ⟨⟨ha, ⟨hb, hr, ?_, ?_⟩, ?_, ?_⟩, ?_⟩ <;> omega
  · by_cases hright : r.height - l.height > 1
    · simp only [rebalance, if_neg hleft, if_pos hright]
      cases r with
      | nil =>
        have := height_nonneg l
        simp only [height] at hright
        omega
      | node b y c =>
        obtain ⟨hb, hc, hbc₁, hbc₂⟩ := hr
        by_cases hturn : (node b y c).balance < 0
        · rw [if_pos hturn]
          simp only [balance] at hturn
          cases b with
          | nil =>
            have := height_nonneg c
            simp only [height] at hturn
            omega
          | node b₁ z b₂ =>
            obtain ⟨hb₁, hb₂, hbb₁, hbb₂⟩ := hb
            simp only [rotateLeft, rotateRight, Balanced, height] at *
            refine ⟨⟨⟨hl, hb₁, ?_, ?_⟩, ⟨hb₂, hc, ?_, ?_⟩, ?_, ?_⟩, ?_⟩ <;> omega
        · rw [if_neg hturn]
          simp only [balance] at hturn
          simp only [rotateLeft, Balanced, height] at *
          refine ⟨⟨⟨hl, hb, ?_, ?_⟩, hc, ?_, ?_⟩, ?_⟩ <;> omega
    · simp only [rebalance, if_neg hleft, if_neg hright]
      exact ⟨⟨hl, hr, by omega, by omega⟩, .inl trivial⟩

/-- A new label at the leaf that `goLeft` leads to. -/
def insert (goLeft : β → Bool) (y : β) : Tree β → Tree β
  | nil => node nil y nil
  | node l x r =>
    if goLeft x then rebalance (node (insert goLeft y l) x r)
    else rebalance (node l x (insert goLeft y r))

theorem balanced_insert (goLeft : β → Bool) (y : β) {t : Tree β} (h : t.Balanced) :
    (t.insert goLeft y).Balanced ∧
      (t.height = (t.insert goLeft y).height ∨ t.height + 1 = (t.insert goLeft y).height) := by
  induction t with
  | nil => exact ⟨⟨trivial, trivial, by simp [height], by simp [height]⟩, .inr rfl⟩
  | node l x r ihl ihr =>
    obtain ⟨hl, hr, h₁, h₂⟩ := h
    simp only [insert]
    split
    · obtain ⟨hbal, hheight⟩ := ihl hl
      obtain ⟨hres, hsize⟩ := balanced_rebalance (x := x) hbal hr (by omega) (by omega)
      refine ⟨hres, ?_⟩
      simp only [height] at hsize ⊢
      omega
    · obtain ⟨hbal, hheight⟩ := ihr hr
      obtain ⟨hres, hsize⟩ := balanced_rebalance (x := x) hl hbal (by omega) (by omega)
      refine ⟨hres, ?_⟩
      simp only [height] at hsize ⊢
      omega

theorem perm_insert (goLeft : β → Bool) (y : β) (t : Tree β) :
    (t.insert goLeft y).toList.Perm (y :: t.toList) := by
  induction t with
  | nil => exact List.Perm.refl _
  | node l x r ihl ihr =>
    simp only [insert]
    split
    · rw [toList_rebalance]
      exact ihl.append_right _
    · rw [toList_rebalance]
      simp only [toList]
      refine ((ihr.cons x).append_left l.toList).trans ?_
      refine ((List.Perm.swap y x r.toList).append_left l.toList).trans ?_
      exact perm_middle

theorem toList_insert {goLeft : β → Bool} (y : β) {t : Tree β}
    (h : t.toList.Pairwise fun a b => goLeft a = true → goLeft b = true) :
    ∃ before after, t.toList = before ++ after ∧ (t.insert goLeft y).toList = before ++ y :: after ∧
      (∀ a ∈ before, goLeft a = false) ∧ ∀ b ∈ after, goLeft b = true := by
  induction t with
  | nil => exact ⟨[], [], rfl, rfl, by simp, by simp⟩
  | node l x r ihl ihr =>
    simp only [toList] at h
    obtain ⟨hl, hxr, hcross⟩ := pairwise_append.mp h
    obtain ⟨hx, hr⟩ := pairwise_cons.mp hxr
    by_cases hgo : goLeft x = true
    · obtain ⟨before, after, hsplit, hins, hbefore, hafter⟩ := ihl hl
      refine ⟨before, after ++ x :: r.toList, by simp [toList, hsplit], ?_, hbefore, ?_⟩
      · rw [insert, if_pos hgo, toList_rebalance]
        simp [toList, hins]
      · intro b hb
        rcases mem_append.mp hb with hb | hb
        · exact hafter b hb
        · rcases mem_cons.mp hb with rfl | hb
          · exact hgo
          · exact hx b hb hgo
    · obtain ⟨before, after, hsplit, hins, hbefore, hafter⟩ := ihr hr
      refine ⟨l.toList ++ x :: before, after, by simp [toList, hsplit], ?_, ?_, hafter⟩
      · rw [insert, if_neg hgo, toList_rebalance]
        simp [toList, hins]
      · intro a ha
        rcases mem_append.mp ha with ha | ha
        · by_contra hn
          exact hgo (hcross a ha x mem_cons_self (by simpa using hn))
        · rcases mem_cons.mp ha with rfl | ha
          · simpa using hgo
          · exact hbefore a ha

end Tree

/-! ### Contexts -/

open AvlTree.Tree

/-- A node with a hole on its left or on its right. -/
inductive Frame (β : Type*) where
  | left (x : β) (r : Tree β)
  | right (l : Tree β) (x : β)

namespace Frame

def fill : Frame β → Tree β → Tree β
  | left x r, t => node t x r
  | right l x, t => node l x t

def label : Frame β → β
  | left x _ => x
  | right _ x => x

/-- The contents before and after the hole. -/
def before : Frame β → List β
  | left _ _ => []
  | right l x => l.toList ++ [x]

def after : Frame β → List β
  | left x r => x :: r.toList
  | right _ _ => []

theorem toList_fill (f : Frame β) (t : Tree β) :
    (f.fill t).toList = f.before ++ t.toList ++ f.after := by
  cases f <;> simp [fill, before, after, toList]

end Frame

abbrev Context (β : Type*) := List (Frame β)

def plug : Context β → Tree β → Tree β
  | [], t => t
  | f :: c, t => plug c (f.fill t)

/-- The tree at the hole is final; the frames are rebalanced from the hole up. -/
def rebuild : Context β → Tree β → Tree β
  | [], t => t
  | f :: c, t => rebuild c (f.fill t).rebalance

def before : Context β → List β
  | [] => []
  | f :: c => before c ++ f.before

def after : Context β → List β
  | [] => []
  | f :: c => f.after ++ after c

theorem toList_plug (c : Context β) (t : Tree β) :
    (plug c t).toList = before c ++ t.toList ++ after c := by
  induction c generalizing t with
  | nil => simp [plug, before, after]
  | cons f c ih => simp [plug, before, after, ih, Frame.toList_fill]

theorem toList_rebuild (c : Context β) (t : Tree β) :
    (rebuild c t).toList = before c ++ t.toList ++ after c := by
  induction c generalizing t with
  | nil => simp [rebuild, before, after]
  | cons f c ih => simp [rebuild, before, after, ih, toList_rebalance, Frame.toList_fill]

theorem plug_append (c₁ c₂ : Context β) (t : Tree β) : plug (c₁ ++ c₂) t = plug c₂ (plug c₁ t) := by
  induction c₁ generalizing t with
  | nil => rfl
  | cons f c₁ ih => exact ih (f.fill t)

/-- A balanced tree with a hole, and at the hole a tree of the old height or one less. -/
structure Fits (old new : Tree β) : Prop where
  balanced : new.Balanced
  height : new.height = old.height ∨ new.height = old.height - 1

theorem balanced_of_plug {c : Context β} {t : Tree β} (h : (plug c t).Balanced) : t.Balanced := by
  induction c generalizing t with
  | nil => exact h
  | cons f c ih =>
    have hf := ih h
    cases f with
    | left x r => exact hf.1
    | right l x => exact hf.2.1

theorem fits_rebuild {c : Context β} {old new : Tree β} (hold : (plug c old).Balanced)
    (h : Fits old new) : Fits (plug c old) (rebuild c new) := by
  induction c generalizing old new with
  | nil => exact h
  | cons f c ih =>
    refine ih hold ?_
    have hnode := balanced_of_plug (c := c) hold
    obtain ⟨hbal, hheight⟩ := h
    cases f with
    | left x r =>
      obtain ⟨-, hr, h₁, h₂⟩ := hnode
      obtain ⟨hres, hsize⟩ := balanced_rebalance (x := x) hbal hr (by omega) (by omega)
      refine ⟨hres, ?_⟩
      simp only [Frame.fill, Tree.height] at hsize ⊢
      omega
    | right l x =>
      obtain ⟨hl, -, h₁, h₂⟩ := hnode
      obtain ⟨hres, hsize⟩ := balanced_rebalance (x := x) hl hbal (by omega) (by omega)
      refine ⟨hres, ?_⟩
      simp only [Frame.fill, Tree.height] at hsize ⊢
      omega

theorem balanced_relabel {c₁ c₂ : Context β} {l t : Tree β} {x y : β}
    (h : (plug (c₁ ++ .right l x :: c₂) t).Balanced) :
    (plug (c₁ ++ .right l y :: c₂) t).Balanced := by
  rw [plug_append] at h ⊢
  have hshape : ∀ (c : Context β) (s s' : Tree β), s.height = s'.height →
      (s.Balanced → s'.Balanced) → (plug c s).Balanced → (plug c s').Balanced := by
    intro c
    induction c with
    | nil => exact fun _ _ _ hbal => hbal
    | cons f c ih =>
      intro s s' hheight hbal
      refine ih _ _ ?_ ?_
      · cases f <;> simp only [Frame.fill, Tree.height, hheight]
      · cases f with
        | left z r => exact fun ⟨h₁, h₂, h₃⟩ => ⟨hbal h₁, h₂, by rwa [← hheight]⟩
        | right l z => exact fun ⟨h₁, h₂, h₃⟩ => ⟨h₁, hbal h₂, by rwa [← hheight]⟩
  exact hshape c₂ (node l x (plug c₁ t)) (node l y (plug c₁ t)) rfl id h

theorem before_append (c₁ c₂ : Context β) : before (c₁ ++ c₂) = before c₂ ++ before c₁ := by
  induction c₁ with
  | nil => simp [before]
  | cons f c₁ ih => simp [before, ih]

theorem after_append (c₁ c₂ : Context β) : after (c₁ ++ c₂) = after c₁ ++ after c₂ := by
  induction c₁ with
  | nil => simp [after]
  | cons f c₁ ih => simp [after, ih]

theorem exists_plug {t : Tree β} {x : β} {pre suf : List β} (h : t.toList = pre ++ x :: suf) :
    ∃ c l r, t = plug c (node l x r) ∧ pre = before c ++ l.toList ∧ suf = r.toList ++ after c := by
  induction t generalizing pre suf with
  | nil => simp [toList] at h
  | node l y r ihl ihr =>
    simp only [toList] at h
    rcases append_eq_append_iff.mp h with ⟨mid, hpre, hrest⟩ | ⟨mid, hl, hrest⟩
    · cases mid with
      | nil =>
        simp only [append_nil] at hpre
        simp only [nil_append, List.cons.injEq] at hrest
        obtain ⟨rfl, rfl⟩ := hrest
        exact ⟨[], l, r, rfl, by simp [before, hpre], by simp [after]⟩
      | cons m mid =>
        simp only [cons_append, List.cons.injEq] at hrest
        obtain ⟨rfl, hr⟩ := hrest
        obtain ⟨c, a, b, rfl, hbefore, hafter⟩ := ihr hr
        refine ⟨c ++ [.right l y], a, b, by simp [plug_append, plug, Frame.fill], ?_, ?_⟩
        · rw [hpre, hbefore, before_append]
          simp [before, Frame.before]
        · rw [hafter, after_append]
          simp [after, Frame.after]
    · cases mid with
      | nil =>
        simp only [append_nil] at hl
        simp only [nil_append, List.cons.injEq] at hrest
        obtain ⟨rfl, rfl⟩ := hrest
        exact ⟨[], l, r, rfl, by simp [before, hl], by simp [after]⟩
      | cons m mid =>
        simp only [cons_append, List.cons.injEq] at hrest
        obtain ⟨rfl, rfl⟩ := hrest
        obtain ⟨c, a, b, rfl, hbefore, hafter⟩ := ihl hl
        refine ⟨c ++ [.left y r], a, b, by simp [plug_append, plug, Frame.fill], ?_, ?_⟩
        · rw [hbefore, before_append]
          simp [before, Frame.before]
        · rw [hafter, after_append]
          simp [after, Frame.after]

end AvlTree
