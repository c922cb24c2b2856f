import Mathlib.Data.Fintype.Card

/-!
Intrusive singly linked lists.

Each node holds the link to the next one; a list is what a head leads to. Walks are bounded by a
number of turns, and any bound that is at least the length of the list gives the same result.
Everything outside the list keeps its links.
-/

namespace Chain

open Function List Option

variable {α : Type*}

/-- The nodes that `head` leads to, in order. -/
def Linked (next : α → Option α) : Option α → List α → Prop
  | head, [] => head = none
  | head, a :: l => head = some a ∧ Linked next (next a) l

variable {next next' : α → Option α} {head : Option α} {l : List α} {a x : α}

theorem linked_none (h : Linked next none l) : l = [] := by
  cases l with
  | nil => rfl
  | cons a l => cases h.1

theorem linked_nil : Linked next none [] := rfl

theorem linked_some (h : Linked next (some a) l) : ∃ l', l = a :: l' ∧ Linked next (next a) l' := by
  cases l with
  | nil => cases h
  | cons b l' =>
    obtain rfl : a = b := some.inj h.1
    exact ⟨l', rfl, h.2⟩

theorem linked_unique {l' : List α} (h : Linked next head l) (h' : Linked next head l') :
    l = l' := by
  induction l generalizing head l' with
  | nil =>
    obtain rfl : head = none := h
    exact (linked_none h').symm
  | cons a l ih =>
    obtain ⟨rfl, h⟩ := h
    obtain ⟨l'', rfl, hrest⟩ := linked_some h'
    rw [ih h hrest]

variable {turns : ℕ} {b : α} {l₁ l₂ : List α}

theorem linked_drop (h : Linked next head (l₁ ++ a :: l₂)) : Linked next (some a) (a :: l₂) := by
  induction l₁ generalizing head with
  | nil => exact ⟨rfl, h.2⟩
  | cons b l₁ ih => exact ih h.2

theorem linked_nodup (h : Linked next head l) : l.Nodup := by
  induction l generalizing head with
  | nil => exact nodup_nil
  | cons a l ih =>
    refine nodup_cons.mpr ⟨fun ha => ?_, ih h.2⟩
    -- behind a second `a` would stand a shorter list that the same head leads to
    obtain ⟨l₁, l₂, rfl⟩ := append_of_mem ha
    have hshort := linked_drop h.2
    have hlong : Linked next (some a) (a :: (l₁ ++ a :: l₂)) := ⟨rfl, h.2⟩
    have hlen := congrArg List.length (linked_unique hshort hlong)
    simp only [length_cons, length_append] at hlen
    omega

theorem linked_congr (h : Linked next head l) (hnext : ∀ b ∈ l, next' b = next b) :
    Linked next' head l := by
  induction l generalizing head with
  | nil => exact h
  | cons a l ih =>
    refine ⟨h.1, ?_⟩
    rw [hnext a mem_cons_self]
    exact ih h.2 fun b hb => hnext b (mem_cons_of_mem a hb)

theorem linked_length_le [Fintype α] (h : Linked next head l) : l.length ≤ Fintype.card α :=
  (linked_nodup h).length_le_card

/-- The nodes that a walk from `head` meets. -/
def nodes (next : α → Option α) : ℕ → Option α → List α
  | 0, _ => []
  | turns + 1, head => head.elim [] fun a => a :: nodes next turns (next a)

theorem nodes_eq (h : Linked next head l) (hturns : l.length ≤ turns) :
    nodes next turns head = l := by
  induction turns generalizing head l with
  | zero =>
    obtain rfl : l = [] := by simpa using hturns
    rfl
  | succ turns ih =>
    cases l with
    | nil =>
      obtain rfl : head = none := h
      rfl
    | cons a l =>
      obtain ⟨rfl, hrest⟩ := h
      simp only [nodes, elim_some]
      rw [ih hrest (by simpa using hturns)]

variable [DecidableEq α]

theorem linked_update (h : Linked next head l) (hx : x ∉ l) (o : Option α) :
    Linked (update next x o) head l := by
  apply linked_congr h
  intro b hb
  refine update_of_ne ?_ _ _
  rintro rfl
  exact hx hb

theorem linked_push (h : Linked next head l) (ha : a ∉ l) :
    Linked (update next a head) (some a) (a :: l) := by
  refine ⟨rfl, ?_⟩
  rw [update_self]
  exact linked_update h ha _

/-! ### Append -/

/-- The last node from `a` on. -/
def lastFrom (next : α → Option α) : ℕ → α → α
  | 0, a => a
  | turns + 1, a =>
    match next a with
    | none => a
    | some b => lastFrom next turns b

/-- Head and links after `a` was put behind the last node. -/
def append (next : α → Option α) (turns : ℕ) (head : Option α) (a : α) :
    Option α × (α → Option α) :=
  let ended := update next a none
  match head with
  | none => (some a, ended)
  | some h => (some h, update ended (lastFrom next turns h) (some a))

omit [DecidableEq α] in
theorem lastFrom_eq {l : List α} (h : Linked next (some b) (b :: l))
    (hturns : l.length ≤ turns) : lastFrom next turns b = (b :: l).getLast (by simp) := by
  induction turns generalizing b l with
  | zero =>
    obtain rfl : l = [] := by simpa using hturns
    rfl
  | succ turns ih =>
    unfold lastFrom
    cases l with
    | nil =>
      have hnext : next b = none := h.2
      simp [hnext]
    | cons c l =>
      have hnext : next b = some c := h.2.1
      simp only [hnext]
      rw [ih ⟨rfl, h.2.2⟩ (by simpa using hturns)]
      simp

theorem linked_extend {l : List α} (h : Linked next (some b) (b :: l)) (ha : a ∉ b :: l)
    (hend : next a = none) :
    Linked (update next ((b :: l).getLast (by simp)) (some a)) (some b)
      (b :: l ++ [a]) := by
  induction l generalizing b with
  | nil =>
    have hab : a ≠ b := fun h => ha (by simp [h])
    refine ⟨rfl, ?_⟩
    rw [getLast_singleton, update_self]
    refine ⟨rfl, ?_⟩
    rw [update_of_ne hab]
    exact hend
  | cons c l ih =>
    have hnodup := linked_nodup h
    have hlast : (c :: l).getLast (by simp) ≠ b := by
      intro heq
      exact (nodup_cons.mp hnodup).1 (heq ▸ getLast_mem (by simp))
    refine ⟨rfl, ?_⟩
    rw [getLast_cons (by simp), update_of_ne hlast.symm, h.2.1]
    exact ih ⟨rfl, h.2.2⟩ fun hm => ha (mem_cons_of_mem b hm)

theorem append_linked (h : Linked next head l) (ha : a ∉ l) (hturns : l.length ≤ turns) :
    Linked (append next turns head a).2 (append next turns head a).1 (l ++ [a]) := by
  have hended := linked_update h ha none
  unfold append
  cases l with
  | nil =>
    obtain rfl : head = none := h
    refine ⟨rfl, ?_⟩
    show Linked _ (update next a none a) []
    rw [update_self]
    exact linked_nil
  | cons b l =>
    obtain ⟨rfl, hrest⟩ := id h
    simp only
    rw [lastFrom_eq ⟨rfl, hrest⟩ (by simp only [length_cons] at hturns; omega)]
    exact linked_extend ⟨rfl, hended.2⟩ ha (update_self ..)

theorem append_other (h : Linked next head l) (hturns : l.length ≤ turns)
    (hb : b ∉ l) (hba : b ≠ a) : (append next turns head a).2 b = next b := by
  unfold append
  cases l with
  | nil =>
    obtain rfl : head = none := h
    exact update_of_ne hba _ _
  | cons c l =>
    obtain ⟨rfl, hrest⟩ := id h
    simp only
    rw [lastFrom_eq ⟨rfl, hrest⟩ (by simp only [length_cons] at hturns; omega)]
    have hlast : b ≠ (c :: l).getLast (by simp) := by
      rintro rfl
      exact hb (getLast_mem (by simp))
    rw [update_of_ne hlast, update_of_ne hba]

/-! ### Removal -/

/-- The node from `a` on whose link is `x`. -/
def prevFrom (next : α → Option α) (x : α) : ℕ → α → Option α
  | 0, _ => none
  | turns + 1, a =>
    match next a with
    | none => none
    | some b => if b = x then some a else prevFrom next x turns b

/-- Head and links after `x` was taken out; `none` when it is not in the list. Its own link
stays. -/
def remove (next : α → Option α) (turns : ℕ) (head : Option α) (x : α) :
    Option (Option α × (α → Option α)) :=
  match head with
  | none => none
  | some h =>
    if h = x then some (next x, next)
    else (prevFrom next x turns h).map fun p => (some h, update next p (next x))

theorem prevFrom_none {l : List α} (h : Linked next (some b) (b :: l))
    (hx : x ∉ l) : prevFrom next x turns b = none := by
  induction turns generalizing b l with
  | zero => rfl
  | succ turns ih =>
    unfold prevFrom
    cases l with
    | nil =>
      have hnext : next b = none := h.2
      simp only [hnext]
    | cons c l =>
      have hnext : next b = some c := h.2.1
      have hcx : c ≠ x := fun hc => hx (by simp [hc])
      simp only [hnext, if_neg hcx]
      exact ih ⟨rfl, h.2.2⟩ fun hm => hx (mem_cons_of_mem c hm)

theorem prevFrom_some (h : Linked next (some b) (b :: l₁ ++ x :: l₂)) (hturns : l₁.length < turns) :
    prevFrom next x turns b = some ((b :: l₁).getLast (by simp)) := by
  induction turns generalizing b l₁ with
  | zero => omega
  | succ turns ih =>
    unfold prevFrom
    cases l₁ with
    | nil =>
      have hnext : next b = some x := h.2.1
      simp [hnext]
    | cons c l₁ =>
      have hnext : next b = some c := h.2.1
      have hnodup := linked_nodup h
      have hcx : c ≠ x := by
        rintro rfl
        simp at hnodup
      simp only [hnext, if_neg hcx]
      rw [ih ⟨rfl, h.2.2⟩ (by simpa using hturns)]
      simp

theorem linked_splice {o : Option α}
    (h : Linked next (some b) (b :: l₁ ++ l₂)) (hnodup : (b :: l₁ ++ l₂).Nodup) {l₃ : List α}
    (ho : Linked next o l₃) (hsub : ∀ y ∈ l₃, y ∈ l₂) :
    Linked (update next ((b :: l₁).getLast (by simp)) o) (some b) (b :: l₁ ++ l₃) := by
  induction l₁ generalizing b with
  | nil =>
    refine ⟨rfl, ?_⟩
    rw [getLast_singleton, update_self]
    refine linked_update ho (fun hb => ?_) _
    exact (nodup_cons.mp hnodup).1 (by simpa using hsub b hb)
  | cons c l₁ ih =>
    have hlast : (c :: l₁).getLast (by simp) ≠ b := by
      intro heq
      refine (nodup_cons.mp hnodup).1 ?_
      have hmem : b ∈ c :: l₁ := heq ▸ getLast_mem (by simp)
      exact mem_append_left _ hmem
    refine ⟨rfl, ?_⟩
    rw [getLast_cons (by simp), update_of_ne hlast.symm, h.2.1]
    exact ih ⟨rfl, h.2.2⟩ (nodup_cons.mp hnodup).2

theorem remove_none (h : Linked next head l) (hx : x ∉ l) : remove next turns head x = none := by
  unfold remove
  cases l with
  | nil =>
    obtain rfl : head = none := h
    rfl
  | cons b l =>
    obtain ⟨rfl, hrest⟩ := h
    have hbx : b ≠ x := fun hb => hx (by simp [hb])
    simp only [if_neg hbx]
    rw [prevFrom_none ⟨rfl, hrest⟩ fun hm => hx (mem_cons_of_mem b hm)]
    rfl

theorem remove_linked (h : Linked next head l) (hx : x ∈ l) (hturns : l.length ≤ turns) :
    ∃ head' next', remove next turns head x = some (head', next') ∧
      Linked next' head' (l.erase x) ∧ (∀ b, b ∉ l.erase x → next' b = next b) := by
  unfold remove
  cases l with
  | nil => cases hx
  | cons b l =>
    obtain ⟨rfl, hrest⟩ := id h
    by_cases hbx : b = x
    · subst hbx
      refine ⟨next b, next, by simp, ?_, fun _ _ => rfl⟩
      rw [erase_cons_head]
      exact hrest
    · have hx' : x ∈ l := (mem_cons.mp hx).resolve_left fun h => hbx h.symm
      obtain ⟨l₁, l₂, rfl⟩ := append_of_mem hx'
      have hnodup := linked_nodup h
      have hx₁ : x ∉ b :: l₁ := by
        intro hm
        have hsplit : (b :: l₁ ++ x :: l₂).Nodup := hnodup
        exact (nodup_append.mp hsplit).2.2 x hm x mem_cons_self rfl
      have herase : (b :: (l₁ ++ x :: l₂)).erase x = b :: l₁ ++ l₂ := by
        rw [← cons_append, erase_append_right _ hx₁, erase_cons_head]
      have hturns' : l₁.length < turns := by
        simp only [length_cons, length_append] at hturns
        omega
      have hprev : prevFrom next x turns b = some ((b :: l₁).getLast (by simp)) :=
        @prevFrom_some _ _ _ _ _ _ l₂ _ ⟨rfl, hrest⟩ hturns'
      have htail : Linked next (next x) l₂ := (linked_drop hrest).2
      refine ⟨some b, update next ((b :: l₁).getLast (by simp)) (next x), ?_, ?_, ?_⟩
      · simp only [if_neg hbx, hprev, map_some]
      · rw [herase]
        exact @linked_splice _ _ _ _ (x :: l₂) _ _ ⟨rfl, hrest⟩ hnodup _ htail
          fun y hy => mem_cons_of_mem x hy
      · intro y hy
        rw [herase] at hy
        refine update_of_ne ?_ _ _
        rintro rfl
        exact hy (mem_append_left _ (getLast_mem (by simp)))

end Chain
