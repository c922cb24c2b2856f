import ImpossibleOs.Lib.Chain

/-!
Intrusive queues with a pointer to the last node.

The tail saves the walk to the end of the list. Every operation says which list it leaves and
which links it may have rewritten: those of the nodes of the queue, and of the node it was called
for.
-/

namespace Chain

open Function List Option

variable {α : Type*}

/-- The two ends of a queue. -/
structure Queue (α : Type*) where
  head : Option α
  tail : Option α

/-- The head leads to `l`, and the tail is its last node. -/
structure Queue.Holds (next : α → Option α) (q : Queue α) (l : List α) : Prop where
  linked : Linked next q.head l
  tail : q.tail = l.getLast?

variable {next next' : α → Option α} {q : Queue α} {l : List α} {a x : α}

theorem holds_empty (next : α → Option α) : Queue.Holds next ⟨none, none⟩ [] := ⟨rfl, rfl⟩

theorem holds_congr (h : q.Holds next l) (hnext : ∀ b ∈ l, next' b = next b) : q.Holds next' l :=
  ⟨linked_congr h.linked hnext, h.tail⟩

theorem head_eq_none (h : q.Holds next l) : q.head = none ↔ l = [] := by
  constructor
  · intro hq
    exact linked_none (hq ▸ h.linked)
  · rintro rfl
    exact h.linked

variable [DecidableEq α]

/-- A node is put behind the last one. -/
def Queue.pushBack (next : α → Option α) (q : Queue α) (a : α) : Queue α × (α → Option α) :=
  let ended := update next a none
  match q.tail with
  | some t => (⟨q.head, some a⟩, update ended t (some a))
  | none => (⟨some a, some a⟩, ended)

theorem pushBack_holds (h : q.Holds next l) (ha : a ∉ l) :
    (q.pushBack next a).1.Holds (q.pushBack next a).2 (l ++ [a]) := by
  have hended := linked_update h.linked ha none
  have htail := h.tail
  unfold Queue.pushBack
  cases l with
  | nil =>
    rw [getLast?_nil] at htail
    simp only [htail]
    refine ⟨⟨rfl, ?_⟩, rfl⟩
    rw [update_self]
    exact linked_nil
  | cons b l =>
    rw [getLast?_eq_some_getLast (by simp)] at htail
    simp only [htail]
    refine ⟨?_, List.getLast?_concat.symm⟩
    obtain ⟨hhead, hrest⟩ := hended
    show Linked _ q.head _
    rw [hhead]
    exact linked_extend ⟨rfl, hrest⟩ ha (update_self ..)

theorem pushBack_frame (h : q.Holds next l) {b : α} (hb : b ∉ a :: l) :
    (q.pushBack next a).2 b = next b := by
  rw [mem_cons, not_or] at hb
  unfold Queue.pushBack
  split
  · rename_i t ht
    have htl : t ∈ l := mem_of_getLast? (h.tail.symm.trans ht)
    have hbt : b ≠ t := by
      rintro rfl
      exact hb.2 htl
    exact (update_of_ne hbt _ _).trans (update_of_ne hb.1 _ _)
  · exact update_of_ne hb.1 _ _

/-- A node is put in front of the first one. -/
def Queue.pushFront (next : α → Option α) (q : Queue α) (a : α) : Queue α × (α → Option α) :=
  (⟨some a, if q.tail.isNone then some a else q.tail⟩, update next a q.head)

theorem pushFront_holds (h : q.Holds next l) (ha : a ∉ l) :
    (q.pushFront next a).1.Holds (q.pushFront next a).2 (a :: l) := by
  refine ⟨linked_push h.linked ha, ?_⟩
  have htail := h.tail
  unfold Queue.pushFront
  cases l with
  | nil =>
    rw [getLast?_nil] at htail
    simp [htail]
  | cons b l =>
    rw [getLast?_eq_some_getLast (by simp)] at htail
    simp [htail, getLast?_eq_some_getLast]

theorem pushFront_frame {b : α} (hb : b ∉ a :: l) : (q.pushFront next a).2 b = next b := by
  refine update_of_ne ?_ _ _
  rintro rfl
  exact hb mem_cons_self

/-- The first node `a` is taken out. -/
def Queue.popFront (next : α → Option α) (q : Queue α) (a : α) : Queue α × (α → Option α) :=
  (⟨next a, if (next a).isNone then none else q.tail⟩, update next a none)

theorem popFront_holds (h : q.Holds next (a :: l)) :
    (q.popFront next a).1.Holds (q.popFront next a).2 l := by
  have ha : a ∉ l := (nodup_cons.mp (linked_nodup h.linked)).1
  refine ⟨linked_update h.linked.2 ha none, ?_⟩
  have hrest := h.linked.2
  have htail := h.tail
  unfold Queue.popFront
  cases l with
  | nil =>
    have hnext : next a = none := hrest
    simp [hnext]
  | cons b l =>
    have hnext : next a = some b := hrest.1
    simpa [hnext] using htail

theorem popFront_frame {b : α} (hb : b ≠ a) : (q.popFront next a).2 b = next b :=
  update_of_ne hb _ _

/-! ### Unlink -/

/-- The node before `x` (none when `x` is the first), if the walk meets `x`. -/
def seek (next : α → Option α) (x : α) : ℕ → Option α → Option α → Option (Option α)
  | 0, _, _ => none
  | turns + 1, prev, cur =>
    match cur with
    | none => none
    | some c => if c = x then some prev else seek next x turns (some c) (next c)

/-- A node is taken out, wherever it stands; `none` when it is not in the queue. -/
def Queue.unlink (next : α → Option α) (turns : ℕ) (q : Queue α) (x : α) :
    Option (Queue α × (α → Option α)) :=
  (seek next x turns none q.head).map fun prev =>
    let spliced := match prev with
      | some p => update next p (next x)
      | none => next
    (⟨if prev.isSome then q.head else next x, if q.tail = some x then prev else q.tail⟩,
      update spliced x none)

variable {turns : ℕ}

theorem seek_none {prev cur : Option α} (h : Linked next cur l) (hx : x ∉ l) :
    seek next x turns prev cur = none := by
  induction turns generalizing prev cur l with
  | zero => rfl
  | succ turns ih =>
    unfold seek
    cases l with
    | nil =>
      obtain rfl : cur = none := h
      rfl
    | cons c l =>
      obtain ⟨rfl, hrest⟩ := h
      have hcx : c ≠ x := fun hc => hx (by simp [hc])
      simp only [if_neg hcx]
      exact ih hrest fun hm => hx (mem_cons_of_mem c hm)

theorem seek_some {prev cur : Option α} {l₁ l₂ : List α}
    (h : Linked next cur (l₁ ++ x :: l₂)) (hx : x ∉ l₁) (hturns : l₁.length < turns) :
    seek next x turns prev cur = some (l₁.getLast?.or prev) := by
  induction turns generalizing prev cur l₁ with
  | zero => omega
  | succ turns ih =>
    unfold seek
    cases l₁ with
    | nil =>
      obtain rfl : cur = some x := h.1
      simp
    | cons c l₁ =>
      obtain ⟨rfl, hrest⟩ := h
      have hcx : c ≠ x := fun hc => hx (by simp [hc])
      simp only [if_neg hcx]
      rw [ih hrest (fun hm => hx (mem_cons_of_mem c hm)) (by simpa using hturns)]
      rw [getLast?_cons]
      cases l₁.getLast? <;> rfl

theorem unlink_none (h : q.Holds next l) (hx : x ∉ l) : q.unlink next turns x = none := by
  unfold Queue.unlink
  rw [seek_none h.linked hx]
  rfl

theorem getLast_unlink {l₁ l₂ : List α} (hnodup : (l₁ ++ x :: l₂).Nodup) :
    (if (l₁ ++ x :: l₂).getLast? = some x then l₁.getLast? else (l₁ ++ x :: l₂).getLast?) =
      (l₁ ++ l₂).getLast? := by
  cases l₂ with
  | nil => simp
  | cons b l₂ =>
    have hlast : (l₁ ++ x :: b :: l₂).getLast? = (l₁ ++ b :: l₂).getLast? := by
      simp [getLast?_append]
    have hx : x ∉ b :: l₂ := (nodup_cons.mp (nodup_append.mp hnodup).2.1).1
    rw [if_neg, hlast]
    intro heq
    rw [getLast?_append, getLast?_cons_cons,
      getLast?_eq_some_getLast (l := b :: l₂) (by simp)] at heq
    refine hx ?_
    obtain rfl : (b :: l₂).getLast (by simp) = x := by simpa using heq
    exact getLast_mem (by simp)

theorem unlink_holds (h : q.Holds next l) (hx : x ∈ l) (hturns : l.length ≤ turns) :
    ∃ q' next', q.unlink next turns x = some (q', next') ∧ q'.Holds next' (l.erase x) ∧
      ∀ b, b ∉ l → next' b = next b := by
  obtain ⟨l₁, l₂, rfl⟩ := append_of_mem hx
  have hnodup := linked_nodup h.linked
  have hx₁ : x ∉ l₁ := fun hm => (nodup_append.mp hnodup).2.2 x hm x mem_cons_self rfl
  have hx₂ : x ∉ l₂ := (nodup_cons.mp (nodup_append.mp hnodup).2.1).1
  have hx' : x ∉ l₁ ++ l₂ := by simp [hx₁, hx₂]
  have herase : (l₁ ++ x :: l₂).erase x = l₁ ++ l₂ := by
    rw [erase_append_right _ hx₁, erase_cons_head]
  have hturns' : l₁.length < turns := by
    simp only [length_append, length_cons] at hturns
    omega
  have hrest : Linked next (next x) l₂ := (linked_drop h.linked).2
  unfold Queue.unlink
  rw [seek_some h.linked hx₁ hturns', or_none, herase]
  refine ⟨_, _, rfl, ⟨linked_update ?_ hx' none, ?_⟩, fun b hb => ?_⟩
  · cases l₁ with
    | nil => exact hrest
    | cons c l₁ =>
      obtain ⟨hhead, hc⟩ := h.linked
      rw [getLast?_eq_some_getLast (l := c :: l₁) (by simp)]
      simp only [isSome_some, if_true, hhead]
      exact @linked_splice _ _ _ _ (x :: l₂) _ _ ⟨rfl, hc⟩ hnodup _ hrest
        fun y hy => mem_cons_of_mem x hy
  · show (if q.tail = some x then _ else q.tail) = _
    rw [h.tail]
    exact getLast_unlink hnodup
  · have hbx : b ≠ x := fun hbx => hb (by simp [hbx])
    refine (update_of_ne hbx _ _).trans ?_
    cases hp : l₁.getLast? with
    | none => rfl
    | some p =>
      refine update_of_ne ?_ _ _
      rintro rfl
      exact hb (mem_append_left _ (mem_of_getLast? hp))

/-! ### Families of queues over one set of nodes -/

/-- Queues of which no two share a node. -/
structure Family {ι : Type*} (next : α → Option α) (qs : ι → Queue α) (ls : ι → List α) :
    Prop where
  holds : ∀ i, (qs i).Holds next (ls i)
  apart : ∀ {i j b}, b ∈ ls i → b ∈ ls j → i = j

section Family

variable {ι : Type*} [DecidableEq ι] {qs : ι → Queue α} {ls : ι → List α}

omit [DecidableEq α] in
theorem Family.change (h : Family next qs ls) (i : ι) {q' : Queue α} {l' : List α}
    (hq : q'.Holds next' l') (hnext : ∀ b, b ∉ ls i → b ∉ l' → next' b = next b)
    (hnew : ∀ b ∈ l', b ∈ ls i ∨ ∀ j, b ∉ ls j) :
    Family next' (update qs i q') (update ls i l') := by
  have hother : ∀ {j b}, j ≠ i → b ∈ ls j → b ∉ l' := by
    intro j b hj hb hb'
    rcases hnew b hb' with hold | hfree
    · exact hj (h.apart hb hold)
    · exact hfree j hb
  refine ⟨fun j => ?_, fun {j k b} hj hk => ?_⟩
  · by_cases hji : j = i
    · subst hji
      rwa [update_self, update_self]
    · rw [update_of_ne hji, update_of_ne hji]
      exact holds_congr (h.holds j) fun b hb =>
        hnext b (fun hi => hji (h.apart hb hi)) (hother hji hb)
  · by_cases hji : j = i
    · by_cases hki : k = i
      · rw [hji, hki]
      · subst hji
        rw [update_self] at hj
        rw [update_of_ne hki] at hk
        exact absurd hj (hother hki hk)
    · rw [update_of_ne hji] at hj
      by_cases hki : k = i
      · subst hki
        rw [update_self] at hk
        exact absurd hk (hother hji hj)
      · rw [update_of_ne hki] at hk
        exact h.apart hj hk

theorem Family.pushBack (h : Family next qs ls) (i : ι) (ha : ∀ j, a ∉ ls j) :
    Family ((qs i).pushBack next a).2 (update qs i ((qs i).pushBack next a).1)
      (update ls i (ls i ++ [a])) := by
  refine h.change i (pushBack_holds (h.holds i) (ha i)) (fun b hb hb' => ?_) fun b hb => ?_
  · exact pushBack_frame (h.holds i) fun hm => hb' (by simpa [or_comm] using hm)
  · rcases mem_append.mp hb with hb | hb
    · exact .inl hb
    · obtain rfl : b = a := by simpa using hb
      exact .inr ha

theorem Family.pushFront (h : Family next qs ls) (i : ι) (ha : ∀ j, a ∉ ls j) :
    Family ((qs i).pushFront next a).2 (update qs i ((qs i).pushFront next a).1)
      (update ls i (a :: ls i)) := by
  refine h.change i (pushFront_holds (h.holds i) (ha i)) (fun b _ hb' => pushFront_frame hb')
    fun b hb => ?_
  rcases mem_cons.mp hb with rfl | hb
  · exact .inr ha
  · exact .inl hb

theorem Family.popFront (h : Family next qs ls) {i : ι} (hi : ls i = a :: l) :
    Family ((qs i).popFront next a).2 (update qs i ((qs i).popFront next a).1)
      (update ls i l) := by
  refine h.change i (popFront_holds (hi ▸ h.holds i)) (fun b hb _ => ?_) fun b hb => ?_
  · refine popFront_frame fun hba => hb ?_
    rw [hi, hba]
    exact mem_cons_self
  · left
    rw [hi]
    exact mem_cons_of_mem a hb

theorem Family.unlink {turns : ℕ} (h : Family next qs ls) {i : ι} (hx : x ∈ ls i)
    (hturns : (ls i).length ≤ turns) : ∃ q' next', (qs i).unlink next turns x = some (q', next') ∧
      Family next' (update qs i q') (update ls i ((ls i).erase x)) := by
  obtain ⟨q', next', hu, hq, hnext⟩ := unlink_holds (h.holds i) hx hturns
  exact ⟨q', next', hu, h.change i hq (fun b hb _ => hnext b hb)
    fun b hb => .inl (mem_of_mem_erase hb)⟩

end Family

end Chain
