import ImpossibleOs.Lib.Chain

/-!
Tables of chains.

A directory has for every bucket the head of the chain of its nodes. A node is put in front of
its chain or taken out of it; a new directory is filled by moving the nodes of the old one, chain
by chain. The set of nodes in the table says what every chain holds, not in which order.
-/

namespace Chain

open Function List

variable {α : Type*} {next next' : α → Option α} {head : Option α} {l : List α} {a : α}

/-- The first node from `head` on with `p`. -/
def findFrom (next : α → Option α) (p : α → Bool) : ℕ → Option α → Option α
  | 0, _ => none
  | _ + 1, none => none
  | turns + 1, some a => if p a then some a else findFrom next p turns (next a)

theorem linked_head (h : Linked next head l) : head = l.head? := by
  cases l with
  | nil => exact h
  | cons a l => exact h.1

theorem linked_suffix {l₁ l₂ : List α} (h : Linked next head (l₁ ++ l₂)) :
    Linked next l₂.head? l₂ := by
  cases l₂ with
  | nil => exact linked_nil
  | cons a l₂ => exact linked_drop h

theorem findFrom_eq {p : α → Bool} {turns : ℕ} (h : Linked next head l)
    (hturns : l.length ≤ turns) : findFrom next p turns head = l.find? p := by
  induction turns generalizing head l with
  | zero =>
    obtain rfl : l = [] := by simpa using hturns
    rfl
  | succ turns ih =>
    cases l with
    | nil =>
      obtain rfl : head = none := h
      rfl
    | cons a l =>
      obtain ⟨rfl, hrest⟩ := h
      simp only [findFrom, List.find?_cons]
      rw [ih hrest (by simpa using hturns)]
      cases p a <;> rfl

/-! ### Directories -/

/-- The chain of a bucket has the nodes of `s` whose bucket it is. -/
def Bucketed (next : α → Option α) (directory : ℕ → Option α) (bucket : α → ℕ) (s : Set α) :
    Prop :=
  ∀ b, ∃ l, Linked next (directory b) l ∧ ∀ a, a ∈ l ↔ a ∈ s ∧ bucket a = b

variable {directory : ℕ → Option α} {bucket bucket' : α → ℕ} {s : Set α}

theorem bucketed_empty (next : α → Option α) (bucket : α → ℕ) :
    Bucketed next (fun _ => none) bucket ∅ :=
  fun _ => ⟨[], linked_nil, by simp⟩

theorem Bucketed.congr (h : Bucketed next directory bucket s) (hnext : ∀ a ∈ s, next' a = next a)
    (hbucket : ∀ a ∈ s, bucket' a = bucket a) : Bucketed next' directory bucket' s := by
  intro b
  obtain ⟨l, hl, hmem⟩ := h b
  refine ⟨l, linked_congr hl fun a ha => hnext a ((hmem a).mp ha).1, fun a => ?_⟩
  rw [hmem]
  refine and_congr_right fun ha => ?_
  rw [hbucket a ha]

theorem Bucketed.mem (h : Bucketed next directory bucket s) {b : ℕ}
    (hl : Linked next (directory b) l) : a ∈ l ↔ a ∈ s ∧ bucket a = b := by
  obtain ⟨l', hl', hmem⟩ := h b
  rw [linked_unique hl hl', hmem]

variable [DecidableEq α]

theorem Bucketed.push (h : Bucketed next directory bucket s) (ha : a ∉ s) :
    Bucketed (update next a (directory (bucket a)))
      (update directory (bucket a) (some a)) bucket (insert a s) := by
  intro b
  obtain ⟨l, hl, hmem⟩ := h b
  have hal : a ∉ l := fun hm => ha ((hmem a).mp hm).1
  rcases eq_or_ne b (bucket a) with rfl | hb
  · refine ⟨a :: l, ?_, fun x => ?_⟩
    · rw [update_self]
      exact linked_push hl hal
    · rw [mem_cons, hmem, Set.mem_insert_iff]
      constructor
      · rintro (rfl | ⟨hx, hbx⟩)
        · exact ⟨.inl rfl, rfl⟩
        · exact ⟨.inr hx, hbx⟩
      · rintro ⟨rfl | hx, hbx⟩
        · exact .inl rfl
        · exact .inr ⟨hx, hbx⟩
  · refine ⟨l, ?_, fun x => ?_⟩
    · rw [update_of_ne hb]
      exact linked_update hl hal _
    · rw [hmem, Set.mem_insert_iff]
      constructor
      · rintro ⟨hx, hbx⟩
        exact ⟨.inr hx, hbx⟩
      · rintro ⟨rfl | hx, hbx⟩
        · exact absurd hbx.symm hb
        · exact ⟨hx, hbx⟩

section Removal

variable {turns : ℕ}

theorem Bucketed.remove_none (h : Bucketed next directory bucket s) (ha : a ∉ s) (b : ℕ) :
    remove next turns (directory b) a = none := by
  obtain ⟨l, hl, hmem⟩ := h b
  exact Chain.remove_none hl fun hm => ha ((hmem a).mp hm).1

theorem Bucketed.remove [Fintype α] (h : Bucketed next directory bucket s) (ha : a ∈ s)
    (hturns : Fintype.card α ≤ turns) :
    ∃ head' next', Chain.remove next turns (directory (bucket a)) a = some (head', next') ∧
      Bucketed next' (update directory (bucket a) head') bucket (s \ {a}) ∧
      (∀ l, Linked next (directory (bucket a)) l → Linked next' head' (l.erase a)) ∧
      (∀ x, bucket x ≠ bucket a → next' x = next x) := by
  obtain ⟨l, hl, hmem⟩ := h (bucket a)
  have hal : a ∈ l := (hmem a).mpr ⟨ha, rfl⟩
  obtain ⟨head', next', hremove, hl', hframe⟩ :=
    remove_linked hl hal ((linked_length_le hl).trans hturns)
  have hother : ∀ x, bucket x ≠ bucket a → next' x = next x := fun x hx =>
    hframe x fun hm => hx ((hmem x).mp (mem_of_mem_erase hm)).2
  refine ⟨head', next', hremove, fun b => ?_, fun l₁ hl₁ => ?_, hother⟩
  · rcases eq_or_ne b (bucket a) with rfl | hb
    · refine ⟨l.erase a, ?_, fun x => ?_⟩
      · rw [update_self]
        exact hl'
      · rw [(linked_nodup hl).mem_erase_iff, hmem, Set.mem_sdiff, Set.mem_singleton_iff]
        constructor
        · rintro ⟨hne, hx, hbx⟩
          exact ⟨⟨hx, hne⟩, hbx⟩
        · rintro ⟨⟨hx, hne⟩, hbx⟩
          exact ⟨hne, hx, hbx⟩
    · obtain ⟨l₁, hl₁, hmem₁⟩ := h b
      refine ⟨l₁, ?_, fun x => ?_⟩
      · rw [update_of_ne hb]
        refine linked_congr hl₁ fun x hx => hother x ?_
        rw [((hmem₁ x).mp hx).2]
        exact hb
      · rw [hmem₁, Set.mem_sdiff, Set.mem_singleton_iff]
        constructor
        · rintro ⟨hx, hbx⟩
          refine ⟨⟨hx, ?_⟩, hbx⟩
          rintro rfl
          exact hb hbx.symm
        · rintro ⟨⟨hx, -⟩, hbx⟩
          exact ⟨hx, hbx⟩
  · rw [linked_unique hl₁ hl]
    exact hl'

theorem Bucketed.update_link (h : Bucketed next directory bucket s) (ha : a ∉ s) (o : Option α) :
    Bucketed (update next a o) directory bucket s := by
  refine h.congr (fun x hx => update_of_ne ?_ _ _) fun _ _ => rfl
  rintro rfl
  exact ha hx

end Removal

/-- Every node from `head` on, with its link saved before, is put in front of its chain. -/
def moveChain (bucket : α → ℕ) :
    ℕ → Option α → (ℕ → Option α) × (α → Option α) → (ℕ → Option α) × (α → Option α)
  | 0, _, m => m
  | _ + 1, none, m => m
  | turns + 1, some a, m =>
    moveChain bucket turns (m.2 a)
      (update m.1 (bucket a) (some a), update m.2 a (m.1 (bucket a)))

theorem moveChain_bucketed {turns : ℕ} (h : Linked next head l) (hturns : l.length ≤ turns)
    (hs : Bucketed next directory bucket s) (hdisj : ∀ a ∈ l, a ∉ s) :
    Bucketed (moveChain bucket turns head (directory, next)).2
      (moveChain bucket turns head (directory, next)).1 bucket {a | a ∈ l ∨ a ∈ s} ∧
    ∀ a, a ∉ l → (moveChain bucket turns head (directory, next)).2 a = next a := by
  induction turns generalizing head l directory next s with
  | zero =>
    obtain rfl : l = [] := by simpa using hturns
    simp only [not_mem_nil, false_or, Set.ofPred_mem_eq]
    exact ⟨hs, fun _ _ => rfl⟩
  | succ turns ih =>
    cases l with
    | nil =>
      obtain rfl : head = none := h
      simp only [not_mem_nil, false_or, Set.ofPred_mem_eq]
      exact ⟨hs, fun _ _ => rfl⟩
    | cons a l =>
      have hnodup := nodup_cons.mp (linked_nodup h)
      obtain ⟨rfl, hrest⟩ := h
      have ha : a ∉ s := hdisj a mem_cons_self
      obtain ⟨hbucketed, hframe⟩ := ih (linked_update hrest hnodup.1 (directory (bucket a)))
        (by simpa using hturns) (hs.push ha) (by
          rintro x hx (rfl | hxs)
          · exact hnodup.1 hx
          · exact hdisj x (mem_cons_of_mem a hx) hxs)
      have hset : {x | x ∈ a :: l ∨ x ∈ s} = {x | x ∈ l ∨ x ∈ insert a s} := by
        ext x
        simp only [mem_cons, Set.mem_ofPred_eq, Set.mem_insert_iff]
        tauto
      rw [hset]
      refine ⟨hbucketed, fun x hx => ?_⟩
      rw [mem_cons, not_or] at hx
      exact (hframe x hx.2).trans (update_of_ne hx.1 _ _)

/-- The chains of some buckets of an old directory are moved, one after another. -/
def rehash (bucket : α → ℕ) (turns : ℕ) (old : ℕ → Option α) (bs : List ℕ)
    (m : (ℕ → Option α) × (α → Option α)) : (ℕ → Option α) × (α → Option α) :=
  bs.foldl (fun m b => moveChain bucket turns (old b) m) m

theorem rehash_bucketed {turns : ℕ} {old : ℕ → Option α} {bs : List ℕ} {t : Set α}
    (hold : ∀ b ∈ bs, ∃ l, Linked next (old b) l ∧ l.length ≤ turns ∧
      ∀ a, a ∈ l ↔ a ∈ t ∧ bucket' a = b) (hbs : bs.Nodup) (hs : Bucketed next directory bucket s)
    (hdisj : ∀ a ∈ t, bucket' a ∈ bs → a ∉ s) :
    Bucketed (rehash bucket turns old bs (directory, next)).2
      (rehash bucket turns old bs (directory, next)).1 bucket
      {a | (a ∈ t ∧ bucket' a ∈ bs) ∨ a ∈ s} := by
  induction bs generalizing directory next s with
  | nil =>
    simp only [not_mem_nil, and_false, false_or, Set.ofPred_mem_eq]
    exact hs
  | cons b bs ih =>
    have hb := nodup_cons.mp hbs
    obtain ⟨l, hl, hturns, hmem⟩ := hold b mem_cons_self
    obtain ⟨hmoved, hframe⟩ := moveChain_bucketed hl hturns hs fun a ha =>
      hdisj a ((hmem a).mp ha).1 (((hmem a).mp ha).2 ▸ mem_cons_self)
    set m := moveChain bucket turns (old b) (directory, next)
    have hrest := @ih m.2 m.1 {a | a ∈ l ∨ a ∈ s} (by
        intro c hc
        obtain ⟨lc, hlc, hlen, hmemc⟩ := hold c (mem_cons_of_mem b hc)
        refine ⟨lc, linked_congr hlc fun a ha => hframe a fun hal => ?_, hlen, hmemc⟩
        obtain rfl : b = c := ((hmem a).mp hal).2.symm.trans ((hmemc a).mp ha).2
        exact hb.1 hc) hb.2 hmoved (by
        rintro a hat hac (hal | has)
        · exact hb.1 (((hmem a).mp hal).2 ▸ hac)
        · exact hdisj a hat (mem_cons_of_mem b hac) has)
    have hset : {a | (a ∈ t ∧ bucket' a ∈ b :: bs) ∨ a ∈ s} =
        {a | (a ∈ t ∧ bucket' a ∈ bs) ∨ a ∈ {a | a ∈ l ∨ a ∈ s}} := by
      ext a
      simp only [mem_cons, Set.mem_ofPred_eq, hmem]
      tauto
    rw [hset]
    exact hrest

end Chain
