import ImpossibleOs.Registry.ApiRun

/-!
Symbolic links on the way of a path (`reg_walk_path` of
`src/kernel/registry.c`).

The walker resolves a link by calling itself on the target. Nothing bounds
these calls, so the walk has a depth here, and `none` is a walk that does not
come to an end within it. A key is a link when `REG_FLAG_LINK` is set, whatever
values of type `REG_LINK` it has; no call sets the flag.
-/

namespace ImpossibleOs.Registry

open Option List

def regLink : UInt32 := 6

/-- `reg_key_get_link_target` -/
def linkTarget (t : Tree) (k : ℕ) : Option Name :=
  if (t.key k).isLink then
    ((t.key k).values.find? fun v => v.name = [] && v.type = regLink).map fun v =>
      cString ((List.range maxValueSize).map v.data)
  else none

/-- A link is replaced by what its target resolves to. -/
def follow (resolve : State → Name → Option (State × Option ℕ)) (s : State) (cur : ℕ) :
    Option (State × Option ℕ) :=
  match linkTarget s.tree cur with
  | none => some (s, some cur)
  | some target => resolve s target

/-- The loop over the components, and the resolution of the last key. -/
def linkLoop (resolve : State → Name → Option (State × Option ℕ)) (create : Bool) :
    List (Option Name) → State → ℕ → Option (State × Option ℕ)
  | [], s, cur => follow resolve s cur
  | none :: _, s, _ => some (s, none)
  | some component :: rest, s, cur =>
    match follow resolve s cur with
    | none => none
    | some (s, none) => some (s, none)
    | some (s, some cur) =>
      match s.walkFrom create [some component] cur with
      | (s, none) => some (s, none)
      | (s, some child) => linkLoop resolve create rest s child

/-- `reg_walk_path` -/
def walkLinks : ℕ → State → ℕ → Name → Bool → Option (State × Option ℕ)
  | 0, _, _, _, _ => none
  | depth + 1, s, start, path, create =>
    if path = [] then some (s, some start)
    else
      linkLoop (fun s target => walkLinks depth s rootHklm target false) create
        (components path) s start

variable {s : State} {t : Tree} {create : Bool}

/-! ### Without links -/

theorem walkFrom_cons (s : State) (create : Bool) (component : Name) (rest : List (Option Name))
    (cur : ℕ) :
    s.walkFrom create (some component :: rest) cur =
      match s.walkFrom create [some component] cur with
      | (s, none) => (s, none)
      | (s, some child) => s.walkFrom create rest child := by
  simp only [State.walkFrom]
  rcases s.kcbLookup cur component with ⟨s₁, _ | child⟩
  · dsimp only
    cases s₁.tree.findChild cur component with
    | some child => rfl
    | none =>
      dsimp only
      split
      · rfl
      · rcases s₁.tree.createChild cur component with ⟨t, _ | child⟩ <;> rfl
  · rfl

theorem follow_noLink {resolve : State → Name → Option (State × Option ℕ)} {cur : ℕ}
    (h : (s.tree.key cur).isLink = false) : follow resolve s cur = some (s, some cur) := by
  simp [follow, linkTarget, h]

theorem linkLoop_eq (resolve : State → Name → Option (State × Option ℕ)) {create : Bool}
    {steps : List (Option Name)} {cur : ℕ} (h : TreeOk s.tree)
    (hlinks : ∀ k, (s.tree.key k).isLink = false)
    (hsteps : ∀ c, some c ∈ steps → c.length ≤ maxKeyName) (hcur : cur < s.tree.keyNext) :
    linkLoop resolve create steps s cur = some (s.walkFrom create steps cur) := by
  induction steps generalizing s cur with
  | nil => exact follow_noLink (hlinks cur)
  | cons step rest ih =>
    cases step with
    | none => rfl
    | some component =>
      have hgrow := @walkFrom_grows s create [some component] cur h
        (by simpa using hsteps component mem_cons_self) hcur
      rw [walkFrom_cons, linkLoop, follow_noLink (hlinks cur)]
      dsimp only
      rcases hw : s.walkFrom create [some component] cur with ⟨s', _ | child⟩
      · rfl
      · rw [hw] at hgrow
        exact ih hgrow.1.tree (fun k => (hgrow.1.values k).2 (hlinks k))
          (fun c hc => hsteps c (mem_cons_of_mem _ hc)) (hgrow.2 child rfl)

/-- Where no key is a link the walker does not call itself. -/
theorem walkLinks_eq {depth start : ℕ} {path : Name} (h : TreeOk s.tree)
    (hlinks : ∀ k, (s.tree.key k).isLink = false) (hstart : start < s.tree.keyNext) :
    walkLinks (depth + 1) s start path create = some (s.walkPath start path create) := by
  have hloop := fun resolve => @linkLoop_eq s resolve create (components path) start h hlinks
    (fun _ hc => componentsFrom_length hc) hstart
  rw [walkLinks, hloop]
  split
  · rename_i hpath
    subst hpath
    rfl
  · rfl

/-- A root, or a child of some key that is not freed. -/
def Tree.Live (t : Tree) (k : ℕ) : Prop :=
  k ≤ rootHkcc ∨ ∃ p, t.Child p k ∧ (t.key k).name ≠ []

theorem hop_live {component : Name} {cur child : ℕ} (h : TreeOk s.tree)
    (hlen : component.length ≤ maxKeyName) (hne : component ≠ []) (hcur : cur < s.tree.keyNext)
    (hhop : (s.walkFrom create [some component] cur).2 = some child) :
    (s.walkFrom create [some component] cur).1.tree.Live child := by
  have hnamed {t : Tree} (hchild : t.Child cur child)
      (hname : stricmp (t.key child).name component = 0) : t.Live child := by
    refine .inr ⟨cur, hchild, fun hnil => hne ?_⟩
    rw [hnil] at hname
    exact stricmp_nil (stricmp_symm hname)
  have hsame := kcbLookup_same s cur component
  have hhit := @kcbLookup_some s component h cur
  rw [State.walkFrom] at hhop ⊢
  cases hlook : s.kcbLookup cur component with
  | mk s₁ found =>
    simp only [hlook] at hhop hsame ⊢
    cases found with
    | some c =>
      obtain rfl := some.inj hhop
      obtain ⟨hchild, hname⟩ := h.findChild_some.mp (hhit (by rw [hlook]))
      exact hnamed (hsame.tree ▸ hchild) (hsame.tree ▸ hname)
    | none =>
      have h₁ : TreeOk s₁.tree := hsame.tree ▸ h
      dsimp only at hhop ⊢
      cases hfind : s₁.tree.findChild cur component with
      | some c =>
        simp only [hfind] at hhop ⊢
        obtain rfl := some.inj hhop
        obtain ⟨hchild, hname⟩ := h₁.findChild_some.mp hfind
        have hins := (kcbInsert_same s₁ cur c).tree
        exact hnamed (hins.symm ▸ hchild) (hins.symm ▸ hname)
      | none =>
        simp only [hfind] at hhop ⊢
        split at hhop
        · cases hhop
        rename_i hcreate
        have hmade :=
          (@createChild_spec component s₁.tree h₁ cur (hsame.tree ▸ hcur) hlen).2.2
        rw [if_neg hcreate]
        rcases hc : s₁.tree.createChild cur component with ⟨t, _ | c⟩
        · simp [hc] at hhop
        · simp only [hc] at hhop hmade ⊢
          obtain rfl := some.inj hhop
          obtain ⟨hchild, hname⟩ := hmade c rfl
          have hins := (kcbInsert_same { s₁ with tree := t } cur c).tree
          exact hnamed (hins.symm ▸ hchild) (hins.symm ▸ hname)

theorem walkFrom_ends_live {steps : List (Option Name)} {cur k : ℕ} (h : TreeOk s.tree)
    (hsteps : ∀ c, some c ∈ steps → c ≠ [] ∧ c.length ≤ maxKeyName) (hcur : cur < s.tree.keyNext)
    (hlive : steps = [] → s.tree.Live cur) (hk : (s.walkFrom create steps cur).2 = some k) :
    (s.walkFrom create steps cur).1.tree.Live k := by
  induction steps generalizing s cur with
  | nil =>
    obtain rfl := some.inj hk
    exact hlive rfl
  | cons step rest ih =>
    cases step with
    | none => cases hk
    | some component =>
      obtain ⟨hne, hlen⟩ := hsteps component mem_cons_self
      have hgrow := @walkFrom_grows s create [some component] cur h (by simpa using hlen) hcur
      have hhop := fun child => @hop_live s create component cur child h hlen hne hcur
      rw [walkFrom_cons] at hk ⊢
      rcases hw : s.walkFrom create [some component] cur with ⟨s', _ | child⟩
      · rw [hw] at hk
        cases hk
      · rw [hw] at hgrow hhop hk
        exact ih hgrow.1.tree (fun c hc => hsteps c (mem_cons_of_mem _ hc))
          (hgrow.2 child rfl) (fun _ => hhop child rfl) hk

/-- In every tree that the registry calls build no key is a link, so a path is walked without a call
of the walker on itself. It leads to nothing or to a live key, unless it has no components and
starts at a key that is freed. -/
theorem walk_ends {path : Name} {start : ℕ} (ops : List RegOp)
    (hstart : start < (ops.foldl State.apply State.init).tree.keyNext) :
    (∀ k, ((ops.foldl State.apply State.init).tree.key k).isLink = false) ∧
    ∃ s' res, walkLinks 1 (ops.foldl State.apply State.init) start path create = some (s', res) ∧
      (components path ≠ [] ∨ (ops.foldl State.apply State.init).tree.Live start →
        ∀ k, res = some k → s'.tree.Live k) := by
  have h := apply_run ops
  refine ⟨h.values.noLink, _, _, walkLinks_eq h.tree h.values.noLink hstart, fun hor k hk => ?_⟩
  change (State.walkFrom _ create (components path) start).2 = some k at hk
  by_cases hnil : components path = []
  · rw [hnil] at hk ⊢
    obtain rfl := Option.some.inj hk
    exact hor.resolve_left (not_not.mpr hnil)
  · refine walkFrom_ends_live h.tree (fun c hc => ?_) hstart (fun h => absurd h hnil) hk
    exact ⟨componentsFrom_ne_nil hc, componentsFrom_length hc⟩

/-- The default value of `HKLM\SYSTEM` is of type `REG_LINK` and names the key itself. -/
def linkOps : List RegOp :=
  [.openKey .localMachine (ascii "SYSTEM") keyAllAccess,
    .setValue (.handle 0) [] regLink (some ((ascii "SYSTEM").map Subtype.val)) 6]

theorem walk_ends_linkValue : ∃ s' res,
    walkLinks 1 (linkOps.foldl State.apply State.init) rootHklm (ascii "SYSTEM") false =
        some (s', res) ∧ ∀ k, res = some k → s'.tree.Live k := by
  obtain ⟨-, s', res, hwalk, hlive⟩ := @walk_ends false (ascii "SYSTEM") rootHklm linkOps
    (Nat.lt_of_lt_of_le (by decide) (apply_run linkOps).tree.roots)
  exact ⟨s', res, hwalk, hlive (.inr (.inl (by decide)))⟩

/-- The walker counts no links: were a key flagged whose target is the path to it, no depth would
be enough. -/
theorem selfLink_never {path component : Name} {k : ℕ} (h : TreeOk t)
    (hroot : (t.key rootHklm).isLink = false) (hpath : path ≠ [])
    (hcomponents : components path = [some component])
    (hchild : t.findChild rootHklm component = some k) (hlink : linkTarget t k = some path)
    (depth : ℕ) (hs : s.tree = t) : walkLinks depth s rootHklm path false = none := by
  induction depth generalizing s with
  | zero => rfl
  | succ depth ih =>
    subst hs
    obtain ⟨hsame, hwalk⟩ := walkFrom_same h [some component] rootHklm
    rw [walkLinks, if_neg hpath, hcomponents, linkLoop, follow_noLink hroot]
    dsimp only
    rcases hw : s.walkFrom false [some component] rootHklm with ⟨s', res⟩
    rw [hw] at hsame hwalk
    simp only [Tree.walkFrom, hchild, bind_some] at hwalk
    subst hwalk
    have hagain : linkTarget s'.tree k = some path := by
      rw [hsame.tree]
      exact hlink
    simp only [linkLoop, follow, hagain]
    exact ih hsame.tree

end ImpossibleOs.Registry
