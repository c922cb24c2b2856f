import ImpossibleOs.Registry.TreeInv

/-!
Path resolution through the cache of key control blocks.

The cache remembers which child a hop of a path led to. It is keyed by the
parent and the name as text, and it may hold anything: a hit counts only if the
child still has a name, the parent and the name that were asked for.
-/

namespace ImpossibleOs.Registry

structure KcbEntry where
  parent : ℕ
  child : ℕ
  name : Name
  /-- Stamp of the last use; 0 for an empty entry. -/
  lru : UInt64

structure Handle where
  key : Option ℕ
  access : UInt32

structure State where
  tree : Tree
  cache : List KcbEntry
  clock : UInt64
  /-- `reg_handle_pool`; `none` for a slot that is not in use. -/
  handles : ℕ → Option Handle
  currentUser : Name

/-! ### The cache -/

/-- The loop of `reg_kcb_lookup`. -/
def kcbScan (t : Tree) (parent : ℕ) (name : Name) (clock : UInt64) :
    List KcbEntry → List KcbEntry × Option ℕ
  | [] => ([], none)
  | e :: es =>
    let rest := kcbScan t parent name clock es
    if e.lru = 0 ∨ e.parent ≠ parent then (e :: rest.1, rest.2)
    else if stricmp e.name name ≠ 0 then (e :: rest.1, rest.2)
    else if (t.key e.child).name = [] ∨ (t.key e.child).parent ≠ some parent ∨
        stricmp (t.key e.child).name name ≠ 0 then
      ({ e with lru := 0 } :: rest.1, rest.2)
    else ({ e with lru := clock + 1 } :: es, some e.child)

def State.kcbLookup (s : State) (parent : ℕ) (name : Name) : State × Option ℕ :=
  if name = [] then (s, none)
  else
    let r := kcbScan s.tree parent name s.clock s.cache
    ({ s with cache := r.1, clock := if r.2.isSome then s.clock + 1 else s.clock }, r.2)

/-- Point an entry for this parent and name to `child`. -/
def kcbRefresh (parent child : ℕ) (name : Name) (clock : UInt64) :
    List KcbEntry → Option (List KcbEntry)
  | [] => none
  | e :: es =>
    if e.lru ≠ 0 ∧ e.parent = parent ∧ stricmp e.name name = 0 then
      some ({ e with child := child, lru := clock + 1 } :: es)
    else (kcbRefresh parent child name clock es).map (e :: ·)

/-- The first empty entry from `i` on, else the one with the oldest stamp. -/
def kcbVictim (i victim : ℕ) (oldest : UInt64) : List KcbEntry → ℕ
  | [] => victim
  | e :: es =>
    if e.lru = 0 then i
    else if e.lru < oldest then kcbVictim (i + 1) i e.lru es
    else kcbVictim (i + 1) victim oldest es

def State.kcbInsert (s : State) (parent child : ℕ) : State :=
  let name := (s.tree.key child).name
  if name = [] then s
  else
    match kcbRefresh parent child name s.clock s.cache with
    | some cache => { s with cache := cache, clock := s.clock + 1 }
    | none =>
      let victim := kcbVictim 0 0 ((s.cache.head?.map KcbEntry.lru).getD 0) s.cache
      { s with
        cache := s.cache.set victim ⟨parent, child, name, s.clock + 1⟩
        clock := s.clock + 1 }

def State.kcbPurgeKey (s : State) (k : ℕ) : State :=
  { s with
    cache := s.cache.map fun e =>
      if e.lru ≠ 0 ∧ (e.child = k ∨ e.parent = k) then { e with lru := 0 } else e }

/-! ### Paths -/

def backslash : NameChar := ⟨0x5C, by decide⟩

/-- The components of a path, as the walker takes them off: it stops at an empty one, and `none`
stands for one that is too long. -/
def componentsFrom : ℕ → Name → List (Option Name)
  | 0, _ => []
  | fuel + 1, p =>
    let component := (p.takeWhile (· ≠ backslash)).take maxKeyName
    let rest := p.drop component.length
    if rest ≠ [] ∧ rest.head? ≠ some backslash then [none]
    else if component = [] then []
    else some component :: componentsFrom fuel (rest.drop 1)

def components (path : Name) : List (Option Name) :=
  componentsFrom (path.length + 1) (if path.head? = some backslash then path.drop 1 else path)

/-- The loop of `reg_walk_path`. -/
def State.walkFrom (s : State) (create : Bool) : List (Option Name) → ℕ → State × Option ℕ
  | [], cur => (s, some cur)
  | none :: _, _ => (s, none)
  | some component :: rest, cur =>
    match s.kcbLookup cur component with
    | (s, some child) => s.walkFrom create rest child
    | (s, none) =>
      match s.tree.findChild cur component with
      | some child => (s.kcbInsert cur child).walkFrom create rest child
      | none =>
        if create = false then (s, none)
        else
          match s.tree.createChild cur component with
          | (t, none) => ({ s with tree := t }, none)
          | (t, some child) =>
            (({ s with tree := t } : State).kcbInsert cur child).walkFrom create rest child

def State.walkPath (s : State) (start : ℕ) (path : Name) (create : Bool) : State × Option ℕ :=
  s.walkFrom create (components path) start

/-- The walk without a cache: one `findChild` for each component. -/
def Tree.walkFrom (t : Tree) : List (Option Name) → ℕ → Option ℕ
  | [], cur => some cur
  | none :: _, _ => none
  | some component :: rest, cur => (t.findChild cur component).bind (t.walkFrom rest)

def Tree.walk (t : Tree) (start : ℕ) (path : Name) : Option ℕ := t.walkFrom (components path) start

/-! ### What the cache answers -/

variable {s : State} {name : Name}

theorem kcbScan_some {t : Tree} {parent : ℕ} {clock : UInt64} {es : List KcbEntry}
    {c : ℕ} (h : (kcbScan t parent name clock es).2 = some c) :
    (t.key c).name ≠ [] ∧ (t.key c).parent = some parent ∧ stricmp (t.key c).name name = 0 := by
  induction es with
  | nil => cases h
  | cons e es ih =>
    rw [kcbScan] at h
    split at h
    · exact ih h
    split at h
    · exact ih h
    split at h
    · exact ih h
    · rename_i hlive
      cases h
      rw [not_or, not_or, not_not, not_not] at hlive
      exact hlive

theorem kcbLookup_some (h : TreeOk s.tree) {parent c : ℕ}
    (hhit : (s.kcbLookup parent name).2 = some c) : s.tree.findChild parent name = some c := by
  unfold State.kcbLookup at hhit
  split at hhit
  · cases hhit
  obtain ⟨hname, hparent, hsame⟩ := kcbScan_some hhit
  exact h.findChild_some.mpr ⟨⟨_, h.named parent c hname hparent⟩, hsame⟩

/-- The cache and its clock are all that differs. -/
structure State.SameBut (s s' : State) : Prop where
  tree : s'.tree = s.tree
  handles : s'.handles = s.handles
  currentUser : s'.currentUser = s.currentUser

theorem State.SameBut.trans {s s' s'' : State} (h : s.SameBut s') (h' : s'.SameBut s'') :
    s.SameBut s'' :=
  ⟨h'.tree.trans h.tree, h'.handles.trans h.handles, h'.currentUser.trans h.currentUser⟩

theorem kcbLookup_same (s : State) (parent : ℕ) (name : Name) :
    s.SameBut (s.kcbLookup parent name).1 := by
  unfold State.kcbLookup
  split <;> exact ⟨rfl, rfl, rfl⟩

theorem kcbInsert_same (s : State) (parent child : ℕ) : s.SameBut (s.kcbInsert parent child) := by
  unfold State.kcbInsert
  dsimp only
  split
  · exact ⟨rfl, rfl, rfl⟩
  · split <;> exact ⟨rfl, rfl, rfl⟩

theorem walkFrom_same (h : TreeOk s.tree) (steps : List (Option Name)) (cur : ℕ) :
    s.SameBut (s.walkFrom false steps cur).1 ∧
      (s.walkFrom false steps cur).2 = s.tree.walkFrom steps cur := by
  induction steps generalizing s cur with
  | nil => exact ⟨⟨rfl, rfl, rfl⟩, rfl⟩
  | cons step rest ih =>
    cases step with
    | none => exact ⟨⟨rfl, rfl, rfl⟩, rfl⟩
    | some component =>
      have hsame := kcbLookup_same s cur component
      have hhit := @kcbLookup_some s component h cur
      rw [State.walkFrom, Tree.walkFrom]
      cases hlook : s.kcbLookup cur component with
      | mk s₁ child =>
        rw [hlook] at hsame
        cases child with
        | some child =>
          have hnext := @ih s₁ (hsame.tree ▸ h) child
          rw [hhit (by rw [hlook])]
          refine ⟨hsame.trans hnext.1, ?_⟩
          rw [hsame.tree] at hnext
          exact hnext.2
        | none =>
          dsimp only
          rw [hsame.tree]
          cases hfind : s.tree.findChild cur component with
          | none => exact ⟨hsame, rfl⟩
          | some child =>
            have hins := hsame.trans (kcbInsert_same s₁ cur child)
            have hnext := @ih (s₁.kcbInsert cur child) (hins.tree ▸ h) child
            refine ⟨hins.trans hnext.1, ?_⟩
            rw [hins.tree] at hnext
            exact hnext.2

theorem walkPath_spec (h : TreeOk s.tree) (start : ℕ) (path : Name) :
    s.SameBut (s.walkPath start path false).1 ∧
      (s.walkPath start path false).2 = s.tree.walk start path :=
  walkFrom_same h _ _

/-! ### Creating the keys of a path -/

theorem componentsFrom_length {fuel : ℕ} {p component : Name}
    (h : some component ∈ componentsFrom fuel p) : component.length ≤ maxKeyName := by
  induction fuel generalizing p with
  | zero => cases h
  | succ fuel ih =>
    rw [componentsFrom] at h
    split at h
    · simp at h
    split at h
    · cases h
    rcases List.mem_cons.mp h with hcomp | h
    · cases hcomp
      exact List.length_take_le _ _
    · exact ih h

/-- What the walkers and creators keep: a good tree that only grows, and every handle. -/
structure State.Grows (s s' : State) : Prop where
  tree : TreeOk s'.tree
  keyNext : s.tree.keyNext ≤ s'.tree.keyNext
  values : s.tree.KeepsValues s'.tree
  handles : s'.handles = s.handles
  currentUser : s'.currentUser = s.currentUser

theorem State.SameBut.grows {s s' : State} (h : s.SameBut s') (ht : TreeOk s.tree) : s.Grows s' :=
  ⟨h.tree ▸ ht, le_of_eq (by rw [h.tree]), .of_eq (by rw [h.tree]), h.handles, h.currentUser⟩

theorem State.Grows.trans {s s' s'' : State} (h : s.Grows s') (h' : s'.Grows s'') : s.Grows s'' :=
  ⟨h'.tree, h.keyNext.trans h'.keyNext, h.values.trans h'.values, h'.handles.trans h.handles,
    h'.currentUser.trans h.currentUser⟩

theorem Tree.findChild_lt {t : Tree} (h : TreeOk t) {p c : ℕ}
    (hf : t.findChild p name = some c) : c < t.keyNext :=
  (h.findChild_some.mp hf).1.elim fun b hb => h.used p b c hb

theorem walkFrom_grows {create : Bool} {steps : List (Option Name)} {cur : ℕ}
    (h : TreeOk s.tree) (hsteps : ∀ c, some c ∈ steps → c.length ≤ maxKeyName)
    (hcur : cur < s.tree.keyNext) :
    s.Grows (s.walkFrom create steps cur).1 ∧ ∀ k, (s.walkFrom create steps cur).2 = some k →
      k < (s.walkFrom create steps cur).1.tree.keyNext := by
  induction steps generalizing s cur with
  | nil =>
    refine ⟨⟨h, le_refl _, .of_eq rfl, rfl, rfl⟩, ?_⟩
    rintro k ⟨⟩
    exact hcur
  | cons step rest ih =>
    have hrest : ∀ c, some c ∈ rest → c.length ≤ maxKeyName :=
      fun c hc => hsteps c (List.mem_cons_of_mem _ hc)
    cases step with
    | none => exact ⟨⟨h, le_refl _, .of_eq rfl, rfl, rfl⟩, nofun⟩
    | some component =>
      have hsame := kcbLookup_same s cur component
      have hhit := @kcbLookup_some s component h cur
      rw [State.walkFrom]
      cases hlook : s.kcbLookup cur component with
      | mk s₁ child =>
        rw [hlook] at hsame
        have h₁ : TreeOk s₁.tree := hsame.tree ▸ h
        have hgrow₁ := hsame.grows h
        cases child with
        | some child =>
          have hchild := Tree.findChild_lt h (hhit (by rw [hlook]))
          have hnext := @ih s₁ child h₁ hrest (hsame.tree ▸ hchild)
          exact ⟨hgrow₁.trans hnext.1, hnext.2⟩
        | none =>
          dsimp only
          cases hfind : s₁.tree.findChild cur component with
          | some child =>
            have hins := kcbInsert_same s₁ cur child
            have hnext := @ih (s₁.kcbInsert cur child) child (hins.tree ▸ h₁) hrest
              (hins.tree ▸ Tree.findChild_lt h₁ hfind)
            exact ⟨hgrow₁.trans ((hins.grows h₁).trans hnext.1), hnext.2⟩
          | none =>
            dsimp only
            split
            · exact ⟨hgrow₁, nofun⟩
            have hvals := Tree.KeepsValues.createChild s₁.tree cur component
            have hcreate := @createChild_spec component s₁.tree h₁ cur
              (hsame.tree ▸ hcur) (hsteps component List.mem_cons_self)
            cases hc : s₁.tree.createChild cur component with
            | mk t child =>
              rw [hc] at hcreate hvals
              obtain ⟨ht, hle, hchild⟩ := hcreate
              have hgrow₂ : s.Grows { s₁ with tree := t } :=
                ⟨ht, hgrow₁.keyNext.trans hle, hgrow₁.values.trans hvals,
                  hgrow₁.handles,
                  hgrow₁.currentUser⟩
              cases child with
              | none => exact ⟨hgrow₂, nofun⟩
              | some child =>
                have hlt : child < t.keyNext :=
                  (hchild child rfl).1.elim fun b hb => ht.used cur b child hb
                have hins := kcbInsert_same { s₁ with tree := t } cur child
                have hnext :=
                  @ih (({ s₁ with tree := t } : State).kcbInsert cur child)
                  child (hins.tree ▸ ht) hrest (hins.tree ▸ hlt)
                exact ⟨hgrow₂.trans ((hins.grows ht).trans hnext.1), hnext.2⟩

theorem walkPath_grows (h : TreeOk s.tree) {start : ℕ} {path : Name} {create : Bool}
    (hstart : start < s.tree.keyNext) :
    s.Grows (s.walkPath start path create).1 ∧ ∀ k, (s.walkPath start path create).2 = some k →
      k < (s.walkPath start path create).1.tree.keyNext :=
  walkFrom_grows h (fun _ hc => componentsFrom_length hc) hstart

end ImpossibleOs.Registry
