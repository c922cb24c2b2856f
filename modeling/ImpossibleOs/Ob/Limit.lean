import ImpossibleOs.Ob.Atomic

/-!
The handle quota.

`handle_limit` is 0 for a table without a quota. An allocation looks at it, `set_limit` and
`ob_handle_table_inherit` do not: a limit may be set below the number of open handles, and a
child takes the handles that fit its array, which for a fresh table has 64 slots.
-/

namespace ImpossibleOs.Ob

open Function List

open Function (update)

variable {s s' : ObSys}

def HandleTable.WithinLimit (T : HandleTable) : Prop :=
  T.handleLimit = 0 ∨ T.count ≤ T.handleLimit

/-- The limit that `ob_handle_table_set_limit` stores. -/
def clampLimit (newLimit : ℕ) : ℕ :=
  if handleTableAbsoluteMax < newLimit then handleTableAbsoluteMax else newLimit

/-- A limit is not set below the handles there are, and handles are inherited by tables with no
more slots than their limit needs. -/
def ObCall.KeepsLimit (s : ObSys) : ObCall → Prop
  | .setLimit t newLimit => clampLimit newLimit = 0 ∨ (s.tables t).count ≤ clampLimit newLimit
  | .inherit _ child _ => (s.tables child).handleLimit = 0 ∨
      (s.tables child).slots.length ≤ (s.tables child).handleLimit + 1
  | _ => True

def ObSys.LimitRun (s : ObSys) : List ObCall → Prop
  | [] => True
  | c :: cs => c.KeepsLimit s ∧ (s.step c).LimitRun cs

/-! ### Calls that only take away -/

structure NoMore (s s' : ObSys) : Prop where
  handleLimit : ∀ t, (s'.tables t).handleLimit = (s.tables t).handleLimit
  count : ∀ t, (s'.tables t).count ≤ (s.tables t).count

theorem NoMore.of_tables (h : s'.tables = s.tables) : NoMore s s' :=
  ⟨fun t => by rw [h], fun t => by rw [h]⟩

theorem NoMore.trans {s'' : ObSys} (h : NoMore s s') (h' : NoMore s' s'') : NoMore s s'' :=
  ⟨fun t => (h'.handleLimit t).trans (h.handleLimit t), fun t => (h'.count t).trans (h.count t)⟩

variable {es : List Entry} {T : HandleTable} {cbs : List (UInt32 → UInt32)} {growOk : ℕ → Bool}
  {t o : ℕ}

theorem NoMore.setTable {t : ℕ}
    (hlimit : T.handleLimit = (s.tables t).handleLimit) (hcount : T.count ≤ (s.tables t).count) :
    NoMore s (s.setTable t T) := by
  constructor
  all_goals
    intro u
    by_cases hu : u = t
  · rwa [hu, ObSys.setTable_tables, update_self]
  · rw [ObSys.setTable_tables, update_of_ne hu]
  · rwa [hu, ObSys.setTable_tables, update_self]
  · rw [ObSys.setTable_tables, update_of_ne hu]

theorem NoMore.within (h : NoMore s s') {t : ℕ} (hw : (s.tables t).WithinLimit) :
    (s'.tables t).WithinLimit := by
  have hlimit := h.handleLimit t
  have hcount := h.count t
  unfold HandleTable.WithinLimit at *
  omega

theorem dereference_noMore (s : ObSys) (o : ℕ) : NoMore s (obDereferenceObject s o) :=
  NoMore.of_tables (obDereferenceObject_tables s o).1

theorem clearSlot_noMore (s : ObSys) (t i o : ℕ) : NoMore s (clearSlot s t i o) := by
  refine NoMore.trans ?_ (dereference_noMore _ o)
  have hset : NoMore s (s.setTable t (clearedTable (s.tables t) i)) :=
    NoMore.setTable rfl (Nat.sub_le ..)
  unfold dropEntry
  dsimp only
  split
  · split <;> exact ⟨hset.handleLimit, hset.count⟩
  · split <;> exact ⟨hset.handleLimit, hset.count⟩

theorem obpFreeHandle_noMore (s : ObSys) (t : ℕ) (handle : ℤ) :
    NoMore s (obpFreeHandle s t handle).1 := by
  unfold obpFreeHandle
  split
  · exact NoMore.of_tables rfl
  · split
    · exact NoMore.of_tables rfl
    · exact clearSlot_noMore ..

theorem destroySlot_noMore (s : ObSys) (t i : ℕ) : NoMore s (destroySlot s t i) := by
  have hunprotect : NoMore s (unprotectSlot s t i) := NoMore.setTable rfl le_rfl
  unfold destroySlot
  split
  · exact NoMore.of_tables rfl
  · split
    · exact NoMore.of_tables rfl
    · exact hunprotect.trans (obpFreeHandle_noMore ..)

theorem obHandleTableDestroy_noMore (s : ObSys) (t : ℕ) : NoMore s (obHandleTableDestroy s t) := by
  unfold obHandleTableDestroy
  split
  · exact NoMore.of_tables rfl
  · rename_i es hes
    have hloop : NoMore s ((List.range es.length).foldl (fun s i => destroySlot s t i) s) :=
      Loop.foldl_range (fun _ s' => NoMore s s') (NoMore.of_tables rfl)
        fun i _ s' h => h.trans (destroySlot_noMore s' t i)
    exact hloop.trans (NoMore.setTable rfl (Nat.zero_le _))

theorem capGrant_noMore (s : ObSys) (t : ℕ) (handle : ℤ) (ceiling : UInt32) :
    NoMore s (capGrant s t handle ceiling) := by
  unfold capGrant
  split
  · exact NoMore.of_tables rfl
  · exact NoMore.setTable rfl le_rfl

theorem obpAllocateHandleInner_within {k : ℕ → ℕ} {access attrs : UInt32} {openOk : Bool}
    {handle : ℤ} (h : Acct False s k)
    (hr : obpAllocateHandleInner s t o access attrs cbs openOk growOk = (s', handle))
    (hw : ∀ u, (s.tables u).WithinLimit) (u : ℕ) : (s'.tables u).WithinLimit := by
  by_cases hne : handle = invalidHandleValue
  · subst hne
    have hsame := obpAllocateHandleInner_invalid h hr
    have hu := hw u
    unfold HandleTable.WithinLimit at *
    rwa [hsame.handleLimit, hsame.count]
  · obtain ⟨hquota, granted, i, -, -, hadded, -⟩ := obpAllocateHandleInner_added h hr hne
    have hu := hw u
    unfold HandleTable.WithinLimit at *
    rw [hadded.handleLimit, hadded.count]
    by_cases ht : u = t
    · subst ht
      rw [if_pos rfl]
      omega
    · rwa [if_neg ht]

theorem dupFinish_within {f : DupFrame} (cbs : List (UInt32 → UInt32)) (openOk : Bool)
    (growOk : ℕ → Bool) (h : Acct False s (oneRef f.srcObj)) (hw : ∀ u, (s.tables u).WithinLimit)
    (u : ℕ) : ((dupFinish s f cbs openOk growOk).1.tables u).WithinLimit := by
  rcases dupFinish_cases cbs openOk growOk h False.elim with
    ⟨s₁, hres, -, -, hs₁⟩ | ⟨s₁, s₂, access, j, e, hplaced, hres⟩
  · rw [hres]
    refine (dereference_noMore s₁ _).within ?_
    rcases hs₁ with rfl | ⟨access, halloc⟩
    · exact hw u
    · exact obpAllocateHandleInner_within h halloc hw u
  · obtain ⟨handle, openOk', growOk', -, halloc, -, rfl⟩ := hplaced.allocated
    rw [hres]
    refine (dereference_noMore _ _).within ?_
    have hs₂ : ((capGrant s₁ f.dstTable handle f.requestCeiling).tables u).WithinLimit :=
      (capGrant_noMore ..).within (obpAllocateHandleInner_within h halloc hw u)
    split
    · exact (clearSlot_noMore ..).within hs₂
    · exact hs₂

/-! ### Inheritance -/

theorem TableOk.count_lt (h : TableOk T) (hes : T.entries = some es) : T.count < es.length := by
  have hcap := (h.cap es hes).1
  have hslot0 := h.slot0
  rw [h.count, HandleTable.occupied, slots_of_entries hes]
  rw [slots_of_entries hes] at hslot0
  cases es with
  | nil => exact absurd hcap (lt_irrefl _)
  | cons e es =>
    rw [countP_cons_of_neg (by simp [hslot0 e rfl]), length_cons]
    exact Nat.lt_succ_of_le countP_le_length

/-- What the copy loop leaves alone. -/
structure Copied (s s' : ObSys) (child n : ℕ) : Prop where
  other : ∀ u, u ≠ child → s'.tables u = s.tables u
  handleLimit : (s'.tables child).handleLimit = (s.tables child).handleLimit
  length : ∃ es, (s'.tables child).entries = some es ∧ es.length = n

theorem Copied.inheritSlot {child n : ℕ} (h : Copied s s' child n) (parent i : ℕ) :
    Copied s (inheritSlot s' parent child i) child n := by
  rcases inheritSlot_cases s' parent child i with hsame | ⟨e, o, -, -, -, heq⟩
  · rwa [hsame]
  · rw [heq]
    obtain ⟨es, hes, hlen⟩ := h.length
    refine ⟨fun u hu => ?_, ?_,
      es.set i ⟨some o, e.grantedAccess, e.attributes, s'.grants.length⟩, ?_, length_set.trans hlen⟩
    · rw [ObSys.emit_tables, fillSlot_tables hes, update_of_ne hu]
      exact h.other u hu
    · rw [ObSys.emit_tables, fillSlot_tables hes, update_self]
      exact h.handleLimit
    · rw [ObSys.emit_tables, fillSlot_tables hes, update_self]

theorem obHandleTableInherit_within {parent child : ℕ} (growOk : ℕ → Bool) (h : Acct False s 0)
    (hfree : ∀ e ∈ (s.tables child).slots, e.object = none)
    (hkeeps : (s.tables child).handleLimit = 0 ∨
      (s.tables child).slots.length ≤ (s.tables child).handleLimit + 1)
    (hw : ∀ u, (s.tables u).WithinLimit) (u : ℕ) :
    ((obHandleTableInherit s parent child growOk).tables u).WithinLimit := by
  have hacct := (obHandleTableInherit_acct parent child growOk h hfree False.elim).1
  revert hacct
  unfold obHandleTableInherit
  split
  · rename_i pes ces hpes hces
    dsimp only
    split
    · exact fun _ => hw u
    · have hC := growToward_grown growOk (inheritBound pes) (inheritBound pes) (h.tables child) hces
      obtain ⟨es, hes⟩ := hC.entries
      have hlimit := hC.handleLimit
      have hlen : (s.tables child).handleLimit = 0 ∨
          es.length ≤ (s.tables child).handleLimit + 1 := by
        rcases Nat.eq_zero_or_pos (s.tables child).handleLimit with hzero | hpos
        · exact .inl hzero
        · have hgrown := hC.bound hpos (hkeeps.resolve_left hpos.ne')
          rw [slots_of_entries hes] at hgrown
          exact .inr hgrown
      generalize growToward growOk (inheritBound pes) (inheritBound pes) (s.tables child) = C at *
      have hcopied : Copied s ((List.range
        (min (inheritBound pes) (C.entries.getD []).length)).foldl
          (fun s i => inheritSlot s parent child i) (s.setTable child C)) child es.length := by
        refine Loop.foldl_range (fun _ s' => Copied s s' child es.length)
          ⟨fun v hv => ?_, ?_, es, ?_, rfl⟩ fun i _ s' hs' => hs'.inheritSlot parent i
        · rw [ObSys.setTable_tables, update_of_ne hv]
        · rw [ObSys.setTable_tables, update_self, hlimit]
        · rw [ObSys.setTable_tables, update_self, hes]
      generalize (List.range (min (inheritBound pes) (C.entries.getD []).length)).foldl
        (fun s i => inheritSlot s parent child i) (s.setTable child C) = s₁ at *
      intro hacct
      by_cases hu : u = child
      · subst hu
        obtain ⟨es₁, hes₁, hlen₁⟩ := hcopied.length
        have hcount := (hacct.tables u).count_lt hes₁
        unfold HandleTable.WithinLimit
        rw [hcopied.handleLimit]
        omega
      · rw [hcopied.other u hu]
        exact hw u
  · exact fun _ => hw u

theorem step_within {c : ObCall} (h : Acct False s 0) (hc : c.Legal s) (hk : c.KeepsLimit s)
    (hw : ∀ u, (s.tables u).WithinLimit) (u : ℕ) : ((s.step c).tables u).WithinLimit := by
  cases c with
  | tableInit quota =>
    show (update s.tables s.nTables _ u).WithinLimit
    by_cases hu : u = s.nTables
    · rw [hu, update_self]
      exact .inr (Nat.zero_le _)
    · rw [update_of_ne hu]
      exact hw u
  | allocObject permanent hasOnClose => exact hw u
  | reference o => exact hw u
  | dereference o =>
    have hdrop := dereference_noMore
      (s.setObject o { s.objects o with outside := (s.objects o).outside - 1 }) o
    exact NoMore.within ⟨hdrop.handleLimit, hdrop.count⟩ (hw u)
  | makeTemporary o => exact hw u
  | allocateHandle t o access attrs cbs openOk growOk =>
    exact obpAllocateHandleInner_within h (Prod.eta _).symm hw u
  | freeHandle t handle => exact (obpFreeHandle_noMore s t handle).within (hw u)
  | duplicateBegin srcTable srcHandle dstTable desiredAccess attrs options =>
    have hnone : NoMore s (ntDuplicateObjectBegin s srcTable srcHandle dstTable desiredAccess
        attrs options).1 := by
      unfold ntDuplicateObjectBegin
      split
      · exact NoMore.of_tables rfl
      · split <;> exact NoMore.of_tables rfl
    exact hnone.within (hw u)
  | duplicateFinish n cbs openOk growOk =>
    unfold ObSys.step ntDuplicateObjectFinish
    dsimp only
    split
    · exact hw u
    · rename_i f hf
      exact dupFinish_within cbs openOk growOk (h.takeFrame hf).1 hw u
  | inherit parent child growOk => exact obHandleTableInherit_within growOk h hc hk hw u
  | destroy t => exact (obHandleTableDestroy_noMore s t).within (hw u)
  | setLimit t newLimit =>
    show (update s.tables t _ u).WithinLimit
    by_cases hu : u = t
    · rw [hu, update_self]
      exact hk
    · rw [update_of_ne hu]
      exact hw u

theorem run_within {cs : List ObCall} (h : Acct False s 0) (hw : ∀ u, (s.tables u).WithinLimit)
    (hcs : s.LegalRun cs) (hk : s.LimitRun cs) (u : ℕ) : ((s.run cs).tables u).WithinLimit := by
  induction cs generalizing s with
  | nil => exact hw u
  | cons c cs ih =>
    exact ih (step_acct h hcs.1 False.elim).1 (step_within h hcs.1 hk.1 hw) hcs.2 hk.2

/-! ### The limit can be reached -/

/-- How many handles a table may hold. -/
def HandleTable.most (T : HandleTable) : ℕ :=
  if T.handleLimit = 0 then handleTableAbsoluteMax else T.handleLimit

theorem most_le (h : TableOk T) : T.most ≤ handleTableAbsoluteMax := by
  unfold HandleTable.most
  split
  · exact le_rfl
  · exact h.limit

theorem findFreeSlot_none (h : TableOk T)
    (hes : T.entries = some es) (hnone : findFreeSlot es = none) : es.length = T.count + 1 := by
  have hcap := (h.cap es hes).1
  have hslot0 := h.slot0
  rw [slots_of_entries hes] at hslot0
  rw [h.count, HandleTable.occupied, slots_of_entries hes]
  cases es with
  | nil => exact absurd hcap (lt_irrefl _)
  | cons e es =>
    have htaken : ∀ a ∈ es, a.object.isSome = true := by
      intro a ha
      have hfind := List.findIdx?_eq_none_iff.mp (Option.map_eq_none_iff.mp hnone) a ha
      simpa using hfind
    rw [countP_cons_of_neg (by simp [hslot0 e rfl]), countP_eq_length.mpr htaken,
      length_cons]

theorem obpAllocateHandleInner_succeeds {access granted attrs : UInt32} (hok : TableOk (s.tables t))
    (hes : (s.tables t).entries = some es) (hcb : obInvokePreCallbacks cbs access = some granted)
    (hroom : (s.tables t).count < (s.tables t).most) :
    (obpAllocateHandleInner s t o access attrs cbs true fun _ => true).2 ≠ invalidHandleValue := by
  have hmost := most_le hok
  have hquota :
      ¬(0 < (s.tables t).handleLimit ∧ (s.tables t).handleLimit ≤ (s.tables t).count) := by
    rintro ⟨hpos, hfull⟩
    rw [HandleTable.most, if_neg hpos.ne'] at hroom
    omega
  have hvalid : ∀ {i : ℕ}, (i : ℤ) * 4 ≠ invalidHandleValue := by
    intro i hi
    simp only [invalidHandleValue] at hi
    omega
  unfold obpAllocateHandleInner
  dsimp only
  rw [hes]
  dsimp only
  rw [hcb]
  dsimp only
  rw [if_neg (by simp), if_neg hquota]
  cases hfind : findFreeSlot es with
  | some i => exact hvalid
  | none =>
    have hlen := findFreeSlot_none hok hes hfind
    have hgrow : handleTableGrow (fun _ => true) (s.tables t) ≠ none := by
      simp only [handleTableAbsoluteMax] at hmost
      unfold handleTableGrow
      rw [hes]
      dsimp only
      have hceil : es.length < if 0 < (s.tables t).handleLimit then
          ((s.tables t).handleLimit + 1) % 2 ^ 32 else handleTableAbsoluteMax + 1 := by
        have hlimit := hok.limit
        unfold HandleTable.most at hroom
        simp only [handleTableAbsoluteMax] at hroom hlimit ⊢
        split at hroom
        · rw [if_neg (by omega)]
          omega
        · rw [if_pos (by omega), Nat.mod_eq_of_lt (by omega)]
          omega
      have hdouble : es.length * 2 % 2 ^ 32 = es.length * 2 := Nat.mod_eq_of_lt (by omega)
      generalize (if 0 < (s.tables t).handleLimit then _ else _ : ℕ) = c at hceil
      rw [if_neg (Nat.not_le.mpr hceil), hdouble, if_neg]
      · exact Option.some_ne_none _
      · simp only [Bool.true_eq_false, or_false]
        split <;> omega
    cases hT : handleTableGrow (fun _ => true) (s.tables t) with
    | none => exact absurd hT hgrow
    | some T' => exact hvalid

theorem obpAllocateHandleInner_full {access granted attrs : UInt32}
    (hes : (s.tables t).entries = some es) (hcb : obInvokePreCallbacks cbs access = some granted)
    (hpos : 0 < (s.tables t).handleLimit) (hfull : (s.tables t).handleLimit ≤ (s.tables t).count) :
    obpAllocateHandleInner s t o access attrs cbs true growOk =
      (s.setTable t { s.tables t with quotaWarned := true }, invalidHandleValue) := by
  unfold obpAllocateHandleInner
  dsimp only
  rw [hes]
  dsimp only
  rw [hcb]
  dsimp only
  rw [if_neg (by simp), if_pos ⟨hpos, hfull⟩]

def allocations (t o : ℕ) (access attrs : UInt32) (n : ℕ) : List ObCall :=
  List.replicate n (.allocateHandle t o access attrs [] true fun _ => true)

theorem allocations_fill (access attrs : UInt32) (n : ℕ) (h : Acct False s 0)
    (hes : (s.tables t).entries = some es) (ho : (s.objects o).alive = true)
    (hroom : (s.tables t).count + n ≤ (s.tables t).most) :
    s.LegalRun (allocations t o access attrs n) ∧
      ((s.run (allocations t o access attrs n)).tables t).count = (s.tables t).count + n ∧
      ((s.run (allocations t o access attrs n)).tables t).handleLimit = (s.tables t).handleLimit ∧
      ((s.run (allocations t o access attrs n)).tables t).entries ≠ none := by
  induction n generalizing s es with
  | zero => exact ⟨trivial, rfl, rfl, by simp [allocations, ObSys.run, hes]⟩
  | succ n ih =>
    obtain ⟨s₁, handle, hr⟩ : ∃ s₁ handle, obpAllocateHandleInner s t o access attrs [] true
        (fun _ => true) = (s₁, handle) := ⟨_, _, rfl⟩
    have hne := @obpAllocateHandleInner_succeeds s es [] t o access _ attrs (h.tables t) hes rfl
      (by omega)
    rw [hr] at hne
    obtain ⟨-, granted, i, -, -, hadded, hobjects, -⟩ := obpAllocateHandleInner_added h hr hne
    have hcount : (s₁.tables t).count = (s.tables t).count + 1 := by
      rw [hadded.count, if_pos rfl]
    have hlimit := hadded.handleLimit t
    have halive : (s₁.objects o).alive = true := by
      rw [hobjects, update_self]
      exact ho
    have hstep : s.step (.allocateHandle t o access attrs [] true fun _ => true) = s₁ :=
      congrArg Prod.fst hr
    have hlegal₁ : (ObCall.allocateHandle t o access attrs [] true fun _ => true).Legal s := ho
    have hacct : Acct False s₁ 0 := hstep ▸ (step_acct h hlegal₁ False.elim).1
    have hentry := (hadded.entries t i _ (by simp)).mpr (.inl ⟨rfl, rfl, rfl⟩)
    obtain ⟨es₁, hes₁, -⟩ := entries_of_slot hentry
    have hmost : (s₁.tables t).most = (s.tables t).most := by
      unfold HandleTable.most
      rw [hlimit]
    obtain ⟨hlegal, hfilled, hlimit', hsome⟩ := ih hacct hes₁ halive (by omega)
    rw [allocations, replicate_succ, ObSys.LegalRun, ObSys.run, hstep]
    exact ⟨⟨ho, hlegal⟩, by rw [← allocations, hfilled, hcount]; omega,
      hlimit'.trans hlimit, hsome⟩

/-- Under calls that keep the limits, no table with a limit has more handles than that, and one
without has at most the absolute maximum. A table that may hold `N` handles can be filled up to
`N`, and an allocation after that runs into the quota. -/
theorem handle_quota {cs : List ObCall} (hcs : ObSys.boot.LegalRun cs)
    (hk : ObSys.boot.LimitRun cs) :
    let s := ObSys.boot.run cs
    ∀ t, (s.tables t).count = (s.tables t).occupied ∧ (s.tables t).count ≤ (s.tables t).most ∧
      ∀ (o : ℕ) (access attrs : UInt32), (s.tables t).entries ≠ none →
        (s.objects o).alive = true →
        let full := s.run (allocations t o access attrs ((s.tables t).most - (s.tables t).count))
        s.LegalRun (allocations t o access attrs ((s.tables t).most - (s.tables t).count)) ∧
          (full.tables t).count = (s.tables t).most ∧
          (0 < (s.tables t).handleLimit →
            obpAllocateHandleInner full t o access attrs [] true (fun _ => true) =
              (full.setTable t { full.tables t with quotaWarned := true },
                invalidHandleValue)) := by
  intro s t
  have hacct : Acct False s 0 := run_acct boot_acct hcs False.elim
  have hw : (s.tables t).WithinLimit :=
    run_within boot_acct (fun _ => .inr (Nat.zero_le _)) hcs hk t
  have hok := hacct.tables t
  have hmost : (s.tables t).count ≤ (s.tables t).most := by
    unfold HandleTable.most
    split
    · cases hes : (s.tables t).entries with
      | none =>
        rw [hok.count, HandleTable.occupied, HandleTable.slots, hes]
        exact Nat.zero_le _
      | some es =>
        have hlt := hok.count_lt hes
        have hcap := (hok.cap es hes).2
        omega
    · rename_i hlimit
      exact hw.resolve_left hlimit
  refine ⟨hok.count, hmost, fun o access attrs hsome ho => ?_⟩
  obtain ⟨es, hes⟩ := Option.ne_none_iff_exists'.mp hsome
  obtain ⟨hlegal, hcount, hlimit, hfull⟩ := allocations_fill access attrs
    ((s.tables t).most - (s.tables t).count) hacct hes ho (by omega)
  refine ⟨hlegal, by rw [hcount]; omega, fun hpos => ?_⟩
  obtain ⟨es', hes'⟩ := Option.ne_none_iff_exists'.mp hfull
  refine obpAllocateHandleInner_full hes' rfl (hlimit ▸ hpos) ?_
  rw [hlimit, hcount]
  have hlim : (s.tables t).most = (s.tables t).handleLimit := if_neg hpos.ne'
  omega

/-- Two tables and three handles to inherit. -/
def inheritRun (limit : ℕ) : List ObCall :=
  [ObCall.tableInit 64, .tableInit 64, .allocObject false false] ++
    allocations 0 0 1 objInherit 3 ++ [ObCall.setLimit 1 limit, .inherit 0 1 fun _ => true]

theorem handle_quota_inheritRun :
    let s := ObSys.boot.run (inheritRun 100)
    (s.tables 1).count = (s.tables 1).occupied ∧ (s.tables 1).count ≤ (s.tables 1).most := by
  have hquota : 64 ≤ handleTableAbsoluteMax := by decide
  have hlegal : ObSys.boot.LegalRun (inheritRun 100) := by
    refine ⟨hquota, hquota, trivial, rfl, rfl, rfl, trivial, ?_, trivial⟩
    intro e he
    rw [eq_of_mem_replicate (n := handleTableInitCap) he]
    rfl
  have hlimit : ObSys.boot.LimitRun (inheritRun 100) :=
    ⟨trivial, trivial, trivial, trivial, trivial, trivial, .inr (by decide), .inr (by decide),
      trivial⟩
  obtain ⟨hcount, hmost, -⟩ := handle_quota hlegal hlimit 1
  exact ⟨hcount, hmost⟩

/-- A table without a limit has a handle although its `handle_limit` is 0; a limit is set below
the handles there are; and a child with a small limit inherits more. -/
theorem handle_quota_exceeded :
    (let T := (ObSys.boot.run ([ObCall.tableInit 64, .allocObject false false, .setLimit 0 0] ++
      allocations 0 0 1 0 1)).tables 0
    T.handleLimit = 0 ∧ T.count = 1) ∧
    (let T := (ObSys.boot.run ([ObCall.tableInit 64, .allocObject false false] ++
      allocations 0 0 1 0 2 ++ [ObCall.setLimit 0 1])).tables 0
    T.handleLimit = 1 ∧ T.count = 2) ∧
    (let T := (ObSys.boot.run (inheritRun 2)).tables 1
    T.handleLimit = 2 ∧ T.count = 3) := by
  refine ⟨⟨rfl, rfl⟩, ⟨rfl, rfl⟩, ⟨rfl, rfl⟩⟩

end ImpossibleOs.Ob
