import ImpossibleOs.Lib.Loop
import ImpossibleOs.Ob.Slots

/-!
The calls of the handle interface keep the accounts, and each runs `on_close` for
exactly the objects that lose their last handle.
-/

namespace ImpossibleOs.Ob

open Function List Option

/-! ### When `on_close` runs -/

/-- Over the step from `s` to `s'`, `on_close` ran once for each object that had handles and
has none left, and for no other. -/
def CloseExact (s s' : ObSys) : Prop :=
  ∀ o, s'.closes o = s.closes o +
    if (s.objects o).hasOnClose = true ∧ 0 < s.refs o ∧ s'.refs o = 0 then 1 else 0

theorem Shift.closeExact_of_gain {s s' : ObSys} {g : ℕ → ℕ} (h : Shift s s' g 0 0) :
    CloseExact s s' := by
  intro o
  have hrefs := h.refs o
  rw [h.closes o, if_neg]
  · rfl
  · simp only [Pi.zero_apply] at hrefs
    omega

theorem Quiet.closeExact {s s' : ObSys} (h : Quiet s s') : CloseExact s s' :=
  Shift.closeExact_of_gain h

/-- Entries only disappear, and `on_close` runs for the last ones. -/
structure Shrinks (s s' : ObSys) : Prop where
  refs : ∀ o, s'.refs o ≤ s.refs o
  exact : CloseExact s s'
  hook : ∀ o, (s'.objects o).hasOnClose = (s.objects o).hasOnClose

theorem Shrinks.of_quiet {s s' : ObSys} (h : Quiet s s') : Shrinks s s' :=
  ⟨fun o => (h.refs o).le, h.closeExact, h.hook⟩

theorem Shrinks.trans {s s' s'' : ObSys} (h : Shrinks s s') (h' : Shrinks s' s'') :
    Shrinks s s'' := by
  refine ⟨fun o => (h'.refs o).trans (h.refs o), fun o => ?_, fun o => (h'.hook o).trans (h.hook o)⟩
  have h₁ := h.refs o
  have h₂ := h'.refs o
  rw [h'.exact o, h.exact o, h.hook o]
  -- the count falls to zero in one of the two steps or in neither
  by_cases hook : (s.objects o).hasOnClose = true
  · simp only [hook, true_and]
    split_ifs <;> omega
  · simp [hook]

theorem Shift.shrinks {s s' : ObSys} {o : ℕ} (h : Shift s s' 0 (oneRef o) fun x =>
    if x = o ∧ (s.objects o).hasOnClose = true ∧ s.refs o = 1 then 1 else 0) : Shrinks s s' := by
  refine ⟨fun x => ?_, fun x => ?_, h.hook⟩
  · have hrefs := h.refs x
    simp only [Pi.zero_apply] at hrefs
    omega
  · have hrefs := h.refs x
    rw [h.closes x]
    by_cases hx : x = o
    · subst hx
      simp only [oneRef_self, Pi.zero_apply] at hrefs
      have hlast : s.refs x = 1 ↔ 0 < s.refs x ∧ s'.refs x = 0 := by omega
      simp [hlast]
    · simp only [oneRef_of_ne hx, Pi.zero_apply] at hrefs
      have hnone : ¬(0 < s.refs x ∧ s'.refs x = 0) := by omega
      simp [hx, hnone]

variable {counted : Prop} {k : ℕ → ℕ} {es : List Entry} {s : ObSys} {T : HandleTable}
  {access attrs : UInt32} {growOk : ℕ → Bool} {t i o : ℕ} {handle : ℤ}

/-- The table an entry is stored in: as it was, or with free slots behind the old ones. -/
structure Grown (T T' : HandleTable) : Prop where
  ok : TableOk T'
  shape : ∃ es n, T.entries = some es ∧
    T' = { T with entries := some (es ++ replicate n freeEntry) }
  bound : 0 < T.handleLimit → T.slots.length ≤ T.handleLimit + 1 →
    T'.slots.length ≤ T.handleLimit + 1

theorem Grown.slots {T' : HandleTable} (h : Grown T T') {i : ℕ} {e : Entry} (he : e.object ≠ none) :
    T'.slots[i]? = some e ↔ T.slots[i]? = some e := by
  obtain ⟨es, n, hes, rfl⟩ := h.shape
  rw [slots_of_entries hes]
  show (es ++ replicate n freeEntry)[i]? = some e ↔ _
  by_cases hi : i < es.length
  · rw [getElem?_append_left hi]
  · rw [getElem?_append_right (Nat.le_of_not_lt hi)]
    refine iff_of_false (fun h => ?_) fun h => hi (List.getElem?_eq_some_iff.mp h).1
    rw [eq_of_mem_replicate (mem_of_getElem? h)] at he
    exact he rfl

theorem Grown.entries {T' : HandleTable} (h : Grown T T') : ∃ es, T'.entries = some es := by
  obtain ⟨es, n, hes, rfl⟩ := h.shape
  exact ⟨_, rfl⟩

theorem Grown.refs {T' : HandleTable} (h : Grown T T') (o : ℕ) : T'.refs o = T.refs o := by
  obtain ⟨es, n, hes, rfl⟩ := h.shape
  simp [HandleTable.refs, HandleTable.slots, hes, countP_replicate, freeEntry]

theorem Grown.handleLimit {T' : HandleTable} (h : Grown T T') : T'.handleLimit = T.handleLimit := by
  obtain ⟨es, n, -, rfl⟩ := h.shape
  rfl

theorem Grown.refl (h : TableOk T) (hes : T.entries = some es) : Grown T T := by
  refine ⟨h, ⟨es, 0, hes, ?_⟩, fun _ hlen => hlen⟩
  rw [replicate_zero, append_nil, ← hes]

theorem Grown.trans {T' T'' : HandleTable} (h : Grown T T') (h' : Grown T' T'') : Grown T T'' := by
  have hbound := h'.bound
  rw [h.handleLimit] at hbound
  refine ⟨h'.ok, ?_, fun hlimit hlen => hbound hlimit (h.bound hlimit hlen)⟩
  obtain ⟨es, n, hes, rfl⟩ := h.shape
  obtain ⟨_, m, ⟨⟩, rfl⟩ := h'.shape
  exact ⟨es, n + m, hes, by rw [append_assoc, replicate_append_replicate]⟩

theorem handleTableGrow_spec {T' : HandleTable} (h : TableOk T)
    (hgrow : handleTableGrow growOk T = some T') : Grown T T' ∧ ∃ es n, 0 < n ∧
      T.entries = some es ∧ T'.entries = some (es ++ replicate n freeEntry) := by
  unfold handleTableGrow at hgrow
  split at hgrow
  · cases hgrow
  rename_i es hes
  have hcap := h.cap es hes
  have hlimit := h.limit
  simp only [handleTableAbsoluteMax] at hcap hlimit
  -- no capacity this table can reach wraps around
  have hdouble : es.length * 2 % 2 ^ 32 = es.length * 2 := Nat.mod_eq_of_lt (by omega)
  have hceil : (T.handleLimit + 1) % 2 ^ 32 = T.handleLimit + 1 := Nat.mod_eq_of_lt (by omega)
  simp only [hdouble, hceil] at hgrow
  generalize hc : (if 0 < T.handleLimit then T.handleLimit + 1 else handleTableAbsoluteMax + 1) = c
    at hgrow
  have hcle : c ≤ handleTableAbsoluteMax + 1 ∧ (0 < T.handleLimit → c = T.handleLimit + 1) := by
    simp only [handleTableAbsoluteMax] at hc ⊢
    split at hc <;> omega
  split at hgrow
  · cases hgrow
  · generalize hn : (if c < es.length * 2 then c else es.length * 2) = n at hgrow
    have hlt : es.length < n ∧ n ≤ c := by
      split at hn <;> omega
    split at hgrow
    · cases hgrow
    · cases hgrow
      refine ⟨⟨⟨?_, ?_, h.limit, ?_⟩, ⟨es, _, hes, rfl⟩, fun hpos _ => ?_⟩, es, n - es.length,
        by omega, hes, rfl⟩
      · have hold := h.count
        simp only [HandleTable.occupied, slots_of_entries hes] at hold
        simp [HandleTable.occupied, HandleTable.slots, countP_replicate, freeEntry, hold]
      · intro e he
        simp only [HandleTable.slots, getD_some, getElem?_append_left hcap.1] at he
        exact h.slot0 e (by rwa [slots_of_entries hes])
      · intro es' hes'
        cases hes'
        simp only [length_append, length_replicate]
        omega
      · have hmax := hcle.2 hpos
        simp only [HandleTable.slots, getD_some, length_append, length_replicate]
        omega

theorem findFreeSlot_spec {i : ℕ} (h : findFreeSlot es = some i) :
    0 < i ∧ ∃ a, es[i]? = some a ∧ a.object = none := by
  obtain ⟨j, hj, rfl⟩ := map_eq_some_iff.mp h
  obtain ⟨hlt, hfree, -⟩ := List.findIdx?_eq_some_iff_getElem.mp hj
  refine ⟨by omega, es.tail[j], ?_, by simpa using hfree⟩
  rw [← getElem?_tail, getElem?_eq_getElem hlt]

/-! ### Allocating -/

/-- Every occupied slot of `s` is the same in `s'`. -/
def Keeps (s s' : ObSys) : Prop :=
  ∀ (t i : ℕ) (e : Entry), (s.tables t).slots[i]? = some e → e.object ≠ none →
    (s'.tables t).slots[i]? = some e

theorem Keeps.refl (s : ObSys) : Keeps s s := fun _ _ _ he _ => he

theorem Keeps.trans {s s' s'' : ObSys} (h : Keeps s s') (h' : Keeps s' s'') : Keeps s s'' :=
  fun t i e he hobj => h' t i e (h t i e he hobj) hobj

theorem fillSlot_keeps {a : Entry}
    (hes : (s.tables t).entries = some es) (ha : es[i]? = some a) (hfree : a.object = none) :
    Keeps s (fillSlot s t i o access attrs) := by
  intro t' j e he hobj
  rw [fillSlot_tables hes]
  by_cases ht : t' = t
  · subst ht
    rw [slots_of_entries hes] at he
    have hij : i ≠ j := by
      rintro rfl
      rw [ha] at he
      cases he
      exact hobj hfree
    simp [HandleTable.slots, getElem?_set_ne hij, he]
  · rwa [update_of_ne ht]

/-- What an allocation leaves: a new entry for `o` in a slot that was not occupied, or the
same entries as before. -/
structure Allocated (s s' : ObSys) (t o : ℕ) (access attrs : UInt32) (handle : ℤ) : Prop where
  keeps : Keeps s s'
  failed : handle = invalidHandleValue → Quiet s s' ∧ s'.grants = s.grants
  created : handle ≠ invalidHandleValue → Shift s s' (oneRef o) 0 0 ∧
    s'.grants = s.grants ++ [access] ∧ ∃ i : ℕ, handle = i * 4 ∧
      (s'.tables t).slots[i]? = some ⟨some o, access, attrs, s.grants.length⟩ ∧
      ∀ e, (s.tables t).slots[i]? = some e → e.object = none

theorem allocated_fill {a : Entry}
    (access attrs : UInt32) (h : Acct counted s k) (hes : (s.tables t).entries = some es)
    (ha : es[i]? = some a) (hfree : a.object = none) (hi : 0 < i)
    (ho : counted → 0 < (s.objects o).refCount.toNat)
    (hroom : counted → (s.objects o).refCount.toNat + 1 < 2 ^ 32) :
    Acct counted (fillSlot s t i o access attrs) k ∧
      Allocated s (fillSlot s t i o access attrs) t o access attrs ((i : ℤ) * 4) := by
  obtain ⟨hacct, hshift⟩ := fillSlot_acct access attrs h hes ha hfree hi ho hroom
  have hlt : i < es.length := (List.getElem?_eq_some_iff.mp ha).1
  refine ⟨hacct, ⟨fillSlot_keeps hes ha hfree, fun hbad => ?_, fun _ =>
    ⟨hshift, rfl, i, rfl, ?_, ?_⟩⟩⟩
  · simp only [invalidHandleValue] at hbad
    omega
  · rw [fillSlot_tables hes]
    simp [HandleTable.slots, hlt]
  · intro e he
    rw [slots_of_entries hes, ha] at he
    cases he
    exact hfree

theorem allocated_refused (s : ObSys) (t o : ℕ) (access attrs : UInt32) :
    Allocated s s t o access attrs invalidHandleValue :=
  ⟨Keeps.refl s, fun _ => ⟨Quiet.refl s, rfl⟩, fun hne => absurd rfl hne⟩

theorem allocated_after {s s₁ s' : ObSys} {t o : ℕ}
    (hq : Quiet s s₁) (hkeep : Keeps s s₁) (hgrants : s₁.grants = s.grants)
    (h : Allocated s₁ s' t o access attrs handle) : Allocated s s' t o access attrs handle := by
  refine ⟨hkeep.trans h.keeps, fun hbad => ?_, fun hne => ?_⟩
  · obtain ⟨hq', hg⟩ := h.failed hbad
    exact ⟨hq.trans hq', hg.trans hgrants⟩
  · obtain ⟨hshift, hg, i, rfl, hnew, hfree⟩ := h.created hne
    rw [hgrants] at hg hnew
    refine ⟨hshift.after_quiet hq, hg, i, rfl, hnew, fun e he => ?_⟩
    by_contra hocc
    exact hocc (hfree e (hkeep t i e he hocc))

theorem setTable_keeps {t : ℕ}
    (h : ∀ (i : ℕ) (e : Entry), (s.tables t).slots[i]? = some e → e.object ≠ none →
      T.slots[i]? = some e) : Keeps s (s.setTable t T) := by
  intro t' i e he hobj
  by_cases ht : t' = t
  · subst ht
    simpa using h i e he hobj
  · simpa [ht] using he

theorem setTable_self (s : ObSys) (t : ℕ) : s.setTable t (s.tables t) = s := by
  simp [ObSys.setTable]

/-- An allocation is refused, and only the memory of a quota warning may differ, or it stores an
entry in a free slot. -/
theorem obpAllocateHandleInner_cases {s s' : ObSys} {t o : ℕ}
    {cbs : List (UInt32 → UInt32)} {openOk : Bool} (h : Acct counted s k)
    (hr : obpAllocateHandleInner s t o access attrs cbs openOk growOk = (s', handle)) :
    (handle = invalidHandleValue ∧ ∃ warned,
      s' = s.setTable t { s.tables t with quotaWarned := warned }) ∨
    ¬(0 < (s.tables t).handleLimit ∧ (s.tables t).handleLimit ≤ (s.tables t).count) ∧
    ∃ granted T es, ∃ i : ℕ, ∃ a, obInvokePreCallbacks cbs access = some granted ∧
      Grown (s.tables t) T ∧ T.entries = some es ∧ es[i]? = some a ∧ a.object = none ∧ 0 < i ∧
      handle = (i : ℤ) * 4 ∧ s' = fillSlot (s.setTable t T) t i o granted attrs := by
  have hrefuse : ∃ warned, s = s.setTable t { s.tables t with quotaWarned := warned } :=
    ⟨(s.tables t).quotaWarned, (setTable_self s t).symm⟩
  unfold obpAllocateHandleInner at hr
  dsimp only at hr
  split at hr
  · cases hr
    exact .inl ⟨rfl, hrefuse⟩
  · rename_i es hes
    split at hr
    · cases hr
      exact .inl ⟨rfl, hrefuse⟩
    · rename_i granted hcb
      split at hr
      · cases hr
        exact .inl ⟨rfl, hrefuse⟩
      · split at hr
        · cases hr
          exact .inl ⟨rfl, true, rfl⟩
        · rename_i hquota
          split at hr
          · rename_i i hfind
            cases hr
            obtain ⟨hi, a, ha, hfree⟩ := findFreeSlot_spec hfind
            exact .inr ⟨hquota, granted, _, es, i, a, hcb, Grown.refl (h.tables t) hes, hes, ha,
              hfree, hi, rfl, by rw [setTable_self]⟩
          · split at hr
            · cases hr
              exact .inl ⟨rfl, hrefuse⟩
            · rename_i T' hgrow
              cases hr
              obtain ⟨hT', _, n, hn, hsome, hes'⟩ := handleTableGrow_spec (h.tables t) hgrow
              obtain rfl := Option.some.inj (hes.symm.trans hsome)
              have hnew : (es ++ replicate n freeEntry)[es.length]? = some freeEntry := by
                rw [getElem?_append_right le_rfl]
                simp [hn]
              exact .inr ⟨hquota, granted, T', _, es.length, freeEntry, hcb, hT', hes', hnew, rfl,
                ((h.tables t).cap es hes).1, rfl, rfl⟩

theorem obpAllocateHandleInner_acct {s s' : ObSys} {t o : ℕ}
    {cbs : List (UInt32 → UInt32)} {openOk : Bool} (h : Acct counted s k)
    (ho : counted → 0 < (s.objects o).refCount.toNat)
    (hroom : counted → (s.objects o).refCount.toNat + 1 < 2 ^ 32)
    (hr : obpAllocateHandleInner s t o access attrs cbs openOk growOk = (s', handle)) :
    Acct counted s' k ∧ ∃ granted, Allocated s s' t o granted attrs handle ∧
      (handle ≠ invalidHandleValue → obInvokePreCallbacks cbs access = some granted) := by
  rcases obpAllocateHandleInner_cases h hr with ⟨rfl, warned, rfl⟩ |
    ⟨-, granted, T, es, i, a, hcb, hT, hes, ha, hfree, hi, rfl, rfl⟩
  · have hold := h.tables t
    obtain ⟨hacct, hquiet⟩ := h.setTable (t := t)
      (T := { s.tables t with quotaWarned := warned })
      ⟨hold.count, hold.slot0, hold.limit, hold.cap⟩ (fun _ => rfl) id
    exact ⟨hacct, 0, allocated_after hquiet (setTable_keeps fun _ _ he _ => he) rfl
      (allocated_refused _ t o 0 attrs), fun hne => absurd rfl hne⟩
  · obtain ⟨es₀, n, hes₀, -⟩ := hT.shape
    obtain ⟨hacct, hquiet⟩ := h.setTable (t := t) hT.ok hT.refs (by simp [hes₀])
    have hes' : ((s.setTable t T).tables t).entries = some es := by simpa using hes
    obtain ⟨hacct', halloc⟩ := allocated_fill granted attrs hacct hes' ha hfree hi ho hroom
    exact ⟨hacct', granted, allocated_after hquiet
      (setTable_keeps fun _ _ he hobj => (hT.slots hobj).mpr he) rfl halloc, fun _ => hcb⟩

theorem obpLookupHandle_eq_some {i o : ℕ} {e : Entry} : obpLookupHandle T handle = some (i, o, e) ↔
      slotOf handle = some i ∧ T.slots[i]? = some e ∧ e.object = some o := by
  unfold obpLookupHandle
  cases hslot : slotOf handle with
  | none => simp
  | some j =>
    cases hes : T.entries with
    | none => simp [HandleTable.slots, hes]
    | some es =>
      cases hget : es[j]? with
      | none =>
        simp only [slots_of_entries hes, bind_eq_bind, bind_some, hget,
          bind_none, reduceCtorEq, some.injEq, false_iff]
        rintro ⟨rfl, hsome, -⟩
        rw [hget] at hsome
        cases hsome
      | some a =>
        cases hobj : a.object with
        | none =>
          simp only [slots_of_entries hes, bind_eq_bind, bind_some, hget,
            hobj, bind_none, reduceCtorEq, some.injEq, false_iff]
          rintro ⟨rfl, hsome, hsome'⟩
          rw [hget] at hsome
          cases hsome
          rw [hobj] at hsome'
          cases hsome'
        | some x =>
          simp only [slots_of_entries hes, bind_eq_bind, bind_some, hget,
            hobj, some.injEq, Prod.mk.injEq]
          constructor
          · rintro ⟨rfl, rfl, rfl⟩
            exact ⟨rfl, hget, hobj⟩
          · rintro ⟨rfl, hsome, hsome'⟩
            rw [hget] at hsome
            cases hsome
            rw [hobj] at hsome'
            cases hsome'
            exact ⟨rfl, rfl, rfl⟩

theorem slotOf_mul_four (i : ℕ) : slotOf ((i : ℤ) * 4) = some i := by
  unfold slotOf
  rw [if_neg (by omega), if_neg (by omega)]
  congr
  omega

theorem entries_of_slot {i : ℕ} {e : Entry} (h : T.slots[i]? = some e) :
    ∃ es, T.entries = some es ∧ es[i]? = some e := by
  cases hes : T.entries with
  | none => simp [HandleTable.slots, hes] at h
  | some es => exact ⟨es, rfl, by rwa [slots_of_entries hes] at h⟩

theorem obpFreeHandle_acct (t : ℕ) (handle : ℤ) (h : Acct counted s k) :
    Acct counted (obpFreeHandle s t handle).1 k ∧
      (counted → Shrinks s (obpFreeHandle s t handle).1) := by
  unfold obpFreeHandle
  split
  · exact ⟨h, fun _ => Shrinks.of_quiet (Quiet.refl s)⟩
  · rename_i i o e hlook
    split
    · exact ⟨h, fun _ => Shrinks.of_quiet (Quiet.refl s)⟩
    · obtain ⟨-, hget, hobj⟩ := obpLookupHandle_eq_some.mp hlook
      obtain ⟨es, hes, ha⟩ := entries_of_slot hget
      obtain ⟨hacct, hshift⟩ := clearSlot_acct h hes ha hobj
      exact ⟨hacct, fun hc => (hshift hc).shrinks⟩

/-! ### Destroying a table -/

theorem Acct.modifySlot (h : Acct counted s k) (t i : ℕ) {f : Entry → Entry}
    (hf : ∀ e, (f e).object = e.object)
    (hT : T = { s.tables t with entries := some ((s.tables t).slots.modify i f) })
    (hsome : (s.tables t).entries ≠ none) :
    Acct counted (s.setTable t T) k ∧ Quiet s (s.setTable t T) := by
  obtain ⟨es, hes⟩ := ne_none_iff_exists'.mp hsome
  have hold := h.tables t
  have hslots := slots_of_entries hes
  subst hT
  refine h.setTable ⟨?_, ?_, hold.limit, ?_⟩ (fun o => ?_) fun hnone => absurd hnone hsome
  · rw [hold.count]
    exact (countP_modify_congr (fun e => by rw [hf]) _ _).symm
  · intro e he
    simp only [HandleTable.slots, getD_some, getElem?_modify] at he
    obtain ⟨a, ha, rfl⟩ := map_eq_some_iff.mp he
    have hfree := hold.slot0 a ha
    split
    · rw [hf, hfree]
    · exact hfree
  · intro es' hes'
    cases hes'
    simpa [hslots] using hold.cap es hes
  · exact countP_modify_congr (fun e => by rw [hf]) _ _

theorem unprotectSlot_acct (h : Acct counted s k) {t : ℕ} (i : ℕ)
    (hsome : (s.tables t).entries ≠ none) :
    Acct counted (unprotectSlot s t i) k ∧ Quiet s (unprotectSlot s t i) :=
  h.modifySlot t i
    (f := fun e => { e with attributes := e.attributes &&& ~~~objProtectClose }) (fun _ => rfl) rfl
    hsome

theorem obDereferenceObject_tables (s : ObSys) (o : ℕ) :
    (obDereferenceObject s o).tables = s.tables ∧ (obDereferenceObject s o).nTables = s.nTables ∧
      (obDereferenceObject s o).grants = s.grants ∧
      (obDereferenceObject s o).pending = s.pending := by
  unfold obDereferenceObject
  dsimp only
  split
  · split <;> exact ⟨rfl, rfl, rfl, rfl⟩
  · exact ⟨rfl, rfl, rfl, rfl⟩

theorem clearSlot_tables (s : ObSys) (t i o : ℕ) :
    (clearSlot s t i o).tables = update s.tables t (clearedTable (s.tables t) i) := by
  rw [clearSlot, (obDereferenceObject_tables _ _).1, dropEntry_tables]

theorem unprotected (x : UInt32) : x &&& ~~~objProtectClose &&& objProtectClose = 0 := by
  rw [UInt32.and_assoc, UInt32.not_and_self, UInt32.and_zero]

/-- What one round leaves in the table: slot `i` free, the others untouched. -/
structure SlotGone (es es' : List Entry) (i : ℕ) : Prop where
  length : es'.length = es.length
  other : ∀ j, j ≠ i → es'[j]? = es[j]?
  gone : ∀ e, es'[i]? = some e → e.object = none

theorem destroySlot_acct {t : ℕ} (h : Acct counted s k) (hes : (s.tables t).entries = some es)
    (i : ℕ) : Acct counted (destroySlot s t i) k ∧ (counted → Shrinks s (destroySlot s t i)) ∧
      ∃ es', ((destroySlot s t i).tables t).entries = some es' ∧ SlotGone es es' i := by
  have hsame : ∀ a, es[i]? = a → (∀ e, a = some e → e.object = none) → SlotGone es es i :=
    fun a ha hfree => ⟨rfl, fun _ _ => rfl, fun e he => hfree e (ha ▸ he)⟩
  unfold destroySlot
  rw [hes, getD_some]
  split
  · rename_i hnone
    exact ⟨h, fun _ => Shrinks.of_quiet (Quiet.refl s), es, hes, hsame _ hnone (by simp)⟩
  · rename_i e hget
    split
    · rename_i hfree
      refine ⟨h, fun _ => Shrinks.of_quiet (Quiet.refl s), es, hes, hsame _ hget ?_⟩
      rintro _ ⟨⟩
      exact hfree
    · rename_i hocc
      obtain ⟨o, hobj⟩ := ne_none_iff_exists'.mp hocc
      obtain ⟨hacct, hquiet⟩ := unprotectSlot_acct h i (t := t) (by simp [hes])
      let e' : Entry := { e with attributes := e.attributes &&& ~~~objProtectClose }
      let es₁ := es.modify i fun e => { e with attributes := e.attributes &&& ~~~objProtectClose }
      have hes₁ : ((unprotectSlot s t i).tables t).entries = some es₁ := by
        simp [unprotectSlot, hes, es₁]
      have hget₁ : es₁[i]? = some e' := by simp [es₁, e', hget]
      have hlook : obpLookupHandle ((unprotectSlot s t i).tables t) ((i : ℤ) * 4) =
          some (i, o, e') :=
        obpLookupHandle_eq_some.mpr
          ⟨slotOf_mul_four i, by rw [slots_of_entries hes₁, hget₁], hobj⟩
      have hfree := obpFreeHandle_acct t ((i : ℤ) * 4) hacct
      refine ⟨hfree.1, fun hc => (Shrinks.of_quiet hquiet).trans (hfree.2 hc),
        es₁.set i freeEntry, ?_, ?_⟩
      · rw [obpFreeHandle, hlook]
        dsimp only
        rw [if_neg (by simp [e', unprotected]), clearSlot_tables, update_self, clearedTable,
          slots_of_entries hes₁]
      · refine ⟨by simp [es₁], fun j hj => ?_, fun x hx => ?_⟩
        · rw [getElem?_set_ne (Ne.symm hj)]
          simp [es₁, Ne.symm hj]
        · obtain ⟨hlt, rfl⟩ := List.getElem?_eq_some_iff.mp hx
          simp [freeEntry]

theorem refs_eq_zero (h : ∀ e ∈ T.slots, e.object = none) (o : ℕ) : T.refs o = 0 := by
  refine countP_eq_zero.mpr fun e he => ?_
  simp [h e he]

theorem obHandleTableDestroy_acct (t : ℕ) (h : Acct counted s k) :
    Acct counted (obHandleTableDestroy s t) k ∧
      (counted → Shrinks s (obHandleTableDestroy s t)) := by
  unfold obHandleTableDestroy
  split
  · exact ⟨h, fun _ => Shrinks.of_quiet (Quiet.refl s)⟩
  · rename_i es hes
    -- after `i` rounds the first `i` slots are free
    let P : ℕ → ObSys → Prop := fun i s' => Acct counted s' k ∧ (counted → Shrinks s s') ∧
      ∃ es', (s'.tables t).entries = some es' ∧ es'.length = es.length ∧
        ∀ j < i, ∀ e, es'[j]? = some e → e.object = none
    have hloop : P es.length ((List.range es.length).foldl (fun s i => destroySlot s t i) s) := by
      refine Loop.foldl_range P
        ⟨h, fun _ => Shrinks.of_quiet (Quiet.refl s), es, hes, rfl, by omega⟩ ?_
      rintro i - s₁ ⟨hacct, hshrink, es₁, hes₁, hlen, hfree⟩
      obtain ⟨hacct', hshrink', es₂, hes₂, hgone⟩ := destroySlot_acct hacct hes₁ i
      refine ⟨hacct', fun hc => (hshrink hc).trans (hshrink' hc), es₂, hes₂,
        hgone.length.trans hlen, fun j hj e he => ?_⟩
      by_cases hji : j = i
      · exact hgone.gone e (hji ▸ he)
      · exact hfree j (by omega) e (hgone.other j hji ▸ he)
    obtain ⟨hacct, hshrink, es', hes', hlen, hfree⟩ := hloop
    dsimp only
    generalize (List.range es.length).foldl (fun s i => destroySlot s t i) s = s₁ at *
    have hall : ∀ e ∈ (s₁.tables t).slots, e.object = none := by
      intro e he
      rw [slots_of_entries hes'] at he
      obtain ⟨j, hj, rfl⟩ := getElem_of_mem he
      exact hfree j (by omega) _ (getElem?_eq_getElem hj)
    obtain ⟨hacct', hquiet⟩ := hacct.setTable (t := t)
      (T := { s₁.tables t with entries := none, count := 0 })
      ⟨rfl, by simp [HandleTable.slots], (hacct.tables t).limit, by simp⟩
      (fun o => by rw [refs_eq_zero hall]; rfl) (fun _ => rfl)
    exact ⟨hacct', fun hc => (hshrink hc).trans (Shrinks.of_quiet hquiet)⟩

/-! ### Inheritance -/

theorem growToward_grown (growOk : ℕ → Bool) (bound fuel : ℕ) (h : TableOk T)
    (hes : T.entries = some es) : Grown T (growToward growOk bound fuel T) := by
  induction fuel generalizing T es with
  | zero => exact Grown.refl h hes
  | succ fuel ih =>
    rw [growToward]
    split
    · exact Grown.refl h hes
    · cases hgrow : handleTableGrow growOk T with
      | none => exact Grown.refl h hes
      | some T' =>
        obtain ⟨hT', es', n, -, -, hes'⟩ := handleTableGrow_spec h hgrow
        exact hT'.trans (ih hT'.ok hes')

/-- A round of the copy loop does nothing, or copies the inheritable entry of its slot. -/
theorem inheritSlot_cases (s : ObSys) (parent child i : ℕ) : inheritSlot s parent child i = s ∨
    ∃ e o, (s.tables parent).slots[i]? = some e ∧ e.object = some o ∧ inheritable e = true ∧
      inheritSlot s parent child i = (fillSlot s child i o e.grantedAccess e.attributes).emit
        (.derived e.hid s.grants.length) := by
  unfold inheritSlot
  split
  · exact .inl rfl
  · rename_i e hget
    split
    · exact .inl rfl
    · rename_i o hobj
      split
      · exact .inl rfl
      · rename_i hinherit
        exact .inr ⟨e, o, hget, hobj, by simp [inheritable, hobj, hinherit], rfl⟩

theorem inheritSlot_acct (parent : ℕ) {child i : ℕ}
    (h : Acct counted s k) (hes : (s.tables child).entries = some es) (hlt : i < es.length)
    (hfree : ∀ e, es[i]? = some e → e.object = none)
    (hroom : counted → ∀ e o, (s.tables parent).slots[i]? = some e → e.object = some o →
      inheritable e = true → (s.objects o).refCount.toNat + 1 < 2 ^ 32) :
    Acct counted (inheritSlot s parent child i) k ∧
      (∃ g, Shift s (inheritSlot s parent child i) g 0 0) ∧
      ∃ es', ((inheritSlot s parent child i).tables child).entries = some es' ∧
        es'.length = es.length ∧ ∀ j, j ≠ i → es'[j]? = es[j]? := by
  rcases inheritSlot_cases s parent child i with hsame | ⟨e, o, hget, hobj, hinherit, heq⟩
  · rw [hsame]
    exact ⟨h, ⟨0, Quiet.refl s⟩, es, hes, rfl, fun _ _ => rfl⟩
  · rw [heq]
    have hpos := (h.tables parent).slot_pos hget hobj
    have halive := (h.entry_alive hget hobj).2
    have hchild : es[i]? = some es[i] := getElem?_eq_getElem hlt
    obtain ⟨hacct, hshift⟩ := fillSlot_acct e.grantedAccess e.attributes h hes hchild
      (hfree _ hchild) hpos halive fun hc => hroom hc e o hget hobj hinherit
    refine ⟨⟨hacct.tables, hacct.unused, fun hc x => ?_⟩, ⟨oneRef o, hshift.refs, fun x => ?_,
      hshift.hook⟩, es.set i ⟨some o, e.grantedAccess, e.attributes, s.grants.length⟩, ?_,
      length_set, fun j hj => getElem?_set_ne (Ne.symm hj)⟩
    · refine (hacct.object hc x).congr rfl rfl rfl rfl ?_
      simp [ObSys.frees, ObSys.emit]
    · rw [← hshift.closes x]
      simp [ObSys.closes, ObSys.emit]
    · rw [ObSys.emit_tables, fillSlot_tables hes, update_self]

/-- The references that the entries `pes` bring when they are inherited fit the counts. -/
def Room (s : ObSys) (pes : List Entry) : Prop :=
  ∀ o, (s.objects o).refCount.toNat + (pes.countP fun e => inheritable e && e.object == some o) <
    2 ^ 32

theorem Room.sublist {es' : List Entry} (h : Room s es) (hsub : es'.Sublist es) : Room s es' :=
  fun x => (Nat.add_le_add_left hsub.countP_le _).trans_lt (h x)

theorem Room.fill {e : Entry} (h : Room s (e :: es)) (hobj : e.object = some o)
    (hinherit : inheritable e = true) : Room (fillSlot s t i o access attrs) es := by
  intro x
  rw [fillSlot_objects]
  by_cases hx : x = o
  · subst hx
    have hroom := h x
    rw [countP_cons_of_pos (by simp [hobj, hinherit])] at hroom
    rw [update_self, toNat_add_one (by omega)]
    omega
  · rw [update_of_ne hx]
    exact h.sublist (sublist_cons_self e es) x

/-- The copy loop of `ob_handle_table_inherit` before slot `i`: the slots of the child from
there on are free and what the parent has there is as it was. -/
structure Copying (counted : Prop) (s s' : ObSys) (k : ℕ → ℕ) (parent child n : ℕ)
    (pes : List Entry) (i : ℕ) : Prop where
  acct : Acct counted s' k
  shift : ∃ g, Shift s s' g 0 0
  child : ∃ es, (s'.tables child).entries = some es ∧ es.length = n ∧
    ∀ j, i ≤ j → ∀ e, es[j]? = some e → e.object = none
  parent : ∀ j, i ≤ j → ∀ e, (s'.tables parent).slots[j]? = some e → e.object ≠ none →
    pes[j]? = some e
  room : counted → Room s' (pes.drop i)

theorem Copying.next {s' : ObSys} {parent child n : ℕ} {pes : List Entry}
    (h : Copying counted s s' k parent child n pes i) (hi : i < n) :
    Copying counted s (inheritSlot s' parent child i) k parent child n pes (i + 1) := by
  obtain ⟨es, hes, hlen, hfree⟩ := h.child
  have hslot : ∀ e, (s'.tables parent).slots[i]? = some e → e.object ≠ none →
      pes.drop i = e :: pes.drop (i + 1) := by
    intro e he hobj
    obtain ⟨hlt, rfl⟩ := List.getElem?_eq_some_iff.mp (h.parent i le_rfl e he hobj)
    exact drop_eq_getElem_cons hlt
  obtain ⟨hacct, ⟨g', hshift'⟩, es', hes', hlen', hother⟩ := inheritSlot_acct parent h.acct hes
    (by omega) (hfree i le_rfl) fun hc e o he hobj hinherit => by
      have hroom := h.room hc o
      rw [hslot e he (by simp [hobj]), countP_cons_of_pos (by simp [hobj, hinherit])] at hroom
      omega
  obtain ⟨g, hshift⟩ := h.shift
  refine ⟨hacct, ⟨g + g', by simpa using hshift.trans hshift'⟩, ⟨es', hes', hlen'.trans hlen,
    fun j hj e he => hfree j (by omega) e (hother j (by omega) ▸ he)⟩, ?_, fun hc => ?_⟩
  · intro j hj e he hobj
    refine h.parent j (by omega) e ?_ hobj
    rcases inheritSlot_cases s' parent child i with hsame | ⟨e₀, o₀, -, -, -, heq⟩
    · rwa [hsame] at he
    · rw [heq, ObSys.emit_tables, fillSlot_tables hes] at he
      by_cases hx : parent = child
      · subst hx
        have hne : i ≠ j := by omega
        rw [update_self] at he
        simp only [HandleTable.slots, getD_some, getElem?_set_ne hne] at he
        rwa [slots_of_entries hes]
      · rwa [update_of_ne hx] at he
  · have hroom := h.room hc
    rcases inheritSlot_cases s' parent child i with hsame | ⟨e, o, he, hobj, hinherit, heq⟩
    · rw [hsame]
      exact hroom.sublist (drop_sublist_drop_left pes (Nat.le_succ i))
    · rw [heq]
      rw [hslot e he (by simp [hobj])] at hroom
      exact hroom.fill hobj hinherit

theorem obHandleTableInherit_acct (parent child : ℕ) (growOk : ℕ → Bool)
    (h : Acct counted s k) (hfree : ∀ e ∈ (s.tables child).slots, e.object = none)
    (hroom : counted → Room s (s.tables parent).slots) :
    Acct counted (obHandleTableInherit s parent child growOk) k ∧
      ∃ g, Shift s (obHandleTableInherit s parent child growOk) g 0 0 := by
  unfold obHandleTableInherit
  split
  · rename_i pes ces hpes hces
    dsimp only
    split
    · exact ⟨h, 0, Quiet.refl s⟩
    · rw [slots_of_entries hces] at hfree
      have hC := growToward_grown growOk (inheritBound pes) (inheritBound pes) (h.tables child) hces
      generalize growToward growOk (inheritBound pes) (inheritBound pes) (s.tables child) = C at *
      obtain ⟨hacct, hquiet⟩ := h.setTable (t := child) hC.ok hC.refs (by simp [hces])
      obtain ⟨es, hes⟩ := hC.entries
      have hfree' : ∀ (j : ℕ) (e : Entry), es[j]? = some e → e.object = none := by
        intro j e he
        by_contra hobj
        rw [← slots_of_entries hes, hC.slots hobj, slots_of_entries hces] at he
        exact hobj (hfree e (mem_of_getElem? he))
      rw [hes, getD_some]
      have hloop := Loop.foldl_range
        (fun i s' => Copying counted s s' k parent child es.length (s.tables parent).slots i)
        (f := fun s i => inheritSlot s parent child i) (n := min (inheritBound pes) es.length)
        (s := s.setTable child C)
        ⟨hacct, ⟨0, hquiet⟩, ⟨es, by simpa using hes, rfl,
          fun j _ e he => hfree' j e he⟩, fun j _ e he hobj => ?_,
          fun hc => hroom hc⟩ fun i hi s' hs' => hs'.next (by omega)
      · exact ⟨hloop.acct, hloop.shift⟩
      · by_cases hx : parent = child
        · rw [hx, ObSys.setTable_tables, update_self, slots_of_entries hes] at he
          exact absurd (hfree' j e he) hobj
        · rwa [ObSys.setTable_tables, update_of_ne hx] at he
  · exact ⟨h, 0, Quiet.refl s⟩

end ImpossibleOs.Ob
