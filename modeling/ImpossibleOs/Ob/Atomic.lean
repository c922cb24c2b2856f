import ImpossibleOs.Ob.Safety

/-!
`NtDuplicateObject` happens or does not happen.

The callbacks of this file leave the tables alone. A call that fails leaves the entries, the
counts of the tables and the counts of the objects as they were. A call that succeeds adds one
entry and, if it was asked to, takes the source away, and no other entry changes.
-/

namespace ImpossibleOs.Ob

open Function List Option Bool

open Function (update)

variable {s s' : ObSys}

/-! ### Nothing happened -/

/-- Only the memory of a quota warning may differ. -/
structure Unchanged (s s' : ObSys) : Prop where
  entries : ∀ t, (s'.tables t).entries = (s.tables t).entries
  count : ∀ t, (s'.tables t).count = (s.tables t).count
  handleLimit : ∀ t, (s'.tables t).handleLimit = (s.tables t).handleLimit
  objects : s'.objects = s.objects
  log : s'.log = s.log
  pending : s'.pending = s.pending

theorem Unchanged.refl (s : ObSys) : Unchanged s s :=
  ⟨fun _ => rfl, fun _ => rfl, fun _ => rfl, rfl, rfl, rfl⟩

theorem unchanged_quotaWarned (s : ObSys) (t : ℕ) (warned : Bool) :
    Unchanged s (s.setTable t { s.tables t with quotaWarned := warned }) := by
  have hfield : ∀ {W : Type} (field : HandleTable → W), (∀ T : HandleTable,
      field { T with quotaWarned := warned } = field T) → ∀ u,
        field ((s.setTable t { s.tables t with quotaWarned := warned }).tables u) =
          field (s.tables u) := by
    intro W field h u
    by_cases hu : u = t
    · rw [hu, ObSys.setTable_tables, update_self, h]
    · rw [ObSys.setTable_tables, update_of_ne hu]
  exact ⟨hfield _ fun _ => rfl, hfield _ fun _ => rfl, hfield _ fun _ => rfl, rfl, rfl, rfl⟩

variable {counted : Prop} {access attrs : UInt32} {k : ℕ → ℕ} {e : Entry}

theorem obpAllocateHandleInner_invalid {t o : ℕ} {cbs : List (UInt32 → UInt32)} {openOk : Bool}
    {growOk : ℕ → Bool} (hacct : Acct counted s k)
    (h : obpAllocateHandleInner s t o access attrs cbs openOk growOk = (s', invalidHandleValue)) :
    Unchanged s s' := by
  rcases obpAllocateHandleInner_cases hacct h with ⟨-, warned, rfl⟩ |
    ⟨-, granted, T, es, i, a, -, -, -, -, -, -, hvalid, -⟩
  · exact unchanged_quotaWarned s t warned
  · simp only [invalidHandleValue] at hvalid
    omega

theorem add_one_ne_one {x : UInt32} (h : x ≠ 0) : x + 1 ≠ 1 := by
  intro heq
  have hback := UInt32.add_sub_cancel x 1
  rw [heq] at hback
  exact h hback.symm

theorem Unchanged.unpin {o : ℕ} (ho : (s.objects o).refCount ≠ 0)
    (h : Unchanged (obReferenceObject s o) s') : Unchanged s (obDereferenceObject s' o) := by
  have hpinned : s'.objects o = { s.objects o with refCount := (s.objects o).refCount + 1 } := by
    rw [h.objects]
    exact update_self ..
  have hne : (s'.objects o).refCount ≠ 1 := by
    rw [hpinned]
    exact add_one_ne_one ho
  have heq : obDereferenceObject s' o = s'.setObject o
      { s'.objects o with refCount := (s'.objects o).refCount - 1 } := if_neg hne
  rw [heq]
  refine ⟨h.entries, h.count, h.handleLimit, funext fun x => ?_, h.log, h.pending⟩
  rw [ObSys.setObject_objects]
  by_cases hx : x = o
  · rw [hx, update_self, hpinned]
    simp
  · rw [update_of_ne hx, h.objects]
    exact update_of_ne hx ..

/-! ### What an allocation adds -/

structure Added (s s' : ObSys) (t i : ℕ) (e : Entry) : Prop where
  free : ∀ a, (s.tables t).slots[i]? = some a → a.object = none
  entries : ∀ u k a, a.object ≠ none → ((s'.tables u).slots[k]? = some a ↔
    (u = t ∧ k = i ∧ a = e) ∨ (s.tables u).slots[k]? = some a)
  count : ∀ u, (s'.tables u).count = (s.tables u).count + if u = t then 1 else 0
  handleLimit : ∀ u, (s'.tables u).handleLimit = (s.tables u).handleLimit

theorem added_fill {t i o : ℕ} {es : List Entry} {a : Entry}
    (hes : (s.tables t).entries = some es) (ha : es[i]? = some a) (hfree : a.object = none) :
    Added s (fillSlot s t i o access attrs) t i ⟨some o, access, attrs, s.grants.length⟩ := by
  have hi : i < es.length := (List.getElem?_eq_some_iff.mp ha).1
  have hslots := slots_of_entries hes
  refine ⟨fun b hb => ?_, fun u k b hb => ?_, fun u => ?_, fun u => ?_⟩
  · rw [hslots, ha] at hb
    cases hb
    exact hfree
  · rw [fillSlot_tables hes]
    by_cases hu : u = t
    · subst hu
      rw [update_self]
      show (es.set i _)[k]? = some b ↔ _
      rw [hslots, getElem?_set]
      by_cases hk : k = i
      · subst hk
        rw [if_pos rfl, if_pos hi, ha]
        constructor
        · intro h
          exact .inl ⟨rfl, rfl, (some.inj h).symm⟩
        · rintro (⟨-, -, rfl⟩ | h)
          · rfl
          · cases h
            exact absurd hfree hb
      · rw [if_neg (Ne.symm hk)]
        exact ⟨.inr, fun h => h.resolve_left fun h' => hk h'.2.1⟩
    · rw [update_of_ne hu]
      exact ⟨.inr, fun h => h.resolve_left fun h' => hu h'.1⟩
  · rw [fillSlot_tables hes]
    by_cases hu : u = t
    · rw [hu, update_self, if_pos rfl]
    · rw [update_of_ne hu, if_neg hu, Nat.add_zero]
  · rw [fillSlot_tables hes]
    by_cases hu : u = t
    · rw [hu, update_self]
    · rw [update_of_ne hu]

theorem Added.after_grow {t i : ℕ} {T : HandleTable} (hT : Grown (s.tables t) T)
    (h : Added (s.setTable t T) s' t i e) : Added s s' t i e := by
  have hgrown : ∀ (u k : ℕ) (a : Entry), a.object ≠ none →
      (((s.setTable t T).tables u).slots[k]? = some a ↔ (s.tables u).slots[k]? = some a) := by
    intro u k a hobj
    by_cases hu : u = t
    · rw [hu, ObSys.setTable_tables, update_self, hT.slots hobj]
    · rw [ObSys.setTable_tables, update_of_ne hu]
  have hfields : T.count = (s.tables t).count ∧ T.handleLimit = (s.tables t).handleLimit := by
    obtain ⟨es, n, -, rfl⟩ := hT.shape
    exact ⟨rfl, rfl⟩
  refine ⟨fun a ha => ?_, fun u k a hobj => (h.entries u k a hobj).trans
    (or_congr_right (hgrown u k a hobj)), fun u => ?_, fun u => ?_⟩
  · by_contra hobj
    exact hobj (h.free a ((hgrown t i a hobj).mpr ha))
  · rw [h.count]
    by_cases hu : u = t
    · rw [hu, ObSys.setTable_tables, update_self, hfields.1]
    · rw [ObSys.setTable_tables, update_of_ne hu]
  · rw [h.handleLimit]
    by_cases hu : u = t
    · rw [hu, ObSys.setTable_tables, update_self, hfields.2]
    · rw [ObSys.setTable_tables, update_of_ne hu]

theorem obpAllocateHandleInner_added {t o : ℕ} {cbs : List (UInt32 → UInt32)} {openOk : Bool}
    {growOk : ℕ → Bool} {handle : ℤ} (h : Acct counted s k)
    (hr : obpAllocateHandleInner s t o access attrs cbs openOk growOk = (s', handle))
    (hne : handle ≠ invalidHandleValue) :
    ¬(0 < (s.tables t).handleLimit ∧ (s.tables t).handleLimit ≤ (s.tables t).count) ∧
    ∃ (granted : UInt32) (i : ℕ), obInvokePreCallbacks cbs access = some granted ∧
      handle = i * 4 ∧ Added s s' t i ⟨some o, granted, attrs, s.grants.length⟩ ∧
      s'.objects = update s.objects o { s.objects o with
        refCount := (s.objects o).refCount + 1
        handleCount := (s.objects o).handleCount + 1 } ∧
      s'.log = s.log ∧ s'.pending = s.pending := by
  rcases obpAllocateHandleInner_cases h hr with ⟨hbad, -⟩ |
    ⟨hquota, granted, T, es, i, a, hcb, hT, hes, ha, hfree, -, rfl, rfl⟩
  · exact absurd hbad hne
  · have hes' : ((s.setTable t T).tables t).entries = some es := by simpa using hes
    exact ⟨hquota, granted, i, hcb, rfl, (added_fill hes' ha hfree).after_grow hT,
      fillSlot_objects .., rfl, rfl⟩

theorem Added.capGrant {s₁ : ObSys} {t i : ℕ} (ceiling : UInt32)
    (h : Added s s₁ t i e) (he : e.object ≠ none) :
    Added s (capGrant s₁ t ((i : ℤ) * 4) ceiling) t i
      { e with grantedAccess := e.grantedAccess &&& ceiling } := by
  have hnew : (s₁.tables t).slots[i]? = some e := (h.entries t i e he).mpr (.inl ⟨rfl, rfl, rfl⟩)
  have hslots := capGrant_slots ceiling hnew he
  obtain ⟨o, ho⟩ := Option.ne_none_iff_exists'.mp he
  refine ⟨h.free, fun u k a ha => ?_, fun u => ?_, fun u => ?_⟩
  · rw [hslots]
    by_cases hk : u = t ∧ k = i
    · rw [if_pos hk]
      obtain ⟨rfl, rfl⟩ := hk
      constructor
      · intro h
        exact .inl ⟨rfl, rfl, (some.inj h).symm⟩
      · rintro (⟨-, -, rfl⟩ | hold)
        · rfl
        · exact absurd (h.free a hold) ha
    · rw [if_neg hk, h.entries u k a ha]
      refine or_congr_left (iff_of_false ?_ ?_)
      · exact fun h' => hk ⟨h'.1, h'.2.1⟩
      · exact fun h' => hk ⟨h'.1, h'.2.1⟩
  · rw [← h.count u, Ob.capGrant, obpLookupHandle_eq_some.mpr ⟨slotOf_mul_four i, hnew, ho⟩]
    by_cases hu : u = t
    · rw [hu, ObSys.setTable_tables, update_self]
    · rw [ObSys.setTable_tables, update_of_ne hu]
  · rw [← h.handleLimit u, Ob.capGrant, obpLookupHandle_eq_some.mpr ⟨slotOf_mul_four i, hnew, ho⟩]
    by_cases hu : u = t
    · rw [hu, ObSys.setTable_tables, update_self]
    · rw [ObSys.setTable_tables, update_of_ne hu]

theorem Added.unpinned {o t i : ℕ} (h : Added (obReferenceObject s o) s' t i e) :
    Added s s' t i e :=
  ⟨h.free, h.entries, h.count, h.handleLimit⟩

theorem capGrant_frame (s : ObSys) (t : ℕ) (handle : ℤ) (ceiling : UInt32) :
    (capGrant s t handle ceiling).objects = s.objects ∧ (capGrant s t handle ceiling).log = s.log ∧
        (capGrant s t handle ceiling).pending = s.pending := by
  unfold Ob.capGrant
  split
  · exact ⟨rfl, rfl, rfl⟩
  · exact ⟨rfl, rfl, rfl⟩

/-! ### What a duplication adds and takes -/

/-- There is one new entry, `e` in slot `i` of the destination. If `close` the source is gone and
all counts of objects are as before; else the object has one reference and one handle more. -/
structure Duplicated (s s' : ObSys) (srcTable j dstTable i o : ℕ) (e : Entry) (close : Bool) :
    Prop where
  free : ∀ a, (s.tables dstTable).slots[i]? = some a → a.object = none
  entries : ∀ (t k : ℕ) (a : Entry), a.object ≠ none → ((s'.tables t).slots[k]? = some a ↔
    (t = dstTable ∧ k = i ∧ a = e) ∨
      ((s.tables t).slots[k]? = some a ∧ ¬(close = true ∧ t = srcTable ∧ k = j)))
  count : ∀ t, (s'.tables t).count + (if close = true ∧ t = srcTable then 1 else 0) =
    (s.tables t).count + if t = dstTable then 1 else 0
  moved : close = true → s'.objects = s.objects
  copied : close = false → s'.objects = update s.objects o { s.objects o with
    refCount := (s.objects o).refCount + 1, handleCount := (s.objects o).handleCount + 1 }
  closes : ∀ x, s'.closes x = s.closes x
  frees : ∀ x, s'.frees x = s.frees x
  pending : s'.pending = s.pending

theorem dereference_of_ne {o : ℕ} (h : (s.objects o).refCount ≠ 1) : obDereferenceObject s o =
      s.setObject o { s.objects o with refCount := (s.objects o).refCount - 1 } :=
  if_neg h

theorem clearSlot_eq (t i : ℕ) {o : ℕ} (hmore : 1 < (s.objects o).handleCount.toNat)
    (hne : (s.objects o).refCount ≠ 1) :
    clearSlot s t i o = (s.setTable t (clearedTable (s.tables t) i)).setObject o { s.objects o with
      refCount := (s.objects o).refCount - 1, handleCount := (s.objects o).handleCount - 1 } := by
  rw [clearSlot, dropEntry_eq (Nat.zero_lt_of_lt hmore), if_neg fun h => hmore.ne' h.1,
    dereference_of_ne]
  · unfold ObSys.setObject
    simp only [ObSys.setTable_objects, update_self, update_idem]
  · simpa using hne

theorem clearedTable_slots {T : HandleTable} {i k : ℕ} {a : Entry} (ha : a.object ≠ none) :
    (clearedTable T i).slots[k]? = some a ↔ T.slots[k]? = some a ∧ k ≠ i := by
  show (T.slots.set i freeEntry)[k]? = some a ↔ _
  by_cases hk : k = i
  · subst hk
    rw [getElem?_set_self']
    refine iff_of_false (fun h => ?_) fun h => h.2 rfl
    obtain ⟨b, -, rfl⟩ := Option.map_eq_some_iff.mp h
    exact ha rfl
  · rw [getElem?_set_ne (Ne.symm hk), and_iff_left hk]

theorem emit_derived_counts (s : ObSys) (a b x : ℕ) :
    (s.emit (.derived a b)).closes x = s.closes x ∧
      (s.emit (.derived a b)).frees x = s.frees x := by
  constructor
  · simp [ObSys.closes, ObSys.emit]
  · simp [ObSys.frees, ObSys.emit]

theorem Duplicated.finish {s₂ : ObSys} {srcTable j dstTable i o a b : ℕ}
    {src e : Entry} (close : Bool) (hadded : Added s s₂ dstTable i e) (hacct : Acct counted s₂ k)
    (hobjects : s₂.objects = update s.objects o { s.objects o with
      refCount := (s.objects o).refCount + 1 + 1, handleCount := (s.objects o).handleCount + 1 })
    (hlog : s₂.log = s.log) (hpending : s₂.pending = s.pending)
    (hsrc : (s.tables srcTable).slots[j]? = some src) (hobj : src.object = some o)
    (he : e.object = some o) (hhandles : 0 < (s.objects o).handleCount.toNat)
    (hfit : (s.objects o).handleCount.toNat + 1 < 2 ^ 32) (hrefs : (s.objects o).refCount ≠ 0)
    (hroom : (s.objects o).refCount + 1 ≠ 0) :
    Duplicated s (obDereferenceObject
      ((if close = true then clearSlot s₂ srcTable j o else s₂).emit (.derived a b)) o)
      srcTable j dstTable i o e close := by
  have hself : s₂.objects o = { s.objects o with
      refCount := (s.objects o).refCount + 1 + 1
      handleCount := (s.objects o).handleCount + 1 } := by
    rw [hobjects, update_self]
  have hcounts : ∀ x, (s₂.emit (.derived a b)).closes x = s.closes x ∧
      (s₂.emit (.derived a b)).frees x = s.frees x := by
    intro x
    obtain ⟨hcloses, hfrees⟩ := emit_derived_counts s₂ a b x
    rw [hcloses, hfrees, ObSys.closes, ObSys.frees, hlog]
    exact ⟨rfl, rfl⟩
  have hne := add_one_ne_one hroom
  have hback := UInt32.add_sub_cancel ((s.objects o).refCount + 1) 1
  cases close with
  | false =>
    rw [if_neg Bool.false_ne_true, dereference_of_ne (by rw [ObSys.emit_objects, hself]; exact hne)]
    refine ⟨hadded.free, fun t k c hc => ?_, fun t => ?_, by rintro ⟨⟩, fun _ => ?_,
      fun x => (hcounts x).1, fun x => (hcounts x).2, hpending⟩
    · rw [ObSys.setObject_tables, ObSys.emit_tables, hadded.entries t k c hc]
      simp
    · rw [ObSys.setObject_tables, ObSys.emit_tables, hadded.count t]
      simp
    · rw [ObSys.setObject_objects, ObSys.emit_objects, hself, hobjects, update_idem, hback]
  | true =>
    have hkept : (s₂.tables srcTable).slots[j]? = some src :=
      (hadded.entries srcTable j src (by simp [hobj])).mpr (.inr hsrc)
    have hmore : 1 < (s₂.objects o).handleCount.toNat := by
      rw [hself, toNat_add_one hfit]
      omega
    obtain ⟨es, hes, -⟩ := entries_of_slot hkept
    have hcount : 0 < (s₂.tables srcTable).count := by
      rw [(hacct.tables srcTable).count]
      exact countP_pos_iff.mpr ⟨src, mem_of_getElem? hkept, by simp [hobj]⟩
    rw [if_pos rfl, clearSlot_eq srcTable j hmore (hself ▸ hne), dereference_of_ne (by
      rw [ObSys.emit_objects, ObSys.setObject_objects, update_self, hself, hback]
      exact add_one_ne_one hrefs)]
    refine ⟨hadded.free, fun t k c hc => ?_, fun t => ?_, fun _ => ?_, by rintro ⟨⟩,
      fun x => (hcounts x).1, fun x => (hcounts x).2, hpending⟩
    · rw [ObSys.setObject_tables, ObSys.emit_tables, ObSys.setObject_tables, ObSys.setTable_tables]
      by_cases ht : t = srcTable
      · subst ht
        rw [update_self, clearedTable_slots hc, hadded.entries t k c hc, or_and_right]
        refine or_congr (and_iff_left_of_imp ?_) (by simp)
        -- the new entry is not where the source is
        rintro ⟨rfl, rfl, rfl⟩ rfl
        rw [hadded.free src hsrc] at hobj
        cases hobj
      · rw [update_of_ne ht, hadded.entries t k c hc]
        simp [ht]
    · rw [ObSys.setObject_tables, ObSys.emit_tables, ObSys.setObject_tables,
        ObSys.setTable_tables, ← hadded.count t]
      by_cases ht : t = srcTable
      · rw [ht, update_self, if_pos ⟨rfl, rfl⟩]
        exact Nat.sub_add_cancel hcount
      · rw [update_of_ne ht, if_neg fun h => ht h.2]
        rfl
    · rw [ObSys.setObject_objects, ObSys.emit_objects, ObSys.setObject_objects,
        ObSys.setTable_objects, update_self, hself, hobjects, update_idem,
        update_idem, hback]
      simp

theorem Duplicated.opened {srcTable j dstTable i o : ℕ} {close : Bool}
    (h : Duplicated s s' srcTable j dstTable i o e close) (he : e.object = some o) :
    obpLookupHandle (s'.tables dstTable) ((i : ℤ) * 4) = some (i, o, e) :=
  obpLookupHandle_eq_some.mpr ⟨slotOf_mul_four i,
    (h.entries dstTable i e (by simp [he])).mpr (.inl ⟨rfl, rfl, rfl⟩), he⟩

theorem Duplicated.closed {srcTable j dstTable i o x : ℕ} {e src : Entry} {srcHandle : ℤ}
    (h : Duplicated s s' srcTable j dstTable i o e true)
    (hlook : obpLookupHandle (s.tables srcTable) srcHandle = some (j, x, src)) :
    obpLookupHandle (s'.tables srcTable) srcHandle = none := by
  obtain ⟨hslot, hsrc, hobj⟩ := obpLookupHandle_eq_some.mp hlook
  rw [eq_none_iff_forall_ne_some]
  rintro ⟨k, y, a⟩ hlook'
  obtain ⟨hslot', ha, hobj'⟩ := obpLookupHandle_eq_some.mp hlook'
  obtain rfl : j = k := some.inj (hslot.symm.trans hslot')
  rcases (h.entries srcTable j a (by simp [hobj'])).mp ha with ⟨rfl, rfl, -⟩ | ⟨-, hstays⟩
  · rw [h.free src hsrc] at hobj
    cases hobj
  · exact hstays ⟨rfl, rfl, rfl⟩

/-! ### The call -/

/-- What goes to `*dst_handle` when the call succeeds. -/
def ntDuplicateObjectHandle (s : ObSys) (srcTable : ℕ) (srcHandle : ℤ) (dstTable : ℕ)
    (desiredAccess attrs options : UInt32) (cbs : List (UInt32 → UInt32)) (openOk : Bool)
    (growOk : ℕ → Bool) : ℤ :=
  match obpLookupHandle (s.tables srcTable) srcHandle with
  | none => invalidHandleValue
  | some (_, o, e) =>
    let ceiling := requestCeiling e.grantedAccess desiredAccess options
    match obInvokePreCallbacks cbs ceiling with
    | none => invalidHandleValue
    | some access =>
      (obpAllocateHandleInner (obReferenceObject s o) dstTable o (access &&& ceiling) attrs []
        openOk growOk).2

theorem dupFinish_atomic {f : DupFrame} {j : ℕ} {src : Entry} (cbs : List (UInt32 → UInt32))
    (openOk : Bool) (growOk : ℕ → Bool) (h : Acct True s 0)
    (hlook : obpLookupHandle (s.tables f.srcTable) f.srcHandle = some (j, f.srcObj, src))
    (hroom : (s.objects f.srcObj).refCount.toNat + 1 < 2 ^ 32) :
    ((dupFinish (obReferenceObject s f.srcObj) f cbs openOk growOk).2 = false →
      Unchanged s (dupFinish (obReferenceObject s f.srcObj) f cbs openOk growOk).1) ∧
    ((dupFinish (obReferenceObject s f.srcObj) f cbs openOk growOk).2 = true →
      ∃ (i : ℕ) (e : Entry) (access : UInt32), e.object = some f.srcObj ∧ e.attributes = f.attrs ∧
        obInvokePreCallbacks cbs f.requestCeiling = some access ∧
        (obpAllocateHandleInner (obReferenceObject s f.srcObj) f.dstTable f.srcObj
          (access &&& f.requestCeiling) f.attrs [] openOk growOk).2 = (i : ℤ) * 4 ∧
        Duplicated s (dupFinish (obReferenceObject s f.srcObj) f cbs openOk growOk).1 f.srcTable j
          f.dstTable i f.srcObj e (f.options &&& duplicateCloseSource != 0)) := by
  obtain ⟨hslot, hsrc, hobj⟩ := obpLookupHandle_eq_some.mp hlook
  obtain ⟨hrefs, hpos⟩ := h.entry_alive hsrc hobj
  have haccount := h.object trivial f.srcObj
  have hhandles := haccount.handles
  have hreferences := haccount.references
  have hcount : (s.objects f.srcObj).refCount ≠ 0 := fun hzero => by
    simp [hzero] at hpos
  have hnext : (s.objects f.srcObj).refCount + 1 ≠ 0 := fun hzero => by
    have hone := toNat_add_one hroom
    rw [hzero] at hone
    exact absurd hone (Nat.succ_ne_zero _).symm
  -- the pin and the new handle may wrap the count for a moment
  have huncounted : Acct False s 0 := h.uncounted
  have hacct : Acct False (obReferenceObject s f.srcObj) (oneRef f.srcObj) := by
    simpa using (huncounted.reference (o := f.srcObj) False.elim False.elim).1
  have hfail : Unchanged s (obDereferenceObject (obReferenceObject s f.srcObj) f.srcObj) :=
    (Unchanged.refl _).unpin hcount
  unfold dupFinish
  split
  · exact ⟨fun _ => hfail, nofun⟩
  · rename_i access hcb
    by_cases hstands : sourceStands (obReferenceObject s f.srcObj) f = false
    · rw [if_pos hstands]
      exact ⟨fun _ => hfail, nofun⟩
    · rw [if_neg hstands]
      have hstands' : sourceStands (obReferenceObject s f.srcObj) f = true := by simpa using hstands
      cases halloc : obpAllocateHandleInner (obReferenceObject s f.srcObj) f.dstTable f.srcObj
        (access &&& f.requestCeiling) f.attrs [] openOk growOk with
      | mk s₁ handle =>
        dsimp only
        by_cases hne : handle = invalidHandleValue
        · rw [if_pos hne]
          subst hne
          exact ⟨fun _ => (obpAllocateHandleInner_invalid hacct halloc).unpin hcount, nofun⟩
        · rw [if_neg hne]
          obtain ⟨j', src', hplaced⟩ := dupPlaced hacct False.elim hstands' halloc hne
          obtain rfl : j = j' := some.inj (hslot.symm.trans hplaced.slot)
          obtain ⟨-, granted, i, hgranted, rfl, hadded, hobjects, hlog, hpending⟩ :=
            obpAllocateHandleInner_added hacct halloc hne
          obtain rfl := some.inj hgranted
          obtain ⟨hobjects₂, hlog₂, hpending₂⟩ :=
            capGrant_frame s₁ f.dstTable ((i : ℤ) * 4) f.requestCeiling
          let e : Entry := ⟨some f.srcObj, access &&& f.requestCeiling &&& f.requestCeiling,
            f.attrs, (obReferenceObject s f.srcObj).grants.length⟩
          have hadded₂ : Added s (capGrant s₁ f.dstTable ((i : ℤ) * 4) f.requestCeiling)
              f.dstTable i e := (hadded.capGrant f.requestCeiling (by simp)).unpinned
          have hobjects' : (capGrant s₁ f.dstTable ((i : ℤ) * 4) f.requestCeiling).objects =
              update s.objects f.srcObj { s.objects f.srcObj with
                refCount := (s.objects f.srcObj).refCount + 1 + 1
                handleCount := (s.objects f.srcObj).handleCount + 1 } := by
            rw [hobjects₂, hobjects]
            unfold obReferenceObject
            simp only [ObSys.setObject_objects, update_self, update_idem]
          have hfinish := fun close => Duplicated.finish (a := f.srcHid)
            (b := (obReferenceObject s f.srcObj).grants.length) close hadded₂ hplaced.acct
              hobjects' (hlog₂.trans hlog) (hpending₂.trans hpending) hsrc hobj rfl
              (hhandles ▸ hrefs) (by omega) hcount hnext
          by_cases hclose : f.options &&& duplicateCloseSource ≠ 0
          · simp only [if_pos hclose, hplaced.free hclose, true_eq_false, if_false]
            refine ⟨nofun, fun _ => ⟨i, e, access, rfl, rfl, hcb, by rw [halloc], ?_⟩⟩
            rw [bne_iff_ne.mpr hclose]
            exact hfinish true
          · simp only [if_neg hclose, true_eq_false, if_false]
            refine ⟨nofun, fun _ => ⟨i, e, access, rfl, rfl, hcb, by rw [halloc], ?_⟩⟩
            rw [bne_eq_false_iff_eq.mpr (not_not.mp hclose)]
            exact hfinish false

/-- In every state that legal calls reach without wrapping a reference count, a duplication that
fails leaves everything as it was, and one that succeeds leaves the new handle open and, if it was
asked to, the source closed, with no other entry touched, as long as its pin does not wrap the
count of the source. -/
theorem duplicate_atomic {cs : List ObCall} (hcs : ObSys.boot.LegalRun cs)
    (hwrap : ObSys.boot.NoWrapRun cs) (srcTable : ℕ) (srcHandle : ℤ) (dstTable : ℕ)
    (desiredAccess attrs options : UInt32) (cbs : List (UInt32 → UInt32)) (openOk : Bool)
    (growOk : ℕ → Bool)
    (hroom : (ObCall.duplicateBegin srcTable srcHandle dstTable desiredAccess attrs options).NoWrap
      (ObSys.boot.run cs)) :
    let s := ObSys.boot.run cs
    let r := ntDuplicateObject s srcTable srcHandle dstTable desiredAccess attrs options cbs openOk
      growOk
    let handle := ntDuplicateObjectHandle s srcTable srcHandle dstTable desiredAccess attrs options
      cbs openOk growOk
    let close := options &&& duplicateCloseSource != 0
    (r.2 = false → Unchanged s r.1) ∧
    (r.2 = true → ∃ (i j o : ℕ) (e src : Entry), e.object = some o ∧ e.attributes = attrs ∧
      obpLookupHandle (s.tables srcTable) srcHandle = some (j, o, src) ∧
      obpLookupHandle (r.1.tables dstTable) handle = some (i, o, e) ∧
      (close = true → obpLookupHandle (r.1.tables srcTable) srcHandle = none) ∧
      Duplicated s r.1 srcTable j dstTable i o e close) := by
  intro s r handle close
  have hacct : Acct True s 0 := run_acct boot_acct hcs fun _ => hwrap
  have hfailed : ∀ {Q : Prop}, r = (s, false) → (r.2 = false → Unchanged s r.1) ∧
      (r.2 = true → Q) := by
    intro Q hr
    rw [hr]
    exact ⟨fun _ => Unchanged.refl s, nofun⟩
  cases hlook : obpLookupHandle (s.tables srcTable) srcHandle with
  | none =>
    apply hfailed
    show ntDuplicateObject .. = _
    rw [ntDuplicateObject, ntDuplicateObjectBegin, hlook]
  | some found =>
    obtain ⟨j, o, src⟩ := found
    by_cases hprot : options &&& duplicateCloseSource ≠ 0 ∧ src.attributes &&& objProtectClose ≠ 0
    · apply hfailed
      show ntDuplicateObject .. = _
      rw [ntDuplicateObject, ntDuplicateObjectBegin, hlook]
      dsimp only
      rw [if_pos hprot]
    · -- the frame is pushed and taken up at once
      let f : DupFrame := ⟨srcTable, srcHandle, dstTable, o, src.hid,
        requestCeiling src.grantedAccess desiredAccess options, attrs, options⟩
      have hr : r = dupFinish (obReferenceObject s o) f cbs openOk growOk := by
        show ntDuplicateObject .. = _
        rw [ntDuplicateObject, ntDuplicateObjectBegin, hlook]
        dsimp only
        rw [if_neg hprot]
        rfl
      obtain ⟨hfalse, htrue⟩ := dupFinish_atomic (f := f) cbs openOk growOk hacct hlook
        (hroom j o src hlook)
      rw [hr]
      refine ⟨hfalse, fun h => ?_⟩
      obtain ⟨i, e, access, he, hattrs, hcb, halloc, hdup⟩ := htrue h
      have hhandle : handle = (i : ℤ) * 4 := by
        show ntDuplicateObjectHandle .. = _
        rw [ntDuplicateObjectHandle, hlook]
        dsimp only
        rw [show obInvokePreCallbacks cbs
          (requestCeiling src.grantedAccess desiredAccess options) =
          some access from hcb]
        exact halloc
      refine ⟨i, j, o, e, src, he, hattrs, rfl, ?_, fun hclose => ?_, hdup⟩
      · rw [hhandle]
        exact hdup.opened he
      · have hclose' : (f.options &&& duplicateCloseSource != 0) = true := hclose
        rw [hclose'] at hdup
        exact hdup.closed hlook

def openHandleRun : List ObCall :=
  [.tableInit 64, .tableInit 64, .allocObject false true,
    .allocateHandle 0 0 3 0 [] true fun _ => true]

theorem duplicate_atomic_openHandleRun :
    let s := ObSys.boot.run openHandleRun
    let r := ntDuplicateObject s 0 4 1 1 0 duplicateCloseSource [] true fun _ => true
    (∃ i o e, obpLookupHandle (r.1.tables 1) 4 = some (i, o, e)) ∧
      obpLookupHandle (r.1.tables 0) 4 = none := by
  have hquota : 64 ≤ handleTableAbsoluteMax := by decide
  have hcs : ObSys.boot.LegalRun openHandleRun := ⟨hquota, hquota, trivial, rfl, trivial⟩
  have hwrap : ObSys.boot.NoWrapRun openHandleRun := by
    refine ⟨trivial, trivial, trivial, ?_, trivial⟩
    show 1 + 1 < 2 ^ 32
    decide
  have hroom : (ObCall.duplicateBegin 0 4 1 1 0 duplicateCloseSource).NoWrap
      (ObSys.boot.run openHandleRun) := by
    rintro i o e h
    cases h
    show 2 + 1 < 2 ^ 32
    decide
  have hhandle : ntDuplicateObjectHandle (ObSys.boot.run openHandleRun) 0 4 1 1 0
      duplicateCloseSource [] true (fun _ => true) = 4 := by decide
  obtain ⟨-, hdone⟩ :=
    duplicate_atomic hcs hwrap 0 4 1 1 0 duplicateCloseSource [] true (fun _ => true) hroom
  obtain ⟨i, j, o, e, src, -, -, -, hopen, hclosed, -⟩ := hdone (by decide)
  rw [hhandle] at hopen
  exact ⟨⟨i, o, e, hopen⟩, hclosed (by decide)⟩

/-- An open handle to an object with `n` more references. -/
def sharedHandleRun (n : ℕ) : List ObCall :=
  openHandleRun ++ (List.replicate n (.reference 0) ++ [])

theorem sharedHandleRun_spec (n : ℕ) : ObSys.boot.LegalRun (sharedHandleRun n) ∧
    ObSys.boot.run (sharedHandleRun n) = (ObSys.boot.run openHandleRun).referenced 0 n := by
  have hquota : 64 ≤ handleTableAbsoluteMax := by decide
  obtain ⟨hlegal, hrun⟩ := run_references (s := ObSys.boot.run openHandleRun) (o := 0) n [] rfl
  exact ⟨⟨hquota, hquota, trivial, rfl, hlegal.mpr trivial⟩, hrun⟩

/-- With 2 ^ 32 references the count reads 0: a duplication that a callback denies frees the object
as it drops its pin, and the source handle stays open on it. -/
theorem duplicate_atomic_wrapped :
    let s := ObSys.boot.run (sharedHandleRun (2 ^ 32 - 2))
    let r := ntDuplicateObject s 0 4 1 1 0 0 [fun _ => 0] true fun _ => true
    ObSys.boot.LegalRun (sharedHandleRun (2 ^ 32 - 2)) ∧ r.2 = false ∧
      (s.objects 0).alive = true ∧ (r.1.objects 0).alive = false ∧
      (obpLookupHandle (r.1.tables 0) 4).isSome = true ∧ ¬Unchanged s r.1 := by
  obtain ⟨hlegal, hrun⟩ := sharedHandleRun_spec (2 ^ 32 - 2)
  rw [hrun]
  intro s r
  have hbefore : (s.objects 0).alive = true := by decide
  have hafter : (r.1.objects 0).alive = false := by decide
  refine ⟨hlegal, by decide, hbefore, hafter, by decide, fun h => ?_⟩
  rw [h.objects, hbefore] at hafter
  cases hafter

end ImpossibleOs.Ob
