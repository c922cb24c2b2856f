import ImpossibleOs.Ob.Accounting

/-!
Filling and clearing a slot, and the operations on one table built from these two:
allocating, freeing, growing, destroying and inheriting handles.
-/

namespace ImpossibleOs.Ob

open Function Option List

variable {T : HandleTable}

theorem slots_of_entries {es : List Entry} (h : T.entries = some es) : T.slots = es := by
  rw [HandleTable.slots, h]
  rfl

theorem tableOk_set {es : List Entry} {i count : ℕ} {a e : Entry} {q : Bool}
    (h : TableOk T) (hes : T.entries = some es) (ha : es[i]? = some a) (hi : 0 < i)
    (hcount : count + (if a.object.isSome then 1 else 0) =
      T.count + if e.object.isSome then 1 else 0) :
    TableOk ⟨some (es.set i e), count, T.handleLimit, q⟩ := by
  refine ⟨?_, ?_, h.limit, ?_⟩
  · have hset := countP_set_of_some (p := fun e => e.object.isSome) (e := e) ha
    have hold := h.count
    simp only [HandleTable.occupied, slots_of_entries hes] at hold
    simp only [HandleTable.occupied, HandleTable.slots, getD_some]
    omega
  · intro x hx
    have hne : i ≠ 0 := by omega
    simp only [HandleTable.slots, getD_some, getElem?_set_ne hne] at hx
    exact h.slot0 x (by rwa [slots_of_entries hes])
  · intro es' hes'
    cases hes'
    simpa using h.cap es hes

theorem refs_set {es : List Entry} {i : ℕ} (count o : ℕ) {a : Entry} (e : Entry)
    (q : Bool) (hes : T.entries = some es) (ha : es[i]? = some a) :
    HandleTable.refs ⟨some (es.set i e), count, T.handleLimit, q⟩ o +
        (if a.object = some o then 1 else 0) =
      T.refs o + if e.object = some o then 1 else 0 := by
  have hset := countP_set_of_some (p := fun e => e.object == some o) (e := e) ha
  simpa [HandleTable.refs, HandleTable.slots, hes] using hset

theorem ite_some_eq_oneRef (o x : ℕ) :
    (if (some o : Option ℕ) = some x then 1 else 0) = oneRef o x := by
  by_cases h : x = o
  · simp [h]
  · simp [oneRef_of_ne h, Ne.symm h]

theorem fillSlot_tables {s : ObSys} {t i o : ℕ} {es : List Entry} {access attrs : UInt32}
    (hes : (s.tables t).entries = some es) :
    (fillSlot s t i o access attrs).tables = update s.tables t
      { s.tables t with
        entries := some (es.set i ⟨some o, access, attrs, s.grants.length⟩)
        count := (s.tables t).count + 1 } := by
  simp [fillSlot, obReferenceObject, hes]

theorem fillSlot_objects (s : ObSys) (t i o : ℕ) (access attrs : UInt32) :
    (fillSlot s t i o access attrs).objects = update s.objects o { s.objects o with
      refCount := (s.objects o).refCount + 1, handleCount := (s.objects o).handleCount + 1 } := by
  unfold fillSlot obReferenceObject
  simp only [ObSys.setObject_objects, ObSys.setTable_objects, update_self, update_idem]

/-- The references `fillSlot` takes must fit the count. -/
theorem fillSlot_acct {counted : Prop} {s : ObSys} {k : ℕ → ℕ} {t i o : ℕ} {es : List Entry}
    {a : Entry} (access attrs : UInt32) (h : Acct counted s k)
    (hes : (s.tables t).entries = some es) (ha : es[i]? = some a) (hfree : a.object = none)
    (hi : 0 < i) (ho : counted → 0 < (s.objects o).refCount.toNat)
    (hroom : counted → (s.objects o).refCount.toNat + 1 < 2 ^ 32) :
    Acct counted (fillSlot s t i o access attrs) k ∧
      Shift s (fillSlot s t i o access attrs) (oneRef o) 0 0 := by
  have ht := h.lt_nTables hes
  let e : Entry := ⟨some o, access, attrs, s.grants.length⟩
  let T : HandleTable :=
    ⟨some (es.set i e), (s.tables t).count + 1, (s.tables t).handleLimit, (s.tables t).quotaWarned⟩
  have hT : TableOk T := tableOk_set (h.tables t) hes ha hi (by simp [hfree, e])
  have htables : (fillSlot s t i o access attrs).tables = update s.tables t T := fillSlot_tables hes
  have hrefs : ∀ x, (fillSlot s t i o access attrs).refs x = s.refs x + oneRef o x := by
    intro x
    have htotal := refs_setTable ht T x
    have hset := refs_set ((s.tables t).count + 1) x e (s.tables t).quotaWarned hes ha
    have hsame : (fillSlot s t i o access attrs).refs x = (s.setTable t T).refs x := by
      unfold ObSys.refs
      rw [htables]
      rfl
    rw [hsame]
    simp only [hfree, e, ite_some_eq_oneRef, reduceCtorEq, if_false] at hset
    simp only [T, e] at htotal ⊢
    omega
  have hobjects := fillSlot_objects s t i o access attrs
  refine ⟨⟨fun x => ?_, fun x hx => ?_, fun hc x => ?_⟩, ⟨hrefs, fun x => rfl, fun x => ?_⟩⟩
  · rw [htables]
    by_cases hxt : x = t
    · subst hxt
      simpa using hT
    · simpa [hxt] using h.tables x
  · have hxt : x ≠ t := by
      have : (fillSlot s t i o access attrs).nTables = s.nTables := rfl
      omega
    rw [htables, update_of_ne hxt]
    exact h.unused x hx
  · by_cases hx : x = o
    · subst hx
      have hold := h.object hc x
      have hhandles := hold.handles
      have hrefsOld := hold.references
      have hroom' := hroom hc
      have hpins : (fillSlot s t i x access attrs).pins x = s.pins x := rfl
      have hfrees : (fillSlot s t i x access attrs).frees x = s.frees x := rfl
      refine ⟨?_, ?_, ?_, fun _ => hold.created (ho hc), ?_⟩
      all_goals simp only [hobjects, update_self, hrefs, oneRef_self, hpins, hfrees,
        toNat_add_one hroom']
      · rw [toNat_add_one (by omega)]
        omega
      · omega
      · exact iff_of_true (hold.alive.mpr (ho hc)) (Nat.succ_pos _)
      · rw [hold.freed, if_neg, if_neg]
        · exact fun hbad => absurd hbad.2 (Nat.succ_ne_zero _)
        · exact fun hbad => absurd hbad.2 (ho hc).ne'
    · exact (h.object hc x).congr (by rw [hobjects, update_of_ne hx])
        (by rw [hrefs, oneRef_of_ne hx]; rfl) rfl rfl rfl
  · rw [hobjects]
    by_cases hx : x = o
    · rw [hx, update_self]
    · rw [update_of_ne hx]

/-! ### Clearing -/

/-- The table `dropEntry` leaves. -/
def clearedTable (T : HandleTable) (i : ℕ) : HandleTable :=
  ⟨some (T.slots.set i freeEntry), T.count - 1, T.handleLimit,
    if T.count - 1 < T.handleLimit then false else T.quotaWarned⟩

theorem TableOk.slot_pos {i o : ℕ} {a : Entry} (h : TableOk T)
    (ha : T.slots[i]? = some a) (hobj : a.object = some o) : 0 < i := by
  by_contra hzero
  obtain rfl : i = 0 := by omega
  rw [h.slot0 a ha] at hobj
  cases hobj

theorem clearedTable_ok {i o : ℕ} {es : List Entry} {a : Entry} (h : TableOk T)
    (hes : T.entries = some es) (ha : es[i]? = some a) (hobj : a.object = some o) :
    TableOk (clearedTable T i) := by
  have hslots := slots_of_entries hes
  have hocc : 0 < T.count := by
    rw [h.count, HandleTable.occupied, hslots]
    exact List.countP_pos_iff.mpr ⟨a, mem_of_getElem? ha, by simp [hobj]⟩
  rw [clearedTable, hslots]
  refine tableOk_set h hes ha (h.slot_pos (by rwa [hslots]) hobj) ?_
  simp only [hobj, freeEntry, isSome_some, isSome_none, if_true,
    Bool.false_eq_true, if_false]
  omega

section DropEntry

variable {counted : Prop} {s : ObSys} {k : ℕ → ℕ} {t i o : ℕ} {es : List Entry} {a : Entry}

theorem dropEntry_tables :
    (dropEntry s t i o).tables = update s.tables t (clearedTable (s.tables t) i) := by
  unfold dropEntry
  dsimp only
  generalize (if 0 < (s.objects o).handleCount then _ else _ : ObjectHeader) = hdr
  split <;> rfl

theorem dropEntry_frame : (dropEntry s t i o).nTables = s.nTables ∧
    (dropEntry s t i o).nObjects = s.nObjects ∧ (dropEntry s t i o).pending = s.pending ∧
    ∀ x, (dropEntry s t i o).frees x = s.frees x := by
  unfold dropEntry
  dsimp only
  generalize (if 0 < (s.objects o).handleCount then _ else _ : ObjectHeader) = hdr
  split
  · exact ⟨rfl, rfl, rfl, fun x => by simp [ObSys.frees, ObSys.emit]⟩
  · exact ⟨rfl, rfl, rfl, fun x => rfl⟩

theorem dropEntry_eq (hpos : 0 < (s.objects o).handleCount.toNat) : dropEntry s t i o =
      if (s.objects o).handleCount.toNat = 1 ∧ (s.objects o).hasOnClose = true then
        ((s.setTable t (clearedTable (s.tables t) i)).setObject o
          { s.objects o with handleCount := (s.objects o).handleCount - 1 }).emit (.onClose o)
      else
        (s.setTable t (clearedTable (s.tables t) i)).setObject o
          { s.objects o with handleCount := (s.objects o).handleCount - 1 } := by
  have hone : (s.objects o).handleCount - 1 = 0 ↔ (s.objects o).handleCount.toNat = 1 := by
    rw [← UInt32.toNat_inj, toNat_sub_one hpos, UInt32.toNat_zero]
    omega
  have hpos' : 0 < (s.objects o).handleCount := UInt32.lt_iff_toNat_lt.mpr hpos
  simp only [dropEntry, if_pos hpos', hone]
  rfl

theorem dropEntry_objects (hpos : 0 < (s.objects o).handleCount.toNat) :
    (dropEntry s t i o).objects = update s.objects o
      { s.objects o with handleCount := (s.objects o).handleCount - 1 } := by
  rw [dropEntry_eq hpos]
  split <;> rfl

section

variable (h : Acct counted s k)
include h

theorem handleCount_pos (hc : counted) (hes : (s.tables t).entries = some es)
    (ha : es[i]? = some a) (hobj : a.object = some o) : 0 < (s.objects o).handleCount.toNat := by
  have hslots := slots_of_entries hes
  rw [(h.object hc o).handles]
  exact (h.entry_alive (by rwa [hslots]) hobj).1

theorem dropEntry_refs (hes : (s.tables t).entries = some es)
    (ha : es[i]? = some a) (hobj : a.object = some o) (x : ℕ) :
    (dropEntry s t i o).refs x + oneRef o x = s.refs x := by
  have htotal := refs_setTable (h.lt_nTables hes) (clearedTable (s.tables t) i) x
  have hset := refs_set ((s.tables t).count - 1) x freeEntry
    (if (s.tables t).count - 1 < (s.tables t).handleLimit then false
      else (s.tables t).quotaWarned) hes ha
  have hsame : (dropEntry s t i o).refs x =
      (s.setTable t (clearedTable (s.tables t) i)).refs x := by
    unfold ObSys.refs
    rw [dropEntry_tables, dropEntry_frame.1]
    rfl
  rw [hsame]
  simp only [hobj, freeEntry, ite_some_eq_oneRef, reduceCtorEq, if_false] at hset
  simp only [clearedTable, slots_of_entries hes, freeEntry] at htotal ⊢
  omega

theorem dropEntry_acct (hes : (s.tables t).entries = some es)
    (ha : es[i]? = some a) (hobj : a.object = some o) :
    Acct counted (dropEntry s t i o) (k + oneRef o) := by
  have hrefs := dropEntry_refs h hes ha hobj
  obtain ⟨hnT, hnO, hpend, hfrees⟩ := dropEntry_frame (s := s) (t := t) (i := i) (o := o)
  have hpins : ∀ x, (dropEntry s t i o).pins x = s.pins x := fun x => by
    rw [ObSys.pins, hpend, ObSys.pins]
  refine ⟨fun x => ?_, fun x hx => ?_, fun hc x => ?_⟩
  · rw [dropEntry_tables]
    by_cases hxt : x = t
    · subst hxt
      simpa using clearedTable_ok (h.tables x) hes ha hobj
    · simpa [hxt] using h.tables x
  · have ht := h.lt_nTables hes
    rw [dropEntry_tables, update_of_ne (by omega)]
    exact h.unused x (by omega)
  · have hpos := handleCount_pos h hc hes ha hobj
    have hobjects := dropEntry_objects (t := t) (i := i) hpos
    have hold := h.object hc o
    have hhandles := hold.handles
    have hsplit := hrefs x
    by_cases hx : x = o
    · subst hx
      have hcount := hold.references
      rw [oneRef_self] at hsplit
      refine ⟨?_, ?_, ?_, ?_, ?_⟩
      all_goals simp only [hobjects, update_self, hpins, hfrees, hnO, Pi.add_apply,
        oneRef_self, toNat_sub_one hpos]
      · omega
      · omega
      · exact hold.alive
      · exact hold.created
      · exact hold.freed
    · rw [oneRef_of_ne hx] at hsplit
      simp only [Pi.add_apply, oneRef_of_ne hx]
      exact (h.object hc x).congr (by simp [hobjects, hx]) hsplit (hpins x) hnO (hfrees x)

theorem dropEntry_shift (hc : counted) (hes : (s.tables t).entries = some es)
    (ha : es[i]? = some a) (hobj : a.object = some o) :
    Shift s (dropEntry s t i o) 0 (oneRef o) fun x =>
      if x = o ∧ (s.objects o).hasOnClose = true ∧ s.refs o = 1 then 1 else 0 := by
  have hpos := handleCount_pos h hc hes ha hobj
  have hhandles := (h.object hc o).handles
  refine ⟨dropEntry_refs h hes ha hobj, fun x => ?_, fun x => ?_⟩
  · rw [dropEntry_eq hpos, hhandles]
    by_cases hrun : s.refs o = 1 ∧ (s.objects o).hasOnClose = true
    · rw [if_pos hrun]
      by_cases hx : x = o
      · subst hx
        simp [ObSys.closes, ObSys.emit, hrun]
      · simp [ObSys.closes, ObSys.emit, hx, Ne.symm hx]
    · rw [if_neg hrun, if_neg fun hc => hrun ⟨hc.2.2, hc.2.1⟩]
      rfl
  · rw [dropEntry_objects hpos]
    by_cases hx : x = o
    · subst hx
      simp
    · simp [hx]

theorem clearSlot_acct (hes : (s.tables t).entries = some es)
    (ha : es[i]? = some a) (hobj : a.object = some o) :
    Acct counted (clearSlot s t i o) k ∧ (counted → Shift s (clearSlot s t i o) 0 (oneRef o)
      fun x => if x = o ∧ (s.objects o).hasOnClose = true ∧ s.refs o = 1 then 1 else 0) := by
  obtain ⟨hacct, hquiet⟩ := (dropEntry_acct h hes ha hobj).dereference rfl
  exact ⟨hacct, fun hc => (dropEntry_shift h hc hes ha hobj).then_quiet hquiet⟩

end

end DropEntry

end ImpossibleOs.Ob
