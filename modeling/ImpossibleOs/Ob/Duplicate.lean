import ImpossibleOs.Ob.Calls

/-!
The two halves of `NtDuplicateObject`.

Between the halves the pin of the frame keeps the source object alive. The second
half takes the pin as a reference in flight and drops it on every exit.
-/

namespace ImpossibleOs.Ob

open Bool List

variable {counted : Prop} {s : ObSys} {f : DupFrame} {k : ℕ → ℕ}

theorem Acct.setPending (h : Acct counted s k) (k' : ℕ → ℕ) (fs : List DupFrame)
    (hpins : ∀ x, (fs.countP fun f => f.srcObj == x) + k' x = s.pins x + k x) :
    Acct counted (s.setPending fs) k' ∧ Quiet s (s.setPending fs) := by
  refine ⟨⟨h.tables, h.unused, fun hc x => ?_⟩, ⟨fun _ => rfl, fun _ => rfl, fun _ => rfl⟩⟩
  have hold := h.object hc x
  refine ⟨hold.handles, ?_, hold.alive, hold.created, hold.freed⟩
  have hrefs := hold.references
  have hmove := hpins x
  have hsame : (s.setPending fs).refs x = s.refs x := rfl
  have hcount : (s.setPending fs).pins x = fs.countP fun f => f.srcObj == x := rfl
  rw [hsame, hcount]
  simp only [ObSys.setPending]
  omega

theorem ntDuplicateObjectBegin_acct (srcTable : ℕ) (srcHandle : ℤ)
    (dstTable : ℕ) (desiredAccess attrs options : UInt32) (h : Acct counted s k)
    (hroom : counted → ∀ i o e, obpLookupHandle (s.tables srcTable) srcHandle = some (i, o, e) →
      (s.objects o).refCount.toNat + 1 < 2 ^ 32) :
    Acct counted
        (ntDuplicateObjectBegin s srcTable srcHandle dstTable desiredAccess attrs options).1 k ∧
      Quiet s
        (ntDuplicateObjectBegin s srcTable srcHandle dstTable desiredAccess attrs options).1 := by
  unfold ntDuplicateObjectBegin
  split
  · exact ⟨h, Quiet.refl s⟩
  · rename_i i o e hlook
    split
    · exact ⟨h, Quiet.refl s⟩
    · obtain ⟨-, hget, hobj⟩ := obpLookupHandle_eq_some.mp hlook
      obtain ⟨hacct, hquiet⟩ := h.reference (h.entry_alive hget hobj).2 fun hc =>
        hroom hc i o e hlook
      obtain ⟨hacct', hquiet'⟩ := hacct.setPending k
        (⟨srcTable, srcHandle, dstTable, o, e.hid,
          requestCeiling e.grantedAccess desiredAccess options, attrs, options⟩ ::
            (obReferenceObject s o).pending) fun x => by
          by_cases hx : x = o
          · subst hx
            simp only [countP_cons, beq_self_eq_true, if_true, Pi.add_apply, oneRef_self,
              ObSys.pins]
            omega
          · simp [ObSys.pins, oneRef_of_ne hx, Ne.symm hx]
      exact ⟨hacct', hquiet.trans hquiet'⟩

theorem Acct.takeFrame (h : Acct counted s 0) {n : ℕ} (hf : s.pending[n]? = some f) :
    Acct counted (s.setPending (s.pending.eraseIdx n)) (oneRef f.srcObj) ∧
      Quiet s (s.setPending (s.pending.eraseIdx n)) := by
  obtain ⟨hn, rfl⟩ := List.getElem?_eq_some_iff.mp hf
  refine h.setPending _ _ fun x => ?_
  have hperm := (getElem_cons_eraseIdx_perm hn).countP_eq fun f => f.srcObj == x
  rw [ObSys.pins, ← hperm, countP_cons]
  by_cases hx : x = s.pending[n].srcObj
  · subst hx
    simp
  · simp [oneRef_of_ne hx, Ne.symm hx]

theorem sourceStands_iff : sourceStands s f = true ↔
    ∃ i e, slotOf f.srcHandle = some i ∧ (s.tables f.srcTable).slots[i]? = some e ∧
      e.object = some f.srcObj ∧
      ¬(f.options &&& duplicateCloseSource ≠ 0 ∧ e.attributes &&& objProtectClose ≠ 0) := by
  unfold sourceStands
  cases hlook : obpLookupHandle (s.tables f.srcTable) f.srcHandle with
  | none =>
    simp only [false_eq_true, false_iff]
    rintro ⟨i, e, hslot, hget, hobj, -⟩
    rw [obpLookupHandle_eq_some.mpr ⟨hslot, hget, hobj⟩] at hlook
    cases hlook
  | some r =>
    obtain ⟨i, o, e⟩ := r
    obtain ⟨hslot, hget, hobj⟩ := obpLookupHandle_eq_some.mp hlook
    simp only [and_eq_true, beq_iff_eq, not_eq_true', and_eq_false_iff,
      bne_eq_false_iff_eq]
    constructor
    · rintro ⟨rfl, hprot⟩
      exact ⟨i, e, hslot, hget, hobj, fun hc => hprot.elim hc.1 hc.2⟩
    · rintro ⟨j, e', hslot', hget', hobj', hprot⟩
      rw [hslot] at hslot'
      cases hslot'
      rw [hget] at hget'
      cases hget'
      rw [hobj] at hobj'
      cases hobj'
      exact ⟨rfl, by tauto⟩

theorem capGrant_acct (t : ℕ) (handle : ℤ) (ceiling : UInt32)
    (h : Acct counted s k) : Acct counted (capGrant s t handle ceiling) k ∧
      Quiet s (capGrant s t handle ceiling) := by
  unfold capGrant
  split
  · exact ⟨h, Quiet.refl s⟩
  · rename_i i o e hlook
    obtain ⟨-, hget, -⟩ := obpLookupHandle_eq_some.mp hlook
    obtain ⟨es, hes, -⟩ := entries_of_slot hget
    exact h.modifySlot t i (f := fun e => { e with grantedAccess := e.grantedAccess &&& ceiling })
      (fun _ => rfl) rfl (by simp [hes])

theorem capGrant_slots {t i : ℕ} {e : Entry} (ceiling : UInt32)
    (hget : (s.tables t).slots[i]? = some e) (hobj : e.object ≠ none) (t' j : ℕ) :
    ((capGrant s t ((i : ℤ) * 4) ceiling).tables t').slots[j]? =
      if t' = t ∧ j = i then some { e with grantedAccess := e.grantedAccess &&& ceiling }
      else (s.tables t').slots[j]? := by
  obtain ⟨o, ho⟩ := Option.ne_none_iff_exists'.mp hobj
  have hlook := obpLookupHandle_eq_some.mpr ⟨slotOf_mul_four i, hget, ho⟩
  rw [capGrant, hlook]
  dsimp only
  by_cases ht : t' = t
  · subst ht
    by_cases hj : j = i
    · subst hj
      have hget' : ((s.tables t').entries.getD [])[j]? = some e := hget
      simp [HandleTable.slots, hget']
    · simp [HandleTable.slots, hj, Ne.symm hj]
  · simp [ht]

theorem Shift.swap {s s' s'' : ObSys} {o : ℕ} (h : Shift s s' (oneRef o) 0 0)
    (h' : Shift s' s'' 0 (oneRef o) fun x =>
      if x = o ∧ (s'.objects o).hasOnClose = true ∧ s'.refs o = 1 then 1 else 0)
    (hpos : 0 < s.refs o) : Quiet s s'' := by
  have htwo : s'.refs o = s.refs o + 1 := by simpa using h.refs o
  refine ⟨fun x => ?_, fun x => ?_, fun x => (h'.hook x).trans (h.hook x)⟩
  · have h₁ := h.refs x
    have h₂ := h'.refs x
    simp only [Pi.zero_apply] at h₁ h₂ ⊢
    omega
  · rw [h'.closes x, h.closes x, if_neg (by omega)]
    rfl

/-- The destination handle is in place: `s₁` after the allocation, `s₂` after the cut of the
grant. The source entry `e` in slot `j` is as it was. -/
structure DupPlaced (counted : Prop) (s s₁ s₂ : ObSys) (f : DupFrame) (access : UInt32) (j : ℕ)
    (e : Entry) : Prop where
  acct : Acct counted s₂ (oneRef f.srcObj)
  shift : Shift s s₂ (oneRef f.srcObj) 0 0
  slot : slotOf f.srcHandle = some j
  source : (s.tables f.srcTable).slots[j]? = some e
  kept : (s₂.tables f.srcTable).slots[j]? = some e
  object : e.object = some f.srcObj
  closable : ¬(f.options &&& duplicateCloseSource ≠ 0 ∧ e.attributes &&& objProtectClose ≠ 0)
  allocated : ∃ handle openOk growOk, handle ≠ invalidHandleValue ∧
    obpAllocateHandleInner s f.dstTable f.srcObj (access &&& f.requestCeiling) f.attrs [] openOk
      growOk = (s₁, handle) ∧
    Allocated s s₁ f.dstTable f.srcObj (access &&& f.requestCeiling) f.attrs handle ∧
    s₂ = capGrant s₁ f.dstTable handle f.requestCeiling

theorem dupPlaced {s s₁ : ObSys} {access : UInt32} {openOk : Bool}
    {growOk : ℕ → Bool} {handle : ℤ} (h : Acct counted s (oneRef f.srcObj))
    (hroom : counted → (s.objects f.srcObj).refCount.toNat + 1 < 2 ^ 32)
    (hstands : sourceStands s f = true)
    (halloc : obpAllocateHandleInner s f.dstTable f.srcObj (access &&& f.requestCeiling) f.attrs []
      openOk growOk = (s₁, handle)) (hne : handle ≠ invalidHandleValue) :
    ∃ j e,
      DupPlaced counted s s₁ (capGrant s₁ f.dstTable handle f.requestCeiling) f access j e := by
  obtain ⟨j, e, hslot, hget, hobj, hclose⟩ := sourceStands_iff.mp hstands
  obtain ⟨hacct, granted, hal, hgranted⟩ :=
    obpAllocateHandleInner_acct h (h.entry_alive hget hobj).2 hroom halloc
  cases hgranted hne
  obtain ⟨hshift, -, i, rfl, hnew, hfree⟩ := hal.created hne
  obtain ⟨hacct', hquiet⟩ := capGrant_acct f.dstTable ((i : ℤ) * 4) f.requestCeiling hacct
  refine ⟨j, e, ⟨hacct', hshift.then_quiet hquiet, hslot, hget, ?_, hobj, hclose, _, _, _, hne,
    halloc, hal, rfl⟩⟩
  rw [capGrant_slots _ hnew (by simp), if_neg]
  · exact hal.keeps _ _ _ hget (by simp [hobj])
  · -- the new handle sits in a slot that was free
    rintro ⟨ht, rfl⟩
    have hnone := hfree e (ht ▸ hget)
    rw [hnone] at hobj
    cases hobj

theorem DupPlaced.free {s s₁ s₂ : ObSys} {access : UInt32} {j : ℕ} {e : Entry}
    (h : DupPlaced counted s s₁ s₂ f access j e) (hclose : f.options &&& duplicateCloseSource ≠ 0) :
    obpFreeHandle s₂ f.srcTable f.srcHandle = (clearSlot s₂ f.srcTable j f.srcObj, true) := by
  have hlook := obpLookupHandle_eq_some.mpr ⟨h.slot, h.kept, h.object⟩
  have hprot : ¬(e.attributes &&& objProtectClose ≠ 0) := fun hp => h.closable ⟨hclose, hp⟩
  rw [obpFreeHandle, hlook]
  dsimp only
  rw [if_neg hprot]

theorem dupFinish_cases (cbs : List (UInt32 → UInt32)) (openOk : Bool)
    (growOk : ℕ → Bool) (h : Acct counted s (oneRef f.srcObj))
    (hroom : counted → (s.objects f.srcObj).refCount.toNat + 1 < 2 ^ 32) :
    (∃ s₁, dupFinish s f cbs openOk growOk = (obDereferenceObject s₁ f.srcObj, false) ∧
      Acct counted s₁ (oneRef f.srcObj) ∧ Quiet s s₁ ∧ (s₁ = s ∨ ∃ access,
        obpAllocateHandleInner s f.dstTable f.srcObj access f.attrs [] openOk growOk =
          (s₁, invalidHandleValue))) ∨
    ∃ s₁ s₂ access j e, DupPlaced counted s s₁ s₂ f access j e ∧
      dupFinish s f cbs openOk growOk = (obDereferenceObject
        ((if f.options &&& duplicateCloseSource ≠ 0 then clearSlot s₂ f.srcTable j f.srcObj
          else s₂).emit (.derived f.srcHid s.grants.length)) f.srcObj, true) := by
  unfold dupFinish
  split
  · exact .inl ⟨s, rfl, h, Quiet.refl s, .inl rfl⟩
  · rename_i access hcb
    by_cases hstands : sourceStands s f = false
    · rw [if_pos hstands]
      exact .inl ⟨s, rfl, h, Quiet.refl s, .inl rfl⟩
    · rw [if_neg hstands]
      have hstands' : sourceStands s f = true := by simpa using hstands
      cases halloc : obpAllocateHandleInner s f.dstTable f.srcObj (access &&& f.requestCeiling)
        f.attrs [] openOk growOk with
      | mk s₁ handle =>
        dsimp only
        by_cases hne : handle = invalidHandleValue
        · rw [if_pos hne]
          obtain ⟨i, e, -, hget, hobj, -⟩ := sourceStands_iff.mp hstands'
          obtain ⟨hacct, granted, hal, -⟩ :=
            obpAllocateHandleInner_acct h (h.entry_alive hget hobj).2 hroom halloc
          exact .inl ⟨s₁, rfl, hacct, (hal.failed hne).1, .inr ⟨_, hne ▸ halloc⟩⟩
        · rw [if_neg hne]
          obtain ⟨j, e, hplaced⟩ := dupPlaced h hroom hstands' halloc hne
          refine .inr ⟨s₁, _, access, j, e, hplaced, ?_⟩
          by_cases hclose : f.options &&& duplicateCloseSource ≠ 0
          · simp only [if_pos hclose, hplaced.free hclose, true_eq_false, if_false]
          · simp only [if_neg hclose, true_eq_false, if_false]

theorem Acct.emitDerived (h : Acct counted s k) (a b : ℕ) :
    Acct counted (s.emit (.derived a b)) k ∧ Quiet s (s.emit (.derived a b)) := by
  refine ⟨⟨h.tables, h.unused, fun hc x => (h.object hc x).congr rfl rfl rfl rfl ?_⟩,
    ⟨fun _ => rfl, fun x => ?_, fun _ => rfl⟩⟩
  · simp [ObSys.frees, ObSys.emit]
  · simp [ObSys.closes, ObSys.emit]

theorem dupFinish_acct (cbs : List (UInt32 → UInt32)) (openOk : Bool)
    (growOk : ℕ → Bool) (h : Acct counted s (oneRef f.srcObj))
    (hroom : counted → (s.objects f.srcObj).refCount.toNat + 1 < 2 ^ 32) :
    Acct counted (dupFinish s f cbs openOk growOk).1 0 ∧
      (counted → CloseExact s (dupFinish s f cbs openOk growOk).1) := by
  have hone : oneRef f.srcObj = 0 + oneRef f.srcObj := by simp
  rcases dupFinish_cases cbs openOk growOk h hroom with
    ⟨s₁, hres, hacct, hquiet, -⟩ | ⟨s₁, s₂, access, j, e, hplaced, hres⟩
  · rw [hres]
    obtain ⟨hacct', hquiet'⟩ := hacct.dereference hone
    exact ⟨hacct', fun _ => (hquiet.trans hquiet').closeExact⟩
  · rw [hres]
    have hpos : 0 < s.refs f.srcObj := (h.entry_alive hplaced.source hplaced.object).1
    by_cases hclose : f.options &&& duplicateCloseSource ≠ 0
    · rw [if_pos hclose]
      obtain ⟨es, hes, ha⟩ := entries_of_slot hplaced.kept
      obtain ⟨hacct, hshift⟩ := clearSlot_acct hplaced.acct hes ha hplaced.object
      obtain ⟨hacct₁, hquiet₁⟩ := hacct.emitDerived f.srcHid s.grants.length
      obtain ⟨hacct₂, hquiet₂⟩ := hacct₁.dereference hone
      refine ⟨hacct₂, fun hc => ?_⟩
      have hswap := hplaced.shift.swap (hshift hc) hpos
      exact ((hswap.trans hquiet₁).trans hquiet₂).closeExact
    · rw [if_neg hclose]
      obtain ⟨hacct₁, hquiet₁⟩ := hplaced.acct.emitDerived f.srcHid s.grants.length
      obtain ⟨hacct₂, hquiet₂⟩ := hacct₁.dereference hone
      exact ⟨hacct₂,
        fun _ => ((hplaced.shift.then_quiet hquiet₁).then_quiet hquiet₂).closeExact_of_gain⟩

end ImpossibleOs.Ob
