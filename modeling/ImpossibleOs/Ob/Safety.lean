import ImpossibleOs.Ob.Duplicate

/-!
Runs of the handle interface over any number of tables and objects.

A run may interleave the two halves of duplications with anything else, which is
what pre-callbacks that call back into the tables amount to. A call is legal if it
passes live objects, drops only references it owns and inherits into a table that
was freshly initialised, as the interface asks.

Reference counts are 32 bits wide and nothing stops them from wrapping, so the counts
are right in the runs that never take a reference too many.
-/

namespace ImpossibleOs.Ob

open Function

inductive ObCall
  | tableInit (quota : ℕ)
  | allocObject (permanent hasOnClose : Bool)
  | reference (o : ℕ)
  | dereference (o : ℕ)
  | makeTemporary (o : ℕ)
  | allocateHandle (t o : ℕ) (access attrs : UInt32) (cbs : List (UInt32 → UInt32)) (openOk : Bool)
      (growOk : ℕ → Bool)
  | freeHandle (t : ℕ) (handle : ℤ)
  | duplicateBegin (srcTable : ℕ) (srcHandle : ℤ) (dstTable : ℕ)
      (desiredAccess attrs options : UInt32)
  | duplicateFinish (n : ℕ) (cbs : List (UInt32 → UInt32)) (openOk : Bool) (growOk : ℕ → Bool)
  | inherit (parent child : ℕ) (growOk : ℕ → Bool)
  | destroy (t : ℕ)
  | setLimit (t newLimit : ℕ)

def ObSys.step (s : ObSys) : ObCall → ObSys
  | .tableInit quota => obHandleTableInit s quota
  | .allocObject permanent hasOnClose => obAllocObject s permanent hasOnClose
  | .reference o => takeReference s o
  | .dereference o => dropReference s o
  | .makeTemporary o => obMakeTemporaryObject s o
  | .allocateHandle t o access attrs cbs openOk growOk =>
    (obpAllocateHandleInner s t o access attrs cbs openOk growOk).1
  | .freeHandle t handle => (obpFreeHandle s t handle).1
  | .duplicateBegin srcTable srcHandle dstTable desiredAccess attrs options =>
    (ntDuplicateObjectBegin s srcTable srcHandle dstTable desiredAccess attrs options).1
  | .duplicateFinish n cbs openOk growOk => (ntDuplicateObjectFinish s n cbs openOk growOk).1
  | .inherit parent child growOk => obHandleTableInherit s parent child growOk
  | .destroy t => obHandleTableDestroy s t
  | .setLimit t newLimit => obHandleTableSetLimit s t newLimit

/-- The quota tunable is bounded, objects passed in are alive, references dropped are owned,
and the child of an inheritance is empty. -/
def ObCall.Legal (s : ObSys) : ObCall → Prop
  | .tableInit quota => quota ≤ handleTableAbsoluteMax
  | .reference o => (s.objects o).alive = true
  | .dereference o => 0 < (s.objects o).outside
  | .allocateHandle _ o _ _ _ _ _ => (s.objects o).alive = true
  | .inherit _ child _ => ∀ e ∈ (s.tables child).slots, e.object = none
  | _ => True

def ObSys.run (s : ObSys) : List ObCall → ObSys
  | [] => s
  | c :: cs => (s.step c).run cs

def ObSys.LegalRun (s : ObSys) : List ObCall → Prop
  | [] => True
  | c :: cs => c.Legal s ∧ (s.step c).LegalRun cs

/-- No reference the call may take wraps the count of its object. -/
def ObCall.NoWrap (s : ObSys) : ObCall → Prop
  | .reference o => (s.objects o).refCount.toNat + 1 < 2 ^ 32
  | .allocateHandle _ o _ _ _ _ _ => (s.objects o).refCount.toNat + 1 < 2 ^ 32
  | .duplicateBegin srcTable srcHandle _ _ _ _ => ∀ i o e,
      obpLookupHandle (s.tables srcTable) srcHandle = some (i, o, e) →
        (s.objects o).refCount.toNat + 1 < 2 ^ 32
  | .duplicateFinish n _ _ _ => ∀ f, s.pending[n]? = some f →
      (s.objects f.srcObj).refCount.toNat + 1 < 2 ^ 32
  | .inherit parent _ _ => Room s (s.tables parent).slots
  | _ => True

def ObSys.NoWrapRun (s : ObSys) : List ObCall → Prop
  | [] => True
  | c :: cs => c.NoWrap s ∧ (s.step c).NoWrapRun cs

/-! ### The calls that only create or count -/

variable {counted : Prop}

theorem boot_acct : Acct counted ObSys.boot 0 := by
  have hrefs : ∀ o, ObSys.boot.refs o = 0 := fun o => rfl
  refine ⟨fun t => ⟨rfl, ?_, ?_, ?_⟩, fun t _ => rfl, fun _ o => ⟨?_, ?_, ?_, ?_, ?_⟩⟩
  · simp [ObSys.boot, noTable, HandleTable.slots]
  · simp [ObSys.boot, noTable]
  · simp [ObSys.boot, noTable]
  · rw [hrefs]
    rfl
  · rw [hrefs]
    rfl
  · simp [ObSys.boot, noObject]
  · simp [ObSys.boot, noObject]
  · simp [ObSys.boot, ObSys.frees]

variable {s : ObSys}

theorem obHandleTableInit_acct {quota : ℕ} (h : Acct counted s 0)
    (hquota : quota ≤ handleTableAbsoluteMax) :
    Acct counted (obHandleTableInit s quota) 0 ∧ Quiet s (obHandleTableInit s quota) := by
  let T : HandleTable := ⟨some (List.replicate handleTableInitCap freeEntry), 0, quota, false⟩
  have hfree : ∀ e ∈ T.slots, e.object = none := by
    intro e he
    rw [List.eq_of_mem_replicate he]
    rfl
  have hrefs : ∀ o, (obHandleTableInit s quota).refs o = s.refs o := by
    intro o
    unfold ObSys.refs
    simp only [obHandleTableInit, Finset.sum_range_succ, update_self]
    have hnew : T.refs o = 0 := refs_eq_zero hfree o
    have hold : ∀ t ∈ Finset.range s.nTables,
        (update s.tables s.nTables T t).refs o = (s.tables t).refs o := by
      intro t ht
      have hlt := Finset.mem_range.mp ht
      rw [update_of_ne (by omega)]
    rw [Finset.sum_congr rfl hold]
    exact congrArg (_ + ·) hnew
  refine ⟨⟨fun t => ?_, fun t ht => ?_,
    fun hc o => (h.object hc o).congr rfl (hrefs o) rfl rfl rfl⟩,
    ⟨fun o => hrefs o, fun _ => rfl, fun _ => rfl⟩⟩
  · by_cases hx : t = s.nTables
    · subst hx
      simp only [obHandleTableInit, update_self]
      refine ⟨?_, fun e he => hfree e (List.mem_of_getElem? he), hquota, ?_⟩
      · exact (List.countP_eq_zero.mpr fun e he => by simp [hfree e he]).symm
      · rintro es ⟨⟩
        simp [handleTableInitCap, handleTableAbsoluteMax]
    · simpa [obHandleTableInit, hx] using h.tables t
  · simp only [obHandleTableInit] at ht ⊢
    rw [update_of_ne (by omega)]
    exact h.unused t (by omega)

theorem obAllocObject_acct (permanent hasOnClose : Bool) (h : Acct counted s 0) :
    Acct counted (obAllocObject s permanent hasOnClose) 0 ∧
      CloseExact s (obAllocObject s permanent hasOnClose) := by
  have hrefs : ∀ o, (obAllocObject s permanent hasOnClose).refs o = s.refs o := fun _ => rfl
  have hpins : ∀ o, (obAllocObject s permanent hasOnClose).pins o = s.pins o := fun _ => rfl
  have hfrees : ∀ o, (obAllocObject s permanent hasOnClose).frees o = s.frees o := fun _ => rfl
  refine ⟨⟨h.tables, h.unused, fun hc o => ?_⟩, fun o => ?_⟩
  · by_cases ho : o = s.nObjects
    · subst ho
      -- nothing refers to the next object yet
      have hnew := h.object hc s.nObjects
      have hzero : (s.objects s.nObjects).refCount.toNat = 0 := by
        by_contra hne
        exact absurd (hnew.created (by omega)) (lt_irrefl _)
      have hacc := hnew.references
      simp only [Pi.zero_apply] at hacc
      have hfreed := hnew.freed
      rw [if_neg (by simp)] at hfreed
      refine ⟨?_, ?_, ?_, ?_, ?_⟩
      · rw [hrefs]
        simp only [obAllocObject, update_self, UInt32.toNat_zero]
        omega
      · rw [hrefs, hpins]
        simp only [obAllocObject, update_self, Pi.zero_apply, UInt32.toNat_one]
        omega
      · simp [obAllocObject]
      · simp [obAllocObject]
      · rw [hfrees, hfreed]
        simp [obAllocObject]
    · have hold := h.object hc o
      have hobj : (obAllocObject s permanent hasOnClose).objects o = s.objects o := by
        simp [obAllocObject, ho]
      refine ⟨?_, ?_, ?_, ?_, ?_⟩
      · rw [hobj]
        exact hold.handles
      · rw [hobj]
        exact hold.references
      · rw [hobj]
        exact hold.alive
      · rw [hobj]
        exact fun hpos => (hold.created hpos).trans (Nat.lt_succ_self _)
      · rw [hfrees, hobj, hold.freed]
        have hiff : o < s.nObjects + 1 ↔ o < s.nObjects := by omega
        simp only [obAllocObject, hiff]
  · rw [hrefs, if_neg (by omega)]
    rfl

/-- A change of the header that keeps the counts and moves a reference between its owner and the
code that is running. -/
theorem Acct.setHeader {k k' : ℕ → ℕ} {o : ℕ} {hdr : ObjectHeader} (h : Acct counted s k)
    (hk : ∀ x, x ≠ o → k' x = k x) (hhandles : hdr.handleCount = (s.objects o).handleCount)
    (hcount : hdr.refCount = (s.objects o).refCount) (halive : hdr.alive = (s.objects o).alive)
    (houtside : hdr.outside + k' o = (s.objects o).outside + k o) :
    Acct counted (s.setObject o hdr) k' := by
  refine h.setObject hk fun hc => ?_
  have hobj := h.object hc o
  have hrefs := hobj.references
  refine ⟨?_, ?_, ?_, ?_, ?_⟩
  all_goals simp only [ObSys.setObject_objects, update_self, setObject_refs, setObject_pins,
    setObject_frees, hhandles, hcount, halive]
  · exact hobj.handles
  · omega
  · exact hobj.alive
  · exact hobj.created
  · exact hobj.freed

theorem takeReference_acct {o : ℕ} (h : Acct counted s 0) (ho : (s.objects o).alive = true)
    (hroom : counted → (s.objects o).refCount.toNat + 1 < 2 ^ 32) :
    Acct counted (takeReference s o) 0 ∧ Quiet s (takeReference s o) := by
  obtain ⟨hacct, hquiet⟩ := h.reference (fun hc => (h.object hc o).alive.mp ho) hroom
  exact ⟨hacct.setHeader (fun x hx => by simp [oneRef_of_ne hx]) rfl rfl rfl (by simp),
    hquiet.trans (Quiet.setObject rfl)⟩

theorem dropReference_acct {o : ℕ} (h : Acct counted s 0) (ho : 0 < (s.objects o).outside) :
    Acct counted (dropReference s o) 0 ∧ Quiet s (dropReference s o) := by
  let hdr : ObjectHeader := { s.objects o with outside := (s.objects o).outside - 1 }
  -- the owner's reference is in flight while it is being dropped
  have hacct : Acct counted (s.setObject o hdr) (oneRef o) :=
    h.setHeader (fun x hx => oneRef_of_ne hx) rfl rfl rfl (by
      simp only [oneRef_self, Pi.zero_apply, hdr]
      omega)
  have hzero : oneRef o = 0 + oneRef o := by simp
  obtain ⟨hacct', hquiet⟩ := hacct.dereference hzero
  have hquiet' : Quiet s (s.setObject o hdr) := Quiet.setObject rfl
  exact ⟨hacct', hquiet'.trans hquiet⟩

theorem obMakeTemporaryObject_acct (o : ℕ) (h : Acct counted s 0) :
    Acct counted (obMakeTemporaryObject s o) 0 ∧ Quiet s (obMakeTemporaryObject s o) :=
  ⟨h.setHeader (fun _ _ => rfl) rfl rfl rfl rfl, Quiet.setObject rfl⟩

theorem obHandleTableSetLimit_acct (t newLimit : ℕ) (h : Acct counted s 0) :
    Acct counted (obHandleTableSetLimit s t newLimit) 0 ∧
      Quiet s (obHandleTableSetLimit s t newLimit) := by
  have hold := h.tables t
  refine h.setTable ⟨hold.count, hold.slot0, ?_, hold.cap⟩ (fun _ => rfl) id
  simp only
  split <;> omega

/-! ### Every legal run keeps the accounts -/

theorem Quiet.step_acct {s' : ObSys} (h : Acct counted s' 0 ∧ Quiet s s') :
    Acct counted s' 0 ∧ (counted → CloseExact s s') := ⟨h.1, fun _ => h.2.closeExact⟩

theorem step_acct {c : ObCall} (h : Acct counted s 0) (hc : c.Legal s)
    (hroom : counted → c.NoWrap s) :
    Acct counted (s.step c) 0 ∧ (counted → CloseExact s (s.step c)) := by
  cases c with
  | tableInit quota =>
    exact Quiet.step_acct (obHandleTableInit_acct h hc)
  | allocObject permanent hasOnClose =>
    obtain ⟨hacct, hexact⟩ := obAllocObject_acct permanent hasOnClose h
    exact ⟨hacct, fun _ => hexact⟩
  | reference o =>
    exact Quiet.step_acct (takeReference_acct h hc hroom)
  | dereference o =>
    exact Quiet.step_acct (dropReference_acct h hc)
  | makeTemporary o =>
    exact Quiet.step_acct (obMakeTemporaryObject_acct o h)
  | allocateHandle t o access attrs cbs openOk growOk =>
    obtain ⟨hacct, granted, hal, -⟩ :=
      obpAllocateHandleInner_acct h
      (fun hx => (h.object hx o).alive.mp hc) hroom (Prod.eta _).symm
    refine ⟨hacct, fun _ => ?_⟩
    by_cases hbad : (obpAllocateHandleInner s t o access attrs cbs openOk growOk).2 =
        invalidHandleValue
    · exact (hal.failed hbad).1.closeExact
    · exact (hal.created hbad).1.closeExact_of_gain
  | freeHandle t handle =>
    obtain ⟨hacct, hshrink⟩ := obpFreeHandle_acct t handle h
    exact ⟨hacct, fun hx => (hshrink hx).exact⟩
  | duplicateBegin srcTable srcHandle dstTable desiredAccess attrs options =>
    exact Quiet.step_acct (ntDuplicateObjectBegin_acct srcTable srcHandle dstTable desiredAccess
      attrs options h hroom)
  | duplicateFinish n cbs openOk growOk =>
    unfold ObSys.step ntDuplicateObjectFinish
    dsimp only
    split
    · exact ⟨h, fun _ => (Quiet.refl s).closeExact⟩
    · rename_i f hf
      obtain ⟨hacct, hquiet⟩ := h.takeFrame hf
      obtain ⟨hacct', hexact⟩ := dupFinish_acct cbs openOk growOk hacct
        fun hx => hroom hx f hf
      refine ⟨hacct', fun hx o => ?_⟩
      have hsame : (s.setPending (s.pending.eraseIdx n)).refs o = s.refs o := rfl
      rw [hexact hx o, hsame]
      rfl
  | inherit parent child growOk =>
    obtain ⟨hacct, g, hshift⟩ := obHandleTableInherit_acct parent child growOk h hc hroom
    exact ⟨hacct, fun _ => hshift.closeExact_of_gain⟩
  | destroy t =>
    obtain ⟨hacct, hshrink⟩ := obHandleTableDestroy_acct t h
    exact ⟨hacct, fun hx => (hshrink hx).exact⟩
  | setLimit t newLimit =>
    exact Quiet.step_acct (obHandleTableSetLimit_acct t newLimit h)

theorem run_acct {cs : List ObCall} (h : Acct counted s 0) (hcs : s.LegalRun cs)
    (hroom : counted → s.NoWrapRun cs) : Acct counted (s.run cs) 0 := by
  induction cs generalizing s with
  | nil => exact h
  | cons c cs ih =>
    exact ih (step_acct h hcs.1 fun hc => (hroom hc).1).1 hcs.2 fun hc => (hroom hc).2

/-- The accounts as the interface promises them. References held outside tables are those of
other owners and the pins of duplications under way. -/
structure Accounting (s : ObSys) : Prop where
  count : ∀ t, (s.tables t).count = (s.tables t).occupied
  slot0 : ∀ (t : ℕ) (e : Entry), (s.tables t).slots[0]? = some e → e.object = none
  handles : ∀ o, (s.objects o).handleCount.toNat = s.refs o
  references : ∀ o, (s.objects o).refCount.toNat = s.refs o + ((s.objects o).outside + s.pins o)
  freedOnce : ∀ o, o < s.nObjects → s.frees o = if (s.objects o).refCount = 0 then 1 else 0
  live : ∀ (t i o : ℕ) (e : Entry), (s.tables t).slots[i]? = some e → e.object = some o →
    s.frees o = 0

theorem Acct.accounting (h : Acct True s 0) : Accounting s := by
  have hobj := h.object trivial
  refine ⟨fun t => (h.tables t).count, fun t => (h.tables t).slot0, fun o => (hobj o).handles,
    fun o => ?_, fun o ho => ?_, fun t i o e he ho => ?_⟩
  · have hrefs := (hobj o).references
    simp only [Pi.zero_apply] at hrefs
    omega
  · rw [(hobj o).freed]
    simp [ho, ← UInt32.toNat_inj]
  · have halive := (h.entry_alive he ho).2 trivial
    rw [(hobj o).freed, if_neg (by omega)]

/-- A duplication whose callback closes the source handle, and the last outside reference
dropped afterwards. -/
def closingCallbackRun : List ObCall :=
  [.tableInit 64, .tableInit 64, .allocObject false true,
    .allocateHandle 0 0 3 0 [] true fun _ => true, .duplicateBegin 0 4 1 1 0 0, .freeHandle 0 4,
    .duplicateFinish 0 [] true fun _ => true, .dereference 0]

def ObSys.referenced (s : ObSys) (o n : ℕ) : ObSys :=
  s.setObject o { s.objects o with
    refCount := (s.objects o).refCount + UInt32.ofNat n
    outside := (s.objects o).outside + n }

theorem run_references {o : ℕ} (n : ℕ) (cs : List ObCall) (ho : (s.objects o).alive = true) :
    (s.LegalRun (List.replicate n (.reference o) ++ cs) ↔ (s.referenced o n).LegalRun cs) ∧
      s.run (List.replicate n (.reference o) ++ cs) = (s.referenced o n).run cs := by
  induction n generalizing s with
  | zero =>
    have hsame : s.referenced o 0 = s := by simp [ObSys.referenced, ObSys.setObject]
    rw [hsame]
    exact ⟨Iff.rfl, rfl⟩
  | succ n ih =>
    have hnext : (takeReference s o).referenced o n = s.referenced o (n + 1) := by
      have hcount : (s.objects o).refCount + 1 + UInt32.ofNat n =
          (s.objects o).refCount + UInt32.ofNat (n + 1) := by
        rw [UInt32.ofNat_add, UInt32.add_assoc, UInt32.add_comm 1]
        rfl
      simp [ObSys.referenced, ObSys.setObject, takeReference, obReferenceObject, hcount,
        Nat.add_assoc, Nat.add_comm]
    have halive : ((takeReference s o).objects o).alive = true := by
      simpa [takeReference, obReferenceObject] using ho
    rw [List.replicate_succ, List.cons_append, ← hnext]
    exact ⟨(and_iff_right ho).trans (ih halive).1, (ih halive).2⟩

/-- One object, `n` more references to it, and one of them dropped. -/
def referencesRun (n : ℕ) : List ObCall :=
  .allocObject false false :: (List.replicate n (.reference 0) ++ [.dereference 0])

theorem referencesRun_spec (n : ℕ) : ObSys.boot.LegalRun (referencesRun n) ∧
    ObSys.boot.run (referencesRun n) =
      dropReference ((obAllocObject .boot false false).referenced 0 n) 0 := by
  obtain ⟨hlegal, hrun⟩ := run_references (s := obAllocObject .boot false false) (o := 0) n
    [.dereference 0] rfl
  refine ⟨⟨trivial, hlegal.mpr ⟨?_, trivial⟩⟩, hrun⟩
  show 0 < 1 + n
  omega

end ImpossibleOs.Ob
