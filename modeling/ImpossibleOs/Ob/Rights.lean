import ImpossibleOs.Ob.Safety

/-!
Duplication and inheritance never add rights.

Every handle ever created has a number and a recorded grant; an open handle's
`granted_access` is its recorded grant. A derivation step goes from the handle
that was duplicated or inherited to the new one, and along any chain of such steps
the grant only loses bits.
-/

namespace ImpossibleOs.Ob

open Function List Option

/-- The bits of `x` are among the bits of `y`. -/
def Within (x y : UInt32) : Prop := x &&& y = x

theorem Within.refl (x : UInt32) : Within x x := UInt32.and_self

theorem Within.trans {x y z : UInt32} (h : Within x y) (h' : Within y z) : Within x z := by
  unfold Within at *
  rw [← h, UInt32.and_assoc, h']

theorem within_and_left (x y : UInt32) : Within (x &&& y) y := by
  rw [Within, UInt32.and_assoc, UInt32.and_self]

theorem requestCeiling_within (granted desired options : UInt32) :
    Within (requestCeiling granted desired options) granted := by
  unfold requestCeiling
  split
  · exact Within.refl granted
  · split
    · exact Within.refl granted
    · exact within_and_left desired granted

/-- What is known about the grants of all handles. -/
structure Rights (s : ObSys) : Prop where
  entry : ∀ (t i : ℕ) (e : Entry), (s.tables t).slots[i]? = some e → e.object ≠ none →
    s.grants[e.hid]? = some e.grantedAccess
  frame : ∀ f ∈ s.pending, ∃ g, s.grants[f.srcHid]? = some g ∧ Within f.requestCeiling g
  derived : ∀ a b, .derived a b ∈ s.log →
    ∃ g g', s.grants[a]? = some g ∧ s.grants[b]? = some g' ∧ Within g' g

/-! ### Steps that create no handle -/

/-- Every open handle of `s'` is one of `s`, and no derivation is added. -/
structure Weaker (s s' : ObSys) : Prop where
  entry : ∀ (t i : ℕ) (e' : Entry), (s'.tables t).slots[i]? = some e' → e'.object ≠ none →
    ∃ (t₀ i₀ : ℕ) (e : Entry), (s.tables t₀).slots[i₀]? = some e ∧ e.object ≠ none ∧
      e.hid = e'.hid ∧
      e.grantedAccess = e'.grantedAccess
  grants : s'.grants = s.grants
  pending : ∀ f ∈ s'.pending, f ∈ s.pending
  derived : ∀ a b, .derived a b ∈ s'.log → .derived a b ∈ s.log

theorem Weaker.of_tables {s s' : ObSys} (htables : s'.tables = s.tables)
    (hgrants : s'.grants = s.grants) (hpending : s'.pending = s.pending)
    (hlog : ∀ a b, .derived a b ∈ s'.log → .derived a b ∈ s.log) : Weaker s s' :=
  ⟨fun t i e he hobj => ⟨t, i, e, htables ▸ he, hobj, rfl, rfl⟩, hgrants,
    fun _ hf => hpending ▸ hf, hlog⟩

theorem Weaker.refl (s : ObSys) : Weaker s s := Weaker.of_tables rfl rfl rfl fun _ _ => id

theorem Weaker.trans {s s' s'' : ObSys} (h : Weaker s s') (h' : Weaker s' s'') : Weaker s s'' := by
  refine ⟨fun t i e he hobj => ?_, h'.grants.trans h.grants,
    fun f hf => h.pending f (h'.pending f hf),
    fun a b hab => h.derived a b (h'.derived a b hab)⟩
  obtain ⟨t₁, i₁, e₁, he₁, hobj₁, hhid₁, hacc₁⟩ := h'.entry t i e he hobj
  obtain ⟨t₂, i₂, e₂, he₂, hobj₂, hhid₂, hacc₂⟩ := h.entry t₁ i₁ e₁ he₁ hobj₁
  exact ⟨t₂, i₂, e₂, he₂, hobj₂, hhid₂.trans hhid₁, hacc₂.trans hacc₁⟩

theorem Rights.weaken {s s' : ObSys} (h : Rights s) (hw : Weaker s s') : Rights s' := by
  refine ⟨fun t i e he hobj => ?_, fun f hf => ?_, fun a b hab => ?_⟩
  · obtain ⟨t₀, i₀, e₀, he₀, hobj₀, hhid, hacc⟩ := hw.entry t i e he hobj
    rw [hw.grants, ← hhid, ← hacc]
    exact h.entry t₀ i₀ e₀ he₀ hobj₀
  · rw [hw.grants]
    exact h.frame f (hw.pending f hf)
  · rw [hw.grants]
    exact h.derived a b (hw.derived a b hab)

variable {s : ObSys} {T : HandleTable} {g : UInt32}

theorem weaker_setTable {t : ℕ}
    (h : ∀ (i : ℕ) (e' : Entry), T.slots[i]? = some e' → e'.object ≠ none →
      ∃ e : Entry, (s.tables t).slots[i]? = some e ∧ e.object ≠ none ∧ e.hid = e'.hid ∧
        e.grantedAccess = e'.grantedAccess) : Weaker s (s.setTable t T) := by
  refine ⟨fun t' i e he hobj => ?_, rfl, fun _ hf => hf, fun _ _ hab => hab⟩
  by_cases ht : t' = t
  · subst ht
    obtain ⟨e₀, he₀, hrest⟩ := h i e (by simpa using he) hobj
    exact ⟨t', i, e₀, he₀, hrest⟩
  · exact ⟨t', i, e, by simpa [ht] using he, hobj, rfl, rfl⟩

theorem weaker_setObject (s : ObSys) (o : ℕ) (hdr : ObjectHeader) : Weaker s (s.setObject o hdr) :=
  Weaker.of_tables rfl rfl rfl fun _ _ => id

theorem weaker_emit {ev : ObEvent} (h : ∀ a b, ev ≠ .derived a b) : Weaker s (s.emit ev) := by
  refine Weaker.of_tables rfl rfl rfl fun a b hab => ?_
  rcases mem_cons.mp hab with heq | hmem
  · exact absurd heq.symm (h a b)
  · exact hmem

theorem weaker_dereference (s : ObSys) (o : ℕ) : Weaker s (obDereferenceObject s o) := by
  unfold obDereferenceObject
  dsimp only
  split
  · split
    · exact weaker_setObject s o _
    · exact (weaker_setObject s o _).trans (weaker_emit (by simp))
  · exact weaker_setObject s o _

theorem weaker_clearSlot (s : ObSys) (t i o : ℕ) : Weaker s (clearSlot s t i o) := by
  have htable : Weaker s (s.setTable t (clearedTable (s.tables t) i)) := by
    refine weaker_setTable fun j e he hobj => ⟨e, ?_, hobj, rfl, rfl⟩
    by_cases hj : i = j
    · subst hj
      obtain ⟨hlt, rfl⟩ := List.getElem?_eq_some_iff.mp he
      simp [clearedTable, HandleTable.slots, freeEntry] at hobj
    · simpa [clearedTable, HandleTable.slots, getElem?_set_ne hj] using he
  refine Weaker.trans ?_ (weaker_dereference _ o)
  unfold dropEntry
  dsimp only
  generalize (if 0 < (s.objects o).handleCount then _ else _ : ObjectHeader) = hdr
  have hobject := htable.trans (weaker_setObject _ o hdr)
  split
  · exact hobject.trans (weaker_emit (by simp))
  · exact hobject

theorem weaker_freeHandle (s : ObSys) (t : ℕ) (handle : ℤ) :
    Weaker s (obpFreeHandle s t handle).1 := by
  unfold obpFreeHandle
  split
  · exact Weaker.refl s
  · split
    · exact Weaker.refl s
    · exact weaker_clearSlot s t _ _

theorem weaker_unprotect (s : ObSys) (t i : ℕ) : Weaker s (unprotectSlot s t i) := by
  refine weaker_setTable fun j e he hobj => ?_
  simp only [HandleTable.slots, getD_some, getElem?_modify] at he
  obtain ⟨a, ha, rfl⟩ := map_eq_some_iff.mp he
  refine ⟨a, ha, ?_, ?_, ?_⟩
  · split at hobj <;> exact hobj
  · split <;> rfl
  · split <;> rfl

theorem weaker_destroy (s : ObSys) (t : ℕ) : Weaker s (obHandleTableDestroy s t) := by
  unfold obHandleTableDestroy
  split
  · exact Weaker.refl s
  · rename_i es hes
    have hloop : Weaker s ((List.range es.length).foldl (fun s i => destroySlot s t i) s) := by
      refine Loop.foldl_range (fun _ s' => Weaker s s') (Weaker.refl s) fun i _ s₁ hw => ?_
      refine hw.trans ?_
      unfold destroySlot
      split
      · exact Weaker.refl s₁
      · split
        · exact Weaker.refl s₁
        · exact (weaker_unprotect s₁ t i).trans (weaker_freeHandle _ t _)
    refine hloop.trans (weaker_setTable fun j e he _ => ?_)
    simp [HandleTable.slots] at he

/-! ### Steps that create handles -/

theorem getElem?_append_of_some {l l' : List UInt32} {i : ℕ} (h : l[i]? = some g) :
    (l ++ l')[i]? = some g := by
  obtain ⟨hlt, rfl⟩ := List.getElem?_eq_some_iff.mp h
  rw [getElem?_append_left hlt]
  exact getElem?_eq_getElem hlt

theorem Rights.extend {s s' : ObSys} (h : Rights s) (hgrants : s'.grants = s.grants ++ [g])
    (hentry : ∀ (t i : ℕ) (e' : Entry), (s'.tables t).slots[i]? = some e' → e'.object ≠ none →
      (e'.hid = s.grants.length ∧ e'.grantedAccess = g) ∨ (s.tables t).slots[i]? = some e')
    (hpending : s'.pending = s.pending) (hlog : s'.log = s.log) : Rights s' := by
  refine ⟨fun t i e he hobj => ?_, fun f hf => ?_, fun a b hab => ?_⟩
  · rw [hgrants]
    rcases hentry t i e he hobj with ⟨hhid, hacc⟩ | hold
    · rw [hhid, hacc]
      exact getElem?_concat_length
    · exact getElem?_append_of_some (h.entry t i e hold hobj)
  · obtain ⟨x, hx, hw⟩ := h.frame f (hpending ▸ hf)
    exact ⟨x, hgrants ▸ getElem?_append_of_some hx, hw⟩
  · obtain ⟨x, y, hx, hy, hw⟩ := h.derived a b (hlog ▸ hab)
    exact ⟨x, y, hgrants ▸ getElem?_append_of_some hx, hgrants ▸ getElem?_append_of_some hy, hw⟩

theorem Rights.fillSlot (h : Rights s) {t i o : ℕ} (access attrs : UInt32)
    (es : List Entry) (hes : (s.tables t).entries = some es) :
    Rights (fillSlot s t i o access attrs) := by
  refine h.extend (g := access) rfl (fun t' j e he hobj => ?_) rfl rfl
  rw [fillSlot_tables hes] at he
  by_cases ht : t' = t
  · subst ht
    rw [slots_of_entries hes]
    simp only [update_self, HandleTable.slots, getD_some] at he
    by_cases hj : i = j
    · subst hj
      obtain ⟨hlt, rfl⟩ := List.getElem?_eq_some_iff.mp he
      simp
    · exact .inr (by rwa [getElem?_set_ne hj] at he)
  · exact .inr (by simpa [ht] using he)

theorem Rights.emitDerived (h : Rights s) {a b : ℕ} (g g' : UInt32)
    (ha : s.grants[a]? = some g) (hb : s.grants[b]? = some g') (hw : Within g' g) :
    Rights (s.emit (.derived a b)) := by
  refine ⟨h.entry, h.frame, fun x y hxy => ?_⟩
  rcases mem_cons.mp hxy with heq | hmem
  · cases heq
    exact ⟨g, g', ha, hb, hw⟩
  · exact h.derived x y hmem

theorem weaker_grow {t : ℕ} (h : Grown (s.tables t) T) : Weaker s (s.setTable t T) :=
  weaker_setTable fun _ e he hobj => ⟨e, (h.slots hobj).mp he, hobj, rfl, rfl⟩

theorem Rights.allocate {k : ℕ → ℕ} (h : Rights s) (hacct : Acct False s k) (t o : ℕ)
    (access attrs : UInt32) (cbs : List (UInt32 → UInt32)) (openOk : Bool) (growOk : ℕ → Bool) :
    Rights (obpAllocateHandleInner s t o access attrs cbs openOk growOk).1 := by
  rcases obpAllocateHandleInner_cases hacct (Prod.eta (obpAllocateHandleInner s t o access attrs
    cbs openOk growOk)).symm with ⟨-, warned, heq⟩ |
    ⟨-, granted, T, es, i, a, -, hT, hes, -, -, -, -, heq⟩
  · rw [heq]
    exact h.weaken (weaker_setTable fun i e he hobj => ⟨e, he, hobj, rfl, rfl⟩)
  · rw [heq]
    exact (h.weaken (weaker_grow hT)).fillSlot _ _ es (by simpa using hes)

theorem Rights.inheritSlot (h : Rights s) (parent child i : ℕ)
    {es : List Entry} (hes : (s.tables child).entries = some es) :
    Rights (inheritSlot s parent child i) ∧
      ∃ es', ((Ob.inheritSlot s parent child i).tables child).entries = some es' := by
  rcases inheritSlot_cases s parent child i with hsame | ⟨e, o, hget, hobj, -, heq⟩
  · rw [hsame]
    exact ⟨h, es, hes⟩
  · rw [heq]
    refine ⟨?_, ?_⟩
    · have hsrc := h.entry parent i e hget (by simp [hobj])
      refine (h.fillSlot (i := i) (o := o) e.grantedAccess e.attributes es hes).emitDerived
        _ _ (getElem?_append_of_some hsrc) ?_ (Within.refl _)
      exact getElem?_concat_length
    · rw [ObSys.emit_tables, fillSlot_tables hes, update_self]
      exact ⟨_, rfl⟩

theorem Rights.inherit {k : ℕ → ℕ} (h : Rights s) (hacct : Acct False s k) (parent child : ℕ)
    (growOk : ℕ → Bool) : Rights (obHandleTableInherit s parent child growOk) := by
  unfold obHandleTableInherit
  split
  · rename_i pes ces hpes hces
    dsimp only
    split
    · exact h
    · have hC := growToward_grown growOk (inheritBound pes) (inheritBound pes)
        (hacct.tables child) hces
      have hgrown := h.weaken (weaker_grow hC)
      obtain ⟨es, hes⟩ := hC.entries
      refine (Loop.foldl_range (fun _ s' => Rights s' ∧ ∃ es', (s'.tables child).entries = some es')
        ⟨hgrown, es, by simpa using hes⟩ ?_).1
      rintro i - s₁ ⟨hs₁, es₁, hes₁⟩
      exact hs₁.inheritSlot parent child i hes₁
  · exact h

theorem Rights.duplicateBegin (h : Rights s) (srcTable : ℕ) (srcHandle : ℤ)
    (dstTable : ℕ) (desiredAccess attrs options : UInt32) :
    Rights (ntDuplicateObjectBegin s srcTable srcHandle dstTable desiredAccess attrs
      options).1 := by
  unfold ntDuplicateObjectBegin
  split
  · exact h
  · rename_i i o e hlook
    split
    · exact h
    · obtain ⟨-, hget, hobj⟩ := obpLookupHandle_eq_some.mp hlook
      have hsrc := h.entry srcTable i e hget (by simp [hobj])
      refine ⟨h.entry, fun f hf => ?_, h.derived⟩
      rcases mem_cons.mp hf with rfl | hf
      · exact ⟨e.grantedAccess, hsrc, requestCeiling_within _ _ _⟩
      · exact h.frame f hf

theorem weaker_capGrant {t i : ℕ} {e : Entry} {ceiling : UInt32}
    (hget : (s.tables t).slots[i]? = some e) (hobj : e.object ≠ none)
    (hw : Within e.grantedAccess ceiling) : Weaker s (capGrant s t ((i : ℤ) * 4) ceiling) := by
  have hslots := capGrant_slots ceiling hget hobj
  refine ⟨fun t' j e' he' hobj' => ?_, ?_, ?_, ?_⟩
  · rw [hslots] at he'
    split at he'
    · cases he'
      exact ⟨t, i, e, hget, hobj, rfl, hw.symm⟩
    · exact ⟨t', j, e', he', hobj', rfl, rfl⟩
  all_goals
    unfold capGrant
    split
  · rfl
  · rfl
  · exact fun _ => id
  · exact fun _ => id
  · exact fun _ _ => id
  · exact fun _ _ => id

theorem Rights.dupFinish {f : DupFrame} (cbs : List (UInt32 → UInt32)) (openOk : Bool)
    (growOk : ℕ → Bool) (h : Rights s) (hacct : Acct False s (oneRef f.srcObj))
    (hg : s.grants[f.srcHid]? = some g) (hw : Within f.requestCeiling g) :
    Rights (dupFinish s f cbs openOk growOk).1 := by
  rcases dupFinish_cases cbs openOk growOk hacct False.elim with
    ⟨s₁, hres, -, -, hs₁⟩ | ⟨s₁, s₂, access, j, e, hplaced, hres⟩
  · rw [hres]
    refine Rights.weaken ?_ (weaker_dereference s₁ _)
    rcases hs₁ with rfl | ⟨access, halloc⟩
    · exact h
    · have hrights := h.allocate hacct f.dstTable f.srcObj access f.attrs [] openOk growOk
      rwa [halloc] at hrights
  · rw [hres]
    refine Rights.weaken ?_ (weaker_dereference _ _)
    obtain ⟨handle, openOk', growOk', hne, halloc, hal, rfl⟩ := hplaced.allocated
    obtain ⟨-, hgrants, i, rfl, hnew, -⟩ := hal.created hne
    have hs₁ : Rights s₁ := by
      have := h.allocate hacct f.dstTable f.srcObj (access &&& f.requestCeiling) f.attrs
        [] openOk' growOk'
      rwa [halloc] at this
    have hcap : Weaker s₁ (capGrant s₁ f.dstTable ((i : ℤ) * 4) f.requestCeiling) :=
      weaker_capGrant hnew (by simp) (within_and_left _ _)
    have hfinal : Weaker s₁ (if f.options &&& duplicateCloseSource ≠ 0 then
        clearSlot (capGrant s₁ f.dstTable ((i : ℤ) * 4) f.requestCeiling) f.srcTable j f.srcObj
        else capGrant s₁ f.dstTable ((i : ℤ) * 4) f.requestCeiling) := by
      split
      · exact hcap.trans (weaker_clearSlot _ _ _ _)
      · exact hcap
    refine (hs₁.weaken hfinal).emitDerived g (access &&& f.requestCeiling) ?_ ?_
      ((within_and_left _ _).trans hw)
    · rw [hfinal.grants, hgrants]
      exact getElem?_append_of_some hg
    · rw [hfinal.grants, hgrants]
      exact getElem?_concat_length

/-! ### Runs -/

theorem step_rights {c : ObCall} (h : Rights s) (hacct : Acct False s 0) : Rights (s.step c) := by
  cases c with
  | tableInit quota =>
    refine h.weaken ⟨fun t i e he hobj => ?_, rfl, fun _ hf => hf, fun _ _ hab => hab⟩
    simp only [ObSys.step, obHandleTableInit] at he
    by_cases ht : t = s.nTables
    · subst ht
      simp only [update_self, HandleTable.slots, getD_some] at he
      rw [eq_of_mem_replicate (mem_of_getElem? he)] at hobj
      exact absurd rfl hobj
    · exact ⟨t, i, e, by simpa [ht] using he, hobj, rfl, rfl⟩
  | allocObject permanent hasOnClose => exact ⟨h.entry, h.frame, h.derived⟩
  | reference o => exact ⟨h.entry, h.frame, h.derived⟩
  | dereference o =>
    exact h.weaken ((weaker_setObject s o _).trans (weaker_dereference _ o))
  | makeTemporary o => exact ⟨h.entry, h.frame, h.derived⟩
  | allocateHandle t o access attrs cbs openOk growOk =>
    exact h.allocate hacct t o access attrs cbs openOk growOk
  | freeHandle t handle => exact h.weaken (weaker_freeHandle s t handle)
  | duplicateBegin srcTable srcHandle dstTable desiredAccess attrs options =>
    exact h.duplicateBegin srcTable srcHandle dstTable desiredAccess attrs options
  | duplicateFinish n cbs openOk growOk =>
    unfold ObSys.step ntDuplicateObjectFinish
    dsimp only
    split
    · exact h
    · rename_i f hf
      obtain ⟨g, hg, hw⟩ := h.frame f (mem_of_getElem? hf)
      have herase : Rights (s.setPending (s.pending.eraseIdx n)) :=
        ⟨h.entry, fun f hf => h.frame f (mem_of_mem_eraseIdx hf), h.derived⟩
      exact herase.dupFinish cbs openOk growOk (hacct.takeFrame hf).1 hg hw
  | inherit parent child growOk => exact h.inherit hacct parent child growOk
  | destroy t => exact h.weaken (weaker_destroy s t)
  | setLimit t newLimit =>
    exact h.weaken (weaker_setTable fun i e he hobj => ⟨e, he, hobj, rfl, rfl⟩)

theorem run_rights {cs : List ObCall} (h : Rights s) (hacct : Acct False s 0)
    (hcs : s.LegalRun cs) : Rights (s.run cs) := by
  induction cs generalizing s with
  | nil => exact h
  | cons c cs ih => exact ih (step_rights h hacct) (step_acct hacct hcs.1 False.elim).1 hcs.2

/-- Handle `b` was duplicated or inherited from handle `a`. -/
def ObSys.Derived (s : ObSys) (a b : ℕ) : Prop := .derived a b ∈ s.log

theorem Rights.chain (h : Rights s) {a b : ℕ} (hab : Relation.ReflTransGen s.Derived a b)
    {g' : UInt32} (hb : s.grants[b]? = some g') : ∃ g, s.grants[a]? = some g ∧ Within g' g := by
  induction hab generalizing g' with
  | refl => exact ⟨g', hb, Within.refl g'⟩
  | tail _ hstep ih =>
    obtain ⟨x, y, hx, hy, hw⟩ := h.derived _ _ hstep
    rw [hb] at hy
    cases hy
    obtain ⟨g, hg, hw'⟩ := ih hx
    exact ⟨g, hg, hw.trans hw'⟩

/-- In every state of a legal run, an open handle has the access it was created with, and a
handle derived from another by any chain of duplications and inheritances, with any callbacks
in between, has no right that the other was created without. -/
theorem derived_rights_attenuate {cs : List ObCall} (hcs : ObSys.boot.LegalRun cs) :
    (∀ (t i : ℕ) (e : Entry), ((ObSys.boot.run cs).tables t).slots[i]? = some e →
      e.object ≠ none → (ObSys.boot.run cs).grants[e.hid]? = some e.grantedAccess) ∧
    ∀ (a : ℕ) (t i : ℕ) (e : Entry), ((ObSys.boot.run cs).tables t).slots[i]? = some e →
      e.object ≠ none → Relation.ReflTransGen (ObSys.boot.run cs).Derived a e.hid →
      ∃ g, (ObSys.boot.run cs).grants[a]? = some g ∧ e.grantedAccess &&& g = e.grantedAccess := by
  have hboot : Rights ObSys.boot := by
    refine ⟨fun t i e he _ => ?_, ?_, ?_⟩
    · simp [ObSys.boot, noTable, HandleTable.slots] at he
    · simp [ObSys.boot]
    · simp [ObSys.boot]
  have hrights := run_rights hboot boot_acct hcs
  exact ⟨hrights.entry, fun a t i e he hobj hab => hrights.chain hab (hrights.entry t i e he hobj)⟩

/-- A handle with access 7, a duplicate asking for 3, and a child process that inherits it. -/
def delegationRun : List ObCall :=
  [.tableInit 64, .tableInit 64, .tableInit 64, .allocObject false false,
    .allocateHandle 0 0 7 0 [] true fun _ => true, .duplicateBegin 0 4 1 0x100003 2 0,
    .duplicateFinish 0 [] true fun _ => true, .inherit 1 2 fun _ => true]

theorem derived_rights_attenuate_delegationRun :
    ((ObSys.boot.run delegationRun).tables 2).slots[1]? = some ⟨some 0, 3, 2, 2⟩ ∧
      ∃ g, (ObSys.boot.run delegationRun).grants[0]? = some g ∧ 3 &&& g = 3 := by
  have hquota : 64 ≤ handleTableAbsoluteMax := by decide
  have hempty : ∀ e ∈ ((ObSys.boot.run (delegationRun.take 7)).tables 2).slots,
      e.object = none := by
    decide
  have hlegal : ObSys.boot.LegalRun delegationRun :=
    ⟨hquota, hquota, hquota, trivial, rfl, trivial, trivial, hempty, trivial⟩
  have hfirst : (ObSys.boot.run delegationRun).Derived 0 1 := by
    show ObEvent.derived 0 1 ∈ (ObSys.boot.run delegationRun).log
    decide
  have hsecond : (ObSys.boot.run delegationRun).Derived 1 2 := by
    show ObEvent.derived 1 2 ∈ (ObSys.boot.run delegationRun).log
    decide
  have hslot : ((ObSys.boot.run delegationRun).tables 2).slots[1]? = some ⟨some 0, 3, 2, 2⟩ := by
    decide
  exact ⟨hslot, (derived_rights_attenuate hlegal).2 0 2 1 ⟨some 0, 3, 2, 2⟩ hslot (by simp)
    ((Relation.ReflTransGen.single hfirst).tail hsecond)⟩

end ImpossibleOs.Ob
