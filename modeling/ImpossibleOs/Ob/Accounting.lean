import ImpossibleOs.Ob.Model

/-!
The accounting invariant and what each store of the handle paths does to it.

`Acct counted s k` says that the tables are in order and, if `counted`, that the handle
counts and the reference counts agree with them when `k o` references to object `o`
are in flight, that is held by code that is still running. Between calls nothing is
in flight. The counts are 32 bits wide: `counted` is what a run has to earn by never
wrapping one, and the tables are in order without it.
-/

namespace ImpossibleOs.Ob

open Function List

/-! ### Counting entries -/

/-- The entry array, empty where it is NULL. -/
def HandleTable.slots (T : HandleTable) : List Entry := T.entries.getD []

def HandleTable.refs (T : HandleTable) (o : ℕ) : ℕ := T.slots.countP fun e => e.object == some o

def HandleTable.occupied (T : HandleTable) : ℕ := T.slots.countP fun e => e.object.isSome

def ObSys.refs (s : ObSys) (o : ℕ) : ℕ := ∑ t ∈ Finset.range s.nTables, (s.tables t).refs o

/-- Duplications that hold a pin on `o`. -/
def ObSys.pins (s : ObSys) (o : ℕ) : ℕ := s.pending.countP fun f => f.srcObj == o

theorem countP_set_of_some {p : Entry → Bool} {es : List Entry} {i : ℕ} {a e : Entry}
    (h : es[i]? = some a) :
    (es.set i e).countP p + (if p a then 1 else 0) = es.countP p + if p e then 1 else 0 := by
  obtain ⟨hi, rfl⟩ := List.getElem?_eq_some_iff.mp h
  rw [countP_set hi]
  have hle : (if p es[i] then 1 else 0) ≤ es.countP p := by
    split
    · rename_i hp
      exact countP_pos_iff.mpr ⟨es[i], getElem_mem hi, hp⟩
    · exact Nat.zero_le _
  omega

theorem countP_modify_congr {p : Entry → Bool} {f : Entry → Entry} (hf : ∀ e, p (f e) = p e)
    (es : List Entry) (i : ℕ) : (es.modify i f).countP p = es.countP p := by
  induction es generalizing i with
  | nil => simp
  | cons e es ih =>
    cases i with
    | zero => simp [countP_cons, hf]
    | succ i => simp [countP_cons, ih]

/-! ### The invariant -/

structure TableOk (T : HandleTable) : Prop where
  count : T.count = T.occupied
  slot0 : ∀ e, T.slots[0]? = some e → e.object = none
  limit : T.handleLimit ≤ handleTableAbsoluteMax
  cap : ∀ es, T.entries = some es → 0 < es.length ∧ es.length ≤ handleTableAbsoluteMax + 1

def ObSys.frees (s : ObSys) (o : ℕ) : ℕ := s.log.count (ObEvent.freed o)

/-- The account of one object, with `k` references to it in flight. -/
structure ObjectOk (s : ObSys) (k o : ℕ) : Prop where
  handles : (s.objects o).handleCount.toNat = s.refs o
  references : (s.objects o).refCount.toNat = s.refs o + (s.objects o).outside + s.pins o + k
  alive : (s.objects o).alive = true ↔ 0 < (s.objects o).refCount.toNat
  created : 0 < (s.objects o).refCount.toNat → o < s.nObjects
  freed : s.frees o = if o < s.nObjects ∧ (s.objects o).refCount.toNat = 0 then 1 else 0

/-- The accounts of the whole system, with `k` references in flight. -/
structure Acct (counted : Prop) (s : ObSys) (k : ℕ → ℕ) : Prop where
  tables : ∀ t, TableOk (s.tables t)
  unused : ∀ t, s.nTables ≤ t → (s.tables t).entries = none
  object : counted → ∀ o, ObjectOk s (k o) o

theorem ObjectOk.congr {s s' : ObSys} {k o : ℕ} (h : ObjectOk s k o)
    (hobj : s'.objects o = s.objects o) (hrefs : s'.refs o = s.refs o)
    (hpins : s'.pins o = s.pins o) (hn : s'.nObjects = s.nObjects)
    (hfrees : s'.frees o = s.frees o) : ObjectOk s' k o := by
  refine ⟨?_, ?_, ?_, ?_, ?_⟩
  · rw [hobj, hrefs]
    exact h.handles
  · rw [hobj, hrefs, hpins]
    exact h.references
  · rw [hobj]
    exact h.alive
  · rw [hobj, hn]
    exact h.created
  · rw [hfrees, hobj, hn]
    exact h.freed

/-- One reference to `o` in flight. -/
def oneRef (o : ℕ) : ℕ → ℕ := fun x => if x = o then 1 else 0

@[simp] theorem oneRef_self (o : ℕ) : oneRef o o = 1 := if_pos rfl

theorem oneRef_of_ne {o x : ℕ} (h : x ≠ o) : oneRef o x = 0 := if_neg h

/-! ### Projections of the updates -/

@[simp] theorem setObject_refs (s : ObSys) (o x : ℕ) (h : ObjectHeader) :
    (s.setObject o h).refs x = s.refs x := rfl

@[simp] theorem setObject_pins (s : ObSys) (o x : ℕ) (h : ObjectHeader) :
    (s.setObject o h).pins x = s.pins x := rfl

@[simp] theorem setTable_pins (s : ObSys) (t x : ℕ) (T : HandleTable) :
    (s.setTable t T).pins x = s.pins x := rfl

@[simp] theorem setObject_frees (s : ObSys) (o x : ℕ) (h : ObjectHeader) :
    (s.setObject o h).frees x = s.frees x := rfl

@[simp] theorem emit_refs (s : ObSys) (e : ObEvent) (x : ℕ) : (s.emit e).refs x = s.refs x := rfl

@[simp] theorem emit_pins (s : ObSys) (e : ObEvent) (x : ℕ) : (s.emit e).pins x = s.pins x := rfl

variable {counted : Prop} {s : ObSys} {k : ℕ → ℕ} {t : ℕ} {o : ℕ}

theorem refs_setTable (ht : t < s.nTables) (T : HandleTable) (o : ℕ) :
    (s.setTable t T).refs o + (s.tables t).refs o = s.refs o + T.refs o := by
  have hmem : t ∈ Finset.range s.nTables := Finset.mem_range.mpr ht
  have hcomp : (fun x => (update s.tables t T x).refs o) =
      update (fun x => (s.tables x).refs o) t (T.refs o) := by
    ext x
    by_cases hx : x = t
    · subst hx
      simp
    · simp [hx]
  unfold ObSys.refs
  simp only [ObSys.setTable_nTables, ObSys.setTable_tables, hcomp]
  rw [Finset.sum_update_of_mem hmem, ← Finset.add_sum_erase _ _ hmem,
    Finset.sdiff_singleton_eq_erase]
  ring

theorem refs_le (ht : t < s.nTables) (o : ℕ) : (s.tables t).refs o ≤ s.refs o :=
  Finset.single_le_sum (f := fun x => (s.tables x).refs o) (fun _ _ => Nat.zero_le _)
    (Finset.mem_range.mpr ht)

theorem Acct.uncounted {k' : ℕ → ℕ} (h : Acct counted s k) : Acct False s k' :=
  ⟨h.tables, h.unused, False.elim⟩

theorem Acct.lt_nTables (h : Acct counted s k) {es : List Entry}
    (hes : (s.tables t).entries = some es) : t < s.nTables := by
  by_contra hlt
  rw [h.unused t (by omega)] at hes
  cases hes

theorem Acct.entry_alive (h : Acct counted s k) {t i o : ℕ} {e : Entry}
    (he : (s.tables t).slots[i]? = some e) (ho : e.object = some o) :
    0 < s.refs o ∧ (counted → 0 < (s.objects o).refCount.toNat) := by
  have hmem : e ∈ (s.tables t).slots := mem_of_getElem? he
  have hpos : 0 < (s.tables t).refs o :=
    countP_pos_iff.mpr ⟨e, hmem, by simp [ho]⟩
  have ht : t < s.nTables := by
    cases hes : (s.tables t).entries with
    | none => simp [HandleTable.slots, hes] at hmem
    | some es => exact h.lt_nTables hes
  have hle := refs_le ht o
  refine ⟨by omega, fun hc => ?_⟩
  have href := (h.object hc o).references
  omega

/-! ### What a step leaves behind -/

/-- How often `on_close` ran for `o`. -/
def ObSys.closes (s : ObSys) (o : ℕ) : ℕ := s.log.count (.onClose o)

/-- `s'` differs from `s` by `gain` new and `loss` cleared entries for each object, with
`on_close` run as `ran` says. -/
structure Shift (s s' : ObSys) (gain loss ran : ℕ → ℕ) : Prop where
  refs : ∀ o, s'.refs o + loss o = s.refs o + gain o
  closes : ∀ o, s'.closes o = s.closes o + ran o
  hook : ∀ o, (s'.objects o).hasOnClose = (s.objects o).hasOnClose

/-- No entry appears or disappears. -/
def Quiet (s s' : ObSys) : Prop := Shift s s' 0 0 0

theorem Quiet.refl (s : ObSys) : Quiet s s := ⟨by simp, by simp, by simp⟩

theorem Shift.trans {s s' s'' : ObSys} {g l r g' l' r' : ℕ → ℕ} (h : Shift s s' g l r)
    (h' : Shift s' s'' g' l' r') : Shift s s'' (g + g') (l + l') (r + r') := by
  refine ⟨fun o => ?_, fun o => ?_, fun o => (h'.hook o).trans (h.hook o)⟩
  · have h₁ := h.refs o
    have h₂ := h'.refs o
    simp only [Pi.add_apply]
    omega
  · rw [h'.closes o, h.closes o, Pi.add_apply]
    omega

theorem Quiet.trans {s s' s'' : ObSys} (h : Quiet s s') (h' : Quiet s' s'') : Quiet s s'' := by
  have := Shift.trans h h'
  simpa [Quiet] using this

theorem Shift.after_quiet {s s' s'' : ObSys} {g l r : ℕ → ℕ} (h : Quiet s s')
    (h' : Shift s' s'' g l r) : Shift s s'' g l r := by
  simpa using Shift.trans h h'

theorem Shift.then_quiet {s s' s'' : ObSys} {g l r : ℕ → ℕ} (h : Shift s s' g l r)
    (h' : Quiet s' s'') : Shift s s'' g l r := by
  simpa using Shift.trans h h'

theorem refs_setTable_same {T : HandleTable} (hrefs : ∀ o, T.refs o = (s.tables t).refs o) (o : ℕ) :
    (s.setTable t T).refs o = s.refs o := by
  unfold ObSys.refs
  refine Finset.sum_congr rfl fun x _ => ?_
  by_cases hx : x = t
  · subst hx
    simpa using hrefs o
  · simp [hx]

theorem Acct.setTable (h : Acct counted s k) {T : HandleTable}
    (hT : TableOk T) (hrefs : ∀ o, T.refs o = (s.tables t).refs o)
    (hnone : (s.tables t).entries = none → T.entries = none) :
    Acct counted (s.setTable t T) k ∧ Quiet s (s.setTable t T) := by
  have hsame := refs_setTable_same hrefs
  refine ⟨⟨fun x => ?_, fun x hx => ?_, fun hc o => ?_⟩,
    ⟨fun o => by simp [hsame], fun o => by simp [ObSys.closes], fun o => rfl⟩⟩
  · by_cases hxt : x = t
    · subst hxt
      simpa using hT
    · simpa [hxt] using h.tables x
  · by_cases hxt : x = t
    · subst hxt
      simpa using hnone (h.unused x hx)
    · simpa [hxt] using h.unused x hx
  · exact (h.object hc o).congr rfl (hsame o) rfl rfl rfl

/-! ### References -/

theorem Acct.setObject {k k' : ℕ → ℕ} (h : Acct counted s k) {hdr : ObjectHeader}
    (hk : ∀ x, x ≠ o → k' x = k x) (ho : counted → ObjectOk (s.setObject o hdr) (k' o) o) :
    Acct counted (s.setObject o hdr) k' := by
  refine ⟨h.tables, h.unused, fun hc x => ?_⟩
  by_cases hx : x = o
  · exact hx ▸ ho hc
  · rw [hk x hx]
    exact (h.object hc x).congr (by simp [hx]) rfl rfl rfl rfl

theorem Quiet.setObject {hdr : ObjectHeader}
    (hook : hdr.hasOnClose = (s.objects o).hasOnClose) : Quiet s (s.setObject o hdr) := by
  refine ⟨fun x => rfl, fun x => rfl, fun x => ?_⟩
  by_cases hx : x = o
  · subst hx
    simpa using hook
  · simp [hx]

theorem toNat_add_one {x : UInt32} (h : x.toNat + 1 < 2 ^ 32) : (x + 1).toNat = x.toNat + 1 := by
  rw [UInt32.toNat_add]
  exact Nat.mod_eq_of_lt h

theorem toNat_sub_one {x : UInt32} (h : 0 < x.toNat) : (x - 1).toNat = x.toNat - 1 :=
  UInt32.toNat_sub_of_le x 1 (UInt32.le_iff_toNat_le.mpr h)

theorem Acct.reference (h : Acct counted s k) (ho : counted → 0 < (s.objects o).refCount.toNat)
    (hroom : counted → (s.objects o).refCount.toNat + 1 < 2 ^ 32) :
    Acct counted (obReferenceObject s o) (k + oneRef o) ∧ Quiet s (obReferenceObject s o) := by
  refine ⟨h.setObject (fun x hx => by simp [oneRef_of_ne hx]) fun hc => ?_, Quiet.setObject rfl⟩
  have hobj := h.object hc o
  have hrefs := hobj.references
  have hpos := ho hc
  have hfreed := hobj.freed
  rw [if_neg (by omega)] at hfreed
  refine ⟨?_, ?_, ?_, ?_, ?_⟩
  all_goals simp only [ObSys.setObject_objects, update_self, setObject_refs, setObject_pins,
    setObject_frees, toNat_add_one (hroom hc), Pi.add_apply, oneRef_self]
  · exact hobj.handles
  · omega
  · exact iff_of_true (hobj.alive.mpr hpos) (Nat.succ_pos _)
  · exact fun _ => hobj.created hpos
  · simpa using hfreed

theorem Acct.dereference {k k' : ℕ → ℕ} (h : Acct counted s k) (hk : k = k' + oneRef o) :
    Acct counted (obDereferenceObject s o) k' ∧ Quiet s (obDereferenceObject s o) := by
  subst hk
  have hkx : ∀ x, x ≠ o → k' x = (k' + oneRef o) x := fun x hx => by simp [oneRef_of_ne hx]
  have hrefs : counted → (s.objects o).refCount.toNat =
      s.refs o + (s.objects o).outside + s.pins o + (k' o + 1) := fun hc => by
    simpa using (h.object hc o).references
  have hfreed : counted → s.frees o = 0 := fun hc => by
    rw [(h.object hc o).freed, if_neg (by have := hrefs hc; omega)]
  have hlt : counted → o < s.nObjects := fun hc =>
    (h.object hc o).created (by have := hrefs hc; omega)
  unfold obDereferenceObject
  dsimp only
  split
  · rename_i hone
    rw [hone, UInt32.toNat_one] at hrefs
    split
    · -- a permanent object gets its standing reference back
      refine ⟨h.setObject hkx fun hc => ⟨?_, ?_, ?_, ?_, ?_⟩, Quiet.setObject rfl⟩
      all_goals simp only [ObSys.setObject_objects, update_self, setObject_refs, setObject_pins,
        setObject_frees, UInt32.toNat_one]
      · exact (h.object hc o).handles
      · have := hrefs hc
        omega
      · exact iff_of_true ((h.object hc o).alive.mpr (by rw [hone]; decide)) Nat.one_pos
      · exact fun _ => hlt hc
      · simpa using hfreed hc
    · let s₁ := s.setObject o { s.objects o with refCount := 0, alive := false }
      have hq : Quiet s s₁ := Quiet.setObject rfl
      refine ⟨⟨h.tables, h.unused, fun hc x => ?_⟩, ⟨hq.refs, fun x => ?_, hq.hook⟩⟩
      · by_cases hx : x = o
        · subst hx
          refine ⟨?_, ?_, ?_, ?_, ?_⟩
          · simpa using (h.object hc x).handles
          · have hzero : s.refs x + (s.objects x).outside + s.pins x + k' x = 0 := by
              have := hrefs hc
              omega
            simpa using hzero.symm
          · simp
          · simp
          · have hold := hfreed hc
            simp only [ObSys.frees] at hold
            simp [ObSys.emit, ObSys.frees, hlt hc, hold]
        · rw [hkx x hx]
          refine (h.object hc x).congr (by simp [hx]) rfl rfl rfl ?_
          simp [ObSys.emit, ObSys.frees, Ne.symm hx]
      · simp [ObSys.closes, ObSys.emit]
  · rename_i hne
    have hmore : counted → 1 < (s.objects o).refCount.toNat := fun hc => by
      have hne' : (s.objects o).refCount.toNat ≠ 1 := fun heq => hne (UInt32.toNat_inj.mp heq)
      have := hrefs hc
      omega
    refine ⟨h.setObject hkx fun hc => ?_, Quiet.setObject rfl⟩
    have hsub := toNat_sub_one ((Nat.zero_lt_one).trans (hmore hc))
    have hmore' := hmore hc
    have hrefs' := hrefs hc
    refine ⟨?_, ?_, ?_, ?_, ?_⟩
    all_goals simp only [ObSys.setObject_objects, update_self, setObject_refs, setObject_pins,
      setObject_frees, hsub]
    · exact (h.object hc o).handles
    · omega
    · exact iff_of_true ((h.object hc o).alive.mpr (by omega)) (by omega)
    · exact fun _ => hlt hc
    · rw [hfreed hc, if_neg]
      exact fun hbad => absurd hbad.2 (by omega)

end ImpossibleOs.Ob
