import ImpossibleOs.Ixfs.Journal

/-!
The scan of the journal by recovery.

The scan goes round the slots behind the header until it stands at the head of
the header on the device.
-/

namespace ImpossibleOs.Ixfs

open Option List UInt32

/-- Only slots of the journal are read. -/
def Confined (blocks : UInt32) (slots : List UInt32) : Prop := ∀ slot ∈ slots, slot < blocks

/-- There is nothing to scan, or the scan starts in the journal and passes the head. -/
def ScanOk (blocks head tail : UInt32) : Prop :=
  tail = head ∨ tail < blocks ∧ (head = 1 ∨ 1 < head ∧ head < blocks)

variable {start blocks head slot : UInt32} {outcome : ℕ → ReplayOutcome} {turn : ℕ}
  {dev : UInt32 → Block}

def turnsTo (blocks head slot : UInt32) : ℕ :=
  if slot.toNat ≤ head.toNat then head.toNat - slot.toNat
  else blocks.toNat - slot.toNat + (head.toNat - 1)

theorem turnsTo_next (hslot : slot < blocks) (hne : slot ≠ head)
    (hhead : head = 1 ∨ 1 < head ∧ head < blocks) :
    turnsTo blocks head (slotAfter blocks slot) < turnsTo blocks head slot ∧
      (slotAfter blocks slot = head ∨ slotAfter blocks slot < blocks) := by
  rw [lt_iff_toNat_lt] at hslot
  have hne' : slot.toNat ≠ head.toNat := fun h => hne (UInt32.toNat_inj.mp h)
  have hhead' : head.toNat = 1 ∨ 1 < head.toNat ∧ head.toNat < blocks.toNat := by
    rcases hhead with rfl | ⟨h1, h2⟩
    · exact .inl rfl
    · exact .inr ⟨UInt32.lt_iff_toNat_lt.mp h1, UInt32.lt_iff_toNat_lt.mp h2⟩
  unfold turnsTo
  rcases Nat.lt_or_ge (slot.toNat + 1) blocks.toNat with hlt | hge
  · rw [lt_iff_toNat_lt, slotAfter_of_lt hlt]
    refine ⟨?_, .inr hlt⟩
    split <;> split <;> omega
  · rw [slotAfter_of_last (by omega), toNat_one]
    refine ⟨?_, ?_⟩
    · rw [if_pos (by omega)]
      split <;> omega
    · rcases hhead with rfl | ⟨h1, h2⟩
      · exact .inl rfl
      · exact .inr (UInt32.lt_trans h1 h2)

theorem recoverLoop_ends (hhead : head = 1 ∨ 1 < head ∧ head < blocks) {n : ℕ}
    (hn : turnsTo blocks head slot < n) (hslot : slot = head ∨ slot < blocks) :
    ∃ r, recoverLoop start blocks head outcome n turn slot dev = some r ∧ Confined blocks r.2 := by
  induction n generalizing slot turn dev with
  | zero => omega
  | succ n ih =>
    unfold recoverLoop
    by_cases heq : slot = head
    · rw [if_pos heq]
      exact ⟨_, rfl, nofun⟩
    rw [if_neg heq]
    have hin : slot < blocks := hslot.resolve_left heq
    split
    · exact ⟨_, rfl, fun s hs => List.mem_singleton.mp hs ▸ hin⟩
    · obtain ⟨hcloser, hnext⟩ := turnsTo_next hin heq hhead
      obtain ⟨r, hr, hconf⟩ := ih (by omega) hnext
      refine ⟨_, by rw [hr, map_some], ?_⟩
      intro s hs
      rcases List.mem_cons.mp hs with rfl | hs
      · exact hin
      · exact hconf s hs

theorem recoverLoop_never (houtcome : ∀ t, (outcome t).readFails = false)
    (hhead : head ≠ 1) (hpass : ¬ (1 < head ∧ head < blocks)) {n : ℕ}
    {r : (UInt32 → Block) × List UInt32}
    (hrun : recoverLoop start blocks head outcome n turn slot dev = some r)
    (hne : slot ≠ head) : ¬ Confined blocks r.2 := by
  induction n generalizing slot turn dev r with
  | zero => cases hrun
  | succ n ih =>
    rw [recoverLoop, if_neg hne, if_neg (by rw [houtcome]; exact Bool.false_ne_true)] at hrun
    obtain ⟨r', hr', rfl⟩ := map_eq_some_iff.mp hrun
    intro hconf
    have hin : slot < blocks := hconf slot mem_cons_self
    refine ih hr' (fun heq => ?_) fun s hs => hconf s (mem_cons_of_mem _ hs)
    have hin' := UInt32.lt_iff_toNat_lt.mp hin
    rcases Nat.lt_or_ge (slot.toNat + 1) blocks.toNat with hlt | hge
    · have hnat := slotAfter_of_lt hlt
      rw [heq] at hnat
      apply hpass
      rw [lt_iff_toNat_lt, lt_iff_toNat_lt, toNat_one]
      have : head.toNat ≠ 1 := fun h => hhead (UInt32.toNat_inj.mp h)
      omega
    · rw [slotAfter_of_last (by omega)] at heq
      exact hhead heq.symm

/-! ### Recovery -/

/-- The recovery ends, and what it reads behind the header are slots of the journal. -/
def RecoveryConfined (v : Journaled) (o : RecoverOutcome) : Prop :=
  ∃ fuel r, ixfsJournalRecover v o fuel = some r ∧ Confined v.journalBlocks r.slots

/-- Everything goes well. -/
def quietRecovery : RecoverOutcome := ⟨true, false, fun _ => ⟨false, false, none⟩, none⟩

theorem recoveryConfined_quiet {v : Journaled} (hmagic : v.magic = journalMagic)
    (h : RecoveryConfined v quietRecovery) : ∃ fuel r,
      recoverLoop v.journalStart v.journalBlocks v.head quietRecovery.replay fuel 0 v.tail
        v.vol.dev = some r ∧ Confined v.journalBlocks r.2 := by
  obtain ⟨fuel, r, hrun, hconf⟩ := h
  rw [ixfsJournalRecover, if_neg (by decide), if_neg (not_not.mpr hmagic)] at hrun
  obtain ⟨r', hr', rfl⟩ := map_eq_some_iff.mp hrun
  exact ⟨fuel, r', hr', hconf⟩

/-- Whatever the device does, the recovery ends in the journal exactly when there is no journal,
or its head and tail are where a scan can go. -/
theorem journalRecover_confined_iff (v : Journaled) : (∀ o, RecoveryConfined v o) ↔
      (v.magic = journalMagic → ScanOk v.journalBlocks v.head v.tail) := by
  constructor
  · intro h hmagic
    obtain ⟨fuel, r, hrun, hconf⟩ := recoveryConfined_quiet hmagic (h quietRecovery)
    by_contra hbad
    unfold ScanOk at hbad
    rw [not_or, not_and_or, not_or] at hbad
    obtain ⟨hne, htail | hhead⟩ := hbad
    · -- the first slot is read outside
      cases fuel with
      | zero => cases hrun
      | succ fuel =>
        rw [recoverLoop, if_neg hne, if_neg (by decide)] at hrun
        obtain ⟨r₀, -, rfl⟩ := map_eq_some_iff.mp hrun
        exact htail (hconf _ List.mem_cons_self)
    · exact recoverLoop_never (fun _ => rfl) hhead.1 hhead.2 hrun hne hconf
  · intro hok o
    unfold RecoveryConfined ixfsJournalRecover
    split
    · exact ⟨0, _, rfl, nofun⟩
    split
    · exact ⟨0, _, rfl, nofun⟩
    rename_i hmagic
    have hscan : ∃ fuel r, recoverLoop v.journalStart v.journalBlocks v.head o.replay fuel 0 v.tail
        v.vol.dev = some r ∧ Confined v.journalBlocks r.2 := by
      rcases hok (not_not.mp hmagic) with heq | ⟨htail, hhead⟩
      · exact ⟨1, (v.vol.dev, []), by rw [recoverLoop, if_pos heq], nofun⟩
      · exact ⟨_, recoverLoop_ends hhead (Nat.lt_succ_self _) (.inr htail)⟩
    obtain ⟨fuel, r, hr, hconf⟩ := hscan
    exact ⟨fuel, _, by rw [hr, map_some], hconf⟩

def journalVolume (head tail : UInt32) : Journaled :=
  ⟨ixfsCacheInit none fun b => if b = 1 then headerBlock head tail 0 else fun _ => 0, 1, 16, 0, 1,
    noTxn 0⟩

/-- A head of 0 is not one of the slots that the scan goes round. -/
theorem journalRecover_endless : ¬ RecoveryConfined (journalVolume 0 1) quietRecovery := by
  have hmagic : (journalVolume 0 1).magic = journalMagic := by decide
  have hhead : (journalVolume 0 1).head = 0 := by decide
  have htail : (journalVolume 0 1).tail = 1 := by decide
  intro h
  obtain ⟨fuel, r, hrun, hconf⟩ := recoveryConfined_quiet hmagic h
  rw [hhead, htail] at hrun
  exact recoverLoop_never (fun _ => rfl) (by decide) (by decide) hrun (by decide) hconf

end ImpossibleOs.Ixfs
