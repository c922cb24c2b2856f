import ImpossibleOs.Registry.HiveRoundTrip

/-!
Runs of saves, crashes and recoveries.

At every moment the journal is valid and holds what is committed, or it is not
valid and the hive is. This is lost only when a crash stops a write of the journal
over bytes of an older one: the checksum covers the header only.
-/

namespace ImpossibleOs.Registry

open LeBytes Function List Option

variable {crc : List UInt8 → UInt32}

/-! ### Which files are accepted -/

theorem hiveValidateFile_some {file data : List UInt8} :
    hiveValidateFile crc (some file) = some data ↔
      ∃ page, hiveReadValidHeader crc file = some page ∧
        ∃ keys values, hiveReadValidatedPayload page file = some (data, keys, values) := by
  unfold hiveValidateFile
  simp only [bind_eq_bind, bind_some, bind_eq_some_iff, Prod.exists,
    Option.pure_def, some.injEq]
  constructor
  · rintro ⟨page, hpage, d, keys, values, hread, rfl⟩
    exact ⟨page, hpage, keys, values, hread⟩
  · rintro ⟨page, hpage, keys, values, hread⟩
    exact ⟨page, hpage, data, keys, values, hread, rfl⟩

theorem hiveReadValidHeader_some {file page : List UInt8}
    (h : hiveReadValidHeader crc file = some page) :
    page = file.take hiveHeaderSize ∧ hiveHeaderSize ≤ file.length ∧
      field page 0 4 = hiveMagic := by
  unfold hiveReadValidHeader at h
  dsimp only at h
  split at h
  · cases h
  rename_i hlong
  rw [length_take] at hlong
  split at h
  · cases h
  rename_i hmagic
  split at h
  · cases h
  split at h
  · cases h
  split at h
  · cases h
  cases h
  exact ⟨rfl, by omega, not_not.mp hmagic⟩

theorem hiveReadValidatedPayload_some {page file data : List UInt8} {keys values : ℕ}
    (h : hiveReadValidatedPayload page file = some (data, keys, values)) :
    data = (file.drop hiveHeaderSize).take (field page 100 4) ∧
      field page 100 4 ≤ (file.drop hiveHeaderSize).length := by
  unfold hiveReadValidatedPayload at h
  dsimp only at h
  split at h
  · cases h
  split at h
  · cases h
  rename_i hlong
  rw [length_take] at hlong
  simp only [bind_eq_bind, bind_eq_some_iff] at h
  obtain ⟨c, -, h⟩ := h
  split at h
  · cases h
  cases h
  exact ⟨rfl, by omega⟩

theorem hiveValidateFile_append {file data : List UInt8}
    (h : hiveValidateFile crc (some file) = some data) (rest : List UInt8) :
    hiveValidateFile crc (some (file ++ rest)) = some data := by
  obtain ⟨page, hpage, keys, values, hread⟩ := hiveValidateFile_some.mp h
  obtain ⟨-, hlen, -⟩ := hiveReadValidHeader_some hpage
  obtain ⟨-, hsize⟩ := hiveReadValidatedPayload_some hread
  refine hiveValidateFile_some.mpr ⟨page, ?_, keys, values, ?_⟩
  · unfold hiveReadValidHeader at hpage ⊢
    rwa [take_append_of_le_length hlen]
  · unfold hiveReadValidatedPayload at hread ⊢
    dsimp only at hread ⊢
    rwa [drop_append_of_le_length hlen, take_append_of_le_length hsize]

theorem hiveValidateFile_take {bytes : List UInt8}
    (h : hiveValidateFile crc (some bytes) = some (payloadOf bytes)) {n : ℕ}
    (hn : n < bytes.length) : hiveValidateFile crc (some (bytes.take n)) = none := by
  obtain ⟨page, hpage, keys, values, hread⟩ := hiveValidateFile_some.mp h
  obtain ⟨rfl, hlen, -⟩ := hiveReadValidHeader_some hpage
  obtain ⟨hdata, hsize⟩ := hiveReadValidatedPayload_some hread
  have hall : field (bytes.take hiveHeaderSize) 100 4 = (bytes.drop hiveHeaderSize).length := by
    have hlength := congrArg List.length hdata
    rw [payloadOf, length_take] at hlength
    omega
  refine Option.eq_none_iff_forall_ne_some.mpr fun data hshort => ?_
  obtain ⟨page', hpage', keys', values', hread'⟩ := hiveValidateFile_some.mp hshort
  obtain ⟨rfl, hlen', -⟩ := hiveReadValidHeader_some hpage'
  obtain ⟨-, hsize'⟩ := hiveReadValidatedPayload_some hread'
  rw [length_take] at hlen'
  rw [take_take, Nat.min_eq_left (by omega), hall] at hsize'
  simp only [length_drop, length_take] at hsize'
  omega

theorem hiveValidateFile_zero (rest : List UInt8) :
    hiveValidateFile crc (some (0 :: rest)) = none := by
  refine Option.eq_none_iff_forall_ne_some.mpr fun data h => ?_
  obtain ⟨page, hpage, -⟩ := hiveValidateFile_some.mp h
  obtain ⟨rfl, -, hmagic⟩ := hiveReadValidHeader_some hpage
  have hfield : field ((0 :: rest).take hiveHeaderSize) 0 4 = 256 * ofLe (rest.take 3) := by
    rw [field, drop_zero, take_take]
    change ofLe (List.take 4 (0 :: rest)) = _
    rw [take_succ_cons, ofLe]
    simp
  rw [hfield] at hmagic
  have : hiveMagic % 256 = 82 := rfl
  omega

/-! ### What holds at every moment -/

/-- The committed payload is in the journal, or else in the hive. -/
def Holds (crc : List UInt8 → UInt32) (fs : Files) : Option (List UInt8) → Prop
  | none => hiveValidateFile crc (fs .log) = none ∧ fs .hive = none ∧ fs .bak = none
  | some p => hiveValidateFile crc (fs .log) = some p ∨
      (hiveValidateFile crc (fs .log) = none ∧ hiveValidateFile crc (fs .hive) = some p)

variable {fs : Files} {p bytes : List UInt8}

theorem hiveValidateFile_some_file {file : Option (List UInt8)}
    (h : hiveValidateFile crc file = some p) : ∃ data, file = some data := by
  cases file with
  | none => cases h
  | some data => exact ⟨data, rfl⟩

theorem copy_valid {src dst : HivePath} (h : hiveValidateFile crc (fs src) = some p) :
    hiveValidateFile crc (fs.exec (.copy src dst) dst) = some p := by
  obtain ⟨data, hdata⟩ := hiveValidateFile_some_file h
  rw [Files.exec, hdata, getD_some, fs.copy_self hdata, take_length]
  rw [hdata] at h
  exact hiveValidateFile_append h _

theorem write_valid {path : HivePath} {old : List UInt8} (hold : fs path = some old)
    (h : hiveValidateFile crc (some bytes) = some p) :
    hiveValidateFile crc (fs.write path bytes path) = some p := by
  rw [fs.write_self hold]
  exact hiveValidateFile_append h _

theorem holds_invalidate (hlog : hiveValidateFile crc (fs .log) = some p)
    (hhive : hiveValidateFile crc (fs .hive) = some p) (rest : List FileStep)
    (hrest : rest = [] ∨ rest = [.unlink .log]) (n done : ℕ) :
    Holds crc (Files.crash n fs (hiveInvalidateLog :: rest) done) (some p) := by
  obtain ⟨data, hdata⟩ := hiveValidateFile_some_file hlog
  have hzero (m : ℕ) (hm : 0 < m) :
      hiveValidateFile crc (fs.write .log ((le 4 0).take m) .log) = none := by
    obtain ⟨m, rfl⟩ := Nat.exists_eq_succ_of_ne_zero hm.ne'
    rw [fs.write_self hdata, show le 4 0 = 0 :: le 3 0 from rfl, take_succ_cons,
      cons_append]
    exact hiveValidateFile_zero _
  have hkeep (data : List UInt8) :
      hiveValidateFile crc (fs.write .log data .hive) = some p := by
    rwa [fs.write_other (by decide)]
  cases done with
  | zero =>
    change Holds crc (fs.write .log ((le 4 0).take n)) (some p)
    rcases Nat.eq_zero_or_pos n with rfl | hn
    · refine .inl ?_
      rw [take_zero, fs.write_self hdata, nil_append, length_nil, drop_zero,
        ← hdata]
      exact hlog
    · exact .inr ⟨hzero n hn, hkeep _⟩
  | succ done =>
    have hdone : Holds crc (fs.write .log (le 4 0)) (some p) :=
      .inr ⟨hzero 4 (by decide), hkeep _⟩
    rcases hrest with rfl | rfl
    · exact hdone
    · cases done with
      | zero => exact hdone
      | succ done =>
        refine .inr ⟨rfl, ?_⟩
        change
          hiveValidateFile crc (update (fs.write .log (le 4 0)) .log none .hive) = _
        rw [update_of_ne (by decide)]
        exact hkeep _

theorem holds_journal (hlog : hiveValidateFile crc (fs .log) = some p)
    (hbytes : hiveValidateFile crc (some bytes) = some p) (renamed : Bool) (n done : ℕ) :
    Holds crc (Files.crash n fs (.copy .hive .bak ::
      if renamed then [.rename .log .hive]
      else [.create .hive, .write .hive bytes, hiveInvalidateLog, .unlink .log]) done)
      (some p) := by
  cases done with
  | zero =>
    refine .inl ?_
    change hiveValidateFile crc (fs.copy .hive .bak n .log) = _
    rwa [fs.copy_other (by decide)]
  | succ done =>
    change Holds crc (Files.crash n (fs.exec (.copy .hive .bak)) _ done) _
    have hlog' : hiveValidateFile crc (fs.exec (.copy .hive .bak) .log) = some p := by
      change hiveValidateFile crc (fs.copy .hive .bak _ .log) = _
      rwa [fs.copy_other (by decide)]
    generalize fs.exec (.copy .hive .bak) = fs at hlog'
    obtain ⟨data, hdata⟩ := hiveValidateFile_some_file hlog'
    cases renamed with
    | true =>
      cases done with
      | zero => exact .inl hlog'
      | succ done =>
        refine .inr ?_
        change hiveValidateFile crc (fs.rename .log .hive .log) = _ ∧
          hiveValidateFile crc (fs.rename .log .hive .hive) = _
        rw [Files.rename, hdata]
        dsimp only
        rw [update_self, update_of_ne (by decide), update_self,
          ← hdata]
        exact ⟨rfl, hlog'⟩
    | false =>
      rcases done with _ | _ | done
      · exact .inl hlog'
      · refine .inl ?_
        change hiveValidateFile crc ((fs.create .hive).write .hive (bytes.take n) .log) = _
        rwa [Files.write_other _ (by decide), fs.create_other (by decide)]
      · refine holds_invalidate ?_ ?_ _ (.inr rfl) n done
        · change hiveValidateFile crc ((fs.create .hive).write .hive bytes .log) = _
          rwa [Files.write_other _ (by decide), fs.create_other (by decide)]
        · exact write_valid (fs.create_self .hive) hbytes

variable {c : Option (List UInt8)}

theorem holds_save (h : Holds crc fs c)
    (hbytes : hiveValidateFile crc (some bytes) = some (payloadOf bytes)) (renamed : Bool)
    (n done : ℕ) (hclean : done = 1 → 0 < n → n < bytes.length → (fs .log).getD [] = []) :
    Holds crc (Files.crash n fs (hiveSaveSteps bytes bytes renamed) done) c ∧ done ≤ 1 ∨
      Holds crc (Files.crash n fs (hiveSaveSteps bytes bytes renamed) done)
        (some (payloadOf bytes)) := by
  match done with
  | 0 => exact .inl ⟨h, Nat.zero_le _⟩
  | 1 =>
    change Holds crc ((fs.create .log).write .log (bytes.take n)) c ∧ _ ∨
      Holds crc ((fs.create .log).write .log (bytes.take n)) (some (payloadOf bytes))
    have hlog := (fs.create .log).write_self (fs.create_self .log) (bytes.take n)
    have hother {x : HivePath} (hx : x ≠ .log) :
        (fs.create .log).write .log (bytes.take n) x = fs x := by
      rw [Files.write_other _ hx, fs.create_other hx]
    -- what the journal says, if it is not the whole of what is saved
    have hkeep (hsame : hiveValidateFile crc ((fs.create .log).write .log (bytes.take n) .log) =
        hiveValidateFile crc (fs .log)) :
        Holds crc ((fs.create .log).write .log (bytes.take n)) c := by
      cases c with
      | none => exact ⟨hsame.trans h.1, (hother (by decide)).trans h.2.1,
          (hother (by decide)).trans h.2.2⟩
      | some p =>
        rcases h with h | ⟨h, hhive⟩
        · exact .inl (hsame.trans h)
        · exact .inr ⟨hsame.trans h, by rwa [hother (by decide)]⟩
    have hempty (h : (fs .log).getD [] = []) : hiveValidateFile crc (fs .log) = none := by
      cases hfile : fs .log with
      | none => rfl
      | some data =>
        rw [hfile, getD_some] at h
        rw [h]
        rfl
    rcases Nat.lt_or_ge n bytes.length with hn | hn
    · refine .inl ⟨hkeep ?_, Nat.le_refl _⟩
      rcases Nat.eq_zero_or_pos n with rfl | hpos
      · rw [hlog, take_zero, nil_append, length_nil, drop_zero]
        cases hfile : fs .log with
        | none => rfl
        | some data => rfl
      · have hnil := hclean rfl hpos hn
        rw [hlog, hnil, drop_nil, append_nil, hempty hnil]
        exact hiveValidateFile_take hbytes hn
    · refine .inr (.inl ?_)
      rw [take_of_length_le hn]
      exact write_valid (fs.create_self .log) hbytes
  | done + 2 =>
    refine .inr ?_
    change Holds crc (Files.crash n ((fs.create .log).write .log bytes) _ done) _
    exact holds_journal (write_valid (fs.create_self .log) hbytes) hbytes renamed n done

theorem hiveBestSource_log (h : hiveValidateFile crc (fs .log) = some p) :
    hiveBestSource crc fs = ([.copy .log .hive, hiveInvalidateLog], true) := by
  rw [hiveBestSource, h, if_pos isSome_some]

theorem hiveBestSource_hive (h : hiveValidateFile crc (fs .log) = none)
    (hhive : hiveValidateFile crc (fs .hive) = some p) : hiveBestSource crc fs = ([], true) := by
  rw [hiveBestSource, h, if_neg nofun, hhive, if_pos isSome_some]

theorem hiveBestSource_none (h : Holds crc fs none) : hiveBestSource crc fs = ([], false) := by
  rw [hiveBestSource, h.1, h.2.1, h.2.2]
  rfl

theorem holds_recover (h : Holds crc fs c) (n done : ℕ) :
    Holds crc (Files.crash n fs (hiveBestSource crc fs).1 done) c := by
  cases c with
  | none =>
    rw [hiveBestSource_none h]
    exact h
  | some p =>
    rcases h with hlog | ⟨hlog, hhive⟩
    · rw [hiveBestSource_log hlog]
      cases done with
      | zero =>
        refine .inl ?_
        change hiveValidateFile crc (fs.copy .log .hive n .log) = _
        rwa [fs.copy_other (by decide)]
      | succ done =>
        refine holds_invalidate ?_ (copy_valid hlog) [] (.inl rfl) n done
        change hiveValidateFile crc (fs.copy .log .hive _ .log) = _
        rwa [fs.copy_other (by decide)]
    · rw [hiveBestSource_hive hlog hhive]
      exact .inr ⟨hlog, hhive⟩

theorem recovered_eq (h : Holds crc fs c) : recovered crc fs = c := by
  unfold recovered
  cases c with
  | none => rw [hiveBestSource_none h, if_neg nofun]
  | some p =>
    rcases h with hlog | ⟨hlog, hhive⟩
    · rw [hiveBestSource_log hlog, if_pos rfl]
      change hiveValidateFile crc ((fs.exec (.copy .log .hive)).write .log (le 4 0) .hive) = _
      rw [Files.write_other _ (by decide)]
      exact copy_valid hlog
    · rw [hiveBestSource_hive hlog hhive, if_pos rfl]
      exact hhive

/-! ### Runs -/

section Saved

variable {t : Tree} {root timestamp : ℕ} (renamed : Bool) (done n : ℕ)

theorem observe_fst (e : HiveEvent) : (fs.observe crc e).1 = fs.apply crc e := rfl

theorem apply_save (hsave : hiveSave crc t root timestamp = some bytes) :
    fs.apply crc (.save t root timestamp renamed) =
      Files.crash 0 fs (hiveSaveSteps bytes bytes renamed)
        (hiveSaveSteps bytes bytes renamed).length := by
  rw [Files.crash_length, Files.apply, hsave]
  rfl

theorem apply_saveCrash (hsave : hiveSave crc t root timestamp = some bytes) :
    fs.apply crc (.saveCrash t root timestamp renamed done n) =
      Files.crash n fs (hiveSaveSteps bytes bytes renamed) done := by
  rw [Files.apply, hsave]
  rfl

theorem apply_refused (hsave : hiveSave crc t root timestamp = none) :
    fs.apply crc (.save t root timestamp renamed) = fs ∧
      fs.apply crc (.saveCrash t root timestamp renamed done n) = fs := by
  rw [Files.apply, Files.apply, hsave]
  exact ⟨rfl, rfl⟩

end Saved

theorem holds_apply {e : HiveEvent} (h : Holds crc fs c) (hsafe : e.Safe crc fs) :
    ∃ c', Commits crc c e (fs.observe crc e).2 c' ∧ Holds crc (fs.observe crc e).1 c' := by
  have hanswer {c' : Option (List UInt8)} (hc : Holds crc (fs.apply crc e) c')
      (hcommit : Commits crc c e c' c') :
      ∃ c', Commits crc c e (fs.observe crc e).2 c' ∧ Holds crc (fs.observe crc e).1 c' := by
    refine ⟨c', ?_, hc⟩
    rw [Files.observe, recovered_eq hc]
    exact hcommit
  cases e with
  | save t root timestamp renamed =>
    cases hsave : hiveSave crc t root timestamp with
    | none =>
      refine hanswer ?_ (.refused hsave)
      rwa [(apply_refused renamed 0 0 hsave).1]
    | some bytes =>
      refine @hanswer (some (payloadOf bytes)) ?_ (.save hsave)
      rw [apply_save renamed hsave]
      have hlen : 2 ≤ (hiveSaveSteps bytes bytes renamed).length := by
        cases renamed <;> exact Nat.le_add_left ..
      rcases holds_save h (hsafe bytes hsave) renamed 0 (hiveSaveSteps bytes bytes renamed).length
        nofun with ⟨-, hle⟩ | hdone
      · omega
      · exact hdone
  | saveCrash t root timestamp renamed done n =>
    cases hsave : hiveSave crc t root timestamp with
    | none =>
      refine hanswer ?_ .undone
      rwa [(apply_refused renamed done n hsave).2]
    | some bytes =>
      obtain ⟨hbytes, hclean⟩ := hsafe bytes hsave
      rcases holds_save h hbytes renamed n done hclean with ⟨hold, -⟩ | hdone
      · refine hanswer ?_ .undone
        rwa [apply_saveCrash renamed done n hsave]
      · refine hanswer ?_ (.done hsave)
        rwa [apply_saveCrash renamed done n hsave]
  | recover =>
    refine hanswer ?_ .recover
    rw [Files.apply, ← Files.crash_length fs 0]
    exact holds_recover h 0 _
  | recoverCrash done n => exact hanswer (holds_recover h n done) .recoverCrash

/-- In every run of saves and recoveries with crashes: after each event a recovery selects the
payload of one save, the last one that was completed or the one that was interrupted. -/
theorem hive_crash_atomic (crc : List UInt8 → UInt32) (events : List HiveEvent)
    (hsafe : Refine.Meets (fun fs e => (Files.observe crc fs e).1)
      (fun fs e => HiveEvent.Safe crc fs e) noFiles events) :
    ∃ c, Refine.Runs (Commits crc) none (Refine.answered (Files.observe crc) noFiles events) c := by
  obtain ⟨c, hruns, -⟩ := @Refine.Meets.simulates _ _ _ _
    (fun fs e => HiveEvent.Safe crc fs e) events noFiles (Files.observe crc) (Commits crc)
    (Holds crc) (fun _ _ _ h hs => holds_apply h hs) none hsafe ⟨rfl, rfl, rfl⟩
  exact ⟨c, hruns⟩

/-! ### Saves of the registry -/

theorem hiveValidateFile_header {h : HiveHeader} (hf : h.Fits) (hmagic : h.magic = hiveMagic)
    (hversion : h.version = hiveVersion) (hoffset : h.dataOffset = hiveHeaderSize)
    (hcrc : h.checksum = (crc { h with checksum := 0 }.bytes).toNat) {data : List UInt8}
    (hdata : data.length = h.dataSize) (hpos : data ≠ []) (hmax : data.length ≤ 1024 * 1024)
    {c : Cursor} (hparse : hiveParsePayload none ⟨fun _ => Key.blank, 0, 0⟩ data = some c)
    (hkeys : c.parsedKeys = h.totalKeys) (hvalues : c.parsedValues = h.totalValues) :
    hiveValidateFile crc (some (h.bytes ++ data)) = some data := by
  have hlen := length_pos_iff.mpr hpos
  refine hiveValidateFile_some.mpr ⟨h.bytes,
    hiveReadValidHeader_bytes hf hmagic hversion hoffset hcrc data, c.parsedKeys, c.parsedValues,
      ?_⟩
  unfold hiveReadValidatedPayload
  dsimp only
  rw [drop_left' hf.length_bytes, hf.field_dataSize, ← hdata, if_neg (by omega),
    take_length, if_neg (Nat.lt_irrefl _), hparse, hf.field_totalKeys, hf.field_totalValues,
    ← hkeys, ← hvalues]
  simp

theorem hiveSave_header {t : Tree} {root timestamp : ℕ} (hf : Fuelled t keyPoolSize root)
    (hlen : (keyBytes t keyPoolSize root).length ≤ 1024 * 1024)
    (hsave : hiveSave crc t root timestamp = some bytes) :
    ∃ page : List UInt8, page.length = hiveHeaderSize ∧
      bytes = page ++ keyBytes t keyPoolSize root ∧
      ∀ data c, data.length = (keyBytes t keyPoolSize root).length → data ≠ [] →
        hiveParsePayload none ⟨fun _ => Key.blank, 0, 0⟩ data = some c →
        c.parsedKeys = (hiveCount t keyPoolSize root).1 →
        c.parsedValues = (hiveCount t keyPoolSize root).2 →
        hiveValidateFile crc (some (page ++ data)) = some data := by
  obtain ⟨h, rfl, hmagic, hversion, hoffset, hcrc, hname, htotalKeys, htotalValues, hsize⟩ :=
    hiveSave_spec hsave
  have hfits := fits_of_room hf hlen hmagic hversion hoffset hcrc hname htotalKeys htotalValues
    hsize
  refine ⟨h.bytes, hfits.length_bytes, rfl, ?_⟩
  intro data c hdata hpos hparse hkeys hvalues
  exact hiveValidateFile_header hfits hmagic hversion hoffset hcrc (hdata.trans hsize.symm) hpos
    (hdata.trans_le hlen) hparse (hkeys.trans htotalKeys.symm) (hvalues.trans htotalValues.symm)

theorem hiveSave_accepted {t : Tree} {root timestamp : ℕ} (ht : Savable t)
    (hf : Fuelled t keyPoolSize root) (hlen : (keyBytes t keyPoolSize root).length ≤ 1024 * 1024)
    (hdepth : ∀ c ∈ savedChildren t root, DepthOk t hiveMaxParseDepth c)
    (hsave : hiveSave crc t root timestamp = some bytes) :
    hiveValidateFile crc (some bytes) = some (payloadOf bytes) := by
  obtain ⟨page, hpage, rfl, haccept⟩ := hiveSave_header hf hlen hsave
  have hcheck := (@hiveParsePayload_none 511 root t ht hf ⟨fun _ => Key.blank, 0, 0⟩).1 hdepth
  rw [payloadOf, drop_left' hpage]
  refine haccept _ _ rfl ?_ hcheck rfl rfl
  intro hnil
  have hlength := congrArg List.length hnil
  rw [show keyPoolSize = 511 + 1 from rfl, keyBytes] at hlength
  simp only [length_append, length_le, length_nil] at hlength
  omega

theorem journal_mixed {t t' : Tree} {root timestamp root' timestamp' n : ℕ} {bytes' : List UInt8}
    (hsave : hiveSave crc t root timestamp = some bytes)
    (hbytes : hiveValidateFile crc (some bytes) = some (payloadOf bytes))
    (hsave' : hiveSave crc t' root' timestamp' = some bytes') (hn : 4 ≤ n)
    (hn' : n ≤ bytes'.length) (renamed renamed' : Bool) :
    [HiveEvent.saveCrash t root timestamp renamed 2 0, .recover,
      .saveCrash t' root' timestamp' renamed' 1 n].foldl (Files.apply crc) noFiles .log =
      some (bytes'.take n ++ bytes.drop n) := by
  rw [foldl_cons, foldl_cons, foldl_cons, foldl_nil,
    apply_saveCrash renamed 2 0 hsave, apply_saveCrash renamed' 1 n hsave']
  have hlog : Files.crash 0 noFiles (hiveSaveSteps bytes bytes renamed) 2 .log = some bytes := by
    change Files.copy ((noFiles.create .log).write .log bytes) .hive .bak 0 .log = _
    rw [Files.copy_other _ (by decide), Files.write_self _ (noFiles.create_self .log)]
    simp [noFiles]
  generalize Files.crash 0 noFiles (hiveSaveSteps bytes bytes renamed) 2 = fs at hlog
  have hvalid : hiveValidateFile crc (fs .log) = some (payloadOf bytes) := by
    rw [hlog]
    exact hbytes
  have hrecovered : fs.apply crc .recover .log = some (le 4 0 ++ bytes.drop 4) := by
    have hcopy : fs.exec (.copy .log .hive) .log = some bytes := by
      change fs.copy .log .hive _ .log = _
      rw [fs.copy_other (by decide), hlog]
    rw [Files.apply, hiveBestSource_log hvalid]
    change (fs.exec (.copy .log .hive)).write .log (le 4 0) .log = _
    rw [Files.write_self _ hcopy, length_le]
  generalize fs.apply crc .recover = fs at hrecovered
  change (fs.create .log).write .log (bytes'.take n) .log = _
  rw [Files.write_self _ (fs.create_self .log), hrecovered, getD_some, length_take,
    Nat.min_eq_left hn', drop_append, drop_of_length_le (by rwa [length_le]), length_le,
    nil_append, drop_drop, Nat.add_sub_cancel' hn]

/-- The tree with one value below `HKLM\SYSTEM`. -/
def oneValueTree (data : List UInt8) : Tree :=
  ((oneValueOps data).foldl State.apply State.init).tree

theorem oneValueTree_accepted {data : List UInt8}
    (hdata : data = [1, 1, 1, 1] ∨ data = [2, 2, 2, 2])
    {timestamp : ℕ} (hsave : hiveSave crc (oneValueTree data) 5 timestamp = some bytes) :
    hiveValidateFile crc (some bytes) = some (payloadOf bytes) := by
  have hok := apply_run (oneValueOps data)
  refine hiveSave_accepted ⟨hok.tree, hok.values⟩ ⟨?_, ?_, ?_, ?_⟩ ?_ ?_ hsave <;>
    rcases hdata with rfl | rfl <;> decide

theorem hive_crash_atomic_two_saves :
    ∃ c, Refine.Runs (Commits kcrc32) none (Refine.answered (Files.observe kcrc32) noFiles
      [.save (oneValueTree [1, 1, 1, 1]) 5 0 true,
        .saveCrash (oneValueTree [2, 2, 2, 2]) 5 0 false 1 4128, .recoverCrash 0 0]) c := by
  refine hive_crash_atomic kcrc32 _ ⟨?_, ?_, trivial, trivial⟩
  · intro bytes hsave
    exact oneValueTree_accepted (.inl rfl) hsave
  · intro bytes hsave
    refine ⟨oneValueTree_accepted (.inr rfl) hsave, fun _ _ _ => ?_⟩
    -- the first save has renamed its journal away
    obtain ⟨bytes', hsave'⟩ := Option.isSome_iff_exists.mp (show (hiveSave kcrc32
      (oneValueTree [1, 1, 1, 1]) 5 0).isSome by decide)
    simp only [observe_fst, apply_save true hsave']
    rfl

/-- Two saves, the second one over the journal that a recovery from the first one left. -/
def mixedEvents : List HiveEvent :=
  [.saveCrash (oneValueTree [1, 1, 1, 1]) 5 0 true 2 0, .recover,
    .saveCrash (oneValueTree [2, 2, 2, 2]) 5 0 true 1 4128]

theorem hive_crash_mixed : ∃ bytes bytes' mixed,
    hiveSave kcrc32 (oneValueTree [1, 1, 1, 1]) 5 0 = some bytes ∧
      hiveSave kcrc32 (oneValueTree [2, 2, 2, 2]) 5 0 = some bytes' ∧
      recovered kcrc32 (mixedEvents.foldl (Files.apply kcrc32) noFiles) = some mixed ∧
      mixed ≠ payloadOf bytes ∧ mixed ≠ payloadOf bytes' := by
  obtain ⟨bytes, hsave⟩ := Option.isSome_iff_exists.mp (show (hiveSave kcrc32
    (oneValueTree [1, 1, 1, 1]) 5 0).isSome by decide)
  obtain ⟨bytes', hsave'⟩ := Option.isSome_iff_exists.mp (show (hiveSave kcrc32
    (oneValueTree [2, 2, 2, 2]) 5 0).isSome by decide)
  have hfuel : Fuelled (oneValueTree [1, 1, 1, 1]) keyPoolSize 5 := by
    refine ⟨?_, ?_, ?_, ?_⟩ <;> decide
  have hfuel' : Fuelled (oneValueTree [2, 2, 2, 2]) keyPoolSize 5 := by
    refine ⟨?_, ?_, ?_, ?_⟩ <;> decide
  obtain ⟨page, hpage, hbytes, -⟩ := hiveSave_header hfuel (by decide) hsave
  obtain ⟨page', hpage', hbytes', haccept⟩ := hiveSave_header hfuel' (by decide) hsave'
  have hcheck : (hiveParsePayload none ⟨fun _ => Key.blank, 0, 0⟩
      ((keyBytes (oneValueTree [2, 2, 2, 2]) keyPoolSize 5).take 32 ++
        (keyBytes (oneValueTree [1, 1, 1, 1]) keyPoolSize 5).drop 32)).map
        (fun c => (c.parsedKeys, c.parsedValues)) =
      some (hiveCount (oneValueTree [2, 2, 2, 2]) keyPoolSize 5) := by
    decide
  obtain ⟨c, hparse, hcount⟩ := Option.map_eq_some_iff.mp hcheck
  have hvalid := haccept _ c (by decide) (by decide) hparse
    (congrArg Prod.fst hcount) (congrArg Prod.snd hcount)
  have hlog := journal_mixed hsave (oneValueTree_accepted (.inl rfl) hsave) hsave'
    (show 4 ≤ 4128 by decide) (by rw [hbytes', length_append, hpage']; decide) true
      true
  rw [hbytes, hbytes', take_append, drop_append, hpage, hpage',
    take_of_length_le (by rw [hpage']; decide), drop_of_length_le (by rw [hpage]; decide),
    nil_append, append_assoc] at hlog
  have hlogValid := hvalid
  rw [show (32 : ℕ) = 4128 - hiveHeaderSize from rfl, ← hlog] at hlogValid
  refine ⟨bytes, bytes', _, hsave, hsave', recovered_eq (.inl hlogValid), ?_, ?_⟩
  · rw [hbytes, payloadOf, drop_left' hpage]
    decide
  · rw [hbytes', payloadOf, drop_left' hpage']
    decide

end ImpossibleOs.Registry
