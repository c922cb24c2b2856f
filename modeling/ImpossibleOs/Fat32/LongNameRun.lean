import ImpossibleOs.Fat32.LongName

/-!
Long names on the volume.

`fat32_lfn_write_slots` goes on by device address from the first free entry, so
what it writes is the name of an entry of the directory only where the clusters
of the place are neighbours. The directory reader gets to the entry if no end
mark stands in front of it and its table has room.
-/

namespace ImpossibleOs.Fat32

open ByteMem List Option

/-- The entries at `addrs` are LFN entries of the directory and the short entry behind them, and
they are read as `name`: by the reader, and by a scan for any name that gets there. The scan
accepts the numbers of the LFN entries, and their checksums are that of the short name. -/
def Decodes (v : Volume) (dir : ℕ) (name : List UInt8) (addrs : List ℕ) : Prop :=
  ∃ chain front lfns short rest, IsChain v dir chain ∧
    dirEntries v.bpb chain = front ++ lfns ++ short :: rest ∧
    addrs = (lfns ++ [short]).map (entryPos v.bpb) ∧
    (∃ f ∈ readDir v dir, f.entry = short ∧ f.name = name) ∧
    (∀ target, (∃ hit, front.foldlM (nameTurn v target) .start = .error (some hit)) ∨
      ∃ s, (front ++ lfns).foldlM (nameTurn v target) .start = .ok s ∧
        s.binds v.disk (entryPos v.bpb short) = true ∧
        s.entryName v.disk (entryPos v.bpb short) = name) ∧
    ∀ p ∈ lfns, v.disk (entryPos v.bpb p + 13) =
      lfnChecksum (bytes v.disk (entryPos v.bpb short) 11)

/-- The reader gets to the place of `count` slots: no end mark stands in front of it, and fewer
files than its table holds. -/
def InSight (v : Volume) (chain : List ℕ) (count : ℕ) : Prop :=
  ∀ q, SlotStart (EntryFree v chain) (entryCount v.bpb chain) count q →
    (∀ j < q, v.disk (entryAddr v.bpb chain j) ≠ 0) ∧
      (listing v .idle ((dirEntries v.bpb chain).take q)).length < fat32MaxDirEntries

variable {v v' : Volume} {dir : ℕ} {chain : List ℕ} {sfn name sfnEntry : List UInt8}

/-! ### What the writer leaves behind -/

variable {chain' : List ℕ} {p : ℕ × ℕ} {w : Volume}

theorem split_slots {ps : List (ℕ × ℕ)} {q n : ℕ} (h : ps[q + n]? = some p) :
    ps = ps.take q ++ (ps.drop q).take n ++ p :: ps.drop (q + n + 1) := by
  obtain ⟨hlt, rfl⟩ := List.getElem?_eq_some_iff.mp h
  rw [getElem_cons_drop, append_assoc, ← drop_drop, take_append_drop,
    take_append_drop]

theorem listing_endMark {ps qs : List (ℕ × ℕ)} (h : v.disk (entryPos v.bpb p) = 0)
    (s : LfnBuf) : listing v s (ps ++ p :: qs) = listing v s ps := by
  induction ps generalizing s with
  | nil =>
    have hitem : readItem v s p = .endMark := by
      unfold readItem
      dsimp only
      rw [if_pos h]
    rw [nil_append, listing.eq_2, hitem]
    rfl
  | cons q ps ih =>
    rw [cons_append, listing, listing]
    cases readItem v s q with
    | endMark => rfl
    | pass s' => exact ih s'
    | file f => exact congrArg (f :: ·) (ih s.off)

theorem nameTurn_none {target : List UInt8} {s : LfnScan}
    (h : nameTurn v target s p = .error none) : v.disk (entryPos v.bpb p) = 0 := by
  unfold nameTurn at h
  dsimp only at h
  split at h
  · rename_i h0
    exact h0
  · iterate 4
      split at h
      · simp at h
    simp at h

theorem SlotStart.le {free : ℕ → Prop} {n count q : ℕ} (h : SlotStart free n count q) : q ≤ n := by
  rcases h with ⟨hq, -⟩ | ⟨-, hq, -⟩ <;> omega

theorem Extends.entries (h : Extends v w chain chain') {j : ℕ} (hj : j < entryCount v.bpb chain) :
    (dirEntries v.bpb chain')[j]? = (dirEntries v.bpb chain)[j]? := by
  rcases h with ⟨-, rfl⟩ | ⟨last, new, w₁, -, -, -, -, rfl⟩
  · rfl
  · rw [dirEntries_append, getElem?_append_left (by rw [length_dirEntries]; exact hj)]

theorem Extends.take_entries (h : Extends v w chain chain')
    {q : ℕ} (hq : q ≤ entryCount v.bpb chain) :
    (dirEntries v.bpb chain').take q = (dirEntries v.bpb chain).take q := by
  apply ext_getElem?
  intro j
  rw [getElem?_take, getElem?_take]
  split
  · exact h.entries (by omega)
  · rfl

theorem written_entries {run : SlotRun} {q n : ℕ}
    {entry : ℕ → List UInt8} (hok : v.bpb.Ok) (hchain : IsChain v dir chain)
    (hext : Extends v w chain chain') (hlen : ∀ i, (entry i).length = 32)
    (hq : q ≤ entryCount v.bpb chain) (hfit : q + n ≤ entryCount v.bpb chain')
    (hplace : ∀ k < n, slotAddr run k = entryAddr v.bpb chain' (q + k)) {j : ℕ}
    (hp : (dirEntries v.bpb chain')[j]? = some p) (hj : j < q + n) :
    bytes ((List.range n).foldl (writeSlot run entry) w).disk (entryPos v.bpb p) 32 =
      if q ≤ j then entry (j - q) else bytes v.disk (entryPos v.bpb p) 32 := by
  obtain ⟨hwb, hchain', -⟩ := hext.spec hok hchain
  obtain ⟨zeros, hslots⟩ := hext.slots hok hchain
  have hwok : w.bpb.Ok := by rw [hwb]; exact hok
  have hwritten := dirSlots_writeSlots hwok hchain'.inRange (hchain'.nodup hwok) hlen
    (by rw [hwb]; exact hfit) (by rw [hwb]; exact hplace) j
  obtain ⟨hb, -⟩ := writeSlots_spec w run n hlen
  rw [getElem?_dirSlots, hb, hwb, hp, map_some] at hwritten
  split
  · rename_i hge
    rw [if_pos ⟨hge, hj⟩, some.injEq] at hwritten
    exact hwritten
  · rename_i hlt
    rw [if_neg (by omega), hslots, getElem?_append_left (by rw [length_dirSlots]; omega),
      getElem?_dirSlots, ← hext.entries (by omega), hp, map_some,
      some.injEq] at hwritten
    exact hwritten

/-! ### Reading it back -/

section ReadBack

variable {front lfns rest : List (ℕ × ℕ)} {short : ℕ × ℕ} {attr : UInt8} {cluster : ℕ} {t : Stamp}

theorem lfnSlotCount_pos (hne : name ≠ []) : 0 < lfnSlotCount name := by
  have := length_pos_iff.mpr hne
  unfold lfnSlotCount
  omega

theorem lfnSlotCount_le (hlen : name.length < fat32MaxName) :
    lfnSlotCount name ≤ fat32LfnMaxEntries := by
  unfold lfnSlotCount fat32LfnMaxEntries
  unfold fat32MaxName at hlen
  omega

theorem newEntry_stored {a : ℕ} (h : bytes v.disk a 32 = newEntry sfn attr cluster t)
    (hsfn : sfn.length = 11) :
    bytes v.disk a 11 = sfn ∧ v.disk a = sfn.getD 0 0 ∧ deAttr v.disk a = attr := by
  refine ⟨?_, ?_, ?_⟩
  · rw [← take_bytes (show 11 ≤ 32 by omega), h]
    exact slotName_newEntry hsfn
  · rw [← slotFirst_bytes v.disk a, h, slotFirst_newEntry hsfn]
  · rw [← slotAttr_bytes v.disk a, h, slotAttr, newEntry]
    simp only [append_assoc]
    rw [getD_append_right _ _ _ _ (by omega), hsfn]
    rfl

theorem listing_long (hfront : ∀ p ∈ front, v.disk (entryPos v.bpb p) ≠ 0)
    (hslots : HoldsSlots v name (lfnChecksum sfn) (lfnSlotCount name) lfns)
    (hlength : lfns.length = lfnSlotCount name) (hname : AsciiName name) (hne : name ≠ [])
    (hlen : name.length < fat32MaxName)
    (hshort : bytes v.disk (entryPos v.bpb short) 32 = newEntry sfn attr cluster t)
    (hsfn : sfn.length = 11) (hfirst : GoodFirst (sfn.getD 0 0)) (hattr : attr &&& 0x08 = 0) :
    ∃ f : DirFile, ∃ tail, f.entry = short ∧ f.name = name ∧
      listing v .idle (front ++ lfns ++ short :: rest) = listing v .idle front ++ f :: tail := by
  have hpos := lfnSlotCount_pos hne
  obtain ⟨s, hs⟩ := @lfnAfter_of_nonzero v front .idle hfront
  obtain ⟨s', hs', hnil, hactive, hbuf⟩ := @lfnAfter_stored name (lfnChecksum sfn) _ v lfns hslots
    hname rfl hlength.le (lfnSlotCount_le hlen) s (fun h => absurd h (by omega)) (by
      rintro rfl
      simp at hlength
      omega)
  obtain ⟨hbytes, h0, hat⟩ := newEntry_stored hshort hsfn
  obtain ⟨hzero, hE5, hdot⟩ := hfirst
  have hlfn : attr ≠ fat32AttrLfn := by
    rintro rfl
    exact absurd hattr (by decide)
  have hholds : s'.holds = true := by
    have hfull := hbuf.nonempty hname hne
    rw [LfnBuf.holds, hactive, Bool.true_and, decide_eq_true_eq]
    exact hfull
  have hlive : deSkipped v.disk (entryPos v.bpb short) = false := by
    have hlfn' : attr ≠ 0x0F := hlfn
    simp only [deSkipped, h0, hat, hE5, hlfn', hattr, decide_false, ne_eq, not_true_eq_false,
      Bool.or_false]
  have hitem := readItem_file (by rw [h0]; exact hzero) hlive (by rw [h0]; exact hdot) s'
  refine ⟨_, listing v s'.off rest, readItem_entry hitem, ?_, ?_⟩
  · dsimp only
    rw [if_pos hholds]
    exact hbuf.string hname hlen
  · rw [append_assoc, listing_append hs, listing_append hs', hnil, listing.eq_2, hitem]
    rfl

theorem scan_long (hfront : ∀ p ∈ front, v.disk (entryPos v.bpb p) ≠ 0)
    (hslots : HoldsSlots v name (lfnChecksum sfn) (lfnSlotCount name) lfns)
    (hlength : lfns.length = lfnSlotCount name) (hname : AsciiName name) (hne : name ≠ [])
    (hlen : name.length < fat32MaxName)
    (hshort : bytes v.disk (entryPos v.bpb short) 11 = sfn) (target : List UInt8) :
    (∃ hit, front.foldlM (nameTurn v target) .start = .error (some hit)) ∨
      ∃ s, (front ++ lfns).foldlM (nameTurn v target) .start = .ok s ∧
        s.binds v.disk (entryPos v.bpb short) = true ∧
        s.entryName v.disk (entryPos v.bpb short) = name := by
  have hpos := lfnSlotCount_pos hne
  rw [foldlM_append]
  cases hfold : front.foldlM (nameTurn v target) .start with
  | error r =>
    cases r with
    | some hit => exact .inl ⟨hit, rfl⟩
    | none =>
      obtain ⟨j, p, s, hj, -, hturn⟩ := foldlM_left hfold
      exact absurd (nameTurn_none hturn) (hfront p (mem_of_getElem? hj))
  | ok s =>
    right
    obtain ⟨s', hs', hactive, hchk, hseq, hbuf⟩ :=
      @nameTurn_stored name (lfnChecksum sfn) _ v lfns
      hslots hname rfl hlength.le (lfnSlotCount_le hlen) target s (fun h => absurd h (by omega))
      (by
        rintro rfl
        simp at hlength
        omega)
    have hbinds : s'.binds v.disk (entryPos v.bpb short) = true := by
      simp [LfnScan.binds, hactive, hseq, hchk, hshort]
    refine ⟨s', hs', hbinds, ?_⟩
    rw [LfnScan.entryName, hbinds, if_pos (by simpa using hbuf.nonempty hname hne)]
    exact hbuf.string hname hlen

theorem decodes_of_stored {chain' : List ℕ} (hok : v.bpb.Ok) (hchain' : IsChain v dir chain')
    (hsplit : dirEntries v.bpb chain' = front ++ lfns ++ short :: rest)
    (hfront : ∀ p ∈ front, v.disk (entryPos v.bpb p) ≠ 0)
    (hfew : (listing v .idle front).length < fat32MaxDirEntries)
    (hslots : HoldsSlots v name (lfnChecksum sfn) (lfnSlotCount name) lfns)
    (hlength : lfns.length = lfnSlotCount name) (hname : AsciiName name) (hne : name ≠ [])
    (hlen : name.length < fat32MaxName)
    (hshort : bytes v.disk (entryPos v.bpb short) 32 = newEntry sfn attr cluster t)
    (hsfn : sfn.length = 11) (hfirst : GoodFirst (sfn.getD 0 0)) (hattr : attr &&& 0x08 = 0) :
    Decodes v dir name ((lfns ++ [short]).map (entryPos v.bpb)) := by
  obtain ⟨hbytes, -, -⟩ := newEntry_stored hshort hsfn
  refine ⟨chain', front, lfns, short, rest, hchain', hsplit, rfl, ?_,
    scan_long hfront hslots hlength hname hne hlen hbytes, ?_⟩
  · obtain ⟨f, tail, hfe, hfn, hlist⟩ := @listing_long v sfn name front lfns rest short attr cluster
      t hfront hslots hlength hname hne hlen hshort hsfn hfirst hattr
    refine ⟨f, ?_, hfe, hfn⟩
    rw [readDir_eq hok hchain', hsplit, hlist, mem_take_iff_getElem]
    refine ⟨(listing v .idle front).length, by simp; exact hfew, by simp⟩
  · intro p hp
    obtain ⟨k, hk⟩ := getElem?_of_mem hp
    rw [hbytes]
    exact (lfnFields_stored (hslots k p hk)).2.2

end ReadBack

theorem inSight_of_listed {front : List (ℕ × ℕ)} {rest : List (ℕ × ℕ)}
    (hok : v'.bpb.Ok) (hb : v'.bpb = v.bpb) (hchain' : IsChain v' dir chain')
    (hsplit : dirEntries v'.bpb chain' = front ++ rest) {f : DirFile} (hf : f ∈ readDir v' dir)
    (hrest : f.entry ∈ rest)
    (hsame : ∀ p ∈ front, AgreeOn (entryPos v.bpb p) (entryPos v.bpb p + 32) v.disk v'.disk) :
    (∀ p ∈ front, v.disk (entryPos v.bpb p) ≠ 0) ∧
      (listing v .idle front).length < fat32MaxDirEntries := by
  have hnodup := @dirEntries_nodup v'.bpb chain' (hchain'.nodup hok)
  rw [hsplit, nodup_append] at hnodup
  have hnot : f.entry ∉ front := fun hmem => hnodup.2.2 _ hmem _ hrest rfl
  rw [readDir_eq hok hchain', hsplit] at hf
  have hzero : ∀ p ∈ front, v.disk (entryPos v.bpb p) ≠ 0 := by
    intro p hp h0
    obtain ⟨l, r, rfl⟩ := append_of_mem hp
    have h0' : v'.disk (entryPos v'.bpb p) = 0 := by
      rw [hb, ← h0]
      exact hsame p hp _ le_rfl (by omega)
    rw [append_assoc, cons_append, listing_endMark h0'] at hf
    have hmem := (listing_entries LfnBuf.idle l).subset
      (mem_map_of_mem (mem_of_mem_take hf))
    exact hnot (mem_append_left _ hmem)
  refine ⟨hzero, ?_⟩
  by_contra hfull
  obtain ⟨hlist, hafter⟩ := listing_congr hb hsame .idle
  obtain ⟨s, hs⟩ := lfnAfter_of_nonzero hzero
  rw [listing_append (hafter.trans hs), hlist,
    take_append_of_le_length (by omega)] at hf
  have hmem := (listing_entries LfnBuf.idle front).subset
    (mem_map_of_mem (mem_of_mem_take hf))
  exact hnot hmem

/-- A long name is read back exactly when its place is in sight of the reader and the clusters
that hold it are neighbours. -/
theorem lfnWriteSlots_decodes_iff (v v' : Volume) (dir : ℕ) (chain : List ℕ) (name : List UInt8)
    (attr : UInt8) (cluster : ℕ) (t : Stamp) (addrs : List ℕ) (hok : v.bpb.Ok)
    (hchain : IsChain v dir chain) (hdir : v.bpb.InRange dir) (hname : AsciiName name)
    (hne : 1 ≤ name.length) (hlen : name.length ≤ 255)
    (hattr : attr = fat32AttrArchive ∨ attr = fat32AttrDirectory)
    (hrun : lfnWriteSlots v dir (generateSfn v dir name).2 name
      (newEntry (generateSfn v dir name).2 attr cluster t) = some (v', addrs)) :
    Decodes v' dir name addrs ↔ SlotsContiguous v chain (lfnSlotCount name + 1) ∧
        InSight v chain (lfnSlotCount name + 1) := by
  obtain ⟨hsfn, hgood⟩ := @generateSfn_good v dir name hname
  generalize (generateSfn v dir name).2 = sfn at hrun hsfn hgood
  have hentry : ∀ i, (slotEntry sfn name (newEntry sfn attr cluster t) i).length = 32 :=
    length_slotEntry sfn name (length_newEntry hsfn)
  obtain ⟨w, run, q, chain', hv', hstart, hslot, hext, hb, hchain', hq, haddr, rfl⟩ :=
    lfnWriteSlots_place hok hchain hdir (length_newEntry hsfn) hrun
  have hpos := entriesPerCluster_pos hok
  have hok' : v'.bpb.Ok := by rw [hb]; exact hok
  have hrange : ∀ c ∈ chain', v.bpb.InRange c := by
    rw [← hb]
    exact hchain'.inRange
  have hqle := hstart.le
  set slots := lfnSlotCount name
  -- the entries of the directory once the slots are known to be among them
  have hbytes : Neighbours v.bpb chain' q (slots + 1) → ∀ j p,
      (dirEntries v.bpb chain')[j]? = some p → j < q + (slots + 1) →
      bytes v'.disk (entryPos v.bpb p) 32 =
        if q ≤ j then slotEntry sfn name (newEntry sfn attr cluster t) (j - q)
        else bytes v.disk (entryPos v.bpb p) 32 := by
    rintro ⟨hfit, hnb⟩ j p hp hj
    rw [hv']
    refine written_entries hok hchain hext hentry hqle hfit ?_ hp hj
    intro k hk
    rw [haddr, (entryAddr_linear_iff hok hpos hrange (by omega)).mpr (hnb k hk)]
  have hagree : Neighbours v.bpb chain' q (slots + 1) → ∀ p ∈ (dirEntries v.bpb chain).take q,
      AgreeOn (entryPos v.bpb p) (entryPos v.bpb p + 32) v.disk v'.disk := by
    intro hnb p hp
    rw [← hext.take_entries hqle] at hp
    obtain ⟨j, hj⟩ := List.getElem?_of_mem hp
    rw [List.getElem?_take] at hj
    split at hj
    · apply agreeOn_of_bytes
      rw [hbytes hnb j p hj (by omega), if_neg (by omega)]
    · contradiction
  constructor
  · rintro ⟨chain₁, front, lfns, short, rest, hchain₁, hsplit, hmap, ⟨f, hf, hfe, -⟩, -, -⟩
    obtain rfl : chain₁ = chain' := IsChain.unique hok' hchain₁ hchain'
    have hcount : lfns.length = slots := by
      have := congrArg List.length hmap
      simpa using this.symm
    have hplace : ∀ k < slots + 1, front.length + k < entryCount v.bpb chain₁ ∧
        entryAddr v.bpb chain₁ (front.length + k) = entryAddr v.bpb chain₁ q + 32 * k := by
      intro k hk
      obtain ⟨p, hp⟩ : ∃ p, (lfns ++ [short])[k]? = some p :=
        ⟨_, List.getElem?_eq_getElem (by simp; omega)⟩
      have hentries : (dirEntries v.bpb chain₁)[front.length + k]? = some p := by
        rw [← hb, hsplit, append_assoc, List.getElem?_append_right (by omega),
          Nat.add_sub_cancel_left, ← hp, append_cons,
          List.getElem?_append_left (by simp; omega)]
      obtain ⟨hpos', hlt⟩ := entryPos_of_getElem? hentries
      refine ⟨hlt, ?_⟩
      have hget := congrArg (fun l => l[k]?) hmap
      simp only [List.getElem?_map, List.getElem?_range hk, hp, map_some,
        Option.some.injEq, hb] at hget
      rw [← hpos', ← hget, haddr]
    have hfirst : front.length = q := by
      obtain ⟨hlt, heq⟩ := hplace 0 (by omega)
      exact entryAddr_inj hok hpos hrange (hchain'.nodup hok') (by omega) hq (by simpa using heq)
    have hnb := (consecutive_iff hok hpos hrange (hchain'.nodup hok') hq (by omega)).mp
      ⟨_, hplace⟩
    have hfront : front = (dirEntries v.bpb chain).take q := by
      rw [← hext.take_entries hqle, ← hb, hsplit, append_assoc,
        take_left' hfirst]
    refine ⟨?_, ?_⟩
    · intro q₂ chain₂ hstart₂ hslot₂
      obtain rfl := hstart.unique hstart₂
      obtain rfl := hslot.unique hslot₂
      exact hnb
    · intro q₂ hstart₂
      obtain rfl := hstart.unique hstart₂
      rw [append_assoc] at hsplit
      rw [hfront] at hsplit
      obtain ⟨hzero, hfew⟩ := inSight_of_listed hok' hb hchain' hsplit hf (by rw [hfe]; simp)
        (hagree hnb)
      refine ⟨fun j hj => ?_, hfew⟩
      obtain ⟨p, hp⟩ : ∃ p, (dirEntries v.bpb chain)[j]? = some p :=
        ⟨_, List.getElem?_eq_getElem (by rw [length_dirEntries]; omega)⟩
      rw [← (entryPos_of_getElem? hp).1]
      apply hzero
      apply mem_of_getElem? (i := j)
      rw [List.getElem?_take_of_lt hj]
      exact hp
  · rintro ⟨hcont, hsight⟩
    have hnb := hcont q chain' hstart hslot
    obtain ⟨hzero, hfew⟩ := hsight q hstart
    have hstored := hbytes hnb
    have hfit := hnb.1
    have hE : (dirEntries v.bpb chain').length = entryCount v.bpb chain' := length_dirEntries _ _
    obtain ⟨short, hshort⟩ : ∃ p, (dirEntries v.bpb chain')[q + slots]? = some p :=
      ⟨_, List.getElem?_eq_getElem (by omega)⟩
    have hsplit := split_slots hshort
    set lfns := ((dirEntries v.bpb chain').drop q).take slots with hlfns
    have hlfn : ∀ k p, lfns[k]? = some p →
        k < slots ∧ (dirEntries v.bpb chain')[q + k]? = some p := by
      intro k p hk
      rw [hlfns, List.getElem?_take] at hk
      split at hk
      · rename_i hlt
        rw [List.getElem?_drop] at hk
        exact ⟨hlt, hk⟩
      · contradiction
    have hlength : lfns.length = slots := by
      rw [hlfns, length_take, length_drop]
      omega
    have hfront : ∀ p ∈ (dirEntries v.bpb chain).take q, v.disk (entryPos v.bpb p) ≠ 0 := by
      intro p hp
      obtain ⟨j, hj⟩ := List.getElem?_of_mem hp
      rw [List.getElem?_take] at hj
      split at hj
      · rename_i hlt
        rw [(entryPos_of_getElem? hj).1]
        exact hzero j hlt
      · contradiction
    have haddrs : (List.range (slots + 1)).map (slotAddr run) =
        (lfns ++ [short]).map (entryPos v'.bpb) := by
      apply ext_getElem (by simp [hlength])
      intro k hk hk'
      rw [length_map, length_range] at hk
      have hp : (dirEntries v.bpb chain')[q + k]? =
          some ((lfns ++ [short]).get ⟨k, by simpa using hk'⟩) := by
        rcases Nat.lt_succ_iff_lt_or_eq.mp hk with hlt | rfl
        · rw [(hlfn k _ (List.getElem?_eq_getElem (by omega))).2]
          simp [getElem_append_left, hlength, hlt]
        · rw [hshort]
          simp [hlength]
      have hlinear := (entryAddr_linear_iff hok hpos hrange (by omega)).mpr (hnb.2 k hk)
      rw [getElem_map, getElem_map, getElem_range, haddr, ← hlinear,
        ← (entryPos_of_getElem? hp).1, ← hb]
      rfl
    have hshort' : bytes v'.disk (entryPos v'.bpb short) 32 = newEntry sfn attr cluster t := by
      rw [hb, hstored _ short hshort (by omega), if_pos (by omega), Nat.add_sub_cancel_left]
      simp only [slotEntry]
      rw [if_neg (by omega)]
    have hmax : name.length < fat32MaxName := by
      unfold fat32MaxName
      omega
    rw [haddrs]
    rw [hext.take_entries hqle, ← hb] at hsplit
    refine decodes_of_stored hok' hchain' hsplit ?_ ?_ ?_ hlength hname
      (ne_nil_of_length_pos hne) hmax hshort' hsfn hgood ?_
    · intro p hp
      rw [hb, hagree hnb p (hb ▸ hp) _ le_rfl (by omega)]
      exact hfront p (hb ▸ hp)
    · rw [hb, (listing_congr hb (hagree hnb) .idle).1]
      exact hfew
    · intro k p hk
      obtain ⟨hlt, hp⟩ := hlfn k p hk
      rw [hb, hstored _ p hp (by omega), if_pos (by omega), hlength, Nat.add_sub_cancel_left]
      simp only [slotEntry]
      rw [if_pos hlt]
    · rcases hattr with rfl | rfl
      · decide
      · decide

/-- `fat32_lfn_write_slots` for a new file `name` in directory 2, as `fat32_create_file_vol` calls
it. -/
def writeLongName (v : Volume) (name : List UInt8) (cluster : ℕ) : Option (Volume × List ℕ) :=
  lfnWriteSlots v 2 (generateSfn v 2 name).2 name
    (newEntry (generateSfn v 2 name).2 fat32AttrArchive cluster ⟨0, 0, 0⟩)

/-- The short entry of `a` lands outside the directory, so there is no file `a` in it. -/
theorem writeLongName_splitVolume :
    ∃ v' addrs, writeLongName splitVolume [0x61] 5 = some (v', addrs) ∧
      ¬ Decodes v' 2 [0x61] addrs := by
  have hsome : (writeLongName splitVolume [0x61] 5).isSome := by decide
  have haddrs : (writeLongName splitVolume [0x61] 5).map Prod.snd = some [1504, 1536] := by
    decide
  have hbpb : (writeLongName splitVolume [0x61] 5).map (fun p => p.1.bpb) =
      some splitVolume.bpb := by decide
  have hfat : (writeLongName splitVolume [0x61] 5).map
      (fun p => (getFatEntry p.1 2, getFatEntry p.1 4)) = some (4, eocMark) := by decide
  obtain ⟨⟨v', addrs⟩, hrun⟩ := isSome_iff_exists.mp hsome
  simp only [hrun, map_some, Option.some.injEq, Prod.mk.injEq] at haddrs hbpb hfat
  refine ⟨v', addrs, hrun, ?_⟩
  rintro ⟨chain, front, lfns, short, rest, hchain, hsplit, hmap, -⟩
  have hchain' := splitVolume_keeps_chain hbpb hfat.1 hfat.2
  obtain rfl := IsChain.unique (by rw [hbpb]; exact splitVolume_ok) hchain hchain'
  -- the short entry would have to be at the address of the last slot
  have hlast : entryPos splitVolume.bpb short = 1536 := by
    have := congrArg List.getLast? hmap
    rw [haddrs, hbpb, map_append, map_singleton, List.getLast?_append] at this
    simpa using this.symm
  have hmem : short ∈ dirEntries splitVolume.bpb [2, 4] := by
    rw [← hbpb, hsplit]
    simp
  obtain ⟨j, hj⟩ := List.getElem?_of_mem hmem
  obtain ⟨hpos, hlt⟩ := entryPos_of_getElem? hj
  exact splitVolume_entryAddr hlt (hpos ▸ hlast)

theorem emptyRoot_free : RunOf (EntryFree emptyRoot [2]) 0 2 := by
  have hzero : ∀ k < 2, emptyRoot.disk (entryAddr emptyRoot.bpb [2] (0 + k)) = 0 := by
    decide
  exact fun k hk => .inl (hzero k hk)

theorem emptyRoot_place {q : ℕ}
    (h : SlotStart (EntryFree emptyRoot [2]) (entryCount emptyRoot.bpb [2]) 2 q) : q = 0 :=
  h.unique (.inl ⟨by decide, emptyRoot_free, by omega⟩)

/-- A file `a` is created in an empty directory and read back. -/
theorem lfnWriteSlots_decodes_emptyRoot :
    ∃ v' addrs, writeLongName emptyRoot [0x61] 3 = some (v', addrs) ∧
      Decodes v' 2 [0x61] addrs := by
  have hsome : (writeLongName emptyRoot [0x61] 3).isSome := by decide
  obtain ⟨⟨v', addrs⟩, hrun⟩ := isSome_iff_exists.mp hsome
  refine ⟨v', addrs, hrun, ?_⟩
  refine (lfnWriteSlots_decodes_iff emptyRoot v' 2 [2] [0x61] fat32AttrArchive 3 ⟨0, 0, 0⟩ addrs
    emptyRoot_ok emptyRoot_chain emptyRoot_inRange (by decide) (by decide) (by decide) (.inl rfl)
    hrun).mpr ⟨?_, ?_⟩
  · intro q chain' hstart hslot
    obtain rfl := emptyRoot_place hstart
    obtain ⟨-, rfl⟩ | ⟨hnone, -⟩ := hslot
    · exact ⟨by decide, by decide⟩
    · exact absurd emptyRoot_free (hnone 0 (by decide))
  · intro q hstart
    obtain rfl := emptyRoot_place hstart
    exact ⟨by omega, by simp [listing, fat32MaxDirEntries]⟩

end ImpossibleOs.Fat32
