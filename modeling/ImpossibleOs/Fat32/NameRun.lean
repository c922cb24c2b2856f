import ImpossibleOs.Fat32.NameInv
import ImpossibleOs.Lib.Refine

/-!
Short names over whole runs.

The driver takes the 8.3 form of a name that needs no long name as it is, does
not look at the result of the tail generator, and creates files and renames
without looking for the name.
-/

namespace ImpossibleOs.Fat32

open ByteMem List

variable {v w : Volume} {dir : ℕ} {chain chain' : List ℕ}

/-! ### New entries -/

section NewEntry

variable {sfn : List UInt8} {attr : UInt8} {cluster : ℕ} {t : Stamp}

section

variable (h : sfn.length = 11)
include h

theorem length_newEntry : (newEntry sfn attr cluster t).length = 32 := by
  simp [newEntry, le16, h]

theorem slotName_newEntry : slotName (newEntry sfn attr cluster t) = sfn := by
  simp only [slotName, newEntry, append_assoc]
  rw [take_append_of_le_length (by omega), take_of_length_le (by omega)]

theorem slotFirst_newEntry : slotFirst (newEntry sfn attr cluster t) = sfn.getD 0 0 := by
  simp only [slotFirst, newEntry, append_assoc]
  rw [getD_append _ _ _ _ (by omega)]

theorem slotCluster_newEntry (hc : cluster < 2 ^ 32) :
    slotCluster (newEntry sfn attr cluster t) = cluster := by
  have hget : ∀ i, 11 ≤ i → (newEntry sfn attr cluster t).getD i 0 =
      ([attr, 0, t.tenth] ++ le16 t.time ++ le16 t.date ++ le16 t.date ++ le16 (cluster / 2 ^ 16) ++
        le16 t.time ++ le16 t.date ++ le16 (cluster % 2 ^ 16) ++ [0, 0, 0, 0]).getD (i - 11) 0 := by
    intro i hi
    simp only [newEntry, append_assoc]
    rw [getD_append_right _ _ _ _ (by omega), h]
  rw [slotCluster, hget 20 (by omega), hget 21 (by omega), hget 26 (by omega), hget 27 (by omega)]
  simp [le16]
  omega

end

end NewEntry

section LfnEntry

variable {name : List UInt8} {chk : UInt8} {slots s : ℕ}

theorem slotLive_lfnEntry : slotLive (lfnEntry name chk slots s) = false := by
  have hattr : slotAttr (lfnEntry name chk slots s) = fat32AttrLfn := by
    simp only [slotAttr, lfnEntry, append_assoc]
    rw [getD_append_right _ _ _ _ (by simp), getD_append_right _ _ _ _ (by
      simp [length_lfnChars]), length_lfnChars]
    rfl
  simp [slotLive, hattr, fat32AttrLfn]

theorem slotFirst_lfnEntry (hs : 0 < s) (hs' : s < 256) :
    slotFirst (lfnEntry name chk slots s) ≠ 0 := by
  have hseq : UInt8.ofNat s ≠ 0 := by
    intro h
    have := congrArg UInt8.toNat h
    simp at this
    omega
  show (if s = slots then UInt8.ofNat s ||| lfnLastEntry else UInt8.ofNat s) ≠ 0
  split
  · intro h
    rw [UInt8.or_eq_zero_iff] at h
    exact hseq h.1
  · exact hseq

end LfnEntry

theorem entryFree_iff {j : ℕ} {e : Slot} (h : (dirSlots v chain)[j]? = some e) :
    EntryFree v chain j ↔ slotFirst e = 0x00 ∨ slotFirst e = 0xE5 := by
  rw [getElem?_dirSlots] at h
  obtain ⟨p, hp, rfl⟩ := Option.map_eq_some_iff.mp h
  rw [slotFirst_bytes, EntryFree, (entryPos_of_getElem? hp).1]

theorem length_dirSlots (v : Volume) (chain : List ℕ) :
    (dirSlots v chain).length = entryCount v.bpb chain := by
  rw [dirSlots, length_map, length_dirEntries]

theorem SlotStart.before {count q : ℕ}
    (h : SlotStart (EntryFree v chain) (entryCount v.bpb chain) count q)
    (htidy : Tidy (dirSlots v chain)) :
    ∀ i < q, ∀ e, (dirSlots v chain)[i]? = some e → slotFirst e ≠ 0 := by
  intro i hi e he h0
  -- from an end mark on everything is free, so a run would start there
  have hfree : ∀ k, i ≤ k → k < entryCount v.bpb chain → EntryFree v chain k := by
    intro k hk hk'
    obtain ⟨e', he'⟩ : ∃ e', (dirSlots v chain)[k]? = some e' :=
      ⟨_, getElem?_eq_getElem (by rw [length_dirSlots]; exact hk')⟩
    exact (entryFree_iff he').mpr (.inl (htidy i k e e' hk he h0 he'))
  rcases h with ⟨hq, -, hmin⟩ | ⟨-, hq, -, hstop⟩
  · exact hmin i hi fun k hk => hfree (i + k) (by omega) (by omega)
  · exact hstop (by omega) (hfree (q - 1) (by omega) (by omega))

theorem DirInv.written (h : DirInv v dir chain) {run : SlotRun} {q n : ℕ} {entry : ℕ → List UInt8}
    (hext : Extends v w chain chain')
    (hstart : SlotStart (EntryFree v chain) (entryCount v.bpb chain) (n + 1) q)
    (hfit : q + (n + 1) ≤ entryCount v.bpb chain')
    (hplace : ∀ k < n + 1, slotAddr run k = entryAddr v.bpb chain' (q + k))
    (hlen : ∀ i, (entry i).length = 32) (hfirst : ∀ k < n + 1, slotFirst (entry k) ≠ 0)
    (hdead : ∀ k < n, slotLive (entry k) = false)
    (hname : Absent (dirSlots v chain) (slotName (entry n))) (hown : Owns v chain (entry n))
    (hcl : ∀ j e, Named (dirSlots v chain) j e → slotFirst e ≠ charDot →
      slotCluster e ≠ slotCluster (entry n)) :
    DirInv ((List.range (n + 1)).foldl (writeSlot run entry) w) dir chain' := by
  obtain ⟨hwb, hchain', -⟩ := hext.spec h.ok h.isChain
  obtain ⟨zeros, hslots⟩ := hext.slots h.ok h.isChain
  have hwok : w.bpb.Ok := hwb ▸ h.ok
  have hr : ∀ c ∈ chain', w.bpb.InRange c := hchain'.inRange
  obtain ⟨hb, hdisk⟩ := writeSlots_spec w run (n + 1) hlen
  have hwritten := dirSlots_writeSlots hwok hr (hchain'.nodup hwok) hlen (by rw [hwb]; exact hfit)
    (by rw [hwb]; exact hplace)
  rw [hslots] at hwritten
  set w' := (List.range (n + 1)).foldl (writeSlot run entry) w
  have hlow : ∀ k < n + 1, w.bpb.firstDataSector * 512 ≤ slotAddr run k := by
    intro k hk
    have := dataStart_le_clusterAddr hwok (hr _ (mem_chain_of_lt hwok
      (show q + k < entryCount w.bpb chain' by rw [hwb]; omega)))
    rw [hplace k hk, entryAddr, ← hwb]
    omega
  have hfat : ∀ d < v.bpb.maxCluster, getFatEntry w' d = getFatEntry w d := by
    intro d hd
    refine getFatEntry_congr hwok hb (by rw [hwb]; exact hd) fun x _ hx => hdisk x fun k hk => ?_
    have := hlow k hk
    omega
  -- clusters in use are not added to the chain
  have howns : ∀ e, Owns v chain e → Owns w' chain' e := by
    intro e he
    have hnot : slotCluster e ∉ chain' := by
      intro hmem
      rcases hext.mem h.ok hmem with hmem | hfree
      · exact he.2 hmem
      · have := he.1.not_free _ mem_cons_self
        rw [hfree, fat32Free] at this
        omega
    have hd := (he.1.inRange _ mem_cons_self).2
    refine he.congr (hb.trans hwb) ?_ hnot
    rw [hfat _ hd, hext.fat h.ok h.isChain hd hnot]
  have hgain : Gained (dirSlots v chain) (dirSlots w' chain') (q + n) (entry n) := by
    intro j e hj
    rcases hwritten.gained hdead j e hj with ⟨hjk, hj'⟩ | hnew
    · exact .inl ⟨hjk, named_append_zero.mp hj'⟩
    · exact .inr hnew
  refine h.gain (hb.trans hwb) (hchain'.congr hb fun d hd => hfat d (hwb ▸ (hr d hd).2)) ?_ ?_ hgain
    (fun j e _ hj => hname j e hj) (howns _ hown) ?_
  · rintro rfl
    simp [entryCount] at hfit
  · refine hwritten.tidy (h.tidy.append_zero zeros) hfirst ?_
    intro i hi e he
    have hq : q ≤ entryCount v.bpb chain := by
      rcases hstart with ⟨hq, -⟩ | ⟨-, hq, -⟩ <;> omega
    rw [getElem?_append_left (by rw [length_dirSlots]; omega)] at he
    exact hstart.before h.tidy i hi e he
  · intro j e _ hj hdot
    exact ⟨howns e (h.owned j e hj hdot), hcl j e hj hdot⟩

theorem findFreeDirSlot_eq (h : DirInv v dir chain) :
    findFreeDirSlot v dir = findFreeDirSlots v dir 1 := by
  have hinv : ScanInv (EntryFree v chain) (entryAddr v.bpb chain) 1 (entryCount v.bpb [])
      emptyRun := by
    simpa [entryCount] using scanInv_empty (show 0 < 1 by omega)
  unfold findFreeDirSlot findFreeDirSlots
  rcases searchSlots_spec h.ok [] chain 0 h.isChain (h.isChain.length_lt h.ok) hinv with
    ⟨run', hs, -⟩ | ⟨run', hs, hi⟩
  · rw [hs]
  · rw [hs]
    have hlen : run'.len = 0 := by
      have := hi.short
      omega
    have hprev : chain.getLastD 0 ≠ 0 := by
      obtain ⟨last, hlast⟩ : ∃ last, chain.getLast? = some last :=
        ⟨_, getLast?_eq_some_getLast h.nonempty⟩
      have := (h.inRange last (mem_of_getLast? hlast)).1
      rw [getLastD_eq_getLast?, hlast, Option.getD_some]
      omega
    dsimp only
    rw [if_pos hprev, if_pos hlen]

/-! ### The short name of a new entry -/

theorem generateSfn_good {name : List UInt8} (hname : AsciiName name) :
    (generateSfn v dir name).2.length = 11 ∧ GoodFirst ((generateSfn v dir name).2.getD 0 0) := by
  have hlen := length_makeShortName name
  have hgood := goodFirst_makeShortName hname
  unfold generateSfn
  dsimp only
  split
  · split
    · exact ⟨by rw [length_withTail, hlen], by rw [getD_withTail]; exact hgood⟩
    · exact ⟨by rw [length_withTail, hlen], by rw [getD_withTail]; exact hgood⟩
  · exact ⟨hlen, hgood⟩

def TailFree (v : Volume) (dir : ℕ) (name : List UInt8) : Prop :=
  ∃ tail ∈ List.range' 1 99, sfnExistsInDir v dir (withTail (makeShortName name) tail) = false

theorem generateSfn_absent (h : DirInv v dir chain) {name : List UInt8}
    (hfree : if needsLfn name then TailFree v dir name
      else Absent (dirSlots v chain) (makeShortName name)) :
    Absent (dirSlots v chain) (generateSfn v dir name).2 := by
  unfold generateSfn
  dsimp only
  split at hfree
  · rename_i hlfn
    rw [if_pos hlfn]
    obtain ⟨tail, hmem, htail⟩ := hfree
    split
    · rename_i tail' hfind
      have := find?_some hfind
      exact (sfnExists_iff h.ok h.isChain h.tidy _).mp (by simpa using this)
    · rename_i hnone
      rw [find?_eq_none] at hnone
      exact absurd (by simpa using htail) (hnone tail hmem)
  · rename_i hlfn
    rw [if_neg hlfn]
    exact hfree

/-- The slots of a long name fit the sequence number and go to neighbouring clusters. -/
def RoomFor (v : Volume) (dir : ℕ) (name : List UInt8) : Prop :=
  lfnSlotCount name < 256 ∧
    ∀ chain, IsChain v dir chain → SlotsContiguous v chain (lfnSlotCount name + 1)

section Link

variable {name : List UInt8} {attr : UInt8} {c : ℕ} {t : Stamp}

/-- The cluster `c` of a new entry is nobody's yet. -/
structure Fresh (v : Volume) (chain : List ℕ) (c : ℕ) : Prop where
  isChain : IsChain v c [c]
  notMem : c ∉ chain
  apart : ∀ j e, Named (dirSlots v chain) j e → slotFirst e ≠ charDot → slotCluster e ≠ c

section

variable (h : DirInv v dir chain)
include h

theorem DirInv.unlink (hc : Fresh v chain c) :
    ∃ w, freeChain v c chainFuel = some w ∧ DirInv w dir chain := by
  obtain ⟨w, hfree, hb, hfat, hdisk⟩ := freeChain_spec h.ok hc.isChain (hc.isChain.length_lt h.ok)
  refine ⟨w, hfree, (h.frame (c := c) hb ?_ ?_ hc.notMem hc.apart).2⟩
  · intro d hd x hx
    exact hdisk x ((dataStart_le_clusterAddr h.ok (h.inRange d hd)).trans hx.1)
  · intro d hd hne
    exact hfat d hd (by simpa using hne)

theorem putEntry_inv {sfn entry : List UInt8} (hlen : entry.length = 32)
    (hfirst : slotFirst entry ≠ 0) (habsent : Absent (dirSlots v chain) (slotName entry))
    (hown : Owns v chain entry)
    (hapart : ∀ j e, Named (dirSlots v chain) j e → slotFirst e ≠ charDot →
      slotCluster e ≠ slotCluster entry) (hroom : needsLfn name = true → RoomFor v dir name)
    (hput : putEntry v dir sfn name entry = some w) : ∃ chain', DirInv w dir chain' := by
  unfold putEntry at hput
  split at hput
  · rename_i hlfn
    obtain ⟨⟨w₁, addrs⟩, hwrite, rfl⟩ := Option.map_eq_some_iff.mp hput
    obtain ⟨w, run, hfind, rfl, -⟩ := lfnWriteSlots_eq hwrite
    obtain ⟨q, chain', hstart, hslot, hext, hq, haddr⟩ :=
      findFreeDirSlots_start h.ok h.isChain h.nonempty (by omega) hfind
    obtain ⟨hslots, hcont⟩ := hroom hlfn
    obtain ⟨hfit, hnb⟩ := hcont chain h.isChain q chain' hstart hslot
    have hr : ∀ d ∈ chain', v.bpb.InRange d := by
      obtain ⟨hwb, hchain', -⟩ := hext.spec h.ok h.isChain
      rw [← hwb]
      exact hchain'.inRange
    refine ⟨chain', h.written hext hstart hfit ?_ (length_slotEntry sfn name hlen) ?_ ?_ ?_ ?_ ?_⟩
    · intro k hk
      rw [slotAddr_eq, haddr, (entryAddr_linear_iff h.ok (entriesPerCluster_pos h.ok) hr
        (by omega)).mpr (hnb k hk)]
    · intro k hk
      unfold slotEntry
      dsimp only
      split
      · exact slotFirst_lfnEntry (by omega) (by omega)
      · exact hfirst
    · intro k hk
      simp only [slotEntry, if_pos hk]
      exact slotLive_lfnEntry
    · simpa [slotEntry] using habsent
    · simpa [slotEntry] using hown
    · simpa [slotEntry] using hapart
  · rw [findFreeDirSlot_eq h] at hput
    obtain ⟨⟨w, run⟩, hfind, rfl⟩ := Option.map_eq_some_iff.mp hput
    obtain ⟨q, chain', hstart, hslot, hext, hq, haddr⟩ :=
      findFreeDirSlots_start h.ok h.isChain h.nonempty (by omega) hfind
    have hone : writeDirEntry w run.sector run.offset entry =
        (List.range (0 + 1)).foldl (writeSlot run fun _ => entry) w := by
      simp [writeDirEntry, writeSlot, slotAddr_eq, Volume.setDisk]
    dsimp only
    rw [hone]
    refine ⟨chain', h.written hext hstart (by omega) ?_ (fun _ => hlen) (fun _ _ => hfirst) ?_
      habsent hown hapart⟩
    · intro k hk
      obtain rfl : k = 0 := by omega
      rw [slotAddr_eq, haddr, Nat.mul_zero, Nat.add_zero, Nat.add_zero]
    · intro k hk
      omega

theorem linkEntry_inv (hc : Fresh v chain c) (hname : AsciiName name)
    (habsent : Absent (dirSlots v chain) (generateSfn v dir name).2)
    (hroom : needsLfn name = true → RoomFor v dir name) :
    ∃ r, linkEntry v dir name attr c t = some r ∧ ∃ chain', DirInv r.1 dir chain' := by
  obtain ⟨hlen, hgood⟩ := generateSfn_good (v := v) hname
  have hc32 : c < 2 ^ 32 := by
    have h₁ := (hc.isChain.inRange c mem_cons_self).2
    have h₂ := h.ok.clusters
    unfold fat32Bad at h₂
    omega
  unfold linkEntry
  dsimp only
  split
  · rename_i w hput
    refine ⟨_, rfl, putEntry_inv h (length_newEntry hlen) ?_ ?_ ?_ ?_ hroom hput⟩
    · rw [slotFirst_newEntry hlen]
      exact hgood.1
    · rw [slotName_newEntry hlen]
      exact habsent
    · rw [Owns, slotCluster_newEntry hlen hc32]
      exact ⟨hc.isChain, hc.notMem⟩
    · rw [slotCluster_newEntry hlen hc32]
      exact hc.apart
  · obtain ⟨w, hfree, hinv⟩ := h.unlink hc
    exact ⟨(w, -1), by simp [hfree], chain, hinv⟩

omit h in
theorem allocCluster_none (h : (allocCluster v).2 = 0) : (allocCluster v).1 = v := by
  unfold allocCluster at h ⊢
  split
  · rfl
  · rename_i cluster hpick
    rw [hpick] at h
    have h0 : cluster = 0 := h
    have := (pickFree_some hpick).1.1
    omega

theorem withCluster_inv (hne : (allocCluster v).2 ≠ 0) :
    (withCluster v).bpb = v.bpb ∧ dirSlots (withCluster v) chain = dirSlots v chain ∧
      DirInv (withCluster v) dir chain ∧ Fresh (withCluster v) chain (allocCluster v).2 := by
  have halloc : allocCluster v = ((allocCluster v).1, (allocCluster v).2) := rfl
  obtain ⟨hr, hfree, hb, heoc, hfat, hdata, -⟩ := allocZeroed_spec h.ok halloc hne
  set new := (allocCluster v).2
  have hnot : new ∉ chain := by
    intro hmem
    have := h.isChain.not_free new hmem
    rw [hfree, fat32Free] at this
    omega
  have hapart : ∀ j e, Named (dirSlots v chain) j e → slotFirst e ≠ charDot →
      slotCluster e ≠ new := by
    intro j e hj hdot heq
    have := (h.owned j e hj hdot).1.not_free _ mem_cons_self
    rw [heq, hfree, fat32Free] at this
    omega
  obtain ⟨hslots, hinv⟩ := h.frame (w := withCluster v) hb (fun d hd x hx => by
    have hdr := h.inRange d hd
    refine hdata x ((dataStart_le_clusterAddr h.ok hdr).trans hx.1) fun hx' => hnot ?_
    rw [← cluster_unique h.ok hdr hr hx hx']
    exact hd) hfat hnot hapart
  refine ⟨hb, hslots, hinv, ?_, hnot, hslots ▸ hapart⟩
  refine ⟨rfl, hb ▸ hr, ?_⟩
  show fat32Eoc ≤ getFatEntry (withCluster v) new
  rw [withCluster, heoc]
  decide

theorem createFileVol_inv (hname : AsciiName name)
    (hfree : if needsLfn name then TailFree (withCluster v) dir name
      else sfnExistsInDir v dir (makeShortName name) = false)
    (hroom : needsLfn name = true → RoomFor (withCluster v) dir name) :
    ∃ r, createFileVol v dir name t = some r ∧ ∃ chain', DirInv r.1 dir chain' := by
  unfold createFileVol
  split
  · exact ⟨_, rfl, chain, h⟩
  split
  · rename_i hfull
    rw [allocCluster_none hfull]
    exact ⟨_, rfl, chain, h⟩
  · rename_i hne
    obtain ⟨-, hslots, hinv, hfresh⟩ := withCluster_inv h hne
    refine linkEntry_inv hinv hfresh hname (generateSfn_absent hinv ?_) hroom
    split
    · rename_i hlfn
      rwa [if_pos hlfn] at hfree
    · rename_i hlfn
      rw [if_neg hlfn] at hfree
      rw [hslots]
      exact (sfnExists_iff h.ok h.isChain h.tidy _).mp hfree

omit h in
theorem length_dotEntries (c parent : ℕ) : (dotEntries c parent).length = 512 := by
  simp only [dotEntries, padTo, le16, length_append, length_replicate, length_cons,
    length_nil]

omit h in
theorem withDirCluster_bpb (v : Volume) (parent : ℕ) :
    (withDirCluster v parent).bpb = (withCluster v).bpb := Volume.setDisk_bpb _ _

omit h in
theorem withDirCluster_disk (hok : v.bpb.Ok) (parent : ℕ) {x : ℕ}
    (hx : ¬ InCluster v.bpb (allocCluster v).2 x) :
    (withDirCluster v parent).disk x = (withCluster v).disk x := by
  rw [withDirCluster, Volume.setDisk_disk]
  refine sameOutside_storeBytes le_rfl le_rfl x ?_
  have hspc := hok.spcPos
  unfold InCluster Bpb.bytesPerCluster at hx
  rw [length_dotEntries]
  omega

theorem withDirCluster_inv (hne : (allocCluster v).2 ≠ 0) (parent : ℕ) :
    dirSlots (withDirCluster v parent) chain = dirSlots v chain ∧
      DirInv (withDirCluster v parent) dir chain ∧
      Fresh (withDirCluster v parent) chain (allocCluster v).2 := by
  obtain ⟨hb, hslots, hinv, hfresh⟩ := withCluster_inv h hne
  have hr : v.bpb.InRange (allocCluster v).2 :=
    hb ▸ hfresh.isChain.inRange _ mem_cons_self
  have hfat : ∀ d < (withCluster v).bpb.maxCluster,
      getFatEntry (withDirCluster v parent) d = getFatEntry (withCluster v) d := by
    intro d hd
    refine getFatEntry_congr hinv.ok (withDirCluster_bpb v parent) hd fun x _ hx =>
      withDirCluster_disk h.ok parent fun hx' => ?_
    have hlow := dataStart_le_clusterAddr h.ok hr
    have hlo := hx'.1
    rw [hb] at hx
    omega
  have hdisk : ∀ d ∈ chain, ∀ x, InCluster (withCluster v).bpb d x →
      (withDirCluster v parent).disk x = (withCluster v).disk x := by
    intro d hd x hx
    refine withDirCluster_disk h.ok parent fun hx' => hfresh.notMem ?_
    rw [hb] at hx
    rw [← cluster_unique h.ok (h.inRange d hd) hr hx hx']
    exact hd
  obtain ⟨hslots', hinv'⟩ := hinv.frame (withDirCluster_bpb v parent) hdisk
    (fun d hd _ => hfat d hd) hfresh.notMem hfresh.apart
  refine ⟨hslots'.trans hslots, hinv', ?_, hfresh.notMem, ?_⟩
  · exact hfresh.isChain.congr (withDirCluster_bpb v parent) fun d hd =>
      hfat d (hfresh.isChain.inRange d hd).2
  · rw [hslots']
    exact hfresh.apart

theorem dirFindChild_absent (hfind : dirFindChild v dir name = 0) :
    Absent (dirSlots v chain) (makeShortName name) := by
  unfold dirFindChild at hfind
  split at hfind
  · contradiction
  rcases scanChain_spec h.ok h.isChain with hover | hleft
  · rw [hover] at hfind
    contradiction
  refine (nameTurn_searches v name).absent (s := LfnScan.start) h.tidy fun r hfold => ?_
  rw [hfold] at hleft
  dsimp only at hleft
  rw [hleft] at hfind
  cases r with
  | none => rfl
  | some hit => simp at hfind

theorem createDirVol_inv (hname : AsciiName name)
    (hfree : needsLfn name = true → TailFree (withDirCluster v dir) dir name)
    (hroom : needsLfn name = true → RoomFor (withDirCluster v dir) dir name) :
    ∃ r, createDirVol v dir name t = some r ∧ ∃ chain', DirInv r.1 dir chain' := by
  unfold createDirVol
  split
  · exact ⟨_, rfl, chain, h⟩
  split
  · exact ⟨_, rfl, chain, h⟩
  rename_i hfind
  split
  · rename_i hfull
    rw [allocCluster_none hfull]
    exact ⟨_, rfl, chain, h⟩
  · rename_i hne
    obtain ⟨hslots, hinv, hfresh⟩ := withDirCluster_inv h hne dir
    refine linkEntry_inv hinv hfresh hname (generateSfn_absent hinv ?_) hroom
    split
    · rename_i hlfn
      exact hfree hlfn
    · rw [hslots]
      exact dirFindChild_absent h (not_not.mp hfind)

end

end Link

/-! ### Runs -/

/-- A new name finds an unused short name and a place for its slots. -/
def LinkSafe (v : Volume) (dir : ℕ) (name : List UInt8) : Prop :=
  needsLfn name = true → TailFree v dir name ∧ RoomFor v dir name

/-- What keeps a call from giving a second entry the same short name: a file whose name needs
no long name has a short name that is not in use; a long name has a numeric tail left and goes
to neighbouring clusters, once the new cluster has been allocated; a deletion does not match `.`
or `..`; and a rename replaces, changes nothing, finds no source or finds no entry of the new
name. -/
def NameCall.Safe (dir : ℕ) (v : Volume) : NameCall → Prop
  | .createFile name _ =>
    LinkSafe (withCluster v) dir name ∧
      (needsLfn name = false → sfnExistsInDir v dir (makeShortName name) = false)
  | .createDir name _ => LinkSafe (withDirCluster v dir) dir name
  | .delete name => ¬ MatchesDot v dir name
  | .rmdir _ => True
  | .rename oldName newName replace =>
    replace = true ∨ makeShortName oldName = makeShortName newName ∨
      sfnExistsInDir v dir (makeShortName newName) = false ∨
      sfnExistsInDir v dir (makeShortName oldName) = false

def NameCall.Ascii : NameCall → Prop
  | .createFile name _ => AsciiName name
  | .createDir name _ => AsciiName name
  | .delete name => AsciiName name
  | .rmdir name => AsciiName name
  | .rename oldName newName _ => AsciiName oldName ∧ AsciiName newName

theorem nameExec_inv (h : DirInv v dir chain) {call : NameCall} (hascii : call.Ascii)
    (hsafe : call.Safe dir v) :
    ∃ r, nameExec dir v call = some r ∧ ∃ chain', DirInv r.1 dir chain' := by
  cases call with
  | createFile name t =>
    refine createFileVol_inv h hascii ?_ fun hlfn => (hsafe.1 hlfn).2
    split
    · rename_i hlfn
      exact (hsafe.1 hlfn).1
    · rename_i hlfn
      exact hsafe.2 (by simpa using hlfn)
  | createDir name t =>
    exact createDirVol_inv h hascii (fun hlfn => (hsafe hlfn).1) fun hlfn => (hsafe hlfn).2
  | delete name =>
    obtain ⟨r, hr, hinv⟩ := deleteFileVol_inv h name hsafe
    exact ⟨r, hr, chain, hinv⟩
  | rmdir name =>
    obtain ⟨r, hr, hinv⟩ := rmdir_inv h hascii
    exact ⟨r, hr, chain, hinv⟩
  | rename oldName newName replace =>
    obtain ⟨r, hr, hinv⟩ := renameVol_inv h hascii.1 hascii.2 hsafe
    exact ⟨r, hr, chain, hinv⟩

/-- A directory without entries, other than one `.` and one `..`. -/
structure EmptyDir (v : Volume) (chain : List ℕ) : Prop where
  tidy : Tidy (dirSlots v chain)
  dots : ∀ e ∈ shortNames (dirSlots v chain),
    e = padTo 11 [charDot] ∨ e = padTo 11 [charDot, charDot]
  nodup : (shortNames (dirSlots v chain)).Nodup

theorem mem_shortNames {l : List Slot} (h : Tidy l) {n : List UInt8} :
    n ∈ shortNames l ↔ ∃ j e, Named l j e ∧ slotName e = n := by
  rw [shortNames, h.takeWhile, filter_filter]
  simp only [mem_map, mem_filter]
  constructor
  · rintro ⟨e, ⟨hmem, hlive⟩, rfl⟩
    obtain ⟨j, hj⟩ := getElem?_of_mem hmem
    exact ⟨j, e, ⟨hj, by simpa [and_comm] using hlive⟩, rfl⟩
  · rintro ⟨j, e, ⟨hj, h0, hlive⟩, rfl⟩
    exact ⟨e, ⟨mem_of_getElem? hj, by simp [h0, hlive]⟩, rfl⟩

theorem EmptyDir.inv (h : EmptyDir v chain) (hok : v.bpb.Ok) (hchain : IsChain v dir chain)
    (hdir : v.bpb.InRange dir) : DirInv v dir chain := by
  have hdots : ∀ j e, Named (dirSlots v chain) j e → slotFirst e = charDot := by
    intro j e hj
    have hfirst : slotFirst e = (slotName e).getD 0 0 := by
      simp [slotFirst, slotName, getD_eq_getElem?_getD]
    rw [hfirst]
    rcases h.dots _ ((mem_shortNames h.tidy).mpr ⟨j, e, hj, rfl⟩) with heq | heq
    · rw [heq]
      decide
    · rw [heq]
      decide
  refine ⟨hok, hchain, ?_, h.tidy, (nodup_shortNames h.tidy).mp h.nodup, ?_, ?_⟩
  · rintro rfl
    have hend : fat32Eoc ≤ dir := hchain
    have := hdir.lt_eoc hok
    omega
  · intro j e hj hdot
    exact absurd (hdots j e hj) hdot
  · intro i j e e' hi hj hdot
    exact absurd (hdots i e hi) hdot

/-- From an empty directory, runs of safe calls return, and after them the short names of the
directory are distinct. -/
theorem nameRun_distinct (v : Volume) (dir : ℕ) (chain : List ℕ) (calls : List NameCall)
    (hok : v.bpb.Ok) (hdir : v.bpb.InRange dir) (hchain : IsChain v dir chain)
    (hempty : EmptyDir v chain) (hascii : ∀ call ∈ calls, call.Ascii)
    (hsafe : Refine.Along (nameExec dir) (fun v call => call.Safe dir v) v calls) :
    ∃ v' rets chain', Refine.run (nameExec dir) v calls = some (v', rets) ∧
      IsChain v' dir chain' ∧ (shortNames (dirSlots v' chain')).Nodup := by
  have hinv := hempty.inv hok hchain hdir
  clear hempty hchain hdir hok
  induction calls generalizing v chain with
  | nil =>
    exact ⟨v, [], chain, rfl, hinv.isChain, (nodup_shortNames hinv.tidy).mpr hinv.names⟩
  | cons call calls ih =>
    obtain ⟨r, hr, chain₁, hinv₁⟩ :=
      nameExec_inv hinv (hascii call mem_cons_self) hsafe.1
    obtain ⟨v', rets, chain', hrun, hchain', hnodup⟩ :=
      ih r.1 chain₁ (fun c hc => hascii c (mem_cons_of_mem _ hc)) (hsafe.2 r hr) hinv₁
    refine ⟨v', r.2 :: rets, chain', ?_, hchain', hnodup⟩
    rw [Refine.run, hr, Option.bind_some, hrun, Option.map_some]

/-! ### An empty root directory -/

def emptyRoot : Volume where
  bpb := ⟨512, 1, 1, 1, 12, 1, 2, 2, 1⟩
  disk := fun x =>
    if 512 ≤ x ∧ x < 1024 then
      UInt8.ofNat ([0, 0, eocMark].getD ((x - 512) / 4) 0 / 256 ^ ((x - 512) % 4))
    else 0
  fsinfoValid := false
  fsinfoFreeCount := fsinfoUnknown
  fsinfoNextFree := 2
  fsinfoDirty := false

theorem emptyRoot_ok : emptyRoot.bpb.Ok := by
  constructor <;> decide

theorem emptyRoot_inRange : emptyRoot.bpb.InRange 2 := by
  unfold Bpb.InRange
  decide

theorem emptyRoot_chain : IsChain emptyRoot 2 [2] :=
  ⟨rfl, emptyRoot_inRange, show fat32Eoc ≤ _ by decide⟩

theorem emptyRoot_slots : dirSlots emptyRoot [2] = replicate 16 zeroSlot := by
  decide

theorem emptyRoot_empty : EmptyDir emptyRoot [2] where
  tidy := by
    have htidy : Tidy [] := by
      intro i j e e' _ hi
      simp at hi
    rw [emptyRoot_slots]
    exact htidy.append_zero 16
  dots := by
    rw [emptyRoot_slots]
    decide
  nodup := by
    rw [emptyRoot_slots]
    decide

/-- A file is created and renamed. -/
theorem nameRun_distinct_emptyRoot : ∃ v' rets chain', Refine.run (nameExec 2) emptyRoot
        [.createFile [0x41] ⟨0, 0, 0⟩, .rename [0x41] [0x42] false] = some (v', rets) ∧
      IsChain v' 2 chain' ∧ (shortNames (dirSlots v' chain')).Nodup := by
  refine nameRun_distinct emptyRoot 2 [2] _ emptyRoot_ok emptyRoot_inRange emptyRoot_chain
    emptyRoot_empty ?_ ⟨⟨?_, ?_⟩, fun p hp => ⟨?_, fun _ _ => trivial⟩⟩
  · simp [NameCall.Ascii, AsciiName]
  · intro hlfn
    exact absurd hlfn (by decide)
  · intro _
    decide
  · refine .inr (.inr (.inl ?_))
    have hfree : (nameExec 2 emptyRoot (.createFile [0x41] ⟨0, 0, 0⟩)).map
        (fun p => sfnExistsInDir p.1 2 (makeShortName [0x42])) = some false := by decide
    rw [hp, Option.map_some, Option.some.injEq] at hfree
    exact hfree

/-- Creating a file twice gives two entries of one short name. -/
theorem nameRun_createTwice : emptyRoot.bpb.Ok ∧ IsChain emptyRoot 2 [2] ∧ EmptyDir emptyRoot [2] ∧
      ∃ v', Refine.run (nameExec 2) emptyRoot
        [.createFile [0x41] ⟨0, 0, 0⟩, .createFile [0x41] ⟨0, 0, 0⟩] = some (v', [0, 0]) ∧
      IsChain v' 2 [2] ∧ ¬ (shortNames (dirSlots v' [2])).Nodup := by
  refine ⟨emptyRoot_ok, emptyRoot_chain, emptyRoot_empty, ?_⟩
  have hret : (Refine.run (nameExec 2) emptyRoot
      [.createFile [0x41] ⟨0, 0, 0⟩, .createFile [0x41] ⟨0, 0, 0⟩]).map Prod.snd = some [0, 0] := by
    decide
  have hbpb : (Refine.run (nameExec 2) emptyRoot
      [.createFile [0x41] ⟨0, 0, 0⟩, .createFile [0x41] ⟨0, 0, 0⟩]).map (fun p => p.1.bpb) =
        some emptyRoot.bpb := by
    decide
  have hfat : (Refine.run (nameExec 2) emptyRoot
      [.createFile [0x41] ⟨0, 0, 0⟩, .createFile [0x41] ⟨0, 0, 0⟩]).map
        (fun p => getFatEntry p.1 2) = some eocMark := by
    decide
  have hnames : (Refine.run (nameExec 2) emptyRoot
      [.createFile [0x41] ⟨0, 0, 0⟩, .createFile [0x41] ⟨0, 0, 0⟩]).map
        (fun p => shortNames (dirSlots p.1 [2])) =
          some [makeShortName [0x41], makeShortName [0x41]] := by
    decide
  obtain ⟨⟨v', rets⟩, hrun, hsnd⟩ := Option.map_eq_some_iff.mp hret
  simp only [hrun, Option.map_some, Option.some.injEq] at hbpb hfat hnames
  subst hsnd
  refine ⟨v', hrun, ⟨rfl, hbpb ▸ emptyRoot_inRange, ?_⟩, ?_⟩
  · rw [hfat]
    show fat32Eoc ≤ eocMark
    decide
  · rw [hnames]
    decide

end ImpossibleOs.Fat32
