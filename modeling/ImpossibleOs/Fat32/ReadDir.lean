import ImpossibleOs.Fat32.DirStep

/-!
Looking up a name (`src/kernel/fs/fat32/fat32_dir.c`, `fat32_ops.c`).

`fat32_read_dir` fills the table of files of a directory, each under its long
name if LFN entries stand before it, and `fat32_finddir` takes the first file
of the name. Here a file also keeps the entry it was read from and whether its
name is a long one.
-/

namespace ImpossibleOs.Fat32

open ByteMem List

def fat32MaxDirEntries : ℕ := 128

structure DirFile where
  entry : ℕ × ℕ
  name : List UInt8
  long : Bool
  isDirectory : Bool
  firstCluster : ℕ
  fileSize : ℕ
  sfn : List UInt8
  deriving DecidableEq

/-- The long name that `fat32_read_dir` collects. Unlike the scans that delete and create, it
looks neither at sequence nor at checksum. -/
structure LfnBuf where
  name : List UInt8
  active : Bool
  deriving DecidableEq

def LfnBuf.idle : LfnBuf := ⟨emptyName, false⟩

def LfnBuf.off (s : LfnBuf) : LfnBuf := { s with active := false }

def LfnBuf.collect (m : ByteMem) (a : ℕ) (s : LfnBuf) : LfnBuf :=
  let seq := (m a &&& lfnSeqMask).toNat
  let s := if m a &&& lfnLastEntry ≠ 0 then ⟨emptyName, true⟩ else s
  if s.active ∧ 1 ≤ seq ∧ seq ≤ fat32LfnMaxEntries then
    { s with name := lfnExtractChars m a s.name (seq - 1) }
  else s

/-- A long name has been collected. -/
def LfnBuf.holds (s : LfnBuf) : Bool := s.active && s.name.getD 0 0 ≠ 0

/-- What an entry is to the reader. -/
inductive ReadItem
  | endMark
  | pass (s : LfnBuf)
  | file (f : DirFile)

def readItem (v : Volume) (s : LfnBuf) (p : ℕ × ℕ) : ReadItem :=
  let a := entryPos v.bpb p
  if v.disk a = 0x00 then .endMark
  else if v.disk a = 0xE5 then .pass s.off
  else if deAttr v.disk a = fat32AttrLfn then .pass (s.collect v.disk a)
  else if deAttr v.disk a &&& 0x08 ≠ 0 then .pass s.off
  else if v.disk a = charDot then .pass s.off
  else .file
    { entry := p
      name := if s.holds then (cString s.name).take (fat32MaxName - 1)
        else shortNameToStr (bytes v.disk a 11)
      long := s.holds
      isDirectory := deAttr v.disk a &&& fat32AttrDirectory ≠ 0
      firstCluster := deFirstCluster v.disk a
      fileSize := deFileSize v.disk a
      sfn := bytes v.disk a 11 }

structure ReadState where
  lfn : LfnBuf
  files : List DirFile

/-- One entry of `fat32_read_dir`. With a full table the rest is passed over. -/
def readTurn (v : Volume) (s : ReadState) (p : ℕ × ℕ) : Except ReadState ReadState :=
  if fat32MaxDirEntries ≤ s.files.length then .ok s
  else
    match readItem v s.lfn p with
    | .endMark => .error s
    | .pass lfn => .ok { s with lfn := lfn }
    | .file f => .ok ⟨s.lfn.off, s.files ++ [f]⟩

/-- The loop over the clusters; `none` is a chain without end. -/
def readDirFrom (v : Volume) : ℕ → ℕ → ReadState → Option ReadState
  | 0, _, _ => none
  | fuel + 1, cluster, s =>
    if cluster < fat32Eoc ∧ cluster ≠ fat32Free then
      match (dirEntries v.bpb [cluster]).foldlM (readTurn v) s with
      | .error s => some s
      | .ok s => readDirFrom v fuel (nextCluster v cluster) s
    else some s

/-- `fat32_read_dir`: the table, which stays empty when the loop has no end. -/
def readDir (v : Volume) (cluster : ℕ) : List DirFile :=
  match readDirFrom v chainFuel cluster ⟨.idle, []⟩ with
  | some s => s.files
  | none => []

/-- `fat32_finddir` on a table that is read anew. -/
def finddir (v : Volume) (dir : ℕ) (name : List UInt8) : Option DirFile :=
  (readDir v dir).find? fun f => strcasecmp f.name name

/-! ### The table as a function of the entries -/

/-- The files among the entries up to the end mark. -/
def listing (v : Volume) : LfnBuf → List (ℕ × ℕ) → List DirFile
  | _, [] => []
  | s, p :: ps =>
    match readItem v s p with
    | .endMark => []
    | .pass s' => listing v s' ps
    | .file f => f :: listing v s.off ps

/-- What is collected after some entries; `none` behind the end mark. -/
def lfnAfter (v : Volume) : LfnBuf → List (ℕ × ℕ) → Option LfnBuf
  | s, [] => some s
  | s, p :: ps =>
    match readItem v s p with
    | .endMark => none
    | .pass s' => lfnAfter v s' ps
    | .file _ => lfnAfter v s.off ps

variable {v w : Volume}

variable {ps : List (ℕ × ℕ)} {s s' : LfnBuf}

theorem listing_append {ps qs : List (ℕ × ℕ)} (h : lfnAfter v s ps = some s') :
    listing v s (ps ++ qs) = listing v s ps ++ listing v s' qs := by
  induction ps generalizing s with
  | nil =>
    cases h
    rfl
  | cons p ps ih =>
    rw [lfnAfter] at h
    rw [cons_append, listing, listing]
    cases hp : readItem v s p with
    | endMark =>
      rw [hp] at h
      contradiction
    | pass s₁ =>
      rw [hp] at h
      exact ih h
    | file f =>
      rw [hp] at h
      exact congrArg (f :: ·) (ih h)

theorem readItem_ne_endMark {s : LfnBuf} {p : ℕ × ℕ} (h : v.disk (entryPos v.bpb p) ≠ 0) :
    readItem v s p ≠ .endMark := by
  unfold readItem
  dsimp only
  rw [if_neg h]
  repeat' split
  all_goals simp

theorem lfnAfter_of_nonzero {s : LfnBuf}
    (h : ∀ p ∈ ps, v.disk (entryPos v.bpb p) ≠ 0) : ∃ s', lfnAfter v s ps = some s' := by
  induction ps generalizing s with
  | nil => exact ⟨s, rfl⟩
  | cons p ps ih =>
    have hps := fun q hq => h q (mem_cons_of_mem p hq)
    rw [lfnAfter]
    cases hp : readItem v s p with
    | endMark => exact absurd hp (readItem_ne_endMark (h p mem_cons_self))
    | pass s₁ => exact ih hps
    | file f => exact ih hps

/-- Both branches of a scan end with a state. -/
def finalState (r : Except ReadState ReadState) : ReadState :=
  match r with
  | .error s => s
  | .ok s => s

theorem foldlM_full {s : ReadState}
    (h : fat32MaxDirEntries ≤ s.files.length) : ps.foldlM (readTurn v) s = .ok s := by
  induction ps with
  | nil => rfl
  | cons p ps ih =>
    rw [foldlM_cons, readTurn, if_pos h]
    exact ih

theorem foldlM_readTurn (ps : List (ℕ × ℕ)) {s : ReadState}
    (h : s.files.length ≤ fat32MaxDirEntries) : (finalState (ps.foldlM (readTurn v) s)).files =
      (s.files ++ listing v s.lfn ps).take fat32MaxDirEntries := by
  induction ps generalizing s with
  | nil =>
    rw [listing, append_nil, take_of_length_le h]
    rfl
  | cons p ps ih =>
    by_cases hfull : fat32MaxDirEntries ≤ s.files.length
    · rw [foldlM_full hfull, take_append_of_le_length hfull,
        take_of_length_le h]
      rfl
    rw [foldlM_cons, readTurn, if_neg hfull, listing]
    cases hp : readItem v s.lfn p with
    | endMark =>
      dsimp only
      rw [append_nil, take_of_length_le h]
      rfl
    | pass s₁ => exact ih (s := { s with lfn := s₁ }) h
    | file f =>
      have hnext := ih (s := ⟨s.lfn.off, s.files ++ [f]⟩) (by simp; omega)
      rw [append_assoc, singleton_append] at hnext
      exact hnext

theorem readDirFrom_spec {chain : List ℕ} {cur fuel : ℕ} {s : ReadState} (hok : v.bpb.Ok)
    (h : IsChain v cur chain) (hfuel : chain.length < fuel) : readDirFrom v fuel cur s =
      some (finalState ((dirEntries v.bpb chain).foldlM (readTurn v) s)) := by
  induction chain generalizing cur fuel s with
  | nil =>
    have hend : ¬ (cur < fat32Eoc ∧ cur ≠ fat32Free) := by
      have : fat32Eoc ≤ cur := h
      omega
    cases fuel with
    | zero => omega
    | succ fuel =>
      rw [readDirFrom, if_neg hend]
      rfl
  | cons c chain ih =>
    obtain ⟨rfl, hc, hl⟩ := h
    have hin : c < fat32Eoc ∧ c ≠ fat32Free := by
      have h₁ := hc.1
      have h₂ := hc.lt_eoc hok
      unfold fat32Free
      omega
    cases fuel with
    | zero => omega
    | succ fuel =>
      rw [length_cons] at hfuel
      have happ : dirEntries v.bpb (c :: chain) =
          dirEntries v.bpb [c] ++ dirEntries v.bpb chain :=
        dirEntries_append v.bpb [c] chain
      rw [readDirFrom, if_pos hin, happ, foldlM_append]
      cases hfold : (dirEntries v.bpb [c]).foldlM (readTurn v) s with
      | error s₁ => rfl
      | ok s₁ => exact ih hl (by omega)

theorem readDir_eq {chain : List ℕ} {dir : ℕ} (hok : v.bpb.Ok) (h : IsChain v dir chain) :
    readDir v dir = (listing v .idle (dirEntries v.bpb chain)).take fat32MaxDirEntries := by
  unfold readDir
  rw [readDirFrom_spec hok h (h.length_lt hok)]
  dsimp only
  rw [foldlM_readTurn _ (by simp), nil_append]

/-! ### Listings of changed directories -/

theorem lfnUnits_congr {m m' : ByteMem} {a : ℕ} (h : AgreeOn a (a + 32) m m') :
    lfnUnits m' a = lfnUnits m a := by
  have hunit : ∀ i ∈ List.range 13, lfnUnit m' a i = lfnUnit m a i := by
    intro i hi
    have hi' : i < 13 := mem_range.mp hi
    unfold lfnUnit
    apply readLE_congr
    refine h.mono ?_ ?_
    · omega
    · split
      · omega
      · split <;> omega
  unfold lfnUnits
  rw [map_congr_left hunit]

theorem LfnBuf.collect_congr {m m' : ByteMem} {a : ℕ} (h : AgreeOn a (a + 32) m m') (s : LfnBuf) :
    s.collect m' a = s.collect m a := by
  have h0 : m' a = m a := h a le_rfl (by omega)
  simp only [LfnBuf.collect, lfnExtractChars, lfnUnits_congr h, h0]

theorem readItem_congr (hb : w.bpb = v.bpb) {p : ℕ × ℕ}
    (h : AgreeOn (entryPos v.bpb p) (entryPos v.bpb p + 32) v.disk w.disk) (s : LfnBuf) :
    readItem w s p = readItem v s p := by
  set a := entryPos v.bpb p with ha
  have h0 : w.disk a = v.disk a := h a le_rfl (by omega)
  have hattr : deAttr w.disk a = deAttr v.disk a := h (a + 11) (by omega) (by omega)
  have hname : bytes w.disk a 11 = bytes v.disk a 11 := bytes_congr (h.mono le_rfl (by omega))
  have hcl : deFirstCluster w.disk a = deFirstCluster v.disk a := by
    unfold deFirstCluster
    rw [readLE_congr (h.mono (by omega) (by omega)), readLE_congr (h.mono (by omega) (by omega))]
  have hsize : deFileSize w.disk a = deFileSize v.disk a :=
    readLE_congr (h.mono (by omega) (by omega))
  simp only [readItem, hb, ← ha, h0, hattr, hname, hcl, hsize, LfnBuf.collect_congr h]

theorem listing_congr (hb : w.bpb = v.bpb)
    (h : ∀ p ∈ ps, AgreeOn (entryPos v.bpb p) (entryPos v.bpb p + 32) v.disk w.disk)
    (s : LfnBuf) : listing w s ps = listing v s ps ∧ lfnAfter w s ps = lfnAfter v s ps := by
  induction ps generalizing s with
  | nil => exact ⟨rfl, rfl⟩
  | cons p ps ih =>
    have hps := fun q hq => h q (mem_cons_of_mem p hq)
    rw [listing, listing, lfnAfter, lfnAfter, readItem_congr hb (h p mem_cons_self)]
    cases readItem v s p with
    | endMark => exact ⟨rfl, rfl⟩
    | pass s₁ => exact ih hps s₁
    | file f => exact ⟨congrArg (f :: ·) (ih hps s.off).1, (ih hps s.off).2⟩

theorem LfnBuf.collect_idle (m : ByteMem) (a : ℕ) (h : s.active = false) (h' : s'.active = false) :
    s.collect m a = s'.collect m a ∨
      ((s.collect m a).active = false ∧ (s'.collect m a).active = false) := by
  unfold LfnBuf.collect
  dsimp only
  by_cases hlast : m a &&& lfnLastEntry ≠ 0
  · simp only [if_pos hlast, true_or]
  · simp only [if_neg hlast]
    right
    simp [h, h']

theorem readItem_idle (h : s.active = false) (h' : s'.active = false) (p : ℕ × ℕ) :
    readItem v s p = readItem v s' p ∨
      ∃ t t', readItem v s p = .pass t ∧ readItem v s' p = .pass t' ∧ t.active = false ∧
        t'.active = false := by
  have hholds : s.holds = false := by simp [LfnBuf.holds, h]
  have hholds' : s'.holds = false := by simp [LfnBuf.holds, h']
  unfold readItem
  dsimp only
  rw [hholds, hholds']
  by_cases h0 : v.disk (entryPos v.bpb p) = 0
  · simp only [if_pos h0, true_or]
  by_cases h1 : v.disk (entryPos v.bpb p) = 0xE5
  · simp only [if_neg h0, if_pos h1]
    exact .inr ⟨_, _, rfl, rfl, rfl, rfl⟩
  by_cases h2 : deAttr v.disk (entryPos v.bpb p) = fat32AttrLfn
  · simp only [if_neg h0, if_neg h1, if_pos h2]
    rcases LfnBuf.collect_idle v.disk (entryPos v.bpb p) h h' with heq | ⟨hoff, hoff'⟩
    · exact .inl (by rw [heq])
    · exact .inr ⟨_, _, rfl, rfl, hoff, hoff'⟩
  by_cases h3 : deAttr v.disk (entryPos v.bpb p) &&& 0x08 ≠ 0
  · simp only [if_neg h0, if_neg h1, if_neg h2, if_pos h3]
    exact .inr ⟨_, _, rfl, rfl, rfl, rfl⟩
  by_cases h4 : v.disk (entryPos v.bpb p) = charDot
  · simp only [if_neg h0, if_neg h1, if_neg h2, if_neg h3, if_pos h4]
    exact .inr ⟨_, _, rfl, rfl, rfl, rfl⟩
  · simp only [if_neg h0, if_neg h1, if_neg h2, if_neg h3, if_neg h4]
    exact .inl rfl

theorem listing_idle (h : s.active = false) (h' : s'.active = false)
    (ps : List (ℕ × ℕ)) : listing v s ps = listing v s' ps := by
  induction ps generalizing s s' with
  | nil => rfl
  | cons p ps ih =>
    rw [listing, listing]
    rcases readItem_idle h h' p with heq | ⟨t, t', hs, hs', ht, ht'⟩
    · rw [heq]
      cases readItem v s' p with
      | endMark => rfl
      | pass s₁ => rfl
      | file f => exact congrArg (f :: ·) (ih rfl rfl)
    · rw [hs, hs']
      exact ih ht ht'

/-! ### Where the characters of long names are stored -/

/-- One entry of `fat32_stat`, in its search of a component of the path. -/
def statTurn (v : Volume) (target : List UInt8) (s : LfnBuf) (p : ℕ × ℕ) :
    Except (Option (ℕ × ℕ)) LfnBuf :=
  let a := entryPos v.bpb p
  if v.disk a = 0x00 then .error none
  else if v.disk a = 0xE5 then .ok s.off
  else if deAttr v.disk a = fat32AttrLfn then .ok (s.collect v.disk a)
  else if deAttr v.disk a &&& 0x08 ≠ 0 then .ok s.off
  else if strcasecmp (if s.holds then (cString s.name).take (fat32MaxName - 1)
      else shortNameToStr (bytes v.disk a 11)) target then .error (some p)
  else .ok s.off

def slotSeq (v : Volume) (p : ℕ × ℕ) : ℕ := (v.disk (entryPos v.bpb p) &&& lfnSeqMask).toNat

def isSlot (v : Volume) (p : ℕ × ℕ) : Bool :=
  v.disk (entryPos v.bpb p) ≠ 0xE5 && deAttr v.disk (entryPos v.bpb p) = fat32AttrLfn

/-- A name is collected behind an entry: over slots only, from one with the last-entry flag on. -/
def collects (v : Volume) (active : Bool) (p : ℕ × ℕ) : Bool :=
  isSlot v p && (active || v.disk (entryPos v.bpb p) &&& lfnLastEntry ≠ 0)

/-- The indices of the name buffer at which `lfn_extract_chars` stores. -/
def lfnStores (m : ByteMem) (a seqIndex : ℕ) : List ℕ :=
  (List.range (lfnUnits m a).length).map (seqIndex * 13 + ·)

/-- A directory reader; `active` says whether it is in a long name. -/
structure LfnReader (v : Volume) (σ ρ : Type) where
  turn : σ → ℕ × ℕ → Except ρ σ
  active : σ → Bool
  turn_ok : ∀ {s s' p}, turn s p = .ok s' →
    v.disk (entryPos v.bpb p) ≠ 0 ∧ (active s' → collects v (active s) p)

/-- The indices stored at in a scan: a reader calls `lfn_extract_chars` on a slot of a valid number
when it is in a name behind the slot. -/
def LfnReader.stores {v : Volume} {σ ρ : Type} (r : LfnReader v σ ρ) : σ → List (ℕ × ℕ) → List ℕ
  | _, [] => []
  | s, p :: ps =>
    match r.turn s p with
    | .error _ => []
    | .ok s' =>
      (if r.active s' ∧ 1 ≤ slotSeq v p ∧ slotSeq v p ≤ fat32LfnMaxEntries then
        lfnStores v.disk (entryPos v.bpb p) (slotSeq v p - 1) else []) ++ r.stores s' ps

/-- In front of the end mark no slot numbered 20 with ten or more characters is collected. -/
def slotsFit (v : Volume) : Bool → List (ℕ × ℕ) → Prop
  | _, [] => True
  | active, p :: ps =>
    v.disk (entryPos v.bpb p) = 0 ∨
      ¬(collects v active p ∧ slotSeq v p = fat32LfnMaxEntries ∧
        10 ≤ (lfnUnits v.disk (entryPos v.bpb p)).length) ∧ slotsFit v (collects v active p) ps

theorem lfnUnits_length_le (m : ByteMem) (a : ℕ) : (lfnUnits m a).length ≤ 13 := by
  rw [lfnUnits, length_map]
  exact (List.takeWhile_sublist _).length_le.trans (by simp)

theorem lfnStores_lt {m : ByteMem} {a seq : ℕ} (hlo : 1 ≤ seq) (hhi : seq ≤ fat32LfnMaxEntries) :
    (∀ i ∈ lfnStores m a (seq - 1), i < fat32MaxName) ↔
      ¬(seq = fat32LfnMaxEntries ∧ 10 ≤ (lfnUnits m a).length) := by
  have hlen := lfnUnits_length_le m a
  simp only [lfnStores, forall_mem_map, mem_range]
  unfold fat32MaxName fat32LfnMaxEntries at *
  constructor
  · rintro h ⟨rfl, hten⟩
    exact absurd (h 9 (by omega)) (by decide)
  · intro h i hi
    omega

theorem collects_mono {active active' : Bool} {p : ℕ × ℕ} (h : active → active')
    (hc : collects v active p) : collects v active' p := by
  cases active <;> simp_all [collects]

/-- Where the slots fit, no reader stores outside of the buffer. -/
theorem LfnReader.stores_lt {σ ρ : Type} (r : LfnReader v σ ρ) {s : σ} {active : Bool}
    (hs : r.active s → active) (h : slotsFit v active ps) :
    ∀ i ∈ r.stores s ps, i < fat32MaxName := by
  induction ps generalizing s active with
  | nil => simp [stores]
  | cons p ps ih =>
    rw [stores]
    cases hturn : r.turn s p with
    | error e => simp
    | ok s' =>
      obtain ⟨hne, hact⟩ := r.turn_ok hturn
      have hcol := fun hs' => collects_mono hs (hact hs')
      obtain ⟨hfit, hrest⟩ := h.resolve_left hne
      refine forall_mem_append.mpr ⟨?_, ih hcol hrest⟩
      split
      · rename_i hcall
        exact (lfnStores_lt hcall.2.1 hcall.2.2).mpr fun hbad => hfit ⟨hcol hcall.1, hbad⟩
      · simp

/-! #### The readers -/

theorem LfnBuf.collect_active (m : ByteMem) (a : ℕ) (s : LfnBuf) :
    (s.collect m a).active = (s.active || decide (m a &&& lfnLastEntry ≠ 0)) := by
  unfold LfnBuf.collect
  by_cases h : m a &&& lfnLastEntry ≠ 0
  · simp only [if_pos h]
    split <;> simp [h]
  · simp only [if_neg h]
    split <;> simp [h]

theorem LfnScan.collect_active {m : ByteMem} {cluster a : ℕ} {s : LfnScan}
    (h : (s.collect m cluster a).active) : s.active || decide (m a &&& lfnLastEntry ≠ 0) := by
  by_contra hno
  simp_all [LfnScan.collect]

theorem lfnExtractChars_ascii {m : ByteMem} {a : ℕ} {buf : List UInt8} (h : ∀ c ∈ buf, c < 0x80)
    (seqIndex : ℕ) : ∀ c ∈ lfnExtractChars m a buf seqIndex, c < 0x80 := by
  have hunits : ∀ q ∈ (lfnUnits m a).zipIdx, q.1 < 0x80 := by
    intro q hq
    obtain ⟨ch, -, hch⟩ := mem_map.mp (fst_mem_of_mem_zipIdx hq)
    rw [← hch]
    split
    · rename_i hlt
      rw [UInt8.lt_iff_toNat_lt, UInt8.toNat_ofNat']
      exact (Nat.mod_le _ _).trans_lt hlt
    · decide
  unfold lfnExtractChars
  generalize (lfnUnits m a).zipIdx = l at hunits ⊢
  induction l generalizing buf with
  | nil => exact h
  | cons q l ih =>
    refine ih (fun c hc => ?_) fun r hr => hunits r (mem_cons_of_mem q hr)
    rcases mem_or_eq_of_mem_set hc with hc | rfl
    · exact h c hc
    · exact hunits q mem_cons_self

/-- The buffer that `lfn_extract_chars` gets at a slot. -/
def openedName (m : ByteMem) (a : ℕ) (name : List UInt8) : List UInt8 :=
  if m a &&& lfnLastEntry ≠ 0 then emptyName else name

theorem LfnBuf.collect_name (m : ByteMem) (a : ℕ) (s : LfnBuf) : (s.collect m a).name =
    if (s.collect m a).active ∧ 1 ≤ (m a &&& lfnSeqMask).toNat ∧
        (m a &&& lfnSeqMask).toNat ≤ fat32LfnMaxEntries then
      lfnExtractChars m a (openedName m a s.name) ((m a &&& lfnSeqMask).toNat - 1)
    else openedName m a s.name := by
  unfold LfnBuf.collect openedName
  generalize (m a &&& lfnSeqMask).toNat = seq
  by_cases h : m a &&& lfnLastEntry ≠ 0 <;> grind

theorem LfnBuf.collect_ascii {m : ByteMem} {a : ℕ} (h : ∀ c ∈ s.name, c < 0x80) :
    ∀ c ∈ (s.collect m a).name, c < 0x80 := by
  have hopen : ∀ c ∈ openedName m a s.name, c < 0x80 := by
    unfold openedName
    split
    · simp [emptyName]
    · exact h
  rw [LfnBuf.collect_name]
  split
  · exact lfnExtractChars_ascii hopen _
  · exact hopen

theorem statTurn_ok {target : List UInt8} {p : ℕ × ℕ} (h : statTurn v target s p = .ok s') :
    v.disk (entryPos v.bpb p) ≠ 0 ∧ s'.active = collects v s.active p ∧
      ((∀ c ∈ s.name, c < 0x80) → ∀ c ∈ s'.name, c < 0x80) := by
  simp only [statTurn] at h
  split_ifs at h with h0 h1 h2 h3 <;> cases h <;>
    refine ⟨h0, by simp_all [collects, isSlot, LfnBuf.off, LfnBuf.collect_active], ?_⟩
  all_goals first | exact id | exact LfnBuf.collect_ascii

theorem shortNameToStr_length_le (raw : List UInt8) : (shortNameToStr raw).length ≤ 12 := by
  unfold shortNameToStr cString
  refine (List.takeWhile_sublist _).length_le.trans ?_
  have hpart : ∀ (n : ℕ) (l : List UInt8),
      (((l.take n).filter (· ≠ charSpace)).map toLower).length ≤ n := by
    intro n l
    rw [length_map]
    exact (length_filter_le _ _).trans (length_take_le n l)
  have hbase := hpart 8 raw
  have hext := hpart 3 (raw.drop 8)
  dsimp only
  rw [length_append]
  split
  · rw [length_cons]
    omega
  · rw [length_nil]
    omega

/-- A component of the path that is the name of no entry. -/
def alienName : List UInt8 := List.replicate 13 0x80

theorem statTurn_alien {p : ℕ × ℕ} (hs : ∀ c ∈ s.name, c < 0x80)
    (h0 : v.disk (entryPos v.bpb p) ≠ 0) : ∃ s', statTurn v alienName s p = .ok s' := by
  have hlong : strcasecmp ((cString s.name).take (fat32MaxName - 1)) alienName = false := by
    refine decide_eq_false fun heq => ?_
    have hmem : (0x80 : UInt8) ∈ alienName.map toLower := by decide
    rw [← heq] at hmem
    obtain ⟨c, hc, hlow⟩ := mem_map.mp hmem
    have hlt := hs c (takeWhile_subset _ (mem_of_mem_take hc))
    simp only [toLower, UInt8.le_iff_toNat_le, UInt8.lt_iff_toNat_lt, UInt8.ext_iff] at hlow hlt
    split at hlow
    · simp_all
      omega
    · simp_all
  have hshort : strcasecmp (shortNameToStr (bytes v.disk (entryPos v.bpb p) 11)) alienName =
      false := by
    refine decide_eq_false fun heq => ?_
    have hle := shortNameToStr_length_le (bytes v.disk (entryPos v.bpb p) 11)
    have := congrArg List.length heq
    simp [alienName] at this
    omega
  simp only [statTurn, if_neg h0]
  split_ifs <;> simp_all

/-- `fat32_read_dir`, which leaves its loop with a full table. -/
def readDirReader (v : Volume) : LfnReader v ReadState ReadState where
  turn s p := if fat32MaxDirEntries ≤ s.files.length then .error s else readTurn v s p
  active s := s.lfn.active
  turn_ok {s s' p} h := by
    split at h
    · contradiction
    rename_i hroom
    simp only [readTurn, if_neg hroom, readItem] at h
    split_ifs at h with h0 h1 h2 h3 h4 <;> cases h <;>
      exact ⟨h0, by simp_all [collects, isSlot, LfnBuf.off, LfnBuf.collect_active]⟩

def statReader (v : Volume) (target : List UInt8) : LfnReader v LfnBuf (Option (ℕ × ℕ)) where
  turn := statTurn v target
  active := LfnBuf.active
  turn_ok h := ⟨(statTurn_ok h).1, fun hs' => (statTurn_ok h).2.1 ▸ hs'⟩

/-- `fat32_dir_find_child` and `fat32_delete_file_vol`. -/
def nameReader (v : Volume) (name : List UInt8) : LfnReader v LfnScan (Option NameHit) where
  turn := nameTurn v name
  active := LfnScan.active
  turn_ok {s s' p} h := by
    simp only [nameTurn] at h
    split_ifs at h with h0 h1 h2 h3 <;> cases h <;> refine ⟨h0, fun hs' => ?_⟩
    · contradiction
    · have := LfnScan.collect_active hs'
      simp_all [collects, isSlot]
    all_goals contradiction

theorem slotsFit_of_stat (hs : ∀ c ∈ s.name, c < 0x80)
    (h : ∀ i ∈ (statReader v alienName).stores s ps, i < fat32MaxName) :
    slotsFit v s.active ps := by
  induction ps generalizing s with
  | nil => trivial
  | cons p ps ih =>
    by_cases h0 : v.disk (entryPos v.bpb p) = 0
    · exact .inl h0
    obtain ⟨s', hturn⟩ := statTurn_alien hs h0
    obtain ⟨-, hact, hname⟩ := statTurn_ok hturn
    rw [LfnReader.stores, show (statReader v alienName).turn s p = .ok s' from hturn] at h
    obtain ⟨hhere, hrest⟩ := forall_mem_append.mp h
    refine .inr ⟨?_, hact ▸ ih (hname hs) hrest⟩
    rintro ⟨hcol, hseq, hten⟩
    rw [if_pos ⟨hact.trans hcol, by rw [hseq]; decide, hseq.le⟩] at hhere
    exact (lfnStores_lt (by rw [hseq]; decide) hseq.le).mp hhere ⟨hseq, hten⟩

/-- All directory readers store inside of the name buffer just when the slots fit. -/
theorem longNames_inBuffer_iff (v : Volume) (ps : List (ℕ × ℕ)) :
    ((∀ i ∈ (readDirReader v).stores ⟨.idle, []⟩ ps, i < fat32MaxName) ∧
      (∀ target, ∀ i ∈ (statReader v target).stores .idle ps, i < fat32MaxName) ∧
      ∀ name, ∀ i ∈ (nameReader v name).stores .start ps, i < fat32MaxName) ↔
        slotsFit v false ps := by
  constructor
  · rintro ⟨-, hstat, -⟩
    exact slotsFit_of_stat (by simp [LfnBuf.idle, emptyName]) (hstat alienName)
  · intro h
    exact ⟨LfnReader.stores_lt _ id h, fun _ => LfnReader.stores_lt _ id h,
      fun _ => LfnReader.stores_lt _ id h⟩

/-- A directory whose first entry is a slot numbered 20, as a name's last, of thirteen `a`. -/
def longSlot : Volume where
  bpb := ⟨512, 1, 1, 1, 10, 1, 2, 2, 1⟩
  disk := fun x => if x = 1024 then 0x54 else if x = 1035 then 0x0F else
    if x ∈ [1025, 1027, 1029, 1031, 1033, 1038, 1040, 1042, 1044, 1046, 1048, 1052, 1054] then 0x61
    else 0
  fsinfoValid := false
  fsinfoFreeCount := fsinfoUnknown
  fsinfoNextFree := 2
  fsinfoDirty := false

theorem longSlot_overflows : ¬ ∀ i ∈ (readDirReader longSlot).stores ⟨.idle, []⟩
    (dirEntries longSlot.bpb [2]), i < fat32MaxName := by
  decide

end ImpossibleOs.Fat32
