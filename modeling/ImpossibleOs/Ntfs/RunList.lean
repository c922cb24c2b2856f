import ImpossibleOs.Lib.ByteMem

/-!
Run lists of non-resident attributes (`src/kernel/fs/ntfs/ntfs_runlist.c` and
the encoder of `ntfs_attr_write.c`).

A run list is a sequence of extents. On disk each run is a header byte with
the widths of two numbers, the length of the run, and the signed distance of
its first cluster from that of the last run that has one.
-/

namespace ImpossibleOs.Ntfs

open ByteMem List Nat

structure DataRun where
  vcnStart : ℕ
  lcn : ℕ
  length : ℕ
  deriving DecidableEq, Repr

/-- `NTFS_LCN_SPARSE` -/
def lcnSparse : ℕ := 2 ^ 64 - 1

/-- The runs follow each other from cluster `vcn` of the file on. -/
def Tiles : ℕ → List DataRun → Prop
  | _, [] => True
  | vcn, r :: runs => r.vcnStart = vcn ∧ Tiles (vcn + r.length) runs

instance Tiles.decidable : (vcn : ℕ) → (runs : List DataRun) → Decidable (Tiles vcn runs)
  | _, [] => inferInstanceAs (Decidable True)
  | vcn, r :: runs =>
    have := Tiles.decidable (vcn + r.length) runs
    inferInstanceAs (Decidable (r.vcnStart = vcn ∧ Tiles (vcn + r.length) runs))

/-- The clusters of a file in order; `none` in a hole. -/
def clusters : List DataRun → List (Option ℕ)
  | [] => []
  | r :: runs =>
    (List.range r.length).map (fun k => if r.lcn = lcnSparse then none else some (r.lcn + k)) ++
      clusters runs

/-! ### Encoder -/

def unsignedSize (val : ℕ) : ℕ :=
  if val ≤ 0xFF then 1
  else if val ≤ 0xFFFF then 2
  else if val ≤ 0xFFFFFF then 3
  else if val ≤ 0xFFFFFFFF then 4
  else if val ≤ 0xFFFFFFFFFF then 5
  else if val ≤ 0xFFFFFFFFFFFF then 6
  else if val ≤ 0xFFFFFFFFFFFFFF then 7
  else 8

def signedSize (val : ℤ) : ℕ :=
  if -0x80 ≤ val ∧ val ≤ 0x7F then 1
  else if -0x8000 ≤ val ∧ val ≤ 0x7FFF then 2
  else if -0x800000 ≤ val ∧ val ≤ 0x7FFFFF then 3
  else if -0x80000000 ≤ val ∧ val ≤ 0x7FFFFFFF then 4
  else if -0x8000000000 ≤ val ∧ val ≤ 0x7FFFFFFFFF then 5
  else if -0x800000000000 ≤ val ∧ val ≤ 0x7FFFFFFFFFFF then 6
  else if -0x80000000000000 ≤ val ∧ val ≤ 0x7FFFFFFFFFFFFF then 7
  else 8

/-- The low `n` bytes of `val`, little-endian. -/
def writeUnsigned (val n : ℕ) : List UInt8 :=
  (List.range n).map fun i => UInt8.ofNat (val / 256 ^ i)

/-- The bytes of a negative number are those of its 64-bit two's complement. -/
def writeSigned (val : ℤ) (n : ℕ) : List UInt8 := writeUnsigned (val % 2 ^ 64).toNat n

/-- `(int64_t)lcn` -/
def toInt64 (val : ℕ) : ℤ := (val : ℤ).bmod (2 ^ 64)

/-- The distance of a run from the cluster `prev`, in 64 bits. -/
def lcnDelta (r : DataRun) (prev : ℤ) : ℤ := (toInt64 r.lcn - prev).bmod (2 ^ 64)

def encodeRun (r : DataRun) (prev : ℤ) : List UInt8 :=
  let lenSize := unsignedSize r.length
  if r.lcn = lcnSparse then UInt8.ofNat lenSize :: writeUnsigned r.length lenSize
  else
    let offset := lcnDelta r prev
    let offSize := signedSize offset
    UInt8.ofNat (16 * offSize + lenSize) ::
      (writeUnsigned r.length lenSize ++ writeSigned offset offSize)

def nextLcn (r : DataRun) (prev : ℤ) : ℤ := if r.lcn = lcnSparse then prev else toInt64 r.lcn

/-- The encoder's loop, with the bytes written so far. -/
def encodeFrom (bufSize : ℕ) : List DataRun → ℤ → List UInt8 → Option (List UInt8)
  | [], _, out => if out.length < bufSize then some (out ++ [0]) else none
  | r :: runs, prev, out =>
    if bufSize < out.length + (encodeRun r prev).length + 1 then none
    else encodeFrom bufSize runs (nextLcn r prev) (out ++ encodeRun r prev)

def encodeDataRuns (runs : List DataRun) (bufSize : ℕ) : Option (List UInt8) :=
  if runs = [] ∨ bufSize = 0 then none else encodeFrom bufSize runs 0 []

/-- Sign extension of `n` bytes. -/
def readSigned (m : ByteMem) (p n : ℕ) : ℤ := (readLE m p n : ℤ).bmod (256 ^ n)

/-- The decoder's loop for at most `maxRuns` more runs. -/
def decodeFrom (m : ByteMem) : ℕ → ℕ → ℕ → ℤ → List DataRun
  | 0, _, _, _ => []
  | maxRuns + 1, p, vcn, prev =>
    let header := (m p).toNat
    let lenSize := header % 16
    let offSize := header / 16
    if header = 0 then []
    else if lenSize = 0 ∨ 8 < lenSize ∨ 8 < offSize then []
    else
      let length := readLE m (p + 1) lenSize
      let p := p + 1 + lenSize
      let vcn' := (vcn + length) % 2 ^ 64
      if 0 < offSize then
        let lcn := (prev + readSigned m p offSize).bmod (2 ^ 64)
        ⟨vcn, (lcn % 2 ^ 64).toNat, length⟩ :: decodeFrom m maxRuns (p + offSize) vcn' lcn
      else ⟨vcn, lcnSparse, length⟩ :: decodeFrom m maxRuns p vcn' prev

/-- `ntfs_decode_data_runs` of a run list at `p` that starts with cluster `startVcn`. -/
def decodeDataRuns (m : ByteMem) (p startVcn maxRuns : ℕ) : List DataRun :=
  decodeFrom m maxRuns p startVcn 0

theorem unsignedSize_spec {val : ℕ} (h : val < 2 ^ 64) :
    1 ≤ unsignedSize val ∧ unsignedSize val ≤ 8 ∧ val < 256 ^ unsignedSize val := by
  unfold unsignedSize
  split_ifs <;> exact ⟨by omega, by omega, by omega⟩

theorem signedSize_spec {val : ℤ} (hlo : -2 ^ 63 ≤ val) (hhi : val < 2 ^ 63) :
    1 ≤ signedSize val ∧ signedSize val ≤ 8 ∧
      -(256 ^ signedSize val) ≤ 2 * val ∧ 2 * val < 256 ^ signedSize val := by
  unfold signedSize
  split_ifs <;> exact ⟨by omega, by omega, by omega, by omega⟩

@[simp] theorem length_writeUnsigned (val n : ℕ) : (writeUnsigned val n).length = n := by
  simp [writeUnsigned]

@[simp] theorem length_writeSigned (val : ℤ) (n : ℕ) : (writeSigned val n).length = n :=
  length_writeUnsigned _ n

/-- The bytes of `l` stand at `p`. -/
def HoldsAt (m : ByteMem) (p : ℕ) (l : List UInt8) : Prop :=
  ∀ i (h : i < l.length), m (p + i) = l[i]

variable {m : ByteMem} {stop maxRuns p : ℕ} {runs : List DataRun} {prev : ℤ}

theorem holdsAt_append {p : ℕ} {l l' : List UInt8} :
    HoldsAt m p (l ++ l') ↔ HoldsAt m p l ∧ HoldsAt m (p + l.length) l' := by
  constructor
  · intro h
    refine ⟨?_, ?_⟩
    · intro i hi
      rw [h i (by simp; omega), getElem_append_left hi]
    · intro i hi
      rw [Nat.add_assoc, h (l.length + i) (by simpa using hi)]
      simp
  · rintro ⟨hl, hr⟩ i hi
    rw [getElem_append]
    split
    · exact hl i ‹_›
    · rename_i hge
      have hlen : i - l.length < l'.length := by
        rw [length_append] at hi
        omega
      have hi' := hr (i - l.length) hlen
      rwa [Nat.add_assoc, Nat.add_sub_cancel' (by omega)] at hi'

theorem holdsAt_cons {p : ℕ} {b : UInt8} {l : List UInt8} :
    HoldsAt m p (b :: l) ↔ m p = b ∧ HoldsAt m (p + 1) l := by
  rw [← singleton_append, holdsAt_append]
  refine and_congr_left' ⟨fun h => h 0 (by simp), fun h i hi => ?_⟩
  obtain rfl : i = 0 := by simpa using hi
  exact h

theorem readLE_unsigned {p val n : ℕ} (h : HoldsAt m p (writeUnsigned val n)) :
    readLE m p n = val % 256 ^ n := by
  apply readLE_eq_mod
  intro i hi
  rw [h i (by simpa using hi)]
  simp [writeUnsigned]

theorem readSigned_signed {p n : ℕ} {val : ℤ} (h : HoldsAt m p (writeSigned val n))
    (hn : n ≤ 8) (hlo : -(256 ^ n) ≤ 2 * val) (hhi : 2 * val < 256 ^ n) :
    readSigned m p n = val := by
  have hdvd : (256 ^ n : ℤ) ∣ 2 ^ 64 := by
    have : (2 ^ 64 : ℤ) = 256 ^ 8 := by norm_num
    rw [this]
    exact pow_dvd_pow 256 hn
  have hpos : (0 : ℤ) ≤ val % 2 ^ 64 := Int.emod_nonneg _ (by norm_num)
  have hmod : ((readLE m p n : ℕ) : ℤ) = val % 256 ^ n := by
    rw [readLE_unsigned h, Int.natCast_mod, Int.toNat_of_nonneg hpos, Int.natCast_pow]
    exact Int.emod_emod_of_dvd val hdvd
  rw [readSigned, hmod, show (val % (256 ^ n : ℤ)) = val % ((256 ^ n : ℕ) : ℤ) by push_cast; rfl,
    Int.emod_bmod]
  apply Int.bmod_eq_of_le
  · push_cast
    omega
  · push_cast
    omega

/-! ### Round trip -/

def encoding : List DataRun → ℤ → List UInt8
  | [], _ => [0]
  | r :: runs, prev => encodeRun r prev ++ encoding runs (nextLcn r prev)

theorem encoding_length_pos (runs : List DataRun) (prev : ℤ) : 0 < (encoding runs prev).length := by
  induction runs generalizing prev with
  | nil => exact Nat.one_pos
  | cons r runs ih =>
    rw [encoding, length_append]
    exact Nat.add_pos_right _ (ih _)

theorem encodeFrom_eq (bufSize : ℕ) (runs : List DataRun) (prev : ℤ) (out : List UInt8) :
    encodeFrom bufSize runs prev out =
      if out.length + (encoding runs prev).length ≤ bufSize then some (out ++ encoding runs prev)
      else none := by
  induction runs generalizing prev out with
  | nil =>
    rw [encodeFrom, encoding]
    rfl
  | cons r runs ih =>
    have htail := encoding_length_pos runs (nextLcn r prev)
    rw [encodeFrom, ih, encoding, length_append, length_append, append_assoc]
    split_ifs <;> first | rfl | omega

theorem encodeDataRuns_eq {bufSize : ℕ} (hne : runs ≠ []) :
    encodeDataRuns runs bufSize =
      if (encoding runs 0).length ≤ bufSize then some (encoding runs 0) else none := by
  have hpos := encoding_length_pos runs 0
  rw [encodeDataRuns, encodeFrom_eq]
  simp only [hne, false_or, length_nil, Nat.zero_add, nil_append]
  split_ifs <;> first | rfl | omega

/-- A run that the encoding can express: 64-bit numbers, and a cluster number that is not
negative as a signed one. -/
structure Encodable (r : DataRun) : Prop where
  vcn : r.vcnStart < 2 ^ 64
  length : r.length < 2 ^ 64
  lcn : r.lcn < 2 ^ 63 ∨ r.lcn = lcnSparse

theorem toInt64_of_lt {val : ℕ} (h : val < 2 ^ 63) : toInt64 val = val := by
  apply Int.bmod_eq_of_le <;> omega

theorem decodeFrom_cons {p vcn maxRuns : ℕ} {r : DataRun}
    (hr : Encodable r) (hvcn : r.vcnStart = vcn) (hprev : 0 ≤ prev ∧ prev < 2 ^ 63)
    (h : HoldsAt m p (encodeRun r prev)) : decodeFrom m (maxRuns + 1) p vcn prev =
      r :: decodeFrom m maxRuns (p + (encodeRun r prev).length) ((vcn + r.length) % 2 ^ 64)
        (nextLcn r prev) := by
  obtain ⟨hl1, hl8, hlt⟩ := unsignedSize_spec hr.length
  rw [encodeRun] at h ⊢
  rw [nextLcn, decodeFrom]
  by_cases hs : r.lcn = lcnSparse
  · simp only [hs, if_true] at h ⊢
    obtain ⟨hhead, hlen⟩ := holdsAt_cons.mp h
    have hheader : (m p).toNat = unsignedSize r.length := by
      rw [hhead, UInt8.toNat_ofNat']
      omega
    have hread := readLE_unsigned hlen
    rw [mod_eq_of_lt hlt] at hread
    have hmod : unsignedSize r.length % 16 = unsignedSize r.length := mod_eq_of_lt (by omega)
    have hdiv : unsignedSize r.length / 16 = 0 := div_eq_of_lt (by omega)
    simp only [hheader, hmod, hdiv]
    rw [if_neg (by omega), if_neg (by omega), if_neg (by omega), hread, ← hvcn, ← hs,
      length_cons, length_writeUnsigned, Nat.add_assoc, Nat.add_comm 1]
  · have hlcn : r.lcn < 2 ^ 63 := hr.lcn.resolve_right hs
    have hint := toInt64_of_lt hlcn
    have hdelta : lcnDelta r prev = r.lcn - prev := by
      rw [lcnDelta, hint]
      apply Int.bmod_eq_of_le <;> omega
    obtain ⟨ho1, ho8, hlo, hhi⟩ := @signedSize_spec (lcnDelta r prev)
      (by rw [hdelta]; omega) (by rw [hdelta]; omega)
    simp only [hs, if_false] at h ⊢
    obtain ⟨hhead, hrest⟩ := holdsAt_cons.mp h
    obtain ⟨hlen, hoff⟩ := holdsAt_append.mp hrest
    rw [length_writeUnsigned] at hoff
    have hheader : (m p).toNat = 16 * signedSize (lcnDelta r prev) + unsignedSize r.length := by
      rw [hhead, UInt8.toNat_ofNat']
      omega
    have hread := readLE_unsigned hlen
    rw [mod_eq_of_lt hlt] at hread
    have hsigned := readSigned_signed hoff ho8 hlo hhi
    have hmod : (16 * signedSize (lcnDelta r prev) + unsignedSize r.length) % 16 =
        unsignedSize r.length := by omega
    have hdiv : (16 * signedSize (lcnDelta r prev) + unsignedSize r.length) / 16 =
        signedSize (lcnDelta r prev) := by omega
    have hback : (prev + lcnDelta r prev).bmod (2 ^ 64) = r.lcn := by
      rw [hdelta]
      apply (Int.bmod_eq_of_le _ _).trans <;> omega
    have hnat : ((r.lcn : ℤ) % 2 ^ 64).toNat = r.lcn := by omega
    have hend : p + 1 + unsignedSize r.length + signedSize (lcnDelta r prev) =
        p + (unsignedSize r.length + signedSize (lcnDelta r prev) + 1) := by omega
    simp only [hheader, hmod, hdiv]
    rw [if_neg (by omega), if_neg (by omega), if_pos (by omega), hread, hsigned, hback, hnat, hint,
      ← hvcn, length_cons, length_append, length_writeUnsigned, length_writeSigned, hend]

theorem decodeFrom_encoding {p vcn maxRuns : ℕ}
    (htiles : Tiles vcn runs) (henc : ∀ r ∈ runs, Encodable r) (hlen : runs.length ≤ maxRuns)
    (hprev : 0 ≤ prev ∧ prev < 2 ^ 63) (h : HoldsAt m p (encoding runs prev)) :
    decodeFrom m maxRuns p vcn prev = runs := by
  induction runs generalizing p vcn maxRuns prev with
  | nil =>
    cases maxRuns with
    | zero => rfl
    | succ maxRuns =>
      have hzero : m p = 0 := h 0 (by simp [encoding])
      simp [decodeFrom, hzero]
  | cons r runs ih =>
    obtain ⟨n, rfl⟩ : ∃ n, maxRuns = n + 1 := by
      cases maxRuns with
      | zero => simp at hlen
      | succ n => exact ⟨n, rfl⟩
    have hr := henc r mem_cons_self
    obtain ⟨hhead, htail⟩ := holdsAt_append.mp h
    rw [decodeFrom_cons hr htiles.1 hprev hhead]
    congr 1
    have hnext : 0 ≤ nextLcn r prev ∧ nextLcn r prev < 2 ^ 63 := by
      unfold nextLcn
      split
      · exact hprev
      · rename_i hs
        have hlcn := hr.lcn.resolve_right hs
        rw [toInt64_of_lt hlcn]
        omega
    cases runs with
    | nil => exact ih trivial (by simp) (by simp) hnext htail
    | cons r' runs =>
      have hvcn : vcn + r.length < 2 ^ 64 := by
        rw [← htiles.2.1]
        exact (henc r' (by simp)).vcn
      rw [mod_eq_of_lt hvcn]
      exact ih htiles.2 (fun r hr => henc r (mem_cons_of_mem _ hr)) (by simpa using hlen)
        hnext htail

theorem decodeDataRuns_encoding {p maxRuns : ℕ}
    (htiles : Tiles 0 runs) (henc : ∀ r ∈ runs, Encodable r) (hlen : runs.length ≤ maxRuns)
    (h : HoldsAt m p (encoding runs 0)) : decodeDataRuns m p 0 maxRuns = runs :=
  decodeFrom_encoding htiles henc hlen ⟨le_rfl, by omega⟩ h

/-! ### The attribute -/

structure NonresHeader where
  startVcn : ℕ
  lastVcn : ℕ
  dataRunOff : ℕ
  compressionUnit : ℕ
  allocSize : ℕ
  realSize : ℕ
  initSize : ℕ
  deriving DecidableEq, Repr

def nonresHeader (m : ByteMem) (attr : ℕ) : NonresHeader where
  startVcn := readLE m (attr + 0x10) 8
  lastVcn := readLE m (attr + 0x18) 8
  dataRunOff := readLE m (attr + 0x20) 2
  compressionUnit := readLE m (attr + 0x22) 2
  allocSize := readLE m (attr + 0x28) 8
  realSize := readLE m (attr + 0x30) 8
  initSize := readLE m (attr + 0x38) 8

def ntfsDecodeDataRuns (m : ByteMem) (attr maxRuns : ℕ) : Option (List DataRun × NonresHeader) :=
  let nrhdr := nonresHeader m attr
  if maxRuns = 0 ∨ m (attr + 0x08) ≠ 1 then none
  else some (decodeDataRuns m (attr + nrhdr.dataRunOff) nrhdr.startVcn maxRuns, nrhdr)

/-- A header byte with which the decoder goes on. -/
def IsRun (header : ℕ) : Prop :=
  header ≠ 0 ∧ header % 16 ≠ 0 ∧ header % 16 ≤ 8 ∧ header / 16 ≤ 8

instance (header : ℕ) : Decidable (IsRun header) := by
  unfold IsRun
  infer_instance

def runSize (header : ℕ) : ℕ := 1 + header % 16 + header / 16

/-- The addresses that the decoder's loop reads. -/
def runReads (m : ByteMem) : ℕ → ℕ → List ℕ
  | 0, _ => []
  | maxRuns + 1, p =>
    if IsRun (m p).toNat then
      List.range' p (runSize (m p).toNat) ++ runReads m maxRuns (p + runSize (m p).toNat)
    else [p]

/-- The addresses that `ntfs_decode_data_runs` reads; the caller may ask for the header fields. -/
def decodeReads (m : ByteMem) (attr maxRuns : ℕ) (wantHeader : Bool) : List ℕ :=
  if maxRuns = 0 then []
  else if m (attr + 0x08) ≠ 1 then [attr + 0x08]
  else
    [attr + 0x08] ++
      (if wantHeader then List.range' (attr + 0x10) 0x14 ++ List.range' (attr + 0x28) 0x18
        else List.range' (attr + 0x10) 8 ++ List.range' (attr + 0x20) 2) ++
      runReads m maxRuns (attr + readLE m (attr + 0x20) 2)

theorem decodeFrom_congr {m m' : ByteMem} {maxRuns p vcn : ℕ}
    (h : ∀ a ∈ runReads m maxRuns p, m' a = m a) :
    decodeFrom m' maxRuns p vcn prev = decodeFrom m maxRuns p vcn prev := by
  induction maxRuns generalizing p vcn prev with
  | zero => rfl
  | succ maxRuns ih =>
    rw [runReads] at h
    split at h
    · rename_i hrun
      obtain ⟨h0, hlen0, hlen8, hoff8⟩ := hrun
      have hread : ∀ a, p ≤ a → a < p + runSize (m p).toNat → m' a = m a :=
        fun a hlo hhi => h a (mem_append_left _ (mem_range'_1.2 ⟨hlo, hhi⟩))
      have hrest := fun a ha => h a (mem_append_right _ ha)
      unfold runSize at hread hrest
      have hhead : m' p = m p := hread p le_rfl (by omega)
      have hlength : readLE m' (p + 1) ((m p).toNat % 16) = readLE m (p + 1) ((m p).toNat % 16) :=
        readLE_congr fun a hlo hhi => hread a (by omega) (by omega)
      have hoffset : readLE m' (p + 1 + (m p).toNat % 16) ((m p).toNat / 16) =
          readLE m (p + 1 + (m p).toNat % 16) ((m p).toNat / 16) :=
        readLE_congr fun a hlo hhi => hread a (by omega) (by omega)
      have hgo : ¬((m p).toNat % 16 = 0 ∨ 8 < (m p).toNat % 16 ∨ 8 < (m p).toNat / 16) := by omega
      simp only [decodeFrom, hhead, h0, hgo, if_false, readSigned, hlength, hoffset]
      split
      · rw [ih fun a ha => hrest a (by rwa [← Nat.add_assoc, ← Nat.add_assoc])]
      · have hzero : (m p).toNat / 16 = 0 := by omega
        rw [hzero] at hrest
        rw [ih fun a ha => hrest a (by rwa [← Nat.add_assoc, ← Nat.add_assoc])]
    · rename_i hstop
      have hhead : m' p = m p := h p (by simp)
      unfold IsRun at hstop
      have hends : (m p).toNat = 0 ∨
          ((m p).toNat % 16 = 0 ∨ 8 < (m p).toNat % 16 ∨ 8 < (m p).toNat / 16) := by omega
      simp only [decodeFrom, hhead]
      split_ifs <;> first | rfl | omega

/-- Where the run after `n` runs starts. -/
def runPos (m : ByteMem) (p : ℕ) : ℕ → ℕ
  | 0 => p
  | n + 1 => runPos m (p + runSize (m p).toNat) n

/-- The run list at `p` comes to its end before `stop`: `maxRuns` whole runs lie there, or fewer
and a byte behind them that is no header of a run. -/
def RunsClosed (m : ByteMem) (stop maxRuns p : ℕ) : Prop :=
  ∃ n ≤ maxRuns, (∀ k < n, IsRun (m (runPos m p k)).toNat) ∧ runPos m p n ≤ stop ∧
    (n = maxRuns ∨ runPos m p n < stop ∧ ¬IsRun (m (runPos m p n)).toNat)

theorem le_runPos (m : ByteMem) (p n : ℕ) : p ≤ runPos m p n := by
  induction n generalizing p with
  | zero => exact le_rfl
  | succ n ih => exact (Nat.le_add_right _ _).trans (ih _)

theorem runsClosed_succ (hrun : IsRun (m p).toNat) : RunsClosed m stop (maxRuns + 1) p ↔
      p + runSize (m p).toNat ≤ stop ∧ RunsClosed m stop maxRuns (p + runSize (m p).toNat) := by
  constructor
  · rintro ⟨n, hn, hruns, hle, hend⟩
    cases n with
    | zero =>
      rcases hend with hzero | ⟨-, hno⟩
      · omega
      · exact absurd hrun hno
    | succ n =>
      exact ⟨(le_runPos m _ n).trans hle, n, by omega, fun k hk => hruns (k + 1) (by omega), hle,
        hend.imp_left fun h => by omega⟩
  · rintro ⟨-, n, hn, hruns, hle, hend⟩
    refine ⟨n + 1, by omega, ?_, hle, hend.imp_left fun h => by omega⟩
    intro k hk
    cases k with
    | zero => exact hrun
    | succ k => exact hruns k (by omega)

theorem runsClosed_stop (hrun : ¬IsRun (m p).toNat) :
    RunsClosed m stop (maxRuns + 1) p ↔ p < stop := by
  constructor
  · rintro ⟨n, hn, hruns, hle, hend⟩
    cases n with
    | zero =>
      rcases hend with hzero | ⟨hlt, -⟩
      · omega
      · exact hlt
    | succ n => exact absurd (hruns 0 (by omega)) hrun
  · exact fun hlt => ⟨0, by omega, by simp, hlt.le, .inr ⟨hlt, hrun⟩⟩

theorem runReads_lt_iff (hp : p ≤ stop ∨ 0 < maxRuns) :
    (∀ a ∈ runReads m maxRuns p, a < stop) ↔ RunsClosed m stop maxRuns p := by
  induction maxRuns generalizing p with
  | zero => exact ⟨fun _ => ⟨0, le_rfl, by simp, by simpa [runPos] using hp⟩,
    fun _ => by simp [runReads]⟩
  | succ maxRuns ih =>
    rw [runReads]
    split
    · rename_i hrun
      rw [runsClosed_succ hrun]
      simp only [mem_append, mem_range'_1, or_imp, forall_and]
      constructor
      · rintro ⟨hhere, hrest⟩
        have hlast := hhere (p + runSize (m p).toNat - 1)
        have hpos : 0 < runSize (m p).toNat := by
          unfold runSize
          omega
        have hle : p + runSize (m p).toNat ≤ stop := by omega
        exact ⟨hle, (ih (.inl hle)).1 hrest⟩
      · rintro ⟨hle, hclosed⟩
        exact ⟨fun a ha => by omega, (ih (.inl hle)).2 hclosed⟩
    · rename_i hstop
      rw [runsClosed_stop hstop]
      simp

/-- The attribute's declared length, `attr[0x04..0x08)`. -/
def attrLength (m : ByteMem) (attr : ℕ) : ℕ := readLE m (attr + 0x04) 4

/-- The declared length covers the header fields that are read and a closed run list. -/
def RunListInside (m : ByteMem) (attr maxRuns : ℕ) (wantHeader : Bool) : Prop :=
  maxRuns = 0 ∨
    0x08 < attrLength m attr ∧
      (m (attr + 0x08) ≠ 1 ∨
        (if wantHeader then 0x40 else 0x22) ≤ attrLength m attr ∧
          RunsClosed m (attr + attrLength m attr) maxRuns (attr + readLE m (attr + 0x20) 2))

theorem decodeReads_lt_iff {attr maxRuns : ℕ} {wantHeader : Bool} :
    (∀ a ∈ decodeReads m attr maxRuns wantHeader, a < attr + attrLength m attr) ↔
      RunListInside m attr maxRuns wantHeader := by
  unfold decodeReads RunListInside
  generalize attrLength m attr = total
  by_cases hmax : maxRuns = 0
  · simp [hmax]
  · by_cases hres : m (attr + 0x08) ≠ 1
    · simp [hmax, hres]
    · have hruns := @runReads_lt_iff m (attr + total) maxRuns (attr + readLE m (attr + 0x20) 2)
        (.inr (by omega))
      rw [if_neg hmax, if_neg hres, ← hruns]
      simp only [hmax, hres, false_or, mem_append, mem_singleton, or_imp, forall_and,
        forall_eq, and_assoc]
      refine and_congr (by omega) (and_congr_left' ?_)
      cases wantHeader
      · simp only [Bool.false_eq_true, if_false, mem_append, mem_range'_1]
        exact ⟨fun h => by have := h (attr + 0x21) (by omega); omega, fun h a ha => by omega⟩
      · simp only [if_true, mem_append, mem_range'_1]
        exact ⟨fun h => by have := h (attr + 0x3F) (by omega); omega, fun h a ha => by omega⟩

theorem ntfsDecodeDataRuns_congr {m m' : ByteMem} {attr maxRuns : ℕ}
    (h : ∀ a ∈ decodeReads m attr maxRuns true, m' a = m a) :
    ntfsDecodeDataRuns m' attr maxRuns = ntfsDecodeDataRuns m attr maxRuns := by
  unfold decodeReads at h
  unfold ntfsDecodeDataRuns
  by_cases hmax : maxRuns = 0
  · simp [hmax]
  rw [if_neg hmax] at h
  split at h
  · rename_i hres
    have hkind := h (attr + 0x08) (by simp)
    simp [hkind, hres]
  · have hkind := h (attr + 0x08) (by simp)
    have hfield : ∀ off n, 0x10 ≤ off ∧ off + n ≤ 0x24 ∨ 0x28 ≤ off ∧ off + n ≤ 0x40 →
        readLE m' (attr + off) n = readLE m (attr + off) n := by
      intro off n hoff
      refine readLE_congr fun a hlo hhi => h a ?_
      simp only [if_true, mem_append, mem_range'_1]
      omega
    have hheader : nonresHeader m' attr = nonresHeader m attr := by
      simp [nonresHeader, hfield]
    have hruns : ∀ a ∈ runReads m maxRuns (attr + (nonresHeader m attr).dataRunOff), m' a = m a :=
      fun a ha => h a (mem_append_right _ ha)
    simp only [hkind, hheader, decodeDataRuns]
    rw [decodeFrom_congr hruns]

/-- What is encoded is decoded again from any attribute that holds it. The decoder does not look
at the declared length: it stays within it when the run list ends there by itself. -/
theorem dataRuns_roundTrip_inside (m : ByteMem) (attr maxRuns : ℕ) :
    (∀ runs bufSize out, Tiles 0 runs → (∀ r ∈ runs, Encodable r) →
      encodeDataRuns runs bufSize = some out → m (attr + 0x08) = 1 →
      (nonresHeader m attr).startVcn = 0 →
      HoldsAt m (attr + (nonresHeader m attr).dataRunOff) out → runs.length ≤ maxRuns →
      ntfsDecodeDataRuns m attr maxRuns = some (runs, nonresHeader m attr)) ∧
    ∀ wantHeader,
      (∀ a ∈ decodeReads m attr maxRuns wantHeader, a < attr + attrLength m attr) ↔
        RunListInside m attr maxRuns wantHeader := by
  refine ⟨?_, fun _ => decodeReads_lt_iff⟩
  intro runs bufSize out htiles hruns hencode hkind hvcn hholds hroom
  have hne : runs ≠ [] := by
    rintro rfl
    simp [encodeDataRuns] at hencode
  rw [encodeDataRuns_eq hne] at hencode
  obtain ⟨-, hout⟩ := Option.ite_none_right_eq_some.1 hencode
  obtain rfl := Option.some.inj hout
  have hpos : maxRuns ≠ 0 := by
    have := length_pos_iff.2 hne
    omega
  unfold ntfsDecodeDataRuns
  dsimp only
  rw [if_neg (by simp [hpos, hkind]), hvcn, decodeDataRuns_encoding htiles hruns hroom hholds]

/-- An attribute of 72 bytes with a run list of 8 at its end: two runs and the start of a third,
no terminator. -/
def unterminated : ByteMem := fun a =>
  if a = 0x04 then 72
  else if a = 0x08 then 1
  else if a = 0x20 then 64
  else if 64 ≤ a ∧ a < 72 then 0x11
  else 0

theorem unterminated_overread :
    attrLength unterminated 0 = 72 ∧ 72 ∈ decodeReads unterminated 0 64 true ∧
      ¬∀ a ∈ decodeReads unterminated 0 64 true, a < 0 + attrLength unterminated 0 := by
  have hlength : attrLength unterminated 0 = 72 := by decide
  have hread : 72 ∈ decodeReads unterminated 0 64 true := by decide
  refine ⟨hlength, hread, fun h => ?_⟩
  have hlast := h 72 hread
  omega

theorem ntfsDecodeDataRuns_unterminated :
    ntfsDecodeDataRuns (fun a => if a = 99 then 1 else unterminated a) 0 4 =
      ntfsDecodeDataRuns unterminated 0 4 :=
  ntfsDecodeDataRuns_congr (by decide)

end ImpossibleOs.Ntfs
