import ImpossibleOs.Lib.ByteMem
import Mathlib.Data.Finite.Prod
import Mathlib.Data.Fintype.Pigeonhole

/-!
The chain of extended boot records (`src/kernel/fs/mbr.c`).

Each EBR of the chain describes one logical partition and links to the next
EBR. The walk counts the partitions it reports and compares an EBR with its
successor only: a chain that comes back to an EBR with no partition in between
is walked forever.
-/

namespace ImpossibleOs.Mbr

open ByteMem Function Option List

def mbrSignature : ℕ := 0xAA55
def mbrEntryOffset : ℕ := 446
def mbrEntrySize : ℕ := 16
def mbrSigOffset : ℕ := 510
def mbrMaxLogical : ℕ := 128
def mbrTypeEmpty : UInt8 := 0

structure MbrChs where
  cylinder : ℕ
  head : UInt8
  sector : UInt8
  deriving DecidableEq

structure MbrEntry where
  status : UInt8
  type : UInt8
  startLba : ℕ
  sectorCount : ℕ
  chsStart : MbrChs
  chsEnd : MbrChs
  chsOverflow : Bool
  isExtended : Bool
  isHidden : Bool
  deriving DecidableEq

def chsDecode (m : ByteMem) (a : ℕ) : MbrChs :=
  ⟨(m (a + 1) &&& 0xC0).toNat * 4 + (m (a + 2)).toNat, m a, m (a + 1) &&& 0x3F⟩

def chsIsOverflow (m : ByteMem) (a : ℕ) : Bool :=
  (m a = 0xFE || m a = 0xFF) && m (a + 1) = 0xFF && m (a + 2) = 0xFF

/-- FAT12, FAT16, FAT32, FAT32 with LBA, each hidden, and Windows recovery. -/
def mbrTypeIsHidden (type : UInt8) : Bool := type ∈ [0x11, 0x14, 0x1B, 0x1C, 0x27]

def entryIsZero (m : ByteMem) (a : ℕ) : Bool := (List.range mbrEntrySize).all fun j => m (a + j) = 0

/-! ### One record -/

/-- The relative start of the partition that an EBR describes. -/
def relativeStart (sect : ByteMem) : ℕ := readLE sect (mbrEntryOffset + 8) 4

/-- Entry 1 of the EBR at `current`. -/
def logical (sect : ByteMem) (current : ℕ) : Option MbrEntry :=
  let e1 := mbrEntryOffset
  let type1 := sect (e1 + 4)
  let sectors1 := readLE sect (e1 + 12) 4
  if type1 ≠ mbrTypeEmpty ∧ 0 < sectors1 then
    some
      { status := sect e1
        type := type1
        startLba := (current + relativeStart sect) % 2 ^ 32
        sectorCount := sectors1
        chsStart := chsDecode sect (e1 + 1)
        chsEnd := chsDecode sect (e1 + 5)
        chsOverflow := chsIsOverflow sect (e1 + 1) || chsIsOverflow sect (e1 + 5)
        isExtended := false
        isHidden := mbrTypeIsHidden type1 }
  else none

/-- Entry 2: where the next EBR is. -/
def nextEbr (sect : ByteMem) (first : ℕ) : Option ℕ :=
  let e2 := mbrEntryOffset + mbrEntrySize
  if entryIsZero sect e2 then none else some ((first + readLE sect (e2 + 8) 4) % 2 ^ 32)

/-- A disk, and where its extended partition starts; a sector that cannot be read is `none`. -/
structure EbrDisk where
  first : ℕ
  sectors : ℕ
  read : ℕ → Option ByteMem

/-- The walk at the head of its loop, and the sectors it has read; `ret` is what it returned. -/
structure EbrWalk where
  current : ℕ
  out : List MbrEntry
  reads : List ℕ
  ret : Option ℤ

namespace EbrDisk

/-- One turn of the loop of `mbr_walk_ebr`. -/
def turn (d : EbrDisk) (cap : ℕ) (w : EbrWalk) : EbrWalk :=
  if w.ret.isSome then w
  else if cap ≤ w.out.length then { w with ret := some w.out.length }
  else if d.sectors ≤ w.current then { w with ret := some w.out.length }
  else
    let reads := w.reads ++ [w.current]
    match d.read w.current with
    | none => { w with reads := reads, ret := some (-1) }
    | some sect =>
      if readLE sect mbrSigOffset 2 ≠ mbrSignature then
        { w with reads := reads, ret := some w.out.length }
      else
        let out := w.out ++ (logical sect w.current).toList
        match nextEbr sect d.first with
        | none => ⟨w.current, out, reads, some out.length⟩
        | some next =>
          if next = w.current then ⟨w.current, out, reads, some out.length⟩
          else if d.sectors ≤ next then ⟨w.current, out, reads, some out.length⟩
          else ⟨next, out, reads, none⟩

/-- `mbr_walk_ebr` after some turns of its loop. -/
def walkEbr (d : EbrDisk) (maxOut : ℤ) (turns : ℕ) : EbrWalk :=
  (d.turn (min maxOut mbrMaxLogical).toNat)^[turns] ⟨d.first, [], [], none⟩

/-! ### The chain on the disk -/

/-- The record at an LBA: a sector of the disk with the signature. -/
def ebr (d : EbrDisk) (lba : ℕ) : Option ByteMem :=
  if lba < d.sectors then (d.read lba).filter fun sect => readLE sect mbrSigOffset 2 = mbrSignature
  else none

def part (d : EbrDisk) (lba : ℕ) : Option MbrEntry := (d.ebr lba).bind (logical · lba)

/-- The link of a record, if it leads to another LBA of the disk. -/
def link (d : EbrDisk) (lba : ℕ) : Option ℕ :=
  (d.ebr lba).bind fun sect =>
    (nextEbr sect d.first).filter fun next => next ≠ lba ∧ next < d.sectors

/-- The LBA behind `k` links. -/
def lba (d : EbrDisk) : ℕ → Option ℕ
  | 0 => some d.first
  | k + 1 => (d.lba k).bind d.link

/-- The partitions of the first `k` records. -/
def listed (d : EbrDisk) : ℕ → List MbrEntry
  | 0 => []
  | k + 1 => d.listed k ++ ((d.lba k).bind d.part).toList

/-- The chain comes back to a record with no partition in between, within the first `cap`
partitions. -/
def Loops (d : EbrDisk) (cap : ℕ) : Prop :=
  ∃ i j c, i < j ∧ d.lba i = some c ∧ d.lba j = some c ∧
    (d.listed j).length = (d.listed i).length ∧ (d.listed i).length < cap

/-- The LBAs of the partitions within the cap fit in 32 bits. -/
def Fits (d : EbrDisk) (cap : ℕ) : Prop :=
  ∀ k c sect, d.lba k = some c → d.ebr c = some sect → (d.listed k).length < cap →
    (logical sect c).isSome → c + relativeStart sect < 2 ^ 32

/-- What is asked of a finished walk. -/
structure Exact (d : EbrDisk) (maxOut : ℤ) (w : EbrWalk) : Prop where
  done : w.ret.isSome
  onDisk : ∀ c ∈ w.reads, c < d.sectors
  room : w.out.length ≤ maxOut.toNat
  listed : w.out = w.reads.filterMap d.part
  start : ∀ c ∈ w.reads, ∀ sect p, d.ebr c = some sect → logical sect c = some p →
    p.startLba = c + relativeStart sect

/-! ### Turns -/

variable {d : EbrDisk} {cap : ℕ} {w : EbrWalk}

/-- A turn within the cap. -/
theorem turn_spec (hrun : w.ret = none) (hroom : w.out.length < cap) :
    ((d.turn cap w).ret = none ↔ (d.link w.current).isSome) ∧
      (∀ n, d.link w.current = some n → (d.turn cap w).current = n) ∧
      (d.turn cap w).out = w.out ++ (d.part w.current).toList ∧
      ((d.turn cap w).reads = w.reads ++ [w.current] ∧ w.current < d.sectors ∨
        (d.turn cap w).reads = w.reads ∧ d.ebr w.current = none) := by
  unfold turn link part
  rw [if_neg (by simp [hrun]), if_neg (by omega)]
  by_cases hin : d.sectors ≤ w.current
  · have hebr : d.ebr w.current = none := if_neg (by omega)
    simp [hin, hebr]
  have hlt : w.current < d.sectors := by omega
  rw [if_neg hin]
  cases hread : d.read w.current with
  | none =>
    have hebr : d.ebr w.current = none := by simp [ebr, hread]
    simp [hebr, hlt]
  | some sect =>
    by_cases hsig : readLE sect mbrSigOffset 2 = mbrSignature
    · have hebr : d.ebr w.current = some sect := by simp [ebr, hlt, hread, hsig]
      cases hnext : nextEbr sect d.first with
      | none => simp [hsig, hebr, hnext, hlt]
      | some next =>
        by_cases h1 : next = w.current
        · simp [hsig, hebr, hnext, hlt, h1]
        · by_cases h2 : d.sectors ≤ next
          · simp [hsig, hebr, hnext, hlt, h1, h2]
          · simp [hsig, hebr, hnext, hlt, h1, h2, Nat.lt_of_not_le h2]
    · have hebr : d.ebr w.current = none := by simp [ebr, hread, hsig]
      simp [hsig, hebr, hlt]

theorem lba_isSome_of_le {i k : ℕ} (hik : i ≤ k) (h : (d.lba k).isSome) : (d.lba i).isSome := by
  induction k, hik using Nat.le_induction with
  | base => exact h
  | succ k _ ih =>
    rw [lba] at h
    cases hk : d.lba k with
    | none => simp [hk] at h
    | some c => exact ih (by rw [hk]; rfl)

theorem listed_le {i k : ℕ} (hik : i ≤ k) : (d.listed i).length ≤ (d.listed k).length := by
  induction k, hik using Nat.le_induction with
  | base => exact le_rfl
  | succ k _ ih =>
    rw [listed, length_append]
    omega

/-- The walk after `k` turns, in terms of the chain. -/
structure Follows (d : EbrDisk) (cap k : ℕ) (w : EbrWalk) : Prop where
  running : w.ret = none ↔ (d.lba k).isSome ∧ ∀ i < k, (d.listed i).length < cap
  state : w.ret = none → d.lba k = some w.current ∧ w.out = d.listed k
  room : w.out.length ≤ cap
  out : w.out = w.reads.filterMap d.part
  reads : ∀ c ∈ w.reads, c < d.sectors ∧ ∃ i, d.lba i = some c ∧ (d.listed i).length < cap
  read : ∀ i < k, ∀ c, d.lba i = some c → (d.listed i).length < cap → (d.ebr c).isSome →
    c ∈ w.reads

theorem Follows.read_next {k : ℕ} {w' : EbrWalk} (h : Follows d cap k w)
    (hkeep : ∀ c ∈ w.reads, c ∈ w'.reads)
    (hlast : ∀ c, d.lba k = some c → (d.listed k).length < cap → (d.ebr c).isSome → c ∈ w'.reads) :
    ∀ i < k + 1, ∀ c, d.lba i = some c → (d.listed i).length < cap → (d.ebr c).isSome →
      c ∈ w'.reads := by
  intro i hi c hc hlt hebr
  rcases Nat.lt_succ_iff_lt_or_eq.mp hi with hi | rfl
  · exact hkeep c (h.read i hi c hc hlt hebr)
  · exact hlast c hc hlt hebr

theorem Follows.turn {k : ℕ} (h : Follows d cap k w) : Follows d cap (k + 1) (d.turn cap w) := by
  cases hret : w.ret with
  | some r =>
    have hstop : ¬((d.lba k).isSome ∧ (d.listed k).length < cap) := by
      rintro ⟨hsome, hlt⟩
      have hnone := h.running.mpr ⟨hsome, fun i hi => (listed_le hi.le).trans_lt hlt⟩
      rw [hret] at hnone
      contradiction
    have hsame : d.turn cap w = w := if_pos (by rw [hret]; rfl)
    rw [hsame]
    refine ⟨?_, fun hnone => ?_, h.room, h.out, h.reads, ?_⟩
    · refine ⟨fun hnone => ?_, fun hgo => ?_⟩
      · rw [hret] at hnone
        contradiction
      · exact absurd ⟨lba_isSome_of_le k.le_succ hgo.1, hgo.2 k k.lt_succ_self⟩ hstop
    · rw [hret] at hnone
      contradiction
    · exact h.read_next (fun _ => id) fun c hc hlt _ => absurd ⟨by rw [hc]; rfl, hlt⟩ hstop
  | none =>
    obtain ⟨hcur, hout⟩ := h.state hret
    by_cases hroom : w.out.length < cap
    · obtain ⟨hgo, hnext, hnew, hreads⟩ := turn_spec (d := d) hret hroom
      have hlba : d.lba (k + 1) = d.link w.current := by
        rw [lba, hcur]
        rfl
      rw [hout] at hroom
      refine ⟨?_, fun hnone => ⟨?_, ?_⟩, ?_, ?_, ?_, ?_⟩
      · rw [hgo, hlba]
        refine ⟨fun hs => ⟨hs, fun i hi => ?_⟩, fun hs => hs.1⟩
        exact (listed_le (Nat.lt_succ_iff.mp hi)).trans_lt hroom
      · obtain ⟨n, hn⟩ := isSome_iff_exists.mp (hgo.mp hnone)
        rw [hlba, hn, hnext n hn]
      · rw [hnew, listed, hcur, hout]
        rfl
      · have : (d.part w.current).toList.length ≤ 1 := by cases d.part w.current <;> simp
        rw [hnew, length_append, hout]
        omega
      · rw [hnew, h.out]
        rcases hreads with ⟨heq, -⟩ | ⟨heq, hebr⟩
        · rw [heq, filterMap_append]
          cases hp : d.part w.current <;> simp [hp]
        · rw [heq]
          simp [part, hebr]
      · intro c hc
        rcases hreads with ⟨heq, hlt⟩ | ⟨heq, -⟩
        · rcases List.mem_append.mp (heq ▸ hc) with hc | hc
          · exact h.reads c hc
          obtain rfl := List.mem_singleton.mp hc
          exact ⟨hlt, k, hcur, hroom⟩
        · exact h.reads c (heq ▸ hc)
      · refine h.read_next (fun c hc => ?_) fun c hc hlt hebr => ?_
        · rcases hreads with ⟨heq, -⟩ | ⟨heq, -⟩
          · exact heq ▸ mem_append_left _ hc
          · exact heq ▸ hc
        obtain rfl := some.inj (hcur.symm.trans hc)
        rcases hreads with ⟨heq, -⟩ | ⟨-, hnone⟩
        · simp [heq]
        · rw [hnone] at hebr
          contradiction
    · have hcap : ¬(d.listed k).length < cap := hout ▸ hroom
      have hstop : d.turn cap w = { w with ret := some w.out.length } := by
        rw [EbrDisk.turn, if_neg (by simp [hret]), if_pos (by omega)]
      rw [hstop]
      refine ⟨⟨fun hnone => ?_, fun hgo => ?_⟩, fun hnone => ?_, h.room, h.out, h.reads, ?_⟩
      · contradiction
      · exact absurd (hgo.2 k k.lt_succ_self) hcap
      · contradiction
      · exact h.read_next (fun _ => id) fun _ _ hlt _ => absurd hlt hcap

theorem walk_follows (d : EbrDisk) (maxOut : ℤ) (k : ℕ) :
    Follows d (min maxOut mbrMaxLogical).toNat k (d.walkEbr maxOut k) := by
  induction k with
  | zero =>
    exact ⟨by simp [walkEbr, lba], fun _ => ⟨rfl, rfl⟩, Nat.zero_le _, rfl, by simp [walkEbr],
      fun i hi => absurd hi (Nat.not_lt_zero i)⟩
  | succ k ih =>
    rw [walkEbr, iterate_succ_apply']
    exact ih.turn

/-! ### Termination -/

theorem lba_lt {k c : ℕ} (h : d.lba k = some c) : c < d.sectors + d.first + 1 := by
  cases k with
  | zero =>
    obtain rfl := some.inj h
    omega
  | succ k =>
    obtain ⟨b, -, hlink⟩ := bind_eq_some_iff.mp h
    obtain ⟨sect, -, hnext⟩ := bind_eq_some_iff.mp hlink
    have := (filter_eq_some_iff.mp hnext).2
    simp at this
    omega

/-- A chain that comes back goes round. -/
theorem Loops.goes_on (h : d.Loops cap) (k : ℕ) :
    (d.lba k).isSome ∧ (d.listed k).length < cap := by
  obtain ⟨i, j, c, hij, hi, hj, hlen, hcap⟩ := h
  have hjsome : (d.lba j).isSome := by rw [hj]; rfl
  rcases lt_or_ge k i with hki | hik
  · exact ⟨lba_isSome_of_le (by omega) hjsome, (listed_le hki.le).trans_lt hcap⟩
  have hround : ∃ m, i ≤ m ∧ m < j ∧ d.lba k = d.lba m ∧
      (d.listed k).length = (d.listed i).length := by
    induction k, hik using Nat.le_induction with
    | base => exact ⟨i, le_rfl, hij, rfl, rfl⟩
    | succ k _ ih =>
      obtain ⟨m, him, hmj, hm, hk⟩ := ih
      have hpart : (d.listed (m + 1)).length = (d.listed i).length := by
        have := listed_le (d := d) (show i ≤ m + 1 by omega)
        have := listed_le (d := d) (show m + 1 ≤ j by omega)
        omega
      have hkeep : (d.listed (k + 1)).length = (d.listed i).length := by
        have := listed_le (d := d) him
        have := listed_le (d := d) (show m ≤ j by omega)
        rw [listed, length_append] at hpart ⊢
        rw [hm]
        omega
      have hnext : d.lba (k + 1) = d.lba (m + 1) := by rw [lba, lba, hm]
      rcases Nat.lt_or_ge (m + 1) j with hlt | hge
      · exact ⟨m + 1, by omega, hlt, hnext, hkeep⟩
      · obtain rfl : m + 1 = j := by omega
        exact ⟨i, le_rfl, hij, hnext.trans (hj.trans hi.symm), hkeep⟩
  obtain ⟨m, -, hmj, hm, hk⟩ := hround
  exact ⟨hm ▸ lba_isSome_of_le hmj.le hjsome, hk ▸ hcap⟩

theorem ends_iff (d : EbrDisk) (maxOut : ℤ) : (∃ k, (d.walkEbr maxOut k).ret.isSome) ↔
    ¬d.Loops (min maxOut mbrMaxLogical).toNat := by
  set cap := (min maxOut mbrMaxLogical).toNat
  constructor
  · rintro ⟨k, hk⟩ hloop
    have hrun := (walk_follows d maxOut k).running.mpr
      ⟨(hloop.goes_on k).1, fun i _ => (hloop.goes_on i).2⟩
    rw [hrun] at hk
    contradiction
  · intro hloop
    by_contra hnever
    push Not at hnever
    have hrun := fun k => (walk_follows d maxOut k).running.mp (by simpa using hnever k)
    have hlt : ∀ k, (d.listed k).length < cap := fun k => (hrun (k + 1)).2 k k.lt_succ_self
    choose c hc using fun k => isSome_iff_exists.mp (hrun k).1
    let f : ℕ → Fin (d.sectors + d.first + 1) × Fin cap :=
      fun k => (⟨c k, lba_lt (hc k)⟩, ⟨_, hlt k⟩)
    obtain ⟨i, j, hne, heq⟩ := Finite.exists_ne_map_eq_of_infinite f
    simp only [f, Prod.mk.injEq, Fin.mk.injEq] at heq
    -- the states at two turns are the same: the chain comes back
    rcases lt_or_gt_of_ne hne with hij | hij
    · exact hloop ⟨i, j, c i, hij, hc i, heq.1 ▸ hc j, heq.2.symm, hlt i⟩
    · exact hloop ⟨j, i, c j, hij, hc j, heq.1 ▸ hc i, heq.2, hlt j⟩

theorem logical_startLba {sect : ByteMem} {c : ℕ} {p : MbrEntry} (h : logical sect c = some p) :
    p.startLba = (c + relativeStart sect) % 2 ^ 32 := by
  unfold logical at h
  obtain ⟨-, hp⟩ := ite_none_right_eq_some.mp h
  obtain rfl := some.inj hp
  rfl

/-- The walk ends with what is asked of it just when the chain does not come back to a record with
no partition in between and the LBAs of its partitions fit. -/
theorem mbrWalkEbr_exact_iff (d : EbrDisk) (maxOut : ℤ) :
    (∃ turns, d.Exact maxOut (d.walkEbr maxOut turns)) ↔
      ¬d.Loops (min maxOut mbrMaxLogical).toNat ∧ d.Fits (min maxOut mbrMaxLogical).toNat := by
  rw [← ends_iff]
  constructor
  · rintro ⟨n, h⟩
    refine ⟨⟨n, h.done⟩, fun k c sect hc hebr hlt hpart => ?_⟩
    obtain ⟨p, hp⟩ := isSome_iff_exists.mp hpart
    have hfollows := walk_follows d maxOut n
    have hkn : k < n := by
      by_contra hnk
      have hrun := hfollows.running.mpr ⟨lba_isSome_of_le (not_lt.mp hnk) (by rw [hc]; rfl),
        fun i hi => (listed_le (hi.le.trans (not_lt.mp hnk))).trans_lt hlt⟩
      have := h.done
      rw [hrun] at this
      contradiction
    have hread := hfollows.read k hkn c hc hlt (by rw [hebr]; rfl)
    have hstart := h.start c hread sect p hebr hp
    rw [logical_startLba hp] at hstart
    omega
  · rintro ⟨⟨n, hdone⟩, hfits⟩
    have h := walk_follows d maxOut n
    refine ⟨n, hdone, fun c hc => (h.reads c hc).1, h.room.trans ?_, h.out, ?_⟩
    · omega
    · intro c hc sect p hebr hp
      obtain ⟨-, i, hi, hlt⟩ := h.reads c hc
      rw [logical_startLba hp, Nat.mod_eq_of_lt (hfits i c sect hi hebr hlt (by rw [hp]; rfl))]

/-- Two records without a partition that link to each other. -/
def circle : EbrDisk where
  first := 1
  sectors := 4
  read := fun c => some fun a =>
    if a = 510 then 0x55 else if a = 511 then 0xAA else if a = 466 then 0x05
    else if a = 470 ∧ c = 1 then 1 else 0

theorem circle_not_exact : ¬∃ turns, circle.Exact 128 (circle.walkEbr 128 turns) := by
  rintro ⟨n, h⟩
  exact (ends_iff circle 128).mp ⟨n, h.done⟩ ⟨0, 2, 1, by decide⟩

end EbrDisk

end ImpossibleOs.Mbr
