import ImpossibleOs.Fat32.FsckRun

/-!
Whether the checks on the boot sector make the address computations safe
(`fat32_validate_bpb` and the computations of `src/kernel/fs/fat32/fat32_core.c`).
-/

namespace ImpossibleOs.Fat32

open Nat

variable {b : Bpb} {v : Volume} {c fi : ℕ}

/-- The last cluster number, as validation computes it. -/
def validatedMax (b : Bpb) : ℕ :=
  min ((b.totalSectors - (b.reservedSectors + b.numFats * b.fatSizeSectors)) /
    b.sectorsPerCluster + 1) 0x0FFFFFEF

/-- The addresses of cluster `c` are where they should be, without a wrap. -/
structure Addressed (b : Bpb) (c : ℕ) : Prop where
  inCopy : c * 4 / 512 < b.fatSizeSectors
  entry : ∀ fi < b.numFats, fatAddr b fi c =
    (b.firstFatSector + fi * b.fatSizeSectors + c * 4 / 512) * 512 + c * 4 % 512
  sector : clusterToSector b c = b.firstDataSector + (c - 2) * b.sectorsPerCluster
  inside : clusterToSector b c + b.sectorsPerCluster ≤ b.totalSectors

theorem fatAddr_of_inCopy (hc : c ≤ 0x0FFFFFEF) (hfi : fi < b.numFats)
    (hcopy : c * 4 / 512 < b.fatSizeSectors)
    (hfats : b.firstFatSector + b.numFats * b.fatSizeSectors < 2 ^ 32) : fatAddr b fi c =
      (b.firstFatSector + fi * b.fatSizeSectors + c * 4 / 512) * 512 + c * 4 % 512 := by
  have hoff : u32 (c * 4) = c * 4 := mod_eq_of_lt (by omega)
  have hmul : fi * b.fatSizeSectors + b.fatSizeSectors ≤ b.numFats * b.fatSizeSectors := by
    rw [← succ_mul]
    exact Nat.mul_le_mul_right _ hfi
  simp only [fatAddr, hoff]
  rw [u32, mod_eq_of_lt (by omega)]

theorem validated_sector (hm : b.Mounted) (hts : b.totalSectors < 2 ^ 32)
    (hfds : b.reservedSectors + b.numFats * b.fatSizeSectors < b.totalSectors)
    (hlo : 2 ≤ c) (hhi : c ≤ validatedMax b) :
    clusterToSector b c = b.firstDataSector + (c - 2) * b.sectorsPerCluster ∧
      clusterToSector b c + b.sectorsPerCluster ≤ b.totalSectors := by
  have hdata := hm.dataStart
  have hmax := hhi.trans (Nat.min_le_left _ _)
  have hmul : (c - 2) * b.sectorsPerCluster + b.sectorsPerCluster ≤
      b.totalSectors - b.firstDataSector := by
    calc (c - 2) * b.sectorsPerCluster + b.sectorsPerCluster
        = (c - 1) * b.sectorsPerCluster := by
          rw [← succ_mul, show (c - 2).succ = c - 1 by omega]
      _ ≤ (b.totalSectors - b.firstDataSector) / b.sectorsPerCluster * b.sectorsPerCluster :=
          Nat.mul_le_mul_right _ (by rw [hdata]; omega)
      _ ≤ b.totalSectors - b.firstDataSector := div_mul_le_self _ _
  have hsub : sub32 c 2 = c - 2 := if_pos hlo
  have heq : clusterToSector b c = b.firstDataSector + (c - 2) * b.sectorsPerCluster := by
    rw [clusterToSector, hsub, u32, mod_eq_of_lt (by omega)]
  exact ⟨heq, by omega⟩

/-- Validation bounds the data area by the volume, but it compares the size of a FAT copy with
nothing: the addresses are right just when a copy has an entry for the last cluster number. -/
theorem addressed_iff (hm : v.bpb.Mounted) (hts : v.bpb.totalSectors < 2 ^ 32)
    (hvalid : validateBpb v = true) : (∀ c, 2 ≤ c → c ≤ validatedMax v.bpb → Addressed v.bpb c) ↔
      validatedMax v.bpb * 4 / 512 < v.bpb.fatSizeSectors := by
  simp only [validateBpb, Bool.and_eq_true, decide_eq_true_eq, ne_eq] at hvalid
  obtain ⟨⟨⟨⟨⟨⟨⟨-, hroot⟩, -⟩, -⟩, -⟩, -⟩, hfds⟩, hmax⟩ := hvalid
  constructor
  · intro haddr
    exact (haddr (validatedMax v.bpb) (hroot.trans hmax) le_rfl).inCopy
  · intro hcopy c hlo hhi
    have hcap : c ≤ 0x0FFFFFEF := hhi.trans (Nat.min_le_right _ _)
    have hin : c * 4 / 512 < v.bpb.fatSizeSectors := by omega
    obtain ⟨hsector, hinside⟩ := validated_sector hm hts hfds hlo hhi
    have hstart := hm.fatStart
    exact ⟨hin, fun fi hfi => fatAddr_of_inCopy hcap hfi hin (by omega), hsector, hinside⟩

def shortFat : Volume where
  bpb := ⟨512, 1, 1, 1, 1000, 1, 2, 2, 1⟩
  disk := fun a => if a = 0 then 0xEB else 0
  fsinfoValid := false
  fsinfoFreeCount := fsinfoUnknown
  fsinfoNextFree := 0
  fsinfoDirty := false

/-- One FAT sector for 998 clusters. -/
theorem shortFat_not_addressed :
    shortFat.bpb.Mounted ∧ validateBpb shortFat = true ∧ validatedMax shortFat.bpb = 999 ∧
      ¬∀ c, 2 ≤ c → c ≤ validatedMax shortFat.bpb → Addressed shortFat.bpb c := by
  refine ⟨⟨rfl, rfl⟩, by decide, by decide, ?_⟩
  intro haddr
  have hcopy := (haddr 999 (by decide) (by decide)).inCopy
  exact absurd hcopy (by decide)

def fullFat : Volume := { shortFat with bpb := ⟨512, 1, 1, 1, 1000, 8, 2, 9, 1⟩ }

theorem fullFat_addressed : Addressed fullFat.bpb 992 :=
  (addressed_iff (v := fullFat) ⟨rfl, rfl⟩ (by decide) (by decide)).2 (by decide) 992 (by decide)
    (by decide)

end ImpossibleOs.Fat32
