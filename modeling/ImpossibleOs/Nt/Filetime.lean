import Mathlib.Algebra.Order.Ring.Int

/-!
Calendar conversions of a `FILETIME`, from `src/kernel/nt/filetime.c`.

`filetime_days_from_date_fn` counts days in closed form; `filetime_to_string`
and `filetime_to_dos_datetime` peel years and months off a day count.
-/

namespace ImpossibleOs.Nt

open Nat

/-! ### Dates -/

def leap (year : ℕ) : Bool := year % 4 = 0 && (year % 100 ≠ 0 || year % 400 = 0)

def cumdays : List ℕ := [0, 31, 59, 90, 120, 151, 181, 212, 243, 273, 304, 334]

def dpm : List ℕ := [31, 28, 31, 30, 31, 30, 31, 31, 30, 31, 30, 31]

/-- Days from 1601-01-01 to the date; `day - 1` is added as a `uint64_t`. -/
def filetimeDaysFromDate (year month day : ℕ) : ℕ :=
  if year < 1601 then 0
  else
    let y := year - 1601
    let days := y * 365 + y / 4 - y / 100 + y / 400
    let m := if 0 < month ∧ month ≤ 12 then month - 1 else 0
    let days := days + cumdays.getD m 0
    let days := if 2 ≤ m ∧ leap year then days + 1 else days
    (days + (day + (2 ^ 64 - 1))) % 2 ^ 64

def yearDays (year : ℕ) : ℕ := if leap year then 366 else 365

/-- Days of month `m`, counted from 0, in a leap year or not. -/
def monthDays (isLeap : Bool) (m : ℕ) : ℕ := if m = 1 ∧ isLeap then 29 else dpm.getD m 0

def peelYears (year days : ℕ) : ℕ × ℕ :=
  if 365 ≤ days ∧ ¬ days < yearDays year then peelYears (year + 1) (days - yearDays year)
  else (year, days)
termination_by days
decreasing_by
  unfold yearDays
  split <;> omega

/-- The loop over the months from `m`, of which `n` are left. -/
def peelMonths (isLeap : Bool) : ℕ → ℕ → ℕ → ℕ × ℕ
  | 0, m, days => (m, days)
  | n + 1, m, days =>
    if days < monthDays isLeap m then (m, days)
    else peelMonths isLeap n (m + 1) (days - monthDays isLeap m)

/-- Year, month and day that both conversions compute from a day count. -/
def peelDate (totalDays : ℕ) : ℕ × ℕ × ℕ :=
  let (year, days) := peelYears 1601 totalDays
  let (month, days) := peelMonths (leap year) 12 0 days
  (year, month + 1, days + 1)

/-- A date of the Gregorian calendar from 1601 on. -/
structure ValidDate (year month day : ℕ) : Prop where
  epoch : 1601 ≤ year
  inYear : 1 ≤ month ∧ month ≤ 12
  inMonth : 1 ≤ day ∧ day ≤ monthDays (leap year) (month - 1)

/-! ### Conversions -/

def ticksPerSecond : ℕ := 10000000

def biasTicks (bias : Int32) : ℤ := bias.toInt * 60 * ticksPerSecond

def filetimeClampSecond (s : ℕ) : ℕ := if 59 < s then 59 else s

def dosYear (date : UInt16) : ℕ := (date.toNat >>> 9 &&& 0x7F) + 1980
def dosMonth (date : UInt16) : ℕ := date.toNat >>> 5 &&& 0x0F
def dosDay (date : UInt16) : ℕ := date.toNat &&& 0x1F
def dosHours (time : UInt16) : ℕ := time.toNat >>> 11 &&& 0x1F
def dosMins (time : UInt16) : ℕ := time.toNat >>> 5 &&& 0x3F
def dosSecs2 (time : UInt16) : ℕ := time.toNat &&& 0x1F

/-- The fields of a DOS stamp, in the order of the source's shifts. -/
def packDate (year month day : ℕ) : UInt16 :=
  UInt16.ofNat ((year - 1980) <<< 9 ||| month <<< 5 ||| day)
def packTime (hours mins s2 : ℕ) : UInt16 := UInt16.ofNat (hours <<< 11 ||| mins <<< 5 ||| s2)

def filetimeToDosDatetime (ft : UInt64) (bias : Int32) : UInt16 × UInt16 :=
  let localTicks := (ft.toNat + biasTicks bias).bmod (2 ^ 64)
  if localTicks ≤ 0 then (packDate 1980 1 1, 0)
  else
    let totalSecs := localTicks.toNat / ticksPerSecond
    let secsInDay := totalSecs % 86400
    let (year, month, day) := peelDate (totalSecs / 86400)
    if year < 1980 then (packDate 1980 1 1, packTime 0 0 0)
    else if 2107 < year then (packDate 2107 12 31, packTime 23 59 29)
    else (packDate year month day,
      packTime (secsInDay / 3600) (secsInDay / 60 % 60) (secsInDay % 60 / 2))

/-- Ticks of a DOS stamp, before the bias is taken off. -/
def dosTicks (date time : UInt16) : ℕ :=
  let days := filetimeDaysFromDate (dosYear date) (dosMonth date) (dosDay date)
  (days * 86400 + dosHours time * 3600 + dosMins time * 60 +
    filetimeClampSecond (dosSecs2 time * 2)) * ticksPerSecond

def filetimeFromDosDatetime (date time : UInt16) (bias : Int32) : UInt64 :=
  UInt64.ofInt (dosTicks date time - biasTicks bias)

structure DosValid (date time : UInt16) : Prop where
  date : ValidDate (dosYear date) (dosMonth date) (dosDay date)
  hours : dosHours time < 24
  mins : dosMins time < 60
  secs : dosSecs2 time < 30

/-! ### The day count -/

/-- Days before the year. -/
def yearStart (year : ℕ) : ℕ :=
  (year - 1601) * 365 + (year - 1601) / 4 - (year - 1601) / 100 + (year - 1601) / 400

def monthStart (isLeap : Bool) (m : ℕ) : ℕ :=
  cumdays.getD m 0 + if 2 ≤ m ∧ isLeap then 1 else 0

theorem monthStart_succ : ∀ isLeap, ∀ m < 12, monthStart isLeap m + monthDays isLeap m =
    if m = 11 then (if isLeap then 366 else 365) else monthStart isLeap (m + 1) := by decide

theorem monthStart_lt : ∀ isLeap, ∀ m < 12, ∀ m' < m,
    monthStart isLeap m' + monthDays isLeap m' ≤ monthStart isLeap m := by decide

theorem leap_eq (k : ℕ) : leap (k + 1601) = true ↔ 4 ∣ k + 1 ∧ (¬ 100 ∣ k + 1 ∨ 400 ∣ k + 1) := by
  simp only [leap, Bool.and_eq_true, Bool.or_eq_true, decide_eq_true_eq]
  omega

theorem yearStart_succ {y : ℕ} (hy : 1601 ≤ y) : yearStart (y + 1) = yearStart y + yearDays y := by
  obtain ⟨k, rfl⟩ := Nat.exists_eq_add_of_le' hy
  have hk : k + 1601 + 1 - 1601 = k + 1 := by omega
  simp only [yearStart, yearDays, leap_eq, hk, Nat.add_sub_cancel, Nat.succ_div]
  split_ifs <;> omega

theorem yearStart_mono {y y' : ℕ} (hy : 1601 ≤ y) (h : y ≤ y') : yearStart y ≤ yearStart y' := by
  induction y', h using le_induction with
  | base => exact Nat.le_refl _
  | succ y' hle ih =>
    rw [yearStart_succ (Nat.le_trans hy hle)]
    omega

variable {y m d y' m' d' : ℕ}

theorem ValidDate.in_year (h : ValidDate y m d) : monthStart (leap y) (m - 1) + d ≤ yearDays y := by
  have hstart := monthStart_succ (leap y) (m - 1) (by have := h.inYear; omega)
  have hle := monthStart_lt (leap y) 11 (by decide) (m - 1)
  have hlast := monthStart_succ (leap y) 11 (by decide)
  have := h.inMonth
  have := h.inYear
  unfold yearDays
  split at hstart <;> simp only [reduceIte] at hlast <;> omega

theorem daysFromDate_eq (h : ValidDate y m d) (hy : y < 2 ^ 32) :
    filetimeDaysFromDate y m d = yearStart y + monthStart (leap y) (m - 1) + (d - 1) := by
  have := h.epoch
  have := h.inYear
  have := h.inMonth
  have := h.in_year
  have hyear : yearDays y ≤ 366 := by
    unfold yearDays
    split <;> omega
  unfold filetimeDaysFromDate
  rw [if_neg (by omega), if_pos (by omega)]
  unfold monthStart at this ⊢
  unfold yearStart
  dsimp only
  split <;> simp_all <;> omega

theorem daysFromDate_lt (h : ValidDate y m d) (h' : ValidDate y' m' d') (hy : y' < 2 ^ 32)
    (hlt : y < y' ∨ y = y' ∧ (m < m' ∨ m = m' ∧ d < d')) :
    filetimeDaysFromDate y m d < filetimeDaysFromDate y' m' d' := by
  rw [daysFromDate_eq h (by omega), daysFromDate_eq h' hy]
  have hd := h.inMonth
  have hd' := h'.inMonth
  rcases hlt with hyear | ⟨rfl, hmonth | ⟨rfl, hday⟩⟩
  · have hstart := yearStart_succ h.epoch
    have hmono := yearStart_mono (y := y + 1) (by have := h.epoch; omega) hyear
    have := h.in_year
    omega
  · have := monthStart_lt (leap y) (m' - 1) (by have := h'.inYear; omega) (m - 1)
      (by have := h.inYear; omega)
    omega
  · omega

theorem peelYears_spec (year days : ℕ) (hy : 1601 ≤ year) : year ≤ (peelYears year days).1 ∧
    yearStart (peelYears year days).1 + (peelYears year days).2 = yearStart year + days ∧
    (peelYears year days).2 < yearDays (peelYears year days).1 := by
  fun_induction peelYears year days with
  | case1 year days hpeel ih =>
    obtain ⟨hle, hsum, hlt⟩ := ih (by omega)
    refine ⟨by omega, ?_, hlt⟩
    rw [hsum, yearStart_succ hy]
    omega
  | case2 year days hpeel =>
    have hyear : 365 ≤ yearDays year := by
      unfold yearDays
      split <;> omega
    have hlt : days < yearDays year := by omega
    exact ⟨Nat.le_refl _, rfl, hlt⟩

theorem peelMonths_spec (isLeap : Bool) {n m days : ℕ} (hn : n + m = 12) (hm : m < 12)
    (hdays : monthStart isLeap m + days < if isLeap then 366 else 365) :
    (peelMonths isLeap n m days).1 < 12 ∧
    monthStart isLeap (peelMonths isLeap n m days).1 + (peelMonths isLeap n m days).2 =
      monthStart isLeap m + days ∧
    (peelMonths isLeap n m days).2 < monthDays isLeap (peelMonths isLeap n m days).1 := by
  induction n generalizing m days with
  | zero => omega
  | succ n ih =>
    have hstart := monthStart_succ isLeap m hm
    rw [peelMonths]
    split
    · exact ⟨hm, rfl, ‹_›⟩
    · have hlast : m ≠ 11 := by
        rintro rfl
        rw [if_pos rfl] at hstart
        omega
      rw [if_neg hlast] at hstart
      obtain ⟨hlt, hsum, hrest⟩ := @ih (m + 1) (days - monthDays isLeap m) (by omega)
        (by omega) (by omega)
      exact ⟨hlt, by omega, hrest⟩

theorem peelDate_spec {n : ℕ} (hn : n < 2 ^ 32) :
    ValidDate (peelDate n).1 (peelDate n).2.1 (peelDate n).2.2 ∧
    filetimeDaysFromDate (peelDate n).1 (peelDate n).2.1 (peelDate n).2.2 = n ∧
    (peelDate n).1 ≤ 1601 + n / 365 := by
  obtain ⟨hle, hsum, hlt⟩ := peelYears_spec 1601 n (Nat.le_refl _)
  unfold peelDate
  generalize peelYears 1601 n = p at hle hsum hlt ⊢
  obtain ⟨year, days⟩ := p
  dsimp only at hle hsum hlt ⊢
  obtain ⟨hmonth, hdays, hday⟩ := @peelMonths_spec (leap year) 12 0 days rfl (by decide)
    (by simpa [monthStart, cumdays, yearDays] using hlt)
  generalize peelMonths (leap year) 12 0 days = q at hmonth hdays hday ⊢
  obtain ⟨month, rest⟩ := q
  dsimp only at hmonth hdays hday ⊢
  have hvalid : ValidDate year (month + 1) (rest + 1) :=
    ⟨hle, by omega, by omega, by rwa [Nat.add_sub_cancel]⟩
  have hzero : monthStart (leap year) 0 = 0 := by simp [monthStart, cumdays]
  have hfirst : yearStart 1601 = 0 := by decide
  have hyear : year ≤ 1601 + n / 365 := by
    have := div_le_div_left (a := year - 1601) (show 4 ≤ 100 by decide) (by decide)
    unfold yearStart at hsum hfirst
    omega
  refine ⟨hvalid, ?_, hyear⟩
  rw [daysFromDate_eq hvalid (by omega)]
  simp only [Nat.add_sub_cancel]
  omega

theorem peelDate_daysFromDate (h : ValidDate y m d) (hy : y < 2 ^ 16) :
    peelDate (filetimeDaysFromDate y m d) = (y, m, d) := by
  have hbound : filetimeDaysFromDate y m d < 2 ^ 32 := by
    rw [daysFromDate_eq h (by omega)]
    have hyear := h.in_year
    unfold yearStart
    unfold yearDays at hyear
    split at hyear <;> omega
  obtain ⟨hvalid, heq, hyear⟩ := peelDate_spec hbound
  generalize peelDate (filetimeDaysFromDate y m d) = p at hvalid heq hyear ⊢
  obtain ⟨y', m', d'⟩ := p
  dsimp only at hvalid heq hyear
  have hnot : ¬ (y < y' ∨ y = y' ∧ (m < m' ∨ m = m' ∧ d < d')) := fun hlt =>
    absurd (daysFromDate_lt h hvalid (by omega) hlt) (by omega)
  have hnot' : ¬ (y' < y ∨ y' = y ∧ (m' < m ∨ m' = m ∧ d' < d)) := fun hlt =>
    absurd (daysFromDate_lt hvalid h (by omega) hlt) (by omega)
  have hsame : y' = y ∧ m' = m ∧ d' = d := by omega
  rw [hsame.1, hsame.2.1, hsame.2.2]

/-! ### DOS stamps -/

variable {date time date' time' : UInt16} {bias : Int32}

def dosSecs (time : UInt16) : ℕ := dosHours time * 3600 + dosMins time * 60 + dosSecs2 time * 2

theorem dosYear_lt (date : UInt16) : 1980 ≤ dosYear date ∧ dosYear date ≤ 2107 := by
  have := and_le_right (n := date.toNat >>> 9) (m := 0x7F)
  unfold dosYear
  omega

section

variable (h : DosValid date time)
include h

theorem dosTicks_eq :
    dosTicks date time = (filetimeDaysFromDate (dosYear date) (dosMonth date) (dosDay date) *
      86400 + dosSecs time) * ticksPerSecond := by
  have := h.secs
  rw [dosTicks, filetimeClampSecond, if_neg (by omega), dosSecs]
  simp only [Nat.add_assoc]

theorem dosSecs_lt : dosSecs time < 86400 := by
  have := h.hours
  have := h.mins
  have := h.secs
  unfold dosSecs
  omega

theorem dosTicks_lt : dosTicks date time < 2 ^ 62 := by
  have hdays := dosSecs_lt h
  have hyear := dosYear_lt date
  have hin := h.date.in_year
  rw [dosTicks_eq h, daysFromDate_eq h.date (by omega)]
  unfold yearStart ticksPerSecond
  unfold yearDays at hin
  split at hin <;> omega

omit h in
theorem toNat_ofInt (x : ℤ) : ((UInt64.ofInt x).toNat : ℤ) = x % 2 ^ 64 := by
  have h := Int.emod_nonneg x (show (2 ^ 64 : ℤ) ≠ 0 by decide)
  rw [UInt64.ofInt, UInt64.toNat_ofNat', mod_eq_of_lt (by omega)]
  omega

omit h in
/-- Three fields packed by shifts are the digits of a number. -/
theorem shiftLeft_or_or {a b c s t : ℕ} (hb : b < 2 ^ s) (hc : c < 2 ^ t) :
    a <<< (s + t) ||| b <<< t ||| c = (a * 2 ^ s + b) * 2 ^ t + c := by
  rw [shiftLeft_add, ← shiftLeft_or_distrib, ← shiftLeft_add_eq_or_of_lt hb,
    ← shiftLeft_add_eq_or_of_lt hc, shiftLeft_eq, shiftLeft_eq]

omit h in
theorem date_fields (date : UInt16) : dosYear date = date.toNat / 512 % 128 + 1980 ∧
    dosMonth date = date.toNat / 32 % 16 ∧ dosDay date = date.toNat % 32 := by
  refine ⟨congrArg (· + 1980) ?_, ?_, and_two_pow_sub_one_eq_mod _ 5⟩
  · rw [shiftRight_eq_div_pow]
    exact and_two_pow_sub_one_eq_mod _ 7
  · rw [dosMonth, shiftRight_eq_div_pow]
    exact and_two_pow_sub_one_eq_mod _ 4

omit h in
theorem time_fields (time : UInt16) : dosHours time = time.toNat / 2048 % 32 ∧
    dosMins time = time.toNat / 32 % 64 ∧ dosSecs2 time = time.toNat % 32 := by
  refine ⟨?_, ?_, and_two_pow_sub_one_eq_mod _ 5⟩
  · rw [dosHours, shiftRight_eq_div_pow]
    exact and_two_pow_sub_one_eq_mod _ 5
  · rw [dosMins, shiftRight_eq_div_pow]
    exact and_two_pow_sub_one_eq_mod _ 6

omit h in
theorem packDate_fields (date : UInt16) :
    packDate (dosYear date) (dosMonth date) (dosDay date) = date := by
  have hlt := date.toNat_lt
  obtain ⟨hy, hm, hd⟩ := date_fields date
  rw [← UInt16.toNat_inj, packDate, hy, hm, hd, Nat.add_sub_cancel,
    shiftLeft_or_or (s := 4) (t := 5) (by omega) (by omega), UInt16.toNat_ofNat']
  omega

omit h in
theorem packTime_fields (time : UInt16) :
    packTime (dosHours time) (dosMins time) (dosSecs2 time) = time := by
  have hlt := time.toNat_lt
  obtain ⟨hh, hm, hs⟩ := time_fields time
  rw [← UInt16.toNat_inj, packTime, hh, hm, hs,
    shiftLeft_or_or (s := 6) (t := 5) (by omega) (by omega), UInt16.toNat_ofNat']
  omega

theorem dosTicks_pos : 0 < dosTicks date time := by
  rw [dosTicks_eq h, daysFromDate_eq h.date (by have := dosYear_lt date; omega)]
  have hmono := @yearStart_mono 1602 (dosYear date) (by decide)
    (by have := dosYear_lt date; omega)
  have hfirst : yearStart 1602 = 365 := by decide
  unfold ticksPerSecond
  omega

theorem dos_roundTrip (bias : Int32) :
    filetimeToDosDatetime (filetimeFromDosDatetime date time bias) bias = (date, time) := by
  have hpos := dosTicks_pos h
  have hlt := dosTicks_lt h
  have hlocal : ((filetimeFromDosDatetime date time bias).toNat + biasTicks bias).bmod (2 ^ 64) =
      dosTicks date time := by
    rw [filetimeFromDosDatetime, toNat_ofInt]
    exact (Int.emod_add_bmod _ (2 ^ 64)).trans <| by
      rw [Int.sub_add_cancel, Int.bmod_eq_of_le (by omega) (by omega)]
  have hyear := dosYear_lt date
  have hsecs := dosSecs_lt h
  have hdiv : dosTicks date time / ticksPerSecond =
      filetimeDaysFromDate (dosYear date) (dosMonth date) (dosDay date) * 86400 + dosSecs time := by
    rw [dosTicks_eq h, Nat.mul_div_cancel _ (by decide)]
  have hdays : dosTicks date time / ticksPerSecond / 86400 =
      filetimeDaysFromDate (dosYear date) (dosMonth date) (dosDay date) := by omega
  have hrest : dosTicks date time / ticksPerSecond % 86400 = dosSecs time := by omega
  unfold filetimeToDosDatetime
  simp only [hlocal, Int.toNat_natCast, hdays, hrest, peelDate_daysFromDate h.date (by omega)]
  rw [if_neg (by omega), if_neg (by omega), if_neg (by omega), packDate_fields]
  congr 1
  have := h.hours
  have := h.mins
  have := h.secs
  rw [show dosSecs time / 3600 = dosHours time by unfold dosSecs; omega,
    show dosSecs time / 60 % 60 = dosMins time by unfold dosSecs; omega,
    show dosSecs time % 60 / 2 = dosSecs2 time by unfold dosSecs; omega, packTime_fields]

theorem dosTicks_lt_of_lt (h' : DosValid date' time')
    (hlt : date < date' ∨ date = date' ∧ time < time') :
    dosTicks date time < dosTicks date' time' := by
  rw [dosTicks_eq h, dosTicks_eq h']
  refine Nat.mul_lt_mul_of_pos_right ?_ (by decide)
  have hsecs := dosSecs_lt h
  rcases hlt with hdate | ⟨rfl, htime⟩
  · have hless := daysFromDate_lt h.date h'.date (by have := dosYear_lt date'; omega) (by
      obtain ⟨hy, hm, hd⟩ := date_fields date
      obtain ⟨hy', hm', hd'⟩ := date_fields date'
      have := date'.toNat_lt
      rw [UInt16.lt_iff_toNat_lt] at hdate
      omega)
    omega
  · obtain ⟨hh, hm, hs⟩ := time_fields time
    obtain ⟨hh', hm', hs'⟩ := time_fields time'
    have := time'.toNat_lt
    have := h.mins
    have := h.secs
    rw [UInt16.lt_iff_toNat_lt] at htime
    have hlex : dosHours time < dosHours time' ∨ dosHours time = dosHours time' ∧
        (dosMins time < dosMins time' ∨
          dosMins time = dosMins time' ∧ dosSecs2 time < dosSecs2 time') := by omega
    unfold dosSecs
    rcases hlex with hlt | ⟨heq, hlt | ⟨heq', hlt⟩⟩ <;> omega

theorem fromDos_strictMono (h' : DosValid date' time')
    (hpos : 0 < dosTicks date time - biasTicks bias)
    (hpos' : 0 < dosTicks date' time' - biasTicks bias)
    (hlt : date < date' ∨ date = date' ∧ time < time') :
    filetimeFromDosDatetime date time bias < filetimeFromDosDatetime date' time' bias := by
  have hless := dosTicks_lt_of_lt h h' hlt
  have hmax := dosTicks_lt h'
  have hbias : -(2 ^ 62) ≤ biasTicks bias := by
    have := bias.le_toInt
    unfold biasTicks ticksPerSecond
    omega
  have hft := toNat_ofInt (dosTicks date time - biasTicks bias)
  have hft' := toNat_ofInt (dosTicks date' time' - biasTicks bias)
  rw [UInt64.lt_iff_toNat_lt, filetimeFromDosDatetime, filetimeFromDosDatetime]
  omega

end

/-- The date that the loops compute from a `FILETIME` is valid and has its number of whole days,
DOS stamps survive the way there and back, and a later stamp has a later `FILETIME`. -/
theorem filetime_calendar (bias : Int32) :
    (∀ ft : UInt64, ∃ year month day, peelDate (ft.toNat / ticksPerSecond / 86400) =
        (year, month, day) ∧ ValidDate year month day ∧ year < 2 ^ 16 ∧
        filetimeDaysFromDate year month day = ft.toNat / ticksPerSecond / 86400) ∧
    (∀ date time, DosValid date time →
      filetimeToDosDatetime (filetimeFromDosDatetime date time bias) bias = (date, time)) ∧
    ∀ date time date' time', DosValid date time → DosValid date' time' →
      0 < dosTicks date time - biasTicks bias → 0 < dosTicks date' time' - biasTicks bias →
      (date < date' ∨ date = date' ∧ time < time') →
      filetimeFromDosDatetime date time bias < filetimeFromDosDatetime date' time' bias := by
  refine ⟨fun ft => ?_, fun _ _ h => dos_roundTrip h bias,
    fun _ _ _ _ h h' => fromDos_strictMono h h'⟩
  have hft := ft.toNat_lt
  have hn : ft.toNat / ticksPerSecond / 86400 < 21350399 := by
    unfold ticksPerSecond
    omega
  generalize ft.toNat / ticksPerSecond / 86400 = n at hn
  obtain ⟨hvalid, hdays, hyear⟩ := peelDate_spec (n := n) (by omega)
  exact ⟨(peelDate n).1, _, _, rfl, hvalid, by omega, hdays⟩

end ImpossibleOs.Nt
