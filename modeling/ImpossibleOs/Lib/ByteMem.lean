import Mathlib.Data.Nat.Bitwise
import Mathlib.Tactic.Ring

/-!
Byte-addressed memory with little-endian words.

A word written is read back, a word whose bytes were not touched keeps its value,
and zeroing or copying a range changes nothing outside its destination. Behind it the
same words in lists of bytes, and a file as an array of bytes.
-/

abbrev ByteMem := ℕ → UInt8

namespace ByteMem

open List

/-- Two memories that hold the same bytes at `[a, e)`. -/
def AgreeOn (a e : ℕ) (m m' : ByteMem) : Prop :=
  ∀ x, a ≤ x → x < e → m' x = m x

theorem AgreeOn.refl (a e : ℕ) (m : ByteMem) : AgreeOn a e m m := fun _ _ _ => rfl

theorem AgreeOn.trans {a e : ℕ} {m₁ m₂ m₃ : ByteMem} (h : AgreeOn a e m₁ m₂)
    (h' : AgreeOn a e m₂ m₃) : AgreeOn a e m₁ m₃ :=
  fun x hx hx' => (h' x hx hx').trans (h x hx hx')

theorem AgreeOn.mono {a e a' e' : ℕ} {m m' : ByteMem} (h : AgreeOn a e m m')
    (ha : a ≤ a') (he : e' ≤ e) : AgreeOn a' e' m m' :=
  fun x hx hx' => h x (ha.trans hx) (lt_of_lt_of_le hx' he)

/-- Two memories that hold the same bytes outside `[a, e)`. -/
def SameOutside (a e : ℕ) (m m' : ByteMem) : Prop :=
  ∀ x, x < a ∨ e ≤ x → m' x = m x

theorem SameOutside.refl (a e : ℕ) (m : ByteMem) : SameOutside a e m m := fun _ _ => rfl

theorem SameOutside.trans {a e : ℕ} {m₁ m₂ m₃ : ByteMem} (h : SameOutside a e m₁ m₂)
    (h' : SameOutside a e m₂ m₃) : SameOutside a e m₁ m₃ :=
  fun x hx => (h' x hx).trans (h x hx)

theorem SameOutside.mono {a e a' e' : ℕ} {m m' : ByteMem} (h : SameOutside a e m m')
    (ha : a' ≤ a) (he : e ≤ e') : SameOutside a' e' m m' :=
  fun x hx => h x (by omega)

theorem SameOutside.agreeOn {a e b c : ℕ} {m m' : ByteMem} (h : SameOutside a e m m')
    (hd : c ≤ a ∨ e ≤ b) : AgreeOn b c m m' :=
  fun x hx hx' => h x (by omega)

/-- The little-endian value of the `n` bytes at `a`. -/
def readLE (m : ByteMem) (a : ℕ) : ℕ → ℕ
  | 0 => 0
  | n + 1 => (m a).toNat + 256 * readLE m (a + 1) n

/-- Store the low `n` bytes of `v` at `a`, little-endian. -/
def writeLE (m : ByteMem) (a n v : ℕ) : ByteMem := fun x =>
  if a ≤ x ∧ x < a + n then UInt8.ofNat (v / 256 ^ (x - a)) else m x

variable {m : ByteMem} {a n v b e : ℕ}

theorem writeLE_of_lt {a n v x : ℕ} (h : x < a ∨ a + n ≤ x) : writeLE m a n v x = m x := by
  unfold writeLE
  rw [if_neg]
  omega

theorem agreeOn_writeLE (h : e ≤ a ∨ a + n ≤ b) : AgreeOn b e m (writeLE m a n v) :=
  fun _ _ _ => writeLE_of_lt (by omega)

theorem sameOutside_writeLE (hb : b ≤ a) (he : a + n ≤ e) : SameOutside b e m (writeLE m a n v) :=
  fun _ _ => writeLE_of_lt (by omega)

theorem SameOutside.writeLE {m m' : ByteMem} (h : SameOutside b e m m')
    (hb : b ≤ a) (he : a + n ≤ e) : SameOutside b e m (writeLE m' a n v) :=
  h.trans (sameOutside_writeLE hb he)

theorem readLE_congr {m m' : ByteMem} {a n : ℕ} (h : AgreeOn a (a + n) m m') :
    readLE m' a n = readLE m a n := by
  induction n generalizing a with
  | zero => rfl
  | succ n ih =>
    have htail : AgreeOn (a + 1) (a + 1 + n) m m' := h.mono (by omega) (by omega)
    rw [readLE, readLE, h a le_rfl (by omega), ih htail]

theorem readLE_shift {m m' : ByteMem} {a b n : ℕ} (h : ∀ i < n, m' (b + i) = m (a + i)) :
    readLE m' b n = readLE m a n := by
  induction n generalizing a b with
  | zero => rfl
  | succ n ih =>
    have hhead : m' b = m a := h 0 (Nat.succ_pos n)
    have htail : readLE m' (b + 1) n = readLE m (a + 1) n := by
      apply ih
      intro i hi
      rw [Nat.add_assoc, Nat.add_assoc]
      exact h (1 + i) (by omega)
    rw [readLE, readLE, hhead, htail]

theorem readLE_eq_mod {a n v : ℕ} (h : ∀ i < n, (m (a + i)).toNat = v / 256 ^ i % 256) :
    readLE m a n = v % 256 ^ n := by
  induction n generalizing a v with
  | zero => simp [readLE, Nat.mod_one]
  | succ n ih =>
    have hhead : (m a).toNat = v % 256 := by simpa using h 0 (by omega)
    have htail : readLE m (a + 1) n = v / 256 % 256 ^ n := by
      apply ih
      intro i hi
      have hi' := h (i + 1) (by omega)
      rw [show a + 1 + i = a + (i + 1) by omega, hi', Nat.div_div_eq_div_mul,
        pow_succ', mul_comm]
    rw [readLE, hhead, htail, pow_succ', Nat.mod_mul]

theorem readLE_writeLE_same (m : ByteMem) (a n v : ℕ) :
    readLE (writeLE m a n v) a n = v % 256 ^ n := by
  apply readLE_eq_mod
  intro i hi
  have hin : a ≤ a + i ∧ a + i < a + n := by omega
  simp only [writeLE, if_pos hin, Nat.add_sub_cancel_left, UInt8.toNat_ofNat']

theorem readLE_writeLE_of_disjoint {a n v b k : ℕ}
    (h : b + k ≤ a ∨ a + n ≤ b) : readLE (writeLE m a n v) b k = readLE m b k :=
  readLE_congr (agreeOn_writeLE (by omega))

theorem readLE_lt (m : ByteMem) (a n : ℕ) : readLE m a n < 256 ^ n := by
  induction n generalizing a with
  | zero => simp [readLE]
  | succ n ih =>
    have hbyte := (m a).toNat_lt
    have htail := ih (a + 1)
    rw [readLE, pow_succ']
    omega

/-- `n` zero bytes from `a` on. -/
def zeroRange (m : ByteMem) (a n : ℕ) : ByteMem := fun x =>
  if a ≤ x ∧ x < a + n then 0 else m x

theorem agreeOn_zeroRange {a n b e : ℕ} (h : e ≤ a ∨ a + n ≤ b) :
    AgreeOn b e m (zeroRange m a n) := by
  intro x hx hx'
  unfold zeroRange
  rw [if_neg]
  omega

theorem readLE_zeroRange {a n b k : ℕ} (hb : a ≤ b) (he : b + k ≤ a + n) :
    readLE (zeroRange m a n) b k = 0 := by
  have hbyte : ∀ i < k, (zeroRange m a n (b + i)).toNat = 0 / 256 ^ i % 256 := by
    intro i hi
    have hin : a ≤ b + i ∧ b + i < a + n := by omega
    simp [zeroRange, hin]
  rw [readLE_eq_mod hbyte, Nat.zero_mod]

theorem sameOutside_zeroRange {a n b e : ℕ} (hb : b ≤ a) (he : a + n ≤ e) :
    SameOutside b e m (zeroRange m a n) := by
  intro x hx
  unfold zeroRange
  rw [if_neg]
  omega

/-- Copy `n` bytes from `src` to `dst`, lowest address first. -/
def copyUp (m : ByteMem) (dst src : ℕ) : ℕ → ByteMem
  | 0 => m
  | n + 1 => fun x =>
    if x = dst + n then copyUp m dst src n (src + n) else copyUp m dst src n x

theorem agreeOn_copyUp {dst src n b e : ℕ} (h : e ≤ dst ∨ dst + n ≤ b) :
    AgreeOn b e m (copyUp m dst src n) := by
  induction n with
  | zero => exact AgreeOn.refl b e m
  | succ n ih =>
    have ih' : AgreeOn b e m (copyUp m dst src n) := ih (by omega)
    intro x hx hx'
    simp only [copyUp]
    rw [if_neg (by omega)]
    exact ih' x hx hx'

theorem sameOutside_copyUp {dst src n b e : ℕ} (hb : b ≤ dst)
    (he : dst + n ≤ e) : SameOutside b e m (copyUp m dst src n) := by
  intro x hx
  exact agreeOn_copyUp (b := x) (e := x + 1) (by omega) x le_rfl (by omega)

theorem copyUp_apply {dst src n i : ℕ} (hi : i < n)
    (hd : src + n ≤ dst ∨ dst + n ≤ src) : copyUp m dst src n (dst + i) = m (src + i) := by
  induction n with
  | zero => omega
  | succ n ih =>
    simp only [copyUp]
    by_cases hlast : i = n
    · rw [if_pos (by omega), hlast]
      exact agreeOn_copyUp (b := src + n) (e := src + n + 1) (by omega) _ le_rfl (by omega)
    · rw [if_neg (by omega)]
      exact ih (by omega) (by omega)

def bytes (m : ByteMem) (a n : ℕ) : List UInt8 := (List.range n).map fun i => m (a + i)

@[simp] theorem length_bytes (m : ByteMem) (a n : ℕ) : (bytes m a n).length = n := by
  simp [bytes]

theorem bytes_congr {m m' : ByteMem} {a n : ℕ} (h : AgreeOn a (a + n) m m') :
    bytes m' a n = bytes m a n := by
  apply map_congr_left
  intro i hi
  have hi' : i < n := mem_range.mp hi
  exact h (a + i) (by omega) (by omega)

theorem bytes_copyUp {dst src n : ℕ} (hd : src + n ≤ dst ∨ dst + n ≤ src) :
    bytes (copyUp m dst src n) dst n = bytes m src n := by
  apply map_congr_left
  intro i hi
  exact copyUp_apply (mem_range.mp hi) hd

theorem getElem?_bytes {a n i : ℕ} (hi : i < n) : (bytes m a n)[i]? = some (m (a + i)) := by
  simp [bytes, hi]

def storeBytes (m : ByteMem) (a : ℕ) (l : List UInt8) : ByteMem := fun x =>
  if a ≤ x ∧ x < a + l.length then l.getD (x - a) 0 else m x

theorem sameOutside_storeBytes {a b e : ℕ} {l : List UInt8} (hb : b ≤ a)
    (he : a + l.length ≤ e) : SameOutside b e m (storeBytes m a l) := by
  intro x hx
  unfold storeBytes
  rw [if_neg]
  omega

theorem bytes_storeBytes_same (m : ByteMem) (a n : ℕ) {l : List UInt8} (hl : l.length ≤ n) :
    bytes (storeBytes m a l) a n = l ++ (bytes m a n).drop l.length := by
  apply ext_getElem?
  intro i
  by_cases hi : i < n
  · rw [getElem?_bytes hi]
    unfold storeBytes
    by_cases hil : i < l.length
    · rw [if_pos (by omega), getElem?_append_left hil, Nat.add_sub_cancel_left,
        getD_eq_getElem?_getD, getElem?_eq_getElem hil, Option.getD_some]
    · rw [if_neg (by omega), getElem?_append_right (by omega), getElem?_drop,
        Nat.add_sub_cancel' (by omega), getElem?_bytes hi]
  · rw [getElem?_eq_none (by simpa using hi), getElem?_eq_none]
    simp only [length_append, length_drop, length_bytes]
    omega

end ByteMem

namespace LeBytes

/-- The low `n` bytes of a number, the lowest first. -/
def le : ℕ → ℕ → List UInt8
  | 0, _ => []
  | n + 1, v => UInt8.ofNat v :: le n (v / 256)

def ofLe : List UInt8 → ℕ
  | [] => 0
  | b :: bs => b.toNat + 256 * ofLe bs

@[simp] theorem length_le (n v : ℕ) : (le n v).length = n := by
  induction n generalizing v with
  | zero => rfl
  | succ n ih => rw [le, List.length_cons, ih]

theorem ofLe_le {n v : ℕ} (h : v < 256 ^ n) : ofLe (le n v) = v := by
  induction n generalizing v with
  | zero =>
    rw [Nat.pow_zero] at h
    rw [le, ofLe]
    omega
  | succ n ih =>
    have hrest : v / 256 < 256 ^ n := by
      rw [Nat.pow_succ] at h
      exact Nat.div_lt_of_lt_mul (by rwa [Nat.mul_comm])
    have hbyte : (UInt8.ofNat v).toNat = v % 256 := UInt8.toNat_ofNat' ..
    rw [le, ofLe, ih hrest, hbyte]
    omega

end LeBytes

namespace ByteFile

def resize (a : List UInt8) (n : ℕ) : List UInt8 := a.take n ++ List.replicate (n - a.length) 0

def splice (a : List UInt8) (offset : ℕ) (data : List UInt8) : List UInt8 :=
  resize a offset ++ data ++ a.drop (offset + data.length)

theorem splice_zero (a data : List UInt8) : splice a 0 data = data ++ a.drop data.length := by
  simp [splice, resize]

end ByteFile
