import Mathlib.Algebra.Order.Group.Nat
import Mathlib.Data.Nat.Bitwise

/-!
UTF-8 and UTF-16, from `src/kernel/nt/nls_cp.c`.

Both conversions are one loop with the decoder of the source form and the
encoder of the other. `scan` is the loop without the output buffer: the scalars
it meets, and how it ends.
-/

namespace ImpossibleOs.Nt.Nls

open List Option Bool Nat

/-- A Unicode scalar value. -/
def IsScalar (s : ℕ) : Prop := s < 0x110000 ∧ ¬ (0xD800 ≤ s ∧ s ≤ 0xDFFF)

def utf8 (s : ℕ) : List UInt8 :=
  (if s < 0x80 then [s]
  else if s < 0x800 then [192 + s / 64, 128 + s % 64]
  else if s < 0x10000 then [224 + s / 4096, 128 + s / 64 % 64, 128 + s % 64]
  else [240 + s / 262144, 128 + s / 4096 % 64, 128 + s / 64 % 64, 128 + s % 64]).map UInt8.ofNat

def utf16 (s : ℕ) : List UInt16 :=
  (if s < 0x10000 then [s]
  else [0xD800 + (s - 0x10000) / 1024, 0xDC00 + (s - 0x10000) % 1024]).map UInt16.ofNat

/-- The string encodes scalars. -/
def WellFormed {α : Type} (encode : ℕ → List α) (l : List α) : Prop :=
  ∃ ss : List ℕ, (∀ s ∈ ss, IsScalar s) ∧ l = ss.flatMap encode

/-! ### The source -/

/-- The units that `u16_put_scalar` puts. -/
def u16PutScalar (s : ℕ) : List UInt16 :=
  if s < 0x10000 then [UInt16.ofNat s]
  else [UInt16.ofNat (0xD800 + (s - 0x10000) >>> 10),
    UInt16.ofNat (0xDC00 + ((s - 0x10000) &&& 0x3FF))]

/-- The bytes that `u8_put_scalar` puts. -/
def u8PutScalar (s : ℕ) : List UInt8 :=
  if s < 0x80 then [UInt8.ofNat s]
  else if s < 0x800 then [UInt8.ofNat (0xC0 ||| s >>> 6), UInt8.ofNat (0x80 ||| s &&& 0x3F)]
  else if s < 0x10000 then
    [UInt8.ofNat (0xE0 ||| s >>> 12), UInt8.ofNat (0x80 ||| s >>> 6 &&& 0x3F),
      UInt8.ofNat (0x80 ||| s &&& 0x3F)]
  else
    [UInt8.ofNat (0xF0 ||| s >>> 18), UInt8.ofNat (0x80 ||| s >>> 12 &&& 0x3F),
      UInt8.ofNat (0x80 ||| s >>> 6 &&& 0x3F), UInt8.ofNat (0x80 ||| s &&& 0x3F)]

def isCont (b : UInt8) : Bool := b.toNat &&& 0xC0 = 0x80

/-- The scalar at the start of the bytes that are left, and its length. -/
def utf8DecodeScalar : List UInt8 → Option (ℕ × ℕ)
  | [] => none
  | b0 :: rest =>
    if b0.toNat < 0x80 then some (b0.toNat, 1)
    else if b0.toNat < 0xC2 then none
    else if b0.toNat < 0xE0 then
      match rest with
      | b1 :: _ =>
        let s := (b0.toNat &&& 0x1F) <<< 6 ||| (b1.toNat &&& 0x3F)
        if !isCont b1 then none else if s < 0x80 then none else some (s, 2)
      | _ => none
    else if b0.toNat < 0xF0 then
      match rest with
      | b1 :: b2 :: _ =>
        let s := (b0.toNat &&& 0x0F) <<< 12 ||| (b1.toNat &&& 0x3F) <<< 6 ||| (b2.toNat &&& 0x3F)
        if !isCont b1 || !isCont b2 then none
        else if s < 0x800 then none
        else if 0xD800 ≤ s ∧ s ≤ 0xDFFF then none
        else some (s, 3)
      | _ => none
    else if b0.toNat < 0xF5 then
      match rest with
      | b1 :: b2 :: b3 :: _ =>
        let s := (b0.toNat &&& 0x07) <<< 18 ||| (b1.toNat &&& 0x3F) <<< 12 |||
          (b2.toNat &&& 0x3F) <<< 6 ||| (b3.toNat &&& 0x3F)
        if !isCont b1 || !isCont b2 || !isCont b3 then none
        else if s < 0x10000 ∨ 0x10FFFF < s then none
        else some (s, 4)
      | _ => none
    else none

def u16NextScalar : List UInt16 → Option (ℕ × ℕ)
  | [] => none
  | c :: rest =>
    if c.toNat < 0xD800 ∨ 0xDFFF < c.toNat then some (c.toNat, 1)
    else match rest with
      | d :: _ =>
        if c.toNat ≤ 0xDBFF ∧ 0xDC00 ≤ d.toNat ∧ d.toNat ≤ 0xDFFF then
          some (0x10000 + (c.toNat - 0xD800) <<< 10 + (d.toNat - 0xDC00), 2)
        else none
      | [] => none

inductive Mode
  | strict | replace | bestfit
  deriving DecidableEq, Repr

inductive Status
  | ok | invalid | tooSmall
  deriving DecidableEq, Repr

def replScalar : ℕ := 0xFFFD
def intMax : ℕ := 0x7FFFFFFF

variable {α β : Type}

/-- Append the units, `false` when the buffer is full; without a buffer they are counted. -/
def put (cap : Option ℕ) : List β → List β → Bool × List β
  | [], out => (true, out)
  | v :: vs, out => if cap.any (· ≤ out.length) then (false, out) else put cap vs (out ++ [v])

def convLoop (decode : List α → Option (ℕ × ℕ)) (encode : ℕ → List β) (mode : Mode)
    (cap : Option ℕ) : List α → List β → Status × List β
  | [], out => (.ok, out)
  | a :: src, out =>
    match decode (a :: src) with
    | none =>
      if mode = .strict then (.invalid, out)
      else match put cap (encode replScalar) out with
        | (true, out) => convLoop decode encode mode cap src out
        | (false, out) => (.tooSmall, out)
    | some (s, used) =>
      match put cap (encode s) out with
      | (true, out) => convLoop decode encode mode cap (src.drop (used - 1)) out
      | (false, out) => (.tooSmall, out)
termination_by src => src.length

/-- The count must fit an `int`. -/
def finish (r : Status × List β) : Status × List β :=
  if r.1 = .ok ∧ intMax < r.2.length then (.tooSmall, r.2) else r

def nlsCpUtf8ToUtf16 (src : List UInt8) (cap : Option ℕ) (mode : Mode) : Status × List UInt16 :=
  finish (convLoop utf8DecodeScalar u16PutScalar mode cap src [])

def nlsCpUtf16ToUtf8 (src : List UInt16) (cap : Option ℕ) (mode : Mode) : Status × List UInt8 :=
  finish (convLoop u16NextScalar u8PutScalar mode cap src [])

/-! ### One scalar -/

theorem or_add {t c x : ℕ} (hc : c < 2 ^ t) (hx : 2 ^ t ∣ x) : x ||| c = x + c := by
  obtain ⟨a, rfl⟩ := hx
  exact (two_pow_add_eq_or_of_lt hc a).symm

theorem u8PutScalar_eq {s : ℕ} (h : s < 0x110000) : u8PutScalar s = utf8 s := by
  have low (x : ℕ) : 0x80 ||| x &&& 0x3F = 128 + x % 64 := by
    rw [show 0x3F = 2 ^ 6 - 1 from rfl, and_two_pow_sub_one_eq_mod]
    exact or_add (t := 6) (by omega) ⟨2, rfl⟩
  unfold u8PutScalar utf8
  simp only [low, shiftRight_eq_div_pow]
  split_ifs
  · rfl
  · rw [or_add (t := 6) (c := s / 2 ^ 6) (x := 0xC0) (by omega) ⟨3, rfl⟩]
    rfl
  · rw [or_add (t := 5) (c := s / 2 ^ 12) (x := 0xE0) (by omega) ⟨7, rfl⟩]
    rfl
  · rw [or_add (t := 4) (c := s / 2 ^ 18) (x := 0xF0) (by omega) ⟨15, rfl⟩]
    rfl

theorem u16PutScalar_eq (s : ℕ) : u16PutScalar s = utf16 s := by
  unfold u16PutScalar utf16
  rw [show 0x3FF = 2 ^ 10 - 1 from rfl, and_two_pow_sub_one_eq_mod,
    shiftRight_eq_div_pow]
  split_ifs <;> rfl

theorem isCont_iff (b : UInt8) : isCont b = true ↔ 128 ≤ b.toNat ∧ b.toNat < 192 := by
  have key : ∀ x < 256, x &&& 0xC0 = 0x80 ↔ 128 ≤ x ∧ x < 192 := by decide +kernel
  simpa [isCont] using key b.toNat b.toNat_lt

theorem and_3F (x : ℕ) : x &&& 0x3F = x % 64 := and_two_pow_sub_one_eq_mod x 6

theorem val2 (x y : ℕ) : (x &&& 0x1F) <<< 6 ||| (y &&& 0x3F) = x % 32 * 64 + y % 64 := by
  rw [show x &&& 0x1F = x % 32 from and_two_pow_sub_one_eq_mod x 5, and_3F, shiftLeft_eq]
  exact or_add (t := 6) (by omega) (Nat.dvd_mul_left _ _)

theorem val3 (x y z : ℕ) : (x &&& 0x0F) <<< 12 ||| (y &&& 0x3F) <<< 6 ||| (z &&& 0x3F)
    = x % 16 * 4096 + y % 64 * 64 + z % 64 := by
  rw [show x &&& 0x0F = x % 16 from and_two_pow_sub_one_eq_mod x 4, and_3F, and_3F,
    shiftLeft_eq, shiftLeft_eq,
    or_add (t := 12) (c := y % 64 * 2 ^ 6) (by omega) (Nat.dvd_mul_left _ _)]
  exact or_add (t := 6) (by omega) (by omega)

theorem val4 (x y z w : ℕ) :
    (x &&& 0x07) <<< 18 ||| (y &&& 0x3F) <<< 12 ||| (z &&& 0x3F) <<< 6 ||| (w &&& 0x3F)
    = x % 8 * 262144 + y % 64 * 4096 + z % 64 * 64 + w % 64 := by
  rw [show x &&& 0x07 = x % 8 from and_two_pow_sub_one_eq_mod x 3, and_3F, and_3F, and_3F,
    shiftLeft_eq, shiftLeft_eq, shiftLeft_eq,
    or_add (t := 18) (c := y % 64 * 2 ^ 12) (by omega) (Nat.dvd_mul_left _ _),
    or_add (t := 12) (c := z % 64 * 2 ^ 6) (by omega) (by omega)]
  exact or_add (t := 6) (by omega) (by omega)

/-- The decoder reads what the encoder puts, and nothing else. -/
structure Codec {α : Type} (decode : List α → Option (ℕ × ℕ)) (encode : ℕ → List α) : Prop where
  ne_nil : ∀ s, encode s ≠ []
  reads : ∀ s rest, IsScalar s → decode (encode s ++ rest) = some (s, (encode s).length)
  only : ∀ l s k, decode l = some (s, k) →
    IsScalar s ∧ k = (encode s).length ∧ l = encode s ++ l.drop k

theorem utf8_codec : Codec utf8DecodeScalar utf8 where
  ne_nil s := by
    unfold utf8
    split_ifs <;> simp
  reads s rest hs := by
    obtain ⟨h1, h2⟩ := hs
    unfold utf8
    split_ifs
    all_goals
      simp only [map_cons, map_nil, cons_append, nil_append,
        utf8DecodeScalar, val2, val3, val4, not_eq_true', or_eq_true,
        ← not_eq_true, isCont_iff, UInt8.toNat_ofNat']
    · rw [if_pos (by omega), mod_eq_of_lt (by omega)]
      rfl
    · rw [if_neg (by omega), if_neg (by omega), if_pos (by omega), if_neg (by omega),
        if_neg (by omega)]
      rw [some.injEq, Prod.mk.injEq]
      exact ⟨by omega, rfl⟩
    · rw [if_neg (by omega), if_neg (by omega), if_neg (by omega), if_pos (by omega),
        if_neg (by omega), if_neg (by omega), if_neg (by omega)]
      rw [some.injEq, Prod.mk.injEq]
      exact ⟨by omega, rfl⟩
    · rw [if_neg (by omega), if_neg (by omega), if_neg (by omega), if_neg (by omega),
        if_pos (by omega), if_neg (by omega), if_neg (by omega)]
      rw [some.injEq, Prod.mk.injEq]
      exact ⟨by omega, rfl⟩
  only l s k h := by
    have next {b : UInt8} {n : ℕ} {l l' : List UInt8} (hb : b.toNat = n) (hl : l = l') :
        b :: l = UInt8.ofNat n :: l' := by rw [← hb, UInt8.ofNat_toNat, hl]
    cases l with
    | nil => cases h
    | cons b0 rest =>
      have hb0 := b0.toNat_lt
      simp only [utf8DecodeScalar, val2, val3, val4, not_eq_true', or_eq_true,
        ← not_eq_true, isCont_iff] at h
      unfold utf8 IsScalar
      split_ifs at h with c1 c2 c3 c4 c5
      · cases h
        rw [if_pos c1]
        exact ⟨by omega, rfl, next rfl rfl⟩
      · split at h
        · split_ifs at h
          cases h
          rw [if_neg (by omega), if_pos (by omega)]
          exact ⟨by omega, rfl, next (by omega) (next (by omega) rfl)⟩
        · cases h
      · split at h
        · split_ifs at h
          cases h
          rw [if_neg (by omega), if_neg (by omega), if_pos (by omega)]
          exact ⟨by omega, rfl, next (by omega) (next (by omega) (next (by omega) rfl))⟩
        · cases h
      · split at h
        · split_ifs at h
          cases h
          rw [if_neg (by omega), if_neg (by omega), if_neg (by omega)]
          exact ⟨by omega, rfl,
            next (by omega) (next (by omega) (next (by omega) (next (by omega) rfl)))⟩
        · cases h

theorem utf16_codec : Codec u16NextScalar utf16 where
  ne_nil s := by
    unfold utf16
    split_ifs <;> simp
  reads s rest hs := by
    obtain ⟨h1, h2⟩ := hs
    unfold utf16
    split_ifs
    all_goals
      simp only [map_cons, map_nil, cons_append, nil_append,
        u16NextScalar, UInt16.toNat_ofNat', shiftLeft_eq]
    · rw [if_pos (by omega), mod_eq_of_lt (by omega)]
      rfl
    · rw [if_neg (by omega), if_pos (by omega), some.injEq, Prod.mk.injEq]
      exact ⟨by omega, rfl⟩
  only l s k h := by
    have next {c : UInt16} {n : ℕ} {l l' : List UInt16} (hc : c.toNat = n) (hl : l = l') :
        c :: l = UInt16.ofNat n :: l' := by rw [← hc, UInt16.ofNat_toNat, hl]
    cases l with
    | nil => cases h
    | cons c rest =>
      have hc := c.toNat_lt
      simp only [u16NextScalar, shiftLeft_eq] at h
      unfold utf16 IsScalar
      split_ifs at h with c1
      · cases h
        rw [if_pos (by omega)]
        exact ⟨by omega, rfl, next rfl rfl⟩
      · split at h
        · split_ifs at h
          rw [some.injEq, Prod.mk.injEq] at h
          obtain ⟨rfl, rfl⟩ := h
          rw [if_neg (by omega)]
          exact ⟨by omega, rfl, next (by omega) (next (by omega) rfl)⟩
        · cases h

/-! ### The loop -/

theorem put_none (us out : List β) : put none us out = (true, out ++ us) := by
  induction us generalizing out with
  | nil => simp [put]
  | cons u us ih => simp [put, ih]

theorem put_some (c : ℕ) (us out : List β) (h : out.length ≤ c) :
    put (some c) us out =
      if (out ++ us).length ≤ c then (true, out ++ us) else (false, (out ++ us).take c) := by
  induction us generalizing out with
  | nil => simp [put, h]
  | cons u us ih =>
    unfold put
    by_cases hc : c ≤ out.length
    · have : c = out.length := by omega
      subst this
      simp
    · rw [if_neg (by simpa using hc), ih _ (by simp; omega)]
      simp

/-- The scalars that the loop encodes, and whether it gets to the end. -/
def scan (decode : List α → Option (ℕ × ℕ)) (mode : Mode) : List α → Bool × List ℕ
  | [] => (true, [])
  | a :: src =>
    match decode (a :: src) with
    | none =>
      if mode = .strict then (false, [])
      else ((scan decode mode src).1, replScalar :: (scan decode mode src).2)
    | some (s, used) =>
      ((scan decode mode (src.drop (used - 1))).1, s :: (scan decode mode (src.drop (used - 1))).2)
termination_by src => src.length

section
variable (decode : List α → Option (ℕ × ℕ)) (encode : ℕ → List β) (mode : Mode)

theorem convLoop_none (src : List α) (out : List β) :
    convLoop decode encode mode none src out = (if (scan decode mode src).1 then .ok else .invalid,
      out ++ (scan decode mode src).2.flatMap encode) := by
  fun_induction scan decode mode src generalizing out with
  | case1 => simp [convLoop]
  | case2 a src hd => simp [convLoop, *]
  | case3 a src hd hm ih => simp [convLoop, hd, hm, put_none, ih]
  | case4 a src s used hd ih => simp [convLoop, hd, put_none, ih]

theorem convLoop_some (c : ℕ) (src : List α) (out : List β) (h : out.length ≤ c) :
    convLoop decode encode mode (some c) src out =
      if (out ++ (scan decode mode src).2.flatMap encode).length ≤ c then
        convLoop decode encode mode none src out
      else (.tooSmall, (out ++ (scan decode mode src).2.flatMap encode).take c) := by
  have take {out us vs : List β} (hl : c < (out ++ us).length) :
      (out ++ us).take c = (out ++ (us ++ vs)).take c := by
    rw [← append_assoc, take_append_of_le_length hl.le]
  have long {out us vs : List β} (hl : ¬ (out ++ us).length ≤ c) :
      ¬ (out ++ (us ++ vs)).length ≤ c := by
    simp only [length_append] at hl ⊢
    omega
  fun_induction scan decode mode src generalizing out with
  | case1 => simp [convLoop, h]
  | case2 a src hd => simp [convLoop, *]
  | case3 a src hd hm ih =>
    simp only [convLoop, hd, hm, if_false, put_none, put_some c _ out h, flatMap_cons]
    by_cases hl : (out ++ encode replScalar).length ≤ c
    · rw [if_pos hl, ← append_assoc]
      exact ih _ hl
    · rw [if_neg hl, if_neg (long hl), take (Nat.lt_of_not_le hl)]
  | case4 a src s used hd ih =>
    simp only [convLoop, hd, put_none, put_some c _ out h, flatMap_cons]
    by_cases hl : (out ++ encode s).length ≤ c
    · rw [if_pos hl, ← append_assoc]
      exact ih _ hl
    · rw [if_neg hl, if_neg (long hl), take (Nat.lt_of_not_le hl)]

/-- A buffer that is large enough changes nothing. -/
theorem finish_some (c : ℕ) (src : List α) :
    finish (convLoop decode encode mode (some c) src []) =
      if ((scan decode mode src).2.flatMap encode).length ≤ c then
        finish (convLoop decode encode mode none src [])
      else (.tooSmall, ((scan decode mode src).2.flatMap encode).take c) := by
  rw [convLoop_some decode encode mode c src [] (Nat.zero_le _), nil_append, apply_ite finish]
  rfl

variable {mode} in
theorem scan_lenient (h : mode ≠ .strict) (src : List α) : (scan decode mode src).1 = true := by
  fun_induction scan decode mode src <;> simp_all

end

theorem finish_snd (r : Status × List β) : (finish r).2 = r.2 := by
  unfold finish
  split_ifs <;> rfl

theorem finish_ok {r : Status × List β} {out : List β} :
    finish r = (.ok, out) ↔ r = (.ok, out) ∧ out.length ≤ intMax := by
  obtain ⟨st, l⟩ := r
  unfold finish
  split_ifs <;> grind

section
variable {decode : List α → Option (ℕ × ℕ)} {enc : ℕ → List α} (hc : Codec decode enc)
include hc

theorem scan_scalars (mode : Mode) (src : List α) : ∀ s ∈ (scan decode mode src).2, IsScalar s := by
  fun_induction scan decode mode src with
  | case1 => simp
  | case2 => simp
  | case3 a src hd hm ih => exact forall_mem_cons.2 ⟨⟨by decide, by decide⟩, ih⟩
  | case4 a src s used hd ih => exact forall_mem_cons.2 ⟨(hc.only _ _ _ hd).1, ih⟩

/-- A string that encodes scalars is read to its end. -/
theorem scan_flatMap (mode : Mode) (ss : List ℕ) (h : ∀ s ∈ ss, IsScalar s) :
    scan decode mode (ss.flatMap enc) = (true, ss) := by
  induction ss with
  | nil => simp [scan]
  | cons s ss ih =>
    obtain ⟨hs, hss⟩ := forall_mem_cons.1 h
    have hd := hc.reads s (ss.flatMap enc) hs
    obtain ⟨a, l, ha⟩ := exists_cons_of_ne_nil (hc.ne_nil s)
    rw [flatMap_cons]
    rw [ha, cons_append] at hd ⊢
    unfold scan
    rw [hd]
    simp [ih hss]

/-- In strict mode nothing else is. -/
theorem eq_flatMap_of_scan (src : List α) (h : (scan decode .strict src).1 = true) :
    src = (scan decode .strict src).2.flatMap enc := by
  generalize hm : Mode.strict = mode at h ⊢
  fun_induction scan decode mode src with
  | case1 => rfl
  | case2 => cases h
  | case3 a src hd hs ih => exact absurd hm.symm hs
  | case4 a src s used hd ih =>
    obtain ⟨-, hk, hl⟩ := hc.only _ _ _ hd
    have : (a :: src).drop used = src.drop (used - 1) := by
      have := length_pos_iff.2 (hc.ne_nil s)
      rw [← hk] at this
      obtain ⟨k, rfl⟩ := Nat.exists_eq_add_of_lt this
      simp
    rw [flatMap_cons, ← ih h, ← this]
    exact hl

end

/-! ### The conversions -/

structure Converts (conv : List α → Option ℕ → Mode → Status × List β) (enc : ℕ → List α)
    (enc' : ℕ → List β) : Prop where
  strict : ∀ src, (conv src none .strict).1 = .ok ↔ ∃ ss : List ℕ, (∀ s ∈ ss, IsScalar s) ∧
    src = ss.flatMap enc ∧ (ss.flatMap enc').length ≤ intMax
  replace : ∀ src cap, (conv src cap .replace).1 ≠ .invalid ∧
    ((conv src cap .replace).1 = .ok → WellFormed enc' (conv src cap .replace).2)
  fits : ∀ src mode out cap, conv src none mode = (.ok, out) → out.length ≤ cap →
    conv src (some cap) mode = (.ok, out)
  small : ∀ src mode out cap, conv src none mode = (.ok, out) → cap < out.length →
    (conv src (some cap) mode).1 = .tooSmall
  bounded : ∀ src mode cap, (conv src (some cap) mode).2.length ≤ cap

section
variable {decode : List α → Option (ℕ × ℕ)} {enc : ℕ → List α} (hc : Codec decode enc)
  {encode enc' : ℕ → List β} (he : ∀ s, IsScalar s → encode s = enc' s)

include he in
theorem flatMap_encode {ss : List ℕ} (h : ∀ s ∈ ss, IsScalar s) :
    ss.flatMap encode = ss.flatMap enc' := by
  rw [flatMap_def, flatMap_def, map_congr_left fun s hs => he s (h s hs)]

include hc he
/-- In strict mode, what is accepted and what is put. -/
theorem strict_ok (src : List α) (out : List β) :
    finish (convLoop decode encode .strict none src []) = (.ok, out) ↔
      ∃ ss : List ℕ, (∀ s ∈ ss, IsScalar s) ∧ src = ss.flatMap enc ∧ out = ss.flatMap enc' ∧
        out.length ≤ intMax := by
  rw [finish_ok, convLoop_none, nil_append]
  constructor
  · rintro ⟨h, hl⟩
    have hs := scan_scalars hc .strict src
    split_ifs at h with hok
    · cases h
      exact ⟨_, hs, eq_flatMap_of_scan hc src hok, flatMap_encode he hs, hl⟩
    · cases h
  · rintro ⟨ss, hs, rfl, rfl, hl⟩
    rw [scan_flatMap hc _ _ hs, flatMap_encode he hs]
    exact ⟨rfl, hl⟩

theorem converts : Converts (fun src cap mode => finish (convLoop decode encode mode cap src []))
    enc enc' where
  strict src := by
    constructor
    · intro h
      obtain ⟨ss, hs, hsrc, hout, hl⟩ := (strict_ok hc he src _).1 (Prod.ext h rfl)
      exact ⟨ss, hs, hsrc, hout ▸ hl⟩
    · rintro ⟨ss, hs, hsrc, hl⟩
      rw [(strict_ok hc he src _).2 ⟨ss, hs, hsrc, rfl, hl⟩]
  replace src cap := by
    have whole := convLoop_none decode encode .replace src []
    rw [scan_lenient decode (by decide), if_pos rfl, nil_append] at whole
    have hs := scan_scalars hc .replace src
    have key : (finish (convLoop decode encode .replace none src [])).1 ≠ .invalid ∧
        WellFormed enc' (finish (convLoop decode encode .replace none src [])).2 := by
      rw [finish_snd, whole, finish]
      exact ⟨by split_ifs <;> exact nofun, _, hs, flatMap_encode he hs⟩
    cases cap with
    | none => exact ⟨key.1, fun _ => key.2⟩
    | some c =>
      simp only [finish_some]
      split_ifs
      · exact ⟨key.1, fun _ => key.2⟩
      · exact ⟨nofun, nofun⟩
  fits src mode out cap h hl := by
    have hn := (finish_ok.1 h).1
    rw [convLoop_none, nil_append] at hn
    rw [finish_some, if_pos (by rw [(Prod.mk.inj hn).2]; exact hl), h]
  small src mode out cap h hl := by
    have hn := (finish_ok.1 h).1
    rw [convLoop_none, nil_append] at hn
    rw [finish_some, if_neg (by rw [(Prod.mk.inj hn).2]; omega)]
  bounded src mode cap := by
    simp only [finish_some]
    split_ifs with hl
    · rw [finish_snd, convLoop_none]
      exact hl
    · exact length_take_le _ _

end

theorem utf8_converts : Converts nlsCpUtf8ToUtf16 utf8 utf16 :=
  converts utf8_codec fun s _ => u16PutScalar_eq s

theorem utf16_converts : Converts nlsCpUtf16ToUtf8 utf16 utf8 :=
  converts utf16_codec fun _ h => u8PutScalar_eq h.1

/-- A scalar has no more UTF-16 units than UTF-8 bytes. -/
theorem utf16_length_le (ss : List ℕ) : (ss.flatMap utf16).length ≤ (ss.flatMap utf8).length := by
  induction ss with
  | nil => exact le_rfl
  | cons s ss ih =>
    have : (utf16 s).length ≤ (utf8 s).length := by
      unfold utf16 utf8
      split_ifs <;> simp
      all_goals omega
    simp only [flatMap_cons, length_append]
    omega

/-- Both conversions accept the encodings of scalars in strict mode, undo each other, put
well-formed text in replacement mode, and size as they write. A count above `INT_MAX` is
refused: a text comes back when its UTF-8 form is no longer than that. -/
theorem nlsCp_codec : Converts nlsCpUtf8ToUtf16 utf8 utf16 ∧ Converts nlsCpUtf16ToUtf8 utf16 utf8 ∧
    (∀ src out, nlsCpUtf8ToUtf16 src none .strict = (.ok, out) → src.length ≤ intMax →
      nlsCpUtf16ToUtf8 out none .strict = (.ok, src)) ∧
    ∀ src out, nlsCpUtf16ToUtf8 src none .strict = (.ok, out) →
      nlsCpUtf8ToUtf16 out none .strict = (.ok, src) := by
  have to16 := strict_ok utf8_codec fun s _ => u16PutScalar_eq s
  have to8 := strict_ok utf16_codec fun _ h => u8PutScalar_eq h.1
  refine ⟨utf8_converts, utf16_converts, fun src out h hl => ?_, fun src out h => ?_⟩
  · obtain ⟨ss, hs, rfl, rfl, -⟩ := (to16 src out).1 h
    exact (to8 _ _).2 ⟨ss, hs, rfl, rfl, hl⟩
  · obtain ⟨ss, hs, rfl, rfl, hl⟩ := (to8 src out).1 h
    exact (to16 _ _).2 ⟨ss, hs, rfl, rfl, (utf16_length_le ss).trans hl⟩

/-- A well-formed string of `2^31` letters is refused in strict mode. -/
theorem nlsCp_refuses_long : WellFormed utf8 (List.replicate (2 ^ 31) 0x61) ∧
    (nlsCpUtf8ToUtf16 (List.replicate (2 ^ 31) 0x61) none .strict).1 ≠ .ok := by
  have flat {γ : Type} (f : ℕ → List γ) (c : γ) (hf : f 0x61 = [c]) (n : ℕ) :
      (List.replicate n 0x61).flatMap f = List.replicate n c := by
    rw [flatMap_replicate, hf, flatten_replicate_singleton]
  have hs : ∀ s ∈ List.replicate (2 ^ 31) 0x61, IsScalar s := fun s h => by
    rw [eq_of_mem_replicate h]
    exact ⟨by decide, by decide⟩
  rw [← flat utf8 0x61 rfl]
  refine ⟨⟨_, hs, rfl⟩, fun h => ?_⟩
  rw [nlsCpUtf8ToUtf16, convLoop_none, scan_flatMap utf8_codec _ _ hs, nil_append,
    flat u16PutScalar 0x61 rfl, finish, if_pos] at h
  · cases h
  · rw [length_replicate]
    exact ⟨rfl, by decide⟩

end ImpossibleOs.Nt.Nls
