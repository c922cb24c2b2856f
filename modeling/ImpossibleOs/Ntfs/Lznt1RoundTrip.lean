import ImpossibleOs.Ntfs.Lznt1
import Mathlib.Tactic.NormNum

/-!
What LZNT1 compresses it decompresses.

Both sides meet in the tokens of a block: the compressor writes the bytes of
tokens that put out its input, and the decompressor reads the bytes of any such
tokens back.
-/

namespace ImpossibleOs.Ntfs.Lznt1

open Lz77 Function List Nat

abbrev Tok := Token UInt8

theorem word_bytes {e : ℕ} (h : e < 2 ^ 16) :
    (UInt8.ofNat (e &&& 0xFF)).toNat ||| (UInt8.ofNat (e >>> 8)).toNat <<< 8 = e := by
  have hlo : e &&& 0xFF = e % 2 ^ 8 := and_two_pow_sub_one_eq_mod e 8
  rw [hlo, shiftRight_eq_div_pow, UInt8.toNat_ofNat', UInt8.toNat_ofNat',
    mod_mod, mod_eq_of_lt (a := e / 2 ^ 8) (by omega), shiftLeft_eq, Nat.or_comm,
    Nat.mul_comm, ← two_pow_add_eq_or_of_lt (mod_lt _ (Nat.two_pow_pos 8))]
  exact div_add_mod e (2 ^ 8)

theorem displacementFrom_le (position n threshold : ℕ) :
    displacementFrom position n threshold ≤ n := by
  induction n generalizing threshold with
  | zero => exact le_rfl
  | succ n ih =>
    rw [displacementFrom]
    split
    · exact succ_le_succ (ih _)
    · exact Nat.zero_le _

theorem displacementBits_le (position : ℕ) : displacementBits position ≤ 12 := by
  have := displacementFrom_le position 8 0x10
  rw [displacementBits]
  omega

/-! ### Tokens and their bytes -/

/-- The token can be written when `n` bytes of the block are out. -/
def Fits (n : ℕ) : Tok → Prop
  | .lit _ => True
  | .ref disp len => 1 ≤ disp ∧ disp ≤ n ∧ disp ≤ 2 ^ displacementBits n ∧ 3 ≤ len ∧
      len < 2 ^ (16 - displacementBits n) + 3

def refWord (n disp len : ℕ) : ℕ :=
  ((disp - 1) <<< (16 - displacementBits n) ||| (len - 3)) % 2 ^ 16

def tokenBytes (n : ℕ) : Tok → List UInt8
  | .lit b => [b]
  | .ref disp len =>
    [UInt8.ofNat (refWord n disp len &&& 0xFF), UInt8.ofNat (refWord n disp len >>> 8)]

theorem refWord_split {n disp len : ℕ} (h : Fits n (.ref disp len)) : refWord n disp len < 2 ^ 16 ∧
      refWord n disp len >>> (16 - displacementBits n) + 1 = disp ∧
      (refWord n disp len &&& (1 <<< (16 - displacementBits n) - 1)) + 3 = len := by
  obtain ⟨hd1, -, hd, hl3, hl⟩ := h
  have hbits := displacementBits_le n
  set lenBits := 16 - displacementBits n with hlb
  have hor : (disp - 1) <<< lenBits ||| (len - 3) = 2 ^ lenBits * (disp - 1) + (len - 3) := by
    rw [shiftLeft_eq, Nat.mul_comm, two_pow_add_eq_or_of_lt (by omega)]
  have hpow : 2 ^ lenBits * 2 ^ displacementBits n = 2 ^ 16 := by
    rw [← pow_add]
    congr 1
    omega
  have hlt : 2 ^ lenBits * (disp - 1) + (len - 3) < 2 ^ 16 := by
    calc 2 ^ lenBits * (disp - 1) + (len - 3) < 2 ^ lenBits * (disp - 1) + 2 ^ lenBits := by omega
      _ = 2 ^ lenBits * disp := by
          rw [← mul_succ]
          congr 1
          omega
      _ ≤ 2 ^ lenBits * 2 ^ displacementBits n := Nat.mul_le_mul_left _ hd
      _ = 2 ^ 16 := hpow
  have hword : refWord n disp len = 2 ^ lenBits * (disp - 1) + (len - 3) := by
    rw [refWord, ← hlb, hor, mod_eq_of_lt hlt]
  have hlen : len - 3 < 2 ^ lenBits := by omega
  refine ⟨hword ▸ hlt, ?_, ?_⟩
  · rw [hword, shiftRight_eq_div_pow, mul_add_div (Nat.two_pow_pos _),
      div_eq_of_lt hlen]
    omega
  · rw [one_shiftLeft, and_two_pow_sub_one_eq_mod, hword, mul_add_mod,
      mod_eq_of_lt hlen]
    omega

def tokensBytes (dst : List UInt8) : List Tok → List UInt8
  | [] => []
  | t :: ts => tokenBytes dst.length t ++ tokensBytes (t.apply dst) ts

def AllFit (dst : List UInt8) : List Tok → Prop
  | [] => True
  | t :: ts => Fits dst.length t ∧ AllFit (t.apply dst) ts

theorem tokensBytes_concat (dst : List UInt8) (ts : List Tok) (t : Tok) :
    tokensBytes dst (ts ++ [t]) = tokensBytes dst ts ++ tokenBytes (expand dst ts).length t := by
  induction ts generalizing dst with
  | nil => simp [tokensBytes, expand]
  | cons u ts ih => simp [tokensBytes, expand, ih]

variable {ts : List Tok} {src : List UInt8} {s s' : CompState} {dst : List UInt8}
  {t : Tok} {fuel : ℕ}

theorem allFit_concat (h : AllFit dst ts)
    (ht : Fits (expand dst ts).length t) : AllFit dst (ts ++ [t]) := by
  induction ts generalizing dst with
  | nil => exact ⟨ht, trivial⟩
  | cons u ts ih => exact ⟨h.1, ih h.2 ht⟩

theorem Fits.size_pos {n : ℕ} (h : Fits n t) : 0 < t.size := by
  cases t with
  | lit b => exact Nat.one_pos
  | ref disp len =>
    have := h.2.2.2.1
    change 0 < len
    omega

theorem AllFit.length_lt (h : AllFit dst ts) (hne : ts ≠ []) :
    dst.length < (expand dst ts).length := by
  cases ts with
  | nil => exact absurd rfl hne
  | cons t ts =>
    have hle := length_le_expand (t.apply dst) ts
    rw [t.length_apply] at hle
    have := h.1.size_pos
    rw [expand]
    omega

theorem copyRef_eq {pos n : ℕ} (h : dst.length + n ≤ blockSize) :
    copyRef dst pos n = copyBack dst pos n := by
  induction n generalizing dst pos with
  | zero => rfl
  | succ n ih =>
    rw [copyRef, if_pos (by omega), copyBack, ih (by simp; omega)]
    rfl

/-- Bits of a flag byte from `bit` on say which tokens are references. -/
def FlagsOk (flags bit : ℕ) (ts : List Tok) : Prop :=
  ∀ i (h : i < ts.length), flags.testBit (bit + i) = ts[i].isRef

theorem decompressGroup_tokens {flags left : ℕ} {dst rest : List UInt8}
    (hleft : left ≤ 8) (hlen : ts.length ≤ left) (hflags : FlagsOk flags (8 - left) ts)
    (hfit : AllFit dst ts) (hend : (expand dst ts).length ≤ blockSize) :
    decompressGroup flags left (tokensBytes dst ts ++ rest) dst =
      decompressGroup flags (left - ts.length) rest (expand dst ts) := by
  induction ts generalizing left dst with
  | nil => rfl
  | cons t ts ih =>
    obtain ⟨n, rfl⟩ : ∃ n, left = n + 1 := by
      cases left with
      | zero => simp at hlen
      | succ n => exact ⟨n, rfl⟩
    have hle := length_le_expand (t.apply dst) ts
    have hlt := hfit.length_lt (cons_ne_nil t ts)
    have hbit : flags.testBit (7 - n) = t.isRef := by
      have h0 := hflags 0 (by simp)
      rwa [Nat.add_zero, show 8 - (n + 1) = 7 - n by omega] at h0
    have hrest : FlagsOk flags (8 - n) ts := by
      intro i hi
      have hi' := hflags (i + 1) (by simpa using hi)
      rwa [show 8 - (n + 1) + (i + 1) = 8 - n + i by omega] at hi'
    have hroom : ¬ blockSize ≤ dst.length := by omega
    have hnext := @ih n (t.apply dst) (by omega) (by simpa using hlen) hrest hfit.2 hend
    rw [tokensBytes, append_assoc, expand, length_cons, Nat.add_sub_add_right]
    rw [← hnext]
    cases t with
    | lit b =>
      have hlit : flags.testBit (7 - n) = false := hbit
      rw [tokenBytes, singleton_append, decompressGroup.eq_def]
      dsimp only
      rw [if_neg hroom, if_pos hlit]
      rfl
    | ref disp len =>
      obtain ⟨hword, hdisp, hlength⟩ := refWord_split hfit.1
      have hback := hfit.1.2.1
      have hfits : dst.length + len ≤ blockSize := by
        rw [Token.length_apply] at hle
        exact hle.trans hend
      rw [tokenBytes, cons_append, singleton_append, decompressGroup.eq_def]
      dsimp only
      rw [if_neg hroom, if_neg (by rw [hbit]; simp [Token.isRef])]
      simp only [word_bytes hword, hdisp, hlength]
      rw [if_neg (by omega), copyRef_eq hfits]
      rfl

/-! ### Reading groups -/

/-- A flag byte and its tokens. -/
abbrev Group := UInt8 × List Tok

variable {gs : List Group}

def expandGroups (dst : List UInt8) (gs : List Group) : List UInt8 :=
  expand dst (gs.map Prod.snd).flatten

def groupsBytes (dst : List UInt8) : List Group → List UInt8
  | [] => []
  | g :: gs => g.1 :: (tokensBytes dst g.2 ++ groupsBytes (expand dst g.2) gs)

/-- Groups of eight tokens that can be written behind `dst`. -/
def GroupsFit (dst : List UInt8) : List Group → Prop
  | [] => True
  | g :: gs => g.2.length = 8 ∧ FlagsOk g.1.toNat 0 g.2 ∧ AllFit dst g.2 ∧
      GroupsFit (expand dst g.2) gs

theorem expandGroups_cons (dst : List UInt8) (g : Group) (gs : List Group) :
    expandGroups dst (g :: gs) = expandGroups (expand dst g.2) gs := by
  rw [expandGroups, map_cons, flatten_cons, expand_append]
  rfl

theorem expandGroups_concat (dst : List UInt8) (gs : List Group) (g : Group) :
    expandGroups dst (gs ++ [g]) = expand (expandGroups dst gs) g.2 := by
  simp [expandGroups, expand_append]

theorem groupsBytes_concat (dst : List UInt8) (gs : List Group) (g : Group) :
    groupsBytes dst (gs ++ [g]) =
      groupsBytes dst gs ++ g.1 :: tokensBytes (expandGroups dst gs) g.2 := by
  induction gs generalizing dst with
  | nil => simp [groupsBytes, expandGroups, expand]
  | cons g' gs ih => simp [groupsBytes, ih, expandGroups_cons]

theorem groupsFit_concat {g : Group} (h : GroupsFit dst gs)
    (hlen : g.2.length = 8) (hflags : FlagsOk g.1.toNat 0 g.2)
    (hfit : AllFit (expandGroups dst gs) g.2) : GroupsFit dst (gs ++ [g]) := by
  induction gs generalizing dst with
  | nil => exact ⟨hlen, hflags, hfit, trivial⟩
  | cons g' gs ih =>
    rw [expandGroups_cons] at hfit
    exact ⟨h.1, h.2.1, h.2.2.1, ih h.2.2.2 hfit⟩

theorem length_groupsBytes (dst : List UInt8) (gs : List Group) :
    gs.length ≤ (groupsBytes dst gs).length := by
  induction gs generalizing dst with
  | nil => exact le_rfl
  | cons g gs ih =>
    have := ih (expand dst g.2)
    simp only [groupsBytes, length_cons, length_append]
    omega

theorem decompressBlockFrom_groups {dst rest : List UInt8}
    (hfuel : gs.length ≤ fuel) (hfit : GroupsFit dst gs)
    (hend : (expandGroups dst gs).length ≤ blockSize) :
    decompressBlockFrom fuel (groupsBytes dst gs ++ rest) dst =
      decompressBlockFrom (fuel - gs.length) rest (expandGroups dst gs) := by
  induction gs generalizing fuel dst with
  | nil => rfl
  | cons g gs ih =>
    obtain ⟨n, rfl⟩ : ∃ n, fuel = n + 1 := by
      cases fuel with
      | zero => simp at hfuel
      | succ n => exact ⟨n, rfl⟩
    obtain ⟨hlen, hflags, hall, hrest⟩ := hfit
    rw [expandGroups_cons] at hend ⊢
    have hle : (expand dst g.2).length ≤ blockSize :=
      (length_le_expand _ _).trans hend
    have hlt := hall.length_lt (ne_nil_of_length_pos (by omega))
    have hgroup := @decompressGroup_tokens g.2 g.1.toNat 8 dst
      (groupsBytes (expand dst g.2) gs ++ rest) le_rfl hlen.le hflags hall hle
    rw [hlen, Nat.sub_self] at hgroup
    rw [groupsBytes, cons_append, append_assoc, decompressBlockFrom,
      if_neg (by omega), hgroup]
    simp only [decompressGroup]
    rw [ih (by simpa using hfuel) hrest hend, length_cons, Nat.add_sub_add_right]

theorem decompressBlock_last {flags : UInt8}
    (hfit : GroupsFit [] gs) (hlen : ts.length < 8) (hne : ts ≠ [])
    (hflags : FlagsOk flags.toNat 0 ts) (hall : AllFit (expandGroups [] gs) ts)
    (hend : (expand (expandGroups [] gs) ts).length ≤ blockSize) :
    decompressBlock (groupsBytes [] gs ++ flags :: tokensBytes (expandGroups [] gs) ts) =
      some (expand (expandGroups [] gs) ts) := by
  have hlt := hall.length_lt hne
  have hfuel := length_groupsBytes [] gs
  have hgroup := @decompressGroup_tokens ts flags.toNat 8 (expandGroups [] gs) [] le_rfl
    hlen.le hflags hall hend
  obtain ⟨left, hleft⟩ : ∃ left, 8 - ts.length = left + 1 := ⟨7 - ts.length, by omega⟩
  rw [append_nil, hleft] at hgroup
  rw [decompressBlock, decompressBlockFrom_groups (by simp; omega) hfit (by omega)]
  obtain ⟨fuel, hfuel'⟩ : ∃ fuel, (groupsBytes [] gs ++ flags ::
      tokensBytes (expandGroups [] gs) ts).length - gs.length = fuel + 1 := by
    refine ⟨(groupsBytes [] gs).length + (tokensBytes (expandGroups [] gs) ts).length -
      gs.length, ?_⟩
    simp only [length_append, length_cons]
    omega
  rw [hfuel', decompressBlockFrom, if_neg (by omega), hgroup]
  simp only [decompressGroup]
  cases fuel <;> rfl

theorem decompressBlock_full (hfit : GroupsFit [] gs)
    (hend : (expandGroups [] gs).length ≤ blockSize) :
    decompressBlock (groupsBytes [] gs) = some (expandGroups [] gs) := by
  have h := @decompressBlockFrom_groups (groupsBytes [] gs).length gs [] []
    (length_groupsBytes [] gs) hfit hend
  rw [append_nil] at h
  rw [decompressBlock, h]
  cases (groupsBytes [] gs).length - gs.length <;> rfl

/-! ### Finding matches -/

theorem matchLen_le (src : List UInt8) (j pos avail : ℕ) : matchLen src j pos avail ≤ avail := by
  induction avail generalizing j pos with
  | zero => exact le_rfl
  | succ avail ih =>
    rw [matchLen]
    split
    · exact succ_le_succ (ih _ _)
    · exact Nat.zero_le _

theorem matchLen_match (src : List UInt8) (j pos avail : ℕ) :
    ∀ k < matchLen src j pos avail, src.getD (j + k) 0 = src.getD (pos + k) 0 := by
  induction avail generalizing j pos with
  | zero => exact fun k hk => absurd hk (Nat.not_lt_zero k)
  | succ avail ih =>
    rw [matchLen]
    split
    · rename_i heq
      intro k hk
      cases k with
      | zero => exact heq
      | succ k =>
        have h := ih (j + 1) (pos + 1) k (by omega)
        rwa [show j + (k + 1) = j + 1 + k by omega, show pos + (k + 1) = pos + 1 + k by omega]
    · exact fun k hk => absurd hk (Nat.not_lt_zero k)

/-- A match that a token can say: what stands at `pos` stands `disp` before it too. -/
structure Match.Sound (src : List UInt8) (pos maxLen maxDisp : ℕ) (m : Match) : Prop where
  disp_pos : 1 ≤ m.disp
  disp_le : m.disp ≤ pos
  disp_max : m.disp ≤ maxDisp
  len_max : m.len ≤ maxLen
  fits : pos + m.len ≤ src.length
  same : ∀ k < m.len, src.getD (pos - m.disp + k) 0 = src.getD (pos + k) 0

theorem walkChain_spec {pos h maxLen maxDisp steps : ℕ} {j : Option ℕ}
    {t : Table} {best : Match} (hpos : pos ≤ src.length) (hj : ∀ i, j = some i → i < pos)
    (hhead : ∀ i, t.head h = some i → i < pos)
    (hbest : 3 ≤ best.len → best.Sound src pos maxLen maxDisp) :
    (walkChain src pos h maxLen maxDisp steps j t best).1.head = t.head ∧
      (3 ≤ (walkChain src pos h maxLen maxDisp steps j t best).2.len →
        (walkChain src pos h maxLen maxDisp steps j t best).2.Sound src pos maxLen maxDisp) := by
  induction steps generalizing j t best with
  | zero => exact ⟨rfl, hbest⟩
  | succ steps ih =>
    cases j with
    | none => exact ⟨rfl, hbest⟩
    | some j =>
      have hjpos := hj j rfl
      rw [walkChain]
      dsimp only
      split
      · exact ⟨rfl, hbest⟩
      rename_i hdisp
      generalize hm : matchLen src j pos (min (src.length - pos) maxLen) = mlen
      have hle := matchLen_le src j pos (min (src.length - pos) maxLen)
      have hsame := matchLen_match src j pos (min (src.length - pos) maxLen)
      rw [hm] at hle hsame
      have hbest' :
          3 ≤ (if 3 ≤ mlen ∧ best.len < mlen then ⟨mlen, pos - j⟩ else best : Match).len →
          (if 3 ≤ mlen ∧ best.len < mlen then ⟨mlen, pos - j⟩ else best : Match).Sound src pos
            maxLen maxDisp := by
        split
        · intro _
          refine ⟨?_, ?_, ?_, ?_, ?_, ?_⟩
          · dsimp only
            omega
          · dsimp only
            omega
          · exact Nat.not_lt.mp hdisp
          · dsimp only
            omega
          · dsimp only
            omega
          · intro k hk
            dsimp only at hk ⊢
            rw [Nat.sub_sub_self hjpos.le]
            exact hsame k hk
        · exact hbest
      split
      · exact ⟨rfl, hbest'⟩
      · -- the chain goes on at the head of the bucket
        refine ih ?_ hhead hbest'
        intro i hi
        rw [update_self] at hi
        exact hhead i hi

def Table.Below (t : Table) (pos : ℕ) : Prop := ∀ h j, t.head h = some j → j < pos

theorem Table.Below.insert {t : Table} {pos : ℕ} (src : List UInt8) {p n : ℕ} (h : t.Below pos)
    (hpos : pos ≤ n) (hp : p < n) : (t.insert src p).Below n := by
  intro b j hj
  unfold Table.insert at hj
  split at hj
  · dsimp only at hj
    rcases eq_or_ne b (hash3 src p) with rfl | hne
    · rw [update_self] at hj
      cases hj
      exact hp
    · rw [update_of_ne hne] at hj
      exact (h b j hj).trans_le hpos
  · exact (h b j hj).trans_le hpos

theorem Table.Below.insertNext {t : Table} (src : List UInt8) {pos n : ℕ} (h : t.Below (pos + 1)) :
    (t.insertNext src pos n).Below (pos + 1 + n) := by
  unfold Table.insertNext
  induction n with
  | zero => exact h
  | succ n ih =>
    rw [range_succ, foldl_append]
    exact ih.insert src (by omega) (by omega)

theorem findMatch_spec {s : CompState} (hpos : s.srcPos ≤ src.length)
    (ht : s.table.Below s.srcPos) :
    (findMatch src s).1.Below s.srcPos ∧ (3 ≤ (findMatch src s).2.len →
      (findMatch src s).2.Sound src s.srcPos
        (1 <<< (16 - displacementBits s.srcPos) - 1 + 3) (1 <<< displacementBits s.srcPos)) := by
  unfold findMatch
  dsimp only
  split
  · have h := @walkChain_spec src s.srcPos (hash3 src s.srcPos)
      (1 <<< (16 - displacementBits s.srcPos) - 1 + 3) (1 <<< displacementBits s.srcPos) 16
      (s.table.head (hash3 src s.srcPos)) s.table ⟨0, 0⟩ hpos (ht _) (ht _) nofun
    refine ⟨?_, h.2⟩
    intro b j hj
    rw [h.1] at hj
    exact ht b j hj
  · exact ⟨ht, nofun⟩

/-! ### Writing tokens -/

/-- What has been written are groups `gs` and the tokens `ts` of the open one, and they put out
the input up to the current position. -/
structure Emitted (src : List UInt8) (s : CompState) (gs : List Group) (ts : List Tok) : Prop where
  pos : s.srcPos ≤ src.length
  table : s.table.Below s.srcPos
  out : s.out = groupsBytes [] gs
  groups : GroupsFit [] gs
  group : s.group = tokensBytes (expandGroups [] gs) ts
  fit : AllFit (expandGroups [] gs) ts
  flags : FlagsOk s.flag 0 ts
  flag_lt : s.flag < 2 ^ ts.length
  text : expand (expandGroups [] gs) ts = src.take s.srcPos

theorem Emitted.length {s : CompState}
    (h : Emitted src s gs ts) : (expand (expandGroups [] gs) ts).length = s.srcPos := by
  rw [h.text, length_take]
  exact Nat.min_eq_left h.pos

theorem FlagsOk.concat {flags bit : ℕ} (h : FlagsOk flags bit ts)
    (ht : flags.testBit (bit + ts.length) = t.isRef) : FlagsOk flags bit (ts ++ [t]) := by
  intro i hi
  rw [getElem_append]
  split
  · exact h i ‹_›
  · obtain rfl : i = ts.length := by
      rw [length_append, length_singleton] at hi
      omega
    simpa using ht

theorem testBit_or_shift {flag n i : ℕ} :
    (flag ||| 1 <<< n).testBit i = (flag.testBit i || decide (n = i)) := by
  rw [testBit_or, one_shiftLeft, testBit_two_pow]

theorem Emitted.token (h : Emitted src s gs ts) (hfit : Fits s.srcPos t)
    (htext : t.apply (src.take s.srcPos) = src.take s'.srcPos) (hpos : s'.srcPos ≤ src.length)
    (htable : s'.table.Below s'.srcPos) (hout : s'.out = s.out)
    (hgroup : s'.group = s.group ++ tokenBytes s.srcPos t)
    (hflag : s'.flag = if t.isRef then s.flag ||| 1 <<< ts.length else s.flag) :
    Emitted src s' gs (ts ++ [t]) := by
  have hlen := h.length
  have hlt := h.flag_lt
  have hlow : ∀ i < ts.length, s'.flag.testBit i = s.flag.testBit i := by
    intro i hi
    rw [hflag]
    split
    · rw [testBit_or_shift]
      simp
      omega
    · rfl
  have hhigh : s'.flag.testBit ts.length = t.isRef := by
    rw [hflag]
    split
    · rename_i href
      rw [testBit_or_shift, href]
      simp
    · rename_i href
      rw [testBit_lt_two_pow hlt]
      simpa using href
  refine ⟨hpos, htable, hout.trans h.out, h.groups, ?_, ?_, ?_, ?_, ?_⟩
  · rw [hgroup, h.group, tokensBytes_concat, hlen]
  · apply allFit_concat h.fit
    rwa [hlen]
  · apply FlagsOk.concat
    · intro i hi
      rw [Nat.zero_add, hlow i hi, ← h.flags i hi, Nat.zero_add]
    · rwa [Nat.zero_add]
  · have hpow : 2 ^ ts.length < 2 ^ (ts.length + 1) := Nat.pow_lt_pow_right (by omega) (by omega)
    rw [hflag, length_append, length_singleton]
    split
    · apply or_lt_two_pow
      · omega
      · rwa [one_shiftLeft]
    · omega
  · rw [expand_append, h.text]
    exact htext

theorem emitToken_spec
    (h : Emitted src s gs ts) (hlt : s.srcPos < src.length) (hcount : s.tokenCount = ts.length)
    (heq : emitToken src s = some s') :
    s.srcPos < s'.srcPos ∧ s'.tokenCount = ts.length ∧ ∃ t, Emitted src s' gs (ts ++ [t]) := by
  obtain ⟨htable, hsound⟩ := findMatch_spec h.pos h.table
  unfold emitToken at heq
  generalize findMatch src s = found at heq htable hsound
  obtain ⟨t, best⟩ := found
  dsimp only at heq hsound htable
  split at heq
  · rename_i hlen
    split at heq
    · cases heq
    cases heq
    have hm := hsound hlen
    have hdmax := hm.disp_max
    have hlmax := hm.len_max
    rw [one_shiftLeft] at hdmax hlmax
    have hpow : 0 < 2 ^ (16 - displacementBits s.srcPos) := Nat.two_pow_pos _
    have hnext : (t.insert src s.srcPos).Below (s.srcPos + 1) :=
      htable.insert src (by omega) (by omega)
    have hbelow := hnext.insertNext src (n := best.len - 1)
    rw [show s.srcPos + 1 + (best.len - 1) = s.srcPos + best.len by omega] at hbelow
    refine ⟨by dsimp only; omega, hcount, .ref best.disp best.len,
      h.token ⟨hm.disp_pos, hm.disp_le, hdmax, hlen, by omega⟩ ?_ hm.fits hbelow rfl rfl ?_⟩
    · rw [Token.apply, length_take, Nat.min_eq_left h.pos]
      apply copyBack_take _ hm.fits hm.same
      have := hm.disp_pos
      have := hm.disp_le
      omega
    · dsimp only
      rw [hcount]
      rfl
  · split at heq
    · cases heq
    cases heq
    have hbelow : (t.insert src s.srcPos).Below (s.srcPos + 1) :=
      htable.insert src (by omega) (by omega)
    refine ⟨by dsimp only; omega, hcount, .lit (src.getD s.srcPos 0),
      h.token trivial ?_ hlt hbelow rfl rfl rfl⟩
    rw [getD_eq_getElem _ _ hlt]
    exact apply_lit_take hlt

theorem flagsOk_byte {flag : ℕ} (h : FlagsOk flag 0 ts) (hlen : ts.length ≤ 8) :
    FlagsOk (UInt8.ofNat flag).toNat 0 ts := by
  intro i hi
  rw [UInt8.toNat_ofNat', testBit_mod_two_pow, h i hi]
  simp
  omega

/-- The open group has room for another token. -/
def Counted (s : CompState) (ts : List Tok) : Prop := s.tokenCount = ts.length ∧ ts.length < 8

theorem countToken_spec {s : CompState} (h : Emitted src s gs (ts ++ [t]))
    (hcount : s.tokenCount = ts.length) (hlen : ts.length < 8) : (countToken s).srcPos = s.srcPos ∧
      ∃ gs' ts', Emitted src (countToken s) gs' ts' ∧ Counted (countToken s) ts' := by
  unfold countToken
  split
  · rename_i hfull
    have height : (ts ++ [t]).length = 8 := by
      rw [length_append, length_singleton]
      omega
    have hflags := flagsOk_byte h.flags height.le
    have hexpand := expandGroups_concat [] gs (UInt8.ofNat s.flag, ts ++ [t])
    refine ⟨rfl, gs ++ [(UInt8.ofNat s.flag, ts ++ [t])], [], ⟨h.pos, h.table, ?_, ?_, rfl, trivial,
      ?_, Nat.one_pos, ?_⟩, rfl, by simp⟩
    · rw [groupsBytes_concat, ← h.out, ← h.group]
    · exact groupsFit_concat h.groups height hflags h.fit
    · exact fun i hi => absurd hi (Nat.not_lt_zero i)
    · rw [expand, hexpand]
      exact h.text
  · refine ⟨rfl, gs, ts ++ [t], ⟨h.pos, h.table, h.out, h.groups, h.group, h.fit, h.flags,
      h.flag_lt, h.text⟩, ?_, ?_⟩
    · dsimp only
      rw [hcount, length_append, length_singleton]
    · rw [length_append, length_singleton]
      omega

theorem compressLoop_spec (h : Emitted src s gs ts) (hcount : Counted s ts)
    (hfuel : src.length ≤ s.srcPos + fuel) (heq : compressLoop src fuel s = some s') :
    ∃ gs' ts', Emitted src s' gs' ts' ∧ Counted s' ts' ∧ s'.srcPos = src.length := by
  induction fuel generalizing s gs ts with
  | zero =>
    cases heq
    have := h.pos
    exact ⟨gs, ts, h, hcount, by omega⟩
  | succ fuel ih =>
    rw [compressLoop] at heq
    split at heq
    · cases heq
      have := h.pos
      exact ⟨gs, ts, h, hcount, by omega⟩
    rename_i hlt
    split at heq
    · cases heq
    rename_i s₁ hemit
    obtain ⟨hadv, hcount₁, t, h₁⟩ := emitToken_spec h (by omega) hcount.1 hemit
    obtain ⟨hpos, gs', ts', h₂, hcount₂⟩ := countToken_spec h₁ hcount₁ hcount.2
    dsimp only at heq
    split at heq
    · cases heq
    · exact ih h₂ hcount₂ (by omega) heq

/-! ### Blocks -/

theorem emitted_start (src : List UInt8) : Emitted src ⟨0, emptyTable, [], 0, [], 0⟩ [] [] := by
  refine ⟨Nat.zero_le _, nofun, rfl, trivial, rfl, trivial, ?_, Nat.one_pos, rfl⟩
  exact fun i hi => absurd hi (Nat.not_lt_zero i)

theorem compressLoop_data {s : CompState} (hsrc : src.length ≤ blockSize)
    (heq : compressLoop src src.length ⟨0, emptyTable, [], 0, [], 0⟩ = some s) :
    decompressBlock s.data = some src := by
  obtain ⟨gs, ts, h, hcount, hpos⟩ := compressLoop_spec (emitted_start src)
    ⟨rfl, succ_pos 7⟩ (Nat.le_add_left _ _) heq
  have htext : expand (expandGroups [] gs) ts = src := by
    rw [h.text, hpos, take_length]
  have hend : (expand (expandGroups [] gs) ts).length ≤ blockSize := by rwa [htext]
  have hdata : decompressBlock s.data = some (expand (expandGroups [] gs) ts) := by
    unfold CompState.data
    split
    · rename_i hopen
      rw [h.out, h.group]
      refine decompressBlock_last h.groups hcount.2 ?_ (flagsOk_byte h.flags hcount.2.le) h.fit hend
      rintro rfl
      rw [hcount.1] at hopen
      exact absurd hopen (Nat.lt_irrefl 0)
    · rename_i hclosed
      obtain rfl : ts = [] := by
        apply eq_nil_of_length_eq_zero
        have := hcount.1
        omega
      rw [h.out]
      exact decompressBlock_full h.groups hend
  rw [hdata, htext]

theorem compressLoop_short (hs : fuel = 0 ∨ src.length ≤ s.srcPos → s.data.length + 1 < src.length)
    (heq : compressLoop src fuel s = some s') : s'.data.length + 1 < src.length := by
  induction fuel generalizing s with
  | zero =>
    cases heq
    exact hs (.inl rfl)
  | succ fuel ih =>
    rw [compressLoop] at heq
    split at heq
    · cases heq
      exact hs (.inr ‹_›)
    split at heq
    · cases heq
    dsimp only at heq
    split at heq
    · cases heq
    rename_i s₁ _ hshort
    refine ih (fun _ => ?_) heq
    unfold CompState.data
    unfold CompState.outPos at hshort
    split
    · rw [length_append, length_cons]
      omega
    · omega

theorem header_fields {size k : ℕ} (hpos : 0 < size) (hle : size ≤ blockSize) (hk0 : 0 < k)
    (hk : k < 16) :
    ∃ hdr, header size (k <<< 12) = [UInt8.ofNat (hdr &&& 0xFF), UInt8.ofNat (hdr >>> 8)] ∧
      hdr < 2 ^ 16 ∧ hdr ≠ 0 ∧ (hdr &&& 0x0FFF) + 1 = size ∧
      (hdr &&& 0x8000 ≠ 0 ↔ k.testBit 3 = true) := by
  have hlow : size - 1 < 2 ^ 12 := by
    unfold blockSize at hle
    omega
  have hsum : (size - 1) ||| k <<< 12 = 2 ^ 12 * k + (size - 1) := by
    rw [two_pow_add_eq_or_of_lt hlow, Nat.or_comm, shiftLeft_eq, Nat.mul_comm]
  refine ⟨(size - 1) ||| k <<< 12, rfl, ?_, ?_, ?_, ?_⟩
  · rw [hsum]
    omega
  · rw [hsum]
    omega
  · rw [hsum, and_two_pow_sub_one_eq_mod _ 12]
    omega
  · rw [show (0x8000 : ℕ) = 2 ^ 15 by rfl, and_two_pow, testBit_or,
      testBit_lt_two_pow (hlow.trans (by omega)), testBit_shiftLeft]
    cases k.testBit 3 <;> simp

/-- A block as it stands in the stream: the decompressor takes it off and puts out `plain`. -/
def Reads (block plain : List UInt8) : Prop :=
  block ≠ [] ∧ ∀ dstLen fuel rest dst, dst.length + plain.length ≤ dstLen →
    decompressFrom dstLen (fuel + 1) (block ++ rest) dst =
      decompressFrom dstLen fuel rest (dst ++ plain)

theorem reads_of_header {plain data : List UInt8} {k : ℕ} (hplain : plain ≠ [])
    (hpos : 0 < data.length) (hle : data.length ≤ blockSize) (hk0 : 0 < k) (hk : k < 16)
    (hraw : k.testBit 3 = false → data = plain)
    (hcomp : k.testBit 3 = true → decompressBlock data = some plain) :
    Reads (header data.length (k <<< 12) ++ data) plain := by
  obtain ⟨hdr, heq, hlt, hne, hsize, hflag⟩ := header_fields hpos hle hk0 hk
  refine ⟨by simp [heq], ?_⟩
  intro dstLen fuel rest dst hroom
  have hplain := length_pos_iff.mpr hplain
  have htake : plain.take (dstLen - dst.length) = plain := take_of_length_le (by omega)
  rw [heq]
  simp only [cons_append, nil_append]
  rw [decompressFrom, if_neg (by omega)]
  simp only [word_bytes hlt, hsize, if_neg hne, length_append, take_left,
    drop_left]
  rw [if_neg (by omega)]
  split
  · rename_i hbit
    simp only [hcomp (hflag.mp hbit), htake]
  · rename_i hbit
    rw [hraw (by simpa using fun h => hbit (hflag.mpr h)), htake]

theorem storeRaw_reads {src block : List UInt8} {dstMax : ℕ} (hne : src ≠ [])
    (hle : src.length ≤ blockSize) (heq : storeRaw src dstMax = some block) :
    Reads block src ∧ block.length ≤ dstMax := by
  unfold storeRaw at heq
  split at heq
  · cases heq
  cases heq
  refine ⟨reads_of_header hne (length_pos_iff.mpr hne) hle (by omega) (by omega)
    (fun _ => rfl) nofun, ?_⟩
  rw [length_append]
  change 2 + src.length ≤ dstMax
  omega

theorem compressBlock_reads {src block : List UInt8} {dstMax : ℕ} (hle : src.length ≤ blockSize)
    (heq : compressBlock src dstMax = some block) : Reads block src ∧ block.length ≤ dstMax := by
  unfold compressBlock at heq
  split at heq
  · cases heq
  rename_i hok
  have hne : src ≠ [] := fun h => hok (.inl h)
  split at heq
  · exact storeRaw_reads hne hle heq
  rename_i s hloop
  split at heq
  · exact storeRaw_reads hne hle heq
  cases heq
  have hdata := compressLoop_data hle hloop
  have hshort := compressLoop_short (fun h => absurd h ?_) hloop
  · have hpos : 0 < s.data.length := by
      rw [length_pos_iff]
      intro hnil
      rw [hnil] at hdata
      exact hne (Option.some.inj hdata).symm
    refine ⟨?_, ?_⟩
    · exact reads_of_header (k := 11) hne hpos (by omega) (by omega) (by omega) nofun
        (fun _ => hdata)
    · rw [length_append]
      change 2 + s.data.length ≤ dstMax
      omega
  · have := length_pos_iff.mpr hne
    dsimp only
    omega

theorem decompressFrom_zeros (dstLen fuel k : ℕ) (dst : List UInt8) :
    decompressFrom dstLen fuel ([0, 0] ++ replicate k 0) dst = some dst := by
  cases fuel with
  | zero => rfl
  | succ fuel =>
    rw [cons_append, cons_append, decompressFrom]
    split
    · rfl
    · exact if_pos rfl

theorem compressFrom_spec {dstLen fuel : ℕ} {src out : List UInt8} (hout : out.length ≤ dstLen) :
    (compressFrom dstLen fuel src out).1.length ≤ dstLen ∧
      ((compressFrom dstLen fuel src out).2 = true →
        ∃ tail, (compressFrom dstLen fuel src out).1 = out ++ tail ∧
          ∀ max fuel' k dst, tail.length ≤ fuel' → dst.length + src.length ≤ max →
            decompressFrom max fuel' (tail ++ replicate k 0) dst = some (dst ++ src)) := by
  induction fuel generalizing src out with
  | zero => exact ⟨hout, nofun⟩
  | succ fuel ih =>
    cases src with
    | nil =>
      rw [compressFrom]
      split
      · exact ⟨hout, nofun⟩
      · refine ⟨by simp; omega, fun _ => ⟨[0, 0], rfl, ?_⟩⟩
        intro max fuel' k dst _ _
        rw [decompressFrom_zeros, append_nil]
    | cons b src =>
      rw [compressFrom]
      generalize hsrc : b :: src = text
      split
      · exact ⟨hout, nofun⟩
      split
      · exact ⟨hout, nofun⟩
      split
      · exact ⟨hout, nofun⟩
      split
      · exact ⟨hout, nofun⟩
      rename_i block hblock
      have hle : (text.take blockSize).length ≤ blockSize := length_take_le _ _
      obtain ⟨⟨hne, hreads⟩, hfit⟩ := compressBlock_reads hle hblock
      have hwritten : (out ++ block).length ≤ dstLen := by
        rw [length_append]
        omega
      obtain ⟨hcap, hdec⟩ := @ih (text.drop blockSize) (out ++ block) hwritten
      refine ⟨hcap, fun hok => ?_⟩
      obtain ⟨tail, htail, hdec⟩ := hdec hok
      refine ⟨block ++ tail, by rw [htail, append_assoc], ?_⟩
      intro max fuel' k dst hfuel hmax
      have hsplit : (text.take blockSize).length + (text.drop blockSize).length =
          text.length := by
        rw [← length_append, take_append_drop]
      have hblockPos := length_pos_iff.mpr hne
      rw [length_append] at hfuel
      obtain ⟨n, rfl⟩ : ∃ n, fuel' = n + 1 := ⟨fuel' - 1, by omega⟩
      rw [append_assoc, hreads _ _ _ _ (by omega),
        hdec _ _ _ _ (by omega) (by rw [length_append]; omega), append_assoc,
        take_append_drop]

/-- Whatever the buffer, the compressor stays inside it, and when it succeeds the decompressor
gets the input back from the stream, with zeros behind it or not, in any buffer that can hold it. -/
theorem lznt1_round_trip (src : List UInt8) (cap : ℕ) : (lznt1Compress src cap).1.length ≤ cap ∧
      ∀ out, lznt1Compress src cap = (out, true) → ∀ k dstLen, src.length ≤ dstLen →
        lznt1Decompress (out ++ List.replicate k 0) dstLen = some src := by
  unfold lznt1Compress
  split
  · exact ⟨Nat.zero_le _, nofun⟩
  rename_i hok
  have hne : src ≠ [] := fun h => hok (.inl h)
  obtain ⟨hcap, hdec⟩ := @compressFrom_spec cap (src.length + 1) src [] (Nat.zero_le _)
  refine ⟨hcap, ?_⟩
  intro out heq k dstLen hroom
  rw [heq] at hdec
  obtain ⟨tail, htail, hdec⟩ := hdec rfl
  rw [nil_append] at htail
  dsimp only at htail
  have hplain := length_pos_iff.mpr hne
  have hstream : out ≠ [] := by
    intro hnil
    have h := hdec src.length 0 0 [] (by rw [← htail, hnil]; exact le_rfl) (by simp)
    exact hne (Option.some.inj h).symm
  have hnot : ¬ (out ++ List.replicate k 0 = [] ∨ dstLen = 0) := by
    simp [hstream]
    omega
  rw [lznt1Decompress, if_neg hnot]
  have hread := hdec dstLen (out ++ List.replicate k 0).length k []
    (by rw [← htail, length_append]; omega) (by simpa using hroom)
  rw [← htail] at hread
  exact hread

theorem lznt1_round_trip_repeated :
    lznt1Compress (List.replicate 20 97) 30 = ([3, 176, 2, 97, 16, 0, 0, 0], true) ∧
      lznt1Decompress ([3, 176, 2, 97, 16, 0, 0, 0] ++ List.replicate 3 0) 20 =
        some (List.replicate 20 97) := by
  have heq : lznt1Compress (List.replicate 20 97) 30 = ([3, 176, 2, 97, 16, 0, 0, 0], true) := by
    decide
  exact ⟨heq, (lznt1_round_trip (List.replicate 20 97) 30).2 _ heq 3 20 le_rfl⟩

end ImpossibleOs.Ntfs.Lznt1
