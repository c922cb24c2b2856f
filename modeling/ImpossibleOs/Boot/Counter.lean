import Mathlib.Data.List.Induction
import Mathlib.Data.List.Nodup
import Mathlib.Data.List.Perm.Subperm
import Mathlib.Order.Bounds.Basic

/-!
Boot counters kept in filenames, from `src/boot/uefi/boot_policy.c`.

A counter is the filename `<entry-id>+<left>-<done>`. The parser takes one or
two digits for `done`, the formatter writes two from 10 on only, so a padded
digit is read and never written back.
-/

namespace ImpossibleOs.Boot

open List Nat

/-! ### Filenames -/

def bootEntriesMaxIdLen : ℕ := 47
def bootCounterFilenameMax : ℕ := 64
def bootCounterTriesLeftMax : ℕ := 9
def bootCounterTriesDoneMax : ℕ := 99

def plus : UInt8 := 43
def dash : UInt8 := 45
def zero : UInt8 := 48

/-- A counter; the id is its characters up to the NUL. -/
structure BootCounter where
  id : List UInt8
  triesLeft : ℕ
  triesDone : ℕ
  deriving DecidableEq, Repr

def isAsciiDigit (c : UInt8) : Bool := zero ≤ c && c ≤ 57

def isKebabChar (c : UInt8) : Bool := (97 ≤ c && c ≤ 122) || isAsciiDigit c || c = dash

/-- The loop over the id: kebab characters, and no two dashes in a row. -/
def kebabLoop : List UInt8 → Bool
  | [] => true
  | c :: id => isKebabChar c && !(c = dash && id.head? = some dash) && kebabLoop id

def idGrammar (id : List UInt8) : Bool :=
  id.head? ≠ some dash && id.getLast? ≠ some dash && kebabLoop id

def digitOf (c : UInt8) : ℕ := c.toNat - 48

def digitChar (n : ℕ) : UInt8 := UInt8.ofNat (48 + n)

/-- The number that starts with the digit `d`, and what follows it. -/
def takeDone (d : UInt8) : List UInt8 → ℕ × List UInt8
  | e :: rest =>
    if isAsciiDigit e then (digitOf d * 10 + digitOf e, rest) else (digitOf d, e :: rest)
  | [] => (digitOf d, [])

/-- What follows the `+`: one digit, a dash and one or two digits. -/
def parseTries : List UInt8 → Option (ℕ × ℕ)
  | l :: sep :: d :: rest =>
    if !isAsciiDigit l then none
    else if bootCounterTriesLeftMax < digitOf l then none
    else if sep ≠ dash then none
    else if !isAsciiDigit d then none
    else if (takeDone d rest).2 ≠ [] then none
    else if bootCounterTriesDoneMax < (takeDone d rest).1 then none
    else some (digitOf l, (takeDone d rest).1)
  | _ => none

def bootCounterParseFilename (name : List UInt8) : Option BootCounter :=
  let n := name.findIdx (· = plus)
  if n = name.length ∨ n = 0 then none
  else if bootEntriesMaxIdLen < n then none
  else if !idGrammar (name.take n) then none
  else (parseTries (name.drop (n + 1))).map fun t => ⟨name.take n, t.1, t.2⟩

def doneChars (done : ℕ) : List UInt8 :=
  if 10 ≤ done then [digitChar (done / 10), digitChar (done % 10)] else [digitChar (done % 10)]

/-- The filename that is written to a buffer of `outCap` bytes, without its NUL. -/
def bootCounterFormatFilename (c : BootCounter) (outCap : ℕ) : Option (List UInt8) :=
  if outCap < 8 then none
  else if bootCounterTriesLeftMax < c.triesLeft then none
  else if bootCounterTriesDoneMax < c.triesDone then none
  else if c.id.length = 0 ∨ bootEntriesMaxIdLen < c.id.length then none
  else if !idGrammar c.id then none
  else if outCap < c.id.length + 1 + 1 + 1 + (if 10 ≤ c.triesDone then 2 else 1) + 1 then none
  else some (c.id ++ plus :: digitChar c.triesLeft :: dash :: doneChars c.triesDone)

/-- A counter that can be written. -/
structure BootCounter.Valid (c : BootCounter) : Prop where
  id : c.id ≠ [] ∧ c.id.length ≤ bootEntriesMaxIdLen
  grammar : idGrammar c.id = true
  left : c.triesLeft ≤ bootCounterTriesLeftMax
  done : c.triesDone ≤ bootCounterTriesDoneMax

/-- The name ends in a number of tries of two digits, the first of them a 0. -/
def PaddedDone (name : List UInt8) : Prop := ∃ p d, name = p ++ [dash, zero, d]

variable {c : BootCounter} {name rest : List UInt8} {n outCap : ℕ}

theorem plus_not_mem {id : List UInt8} (h : kebabLoop id = true) : plus ∉ id := by
  induction id with
  | nil => simp
  | cons c id ih =>
    simp only [kebabLoop, Bool.and_eq_true] at h
    rw [mem_cons, not_or]
    refine ⟨fun heq => ?_, ih h.2⟩
    rw [← heq] at h
    exact absurd h.1.1 (by decide)

theorem digitOf_digitChar (h : n < 10) :
    digitOf (digitChar n) = n ∧ isAsciiDigit (digitChar n) = true := by
  have : ∀ n < 10, digitOf (digitChar n) = n ∧ isAsciiDigit (digitChar n) = true := by decide
  exact this n h

theorem digitChar_digitOf {d : UInt8} (h : isAsciiDigit d = true) :
    digitOf d < 10 ∧ digitChar (digitOf d) = d := by
  simp only [isAsciiDigit, zero, Bool.and_eq_true, decide_eq_true_eq, UInt8.le_iff_toNat_le] at h
  have h57 : d.toNat ≤ 57 := h.2
  have h48 : 48 ≤ d.toNat := h.1
  refine ⟨by unfold digitOf; omega, ?_⟩
  rw [digitChar, digitOf, Nat.add_sub_cancel' h48, UInt8.ofNat_toNat]

theorem findIdx_plus {id : List UInt8} (h : kebabLoop id = true) :
    (id ++ plus :: rest).findIdx (· = plus) = id.length := by
  have hid : id.findIdx (· = plus) = id.length :=
    findIdx_eq_length.mpr fun c hc => decide_eq_false fun heq => plus_not_mem h (heq ▸ hc)
  rw [findIdx_append, if_neg (by omega), findIdx_cons]
  simp

theorem doneChars_two {d e : UInt8} (hd : isAsciiDigit d = true) (he : isAsciiDigit e = true) :
    [d, e] = doneChars (digitOf d * 10 + digitOf e) ∨
    digitOf d * 10 + digitOf e < 10 ∧ [d, e] = [zero, digitChar (digitOf d * 10 + digitOf e)] := by
  obtain ⟨hd10, hdc⟩ := digitChar_digitOf hd
  obtain ⟨he10, hec⟩ := digitChar_digitOf he
  rcases Nat.eq_zero_or_pos (digitOf d) with h0 | hpos
  · right
    rw [h0] at hdc ⊢
    rw [Nat.zero_mul, Nat.zero_add, hec, ← hdc]
    exact ⟨he10, rfl⟩
  · left
    rw [doneChars, if_pos (by omega), show (digitOf d * 10 + digitOf e) / 10 = digitOf d by omega,
      show (digitOf d * 10 + digitOf e) % 10 = digitOf e by omega, hdc, hec]

/-- The digits for `done` that the parser takes: those of the formatter, or one digit padded. -/
theorem parseTries_iff {t : List UInt8} {left done : ℕ} : parseTries t = some (left, done) ↔
    left ≤ bootCounterTriesLeftMax ∧ done ≤ bootCounterTriesDoneMax ∧ ∃ ds,
      t = digitChar left :: dash :: ds ∧
      (ds = doneChars done ∨ done < 10 ∧ ds = [zero, digitChar done]) := by
  constructor
  · intro h
    unfold parseTries at h
    split at h
    · rename_i l sep d rest
      split_ifs at h with hl hleft hsep hd hrest hdone
      obtain ⟨rfl, rfl⟩ := Prod.mk.inj (Option.some.inj h)
      simp only [Bool.not_eq_true', Bool.not_eq_false, ne_eq, not_not] at hl hsep hd hrest
      obtain ⟨-, hlc⟩ := digitChar_digitOf hl
      obtain ⟨hd10, hdc⟩ := digitChar_digitOf hd
      refine ⟨by omega, by omega, d :: rest, by rw [hsep, hlc], ?_⟩
      cases rest with
      | nil =>
        left
        rw [takeDone, doneChars, if_neg (by omega), mod_eq_of_lt hd10, hdc]
      | cons e rest =>
        rw [takeDone] at hrest ⊢
        split_ifs at hrest ⊢ with he
        rw [show rest = [] from hrest]
        exact doneChars_two hd he
    · cases h
  · rintro ⟨hleft, hdone, ds, rfl, hds⟩
    obtain ⟨hl, hl'⟩ := digitOf_digitChar (n := left) (lt_succ_of_le hleft)
    obtain ⟨d, rest, rfl, hd, htake⟩ : ∃ d rest, ds = d :: rest ∧ isAsciiDigit d = true ∧
        takeDone d rest = (done, []) := by
      unfold bootCounterTriesDoneMax at hdone
      obtain ⟨he, he'⟩ := digitOf_digitChar (n := done % 10) (by omega)
      rcases hds with rfl | ⟨hten, rfl⟩
      · unfold doneChars
        split
        · obtain ⟨hd, hd'⟩ := digitOf_digitChar (n := done / 10) (by omega)
          refine ⟨_, _, rfl, hd', ?_⟩
          rw [takeDone, if_pos he', hd, he]
          exact congrArg (·, _) (by omega)
        · refine ⟨_, _, rfl, he', ?_⟩
          rw [takeDone, he, mod_eq_of_lt (by omega)]
      · rw [mod_eq_of_lt hten] at he he'
        refine ⟨_, _, rfl, by decide, ?_⟩
        rw [takeDone, if_pos he', he]
        exact congrArg (·, _) (by rw [show digitOf zero = 0 by decide]; omega)
    rw [parseTries, htake, if_neg (by simp [hl']), if_neg (by omega), if_neg (by simp),
      if_neg (by simp [hd]), if_neg (by simp), if_neg (by omega), hl]

theorem format_eq_some (h : c.Valid) (hcap : bootCounterFilenameMax ≤ outCap) :
    bootCounterFormatFilename c outCap =
      some (c.id ++ plus :: digitChar c.triesLeft :: dash :: doneChars c.triesDone) := by
  have := h.left
  have := h.done
  have := h.id.2
  have := length_pos_iff.mpr h.id.1
  unfold bootCounterFilenameMax bootEntriesMaxIdLen at *
  unfold bootCounterFormatFilename bootEntriesMaxIdLen
  rw [if_neg (by omega), if_neg (by omega), if_neg (by omega), if_neg (by omega),
    if_neg (by simp [h.grammar]), if_neg (by split <;> omega)]

theorem parse_iff : bootCounterParseFilename name = some c ↔ c.Valid ∧ ∃ ds,
    name = c.id ++ plus :: digitChar c.triesLeft :: dash :: ds ∧
    (ds = doneChars c.triesDone ∨ c.triesDone < 10 ∧ ds = [zero, digitChar c.triesDone]) := by
  unfold bootCounterParseFilename
  constructor
  · intro h
    dsimp only at h
    split at h
    · cases h
    · split at h
      · cases h
      · split at h
        · cases h
        · rename_i hne hlen hgram
          obtain ⟨⟨left, done⟩, htries, rfl⟩ := Option.map_eq_some_iff.mp h
          obtain ⟨hleft, hdone, ds, hdrop, hds⟩ := parseTries_iff.mp htries
          have hlt : name.findIdx (· = plus) < name.length :=
            Nat.lt_of_le_of_ne findIdx_le_length fun heq => hne (.inl heq)
          have hplus : name[name.findIdx (· = plus)] = plus := by
            simpa using findIdx_getElem (p := (· = plus)) (w := hlt)
          refine ⟨⟨⟨?_, ?_⟩, by simpa using hgram, hleft, hdone⟩, ds, ?_, hds⟩
          · simp only [ne_eq, take_eq_nil_iff, not_or]
            exact ⟨fun h0 => hne (.inr h0), fun hnil => by simp [hnil] at hlt⟩
          · simp only [length_take]
            omega
          · dsimp only
            rw [← hdrop]
            conv_lhs => rw [← take_append_drop (name.findIdx (· = plus)) name,
              drop_eq_getElem_cons hlt, hplus]
  · rintro ⟨h, ds, rfl, hds⟩
    have hkebab : kebabLoop c.id = true := by
      have := h.grammar
      simp only [idGrammar, Bool.and_eq_true] at this
      exact this.2
    have := length_pos_iff.mpr h.id.1
    have hdrop : (c.id ++ plus :: digitChar c.triesLeft :: dash :: ds).drop (c.id.length + 1) =
        digitChar c.triesLeft :: dash :: ds := by
      simp [drop_append]
    rw [findIdx_plus hkebab]
    dsimp only
    rw [if_neg (by simp only [length_append, length_cons]; omega),
      if_neg (Nat.not_lt.mpr h.id.2), take_left, if_neg (by simp [h.grammar]), hdrop,
      parseTries_iff.mpr ⟨h.left, h.done, ds, rfl, hds⟩]
    rfl

/-- The formatter gives an accepted name back unless its last number is padded. -/
theorem format_parse_iff (h : bootCounterParseFilename name = some c)
    (hcap : bootCounterFilenameMax ≤ outCap) :
    bootCounterFormatFilename c outCap = some name ↔ ¬ PaddedDone name := by
  obtain ⟨hc, ds, rfl, hds⟩ := parse_iff.mp h
  have hdone : c.triesDone < 100 := lt_succ_of_le hc.done
  rw [format_eq_some hc hcap]
  rcases hds with rfl | ⟨hten, rfl⟩
  · refine iff_of_true rfl ?_
    rintro ⟨p, d, hp⟩
    have hrev := congrArg reverse hp
    unfold doneChars at hrev
    split at hrev
    · have hzero := (digitOf_digitChar (n := c.triesDone / 10) (by omega)).1
      simp only [reverse_append, reverse_cons, reverse_nil, nil_append,
        cons_append, List.cons.injEq] at hrev
      rw [hrev.2.1, show digitOf zero = 0 by decide] at hzero
      omega
    · simp [dash, zero] at hrev
  · refine iff_of_false ?_ (not_not.mpr ⟨c.id ++ [plus, digitChar c.triesLeft],
      digitChar c.triesDone, by simp⟩)
    rw [doneChars, if_neg (by omega)]
    simp

/-! ### Duplicates -/

/-- The worst of two counters of one id. -/
def demote (cand o : BootCounter) : BootCounter :=
  { o with
    triesLeft := min o.triesLeft cand.triesLeft
    triesDone := max o.triesDone cand.triesDone }

/-- `boot_policy_counter_dedup_insert` with the code it returns. -/
def bootPolicyCounterDedupInsert (cap : ℕ) (out : List BootCounter) (cand : BootCounter) :
    List BootCounter × ℤ :=
  if cap = 0 then (out, -1)
  else match out.findIdx? fun o => o.id = cand.id with
    | some i => (out.modify i (demote cand), 0)
    | none => if cap ≤ out.length then (out, -1) else (out ++ [cand], 1)

def scanCounters (cap : ℕ) (l : List BootCounter) : List BootCounter :=
  l.foldl (fun out cand => (bootPolicyCounterDedupInsert cap out cand).1) []

/-- `o` has the least tries left and the most tries done of the counters of its id. -/
structure Worst (l : List BootCounter) (o : BootCounter) : Prop where
  left : IsLeast {n | ∃ c ∈ l, c.id = o.id ∧ c.triesLeft = n} o.triesLeft
  done : IsGreatest {n | ∃ c ∈ l, c.id = o.id ∧ c.triesDone = n} o.triesDone

/-- `out` is the map from the ids of `l` to the worst of their counters. -/
structure Merged (l out : List BootCounter) : Prop where
  nodup : (out.map BootCounter.id).Nodup
  worst : ∀ o ∈ out, Worst l o
  ids : ∀ c ∈ l, ∃ o ∈ out, o.id = c.id

variable {l out : List BootCounter} {cand o o' : BootCounter} {cap : ℕ}

theorem Worst.eq (h : Worst l o) (h' : Worst l o') (hid : o.id = o'.id) : o = o' := by
  have hleft := h.left.unique (hid ▸ h'.left)
  have hdone := h.done.unique (hid ▸ h'.done)
  cases o
  cases o'
  simp_all

theorem Merged.mem_iff (h : Merged l out) : o ∈ out ↔ Worst l o := by
  refine ⟨h.worst o, fun hw => ?_⟩
  obtain ⟨c, hc, hid, -⟩ := hw.left.1
  obtain ⟨o', ho', hid'⟩ := h.ids c hc
  exact hw.eq (h.worst o' ho') (by rw [← hid, hid']) ▸ ho'

theorem setOf_append (f : BootCounter → ℕ) : {n | ∃ c ∈ l ++ [cand], c.id = o.id ∧ f c = n} =
    {n | ∃ c ∈ l, c.id = o.id ∧ f c = n} ∪ {n | cand.id = o.id ∧ f cand = n} := by
  ext n
  simp [or_and_right, exists_or]

theorem Worst.append_other (h : Worst l o) (hid : cand.id ≠ o.id) : Worst (l ++ [cand]) o := by
  constructor
  · simpa [setOf_append, hid] using h.left
  · simpa [setOf_append, hid] using h.done

theorem Worst.append_same (h : Worst l o) (hid : cand.id = o.id) :
    Worst (l ++ [cand]) (demote cand o) := by
  have hdemote : (demote cand o).id = o.id := rfl
  constructor
  · rw [hdemote, setOf_append]
    simpa [hid, demote] using h.left.union (isLeast_singleton (a := cand.triesLeft))
  · rw [hdemote, setOf_append]
    simpa [hid, demote] using h.done.union (isGreatest_singleton (a := cand.triesDone))

theorem Worst.fresh (hid : ∀ c ∈ l, c.id ≠ cand.id) : Worst (l ++ [cand]) cand := by
  have hset : ∀ f : BootCounter → ℕ, {n | ∃ c ∈ l ++ [cand], c.id = cand.id ∧ f c = n} =
      {f cand} := by
    intro f
    rw [setOf_append]
    ext n
    simpa [eq_comm] using fun c hc heq => absurd heq.symm (hid c hc)
  exact ⟨by rw [hset]; exact isLeast_singleton, by rw [hset]; exact isGreatest_singleton⟩

theorem map_id_modify (i : ℕ) :
    (out.modify i (demote cand)).map BootCounter.id = out.map BootCounter.id := by
  apply ext_getElem?
  intro k
  rw [getElem?_map, getElem?_modify, getElem?_map]
  cases out[k]? with
  | none => rfl
  | some o => by_cases hik : i = k <;> simp [hik, demote]

theorem Merged.insert (h : Merged l out) {ids : List (List UInt8)} (hcap : ids.length ≤ cap)
    (hids : ∀ c ∈ l ++ [cand], c.id ∈ ids) :
    Merged (l ++ [cand]) (bootPolicyCounterDedupInsert cap out cand).1 := by
  have hcand := hids cand (by simp)
  unfold bootPolicyCounterDedupInsert
  rw [if_neg (by have := length_pos_of_mem hcand; omega)]
  split
  · rename_i i hi
    obtain ⟨hlt, hsame, -⟩ := List.findIdx?_eq_some_iff_getElem.mp hi
    rw [decide_eq_true_eq] at hsame
    have hids' := @map_id_modify out cand i
    refine ⟨by rw [hids']; exact h.nodup, fun o ho => ?_, fun c hc => ?_⟩
    · obtain ⟨k, hk⟩ := mem_iff_getElem?.mp ho
      rw [getElem?_modify] at hk
      obtain ⟨o', ho', rfl⟩ := Option.map_eq_some_iff.mp hk
      have hw := h.worst o' (mem_of_getElem? ho')
      by_cases hik : i = k
      · subst hik
        rw [if_pos rfl]
        rw [getElem?_eq_getElem hlt, Option.some.injEq] at ho'
        exact hw.append_same (by rw [← ho', hsame])
      · rw [if_neg hik]
        refine hw.append_other fun heq => hik <|
          (getElem?_inj (by simpa using hlt) h.nodup).mp ?_
        rw [getElem?_map, getElem?_map, ho', getElem?_eq_getElem hlt]
        simp [hsame, heq]
    · rw [← mem_map, hids', mem_map]
      rcases mem_append.mp hc with hc | hc
      · exact h.ids c hc
      · rw [mem_singleton.mp hc]
        exact ⟨_, getElem_mem hlt, hsame⟩
  · rename_i hnone
    have hnew : ∀ o ∈ out, o.id ≠ cand.id := fun o ho =>
      by simpa using List.findIdx?_eq_none_iff.mp hnone o ho
    have hnodup : (cand.id :: out.map BootCounter.id).Nodup :=
      nodup_cons.mpr ⟨by simpa using hnew, h.nodup⟩
    have hsub : cand.id :: out.map BootCounter.id ⊆ ids := fun id hid => by
      rcases mem_cons.mp hid with rfl | hid
      · exact hcand
      · obtain ⟨o, ho, rfl⟩ := mem_map.mp hid
        obtain ⟨c, hc, heq, -⟩ := (h.worst o ho).left.1
        exact heq ▸ hids c (mem_append_left _ hc)
    have hfits := (hnodup.subperm hsub).length_le
    rw [length_cons, length_map] at hfits
    rw [if_neg (by omega)]
    refine ⟨?_, fun o ho => ?_, fun c hc => ?_⟩
    · rw [map_append]
      exact (perm_append_singleton _ _).nodup_iff.mpr hnodup
    · rcases mem_append.mp ho with ho | ho
      · exact (h.worst o ho).append_other (hnew o ho).symm
      · rw [mem_singleton.mp ho]
        refine Worst.fresh fun c hc heq => ?_
        obtain ⟨o', ho', hid⟩ := h.ids c hc
        exact hnew o' ho' (hid.trans heq)
    · rcases mem_append.mp hc with hc | hc
      · obtain ⟨o, ho, hid⟩ := h.ids c hc
        exact ⟨o, mem_append_left _ ho, hid⟩
      · exact ⟨c, mem_append_right _ hc, rfl⟩

theorem scanCounters_merged {ids : List (List UInt8)} (hcap : ids.length ≤ cap)
    (hids : ∀ c ∈ l, c.id ∈ ids) : Merged l (scanCounters cap l) := by
  induction l using reverseRecOn with
  | nil => exact ⟨nodup_nil, by simp [scanCounters], by simp⟩
  | append_singleton l cand ih =>
    rw [scanCounters, foldl_append]
    exact (ih fun c hc => hids c (mem_append_left _ hc)).insert hcap hids

/-- Every counter is read back from its filename; an accepted name is the one written for its
counter exactly when the last number is not padded; and a scan keeps the worst counter of every
id, in whatever order it meets them. -/
theorem bootCounter_codec (name : List UInt8) (c : BootCounter) (outCap : ℕ) :
    (c.Valid → bootCounterFilenameMax ≤ outCap →
      ∃ name, bootCounterFormatFilename c outCap = some name ∧
        bootCounterParseFilename name = some c) ∧
    (bootCounterFilenameMax ≤ outCap → bootCounterParseFilename name = some c →
      (bootCounterFormatFilename c outCap = some name ↔ ¬ PaddedDone name)) ∧
    ∀ cap (ids : List (List UInt8)) (l l' : List BootCounter), ids.length ≤ cap →
      (∀ c ∈ l, c.id ∈ ids) → l'.Perm l → ((scanCounters cap l').map BootCounter.id).Nodup ∧
      ∀ o, o ∈ scanCounters cap l' ↔ Worst l o := by
  refine ⟨fun hc hcap => ⟨_, format_eq_some hc hcap, parse_iff.mpr ⟨hc, _, rfl, .inl rfl⟩⟩,
    fun hcap h => format_parse_iff h hcap, fun cap ids l l' hcap hids hperm => ?_⟩
  have h := scanCounters_merged hcap fun c hc => hids c (hperm.mem_iff.mp hc)
  exact ⟨h.nodup, fun o => h.mem_iff.trans
    ⟨fun hw => ⟨by simpa only [hperm.mem_iff] using hw.left,
        by simpa only [hperm.mem_iff] using hw.done⟩,
      fun hw => ⟨by simpa only [hperm.mem_iff] using hw.left,
        by simpa only [hperm.mem_iff] using hw.done⟩⟩⟩

/-- Two filenames denote one counter: `a+3-05` is read as what is written `a+3-5`. -/
theorem bootCounter_padded : ∃ (name name' : List UInt8) (c : BootCounter), name ≠ name' ∧
    bootCounterParseFilename name = some c ∧ bootCounterParseFilename name' = some c ∧
    bootCounterFormatFilename c bootCounterFilenameMax = some name' :=
  ⟨[97, 43, 51, 45, 48, 53], [97, 43, 51, 45, 53], ⟨[97], 3, 5⟩, by decide⟩

end ImpossibleOs.Boot
