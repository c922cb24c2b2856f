import ImpossibleOs.Lib.ChainTable
import Mathlib.Tactic.Ring

/-!
`RTL_DYNAMIC_HASH_TABLE`, from `src/kernel/ex/ex_hashtable.c`, and what its operations do to the
entries it holds.

The entries belong to the callers: they are any finite type, and their fields `Next` and
`Signature` stand beside the fields of the table. The caller's allocation routine answers anew on
every call. The abstract table is a multiset of entries with their signatures: an open table holds
it when its chains have these entries, each in the bucket of its signature, its count is the size of
the multiset, and no entry is there twice.
-/

namespace ImpossibleOs.Ex.Hash

open Function
open Function List Nat

def hashMinBuckets : UInt32 := 8
def hashDefaultBuckets : UInt32 := 16
def hashMaxBuckets : UInt32 := (1 : UInt32) <<< 28

/-- The table and the fields of all entries; `directory` is `none` when the pointer is `NULL`. -/
structure HashTable (α : Type*) where
  directory : Option (ℕ → Option α)
  bucketCount : UInt32
  numEntries : UInt32
  next : α → Option α
  signature : α → UInt64

structure Context (α : Type*) where
  nextEntry : Option α
  signature : UInt64
  deriving DecidableEq

def hashMix (z : UInt64) : UInt64 :=
  let z := (z ^^^ (z >>> 30)) * 0xBF58476D1CE4E5B9
  let z := (z ^^^ (z >>> 27)) * 0x94D049BB133111EB
  z ^^^ (z >>> 31)

def hashBucket (bucketCount : UInt32) (sig : UInt64) : UInt32 :=
  (hashMix sig &&& (bucketCount - 1).toUInt64).toUInt32

/-- The loop of `round_up_pow2`; 26 turns take 8 past the cap. -/
def roundUpFrom (x : UInt32) : ℕ → UInt32 → UInt32
  | 0, p => p
  | turns + 1, p =>
    if p < x then
      let next := p <<< 1
      if next < p ∨ hashMaxBuckets < next then hashMaxBuckets else roundUpFrom x turns next
    else p

def roundUpPow2 (x : UInt32) : UInt32 :=
  if hashMaxBuckets < x then hashMaxBuckets else roundUpFrom x 26 hashMinBuckets

/-- The byte size of a directory, cut to the `uint32_t` the allocation routine takes. -/
def dirBytes (buckets : UInt32) : UInt32 := (buckets.toUInt64 * 8).toUInt32

section

variable {α : Type*}

def rtlInitializeDynamicHashTable (t : HashTable α) (allocate : UInt32 → Bool)
    (initialBuckets : UInt32) : HashTable α × Int :=
  let buckets := roundUpPow2 (if initialBuckets ≠ 0 then initialBuckets else hashDefaultBuckets)
  if allocate (dirBytes buckets) then
    ({ t with directory := some fun _ => none, bucketCount := buckets, numEntries := 0 }, 0)
  else (t, -1)

def rtlDeleteDynamicHashTable (t : HashTable α) : HashTable α :=
  match t.directory with
  | none => t
  | some _ => { t with directory := none, bucketCount := 0, numEntries := 0 }

def rtlNumberOfEntriesHashTable (t : HashTable α) : UInt32 := t.numEntries

variable [DecidableEq α] [Fintype α]

/-- `olddir` is the directory of the table, which the callers have tested. -/
def hashResize (t : HashTable α) (olddir : ℕ → Option α) (allocate : UInt32 → Bool)
    (newBuckets : UInt32) : HashTable α × Bool :=
  if newBuckets = t.bucketCount then (t, true)
  else if allocate (dirBytes newBuckets) then
    let m := Chain.rehash (fun e => (hashBucket newBuckets (t.signature e)).toNat)
      (Fintype.card α) olddir (List.range t.bucketCount.toNat) (fun _ => none, t.next)
    ({ t with directory := some m.1, bucketCount := newBuckets, next := m.2 }, true)
  else (t, false)

def rtlInsertEntryHashTable (t : HashTable α) (allocate : UInt32 → Bool) (entry : α)
    (signature : UInt64) : HashTable α × Int :=
  match t.directory with
  | none => (t, -1)
  | some dir =>
    let b := (hashBucket t.bucketCount signature).toNat
    let dir' := update dir b (some entry)
    let t' : HashTable α :=
      { directory := some dir', bucketCount := t.bucketCount, numEntries := t.numEntries + 1
        next := update t.next entry (dir b)
        signature := update t.signature entry signature }
    if t'.bucketCount ≤ t'.numEntries ∧ t'.bucketCount < hashMaxBuckets then
      let want := t'.bucketCount <<< 1
      if t'.bucketCount < want ∧ want ≤ hashMaxBuckets then
        ((hashResize t' dir' allocate want).1, 0)
      else (t', 0)
    else (t', 0)

def rtlRemoveEntryHashTable (t : HashTable α) (entry : α) : HashTable α × Bool :=
  match t.directory with
  | none => (t, false)
  | some dir =>
    let b := (hashBucket t.bucketCount (t.signature entry)).toNat
    match Chain.remove t.next (Fintype.card α) (dir b) entry with
    | none => (t, false)
    | some (head, next) =>
      ({ t with
          directory := some (update dir b head)
          next := update next entry none
          numEntries := t.numEntries - 1 }, true)

omit [DecidableEq α] in
def rtlLookupEntryHashTable (t : HashTable α) (signature : UInt64) (ctx : Context α) :
    Option α × Context α :=
  match t.directory with
  | none => (none, ctx)
  | some dir =>
    let b := (hashBucket t.bucketCount signature).toNat
    match Chain.findFrom t.next (fun e => t.signature e == signature) (Fintype.card α)
        (dir b) with
    | none => (none, ctx)
    | some e => (some e, { nextEntry := t.next e, signature })

omit [DecidableEq α] in
def rtlGetNextEntryHashTable (t : HashTable α) (ctx : Context α) : Option α × Context α :=
  match Chain.findFrom t.next (fun e => t.signature e == ctx.signature) (Fintype.card α)
      ctx.nextEntry with
  | none => (none, { ctx with nextEntry := none })
  | some e => (some e, { ctx with nextEntry := t.next e })

end

/-! ### Bucket numbers -/

/-- The bucket counts of a table: the powers of two from 8 to the cap. -/
def Sized (n : UInt32) : Prop := ∃ k, 3 ≤ k ∧ k ≤ 28 ∧ n.toNat = 2 ^ k

variable {n : UInt32}

theorem Sized.le (h : Sized n) : n.toNat ≤ 2 ^ 28 := by
  obtain ⟨k, -, hk, hn⟩ := h
  rw [hn]
  exact Nat.pow_le_pow_right (by decide) hk

theorem Sized.pos (h : Sized n) : 0 < n.toNat := by
  obtain ⟨k, -, -, hn⟩ := h
  rw [hn]
  exact Nat.two_pow_pos k

theorem double_toNat (h : n.toNat ≤ 2 ^ 28) : (n <<< 1).toNat = 2 * n.toNat := by
  have h1 : (1 : UInt32).toNat % 32 = 1 := rfl
  rw [UInt32.toNat_shiftLeft, h1, shiftLeft_eq]
  omega

theorem Sized.double (h : Sized n) (hcap : n < hashMaxBuckets) : Sized (n <<< 1) := by
  have hle := h.le
  obtain ⟨k, hlo, hhi, hn⟩ := h
  have hlt : n.toNat < 2 ^ 28 := hcap
  have hk : k < 28 := by
    rw [hn] at hlt
    exact (Nat.pow_lt_pow_iff_right (by decide)).mp hlt
  refine ⟨k + 1, by omega, by omega, ?_⟩
  rw [double_toNat hle, hn, Nat.pow_succ]
  omega

theorem hashBucket_toNat (h : Sized n) (sig : UInt64) :
    (hashBucket n sig).toNat = (hashMix sig).toNat % n.toNat := by
  have hpos := h.pos
  have hle := h.le
  obtain ⟨k, -, -, hn⟩ := h
  have hmask : (n - 1).toNat = 2 ^ k - 1 := by
    rw [UInt32.toNat_sub_of_le, hn]
    · rfl
    · show 1 ≤ n.toNat
      exact hpos
  have hmod : (hashMix sig).toNat % 2 ^ k < 2 ^ k := mod_lt _ (Nat.two_pow_pos k)
  rw [hashBucket, UInt64.toNat_toUInt32, UInt64.toNat_and, UInt32.toNat_toUInt64, hmask,
    and_two_pow_sub_one_eq_mod, hn]
  apply mod_eq_of_lt
  omega

theorem hashBucket_lt (h : Sized n) (sig : UInt64) : (hashBucket n sig).toNat < n.toNat := by
  rw [hashBucket_toNat h]
  exact mod_lt _ h.pos

theorem roundUpFrom_spec {x : UInt32} {turns j : ℕ} {p : UInt32} (hp : p.toNat = 2 ^ j)
    (hlo : 3 ≤ j) (hhi : j ≤ 28) (hturns : 28 < j + turns) : Sized (roundUpFrom x turns p) ∧
      (x ≤ roundUpFrom x turns p ∨ roundUpFrom x turns p = hashMaxBuckets) := by
  induction turns generalizing j p with
  | zero => omega
  | succ turns ih =>
    have hsized : Sized p := ⟨j, hlo, hhi, hp⟩
    have hdouble := double_toNat hsized.le
    simp only [roundUpFrom]
    split_ifs with hlt hcap
    · exact ⟨⟨28, by omega, by omega, rfl⟩, .inr rfl⟩
    · rw [not_or] at hcap
      have hnext : (p <<< 1).toNat ≤ 2 ^ 28 := Nat.not_lt.mp hcap.2
      rw [hp, Nat.mul_comm, ← Nat.pow_succ] at hdouble
      have hj : j + 1 ≤ 28 := by
        rw [hdouble] at hnext
        exact (Nat.pow_le_pow_iff_right (by decide)).mp hnext
      exact ih hdouble (by omega) hj (by omega)
    · exact ⟨hsized, .inl (UInt32.not_lt.mp hlt)⟩

theorem roundUpPow2_spec (x : UInt32) :
    Sized (roundUpPow2 x) ∧ (x ≤ roundUpPow2 x ∨ roundUpPow2 x = hashMaxBuckets) := by
  unfold roundUpPow2
  split_ifs with h
  · exact ⟨⟨28, by omega, by omega, rfl⟩, .inr rfl⟩
  · exact roundUpFrom_spec (j := 3) rfl (by omega) (by omega) (by omega)

/-! ### What a table holds -/

variable {α : Type*}

def HashTable.bucketOf (t : HashTable α) (e : α) : ℕ :=
  (hashBucket t.bucketCount (t.signature e)).toNat

/-- An open table with directory `dir` holds the entries of `m` under their signatures. -/
structure Sound (t : HashTable α) (dir : ℕ → Option α) (m : Multiset (α × UInt64)) : Prop where
  opened : t.directory = some dir
  size : Sized t.bucketCount
  nodup : (m.map Prod.fst).Nodup
  signed : ∀ p ∈ m, t.signature p.1 = p.2
  chained : Chain.Bucketed t.next dir t.bucketOf {e | e ∈ m.map Prod.fst}
  counted : t.numEntries.toNat = m.card

variable {t : HashTable α} {dir : ℕ → Option α} {m : Multiset (α × UInt64)} {e : α}
  {signature : UInt64} {allocate : UInt32 → Bool}

theorem Sound.mem_iff (h : Sound t dir m) {s : UInt64} :
    (e, s) ∈ m ↔ e ∈ m.map Prod.fst ∧ t.signature e = s := by
  constructor
  · intro hm
    exact ⟨Multiset.mem_map_of_mem Prod.fst hm, h.signed _ hm⟩
  · rintro ⟨he, rfl⟩
    obtain ⟨p, hp, rfl⟩ := Multiset.mem_map.mp he
    rw [h.signed p hp]
    exact hp

theorem card_le [Fintype α] (hnodup : (m.map Prod.fst).Nodup) : m.card ≤ Fintype.card α := by
  have hle := Finset.card_le_univ (⟨m.map Prod.fst, hnodup⟩ : Finset α)
  rwa [Finset.card_mk, Multiset.card_map] at hle

theorem rtlInitialize_spec (t : HashTable α) (allocate : UInt32 → Bool) (initial : UInt32) :
    (∃ dir, rtlInitializeDynamicHashTable t allocate initial =
        ((rtlInitializeDynamicHashTable t allocate initial).1, 0) ∧
      Sound (rtlInitializeDynamicHashTable t allocate initial).1 dir 0) ∨
    rtlInitializeDynamicHashTable t allocate initial = (t, -1) := by
  unfold rtlInitializeDynamicHashTable
  set buckets := roundUpPow2 (if initial ≠ 0 then initial else hashDefaultBuckets) with hb
  cases hgranted : allocate (dirBytes buckets) with
  | false =>
    right
    simp [hgranted]
  | true =>
    left
    refine ⟨fun _ => none, by simp [hgranted], ?_⟩
    simp only [hgranted, if_true]
    refine ⟨rfl, hb ▸ (roundUpPow2_spec _).1, by simp, by simp, ?_, rfl⟩
    have hempty : {e : α | e ∈ (0 : Multiset (α × UInt64)).map Prod.fst} = ∅ := by
      ext e
      simp
    rw [hempty]
    exact Chain.bucketed_empty _ _

theorem rtlDelete_spec (t : HashTable α) : (rtlDeleteDynamicHashTable t).directory = none := by
  unfold rtlDeleteDynamicHashTable
  cases h : t.directory with
  | none => exact h
  | some dir => rfl

variable [DecidableEq α] [Fintype α]

theorem hashResize_spec (h : Sound t dir m) (allocate : UInt32 → Bool) {want : UInt32}
    (hwant : Sized want) : ∃ dir', Sound (hashResize t dir allocate want).1 dir' m := by
  unfold hashResize
  split_ifs with hsame hgranted
  · exact ⟨dir, h⟩
  · have hold : ∀ b ∈ List.range t.bucketCount.toNat, ∃ l, Chain.Linked t.next (dir b) l ∧
        l.length ≤ Fintype.card α ∧
        ∀ e, e ∈ l ↔ e ∈ {e | e ∈ m.map Prod.fst} ∧ t.bucketOf e = b := by
      intro b _
      obtain ⟨l, hl, hmem⟩ := h.chained b
      exact ⟨l, hl, Chain.linked_length_le hl, hmem⟩
    have hempty := Chain.bucketed_empty t.next fun e => (hashBucket want (t.signature e)).toNat
    have hmoved := Chain.rehash_bucketed hold nodup_range hempty
      fun _ _ _ => Set.notMem_empty _
    have hall : {e | (e ∈ {e | e ∈ m.map Prod.fst} ∧
        t.bucketOf e ∈ List.range t.bucketCount.toNat) ∨ e ∈ (∅ : Set α)} =
        {e | e ∈ m.map Prod.fst} := by
      ext e
      have hlt := hashBucket_lt h.size (t.signature e)
      simp only [Set.mem_ofPred_eq, Set.mem_empty_iff_false, or_false, mem_range,
        and_iff_left_iff_imp]
      exact fun _ => hlt
    rw [hall] at hmoved
    exact ⟨_, rfl, hwant, h.nodup, h.signed, hmoved, h.counted⟩
  · exact ⟨dir, h⟩

theorem insert_link (h : Sound t dir m) (hmem : Fintype.card α < 2 ^ 32)
    (he : e ∉ m.map Prod.fst) (signature : UInt64) :
    let b := (hashBucket t.bucketCount signature).toNat
    Sound
      { directory := some (update dir b (some e))
        bucketCount := t.bucketCount
        numEntries := t.numEntries + 1
        next := update t.next e (dir b)
        signature := update t.signature e signature }
      (update dir b (some e)) ((e, signature) ::ₘ m) := by
  intro b
  have hother : ∀ x ∈ m.map Prod.fst,
      update t.signature e signature x = t.signature x := by
    intro x hx
    refine update_of_ne ?_ _ _
    rintro rfl
    exact he hx
  have hnodup : (((e, signature) ::ₘ m).map Prod.fst).Nodup := by
    rw [Multiset.map_cons]
    exact Multiset.nodup_cons.mpr ⟨he, h.nodup⟩
  refine ⟨rfl, h.size, hnodup, ?_, ?_, ?_⟩
  · intro p hp
    rcases Multiset.mem_cons.mp hp with rfl | hp
    · exact update_self ..
    · exact (hother p.1 (Multiset.mem_map_of_mem Prod.fst hp)).trans (h.signed p hp)
  · set t' : HashTable α :=
      { directory := some (update dir b (some e))
        bucketCount := t.bucketCount
        numEntries := t.numEntries + 1
        next := update t.next e (dir b)
        signature := update t.signature e signature }
    have hb : t'.bucketOf e = b := by
      show (hashBucket t.bucketCount (update t.signature e signature e)).toNat = b
      rw [update_self]
    have hbuckets : ∀ x ∈ {x | x ∈ m.map Prod.fst}, t'.bucketOf x = t.bucketOf x := fun x hx =>
      congrArg (fun s => (hashBucket t.bucketCount s).toNat) (hother x hx)
    have hpush := Chain.Bucketed.push (h.chained.congr (fun _ _ => rfl) hbuckets)
      (a := e) (fun hm => he hm)
    rw [hb] at hpush
    have hset : {x | x ∈ ((e, signature) ::ₘ m).map Prod.fst} =
        insert e {x | x ∈ m.map Prod.fst} := by
      ext x
      simp only [Multiset.map_cons, Multiset.mem_cons, Set.mem_ofPred_eq, Set.mem_insert_iff]
    rw [hset]
    exact hpush
  · have hcard := card_le hnodup
    rw [Multiset.card_cons] at hcard ⊢
    show (t.numEntries + 1).toNat = _
    have h1 : (1 : UInt32).toNat = 1 := rfl
    rw [UInt32.toNat_add, h.counted, h1]
    apply mod_eq_of_lt
    omega

theorem rtlInsert_spec (h : Sound t dir m) (hmem : Fintype.card α < 2 ^ 32)
    (he : e ∉ m.map Prod.fst) (signature : UInt64) (allocate : UInt32 → Bool) :
    (rtlInsertEntryHashTable t allocate e signature).2 = 0 ∧
      ∃ dir', Sound (rtlInsertEntryHashTable t allocate e signature).1 dir'
        ((e, signature) ::ₘ m) := by
  have hlinked := insert_link h hmem he signature
  simp only [rtlInsertEntryHashTable, h.opened]
  split_ifs with hfull hwant
  · exact ⟨rfl, hashResize_spec hlinked allocate (h.size.double hfull.2)⟩
  · exact ⟨rfl, _, hlinked⟩
  · exact ⟨rfl, _, hlinked⟩

/-- A walk over the entries of a signature, with those of `post` still ahead of it. -/
structure Ahead (t : HashTable α) (dir : ℕ → Option α) (ctx : Context α) (post : List α) :
    Prop where
  split : ∃ pre, Chain.Linked t.next (dir (hashBucket t.bucketCount ctx.signature).toNat)
    (pre ++ post)
  cached : ctx.nextEntry = post.head?

theorem rtlRemove_absent (h : Sound t dir m) (he : e ∉ m.map Prod.fst) :
    rtlRemoveEntryHashTable t e = (t, false) := by
  have hnone : Chain.remove t.next (Fintype.card α)
      (dir (hashBucket t.bucketCount (t.signature e)).toNat) e = none :=
    h.chained.remove_none he _
  simp only [rtlRemoveEntryHashTable, h.opened, hnone]

theorem rtlRemove_present (h : Sound t dir m) (he : e ∈ m.map Prod.fst) :
    (rtlRemoveEntryHashTable t e).2 = true ∧
      (rtlRemoveEntryHashTable t e).1.signature = t.signature ∧
      ∃ dir', Sound (rtlRemoveEntryHashTable t e).1 dir' (m.filter fun p => p.1 ≠ e) ∧
        ∀ ctx post, Ahead t dir ctx post → e ∉ post →
          Ahead (rtlRemoveEntryHashTable t e).1 dir' ctx post := by
  obtain ⟨head, next, hremove, hchained, hown, hframe⟩ :=
    h.chained.remove (a := e) he (Nat.le_refl _)
  have hbucket : t.bucketOf e = (hashBucket t.bucketCount (t.signature e)).toNat := rfl
  simp only [rtlRemoveEntryHashTable, h.opened, ← hbucket, hremove]
  have hfst : (m.filter fun p => p.1 ≠ e).map Prod.fst = (m.map Prod.fst).filter (· ≠ e) := by
    rw [Multiset.filter_map]
    rfl
  have hset : {x | x ∈ (m.filter fun p => p.1 ≠ e).map Prod.fst} =
      {x | x ∈ m.map Prod.fst} \ {e} := by
    ext x
    simp only [hfst, Multiset.mem_filter, Set.mem_ofPred_eq, Set.mem_sdiff,
      Set.mem_singleton_iff]
  refine ⟨trivial, trivial, update dir (t.bucketOf e) head, ?_, ?_⟩
  · refine ⟨rfl, h.size, ?_, fun p hp => h.signed p (Multiset.mem_of_mem_filter hp), ?_, ?_⟩
    · rw [hfst]
      exact h.nodup.filter _
    · rw [hset]
      exact hchained.update_link (fun hm => hm.2 rfl) none
    · have hone : (m.filter fun p => p.1 = e).card = 1 := by
        have hcount := Multiset.count_eq_one_of_mem h.nodup he
        rwa [Multiset.count_map, Multiset.filter_congr fun p _ => eq_comm] at hcount
      have hsplit := congrArg Multiset.card (Multiset.filter_add_not (fun p => p.1 = e) m)
      rw [Multiset.card_add, hone] at hsplit
      have h1 : (1 : UInt32).toNat = 1 := rfl
      have hle : (1 : UInt32) ≤ t.numEntries := by
        show 1 ≤ t.numEntries.toNat
        rw [h.counted]
        omega
      show (t.numEntries - 1).toNat = _
      rw [UInt32.toNat_sub_of_le _ _ hle, h.counted, h1]
      simp only [ne_eq]
      omega
  · rintro ctx post ⟨⟨pre, hwalk⟩, hcached⟩ hpost
    refine ⟨?_, hcached⟩
    rcases eq_or_ne (hashBucket t.bucketCount ctx.signature).toNat (t.bucketOf e) with hb | hb
    · -- the walk is over the chain of the entry, which lies behind it
      rw [hb] at hwalk
      have hpre : e ∈ pre := by
        have hmem := (h.chained.mem hwalk).mpr ⟨he, rfl⟩
        exact (mem_append.mp hmem).resolve_right hpost
      have hleft := hown _ hwalk
      have hgone : e ∉ (pre ++ post).erase e := (Chain.linked_nodup hwalk).not_mem_erase
      refine ⟨pre.erase e, ?_⟩
      dsimp only
      rw [hb, update_self, ← erase_append_left _ hpre]
      exact Chain.linked_update hleft hgone none
    · have hother : ∀ x ∈ pre ++ post, t.bucketOf x ≠ t.bucketOf e := by
        intro x hx
        rw [((h.chained.mem hwalk).mp hx).2]
        exact hb
      refine ⟨pre, ?_⟩
      dsimp only
      rw [update_of_ne hb]
      exact Chain.linked_update (Chain.linked_congr hwalk fun x hx => hframe x (hother x hx))
        (fun hx => hother e hx rfl) none

section Lookup

variable {ctx : Context α} {post : List α}

/-- The entries a walk has still to return. -/
def withSig (t : HashTable α) (sig : UInt64) (post : List α) : List α :=
  post.filter fun e => t.signature e == sig

omit [DecidableEq α] in
theorem search_spec {sig : UInt64} {start : Option α} {pre : List α} {b : ℕ}
    (hl : Chain.Linked t.next (dir b) (pre ++ post)) (hstart : start = post.head?) :
    (Chain.findFrom t.next (fun e => t.signature e == sig) (Fintype.card α) start = none ∧
      withSig t sig post = []) ∨
    ∃ e pre' post',
      Chain.findFrom t.next (fun e => t.signature e == sig) (Fintype.card α) start = some e ∧
      pre ++ post = pre' ++ post' ∧ t.next e = post'.head? ∧ e ∉ post' ∧
      withSig t sig post = e :: withSig t sig post' := by
  have hpost := Chain.linked_suffix hl
  have hlen := Chain.linked_length_le hpost
  rw [hstart, Chain.findFrom_eq hpost hlen]
  cases hfind : post.find? fun e => t.signature e == sig with
  | none =>
    left
    rw [find?_eq_none] at hfind
    exact ⟨rfl, filter_eq_nil_iff.mpr hfind⟩
  | some e =>
    right
    obtain ⟨hmatch, l₁, l₂, rfl, hbefore⟩ := List.find?_eq_some_iff_append.mp hfind
    have hnodup := Chain.linked_nodup hl
    have hsuffix : Chain.Linked t.next (some e) (e :: l₂) :=
      Chain.linked_drop (by rwa [← append_assoc] at hl)
    have htail := Chain.linked_head hsuffix.2
    refine ⟨e, pre ++ l₁ ++ [e], l₂, rfl, by simp, htail, ?_, ?_⟩
    · rw [nodup_append, nodup_append] at hnodup
      exact (nodup_cons.mp hnodup.2.1.2.1).1
    · have hskip : l₁.filter (fun e => t.signature e == sig) = [] := by
        rw [filter_eq_nil_iff]
        intro x hx hsig
        have := hbefore x hx
        simp [hsig] at this
      rw [withSig, filter_append, hskip, nil_append]
      exact filter_cons_of_pos hmatch

omit [DecidableEq α] in
theorem rtlGetNext_spec (h : Ahead t dir ctx post) :
    ((rtlGetNextEntryHashTable t ctx).1 = none ∧ withSig t ctx.signature post = []) ∨
    ∃ e post', (rtlGetNextEntryHashTable t ctx).1 = some e ∧
      Ahead t dir (rtlGetNextEntryHashTable t ctx).2 post' ∧ e ∉ post' ∧
      (rtlGetNextEntryHashTable t ctx).2.signature = ctx.signature ∧
      withSig t ctx.signature post = e :: withSig t ctx.signature post' := by
  obtain ⟨⟨pre, hl⟩, hcached⟩ := h
  unfold rtlGetNextEntryHashTable
  obtain ⟨hfind, hnil⟩ | ⟨e, pre', post', hfind, hsplit, htail, he, hcons⟩ :=
    @search_spec _ _ _ _ _ ctx.signature _ _ _ hl hcached
  · left
    rw [hfind]
    exact ⟨rfl, hnil⟩
  · right
    rw [hfind]
    exact ⟨e, post', rfl, ⟨⟨pre', hsplit ▸ hl⟩, htail⟩, he, rfl, hcons⟩

omit [DecidableEq α] in
theorem rtlLookup_spec (h : Sound t dir m) (signature : UInt64) (ctx : Context α) :
    ∃ l, Chain.Linked t.next (dir (hashBucket t.bucketCount signature).toNat) l ∧
      (((rtlLookupEntryHashTable t signature ctx).1 = none ∧ withSig t signature l = []) ∨
      ∃ e post, (rtlLookupEntryHashTable t signature ctx).1 = some e ∧
        Ahead t dir (rtlLookupEntryHashTable t signature ctx).2 post ∧ e ∉ post ∧
        (rtlLookupEntryHashTable t signature ctx).2.signature = signature ∧
        withSig t signature l = e :: withSig t signature post) := by
  obtain ⟨l, hl, -⟩ := h.chained (hashBucket t.bucketCount signature).toNat
  refine ⟨l, hl, ?_⟩
  simp only [rtlLookupEntryHashTable, h.opened]
  obtain ⟨hfind, hnil⟩ | ⟨e, pre, post, hfind, hsplit, htail, he, hcons⟩ :=
    @search_spec _ _ _ _ _ signature _ [] _ hl (Chain.linked_head hl)
  · left
    rw [hfind]
    exact ⟨rfl, hnil⟩
  · right
    rw [hfind]
    exact ⟨e, post, rfl, ⟨⟨pre, hsplit ▸ hl⟩, htail⟩, he, rfl, hcons⟩

end Lookup

end ImpossibleOs.Ex.Hash
