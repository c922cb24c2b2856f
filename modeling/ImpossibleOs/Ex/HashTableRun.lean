import ImpossibleOs.Ex.HashTableSpec
import ImpossibleOs.Lib.Refine
import Mathlib.Data.Multiset.Bind

/-!
Runs of the hash table, and walks over the entries of one signature.

A run may open, fill, empty and delete the table in any order, and every new directory may be
refused. Callers write the fields of their entries as they like while these are not in the table;
an entry that is in it is not inserted again.
-/

namespace ImpossibleOs.Ex.Hash

open Function List

variable {α : Type*} [DecidableEq α] [Fintype α]

def HashTable.chain (t : HashTable α) (b : ℕ) : List α :=
  match t.directory with
  | none => []
  | some dir => Chain.nodes t.next (Fintype.card α) (dir b)

/-- All entries with their signatures. -/
def HashTable.stored (t : HashTable α) : Multiset (α × UInt64) :=
  ((List.range t.bucketCount.toNat).flatMap fun b =>
    (t.chain b).map fun e => (e, t.signature e) : List (α × UInt64))

section

variable {t : HashTable α} {dir : ℕ → Option α} {m : Multiset (α × UInt64)} {e : α}

omit [DecidableEq α] in
theorem Sound.mem_chain (h : Sound t dir m) {b : ℕ} :
    e ∈ t.chain b ↔ e ∈ m.map Prod.fst ∧ t.bucketOf e = b := by
  obtain ⟨l, hl, hmem⟩ := h.chained b
  have hnodes := Chain.nodes_eq hl (Chain.linked_length_le hl)
  rw [HashTable.chain, h.opened]
  simp only [hnodes, hmem, Set.mem_ofPred_eq]

omit [DecidableEq α] in
theorem Sound.chain_nodup (h : Sound t dir m) (b : ℕ) : (t.chain b).Nodup := by
  obtain ⟨l, hl, -⟩ := h.chained b
  have hnodes := Chain.nodes_eq hl (Chain.linked_length_le hl)
  rw [HashTable.chain, h.opened]
  simp only [hnodes]
  exact Chain.linked_nodup hl

omit [DecidableEq α] in
theorem Sound.stored_eq (h : Sound t dir m) : t.stored = m := by
  have hnodup : ((List.range t.bucketCount.toNat).flatMap fun b =>
      (t.chain b).map fun e => (e, t.signature e)).Nodup := by
    rw [nodup_flatMap]
    refine ⟨fun b _ => ?_, ?_⟩
    · exact (h.chain_nodup b).map fun x y hxy => (Prod.mk.inj hxy).1
    · refine nodup_range.imp fun {a b} hab => ?_
      rintro p hpa hpb
      obtain ⟨x, hx, rfl⟩ := mem_map.mp hpa
      obtain ⟨y, hy, hxy⟩ := mem_map.mp hpb
      obtain rfl : y = x := (Prod.mk.inj hxy).1
      exact hab ((h.mem_chain.mp hx).2.symm.trans (h.mem_chain.mp hy).2)
  refine (Multiset.Nodup.ext (Multiset.coe_nodup.mpr hnodup) h.nodup.of_map).mpr ?_
  rintro ⟨e, s⟩
  rw [Multiset.mem_coe, mem_flatMap, h.mem_iff]
  constructor
  · rintro ⟨b, -, hb⟩
    obtain ⟨x, hx, hxe⟩ := mem_map.mp hb
    obtain ⟨rfl, rfl⟩ := Prod.mk.inj hxe
    exact ⟨(h.mem_chain.mp hx).1, rfl⟩
  · rintro ⟨he, rfl⟩
    refine ⟨t.bucketOf e, mem_range.mpr (hashBucket_lt h.size _), ?_⟩
    exact mem_map.mpr ⟨e, h.mem_chain.mpr ⟨he, rfl⟩, rfl⟩

end

/-! ### Walks -/

/-- Remove the entry if `drop` says so. -/
def dropEntry (drop : α → Bool) (t : HashTable α) (e : α) : HashTable α :=
  if drop e then (rtlRemoveEntryHashTable t e).1 else t

/-- Get-next until it returns `NULL`, where a returned entry may be dropped before the next call;
`none` when `turns` calls are too few. -/
def getRest (drop : α → Bool) : ℕ → HashTable α → Context α → Option (List α × HashTable α)
  | 0, _, _ => none
  | turns + 1, t, ctx =>
    match rtlGetNextEntryHashTable t ctx with
    | (none, _) => some ([], t)
    | (some e, ctx') =>
      (getRest drop turns (dropEntry drop t e) ctx').map fun p => (e :: p.1, p.2)

/-- A lookup followed by get-next until it returns `NULL`. -/
def getAll (drop : α → Bool) (turns : ℕ) (t : HashTable α) (signature : UInt64)
    (ctx : Context α) : Option (List α × HashTable α) :=
  match rtlLookupEntryHashTable t signature ctx with
  | (none, _) => some ([], t)
  | (some e, ctx') =>
    (getRest drop turns (dropEntry drop t e) ctx').map fun p => (e :: p.1, p.2)

section

variable {t : HashTable α} {dir : ℕ → Option α} {m : Multiset (α × UInt64)} {e : α}
  {drop : α → Bool} {ctx : Context α} {post : List α} {turns : ℕ}

/-- What is left of `m` after a walk that returned `es`. -/
def kept (drop : α → Bool) (es : List α) (m : Multiset (α × UInt64)) : Multiset (α × UInt64) :=
  m.filter fun p => ¬(p.1 ∈ es ∧ drop p.1)

omit [Fintype α] in
theorem kept_nil (drop : α → Bool) (m : Multiset (α × UInt64)) : kept drop [] m = m := by
  simp [kept]

omit [Fintype α] in
theorem kept_cons (drop : α → Bool) (e : α) (es : List α) (m : Multiset (α × UInt64)) :
    kept drop (e :: es) m = kept drop es (kept drop [e] m) := by
  rw [kept, kept, kept, Multiset.filter_filter]
  refine Multiset.filter_congr fun p _ => ?_
  simp only [mem_cons, not_mem_nil, or_false]
  tauto

theorem dropEntry_spec (drop : α → Bool) (h : Sound t dir m) (he : e ∈ m.map Prod.fst) :
    (dropEntry drop t e).signature = t.signature ∧
      ∃ dir', Sound (dropEntry drop t e) dir' (kept drop [e] m) ∧
        ∀ ctx post, Ahead t dir ctx post → e ∉ post → Ahead (dropEntry drop t e) dir' ctx post := by
  unfold dropEntry
  cases hdrop : drop e with
  | true =>
    have hkept : kept drop [e] m = m.filter fun p => p.1 ≠ e := by
      refine Multiset.filter_congr fun p _ => ?_
      rw [mem_singleton, not_and]
      refine ⟨fun hp hpe => hp hpe (hpe ▸ hdrop), fun hp hpe => absurd hpe hp⟩
    simp only [if_true, hkept]
    exact (rtlRemove_present h he).2
  | false =>
    have hkept : kept drop [e] m = m := by
      refine Multiset.filter_eq_self.mpr fun p _ => ?_
      rw [mem_singleton]
      rintro ⟨rfl, hp⟩
      exact Bool.noConfusion (hp.symm.trans hdrop)
    rw [hkept]
    exact ⟨rfl, dir, h, fun _ _ ha _ => ha⟩

omit [DecidableEq α] [Fintype α] in
theorem Ahead.mem (ha : Ahead t dir ctx post) (h : Sound t dir m) (he : e ∈ post) :
    e ∈ m.map Prod.fst := by
  obtain ⟨pre, hl⟩ := ha.split
  exact ((h.chained.mem hl).mp (mem_append_right pre he)).1

omit [DecidableEq α] [Fintype α] in
theorem withSig_congr {t' : HashTable α} (h : t'.signature = t.signature) (sig : UInt64)
    (post : List α) : withSig t' sig post = withSig t sig post := by
  rw [withSig, withSig, h]

theorem getRest_spec (h : Sound t dir m) (ha : Ahead t dir ctx post)
    (hturns : (withSig t ctx.signature post).length < turns) :
    ∃ t' dir', getRest drop turns t ctx = some (withSig t ctx.signature post, t') ∧
      Sound t' dir' (kept drop (withSig t ctx.signature post) m) := by
  induction turns generalizing t dir m ctx post with
  | zero => omega
  | succ turns ih =>
    obtain ⟨hnone, hnil⟩ | ⟨e, post', hsome, ha', he, hsig, hcons⟩ := rtlGetNext_spec ha
    · have hnext : rtlGetNextEntryHashTable t ctx = (none, (rtlGetNextEntryHashTable t ctx).2) :=
        Prod.ext hnone rfl
      rw [hnil, kept_nil]
      refine ⟨t, dir, ?_, h⟩
      rw [getRest, hnext]
    · have hnext : rtlGetNextEntryHashTable t ctx =
          (some e, (rtlGetNextEntryHashTable t ctx).2) := Prod.ext hsome rfl
      have hein : e ∈ post := mem_of_mem_filter
        (p := fun e => t.signature e == ctx.signature)
        (by rw [show post.filter _ = _ from hcons]; exact mem_cons_self)
      obtain ⟨hsame, dir₁, hsound, hahead⟩ := dropEntry_spec drop h (ha.mem h hein)
      have hrest := withSig_congr hsame ctx.signature post'
      obtain ⟨t', dir', hrun, hsound'⟩ := ih hsound (hahead _ _ ha' he) (by
        rw [hsig, hrest]
        rw [hcons, length_cons] at hturns
        omega)
      rw [hsig, hrest] at hrun hsound'
      refine ⟨t', dir', ?_, ?_⟩
      · rw [getRest, hnext]
        simp only [hrun, Option.map_some, hcons]
      · rw [hcons, kept_cons]
        exact hsound'

theorem getAll_spec (h : Sound t dir m) (drop : α → Bool) (signature : UInt64)
    (ctx : Context α) (hturns : Fintype.card α < turns) :
    ∃ es t' dir', getAll drop turns t signature ctx = some (es, t') ∧
      (es : Multiset α) = (m.filter fun p => p.2 = signature).map Prod.fst ∧
      Sound t' dir' (kept drop es m) := by
  obtain ⟨l, hl, hcase⟩ := rtlLookup_spec h signature ctx
  have hes : ((withSig t signature l : List α) : Multiset α) =
      (m.filter fun p => p.2 = signature).map Prod.fst := by
    have hnodup : (withSig t signature l).Nodup := (Chain.linked_nodup hl).filter _
    refine (Multiset.Nodup.ext (Multiset.coe_nodup.mpr hnodup) ?_).mpr fun e => ?_
    · exact Multiset.nodup_of_le (Multiset.map_le_map (Multiset.filter_le _ m)) h.nodup
    · simp only [withSig, Multiset.mem_coe, mem_filter, h.chained.mem hl, beq_iff_eq,
        Multiset.mem_map, Multiset.mem_filter, Set.mem_ofPred_eq]
      constructor
      · rintro ⟨⟨⟨p, hp, rfl⟩, -⟩, hsig⟩
        exact ⟨p, ⟨hp, (h.signed p hp).symm.trans hsig⟩, rfl⟩
      · rintro ⟨p, ⟨hp, hsig⟩, rfl⟩
        have hp1 := (h.signed p hp).trans hsig
        refine ⟨⟨⟨p, hp, rfl⟩, ?_⟩, hp1⟩
        rw [HashTable.bucketOf, hp1]
  have hlen : (withSig t signature l).length ≤ Fintype.card α :=
    (length_filter_le _ _).trans (Chain.linked_length_le hl)
  obtain ⟨hnone, hnil⟩ | ⟨e, post, hsome, ha, he, hsig, hcons⟩ := hcase
  · have hlookup : rtlLookupEntryHashTable t signature ctx =
        (none, (rtlLookupEntryHashTable t signature ctx).2) := Prod.ext hnone rfl
    refine ⟨[], t, dir, ?_, hnil ▸ hes, ?_⟩
    · rw [getAll, hlookup]
    · rw [kept_nil]
      exact h
  · have hlookup : rtlLookupEntryHashTable t signature ctx =
        (some e, (rtlLookupEntryHashTable t signature ctx).2) := Prod.ext hsome rfl
    have hein : e ∈ m.map Prod.fst := by
      have hm : e ∈ withSig t signature l := hcons ▸ mem_cons_self
      exact ((h.chained.mem hl).mp (mem_of_mem_filter hm)).1
    obtain ⟨hsame, dir₁, hsound, hahead⟩ := dropEntry_spec drop h hein
    have hrest := withSig_congr hsame signature post
    rw [hcons, length_cons] at hlen
    obtain ⟨t', dir', hrun, hsound'⟩ := @getRest_spec _ _ _ _ _ _ drop _ _ turns hsound
      (hahead _ _ ha he) (by
        rw [hsig, hrest]
        omega)
    rw [hsig, hrest] at hrun hsound'
    refine ⟨e :: withSig t signature post, t', dir', ?_, hcons ▸ hes, ?_⟩
    · rw [getAll, hlookup]
      simp only [hrun, Option.map_some]
    · rw [kept_cons]
      exact hsound'

end

/-! ### Runs -/

/-- The calls, each with the answers of the allocation routine; `write` is a caller that writes
the fields of an entry of its own. -/
inductive Call (α : Type*)
  | setUp (allocate : UInt32 → Bool) (initialBuckets : UInt32)
  | insert (allocate : UInt32 → Bool) (entry : α) (signature : UInt64)
  | remove (entry : α)
  | lookup (signature : UInt64) (ctx : Context α)
  | getNext (ctx : Context α)
  | numberOfEntries
  | delete
  | write (entry : α) (next : Option α) (signature : UInt64)

inductive Answer (α : Type*)
  | status (r : Int)
  | removed (b : Bool)
  | found (e : Option α) (ctx : Context α)
  | number (n : UInt32)
  | done

def exec (t : HashTable α) : Call α → HashTable α × Answer α
  | .setUp allocate initial =>
    let r := rtlInitializeDynamicHashTable t allocate initial
    (r.1, .status r.2)
  | .insert allocate entry signature =>
    let r := rtlInsertEntryHashTable t allocate entry signature
    (r.1, .status r.2)
  | .remove entry =>
    let r := rtlRemoveEntryHashTable t entry
    (r.1, .removed r.2)
  | .lookup signature ctx =>
    let r := rtlLookupEntryHashTable t signature ctx
    (t, .found r.1 r.2)
  | .getNext ctx =>
    let r := rtlGetNextEntryHashTable t ctx
    (t, .found r.1 r.2)
  | .numberOfEntries => (t, .number (rtlNumberOfEntriesHashTable t))
  | .delete => (rtlDeleteDynamicHashTable t, .done)
  | .write entry next signature =>
    ({ t with
        next := update t.next entry next
        signature := update t.signature entry signature }, .done)

/-- The entry that is inserted or written to is not in the table. -/
def Fresh (t : HashTable α) : Call α → Prop
  | .insert _ entry _ | .write entry _ _ => entry ∉ t.stored.map Prod.fst
  | _ => True

instance (t : HashTable α) : (i : Call α) → Decidable (Fresh t i)
  | .insert _ entry _ | .write entry _ _ =>
    inferInstanceAs (Decidable (entry ∉ t.stored.map Prod.fst))
  | .setUp _ _ | .remove _ | .lookup _ _ | .getNext _ | .numberOfEntries | .delete =>
    inferInstanceAs (Decidable True)

/-- The abstract table: `none` when it has no directory. -/
abbrev Contents (α : Type*) := Option (Multiset (α × UInt64))

/-- What a call does to the abstract table, and what it may answer. -/
inductive Step : Contents α → Call α → Answer α → Contents α → Prop
  | opened {c : Contents α} {allocate : UInt32 → Bool} {initial : UInt32} :
      Step c (.setUp allocate initial) (.status 0) (some 0)
  | refused {c : Contents α} {allocate : UInt32 → Bool} {initial : UInt32} :
      Step c (.setUp allocate initial) (.status (-1)) c
  | inserted {m : Multiset (α × UInt64)} {allocate : UInt32 → Bool} {e : α} {s : UInt64} :
      Step (some m) (.insert allocate e s) (.status 0) (some ((e, s) ::ₘ m))
  | notInserted {allocate : UInt32 → Bool} {e : α} {s : UInt64} :
      Step none (.insert allocate e s) (.status (-1)) none
  | removed {m : Multiset (α × UInt64)} {e : α} (he : e ∈ m.map Prod.fst) :
      Step (some m) (.remove e) (.removed true) (some (m.filter fun p => p.1 ≠ e))
  | notRemoved {c : Contents α} {e : α} (he : ∀ m, c = some m → e ∉ m.map Prod.fst) :
      Step c (.remove e) (.removed false) c
  | found {m : Multiset (α × UInt64)} {e : α} {s : UInt64} {ctx ctx' : Context α}
      (he : (e, s) ∈ m) : Step (some m) (.lookup s ctx) (.found (some e) ctx') (some m)
  | notFound {c : Contents α} {s : UInt64} {ctx ctx' : Context α}
      (hs : ∀ m, c = some m → ∀ e, (e, s) ∉ m) :
      Step c (.lookup s ctx) (.found none ctx') c
  | next {c : Contents α} {e : Option α} {ctx ctx' : Context α} :
      Step c (.getNext ctx) (.found e ctx') c
  | counted {m : Multiset (α × UInt64)} {n : UInt32} (hn : n.toNat = m.card) :
      Step (some m) .numberOfEntries (.number n) (some m)
  | countedNone : Step none .numberOfEntries (.number 0) none
  | deleted {c : Contents α} : Step c .delete .done none
  | written {c : Contents α} {e : α} {next : Option α} {s : UInt64} :
      Step c (.write e next s) .done c

/-- The table has the directory and the entries that the abstract table says. -/
def Represents (t : HashTable α) : Contents α → Prop
  | none => t.directory = none ∧ t.numEntries = 0
  | some m => ∃ dir, Sound t dir m

section

variable {t : HashTable α} {c : Contents α}

omit [DecidableEq α] [Fintype α] in
theorem represents_closed (h : t.directory = none) (hr : Represents t c) : c = none := by
  cases c with
  | none => rfl
  | some m =>
    obtain ⟨dir, hs⟩ := hr
    cases h.symm.trans hs.opened

theorem setUp_step (hr : Represents t c) (allocate : UInt32 → Bool) (initial : UInt32) :
    ∃ c', Step c (.setUp allocate initial) (exec t (.setUp allocate initial)).2 c' ∧
      Represents (exec t (.setUp allocate initial)).1 c' := by
  simp only [exec]
  obtain ⟨dir, hres, hs⟩ | hres := rtlInitialize_spec t allocate initial
  · rw [hres] at hs ⊢
    exact ⟨some 0, .opened, dir, hs⟩
  · rw [hres]
    exact ⟨c, .refused, hr⟩

theorem insert_step (hmem : Fintype.card α < 2 ^ 32) (hr : Represents t c)
    (allocate : UInt32 → Bool) (e : α) (s : UInt64) (he : e ∉ t.stored.map Prod.fst) :
    ∃ c', Step c (.insert allocate e s) (exec t (.insert allocate e s)).2 c' ∧
      Represents (exec t (.insert allocate e s)).1 c' := by
  simp only [exec]
  cases c with
  | none =>
    have hres : rtlInsertEntryHashTable t allocate e s = (t, -1) := by
      simp only [rtlInsertEntryHashTable, hr.1]
    rw [hres]
    exact ⟨none, .notInserted, hr⟩
  | some m =>
    obtain ⟨dir, hs⟩ := hr
    rw [hs.stored_eq] at he
    obtain ⟨hstatus, hsound⟩ := rtlInsert_spec hs hmem he s allocate
    rw [hstatus]
    exact ⟨_, .inserted, hsound⟩

theorem remove_step (hr : Represents t c) (e : α) :
    ∃ c', Step c (.remove e) (exec t (.remove e)).2 c' ∧ Represents (exec t (.remove e)).1 c' := by
  simp only [exec]
  cases c with
  | none =>
    have hres : rtlRemoveEntryHashTable t e = (t, false) := by
      simp only [rtlRemoveEntryHashTable, hr.1]
    rw [hres]
    exact ⟨none, .notRemoved (by rintro _ ⟨⟩), hr⟩
  | some m =>
    obtain ⟨dir, hs⟩ := hr
    rcases em (e ∈ m.map Prod.fst) with he | he
    · obtain ⟨hbool, -, dir', hsound, -⟩ := rtlRemove_present hs he
      rw [hbool]
      exact ⟨_, .removed he, dir', hsound⟩
    · rw [rtlRemove_absent hs he]
      refine ⟨some m, .notRemoved ?_, dir, hs⟩
      rintro m' ⟨⟩
      exact he

theorem lookup_step (hr : Represents t c) (s : UInt64) (ctx : Context α) :
    Step c (.lookup s ctx) (exec t (.lookup s ctx)).2 c := by
  simp only [exec]
  cases c with
  | none =>
    have hres : rtlLookupEntryHashTable t s ctx = (none, ctx) := by
      simp only [rtlLookupEntryHashTable, hr.1]
    rw [hres]
    exact .notFound (by rintro _ ⟨⟩)
  | some m =>
    obtain ⟨dir, hs⟩ := hr
    obtain ⟨l, hl, ⟨hnone, hnil⟩ | ⟨e, post, hsome, -, -, -, hcons⟩⟩ := rtlLookup_spec hs s ctx
    · rw [hnone]
      refine .notFound ?_
      rintro m' ⟨⟩ e he
      obtain ⟨hin, hsig⟩ := hs.mem_iff.mp he
      have hel : e ∈ l := (hs.chained.mem hl).mpr ⟨hin, by rw [HashTable.bucketOf, hsig]⟩
      have hm : e ∈ withSig t s l := mem_filter.mpr ⟨hel, beq_iff_eq.mpr hsig⟩
      rw [hnil] at hm
      cases hm
    · rw [hsome]
      have hm : e ∈ withSig t s l := hcons ▸ mem_cons_self
      obtain ⟨hel, hsig⟩ := mem_filter.mp hm
      exact .found (hs.mem_iff.mpr ⟨((hs.chained.mem hl).mp hel).1, beq_iff_eq.mp hsig⟩)

theorem write_step (hr : Represents t c) (e : α) (next : Option α) (s : UInt64)
    (he : e ∉ t.stored.map Prod.fst) : Represents (exec t (.write e next s)).1 c := by
  cases c with
  | none => exact hr
  | some m =>
    obtain ⟨dir, hs⟩ := hr
    rw [hs.stored_eq] at he
    have hne : ∀ x ∈ m.map Prod.fst, x ≠ e := by
      rintro x hx rfl
      exact he hx
    have hsig : ∀ x ∈ m.map Prod.fst, update t.signature e s x = t.signature x :=
      fun x hx => update_of_ne (hne x hx) _ _
    refine ⟨dir, hs.opened, hs.size, hs.nodup, fun p hp => ?_, ?_, hs.counted⟩
    · exact (hsig p.1 (Multiset.mem_map_of_mem Prod.fst hp)).trans (hs.signed p hp)
    · exact hs.chained.congr (fun x hx => update_of_ne (hne x hx) _ _)
        fun x hx => congrArg (fun s => (hashBucket t.bucketCount s).toNat) (hsig x hx)

theorem exec_step (hmem : Fintype.card α < 2 ^ 32) (hr : Represents t c) {i : Call α}
    (hi : Fresh t i) : ∃ c', Step c i (exec t i).2 c' ∧ Represents (exec t i).1 c' := by
  cases i with
  | setUp allocate initial => exact setUp_step hr allocate initial
  | insert allocate e s => exact insert_step hmem hr allocate e s hi
  | remove e => exact remove_step hr e
  | lookup s ctx => exact ⟨c, lookup_step hr s ctx, hr⟩
  | getNext ctx => exact ⟨c, .next, hr⟩
  | numberOfEntries =>
    refine ⟨c, ?_, hr⟩
    cases c with
    | none =>
      simp only [exec, rtlNumberOfEntriesHashTable, hr.2]
      exact .countedNone
    | some m =>
      obtain ⟨dir, hs⟩ := hr
      exact .counted hs.counted
  | delete =>
    refine ⟨none, .deleted, rtlDelete_spec t, ?_⟩
    simp only [exec, rtlDeleteDynamicHashTable]
    cases hdir : t.directory with
    | none =>
      obtain rfl := represents_closed hdir hr
      exact hr.2
    | some dir => rfl
  | write e next s => exact ⟨c, .written, write_step hr e next s hi⟩

end

/-- What can be seen of an open table that holds `m`. -/
structure Holds (t : HashTable α) (m : Multiset (α × UInt64)) : Prop where
  stored : t.stored = m
  buckets : ∀ b < t.bucketCount.toNat, ∀ e ∈ t.chain b,
    b = (hashMix (t.signature e)).toNat % t.bucketCount.toNat
  counted : (rtlNumberOfEntriesHashTable t).toNat = m.card
  walks : ∀ (drop : α → Bool) (signature : UInt64) (ctx : Context α) (turns : ℕ),
    Fintype.card α < turns → ∃ es t', getAll drop turns t signature ctx = some (es, t') ∧
      (es : Multiset α) = (m.filter fun p => p.2 = signature).map Prod.fst ∧ es.Nodup ∧
      t'.stored = m.filter fun p => ¬(p.2 = signature ∧ drop p.1)

theorem Sound.holds {t : HashTable α} {dir : ℕ → Option α} {m : Multiset (α × UInt64)}
    (h : Sound t dir m) : Holds t m := by
  refine ⟨h.stored_eq, fun b _ e he => ?_, h.counted, fun drop signature ctx turns hturns => ?_⟩
  · rw [← hashBucket_toNat h.size]
    exact (h.mem_chain.mp he).2.symm
  · obtain ⟨es, t', dir', hrun, hes, hs⟩ := getAll_spec h drop signature ctx hturns
    refine ⟨es, t', hrun, hes, ?_, ?_⟩
    · rw [← Multiset.coe_nodup, hes]
      exact Multiset.nodup_of_le (Multiset.map_le_map (Multiset.filter_le _ m)) h.nodup
    · rw [hs.stored_eq]
      refine Multiset.filter_congr fun p hp => not_congr (and_congr_left fun _ => ?_)
      rw [← Multiset.mem_coe, hes, Multiset.mem_map]
      constructor
      · rintro ⟨q, hq, hqp⟩
        obtain ⟨hqm, hqs⟩ := Multiset.mem_filter.mp hq
        rw [← h.signed p hp, ← hqp, h.signed q hqm, hqs]
      · intro hsig
        exact ⟨p, Multiset.mem_filter.mpr ⟨hp, hsig⟩, rfl⟩

/-- A table that starts without a directory: every run is one of the abstract table, and after it
the table, when it is open, holds what the abstract one does. The 4 GiB of memory have no room for
`2 ^ 32` entries of 16 bytes. -/
theorem hashTable_run (hmem : Fintype.card α < 2 ^ 32) {t : HashTable α}
    (hdir : t.directory = none) (hnum : t.numEntries = 0) {is : List (Call α)}
    (hfresh : Refine.Meets (fun t i => (exec t i).1) Fresh t is) :
    ∃ c, Refine.Runs Step none (Refine.answered exec t is) c ∧
      ∀ m, c = some m → Holds (is.foldl (fun t i => (exec t i).1) t) m := by
  have hstep (t : HashTable α) (c : Contents α) (i : Call α) (hr : Represents t c)
      (hi : Fresh t i) : ∃ c', Step c i (exec t i).2 c' ∧ Represents (exec t i).1 c' :=
    exec_step hmem hr hi
  obtain ⟨c, hruns, hr⟩ := hfresh.simulates Represents hstep (a := none) ⟨hdir, hnum⟩
  refine ⟨c, hruns, ?_⟩
  rintro m rfl
  obtain ⟨dir, hs⟩ := hr
  exact hs.holds

def zeroed : HashTable (Fin 3) where
  directory := none
  bucketCount := 0
  numEntries := 0
  next _ := none
  signature _ := 0

/-- Two entries under one signature, the first of them taken out, and no room to start with. -/
def shortRun : List (Call (Fin 3)) :=
  [.setUp (fun _ => false) 1, .setUp (fun _ => true) 1, .insert (fun _ => true) 0 5,
    .insert (fun _ => false) 1 5, .remove 0, .lookup 5 ⟨none, 0⟩]

theorem hashTable_run_shortRun :
    ∃ c, Refine.Runs Step none (Refine.answered exec zeroed shortRun) c ∧
      ∀ m, c = some m → Holds (shortRun.foldl (fun t i => (exec t i).1) zeroed) m :=
  hashTable_run (by decide) rfl rfl
    ⟨trivial, trivial, by decide, by decide, trivial, trivial, trivial⟩

end ImpossibleOs.Ex.Hash
