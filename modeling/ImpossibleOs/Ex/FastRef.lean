import ImpossibleOs.Lib.Interleave
import Mathlib.Algebra.Order.BigOperators.Group.Finset
import Mathlib.Data.BitVec

/-!
Fast references (`ex_fastref.c`).

`EX_FAST_REF` is one word: the pointer to an object with up to seven references
to it in the three low bits. Acquire takes a reference out of the word, release
puts one back, and the compare-and-swap exchanges the object for another. The
word owns its cached references and one more for the pointer.

Every reference has an owner: a thread, a call under way, or the word. The object
manager's own reference and dereference are turns of the threads.
-/

namespace ImpossibleOs.Ex.FastRef

open Interleave Finset

abbrev Word := BitVec 64

/-- `EX_FAST_REF_MASK`, and `EX_FAST_REF_MAX`. -/
def fastRefMask : Word := 0x7#64

def unpackObject (value : Word) : Word := value &&& ~~~fastRefMask

def unpackCount (value : Word) : Word := value &&& fastRefMask

/-- `ExpFastRefPack`; `none` is a bugcheck. -/
def pack (object count : Word) : Option Word :=
  if object &&& fastRefMask ≠ 0#64 then none
  else if fastRefMask < count then none
  else if object = 0#64 ∧ count ≠ 0#64 then none
  else some (object ||| count)

def recount (value newCount : Word) : Word := (value &&& ~~~fastRefMask) ||| newCount

/-- The word, the reference count of each object, and whether a bugcheck stopped the machine. -/
structure Memory where
  value : Word
  refs : Word → ℕ
  bugchecked : Bool := false

/-- A call and its arguments; `out` says whether `out_old_count` is given. -/
inductive Op
  | acquire
  | release (object : Word)
  | compareSwap (new old : Word) (out : Bool)
  deriving DecidableEq, Repr

/-- Where a thread stands, with its copy `cur` of the word. -/
inductive Pc
  | idle
  | acquireLoad
  | acquireTry (cur : Word)
  | releaseLoad (object : Word)
  | releaseTry (object cur : Word)
  | swapLoad (new old desired : Word)
  | swapTry (new old desired cur : Word)
  deriving DecidableEq, Repr

/-- A thread: where it stands and the references it holds. -/
structure Local where
  pc : Pc
  held : Word → ℕ

/-- A turn of a thread between calls is a call, or a reference taken from or given back to
the object manager. -/
inductive Turn
  | call (op : Op)
  | reference (object : Word)
  | dereference (object : Word)
  | go
  deriving DecidableEq, Repr

inductive Event
  | silent
  | acquired (object : Word) (cached : Bool)
  | released (object : Word) (absorbed : Bool)
  | swapped (old oldCount : Word)
  | unswapped
  | bugcheck
  deriving DecidableEq, Repr

/-- `n` more references to `object`. -/
def gain (f : Word → ℕ) (object : Word) (n : ℕ) : Word → ℕ :=
  fun o => f o + if o = object then n else 0

/-- References given to a caller; there are none to NULL. -/
def handBack (held : Word → ℕ) (object : Word) (n : ℕ) : Word → ℕ :=
  if object = 0#64 then held else gain held object n

/-- One reference to `object` fewer. -/
def lose (f : Word → ℕ) (object : Word) : Word → ℕ :=
  fun o => f o - if o = object then 1 else 0

/-- The entry of a call: the checks of the arguments, before the first load. A reference
that is handed to the call leaves the thread's hands; the caller must hold it. -/
def enter (m : Memory) (held : Word → ℕ) : Op → Option ((Memory × Local) × Event)
  | .acquire => some ((m, ⟨.acquireLoad, held⟩), .silent)
  | .release object =>
    if object = 0#64 then some ((m, ⟨.idle, held⟩), .released object false)
    else if object &&& fastRefMask ≠ 0#64 then
      some ((m, ⟨.idle, held⟩), .released object false)
    else if held object = 0 then none
    else some ((m, ⟨.releaseLoad object, lose held object⟩), .silent)
  | .compareSwap new old out =>
    if old ≠ 0#64 ∧ !out then some (({ m with bugchecked := true }, ⟨.idle, held⟩), .bugcheck)
    else match pack new 0#64 with
      | none => some (({ m with bugchecked := true }, ⟨.idle, held⟩), .bugcheck)
      | some desired =>
        if new = 0#64 then some ((m, ⟨.swapLoad new old desired, held⟩), .silent)
        else if held new = 0 then none
        else some ((m, ⟨.swapLoad new old desired, lose held new⟩), .silent)

/-- The atomic access that comes next, with the local computation around it. -/
def proceed (m : Memory) (held : Word → ℕ) : Pc → Option ((Memory × Local) × Event)
  | .idle => none
  | .acquireLoad => some ((m, ⟨.acquireTry m.value, held⟩), .silent)
  | .acquireTry cur =>
    let obj := unpackObject cur
    let cnt := unpackCount cur
    if obj = 0#64 then some ((m, ⟨.idle, held⟩), .acquired 0#64 false)
    else if cnt = 0#64 then some ((m, ⟨.idle, held⟩), .acquired obj false)
    else if m.value = cur then
      some (({ m with value := recount cur (cnt - 1#64) }, ⟨.idle, gain held obj 1⟩),
        .acquired obj true)
    else some ((m, ⟨.acquireTry m.value, held⟩), .silent)
  | .releaseLoad object => some ((m, ⟨.releaseTry object m.value, held⟩), .silent)
  | .releaseTry object cur =>
    let obj := unpackObject cur
    let cnt := unpackCount cur
    if obj ≠ object ∨ fastRefMask ≤ cnt then
      some ((m, ⟨.idle, gain held object 1⟩), .released object false)
    else if m.value = cur then
      some (({ m with value := recount cur (cnt + 1#64) }, ⟨.idle, held⟩), .released object true)
    else some ((m, ⟨.releaseTry object m.value, held⟩), .silent)
  | .swapLoad new old desired => some ((m, ⟨.swapTry new old desired m.value, held⟩), .silent)
  | .swapTry new old desired cur =>
    if unpackObject cur ≠ old then
      some ((m, ⟨.idle, handBack held new 1⟩), .unswapped)
    else if m.value = cur then
      some (({ m with value := desired },
        ⟨.idle, handBack held old ((unpackCount cur).toNat + 1)⟩),
        .swapped old (unpackCount cur))
    else some ((m, ⟨.swapTry new old desired m.value, held⟩), .silent)

def thread (m : Memory) (l : Local) (turn : Turn) : Option ((Memory × Local) × Event) :=
  if m.bugchecked then none
  else match l.pc, turn with
  | .idle, .call op => enter m l.held op
  | .idle, .reference object =>
    some (({ m with refs := gain m.refs object 1 }, ⟨.idle, gain l.held object 1⟩), .silent)
  | .idle, .dereference object =>
    if l.held object = 0 then none
    else some (({ m with refs := lose m.refs object }, ⟨.idle, lose l.held object⟩), .silent)
  | pc, .go => proceed m l.held pc
  | _, _ => none

abbrev State (Tid : Type*) := Config Tid Memory Local

/-! ### The word -/

theorem toNat_unpackCount (value : Word) : (unpackCount value).toNat = value.toNat % 8 := by
  rw [unpackCount, BitVec.toNat_and]
  exact Nat.and_two_pow_sub_one_eq_mod _ 3

theorem toNat_unpackCount_le (value : Word) : (unpackCount value).toNat ≤ 7 := by
  rw [toNat_unpackCount]
  omega

variable {count : Word}

theorem and_mask_of_le (h : count.toNat ≤ 7) : count &&& fastRefMask = count := by
  apply BitVec.eq_of_toNat_eq
  change (unpackCount count).toNat = _
  rw [toNat_unpackCount]
  omega

theorem unpackObject_recount (value : Word) (h : count.toNat ≤ 7) :
    unpackObject (recount value count) = unpackObject value := by
  rw [unpackObject, recount, ← and_mask_of_le h, unpackObject]
  ext i hi
  simp
  grind

theorem unpackCount_recount (value : Word) (h : count.toNat ≤ 7) :
    unpackCount (recount value count) = count := by
  conv_rhs => rw [← and_mask_of_le h]
  rw [unpackCount, recount, ← and_mask_of_le h]
  ext i hi
  simp
  grind

theorem pack_zero {object desired : Word} (h : pack object 0#64 = some desired) :
    desired = object ∧ unpackObject desired = object ∧ unpackCount desired = 0#64 := by
  rw [pack] at h
  split at h
  · cases h
  · rename_i haligned
    rw [not_not] at haligned
    obtain rfl : object = desired := by simpa [fastRefMask] using h
    refine ⟨rfl, ?_, haligned⟩
    have hsplit : (object &&& fastRefMask) ||| (object &&& ~~~fastRefMask) = object := by
      ext i hi
      simp
      grind
    rwa [haligned, BitVec.zero_or] at hsplit

/-! ### Who owns a reference -/

/-- References handed to the call that a thread is in. -/
def inFlight : Pc → Word → ℕ
  | .releaseLoad object, o => if o = object then 1 else 0
  | .releaseTry object _, o => if o = object then 1 else 0
  | .swapLoad new _ _, o => if o = new then 1 else 0
  | .swapTry new _ _ _, o => if o = new then 1 else 0
  | _, _ => 0

/-- References of the word: the cached ones, and the one for storing the pointer. -/
def stored (value o : Word) : ℕ :=
  if unpackObject value = o then (unpackCount value).toNat + 1 else 0

def Local.owns (l : Local) (o : Word) : ℕ := l.held o + inFlight l.pc o

/-- What a call keeps in its local variables. -/
def PcOk : Pc → Prop
  | .releaseLoad object => object ≠ 0#64
  | .releaseTry object _ => object ≠ 0#64
  | .swapLoad new _ desired => pack new 0#64 = some desired
  | .swapTry new _ desired _ => pack new 0#64 = some desired
  | _ => True

/-- No cached reference without an object. -/
def NoPhantom (value : Word) : Prop := unpackObject value = 0#64 → unpackCount value = 0#64

/-- What a step gives to one owner it takes from another, or from the object manager. -/
def Balanced (m : Memory) (l : Local) (m' : Memory) (l' : Local) : Prop :=
  ∀ o, o ≠ 0#64 →
    m'.refs o + l.owns o + stored m.value o = m.refs o + l'.owns o + stored m'.value o

/-- What a step of a thread promises. -/
structure Keeps (m : Memory) (l : Local) (m' : Memory) (l' : Local) : Prop where
  balanced : Balanced m l m' l'
  pcOk : PcOk l'.pc
  noPhantom : NoPhantom m.value → NoPhantom m'.value

theorem stored_recount (value o : Word) (h : count.toNat ≤ 7) :
    stored (recount value count) o =
      if unpackObject value = o then count.toNat + 1 else 0 := by
  rw [stored, unpackObject_recount value h, unpackCount_recount value h]

theorem handBack_apply (held : Word → ℕ) (object : Word) (n : ℕ) {o : Word} (ho : o ≠ 0#64) :
    handBack held object n o = held o + if o = object then n else 0 := by
  rw [handBack]
  split
  · rename_i hnull
    rw [hnull, if_neg ho, add_zero]
  · rfl

theorem toNat_sub_one (h : count ≠ 0#64) : (count - 1#64).toNat + 1 = count.toNat := by
  have hpos : count.toNat ≠ 0 := fun h0 => h (BitVec.eq_of_toNat_eq h0)
  have hlt := count.isLt
  have hval : (count - 1#64).toNat = (2 ^ 64 - 1 + count.toNat) % 2 ^ 64 := BitVec.toNat_sub ..
  omega

theorem toNat_add_one (h : ¬ fastRefMask ≤ count) : (count + 1#64).toNat = count.toNat + 1 := by
  have hlt : count.toNat < 7 := by
    rw [BitVec.le_def] at h
    change ¬ 7 ≤ _ at h
    omega
  have hval : (count + 1#64).toNat = (count.toNat + 1) % 2 ^ 64 := BitVec.toNat_add ..
  omega

section Steps

variable {m m' : Memory} {held : Word → ℕ} {l l' : Local} {ev : Event}

theorem enter_keeps {op : Op} (h : enter m held op = some ((m', l'), ev)) :
    Keeps m ⟨.idle, held⟩ m' l' := by
  cases op with
  | acquire =>
    obtain ⟨⟨rfl, rfl⟩, rfl⟩ := by simpa [enter] using h
    exact ⟨fun o _ => rfl, trivial, id⟩
  | release object =>
    simp only [enter] at h
    split at h
    · obtain ⟨⟨rfl, rfl⟩, rfl⟩ := by simpa using h
      exact ⟨fun o _ => rfl, trivial, id⟩
    · rename_i hne
      split at h
      · obtain ⟨⟨rfl, rfl⟩, rfl⟩ := by simpa using h
        exact ⟨fun o _ => rfl, trivial, id⟩
      · split at h
        · cases h
        · rename_i hheld
          obtain ⟨⟨rfl, rfl⟩, rfl⟩ := by simpa using h
          refine ⟨fun o _ => ?_, hne, id⟩
          simp only [Local.owns, inFlight, lose]
          split <;> subst_vars <;> omega
  | compareSwap new old out =>
    simp only [enter] at h
    split at h
    · obtain ⟨⟨rfl, rfl⟩, rfl⟩ := by simpa using h
      exact ⟨fun o _ => rfl, trivial, id⟩
    · split at h
      · obtain ⟨⟨rfl, rfl⟩, rfl⟩ := by simpa using h
        exact ⟨fun o _ => rfl, trivial, id⟩
      · rename_i desired hpack
        split at h
        · rename_i hnew
          obtain ⟨⟨rfl, rfl⟩, rfl⟩ := by simpa using h
          refine ⟨fun o ho => ?_, hpack, id⟩
          simp [Local.owns, inFlight, hnew, ho]
        · split at h
          · cases h
          · rename_i hheld
            obtain ⟨⟨rfl, rfl⟩, rfl⟩ := by simpa using h
            refine ⟨fun o _ => ?_, hpack, id⟩
            simp only [Local.owns, inFlight, lose]
            split <;> subst_vars <;> omega

theorem Keeps.still {pc pc' : Pc} (hflight : inFlight pc' = inFlight pc) (hok : PcOk pc') :
    Keeps m ⟨pc, held⟩ m ⟨pc', held⟩ :=
  ⟨fun o _ => by simp only [Local.owns, hflight], hok, id⟩

theorem acquireTry_keeps {cur : Word} (h : proceed m held (.acquireTry cur) = some ((m', l'), ev)) :
    Keeps m ⟨.acquireTry cur, held⟩ m' l' := by
  simp only [proceed] at h
  split at h
  · obtain ⟨⟨rfl, rfl⟩, rfl⟩ := by simpa using h
    exact .still rfl trivial
  · split at h
    · obtain ⟨⟨rfl, rfl⟩, rfl⟩ := by simpa using h
      exact .still rfl trivial
    · rename_i hobj hcnt
      split at h
      · rename_i hsame
        obtain ⟨⟨rfl, rfl⟩, rfl⟩ := by simpa using h
        have hle := toNat_unpackCount_le cur
        have hone := toNat_sub_one hcnt
        have hnew : (unpackCount cur - 1#64).toNat ≤ 7 := by omega
        refine ⟨fun o _ => ?_, trivial, fun _ hnull => ?_⟩
        · simp only [Local.owns, inFlight, gain, stored_recount cur o hnew]
          rw [hsame, stored]
          rcases eq_or_ne o (unpackObject cur) with rfl | ho
          · simp only [if_true]
            omega
          · simp [ho, ho.symm]
        · rw [unpackObject_recount cur hnew] at hnull
          exact absurd hnull hobj
      · obtain ⟨⟨rfl, rfl⟩, rfl⟩ := by simpa using h
        exact .still rfl trivial

theorem releaseTry_keeps {object cur : Word} (hok : object ≠ 0#64)
    (h : proceed m held (.releaseTry object cur) = some ((m', l'), ev)) :
    Keeps m ⟨.releaseTry object cur, held⟩ m' l' := by
  simp only [proceed] at h
  split at h
  · obtain ⟨⟨rfl, rfl⟩, rfl⟩ := by simpa using h
    exact ⟨fun o _ => by simp only [Local.owns, inFlight, gain]; omega, trivial, id⟩
  · rename_i hcond
    obtain ⟨hobj, hroom⟩ := not_or.mp hcond
    rw [not_not] at hobj
    split at h
    · rename_i hsame
      obtain ⟨⟨rfl, rfl⟩, rfl⟩ := by simpa using h
      have hone := toNat_add_one hroom
      have hlt : (unpackCount cur).toNat < 7 := by
        rw [BitVec.le_def] at hroom
        change ¬ 7 ≤ _ at hroom
        omega
      have hnew : (unpackCount cur + 1#64).toNat ≤ 7 := by omega
      refine ⟨fun o _ => ?_, trivial, fun _ hnull => ?_⟩
      · simp only [Local.owns, inFlight, stored_recount cur o hnew]
        rw [hsame, stored, hobj]
        rcases eq_or_ne o object with rfl | ho
        · simp only [if_true]
          omega
        · simp [ho, ho.symm]
      · rw [unpackObject_recount cur hnew, hobj] at hnull
        exact absurd hnull hok
    · obtain ⟨⟨rfl, rfl⟩, rfl⟩ := by simpa using h
      exact .still rfl hok

theorem swapTry_keeps {new old desired cur : Word} (hok : pack new 0#64 = some desired)
    (h : proceed m held (.swapTry new old desired cur) = some ((m', l'), ev)) :
    Keeps m ⟨.swapTry new old desired cur, held⟩ m' l' := by
  simp only [proceed] at h
  obtain ⟨-, hobject, hcount⟩ := pack_zero hok
  split at h
  · obtain ⟨⟨rfl, rfl⟩, rfl⟩ := by simpa using h
    refine ⟨fun o ho => ?_, trivial, id⟩
    simp only [Local.owns, inFlight, handBack_apply held new 1 ho]
    omega
  · rename_i hold
    rw [not_not] at hold
    split at h
    · rename_i hsame
      obtain ⟨⟨rfl, rfl⟩, rfl⟩ := by simpa using h
      refine ⟨fun o ho => ?_, trivial, fun _ _ => hcount⟩
      have hnew : stored desired o = if o = new then 1 else 0 := by
        rw [stored, hobject, hcount]
        simp [eq_comm]
      have hthen : stored m.value o = if o = old then (unpackCount cur).toNat + 1 else 0 := by
        rw [hsame, stored, hold]
        simp [eq_comm]
      simp only [Local.owns, inFlight, hnew, hthen, handBack_apply held old _ ho]
      omega
    · obtain ⟨⟨rfl, rfl⟩, rfl⟩ := by simpa using h
      exact .still rfl hok

theorem proceed_keeps {pc : Pc} (hok : PcOk pc)
    (h : proceed m held pc = some ((m', l'), ev)) : Keeps m ⟨pc, held⟩ m' l' := by
  cases pc with
  | idle => cases h
  | acquireLoad =>
    obtain ⟨⟨rfl, rfl⟩, rfl⟩ := by simpa [proceed] using h
    exact .still rfl trivial
  | acquireTry cur => exact acquireTry_keeps h
  | releaseLoad object =>
    obtain ⟨⟨rfl, rfl⟩, rfl⟩ := by simpa [proceed] using h
    exact .still rfl hok
  | releaseTry object cur => exact releaseTry_keeps hok h
  | swapLoad new old desired =>
    obtain ⟨⟨rfl, rfl⟩, rfl⟩ := by simpa [proceed] using h
    exact .still rfl hok
  | swapTry new old desired cur => exact swapTry_keeps hok h

theorem thread_keeps {turn : Turn} (hok : PcOk l.pc) (hrefs : ∀ o, o ≠ 0#64 → l.held o ≤ m.refs o)
    (h : thread m l turn = some ((m', l'), ev)) : Keeps m l m' l' := by
  obtain ⟨pc, held⟩ := l
  dsimp only [thread] at h hrefs
  split at h
  · cases h
  · split at h
    · exact enter_keeps h
    · obtain ⟨⟨rfl, rfl⟩, rfl⟩ := by simpa using h
      refine ⟨fun o _ => ?_, trivial, id⟩
      simp only [Local.owns, inFlight, gain]
      omega
    · split at h
      · cases h
      · rename_i object hheld
        obtain ⟨⟨rfl, rfl⟩, rfl⟩ := by simpa using h
        refine ⟨fun o ho => ?_, trivial, id⟩
        have := hrefs o ho
        simp only [Local.owns, inFlight, lose]
        split <;> subst_vars <;> omega
    · exact proceed_keeps hok h
    · cases h

variable {old oldCount : Word}

theorem enter_ne_swapped {op : Op} : enter m held op ≠ some ((m', l'), .swapped old oldCount) := by
  intro h
  cases op with
  | acquire => simp [enter] at h
  | release object =>
    simp only [enter] at h
    split_ifs at h <;> simp at h
  | compareSwap new old out =>
    simp only [enter] at h
    split at h
    · simp at h
    · split at h
      · simp at h
      · split_ifs at h <;> simp at h

theorem proceed_swapped {pc : Pc} (h : proceed m held pc = some ((m', l'), .swapped old oldCount)) :
    old = unpackObject m.value ∧ oldCount = unpackCount m.value ∧
      (old ≠ 0#64 → l'.held old = held old + (oldCount.toNat + 1)) := by
  cases pc with
  | idle => cases h
  | acquireLoad => simp [proceed] at h
  | acquireTry cur =>
    simp only [proceed] at h
    split_ifs at h <;> simp at h
  | releaseLoad object => simp [proceed] at h
  | releaseTry object cur =>
    simp only [proceed] at h
    split_ifs at h <;> simp at h
  | swapLoad new old desired => simp [proceed] at h
  | swapTry new old desired cur =>
    simp only [proceed] at h
    split at h
    · simp at h
    · rename_i hold
      rw [not_not] at hold
      split at h
      · rename_i hsame
        obtain ⟨⟨rfl, rfl⟩, rfl, rfl⟩ := by simpa using h
        refine ⟨by rw [hsame, hold], by rw [hsame], fun hne => ?_⟩
        dsimp only
        rw [handBack_apply _ _ _ hne, if_pos rfl]
      · simp at h

theorem thread_swapped {turn : Turn}
    (h : thread m l turn = some ((m', l'), .swapped old oldCount)) :
    old = unpackObject m.value ∧ oldCount = unpackCount m.value ∧
      (old ≠ 0#64 → l'.held old = l.held old + (oldCount.toNat + 1)) := by
  obtain ⟨pc, held⟩ := l
  dsimp only [thread] at h
  split at h
  · cases h
  · split at h
    · exact absurd h enter_ne_swapped
    · simp at h
    · split_ifs at h
      simp at h
    · exact proceed_swapped h
    · cases h

end Steps

/-! ### Every interleaving -/

section Runs

variable {Tid : Type*} [Fintype Tid] {c c' : State Tid} {sched : List (Tid × Turn)}
  {es : List (Tid × Event)}

/-- Every reference has one owner, and the word and the calls are in order. -/
structure Conserved (c : State Tid) : Prop where
  refs : ∀ o, o ≠ 0#64 →
    c.shared.refs o = ∑ t, (c.threads t).owns o + stored c.shared.value o
  noPhantom : NoPhantom c.shared.value
  pcOk : ∀ t, PcOk (c.threads t).pc

/-- After `ExInitializeFastReference`: no call is under way, and the word has taken over one
of the references to its object. -/
structure Initialized (c : State Tid) (object : Word) : Prop where
  value : pack object 0#64 = some c.shared.value
  idle : ∀ t, (c.threads t).pc = .idle
  refs : ∀ o, o ≠ 0#64 →
    c.shared.refs o = ∑ t, (c.threads t).held o + if o = object then 1 else 0

theorem Initialized.conserved {object : Word} (h : Initialized c object) : Conserved c := by
  obtain ⟨-, hobject, hcount⟩ := pack_zero h.value
  refine ⟨fun o ho => ?_, fun _ => hcount, fun t => by rw [h.idle t]; trivial⟩
  rw [h.refs o ho, stored, hobject, hcount]
  congr 1
  · apply sum_congr rfl
    intro t _
    rw [Local.owns, h.idle t]
    rfl
  · simp [eq_comm]

theorem Conserved.held_le (h : Conserved c) (t : Tid) {o : Word} (ho : o ≠ 0#64) :
    (c.threads t).held o ≤ c.shared.refs o := by
  have hsum : (c.threads t).owns o ≤ ∑ u, (c.threads u).owns o :=
    single_le_sum (f := fun u => (c.threads u).owns o) (fun _ _ => Nat.zero_le _)
      (mem_univ t)
  have hown : (c.threads t).owns o = (c.threads t).held o + inFlight (c.threads t).pc o := rfl
  rw [h.refs o ho]
  omega

variable [DecidableEq Tid]

theorem Conserved.step {i : Tid × Turn} {e : Tid × Event} (h : Conserved c)
    (hstep : step thread c i = some (c', e)) : Conserved c' := by
  obtain ⟨m, l, ev, hthread, rfl, rfl⟩ := step_eq_some.mp hstep
  have hkeeps := thread_keeps (h.pcOk i.1) (fun o ho => h.held_le i.1 ho) hthread
  refine ⟨fun o ho => ?_, hkeeps.noPhantom h.noPhantom, ?_⟩
  · have hbal := hkeeps.balanced o ho
    have hsum := sum_update (fun l : Local => l.owns o) c.threads i.1 l
    have hrefs := h.refs o ho
    dsimp only at hsum ⊢
    omega
  · exact @forall_update Tid Local _ (fun l => PcOk l.pc) (fun l => PcOk l.pc) _ _ _ h.pcOk
      hkeeps.pcOk (fun _ => id)

theorem run_conserved (h : Conserved c) (hrun : Refine.run (step thread) c sched = some (c', es)) :
    Conserved c' :=
  Refine.run_preserves (fun _ _ _ _ h hstep => h.step hstep) h hrun

/-- References are neither lost nor made up: the count of an object is what the threads hold,
what the calls under way carry and what the word keeps. -/
theorem run_accounts {object : Word} (hinit : Initialized c object)
    (hrun : Refine.run (step thread) c sched = some (c', es)) :
    (∀ o, o ≠ 0#64 → c'.shared.refs o =
        ∑ t, (c'.threads t).held o + ∑ t, inFlight (c'.threads t).pc o +
          if unpackObject c'.shared.value = o then (unpackCount c'.shared.value).toNat + 1
          else 0) ∧
      (unpackCount c'.shared.value).toNat ≤ 7 ∧
      (unpackObject c'.shared.value = 0#64 → unpackCount c'.shared.value = 0#64) ∧
      ∀ t turn d old oldCount, step thread c' (t, turn) = some (d, (t, .swapped old oldCount)) →
        old = unpackObject c'.shared.value ∧ oldCount = unpackCount c'.shared.value ∧
          (old ≠ 0#64 →
            (d.threads t).held old = (c'.threads t).held old + (oldCount.toNat + 1)) := by
  have h := run_conserved hinit.conserved hrun
  refine ⟨fun o ho => ?_, toNat_unpackCount_le _, h.noPhantom, ?_⟩
  · rw [h.refs o ho, stored, ← Finset.sum_add_distrib]
    rfl
  · intro t turn d old oldCount hstep
    obtain ⟨m, l, ev, hthread, rfl, hev⟩ := step_eq_some.mp hstep
    obtain rfl : Event.swapped old oldCount = ev := congrArg Prod.snd hev
    obtain ⟨hold, hcount, hheld⟩ := thread_swapped hthread
    refine ⟨hold, hcount, fun hne => ?_⟩
    dsimp only
    rw [Function.update_self]
    exact hheld hne

end Runs

/-- Two threads and one object; the first holds a reference beside the one of the word. -/
def sharedStart : State Bool :=
  ⟨⟨16#64, fun o => if o = 16#64 then 2 else 0, false⟩,
    fun t => ⟨.idle, fun o => if o = 16#64 ∧ t = false then 1 else 0⟩⟩

/-- The first thread releases its reference into the word and goes on to clear the word while
the second one begins to acquire. -/
def clearTurns : List (Bool × Turn) :=
  [(false, .call (.release 16#64)), (false, .go), (false, .go), (true, .call .acquire),
    (false, .call (.compareSwap 0#64 16#64 true)), (true, .go), (false, .go)]

theorem run_accounts_clear : ∃ (c d : State Bool) (es : List (Bool × Event)),
      Refine.run (step thread) sharedStart clearTurns = some (c, es) ∧
        step thread c (false, .go) = some (d, (false, .swapped 16#64 1#64)) ∧
          (d.threads false).held 16#64 = (c.threads false).held 16#64 + 2 := by
  have hinit : Initialized sharedStart 16#64 := by
    refine ⟨rfl, fun _ => rfl, fun o _ => ?_⟩
    by_cases ho : o = 16#64 <;> simp [sharedStart, ho]
  have hrun : Refine.run (step thread) sharedStart clearTurns = some (_, _) := rfl
  obtain ⟨-, -, -, hswap⟩ := run_accounts hinit hrun
  exact ⟨_, _, _, rfl, rfl, (hswap false .go _ _ _ rfl).2.2 (by decide)⟩

end ImpossibleOs.Ex.FastRef
