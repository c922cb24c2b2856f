import ImpossibleOs.Lib.Linearize
import Mathlib.Data.BitVec

/-!
The interlocked singly linked list (`ex_slist.c`).

The header is a pointer and a word with a sequence number above a depth, both
exchanged by one 16-byte compare-and-swap. A copy of the header may be torn, and
a pop reads the link of the entry it takes to be the first. A link is written by
the pusher of its entry, or by whoever has the entry while it is off the list.
-/

namespace ImpossibleOs.Ex.SList

open Interleave Function List Nat

abbrev Word := BitVec 64

def slistDepthMax : Word := 0xFFFF#64

def sdSeq (sd : Word) : Word := sd >>> 16

def sdDepth (sd : Word) : Word := sd &&& 0xFFFF#64

def sdMake (seq depth : Word) : Word := (seq <<< 16) ||| (depth &&& 0xFFFF#64)

/-- `SeqDepth` after a push, a pop and a flush. -/
def pushSeqDepth (hi : Word) : Word :=
  sdMake (sdSeq hi + 1#64)
    (if sdDepth hi < slistDepthMax then sdDepth hi + 1#64 else slistDepthMax)

def popSeqDepth (hi : Word) : Word :=
  sdMake (sdSeq hi + 1#64) (if 0#64 < sdDepth hi then sdDepth hi - 1#64 else 0#64)

def flushSeqDepth (hi : Word) : Word := sdMake (sdSeq hi + 1#64) 0#64

/-- The header, and the `Next` field of every entry. -/
structure Memory where
  next : Word
  seqDepth : Word
  links : Word → Word

inductive Op
  | push (entry : Word)
  | pop
  | flush
  deriving DecidableEq, Repr

/-- Where a thread stands, with its copies of the halves of the header. -/
inductive Pc
  | idle
  | pushSeed (entry : Word)
  | pushSeq (entry lo : Word)
  | pushLink (entry lo hi : Word)
  | pushTry (entry lo hi : Word)
  | popSeed
  | popSeq (lo : Word)
  | popNext (lo hi : Word)
  | popTry (lo hi next : Word)
  | flushSeed
  | flushSeq (lo : Word)
  | flushTry (lo hi : Word)
  deriving DecidableEq, Repr

/-- A thread between calls makes a call, or writes to the link of an entry of its own. -/
inductive Turn
  | call (op : Op)
  | write (entry value : Word)
  | go
  deriving DecidableEq, Repr

/-- What a step does: `read` is a read of `SeqDepth`, by a load or by a compare-and-swap that
failed; `exchanged` is a compare-and-swap that went through, and the call returns. -/
inductive Event
  | silent
  | called (op : Op)
  | read
  | exchanged (op : Op) (result : Word)
  | returned (result : Word)
  deriving DecidableEq, Repr

/-- The first instruction of a call. -/
def Op.start : Op → Pc
  | .push entry => .pushSeed entry
  | .pop => .popSeed
  | .flush => .flushSeed

/-- One atomic access, with the local computation around it. -/
def proceed (m : Memory) : Pc → Option ((Memory × Pc) × Event)
  | .idle => none
  | .pushSeed entry => some ((m, .pushSeq entry m.next), .silent)
  | .pushSeq entry lo => some ((m, .pushLink entry lo m.seqDepth), .read)
  | .pushLink entry lo hi =>
    some (({ m with links := update m.links entry lo }, .pushTry entry lo hi), .silent)
  | .pushTry entry lo hi =>
    if m.next = lo ∧ m.seqDepth = hi then
      some (({ m with next := entry, seqDepth := pushSeqDepth hi }, .idle),
        .exchanged (.push entry) lo)
    else some ((m, .pushLink entry m.next m.seqDepth), .read)
  | .popSeed => some ((m, .popSeq m.next), .silent)
  | .popSeq lo => some ((m, .popNext lo m.seqDepth), .read)
  | .popNext lo hi =>
    if lo = 0#64 then some ((m, .idle), .returned 0#64)
    else some ((m, .popTry lo hi (m.links lo)), .silent)
  | .popTry lo hi next =>
    if m.next = lo ∧ m.seqDepth = hi then
      some (({ m with next := next, seqDepth := popSeqDepth hi }, .idle), .exchanged .pop lo)
    else some ((m, .popNext m.next m.seqDepth), .read)
  | .flushSeed => some ((m, .flushSeq m.next), .silent)
  | .flushSeq lo => some ((m, .flushTry lo m.seqDepth), .read)
  | .flushTry lo hi =>
    if m.next = lo ∧ m.seqDepth = hi then
      some (({ m with next := 0#64, seqDepth := flushSeqDepth hi }, .idle), .exchanged .flush lo)
    else some ((m, .flushTry m.next m.seqDepth), .read)

def thread (m : Memory) (pc : Pc) (turn : Turn) : Option ((Memory × Pc) × Event) :=
  match pc, turn with
  | .idle, .call op => some ((m, op.start), .called op)
  | .idle, .write entry value =>
    some (({ m with links := update m.links entry value }, .idle), .silent)
  | pc, .go => proceed m pc
  | _, _ => none

abbrev State (Tid : Type*) := Config Tid Memory Pc

/-- `ExInitializeSListHead`: an empty list. -/
def Initialized {Tid : Type*} (c : State Tid) : Prop :=
  c.shared.next = 0#64 ∧ c.shared.seqDepth = 0#64 ∧ ∀ t, c.threads t = .idle

/-! ### The list in the memory -/

/-- The entries of the list that starts at `p`. -/
def Chain (links : Word → Word) : Word → List Word → Prop
  | p, [] => p = 0#64
  | p, e :: s => p = e ∧ e ≠ 0#64 ∧ Chain links (links e) s

section Chains

variable {links : Word → Word} {p e : Word} {s s' : List Word}

theorem Chain.nil_of_null (h : Chain links 0#64 s) : s = [] := by
  cases s with
  | nil => rfl
  | cons e s => exact absurd h.1.symm h.2.1

theorem Chain.cons_of_ne (h : Chain links p s) (hp : p ≠ 0#64) :
    ∃ s', s = p :: s' ∧ Chain links (links p) s' := by
  cases s with
  | nil => exact absurd h hp
  | cons e s =>
    obtain ⟨rfl, -, hrest⟩ := h
    exact ⟨s, rfl, hrest⟩

theorem Chain.unique (h : Chain links p s) (h' : Chain links p s') : s = s' := by
  induction s generalizing p s' with
  | nil =>
    obtain rfl : p = 0#64 := h
    exact h'.nil_of_null.symm
  | cons e s ih =>
    obtain ⟨rfl, hne, hrest⟩ := h
    obtain ⟨s₁, rfl, hrest'⟩ := h'.cons_of_ne hne
    rw [ih hrest hrest']

theorem Chain.congr {links' : Word → Word} (h : Chain links p s)
    (hsame : ∀ e ∈ s, links' e = links e) : Chain links' p s := by
  induction s generalizing p with
  | nil => exact h
  | cons f s ih =>
    obtain ⟨rfl, hne, hrest⟩ := h
    refine ⟨rfl, hne, ?_⟩
    rw [hsame p mem_cons_self]
    exact ih hrest fun e he => hsame e (mem_cons_of_mem p he)

theorem Chain.suffix (h : Chain links p s) (he : e ∈ s) :
    ∃ s', Chain links e s' ∧ s'.length ≤ s.length := by
  induction s generalizing p with
  | nil => cases he
  | cons f s ih =>
    rcases mem_cons.mp he with rfl | he
    · exact ⟨e :: s, ⟨rfl, h.2⟩, le_rfl⟩
    · obtain ⟨s', hs', hle⟩ := ih h.2.2 he
      exact ⟨s', hs', hle.trans (le_succ _)⟩

theorem Chain.nodup (h : Chain links p s) : s.Nodup := by
  induction s generalizing p with
  | nil => exact nodup_nil
  | cons e s ih =>
    refine nodup_cons.mpr ⟨fun he => ?_, ih h.2.2⟩
    obtain ⟨s', hs', hle⟩ := h.2.2.suffix he
    have hsame : e :: s = s' := Chain.unique ⟨rfl, h.2⟩ hs'
    rw [← hsame] at hle
    exact absurd hle (by simp)

end Chains

theorem toNat_sdMake (seq depth : Word) :
    (sdMake seq depth).toNat / 2 ^ 16 = seq.toNat % 2 ^ 48 := by
  have hshift : sdMake seq depth >>> 16 = (seq <<< 16) >>> 16 := by
    rw [sdMake, BitVec.ushiftRight_or_distrib]
    have hlow : (depth &&& 0xFFFF#64) >>> 16 = 0#64 := by
      apply BitVec.eq_of_toNat_eq
      have h : (depth &&& 0xFFFF#64).toNat = depth.toNat % 2 ^ 16 := by
        rw [BitVec.toNat_and]
        exact and_two_pow_sub_one_eq_mod _ 16
      rw [BitVec.toNat_ushiftRight, h, shiftRight_eq_div_pow, div_eq_of_lt]
      · rfl
      · exact mod_lt _ (by decide)
    rw [hlow, BitVec.or_zero]
  have hval := congrArg BitVec.toNat hshift
  rw [BitVec.toNat_ushiftRight, BitVec.toNat_ushiftRight, BitVec.toNat_shiftLeft,
    shiftRight_eq_div_pow, shiftRight_eq_div_pow, shiftLeft_eq] at hval
  omega

theorem toNat_sdMake_succ (hi depth : Word) :
    (sdMake (sdSeq hi + 1#64) depth).toNat / 2 ^ 16 = (hi.toNat / 2 ^ 16 + 1) % 2 ^ 48 := by
  have hseq : (sdSeq hi).toNat = hi.toNat / 2 ^ 16 := by
    rw [sdSeq, BitVec.toNat_ushiftRight, shiftRight_eq_div_pow]
  have hsum : (sdSeq hi + 1#64).toNat = ((sdSeq hi).toNat + 1) % 2 ^ 64 := BitVec.toNat_add ..
  rw [toNat_sdMake, hsum, hseq]
  omega

/-! ### What a step can do -/

/-- The copy of `SeqDepth` that a thread has. -/
def hiOf : Pc → Option Word
  | .pushLink _ _ hi => some hi
  | .pushTry _ _ hi => some hi
  | .popNext _ hi => some hi
  | .popTry _ hi _ => some hi
  | .flushTry _ hi => some hi
  | _ => none

/-- The entry that a thread is about to put on the list. -/
def pushing : Pc → Option Word
  | .pushSeed entry => some entry
  | .pushSeq entry _ => some entry
  | .pushLink entry _ _ => some entry
  | .pushTry entry _ _ => some entry
  | _ => none

/-- Where the caller of the thread stands: a pop that read NULL has found the list empty. -/
def phaseOf : Pc → Linearize.Phase Op Word
  | .idle => .idle
  | .pushSeed entry => .pending (.push entry)
  | .pushSeq entry _ => .pending (.push entry)
  | .pushLink entry _ _ => .pending (.push entry)
  | .pushTry entry _ _ => .pending (.push entry)
  | .popSeed => .pending .pop
  | .popSeq lo => if lo = 0#64 then .done 0#64 else .pending .pop
  | .popNext lo _ => if lo = 0#64 then .done 0#64 else .pending .pop
  | .popTry _ _ _ => .pending .pop
  | .flushSeed => .pending .flush
  | .flushSeq _ => .pending .flush
  | .flushTry _ _ => .pending .flush

/-- A step inside a call: the caller stands where it stood, or its pop has met an empty list. -/
def Advances (m : Memory) (pc pc' : Pc) : Prop :=
  phaseOf pc' = phaseOf pc ∨
    m.next = 0#64 ∧ phaseOf pc = .pending .pop ∧ phaseOf pc' = .done 0#64

/-- The steps by what they do to the memory. -/
inductive Moves (m : Memory) : Turn → Pc → Memory → Pc → Event → Prop
  | call (op : Op) : Moves m (.call op) .idle m op.start (.called op)
  | still {pc pc' : Pc} (hhi : ∀ hi, hiOf pc' = some hi → hiOf pc = some hi)
      (hpushing : pushing pc' = pushing pc) (hpush : ∀ e lo hi, pc' ≠ .pushTry e lo hi)
      (hpop : ∀ lo hi next, pc' = .popTry lo hi next → lo ≠ 0#64 ∧ next = m.links lo)
      (hphase : Advances m pc pc') : Moves m .go pc m pc' .silent
  | read {pc pc' : Pc} (hhi : hiOf pc' = some m.seqDepth) (hpushing : pushing pc' = pushing pc)
      (hpush : ∀ e lo hi, pc' ≠ .pushTry e lo hi) (hpop : ∀ lo hi next, pc' ≠ .popTry lo hi next)
      (hphase : Advances m pc pc') : Moves m .go pc m pc' .read
  | empty (hi : Word) : Moves m .go (.popNext 0#64 hi) m .idle (.returned 0#64)
  | link (entry lo hi : Word) :
      Moves m .go (.pushLink entry lo hi) { m with links := update m.links entry lo }
        (.pushTry entry lo hi) .silent
  | write (entry value : Word) :
      Moves m (.write entry value) .idle
        { m with links := update m.links entry value } .idle .silent
  | push (entry : Word) :
      Moves m .go (.pushTry entry m.next m.seqDepth)
        { m with next := entry, seqDepth := pushSeqDepth m.seqDepth } .idle
        (.exchanged (.push entry) m.next)
  | pop (next : Word) :
      Moves m .go (.popTry m.next m.seqDepth next)
        { m with next := next, seqDepth := popSeqDepth m.seqDepth } .idle
        (.exchanged .pop m.next)
  | flush :
      Moves m .go (.flushTry m.next m.seqDepth)
        { m with next := 0#64, seqDepth := flushSeqDepth m.seqDepth } .idle
        (.exchanged .flush m.next)

section Moves

variable {m m' : Memory} {pc pc' : Pc} {ev : Event}

theorem proceed_moves (h : proceed m pc = some ((m', pc'), ev)) : Moves m .go pc m' pc' ev := by
  cases pc with
  | idle => cases h
  | pushSeed entry =>
    obtain ⟨⟨rfl, rfl⟩, rfl⟩ := by simpa [proceed] using h
    exact .still (by simp [hiOf]) rfl (by simp) (by simp) (.inl rfl)
  | pushSeq entry lo =>
    obtain ⟨⟨rfl, rfl⟩, rfl⟩ := by simpa [proceed] using h
    exact .read rfl rfl (by simp) (by simp) (.inl rfl)
  | pushLink entry lo hi =>
    obtain ⟨⟨rfl, rfl⟩, rfl⟩ := by simpa [proceed] using h
    exact .link entry lo hi
  | pushTry entry lo hi =>
    simp only [proceed] at h
    split at h
    · rename_i hsame
      obtain ⟨⟨rfl, rfl⟩, rfl⟩ := by simpa using h
      obtain ⟨rfl, rfl⟩ := hsame
      exact .push entry
    · obtain ⟨⟨rfl, rfl⟩, rfl⟩ := by simpa using h
      exact .read rfl rfl (by simp) (by simp) (.inl rfl)
  | popSeed =>
    obtain ⟨⟨rfl, rfl⟩, rfl⟩ := by simpa [proceed] using h
    refine .still (by simp [hiOf]) rfl (by simp) (by simp) ?_
    by_cases hnull : m.next = 0#64
    · exact .inr ⟨hnull, rfl, by simp [phaseOf, hnull]⟩
    · exact .inl (by simp [phaseOf, hnull])
  | popSeq lo =>
    obtain ⟨⟨rfl, rfl⟩, rfl⟩ := by simpa [proceed] using h
    exact .read rfl rfl (by simp) (by simp) (.inl rfl)
  | popNext lo hi =>
    simp only [proceed] at h
    split at h
    · rename_i hnull
      obtain ⟨⟨rfl, rfl⟩, rfl⟩ := by simpa using h
      rw [hnull]
      exact .empty hi
    · rename_i hne
      obtain ⟨⟨rfl, rfl⟩, rfl⟩ := by simpa using h
      refine .still (by simp [hiOf]) rfl (by simp) ?_ (.inl (by simp [phaseOf, hne]))
      rintro _ _ _ ⟨⟩
      exact ⟨hne, rfl⟩
  | popTry lo hi next =>
    simp only [proceed] at h
    split at h
    · rename_i hsame
      obtain ⟨⟨rfl, rfl⟩, rfl⟩ := by simpa using h
      obtain ⟨rfl, rfl⟩ := hsame
      exact .pop next
    · obtain ⟨⟨rfl, rfl⟩, rfl⟩ := by simpa using h
      refine .read rfl rfl (by simp) (by simp) ?_
      by_cases hnull : m.next = 0#64
      · exact .inr ⟨hnull, rfl, by simp [phaseOf, hnull]⟩
      · exact .inl (by simp [phaseOf, hnull])
  | flushSeed =>
    obtain ⟨⟨rfl, rfl⟩, rfl⟩ := by simpa [proceed] using h
    exact .still (by simp [hiOf]) rfl (by simp) (by simp) (.inl rfl)
  | flushSeq lo =>
    obtain ⟨⟨rfl, rfl⟩, rfl⟩ := by simpa [proceed] using h
    exact .read rfl rfl (by simp) (by simp) (.inl rfl)
  | flushTry lo hi =>
    simp only [proceed] at h
    split at h
    · rename_i hsame
      obtain ⟨⟨rfl, rfl⟩, rfl⟩ := by simpa using h
      obtain ⟨rfl, rfl⟩ := hsame
      exact .flush
    · obtain ⟨⟨rfl, rfl⟩, rfl⟩ := by simpa using h
      exact .read rfl rfl (by simp) (by simp) (.inl rfl)

theorem thread_moves {turn : Turn} (h : thread m pc turn = some ((m', pc'), ev)) :
    Moves m turn pc m' pc' ev := by
  unfold thread at h
  split at h
  · obtain ⟨⟨rfl, rfl⟩, rfl⟩ := by simpa using h
    exact .call _
  · obtain ⟨⟨rfl, rfl⟩, rfl⟩ := by simpa using h
    exact .write _ _
  · exact proceed_moves h
  · cases h

end Moves

end ImpossibleOs.Ex.SList
