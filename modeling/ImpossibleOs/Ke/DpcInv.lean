import ImpossibleOs.Ke.Dpc

/-!
The queues of deferred procedure calls, and what has been done to them.
-/

namespace ImpossibleOs.Ke.Dpc

open List

open Function (update)
open Chain (Queue Family)

variable {K R V : Type}

/-! ### The lists -/

/-- The nodes of the normal queue and of the threaded list of every CPU. -/
abbrev Lists (K : Type) := ℕ ⊕ ℕ → List K

/-- Every `KDPC` is in at most one list, and in one of its CPU when it is marked as queued. -/
structure Inv (maxCpus : ℕ) (m : Mem K R V) (l : Lists K) : Prop where
  family : Family m.next (Sum.elim m.cpuQueues m.threadedQ) l
  queued : ∀ k, (m.dpc k).queued = true ↔ ∃ p, k ∈ l p
  cpu : ∀ {k p}, k ∈ l p → p.elim id id = (m.dpc k).queuedCpu ∧ (m.dpc k).queuedCpu < maxCpus
  depth : ∀ cpu, m.depth cpu = (l (.inl cpu)).length
  pending : ∀ cpu, l (.inr cpu) ≠ [] → m.pending cpu = true

variable {maxCpus : ℕ} {m m' : Mem K R V} {l l' : Lists K} {k : K} {cpu : ℕ}

theorem Inv.free (h : Inv maxCpus m l) (hk : (m.dpc k).queued = false) (p : ℕ ⊕ ℕ) : k ∉ l p := by
  intro hp
  rw [(h.queued k).mpr ⟨p, hp⟩] at hk
  cases hk

theorem Inv.length_le [Fintype K] (h : Inv maxCpus m l) (p : ℕ ⊕ ℕ) : (l p).length ≤ turns K :=
  Chain.linked_length_le (h.family.holds p).linked

theorem Inv.located (h : Inv maxCpus m l) (hk : (m.dpc k).queued = true)
    (hcpu : (m.dpc k).queuedCpu = cpu) : k ∈ l (.inl cpu) ∨ k ∈ l (.inr cpu) := by
  obtain ⟨p, hp⟩ := (h.queued k).mp hk
  have heq := (h.cpu hp).1.trans hcpu
  cases p with
  | inl c =>
    obtain rfl : c = cpu := heq
    exact .inl hp
  | inr c =>
    obtain rfl : c = cpu := heq
    exact .inr hp

theorem initial_inv (maxCpus : ℕ) (routine : K → R) (ctx : K → V) (threaded : K → Bool) (null : V) :
    Inv maxCpus (initial maxCpus routine ctx threaded null) fun _ => [] where
  family := by
    refine ⟨fun p => ?_, nofun⟩
    cases p with
    | inl c => exact Chain.holds_empty _
    | inr c => exact Chain.holds_empty _
  queued k := by simp [initial]
  cpu := nofun
  depth _ := rfl
  pending _ h := absurd rfl h

/-! ### The history -/

variable [DecidableEq K]

def Event.inserts (k : K) : Event K V → Bool
  | .inserted k' _ _ => k' = k
  | _ => false

def Event.starts (k : K) : Event K V → Bool
  | .started k' _ _ _ => k' = k
  | .startedThreaded k' _ => k' = k
  | _ => false

def Event.removes (k : K) : Event K V → Bool
  | .removed k' => k' = k
  | _ => false

/-- The arguments an insert, fresh or not, leaves with a `KDPC`. -/
def Event.argsOf (k : K) : Event K V → Option (V × V)
  | .inserted k' _ args => if k' = k then some args else none
  | .refreshed k' args => if k' = k then some args else none
  | _ => none

/-- When a `KDPC` that leaves the normal queue of a CPU in turn was put at its tail. -/
def Event.left (cpu : ℕ) : Event K V → Option ℕ
  | .handedOff _ cpu' stamp => if cpu' = cpu then stamp else none
  | .started _ _ cpu' stamp => if cpu' = cpu then stamp else none
  | _ => none

/-- The arguments of the latest insert of a `KDPC`. -/
def latest (es : List (Event K V)) (k : K) : Option (V × V) :=
  (es.filterMap (Event.argsOf k)).getLast?

/-- A run that starts after the events `es` gets the arguments of the latest insert. -/
def Event.Answers (es : List (Event K V)) : Event K V → Prop
  | .started k args _ _ => latest es k = some args
  | .startedThreaded k args => latest es k = some args
  | _ => True

/-- The times at which the nodes of a list were put at the tail. -/
def stamps (m : Mem K R V) (nodes : List K) : List ℕ :=
  nodes.filterMap fun k => (m.dpc k).stamp

structure History (m : Mem K R V) (l : Lists K) (es : List (Event K V)) : Prop where
  /-- An insert that returned 1 is answered by one run or one removal, or still waits. -/
  balance : ∀ k, es.countP (Event.inserts k) = es.countP (Event.starts k) +
    es.countP (Event.removes k) + if (m.dpc k).queued then 1 else 0
  latest : ∀ k, (m.dpc k).queued = true → Dpc.latest es k = some (m.dpc k).systemArgs
  answers : ∀ pre (e : Event K V) post, es = pre ++ e :: post → e.Answers pre
  /-- What has left the normal queue in turn, then what is still in it. -/
  order : ∀ cpu, (es.filterMap (Event.left cpu) ++ stamps m (l (.inl cpu)) ++
    [m.clock]).Pairwise (· < ·)

theorem initial_history (maxCpus : ℕ) (routine : K → R) (ctx : K → V) (threaded : K → Bool)
    (null : V) : History (initial maxCpus routine ctx threaded null) (fun _ => []) [] where
  balance k := rfl
  latest k hk := by cases hk
  answers pre e post h := by simp at h
  order cpu := pairwise_singleton _ _

theorem latest_snoc (es : List (Event K V)) (e : Event K V) (k : K) :
    latest (es ++ [e]) k = (e.argsOf k).or (latest es k) := by
  unfold latest
  cases he : e.argsOf k with
  | none => simp [filterMap_append, he]
  | some args => simp [filterMap_append, he]

theorem answers_snoc {es : List (Event K V)} {e : Event K V}
    (h : ∀ pre (e : Event K V) post, es = pre ++ e :: post → e.Answers pre) (he : e.Answers es) :
    ∀ pre (e' : Event K V) post, es ++ [e] = pre ++ e' :: post → e'.Answers pre := by
  intro pre e' post heq
  rcases eq_nil_or_concat post with rfl | ⟨post', last, rfl⟩
  · obtain ⟨rfl, hlast⟩ := append_inj' heq rfl
    obtain rfl : e = e' := by simpa using hlast
    exact he
  · have hsplit : es ++ [e] = (pre ++ e' :: post') ++ [last] := by simpa using heq
    exact h pre e' post' (append_inj' hsplit rfl).1

omit [DecidableEq K] in
theorem stamps_congr {nodes : List K} (h : ∀ k ∈ nodes, (m'.dpc k).stamp = (m.dpc k).stamp) :
    stamps m' nodes = stamps m nodes :=
  filterMap_congr h

theorem History.snoc {es : List (Event K V)} (h : History m l es) {e : Event K V}
    (hbalance : ∀ k, (e.inserts k).toNat + (m.dpc k).queued.toNat =
      (e.starts k).toNat + (e.removes k).toNat + (m'.dpc k).queued.toNat)
    (hlatest : ∀ k, (m'.dpc k).queued = true →
      (e.argsOf k).or (Dpc.latest es k) = some (m'.dpc k).systemArgs)
    (hanswers : e.Answers es)
    (horder : ∀ cpu, (es.filterMap (Event.left cpu) ++ (e.left cpu).toList ++
      stamps m' (l' (.inl cpu)) ++ [m'.clock]).Pairwise (· < ·)) :
    History m' l' (es ++ [e]) where
  balance k := by
    have hold := h.balance k
    have hnew := hbalance k
    have hcount : ∀ b : Bool, (if b then 1 else 0) = b.toNat := by decide
    simp only [countP_append, countP_singleton, hcount] at hold ⊢
    omega
  latest k hk := by
    rw [latest_snoc]
    exact hlatest k hk
  answers := answers_snoc h.answers hanswers
  order cpu := by
    have hleft : (es ++ [e]).filterMap (Event.left cpu) =
        es.filterMap (Event.left cpu) ++ (e.left cpu).toList := by
      rw [filterMap_append]
      cases he : e.left cpu <;> simp [he]
    rw [hleft]
    exact horder cpu

/-- The marks that the history speaks of stay. -/
structure SameMarks (m m' : Mem K R V) : Prop where
  queued : ∀ k, (m'.dpc k).queued = (m.dpc k).queued
  systemArgs : ∀ k, (m'.dpc k).systemArgs = (m.dpc k).systemArgs
  stamp : ∀ k, (m'.dpc k).stamp = (m.dpc k).stamp
  clock : m'.clock = m.clock

theorem History.silent {es : List (Event K V)} (h : History m l es) (hm : SameMarks m m') :
    History m' l (es ++ [.silent]) := by
  refine h.snoc (fun k => ?_) (fun k hk => ?_) trivial fun cpu => ?_
  · rw [hm.queued]
    rfl
  · rw [hm.queued] at hk
    rw [hm.systemArgs]
    exact h.latest k hk
  · rw [stamps_congr fun k _ => hm.stamp k, hm.clock]
    simpa [Event.left] using h.order cpu

end ImpossibleOs.Ke.Dpc
