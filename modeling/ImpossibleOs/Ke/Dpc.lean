import ImpossibleOs.Lib.ChainQueue
import ImpossibleOs.Lib.Interleave

/-!
Deferred procedure calls (`src/kernel/sched/dpc.c`).

A step is one section under the `DPC_QLOCK` of a CPU, or one look without the lock. Such a look
may fall into the middle of a section of another CPU, so what it sees is left open; the calls
look again under the lock. A routine that runs, and an interrupt on top of it, call as threads of
their own.
-/

namespace ImpossibleOs.Ke.Dpc

open Function (update)
open Chain (Queue)

/-! ### Objects -/

inductive Importance where
  | low
  | medium
  | high
  | mediumHigh
  deriving DecidableEq

/-- A `KDPC`, but for its link. No target stands for `DPC_TARGET_CURRENT`. The last field is kept
for the statements: when it was put at the tail of a queue, unless it was put at the head. -/
structure Kdpc (R V : Type) where
  routine : R
  deferredCtx : V
  systemArgs : V × V
  queued : Bool
  cpuTarget : Option ℕ
  queuedCpu : ℕ
  importance : Importance
  threaded : Bool
  stamp : Option ℕ

/-- The queues of all CPUs. `clock` counts the inserts that linked a `KDPC`, for the statements. -/
structure Mem (K R V : Type) where
  dpc : K → Kdpc R V
  next : K → Option K
  cpuQueues : ℕ → Queue K
  depth : ℕ → ℕ
  threadedQ : ℕ → Queue K
  pending : ℕ → Bool
  inFlight : ℕ → ℕ
  inFlightThreaded : ℕ
  bugcheck : Bool
  clock : ℕ

/-- The arguments of one insert. `force` is the CPU of `KeInsertQueueDpcOnCpu`. -/
structure Request (K V : Type) where
  dpc : K
  args : V × V
  force : Option ℕ

/-- What a routine is called with. A null routine counts as one that does nothing. -/
structure Run (K R V : Type) where
  dpc : K
  routine : R
  deferredCtx : V
  args : V × V

/-- Where a thread is. `flush` is the call of `KeFlushQueuedDpcs` that drains first; it is known
by the clock at its start. -/
inductive Call (K R V : Type) where
  | idle
  /-- before the look at `queued` -/
  | insert (req : Request K V) (spins : ℕ)
  /-- before the lock of a CPU is taken, where the `KDPC` was seen to be, or for a fresh insert -/
  | insertOn (req : Request K V) (spins cpu : ℕ) (seen : Bool)
  | remove (k : K)
  | removeOn (k : K) (cpu : ℕ)
  | drain (cpu dispatched : ℕ) (flush : Option ℕ)
  | running (cpu dispatched : ℕ) (flush : Option ℕ) (run : Run K R V)
  | worker (cpu : ℕ)
  | workerOn (cpu budget : ℕ)
  | workerRunning (cpu budget : ℕ) (run : Run K R V)
  /-- in a round of the barrier, before the CPU is sampled -/
  | barrier (since spin cpu : ℕ)
  /-- before the threaded callbacks in flight are read -/
  | barrierCount (since spin : ℕ) (busy : Bool)
  | flushed (since : ℕ)

inductive Event (K V : Type) where
  | silent
  | inserted (k : K) (cpu : ℕ) (args : V × V)
  | refreshed (k : K) (args : V × V)
  | removed (k : K)
  /-- from the normal queue to the threaded list -/
  | handedOff (k : K) (cpu : ℕ) (stamp : Option ℕ)
  /-- from the normal queue -/
  | started (k : K) (args : V × V) (cpu : ℕ) (stamp : Option ℕ)
  /-- from the threaded list -/
  | startedThreaded (k : K) (args : V × V)

/-- What a look without the lock sees, and the CPU it is made on. -/
structure Look where
  here : ℕ
  queued : Bool
  queuedCpu : ℕ
  head : Bool
  pending : Bool

inductive Choice (K V : Type) where
  | insert (req : Request K V)
  | remove (k : K)
  | drain (cpu : ℕ)
  | worker
  /-- `legal` when called at `PASSIVE_LEVEL` and not from the worker -/
  | flush (here : ℕ) (legal : Bool)
  | setTargetProcessor (k : K) (cpu : ℕ)
  | setImportance (k : K) (importance : Importance)
  | go (look : Look)

def batchLimit : ℕ := 32
def threadedBatchLimit : ℕ := 32
def insertMaxSpins : ℕ := 2 ^ 24
def flushYieldCap : ℕ := 100000

variable {K R V : Type} [DecidableEq K] [Fintype K]

/-- Bounds the walks over the queues. -/
def turns (K : Type) [Fintype K] : ℕ := Fintype.card K

abbrev Outcome (K R V : Type) := (Mem K R V × Call K R V) × Event K V

def quietly (m : Mem K R V) (call : Call K R V) : Outcome K R V := ((m, call), .silent)

/-! ### Insert -/

/-- The CPU of a fresh insert. -/
def resolveCpu (maxCpus : ℕ) (d : Kdpc R V) (force : Option ℕ) (here : ℕ) : ℕ :=
  match force with
  | some cpu => if cpu < maxCpus then cpu else d.cpuTarget.getD here
  | none => d.cpuTarget.getD here

/-- The top of the loop of `dpc_insert_core`. `maxCpus` is `MAX_CPUS`. -/
def insertLook (maxCpus : ℕ) (m : Mem K R V) (req : Request K V) (spins : ℕ) (look : Look) :
    Outcome K R V :=
  if insertMaxSpins < spins + 1 then quietly { m with bugcheck := true } .idle
  else if look.queued then
    if maxCpus ≤ look.queuedCpu then quietly m (.insert req (spins + 1))
    else quietly m (.insertOn req (spins + 1) look.queuedCpu true)
  else
    let cpu := resolveCpu maxCpus (m.dpc req.dpc) req.force look.here
    if maxCpus ≤ cpu then quietly m .idle else quietly m (.insertOn req (spins + 1) cpu false)

/-- A `KDPC` that is queued gets the new arguments. -/
def refresh (m : Mem K R V) (k : K) (args : V × V) : Mem K R V :=
  { m with dpc := update m.dpc k { m.dpc k with systemArgs := args } }

/-- The section that links a `KDPC` that is not queued. -/
def link (m : Mem K R V) (k : K) (args : V × V) (cpu : ℕ) : Mem K R V :=
  let d := m.dpc k
  let q := if d.importance = .high then (m.cpuQueues cpu).pushFront m.next k
    else (m.cpuQueues cpu).pushBack m.next k
  { m with
    dpc := update m.dpc k
      { d with
        systemArgs := args
        queuedCpu := cpu
        queued := true
        stamp := if d.importance = .high then none else some m.clock }
    next := q.2
    cpuQueues := update m.cpuQueues cpu q.1
    depth := update m.depth cpu (m.depth cpu + 1)
    clock := m.clock + 1 }

/-- The sections of `dpc_insert_core`. -/
def insertLocked (m : Mem K R V) (req : Request K V) (spins cpu : ℕ) (seen : Bool) :
    Outcome K R V :=
  let d := m.dpc req.dpc
  if d.queued then
    if d.queuedCpu = cpu then
      ((refresh m req.dpc req.args, .idle), .refreshed req.dpc req.args)
    else quietly m (.insert req spins)
  else if seen then quietly m (.insert req spins)
  else ((link m req.dpc req.args cpu, .idle), .inserted req.dpc cpu req.args)

/-- A `KDPC` that has left all lists. -/
def release (maxCpus : ℕ) (m : Mem K R V) (k : K) : K → Kdpc R V :=
  update m.dpc k { m.dpc k with queuedCpu := maxCpus, queued := false }

/-- The section of `KeRemoveQueueDpc`. -/
def removeLocked (maxCpus : ℕ) (m : Mem K R V) (k : K) (cpu : ℕ) : Outcome K R V :=
  if !(m.dpc k).queued || (m.dpc k).queuedCpu != cpu then quietly m .idle
  else
    match (m.cpuQueues cpu).unlink m.next (turns K) k with
    | some (q, next) =>
      (({ m with
          dpc := release maxCpus m k
          next := next
          cpuQueues := update m.cpuQueues cpu q
          depth := update m.depth cpu (m.depth cpu - 1) }, .idle), .removed k)
    | none =>
      match (m.threadedQ cpu).unlink m.next (turns K) k with
      | some (q, next) =>
        (({ m with
            dpc := release maxCpus m k
            next := next
            threadedQ := update m.threadedQ cpu q
            pending := if q.head.isNone then update m.pending cpu false
              else m.pending }, .idle), .removed k)
      | none => quietly m .idle

def Kdpc.run (d : Kdpc R V) (k : K) : Run K R V := ⟨k, d.routine, d.deferredCtx, d.systemArgs⟩

/-- What follows a `drain_queue`: the barrier, when a flush called it. -/
def afterDrain : Option ℕ → Call K R V
  | none => .idle
  | some since => .barrier since 0 0

/-- The section of `drain_queue`. -/
def drainLocked (maxCpus : ℕ) (m : Mem K R V) (cpu dispatched : ℕ) (flush : Option ℕ) :
    Outcome K R V :=
  match (m.cpuQueues cpu).head with
  | none => quietly m (afterDrain flush)
  | some k =>
    let d := m.dpc k
    let q := (m.cpuQueues cpu).popFront m.next k
    let depth := update m.depth cpu (m.depth cpu - 1)
    if d.threaded then
      let w := (m.threadedQ cpu).pushBack q.2 k
      (({ m with
          next := w.2
          cpuQueues := update m.cpuQueues cpu q.1
          depth := depth
          threadedQ := update m.threadedQ cpu w.1
          pending := update m.pending cpu true }, .drain cpu (dispatched + 1) flush),
        .handedOff k cpu d.stamp)
    else
      (({ m with
          dpc := release maxCpus m k
          next := q.2
          cpuQueues := update m.cpuQueues cpu q.1
          depth := depth
          inFlight := update m.inFlight cpu (m.inFlight cpu + 1) },
        .running cpu dispatched flush (d.run k)), .started k d.systemArgs cpu d.stamp)

/-- The section of `dpc_thread_fn`. -/
def workerLocked (maxCpus : ℕ) (m : Mem K R V) (cpu budget : ℕ) : Outcome K R V :=
  match (m.threadedQ cpu).head with
  | none => quietly { m with pending := update m.pending cpu false } (.worker (cpu + 1))
  | some k =>
    let q := (m.threadedQ cpu).popFront m.next k
    (({ m with
        dpc := release maxCpus m k
        next := q.2
        threadedQ := update m.threadedQ cpu q.1
        inFlightThreaded := m.inFlightThreaded + 1 },
      .workerRunning cpu budget ((m.dpc k).run k)), .startedThreaded k (m.dpc k).systemArgs)

def sampledIdle (m : Mem K R V) (cpu : ℕ) : Bool :=
  (m.cpuQueues cpu).head.isNone && (m.threadedQ cpu).head.isNone && m.inFlight cpu == 0

/-- The next step of a call. The idle worker looks at the CPUs again. -/
def advance (maxCpus : ℕ) (m : Mem K R V) (look : Look) : Call K R V → Outcome K R V
  | .idle => quietly m .idle
  | .insert req spins => insertLook maxCpus m req spins look
  | .insertOn req spins cpu seen => insertLocked m req spins cpu seen
  | .remove k =>
    if !look.queued || decide (maxCpus ≤ look.queuedCpu) then quietly m .idle
    else quietly m (.removeOn k look.queuedCpu)
  | .removeOn k cpu => removeLocked maxCpus m k cpu
  | .drain cpu dispatched flush =>
    if dispatched = 0 ∧ look.head = false then quietly m (afterDrain flush)
    else if dispatched < batchLimit then drainLocked maxCpus m cpu dispatched flush
    else quietly m (afterDrain flush)
  | .running cpu dispatched flush _ =>
    quietly { m with inFlight := update m.inFlight cpu (m.inFlight cpu - 1) }
      (.drain cpu (dispatched + 1) flush)
  | .worker cpu =>
    if maxCpus ≤ cpu then quietly m (.worker 0)
    else if look.pending then quietly m (.workerOn cpu threadedBatchLimit)
    else quietly m (.worker (cpu + 1))
  | .workerOn cpu budget =>
    match budget with
    | 0 => quietly m (.worker (cpu + 1))
    | budget + 1 => workerLocked maxCpus m cpu budget
  | .workerRunning cpu budget _ =>
    quietly { m with inFlightThreaded := m.inFlightThreaded - 1 } (.workerOn cpu budget)
  | .barrier since spin cpu =>
    if maxCpus ≤ cpu then quietly m (.barrierCount since spin false)
    else if sampledIdle m cpu then quietly m (.barrier since spin (cpu + 1))
    else quietly m (.barrierCount since spin true)
  | .barrierCount since spin busy =>
    if !busy && m.inFlightThreaded == 0 then quietly m (.flushed since)
    else if flushYieldCap ≤ spin + 1 then quietly { m with bugcheck := true } .idle
    else quietly m (.barrier since (spin + 1) 0)
  | .flushed since => quietly m (.flushed since)

def Call.free : Call K R V → Bool
  | .idle => true
  | .flushed _ => true
  | _ => false

/-- A thread goes on with its call, or makes a new one. Nothing runs on after a bug check. -/
def thread (maxCpus : ℕ) (m : Mem K R V) (call : Call K R V) (choice : Choice K V) :
    Option (Outcome K R V) :=
  if m.bugcheck then none
  else
    match choice with
    | .go look => some (advance maxCpus m look call)
    | .insert req => if call.free then some (quietly m (.insert req 0)) else none
    | .remove k => if call.free then some (quietly m (.remove k)) else none
    | .drain cpu =>
      if call.free && decide (cpu < maxCpus) then some (quietly m (.drain cpu 0 none)) else none
    | .worker => if call.free then some (quietly m (.worker 0)) else none
    | .flush here legal =>
      if !call.free then none
      else if !legal then some (quietly { m with bugcheck := true } .idle)
      else if here < maxCpus then some (quietly m (.drain here 0 (some m.clock)))
      else some (quietly m (.barrier m.clock 0 0))
    | .setTargetProcessor k cpu =>
      if call.free && decide (cpu < maxCpus) then
        some (quietly { m with dpc := update m.dpc k { m.dpc k with cpuTarget := some cpu } }
          call)
      else none
    | .setImportance k importance =>
      if call.free then
        some (quietly { m with dpc := update m.dpc k { m.dpc k with importance := importance } }
          call)
      else none

/-- After `KeInitializeDpc` and `KeInitializeThreadedDpc`. -/
def initial (maxCpus : ℕ) (routine : K → R) (ctx : K → V) (threaded : K → Bool) (null : V) :
    Mem K R V where
  dpc k := ⟨routine k, ctx k, (null, null), false, none, maxCpus, .medium, threaded k, none⟩
  next _ := none
  cpuQueues _ := ⟨none, none⟩
  depth _ := 0
  threadedQ _ := ⟨none, none⟩
  pending _ := false
  inFlight _ := 0
  inFlightThreaded := 0
  bugcheck := false
  clock := 0

end ImpossibleOs.Ke.Dpc
