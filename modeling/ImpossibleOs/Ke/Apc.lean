import ImpossibleOs.Lib.Chain

/-!
Asynchronous procedure calls (`src/kernel/sched/apc.c`).

A step is one section under a thread's `apc_lock`, or one step of the current thread between two
of them, or a switch to another thread. A thread carries a stack of the deliveries it is in: while
a routine of an APC runs, it may do what program code does, and start a delivery inside the one it
runs in. One CPU runs all threads, and the IRQL is its own: `schedule` does not keep it with the
thread, and `isr_handler` puts back the one it found, so the next thread goes on at the IRQL of the
last.
-/

namespace ImpossibleOs.Ke.Apc

open Function (update)

/-! ### Objects -/

inductive Mode where
  | kernel
  | user
  deriving DecidableEq

/-- What `KeInitializeApc` sets: the target, the mode, whether there is a `NormalRoutine`. Without
one the mode is kernel mode. -/
structure Objects (T A : Type) where
  thread : A → Option T
  mode : A → Mode
  normal : A → Bool
  special_kernel : ∀ a, normal a = false → mode a = .kernel

def passiveLevel : ℕ := 0
def apcLevel : ℕ := 1

/-- Where a call of `KiDeliverApc` is. -/
inductive Pc (A : Type) where
  /-- before the lock is taken to look at the queue -/
  | top
  /-- in the `KernelRoutine` of an APC without or with a `NormalRoutine` -/
  | kernel (apc : A) (normal : Bool)
  /-- in the `NormalRoutine` -/
  | normal (apc : A)
  /-- before the lock is taken to clear `kernel_apc_in_progress` -/
  | finish (apc : A)

structure Frame (A : Type) where
  entryIrql : ℕ
  pc : Pc A

/-- A thread: its APC state and its region counters. `dead` stands for the states `THREAD_DEAD` and
`THREAD_FREE`. -/
structure Thread (A : Type) where
  dead : Bool
  apcListHead : Mode → Option A
  apcPending : Mode → Bool
  kernelApcInProgress : Bool
  kernelApcDepth : ℕ
  kernelApcDisable : ℕ
  specialApcDisable : ℕ
  stack : List (Frame A)

/-- All threads and APCs, and the CPU: the thread it runs and `current_irql`. A call of
`apc_rundown_thread` that is under way holds the rest of its two lists. The last seven fields are
kept for the statements only. -/
structure State (T A : Type) where
  next : A → Option A
  inserted : A → Bool
  threads : T → Thread A
  current : T
  irql : ℕ
  rundowns : ℕ → Mode → Option A
  started : ℕ
  clock : ℕ
  stamp : A → ℕ
  rundownOf : A → Option ℕ
  inserts : A → ℕ
  delivered : A → ℕ
  removed : A → ℕ
  ranDown : A → ℕ

variable {T A : Type} [DecidableEq T] [DecidableEq A] [Fintype A]

def State.setThread (s : State T A) (t : T) (th : Thread A) : State T A :=
  { s with threads := update s.threads t th }

/-- The current thread goes on as `th`, at `irql`. -/
def State.goOn (s : State T A) (th : Thread A) (irql : ℕ) : State T A :=
  { s.setThread s.current th with irql := irql }

/-- Bounds the walks over the queues. -/
def turns (A : Type) [Fintype A] : ℕ := Fintype.card A

/-! ### Insert and remove -/

/-- Head and links of the queue after an APC was put in: in front without a `NormalRoutine`, at
the end otherwise. -/
def enqueue (o : Objects T A) (next : A → Option A) (head : Option A) (a : A) :
    Option A × (A → Option A) :=
  if !o.normal a && o.mode a == .kernel then (some a, update next a head)
  else Chain.append next (turns A) head a

def keInsertQueueApc (o : Objects T A) (s : State T A) (a : A) : State T A :=
  match o.thread a with
  | none => s
  | some t =>
    let th := s.threads t
    if th.dead || s.inserted a then s
    else
      let m := o.mode a
      let q := enqueue o s.next (th.apcListHead m) a
      { s with
        next := q.2
        inserted := update s.inserted a true
        threads := update s.threads t
          { th with
            apcListHead := update th.apcListHead m q.1
            apcPending := update th.apcPending m true
            kernelApcDepth := if m = .kernel then th.kernelApcDepth + 1
              else th.kernelApcDepth }
        clock := s.clock + 1
        stamp := update s.stamp a s.clock
        inserts := update s.inserts a (s.inserts a + 1) }

/-- The pending flag is cleared when the queue is empty. -/
def clearPending (pending : Mode → Bool) (m : Mode) (head : Option A) : Mode → Bool :=
  if head.isNone then update pending m false else pending

def keRemoveQueueApc (o : Objects T A) (s : State T A) (a : A) : State T A :=
  match o.thread a with
  | none => s
  | some t =>
    if !s.inserted a then s
    else
      let th := s.threads t
      let m := o.mode a
      match Chain.remove s.next (turns A) (th.apcListHead m) a with
      | none =>
        { s with
          next := update s.next a none
          inserted := update s.inserted a false
          threads := update s.threads t
            { th with apcPending := clearPending th.apcPending m (th.apcListHead m) } }
      | some (head, next) =>
        { s with
          next := update next a none
          inserted := update s.inserted a false
          threads := update s.threads t
            { th with
              apcListHead := update th.apcListHead m head
              apcPending := clearPending th.apcPending m head
              kernelApcDepth := if m = .kernel then th.kernelApcDepth - 1
                else th.kernelApcDepth }
          removed := update s.removed a (s.removed a + 1) }

/-- A call of `KiDeliverApc` begins. -/
def Thread.call (th : Thread A) (irql : ℕ) : Thread A :=
  { th with stack := ⟨irql, .top⟩ :: th.stack }

/-- The turn of the loop of `KiDeliverApc` under the lock, in the innermost call, which was
entered at `entry`. -/
def deliverTop (o : Objects T A) (s : State T A) (entry : ℕ) (rest : List (Frame A)) :
    State T A :=
  let t := s.current
  let th := s.threads t
  match th.apcListHead .kernel with
  | none =>
    s.setThread t { th with apcPending := update th.apcPending .kernel false, stack := rest }
  | some a =>
    if 0 < th.specialApcDisable then s.setThread t { th with stack := rest }
    else if o.normal a && (decide (0 < th.kernelApcDisable) || th.kernelApcInProgress) then
      s.setThread t { th with stack := rest }
    else
      let head := s.next a
      { s with
        next := update s.next a none
        inserted := update s.inserted a false
        threads := update s.threads t
          { th with
            apcListHead := update th.apcListHead .kernel head
            apcPending := clearPending th.apcPending .kernel head
            kernelApcDepth := th.kernelApcDepth - 1
            kernelApcInProgress := th.kernelApcInProgress || o.normal a
            stack := ⟨entry, .kernel a (o.normal a)⟩ :: rest }
        irql := apcLevel
        delivered := update s.delivered a (s.delivered a + 1) }

/-- The next step of the innermost call of `KiDeliverApc` of the current thread. A `KernelRoutine`
may take the `NormalRoutine` away. -/
def advance (o : Objects T A) (s : State T A) (keepsNormal : Bool) : State T A :=
  let th := s.threads s.current
  match th.stack with
  | [] => s
  | ⟨entry, pc⟩ :: rest =>
    match pc with
    | .top => deliverTop o s entry rest
    | .kernel a normal =>
      if normal && keepsNormal then
        s.goOn { th with stack := ⟨entry, .normal a⟩ :: rest } passiveLevel
      else
        s.goOn { th with stack := ⟨entry, if normal then .finish a else .top⟩ :: rest } entry
    | .normal a => s.goOn { th with stack := ⟨entry, .finish a⟩ :: rest } entry
    | .finish _ =>
      s.setThread s.current
        { th with kernelApcInProgress := false, stack := ⟨entry, .top⟩ :: rest }

/-- The locked part of `apc_rundown_thread`; its callers have marked the thread dead. -/
def rundownDetach (s : State T A) (t : T) : State T A :=
  let th := s.threads t
  if !th.dead then s
  else
    let kernel := Chain.nodes s.next (turns A) (th.apcListHead .kernel)
    let user := Chain.nodes s.next (turns A) (th.apcListHead .user)
    { s with
      inserted := fun a => s.inserted a && !decide (a ∈ kernel ++ user)
      threads := update s.threads t
        { th with
          apcListHead := fun _ => none
          apcPending := fun _ => false
          kernelApcDepth := 0 }
      rundowns := update s.rundowns s.started th.apcListHead
      started := s.started + 1
      rundownOf := fun a => if a ∈ kernel ++ user then some s.started else s.rundownOf a }

/-- The kernel APCs come first. -/
def rundownStep (s : State T A) (i : ℕ) : State T A :=
  let m := if (s.rundowns i .kernel).isSome then .kernel else .user
  match s.rundowns i m with
  | none => s
  | some a =>
    { s with
      next := update s.next a none
      rundowns := update s.rundowns i (update (s.rundowns i) m (s.next a))
      rundownOf := update s.rundownOf a none
      ranDown := update s.ranDown a (s.ranDown a + 1) }

/-! ### Runs -/

/-- A thread runs program code, or a routine of an APC. -/
def Thread.inCode (th : Thread A) : Bool :=
  match th.stack with
  | [] => true
  | ⟨_, .kernel _ _⟩ :: _ => true
  | ⟨_, .normal _⟩ :: _ => true
  | _ => false

inductive Step (T A : Type) where
  | insert (a : A)
  | remove (a : A)
  | die (t : T)
  | rundown (t : T)
  | rundownStep (i : ℕ)
  | advance (keepsNormal : Bool)
  | deliver
  | enterCritical
  | leaveCritical
  | enterGuarded
  | leaveGuarded
  | setIrql (irql : ℕ)
  | switch (t : T)

/-- The region counters saturate. -/
def regionCap : ℕ := 0x7FFFFFFF

/-- `KeLeaveCriticalRegion` -/
def Thread.leaveCritical (th : Thread A) (irql : ℕ) : Thread A :=
  if th.kernelApcDisable = 0 then th
  else
    let th := { th with kernelApcDisable := th.kernelApcDisable - 1 }
    if th.kernelApcDisable = 0 ∧ th.specialApcDisable = 0 ∧ th.apcPending .kernel = true ∧
        irql < apcLevel then th.call irql
    else th

/-- `KeLeaveGuardedRegion` -/
def Thread.leaveGuarded (th : Thread A) (irql : ℕ) : Thread A :=
  if th.specialApcDisable = 0 then th
  else
    let th := { th with specialApcDisable := th.specialApcDisable - 1 }
    if th.specialApcDisable = 0 ∧ th.apcPending .kernel = true ∧ irql < apcLevel then th.call irql
    else th

/-- What a step of program code does to its thread, which runs at `irql`. -/
def Thread.code (th : Thread A) (irql : ℕ) : Step T A → Thread A
  | .deliver => th.call irql
  | .enterCritical =>
    { th with kernelApcDisable := if th.kernelApcDisable < regionCap
      then th.kernelApcDisable + 1 else th.kernelApcDisable }
  | .leaveCritical => th.leaveCritical irql
  | .enterGuarded =>
    { th with specialApcDisable := if th.specialApcDisable < regionCap
      then th.specialApcDisable + 1 else th.specialApcDisable }
  | .leaveGuarded => th.leaveGuarded irql
  | _ => th

def inCode (s : State T A) (step : Step T A) : State T A :=
  if (s.threads s.current).inCode then
    s.setThread s.current ((s.threads s.current).code s.irql step)
  else s

/-- Program code raises or lowers the IRQL. -/
def setIrql (s : State T A) (irql : ℕ) : State T A :=
  if (s.threads s.current).inCode then { s with irql := irql } else s

/-- `schedule` picks `t`. The interrupt it runs in is left at the IRQL it was entered at. -/
def schedule (s : State T A) (t : T) : State T A :=
  if (s.threads t).dead then s else { s with current := t }

def exec (o : Objects T A) (s : State T A) (step : Step T A) : State T A :=
  match step with
  | .insert a => keInsertQueueApc o s a
  | .remove a => keRemoveQueueApc o s a
  | .die t => s.setThread t { s.threads t with dead := true }
  | .rundown t => rundownDetach s t
  | .rundownStep i => rundownStep s i
  | .advance keepsNormal => advance o s keepsNormal
  | .deliver | .enterCritical | .leaveCritical | .enterGuarded | .leaveGuarded => inCode s step
  | .setIrql irql => setIrql s irql
  | .switch t => schedule s t

/-- Threads after `apc_thread_init`, no APC inserted, and `boot` runs. -/
def initial (boot : T) : State T A where
  next _ := none
  inserted _ := false
  threads _ := ⟨false, fun _ => none, fun _ => false, false, 0, 0, 0, []⟩
  current := boot
  irql := passiveLevel
  rundowns _ _ := none
  started := 0
  clock := 0
  stamp _ := 0
  rundownOf _ := none
  inserts _ := 0
  delivered _ := 0
  removed _ := 0
  ranDown _ := 0

end ImpossibleOs.Ke.Apc
