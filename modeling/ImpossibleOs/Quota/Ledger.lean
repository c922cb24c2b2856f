import ImpossibleOs.Quota.Charge

/-!
The quota ledger of a task (`src/kernel/quota/quota_ledger.c`).

Each slot of the array has the receipt of one charge and is free when its owner
word is zero. A charge writes an epoch there that it drew from a global counter,
and a return exchanges exactly that word for zero. A return above passive level
sets the top bit instead and leaves its token in the slot for the drain.

Every read, store and exchange is one step, and so is what runs under a lock.
The charge, return and resize of a receipt are those of the layer below. What a
call learns from the task, the allocator and the queue of other ledgers is chosen
by the schedule. A caller has only handles that a charge gave out, in any number
of copies, each with its own reference to the ledger.
-/

namespace ImpossibleOs.Quota.Ledger

open Interleave Function

/-! ### Constants -/

/-- `QUOTA_LEDGER_INLINE_SLOTS` -/
def inlineSlots : ℕ := 8

/-- `QUOTA_LEDGER_CHUNK_SLOTS` -/
def chunkSlots : ℕ := 34

/-- `QUOTA_LEDGER_MAX_CHUNKS` -/
def maxChunks : ℕ := 64

/-- `QUOTA_LEDGER_GROW_ATTEMPTS` -/
def growAttempts : ℕ := 3

/-- `QUOTA_LEDGER_RESERVE_TRIES` -/
def reserveTries : ℕ := 64

/-- `QUOTA_LEDGER_RETURN_TRIES` -/
def returnTries : ℕ := 4

/-- `QUOTA_LEDGER_DRAIN_LEDGERS` -/
def drainLedgers : ℕ := 16

/-- `QUOTA_LEDGER_DRAIN_SLOTS` -/
def drainSlots : ℕ := 512

/-- `QUOTA_LEDGER_DEFER_RETRY_MAX` -/
def deferRetryMax : ℕ := 8

/-- `QUOTA_LEDGER_CAP_DEFAULT` -/
def capDefault : ℕ := 128

/-- `QUOTA_SLOT_DEFERRED` -/
def slotDeferred : ℕ := 2 ^ 63

/-- `QUOTA_SLOT_EPOCH_MAX` -/
def slotEpochMax : ℕ := 0x7FFFFFFFFFFFFFFF

/-- `cap_max` of `quota_ledger_grow`. -/
def capMax : ℕ := inlineSlots + maxChunks * chunkSlots

/-- `quota_ledger_type_cap` -/
def typeCap (type : ℕ) : ℕ := if Charge.typeCount ≤ type then 0 else capDefault

/-- A 32-bit counter goes up. -/
def inc32 (n : ℕ) : ℕ := (n + 1) % 2 ^ 32

/-- A 32-bit counter goes down. -/
def dec32 (n : ℕ) : ℕ := (n + (2 ^ 32 - 1)) % 2 ^ 32

/-! ### Memory -/

/-- `quota_obligation_t` -/
structure Handle where
  slot : ℕ
  token : ℕ
  epoch : ℕ
  deriving DecidableEq, Repr

structure Mem (Block : Type*) where
  /-- The receipts, by the index of their slot, and the usages of the blocks. -/
  chain : Charge.Mem ℕ Block
  owner : ℕ → ℕ
  rtype : ℕ → ℕ
  deferredToken : ℕ → ℕ
  obligations : ℕ → ℤ
  /-- `g_slot_epoch_next` -/
  epochNext : ℕ
  capacity : ℕ
  claimHint : ℕ
  /-- `g_defer_draining` -/
  draining : Bool
  deferQueued : Bool
  deferCursor : ℕ
  deferPending : ℕ
  deferRetries : ℕ
  /-- The handles that charges have given out. -/
  issued : List Handle

variable {Block : Type*}

namespace Mem

def setOwner (m : Mem Block) (s word : ℕ) : Mem Block :=
  { m with owner := update m.owner s word }

def setRtype (m : Mem Block) (s type : ℕ) : Mem Block :=
  { m with rtype := update m.rtype s type }

def setToken (m : Mem Block) (s token : ℕ) : Mem Block :=
  { m with deferredToken := update m.deferredToken s token }

def setObligations (m : Mem Block) (type : ℕ) (v : ℤ) : Mem Block :=
  { m with obligations := update m.obligations type v }

/-- `quota_ledger_release_obligation` -/
def releaseObligation (m : Mem Block) (type : ℕ) : Mem Block :=
  if Charge.typeCount ≤ type then m else m.setObligations type (m.obligations type - 1)

end Mem

/-! ### Threads -/

inductive Status
  | chain (st : Charge.Status)
  | insufficientResources
  deriving DecidableEq, Repr

/-- What `quota_ledger_return` answers. -/
inductive Answer
  | none
  | credited
  | deferred
  deriving DecidableEq, Repr

/-- What `quota_ledger_complete_return` answers. -/
inductive Outcome
  | stale
  | credited
  | retry
  deriving DecidableEq, Repr

/-- The ledger that a drain takes from the queue. -/
inductive Popped
  | nothing
  | this
  /-- Another one, and how much of the budget it takes. -/
  | other (spent : ℕ)

/-- What a step learns from outside the ledger. -/
structure Env (Block : Type*) where
  chain : Charge.Env Block
  /-- The task has a ledger. -/
  ledger : Bool
  /-- The allocation of a chunk succeeds. -/
  chunk : Bool
  popped : Popped

/-- A charge on its way: `quota_ledger_charge_from`. -/
structure Order where
  type : ℕ
  amount : ℕ
  source : ℕ
  deriving DecidableEq

/-- Where the search for a free slot stands: `quota_ledger_claim_slot`. -/
structure Scan where
  attempt : ℕ
  hint : ℕ
  cap : ℕ
  /-- The second pass, from the front to the hint. -/
  wrapped : Bool
  i : ℕ
  deriving DecidableEq

/-- The end of the current pass. -/
def Scan.upto (k : Scan) : ℕ := if k.wrapped then k.hint else k.cap

/-- A visit of the drain: the locals of `quota_ledger_drain_pass` and
`quota_ledger_drain_ledger`. -/
structure Visit where
  visited : ℕ
  budget : ℕ
  retries : ℕ
  index : ℕ
  last : ℕ
  done : ℕ
  retried : ℕ
  settled : ℕ
  more : Bool
  deriving DecidableEq

/-- A return on its way: `quota_ledger_complete_return`. -/
structure Ret where
  slot : ℕ
  token : ℕ
  /-- The owner word that the release has to match. -/
  word : ℕ
  type : ℕ
  left : ℕ
  /-- The visit of the drain, for a deferred return. -/
  visit : Option Visit
  deriving DecidableEq

/-- Where a thread stands. -/
inductive Pc
  | idle
  /-- A call of the layer below that is none of the ledger's charges and returns. -/
  | outside
  | zero
  | acquire (o : Order)
  | reserveLoad (o : Order) (left : ℕ)
  | reserveTry (o : Order) (left : ℕ) (cur : ℤ)
  | askGate (st : Charge.Status)
  | scanHint (o : Order) (attempt : ℕ)
  | scanCap (o : Order) (attempt hint : ℕ)
  | scan (o : Order) (k : Scan)
  | draw (o : Order) (k : Scan)
  | claim (o : Order) (k : Scan) (epoch : ℕ)
  | setHint (o : Order) (slot epoch : ℕ)
  | grow (o : Order) (attempt : ℕ)
  | noSlot (o : Order)
  | setType (o : Order) (slot epoch : ℕ)
  | chargeStart (o : Order) (slot epoch : ℕ)
  | charging (o : Order) (slot epoch : ℕ)
  | undo (o : Order) (slot epoch : ℕ) (st : Charge.Status)
  | unreserve (o : Order) (epoch : ℕ) (st : Charge.Status)
  | refuse (st : Status)
  | reply (answer : Answer)
  | deferTry (h : Handle)
  | deferCount (h : Handle)
  | deferStamp (h : Handle)
  | deferPush
  | readType (r : Ret)
  | returnStart (r : Ret)
  | returning (r : Ret)
  | readTag (r : Ret)
  | free (r : Ret)
  | release (r : Ret)
  | drainEnter
  | drainPop (visited budget : ℕ)
  | drainCursor (v : Visit)
  | drainBudget (v : Visit)
  | drainWalk (v : Visit)
  | drainTake (v : Visit) (token : ℕ)
  | drainOwner (v : Visit) (token : ℕ)
  | drainRestore (v : Visit) (slot token : ℕ)
  | drainSettle (v : Visit) (abandoned : Bool)
  | drainReset (v : Visit) (abandoned : Bool)
  | drainLeave (v : Visit)
  | drainMore (v : Visit)
  | drainRetries (v : Visit)
  | drainPush (v : Visit)
  | drainExit
  deriving DecidableEq

structure Local (Block : Type*) where
  pc : Pc
  /-- The call of the layer below. -/
  chain : Charge.Local ℕ Block

def Local.goto (l : Local Block) (pc : Pc) : Local Block := { l with pc := pc }

inductive Turn (Block : Type*)
  | charge (type amount source : ℕ)
  /-- A return; `raised` above passive level, `ready` when there is a drain to defer to. -/
  | giveBack (h : Handle) (raised ready : Bool)
  | drain
  | adjust (h : Handle) (amount : ℕ)
  /-- A call of the layer below on a receipt outside the ledger. -/
  | other (turn : Charge.Turn ℕ Block)
  | setLimit (b : Block) (type : ℕ) (v : ℤ)
  | go (env : Env Block)

inductive Event
  | silent
  /-- A charge takes a free slot. -/
  | claimed (slot epoch type : ℕ)
  /-- A charge that failed frees its slot. -/
  | undone (slot epoch : ℕ)
  /-- A return frees the slot of the handle. -/
  | freed (slot epoch : ℕ)
  /-- The drain completes a deferred return and frees its slot. -/
  | completed (slot epoch : ℕ)
  /-- The drain lets a deferred return go. -/
  | dropped (slot epoch : ℕ)
  /-- The budget of an obligation is given back. -/
  | released (epoch type : ℕ)
  | charged (h : Handle)
  | refused (st : Status)
  | deferred (slot epoch : ℕ)
  | returned (answer : Answer)
  deriving DecidableEq, Repr

abbrev Result (Block : Type*) := Option ((Mem Block × Local Block) × Event)

/-- The call of the layer below is over. -/
def ends : Charge.Event ℕ Block → Bool
  | .silent => false
  | .taken _ _ _ => false
  | _ => true

def epochOf (word : ℕ) : ℕ := word % slotDeferred

section Steps

variable (m : Mem Block) (l : Local Block)

/-- A step after which the call goes on. -/
def stay (pc : Pc) : Result Block := some ((m, l.goto pc), .silent)

/-- The last step of a call. -/
def answer (ev : Event) : Result Block := some ((m, l.goto .idle), ev)

/-- A step of the call of the layer below, and what the ledger makes of it. -/
def inner [LinearOrder Block] (turn : Charge.Turn ℕ Block)
    (next : Mem Block → Local Block → Charge.Event ℕ Block → Result Block) : Result Block :=
  (Charge.thread m.chain l.chain turn).bind fun p =>
    next { m with chain := p.1.1 } { l with chain := p.1.2 } p.2

/-- What a charge of the ledger makes of a step of `quota_charge_chain`. -/
def afterCharge (o : Order) (slot epoch : ℕ) (m : Mem Block) (l : Local Block) :
    Charge.Event ℕ Block → Result Block
  | .charged _ token =>
    if token = 0 then stay m l (.undo o slot epoch .success)
    else
      let h : Handle := ⟨slot, token, epoch⟩
      answer { m with issued := m.issued ++ [h] } l (.charged h)
  | .uncharged st _ => stay m l (.undo o slot epoch st)
  | _ => stay m l (.charging o slot epoch)

/-- What a return of the ledger makes of a step of `quota_return_chain`. -/
def afterReturn (r : Ret) (m : Mem Block) (l : Local Block) (ev : Charge.Event ℕ Block) :
    Result Block :=
  if ends ev then stay m l (.readTag r) else stay m l (.returning r)

/-- What follows `quota_ledger_complete_return` when the slot is not freed. -/
def finish (r : Ret) (outcome : Outcome) : Result Block :=
  match r.visit, outcome with
  | none, .credited => answer m l (.returned .credited)
  | none, _ => answer m l (.returned .none)
  | some v, .retry =>
    if v.retries < deferRetryMax then stay m l (.drainRestore v r.slot r.token)
    else some ((m, l.goto (.drainSettle v true)), .dropped r.slot (epochOf r.word))
  | some v, _ => some ((m, l.goto (.drainSettle v false)), .dropped r.slot (epochOf r.word))

def afterSettle (v : Visit) (abandoned : Bool) : Pc :=
  let v := { v with settled := v.settled + 1 }
  if abandoned then .drainLeave v else .drainWalk { v with done := v.done + 1 }

/-- One step of `quota_ledger_charge_from`. -/
def goCharge [LinearOrder Block] (env : Env Block) : Result Block :=
  match l.pc with
  | .zero =>
    answer m l (.refused (.chain (if env.chain.process = none ∨ env.chain.gateSealed then
      .processIsTerminating else .success)))
  | .acquire o =>
    if env.ledger then stay m l (.reserveLoad o reserveTries)
    else answer m l (.refused (if env.chain.gateSealed then .chain .processIsTerminating
      else .insufficientResources))
  | .reserveLoad o left =>
    let cur := m.obligations o.type
    if left = 0 then stay m l (.askGate .retry)
    else if cur < 0 ∨ (typeCap o.type : ℤ) < cur then stay m l (.askGate .integerOverflow)
    else if cur = typeCap o.type then stay m l (.askGate .quotaExceeded)
    else stay m l (.reserveTry o left cur)
  | .reserveTry o left cur =>
    if m.obligations o.type = cur then
      stay (m.setObligations o.type (cur + 1)) l (.scanHint o 0)
    else stay m l (.reserveLoad o (left - 1))
  | .askGate st =>
    answer m l (.refused (.chain (if env.chain.gateOpen then st
      else if env.chain.gateSealed then .processIsTerminating else .retry)))
  | .scanHint o attempt => stay m l (.scanCap o attempt m.claimHint)
  | .scanCap o attempt hint =>
    let hint := if m.capacity < hint then 0 else hint
    stay m l (.scan o ⟨attempt, hint, m.capacity, false, hint⟩)
  | .scan o k =>
    if k.i < k.upto then
      if m.owner k.i ≠ 0 then stay m l (.scan o { k with i := k.i + 1 })
      else stay m l (.draw o k)
    else if k.wrapped = false then stay m l (.scan o { k with wrapped := true, i := 0 })
    else if growAttempts ≤ k.attempt then stay m l (.noSlot o)
    else stay m l (.grow o k.attempt)
  | .draw o k =>
    let epoch := (m.epochNext + 1) % 2 ^ 64
    let m := { m with epochNext := epoch }
    if epoch = 0 ∨ slotEpochMax < epoch then stay m l (.noSlot o)
    else stay m l (.claim o k epoch)
  | .claim o k epoch =>
    if m.owner k.i = 0 then
      some ((m.setOwner k.i epoch, l.goto (.setHint o k.i epoch)), .claimed k.i epoch o.type)
    else stay m l (.scan o { k with i := k.i + 1 })
  | .setHint o slot epoch =>
    stay { m with claimHint := slot + 1 } l (.setType o slot epoch)
  | .grow o attempt =>
    if capMax ≤ m.capacity ∨ env.chunk = false then stay m l (.noSlot o)
    else stay { m with capacity := m.capacity + chunkSlots } l (.scanHint o (attempt + 1))
  | .noSlot o => stay (m.releaseObligation o.type) l (.refuse .insufficientResources)
  | .setType o slot epoch => stay (m.setRtype slot o.type) l (.chargeStart o slot epoch)
  | .chargeStart o slot epoch =>
    inner m l (.charge slot o.type o.amount (o.source <<< 8)) (afterCharge o slot epoch)
  | .charging o slot epoch => inner m l (.go env.chain) (afterCharge o slot epoch)
  | .undo o slot epoch st =>
    some ((m.setOwner slot 0, l.goto (.unreserve o epoch st)), .undone slot epoch)
  | .unreserve o epoch st =>
    some ((m.releaseObligation o.type, l.goto (.refuse (.chain st))), .released epoch o.type)
  | .refuse st => answer m l (.refused st)
  | _ => none

/-- One step of `quota_ledger_return`, and of `quota_ledger_complete_return` also for the
drain. -/
def goReturn [LinearOrder Block] (env : Env Block) : Result Block :=
  match l.pc with
  | .deferTry h =>
    if m.owner h.slot = h.epoch then
      some ((m.setOwner h.slot (h.epoch ||| slotDeferred), l.goto (.deferCount h)),
        .deferred h.slot h.epoch)
    else answer m l (.returned .none)
  | .deferCount h =>
    stay { m with deferPending := inc32 m.deferPending } l (.deferStamp h)
  | .deferStamp h => stay (m.setToken h.slot h.token) l .deferPush
  | .deferPush => answer { m with deferQueued := true } l (.returned .deferred)
  | .readType r =>
    stay m l (.returnStart { r with type := m.rtype r.slot, left := returnTries })
  | .returnStart r => inner m l (.giveBack r.slot r.token) (afterReturn r)
  | .returning r => inner m l (.go env.chain) (afterReturn r)
  | .readTag r =>
    let tag := (m.chain.receipt r.slot).tag
    if Charge.tagGen tag = r.token ∧ Charge.tagState tag = Charge.receiptIdle then
      stay m l (.free r)
    else if Charge.tagGen tag = r.token then
      if r.left ≤ 1 then finish m l r .retry
      else stay m l (.returnStart { r with left := r.left - 1 })
    else finish m l r .stale
  | .free r =>
    if m.owner r.slot = r.word then
      some ((m.setOwner r.slot 0, l.goto (.release r)),
        if r.visit.isSome then .completed r.slot (epochOf r.word)
        else .freed r.slot (epochOf r.word))
    else finish m l r .credited
  | .release r =>
    some ((m.releaseObligation r.type,
      l.goto (match r.visit with
        | none => .reply .credited
        | some v => .drainSettle v false)), .released (epochOf r.word) r.type)
  | .reply a => answer m l (.returned a)
  | _ => none

/-- One step of `quota_ledger_drain_pass` and `quota_ledger_drain_ledger`. -/
def goDrain (env : Env Block) : Result Block :=
  match l.pc with
  | .drainEnter =>
    if m.draining then answer m l .silent
    else stay { m with draining := true } l (.drainPop 0 drainSlots)
  | .drainPop visited budget =>
    if visited < drainLedgers ∧ 0 < budget then
      match env.popped with
      | .nothing => stay m l .drainExit
      | .other spent => stay m l (.drainPop (visited + 1) (budget - spent))
      | .this =>
        if m.deferQueued then
          stay { m with deferQueued := false } l
            (.drainCursor ⟨visited + 1, budget, 0, 0, 0, 0, 0, 0, false⟩)
        else none
    else stay m l .drainExit
  | .drainCursor v => stay m l (.drainBudget { v with index := m.deferCursor })
  | .drainBudget v => stay m l (.drainWalk { v with retries := m.deferRetries })
  | .drainWalk v =>
    if m.capacity ≤ v.index then stay m l (.drainLeave v)
    else if v.budget = 0 then stay m l (.drainLeave { v with more := true })
    else
      let token := m.deferredToken v.index
      let v := { v with budget := v.budget - 1, last := v.index, index := v.index + 1 }
      if token = 0 then stay m l (.drainWalk v) else stay m l (.drainTake v token)
  | .drainTake v token =>
    if m.deferredToken v.last = token then stay (m.setToken v.last 0) l (.drainOwner v token)
    else stay m l (.drainWalk v)
  | .drainOwner v token =>
    stay m l (.readType ⟨v.last, token, m.owner v.last, 0, 0, some v⟩)
  | .drainRestore v slot token =>
    stay (m.setToken slot token) l
      (.drainWalk { v with retried := v.retried + 1, more := true })
  | .drainSettle v abandoned =>
    let pending := m.deferPending
    stay { m with deferPending := dec32 pending } l
      (if pending = 1 then .drainReset v abandoned else afterSettle v abandoned)
  | .drainReset v abandoned => stay { m with deferRetries := 0 } l (afterSettle v abandoned)
  | .drainLeave v =>
    stay { m with deferCursor := if v.more then v.last + 1 else 0 } l (.drainMore v)
  | .drainMore v => stay m l (.drainRetries { v with more := m.deferPending ≠ 0 })
  | .drainRetries v =>
    stay { m with deferRetries := if 0 < v.done then 0
      else if 0 < v.retried then inc32 m.deferRetries else m.deferRetries } l
      (.drainPush v)
  | .drainPush v =>
    stay { m with deferQueued := m.deferQueued || v.more } l (.drainPop v.visited v.budget)
  | .drainExit => answer { m with draining := false } l .silent
  | _ => none

/-- A call of the layer below that the ledger does not follow. -/
def goOutside [LinearOrder Block] (turn : Charge.Turn ℕ Block) : Result Block :=
  inner m l turn fun m l ev => if ends ev then answer m l .silent else stay m l .outside

/-- The receipt that a call of the layer below is about. -/
def receiptOf : Charge.Turn ℕ Block → Option ℕ
  | .charge r _ _ _ => some r
  | .giveBack r _ => some r
  | .adjust r _ _ => some r
  | _ => none

/-- The start of a call, with the checks of its arguments. -/
def start [LinearOrder Block] : Turn Block → Result Block
  | .charge type amount source =>
    if Charge.sourceCount ≤ source ∨ Charge.typeCount ≤ type ∨ Charge.amountMax < amount then
      answer m l (.refused (.chain .invalidParameter))
    else if amount = 0 then stay m l .zero
    else stay m l (.acquire ⟨type, amount, source⟩)
  | .giveBack h raised ready =>
    if h ∈ m.issued then
      if h.token = 0 ∨ m.capacity ≤ h.slot then answer m l (.returned .none)
      else if raised && ready then stay m l (.deferTry h)
      else stay m l (.readType ⟨h.slot, h.token, h.epoch, 0, 0, none⟩)
    else none
  | .drain => stay m l .drainEnter
  | .adjust h amount =>
    if h ∈ m.issued then goOutside m l (.adjust h.slot h.token amount) else none
  | .other turn =>
    match receiptOf turn with
    | some r => if capMax ≤ r then goOutside m l turn else none
    | none => none
  | .setLimit b type v => some (({ m with chain := m.chain.setLimit b type v }, l), .silent)
  | .go _ => none

/-- One step of a call. -/
def go [LinearOrder Block] (env : Env Block) : Result Block :=
  match l.pc with
  | .outside => goOutside m l (.go env.chain)
  | _ => (goCharge m l env).or ((goReturn m l env).or (goDrain m l env))

end Steps

/-- A step of a thread: one of its call, or the start of one when there is none. Limits are set
at any time. -/
def thread [LinearOrder Block] (m : Mem Block) (l : Local Block) (turn : Turn Block) :
    Result Block :=
  match turn, l.pc with
  | .go env, _ => go m l env
  | .setLimit b type v, _ => start m l (.setLimit b type v)
  | turn, .idle => start m l turn
  | _, _ => none

abbrev State (Tid Block : Type*) := Config Tid (Mem Block) (Local Block)

/-- A ledger as it is created: its inline slots, all free. -/
def initial {Tid : Type*} (limit : Block → ℕ → ℤ) : State Tid Block :=
  ⟨⟨⟨fun _ => .empty, fun _ _ => 0, limit⟩, fun _ => 0, fun _ => 0, fun _ => 0, fun _ => 0, 0,
    inlineSlots, 0, false, false, 0, 0, 0, []⟩, fun _ => ⟨.idle, .idle, fun _ _ => 0⟩⟩

end ImpossibleOs.Quota.Ledger
