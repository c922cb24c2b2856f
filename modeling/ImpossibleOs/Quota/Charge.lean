import ImpossibleOs.Quota.Gate

/-!
Charging a chain of quota blocks (`src/kernel/quota/quota_owner.c` and
`quota.c`).

A receipt carries one 64-bit word, two bits of state below a generation. A
call owns it from the exchange that makes the word busy to the store that makes
it idle or active again. A block's usage changes under the lock of that block,
and a resize holds the locks of all blocks of the chain, so each is one step.

What a call learns of the task is chosen by the schedule. Two fields of a
receipt and one of a thread are for the proofs only: where the amount is booked,
whether a charge waits for its return, and what a call has added so far. The
attribution to sources is left out.
-/

namespace ImpossibleOs.Quota.Charge

open Interleave Function

/-! ### The word of a receipt -/

def receiptIdle : ℕ := 0
def receiptActive : ℕ := 1
def receiptBusy : ℕ := 2

/-- `QUOTA_RECEIPT_TAG` -/
def receiptTag (gen state : ℕ) : ℕ := (gen <<< 2) % 2 ^ 64 ||| state

/-- `QUOTA_RECEIPT_TAG_GEN` -/
def tagGen (tag : ℕ) : ℕ := tag >>> 2

/-- `QUOTA_RECEIPT_TAG_STATE` -/
def tagState (tag : ℕ) : ℕ := tag &&& 3

/-- `QUOTA_RECEIPT_GEN_MAX` -/
def genMax : ℕ := 0x3FFFFFFFFFFFFFFF

/-- `QUOTA_AMOUNT_MAX` -/
def amountMax : ℕ := 0x7FFFFFFFFFFFFFFF

/-- `QUOTA_RESOURCE_TYPE_COUNT` -/
def typeCount : ℕ := 16

/-- `QUOTA_CHAIN_MAX` -/
def chainMax : ℕ := 4

def returnBusyTries : ℕ := 64

/-- `QUOTA_CHARGE_CLIENT` -/
def chargeClient : ℕ := 0x1

def chargeSourceMask : ℕ := 0xFF00

/-- `QUOTA_SOURCE_COUNT` -/
def sourceCount : ℕ := 8

/-! ### Receipts and blocks -/

inductive Status
  | success
  | invalidParameter
  | notSupported
  | integerOverflow
  | quotaExceeded
  | retry
  | processIsTerminating
  deriving DecidableEq, Repr

structure Receipt (Block : Type*) where
  blocks : List Block
  type : ℕ
  amount : ℕ
  tag : ℕ
  /-- The blocks that hold the amount now. -/
  booked : List Block
  /-- The charge has been published and no return has taken it. -/
  live : Bool

/-- A receipt that was just zeroed. -/
def Receipt.empty {Block : Type*} : Receipt Block := ⟨[], 0, 0, 0, [], false⟩

structure Mem (Rid Block : Type*) where
  receipt : Rid → Receipt Block
  usage : Block → ℕ → ℤ
  /-- Zero for no limit. -/
  limit : Block → ℕ → ℤ

variable {Tid Rid Block : Type*} [DecidableEq Tid] [DecidableEq Rid] [LinearOrder Block]

namespace Mem

def setReceipt (m : Mem Rid Block) (r : Rid) (rc : Receipt Block) : Mem Rid Block :=
  { m with receipt := update m.receipt r rc }

def setUsage (m : Mem Rid Block) (b : Block) (type : ℕ) (v : ℤ) : Mem Rid Block :=
  { m with usage := update m.usage b (update (m.usage b) type v) }

def setLimit (m : Mem Rid Block) (b : Block) (type : ℕ) (v : ℤ) : Mem Rid Block :=
  { m with limit := update m.limit b (update (m.limit b) type v) }

/-- `quota_check_locked`: the total that an addition would give. -/
def checkLocked (m : Mem Rid Block) (b : Block) (type add : ℕ) : Except Status ℤ :=
  let cur := m.usage b type
  if cur < 0 then .error .integerOverflow
  else if (add : ℤ) > amountMax - cur then .error .integerOverflow
  else if m.limit b type ≠ 0 ∧ m.limit b type < cur + add then .error .quotaExceeded
  else .ok (cur + add)

/-- `quota_release_locked`: what is left. -/
def releaseLocked (m : Mem Rid Block) (b : Block) (type sub : ℕ) : Except Status ℤ :=
  let cur := m.usage b type
  if cur < 0 then .error .integerOverflow
  else if cur < sub then .error .integerOverflow
  else .ok (cur - sub)

/-- `quota_charge` -/
def charge (m : Mem Rid Block) (b : Block) (type amount : ℕ) : Mem Rid Block × Status :=
  if typeCount ≤ type ∨ amountMax < amount then (m, .invalidParameter)
  else if amount = 0 then (m, .success)
  else
    match m.checkLocked b type amount with
    | .error st => (m, st)
    | .ok total => (m.setUsage b type total, .success)

/-- `quota_return` -/
def giveBack (m : Mem Rid Block) (b : Block) (type amount : ℕ) : Mem Rid Block × Status :=
  if typeCount ≤ type ∨ amountMax < amount then (m, .invalidParameter)
  else if amount = 0 then (m, .success)
  else
    match m.releaseLocked b type amount with
    | .error st => (m, st)
    | .ok left => (m.setUsage b type left, .success)

/-- The usages that a resize leaves, if every block agrees; the first one that does not
decides the answer. -/
def resizeLocked (m : Mem Rid Block) (type old new : ℕ) : List Block → Except Status (Mem Rid Block)
  | [] => .ok m
  | b :: bs =>
    match if old < new then m.checkLocked b type (new - old)
      else m.releaseLocked b type (old - new) with
    | .error st => .error st
    | .ok total => resizeLocked (m.setUsage b type total) type old new bs

end Mem

/-- `quota_chain_append`; `none` when the chain is full. -/
def chainAppend (chain : List Block) : Option Block → Option (List Block)
  | none => some chain
  | some b =>
    if b ∈ chain then some chain
    else if chainMax ≤ chain.length then none
    else some (chain ++ [b])

/-- A block in its place by address; one that is there is not put in twice. -/
def sortInsert (b : Block) : List Block → List Block
  | [] => [b]
  | x :: xs => if x = b then x :: xs else if b < x then b :: x :: xs else x :: sortInsert b xs

def adjustSortBlocks (blocks : List Block) : List Block :=
  blocks.foldl (fun sorted b => sortInsert b sorted) []

/-! ### Threads -/

/-- What a call finds out about the task. -/
structure Env (Block : Type*) where
  /-- The answer of the gate; a task that is neither open nor sealed is closed. -/
  gateOpen : Bool
  gateSealed : Bool
  process : Option Block
  user : Option Block
  job : Option Block
  /-- The process block is still the one that was seen. -/
  same : Bool

/-- Where a thread stands. -/
inductive Pc (Rid : Type*)
  | idle
  | chargeLoad (r : Rid) (type amount : ℕ)
  | chargeTry (r : Rid) (type amount claim : ℕ)
  | chargeFill (r : Rid) (type amount gen : ℕ)
  | chargeGate (r : Rid) (gen : ℕ)
  | chargeChain (r : Rid) (gen : ℕ)
  | charging (r : Rid) (gen i : ℕ)
  | unwinding (r : Rid) (gen i j : ℕ) (st : Status)
  | chargeRelease (r : Rid) (gen : ℕ) (st : Status)
  | publish (r : Rid) (gen : ℕ)
  | returnTry (r : Rid) (token : ℕ)
  | returnLoad (r : Rid) (token left : ℕ)
  | returnSpin (r : Rid) (token left : ℕ)
  | returnLast (r : Rid) (token : ℕ)
  | crediting (r : Rid) (token i : ℕ)
  | returnRelease (r : Rid) (token : ℕ)
  | adjustTry (r : Rid) (token amount : ℕ)
  | adjusting (r : Rid) (token amount : ℕ)
  | republish (r : Rid) (token : ℕ) (st : Status)
  deriving DecidableEq

structure Local (Rid Block : Type*) where
  pc : Pc Rid
  /-- What the call has added to each usage. -/
  moved : Block → ℕ → ℤ

def Local.goto (l : Local Rid Block) (pc : Pc Rid) : Local Rid Block := { l with pc := pc }

/-- The call has changed the usages of `m` to those of `m'`. -/
def Local.move (l : Local Rid Block) (m m' : Mem Rid Block) : Local Rid Block :=
  { l with moved := fun b type => l.moved b type + (m'.usage b type - m.usage b type) }

inductive Turn (Rid Block : Type*)
  | charge (r : Rid) (type amount flags : ℕ)
  | giveBack (r : Rid) (token : ℕ)
  | adjust (r : Rid) (token amount : ℕ)
  | setLimit (b : Block) (type : ℕ) (v : ℤ)
  | go (env : Env Block)

inductive Event (Rid Block : Type*)
  | silent
  /-- A charge succeeds and hands out its token. -/
  | charged (r : Rid) (token : ℕ)
  /-- A charge ends without a token. -/
  | uncharged (st : Status) (moved : Block → ℕ → ℤ)
  /-- A return that presents `token` takes the charge of generation `gen`. -/
  | taken (r : Rid) (gen token : ℕ)
  | returned
  | adjusted (st : Status) (moved : Block → ℕ → ℤ)

/-- The answer of a thread's step. -/
abbrev Result (Rid Block : Type*) := Option ((Mem Rid Block × Local Rid Block) × Event Rid Block)

section Steps

variable (m : Mem Rid Block) (l : Local Rid Block)

def stay (pc : Pc Rid) : Result Rid Block := some ((m, l.goto pc), .silent)

/-- A charge that returns without a token. -/
def failCharge (st : Status) : Result Rid Block := some ((m, l.goto .idle), .uncharged st l.moved)

def failAdjust (st : Status) : Result Rid Block := some ((m, l.goto .idle), .adjusted st l.moved)

def returnDone : Result Rid Block := some ((m, l.goto .idle), .returned)

def takeCharge (r : Rid) (token : ℕ) (lost : Result Rid Block) : Result Rid Block :=
  let rc := m.receipt r
  if rc.tag = receiptTag token receiptActive then
    some ((m.setReceipt r { rc with tag := receiptTag token receiptBusy, live := false },
      l.goto (.crediting r token 0)), .taken r (tagGen rc.tag) token)
  else lost

/-- The chain of a task: its process, its user and its job. -/
def chainOf (env : Env Block) : Option (List Block) :=
  (chainAppend [] env.process).bind fun chain =>
    (chainAppend chain env.user).bind fun chain => chainAppend chain env.job

/-- One step of a call. -/
def go (env : Env Block) : Result Rid Block :=
  match l.pc with
  | .idle => none
  | .chargeLoad r type amount =>
    let tag := (m.receipt r).tag
    if tagState tag ≠ receiptIdle then failCharge m l .invalidParameter
    else if genMax ≤ tagGen tag then failCharge m l .integerOverflow
    else stay m l (.chargeTry r type amount tag)
  | .chargeTry r type amount claim =>
    let rc := m.receipt r
    if rc.tag = claim then
      some ((m.setReceipt r { rc with tag := receiptTag (tagGen claim) receiptBusy },
        l.goto (.chargeFill r type amount (tagGen claim))), .silent)
    else failCharge m l .invalidParameter
  | .chargeFill r type amount gen =>
    let rc := m.receipt r
    let m := m.setReceipt r { rc with blocks := [], type := type, amount := amount }
    if typeCount ≤ type then stay m l (.chargeRelease r gen .invalidParameter)
    else if amount = 0 then
      if env.process = none ∨ env.gateSealed then
        stay m l (.chargeRelease r gen .processIsTerminating)
      else stay m l (.chargeRelease r gen .success)
    else stay m l (.chargeGate r gen)
  | .chargeGate r gen =>
    if env.gateOpen then stay m l (.chargeChain r gen)
    else
      stay m l (.chargeRelease r gen
        (if env.gateSealed then .processIsTerminating else .retry))
  | .chargeChain r gen =>
    let rc := m.receipt r
    if env.process = none then stay m l (.chargeRelease r gen .processIsTerminating)
    else
      match chainOf env with
      | none => stay m l (.chargeRelease r gen .invalidParameter)
      | some chain =>
        if env.same then stay (m.setReceipt r { rc with blocks := chain }) l (.charging r gen 0)
        else stay m l (.chargeRelease r gen .processIsTerminating)
  | .charging r gen i =>
    let rc := m.receipt r
    match rc.blocks[i]? with
    | none => stay m l (.publish r gen)
    | some b =>
      let res := m.charge b rc.type rc.amount
      if res.2 = .success then
        stay (res.1.setReceipt r { rc with booked := rc.booked ++ [b] }) (l.move m res.1)
          (.charging r gen (i + 1))
      else stay res.1 l (.unwinding r gen i 0 res.2)
  | .unwinding r gen i j st =>
    let rc := m.receipt r
    if j < i then
      match rc.blocks[j]? with
      | none => none
      | some b =>
        let res := m.giveBack b rc.type rc.amount
        stay (res.1.setReceipt r { rc with booked := rc.booked.tail }) (l.move m res.1)
          (.unwinding r gen i (j + 1) st)
    else stay (m.setReceipt r { rc with blocks := [] }) l (.chargeRelease r gen st)
  | .chargeRelease r gen st =>
    let rc := m.receipt r
    failCharge (m.setReceipt r { rc with tag := receiptTag gen receiptIdle }) l st
  | .publish r gen =>
    let rc := m.receipt r
    some ((m.setReceipt r { rc with tag := receiptTag (gen + 1) receiptActive, live := true },
      l.goto .idle), .charged r (gen + 1))
  | .returnTry r token =>
    takeCharge m l r token (stay m l (.returnLoad r token (returnBusyTries - 1)))
  | .returnLoad r token left =>
    let tag := (m.receipt r).tag
    if tagGen tag ≠ token ∨ tagState tag = receiptIdle then returnDone m l
    else if tagState tag = receiptActive then stay m l (.returnSpin r token left)
    else if left = 0 then stay m l (.returnLast r token)
    else stay m l (.returnLoad r token (left - 1))
  | .returnSpin r token left =>
    takeCharge m l r token
      (if left = 0 then stay m l (.returnLast r token)
      else stay m l (.returnLoad r token (left - 1)))
  | .returnLast r token => takeCharge m l r token (returnDone m l)
  | .crediting r token i =>
    let rc := m.receipt r
    match rc.blocks[i]? with
    | none =>
      stay (m.setReceipt r { rc with blocks := [], amount := 0 }) l (.returnRelease r token)
    | some b =>
      let res := m.giveBack b rc.type rc.amount
      stay (res.1.setReceipt r { rc with booked := rc.booked.tail }) (l.move m res.1)
        (.crediting r token (i + 1))
  | .returnRelease r token =>
    let rc := m.receipt r
    returnDone (m.setReceipt r { rc with tag := receiptTag token receiptIdle }) l
  | .adjustTry r token amount =>
    let rc := m.receipt r
    if rc.tag = receiptTag token receiptActive then
      stay (m.setReceipt r { rc with tag := receiptTag token receiptBusy }) l
        (.adjusting r token amount)
    else failAdjust m l .invalidParameter
  | .adjusting r token amount =>
    let rc := m.receipt r
    if typeCount ≤ rc.type then stay m l (.republish r token .invalidParameter)
    else if amount = rc.amount then stay m l (.republish r token .success)
    else
      match m.resizeLocked rc.type rc.amount amount (adjustSortBlocks rc.blocks) with
      | .error st => stay m l (.republish r token st)
      | .ok m' =>
        stay (m'.setReceipt r { rc with amount := amount }) (l.move m m')
          (.republish r token .success)
  | .republish r token st =>
    let rc := m.receipt r
    failAdjust (m.setReceipt r { rc with tag := receiptTag token receiptActive }) l st

/-- The start of a call, with the checks of its arguments. -/
def start : Turn Rid Block → Result Rid Block
  | .charge r type amount flags =>
    let l : Local Rid Block := ⟨l.pc, fun _ _ => 0⟩
    if flags &&& (chargeClient ||| chargeSourceMask) ≠ flags then
      failCharge m l .invalidParameter
    else if sourceCount ≤ (flags &&& chargeSourceMask) >>> 8 then
      failCharge m l .invalidParameter
    else if flags &&& chargeClient ≠ 0 then failCharge m l .notSupported
    else stay m l (.chargeLoad r type amount)
  | .giveBack r token =>
    let l : Local Rid Block := ⟨l.pc, fun _ _ => 0⟩
    if token = 0 ∨ genMax < token then returnDone m l
    else stay m l (.returnTry r token)
  | .adjust r token amount =>
    let l : Local Rid Block := ⟨l.pc, fun _ _ => 0⟩
    if token = 0 ∨ genMax < token then failAdjust m l .invalidParameter
    else if amountMax < amount then failAdjust m l .invalidParameter
    else stay m l (.adjustTry r token amount)
  | .setLimit b type v => some ((m.setLimit b type v, l), .silent)
  | .go _ => none

end Steps

/-- A step of a thread: one of its call, or the start of one when there is none. Limits are set
at any time. -/
def thread (m : Mem Rid Block) (l : Local Rid Block) (turn : Turn Rid Block) :
    Result Rid Block :=
  match turn, l.pc with
  | .go env, _ => go m l env
  | .setLimit b type v, _ => start m l (.setLimit b type v)
  | turn, .idle => start m l turn
  | _, _ => none

abbrev State (Tid Rid Block : Type*) := Config Tid (Mem Rid Block) (Local Rid Block)

/-- All usages are zero and all receipts empty; the limits are what they are. -/
def initial (limit : Block → ℕ → ℤ) : State Tid Rid Block :=
  ⟨⟨fun _ => .empty, fun _ _ => 0, limit⟩, fun _ => ⟨.idle, fun _ _ => 0⟩⟩

end ImpossibleOs.Quota.Charge
