import ImpossibleOs.Lib.Interleave

/-!
ALPC messages (`src/kernel/ipc/alpc_port.c`), from the connection of the ports on.

What runs under the lock of a port, or of two, is one step; so is an allocation, a quota charge
and a move of an atomic counter. Waits end whenever the schedule says so. A call keeps the port it
found behind `ConnectedPort`, whatever happens to the link meanwhile.
-/

namespace ImpossibleOs.Ipc.Alpc

open Function (update)

/-! ### Ports -/

inductive Status where
  | success
  | portDisconnected
  | timeout
  | insufficientResources
  | bufferTooSmall
  | replyMessageMismatch
  /-- what `quota_charge_current_from` answered -/
  | quota (status : ℕ)
  deriving DecidableEq

inductive MessageType where
  | request
  | datagram
  | portClosed
  deriving DecidableEq

/-- `PORT_MESSAGE_ENTRY`. The token stands for the receipt; a message without one was not charged
to the quota of a task. -/
structure Entry where
  messageId : ℕ
  type : MessageType
  body : List UInt8
  chargedSize : ℕ
  token : Option ℕ

/-- `ALPC_PENDING_REPLY` -/
structure Record where
  messageId : ℕ
  chargedSize : ℕ
  replyBodyCap : ℕ
  replyBody : List UInt8
  completed : Bool
  replyStatus : Status

structure Port (P : Type) where
  connectedPort : Option P
  messageQueue : List Entry
  pendingQueue : List ℕ
  poolUsageBytes : ℕ
  nextMessageId : ℕ
  maxPoolUsage : ℕ
  maxMessageLength : ℕ
  disconnected : Bool
  deleted : Bool

/-- The heap of the pending records beside the ports. `fault` is raised when a record is touched
that has been freed. -/
structure Mem (P : Type) where
  port : P → Port P
  record : ℕ → Option Record
  nextRecord : ℕ
  nextToken : ℕ
  fault : Bool

def sizeofPortMessage : ℕ := 40

/-- `sizeof(PORT_MESSAGE_ENTRY)` -/
def sizeofEntry : ℕ := 120

def sizeofPendingReply : ℕ := 200

def maxAllowedMessageLength : ℕ := 65528

def Port.effectiveMaxMessage {P : Type} (p : Port P) : ℕ :=
  if p.maxMessageLength = 0 ∨ maxAllowedMessageLength < p.maxMessageLength then
    maxAllowedMessageLength
  else p.maxMessageLength

/-! ### Calls -/

/-- A datagram, or a request that has room for a reply. -/
structure Send (P : Type) where
  port : P
  body : List UInt8
  replyCap : Option ℕ

/-- What a call still has to give back. -/
inductive Release (P : Type) where
  /-- bytes of the pool of a port -/
  | bytes (p : P) (size : ℕ)
  /-- the quota of a message, and the message itself -/
  | message (token : Option ℕ)
  | record (r : ℕ)

inductive Result where
  | status (status : Status)
  /-- a request got the reply that `r` waited for -/
  | replied (r messageId : ℕ) (body : List UInt8)
  | received (body : List UInt8)

inductive Call (P : Type) where
  | idle
  | send (s : Send P)
  | checkPeer (s : Send P) (peer : P)
  | reserveRecord (s : Send P) (peer : P) (cap : ℕ)
  | makeRecord (s : Send P) (peer : P) (cap : ℕ)
  /-- before `AlpcAllocateMessage`, for a request with its record -/
  | reserve (s : Send P) (peer : P) (r : Option ℕ)
  | charge (s : Send P) (peer : P) (r : Option ℕ)
  | allocate (s : Send P) (peer : P) (r : Option ℕ) (token : Option ℕ)
  | stamp (s : Send P) (peer : P) (r : Option ℕ) (token : Option ℕ)
  | enqueue (s : Send P) (peer : P) (r : Option ℕ) (entry : Entry)
  /-- in `event_wait_timeout` -/
  | wait (s : Send P) (r messageId : ℕ)
  | receive (p : P) (room : ℕ)
  | reply (p : P) (messageId : ℕ) (body : List UInt8)
  | replyOn (p peer : P) (messageId : ℕ) (body : List UInt8)
  | disconnect (p : P)
  /-- between the two sections of `AlpcDisconnectPort` -/
  | closing (p peer : P)
  | unwind (todo : List (Release P)) (result : Result)

/-- The request that goes with a message: whose, its record, the room for the reply. -/
structure Asked (P : Type) where
  port : P
  record : ℕ
  cap : ℕ

inductive Event (P : Type) where
  | silent
  | charged (p : P) (size : ℕ)
  | uncharged (p : P) (size : ℕ)
  | quotaCharged (token : ℕ)
  | destroyed (token : Option ℕ)
  /-- a message was put into the queue of `p`, and with it the record of a request into the other
  queue of the sender -/
  | accepted (p : P) (entry : Entry) (request : Option (Asked P))
  | delivered (p : P) (entry : Entry)
  /-- a reply on `p` answers the record `r` of `peer` -/
  | replied (p peer : P) (r messageId : ℕ) (body : List UInt8)
  | timedOut (p : P) (r : ℕ)
  /-- the first section of `AlpcDisconnectPort`, which drained `records` -/
  | cut (p : P) (records : List ℕ)
  /-- the second one, on the peer -/
  | closed (p peer : P) (marker : Option Entry) (records : List ℕ)
  | returned (result : Result)
  | deleted (p : P) (entries : List Entry)

inductive Request (P : Type) where
  | datagram (p : P) (body : List UInt8)
  | sync (p : P) (body : List UInt8) (recvBufLen : ℕ)
  | receive (p : P) (recvBufLen : ℕ)
  | reply (p : P) (messageId : ℕ) (body : List UInt8)
  | disconnect (p : P)

/-- The answer of the quota: a charge, none before the quotas are up, or a refusal. -/
inductive Quota where
  | granted
  | exempt
  | refused (status : ℕ)

/-- What the step does not decide itself. -/
structure Oracle where
  kmalloc : Bool
  quota : Quota
  timedOut : Bool

inductive Choice (P : Type) where
  | begin (req : Request P)
  | go (oracle : Oracle)

variable {P : Type} [DecidableEq P]

abbrev Outcome (P : Type) := (Mem P × Call P) × Event P

def quietly (m : Mem P) (call : Call P) : Outcome P := ((m, call), .silent)

def give (m : Mem P) (status : Status) : Outcome P := quietly m (.unwind [] (.status status))

def Mem.setPort (m : Mem P) (p : P) (port : Port P) : Mem P :=
  { m with port := update m.port p port }

/-! ### Records -/

/-- Records are looked at. -/
def Mem.touch (m : Mem P) (rs : List ℕ) : Mem P :=
  { m with fault := m.fault || rs.any fun r => (m.record r).isNone }

def Mem.setRecord (m : Mem P) (r : ℕ) (rec : Record) : Mem P :=
  { m with record := update m.record r (some rec) }

/-- Every record of a queue is completed with `STATUS_PORT_DISCONNECTED`. -/
def Mem.drain (m : Mem P) (rs : List ℕ) : Mem P :=
  { m with record := fun r =>
      if r ∈ rs then (m.record r).map fun rec =>
        { rec with replyBody := [], completed := true, replyStatus := .portDisconnected }
      else m.record r }

/-- `pending_queue_find` -/
def Mem.findPending (m : Mem P) (p : P) (messageId : ℕ) : Option ℕ :=
  (m.port p).pendingQueue.find? fun r => (m.record r).any fun rec => rec.messageId == messageId

/-- What `alpc_free_pending_reply` gives back. -/
def Mem.recordReleases (m : Mem P) (p : P) : Option ℕ → List (Release P)
  | none => []
  | some r => [.bytes p ((m.record r).elim 0 Record.chargedSize), .record r]

def Port.reserve (port : Port P) (size : ℕ) : Option (Port P) :=
  if 0 < port.maxPoolUsage ∧ port.maxPoolUsage < port.poolUsageBytes + size then none
  else some { port with poolUsageBytes := port.poolUsageBytes + size }

/-- `alpc_uncharge_port_bytes_raw` -/
def Port.uncharge (port : Port P) (size : ℕ) : Port P :=
  if size ≤ port.poolUsageBytes then { port with poolUsageBytes := port.poolUsageBytes - size }
  else port

/-! ### Sends -/

def recordSize (cap : ℕ) : ℕ := sizeofPendingReply + cap

def Send.entrySize (s : Send P) : ℕ := sizeofEntry + s.body.length

/-- The first section of `alpc_datagram_send` and `alpc_sync_request`. -/
def goSend (m : Mem P) (s : Send P) : Outcome P :=
  if (m.port s.port).disconnected then give m .portDisconnected
  else
    match (m.port s.port).connectedPort with
    | none => give m .portDisconnected
    | some peer => quietly m (.checkPeer s peer)

def goCheckPeer (m : Mem P) (s : Send P) (peer : P) : Outcome P :=
  if (m.port peer).disconnected then give m .portDisconnected
  else
    match s.replyCap with
    | none => quietly m (.reserve s peer none)
    | some cap => quietly m (.reserveRecord s peer cap)

/-- The section of `alpc_alloc_pending_reply`. -/
def goReserveRecord (m : Mem P) (s : Send P) (peer : P) (cap : ℕ) : Outcome P :=
  if (m.port s.port).disconnected then give m .insufficientResources
  else
    match (m.port s.port).reserve (recordSize cap) with
    | none => give m .insufficientResources
    | some port =>
      ((m.setPort s.port port, .makeRecord s peer cap), .charged s.port (recordSize cap))

def goMakeRecord (m : Mem P) (s : Send P) (peer : P) (cap : ℕ) (o : Oracle) : Outcome P :=
  if o.kmalloc then
    quietly
      { m.setRecord m.nextRecord ⟨0, recordSize cap, cap, [], false, .success⟩ with
        nextRecord := m.nextRecord + 1 }
      (.reserve s peer (some m.nextRecord))
  else
    quietly m (.unwind [.bytes s.port (recordSize cap)] (.status .insufficientResources))

/-- The section of `AlpcAllocateMessage`. -/
def goReserve (m : Mem P) (s : Send P) (peer : P) (r : Option ℕ) : Outcome P :=
  if (m.port peer).disconnected then
    quietly m (.unwind (m.recordReleases s.port r) (.status .portDisconnected))
  else
    match (m.port peer).reserve s.entrySize with
    | none => quietly m (.unwind (m.recordReleases s.port r) (.status .insufficientResources))
    | some port => ((m.setPort peer port, .charge s peer r), .charged peer s.entrySize)

def goCharge (m : Mem P) (s : Send P) (peer : P) (r : Option ℕ) (o : Oracle) : Outcome P :=
  match o.quota with
  | .refused status =>
    quietly m (.unwind (.bytes peer s.entrySize :: m.recordReleases s.port r)
      (.status (.quota status)))
  | .exempt => quietly m (.allocate s peer r none)
  | .granted =>
    (({ m with nextToken := m.nextToken + 1 }, .allocate s peer r (some m.nextToken)),
      .quotaCharged m.nextToken)

def goAllocate (m : Mem P) (s : Send P) (peer : P) (r token : Option ℕ) (o : Oracle) :
    Outcome P :=
  if o.kmalloc then quietly m (.stamp s peer r token)
  else
    quietly m (.unwind (.message token :: .bytes peer s.entrySize :: m.recordReleases s.port r)
      (.status .insufficientResources))

def goStamp (m : Mem P) (s : Send P) (peer : P) (r token : Option ℕ) : Outcome P :=
  let port := m.port s.port
  let id := port.nextMessageId
  let m' := m.setPort s.port { port with nextMessageId := (id + 1) % 2 ^ 64 }
  match r with
  | none => quietly m' (.enqueue s peer none ⟨id, .datagram, s.body, s.entrySize, token⟩)
  | some r =>
    quietly
      (match m.record r with
        | some rec => m'.setRecord r { rec with messageId := id }
        | none => m'.touch [r])
      (.enqueue s peer (some r) ⟨id, .request, s.body, s.entrySize, token⟩)

/-- `msg_queue_enqueue_locked` -/
def Port.enqueue (port : Port P) (entry : Entry) : Port P :=
  { port with messageQueue := port.messageQueue ++ [entry] }

/-- `AlpcFreeMessage` and what follows it on the way out. -/
def refuse (m : Mem P) (s : Send P) (peer : P) (r : Option ℕ) (entry : Entry) : Outcome P :=
  quietly m (.unwind
    (.bytes peer entry.chargedSize :: .message entry.token :: m.recordReleases s.port r)
    (.status .portDisconnected))

def goEnqueue (m : Mem P) (s : Send P) (peer : P) (r : Option ℕ) (entry : Entry) : Outcome P :=
  match r with
  | none =>
    if (m.port peer).disconnected then refuse m s peer none entry
    else
      ((m.setPort peer ((m.port peer).enqueue entry), .unwind [] (.status .success)),
        .accepted peer entry none)
  | some r =>
    if (m.port s.port).disconnected || (m.port peer).disconnected then
      refuse m s peer (some r) entry
    else
      let sender := m.port s.port
      let m' := m.setPort s.port { sender with pendingQueue := sender.pendingQueue ++ [r] }
      ((m'.setPort peer ((m'.port peer).enqueue entry), .wait s r entry.messageId),
        .accepted peer entry (some ⟨s.port, r, s.replyCap.getD 0⟩))

/-- The last section of `alpc_sync_request`. -/
def goWait (m : Mem P) (s : Send P) (r messageId : ℕ) : Outcome P :=
  let port := m.port s.port
  match m.record r with
  | none => quietly (m.touch [r]) (.unwind (m.recordReleases s.port (some r)) (.status .timeout))
  | some rec =>
    if rec.completed then
      quietly m (.unwind (m.recordReleases s.port (some r))
        (if rec.replyStatus = .success then .replied r messageId rec.replyBody
          else .status rec.replyStatus))
    else
      let walked := m.touch port.pendingQueue
      if r ∈ port.pendingQueue then
        ((walked.setPort s.port { port with pendingQueue := port.pendingQueue.erase r },
          .unwind (m.recordReleases s.port (some r)) (.status .timeout)), .timedOut s.port r)
      else quietly walked (.unwind (m.recordReleases s.port (some r)) (.status .timeout))

/-- The section of `alpc_receive_only`. -/
def goReceive (m : Mem P) (p : P) (room : ℕ) (o : Oracle) : Outcome P :=
  let port := m.port p
  match port.messageQueue with
  | [] =>
    if port.disconnected then give m .portDisconnected
    else if o.timedOut then give m .timeout
    else quietly m (.receive p room)
  | entry :: rest =>
    ((m.setPort p { port with messageQueue := rest },
      .unwind [.bytes p entry.chargedSize, .message entry.token]
        (.received (entry.body.take room))), .delivered p entry)

def goReply (m : Mem P) (p : P) (messageId : ℕ) (body : List UInt8) : Outcome P :=
  match (m.port p).connectedPort with
  | none => give m .portDisconnected
  | some peer => quietly m (.replyOn p peer messageId body)

/-- The second section of `alpc_reply`. -/
def goReplyOn (m : Mem P) (p peer : P) (messageId : ℕ) (body : List UInt8) : Outcome P :=
  let port := m.port peer
  let walked := m.touch port.pendingQueue
  match m.findPending peer messageId with
  | none => give walked .replyMessageMismatch
  | some r =>
    match m.record r with
    | none => give walked .replyMessageMismatch
    | some rec =>
      (((walked.setPort peer { port with pendingQueue := port.pendingQueue.erase r }).setRecord
          r { rec with
            replyBody := body.take rec.replyBodyCap
            completed := true
            replyStatus := .success }, .unwind [] (.status .success)),
        .replied p peer r messageId body)

def Mem.disconnectPort (m : Mem P) (p : P) (port : Port P) : Mem P :=
  ((m.touch port.pendingQueue).drain port.pendingQueue).setPort p
    { port with disconnected := true, pendingQueue := [] }

/-- The first section of `AlpcDisconnectPort`. -/
def goDisconnect (m : Mem P) (p : P) : Outcome P :=
  let port := m.port p
  let m' := m.disconnectPort p { port with connectedPort := none }
  match port.connectedPort with
  | none => ((m', .unwind [] (.status .success)), .cut p port.pendingQueue)
  | some peer => ((m', .closing p peer), .cut p port.pendingQueue)

/-- The marker that `AlpcDisconnectPort` leaves with the peer. -/
def closedMarker : Entry := ⟨0, .portClosed, [], 0, none⟩

/-- The second section, on the peer. -/
def goClosing (m : Mem P) (p peer : P) (o : Oracle) : Outcome P :=
  let marker := if o.kmalloc then some closedMarker else none
  let port := { m.port peer with messageQueue := (m.port peer).messageQueue ++ marker.toList }
  ((m.disconnectPort peer port, .unwind [] (.status .success)),
    .closed p peer marker port.pendingQueue)

/-- `alpc_port_on_delete` -/
def Mem.onDelete (m : Mem P) (p : P) : Mem P :=
  m.disconnectPort p { m.port p with connectedPort := none, messageQueue := [], deleted := true }

/-! ### Threads -/

/-- One thing is given back. -/
def goUnwind (m : Mem P) (todo : List (Release P)) (result : Result) : Outcome P :=
  match todo with
  | [] => ((m, .idle), .returned result)
  | .bytes p size :: todo =>
    ((m.setPort p ((m.port p).uncharge size), .unwind todo result), .uncharged p size)
  | .message token :: todo => ((m, .unwind todo result), .destroyed token)
  | .record r :: todo =>
    quietly { m.touch [r] with record := update m.record r none } (.unwind todo result)

def advance (m : Mem P) (o : Oracle) : Call P → Outcome P
  | .idle => quietly m .idle
  | .send s => goSend m s
  | .checkPeer s peer => goCheckPeer m s peer
  | .reserveRecord s peer cap => goReserveRecord m s peer cap
  | .makeRecord s peer cap => goMakeRecord m s peer cap o
  | .reserve s peer r => goReserve m s peer r
  | .charge s peer r => goCharge m s peer r o
  | .allocate s peer r token => goAllocate m s peer r token o
  | .stamp s peer r token => goStamp m s peer r token
  | .enqueue s peer r entry => goEnqueue m s peer r entry
  | .wait s r messageId => goWait m s r messageId
  | .receive p room => goReceive m p room o
  | .reply p messageId body => goReply m p messageId body
  | .replyOn p peer messageId body => goReplyOn m p peer messageId body
  | .disconnect p => goDisconnect m p
  | .closing p peer => goClosing m p peer o
  | .unwind todo result => goUnwind m todo result

def Request.port : Request P → P
  | .datagram p _ => p
  | .sync p _ _ => p
  | .receive p _ => p
  | .reply p _ _ => p
  | .disconnect p => p

/-- The checks of a call before the first lock. -/
def start (m : Mem P) : Request P → Outcome P
  | .datagram p body =>
    if (m.port p).effectiveMaxMessage < body.length then give m .bufferTooSmall
    else quietly m (.send ⟨p, body, none⟩)
  | .sync p body recvBufLen =>
    if recvBufLen < sizeofPortMessage then give m .bufferTooSmall
    else if (m.port p).effectiveMaxMessage < body.length then give m .bufferTooSmall
    else
      quietly m (.send
        ⟨p, body, some (min (recvBufLen - sizeofPortMessage) maxAllowedMessageLength)⟩)
  | .receive p recvBufLen =>
    if recvBufLen < sizeofPortMessage then give m .bufferTooSmall
    else quietly m (.receive p (recvBufLen - sizeofPortMessage))
  | .reply p messageId body =>
    if messageId = 0 then give m .replyMessageMismatch
    else quietly m (.reply p messageId body)
  | .disconnect p => quietly m (.disconnect p)

def thread (m : Mem P) (call : Call P) : Choice P → Option (Outcome P)
  | .begin req =>
    match call with
    | .idle => if (m.port req.port).deleted then none else some (start m req)
    | _ => none
  | .go o => some (advance m o call)

def Call.ports : Call P → List P
  | .idle => []
  | .send s => [s.port]
  | .checkPeer s peer => [s.port, peer]
  | .reserveRecord s peer _ => [s.port, peer]
  | .makeRecord s peer _ => [s.port, peer]
  | .reserve s peer _ => [s.port, peer]
  | .charge s peer _ => [s.port, peer]
  | .allocate s peer _ _ => [s.port, peer]
  | .stamp s peer _ _ => [s.port, peer]
  | .enqueue s peer _ _ => [s.port, peer]
  | .wait s _ _ => [s.port]
  | .receive p _ => [p]
  | .reply p _ _ => [p]
  | .replyOn p peer _ _ => [p, peer]
  | .disconnect p => [p]
  | .closing p peer => [p, peer]
  | .unwind todo _ => todo.filterMap fun
      | .bytes p _ => some p
      | _ => none

/-! ### Runs -/

variable {Tid : Type} [DecidableEq Tid] [Fintype Tid] [Fintype P]

abbrev Machine (Tid P : Type) := Interleave.Config Tid (Mem P) (Call P)

inductive Step (Tid P : Type) where
  | turn (t : Tid) (choice : Choice P)
  /-- the last reference to a port is gone -/
  | delete (p : P)

/-- No call and no other port refers to `p`. -/
def unreferenced (c : Machine Tid P) (p : P) : Bool :=
  decide ((∀ t, p ∉ (c.threads t).ports) ∧ ∀ q, (c.shared.port q).connectedPort ≠ some p)

def exec (c : Machine Tid P) : Step Tid P → Option (Machine Tid P × (Option Tid × Event P))
  | .turn t choice =>
    (Interleave.step thread c (t, choice)).map fun out => (out.1, some out.2.1, out.2.2)
  | .delete p =>
    if !(c.shared.port p).deleted && unreferenced c p then
      some (⟨c.shared.onDelete p, c.threads⟩, none, .deleted p (c.shared.port p).messageQueue)
    else none

/-- The ports as they were connected; whoever is linked to a port is linked back. -/
structure Links (P : Type) where
  peer : P → Option P
  symm : ∀ {p q}, peer p = some q → peer q = some p
  maxPoolUsage : P → ℕ
  maxMessageLength : P → ℕ

def Links.connected (links : Links P) : Mem P where
  port p := ⟨links.peer p, [], [], 0, 1, links.maxPoolUsage p, links.maxMessageLength p, false,
    false⟩
  record _ := none
  nextRecord := 0
  nextToken := 0
  fault := false

def Links.initial (links : Links P) : Machine Tid P := ⟨links.connected, fun _ => .idle⟩

end ImpossibleOs.Ipc.Alpc
