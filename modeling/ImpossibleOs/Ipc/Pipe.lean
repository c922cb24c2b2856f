import ImpossibleOs.Lib.Refine
import ImpossibleOs.Lib.Ring
import Mathlib.Data.Int.Notation

/-!
One pipe (`src/kernel/ipc/pipe.c`), from `pipe_create` on.

One thread writes, one reads, and any number of threads close the two ends. A
semaphore is the count of its tokens and a wait is a step that can be taken
only when there is one; what runs under the mutex of the pipe is one step; the
counter and the flags are read outside of it, one at a time.
-/

namespace ImpossibleOs.Ipc.Pipe

def pipeBufSize : ℕ := 4096

/-- `PIPE_READ` and `PIPE_WRITE` -/
inductive End
  | read
  | write
  deriving DecidableEq, Repr

structure Mem where
  buf : ℕ → UInt8
  readPos : ℕ
  writePos : ℕ
  count : ℕ
  readable : ℕ
  writable : ℕ
  readOpen : Bool
  writeOpen : Bool
  inUse : Bool

/-- Where `pipe_write` stands; `i` bytes are written. -/
inductive WritePc
  | idle
  | enterUse (data : List UInt8)
  | enterWrite (data : List UInt8)
  | enterRead (data : List UInt8)
  | check (data : List UInt8) (i : ℕ)
  | wait (data : List UInt8) (i : ℕ)
  | put (data : List UInt8) (i : ℕ)
  | signal (data : List UInt8) (i : ℕ)

/-- Where `pipe_read` stands; `i` of `len` bytes are read. -/
inductive ReadPc
  | idle
  | enterUse (len : ℕ)
  | enterRead (len : ℕ)
  | eofOpen (len i : ℕ)
  | eofCount (len i : ℕ)
  | test (len i : ℕ)
  | whileCount (len i : ℕ)
  | whileOpen (len i : ℕ)
  | block (len i : ℕ)
  | againOpen (len i : ℕ)
  | againCount (len i : ℕ)
  | last (len i : ℕ)
  | consume (len i : ℕ)
  | get (len i : ℕ)
  | signal (len i : ℕ)

/-- Where `pipe_close` stands. -/
inductive ClosePc
  | idle
  | enter (e : End)
  | mark (e : End)
  | signal (e : End)
  | testRead
  | testWrite
  | free

structure State (ι : Type*) where
  mem : Mem
  writer : WritePc
  reader : ReadPc
  closers : ι → ClosePc

inductive Turn (ι : Type*)
  | write (data : List UInt8)
  | read (len : ℕ)
  | close (c : ι) (e : End)
  | writer
  | reader
  | closer (c : ι)

inductive Event
  | silent
  /-- A byte of the writer goes into the buffer. -/
  | put (b : UInt8)
  /-- A byte of the buffer goes to the reader. -/
  | got (b : UInt8)
  /-- What `pipe_write` or `pipe_read` returns. -/
  | returned (res : ℤ)
  deriving DecidableEq, Repr

section Steps

variable (m : Mem)

/-- The head of the loop of `pipe_write`. -/
def writeLoop (data : List UInt8) (i : ℕ) : WritePc × Event :=
  if i < data.length then (.check data i, .silent) else (.idle, .returned data.length)

/-- The head of the loop of `pipe_read`. -/
def readLoop (len i : ℕ) : ReadPc × Event :=
  if i < len then (.eofOpen len i, .silent) else (.idle, .returned len)

/-- A step of `pipe_write`; the byte that is written has to be there. -/
def goWrite : WritePc → Option (Mem × WritePc × Event)
  | .idle => none
  | .enterUse data =>
    some (if m.inUse then (m, .enterWrite data, .silent) else (m, .idle, .returned (-1)))
  | .enterWrite data =>
    some (if m.writeOpen then (m, .enterRead data, .silent) else (m, .idle, .returned (-1)))
  | .enterRead data =>
    some (if m.readOpen then (m, writeLoop data 0) else (m, .idle, .returned (-1)))
  | .check data i =>
    some (if m.readOpen then (m, .wait data i, .silent)
      else (m, .idle, .returned (if 0 < i then i else -1)))
  | .wait data i =>
    if 0 < m.writable then
      some ({ m with writable := m.writable - 1 }, .put data i, .silent)
    else none
  | .put data i =>
    (data[i]?).map fun b =>
      ({ m with
          buf := Function.update m.buf m.writePos b
          writePos := (m.writePos + 1) % pipeBufSize
          count := m.count + 1 }, .signal data i, .put b)
  | .signal data i => some ({ m with readable := m.readable + 1 }, writeLoop data (i + 1))

/-- A step of `pipe_read`. -/
def goRead : ReadPc → Option (Mem × ReadPc × Event)
  | .idle => none
  | .enterUse len =>
    some (if m.inUse then (m, .enterRead len, .silent) else (m, .idle, .returned (-1)))
  | .enterRead len =>
    some (if m.readOpen then (m, readLoop len 0) else (m, .idle, .returned (-1)))
  | .eofOpen len i => some (m, if m.writeOpen then .test len i else .eofCount len i, .silent)
  | .eofCount len i =>
    some (if m.count = 0 then (m, .idle, .returned i) else (m, .test len i, .silent))
  | .test len i =>
    some (if m.count = 0 then
        if 0 < i then (m, .idle, .returned i) else (m, .whileCount len i, .silent)
      else (m, .consume len i, .silent))
  | .whileCount len i =>
    some (m, if m.count = 0 then .whileOpen len i else .last len i, .silent)
  | .whileOpen len i => some (m, if m.writeOpen then .block len i else .last len i, .silent)
  | .block len i =>
    if 0 < m.readable then
      some ({ m with readable := m.readable - 1 }, .againOpen len i, .silent)
    else none
  | .againOpen len i =>
    some (m, if m.writeOpen then .whileCount len i else .againCount len i, .silent)
  | .againCount len i =>
    some (if m.count = 0 then (m, .idle, .returned 0) else (m, .whileCount len i, .silent))
  | .last len i =>
    some (if m.count = 0 then (m, .idle, .returned 0) else (m, .get len i, .silent))
  | .consume len i =>
    if 0 < m.readable then some ({ m with readable := m.readable - 1 }, .get len i, .silent)
    else none
  | .get len i =>
    some ({ m with
        readPos := (m.readPos + 1) % pipeBufSize
        count := m.count - 1 }, .signal len i, .got (m.buf m.readPos))
  | .signal len i => some ({ m with writable := m.writable + 1 }, readLoop len (i + 1))

/-- A step of `pipe_close`. -/
def goClose : ClosePc → Option (Mem × ClosePc)
  | .idle => none
  | .enter e => some (m, if m.inUse then .mark e else .idle)
  | .mark .read => some ({ m with readOpen := false }, .signal .read)
  | .mark .write => some ({ m with writeOpen := false }, .signal .write)
  | .signal .read => some ({ m with writable := m.writable + 1 }, .testRead)
  | .signal .write => some ({ m with readable := m.readable + 1 }, .testRead)
  | .testRead => some (m, if m.readOpen then .idle else .testWrite)
  | .testWrite => some (m, if m.writeOpen then .idle else .free)
  | .free => some ({ m with inUse := false }, .idle)

end Steps

variable {ι : Type*} [DecidableEq ι]

def step (s : State ι) : Turn ι → Option (State ι × Event)
  | .write data =>
    match s.writer with
    | .idle => some ({ s with writer := .enterUse data }, .silent)
    | _ => none
  | .read len =>
    match s.reader with
    | .idle => some ({ s with reader := .enterUse len }, .silent)
    | _ => none
  | .close c e =>
    match s.closers c with
    | .idle => some ({ s with closers := Function.update s.closers c (.enter e) }, .silent)
    | _ => none
  | .writer => (goWrite s.mem s.writer).map fun r => ({ s with mem := r.1, writer := r.2.1 }, r.2.2)
  | .reader => (goRead s.mem s.reader).map fun r => ({ s with mem := r.1, reader := r.2.1 }, r.2.2)
  | .closer c =>
    (goClose s.mem (s.closers c)).map fun r =>
      ({ s with mem := r.1, closers := Function.update s.closers c r.2 }, .silent)

/-- `pipe_create`; what the slot had in its buffer stays there. -/
def initial (buf : ℕ → UInt8) : State ι :=
  ⟨⟨buf, 0, 0, 0, 0, pipeBufSize, true, true, true⟩, .idle, .idle, fun _ => .idle⟩

end ImpossibleOs.Ipc.Pipe
