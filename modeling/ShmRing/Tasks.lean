import ShmRing.Stream
import ShmRing.Duplex
import ShmRing.Deadline

/-!
# The two halves of a byte stream

An output half and an input half, each of which has a task that owns its side of a ring.  The task of the output copies
the queue of its half into the data of the ring and announces how far it has come, with an entry in the ring; the task
of the input copies the bytes out and announces how far it has read.  What one side has announced is what the other may
touch.  The end of the stream is announced by the same position twice.

A step is an access to the ring, an access to the data under the lock of a half, or a call of the guest.  The accesses
to the ring are the events of `Duplex`, in the order in which the code of a task makes them; which of them the ring
allows is not said here.  A task that opens a handle and gets none is aborted by the `unwrap`.
-/

namespace ShmRing

open Machine Bytes

/-- How far the remote has announced. -/
structure Available where
  head : UInt64
  /-- Has the end been signalled by sending the same position twice. -/
  eof : Bool
  deriving DecidableEq, Repr

/-- A round of the loop of `Available::extend`. -/
def Available.extend (a : Available) (item : UInt64) : Exec Available :=
  let eof := a.eof || a.head == item
  if a.head ≤ item then .ok ⟨item, eof⟩ else .error .panic

namespace ByteStream

/-- The entries of the ring, of which a `u64` takes all bytes. -/
abbrev Entry := Vector UInt8 8

/-! ### Tasks -/

/-- Between `ring.consumer` and the end of its use. -/
inductive ReapPc
  | opened
  | iterating
  | iterated
  | loaded
  | stored
  deriving DecidableEq, Repr

/-- Between `ring.producer` and the end of its use. -/
inductive AnnouncePc
  | start
  | opened
  | pushing
  | drawn
  | written
  | pushed
  | loaded
  | stored
  deriving DecidableEq, Repr

/-- Where a task is in the loop. -/
inductive Pc
  /-- At the wait with which a round begins. -/
  | waiting
  | ready
  | reaping (p : ReapPc)
  /-- At the lock of the buffer. -/
  | working
  | announcing (p : AnnouncePc)
  /-- At the wait with which a round ends. -/
  | settled
  | ended
  | aborted (f : Fault)
  deriving DecidableEq, Repr

/-- The variables that both loops have, with a counter of what was received of a type `ρ`. -/
structure Task (ρ : Type) where
  pc : Pc
  available : Available
  sequence : UInt64
  released : UInt64
  headReceive : ρ
  deriving DecidableEq, Repr

/-- What the `unwrap` of a handle does: the fault, if there is none. -/
def unwrapFault {α : Type} : Exec (Option α) → Option Fault
  | .ok (some _) => none
  | .ok none => some .panic
  | .error f => some f

/-- The fault of a task that is to open a handle on its ring, `ring.consumer::<8>().unwrap()` or
`ring.producer::<8>().unwrap()`, and gets none. -/
def Pc.openFault (b : Build) (r : Ring) (m : Mem) : Pc → Option Fault
  | .ready => unwrapFault (r.consumer b 8 m)
  | .announcing .start => unwrapFault (r.producer b 8 m)
  | _ => none

/-- The way of a task with its consumer. -/
def reapPc (pc : Pc) : Duplex.ConsumeAct Entry → Option Pc
  | .new => if pc = .ready then some (.reaping .opened) else none
  | .iter => if pc = .reaping .opened then some (.reaping .iterating) else none
  | .next _ => if pc = .reaping .iterating then some (.reaping .iterating) else none
  | .dropIter => if pc = .reaping .iterating then some (.reaping .iterated) else none
  | .syncLoad => if pc = .reaping .iterated then some (.reaping .loaded) else none
  | .syncStore => if pc = .reaping .loaded then some (.reaping .stored) else none
  | .drop => if pc = .reaping .stored then some .working else none

/-- The way of a task with its producer, which pushes one entry if there is room for it. -/
def announcePc (entry : Entry) (pc : Pc) : Duplex.ProduceAct Entry → Option Pc
  | .new => if pc = .announcing .start then some (.announcing .opened) else none
  | .pushMany => if pc = .announcing .opened then some (.announcing .pushing) else none
  | .draw data => if pc = .announcing .pushing ∧ data = entry then some (.announcing .drawn) else none
  | .write _ data => if pc = .announcing .drawn ∧ data = entry then some (.announcing .written) else none
  | .pushed count =>
    if pc = .announcing .pushing ∧ count = 0 ∨ pc = .announcing .written ∧ count = 1 then some (.announcing .pushed)
    else none
  | .unwind => none
  | .syncLoad => if pc = .announcing .pushed then some (.announcing .loaded) else none
  | .syncStore => if pc = .announcing .loaded then some (.announcing .stored) else none
  | .drop => if pc = .announcing .stored then some .settled else none

namespace Task

variable {ρ : Type}

/-- An entry that the iterator yields: it is counted, and what is available is extended by the position that it
stands for. -/
def receive (count : ρ → Exec ρ) (position : UInt64 → UInt64) (t : Task ρ) (data : Entry) : Exec (Task ρ) := do
  let headReceive ← count t.headReceive
  let available ← t.available.extend (position (fromLeBytes data))
  return { t with available, headReceive }

/-- The task is at `pc`, or was aborted. -/
def enter (t : Task ρ) (pc : Pc) : Exec (Task ρ) → Task ρ
  | .ok t' => { t' with pc }
  | .error f => { t with pc := .aborted f }

def reap (count : ρ → Exec ρ) (position : UInt64 → UInt64) (t : Task ρ) (a : Duplex.ConsumeAct Entry) :
    Option (Task ρ) :=
  (reapPc t.pc a).map fun pc =>
    match a with
    | .next data => t.enter pc (t.receive count position data)
    | _ => { t with pc }

/-- The position is released when it is pushed. -/
def announce (t : Task ρ) (a : Duplex.ProduceAct Entry) : Option (Task ρ) :=
  (announcePc (toLeBytes t.sequence) t.pc a).map fun pc =>
    match a with
    | .pushed (_ + 1) => { t with pc, released := t.sequence }
    | _ => { t with pc }

end Task

/-! ### The output half -/

/-- `OutputInner`, and the variables of the task. -/
structure OutputRing where
  buffer : List BytesOrEof
  flushLevel : UInt64
  flushed : UInt64
  task : Task Int32
  outstandingFlush : UInt64
  pendingEof : Bool
  sentEof : Bool
  deriving DecidableEq

/-- What both rings have in common: the build, the handles on both sides, and `buffer_space_size`. -/
structure Ctx where
  build : Build
  output : Ring
  input : Ring
  side : ClientSide
  size : UInt64

namespace OutputRing

/-- `OutputRing::new`; the remote has not to acknowledge anything for a first window. -/
def new (x : Ctx) : OutputRing where
  buffer := []
  flushLevel := 0
  flushed := 0
  task := ⟨.waiting, ⟨x.size, false⟩, 0, 0, 0⟩
  outstandingFlush := 0
  pendingEof := false
  sentEof := false

/-- The positions up to which a writer may write who has got an acknowledgement. -/
def grant (x : Ctx) (n : UInt64) : UInt64 := saturatingAdd n x.size

def reap (x : Ctx) (o : OutputRing) (a : Duplex.ConsumeAct Entry) : Option OutputRing :=
  (o.task.reap (x.build.addI32 · 1) (grant x) a).map fun task => { o with task }

/-- The same position again is the end, and it is sent when it is pushed. -/
def announce (o : OutputRing) (a : Duplex.ProduceAct Entry) : Option OutputRing :=
  (o.task.announce a).map fun task =>
    match a with
    | .pushed (_ + 1) =>
      if o.task.sequence ≠ o.task.released then { o with task } else { o with task, sentEof := true }
    | _ => { o with task }

/-- Whether the end marker is what is next in the queue. -/
def isAtEof (full : List BytesOrEof) : Bool :=
  match full.head? with
  | some .eof => true
  | _ => false

/-- Whether there is something to announce, the position or the end. -/
def proceed (o : OutputRing) : OutputRing :=
  if o.task.sequence ≠ o.task.released ∨ o.pendingEof ≠ o.sentEof then
    { o with task := { o.task with pc := .announcing .start } }
  else { o with task := { o.task with pc := .settled } }

/-- The task goes on with what `fill_stream` has left. -/
def filled (o : OutputRing) (out : Filled) : OutputRing :=
  proceed { o with
    buffer := out.full
    task := { o.task with sequence := out.start }
    outstandingFlush := UInt64.ofNat out.flushes
    pendingEof := o.pendingEof || isAtEof out.full }

/-- The first branch of the loop: the queue is written to the data of the ring. -/
def fill (x : Ctx) (o : OutputRing) (m : Mem) : Exec (OutputRing × Mem) :=
  (fillStream x.build x.size o.task.sequence o.task.available.head o.buffer x.output m).map fun out =>
    (o.filled out, out.mem)

/-- The remote has got all that was released. -/
def isFlushed (x : Ctx) (o : OutputRing) : Bool := grant x o.task.released == o.task.available.head

/-- `HostOutputStream::check_write` -/
def checkWrite (o : OutputRing) : Nat := if o.flushLevel ≤ o.flushed then 0xffffffffffffffff else 0

end OutputRing

inductive OutputAct
  /-- `select!` returns. -/
  | resume
  /-- The buffer is written: the numbers of bytes that were copied and that are lost. -/
  | fill (copied lost : Nat)
  | reportFlushed
  | keepFlushing
  | yieldNow
  /-- The `unwrap` of a handle panics. -/
  | unwrap
  | write (bytes : Slice)
  /-- `flush` raises the level and then pushes an empty frame. -/
  | raiseFlush
  | pushFlush
  | close
  deriving DecidableEq

/-! ### The input half -/

/-- `InputInner`, with its semaphore, and the variables of the task. -/
structure InputRing where
  buffer : List BytesOrEof
  permits : Nat
  closed : Bool
  /-- The task holds a permit. -/
  permit : Bool
  task : Task UInt32
  deriving DecidableEq

/-- What `read` returns. -/
inductive ReadResult
  | bytes (l : List UInt8)
  | closed
  deriving DecidableEq, Repr

namespace InputRing

def new : InputRing where
  buffer := []
  permits := 32
  closed := false
  permit := false
  task := ⟨.waiting, ⟨0, false⟩, 0, 0, 0⟩

def reap (x : Ctx) (i : InputRing) (a : Duplex.ConsumeAct Entry) : Option InputRing :=
  (i.task.reap (x.build.addU32 · 1) id a).map fun task => { i with task }

def announce (i : InputRing) (a : Duplex.ProduceAct Entry) : Option InputRing :=
  (i.task.announce a).map fun task => { i with task }

/-- A `Vec` is no longer than a slice can be. -/
def toSlice (l : List UInt8) : Exec Slice := if h : l.length < 2 ^ 63 then .ok ⟨l, h⟩ else .error .panic

/-- The task goes on with the bytes that were available. -/
def received (i : InputRing) (data : Slice) (sequence : UInt64) : InputRing :=
  let isData := !data.1.isEmpty
  let isEof := i.task.available.eof && sequence == i.task.available.head
  { i with
    buffer := i.buffer ++ (if isData then [.some data] else []) ++ (if isEof then [.eof] else [])
    permit := i.permit && !(isEof || isData)
    task := { i.task with
      sequence
      pc := if sequence ≠ i.task.released then .announcing .start else .settled } }

/-- The part of the loop under the lock: the bytes that are available are copied from the data of the ring. -/
def consume (x : Ctx) (i : InputRing) (m : Mem) : Exec InputRing := do
  let (data, sequence) ← consumeStream x.build x.size i.task.sequence i.task.available.head x.input m
  let data ← toSlice data
  return i.received data sequence

/-- `HostInputStream::read` -/
def read (i : InputRing) (size : Nat) : ReadResult × InputRing :=
  match i.buffer with
  | [] => (.bytes [], i)
  -- the end marker is preserved
  | .eof :: _ => (.closed, i)
  | .some bytes :: rest =>
    let length := min bytes.1.length size
    let left : Slice := ⟨bytes.1.drop length, Nat.lt_of_le_of_lt (by simp) bytes.2⟩
    if left.1.isEmpty then (.bytes (bytes.1.take length), { i with buffer := rest, permits := i.permits + 1 })
    else (.bytes (bytes.1.take length), { i with buffer := .some left :: rest })

/-- The permit goes back if the task still holds it. -/
def dropPermit (i : InputRing) : InputRing :=
  { i with permits := i.permits + (if i.permit then 1 else 0), permit := false }

/-- What a round ends with: the result of `wait_for_message`. -/
def wait (i : InputRing) : WaitResult → InputRing
  -- the remote is no longer here, stop
  | .remoteInactive => { i.dropPermit with closed := true, task := { i.task with pc := .waiting } }
  | .error => { i with task := { i.task with pc := .aborted .panic } }
  | _ => { i.dropPermit with task := { i.task with pc := .waiting } }

end InputRing

inductive InputAct
  | acquire
  /-- The semaphore was closed. -/
  | acquireError
  /-- The available bytes are copied, so many. -/
  | consume (n : Nat)
  | wait (r : WaitResult)
  | ioError
  | unwrap
  | read (size : Nat) (r : ReadResult)
  deriving DecidableEq

/-! ### Steps -/

inductive Event
  | link (e : Duplex.Event Entry)
  | output (a : OutputAct)
  | input (a : InputAct)
  deriving DecidableEq

structure State where
  mem : Mem
  output : OutputRing
  input : InputRing

def State.new (x : Ctx) (m : Mem) : State := ⟨m, .new x, .new⟩

/-- A side uses its handle on the ring. -/
def linkStep (x : Ctx) (s : State) : Duplex.Event Entry → Option State
  | .produce side a =>
    if side = x.side then (s.output.announce a).map fun output => { s with output }
    else (s.input.announce a).map fun input => { s with input }
  | .consume side a =>
    if side = x.side then (s.output.reap x a).map fun output => { s with output }
    else (s.input.reap x a).map fun input => { s with input }

def outputStep (x : Ctx) (s : State) : OutputAct → Option State
  | .resume =>
    if s.output.task.pc = .waiting then
      some { s with output.task.pc := .ready }
    else none
  | .fill copied lost =>
    if s.output.task.pc = .working ∧ s.output.outstandingFlush = 0 then
      match s.output.fill x s.mem with
      | .ok (output, mem) =>
        if output.task.sequence.toNat = s.output.task.sequence.toNat + copied ∧
            (payload s.output.buffer).length = copied + lost + (payload output.buffer).length then
          some { s with output, mem }
        else none
      | .error f => some { s with output.task.pc := .aborted f }
    else none
  | .reportFlushed =>
    if s.output.task.pc = .working ∧ s.output.outstandingFlush ≠ 0 ∧ s.output.isFlushed x then
      some { s with output :=
        { s.output with flushed := s.output.flushed + s.output.outstandingFlush, outstandingFlush := 0 }.proceed }
    else none
  | .keepFlushing =>
    if s.output.task.pc = .working ∧ s.output.outstandingFlush ≠ 0 ∧ ¬ s.output.isFlushed x then
      some { s with output := s.output.proceed }
    else none
  | .yieldNow =>
    if s.output.task.pc = .settled then some { s with output.task.pc := .waiting } else none
  | .unwrap => (s.output.task.pc.openFault x.build x.output s.mem).map fun f => { s with output.task.pc := .aborted f }
  | .write bytes =>
    if bytes.1.isEmpty then some s
    else some { s with output.buffer := s.output.buffer ++ [.some bytes] }
  | .raiseFlush => some { s with output.flushLevel := s.output.flushLevel + 1 }
  | .pushFlush => some { s with output.buffer := s.output.buffer ++ [.some ⟨[], by decide⟩] }
  | .close => some { s with output.buffer := s.output.buffer ++ [.eof] }

def inputStep (x : Ctx) (s : State) : InputAct → Option State
  | .acquire =>
    if s.input.task.pc = .waiting ∧ s.input.closed = false ∧ 0 < s.input.permits then
      some { s with input := { s.input with
        permits := s.input.permits - 1, permit := true, task := { s.input.task with pc := .ready } } }
    else none
  | .acquireError =>
    if s.input.task.pc = .waiting ∧ s.input.closed = true then some { s with input.task.pc := .ended } else none
  | .consume n =>
    if s.input.task.pc = .working then
      match s.input.consume x s.mem with
      | .ok input =>
        if input.task.sequence.toNat = s.input.task.sequence.toNat + n then some { s with input } else none
      | .error f => some { s with input.task.pc := .aborted f }
    else none
  | .wait r => if s.input.task.pc = .settled then some { s with input := s.input.wait r } else none
  | .ioError =>
    if s.input.task.pc = .settled then
      some { s with input := { s.input.dropPermit with task := { s.input.task with pc := .ended } } }
    else none
  | .unwrap => (s.input.task.pc.openFault x.build x.input s.mem).map fun f => { s with input.task.pc := .aborted f }
  | .read size r =>
    if (s.input.read size).1 = r then some { s with input := (s.input.read size).2 } else none

def step (x : Ctx) (s : State) : Event → Option State
  | .link e => linkStep x s e
  | .output a => outputStep x s a
  | .input a => inputStep x s a

end ByteStream

end ShmRing
