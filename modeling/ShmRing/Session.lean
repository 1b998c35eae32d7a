import ShmRing.Client
import ShmRing.Server
import ShmRing.Lib.Transition

/-!
# Sessions

The system of a mapping that a server has set up and of any number of clients that join its rings and operate on
them.  A session is a joined ring with the handle that is open on it.  The operations are those of a `Ring`, each at
a memory that the others may have changed in any way since the last one; an operation that panics keeps what it has
written.

Of the server's later writes it is only said where they go: it writes owner words, and words of the heads that it can
borrow.
-/

namespace ShmRing

open Machine Bytes

/-- The handle of a session, with the slots that it was opened on and the size of its entries. -/
inductive Session.Handle
  | closed
  | producer (N : Nat) (cell : Cell) (p : Producer)
  | consumer (N : Nat) (cell : Cell) (c : Consumer)

structure Session where
  ring : Ring
  index : Nat
  handle : Session.Handle
  /-- The ring is not dropped. -/
  live : Bool

namespace Session

/-- The operations; those that take an iterator take one of any type. -/
inductive Op : Type 1
  | producer (N : Nat)
  | pushMany (N : Nat) (σ : Type) (next : σ → Option (Vector UInt8 N) × σ) (iter : σ)
  | consumer (N : Nat)
  /-- One entry of the consumer's iterator. -/
  | next
  | sync
  | close
  | copyTo (data : Slice) (start : UInt64)
  | copyFrom (data : Slice) (start : UInt64)
  | lock (spurious : Bool)
  | unlock (spurious : Bool)
  | activate
  | deactivate
  | drop

def apply (b : Build) (s : Session) (m : Mem) : Op → Option (Session × Mem)
  | .producer N =>
    match s.handle, s.ring.producer b N m with
    | .closed, .ok (some (cell, p)) => some ({ s with handle := .producer N cell p }, m)
    | _, _ => none
  | .pushMany N _ next iter =>
    match s.handle with
    | .producer N' cell p =>
      if N' = N then
        match p.pushMany (s.ring.port cell N) next iter m with
        | (.ok (_, p'), _, m') => some ({ s with handle := .producer N cell p' }, m')
        -- the call unwinds before it sets the cached head
        | (.error _, _, m') => some (s, m')
      else none
    | _ => none
  | .consumer N =>
    match s.handle, s.ring.consumer b N m with
    | .closed, .ok (some (cell, c)) => some ({ s with handle := .consumer N cell c }, m)
    | _, _ => none
  | .next =>
    match s.handle with
    | .consumer N cell c =>
      (c.iterNext (s.ring.port cell N) c.iter m).map fun (_, c', _) => ({ s with handle := .consumer N cell c' }, m)
    | _ => none
  | .sync =>
    match s.handle with
    | .producer N cell p =>
      let (p', m') := p.sync (s.ring.port cell N) m
      some ({ s with handle := .producer N cell p' }, m')
    | .consumer N cell c =>
      let (c', m') := c.sync (s.ring.port cell N) m
      some ({ s with handle := .consumer N cell c' }, m')
    | .closed => none
  | .close => some ({ s with handle := .closed }, m)
  | .copyTo data start =>
    match s.ring.copyTo b data start m with
    | .ok m' => some (s, m')
    | .error _ => some (s, m)
  | .copyFrom _ _ => some (s, m)
  | .lock spurious => some (s, (s.ring.lockForMessage spurious m).2)
  | .unlock spurious => some (s, s.ring.unlock spurious m)
  | .activate => some (s, s.ring.activate m)
  | .deactivate => some (s, s.ring.deactivate m)
  | .drop => some ({ s with live := false }, s.ring.drop m)

end Session

/-! ### The system -/

/-- The memory and the sessions, by a number each. -/
structure World where
  mem : Mem
  sessions : Nat → Option Session

namespace World

inductive Act : Type 1
  /-- A client maps the file at an address of its own and joins a ring. -/
  | join (k : Nat) (view : Shared) (req : RingRequest)
  | act (k : Nat) (op : Session.Op)
  | writeOwner (i : Nat) (side : ClientSide) (v : UInt32)
  | writeHead (i : Nat) (w : HeadWord) (v : UInt32)

def put (w : World) (k : Nat) (r : Session × Mem) : World :=
  { mem := r.2, sessions := fun k' => if k' = k then some r.1 else w.sessions k' }

def step (b : Build) (srv : Server) (w : World) : Act → Option World
  | .join k view req =>
    if (w.sessions k).isNone ∧ view.size = srv.ring.size then
      match Client.new b view w.mem with
      | .error _ => none
      | .ok c =>
        match c.join b req w.mem with
        | (.error _, _) => none
        | (.ok ring, m') => some (w.put k ({ ring, index := req.index.toNat, handle := .closed, live := true }, m'))
    else none
  | .act k op =>
    match w.sessions k with
    | some s => if s.live then (s.apply b w.mem op).map (w.put k) else none
    | none => none
  | .writeOwner i side v =>
    if i < srv.rings.count then
      some { w with mem := w.mem.writeU32 (srv.rings.recordAt i + RingInfo.ownerOffset side) v }
    else none
  | .writeHead i word v =>
    let info := RingInfo.read w.mem (srv.rings.recordAt i)
    -- `borrow_ring_head` unwraps the same check
    if i < srv.rings.count ∧ srv.ring.Accepts info.offsetHead RingHead.size 8 then
      some { w with mem := w.mem.writeU32 (info.offsetHead.toNat + word.offset) v }
    else none

def init (m : Mem) : World := { mem := m, sessions := fun _ => none }

end World

end ShmRing
