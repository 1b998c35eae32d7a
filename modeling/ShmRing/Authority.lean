import ShmRing.Server
import ShmRing.Lib.Transition
import Mathlib.Logic.Function.Basic

/-!
# The server and its clients

The system of the owner words and the heads of all rings: processes that start, join, write, leave and exit at any
moment, and one server that reaps, tracks and brings up, one atomic step at a time.

A process id may be given to a new process once the old one has exited, so processes are numbered.  What is only
recorded for the statements is said so: who joined a slot last, who wrote a word last, and how often a ring was reset.
-/

namespace ShmRing

open Machine Transition

/-- The side whose words these are; nobody owns `blocked`. -/
def HeadWord.side : HeadWord → Option ClientSide
  | .producer s => some s
  | .consumer s => some s
  | .sendIndicator s => some s
  | .blocked => none

def RingConfig.id (cfg : RingConfig) : ClientSide → Int32
  | .left => cfg.lhs
  | .right => cfg.rhs

/-- The owner word that `Server::new` gives to a slot of zeroed memory. -/
def RingConfig.advertised (cfg : RingConfig) (side : ClientSide) : UInt32 :=
  if cfg.id side < 0 then (cfg.id side).toUInt32 else 0

namespace Authority

/-! ### Clients -/

/-- A joined `Ring`.  The generation of the ring and the number of scans begun are recorded at the join. -/
structure Handle where
  process : Nat
  client : ClientIdentifier
  ring : Nat
  side : ClientSide
  dropped : Bool
  generation : Nat
  scan : Nat
  deriving DecidableEq, Repr

/-- The processes that run, by their ids, and the handles, by a number each. -/
structure Clients where
  process : ClientIdentifier → Option Nat
  born : Nat
  handle : Nat → Option Handle

namespace Clients

/-- The process of the handle runs and has not dropped it. -/
def Live (cl : Clients) (hd : Handle) : Prop := hd.dropped = false ∧ cl.process hd.client = some hd.process

instance (cl : Clients) (hd : Handle) : Decidable (cl.Live hd) := inferInstanceAs (Decidable (_ ∧ _))

def spawn (cl : Clients) (c : ClientIdentifier) : Clients :=
  { cl with process := Function.update cl.process c (some cl.born), born := cl.born + 1 }

def exit (cl : Clients) (c : ClientIdentifier) : Clients :=
  { cl with process := Function.update cl.process c none }

def put (cl : Clients) (h : Nat) (hd : Handle) : Clients :=
  { cl with handle := Function.update cl.handle h (some hd) }

end Clients

/-! ### Rings -/

/-- The owner words of a ring and its head, and the record of the last join to a side, of the last write of a client to
a word, and of the number of resets. -/
structure RingState where
  owner : ClientSide → UInt32
  head : RingHead
  holder : ClientSide → Option Nat
  writer : HeadWord → Option Nat
  generation : Nat

namespace RingState

def setOwner (r : RingState) (s : ClientSide) (v : UInt32) : RingState :=
  { r with owner := Function.update r.owner s v }

/-- The part of `bring_up` for one ring, by the next atomic step. -/
inductive Pc
  | checkLhs
  | checkRhs (openLhs : Bool)
  | takeLhs
  | takeRhs
  /-- In `reinit_holding_as_server`, before the stores to these words. -/
  | reset (ws : List HeadWord)
  | reinitLhs
  | reinitRhs
  deriving DecidableEq, Repr

inductive Outcome
  | goto (pc : Pc)
  /-- The next ring; whether this one counts. -/
  | next (success : Bool)
  | panicked
  deriving DecidableEq, Repr

/-- One step of the loop body of `bring_up`. -/
def bringUp (r : RingState) (ids : RingConfig) : Pc → RingState × Outcome
  | .checkLhs =>
    match RingIdentifier.new ids.rhs, RingIdentifier.new ids.lhs with
    | some _, some _ =>
      match ClientSlot.isOpenHeuristically (r.owner .left) with
      | .ok openLhs => (r, .goto (.checkRhs openLhs))
      | .error _ => (r, .next false)
    | _, _ => (r, .next false)
  | .checkRhs openLhs =>
    match ClientSlot.isOpenHeuristically (r.owner .right) with
    | .ok openRhs => (r, if openLhs && openRhs then .next false else .goto .takeLhs)
    | .error _ => (r, .next false)
  | .takeLhs =>
    let (update, owner) := ClientSlot.takeForServer (r.owner .left)
    (r.setOwner .left owner, match update with
      | .ok _ => .goto .takeRhs
      | .error _ => .next false)
  | .takeRhs =>
    let (update, owner) := ClientSlot.takeForServer (r.owner .right)
    (r.setOwner .right owner, match update with
      | .ok _ => .goto (.reset RingHead.reinitOrder)
      | .error _ => .next false)
  | .reset (w :: ws) => ({ r with head := r.head.store w 0 }, .goto (.reset ws))
  | .reset [] => ({ r with generation := r.generation + 1 }, .goto .reinitLhs)
  | .reinitLhs =>
    match ClientSlot.reinit (r.owner .left) ⟨ids.lhs⟩ with
    | .error _ => (r, .panicked)
    | .ok (.error _, owner) => (r.setOwner .left owner, .next false)
    | .ok (.ok (), owner) => (r.setOwner .left owner, .goto .reinitRhs)
  | .reinitRhs =>
    match ClientSlot.reinit (r.owner .right) ⟨ids.rhs⟩ with
    | .error _ => (r, .panicked)
    | .ok (.error _, owner) => (r.setOwner .right owner, .next false)
    | .ok (.ok (), owner) => (r.setOwner .right owner, .next true)

end RingState

/-! ### The server -/

/-- A file descriptor of a process, and the `Arc` that it is in. -/
structure PidFd where
  arc : Nat
  process : Nat
  deriving DecidableEq, Repr

structure ClientTrackingData where
  pid : PidFd
  rings : List (Nat × ClientSide)
  deriving DecidableEq, Repr

structure TrackedClient where
  pidFd : PidFd
  client : ClientIdentifier
  deriving DecidableEq, Repr

structure ServerTask where
  tracker : ClientIdentifier → Option ClientTrackingData

/-- `openPid` is the outcome of `open_pid`, which is only called for a client that is not tracked. -/
def ServerTask.trackClient (task : ServerTask) (client : ClientIdentifier) (idx : Nat) (side : ClientSide)
    (openPid : Option PidFd) : Option TrackedClient × ServerTask :=
  match task.tracker client with
  | some entry =>
    (none, ⟨Function.update task.tracker client (some { entry with rings := entry.rings.insert (idx, side) })⟩)
  | none =>
    match openPid with
    | none => (none, task)
    | some newPid =>
      (some ⟨newPid, client⟩, ⟨Function.update task.tracker client (some ⟨newPid, [(idx, side)]⟩)⟩)

inductive ServerPc
  | idle
  /-- In the loop of `reap_client` over the rings of the entry. -/
  | reaping (client : ClientIdentifier) (rings : List (Nat × ClientSide))
  /-- In `track_clients`, before the slot is inspected. -/
  | tracking (idx : Nat) (side : ClientSide)
  /-- In `track_clients`, with what the inspection has found. -/
  | found (idx : Nat) (side : ClientSide) (client : ClientIdentifier)
  /-- In `bring_up` at a ring, with the configurations from this one on. -/
  | bringUp (ids : List RingConfig) (idx : Nat) (pc : RingState.Pc) (success : Nat)
  /-- After a panic. -/
  | stopped
  deriving DecidableEq, Repr

/-- A call that has returned. -/
inductive Call
  | reapClient
  | trackClients
  | bringUp (success : Nat)
  deriving DecidableEq, Repr

/-- The server, with the tracked clients that it has returned and that were not yet passed to `reap_client`. -/
structure ServerState where
  task : ServerTask
  pending : List TrackedClient
  /-- The number of `Arc`s made. -/
  arcs : Nat
  /-- The number of scans begun. -/
  scans : Nat
  pc : ServerPc
  last : Option Call

namespace ServerState

def finish (sv : ServerState) (call : Call) : ServerState := { sv with pc := .idle, last := some call }

def reapFrom (sv : ServerState) (client : ClientIdentifier) (rings : List (Nat × ClientSide)) : ServerState :=
  if rings = [] then sv.finish .reapClient else { sv with pc := .reaping client rings }

def reapClient (sv : ServerState) (t : TrackedClient) : ServerState :=
  let sv := { sv with pending := sv.pending.erase t }
  match sv.task.tracker t.client with
  | none => sv.finish .reapClient
  | some data =>
    let sv := { sv with task := ⟨Function.update sv.task.tracker t.client none⟩ }
    -- the entry is gone from the tracker also when the assertion fails
    if data.pid.arc = t.pidFd.arc then sv.reapFrom t.client data.rings else { sv with pc := .stopped }

def trackFrom (n : Nat) (sv : ServerState) (idx : Nat) : ServerState :=
  if idx < n then { sv with pc := .tracking idx .left } else sv.finish .trackClients

/-- The slot after this one. -/
def trackNext (n : Nat) (sv : ServerState) (idx : Nat) : ClientSide → ServerState
  | .left => { sv with pc := .tracking idx .right }
  | .right => sv.trackFrom n (idx + 1)

def trackClient (sv : ServerState) (client : ClientIdentifier) (idx : Nat) (side : ClientSide)
    (process : Option Nat) : ServerState :=
  let (added, task) := sv.task.trackClient client idx side (process.map fun p => ⟨sv.arcs, p⟩)
  -- the number is used up also when no `Arc` is made
  { sv with task, pending := sv.pending ++ added.toList, arcs := sv.arcs + 1 }

def bringUpFrom (n : Nat) (sv : ServerState) (ids : List RingConfig) (idx success : Nat) : ServerState :=
  if ids ≠ [] ∧ idx < n then { sv with pc := .bringUp ids idx .checkLhs success } else sv.finish (.bringUp success)

/-- How `bring_up` goes on at the ring `idx`, or behind it. -/
def bringUpNext (n : Nat) (sv : ServerState) (ids : List RingConfig) (idx success : Nat) :
    RingState.Outcome → ServerState
  | .goto pc => { sv with pc := .bringUp ids idx pc success }
  | .next done => sv.bringUpFrom n ids.tail (idx + 1) (success + done.toNat)
  | .panicked => { sv with pc := .stopped }

end ServerState

/-! ### The system -/

structure State where
  clients : Clients
  ring : Nat → RingState
  server : ServerState

inductive Act
  | spawn (c : ClientIdentifier)
  | exit (c : ClientIdentifier)
  /-- A process joins a ring and has, if it succeeds, the handle `h`. -/
  | join (h : Nat) (c : ClientIdentifier) (idx : Nat) (side : ClientSide)
  | write (h : Nat) (w : HeadWord) (v : UInt32)
  | drop (h : Nat)
  | reapClient (t : TrackedClient)
  | leave (r : Nat × ClientSide) (spurious : Bool)
  | trackClients
  | inspect
  | trackClient (openOk : Bool)
  | bringUp (ids : List RingConfig)
  | bringUpStep
  deriving DecidableEq, Repr

namespace State

def setRing (st : State) (idx : Nat) (r : RingState) : State := { st with ring := Function.update st.ring idx r }

/-- A client that has set its owner word has the ring. -/
def enter (st : State) (h : Nat) (hd : Handle) (owner : UInt32) : State :=
  let r := st.ring hd.ring
  { st.setRing hd.ring { r.setOwner hd.side owner with holder := Function.update r.holder hd.side (some h) } with
    clients := st.clients.put h hd }

/-- `Client::join` from its `ClientSlot::insert` on.  A handle gets a number that was not used. -/
def join (n : Nat) (st : State) (h : Nat) (client : ClientIdentifier) (process ring : Nat) (side : ClientSide) :
    State :=
  if ring < n then
    match ClientSlot.insert ((st.ring ring).owner side) client with
    | .ok (.ok _, owner) =>
      let generation := (st.ring ring).generation
      st.enter h { process, client, ring, side, dropped := false, generation, scan := st.server.scans } owner
    | _ => st
  else st

def write (st : State) (h : Nat) (hd : Handle) (w : HeadWord) (v : UInt32) : State :=
  let r := st.ring hd.ring
  st.setRing hd.ring { r with head := r.head.store w v, writer := Function.update r.writer w (some h) }

/-- `leave_as_owner_with_futex` assigns zero, whatever the owner word is. -/
def drop (st : State) (h : Nat) (hd : Handle) : State :=
  { st.setRing hd.ring ((st.ring hd.ring).setOwner hd.side 0) with
    clients := st.clients.put h { hd with dropped := true } }

/-- One round of the loop of `reap_client`; the order of the rings in a `HashSet` is not specified. -/
def leave (n : Nat) (st : State) (c : ClientIdentifier) (rings : List (Nat × ClientSide)) (r : Nat × ClientSide)
    (spurious : Bool) : State :=
  let server := st.server.reapFrom c (rings.erase r)
  if r.1 < n then
    match ClientSlot.leave ((st.ring r.1).owner r.2) c spurious with
    | .ok (_, owner) => { st.setRing r.1 ((st.ring r.1).setOwner r.2 owner) with server }
    | .error _ => { st with server := { st.server with pc := .stopped } }
  else { st with server }

end State

/-- The system of a server with `n` rings. -/
def step (n : Nat) (st : State) : Act → Option State
  | .spawn c =>
    if c.IsPid ∧ st.clients.process c = none then some { st with clients := st.clients.spawn c } else none
  | .exit c => some { st with clients := st.clients.exit c }
  | .join h c idx side =>
    match st.clients.process c, st.clients.handle h with
    | some p, none => some (st.join n h c p idx side)
    | _, _ => none
  | .write h w v =>
    match st.clients.handle h with
    | some hd => if st.clients.Live hd ∧ ∀ s ∈ w.side, s = hd.side then some (st.write h hd w v) else none
    | none => none
  | .drop h =>
    match st.clients.handle h with
    | some hd => if st.clients.Live hd then some (st.drop h hd) else none
    | none => none
  | .reapClient t =>
    -- the descriptor becomes readable when its process has exited
    if st.server.pc = .idle ∧ t ∈ st.server.pending ∧ st.clients.process t.client ≠ some t.pidFd.process then
      some { st with server := st.server.reapClient t }
    else none
  | .leave r spurious =>
    match st.server.pc with
    | .reaping c rings => if r ∈ rings then some (st.leave n c rings r spurious) else none
    | _ => none
  | .trackClients =>
    if st.server.pc = .idle then
      some { st with server := { st.server with scans := st.server.scans + 1 }.trackFrom n 0 }
    else none
  | .inspect =>
    match st.server.pc with
    | .tracking idx side =>
      match ClientSlot.inspect ((st.ring idx).owner side) with
      | .ok client => some { st with server := { st.server with pc := .found idx side client } }
      | .error _ => some { st with server := st.server.trackNext n idx side }
    | _ => none
  | .trackClient openOk =>
    match st.server.pc with
    | .found idx side client =>
      let process := if openOk then st.clients.process client else none
      some { st with server := (st.server.trackClient client idx side process).trackNext n idx side }
    | _ => none
  | .bringUp ids =>
    if st.server.pc = .idle then some { st with server := st.server.bringUpFrom n ids 0 0 } else none
  | .bringUpStep =>
    match st.server.pc with
    | .bringUp (cfg :: ids) idx pc success =>
      let (r, outcome) := (st.ring idx).bringUp cfg pc
      some { st.setRing idx r with server := st.server.bringUpNext n (cfg :: ids) idx success outcome }
    | _ => none

/-- A server that was started on zeroed memory, before there is any client. -/
def init (cfgs : List RingConfig) : State where
  clients := { process := fun _ => none, born := 0, handle := fun _ => none }
  ring idx :=
    { owner := fun s => cfgs[idx]?.elim 0 fun cfg => cfg.advertised s
      head := RingHead.zero
      holder := fun _ => none
      writer := fun _ => none
      generation := 0 }
  server := { task := ⟨fun _ => none⟩, pending := [], arcs := 0, scans := 0, pc := .idle, last := none }

/-- One ring, of which both sides are advertised. -/
def oneRing : RingConfig := ⟨8, 0, 8, -1, -1⟩

end Authority

end ShmRing
