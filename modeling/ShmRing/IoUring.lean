import ShmRing.Lib.Machine
import ShmRing.Lib.Transition
import Mathlib.Logic.Function.Basic

/-!
# The io-uring and its tasks

A `ShmIoUring` and the tasks that wait through it, by the points at which the program, the kernel and the poller task
can interleave.  The tasks share one thread: from an await point to the next, only the kernel and the poller move.
Each operation reserves room for its entries, pushes them, and waits for the completion of one of them, in which it
drives the submission and drains the completion queue for all.

A key is a number that is used once, and zero, the user data of an entry that has no key, is none.  What is only
recorded for the statements is said so: the allocations that were dropped, and how often a waiter was signalled.
-/

namespace ShmRing

open Machine Transition

namespace IoUring

/-! ### The queues -/

/-- An entry, with the allocation that it points to. -/
structure Entry where
  userData : Nat
  alloc : Option Nat
  deriving DecidableEq, Repr

structure Completion where
  userData : Nat
  result : Int32
  deriving DecidableEq, Repr

/-- An operation: for each entry whether it has a key, and whether there is an allocation for each entry or for none. -/
structure Request where
  keyed : List Bool
  allocated : Bool
  deriving DecidableEq, Repr

/-- A `FutexWaitV`, linked with the `LinkTimeout` that cancels it. -/
def Request.wait : Request := ⟨[true, false], true⟩

/-- The `FutexWake`s of `ShmIoUring::wake`, of which the second is waited for. -/
def Request.wake : Request := ⟨[true, true], false⟩

/-! ### Waiters -/

/-- The notices that were established, by their keys, with their semaphores.  How often a waiter was signalled is
recorded. -/
structure Waiters where
  notify : Nat → Bool
  permits : Nat → Nat
  signals : Nat → Nat

/-- `(1 + (result as u32)) as usize`, where the sum is one of `u32`. -/
def permitsOf (b : Build) (result : Int32) : Exec Nat :=
  match b with
  | .debug => if 1 + result.toUInt32.toNat < 2 ^ 32 then .ok (1 + result.toUInt32).toNat else .error .overflow
  | .release => .ok (1 + result.toUInt32).toNat

/-- What `KeyOwner::wait` makes of the permits that are left. -/
def resultOf (n : Nat) : Except Int32 Int64 :=
  let kernelResult := (UInt32.ofNat n).toInt32
  if 0 ≤ kernelResult then .ok kernelResult.toInt64 else .error (-kernelResult)

namespace Waiters

def establish (ws : Waiters) (keys : List Nat) : Waiters where
  notify k := k ∈ keys || ws.notify k
  permits k := if k ∈ keys then 0 else ws.permits k
  signals := ws.signals

def remove (ws : Waiters) (keys : List Nat) : Waiters := { ws with notify := fun k => !(k ∈ keys) && ws.notify k }

def signal (ws : Waiters) (key n : Nat) : Waiters :=
  { ws.remove [key] with
    permits := Function.update ws.permits key (ws.permits key + n)
    signals := Function.update ws.signals key (ws.signals key + 1) }

/-- The loop of `complete` over the completion queue.  After a panic, those behind the culprit are still queued. -/
def complete (b : Build) (ws : Waiters) : List Completion → Waiters × Option (List Completion)
  | [] => (ws, none)
  | c :: cs =>
    if ws.notify c.userData then
      match permitsOf b c.result with
      | .ok n => (ws.signal c.userData n).complete b cs
      | .error _ => (ws.remove [c.userData], some cs)
    else ws.complete b cs

end Waiters

/-! ### Tasks -/

/-- What a task in `complete` goes on with. -/
inductive Cont
  /-- The loop of `non_empty_submission_and_then_sync`, which holds its permits. -/
  | reserve (req : Request)
  /-- `KeyOwner::wait` for `key`; all the keys of the operation are dropped at its end. -/
  | wait (key : Nat) (keys : List Nat)
  deriving DecidableEq, Repr

inductive Pc
  | idle
  /-- Waits for the permits of `fill`. -/
  | acquiring (req : Request)
  /-- About to look for room. -/
  | reserving (req : Request)
  /-- Has the `Submit`. -/
  | reserved (req : Request)
  /-- In `complete`, before `try_submission`. -/
  | polling (cont : Cont)
  /-- Behind `try_submission`, before `notified` is called. -/
  | submitted (cont : Cont)
  /-- Awaits `notified`. -/
  | parked (cont : Cont)
  /-- Was notified, and not polled since. -/
  | woken (cont : Cont)
  | returned (result : Except Int32 Int64)

def Cont.keys : Cont → List Nat
  | .reserve _ => []
  | .wait _ keys => keys

/-- The keys that the task owns. -/
def Pc.keys : Pc → List Nat
  | .polling cont | .submitted cont | .parked cont | .woken cont => cont.keys
  | _ => []

/-- The permits of `fill` that the task holds. -/
def Cont.permits : Cont → Nat
  | .reserve req => req.keyed.length
  | .wait _ _ => 0

inductive PollerPc
  | idle
  /-- Has read the eventfd and is about to call `notify_waiters`. -/
  | notifying
  deriving DecidableEq, Repr

structure State (T : Type) where
  capacity : Nat
  fill : Nat
  queued : List Entry
  stableTimeouts : List (Option Nat)
  inFlight : List Entry
  completed : List Completion
  waiters : Waiters
  eventfd : Nat
  poller : PollerPc
  task : T → Pc
  /-- The task that is between two await points. -/
  running : Option T
  nextKey : Nat
  nextAlloc : Nat
  /-- The allocations that were dropped by a submission. -/
  dropped : List Nat
  /-- `push_multiple` had no room, or the drain of `stable_timeouts` went past its end. -/
  panicked : Bool

inductive Act (T : Type)
  | request (t : T) (req : Request)
  | permit (t : T)
  | reserve (t : T)
  | push (t : T)
  /-- `try_submission`, of which the kernel consumes so many entries or fails. -/
  | submit (t : T) (consumed : Option Nat)
  /-- `try_submission` that returns early. -/
  | skip (t : T)
  | register (t : T)
  | drain (t : T)
  | acquire (t : T)
  /-- The future is dropped at an await point. -/
  | cancel (t : T)
  /-- The kernel completes an entry, with a signal of its own or with that of others of its batch. -/
  | post (e : Entry) (result : Int32) (signalled : Bool)
  | read
  | notify
  deriving DecidableEq, Repr

variable {T : Type}

namespace State

/-- `Submit::redeem_push` -/
def redeemPush (st : State T) (entry : List Entry) (allocations : List Nat) : State T :=
  if st.capacity - st.queued.length < entry.length ∨ entry.length < allocations.length then { st with panicked := true }
  else
    { st with
      queued := st.queued ++ entry
      stableTimeouts :=
        st.stableTimeouts ++ (List.replicate (entry.length - allocations.length) none ++ allocations.map some) }

/-- The entries of an operation. -/
def entries (st : State T) (req : Request) : List Entry :=
  req.keyed.mapIdx fun i keyed =>
    ⟨if keyed then st.nextKey + i else 0, if req.allocated then some (st.nextAlloc + i) else none⟩

def newKeys (st : State T) (req : Request) : List Nat :=
  ((st.entries req).map Entry.userData).filter fun k => k ≠ 0

/-- `ShmIoUring::submit`, of which the kernel has consumed `n` entries, and the refill of the permits. -/
def submit (st : State T) (n : Nat) : State T :=
  if n ≤ st.stableTimeouts.length then
    { st with
      queued := st.queued.drop n
      inFlight := st.inFlight ++ st.queued.take n
      stableTimeouts := st.stableTimeouts.drop n
      dropped := st.dropped ++ (st.stableTimeouts.take n).filterMap id
      fill := st.fill + n }
  else { st with panicked := true }

theorem submit_task (st : State T) (n : Nat) : (st.submit n).task = st.task := by
  unfold submit
  split <;> rfl

theorem submit_running (st : State T) (n : Nat) : (st.submit n).running = st.running := by
  unfold submit
  split <;> rfl

variable [DecidableEq T]

/-- The task goes on, up to the next await point. -/
def run (st : State T) (t : T) (pc : Pc) : State T :=
  { st with task := Function.update st.task t pc, running := some t }

/-- The task has got to an await point, or its future to its end. -/
def yield (st : State T) (t : T) (pc : Pc) : State T :=
  { st with task := Function.update st.task t pc, running := none }

/-- The future of a task is dropped, with its keys and permits. -/
def abandon (st : State T) (t : T) (pc : Pc) : State T :=
  { st.yield t pc with waiters := st.waiters.remove (st.task t).keys }

/-- The notices are established, and the entries pushed; the last of the keys is waited for. -/
def push (st : State T) (t : T) (req : Request) : State T :=
  let entries := st.entries req
  let keys := st.newKeys req
  let st := { st with
    waiters := st.waiters.establish keys
    nextKey := st.nextKey + entries.length
    nextAlloc := st.nextAlloc + entries.length }
  let st := st.redeemPush entries (entries.filterMap Entry.alloc)
  match keys.getLast? with
  | some key => st.run t (.polling (.wait key keys))
  | none => st.yield t .idle

/-- How a task goes on after `complete`. -/
def resume (st : State T) (t : T) : Cont → State T
  | .reserve req => st.run t (.reserving req)
  | .wait key keys => st.run t (.polling (.wait key keys))

/-- The part of `complete` that drains the completion queue. -/
def drain (b : Build) (st : State T) (t : T) (cont : Cont) : State T :=
  match st.waiters.complete b st.completed with
  | (waiters, none) => { st with waiters, completed := [] }.resume t cont
  | (waiters, some rest) =>
    { st with waiters, completed := rest, fill := st.fill + cont.permits }.abandon t .idle

/-- Whether the task can take a step. -/
def CanRun (st : State T) (t : T) : Prop := st.running = none ∨ st.running = some t

instance (st : State T) (t : T) : Decidable (st.CanRun t) := inferInstanceAs (Decidable (_ ∨ _))

end State

variable [DecidableEq T]

/-- The steps of a task. -/
def taskStep (b : Build) (st : State T) : Act T → Option (State T)
  | .request t req =>
    match st.task t with
    | .idle | .returned _ => if st.running = none then some (st.yield t (.acquiring req)) else none
    | _ => none
  | .permit t =>
    match st.task t with
    | .acquiring req =>
      if st.running = none ∧ req.keyed.length ≤ st.fill then
        some ({ st with fill := st.fill - req.keyed.length }.run t (.reserving req))
      else none
    | _ => none
  | .reserve t =>
    match st.task t with
    | .reserving req =>
      if req.keyed.length ≤ st.capacity - st.queued.length then
        -- the permits are given back when the function returns
        some ({ st with fill := st.fill + req.keyed.length }.run t (.reserved req))
      else some (st.run t (.polling (.reserve req)))
    | _ => none
  | .push t =>
    match st.task t with
    | .reserved req => some (st.push t req)
    | _ => none
  | .submit t consumed =>
    match st.task t with
    | .polling cont =>
      match consumed with
      | some n => if n ≤ st.queued.length then some ((st.submit n).run t (.submitted cont)) else none
      | none => some (st.run t (.submitted cont))
    | _ => none
  | .skip t =>
    match st.task t with
    | .polling cont => some (st.run t (.submitted cont))
    | _ => none
  | .register t =>
    match st.task t with
    | .submitted cont => some (st.yield t (.parked cont))
    | _ => none
  | .drain t =>
    match st.task t with
    | .woken cont => if st.running = none then some (st.drain b t cont) else none
    | _ => none
  | .acquire t =>
    match st.task t with
    | .polling (.wait key _) | .parked (.wait key _) | .woken (.wait key _) =>
      if st.CanRun t ∧ 0 < st.waiters.permits key then
        let n := st.waiters.permits key - 1
        some ({ st with waiters := { st.waiters with
          permits := Function.update st.waiters.permits key n } }.abandon t (.returned (resultOf n)))
      else none
    | _ => none
  | .cancel t =>
    match st.task t with
    | .acquiring _ => if st.running = none then some (st.yield t .idle) else none
    | .parked cont | .woken cont =>
      if st.running = none then some ({ st with fill := st.fill + cont.permits }.abandon t .idle) else none
    | _ => none
  | _ => none

def step (b : Build) (st : State T) : Act T → Option (State T)
  | .post e result signalled =>
    -- a batch has one signal, which stands here with the first of its completions
    if e ∈ st.inFlight ∧ (signalled = true ∨ 0 < st.eventfd) then
      some { st with
        inFlight := st.inFlight.erase e
        completed := st.completed ++ [⟨e.userData, result⟩]
        eventfd := st.eventfd + signalled.toNat }
    else none
  | .read =>
    match st.poller with
    -- without a signal the read fails with `EAGAIN`, which is passed over
    | .idle => some { st with eventfd := st.eventfd - 1, poller := .notifying }
    | .notifying => none
  | .notify =>
    match st.poller with
    | .idle => none
    | .notifying =>
      some { st with
        poller := .idle
        task := fun t => match st.task t with
          | .parked cont => .woken cont
          | pc => pc }
  | a => taskStep b st a

def init (capacity : Nat) : State T where
  capacity
  fill := capacity
  queued := []
  stableTimeouts := []
  inFlight := []
  completed := []
  waiters := ⟨fun _ => false, fun _ => 0, fun _ => 0⟩
  eventfd := 0
  poller := .idle
  task _ := .idle
  running := none
  nextKey := 1
  nextAlloc := 0
  dropped := []
  panicked := false

/-! ### What a step can do -/

/-- The call of `complete` that the task is in. -/
def Pc.cont : Pc → Option Cont
  | .polling cont | .submitted cont | .parked cont | .woken cont => some cont
  | _ => none

/-- The task is between two await points. -/
def Pc.Midway : Pc → Prop
  | .reserving _ | .reserved _ | .polling _ | .submitted _ => True
  | _ => False

theorem Pc.keys_eq (pc : Pc) : pc.keys = pc.cont.elim [] Cont.keys := by cases pc <;> rfl

inductive Step (b : Build) (st : State T) : Act T → State T → Prop
  | request {t : T} {req : Request} (hpc : (st.task t).cont = none) (hrun : st.running = none) :
      Step b st (.request t req) (st.yield t (.acquiring req))
  | permit {t : T} {req : Request} (hpc : st.task t = .acquiring req) (hrun : st.running = none) :
      Step b st (.permit t) ({ st with fill := st.fill - req.keyed.length }.run t (.reserving req))
  | reserve {t : T} {req : Request} (hpc : st.task t = .reserving req)
      (hroom : req.keyed.length ≤ st.capacity - st.queued.length) :
      Step b st (.reserve t) ({ st with fill := st.fill + req.keyed.length }.run t (.reserved req))
  | full {t : T} {req : Request} (hpc : st.task t = .reserving req) :
      Step b st (.reserve t) (st.run t (.polling (.reserve req)))
  | push {t : T} {req : Request} (hpc : st.task t = .reserved req) : Step b st (.push t) (st.push t req)
  | submit {t : T} {cont : Cont} {n : Nat} (hpc : st.task t = .polling cont) (hn : n ≤ st.queued.length) :
      Step b st (.submit t (some n)) ((st.submit n).run t (.submitted cont))
  | pass {t : T} {cont : Cont} {a : Act T} (ha : a = .submit t none ∨ a = .skip t) (hpc : st.task t = .polling cont) :
      Step b st a (st.run t (.submitted cont))
  | register {t : T} {cont : Cont} (hpc : st.task t = .submitted cont) :
      Step b st (.register t) (st.yield t (.parked cont))
  | drain {t : T} {cont : Cont} (hpc : st.task t = .woken cont) (hrun : st.running = none) :
      Step b st (.drain t) (st.drain b t cont)
  | acquire {t : T} {key : Nat} {keys : List Nat} (hpc : (st.task t).cont = some (.wait key keys))
      (hrun : st.CanRun t) (hpos : 0 < st.waiters.permits key) :
      Step b st (.acquire t) ({ st with waiters := { st.waiters with
        permits := Function.update st.waiters.permits key (st.waiters.permits key - 1) } }.abandon t
          (.returned (resultOf (st.waiters.permits key - 1))))
  | cancelAcquiring {t : T} {req : Request} (hpc : st.task t = .acquiring req) (hrun : st.running = none) :
      Step b st (.cancel t) (st.yield t .idle)
  | cancel {t : T} {cont : Cont} (hpc : (st.task t).cont = some cont) (hrun : st.running = none) :
      Step b st (.cancel t) ({ st with fill := st.fill + cont.permits }.abandon t .idle)
  | post {e : Entry} {result : Int32} {signalled : Bool} (hmem : e ∈ st.inFlight)
      (hpos : 0 < st.eventfd + signalled.toNat) :
      Step b st (.post e result signalled) { st with
        inFlight := st.inFlight.erase e
        completed := st.completed ++ [⟨e.userData, result⟩]
        eventfd := st.eventfd + signalled.toNat }
  | read (hpc : st.poller = .idle) : Step b st .read { st with eventfd := st.eventfd - 1, poller := .notifying }
  | notify (hpc : st.poller = .notifying) :
      Step b st .notify { st with
        poller := .idle
        task := fun t => match st.task t with
          | .parked cont => .woken cont
          | pc => pc }

theorem Step.of_eq {b : Build} {st st' : State T} {a : Act T} (e : step b st a = some st') : Step b st a st' := by
  cases a with
  | request t req =>
    simp only [step, taskStep] at e
    split at e
    all_goals first
      | cases e
      | (rename_i hpc
         obtain ⟨hrun, e⟩ := Option.ite_none_right_eq_some.1 e
         cases e
         exact .request (by rw [hpc]; rfl) hrun)
  | permit t =>
    simp only [step, taskStep] at e
    split at e
    · rename_i hpc
      obtain ⟨h, e⟩ := Option.ite_none_right_eq_some.1 e
      cases e
      exact .permit hpc h.1
    · cases e
  | reserve t =>
    simp only [step, taskStep] at e
    split at e
    · rename_i hpc
      split at e <;> cases e
      · exact .reserve hpc (by assumption)
      · exact .full hpc
    · cases e
  | push t =>
    simp only [step, taskStep] at e
    split at e
    · cases e
      exact .push (by assumption)
    · cases e
  | submit t consumed =>
    simp only [step, taskStep] at e
    split at e
    · rename_i hpc
      cases consumed with
      | none =>
        cases e
        exact .pass (.inl rfl) hpc
      | some n =>
        obtain ⟨hn, e⟩ := Option.ite_none_right_eq_some.1 e
        cases e
        exact .submit hpc hn
    · cases e
  | skip t =>
    simp only [step, taskStep] at e
    split at e
    · cases e
      exact .pass (.inr rfl) (by assumption)
    · cases e
  | register t =>
    simp only [step, taskStep] at e
    split at e
    · cases e
      exact .register (by assumption)
    · cases e
  | drain t =>
    simp only [step, taskStep] at e
    split at e
    · rename_i hpc
      obtain ⟨hrun, e⟩ := Option.ite_none_right_eq_some.1 e
      cases e
      exact .drain hpc hrun
    · cases e
  | acquire t =>
    simp only [step, taskStep] at e
    split at e
    all_goals first
      | cases e
      | (rename_i hpc
         obtain ⟨h, e⟩ := Option.ite_none_right_eq_some.1 e
         cases e
         exact .acquire (by rw [hpc]; rfl) h.1 h.2)
  | cancel t =>
    simp only [step, taskStep] at e
    split at e
    · rename_i hpc
      obtain ⟨hrun, e⟩ := Option.ite_none_right_eq_some.1 e
      cases e
      exact .cancelAcquiring hpc hrun
    · rename_i hpc
      obtain ⟨hrun, e⟩ := Option.ite_none_right_eq_some.1 e
      cases e
      exact .cancel (by rw [hpc]; rfl) hrun
    · rename_i hpc
      obtain ⟨hrun, e⟩ := Option.ite_none_right_eq_some.1 e
      cases e
      exact .cancel (by rw [hpc]; rfl) hrun
    · cases e
  | post en result signalled =>
    obtain ⟨⟨hmem, hsignal⟩, e⟩ := Option.ite_none_right_eq_some.1 e
    cases e
    refine .post hmem ?_
    rcases hsignal with rfl | hpos
    · exact Nat.succ_pos _
    · exact Nat.lt_of_lt_of_le hpos (Nat.le_add_right _ _)
  | read =>
    simp only [step] at e
    split at e
    · cases e
      exact .read (by assumption)
    · cases e
  | notify =>
    simp only [step] at e
    split at e
    · cases e
    · cases e
      exact .notify (by assumption)

end IoUring

end ShmRing
