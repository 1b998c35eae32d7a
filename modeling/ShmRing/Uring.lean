import ShmRing.Notice
import ShmRing.Queues

/-!
# The tasks over the queues

The tasks of an io-uring again, now with the queues as they are in the shared memory.  A task looks for room, pushes and
submits through borrows of the submission queue.  In the loop of `complete` it takes one completion after the other
through a borrow of the completion queue, to which the kernel appends in the meantime.

`ShmIoUring.state` is what such a state stands for in terms of lists.  The loop of a task is a single step there, at
the point where the queue is borrowed.  So every run over the queues is a run over lists (`run_refines`), whatever the
counters are at first and however often they wrap.
-/

namespace ShmRing

open Machine Transition Wrapping

namespace IoUring

/-- A task in the loop of `complete`. -/
structure Loop (T : Type) where
  task : T
  cont : Cont
  completion : CompletionQueue

/-- The queues are `sq` and `cq`; of `rest`, all but `capacity`, `queued` and `completed` is used. -/
structure ShmIoUring (T : Type) where
  sq : Inner Entry
  cq : Inner Completion
  loop : Option (Loop T)
  rest : State T

inductive Move (T : Type)
  | act (a : Act T)
  /-- The iterator over the completion queue is asked for an entry, which is handled. -/
  | next
  deriving DecidableEq

def Move.act? {T : Type} : Move T → Option (Act T)
  | act a => some a
  | next => none

variable {T : Type}

/-- The notices for the entries of an operation are established. -/
def State.establish (st : State T) (req : Request) : State T :=
  { st with
    waiters := st.waiters.establish (st.newKeys req)
    nextKey := st.nextKey + (st.entries req).length
    nextAlloc := st.nextAlloc + (st.entries req).length }

/-- `KeyOwner::wait` of the last key. -/
def State.wait [DecidableEq T] (st : State T) (t : T) (keys : List Nat) : State T :=
  match keys.getLast? with
  | some key => st.run t (.polling (.wait key keys))
  | none => st.yield t .idle

namespace ShmIoUring

def new (sq : Inner Entry) (cq : Inner Completion) : ShmIoUring T where
  sq
  cq
  loop := none
  rest := init (SubmissionQueue.borrow sq).capacity.toNat

def panic (u : ShmIoUring T) : ShmIoUring T := { u with rest := { u.rest with panicked := true } }

/-- `Submit::redeem_push` -/
def redeemPush (b : Build) (u : ShmIoUring T) (entry : List Entry) (allocations : List Nat) : ShmIoUring T :=
  if entry.length < allocations.length then u.panic
  else
    match (SubmissionQueue.borrow u.sq).pushMultiple b entry with
    | .error _ => u.panic
    | .ok submission =>
      { u with
        sq := submission.drop
        rest := { u.rest with
          stableTimeouts := u.rest.stableTimeouts ++
            (List.replicate (entry.length - allocations.length) none ++ allocations.map some) } }

/-- `ShmIoUring::submit`, of which the kernel has consumed `n` entries, and the refill of the permits. -/
def submit (u : ShmIoUring T) (n : Nat) : ShmIoUring T :=
  let (entries, sq) := u.sq.consume n
  if n ≤ u.rest.stableTimeouts.length then
    { u with
      sq
      rest := { u.rest with
        inFlight := u.rest.inFlight ++ entries
        stableTimeouts := u.rest.stableTimeouts.drop n
        dropped := u.rest.dropped ++ (u.rest.stableTimeouts.take n).filterMap id
        fill := u.rest.fill + n } }
  else { u.panic with sq }

variable [DecidableEq T]

/-- The room of the submission queue is compared with what the operation needs. -/
def reserve (b : Build) (u : ShmIoUring T) (t : T) (req : Request) : ShmIoUring T :=
  let submission := SubmissionQueue.borrow u.sq
  match b.sub submission.capacity submission.len with
  | .error _ => u.panic
  | .ok avail =>
    let u := { u with sq := submission.drop }
    if req.keyed.length ≤ avail.toNat then
      { u with rest := { u.rest with fill := u.rest.fill + req.keyed.length }.run t (.reserved req) }
    else { u with rest := u.rest.run t (.polling (.reserve req)) }

/-- The notices are established, and the entries pushed; the last of the keys is waited for. -/
def push (b : Build) (u : ShmIoUring T) (t : T) (req : Request) : ShmIoUring T :=
  let entries := u.rest.entries req
  let keys := u.rest.newKeys req
  let u := { u with rest := u.rest.establish req }
  let u := u.redeemPush b entries (entries.filterMap Entry.alloc)
  { u with rest := u.rest.wait t keys }

/-- One turn of the loop of `complete`. -/
def next (b : Build) (u : ShmIoUring T) (l : Loop T) : ShmIoUring T :=
  match l.completion.next u.cq with
  | (none, completion) =>
    { u with
      cq := completion.drop u.cq
      loop := none
      rest := u.rest.resume l.task l.cont }
  | (some entry, completion) =>
    if u.rest.waiters.notify entry.userData then
      match permitsOf b entry.result with
      | .ok n =>
        { u with
          loop := some { l with completion }
          rest := { u.rest with waiters := u.rest.waiters.signal entry.userData n } }
      | .error _ =>
        -- the panic drops the iterator, and the future
        { u with
          cq := completion.drop u.cq
          loop := none
          rest := { u.rest with
            waiters := u.rest.waiters.remove [entry.userData]
            fill := u.rest.fill + l.cont.permits }.abandon l.task .idle }
    else { u with loop := some { l with completion } }

/-- The steps of a task, none of which is in the loop of `complete`. -/
def taskStep (b : Build) (u : ShmIoUring T) : Act T → Option (ShmIoUring T)
  | .reserve t =>
    match u.rest.task t with
    | .reserving req => some (u.reserve b t req)
    | _ => none
  | .push t =>
    match u.rest.task t with
    | .reserved req => some (u.push b t req)
    | _ => none
  | .submit t (some n) =>
    match u.rest.task t with
    | .polling cont =>
      if (SubmissionQueue.borrow u.sq).isEmpty = false ∧ n ≤ u.sq.sqLen.toNat then
        let u := u.submit n
        some { u with rest := u.rest.run t (.submitted cont) }
      else none
    | _ => none
  | .drain t =>
    match u.rest.task t with
    | .woken cont =>
      if u.rest.running = none then
        some { u with
          loop := some ⟨t, cont, .borrow u.cq⟩
          rest := { u.rest with running := some t } }
      else none
    | _ => none
  -- the other steps have nothing to do with the queues
  | a => (IoUring.taskStep b u.rest a).map fun rest => { u with rest }

/-- The kernel posts a completion only while the completion queue has room, and keeps it to itself until then. -/
def step (b : Build) (u : ShmIoUring T) : Move T → Option (ShmIoUring T)
  | .next => u.loop.map fun l => u.next b l
  | .act (.post e result signalled) =>
    if (e ∈ u.rest.inFlight ∧ (signalled = true ∨ 0 < u.rest.eventfd)) ∧ u.cq.HasRoom then
      some { u with
        cq := u.cq.post ⟨e.userData, result⟩
        rest := { u.rest with
          inFlight := u.rest.inFlight.erase e
          eventfd := u.rest.eventfd + signalled.toNat } }
    else none
  | .act .read => (IoUring.step b u.rest .read).map fun rest => { u with rest }
  | .act .notify => (IoUring.step b u.rest .notify).map fun rest => { u with rest }
  | .act a => if u.loop.isNone then u.taskStep b a else none

end ShmIoUring

/-! ### What a state stands for -/

/-- The state with these queues. -/
def State.over (st : State T) (capacity : Nat) (queued : List Entry) (completed : List Completion) : State T :=
  { st with capacity, queued, completed }

/-- The step has nothing to do with the queues. -/
def Act.Free : Act T → Prop
  | .reserve _ | .push _ | .submit _ (some _) | .drain _ | .post .. => False
  | _ => True

section Frame

variable [DecidableEq T] {b : Build} {st : State T} {t : T} {cont : Cont} {capacity : Nat} {queued : List Entry}
  {completed : List Completion}

private theorem resume_over :
    (st.over capacity queued completed).resume t cont = (st.resume t cont).over capacity queued completed := by
  cases cont <;> rfl

/-- A step that has nothing to do with the queues leaves them alone. -/
private theorem taskStep_over {a : Act T} (ha : a.Free) :
    IoUring.taskStep b (st.over capacity queued completed) a =
      (IoUring.taskStep b st a).map fun st' => st'.over capacity queued completed := by
  cases a with
  | request t req | permit t | acquire t | cancel t =>
    simp only [IoUring.taskStep, State.over]
    split <;> first | rfl | (rw [Option.map_if]; rfl)
  | submit t consumed =>
    cases consumed with
    | none =>
      simp only [IoUring.taskStep, State.over]
      split <;> rfl
    | some n => exact ha.elim
  | skip t | register t =>
    simp only [IoUring.taskStep, State.over]
    split <;> rfl
  | reserve | push | drain | post => exact ha.elim
  | read | notify => rfl

/-! ### The poller -/

/-- What a task is after `notify_waiters`. -/
def Pc.wake : Pc → Pc
  | .parked cont => .woken cont
  | pc => pc

@[simp] theorem Pc.wake_keys (pc : Pc) : pc.wake.keys = pc.keys := by cases pc <;> rfl

private theorem step_read (h : st.poller = .idle) :
    IoUring.step b st .read = some { st with eventfd := st.eventfd - 1, poller := .notifying } := by
  simp only [IoUring.step, h]

private theorem step_notify (h : st.poller = .notifying) :
    IoUring.step b st .notify = some { st with poller := .idle, task := fun t => (st.task t).wake } := by
  simp only [IoUring.step, h]
  rfl

/-! ### A drain that is still under way -/

/-- What a loop will have done with the completions that it borrowed, while others were appended. -/
def State.drained (b : Build) (st : State T) (t : T) (cont : Cont) (later : List Completion) : State T :=
  let st := st.drain b t cont
  { st with completed := st.completed ++ later }

variable {later : List Completion}

private theorem drained_borrow : st.drained b t cont [] = st.drain b t cont := by
  unfold State.drained
  dsimp only
  rw [List.append_nil]

/-- The drain has nothing to do with these fields. -/
private theorem drained_frame (inFlight : List Entry) (eventfd : Nat) (poller : PollerPc) :
    ({ st with inFlight, eventfd, poller }.over capacity queued completed).drained b t cont later =
      { (st.over capacity queued completed).drained b t cont later with inFlight, eventfd, poller } := by
  unfold State.drained State.drain
  dsimp only [State.over]
  split <;> cases cont <;> rfl

private theorem drained_running (running : Option T) :
    ({ st with running }.over capacity queued completed).drained b t cont later =
      (st.over capacity queued completed).drained b t cont later := by
  unfold State.drained State.drain
  dsimp only [State.over]
  split <;> cases cont <;> rfl

private theorem drained_inFlight : (st.drained b t cont later).inFlight = st.inFlight := by
  unfold State.drained State.drain
  split <;> cases cont <;> rfl

private theorem drained_eventfd : (st.drained b t cont later).eventfd = st.eventfd := by
  unfold State.drained State.drain
  split <;> cases cont <;> rfl

private theorem drained_poller : (st.drained b t cont later).poller = st.poller := by
  unfold State.drained State.drain
  split <;> cases cont <;> rfl

private theorem drained_panicked : (st.drained b t cont later).panicked = st.panicked := by
  unfold State.drained State.drain
  split <;> cases cont <;> rfl

private theorem drained_append (c : Completion) :
    st.drained b t cont (later ++ [c]) =
      { st.drained b t cont later with completed := (st.drained b t cont later).completed ++ [c] } := by
  unfold State.drained
  rw [List.append_assoc]

/-- The tasks that are woken are others. -/
private theorem wake_update {task : T → Pc} {pc : Pc} (h : pc.wake = pc) :
    (fun x => (Function.update task t pc x).wake) = Function.update (fun x => (task x).wake) t pc := by
  funext x
  by_cases hx : x = t
  · rw [hx, Function.update_self, Function.update_self, h]
  · rw [Function.update_of_ne hx, Function.update_of_ne hx]

private theorem drained_wake (poller : PollerPc) :
    ({ st with poller, task := fun x => (st.task x).wake }.over capacity queued completed).drained b t cont later =
      { (st.over capacity queued completed).drained b t cont later with
        poller
        task := fun x => (((st.over capacity queued completed).drained b t cont later).task x).wake } := by
  have hupdate := fun pc h => @wake_update T _ t st.task pc h
  unfold State.drained State.drain
  dsimp only [State.over]
  split
  · cases cont
    · simp only [State.resume, State.run, hupdate (.reserving _) rfl]
    · simp only [State.resume, State.run, hupdate (.polling _) rfl]
  · simp only [State.abandon, State.yield, hupdate .idle rfl, Pc.wake_keys]

/-- A completion whose waiter is gone, or which was handed to its waiter. -/
private theorem drained_cons {c : Completion} {cs : List Completion} {waiters : Waiters}
    (h : st.waiters.complete b (c :: cs) = waiters.complete b cs) :
    ({ st with waiters }.over capacity queued cs).drained b t cont later =
      (st.over capacity queued (c :: cs)).drained b t cont later := by
  unfold State.drained State.drain
  simp only [State.over, h]

/-- The loop is at its end. -/
private theorem drained_nil (h : st.completed = []) :
    st.drained b t cont later = { st.resume t cont with completed := later } := by
  have hcomplete : st.waiters.complete b st.completed = (st.waiters, none) := by rw [h, Waiters.complete]
  unfold State.drained State.drain
  simp only [hcomplete]
  cases cont <;> rfl

/-- The loop panics. -/
private theorem drained_error {cs : List Completion} {waiters : Waiters}
    (h : st.waiters.complete b st.completed = (waiters, some cs)) :
    st.drained b t cont later =
      { { st with waiters, fill := st.fill + cont.permits }.abandon t .idle with completed := cs ++ later } := by
  unfold State.drained State.drain
  simp only [h]
  rfl

end Frame

namespace ShmIoUring

/-- The state in terms of lists; of a loop, what it will have done with the completions that it borrowed. -/
def state [DecidableEq T] (b : Build) (u : ShmIoUring T) : State T :=
  match u.loop with
  | none => u.rest.over u.sq.ringEntries.toNat u.sq.contents u.cq.contents
  | some l =>
    (u.rest.over u.sq.ringEntries.toNat u.sq.contents (l.completion.unread u.cq)).drained b l.task l.cont
      (l.completion.later u.cq)

/-- The queues have no more entries than slots, and a borrow is within its queue. -/
structure Ok (u : ShmIoUring T) : Prop where
  sq : u.sq.Ok
  cq : u.cq.Ok
  loop : ∀ l, u.loop = some l → l.completion.Ok u.cq

variable {b : Build} {u u' : ShmIoUring T}

/-- The entries are pushed behind those that are queued, or none of them is. -/
theorem redeemPush_refines (h : u.Ok) (entry : List Entry) (allocations : List Nat) :
    ∃ sq rest, u.redeemPush b entry allocations = { u with sq, rest } ∧ sq.Ok ∧
      rest.over sq.ringEntries.toNat sq.contents u.cq.contents =
        (u.rest.over u.sq.ringEntries.toNat u.sq.contents u.cq.contents).redeemPush entry allocations := by
  have hpush := (SubmissionQueue.ok_borrow h.sq).pushMultiple b entry
  have hring : (SubmissionQueue.borrow u.sq).queue.ringEntries = u.sq.ringEntries := rfl
  have hpending : (SubmissionQueue.borrow u.sq).pending = u.sq.contents := rfl
  rw [hring, hpending] at hpush
  unfold redeemPush State.redeemPush
  by_cases hlen : entry.length < allocations.length
  · refine ⟨u.sq, u.panic.rest, by rw [if_pos hlen]; rfl, h.sq, ?_⟩
    rw [if_pos (.inr hlen)]
    rfl
  · rw [if_neg hlen]
    split at hpush
    · rename_i hfull
      refine ⟨u.sq, u.panic.rest, by rw [hpush]; rfl, h.sq, ?_⟩
      rw [if_pos (.inl hfull)]
      rfl
    · rename_i hfits
      obtain ⟨s, hs, hok, hpending', hentries⟩ := hpush
      refine ⟨s.drop, _, by rw [hs], hok.drop, Eq.trans ?_ (if_neg (not_or.2 ⟨hfits, hlen⟩)).symm⟩
      have hcontents : s.drop.contents = u.sq.contents ++ entry := hpending'
      have hdrop : s.drop.ringEntries = u.sq.ringEntries := hentries
      rw [hcontents, hdrop]
      rfl

variable [DecidableEq T]

/-- What the step over lists is that answers one over the queues. -/
def Answered (b : Build) (u u' : ShmIoUring T) : Move T → Prop
  | .act a => IoUring.step b (u.state b) a = some (u'.state b)
  | .next => u'.state b = u.state b

private theorem state_of_none (h : u.loop = none) :
    u.state b = u.rest.over u.sq.ringEntries.toNat u.sq.contents u.cq.contents := by
  rw [state, h]

private theorem state_of_some {l : Loop T} (h : u.loop = some l) :
    u.state b = (u.rest.over u.sq.ringEntries.toNat u.sq.contents (l.completion.unread u.cq)).drained b l.task l.cont
      (l.completion.later u.cq) := by
  rw [state, h]

/-- No task is in the loop, before and after. -/
private theorem answered_of_none {a : Act T} (h : u.loop = none) (h' : u'.loop = none)
    (e : IoUring.step b (u.rest.over u.sq.ringEntries.toNat u.sq.contents u.cq.contents) a =
      some (u'.rest.over u'.sq.ringEntries.toNat u'.sq.contents u'.cq.contents)) : Answered b u u' (.act a) := by
  rw [Answered, state_of_none h, state_of_none h', e]

/-! ### Submissions -/

/-- The room is computed without an overflow. -/
theorem reserve_refines (h : u.Ok) {t : T} {req : Request} (hloop : u.loop = none)
    (hpc : u.rest.task t = .reserving req) :
    (u.reserve b t req).Ok ∧ Answered b u (u.reserve b t req) (.act (.reserve t)) := by
  obtain ⟨room, hsub, hroom⟩ := (SubmissionQueue.ok_borrow h.sq).room b
  have hroom : room.toNat = u.sq.ringEntries.toNat - u.sq.contents.length := hroom
  have hreserve : u.reserve b t req =
      { u with
        rest := if req.keyed.length ≤ room.toNat then
            { u.rest with fill := u.rest.fill + req.keyed.length }.run t (.reserved req)
          else u.rest.run t (.polling (.reserve req)) } := by
    unfold reserve
    simp only [hsub]
    split <;> rfl
  rw [hreserve]
  refine ⟨⟨h.sq, h.cq, h.loop⟩, answered_of_none hloop hloop ?_⟩
  simp only [IoUring.step, IoUring.taskStep, State.over, hpc, ← hroom]
  split <;> rfl

theorem push_refines (h : u.Ok) {t : T} {req : Request} (hloop : u.loop = none) (hpc : u.rest.task t = .reserved req) :
    (u.push b t req).Ok ∧ Answered b u (u.push b t req) (.act (.push t)) := by
  let st := u.rest.over u.sq.ringEntries.toNat u.sq.contents u.cq.contents
  let entries := u.rest.entries req
  let keys := u.rest.newKeys req
  have hok : { u with rest := u.rest.establish req }.Ok := ⟨h.sq, h.cq, h.loop⟩
  obtain ⟨sq, rest, hredeem, hsq, hover⟩ := redeemPush_refines (b := b) hok entries (entries.filterMap Entry.alloc)
  have hover : rest.over sq.ringEntries.toNat sq.contents u.cq.contents =
    (st.establish req).redeemPush entries (entries.filterMap Entry.alloc) := hover
  have hpush : u.push b t req = { u with sq, rest := rest.wait t keys } := by
    simp only [push, entries, keys, hredeem]
  have hstep : IoUring.step b st (.push t) = some (st.push t req) := by
    simp only [IoUring.step, IoUring.taskStep, st, State.over, hpc]
  have hlist : st.push t req = ((st.establish req).redeemPush entries (entries.filterMap Entry.alloc)).wait t keys := rfl
  rw [hpush]
  refine ⟨⟨hsq, h.cq, h.loop⟩, answered_of_none hloop hloop (hstep.trans ?_)⟩
  rw [hlist, ← hover]
  simp only [State.wait]
  split <;> rfl

/-- The kernel takes the entries that were queued first. -/
theorem submit_refines (h : u.Ok) (hstable : Stable (u.state b)) {t : T} {cont : Cont} {n : Nat} (hloop : u.loop = none)
    (hpc : u.rest.task t = .polling cont) (hn : n ≤ u.sq.sqLen.toNat) :
    { u.submit n with rest := (u.submit n).rest.run t (.submitted cont) }.Ok ∧
    Answered b u { u.submit n with rest := (u.submit n).rest.run t (.submitted cont) } (.act (.submit t (some n))) := by
  rw [u.sq.toNat_sqLen] at hn
  rw [state_of_none hloop] at hstable
  have haligned : u.rest.stableTimeouts = u.sq.contents.map Entry.alloc := hstable.aligned
  have hlen : n ≤ u.rest.stableTimeouts.length := by
    rw [haligned, List.length_map]
    exact hn
  have hsubmit : u.submit n =
      { u with
        sq := (u.sq.consume n).2
        rest := { u.rest with
          inFlight := u.rest.inFlight ++ (u.sq.consume n).1
          stableTimeouts := u.rest.stableTimeouts.drop n
          dropped := u.rest.dropped ++ (u.rest.stableTimeouts.take n).filterMap id
          fill := u.rest.fill + n } } := if_pos hlen
  have hstep : IoUring.step b (u.rest.over u.sq.ringEntries.toNat u.sq.contents u.cq.contents) (.submit t (some n)) =
      some (((u.rest.over u.sq.ringEntries.toNat u.sq.contents u.cq.contents).submit n).run t (.submitted cont)) := by
    simp only [IoUring.step, IoUring.taskStep, State.over, hpc]
    exact if_pos hn
  have hlist : (u.rest.over u.sq.ringEntries.toNat u.sq.contents u.cq.contents).submit n = _ := if_pos hlen
  rw [hsubmit]
  refine ⟨⟨h.sq.consume hn, h.cq, h.loop⟩, answered_of_none hloop hloop (hstep.trans ?_)⟩
  dsimp only
  rw [hlist, Inner.consume_fst hn, Inner.consume_snd hn]
  rfl

/-! ### Completions -/

/-- A turn of the loop is a part of the drain. -/
theorem next_refines (h : u.Ok) {l : Loop T} (hloop : u.loop = some l) :
    (u.next b l).Ok ∧ Answered b u (u.next b l) .next := by
  have hl := h.loop l hloop
  rw [Answered, state_of_some hloop]
  cases hunread : l.completion.unread u.cq with
  | nil =>
    obtain ⟨hdrop, hcontents⟩ := hl.drop
    rw [hunread, List.nil_append] at hcontents
    unfold next
    rw [CompletionQueue.next_of_nil hunread]
    refine ⟨⟨h.sq, hdrop, nofun⟩, ?_⟩
    rw [state_of_none rfl, drained_nil rfl]
    dsimp only
    rw [hcontents, resume_over]
    rfl
  | cons e rest =>
    obtain ⟨c, hnext, hc, hrest, hlater⟩ := CompletionQueue.next_of_cons hl hunread
    obtain ⟨hdrop, hcontents⟩ := hc.drop
    have hok : ∀ l', some { l with completion := c } = some l' → l'.completion.Ok u.cq := by
      rintro l' ⟨⟩
      exact hc
    unfold next
    rw [hnext]
    dsimp only
    split
    · rename_i hnotify
      cases hpermits : permitsOf b e.result with
      | ok n =>
        refine ⟨⟨h.sq, h.cq, hok⟩, ?_⟩
        rw [state_of_some rfl]
        simp only [hrest, hlater]
        exact drained_cons (Waiters.complete_cons_ok hnotify hpermits)
      | error f =>
        refine ⟨⟨h.sq, hdrop, nofun⟩, ?_⟩
        have hcomplete : u.rest.waiters.complete b (e :: rest) = _ := Waiters.complete_cons_error hnotify hpermits
        rw [state_of_none rfl, drained_error hcomplete]
        dsimp only
        rw [hcontents, hrest, hlater]
        rfl
    · rename_i hnotify
      refine ⟨⟨h.sq, h.cq, hok⟩, ?_⟩
      rw [state_of_some rfl]
      simp only [hrest, hlater]
      exact drained_cons (Waiters.complete_cons_of_not (Bool.eq_false_of_not_eq_true hnotify))

/-- The loop begins, and is the drain of what is in the queue now. -/
theorem drain_refines (h : u.Ok) {t : T} {cont : Cont} (hloop : u.loop = none) (hpc : u.rest.task t = .woken cont)
    (hrun : u.rest.running = none) :
    { u with loop := some ⟨t, cont, .borrow u.cq⟩, rest := { u.rest with running := some t } }.Ok ∧
    Answered b u { u with loop := some ⟨t, cont, .borrow u.cq⟩, rest := { u.rest with running := some t } }
      (.act (.drain t)) := by
  refine ⟨⟨h.sq, h.cq, fun l hl => ?_⟩, ?_⟩
  · cases hl
    exact CompletionQueue.ok_borrow h.cq
  · have hstep : IoUring.step b (u.rest.over u.sq.ringEntries.toNat u.sq.contents u.cq.contents) (.drain t) =
        some ((u.rest.over u.sq.ringEntries.toNat u.sq.contents u.cq.contents).drain b t cont) := by
      simp only [IoUring.step, IoUring.taskStep, State.over, hpc, hrun, if_true]
    rw [Answered, state_of_none hloop, state_of_some rfl, hstep, drained_running]
    dsimp only
    rw [CompletionQueue.later_borrow, CompletionQueue.unread_borrow, drained_borrow]

/-- The kernel appends a completion, behind what a loop has borrowed. -/
theorem post_refines (h : u.Ok) {e : Entry} {result : Int32} {signalled : Bool}
    (hmem : e ∈ u.rest.inFlight ∧ (signalled = true ∨ 0 < u.rest.eventfd)) (hroom : u.cq.HasRoom) :
    { u with
      cq := u.cq.post ⟨e.userData, result⟩
      rest := { u.rest with inFlight := u.rest.inFlight.erase e, eventfd := u.rest.eventfd + signalled.toNat } }.Ok ∧
    Answered b u { u with
      cq := u.cq.post ⟨e.userData, result⟩
      rest := { u.rest with inFlight := u.rest.inFlight.erase e, eventfd := u.rest.eventfd + signalled.toNat } }
      (.act (.post e result signalled)) := by
  obtain ⟨hcq, hcontents⟩ := h.cq.post hroom ⟨e.userData, result⟩
  cases hloop : u.loop with
  | none =>
    refine ⟨⟨h.sq, hcq, nofun⟩, answered_of_none hloop rfl ?_⟩
    rw [hcontents]
    exact if_pos hmem
  | some l =>
    obtain ⟨hl, hunread, hlater⟩ := (h.loop l hloop).post hroom ⟨e.userData, result⟩
    refine ⟨⟨h.sq, hcq, fun l' hl' => ?_⟩, ?_⟩
    · cases hl'
      exact hl
    · rw [Answered, state_of_some hloop, state_of_some rfl]
      dsimp only
      rw [hunread, hlater, drained_append]
      have hframe := @drained_frame T _ b u.rest l.task l.cont u.sq.ringEntries.toNat u.sq.contents
        (l.completion.unread u.cq) (l.completion.later u.cq) (u.rest.inFlight.erase e)
        (u.rest.eventfd + signalled.toNat) u.rest.poller
      rw [hframe]
      simp only [IoUring.step, drained_inFlight, drained_eventfd, drained_poller]
      exact if_pos hmem

/-! ### Signals -/

private theorem state_panicked : (u.state b).panicked = u.rest.panicked := by
  cases hloop : u.loop with
  | none =>
    rw [state_of_none hloop]
    rfl
  | some l =>
    rw [state_of_some hloop, drained_panicked]
    rfl

private theorem state_poller : (u.state b).poller = u.rest.poller := by
  cases hloop : u.loop with
  | none =>
    rw [state_of_none hloop]
    rfl
  | some l =>
    rw [state_of_some hloop, drained_poller]
    rfl

theorem read_refines (h : u.Ok) (hpoller : u.rest.poller = .idle) :
    { u with rest := { u.rest with eventfd := u.rest.eventfd - 1, poller := .notifying } }.Ok ∧
    Answered b u { u with rest := { u.rest with eventfd := u.rest.eventfd - 1, poller := .notifying } }
      (.act .read) := by
  refine ⟨⟨h.sq, h.cq, h.loop⟩, ?_⟩
  rw [Answered, step_read (state_poller.trans hpoller)]
  cases hloop : u.loop with
  | none =>
    rw [state_of_none hloop, state_of_none rfl]
    rfl
  | some l =>
    have hframe := @drained_frame T _ b u.rest l.task l.cont u.sq.ringEntries.toNat u.sq.contents
      (l.completion.unread u.cq) (l.completion.later u.cq) u.rest.inFlight (u.rest.eventfd - 1) .notifying
    rw [state_of_some hloop, state_of_some rfl]
    dsimp only
    rw [hframe, drained_eventfd]
    have hkept := @drained_inFlight T _ b (u.rest.over u.sq.ringEntries.toNat u.sq.contents (l.completion.unread u.cq))
      l.task l.cont (l.completion.later u.cq)
    simp only [hkept]
    rfl

theorem notify_refines (h : u.Ok) (hpoller : u.rest.poller = .notifying) :
    { u with rest := { u.rest with poller := .idle, task := fun t => (u.rest.task t).wake } }.Ok ∧
    Answered b u { u with rest := { u.rest with poller := .idle, task := fun t => (u.rest.task t).wake } }
      (.act .notify) := by
  refine ⟨⟨h.sq, h.cq, h.loop⟩, ?_⟩
  rw [Answered, step_notify (state_poller.trans hpoller)]
  cases hloop : u.loop with
  | none =>
    rw [state_of_none hloop, state_of_none rfl]
    rfl
  | some l =>
    rw [state_of_some hloop, state_of_some rfl]
    dsimp only
    rw [drained_wake]

/-! ### Runs -/

/-- A step that has nothing to do with the queues. -/
theorem free_refines (h : u.Ok) {a : Act T} (ha : a.Free) (hread : a ≠ .read) (hnotify : a ≠ .notify)
    (hloop : u.loop = none) (e : (IoUring.taskStep b u.rest a).map (fun rest => { u with rest }) = some u') :
    u'.Ok ∧ Answered b u u' (.act a) := by
  obtain ⟨rest, hrest, rfl⟩ := Option.map_eq_some_iff.1 e
  refine ⟨⟨h.sq, h.cq, h.loop⟩, answered_of_none hloop hloop ?_⟩
  have hstep : ∀ st : State T, IoUring.step b st a = IoUring.taskStep b st a := by
    intro st
    cases a with
    | read => exact absurd rfl hread
    | notify => exact absurd rfl hnotify
    | post => exact ha.elim
    | _ => rfl
  rw [hstep, taskStep_over ha, hrest]
  rfl

theorem step_refines {m : Move T} (h : u.Ok) (hstable : Stable (u.state b)) (e : u.step b m = some u') :
    u'.Ok ∧ Answered b u u' m := by
  cases m with
  | next =>
    obtain ⟨l, hloop, rfl⟩ := Option.map_eq_some_iff.1 e
    exact next_refines h hloop
  | act a =>
    cases a with
    | post en result =>
      obtain ⟨⟨hmem, hroom⟩, e⟩ := Option.ite_none_right_eq_some.1 e
      cases e
      exact post_refines h hmem hroom
    | read =>
      obtain ⟨rest, hrest, rfl⟩ := Option.map_eq_some_iff.1 e
      cases Step.of_eq hrest with
      | pass ha => rcases ha with ha | ha <;> cases ha
      | read hpc => exact read_refines h hpc
    | notify =>
      obtain ⟨rest, hrest, rfl⟩ := Option.map_eq_some_iff.1 e
      cases Step.of_eq hrest with
      | pass ha => rcases ha with ha | ha <;> cases ha
      | notify hpc => exact notify_refines h hpc
    | reserve t =>
      obtain ⟨hnone, e⟩ := Option.ite_none_right_eq_some.1 e
      have hloop := Option.isNone_iff_eq_none.1 hnone
      simp only [taskStep] at e
      split at e <;> cases e
      exact reserve_refines h hloop (by assumption)
    | push t =>
      obtain ⟨hnone, e⟩ := Option.ite_none_right_eq_some.1 e
      have hloop := Option.isNone_iff_eq_none.1 hnone
      simp only [taskStep] at e
      split at e <;> cases e
      exact push_refines h hloop (by assumption)
    | drain t =>
      obtain ⟨hnone, e⟩ := Option.ite_none_right_eq_some.1 e
      have hloop := Option.isNone_iff_eq_none.1 hnone
      simp only [taskStep] at e
      split at e
      · rename_i hpc
        obtain ⟨hrun, e⟩ := Option.ite_none_right_eq_some.1 e
        cases e
        exact drain_refines h hloop hpc hrun
      · cases e
    | submit t consumed =>
      obtain ⟨hnone, e⟩ := Option.ite_none_right_eq_some.1 e
      have hloop := Option.isNone_iff_eq_none.1 hnone
      cases consumed with
      | none => exact free_refines h trivial nofun nofun hloop e
      | some n =>
        simp only [taskStep] at e
        split at e
        · rename_i hpc
          obtain ⟨⟨-, hn⟩, e⟩ := Option.ite_none_right_eq_some.1 e
          cases e
          exact submit_refines h hstable hloop hpc hn
        · cases e
    | request | permit | skip | register | acquire | cancel =>
      obtain ⟨hnone, e⟩ := Option.ite_none_right_eq_some.1 e
      exact free_refines h trivial nofun nofun (Option.isNone_iff_eq_none.1 hnone) e

theorem stable_of_run {capacity : Nat} {tr : List (Act T)} {st : State T}
    (h : Run (IoUring.step b) (init capacity) tr st) : Stable st :=
  h.invariant (I := fun _ st => Stable st) (stable_init _) fun _ _ _ _ h e => h.step e

/-- Every run over the queues is a run over lists, with never more entries than slots, and neither the arithmetic of the
queues nor a push or a submission panics. -/
theorem run_refines {sq : Inner Entry} {cq : Inner Completion} {tr : List (Move T)}
    (hsq : IsMask sq.ringMask sq.ringEntries.toNat) (hcq : IsMask cq.ringMask cq.ringEntries.toNat)
    (hsq' : sq.head = sq.tail) (hcq' : cq.head = cq.tail) (h : Run (step b) (new sq cq) tr u) :
    Run (IoUring.step b) (init sq.ringEntries.toNat) (tr.filterMap Move.act?) (u.state b) ∧ u.Ok ∧
      u.rest.panicked = false := by
  have hinv : Run (IoUring.step b) (init sq.ringEntries.toNat) (tr.filterMap Move.act?) (u.state b) ∧ u.Ok := by
    refine h.invariant (I := fun tr u => Run (IoUring.step b) (init sq.ringEntries.toNat) (tr.filterMap Move.act?)
      (u.state b) ∧ u.Ok) ⟨?_, Inner.ok_of_eq hsq hsq', Inner.ok_of_eq hcq hcq', nofun⟩ ?_
    · have hinit : (new sq cq : ShmIoUring T).state b = (init sq.ringEntries.toNat).over sq.ringEntries.toNat
        sq.contents cq.contents := rfl
      rw [hinit, Inner.contents_of_eq hsq', Inner.contents_of_eq hcq']
      exact Run.nil
    · rintro tr u m u' ⟨hrun, hok⟩ e
      obtain ⟨hok', hanswered⟩ := step_refines hok (stable_of_run hrun) e
      rw [List.filterMap_append]
      refine ⟨?_, hok'⟩
      cases m with
      | act a => exact hrun.snoc hanswered
      | next =>
        have hnext : [(Move.next : Move T)].filterMap Move.act? = [] := rfl
        rw [show u'.state b = u.state b from hanswered, hnext, List.append_nil]
        exact hrun
  exact ⟨hinv.1, hinv.2, state_panicked.symm.trans (stable_of_run hinv.1).panicked⟩

/-- Four slots, and counters that wrap with the second entry. -/
theorem run_refines_wrapped : ∃ u : ShmIoUring Unit,
    Run (IoUring.step .release) (init 4)
      [.request () .wait, .permit (), .reserve (), .push (), .submit () (some 2), .register (),
        .post ⟨1, some 0⟩ 0 true, .read, .notify, .drain (), .post ⟨0, some 1⟩ (-125) true] (u.state .release) ∧
      u.rest.panicked = false ∧ u.sq.tail = 1 ∧ u.cq.contents = [⟨0, -125⟩] ∧ u.rest.waiters.permits 1 = 1 := by
  have h : Run (step .release)
      (new ⟨4294967295, 4294967295, 3, 4, fun _ => ⟨0, none⟩⟩ ⟨4294967295, 4294967295, 7, 8, fun _ => ⟨0, 0⟩⟩)
      [.act (.request () .wait), .act (.permit ()), .act (.reserve ()), .act (.push ()), .act (.submit () (some 2)),
        .act (.register ()), .act (.post ⟨1, some 0⟩ 0 true), .act .read, .act .notify, .act (.drain ()), .next,
        .act (.post ⟨0, some 1⟩ (-125) true), .next] _ := run_iff_exec.2 rfl
  have hrefines := run_refines ⟨2, by decide, rfl, rfl⟩ ⟨3, by decide, rfl, rfl⟩ rfl rfl h
  exact ⟨_, hrefines.1, hrefines.2.2, rfl, rfl, rfl⟩

end ShmIoUring

end IoUring

end ShmRing
