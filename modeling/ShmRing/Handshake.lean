import ShmRing.Data
import ShmRing.Lib.Futex
import ShmRing.Lib.Transition

/-!
# The handshake of two sides

A side announces whether it is going to publish (`activate`, `deactivate`) and wakes the other side after it has
published (`Producer::sync`, then `ShmIoUring::wake`).  Any number of threads of the other side wait for the one or the
other, in a system call of their own or through entries of an io-uring.

Each call stores first and wakes then, and each waiter checks and sleeps in one step, so that a call to `activate` or
`deactivate` that has returned leaves nobody asleep whom it concerned.  The calls that have returned are recorded, with
the number of changes of their word up to their store.

`ShmIoUring::wake` means to wake everyone, but `u32::MAX` is for the kernel a count below zero, with which it wakes one
thread of each word, and that may be one that has been woken before and did not run yet.  The call wakes whom it
concerns if such a thread is always alone on the producer word (`awake_of_run`), and may leave it asleep if another one
is queued there and on the blocked word (`asleep_of_queued`).
-/

namespace ShmRing

open Transition

namespace Handshake

/-- A call of a waiter, with the words it has read and was given. -/
inductive Wait
  /-- `wait_for_remote`, with the value of `blocked` that it has loaded. -/
  | remote (loaded : UInt32)
  /-- `wait_for_message` -/
  | message (head : UInt32)
  deriving DecidableEq, Repr

/-- The `FutexWaitv`s of the call, where the side `s` is the remote one. -/
def Wait.wakes (s : ClientSide) : Wait → List (HeadWord × UInt32)
  | .remote loaded => [(.blocked, loaded), (.sendIndicator s, 0)]
  | .message head => [(.blocked, 0), (.sendIndicator s, 1), (.producer s, head)]

/-- Whether a wait is that of `Ring` or that of `ShmIoUring`. -/
inductive Via
  | ring
  | ioUring
  deriving DecidableEq, Repr

inductive WaiterPc
  | idle
  /-- In `wait_for_remote`, with the value of `blocked`. -/
  | loaded (via : Via) (blocked : UInt32)
  /-- The entry is in the submission queue. -/
  | queued (wait : Wait)
  /-- In the kernel. -/
  | waiting (via : Via) (wait : Wait)
  deriving DecidableEq, Repr

/-- The wait that is in the kernel. -/
def WaiterPc.wait? : WaiterPc → Option Wait
  | .waiting _ wait => some wait
  | _ => none

/-- A call of the publishing side. -/
inductive Op
  | activate
  | deactivate
  /-- `ShmIoUring::wake` -/
  | wake
  deriving DecidableEq, Repr

/-- The word that the call is about. -/
def Op.word (s : ClientSide) : Op → HeadWord
  | .activate => .sendIndicator s
  | .deactivate => .sendIndicator s
  | .wake => .producer s

/-- A call, and the number of changes of its word up to its store, or up to its begin for `wake`. -/
structure Stamped where
  op : Op
  version : Nat
  deriving DecidableEq, Repr

inductive CallerPc
  | idle
  /-- In `activate` or `deactivate`, between the store and the wake. -/
  | stored (call : Stamped)
  /-- In `ShmIoUring::wake`, before its entries are pushed. -/
  | begun (call : Stamped)
  /-- Both entries are in the submission queue. -/
  | queued (call : Stamped)
  /-- The kernel has woken the producer word. -/
  | wokenProducer (call : Stamped)
  /-- The kernel has woken both words. -/
  | wokenBlocked (call : Stamped)
  deriving DecidableEq, Repr

variable {K C : Type}

structure State (K C : Type) where
  head : RingHead
  queue : Futex.Queue K HeadWord
  queued : Futex.Queued K HeadWord
  waiter : K → WaiterPc
  caller : C → CallerPc
  /-- How often the value of a word was changed. -/
  version : HeadWord → Nat
  /-- The calls that have returned. -/
  completed : List Stamped

inductive Act (K C : Type)
  | loadBlocked (k : K) (via : Via)
  | waitForRemote (k : K)
  | waitForMessage (k : K) (via : Via) (head : UInt32)
  /-- The kernel consumes the entry of a waiter. -/
  | start (k : K)
  /-- A time-out or a signal ends the sleep of a thread. -/
  | rouse (k : K)
  | resume (k : K)
  | activate (c : C)
  | deactivate (c : C)
  | signal (c : C)
  | sync (v : UInt32)
  | wake (c : C)
  | push (c : C)
  /-- The kernel consumes the entries of `ShmIoUring::wake`, one after the other, and wakes some threads by each. -/
  | wakeProducer (c : C) (woken : List K)
  | wakeBlocked (c : C) (woken : List K)
  | complete (c : C)
  /-- The lock is taken or released, or the ring is shut down. -/
  | block (v : UInt32)
  deriving DecidableEq, Repr

namespace State

def goto [DecidableEq K] (st : State K C) (k : K) (pc : WaiterPc) : State K C :=
  { st with waiter := Function.update st.waiter k pc }

def callerGoto [DecidableEq C] (st : State K C) (c : C) (pc : CallerPc) : State K C :=
  { st with caller := Function.update st.caller c pc }

def store (st : State K C) (w : HeadWord) (v : UInt32) : State K C :=
  { st with
    head := st.head.store w v
    version := Function.update st.version w (if st.head.load w = v then st.version w else st.version w + 1) }

/-- The kernel checks the words of the wait, and the thread sleeps or the call returns. -/
def futexWait [DecidableEq K] (s : ClientSide) (st : State K C) (k : K) (via : Via) (wait : Wait) : State K C :=
  match Futex.wait st.head.load st.queue k (wait.wakes s) with
  | some queue =>
    { st with queue, queued := Futex.enqueue st.queued k ((wait.wakes s).map Prod.fst) }.goto k (.waiting via wait)
  | none => st.goto k .idle

/-- A wait of a thread, by its own system call or by an entry. -/
def waitVia [DecidableEq K] (s : ClientSide) (st : State K C) (k : K) (wait : Wait) : Via → State K C
  | .ring => st.futexWait s k .ring wait
  | .ioUring => st.goto k (.queued wait)

/-- An entry has been woken, and its completion is under way. -/
def claimed (st : State K C) (k : K) : Bool :=
  match st.queue k, st.waiter k with
  | none, .waiting .ioUring _ => true
  | _, _ => false

/-- Who stays queued on a word through which some are woken.  A thread that is woken leaves it; an entry that had been
woken through another word leaves it with its completion. -/
def unqueue [DecidableEq K] (st : State K C) (w : HeadWord) (woken : List K) : Futex.Queued K HeadWord :=
  Function.update st.queued w ((st.queued w).filter fun k => k ∉ woken ∨ st.claimed k)

/-- `Futex::wake` with `i32::MAX`, which are all threads. -/
def futexWakeAll [DecidableEq K] (st : State K C) (w : HeadWord) : State K C :=
  { st with queue := Futex.wake st.queue w, queued := st.unqueue w (st.queued w) }

/-- The kernel consumes a `FutexWake`, of whose count it takes the lower half for a signed word. -/
def futexWake [DecidableEq K] (st : State K C) (w : HeadWord) (val : UInt64) (woken : List K) : Option (State K C) :=
  if Futex.Chosen (st.queued w) woken (Futex.limit val.toUInt32.toInt32) then
    some { st with queue := Futex.wakeOnly st.queue woken, queued := st.unqueue w woken }
  else none

/-- A call stamps itself with the present version of its word. -/
def stamp (s : ClientSide) (st : State K C) (op : Op) : Stamped := ⟨op, st.version (op.word s)⟩

/-- `activate` and `deactivate` -/
def signalling [DecidableEq C] (s : ClientSide) (st : State K C) (c : C) (op : Op) (v : UInt32) : State K C :=
  let st := st.store (.sendIndicator s) v
  st.callerGoto c (.stored (st.stamp s op))

end State

/-- The count in the entries of `ShmIoUring::wake`: `u32::MAX.into()`. -/
def everyone : UInt64 := (0xFFFFFFFF : UInt32).toUInt64

/-- The side `s` publishes. -/
def step [DecidableEq K] [DecidableEq C] (s : ClientSide) (st : State K C) : Act K C → Option (State K C)
  | .loadBlocked k via =>
    match st.waiter k with
    | .idle =>
      let loaded := st.head.load .blocked
      -- a negative word says that the line is going down
      if loaded.toInt32 < 0 then some st else some (st.goto k (.loaded via loaded))
    | _ => none
  | .waitForRemote k =>
    match st.waiter k with
    | .loaded via loaded => some (st.waitVia s k (.remote loaded) via)
    | _ => none
  | .waitForMessage k via head =>
    match st.waiter k with
    | .idle => some (st.waitVia s k (.message head) via)
    | _ => none
  | .start k =>
    match st.waiter k with
    | .queued wait => some (st.futexWait s k .ioUring wait)
    | _ => none
  | .rouse k => some { st with queue := Futex.rouse st.queue k }
  | .resume k =>
    match st.queue k, st.waiter k with
    | none, .waiting .. => some ({ st with queued := Futex.dequeue st.queued k }.goto k .idle)
    | _, _ => none
  | .activate c =>
    match st.caller c with
    | .idle => some (st.signalling s c .activate 1)
    | _ => none
  | .deactivate c =>
    match st.caller c with
    | .idle => some (st.signalling s c .deactivate 0)
    | _ => none
  | .signal c =>
    match st.caller c with
    | .stored call =>
      some ({ st.futexWakeAll (.sendIndicator s) with completed := call :: st.completed }.callerGoto c .idle)
    | _ => none
  | .sync v => some (st.store (.producer s) v)
  | .wake c =>
    match st.caller c with
    | .idle => some (st.callerGoto c (.begun (st.stamp s .wake)))
    | _ => none
  | .push c =>
    match st.caller c with
    | .begun call => some (st.callerGoto c (.queued call))
    | _ => none
  | .wakeProducer c woken =>
    match st.caller c with
    | .queued call => (st.futexWake (.producer s) everyone woken).map (·.callerGoto c (.wokenProducer call))
    | _ => none
  | .wakeBlocked c woken =>
    match st.caller c with
    | .wokenProducer call => (st.futexWake .blocked everyone woken).map (·.callerGoto c (.wokenBlocked call))
    | _ => none
  | .complete c =>
    match st.caller c with
    | .wokenBlocked call => some ({ st with completed := call :: st.completed }.callerGoto c .idle)
    | _ => none
  | .block v => some (st.store .blocked v)

def init (head : RingHead) : State K C where
  head
  queue := Futex.awake
  queued _ := []
  waiter _ := .idle
  caller _ := .idle
  version _ := 0
  completed := []

/-- A call has returned, and its word was not changed since its store, or since its begin for `wake`. -/
def State.Completed (s : ClientSide) (st : State K C) (op : Op) : Prop :=
  ⟨op, st.version (op.word s)⟩ ∈ st.completed

/-- Nobody sleeps whom a call to `activate` or `deactivate` that has returned concerned. -/
structure Signalled (s : ClientSide) (st : State K C) : Prop where
  remote : ∀ k via loaded, st.waiter k = .waiting via (.remote loaded) → st.head.load (.sendIndicator s) = 1 →
    st.Completed s .activate → st.queue k = none
  inactive : ∀ k via head, st.waiter k = .waiting via (.message head) → st.head.load (.sendIndicator s) = 0 →
    st.Completed s .deactivate → st.queue k = none

/-- Nobody sleeps whom a call that has returned concerned. -/
structure Awake (s : ClientSide) (st : State K C) : Prop extends Signalled s st where
  message : ∀ k via head, st.waiter k = .waiting via (.message head) → st.head.load (.producer s) ≠ head →
    st.Completed s .wake → st.queue k = none

/-- Who sleeps on the producer word and expects another value than it has is the only one that is queued there.  A
thread that was woken through another word, or by a time-out, is queued until it runs. -/
def State.Alone (s : ClientSide) (st : State K C) : Prop :=
  ∀ k via head, st.queue k ≠ none → st.waiter k = .waiting via (.message head) → st.head.load (.producer s) ≠ head →
    ∀ k' ∈ st.queued (.producer s), k' = k

/-- The condition on a step: it holds when the kernel comes to the producer word. -/
def Sole (s : ClientSide) : List (Act K C) → State K C → Act K C → Prop
  | _, st, .wakeProducer .. => st.Alone s
  | _, _, _ => True

/-! ### The invariant -/

/-- What the threads in the kernel expect. -/
def expects (s : ClientSide) (waiter : K → WaiterPc) (k : K) : List (HeadWord × UInt32) :=
  (waiter k).wait?.elim [] fun wait => wait.wakes s

/-- All have been woken since the `n`-th change of the word. -/
def State.Announced (s : ClientSide) (st : State K C) (w : HeadWord) (n : Nat) : Prop :=
  Futex.Announced st.head.load st.queue (expects s st.waiter) st.version w n

/-- What holds of a call under way, where only the calls in `P` are known to wake all whom they concern. -/
def CallerPc.Ok (s : ClientSide) (P : Op → Prop) (st : State K C) : CallerPc → Prop
  | .idle => True
  | .stored call => call.op.word s = .sendIndicator s ∧ call.version ≤ st.version (.sendIndicator s)
  | .begun call => call.op = .wake ∧ call.version ≤ st.version (.producer s)
  | .queued call => call.op = .wake ∧ call.version ≤ st.version (.producer s)
  | .wokenProducer call => P call.op → st.Announced s (call.op.word s) call.version
  | .wokenBlocked call => P call.op → st.Announced s (call.op.word s) call.version

/-- A thread that sleeps on some words. -/
structure State.Sleeping (s : ClientSide) (st : State K C) (k : K) (ws : List HeadWord) : Prop where
  waiting : ∃ via wait, st.waiter k = .waiting via wait ∧ ws = (wait.wakes s).map Prod.fst
  queued : ∀ w ∈ ws, k ∈ st.queued w

structure Kept (s : ClientSide) (P : Op → Prop) (st : State K C) : Prop where
  asleep : ∀ k ws, st.queue k = some ws → st.Sleeping s k ws
  caller : ∀ c, (st.caller c).Ok s P st
  completed : ∀ call ∈ st.completed, P call.op → st.Announced s (call.op.word s) call.version

variable {s : ClientSide} {P : Op → Prop} {st st' : State K C} {k : K} {c : C} {w : HeadWord} {v : UInt32}
  {call : Stamped}

private theorem kept_init (s : ClientSide) (P : Op → Prop) (head : RingHead) : Kept s P (init head : State K C) where
  asleep _ _ h := by cases h
  caller _ := trivial
  completed _ h := by cases h

private theorem expects_goto [DecidableEq K] (st : State K C) (k : K) (pc : WaiterPc) :
    expects s (st.goto k pc).waiter =
      Function.update (expects s st.waiter) k (pc.wait?.elim [] fun wait => wait.wakes s) := by
  funext k'
  by_cases he : k' = k
  · subst he
    simp only [expects, State.goto, Function.update_self]
  · simp only [expects, State.goto, Function.update_of_ne he]

private theorem CallerPc.Ok.mono {pc : CallerPc} (h : pc.Ok s P st) (hversion : ∀ w, st.version w ≤ st'.version w)
    (hann : ∀ w n, st.Announced s w n → st'.Announced s w n) : pc.Ok s P st' := by
  cases pc with
  | idle => trivial
  | stored call => exact ⟨h.1, Nat.le_trans h.2 (hversion _)⟩
  | begun call => exact ⟨h.1, Nat.le_trans h.2 (hversion _)⟩
  | queued call => exact ⟨h.1, Nat.le_trans h.2 (hversion _)⟩
  | wokenProducer call => exact fun hP => hann _ _ (h hP)
  | wokenBlocked call => exact fun hP => hann _ _ (h hP)

/-- Who stays queued: nobody leaves but who is woken. -/
private theorem mem_unqueue [DecidableEq K] {woken : List K} (hk : k ∈ st.queued w') (hnot : w' = w → k ∉ woken) :
    k ∈ st.unqueue w woken w' := by
  rw [State.unqueue, Function.update_apply]
  split
  · rename_i he
    subst he
    simp [hk, hnot rfl]
  · exact hk

namespace Kept

/-- A step that is none of a caller. -/
private theorem mono (h : Kept s P st) (hcaller : st'.caller = st.caller) (hcompleted : st'.completed = st.completed)
    (hversion : ∀ w, st.version w ≤ st'.version w) (hann : ∀ w n, st.Announced s w n → st'.Announced s w n)
    (hasleep : ∀ k ws, st'.queue k = some ws → st'.Sleeping s k ws) : Kept s P st' where
  asleep := hasleep
  caller c := by
    rw [hcaller]
    exact (h.caller c).mono hversion hann
  completed call hc hP := by
    rw [hcompleted] at hc
    exact hann _ _ (h.completed call hc hP)

/-- A caller gets further. -/
private theorem callerGoto [DecidableEq C] (h : Kept s P st) {pc : CallerPc} (hpc : pc.Ok s P st) :
    Kept s P (st.callerGoto c pc) where
  asleep k ws hq := ⟨(h.asleep k ws hq).waiting, (h.asleep k ws hq).queued⟩
  caller := (Function.forall_update_iff st.caller fun _ pc' => pc'.Ok s P st).2 ⟨hpc, fun c' _ => h.caller c'⟩
  completed := h.completed

/-- A call returns. -/
private theorem complete (h : Kept s P st) (hc : P call.op → st.Announced s (call.op.word s) call.version) :
    Kept s P { st with completed := call :: st.completed } where
  asleep k ws hq := ⟨(h.asleep k ws hq).waiting, (h.asleep k ws hq).queued⟩
  caller := h.caller
  completed call' hm := by
    rcases List.mem_cons.1 hm with rfl | hm
    · exact hc
    · exact h.completed call' hm

private theorem awake (h : Kept s P st) (hpc : (st.waiter k).wait? = none) : st.queue k = none := by
  cases hq : st.queue k with
  | none => rfl
  | some ws =>
    obtain ⟨via, wait, hw, -⟩ := (h.asleep k ws hq).waiting
    rw [hw] at hpc
    cases hpc

/-- A thread that is awake goes on. -/
private theorem goto [DecidableEq K] (h : Kept s P st) (hk : st.queue k = none) (pc : WaiterPc) :
    Kept s P (st.goto k pc) := by
  refine h.mono rfl rfl (fun _ => Nat.le_refl _) (fun w n ha => ?_) fun k' ws hq => ⟨?_, ?_⟩
  · unfold State.Announced at ha ⊢
    rw [expects_goto]
    exact ha.of_caught fun hc => hc.awake hk _
  · have hne : k' ≠ k := fun he => by
      rw [he] at hq
      change st.queue k = some ws at hq
      rw [hk] at hq
      cases hq
    simp only [State.goto, Function.update_of_ne hne]
    exact (h.asleep k' ws hq).waiting
  · exact (h.asleep k' ws hq).queued

/-- Threads are woken, and only those leave a queue that are awake. -/
private theorem wakes (h : Kept s P st) {q : Futex.Queue K HeadWord} {b : Futex.Queued K HeadWord}
    (hq : ∀ k ws, q k = some ws → st.queue k = some ws)
    (hb : ∀ k ws w, q k = some ws → w ∈ ws → k ∈ st.queued w → k ∈ b w) :
    Kept s P { st with queue := q, queued := b } :=
  h.mono rfl rfl (fun _ => Nat.le_refl _) (fun _ _ ha => ha.of_caught fun hc => hc.mono hq) fun k ws hk =>
    have hs := h.asleep k ws (hq k ws hk)
    ⟨hs.waiting, fun w hw => hb k ws w hk hw (hs.queued w hw)⟩

private theorem store (h : Kept s P st) (w : HeadWord) (v : UInt32) : Kept s P (st.store w v) := by
  have hversion : ∀ w', st.version w' ≤ (st.store w v).version w' := by
    intro w'
    simp only [State.store, Function.update_apply]
    split
    · rename_i he
      subst he
      split <;> omega
    · exact Nat.le_refl _
  refine h.mono rfl rfl hversion (fun w' n ha => ha.store (hversion w') fun hsame => ?_) fun k ws hq =>
    ⟨(h.asleep k ws hq).waiting, (h.asleep k ws hq).queued⟩
  simp only [State.store, RingHead.load_store]
  split
  · rename_i he
    subst he
    by_contra hne
    simp only [State.store, Function.update_self, if_neg fun he => hne (Eq.symm he)] at hsame
    omega
  · rfl

private theorem futexWait [DecidableEq K] (h : Kept s P st) (hk : st.queue k = none) (via : Via) (wait : Wait) :
    Kept s P (st.futexWait s k via wait) := by
  unfold State.futexWait
  split
  · rename_i q hq
    have hwait : Futex.wait (st.goto k (.waiting via wait)).head.load (st.goto k (.waiting via wait)).queue k
        (expects s (st.goto k (.waiting via wait)).waiter k) = some q := by
      rw [expects_goto, Function.update_self]
      exact hq
    have h' := h.goto hk (.waiting via wait)
    refine h'.mono rfl rfl (fun _ => Nat.le_refl _) (fun _ _ ha => ha.of_caught fun hc => hc.wait hwait)
      fun k' ws hq' => ?_
    obtain ⟨-, rfl⟩ := Futex.wait_eq_some.1 hq
    by_cases he : k' = k
    · subst he
      simp only [State.goto, Function.update_self, Option.some.injEq] at hq'
      subst hq'
      exact ⟨⟨via, wait, Function.update_self .., rfl⟩, fun w hw => Futex.mem_enqueue.2 (.inr ⟨hw, rfl⟩)⟩
    · simp only [State.goto, Function.update_of_ne he] at hq'
      have hs := h'.asleep k' ws hq'
      exact ⟨hs.waiting, fun w hw => Futex.mem_enqueue.2 (.inl (hs.queued w hw))⟩
  · exact h.goto hk .idle

private theorem waitVia [DecidableEq K] (h : Kept s P st) (hk : st.queue k = none) (wait : Wait) (via : Via) :
    Kept s P (st.waitVia s k wait via) := by
  cases via with
  | ring => exact h.futexWait hk .ring wait
  | ioUring => exact h.goto hk (.queued wait)

/-- A thread runs that has been woken. -/
private theorem resume [DecidableEq K] (h : Kept s P st) (hk : st.queue k = none) :
    Kept s P ({ st with queued := Futex.dequeue st.queued k }.goto k .idle) := by
  refine Kept.goto (h.wakes (fun _ _ hq => hq) fun k' ws w hq _ hm => Futex.mem_dequeue.2 ⟨hm, fun he => ?_⟩) hk .idle
  rw [he, hk] at hq
  cases hq

private theorem signalling [DecidableEq C] (h : Kept s P st) {op : Op} (hop : op.word s = .sendIndicator s)
    (v : UInt32) : Kept s P (st.signalling s c op v) := by
  refine (h.store (.sendIndicator s) v).callerGoto ⟨hop, ?_⟩
  simp only [State.stamp, hop]
  exact Nat.le_refl _

private theorem futexWakeAll [DecidableEq K] (h : Kept s P st) (w : HeadWord) : Kept s P (st.futexWakeAll w) := by
  refine h.wakes (fun _ _ hk => (Futex.wake_eq_some.1 hk).1) fun k ws w' hk hw hm => mem_unqueue hm fun he => ?_
  rw [he] at hw
  exact absurd hw (Futex.wake_eq_some.1 hk).2

/-- All that sleep on the word of a call are woken. -/
private theorem announced_futexWakeAll [DecidableEq K] (hle : call.version ≤ st.version w) (hop : call.op.word s = w) :
    (st.futexWakeAll w).Announced s (call.op.word s) call.version := by
  subst hop
  exact Futex.announced_wake hle

private theorem futexWake [DecidableEq K] {val : UInt64} {woken : List K} (h : Kept s P st)
    (e : st.futexWake w val woken = some st') : Kept s P st' := by
  simp only [State.futexWake] at e
  split at e <;> cases e
  exact h.wakes (fun _ _ hk => (Futex.wakeOnly_eq_some.1 hk).2) fun k ws w' hk _ hm =>
    mem_unqueue hm fun _ => (Futex.wakeOnly_eq_some.1 hk).1

/-- One thread is woken, and it is the one that the call concerns. -/
private theorem announced_futexWake [DecidableEq K] {woken : List K} {n : Nat} (h : Kept s P st)
    (e : st.futexWake (.producer s) everyone woken = some st') (hle : n ≤ st.version (.producer s))
    (halone : st.Alone s) : st'.Announced s (.producer s) n := by
  simp only [State.futexWake] at e
  split at e <;> cases e
  rename_i hchosen
  refine ⟨hle, fun _ => Futex.caught_wakeOnly (by decide) hchosen (fun k ws hk hw => ?_) fun k ws v hk _ hv hne => ?_⟩
  · exact (h.asleep k ws hk).queued _ hw
  · obtain ⟨via, wait, hpc, -⟩ := (h.asleep k ws hk).waiting
    rw [expects, hpc] at hv
    cases wait with
    | remote loaded => simp [WaiterPc.wait?, Wait.wakes] at hv
    | message head =>
      obtain rfl : v = head := by simpa [WaiterPc.wait?, Wait.wakes] using hv
      exact halone k via v (by simp [hk]) hpc hne

section Step

variable [DecidableEq K] [DecidableEq C]

private theorem step {a : Act K C} (h : Kept s P st) (tr : List (Act K C)) (hsole : P .wake → Sole s tr st a)
    (e : Handshake.step s st a = some st') : Kept s P st' := by
  cases a with
  | loadBlocked k via =>
    simp only [Handshake.step] at e
    split at e
    · rename_i hpc
      split at e <;> cases e
      · exact h
      · exact h.goto (h.awake (by rw [hpc]; rfl)) _
    · cases e
  | waitForRemote k =>
    simp only [Handshake.step] at e
    split at e
    · rename_i hpc
      cases e
      exact h.waitVia (h.awake (by rw [hpc]; rfl)) _ _
    · cases e
  | waitForMessage k via head =>
    simp only [Handshake.step] at e
    split at e
    · rename_i hpc
      cases e
      exact h.waitVia (h.awake (by rw [hpc]; rfl)) _ _
    · cases e
  | start k =>
    simp only [Handshake.step] at e
    split at e
    · rename_i hpc
      cases e
      exact h.futexWait (h.awake (by rw [hpc]; rfl)) _ _
    · cases e
  | rouse k =>
    cases e
    exact h.wakes (fun k' ws hq => (Futex.rouse_eq_some.1 hq).2) fun _ _ _ _ _ hm => hm
  | resume k =>
    simp only [Handshake.step] at e
    split at e
    · rename_i hq hpc
      cases e
      exact h.resume hq
    · cases e
  | activate c =>
    simp only [Handshake.step] at e
    split at e
    · cases e
      exact h.signalling rfl 1
    · cases e
  | deactivate c =>
    simp only [Handshake.step] at e
    split at e
    · cases e
      exact h.signalling rfl 0
    · cases e
  | signal c =>
    simp only [Handshake.step] at e
    split at e
    · rename_i call hpc
      cases e
      have hc := h.caller c
      rw [hpc] at hc
      exact ((h.futexWakeAll _).complete fun _ => announced_futexWakeAll hc.2 hc.1).callerGoto trivial
    · cases e
  | sync v => cases e; exact h.store _ v
  | wake c =>
    simp only [Handshake.step] at e
    split at e
    · cases e
      exact h.callerGoto ⟨rfl, Nat.le_refl _⟩
    · cases e
  | push c =>
    simp only [Handshake.step] at e
    split at e
    · rename_i call hpc
      cases e
      have hc := h.caller c
      rw [hpc] at hc
      exact h.callerGoto hc
    · cases e
  | wakeProducer c woken =>
    simp only [Handshake.step] at e
    split at e
    · rename_i call hpc
      obtain ⟨st₁, e₁, rfl⟩ := Option.map_eq_some_iff.1 e
      obtain ⟨hop, hle⟩ : call.op = .wake ∧ call.version ≤ st.version (.producer s) := by
        have hc := h.caller c
        rwa [hpc] at hc
      refine (h.futexWake e₁).callerGoto fun hP => ?_
      rw [hop] at hP ⊢
      exact h.announced_futexWake e₁ hle (hsole hP)
    · cases e
  | wakeBlocked c woken =>
    simp only [Handshake.step] at e
    split at e
    · rename_i call hpc
      obtain ⟨st₁, e₁, rfl⟩ := Option.map_eq_some_iff.1 e
      have hc := (h.futexWake e₁).caller c
      have hcaller : st₁.caller = st.caller := by
        simp only [State.futexWake] at e₁
        split at e₁ <;> cases e₁
        rfl
      rw [hcaller, hpc] at hc
      exact (h.futexWake e₁).callerGoto hc
    · cases e
  | complete c =>
    simp only [Handshake.step] at e
    split at e
    · rename_i call hpc
      cases e
      have hc := h.caller c
      rw [hpc] at hc
      exact (h.complete hc).callerGoto trivial
    · cases e
  | block v => cases e; exact h.store _ v

end Step

/-- A thread that a returned call concerned does not sleep. -/
private theorem awake_of_completed (h : Kept s P st) {op : Op} (hP : P op) (hc : st.Completed s op) {via : Via}
    {wait : Wait} (hpc : st.waiter k = .waiting via wait) (hv : (op.word s, v) ∈ wait.wakes s)
    (hne : st.head.load (op.word s) ≠ v) : st.queue k = none := by
  cases hq : st.queue k with
  | none => rfl
  | some ws =>
    obtain ⟨via', wait', hpc', rfl⟩ := (h.asleep k ws hq).waiting
    rw [hpc] at hpc'
    cases hpc'
    have hcaught := (h.completed _ hc hP).caught rfl
    refine absurd (hcaught k _ v hq (List.mem_map.2 ⟨_, hv, rfl⟩) ?_) hne
    rw [expects, hpc]
    exact hv

private theorem signalled (h : Kept s P st) (hactivate : P .activate) (hdeactivate : P .deactivate) :
    Signalled s st where
  remote k via loaded hpc hload hc :=
    h.awake_of_completed (v := 0) hactivate hc hpc (by simp [Wait.wakes, Op.word]) (by rw [Op.word, hload]; decide)
  inactive k via head hpc hload hc :=
    h.awake_of_completed (v := 1) hdeactivate hc hpc (by simp [Wait.wakes, Op.word]) (by rw [Op.word, hload]; decide)

end Kept

/-- In every run of any number of waiters and callers, a call to `activate` or `deactivate` that has returned leaves
nobody asleep whom it concerned; and so does every call if the kernel, when it comes to the producer word, never finds
another thread queued there beside one that is to be woken. -/
theorem awake_of_run [DecidableEq K] [DecidableEq C] {head : RingHead} {tr : List (Act K C)}
    (h : Run (step s) (init head) tr st) :
    Signalled s st ∧ (RunWhere (step s) (Sole s) (init head) tr st → Awake s st) := by
  constructor
  · have hk : Kept s (· ≠ .wake) st := h.invariant (I := fun _ st => Kept s (· ≠ .wake) st) (kept_init s _ head)
      fun tr _ _ _ hk e => hk.step tr (fun hne => absurd rfl hne) e
    exact hk.signalled (by decide) (by decide)
  · intro hwhere
    have hk : Kept s (fun _ => True) st := hwhere.invariant (I := fun _ st => Kept s (fun _ => True) st)
      (kept_init s _ head) fun tr _ _ _ hk hsole e => hk.step tr (fun _ => hsole) e
    exact ⟨hk.signalled trivial trivial, fun k via head hpc hload hc =>
      hk.awake_of_completed (v := head) trivial hc hpc (by simp [Wait.wakes, Op.word]) hload⟩

/-- The steps that no condition is put on. -/
private theorem sole_of_free {a : Act K C} (ha : ∀ c woken, a ≠ .wakeProducer c woken) (tr : List (Act K C))
    (st : State K C) : Sole s tr st a := by
  cases a with
  | wakeProducer c woken => exact absurd rfl (ha c woken)
  | _ => trivial

/-- Two threads sleep, one on the indicator and one, through an entry, on the head; the first call wakes the one and
the second the other, although the kernel chooses the first once more for the blocked word. -/
theorem awake_of_run_both :
    ∃ st : State Bool Unit, Awake .left st ∧ st.waiter false = .waiting .ring (.remote 0) ∧
      st.Completed .left .activate ∧ st.waiter true = .waiting .ioUring (.message 0) ∧ st.Completed .left .wake ∧
      st.head.load (.producer .left) = 1 := by
  have h₁ : Run (step .left) (init RingHead.zero : State Bool Unit) [.loadBlocked false .ring, .waitForRemote false,
      .activate (), .signal (), .waitForMessage true .ioUring 0, .start true, .sync 1, .wake (), .push ()] _ :=
    run_iff_exec.2 rfl
  have hw₁ := (RunWhere.nil (G := Sole .left)).append_run _ h₁ fun a ha => sole_of_free fun c woken he => by
    subst he
    simp at ha
  have hw₂ := hw₁.snoc (a := .wakeProducer () [true]) (by
    intro k via head hq hpc _ k' hk'
    cases k with
    | false => exact absurd rfl hq
    | true => exact List.mem_singleton.1 hk') rfl
  have hw₃ := (hw₂.snoc (a := .wakeBlocked () [false]) (sole_of_free (by simp) _ _) rfl).snoc (a := .complete ())
    (sole_of_free (by simp) _ _) rfl
  exact ⟨_, (awake_of_run hw₃.run).2 hw₃, rfl, .tail _ (.head _), rfl, .head _, rfl⟩

/-- The kernel may choose any one thread for a word. -/
private theorem futexWake_singleton [DecidableEq K] (hk : k ∈ st.queued w) :
    st.futexWake w everyone [k] =
      some { st with queue := Futex.wakeOnly st.queue [k], queued := st.unqueue w [k] } := by
  have hlength := List.length_pos_of_mem hk
  have hlimit : Futex.limit everyone.toUInt32.toInt32 = 1 := by decide
  refine if_pos ⟨List.pairwise_singleton _ k, fun k' hm => List.mem_singleton.1 hm ▸ hk, ?_⟩
  rw [List.length_singleton, hlimit]
  omega

/-- Where another thread is queued on both words, the kernel may wake that one by both entries, and a thread that the
call concerned sleeps on. -/
theorem asleep_of_queued [DecidableEq K] [DecidableEq C] {k' : K} (hc : st.caller c = .queued call)
    (hk : st.queue k ≠ none) (hne : k' ≠ k) (hproducer : k' ∈ st.queued (.producer s))
    (hblocked : k' ∈ st.queued .blocked) :
    ∃ st', exec (step s) st [.wakeProducer c [k'], .wakeBlocked c [k'], .complete c] = some st' ∧
      st'.queue k ≠ none ∧ st'.waiter = st.waiter ∧ st'.head = st.head ∧ call ∈ st'.completed := by
  have hnot : k ∉ [k'] := fun hm => hne (List.mem_singleton.1 hm).symm
  have hblocked' : k' ∈ st.unqueue (.producer s) [k'] .blocked := by
    rwa [State.unqueue, Function.update_of_ne (by simp)]
  simp only [exec, step, hc, futexWake_singleton hproducer, Option.map_some, Option.bind_some, State.callerGoto,
    Function.update_self]
  rw [futexWake_singleton (by exact hblocked')]
  simp only [Option.map_some, Option.bind_some, Function.update_self]
  refine ⟨_, rfl, ?_, rfl, rfl, .head _⟩
  obtain ⟨ws, hws⟩ := Option.ne_none_iff_exists'.1 hk
  exact Option.ne_none_iff_exists'.2 ⟨ws, Futex.wakeOnly_eq_some.2 ⟨hnot, Futex.wakeOnly_eq_some.2 ⟨hnot, hws⟩⟩⟩

/-- Two threads sleep on the head; the kernel chooses the same for both words, and the other sleeps on. -/
theorem not_awake :
    ∃ st : State Bool Unit, Run (step .left) (init RingHead.zero) [.activate (), .signal (),
      .waitForMessage false .ring 0, .waitForMessage true .ring 0, .sync 1, .wake (), .push (),
      .wakeProducer () [false], .wakeBlocked () [false], .complete ()] st ∧ ¬ Awake .left st := by
  refine ⟨_, run_iff_exec.2 rfl, fun h => ?_⟩
  exact absurd (h.message true .ring 0 rfl (by decide) (.head _)) (Option.ne_none_iff_exists'.2 ⟨_, rfl⟩)

end Handshake

end ShmRing
