import ShmRing.Data
import ShmRing.Lib.Futex
import ShmRing.Lib.Transition

/-!
# Waiting for messages

A side publishes entries and wakes the other side, of which any number of threads wait for a newer head than the one
they have seen: in `wait_for_message`, which sleeps on three words of the head page, or with the lock of the ring, on
the `blocked` word, from which `Ring::wake` is to requeue them.

A wake-up may be lost both ways.  `Ring::wake` returns early when the lock is not taken, and then wakes nobody in
`wait_for_message`; and a thread that has the lock goes to sleep without another look at the head.  `Timely` is the
condition on the steps of a run under which none is lost (`not_lost_of_run`).
-/

namespace ShmRing

open Machine Transition

namespace Wake

/-- Where the publishing side is. -/
inductive PublisherPc
  | idle
  /-- Entries are pushed and not yet published. -/
  | pushed
  /-- The new head is stored; `Ring::wake` is to follow. -/
  | stored
  /-- In `Ring::wake`, between the requeue and the wake of the producer word. -/
  | requeued
  deriving DecidableEq, Repr

/-- A head that was observed: the word, and the number of entries published by then. -/
structure Seen where
  word : UInt32
  count : Nat
  deriving DecidableEq, Repr

/-- Where a thread of the waiting side is. -/
inductive WaiterPc
  | idle
  | observed (seen : Seen)
  /-- In `wait_for_message`. -/
  | message (seen : Seen)
  /-- `lock_for_message` has succeeded. -/
  | locked (seen : Seen)
  /-- In `RingAssertion::wake`. -/
  | asserting (seen : Seen)
  /-- In the drop of the assertion. -/
  | dropping
  deriving DecidableEq, Repr

variable {K : Type} [DecidableEq K]

structure State (K : Type) where
  head : RingHead
  queue : Futex.Queue K HeadWord
  /-- The entries that were pushed, those of which the head was stored, and those that a returned wake was for. -/
  pushed : Nat
  published : Nat
  announced : Nat
  publisher : PublisherPc
  waiter : K → WaiterPc

inductive Act (K : Type)
  | push (n : Nat)
  | sync
  | requeue
  | wake
  | observe (k : K)
  | waitForMessage (k : K)
  | lockForMessage (k : K) (spurious : Bool)
  | assertionWake (k : K)
  /-- A time-out or a signal ends the sleep of a thread. -/
  | rouse (k : K)
  /-- A thread that was woken goes on. -/
  | resume (k : K)
  | dropAssertion (k : K) (spurious : Bool)
  deriving DecidableEq, Repr

namespace State

/-- A thread of the waiting side gets to `pc`. -/
def goto (st : State K) (k : K) (pc : WaiterPc) : State K := { st with waiter := Function.update st.waiter k pc }

end State

/-- The side `s` publishes. -/
def step (s : ClientSide) (st : State K) : Act K → Option (State K)
  | .push n =>
    if st.publisher = .idle ∧ 0 < n then some { st with pushed := st.pushed + n, publisher := .pushed } else none
  | .sync =>
    if st.publisher = .pushed then
      some { st with
        head := st.head.store (.producer s) (UInt32.ofNat st.pushed)
        published := st.pushed
        publisher := .stored }
    else none
  | .requeue =>
    if st.publisher = .stored then
      match Futex.cmpRequeue st.head.load st.queue .blocked s.not.asBlockSlot (.producer s) with
      | some q => some { st with queue := q, publisher := .requeued }
      -- the early return: the producer word is not woken
      | none => some { st with announced := st.published, publisher := .idle }
    else none
  | .wake =>
    if st.publisher = .requeued then
      some { st with
        queue := Futex.wake st.queue (.producer s)
        announced := st.published
        publisher := .idle }
    else none
  | .observe k =>
    match st.waiter k with
    | .idle => some (st.goto k (.observed ⟨st.head.load (.producer s), st.published⟩))
    | _ => none
  | .waitForMessage k =>
    match st.waiter k with
    | .observed seen =>
      match Futex.wait st.head.load st.queue k [(.blocked, 0), (.sendIndicator s, 1), (.producer s, seen.word)] with
      | some q => some ({ st with queue := q }.goto k (.message seen))
      | none => some (st.goto k .idle)
    | _ => none
  | .lockForMessage k spurious =>
    match st.waiter k with
    | .observed seen =>
      let (prior, w) := compareExchangeWeak (st.head.load .blocked) 0 s.not.asBlockSlot spurious
      match prior with
      | .ok _ => some ({ st with head := st.head.store .blocked w }.goto k (.locked seen))
      | .error _ => some (st.goto k .idle)
    | _ => none
  | .assertionWake k =>
    match st.waiter k with
    | .locked seen =>
      match Futex.wait st.head.load st.queue k [(.blocked, s.not.asBlockSlot)] with
      | some q => some ({ st with queue := q }.goto k (.asserting seen))
      -- whatever the outcome of the sleep, the assertion is dropped
      | none => some (st.goto k .dropping)
    | _ => none
  | .rouse k => some { st with queue := Futex.rouse st.queue k }
  | .resume k =>
    match st.queue k, st.waiter k with
    | none, .message _ => some (st.goto k .idle)
    | none, .asserting _ => some (st.goto k .dropping)
    | _, _ => none
  | .dropAssertion k spurious =>
    match st.waiter k with
    | .dropping =>
      let (_, w) := compareExchangeWeak (st.head.load .blocked) s.not.asBlockSlot 0 spurious
      some ({ st with head := st.head.store .blocked w }.goto k .idle)
    | _ => none

/-- Nobody waits, and the publisher is at the head that is in its word. -/
def init (s : ClientSide) (head : RingHead) : State K where
  head
  queue := Futex.awake
  pushed := (head.load (.producer s)).toNat
  published := (head.load (.producer s)).toNat
  announced := (head.load (.producer s)).toNat
  publisher := .idle
  waiter _ := .idle

/-- The head that a thread goes to sleep on. -/
def WaiterPc.waitsOn : WaiterPc → Option Seen
  | .message seen => some seen
  | .asserting seen => some seen
  | _ => none

/-- A thread sleeps on an older head than one that a wake, which has returned, was for. -/
def Lost (st : State K) : Prop :=
  ∃ k seen, st.queue k ≠ none ∧ (st.waiter k).waitsOn = some seen ∧ seen.count < st.announced

/-- The condition on a step of a run.  An exchange that takes the lock is made only when the head is as the thread has
seen it, or when a wake is still to come and none has returned since.  When `Ring::wake` compares the lock, no thread
has it that has seen an older head and does not yet sleep; and as long as a thread sleeps in `wait_for_message`, on
whatever head, its side has the lock then.  A thread does not enter `wait_for_message` when the head word has come round
to the value it has seen. -/
structure Timely (s : ClientSide) (_ : List (Act K)) (st : State K) (a : Act K) : Prop where
  lock : ∀ k spurious seen, a = .lockForMessage k spurious → st.waiter k = .observed seen →
    st.head.load .blocked = 0 → spurious = false →
    seen.count = st.published ∨ (st.publisher = .stored ∧ st.announced ≤ seen.count)
  requeue_locked : a = .requeue → ∀ k seen, st.waiter k = .locked seen → seen.count = st.published
  requeue_message : a = .requeue → ∀ k seen, st.queue k ≠ none → st.waiter k = .message seen →
    st.head.load .blocked = s.not.asBlockSlot
  wait : ∀ k seen, a = .waitForMessage k → st.waiter k = .observed seen →
    st.published < seen.count + 2 ^ 32 ∨ st.announced ≤ seen.count

/-! ### The invariant -/

/-- The lock is taken, as far as the thread knows. -/
def WaiterPc.holds : WaiterPc → Bool
  | .locked _ | .asserting _ | .dropping => true
  | _ => false

/-- The head that was seen is one that was published. -/
def Seen.Ok (seen : Seen) (st : State K) : Prop :=
  seen.word = UInt32.ofNat seen.count ∧ seen.count ≤ st.published

/-- What holds of a thread that is at `pc` and sleeps on `q`. -/
def WaiterOk (s : ClientSide) (st : State K) (pc : WaiterPc) (q : Option (List HeadWord)) : Prop :=
  match pc with
  | .idle => q = none
  | .observed seen => q = none ∧ seen.Ok st
  | .message seen => ∀ ws, q = some ws → st.announced ≤ seen.count ∧ .producer s ∈ ws
  | .locked seen => q = none ∧ st.announced ≤ seen.count ∧ (st.publisher ≠ .stored → seen.count = st.published)
  | .asserting seen => ∀ ws, q = some ws → st.announced ≤ seen.count ∧ (.blocked ∈ ws ∨ .producer s ∈ ws) ∧
      (st.publisher = .requeued → .producer s ∈ ws ∨ seen.count = st.published)
  | .dropping => q = none

/-- The publisher and its words. -/
structure PublisherOk (s : ClientSide) (st : State K) : Prop where
  word : st.head.load (.producer s) = UInt32.ofNat st.published
  pushed_le : st.published ≤ st.pushed
  announced_le : st.announced ≤ st.published
  idle : st.publisher = .idle ∨ st.publisher = .pushed → st.announced = st.published

structure Kept (s : ClientSide) (st : State K) : Prop where
  publisher : PublisherOk s st
  waiter : ∀ k, WaiterOk s st (st.waiter k) (st.queue k)
  blocked : ∀ k, (st.waiter k).holds → st.head.load .blocked = s.not.asBlockSlot
  holder : ∀ k k', (st.waiter k).holds → (st.waiter k').holds → k = k'

variable {s : ClientSide} {st st' : State K} {k : K}

omit [DecidableEq K] in
private theorem kept_init (s : ClientSide) (head : RingHead) : Kept s (init s head : State K) where
  publisher := ⟨(UInt32.ofNat_toNat).symm, Nat.le_refl _, Nat.le_refl _, fun _ => rfl⟩
  waiter _ := rfl
  blocked _ h := by cases h
  holder _ _ h := by cases h

/-- A thread that does not hold the lock after its step, or did before, moves. -/
private theorem Kept.goto (h : Kept s st) {pc : WaiterPc} (hpc : WaiterOk s st pc (st.queue k))
    (hholds : pc.holds → (st.waiter k).holds) : Kept s (st.goto k pc) := by
  have hw : ∀ k', ((st.goto k pc).waiter k').holds → (st.waiter k').holds :=
    (Function.forall_update_iff st.waiter fun k' pc' => pc'.holds → (st.waiter k').holds).2 ⟨hholds, fun _ _ => id⟩
  refine ⟨⟨h.publisher.word, h.publisher.pushed_le, h.publisher.announced_le, h.publisher.idle⟩, ?_,
    fun k' hk' => h.blocked k' (hw k' hk'), fun k' k'' hk' hk'' => h.holder k' k'' (hw k' hk') (hw k'' hk'')⟩
  exact (Function.forall_update_iff st.waiter fun k' pc' => WaiterOk s st pc' (st.queue k')).2
    ⟨hpc, fun k' _ => h.waiter k'⟩

/-- The sleep of one thread changes nothing for the others. -/
private theorem Kept.sleep (h : Kept s st) {q : Option (List HeadWord)} (hq : WaiterOk s st (st.waiter k) q) :
    Kept s { st with queue := Function.update st.queue k q } := by
  refine ⟨⟨h.publisher.word, h.publisher.pushed_le, h.publisher.announced_le, h.publisher.idle⟩, ?_,
    h.blocked, h.holder⟩
  exact (Function.forall_update_iff st.queue fun k' q' => WaiterOk s st (st.waiter k') q').2
    ⟨hq, fun k' _ => h.waiter k'⟩

private theorem code_ne_zero (s : ClientSide) : s.not.asBlockSlot ≠ 0 := by cases s <;> decide

/-- A thread that finds the lock free takes it: no other has it. -/
private theorem Kept.acquire (h : Kept s st) {seen : Seen} (hfree : st.head.load .blocked = 0) (hq : st.queue k = none)
    (hle : st.announced ≤ seen.count) (hcur : st.publisher ≠ .stored → seen.count = st.published) :
    Kept s ({ st with head := st.head.store .blocked s.not.asBlockSlot }.goto k (.locked seen)) := by
  have hnone : ∀ k', (st.waiter k').holds = false := by
    intro k'
    cases hk' : (st.waiter k').holds with
    | false => rfl
    | true => exact absurd (hfree.symm.trans (h.blocked k' hk')).symm (code_ne_zero s)
  have hk : ∀ k', ((st.goto k (.locked seen)).waiter k').holds → k' = k := by
    intro k' hk'
    refine Decidable.byContradiction fun hne => ?_
    simp only [State.goto, Function.update_of_ne hne, hnone] at hk'
    cases hk'
  refine ⟨⟨?_, h.publisher.pushed_le, h.publisher.announced_le, h.publisher.idle⟩, ?_,
    fun k' _ => by simp only [State.goto, RingHead.load_store_self],
    fun k' k'' hk' hk'' => (hk k' hk').trans (hk k'' hk'').symm⟩
  · simp only [State.goto]
    rw [RingHead.load_store_of_ne _ (by simp)]
    exact h.publisher.word
  · exact (Function.forall_update_iff st.waiter fun k' pc' => WaiterOk s st pc' (st.queue k')).2
      ⟨⟨hq, hle, hcur⟩, fun k' _ => h.waiter k'⟩

/-- The thread that has the lock gives it up, or fails to. -/
private theorem Kept.release (h : Kept s st) {v : UInt32} (hpc : st.waiter k = .dropping) :
    Kept s ({ st with head := st.head.store .blocked v }.goto k .idle) := by
  have hk : ∀ k', (st.waiter k').holds → k' = k := fun k' hk' => h.holder k' k hk' (by rw [hpc]; rfl)
  have hnone : ∀ k', ((st.goto k .idle).waiter k').holds → False :=
    (Function.forall_update_iff st.waiter fun _ pc' => pc'.holds → False).2
      ⟨fun hh => (by cases hh), fun k' he hk' => he (hk k' hk')⟩
  have hq := h.waiter k
  rw [hpc] at hq
  refine ⟨⟨?_, h.publisher.pushed_le, h.publisher.announced_le, h.publisher.idle⟩, ?_,
    fun k' hk' => (hnone k' hk').elim, fun k' _ hk' => (hnone k' hk').elim⟩
  · simp only [State.goto]
    rw [RingHead.load_store_of_ne _ (by simp)]
    exact h.publisher.word
  · exact (Function.forall_update_iff st.waiter fun k' pc' => WaiterOk s st pc' (st.queue k')).2
      ⟨hq, fun k' _ => h.waiter k'⟩

private theorem Kept.observe (h : Kept s st) (e : step s st (.observe k) = some st') : Kept s st' := by
  simp only [step] at e
  split at e
  case h_2 => cases e
  rename_i hpc
  cases e
  have hq := h.waiter k
  rw [hpc] at hq
  exact h.goto ⟨hq, h.publisher.word, Nat.le_refl _⟩ fun hh => (by cases hh)

/-- A thread goes to sleep in `wait_for_message`, unless one of the three words has another value. -/
private theorem Kept.waitForMessage (h : Kept s st)
    (ht : ∀ seen, st.waiter k = .observed seen → st.published < seen.count + 2 ^ 32 ∨ st.announced ≤ seen.count)
    (e : step s st (.waitForMessage k) = some st') : Kept s st' := by
  simp only [step] at e
  split at e
  case h_2 => cases e
  rename_i seen hpc
  have hok := h.waiter k
  rw [hpc] at hok
  obtain ⟨hq, hword, hle⟩ := hok
  split at e
  · rename_i q hwait
    obtain ⟨hall, rfl⟩ := Futex.wait_eq_some.1 hwait
    cases e
    have hcur : st.announced ≤ seen.count := by
      rcases ht seen hpc with hlt | hle'
      · -- the word is the one that was seen, so the head is
        have hload := hall (.producer s, seen.word) (by simp)
        simp only [h.publisher.word, hword, ← UInt32.toNat_inj, UInt32.toNat_ofNat'] at hload
        have hann := h.publisher.announced_le
        omega
      · exact hle'
    refine Kept.sleep (h.goto ?_ fun hh => (by cases hh) : Kept s (st.goto k (.message seen))) ?_
    · intro ws hws
      rw [hq] at hws
      cases hws
    · simp only [State.goto, Function.update_self]
      intro ws hws
      cases hws
      exact ⟨hcur, by simp⟩
  · cases e
    exact h.goto hq fun hh => (by cases hh)

private theorem Kept.lockForMessage {spurious : Bool} (h : Kept s st)
    (ht : ∀ seen, st.waiter k = .observed seen → st.head.load .blocked = 0 → spurious = false →
      seen.count = st.published ∨ (st.publisher = .stored ∧ st.announced ≤ seen.count))
    (e : step s st (.lockForMessage k spurious) = some st') : Kept s st' := by
  simp only [step] at e
  split at e
  case h_2 => cases e
  rename_i seen hpc
  have hok := h.waiter k
  rw [hpc] at hok
  obtain ⟨hq, hword, hle⟩ := hok
  by_cases hfree : st.head.load .blocked = 0 ∧ spurious = false
  · simp only [compareExchangeWeak, if_pos hfree] at e
    cases e
    have hann := h.publisher.announced_le
    rcases ht seen hpc hfree.1 hfree.2 with hcur | ⟨hst, hle'⟩
    · exact h.acquire hfree.1 hq (by omega) fun _ => hcur
    · exact h.acquire hfree.1 hq hle' fun hne => absurd hst hne
  · simp only [compareExchangeWeak, if_neg hfree] at e
    cases e
    exact h.goto hq fun hh => (by cases hh)

/-- A thread that has the lock goes to sleep, whatever the head is by now. -/
private theorem Kept.assertionWake (h : Kept s st) (e : step s st (.assertionWake k) = some st') : Kept s st' := by
  simp only [step] at e
  split at e
  case h_2 => cases e
  rename_i seen hpc
  have hok := h.waiter k
  rw [hpc] at hok
  obtain ⟨hq, hle, hcur⟩ := hok
  have hholds : (st.waiter k).holds := by rw [hpc]; rfl
  split at e
  · rename_i q hwait
    obtain ⟨-, rfl⟩ := Futex.wait_eq_some.1 hwait
    cases e
    refine Kept.sleep (h.goto ?_ fun _ => hholds : Kept s (st.goto k (.asserting seen))) ?_
    · intro ws hws
      rw [hq] at hws
      cases hws
    · simp only [State.goto, Function.update_self]
      intro ws hws
      cases hws
      exact ⟨hle, .inl (by simp), fun hre => .inr (hcur (by rw [hre]; decide))⟩
  · cases e
    exact h.goto hq fun _ => hholds

private theorem Kept.rouse (h : Kept s st) (e : step s st (.rouse k) = some st') : Kept s st' := by
  cases e
  refine h.sleep ?_
  have hok := h.waiter k
  revert hok
  cases st.waiter k with
  | idle => exact fun _ => rfl
  | observed seen => exact fun hok => ⟨rfl, hok.2⟩
  | message seen => exact fun _ ws hws => (by cases hws)
  | locked seen => exact fun hok => ⟨rfl, hok.2⟩
  | asserting seen => exact fun _ ws hws => (by cases hws)
  | dropping => exact fun _ => rfl

private theorem Kept.resume (h : Kept s st) (e : step s st (.resume k) = some st') : Kept s st' := by
  simp only [step] at e
  split at e
  · rename_i hq hpc
    cases e
    exact h.goto hq fun hh => (by cases hh)
  · rename_i hq hpc
    cases e
    exact h.goto hq fun _ => by rw [hpc]; rfl
  · cases e

private theorem Kept.dropAssertion {spurious : Bool} (h : Kept s st)
    (e : step s st (.dropAssertion k spurious) = some st') : Kept s st' := by
  simp only [step] at e
  split at e
  case h_2 => cases e
  rename_i hpc
  cases e
  exact h.release hpc

/-- The publisher stores a new head. -/
private theorem Kept.sync (h : Kept s st) (e : step s st (.sync : Act K) = some st') : Kept s st' := by
  simp only [step] at e
  split at e
  case isFalse => cases e
  rename_i hpub
  cases e
  obtain ⟨hp, hw, hb, hh⟩ := h
  have hann := hp.announced_le
  have hle := hp.pushed_le
  refine ⟨⟨by simp only [RingHead.load_store_self], Nat.le_refl _, by simp only; omega, fun hi => ?_⟩, fun k => ?_,
    fun k hk => ?_, hh⟩
  · rcases hi with hi | hi <;> cases hi
  · have hok := hw k
    revert hok
    simp only [WaiterOk]
    cases st.waiter k with
    | observed seen => exact fun ⟨hq, hword, hle'⟩ => ⟨hq, hword, by simp only; omega⟩
    | locked seen => exact fun ⟨hq, hle', _⟩ => ⟨hq, hle', fun hne => absurd rfl hne⟩
    | asserting seen =>
      exact fun hok ws hws => ⟨(hok ws hws).1, (hok ws hws).2.1, fun hre => (by cases hre)⟩
    | _ => exact id
  · simp only
    rw [RingHead.load_store_of_ne _ (by simp)]
    exact hb k hk

omit [DecidableEq K] in
/-- `Ring::wake` finds that the lock is taken, and moves those that sleep with it to the producer word. -/
private theorem Kept.requeue_taken {q : Futex.Queue K HeadWord} (h : Kept s st)
    (hlocked : ∀ k seen, st.waiter k = .locked seen → seen.count = st.published)
    (hq : Futex.cmpRequeue st.head.load st.queue .blocked s.not.asBlockSlot (.producer s) = some q) :
    Kept s { st with queue := q, publisher := .requeued } := by
  obtain ⟨hp, hw, hb, hh⟩ := h
  refine ⟨⟨hp.word, hp.pushed_le, hp.announced_le, fun hi => ?_⟩, fun k => ?_, hb, hh⟩
  · rcases hi with hi | hi <;> cases hi
  have hok := hw k
  have hcur := hlocked k
  revert hok hcur
  simp only [WaiterOk]
  cases st.waiter k with
  | idle => exact fun hok _ => (Futex.requeued_eq_none hq).2 hok
  | observed seen => exact fun hok _ => ⟨(Futex.requeued_eq_none hq).2 hok.1, hok.2⟩
  | message seen =>
    intro hok _ ws hws
    obtain ⟨ws₀, h₀, hmem⟩ := Futex.requeued_mem hq hws
    exact ⟨(hok ws₀ h₀).1, hmem (.inr (hok ws₀ h₀).2)⟩
  | locked seen => exact fun hok hcur => ⟨(Futex.requeued_eq_none hq).2 hok.1, hok.2.1, fun _ => hcur seen rfl⟩
  | asserting seen =>
    intro hok _ ws hws
    obtain ⟨ws₀, h₀, hmem⟩ := Futex.requeued_mem hq hws
    have hprod := hmem (hok ws₀ h₀).2.1
    exact ⟨(hok ws₀ h₀).1, .inr hprod, fun _ => .inl hprod⟩
  | dropping => exact fun hok _ => (Futex.requeued_eq_none hq).2 hok

omit [DecidableEq K] in
/-- `Ring::wake` finds that the lock is not taken, and returns; nobody sleeps in `wait_for_message`. -/
private theorem Kept.requeue_free (h : Kept s st) (hfree : st.head.load .blocked ≠ s.not.asBlockSlot)
    (hmessage : ∀ k seen, st.queue k ≠ none → st.waiter k ≠ .message seen) :
    Kept s { st with announced := st.published, publisher := .idle } := by
  obtain ⟨hp, hw, hb, hh⟩ := h
  -- nobody sleeps or is about to sleep with the lock
  have hnone : ∀ k, (st.waiter k).holds → False := fun k hk => hfree (hb k hk)
  refine ⟨⟨hp.word, hp.pushed_le, Nat.le_refl _, fun _ => rfl⟩, fun k => ?_, hb, hh⟩
  have hok := hw k
  have hk := hnone k
  have hawake := hmessage k
  revert hok hk hawake
  simp only [WaiterOk]
  cases st.waiter k with
  | idle => exact fun hok _ _ => hok
  | observed seen => exact fun hok _ _ => hok
  | message seen => exact fun _ _ hawake ws hws => absurd rfl (hawake seen (by rw [hws]; simp))
  | locked seen => exact fun _ hk _ => (hk rfl).elim
  | asserting seen => exact fun _ hk _ => (hk rfl).elim
  | dropping => exact fun _ hk _ => (hk rfl).elim

private theorem Kept.requeue {tr : List (Act K)} (h : Kept s st) (ht : Timely s tr st .requeue)
    (e : step s st .requeue = some st') : Kept s st' := by
  simp only [step] at e
  split at e
  case isFalse => cases e
  split at e
  · rename_i q hq
    cases e
    exact h.requeue_taken (ht.requeue_locked rfl) hq
  · rename_i hq
    cases e
    have hfree := Futex.cmpRequeue_eq_none.1 hq
    exact h.requeue_free hfree fun k seen hk hpc => hfree (ht.requeue_message rfl k seen hk hpc)

/-- `Ring::wake` wakes those that sleep on the producer word, and returns. -/
private theorem Kept.wake (h : Kept s st) (e : step s st (.wake : Act K) = some st') : Kept s st' := by
  simp only [step] at e
  split at e
  case isFalse => cases e
  rename_i hpub
  cases e
  obtain ⟨hp, hw, hb, hh⟩ := h
  refine ⟨⟨hp.word, hp.pushed_le, Nat.le_refl _, fun _ => rfl⟩, fun k => ?_, hb, hh⟩
  have hok := hw k
  revert hok
  simp only [WaiterOk]
  cases st.waiter k with
  | idle => exact Futex.wake_eq_none_of
  | observed seen => exact fun hok => ⟨Futex.wake_eq_none_of hok.1, hok.2⟩
  | message seen =>
    intro hok ws hws
    obtain ⟨h₀, hnot⟩ := Futex.wake_eq_some.1 hws
    exact absurd (hok ws h₀).2 hnot
  | locked seen =>
    intro hok
    have hcur := hok.2.2 (by rw [hpub]; decide)
    exact ⟨Futex.wake_eq_none_of hok.1, Nat.le_of_eq hcur.symm, fun _ => hcur⟩
  | asserting seen =>
    intro hok ws hws
    obtain ⟨h₀, hnot⟩ := Futex.wake_eq_some.1 hws
    have hcur := ((hok ws h₀).2.2 hpub).resolve_left hnot
    exact ⟨Nat.le_of_eq hcur.symm, (hok ws h₀).2.1, fun hre => (by cases hre)⟩
  | dropping => exact Futex.wake_eq_none_of

private theorem Kept.push {n : Nat} (h : Kept s st) (e : step s st (.push n : Act K) = some st') : Kept s st' := by
  simp only [step] at e
  split at e
  case isFalse => cases e
  rename_i hpub
  cases e
  obtain ⟨hp, hw, hb, hh⟩ := h
  refine ⟨⟨hp.word, Nat.le_trans hp.pushed_le (Nat.le_add_right _ _), hp.announced_le, fun _ => hp.idle (.inl hpub.1)⟩,
    fun k => ?_, hb, hh⟩
  have hok := hw k
  revert hok
  simp only [WaiterOk]
  cases st.waiter k with
  | locked seen => exact fun hok => ⟨hok.1, hok.2.1, fun _ => hok.2.2 (by rw [hpub.1]; decide)⟩
  | asserting seen => exact fun hok ws hws => ⟨(hok ws hws).1, (hok ws hws).2.1, fun hre => (by cases hre)⟩
  | _ => exact id

theorem Kept.step {tr : List (Act K)} {a : Act K} (h : Kept s st) (ht : Timely s tr st a)
    (e : step s st a = some st') : Kept s st' := by
  cases a with
  | push n => exact h.push e
  | sync => exact h.sync e
  | requeue => exact h.requeue ht e
  | wake => exact h.wake e
  | observe k => exact h.observe e
  | waitForMessage k => exact h.waitForMessage (fun seen hpc => ht.wait k seen rfl hpc) e
  | lockForMessage k spurious => exact h.lockForMessage (fun seen hpc => ht.lock k spurious seen rfl hpc) e
  | assertionWake k => exact h.assertionWake e
  | rouse k => exact h.rouse e
  | resume k => exact h.resume e
  | dropAssertion k spurious => exact h.dropAssertion e

omit [DecidableEq K] in
private theorem Kept.not_lost (h : Kept s st) : ¬ Lost st := by
  rintro ⟨k, seen, hq, hpc, hlt⟩
  obtain ⟨ws, hws⟩ := Option.ne_none_iff_exists'.1 hq
  have hok := h.waiter k
  revert hok hpc
  rw [hws]
  cases st.waiter k with
  | message seen' =>
    intro hpc hok
    cases hpc
    have := (hok ws rfl).1
    omega
  | asserting seen' =>
    intro hpc hok
    cases hpc
    have := (hok ws rfl).1
    omega
  | _ => intro hpc; cases hpc

/-- In a run whose steps are timely, no wake-up is lost. -/
theorem not_lost_of_run {head : RingHead} {tr : List (Act K)}
    (h : RunWhere (Wake.step s) (Timely s) (init s head) tr st) : ¬ Lost st :=
  Kept.not_lost (h.invariant (I := fun _ st => Kept s st) (kept_init s head) fun _ _ _ _ hk ht e => hk.step ht e)

/-- The left side is active and has published nothing yet. -/
def activeHead : RingHead := RingHead.zero.store (.sendIndicator .left) 1

omit [DecidableEq K] in
/-- The steps that no condition is put on. -/
private theorem timely_of_free {tr : List (Act K)} {a : Act K}
    (ha : a ≠ .requeue ∧ (∀ k b, a ≠ .lockForMessage k b) ∧ ∀ k, a ≠ .waitForMessage k) : Timely s tr st a :=
  ⟨fun k b _ h => absurd h (ha.2.1 k b), fun h => absurd h ha.1, fun h => absurd h ha.1,
    fun k _ h => absurd h (ha.2.2 k)⟩

/-- One thread sleeps in `wait_for_message` when another takes the lock and sleeps with it, and both are woken. -/
theorem not_lost_of_run_locked :
    ∃ st : State Bool, ¬ Lost st ∧ st.announced = 1 ∧ st.queue false = none ∧ st.waiter false = .message ⟨0, 0⟩ ∧
      st.queue true = none ∧ st.waiter true = .asserting ⟨0, 0⟩ := by
  have h₀ : RunWhere (Wake.step .left) (Timely .left) (init .left activeHead : State Bool) [] _ := .nil
  have h₁ := h₀.snoc (a := .observe false) (timely_of_free ⟨by simp, by simp, by simp⟩) rfl
  have h₂ := h₁.snoc (a := .waitForMessage false)
    ⟨fun _ _ _ h => (by cases h), fun h => (by cases h), fun h => (by cases h), fun _ _ h hpc => by
      cases h
      cases hpc
      exact .inr (Nat.le_refl _)⟩ rfl
  have h₃ := h₂.snoc (a := .observe true) (timely_of_free ⟨by simp, by simp, by simp⟩) rfl
  have h₄ := h₃.snoc (a := .lockForMessage true false)
    ⟨fun _ _ _ h hpc _ _ => by
      cases h
      cases hpc
      exact .inl rfl, fun h => (by cases h), fun h => (by cases h), fun _ _ h => (by cases h)⟩ rfl
  have h₅ := h₄.snoc (a := .assertionWake true) (timely_of_free ⟨by simp, by simp, by simp⟩) rfl
  have h₆ := h₅.snoc (a := .push 1) (timely_of_free ⟨by simp, by simp, by simp⟩) rfl
  have h₇ := h₆.snoc (a := .sync) (timely_of_free ⟨by simp, by simp, by simp⟩) rfl
  have h₈ := h₇.snoc (a := .requeue)
    ⟨fun _ _ _ h => (by cases h), fun _ k _ h => (by cases k <;> cases h), fun _ _ _ _ _ => rfl,
      fun _ _ h => (by cases h)⟩ rfl
  have h₉ := h₈.snoc (a := .wake) (timely_of_free ⟨by simp, by simp, by simp⟩) rfl
  exact ⟨_, not_lost_of_run h₉, rfl, rfl, rfl, rfl, rfl⟩

/-- A thread that sleeps in `wait_for_message` when an entry is published is not woken, since the lock is not taken; and
a thread that takes the lock before, and goes to sleep after, is not woken either. -/
theorem lost_of_run :
    (∃ st : State Unit, Run (Wake.step .left) (init .left activeHead)
      [.observe (), .waitForMessage (), .push 1, .sync, .requeue] st ∧ Lost st) ∧
    ∃ st : State Unit, Run (Wake.step .left) (init .left activeHead)
      [.observe (), .lockForMessage () false, .push 1, .sync, .requeue, .wake, .assertionWake ()] st ∧ Lost st :=
  ⟨⟨_, run_iff_exec.2 rfl, (), ⟨0, 0⟩, Option.ne_none_iff_exists'.2 ⟨_, rfl⟩, rfl, Nat.zero_lt_one⟩,
    ⟨_, run_iff_exec.2 rfl, (), ⟨0, 0⟩, Option.ne_none_iff_exists'.2 ⟨_, rfl⟩, rfl, Nat.zero_lt_one⟩⟩

end Wake

end ShmRing
