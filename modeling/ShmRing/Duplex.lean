import ShmRing.Ring
import ShmRing.Lib.Transition
import ShmRing.Lib.Channel

/-!
# A ring joined on both sides

The transition system of two sides that push and consume through handles on one shared memory.  A handle borrows the
`Ring` of its side mutably, so a side has at most one handle open at a time.  The steps are the accesses to shared
memory and the draws from the iterator of a `push_many`, each on its own; between any two of them the other side may
move.  `Producer::new` and `Consumer::new` load two words, of which one is written by this side only, so each is one
step at the moment of its other load.

An event carries what can be observed: the entry and the slot of a write, the count that `push_many` returns, the
entry that an iterator yields.  `chanAct` reads the events as acts on an abstract channel, one for each direction.
-/

namespace ShmRing

open Machine Transition

namespace Duplex

/-- Where a side is in the code of its producer. -/
inductive ProducerPc (E : Type)
  | idle
  /-- At the head of the loop of `push_many`. -/
  | pushing (n : Nat)
  /-- An entry is drawn and not yet written. -/
  | holding (n : Nat) (data : E)
  /-- Between the load and the store of `sync`. -/
  | syncing
  deriving DecidableEq, Repr

/-- Where a side is in the code of its consumer. -/
inductive ConsumerPc
  | idle
  | iterating (it : Consumer.Iter)
  | syncing
  deriving DecidableEq, Repr

inductive Handle (E : Type)
  | closed
  | producer (p : Producer) (pc : ProducerPc E)
  | consumer (c : Consumer) (pc : ConsumerPc)
  deriving DecidableEq, Repr

inductive ProduceAct (E : Type)
  | new
  | pushMany
  | draw (data : E)
  | write (slot : Nat) (data : E)
  | pushed (count : Nat)
  /-- The iterator of a `push_many` panics. -/
  | unwind
  | syncLoad
  | syncStore
  | drop
  deriving DecidableEq, Repr

inductive ConsumeAct (E : Type)
  | new
  | iter
  | next (data : E)
  | dropIter
  | syncLoad
  | syncStore
  | drop
  deriving DecidableEq, Repr

inductive Event (E : Type)
  | produce (side : ClientSide) (a : ProduceAct E)
  | consume (side : ClientSide) (a : ConsumeAct E)
  deriving DecidableEq, Repr

structure State (M E : Type) where
  mem : M
  handle : ClientSide → Handle E

/-- What both sides have in common: the record of the ring, the size of the entries of their handles, and the
references, of which `cell_as_arrays` cuts as many slots from the ring as fit. -/
structure Ctx (M E : Type) where
  build : Build
  info : RingInfo
  entry : Nat
  port : LawfulPort M E
  len_eq : port.len = info.sizeRing.toNat / entry

variable {M E : Type}

/-! ### The two channels -/

/-- What the sender's events do to the channel of a direction. -/
def produceAct : ProduceAct E → Option (Chan.Act E)
  | .write _ data => some (.write data)
  | .pushed _ => some .commit
  | .unwind => some .abandon
  | .syncStore => some .publish
  | .drop => some .rollback
  | _ => none

/-- What the receiver's events do to the channel of a direction. -/
def consumeAct : ConsumeAct E → Option (Chan.Act E)
  | .next data => some (.take data)
  | .syncStore => some .release
  | .drop => some .rewind
  | _ => none

/-- What an event does to the channel of the direction that `d` sends in. -/
def chanAct (d : ClientSide) : Event E → Option (Chan.Act E)
  | .produce s a => if s = d then produceAct a else none
  | .consume s a => if s = d.not then consumeAct a else none

@[simp] theorem chanAct_produce (d : ClientSide) (a : ProduceAct E) :
    chanAct d (.produce d a) = produceAct a := if_pos rfl

@[simp] theorem chanAct_produce_not (d : ClientSide) (a : ProduceAct E) :
    chanAct d (.produce d.not a) = none := if_neg (by simp)

@[simp] theorem chanAct_consume (d : ClientSide) (a : ConsumeAct E) :
    chanAct d (.consume d a) = none := if_neg (by simp)

@[simp] theorem chanAct_consume_not (d : ClientSide) (a : ConsumeAct E) :
    chanAct d (.consume d.not a) = consumeAct a := if_pos rfl

/-- The channel of a direction after the events of a run. -/
def chan (d : ClientSide) (tr : List (Event E)) : Chan E := (tr.filterMap (chanAct d)).foldl Chan.apply Chan.empty

@[simp] theorem chan_nil (d : ClientSide) : chan d ([] : List (Event E)) = Chan.empty := rfl

theorem chan_snoc (d : ClientSide) (tr : List (Event E)) (e : Event E) :
    chan d (tr ++ [e]) = (chan d tr).applyOpt (chanAct d e) := by
  cases h : chanAct d e <;> simp [chan, h, Chan.applyOpt]

/-- The entries that `d` has pushed with calls of `push_many` that returned, published or not. -/
def pushed (d : ClientSide) (tr : List (Event E)) : List E := (chan d tr).published ++ (chan d tr).unsynced

/-- The entries that the consumers of a side have yielded. -/
def yielded (s : ClientSide) (tr : List (Event E)) : List E :=
  tr.filterMap fun
    | .consume t (.next data) => if t = s then some data else none
    | _ => none

/-! ### Steps -/

section Steps

variable [DecidableEq E]

def produceStep (x : Ctx M E) (s : ClientSide) (h : Handle E) (m : M) :
    ProduceAct E → Option (Handle E × M)
  | .new =>
    match h, Producer.new x.build x.info x.entry x.port.toPort s m with
    | .closed, .ok (some p) => some (.producer p .idle, m)
    | _, _ => none
  | .pushMany =>
    match h with
    | .producer p .idle => some (.producer p (.pushing p.cachedHead), m)
    | _ => none
  | .draw data =>
    match h with
    | .producer p (.pushing n) => if n < p.cachedTail then some (.producer p (.holding n data), m) else none
    | _ => none
  | .write slot data =>
    match h with
    | .producer p (.holding n d) =>
      if slot = n &&& p.offsetMask ∧ data = d ∧ slot < x.port.len then
        some (.producer p (.pushing (n + 1)), x.port.set slot data m)
      else none
    | _ => none
  | .pushed count =>
    match h with
    | .producer p (.pushing n) =>
      if count = n - p.cachedHead then some (.producer { p with cachedHead := n } .idle, m) else none
    | _ => none
  | .unwind =>
    match h with
    -- the entries are written, but the cached head is not moved
    | .producer p (.pushing n) => if n < p.cachedTail then some (.producer p .idle, m) else none
    | _ => none
  | .syncLoad =>
    match h with
    | .producer p .idle => some (.producer (p.syncLoad x.port.toPort m) .syncing, m)
    | _ => none
  | .syncStore =>
    match h with
    | .producer p .syncing => some (.producer p .idle, p.syncStore x.port.toPort m)
    | _ => none
  | .drop =>
    match h with
    | .producer _ .idle => some (.closed, m)
    | _ => none

def consumeStep (x : Ctx M E) (s : ClientSide) (h : Handle E) (m : M) :
    ConsumeAct E → Option (Handle E × M)
  | .new =>
    match h, Consumer.new x.build x.info x.entry x.port.toPort s m with
    | .closed, .ok (some c) => some (.consumer c .idle, m)
    | _, _ => none
  | .iter =>
    match h with
    | .consumer c .idle => some (.consumer c (.iterating c.iter), m)
    | _ => none
  | .next data =>
    match h with
    | .consumer c (.iterating it) =>
      match c.iterNext x.port.toPort it m with
      | some (.ok d, c', it') => if data = d then some (.consumer c' (.iterating it'), m) else none
      | _ => none
    | _ => none
  | .dropIter =>
    match h with
    | .consumer c (.iterating _) => some (.consumer c .idle, m)
    | _ => none
  | .syncLoad =>
    match h with
    | .consumer c .idle => some (.consumer (c.syncLoad x.port.toPort m) .syncing, m)
    | _ => none
  | .syncStore =>
    match h with
    | .consumer c .syncing => some (.consumer c .idle, c.syncStore x.port.toPort m)
    | _ => none
  | .drop =>
    match h with
    | .consumer _ .idle => some (.closed, m)
    | _ => none

/-- A side takes a step with its handle. -/
def State.put (st : State M E) (s : ClientSide) (r : Handle E × M) : State M E :=
  { mem := r.2, handle := fun t => if t = s then r.1 else st.handle t }

def step (x : Ctx M E) (st : State M E) : Event E → Option (State M E)
  | .produce s a => (produceStep x s (st.handle s) st.mem a).map (st.put s)
  | .consume s a => (consumeStep x s (st.handle s) st.mem a).map (st.put s)

/-- Both sides have joined and have no handle open. -/
def init (m : M) : State M E := { mem := m, handle := fun _ => .closed }

/-- The counters of a ring that was just reset. -/
def Reset (x : Ctx M E) (m : M) : Prop := ∀ s, x.port.load (.producer s) m = 0 ∧ x.port.load (.consumer s) m = 0

/-! ### What a step can do -/

/-- The steps of a side with its producer, or with none to open one. -/
inductive ProduceStep (x : Ctx M E) (s : ClientSide) : Handle E → M → ProduceAct E → Handle E → M → Prop
  | new {m p} (h : Producer.new x.build x.info x.entry x.port.toPort s m = .ok (some p)) :
      ProduceStep x s .closed m .new (.producer p .idle) m
  | pushMany {m p} : ProduceStep x s (.producer p .idle) m .pushMany (.producer p (.pushing p.cachedHead)) m
  | draw {m p n d} (h : n < p.cachedTail) :
      ProduceStep x s (.producer p (.pushing n)) m (.draw d) (.producer p (.holding n d)) m
  | write {m p n data} (h : n &&& p.offsetMask < x.port.len) :
      ProduceStep x s (.producer p (.holding n data)) m (.write (n &&& p.offsetMask) data)
        (.producer p (.pushing (n + 1))) (x.port.set (n &&& p.offsetMask) data m)
  | pushed {m p n} :
      ProduceStep x s (.producer p (.pushing n)) m (.pushed (n - p.cachedHead))
        (.producer { p with cachedHead := n } .idle) m
  | unwind {m p n} (h : n < p.cachedTail) :
      ProduceStep x s (.producer p (.pushing n)) m .unwind (.producer p .idle) m
  | syncLoad {m p} :
      ProduceStep x s (.producer p .idle) m .syncLoad (.producer (p.syncLoad x.port.toPort m) .syncing) m
  | syncStore {m p} :
      ProduceStep x s (.producer p .syncing) m .syncStore (.producer p .idle) (p.syncStore x.port.toPort m)
  | drop {m p} : ProduceStep x s (.producer p .idle) m .drop .closed m

/-- The steps of a side with its consumer, or with none to open one. -/
inductive ConsumeStep (x : Ctx M E) (s : ClientSide) : Handle E → M → ConsumeAct E → Handle E → M → Prop
  | new {m c} (h : Consumer.new x.build x.info x.entry x.port.toPort s m = .ok (some c)) :
      ConsumeStep x s .closed m .new (.consumer c .idle) m
  | iter {m c} : ConsumeStep x s (.consumer c .idle) m .iter (.consumer c (.iterating c.iter)) m
  | next {m c} {it : Consumer.Iter} (h : it.idx < it.stop) (hlen : it.idx &&& c.offsetMask < x.port.len) :
      ConsumeStep x s (.consumer c (.iterating it)) m (.next (x.port.get (it.idx &&& c.offsetMask) m))
        (.consumer { c with cachedTail := c.cachedTail + 1 } (.iterating { it with idx := it.idx + 1 })) m
  | dropIter {m c it} : ConsumeStep x s (.consumer c (.iterating it)) m .dropIter (.consumer c .idle) m
  | syncLoad {m c} :
      ConsumeStep x s (.consumer c .idle) m .syncLoad (.consumer (c.syncLoad x.port.toPort m) .syncing) m
  | syncStore {m c} :
      ConsumeStep x s (.consumer c .syncing) m .syncStore (.consumer c .idle) (c.syncStore x.port.toPort m)
  | drop {m c} : ConsumeStep x s (.consumer c .idle) m .drop .closed m

theorem ProduceStep.of_eq {x : Ctx M E} {s : ClientSide} {h h' : Handle E} {m m' : M} {a : ProduceAct E}
    (e : produceStep x s h m a = some (h', m')) : ProduceStep x s h m a h' m' := by
  cases a with
  | new =>
    simp only [produceStep] at e
    split at e
    · rename_i p hp; cases e; exact .new hp
    · cases e
  | write slot data =>
    rcases h with _ | ⟨p, _ | _ | ⟨n, d⟩ | _⟩ | _ <;> simp [produceStep] at e
    obtain ⟨⟨rfl, rfl, hlt⟩, rfl, rfl⟩ := e
    exact .write hlt
  | draw data =>
    rcases h with _ | ⟨p, _ | n | _ | _⟩ | _ <;> simp [produceStep] at e
    obtain ⟨hlt, rfl, rfl⟩ := e
    exact .draw hlt
  | pushed count =>
    rcases h with _ | ⟨p, _ | n | _ | _⟩ | _ <;> simp [produceStep] at e
    obtain ⟨rfl, rfl, rfl⟩ := e
    exact .pushed
  | unwind =>
    rcases h with _ | ⟨p, _ | n | _ | _⟩ | _ <;> simp [produceStep] at e
    obtain ⟨hlt, rfl, rfl⟩ := e
    exact .unwind hlt
  | pushMany =>
    rcases h with _ | ⟨p, _ | _ | _ | _⟩ | _ <;> simp [produceStep] at e
    obtain ⟨rfl, rfl⟩ := e
    exact .pushMany
  | syncLoad =>
    rcases h with _ | ⟨p, _ | _ | _ | _⟩ | _ <;> simp [produceStep] at e
    obtain ⟨rfl, rfl⟩ := e
    exact .syncLoad
  | syncStore =>
    rcases h with _ | ⟨p, _ | _ | _ | _⟩ | _ <;> simp [produceStep] at e
    obtain ⟨rfl, rfl⟩ := e
    exact .syncStore
  | drop =>
    rcases h with _ | ⟨p, _ | _ | _ | _⟩ | _ <;> simp [produceStep] at e
    obtain ⟨rfl, rfl⟩ := e
    exact .drop

/-- A run goes on with a step of a producer. -/
theorem ProduceStep.run {x : Ctx M E} {st₀ st : State M E} {tr : List (Event E)} {s : ClientSide} {h h' : Handle E}
    {m' : M} {a : ProduceAct E} (e : ProduceStep x s h st.mem a h' m') (hrun : Run (step x) st₀ tr st)
    (hh : st.handle s = h) :
    ∃ st', Run (step x) st₀ (tr ++ [.produce s a]) st' ∧ st'.handle s = h' ∧ st'.handle s.not = st.handle s.not ∧
      st'.mem = m' := by
  have heq : produceStep x s h st.mem a = some (h', m') := by
    cases e with
    | new hp => simp only [produceStep, hp]
    | draw hlt => simp only [produceStep, if_pos hlt]
    | write hlt => simp only [produceStep, hlt, and_self, if_true]
    | unwind hlt => simp only [produceStep, if_pos hlt]
    | pushed => simp only [produceStep, if_true]
    | _ => rfl
  refine ⟨st.put s (h', m'), hrun.snoc ?_, if_pos rfl, if_neg (by simp), rfl⟩
  simp only [step, hh, heq, Option.map_some]

theorem ConsumeStep.of_eq {x : Ctx M E} {s : ClientSide} {h h' : Handle E} {m m' : M} {a : ConsumeAct E}
    (e : consumeStep x s h m a = some (h', m')) : ConsumeStep x s h m a h' m' := by
  cases a with
  | new =>
    simp only [consumeStep] at e
    split at e
    · rename_i c hc; cases e; exact .new hc
    · cases e
  | next data =>
    rcases h with _ | _ | ⟨c, _ | it | _⟩ <;> simp [consumeStep, Consumer.iterNext] at e
    by_cases hlt : it.idx < it.stop
    · by_cases hlen : it.idx &&& c.offsetMask < x.port.len
      · simp [hlt, hlen] at e
        obtain ⟨rfl, rfl, rfl⟩ := e
        exact .next hlt hlen
      · simp [hlt, hlen] at e
    · simp [hlt] at e
  | iter =>
    rcases h with _ | _ | ⟨c, _ | _ | _⟩ <;> simp [consumeStep] at e
    obtain ⟨rfl, rfl⟩ := e
    exact .iter
  | dropIter =>
    rcases h with _ | _ | ⟨c, _ | _ | _⟩ <;> simp [consumeStep] at e
    obtain ⟨rfl, rfl⟩ := e
    exact .dropIter
  | syncLoad =>
    rcases h with _ | _ | ⟨c, _ | _ | _⟩ <;> simp [consumeStep] at e
    obtain ⟨rfl, rfl⟩ := e
    exact .syncLoad
  | syncStore =>
    rcases h with _ | _ | ⟨c, _ | _ | _⟩ <;> simp [consumeStep] at e
    obtain ⟨rfl, rfl⟩ := e
    exact .syncStore
  | drop =>
    rcases h with _ | _ | ⟨c, _ | _ | _⟩ <;> simp [consumeStep] at e
    obtain ⟨rfl, rfl⟩ := e
    exact .drop

omit [DecidableEq E] in
theorem ProduceStep.of_new {x : Ctx M E} {s : ClientSide} {h h' : Handle E} {m m' : M}
    (e : ProduceStep x s h m .new h' m') : h = .closed := by
  cases e; rfl

omit [DecidableEq E] in
theorem ProduceStep.of_closed {x : Ctx M E} {s : ClientSide} {h : Handle E} {m m' : M} {a : ProduceAct E}
    (e : ProduceStep x s h m a .closed m') : a = .drop := by
  cases e; rfl

omit [DecidableEq E] in
theorem ProduceStep.new_of_closed {x : Ctx M E} {s : ClientSide} {h' : Handle E} {m m' : M} {a : ProduceAct E}
    (e : ProduceStep x s .closed m a h' m') :
    ∃ p, Producer.new x.build x.info x.entry x.port.toPort s m = .ok (some p) := by
  cases e with
  | new h => exact ⟨_, h⟩

omit [DecidableEq E] in
theorem ConsumeStep.new_of_closed {x : Ctx M E} {s : ClientSide} {h' : Handle E} {m m' : M} {a : ConsumeAct E}
    (e : ConsumeStep x s .closed m a h' m') :
    ∃ c, Consumer.new x.build x.info x.entry x.port.toPort s m = .ok (some c) := by
  cases e with
  | new h => exact ⟨_, h⟩

/-- A step is a producer step or a consumer step of one side, and leaves the handle of the other side alone. -/
theorem step_cases {x : Ctx M E} {st st' : State M E} {e : Event E} (h : step x st e = some st') :
    (∃ s a, e = .produce s a ∧ ProduceStep x s (st.handle s) st.mem a (st'.handle s) st'.mem ∧
      st'.handle s.not = st.handle s.not) ∨
    (∃ s a, e = .consume s a ∧ ConsumeStep x s (st.handle s) st.mem a (st'.handle s) st'.mem ∧
      st'.handle s.not = st.handle s.not) := by
  cases e with
  | produce s a =>
    obtain ⟨r, hr, rfl⟩ := Option.map_eq_some_iff.1 h
    exact .inl ⟨s, a, rfl, by simpa [State.put] using ProduceStep.of_eq hr, by simp [State.put]⟩
  | consume s a =>
    obtain ⟨r, hr, rfl⟩ := Option.map_eq_some_iff.1 h
    exact .inr ⟨s, a, rfl, by simpa [State.put] using ConsumeStep.of_eq hr, by simp [State.put]⟩

end Steps

end Duplex

end ShmRing
