import ShmRing.Deadline
import ShmRing.Isolation

/-!
# The lock of a ring

The word `blocked` of a head page as a lock of the two sides.  It is taken by one weak exchange, which a caller may
repeat, and given back by one weak exchange when the guard is dropped, which nobody repeats: its result is discarded.
The lock excludes in every run, but a drop of which the exchange fails spuriously leaves it taken by nobody, for good.
-/

namespace ShmRing

namespace Lock

open Machine Bytes Transition

/-- A ring that is joined on both sides, each with its own mapping of the head. -/
structure Pair where
  ring : ClientSide → Ring
  side_eq : ∀ s, (ring s).slot.side = s
  blocked_eq : ∀ s, (ring s).wordAt .blocked = (ring .left).wordAt .blocked

/-- How a wait of a guard ends, other than by a wake. -/
inductive TimedWaitError
  | wrongValue
  | interrupted
  | timedOut
  deriving DecidableEq, Repr

/-- The result of `RingAssertion::wake`. -/
def wakeResult : Except TimedWaitError Unit → WaitResult
  | .ok _ => .ok
  | .error .wrongValue => .error
  | .error .interrupted => .restart
  | .error .timedOut => .timeout

/-- Where a caller is, with the side whose ring it uses and with what its last call has returned. -/
inductive Phase
  | idle (ret : Option WaitResult)
  /-- In `lock_for_message`, before the exchange. -/
  | locking (s : ClientSide)
  /-- The caller has a `RingAssertion`. -/
  | guard (s : ClientSide)
  /-- In `RingAssertion::wake`. -/
  | waiting (s : ClientSide)
  /-- In the drop of a `RingAssertion`, before the exchange. -/
  | dropping (s : ClientSide) (ret : Option WaitResult)
  deriving DecidableEq, Repr

namespace Phase

/-- The side of a live guard. -/
def live : Phase → Option ClientSide
  | guard s => some s
  | waiting s => some s
  | _ => none

/-- The side of a guard, up to the exchange of its drop. -/
def holds : Phase → Option ClientSide
  | guard s => some s
  | waiting s => some s
  | dropping s _ => some s
  | _ => none

/-- A lock or a drop is in progress. -/
def InProgress : Phase → Prop
  | locking _ => True
  | dropping _ _ => True
  | _ => False

private theorem holds_of_live {p : Phase} {s : ClientSide} (h : p.live = some s) : p.holds = some s := by
  cases p with
  | guard | waiting => exact h
  | _ => cases h

private theorem holds_eq_none {p : Phase} (h : p.live = none) (hp : ¬ p.InProgress) : p.holds = none := by
  cases p with
  | dropping => exact absurd trivial hp
  | _ => exact h

end Phase

/-- What a caller has after the exchange of `lock_for_message`. -/
def lockResult (s : ClientSide) : Except UInt32 UInt32 → Phase
  | .ok _ => .guard s
  -- the same error when the ring is going down as when it is blocked already
  | .error _ => .idle (some .error)

structure State (K : Type) where
  mem : Mem
  phase : K → Phase

inductive Act (K : Type)
  | lockForMessage (k : K) (s : ClientSide)
  | exchange (k : K) (spurious : Bool)
  | wake (k : K)
  | woken (k : K) (res : Except TimedWaitError Unit)
  | drop (k : K)
  | unlock (k : K) (spurious : Bool)

variable {K : Type} [DecidableEq K]

def State.goto (st : State K) (k : K) (p : Phase) : State K := { st with phase := Function.update st.phase k p }

/-- The callers of both sides.  A guard is dropped by its owner, or at the end of `wake`. -/
def step (P : Pair) (st : State K) : Act K → Option (State K)
  | .lockForMessage k s =>
    match st.phase k with
    | .idle _ => some (st.goto k (.locking s))
    | _ => none
  | .exchange k spurious =>
    match st.phase k with
    | .locking s =>
      let (prior, m) := (P.ring s).lockForMessage spurious st.mem
      some ({ st with mem := m }.goto k (lockResult s prior))
    | _ => none
  | .wake k =>
    match st.phase k with
    | .guard s => some (st.goto k (.waiting s))
    | _ => none
  | .woken k res =>
    match st.phase k with
    | .waiting s => some (st.goto k (.dropping s (some (wakeResult res))))
    | _ => none
  | .drop k =>
    match st.phase k with
    | .guard s => some (st.goto k (.dropping s none))
    | _ => none
  | .unlock k spurious =>
    match st.phase k with
    | .dropping s ret => some ({ st with mem := (P.ring s).unlock spurious st.mem }.goto k (.idle ret))
    | _ => none

/-- The word of the lock. -/
def State.blocked (P : Pair) (st : State K) : UInt32 := (P.ring .left).load .blocked st.mem

/-- Nobody has the lock. -/
def init (m : Mem) : State K := ⟨m, fun _ => .idle none⟩

/-! ### What a step can do -/

private theorem Pair.load_eq (P : Pair) (s : ClientSide) (m : Mem) :
    (P.ring s).load .blocked m = (P.ring .left).load .blocked m := by
  simp only [Ring.load, P.blocked_eq s]

private theorem Pair.load_store (P : Pair) (s : ClientSide) (v : UInt32) (m : Mem) :
    (P.ring .left).load .blocked ((P.ring s).store .blocked v m) = v := by
  rw [← P.load_eq s]
  exact Mem.readU32_writeU32 ..

variable {P : Pair} {st st' : State K} {a : Act K}

/-- A step that takes the lock, one that gives it back, or one that does neither. -/
inductive Step (P : Pair) (st : State K) : Act K → State K → Prop
  | takes {k : K} {s : ClientSide} {st' : State K} (hlocking : st.phase k = .locking s) (hfree : st.blocked P = 0)
      (hword : st'.blocked P = s.asBlockSlot) (hphase : st'.phase = Function.update st.phase k (.guard s)) :
      Step P st (.exchange k false) st'
  | gives {k : K} {s : ClientSide} {ret : Option WaitResult} {st' : State K} (hdrop : st.phase k = .dropping s ret)
      (hheld : st.blocked P = s.asBlockSlot) (hword : st'.blocked P = 0)
      (hphase : st'.phase = Function.update st.phase k (.idle ret)) : Step P st (.unlock k false) st'
  | abandons {k : K} {s : ClientSide} {ret : Option WaitResult} {spurious : Bool} {st' : State K}
      (hdrop : st.phase k = .dropping s ret) (hfails : st.blocked P = s.asBlockSlot → spurious = true)
      (hword : st'.blocked P = st.blocked P) (hphase : st'.phase = Function.update st.phase k (.idle ret)) :
      Step P st (.unlock k spurious) st'
  | keeps {a : Act K} {k : K} {p : Phase} {st' : State K} (hact : ∀ k spurious, a ≠ .unlock k spurious)
      (hholds : p.holds = (st.phase k).holds) (hword : st'.blocked P = st.blocked P)
      (hphase : st'.phase = Function.update st.phase k p) : Step P st a st'

private theorem Step.goto {k : K} {p q : Phase} (hact : ∀ k spurious, a ≠ .unlock k spurious) (hq : st.phase k = q)
    (hholds : p.holds = q.holds) : Step P st a (st.goto k p) :=
  .keeps hact (hq ▸ hholds) rfl rfl

theorem Step.of_eq (e : step P st a = some st') : Step P st a st' := by
  cases a with
  | lockForMessage k s =>
    simp only [step] at e
    split at e
    · rename_i hp
      cases e
      exact .goto (fun _ _ h => (by cases h)) hp rfl
    · cases e
  | exchange k spurious =>
    simp only [step] at e
    split at e
    · rename_i s hp
      cases e
      by_cases hfree : (P.ring s).load .blocked st.mem = 0 ∧ spurious = false
      · have hlock : (P.ring s).lockForMessage spurious st.mem =
            (.ok ((P.ring s).load .blocked st.mem), (P.ring s).store .blocked s.asBlockSlot st.mem) := by
          simp only [Ring.lockForMessage, compareExchangeWeak, if_pos hfree, P.side_eq]
        rw [hlock]
        obtain ⟨hzero, rfl⟩ := hfree
        exact .takes hp ((P.load_eq s st.mem).symm.trans hzero) (P.load_store s _ st.mem) rfl
      · have hlock : (P.ring s).lockForMessage spurious st.mem = (.error ((P.ring s).load .blocked st.mem),
            (P.ring s).store .blocked ((P.ring s).load .blocked st.mem) st.mem) := by
          simp only [Ring.lockForMessage, compareExchangeWeak, if_neg hfree]
        rw [hlock]
        exact .keeps (fun _ _ h => (by cases h)) (by rw [hp]; rfl)
          ((P.load_store s _ st.mem).trans (P.load_eq s st.mem)) rfl
    · cases e
  | wake k =>
    simp only [step] at e
    split at e
    · rename_i hp
      cases e
      exact .goto (fun _ _ h => (by cases h)) hp rfl
    · cases e
  | woken k res =>
    simp only [step] at e
    split at e
    · rename_i hp
      cases e
      exact .goto (fun _ _ h => (by cases h)) hp rfl
    · cases e
  | drop k =>
    simp only [step] at e
    split at e
    · rename_i hp
      cases e
      exact .goto (fun _ _ h => (by cases h)) hp rfl
    · cases e
  | unlock k spurious =>
    simp only [step] at e
    split at e
    · rename_i s ret hp
      cases e
      by_cases hheld : (P.ring s).load .blocked st.mem = s.asBlockSlot ∧ spurious = false
      · have hunlock : (P.ring s).unlock spurious st.mem = (P.ring s).store .blocked 0 st.mem := by
          simp only [Ring.unlock, compareExchangeWeak, P.side_eq, if_pos hheld]
        rw [hunlock]
        obtain ⟨hword, rfl⟩ := hheld
        exact .gives hp ((P.load_eq s st.mem).symm.trans hword) (P.load_store s _ st.mem) rfl
      · have hunlock : (P.ring s).unlock spurious st.mem =
            (P.ring s).store .blocked ((P.ring s).load .blocked st.mem) st.mem := by
          simp only [Ring.unlock, compareExchangeWeak, P.side_eq, if_neg hheld]
        rw [hunlock]
        refine .abandons hp (fun hword => ?_) ((P.load_store s _ st.mem).trans (P.load_eq s st.mem)) rfl
        have hload := (P.load_eq s st.mem).trans hword
        simpa [hload] using hheld
    · cases e

/-! ### Exclusion -/

/-- At most one guard is there, and the word is the code of its side. -/
structure Excludes (P : Pair) (st : State K) : Prop where
  word : ∀ k s, (st.phase k).holds = some s → st.blocked P = s.asBlockSlot
  unique : ∀ k k' s s', (st.phase k).holds = some s → (st.phase k').holds = some s' → k = k'

/-- Who holds the lock after one caller went on: that caller, or one that held it before. -/
private theorem holds_update {f : K → Phase} {k k' : K} {p : Phase} {s : ClientSide}
    (h : (Function.update f k p k').holds = some s) :
    k' = k ∧ p.holds = some s ∨ k' ≠ k ∧ (f k').holds = some s := by
  by_cases hk : k' = k
  · subst hk
    rw [Function.update_self] at h
    exact .inl ⟨rfl, h⟩
  · rw [Function.update_of_ne hk] at h
    exact .inr ⟨hk, h⟩

private theorem holds_update_of_eq {f : K → Phase} {k : K} {p : Phase} (h : p.holds = (f k).holds) (k' : K) :
    (Function.update f k p k').holds = (f k').holds :=
  (Function.forall_update_iff f fun k' q => q.holds = (f k').holds).2 ⟨h, fun _ _ => rfl⟩ k'

private theorem asBlockSlot_ne_zero (s : ClientSide) : s.asBlockSlot ≠ 0 := by cases s <;> decide

omit [DecidableEq K] in
private theorem excludes_init (P : Pair) (m : Mem) : Excludes P (init m : State K) where
  word _ _ h := by cases h
  unique _ _ _ _ h := by cases h

namespace Excludes

/-- A caller goes on with what it has, or without it. -/
private theorem update (h : Excludes P st) {k : K} {p : Phase}
    (hp : ∀ s, p.holds = some s → (st.phase k).holds = some s) (hword : st'.blocked P = st.blocked P)
    (hphase : st'.phase = Function.update st.phase k p) : Excludes P st' := by
  have hback : ∀ k' s, (st'.phase k').holds = some s → (st.phase k').holds = some s := by
    intro k' s hs
    rw [hphase] at hs
    rcases holds_update hs with ⟨rfl, hs'⟩ | ⟨-, hs'⟩
    · exact hp s hs'
    · exact hs'
  refine ⟨fun k' s hs => ?_, fun k₁ k₂ s₁ s₂ h₁ h₂ => h.unique _ _ _ _ (hback _ _ h₁) (hback _ _ h₂)⟩
  rw [hword]
  exact h.word k' s (hback k' s hs)

theorem step (h : Excludes P st) (e : Step P st a st') : Excludes P st' := by
  cases e with
  | @takes k s _ hlocking hfree hword hphase =>
    -- whoever held the lock would have set the word
    have hnone : ∀ k' s', (st'.phase k').holds = some s' → k' = k ∧ s' = s := by
      intro k' s' hs
      rw [hphase] at hs
      rcases holds_update hs with ⟨rfl, hs'⟩ | ⟨-, hs'⟩
      · cases hs'
        exact ⟨rfl, rfl⟩
      · exact absurd ((h.word k' s' hs').symm.trans hfree) (asBlockSlot_ne_zero s')
    refine ⟨fun k' s' hs => ?_, fun k₁ k₂ s₁ s₂ h₁ h₂ => ?_⟩
    · obtain ⟨-, rfl⟩ := hnone k' s' hs
      exact hword
    · exact (hnone k₁ s₁ h₁).1.trans (hnone k₂ s₂ h₂).1.symm
  | @gives k s ret _ hdrop hheld hword hphase =>
    have hnone : ∀ k' s', (st'.phase k').holds ≠ some s' := by
      intro k' s' hs
      rw [hphase] at hs
      rcases holds_update hs with ⟨-, hs⟩ | ⟨hk, hs⟩
      · cases hs
      · exact hk (h.unique k' k s' s hs (by rw [hdrop]; rfl))
    exact ⟨fun k' s' hs => absurd hs (hnone k' s'), fun k₁ _ s₁ _ h₁ => absurd h₁ (hnone k₁ s₁)⟩
  | abandons hdrop _ hword hphase => exact h.update (fun _ hs => (by cases hs)) hword hphase
  | keeps _ hholds hword hphase => exact h.update (fun s hs => hholds ▸ hs) hword hphase

end Excludes

/-- In every run, with any failures, no two guards are live. -/
theorem excludes_of_run {m : Mem} {tr : List (Act K)} (h : Run (step P) (init m) tr st) : Excludes P st :=
  h.invariant (I := fun _ => Excludes P) (excludes_init P m) fun _ _ _ _ hi e => hi.step (Step.of_eq e)

/-! ### The lock is given back -/

/-- Nobody has the lock that nobody holds. -/
def Free (P : Pair) (st : State K) : Prop := (∀ k, (st.phase k).holds = none) → st.blocked P = 0

/-- The exchange of a drop does not fail spuriously. -/
def NoSpuriousDrop (_ : List (Act K)) (_ : State K) (a : Act K) : Prop := ∀ k, a ≠ .unlock k true

theorem Free.step (h : Free P st) (hx : Excludes P st) (hdrops : ∀ k, a ≠ .unlock k true) (e : Step P st a st') :
    Free P st' := by
  intro hnone
  cases e with
  | @takes k s _ hlocking hfree hword hphase =>
    have hk := hnone k
    rw [hphase, Function.update_self] at hk
    cases hk
  | gives _ _ hword _ => exact hword
  | @abandons k s ret spurious _ hdrop hfails _ _ =>
    -- the word of a guard matches, so that the exchange fails spuriously or not at all
    have hword := hx.word k s (by rw [hdrop]; rfl)
    rw [hfails hword] at hdrops
    exact absurd rfl (hdrops k)
  | @keeps _ k p _ _ hholds hword hphase =>
    rw [hword]
    refine h fun k' => ?_
    have hk := hnone k'
    rwa [hphase, holds_update_of_eq hholds] at hk

/-- The word is a lock: at most one guard is live, the word is the code of its side, and while no guard is live and
nobody locks or drops, the word is zero. -/
structure Sound (P : Pair) (st : State K) : Prop where
  exclusive : ∀ k k' s s', (st.phase k).live = some s → (st.phase k').live = some s' → k = k'
  word : ∀ k s, (st.phase k).live = some s → st.blocked P = s.asBlockSlot
  free : (∀ k, (st.phase k).live = none) → (∀ k, ¬ (st.phase k).InProgress) → st.blocked P = 0

omit [DecidableEq K] in
private theorem Excludes.sound (hx : Excludes P st) (hf : Free P st) : Sound P st where
  exclusive k k' s s' h h' := hx.unique k k' s s' (Phase.holds_of_live h) (Phase.holds_of_live h')
  word k s h := hx.word k s (Phase.holds_of_live h)
  free h h' := hf fun k => Phase.holds_eq_none (h k) (h' k)

/-- In a run in which no drop fails spuriously the word is a lock in every state. -/
theorem sound_of_runWhere {m : Mem} {tr : List (Act K)} (hm : (P.ring .left).load .blocked m = 0)
    (h : RunWhere (step P) NoSpuriousDrop (init m) tr st) : Sound P st := by
  have hinv : Excludes P st ∧ Free P st :=
    h.invariant (I := fun _ st => Excludes P st ∧ Free P st) ⟨excludes_init P m, fun _ => hm⟩
      fun _ _ _ _ hi hG e => ⟨hi.1.step (Step.of_eq e), hi.2.step hi.1 hG (Step.of_eq e)⟩
  exact hinv.1.sound hinv.2

/-! ### The lock is lost -/

/-- The lock is taken, but by nobody. -/
structure Abandoned (P : Pair) (st : State K) : Prop where
  taken : st.blocked P ≠ 0
  nobody : ∀ k, (st.phase k).holds = none

theorem Abandoned.step (h : Abandoned P st) (e : Step P st a st') : Abandoned P st' := by
  cases e with
  | takes _ hfree => exact absurd hfree h.taken
  | @gives k s ret _ hdrop =>
    have hk := h.nobody k
    rw [hdrop] at hk
    cases hk
  | @abandons k s ret _ _ hdrop =>
    have hk := h.nobody k
    rw [hdrop] at hk
    cases hk
  | @keeps _ k p _ _ hholds hword hphase =>
    refine ⟨hword ▸ h.taken, fun k' => ?_⟩
    rw [hphase, holds_update_of_eq hholds]
    exact h.nobody k'

/-- A drop that fails spuriously is the end of the lock: nobody gets it again. -/
theorem abandoned_of_run {m : Mem} {tr tr' : List (Act K)} {k : K} {st'' : State K} (h : Run (step P) (init m) tr st)
    (e : step P st (.unlock k true) = some st') (h' : Run (step P) st' tr' st'') : Abandoned P st'' := by
  have hx := excludes_of_run h
  refine h'.invariant (I := fun _ => Abandoned P) ?_ fun _ _ _ _ hi e => hi.step (Step.of_eq e)
  cases Step.of_eq e with
  | @abandons _ s ret _ _ hdrop _ hword hphase =>
    have hhold : (st.phase k).holds = some s := by rw [hdrop]; rfl
    refine ⟨?_, fun k' => ?_⟩
    · rw [hword, hx.word k s hhold]
      exact asBlockSlot_ne_zero s
    · rw [hphase]
      refine Option.eq_none_iff_forall_ne_some.2 fun s' hs => ?_
      rcases holds_update hs with ⟨-, hs⟩ | ⟨hne, hs⟩
      · cases hs
      · exact hne (hx.unique k' k s' s hs hhold)
  | keeps hact => exact absurd rfl (hact k true)

/-- A ring that both sides have joined. -/
def bothSides : Pair where
  ring s := ⟨World.sixPages, ⟨32, 0x41000, s, ⟨1⟩⟩, ⟨-1⟩⟩
  side_eq _ := rfl
  blocked_eq _ := rfl

/-- A wait that times out. -/
theorem sound_of_runWhere_timeout : ∃ st : State Unit, RunWhere (step bothSides) NoSpuriousDrop (init fun _ => 0)
    [.lockForMessage () .left, .exchange () false, .wake (), .woken () (.error .timedOut), .unlock () false] st ∧
      Sound bothSides st := by
  have hrun : RunWhere (step bothSides) NoSpuriousDrop (init fun _ => 0)
      [.lockForMessage () .left, .exchange () false, .wake (), .woken () (.error .timedOut), .unlock () false] _ :=
    ((((RunWhere.nil.snoc nofun rfl).snoc nofun rfl).snoc nofun rfl).snoc nofun rfl).snoc nofun rfl
  exact ⟨_, hrun, sound_of_runWhere (by decide) hrun⟩

/-- A guard that is dropped at once, by an exchange that fails spuriously. -/
theorem not_sound : ∃ (tr : List (Act Unit)) (st : State Unit), Run (step bothSides) (init fun _ => 0) tr st ∧
    ¬ Sound bothSides st := by
  have hrun : Run (step bothSides) (init fun _ => 0)
      [.lockForMessage () .left, .exchange () false, .drop ()] (_ : State Unit) :=
    ((Run.nil.snoc rfl).snoc rfl).snoc rfl
  refine ⟨_, _, hrun.snoc (a := .unlock () true) rfl, fun h => ?_⟩
  have habandoned := abandoned_of_run (k := ()) hrun rfl Run.nil
  exact habandoned.taken (h.free (fun _ => rfl) fun _ hp => hp)

end Lock

end ShmRing
