import ShmRing.Steps

/-!
# What `bring_up` does to a ring

Clients may join and leave between any two steps of a call.  Still, the call leaves each ring either alone or brings it
up completely (`bringsUp`): when it turns the open slot of a ring to zero, the other one is zero, and a slot that is
zero remains so until the server changes it.

The stores of a call are recorded for each ring, in their order.
-/

namespace ShmRing

open Transition

namespace Authority

namespace RingState

/-- A store of `bring_up`; all that go to the head are of zero. -/
inductive Store
  | owner (s : ClientSide) (v : UInt32)
  | head (w : HeadWord)
  deriving DecidableEq, Repr

/-- The stores of a step of the loop body.  An exchange that fails makes none. -/
def stores (r : RingState) (ids : RingConfig) : Pc → List Store
  | .takeLhs =>
    match ClientSlot.takeForServer (r.owner .left) with
    | (.ok (some _), owner) => [.owner .left owner]
    | _ => []
  | .takeRhs =>
    match ClientSlot.takeForServer (r.owner .right) with
    | (.ok (some _), owner) => [.owner .right owner]
    | _ => []
  | .reset (w :: _) => [.head w]
  | .reinitLhs =>
    match ClientSlot.reinit (r.owner .left) ⟨ids.lhs⟩ with
    | .ok (.ok (), owner) => [.owner .left owner]
    | _ => []
  | .reinitRhs =>
    match ClientSlot.reinit (r.owner .right) ⟨ids.rhs⟩ with
    | .ok (.ok (), owner) => [.owner .right owner]
    | _ => []
  | _ => []

def Store.apply (r : RingState) : Store → RingState
  | .owner s v => r.setOwner s v
  | .head w => { r with head := r.head.store w 0 }

/-- The record is true: a step changes a ring by its stores, and only counts the reset besides. -/
theorem bringUp_stores (r : RingState) (ids : RingConfig) (p : Pc) :
    ∃ generation, (r.bringUp ids p).1 = { (r.stores ids p).foldl Store.apply r with generation } := by
  cases p with
  | checkLhs =>
    refine ⟨r.generation, ?_⟩
    simp only [bringUp, stores]
    split
    · split <;> rfl
    · rfl
  | checkRhs openLhs =>
    refine ⟨r.generation, ?_⟩
    simp only [bringUp, stores]
    split <;> rfl
  | takeLhs =>
    refine ⟨r.generation, ?_⟩
    simp only [bringUp, stores, ClientSlot.takeForServer_eq]
    cases slotClass (r.owner .left) with
    | available => rfl
    | _ => exact setOwner_self r .left
  | takeRhs =>
    refine ⟨r.generation, ?_⟩
    simp only [bringUp, stores, ClientSlot.takeForServer_eq]
    cases slotClass (r.owner .right) with
    | available => rfl
    | _ => exact setOwner_self r .right
  | reset ws => cases ws <;> exact ⟨_, rfl⟩
  | reinitLhs =>
    refine ⟨r.generation, ?_⟩
    by_cases h : (⟨ids.lhs⟩ : RingIdentifier).val < 0
    · simp only [bringUp, stores, ClientSlot.reinit_eq h]
      cases slotClass (r.owner .left) with
      | server => rfl
      | _ => exact setOwner_self r .left
    · simp only [bringUp, stores, ClientSlot.reinit, if_neg h]
      rfl
  | reinitRhs =>
    refine ⟨r.generation, ?_⟩
    by_cases h : (⟨ids.rhs⟩ : RingIdentifier).val < 0
    · simp only [bringUp, stores, ClientSlot.reinit_eq h]
      cases slotClass (r.owner .right) with
      | server => rfl
      | _ => exact setOwner_self r .right
    · simp only [bringUp, stores, ClientSlot.reinit, if_neg h]
      rfl

/-- Both ids can be advertised. -/
def Negative (ids : RingConfig) : Prop := ids.lhs < 0 ∧ ids.rhs < 0

instance (ids : RingConfig) : Decidable (Negative ids) := inferInstanceAs (Decidable (_ ∧ _))

/-- The stores that take slots for the server. -/
def Takes (log : List Store) : Prop := ∀ x ∈ log, ∃ s, x = .owner s 0

/-- The ring was brought up: slots were taken, then all words of the head were reset, and both ids are advertised. -/
def BroughtUp (ids : RingConfig) (log : List Store) : Prop :=
  Negative ids ∧ ∃ takes, Takes takes ∧ log = takes ++ RingHead.reinitOrder.map .head ++
    [.owner .left ids.lhs.toUInt32, .owner .right ids.rhs.toUInt32]

/-- What the loop body relies on, and what it has stored so far. -/
def Doing (ids : RingConfig) (r : RingState) (log : List Store) : Pc → Prop
  | .checkLhs => log = []
  | .checkRhs openLhs => Negative ids ∧ log = [] ∧ (openLhs = false → r.owner .left = 0)
  | .takeLhs => Negative ids ∧ log = [] ∧ (r.owner .left = 0 ∨ r.owner .right = 0)
  -- a slot was only taken if the exchange on the other cannot fail
  | .takeRhs => Negative ids ∧ r.owner .left = 0 ∧ (log = [] ∨ Takes log ∧ r.owner .right = 0)
  | .reset ws => Negative ids ∧ (∀ s, r.owner s = 0) ∧
      ∃ takes done, Takes takes ∧ done ++ ws = RingHead.reinitOrder ∧ log = takes ++ done.map .head
  | .reinitLhs => Negative ids ∧ (∀ s, r.owner s = 0) ∧
      ∃ takes, Takes takes ∧ log = takes ++ RingHead.reinitOrder.map .head
  | .reinitRhs => Negative ids ∧ r.owner .right = 0 ∧
      ∃ takes, Takes takes ∧ log = takes ++ RingHead.reinitOrder.map .head ++ [.owner .left ids.lhs.toUInt32]

/-- What is to hold after a step of the loop body. -/
def Follows (ids : RingConfig) (r : RingState) (log : List Store) : Outcome → Prop
  | .goto p => Doing ids r log p
  | .next true => BroughtUp ids log
  | .next false => log = []
  | .panicked => False

variable {ids : RingConfig} {r r' : RingState} {log : List Store} {p : Pc}

/-- Steps of clients leave alone what is zero. -/
private theorem Doing.mono (h : Doing ids r log p) (hzero : ∀ s, r.owner s = 0 → r'.owner s = 0) :
    Doing ids r' log p := by
  cases p with
  | checkLhs => exact h
  | checkRhs openLhs => exact ⟨h.1, h.2.1, fun ho => hzero _ (h.2.2 ho)⟩
  | takeLhs => exact ⟨h.1, h.2.1, h.2.2.imp (hzero _) (hzero _)⟩
  | takeRhs => exact ⟨h.1, hzero _ h.2.1, h.2.2.imp_right fun ht => ⟨ht.1, hzero _ ht.2⟩⟩
  | reset ws => exact ⟨h.1, fun s => hzero s (h.2.1 s), h.2.2⟩
  | reinitLhs => exact ⟨h.1, fun s => hzero s (h.2.1 s), h.2.2⟩
  | reinitRhs => exact ⟨h.1, hzero _ h.2.1, h.2.2⟩

theorem bringUp_checkLhs (r : RingState) (ids : RingConfig) :
    r.bringUp ids .checkLhs = (r, if Negative ids ∧ slotClass (r.owner .left) ≠ .client then
      .goto (.checkRhs (slotClass (r.owner .left) = .available)) else .next false) := by
  simp only [bringUp, RingIdentifier.new, ClientSlot.isOpenHeuristically_eq, Negative]
  by_cases hr : ids.rhs < 0 <;> by_cases hl : ids.lhs < 0 <;> cases slotClass (r.owner .left) <;> simp [hr, hl]

theorem bringUp_checkRhs (r : RingState) (ids : RingConfig) (openLhs : Bool) :
    r.bringUp ids (.checkRhs openLhs) =
      (r, if slotClass (r.owner .right) = .server ∨ slotClass (r.owner .right) = .available ∧ openLhs = false then
        .goto .takeLhs else .next false) := by
  simp only [bringUp, ClientSlot.isOpenHeuristically_eq]
  cases slotClass (r.owner .right) <;> cases openLhs <;> rfl

private theorem Doing.follows (h : Doing ids r log p) :
    Follows ids (r.bringUp ids p).1 (log ++ r.stores ids p) (r.bringUp ids p).2 := by
  cases p with
  | checkLhs =>
    obtain rfl : log = [] := h
    rw [bringUp_checkLhs]
    split
    · rename_i hc
      refine ⟨hc.1, rfl, fun ho => ?_⟩
      have hne : slotClass (r.owner .left) ≠ .available := of_decide_eq_false ho
      cases hclass : slotClass (r.owner .left) with
      | available => exact absurd hclass hne
      | server => exact slotClass_eq_server.1 hclass
      | client => exact absurd hclass hc.2
    · rfl
  | checkRhs openLhs =>
    obtain ⟨hneg, rfl, ho⟩ := h
    rw [bringUp_checkRhs]
    split
    · rename_i hc
      rcases hc with hc | ⟨-, hc⟩
      · exact ⟨hneg, rfl, .inr (slotClass_eq_server.1 hc)⟩
      · exact ⟨hneg, rfl, .inl (ho hc)⟩
    · rfl
  | takeLhs =>
    obtain ⟨hneg, rfl, hzero⟩ := h
    simp only [bringUp, stores, ClientSlot.takeForServer_eq, List.nil_append]
    cases hclass : slotClass (r.owner .left) with
    | available =>
      have hne : r.owner .left ≠ 0 := fun he => by rw [he] at hclass; cases hclass
      refine ⟨hneg, ?_, .inr ⟨fun x hx => ⟨.left, List.mem_singleton.1 hx⟩, ?_⟩⟩
      · simp only [setOwner, Function.update_self]
      · simp only [setOwner, Function.update_of_ne (show ClientSide.right ≠ .left by decide)]
        exact hzero.resolve_left hne
    | server =>
      simp only [setOwner_self]
      exact ⟨hneg, slotClass_eq_server.1 hclass, .inl rfl⟩
    | client => rfl
  | takeRhs =>
    obtain ⟨hneg, hleft, htaken⟩ := h
    simp only [bringUp, stores, ClientSlot.takeForServer_eq]
    cases hclass : slotClass (r.owner .right) with
    | available =>
      have hne : r.owner .right ≠ 0 := fun he => by rw [he] at hclass; cases hclass
      obtain rfl := htaken.resolve_right fun ht => hne ht.2
      refine ⟨hneg, fun s => ?_, [.owner .right 0], [], fun x hx => ⟨.right, List.mem_singleton.1 hx⟩, rfl, rfl⟩
      cases s with
      | left => simpa only [setOwner, Function.update_of_ne (show ClientSide.left ≠ .right by decide)] using hleft
      | right => simp only [setOwner, Function.update_self]
    | server =>
      have hright := slotClass_eq_server.1 hclass
      have htakes : Takes log := by
        rcases htaken with rfl | htaken
        · intro x hx
          cases hx
        · exact htaken.1
      simp only [setOwner_self]
      exact ⟨hneg, fun s => by cases s <;> assumption, log, [], htakes, rfl, by simp⟩
    | client =>
      have hne : r.owner .right ≠ 0 := fun he => by rw [he] at hclass; cases hclass
      obtain rfl := htaken.resolve_right fun ht => hne ht.2
      rfl
  | reset ws =>
    obtain ⟨hneg, howner, takes, done, htakes, hdone, rfl⟩ := h
    cases ws with
    | nil =>
      rw [List.append_nil] at hdone
      exact ⟨hneg, howner, takes, htakes, by simp [stores, hdone]⟩
    | cons w ws =>
      refine ⟨hneg, howner, takes, done ++ [w], htakes, ?_, ?_⟩
      · rw [List.append_assoc]
        exact hdone
      · simp [stores]
  | reinitLhs =>
    obtain ⟨hneg, howner, takes, htakes, rfl⟩ := h
    simp only [bringUp, stores, ClientSlot.reinit_eq (show (⟨ids.lhs⟩ : RingIdentifier).val < 0 from hneg.1),
      slotClass_eq_server.2 (howner .left)]
    refine ⟨hneg, ?_, takes, htakes, rfl⟩
    simpa only [setOwner, Function.update_of_ne (show ClientSide.right ≠ .left by decide)] using howner .right
  | reinitRhs =>
    obtain ⟨hneg, howner, takes, htakes, rfl⟩ := h
    simp only [bringUp, stores, ClientSlot.reinit_eq (show (⟨ids.rhs⟩ : RingIdentifier).val < 0 from hneg.2),
      slotClass_eq_server.2 howner]
    exact ⟨hneg, takes, htakes, by simp⟩

end RingState

/-! ### The whole call -/

/-- The step is one of a client. -/
def Act.OfClient : Act → Prop
  | .spawn _ | .exit _ | .join _ _ _ _ | .write _ _ _ | .drop _ => True
  | _ => False

/-- A state, with the stores of the call to each ring. -/
structure Logged where
  state : State
  log : Nat → List RingState.Store

namespace Logged

/-- The stores after a step. -/
def stored (s : Logged) : Act → Nat → List RingState.Store
  | .bringUpStep =>
    match s.state.server.pc with
    | .bringUp (cfg :: _) idx p _ => Function.update s.log idx (s.log idx ++ (s.state.ring idx).stores cfg p)
    | _ => s.log
  | _ => s.log

def step (n : Nat) (s : Logged) (a : Act) : Option Logged := (Authority.step n s.state a).map fun st => ⟨st, s.stored a⟩

/-- A call of `bring_up` in this state. -/
def start (n : Nat) (st : State) (ids : List RingConfig) : Logged :=
  ⟨{ st with server := st.server.bringUpFrom n ids 0 0 }, fun _ => []⟩

end Logged

/-- How many of the first `k` rings something was stored to. -/
def storedTo (log : Nat → List RingState.Store) (k : Nat) : Nat :=
  ((List.range k).filter fun idx => log idx ≠ []).length

private theorem storedTo_succ (log : Nat → List RingState.Store) (k : Nat) :
    storedTo log (k + 1) = storedTo log k + (decide (log k ≠ [])).toNat := by
  simp only [storedTo, List.range_succ, List.filter_append, List.length_append]
  by_cases h : log k = [] <;> simp [h]

private theorem storedTo_congr {log log' : Nat → List RingState.Store} {k : Nat} (h : ∀ idx < k, log' idx = log idx) :
    storedTo log' k = storedTo log k := by
  unfold storedTo
  rw [List.filter_congr fun idx hi => by rw [h idx (List.mem_range.1 hi)]]

private theorem storedTo_of_nil {log : Nat → List RingState.Store} {k l : Nat} (hle : k ≤ l)
    (h : ∀ idx, k ≤ idx → log idx = []) :
    storedTo log l = storedTo log k := by
  induction hle with
  | refl => rfl
  | @step l hle ih =>
    rw [storedTo_succ, ih, h l hle]
    rfl

/-- Each ring was either left alone, or it is one of the list and was brought up; the latter are counted. -/
structure AllOrNothing (n : Nat) (ids : List RingConfig) (log : Nat → List RingState.Store) (success : Nat) : Prop where
  ring : ∀ idx, log idx = [] ∨ idx < n ∧ ∃ cfg, ids[idx]? = some cfg ∧ RingState.BroughtUp cfg (log idx)
  count : success = storedTo log n

/-- The call has dealt with the first `k` rings and not begun with the others. -/
structure DoneTo (n : Nat) (ids : List RingConfig) (log : Nat → List RingState.Store) (k success : Nat) : Prop where
  le : k ≤ n
  earlier : ∀ idx < k, log idx = [] ∨ ∃ cfg, ids[idx]? = some cfg ∧ RingState.BroughtUp cfg (log idx)
  later : ∀ idx, k < idx → log idx = []
  count : success = storedTo log k

/-- The invariant of a call. -/
def Bringing (n : Nat) (ids : List RingConfig) (s : Logged) : ServerPc → Prop
  | .bringUp cfgs idx p success => cfgs = ids.drop idx ∧ idx < n ∧ DoneTo n ids s.log idx success ∧
      ∃ cfg, ids[idx]? = some cfg ∧ RingState.Doing cfg (s.state.ring idx) (s.log idx) p
  | .idle => ∃ success, s.state.server.last = some (.bringUp success) ∧ AllOrNothing n ids s.log success
  | _ => False

private theorem DoneTo.allOrNothing {n k success : Nat} {ids : List RingConfig} {log : Nat → List RingState.Store}
    (h : DoneTo n ids log k success) (hk : log k = []) : AllOrNothing n ids log success := by
  have hlater : ∀ idx, k ≤ idx → log idx = [] := by
    intro idx hle
    rcases Nat.eq_or_lt_of_le hle with rfl | hlt
    · exact hk
    · exact h.later idx hlt
  refine ⟨fun idx => ?_, by rw [h.count, storedTo_of_nil h.le hlater]⟩
  rcases Nat.lt_or_ge idx k with hlt | hle
  · exact (h.earlier idx hlt).imp_right fun hb => ⟨Nat.lt_of_lt_of_le hlt h.le, hb⟩
  · exact .inl (hlater idx hle)

private theorem DoneTo.update {n k success : Nat} {ids : List RingConfig} {log : Nat → List RingState.Store}
    (h : DoneTo n ids log k success) (l : List RingState.Store) : DoneTo n ids (Function.update log k l) k success where
  le := h.le
  earlier idx hlt := by
    rw [Function.update_of_ne (Nat.ne_of_lt hlt)]
    exact h.earlier idx hlt
  later idx hlt := by
    rw [Function.update_of_ne (Nat.ne_of_gt hlt)]
    exact h.later idx hlt
  count := by rw [h.count, storedTo_congr fun idx hlt => Function.update_of_ne (Nat.ne_of_lt hlt) l log]

private theorem RingState.BroughtUp.ne_nil {ids : RingConfig} {log : List Store} (h : BroughtUp ids log) :
    log ≠ [] := by
  obtain ⟨-, takes, -, rfl⟩ := h
  simp

/-- The call is done with the ring that it is at. -/
private theorem DoneTo.next {n k success : Nat} {ids : List RingConfig} {log : Nat → List RingState.Store}
    {cfg : RingConfig} {l : List RingState.Store} {r : RingState} {done : Bool}
    (h : DoneTo n ids (Function.update log k l) k success) (hlt : k < n) (hc : ids[k]? = some cfg)
    (hf : RingState.Follows cfg r l (.next done)) :
    DoneTo n ids (Function.update log k l) (k + 1) (success + done.toNat) where
  le := hlt
  earlier idx hidx := by
    rcases Nat.lt_or_eq_of_le (Nat.le_of_lt_succ hidx) with hidx | rfl
    · exact h.earlier idx hidx
    · rw [Function.update_self]
      cases done with
      | false => exact .inl hf
      | true => exact .inr ⟨cfg, hc, hf⟩
  later idx hidx := h.later idx (by omega)
  count := by
    rw [storedTo_succ, h.count, Function.update_self]
    cases done with
    | false => rw [show l = [] from hf]; rfl
    | true => rw [decide_eq_true (RingState.BroughtUp.ne_nil hf)]

/-- The call goes on with the next ring, or it returns. -/
private theorem bringing_from {n idx success : Nat} {ids : List RingConfig} {st : State}
    {log : Nat → List RingState.Store} (h : DoneTo n ids log idx success) (hidx : log idx = []) :
    Bringing n ids ⟨{ st with server := st.server.bringUpFrom n (ids.drop idx) idx success }, log⟩
      (st.server.bringUpFrom n (ids.drop idx) idx success).pc := by
  by_cases hnext : ids.drop idx ≠ [] ∧ idx < n
  · simp only [ServerState.bringUpFrom, if_pos hnext]
    have hlt : idx < ids.length := by
      by_contra hge
      exact hnext.1 (List.drop_eq_nil_of_le (Nat.le_of_not_lt hge))
    exact ⟨rfl, hnext.2, h, ids[idx], List.getElem?_eq_getElem hlt, hidx⟩
  · simp only [ServerState.bringUpFrom, if_neg hnext]
    exact ⟨success, rfl, h.allOrNothing hidx⟩

private theorem bringing_start (n : Nat) (st : State) (ids : List RingConfig) :
    Bringing n ids (Logged.start n st ids) (Logged.start n st ids).state.server.pc := by
  have h : DoneTo n ids (fun _ => []) 0 0 :=
    ⟨Nat.zero_le n, fun _ hlt => absurd hlt (Nat.not_lt_zero _), fun _ _ => rfl, rfl⟩
  exact bringing_from h rfl

/-- A client takes no slot that the server has. -/
private theorem Step.zero {n : Nat} {st st' : State} {a : Act} (e : Step n st a st') (ha : a.OfClient) {idx : Nat}
    {side : ClientSide} (hzero : (st.ring idx).owner side = 0) : (st'.ring idx).owner side = 0 := by
  cases e with
  | @join h hd hp hfree hlt hopen =>
    by_cases hidx : idx = hd.ring
    · subst hidx
      have hside : side ≠ hd.side := fun he => by
        rw [← he, hzero] at hopen
        cases hopen
      simpa only [State.enter, State.setRing, Function.update_self, RingState.setOwner, Function.update_of_ne hside]
        using hzero
    · simpa only [State.enter, State.setRing, Function.update_of_ne hidx] using hzero
  | @write h hd w v =>
    by_cases hidx : idx = hd.ring
    · subst hidx
      simpa only [State.write, State.setRing, Function.update_self] using hzero
    · simpa only [State.write, State.setRing, Function.update_of_ne hidx] using hzero
  | @drop h hd =>
    have hword := st.setRing_owner (hd.ring, hd.side) (idx, side) 0
    change (((st.setRing hd.ring ((st.ring hd.ring).setOwner hd.side 0)).ring idx).owner side) = 0
    rw [hword, hzero, ite_self]
  | spawn | exit | refused => exact hzero
  | _ => exact ha.elim

private theorem Step.server {n : Nat} {st st' : State} {a : Act} (e : Step n st a st') (ha : a.OfClient) :
    st'.server = st.server := by
  cases e with
  | spawn | exit | refused | join | write | drop => rfl
  | _ => exact ha.elim

namespace Logged

variable {n idx success : Nat} {s s' : Logged} {a : Act} {ids cfgs : List RingConfig} {cfg : RingConfig}
  {p : RingState.Pc}

private theorem step_eq (e : s.step n a = some s') : Step n s.state a s'.state ∧ s'.log = s.stored a := by
  obtain ⟨st, hst, rfl⟩ := Option.map_eq_some_iff.1 e
  exact ⟨Step.of_eq hst, rfl⟩

private theorem stored_of_client (ha : a.OfClient) : s.stored a = s.log := by
  cases a with
  | spawn | exit | join | write | drop => rfl
  | _ => exact ha.elim

private theorem step_bringUpStep (hpc : s.state.server.pc = .bringUp (cfg :: cfgs) idx p success) :
    s.step n .bringUpStep = some
      ⟨{ s.state.setRing idx ((s.state.ring idx).bringUp cfg p).1 with
          server := s.state.server.bringUpNext n (cfg :: cfgs) idx success ((s.state.ring idx).bringUp cfg p).2 },
        Function.update s.log idx (s.log idx ++ (s.state.ring idx).stores cfg p)⟩ := by
  simp only [step, stored, Authority.step, hpc, Option.map_some]

private theorem bringing_client (h : Bringing n ids s s.state.server.pc) (ha : a.OfClient) (e : s.step n a = some s') :
    Bringing n ids s' s'.state.server.pc := by
  obtain ⟨e, hlog⟩ := step_eq e
  rw [stored_of_client ha] at hlog
  rw [e.server ha]
  revert h
  cases s.state.server.pc with
  | bringUp cfgs idx p success =>
    rintro ⟨hcfgs, hlt, hdone, cfg, hc, hdoing⟩
    rw [← hlog] at hdone hdoing
    exact ⟨hcfgs, hlt, hdone, cfg, hc, hdoing.mono fun side => e.zero ha⟩
  | idle =>
    rintro ⟨success, hlast, hall⟩
    exact ⟨success, by rw [e.server ha]; exact hlast, by rw [hlog]; exact hall⟩
  | _ => exact id

private theorem bringing_server (h : Bringing n ids s s.state.server.pc) (e : s.step n .bringUpStep = some s') :
    Bringing n ids s' s'.state.server.pc := by
  cases hpc : s.state.server.pc with
  | bringUp cfgs idx p success =>
    rw [hpc] at h
    obtain ⟨rfl, hlt, hdone, cfg, hc, hdoing⟩ := h
    obtain ⟨hidx, hget⟩ := List.getElem?_eq_some_iff.1 hc
    have hdrop : ids.drop idx = cfg :: ids.drop (idx + 1) := by rw [List.drop_eq_getElem_cons hidx, hget]
    rw [hdrop] at hpc
    rw [step_bringUpStep hpc] at e
    cases e
    have hfollows := hdoing.follows
    have hother := hdone.update (s.log idx ++ (s.state.ring idx).stores cfg p)
    have hring : (s.state.setRing idx ((s.state.ring idx).bringUp cfg p).1).ring idx =
        ((s.state.ring idx).bringUp cfg p).1 := Function.update_self ..
    revert hfollows
    cases ((s.state.ring idx).bringUp cfg p).2 with
    | goto p' =>
      intro hf
      refine ⟨hdrop.symm, hlt, hother, cfg, hc, ?_⟩
      simp only [hring, Function.update_self]
      exact hf
    | next done =>
      intro hf
      refine bringing_from (hother.next hlt hc hf) ?_
      rw [Function.update_of_ne (by omega)]
      exact hdone.later _ (by omega)
    | panicked => exact False.elim
  | _ =>
    simp only [step, Authority.step, hpc, Option.map_none] at e
    cases e

theorem bringing_of_run {st : State} {tr : List Act} (h : Run (step n) (start n st ids) tr s)
    (htr : ∀ a ∈ tr, a.OfClient ∨ a = .bringUpStep) : Bringing n ids s s.state.server.pc := by
  induction h with
  | nil => exact bringing_start n st ids
  | @snoc tr s s' a _ e ih =>
    have hb := ih fun a ha => htr a (List.mem_append_left _ ha)
    rcases htr a (by simp) with ha | rfl
    · exact bringing_client hb ha e
    · exact bringing_server hb e

end Logged

/-! ### Without clients -/

namespace RingState

/-- The ring is to be brought up: no client has a side, and at least one side is not open. -/
def Needs (ids : RingConfig) (r : RingState) : Prop :=
  Negative ids ∧ (∀ s, slotClass (r.owner s) ≠ .client) ∧ ∃ s, r.owner s = 0

def reopened (ids : RingConfig) (r : RingState) : RingState :=
  { r with owner := fun s => (ids.id s).toUInt32, head := RingHead.zero, generation := r.generation + 1 }

/-- The rest of the loop body, from here on to the next ring. -/
inductive Rounds (ids : RingConfig) : RingState → Pc → RingState → Bool → Prop
  | goto {r r₁ r' : RingState} {p p₁ : Pc} {done : Bool} (h : r.bringUp ids p = (r₁, .goto p₁))
      (hrest : Rounds ids r₁ p₁ r' done) : Rounds ids r p r' done
  | next {r r' : RingState} {p : Pc} {done : Bool} (h : r.bringUp ids p = (r', .next done)) : Rounds ids r p r' done

variable {ids : RingConfig} {r r' : RingState} {done : Bool}

theorem bringUp_takeLhs (h : slotClass (r.owner .left) ≠ .client) :
    r.bringUp ids .takeLhs = (r.setOwner .left 0, .goto .takeRhs) := by
  simp only [bringUp, ClientSlot.takeForServer_eq]
  cases hc : slotClass (r.owner .left) with
  | available => rfl
  | server => rw [slotClass_eq_server.1 hc]
  | client => exact absurd hc h

theorem bringUp_takeRhs (h : slotClass (r.owner .right) ≠ .client) :
    r.bringUp ids .takeRhs = (r.setOwner .right 0, .goto (.reset RingHead.reinitOrder)) := by
  simp only [bringUp, ClientSlot.takeForServer_eq]
  cases hc : slotClass (r.owner .right) with
  | available => rfl
  | server => rw [slotClass_eq_server.1 hc]
  | client => exact absurd hc h

theorem bringUp_reinitLhs (hneg : Negative ids) (h : r.owner .left = 0) :
    r.bringUp ids .reinitLhs = (r.setOwner .left ids.lhs.toUInt32, .goto .reinitRhs) := by
  simp only [bringUp, ClientSlot.reinit_eq (show (⟨ids.lhs⟩ : RingIdentifier).val < 0 from hneg.1),
    slotClass_eq_server.2 h]

theorem bringUp_reinitRhs (hneg : Negative ids) (h : r.owner .right = 0) :
    r.bringUp ids .reinitRhs = (r.setOwner .right ids.rhs.toUInt32, .next true) := by
  simp only [bringUp, ClientSlot.reinit_eq (show (⟨ids.rhs⟩ : RingIdentifier).val < 0 from hneg.2),
    slotClass_eq_server.2 h]

private theorem rounds_reset (ws : List HeadWord) (r : RingState)
    (h : Rounds ids { r with head := ws.foldl (fun h w => h.store w 0) r.head, generation := r.generation + 1 }
      .reinitLhs r' done) : Rounds ids r (.reset ws) r' done := by
  induction ws generalizing r with
  | nil => exact .goto rfl h
  | cons w ws ih => exact .goto rfl (ih { r with head := r.head.store w 0 } h)

private theorem rounds_of_needs (h : Needs ids r) : Rounds ids r .checkLhs (reopened ids r) true := by
  obtain ⟨hneg, hclient, s, hzero⟩ := h
  have hopen : slotClass (r.owner .right) = .server ∨
      slotClass (r.owner .right) = .available ∧ decide (slotClass (r.owner .left) = .available) = false := by
    cases hright : slotClass (r.owner .right) with
    | available =>
      have hs : s = .left := by
        cases s with
        | left => rfl
        | right => rw [hzero] at hright; cases hright
      subst hs
      exact .inr ⟨rfl, by rw [hzero]; decide⟩
    | server => exact .inl rfl
    | client => exact absurd hright (hclient .right)
  have hright : slotClass ((r.setOwner .left 0).owner .right) ≠ .client := by
    simpa only [setOwner, Function.update_of_ne (show ClientSide.right ≠ .left by decide)] using hclient .right
  refine .goto (by rw [bringUp_checkLhs, if_pos ⟨hneg, hclient .left⟩]) ?_
  refine .goto (by rw [bringUp_checkRhs, if_pos hopen]) ?_
  refine .goto (bringUp_takeLhs (hclient .left)) (.goto (bringUp_takeRhs hright) (rounds_reset _ _ ?_))
  refine .goto (bringUp_reinitLhs hneg ?_) ?_
  · simp [setOwner]
  · convert Rounds.next (bringUp_reinitRhs hneg ?_) using 1
    · rw [show RingHead.reinitOrder.foldl (fun h w => h.store w 0) _ = RingHead.zero from
        RingHead.reinitHoldingAsServer_eq _]
      simp only [reopened, setOwner, RingState.mk.injEq, and_true]
      funext s
      cases s <;> simp [RingConfig.id]
    · simp [setOwner]

private theorem rounds_of_not_needs (h : ¬ Needs ids r) : Rounds ids r .checkLhs r false := by
  by_cases hl : Negative ids ∧ slotClass (r.owner .left) ≠ .client
  · refine .goto (by rw [bringUp_checkLhs, if_pos hl]) (.next ?_)
    rw [bringUp_checkRhs, if_neg]
    have hclient : slotClass (r.owner .right) ≠ .client → ∀ s, slotClass (r.owner s) ≠ .client := by
      intro hr s
      cases s with
      | left => exact hl.2
      | right => exact hr
    rintro (hr | ⟨hr, ho⟩)
    · exact h ⟨hl.1, hclient (by rw [hr]; decide), .right, slotClass_eq_server.1 hr⟩
    · refine h ⟨hl.1, hclient (by rw [hr]; decide), .left, ?_⟩
      have hleft := of_decide_eq_false ho
      cases hc : slotClass (r.owner .left) with
      | available => exact absurd hc hleft
      | server => exact slotClass_eq_server.1 hc
      | client => exact absurd hc hl.2
  · exact .next (by rw [bringUp_checkLhs, if_neg hl])

end RingState

private theorem ServerState.bringUpFrom_pc (n : Nat) (sv : ServerState) (pc : ServerPc) (ids : List RingConfig)
    (idx success : Nat) : { sv with pc }.bringUpFrom n ids idx success = sv.bringUpFrom n ids idx success := by
  unfold bringUpFrom
  split <;> rfl

namespace Logged

open RingState (Rounds Doing Follows Needs reopened rounds_of_needs rounds_of_not_needs)

/-- The call leads from one state to another without a step of a client. -/
def Alone (n : Nat) (s s' : Logged) : Prop := ∃ m, Run (step n) s (List.replicate m .bringUpStep) s'

variable {n idx success : Nat} {s s₁ s' : Logged} {ids cfgs : List RingConfig} {cfg : RingConfig} {p : RingState.Pc}
  {r r' : RingState} {done : Bool}

private theorem Alone.refl (n : Nat) (s : Logged) : Alone n s s := ⟨0, .nil⟩

private theorem Alone.head (e : s.step n .bringUpStep = some s₁) (h : Alone n s₁ s') : Alone n s s' := by
  obtain ⟨m, h⟩ := h
  refine ⟨m + 1, run_iff_exec.2 ?_⟩
  rw [List.replicate_succ, exec, e]
  exact run_iff_exec.1 h

private theorem Alone.trans (h : Alone n s s₁) (h' : Alone n s₁ s') : Alone n s s' := by
  obtain ⟨m, h⟩ := h
  obtain ⟨m', h'⟩ := h'
  refine ⟨m + m', run_iff_exec.2 ?_⟩
  rw [← List.replicate_append_replicate, exec_append, run_iff_exec.1 h]
  exact run_iff_exec.1 h'

/-- The rest of the loop body, in the whole system. -/
private theorem alone_of_rounds (h : Rounds cfg r p r' done)
    (hpc : s.state.server.pc = .bringUp (cfg :: cfgs) idx p success)
    (hr : s.state.ring idx = r) (hd : Doing cfg r (s.log idx) p) :
    ∃ l, Follows cfg r' l (.next done) ∧ Alone n s
      ⟨{ s.state.setRing idx r' with
          server := s.state.server.bringUpFrom n cfgs (idx + 1) (success + done.toNat) },
        Function.update s.log idx l⟩ := by
  induction h generalizing s with
  | @goto r r₁ r' p p₁ done h hrest ih =>
    have hstep := step_bringUpStep (n := n) hpc
    have hf := hd.follows
    rw [hr, h] at hstep
    rw [h] at hf
    let s₁ : Logged :=
      ⟨{ s.state.setRing idx r₁ with
          server := { s.state.server with pc := .bringUp (cfg :: cfgs) idx p₁ success } },
        Function.update s.log idx (s.log idx ++ r.stores cfg p)⟩
    have hd₁ : Doing cfg r₁ (s₁.log idx) p₁ := by
      rw [show s₁.log idx = s.log idx ++ r.stores cfg p from Function.update_self ..]
      exact hf
    obtain ⟨l, hl, hrun⟩ := ih (s := s₁) rfl (Function.update_self ..) hd₁
    refine ⟨l, hl, .head hstep ?_⟩
    simp only [s₁, State.setRing, Function.update_idem, ServerState.bringUpFrom_pc] at hrun
    exact hrun
  | next h =>
    have hstep := step_bringUpStep (n := n) hpc
    have hf := hd.follows
    rw [hr, h] at hstep
    rw [h] at hf
    exact ⟨_, hf, .head hstep (.refl n _)⟩

/-- The ring is one of those from `idx` on that have a configuration and need it. -/
def Wanted (n idx : Nat) (cfgs : List RingConfig) (st : State) (i : Nat) (cfg : RingConfig) : Prop :=
  ∃ d, i = idx + d ∧ i < n ∧ cfgs[d]? = some cfg ∧ Needs cfg (st.ring i)

/-- The call has returned; from `idx` on, exactly the rings that need it were brought up. -/
structure Result (n idx : Nat) (cfgs : List RingConfig) (st : State) (log : Nat → List RingState.Store) (s : Logged) :
    Prop where
  idle : s.state.server.pc = .idle
  earlier : ∀ i < idx, s.state.ring i = st.ring i ∧ s.log i = log i
  wanted : ∀ i cfg, Wanted n idx cfgs st i cfg → s.state.ring i = reopened cfg (st.ring i) ∧ s.log i ≠ []
  other : ∀ i, idx ≤ i → (∀ cfg, ¬ Wanted n idx cfgs st i cfg) → s.state.ring i = st.ring i ∧ s.log i = []

variable {st : State} {log : Nat → List RingState.Store}

private theorem result_of_finished (hlog : ∀ i, idx ≤ i → log i = []) (h : ¬ (cfgs ≠ [] ∧ idx < n)) :
    Result n idx cfgs st log ⟨{ st with server := st.server.bringUpFrom n cfgs idx success }, log⟩ := by
  simp only [ServerState.bringUpFrom, if_neg h]
  refine ⟨rfl, fun _ _ => ⟨rfl, rfl⟩, fun i cfg hw => ?_, fun i hle _ => ⟨rfl, hlog i hle⟩⟩
  obtain ⟨d, rfl, hlt, hc, -⟩ := hw
  refine absurd ⟨fun he => ?_, by omega⟩ h
  rw [he] at hc
  cases hc

/-- One ring, and the rest. -/
private theorem Result.cons {l : List RingState.Store}
    (h : Result n (idx + 1) cfgs (st.setRing idx r) (Function.update log idx l) s)
    (hlt : idx < n) (hwanted : Needs cfg (st.ring idx) → r = reopened cfg (st.ring idx) ∧ l ≠ [])
    (hother : ¬ Needs cfg (st.ring idx) → r = st.ring idx ∧ l = []) : Result n idx (cfg :: cfgs) st log s := by
  have hself := h.earlier idx (Nat.lt_succ_self idx)
  simp only [State.setRing, Function.update_self] at hself
  have hring : ∀ i, i ≠ idx → (st.setRing idx r).ring i = st.ring i := fun i hne => Function.update_of_ne hne _ _
  have hlater : ∀ i c, idx < i →
      (Wanted n idx (cfg :: cfgs) st i c ↔ Wanted n (idx + 1) cfgs (st.setRing idx r) i c) := by
    intro i c hi
    simp only [Wanted, hring i (Nat.ne_of_gt hi)]
    constructor
    · rintro ⟨d, rfl, hn, hc, hneeds⟩
      obtain ⟨d, rfl⟩ : ∃ e, d = e + 1 := ⟨d - 1, by omega⟩
      exact ⟨d, by omega, hn, hc, hneeds⟩
    · rintro ⟨d, rfl, hn, hc, hneeds⟩
      exact ⟨d + 1, by omega, hn, hc, hneeds⟩
  refine ⟨h.idle, fun i hi => ?_, fun i c hw => ?_, fun i hle hw => ?_⟩
  · have he := h.earlier i (Nat.lt_succ_of_lt hi)
    rwa [hring i (Nat.ne_of_lt hi), Function.update_of_ne (Nat.ne_of_lt hi)] at he
  · rcases Nat.eq_or_lt_of_le (show idx ≤ i by obtain ⟨d, rfl, -⟩ := hw; omega) with rfl | hi
    · obtain ⟨d, hd, -, hc, hneeds⟩ := hw
      obtain rfl : d = 0 := by omega
      cases hc
      rw [hself.1, hself.2]
      exact hwanted hneeds
    · have hw' := h.wanted i c ((hlater i c hi).1 hw)
      rwa [hring i (Nat.ne_of_gt hi)] at hw'
  · rcases Nat.eq_or_lt_of_le hle with rfl | hi
    · rw [hself.1, hself.2]
      exact hother fun hneeds => hw cfg ⟨0, rfl, hlt, rfl, hneeds⟩
    · have ho := h.other i hi fun c hw' => hw c ((hlater i c hi).2 hw')
      rwa [hring i (Nat.ne_of_gt hi)] at ho

private theorem alone_from (n : Nat) (cfgs : List RingConfig) (st : State) (log : Nat → List RingState.Store)
    (idx success : Nat) (hlog : ∀ i, idx ≤ i → log i = []) :
    ∃ s, Alone n ⟨{ st with server := st.server.bringUpFrom n cfgs idx success }, log⟩ s ∧
      Result n idx cfgs st log s := by
  induction cfgs generalizing st log idx success with
  | nil => exact ⟨_, .refl n _, result_of_finished hlog fun h => h.1 rfl⟩
  | cons cfg cfgs ih =>
    by_cases hlt : idx < n
    · have hround : ∃ r done, Rounds cfg (st.ring idx) .checkLhs r done ∧
          (Needs cfg (st.ring idx) → r = reopened cfg (st.ring idx) ∧ done = true) ∧
            (¬ Needs cfg (st.ring idx) → r = st.ring idx ∧ done = false) := by
        by_cases hneeds : Needs cfg (st.ring idx)
        · exact ⟨_, _, rounds_of_needs hneeds, fun _ => ⟨rfl, rfl⟩, fun hn => absurd hneeds hn⟩
        · exact ⟨_, _, rounds_of_not_needs hneeds, fun hn => absurd hn hneeds, fun _ => ⟨rfl, rfl⟩⟩
      obtain ⟨r, done, hround, hyes, hno⟩ := hround
      have hfrom : st.server.bringUpFrom n (cfg :: cfgs) idx success =
          { st.server with pc := .bringUp (cfg :: cfgs) idx .checkLhs success } := if_pos ⟨by simp, hlt⟩
      let s₀ : Logged := ⟨{ st with server := st.server.bringUpFrom n (cfg :: cfgs) idx success }, log⟩
      have hpc : s₀.state.server.pc = .bringUp (cfg :: cfgs) idx .checkLhs success := congrArg ServerState.pc hfrom
      have hd : Doing cfg (st.ring idx) (s₀.log idx) .checkLhs := hlog idx (Nat.le_refl idx)
      obtain ⟨l, hl, hrun⟩ := alone_of_rounds (n := n) hround hpc rfl hd
      obtain ⟨s, hrest, hres⟩ := ih (st.setRing idx r) (Function.update log idx l) (idx + 1) (success + done.toNat)
        fun i hi => by rw [Function.update_of_ne (by omega)]; exact hlog i (by omega)
      refine ⟨s, hrun.trans ?_, hres.cons hlt (fun h => ?_) fun h => ?_⟩
      · simp only [s₀, hfrom, ServerState.bringUpFrom_pc]
        exact hrest
      · obtain ⟨rfl, rfl⟩ := hyes h
        exact ⟨rfl, RingState.BroughtUp.ne_nil hl⟩
      · obtain ⟨rfl, rfl⟩ := hno h
        exact ⟨rfl, hl⟩
    · exact ⟨_, .refl n _, result_of_finished hlog fun h => hlt h.2⟩

/-- The call has returned, and exactly the rings within the list that need it were brought up. -/
structure Completed (n : Nat) (ids : List RingConfig) (st : State) (s : Logged) : Prop where
  idle : s.state.server.pc = .idle
  wanted : ∀ idx cfg, idx < n → ids[idx]? = some cfg → Needs cfg (st.ring idx) →
    s.state.ring idx = reopened cfg (st.ring idx) ∧ s.log idx ≠ []
  other : ∀ idx, (∀ cfg, idx < n → ids[idx]? = some cfg → ¬ Needs cfg (st.ring idx)) →
    s.state.ring idx = st.ring idx ∧ s.log idx = []

private theorem alone_start (n : Nat) (st : State) (ids : List RingConfig) :
    ∃ s, Alone n (start n st ids) s ∧ Completed n ids st s := by
  obtain ⟨s, hrun, h⟩ := alone_from n ids st (fun _ => []) 0 0 fun _ _ => rfl
  refine ⟨s, hrun, h.idle, fun idx cfg hlt hc hneeds => ?_, fun idx hno => ?_⟩
  · exact h.wanted idx cfg ⟨idx, (Nat.zero_add idx).symm, hlt, hc, hneeds⟩
  · refine h.other idx (Nat.zero_le idx) fun cfg hw => ?_
    obtain ⟨d, hd, hlt, hc, hneeds⟩ := hw
    rw [Nat.zero_add] at hd
    subst hd
    exact hno cfg hlt hc hneeds

/-- A ring that was brought up does not need it again. -/
private theorem not_needs_reopened {cfg' : RingConfig} (h : Needs cfg r) : ¬ Needs cfg' (reopened cfg r) := by
  rintro ⟨-, -, s, hzero⟩
  have hclass : slotClass (cfg.id s).toUInt32 = .available := by
    have hneg : cfg.id s < 0 := by
      cases s with
      | left => exact h.1.1
      | right => exact h.1.2
    exact slotClass_eq_available.2 (toInt32_neg.1 (by simpa using hneg))
  rw [show (cfg.id s).toUInt32 = 0 from hzero] at hclass
  cases hclass

private theorem Completed.again (h : Completed n ids st s) (h' : Completed n ids s.state s') (idx : Nat) :
    s'.state.ring idx = s.state.ring idx ∧ s'.log idx = [] := by
  refine h'.other idx fun cfg hlt hc => ?_
  by_cases hneeds : Needs cfg (st.ring idx)
  · rw [(h.wanted idx cfg hlt hc hneeds).1]
    exact not_needs_reopened hneeds
  · have hother : ∀ cfg', idx < n → ids[idx]? = some cfg' → ¬ Needs cfg' (st.ring idx) := by
      intro cfg' _ hc'
      rw [hc] at hc'
      cases hc'
      exact hneeds
    rw [(h.other idx hother).1]
    exact hneeds

end Logged

/-- What is promised of a call of `bring_up` in a state. -/
structure BringsUp (n : Nat) (ids : List RingConfig) (st : State) : Prop where
  /-- Whatever clients do meanwhile, the call does not panic, and when it returns each ring was left alone or brought
  up, and the number of the latter is returned. -/
  interleaved : ∀ tr s, Run (Logged.step n) (Logged.start n st ids) tr s → (∀ a ∈ tr, a.OfClient ∨ a = .bringUpStep) →
    s.state.server.pc ≠ .stopped ∧ (s.state.server.pc = .idle →
      ∃ success, s.state.server.last = some (.bringUp success) ∧ AllOrNothing n ids s.log success)
  /-- Without clients, the call returns, exactly the rings that need it were brought up, and a second call changes
  nothing. -/
  alone : ∃ s, Logged.Alone n (Logged.start n st ids) s ∧ Logged.Completed n ids st s ∧
    ∃ s', Logged.Alone n (Logged.start n s.state ids) s' ∧ s'.state.server.pc = .idle ∧
      s'.state.server.last = some (.bringUp 0) ∧ s'.state.ring = s.state.ring ∧ s'.log = fun _ => []

/-- Every call of `bring_up`, on rings in any state, brings each ring up completely or leaves it alone. -/
theorem bringsUp (n : Nat) (ids : List RingConfig) (st : State) : BringsUp n ids st where
  interleaved tr s h htr := by
    have hb := Logged.bringing_of_run h htr
    refine ⟨fun hpc => ?_, fun hpc => ?_⟩
    · rw [hpc] at hb
      exact hb
    · rw [hpc] at hb
      exact hb
  alone := by
    obtain ⟨s, hrun, h⟩ := Logged.alone_start n st ids
    obtain ⟨s', hrun', h'⟩ := Logged.alone_start n s.state ids
    have hagain := h.again h'
    have hlog : s'.log = fun _ => [] := funext fun idx => (hagain idx).2
    refine ⟨s, hrun, h, s', hrun', h'.idle, ?_, funext fun idx => (hagain idx).1, hlog⟩
    obtain ⟨m, hrun'⟩ := hrun'
    have hb := Logged.bringing_of_run hrun' fun a ha => .inr (List.eq_of_mem_replicate ha)
    rw [h'.idle] at hb
    obtain ⟨success, hlast, hall⟩ := hb
    have hzero : success = 0 := by
      rw [hall.count, hlog, storedTo_of_nil (Nat.zero_le n) fun _ _ => rfl]
      rfl
    rw [hlast, hzero]

end Authority

end ShmRing
