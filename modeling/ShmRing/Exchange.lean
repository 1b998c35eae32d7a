import ShmRing.Delivery
import ShmRing.Sessions

/-!
# What the sessions exchange

The server, the clients and their entries in one system.  A client that has joined a ring opens producers and consumers
on it, with the steps of `Duplex`.  They store to the counters in the head, which the server resets when it brings the
ring up again; the slots are never reset, and keep what earlier clients have left in them.

Between two resets a ring is one of `Duplex`, joined on both sides with the counters at zero, whatever the server and
the clients of other rings do in the meantime, and wherever the clients of this one stop (`conversations_of_run`).
So what is shown there of a single ring holds of each session: nothing is yielded in it that was not pushed in it.
-/

namespace ShmRing

open Machine Transition

/-- The words that producers and consumers store to. -/
def HeadWord.isCounter : HeadWord → Bool
  | .producer _ => true
  | .consumer _ => true
  | _ => false

def Duplex.Handle.isClosed {E : Type} : Duplex.Handle E → Bool
  | .closed => true
  | _ => false

/-- The counter that a step of a handle stores to. -/
def Duplex.Event.store {E : Type} : Duplex.Event E → Option HeadWord
  | .produce s .syncStore => some (.producer s)
  | .consume s .syncStore => some (.consumer s)
  | _ => none

def Duplex.Event.side {E : Type} : Duplex.Event E → ClientSide
  | .produce s _ => s
  | .consume s _ => s

namespace Exchange

/-- The records of the rings, as the clients find them. -/
structure Setup where
  build : Build
  info : Nat → RingInfo

/-- The handles on a ring, which are for entries of the size that its record says. -/
def Setup.ctx (x : Setup) (E : Type) (idx : Nat) : Duplex.Ctx (RingHead × (Nat → E)) E where
  build := x.build
  info := x.info idx
  entry := (x.info idx).sizeSlotEntry.toNat
  port := LawfulPort.plain E ((x.info idx).sizeRing.toNat / (x.info idx).sizeSlotEntry.toNat)
  len_eq := rfl

/-- The records are those of a server that has accepted the configurations. -/
def Setup.Accepted (x : Setup) (cfgs : List RingConfig) : Prop :=
  ∃ (b : Build) (infos : List RingInfo) (range : Server.Range),
    infos.length = cfgs.length ∧ (Server.offsets b infos cfgs range).1 = .ok () ∧
      ∀ idx < cfgs.length, (Server.offsets b infos cfgs range).2[idx]? = some (x.info idx)

/-- The rings and their owners, the slots of each ring, and the producer or consumer that is open on a joined ring.
What the handles have done is recorded, by ring and generation, with the number of the joined ring that they were
opened on. -/
structure State (E : Type) where
  sys : Authority.State
  slots : Nat → Nat → E
  handle : Nat → Duplex.Handle E
  log : Nat → Nat → List (Nat × Duplex.Event E)

inductive Act (E : Type)
  | sys (a : Authority.Act)
  | produce (h : Nat) (a : Duplex.ProduceAct E)
  | consume (h : Nat) (a : Duplex.ConsumeAct E)
  deriving DecidableEq, Repr

variable {E : Type}

namespace State

def memory (st : State E) (idx : Nat) : RingHead × (Nat → E) := ((st.sys.ring idx).head, st.slots idx)

/-- What was done in a session. -/
def events (st : State E) (idx g : Nat) : List (Duplex.Event E) := (st.log idx g).map Prod.snd

/-- Whether a step that has nothing to do with entries may be taken.  Only handles store to the counters, and a ring is
not dropped while a handle borrows it. -/
def permits (st : State E) : Authority.Act → Bool
  | .write _ w _ => !w.isCounter
  | .drop h => (st.handle h).isClosed
  | _ => true

/-- A handle has taken a step. -/
def put (st : State E) (h : Nat) (hd : Authority.Handle) (e : Duplex.Event E)
    (r : Duplex.Handle E × (RingHead × (Nat → E))) : State E where
  sys :=
    match e.store with
    | some w => st.sys.write h hd w (r.2.1.load w)
    | none => st.sys
  slots := Function.update st.slots hd.ring r.2.2
  handle := Function.update st.handle h r.1
  log := Function.update st.log hd.ring
    (Function.update (st.log hd.ring) hd.generation (st.log hd.ring hd.generation ++ [(h, e)]))

end State

section Steps

variable [DecidableEq E]

def step (x : Setup) (n : Nat) (st : State E) : Act E → Option (State E)
  | .sys a => if st.permits a then (Authority.step n st.sys a).map fun sys => { st with sys } else none
  | .produce h a =>
    match st.sys.clients.handle h with
    | some hd =>
      if st.sys.clients.Live hd then
        (Duplex.produceStep (x.ctx E hd.ring) hd.side (st.handle h) (st.memory hd.ring) a).map
          (st.put h hd (.produce hd.side a))
      else none
    | none => none
  | .consume h a =>
    match st.sys.clients.handle h with
    | some hd =>
      if st.sys.clients.Live hd then
        (Duplex.consumeStep (x.ctx E hd.ring) hd.side (st.handle h) (st.memory hd.ring) a).map
          (st.put h hd (.consume hd.side a))
      else none
    | none => none

end Steps

/-- A server that was started on zeroed memory, before there is any client; the slots may hold anything. -/
def init (cfgs : List RingConfig) (slots : Nat → Nat → E) : State E where
  sys := Authority.init cfgs
  slots
  handle := fun _ => .closed
  log := fun _ _ => []

end Exchange

/-! ### What is left of a session -/

namespace Authority

variable {n : Nat} {st st' : State} {a : Act}

/-- A handle stays, but may be dropped. -/
private theorem Step.handle_kept (e : Step n st a st') {k : Nat} {hd : Handle} (hk : st.clients.handle k = some hd) :
    ∃ dropped, st'.clients.handle k = some { hd with dropped } := by
  cases e with
  | @join k' hd' _ hfree =>
    have hne : k ≠ k' := fun he => by rw [he, hfree] at hk; cases hk
    exact ⟨hd.dropped, (Clients.put_of_ne st.clients hd' hne).trans hk⟩
  | @drop k' hd' hk' =>
    by_cases he : k = k'
    · subst he
      obtain rfl : hd = hd' := Option.some.inj (hk.symm.trans hk')
      exact ⟨true, Clients.put_self ..⟩
    · exact ⟨hd.dropped, (Clients.put_of_ne st.clients _ he).trans hk⟩
  | _ => exact ⟨hd.dropped, hk⟩

/-- A handle that is new is of a slot that was open. -/
private theorem Step.handle_new (e : Step n st a st') {k : Nat} {hd' : Handle} (hk : st'.clients.handle k = some hd') :
    (∃ dropped, st.clients.handle k = some { hd' with dropped }) ∨
      st.clients.handle k = none ∧ hd'.ring < n ∧ slotClass ((st.ring hd'.ring).owner hd'.side) = .available := by
  cases e with
  | join _ hfree hlt hopen =>
    rcases Clients.put_eq_some hk with ⟨rfl, rfl⟩ | ⟨-, hk⟩
    · exact .inr ⟨hfree, hlt, hopen⟩
    · exact .inl ⟨hd'.dropped, hk⟩
  | drop hk' =>
    rcases Clients.put_eq_some hk with ⟨rfl, rfl⟩ | ⟨-, hk⟩
    · exact .inl ⟨_, hk'⟩
    · exact .inl ⟨hd'.dropped, hk⟩
  | _ => exact .inl ⟨hd'.dropped, hk⟩

/-- The session of a ring goes on, with its counters as they were, or the server resets them. -/
structure Continues (idx : Nat) (st st' : State) : Prop where
  generation : (st'.ring idx).generation = (st.ring idx).generation
  pc : resets (st.server.pc.ringPc idx) = true → resets (st'.server.pc.ringPc idx) = true
  load : resets (st'.server.pc.ringPc idx) = false → ∀ w, w.isCounter = true →
    (st'.ring idx).head.load w = (st.ring idx).head.load w

/-- A session of a ring begins. -/
structure Begins (idx : Nat) (st st' : State) : Prop where
  generation : (st'.ring idx).generation = (st.ring idx).generation + 1
  unused : ∀ s, Unused st'.clients idx (st'.ring idx) s
  load : ∀ s w, w.side = some s → (st'.ring idx).head.load w = 0

/-- Nothing is stored to the counters, and the server does not stop to reset this ring. -/
private theorem Continues.of_update {idx i : Nat} {r : RingState} (hring : st'.ring = Function.update st.ring i r)
    (hgen : r.generation = (st.ring i).generation)
    (hload : ∀ w, w.isCounter = true → r.head.load w = (st.ring i).head.load w)
    (hpc : resets (st.server.pc.ringPc idx) = true → resets (st'.server.pc.ringPc idx) = true) :
    Continues idx st st' := by
  by_cases hi : idx = i
  · subst hi
    have hr : st'.ring idx = r := by rw [hring, Function.update_self]
    exact ⟨by rw [hr, hgen], hpc, fun _ w hw => by rw [hr, hload w hw]⟩
  · have hr : st'.ring idx = st.ring idx := by rw [hring, Function.update_of_ne hi]
    exact ⟨by rw [hr], hpc, fun _ _ _ => by rw [hr]⟩

/-- Only the stores of `reinit_holding_as_server` change a head in `bring_up`. -/
private theorem RingState.bringUp_head (r : RingState) (cfg : RingConfig) {p : RingState.Pc}
    (hp : resets (some p) = false) :
    (r.bringUp cfg p).1.head = r.head ∧ (r.bringUp cfg p).1.generation = r.generation := by
  cases p with
  | reset => cases hp
  | takeLhs | takeRhs => exact ⟨rfl, rfl⟩
  | _ =>
    simp only [RingState.bringUp]
    repeat' split
    all_goals exact ⟨rfl, rfl⟩

/-- A step of `bring_up` resets a counter, or begins a session after the last of them, or does neither. -/
private theorem session_bringUpStep (e : step n st .bringUpStep = some st') (hkept : Kept st') (hs : Sessional st')
    (idx : Nat) : Continues idx st st' ∨ Begins idx st st' := by
  obtain ⟨cfg, ids, i, p, success, hpc, rfl⟩ := step_bringUpStep e
  by_cases hi : idx = i
  · subst hi
    have hpc' : st.server.pc.ringPc idx = some p := by rw [hpc, ServerPc.ringPc, if_pos rfl]
    cases hr : resets (some p) with
    | false =>
      obtain ⟨hhead, hgen⟩ := RingState.bringUp_head (st.ring idx) cfg hr
      refine .inl (.of_update rfl hgen (fun _ _ => by rw [hhead]) fun h => ?_)
      rw [hpc', hr] at h
      cases h
    | true =>
      cases p with
      | reset ws =>
        cases ws with
        | nil =>
          have hring := hkept.ring idx
          have hpaired := hs idx
          simp only [ServerState.bringUpNext, RingState.bringUp, ServerPc.ringPc, if_true] at hring hpaired
          refine .inr ⟨?_, hpaired.single.turning.2, hring.held.2⟩
          simp only [State.setRing, Function.update_self, RingState.bringUp]
        | cons w ws =>
          refine .inl ⟨?_, fun _ => ?_, fun h => ?_⟩
          · simp only [State.setRing, Function.update_self, RingState.bringUp]
          · simp only [ServerState.bringUpNext, RingState.bringUp, ServerPc.ringPc, if_true, resets]
          · simp only [ServerState.bringUpNext, RingState.bringUp, ServerPc.ringPc, if_true, resets] at h
            cases h
      | _ => cases hr
  -- the server is in another ring
  · have hne : ((st.setRing i ((st.ring i).bringUp cfg p).1).ring idx) = st.ring idx := Function.update_of_ne hi ..
    refine .inl ⟨by rw [hne], fun h => ?_, fun _ _ _ => by rw [hne]⟩
    rw [hpc, ServerPc.ringPc, if_neg (Ne.symm hi)] at h
    cases h

/-- While the server resets a head, nobody has the ring. -/
private theorem RingOk.not_resets {cl : Clients} {idx : Nat} {r : RingState} {p : Option RingState.Pc}
    (h : RingOk cl idx r p) (hcl : cl.Ok) {k : Nat} {hd : Handle} (hk : cl.handle k = some hd) (hidx : hd.ring = idx)
    (hlive : cl.Live hd) :
    resets p = false := by
  have hheld := h.held
  cases p with
  | none => rfl
  | some p =>
    cases p with
    | reset ws => exact absurd hlive (h.not_live hcl (by rw [hheld.1]; decide) hk hidx rfl)
    | _ => rfl

/-- A step of the system without entries: the session of a ring goes on, or the next one begins. -/
private theorem session_step (h : step n st a = some st') (hkept : Kept st') (hs : Sessional st')
    (ha : ∀ k w v, a = .write k w v → w.isCounter = false) (idx : Nat) :
    Continues idx st st' ∨ Begins idx st st' := by
  by_cases he : a = .bringUpStep
  · subst he
    exact session_bringUpStep h hkept hs idx
  refine .inl ?_
  have hidle : ∀ {pc : ServerPc}, st.server.pc = pc → pc.ringPc idx = none →
      resets (st.server.pc.ringPc idx) = true → resets (st'.server.pc.ringPc idx) = true := by
    intro pc hpc hnone hr
    rw [hpc, hnone] at hr
    cases hr
  cases Step.of_eq h with
  | spawn | exit | refused => exact ⟨rfl, id, fun _ _ _ => rfl⟩
  | join | drop => exact .of_update rfl rfl (fun _ _ => rfl) id
  | @write k _ w v =>
    refine .of_update rfl rfl (fun w' hw' => RingHead.load_store_of_ne _ (fun hw => ?_) v) id
    rw [hw, ha k w v rfl] at hw'
    cases hw'
  | leave hpc => exact .of_update rfl rfl (fun _ _ => rfl) (hidle hpc rfl)
  | bringUpStep => exact absurd rfl he
  | reapUntracked hpc | reapTracked hpc | reapPanics hpc | leavePanics hpc | stay hpc | trackClients hpc | inspect hpc
  | skip hpc | trackAgain hpc | trackNew hpc | trackFails hpc | bringUp hpc =>
    exact ⟨rfl, hidle hpc rfl, fun _ _ _ => rfl⟩

end Authority

/-! ### Handles on a head that others write to -/

namespace Duplex

variable {M E : Type} {x : Ctx M E} {s : ClientSide} {hnd hnd' : Handle E} {m m' m₁ : M}

/-- Handles cannot tell these apart. -/
structure Same (x : Ctx M E) (m m' : M) : Prop where
  load : ∀ w, w.isCounter = true → x.port.load w m' = x.port.load w m
  get : ∀ i < x.port.len, x.port.get i m' = x.port.get i m

private theorem Same.symm (h : Same x m m') : Same x m' m :=
  ⟨fun w hw => (h.load w hw).symm, fun i hi => (h.get i hi).symm⟩

private theorem Same.producer (h : Same x m m') (s : ClientSide) :
    x.port.load (.producer s) m' = x.port.load (.producer s) m := h.load _ rfl

private theorem Same.consumer (h : Same x m m') (s : ClientSide) :
    x.port.load (.consumer s) m' = x.port.load (.consumer s) m := h.load _ rfl

private theorem Same.store (h : Same x m m') (w : HeadWord) (v : UInt32) :
    Same x (x.port.store w v m) (x.port.store w v m') where
  load w' hw' := by rw [x.port.load_store, x.port.load_store, h.load w' hw']
  get i hi := by rw [x.port.get_store _ _ _ _ hi, x.port.get_store _ _ _ _ hi, h.get i hi]

private theorem Same.set (h : Same x m m') {i : Nat} (hi : i < x.port.len) (data : E) :
    Same x (x.port.set i data m) (x.port.set i data m') where
  load w hw := by rw [x.port.load_set _ _ _ _ hi, x.port.load_set _ _ _ _ hi, h.load w hw]
  get j hj := by rw [x.port.get_set _ _ _ _ hi hj, x.port.get_set _ _ _ _ hi hj, h.get j hj]

private theorem ProduceStep.same {a : ProduceAct E} (h : ProduceStep x s hnd m a hnd' m₁) (hm : Same x m m') :
    ∃ m₁', ProduceStep x s hnd m' a hnd' m₁' ∧ Same x m₁ m₁' := by
  cases h with
  | new hp =>
    refine ⟨m', .new ?_, hm⟩
    rw [← hp]
    simp only [Producer.new, hm.producer, hm.consumer]
  | pushMany => exact ⟨m', .pushMany, hm⟩
  | draw hlt => exact ⟨m', .draw hlt, hm⟩
  | write hlt => exact ⟨_, .write hlt, hm.set hlt _⟩
  | pushed => exact ⟨m', .pushed, hm⟩
  | unwind hlt => exact ⟨m', .unwind hlt, hm⟩
  | @syncLoad _ p =>
    have hload : p.syncLoad x.port.toPort m' = p.syncLoad x.port.toPort m := by
      simp only [Producer.syncLoad, Producer.tailWord, hm.consumer]
    exact ⟨m', hload ▸ .syncLoad, hm⟩
  | syncStore => exact ⟨_, .syncStore, hm.store _ _⟩
  | drop => exact ⟨m', .drop, hm⟩

private theorem ConsumeStep.same {a : ConsumeAct E} (h : ConsumeStep x s hnd m a hnd' m₁) (hm : Same x m m') :
    ∃ m₁', ConsumeStep x s hnd m' a hnd' m₁' ∧ Same x m₁ m₁' := by
  cases h with
  | new hc =>
    refine ⟨m', .new ?_, hm⟩
    rw [← hc]
    simp only [Consumer.new, hm.producer, hm.consumer]
  | iter => exact ⟨m', .iter, hm⟩
  | next hlt hlen => exact ⟨m', hm.get _ hlen ▸ .next hlt hlen, hm⟩
  | dropIter => exact ⟨m', .dropIter, hm⟩
  | @syncLoad _ c =>
    have hload : c.syncLoad x.port.toPort m' = c.syncLoad x.port.toPort m := by
      simp only [Consumer.syncLoad, Consumer.headWord, hm.producer]
    exact ⟨m', hload ▸ .syncLoad, hm⟩
  | syncStore => exact ⟨_, .syncStore, hm.store _ _⟩
  | drop => exact ⟨m', .drop, hm⟩

/-- A run goes on with a step of a consumer. -/
private theorem ConsumeStep.run [DecidableEq E] {st₀ st : State M E} {tr : List (Event E)} {a : ConsumeAct E}
    (e : ConsumeStep x s hnd st.mem a hnd' m') (hrun : Run (step x) st₀ tr st) (hh : st.handle s = hnd) :
    ∃ st', Run (step x) st₀ (tr ++ [.consume s a]) st' ∧ st'.handle s = hnd' ∧ st'.handle s.not = st.handle s.not ∧
      st'.mem = m' := by
  have heq : consumeStep x s hnd st.mem a = some (hnd', m') := by
    cases e with
    | new hc => simp only [consumeStep, hc]
    | next hlt hlen => simp only [consumeStep, Consumer.iterNext, hlt, hlen, if_true]
    | _ => rfl
  refine ⟨st.put s (hnd', m'), hrun.snoc ?_, if_pos rfl, if_neg (by simp), rfl⟩
  simp only [step, hh, heq, Option.map_some]

end Duplex

namespace Exchange

variable {E : Type} {x : Setup} {n : Nat} {st : State E} {idx : Nat}

/-! ### The sessions -/

/-- `D` is what the handles of the current session make of the ring. -/
structure Attached (x : Setup) (st : State E) (idx : Nat) (D : Duplex.State (RingHead × (Nat → E)) E) : Prop where
  load : Authority.resets (st.sys.server.pc.ringPc idx) = false → ∀ w, w.isCounter = true →
    (st.sys.ring idx).head.load w = D.mem.1.load w
  get : ∀ i < (x.ctx E idx).port.len, st.slots idx i = D.mem.2 i
  opened : ∀ k hd, st.sys.clients.handle k = some hd → hd.ring = idx →
    hd.generation = (st.sys.ring idx).generation → D.handle hd.side = st.handle k
  unused : ∀ s, Authority.Unused st.sys.clients idx (st.sys.ring idx) s → D.handle s = .closed

private theorem Attached.same {D : Duplex.State (RingHead × (Nat → E)) E} (h : Attached x st idx D)
    (hr : Authority.resets (st.sys.server.pc.ringPc idx) = false) :
    Duplex.Same (x.ctx E idx) D.mem (st.memory idx) :=
  ⟨h.load hr, h.get⟩

/-- A step of a handle changes the head of its ring in the counter that it stores to, if at all. -/
def Stores (e : Duplex.Event E) (head head' : RingHead) : Prop :=
  match e.store with
  | some w => head' = head.store w (head'.load w)
  | none => head' = head

private theorem stores_produce {s : ClientSide} {hnd hnd' : Duplex.Handle E} {m m' : RingHead × (Nat → E)}
    {a : Duplex.ProduceAct E} (h : Duplex.ProduceStep (x.ctx E idx) s hnd m a hnd' m')
    (hside : ∀ p pc, hnd = .producer p pc → p.side = s) : Stores (.produce s a) m.1 m'.1 := by
  cases h with
  | @syncStore _ p =>
    obtain rfl := hside p _ rfl
    have hload := m.1.load_store_self (.producer p.side) (UInt32.ofNat p.cachedHead)
    exact congrArg (m.1.store (.producer p.side)) hload.symm
  | _ => rfl

private theorem stores_consume {s : ClientSide} {hnd hnd' : Duplex.Handle E} {m m' : RingHead × (Nat → E)}
    {a : Duplex.ConsumeAct E} (h : Duplex.ConsumeStep (x.ctx E idx) s hnd m a hnd' m')
    (hside : ∀ c pc, hnd = .consumer c pc → c.side = s) : Stores (.consume s a) m.1 m'.1 := by
  cases h with
  | @syncStore _ c =>
    obtain rfl := hside c _ rfl
    have hload := m.1.load_store_self (.consumer c.side) (UInt32.ofNat c.cachedTail)
    exact congrArg (m.1.store (.consumer c.side)) hload.symm
  | _ => rfl

namespace State

variable {k : Nat} {hd : Authority.Handle} {e : Duplex.Event E} {r : Duplex.Handle E × (RingHead × (Nat → E))}

@[simp] theorem put_clients : (st.put k hd e r).sys.clients = st.sys.clients := by
  unfold put
  cases e.store <;> rfl

@[simp] theorem put_server : (st.put k hd e r).sys.server = st.sys.server := by
  unfold put
  cases e.store <;> rfl

private theorem put_ring_of_ne (h : idx ≠ hd.ring) : (st.put k hd e r).sys.ring idx = st.sys.ring idx := by
  unfold put
  cases e.store with
  | none => rfl
  | some w => exact Function.update_of_ne h ..

@[simp] theorem put_generation : ((st.put k hd e r).sys.ring idx).generation = (st.sys.ring idx).generation := by
  by_cases h : idx = hd.ring
  · subst h
    unfold put
    cases e.store with
    | none => rfl
    | some w => simp only [Authority.State.write, Authority.State.setRing, Function.update_self]
  · rw [put_ring_of_ne h]

private theorem put_memory (h : Stores e (st.memory hd.ring).1 r.2.1) : (st.put k hd e r).memory hd.ring = r.2 := by
  unfold Stores at h
  refine Prod.ext ?_ (Function.update_self ..)
  simp only [memory, put]
  cases he : e.store with
  | none =>
    rw [he] at h
    exact h.symm
  | some w =>
    rw [he] at h
    simp only [Authority.State.write, Authority.State.setRing, Function.update_self]
    exact h.symm

private theorem put_log_self :
    (st.put k hd e r).log hd.ring hd.generation = st.log hd.ring hd.generation ++ [(k, e)] := by
  simp only [put, Function.update_self]

private theorem put_log_of_ne {g : Nat} (h : ¬ (idx = hd.ring ∧ g = hd.generation)) :
    (st.put k hd e r).log idx g = st.log idx g := by
  by_cases hi : idx = hd.ring
  · subst hi
    have hg : g ≠ hd.generation := fun hg => h ⟨rfl, hg⟩
    simp only [put, Function.update_self, Function.update_of_ne hg]
  · simp only [put, Function.update_of_ne hi]

/-- The store of a handle is one that its client may make. -/
private theorem put_step (hh : st.sys.clients.handle k = some hd) (hlive : st.sys.clients.Live hd)
    (hside : e.side = hd.side) : (st.put k hd e r).sys = st.sys ∨
      ∃ w v, Authority.Step n st.sys (.write k w v) (st.put k hd e r).sys := by
  unfold put
  cases he : e.store with
  | none => exact .inl rfl
  | some w =>
    refine .inr ⟨w, r.2.1.load w, .write hh hlive fun s hs => ?_⟩
    rw [← hside]
    cases e with
    | produce t a => cases a <;> cases he; cases hs; rfl
    | consume t a => cases a <;> cases he; cases hs; rfl

end State

/-- The other rings stay as they are. -/
private theorem Attached.put_of_ne {k : Nat} {hd : Authority.Handle} {e : Duplex.Event E}
    {r : Duplex.Handle E × (RingHead × (Nat → E))} {D : Duplex.State (RingHead × (Nat → E)) E}
    (h : Attached x st idx D) (hh : st.sys.clients.handle k = some hd) (hne : idx ≠ hd.ring) :
    Attached x (st.put k hd e r) idx D where
  load hr := by
    rw [State.put_server] at hr
    rw [State.put_ring_of_ne hne]
    exact h.load hr
  get := by
    rw [show (st.put k hd e r).slots idx = st.slots idx from Function.update_of_ne hne ..]
    exact h.get
  opened k' hd' hk hidx hgen := by
    rw [State.put_clients] at hk
    rw [State.put_generation] at hgen
    have hk' : k' ≠ k := by
      rintro rfl
      rw [hh] at hk
      cases hk
      exact hne hidx.symm
    exact (h.opened k' hd' hk hidx hgen).trans (Function.update_of_ne hk' ..).symm
  unused s hs := by
    rw [State.put_clients, State.put_ring_of_ne hne] at hs
    exact h.unused s hs

section Runs

variable [DecidableEq E]

/-- No process id is used again while it is tracked. -/
def NotReused (st : State E) (a : Act E) : Prop := ∀ b, a = .sys b → Authority.NotReused st.sys b

/-- What was done in a session is a run of a ring joined on both sides. -/
def Session (x : Setup) (st : State E) (idx g : Nat) : Prop :=
  ∃ m D, Duplex.Reset (x.ctx E idx) m ∧ Run (Duplex.step (x.ctx E idx)) (Duplex.init m) (st.events idx g) D ∧
    (g = (st.sys.ring idx).generation → Attached x st idx D)

structure Exchanged (n : Nat) (x : Setup) (st : State E) : Prop where
  kept : Authority.Kept st.sys
  sessional : Authority.Sessional st.sys
  ring_lt : ∀ k hd, st.sys.clients.handle k = some hd → hd.ring < n
  fresh : ∀ k, st.sys.clients.handle k = none → st.handle k = .closed
  joined : ∀ idx g k e, (k, e) ∈ st.log idx g → ∃ hd, st.sys.clients.handle k = some hd ∧ hd.ring = idx ∧
    hd.side = e.side ∧ hd.generation = g
  session : ∀ idx g, Session x st idx g

private theorem exchanged_init (cfgs : List RingConfig) (slots : Nat → Nat → E) : Exchanged n x (init cfgs slots) where
  kept := Authority.kept_init cfgs
  sessional := Authority.sessional_init cfgs
  ring_lt _ _ hk := by cases hk
  fresh _ _ := rfl
  joined _ _ _ _ he := by cases he
  session idx g := by
    refine ⟨(init cfgs slots).memory idx, Duplex.init _, fun s => ?_, .nil,
      fun _ => ⟨fun _ _ _ => rfl, fun _ _ => rfl, ?_, ?_⟩⟩
    · exact ⟨RingHead.load_zero (.producer s), RingHead.load_zero (.consumer s)⟩
    · intro k hd hk
      cases hk
    · exact fun _ _ => rfl

namespace Exchanged

/-- Nothing was done yet in a session to come. -/
private theorem events_eq_nil (h : Exchanged n x st) {g : Nat} (hg : (st.sys.ring idx).generation < g) :
    st.events idx g = [] := by
  cases hl : st.log idx g with
  | nil => rw [State.events, hl]; rfl
  | cons p l =>
    obtain ⟨hd, hk, hidx, -, hgen⟩ := h.joined idx g p.1 p.2 (by rw [hl]; exact List.mem_cons_self ..)
    have hle := (h.sessional idx).single.generation_le _ hd hk hidx
    omega

/-- The session goes on, and a client that joins has no handle open. -/
private theorem continues {a : Authority.Act} {sys' : Authority.State} (h : Exchanged n x st)
    (e : Authority.Step n st.sys a sys') (hc : Authority.Continues idx st.sys sys')
    {D : Duplex.State (RingHead × (Nat → E)) E} (hD : Attached x st idx D) :
    Attached x { st with sys := sys' } idx D where
  load hr w hw := by
    have hr' : Authority.resets (st.sys.server.pc.ringPc idx) = false := by
      by_contra hne
      rw [hc.pc (by simpa using hne)] at hr
      cases hr
    exact (hc.load hr w hw).trans (hD.load hr' w hw)
  get := hD.get
  opened k hd hk hidx hgen := by
    rcases e.handle_new hk with ⟨dropped, hk'⟩ | ⟨hfree, -, hopen⟩
    · exact hD.opened k { hd with dropped } hk' hidx (hgen.trans hc.generation)
    · subst hidx
      rw [h.fresh k hfree]
      exact hD.unused _ ((h.sessional hd.ring).single.unused _ hopen)
  unused s hs := by
    refine hD.unused s fun k hd hk hidx hside => ?_
    obtain ⟨dropped, hk'⟩ := e.handle_kept hk
    rw [← hc.generation]
    exact hs k { hd with dropped } hk' hidx hside

/-- A session begins, with the counters reset and nothing done. -/
private theorem begins {sys' : Authority.State} (h : Exchanged n x st) (hb : Authority.Begins idx st.sys sys') :
    Session x { st with sys := sys' } idx (sys'.ring idx).generation := by
  have hnil : st.events idx (sys'.ring idx).generation = [] :=
    h.events_eq_nil (by rw [hb.generation]; exact Nat.lt_succ_self _)
  refine ⟨((sys'.ring idx).head, st.slots idx), Duplex.init ((sys'.ring idx).head, st.slots idx), fun s => ?_, ?_,
    fun _ => ⟨fun _ _ _ => rfl, fun _ _ => rfl, fun k hd hk hidx hgen => ?_, fun _ _ => rfl⟩⟩
  · exact ⟨hb.load s (.producer s) rfl, hb.load s (.consumer s) rfl⟩
  · exact (show Run _ _ (st.events idx (sys'.ring idx).generation) _ from hnil ▸ .nil)
  · have hlt := hb.unused hd.side k hd hk hidx rfl
    exact absurd hgen (Nat.ne_of_lt hlt)

/-- A step that has nothing to do with entries. -/
private theorem sys {a : Authority.Act} {sys' : Authority.State} (h : Exchanged n x st)
    (hG : Authority.NotReused st.sys a) (ha : ∀ k w v, a = .write k w v → w.isCounter = false)
    (e : Authority.step n st.sys a = some sys') :
    Exchanged n x { st with sys := sys' } := by
  have hstep := Authority.Step.of_eq e
  have hkept := h.kept.step hG hstep
  have hs := h.sessional.step h.kept hstep
  refine ⟨hkept, hs, fun k hd hk => ?_, fun k hk => ?_, fun idx g k e he => ?_, fun idx g => ?_⟩
  · rcases hstep.handle_new hk with ⟨dropped, hk⟩ | ⟨-, hlt, -⟩
    · exact h.ring_lt k { hd with dropped } hk
    · exact hlt
  · cases hk' : st.sys.clients.handle k with
    | none => exact h.fresh k hk'
    | some hd =>
      obtain ⟨_, hk''⟩ := hstep.handle_kept hk'
      cases hk.symm.trans hk''
  · obtain ⟨hd, hk, hidx, hside, hgen⟩ := h.joined idx g k e he
    obtain ⟨_, hk'⟩ := hstep.handle_kept hk
    exact ⟨_, hk', hidx, hside, hgen⟩
  · obtain ⟨m, D, hm, hrun, hatt⟩ := h.session idx g
    rcases Authority.session_step e hkept hs ha idx with hc | hb
    · exact ⟨m, D, hm, hrun, fun hg => h.continues hstep hc (hatt (hg.trans hc.generation))⟩
    · by_cases hg : g = (sys'.ring idx).generation
      · exact hg ▸ h.begins hb
      · exact ⟨m, D, hm, hrun, fun hg' => absurd hg' hg⟩

/-- What the session of the handle makes of its ring after the step. -/
private theorem attached_put {k : Nat} {hd : Authority.Handle} {e : Duplex.Event E}
    {r : Duplex.Handle E × (RingHead × (Nat → E))} {D D' : Duplex.State (RingHead × (Nat → E)) E}
    (h : Exchanged n x st) (hh : st.sys.clients.handle k = some hd) (hstores : Stores e (st.memory hd.ring).1 r.2.1)
    (hgen : hd.generation = (st.sys.ring hd.ring).generation) (hD : Attached x st hd.ring D)
    (hhandle : D'.handle hd.side = r.1) (hother : D'.handle hd.side.not = D.handle hd.side.not)
    (hsame : Duplex.Same (x.ctx E hd.ring) D'.mem r.2) : Attached x (st.put k hd e r) hd.ring D' where
  load _ w hw := by
    have hmem : (st.put k hd e r).memory hd.ring = r.2 := State.put_memory hstores
    exact (congrArg (fun m => m.1.load w) hmem).trans (hsame.load w hw)
  get i hi := (congrFun (Function.update_self ..) i).trans (hsame.get i hi)
  opened k' hd' hk hidx hgen' := by
    rw [State.put_clients] at hk
    rw [State.put_generation] at hgen'
    rcases ClientSide.eq_or_eq_not hd.side hd'.side with hside | hside
    · have hk' := (h.sessional hd.ring).single.once k' k hd' hd hk hh hidx rfl hside (hgen'.trans hgen.symm)
      subst hk'
      rw [hside, hhandle]
      exact (Function.update_self k' r.1 st.handle).symm
    · have hne : k' ≠ k := by
        rintro rfl
        rw [hh] at hk
        cases hk
        exact absurd hside (by simp)
      rw [hside, hother, ← hside, hD.opened k' hd' hk hidx hgen']
      exact (Function.update_of_ne hne ..).symm
  unused s hs := by
    simp only [Authority.Unused, State.put_clients, State.put_generation] at hs
    rcases ClientSide.eq_or_eq_not hd.side s with rfl | rfl
    · exact absurd hgen (Nat.ne_of_lt (hs k hd hh rfl rfl))
    · rw [hother]
      exact hD.unused _ hs

/-- A step of a handle is one of the ring that its session makes of it. -/
private theorem put {k : Nat} {hd : Authority.Handle} {e : Duplex.Event E}
    {r : Duplex.Handle E × (RingHead × (Nat → E))}
    (h : Exchanged n x st) (hh : st.sys.clients.handle k = some hd) (hlive : st.sys.clients.Live hd)
    (hside : e.side = hd.side) (hstores : Stores e (st.memory hd.ring).1 r.2.1)
    (hrun : ∀ m D, Duplex.Reset (x.ctx E hd.ring) m →
      Run (Duplex.step (x.ctx E hd.ring)) (Duplex.init m) (st.events hd.ring hd.generation) D →
      D.handle hd.side = st.handle k → Duplex.Same (x.ctx E hd.ring) D.mem (st.memory hd.ring) →
      ∃ D', Run (Duplex.step (x.ctx E hd.ring)) (Duplex.init m) (st.events hd.ring hd.generation ++ [e]) D' ∧
        D'.handle hd.side = r.1 ∧ D'.handle hd.side.not = D.handle hd.side.not ∧
        Duplex.Same (x.ctx E hd.ring) D'.mem r.2) :
    Exchanged n x (st.put k hd e r) := by
  have hring := h.kept.ring hd.ring
  obtain ⟨-, -, hgen⟩ := hring.live k hd hh rfl hlive
  have hsys : Authority.Kept (st.put k hd e r).sys ∧ Authority.Sessional (st.put k hd e r).sys := by
    rcases State.put_step (n := n) (r := r) hh hlive hside with he | ⟨w, v, he⟩
    · rw [he]
      exact ⟨h.kept, h.sessional⟩
    · exact ⟨h.kept.step (fun _ hs => by cases hs) he, h.sessional.step h.kept he⟩
  refine ⟨hsys.1, hsys.2, ?_, fun k' hk => ?_, fun idx g k' e' he => ?_, fun idx g => ?_⟩
  · rw [State.put_clients]
    exact h.ring_lt
  · rw [State.put_clients] at hk
    have hne : k' ≠ k := fun he => by rw [he, hh] at hk; cases hk
    exact (Function.update_of_ne hne ..).trans (h.fresh k' hk)
  · rw [State.put_clients]
    by_cases hi : idx = hd.ring ∧ g = hd.generation
    · obtain ⟨rfl, rfl⟩ := hi
      rw [State.put_log_self, List.mem_append, List.mem_singleton] at he
      rcases he with he | he
      · exact h.joined _ _ _ _ he
      · cases he
        exact ⟨hd, hh, rfl, hside.symm, rfl⟩
    · rw [State.put_log_of_ne hi] at he
      exact h.joined _ _ _ _ he
  · obtain ⟨m, D, hm, hD, hatt⟩ := h.session idx g
    by_cases hi : idx = hd.ring ∧ g = hd.generation
    · obtain ⟨rfl, rfl⟩ := hi
      have hatt := hatt hgen
      obtain ⟨D', hD', hhandle, hother, hsame⟩ := hrun m D hm hD (hatt.opened k hd hh rfl hgen)
        (hatt.same (hring.not_resets h.kept.named.clients hh rfl hlive))
      refine ⟨m, D', hm, ?_, fun _ => h.attached_put hh hstores hgen hatt hhandle hother hsame⟩
      rw [State.events, State.put_log_self, List.map_append]
      exact hD'
    · refine ⟨m, D, hm, ?_, fun hg => ?_⟩
      · rw [State.events, State.put_log_of_ne hi]
        exact hD
      · rw [State.put_generation] at hg
        exact (hatt hg).put_of_ne hh fun he => hi ⟨he, by rw [hg, he, hgen]⟩

/-- A live handle is of the current session. -/
private theorem current {k : Nat} {hd : Authority.Handle} (h : Exchanged n x st)
    (hh : st.sys.clients.handle k = some hd) (hlive : st.sys.clients.Live hd) :
    ∃ m D, Duplex.Reset (x.ctx E hd.ring) m ∧
      Run (Duplex.step (x.ctx E hd.ring)) (Duplex.init m) (st.events hd.ring hd.generation) D ∧
        D.handle hd.side = st.handle k := by
  obtain ⟨-, -, hgen⟩ := (h.kept.ring hd.ring).live k hd hh rfl hlive
  obtain ⟨m, D, hm, hrun, hatt⟩ := h.session hd.ring hd.generation
  exact ⟨m, D, hm, hrun, (hatt hgen).opened k hd hh rfl hgen⟩

private theorem producer_side {k : Nat} {hd : Authority.Handle} {p : Producer} {pc : Duplex.ProducerPc E}
    (h : Exchanged n x st) (hx : ∀ idx < n, (x.ctx E idx).Fits) (hh : st.sys.clients.handle k = some hd)
    (hlive : st.sys.clients.Live hd) (hp : st.handle k = .producer p pc) : p.side = hd.side := by
  obtain ⟨m, D, hm, hrun, hD⟩ := h.current hh hlive
  have hsender := (Duplex.counters_of_run (hx _ (h.ring_lt k hd hh)) hm hrun hd.side).sender
  rw [hD, hp] at hsender
  exact hsender.1.1

private theorem consumer_side {k : Nat} {hd : Authority.Handle} {c : Consumer} {pc : Duplex.ConsumerPc}
    (h : Exchanged n x st) (hx : ∀ idx < n, (x.ctx E idx).Fits) (hh : st.sys.clients.handle k = some hd)
    (hlive : st.sys.clients.Live hd) (hc : st.handle k = .consumer c pc) : c.side = hd.side := by
  obtain ⟨m, D, hm, hrun, hD⟩ := h.current hh hlive
  have hreceiver := (Duplex.counters_of_run (hx _ (h.ring_lt k hd hh)) hm hrun hd.side.not).receiver
  rw [ClientSide.not_not, hD, hc] at hreceiver
  exact hreceiver.1.1.trans (ClientSide.not_not _)

theorem step {a : Act E} {st' : State E} (h : Exchanged n x st) (hx : ∀ idx < n, (x.ctx E idx).Fits)
    (hG : NotReused st a) (e : Exchange.step x n st a = some st') : Exchanged n x st' := by
  cases a with
  | sys b =>
    obtain ⟨hperm, e⟩ := Option.ite_none_right_eq_some.1 e
    obtain ⟨sys', hsys, rfl⟩ := Option.map_eq_some_iff.1 e
    exact h.sys (hG b rfl) (fun k w v hb => by subst hb; simpa [State.permits] using hperm) hsys
  | produce k a =>
    simp only [Exchange.step] at e
    split at e
    · rename_i hd hh
      obtain ⟨hlive, e⟩ := Option.ite_none_right_eq_some.1 e
      obtain ⟨r, hr, rfl⟩ := Option.map_eq_some_iff.1 e
      have hp := Duplex.ProduceStep.of_eq hr
      refine h.put hh hlive rfl (stores_produce hp fun p pc => h.producer_side hx hh hlive) ?_
      intro m D _ hrun hD hsame
      obtain ⟨m₁, hp', hsame'⟩ := hp.same hsame.symm
      obtain ⟨D', hD', hhandle, hother, rfl⟩ := hp'.run hrun hD
      exact ⟨D', hD', hhandle, hother, hsame'.symm⟩
    · cases e
  | consume k a =>
    simp only [Exchange.step] at e
    split at e
    · rename_i hd hh
      obtain ⟨hlive, e⟩ := Option.ite_none_right_eq_some.1 e
      obtain ⟨r, hr, rfl⟩ := Option.map_eq_some_iff.1 e
      have hc := Duplex.ConsumeStep.of_eq hr
      refine h.put hh hlive rfl (stores_consume hc fun c pc => h.consumer_side hx hh hlive) ?_
      intro m D _ hrun hD hsame
      obtain ⟨m₁, hc', hsame'⟩ := hc.same hsame.symm
      obtain ⟨D', hD', hhandle, hother, rfl⟩ := hc'.run hrun hD
      exact ⟨D', hD', hhandle, hother, hsame'.symm⟩
    · cases e

end Exchanged

/-! ### Runs -/

omit [DecidableEq E] in
private theorem Setup.Accepted.ctx {cfgs : List RingConfig} (hx : x.Accepted cfgs) (hidx : idx < cfgs.length) :
    (x.ctx E idx).Accepted := by
  obtain ⟨b, infos, range, hlen, hok, hinfo⟩ := hx
  exact ⟨⟨b, infos, cfgs, range, hlen, hok, List.mem_of_getElem? (hinfo idx hidx)⟩, rfl⟩

/-- The directions of a session keep apart at each of its steps. -/
def KeepsApart (c : Duplex.Ctx (RingHead × (Nat → E)) E) (tr : List (Duplex.Event E)) : Prop :=
  ∀ tr' e D, tr' ++ [e] <+: tr → Duplex.Apart c tr' D e

/-- What one session of a ring is, whatever goes on beside it. -/
structure Conversation (x : Setup) (st : State E) (idx g : Nat) : Prop where
  /-- Whoever takes part has joined the ring in this session. -/
  joined : ∀ k e, (k, e) ∈ st.log idx g → ∃ hd, st.sys.clients.handle k = some hd ∧ hd.ring = idx ∧
    hd.side = e.side ∧ hd.generation = g
  /-- One on each side. -/
  once : ∀ k e k' e', (k, e) ∈ st.log idx g → (k', e') ∈ st.log idx g → e.side = e'.side → k = k'
  /-- They find the counters reset, and from then on only each other's. -/
  run : ∃ m D, Duplex.Reset (x.ctx E idx) m ∧
    Run (Duplex.step (x.ctx E idx)) (Duplex.init m) (st.events idx g) D
  /-- A direction that is used alone yields what was pushed in this session, in order. -/
  oneWay : ∀ d, (∀ e ∈ st.events idx g, Duplex.Kept d e) →
    Duplex.yielded d.not (st.events idx g) <+: Duplex.pushed d (st.events idx g)
  /-- So do both, if they keep apart. -/
  fifo : KeepsApart (x.ctx E idx) (st.events idx g) → ∀ d,
    Duplex.yielded d.not (st.events idx g) <+: Duplex.pushed d (st.events idx g)
  /-- And what is pushed and not yielded stays in the slots until the next session, also when one side is gone. -/
  held : KeepsApart (x.ctx E idx) (st.events idx g) → g = (st.sys.ring idx).generation → ∀ d,
    Duplex.Held (x.ctx E idx) (Duplex.yielded d.not (st.events idx g)).length (Duplex.chan d (st.events idx g))
      (st.memory idx)

private theorem Exchanged.conversation (h : Exchanged n x st) (hx : (x.ctx E idx).Fits) (g : Nat) :
    Conversation x st idx g := by
  obtain ⟨m, D, hm, hrun, hatt⟩ := h.session idx g
  have hapart : KeepsApart (x.ctx E idx) (st.events idx g) →
      RunWhere (Duplex.step (x.ctx E idx)) (Duplex.Apart (x.ctx E idx)) (Duplex.init m) (st.events idx g) D :=
    fun hk => hrun.where_of_prefix fun tr' D' e _ _ _ hp => hk tr' e D' hp
  refine ⟨h.joined idx g, fun k e k' e' he he' hside => ?_, ⟨m, D, hm, hrun⟩, fun d hk => ?_, fun hk d => ?_,
    fun hk hg d i e hi he => ?_⟩
  · obtain ⟨hd, hk, hidx, hs, hgen⟩ := h.joined idx g k e he
    obtain ⟨hd', hk', hidx', hs', hgen'⟩ := h.joined idx g k' e' he'
    exact (h.sessional idx).single.once k k' hd hd' hk hk' hidx hidx' (by rw [hs, hs', hside]) (hgen.trans hgen'.symm)
  · exact (Duplex.delivers_of_kept hx hm hrun hk).fifo
  · exact Duplex.yielded_first hx hm (hapart hk) d
  · have hheld := Duplex.Safe.held_unread hx hm (hapart hk) d i e hi he
    exact ((hatt hg).get _ (hx.slot_lt i)).trans hheld

/-- In every run of a server that was started on zeroed memory and any clients, in which no process id is used again
while it is tracked, the sessions of the rings are conversations. -/
theorem conversations_of_run {cfgs : List RingConfig} {slots : Nat → Nat → E} {tr : List (Act E)}
    (hx : x.Accepted cfgs)
    (h : RunWhere (step x cfgs.length) (fun _ st a => NotReused st a) (init cfgs slots) tr st)
    (hidx : idx < cfgs.length) (g : Nat) : Conversation x st idx g := by
  have hfits : ∀ idx < cfgs.length, (x.ctx E idx).Fits := fun idx hidx => (hx.ctx hidx).fits
  have hinv := h.invariant (I := fun _ st => Exchanged cfgs.length x st) (exchanged_init cfgs slots)
    fun _ _ _ _ hi hG e => hi.step hfits hG e
  exact hinv.conversation (hfits idx hidx) g

end Runs

/-- One ring of two entries of one byte each. -/
def twoSlots : Setup := ⟨.release, fun _ => Duplex.twoSlots.info⟩

def twoSlotsConfig : RingConfig := ⟨2, 0, 1, -1, -1⟩

private theorem twoSlots_accepted : twoSlots.Accepted [twoSlotsConfig] := by
  refine ⟨.release, [⟨0, 0, 0, 0, 0, 0, 0, 0, 0, 0⟩], ⟨0, 8192⟩, rfl, by decide, fun idx hidx => ?_⟩
  obtain rfl : idx = 0 := by simpa using hidx
  decide

/-- A client joins, pushes an entry and exits, and the server brings its ring up again. -/
def firstSession : List (Act UInt8) :=
  [.sys (.join 0 ⟨5⟩ 0 .left), .produce 0 .new, .produce 0 .pushMany, .produce 0 (.draw 7), .produce 0 (.write 0 7),
    .produce 0 (.pushed 1), .produce 0 .syncLoad, .produce 0 .syncStore, .sys .trackClients, .sys .inspect,
    .sys (.trackClient true), .sys .inspect, .sys (.exit ⟨5⟩), .sys (.reapClient ⟨⟨0, 0⟩, ⟨5⟩⟩),
    .sys (.leave (0, .left) false), .sys (.bringUp [twoSlotsConfig])] ++ List.replicate 14 (.sys .bringUpStep)

/-- Two others join it; one pushes and the other yields. -/
def secondSession : List (Act UInt8) :=
  [.sys (.join 1 ⟨6⟩ 0 .left), .sys (.join 2 ⟨7⟩ 0 .right), .produce 1 .new, .produce 1 .pushMany, .produce 1 (.draw 9),
    .produce 1 (.write 0 9), .produce 1 (.pushed 1), .produce 1 .syncLoad, .produce 1 .syncStore, .consume 2 .new,
    .consume 2 .iter, .consume 2 (.next 9)]

def twoSessions : List (Act UInt8) :=
  [.sys (.spawn ⟨5⟩)] ++ firstSession ++ [.sys (.spawn ⟨6⟩)] ++ [.sys (.spawn ⟨7⟩)] ++ secondSession

private theorem twoSessions_run : ∃ st, RunWhere (step twoSlots 1) (fun _ st a => NotReused st a)
    (init [twoSlotsConfig] fun _ _ => 0) twoSessions st := by
  have h₀ : RunWhere (step twoSlots 1) (fun _ st a => NotReused st a) (init [twoSlotsConfig] fun _ _ => (0 : UInt8)) []
      (init [twoSlotsConfig] fun _ _ => 0) := .nil
  have h₁ := h₀.snoc (a := .sys (.spawn ⟨5⟩)) (fun b hb c hc => by cases hb; exact ⟨rfl, nofun⟩) rfl
  have h₂ := h₁.append_run firstSession (run_iff_exec.2 rfl)
    (fun a ha _ _ b hb c hc => by simp [hb, hc, firstSession] at ha)
  have h₃ := h₂.snoc (a := .sys (.spawn ⟨6⟩)) (fun b hb c hc => by cases hb; cases hc; exact ⟨rfl, nofun⟩) rfl
  have h₄ := h₃.snoc (a := .sys (.spawn ⟨7⟩)) (fun b hb c hc => by cases hb; cases hc; exact ⟨rfl, nofun⟩) rfl
  exact ⟨_, h₄.append_run secondSession (run_iff_exec.2 rfl)
    (fun a ha _ _ b hb c hc => by simp [hb, hc, secondSession] at ha)⟩

/-- What is yielded in the second session is what was pushed in it, not what is left of the first. -/
theorem conversations_of_run_twoSessions :
    ∃ st : State UInt8, Conversation twoSlots st 0 1 ∧ Duplex.pushed .left (st.events 0 0) = [7] ∧
      Duplex.pushed .left (st.events 0 1) = [9] ∧ Duplex.yielded .right (st.events 0 1) = [9] := by
  obtain ⟨st, h⟩ := twoSessions_run
  have hexec : (exec (step twoSlots 1) (init [twoSlotsConfig] fun _ _ => 0) twoSessions).map
      (fun st => (Duplex.pushed .left (st.events 0 0), Duplex.pushed .left (st.events 0 1),
        Duplex.yielded .right (st.events 0 1))) = some ([7], [9], [9]) := by decide +kernel
  rw [run_iff_exec.1 h.run] at hexec
  simp only [Option.map_some, Option.some.injEq, Prod.mk.injEq] at hexec
  exact ⟨st, conversations_of_run twoSlots_accepted h Nat.one_pos 1, hexec⟩

end Exchange

end ShmRing
