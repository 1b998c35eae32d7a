import ShmRing.BringUp
import ShmRing.Coverage
import ShmRing.Sessions

/-!
# Recovery

When all clients are gone, whatever they did before, the loop of the server gets every ring back to how it was offered
at first: once the exits of all tracked clients were handled, the iteration that ends has left each ring open on both
sides, with its head reset (`recovered_of_run`).

This is where the scan, the reaping and `bring_up` are put together.  The scan lists every slot that a client has left
behind, so that none is left when no tracked client is; `bring_up` then finds only slots that are open or its own; and
a ring that it passes over, because both of its sides are open, was not joined since it was last reset.
-/

namespace ShmRing

open Transition

namespace Authority

/-- The steps of a server's loop that passes the same configurations to each call, and of clients. -/
structure Serving (cfgs : List RingConfig) (st : State) (a : Act) : Prop where
  inLoop : InLoop st a
  opens : Opens st a
  notReused : NotReused st a
  configs : ∀ ids, a = .bringUp ids → ids = cfgs

/-- No process runs. -/
def Deserted (st : State) : Prop := ∀ c, st.clients.process c = none

/-- The ring is open on both sides, under its own ids, and its head is as it was reset. -/
structure RingState.Offered (cfg : RingConfig) (r : RingState) : Prop where
  owner : ∀ s, r.owner s = (cfg.id s).toUInt32
  head : ∀ w, r.head.load w = 0

def OfferedAt (cfgs : List RingConfig) (ring : Nat → RingState) (idx : Nat) : Prop :=
  ∀ cfg, cfgs[idx]? = some cfg → RingState.Negative cfg → RingState.Offered cfg (ring idx)

/-- Every ring with ids for both sides can be joined again. -/
def Recovered (n : Nat) (cfgs : List RingConfig) (st : State) : Prop := ∀ idx < n, OfferedAt cfgs st.ring idx

/-! ### What is advertised -/

private theorem RingState.bringUp_available {r : RingState} {cfg : RingConfig} {p : RingState.Pc} {s : ClientSide}
    (h : slotClass ((r.bringUp cfg p).1.owner s) = .available) :
    (r.bringUp cfg p).1.owner s = r.owner s ∨ (r.bringUp cfg p).1.owner s = (cfg.id s).toUInt32 := by
  have htake : ∀ t, slotClass ((r.setOwner t (ClientSlot.takeForServer (r.owner t)).2).owner s) = .available →
      (r.setOwner t (ClientSlot.takeForServer (r.owner t)).2).owner s = r.owner s := by
    intro t ht
    by_cases hs : s = t
    · subst hs
      simp only [setOwner, Function.update_self, ClientSlot.takeForServer_eq] at ht ⊢
      cases hclass : slotClass (r.owner s) with
      | client => rfl
      | server => rw [slotClass_eq_server.1 hclass]
      | available =>
        rw [hclass] at ht
        cases ht
    · simp only [setOwner, Function.update_of_ne hs]
  have hreinit : ∀ t (id : Int32), (cfg.id t).toUInt32 = id.toUInt32 →
      ∀ res owner, ClientSlot.reinit (r.owner t) ⟨id⟩ = .ok (res, owner) →
      (r.setOwner t owner).owner s = r.owner s ∨ (r.setOwner t owner).owner s = (cfg.id s).toUInt32 := by
    intro t id hid res owner ho
    by_cases hs : s = t
    · subst hs
      by_cases hneg : (⟨id⟩ : RingIdentifier).val < 0
      · rw [ClientSlot.reinit_eq hneg] at ho
        cases hclass : slotClass (r.owner s) <;> rw [hclass] at ho <;> cases ho <;>
          simp [setOwner, hid]
      · rw [ClientSlot.reinit, if_neg hneg] at ho
        cases ho
    · exact .inl (by simp only [setOwner, Function.update_of_ne hs])
  cases p with
  | checkLhs =>
    rw [bringUp_checkLhs]
    exact .inl rfl
  | checkRhs =>
    rw [bringUp_checkRhs]
    exact .inl rfl
  | takeLhs => exact .inl (htake .left h)
  | takeRhs => exact .inl (htake .right h)
  | reset ws => cases ws <;> exact .inl rfl
  | reinitLhs =>
    simp only [bringUp]
    cases ho : ClientSlot.reinit (r.owner .left) ⟨cfg.lhs⟩ with
    | error => exact .inl rfl
    | ok x =>
      obtain ⟨res, owner⟩ := x
      have := hreinit .left cfg.lhs rfl res owner ho
      cases res <;> exact this
  | reinitRhs =>
    simp only [bringUp]
    cases ho : ClientSlot.reinit (r.owner .right) ⟨cfg.rhs⟩ with
    | error => exact .inl rfl
    | ok x =>
      obtain ⟨res, owner⟩ := x
      have := hreinit .right cfg.rhs rfl res owner ho
      cases res <;> exact this

/-- A slot is open after a step because it was before, or because the server has advertised it. -/
private theorem Step.available {n : Nat} {st st' : State} {a : Act} (e : Step n st a st') (hnamed : Named st)
    {idx : Nat} {s : ClientSide} (h : slotClass ((st'.ring idx).owner s) = .available) :
    (st'.ring idx).owner s = (st.ring idx).owner s ∨ ∃ cfg ids p success,
      st.server.pc = .bringUp (cfg :: ids) idx p success ∧ (st'.ring idx).owner s = (cfg.id s).toUInt32 := by
  have hset : ∀ (r : Nat × ClientSide) (v : UInt32), slotClass v ≠ .available →
      slotClass (((st.setRing r.1 ((st.ring r.1).setOwner r.2 v)).ring idx).owner s) = .available →
      ((st.setRing r.1 ((st.ring r.1).setOwner r.2 v)).ring idx).owner s = (st.ring idx).owner s := by
    intro r v hv ho
    have hword := st.setRing_owner r (idx, s) v
    dsimp only at hword
    rw [hword] at ho ⊢
    split at ho
    · exact absurd ho hv
    · rename_i hne
      rw [if_neg hne]
  cases e with
  | @join k hd hp =>
    have hpid := (hnamed.clients.process _ _ hp).1
    have howner : ((st.enter k hd hd.client.word).ring idx).owner s =
        ((st.setRing hd.ring ((st.ring hd.ring).setOwner hd.side hd.client.word)).ring idx).owner s := by
      by_cases hidx : idx = hd.ring
      · subst hidx
        simp only [State.enter, State.setRing, Function.update_self]
      · simp only [State.enter, State.setRing, Function.update_of_ne hidx]
    rw [howner] at h ⊢
    exact .inl (hset (hd.ring, hd.side) _ (by rw [hpid.slotClass_word]; decide) h)
  | @write k hd =>
    left
    by_cases hidx : idx = hd.ring
    · subst hidx
      simp only [State.write, State.setRing, Function.update_self]
    · simp only [State.write, State.setRing, Function.update_of_ne hidx]
  | @drop k hd => exact .inl (hset (hd.ring, hd.side) 0 (by decide) h)
  | @leave c rings r => exact .inl (hset r 0 (by decide) h)
  | @bringUpStep cfg ids i success p pc last hpc =>
    simp only [State.setRing] at h ⊢
    by_cases hidx : idx = i
    · subst hidx
      simp only [Function.update_self] at h ⊢
      exact (RingState.bringUp_available h).imp_right fun hword => ⟨cfg, ids, p, success, hpc, hword⟩
    · exact .inl (by rw [Function.update_of_ne hidx])
  | _ => exact .inl rfl

/-- What comes from the configurations, in the slots and in `bring_up`; and no handle was made after the last scan but
as the record of it says. -/
structure Configured (cfgs : List RingConfig) (st : State) : Prop where
  advertised : ∀ idx s, slotClass ((st.ring idx).owner s) = .available →
    ∃ cfg, cfgs[idx]? = some cfg ∧ (st.ring idx).owner s = (cfg.id s).toUInt32
  pc : ∀ ids idx p success, st.server.pc = .bringUp ids idx p success → ids = cfgs.drop idx
  scan_le : ∀ k hd, st.clients.handle k = some hd → hd.scan ≤ st.server.scans

private theorem configured_init (cfgs : List RingConfig) : Configured cfgs (init cfgs) where
  advertised idx s h := by
    simp only [init] at h ⊢
    cases hc : cfgs[idx]? with
    | none => rw [hc] at h; cases h
    | some cfg =>
      rw [hc] at h
      simp only [Option.elim_some, RingConfig.advertised] at h ⊢
      split at h
      · rename_i hneg
        exact ⟨cfg, rfl, if_pos hneg⟩
      · cases h
  pc _ _ _ _ h := by cases h
  scan_le _ _ h := by cases h

theorem Configured.step {n : Nat} {cfgs : List RingConfig} {st st' : State} {a : Act} (h : Configured cfgs st)
    (hnamed : Named st) (hconfigs : ∀ ids, a = .bringUp ids → ids = cfgs) (e : Step n st a st') :
    Configured cfgs st' where
  advertised idx s ho := by
    rcases e.available hnamed ho with he | ⟨cfg, ids, p, success, hpc, hword⟩
    · rw [he] at ho ⊢
      exact h.advertised idx s ho
    · have hids := h.pc _ _ _ _ hpc
      have hget : cfgs[idx]? = some cfg := by
        rw [← List.head?_drop, ← hids]
        rfl
      exact ⟨cfg, hget, hword⟩
  pc ids idx p success hpc := by
    cases e with
    | spawn | exit | refused | join | write | drop => exact h.pc ids idx p success hpc
    | reapTracked _ _ _ _ _ hnext | leave _ _ _ _ hnext | stay _ _ _ hnext =>
      rcases hnext with rfl | ⟨rfl, -⟩ <;> cases hpc
    | trackClients _ hnext => rcases hnext with rfl | ⟨-, rfl, -⟩ <;> cases hpc
    | skip _ _ hnext | trackAgain _ _ hnext | trackNew _ _ _ hnext | trackFails _ _ _ hnext =>
      rcases hnext with ⟨-, rfl⟩ | ⟨-, rfl⟩ | ⟨-, -, rfl, -⟩ <;> cases hpc
    | bringUp _ hnext =>
      rcases hnext with rfl | ⟨rfl, -⟩
      · cases hpc
        exact hconfigs _ rfl
      · cases hpc
    | bringUpStep hpc' hnext =>
      have hids := h.pc _ _ _ _ hpc'
      rcases hnext with ⟨q, -, rfl⟩ | ⟨success', rfl | ⟨rfl, -⟩⟩ | rfl
      · cases hpc
        exact hids
      · cases hpc
        rw [hids, List.tail_drop]
      · cases hpc
      · cases hpc
    | _ => cases hpc
  scan_le k hd hk := by
    cases e with
    | @join k' hd' _ _ _ _ _ _ hscan =>
      rcases Clients.put_eq_some hk with ⟨-, rfl⟩ | ⟨-, hk⟩
      · exact Nat.le_of_eq hscan
      · exact h.scan_le k hd hk
    | @drop k' hd' hh =>
      rcases Clients.put_eq_some hk with ⟨-, rfl⟩ | ⟨-, hk⟩
      · exact h.scan_le k' hd' hh
      · exact h.scan_le k hd hk
    | trackClients => exact Nat.le_succ_of_le (h.scan_le k hd hk)
    | _ => exact h.scan_le k hd hk

/-! ### One ring without clients -/

namespace RingState

@[simp] theorem owner_setOwner (r : RingState) (s : ClientSide) (v : UInt32) : (r.setOwner s v).owner s = v := by
  rw [setOwner_owner, if_pos rfl]

@[simp] theorem owner_setOwner_not (r : RingState) (s : ClientSide) (v : UInt32) :
    (r.setOwner s v).owner s.not = r.owner s.not := by
  rw [setOwner_owner, if_neg (by cases s <;> decide)]

/-- No client has a side of the ring. -/
def Left (r : RingState) : Prop := ∀ s, slotClass (r.owner s) ≠ .client

/-- How far `bring_up` has got with a ring that no client has. -/
def Opening (cfg : RingConfig) (r : RingState) : Pc → Prop
  | .checkLhs | .takeLhs => True
  | .checkRhs openLhs => openLhs = true → slotClass (r.owner .left) = .available
  | .takeRhs => r.owner .left = 0
  | .reset ws => (∀ s, r.owner s = 0) ∧ ∀ w, w ∉ ws → r.head.load w = 0
  | .reinitLhs => (∀ s, r.owner s = 0) ∧ ∀ w, r.head.load w = 0
  | .reinitRhs => r.owner .left = cfg.lhs.toUInt32 ∧ r.owner .right = 0 ∧ ∀ w, r.head.load w = 0

/-- What a step of the loop body comes to then. -/
def Opens (cfg : RingConfig) (r : RingState) : Outcome → Prop
  | .goto p => Opening cfg r p
  | .next _ => Offered cfg r
  | .panicked => False

variable {cfg : RingConfig} {r : RingState} {p : Pc}

theorem Opening.step (h : Opening cfg r p) (hneg : Negative cfg) (hleft : r.Left)
    (hopen : (∀ s, slotClass (r.owner s) = .available) → Offered cfg r) :
    Opens cfg (r.bringUp cfg p).1 (r.bringUp cfg p).2 := by
  cases p with
  | checkLhs =>
    rw [bringUp_checkLhs, if_pos ⟨hneg, hleft .left⟩]
    exact of_decide_eq_true
  | checkRhs openLhs =>
    rw [bringUp_checkRhs]
    split
    · trivial
    · rename_i hc
      refine hopen fun s => ?_
      -- the right side is neither the server's nor a client's, and the left one was found open
      cases hright : slotClass (r.owner .right) with
      | available =>
        have ho : openLhs = true := by
          by_contra ho
          exact hc (.inr ⟨hright, Bool.eq_false_iff.2 ho⟩)
        cases s with
        | left => exact h ho
        | right => exact hright
      | server => exact absurd (.inl hright) hc
      | client => exact absurd hright (hleft .right)
  | takeLhs =>
    rw [bringUp_takeLhs (hleft .left)]
    exact owner_setOwner r .left 0
  | takeRhs =>
    rw [bringUp_takeRhs (hleft .right)]
    refine ⟨fun s => ?_, fun w hn => absurd (RingHead.mem_reinitOrder w) hn⟩
    cases s with
    | left => exact (owner_setOwner_not r .right 0).trans h
    | right => exact owner_setOwner r .right 0
  | reset ws =>
    obtain ⟨howner, hload⟩ := h
    cases ws with
    | nil => exact ⟨howner, fun w => hload w List.not_mem_nil⟩
    | cons w ws =>
      refine ⟨howner, fun w' hn => ?_⟩
      simp only [bringUp, RingHead.load_store]
      split
      · rfl
      · exact hload w' (by simp [*])
  | reinitLhs =>
    obtain ⟨howner, hload⟩ := h
    rw [bringUp_reinitLhs hneg (howner .left)]
    exact ⟨owner_setOwner r .left _, (owner_setOwner_not r .left _).trans (howner .right), hload⟩
  | reinitRhs =>
    obtain ⟨hlhs, hrhs, hload⟩ := h
    rw [bringUp_reinitRhs hneg hrhs]
    refine ⟨fun s => ?_, hload⟩
    cases s with
    | left => exact (owner_setOwner_not r .right _).trans hlhs
    | right => exact owner_setOwner r .right _

end RingState

/-! ### The call -/

/-- How far the call of `bring_up` has got, or what it has left. -/
def Progress (n : Nat) (cfgs : List RingConfig) (ring : Nat → RingState) (sv : ServerState) : Prop :=
  match sv.pc with
  | .bringUp _ idx p _ => idx < n ∧ (∀ i < idx, OfferedAt cfgs ring i) ∧
      ∀ cfg, cfgs[idx]? = some cfg → RingState.Negative cfg → RingState.Opening cfg (ring idx) p
  | .idle => ∀ success, sv.last = some (.bringUp success) → ∀ i < n, OfferedAt cfgs ring i
  | _ => True

private theorem progress_from {n idx success : Nat} {cfgs : List RingConfig} {ring : Nat → RingState} (sv : ServerState)
    (h : ∀ i < idx, OfferedAt cfgs ring i) :
    Progress n cfgs ring (sv.bringUpFrom n (cfgs.drop idx) idx success) := by
  unfold ServerState.bringUpFrom
  split
  · rename_i hnext
    exact ⟨hnext.2, h, fun _ _ _ => trivial⟩
  · rename_i hdone
    intro _ _ i hi
    by_cases hlt : i < idx
    · exact h i hlt
    -- the ring has no configuration
    · intro cfg hc
      have hlen := (List.getElem?_eq_some_iff.1 hc).1
      refine absurd ⟨fun he => ?_, by omega⟩ hdone
      have := List.drop_eq_nil_iff.1 he
      omega

private theorem ReapNext.progress {n : Nat} {cfgs : List RingConfig} {ring : Nat → RingState} {sv : ServerState}
    {c : ClientIdentifier} {rings : List (Nat × ClientSide)} (h : ReapNext c rings sv.pc sv.last) :
    Progress n cfgs ring sv := by
  rw [Progress]
  rcases h with hpc | ⟨hpc, hlast⟩ <;> rw [hpc]
  · trivial
  · exact fun success hs => by rw [hlast] at hs; cases hs

private theorem TrackNext.progress {n i : Nat} {cfgs : List RingConfig} {ring : Nat → RingState} {sv : ServerState}
    {side : ClientSide} (h : TrackNext n i side sv.pc sv.last) : Progress n cfgs ring sv := by
  rw [Progress]
  rcases h with ⟨-, hpc⟩ | ⟨-, hpc⟩ | ⟨-, -, hpc, hlast⟩ <;> rw [hpc]
  · trivial
  · trivial
  · exact fun success hs => by rw [hlast] at hs; cases hs

/-- A step of the loop body. -/
private theorem Progress.bringUpStep {n i success : Nat} {cfgs ids : List RingConfig} {cfg : RingConfig}
    {p : RingState.Pc} {ring : Nat → RingState} {sv : ServerState} (h : Progress n cfgs ring sv)
    (hpc : sv.pc = .bringUp (cfg :: ids) i p success) (hids : cfg :: ids = cfgs.drop i) (hleft : i < n → (ring i).Left)
    (hopen : (∀ s, slotClass ((ring i).owner s) = .available) → OfferedAt cfgs ring i) :
    Progress n cfgs (Function.update ring i ((ring i).bringUp cfg p).1)
      (sv.bringUpNext n (cfg :: ids) i success ((ring i).bringUp cfg p).2) := by
  rw [Progress, hpc] at h
  obtain ⟨hlt, hbefore, hhere⟩ := h
  have hget : cfgs[i]? = some cfg := by
    rw [← List.head?_drop, ← hids]
    rfl
  have hbefore' : ∀ j < i, OfferedAt cfgs (Function.update ring i ((ring i).bringUp cfg p).1) j := by
    intro j hj c hc hneg
    rw [Function.update_of_ne (Nat.ne_of_lt hj)]
    exact hbefore j hj c hc hneg
  have hstep : RingState.Negative cfg →
      RingState.Opens cfg ((ring i).bringUp cfg p).1 ((ring i).bringUp cfg p).2 :=
    fun hneg => (hhere cfg hget hneg).step hneg (hleft hlt) fun ho => hopen ho cfg hget hneg
  revert hstep
  cases ((ring i).bringUp cfg p).2 with
  | goto q =>
    intro hstep
    refine ⟨hlt, hbefore', fun c hc hneg => ?_⟩
    obtain rfl : cfg = c := Option.some.inj (hget.symm.trans hc)
    rw [Function.update_self]
    exact hstep hneg
  | next done =>
    intro hstep
    have htail : ids = cfgs.drop (i + 1) := by
      rw [← List.tail_drop, ← hids]
      rfl
    simp only [ServerState.bringUpNext, List.tail_cons]
    rw [htail]
    refine progress_from sv fun j hj c hc hneg => ?_
    rcases Nat.lt_or_eq_of_le (Nat.le_of_lt_succ hj) with hj | rfl
    · exact hbefore' j hj c hc hneg
    · obtain rfl : cfg = c := Option.some.inj (hget.symm.trans hc)
      rw [Function.update_self]
      exact hstep hneg
  | panicked => exact fun _ => trivial

/-! ### The loop -/

/-- The invariants that hold in all runs of the loop. -/
structure Served (n : Nat) (cfgs : List RingConfig) (st : State) : Prop where
  scanned : Scanned n st
  kept : Kept st
  sessional : Sessional st
  configured : Configured cfgs st

private theorem served_init (n : Nat) (cfgs : List RingConfig) : Served n cfgs (init cfgs) :=
  ⟨scanned_init n cfgs, kept_init cfgs, sessional_init cfgs, configured_init cfgs⟩

namespace Served

variable {n : Nat} {cfgs : List RingConfig} {st st' : State} {a : Act}

theorem step (h : Served n cfgs st) (ha : Serving cfgs st a) (e : Step n st a st') : Served n cfgs st' where
  scanned := h.scanned.step ha.inLoop ha.opens e
  kept := h.kept.step ha.notReused e
  sessional := h.sessional.step h.kept e
  configured := h.configured.step h.kept.named ha.configs e

/-- A ring that is open on both sides is as it was offered. -/
private theorem offered (h : Served n cfgs st) {idx : Nat}
    (hopen : ∀ s, slotClass ((st.ring idx).owner s) = .available) : OfferedAt cfgs st.ring idx := by
  intro cfg hc _
  refine ⟨fun s => ?_, (h.sessional idx).reset (h.kept.ring idx) hopen⟩
  obtain ⟨cfg', hc', hword⟩ := h.configured.advertised idx s (hopen s)
  obtain rfl : cfg = cfg' := Option.some.inj (hc.symm.trans hc')
  exact hword

/-- A scanned slot that was not just joined is listed for a client that is waited for. -/
private theorem left (h : Served n cfgs st) (hfresh : ∀ idx s, ¬ Fresh st idx s) (hpending : st.server.pending = [])
    {idx : Nat} (hlt : idx < n) (hv : ∀ s, Visited idx s st.server.pc st.server.last) : (st.ring idx).Left := by
  intro s hclient
  rcases h.scanned.visited idx s hlt (hv s) hclient with hf | ⟨c, data, -, -, hdata, -⟩
  · exact hfresh idx s hf
  · have hmem := h.scanned.pending c data hdata
    rw [hpending] at hmem
    exact absurd hmem List.not_mem_nil

end Served

/-- What holds after a scan that began when nobody was left. -/
structure Recovering (n : Nat) (cfgs : List RingConfig) (st : State) : Prop where
  fresh : ∀ idx s, ¬ Fresh st idx s
  progress : st.server.pending = [] → Progress n cfgs st.ring st.server

/-- Nobody joins, nor leaves a handle behind. -/
private theorem Step.deserted {n : Nat} {st st' : State} {a : Act} (e : Step n st a st') (hdead : Deserted st)
    (hspawn : ∀ c, a ≠ .spawn c) :
    Deserted st' ∧ st'.clients.handle = st.clients.handle ∧ ∀ idx, (st'.ring idx).holder = (st.ring idx).holder := by
  have hlive : ∀ hd, ¬ st.clients.Live hd := fun hd hl => by rw [Clients.Live, hdead] at hl; cases hl.2
  cases e with
  | spawn => exact absurd rfl (hspawn _)
  | exit =>
    refine ⟨fun c => ?_, rfl, fun _ => rfl⟩
    simp only [Clients.exit, Function.update_apply]
    split
    · rfl
    · exact hdead c
  | join hp => rw [hdead] at hp; cases hp
  | write _ hl => exact absurd hl (hlive _)
  | drop _ hl => exact absurd hl (hlive _)
  | leave => exact ⟨hdead, rfl, setRing_holder rfl⟩
  | bringUpStep => exact ⟨hdead, rfl, setRing_holder (RingState.bringUp_holder ..)⟩
  | _ => exact ⟨hdead, rfl, fun _ => rfl⟩

private theorem step_bringUp {n : Nat} {st st' : State} {ids : List RingConfig}
    (e : step n st (.bringUp ids) = some st') :
    st.server.pc = .idle ∧ st' = { st with server := st.server.bringUpFrom n ids 0 0 } := by
  obtain ⟨hpc, e⟩ := Option.ite_none_right_eq_some.1 e
  exact ⟨hpc, (Option.some.inj e).symm⟩

namespace Recovering

variable {n : Nat} {cfgs : List RingConfig} {st st' : State} {a : Act}

/-- The scan begins. -/
private theorem start (h : Served n cfgs st) (e : Step n st .trackClients st') :
    Recovering n cfgs st' := by
  cases e with
  | trackClients _ hnext =>
    refine ⟨fun idx s ⟨k, hd, _, hk, hscan⟩ => ?_, fun _ => ?_⟩
    · have hle := h.configured.scan_le k hd hk
      dsimp only at hscan
      omega
    · rcases hnext with rfl | ⟨-, rfl, rfl⟩
      · trivial
      · exact nofun

private theorem fresh_step (h : Recovering n cfgs st) (hserved : Served n cfgs st) (hdead : Deserted st)
    (hspawn : ∀ c, a ≠ .spawn c) (e : Step n st a st') : ∀ idx s, ¬ Fresh st' idx s := by
  rintro idx s ⟨k, hd, hholder, hk, hscan⟩
  obtain ⟨-, hhandle, hholders⟩ := e.deserted hdead hspawn
  by_cases ha : a = .trackClients
  · subst ha
    exact (start hserved e).fresh idx s ⟨k, hd, hholder, hk, hscan⟩
  · rw [hholders] at hholder
    rw [hhandle] at hk
    rw [e.scans ha] at hscan
    exact h.fresh idx s ⟨k, hd, hholder, hk, hscan⟩

private theorem progress_step (h : Recovering n cfgs st) (hserved : Served n cfgs st) (hdead : Deserted st)
    (ha : Serving cfgs st a) (hspawn : ∀ c, a ≠ .spawn c) (e : Authority.step n st a = some st')
    (hpending : st'.server.pending = []) : Progress n cfgs st'.ring st'.server := by
  have e' := Step.of_eq e
  have hlive : ∀ hd, ¬ st.clients.Live hd := fun hd hl => by rw [Clients.Live, hdead] at hl; cases hl.2
  cases e' with
  | spawn => exact absurd rfl (hspawn _)
  | exit | refused => exact h.progress hpending
  | join hp => rw [hdead] at hp; cases hp
  | write _ hl => exact absurd hl (hlive _)
  | drop _ hl => exact absurd hl (hlive _)
  | reapUntracked => exact nofun
  | reapPanics | leavePanics | inspect => trivial
  | reapTracked _ _ _ _ _ hnext | leave _ _ _ _ hnext | stay _ _ _ hnext =>
    exact ReapNext.progress hnext
  | trackClients => exact (start hserved (Step.of_eq e)).progress hpending
  | skip _ _ hnext | trackAgain _ _ hnext | trackNew _ _ _ hnext | trackFails _ _ _ hnext =>
    exact TrackNext.progress hnext
  | bringUp =>
    obtain ⟨-, he⟩ := step_bringUp e
    rw [he, ha.configs _ rfl]
    exact @progress_from n 0 0 cfgs st.ring st.server fun i hi => absurd hi (Nat.not_lt_zero i)
  | bringUpStep =>
    obtain ⟨cfg, ids, idx, p, success, hpc, he⟩ := step_bringUpStep e
    rw [he] at hpending ⊢
    have hpending' : st.server.pending = [] := by
      obtain ⟨pc, last, hsv, -⟩ := st.server.bringUpNext_eq n (cfg :: ids) idx success ((st.ring idx).bringUp cfg p).2
      dsimp only at hpending
      rwa [hsv] at hpending
    refine (h.progress hpending').bringUpStep hpc (hserved.configured.pc _ _ _ _ hpc)
      (fun hlt => hserved.left h.fresh hpending' hlt fun s => ?_) hserved.offered
    rw [hpc]
    trivial

end Recovering

/-- Whatever the clients did, when all processes have exited and the loop goes on until no tracked client is left to be
reaped, the iteration that ends has left every ring as it was offered, if a scan has begun since. -/
theorem recovered_of_run {n : Nat} {cfgs : List RingConfig} {tr tr' : List Act} {st st' : State}
    (h : RunWhere (step n) (fun _ st a => Serving cfgs st a) (init cfgs) tr st) (hdead : Deserted st)
    (h' : RunWhere (step n) (fun _ st a => Serving cfgs st a ∧ ∀ c, a ≠ .spawn c) st tr' st')
    (hscan : .trackClients ∈ tr') (hend : IterationEnd st') (hpending : st'.server.pending = []) :
    Recovered n cfgs st' := by
  have hserved : Served n cfgs st := h.invariant (I := fun _ st => Served n cfgs st) (served_init n cfgs)
    fun _ _ _ _ hs hG e => hs.step hG (Step.of_eq e)
  have hinv := h'.invariant
    (I := fun tr st => Served n cfgs st ∧ Deserted st ∧ (.trackClients ∈ tr → Recovering n cfgs st))
    ⟨hserved, hdead, fun hm => absurd hm List.not_mem_nil⟩ fun tr st a st' ⟨hs, hd, hr⟩ ⟨hG, hspawn⟩ e => by
      have e' := Step.of_eq e
      refine ⟨hs.step hG e', (e'.deserted hd hspawn).1, fun hm => ?_⟩
      by_cases ha : a = .trackClients
      · subst ha
        exact Recovering.start hs e'
      · have hr' := hr ((List.mem_append.1 hm).resolve_right fun hm => ha (List.mem_singleton.1 hm).symm)
        exact ⟨hr'.fresh_step hs hd hspawn e', hr'.progress_step hs hd hG hspawn e⟩
  obtain ⟨hpc, success, hlast⟩ := hend
  have hprogress := (hinv.2.2 hscan).progress hpending
  rw [Progress, hpc] at hprogress
  exact hprogress success hlast

/-- The acts that `Serving` says nothing of. -/
def Act.free : Act → Bool
  | .exit _ | .join _ _ _ _ | .write _ _ _ | .drop _ | .leave _ _ | .inspect | .bringUpStep => true
  | _ => false

private theorem serving_of_free {cfgs : List RingConfig} {st : State} {a : Act} (ha : a.free = true) :
    Serving cfgs st a ∧ ∀ c, a ≠ .spawn c := by
  cases a with
  | spawn | reapClient | trackClients | trackClient | bringUp => cases ha
  | _ => exact ⟨⟨by constructor <;> simp, by simp [Opens], by simp [NotReused], by simp⟩, by simp⟩

private theorem serving_trackClients {cfgs : List RingConfig} {st : State} (h : st.server.last ≠ some .trackClients) :
    Serving cfgs st .trackClients ∧ ∀ c, Act.trackClients ≠ .spawn c :=
  ⟨⟨⟨by simp, fun _ => h, by simp⟩, by simp [Opens], by simp [NotReused], by simp⟩, by simp⟩

private theorem serving_bringUp {cfgs : List RingConfig} {st : State} (h : st.server.last = some .trackClients) :
    Serving cfgs st (.bringUp cfgs) ∧ ∀ c, Act.bringUp cfgs ≠ .spawn c :=
  ⟨⟨⟨by simp, by simp, fun _ _ => h⟩, by simp [Opens], by simp [NotReused], by simp⟩, by simp⟩

/-- A client takes its ring, and the word that says who is blocked, and exits when it has been tracked; the next
iteration reaps it and gets the ring back. -/
theorem recovered_of_run_crash : ∃ st, Recovered 1 [oneRing] st ∧ slotClass ((st.ring 0).owner .left) = .available ∧
    (st.ring 0).generation = 1 := by
  have hfree : ∀ l : List Act, l.all Act.free = true → ∀ a ∈ l, ∀ (_ : List Act) st,
      Serving [oneRing] st a ∧ ∀ c, a ≠ .spawn c :=
    fun l hl a ha _ _ => serving_of_free (List.all_eq_true.1 hl a ha)
  have h₀ : RunWhere (step 1) (fun _ st a => Serving [oneRing] st a) (init [oneRing]) [] (init [oneRing]) := .nil
  have h₁ := h₀.snoc (a := .spawn ⟨5⟩)
    ⟨by constructor <;> simp, by simp [Opens], fun _ _ => ⟨rfl, by simp [init]⟩, by simp⟩ rfl
  have h₂ := h₁.append_run [.join 0 ⟨5⟩ 0 .left, .write 0 (.producer .left) 7, .write 0 .blocked 1]
    (run_iff_exec.2 rfl) fun a ha tr st => (hfree _ rfl a ha tr st).1
  have h₃ := (h₂.snoc (a := .trackClients) (serving_trackClients (by decide)).1 rfl).append_run [.inspect]
    (run_iff_exec.2 rfl) fun a ha tr st => (hfree _ rfl a ha tr st).1
  have h₄ := h₃.snoc (a := .trackClient true) ⟨by constructor <;> simp,
    fun _ _ _ _ ha hpc _ => by cases ha; cases hpc; exact ⟨rfl, by decide⟩, by simp [NotReused], by simp⟩ rfl
  have h₅ := (h₄.append_run [.inspect] (run_iff_exec.2 rfl) fun a ha tr st => (hfree _ rfl a ha tr st).1).snoc
    (a := .bringUp [oneRing]) (serving_bringUp rfl).1 rfl
  have h₆ := h₅.append_run [.bringUpStep, .exit ⟨5⟩] (run_iff_exec.2 rfl) fun a ha tr st => (hfree _ rfl a ha tr st).1
  -- nobody is left
  have hnil : ∀ {tr st}, RunWhere (step 1) (fun _ st a => Serving [oneRing] st a) (init [oneRing]) tr st →
      RunWhere (step 1) (fun _ st a => Serving [oneRing] st a ∧ ∀ c, a ≠ .spawn c) st [] st := fun _ => .nil
  have h₇ := (hnil h₆).snoc (a := .reapClient ⟨⟨0, 0⟩, ⟨5⟩⟩)
    ⟨⟨⟨fun _ _ => ⟨by decide, by decide⟩, by simp, by simp⟩, by simp [Opens], by simp [NotReused], by simp⟩, by simp⟩ rfl
  have h₈ := (h₇.append_run [.leave (0, .left) false] (run_iff_exec.2 rfl) (hfree _ rfl)).snoc (a := .trackClients)
    (serving_trackClients (by decide)) rfl
  have h₉ := (h₈.append_run [.inspect, .inspect] (run_iff_exec.2 rfl) (hfree _ rfl)).snoc (a := .bringUp [oneRing])
    (serving_bringUp rfl) rfl
  have h₁₀ := h₉.append_run (List.replicate 14 .bringUpStep) (run_iff_exec.2 rfl) (hfree _ rfl)
  refine ⟨_, recovered_of_run h₆ (fun c => ?_) h₁₀ (by decide) ⟨rfl, 1, rfl⟩ rfl, rfl, rfl⟩
  by_cases hc : c = ⟨5⟩
  · subst hc
    rfl
  · exact (Function.update_of_ne hc ..).trans (Function.update_of_ne hc ..)

end Authority

end ShmRing
