import ShmRing.Steps

/-!
# What a step does to a slot

An owner word that is a client's after a step was either set by it, in a join, or it was there before, and then the
record of the last join is that of before too (`Step.slot`).  Only joins set such words: the server's exchanges take
nothing from a client, and those who leave store zero.
-/

namespace ShmRing

namespace Authority

namespace RingState

theorem setOwner_owner (r : RingState) (s t : ClientSide) (v : UInt32) :
    (r.setOwner s v).owner t = if t = s then v else r.owner t := Function.update_apply ..

private theorem setOwner_client {r : RingState} {s t : ClientSide} {v : UInt32}
    (hv : slotClass v = .client → v = r.owner s) (h : slotClass ((r.setOwner s v).owner t) = .client) :
    (r.setOwner s v).owner t = r.owner t := by
  rw [setOwner_owner] at h ⊢
  split at h
  · rename_i he
    rw [if_pos he, he, hv h]
  · rename_i he
    rw [if_neg he]

/-- The server takes nothing from a client. -/
private theorem bringUp_client {r : RingState} {cfg : RingConfig} {p : Pc} {t : ClientSide}
    (h : slotClass ((r.bringUp cfg p).1.owner t) = .client) : (r.bringUp cfg p).1.owner t = r.owner t := by
  revert h
  cases p with
  | checkLhs =>
    simp only [bringUp]
    split
    · split <;> exact fun _ => rfl
    · exact fun _ => rfl
  | checkRhs openLhs =>
    simp only [bringUp]
    split <;> exact fun _ => rfl
  | takeLhs => exact setOwner_client ClientSlot.takeForServer_client
  | takeRhs => exact setOwner_client ClientSlot.takeForServer_client
  | reset ws => cases ws <;> exact fun _ => rfl
  | reinitLhs =>
    simp only [bringUp]
    split
    · exact fun _ => rfl
    all_goals exact setOwner_client (ClientSlot.reinit_client (by assumption))
  | reinitRhs =>
    simp only [bringUp]
    split
    · exact fun _ => rfl
    all_goals exact setOwner_client (ClientSlot.reinit_client (by assumption))

theorem bringUp_holder (r : RingState) (cfg : RingConfig) (p : Pc) : (r.bringUp cfg p).1.holder = r.holder := by
  cases p with
  | reset ws => cases ws <;> rfl
  | _ =>
    simp only [bringUp]
    first
      | rfl
      | (repeat' split) <;> rfl

end RingState

/-- Before there is any client. -/
theorem init_owner (cfgs : List RingConfig) (idx : Nat) (side : ClientSide) :
    slotClass (((init cfgs).ring idx).owner side) ≠ .client := by
  change slotClass (cfgs[idx]?.elim 0 fun cfg => cfg.advertised side) ≠ .client
  cases cfgs[idx]? with
  | none =>
    show slotClass 0 ≠ .client
    decide
  | some cfg =>
    simp only [Option.elim_some, RingConfig.advertised]
    split
    · rename_i hneg
      rw [slotClass_eq_available.2 (toInt32_neg.1 (by simpa using hneg))]
      decide
    · decide

/-- What is put in place of a ring and takes nothing from a client. -/
private theorem setRing_client {st : State} {i idx : Nat} {r : RingState} {side : ClientSide}
    (hr : ∀ t, slotClass (r.owner t) = .client → r.owner t = (st.ring i).owner t)
    (h : slotClass (((st.setRing i r).ring idx).owner side) = .client) :
    ((st.setRing i r).ring idx).owner side = (st.ring idx).owner side := by
  by_cases hidx : idx = i
  · subst hidx
    simp only [State.setRing, Function.update_self] at h ⊢
    exact hr side h
  · simp only [State.setRing, Function.update_of_ne hidx]

theorem setRing_holder {st : State} {i : Nat} {r : RingState} (hr : r.holder = (st.ring i).holder) (idx : Nat) :
    ((st.setRing i r).ring idx).holder = (st.ring idx).holder := by
  by_cases hidx : idx = i
  · subst hidx
    simp only [State.setRing, Function.update_self]
    exact hr
  · simp only [State.setRing, Function.update_of_ne hidx]

/-- The handle that was the last to join the slot. -/
def LastJoin (st : State) (r : Nat × ClientSide) (k : Nat) (hd : Handle) : Prop :=
  (st.ring r.1).holder r.2 = some k ∧ st.clients.handle k = some hd

/-- The slot was joined by this step. -/
structure JoinedBy (st : State) (a : Act) (st' : State) (r : Nat × ClientSide) (k : Nat) (hd : Handle) : Prop where
  act : a = .join k hd.client r.1 r.2
  process : st.clients.process hd.client = some hd.process
  available : slotClass ((st.ring r.1).owner r.2) = .available
  scan : hd.scan = st.server.scans
  owner : (st'.ring r.1).owner r.2 = hd.client.word
  last : LastJoin st' r k hd

/-- The step leaves the slot to whom it was; he may have left. -/
structure SlotKept (st st' : State) (r : Nat × ClientSide) : Prop where
  owner : (st'.ring r.1).owner r.2 = (st.ring r.1).owner r.2
  last : ∀ k hd, LastJoin st r k hd → ∃ dropped, LastJoin st' r k { hd with dropped }

private theorem SlotKept.of_holder {st st' : State} {r : Nat × ClientSide}
    (howner : (st'.ring r.1).owner r.2 = (st.ring r.1).owner r.2)
    (hholder : (st'.ring r.1).holder r.2 = (st.ring r.1).holder r.2)
    (hhandle : ∀ k hd, st.clients.handle k = some hd → ∃ dropped, st'.clients.handle k = some { hd with dropped }) :
    SlotKept st st' r := by
  refine ⟨howner, fun k hd hl => ?_⟩
  obtain ⟨dropped, hh⟩ := hhandle k hd hl.2
  exact ⟨dropped, hholder.trans hl.1, hh⟩

namespace Step

variable {n : Nat} {st st' : State} {a : Act} {r : Nat × ClientSide}

theorem scans (e : Step n st a st') (ha : a ≠ .trackClients) : st'.server.scans = st.server.scans := by
  cases e with
  | trackClients => exact absurd rfl ha
  | _ => rfl

private theorem slot_join {k : Nat} {hd : Handle} (hp : st.clients.process hd.client = some hd.process)
    (hfree : st.clients.handle k = none) (hopen : slotClass ((st.ring hd.ring).owner hd.side) = .available)
    (hscan : hd.scan = st.server.scans) :
    (∃ k' hd', JoinedBy st (.join k hd.client hd.ring hd.side) (st.enter k hd hd.client.word) r k' hd') ∨
      SlotKept st (st.enter k hd hd.client.word) r := by
  by_cases hslot : r = (hd.ring, hd.side)
  · subst hslot
    refine .inl ⟨k, hd, rfl, hp, hopen, hscan, ?_, ?_, ?_⟩
    · simp only [State.enter, State.setRing, RingState.setOwner, Function.update_self]
    · simp only [State.enter, State.setRing, Function.update_self]
    · exact Clients.put_self ..
  · have hsame : ((st.enter k hd hd.client.word).ring r.1).owner r.2 = (st.ring r.1).owner r.2 ∧
        ((st.enter k hd hd.client.word).ring r.1).holder r.2 = (st.ring r.1).holder r.2 := by
      by_cases hidx : r.1 = hd.ring
      · have hside : r.2 ≠ hd.side := fun he => hslot (Prod.ext hidx he)
        simp only [State.enter, State.setRing, RingState.setOwner, hidx, Function.update_self,
          Function.update_of_ne hside, and_self]
      · simp only [State.enter, State.setRing, Function.update_of_ne hidx, and_self]
    refine .inr (.of_holder hsame.1 hsame.2 fun k' hd' hh => ⟨hd'.dropped, ?_⟩)
    have hne : k' ≠ k := fun he => by rw [he, hfree] at hh; cases hh
    exact (Clients.put_of_ne _ hd hne).trans hh

theorem slot (e : Step n st a st') (h : slotClass ((st'.ring r.1).owner r.2) = .client) :
    (∃ k hd, JoinedBy st a st' r k hd) ∨ SlotKept st st' r := by
  have hid : ∀ k hd, st.clients.handle k = some hd → ∃ dropped, st.clients.handle k = some { hd with dropped } :=
    fun _ hd hh => ⟨hd.dropped, hh⟩
  cases e with
  | join hp hfree _ hopen _ _ hscan => exact slot_join hp hfree hopen hscan
  | @drop k hd hh =>
    refine .inr (.of_holder (setRing_client (fun t => RingState.setOwner_client fun h₀ => by cases h₀) h)
      (congrFun (setRing_holder (by rfl) r.1) r.2) fun k' hd' hh' => ?_)
    by_cases hne : k' = k
    · subst hne
      obtain rfl : hd = hd' := Option.some.inj (hh.symm.trans hh')
      exact ⟨true, Clients.put_self ..⟩
    · exact ⟨hd'.dropped, (Clients.put_of_ne _ _ hne).trans hh'⟩
  | write =>
    exact .inr (.of_holder (setRing_client (fun _ _ => rfl) h) (congrFun (setRing_holder (by rfl) r.1) r.2) hid)
  | leave =>
    exact .inr (.of_holder (setRing_client (fun t => RingState.setOwner_client fun h₀ => by cases h₀) h)
      (congrFun (setRing_holder (by rfl) r.1) r.2) hid)
  | bringUpStep =>
    exact .inr (.of_holder (setRing_client (fun _ => RingState.bringUp_client) h)
      (congrFun (setRing_holder (RingState.bringUp_holder ..) r.1) r.2) hid)
  | _ => exact .inr (.of_holder rfl rfl hid)

end Step

end Authority

end ShmRing
