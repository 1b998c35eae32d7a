import ShmRing.Authority

/-!
# What a step can do

Every step of the system, with the state it leads to written out (`Step.of_eq`); what is shown of runs is shown by
cases on it.  Each loop of the server either takes its next round or returns.

Of the names it is shown that those of clients are process ids, so that an owner word says which client it is.
-/

namespace ShmRing

namespace Authority

@[simp] theorem RingState.setOwner_self (r : RingState) (s : ClientSide) : r.setOwner s (r.owner s) = r := by
  simp only [RingState.setOwner, Function.update_eq_self]

@[simp] theorem State.setRing_self (st : State) (idx : Nat) : st.setRing idx (st.ring idx) = st := by
  simp only [State.setRing, Function.update_eq_self]

theorem Clients.put_self (cl : Clients) (k : Nat) (hd : Handle) : (cl.put k hd).handle k = some hd :=
  Function.update_self ..

theorem Clients.put_of_ne (cl : Clients) {k k' : Nat} (hd : Handle) (h : k' ≠ k) :
    (cl.put k hd).handle k' = cl.handle k' :=
  Function.update_of_ne h ..

/-- A handle after one was put is that one, or another that was there. -/
theorem Clients.put_eq_some {cl : Clients} {k k' : Nat} {hd hd' : Handle} (h : (cl.put k hd).handle k' = some hd') :
    k' = k ∧ hd' = hd ∨ k' ≠ k ∧ cl.handle k' = some hd' := by
  by_cases he : k' = k
  · subst he
    rw [Clients.put_self] at h
    exact .inl ⟨rfl, (Option.some.inj h).symm⟩
  · rw [Clients.put_of_ne cl hd he] at h
    exact .inr ⟨he, h⟩

theorem State.setRing_owner (st : State) (r r' : Nat × ClientSide) (v : UInt32) :
    ((st.setRing r.1 ((st.ring r.1).setOwner r.2 v)).ring r'.1).owner r'.2 =
      if r' = r then v else (st.ring r'.1).owner r'.2 := by
  by_cases he : r' = r
  · rw [if_pos he, he]
    simp only [setRing, RingState.setOwner, Function.update_self]
  · rw [if_neg he]
    by_cases hi : r'.1 = r.1
    · have hs : r'.2 ≠ r.2 := fun hs => he (Prod.ext hi hs)
      simp only [setRing, hi, Function.update_self, RingState.setOwner, Function.update_of_ne hs]
    · simp only [setRing, Function.update_of_ne hi]

/-! ### The loops of the server -/

/-- `reap_client` goes on with these rings or returns. -/
def ReapNext (c : ClientIdentifier) (rings : List (Nat × ClientSide)) (pc : ServerPc) (last : Option Call) : Prop :=
  pc = .reaping c rings ∨ pc = .idle ∧ last = some .reapClient

/-- `track_clients` goes on behind this slot or returns. -/
def TrackNext (n idx : Nat) (side : ClientSide) (pc : ServerPc) (last : Option Call) : Prop :=
  side = .left ∧ pc = .tracking idx .right ∨ side = .right ∧ pc = .tracking (idx + 1) .left ∨
    side = .right ∧ n ≤ idx + 1 ∧ pc = .idle ∧ last = some .trackClients

/-- `bring_up` goes on with this ring, or with the next, or it is at its end. -/
def BringUpNext (ids : List RingConfig) (idx success : Nat) (out : RingState.Outcome) (pc : ServerPc)
    (last : Option Call) : Prop :=
  (∃ p, out = .goto p ∧ pc = .bringUp ids idx p success) ∨
    (∃ success', pc = .bringUp ids.tail (idx + 1) .checkLhs success' ∨ pc = .idle ∧ last = some (.bringUp success')) ∨
      pc = .stopped

namespace ServerState

theorem reapFrom_eq (sv : ServerState) (c : ClientIdentifier) (rings : List (Nat × ClientSide)) :
    ∃ pc last, sv.reapFrom c rings = { sv with pc, last } ∧ ReapNext c rings pc last := by
  unfold reapFrom
  split
  · exact ⟨_, _, rfl, .inr ⟨rfl, rfl⟩⟩
  · exact ⟨_, _, rfl, .inl rfl⟩

theorem trackFrom_eq (n : Nat) (sv : ServerState) (idx : Nat) :
    ∃ pc last, sv.trackFrom n idx = { sv with pc, last } ∧
      (pc = .tracking idx .left ∨ n ≤ idx ∧ pc = .idle ∧ last = some .trackClients) := by
  unfold trackFrom
  split
  · exact ⟨_, _, rfl, .inl rfl⟩
  · exact ⟨_, _, rfl, .inr ⟨Nat.le_of_not_lt (by assumption), rfl, rfl⟩⟩

theorem trackNext_eq (n : Nat) (sv : ServerState) (idx : Nat) (side : ClientSide) :
    ∃ pc last, sv.trackNext n idx side = { sv with pc, last } ∧ TrackNext n idx side pc last := by
  cases side with
  | left => exact ⟨_, _, rfl, .inl ⟨rfl, rfl⟩⟩
  | right =>
    obtain ⟨pc, last, he, hpc⟩ := trackFrom_eq n sv (idx + 1)
    exact ⟨pc, last, he, .inr (hpc.imp (fun h => ⟨rfl, h⟩) fun h => ⟨rfl, h⟩)⟩

private theorem bringUpFrom_eq (n : Nat) (sv : ServerState) (ids : List RingConfig) (idx success : Nat) :
    ∃ pc last, sv.bringUpFrom n ids idx success = { sv with pc, last } ∧
      (pc = .bringUp ids idx .checkLhs success ∨ pc = .idle ∧ last = some (.bringUp success)) := by
  unfold bringUpFrom
  split
  · exact ⟨_, _, rfl, .inl rfl⟩
  · exact ⟨_, _, rfl, .inr ⟨rfl, rfl⟩⟩

theorem bringUpNext_eq (n : Nat) (sv : ServerState) (ids : List RingConfig) (idx success : Nat)
    (out : RingState.Outcome) :
    ∃ pc last, sv.bringUpNext n ids idx success out = { sv with pc, last } ∧
      BringUpNext ids idx success out pc last := by
  cases out with
  | goto p => exact ⟨_, _, rfl, .inl ⟨p, rfl, rfl⟩⟩
  | next done =>
    obtain ⟨pc, last, he, hpc⟩ := bringUpFrom_eq n sv ids.tail (idx + 1) (success + done.toNat)
    exact ⟨pc, last, he, .inr (.inl ⟨_, hpc⟩)⟩
  | panicked => exact ⟨_, _, rfl, .inr (.inr rfl)⟩

end ServerState

namespace State

/-- The owner word that a round of `reap_client` leaves in a slot. -/
def leaves (n : Nat) (c : ClientIdentifier) (r : Nat × ClientSide) (spurious : Bool) (owner : UInt32) : UInt32 :=
  if r.1 < n ∧ owner = c.word ∧ spurious = false then 0 else owner

variable {n : Nat} {c : ClientIdentifier} {rings : List (Nat × ClientSide)} {r : Nat × ClientSide} {spurious : Bool}

theorem leave_eq (st : State) (rings : List (Nat × ClientSide)) (r : Nat × ClientSide) (spurious : Bool)
    (hc : r.1 < n → c.Valid) :
    ∃ pc last, st.leave n c rings r spurious =
        { st.setRing r.1 ((st.ring r.1).setOwner r.2 (leaves n c r spurious ((st.ring r.1).owner r.2))) with
          server := { st.server with pc, last } } ∧
      ReapNext c (rings.erase r) pc last := by
  obtain ⟨pc, last, he, hnext⟩ := st.server.reapFrom_eq c (rings.erase r)
  refine ⟨pc, last, ?_, hnext⟩
  simp only [leave, he]
  split
  · rename_i hlt
    have howner : leaves n c r spurious ((st.ring r.1).owner r.2) =
        if (st.ring r.1).owner r.2 = c.asI32.toUInt32 ∧ spurious = false then 0 else (st.ring r.1).owner r.2 := by
      simp only [leaves, hlt, true_and, ClientIdentifier.word]
    rw [ClientSlot.leave_eq (hc hlt), howner]
    by_cases h : (st.ring r.1).owner r.2 = c.asI32.toUInt32 ∧ spurious = false
    · simp only [if_pos h]
    · simp only [if_neg h]
  · rename_i hlt
    rw [leaves, if_neg fun h => hlt h.1, RingState.setOwner_self, setRing_self]

theorem leave_of_not_valid {st : State} (hlt : r.1 < n) (hc : ¬ c.Valid) :
    st.leave n c rings r spurious = { st with server := { st.server with pc := .stopped } } := by
  simp only [leave, if_pos hlt, ClientSlot.leave, ClientIdentifier.toSlotId, if_neg hc, Except.map]

end State

/-! ### The steps -/

inductive Step (n : Nat) (st : State) : Act → State → Prop
  | spawn {c : ClientIdentifier} (hpid : c.IsPid) (hfree : st.clients.process c = none) :
      Step n st (.spawn c) { st with clients := st.clients.spawn c }
  | exit {c : ClientIdentifier} : Step n st (.exit c) { st with clients := st.clients.exit c }
  | refused {h idx : Nat} {c : ClientIdentifier} {side : ClientSide} (hfree : st.clients.handle h = none)
      (hclosed : idx < n → c.Valid → slotClass ((st.ring idx).owner side) ≠ .available) :
      Step n st (.join h c idx side) st
  | join {h : Nat} {hd : Handle} (hp : st.clients.process hd.client = some hd.process)
      (hfree : st.clients.handle h = none) (hlt : hd.ring < n)
      (hopen : slotClass ((st.ring hd.ring).owner hd.side) = .available) (hlive : hd.dropped = false)
      (hgen : hd.generation = (st.ring hd.ring).generation) (hscan : hd.scan = st.server.scans) :
      Step n st (.join h hd.client hd.ring hd.side) (st.enter h hd hd.client.word)
  | write {h : Nat} {hd : Handle} {w : HeadWord} {v : UInt32} (hh : st.clients.handle h = some hd)
      (hlive : st.clients.Live hd) (hw : ∀ s, w.side = some s → s = hd.side) :
      Step n st (.write h w v) (st.write h hd w v)
  | drop {h : Nat} {hd : Handle} (hh : st.clients.handle h = some hd) (hlive : st.clients.Live hd) :
      Step n st (.drop h) (st.drop h hd)
  | reapUntracked {t : TrackedClient} (hpc : st.server.pc = .idle) (hmem : t ∈ st.server.pending)
      (hgone : st.clients.process t.client ≠ some t.pidFd.process) (hdata : st.server.task.tracker t.client = none) :
      Step n st (.reapClient t) { st with server := { st.server with
        pending := st.server.pending.erase t, pc := .idle, last := some .reapClient } }
  | reapTracked {t : TrackedClient} {data : ClientTrackingData} {pc : ServerPc} {last : Option Call}
      (hpc : st.server.pc = .idle) (hmem : t ∈ st.server.pending)
      (hgone : st.clients.process t.client ≠ some t.pidFd.process)
      (hdata : st.server.task.tracker t.client = some data) (harc : data.pid.arc = t.pidFd.arc)
      (hnext : ReapNext t.client data.rings pc last) :
      Step n st (.reapClient t) { st with server := { st.server with
        pending := st.server.pending.erase t
        task := ⟨Function.update st.server.task.tracker t.client none⟩, pc, last } }
  | reapPanics {t : TrackedClient} {data : ClientTrackingData} (hpc : st.server.pc = .idle)
      (hmem : t ∈ st.server.pending) (hgone : st.clients.process t.client ≠ some t.pidFd.process)
      (hdata : st.server.task.tracker t.client = some data) (harc : data.pid.arc ≠ t.pidFd.arc) :
      Step n st (.reapClient t) { st with server := { st.server with
        pending := st.server.pending.erase t
        task := ⟨Function.update st.server.task.tracker t.client none⟩, pc := .stopped } }
  | leave {c : ClientIdentifier} {rings : List (Nat × ClientSide)} {r : Nat × ClientSide} {pc : ServerPc}
      {last : Option Call} (hpc : st.server.pc = .reaping c rings) (hmem : r ∈ rings) (hlt : r.1 < n)
      (howner : (st.ring r.1).owner r.2 = c.word) (hnext : ReapNext c (rings.erase r) pc last) :
      Step n st (.leave r false) { st.setRing r.1 ((st.ring r.1).setOwner r.2 0) with
        server := { st.server with pc, last } }
  | stay {c : ClientIdentifier} {rings : List (Nat × ClientSide)} {r : Nat × ClientSide} {spurious : Bool}
      {pc : ServerPc} {last : Option Call} (hpc : st.server.pc = .reaping c rings) (hmem : r ∈ rings)
      (hno : r.1 < n → (st.ring r.1).owner r.2 = c.word → spurious = true)
      (hnext : ReapNext c (rings.erase r) pc last) :
      Step n st (.leave r spurious) { st with server := { st.server with pc, last } }
  | leavePanics {c : ClientIdentifier} {rings : List (Nat × ClientSide)} {r : Nat × ClientSide} {spurious : Bool}
      (hpc : st.server.pc = .reaping c rings) (hc : ¬ c.Valid) :
      Step n st (.leave r spurious) { st with server := { st.server with pc := .stopped } }
  | trackClients {pc : ServerPc} {last : Option Call} (hpc : st.server.pc = .idle)
      (hnext : pc = .tracking 0 .left ∨ n ≤ 0 ∧ pc = .idle ∧ last = some .trackClients) :
      Step n st .trackClients
        { st with server := { st.server with scans := st.server.scans + 1, pc, last } }
  | inspect {idx : Nat} {side : ClientSide} (hpc : st.server.pc = .tracking idx side)
      (hclass : slotClass ((st.ring idx).owner side) = .client) :
      Step n st .inspect
        { st with server := { st.server with pc := .found idx side ⟨((st.ring idx).owner side).toUInt64⟩ } }
  | skip {idx : Nat} {side : ClientSide} {pc : ServerPc} {last : Option Call}
      (hpc : st.server.pc = .tracking idx side) (hclass : slotClass ((st.ring idx).owner side) ≠ .client)
      (hnext : TrackNext n idx side pc last) : Step n st .inspect { st with server := { st.server with pc, last } }
  | trackAgain {idx : Nat} {side : ClientSide} {c : ClientIdentifier} {openOk : Bool} {data : ClientTrackingData}
      {pc : ServerPc} {last : Option Call} (hpc : st.server.pc = .found idx side c)
      (hdata : st.server.task.tracker c = some data) (hnext : TrackNext n idx side pc last) :
      Step n st (.trackClient openOk) { st with server := { st.server with
        task := ⟨Function.update st.server.task.tracker c (some { data with rings := data.rings.insert (idx, side) })⟩
        arcs := st.server.arcs + 1, pc, last } }
  | trackNew {idx p : Nat} {side : ClientSide} {c : ClientIdentifier} {pc : ServerPc} {last : Option Call}
      (hpc : st.server.pc = .found idx side c) (hdata : st.server.task.tracker c = none)
      (hp : st.clients.process c = some p) (hnext : TrackNext n idx side pc last) :
      Step n st (.trackClient true) { st with server := { st.server with
        task := ⟨Function.update st.server.task.tracker c (some ⟨⟨st.server.arcs, p⟩, [(idx, side)]⟩)⟩
        pending := st.server.pending ++ [⟨⟨st.server.arcs, p⟩, c⟩]
        arcs := st.server.arcs + 1, pc, last } }
  | trackFails {idx : Nat} {side : ClientSide} {c : ClientIdentifier} {openOk : Bool} {pc : ServerPc}
      {last : Option Call} (hpc : st.server.pc = .found idx side c) (hdata : st.server.task.tracker c = none)
      (hp : openOk = true → st.clients.process c = none) (hnext : TrackNext n idx side pc last) :
      Step n st (.trackClient openOk) { st with server := { st.server with arcs := st.server.arcs + 1, pc, last } }
  | bringUp {ids : List RingConfig} {pc : ServerPc} {last : Option Call} (hpc : st.server.pc = .idle)
      (hnext : pc = .bringUp ids 0 .checkLhs 0 ∨ pc = .idle ∧ last = some (.bringUp 0)) :
      Step n st (.bringUp ids) { st with server := { st.server with pc, last } }
  | bringUpStep {cfg : RingConfig} {ids : List RingConfig} {idx success : Nat} {p : RingState.Pc} {pc : ServerPc}
      {last : Option Call} (hpc : st.server.pc = .bringUp (cfg :: ids) idx p success)
      (hnext : BringUpNext (cfg :: ids) idx success ((st.ring idx).bringUp cfg p).2 pc last) :
      Step n st .bringUpStep { st.setRing idx ((st.ring idx).bringUp cfg p).1 with
        server := { st.server with pc, last } }

namespace Step

variable {n : Nat} {st st' : State} {a : Act}

private theorem of_join {h p idx : Nat} {c : ClientIdentifier} {side : ClientSide}
    (hp : st.clients.process c = some p) (hfree : st.clients.handle h = none) :
    Step n st (.join h c idx side) (st.join n h c p idx side) := by
  unfold State.join
  split
  · rename_i hlt
    by_cases hv : c.Valid
    · rw [ClientSlot.insert_of_valid hv]
      cases hclass : slotClass ((st.ring idx).owner side) with
      | available =>
        exact @Step.join n st h ⟨p, c, idx, side, false, _, _⟩ hp hfree hlt hclass rfl rfl rfl
      | _ => exact .refused hfree fun _ _ => by rw [hclass]; decide
    · rw [ClientSlot.insert_of_not_valid hv]
      exact .refused hfree fun _ hv' => absurd hv' hv
  · exact .refused hfree fun hlt => absurd hlt (by assumption)

private theorem of_reapClient {t : TrackedClient} (hpc : st.server.pc = .idle) (hmem : t ∈ st.server.pending)
    (hgone : st.clients.process t.client ≠ some t.pidFd.process) :
    Step n st (.reapClient t) { st with server := st.server.reapClient t } := by
  unfold ServerState.reapClient
  cases hdata : st.server.task.tracker t.client with
  | none =>
    simp only [hdata]
    exact .reapUntracked hpc hmem hgone hdata
  | some data =>
    simp only [hdata]
    by_cases harc : data.pid.arc = t.pidFd.arc
    · obtain ⟨pc, last, he, hnext⟩ := ServerState.reapFrom_eq { st.server with
          pending := st.server.pending.erase t, task := ⟨Function.update st.server.task.tracker t.client none⟩ }
        t.client data.rings
      rw [if_pos harc, he]
      exact .reapTracked hpc hmem hgone hdata harc hnext
    · rw [if_neg harc]
      exact .reapPanics hpc hmem hgone hdata harc

private theorem of_leave {c : ClientIdentifier} {rings : List (Nat × ClientSide)} {r : Nat × ClientSide}
    (spurious : Bool) (hpc : st.server.pc = .reaping c rings) (hmem : r ∈ rings) :
    Step n st (.leave r spurious) (st.leave n c rings r spurious) := by
  by_cases hc : r.1 < n ∧ ¬ c.Valid
  · rw [State.leave_of_not_valid hc.1 hc.2]
    exact .leavePanics hpc hc.2
  · obtain ⟨pc, last, he, hnext⟩ :=
      st.leave_eq rings r spurious fun hlt => not_not.1 fun hv => hc ⟨hlt, hv⟩
    rw [he, State.leaves]
    by_cases hfree : r.1 < n ∧ (st.ring r.1).owner r.2 = c.word ∧ spurious = false
    · obtain ⟨hlt, howner, rfl⟩ := hfree
      rw [if_pos ⟨hlt, howner, rfl⟩]
      exact .leave hpc hmem hlt howner hnext
    · rw [if_neg hfree, RingState.setOwner_self, State.setRing_self]
      exact .stay hpc hmem (fun hlt howner => by simpa [hlt, howner] using hfree) hnext

private theorem of_trackClient {idx : Nat} {side : ClientSide} {c : ClientIdentifier} (openOk : Bool)
    (hpc : st.server.pc = .found idx side c) :
    Step n st (.trackClient openOk) { st with
      server := (st.server.trackClient c idx side (if openOk then st.clients.process c else none)).trackNext n idx
        side } := by
  obtain ⟨pc, last, he, hnext⟩ := ServerState.trackNext_eq n
    (st.server.trackClient c idx side (if openOk then st.clients.process c else none)) idx side
  rw [he]
  simp only [ServerState.trackClient, ServerTask.trackClient]
  cases hdata : st.server.task.tracker c with
  | some data =>
    simp only [Option.toList_none, List.append_nil]
    exact .trackAgain hpc hdata hnext
  | none =>
    cases openOk with
    | false => simpa using (Step.trackFails hpc hdata nofun hnext : Step n st (.trackClient false) _)
    | true =>
      cases hp : st.clients.process c with
      | none => simpa [hp] using (Step.trackFails hpc hdata (fun _ => hp) hnext : Step n st (.trackClient true) _)
      | some p => simpa [hp] using Step.trackNew hpc hdata hp hnext

theorem of_eq (e : step n st a = some st') : Step n st a st' := by
  cases a with
  | spawn c =>
    obtain ⟨h, e⟩ := Option.ite_none_right_eq_some.1 e
    cases e
    exact .spawn h.1 h.2
  | exit c => cases e; exact .exit
  | join h c idx side =>
    simp only [step] at e
    split at e
    · cases e
      exact .of_join (by assumption) (by assumption)
    · cases e
  | write h w v =>
    simp only [step] at e
    split at e
    · obtain ⟨hw, e⟩ := Option.ite_none_right_eq_some.1 e
      cases e
      exact .write (by assumption) hw.1 fun s hs => hw.2 s (Option.mem_def.2 hs)
    · cases e
  | drop h =>
    simp only [step] at e
    split at e
    · obtain ⟨hl, e⟩ := Option.ite_none_right_eq_some.1 e
      cases e
      exact .drop (by assumption) hl
    · cases e
  | reapClient t =>
    obtain ⟨h, e⟩ := Option.ite_none_right_eq_some.1 e
    cases e
    exact .of_reapClient h.1 h.2.1 h.2.2
  | leave r spurious =>
    simp only [step] at e
    split at e
    · obtain ⟨hm, e⟩ := Option.ite_none_right_eq_some.1 e
      cases e
      exact .of_leave spurious (by assumption) hm
    · cases e
  | trackClients =>
    obtain ⟨h, e⟩ := Option.ite_none_right_eq_some.1 e
    obtain ⟨pc, last, he, hnext⟩ := ServerState.trackFrom_eq n { st.server with scans := st.server.scans + 1 } 0
    rw [he] at e
    cases e
    exact .trackClients h hnext
  | inspect =>
    simp only [step] at e
    split at e
    · rename_i idx side hpc
      obtain ⟨pc, last, he, hnext⟩ := st.server.trackNext_eq n idx side
      rw [ClientSlot.inspect_eq, he] at e
      cases hclass : slotClass ((st.ring idx).owner side) with
      | client =>
        rw [hclass] at e
        cases e
        exact .inspect hpc hclass
      | _ =>
        rw [hclass] at e
        cases e
        exact .skip hpc (by rw [hclass]; decide) hnext
    · cases e
  | trackClient openOk =>
    simp only [step] at e
    split at e
    · cases e
      exact .of_trackClient openOk (by assumption)
    · cases e
  | bringUp ids =>
    obtain ⟨h, e⟩ := Option.ite_none_right_eq_some.1 e
    obtain ⟨pc, last, he, hnext⟩ := st.server.bringUpFrom_eq n ids 0 0
    rw [he] at e
    cases e
    exact .bringUp h hnext
  | bringUpStep =>
    simp only [step] at e
    split at e
    · rename_i cfg ids idx p success hpc
      obtain ⟨pc, last, he, hnext⟩ :=
        st.server.bringUpNext_eq n (cfg :: ids) idx success ((st.ring idx).bringUp cfg p).2
      rw [he] at e
      cases e
      exact .bringUpStep hpc hnext
    · cases e

end Step

/-- A step of `bring_up`, with how its loop goes on. -/
theorem step_bringUpStep {n : Nat} {st st' : State} (e : step n st .bringUpStep = some st') :
    ∃ cfg ids idx p success, st.server.pc = .bringUp (cfg :: ids) idx p success ∧
      st' = { st.setRing idx ((st.ring idx).bringUp cfg p).1 with
        server := st.server.bringUpNext n (cfg :: ids) idx success ((st.ring idx).bringUp cfg p).2 } := by
  simp only [step] at e
  split at e
  · rename_i cfg ids idx p success hpc
    exact ⟨cfg, ids, idx, p, success, hpc, (Option.some.inj e).symm⟩
  · cases e

/-! ### Names -/

/-- What holds of every entry of a map that was updated. -/
theorem forall_update {α β : Type} [DecidableEq α] {f : α → Option β} {P : α → β → Prop} {a : α} {o : Option β}
    (h : ∀ x y, f x = some y → P x y) (ha : ∀ y, o = some y → P a y) :
    ∀ x y, Function.update f a o x = some y → P x y :=
  (Function.forall_update_iff f fun x o => ∀ y, o = some y → P x y).2 ⟨ha, fun x _ => h x⟩

/-- Clients have process ids, and processes that are yet to start have a number that nobody has. -/
structure Clients.Ok (cl : Clients) : Prop where
  process : ∀ c p, cl.process c = some p → c.IsPid ∧ p < cl.born
  handle : ∀ h hd, cl.handle h = some hd → hd.client.IsPid ∧ hd.process < cl.born

namespace Clients.Ok

variable {cl : Clients} {c : ClientIdentifier}

private theorem spawn (h : cl.Ok) (hc : c.IsPid) : (cl.spawn c).Ok where
  process := forall_update (fun c p hp => ⟨(h.process c p hp).1, Nat.lt_succ_of_lt (h.process c p hp).2⟩)
    fun _ hp => by cases hp; exact ⟨hc, Nat.lt_succ_self _⟩
  handle k hd hk := ⟨(h.handle k hd hk).1, Nat.lt_succ_of_lt (h.handle k hd hk).2⟩

private theorem exit (h : cl.Ok) : (cl.exit c).Ok where
  process := forall_update h.process fun _ hp => by cases hp
  handle := h.handle

private theorem put (h : cl.Ok) {k : Nat} {hd : Handle} (hhd : hd.client.IsPid ∧ hd.process < cl.born) :
    (cl.put k hd).Ok where
  process := h.process
  handle := forall_update h.handle fun _ hp => by cases hp; exact hhd

theorem step {n : Nat} {st st' : State} {a : Act} (h : st.clients.Ok) (e : Step n st a st') : st'.clients.Ok := by
  cases e with
  | spawn hpid => exact h.spawn hpid
  | exit => exact h.exit
  | join hp => exact h.put (h.process _ _ hp)
  | drop hh =>
    have hhd := h.handle _ _ hh
    exact h.put hhd
  | _ => exact h

end Clients.Ok

/-- The client that the server is at was found in a slot or is tracked. -/
def ServerPc.IsPid : ServerPc → Prop
  | .reaping c _ => c.IsPid
  | .found _ _ c => c.IsPid
  | _ => True

structure Named (st : State) : Prop where
  clients : st.clients.Ok
  tracker : ∀ c data, st.server.task.tracker c = some data → c.IsPid
  pc : st.server.pc.IsPid

theorem named_init (cfgs : List RingConfig) : Named (init cfgs) where
  clients := ⟨fun _ _ h => (by cases h), fun _ _ h => (by cases h)⟩
  tracker _ _ h := by cases h
  pc := trivial

theorem Named.step {n : Nat} {st st' : State} {a : Act} (h : Named st) (e : Step n st a st') : Named st' := by
  have hclients := h.clients.step e
  have hreap : ∀ {c rings pc last}, c.IsPid → ReapNext c rings pc last → pc.IsPid := by
    rintro c rings pc last hc (rfl | ⟨rfl, -⟩)
    · exact hc
    · trivial
  have htrack : ∀ {idx side pc last}, TrackNext n idx side pc last → pc.IsPid := by
    rintro idx side pc last (⟨-, rfl⟩ | ⟨-, rfl⟩ | ⟨-, -, rfl, -⟩) <;> trivial
  cases e with
  | reapUntracked => exact ⟨hclients, h.tracker, trivial⟩
  | reapTracked _ _ _ hdata _ hnext =>
    exact ⟨hclients, forall_update h.tracker fun _ hp => (by cases hp), hreap (h.tracker _ _ hdata) hnext⟩
  | reapPanics => exact ⟨hclients, forall_update h.tracker fun _ hp => (by cases hp), trivial⟩
  | leave hpc _ _ _ hnext | stay hpc _ _ hnext =>
    have hc := h.pc
    rw [hpc] at hc
    exact ⟨hclients, h.tracker, hreap hc hnext⟩
  | leavePanics => exact ⟨hclients, h.tracker, trivial⟩
  | trackClients _ hnext =>
    refine ⟨hclients, h.tracker, ?_⟩
    rcases hnext with rfl | ⟨-, rfl, -⟩ <;> trivial
  | inspect _ hclass => exact ⟨hclients, h.tracker, (ClientIdentifier.isPid_of_slotClass hclass).1⟩
  | skip _ _ hnext => exact ⟨hclients, h.tracker, htrack hnext⟩
  | trackAgain hpc _ hnext | trackNew hpc _ _ hnext =>
    have hc := h.pc
    rw [hpc] at hc
    exact ⟨hclients, forall_update h.tracker fun _ _ => hc, htrack hnext⟩
  | trackFails _ _ _ hnext => exact ⟨hclients, h.tracker, htrack hnext⟩
  | bringUp _ hnext =>
    refine ⟨hclients, h.tracker, ?_⟩
    rcases hnext with rfl | ⟨rfl, -⟩ <;> trivial
  | bringUpStep _ hnext =>
    refine ⟨hclients, h.tracker, ?_⟩
    rcases hnext with ⟨p, -, rfl⟩ | ⟨success', rfl | ⟨rfl, -⟩⟩ | rfl <;> trivial
  | _ => exact ⟨hclients, h.tracker, h.pc⟩

/-! ### Descriptors -/

/-- Descriptors of one `Arc` are the same one. -/
structure Arcs (sv : ServerState) : Prop where
  arc_lt : ∀ c data, sv.task.tracker c = some data → data.pid.arc < sv.arcs
  pending_lt : ∀ t ∈ sv.pending, t.pidFd.arc < sv.arcs
  arc_inj : ∀ c data, sv.task.tracker c = some data → ∀ t ∈ sv.pending, data.pid.arc = t.pidFd.arc →
    data.pid = t.pidFd

theorem arcs_init (cfgs : List RingConfig) : Arcs (init cfgs).server where
  arc_lt _ _ h := by cases h
  pending_lt _ h := by cases h
  arc_inj _ _ h := by cases h

namespace Arcs

variable {sv : ServerState}

theorem goto (h : Arcs sv) {scans : Nat} {pc : ServerPc} {last : Option Call} : Arcs { sv with scans, pc, last } :=
  ⟨h.arc_lt, h.pending_lt, h.arc_inj⟩

private theorem erase (h : Arcs sv) {t : TrackedClient} {pc : ServerPc} {last : Option Call} :
    Arcs { sv with pending := sv.pending.erase t, pc, last } :=
  ⟨h.arc_lt, fun t ht => h.pending_lt t (List.mem_of_mem_erase ht),
    fun c data hd t ht => h.arc_inj c data hd t (List.mem_of_mem_erase ht)⟩

theorem reaped (h : Arcs sv) {t : TrackedClient} {pc : ServerPc} {last : Option Call} :
    Arcs { sv with
      pending := sv.pending.erase t, task := ⟨Function.update sv.task.tracker t.client none⟩, pc, last } where
  arc_lt := forall_update h.arc_lt nofun
  pending_lt t' ht := h.pending_lt t' (List.mem_of_mem_erase ht)
  arc_inj := forall_update (fun c data hd t' ht => h.arc_inj c data hd t' (List.mem_of_mem_erase ht)) nofun

/-- An entry has got further slots. -/
theorem extended (h : Arcs sv) {c : ClientIdentifier} {data : ClientTrackingData} {rings : List (Nat × ClientSide)}
    {pc : ServerPc} {last : Option Call} (hdata : sv.task.tracker c = some data) :
    Arcs { sv with
      task := ⟨Function.update sv.task.tracker c (some { data with rings })⟩, arcs := sv.arcs + 1, pc, last } where
  arc_lt := forall_update (fun c data hd => Nat.lt_succ_of_lt (h.arc_lt c data hd)) fun _ he => by
    cases he
    exact Nat.lt_succ_of_lt (h.arc_lt c data hdata)
  pending_lt t ht := Nat.lt_succ_of_lt (h.pending_lt t ht)
  arc_inj := forall_update h.arc_inj fun _ he => by
    cases he
    exact h.arc_inj c data hdata

/-- The new `Arc` is none of those that were there. -/
theorem opened (h : Arcs sv) {c : ClientIdentifier} {p : Nat} {rings : List (Nat × ClientSide)} {pc : ServerPc}
    {last : Option Call} :
    Arcs { sv with
      task := ⟨Function.update sv.task.tracker c (some ⟨⟨sv.arcs, p⟩, rings⟩)⟩
      pending := sv.pending ++ [⟨⟨sv.arcs, p⟩, c⟩], arcs := sv.arcs + 1, pc, last } where
  arc_lt := forall_update (fun c data hd => Nat.lt_succ_of_lt (h.arc_lt c data hd))
    fun _ he => by cases he; exact Nat.lt_succ_self _
  pending_lt t ht := by
    rcases List.mem_append.1 ht with ht | ht
    · exact Nat.lt_succ_of_lt (h.pending_lt t ht)
    · rw [List.mem_singleton.1 ht]
      exact Nat.lt_succ_self _
  arc_inj := by
    refine forall_update (fun c' data hd t ht he => ?_) fun data he t ht harc => ?_
    · rcases List.mem_append.1 ht with ht | ht
      · exact h.arc_inj c' data hd t ht he
      · rw [List.mem_singleton.1 ht] at he
        exact absurd he (Nat.ne_of_lt (h.arc_lt c' data hd))
    · cases he
      rcases List.mem_append.1 ht with ht | ht
      · exact absurd harc.symm (Nat.ne_of_lt (h.pending_lt t ht))
      · rw [List.mem_singleton.1 ht]

theorem failed (h : Arcs sv) {pc : ServerPc} {last : Option Call} : Arcs { sv with arcs := sv.arcs + 1, pc, last } :=
  ⟨fun c data hd => Nat.lt_succ_of_lt (h.arc_lt c data hd), fun t ht => Nat.lt_succ_of_lt (h.pending_lt t ht), h.arc_inj⟩

theorem step {n : Nat} {st st' : State} {a : Act} (h : Arcs st.server) (e : Step n st a st') : Arcs st'.server := by
  cases e with
  | reapUntracked => exact h.erase
  | reapTracked | reapPanics => exact h.reaped
  | leave | stay | leavePanics | trackClients | inspect | skip | bringUp | bringUpStep => exact h.goto
  | trackAgain _ hdata => exact h.extended hdata
  | trackNew => exact h.opened
  | trackFails => exact h.failed
  | _ => exact h

end Arcs

end Authority

end ShmRing
