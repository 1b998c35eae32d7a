import ShmRing.Slots

/-!
# Crashed clients

The loop of the server reaps at most one client, scans the slots and brings up the rings.  What it is to guarantee is
that a slot whose process has exited is at the end of an iteration known to the tracker, with a descriptor that is
still to be waited for (`Covered`).

It is so in every run in which each scan can open the processes that it finds and does not yet track
(`covered_of_run`).  A client that exits before the first scan after its join is not tracked by that one or any later,
and nobody frees its slot (`not_covered`).
-/

namespace ShmRing

open Machine Transition

namespace Authority

/-- The order of the calls in an iteration. -/
structure InLoop (st : State) (a : Act) : Prop where
  reapClient : ∀ t, a = .reapClient t → st.server.last ≠ some .reapClient ∧ st.server.last ≠ some .trackClients
  trackClients : a = .trackClients → st.server.last ≠ some .trackClients
  bringUp : ∀ ids, a = .bringUp ids → st.server.last = some .trackClients

/-- The condition on a step of a run: a client that is not tracked when the scan comes to open its process runs, and
its descriptor can be had. -/
def Opens (st : State) (a : Act) : Prop :=
  ∀ openOk idx side c, a = .trackClient openOk → st.server.pc = .found idx side c →
    st.server.task.tracker c = none → openOk = true ∧ st.clients.process c ≠ none

/-- An iteration of the loop is at its end. -/
def IterationEnd (st : State) : Prop := st.server.pc = .idle ∧ ∃ success, st.server.last = some (.bringUp success)

/-- A slot with the owner word of the client that joined it last, before the last scan began, and whose process has
exited, is recorded in the tracker, and the tracked client is yet to be reaped. -/
def Covered (n : Nat) (st : State) : Prop :=
  ∀ idx side h hd, idx < n → (st.ring idx).holder side = some h → st.clients.handle h = some hd →
    (st.ring idx).owner side = hd.client.word → st.clients.process hd.client ≠ some hd.process →
    hd.scan < st.server.scans →
    ∃ data, st.server.task.tracker hd.client = some data ∧ (idx, side) ∈ data.rings ∧
      (⟨data.pid, hd.client⟩ : TrackedClient) ∈ st.server.pending

/-! ### Slots -/

/-- The last join was after the last scan began. -/
def Fresh (st : State) (idx : Nat) (side : ClientSide) : Prop :=
  ∃ h hd, (st.ring idx).holder side = some h ∧ st.clients.handle h = some hd ∧ hd.scan = st.server.scans

def Recorded (st : State) (idx : Nat) (side : ClientSide) : Prop :=
  ∃ c data, c.IsPid ∧ (st.ring idx).owner side = c.word ∧ st.server.task.tracker c = some data ∧ (idx, side) ∈ data.rings

/-- A slot is a client's after a step because it was just joined, or as it was before. -/
private theorem slot_step {n : Nat} {st st' : State} {a : Act} (e : Step n st a st') (ha : a ≠ .trackClients)
    {idx : Nat} {side : ClientSide} (h : slotClass ((st'.ring idx).owner side) = .client) :
    Fresh st' idx side ∨
      (st'.ring idx).owner side = (st.ring idx).owner side ∧ (Fresh st idx side → Fresh st' idx side) := by
  have hscans := e.scans ha
  rcases e.slot (r := (idx, side)) h with ⟨k, hd, hj⟩ | hkept
  · exact .inl ⟨k, hd, hj.last.1, hj.last.2, hj.scan.trans hscans.symm⟩
  · refine .inr ⟨hkept.owner, fun ⟨k, hd, hk, hh, hs⟩ => ?_⟩
    obtain ⟨dropped, hk', hh'⟩ := hkept.last k hd ⟨hk, hh⟩
    exact ⟨k, _, hk', hh', hs.trans hscans.symm⟩

/-! ### The scan -/

/-- The last scan has got past the slot, and no client was reaped since. -/
def Visited (idx : Nat) (side : ClientSide) : ServerPc → Option Call → Prop
  | .tracking i s, _ | .found i s _, _ => idx < i ∨ idx = i ∧ side = .left ∧ s = .right
  | .bringUp _ _ _ _, _ => True
  | .idle, last => last = some .trackClients ∨ ∃ success, last = some (.bringUp success)
  | .reaping _ _, _ | .stopped, _ => False

private theorem TrackNext.visited {n i idx : Nat} {s side : ClientSide} {pc : ServerPc} {last : Option Call}
    (h : TrackNext n i s pc last) (hlt : idx < n) (hv : Visited idx side pc last) :
    (idx < i ∨ idx = i ∧ side = .left ∧ s = .right) ∨ idx = i ∧ side = s := by
  rcases h with ⟨rfl, rfl⟩ | ⟨rfl, rfl⟩ | ⟨rfl, hle, rfl, rfl⟩
  · rcases hv with hv | ⟨rfl, rfl, -⟩
    · exact .inl (.inl hv)
    · exact .inr ⟨rfl, rfl⟩
  · rcases hv with hv | ⟨-, -, hs⟩
    · rcases Nat.lt_or_eq_of_le (Nat.le_of_lt_succ hv) with hv | rfl
      · exact .inl (.inl hv)
      · cases side
        · exact .inl (.inr ⟨rfl, rfl, rfl⟩)
        · exact .inr ⟨rfl, rfl⟩
    · cases hs
  · rcases Nat.lt_or_eq_of_le (Nat.le_of_lt_succ (Nat.lt_of_lt_of_le hlt hle)) with hv | rfl
    · exact .inl (.inl hv)
    · cases side
      · exact .inl (.inr ⟨rfl, rfl, rfl⟩)
      · exact .inr ⟨rfl, rfl⟩

/-- The invariant. -/
structure Scanned (n : Nat) (st : State) : Prop where
  named : Named st
  /-- Who is tracked is waited for. -/
  pending : ∀ c data, st.server.task.tracker c = some data → (⟨data.pid, c⟩ : TrackedClient) ∈ st.server.pending
  visited : ∀ idx side, idx < n → Visited idx side st.server.pc st.server.last →
    slotClass ((st.ring idx).owner side) = .client → Fresh st idx side ∨ Recorded st idx side
  /-- A slot that was just inspected may have been left and joined since. -/
  found : ∀ idx side c, st.server.pc = .found idx side c → slotClass ((st.ring idx).owner side) = .client →
    Fresh st idx side ∨ (st.ring idx).owner side = c.word

theorem scanned_init (n : Nat) (cfgs : List RingConfig) : Scanned n (init cfgs) where
  named := named_init cfgs
  pending _ _ h := by cases h
  visited _ _ _ hv := by
    rcases hv with hv | ⟨_, hv⟩ <;> cases hv
  found _ _ _ h := by cases h

private theorem Recorded.mono {st st' : State} {idx : Nat} {side : ClientSide} (h : Recorded st idx side)
    (howner : (st'.ring idx).owner side = (st.ring idx).owner side)
    (htracker : ∀ c data, st.server.task.tracker c = some data →
      ∃ data', st'.server.task.tracker c = some data' ∧ ∀ r ∈ data.rings, r ∈ data'.rings) : Recorded st' idx side := by
  obtain ⟨c, data, hc, hword, hdata, hmem⟩ := h
  obtain ⟨data', hdata', hrings⟩ := htracker c data hdata
  exact ⟨c, data', hc, howner.trans hword, hdata', hrings _ hmem⟩

/-- A slot that was fine remains so while the tracker forgets nothing. -/
private theorem slot_kept {n : Nat} {st st' : State} {a : Act} (e : Step n st a st') (ha : a ≠ .trackClients)
    (htracker : ∀ c data, st.server.task.tracker c = some data →
      ∃ data', st'.server.task.tracker c = some data' ∧ ∀ r ∈ data.rings, r ∈ data'.rings)
    {idx : Nat} {side : ClientSide}
    (h : slotClass ((st.ring idx).owner side) = .client → Fresh st idx side ∨ Recorded st idx side)
    (hclass : slotClass ((st'.ring idx).owner side) = .client) : Fresh st' idx side ∨ Recorded st' idx side := by
  rcases slot_step e ha hclass with hf | ⟨howner, hf⟩
  · exact .inl hf
  · rw [howner] at hclass
    exact (h hclass).imp hf fun hr => hr.mono howner htracker

namespace Scanned

variable {n : Nat} {st st' : State} {a : Act}

/-- A step that is not the server's. -/
private theorem client_step (h : Scanned n st) (e : Step n st a st') (ha : a ≠ .trackClients)
    (hserver : st'.server = st.server) : Scanned n st' := by
  refine ⟨h.named.step e, by rw [hserver]; exact h.pending, fun idx side hlt hv => ?_, fun idx side c hpc hclass => ?_⟩
  · rw [hserver] at hv
    exact slot_kept e ha (fun c data hd => ⟨data, by rw [hserver]; exact hd, fun _ hr => hr⟩) (h.visited idx side hlt hv)
  · rw [hserver] at hpc
    rcases slot_step e ha hclass with hf | ⟨howner, hf⟩
    · exact .inl hf
    · rw [howner] at hclass ⊢
      exact (h.found idx side c hpc hclass).imp_left hf

/-- The tracker forgets a client only with its last descriptor. -/
private theorem pending_erase (h : Scanned n st) {t : TrackedClient} :
    ∀ c data, Function.update st.server.task.tracker t.client none c = some data →
      (⟨data.pid, c⟩ : TrackedClient) ∈ st.server.pending.erase t := by
  intro c data hd
  have hne : c ≠ t.client := fun he => by rw [he, Function.update_self] at hd; cases hd
  rw [Function.update_of_ne hne] at hd
  exact (List.mem_erase_of_ne fun he => hne (congrArg TrackedClient.client he)).2 (h.pending c data hd)

/-- The slot that was found becomes recorded, and the others remain so. -/
private theorem track (h : Scanned n st) (e : Step n st a st') (ha : a ≠ .trackClients) {i : Nat} {s : ClientSide}
    {c : ClientIdentifier} {data : ClientTrackingData} (hpc : st.server.pc = .found i s c)
    (hnext : TrackNext n i s st'.server.pc st'.server.last)
    (htracker : st'.server.task.tracker = Function.update st.server.task.tracker c (some data))
    (hdata : ∀ old, st.server.task.tracker c = some old → ∀ r ∈ old.rings, r ∈ data.rings) (hmem : (i, s) ∈ data.rings)
    (hpending : ∀ c data, st'.server.task.tracker c = some data →
      (⟨data.pid, c⟩ : TrackedClient) ∈ st'.server.pending) : Scanned n st' := by
  have hself : st'.server.task.tracker c = some data := by rw [htracker, Function.update_self]
  have hmono : ∀ c' old, st.server.task.tracker c' = some old →
      ∃ data', st'.server.task.tracker c' = some data' ∧ ∀ r ∈ old.rings, r ∈ data'.rings := by
    intro c' old hold
    by_cases hc : c' = c
    · subst hc
      exact ⟨data, hself, hdata old hold⟩
    · exact ⟨old, by rw [htracker, Function.update_of_ne hc]; exact hold, fun _ hr => hr⟩
  refine ⟨h.named.step e, hpending, fun idx side hlt hv hclass => ?_, fun idx side c' hpc' => ?_⟩
  · rcases hnext.visited hlt hv with hv | ⟨rfl, rfl⟩
    · exact slot_kept e ha hmono (h.visited idx side hlt (by rw [hpc]; exact hv)) hclass
    · rcases slot_step e ha hclass with hf | ⟨howner, hf⟩
      · exact .inl hf
      · rw [howner] at hclass
        have hpid := h.named.pc
        rw [hpc] at hpid
        exact (h.found idx side c hpc hclass).imp hf fun hword => ⟨c, data, hpid, howner.trans hword, hself, hmem⟩
  · rcases hnext with ⟨-, he⟩ | ⟨-, he⟩ | ⟨-, -, he, -⟩ <;> rw [he] at hpc' <;> cases hpc'

theorem step (h : Scanned n st) (hloop : InLoop st a) (hopens : Opens st a) (e : Step n st a st') : Scanned n st' := by
  have hsame : ∀ c data, st.server.task.tracker c = some data →
      ∃ data', st.server.task.tracker c = some data' ∧ ∀ r ∈ data.rings, r ∈ data'.rings :=
    fun c data hd => ⟨data, hd, fun _ hr => hr⟩
  have hreap : ∀ {c r pc last idx side}, ReapNext c r pc last → ¬ Visited idx side pc last := by
    rintro c r pc last idx side (rfl | ⟨rfl, rfl⟩) hv
    · exact hv
    · rcases hv with hv | ⟨_, hv⟩ <;> cases hv
  -- reaping ends the validity of the last scan; the loop then scans again before it brings up
  have hreap' : ∀ {c rings pc last idx side c'}, ReapNext c rings pc last → pc ≠ .found idx side c' := by
    rintro c rings pc last idx side c' (rfl | ⟨rfl, -⟩) <;> nofun
  have e' := e
  cases e with
  | spawn | exit | refused | join | write | drop => exact h.client_step e' (by nofun) rfl
  | @reapUntracked t _ _ _ hdata =>
    refine ⟨h.named.step e', fun c data hd => h.pending_erase c data ?_, fun _ _ _ hv => ?_, nofun⟩
    · rw [Function.update_eq_self_iff.2 hdata.symm]
      exact hd
    · exact absurd hv (hreap (c := t.client) (r := []) (.inr ⟨rfl, rfl⟩))
  | reapTracked _ _ _ _ _ hnext =>
    exact ⟨h.named.step e', h.pending_erase, fun _ _ _ hv => absurd hv (hreap hnext),
      fun _ _ _ hpc => absurd hpc (hreap' hnext)⟩
  | reapPanics => exact ⟨h.named.step e', h.pending_erase, nofun, nofun⟩
  | leave _ _ _ _ hnext | stay _ _ _ hnext =>
    exact ⟨h.named.step e', h.pending, fun _ _ _ hv => absurd hv (hreap hnext),
      fun _ _ _ hpc => absurd hpc (hreap' hnext)⟩
  | leavePanics => exact ⟨h.named.step e', h.pending, nofun, nofun⟩
  | trackClients _ hnext =>
    rcases hnext with rfl | ⟨hn, rfl, -⟩
    · refine ⟨h.named.step e', h.pending, fun idx side _ hv => ?_, nofun⟩
      rcases hv with hv | ⟨-, -, hv⟩ <;> cases hv
    · exact ⟨h.named.step e', h.pending, fun idx side hlt => absurd (Nat.lt_of_lt_of_le hlt hn) (Nat.not_lt_zero idx),
        nofun⟩
  | @inspect i s hpc hclass =>
    refine ⟨h.named.step e', h.pending, fun idx side hlt hv => ?_, fun idx side c hc _ => ?_⟩
    · exact slot_kept e' (by nofun) hsame (h.visited idx side hlt (by rw [hpc]; exact hv))
    · cases hc
      exact .inr (ClientIdentifier.isPid_of_slotClass hclass).2.symm
  | skip hpc hclass hnext =>
    refine ⟨h.named.step e', h.pending, fun idx side hlt hv => ?_, fun idx side c hc => ?_⟩
    · rcases hnext.visited hlt hv with hv | ⟨rfl, rfl⟩
      · exact slot_kept e' (by nofun) hsame (h.visited idx side hlt (by rw [hpc]; exact hv))
      · exact fun hc => absurd hc hclass
    · rcases hnext with ⟨-, rfl⟩ | ⟨-, rfl⟩ | ⟨-, -, rfl, -⟩ <;> cases hc
  | @trackAgain i s c openOk data pc last hpc hdata hnext =>
    refine h.track e' (by nofun) hpc hnext rfl (fun old hold r hr => ?_) (List.mem_insert_self ..) ?_
    · obtain rfl : data = old := Option.some.inj (hdata.symm.trans hold)
      exact List.mem_insert_of_mem hr
    · refine forall_update h.pending fun data' hd => ?_
      have hmem := h.pending c data hdata
      cases hd
      exact hmem
  | @trackNew i p s c pc last hpc hdata hp hnext =>
    refine h.track e' (by nofun) hpc hnext rfl (fun old hold => ?_) (List.mem_singleton.2 rfl) ?_
    · rw [hdata] at hold
      cases hold
    · refine forall_update (fun c' data' hd => List.mem_append_left _ (h.pending c' data' hd)) fun data' hd => ?_
      cases hd
      exact List.mem_append_right _ (List.mem_singleton.2 rfl)
  | trackFails hpc hdata hp =>
    obtain ⟨hok, hrun⟩ := hopens _ _ _ _ rfl hpc hdata
    exact absurd (hp hok) hrun
  | bringUp hpc hnext =>
    have hv : ∀ idx side, Visited idx side st.server.pc st.server.last := fun idx side => by
      rw [hpc]
      exact .inl (hloop.bringUp _ rfl)
    refine ⟨h.named.step e', h.pending, fun idx side hlt _ => ?_, fun idx side c hc => ?_⟩
    · exact slot_kept e' (by nofun) hsame (h.visited idx side hlt (hv idx side))
    · rcases hnext with rfl | ⟨rfl, -⟩ <;> cases hc
  | bringUpStep hpc hnext =>
    have hv : ∀ idx side, Visited idx side st.server.pc st.server.last := fun idx side => by
      rw [hpc]
      trivial
    refine ⟨h.named.step e', h.pending, fun idx side hlt _ => ?_, fun idx side c hc => ?_⟩
    · exact slot_kept e' (by nofun) hsame (h.visited idx side hlt (hv idx side))
    · rcases hnext with ⟨p, -, rfl⟩ | ⟨success', rfl | ⟨rfl, -⟩⟩ | rfl <;> cases hc

private theorem covered (h : Scanned n st) (hend : IterationEnd st) : Covered n st := by
  intro idx side k hd hlt hholder hk howner _ hbefore
  obtain ⟨hpc, hlast⟩ := hend
  have hpid := (h.named.clients.handle k hd hk).1
  have hv : Visited idx side st.server.pc st.server.last := by
    rw [hpc]
    exact .inr hlast
  rcases h.visited idx side hlt hv (howner ▸ hpid.slotClass_word) with ⟨k', hd', hholder', hk', hscan⟩ | hr
  · obtain rfl : k = k' := Option.some.inj (hholder.symm.trans hholder')
    obtain rfl : hd = hd' := Option.some.inj (hk.symm.trans hk')
    exact absurd hbefore (by omega)
  · obtain ⟨c, data, hc, hword, hdata, hmem⟩ := hr
    obtain rfl : hd.client = c := hpid.word_inj hc (howner.symm.trans hword)
    exact ⟨data, hdata, hmem, h.pending _ data hdata⟩

end Scanned

/-- In a run of the server's loop and any clients in which every client that a scan finds untracked can be opened, all
crashed clients are covered at the end of each iteration. -/
theorem covered_of_run {n : Nat} {cfgs : List RingConfig} {tr : List Act} {st : State}
    (h : RunWhere (step n) (fun _ st a => InLoop st a ∧ Opens st a) (init cfgs) tr st) (hend : IterationEnd st) :
    Covered n st :=
  Scanned.covered (h.invariant (I := fun _ st => Scanned n st) (scanned_init n cfgs)
    fun _ _ _ _ hk hG e => hk.step hG.1 hG.2 (Step.of_eq e)) hend

private theorem inLoop_of_free {st : State} {a : Act} (ha : (∀ t, a ≠ .reapClient t) ∧ a ≠ .trackClients ∧
    ∀ ids, a ≠ .bringUp ids) : InLoop st a :=
  ⟨fun t h => absurd h (ha.1 t), fun h => absurd h ha.2.1, fun ids h => absurd h (ha.2.2 ids)⟩

/-- A client joins, is tracked, and exits. -/
theorem covered_of_run_crash :
    ∃ st, Covered 1 st ∧ st.server.last = some (.bringUp 0) ∧ (st.ring 0).owner .left = 5 ∧
      st.clients.process ⟨5⟩ = none := by
  have hfree : ∀ a, (∀ t, a ≠ .reapClient t) ∧ a ≠ .trackClients ∧ (∀ ids, a ≠ .bringUp ids) ∧
      (∀ ok, a ≠ .trackClient ok) → ∀ (_ : List Act) st, InLoop st a ∧ Opens st a :=
    fun a ha _ st => ⟨inLoop_of_free ⟨ha.1, ha.2.1, ha.2.2.1⟩, fun ok _ _ _ h => absurd h (ha.2.2.2 ok)⟩
  have h₀ : RunWhere (step 1) (fun _ st a => InLoop st a ∧ Opens st a) (init [oneRing]) [] (init [oneRing]) := .nil
  have h₁ := h₀.append_run [.spawn ⟨5⟩, .join 0 ⟨5⟩ 0 .left] (run_iff_exec.2 rfl)
    (fun a ha => hfree a (by simp at ha; rcases ha with rfl | rfl <;> simp))
  have h₂ := h₁.snoc (a := .trackClients) ⟨⟨nofun, fun _ => nofun, nofun⟩, nofun⟩ rfl
  have h₃ := h₂.snoc (a := .inspect) (hfree _ (by simp) [] _) rfl
  have h₄ := h₃.snoc (a := .trackClient true)
    ⟨inLoop_of_free (by simp), fun ok _ _ _ h hpc _ => by cases h; cases hpc; exact ⟨rfl, nofun⟩⟩ rfl
  have h₅ := h₄.append_run [.inspect, .exit ⟨5⟩] (run_iff_exec.2 rfl)
    (fun a ha => hfree a (by simp at ha; rcases ha with rfl | rfl <;> simp))
  have h₆ := h₅.snoc (a := .bringUp [oneRing]) ⟨⟨nofun, nofun, fun _ _ => rfl⟩, nofun⟩ rfl
  have h₇ := h₆.snoc (a := .bringUpStep) (hfree _ (by simp) [] _) rfl
  exact ⟨_, covered_of_run h₇ ⟨rfl, 0, rfl⟩, rfl, rfl, rfl⟩

/-- A client joins and exits, and is then found by the scan, which cannot open it. -/
theorem not_covered :
    ∃ tr st, RunWhere (step 1) (fun _ st a => InLoop st a) (init [oneRing]) tr st ∧ IterationEnd st ∧
      ¬ Covered 1 st := by
  have h₀ : RunWhere (step 1) (fun _ st a => InLoop st a) (init [oneRing]) [] (init [oneRing]) := .nil
  have h₁ := h₀.append_run [.spawn ⟨5⟩, .join 0 ⟨5⟩ 0 .left, .exit ⟨5⟩] (run_iff_exec.2 rfl)
    (fun a ha _ _ => inLoop_of_free (by simp at ha; rcases ha with rfl | rfl | rfl <;> simp))
  have h₂ := h₁.snoc (a := .trackClients) ⟨nofun, fun _ => nofun, nofun⟩ rfl
  have h₃ := h₂.append_run [.inspect, .trackClient true, .inspect] (run_iff_exec.2 rfl)
    (fun a ha _ _ => inLoop_of_free (by simp at ha; rcases ha with rfl | rfl | rfl <;> simp))
  have h₄ := h₃.snoc (a := .bringUp [oneRing]) ⟨nofun, nofun, fun _ _ => rfl⟩ rfl
  have h₅ := h₄.snoc (a := .bringUpStep) (inLoop_of_free (by simp)) rfl
  refine ⟨_, _, h₅, ⟨rfl, 0, rfl⟩, fun h => ?_⟩
  obtain ⟨data, hdata, -⟩ :=
    h 0 .left 0 ⟨0, ⟨5⟩, 0, .left, false, 0, 0⟩ Nat.zero_lt_one rfl rfl rfl nofun Nat.zero_lt_one
  cases hdata

end Authority

end ShmRing
