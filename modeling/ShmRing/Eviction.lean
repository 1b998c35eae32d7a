import ShmRing.Slots

/-!
# Whom the reaper evicts

A reaping of a tracked client should free the slots of the process that its descriptor is of, which has exited, and no
others.  But the tracker and the owner words name processes by their ids, and an id may be given to a new process
before the exit of the old one has been dealt with.  So an entry may come to list a slot of another process than the
one it is waited for: a scan adds the slot to the entry that there is for the id, or the other process joins a slot
that is still listed.

In every run without such a mistake the reaper is safe (`spares_of_run`); with one it may evict a live client
(`not_spares`).
-/

namespace ShmRing

open Transition

namespace Authority

/-- Whom a step reaps. -/
def Act.reaps : Act → Option TrackedClient
  | .reapClient t => some t
  | _ => none

/-- The argument of the last call of `reap_client`. -/
def lastReap (tr : List Act) : Option TrackedClient := (tr.filterMap Act.reaps).getLast?

/-- The step is one of a call of `reap_client`. -/
def Act.OfReap : Act → Prop
  | .reapClient _ => True
  | .leave _ _ => True
  | _ => False

/-- This process was the last to join the slot. -/
def SetBy (st : State) (r : Nat × ClientSide) (p : Nat) : Prop := ∃ k hd, LastJoin st r k hd ∧ hd.process = p

/-- What is promised of a step of `reap_client`. -/
structure Spares (n : Nat) (tr : List Act) (st : State) : Prop where
  /-- An owner word that is changed becomes zero, and it was set by the process of the descriptor. -/
  own : ∀ a st' r, a.OfReap → step n st a = some st' → (st'.ring r.1).owner r.2 ≠ (st.ring r.1).owner r.2 →
    (st'.ring r.1).owner r.2 = 0 ∧ ∃ t, lastReap tr = some t ∧ SetBy st r t.pidFd.process
  /-- An owner word that was set by a live process is not changed. -/
  live : ∀ a st' r k hd, a.OfReap → step n st a = some st' → LastJoin st r k hd →
    (∃ c, st.clients.process c = some hd.process) → (st'.ring r.1).owner r.2 = (st.ring r.1).owner r.2

/-- The condition on a step of a run: an entry of the tracker lists no slot of another process than its own. -/
structure NotMistaken (st : State) (a : Act) : Prop where
  /-- A process does not join a slot that is listed for an earlier process of its id. -/
  join : ∀ k c idx side p, a = .join k c idx side → st.clients.process c = some p →
    slotClass ((st.ring idx).owner side) = .available →
    (∀ data, st.server.task.tracker c = some data → (idx, side) ∈ data.rings → data.pid.process = p) ∧
      ∀ rings, st.server.pc = .reaping c rings → (idx, side) ∉ rings
  /-- The scan does not list a slot for another process than the one that has it. -/
  track : ∀ openOk idx side c p, a = .trackClient openOk → st.server.pc = .found idx side c →
    (st.ring idx).owner side = c.word → SetBy st (idx, side) p →
    (∀ data, st.server.task.tracker c = some data → data.pid.process = p) ∧
      (st.server.task.tracker c = none → openOk = true → ∀ q, st.clients.process c = some q → q = p)

variable {n : Nat} {st st' : State} {tr : List Act} {a : Act} {r : Nat × ClientSide} {p : Nat} {c : ClientIdentifier}

private theorem lastReap_append (tr : List Act) {a : Act} (ha : a.reaps = none) :
    lastReap (tr ++ [a]) = lastReap tr := by
  simp only [lastReap, List.filterMap_append, List.filterMap_cons, ha, List.filterMap_nil, List.append_nil]

private theorem lastReap_reapClient (tr : List Act) (t : TrackedClient) :
    lastReap (tr ++ [.reapClient t]) = some t := by
  simp [lastReap, Act.reaps]

private theorem SetBy.kept (h : SetBy st r p) (hk : SlotKept st st' r) : SetBy st' r p := by
  obtain ⟨k, hd, hl, hp⟩ := h
  obtain ⟨dropped, hl'⟩ := hk.last k hd hl
  exact ⟨k, _, hl', hp⟩

/-! ### Processes -/

/-- The number is that of a process that has this id, or had it. -/
def Clients.Had (cl : Clients) (c : ClientIdentifier) (p : Nat) : Prop :=
  p < cl.born ∧ ∀ c', cl.process c' = some p → c' = c

/-- The process has exited. -/
def Clients.Gone (cl : Clients) (p : Nat) : Prop := p < cl.born ∧ ∀ c, cl.process c ≠ some p

private theorem Clients.Had.gone {cl : Clients} (h : cl.Had c p) (hc : cl.process c ≠ some p) : cl.Gone p :=
  ⟨h.1, fun c' hp => hc (h.2 c' hp ▸ hp)⟩

/-- A process that runs after a step ran before it, or it was started by the step. -/
private theorem Step.process (e : Step n st a st') (h : st'.clients.process c = some p) :
    st.clients.process c = some p ∨ a = .spawn c ∧ p = st.clients.born ∧ st'.clients.born = st.clients.born + 1 := by
  cases e with
  | @spawn c' =>
    simp only [Clients.spawn, Function.update_apply] at h
    split at h
    · rename_i hc
      cases h
      exact .inr ⟨by rw [hc], rfl, rfl⟩
    · exact .inl h
  | @exit c' =>
    simp only [Clients.exit, Function.update_apply] at h
    split at h
    · cases h
    · exact .inl h
  | _ => exact .inl h

private theorem Step.born (e : Step n st a st') : st.clients.born ≤ st'.clients.born := by
  cases e with
  | spawn => exact Nat.le_succ _
  | _ => exact Nat.le_refl _

theorem Clients.Had.step (h : st.clients.Had c p) (e : Step n st a st') : st'.clients.Had c p := by
  refine ⟨Nat.lt_of_lt_of_le h.1 e.born, fun c' hc' => ?_⟩
  rcases e.process hc' with hold | ⟨-, rfl, -⟩
  · exact h.2 c' hold
  · exact absurd h.1 (Nat.lt_irrefl _)

theorem Clients.Gone.step (h : st.clients.Gone p) (e : Step n st a st') : st'.clients.Gone p := by
  refine ⟨Nat.lt_of_lt_of_le h.1 e.born, fun c hc => ?_⟩
  rcases e.process hc with hold | ⟨-, rfl, -⟩
  · exact h.2 c hold
  · exact absurd h.1 (Nat.lt_irrefl _)

/-! ### Entries -/

/-- The slots of the list that are the client's were set by the process. -/
def Lists (st : State) (c : ClientIdentifier) (p : Nat) (rings : List (Nat × ClientSide)) : Prop :=
  ∀ r ∈ rings, (st.ring r.1).owner r.2 = c.word → SetBy st r p

/-- The invariant. -/
structure Accounted (tr : List Act) (st : State) : Prop where
  named : Named st
  arcs : Arcs st.server
  process : ∀ c p, st.clients.process c = some p → st.clients.Had c p
  pending : ∀ t ∈ st.server.pending, st.clients.Had t.client t.pidFd.process
  held : ∀ r, slotClass ((st.ring r.1).owner r.2) = .client →
    ∃ k hd, LastJoin st r k hd ∧ (st.ring r.1).owner r.2 = hd.client.word
  tracked : ∀ c data, st.server.task.tracker c = some data → Lists st c data.pid.process data.rings
  reaping : ∀ c rings, st.server.pc = .reaping c rings →
    ∃ t, lastReap tr = some t ∧ st.clients.Gone t.pidFd.process ∧ Lists st c t.pidFd.process rings

private theorem accounted_init (cfgs : List RingConfig) : Accounted [] (init cfgs) where
  named := named_init cfgs
  arcs := arcs_init cfgs
  process _ _ h := by cases h
  pending _ h := by cases h
  held r h := absurd h (init_owner cfgs r.1 r.2)
  tracked _ _ h := by cases h
  reaping _ _ h := by cases h

namespace Accounted

private theorem isPid (h : Accounted tr st) {data : ClientTrackingData} (hdata : st.server.task.tracker c = some data) :
    c.IsPid :=
  h.named.tracker c data hdata

/-- A slot has the owner word of a client after a step if it was just joined by a process of its id, or as before. -/
private theorem slot (h : Accounted tr st) (e : Step n st a st') (hc : c.IsPid)
    (howner : (st'.ring r.1).owner r.2 = c.word) : (∃ k hd, JoinedBy st a st' r k hd ∧ hd.client = c) ∨
      (st.ring r.1).owner r.2 = c.word ∧ SlotKept st st' r := by
  have hclass : slotClass ((st'.ring r.1).owner r.2) = .client := by rw [howner, hc.slotClass_word]
  rcases e.slot hclass with ⟨k, hd, hj⟩ | hk
  · have hpid := (h.named.clients.process _ _ hj.process).1
    exact .inl ⟨k, hd, hj, hpid.word_inj hc (hj.owner.symm.trans howner)⟩
  · exact .inr ⟨hk.owner ▸ howner, hk⟩

private theorem held_step (h : Accounted tr st) (e : Step n st a st') (r : Nat × ClientSide)
    (hclass : slotClass ((st'.ring r.1).owner r.2) = .client) :
    ∃ k hd, LastJoin st' r k hd ∧ (st'.ring r.1).owner r.2 = hd.client.word := by
  rcases e.slot hclass with ⟨k, hd, hj⟩ | hk
  · exact ⟨k, hd, hj.last, hj.owner⟩
  · rw [hk.owner] at hclass ⊢
    obtain ⟨k, hd, hl, hw⟩ := h.held r hclass
    obtain ⟨dropped, hl'⟩ := hk.last k hd hl
    exact ⟨k, _, hl', hw⟩

private theorem pending_step (h : Accounted tr st) (e : Step n st a st') :
    ∀ t ∈ st'.server.pending, st'.clients.Had t.client t.pidFd.process := by
  have hold : ∀ t ∈ st.server.pending, st'.clients.Had t.client t.pidFd.process := fun t ht => (h.pending t ht).step e
  cases e with
  | reapUntracked | reapTracked | reapPanics => exact fun t ht => hold t (List.mem_of_mem_erase ht)
  | trackNew _ _ hp =>
    intro t ht
    rcases List.mem_append.1 ht with ht | ht
    · exact hold t ht
    · rw [List.mem_singleton.1 ht]
      exact h.process _ _ hp
  | _ => exact hold

private theorem process_step (h : Accounted tr st) (e : Step n st a st') (hp : st'.clients.process c = some p) :
    st'.clients.Had c p := by
  rcases e.process hp with hold | ⟨hspawn, rfl, hborn⟩
  · exact (h.process c p hold).step e
  · refine ⟨by omega, fun c' hp' => ?_⟩
    rcases e.process hp' with hold | ⟨hspawn', -, -⟩
    · exact absurd (h.process c' _ hold).1 (Nat.lt_irrefl _)
    · rw [hspawn] at hspawn'
      cases hspawn'
      rfl

/-- A list of a client is true after a step that it was not changed by, unless a process joins a slot on it. -/
private theorem lists_step (h : Accounted tr st) (e : Step n st a st') (hc : c.IsPid) {rings : List (Nat × ClientSide)}
    (hl : Lists st c p rings)
    (hjoin : ∀ k r q, a = .join k c r.1 r.2 → st.clients.process c = some q →
      slotClass ((st.ring r.1).owner r.2) = .available → r ∈ rings → p = q) : Lists st' c p rings := by
  intro r hr howner
  rcases h.slot e hc howner with ⟨k, hd, hj, rfl⟩ | ⟨howner, hk⟩
  · obtain rfl := hjoin k r hd.process hj.act hj.process hj.available hr
    exact ⟨k, hd, hj.last, rfl⟩
  · exact (hl r hr howner).kept hk

/-- What was set is still so after a step that is no join. -/
private theorem lists_of_no_join (h : Accounted tr st) (e : Step n st a st')
    (ha : ∀ k c idx side, a ≠ .join k c idx side) (hc : c.IsPid) {rings : List (Nat × ClientSide)}
    (hl : Lists st c p rings) : Lists st' c p rings :=
  h.lists_step e hc hl fun k r _ hj => absurd hj (ha k c r.1 r.2)

/-- The slot that the scan has found is listed. -/
private theorem lists_found (h : Accounted tr st) {idx : Nat} {side : ClientSide} (hc : c.IsPid)
    (hG : ∀ q, (st.ring idx).owner side = c.word → SetBy st (idx, side) q → p = q) : Lists st c p [(idx, side)] := by
  intro r hr howner
  obtain rfl := List.mem_singleton.1 hr
  obtain ⟨k, hd, hl, -⟩ := h.held (idx, side) (by rw [howner, hc.slotClass_word])
  obtain rfl := hG hd.process howner ⟨k, hd, hl, rfl⟩
  exact ⟨k, hd, hl, rfl⟩

private theorem tracked_step (h : Accounted tr st) (hG : NotMistaken st a) (e : Step n st a st') :
    ∀ c data, st'.server.task.tracker c = some data → Lists st' c data.pid.process data.rings := by
  have e' := e
  have hold : (∀ k c idx side, a ≠ .join k c idx side) → ∀ c data, st.server.task.tracker c = some data →
      Lists st' c data.pid.process data.rings :=
    fun ha c data hd => h.lists_of_no_join e ha (h.isPid hd) (h.tracked c data hd)
  cases e with
  | @join k hd =>
    intro c data hdata
    refine h.lists_step e' (h.isPid hdata) (h.tracked c data hdata) fun k r q ha hp hopen hr => ?_
    exact (hG.join k c r.1 r.2 q ha hp hopen).1 data hdata hr
  | refused => exact h.tracked
  | reapTracked | reapPanics => exact forall_update (hold nofun) nofun
  | @trackAgain idx side c openOk data pc last hpc hdata =>
    have hpid := h.isPid hdata
    have hnew : Lists st c data.pid.process (data.rings.insert (idx, side)) := by
      have hfound := h.lists_found hpid fun q howner hq => (hG.track _ _ _ _ q rfl hpc howner hq).1 data hdata
      intro r hr
      rcases List.mem_insert_iff.1 hr with rfl | hr
      · exact hfound _ (List.mem_singleton_self _)
      · exact h.tracked c data hdata r hr
    refine forall_update (hold nofun) fun _ he => ?_
    cases he
    exact h.lists_of_no_join e' nofun hpid hnew
  | @trackNew idx p side c pc last hpc hdata hp =>
    have hpid := (h.named.clients.process c p hp).1
    have hnew := h.lists_found hpid fun q howner hq => (hG.track _ _ _ _ q rfl hpc howner hq).2 hdata rfl p hp
    refine forall_update (hold nofun) fun _ he => ?_
    cases he
    exact h.lists_of_no_join e' nofun hpid hnew
  | _ => exact hold nofun

private theorem reaping_step (h : Accounted tr st) (hG : NotMistaken st a) (e : Step n st a st') :
    ∀ c rings, st'.server.pc = .reaping c rings →
      ∃ t, lastReap (tr ++ [a]) = some t ∧ st'.clients.Gone t.pidFd.process ∧ Lists st' c t.pidFd.process rings := by
  have e' := e
  -- the reaping that was under way goes on with fewer slots
  have hold : a.reaps = none → ∀ c rings, st.server.pc = .reaping c rings → ∀ rest ⊆ rings,
      ∃ t, lastReap (tr ++ [a]) = some t ∧ st'.clients.Gone t.pidFd.process ∧ Lists st' c t.pidFd.process rest := by
    intro ha c rings hpc rest hrest
    obtain ⟨t, ht, hgone, hl⟩ := h.reaping c rings hpc
    have hpid : c.IsPid := by
      have hp := h.named.pc
      rw [hpc] at hp
      exact hp
    refine ⟨t, (lastReap_append tr ha).trans ht, hgone.step e', h.lists_step e' hpid (fun r hr => hl r (hrest hr)) ?_⟩
    intro k r q hj hq hopen hr
    exact absurd (hrest hr) ((hG.join k c r.1 r.2 q hj hq hopen).2 rings hpc)
  have hsame : a.reaps = none → ∀ c rings, st.server.pc = .reaping c rings →
      ∃ t, lastReap (tr ++ [a]) = some t ∧ st'.clients.Gone t.pidFd.process ∧ Lists st' c t.pidFd.process rings :=
    fun ha c rings hpc => hold ha c rings hpc rings (List.Subset.refl _)
  cases e with
  | spawn | exit | refused | join | write | drop => exact hsame rfl
  | @reapTracked t data pc last hpc hmem hgone hdata harc hnext =>
    intro c rings hpc'
    rcases hnext with rfl | ⟨rfl, -⟩
    · cases hpc'
      refine ⟨t, lastReap_reapClient tr t, (h.pending t hmem).gone hgone, ?_⟩
      rw [← h.arcs.arc_inj _ data hdata t hmem harc]
      exact h.tracked _ data hdata
    · cases hpc'
  | leave hpc _ _ _ hnext | stay hpc _ _ hnext =>
    intro c rings hpc'
    rcases hnext with rfl | ⟨rfl, -⟩
    · cases hpc'
      exact hold rfl _ _ hpc _ fun _ hx => List.mem_of_mem_erase hx
    · cases hpc'
  | reapUntracked | reapPanics | leavePanics | inspect => exact nofun
  | skip _ _ hnext | trackAgain _ _ hnext | trackNew _ _ _ hnext | trackFails _ _ _ hnext =>
    intro c rings hpc'
    rcases hnext with ⟨-, rfl⟩ | ⟨-, rfl⟩ | ⟨-, -, rfl, -⟩ <;> cases hpc'
  | trackClients _ hnext =>
    intro c rings hpc'
    rcases hnext with rfl | ⟨-, rfl, -⟩ <;> cases hpc'
  | bringUp _ hnext =>
    intro c rings hpc'
    rcases hnext with rfl | ⟨rfl, -⟩ <;> cases hpc'
  | bringUpStep _ hnext =>
    intro c rings hpc'
    rcases hnext with ⟨p, -, rfl⟩ | ⟨success', rfl | ⟨rfl, -⟩⟩ | rfl <;> cases hpc'

theorem step (h : Accounted tr st) (hG : NotMistaken st a) (e : Step n st a st') : Accounted (tr ++ [a]) st' where
  named := h.named.step e
  arcs := h.arcs.step e
  process _ _ := h.process_step e
  pending := h.pending_step e
  held := h.held_step e
  tracked := h.tracked_step hG e
  reaping := h.reaping_step hG e

/-- The one slot that a step of `reap_client` may change. -/
private theorem spares_of_ne (h : Accounted tr st) (ha : a.OfReap) (e : Step n st a st')
    (hne : (st'.ring r.1).owner r.2 ≠ (st.ring r.1).owner r.2) :
    (st'.ring r.1).owner r.2 = 0 ∧
      ∃ t, lastReap tr = some t ∧ st.clients.Gone t.pidFd.process ∧ SetBy st r t.pidFd.process := by
  cases e with
  | @leave c rings r' pc last hpc hmem hlt howner =>
    have hword := st.setRing_owner r' r 0
    by_cases he : r = r'
    · subst he
      obtain ⟨t, ht, hgone, hl⟩ := h.reaping _ _ hpc
      rw [if_pos rfl] at hword
      exact ⟨hword, t, ht, hgone, hl _ hmem howner⟩
    · rw [if_neg he] at hword
      exact absurd hword hne
  | reapUntracked | reapTracked | reapPanics | stay | leavePanics => exact absurd rfl hne
  | _ => exact ha.elim

private theorem spares (h : Accounted tr st) (n : Nat) : Spares n tr st where
  own a st' r ha e hne := by
    obtain ⟨hzero, t, ht, -, hset⟩ := h.spares_of_ne ha (Step.of_eq e) hne
    exact ⟨hzero, t, ht, hset⟩
  live a st' r k hd ha e hl hp := by
    obtain ⟨c, hp⟩ := hp
    by_contra hne
    obtain ⟨-, t, -, hgone, k', hd', hl', hprocess⟩ := h.spares_of_ne ha (Step.of_eq e) hne
    obtain rfl : k = k' := Option.some.inj (hl.1.symm.trans hl'.1)
    obtain rfl : hd = hd' := Option.some.inj (hl.2.symm.trans hl'.2)
    exact hgone.2 c (hprocess ▸ hp)

end Accounted

/-- In a run of a server that was started on zeroed memory and any clients, in which no entry of the tracker comes to
list a slot of another process than the one it is waited for, the reaper evicts nobody. -/
theorem spares_of_run {cfgs : List RingConfig}
    (h : RunWhere (step n) (fun _ st a => NotMistaken st a) (init cfgs) tr st) : Spares n tr st :=
  Accounted.spares (h.invariant (I := Accounted) (accounted_init cfgs)
    fun _ _ _ _ hk hG e => hk.step hG (Step.of_eq e)) n

private theorem notMistaken_of {a : Act} (hj : ∀ k c idx side, a ≠ .join k c idx side)
    (ht : ∀ openOk, a ≠ .trackClient openOk) (st : State) : NotMistaken st a :=
  ⟨fun k c idx side _ h => absurd h (hj k c idx side), fun openOk _ _ _ _ h => absurd h (ht openOk)⟩

/-- A client joins, is tracked and exits.  A new process gets its id and joins the other side, and only then the exit is
dealt with: the slot of the old process alone is to be freed. -/
theorem spares_of_run_reused :
    ∃ st, Spares 1 [.spawn ⟨5⟩, .join 0 ⟨5⟩ 0 .left, .trackClients, .inspect, .trackClient true, .inspect, .exit ⟨5⟩,
        .spawn ⟨5⟩, .join 1 ⟨5⟩ 0 .right, .reapClient ⟨⟨0, 0⟩, ⟨5⟩⟩] st ∧
      st.server.pc = .reaping ⟨5⟩ [(0, .left)] ∧ (∀ side, (st.ring 0).owner side = 5) ∧
      st.clients.process ⟨5⟩ = some 1 := by
  have h₀ : RunWhere (step 1) (fun _ st a => NotMistaken st a) (init [oneRing]) [] (init [oneRing]) := .nil
  have h₁ := h₀.snoc (a := .spawn ⟨5⟩) (notMistaken_of (a := .spawn ⟨5⟩) nofun nofun _) rfl
  have h₂ := h₁.snoc (a := .join 0 ⟨5⟩ 0 .left)
    ⟨fun _ _ _ _ _ _ _ _ => ⟨fun _ h => (by cases h), fun _ h => (by cases h)⟩, fun _ _ _ _ _ h => (by cases h)⟩ rfl
  have h₃ := h₂.append_run [.trackClients, .inspect] (run_iff_exec.2 rfl)
    (fun a ha _ => by simp at ha; rcases ha with rfl | rfl <;> exact notMistaken_of nofun nofun)
  have h₄ := h₃.snoc (a := .trackClient true) ⟨fun _ _ _ _ _ h => (by cases h), fun _ _ _ _ p _ hpc _ hset => by
    obtain ⟨k, hd, hl, hp⟩ := hset
    cases hpc
    cases hl.1
    cases hl.2
    exact ⟨fun _ h => (by cases h), fun _ _ q hq => (by cases hq; exact hp)⟩⟩ rfl
  have h₅ := h₄.append_run [.inspect, .exit ⟨5⟩, .spawn ⟨5⟩] (run_iff_exec.2 rfl)
    (fun a ha _ => by simp at ha; rcases ha with rfl | rfl | rfl <;> exact notMistaken_of nofun nofun)
  -- the entry of the old process does not list the slot that the new one joins
  have h₆ := h₅.snoc (a := .join 1 ⟨5⟩ 0 .right) ⟨fun _ _ _ _ _ hj _ _ => by
    cases hj
    refine ⟨fun data hdata hr => ?_, fun _ h => (by cases h)⟩
    cases hdata
    exact absurd hr (by decide), fun _ _ _ _ _ h => (by cases h)⟩ rfl
  have h₇ := h₆.snoc (a := .reapClient ⟨⟨0, 0⟩, ⟨5⟩⟩)
    (notMistaken_of (a := .reapClient ⟨⟨0, 0⟩, ⟨5⟩⟩) nofun nofun _) rfl
  exact ⟨_, spares_of_run h₇, rfl, (fun side => by cases side <;> rfl), rfl⟩

/-- The id of a tracked client is given to a new process, which joins the other side and is listed in the entry of the
old one; then the exit of the old one is dealt with. -/
theorem not_spares :
    ∃ tr st, Run (step 1) (init [oneRing]) tr st ∧ st.clients.process ⟨5⟩ = some 1 ∧
      LastJoin st (0, .right) 1 ⟨1, ⟨5⟩, 0, .right, false, 0, 1⟩ ∧ ¬ Spares 1 tr st := by
  refine ⟨[.spawn ⟨5⟩, .join 0 ⟨5⟩ 0 .left, .trackClients, .inspect, .trackClient true, .inspect, .exit ⟨5⟩, .spawn ⟨5⟩,
    .join 1 ⟨5⟩ 0 .right, .trackClients, .inspect, .trackClient true, .inspect, .trackClient true,
    .reapClient ⟨⟨0, 0⟩, ⟨5⟩⟩], _, run_iff_exec.2 rfl, rfl, ⟨rfl, rfl⟩, fun h => ?_⟩
  have howner := h.live (.leave (0, .right) false) _ (0, .right) 1 _ trivial rfl ⟨rfl, rfl⟩ ⟨⟨5⟩, rfl⟩
  exact absurd howner (by decide)

end Authority

end ShmRing
