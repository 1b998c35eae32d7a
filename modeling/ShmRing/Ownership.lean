import ShmRing.Steps

/-!
# Who owns a ring

In every run in which no process id is used again while it is tracked, a live handle is the only one on its side and
its process id is the owner word; the server resets a head only when it holds both sides; and a client that joins
finds its own words reset, and in those of the other side nothing of an earlier generation (`ownership_of_run`).

The invariant is one of each ring by itself (`RingOk`): what its owner words and its head say of the handles on it,
and what the server, at its place in `bring_up`, relies on.  An owner word that is zero stays so until the server
changes it, which is why two loads and two exchanges suffice to take a ring.
-/

namespace ShmRing

open Machine Transition

namespace Authority

/-- The condition on a step of a run: a process id is not given to a new process while it is tracked, or while the
server still frees its slots. -/
def NotReused (st : State) (a : Act) : Prop :=
  ∀ c, a = .spawn c → st.server.task.tracker c = none ∧ ∀ rings, st.server.pc ≠ .reaping c rings

/-- What the protocol promises of a state. -/
structure Safe (n : Nat) (st : State) : Prop where
  /-- The owner word of a live handle's slot is its process id. -/
  owner : ∀ h hd, st.clients.handle h = some hd → st.clients.Live hd →
    (st.ring hd.ring).owner hd.side = hd.client.word
  /-- There is at most one live handle for a side of a ring. -/
  unique : ∀ h h' hd hd', st.clients.handle h = some hd → st.clients.handle h' = some hd' → st.clients.Live hd →
    st.clients.Live hd' → hd.ring = hd'.ring → hd.side = hd'.side → h = h'
  /-- When `reinit_holding_as_server` is about to write a word, the server holds both sides and nobody is left. -/
  reset : ∀ ids idx w ws success, st.server.pc = .bringUp ids idx (.reset (w :: ws)) success →
    (∀ s, (st.ring idx).owner s = 0) ∧
      ∀ h hd, st.clients.handle h = some hd → hd.ring = idx → ¬ st.clients.Live hd
  /-- A join that succeeds finds its own words reset, and the other side's words either reset or written by a client
  of the same generation. -/
  join : ∀ h c idx side st', step n st (.join h c idx side) = some st' → st'.clients.handle h ≠ none →
    (∀ w, w.side = some side → (st'.ring idx).head.load w = 0) ∧
      ∀ w, w.side = some side.not → (st'.ring idx).head.load w ≠ 0 →
        ∃ h' hd, (st'.ring idx).writer w = some h' ∧ st'.clients.handle h' = some hd ∧ hd.ring = idx ∧
          hd.side = side.not ∧ hd.generation = (st'.ring idx).generation

/-! ### What is tracked -/

/-- The descriptors that the server holds.  Those in the tracker are of processes that run or have exited, and not of a
process whose id was given to another. -/
structure Tracked (cl : Clients) (sv : ServerState) : Prop where
  process : ∀ c data, sv.task.tracker c = some data → cl.process c = none ∨ cl.process c = some data.pid.process
  arc_lt : ∀ c data, sv.task.tracker c = some data → data.pid.arc < sv.arcs
  pending_lt : ∀ t ∈ sv.pending, t.pidFd.arc < sv.arcs
  arc_inj : ∀ c data, sv.task.tracker c = some data → ∀ t ∈ sv.pending, data.pid.arc = t.pidFd.arc →
    data.pid = t.pidFd
  reaping : ∀ c rings, sv.pc = .reaping c rings → cl.process c = none

private theorem tracked_init (cfgs : List RingConfig) : Tracked (init cfgs).clients (init cfgs).server where
  process _ _ h := by cases h
  arc_lt _ _ h := by cases h
  pending_lt _ h := by cases h
  arc_inj _ _ h := by cases h
  reaping _ _ h := by cases h

namespace Tracked

variable {n : Nat} {st st' : State} {a : Act} {cl : Clients} {sv : ServerState}

private theorem arcs (h : Tracked cl sv) : Arcs sv := ⟨h.arc_lt, h.pending_lt, h.arc_inj⟩

/-- The process of a client that is reaped has exited, and no other has its id. -/
private theorem exited (h : Tracked cl sv) {t : TrackedClient} {data : ClientTrackingData} (hmem : t ∈ sv.pending)
    (hgone : cl.process t.client ≠ some t.pidFd.process) (hdata : sv.task.tracker t.client = some data)
    (harc : data.pid.arc = t.pidFd.arc) : cl.process t.client = none := by
  refine (h.process _ _ hdata).resolve_right ?_
  rw [h.arc_inj _ _ hdata t hmem harc]
  exact hgone

private theorem process_step (h : Tracked st.clients st.server) (hG : NotReused st a) (e : Step n st a st') :
    ∀ c data, st'.server.task.tracker c = some data →
      st'.clients.process c = none ∨ st'.clients.process c = some data.pid.process := by
  cases e with
  | spawn =>
    intro c data hd
    simp only [Clients.spawn]
    rw [Function.update_of_ne fun he => by rw [he, (hG _ rfl).1] at hd; cases hd]
    exact h.process c data hd
  | exit =>
    intro c data hd
    simp only [Clients.exit, Function.update_apply]
    split
    · exact .inl rfl
    · exact h.process c data hd
  | reapTracked | reapPanics => exact forall_update h.process nofun
  | trackAgain _ hdata =>
    have hprocess := h.process _ _ hdata
    exact forall_update h.process fun _ he => by cases he; exact hprocess
  | trackNew _ _ hp => exact forall_update h.process fun _ he => by cases he; exact .inr hp
  | _ => exact h.process

private theorem reaping_step (h : Tracked st.clients st.server) (hG : NotReused st a) (e : Step n st a st') :
    ∀ c rings, st'.server.pc = .reaping c rings → st'.clients.process c = none := by
  have hreap : ∀ {c rings pc last}, st.clients.process c = none → ReapNext c rings pc last →
      ∀ c rings, pc = .reaping c rings → st.clients.process c = none := by
    rintro c rings pc last hc (rfl | ⟨rfl, -⟩) c' rings' hpc
    · cases hpc
      exact hc
    · cases hpc
  have htrack : ∀ {idx side pc last}, TrackNext n idx side pc last →
      ∀ c rings, pc = .reaping c rings → st.clients.process c = none := by
    rintro idx side pc last (⟨-, rfl⟩ | ⟨-, rfl⟩ | ⟨-, -, rfl, -⟩) c rings hpc <;> cases hpc
  cases e with
  | spawn =>
    intro c rings hpc
    simp only [Clients.spawn]
    rw [Function.update_of_ne fun he => (hG _ rfl).2 rings (by rw [← he]; exact hpc)]
    exact h.reaping c rings hpc
  | exit =>
    intro c rings hpc
    simp only [Clients.exit, Function.update_apply]
    split
    · rfl
    · exact h.reaping c rings hpc
  | reapTracked _ hmem hgone hdata harc hnext => exact hreap (h.exited hmem hgone hdata harc) hnext
  | leave hpc _ _ _ hnext | stay hpc _ _ hnext => exact hreap (h.reaping _ _ hpc) hnext
  | skip _ _ hnext | trackAgain _ _ hnext | trackNew _ _ _ hnext | trackFails _ _ _ hnext => exact htrack hnext
  | reapUntracked | reapPanics | leavePanics | inspect => exact nofun
  | trackClients _ hnext =>
    intro c rings hpc
    rcases hnext with rfl | ⟨-, rfl, -⟩ <;> cases hpc
  | bringUp _ hnext =>
    intro c rings hpc
    rcases hnext with rfl | ⟨rfl, -⟩ <;> cases hpc
  | bringUpStep _ hnext =>
    intro c rings hpc
    rcases hnext with ⟨p, -, rfl⟩ | ⟨success', rfl | ⟨rfl, -⟩⟩ | rfl <;> cases hpc
  | _ => exact h.reaping

theorem step (h : Tracked st.clients st.server) (hG : NotReused st a) (e : Step n st a st') :
    Tracked st'.clients st'.server :=
  have harcs := h.arcs.step e
  ⟨h.process_step hG e, harcs.arc_lt, harcs.pending_lt, harcs.arc_inj, h.reaping_step hG e⟩

end Tracked

/-! ### One ring -/

/-- What the server relies on at its place in `bring_up`. -/
def RingState.Held (r : RingState) : Option RingState.Pc → Prop
  | some .takeRhs => r.owner .left = 0
  | some (.reset ws) => (∀ s, r.owner s = 0) ∧ ∀ s w, w.side = some s → w ∉ ws → r.head.load w = 0
  | some .reinitLhs => (∀ s, r.owner s = 0) ∧ ∀ s w, w.side = some s → r.head.load w = 0
  | some .reinitRhs => r.owner .right = 0 ∧ ∀ w, w.side = some .right → r.head.load w = 0
  | _ => True

/-- Owner words that are zero, and the words of sides that nobody owns, are left alone. -/
private theorem RingState.Held.mono {r r' : RingState} {p : Option RingState.Pc} (h : r.Held p)
    (howner : ∀ s, r.owner s = 0 → r'.owner s = 0)
    (hload : ∀ s w, r.owner s = 0 → w.side = some s → r'.head.load w = r.head.load w) : r'.Held p := by
  match p, h with
  | some .takeRhs, h => exact howner _ h
  | some (.reset ws), h =>
    exact ⟨fun s => howner s (h.1 s), fun s w hw hn => (hload s w (h.1 s) hw).trans (h.2 s w hw hn)⟩
  | some .reinitLhs, h => exact ⟨fun s => howner s (h.1 s), fun s w hw => (hload s w (h.1 s) hw).trans (h.2 s w hw)⟩
  | some .reinitRhs, h => exact ⟨howner _ h.1, fun w hw => (hload _ w h.1 hw).trans (h.2 w hw)⟩
  | none, _ | some .checkLhs, _ | some (.checkRhs _), _ | some .takeLhs, _ => trivial

/-- What holds of a ring, with the server at `p` in it. -/
structure RingOk (cl : Clients) (idx : Nat) (r : RingState) (p : Option RingState.Pc) : Prop where
  live : ∀ h hd, cl.handle h = some hd → hd.ring = idx → cl.Live hd →
    r.owner hd.side = hd.client.word ∧ r.holder hd.side = some h ∧ hd.generation = r.generation
  clean : ∀ s w, slotClass (r.owner s) = .available → w.side = some s → r.head.load w = 0
  traffic : ∀ s w, w.side = some s → r.head.load w ≠ 0 → ∃ h hd, r.writer w = some h ∧ cl.handle h = some hd ∧
    hd.ring = idx ∧ hd.side = s ∧ hd.generation = r.generation
  held : r.Held p

namespace RingOk

variable {cl cl' : Clients} {idx : Nat} {r : RingState} {p p' : Option RingState.Pc} {s : ClientSide}

/-- A slot that is not a client's has no live handle. -/
theorem not_live (h : RingOk cl idx r p) (hcl : cl.Ok) (hs : slotClass (r.owner s) ≠ .client) {k : Nat} {hd : Handle}
    (hk : cl.handle k = some hd) (hidx : hd.ring = idx) (hside : hd.side = s) : ¬ cl.Live hd := by
  intro hlive
  obtain ⟨howner, -, -⟩ := h.live k hd hk hidx hlive
  rw [hside] at howner
  exact hs (howner ▸ (hcl.handle k hd hk).1.slotClass_word)

/-- The clients change, but no handle on the ring comes alive and none gets lost. -/
private theorem clients (h : RingOk cl idx r p)
    (hlive : ∀ k hd, cl'.handle k = some hd → hd.ring = idx → cl'.Live hd → cl.handle k = some hd ∧ cl.Live hd)
    (hkeep : ∀ k hd, cl.handle k = some hd → ∃ hd', cl'.handle k = some hd' ∧ hd'.ring = hd.ring ∧
      hd'.side = hd.side ∧ hd'.generation = hd.generation) : RingOk cl' idx r p where
  live k hd hk hidx hl := by
    obtain ⟨hk', hl'⟩ := hlive k hd hk hidx hl
    exact h.live k hd hk' hidx hl'
  clean := h.clean
  traffic s w hw hne := by
    obtain ⟨k, hd, hwriter, hk, hidx, hside, hgen⟩ := h.traffic s w hw hne
    obtain ⟨hd', hk', hidx', hside', hgen'⟩ := hkeep k hd hk
    exact ⟨k, hd', hwriter, hk', hidx'.trans hidx, hside'.trans hside, hgen'.trans hgen⟩
  held := h.held

/-- The owner word of a slot without a live handle changes. -/
private theorem setOwner (h : RingOk cl idx r p) {v : UInt32}
    (hno : ∀ k hd, cl.handle k = some hd → hd.ring = idx → hd.side = s → ¬ cl.Live hd)
    (hclean : slotClass v = .available → ∀ w, w.side = some s → r.head.load w = 0) (hp : (r.setOwner s v).Held p') :
    RingOk cl idx (r.setOwner s v) p' where
  live k hd hk hidx hl := by
    have hne : hd.side ≠ s := fun he => hno k hd hk hidx he hl
    simp only [RingState.setOwner, Function.update_of_ne hne]
    exact h.live k hd hk hidx hl
  clean t w ht hw := by
    by_cases he : t = s
    · subst he
      simp only [RingState.setOwner, Function.update_self] at ht
      exact hclean ht w hw
    · simp only [RingState.setOwner, Function.update_of_ne he] at ht
      exact h.clean t w ht hw
  traffic := h.traffic
  held := hp

private theorem release (h : RingOk cl idx r p)
    (hno : ∀ k hd, cl.handle k = some hd → hd.ring = idx → hd.side = s → ¬ cl.Live hd) :
    RingOk cl idx (r.setOwner s 0) p := by
  refine h.setOwner hno (fun hc => (by cases hc)) (h.held.mono (fun t ht => ?_) fun _ _ _ _ => rfl)
  by_cases he : t = s
  · subst he
    simp only [RingState.setOwner, Function.update_self]
  · simpa only [RingState.setOwner, Function.update_of_ne he] using ht

/-- Where the next generation of a side begins. -/
private theorem join (h : RingOk cl idx r p) (hcl : cl.Ok) {k : Nat} {hd : Handle} (hpid : hd.client.IsPid)
    (hfree : cl.handle k = none) (hopen : slotClass (r.owner hd.side) = .available)
    (hgen : hd.generation = r.generation) :
    RingOk (cl.put k hd) idx
      { r.setOwner hd.side hd.client.word with holder := Function.update r.holder hd.side (some k) } p where
  live k' hd' hk hidx' hl := by
    rcases Clients.put_eq_some hk with ⟨rfl, rfl⟩ | ⟨-, hk⟩
    · simp only [RingState.setOwner, Function.update_self, hgen, and_self]
    · have hne : hd'.side ≠ hd.side := fun hside =>
        h.not_live hcl (by rw [hopen]; decide) hk hidx' hside hl
      simp only [RingState.setOwner, Function.update_of_ne hne]
      exact h.live k' hd' hk hidx' hl
  clean t w ht hw := by
    by_cases he : t = hd.side
    · subst he
      simp only [RingState.setOwner, Function.update_self, hpid.slotClass_word] at ht
      cases ht
    · simp only [RingState.setOwner, Function.update_of_ne he] at ht
      exact h.clean t w ht hw
  traffic t w hw hne := by
    obtain ⟨k', hd', hwriter, hk, hrest⟩ := h.traffic t w hw hne
    have he : k' ≠ k := fun he => by rw [he, hfree] at hk; cases hk
    exact ⟨k', hd', hwriter, (Clients.put_of_ne cl hd he).trans hk, hrest⟩
  held := by
    refine h.held.mono (fun t ht => ?_) fun _ _ _ _ => rfl
    have hne : t ≠ hd.side := by
      rintro rfl
      rw [ht] at hopen
      cases hopen
    simpa only [RingState.setOwner, Function.update_of_ne hne] using ht

/-- A handle writes its own words, or `blocked`. -/
private theorem write (h : RingOk cl idx r p) (hcl : cl.Ok) {k : Nat} {hd : Handle} {w : HeadWord} {v : UInt32}
    (hk : cl.handle k = some hd) (hidx : hd.ring = idx) (hlive : cl.Live hd)
    (hw : ∀ s, w.side = some s → s = hd.side) :
    RingOk cl idx { r with head := r.head.store w v, writer := Function.update r.writer w (some k) } p := by
  obtain ⟨howner, -, hgen⟩ := h.live k hd hk hidx hlive
  have hclass : slotClass (r.owner hd.side) = .client := howner ▸ (hcl.handle k hd hk).1.slotClass_word
  -- the words of a side that is not a client's are not among those that may be written
  have hsame : ∀ t w', slotClass (r.owner t) ≠ .client → w'.side = some t →
      (r.head.store w v).load w' = r.head.load w' := by
    intro t w' ht hw'
    refine r.head.load_store_of_ne (fun he => ht ?_) v
    rw [hw t (he ▸ hw')]
    exact hclass
  refine ⟨h.live, fun t w' ht hw' => ?_, fun t w' hw' hne => ?_, h.held.mono (fun _ ht => ht) fun t w' ht hw' => ?_⟩
  · exact (hsame t w' (by rw [ht]; decide) hw').trans (h.clean t w' ht hw')
  · by_cases he : w' = w
    · subst he
      exact ⟨k, hd, by simp only [Function.update_self], hk, hidx, (hw t hw').symm, hgen⟩
    · simp only [RingHead.load_store_of_ne _ he] at hne
      simp only [Function.update_of_ne he]
      exact h.traffic t w' hw' hne
  · exact hsame t w' (by rw [ht]; decide) hw'

private theorem drop (h : RingOk cl idx r p) {k : Nat} {hd : Handle} (hk : cl.handle k = some hd) (hidx : hd.ring = idx)
    (hlive : cl.Live hd) : RingOk (cl.put k { hd with dropped := true }) idx (r.setOwner hd.side 0) p := by
  refine release (h.clients (fun k' hd' hk' _ hl => ?_) fun k' hd' hk' => ?_) fun k' hd' hk' hidx' hside hl => ?_
  · rcases Clients.put_eq_some hk' with ⟨-, rfl⟩ | ⟨-, hk'⟩
    · cases hl.1
    · exact ⟨hk', hl⟩
  · by_cases he : k' = k
    · subst he
      obtain rfl : hd = hd' := Option.some.inj (hk.symm.trans hk')
      exact ⟨{ hd with dropped := true }, Clients.put_self .., rfl, rfl, rfl⟩
    · exact ⟨hd', (Clients.put_of_ne cl _ he).trans hk', rfl, rfl, rfl⟩
  · rcases Clients.put_eq_some hk' with ⟨-, rfl⟩ | ⟨he, hk'⟩
    · cases hl.1
    -- the slot is held by the handle that is dropped
    · have hheld := (h.live k' hd' hk' hidx' hl).2.1
      rw [hside, (h.live k hd hk hidx hlive).2.1] at hheld
      exact he (Option.some.inj hheld).symm

end RingOk

/-! ### The server at a ring -/

/-- Where the server is in the ring. -/
def ServerPc.ringPc (idx : Nat) : ServerPc → Option RingState.Pc
  | .bringUp _ i p _ => if i = idx then some p else none
  | _ => none

def RingState.Outcome.pc : RingState.Outcome → Option RingState.Pc
  | .goto p => some p
  | _ => none

namespace RingOk

variable {cl : Clients} {idx : Nat} {r : RingState} {p p' : Option RingState.Pc} {s : ClientSide}

private theorem goto (h : RingOk cl idx r p) (hp : r.Held p') : RingOk cl idx r p' := ⟨h.live, h.clean, h.traffic, hp⟩

/-- An open slot is taken, and one that the server has already is kept. -/
private theorem take (h : RingOk cl idx r p) (hcl : cl.Ok) (s : ClientSide) {q : RingState.Pc}
    (hp : (r.setOwner s 0).Held (some q)) :
    RingOk cl idx (r.setOwner s (ClientSlot.takeForServer (r.owner s)).2)
      (match (ClientSlot.takeForServer (r.owner s)).1 with
        | .ok _ => some q
        | .error _ => none) := by
  rw [ClientSlot.takeForServer_eq]
  cases hclass : slotClass (r.owner s) with
  | available =>
    exact h.setOwner (fun _ _ hk hidx hside => h.not_live hcl (by rw [hclass]; decide) hk hidx hside) nofun hp
  | server =>
    rw [slotClass_eq_server.1 hclass]
    exact h.setOwner (fun _ _ hk hidx hside => h.not_live hcl (by rw [hclass]; decide) hk hidx hside) nofun hp
  | client =>
    simp only [RingState.setOwner_self]
    exact h.goto trivial

/-- A slot that the server has becomes open, when the words of its side are reset. -/
private theorem reinit (h : RingOk cl idx r p) (hcl : cl.Ok) (hzero : r.owner s = 0)
    (hreset : ∀ w, w.side = some s → r.head.load w = 0) {v : UInt32} (hp : (r.setOwner s v).Held p') :
    RingOk cl idx (r.setOwner s v) p' :=
  h.setOwner (fun _ _ hk hidx hside => h.not_live hcl (by rw [hzero]; decide) hk hidx hside) (fun _ => hreset) hp

/-- A word is reset. -/
private theorem store (h : RingOk cl idx r p) (w : HeadWord)
    (hp : RingState.Held { r with head := r.head.store w 0 } p') :
    RingOk cl idx { r with head := r.head.store w 0 } p' := by
  refine ⟨h.live, fun t w' ht hw' => ?_, fun t w' hw' hne => ?_, hp⟩
  · simp only [RingHead.load_store, h.clean t w' ht hw', ite_self]
  · simp only [RingHead.load_store] at hne
    split at hne
    · exact absurd rfl hne
    · exact h.traffic t w' hw' hne

private theorem bringUp (h : RingOk cl idx r (some q)) (hcl : cl.Ok) (cfg : RingConfig) :
    RingOk cl idx (r.bringUp cfg q).1 (r.bringUp cfg q).2.pc := by
  cases q with
  | checkLhs =>
    simp only [RingState.bringUp]
    split
    · split <;> exact h.goto trivial
    · exact h.goto trivial
  | checkRhs openLhs =>
    simp only [RingState.bringUp]
    split
    · split <;> exact h.goto trivial
    · exact h.goto trivial
  | takeLhs =>
    have := h.take hcl .left (q := .takeRhs) (by simp only [RingState.Held, RingState.setOwner, Function.update_self])
    simp only [RingState.bringUp]
    revert this
    cases (ClientSlot.takeForServer (r.owner .left)).1 <;> exact id
  | takeRhs =>
    have hleft : r.owner .left = 0 := h.held
    have := h.take hcl .right (q := .reset RingHead.reinitOrder)
      ⟨fun s => by cases s <;> simp [RingState.setOwner, hleft], fun _ w _ hn => absurd (RingHead.mem_reinitOrder w) hn⟩
    simp only [RingState.bringUp]
    revert this
    cases (ClientSlot.takeForServer (r.owner .right)).1 <;> exact id
  | reset ws =>
    obtain ⟨howner, hload⟩ := h.held
    cases ws with
    | nil =>
      have hload : ∀ s w, w.side = some s → r.head.load w = 0 := fun s w hw => hload s w hw (by simp)
      refine ⟨fun k hd hk hidx hl => ?_, h.clean, fun s w hw hne => absurd (hload s w hw) hne, howner, hload⟩
      exact absurd hl (h.not_live hcl (by rw [howner]; decide) hk hidx rfl)
    | cons w ws =>
      refine h.store w ⟨howner, fun s w' hw' hn => ?_⟩
      by_cases he : w' = w
      · subst he
        exact RingHead.load_store_self ..
      · rw [RingHead.load_store_of_ne _ he]
        exact hload s w' hw' (by simp [he, hn])
  | reinitLhs =>
    obtain ⟨howner, hload⟩ := h.held
    simp only [RingState.bringUp]
    by_cases hid : cfg.lhs < 0
    · rw [ClientSlot.reinit_eq (show (⟨cfg.lhs⟩ : RingIdentifier).val < 0 from hid),
        slotClass_eq_server.2 (howner .left)]
      refine h.reinit hcl (howner .left) (hload .left) ⟨?_, hload .right⟩
      simp only [RingState.setOwner, Function.update_of_ne (show ClientSide.right ≠ .left by decide), howner]
    · simp only [ClientSlot.reinit, if_neg hid]
      exact h.goto trivial
  | reinitRhs =>
    obtain ⟨howner, hload⟩ := h.held
    simp only [RingState.bringUp]
    by_cases hid : cfg.rhs < 0
    · rw [ClientSlot.reinit_eq (show (⟨cfg.rhs⟩ : RingIdentifier).val < 0 from hid), slotClass_eq_server.2 howner]
      exact h.reinit hcl howner hload trivial
    · simp only [ClientSlot.reinit, if_neg hid]
      exact h.goto trivial

end RingOk

/-! ### The invariant -/

structure Kept (st : State) : Prop where
  named : Named st
  tracked : Tracked st.clients st.server
  ring : ∀ idx, RingOk st.clients idx (st.ring idx) (st.server.pc.ringPc idx)

theorem kept_init (cfgs : List RingConfig) : Kept (init cfgs) where
  named := named_init cfgs
  tracked := tracked_init cfgs
  ring _ := ⟨fun _ _ hk => (by cases hk), fun _ w _ _ => RingHead.load_zero w,
    fun _ w _ hne => absurd (RingHead.load_zero w) hne, trivial⟩

namespace Kept

variable {n : Nat} {st st' : State} {a : Act}

private theorem ring_spawn (h : Kept st) {c : ClientIdentifier} (idx : Nat) :
    RingOk (st.clients.spawn c) idx (st.ring idx) (st.server.pc.ringPc idx) := by
  refine (h.ring idx).clients (fun k hd hk _ hl => ⟨hk, hl.1, ?_⟩) fun k hd hk => ⟨hd, hk, rfl, rfl, rfl⟩
  have hp := hl.2
  by_cases he : hd.client = c
  -- the new process has no handle yet
  · have hlt := (h.named.clients.handle k hd hk).2
    simp only [Clients.spawn, he, Function.update_self, Option.some.injEq] at hp
    exact absurd hp.symm (Nat.ne_of_lt hlt)
  · simpa only [Clients.spawn, Function.update_of_ne he] using hp

private theorem ring_exit (h : Kept st) {c : ClientIdentifier} (idx : Nat) :
    RingOk (st.clients.exit c) idx (st.ring idx) (st.server.pc.ringPc idx) := by
  refine (h.ring idx).clients (fun k hd hk _ hl => ⟨hk, hl.1, ?_⟩) fun k hd hk => ⟨hd, hk, rfl, rfl, rfl⟩
  have hp := hl.2
  by_cases he : hd.client = c
  · simp only [Clients.exit, he, Function.update_self] at hp
    cases hp
  · simpa only [Clients.exit, Function.update_of_ne he] using hp

/-- A handle of one ring is put in place of none, or of one that differs from it in being dropped. -/
private theorem ring_put (h : Kept st) {k : Nat} (hd : Handle) {idx : Nat} (hne : idx ≠ hd.ring)
    (hold : ∀ hd', st.clients.handle k = some hd' →
      hd'.ring = hd.ring ∧ hd'.side = hd.side ∧ hd'.generation = hd.generation) :
    RingOk (st.clients.put k hd) idx (st.ring idx) (st.server.pc.ringPc idx) := by
  refine (h.ring idx).clients (fun k' hd' hk hidx hl => ⟨?_, hl⟩) fun k' hd' hk => ?_
  · rcases Clients.put_eq_some hk with ⟨-, rfl⟩ | ⟨-, hk⟩
    · exact absurd hidx.symm hne
    · exact hk
  · by_cases he : k' = k
    · subst he
      obtain ⟨hring, hside, hgen⟩ := hold hd' hk
      exact ⟨hd, Clients.put_self .., hring.symm, hside.symm, hgen.symm⟩
    · exact ⟨hd', (Clients.put_of_ne _ hd he).trans hk, rfl, rfl, rfl⟩

/-- The slot that is freed is that of the process that has exited. -/
private theorem ring_leave (h : Kept st) {c : ClientIdentifier} {rings : List (Nat × ClientSide)} {r : Nat × ClientSide}
    (hpc : st.server.pc = .reaping c rings) (howner : (st.ring r.1).owner r.2 = c.word) :
    RingOk st.clients r.1 ((st.ring r.1).setOwner r.2 0) none := by
  have hr := h.ring r.1
  rw [hpc] at hr
  refine hr.release fun k hd hk hidx hside hl => ?_
  have hpid := h.named.pc
  rw [hpc] at hpid
  have hword := (hr.live k hd hk hidx hl).1
  rw [hside, howner] at hword
  have hc : c = hd.client := ClientIdentifier.IsPid.word_inj hpid (h.named.clients.handle k hd hk).1 hword
  have hexit := h.tracked.reaping _ _ hpc
  rw [hc, hl.2] at hexit
  cases hexit

/-- The server is somewhere where it relies on nothing. -/
private theorem goto (h : Kept st) {pc : ServerPc} (hpc : ∀ idx, pc.ringPc idx = none ∨ pc.ringPc idx = some .checkLhs)
    (idx : Nat) : RingOk st.clients idx (st.ring idx) (pc.ringPc idx) := by
  refine (h.ring idx).goto ?_
  rcases hpc idx with he | he <;> rw [he] <;> trivial

private theorem ring_bringUp (h : Kept st) {cfg : RingConfig} {ids : List RingConfig} {i success : Nat}
    {p : RingState.Pc} {pc : ServerPc} {last : Option Call} (hpc : st.server.pc = .bringUp (cfg :: ids) i p success)
    (hnext : BringUpNext (cfg :: ids) i success ((st.ring i).bringUp cfg p).2 pc last) (idx : Nat) :
    RingOk st.clients idx (Function.update st.ring i ((st.ring i).bringUp cfg p).1 idx) (pc.ringPc idx) := by
  have hi : RingOk st.clients i (st.ring i) (some p) := by
    have := h.ring i
    rwa [hpc, ServerPc.ringPc, if_pos rfl] at this
  have hi' := hi.bringUp h.named.clients cfg
  refine (Function.forall_update_iff st.ring fun idx r => RingOk st.clients idx r (pc.ringPc idx)).2
    ⟨?_, fun idx hne => ?_⟩ idx
  · rcases hnext with ⟨q, hq, rfl⟩ | ⟨success', rfl | ⟨rfl, -⟩⟩ | rfl
    · rw [hq] at hi'
      rw [ServerPc.ringPc, if_pos rfl]
      exact hi'
    · rw [ServerPc.ringPc, if_neg (Nat.succ_ne_self i)]
      exact hi'.goto trivial
    · exact hi'.goto trivial
    · exact hi'.goto trivial
  · refine (h.ring idx).goto ?_
    rcases hnext with ⟨q, -, rfl⟩ | ⟨success', rfl | ⟨rfl, -⟩⟩ | rfl
    · rw [ServerPc.ringPc, if_neg hne.symm]
      trivial
    · rw [ServerPc.ringPc]
      split <;> trivial
    · trivial
    · trivial

theorem step (h : Kept st) (hG : NotReused st a) (e : Step n st a st') : Kept st' := by
  refine ⟨h.named.step e, h.tracked.step hG e, ?_⟩
  have hreap : ∀ {c rings pc last}, ReapNext c rings pc last →
      ∀ idx, pc.ringPc idx = none ∨ pc.ringPc idx = some .checkLhs := by
    rintro c rings pc last (rfl | ⟨rfl, -⟩) idx <;> exact .inl rfl
  have htrack : ∀ {i side pc last}, TrackNext n i side pc last →
      ∀ idx, pc.ringPc idx = none ∨ pc.ringPc idx = some .checkLhs := by
    rintro i side pc last (⟨-, rfl⟩ | ⟨-, rfl⟩ | ⟨-, -, rfl, -⟩) idx <;> exact .inl rfl
  cases e with
  | spawn => exact h.ring_spawn
  | exit => exact h.ring_exit
  | refused => exact h.ring
  | @join k hd hp hfree _ hopen _ hgen =>
    have hpid := (h.named.clients.process _ _ hp).1
    exact (Function.forall_update_iff st.ring fun idx r =>
      RingOk (st.clients.put k hd) idx r (st.server.pc.ringPc idx)).2
        ⟨(h.ring hd.ring).join h.named.clients hpid hfree hopen hgen,
          fun idx hne => h.ring_put hd hne fun hd' hk => by rw [hfree] at hk; cases hk⟩
  | @write k hd w v hk hl hw =>
    exact (Function.forall_update_iff st.ring fun idx r => RingOk st.clients idx r (st.server.pc.ringPc idx)).2
      ⟨(h.ring hd.ring).write h.named.clients hk rfl hl hw, fun idx _ => h.ring idx⟩
  | @drop k hd hk hl =>
    refine (Function.forall_update_iff st.ring fun idx r =>
      RingOk (st.clients.put k { hd with dropped := true }) idx r (st.server.pc.ringPc idx)).2
        ⟨(h.ring hd.ring).drop hk rfl hl, fun idx hne => h.ring_put { hd with dropped := true } hne fun hd' hk' => ?_⟩
    rw [hk] at hk'
    cases hk'
    exact ⟨rfl, rfl, rfl⟩
  | reapUntracked | reapPanics | leavePanics | inspect => exact h.goto fun _ => .inl rfl
  | reapTracked _ _ _ _ _ hnext | stay _ _ _ hnext => exact h.goto (hreap hnext)
  | @leave c rings r pc last hpc _ _ howner hnext =>
    refine (Function.forall_update_iff st.ring fun idx r => RingOk st.clients idx r (pc.ringPc idx)).2
      ⟨?_, fun idx _ => h.goto (hreap hnext) idx⟩
    refine (h.ring_leave hpc howner).goto ?_
    rcases hreap hnext r.1 with he | he <;> rw [he] <;> trivial
  | skip _ _ hnext | trackAgain _ _ hnext | trackNew _ _ _ hnext | trackFails _ _ _ hnext => exact h.goto (htrack hnext)
  | trackClients _ hnext =>
    refine h.goto fun idx => ?_
    rcases hnext with rfl | ⟨-, rfl, -⟩ <;> exact .inl rfl
  | bringUp _ hnext =>
    refine h.goto fun idx => ?_
    rcases hnext with rfl | ⟨rfl, -⟩
    · rw [ServerPc.ringPc]
      split
      · exact .inr rfl
      · exact .inl rfl
    · exact .inl rfl
  | bringUpStep hpc hnext => exact h.ring_bringUp hpc hnext

/-- What a client that joins finds. -/
private theorem join (h : Kept st) {k : Nat} {c : ClientIdentifier} {idx : Nat} {side : ClientSide}
    (e : Authority.step n st (.join k c idx side) = some st') (hk : st'.clients.handle k ≠ none) :
    (∀ w, w.side = some side → (st'.ring idx).head.load w = 0) ∧
      ∀ w, w.side = some side.not → (st'.ring idx).head.load w ≠ 0 →
        ∃ k' hd, (st'.ring idx).writer w = some k' ∧ st'.clients.handle k' = some hd ∧ hd.ring = idx ∧
          hd.side = side.not ∧ hd.generation = (st'.ring idx).generation := by
  have e := Step.of_eq e
  have h' := h.step (fun _ hs => by cases hs) e
  refine ⟨fun w hw => ?_, fun w hw hne => (h'.ring idx).traffic _ w hw hne⟩
  cases e with
  | refused hfree => exact absurd hfree hk
  | @join _ hd _ _ _ hopen =>
    simp only [State.enter, State.setRing, Function.update_self, RingState.setOwner]
    exact (h.ring hd.ring).clean _ w hopen hw

private theorem safe (h : Kept st) (n : Nat) : Safe n st where
  owner k hd hk hl := ((h.ring hd.ring).live k hd hk rfl hl).1
  unique k k' hd hd' hk hk' hl hl' hring hside := by
    have hheld := ((h.ring hd.ring).live k hd hk rfl hl).2.1
    have hheld' := ((h.ring hd.ring).live k' hd' hk' hring.symm hl').2.1
    rw [← hside, hheld] at hheld'
    exact Option.some.inj hheld'
  reset ids idx w ws success hpc := by
    have hr := h.ring idx
    rw [hpc, ServerPc.ringPc, if_pos rfl] at hr
    have howner : ∀ s, (st.ring idx).owner s = 0 := hr.held.1
    exact ⟨howner, fun k hd hk hidx => hr.not_live h.named.clients (by rw [howner]; decide) hk hidx rfl⟩
  join _ _ _ _ _ e hk := h.join e hk

end Kept

/-- In a run of a server that was started on zeroed memory and any clients, in which no process id is used again while
it is tracked, ownership and generations are safe. -/
theorem ownership_of_run {n : Nat} {cfgs : List RingConfig} {tr : List Act} {st : State}
    (h : RunWhere (step n) (fun _ st a => NotReused st a) (init cfgs) tr st) : Safe n st :=
  Kept.safe (h.invariant (I := fun _ st => Kept st) (kept_init cfgs)
    fun _ _ _ _ hk hG e => hk.step hG (Step.of_eq e)) n

/-- A client joins, writes and exits, and the server takes its side back. -/
theorem ownership_of_run_reset :
    ∃ st, Safe 1 st ∧ st.server.pc = .bringUp [oneRing] 0 (.reset RingHead.reinitOrder) 0 ∧
      (st.ring 0).head.load (.producer .left) = 7 := by
  have h₀ : RunWhere (step 1) (fun _ st a => NotReused st a) (init [oneRing]) [] (init [oneRing]) := .nil
  have h₁ := h₀.snoc (a := .spawn ⟨5⟩) (fun _ _ => ⟨rfl, nofun⟩) rfl
  have h₂ := h₁.append_run [.join 0 ⟨5⟩ 0 .left, .write 0 (.producer .left) 7, .trackClients, .inspect,
    .trackClient true, .inspect, .exit ⟨5⟩, .reapClient ⟨⟨0, 0⟩, ⟨5⟩⟩, .leave (0, .left) false, .bringUp [oneRing],
    .bringUpStep, .bringUpStep, .bringUpStep, .bringUpStep] (run_iff_exec.2 rfl)
    (fun a ha _ _ c hc => by simp [hc] at ha)
  exact ⟨_, ownership_of_run h₂, rfl, rfl⟩

end Authority

end ShmRing
