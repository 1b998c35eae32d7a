import ShmRing.Steps

/-!
# Tracked clients and their descriptors

The server alone, with slots that say anything at each scan and process descriptors that can be opened or not: it
tracks the clients that a scan finds, and it is handed back the descriptors that it has returned, each at most once
and in any order.  There is one such descriptor for each client that is tracked, and none for any other.
-/

namespace ShmRing

namespace Tracking

open Machine Transition Authority

inductive Act
  | trackClients
  /-- `track_clients` comes to its next slot, with this owner word, and can open the descriptor of a process or not. -/
  | visit (owner : UInt32) (openPid : Option Nat)
  | reapClient (t : TrackedClient)
  /-- `reap_client` takes one of its rings, of which the slot has this owner word. -/
  | leave (r : Nat × ClientSide) (owner : UInt32) (spurious : Bool)
  deriving DecidableEq, Repr

/-- The slot of a scan: who is found there is tracked. -/
def visit (n : Nat) (sv : ServerState) (idx : Nat) (side : ClientSide) (owner : UInt32) (openPid : Option Nat) :
    ServerState :=
  match ClientSlot.inspect owner with
  | .ok client => (sv.trackClient client idx side openPid).trackNext n idx side
  | .error _ => sv.trackNext n idx side

/-- A round of the loop of `reap_client`; a ring that does not exist is passed over. -/
def leave (n : Nat) (sv : ServerState) (c : ClientIdentifier) (rings : List (Nat × ClientSide)) (r : Nat × ClientSide)
    (owner : UInt32) (spurious : Bool) : ServerState :=
  if r.1 < n then
    match ClientSlot.leave owner c spurious with
    | .ok _ => sv.reapFrom c (rings.erase r)
    | .error _ => { sv with pc := .stopped }
  else sv.reapFrom c (rings.erase r)

/-- The server of `n` rings. -/
def step (n : Nat) (sv : ServerState) : Act → Option ServerState
  | .trackClients => if sv.pc = .idle then some ({ sv with scans := sv.scans + 1 }.trackFrom n 0) else none
  | .visit owner openPid =>
    match sv.pc with
    | .tracking idx side => some (visit n sv idx side owner openPid)
    | _ => none
  | .reapClient t => if sv.pc = .idle ∧ t ∈ sv.pending then some (sv.reapClient t) else none
  | .leave r owner spurious =>
    match sv.pc with
    | .reaping c rings => if rings.contains r then some (leave n sv c rings r owner spurious) else none
    | _ => none

def init : ServerState where
  task := ⟨fun _ => none⟩
  pending := []
  arcs := 0
  scans := 0
  pc := .idle
  last := none

/-! ### What a step can do -/

variable {n : Nat} {sv sv' : ServerState} {a : Act} {c : ClientIdentifier}

/-- A call of `track_client` finds an entry, makes one, or can not. -/
private theorem trackClient_cases (sv : ServerState) (c : ClientIdentifier) (idx : Nat) (side : ClientSide)
    (openPid : Option Nat) :
    (∃ data, sv.task.tracker c = some data ∧ sv.trackClient c idx side openPid = { sv with
      task := ⟨Function.update sv.task.tracker c (some { data with rings := data.rings.insert (idx, side) })⟩
      arcs := sv.arcs + 1 }) ∨
    (∃ p, sv.task.tracker c = none ∧ sv.trackClient c idx side openPid = { sv with
      task := ⟨Function.update sv.task.tracker c (some ⟨⟨sv.arcs, p⟩, [(idx, side)]⟩)⟩
      pending := sv.pending ++ [⟨⟨sv.arcs, p⟩, c⟩]
      arcs := sv.arcs + 1 }) ∨
    (sv.task.tracker c = none ∧ sv.trackClient c idx side openPid = { sv with arcs := sv.arcs + 1 }) := by
  unfold ServerState.trackClient ServerTask.trackClient
  cases hdata : sv.task.tracker c with
  | some data => exact .inl ⟨data, rfl, by simp only [Option.toList_none, List.append_nil]⟩
  | none =>
    cases openPid with
    | some p => exact .inr (.inl ⟨p, rfl, rfl⟩)
    | none => exact .inr (.inr ⟨rfl, by simp only [Option.map_none, Option.toList_none, List.append_nil]⟩)

/-- The descriptors of a client that the server has returned and not yet got back. -/
def handles (sv : ServerState) (c : ClientIdentifier) : List TrackedClient := sv.pending.filter fun t => t.client = c

/-- The invariant: for each entry one descriptor is out. -/
structure Inv (sv : ServerState) : Prop where
  arcs : Arcs sv
  handles : ∀ c, handles sv c = ((sv.task.tracker c).map fun data => ⟨data.pid, c⟩).toList
  named : ∀ c data, sv.task.tracker c = some data → c.IsPid
  pc : sv.pc.IsPid
  running : sv.pc ≠ .stopped

private theorem inv_init : Inv init where
  arcs := arcs_init []
  handles _ := rfl
  named _ _ h := by cases h
  pc := trivial
  running h := by cases h

namespace Inv

private theorem goto (h : Inv sv) {scans : Nat} {pc : ServerPc} {last : Option Call} (hpc : pc.IsPid)
    (hrun : pc ≠ .stopped) : Inv { sv with scans, pc, last } :=
  ⟨h.arcs.goto, h.handles, h.named, hpc, hrun⟩

private theorem trackFrom (h : Inv sv) (n idx : Nat) : Inv (sv.trackFrom n idx) := by
  obtain ⟨pc, last, he, hpc⟩ := sv.trackFrom_eq n idx
  rw [he]
  rcases hpc with rfl | ⟨-, rfl, -⟩
  · exact h.goto trivial nofun
  · exact h.goto trivial nofun

private theorem trackNext (h : Inv sv) (n idx : Nat) (side : ClientSide) : Inv (sv.trackNext n idx side) := by
  cases side with
  | left => exact h.goto trivial nofun
  | right => exact h.trackFrom n (idx + 1)

private theorem reapFrom (h : Inv sv) (hc : c.IsPid) (rings : List (Nat × ClientSide)) : Inv (sv.reapFrom c rings) := by
  obtain ⟨pc, last, he, hpc⟩ := sv.reapFrom_eq c rings
  rw [he]
  rcases hpc with rfl | ⟨rfl, -⟩
  · exact h.goto hc nofun
  · exact h.goto trivial nofun

private theorem trackClient (h : Inv sv) (hc : c.IsPid) (idx : Nat) (side : ClientSide) (openPid : Option Nat) :
    Inv (sv.trackClient c idx side openPid) := by
  rcases trackClient_cases sv c idx side openPid with ⟨data, hdata, he⟩ | ⟨p, hnone, he⟩ | ⟨-, he⟩
  · rw [he]
    refine ⟨h.arcs.extended hdata, fun c' => ?_, forall_update h.named fun _ _ => hc, h.pc, h.running⟩
    -- the entry keeps its descriptor
    by_cases hne : c' = c
    · subst hne
      have hh := h.handles c'
      rw [hdata] at hh
      simp only [Function.update_self]
      exact hh
    · simp only [Function.update_of_ne hne]
      exact h.handles c'
  · rw [he]
    refine ⟨h.arcs.opened, fun c' => ?_, forall_update h.named fun _ _ => hc, h.pc, h.running⟩
    have hh := h.handles c'
    unfold Tracking.handles at hh ⊢
    simp only [List.filter_append, hh]
    by_cases hne : c' = c
    · subst hne
      simp only [hnone, Function.update_self, List.filter_cons_of_pos, decide_true, List.filter_nil, Option.map_none,
        Option.map_some, Option.toList_none, Option.toList_some, List.nil_append]
    · have hne' : c ≠ c' := fun h' => hne h'.symm
      simp only [Function.update_of_ne hne, hne', decide_false, Bool.false_eq_true, not_false_eq_true,
        List.filter_cons_of_neg, List.filter_nil, List.append_nil]
  · rw [he]
    exact ⟨h.arcs.failed, h.handles, h.named, h.pc, h.running⟩

/-- A descriptor that is out is that of the entry of its client. -/
private theorem tracked (h : Inv sv) {t : TrackedClient} (ht : t ∈ sv.pending) :
    ∃ data, sv.task.tracker t.client = some data ∧ t = ⟨data.pid, t.client⟩ := by
  have hmem : t ∈ Tracking.handles sv t.client := List.mem_filter.2 ⟨ht, decide_eq_true rfl⟩
  rw [h.handles] at hmem
  cases hdata : sv.task.tracker t.client with
  | none => rw [hdata] at hmem; cases hmem
  | some data =>
    rw [hdata] at hmem
    exact ⟨data, rfl, List.mem_singleton.1 hmem⟩

/-- The assertion holds, and the entry goes with its descriptor. -/
private theorem reapClient (h : Inv sv) {t : TrackedClient} (ht : t ∈ sv.pending) : Inv (sv.reapClient t) := by
  obtain ⟨data, hdata, hpid⟩ := h.tracked ht
  have harc : data.pid.arc = t.pidFd.arc := by rw [hpid]
  have hgone : Inv { sv with
      pending := sv.pending.erase t, task := ⟨Function.update sv.task.tracker t.client none⟩ } := by
    refine ⟨h.arcs.reaped, fun c => ?_, forall_update h.named fun _ h' => (by cases h'), h.pc, h.running⟩
    have hh := h.handles c
    unfold Tracking.handles at hh ⊢
    simp only [← List.erase_filter, hh]
    by_cases hne : c = t.client
    · subst hne
      rw [hdata, Function.update_self, Option.map_some, Option.toList_some, ← hpid, List.erase_cons_head]
      rfl
    · simp only [Function.update_of_ne hne]
      refine List.erase_of_not_mem fun hmem => hne ?_
      obtain ⟨data', -, he⟩ := Option.map_eq_some_iff.1 (Option.mem_toList.1 hmem)
      exact congrArg TrackedClient.client he
  unfold ServerState.reapClient
  simp only [hdata, if_pos harc]
  exact hgone.reapFrom (h.named _ _ hdata) data.rings

private theorem visit (h : Inv sv) (n idx : Nat) (side : ClientSide) (owner : UInt32) (openPid : Option Nat) :
    Inv (Tracking.visit n sv idx side owner openPid) := by
  unfold Tracking.visit
  rw [ClientSlot.inspect_eq]
  cases hclass : slotClass owner with
  | client => exact (h.trackClient (ClientIdentifier.isPid_of_slotClass hclass).1 idx side openPid).trackNext n idx side
  | _ => exact h.trackNext n idx side

private theorem leave (h : Inv sv) (hc : c.IsPid) (n : Nat) (rings : List (Nat × ClientSide)) (r : Nat × ClientSide)
    (owner : UInt32) (spurious : Bool) : Inv (Tracking.leave n sv c rings r owner spurious) := by
  unfold Tracking.leave
  split
  · rw [ClientSlot.leave_eq hc.valid]
    exact h.reapFrom hc _
  · exact h.reapFrom hc _

theorem step (h : Inv sv) (e : Tracking.step n sv a = some sv') : Inv sv' := by
  cases a with
  | trackClients =>
    obtain ⟨-, e⟩ := Option.ite_none_right_eq_some.1 e
    cases e
    exact Inv.trackFrom (h.goto h.pc h.running) n 0
  | visit owner openPid =>
    simp only [Tracking.step] at e
    split at e
    · cases e
      exact h.visit n _ _ owner openPid
    · cases e
  | reapClient t =>
    obtain ⟨⟨-, ht⟩, e⟩ := Option.ite_none_right_eq_some.1 e
    cases e
    exact h.reapClient ht
  | leave r owner spurious =>
    simp only [Tracking.step] at e
    split at e
    · rename_i c rings hpc
      obtain ⟨-, e⟩ := Option.ite_none_right_eq_some.1 e
      cases e
      have hc := h.pc
      rw [hpc] at hc
      exact h.leave hc n rings r owner spurious
    · cases e

end Inv

/-! ### What the scans have seen -/

/-- In this step a scan sees the client as the owner of the slot. -/
def Sees (sv : ServerState) (a : Act) (c : ClientIdentifier) (slot : Nat × ClientSide) : Prop :=
  ∃ owner openPid, a = .visit owner openPid ∧ sv.pc = .tracking slot.1 slot.2 ∧ ClientSlot.inspect owner = .ok c

/-- A scan of the run has seen the client there, when the entry with this descriptor was in the tracker already or was
made for it. -/
def Seen (n : Nat) (tr : List Act) (c : ClientIdentifier) (pid : PidFd) (slot : Nat × ClientSide) : Prop :=
  ∃ tr₁ a tr₂ sv₁ sv₂ data, tr = tr₁ ++ a :: tr₂ ∧ Run (step n) init tr₁ sv₁ ∧ Sees sv₁ a c slot ∧
    step n sv₁ a = some sv₂ ∧ sv₂.task.tracker c = some data ∧ data.pid = pid

/-- Of what is in the tracker after a step, all but a new entry was there before, with no more slots. -/
structure Grown (sv sv' : ServerState) : Prop where
  arcs : sv.arcs ≤ sv'.arcs
  entries : ∀ c data, sv'.task.tracker c = some data →
    data.pid.arc = sv.arcs ∨ ∃ old, sv.task.tracker c = some old ∧ old.pid = data.pid ∧ ∀ r ∈ old.rings, r ∈ data.rings

namespace Grown

private theorem of_same (ht : sv'.task = sv.task) (ha : sv'.arcs = sv.arcs) : Grown sv sv' :=
  ⟨Nat.le_of_eq ha.symm, fun c data hdata => .inr ⟨data, by rw [← ht]; exact hdata, rfl, fun _ hr => hr⟩⟩

private theorem refl (sv : ServerState) : Grown sv sv := of_same rfl rfl

private theorem trackFrom (h : Grown sv sv') (n idx : Nat) : Grown sv (sv'.trackFrom n idx) := by
  obtain ⟨pc, last, he, -⟩ := sv'.trackFrom_eq n idx
  rw [he]
  exact ⟨h.arcs, h.entries⟩

private theorem trackNext (h : Grown sv sv') (n idx : Nat) (side : ClientSide) :
    Grown sv (sv'.trackNext n idx side) := by
  obtain ⟨pc, last, he, -⟩ := sv'.trackNext_eq n idx side
  rw [he]
  exact ⟨h.arcs, h.entries⟩

private theorem reapFrom (h : Grown sv sv') (c : ClientIdentifier) (rings : List (Nat × ClientSide)) :
    Grown sv (sv'.reapFrom c rings) := by
  obtain ⟨pc, last, he, -⟩ := sv'.reapFrom_eq c rings
  rw [he]
  exact ⟨h.arcs, h.entries⟩

private theorem trackClient (sv : ServerState) (c : ClientIdentifier) (idx : Nat) (side : ClientSide)
    (openPid : Option Nat) : Grown sv (sv.trackClient c idx side openPid) := by
  have hkept : ∀ c' data, sv.task.tracker c' = some data → data.pid.arc = sv.arcs ∨
      ∃ old, sv.task.tracker c' = some old ∧ old.pid = data.pid ∧ ∀ r ∈ old.rings, r ∈ data.rings :=
    fun c' data hdata => .inr ⟨data, hdata, rfl, fun _ hr => hr⟩
  rcases trackClient_cases sv c idx side openPid with ⟨data, hdata, he⟩ | ⟨p, hnone, he⟩ | ⟨-, he⟩
  · rw [he]
    refine ⟨Nat.le_succ _, forall_update hkept fun data' hdata' => ?_⟩
    cases hdata'
    exact .inr ⟨data, hdata, rfl, fun r hr => List.mem_insert_of_mem hr⟩
  · rw [he]
    refine ⟨Nat.le_succ _, forall_update hkept fun data' hdata' => ?_⟩
    cases hdata'
    exact .inl rfl
  · rw [he]
    exact ⟨Nat.le_succ _, hkept⟩

private theorem reapClient (sv : ServerState) (t : TrackedClient) : Grown sv (sv.reapClient t) := by
  have hgone : Grown sv { sv with
      pending := sv.pending.erase t, task := ⟨Function.update sv.task.tracker t.client none⟩ } :=
    ⟨Nat.le_refl _, forall_update (fun c' data hdata => .inr ⟨data, hdata, rfl, fun _ hr => hr⟩) fun _ h =>
      (by cases h)⟩
  unfold ServerState.reapClient
  cases hdata : sv.task.tracker t.client with
  | none =>
    simp only [hdata]
    exact of_same rfl rfl
  | some data =>
    simp only [hdata]
    split
    · exact hgone.reapFrom _ _
    · exact ⟨hgone.arcs, hgone.entries⟩

theorem step (e : Tracking.step n sv a = some sv') : Grown sv sv' := by
  cases a with
  | trackClients =>
    obtain ⟨-, e⟩ := Option.ite_none_right_eq_some.1 e
    cases e
    have hscan : Grown sv { sv with scans := sv.scans + 1 } := of_same rfl rfl
    exact hscan.trackFrom n 0
  | visit owner openPid =>
    simp only [Tracking.step] at e
    split at e
    · cases e
      unfold visit
      split
      · exact (trackClient sv _ _ _ openPid).trackNext n _ _
      · exact (refl sv).trackNext n _ _
    · cases e
  | reapClient t =>
    obtain ⟨-, e⟩ := Option.ite_none_right_eq_some.1 e
    cases e
    exact reapClient sv t
  | leave r owner spurious =>
    simp only [Tracking.step] at e
    split at e
    · obtain ⟨-, e⟩ := Option.ite_none_right_eq_some.1 e
      cases e
      unfold leave
      split
      · split
        · exact (refl sv).reapFrom _ _
        · exact of_same rfl rfl
      · exact (refl sv).reapFrom _ _
    · cases e

end Grown

/-- Who is seen and then tracked is tracked at the slot. -/
private theorem Sees.mem {slot : Nat × ClientSide} {data : ClientTrackingData} (h : Sees sv a c slot)
    (e : step n sv a = some sv') (hdata : sv'.task.tracker c = some data) : slot ∈ data.rings := by
  obtain ⟨owner, openPid, rfl, hpc, hinspect⟩ := h
  simp only [step, hpc, visit, hinspect, Option.some.injEq] at e
  obtain ⟨pc, last, he, -⟩ := (sv.trackClient c slot.1 slot.2 openPid).trackNext_eq n slot.1 slot.2
  rw [he] at e
  subst e
  rcases trackClient_cases sv c slot.1 slot.2 openPid with ⟨old, -, hc⟩ | ⟨p, -, hc⟩ | ⟨hnone, hc⟩
  · simp only [hc, Function.update_self] at hdata
    cases hdata
    exact List.mem_insert_self
  · simp only [hc, Function.update_self] at hdata
    cases hdata
    exact List.mem_singleton_self _
  · simp only [hc, hnone] at hdata
    cases hdata

/-- The last step, or one before it. -/
private theorem Seen.cases_snoc {tr : List Act} {pid : PidFd} {slot : Nat × ClientSide}
    (h : Seen n (tr ++ [a]) c pid slot) (hrun : Run (step n) init tr sv) (e : step n sv a = some sv') :
    Seen n tr c pid slot ∨ Sees sv a c slot ∧ ∃ data, sv'.task.tracker c = some data ∧ data.pid = pid := by
  obtain ⟨tr₁, a', tr₂, sv₁, sv₂, data, htr, hrun₁, hsees, hstep, hdata, hpid⟩ := h
  rcases List.eq_nil_or_concat tr₂ with rfl | ⟨tr₂, a₂, rfl⟩
  · obtain ⟨rfl, ha⟩ := List.append_inj' htr rfl
    cases ha
    cases Option.some.inj ((run_iff_exec.1 hrun₁).symm.trans (run_iff_exec.1 hrun))
    cases Option.some.inj (hstep.symm.trans e)
    exact .inr ⟨hsees, data, hdata, hpid⟩
  · rw [List.concat_eq_append, ← List.cons_append, ← List.append_assoc] at htr
    obtain ⟨rfl, -⟩ := List.append_inj' htr rfl
    exact .inl ⟨tr₁, a', tr₂, sv₁, sv₂, data, rfl, hrun₁, hsees, hstep, hdata, hpid⟩

/-- An entry has each slot at which its client was seen, and what was seen has an older descriptor than the next one. -/
def Covered (n : Nat) (tr : List Act) (sv : ServerState) : Prop :=
  ∀ c pid slot, Seen n tr c pid slot → pid.arc < sv.arcs ∧
    ∀ data, sv.task.tracker c = some data → data.pid = pid → slot ∈ data.rings

private theorem seen_covered {tr : List Act} (h : Run (step n) init tr sv) : Covered n tr sv := by
  have hinv : ∀ {tr sv}, Run (step n) init tr sv → Inv sv := fun h =>
    h.invariant (I := fun _ => Inv) inv_init fun _ _ _ _ hi e => hi.step e
  induction h with
  | nil =>
    rintro c pid slot ⟨tr₁, a, tr₂, -, -, -, htr, -⟩
    exact absurd htr.symm (by simp)
  | @snoc tr sv sv' a hrun e ih =>
    intro c pid slot hseen
    have hgrown := Grown.step e
    rcases hseen.cases_snoc hrun e with hseen | ⟨hsees, data, hdata, rfl⟩
    · obtain ⟨hlt, hmem⟩ := ih c pid slot hseen
      refine ⟨Nat.lt_of_lt_of_le hlt hgrown.arcs, fun data hdata hpid => ?_⟩
      rcases hgrown.entries c data hdata with hnew | ⟨old, hold, hold', hrings⟩
      · rw [← hnew, hpid] at hlt
        exact absurd hlt (Nat.lt_irrefl _)
      · exact hrings _ (hmem old hold (hold'.trans hpid))
    · exact ⟨((hinv hrun).step e).arcs.arc_lt c data hdata, fun data' hdata' _ => hsees.mem e hdata'⟩

/-! ### Consistency -/

/-- Each client that is tracked has one descriptor that was returned and not yet got back, the one of its entry, and no
other has any; and the assertion on what is got back has not failed. -/
structure Consistent (sv : ServerState) : Prop where
  tracked : ∀ c data, sv.task.tracker c = some data → ∃ t, handles sv c = [t] ∧ t.pidFd = data.pid
  untracked : ∀ c, sv.task.tracker c = none → handles sv c = []
  running : sv.pc ≠ .stopped

private theorem Inv.consistent (h : Inv sv) : Consistent sv := by
  refine ⟨fun c data hdata => ⟨⟨data.pid, c⟩, ?_, rfl⟩, fun c hnone => ?_, h.running⟩
  · rw [h.handles, hdata]
    rfl
  · rw [h.handles, hnone]
    rfl

/-- Over any history the descriptors match the entries, and an entry has all slots at which its client was seen. -/
theorem consistent_of_run {tr : List Act} (h : Run (step n) init tr sv) : Consistent sv ∧
    ∀ c data slot, sv.task.tracker c = some data → Seen n tr c data.pid slot → slot ∈ data.rings := by
  have hinv : Inv sv := h.invariant (I := fun _ => Inv) inv_init fun _ _ _ _ hi e => hi.step e
  exact ⟨hinv.consistent, fun c data slot hdata hseen => (seen_covered h c data.pid slot hseen).2 data hdata rfl⟩

/-- Two scans of a ring: a client is found on one side, then on the other with another client in its place, and then
its descriptor is got back. -/
theorem consistent_of_run_twoScans : ∃ sv, Run (step 1) init
    [.trackClients, .visit 7 (some 3), .visit 0 none, .trackClients, .visit 9 (some 4), .visit 7 none,
      .reapClient ⟨⟨0, 3⟩, ⟨7⟩⟩, .leave (0, .right) 7 false] sv ∧ Consistent sv := by
  have hrun : Run (step 1) init
      [.trackClients, .visit 7 (some 3), .visit 0 none, .trackClients, .visit 9 (some 4), .visit 7 none,
        .reapClient ⟨⟨0, 3⟩, ⟨7⟩⟩, .leave (0, .right) 7 false] _ := run_iff_exec.2 rfl
  exact ⟨_, hrun, (consistent_of_run hrun).1⟩

end Tracking

end ShmRing
