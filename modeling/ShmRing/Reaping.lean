import ShmRing.Steps

/-!
# What a reaping frees

One call of `reap_client`, from any state of the tracker and of the owner words, with any outcomes of its weak
exchanges and its rings in any order.  A round changes the owner word of its own slot only, and only from the client's
to zero (`State.leaves`), so that a returned call has freed everything exactly if the client lost no slot to a spurious
failure (`reaped_iff`).
-/

namespace ShmRing

open Transition

namespace Authority

/-- The rings that the tracker has for a client. -/
def ServerTask.ringsOf (task : ServerTask) (c : ClientIdentifier) : List (Nat × ClientSide) :=
  (task.tracker c).elim [] fun data => data.rings

/-- What a reaping of the client should come to, from the state before it. -/
structure Reaped (n : Nat) (c : ClientIdentifier) (st st' : State) : Prop where
  /-- The client owns none of its slots. -/
  left : ∀ r ∈ st.server.task.ringsOf c, r.1 < n → (st'.ring r.1).owner r.2 ≠ c.word
  /-- Those that it owned are the server's. -/
  freed : ∀ r ∈ st.server.task.ringsOf c, r.1 < n → (st.ring r.1).owner r.2 = c.word → (st'.ring r.1).owner r.2 = 0
  others : ∀ r : Nat × ClientSide,
    ¬ (r ∈ st.server.task.ringsOf c ∧ r.1 < n ∧ (st.ring r.1).owner r.2 = c.word) →
      (st'.ring r.1).owner r.2 = (st.ring r.1).owner r.2
  entries : ∀ c', c' ≠ c → st'.server.task.tracker c' = st.server.task.tracker c'
  untracked : st'.server.task.tracker c = none

variable {n : Nat} {st s s' st' : State} {t : TrackedClient} {c : ClientIdentifier} {tr : List Act} {a : Act}

private theorem ServerState.reapClient_task (sv : ServerState) (t : TrackedClient) :
    (sv.reapClient t).task = ⟨Function.update sv.task.tracker t.client none⟩ := by
  unfold ServerState.reapClient
  cases hdata : sv.task.tracker t.client with
  | none =>
    simp only [hdata, ServerState.finish]
    rw [← hdata, Function.update_eq_self]
  | some data =>
    simp only [hdata]
    split
    · obtain ⟨pc, last, he, -⟩ := ServerState.reapFrom_eq { sv with
        pending := sv.pending.erase t, task := ⟨Function.update sv.task.tracker t.client none⟩ } t.client data.rings
      rw [he]
    · rfl

/-- The rings that the call has before it, if it is in its loop. -/
def ServerPc.Within (c : ClientIdentifier) (rings : List (Nat × ClientSide)) : ServerPc → Prop
  | .reaping c' rest => c' = c ∧ rest ⊆ rings
  | _ => True

private theorem ServerState.reapClient_within (sv : ServerState) (t : TrackedClient) :
    (sv.reapClient t).pc.Within t.client (sv.task.ringsOf t.client) := by
  unfold ServerState.reapClient ServerTask.ringsOf
  cases hdata : sv.task.tracker t.client with
  | none =>
    simp only [hdata]
    trivial
  | some data =>
    simp only [hdata]
    split
    · obtain ⟨pc, last, he, rfl | ⟨rfl, -⟩⟩ := ServerState.reapFrom_eq { sv with
        pending := sv.pending.erase t, task := ⟨Function.update sv.task.tracker t.client none⟩ } t.client data.rings
      · rw [he]
        exact ⟨rfl, List.Subset.refl _⟩
      · rw [he]
        trivial
    · trivial

private theorem ReapNext.within {rest rings : List (Nat × ClientSide)} {pc : ServerPc} {last : Option Call}
    (h : ReapNext c rest pc last) (hrest : rest ⊆ rings) : pc.Within c rings := by
  rcases h with rfl | ⟨rfl, -⟩
  · exact ⟨rfl, hrest⟩
  · trivial

/-! ### The rounds -/

/-- How far the loop has got after these rounds. -/
structure Reaping (n : Nat) (c : ClientIdentifier) (st : State) (tr : List Act) (s : State) : Prop where
  task : s.server.task = ⟨Function.update st.server.task.tracker c none⟩
  pc : s.server.pc.Within c (st.server.task.ringsOf c)
  mem : ∀ r spurious, .leave r spurious ∈ tr → r ∈ st.server.task.ringsOf c
  valid : ∀ r spurious, .leave r spurious ∈ tr → r.1 < n → c.Valid
  owner : ∀ r, (s.ring r.1).owner r.2 =
    if r.1 < n ∧ (st.ring r.1).owner r.2 = c.word ∧ .leave r false ∈ tr then 0 else (st.ring r.1).owner r.2

private theorem reaping_start (n : Nat) (st : State) (t : TrackedClient) :
    Reaping n t.client st [] { st with server := st.server.reapClient t } where
  task := st.server.reapClient_task t
  pc := st.server.reapClient_within t
  mem _ _ h := absurd h List.not_mem_nil
  valid _ _ h := absurd h List.not_mem_nil
  owner _ := (if_neg fun h => absurd h.2.2 List.not_mem_nil).symm

namespace Reaping

/-- A round that does not panic. -/
private theorem leave (h : Reaping n c st tr s) {rest : List (Nat × ClientSide)} {r : Nat × ClientSide}
    {spurious : Bool} (hpc : s.server.pc = .reaping c rest) (hmem : r ∈ rest) (hv : r.1 < n → c.Valid) :
    Reaping n c st (tr ++ [.leave r spurious]) (s.leave n c rest r spurious) := by
  have hrest : rest ⊆ st.server.task.ringsOf c := by
    have hp := h.pc
    rw [hpc] at hp
    exact hp.2
  obtain ⟨pc, last, he, hnext⟩ := s.leave_eq rest r spurious hv
  rw [he]
  refine ⟨h.task, hnext.within fun x hx => hrest (List.mem_of_mem_erase hx), ?_, ?_, ?_⟩
  · intro r' sp hm
    rcases List.mem_append.1 hm with hm | hm
    · exact h.mem r' sp hm
    · cases List.mem_singleton.1 hm
      exact hrest hmem
  · intro r' sp hm hlt
    rcases List.mem_append.1 hm with hm | hm
    · exact h.valid r' sp hm hlt
    · cases List.mem_singleton.1 hm
      exact hv hlt
  · intro r'
    rw [State.setRing_owner, h.owner r']
    by_cases he : r' = r
    · subst he
      rw [if_pos rfl, State.leaves, h.owner r']
      by_cases hlt : r'.1 < n
      · have hzero := ClientIdentifier.Valid.word_ne_zero (hv hlt)
        by_cases howner : (st.ring r'.1).owner r'.2 = c.word
        · cases spurious <;> by_cases htr : Act.leave r' false ∈ tr <;> simp [hlt, howner, htr, hzero.symm]
        · simp [howner]
      · simp [hlt]
    · rw [if_neg he]
      simp only [List.mem_append, List.mem_singleton, Act.leave.injEq, he, false_and, or_false]

theorem step (h : Reaping n c st tr s) {r : Nat × ClientSide} {spurious : Bool}
    (e : step n s (.leave r spurious) = some s') :
    s'.server.pc = .stopped ∨ Reaping n c st (tr ++ [.leave r spurious]) s' := by
  simp only [Authority.step] at e
  split at e
  · rename_i c' rest hpc
    obtain ⟨hmem, e⟩ := Option.ite_none_right_eq_some.1 e
    cases e
    obtain rfl : c' = c := by
      have hp := h.pc
      rw [hpc] at hp
      exact hp.1
    by_cases hc : r.1 < n ∧ ¬ c'.Valid
    · rw [State.leave_of_not_valid hc.1 hc.2]
      exact .inl rfl
    · exact .inr (h.leave hpc hmem fun hlt => not_not.1 fun hv => hc ⟨hlt, hv⟩)
  · cases e

end Reaping

/-- In the loop of `reap_client` there is no other step. -/
theorem reaping_of_run (h : Run (step n) { st with server := st.server.reapClient t } tr s)
    (htr : ∀ a ∈ tr, ∃ r spurious, a = .leave r spurious) :
    s.server.pc = .stopped ∨ Reaping n t.client st tr s := by
  induction h with
  | nil => exact .inr (reaping_start n st t)
  | @snoc tr s s' a _ hs ih =>
    obtain ⟨r, spurious, rfl⟩ := htr a (by simp)
    rcases ih fun a ha => htr a (List.mem_append_left _ ha) with hstop | hr
    · simp only [step, hstop] at hs
      cases hs
    · exact hr.step hs

/-! ### The call -/

/-- A call that returns has reaped the client exactly if no exchange failed on a slot that the client owned, though the
word was the expected one. -/
theorem reaped_iff (h : Run (step n) { st with server := st.server.reapClient t } tr st')
    (htr : ∀ a ∈ tr, ∃ r spurious, a = .leave r spurious) (hpc : st'.server.pc = .idle) :
    Reaped n t.client st st' ↔ ∀ r ∈ st.server.task.ringsOf t.client, r.1 < n →
      (st.ring r.1).owner r.2 = t.client.word → .leave r false ∈ tr := by
  have hr := (reaping_of_run h htr).resolve_left fun hstop => by rw [hpc] at hstop; cases hstop
  constructor
  · intro hd r hm hlt howner
    by_contra hno
    refine hd.left r hm hlt ?_
    rw [hr.owner r, if_neg fun hx => hno hx.2.2, howner]
  · intro hall
    have hfreed : ∀ r ∈ st.server.task.ringsOf t.client, r.1 < n → (st.ring r.1).owner r.2 = t.client.word →
        (st'.ring r.1).owner r.2 = 0 ∧ t.client.Valid := by
      intro r hm hlt howner
      have hdone := hall r hm hlt howner
      exact ⟨by rw [hr.owner r, if_pos ⟨hlt, howner, hdone⟩], hr.valid r _ hdone hlt⟩
    have hothers : ∀ r : Nat × ClientSide,
        ¬ (r ∈ st.server.task.ringsOf t.client ∧ r.1 < n ∧ (st.ring r.1).owner r.2 = t.client.word) →
          (st'.ring r.1).owner r.2 = (st.ring r.1).owner r.2 := by
      intro r hno
      rw [hr.owner r, if_neg fun hx => hno ⟨hr.mem r _ hx.2.2, hx.1, hx.2.1⟩]
    refine ⟨fun r hm hlt => ?_, fun r hm hlt howner => (hfreed r hm hlt howner).1, hothers, fun c hc => ?_, ?_⟩
    · by_cases howner : (st.ring r.1).owner r.2 = t.client.word
      · obtain ⟨hzero, hv⟩ := hfreed r hm hlt howner
        rw [hzero]
        exact hv.word_ne_zero.symm
      · rw [hothers r fun hx => howner hx.2.2]
        exact howner
    · rw [hr.task]
      exact Function.update_of_ne hc _ _
    · rw [hr.task]
      exact Function.update_self _ _ _

/-- Client 5 has the left side of a ring, and the right side, which it has left, is that of client 6. -/
def staleEntry : State :=
  let st := init [oneRing]
  { st with
    ring := fun idx => { st.ring idx with owner := fun s => if s = .left then 5 else 6 }
    server := { st.server with
      task := ⟨fun c => if c = ⟨5⟩ then some ⟨⟨0, 0⟩, [(0, .left), (0, .right)]⟩ else none⟩, arcs := 1 } }

theorem reaped_iff_staleEntry : ∃ st', Reaped 1 ⟨5⟩ staleEntry st' ∧ (st'.ring 0).owner .right = 6 := by
  refine ⟨_, (@reaped_iff 1 staleEntry _ ⟨⟨0, 0⟩, ⟨5⟩⟩ [.leave (0, .right) false, .leave (0, .left) false]
    (run_iff_exec.2 rfl) ?_ rfl).2 ?_, rfl⟩
  · intro a ha
    simp only [List.mem_cons, List.not_mem_nil, or_false] at ha
    rcases ha with rfl | rfl <;> exact ⟨_, _, rfl⟩
  · rintro r (_ | ⟨_, _ | ⟨_, hm⟩⟩) - -
    · decide
    · decide
    · cases hm

/-- The exchange on the left side fails although client 5 owns it, which stays so. -/
theorem not_reaped :
    ∃ tr st', Run (step 1) { staleEntry with server := staleEntry.server.reapClient ⟨⟨0, 0⟩, ⟨5⟩⟩ } tr st' ∧
      (∀ a ∈ tr, ∃ r spurious, a = .leave r spurious) ∧ st'.server.pc = .idle ∧
      st'.server.task.tracker ⟨5⟩ = none ∧ (st'.ring 0).owner .left = 5 ∧ ¬ Reaped 1 ⟨5⟩ staleEntry st' := by
  refine ⟨[.leave (0, .left) true, .leave (0, .right) false], _, run_iff_exec.2 rfl, ?_, rfl, rfl, rfl, fun h => ?_⟩
  · intro a ha
    simp only [List.mem_cons, List.not_mem_nil, or_false] at ha
    rcases ha with rfl | rfl <;> exact ⟨_, _, rfl⟩
  · exact h.left (0, .left) (List.mem_cons_self ..) Nat.zero_lt_one rfl

end Authority

end ShmRing
