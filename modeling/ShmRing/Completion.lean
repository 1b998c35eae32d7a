import ShmRing.Notice

/-!
# Tasks that wait for a completion

The eventfd keeps a signal for each batch of completions, but `notify_waiters` only wakes who has called `notified`.  A
task calls it behind the submission: if the kernel completes an entry within the submission, and the poller reads the
signal before the task has got to `notified`, then nobody tells the task (`stranded_of_run`).  As long as this does not
happen, a task that awaits a completion in the queue is told of it (`not_stranded_of_run`), and whenever it happens the
task can be lost (`stranded_of_not_heard`).
-/

namespace ShmRing

open Machine Transition

namespace IoUring

variable {T : Type} {b : Build} {st st' : State T} {a : Act T} {t : T} {k : Nat}

/-- A task sleeps, its completion is in the queue, and nothing will wake the task. -/
def Stranded (st : State T) : Prop :=
  ∃ t k keys, st.task t = .parked (.wait k keys) ∧ k ∈ st.completed.map Completion.userData ∧ st.eventfd = 0 ∧
    st.poller = .idle

def Cont.key : Cont → Option Nat
  | .reserve _ => none
  | .wait key _ => some key

/-- The key that the task waits for, if it was not notified. -/
def Pc.awaits : Pc → Option Nat
  | .polling cont | .submitted cont | .parked cont => cont.key
  | _ => none

/-- With the last signal, `notify_waiters` misses no task whose completion is in the queue. -/
def Heard (st : State T) : Prop :=
  ∀ t k keys, st.task t = .polling (.wait k keys) ∨ st.task t = .submitted (.wait k keys) →
    k ∈ st.completed.map Completion.userData → 0 < st.eventfd

/-- The invariant: somebody who has not been notified will be. -/
def Alert (st : State T) : Prop :=
  ∀ t k, (st.task t).awaits = some k → k ∈ st.completed.map Completion.userData →
    0 < st.eventfd ∨ st.poller = .notifying

namespace Alert

private theorem not_stranded (h : Alert st) : ¬ Stranded st := by
  rintro ⟨t, k, keys, hpc, hmem, heventfd, hpoller⟩
  rcases h t k (by rw [hpc]; rfl) hmem with hpos | hnotifying
  · omega
  · rw [hpoller] at hnotifying
    cases hnotifying

/-- After the poller has notified the waiters. -/
private theorem of_heard (hheard : Heard st) : Alert { st with
    poller := .idle
    task := fun t => match st.task t with
      | .parked cont => .woken cont
      | pc => pc } := by
  intro t k hk hmem
  refine .inl ?_
  simp only at hk
  cases hpc : st.task t with
  | polling cont =>
    rw [hpc] at hk
    cases cont with
    | reserve req => cases hk
    | wait key keys =>
      cases hk
      exact hheard t k keys (.inl hpc) hmem
  | submitted cont =>
    rw [hpc] at hk
    cases cont with
    | reserve req => cases hk
    | wait key keys =>
      cases hk
      exact hheard t k keys (.inr hpc) hmem
  | _ =>
    rw [hpc] at hk
    cases hk

variable [DecidableEq T]

/-- A task goes on, and there are no more completions than there were. -/
private theorem task (h : Alert st) {pc : Pc} {running : Option T} {fill : Nat} {waiters : Waiters}
    {completed : List Completion} (hcompleted : completed ⊆ st.completed)
    (hpc : ∀ k, pc.awaits = some k → k ∈ completed.map Completion.userData → (st.task t).awaits = some k) :
    Alert { st with fill, completed, waiters, task := Function.update st.task t pc, running } := by
  intro t' k hk hmem
  simp only [Function.update_apply] at hk
  have hold := List.map_subset Completion.userData hcompleted hmem
  split at hk
  · exact h t k (hpc k hk hmem) hold
  · exact h t' k hk hold

private theorem push (h : Alert st) (hstable : Stable st) (hrouting : Routing st) {req : Request}
    (hpc : st.task t = .reserved req) : Alert (st.push t req) := by
  obtain ⟨pc, running, hpush, hnext⟩ := State.push_eq (t := t) (hstable.room t req hpc)
  have hpushed : Alert (st.pushed req) := h
  rw [hpush]
  refine hpushed.task (List.Subset.refl _) fun k hk hmem => ?_
  rcases hnext with ⟨key, hlast, rfl, -⟩ | ⟨-, rfl, -⟩
  · -- the key is a new one, of no completion
    cases hk
    have hnew := State.mem_newKeys.1 (List.mem_of_getLast? hlast)
    have hlt := hrouting.lt k (List.mem_append_right _ hmem)
    exact absurd hlt (Nat.not_lt.2 (mem_keysFrom hnew.2 hnew.1).1)
  · cases hk

private theorem drain (h : Alert st) {cont : Cont} : Alert (st.drain b t cont) := by
  obtain ⟨drained, hcompleted, -⟩ := st.waiters.complete_drained b st.completed
  unfold State.drain
  split
  · cases cont with
    | reserve req => exact h.task (List.nil_subset _) nofun
    | wait key keys => exact h.task (List.nil_subset _) nofun
  · rename_i ws rest heq
    rw [heq] at hcompleted
    refine h.task ?_ nofun
    rw [hcompleted]
    exact List.subset_append_right ..

theorem step (h : Alert st) (hstable : Stable st) (hrouting : Routing st) (hheard : a = .notify → Heard st)
    (e : step b st a = some st') : Alert st' := by
  have hsub := List.Subset.refl st.completed
  cases Step.of_eq e with
  | request hpc hrun => exact h.task hsub nofun
  | permit hpc hrun => exact h.task hsub nofun
  | reserve hpc hroom => exact h.task hsub nofun
  | full hpc => exact h.task hsub nofun
  | push hpc => exact h.push hstable hrouting hpc
  | @submit t cont n hpc hn =>
    have hsubmit : Alert (st.submit n) := by
      unfold State.submit
      split <;> exact h
    refine hsubmit.task (List.Subset.refl _) fun k hk _ => ?_
    rw [st.submit_task, hpc]
    exact hk
  | pass ha hpc => exact h.task hsub fun k hk _ => by rw [hpc]; exact hk
  | register hpc => exact h.task hsub fun k hk _ => by rw [hpc]; exact hk
  | drain hpc hrun => exact h.drain
  | acquire hpc hrun hpos => exact h.task hsub nofun
  | cancelAcquiring hpc hrun => exact h.task hsub nofun
  | cancel hpc hrun => exact h.task hsub nofun
  | post hmem hpos => exact fun _ _ _ _ => .inl hpos
  | read hpc => exact fun _ _ _ _ => .inr rfl
  | notify hpc => exact of_heard (hheard rfl)

end Alert

/-- In every run in which the last signal is heard by all whom it concerns, no completion is lost to a task. -/
theorem not_stranded_of_run [DecidableEq T] {capacity : Nat} {tr : List (Act T)}
    (h : RunWhere (step b) (fun _ st a => a = .notify → Heard st) (init capacity) tr st) : ¬ Stranded st := by
  obtain ⟨-, -, halert⟩ := h.invariant (I := fun _ st => Stable st ∧ Routing st ∧ Alert st)
    ⟨stable_init capacity, routing_init capacity, nofun⟩
    fun _ _ _ _ h hG e => ⟨h.1.step e, h.2.1.step h.1 e, h.2.2.step h.1 h.2.1 hG e⟩
  exact halert.not_stranded

/-- A task that sleeps when the signal comes is woken. -/
theorem not_stranded_of_run_woken : ∃ st : State Unit,
    RunWhere (step .release) (fun _ st a => a = .notify → Heard st) (init 256)
      [.request () .wait, .permit (), .reserve (), .push (), .submit () (some 2), .register (),
        .post ⟨1, some 0⟩ 0 true, .read, .notify] st ∧
      1 ∈ st.completed.map Completion.userData ∧ st.eventfd = 0 ∧ ¬ Stranded st := by
  have h : Run (step .release) (init 256 : State Unit)
      [.request () .wait, .permit (), .reserve (), .push (), .submit () (some 2), .register (),
        .post ⟨1, some 0⟩ 0 true, .read] _ := run_iff_exec.2 rfl
  have hG : RunWhere (step .release) (fun _ st a => a = .notify → Heard st) (init 256 : State Unit) _ _ :=
    RunWhere.nil.append_run _ h fun a ha _ _ he => by
      subst he
      exact absurd ha (by decide)
  have hheard := hG.snoc (a := .notify) (fun _ t k keys hpc _ => by rcases hpc with hpc | hpc <;> cases hpc) rfl
  exact ⟨_, hheard, List.mem_cons_self .., rfl, not_stranded_of_run hheard⟩

/-! ### When a task is lost -/

section Stranded

variable [DecidableEq T] {keys : List Nat}

private theorem stranded_of_register (b : Build) (hpc : st.task t = .submitted (.wait k keys))
    (hmem : k ∈ st.completed.map Completion.userData) (heventfd : st.eventfd = 0) (hpoller : st.poller = .idle) :
    ∃ st', step b st (.register t) = some st' ∧ Stranded st' := by
  refine ⟨st.yield t (.parked (.wait k keys)), ?_, t, k, keys, Function.update_self .., hmem, heventfd, hpoller⟩
  show taskStep b st (.register t) = _
  rw [taskStep, hpc]

/-- Whenever the last signal misses a task, the task can go to sleep with its completion in the queue. -/
theorem stranded_of_not_heard (b : Build) (hpoller : st.poller = .notifying) (h : ¬ Heard st) :
    ∃ tr st', Run (step b) st tr st' ∧ Stranded st' := by
  simp only [Heard, not_forall] at h
  obtain ⟨t, k, keys, hpc, hmem, heventfd⟩ := h
  have heventfd : st.eventfd = 0 := by omega
  have hnotify : ∃ st₁, step b st .notify = some st₁ ∧ st₁.task t = st.task t ∧ st₁.completed = st.completed ∧
      st₁.eventfd = 0 ∧ st₁.poller = .idle := by
    simp only [step, hpoller]
    refine ⟨_, rfl, ?_, rfl, heventfd, rfl⟩
    rcases hpc with hpc | hpc <;> simp only [hpc]
  obtain ⟨st₁, e₁, htask, hcompleted, heventfd₁, hpoller₁⟩ := hnotify
  rw [← htask] at hpc
  rw [← hcompleted] at hmem
  rcases hpc with hpc | hpc
  · have e₂ : step b st₁ (.skip t) = some (st₁.run t (.submitted (.wait k keys))) := by
      show taskStep b st₁ (.skip t) = _
      rw [taskStep, hpc]
    have hlast : ∃ st₃, step b (st₁.run t (.submitted (.wait k keys))) (.register t) = some st₃ ∧ Stranded st₃ :=
      stranded_of_register b (Function.update_self ..) hmem heventfd₁ hpoller₁
    obtain ⟨st₃, e₃, hstranded⟩ := hlast
    exact ⟨_, st₃, ((Run.nil.snoc e₁).snoc e₂).snoc e₃, hstranded⟩
  · obtain ⟨st₂, e₂, hstranded⟩ := stranded_of_register b hpc hmem heventfd₁ hpoller₁
    exact ⟨_, st₂, (Run.nil.snoc e₁).snoc e₂, hstranded⟩

end Stranded

/-- The kernel completes the entries within the submission, in one batch, and the poller is through before the task
awaits the notification. -/
theorem stranded_of_run : ∃ st : State Unit,
    Run (step .release) (init 256)
      [.request () .wait, .permit (), .reserve (), .push (), .submit () (some 2), .post ⟨1, some 0⟩ (-11) true,
        .post ⟨0, some 1⟩ (-125) false, .read, .notify, .register ()] st ∧ Stranded st := by
  have h : Run (step .release) (init 256 : State Unit)
      [.request () .wait, .permit (), .reserve (), .push (), .submit () (some 2), .post ⟨1, some 0⟩ (-11) true,
        .post ⟨0, some 1⟩ (-125) false, .read, .notify, .register ()] _ := run_iff_exec.2 rfl
  exact ⟨_, h, (), 1, [1], rfl, List.mem_cons_self .., rfl, rfl⟩

end IoUring

end ShmRing
