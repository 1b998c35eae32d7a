import ShmRing.StableTimeouts
import Mathlib.Algebra.BigOperators.Group.Finset.Piecewise

/-!
# The permits of `fill`

The semaphore `fill` begins with a permit for each slot of the submission queue, and a submission gives back those of
the entries that it consumes.  But the permits that a task has acquired for its entries are given back already when
`non_empty_submission_and_then_sync` returns, before the entries are pushed.  So each entry adds one permit for good
(`ledger_of_run`): in a state in which no task has or awaits permits, there are as many permits as free slots if and
only if no entry was ever pushed.
-/

namespace ShmRing

open Machine Transition

namespace IoUring

variable {T : Type} {b : Build} {st st' : State T} {a : Act T} {t : T}

/-- The permits of `fill` that a task has. -/
def Pc.held : Pc → Nat
  | .reserving req => req.keyed.length
  | pc => pc.cont.elim 0 Cont.permits

/-- The task has permits of `fill`, or waits for them. -/
def Pc.UsesFill : Pc → Prop
  | .acquiring _ => True
  | .reserving _ => True
  | pc => ∃ req, pc.cont = some (.reserve req)

/-- No task has or awaits permits. -/
def Quiet (st : State T) : Prop := ∀ t, ¬ (st.task t).UsesFill

/-- The permits count the free slots. -/
structure Balanced (st : State T) : Prop where
  quiet : Quiet st → st.fill + st.queued.length = st.capacity
  le : st.fill ≤ st.capacity

/-- Nothing is pushed. -/
def NoEntries (_ : List (Act T)) (st : State T) (a : Act T) : Prop :=
  ∀ t req, a = .push t → st.task t = .reserved req → req.keyed = []

private theorem Pc.held_of_cont {pc : Pc} {cont : Cont} (h : pc.cont = some cont) : pc.held = cont.permits := by
  cases pc with
  | polling | submitted | parked | woken =>
    cases h
    rfl
  | _ => cases h

private theorem Pc.held_of_not_usesFill {pc : Pc} (h : ¬ pc.UsesFill) : pc.held = 0 := by
  cases pc with
  | reserving req => exact absurd trivial h
  | polling cont | submitted cont | parked cont | woken cont =>
    cases cont with
    | reserve req => exact absurd ⟨req, rfl⟩ h
    | wait key keys => rfl
  | _ => rfl

/-! ### The ledger -/

/-- The permits, with those that the tasks have, and the queued entries make up the capacity and all entries that were
ever pushed, which are numbered from one. -/
def Ledger (st : State T) : Prop :=
  ∃ s : Finset T, (∀ t, t ∉ s → (st.task t).held = 0) ∧
    st.fill + st.queued.length + ∑ t ∈ s, (st.task t).held + 1 = st.capacity + st.nextKey

private theorem ledger_init (capacity : Nat) : Ledger (init capacity : State T) := ⟨∅, fun _ _ => rfl, rfl⟩

namespace Ledger

/-- What the tasks have is the same. -/
private theorem congr (h : Ledger st) (htask : ∀ t, (st'.task t).held = (st.task t).held)
    (hsum : st'.fill + st'.queued.length + st.capacity + st.nextKey =
      st.fill + st.queued.length + st'.capacity + st'.nextKey) : Ledger st' := by
  obtain ⟨s, hs, heq⟩ := h
  refine ⟨s, fun t ht => (htask t).trans (hs t ht), ?_⟩
  rw [Finset.sum_congr rfl fun t _ => htask t]
  omega

/-- One task goes on, and what it has more or less is balanced. -/
private theorem update [DecidableEq T] (h : Ledger st) (pc : Pc) (htask : st'.task = Function.update st.task t pc)
    (hsum : st'.fill + st'.queued.length + pc.held + st.capacity + st.nextKey =
      st.fill + st.queued.length + (st.task t).held + st'.capacity + st'.nextKey) : Ledger st' := by
  obtain ⟨s, hs, heq⟩ := h
  have hmem : t ∈ insert t s := Finset.mem_insert_self t s
  have hold : ∑ x ∈ s, (st.task x).held = (st.task t).held + ∑ x ∈ (insert t s).erase t, (st.task x).held := by
    rw [Finset.add_sum_erase _ (fun x => (st.task x).held) hmem]
    exact Finset.sum_subset (Finset.subset_insert t s) fun x _ hx => hs x hx
  have hnew : ∑ x ∈ insert t s, (st'.task x).held = pc.held + ∑ x ∈ (insert t s).erase t, (st.task x).held := by
    rw [← Finset.add_sum_erase _ (fun x => (st'.task x).held) hmem, htask, Function.update_self]
    congr 1
    refine Finset.sum_congr rfl fun x hx => ?_
    rw [Function.update_of_ne (Finset.ne_of_mem_erase hx)]
  refine ⟨insert t s, fun x hx => ?_, by omega⟩
  rw [htask, Function.update_of_ne fun he => hx (by rw [he]; exact hmem)]
  exact hs x fun hx' => hx (Finset.mem_insert_of_mem hx')

/-- What the permits are in excess is the number of entries that were pushed. -/
private theorem quiet (h : Ledger st) (hq : Quiet st) :
    st.fill + st.queued.length + 1 = st.capacity + st.nextKey := by
  obtain ⟨s, -, heq⟩ := h
  rw [Finset.sum_eq_zero fun t _ => Pc.held_of_not_usesFill (hq t)] at heq
  exact heq

/-- Between two await points no task has permits but for a call of `complete`. -/
private theorem held_eq_zero (hs : Stable st) (hrun : st.running = none) (hcont : (st.task t).cont = none) :
    (st.task t).held = 0 := by
  cases hpc : st.task t with
  | reserving req =>
    have hmid := hs.midway t (by rw [hpc]; trivial)
    rw [hrun] at hmid
    cases hmid
  | polling | submitted | parked | woken =>
    rw [hpc] at hcont
    cases hcont
  | _ => rfl

variable [DecidableEq T]

private theorem permit_le {req : Request} (hpc : st.task t = .acquiring req)
    (e : IoUring.step b st (.permit t) = some st') : req.keyed.length ≤ st.fill := by
  simp only [IoUring.step, taskStep, hpc] at e
  exact (Option.ite_none_right_eq_some.1 e).1.2

private theorem drain (h : Ledger st) {cont : Cont} (hpc : (st.task t).cont = some cont) :
    Ledger (st.drain b t cont) := by
  have hheld := Pc.held_of_cont hpc
  unfold State.drain
  split
  · cases cont with
    | reserve req => exact h.update (.reserving req) rfl (by rw [hheld]; rfl)
    | wait key keys => exact h.update (.polling (.wait key keys)) rfl (by rw [hheld]; rfl)
  · refine h.update .idle rfl ?_
    rw [hheld]
    simp only [State.abandon, State.yield, Pc.held, Pc.cont, Option.elim_none]
    omega

theorem step (h : Ledger st) (hs : Stable st) (e : IoUring.step b st a = some st') : Ledger st' := by
  cases Step.of_eq e with
  | @request t req hpc hrun => exact h.update (.acquiring req) rfl (by rw [held_eq_zero hs hrun hpc]; rfl)
  | @permit t req hpc hrun =>
    have hle := permit_le hpc e
    refine h.update (.reserving req) rfl ?_
    rw [hpc]
    simp only [State.run, Pc.held, Pc.cont, Option.elim_none]
    omega
  | @reserve t req hpc hroom =>
    refine h.update (.reserved req) rfl ?_
    rw [hpc]
    simp only [State.run, Pc.held, Pc.cont, Option.elim_none]
    omega
  | @full t req hpc => exact h.update (.polling (.reserve req)) rfl (by rw [hpc]; rfl)
  | @push t req hpc =>
    obtain ⟨pc, running, hpush, hnext⟩ := State.push_eq (t := t) (hs.room t req hpc)
    have hheld : pc.held = 0 := by
      rcases hnext with ⟨key, -, rfl, -⟩ | ⟨-, rfl, -⟩ <;> rfl
    rw [hpush]
    refine h.update pc rfl ?_
    rw [hheld, hpc]
    simp only [State.pushed, List.length_append, st.length_entries req, Pc.held, Pc.cont, Option.elim_none]
    omega
  | @submit t cont n hpc hn =>
    have hlen : n ≤ st.stableTimeouts.length := by
      rw [hs.aligned, List.length_map]
      exact hn
    rw [State.submit, if_pos hlen]
    refine h.update (.submitted cont) rfl ?_
    rw [hpc]
    simp only [State.run, List.length_drop, Pc.held, Pc.cont]
    omega
  | @pass t cont _ ha hpc => exact h.update (.submitted cont) rfl (by rw [hpc]; rfl)
  | @register t cont hpc => exact h.update (.parked cont) rfl (by rw [hpc]; rfl)
  | drain hpc hrun => exact h.drain (by rw [hpc]; rfl)
  | acquire hpc hrun hpos => exact h.update _ rfl (by rw [Pc.held_of_cont hpc]; rfl)
  | @cancelAcquiring t req hpc hrun => exact h.update .idle rfl (by rw [hpc]; rfl)
  | @cancel t cont hpc hrun =>
    refine h.update .idle rfl ?_
    rw [Pc.held_of_cont hpc]
    simp only [State.abandon, State.yield, Pc.held, Pc.cont, Option.elim_none]
    omega
  | post hmem => exact h.congr (fun _ => rfl) rfl
  | read hpc => exact h.congr (fun _ => rfl) rfl
  | notify hpc =>
    refine h.congr (fun t => ?_) rfl
    cases hpc : st.task t with
    | parked cont =>
      simp only [hpc]
      rfl
    | _ => simp only [hpc]

end Ledger

section

variable [DecidableEq T] {capacity : Nat} {tr : List (Act T)}

private theorem nextKey_push {req : Request} (hs : Stable st) (hpc : st.task t = .reserved req) :
    (st.push t req).nextKey = st.nextKey + req.keyed.length := by
  obtain ⟨pc, running, hpush, -⟩ := State.push_eq (t := t) (hs.room t req hpc)
  rw [hpush]
  rfl

/-- A step pushes entries, or it takes no numbers. -/
private theorem nextKey_step (hs : Stable st) (e : step b st a = some st') :
    (∃ t req, a = .push t ∧ st.task t = .reserved req ∧ st'.nextKey = st.nextKey + req.keyed.length) ∨
      st'.nextKey = st.nextKey := by
  cases Step.of_eq e with
  | @push t req hpc => exact .inl ⟨t, req, rfl, hpc, nextKey_push hs hpc⟩
  | submit hpc hn =>
    right
    unfold State.submit
    split <;> rfl
  | @drain t cont hpc hrun =>
    right
    unfold State.drain
    split
    · cases cont <;> rfl
    · rfl
  | _ => exact .inr rfl

theorem ledger_of_run (h : Run (step b) (init capacity) tr st) : Stable st ∧ Ledger st :=
  h.invariant (I := fun _ st => Stable st ∧ Ledger st) ⟨stable_init capacity, ledger_init capacity⟩
    fun _ _ _ _ hi e => ⟨hi.1.step e, hi.2.step hi.1 e⟩

/-- Nothing was pushed, and no numbers were taken. -/
theorem nextKey_of_runWhere (h : RunWhere (step b) NoEntries (init capacity) tr st) : st.nextKey = 1 := by
  have hinv : Stable st ∧ st.nextKey = 1 := by
    refine h.invariant (I := fun _ st => Stable st ∧ st.nextKey = 1) ⟨stable_init capacity, rfl⟩
      fun tr st a st' hi hG e => ⟨hi.1.step e, ?_⟩
    rcases nextKey_step hi.1 e with ⟨t, req, ha, hpc, hnext⟩ | hnext
    · rw [hnext, hG t req ha hpc, hi.2]
      rfl
    · exact hnext.trans hi.2
  exact hinv.2

/-- No numbers were taken, and nothing was pushed. -/
private theorem runWhere_of_nextKey (h : Run (step b) (init capacity) tr st) :
    1 ≤ st.nextKey ∧ (st.nextKey = 1 → RunWhere (step b) NoEntries (init capacity) tr st) := by
  induction h with
  | nil => exact ⟨Nat.le_refl 1, fun _ => .nil⟩
  | @snoc tr st st' a hrun e ih =>
    obtain ⟨hpos, hwhere⟩ := ih
    have hstable := (ledger_of_run hrun).1
    have hle : st.nextKey ≤ st'.nextKey := by
      rcases nextKey_step hstable e with ⟨t, req, -, -, hnext⟩ | hnext <;> omega
    refine ⟨by omega, fun hone => (hwhere (by omega)).snoc (fun t req ha hpc => ?_) e⟩
    subst ha
    simp only [step, taskStep, hpc, Option.some.injEq] at e
    have hnext := nextKey_push hstable hpc
    rw [e] at hnext
    exact List.length_eq_zero_iff.1 (by omega)

/-- In a run that pushes nothing the permits count the free slots, and if they do so in a state in which no task has or
awaits permits, the run has pushed nothing. -/
theorem balanced_iff (h : Run (step b) (init capacity) tr st) :
    (RunWhere (step b) NoEntries (init capacity) tr st → Balanced st) ∧
      (Quiet st → Balanced st → RunWhere (step b) NoEntries (init capacity) tr st) := by
  obtain ⟨-, hledger⟩ := ledger_of_run h
  constructor
  · intro hwhere
    have hone := nextKey_of_runWhere hwhere
    refine ⟨fun hq => ?_, ?_⟩
    · have hquiet := hledger.quiet hq
      omega
    · obtain ⟨s, -, heq⟩ := hledger
      omega
  · intro hq hbalanced
    have hquiet := hledger.quiet hq
    have heq := hbalanced.quiet hq
    exact (runWhere_of_nextKey h).2 (by omega)

/-- A task that waits for a permit and is cancelled, and one that looks for room. -/
theorem balanced_iff_cancelled : ∃ st : State Bool,
    Run (step .debug) (init 256) [.request false .wait, .cancel false, .request true .wait, .permit true] st ∧
      Balanced st := by
  have hwhere : RunWhere (step .debug) NoEntries (init 256 : State Bool)
      [.request false .wait, .cancel false, .request true .wait, .permit true] _ :=
    (((RunWhere.nil.snoc nofun rfl).snoc nofun rfl).snoc nofun rfl).snoc nofun rfl
  have hrun : Run (step .debug) (init 256 : State Bool)
      [.request false .wait, .cancel false, .request true .wait, .permit true] _ := run_iff_exec.2 rfl
  exact ⟨_, hrun, (balanced_iff hrun).1 hwhere⟩

end

/-- An operation of two entries leaves two permits too many. -/
private theorem quiet_twoEntries : ∃ st : State Unit,
    Run (step .debug) (init 256) [.request () .wait, .permit (), .reserve (), .push ()] st ∧ Quiet st ∧
      st.fill + st.queued.length = st.capacity + 2 := by
  have hrun : Run (step .debug) (init 256 : State Unit)
      [.request () .wait, .permit (), .reserve (), .push ()] _ := run_iff_exec.2 rfl
  refine ⟨_, hrun, ?_, rfl⟩
  rintro t ⟨req, hreq⟩
  cases hreq

/-- The permits are too many before and after the entries are submitted. -/
theorem not_balanced :
    (∃ st : State Unit, Run (step .debug) (init 256) [.request () .wait, .permit (), .reserve (), .push ()] st ∧
      Quiet st ∧ ¬ Balanced st) ∧
    ∃ st : State Unit, Run (step .debug) (init 256)
      [.request () .wait, .permit (), .reserve (), .push (), .submit () (some 2)] st ∧ st.capacity < st.fill := by
  constructor
  · obtain ⟨st, hrun, hquiet, hsum⟩ := quiet_twoEntries
    refine ⟨st, hrun, hquiet, fun hb => ?_⟩
    have heq := hb.quiet hquiet
    omega
  · have hrun : Run (step .debug) (init 256 : State Unit)
        [.request () .wait, .permit (), .reserve (), .push (), .submit () (some 2)] _ := run_iff_exec.2 rfl
    exact ⟨_, hrun, by decide⟩

end IoUring

end ShmRing
