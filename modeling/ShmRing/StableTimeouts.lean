import ShmRing.IoUring
import Mathlib.Data.List.Nodup

/-!
# The memory of queued entries

What an entry points to is kept alive by the deque `stable_timeouts` until the kernel has consumed the entry.  For this
the deque and the submission queue must have the same entries in the same order, whatever part of the queue a submission
consumes (`keptAlive_of_run`).  Room for entries that was found is still there when they are pushed, since there is no
await point in between.
-/

namespace ShmRing

open Machine Transition

namespace IoUring

variable {T : Type} {b : Build} {st st' : State T} {a : Act T} {t : T}

/-- What is promised of the queue. -/
structure KeptAlive (st : State T) : Prop where
  /-- There is one element for each entry, in the same order. -/
  aligned : st.stableTimeouts = st.queued.map Entry.alloc
  /-- What a queued entry points to was not dropped. -/
  alive : ∀ e ∈ st.queued, ∀ alloc, e.alloc = some alloc → alloc ∉ st.dropped
  /-- There was always room for what was pushed, and no drain went past the end. -/
  panicked : st.panicked = false

/-- The invariant. -/
structure Stable (st : State T) : Prop where
  aligned : st.stableTimeouts = st.queued.map Entry.alloc
  panicked : st.panicked = false
  nodup : (st.dropped ++ st.queued.filterMap Entry.alloc).Nodup
  lt : ∀ alloc ∈ st.dropped ++ st.queued.filterMap Entry.alloc, alloc < st.nextAlloc
  midway : ∀ t, (st.task t).Midway → st.running = some t
  room : ∀ t req, st.task t = .reserved req → req.keyed.length ≤ st.capacity - st.queued.length

theorem stable_init (capacity : Nat) : Stable (init capacity : State T) where
  aligned := rfl
  panicked := rfl
  nodup := List.nodup_nil
  lt _ h := by cases h
  midway _ h := h.elim
  room _ _ h := by cases h

private theorem Stable.keptAlive (h : Stable st) : KeptAlive st where
  aligned := h.aligned
  panicked := h.panicked
  alive e he alloc ha hd := by
    have hq : alloc ∈ st.queued.filterMap Entry.alloc := List.mem_filterMap.2 ⟨e, he, ha⟩
    exact (List.nodup_append.1 h.nodup).2.2 alloc hd alloc hq rfl

/-- A step that leaves the queue alone. -/
private theorem Stable.tasks (h : Stable st) (hqueued : st'.queued = st.queued)
    (htimeouts : st'.stableTimeouts = st.stableTimeouts) (hdropped : st'.dropped = st.dropped)
    (hnext : st'.nextAlloc = st.nextAlloc) (hpanicked : st'.panicked = st.panicked)
    (hmidway : ∀ t, (st'.task t).Midway → st'.running = some t)
    (hroom : ∀ t req, st'.task t = .reserved req → req.keyed.length ≤ st'.capacity - st'.queued.length) :
    Stable st' where
  aligned := by rw [hqueued, htimeouts, h.aligned]
  panicked := by rw [hpanicked, h.panicked]
  nodup := by rw [hdropped, hqueued]; exact h.nodup
  lt := by rw [hdropped, hqueued, hnext]; exact h.lt
  midway := hmidway
  room := hroom

/-- The queue after a submission. -/
private theorem Stable.submit (h : Stable st) {n : Nat} (hn : n ≤ st.queued.length) : Stable (st.submit n) := by
  have hlen : n ≤ st.stableTimeouts.length := by rw [h.aligned, List.length_map]; exact hn
  have hdrop : st.dropped ++ (st.stableTimeouts.take n).filterMap id ++ (st.queued.drop n).filterMap Entry.alloc =
      st.dropped ++ st.queued.filterMap Entry.alloc := by
    rw [h.aligned, ← List.map_take, List.filterMap_map, List.append_assoc]
    congr 1
    rw [show id ∘ Entry.alloc = Entry.alloc from rfl, ← List.filterMap_append, List.take_append_drop]
  rw [State.submit, if_pos hlen]
  refine ⟨?_, h.panicked, ?_, ?_, h.midway, fun t req hpc => ?_⟩
  · rw [h.aligned, List.map_drop]
  · rw [hdrop]
    exact h.nodup
  · rw [hdrop]
    exact h.lt
  · have hroom := h.room t req hpc
    simp only [List.length_drop]
    omega

/-! ### Pushing -/

/-- The elements that `redeem_push` appends are those of the entries, if all of them have an allocation or none has. -/
private theorem allocs_eq {l : List Entry} (h : (∀ e ∈ l, e.alloc ≠ none) ∨ ∀ e ∈ l, e.alloc = none) :
    List.replicate (l.length - (l.filterMap Entry.alloc).length) none ++ (l.filterMap Entry.alloc).map some =
      l.map Entry.alloc := by
  rcases h with hsome | hnone
  · have hmap : (l.filterMap Entry.alloc).map some = l.map Entry.alloc := by
      induction l with
      | nil => rfl
      | cons e l ih =>
        obtain ⟨alloc, ha⟩ := Option.ne_none_iff_exists'.1 (hsome e (List.mem_cons_self ..))
        rw [List.filterMap_cons_some ha, List.map_cons, List.map_cons, ha,
          ih fun e he => hsome e (List.mem_cons_of_mem _ he)]
    have hlen : (l.filterMap Entry.alloc).length = l.length := by
      have hlen := congrArg List.length hmap
      rwa [List.length_map, List.length_map] at hlen
    rw [hlen, Nat.sub_self, hmap]
    rfl
  · have hnil : l.filterMap Entry.alloc = [] := List.filterMap_eq_nil_iff.2 hnone
    rw [hnil, List.length_nil, Nat.sub_zero, List.map_nil, List.append_nil]
    exact (List.map_eq_replicate_iff.2 hnone).symm

namespace State

theorem length_entries (st : State T) (req : Request) : (st.entries req).length = req.keyed.length :=
  List.length_mapIdx

private theorem entries_alloc (st : State T) (req : Request) {i : Nat} {e : Entry}
    (he : (st.entries req)[i]? = some e) : e.alloc = if req.allocated then some (st.nextAlloc + i) else none := by
  rw [entries, List.getElem?_mapIdx] at he
  obtain ⟨keyed, -, rfl⟩ := Option.map_eq_some_iff.1 he
  rfl

private theorem entries_all (st : State T) (req : Request) :
    (∀ e ∈ st.entries req, e.alloc ≠ none) ∨ ∀ e ∈ st.entries req, e.alloc = none := by
  cases hreq : req.allocated with
  | true =>
    refine .inl fun e he => ?_
    obtain ⟨i, hi⟩ := List.getElem?_of_mem he
    rw [st.entries_alloc req hi, hreq]
    exact Option.some_ne_none _
  | false =>
    refine .inr fun e he => ?_
    obtain ⟨i, hi⟩ := List.getElem?_of_mem he
    rw [st.entries_alloc req hi, hreq]
    rfl

/-- The allocations of an operation are new ones. -/
private theorem entries_allocs (st : State T) (req : Request) :
    (st.entries req).filterMap Entry.alloc =
      if req.allocated then List.range' st.nextAlloc req.keyed.length else [] := by
  have hmap : (st.entries req).map Entry.alloc =
      (List.range' st.nextAlloc req.keyed.length).map fun a => if req.allocated then some a else none := by
    refine List.ext_getElem? fun i => ?_
    rw [List.getElem?_map, List.getElem?_map]
    cases he : (st.entries req)[i]? with
    | none =>
      have hlen : req.keyed.length ≤ i := by
        rw [← st.length_entries req]
        exact List.getElem?_eq_none_iff.1 he
      rw [List.getElem?_eq_none_iff.2 (by rwa [List.length_range'])]
      rfl
    | some e =>
      have hlt : i < req.keyed.length := by
        rw [← st.length_entries req]
        exact (List.getElem?_eq_some_iff.1 he).1
      rw [List.getElem?_range' hlt, Option.map_some, Option.map_some, st.entries_alloc req he, Nat.one_mul]
  rw [show Entry.alloc = id ∘ Entry.alloc from rfl, ← List.filterMap_map, hmap]
  split
  · rw [List.filterMap_map]
    exact List.filterMap_some
  · exact List.filterMap_eq_nil_iff.2 fun a ha => by
      obtain ⟨_, -, rfl⟩ := List.mem_map.1 ha
      rfl

private theorem redeemPush_eq (st : State T) {l : List Entry} (hroom : l.length ≤ st.capacity - st.queued.length)
    (hl : (∀ e ∈ l, e.alloc ≠ none) ∨ ∀ e ∈ l, e.alloc = none) :
    st.redeemPush l (l.filterMap Entry.alloc) =
      { st with queued := st.queued ++ l, stableTimeouts := st.stableTimeouts ++ l.map Entry.alloc } := by
  have hle : (l.filterMap Entry.alloc).length ≤ l.length := List.length_filterMap_le ..
  rw [redeemPush, if_neg (by omega), allocs_eq hl]

/-- The queues and the waiters after a push. -/
def pushed (st : State T) (req : Request) : State T :=
  { st with
    waiters := st.waiters.establish (st.newKeys req)
    nextKey := st.nextKey + req.keyed.length
    nextAlloc := st.nextAlloc + req.keyed.length
    queued := st.queued ++ st.entries req
    stableTimeouts := st.stableTimeouts ++ (st.entries req).map Entry.alloc }

theorem push_eq [DecidableEq T] {st : State T} {req : Request}
    (hroom : req.keyed.length ≤ st.capacity - st.queued.length) :
    ∃ pc running, st.push t req = { st.pushed req with task := Function.update st.task t pc, running } ∧
      ((∃ key, (st.newKeys req).getLast? = some key ∧ pc = .polling (.wait key (st.newKeys req)) ∧ running = some t) ∨
        st.newKeys req = [] ∧ pc = .idle ∧ running = none) := by
  have hpush := redeemPush_eq { st with
    waiters := st.waiters.establish (st.newKeys req)
    nextKey := st.nextKey + (st.entries req).length
    nextAlloc := st.nextAlloc + (st.entries req).length } (by rwa [length_entries]) (st.entries_all req)
  unfold push
  simp only [hpush]
  rw [length_entries]
  cases hk : (st.newKeys req).getLast? with
  | some key => exact ⟨_, _, rfl, .inl ⟨key, rfl, rfl, rfl⟩⟩
  | none => exact ⟨_, _, rfl, .inr ⟨List.getLast?_eq_none_iff.1 hk, rfl, rfl⟩⟩

end State

namespace Stable

/-- The allocations of an operation are none of those that were dropped or are queued. -/
private theorem nodup_pushed (h : Stable st) (req : Request) :
    (st.dropped ++ (st.queued ++ st.entries req).filterMap Entry.alloc).Nodup := by
  rw [List.filterMap_append, ← List.append_assoc, st.entries_allocs req]
  split
  · refine List.nodup_append.2 ⟨h.nodup, List.nodup_range', fun a ha a' ha' => ?_⟩
    have hlt := h.lt a ha
    have hge := (List.mem_range'_1.1 ha').1
    omega
  · rw [List.append_nil]
    exact h.nodup

private theorem lt_pushed (h : Stable st) (req : Request) :
    ∀ alloc ∈ st.dropped ++ (st.queued ++ st.entries req).filterMap Entry.alloc,
      alloc < st.nextAlloc + req.keyed.length := by
  intro alloc ha
  rw [List.filterMap_append, ← List.append_assoc, st.entries_allocs req] at ha
  rcases List.mem_append.1 ha with ha | ha
  · have hlt := h.lt alloc ha
    omega
  · split at ha
    · exact (List.mem_range'_1.1 ha).2
    · cases ha

variable [DecidableEq T]

/-- A task goes on, and changes nothing of the submission queue. -/
private theorem task (h : Stable st) {pc : Pc} {running : Option T} {fill : Nat} {waiters : Waiters}
    {completed : List Completion} (hrun : st.CanRun t) (hmid : pc.Midway → running = some t)
    (hroom : ∀ req, pc = .reserved req → req.keyed.length ≤ st.capacity - st.queued.length) :
    Stable { st with fill, completed, waiters, task := Function.update st.task t pc, running } := by
  refine h.tasks rfl rfl rfl rfl rfl (fun t' hm => ?_) fun t' req hpc => ?_
  · simp only [Function.update_apply] at hm
    split at hm
    · rename_i he
      subst he
      exact hmid hm
    · rename_i hne
      have hrun' := h.midway t' hm
      rcases hrun with hr | hr <;> rw [hrun'] at hr <;> cases hr
      exact absurd rfl hne
  · simp only [Function.update_apply] at hpc
    split at hpc
    · exact hroom req hpc
    · exact h.room t' req hpc

private theorem push (h : Stable st) {req : Request} (hpc : st.task t = .reserved req) : Stable (st.push t req) := by
  have hrun : st.running = some t := h.midway t (by rw [hpc]; trivial)
  -- no other task is between finding room and pushing
  have halone : ∀ t' req', st.task t' = .reserved req' → t' = t := fun t' req' hpc' => by
    have hrun' := h.midway t' (by rw [hpc']; trivial)
    rw [hrun] at hrun'
    exact (Option.some.inj hrun').symm
  obtain ⟨pc, running, hpush, hnext⟩ := State.push_eq (t := t) (h.room t req hpc)
  have hreserved : ∀ req', pc ≠ .reserved req' := by
    rcases hnext with ⟨key, -, rfl, -⟩ | ⟨-, rfl, -⟩ <;> exact nofun
  rw [hpush]
  constructor
  · show st.stableTimeouts ++ _ = (st.queued ++ st.entries req).map Entry.alloc
    rw [h.aligned, List.map_append]
  · exact h.panicked
  · exact h.nodup_pushed req
  · exact h.lt_pushed req
  · intro t' hm
    simp only [Function.update_apply] at hm
    split at hm
    · rename_i he
      subst he
      rcases hnext with ⟨key, -, rfl, rfl⟩ | ⟨-, rfl, -⟩
      · rfl
      · exact hm.elim
    · rename_i hne
      have hrun' := h.midway t' hm
      rw [hrun] at hrun'
      exact absurd (Option.some.inj hrun').symm hne
  · intro t' req' hpc'
    simp only [Function.update_apply] at hpc'
    split at hpc'
    · exact absurd hpc' (hreserved req')
    · rename_i hne
      exact absurd (halone t' req' hpc') hne

private theorem drain (h : Stable st) {cont : Cont} (hrun : st.running = none) : Stable (st.drain b t cont) := by
  unfold State.drain
  split
  · cases cont with
    | reserve req => exact h.task (.inl hrun) (fun _ => rfl) nofun
    | wait key keys => exact h.task (.inl hrun) (fun _ => rfl) nofun
  · exact h.task (.inl hrun) nofun nofun

theorem step (h : Stable st) (e : step b st a = some st') : Stable st' := by
  cases Step.of_eq e with
  | request hpc hrun => exact h.task (.inl hrun) nofun nofun
  | permit hpc hrun => exact h.task (.inl hrun) (fun _ => rfl) nofun
  | reserve hpc hroom =>
    refine h.task (.inr (h.midway _ (by rw [hpc]; trivial))) (fun _ => rfl) fun req he => ?_
    cases he
    exact hroom
  | full hpc => exact h.task (.inr (h.midway _ (by rw [hpc]; trivial))) (fun _ => rfl) nofun
  | push hpc => exact h.push hpc
  | submit hpc hn =>
    have hmid := h.midway _ (by rw [hpc]; trivial)
    exact (h.submit hn).task (.inr ((st.submit_running _).trans hmid)) (fun _ => rfl) nofun
  | pass ha hpc => exact h.task (.inr (h.midway _ (by rw [hpc]; trivial))) (fun _ => rfl) nofun
  | register hpc => exact h.task (.inr (h.midway _ (by rw [hpc]; trivial))) nofun nofun
  | drain hpc hrun => exact h.drain hrun
  | acquire hpc hrun hpos => exact h.task hrun nofun nofun
  | cancelAcquiring hpc hrun => exact h.task (.inl hrun) nofun nofun
  | cancel hpc hrun => exact h.task (.inl hrun) nofun nofun
  | post hmem => exact h.tasks rfl rfl rfl rfl rfl h.midway h.room
  | read hpc => exact h.tasks rfl rfl rfl rfl rfl h.midway h.room
  | notify hpc =>
    refine h.tasks rfl rfl rfl rfl rfl (fun t' hm => h.midway t' ?_) fun t' req hpc' => h.room t' req ?_
    · simp only at hm
      split at hm
      · exact hm.elim
      · exact hm
    · simp only at hpc'
      split at hpc'
      · cases hpc'
      · exact hpc'

end Stable

/-- In every run, what the queued entries point to is kept alive. -/
theorem keptAlive_of_run [DecidableEq T] {capacity : Nat} {tr : List (Act T)}
    (h : Run (step b) (init capacity) tr st) : KeptAlive st := by
  have hstable := h.invariant (I := fun _ st => Stable st) (stable_init capacity) fun _ _ _ _ h e => h.step e
  exact hstable.keptAlive

/-- A submission that splits a pair of linked entries. -/
theorem keptAlive_of_run_split : ∃ st : State Unit,
    Run (step .release) (init 256)
      [.request () .wait, .permit (), .reserve (), .push (), .submit () (some 1), .register (), .cancel ()] st ∧
      st.queued = [⟨0, some 1⟩] ∧ st.dropped = [0] ∧ KeptAlive st := by
  have h : Run (step .release) (init 256 : State Unit)
      [.request () .wait, .permit (), .reserve (), .push (), .submit () (some 1), .register (), .cancel ()] _ :=
    run_iff_exec.2 rfl
  exact ⟨_, h, rfl, rfl, keptAlive_of_run h⟩

end IoUring

end ShmRing
