import ShmRing.StableTimeouts
import Mathlib.Data.List.Count

/-!
# Which completion reaches which waiter

Any waiting task drains the completion queue for all.  A completion changes at most the semaphore of the owner of the
key that its entry carried, and a waiter is signalled at most once (`routed_iff`).  An owner that is still there when
its completion is drained is signalled with the result and removed, unless the result is `-1`: to this one is added as
a `u32`, which panics or gives no permit.
-/

namespace ShmRing

open Machine Transition

namespace IoUring

variable {T : Type} {b : Build} {st st' : State T} {a : Act T} {t : T}

/-! ### The encoding of a result -/

/-- The result of `EPERM`. -/
def eperm : Int32 := -1

/-- The permits that stand for a result: one for the waiter, and the result as a `u32`. -/
def encoded (result : Int32) : Nat := 1 + result.toUInt32.toNat

theorem toUInt32_lt {result : Int32} (h : result ≠ eperm) : result.toUInt32.toNat < 2 ^ 32 - 1 := by
  have hne : result.toUInt32.toNat ≠ 2 ^ 32 - 1 := fun he => h <| by
    rw [← result.toInt32_toUInt32, UInt32.toNat_inj.1 (he.trans (by rfl : 2 ^ 32 - 1 = eperm.toUInt32.toNat))]
    rfl
  have hlt := result.toUInt32.toNat_lt
  omega

theorem permitsOf_of_ne {result : Int32} (h : result ≠ eperm) : permitsOf b result = .ok (encoded result) := by
  have hlt := toUInt32_lt h
  have hadd : (1 + result.toUInt32).toNat = encoded result := by
    rw [encoded, UInt32.toNat_add, show (1 : UInt32).toNat = 1 from rfl]
    omega
  cases b with
  | debug => rw [permitsOf, if_pos (by omega), hadd]
  | release => rw [permitsOf, hadd]

/-- No permit is added for the result `-1`. -/
private theorem permitsOf_eperm {n : Nat} (h : permitsOf b eperm = .ok n) : n = 0 := by
  cases b <;> cases h
  rfl

/-! ### The loop over the completion queue -/

namespace Waiters

/-- What is known of a key is the same. -/
structure SameAt (ws ws' : Waiters) (k : Nat) : Prop where
  notify : ws'.notify k = ws.notify k
  permits : ws'.permits k = ws.permits k
  signals : ws'.signals k = ws.signals k

variable {ws ws' : Waiters} {k key n : Nat} {cs : List Completion} {c : Completion}

private theorem SameAt.refl (ws : Waiters) (k : Nat) : SameAt ws ws k := ⟨rfl, rfl, rfl⟩

private theorem SameAt.trans {ws'' : Waiters} (h : SameAt ws ws' k) (h' : SameAt ws' ws'' k) : SameAt ws ws'' k :=
  ⟨h'.notify.trans h.notify, h'.permits.trans h.permits, h'.signals.trans h.signals⟩

private theorem sameAt_remove {keys : List Nat} (h : k ∉ keys) : SameAt ws (ws.remove keys) k :=
  ⟨by simp [remove, h], rfl, rfl⟩

private theorem sameAt_signal (h : k ≠ key) : SameAt ws (ws.signal key n) k :=
  ⟨by simp [signal, remove, h], Function.update_of_ne h .., Function.update_of_ne h ..⟩

private theorem establish_notify {keys : List Nat} :
    (ws.establish keys).notify k = true ↔ k ∈ keys ∨ ws.notify k = true := by simp [establish]

theorem complete_cons_of_not (h : ws.notify c.userData = false) : ws.complete b (c :: cs) = ws.complete b cs := by
  rw [complete, h]
  rfl

theorem complete_cons_ok (h : ws.notify c.userData = true) (hn : permitsOf b c.result = .ok n) :
    ws.complete b (c :: cs) = (ws.signal c.userData n).complete b cs := by
  rw [complete, if_pos h, hn]

theorem complete_cons_error {f : Fault} (h : ws.notify c.userData = true) (hf : permitsOf b c.result = .error f) :
    ws.complete b (c :: cs) = (ws.remove [c.userData], some cs) := by
  rw [complete, if_pos h, hf]

/-- The completions that were drained, and those that are left, of which nothing has changed. -/
theorem complete_drained (b : Build) (ws : Waiters) (cs : List Completion) :
    ∃ drained, cs = drained ++ (ws.complete b cs).2.getD [] ∧
      ∀ k, k ∉ drained.map Completion.userData → SameAt ws (ws.complete b cs).1 k := by
  induction cs generalizing ws with
  | nil => exact ⟨[], rfl, fun k _ => .refl ws k⟩
  | cons c cs ih =>
    cases h : ws.notify c.userData with
    | false =>
      rw [complete_cons_of_not h]
      obtain ⟨drained, hcs, hsame⟩ := ih ws
      exact ⟨c :: drained, by rw [List.cons_append, ← hcs],
        fun k hk => hsame k fun hm => hk (List.mem_cons_of_mem _ hm)⟩
    | true =>
      cases hn : permitsOf b c.result with
      | ok n =>
        rw [complete_cons_ok h hn]
        obtain ⟨drained, hcs, hsame⟩ := ih (ws.signal c.userData n)
        refine ⟨c :: drained, by rw [List.cons_append, ← hcs], fun k hk => ?_⟩
        exact (sameAt_signal (List.ne_of_not_mem_cons hk)).trans (hsame k (List.not_mem_of_not_mem_cons hk))
      | error f =>
        rw [complete_cons_error h hn]
        exact ⟨[c], rfl, fun k hk => sameAt_remove hk⟩

/-- Nothing changes for a key that has no notice. -/
private theorem complete_sameAt_of_not (hk : ws.notify k = false) : SameAt ws (ws.complete b cs).1 k := by
  induction cs generalizing ws with
  | nil => exact .refl ws k
  | cons c cs ih =>
    cases h : ws.notify c.userData with
    | false =>
      rw [complete_cons_of_not h]
      exact ih hk
    | true =>
      have hne : k ≠ c.userData := fun he => by rw [he, h] at hk; cases hk
      cases hn : permitsOf b c.result with
      | ok n =>
        rw [complete_cons_ok h hn]
        have hsame : SameAt ws (ws.signal c.userData n) k := sameAt_signal hne
        exact hsame.trans (ih (hsame.notify.trans hk))
      | error f =>
        rw [complete_cons_error h hn]
        exact sameAt_remove fun hm => hne (List.mem_singleton.1 hm)

private theorem signal_notify : (ws.signal key n).notify key = false := by simp [signal, remove]

private theorem signal_permits : (ws.signal key n).permits key = ws.permits key + n := Function.update_self ..

private theorem signal_signals : (ws.signal key n).signals key = ws.signals key + 1 := Function.update_self ..

/-- A key is as it was, or its notice was removed with at most one signal. -/
private theorem complete_or_removed (b : Build) (ws : Waiters) (cs : List Completion) (k : Nat) :
    SameAt ws (ws.complete b cs).1 k ∨
      ws.notify k = true ∧ (ws.complete b cs).1.notify k = false ∧
        (ws.complete b cs).1.signals k ≤ ws.signals k + 1 := by
  induction cs generalizing ws with
  | nil => exact .inl (.refl ws k)
  | cons c cs ih =>
    cases h : ws.notify c.userData with
    | false =>
      rw [complete_cons_of_not h]
      exact ih ws
    | true =>
      by_cases hk : k = c.userData
      · subst hk
        right
        cases hn : permitsOf b c.result with
        | ok n =>
          rw [complete_cons_ok h hn]
          have hsame : SameAt _ ((ws.signal c.userData n).complete b cs).1 c.userData :=
            complete_sameAt_of_not signal_notify
          exact ⟨h, hsame.notify.trans signal_notify, Nat.le_of_eq (hsame.signals.trans signal_signals)⟩
        | error f =>
          rw [complete_cons_error h hn]
          exact ⟨h, by simp [remove], Nat.le_succ _⟩
      · cases hn : permitsOf b c.result with
        | ok n =>
          rw [complete_cons_ok h hn]
          have hsame : SameAt ws (ws.signal c.userData n) k := sameAt_signal hk
          rcases ih (ws.signal c.userData n) with hs | ⟨hold, hnot, hsig⟩
          · exact .inl (hsame.trans hs)
          · exact .inr ⟨hsame.notify ▸ hold, hnot, by rwa [hsame.signals] at hsig⟩
        | error f =>
          rw [complete_cons_error h hn]
          exact .inl (sameAt_remove fun hm => hk (List.mem_singleton.1 hm))

/-- The completions of a key that has a notice, all with one result, signal its waiter once. -/
private theorem complete_signals {r : Int32} (h : ∀ c ∈ cs, ws.notify c.userData = true → c.result ≠ eperm)
    (hk : ws.notify k = true) (hmem : k ∈ cs.map Completion.userData) (hr : ∀ c ∈ cs, c.userData = k → c.result = r) :
    (ws.complete b cs).1.notify k = false ∧ (ws.complete b cs).1.permits k = ws.permits k + encoded r ∧
      (ws.complete b cs).1.signals k = ws.signals k + 1 := by
  induction cs generalizing ws with
  | nil => cases hmem
  | cons c cs ih =>
    have hr' : ∀ c ∈ cs, c.userData = k → c.result = r := fun c hc => hr c (List.mem_cons_of_mem _ hc)
    cases hc : ws.notify c.userData with
    | false =>
      have hne : k ≠ c.userData := fun he => by rw [he, hc] at hk; cases hk
      rw [complete_cons_of_not hc]
      refine ih (fun c hc => h c (List.mem_cons_of_mem _ hc)) hk ?_ hr'
      exact (List.mem_cons.1 hmem).resolve_left hne
    | true =>
      have hn := permitsOf_of_ne (b := b) (h c (List.mem_cons_self ..) hc)
      rw [complete_cons_ok hc hn]
      by_cases he : k = c.userData
      · subst he
        have hsame : SameAt _ ((ws.signal c.userData (encoded c.result)).complete b cs).1 c.userData :=
          complete_sameAt_of_not signal_notify
        rw [hsame.notify, hsame.permits, hsame.signals, signal_notify, signal_permits, signal_signals,
          hr c (List.mem_cons_self ..) rfl]
        exact ⟨rfl, rfl, rfl⟩
      · have hsame : SameAt ws (ws.signal c.userData (encoded c.result)) k := sameAt_signal he
        rw [← hsame.permits, ← hsame.signals]
        refine ih (fun c' hc' hnot => h c' (List.mem_cons_of_mem _ hc') ?_) (hsame.notify.trans hk) ?_ hr'
        · simp only [signal, remove, Bool.and_eq_true] at hnot
          exact hnot.2
        · exact (List.mem_cons.1 hmem).resolve_left he

private theorem complete_none (h : ∀ c ∈ cs, ws.notify c.userData = true → c.result ≠ eperm) :
    (ws.complete b cs).2 = none := by
  induction cs generalizing ws with
  | nil => rfl
  | cons c cs ih =>
    cases hc : ws.notify c.userData with
    | false =>
      rw [complete_cons_of_not hc]
      exact ih fun c hc => h c (List.mem_cons_of_mem _ hc)
    | true =>
      rw [complete_cons_ok hc (permitsOf_of_ne (h c (List.mem_cons_self ..) hc))]
      refine ih fun c' hc' hnot => h c' (List.mem_cons_of_mem _ hc') ?_
      simp only [signal, remove, Bool.and_eq_true] at hnot
      exact hnot.2

/-- The result `-1` adds no permits. -/
private theorem complete_eperm (h : ∀ c ∈ cs, c.userData = k → c.result = eperm) :
    (ws.complete b cs).1.permits k = ws.permits k := by
  induction cs generalizing ws with
  | nil => rfl
  | cons c cs ih =>
    have h' : ∀ c ∈ cs, c.userData = k → c.result = eperm := fun c hc => h c (List.mem_cons_of_mem _ hc)
    cases hc : ws.notify c.userData with
    | false =>
      rw [complete_cons_of_not hc]
      exact ih h'
    | true =>
      cases hn : permitsOf b c.result with
      | error f =>
        rw [complete_cons_error hc hn]
        rfl
      | ok n =>
        rw [complete_cons_ok hc hn, ih h']
        by_cases he : k = c.userData
        · subst he
          rw [h c (List.mem_cons_self ..) rfl] at hn
          rw [signal_permits, permitsOf_eperm hn]
          rfl
        · exact Function.update_of_ne he ..

end Waiters

/-! ### Routing -/

/-- The keys from `n` on that are given to the entries that need one. -/
def keysFrom (n : Nat) (keyed : List Bool) : List Nat := keyed.mapIdx fun i keyed => if keyed then n + i else 0

private theorem keysFrom_cons (n : Nat) (d : Bool) (keyed : List Bool) :
    keysFrom n (d :: keyed) = (if d then n else 0) :: keysFrom (n + 1) keyed := by
  simp only [keysFrom, List.mapIdx_cons, Nat.add_zero, Nat.add_comm 1, Nat.add_assoc]

theorem mem_keysFrom {n k : Nat} {keyed : List Bool} (hk : k ≠ 0) (hmem : k ∈ keysFrom n keyed) :
    n ≤ k ∧ k < n + keyed.length := by
  induction keyed generalizing n with
  | nil => cases hmem
  | cons d keyed ih =>
    rw [keysFrom_cons] at hmem
    rw [List.length_cons]
    rcases List.mem_cons.1 hmem with he | hmem
    · split at he <;> omega
    · have := ih hmem
      omega

private theorem count_keysFrom_le {n k : Nat} {keyed : List Bool} (hk : k ≠ 0) : (keysFrom n keyed).count k ≤ 1 := by
  induction keyed generalizing n with
  | nil => exact Nat.zero_le _
  | cons d keyed ih =>
    rw [keysFrom_cons, List.count_cons]
    have hle := ih (n := n + 1)
    by_cases he : (if d then n else 0) = k
    · have hout : k ∉ keysFrom (n + 1) keyed := fun hmem => by
        have hge := (mem_keysFrom hk hmem).1
        split at he <;> omega
      exact Nat.le_of_eq (by rw [List.count_eq_zero.2 hout, if_pos (beq_iff_eq.2 he)])
    · rwa [if_neg fun h => he (beq_iff_eq.1 h)]

namespace State

private theorem entries_userData (st : State T) (req : Request) :
    (st.entries req).map Entry.userData = keysFrom st.nextKey req.keyed := by
  refine List.ext_getElem? fun i => ?_
  simp only [entries, keysFrom, List.getElem?_map, List.getElem?_mapIdx, Option.map_map]
  rfl

theorem mem_newKeys {st : State T} {req : Request} {k : Nat} :
    k ∈ st.newKeys req ↔ k ∈ keysFrom st.nextKey req.keyed ∧ k ≠ 0 := by
  rw [newKeys, entries_userData, List.mem_filter, decide_eq_true_eq]

/-- The user data of the entries that are queued, in the kernel or completed. -/
def carried (st : State T) : List Nat :=
  st.queued.map Entry.userData ++ st.inFlight.map Entry.userData ++ st.completed.map Completion.userData

/-- There is an owner of the key. -/
def Live (st : State T) (k : Nat) : Prop := ∃ t, k ∈ (st.task t).keys

private theorem carried_pushed (st : State T) (req : Request) :
    (st.pushed req).carried.Perm (keysFrom st.nextKey req.keyed ++ st.carried) := by
  simp only [carried, pushed, List.map_append, st.entries_userData, List.append_assoc]
  exact List.perm_append_comm_assoc ..

end State

/-- What is promised of a task that drains the completion queue. -/
structure Routed (st st' : State T) : Prop where
  drained : st'.completed = []
  /-- A semaphore changes only by a completion of the entry that carried its key, while the key has an owner. -/
  own : ∀ k, st'.waiters.permits k ≠ st.waiters.permits k → k ≠ 0 ∧ st.Live k ∧ ∃ c ∈ st.completed, c.userData = k
  /-- A waiter that is still there is signalled with its result, and removed. -/
  signalled : ∀ c ∈ st.completed, st.Live c.userData → st'.waiters.notify c.userData = false ∧
    st'.waiters.permits c.userData = encoded c.result ∧
    st'.waiters.signals c.userData = st.waiters.signals c.userData + 1

/-- No completion that has a waiter has the result `-1`. -/
def NoEperm (st : State T) : Prop := ∀ c ∈ st.completed, st.Live c.userData → c.result ≠ eperm

/-- The invariant. -/
structure Routing (st : State T) : Prop where
  pos : 0 < st.nextKey
  lt : ∀ k ∈ st.carried, k < st.nextKey
  once : ∀ k, k ≠ 0 → st.carried.count k ≤ 1
  keys : ∀ t, ∀ k ∈ (st.task t).keys, k ≠ 0 ∧ k < st.nextKey
  disjoint : ∀ t t' k, k ∈ (st.task t).keys → k ∈ (st.task t').keys → t = t'
  live : ∀ k, st.waiters.notify k = true → st.Live k
  notice : ∀ k, st.Live k → k ∈ st.carried → st.waiters.notify k = true
  fresh : ∀ k, st.waiters.notify k = true → st.waiters.permits k = 0 ∧ st.waiters.signals k = 0
  signals : ∀ k, st.waiters.signals k ≤ 1
  unused : ∀ k, st.nextKey ≤ k → st.waiters.signals k = 0

theorem routing_init (capacity : Nat) : Routing (init capacity : State T) where
  pos := Nat.one_pos
  lt _ h := by cases h
  once _ _ := Nat.zero_le _
  keys _ _ h := by cases h
  disjoint _ _ _ h := by cases h
  live _ h := by cases h
  notice _ h := by obtain ⟨t, h⟩ := h; cases h
  fresh _ h := by cases h
  signals _ := Nat.zero_le _
  unused _ _ := rfl

namespace Routing

private theorem live_iff (hkeys : ∀ t, (st'.task t).keys = (st.task t).keys) (k : Nat) : st'.Live k ↔ st.Live k :=
  exists_congr fun t => by rw [hkeys t]

/-- A step that leaves the notices alone. -/
private theorem frame (h : Routing st) (hnext : st'.nextKey = st.nextKey) (hwaiters : st'.waiters = st.waiters)
    (hkeys : ∀ t, (st'.task t).keys = (st.task t).keys) (hcarried : st'.carried.Subperm st.carried) : Routing st' where
  pos := by rw [hnext]; exact h.pos
  lt k hk := by rw [hnext]; exact h.lt k (hcarried.subset hk)
  once k hk := Nat.le_trans (hcarried.count_le k) (h.once k hk)
  keys t := by rw [hnext, hkeys]; exact h.keys t
  disjoint t t' := by rw [hkeys, hkeys]; exact h.disjoint t t'
  live k := by rw [hwaiters, live_iff hkeys]; exact h.live k
  notice k hlive hk := by
    rw [hwaiters]
    exact h.notice k ((live_iff hkeys k).1 hlive) (hcarried.subset hk)
  fresh := by rw [hwaiters]; exact h.fresh
  signals := by rw [hwaiters]; exact h.signals
  unused := by rw [hwaiters, hnext]; exact h.unused

/-- The waiters after a task has gone through the completion queue, to its end or to the culprit of a panic. -/
private theorem complete (h : Routing st) (b : Build) :
    Routing { st with
      waiters := (st.waiters.complete b st.completed).1
      completed := (st.waiters.complete b st.completed).2.getD [] } := by
  obtain ⟨drained, hcompleted, hsame⟩ := st.waiters.complete_drained b st.completed
  have hor := st.waiters.complete_or_removed b st.completed
  generalize st.waiters.complete b st.completed = r at *
  have hcarried : st.carried.Perm (State.carried { st with waiters := r.1, completed := r.2.getD [] } ++
      drained.map Completion.userData) := by
    simp only [State.carried, hcompleted, List.map_append, List.append_assoc]
    exact (List.perm_append_comm.append_left _).append_left _
  have hnot : ∀ k, r.1.notify k = true → Waiters.SameAt st.waiters r.1 k := fun k hk =>
    (hor k).resolve_right fun hr => by rw [hr.2.1] at hk; cases hk
  constructor
  · exact h.pos
  · exact fun k hk => h.lt k (hcarried.mem_iff.2 (List.mem_append_left _ hk))
  · intro k hk
    have hle := h.once k hk
    rw [hcarried.count_eq, List.count_append] at hle
    exact Nat.le_trans (Nat.le_add_right ..) hle
  · exact h.keys
  · exact h.disjoint
  · exact fun k hk => h.live k ((hnot k hk).notify ▸ hk)
  · intro k hlive hk
    obtain ⟨t, ht⟩ := hlive
    have hpos := (h.keys t k ht).1
    -- the key is carried once, so it was not drained
    have hle := h.once k hpos
    rw [hcarried.count_eq, List.count_append] at hle
    have hmem := List.count_pos_iff.2 hk
    have hsame := hsame k fun hd => by
      have hd := List.count_pos_iff.2 hd
      omega
    rw [hsame.notify]
    exact h.notice k ⟨t, ht⟩ (hcarried.mem_iff.2 (List.mem_append_left _ hk))
  · intro k hk
    have hsame := hnot k hk
    rw [hsame.permits, hsame.signals]
    exact h.fresh k (hsame.notify ▸ hk)
  · intro k
    rcases hor k with hsame | ⟨hold, -, hle⟩
    · rw [hsame.signals]
      exact h.signals k
    · rwa [(h.fresh k hold).2] at hle
  · intro k hk
    rcases hor k with hsame | ⟨hold, -, -⟩
    · rw [hsame.signals]
      exact h.unused k hk
    · obtain ⟨t, ht⟩ := h.live k hold
      exact absurd (h.keys t k ht).2 (Nat.not_lt.2 hk)

/-- The owner of a key takes a permit. -/
private theorem acquired (h : Routing st) {key n : Nat} (hpos : 0 < st.waiters.permits key) :
    Routing { st with waiters := { st.waiters with permits := Function.update st.waiters.permits key n } } where
  pos := h.pos
  lt := h.lt
  once := h.once
  keys := h.keys
  disjoint := h.disjoint
  live := h.live
  notice := h.notice
  fresh k hk := by
    have hfresh := h.fresh k hk
    have hne : k ≠ key := fun he => by
      have hzero := hfresh.1
      rw [he] at hzero
      omega
    exact ⟨(Function.update_of_ne hne ..).trans hfresh.1, hfresh.2⟩
  signals := h.signals
  unused := h.unused

private theorem submit (h : Routing st) {n : Nat} : Routing (st.submit n) := by
  unfold State.submit
  split
  · refine h.frame rfl rfl (fun _ => rfl) (List.Perm.subperm (List.perm_iff_count.2 fun k => ?_))
    have hqueued : st.queued.map Entry.userData =
        (st.queued.take n).map Entry.userData ++ (st.queued.drop n).map Entry.userData := by
      rw [← List.map_append, List.take_append_drop]
    simp only [State.carried, hqueued, List.map_append, List.count_append]
    omega
  · exact h.frame rfl rfl (fun _ => rfl) (List.Subperm.refl _)

private theorem post (h : Routing st) {e : Entry} {result : Int32} {eventfd : Nat} (hmem : e ∈ st.inFlight) :
    Routing { st with
      inFlight := st.inFlight.erase e
      completed := st.completed ++ [⟨e.userData, result⟩]
      eventfd } := by
  refine h.frame rfl rfl (fun _ => rfl) (List.Perm.subperm (List.perm_iff_count.2 fun k => ?_))
  have hcount := ((List.perm_cons_erase hmem).map Entry.userData).count_eq k
  simp only [State.carried, List.map_append, List.count_append, List.map_cons, List.count_cons, List.map_nil,
    List.count_nil] at hcount ⊢
  omega

/-- There is one completion for a key that has an owner. -/
private theorem completed_eq (h : Routing st) {c c' : Completion} (hc : c ∈ st.completed) (hc' : c' ∈ st.completed)
    (he : c'.userData = c.userData) (hlive : st.Live c.userData) : c' = c := by
  obtain ⟨t, ht⟩ := hlive
  have hle := h.once c.userData (h.keys t _ ht).1
  obtain ⟨l, l', hl⟩ := List.append_of_mem hc
  rw [hl] at hc'
  simp only [State.carried, hl, List.map_append, List.count_append, List.map_cons, List.count_cons_self] at hle
  have hout : ∀ m : List Completion, c' ∈ m → 0 < (m.map Completion.userData).count c.userData := fun m hm =>
    List.count_pos_iff.2 (he ▸ List.mem_map_of_mem hm)
  rcases List.mem_append.1 hc' with hm | hm
  · have hpos := hout l hm
    omega
  · rcases List.mem_cons.1 hm with he | hm
    · exact he
    · have hpos := hout l' hm
      omega

variable [DecidableEq T]

private theorem task (h : Routing st) {fill : Nat} {running : Option T} {pc : Pc} (hpc : pc.keys = (st.task t).keys) :
    Routing { st with fill, task := Function.update st.task t pc, running } := by
  refine h.frame rfl rfl (fun t' => ?_) (List.Subperm.refl _)
  by_cases he : t' = t
  · subst he
    simp only [Function.update_self]
    exact hpc
  · simp only [Function.update_of_ne he]

/-- A task drops its keys, or has none. -/
private theorem abandon (h : Routing st) {fill : Nat} {pc : Pc} (hpc : pc.keys = []) :
    Routing (State.abandon { st with fill } t pc) := by
  have hkeys : ∀ t' k, k ∈ (Function.update st.task t pc t').keys → k ∈ (st.task t').keys ∧ t' ≠ t := fun t' k hk => by
    rw [Function.update_apply] at hk
    split at hk
    · rw [hpc] at hk
      cases hk
    · exact ⟨hk, by assumption⟩
  have hnot : ∀ k, (st.waiters.remove (st.task t).keys).notify k = true →
      st.waiters.notify k = true ∧ k ∉ (st.task t).keys := fun k hk => by simpa [Waiters.remove, and_comm] using hk
  constructor
  · exact h.pos
  · exact h.lt
  · exact h.once
  · exact fun t' k hk => h.keys t' k (hkeys t' k hk).1
  · exact fun t' t'' k hk hk' => h.disjoint t' t'' k (hkeys t' k hk).1 (hkeys t'' k hk').1
  · intro k hk
    obtain ⟨hk, hout⟩ := hnot k hk
    obtain ⟨t', ht'⟩ := h.live k hk
    have hne : t' ≠ t := fun he => hout (he ▸ ht')
    refine ⟨t', ?_⟩
    simp only [State.abandon, State.yield, Function.update_of_ne hne]
    exact ht'
  · intro k hlive hk
    obtain ⟨t', ht'⟩ := hlive
    obtain ⟨ht', hne⟩ := hkeys t' k ht'
    have hout : k ∉ (st.task t).keys := fun hk => hne (h.disjoint t' t k ht' hk)
    have hnotice := h.notice k ⟨t', ht'⟩ hk
    simp [State.abandon, Waiters.remove, hout, hnotice]
  · exact fun k hk => h.fresh k (hnot k hk).1
  · exact h.signals
  · exact h.unused

/-- The new keys are those of no entry, and have no semaphore that was signalled. -/
private theorem pushed (h : Routing st) (req : Request) {pc : Pc} {running : Option T} (hold : (st.task t).keys = [])
    (hpc : pc.keys = st.newKeys req) :
    Routing { st.pushed req with task := Function.update st.task t pc, running } := by
  have hnew : ∀ k, k ∈ st.newKeys req → k ≠ 0 ∧ st.nextKey ≤ k ∧ k < st.nextKey + req.keyed.length := fun k hk => by
    obtain ⟨hk, hpos⟩ := State.mem_newKeys.1 hk
    exact ⟨hpos, mem_keysFrom hpos hk⟩
  have hkeys : ∀ t' k, k ∈ (Function.update st.task t pc t').keys ↔
      t' = t ∧ k ∈ st.newKeys req ∨ k ∈ (st.task t').keys := fun t' k => by
    by_cases he : t' = t
    · subst he
      rw [Function.update_self, hpc, hold]
      simp
    · rw [Function.update_of_ne he]
      simp [he]
  have hcarried := st.carried_pushed req
  constructor
  · exact Nat.lt_of_lt_of_le h.pos (Nat.le_add_right ..)
  · intro k hk
    show k < st.nextKey + req.keyed.length
    rcases List.mem_append.1 (hcarried.mem_iff.1 hk) with hk | hk
    · by_cases hz : k = 0
      · have hpos := h.pos
        omega
      · exact (mem_keysFrom hz hk).2
    · exact Nat.lt_of_lt_of_le (h.lt k hk) (Nat.le_add_right ..)
  · intro k hk
    show (st.pushed req).carried.count k ≤ 1
    rw [hcarried.count_eq, List.count_append]
    by_cases hmem : k ∈ keysFrom st.nextKey req.keyed
    · have hout : k ∉ st.carried := fun hc => absurd (h.lt k hc) (Nat.not_lt.2 (mem_keysFrom hk hmem).1)
      rw [List.count_eq_zero.2 hout]
      exact count_keysFrom_le hk
    · rw [List.count_eq_zero.2 hmem, Nat.zero_add]
      exact h.once k hk
  · intro t' k hk
    rcases (hkeys t' k).1 hk with ⟨-, hk⟩ | hk
    · exact ⟨(hnew k hk).1, (hnew k hk).2.2⟩
    · exact ⟨(h.keys t' k hk).1, Nat.lt_of_lt_of_le (h.keys t' k hk).2 (Nat.le_add_right ..)⟩
  · intro t' t'' k hk hk'
    rcases (hkeys t' k).1 hk with ⟨ht', hn⟩ | hk <;> rcases (hkeys t'' k).1 hk' with ⟨ht'', hn'⟩ | hk'
    · rw [ht', ht'']
    · exact absurd (h.keys t'' k hk').2 (Nat.not_lt.2 (hnew k hn).2.1)
    · exact absurd (h.keys t' k hk).2 (Nat.not_lt.2 (hnew k hn').2.1)
    · exact h.disjoint t' t'' k hk hk'
  · intro k hk
    rcases Waiters.establish_notify.1 hk with hk | hk
    · exact ⟨t, (hkeys t k).2 (.inl ⟨rfl, hk⟩)⟩
    · obtain ⟨t', ht'⟩ := h.live k hk
      exact ⟨t', (hkeys t' k).2 (.inr ht')⟩
  · intro k hlive hk
    obtain ⟨t', ht'⟩ := hlive
    refine Waiters.establish_notify.2 ?_
    rcases (hkeys t' k).1 ht' with ⟨-, hk⟩ | ht'
    · exact .inl hk
    · rcases List.mem_append.1 (hcarried.mem_iff.1 hk) with hk | hk
      · exact .inl (State.mem_newKeys.2 ⟨hk, (h.keys t' k ht').1⟩)
      · exact .inr (h.notice k ⟨t', ht'⟩ hk)
  · intro k hk
    by_cases hmem : k ∈ st.newKeys req
    · exact ⟨if_pos hmem, h.unused k (hnew k hmem).2.1⟩
    · have hfresh := h.fresh k ((Waiters.establish_notify.1 hk).resolve_left hmem)
      exact ⟨(if_neg hmem).trans hfresh.1, hfresh.2⟩
  · exact h.signals
  · exact fun k hk => h.unused k (Nat.le_trans (Nat.le_add_right ..) hk)

private theorem push (h : Routing st) (hstable : Stable st) {req : Request} (hpc : st.task t = .reserved req) :
    Routing (st.push t req) := by
  obtain ⟨pc, running, hpush, hnext⟩ := State.push_eq (t := t) (hstable.room t req hpc)
  have hold : (st.task t).keys = [] := by rw [hpc]; rfl
  rw [hpush]
  refine h.pushed req hold ?_
  rcases hnext with ⟨key, -, rfl, -⟩ | ⟨hnil, rfl, -⟩
  · rfl
  · exact hnil.symm

private theorem drain (h : Routing st) {cont : Cont} (hpc : st.task t = .woken cont) : Routing (st.drain b t cont) := by
  have hcomplete := h.complete b
  unfold State.drain
  split
  · rename_i ws heq
    rw [heq] at hcomplete
    cases cont with
    | reserve req => exact hcomplete.task (by rw [hpc]; rfl)
    | wait key keys => exact hcomplete.task (by rw [hpc]; rfl)
  · rename_i ws rest heq
    rw [heq] at hcomplete
    exact hcomplete.abandon rfl

theorem step (h : Routing st) (hstable : Stable st) (e : step b st a = some st') : Routing st' := by
  cases Step.of_eq e with
  | request hpc hrun => exact h.task (by rw [Pc.keys_eq (st.task _), hpc]; rfl)
  | permit hpc hrun => exact h.task (by rw [hpc]; rfl)
  | reserve hpc hroom => exact h.task (by rw [hpc]; rfl)
  | full hpc => exact h.task (by rw [hpc]; rfl)
  | push hpc => exact h.push hstable hpc
  | submit hpc hn => exact h.submit.task (by rw [st.submit_task, hpc]; rfl)
  | pass ha hpc => exact h.task (by rw [hpc]; rfl)
  | register hpc => exact h.task (by rw [hpc]; rfl)
  | drain hpc hrun => exact h.drain hpc
  | acquire hpc hrun hpos => exact (h.acquired hpos).abandon rfl
  | cancelAcquiring hpc hrun => exact h.task (by rw [hpc]; rfl)
  | cancel hpc hrun => exact h.abandon rfl
  | post hmem => exact h.post hmem
  | read hpc => exact h.frame rfl rfl (fun _ => rfl) (List.Subperm.refl _)
  | notify hpc =>
    refine h.frame rfl rfl (fun t' => ?_) (List.Subperm.refl _)
    dsimp only
    cases st.task t' <;> rfl

/-- Everything in the queue is routed, if there is no `-1` among what is waited for. -/
private theorem routed (h : Routing st) {cont : Cont} (hno : NoEperm st) : Routed st (st.drain b t cont) := by
  have hne : ∀ c ∈ st.completed, st.waiters.notify c.userData = true → c.result ≠ eperm := fun c hc hk =>
    hno c hc (h.live _ hk)
  have hnone := Waiters.complete_none (b := b) hne
  have hdrain : (st.drain b t cont).waiters = (st.waiters.complete b st.completed).1 ∧
      (st.drain b t cont).completed = [] := by
    unfold State.drain
    split
    · rename_i ws heq
      rw [heq]
      cases cont <;> exact ⟨rfl, rfl⟩
    · rename_i ws rest heq
      rw [heq] at hnone
      cases hnone
  constructor
  · exact hdrain.2
  · intro k hk
    rw [hdrain.1] at hk
    cases hnotify : st.waiters.notify k with
    | false => exact absurd (Waiters.complete_sameAt_of_not hnotify).permits hk
    | true =>
      obtain ⟨t', ht'⟩ := h.live k hnotify
      refine ⟨(h.keys t' k ht').1, ⟨t', ht'⟩, ?_⟩
      obtain ⟨drained, hcompleted, hsame⟩ := st.waiters.complete_drained b st.completed
      by_cases hmem : k ∈ drained.map Completion.userData
      · obtain ⟨c, hc, rfl⟩ := List.mem_map.1 hmem
        exact ⟨c, by rw [hcompleted]; exact List.mem_append_left _ hc, rfl⟩
      · exact absurd (hsame k hmem).permits hk
  · intro c hc hlive
    have hmem := List.mem_map_of_mem (f := Completion.userData) hc
    have hnotify := h.notice _ hlive (List.mem_append_right _ hmem)
    obtain ⟨hremoved, hpermits, hsignals⟩ := Waiters.complete_signals (b := b) (r := c.result) hne hnotify hmem
      fun c' hc' he => by rw [h.completed_eq hc hc' he hlive]
    rw [hdrain.1]
    exact ⟨hremoved, by rw [hpermits, (h.fresh _ hnotify).1, Nat.zero_add], hsignals⟩

/-- A waiter for which there is `-1` is not signalled with it. -/
private theorem noEperm (h : Routing st) {cont : Cont} (hr : Routed st (st.drain b t cont)) : NoEperm st := by
  intro c hc hlive he
  have hmem := List.mem_map_of_mem (f := Completion.userData) hc
  have hnotify := h.notice _ hlive (List.mem_append_right _ hmem)
  have hpermits : (st.drain b t cont).waiters.permits c.userData =
      (st.waiters.complete b st.completed).1.permits c.userData := by
    unfold State.drain
    split
    · rename_i ws heq
      rw [heq]
      cases cont <;> rfl
    · rename_i ws rest heq
      rw [heq]
      rfl
  rw [(hr.signalled c hc hlive).2.1, Waiters.complete_eperm fun c' hc' hk => by rw [h.completed_eq hc hc' hk hlive, he],
    (h.fresh _ hnotify).1, he] at hpermits
  cases hpermits

end Routing

/-- In every run, no waiter was signalled twice, and a task that drains the completion queue routes all completions if
and only if none that has a waiter has the result `-1`. -/
theorem routed_iff [DecidableEq T] {capacity : Nat} {tr : List (Act T)} (h : Run (step b) (init capacity) tr st) :
    (∀ k, st.waiters.signals k ≤ 1) ∧
      ∀ t st', step b st (.drain t) = some st' → (Routed st st' ↔ NoEperm st) := by
  obtain ⟨-, hrouting⟩ := h.invariant (I := fun _ st => Stable st ∧ Routing st)
    ⟨stable_init capacity, routing_init capacity⟩ fun _ _ _ _ h e => ⟨h.1.step e, h.2.step h.1 e⟩
  refine ⟨hrouting.signals, fun t st' e => ?_⟩
  cases Step.of_eq e with
  | drain hpc hrun => exact ⟨hrouting.noEperm, hrouting.routed⟩
  | pass ha hpc => rcases ha with ha | ha <;> cases ha

/-- A task and another, of which the second drains the completion of the first, whose operation has finished. -/
theorem routed_iff_wait : ∃ st st' : State Bool, Routed st st' ∧ st.Live 1 ∧ st'.waiters.permits 1 = 1 + 2 := by
  have h : Run (step .debug) (init 256 : State Bool)
      [.request false .wait, .permit false, .reserve false, .push false, .submit false (some 2), .register false,
        .request true .wait, .permit true, .reserve true, .push true, .submit true (some 2), .register true,
        .post ⟨1, some 0⟩ 2 true, .post ⟨0, some 1⟩ (-125) false, .read, .notify] _ := run_iff_exec.2 rfl
  have hno : ∀ c ∈ [Completion.mk 1 2, Completion.mk 0 (-125)], c.result ≠ eperm := by decide
  exact ⟨_, _, ((routed_iff h).2 true _ rfl).2 fun c hc _ => hno c hc, ⟨false, List.mem_cons_self ..⟩, rfl⟩

/-- A waiter whose completion has the result `-1`. -/
def refused : List (Act Unit) :=
  [.request () .wait, .permit (), .reserve (), .push (), .submit () (some 2), .register (),
    .post ⟨1, some 0⟩ eperm true, .read, .notify]

/-- The completion is consumed, and the waiter is removed without having been signalled. -/
private theorem not_signalled (b : Build) : ∃ st st' : State Unit,
    Run (step b) (init 256) refused st ∧ step b st (.drain ()) = some st' ∧ st.Live 1 ∧ st'.waiters.notify 1 = false ∧
      st'.waiters.permits 1 = 0 ∧ ¬ Routed st st' := by
  have h : Run (step b) (init 256) refused _ := run_iff_exec.2 rfl
  refine ⟨_, _, h, rfl, ⟨(), List.mem_cons_self ..⟩, ?_, ?_, fun hr => ?_⟩
  · cases b <;> rfl
  · cases b <;> rfl
  · have hpermits := (hr.signalled ⟨1, eperm⟩ (List.mem_cons_self ..) ⟨(), List.mem_cons_self ..⟩).2.1
    cases b <;> cases hpermits

theorem not_routed :
    (∃ st st', Run (step .debug) (init 256) refused st ∧ step .debug st (.drain ()) = some st' ∧ ¬ Routed st st') ∧
      ∃ st st', Run (step .release) (init 256) refused st ∧ step .release st (.drain ()) = some st' ∧
        ¬ Routed st st' := by
  obtain ⟨st, st', h, e, -, -, -, hn⟩ := not_signalled .debug
  obtain ⟨st₂, st₂', h₂, e₂, -, -, -, hn₂⟩ := not_signalled .release
  exact ⟨⟨st, st', h, e, hn⟩, st₂, st₂', h₂, e₂, hn₂⟩

end IoUring

end ShmRing
