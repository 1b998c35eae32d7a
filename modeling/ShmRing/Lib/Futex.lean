import Mathlib.Logic.Function.Basic

/-!
# Futexes

Threads sleep on words of a shared memory.  Going to sleep is one atomic step with the check that the words have the
values that the thread expects; a thread may sleep on several words, and is woken through any of them.  The state is
for each thread the words that it sleeps on, in which the operations of the kernel are functions.

A wake that is to wake only some needs to know whom it may meet: a thread that sleeps on several words stays queued on
all but the one through which it was woken, until it runs.  These lists are a state of their own, from which the kernel
chooses (`Chosen`).

The rule about lost wake-ups counts the changes of each word.  Whoever stores to a word and then wakes it, or begins to
wake it after that, leaves nobody asleep who went to sleep on an older value, until the word is changed again
(`Announced`).
-/

namespace Futex

/-- The words that a thread sleeps on; `none` is a thread that is awake. -/
abbrev Queue (K W : Type*) := K → Option (List W)

variable {K W V : Type*} {load : W → V} {q q' : Queue K W} {k k' : K} {w w' : W} {v : V} {ws : List W}

/-- Every thread is awake. -/
def awake : Queue K W := fun _ => none

/-! ### Sleeping -/

section Sleep

variable [DecidableEq K] [DecidableEq V]

/-- A thread goes to sleep if all words have the expected values. -/
def wait (load : W → V) (q : Queue K W) (k : K) (expected : List (W × V)) : Option (Queue K W) :=
  if ∀ p ∈ expected, load p.1 = p.2 then some (Function.update q k (some (expected.map Prod.fst))) else none

theorem wait_eq_some {expected : List (W × V)} :
    wait load q k expected = some q' ↔
      (∀ p ∈ expected, load p.1 = p.2) ∧ Function.update q k (some (expected.map Prod.fst)) = q' := by
  simp [wait]

end Sleep

/-- A thread wakes up by itself: a time-out, or a signal. -/
def rouse [DecidableEq K] (q : Queue K W) (k : K) : Queue K W := Function.update q k none

theorem rouse_eq_some [DecidableEq K] {q : Queue K W} {k k' : K} {ws : List W} :
    rouse q k k' = some ws ↔ k' ≠ k ∧ q k' = some ws := by
  rw [rouse, Function.update_apply]
  by_cases he : k' = k <;> simp [he]

/-! ### Waking -/

section Wake

variable [DecidableEq W]

/-- Wakes every thread that sleeps on a word. -/
def wake (q : Queue K W) (w : W) : Queue K W := fun k => (q k).filter fun ws => w ∉ ws

theorem wake_eq_some : wake q w k = some ws ↔ q k = some ws ∧ w ∉ ws := by
  simp [wake, Option.filter_eq_some_iff]

theorem wake_eq_none_of (h : q k = none) : wake q w k = none := by
  rw [wake, h]
  rfl

variable [DecidableEq V]

/-- Lets every thread that sleeps on `w` sleep on `w'` instead, without waking it, if `w` has the expected value. -/
def cmpRequeue (load : W → V) (q : Queue K W) (w : W) (expected : V) (w' : W) : Option (Queue K W) :=
  if load w = expected then some fun k => (q k).map fun ws => ws.map fun v => if v = w then w' else v else none

theorem cmpRequeue_eq_none : cmpRequeue load q w v w' = none ↔ load w ≠ v := by
  simp [cmpRequeue]

/-- A requeued thread sleeps on the new word if it slept on either. -/
theorem requeued_mem (h : cmpRequeue load q w v w' = some q') (hk : q' k = some ws) :
    ∃ ws₀, q k = some ws₀ ∧ (w ∈ ws₀ ∨ w' ∈ ws₀ → w' ∈ ws) := by
  obtain ⟨-, rfl⟩ : load w = v ∧ _ = q' := by simpa [cmpRequeue] using h
  obtain ⟨ws₀, h₀, rfl⟩ := Option.map_eq_some_iff.1 hk
  refine ⟨ws₀, h₀, ?_⟩
  rintro (hw | hw)
  · exact List.mem_map.2 ⟨w, hw, if_pos rfl⟩
  · refine List.mem_map.2 ⟨w', hw, ?_⟩
    split <;> rfl

theorem requeued_eq_none (h : cmpRequeue load q w v w' = some q') : q' k = none ↔ q k = none := by
  obtain ⟨-, rfl⟩ : load w = v ∧ _ = q' := by simpa [cmpRequeue] using h
  exact Option.map_eq_none_iff

end Wake

/-! ### Waking some -/

/-- How many threads are woken through a word, where `nr` is the signed count that the kernel is given.  It compares
after it has woken one. -/
def limit (nr : Int32) : Nat := if nr = 0 then 0 else max 1 nr.toInt.toNat

/-- The threads that are queued on each word. -/
abbrev Queued (K W : Type*) := W → List K

/-- A thread is queued on all words of its wait. -/
def enqueue [DecidableEq W] (b : Queued K W) (k : K) (ws : List W) : Queued K W := fun w =>
  if w ∈ ws then b w ++ [k] else b w

theorem mem_enqueue [DecidableEq W] {b : Queued K W} : k' ∈ enqueue b k ws w ↔ k' ∈ b w ∨ w ∈ ws ∧ k' = k := by
  rw [enqueue]
  split <;> simp [*]

/-- The kernel may wake `woken` of the threads that are queued on a word, where it wakes at most `n`. -/
def Chosen (queued woken : List K) (n : Nat) : Prop :=
  woken.Nodup ∧ woken ⊆ queued ∧ woken.length = min n queued.length

section Some

variable [DecidableEq K]

instance (queued woken : List K) (n : Nat) : Decidable (Chosen queued woken n) :=
  inferInstanceAs (Decidable (_ ∧ (∀ k ∈ woken, k ∈ queued) ∧ _))

/-- A thread runs. -/
def dequeue (b : Queued K W) (k : K) : Queued K W := fun w => (b w).filter (· ≠ k)

theorem mem_dequeue {b : Queued K W} : k' ∈ dequeue b k w ↔ k' ∈ b w ∧ k' ≠ k := by
  simp [dequeue]

/-- Wakes the threads of a list. -/
def wakeOnly (q : Queue K W) (woken : List K) : Queue K W := fun k => if k ∈ woken then none else q k

theorem wakeOnly_eq_some {woken : List K} : wakeOnly q woken k = some ws ↔ k ∉ woken ∧ q k = some ws := by
  rw [wakeOnly]
  split <;> simp [*]

end Some

/-! ### Announcements -/

/-- Nobody sleeps on the word who expects another value than it has. -/
def Caught (load : W → V) (q : Queue K W) (expects : K → List (W × V)) (w : W) : Prop :=
  ∀ k ws v, q k = some ws → w ∈ ws → (w, v) ∈ expects k → load w = v

/-- Since the `n`-th change of the word all have been woken; there may have been further changes. -/
structure Announced (load : W → V) (q : Queue K W) (expects : K → List (W × V)) (version : W → Nat) (w : W) (n : Nat) :
    Prop where
  le : n ≤ version w
  caught : n = version w → Caught load q expects w

section Announce

variable {load' : W → V} {expects : K → List (W × V)} {version version' : W → Nat} {n : Nat}

theorem Caught.of_load_eq (h : Caught load q expects w) (hw : load' w = load w) : Caught load' q expects w :=
  fun k ws v hk hm hv => hw.trans (h k ws v hk hm hv)

/-- Fewer threads sleep. -/
theorem Caught.mono (h : Caught load q expects w) (hq : ∀ k ws, q' k = some ws → q k = some ws) :
    Caught load q' expects w :=
  fun k ws v hk hm hv => h k ws v (hq k ws hk) hm hv

/-- A thread that is awake makes up its mind. -/
theorem Caught.awake [DecidableEq K] (h : Caught load q expects w) (hk : q k = none) (l : List (W × V)) :
    Caught load q (Function.update expects k l) w := by
  intro k' ws v hk' hm hv
  have hne : k' ≠ k := fun he => by rw [he, hk] at hk'; cases hk'
  rw [Function.update_of_ne hne] at hv
  exact h k' ws v hk' hm hv

/-- A thread that goes to sleep has found what it expects. -/
theorem Caught.wait [DecidableEq K] [DecidableEq V] (h : Caught load q expects w)
    (hw : Futex.wait load q k (expects k) = some q') : Caught load q' expects w := by
  obtain ⟨hall, rfl⟩ := wait_eq_some.1 hw
  intro k' ws v hk' hm hv
  by_cases he : k' = k
  · subst he
    exact hall _ hv
  · rw [Function.update_of_ne he] at hk'
    exact h k' ws v hk' hm hv

theorem Announced.of_caught (h : Announced load q expects version w n)
    {expects' : K → List (W × V)} (hc : Caught load q expects w → Caught load q' expects' w) :
    Announced load q' expects' version w n :=
  ⟨h.le, fun he => hc (h.caught he)⟩

/-- A word is stored to, by which its changes are counted. -/
theorem Announced.store (h : Announced load q expects version w n) (hle : version w ≤ version' w)
    (hsame : version' w = version w → load' w = load w) : Announced load' q expects version' w n := by
  refine ⟨Nat.le_trans h.le hle, fun he => ?_⟩
  have heq : version' w = version w := Nat.le_antisymm (by rw [← he]; exact h.le) hle
  exact (h.caught (he.trans heq)).of_load_eq (hsame heq)

/-- A wake of one thread or more, where each thread that is to be woken is the only one that is queued. -/
theorem caught_wakeOnly [DecidableEq K] {queued woken : List K} {limit : Nat} (hlimit : 0 < limit)
    (hchosen : Chosen queued woken limit) (hqueued : ∀ k ws, q k = some ws → w ∈ ws → k ∈ queued)
    (halone : ∀ k ws v, q k = some ws → w ∈ ws → (w, v) ∈ expects k → load w ≠ v → ∀ k' ∈ queued, k' = k) :
    Caught load (wakeOnly q woken) expects w := by
  intro k ws v hk hm hv
  obtain ⟨hnot, hk⟩ := wakeOnly_eq_some.1 hk
  by_contra hne
  have hmem := hqueued k ws hk hm
  obtain ⟨-, hsub, hlength⟩ := hchosen
  have hpos : 0 < woken.length := by
    have := List.length_pos_of_mem hmem
    omega
  obtain ⟨k', hk'⟩ := List.exists_mem_of_length_pos hpos
  rw [halone k ws v hk hm hv hne k' (hsub hk')] at hk'
  exact hnot hk'

variable [DecidableEq W]

/-- All that sleep on the word are woken. -/
theorem caught_wake (load : W → V) (q : Queue K W) (expects : K → List (W × V)) (w : W) :
    Caught load (Futex.wake q w) expects w :=
  fun _ _ _ hk hm => absurd hm (wake_eq_some.1 hk).2

theorem announced_wake (hle : n ≤ version w) : Announced load (Futex.wake q w) expects version w n :=
  ⟨hle, fun _ => caught_wake load q expects w⟩

end Announce

end Futex
