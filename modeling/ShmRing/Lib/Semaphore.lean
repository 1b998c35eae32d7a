import Mathlib.Tactic.Common

/-!
# Semaphores with one acquirer

The operations of a counting semaphore that one task acquires from, one permit at a time, by polling a future that it
may drop and make anew.  What is added while the future waits is given to it first; a future that is dropped gives
back what it was given.  `Lawful` is what the operations guarantee whatever happens inside, in terms of the permits
that are available or given to the future.
-/

/-- The operations, on semaphores of the type `S`; the future of the acquirer is a part of the semaphore. -/
structure Semaphore (S : Type) where
  /-- A new semaphore without permits. -/
  empty : S
  /-- `none` is a panic. -/
  addPermits : S → Nat → Option S
  /-- Polls the future that there is, or a new one; whether it has got its permit. -/
  poll : S → Bool × S
  /-- Drops the future, if there is one. -/
  drop : S → S
  availablePermits : S → Nat

namespace Semaphore

variable {S : Type}

/-- The most permits that a semaphore can have. -/
def maxPermits : Nat := 0xffffffffffffffff >>> 3

/-- What the operations do to the permits that a semaphore has. -/
structure Lawful (sem : Semaphore S) (permits : S → Nat) : Prop where
  permits_empty : permits sem.empty = 0
  addPermits : ∀ s n, permits s + n ≤ maxPermits → ∃ s', sem.addPermits s n = some s' ∧ permits s' = permits s + n
  permits_drop : ∀ s, permits (sem.drop s) = permits s
  poll_zero : ∀ s, permits s = 0 → (sem.poll s).1 = false ∧ permits (sem.poll s).2 = 0
  poll_pos : ∀ s, 0 < permits s → (sem.poll s).1 = true ∧ sem.availablePermits (sem.poll s).2 = permits s - 1

/-! ### A semaphore with a queue -/

/-- The future of the acquirer. -/
inductive Future
  | none
  | queued
  | assigned
  deriving DecidableEq, Repr

/-- The future is only queued while there is no permit for it. -/
structure Queued where
  available : Nat
  future : Future
  queued : future = .queued → available = 0

namespace Queued

def permits (s : Queued) : Nat := s.available + if s.future = .assigned then 1 else 0

/-- The first permit goes to a future that is queued. -/
def add (s : Queued) (n : Nat) : Queued :=
  if h : s.future = .queued ∧ 0 < n then ⟨n - 1, .assigned, nofun⟩
  else ⟨s.available + n, s.future, fun hq => by
    have havailable := s.queued hq
    have hn : ¬ 0 < n := fun hn => h ⟨hq, hn⟩
    omega⟩

def addPermits (s : Queued) (n : Nat) : Option Queued :=
  if s.permits + n ≤ maxPermits then some (s.add n) else Option.none

def poll (s : Queued) : Bool × Queued :=
  match s.future with
  | .assigned => (true, ⟨s.available, .none, nofun⟩)
  | _ => if 0 < s.available then (true, ⟨s.available - 1, .none, nofun⟩) else (false, ⟨0, .queued, fun _ => rfl⟩)

def drop (s : Queued) : Queued := ⟨s.permits, .none, nofun⟩

end Queued

/-- A semaphore that gives permits to the future in its queue. -/
def queue : Semaphore Queued where
  empty := ⟨0, .none, nofun⟩
  addPermits := Queued.addPermits
  poll := Queued.poll
  drop := Queued.drop
  availablePermits := Queued.available

theorem lawful_queue : queue.Lawful Queued.permits where
  permits_empty := rfl
  addPermits s n h := by
    refine ⟨s.add n, if_pos h, ?_⟩
    unfold Queued.add
    split
    · rename_i hq
      have havailable := s.queued hq.1
      simp only [Queued.permits, hq.1, if_true, reduceCtorEq, if_false]
      omega
    · simp only [Queued.permits]
      omega
  permits_drop s := rfl
  poll_zero s h := by
    obtain ⟨available, future, hq⟩ := s
    cases future with
    | assigned => cases h
    | _ =>
      obtain rfl : available = 0 := h
      exact ⟨rfl, rfl⟩
  poll_pos s h := by
    obtain ⟨available, future, hq⟩ := s
    cases future with
    | assigned => exact ⟨rfl, rfl⟩
    | _ =>
      have hpos : 0 < available := h
      simp only [queue, Queued.poll, if_pos hpos]
      exact ⟨trivial, rfl⟩

end Semaphore
