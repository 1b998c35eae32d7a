import ShmRing.Lib.Transition

/-!
# A bounded pipe

What a stream between two parties is for.  An element passes through three stages: it is written to a queue, sent to a
window of bounded size, and received from there, until it is read.  Each stage passes on its first elements, so none
overtakes another.  When elements are sent, those behind them in the queue may be lost.

The main results are `sublist_of_run`, what was read is among what was written, in order, and `prefix_of_run`, without
losses it is what was written first.
-/

open Transition

structure Pipe (α : Type*) where
  /-- Written and not sent. -/
  queue : List α
  /-- Sent and not received. -/
  window : List α
  /-- Received and not read. -/
  arrived : List α
  deriving DecidableEq, Repr

namespace Pipe

inductive Act (α : Type*)
  | write (l : List α)
  | send (n lost : Nat)
  | receive (n : Nat)
  | read (l : List α)
  deriving DecidableEq, Repr

variable {α : Type*} {cap : Nat} {p p' : Pipe α} {a : Act α} {tr : List (Act α)}

def empty : Pipe α := ⟨[], [], []⟩

def apply (p : Pipe α) : Act α → Pipe α
  | .write l => { p with queue := p.queue ++ l }
  | .send n lost => { p with queue := p.queue.drop (n + lost), window := p.window ++ p.queue.take n }
  | .receive n => { p with window := p.window.drop n, arrived := p.arrived ++ p.window.take n }
  | .read l => { p with arrived := p.arrived.drop l.length }

/-- When an act is allowed: there is room in the window, and what is passed on is there. -/
def Allowed (cap : Nat) (p : Pipe α) : Act α → Prop
  | .write _ => True
  | .send n lost => n + lost ≤ p.queue.length ∧ p.window.length + n ≤ cap
  | .receive n => n ≤ p.window.length
  | .read l => l <+: p.arrived

instance [DecidableEq α] : Decidable (Allowed cap p a) := by
  cases a <;> unfold Allowed <;> infer_instance

def step [DecidableEq α] (cap : Nat) (p : Pipe α) (a : Act α) : Option (Pipe α) :=
  if Allowed cap p a then some (p.apply a) else none

/-- All that was written in a run. -/
def written (tr : List (Act α)) : List α :=
  tr.flatMap fun | .write l => l | _ => []

/-- All that was read in a run. -/
def taken (tr : List (Act α)) : List α :=
  tr.flatMap fun | .read l => l | _ => []

/-- All that is in the pipe, the oldest first. -/
def content (p : Pipe α) : List α := p.arrived ++ p.window ++ p.queue

@[simp] theorem written_append (tr tr' : List (Act α)) : written (tr ++ tr') = written tr ++ written tr' :=
  List.flatMap_append ..

@[simp] theorem taken_append (tr tr' : List (Act α)) : taken (tr ++ tr') = taken tr ++ taken tr' :=
  List.flatMap_append ..

/-- Nothing is lost when something is sent. -/
def Lossless : Act α → Prop
  | .send _ lost => lost = 0
  | _ => True

/-- An act without losses takes nothing out of the pipe but at its end. -/
theorem content_apply_of_lossless (h : Allowed cap p a) (hl : Lossless a) :
    taken [a] ++ (p.apply a).content = p.content ++ written [a] := by
  cases a with
  | write l => simp [taken, written, content, apply]
  | receive n => simp [taken, written, content, apply]
  | read l =>
    obtain ⟨rest, hrest⟩ := h
    simp [taken, written, content, apply, ← hrest]
  | send n lost =>
    have h0 : lost = 0 := hl
    subst h0
    simp [taken, written, content, apply]

theorem content_apply (h : Allowed cap p a) :
    (taken [a] ++ (p.apply a).content).Sublist (p.content ++ written [a]) := by
  by_cases hl : Lossless a
  · exact content_apply_of_lossless h hl ▸ List.Sublist.refl _
  · cases a with
    | send n lost =>
      simp only [taken, written, content, apply, List.flatMap_cons, List.flatMap_nil, List.append_nil, List.nil_append,
        List.append_assoc]
      refine (List.Sublist.refl _).append ((List.Sublist.refl _).append ?_)
      conv_rhs => rw [← List.take_append_drop n p.queue]
      refine (List.Sublist.refl _).append ?_
      rw [← List.drop_drop]
      exact List.drop_sublist ..
    | _ => exact absurd trivial hl

section Runs

variable [DecidableEq α]

theorem step_eq_some : step cap p a = some p' ↔ Allowed cap p a ∧ p.apply a = p' := by
  simp [step]

/-- What was read and what is in the pipe is among what was written, in order. -/
theorem sublist_of_run (h : Run (Pipe.step cap) empty tr p) : (taken tr ++ p.content).Sublist (written tr) := by
  refine h.invariant (I := fun tr p => (taken tr ++ p.content).Sublist (written tr)) (List.Sublist.refl _) ?_
  intro tr p a p' ih hs
  obtain ⟨ha, rfl⟩ := step_eq_some.1 hs
  rw [taken_append, written_append, List.append_assoc]
  refine ((List.Sublist.refl _).append (content_apply ha)).trans ?_
  rw [← List.append_assoc]
  exact ih.append (List.Sublist.refl _)

/-- Without losses what was read and what is in the pipe is what was written. -/
theorem prefix_of_run (h : Run (Pipe.step cap) empty tr p) (hl : ∀ a ∈ tr, Lossless a) :
    taken tr ++ p.content = written tr := by
  revert hl
  refine h.invariant (I := fun tr p => (∀ a ∈ tr, Lossless a) → taken tr ++ p.content = written tr) (fun _ => rfl) ?_
  intro tr p a p' ih hs hl
  obtain ⟨ha, rfl⟩ := step_eq_some.1 hs
  have heq := content_apply_of_lossless ha (hl a (by simp))
  rw [taken_append, written_append, List.append_assoc, heq, ← List.append_assoc,
    ih fun a ha => hl a (List.mem_append_left _ ha)]

/-- The window is never larger than it may be. -/
theorem window_le_of_run (h : Run (Pipe.step cap) empty tr p) : p.window.length ≤ cap := by
  refine h.invariant (I := fun _ p => p.window.length ≤ cap) (Nat.zero_le _) ?_
  intro tr p a p' ih hs
  obtain ⟨ha, rfl⟩ := step_eq_some.1 hs
  cases a with
  | send n lost =>
    simp only [apply, List.length_append, List.length_take]
    have := ha.2
    omega
  | receive n =>
    simp only [apply, List.length_drop]
    omega
  | _ => exact ih

end Runs

end Pipe
