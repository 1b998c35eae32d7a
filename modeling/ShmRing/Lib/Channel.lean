import ShmRing.Lib.Transition

/-!
# A bounded channel with deferred publication

What one direction of a ring is for.  A sender appends entries in calls, publishes what its calls have appended, and
never holds more than `cap` entries beyond those the receiver has released.  A receiver takes published entries in
order and releases what it has taken.  Either end may forget what it has not yet passed on: the sender abandons a
call (`abandon`) or its unpublished entries (`rollback`), the receiver goes back to what it has released (`rewind`).

The channel is described by lists and positions only.  The main result is `fifo_of_run`: if the receiver only goes
back when it has released all it has taken, then what it has taken is the first published entries, in order.
-/

open Transition

structure Chan (E : Type*) where
  published : List E
  unsynced : List E
  call : List E
  released : Nat
  read : Nat
  deriving DecidableEq, Repr

namespace Chan

inductive Act (E : Type*)
  | write (x : E)
  | commit
  | abandon
  | publish
  | rollback
  | take (x : E)
  | release
  | rewind
  deriving DecidableEq, Repr

variable {E : Type*} {cap : Nat} {c c' : Chan E} {a : Act E} {tr : List (Act E)}

def empty : Chan E := ⟨[], [], [], 0, 0⟩

/-- Everything sent: published, unpublished and in the call under way. -/
def all (c : Chan E) : List E := c.published ++ c.unsynced ++ c.call

/-- The effect of an act, allowed or not. -/
def apply (c : Chan E) : Act E → Chan E
  | .write x => { c with call := c.call ++ [x] }
  | .commit => { c with unsynced := c.unsynced ++ c.call, call := [] }
  | .abandon => { c with call := [] }
  | .publish => { c with published := c.published ++ c.unsynced, unsynced := [] }
  | .rollback => { c with unsynced := [], call := [] }
  | .take _ => { c with read := c.read + 1 }
  | .release => { c with released := c.read }
  | .rewind => { c with read := c.released }

/-- The effect of an act, or of none. -/
def applyOpt (c : Chan E) : Option (Act E) → Chan E
  | none => c
  | some a => c.apply a

/-- When an act is allowed: there is room to write, and what is taken is the next published entry. -/
def Allowed (cap : Nat) (c : Chan E) : Act E → Prop
  | .write _ => c.all.length < c.released + cap
  | .take x => c.published[c.read]? = some x
  | _ => True

instance [DecidableEq E] : Decidable (Allowed cap c a) := by
  cases a <;> unfold Allowed <;> infer_instance

def step [DecidableEq E] (cap : Nat) (c : Chan E) (a : Act E) : Option (Chan E) :=
  if Allowed cap c a then some (c.apply a) else none

/-- The entries taken in a run. -/
def taken (tr : List (Act E)) : List E :=
  tr.filterMap fun | .take x => some x | _ => none

@[simp] theorem taken_append (tr tr' : List (Act E)) : taken (tr ++ tr') = taken tr ++ taken tr' :=
  List.filterMap_append ..

@[simp] theorem all_length : c.all.length = c.published.length + c.unsynced.length + c.call.length := by
  simp [all, Nat.add_assoc]

/-- Published entries stay published. -/
theorem published_prefix_apply (c : Chan E) (a : Act E) : c.published <+: (c.apply a).published := by
  cases a <;> simp [apply]

/-! ### What is still to be taken -/

/-- The entries that are not taken, published or not. -/
def pending (c : Chan E) : List E := c.all.drop c.read

theorem pending_write (h : c.read ≤ c.published.length) (x : E) :
    (c.apply (.write x)).pending = c.pending ++ [x] := by
  have hall : (c.apply (.write x)).all = c.all ++ [x] := by simp [apply, all]
  rw [pending, hall, List.drop_append_of_le_length (by rw [all_length]; exact Nat.le_trans h (by omega))]
  rfl

theorem pending_take {x : E} (h : Allowed cap c (.take x)) : c.pending = x :: (c.apply (.take x)).pending := by
  have hx : c.published[c.read]? = some x := h
  have hlt := (List.getElem?_eq_some_iff.1 hx).1
  have hall : c.all[c.read]? = some x := by
    rw [all, List.append_assoc, List.getElem?_append_left hlt, hx]
  obtain ⟨hlt', hget⟩ := List.getElem?_eq_some_iff.1 hall
  rw [pending, List.drop_eq_getElem_cons hlt', hget]
  rfl

/-- The other acts add nothing to what is to be taken, if going back does not undo anything. -/
theorem pending_sublist (hwrite : ∀ x, a ≠ .write x) (hrewind : a = .rewind → c.read = c.released) :
    (c.apply a).pending.Sublist c.pending := by
  cases a with
  | write x => exact absurd rfl (hwrite x)
  | take x =>
    simp only [pending, apply, ← List.drop_drop]
    exact List.drop_sublist ..
  | rewind =>
    simp only [pending, apply, ← hrewind rfl]
    exact List.Sublist.refl _
  | abandon =>
    simp only [pending, apply, all, List.append_nil]
    exact (List.sublist_append_left ..).drop _
  | rollback =>
    simp only [pending, apply, all, List.append_nil, List.append_assoc]
    exact (List.sublist_append_left ..).drop _
  | commit =>
    simp only [pending, apply, all, List.append_nil, List.append_assoc]
    exact List.Sublist.refl _
  | publish =>
    simp only [pending, apply, all, List.append_assoc, List.nil_append]
    exact List.Sublist.refl _
  | release => exact List.Sublist.refl _

@[simp] theorem pending_commit (c : Chan E) : (c.apply .commit).pending = c.pending := by
  simp only [pending, apply, all, List.append_nil, List.append_assoc]

@[simp] theorem pending_publish (c : Chan E) : (c.apply .publish).pending = c.pending := by
  simp only [pending, apply, all, List.append_assoc, List.nil_append]

@[simp] theorem pending_release (c : Chan E) : (c.apply .release).pending = c.pending := rfl

/-- Going back, if nothing is forgotten by it. -/
theorem pending_rewind (h : c.read = c.released) : (c.apply .rewind).pending = c.pending := by
  simp only [pending, apply, all, ← h]

theorem pending_rollback (hcall : c.call = []) (hunsynced : c.unsynced = []) :
    (c.apply .rollback).pending = c.pending := by
  simp only [pending, apply, all, hcall, hunsynced]

section Runs

variable [DecidableEq E]

theorem step_eq_some : step cap c a = some c' ↔ Allowed cap c a ∧ c.apply a = c' := by
  simp [step]

/-- Going back does not undo anything. -/
def Lossless (_ : List (Act E)) (c : Chan E) (a : Act E) : Prop := a = .rewind → c.read = c.released

/-- All that was taken is the published entries before `read`. -/
structure Fifo (tr : List (Act E)) (c : Chan E) : Prop where
  taken_eq : taken tr = c.published.take c.read
  read_le : c.read ≤ c.published.length

private theorem Fifo.step (h : Fifo tr c) (ha : Lossless tr c a) (hs : step cap c a = some c') :
    Fifo (tr ++ [a]) c' := by
  obtain ⟨hok, rfl⟩ := step_eq_some.1 hs
  obtain ⟨ht, hle⟩ := h
  cases a with
  | take x =>
    have hx : c.published[c.read]? = some x := hok
    constructor
    · simp only [taken_append, ht, apply, List.take_add_one, hx]
      rfl
    · exact (List.getElem?_eq_some_iff.1 hx).1
  | publish =>
    constructor
    · simpa [taken, apply, List.take_append_of_le_length hle] using ht
    · simpa [apply] using Nat.le_add_right_of_le hle
  | rewind =>
    have hr := ha rfl
    exact ⟨by simpa [taken, apply, ← hr] using ht, by simpa [apply, ← hr] using hle⟩
  | write x => exact ⟨by simpa [taken, apply] using ht, hle⟩
  | commit => exact ⟨by simpa [taken, apply] using ht, hle⟩
  | abandon => exact ⟨by simpa [taken, apply] using ht, hle⟩
  | rollback => exact ⟨by simpa [taken, apply] using ht, hle⟩
  | release => exact ⟨by simpa [taken, apply] using ht, hle⟩

/-- A receiver that never takes an entry twice has taken exactly the first `read` published entries. -/
theorem fifo_of_run (h : RunWhere (Chan.step cap) Lossless empty tr c) : Fifo tr c :=
  h.invariant (I := Fifo) ⟨rfl, Nat.le_refl _⟩ fun _ _ _ _ hf hl hs => hf.step hl hs

end Runs

end Chan
