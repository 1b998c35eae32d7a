import ShmRing.Notice
import ShmRing.Lib.Semaphore

/-!
# Results as permits

The waiter of a completion gets its result as permits of a semaphore: `complete` adds the result, as a `u32`, and one
more, and `wait` acquires one and takes those that are left for the result.  In between it may drop its future and make
a new one any number of times.  Every result comes through but `-1`, for which no permits are added (`survives_iff_ne`).
-/

namespace ShmRing

open Machine Transition

namespace IoUring

namespace Encoding

/-- The loop of `wait`. -/
inductive Phase
  | waiting
  | returned (res : Except Int32 Int64)

structure State (S : Type) where
  sem : S
  phase : Phase
  /-- The notice was not removed from the map. -/
  notice : Bool
  panicked : Bool

inductive Act
  /-- `complete`, in any task, finds the completion. -/
  | complete
  /-- The `select!` in `wait` polls `acquire`. -/
  | poll
  /-- The other branch of the `select!` has returned, and the loop begins anew. -/
  | drop
  deriving DecidableEq, Repr

variable {S : Type}

/-- The part of the loop of `complete` for a key with a notice. -/
def complete (b : Build) (sem : Semaphore S) (result : Int32) (st : State S) : State S :=
  match permitsOf b result with
  | .error _ => { st with notice := false, panicked := true }
  | .ok n =>
    match sem.addPermits st.sem n with
    | none => { st with notice := false, panicked := true }
    | some s => { st with sem := s, notice := false }

/-- The branch of `wait` for its `acquire`.  The permit is forgotten, so that it is not available again. -/
def poll (sem : Semaphore S) (st : State S) : State S :=
  let (ready, s) := sem.poll st.sem
  if ready then { st with sem := s, phase := .returned (resultOf (sem.availablePermits s)) } else { st with sem := s }

/-- A waiter for a completion with this result. -/
def step (b : Build) (sem : Semaphore S) (result : Int32) (st : State S) : Act → Option (State S)
  | .complete => if st.notice then some (complete b sem result st) else none
  | .poll =>
    match st.phase with
    | .waiting => some (poll sem st)
    | .returned _ => none
  | .drop =>
    match st.phase with
    | .waiting => some { st with sem := sem.drop st.sem }
    | .returned _ => none

def init (sem : Semaphore S) : State S := ⟨sem.empty, .waiting, true, false⟩

/-- A result that a completion can carry. -/
def FromKernel (result : Int32) : Prop := 0 ≤ result.toInt ∨ -4095 ≤ result.toInt ∧ result.toInt ≤ -1

instance (result : Int32) : Decidable (FromKernel result) := inferInstanceAs (Decidable (_ ∨ _))

/-- What `wait` is to return for a result. -/
def Decodes (result : Int32) : Except Int32 Int64 → Prop
  | .ok n => 0 ≤ result.toInt ∧ n.toInt = result.toInt
  | .error errno => result.toInt < 0 ∧ errno.toInt = -result.toInt

/-- However the steps are ordered, nothing overflows, and once the permits were added `wait` returns, with the result,
when it polls next. -/
structure Survives (b : Build) (sem : Semaphore S) (result : Int32) : Prop where
  adds : ∀ tr st, Run (step b sem result) (init sem) tr st → st.panicked = false
  returns : ∀ tr st res, Run (step b sem result) (init sem) tr st → st.phase = .returned res → Decodes result res
  resolves : ∀ tr st, Run (step b sem result) (init sem) tr st → st.notice = false → st.phase = .waiting →
    ∃ st' res, step b sem result st .poll = some st' ∧ st'.phase = .returned res

/-! ### Decoding -/

private theorem decodes_resultOf {result : Int32} (h : FromKernel result) :
    Decodes result (resultOf result.toUInt32.toNat) := by
  have hcast : (UInt32.ofNat result.toUInt32.toNat).toInt32 = result := by
    rw [UInt32.ofNat_toNat, Int32.toInt32_toUInt32]
  unfold resultOf
  rw [hcast]
  by_cases hpos : 0 ≤ result
  · rw [if_pos hpos]
    exact ⟨Int32.le_iff_toInt_le.1 hpos, Int32.toInt_toInt64 result⟩
  · rw [if_neg hpos]
    have hneg : result.toInt < 0 := by
      rw [Int32.le_iff_toInt_le] at hpos
      exact Int.lt_of_not_ge hpos
    refine ⟨hneg, ?_⟩
    unfold FromKernel at h
    rw [Int32.toInt_neg]
    exact Int.bmod_eq_of_le (by omega) (by omega)

/-! ### Runs -/

variable {b : Build} {sem : Semaphore S} {permits : S → Nat} {result : Int32} {st st' : State S} {a : Act}

/-- The semaphore has the permits of the result, from `complete` to the end of `wait`. -/
structure Inv (permits : S → Nat) (result : Int32) (st : State S) : Prop where
  adds : st.panicked = false
  waiting : st.phase = .waiting → permits st.sem = if st.notice then 0 else encoded result
  returned : ∀ res, st.phase = .returned res → st.notice = false ∧ Decodes result res

private theorem inv_init (h : sem.Lawful permits) : Inv permits result (init sem) where
  adds := rfl
  waiting _ := h.permits_empty
  returned _ h := by cases h

private theorem poll_eq (sem : Semaphore S) (st : State S) :
    poll sem st =
      if (sem.poll st.sem).1 then { st with
        sem := (sem.poll st.sem).2
        phase := .returned (resultOf (sem.availablePermits (sem.poll st.sem).2)) }
      else { st with sem := (sem.poll st.sem).2 } :=
  rfl

/-- A poll returns with the result, if its permits were added. -/
private theorem poll_of_completed (h : sem.Lawful permits) (hr : FromKernel result)
    (hpermits : permits st.sem = encoded result) :
    ∃ res, (poll sem st).phase = .returned res ∧ Decodes result res ∧ (poll sem st).notice = st.notice ∧
      (poll sem st).panicked = st.panicked := by
  obtain ⟨hready, hleft⟩ := h.poll_pos st.sem (by rw [hpermits, encoded]; omega)
  have hpoll : poll sem st = { st with
      sem := (sem.poll st.sem).2
      phase := .returned (resultOf (sem.availablePermits (sem.poll st.sem).2)) } := by
    rw [poll_eq, if_pos hready]
  refine ⟨resultOf (sem.availablePermits (sem.poll st.sem).2), by rw [hpoll], ?_, by rw [hpoll], by rw [hpoll]⟩
  rw [hleft, hpermits, encoded, Nat.add_sub_cancel_left]
  exact decodes_resultOf hr

namespace Inv

private theorem complete (h : sem.Lawful permits) (hne : result ≠ eperm) (hi : Inv permits result st)
    (hnotice : st.notice = true) : Inv permits result (complete b sem result st) := by
  have hwaiting : st.phase = .waiting := by
    cases hphase : st.phase with
    | waiting => rfl
    | returned res =>
      have hn := (hi.returned res hphase).1
      rw [hnotice] at hn
      cases hn
  have hzero := hi.waiting hwaiting
  rw [hnotice, if_pos rfl] at hzero
  have hlt := toUInt32_lt hne
  obtain ⟨s, hadd, hs⟩ := h.addPermits st.sem (encoded result) (by
    simp only [hzero, encoded, Semaphore.maxPermits]
    omega)
  rw [Encoding.complete, permitsOf_of_ne hne]
  simp only [hadd]
  refine ⟨hi.adds, fun _ => ?_, fun res hres => ?_⟩
  · simp only [hs, hzero, Bool.false_eq_true, if_false, Nat.zero_add]
  · rw [hwaiting] at hres
    cases hres

private theorem poll (h : sem.Lawful permits) (hr : FromKernel result) (hi : Inv permits result st)
    (hwaiting : st.phase = .waiting) : Inv permits result (poll sem st) := by
  have hpermits := hi.waiting hwaiting
  cases hnotice : st.notice with
  | true =>
    rw [hnotice, if_pos rfl] at hpermits
    obtain ⟨hready, hleft⟩ := h.poll_zero st.sem hpermits
    have hpoll : Encoding.poll sem st = { st with sem := (sem.poll st.sem).2 } := by
      rw [poll_eq, hready, if_neg Bool.false_ne_true]
    rw [hpoll]
    refine ⟨hi.adds, fun _ => ?_, hi.returned⟩
    simp only [hleft, hnotice, if_true]
  | false =>
    rw [hnotice] at hpermits
    obtain ⟨res, hres, hdecodes, hnotice', hpanicked⟩ := poll_of_completed h hr hpermits
    refine ⟨hpanicked.trans hi.adds, fun hw => ?_, fun res' hres' => ⟨hnotice'.trans hnotice, ?_⟩⟩
    · rw [hres] at hw
      cases hw
    · rw [hres] at hres'
      cases hres'
      exact hdecodes

theorem step (h : sem.Lawful permits) (hr : FromKernel result) (hne : result ≠ eperm) (hi : Inv permits result st)
    (e : step b sem result st a = some st') : Inv permits result st' := by
  cases a with
  | complete =>
    obtain ⟨hnotice, e⟩ := Option.ite_none_right_eq_some.1 e
    cases e
    exact hi.complete h hne hnotice
  | poll =>
    simp only [Encoding.step] at e
    split at e
    · rename_i hwaiting
      cases e
      exact hi.poll h hr hwaiting
    · cases e
  | drop =>
    simp only [Encoding.step] at e
    split at e
    · cases e
      exact ⟨hi.adds, fun hw => (h.permits_drop st.sem).trans (hi.waiting hw), hi.returned⟩
    · cases e

end Inv

/-- Without permits a waiter waits on. -/
private theorem not_survives_eperm (h : sem.Lawful permits) (b : Build) : ¬ Survives b sem eperm := by
  intro hs
  have hrun : Run (step b sem eperm) (init sem) ([] ++ [.complete]) (complete b sem eperm (init sem)) :=
    Run.nil.snoc rfl
  have hadds := hs.adds _ _ hrun
  cases b with
  | debug => cases hadds
  | release =>
    obtain ⟨s, hadd, hpermits⟩ := h.addPermits sem.empty 0 (by rw [h.permits_empty]; exact Nat.zero_le _)
    have hzero : permits s = 0 := by rw [hpermits, h.permits_empty]
    have hcomplete : complete .release sem eperm (init sem) = { init sem with sem := s, notice := false } := by
      rw [complete, show permitsOf .release eperm = .ok 0 from rfl]
      simp only [init, hadd]
    rw [hcomplete] at hrun
    obtain ⟨st', res, e, hres⟩ := hs.resolves _ _ hrun rfl rfl
    cases e
    rw [poll_eq, (h.poll_zero s hzero).1, if_neg Bool.false_ne_true] at hres
    cases hres

/-- A result survives if and only if it is not `-1`. -/
theorem survives_iff_ne (h : sem.Lawful permits) (b : Build) (hr : FromKernel result) :
    Survives b sem result ↔ result ≠ eperm := by
  constructor
  · rintro hs rfl
    exact not_survives_eperm h b hs
  · intro hne
    have hinv : ∀ tr st, Run (step b sem result) (init sem) tr st → Inv permits result st := fun tr st hrun =>
      hrun.invariant (I := fun _ => Inv permits result) (inv_init h) fun _ _ _ _ hi e => hi.step h hr hne e
    refine ⟨fun tr st hrun => (hinv tr st hrun).adds, fun tr st res hrun hres => ((hinv tr st hrun).returned res hres).2,
      fun tr st hrun hnotice hwaiting => ?_⟩
    have hpermits := (hinv tr st hrun).waiting hwaiting
    rw [hnotice] at hpermits
    obtain ⟨res, hres, -⟩ := poll_of_completed h hr hpermits
    exact ⟨poll sem st, res, by rw [step, hwaiting], hres⟩

/-- A wait that was timed out. -/
theorem survives_iff_ne_etimedout : Survives .debug Semaphore.queue (-110) :=
  (survives_iff_ne Semaphore.lawful_queue .debug (by decide)).2 (by decide)

/-- An operation that is not permitted, in both builds. -/
theorem eperm_lost : FromKernel eperm ∧ ¬ Survives .debug Semaphore.queue eperm ∧
    ¬ Survives .release Semaphore.queue eperm :=
  ⟨by decide, not_survives_eperm Semaphore.lawful_queue .debug, not_survives_eperm Semaphore.lawful_queue .release⟩

end Encoding

end IoUring

end ShmRing
