import ShmRing.Client
import ShmRing.Handshake

/-!
# Deadlines of waits

`futex_waitv` turns a timeout into an absolute time of the monotonic clock, by an addition of the seconds and one of the
nanoseconds, without a carry.  The sum is right if the nanoseconds stay below a second; otherwise it is no time at all,
and the kernel refuses it (`exact_iff`).
-/

namespace ShmRing

open Machine Bytes

/-! ### Times -/

/-- A `timespec`. -/
structure Timespec where
  tvSec : Int64
  tvNsec : Int64
  deriving DecidableEq, Repr

namespace Timespec

/-- What the kernel accepts as a time. -/
def Valid (ts : Timespec) : Prop := 0 ≤ ts.tvSec.toInt ∧ 0 ≤ ts.tvNsec.toInt ∧ ts.tvNsec.toInt < 10 ^ 9

instance (ts : Timespec) : Decidable ts.Valid := inferInstanceAs (Decidable (_ ∧ _))

/-- The time in nanoseconds. -/
def nanoseconds (ts : Timespec) : Int := ts.tvSec.toInt * 10 ^ 9 + ts.tvNsec.toInt

end Timespec

/-- A reading of the monotonic clock. -/
structure ClockReading extends Timespec where
  valid : toTimespec.Valid

structure Duration where
  secs : UInt64
  subsecNanos : UInt32
  nanos_lt : subsecNanos.toNat < 10 ^ 9

/-- The duration in nanoseconds. -/
def Duration.nanoseconds (d : Duration) : Int := d.secs.toNat * 10 ^ 9 + d.subsecNanos.toNat

/-! ### Waiting -/

def einval : Int32 := 22
def eagain : Int32 := 11
def erestart : Int32 := 85
def etimedout : Int32 := 110

inductive WaitResult
  | ok
  | preconditionFailed
  | remoteBlocked
  | remoteInactive
  | error
  /-- Indetermined, woken up by spurious result. -/
  | restart
  | timeout
  deriving DecidableEq, Repr

/-- What the kernel does with a wait that it accepts: a parameter of the waits, of any behaviour. -/
abbrev Sleep := List (HeadWord × UInt32) → Timespec → Except Int32 Int64

/-- The system call, with an absolute time. -/
def sysFutexWaitv (sleep : Sleep) (waiters : List (HeadWord × UInt32)) (timespec : Timespec) : Except Int32 Int64 :=
  if timespec.Valid then sleep waiters timespec else .error einval

/-- The time that is handed to the kernel. -/
def deadline (b : Build) (timespec : Timespec) (timeout : Duration) : Exec Timespec := do
  let tvNsec ← b.addI64 timespec.tvNsec timeout.subsecNanos.toUInt64.toInt64
  let tvSec ← b.addI64 timespec.tvSec timeout.secs.toInt64
  return { tvSec, tvNsec }

/-- `clock` is the outcome of `clock_gettime`. -/
def futexWaitv (b : Build) (sleep : Sleep) (waiters : List (HeadWord × UInt32)) (clock : Except Int32 Timespec)
    (timeout : Duration) : Exec (Except Int32 Int64) :=
  match clock with
  | .error errno => .ok (.error errno)
  | .ok timespec => (deadline b timespec timeout).map fun ts => sysFutexWaitv sleep waiters ts

/-- How both waits take an error. -/
def WaitResult.ofErrno (errno : Int32) : WaitResult :=
  if errno = eagain then .preconditionFailed
  else if errno = etimedout then .timeout
  else if errno = erestart then .restart
  else .error

namespace Ring

/-- The result of `wait_for_remote`. -/
def remoteResult : Except Int32 Int64 → WaitResult
  | .ok n => if n = 0 then .restart else if n = 1 then .ok else .error
  | .error errno => .ofErrno errno

def waitForRemote (b : Build) (sleep : Sleep) (r : Ring) (clock : Except Int32 Timespec) (timeout : Duration)
    (m : Mem) : Exec WaitResult :=
  let loaded := r.load .blocked m
  -- the line is going down
  if loaded.toInt32 < 0 then .ok .remoteBlocked
  else (futexWaitv b sleep ((Handshake.Wait.remote loaded).wakes r.slot.side.not) clock timeout).map remoteResult

/-- The result of `wait_for_message`. -/
def messageResult : Except Int32 Int64 → WaitResult
  | .ok n => if n = 0 then .remoteBlocked else if n = 1 then .remoteInactive else if n = 2 then .ok else .error
  | .error errno => .ofErrno errno

def waitForMessage (b : Build) (sleep : Sleep) (r : Ring) (head : UInt32) (clock : Except Int32 Timespec)
    (timeout : Duration) : Exec WaitResult :=
  (futexWaitv b sleep ((Handshake.Wait.message head).wakes r.slot.side.not) clock timeout).map messageResult

end Ring

/-! ### Exactness -/

/-- The sum of the reading and the timeout fits into a `timespec`. -/
def Fits (clock : ClockReading) (timeout : Duration) : Prop :=
  clock.tvSec.toInt + timeout.secs.toNat + (clock.tvNsec.toInt + timeout.subsecNanos.toNat) / 10 ^ 9 < 2 ^ 63

instance (clock : ClockReading) (timeout : Duration) : Decidable (Fits clock timeout) :=
  inferInstanceAs (Decidable (_ < _))

/-- The deadline is the time at which the timeout ends, and the kernel accepts it from either wait. -/
structure Exact (b : Build) (clock : ClockReading) (timeout : Duration) (ts : Timespec) : Prop where
  deadline : deadline b clock.toTimespec timeout = .ok ts
  valid : ts.Valid
  sum : ts.nanoseconds = clock.nanoseconds + timeout.nanoseconds
  message : ∀ (sleep : Sleep) (r : Ring) head, r.waitForMessage b sleep head (.ok clock.toTimespec) timeout =
    .ok (Ring.messageResult (sleep ((Handshake.Wait.message head).wakes r.slot.side.not) ts))
  remote : ∀ (sleep : Sleep) (r : Ring) m, ¬ (r.load .blocked m).toInt32 < 0 →
    r.waitForRemote b sleep (.ok clock.toTimespec) timeout m =
      .ok (Ring.remoteResult (sleep ((Handshake.Wait.remote (r.load .blocked m)).wakes r.slot.side.not) ts))

variable {clock : ClockReading} {timeout : Duration} {ts : Timespec}

private theorem toInt_subsecNanos (d : Duration) : d.subsecNanos.toUInt64.toInt64.toInt = d.subsecNanos.toNat := by
  have hlt := d.nanos_lt
  rw [toInt_toInt64 (by rw [UInt32.toNat_toUInt64]; omega), UInt32.toNat_toUInt64]

/-- Both sums stay in range, but that of the nanoseconds may be more than a second. -/
private theorem deadline_eq (b : Build) (h : Fits clock timeout) : ∃ ts, deadline b clock.toTimespec timeout = .ok ts ∧
    ts.tvSec.toInt = clock.tvSec.toInt + timeout.secs.toNat ∧
      ts.tvNsec.toInt = clock.tvNsec.toInt + timeout.subsecNanos.toNat := by
  obtain ⟨hsec, hnsec, hlt⟩ := clock.valid
  have hnanos := timeout.nanos_lt
  unfold Fits at h
  have hcast := toInt_subsecNanos timeout
  have hsecs : timeout.secs.toInt64.toInt = timeout.secs.toNat := toInt_toInt64 (by omega)
  obtain ⟨hok, hsum⟩ := b.addI64_of_inRange (x := clock.tvNsec) (y := timeout.subsecNanos.toUInt64.toInt64)
    (by omega) (by omega)
  obtain ⟨hok', hsum'⟩ := b.addI64_of_inRange (x := clock.tvSec) (y := timeout.secs.toInt64) (by omega) (by omega)
  refine ⟨⟨clock.tvSec + timeout.secs.toInt64, clock.tvNsec + timeout.subsecNanos.toUInt64.toInt64⟩, ?_, ?_, ?_⟩
  · rw [deadline, hok]
    simp only [bind, Except.bind, hok', pure, Except.pure]
  · rw [hsum', hsecs]
  · rw [hsum, hcast]

private theorem sysFutexWaitv_of_valid (h : ts.Valid) (sleep : Sleep) (waiters : List (HeadWord × UInt32)) :
    sysFutexWaitv sleep waiters ts = sleep waiters ts := if_pos h

/-- The deadline is exact if and only if the nanoseconds of the clock and of the timeout make up less than a second. -/
theorem exact_iff (b : Build) (clock : ClockReading) (timeout : Duration) (h : Fits clock timeout) :
    (∃ ts, Exact b clock timeout ts) ↔ clock.tvNsec.toInt + timeout.subsecNanos.toNat < 10 ^ 9 := by
  obtain ⟨ts, hdeadline, hsec, hnsec⟩ := deadline_eq b h
  obtain ⟨hpos, hnpos, -⟩ := clock.valid
  constructor
  · rintro ⟨ts', hexact⟩
    have he := hexact.deadline
    rw [hdeadline] at he
    cases he
    have hlt := hexact.valid.2.2
    omega
  · intro hlt
    have hvalid : ts.Valid := ⟨by omega, by omega, by omega⟩
    refine ⟨ts, hdeadline, hvalid, ?_, fun sleep r head => ?_, fun sleep r m hblocked => ?_⟩
    · simp only [Timespec.nanoseconds, Duration.nanoseconds, hsec, hnsec]
      omega
    · simp only [Ring.waitForMessage, futexWaitv, hdeadline, Except.map, sysFutexWaitv_of_valid hvalid]
    · simp only [Ring.waitForRemote, if_neg hblocked, futexWaitv, hdeadline, Except.map, sysFutexWaitv_of_valid hvalid]

/-- A quarter of a second past a full one. -/
def earlyReading : ClockReading := ⟨⟨17, 250000000⟩, by decide⟩

/-- Three quarters of a second past a full one. -/
def lateReading : ClockReading := ⟨⟨17, 750000000⟩, by decide⟩

def halfSecond : Duration := ⟨0, 500000000, by decide⟩

theorem exact_iff_early : ∃ ts, Exact .debug earlyReading halfSecond ts :=
  (exact_iff .debug earlyReading halfSecond (by decide)).2 (by decide)

/-- A timeout of half a second that is taken in the second half of a second. -/
theorem not_exact : Fits lateReading halfSecond ∧ ¬ ∃ ts, Exact .release lateReading halfSecond ts := by
  refine ⟨by decide, ?_⟩
  rintro ⟨ts, h⟩
  have he := h.deadline
  cases he
  exact absurd h.valid (by decide)

end ShmRing
