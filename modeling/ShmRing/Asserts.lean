import ShmRing.Whole
import ShmRing.Handles

/-!
# No assertion fails

Whatever the two guests do and however the tasks are interleaved, `extend` never sees a position go back, `split_ring`
never sees a window that ends before it starts or is larger than the buffer, no copy leaves the data of the ring and no
position overflows.  What is left is the counter of received entries, which can overflow in a debug build, the
`unreachable!` for a wait that failed in a way the kernel does not fail, and the `unwrap` of a handle on a ring of which
the record lets none be opened, such as one with eight bytes of data (`asserts_of_run`).
-/

namespace ShmRing

open Machine Bytes Transition

namespace ByteStream

/-- The tasks are only aborted by the overflow of a counter, by a wait with an unknown result, or when they open a
handle and get none. -/
structure Aborts (x : Ctx) (tr : List Event) (s : State) : Prop where
  output : ∀ f, s.output.task.pc = .aborted f →
    x.build.addI32 s.output.task.headReceive 1 = .error f ∨ .output .unwrap ∈ tr
  input : ∀ f, s.input.task.pc = .aborted f →
    x.build.addU32 s.input.task.headReceive 1 = .error f ∨ .input (.wait .error) ∈ tr ∨ .input .unwrap ∈ tr

section Tasks

variable {ρ : Type} {count : ρ → Exec ρ} {pos : UInt64 → UInt64} {t t' : Task ρ} {f : Fault}

/-- A task that receives no position below the last one is aborted by the counter only. -/
private theorem Task.reap_aborted {a : Duplex.ConsumeAct Entry} (h : t.reap count pos a = some t')
    (hle : ∀ data, a = .next data → t.available.head ≤ pos (fromLeBytes data)) (hpc : t'.pc = .aborted f) :
    count t'.headReceive = .error f := by
  rcases t.reap_cases h with ⟨data, rfl, rfl⟩ | ⟨-, pc, hpc', rfl⟩
  · rcases Task.receive_cases count pos (hle data rfl) with ⟨f', hcount, hr⟩ | ⟨n, -, hr⟩
    · rw [hr] at hpc ⊢
      cases hpc
      exact hcount
    · rw [hr] at hpc
      cases hpc
  · obtain rfl : pc = .aborted f := hpc
    rcases Task.reapPc_cases hpc' with ⟨p, h⟩ | h <;> cases h

private theorem Task.announce_not_aborted {a : Duplex.ProduceAct Entry} (h : t.announce a = some t') :
    t'.pc ≠ .aborted f := by
  intro hpc
  rcases t.announce_cases h with ⟨k, -, rfl⟩ | ⟨-, pc, hpc', rfl⟩
  · cases hpc
  · obtain rfl : pc = .aborted f := hpc
    rcases Task.announcePc_cases hpc' with ⟨p, h⟩ | h <;> cases h

end Tasks

section Steps

variable {x : Ctx} {y : Duplex.Ctx Mem Entry} {m : Mem} {cap : Nat} {tr : List Event} {s s' : State} {w : Whole}
  {a : Event}

private theorem OutputRing.proceed_not_aborted {o : OutputRing} {f : Fault} : o.proceed.task.pc ≠ .aborted f := by
  intro hpc
  unfold proceed at hpc
  split at hpc <;> cases hpc

private theorem InputRing.received_not_aborted {i : InputRing} {data : Slice} {sequence : UInt64} {f : Fault} :
    (i.received data sequence).task.pc ≠ .aborted f := by
  intro hpc
  simp only [received] at hpc
  split at hpc <;> cases hpc

namespace Aborts

private theorem output_snoc (h : Aborts x tr s) {f : Fault} (hpc : s.output.task.pc = .aborted f) :
    x.build.addI32 s.output.task.headReceive 1 = .error f ∨ .output .unwrap ∈ tr ++ [a] :=
  (h.output f hpc).imp_right (List.mem_append_left _)

private theorem input_snoc (h : Aborts x tr s) {f : Fault} (hpc : s.input.task.pc = .aborted f) :
    x.build.addU32 s.input.task.headReceive 1 = .error f ∨ .input (.wait .error) ∈ tr ++ [a] ∨
      .input .unwrap ∈ tr ++ [a] :=
  (h.input f hpc).imp_right (Or.imp (List.mem_append_left _) (List.mem_append_left _))

private theorem mono (h : Aborts x tr s) (ho : s'.output.task = s.output.task) (hi : s'.input.task = s.input.task) :
    Aborts x (tr ++ [a]) s' where
  output f hpc := by
    rw [ho] at hpc ⊢
    exact h.output_snoc hpc
  input f hpc := by
    rw [hi] at hpc ⊢
    exact h.input_snoc hpc

/-- The task of the output goes on. -/
private theorem of_output (h : Aborts x tr s) (hi : s'.input.task = s.input.task)
    (ho : ∀ f, s'.output.task.pc ≠ .aborted f) : Aborts x (tr ++ [a]) s' where
  output f hpc := absurd hpc (ho f)
  input f hpc := by
    rw [hi] at hpc ⊢
    exact h.input_snoc hpc

/-- The task of the input goes on. -/
private theorem of_input (h : Aborts x tr s) (ho : s'.output.task = s.output.task)
    (hi : ∀ f, s'.input.task.pc ≠ .aborted f) : Aborts x (tr ++ [a]) s' where
  output f hpc := by
    rw [ho] at hpc ⊢
    exact h.output_snoc hpc
  input f hpc := absurd hpc (hi f)

private theorem link (h : Aborts x tr s) (hinv : Inv x tr s) {e : Duplex.Event Entry}
    (hl : Linked cap tr s (.link e)) (hs : linkStep x s e = some s') : Aborts x (tr ++ [.link e]) s' := by
  rcases linkStep_cases hs with ⟨a, o, rfl, ho, rfl⟩ | ⟨a, i, rfl, hi, rfl⟩ | ⟨a, o, rfl, ho, rfl⟩ |
    ⟨a, i, rfl, hi, rfl⟩
  · obtain ⟨t, e, ht, rfl⟩ := OutputRing.announce_task ho
    exact h.of_output rfl fun f => Task.announce_not_aborted ht
  · obtain ⟨t, ht, rfl⟩ := Option.map_eq_some_iff.1 hi
    exact h.of_input rfl fun f => Task.announce_not_aborted ht
  · obtain ⟨t, ht, rfl⟩ := Option.map_eq_some_iff.1 ho
    refine ⟨fun f hpc => .inl ?_, fun f hpc => h.input_snoc hpc⟩
    have hcount := Task.reap_aborted ht (fun data hdata => by
      subst hdata
      exact hinv.output_next_le hl) hpc
    exact hcount
  · obtain ⟨t, ht, rfl⟩ := Option.map_eq_some_iff.1 hi
    refine ⟨fun f hpc => h.output_snoc hpc, fun f hpc => .inl ?_⟩
    have hcount := Task.reap_aborted ht (fun data hdata => by
      subst hdata
      exact hinv.input_next_le hl) hpc
    exact hcount

private theorem output_step (h : Aborts x tr s) (hinv : Inv x tr s) {a : OutputAct}
    (hs : outputStep x s a = some s') : Aborts x (tr ++ [.output a]) s' := by
  cases OutputStep.of_eq hs with
  | fill | fillError =>
    obtain ⟨out, -, heq, -⟩ := hinv.fill_cases hs
    rw [heq]
    exact h.of_output rfl fun f => OutputRing.proceed_not_aborted
  | reportFlushed | keepFlushing => exact h.of_output rfl fun f => OutputRing.proceed_not_aborted
  | resume | yieldNow =>
    refine h.of_output rfl fun f hpc => ?_
    cases hpc
  | unwrap => exact ⟨fun f _ => .inr (by simp), fun f hpc => h.input_snoc hpc⟩
  | writeEmpty | write | raiseFlush | pushFlush | close => exact h.mono rfl rfl

private theorem input_step (h : Aborts x tr s) (hinv : Inv x tr s) {a : InputAct}
    (hs : inputStep x s a = some s') : Aborts x (tr ++ [.input a]) s' := by
  cases InputStep.of_eq hs with
  | consume | consumeError =>
    obtain ⟨data, heq, -⟩ := hinv.consume_cases hs
    rw [heq]
    exact h.of_input rfl fun f => InputRing.received_not_aborted
  | @wait r =>
    cases r with
    | error => exact ⟨fun f hpc => h.output_snoc hpc, fun f _ => .inr (.inl (by simp))⟩
    | _ =>
      refine h.of_input rfl fun f hpc => ?_
      cases hpc
  | unwrap => exact ⟨fun f hpc => h.output_snoc hpc, fun f _ => .inr (.inr (by simp))⟩
  | read size => exact h.mono rfl (s.input.read_task size)
  | acquire | acquireError | ioError =>
    refine h.of_input rfl fun f hpc => ?_
    cases hpc

theorem step (h : Aborts x tr s) (hinv : Inv x tr s) (hl : Linked cap tr s a)
    (hs : ByteStream.step x s a = some s') : Aborts x (tr ++ [a]) s' := by
  cases a with
  | link e => exact h.link hinv hl hs
  | output a => exact h.output_step hinv hs
  | input a => exact h.input_step hinv hs

end Aborts

end Steps

end ByteStream

end ShmRing
