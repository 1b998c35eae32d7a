import ShmRing.Transfer
import ShmRing.Lib.Pipe

/-!
# A byte stream is a pipe

Of the bytes of a stream some are in the queue of the output, some in the space of the ring, between the positions of
the two tasks, and some in the buffer of the input.  Every step of the tasks and of the guests is a step of a pipe
between these three, or none (`Inv.pipe_step`).
-/

namespace ShmRing

open Machine Bytes Transition

namespace ByteStream

/-- The bytes of the ring that are sent and not received. -/
def State.window (x : Ctx) (s : State) : List UInt8 :=
  (List.range (s.output.task.sequence.toNat - s.input.task.sequence.toNat)).map fun i =>
    s.mem ((x.output.info s.mem).offsetData.toNat + (s.input.task.sequence.toNat + i) % x.size.toNat)

/-- The pipe that a stream is. -/
def State.pipe (x : Ctx) (s : State) : Pipe UInt8 where
  queue := payload s.output.buffer
  window := s.window x
  arrived := payload s.input.buffer

/-- What a step does to the pipe. -/
def pipeAct : Event → Option (Pipe.Act UInt8)
  | .output (.write bytes) => some (.write bytes.1)
  | .output (.fill copied lost) => some (.send copied lost)
  | .input (.consume n) => some (.receive n)
  | .input (.read _ (.bytes l)) => some (.read l)
  | _ => none

section Pipe

variable {x : Ctx} {m : Mem} {cap : Nat} {tr : List Event} {s s' : State} {a : Event}

/-- The bytes that are sent and not received are in the block. -/
private theorem State.window_eq (h : x.Valid s.mem) : s.window x =
    h.output.block.read s.mem s.input.task.sequence.toNat
      (s.output.task.sequence.toNat - s.input.task.sequence.toNat) := rfl

/-- The pipe of two states that differ in none of its parts. -/
private theorem State.pipe_congr (hmem : s'.mem = s.mem) (hos : s'.output.task.sequence = s.output.task.sequence)
    (his : s'.input.task.sequence = s.input.task.sequence) (hob : s'.output.buffer = s.output.buffer)
    (hib : s'.input.buffer = s.input.buffer) : s'.pipe x = s.pipe x := by
  simp only [State.pipe, State.window, hmem, hos, his, hob, hib]

/-- The accesses to the ring do nothing to the pipe. -/
private theorem linkStep_pipe {e : Duplex.Event Entry} (h : linkStep x s e = some s') : s'.pipe x = s.pipe x := by
  rcases linkStep_cases h with ⟨a, o, rfl, ho, rfl⟩ | ⟨a, i, rfl, hi, rfl⟩ | ⟨a, o, rfl, ho, rfl⟩ |
    ⟨a, i, rfl, hi, rfl⟩
  · obtain ⟨t, e, ht, rfl⟩ := OutputRing.announce_task ho
    have hseq := (Task.announce_same ht).1
    exact State.pipe_congr rfl hseq rfl rfl rfl
  · obtain ⟨t, ht, rfl⟩ := Option.map_eq_some_iff.1 hi
    have hseq := (Task.announce_same ht).1
    exact State.pipe_congr rfl rfl hseq rfl rfl
  · obtain ⟨t, ht, rfl⟩ := Option.map_eq_some_iff.1 ho
    have hseq := (Task.reap_same ht).1
    exact State.pipe_congr rfl hseq rfl rfl rfl
  · obtain ⟨t, ht, rfl⟩ := Option.map_eq_some_iff.1 hi
    have hseq := (Task.reap_same ht).1
    exact State.pipe_congr rfl rfl hseq rfl rfl

namespace InputRing

private theorem payload_received (i : InputRing) (data : Slice) (sequence : UInt64) :
    payload (i.received data sequence).buffer = payload i.buffer ++ data.1 := by
  have hdata : payload (if !data.1.isEmpty then [.some data] else []) = data.1 := by
    cases hempty : data.1.isEmpty with
    | true => simp [payload, List.isEmpty_iff.1 hempty]
    | false => simp [payload, BytesOrEof.data]
  have heof : ∀ b : Bool, payload (if b then [BytesOrEof.eof] else []) = [] := by
    intro b
    cases b <;> rfl
  simp only [received]
  rw [payload, List.flatMap_append, List.flatMap_append]
  change payload _ ++ payload _ ++ payload _ = _
  rw [hdata, heof, List.append_nil]

/-- A read gives the first bytes that have arrived. -/
private theorem read_bytes (i : InputRing) (size : Nat) {l : List UInt8} (h : (i.read size).1 = .bytes l) :
    payload i.buffer = l ++ payload (i.read size).2.buffer := by
  unfold read at *
  split at h
  · cases h; rfl
  · cases h
  · rename_i bytes rest hbuffer
    dsimp only at h ⊢
    split at h <;> cases h
    · rename_i hempty
      simp only [payload, hbuffer, List.flatMap_cons, if_pos hempty]
      rw [BytesOrEof.data, List.isEmpty_iff] at *
      conv_lhs => rw [← List.take_append_drop (min bytes.1.length size) bytes.1, hempty, List.append_nil]
    · rename_i hempty
      simp only [payload, hbuffer, List.flatMap_cons, if_neg hempty]
      rw [← List.append_assoc]
      congr 1
      exact (List.take_append_drop ..).symm

/-- Without an effect on the bytes. -/
private theorem read_closed (i : InputRing) (size : Nat) (h : (i.read size).1 = .closed) : (i.read size).2 = i := by
  unfold read at *
  split at h
  · cases h
  · rfl
  · dsimp only at h
    split at h <;> cases h

end InputRing

/-- What is filled in goes behind what is in the window, and the queue has it no longer. -/
private theorem Inv.fill_pipe (h : Inv x tr s) {copied lost : Nat} (hs : outputStep x s (.fill copied lost) = some s') :
    Pipe.step x.size.toNat (s.pipe x) (.send copied lost) = some (s'.pipe x) := by
  obtain ⟨out, hfills, rfl, -, hcopied, hlost⟩ := h.fill_cases hs
  have hbounds := h.bounds
  have hin := h.input_le
  have hout := h.output_le
  have hstart := hfills.start_eq
  have hv := h.valid.of_window hfills.window
  have hframe := h.valid.output.frame_of_differIn hfills.window
  have hfull := payload_eq s.output.buffer
  rw [← hfills.full_eq] at hfull
  have hlen := congrArg List.length hfull
  rw [List.length_append] at hlen
  refine Pipe.step_eq_some.2 ⟨⟨?_, ?_⟩, ?_⟩
  · simp only [State.pipe]
    omega
  · simp only [State.pipe, State.window, List.length_map, List.length_range]
    omega
  · have hqueue : payload (s.output.filled out).buffer = (payload s.output.buffer).drop (copied + lost) := by
      rw [OutputRing.filled, OutputRing.proceed_buffer]
      conv_rhs => rw [hfull]
      rw [List.drop_append_of_le_length (by omega), List.drop_of_length_le (by omega), List.nil_append]
    have hcopy : h.valid.output.block.read out.mem s.output.task.sequence.toNat copied =
        (payload s.output.buffer).take copied := by
      have hread := hfills.read_eq
      rw [show out.start.toNat - s.output.task.sequence.toNat = copied by omega] at hread
      rw [hread, hfull, List.take_append_of_le_length (by omega), List.take_eq_take_iff]
      omega
    have hwindow : State.window x { s with output := s.output.filled out, mem := out.mem } =
        s.window x ++ (payload s.output.buffer).take copied := by
      rw [State.window_eq hv, State.window_eq h.valid]
      simp only [OutputRing.filled, OutputRing.proceed_sequence]
      rw [h.valid.output.block_eq hv.output hframe, ← hcopy,
        show out.start.toNat - s.input.task.sequence.toNat =
          s.output.task.sequence.toNat - s.input.task.sequence.toNat + copied by omega, CyclicBlock.read_append]
      have hbehind : DifferIn (h.valid.output.block.Window
          (s.input.task.sequence.toNat + (s.output.task.sequence.toNat - s.input.task.sequence.toNat))
          (s.output.task.available.head.toNat - s.output.task.sequence.toNat)) s.mem out.mem := by
        rw [Nat.add_sub_cancel' (by omega)]
        exact hfills.window
      have hkept := CyclicBlock.read_differIn hbehind (by change _ ≤ x.size.toNat; omega)
      rw [hkept, Nat.add_sub_cancel' (by omega)]
    simp only [Pipe.apply, State.pipe, hqueue, hwindow]

/-- What the input copies is what was sent first. -/
private theorem Inv.consume_pipe (h : Inv x tr s) {n : Nat} (hs : inputStep x s (.consume n) = some s') :
    Pipe.step x.size.toNat (s.pipe x) (.receive n) = some (s'.pipe x) := by
  obtain ⟨data, rfl, -, hn, hdata⟩ := h.consume_cases hs
  have hbounds := h.bounds
  have hwindow : s.window x = data.1 ++
      State.window x { s with input := s.input.received data s.input.task.available.head } := by
    change _ = data.1 ++ h.valid.output.block.read s.mem s.input.task.available.head.toNat
      (s.output.task.sequence.toNat - s.input.task.available.head.toNat)
    rw [State.window_eq h.valid, hdata, hn, ← CyclicBlock.read_append]
    congr 1
    omega
  have hlen : data.1.length = n := by rw [hdata, CyclicBlock.length_read]
  refine Pipe.step_eq_some.2 ⟨?_, ?_⟩
  · simp only [Pipe.Allowed, State.pipe, hwindow, List.length_append]
    omega
  · simp only [Pipe.apply, State.pipe, InputRing.payload_received, hwindow]
    rw [List.drop_left' hlen, List.take_left' hlen]

private theorem Inv.output_pipe (h : Inv x tr s) {a : OutputAct} (hs : outputStep x s a = some s') :
    (pipeAct (.output a) = none ∧ s'.pipe x = s.pipe x) ∨
      ∃ b, pipeAct (.output a) = some b ∧ Pipe.step x.size.toNat (s.pipe x) b = some (s'.pipe x) := by
  cases OutputStep.of_eq hs with
  | fill | fillError => exact .inr ⟨_, rfl, h.fill_pipe hs⟩
  | writeEmpty hempty =>
    refine .inr ⟨_, rfl, Pipe.step_eq_some.2 ⟨trivial, ?_⟩⟩
    simp only [Pipe.apply, State.pipe, List.isEmpty_iff.1 hempty, List.append_nil]
  | write =>
    refine .inr ⟨_, rfl, Pipe.step_eq_some.2 ⟨trivial, ?_⟩⟩
    simp only [Pipe.apply, State.pipe, payload, List.flatMap_append, List.flatMap_cons, List.flatMap_nil,
      List.append_nil]
    rfl
  | reportFlushed | keepFlushing =>
    exact .inl ⟨rfl, State.pipe_congr rfl (OutputRing.proceed_sequence _) rfl (OutputRing.proceed_buffer _) rfl⟩
  | pushFlush | close =>
    refine .inl ⟨rfl, ?_⟩
    simp [State.pipe, State.window, payload, BytesOrEof.data]
  | resume | yieldNow | unwrap | raiseFlush => exact .inl ⟨rfl, rfl⟩

private theorem Inv.input_pipe (h : Inv x tr s) {a : InputAct} (hs : inputStep x s a = some s') :
    (pipeAct (.input a) = none ∧ s'.pipe x = s.pipe x) ∨
      ∃ b, pipeAct (.input a) = some b ∧ Pipe.step x.size.toNat (s.pipe x) b = some (s'.pipe x) := by
  cases InputStep.of_eq hs with
  | consume | consumeError => exact .inr ⟨_, rfl, h.consume_pipe hs⟩
  | @wait r => cases r <;> exact .inl ⟨rfl, rfl⟩
  | acquire | acquireError | ioError | unwrap => exact .inl ⟨rfl, rfl⟩
  | read size =>
    have htask := s.input.read_task size
    cases hr : (s.input.read size).1 with
    | bytes l =>
      have hread := s.input.read_bytes size hr
      refine .inr ⟨_, rfl, Pipe.step_eq_some.2 ⟨⟨_, hread.symm⟩, ?_⟩⟩
      simp only [Pipe.apply, State.pipe, State.window, hread, List.drop_left, htask]
    | closed =>
      rw [s.input.read_closed size hr]
      exact .inl ⟨rfl, rfl⟩

/-- A step is one of the pipe, or none. -/
theorem Inv.pipe_step (h : Inv x tr s) (hs : ByteStream.step x s a = some s') :
    (pipeAct a = none ∧ s'.pipe x = s.pipe x) ∨
      ∃ b, pipeAct a = some b ∧ Pipe.step x.size.toNat (s.pipe x) b = some (s'.pipe x) := by
  cases a with
  | link e => exact .inl ⟨rfl, linkStep_pipe hs⟩
  | output a => exact h.output_pipe hs
  | input a => exact h.input_pipe hs

/-! ### What is read is what was written -/

/-- The bytes that the guest has written to the output. -/
def bytesWritten (tr : List Event) : List UInt8 :=
  tr.flatMap fun | .output (.write bytes) => bytes.1 | _ => []

/-- The bytes that reads from the input have returned. -/
def bytesRead (tr : List Event) : List UInt8 :=
  tr.flatMap fun | .input (.read _ (.bytes l)) => l | _ => []

@[simp] theorem bytesWritten_append (tr tr' : List Event) :
    bytesWritten (tr ++ tr') = bytesWritten tr ++ bytesWritten tr' := List.flatMap_append

theorem written_pipeAct (tr : List Event) : Pipe.written (tr.filterMap pipeAct) = bytesWritten tr := by
  induction tr with
  | nil => rfl
  | cons a tr ih =>
    rw [bytesWritten, List.flatMap_cons, List.filterMap_cons]
    change _ = _ ++ bytesWritten tr
    rw [← ih]
    cases h : pipeAct a with
    | none => unfold pipeAct at h; split at h <;> simp_all [Pipe.written]
    | some b => unfold pipeAct at h; split at h <;> simp_all [Pipe.written] <;> (cases h; rfl)

theorem taken_pipeAct (tr : List Event) : Pipe.taken (tr.filterMap pipeAct) = bytesRead tr := by
  induction tr with
  | nil => rfl
  | cons a tr ih =>
    rw [bytesRead, List.flatMap_cons, List.filterMap_cons]
    change _ = _ ++ bytesRead tr
    rw [← ih]
    cases h : pipeAct a with
    | none => unfold pipeAct at h; split at h <;> simp_all [Pipe.taken]
    | some b => unfold pipeAct at h; split at h <;> simp_all [Pipe.taken] <;> (cases h; rfl)

/-- A fill that fits its window loses nothing. -/
theorem lossless_of_fills {tr : List Event} (h : ∀ copied lost, .output (.fill copied lost) ∈ tr → lost = 0) :
    ∀ b ∈ tr.filterMap pipeAct, Pipe.Lossless b := by
  intro b hb
  obtain ⟨a, ha, hab⟩ := List.mem_filterMap.1 hb
  unfold pipeAct at hab
  split at hab <;> cases hab
  · exact trivial
  · exact h _ _ ha
  · exact trivial
  · exact trivial

end Pipe

end ByteStream

end ShmRing
