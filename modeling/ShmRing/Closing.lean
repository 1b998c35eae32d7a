import ShmRing.Marker
import ShmRing.Whole
import Mathlib.Data.List.DropRight

/-!
# The end of a stream

A guest reads the end of the stream only behind all bytes that were sent, and these are those that were written before
the output was closed; and once it has read the end, it reads nothing else (`closed_of_run`).
-/

namespace ShmRing

open Machine Bytes Transition

namespace ByteStream

/-- The steps from the first `close` on. -/
def sinceClose (tr : List Event) : List Event := tr.dropWhile (· ≠ .output .close)

/-- The steps before the first `close`. -/
def beforeClose (tr : List Event) : List Event := tr.takeWhile (· ≠ .output .close)

/-- The frames from the first end marker on. -/
def behind (full : List BytesOrEof) : List BytesOrEof := full.dropWhile BytesOrEof.isSome

private theorem isEmpty_snoc {α : Type} (l : List α) (a : α) : (l ++ [a]).isEmpty = false := by simp

section

variable {tr : List Event} {a : Event} {full rest : List BytesOrEof} {frame : BytesOrEof}

private theorem sinceClose_append (ha : a ≠ .output .close) :
    sinceClose (tr ++ [a]) = if (sinceClose tr).isEmpty then [] else sinceClose tr ++ [a] := by
  rw [sinceClose, List.dropWhile_append]
  split
  · rename_i hempty
    rw [sinceClose, if_pos hempty]
    simp [ha]
  · rename_i hempty
    rw [sinceClose, if_neg hempty]

private theorem behind_append (full rest : List BytesOrEof) :
    behind (full ++ rest) = if (behind full).isEmpty then behind rest else behind full ++ rest :=
  List.dropWhile_append

/-- The end marker is in a queue if it is not behind an end. -/
theorem eof_mem_iff : BytesOrEof.eof ∈ full ↔ behind full ≠ [] := by
  induction full with
  | nil => simp [behind]
  | cons frame full ih =>
    cases frame with
    | some bytes => simpa [behind, BytesOrEof.isSome] using ih
    | eof => simp [behind, BytesOrEof.isSome]

private theorem head?_behind (h : full.head? = some .eof) : behind full = full := by
  cases full with
  | nil => cases h
  | cons frame full =>
    cases h
    rfl

theorem payload_append (full rest : List BytesOrEof) : payload (full ++ rest) = payload full ++ payload rest :=
  List.flatMap_append

private theorem payload_behind_append (hf : payload (behind full) = []) (hr : payload (behind rest) = [])
    (hnone : .eof ∈ full → payload rest = []) : payload (behind (full ++ rest)) = [] := by
  rw [behind_append]
  split
  · exact hr
  · rename_i hempty
    rw [payload_append, hf, List.nil_append]
    exact hnone (eof_mem_iff.2 fun hnil => hempty (List.isEmpty_iff.2 hnil))

end

section

variable {i : InputRing} {data : Slice} {sequence : UInt64}

theorem behind_read (i : InputRing) (size : Nat) : behind (i.read size).2.buffer = behind i.buffer := by
  unfold InputRing.read
  split
  · rfl
  · rfl
  · rename_i hbuffer
    dsimp only
    split <;> (rw [hbuffer]; rfl)

private theorem eof_mem_received (h : .eof ∈ (i.received data sequence).buffer) :
    .eof ∈ i.buffer ∨ i.task.available.eof = true := by
  simp only [InputRing.received, List.mem_append] at h
  rcases h with (h | h) | h
  · exact .inl h
  · split at h
    · cases List.mem_singleton.1 h
    · cases h
  · split at h
    · rename_i heof
      exact .inr (Bool.and_eq_true_iff.1 heof).1
    · cases h

/-- Behind the end there are end markers only if no data is received behind it. -/
private theorem behind_received (hnone : .eof ∈ i.buffer → data.1 = []) (h : payload (behind i.buffer) = []) :
    payload (behind (i.received data sequence).buffer) = [] := by
  have hdata : .eof ∈ i.buffer → payload (if !data.1.isEmpty then [.some data] else []) = [] := by
    intro hmem
    rw [hnone hmem]
    rfl
  have hend : ∀ b : Bool, payload (if b then [BytesOrEof.eof] else []) = [] ∧
      payload (behind (if b then [BytesOrEof.eof] else [])) = [] := by
    intro b
    cases b <;> exact ⟨rfl, rfl⟩
  refine payload_behind_append (payload_behind_append h ?_ hdata) (hend _).2 fun _ => (hend _).1
  split <;> rfl

end

/-- The invariant: what is known of the end, from where it is written to where it is read. -/
structure Closing (x : Ctx) (tr : List Event) (s : State) : Prop where
  sender : (∃ f, s.input.task.pc = .aborted f) ∨
    ∃ e, Ending s.output (channel x.side tr) s.input.task.available e
  /-- The end is not sent before it is next in the queue. -/
  front : s.output.pendingEof = true → s.output.buffer.head? = some .eof
  received : s.input.task.available.eof = true →
    s.output.pendingEof = true ∧ s.output.task.sequence = s.input.task.available.head
  arrived : .eof ∈ s.input.buffer →
    s.input.task.available.eof = true ∧ s.input.task.sequence = s.input.task.available.head
  last : payload (behind s.input.buffer) = []
  closed : (behind s.output.buffer).isEmpty = (sinceClose tr).isEmpty
  queue : payload (behind s.output.buffer) = bytesWritten (sinceClose tr)

namespace Closing

variable {x : Ctx} {y : Duplex.Ctx Mem Entry} {m : Mem} {cap : Nat} {tr : List Event} {s s' : State} {a : Event}

theorem new (x : Ctx) (m : Mem) : Closing x [] (.new x m) where
  sender := .inr ⟨false, Ending.new x⟩
  front := nofun
  received := nofun
  arrived := nofun
  last := rfl
  closed := rfl
  queue := rfl

/-- A step by which no guest writes or closes. -/
private theorem trace_same (tr : List Event) (ha : a ≠ .output .close) (hw : bytesWritten [a] = []) :
    (sinceClose (tr ++ [a])).isEmpty = (sinceClose tr).isEmpty ∧
      bytesWritten (sinceClose (tr ++ [a])) = bytesWritten (sinceClose tr) := by
  rw [sinceClose_append ha]
  split
  · rename_i hempty
    rw [List.isEmpty_iff.1 hempty]
    exact ⟨rfl, rfl⟩
  · rename_i hempty
    refine ⟨?_, ?_⟩
    · rw [Bool.eq_false_iff.2 hempty]
      simp
    · rw [bytesWritten, List.flatMap_append]
      change _ ++ bytesWritten [a] = _
      rw [hw, List.append_nil]
      rfl

/-- The input takes a position, or the end. -/
private theorem input_reap (h : Closing x tr s) (hinv : Inv x tr s) {a : Duplex.ConsumeAct Entry} {i : InputRing}
    (hl : Linked cap tr s (.link (.consume x.side.not a))) (hi : s.input.reap x a = some i) :
    Closing x (tr ++ [.link (.consume x.side.not a)]) { s with input := i } := by
  obtain ⟨hclosed, hqueue⟩ := trace_same (a := .link (.consume x.side.not a)) tr nofun rfl
  obtain ⟨t, ht, rfl⟩ := Option.map_eq_some_iff.1 hi
  have hact := Duplex.chanAct_consume_not x.side a
  -- the task is not aborted
  obtain ⟨e, he⟩ : ∃ e, Ending s.output (channel x.side tr) s.input.task.available e := by
    refine h.sender.resolve_left ?_
    rintro ⟨f, hf⟩
    rcases (Task.reap_pc ht).1 with hpc | ⟨p, hpc⟩ <;> cases hpc.symm.trans hf
  rcases Task.reap_cases ht with ⟨data, rfl, rfl⟩ | ⟨hnext, pc, hpc, rfl⟩
  · have hallowed : Chan.Allowed cap (channel x.side tr) (.take data) := hl _ _ _ rfl hact
    have hpending := Chan.pending_take hallowed
    -- after the end there is nothing to take
    have heof : s.input.task.available.eof = false := by
      by_contra heof
      rw [(he.of_eof (eq_true_of_ne_false heof)).2.2] at hpending
      cases hpending
    have hnone : .eof ∉ s.input.buffer := fun hmem => by
      rw [(h.arrived hmem).1] at heof
      cases heof
    have htake := he.take hallowed
    rcases Task.receive_cases (x.build.addU32 · 1) id (hinv.input_next_le hl) with ⟨f, -, hr⟩ | ⟨n, -, hr⟩
    · rw [hr]
      refine ⟨.inl ⟨f, rfl⟩, h.front, h.received, h.arrived, h.last, h.closed.trans hclosed.symm,
        h.queue.trans hqueue.symm⟩
    · rw [hr]
      refine ⟨.inr ⟨e, ?_⟩, h.front, fun heof' => ?_, fun hmem => absurd hmem hnone, h.last,
        h.closed.trans hclosed.symm, h.queue.trans hqueue.symm⟩
      · rw [channel_consume_not]
        exact htake
      · exact ⟨(htake.of_eof heof').1, (htake.of_eof heof').2.1⟩
  · refine ⟨.inr ⟨e, ?_⟩, h.front, h.received, h.arrived, h.last, h.closed.trans hclosed.symm,
      h.queue.trans hqueue.symm⟩
    rw [channel_consume_not]
    refine he.consume hnext fun hdrop => hinv.input_synced ?_
    subst hdrop
    exact Task.reap_drop ht

/-- An access to the ring. -/
private theorem link (h : Closing x tr s) (hinv : Inv x tr s) {e : Duplex.Event Entry} (hl : Linked cap tr s (.link e))
    (hs : linkStep x s e = some s') : Closing x (tr ++ [.link e]) s' := by
  obtain ⟨hclosed, hqueue⟩ := trace_same (a := .link e) tr nofun rfl
  rcases linkStep_cases hs with ⟨a, o, rfl, ho, rfl⟩ | ⟨a, i, rfl, hi, rfl⟩ | ⟨a, o, rfl, ho, rfl⟩ |
    ⟨a, i, rfl, hi, rfl⟩
  · have hsender := h.sender.imp_right fun ⟨e, he⟩ => he.announce hinv.announced.read_le ho
    obtain ⟨t, sent, ht, rfl⟩ := OutputRing.announce_task ho
    have hseq := (Task.announce_same ht).1
    refine ⟨by rw [channel_produce]; exact hsender, h.front, ?_, h.arrived, h.last, h.closed.trans hclosed.symm,
      h.queue.trans hqueue.symm⟩
    simp only [hseq]
    exact h.received
  · obtain ⟨t, ht, rfl⟩ := Option.map_eq_some_iff.1 hi
    have hsame := Task.announce_same ht
    obtain ⟨p, hp⟩ := (Task.announce_pc ht).1
    refine ⟨?_, h.front, ?_, ?_, h.last, h.closed.trans hclosed.symm, h.queue.trans hqueue.symm⟩
    · rw [channel_produce_not]
      simp only [hsame]
      rcases h.sender with ⟨f, hf⟩ | hsender
      · cases hp.symm.trans hf
      · exact .inr hsender
    · simp only [hsame]
      exact h.received
    · simp only [hsame]
      exact h.arrived
  · obtain ⟨t, ht, rfl⟩ := Option.map_eq_some_iff.1 ho
    have hsame := Task.reap_same ht
    obtain ⟨hpc, hpc'⟩ := Task.reap_pc ht
    refine ⟨?_, h.front, ?_, h.arrived, h.last, h.closed.trans hclosed.symm, h.queue.trans hqueue.symm⟩
    · rw [channel_consume]
      refine h.sender.imp_right fun ⟨e, he⟩ => ⟨e, he.idle ?_ hpc' hsame.2 rfl ?_ ?_⟩
      · rcases hpc with hpc | ⟨p, hpc⟩ <;> rw [hpc] <;> nofun
      · exact Nat.le_of_eq (by rw [hsame.1])
      · exact fun hpending => ⟨hpending, hsame.1⟩
    · simp only [hsame]
      exact h.received
  · exact h.input_reap hinv hl hi

/-- A step of the output that is no access to the ring. -/
private theorem of_output (h : Closing x tr s) {a : OutputAct} (hi : s'.input = s.input)
    (hclosed : (behind s'.output.buffer).isEmpty = (sinceClose (tr ++ [.output a])).isEmpty)
    (hqueue : payload (behind s'.output.buffer) = bytesWritten (sinceClose (tr ++ [.output a])))
    (hfront : s'.output.pendingEof = true → s'.output.buffer.head? = some .eof)
    (hpending : s.output.pendingEof = true →
      s'.output.pendingEof = true ∧ s'.output.task.sequence = s.output.task.sequence)
    (hsender : ∀ e, Ending s.output (channel x.side tr) s.input.task.available e →
      Ending s'.output (channel x.side tr) s.input.task.available e) : Closing x (tr ++ [.output a]) s' where
  sender := by
    rw [channel_of_access_none _ _ rfl, hi]
    exact h.sender.imp_right fun ⟨e, he⟩ => ⟨e, hsender e he⟩
  front := hfront
  received heof := by
    rw [hi] at heof ⊢
    obtain ⟨hp, hseq⟩ := h.received heof
    exact ⟨(hpending hp).1, (hpending hp).2.trans hseq⟩
  arrived := by rw [hi]; exact h.arrived
  last := by rw [hi]; exact h.last
  closed := hclosed
  queue := hqueue

/-- The task of the output moves on. -/
private theorem of_output_task (h : Closing x tr s) {a : OutputAct} (ha : a ≠ .close)
    (hw : bytesWritten [.output a] = []) (hi : s'.input = s.input) (hb : s'.output.buffer = s.output.buffer)
    (hp : s'.output.pendingEof = s.output.pendingEof) (hseq : s'.output.task.sequence = s.output.task.sequence)
    (hsender : ∀ e, Ending s.output (channel x.side tr) s.input.task.available e →
      Ending s'.output (channel x.side tr) s.input.task.available e) : Closing x (tr ++ [.output a]) s' := by
  obtain ⟨hclosed, hqueue⟩ := trace_same (a := .output a) tr (fun heq => ha (Event.output.inj heq)) hw
  refine h.of_output hi ?_ ?_ ?_ ?_ hsender
  · rw [hb]
    exact h.closed.trans hclosed.symm
  · rw [hb]
    exact h.queue.trans hqueue.symm
  · rw [hb, hp]
    exact h.front
  · rw [hp]
    exact fun hpending => ⟨hpending, hseq⟩

/-- The guest adds to the queue. -/
private theorem of_push (h : Closing x tr s) {a : OutputAct} {frame : BytesOrEof}
    (hclosed : (behind (s.output.buffer ++ [frame])).isEmpty = (sinceClose (tr ++ [.output a])).isEmpty)
    (hqueue : payload (behind (s.output.buffer ++ [frame])) = bytesWritten (sinceClose (tr ++ [.output a]))) :
    Closing x (tr ++ [.output a]) { s with output.buffer := s.output.buffer ++ [frame] } := by
  refine h.of_output rfl hclosed hqueue (fun hpending => ?_) (fun hpending => ⟨hpending, rfl⟩) fun e he => ?_
  · have hfront := h.front hpending
    simp only [List.head?_append, hfront, Option.some_or]
  · exact ⟨he.marked, he.phase, he.released_le, he.before, he.written, he.sent, he.ended⟩

/-- A frame behind the end is a write since the close, and one before it is none. -/
private theorem push_queue (h : Closing x tr s) {a : OutputAct} (bytes : Slice) (ha : a ≠ .close)
    (hw : bytesWritten [.output a] = bytes.1) :
    (behind (s.output.buffer ++ [.some bytes])).isEmpty = (sinceClose (tr ++ [.output a])).isEmpty ∧
      payload (behind (s.output.buffer ++ [.some bytes])) = bytesWritten (sinceClose (tr ++ [.output a])) := by
  have hclosed := h.closed
  have hqueue := h.queue
  rw [behind_append, sinceClose_append (fun heq => ha (Event.output.inj heq)), ← hclosed]
  split
  · exact ⟨rfl, rfl⟩
  · refine ⟨by rw [isEmpty_snoc, isEmpty_snoc], ?_⟩
    rw [payload_append, hqueue, bytesWritten, bytesWritten, List.flatMap_append]
    congr 1
    change bytes.1 ++ [] = _
    rw [List.append_nil, ← hw]
    rfl

private theorem close_queue (h : Closing x tr s) :
    (behind (s.output.buffer ++ [.eof])).isEmpty = (sinceClose (tr ++ [.output .close])).isEmpty ∧
      payload (behind (s.output.buffer ++ [.eof])) = bytesWritten (sinceClose (tr ++ [.output .close])) := by
  have hclosed := h.closed
  have hqueue := h.queue
  rw [behind_append, sinceClose, List.dropWhile_append]
  change _ = (if (sinceClose tr).isEmpty = true then _ else sinceClose tr ++ _).isEmpty ∧
    _ = bytesWritten (if (sinceClose tr).isEmpty = true then _ else sinceClose tr ++ _)
  rw [← hclosed]
  split
  · exact ⟨rfl, rfl⟩
  · refine ⟨by rw [isEmpty_snoc, isEmpty_snoc], ?_⟩
    rw [payload_append, hqueue, bytesWritten, bytesWritten, List.flatMap_append]
    rfl

/-- With the end marker in front, nothing is filled in. -/
private theorem fill (h : Closing x tr s) (hinv : Inv x tr s) {copied lost : Nat}
    (hs : outputStep x s (.fill copied lost) = some s') : Closing x (tr ++ [.output (.fill copied lost)]) s' := by
  obtain ⟨out, hfills, rfl, hpc, -⟩ := hinv.fill_cases hs
  have hfull : out.full = behind s.output.buffer := hfills.full_eq
  have hbehind : behind out.full = behind s.output.buffer := by
    rw [hfull]
    exact List.dropWhile_idempotent ..
  have hstay : s.output.pendingEof = true → out.start = s.output.task.sequence ∧ out.full.head? = some .eof := by
    intro hpending
    have hfront := h.front hpending
    have hahead : ahead s.output.buffer = [] := by
      cases hb : s.output.buffer with
      | nil => rfl
      | cons frame rest =>
        rw [hb] at hfront
        cases hfront
        rfl
    have hstart := hfills.start_eq
    rw [hahead] at hstart
    refine ⟨UInt64.toNat_inj.1 (hstart.trans (by simp)), ?_⟩
    rw [hfull, head?_behind hfront, hfront]
  have hworking : ∀ p, s.output.task.pc ≠ .announcing p := by
    intro p
    rw [hpc.1]
    nofun
  obtain ⟨hclosed, hqueue⟩ := trace_same (a := .output (.fill copied lost)) tr nofun rfl
  refine h.of_output rfl ?_ ?_ ?_ ?_ ?_
  · rw [OutputRing.filled, OutputRing.proceed_buffer, hbehind]
    exact h.closed.trans hclosed.symm
  · rw [OutputRing.filled, OutputRing.proceed_buffer, hbehind]
    exact h.queue.trans hqueue.symm
  · simp only [OutputRing.filled, OutputRing.proceed_buffer, OutputRing.proceed_pendingEof, Bool.or_eq_true]
    rintro (hpending | hat)
    · exact (hstay hpending).2
    · unfold OutputRing.isAtEof at hat
      split at hat
      · assumption
      · cases hat
  · intro hpending
    simp only [OutputRing.filled, OutputRing.proceed_pendingEof, OutputRing.proceed_sequence, hpending, Bool.true_or]
    exact ⟨trivial, (hstay hpending).1⟩
  · intro e he
    have hle := hfills.start_eq
    have hfilled : Ending { s.output with
        buffer := out.full
        task := { s.output.task with sequence := out.start }
        outstandingFlush := UInt64.ofNat out.flushes
        pendingEof := s.output.pendingEof || OutputRing.isAtEof out.full } (channel x.side tr)
        s.input.task.available e := by
      refine he.idle hworking hworking rfl rfl ?_ fun hpending => ⟨?_, (hstay hpending).1⟩
      · simp only
        omega
      · simp only [hpending, Bool.true_or]
    exact hfilled.proceed hworking

private theorem output_step (h : Closing x tr s) (hinv : Inv x tr s) {a : OutputAct} (hs : outputStep x s a = some s') :
    Closing x (tr ++ [.output a]) s' := by
  cases OutputStep.of_eq hs with
  | fill | fillError => exact h.fill hinv hs
  | writeEmpty hempty =>
    rename_i bytes
    refine h.of_output_task nofun ?_ rfl rfl rfl rfl fun e he => he
    exact (List.append_nil _).trans (List.isEmpty_iff.1 hempty)
  | @write bytes =>
    obtain ⟨hclosed, hqueue⟩ := h.push_queue (a := .write bytes) bytes nofun (List.append_nil _)
    exact h.of_push hclosed hqueue
  | pushFlush =>
    obtain ⟨hclosed, hqueue⟩ := h.push_queue (a := .pushFlush) ⟨[], by decide⟩ nofun rfl
    exact h.of_push hclosed hqueue
  | close => exact h.of_push h.close_queue.1 h.close_queue.2
  | raiseFlush =>
    exact h.of_output_task nofun rfl rfl rfl rfl rfl fun e he =>
      ⟨he.marked, he.phase, he.released_le, he.before, he.written, he.sent, he.ended⟩
  | resume hpc | yieldNow hpc =>
    refine h.of_output_task nofun rfl rfl rfl rfl rfl fun e he => he.idle ?_ nofun rfl rfl (Nat.le_refl _) ?_
    · rw [hpc]
      nofun
    · exact fun hpending => ⟨hpending, rfl⟩
  | unwrap hopen =>
    exact h.of_output_task nofun rfl rfl rfl rfl rfl fun e he => he.abort (Pc.openFault_pc hopen) _
  | reportFlushed hpc | keepFlushing hpc =>
    refine h.of_output_task nofun rfl rfl (OutputRing.proceed_buffer _) (OutputRing.proceed_pendingEof _)
      (OutputRing.proceed_sequence _) fun e he => Ending.proceed ?_ ?_
    · exact ⟨he.marked, he.phase, he.released_le, he.before, he.written, he.sent, he.ended⟩
    · intro p
      simp only [hpc]
      nofun

/-- A step of the input that is no access to the ring. -/
private theorem of_input (h : Closing x tr s) {a : InputAct} (hs : s'.output = s.output)
    (hav : s'.input.task.available = s.input.task.available)
    (hpc : ∀ f, s.input.task.pc = .aborted f → s'.input.task.pc = .aborted f)
    (harrived : .eof ∈ s'.input.buffer →
      s.input.task.available.eof = true ∧ s'.input.task.sequence = s.input.task.available.head)
    (hlast : payload (behind s'.input.buffer) = []) : Closing x (tr ++ [.input a]) s' := by
  obtain ⟨hclosed, hqueue⟩ := trace_same (a := .input a) tr nofun rfl
  refine ⟨?_, by rw [hs]; exact h.front, ?_, ?_, hlast, ?_, ?_⟩
  · rw [channel_of_access_none _ _ rfl, hs, hav]
    exact h.sender.imp_left fun ⟨f, hf⟩ => ⟨f, hpc f hf⟩
  · rw [hs, hav]
    exact h.received
  · rw [hav]
    exact harrived
  · rw [hs]
    exact h.closed.trans hclosed.symm
  · rw [hs]
    exact h.queue.trans hqueue.symm

/-- Behind the end there is nothing to copy. -/
theorem nothing_behind (h : Closing x tr s) (hmem : .eof ∈ s.input.buffer) {n : Nat}
    (hn : s.input.task.available.head.toNat = s.input.task.sequence.toNat + n) : n = 0 := by
  have hseq := congrArg UInt64.toNat (h.arrived hmem).2
  omega

/-- Behind the end marker only end markers are pushed. -/
private theorem consume (h : Closing x tr s) (hinv : Inv x tr s) {n : Nat} (hs : inputStep x s (.consume n) = some s') :
    Closing x (tr ++ [.input (.consume n)]) s' := by
  obtain ⟨data, rfl, hpc, hn, hdata⟩ := hinv.consume_cases hs
  have hnone : .eof ∈ s.input.buffer → data.1 = [] := by
    intro hmem
    rw [hdata, h.nothing_behind hmem hn]
    rfl
  refine h.of_input rfl rfl (fun f hf => ?_) (fun hmem => ⟨?_, rfl⟩) (behind_received hnone h.last)
  · cases hpc.symm.trans hf
  · rcases eof_mem_received hmem with hmem | heof
    · exact (h.arrived hmem).1
    · exact heof

private theorem input_step (h : Closing x tr s) (hinv : Inv x tr s) {a : InputAct} (hs : inputStep x s a = some s') :
    Closing x (tr ++ [.input a]) s' := by
  cases InputStep.of_eq hs with
  | consume | consumeError => exact h.consume hinv hs
  | acquire hpc | acquireError hpc | ioError hpc =>
    refine h.of_input rfl rfl (fun f hf => ?_) h.arrived h.last
    cases hpc.symm.trans hf
  | unwrap hopen =>
    refine h.of_input rfl rfl (fun f hf => ?_) h.arrived h.last
    rcases Pc.openFault_pc hopen with hpc | hpc <;> cases hpc.symm.trans hf
  | @wait r hpc =>
    have hf : ∀ f, s.input.task.pc ≠ .aborted f := by
      intro f hf
      cases hpc.symm.trans hf
    cases r <;> exact h.of_input rfl rfl (fun f hf' => absurd hf' (hf f)) h.arrived h.last
  | read size =>
    have htask := s.input.read_task size
    refine h.of_input rfl (by rw [htask]) (fun f hf => by rw [htask]; exact hf) ?_ ?_
    · rw [htask, eof_mem_iff, behind_read, ← eof_mem_iff]
      exact h.arrived
    · rw [behind_read]
      exact h.last

theorem step (h : Closing x tr s) (hinv : Inv x tr s) (hl : Linked cap tr s a)
    (hs : ByteStream.step x s a = some s') : Closing x (tr ++ [a]) s' := by
  cases a with
  | link e => exact h.link hinv hl hs
  | output a => exact h.output_step hinv hs
  | input a => exact h.input_step hinv hs

end Closing

/-! ### Behind the end -/

/-- A guest that has read the end reads nothing else. -/
structure Final (tr : List Event) (s : State) : Prop where
  front : ∀ size, .input (.read size .closed) ∈ tr → s.input.buffer.head? = some .eof
  reads : tr.Pairwise fun a b => ∀ size size' r, a = .input (.read size .closed) → b = .input (.read size' r) →
    r = .closed

namespace Final

variable {x : Ctx} {tr : List Event} {s s' : State} {a : Event} {i : InputRing}

private theorem head?_read (h : i.buffer.head? = some .eof) (size : Nat) : i.read size = (.closed, i) := by
  unfold InputRing.read
  split
  · rename_i hbuffer
    rw [hbuffer] at h
    cases h
  · rfl
  · rename_i hbuffer
    rw [hbuffer] at h
    cases h

private theorem head?_of_closed {size : Nat} (h : (i.read size).1 = .closed) : i.buffer.head? = some .eof := by
  unfold InputRing.read at h
  split at h
  · cases h
  · rename_i hbuffer
    rw [hbuffer]
    rfl
  · dsimp only at h
    split at h <;> cases h

private theorem head?_consume (hinv : Inv x tr s) {n : Nat} (hs : inputStep x s (.consume n) = some s')
    (h : s.input.buffer.head? = some .eof) : s'.input.buffer.head? = some .eof := by
  obtain ⟨data, rfl, -⟩ := hinv.consume_cases hs
  simp only [InputRing.received, List.head?_append, h, Option.some_or]

/-- A step that is no read. -/
private theorem snoc (h : Final tr s) (ha : ∀ size r, a ≠ .input (.read size r))
    (hfront : s.input.buffer.head? = some .eof → s'.input.buffer.head? = some .eof) : Final (tr ++ [a]) s' where
  front size hmem := by
    rcases List.mem_append.1 hmem with hmem | hmem
    · exact hfront (h.front size hmem)
    · exact absurd (List.mem_singleton.1 hmem).symm (ha _ _)
  reads := List.pairwise_append.2 ⟨h.reads, List.pairwise_singleton .., fun b _ c hc size size' r _ heq =>
    absurd (List.mem_singleton.1 hc ▸ heq) (ha _ _)⟩

private theorem read (h : Final tr s) (size : Nat) :
    Final (tr ++ [.input (.read size (s.input.read size).1)]) { s with input := (s.input.read size).2 } where
  front size' hmem := by
    have hhead : s.input.buffer.head? = some .eof := by
      rcases List.mem_append.1 hmem with hmem | hmem
      · exact h.front size' hmem
      · have heq := List.mem_singleton.1 hmem
        simp only [Event.input.injEq, InputAct.read.injEq] at heq
        exact head?_of_closed heq.2.symm
    rw [head?_read hhead]
    exact hhead
  reads := by
    refine List.pairwise_append.2 ⟨h.reads, List.pairwise_singleton .., ?_⟩
    rintro b hb c hc size' size'' r rfl rfl
    have heq := List.mem_singleton.1 hc
    simp only [Event.input.injEq, InputAct.read.injEq] at heq
    rw [heq.2, head?_read (h.front size' hb)]

theorem step (h : Final tr s) (hinv : Inv x tr s) (hs : ByteStream.step x s a = some s') :
    Final (tr ++ [a]) s' := by
  cases a with
  | link e =>
    refine h.snoc nofun ?_
    rcases linkStep_cases hs with ⟨b, o, rfl, ho, rfl⟩ | ⟨b, i, rfl, hi, rfl⟩ | ⟨b, o, rfl, ho, rfl⟩ |
      ⟨b, i, rfl, hi, rfl⟩
    · exact id
    · obtain ⟨t, -, rfl⟩ := Option.map_eq_some_iff.1 hi
      exact id
    · exact id
    · obtain ⟨t, -, rfl⟩ := Option.map_eq_some_iff.1 hi
      exact id
  | output b =>
    refine h.snoc nofun ?_
    cases OutputStep.of_eq hs <;> exact id
  | input b =>
    cases InputStep.of_eq hs with
    | read size => exact h.read size
    | @wait r => cases r <;> exact h.snoc nofun id
    | acquire | acquireError | ioError | unwrap => exact h.snoc nofun id
    | consume | consumeError =>
      exact h.snoc nofun (head?_consume hinv hs)

end Final

/-! ### The end of the stream -/

/-- What a guest has read that reads the end behind `tr`, and what it reads behind that, in `tr'`. -/
structure Closed (tr tr' : List Event) : Prop where
  closed : .output .close ∈ tr
  subsequence : (bytesRead tr).Sublist (bytesWritten (beforeClose tr))
  complete : (∀ copied lost, .output (.fill copied lost) ∈ tr → lost = 0) →
    bytesRead tr = bytesWritten (beforeClose tr)
  final : ∀ size r, .input (.read size r) ∈ tr' → r = .closed

section Runs

variable {x : Ctx} {y : Duplex.Ctx Mem Entry} {m : Mem} {tr tr' : List Event} {w : Whole}

theorem closing_of_run (hm : Opened x y m) (h : RunWhere (Whole.step x y) (KeepsApart y) (.new x m) tr w) :
    Closing x tr w.stream ∧ Final tr w.stream := by
  refine Whole.invariant (I := fun tr s => Closing x tr s ∧ Final tr s) hm h ⟨Closing.new x m, nofun, .nil⟩ ?_ ?_
  · rintro tr s a s' hinv hl ⟨hc, hf⟩ hs
    exact ⟨hc.step hinv hl hs, hf.step hinv hs⟩
  · rintro tr s m' - - - ⟨hc, hf⟩
    exact ⟨⟨hc.sender, hc.front, hc.received, hc.arrived, hc.last, hc.closed, hc.queue⟩, hf.front, hf.reads⟩

/-- When the end is next to be read, what was written since the output was closed is all that is in the stream. -/
private theorem content_at_end (h : Closing x tr w.stream) (hhead : w.stream.input.buffer.head? = some .eof) :
    .output .close ∈ tr ∧ (w.stream.pipe x).content = bytesWritten (sinceClose tr) := by
  have harrived := h.arrived (List.mem_of_mem_head? hhead)
  obtain ⟨hpending, hseq⟩ := h.received harrived.1
  have hfront := h.front hpending
  have hlast := h.last
  have hqueue := h.queue
  rw [head?_behind hhead] at hlast
  rw [head?_behind hfront] at hqueue
  refine ⟨?_, ?_⟩
  · have hclosed := h.closed
    rw [head?_behind hfront, List.isEmpty_eq_false_iff.2 (by rintro hnil; rw [hnil] at hfront; cases hfront)] at hclosed
    by_contra hnone
    rw [sinceClose, List.dropWhile_eq_nil_iff.2 fun a ha => ?_] at hclosed
    · cases hclosed
    · exact decide_eq_true fun heq => hnone (heq ▸ ha)
  · have hwindow : w.stream.window x = [] := by
      rw [State.window, hseq, harrived.2, Nat.sub_self]
      rfl
    rw [Pipe.content]
    simp only [State.pipe, hlast, hwindow, hqueue, List.nil_append]

theorem closed_of_run {size : Nat} (hm : Opened x y m)
    (h : RunWhere (Whole.step x y) (KeepsApart y) (.new x m) (tr ++ .input (.read size .closed) :: tr') w) :
    Closed tr tr' := by
  obtain ⟨w₁, w₂, h₁, -, hs⟩ := h.of_append
  have hhead : w₁.stream.input.buffer.head? = some .eof := by
    rcases Whole.step_cases hs with ⟨e, s, he, -⟩ | ⟨-, hs, -⟩
    · cases he
    · simp only [ByteStream.step, inputStep] at hs
      split at hs
      · rename_i hr
        exact Final.head?_of_closed hr
      · cases hs
  obtain ⟨hclosing, -⟩ := closing_of_run hm h₁
  obtain ⟨-, hfinal⟩ := closing_of_run hm h
  obtain ⟨hclose, hcontent⟩ := content_at_end hclosing hhead
  have hpipe := Whole.pipe_of_run hm h₁
  have hsplit : bytesWritten tr = bytesWritten (beforeClose tr) ++ bytesWritten (sinceClose tr) := by
    rw [bytesWritten, bytesWritten, bytesWritten, ← List.flatMap_append]
    congr 1
    exact (List.takeWhile_append_dropWhile ..).symm
  refine ⟨hclose, ?_, fun hlost => ?_, fun size' r hr => ?_⟩
  · have hsub := Pipe.sublist_of_run hpipe
    rw [taken_pipeAct, written_pipeAct, hcontent, hsplit] at hsub
    exact (List.append_sublist_append_right _).1 hsub
  · have heq := Pipe.prefix_of_run hpipe (lossless_of_fills hlost)
    rw [taken_pipeAct, written_pipeAct, hcontent, hsplit] at heq
    exact List.append_cancel_right heq
  · have hpairs := (List.pairwise_append.1 hfinal.reads).2.1
    exact List.rel_of_pairwise_cons hpairs hr size size' r rfl rfl

def oneTwoThree : Slice := ⟨[1, 2, 3], by decide⟩

/-- Three bytes are written, the output is closed, and the three bytes are read; what is written behind is not. -/
def lastBytes : List Event :=
  [.output (.write oneTwoThree), .output .close, .output (.write oneTwoThree), .output .resume] ++
    reaping .left [] ++ [.output (.fill 3 0)] ++ announcing .left 0 3 ++ [.output .yieldNow, .output .resume] ++
    reaping .left [] ++ [.output .keepFlushing] ++ announcing .left 1 3 ++ [.output .yieldNow, .input .acquire] ++
    reaping .right [toLeBytes 3, toLeBytes 3] ++ [.input (.consume 3), .input (.read 8 (.bytes [1, 2, 3]))]

theorem closed_of_run_lastBytes :
    Closed lastBytes [.input (.read 1 .closed)] ∧ bytesWritten (beforeClose lastBytes) = [1, 2, 3] := by
  obtain ⟨w, hw⟩ : ∃ w : Whole, execWhere (Whole.step streamCtx streamRing) (KeepsApart streamRing) []
      (.new streamCtx streamMem) (lastBytes ++ .input (.read 8 .closed) :: [.input (.read 1 .closed)]) = some w :=
    Option.isSome_iff_exists.1 (by decide +kernel)
  exact ⟨closed_of_run opened_stream (RunWhere.nil.exec hw), by decide⟩

end Runs

end ByteStream

end ShmRing
