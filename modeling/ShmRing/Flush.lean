import ShmRing.Closing

/-!
# What a flush promises

A guest that flushes is told to wait until all that it had written is in the hands of the input.  The output counts the
empty frames of its queue, and reports them when it has been granted a whole window behind what it has released.  This
is so if the output never finds the ring full, since it compares with what it has announced and not with what it has
written (`flushed_of_run`).
-/

namespace ShmRing

open Machine Bytes Transition

namespace ByteStream

/-- The two steps of a call of `flush`. -/
def Event.isFlush : Event → Bool
  | .output .raiseFlush | .output .pushFlush => true
  | _ => false

/-- The number of flushes that were pushed. -/
def flushes (tr : List Event) : Nat := tr.count (.output .pushFlush)

def raised (tr : List Event) : Nat := tr.count (.output .raiseFlush)

/-- What was written before one of the first `n` flushes is no more than `k` bytes. -/
def Before (tr : List Event) (n k : Nat) : Prop :=
  ∀ tr₁ tr₂, tr = tr₁ ++ .output .pushFlush :: tr₂ → flushes tr₁ < n → (bytesWritten tr₁).length ≤ k

/-- When a flush is what it should be: every announcement finds a free slot, every fill fits its window, the stream is
not closed, and neither a position nor a number of flushes overflows. -/
structure Steady (x : Ctx) (tr : List Event) : Prop where
  pushed : .link (.produce x.side (.pushed 0)) ∉ tr
  kept : ∀ copied lost, .output (.fill copied lost) ∈ tr → lost = 0
  going : .output .close ∉ tr
  small : (bytesWritten tr).length + x.size.toNat < 2 ^ 64
  flushes_lt : flushes tr < 2 ^ 64
  raised_lt : raised tr < 2 ^ 64

section

variable {x : Ctx} {tr : List Event} {a : Event} {n n' k k' : Nat}

private theorem flushes_snoc (ha : a ≠ .output .pushFlush) : flushes (tr ++ [a]) = flushes tr := by
  rw [flushes, List.count_append, List.count_singleton, if_neg (by simpa using ha)]
  rfl

private theorem raised_snoc (ha : a ≠ .output .raiseFlush) : raised (tr ++ [a]) = raised tr := by
  rw [raised, List.count_append, List.count_singleton, if_neg (by simpa using ha)]
  rfl

private theorem Steady.of_snoc (h : Steady x (tr ++ [a])) : Steady x tr where
  pushed hmem := h.pushed (List.mem_append_left _ hmem)
  kept copied lost hmem := h.kept copied lost (List.mem_append_left _ hmem)
  going hmem := h.going (List.mem_append_left _ hmem)
  small := by
    have hsmall := h.small
    rw [bytesWritten_append, List.length_append] at hsmall
    omega
  flushes_lt := by
    have hlt := h.flushes_lt
    rw [flushes, List.count_append] at hlt
    exact Nat.lt_of_le_of_lt (Nat.le_add_right _ _) hlt
  raised_lt := by
    have hlt := h.raised_lt
    rw [raised, List.count_append] at hlt
    exact Nat.lt_of_le_of_lt (Nat.le_add_right _ _) hlt

namespace Before

private theorem mono (h : Before tr n k) (hn : n' ≤ n) (hk : k ≤ k') : Before tr n' k' := fun tr₁ tr₂ htr hlt =>
  Nat.le_trans (h tr₁ tr₂ htr (Nat.lt_of_lt_of_le hlt hn)) hk

/-- A flush that is pushed is behind those that count. -/
private theorem snoc (h : Before tr n k) (ha : a = .output .pushFlush → n ≤ flushes tr) : Before (tr ++ [a]) n k := by
  intro tr₁ tr₂ htr hlt
  rcases List.eq_nil_or_concat tr₂ with rfl | ⟨tr₂, b, rfl⟩
  · obtain ⟨rfl, hb⟩ := List.append_inj' htr rfl
    have hle := ha (List.cons.inj hb).1
    omega
  · rw [List.concat_eq_append, ← List.cons_append, ← List.append_assoc] at htr
    exact h tr₁ tr₂ (List.append_inj' htr rfl).1 hlt

/-- Nothing that was written is more than all that was. -/
private theorem of_le (hk : (bytesWritten tr).length ≤ k) : Before tr n k := by
  intro tr₁ tr₂ htr _
  rw [htr, bytesWritten_append, List.length_append] at hk
  omega

end Before

end

/-- The task is to write its position to the ring, or has written it and not pushed it; or it will not come to it. -/
def Pc.sending : Pc → Bool
  | .announcing .written => true
  | .announcing p => p.before
  | .aborted _ => true
  | _ => false

/-- The invariant: where the flushes are. -/
structure Flushing (x : Ctx) (tr : List Event) (s : State) : Prop where
  level : s.output.flushLevel.toNat = raised tr
  even : s.output.task.pc.sending = false → s.output.task.sequence = s.output.task.released
  going : .eof ∉ s.output.buffer
  total : s.output.task.sequence.toNat + (payload s.output.buffer).length = (bytesWritten tr).length
  count : s.output.flushed.toNat + s.output.outstandingFlush.toNat + s.output.buffer.countP BytesOrEof.isFlush =
    flushes tr
  sent : Before tr (s.output.flushed.toNat + s.output.outstandingFlush.toNat) s.output.task.sequence.toNat
  acked : Before tr s.output.flushed.toNat s.input.task.sequence.toNat

namespace Flushing

variable {x : Ctx} {m : Mem} {cap : Nat} {tr : List Event} {s s' : State} {a : Event}

theorem new (x : Ctx) (m : Mem) : Flushing x [] (.new x m) where
  level := rfl
  even _ := rfl
  going := nofun
  total := rfl
  count := rfl
  sent tr₁ _ htr := by cases tr₁ <;> cases htr
  acked tr₁ _ htr := by cases tr₁ <;> cases htr

/-- A step by which nothing is written or flushed. -/
private theorem of_same (h : Flushing x tr s) (ha : a.isFlush = false)
    (hw : bytesWritten [a] = []) (hb : s'.output.buffer = s.output.buffer)
    (hlevel : s'.output.flushLevel = s.output.flushLevel) (hflushed : s'.output.flushed = s.output.flushed)
    (houtstanding : s'.output.outstandingFlush = s.output.outstandingFlush)
    (hseq : s'.output.task.sequence = s.output.task.sequence)
    (hin : s.input.task.sequence.toNat ≤ s'.input.task.sequence.toNat)
    (heven : s'.output.task.pc.sending = false → s'.output.task.sequence = s'.output.task.released) :
    Flushing x (tr ++ [a]) s' where
  level := by
    rw [hlevel, raised_snoc fun heq => by rw [heq] at ha; cases ha]
    exact h.level
  even := heven
  going := by
    rw [hb]
    exact h.going
  total := by
    rw [hseq, hb, bytesWritten_append, hw, List.append_nil]
    exact h.total
  count := by
    rw [hflushed, houtstanding, hb, flushes_snoc fun heq => by rw [heq] at ha; cases ha]
    exact h.count
  sent := by
    rw [hflushed, houtstanding, hseq]
    exact h.sent.snoc fun heq => by rw [heq] at ha; cases ha
  acked := by
    rw [hflushed]
    exact (h.acked.mono (Nat.le_refl _) hin).snoc fun heq => by rw [heq] at ha; cases ha

/-- The way of a task that announces: what it is about to write is pushed before it goes on. -/
private theorem sending_of_announcePc {entry : Entry} {pc pc' : Pc} {b : Duplex.ProduceAct Entry}
    (h : announcePc entry pc b = some pc') (hpushed : ∀ k, b ≠ .pushed k) (hpc : pc'.sending = false) :
    pc.sending = false := by
  cases b with
  | unwind => cases h
  | pushed k => exact absurd rfl (hpushed k)
  | new | pushMany | draw data | write slot data =>
    simp only [announcePc] at h
    split at h <;> cases h
    cases hpc
  | syncLoad | syncStore | drop =>
    simp only [announcePc] at h
    split at h <;> cases h
    rename_i hpc'
    rw [hpc']
    rfl

/-- A task goes on to announce, or has released its position. -/
private theorem proceed_even (o : OutputRing) (h : o.proceed.task.pc.sending = false) :
    o.proceed.task.sequence = o.proceed.task.released := by
  unfold OutputRing.proceed at *
  split at h
  · cases h
  · rename_i hcond
    rw [if_neg hcond]
    by_contra hne
    exact hcond (.inl hne)

private theorem output_announce (h : Flushing x tr s) {b : Duplex.ProduceAct Entry} {o : OutputRing}
    (ho : s.output.announce b = some o) (hpushed : b ≠ .pushed 0) :
    Flushing x (tr ++ [.link (.produce x.side b)]) { s with output := o } := by
  obtain ⟨t, sentEof, ht, rfl⟩ := OutputRing.announce_task ho
  have hseq := (Task.announce_same ht).1
  refine h.of_same rfl rfl rfl rfl rfl rfl hseq (Nat.le_refl _) fun hpc => ?_
  rcases Task.announce_cases ht with ⟨k, -, rfl⟩ | ⟨hne, pc, hpc', rfl⟩
  · rfl
  · refine h.even (sending_of_announcePc hpc' (fun k => ?_) hpc)
    cases k with
    | zero => exact hpushed
    | succ k => exact hne k

private theorem link (h : Flushing x tr s) {e : Duplex.Event Entry} (hpushed : e ≠ .produce x.side (.pushed 0))
    (hs : linkStep x s e = some s') : Flushing x (tr ++ [.link e]) s' := by
  rcases linkStep_cases hs with ⟨b, o, rfl, ho, rfl⟩ | ⟨b, i, rfl, hi, rfl⟩ | ⟨b, o, rfl, ho, rfl⟩ |
    ⟨b, i, rfl, hi, rfl⟩
  · exact h.output_announce ho fun heq => hpushed (by rw [heq])
  · obtain ⟨t, ht, rfl⟩ := Option.map_eq_some_iff.1 hi
    have hseq := (Task.announce_same ht).1
    exact h.of_same rfl rfl rfl rfl rfl rfl rfl (Nat.le_of_eq (by rw [hseq])) h.even
  · obtain ⟨t, ht, rfl⟩ := Option.map_eq_some_iff.1 ho
    have hsame := Task.reap_same ht
    refine h.of_same rfl rfl rfl rfl rfl rfl hsame.1 (Nat.le_refl _) fun _ => ?_
    obtain ⟨hpc, -⟩ := Task.reap_pc ht
    rw [hsame.1, hsame.2]
    refine h.even ?_
    rcases hpc with hpc | ⟨p, hpc⟩ <;> (rw [hpc]; rfl)
  · obtain ⟨t, ht, rfl⟩ := Option.map_eq_some_iff.1 hi
    have hseq := (Task.reap_same ht).1
    exact h.of_same rfl rfl rfl rfl rfl rfl rfl (Nat.le_of_eq (by rw [hseq])) h.even

/-- What was written goes into the ring as a whole, with the flushes between. -/
private theorem fill (h : Flushing x tr s) (hinv : Inv x tr s) {copied lost : Nat}
    (hst : Steady x (tr ++ [.output (.fill copied lost)])) (hs : outputStep x s (.fill copied lost) = some s') :
    Flushing x (tr ++ [.output (.fill copied lost)]) s' := by
  obtain ⟨out, hfills, rfl, ⟨-, houtstanding⟩, hcopied, hlen⟩ := hinv.fill_cases hs
  have hlost := hst.kept copied lost (by simp)
  have hsome : ∀ frame ∈ s.output.buffer, frame.isSome = true := by
    intro frame hmem
    cases frame with
    | some bytes => rfl
    | eof => exact absurd hmem h.going
  have hempty : out.full = [] := by
    rw [hfills.full_eq]
    exact List.dropWhile_eq_nil_iff.2 hsome
  have hflushes : out.flushes = s.output.buffer.countP BytesOrEof.isFlush := by
    rw [hfills.flushes_eq, List.takeWhile_eq_self_iff.2 hsome, List.dropWhile_eq_nil_iff.2 hsome]
    simp
  have htotal := h.total
  have hcount := h.count
  have hw : bytesWritten (tr ++ [.output (.fill copied lost)]) = bytesWritten tr := by
    rw [bytesWritten_append]
    exact List.append_nil _
  have hstart : out.start.toNat = (bytesWritten tr).length := by
    rw [hempty] at hlen
    change _ = copied + lost + 0 at hlen
    omega
  have hseq : (s.output.filled out).task.sequence = out.start := OutputRing.proceed_sequence _
  have hbuffer : (s.output.filled out).buffer = [] := (OutputRing.proceed_buffer _).trans hempty
  have hflushed : (s.output.filled out).flushed = s.output.flushed := OutputRing.proceed_flushed _
  have hout : (s.output.filled out).outstandingFlush.toNat = out.flushes := by
    rw [show (s.output.filled out).outstandingFlush = .ofNat out.flushes from OutputRing.proceed_outstandingFlush _]
    refine UInt64.toNat_ofNat_of_lt' ?_
    have hlt := hst.of_snoc.flushes_lt
    change _ < 2 ^ 64
    omega
  refine ⟨?_, proceed_even _, ?_, ?_, ?_, ?_, ?_⟩
  · rw [raised_snoc (a := .output (.fill copied lost)) (by simp), ← h.level]
    exact congrArg UInt64.toNat (OutputRing.proceed_flushLevel _)
  · simp [hbuffer]
  · simp only [hseq, hbuffer, hw, hstart]
    rfl
  · rw [flushes_snoc (a := .output (.fill copied lost)) (by simp), ← hcount]
    simp only [hbuffer, hflushed, hout, hflushes, houtstanding, UInt64.toNat_zero, List.countP_nil]
    omega
  · simp only [hseq]
    exact Before.of_le (by rw [hw, hstart])
  · simp only [hflushed]
    exact h.acked.snoc (by simp)

/-- The input has got what was released, and that is what was sent. -/
private theorem report (h : Flushing x tr s) (hinv : Inv x tr s)
    (hsmall : (bytesWritten tr).length + x.size.toNat < 2 ^ 64) (hpc : s.output.task.pc = .working)
    (hflushed : s.output.isFlushed x = true) :
    s.output.task.sequence.toNat ≤ s.input.task.sequence.toNat := by
  obtain ⟨ack, hack, hacked⟩ := hinv.acked
  have hle := hacked.ascends.le
  have htotal := h.total
  have heven := h.even (by rw [hpc]; rfl)
  have hgrant := congrArg UInt64.toNat (eq_of_beq hflushed)
  rw [OutputRing.grant, toNat_saturatingAdd, hack, ← heven] at hgrant
  omega

/-- A frame that is pushed is counted, or its bytes are. -/
private theorem push (h : Flushing x tr s) {b : OutputAct} (bytes : Slice) (hb : b ≠ .raiseFlush)
    (hw : bytesWritten [.output b] = bytes.1)
    (hcount : flushes (tr ++ [.output b]) = flushes tr + if bytes.1.isEmpty then 1 else 0) :
    Flushing x (tr ++ [.output b]) { s with output.buffer := s.output.buffer ++ [.some bytes] } where
  level := by
    rw [raised_snoc fun heq => hb (Event.output.inj heq)]
    exact h.level
  even := h.even
  going hmem := by
    rcases List.mem_append.1 hmem with hmem | hmem
    · exact h.going hmem
    · cases List.mem_singleton.1 hmem
  total := by
    rw [bytesWritten_append, hw, List.length_append, ← h.total, payload_append, List.length_append, ← Nat.add_assoc]
    change _ + (bytes.1 ++ []).length = _
    rw [List.append_nil]
  count := by
    have hflush : [BytesOrEof.some bytes].countP BytesOrEof.isFlush = if bytes.1.isEmpty then 1 else 0 :=
      List.countP_singleton ..
    dsimp only
    rw [List.countP_append, hflush, hcount, ← h.count, Nat.add_assoc, Nat.add_assoc, Nat.add_assoc]
  sent := h.sent.snoc fun _ => by
    rw [← h.count]
    exact Nat.le_add_right _ _
  acked := h.acked.snoc fun _ => by
    rw [← h.count, Nat.add_assoc]
    exact Nat.le_add_right _ _

private theorem output_step (h : Flushing x tr s) (hinv : Inv x tr s) {b : OutputAct}
    (hst : Steady x (tr ++ [.output b])) (hs : outputStep x s b = some s') : Flushing x (tr ++ [.output b]) s' := by
  cases OutputStep.of_eq hs with
  | fill | fillError => exact h.fill hinv hst hs
  | writeEmpty hempty =>
    refine h.of_same rfl ?_ rfl rfl rfl rfl rfl (Nat.le_refl _) h.even
    exact (List.append_nil _).trans (List.isEmpty_iff.1 hempty)
  | @write bytes hempty =>
    refine h.push (b := .write bytes) bytes (by simp) (List.append_nil _) ?_
    rw [flushes_snoc (a := .output (.write bytes)) (by simp), if_neg (by rw [hempty]; decide)]
    rfl
  | pushFlush =>
    refine h.push (b := .pushFlush) ⟨[], by decide⟩ (by simp) rfl ?_
    rw [flushes, List.count_append]
    rfl
  | close => exact absurd (by simp) hst.going
  | raiseFlush =>
    refine ⟨?_, h.even, h.going, ?_, ?_, h.sent.snoc (by simp), h.acked.snoc (by simp)⟩
    · have hraised : raised (tr ++ [.output .raiseFlush]) = raised tr + 1 := List.count_append
      have hlt := hst.raised_lt
      rw [hraised, ← h.level] at hlt ⊢
      exact (UInt64.toNat_add ..).trans (Nat.mod_eq_of_lt hlt)
    · rw [bytesWritten_append]
      exact h.total.trans (by simp [bytesWritten])
    · rw [flushes_snoc (a := .output .raiseFlush) (by simp)]
      exact h.count
  | resume hpc | yieldNow hpc =>
    refine h.of_same rfl rfl rfl rfl rfl rfl rfl (Nat.le_refl _) fun _ => h.even ?_
    rw [hpc]
    rfl
  | unwrap => exact h.of_same rfl rfl rfl rfl rfl rfl rfl (Nat.le_refl _) fun hpc => by cases hpc
  | keepFlushing hpc =>
    exact h.of_same rfl rfl (OutputRing.proceed_buffer _) (OutputRing.proceed_flushLevel _)
      (OutputRing.proceed_flushed _) (OutputRing.proceed_outstandingFlush _) (OutputRing.proceed_sequence _)
      (Nat.le_refl _) (proceed_even _)
  | reportFlushed hpc hflush hflushed =>
    have hle := h.report hinv hst.of_snoc.small hpc hflushed
    have hsum : (s.output.flushed + s.output.outstandingFlush).toNat =
        s.output.flushed.toNat + s.output.outstandingFlush.toNat := by
      refine (UInt64.toNat_add ..).trans (Nat.mod_eq_of_lt (Nat.lt_of_le_of_lt ?_ hst.of_snoc.flushes_lt))
      rw [← h.count]
      exact Nat.le_add_right _ _
    refine ⟨?_, proceed_even _, ?_, ?_, ?_, ?_, ?_⟩
    · rw [raised_snoc (a := .output .reportFlushed) (by simp), ← h.level]
      exact congrArg UInt64.toNat (OutputRing.proceed_flushLevel _)
    · simp only [OutputRing.proceed_buffer]
      exact h.going
    · simp only [OutputRing.proceed_sequence, OutputRing.proceed_buffer]
      rw [bytesWritten_append]
      exact h.total.trans (by simp [bytesWritten])
    · rw [flushes_snoc (a := .output .reportFlushed) (by simp), ← h.count]
      simp only [OutputRing.proceed_flushed, OutputRing.proceed_outstandingFlush, OutputRing.proceed_buffer, hsum,
        UInt64.toNat_zero, Nat.add_zero]
    · simp only [OutputRing.proceed_flushed, OutputRing.proceed_outstandingFlush, OutputRing.proceed_sequence, hsum,
        UInt64.toNat_zero, Nat.add_zero]
      exact h.sent.snoc (by simp)
    · simp only [OutputRing.proceed_flushed, hsum]
      exact (h.sent.mono (Nat.le_refl _) hle).snoc (by simp)

private theorem input_step (h : Flushing x tr s) (hinv : Inv x tr s) {b : InputAct} (hs : inputStep x s b = some s') :
    Flushing x (tr ++ [.input b]) s' := by
  cases InputStep.of_eq hs with
  | consume | consumeError =>
    obtain ⟨data, heq, -, hn, -⟩ := hinv.consume_cases hs
    rw [heq]
    refine h.of_same rfl rfl rfl rfl rfl rfl rfl ?_ h.even
    exact hinv.input_le
  | @wait r => cases r <;> exact h.of_same rfl rfl rfl rfl rfl rfl rfl (Nat.le_refl _) h.even
  | acquire | acquireError | ioError | unwrap =>
    exact h.of_same rfl rfl rfl rfl rfl rfl rfl (Nat.le_refl _) h.even
  | read size =>
    refine h.of_same rfl ?_ rfl rfl rfl rfl rfl (Nat.le_of_eq (by rw [s.input.read_task size])) h.even
    rfl

theorem step (h : Flushing x tr s) (hinv : Inv x tr s) (hst : Steady x (tr ++ [a]))
    (hs : ByteStream.step x s a = some s') : Flushing x (tr ++ [a]) s' := by
  cases a with
  | link e =>
    refine h.link (fun heq => hst.pushed ?_) hs
    rw [heq]
    simp
  | output b => exact h.output_step hinv hst hs
  | input b => exact h.input_step hinv hs

end Flushing

/-! ### Flushes over runs -/

/-- What is reported as flushed is received; and if the guest may write again, all flushes that it has raised are. -/
structure Flushed (tr : List Event) (s : State) : Prop where
  reported : ∀ tr₁ tr₂, tr = tr₁ ++ .output .pushFlush :: tr₂ → flushes tr₁ < s.output.flushed.toNat →
    bytesWritten tr₁ <+: bytesRead tr ++ payload s.input.buffer
  writable : s.output.checkWrite ≠ 0 → ∀ tr₁ tr₂, tr = tr₁ ++ .output .pushFlush :: tr₂ → flushes tr₁ < raised tr →
    bytesWritten tr₁ <+: bytesRead tr ++ payload s.input.buffer

section

variable {x : Ctx} {y : Duplex.Ctx Mem Entry} {m : Mem} {tr : List Event} {w : Whole}

theorem flushing_of_run (hm : Opened x y m) (h : RunWhere (Whole.step x y) (KeepsApart y) (.new x m) tr w)
    (hst : Steady x tr) : Flushing x tr w.stream := by
  refine Whole.invariant (I := fun tr s => Steady x tr → Flushing x tr s) hm h (fun _ => Flushing.new x m) ?_ ?_ hst
  · intro tr s a s' hinv _ hf hs hst
    exact (hf hst.of_snoc).step hinv hst hs
  · intro tr s m' _ _ _ hf hst
    obtain ⟨hlevel, heven, hgoing, htotal, hcount, hsent, hacked⟩ := hf hst
    exact ⟨hlevel, heven, hgoing, htotal, hcount, hsent, hacked⟩

/-- The input has received as many bytes as the position of its task says. -/
private theorem received_length (hm : Opened x y m) (h : RunWhere (Whole.step x y) (KeepsApart y) (.new x m) tr w)
    (hst : Steady x tr) (hf : Flushing x tr w.stream) :
    bytesRead tr ++ payload w.stream.input.buffer <+: bytesWritten tr ∧
      (bytesRead tr ++ payload w.stream.input.buffer).length = w.stream.input.task.sequence.toNat := by
  have hpipe := Pipe.prefix_of_run (Whole.pipe_of_run hm h) (lossless_of_fills hst.kept)
  rw [taken_pipeAct, written_pipeAct, Pipe.content, List.append_assoc, ← List.append_assoc] at hpipe
  have hfirst : bytesRead tr ++ payload w.stream.input.buffer <+: bytesWritten tr := ⟨_, hpipe⟩
  refine ⟨hfirst, ?_⟩
  have hlen := congrArg List.length hpipe
  have hbounds := (Whole.joint_of_run hm h).inv.bounds
  have hle := (Whole.joint_of_run hm h).inv.input_le
  have htotal := hf.total
  simp only [State.pipe, State.window, List.length_append, List.length_map, List.length_range] at hlen ⊢
  omega

theorem flushed_of_run (hm : Opened x y m) (h : RunWhere (Whole.step x y) (KeepsApart y) (.new x m) tr w)
    (hst : Steady x tr) : Flushed tr w.stream := by
  have hf := flushing_of_run hm h hst
  obtain ⟨hfirst, hlen⟩ := received_length hm h hst hf
  have hreported : ∀ tr₁ tr₂, tr = tr₁ ++ .output .pushFlush :: tr₂ → flushes tr₁ < w.stream.output.flushed.toNat →
      bytesWritten tr₁ <+: bytesRead tr ++ payload w.stream.input.buffer := by
    intro tr₁ tr₂ htr hlt
    have hle := hf.acked tr₁ tr₂ htr hlt
    have hwritten : bytesWritten tr₁ <+: bytesWritten tr := by
      rw [htr, bytesWritten_append]
      exact List.prefix_append _ _
    exact List.prefix_of_prefix_length_le hwritten hfirst (by rw [hlen]; exact hle)
  refine ⟨hreported, fun hwrite tr₁ tr₂ htr hlt => hreported tr₁ tr₂ htr ?_⟩
  have hlevel := hf.level
  unfold OutputRing.checkWrite at hwrite
  split at hwrite
  · rename_i hle
    have hle := UInt64.le_iff_toNat_le.1 hle
    omega
  · exact absurd rfl hwrite

/-- Three bytes are written and flushed, and the flush is reported once they are received. -/
def flushedBytes : List Event :=
  [.output (.write oneTwoThree), .output .raiseFlush, .output .pushFlush, .output .resume] ++ reaping .left [] ++
    [.output (.fill 3 0)] ++ announcing .left 0 3 ++ [.output .yieldNow, .input .acquire] ++
    reaping .right [toLeBytes 3] ++ [.input (.consume 3)] ++ announcing .right 0 3 ++
    [.input (.wait .remoteBlocked), .output .resume] ++ reaping .left [toLeBytes 3] ++ [.output .reportFlushed]

private theorem steady_flushedBytes : Steady streamCtx flushedBytes where
  pushed := by decide
  kept copied lost hmem := by
    have hfill : copied = 3 ∧ lost = 0 := by simpa [flushedBytes, reaping, announcing] using hmem
    exact hfill.2
  going := by decide
  small := by decide
  flushes_lt := by decide
  raised_lt := by decide

theorem flushed_of_run_flushedBytes : ∃ w : Whole, Flushed flushedBytes w.stream ∧ w.stream.output.flushed = 1 ∧
    w.stream.output.checkWrite ≠ 0 := by
  have hsome : ((execWhere (Whole.step streamCtx streamRing) (KeepsApart streamRing) []
      (.new streamCtx streamMem) flushedBytes).any fun w =>
        w.stream.output.flushed = 1 ∧ w.stream.output.checkWrite ≠ 0) = true := by
    decide +kernel
  obtain ⟨w, hw, hflushed⟩ := (Option.any_eq_true _ _).1 hsome
  exact ⟨w, flushed_of_run opened_stream (RunWhere.nil.exec hw) steady_flushedBytes, of_decide_eq_true hflushed⟩

end

end ByteStream

end ShmRing
