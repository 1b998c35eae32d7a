import ShmRing.Announce

/-!
# The order of the positions

What the tasks of the two halves do together, over a ring whose directions are channels.  The positions keep an order:
the input has acknowledged no more than it has read, has read no more than was announced to it, and the output writes
no further than a window beyond what was acknowledged (`Inv`).  So both always copy within the space of the ring, and
no assertion of either task fails.
-/

namespace ShmRing

open Machine Bytes Transition

namespace ByteStream

/-- Both halves have the same ring, and it has space for a stream. -/
structure Ctx.Valid (x : Ctx) (m : Mem) : Prop where
  output : x.output.Space x.size m
  input : x.input.Space x.size m
  same : x.input.slot.info = x.output.slot.info

namespace Ctx.Valid

variable {x : Ctx} {m m' : Mem} {k n : Nat}

theorem info_eq (h : x.Valid m) (m' : Mem) : x.input.info m' = x.output.info m' := by
  rw [Ring.info, Ring.info, h.same]

private theorem block_eq (h : x.Valid m) : h.input.block = h.output.block := by
  simp only [Ring.Space.block, h.info_eq m]

/-- A write to the data of the ring. -/
theorem of_window (h : x.Valid m) (hd : DifferIn (h.output.block.Window k n) m m') : x.Valid m' := by
  have hf := h.output.frame_of_differIn hd
  exact ⟨h.output.of_frame hf, h.input.of_frame (by rw [h.info_eq m]; exact hf), h.same⟩

end Ctx.Valid

/-! ### Tasks at the ring -/

section Tasks

variable {ρ : Type} {count : ρ → Exec ρ} {pos : UInt64 → UInt64} {t t' : Task ρ} {data : Entry} {c : Chan Entry}
  {cap lo hi : Nat}

/-- A position that is no less than the last one is received, unless the counter overflows. -/
theorem Task.receive_cases (count : ρ → Exec ρ) (pos : UInt64 → UInt64)
    (hle : t.available.head ≤ pos (fromLeBytes data)) :
    (∃ f, count t.headReceive = .error f ∧ t.receive count pos data = .error f) ∨
    ∃ n, count t.headReceive = .ok n ∧ t.receive count pos data = .ok { t with
      available := ⟨pos (fromLeBytes data), t.available.eof || t.available.head == pos (fromLeBytes data)⟩
      headReceive := n } := by
  unfold Task.receive
  cases count t.headReceive with
  | error f => exact .inl ⟨f, rfl, rfl⟩
  | ok n =>
    refine .inr ⟨n, rfl, ?_⟩
    simp only [bind, Except.bind, Available.extend, if_pos hle]
    rfl

/-- A task whose consumer was just synced has released what it has taken. -/
def Synced (t : Task ρ) (c : Chan Entry) : Prop := t.pc = .reaping .stored → c.read = c.released

private theorem Task.reap_synced {a : Duplex.ConsumeAct Entry} (h : t.reap count pos a = some t') :
    Synced t' (c.applyOpt (Duplex.consumeAct a)) := by
  rcases t.reap_cases h with ⟨data, rfl, rfl⟩ | ⟨hnext, pc, hpc, rfl⟩
  · intro hpc
    cases hr : t.receive count pos data with
    | ok t'' => rw [hr] at hpc; cases hpc
    | error f => rw [hr] at hpc; cases hpc
  · intro hpc'
    obtain rfl : pc = .reaping .stored := hpc'
    cases a with
    | syncStore => rfl
    | _ =>
      simp only [reapPc] at hpc
      split at hpc <;> cases hpc

/-- A task that announces is at no consumer. -/
private theorem Task.announce_synced {a : Duplex.ProduceAct Entry} (h : t.announce a = some t') : Synced t' c := by
  intro hpc
  rcases t.announce_cases h with ⟨k, -, rfl⟩ | ⟨-, pc, hpc', rfl⟩
  · cases hpc
  · obtain rfl : pc = .reaping .stored := hpc
    rcases Task.announcePc_cases hpc' with ⟨p, h⟩ | h <;> cases h

/-- What the receiver of a direction does: it goes on to the next position, or only moves on. -/
private theorem Announced.reap {a : Duplex.ConsumeAct Entry} (hc : Announced c lo hi) (h : t.reap count pos a = some t')
    (hsynced : Synced t c) (ha : ∀ b, Duplex.consumeAct a = some b → Chan.Allowed cap c b) :
    (∃ data, t' = t.enter (.reaping .iterating) (t.receive count pos data) ∧ lo ≤ position data ∧
      Announced (c.applyOpt (Duplex.consumeAct a)) (position data) hi) ∨
    ∃ pc, t' = { t with pc } ∧ Announced (c.applyOpt (Duplex.consumeAct a)) lo hi := by
  rcases t.reap_cases h with ⟨data, rfl, rfl⟩ | ⟨hnext, pc, -, rfl⟩
  · obtain ⟨hle, hc'⟩ := hc.take (ha _ rfl)
    exact .inl ⟨data, rfl, hle, hc'⟩
  · refine .inr ⟨pc, rfl, ?_⟩
    cases a with
    | next data => exact absurd rfl (hnext data)
    | drop => exact hc.other (b := .rewind) nofun nofun fun _ => hsynced (t.reap_drop h)
    | syncStore => exact hc.other (b := .release) nofun nofun nofun
    | _ => exact hc

/-- What the sender of a direction does. -/
private theorem Announced.announce {a : Duplex.ProduceAct Entry} (hc : Announced c lo t.sequence.toNat)
    (h : t.announce a = some t') :
    Announced (c.applyOpt (Duplex.produceAct a)) lo t'.sequence.toNat ∧ t'.sequence = t.sequence ∧
      t'.available = t.available := by
  have hsame := t.announce_same h
  refine ⟨?_, hsame⟩
  rw [hsame.1]
  cases a with
  | write slot data => exact hc.write (t.announce_write h)
  | pushed k => exact hc.other (b := .commit) nofun nofun nofun
  | unwind => exact hc.other (b := .abandon) nofun nofun nofun
  | syncStore => exact hc.other (b := .publish) nofun nofun nofun
  | drop => exact hc.other (b := .rollback) nofun nofun nofun
  | _ => exact hc

/-- The sender moves neither what is taken nor what is released. -/
private theorem Synced.produce {a : Duplex.ProduceAct Entry} (h : Synced t c) :
    Synced t (c.applyOpt (Duplex.produceAct a)) := by
  cases a <;> exact h

end Tasks

/-! ### Halves at the data -/

section Halves

variable {x : Ctx} {m : Mem} {o o' : OutputRing} {i i' : InputRing}

namespace OutputRing

@[simp] theorem proceed_buffer (o : OutputRing) : o.proceed.buffer = o.buffer := by
  unfold proceed
  split <;> rfl

@[simp] theorem proceed_sequence (o : OutputRing) : o.proceed.task.sequence = o.task.sequence := by
  unfold proceed
  split <;> rfl

@[simp] theorem proceed_available (o : OutputRing) : o.proceed.task.available = o.task.available := by
  unfold proceed
  split <;> rfl

@[simp] theorem proceed_pendingEof (o : OutputRing) : o.proceed.pendingEof = o.pendingEof := by
  unfold proceed
  split <;> rfl

@[simp] theorem proceed_flushed (o : OutputRing) : o.proceed.flushed = o.flushed := by
  unfold proceed
  split <;> rfl

@[simp] theorem proceed_flushLevel (o : OutputRing) : o.proceed.flushLevel = o.flushLevel := by
  unfold proceed
  split <;> rfl

@[simp] theorem proceed_outstandingFlush (o : OutputRing) : o.proceed.outstandingFlush = o.outstandingFlush := by
  unfold proceed
  split <;> rfl

private theorem proceed_pc_ne (o : OutputRing) : o.proceed.task.pc ≠ .reaping .stored := by
  unfold proceed
  split <;> nofun

/-- Of the output, its announcements change the task only, and whether the end is sent. -/
theorem announce_task {a : Duplex.ProduceAct Entry} (h : o.announce a = some o') :
    ∃ t sentEof, o.task.announce a = some t ∧ o' = { o with task := t, sentEof } := by
  obtain ⟨t, ht, rfl⟩ := Option.map_eq_some_iff.1 h
  split
  · split
    · exact ⟨t, o.sentEof, ht, rfl⟩
    · exact ⟨t, true, ht, rfl⟩
  · exact ⟨t, o.sentEof, ht, rfl⟩

/-- Within a window the output fills without an abort. -/
private theorem fill_eq (hv : x.Valid m) (hle : o.task.sequence.toNat ≤ o.task.available.head.toNat)
    (hsize : o.task.available.head.toNat - o.task.sequence.toNat ≤ x.size.toNat) :
    ∃ out, o.fill x m = .ok (o.filled out, out.mem) ∧
      Fills hv.output.block m o.task.sequence o.task.available.head 0 o.buffer out := by
  obtain ⟨out, hout, hfills⟩ := fillLoop_fills x.build o.buffer 0 hv.output hle hsize
  refine ⟨out, ?_, hfills⟩
  simp only [fill, fillStream, hout]
  rfl

end OutputRing

namespace InputRing

/-- The task of the input gets the bytes of the window. -/
private theorem consume_eq (hv : x.Valid m) (hle : i.task.sequence.toNat ≤ i.task.available.head.toNat)
    (hsize : i.task.available.head.toNat - i.task.sequence.toNat ≤ x.size.toNat) :
    ∃ data, i.consume x m = .ok (i.received data i.task.available.head) ∧
      data.1 = hv.output.block.read m i.task.sequence.toNat
        (i.task.available.head.toNat - i.task.sequence.toNat) := by
  have hlt := hv.input.lt
  have hlen : (hv.output.block.read m i.task.sequence.toNat
      (i.task.available.head.toNat - i.task.sequence.toNat)).length < 2 ^ 63 := by
    rw [CyclicBlock.length_read]
    omega
  refine ⟨⟨_, hlen⟩, ?_, rfl⟩
  rw [consume, consumeStream_eq x.build hv.input hle hsize, hv.block_eq]
  simp only [bind, Except.bind, toSlice, dif_pos hlen]
  rfl

private theorem received_pc_ne (i : InputRing) (data : Slice) (sequence : UInt64) :
    (i.received data sequence).task.pc ≠ .reaping .stored := by
  simp only [received]
  split <;> nofun

theorem read_task (i : InputRing) (size : Nat) : (i.read size).2.task = i.task := by
  unfold read
  split <;> try rfl
  dsimp only
  split <;> rfl

end InputRing

end Halves

/-! ### The order of the positions -/

/-- The invariant of a linked run. -/
structure Inv (x : Ctx) (tr : List Event) (s : State) : Prop where
  valid : x.Valid s.mem
  announced : Announced (channel x.side tr) s.input.task.available.head.toNat s.output.task.sequence.toNat
  acked : ∃ ack, s.output.task.available.head.toNat = min (ack + x.size.toNat) (2 ^ 64 - 1) ∧
    Announced (channel x.side.not tr) ack s.input.task.sequence.toNat
  input_le : s.input.task.sequence.toNat ≤ s.input.task.available.head.toNat
  output_le : s.output.task.sequence.toNat ≤ s.output.task.available.head.toNat
  output_synced : Synced s.output.task (channel x.side.not tr)
  input_synced : Synced s.input.task (channel x.side tr)

section Steps

variable {x : Ctx} {m : Mem} {cap : Nat} {tr : List Event} {s s' : State} {a : Event}

/-- An access to the ring is of the task that owns the side. -/
theorem linkStep_cases {e : Duplex.Event Entry} (h : linkStep x s e = some s') :
    (∃ a o, e = .produce x.side a ∧ s.output.announce a = some o ∧ s' = { s with output := o }) ∨
    (∃ a i, e = .produce x.side.not a ∧ s.input.announce a = some i ∧ s' = { s with input := i }) ∨
    (∃ a o, e = .consume x.side a ∧ s.output.reap x a = some o ∧ s' = { s with output := o }) ∨
    (∃ a i, e = .consume x.side.not a ∧ s.input.reap x a = some i ∧ s' = { s with input := i }) := by
  cases e with
  | produce side a =>
    rcases ClientSide.eq_or_eq_not x.side side with rfl | rfl
    · rw [linkStep, if_pos rfl] at h
      obtain ⟨o, ho, rfl⟩ := Option.map_eq_some_iff.1 h
      exact .inl ⟨a, o, rfl, ho, rfl⟩
    · rw [linkStep, if_neg (by simp)] at h
      obtain ⟨i, hi, rfl⟩ := Option.map_eq_some_iff.1 h
      exact .inr (.inl ⟨a, i, rfl, hi, rfl⟩)
  | consume side a =>
    rcases ClientSide.eq_or_eq_not x.side side with rfl | rfl
    · rw [linkStep, if_pos rfl] at h
      obtain ⟨o, ho, rfl⟩ := Option.map_eq_some_iff.1 h
      exact .inr (.inr (.inl ⟨a, o, rfl, ho, rfl⟩))
    · rw [linkStep, if_neg (by simp)] at h
      obtain ⟨i, hi, rfl⟩ := Option.map_eq_some_iff.1 h
      exact .inr (.inr (.inr ⟨a, i, rfl, hi, rfl⟩))

namespace Inv

/-- The positions in their order; the output may write up to a window beyond what the input has read. -/
theorem bounds (h : Inv x tr s) :
    s.input.task.available.head.toNat ≤ s.output.task.sequence.toNat ∧
      s.output.task.available.head.toNat ≤ s.input.task.sequence.toNat + x.size.toNat := by
  obtain ⟨ack, hack, hacked⟩ := h.acked
  have := h.announced.ascends.le
  have := hacked.ascends.le
  omega

theorem new (hm : x.Valid m) : Inv x [] (.new x m) where
  valid := hm
  announced := Announced.empty (Nat.le_refl _)
  acked := ⟨0, by
    have := x.size.toNat_lt
    simp only [State.new, OutputRing.new, Nat.zero_add]
    omega, Announced.empty (Nat.le_refl _)⟩
  input_le := Nat.le_refl _
  output_le := Nat.zero_le _
  output_synced := nofun
  input_synced := nofun

/-- A step that touches neither the ring nor the data, and moves no position. -/
private theorem of_same (h : Inv x tr s) (ha : a.access = none) (hmem : s'.mem = s.mem)
    (hos : s'.output.task.sequence = s.output.task.sequence)
    (hoa : s'.output.task.available = s.output.task.available)
    (his : s'.input.task.sequence = s.input.task.sequence)
    (hia : s'.input.task.available = s.input.task.available)
    (hop : s'.output.task.pc = .reaping .stored → s.output.task.pc = .reaping .stored)
    (hip : s'.input.task.pc = .reaping .stored → s.input.task.pc = .reaping .stored) : Inv x (tr ++ [a]) s' where
  valid := by rw [hmem]; exact h.valid
  announced := by rw [channel_of_access_none _ _ ha, hia, hos]; exact h.announced
  acked := by rw [channel_of_access_none _ _ ha, hoa, his]; exact h.acked
  input_le := by rw [his, hia]; exact h.input_le
  output_le := by rw [hos, hoa]; exact h.output_le
  output_synced hpc := by rw [channel_of_access_none _ _ ha]; exact h.output_synced (hop hpc)
  input_synced hpc := by rw [channel_of_access_none _ _ ha]; exact h.input_synced (hip hpc)

/-- The task of the output announces. -/
private theorem output_announce (h : Inv x tr s) {a : Duplex.ProduceAct Entry} {o : OutputRing}
    (ho : s.output.announce a = some o) :
    Inv x (tr ++ [.link (.produce x.side a)]) { s with output := o } := by
  obtain ⟨t, e, ht, rfl⟩ := OutputRing.announce_task ho
  obtain ⟨hann, hseq, hav⟩ := h.announced.announce ht
  refine ⟨h.valid, ?_, ?_, h.input_le, ?_, ?_, ?_⟩
  · rw [channel_link, Duplex.chanAct_produce]; exact hann
  · have hnot : Duplex.chanAct x.side.not (.produce x.side a) = none := if_neg (by simp)
    rw [channel_link, hnot]
    simp only [hav]
    exact h.acked
  · simp only [hseq, hav]; exact h.output_le
  · exact s.output.task.announce_synced ht
  · rw [channel_link, Duplex.chanAct_produce]; exact h.input_synced.produce

/-- The task of the input announces. -/
private theorem input_announce (h : Inv x tr s) {a : Duplex.ProduceAct Entry} {i : InputRing}
    (hi : s.input.announce a = some i) :
    Inv x (tr ++ [.link (.produce x.side.not a)]) { s with input := i } := by
  obtain ⟨t, ht, rfl⟩ := Option.map_eq_some_iff.1 hi
  obtain ⟨ack, hack, hacked⟩ := h.acked
  obtain ⟨hann, hseq, hav⟩ := hacked.announce ht
  refine ⟨h.valid, ?_, ⟨ack, hack, ?_⟩, ?_, h.output_le, ?_, ?_⟩
  · rw [channel_link, Duplex.chanAct_produce_not]
    simp only [hav]
    exact h.announced
  · rw [channel_link, Duplex.chanAct_produce]; exact hann
  · simp only [hseq, hav]; exact h.input_le
  · rw [channel_link, Duplex.chanAct_produce]; exact h.output_synced.produce
  · exact s.input.task.announce_synced ht

/-- The task of the output takes an acknowledgement, and may write a window beyond it. -/
private theorem output_reap (h : Inv x tr s) {a : Duplex.ConsumeAct Entry} {o : OutputRing}
    (hl : Linked cap tr s (.link (.consume x.side a))) (ho : s.output.reap x a = some o) :
    Inv x (tr ++ [.link (.consume x.side a)]) { s with output := o } := by
  obtain ⟨t, ht, rfl⟩ := Option.map_eq_some_iff.1 ho
  have hact : Duplex.chanAct x.side.not (.consume x.side a) = Duplex.consumeAct a := by
    have := Duplex.chanAct_consume_not x.side.not a
    rwa [ClientSide.not_not] at this
  obtain ⟨ack, hack, hacked⟩ := h.acked
  have hle := h.output_le
  have hsame : channel x.side (tr ++ [.link (.consume x.side a)]) = channel x.side tr := by
    rw [channel_link, Duplex.chanAct_consume]
    rfl
  have hsynced : Synced t (channel x.side.not (tr ++ [.link (.consume x.side a)])) := by
    rw [channel_link, hact]
    exact s.output.task.reap_synced ht
  have hreap := hacked.reap ht h.output_synced fun b hb => hl _ _ b rfl (hact.trans hb)
  rw [← hact, ← channel_link] at hreap
  have hinput : Synced s.input.task (channel x.side (tr ++ [.link (.consume x.side a)])) := by
    rw [hsame]
    exact h.input_synced
  have hann := h.announced
  rw [← hsame] at hann
  rcases hreap with ⟨data, rfl, hpos, hann'⟩ | ⟨pc, rfl, hann'⟩
  · have hhead : s.output.task.available.head ≤ OutputRing.grant x (fromLeBytes data) := by
      rw [UInt64.le_iff_toNat_le, hack, OutputRing.grant, toNat_saturatingAdd]
      simp only [position] at hpos
      omega
    rcases Task.receive_cases (x.build.addI32 · 1) (OutputRing.grant x) hhead with
      ⟨f, -, hr⟩ | ⟨n, -, hr⟩
    · rw [hr] at hsynced ⊢
      exact ⟨h.valid, hann, ⟨ack, hack, hann'.weaken hpos⟩, h.input_le, hle, hsynced, hinput⟩
    · rw [hr] at hsynced ⊢
      refine ⟨h.valid, hann, ⟨position data, ?_, hann'⟩, h.input_le, ?_, hsynced, hinput⟩
      · simp only [Task.enter, OutputRing.grant, toNat_saturatingAdd, position]
      · simp only [Task.enter]
        rw [UInt64.le_iff_toNat_le] at hhead
        omega
  · exact ⟨h.valid, hann, ⟨ack, hack, hann'⟩, h.input_le, hle, hsynced, hinput⟩

/-- The task of the input takes a position up to which there are bytes. -/
private theorem input_reap (h : Inv x tr s) {a : Duplex.ConsumeAct Entry} {i : InputRing}
    (hl : Linked cap tr s (.link (.consume x.side.not a))) (hi : s.input.reap x a = some i) :
    Inv x (tr ++ [.link (.consume x.side.not a)]) { s with input := i } := by
  obtain ⟨t, ht, rfl⟩ := Option.map_eq_some_iff.1 hi
  have hact := Duplex.chanAct_consume_not x.side a
  have hle := h.input_le
  have hsame : channel x.side.not (tr ++ [.link (.consume x.side.not a)]) = channel x.side.not tr := by
    rw [channel_link, Duplex.chanAct_consume]
    rfl
  have hsynced : Synced t (channel x.side (tr ++ [.link (.consume x.side.not a)])) := by
    rw [channel_link, hact]
    exact s.input.task.reap_synced ht
  have hreap := h.announced.reap ht h.input_synced fun b hb => hl _ _ b rfl (hact.trans hb)
  rw [← hact, ← channel_link] at hreap
  have houtput : Synced s.output.task (channel x.side.not (tr ++ [.link (.consume x.side.not a)])) := by
    rw [hsame]
    exact h.output_synced
  have hacked := h.acked
  rw [← hsame] at hacked
  rcases hreap with ⟨data, rfl, hpos, hann'⟩ | ⟨pc, rfl, hann'⟩
  · have hhead : s.input.task.available.head ≤ id (fromLeBytes data) := UInt64.le_iff_toNat_le.2 hpos
    rcases Task.receive_cases (x.build.addU32 · 1) id hhead with ⟨f, -, hr⟩ | ⟨n, -, hr⟩
    · rw [hr] at hsynced ⊢
      exact ⟨h.valid, hann'.weaken hpos, hacked, hle, h.output_le, houtput, hsynced⟩
    · rw [hr] at hsynced ⊢
      exact ⟨h.valid, hann', hacked, Nat.le_trans hle hpos, h.output_le, houtput, hsynced⟩
  · exact ⟨h.valid, hann', hacked, hle, h.output_le, houtput, hsynced⟩

/-- Every acknowledgement is for at least as much as the last one. -/
theorem output_next_le (h : Inv x tr s) {data : Entry} (hl : Linked cap tr s (.link (.consume x.side (.next data)))) :
    s.output.task.available.head ≤ OutputRing.grant x (fromLeBytes data) := by
  obtain ⟨ack, hack, hacked⟩ := h.acked
  have hact : Duplex.chanAct x.side.not (.consume x.side (.next data)) = some (.take data) := by
    have := Duplex.chanAct_consume_not x.side.not (.next data)
    rwa [ClientSide.not_not] at this
  have hpos := (hacked.take (hl _ _ _ rfl hact)).1
  rw [UInt64.le_iff_toNat_le, hack, OutputRing.grant, toNat_saturatingAdd]
  simp only [position] at hpos
  omega

theorem input_next_le (h : Inv x tr s) {data : Entry}
    (hl : Linked cap tr s (.link (.consume x.side.not (.next data)))) :
    s.input.task.available.head ≤ fromLeBytes data :=
  UInt64.le_iff_toNat_le.2 (h.announced.take (hl _ _ _ rfl (Duplex.chanAct_consume_not x.side (.next data)))).1

/-! ### Copying -/

/-- The output copies within what it was granted. -/
theorem fill_cases (h : Inv x tr s) {copied lost : Nat} (hs : outputStep x s (.fill copied lost) = some s') :
    ∃ out, Fills h.valid.output.block s.mem s.output.task.sequence s.output.task.available.head 0 s.output.buffer out ∧
      s' = { s with output := s.output.filled out, mem := out.mem } ∧
      (s.output.task.pc = .working ∧ s.output.outstandingFlush = 0) ∧
      out.start.toNat = s.output.task.sequence.toNat + copied ∧
      (payload s.output.buffer).length = copied + lost + (payload out.full).length := by
  have hbounds := h.bounds
  have hle := h.input_le
  obtain ⟨out, hout, hfills⟩ := OutputRing.fill_eq (o := s.output) h.valid h.output_le (by omega)
  cases OutputStep.of_eq hs with
  | fill hpc hflush hfill hcopied hlost =>
    cases hout.symm.trans hfill
    simp only [OutputRing.filled, OutputRing.proceed_sequence, OutputRing.proceed_buffer] at hcopied hlost
    exact ⟨out, hfills, rfl, ⟨hpc, hflush⟩, hcopied, hlost⟩
  | fillError hpc hflush hfill => cases hout.symm.trans hfill

/-- The input copies what was announced to it. -/
theorem consume_cases (h : Inv x tr s) {n : Nat} (hs : inputStep x s (.consume n) = some s') :
    ∃ data, s' = { s with input := s.input.received data s.input.task.available.head } ∧
      s.input.task.pc = .working ∧ s.input.task.available.head.toNat = s.input.task.sequence.toNat + n ∧
      data.1 = h.valid.output.block.read s.mem s.input.task.sequence.toNat n := by
  have hbounds := h.bounds
  have hle := h.output_le
  obtain ⟨data, hdata, hread⟩ := InputRing.consume_eq (i := s.input) h.valid h.input_le (by omega)
  cases InputStep.of_eq hs with
  | consume hpc hconsume hn =>
    cases hdata.symm.trans hconsume
    have hn' : s.input.task.available.head.toNat = s.input.task.sequence.toNat + n := hn
    rw [show s.input.task.available.head.toNat - s.input.task.sequence.toNat = n by omega] at hread
    exact ⟨data, rfl, hpc, hn', hread⟩
  | consumeError hpc hconsume => cases hdata.symm.trans hconsume

private theorem fill (h : Inv x tr s) {copied lost : Nat} (hs : outputStep x s (.fill copied lost) = some s') :
    Inv x (tr ++ [.output (.fill copied lost)]) s' := by
  obtain ⟨out, hfills, rfl, -, -, -⟩ := h.fill_cases hs
  have hstart := hfills.start_eq
  have hle := h.output_le
  constructor
  · exact h.valid.of_window hfills.window
  · rw [channel_of_access_none _ _ rfl]
    simp only [OutputRing.filled, OutputRing.proceed_sequence]
    exact h.announced.mono (by omega)
  · rw [channel_of_access_none _ _ rfl]
    simp only [OutputRing.filled, OutputRing.proceed_available]
    exact h.acked
  · exact h.input_le
  · simp only [OutputRing.filled, OutputRing.proceed_sequence, OutputRing.proceed_available]
    omega
  · exact fun hpc => absurd hpc (OutputRing.proceed_pc_ne _)
  · rw [channel_of_access_none _ _ rfl]
    exact h.input_synced

private theorem consume (h : Inv x tr s) {n : Nat} (hs : inputStep x s (.consume n) = some s') :
    Inv x (tr ++ [.input (.consume n)]) s' := by
  obtain ⟨data, rfl, -, hn, -⟩ := h.consume_cases hs
  obtain ⟨ack, hack, hacked⟩ := h.acked
  refine ⟨h.valid, ?_, ⟨ack, hack, ?_⟩, Nat.le_refl _, h.output_le, ?_, ?_⟩
  · rw [channel_of_access_none _ _ rfl]
    exact h.announced
  · rw [channel_of_access_none _ _ rfl]
    exact hacked.mono h.input_le
  · rw [channel_of_access_none _ _ rfl]
    exact h.output_synced
  · exact fun hpc => absurd hpc (InputRing.received_pc_ne _ _ _)

private theorem output_step (h : Inv x tr s) {a : OutputAct} (hs : outputStep x s a = some s') :
    Inv x (tr ++ [.output a]) s' := by
  cases OutputStep.of_eq hs with
  | fill | fillError => exact h.fill hs
  | reportFlushed | keepFlushing =>
    exact h.of_same rfl rfl (OutputRing.proceed_sequence _) (OutputRing.proceed_available _) rfl rfl
      (fun hpc => absurd hpc (OutputRing.proceed_pc_ne _)) id
  | resume | yieldNow | unwrap => exact h.of_same rfl rfl rfl rfl rfl rfl nofun id
  | writeEmpty | write | raiseFlush | pushFlush | close => exact h.of_same rfl rfl rfl rfl rfl rfl id id

private theorem input_step (h : Inv x tr s) {a : InputAct} (hs : inputStep x s a = some s') :
    Inv x (tr ++ [.input a]) s' := by
  cases InputStep.of_eq hs with
  | consume | consumeError => exact h.consume hs
  | @wait r => cases r <;> exact h.of_same rfl rfl rfl rfl rfl rfl id nofun
  | acquire | acquireError | ioError | unwrap => exact h.of_same rfl rfl rfl rfl rfl rfl id nofun
  | read size =>
    have htask := s.input.read_task size
    refine h.of_same rfl rfl rfl rfl ?_ ?_ id ?_ <;> simp only [htask, imp_self]

theorem step (h : Inv x tr s) (hl : Linked cap tr s a) (hs : ByteStream.step x s a = some s') :
    Inv x (tr ++ [a]) s' := by
  cases a with
  | link e =>
    rcases linkStep_cases hs with ⟨a, o, rfl, ho, rfl⟩ | ⟨a, i, rfl, hi, rfl⟩ | ⟨a, o, rfl, ho, rfl⟩ |
      ⟨a, i, rfl, hi, rfl⟩
    · exact h.output_announce ho
    · exact h.input_announce hi
    · exact h.output_reap hl ho
    · exact h.input_reap hl hi
  | output a => exact h.output_step hs
  | input a => exact h.input_step hs

end Inv

end Steps

end ByteStream

end ShmRing
