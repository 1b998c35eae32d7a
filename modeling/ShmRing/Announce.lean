import ShmRing.Tasks

/-!
# Announced positions

What the two directions of the ring carry for the tasks of a byte stream.  A run of the tasks is `Linked` if each
direction of the ring acts as a channel, as those of `Duplex` do when they keep apart.  Then the positions on the way
in a direction go up, from the one that the receiver has to the one that the sender is at (`Announced`).  The last parts
say once what a task and a half can do in a step.
-/

namespace ShmRing

open Machine Bytes Transition

namespace ByteStream

/-- The access of a step to the ring. -/
def Event.access : Event → Option (Duplex.Event Entry)
  | .link e => some e
  | _ => none

/-- The channel of a direction after a run. -/
def channel (d : ClientSide) (tr : List Event) : Chan Entry := Duplex.chan d (tr.filterMap Event.access)

theorem channel_link (d : ClientSide) (tr : List Event) (e : Duplex.Event Entry) :
    channel d (tr ++ [.link e]) = (channel d tr).applyOpt (Duplex.chanAct d e) := by
  simp only [channel, List.filterMap_append]
  exact Duplex.chan_snoc ..

@[simp] theorem channel_produce (d : ClientSide) (tr : List Event) (a : Duplex.ProduceAct Entry) :
    channel d (tr ++ [.link (.produce d a)]) = (channel d tr).applyOpt (Duplex.produceAct a) := by
  rw [channel_link, Duplex.chanAct_produce]

@[simp] theorem channel_produce_not (d : ClientSide) (tr : List Event) (a : Duplex.ProduceAct Entry) :
    channel d (tr ++ [.link (.produce d.not a)]) = channel d tr := by
  rw [channel_link, Duplex.chanAct_produce_not]
  rfl

@[simp] theorem channel_consume (d : ClientSide) (tr : List Event) (a : Duplex.ConsumeAct Entry) :
    channel d (tr ++ [.link (.consume d a)]) = channel d tr := by
  rw [channel_link, Duplex.chanAct_consume]
  rfl

@[simp] theorem channel_consume_not (d : ClientSide) (tr : List Event) (a : Duplex.ConsumeAct Entry) :
    channel d (tr ++ [.link (.consume d.not a)]) = (channel d tr).applyOpt (Duplex.consumeAct a) := by
  rw [channel_link, Duplex.chanAct_consume_not]

theorem channel_of_access_none (d : ClientSide) (tr : List Event) {a : Event} (h : a.access = none) :
    channel d (tr ++ [a]) = channel d tr := by
  simp [channel, h]

/-- The condition on a step that each direction of the ring is a channel with `cap` slots. -/
def Linked {σ : Type} (cap : Nat) (tr : List Event) (_ : σ) (a : Event) : Prop :=
  ∀ e d b, a = .link e → Duplex.chanAct d e = some b → Chan.Allowed cap (channel d tr) b

/-! ### Positions on the way -/

def position (data : Entry) : Nat := (fromLeBytes data).toNat

/-- Positions that go up from one to another. -/
def Ascends (lo : Nat) (l : List Nat) (hi : Nat) : Prop := List.Pairwise (· ≤ ·) (lo :: (l ++ [hi]))

variable {lo lo' hi hi' n : Nat} {l l' : List Nat}

namespace Ascends

theorem le (h : Ascends lo l hi) : lo ≤ hi := List.rel_of_pairwise_cons h (by simp)

private theorem cons_iff : Ascends lo (n :: l) hi ↔ lo ≤ n ∧ Ascends n l hi := by
  constructor
  · intro h
    exact ⟨List.rel_of_pairwise_cons h (by simp), (List.pairwise_cons.1 h).2⟩
  · rintro ⟨hle, h⟩
    refine List.pairwise_cons.2 ⟨fun k hk => ?_, h⟩
    rcases List.mem_cons.1 hk with rfl | hk
    · exact hle
    · exact Nat.le_trans hle (List.rel_of_pairwise_cons h hk)

private theorem mono (h : Ascends lo l hi) (hle : hi ≤ hi') : Ascends lo l hi' := by
  induction l generalizing lo with
  | nil => simpa [Ascends] using Nat.le_trans h.le hle
  | cons n l ih =>
    obtain ⟨hn, h⟩ := cons_iff.1 h
    exact cons_iff.2 ⟨hn, ih h⟩

private theorem weaken (h : Ascends lo l hi) (hle : lo' ≤ lo) : Ascends lo' l hi :=
  List.pairwise_cons.2 ⟨fun _ hk => Nat.le_trans hle (List.rel_of_pairwise_cons h hk), (List.pairwise_cons.1 h).2⟩

/-- The position that is reached is sent. -/
private theorem snoc (h : Ascends lo l hi) : Ascends lo (l ++ [hi]) hi := by
  induction l generalizing lo with
  | nil => exact cons_iff.2 ⟨h.le, by simp [Ascends]⟩
  | cons n l ih =>
    obtain ⟨hn, h⟩ := cons_iff.1 h
    exact cons_iff.2 ⟨hn, ih h⟩

private theorem sublist (h : Ascends lo l hi) (hs : l'.Sublist l) : Ascends lo l' hi :=
  List.Pairwise.sublist ((hs.append (List.Sublist.refl _)).cons_cons lo) h

end Ascends

/-- The positions that are still to be taken from a channel. -/
structure Announced (c : Chan Entry) (lo hi : Nat) : Prop where
  read_le : c.read ≤ c.published.length
  released_le : c.released ≤ c.read
  ascends : Ascends lo (c.pending.map position) hi

namespace Announced

variable {c : Chan Entry} {cap : Nat} {data : Entry} {b : Chan.Act Entry}

theorem empty (h : lo ≤ hi) : Announced Chan.empty lo hi :=
  ⟨Nat.le_refl _, Nat.le_refl _, by simpa [Ascends, Chan.pending, Chan.empty, Chan.all] using h⟩

theorem mono (h : Announced c lo hi) (hle : hi ≤ hi') : Announced c lo hi' :=
  ⟨h.read_le, h.released_le, h.ascends.mono hle⟩

theorem weaken (h : Announced c lo hi) (hle : lo' ≤ lo) : Announced c lo' hi :=
  ⟨h.read_le, h.released_le, h.ascends.weaken hle⟩

theorem write (h : Announced c lo hi) (hdata : position data = hi) : Announced (c.apply (.write data)) lo hi := by
  refine ⟨h.read_le, h.released_le, ?_⟩
  rw [Chan.pending_write h.read_le, List.map_append, List.map_singleton, hdata]
  exact h.ascends.snoc

/-- What is taken is no less than what was taken before. -/
theorem take (h : Announced c lo hi) (ha : Chan.Allowed cap c (.take data)) :
    lo ≤ position data ∧ Announced (c.apply (.take data)) (position data) hi := by
  have hasc := h.ascends
  rw [Chan.pending_take ha, List.map_cons, Ascends.cons_iff] at hasc
  have hx : c.published[c.read]? = some data := ha
  refine ⟨hasc.1, (List.getElem?_eq_some_iff.1 hx).1, ?_, hasc.2⟩
  have := h.released_le
  simp only [Chan.apply]
  omega

theorem other (h : Announced c lo hi) (hwrite : ∀ x, b ≠ .write x) (htake : ∀ x, b ≠ .take x)
    (hrewind : b = .rewind → c.read = c.released) : Announced (c.apply b) lo hi := by
  obtain ⟨hr, hl, hasc⟩ := h
  refine ⟨?_, ?_, hasc.sublist ((Chan.pending_sublist hwrite hrewind).map _)⟩
  · cases b with
    | take x => exact absurd rfl (htake x)
    | publish =>
      simp only [Chan.apply, List.length_append]
      omega
    | rewind =>
      simp only [Chan.apply]
      omega
    | _ => exact hr
  · cases b with
    | take x => exact absurd rfl (htake x)
    | release => exact Nat.le_refl _
    | rewind => exact Nat.le_refl _
    | _ => exact hl

end Announced

/-! ### What a task can do -/

namespace Task

variable {ρ : Type} {count : ρ → Exec ρ} {pos : UInt64 → UInt64} {t t' : Task ρ} {data : Entry}

theorem reapPc_cases {pc pc' : Pc} {a : Duplex.ConsumeAct Entry} (h : reapPc pc a = some pc') :
    (∃ p, pc' = .reaping p) ∨ pc' = .working := by
  cases a <;> simp only [reapPc] at h <;> split at h <;> cases h
  case drop => exact .inr rfl
  all_goals exact .inl ⟨_, rfl⟩

theorem announcePc_cases {pc pc' : Pc} {entry : Entry} {a : Duplex.ProduceAct Entry}
    (h : announcePc entry pc a = some pc') : (∃ p, pc' = .announcing p) ∨ pc' = .settled := by
  cases a with
  | unwind => cases h
  | drop =>
    simp only [announcePc] at h
    split at h <;> cases h
    exact .inr rfl
  | _ =>
    simp only [announcePc] at h
    split at h <;> cases h
    exact .inl ⟨_, rfl⟩

/-- A task that uses its consumer takes an entry, or only moves on. -/
theorem reap_cases {a : Duplex.ConsumeAct Entry} (h : t.reap count pos a = some t') :
    (∃ data, a = .next data ∧ t' = t.enter (.reaping .iterating) (t.receive count pos data)) ∨
    ((∀ data, a ≠ .next data) ∧ ∃ pc, reapPc t.pc a = some pc ∧ t' = { t with pc }) := by
  obtain ⟨pc, hpc, rfl⟩ := Option.map_eq_some_iff.1 h
  cases a with
  | next data =>
    refine .inl ⟨data, rfl, ?_⟩
    simp only [reapPc] at hpc
    split at hpc <;> cases hpc
    rfl
  | _ => exact .inr ⟨nofun, pc, hpc, rfl⟩

/-- A task that uses its producer has pushed an entry, or only moves on. -/
theorem announce_cases {a : Duplex.ProduceAct Entry} (h : t.announce a = some t') :
    (∃ k, a = .pushed (k + 1) ∧ t' = { t with pc := .announcing .pushed, released := t.sequence }) ∨
    ((∀ k, a ≠ .pushed (k + 1)) ∧ ∃ pc, announcePc (toLeBytes t.sequence) t.pc a = some pc ∧ t' = { t with pc }) := by
  obtain ⟨pc, hpc, rfl⟩ := Option.map_eq_some_iff.1 h
  cases a with
  | pushed k =>
    cases k with
    | zero => exact .inr ⟨nofun, pc, hpc, rfl⟩
    | succ k =>
      refine .inl ⟨k, rfl, ?_⟩
      simp only [announcePc] at hpc
      split at hpc <;> cases hpc
      rfl
  | _ => exact .inr ⟨nofun, pc, hpc, rfl⟩

/-- The entry that a task writes is the position that it is at. -/
theorem announce_write {slot : Nat} (h : t.announce (.write slot data) = some t') :
    position data = t.sequence.toNat := by
  obtain ⟨pc, hpc, -⟩ := Option.map_eq_some_iff.1 h
  simp only [announcePc] at hpc
  split at hpc <;> cases hpc
  rename_i hdata
  rw [position, hdata.2, fromLeBytes_toLeBytes]

/-- What a task takes moves neither its position nor what it has released. -/
theorem reap_same {a : Duplex.ConsumeAct Entry} (h : t.reap count pos a = some t') :
    t'.sequence = t.sequence ∧ t'.released = t.released := by
  rcases t.reap_cases h with ⟨data, -, rfl⟩ | ⟨-, pc, -, rfl⟩
  · unfold receive
    cases count t.headReceive with
    | error f => exact ⟨rfl, rfl⟩
    | ok n =>
      simp only [bind, Except.bind]
      cases t.available.extend (pos (fromLeBytes data)) <;> exact ⟨rfl, rfl⟩
  · exact ⟨rfl, rfl⟩

theorem announce_same {a : Duplex.ProduceAct Entry} (h : t.announce a = some t') :
    t'.sequence = t.sequence ∧ t'.available = t.available := by
  rcases t.announce_cases h with ⟨k, -, rfl⟩ | ⟨-, pc, -, rfl⟩ <;> exact ⟨rfl, rfl⟩

theorem announce_pc {a : Duplex.ProduceAct Entry} (h : t.announce a = some t') :
    (∃ p, t.pc = .announcing p) ∧ ((∃ p, t'.pc = .announcing p) ∨ t'.pc = .settled) := by
  obtain ⟨pc, hpc, ht⟩ := Option.map_eq_some_iff.1 h
  constructor
  · cases a with
    | unwind => cases hpc
    | pushed count =>
      simp only [announcePc] at hpc
      split at hpc <;> cases hpc
      rename_i hcount
      rcases hcount with ⟨hpc, -⟩ | ⟨hpc, -⟩ <;> exact ⟨_, hpc⟩
    | draw data | write slot data =>
      simp only [announcePc] at hpc
      split at hpc <;> cases hpc
      rename_i hpc
      exact ⟨_, hpc.1⟩
    | _ =>
      simp only [announcePc] at hpc
      split at hpc <;> cases hpc
      exact ⟨_, by assumption⟩
  · have hcases := announcePc_cases hpc
    cases a with
    | pushed count => cases count <;> exact ht ▸ hcases
    | _ => exact ht ▸ hcases

/-- A task that takes an entry goes on, or is aborted. -/
theorem reap_pc {a : Duplex.ConsumeAct Entry} (h : t.reap count pos a = some t') :
    (t.pc = .ready ∨ ∃ p, t.pc = .reaping p) ∧ ∀ p, t'.pc ≠ .announcing p := by
  constructor
  · obtain ⟨pc, hpc, -⟩ := Option.map_eq_some_iff.1 h
    cases a with
    | new =>
      simp only [reapPc] at hpc
      split at hpc <;> cases hpc
      exact .inl (by assumption)
    | _ =>
      simp only [reapPc] at hpc
      split at hpc <;> cases hpc
      exact .inr ⟨_, by assumption⟩
  · intro p hp
    rcases t.reap_cases h with ⟨data, -, rfl⟩ | ⟨-, pc, hpc, rfl⟩
    · cases hr : t.receive count pos data with
      | ok t'' => rw [hr] at hp; cases hp
      | error f => rw [hr] at hp; cases hp
    · rcases reapPc_cases hpc with ⟨q, rfl⟩ | rfl <;> cases hp

/-- A consumer is dropped behind its `sync`. -/
theorem reap_drop (h : t.reap count pos .drop = some t') : t.pc = .reaping .stored := by
  obtain ⟨pc, hpc, -⟩ := Option.map_eq_some_iff.1 h
  simp only [reapPc] at hpc
  split at hpc <;> cases hpc
  assumption

end Task

/-! ### What a half can do -/

theorem Pc.openFault_pc {b : Build} {r : Ring} {m : Mem} {pc : Pc} {f : Fault} (h : pc.openFault b r m = some f) :
    pc = .ready ∨ pc = .announcing .start := by
  unfold openFault at h
  split at h
  · exact .inl rfl
  · exact .inr rfl
  · cases h

/-- The steps of the output half that are no accesses to the ring. -/
inductive OutputStep (x : Ctx) (s : State) : OutputAct → State → Prop
  | resume (hpc : s.output.task.pc = .waiting) : OutputStep x s .resume { s with output.task.pc := .ready }
  | fill {copied lost : Nat} {output : OutputRing} {mem : Mem} (hpc : s.output.task.pc = .working)
      (hflush : s.output.outstandingFlush = 0) (hfill : s.output.fill x s.mem = .ok (output, mem))
      (hcopied : output.task.sequence.toNat = s.output.task.sequence.toNat + copied)
      (hlost : (payload s.output.buffer).length = copied + lost + (payload output.buffer).length) :
      OutputStep x s (.fill copied lost) { s with output, mem }
  | fillError {copied lost : Nat} {f : Fault} (hpc : s.output.task.pc = .working)
      (hflush : s.output.outstandingFlush = 0) (hfill : s.output.fill x s.mem = .error f) :
      OutputStep x s (.fill copied lost) { s with output.task.pc := .aborted f }
  | reportFlushed (hpc : s.output.task.pc = .working) (hflush : s.output.outstandingFlush ≠ 0)
      (hflushed : s.output.isFlushed x = true) :
      OutputStep x s .reportFlushed { s with output := { s.output with
        flushed := s.output.flushed + s.output.outstandingFlush, outstandingFlush := 0 }.proceed }
  | keepFlushing (hpc : s.output.task.pc = .working) (hflush : s.output.outstandingFlush ≠ 0)
      (hflushed : s.output.isFlushed x = false) :
      OutputStep x s .keepFlushing { s with output := s.output.proceed }
  | yieldNow (hpc : s.output.task.pc = .settled) : OutputStep x s .yieldNow { s with output.task.pc := .waiting }
  | unwrap {f : Fault} (hopen : s.output.task.pc.openFault x.build x.output s.mem = some f) :
      OutputStep x s .unwrap { s with output.task.pc := .aborted f }
  | writeEmpty {bytes : Slice} (hempty : bytes.1.isEmpty = true) : OutputStep x s (.write bytes) s
  | write {bytes : Slice} (hempty : bytes.1.isEmpty = false) :
      OutputStep x s (.write bytes) { s with output.buffer := s.output.buffer ++ [.some bytes] }
  | raiseFlush : OutputStep x s .raiseFlush { s with output.flushLevel := s.output.flushLevel + 1 }
  | pushFlush : OutputStep x s .pushFlush { s with output.buffer := s.output.buffer ++ [.some ⟨[], by decide⟩] }
  | close : OutputStep x s .close { s with output.buffer := s.output.buffer ++ [.eof] }

/-- The steps of the input half that are no accesses to the ring. -/
inductive InputStep (x : Ctx) (s : State) : InputAct → State → Prop
  | acquire (hpc : s.input.task.pc = .waiting) (hclosed : s.input.closed = false) (hpos : 0 < s.input.permits) :
      InputStep x s .acquire { s with input := { s.input with
        permits := s.input.permits - 1, permit := true, task := { s.input.task with pc := .ready } } }
  | acquireError (hpc : s.input.task.pc = .waiting) (hclosed : s.input.closed = true) :
      InputStep x s .acquireError { s with input.task.pc := .ended }
  | consume {n : Nat} {input : InputRing} (hpc : s.input.task.pc = .working)
      (hconsume : s.input.consume x s.mem = .ok input)
      (hn : input.task.sequence.toNat = s.input.task.sequence.toNat + n) :
      InputStep x s (.consume n) { s with input }
  | consumeError {n : Nat} {f : Fault} (hpc : s.input.task.pc = .working)
      (hconsume : s.input.consume x s.mem = .error f) :
      InputStep x s (.consume n) { s with input.task.pc := .aborted f }
  | wait {r : WaitResult} (hpc : s.input.task.pc = .settled) :
      InputStep x s (.wait r) { s with input := s.input.wait r }
  | ioError (hpc : s.input.task.pc = .settled) :
      InputStep x s .ioError { s with input := { s.input.dropPermit with task := { s.input.task with pc := .ended } } }
  | unwrap {f : Fault} (hopen : s.input.task.pc.openFault x.build x.input s.mem = some f) :
      InputStep x s .unwrap { s with input.task.pc := .aborted f }
  | read (size : Nat) : InputStep x s (.read size (s.input.read size).1) { s with input := (s.input.read size).2 }

section

variable {x : Ctx} {s s' : State}

theorem OutputStep.of_eq {a : OutputAct} (h : outputStep x s a = some s') : OutputStep x s a s' := by
  cases a with
  | fill copied lost =>
    simp only [outputStep] at h
    split at h
    · rename_i hpc
      split at h
      · rename_i hfill
        split at h
        · rename_i hlen
          cases h
          exact .fill hpc.1 hpc.2 hfill hlen.1 hlen.2
        · cases h
      · rename_i hfill
        cases h
        exact .fillError hpc.1 hpc.2 hfill
    · cases h
  | write bytes =>
    simp only [outputStep] at h
    split at h <;> cases h
    · rename_i hempty
      exact .writeEmpty hempty
    · rename_i hempty
      exact .write (Bool.eq_false_iff.2 hempty)
  | resume =>
    simp only [outputStep] at h
    split at h <;> cases h
    rename_i hpc
    exact .resume hpc
  | reportFlushed =>
    simp only [outputStep] at h
    split at h <;> cases h
    rename_i hpc
    exact .reportFlushed hpc.1 hpc.2.1 hpc.2.2
  | keepFlushing =>
    simp only [outputStep] at h
    split at h <;> cases h
    rename_i hpc
    exact .keepFlushing hpc.1 hpc.2.1 (Bool.eq_false_iff.2 hpc.2.2)
  | yieldNow =>
    simp only [outputStep] at h
    split at h <;> cases h
    rename_i hpc
    exact .yieldNow hpc
  | unwrap =>
    obtain ⟨f, hopen, rfl⟩ := Option.map_eq_some_iff.1 h
    exact .unwrap hopen
  | raiseFlush => cases h; exact .raiseFlush
  | pushFlush => cases h; exact .pushFlush
  | close => cases h; exact .close

theorem InputStep.of_eq {a : InputAct} (h : inputStep x s a = some s') : InputStep x s a s' := by
  cases a with
  | consume n =>
    simp only [inputStep] at h
    split at h
    · rename_i hpc
      split at h
      · rename_i hconsume
        split at h <;> cases h
        rename_i hn
        exact .consume hpc hconsume hn
      · rename_i hconsume
        cases h
        exact .consumeError hpc hconsume
    · cases h
  | acquire =>
    simp only [inputStep] at h
    split at h <;> cases h
    rename_i hpc
    exact .acquire hpc.1 hpc.2.1 hpc.2.2
  | unwrap =>
    obtain ⟨f, hopen, rfl⟩ := Option.map_eq_some_iff.1 h
    exact .unwrap hopen
  | acquireError =>
    simp only [inputStep] at h
    split at h <;> cases h
    rename_i hpc
    exact .acquireError hpc.1 hpc.2
  | wait r =>
    simp only [inputStep] at h
    split at h <;> cases h
    rename_i hpc
    exact .wait hpc
  | ioError =>
    simp only [inputStep] at h
    split at h <;> cases h
    rename_i hpc
    exact .ioError hpc
  | read size r =>
    simp only [inputStep] at h
    split at h <;> cases h
    rename_i hr
    exact hr ▸ .read size

end

end ByteStream

end ShmRing
