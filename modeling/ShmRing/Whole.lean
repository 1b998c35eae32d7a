import ShmRing.Piped
import ShmRing.Wired

/-!
# Both halves of a stream on one memory

The tasks of the two halves with the handles that they open on the ring, on the memory that holds the words of the
ring, its slots and its data.  Between any two accesses of one task the other may move.  What the tasks do to a ring
whose directions are channels they do to this one, as long as its directions keep apart: `Whole.invariant` is the rule
by which an invariant of the tasks is one of such a run, and `transfers_of_run` is what it says of the bytes.
-/

namespace ShmRing

open Machine Bytes Transition

namespace ByteStream

/-- Both halves, with the handle that the task of each side has open. -/
structure Whole where
  stream : State
  handle : ClientSide → Duplex.Handle Entry

namespace Whole

def ring (w : Whole) : Duplex.State Mem Entry := ⟨w.stream.mem, w.handle⟩

def new (x : Ctx) (m : Mem) : Whole := ⟨.new x m, fun _ => .closed⟩

/-- The ring and a task that has an access to it go together; the other steps leave the handles alone. -/
def step (x : Ctx) (y : Duplex.Ctx Mem Entry) (w : Whole) : Event → Option Whole
  | .link e =>
    (linkStep x w.stream e).bind fun s =>
      (Duplex.step y w.ring e).map fun r => ⟨{ s with mem := r.mem }, r.handle⟩
  | a => (ByteStream.step x w.stream a).map fun s => { w with stream := s }

end Whole

/-- The ring of a stream: its words and slots are apart from its record and its data. -/
structure Wired (x : Ctx) (y : Duplex.Ctx Mem Entry) : Prop where
  fits : y.Fits
  store : ∀ w v m, y.info.headRegion.Frame m (y.port.store w v m)
  set : ∀ i data m, i < y.port.len → y.info.ringRegion.Frame m (y.port.set i data m)
  load : ∀ w m m', y.info.dataRegion.Frame m m' → y.port.load w m' = y.port.load w m
  get : ∀ i m m', i < y.port.len → y.info.dataRegion.Frame m m' → y.port.get i m' = y.port.get i m
  head_data : y.info.headRegion.Apart y.info.dataRegion
  ring_data : y.info.ringRegion.Apart y.info.dataRegion
  head_record : y.info.headRegion.Apart ⟨x.output.slot.info, RingInfo.size⟩
  ring_record : y.info.ringRegion.Apart ⟨x.output.slot.info, RingInfo.size⟩

/-- A ring for a stream that both sides have just joined. -/
structure Opened (x : Ctx) (y : Duplex.Ctx Mem Entry) (m : Mem) : Prop where
  wired : Wired x y
  valid : x.Valid m
  info_eq : x.output.info m = y.info
  reset : Duplex.Reset y m

/-- A change of the memory that touches neither the record nor the data of the ring. -/
def Elsewhere (x : Ctx) (info : RingInfo) (m m' : Mem) : Prop :=
  ∃ r : Region, r.Apart ⟨x.output.slot.info, RingInfo.size⟩ ∧ r.Apart info.dataRegion ∧ r.Frame m m'

/-- The condition on a run that its directions keep apart: no producer is opened on a wrapped head, and no write
changes an entry of the other direction that is still to be taken. -/
def KeepsApart {σ : Type} (y : Duplex.Ctx Mem Entry) (tr : List Event) (_ : σ) : Event → Prop
  | .link (.produce d .new) => (channel d tr).published.length < 2 ^ 32
  | .link (.produce d (.write slot data)) => ∀ i, i < (channel d.not tr).all.length → (channel d.not tr).read ≤ i →
      i % y.count = slot → (channel d.not tr).all[i]? = some data
  | _ => True

instance {σ : Type} (y : Duplex.Ctx Mem Entry) (tr : List Event) (w : σ) (a : Event) :
    Decidable (KeepsApart y tr w a) := by
  unfold KeepsApart
  split <;> infer_instance

section

variable {x : Ctx} {y : Duplex.Ctx Mem Entry} {m m' : Mem} {tr : List Event} {s s' : State} {w w' : Whole} {a : Event}

/-! ### The memory -/

private theorem Elsewhere.refl (hx : Wired x y) (m : Mem) : Elsewhere x y.info m m :=
  ⟨_, hx.head_record, hx.head_data, Region.Frame.refl _ _⟩

/-- The handles write elsewhere. -/
private theorem Wired.elsewhere (hx : Wired x y) {st st' : Duplex.State Mem Entry} {e : Duplex.Event Entry}
    (h : Duplex.step y st e = some st') : Elsewhere x y.info st.mem st'.mem := by
  rcases Duplex.step_cases h with ⟨side, a, -, hp, -⟩ | ⟨side, a, -, hp, -⟩
  · revert hp
    generalize st.handle side = hnd, st'.handle side = hnd', st.mem = m, st'.mem = m'
    intro hp
    cases hp with
    | write hlt => exact ⟨_, hx.ring_record, hx.ring_data, hx.set _ _ _ hlt⟩
    | syncStore => exact ⟨_, hx.head_record, hx.head_data, hx.store _ _ _⟩
    | _ => exact Elsewhere.refl hx _
  · revert hp
    generalize st.handle side = hnd, st'.handle side = hnd', st.mem = m, st'.mem = m'
    intro hp
    cases hp with
    | syncStore => exact ⟨_, hx.head_record, hx.head_data, hx.store _ _ _⟩
    | _ => exact Elsewhere.refl hx _

private theorem Elsewhere.info_eq {info : RingInfo} (h : Elsewhere x info m m') :
    x.output.info m' = x.output.info m := by
  obtain ⟨r, hr, -, hf⟩ := h
  exact RingInfo.read_frame hf hr.symm

private theorem Space.of_info {r : Ring} {size : UInt64} (h : r.Space size m) (hinfo : r.info m' = r.info m) :
    r.Space size m' := by
  refine ⟨⟨?_, ?_⟩, ?_, h.pow, ?_⟩
  · rw [hinfo]; exact h.checked.joinable
  · rw [hinfo]; exact h.checked.head_eq
  · rw [hinfo]; exact h.apart
  · rw [hinfo]; exact h.le

private theorem Inv.elsewhere {info : RingInfo} (h : Inv x tr s) (hm : Elsewhere x info s.mem m') :
    Inv x tr { s with mem := m' } := by
  have hinfo := hm.info_eq
  have hinfo' : x.input.info m' = x.input.info s.mem := by
    rw [h.valid.info_eq, h.valid.info_eq, hinfo]
  exact ⟨⟨Space.of_info h.valid.output hinfo, Space.of_info h.valid.input hinfo', h.valid.same⟩, h.announced, h.acked,
    h.input_le, h.output_le, h.output_synced, h.input_synced⟩

/-- The bytes of the stream are in the data. -/
private theorem Inv.pipe_elsewhere (h : Inv x tr s) (hinfo : x.output.info s.mem = y.info)
    (hm : Elsewhere x y.info s.mem m') : State.pipe x { s with mem := m' } = s.pipe x := by
  have hinfo' := hm.info_eq
  obtain ⟨r, -, hdata, hf⟩ := hm
  have hwindow : State.window x { s with mem := m' } = s.window x := by
    simp only [State.window, hinfo']
    refine List.map_congr_left fun i _ => hf _ ?_
    have hlt := Nat.mod_lt (s.input.task.sequence.toNat + i) h.valid.output.pos
    have hle := h.valid.output.le
    refine hdata.symm.not_mem (Region.mem_iff.2 ?_)
    rw [hinfo] at hle ⊢
    simp only [RingInfo.dataRegion]
    omega
  simp only [State.pipe, hwindow]

/-! ### Runs -/

namespace Whole

/-- The invariant of a run whose directions keep apart. -/
structure Joint (x : Ctx) (y : Duplex.Ctx Mem Entry) (tr : List Event) (w : Whole) : Prop where
  inv : Inv x tr w.stream
  safe : Duplex.Safe y (tr.filterMap Event.access) w.ring
  info_eq : x.output.info w.stream.mem = y.info

theorem Joint.new (hm : Opened x y m) : Joint x y [] (new x m) :=
  ⟨Inv.new hm.valid, ⟨Duplex.bothCounters_init hm.reset, Duplex.bothExact_init, Duplex.bothHeld_init⟩, hm.info_eq⟩

/-- The tasks drop a consumer only when it has synced what it has yielded. -/
private theorem Joint.apart (h : Joint x y tr w) (hk : KeepsApart y tr w a) {e : Duplex.Event Entry} (ha : a = .link e)
    (hs : linkStep x w.stream e = some s) : Duplex.Apart y (tr.filterMap Event.access) w.ring e where
  notWrapped d he := by
    subst ha he
    exact hk
  write d slot data he i e' hi hget hslot := by
    subst ha he
    have hsome := hk i (List.getElem?_eq_some_iff.1 hget).1 hi hslot
    exact Option.some.inj (hget.symm.trans hsome)
  drop side he := by
    subst he
    rcases linkStep_cases hs with ⟨b, o, he, -, -⟩ | ⟨b, i, he, -, -⟩ | ⟨b, o, he, ho, -⟩ | ⟨b, i, he, hi, -⟩
    · cases he
    · cases he
    · cases he
      obtain ⟨t, ht, -⟩ := Option.map_eq_some_iff.1 ho
      exact h.inv.output_synced (Task.reap_drop ht)
    · cases he
      obtain ⟨t, ht, -⟩ := Option.map_eq_some_iff.1 hi
      have := h.inv.input_synced (Task.reap_drop ht)
      rwa [ClientSide.not_not]

/-- A task has an access to the ring, or the handles stay as they are. -/
theorem step_cases (hs : step x y w a = some w') :
    (∃ e s, a = .link e ∧ linkStep x w.stream e = some s ∧ s.mem = w.stream.mem ∧
      Duplex.step y w.ring e = some w'.ring ∧ w'.stream = { s with mem := w'.stream.mem }) ∨
    (a.access = none ∧ ByteStream.step x w.stream a = some w'.stream ∧ w'.handle = w.handle) := by
  cases a with
  | link e =>
    obtain ⟨s, hlink, hs⟩ := Option.bind_eq_some_iff.1 hs
    obtain ⟨r, hr, rfl⟩ := Option.map_eq_some_iff.1 hs
    refine .inl ⟨e, s, rfl, hlink, ?_, hr, rfl⟩
    rcases linkStep_cases hlink with ⟨b, o, -, -, rfl⟩ | ⟨b, i, -, -, rfl⟩ | ⟨b, o, -, -, rfl⟩ |
      ⟨b, i, -, -, rfl⟩ <;> rfl
  | output b =>
    obtain ⟨s, hstep, rfl⟩ := Option.map_eq_some_iff.1 hs
    exact .inr ⟨rfl, hstep, rfl⟩
  | input b =>
    obtain ⟨s, hstep, rfl⟩ := Option.map_eq_some_iff.1 hs
    exact .inr ⟨rfl, hstep, rfl⟩

/-- The directions of the ring are channels. -/
private theorem Joint.linked (h : Joint x y tr w) (hx : Wired x y) (hs : step x y w a = some w') :
    Linked y.count tr w.stream a := by
  rintro e d b rfl hb
  rcases step_cases hs with ⟨e', s, he, -, -, hr, -⟩ | ⟨ha, -, -⟩
  · cases he
    exact h.safe.allowed hx.fits hr hb
  · cases ha

/-- The steps that are no accesses to the ring change the memory in the data only. -/
private theorem Joint.data_frame (h : Joint x y tr w) (ha : a.access = none)
    (hs : ByteStream.step x w.stream a = some s) : y.info.dataRegion.Frame w.stream.mem s.mem := by
  rw [← h.info_eq]
  cases a with
  | link e => cases ha
  | output b =>
    cases OutputStep.of_eq hs with
    | fill | fillError =>
      obtain ⟨out, hfills, heq, -⟩ := h.inv.fill_cases hs
      rw [heq]
      exact h.inv.valid.output.frame_of_differIn hfills.window
    | _ => exact Region.Frame.refl _ _
  | input b =>
    cases InputStep.of_eq hs with
    | consume | consumeError =>
      obtain ⟨data, heq, -⟩ := h.inv.consume_cases hs
      rw [heq]
      exact Region.Frame.refl _ _
    | _ => exact Region.Frame.refl _ _

theorem Joint.step (h : Joint x y tr w) (hx : Wired x y) (hk : KeepsApart y tr w a)
    (hs : Whole.step x y w a = some w') : Joint x y (tr ++ [a]) w' := by
  have hlinked := h.linked hx hs
  rcases step_cases hs with ⟨e, s, rfl, hlink, hmem, hr, hw⟩ | ⟨ha, hstep, hhandle⟩
  · have helse : Elsewhere x y.info s.mem w'.stream.mem := hmem ▸ hx.elsewhere hr
    have hstep : ByteStream.step x w.stream (.link e) = some s := hlink
    have hinv := (h.inv.step hlinked hstep).elsewhere helse
    rw [← hw] at hinv
    refine ⟨hinv, ?_, by rw [helse.info_eq, hmem, h.info_eq]⟩
    rw [List.filterMap_append]
    exact h.safe.step hx.fits (h.apart hk rfl hlink) hr
  · have hdata := h.data_frame ha hstep
    have hinfo := h.inv.valid.output.info_eq (by rw [h.info_eq]; exact hdata)
    refine ⟨h.inv.step hlinked hstep, ?_, by rw [hinfo, h.info_eq]⟩
    have hring : w'.ring = { w.ring with mem := w'.stream.mem } := by
      rw [ring, ring, hhandle]
    rw [hring, List.filterMap_append, show [a].filterMap Event.access = [] by simp [ha], List.append_nil]
    exact h.safe.congr hx.fits (fun v => hx.load v _ _ hdata) fun i hi => hx.get i _ _ hi hdata

/-- The rule: an invariant of the tasks, over a ring whose directions are channels, that sees no change elsewhere. -/
theorem invariant {I : List Event → State → Prop} (hm : Opened x y m)
    (h : RunWhere (Whole.step x y) (KeepsApart y) (new x m) tr w) (h₀ : I [] (.new x m))
    (hstep : ∀ tr s a s', Inv x tr s → Linked y.count tr s a → I tr s → ByteStream.step x s a = some s' →
      I (tr ++ [a]) s')
    (hmem : ∀ tr s m', Inv x tr s → x.output.info s.mem = y.info → Elsewhere x y.info s.mem m' → I tr s →
      I tr { s with mem := m' }) : I tr w.stream := by
  refine (RunWhere.invariant (I := fun tr w => Joint x y tr w ∧ I tr w.stream) h ⟨Joint.new hm, h₀⟩ ?_).2
  rintro tr w a w' ⟨hj, hi⟩ hk hs
  refine ⟨hj.step hm.wired hk hs, ?_⟩
  have hlinked := hj.linked hm.wired hs
  rcases step_cases hs with ⟨e, s, rfl, hlink, hmem', hr, hw⟩ | ⟨ha, hs', hhandle⟩
  · have helse : Elsewhere x y.info s.mem w'.stream.mem := hmem' ▸ hm.wired.elsewhere hr
    have hs' : ByteStream.step x w.stream (.link e) = some s := hlink
    rw [hw]
    exact hmem _ _ _ (hj.inv.step hlinked hs') (by rw [hmem', hj.info_eq]) helse
      (hstep _ _ _ _ hj.inv hlinked hi hs')
  · exact hstep _ _ _ _ hj.inv hlinked hi hs'

theorem joint_of_run (hm : Opened x y m) (h : RunWhere (Whole.step x y) (KeepsApart y) (new x m) tr w) :
    Joint x y tr w :=
  RunWhere.invariant (I := Joint x y) h (Joint.new hm) fun _ _ _ _ hj hk hs => hj.step hm.wired hk hs

/-- The stream is a pipe, and its window is the space of the ring. -/
theorem pipe_of_run (hm : Opened x y m) (h : RunWhere (Whole.step x y) (KeepsApart y) (new x m) tr w) :
    Run (Pipe.step x.size.toNat) Pipe.empty (tr.filterMap pipeAct) (w.stream.pipe x) := by
  refine Whole.invariant (I := fun tr s => Run (Pipe.step x.size.toNat) Pipe.empty (tr.filterMap pipeAct) (s.pipe x))
    hm h Run.nil ?_ ?_
  · intro tr s a s' hi _ hrun hs
    rw [List.filterMap_append]
    rcases hi.pipe_step hs with ⟨hnone, heq⟩ | ⟨b, hb, hstep⟩
    · simpa [hnone, heq] using hrun
    · simpa [hb] using hrun.snoc hstep
  · intro tr s m' hi hinfo helse hrun
    rwa [hi.pipe_elsewhere hinfo helse]

end Whole

/-! ### Rings of a server -/

/-- The references that a record names, if its regions are apart. -/
def ctxOf (b : Build) (info : RingInfo) (h : info.headRegion.Apart info.ringRegion) : Duplex.Ctx Mem Entry where
  build := b
  info := info
  entry := 8
  port := info.lawfulPort 8 h
  len_eq := rfl

private theorem wired_of_apart {b : Build} {info : RingInfo} {h : info.headRegion.Apart info.ringRegion}
    (hfits : (ctxOf b info h).Fits) (hhead : info.headRegion.Apart info.dataRegion)
    (hring : info.ringRegion.Apart info.dataRegion)
    (hhead' : info.headRegion.Apart ⟨x.output.slot.info, RingInfo.size⟩)
    (hring' : info.ringRegion.Apart ⟨x.output.slot.info, RingInfo.size⟩) : Wired x (ctxOf b info h) where
  fits := hfits
  store w v m := (Mem.frame_writeU32 m _ v).mono (info.word_within w)
  set i data m hi := by
    refine (Mem.frame_writeBytes m _ data.toList).mono ?_
    rw [Vector.length_toList]
    exact info.slot_within hi
  load w m m' hf := Mem.readU32_frame hf (hhead.within (info.word_within w))
  get i m m' hi hf := Mem.readBytes_frame hf (hring.within (info.slot_within hi))
  head_data := hhead
  ring_data := hring
  head_record := hhead'
  ring_record := hring'

/-- Two clients that have joined the two sides of one ring of a server open a stream on it, of a size that both
compute alike. -/
theorem opened_of_joined {srv : Server} {cfgs : List RingConfig} {s t : Session} {m₀ : Mem} (h : s.Joined srv m)
    (h' : t.Joined srv m) (hslot : t.ring.slot.info = s.ring.slot.info) (hp : srv.Published cfgs m₀)
    (hs : srv.rings.SameRecords m₀ m) (b : Build) (side : ClientSide)
    (hN : 8 = (s.ring.info m).sizeSlotEntry.toNat) (hpos : (s.ring.info m).sizeData ≠ 0)
    (hreset : Duplex.Reset (s.ctx b m 8 (h.head_apart hp hs)) m) :
    ∃ size, s.ring.usablePowerOfTwoSize b m = .ok size ∧ t.ring.usablePowerOfTwoSize b m = .ok size ∧
      Opened ⟨b, s.ring, t.ring, side, size⟩ (s.ctx b m 8 (h.head_apart hp hs)) m := by
  have hinfo : t.ring.info m = s.ring.info m := by rw [Ring.info, Ring.info, hslot]
  obtain ⟨size, hsize, hspace⟩ := h.space hp hs b hpos
  obtain ⟨size', hsize', hspace'⟩ := h'.space hp hs b (by rw [hinfo]; exact hpos)
  have hsame : t.ring.usablePowerOfTwoSize b m = s.ring.usablePowerOfTwoSize b m := by
    rw [Ring.usablePowerOfTwoSize, Ring.usablePowerOfTwoSize, hinfo]
  obtain rfl : size' = size := Except.ok.inj (hsize'.symm.trans (hsame.trans hsize))
  obtain ⟨cfg, -, -, hplaced⟩ := h.placedAt hp hs
  have hrecord : ∀ r ∈ (s.ring.info m).regions, r.Apart ⟨s.ring.slot.info, RingInfo.size⟩ := by
    intro r hr
    have hle := h.records_le hp hs hr
    have hi := h.index_lt
    refine .inr ?_
    simp only [h.info_eq, Rings.recordAt, RingInfo.size] at hle ⊢
    omega
  have hregions := hplaced.regions_apart
  rw [RingInfo.regions, List.pairwise_cons, List.pairwise_cons] at hregions
  have hwired : Wired ⟨b, s.ring, t.ring, side, size'⟩ (s.ctx b m 8 (h.head_apart hp hs)) :=
    wired_of_apart (h.fits hp hs b hN) (hregions.1 _ (by simp)) (hregions.2.1 _ (by simp))
      (hrecord _ (by simp [RingInfo.regions])) (hrecord _ (by simp [RingInfo.regions]))
  exact ⟨size', hsize, hsize', hwired, ⟨hspace, hspace', hslot⟩, rfl, hreset⟩

/-- What the reads from the input have returned, and what is in the stream, is what was written to the output, in
order and but for what the output has lost.  No more than the space of the ring is on the way. -/
structure Transfers (x : Ctx) (tr : List Event) (s : State) : Prop where
  pipe : Run (Pipe.step x.size.toNat) Pipe.empty (tr.filterMap pipeAct) (s.pipe x)
  subsequence : (bytesRead tr ++ (s.pipe x).content).Sublist (bytesWritten tr)
  complete : (∀ copied lost, .output (.fill copied lost) ∈ tr → lost = 0) →
    bytesRead tr ++ (s.pipe x).content = bytesWritten tr
  window_le : (s.window x).length ≤ x.size.toNat

theorem transfers_of_run (hm : Opened x y m) (h : RunWhere (Whole.step x y) (KeepsApart y) (.new x m) tr w) :
    Transfers x tr w.stream := by
  have hrun := Whole.pipe_of_run hm h
  refine ⟨hrun, ?_, ?_, Pipe.window_le_of_run hrun⟩
  · rw [← taken_pipeAct, ← written_pipeAct]
    exact Pipe.sublist_of_run hrun
  · intro hl
    rw [← taken_pipeAct, ← written_pipeAct]
    exact Pipe.prefix_of_run hrun (lossless_of_fills hl)

end

/-- The record of a ring with two slots of eight bytes and sixteen bytes of data. -/
def streamRecord : RingInfo where
  version := 1
  offsetHead := 4096
  offsetRing := 8192
  offsetData := 12288
  sizeHead := 4096
  sizeRing := 16
  sizeData := 16
  sizeSlotEntry := 8
  lhs := 1
  rhs := 2

/-- The ring, as its left side has joined it for the output and its right side for the input. -/
def streamCtx : Ctx where
  build := .debug
  output := ⟨World.sixPages, ⟨32, 0x41000, .left, ⟨1⟩⟩, ⟨-1⟩⟩
  input := ⟨World.sixPages, ⟨32, 0x41000, .right, ⟨2⟩⟩, ⟨-1⟩⟩
  side := .left
  size := 16

def streamMem : Mem := RingInfo.write (fun _ => 0) 32 streamRecord

def streamRing : Duplex.Ctx Mem Entry := ctxOf .debug streamRecord (by decide)

theorem opened_stream : Opened streamCtx streamRing streamMem where
  wired := by
    refine wired_of_apart ⟨rfl, ⟨1, rfl⟩⟩ ?_ ?_ ?_ ?_ <;> decide
  valid := by
    have hinfo : RingInfo.read streamMem 32 = streamRecord := RingInfo.read_write _ 32 streamRecord
    have haccepts : World.sixPages.Accepts streamRecord.offsetHead RingHead.size 8 ∧
        World.sixPages.Accepts streamRecord.offsetRing streamRecord.sizeRing.toNat streamRecord.sizeSlotEntry.toNat ∧
        World.sixPages.Accepts streamRecord.offsetData streamRecord.sizeData.toNat 1 := by decide
    have hspace : ∀ side pid, Ring.Space ⟨World.sixPages, ⟨32, 0x41000, side, pid⟩, ⟨-1⟩⟩ 16 streamMem := by
      intro side pid
      refine ⟨⟨?_, ?_⟩, ?_, ⟨4, rfl⟩, ?_⟩ <;> rw [Ring.info, hinfo]
      · exact ⟨rfl, haccepts.1, ⟨3, rfl⟩, by decide, haccepts.2.1, haccepts.2.2⟩
      · rfl
      · exact .inr (show 32 + RingInfo.size ≤ 12288 by decide)
      · decide
    exact ⟨hspace _ _, hspace _ _, rfl⟩
  info_eq := RingInfo.read_write _ 32 streamRecord
  reset s := by cases s <;> decide +kernel

/-- A task takes entries from the ring. -/
def reaping (side : ClientSide) (items : List Entry) : List Event :=
  [.link (.consume side .new), .link (.consume side .iter)] ++
    items.map (fun data => .link (.consume side (.next data))) ++
    [.link (.consume side .dropIter), .link (.consume side .syncLoad), .link (.consume side .syncStore),
      .link (.consume side .drop)]

/-- A task pushes a position to the ring. -/
def announcing (side : ClientSide) (slot : Nat) (n : UInt64) : List Event :=
  [.link (.produce side .new), .link (.produce side .pushMany), .link (.produce side (.draw (toLeBytes n))),
    .link (.produce side (.write slot (toLeBytes n))), .link (.produce side (.pushed 1)),
    .link (.produce side .syncLoad), .link (.produce side .syncStore), .link (.produce side .drop)]

/-- Three bytes are written in two frames.  The second frame is announced between what the input does for the first one
and its acknowledgement, so entries of both directions are in the ring. -/
def threeBytes : List Event :=
  [.output (.write ⟨[1, 2], by decide⟩), .output .resume] ++ reaping .left [] ++ [.output (.fill 2 0)] ++
    announcing .left 0 2 ++ [.output .yieldNow, .input .acquire] ++ reaping .right [toLeBytes 2] ++
    [.input (.consume 2), .output (.write ⟨[3], by decide⟩), .output .resume] ++ reaping .left [] ++
    [.output (.fill 1 0)] ++ announcing .left 1 3 ++ announcing .right 0 2 ++
    [.input (.wait .remoteBlocked), .output .yieldNow, .output .resume] ++ reaping .left [toLeBytes 2] ++
    [.input .acquire] ++ reaping .right [toLeBytes 3] ++ [.input (.consume 1), .input (.read 2 (.bytes [1, 2]))]

theorem runWhere_threeBytes : ∃ w, RunWhere (Whole.step streamCtx streamRing) (KeepsApart streamRing)
    (.new streamCtx streamMem) threeBytes w := by
  obtain ⟨w, hw⟩ : ∃ w : Whole, execWhere (Whole.step streamCtx streamRing) (KeepsApart streamRing) []
      (.new streamCtx streamMem) threeBytes = some w :=
    Option.isSome_iff_exists.1 (by decide +kernel)
  exact ⟨w, RunWhere.nil.exec hw⟩

theorem transfers_of_run_threeBytes : ∃ w : Whole, Transfers streamCtx threeBytes w.stream ∧
    bytesRead threeBytes = [1, 2] := by
  obtain ⟨w, hw⟩ := runWhere_threeBytes
  exact ⟨w, transfers_of_run opened_stream hw, rfl⟩

end ByteStream

end ShmRing
