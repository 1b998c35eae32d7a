import ShmRing.Closing

/-!
# What the input buffers

Whoever writes, an input holds no more than its permits allow: each frame in its buffer is one of 32 permits, and the
end may come with one more.  So a guest that does not read is sent no more than 32 windows, and one that has read all
that was buffered has given all permits back (`backlog_of_run`).
-/

namespace ShmRing

open Machine Bytes Transition

namespace ByteStream

/-- In a round, before its work is done. -/
def Pc.began : Pc → Bool
  | .ready | .reaping _ | .working => true
  | _ => false

/-- The permits are free, or the task holds one, or they are in the buffer, one for each frame.  The end may have come
with the last frame, and has none then. -/
structure Permits (x : Ctx) (s : State) : Prop where
  account : ∃ extra, s.input.permits + (if s.input.permit then 1 else 0) + s.input.buffer.length = 32 + extra ∧
    extra ≤ 1 ∧ (extra = 1 → .eof ∈ s.input.buffer)
  held : s.input.task.pc.began = true → s.input.permit = true
  free : s.input.task.pc = .waiting → s.input.permit = false
  frame_le : ∀ frame ∈ s.input.buffer, frame.data.length ≤ x.size.toNat

section

variable {full : List BytesOrEof} {n : Nat}

/-- The number of the frames that are no end marker. -/
def frames (full : List BytesOrEof) : Nat := full.countP BytesOrEof.isSome

private theorem payload_length_le (h : ∀ frame ∈ full, frame.data.length ≤ n) :
    (payload full).length ≤ frames full * n := by
  induction full with
  | nil => exact Nat.zero_le _
  | cons frame full ih =>
    have hrest := ih fun f hf => h f (List.mem_cons_of_mem _ hf)
    have hframe := h frame List.mem_cons_self
    rw [payload, List.flatMap_cons, List.length_append, frames, List.countP_cons]
    change _ + (payload full).length ≤ (frames full + _) * n
    cases frame with
    | some bytes =>
      simp only [BytesOrEof.isSome, if_true, Nat.add_mul, Nat.one_mul]
      omega
    | eof =>
      simp only [BytesOrEof.isSome, BytesOrEof.data, List.length_nil]
      simpa using hrest

/-- The end marker is a frame of no bytes. -/
private theorem frames_lt (h : .eof ∈ full) : frames full < full.length :=
  Nat.lt_of_le_of_ne List.countP_le_length fun heq => by
    have hall := List.countP_eq_length.1 heq _ h
    cases hall

end

private theorem read_permit (i : InputRing) (size : Nat) : (i.read size).2.permit = i.permit := by
  unfold InputRing.read
  split <;> try rfl
  dsimp only
  split <;> rfl

private theorem Task.reap_not_waiting {ρ : Type} {count : ρ → Exec ρ} {pos : UInt64 → UInt64} {t t' : Task ρ}
    {a : Duplex.ConsumeAct Entry} (h : t.reap count pos a = some t') : t'.pc ≠ .waiting := by
  intro hp
  rcases t.reap_cases h with ⟨data, -, rfl⟩ | ⟨-, pc, hpc, rfl⟩
  · cases hr : t.receive count pos data with
    | ok t'' => rw [hr] at hp; cases hp
    | error f => rw [hr] at hp; cases hp
  · rcases reapPc_cases hpc with ⟨q, rfl⟩ | rfl <;> cases hp

namespace Permits

variable {x : Ctx} {y : Duplex.Ctx Mem Entry} {m : Mem} {cap : Nat} {tr : List Event} {s s' : State} {a : Event}

theorem new (x : Ctx) (m : Mem) : Permits x (.new x m) where
  account := ⟨0, rfl, Nat.zero_le _, nofun⟩
  held := nofun
  free _ := rfl
  frame_le := nofun

/-- A step that leaves the buffer and the permits as they are. -/
private theorem of_task (h : Permits x s) (hb : s'.input.buffer = s.input.buffer)
    (hp : s'.input.permits = s.input.permits) (hpermit : s'.input.permit = s.input.permit)
    (hheld : s'.input.task.pc.began = true → s.input.task.pc.began = true)
    (hfree : s'.input.task.pc = .waiting → s.input.task.pc = .waiting) : Permits x s' where
  account := by
    rw [hb, hp, hpermit]
    exact h.account
  held hpc := by
    rw [hpermit]
    exact h.held (hheld hpc)
  free hpc := by
    rw [hpermit]
    exact h.free (hfree hpc)
  frame_le := by
    rw [hb]
    exact h.frame_le

/-- A round ends, and the permit that was not used is free again. -/
private theorem drop (h : Permits x s) {closed : Bool} {task : Task UInt32} (hpc : task.pc.began = false) :
    Permits x { s with input := { s.input.dropPermit with closed, task } } where
  account := by
    obtain ⟨extra, haccount, hextra⟩ := h.account
    exact ⟨extra, by simpa [InputRing.dropPermit] using haccount, hextra⟩
  held hbegan := by
    rw [hpc] at hbegan
    cases hbegan
  free _ := rfl
  frame_le := h.frame_le

private theorem acquire (h : Permits x s) (hpc : s.input.task.pc = .waiting) (hpos : 0 < s.input.permits) :
    Permits x { s with input := { s.input with
      permits := s.input.permits - 1, permit := true, task := { s.input.task with pc := .ready } } } where
  account := by
    obtain ⟨extra, haccount, hextra⟩ := h.account
    rw [h.free hpc] at haccount
    refine ⟨extra, ?_, hextra⟩
    simp only [if_true]
    simp only [Bool.false_eq_true, if_false] at haccount
    omega
  held _ := rfl
  free := nofun
  frame_le := h.frame_le

/-- A frame that is read gives its permit back; the end is never removed. -/
private theorem read (h : Permits x s) (size : Nat) : Permits x { s with input := (s.input.read size).2 } := by
  have htask := s.input.read_task size
  have hpermit := read_permit s.input size
  have heof : .eof ∈ s.input.buffer → .eof ∈ (s.input.read size).2.buffer := by
    rw [eof_mem_iff, eof_mem_iff, behind_read]
    exact id
  obtain ⟨extra, haccount, hextra, hlast⟩ := h.account
  have hframe := h.frame_le
  refine ⟨⟨extra, ?_, hextra, fun he => heof (hlast he)⟩, ?_, ?_, ?_⟩
  · simp only [hpermit]
    unfold InputRing.read
    split
    · exact haccount
    · exact haccount
    · rename_i hbuffer
      rw [hbuffer] at haccount
      dsimp only
      split
      · simp only [List.length_cons] at haccount
        simp only
        omega
      · exact haccount
  · simp only [htask, hpermit]
    exact h.held
  · simp only [htask, hpermit]
    exact h.free
  · unfold InputRing.read
    split
    · exact hframe
    · exact hframe
    · rename_i bytes rest hbuffer
      rw [hbuffer] at hframe
      have hbytes := hframe _ List.mem_cons_self
      have hrest := fun f hf => hframe f (List.mem_cons_of_mem _ hf)
      dsimp only
      split
      · exact hrest
      · intro frame hmem
        rcases List.mem_cons.1 hmem with rfl | hmem
        · simp only [BytesOrEof.data, List.length_drop] at hbytes ⊢
          omega
        · exact hrest _ hmem

/-- What is copied is a frame of no more than a window, and one permit is for it and for the end. -/
private theorem consume (h : Permits x s) (hc : Closing x tr s) (hinv : Inv x tr s) {n : Nat}
    (hs : inputStep x s (.consume n) = some s') : Permits x s' := by
  obtain ⟨data, rfl, hpc, hn, hdata⟩ := hinv.consume_cases hs
  obtain ⟨extra, haccount, hextra, hlast⟩ := h.account
  have hbounds := hinv.bounds
  have hle := hinv.output_le
  have hlen : data.1.length = n := by rw [hdata, CyclicBlock.length_read]
  have hpermit : s.input.permit = true := h.held (by rw [hpc]; rfl)
  -- the end does not come before the data
  have hnone : data.1.isEmpty = false → extra = 0 := by
    intro hdata
    by_contra hne
    have hn0 := hc.nothing_behind (hlast (by omega)) hn
    rw [List.length_eq_zero_iff.1 (hlen.trans hn0)] at hdata
    cases hdata
  refine ⟨?_, ?_, ?_, ?_⟩
  · simp only [hpermit, if_true] at haccount
    simp only [InputRing.received, hpermit, beq_self_eq_true, Bool.and_true, Bool.true_and, List.length_append,
      List.mem_append]
    cases hd : data.1.isEmpty <;> cases he : s.input.task.available.eof
    · have hzero := hnone hd
      refine ⟨0, ?_, Nat.zero_le _, fun he' => absurd he' (by decide)⟩
      simp
      omega
    · have hzero := hnone hd
      refine ⟨1, ?_, Nat.le_refl _, fun _ => ?_⟩ <;> simp
      omega
    · refine ⟨extra, ?_, hextra, fun he' => .inl (.inl (hlast he'))⟩
      simpa using haccount
    · refine ⟨extra, ?_, hextra, fun _ => ?_⟩ <;> simp
      omega
  · intro hbegan
    simp only [InputRing.received] at hbegan
    split at hbegan <;> cases hbegan
  · intro hwaiting
    simp only [InputRing.received] at hwaiting
    split at hwaiting <;> cases hwaiting
  · intro frame hmem
    simp only [InputRing.received, List.mem_append] at hmem
    rcases hmem with (hmem | hmem) | hmem
    · exact h.frame_le _ hmem
    · split at hmem
      · rw [List.mem_singleton.1 hmem, BytesOrEof.data, hlen]
        omega
      · cases hmem
    · split at hmem
      · rw [List.mem_singleton.1 hmem]
        exact Nat.zero_le _
      · cases hmem

private theorem link (h : Permits x s) {e : Duplex.Event Entry} (hs : linkStep x s e = some s') : Permits x s' := by
  rcases linkStep_cases hs with ⟨a, o, rfl, -, rfl⟩ | ⟨a, i, rfl, hi, rfl⟩ | ⟨a, o, rfl, -, rfl⟩ |
    ⟨a, i, rfl, hi, rfl⟩
  · exact h.of_task rfl rfl rfl id id
  · obtain ⟨t, ht, rfl⟩ := Option.map_eq_some_iff.1 hi
    obtain ⟨-, hpc⟩ := Task.announce_pc ht
    refine h.of_task rfl rfl rfl (fun hbegan => ?_) fun hwaiting => ?_
    · rcases hpc with ⟨p, hpc⟩ | hpc <;> (simp only [hpc] at hbegan; cases hbegan)
    · rcases hpc with ⟨p, hpc⟩ | hpc <;> cases hpc.symm.trans hwaiting
  · exact h.of_task rfl rfl rfl id id
  · obtain ⟨t, ht, rfl⟩ := Option.map_eq_some_iff.1 hi
    obtain ⟨hpc, -⟩ := Task.reap_pc ht
    refine h.of_task rfl rfl rfl (fun _ => ?_) fun hwaiting => ?_
    · rcases hpc with hpc | ⟨p, hpc⟩ <;> (rw [hpc]; rfl)
    · exact absurd hwaiting (Task.reap_not_waiting ht)

theorem step (h : Permits x s) (hc : Closing x tr s) (hinv : Inv x tr s) (hs : ByteStream.step x s a = some s') :
    Permits x s' := by
  cases a with
  | link e => exact h.link hs
  | output a => cases OutputStep.of_eq hs <;> exact h.of_task rfl rfl rfl id id
  | input a =>
    cases InputStep.of_eq hs with
    | acquire hpc _ hpos => exact h.acquire hpc hpos
    | acquireError | unwrap => exact h.of_task rfl rfl rfl nofun nofun
    | consume | consumeError => exact h.consume hc hinv hs
    | @wait r =>
      cases r with
      | error => exact h.of_task rfl rfl rfl nofun nofun
      | _ => exact h.drop rfl
    | ioError => exact h.drop rfl
    | read size => exact h.read size

end Permits

/-- What the input holds, at most. -/
structure Backlog (x : Ctx) (s : State) : Prop where
  /-- Each permit is free, or the task holds it, or it is that of a frame; the end may have none. -/
  account : ∃ extra, s.input.permits + (if s.input.permit then 1 else 0) + s.input.buffer.length = 32 + extra ∧
    extra ≤ 1 ∧ (extra = 1 → .eof ∈ s.input.buffer)
  frames_le : frames s.input.buffer ≤ 32
  bytes_le : (payload s.input.buffer).length ≤ 32 * x.size.toNat
  unread_le : (payload s.input.buffer ++ s.window x).length ≤ 33 * x.size.toNat
  /-- No permit is lost: a task whose frames are read can go on. -/
  drained : s.input.buffer = [] → s.input.task.pc = .waiting → s.input.permits = 32

section

variable {x : Ctx} {y : Duplex.Ctx Mem Entry} {m : Mem} {tr : List Event} {w : Whole}

theorem permits_of_run (hm : Opened x y m) (h : RunWhere (Whole.step x y) (KeepsApart y) (.new x m) tr w) :
    Permits x w.stream := by
  refine (Whole.invariant (I := fun tr s => Closing x tr s ∧ Permits x s) hm h ⟨Closing.new x m, Permits.new x m⟩
    ?_ ?_).2
  · rintro tr s a s' hinv hl ⟨hc, hp⟩ hs
    exact ⟨hc.step hinv hl hs, hp.step hc hinv hs⟩
  · rintro tr s m' - - - ⟨hc, hp⟩
    exact ⟨⟨hc.sender, hc.front, hc.received, hc.arrived, hc.last, hc.closed, hc.queue⟩, hp.account, hp.held, hp.free,
      hp.frame_le⟩

theorem backlog_of_run (hm : Opened x y m) (h : RunWhere (Whole.step x y) (KeepsApart y) (.new x m) tr w) :
    Backlog x w.stream := by
  have hp := permits_of_run hm h
  obtain ⟨extra, haccount, hextra, hlast⟩ := hp.account
  have hframes : frames w.stream.input.buffer ≤ 32 := by
    by_cases he : extra = 1
    · have hlt := frames_lt (hlast he)
      omega
    · have hle := List.countP_le_length (p := BytesOrEof.isSome) (l := w.stream.input.buffer)
      rw [frames]
      omega
  have hbytes := Nat.le_trans (payload_length_le hp.frame_le) (Nat.mul_le_mul_right _ hframes)
  have hwindow := Pipe.window_le_of_run (Whole.pipe_of_run hm h)
  refine ⟨hp.account, hframes, hbytes, ?_, fun hnil hpc => ?_⟩
  · rw [List.length_append]
    change (w.stream.window x).length ≤ _ at hwindow
    omega
  · rw [hp.free hpc, hnil] at haccount
    by_cases he : extra = 1
    · cases hnil ▸ hlast he
    · simp only [Bool.false_eq_true, if_false, List.length_nil] at haccount
      omega

theorem backlog_of_run_threeBytes : ∃ w : Whole,
    RunWhere (Whole.step streamCtx streamRing) (KeepsApart streamRing) (.new streamCtx streamMem) threeBytes w ∧
      Backlog streamCtx w.stream := by
  obtain ⟨w, hw⟩ := runWhere_threeBytes
  exact ⟨w, hw, backlog_of_run opened_stream hw⟩

end

end ByteStream

end ShmRing
