import ShmRing.Delivery

/-!
# Counters that wrap

The shared words are the counters modulo `2 ^ 32`, and a handle takes what it loads for the counter itself.  In one
direction this is right for as long as fewer than `2 ^ 32` entries have been published, and wrong from then on: a
consumer misses entries, and a producer that is opened anew takes the ring to be emptier than it is (`survives_iff`).
-/

namespace ShmRing

open Machine Transition

/-! ### Calls that run to their end -/

/-- How many entries of an iterator without end a producer accepts. -/
def Producer.accepts {M E : Type} (P : Port M E) (p : Producer) (f : Nat → E) (m : M) : Exec Nat :=
  (p.pushMany P (fun i => (some (f i), i + 1)) 0 m).1.map Prod.fst

private theorem Producer.pushLoop_endless {M E : Type} {P : Port M E} {offsetMask : Nat}
    (hlen : ∀ n, n &&& offsetMask < P.len) (f : Nat → E) (k n i : Nat) (m : M) :
    (pushLoop P offsetMask (fun i => (some (f i), i + 1)) k n i m).1 = .ok (n + k) := by
  induction k generalizing n i m with
  | zero => rfl
  | succ k ih =>
    simp only [pushLoop, if_pos (hlen n), ih]
    rw [Nat.add_right_comm, Nat.add_assoc]

private theorem Producer.accepts_eq {M E : Type} {P : Port M E} {p : Producer} (hlen : ∀ n, n &&& p.offsetMask < P.len)
    (f : Nat → E) (m : M) : p.accepts P f m = .ok (p.cachedTail - p.cachedHead) := by
  simp only [accepts, pushMany, pushLoop_endless hlen]
  exact congrArg Except.ok (Nat.add_sub_cancel_left _ _)

private theorem Consumer.iterLoop_eq {M E : Type} {P : Port M E} {offsetMask : Nat}
    (hlen : ∀ n, n &&& offsetMask < P.len) (m : M) (k n : Nat) :
    iterLoop P offsetMask m k n = .ok ((List.range' n k).map fun i => P.get (i &&& offsetMask) m) := by
  induction k generalizing n with
  | zero => rfl
  | succ k ih =>
    simp only [iterLoop, if_pos (hlen n), ih]
    rfl

theorem Consumer.yields_eq {M E : Type} {P : Port M E} {c : Consumer} (hlen : ∀ n, n &&& c.offsetMask < P.len) (m : M) :
    c.yields P m =
      .ok ((List.range' c.cachedTail (c.cachedHead - c.cachedTail)).map fun i => P.get (i &&& c.offsetMask) m) :=
  iterLoop_eq hlen m _ _

namespace Duplex

variable {M E : Type} {x : Ctx M E} {d : ClientSide} {m : M} {tr : List (Event E)} {st st' : State M E} {e : Event E}

/-- The published entries of a direction that are not released. -/
def unread (d : ClientSide) (tr : List (Event E)) : List E := (chan d tr).published.drop (chan d tr).released

/-- Both sides have synced all that they have pushed and yielded. -/
structure Synced (d : ClientSide) (tr : List (Event E)) (st : State M E) : Prop where
  unsynced : (chan d tr).unsynced = []
  read : (chan d tr).read = (chan d tr).released
  producer : st.handle d = .closed ∨ ∃ p, st.handle d = .producer p .idle
  consumer : st.handle d.not = .closed ∨ ∃ c, st.handle d.not = .consumer c .idle

/-- The handles that are kept open and synced again, and those that are opened anew: a producer accepts as many entries
as there are free slots, and a consumer yields the entries that are unread. -/
structure Survives (x : Ctx M E) (d : ClientSide) (tr : List (Event E)) (st : State M E) : Prop where
  keptProducer : ∀ p, st.handle d = .producer p .idle → ∀ f,
    (p.sync x.port.toPort st.mem).1.accepts x.port.toPort f (p.sync x.port.toPort st.mem).2 =
      .ok (x.count - (unread d tr).length)
  newProducer : ∀ p, Producer.new x.build x.info x.entry x.port.toPort d st.mem = .ok (some p) → ∀ f,
    p.accepts x.port.toPort f st.mem = .ok (x.count - (unread d tr).length)
  keptConsumer : ∀ c, st.handle d.not = .consumer c .idle →
    (c.sync x.port.toPort st.mem).1.yields x.port.toPort (c.sync x.port.toPort st.mem).2 = .ok (unread d tr)
  newConsumer : ∀ c, Consumer.new x.build x.info x.entry x.port.toPort d.not st.mem = .ok (some c) →
    c.yields x.port.toPort st.mem = .ok (unread d tr)

/-! ### Before the wrap -/

private theorem masked_lt (hx : x.Fits) (n : Nat) : n &&& (x.count - 1) < x.port.len := by
  rw [hx.and_mask]; exact hx.slot_lt n

/-- The entries of the slots from the released position on are the unread ones. -/
private theorem Held.unread (hx : x.Fits) (h : Held x (chan d tr).released (chan d tr) m) :
    ((List.range' (chan d tr).released ((chan d tr).published.length - (chan d tr).released)).map fun i =>
      x.port.get (i &&& (x.count - 1)) m) = unread d tr := by
  refine List.ext_getElem (by simp [Duplex.unread]) fun i hi hi' => ?_
  simp only [List.length_map, List.length_range'] at hi
  simp only [List.getElem_map, List.getElem_range', Nat.one_mul, hx.and_mask, Duplex.unread, List.getElem_drop]
  refine h _ _ (Nat.le_add_right _ _) ?_
  rw [Chan.all, List.append_assoc, List.getElem?_append_left (by omega), List.getElem?_eq_getElem]

section Runs

variable [DecidableEq E]

/-- One direction before the wrap: the handles are exact, and no entry is lost that was not released. -/
private theorem exact_of_direction (hx : x.Fits) (hm : Reset x m) (h : Run (Duplex.step x) (init m) tr st)
    (hdir : ∀ e ∈ tr, InDirection d e) (hlt : (chan d tr).published.length < 2 ^ 32) :
    BothExact x tr st ∧ Held x (chan d tr).released (chan d tr) st.mem := by
  revert hdir hlt
  refine (h.invariant (I := fun tr st => BothCounters x tr st ∧ ((∀ e ∈ tr, InDirection d e) →
    (chan d tr).published.length < 2 ^ 32 → BothExact x tr st ∧ Held x (chan d tr).released (chan d tr) st.mem))
    ⟨bothCounters_init hm, fun _ _ => ⟨bothExact_init, fun i e _ h => ?_⟩⟩ ?_).2
  · simp [Chan.empty, Chan.all] at h
  · rintro tr st e st' ⟨hc, ih⟩ hs
    refine ⟨hc.step hx hs, fun hdir hlt => ?_⟩
    have hdir' := hdir e (List.mem_append_right _ (List.mem_singleton.2 rfl))
    -- published entries stay published, so there were fewer before
    have hle : (chan d tr).published.length ≤ (chan d (tr ++ [e])).published.length := by
      rw [chan_snoc]
      cases chanAct d e with
      | none => exact Nat.le_refl _
      | some a => exact (Chan.published_prefix_apply _ a).length_le
    obtain ⟨he, hh⟩ := ih (fun e he => hdir e (List.mem_append_left _ he)) (by omega)
    have hw : NotWrapped tr e := by
      rintro d' rfl
      obtain rfl : d' = d := hdir'
      omega
    refine ⟨he.step hx hc hw hs, ?_⟩
    rw [chan_snoc]
    rcases step_cases hs with ⟨s, a, rfl, hp, -⟩ | ⟨s, a, rfl, hp, -⟩
    · obtain rfl : s = d := hdir'
      rw [chanAct_produce]
      have := hh.produce hx (hc s) (he s) (Nat.le_refl _) hp
      cases a <;> exact this
    · obtain rfl : s = d.not := hdir'
      rw [chanAct_consume_not]
      have := hh.consume hx hp
      cases a with
      | syncStore => exact this.mono (hc d).released_le
      | _ => exact this

private theorem survives_of_lt (hx : x.Fits) (hm : Reset x m) (h : Run (Duplex.step x) (init m) tr st)
    (hdir : ∀ e ∈ tr, InDirection d e) (hs : Synced d tr st) (hlt : (chan d tr).published.length < 2 ^ 32) :
    Survives x d tr st := by
  obtain ⟨he, hh⟩ := exact_of_direction hx hm h hdir hlt
  have hc := counters_of_run hx hm h d
  have he := he d
  have hlen := masked_lt hx
  have hhead : (x.port.load (.producer d) st.mem).toNat = (chan d tr).published.length := by
    rw [hc.head, Nat.mod_eq_of_lt hlt]
  have htail := hc.tail
  have hrel : (chan d tr).released ≤ (chan d tr).published.length := by
    have := he.read_le
    rw [hs.read] at this
    exact this
  refine ⟨fun p hp f => ?_, fun p hp f => ?_, fun c hcon => ?_, fun c hcon => ?_⟩
  · have hsnd := hc.sender
    have hsnd' := he.sender
    rw [hp] at hsnd hsnd'
    obtain ⟨⟨hside, hmask, hcount⟩, -, -⟩ := hsnd
    obtain ⟨hch, -, -⟩ := hsnd'
    rw [Producer.accepts_eq (by simpa only [Producer.sync, Producer.syncLoad, hmask] using hlen)]
    simp only [Producer.sync, Producer.syncLoad, Producer.tailWord, hside, htail, hcount, hch, hs.unsynced, unread,
      List.length_drop, List.length_nil]
    exact congrArg _ (by omega)
  · obtain rfl := producer_new hx hp
    rw [Producer.accepts_eq hlen]
    simp only [hhead, htail, unread, List.length_drop]
    exact congrArg _ (by omega)
  · have hrcv := hc.receiver
    rw [hcon] at hrcv
    obtain ⟨⟨hside, hmask⟩, hct, -, -⟩ := hrcv
    rw [Consumer.yields_eq (by simpa only [Consumer.sync, Consumer.syncLoad, hmask] using hlen)]
    simp only [Consumer.sync, Consumer.syncLoad, Consumer.syncStore, Consumer.headWord, hside, ClientSide.not_not,
      hhead, hct, hs.read, hmask, x.port.get_store _ _ _ _ (hlen _)]
    exact congrArg _ (hh.unread hx)
  · obtain rfl := consumer_new hx hcon
    rw [Consumer.yields_eq hlen]
    simp only [ClientSide.not_not, hhead, htail]
    exact congrArg _ (hh.unread hx)

/-! ### After the wrap -/

/-- Where anything has happened, handles can be opened. -/
theorem geometry_of_run (h : Run (Duplex.step x) (init m) tr st) :
    tr = [] ∧ (∀ s, st.handle s = .closed) ∨ ∃ g, geometry x.build x.info x.entry = .ok (some g) := by
  refine h.invariant (I := fun tr st => tr = [] ∧ (∀ s, st.handle s = .closed) ∨
    ∃ g, geometry x.build x.info x.entry = .ok (some g)) (.inl ⟨rfl, fun _ => rfl⟩) ?_
  rintro tr st e st' (⟨rfl, hclosed⟩ | hg) hs
  · refine .inr ?_
    rcases step_cases hs with ⟨s, a, rfl, hp, -⟩ | ⟨s, a, rfl, hp, -⟩
    · rw [hclosed] at hp
      obtain ⟨p, hnew⟩ := hp.new_of_closed
      obtain ⟨g, hg, -⟩ := geometry_of_map hnew
      exact ⟨g, hg⟩
    · rw [hclosed] at hp
      obtain ⟨c, hnew⟩ := hp.new_of_closed
      obtain ⟨g, hg, -⟩ := geometry_of_map hnew
      exact ⟨g, hg⟩
  · exact .inr hg

private theorem Survives.lt (hx : x.Fits) (hm : Reset x m) (h : Run (Duplex.step x) (init m) tr st)
    (hs : Survives x d tr st) : (chan d tr).published.length < 2 ^ 32 := by
  refine Decidable.byContradiction fun hge => ?_
  have hc := counters_of_run hx hm h d
  rcases geometry_of_run h with ⟨rfl, -⟩ | ⟨g, hg⟩
  · exact hge (Nat.two_pow_pos 32)
  · -- a consumer that is opened now finds a head below the counter
    have hcon : ∃ c, Consumer.new x.build x.info x.entry x.port.toPort d.not st.mem = .ok (some c) := by
      rw [Consumer.new, hg]
      exact ⟨_, rfl⟩
    obtain ⟨c, hcon⟩ := hcon
    have hy := hs.newConsumer c hcon
    obtain rfl := consumer_new hx hcon
    rw [Consumer.yields_eq (masked_lt hx)] at hy
    have hlen := congrArg List.length (Except.ok.inj hy)
    simp only [List.length_map, List.length_range', ClientSide.not_not, hc.head, hc.tail, unread,
      List.length_drop] at hlen
    have hread := hc.read_lt
    have hrel := hc.released_le
    omega

/-- Both handles of a direction survive being kept and being opened anew exactly for as long as fewer than `2 ^ 32`
entries have been published. -/
theorem survives_iff (hx : x.Accepted) (hm : Reset x m) (h : Run (Duplex.step x) (init m) tr st)
    (hdir : ∀ e ∈ tr, InDirection d e) (hs : Synced d tr st) :
    Survives x d tr st ↔ (chan d tr).published.length < 2 ^ 32 :=
  ⟨fun hsurv => hsurv.lt hx.fits hm h, survives_of_lt hx.fits hm h hdir hs⟩

end Runs

/-- A ring of `2 ^ 32` entries of one byte each, as a server sets it up. -/
def manySlots : Ctx (RingHead × (Nat → UInt8)) UInt8 where
  build := .release
  info :=
    { version := 1
      offsetHead := 0
      offsetRing := 4096
      offsetData := 0x100001000
      sizeHead := 4096
      sizeRing := 0x100000000
      sizeData := 0
      sizeSlotEntry := 1
      lhs := 0xffffffff
      rhs := 0xffffffff }
  entry := 1
  port := LawfulPort.plain UInt8 (2 ^ 32)
  len_eq := by decide

private theorem manySlots_accepted : manySlots.Accepted :=
  ⟨⟨.release, [⟨0, 0, 0, 0, 0, 0, 0, 0, 0, 0⟩], [⟨0x100000000, 0, 1, -1, -1⟩], ⟨0, 0x100001000⟩, rfl, by decide,
    by decide⟩, rfl⟩

private theorem manySlots_reset : Reset manySlots (RingHead.zero, fun _ => 0) := fun s =>
  ⟨RingHead.load_zero (.producer s), RingHead.load_zero (.consumer s)⟩

/-- The producer of a side that has pushed nothing. -/
def filler : Producer := ⟨.left, 2 ^ 32 - 1, 2 ^ 32, 0, 2 ^ 32⟩

/-- The producer is in its first call of `push_many` and has written `k` entries. -/
structure Filling (k : Nat) (tr : List (Event UInt8)) (st : State (RingHead × (Nat → UInt8)) UInt8) : Prop where
  run : Run (Duplex.step manySlots) (init (RingHead.zero, fun _ => 0)) tr st
  direction : ∀ e ∈ tr, InDirection .left e
  left : st.handle .left = .producer filler (.pushing k)
  right : st.handle .right = .closed
  chan : ∃ l, l.length = k ∧ chan .left tr = ⟨[], [], l, 0, 0⟩

private theorem forall_mem_snoc {α : Type} {P : α → Prop} {l : List α} {a : α} (h : ∀ e ∈ l, P e) (ha : P a) :
    ∀ e ∈ l ++ [a], P e :=
  List.forall_mem_append.2 ⟨h, List.forall_mem_singleton.2 ha⟩

private theorem filling_zero : ∃ tr st, Filling 0 tr st := by
  obtain ⟨st₁, hrun₁, hleft₁, hright₁, -⟩ := (ProduceStep.new (x := manySlots) (s := .left) (p := filler) rfl).run
    (Run.nil : Run (Duplex.step manySlots) (init (RingHead.zero, fun _ => 0)) [] _) rfl
  obtain ⟨st₂, hrun₂, hleft₂, hright₂, -⟩ := ProduceStep.pushMany.run hrun₁ hleft₁
  exact ⟨_, _, hrun₂, by decide, hleft₂, hright₂.trans hright₁, [], rfl, rfl⟩

private theorem Filling.succ {k : Nat} {tr : List (Event UInt8)} {st : State (RingHead × (Nat → UInt8)) UInt8}
    (h : Filling k tr st) (hk : k < 2 ^ 32) : ∃ tr' st', Filling (k + 1) tr' st' := by
  obtain ⟨hrun, hdir, hleft, hright, l, hl, hchan⟩ := h
  obtain ⟨st₁, hrun₁, hleft₁, hright₁, -⟩ := (ProduceStep.draw (d := 0) hk).run hrun hleft
  obtain ⟨st₂, hrun₂, hleft₂, hright₂, -⟩ :=
    (ProduceStep.write (x := manySlots) (Nat.lt_of_le_of_lt Nat.and_le_left hk)).run hrun₁ hleft₁
  refine ⟨_, _, hrun₂, ?_, hleft₂, hright₂.trans (hright₁.trans hright), l ++ [0], by simp [hl], ?_⟩
  · exact forall_mem_snoc (forall_mem_snoc hdir rfl) rfl
  · rw [chan_snoc, chan_snoc, hchan]
    rfl

private theorem filling (k : Nat) (hk : k ≤ 2 ^ 32) : ∃ tr st, Filling k tr st := by
  induction k with
  | zero => exact filling_zero
  | succ k ih =>
    obtain ⟨tr, st, h⟩ := ih (by omega)
    exact h.succ (by omega)

/-- A producer that fills the ring with `2 ^ 32` entries and syncs leaves the head at zero, and the entries cannot be
read. -/
theorem not_survives :
    ∃ tr st, Run (Duplex.step manySlots) (init (RingHead.zero, fun _ => 0)) tr st ∧
      (∀ e ∈ tr, InDirection .left e) ∧ Synced .left tr st ∧ (unread .left tr).length = manySlots.count ∧
      ¬ Survives manySlots .left tr st := by
  obtain ⟨tr, st, hrun, hdir, hleft, hright, l, hl, hchan⟩ := filling (2 ^ 32) (Nat.le_refl _)
  obtain ⟨st₁, hrun₁, hleft₁, hright₁, -⟩ := ProduceStep.pushed.run hrun hleft
  obtain ⟨st₂, hrun₂, hleft₂, hright₂, -⟩ := ProduceStep.syncLoad.run hrun₁ hleft₁
  obtain ⟨st₃, hrun₃, hleft₃, hright₃, -⟩ := ProduceStep.syncStore.run hrun₂ hleft₂
  have hchan₁ := chan_snoc .left tr (.produce .left (.pushed (2 ^ 32 - filler.cachedHead)))
  have hchan₃ : chan .left (tr ++ [.produce .left (.pushed (2 ^ 32 - filler.cachedHead))] ++
      [.produce .left .syncLoad] ++ [.produce .left .syncStore]) = ⟨l, [], [], 0, 0⟩ := by
    rw [chan_snoc, chan_snoc, hchan₁, hchan]
    rfl
  refine ⟨_, st₃, hrun₃, forall_mem_snoc (forall_mem_snoc (forall_mem_snoc hdir rfl) rfl) rfl,
    ⟨?_, ?_, .inr ⟨_, hleft₃⟩, .inl (hright₃.trans (hright₂.trans (hright₁.trans hright)))⟩, ?_, fun h => ?_⟩
  · rw [hchan₃]
  · rw [hchan₃]
  · rw [unread, hchan₃]
    exact hl
  · have hlt := h.lt manySlots_accepted.fits manySlots_reset hrun₃
    rw [hchan₃] at hlt
    exact absurd hl (Nat.ne_of_lt hlt)

/-- A producer that has pushed and synced one entry. -/
def oneEntry : List (Event UInt8) :=
  [.produce .left .new, .produce .left .pushMany, .produce .left (.draw 7), .produce .left (.write 0 7),
    .produce .left (.pushed 1), .produce .left .syncLoad, .produce .left .syncStore, .produce .left .drop]

theorem survives_iff_oneEntry :
    ∃ st, Run (Duplex.step manySlots) (init (RingHead.zero, fun _ => 0)) oneEntry st ∧
      (Survives manySlots .left oneEntry st ↔ (chan .left oneEntry).published.length < 2 ^ 32) := by
  obtain ⟨st, hst⟩ : ∃ st, exec (Duplex.step manySlots) (init (RingHead.zero, fun _ => 0)) oneEntry = some st :=
    Option.isSome_iff_exists.1 (by decide)
  have hclosed : st.handle .left = .closed ∧ st.handle .right = .closed := by
    cases hst
    exact ⟨rfl, rfl⟩
  exact ⟨st, run_iff_exec.2 hst, survives_iff manySlots_accepted manySlots_reset (run_iff_exec.2 hst) (by decide)
    ⟨rfl, rfl, .inl hclosed.1, .inl hclosed.2⟩⟩

end Duplex

end ShmRing
