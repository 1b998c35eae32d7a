import ShmRing.Duplex

/-!
# Counters and channels

How the words, the cached counters and the positions of an abstract channel are related, in every run of two sides
on a ring: the shared words are the positions modulo `2 ^ 32`, a consumer is where the channel has been read to, and
a producer is where it has been filled to, again modulo `2 ^ 32` (`counters_of_run`).  A consumer never gets to
`2 ^ 32`, since it only moves below a head that was loaded from a 32-bit word.

As long as no producer is opened on a head that has wrapped, the producer is exactly where the channel has been
filled to and never more than the number of slots ahead of the reader (`exact_of_run`).
-/

namespace ShmRing

open Machine Transition

/-! ### The geometry of an accepted ring -/

private theorem geometry_eq_some {b : Build} {info : RingInfo} {N : Nat} {g : UInt64 × UInt64}
    (h : geometry b info N = .ok (some g)) (hpos : 0 < (info.sizeRing / info.sizeSlotEntry).toNat) :
    g.1 = info.sizeRing / info.sizeSlotEntry ∧ g.2.toNat = g.1.toNat - 1 := by
  unfold geometry at h
  have hle : (1 : UInt64) ≤ info.sizeRing / info.sizeSlotEntry := by
    rw [UInt64.le_iff_toNat_le]; exact hpos
  simp only [Build.sub_of_le b hle] at h
  split at h
  · cases h
  split at h
  · cases h
  split at h
  · cases h
  simp only [Except.bind] at h
  split at h
  · cases h
  · cases h
    exact ⟨rfl, by rw [UInt64.toNat_sub_of_le _ _ hle]; rfl⟩

namespace Duplex

variable {M E : Type} {x : Ctx M E}

/-- The number of entries of the ring. -/
def Ctx.count (x : Ctx M E) : Nat := (x.info.sizeRing / x.info.sizeSlotEntry).toNat

/-- The handles have the entry size of the ring, and the ring has a power of two of entries. -/
structure Ctx.Fits (x : Ctx M E) : Prop where
  entry_eq : x.entry = x.info.sizeSlotEntry.toNat
  count_pow : x.count.isPowerOfTwo

namespace Ctx.Fits

theorem count_pos (hx : x.Fits) : 0 < x.count := Nat.pos_of_isPowerOfTwo hx.count_pow

private theorem len_eq (hx : x.Fits) : x.port.len = x.count := by
  rw [x.len_eq, hx.entry_eq, count, UInt64.toNat_div]

theorem and_mask (hx : x.Fits) (n : Nat) : n &&& (x.count - 1) = n % x.count := by
  obtain ⟨k, hk⟩ := hx.count_pow
  rw [hk, Nat.and_two_pow_sub_one_eq_mod]

theorem slot_lt (hx : x.Fits) (n : Nat) : n % x.count < x.port.len := by
  rw [hx.len_eq]; exact Nat.mod_lt _ hx.count_pos

end Ctx.Fits

theorem producer_new {s : ClientSide} {m : M} {p : Producer} (hx : x.Fits)
    (h : Producer.new x.build x.info x.entry x.port.toPort s m = .ok (some p)) :
    p = ⟨s, x.count - 1, x.count, (x.port.load (.producer s) m).toNat,
      (x.port.load (.consumer s.not) m).toNat + x.count⟩ := by
  obtain ⟨g, hg, rfl⟩ := geometry_of_map h
  obtain ⟨h1, h2⟩ := geometry_eq_some hg hx.count_pos
  simp only [h1] at h2
  simp only [h1, h2, Ctx.count]

theorem consumer_new {s : ClientSide} {m : M} {c : Consumer} (hx : x.Fits)
    (h : Consumer.new x.build x.info x.entry x.port.toPort s m = .ok (some c)) :
    c = ⟨s, x.count - 1, (x.port.load (.producer s.not) m).toNat, (x.port.load (.consumer s) m).toNat⟩ := by
  obtain ⟨g, hg, rfl⟩ := geometry_of_map h
  obtain ⟨h1, h2⟩ := geometry_eq_some hg hx.count_pos
  simp only [h1] at h2
  simp only [h2, Ctx.count]

/-! ### The invariant of every run -/

/-- How far the code of a producer has got with the call of the channel. -/
def PcCounts (p : Producer) (c : Chan E) : ProducerPc E → Prop
  | .pushing n => n = p.cachedHead + c.call.length
  | .holding n _ => n = p.cachedHead + c.call.length
  | _ => c.call = []

def SenderCounts (x : Ctx M E) (d : ClientSide) (c : Chan E) : Handle E → Prop
  | .producer p pc =>
    (p.side = d ∧ p.offsetMask = x.count - 1 ∧ p.count = x.count) ∧
    p.cachedHead % 2 ^ 32 = (c.published.length + c.unsynced.length) % 2 ^ 32 ∧ PcCounts p c pc
  | _ => c.unsynced = [] ∧ c.call = []

def ReceiverCounts (x : Ctx M E) (d : ClientSide) (c : Chan E) : Handle E → Prop
  | .consumer r pc =>
    (r.side = d.not ∧ r.offsetMask = x.count - 1) ∧ r.cachedTail = c.read ∧ r.cachedHead < 2 ^ 32 ∧
    match pc with
    | .iterating it => it = r.iter
    | _ => True
  | _ => c.read = c.released

/-- The direction `d` of a ring and its channel: the sender has the handle `hs`, the receiver `hr`. -/
structure Counters (x : Ctx M E) (d : ClientSide) (c : Chan E) (m : M) (hs hr : Handle E) : Prop where
  head : (x.port.load (.producer d) m).toNat = c.published.length % 2 ^ 32
  tail : (x.port.load (.consumer d.not) m).toNat = c.released
  read_lt : c.read < 2 ^ 32
  released_le : c.released ≤ c.read
  sender : SenderCounts x d c hs
  receiver : ReceiverCounts x d c hr

variable {d : ClientSide} {c : Chan E} {m m' : M} {hs hs' hr hr' : Handle E}

/-- A step of the sender with its producer. -/
private theorem Counters.produce (hx : x.Fits) (hc : Counters x d c m hs hr) {a : ProduceAct E}
    (h : ProduceStep x d hs m a hs' m') :
    Counters x d (c.applyOpt (produceAct a)) m' hs' hr := by
  obtain ⟨head, tail, rlt, rle, snd, rcv⟩ := hc
  cases h with
  | new hp =>
    obtain rfl := producer_new hx hp
    -- the new producer takes the word for the counter
    change Counters x d c m _ hr
    refine ⟨head, tail, rlt, rle, ⟨⟨rfl, rfl, rfl⟩, ?_, snd.2⟩, rcv⟩
    simp only [head, snd.1, List.length_nil]
    omega
  | pushMany =>
    obtain ⟨hp, hh, hpc⟩ := snd
    change Counters x d c m _ hr
    refine ⟨head, tail, rlt, rle, ⟨hp, hh, ?_⟩, rcv⟩
    simp [PcCounts, show c.call = [] from hpc]
  | draw _ => exact ⟨head, tail, rlt, rle, snd, rcv⟩
  | write hlt =>
    obtain ⟨hp, hh, hpc⟩ := snd
    simp only [produceAct, Chan.applyOpt, Chan.apply]
    refine ⟨by rwa [x.port.load_set _ _ _ _ hlt], by rwa [x.port.load_set _ _ _ _ hlt], rlt, rle,
      ⟨hp, hh, ?_⟩, rcv⟩
    simp only [PcCounts, List.length_append, List.length_singleton] at hpc ⊢
    omega
  | pushed =>
    obtain ⟨hp, hh, hpc⟩ := snd
    simp only [produceAct, Chan.applyOpt, Chan.apply]
    refine ⟨head, tail, rlt, rle, ⟨hp, ?_, rfl⟩, rcv⟩
    simp only [PcCounts, List.length_append] at hpc ⊢
    omega
  | unwind _ => exact ⟨head, tail, rlt, rle, ⟨snd.1, snd.2.1, rfl⟩, rcv⟩
  | syncLoad => exact ⟨head, tail, rlt, rle, snd, rcv⟩
  | @syncStore _ p =>
    obtain ⟨⟨rfl, hp⟩, hh, hpc⟩ := snd
    simp only [produceAct, Chan.applyOpt, Chan.apply]
    refine ⟨?_, ?_, rlt, rle, ⟨⟨rfl, hp⟩, ?_, hpc⟩, rcv⟩
    · simp only [Producer.syncStore, Producer.headWord, x.port.load_store, if_true, UInt32.toNat_ofNat',
        List.length_append]
      exact hh
    · simpa [Producer.syncStore, Producer.headWord, x.port.load_store] using tail
    · simpa using hh
  | drop => exact ⟨head, tail, rlt, rle, ⟨rfl, rfl⟩, rcv⟩

/-- A step of the receiver with its consumer. -/
private theorem Counters.consume (hx : x.Fits) (hc : Counters x d c m hs hr) {a : ConsumeAct E}
    (h : ConsumeStep x d.not hr m a hr' m') :
    Counters x d (c.applyOpt (consumeAct a)) m' hs hr' := by
  obtain ⟨head, tail, rlt, rle, snd, rcv⟩ := hc
  cases h with
  | new hr =>
    obtain rfl := consumer_new hx hr
    refine ⟨head, tail, rlt, rle, snd, ⟨rfl, rfl⟩, ?_, UInt32.toNat_lt _, trivial⟩
    exact tail.trans rcv.symm
  | iter => exact ⟨head, tail, rlt, rle, snd, rcv.1, rcv.2.1, rcv.2.2.1, rfl⟩
  | @next _ r it hlt _ =>
    obtain ⟨hp, ht, hh, rfl⟩ := rcv
    simp only [consumeAct, Chan.applyOpt, Chan.apply]
    simp only [Consumer.iter] at hlt
    -- the index is below a head that was loaded from 32 bits
    refine ⟨head, tail, ?_, ?_, ?_, hp, ?_, hh, rfl⟩
    · simp only; omega
    · simp only; omega
    · cases hs <;> exact snd
    · simp only; omega
  | dropIter => exact ⟨head, tail, rlt, rle, snd, rcv.1, rcv.2.1, rcv.2.2.1, trivial⟩
  | syncLoad => exact ⟨head, tail, rlt, rle, snd, rcv.1, rcv.2.1, UInt32.toNat_lt _, trivial⟩
  | @syncStore _ r =>
    obtain ⟨⟨hside, hp⟩, ht, hh, -⟩ := rcv
    simp only [consumeAct, Chan.applyOpt, Chan.apply]
    refine ⟨?_, ?_, rlt, Nat.le_refl _, ?_, ⟨hside, hp⟩, ht, hh, trivial⟩
    · simpa [Consumer.syncStore, Consumer.tailWord, x.port.load_store] using head
    · simp only [Consumer.syncStore, Consumer.tailWord, hside, x.port.load_store, if_true, UInt32.toNat_ofNat',
        ht]
      -- the tail is not truncated, since reading never gets that far
      exact Nat.mod_eq_of_lt rlt
    · cases hs <;> exact snd
  | drop =>
    simp only [consumeAct, Chan.applyOpt, Chan.apply]
    refine ⟨head, tail, by simp only; omega, Nat.le_refl _, ?_, rfl⟩
    cases hs <;> exact snd

/-- A step of the receiver with its producer, which serves the other direction. -/
private theorem Counters.produce_not (hc : Counters x d c m hs hr) {c' : Chan E} (hc' : SenderCounts x d.not c' hr)
    {a : ProduceAct E} (h : ProduceStep x d.not hr m a hr' m') : Counters x d c m' hs hr' := by
  obtain ⟨head, tail, rlt, rle, snd, rcv⟩ := hc
  cases h with
  | write hlt =>
    exact ⟨by rwa [x.port.load_set _ _ _ _ hlt], by rwa [x.port.load_set _ _ _ _ hlt], rlt, rle, snd, rcv⟩
  | syncStore =>
    have hside := hc'.1.1
    refine ⟨?_, ?_, rlt, rle, snd, rcv⟩
    · simpa [Producer.syncStore, Producer.headWord, hside, x.port.load_store] using head
    · simpa [Producer.syncStore, Producer.headWord, x.port.load_store] using tail
  | _ => exact ⟨head, tail, rlt, rle, snd, rcv⟩

/-- A step of the sender with its consumer, which serves the other direction. -/
private theorem Counters.consume_not (hc : Counters x d c m hs hr) {c' : Chan E} (hc' : ReceiverCounts x d.not c' hs)
    {a : ConsumeAct E} (h : ConsumeStep x d hs m a hs' m') : Counters x d c m' hs' hr := by
  obtain ⟨head, tail, rlt, rle, snd, rcv⟩ := hc
  cases h with
  | syncStore =>
    have hside := hc'.1.1
    rw [ClientSide.not_not] at hside
    refine ⟨?_, ?_, rlt, rle, snd, rcv⟩
    · simpa [Consumer.syncStore, Consumer.tailWord, x.port.load_store] using head
    · simpa [Consumer.syncStore, Consumer.tailWord, hside, x.port.load_store] using tail
  | _ => exact ⟨head, tail, rlt, rle, snd, rcv⟩

/-- Both directions after the events of a run. -/
def BothCounters (x : Ctx M E) (tr : List (Event E)) (st : State M E) : Prop :=
  ∀ d, Counters x d (chan d tr) st.mem (st.handle d) (st.handle d.not)

theorem bothCounters_init {m : M} (hm : Reset x m) : BothCounters x [] (init m : State M E) := by
  intro d
  refine ⟨?_, ?_, Nat.two_pow_pos 32, Nat.le_refl _, ⟨rfl, rfl⟩, rfl⟩
  · simp [init, (hm d).1, Chan.empty]
  · simp [init, (hm d.not).2, Chan.empty]

/-! ### Exact counters -/

def SenderExact (x : Ctx M E) (c : Chan E) : Handle E → Prop
  | .producer p pc =>
    p.cachedHead = c.published.length + c.unsynced.length ∧ p.cachedTail ≤ c.released + x.count ∧
    match pc with
    | .holding n _ => n < p.cachedTail
    | _ => True
  | _ => True

def ReceiverExact (c : Chan E) : Handle E → Prop
  | .consumer r _ => r.cachedHead ≤ c.published.length
  | _ => True

/-- The counters of a direction whose producers were all opened on a head that had not wrapped. -/
structure Exact (x : Ctx M E) (c : Chan E) (hs hr : Handle E) : Prop where
  read_le : c.read ≤ c.published.length
  room : c.all.length ≤ c.released + x.count
  sender : SenderExact x c hs
  receiver : ReceiverExact c hr

/-- A step of the sender with its producer, given that it is not opened on a wrapped head. -/
private theorem Exact.produce (hx : x.Fits) (hc : Counters x d c m hs hr) (he : Exact x c hs hr) {a : ProduceAct E}
    (hwrap : a = .new → c.published.length < 2 ^ 32) (h : ProduceStep x d hs m a hs' m') :
    Exact x (c.applyOpt (produceAct a)) hs' hr := by
  obtain ⟨rle, room, snd, rcv⟩ := he
  have csnd := hc.sender
  rw [Chan.all_length] at room
  cases h with
  | new hp =>
    obtain rfl := producer_new hx hp
    refine ⟨rle, by rwa [Chan.all_length], ⟨?_, ?_, trivial⟩, rcv⟩
    · have := hwrap rfl
      change (x.port.load (.producer d) m).toNat = c.published.length + c.unsynced.length
      rw [hc.head, csnd.1, List.length_nil]
      omega
    · change (x.port.load (.consumer d.not) m).toNat + x.count ≤ c.released + x.count
      exact Nat.add_le_add_right (Nat.le_of_eq hc.tail) _
  | pushMany => exact ⟨rle, by rwa [Chan.all_length], snd, rcv⟩
  | draw hlt => exact ⟨rle, by rwa [Chan.all_length], ⟨snd.1, snd.2.1, hlt⟩, rcv⟩
  | write hlt =>
    obtain ⟨hh, ht, hn⟩ := snd
    simp only [produceAct, Chan.applyOpt, Chan.apply]
    refine ⟨rle, ?_, ⟨hh, ht, trivial⟩, rcv⟩
    have hpc := csnd.2.2
    simp only [PcCounts] at hpc
    simp only [Chan.all_length, List.length_append, List.length_singleton]
    omega
  | pushed =>
    obtain ⟨hh, ht, -⟩ := snd
    have hpc := csnd.2.2
    simp only [PcCounts] at hpc
    simp only [produceAct, Chan.applyOpt, Chan.apply]
    refine ⟨rle, ?_, ⟨?_, ht, trivial⟩, rcv⟩
    · simp only [Chan.all_length, List.length_append, List.length_nil]
      omega
    · simp only [List.length_append]
      omega
  | unwind _ =>
    refine ⟨rle, ?_, ⟨snd.1, snd.2.1, trivial⟩, rcv⟩
    simp only [produceAct, Chan.applyOpt, Chan.apply, Chan.all_length, List.length_nil]
    omega
  | syncLoad =>
    refine ⟨rle, by rwa [Chan.all_length], ⟨snd.1, ?_, trivial⟩, rcv⟩
    have htail := hc.tail
    obtain ⟨rfl, -, hcount⟩ := csnd.1
    change (x.port.load _ m).toNat + _ ≤ c.released + x.count
    rw [hcount, Producer.tailWord]
    exact Nat.add_le_add_right (Nat.le_of_eq htail) _
  | syncStore =>
    obtain ⟨hh, ht, -⟩ := snd
    simp only [produceAct, Chan.applyOpt, Chan.apply]
    refine ⟨?_, ?_, ⟨?_, ht, trivial⟩, ?_⟩
    · simp only [List.length_append]
      omega
    · simp only [Chan.all_length, List.length_append, List.length_nil]
      omega
    · simpa using hh
    · cases hr with
      | consumer r pc => exact Nat.le_trans rcv (by simp)
      | _ => trivial
  | drop =>
    refine ⟨rle, ?_, trivial, rcv⟩
    simp only [produceAct, Chan.applyOpt, Chan.apply, Chan.all_length, List.length_nil]
    omega

/-- A step of the receiver with its consumer. -/
private theorem Exact.consume (hx : x.Fits) (hc : Counters x d c m hs hr) (he : Exact x c hs hr) {a : ConsumeAct E}
    (h : ConsumeStep x d.not hr m a hr' m') : Exact x (c.applyOpt (consumeAct a)) hs hr' := by
  obtain ⟨rle, room, snd, rcv⟩ := he
  have hhead := hc.head
  have hrle := hc.released_le
  rw [Chan.all_length] at room
  have hload : c.published.length % 2 ^ 32 ≤ c.published.length := Nat.mod_le _ _
  cases h with
  | new hr =>
    obtain rfl := consumer_new hx hr
    refine ⟨rle, by rwa [Chan.all_length], snd, ?_⟩
    change (x.port.load (.producer d.not.not) m).toNat ≤ c.published.length
    rwa [ClientSide.not_not, hhead]
  | iter => exact ⟨rle, by rwa [Chan.all_length], snd, rcv⟩
  | @next _ r it hlt _ =>
    obtain ⟨-, ht, -, rfl⟩ := hc.receiver
    simp only [consumeAct, Chan.applyOpt, Chan.apply]
    have hstop : r.cachedHead ≤ c.published.length := rcv
    simp only [Consumer.iter] at hlt
    refine ⟨by simp only; omega, by simp only [Chan.all_length]; omega, ?_, rcv⟩
    cases hs <;> exact snd
  | dropIter => exact ⟨rle, by rwa [Chan.all_length], snd, rcv⟩
  | @syncLoad _ r =>
    refine ⟨rle, by rwa [Chan.all_length], snd, ?_⟩
    obtain ⟨hside, -⟩ := hc.receiver.1
    change (x.port.load r.headWord m).toNat ≤ c.published.length
    rwa [Consumer.headWord, hside, ClientSide.not_not, hhead]
  | syncStore =>
    simp only [consumeAct, Chan.applyOpt, Chan.apply]
    refine ⟨rle, by simp only [Chan.all_length]; omega, ?_, rcv⟩
    cases hs with
    | producer p pc => exact ⟨snd.1, by simp only; have := snd.2.1; omega, snd.2.2⟩
    | _ => trivial
  | drop =>
    simp only [consumeAct, Chan.applyOpt, Chan.apply]
    refine ⟨by simp only; omega, by simp only [Chan.all_length]; omega, ?_, trivial⟩
    cases hs <;> exact snd

private theorem Exact.produce_not (he : Exact x c hs hr) {a : ProduceAct E} (h : ProduceStep x d.not hr m a hr' m') :
    Exact x c hs hr' := by
  obtain ⟨rle, room, snd, rcv⟩ := he
  cases h <;> exact ⟨rle, room, snd, trivial⟩

private theorem Exact.consume_not (he : Exact x c hs hr) {a : ConsumeAct E} (h : ConsumeStep x d hs m a hs' m') :
    Exact x c hs' hr := by
  obtain ⟨rle, room, snd, rcv⟩ := he
  cases h <;> exact ⟨rle, room, trivial, rcv⟩

def BothExact (x : Ctx M E) (tr : List (Event E)) (st : State M E) : Prop :=
  ∀ d, Exact x (chan d tr) (st.handle d) (st.handle d.not)

theorem bothExact_init {m : M} : BothExact x [] (init m : State M E) := fun _ =>
  ⟨Nat.le_refl _, by simp [Chan.empty], trivial, trivial⟩

/-! ### Runs -/

/-- The event does not open a producer of a direction in which `2 ^ 32` entries have been published. -/
def NotWrapped (tr : List (Event E)) (e : Event E) : Prop :=
  ∀ d, e = .produce d .new → (chan d tr).published.length < 2 ^ 32

variable [DecidableEq E] {tr : List (Event E)} {st st' : State M E} {e : Event E}

theorem BothExact.step (hx : x.Fits) (hc : BothCounters x tr st) (he : BothExact x tr st) (hw : NotWrapped tr e)
    (h : step x st e = some st') : BothExact x (tr ++ [e]) st' := by
  intro d
  have hd := he d
  rw [chan_snoc]
  rcases step_cases h with ⟨s, a, rfl, hp, hrest⟩ | ⟨s, a, rfl, hp, hrest⟩
  · rcases ClientSide.eq_or_eq_not d s with rfl | rfl
    · rw [chanAct_produce, hrest]
      exact hd.produce hx (hc s) (fun ha => hw s (by rw [ha])) hp
    · rw [ClientSide.not_not] at hrest
      rw [chanAct_produce_not, hrest]
      exact hd.produce_not hp
  · rcases ClientSide.eq_or_eq_not d s with rfl | rfl
    · rw [chanAct_consume, hrest]
      exact hd.consume_not hp
    · rw [ClientSide.not_not] at hrest
      rw [chanAct_consume_not, hrest]
      exact hd.consume hx (hc d) hp

theorem BothCounters.step (hx : x.Fits) (hc : BothCounters x tr st) (h : step x st e = some st') :
    BothCounters x (tr ++ [e]) st' := by
  intro d
  have hd := hc d
  have hn := hc d.not
  rw [chan_snoc]
  rw [ClientSide.not_not] at hn
  rcases step_cases h with ⟨s, a, rfl, hp, hrest⟩ | ⟨s, a, rfl, hp, hrest⟩
  · rcases ClientSide.eq_or_eq_not d s with rfl | rfl
    · rw [chanAct_produce, hrest]
      exact hd.produce hx hp
    · rw [ClientSide.not_not] at hrest
      rw [chanAct_produce_not, hrest]
      exact hd.produce_not hn.sender hp
  · rcases ClientSide.eq_or_eq_not d s with rfl | rfl
    · rw [chanAct_consume, hrest]
      exact hd.consume_not hn.receiver hp
    · rw [ClientSide.not_not] at hrest
      rw [chanAct_consume_not, hrest]
      exact hd.consume hx hp

/-- In every run from reset counters, the words and the handles agree with the channels modulo `2 ^ 32`. -/
theorem counters_of_run {m : M} (hx : x.Fits) (hm : Reset x m) (h : Run (Duplex.step x) (init m) tr st) :
    BothCounters x tr st :=
  h.invariant (bothCounters_init hm) fun _ _ _ _ hc hs => hc.step hx hs

/-- In a run that opens no producer on a wrapped head, they agree exactly. -/
theorem exact_of_run {m : M} {G : List (Event E) → State M E → Event E → Prop} (hx : x.Fits) (hm : Reset x m)
    (hG : ∀ tr st e, G tr st e → NotWrapped tr e) (h : RunWhere (Duplex.step x) G (init m) tr st) :
    BothCounters x tr st ∧ BothExact x tr st :=
  h.invariant (I := fun tr st => BothCounters x tr st ∧ BothExact x tr st) ⟨bothCounters_init hm, bothExact_init⟩
    fun _ _ _ _ hc hg hs => ⟨hc.1.step hx hs, hc.2.step hx hc.1 (hG _ _ _ hg) hs⟩

end Duplex

end ShmRing
