import ShmRing.Counters

/-!
# Slots and entries

What the slots hold.  In its own direction a producer never writes a slot whose entry has not been released, because
it is never more than the number of slots ahead (`Held.produce`).  But both directions of a ring index into the same
slots, so a producer may overwrite an entry of the other direction.  `Apart` is the condition on the steps of a run
under which it does not, and then each direction is a channel (`channel_of_run`): what is taken from it is what was
published, in order, and what is still to be taken is in its slot.
-/

namespace ShmRing

open Machine Transition

namespace Duplex

variable {M E : Type} {x : Ctx M E} {d : ClientSide} {c : Chan E} {m m' : M} {hs hs' hr hr' : Handle E} {lo : Nat}

/-- The entries of a channel from position `lo` on are in their slots. -/
def Held (x : Ctx M E) (lo : Nat) (c : Chan E) (m : M) : Prop :=
  ∀ i e, lo ≤ i → c.all[i]? = some e → x.port.get (i % x.count) m = e

theorem mod_ne_of_lt {i j k : Nat} (hij : i < j) (hk : j < i + k) : i % k ≠ j % k := by
  intro he
  have hd : k ∣ j - i := Nat.dvd_of_mod_eq_zero (Nat.sub_mod_eq_zero_of_mod_eq he.symm)
  have := Nat.le_of_dvd (by omega) hd
  omega

theorem Held.mono {lo' : Nat} (h : Held x lo c m) (hle : lo ≤ lo') : Held x lo' c m :=
  fun i e hi he => h i e (Nat.le_trans hle hi) he

/-- The index of the next write is the position after the last entry of the channel. -/
theorem next_index {p : Producer} {n : Nat} {data : E} (hc : Counters x d c m (.producer p (.holding n data)) hr)
    (he : Exact x c (.producer p (.holding n data)) hr) :
    n = c.all.length ∧ n < c.released + x.count ∧ p.offsetMask = x.count - 1 := by
  obtain ⟨⟨-, hmask, -⟩, -, hn⟩ := hc.sender
  obtain ⟨hh, ht, hlt⟩ := he.sender
  simp only [PcCounts] at hn
  rw [Chan.all_length]
  omega

/-- A producer writes over no entry of its own direction that is not released. -/
theorem Held.produce (hx : x.Fits) (hc : Counters x d c m hs hr) (he : Exact x c hs hr) (hlo : c.released ≤ lo)
    (hh : Held x lo c m) {a : ProduceAct E} (h : ProduceStep x d hs m a hs' m') :
    Held x lo (c.applyOpt (produceAct a)) m' := by
  cases h with
  | @write _ p n data hlt =>
    obtain ⟨rfl, hroom, hmask⟩ := next_index hc he
    rw [hmask, hx.and_mask] at hlt ⊢
    intro i e hi hie
    have hall : (c.applyOpt (produceAct (.write (c.all.length % x.count) data))).all = c.all ++ [data] := by
      simp [produceAct, Chan.applyOpt, Chan.apply, Chan.all]
    rw [hall] at hie
    rw [x.port.get_set _ _ _ _ hlt (hx.slot_lt i)]
    -- an entry before the written one is less than a round away, so it has another slot
    rcases Nat.lt_trichotomy i c.all.length with hlt' | rfl | hgt
    · rw [if_neg (mod_ne_of_lt hlt' (by omega))]
      exact hh i e hi (by rwa [List.getElem?_append_left hlt'] at hie)
    · rw [if_pos rfl]
      simpa using hie
    · rw [List.getElem?_eq_none (by rw [List.length_append, List.length_singleton]; omega)] at hie
      cases hie
  | pushed => exact fun i e hi hie => hh i e hi (by simpa [produceAct, Chan.applyOpt, Chan.apply, Chan.all] using hie)
  | unwind _ =>
    intro i e hi hie
    have hie' : (c.published ++ c.unsynced)[i]? = some e := by
      simpa [produceAct, Chan.applyOpt, Chan.apply, Chan.all] using hie
    refine hh i e hi ?_
    rw [Chan.all, List.getElem?_append_left (List.getElem?_eq_some_iff.1 hie').1, hie']
  | @syncStore _ p =>
    intro i e hi hie
    rw [Producer.syncStore, x.port.get_store _ _ _ _ (hx.slot_lt i)]
    exact hh i e hi (by simpa [produceAct, Chan.applyOpt, Chan.apply, Chan.all] using hie)
  | drop =>
    intro i e hi hie
    have hie' : c.published[i]? = some e := by
      simpa [produceAct, Chan.applyOpt, Chan.apply, Chan.all] using hie
    refine hh i e hi ?_
    rw [Chan.all, List.append_assoc, List.getElem?_append_left (List.getElem?_eq_some_iff.1 hie').1, hie']
  | _ => exact hh

theorem Held.consume (hx : x.Fits) (hh : Held x lo c m) {s : ClientSide} {a : ConsumeAct E}
    (h : ConsumeStep x s hr m a hr' m') : Held x lo (c.applyOpt (consumeAct a)) m' := by
  cases h with
  | syncStore =>
    intro i e hi hie
    rw [Consumer.syncStore, x.port.get_store _ _ _ _ (hx.slot_lt i)]
    exact hh i e hi hie
  | _ => exact hh

private theorem Held.consume_not (hx : x.Fits) (hh : Held x lo c m) {s : ClientSide} {a : ConsumeAct E}
    (h : ConsumeStep x s hr m a hr' m') : Held x lo c m' := by
  cases h with
  | syncStore =>
    intro i e hi hie
    rw [Consumer.syncStore, x.port.get_store _ _ _ _ (hx.slot_lt i)]
    exact hh i e hi hie
  | _ => exact hh

/-- A write of the other direction, to a slot that holds none of the entries, or the entry that is written. -/
private theorem Held.produce_not (hx : x.Fits) (hh : Held x lo c m) {s : ClientSide} {a : ProduceAct E}
    (hapart : ∀ slot data, a = .write slot data →
      ∀ i e, lo ≤ i → c.all[i]? = some e → i % x.count = slot → e = data)
    (h : ProduceStep x s hr m a hr' m') : Held x lo c m' := by
  cases h with
  | write hlt =>
    intro i e hi hie
    rw [x.port.get_set _ _ _ _ hlt (hx.slot_lt i)]
    split
    · rename_i hslot; exact (hapart _ _ rfl i e hi hie hslot).symm
    · exact hh i e hi hie
  | syncStore =>
    intro i e hi hie
    rw [Producer.syncStore, x.port.get_store _ _ _ _ (hx.slot_lt i)]
    exact hh i e hi hie
  | _ => exact hh

/-! ### Runs in which the directions keep apart -/

/-- The condition on a step: a producer is not opened on a wrapped head, a write does not change an entry of the
other direction that is pushed and not yet yielded, and a consumer is dropped only when it has synced what it has
yielded. -/
structure Apart (x : Ctx M E) (tr : List (Event E)) (_ : State M E) (e : Event E) : Prop where
  notWrapped : NotWrapped tr e
  write : ∀ s slot data, e = .produce s (.write slot data) → ∀ i e', (chan s.not tr).read ≤ i →
    (chan s.not tr).all[i]? = some e' → i % x.count = slot → e' = data
  drop : ∀ s, e = .consume s .drop → (chan s.not tr).read = (chan s.not tr).released

def BothHeld (x : Ctx M E) (tr : List (Event E)) (st : State M E) : Prop :=
  ∀ d, Held x (chan d tr).read (chan d tr) st.mem

variable {tr : List (Event E)} {st st' : State M E} {e : Event E}

theorem bothHeld_init {m : M} : BothHeld x [] (init m : State M E) := fun _ i e _ h => by
  simp [Chan.empty, Chan.all] at h

variable [DecidableEq E]

theorem BothHeld.step (hx : x.Fits) (hc : BothCounters x tr st) (he : BothExact x tr st) (hh : BothHeld x tr st)
    (ha : Apart x tr st e) (h : step x st e = some st') : BothHeld x (tr ++ [e]) st' := by
  intro d
  have hd := hh d
  rw [chan_snoc]
  rcases step_cases h with ⟨s, a, rfl, hp, hrest⟩ | ⟨s, a, rfl, hp, hrest⟩
  · rcases ClientSide.eq_or_eq_not d s with rfl | rfl
    · rw [chanAct_produce]
      have := hd.produce hx (hc s) (he s) (hc s).released_le hp
      cases a <;> exact this
    · rw [chanAct_produce_not]
      refine hd.produce_not hx (fun slot data heq => ?_) hp
      have := ha.write d.not slot data (by rw [heq])
      rwa [ClientSide.not_not] at this
  · rcases ClientSide.eq_or_eq_not d s with rfl | rfl
    · rw [chanAct_consume]
      exact hd.consume_not hx hp
    · rw [chanAct_consume_not]
      have := hd.consume hx hp
      cases a with
      | next data => exact this.mono (Nat.le_succ _)
      | drop =>
        have hr := ha.drop d.not rfl
        rw [ClientSide.not_not] at hr
        exact this.mono (Nat.le_of_eq hr)
      | _ => exact this

/-- The invariant of the runs in which the directions keep apart. -/
structure Safe (x : Ctx M E) (tr : List (Event E)) (st : State M E) : Prop where
  counters : BothCounters x tr st
  exact : BothExact x tr st
  held : BothHeld x tr st

theorem Safe.step (hx : x.Fits) (hs : Safe x tr st) (ha : Apart x tr st e) (h : Duplex.step x st e = some st') :
    Safe x (tr ++ [e]) st' :=
  ⟨hs.counters.step hx h, hs.exact.step hx hs.counters ha.notWrapped h, hs.held.step hx hs.counters hs.exact ha h⟩

omit [DecidableEq E] in
/-- A change of the memory that the references do not see. -/
theorem Safe.congr (hx : x.Fits) (hs : Safe x tr st) (hload : ∀ w, x.port.load w m' = x.port.load w st.mem)
    (hget : ∀ i, i < x.port.len → x.port.get i m' = x.port.get i st.mem) : Safe x tr { st with mem := m' } where
  counters d := by
    obtain ⟨hhead, htail, hlt, hle, hsender, hreceiver⟩ := hs.counters d
    exact ⟨by rw [hload]; exact hhead, by rw [hload]; exact htail, hlt, hle, hsender, hreceiver⟩
  exact := hs.exact
  held d i e hi he := by
    rw [hget _ (hx.slot_lt i)]
    exact hs.held d i e hi he

theorem safe_of_run {m : M} (hx : x.Fits) (hm : Reset x m)
    (h : RunWhere (Duplex.step x) (Apart x) (init m) tr st) : Safe x tr st :=
  h.invariant ⟨bothCounters_init hm, bothExact_init, bothHeld_init⟩ fun _ _ _ _ hs ha hst => hs.step hx ha hst

/-- In such a run every act on a channel is allowed: there was room, and what was taken was next. -/
theorem Safe.allowed (hx : x.Fits) (hs : Safe x tr st) (h : Duplex.step x st e = some st') {b : Chan.Act E}
    (hb : chanAct d e = some b) : Chan.Allowed x.count (chan d tr) b := by
  rcases step_cases h with ⟨s, a, rfl, hp, -⟩ | ⟨s, a, rfl, hp, -⟩
  · rcases ClientSide.eq_or_eq_not d s with rfl | rfl
    · rw [chanAct_produce] at hb
      have hc := hs.counters s
      have he := hs.exact s
      revert hp hc he
      generalize st.handle s = hnd, st'.handle s = hnd', st.mem = m, st'.mem = m'
      intro hp hc he
      cases hp with
      | write hlt =>
        cases hb
        obtain ⟨rfl, hroom, -⟩ := next_index hc he
        exact hroom
      | _ => cases hb <;> trivial
    · rw [chanAct_produce_not] at hb
      cases hb
  · rcases ClientSide.eq_or_eq_not d s with rfl | rfl
    · rw [chanAct_consume] at hb
      cases hb
    · rw [chanAct_consume_not] at hb
      have hc := hs.counters d
      have he := hs.exact d
      have hh := hs.held d
      revert hp hc he hh
      generalize st.handle d.not = hnd, st'.handle d.not = hnd', st.handle d = snd, st.mem = m, st'.mem = m'
      intro hp hc he hh
      cases hp with
      | @next _ r it hlt hlen =>
        cases hb
        obtain ⟨⟨-, hmask⟩, ht, -, rfl⟩ := hc.receiver
        have hstop : r.cachedHead ≤ (chan d tr).published.length := he.receiver
        simp only [Consumer.iter] at hlt
        have hidx : (chan d tr).read < (chan d tr).published.length := by omega
        have hget : (chan d tr).published[(chan d tr).read]? = some (chan d tr).published[(chan d tr).read] :=
          List.getElem?_eq_getElem hidx
        have hall : (chan d tr).all[(chan d tr).read]? = (chan d tr).published[(chan d tr).read]? := by
          rw [Chan.all, List.append_assoc, List.getElem?_append_left hidx]
        have hslot := hh _ _ (Nat.le_refl _) (hall.trans hget)
        simp only [Chan.Allowed, Consumer.iter, hmask, hx.and_mask, ht, hslot, hget]
      | _ => cases hb <;> trivial

/-- Each direction of such a run is a run of a bounded channel. -/
theorem channel_of_run {m : M} (hx : x.Fits) (hm : Reset x m)
    (h : RunWhere (Duplex.step x) (Apart x) (init m) tr st) (d : ClientSide) :
    RunWhere (Chan.step x.count) Chan.Lossless Chan.empty (tr.filterMap (chanAct d)) (chan d tr) := by
  obtain ⟨t, hrun, -, rfl⟩ := h.simulate (Chan.step x.count) (f := chanAct d)
    (R := fun tr st t => Safe x tr st ∧ t = chan d tr)
    (K := Chan.Lossless) (t := Chan.empty)
    ⟨⟨bothCounters_init hm, bothExact_init, bothHeld_init⟩, rfl⟩
    (fun tr st e st' t ⟨hs, ht⟩ ha hst hnone =>
      ⟨hs.step hx ha hst, by rw [chan_snoc, hnone, ht]; rfl⟩)
    (fun tr st e st' t b ⟨hs, ht⟩ ha hst hsome => by
      subst ht
      refine ⟨(chan d tr).apply b, ?_, Chan.step_eq_some.2 ⟨hs.allowed hx hst hsome, rfl⟩, hs.step hx ha hst, ?_⟩
      · rintro rfl
        cases e with
        | produce s a => cases a <;> simp [chanAct, produceAct] at hsome
        | consume s a =>
          simp only [chanAct] at hsome
          split at hsome
          · subst s
            cases a <;> simp [consumeAct] at hsome
            simpa using ha.drop d.not rfl
          · cases hsome
      · rw [chan_snoc, hsome]; rfl)
  exact hrun

end Duplex

end ShmRing
