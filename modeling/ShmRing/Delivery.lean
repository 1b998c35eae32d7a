import ShmRing.Fifo
import ShmRing.Placement

/-!
# What is delivered

Handles on a ring that a server has accepted.  When one direction is used alone, what its consumer yields is what its
producer has pushed, in order, however the steps are interleaved and however many entries have passed
(`one_way_fifo`).  When both are used, this holds for as long as neither writes in the slot of an unread position of the
other (`undisturbed_of_run`), which nothing in the code sees to: both producers write to the same slots.
-/

namespace ShmRing

open Machine Transition

namespace Duplex

variable {M E : Type} {x : Ctx M E} {d : ClientSide} {m : M} {tr : List (Event E)} {st st' : State M E} {e : Event E}

/-- A ring that a server has accepted, with handles of its entry size. -/
structure Ctx.Accepted (x : Ctx M E) : Prop where
  info : ∃ (b : Build) (infos : List RingInfo) (cfgs : List RingConfig) (range : Server.Range),
    infos.length = cfgs.length ∧ (Server.offsets b infos cfgs range).1 = .ok () ∧
      x.info ∈ (Server.offsets b infos cfgs range).2
  entry_eq : x.entry = x.info.sizeSlotEntry.toNat

theorem Ctx.Accepted.fits (hx : x.Accepted) : x.Fits := by
  obtain ⟨b, infos, cfgs, range, hlen, hok, hinfo⟩ := hx.info
  obtain ⟨cfg, hv, hring, hentry, -⟩ := Server.mem_offsets hlen hok hinfo
  refine ⟨hx.entry_eq, ?_⟩
  rw [Ctx.count, hring, hentry]
  exact hv.count_pow

/-! ### Entries and acts -/

/-- The entries that a consumer yields are those that are taken from its channel. -/
private theorem taken_chanAct (d : ClientSide) (tr : List (Event E)) :
    Chan.taken (tr.filterMap (chanAct d)) = yielded d.not tr := by
  rw [Chan.taken, List.filterMap_filterMap, yielded]
  refine congrArg (fun f => tr.filterMap f) (funext fun e => ?_)
  cases e with
  | produce s a =>
    rcases ClientSide.eq_or_eq_not d s with rfl | rfl
    · rw [chanAct_produce]
      cases a <;> rfl
    · rw [chanAct_produce_not]
      rfl
  | consume s a =>
    rcases ClientSide.eq_or_eq_not d s with rfl | rfl
    · rw [chanAct_consume]
      cases a <;> simp
    · rw [chanAct_consume_not]
      cases a <;> simp [consumeAct]

section Runs

variable [DecidableEq E]

/-- While the directions keep apart, what was yielded is the first of what was published. -/
theorem yielded_of_run (hx : x.Fits) (hm : Reset x m) (h : RunWhere (Duplex.step x) (Apart x) (init m) tr st)
    (d : ClientSide) :
    yielded d.not tr = (chan d tr).published.take (chan d tr).read ∧
      (yielded d.not tr).length = (chan d tr).read := by
  obtain ⟨htaken, hle⟩ := Chan.fifo_of_run (channel_of_run hx hm h d)
  rw [taken_chanAct] at htaken
  exact ⟨htaken, by rw [htaken, List.length_take, Nat.min_eq_left hle]⟩

theorem yielded_first (hx : x.Fits) (hm : Reset x m) (h : RunWhere (Duplex.step x) (Apart x) (init m) tr st)
    (d : ClientSide) : yielded d.not tr <+: pushed d tr := by
  rw [(yielded_of_run hx hm h d).1]
  exact (List.take_prefix _ _).trans (List.prefix_append _ _)

end Runs

/-! ### Draws -/

/-- The items that the calls of `push_many` draw, from the start of the last one on. -/
def drawn (d : ClientSide) (tr : List (Event E)) : List E :=
  tr.foldl (fun l e => match e with
    | .produce s .pushMany => if s = d then [] else l
    | .produce s (.draw data) => if s = d then l ++ [data] else l
    | _ => l) []

/-- What a call has drawn is what it has written, and the entry that it is about to write. -/
def Drawn (d : ClientSide) (tr : List (Event E)) : Handle E → Prop
  | .producer _ (.pushing _) => drawn d tr = (chan d tr).call
  | .producer _ (.holding _ data) => drawn d tr = (chan d tr).call ++ [data]
  | _ => True

theorem Drawn.step [DecidableEq E] (hc : BothCounters x tr st) (hd : Drawn d tr (st.handle d))
    (h : Duplex.step x st e = some st') : Drawn d (tr ++ [e]) (st'.handle d) := by
  rcases step_cases h with ⟨s, a, rfl, hp, hrest⟩ | ⟨s, a, rfl, hp, hrest⟩
  · rcases ClientSide.eq_or_eq_not d s with rfl | rfl
    · have hc := (hc s).sender
      revert hp hd hc
      generalize st.handle s = hnd, st'.handle s = hnd', st.mem = m, st'.mem = m'
      intro hp hd hc
      cases hp with
      | pushMany =>
        obtain ⟨-, -, hcall⟩ := hc
        simp only [Drawn, drawn, List.foldl_append, List.foldl_cons, List.foldl_nil, if_true, chan_snoc,
          chanAct_produce]
        exact (show (chan s tr).call = [] from hcall).symm
      | draw hlt =>
        simp only [Drawn, drawn, List.foldl_append, List.foldl_cons, List.foldl_nil, if_true, chan_snoc,
          chanAct_produce] at hd ⊢
        rw [hd]
        rfl
      | write hlt =>
        simp only [Drawn, drawn, List.foldl_append, List.foldl_cons, List.foldl_nil, chan_snoc,
          chanAct_produce] at hd ⊢
        rw [hd]
        rfl
      | _ => trivial
    · rw [ClientSide.not_not] at hrest
      rw [hrest]
      revert hd
      cases st.handle d with
      | producer p pc =>
        cases pc <;> cases a <;>
          simp [Drawn, drawn, chan_snoc, Chan.applyOpt]
      | _ => exact fun _ => trivial
  · rcases ClientSide.eq_or_eq_not d s with rfl | rfl
    · revert hp
      generalize st.handle s = hnd, st'.handle s = hnd', st.mem = m, st'.mem = m'
      intro hp
      cases hp <;> trivial
    · rw [ClientSide.not_not] at hrest
      rw [hrest]
      revert hd
      cases st.handle d with
      | producer p pc =>
        cases pc <;> cases a <;>
          simp [Drawn, drawn, chan_snoc, Chan.applyOpt, Chan.apply, consumeAct]
      | _ => exact fun _ => trivial

theorem drawn_of_run [DecidableEq E] (hx : x.Fits) (hm : Reset x m) (h : Run (Duplex.step x) (init m) tr st)
    (d : ClientSide) : Drawn d tr (st.handle d) :=
  (h.invariant (I := fun tr st => BothCounters x tr st ∧ Drawn d tr (st.handle d))
    ⟨bothCounters_init hm, trivial⟩ fun _ _ _ _ ⟨hc, hd⟩ hs => ⟨hc.step hx hs, hd.step hc hs⟩).2

/-! ### One direction -/

/-- The events of a direction that is used alone. -/
def InDirection (d : ClientSide) : Event E → Prop
  | .produce s _ => s = d
  | .consume s _ => s = d.not

instance (d : ClientSide) (e : Event E) : Decidable (InDirection d e) := by
  cases e <;> unfold InDirection <;> infer_instance

/-- The events of a direction whose handles are never dropped. -/
def Kept (d : ClientSide) (e : Event E) : Prop :=
  InDirection d e ∧ e ≠ .produce d .drop ∧ e ≠ .consume d.not .drop

instance [DecidableEq E] (d : ClientSide) (e : Event E) : Decidable (Kept d e) := inferInstanceAs (Decidable (_ ∧ _))

/-- Nothing happens in the other direction. -/
private theorem chan_not_of_direction (h : ∀ e ∈ tr, InDirection d e) : chan d.not tr = Chan.empty := by
  have hnil : tr.filterMap (chanAct d.not) = [] := by
    rw [List.filterMap_eq_nil_iff]
    intro e he
    have hdir := h e he
    cases e with
    | produce s a =>
      obtain rfl : s = d := hdir
      simpa using chanAct_produce_not s.not a
    | consume s a =>
      obtain rfl : s = d.not := hdir
      exact chanAct_consume d.not a
  rw [chan, hnil]
  rfl

section Runs

variable [DecidableEq E]

/-- Before its only producer is opened, nothing has been published. -/
private theorem published_of_closed (h : Run (Duplex.step x) (init m) tr st) (hk : ∀ e ∈ tr, Kept d e)
    (hclosed : st.handle d = .closed) : (chan d tr).published = [] := by
  revert hk hclosed
  refine h.invariant (I := fun tr st => (∀ e ∈ tr, Kept d e) → st.handle d = .closed → (chan d tr).published = [])
    (fun _ _ => rfl) ?_
  intro tr st e st' ih hs hk hclosed
  obtain ⟨hdir, hdrop, -⟩ := hk e (List.mem_append_right _ (List.mem_singleton.2 rfl))
  have ih := ih fun e he => hk e (List.mem_append_left _ he)
  rw [chan_snoc]
  rcases step_cases hs with ⟨s, a, rfl, hp, hrest⟩ | ⟨s, a, rfl, hp, hrest⟩
  · obtain rfl : s = d := hdir
    rw [hclosed] at hp
    exact absurd (congrArg _ hp.of_closed) hdrop
  · obtain rfl : s = d.not := hdir
    rw [ClientSide.not_not] at hrest
    rw [chanAct_consume_not]
    have hpub := ih (hrest ▸ hclosed)
    cases a <;> exact hpub

/-- A direction that is used alone, by handles that are never dropped, keeps apart from the other. -/
private theorem apart_of_kept (h : Run (Duplex.step x) (init m) tr st) (hk : ∀ e ∈ tr, Kept d e) :
    RunWhere (Duplex.step x) (Apart x) (init m) tr st := by
  refine h.where_of_prefix fun tr' st' e st'' h' hs hp => ?_
  have hk' : ∀ e' ∈ tr', Kept d e' := fun e' he' => hk e' (hp.subset (List.mem_append_left _ he'))
  have hempty := chan_not_of_direction fun e' he' => (hk' e' he').1
  obtain ⟨hdir, hdrop, hdrop'⟩ := hk e (hp.subset (List.mem_append_right _ (List.mem_singleton.2 rfl)))
  refine ⟨?_, ?_, ?_⟩
  -- the only producer is opened before anything is published
  · rintro d' rfl
    obtain rfl : d' = d := hdir
    rcases step_cases hs with ⟨s, a, he, hstep, -⟩ | ⟨s, a, he, -⟩
    · cases he
      rw [published_of_closed h' hk' hstep.of_new]
      exact Nat.two_pow_pos 32
    · cases he
  -- the other direction has no entries that could be overwritten
  · rintro s slot data rfl i e' - hie
    obtain rfl : s = d := hdir
    rw [hempty] at hie
    simp [Chan.empty, Chan.all] at hie
  · rintro s rfl
    obtain rfl : s = d.not := hdir
    exact absurd rfl hdrop'

/-- The entries that are pushed and not yet yielded are in their slots. -/
theorem Safe.held_unread (hx : x.Fits) (hm : Reset x m) (h : RunWhere (Duplex.step x) (Apart x) (init m) tr st)
    (d : ClientSide) : Held x (yielded d.not tr).length (chan d tr) st.mem := by
  rw [(yielded_of_run hx hm h d).2]
  exact (safe_of_run hx hm h).held d

/-- A producer never writes to the slot of an entry that is not released. -/
private theorem write_ne_slot (hx : x.Fits) (hc : BothCounters x tr st) (he : BothExact x tr st) {slot : Nat} {data : E}
    (h : Duplex.step x st (.produce d (.write slot data)) = some st') {i : Nat} (hle : (chan d tr).released ≤ i)
    (hlt : i < (chan d tr).all.length) : slot ≠ i % x.count := by
  rcases step_cases h with ⟨s, a, heq, hp, -⟩ | ⟨s, a, heq, -⟩
  · cases heq
    have hc := hc d
    have he := he d
    revert hp hc he
    generalize st.handle d = hnd, st'.handle d = hnd', st.mem = m, st'.mem = m'
    intro hp hc he
    cases hp with
    | write _ =>
      obtain ⟨rfl, hroom, hmask⟩ := next_index hc he
      rw [hmask, hx.and_mask]
      exact (mod_ne_of_lt hlt (by omega)).symm
  · cases heq

/-- The count that a call returns is the number of items that it has drawn, and these are what it has pushed. -/
private theorem pushed_drawn (hc : BothCounters x tr st) (hd : Drawn d tr (st.handle d)) {count : Nat}
    (h : Duplex.step x st (.produce d (.pushed count)) = some st') :
    count = (drawn d tr).length ∧
      pushed d (tr ++ [.produce d (.pushed count)]) = pushed d tr ++ drawn d tr := by
  rcases step_cases h with ⟨s, a, heq, hp, -⟩ | ⟨s, a, heq, -⟩
  · cases heq
    have hc := (hc d).sender
    revert hp hc hd
    generalize st.handle d = hnd, st'.handle d = hnd', st.mem = m, st'.mem = m'
    intro hd hp hc
    cases hp with
    | @pushed _ p n =>
      obtain ⟨-, -, hn⟩ := hc
      simp only [PcCounts] at hn
      rw [show drawn d tr = (chan d tr).call from hd]
      refine ⟨by omega, ?_⟩
      simp only [Duplex.pushed, chan_snoc, chanAct_produce]
      exact (List.append_assoc ..).symm
  · cases heq

/-- A direction delivers in order: what was yielded is a prefix of what was pushed, the entries not yet yielded are in
their slots, to which no write goes, and a call that returns has drawn just the items that it reports and pushes. -/
structure Delivers (x : Ctx M E) (d : ClientSide) (tr : List (Event E)) (st : State M E) : Prop where
  fifo : yielded d.not tr <+: pushed d tr
  held : Held x (yielded d.not tr).length (chan d tr) st.mem
  write : ∀ slot data st', Duplex.step x st (.produce d (.write slot data)) = some st' →
    ∀ i, (yielded d.not tr).length ≤ i → i < (chan d tr).all.length → slot ≠ i % x.count
  pushed : ∀ count st', Duplex.step x st (.produce d (.pushed count)) = some st' →
    count = (drawn d tr).length ∧ Duplex.pushed d (tr ++ [.produce d (.pushed count)]) = Duplex.pushed d tr ++ drawn d tr

theorem delivers_of_kept (hx : x.Fits) (hm : Reset x m) (h : Run (Duplex.step x) (init m) tr st)
    (hk : ∀ e ∈ tr, Kept d e) : Delivers x d tr st := by
  have hrun := apart_of_kept h hk
  obtain ⟨hc, he, -⟩ := safe_of_run hx hm hrun
  refine ⟨yielded_first hx hm hrun d, Safe.held_unread hx hm hrun d, fun slot data st' hs i hi hlt => ?_,
    fun count st' hs => pushed_drawn hc (drawn_of_run hx hm h d) hs⟩
  rw [(yielded_of_run hx hm hrun d).2] at hi
  exact write_ne_slot hx hc he hs (Nat.le_trans (hc d).released_le hi) hlt

/-- One direction of a ring, used alone by a producer and a consumer that stay open, delivers in order. -/
theorem one_way_fifo (hx : x.Accepted) (hm : Reset x m) (h : Run (Duplex.step x) (init m) tr st)
    (hk : ∀ e ∈ tr, Kept d e) : Delivers x d tr st :=
  delivers_of_kept hx.fits hm h hk

/-- A ring of two entries of one byte each, as a server sets it up. -/
def twoSlots : Ctx (RingHead × (Nat → UInt8)) UInt8 where
  build := .release
  info :=
    { version := 1
      offsetHead := 0
      offsetRing := 4096
      offsetData := 8192
      sizeHead := 4096
      sizeRing := 2
      sizeData := 0
      sizeSlotEntry := 1
      lhs := 0xffffffff
      rhs := 0xffffffff }
  entry := 1
  port := LawfulPort.plain UInt8 2
  len_eq := rfl

private theorem twoSlots_accepted : twoSlots.Accepted :=
  ⟨⟨.release, [⟨0, 0, 0, 0, 0, 0, 0, 0, 0, 0⟩], [⟨2, 0, 1, -1, -1⟩], ⟨0, 8192⟩, rfl, by decide, by decide⟩, rfl⟩

private theorem twoSlots_reset : Reset twoSlots (RingHead.zero, fun _ => 0) := fun s =>
  ⟨RingHead.load_zero (.producer s), RingHead.load_zero (.consumer s)⟩

/-- The left side pushes two entries and the right side yields the first. -/
def leftToRight : List (Event UInt8) :=
  [.produce .left .new, .consume .right .new, .produce .left .pushMany, .produce .left (.draw 7),
    .produce .left (.write 0 7), .produce .left (.draw 9), .produce .left (.write 1 9), .produce .left (.pushed 2),
    .produce .left .syncLoad, .produce .left .syncStore, .consume .right .syncLoad, .consume .right .syncStore,
    .consume .right .iter, .consume .right (.next 7)]

theorem one_way_fifo_leftToRight :
    ∃ st, Run (Duplex.step twoSlots) (init (RingHead.zero, fun _ => 0)) leftToRight st ∧
      Delivers twoSlots .left leftToRight st := by
  obtain ⟨st, hst⟩ : ∃ st, exec (Duplex.step twoSlots) (init (RingHead.zero, fun _ => 0)) leftToRight = some st :=
    Option.isSome_iff_exists.1 (by decide)
  exact ⟨st, run_iff_exec.2 hst, one_way_fifo twoSlots_accepted twoSlots_reset (run_iff_exec.2 hst) (by decide)⟩

/-! ### Both directions -/

/-- Neither direction disturbs the other: each side yields what the other has pushed, in order, and what it has not
yet yielded is unchanged in its slot. -/
def Undisturbed (x : Ctx M E) (tr : List (Event E)) (st : State M E) : Prop :=
  ∀ d, yielded d.not tr <+: pushed d tr ∧ Held x (yielded d.not tr).length (chan d tr) st.mem

private theorem undisturbed_of_apart (hx : x.Fits) (hm : Reset x m)
    (h : RunWhere (Duplex.step x) (Apart x) (init m) tr st) :
    Undisturbed x tr st := fun d => ⟨yielded_first hx hm h d, Safe.held_unread hx hm h d⟩

/-- The condition on a step, by positions: a producer is not opened on a wrapped head; the position that is written is
in no slot of a position of the other direction that is pushed and not yet read; and a consumer is dropped only when it
has released what it has read. -/
structure Clear (x : Ctx M E) (tr : List (Event E)) (_ : State M E) (e : Event E) : Prop where
  notWrapped : NotWrapped tr e
  write : ∀ s slot data, e = .produce s (.write slot data) → ∀ i, i < (chan s.not tr).all.length →
    (chan s.not tr).read ≤ i → i % x.count ≠ (chan s tr).all.length % x.count
  drop : ∀ s, e = .consume s .drop → (chan s.not tr).read = (chan s.not tr).released

omit [DecidableEq E] in
private theorem clear_iff : Clear x tr st e ↔ match e with
    | .produce s .new => (chan s tr).published.length < 2 ^ 32
    | .produce s (.write _ _) => ∀ i, i < (chan s.not tr).all.length → (chan s.not tr).read ≤ i →
        i % x.count ≠ (chan s tr).all.length % x.count
    | .consume s .drop => (chan s.not tr).read = (chan s.not tr).released
    | _ => True := by
  constructor
  · intro h
    split
    · exact h.notWrapped _ rfl
    · exact h.write _ _ _ rfl
    · exact h.drop _ rfl
    · trivial
  · intro h
    refine ⟨fun d he => ?_, fun s slot data he => ?_, fun s he => ?_⟩ <;> subst he <;> exact h

instance (x : Ctx M E) (tr : List (Event E)) (st : State M E) (e : Event E) : Decidable (Clear x tr st e) := by
  refine @decidable_of_iff' _ _ clear_iff ?_
  split <;> infer_instance

/-- The slot that is written is that of the next position. -/
private theorem Clear.apart (hx : x.Fits) (hc : BothCounters x tr st) (he : BothExact x tr st) (h : Clear x tr st e)
    (hs : Duplex.step x st e = some st') : Apart x tr st e := by
  refine ⟨h.notWrapped, ?_, h.drop⟩
  rintro s slot data rfl i e' hle hi hslot
  have hlt := (List.getElem?_eq_some_iff.1 hi).1
  refine absurd hslot ?_
  rcases step_cases hs with ⟨t, a, heq, hp, -⟩ | ⟨t, a, heq, -⟩
  · cases heq
    have hc := hc s
    have he := he s
    revert hp hc he
    generalize st.handle s = hnd, st'.handle s = hnd', st.mem = m, st'.mem = m'
    intro hp hc he
    cases hp with
    | write _ =>
      obtain ⟨rfl, -, hmask⟩ := next_index hc he
      rw [hmask, hx.and_mask]
      exact h.write s _ _ rfl i hlt hle
  · cases heq

private theorem apart_of_clear (hx : x.Fits) (hm : Reset x m) (h : RunWhere (Duplex.step x) (Clear x) (init m) tr st) :
    RunWhere (Duplex.step x) (Apart x) (init m) tr st := by
  have hboth := h.invariant (I := fun tr st => RunWhere (Duplex.step x) (Clear x) (init m) tr st ∧
    RunWhere (Duplex.step x) (Apart x) (init m) tr st) ⟨.nil, .nil⟩ fun tr st e st' ⟨hclear, hapart⟩ hg hs => by
      obtain ⟨hc, he⟩ := exact_of_run hx hm (fun _ _ _ => Clear.notWrapped) hclear
      exact ⟨hclear.snoc hg hs, hapart.snoc (hg.apart hx hc he hs) hs⟩
  exact hboth.2

/-- As long as no position is written in the slot of an unread one of the other direction, the directions do not
disturb each other. -/
theorem undisturbed_of_run (hx : x.Accepted) (hm : Reset x m)
    (h : RunWhere (Duplex.step x) (Clear x) (init m) tr st) : Undisturbed x tr st :=
  undisturbed_of_apart hx.fits hm (apart_of_clear hx.fits hm h)

end Runs

/-- The left side pushes two entries, of which the right side yields the first; then it pushes one itself, to the slot
of the first, before it yields the second. -/
def bothPush : List (Event UInt8) :=
  [.produce .left .new, .produce .left .pushMany, .produce .left (.draw 7), .produce .left (.write 0 7),
    .produce .left (.draw 8), .produce .left (.write 1 8), .produce .left (.pushed 2), .produce .left .syncLoad,
    .produce .left .syncStore, .consume .right .new, .consume .right .iter, .consume .right (.next 7),
    .consume .right .dropIter, .consume .right .syncLoad, .consume .right .syncStore, .consume .right .drop,
    .produce .right .new, .produce .right .pushMany, .produce .right (.draw 9), .produce .right (.write 0 9),
    .produce .right (.pushed 1), .produce .right .syncLoad, .produce .right .syncStore, .produce .right .drop,
    .produce .left .drop, .consume .left .new, .consume .left .iter, .consume .left (.next 9),
    .consume .right .new, .consume .right .iter, .consume .right (.next 8)]

theorem undisturbed_of_run_bothPush :
    (∃ st, Undisturbed twoSlots bothPush st) ∧ yielded .right bothPush = [7, 8] ∧ yielded .left bothPush = [9] := by
  obtain ⟨st, hst⟩ : ∃ st, execWhere (Duplex.step twoSlots) (Clear twoSlots) []
      (init (RingHead.zero, fun _ => 0)) bothPush = some st := Option.isSome_iff_exists.1 (by decide +kernel)
  exact ⟨⟨st, undisturbed_of_run twoSlots_accepted twoSlots_reset (RunWhere.nil.exec hst)⟩, by decide, by decide⟩

/-- Both sides push an entry before either side yields one. -/
def crossed : List (Event UInt8) :=
  [.produce .left .new, .produce .left .pushMany, .produce .left (.draw 7), .produce .left (.write 0 7),
    .produce .left (.pushed 1), .produce .left .syncLoad, .produce .left .syncStore, .produce .left .drop,
    .produce .right .new, .produce .right .pushMany, .produce .right (.draw 9), .produce .right (.write 0 9),
    .produce .right (.pushed 1), .produce .right .syncLoad, .produce .right .syncStore, .produce .right .drop,
    .consume .right .new, .consume .right .iter, .consume .right (.next 9)]

/-- The right side then yields the entry that it has pushed itself. -/
theorem not_undisturbed :
    ∃ st, Run (Duplex.step twoSlots) (init (RingHead.zero, fun _ => 0)) crossed st ∧
      yielded .right crossed = [9] ∧ pushed .left crossed = [7] ∧ ¬ Undisturbed twoSlots crossed st := by
  obtain ⟨st, hst⟩ : ∃ st, exec (Duplex.step twoSlots) (init (RingHead.zero, fun _ => 0)) crossed = some st :=
    Option.isSome_iff_exists.1 (by decide)
  exact ⟨st, run_iff_exec.2 hst, by decide, by decide, fun h => absurd (h .left).1 (by decide)⟩

end Duplex

end ShmRing
