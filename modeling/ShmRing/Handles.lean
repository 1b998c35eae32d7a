import ShmRing.Wired
import ShmRing.Wrap

/-!
# Handles of the right type

A handle is typed by the size `N` of its entries.  Its index mask comes from the record of the ring, its slots are
cut with `N`, and nothing ties the two together: the guard in both constructors compares `N` with the size of the
data.  A handle of the entry size of the ring is in bounds for every counter (`typed_iff`); but there may be none, or
one of another size.
-/

namespace ShmRing

open Machine Bytes Transition

/-! ### What the constructors compute -/

/-- The geometry of a ring with powers of two, in closed form. -/
theorem geometry_eq {b : Build} {info : RingInfo} (hring : info.sizeRing.toNat.isPowerOfTwo)
    (hslot : info.sizeSlotEntry.toNat.isPowerOfTwo)
    (hpos : 0 < (info.sizeRing / info.sizeSlotEntry).toNat) (N : Nat) :
    geometry b info N =
      if info.sizeData.toNat = N then .ok none
      else if N = 0 then .error .panic
      else .ok (some (info.sizeRing / info.sizeSlotEntry, info.sizeRing / info.sizeSlotEntry - 1)) := by
  have hle : (1 : UInt64) ≤ info.sizeRing / info.sizeSlotEntry := UInt64.le_iff_toNat_le.2 hpos
  simp only [geometry, hring, hslot, not_true, if_false, b.sub_of_le hle]
  rfl

variable {b : Build} {r : Ring} {m : Mem} {N : Nat}

namespace Ring

/-- The slots of the ring, as its accessors cut them out of the mapping. -/
def slots (r : Ring) (m : Mem) : Cell := ⟨r.ring.base + (r.info m).offsetRing, (r.info m).sizeRing⟩

theorem Checked.producer_eq (h : r.Checked m) {g : Exec (Option (UInt64 × UInt64))} (hg : geometry b (r.info m) N = g) :
    (g = .ok none → r.producer b N m = .ok none) ∧ (∀ e, g = .error e → r.producer b N m = .error e) ∧
      ∀ count offsetMask, g = .ok (some (count, offsetMask)) → ∃ p, r.producer b N m = .ok (some (r.slots m, p)) ∧
        p.offsetMask = offsetMask.toNat ∧ p.count = count.toNat := by
  simp only [Ring.producer, h.borrowMap, Producer.new, bind, Except.bind, hg]
  refine ⟨fun he => ?_, fun e he => ?_, fun count offsetMask he => ?_⟩ <;> subst he
  · rfl
  · rfl
  · exact ⟨_, rfl, rfl, rfl⟩

theorem Checked.consumer_eq (h : r.Checked m) {g : Exec (Option (UInt64 × UInt64))} (hg : geometry b (r.info m) N = g) :
    (g = .ok none → r.consumer b N m = .ok none) ∧ (∀ e, g = .error e → r.consumer b N m = .error e) ∧
      ∀ count offsetMask, g = .ok (some (count, offsetMask)) → ∃ c, r.consumer b N m = .ok (some (r.slots m, c)) ∧
        c.offsetMask = offsetMask.toNat := by
  simp only [Ring.consumer, h.borrowMap, Consumer.new, bind, Except.bind, hg]
  refine ⟨fun he => ?_, fun e he => ?_, fun count offsetMask he => ?_⟩ <;> subst he
  · rfl
  · rfl
  · exact ⟨_, rfl, rfl⟩

end Ring

/-! ### In bounds for every counter -/

/-- The slot indices of a handle with `len` slots of `N` bytes, for every counter. -/
structure InBounds (sizeRing N len offsetMask count : Nat) : Prop where
  lt : ∀ n, n &&& offsetMask < len
  distinct : ∀ n n', n < n' → n' < n + count → n &&& offsetMask ≠ n' &&& offsetMask
  cover : len * N = sizeRing

private theorem inBounds_of_pow {count N : Nat} (hcount : count.isPowerOfTwo) (hN : 0 < N) :
    InBounds (count * N) N (count * N / N) (count - 1) count := by
  have hpos := Nat.pos_of_isPowerOfTwo hcount
  have hmask : ∀ n, n &&& (count - 1) = n % count := by
    obtain ⟨k, rfl⟩ := hcount
    exact fun n => Nat.and_two_pow_sub_one_eq_mod n k
  rw [Nat.mul_div_cancel _ hN]
  refine ⟨fun n => ?_, fun n n' hlt hnear he => ?_, rfl⟩
  · rw [hmask]
    exact Nat.mod_lt _ hpos
  · rw [hmask, hmask] at he
    -- counters of one slot are a multiple of the number of entries apart
    have hdvd : count ∣ n' - n := Nat.dvd_of_mod_eq_zero (Nat.sub_mod_eq_zero_of_mod_eq he.symm)
    have hle := Nat.le_of_dvd (by omega) hdvd
    omega

private theorem Producer.pushLoop_ok {M E σ : Type} {P : Port M E} {offsetMask : Nat}
    (hlen : ∀ n, n &&& offsetMask < P.len) (next : σ → Option E × σ) (k n : Nat) (iter : σ) (m : M) :
    ∃ n', (pushLoop P offsetMask next k n iter m).1 = .ok n' := by
  induction k generalizing n iter m with
  | zero => exact ⟨n, rfl⟩
  | succ k ih =>
    rw [pushLoop]
    split
    · exact ⟨n, rfl⟩
    · simp only [if_pos (hlen n)]
      exact ih ..

/-- A producer with a mask in bounds pushes without a panic, whatever the iterator and its counters are. -/
private theorem Producer.pushMany_ok {M E σ : Type} {P : Port M E} {p : Producer}
    (hlen : ∀ n, n &&& p.offsetMask < P.len) (next : σ → Option E × σ) (iter : σ) (m : M) :
    ∃ res, (p.pushMany P next iter m).1 = .ok res := by
  obtain ⟨n', hn'⟩ := pushLoop_ok hlen next (p.cachedTail - p.cachedHead) p.cachedHead iter m
  simp only [pushMany, hn', Except.map]
  exact ⟨_, rfl⟩

namespace Ring

/-- What the handles for entries of `N` bytes should be: there are some exactly if `N` is the entry size of the ring,
and those that there are stay in bounds in every call. -/
structure Typed (b : Build) (r : Ring) (N : Nat) (m : Mem) : Prop where
  producer : ∃ o, r.producer b N m = .ok o ∧ (o.isSome ↔ N = (r.info m).sizeSlotEntry.toNat)
  consumer : ∃ o, r.consumer b N m = .ok o ∧ (o.isSome ↔ N = (r.info m).sizeSlotEntry.toNat)
  producer_inBounds : ∀ cell p, r.producer b N m = .ok (some (cell, p)) →
    InBounds (r.info m).sizeRing.toNat N (r.port cell N).len p.offsetMask p.count
  consumer_inBounds : ∀ cell c, r.consumer b N m = .ok (some (cell, c)) →
    InBounds (r.info m).sizeRing.toNat N (r.port cell N).len c.offsetMask (c.offsetMask + 1)
  pushMany : ∀ cell p, r.producer b N m = .ok (some (cell, p)) → ∀ p' : Producer, p'.offsetMask = p.offsetMask →
    ∀ (σ : Type) (next : σ → Option (Vector UInt8 N) × σ) iter m',
      ∃ res, (p'.pushMany (r.port cell N) next iter m').1 = .ok res
  iter : ∀ cell c, r.consumer b N m = .ok (some (cell, c)) → ∀ c' : Consumer, c'.offsetMask = c.offsetMask →
    ∀ m', ∃ l, c'.yields (r.port cell N) m' = .ok l

variable {cfg : RingConfig} {start : Nat}

/-- The number of entries, and how the geometry depends on the size of an entry. -/
private theorem geometry_of_placedAt (hv : cfg.Valid) (hp : Server.PlacedAt cfg start (r.info m)) :
    ∃ count : UInt64, count.toNat.isPowerOfTwo ∧ (count - 1).toNat = count.toNat - 1 ∧
      count.toNat * cfg.slotEntrySize.toNat = (r.info m).sizeRing.toNat ∧
      geometry b (r.info m) N = if cfg.dataSize.toNat = N then .ok none
        else if N = 0 then .error .panic else .ok (some (count, count - 1)) := by
  obtain ⟨j, k, hslot, hring⟩ := hv.pow
  have hcount : (cfg.ringSize / cfg.slotEntrySize).toNat.isPowerOfTwo := hv.count_pow
  have hpos := Nat.pos_of_isPowerOfTwo hcount
  refine ⟨cfg.ringSize / cfg.slotEntrySize, hcount, UInt64.toNat_sub_of_le _ _ (UInt64.le_iff_toNat_le.2 hpos), ?_, ?_⟩
  · rw [hp.sizeRing, UInt64.toNat_div, hslot, hring, Nat.pow_add, Nat.mul_div_cancel_left _ (Nat.two_pow_pos j),
      Nat.mul_comm]
  · rw [geometry_eq, hp.sizeData, hp.sizeRing, hp.sizeSlotEntry]
    · rw [hp.sizeRing]
      exact ⟨_, hring⟩
    · rw [hp.sizeSlotEntry]
      exact hv.entry_pow
    · rw [hp.sizeRing, hp.sizeSlotEntry]
      exact hpos

/-- The slots of the ring, cut into its entries. -/
private theorem inBounds_slots {count : UInt64} (hcount : count.toNat.isPowerOfTwo)
    (hmul : count.toNat * N = (r.info m).sizeRing.toNat) (hN : 0 < N) :
    InBounds (r.info m).sizeRing.toNat N (r.port (r.slots m) N).len (count.toNat - 1) count.toNat := by
  have hb := inBounds_of_pow hcount hN
  rw [hmul] at hb
  exact hb

/-- No handle, where there should be none. -/
private theorem Checked.typed_none (h : r.Checked m) (hg : geometry b (r.info m) N = .ok none)
    (hne : N ≠ (r.info m).sizeSlotEntry.toNat) : r.Typed b N m := by
  have hp := (h.producer_eq hg).1 rfl
  have hc := (h.consumer_eq hg).1 rfl
  have hnp : ∀ cell p, r.producer b N m ≠ .ok (some (cell, p)) := by
    rw [hp]
    nofun
  have hnc : ∀ cell c, r.consumer b N m ≠ .ok (some (cell, c)) := by
    rw [hc]
    nofun
  exact ⟨⟨none, hp, nofun, fun he => absurd he hne⟩, ⟨none, hc, nofun, fun he => absurd he hne⟩,
    fun cell p hs => absurd hs (hnp cell p), fun cell c hs => absurd hs (hnc cell c),
    fun cell p hs => absurd hs (hnp cell p), fun cell c hs => absurd hs (hnc cell c)⟩

/-- Handles of the entry size of the ring. -/
private theorem Checked.typed_some (h : r.Checked m) {count : UInt64} (hcount : count.toNat.isPowerOfTwo)
    (hmask : (count - 1).toNat = count.toNat - 1) (hmul : count.toNat * N = (r.info m).sizeRing.toNat) (hN : 0 < N)
    (hg : geometry b (r.info m) N = .ok (some (count, count - 1))) (he : N = (r.info m).sizeSlotEntry.toNat) :
    r.Typed b N m := by
  obtain ⟨p₀, hp, hpm, hpc⟩ := (h.producer_eq hg).2.2 _ _ rfl
  obtain ⟨c₀, hc, hcm⟩ := (h.consumer_eq hg).2.2 _ _ rfl
  have hin := inBounds_slots (r := r) (m := m) hcount hmul hN
  rw [← hmask] at hin
  refine ⟨⟨_, hp, fun _ => he, fun _ => rfl⟩, ⟨_, hc, fun _ => he, fun _ => rfl⟩, fun cell p hs => ?_,
    fun cell c hs => ?_, fun cell p hs p' hp' σ next iter m' => ?_, fun cell c hs c' hc' m' => ?_⟩
  · obtain ⟨rfl, rfl⟩ := Prod.mk.inj (Option.some.inj (Except.ok.inj (hp.symm.trans hs)))
    rw [hpm, hpc]
    exact hin
  · obtain ⟨rfl, rfl⟩ := Prod.mk.inj (Option.some.inj (Except.ok.inj (hc.symm.trans hs)))
    rw [hcm]
    rw [hmask] at hin ⊢
    rw [Nat.sub_add_cancel (Nat.pos_of_isPowerOfTwo hcount)]
    exact hin
  · obtain ⟨rfl, rfl⟩ := Prod.mk.inj (Option.some.inj (Except.ok.inj (hp.symm.trans hs)))
    have hlt : ∀ n, n &&& p'.offsetMask < (r.port (r.slots m) N).len := by
      rw [hp', hpm]
      exact hin.lt
    exact Producer.pushMany_ok hlt next iter m'
  · obtain ⟨rfl, rfl⟩ := Prod.mk.inj (Option.some.inj (Except.ok.inj (hc.symm.trans hs)))
    have hlt : ∀ n, n &&& c'.offsetMask < (r.port (r.slots m) N).len := by
      rw [hc', hcm]
      exact hin.lt
    exact ⟨_, Consumer.yields_eq hlt m'⟩

private theorem Checked.typed_of_guard (h : r.Checked m) (hv : cfg.Valid) (hp : Server.PlacedAt cfg start (r.info m)) :
    r.Typed b N m ↔ (N = cfg.slotEntrySize.toNat ↔ cfg.dataSize.toNat ≠ N) := by
  obtain ⟨count, hcount, hmask, hmul, hg⟩ := geometry_of_placedAt (b := b) (N := N) hv hp
  have hslot := Nat.pos_of_isPowerOfTwo hv.entry_pow
  have hentry : (r.info m).sizeSlotEntry.toNat = cfg.slotEntrySize.toNat := by rw [hp.sizeSlotEntry]
  by_cases hdata : cfg.dataSize.toNat = N
  · rw [if_pos hdata] at hg
    rw [← hentry]
    refine ⟨fun ht => ⟨fun he => ?_, fun hne => absurd hdata hne⟩, fun hiff => ?_⟩
    · obtain ⟨o, ho, hiff⟩ := ht.producer
      have hnone := (h.producer_eq hg).1 rfl
      rw [ho] at hnone
      cases hnone
      exact absurd (hiff.2 he) nofun
    · exact h.typed_none hg fun he => hiff.1 he hdata
  · rw [if_neg hdata] at hg
    refine ⟨fun ht => ⟨fun _ => hdata, fun _ => ?_⟩, fun hiff => ?_⟩
    · obtain ⟨o, ho, hiff⟩ := ht.producer
      by_cases hN : N = 0
      · rw [if_pos hN] at hg
        rw [(h.producer_eq hg).2.1 _ rfl] at ho
        cases ho
      · rw [if_neg hN] at hg
        obtain ⟨p, hp, -, -⟩ := (h.producer_eq hg).2.2 _ _ rfl
        rw [hp] at ho
        cases ho
        rw [← hentry]
        exact hiff.1 rfl
    · have hN : N = cfg.slotEntrySize.toNat := hiff.2 hdata
      rw [if_neg (by omega)] at hg
      rw [← hN] at hmul
      exact h.typed_some hcount hmask hmul (by omega) hg (hN.trans hentry.symm)

end Ring

/-! ### Joined rings -/

namespace World

variable {b' : Build} {ring : Shared} {cfgs : List RingConfig} {srv : Server} {tr : List Act} {w : World} {k : Nat}
  {s : Session}

/-- The handles of a ring that a client has joined are of the right type and in bounds exactly when the guard of the
constructors, which is about the size of the data, happens to be right about `N`. -/
theorem typed_iff (h : (Server.new b ring cfgs m).1 = .ok srv)
    (hrun : Run (World.step b' srv) (init (Server.new b ring cfgs m).2) tr w) (hs : w.sessions k = some s)
    (hc : cfgs[s.index]? = some cfg) :
    s.ring.Typed b' N w.mem ↔ (N = cfg.slotEntrySize.toNat ↔ cfg.dataSize.toNat ≠ N) := by
  have hp := Server.published_of_new h
  have hi := intact_of_run hp hrun
  obtain ⟨cfg', hc', hv, hplaced⟩ := (hi.joined k s hs).placedAt hp hi.records
  obtain rfl : cfg = cfg' := Option.some.inj (hc.symm.trans hc')
  exact (hi.joined k s hs).checked.typed_of_guard hv hplaced

theorem typed_iff_twoRings :
    ∃ (w : World) (s : Session), w.sessions 0 = some s ∧ s.ring.Typed .debug 8 w.mem := by
  obtain ⟨tr, w, s, t, hrun, hs, ht, hi, hi'⟩ := twoRings_run
  exact ⟨w, s, hs, (typed_iff (N := 8) twoRings_new hrun hs (by rw [hi]; rfl)).2 (by decide)⟩

/-- A ring of one entry of eight bytes gives out a producer for entries of sixteen bytes, which has no slot. -/
theorem not_typed :
    ∃ (w : World) (s : Session), w.sessions 0 = some s ∧
      (∃ cell p, s.ring.producer .debug 16 w.mem = .ok (some (cell, p)) ∧
      (s.ring.port cell 16).len = 0) ∧ ¬ s.ring.Typed .debug 16 w.mem := by
  obtain ⟨tr, w, s, t, hrun, hs, ht, hi, hi'⟩ := twoRings_run
  have hp := Server.published_of_new twoRings_new
  have hin := intact_of_run hp hrun
  obtain ⟨cfg, hc, hv, hplaced⟩ := (hin.joined 0 s hs).placedAt hp hin.records
  rw [hi] at hc
  cases hc
  have hchecked := (hin.joined 0 s hs).checked
  have hg : geometry .debug (s.ring.info w.mem) 16 = .ok (some (1, 0)) := by
    simp only [geometry, hplaced.sizeData, hplaced.sizeRing, hplaced.sizeSlotEntry]
    decide
  obtain ⟨p, hprod, -, -⟩ := (hchecked.producer_eq hg).2.2 _ _ rfl
  refine ⟨w, s, hs, ⟨_, p, hprod, ?_⟩, fun ht => ?_⟩
  · rw [Ring.port, Ring.slots, hplaced.sizeRing]
    change (8 : UInt64).toNat / 16 = 0
    decide
  · obtain ⟨o, ho, hiff⟩ := ht.producer
    rw [hprod] at ho
    cases ho
    have he := hiff.1 rfl
    rw [hplaced.sizeSlotEntry] at he
    exact absurd he (by decide)

end World

end ShmRing
