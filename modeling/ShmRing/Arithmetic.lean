import ShmRing.Extent

/-!
# Where the arithmetic of a start leaves its range

`Server::new` subtracts the rounded block of records from what is behind the head without a comparison, and rounds the
size of the data of a ring up to pages without one.  These are the only operations that can leave their range
(`total_iff`); the sizes of the ring and of its entries are powers of two, and every allocation is compared with what
is left.
-/

namespace ShmRing

open Machine Bytes

/-- The sizes of a ring and of its entries are powers of two, so the slots can be rounded. -/
private theorem RingConfig.Valid.rounds {cfg : RingConfig} (h : cfg.Valid) (b : Build) :
    Server.Rounds b cfg.ringSize := by
  intro _
  rw [← h.pageBytes_ring.1]
  exact (pageBytes cfg.ringSize).toNat_lt

namespace Server

variable {b : Build} {ring : Shared} {cfgs : List RingConfig} {m : Mem}

/-! ### One ring -/

private theorem allocate_ne_fault (b : Build) (range : Range) (len : UInt64) (f : Fault) :
    allocate b range len ≠ .error (.inl f) := by
  have hok := fun r => @allocate_eq_ok b range len r
  intro h
  by_cases hfit : range.start.toNat + len.toNat ≤ range.stop.toNat
  · rw [(hok _).2 ⟨hfit, rfl⟩] at h
    cases h
  · unfold allocate checkedSub at h
    split at h
    · cases h
    · rename_i room hroom
      split at h
      · cases h
      · rename_i hlen
        -- the comparison with the room that is left has passed
        obtain ⟨hle, hsub⟩ := Option.ite_none_right_eq_some.1 hroom
        rw [UInt64.lt_iff_toNat_lt, ← Option.some.inj hsub, UInt64.toNat_sub_of_le _ _ hle] at hlen
        rw [UInt64.le_iff_toNat_le] at hle
        omega

private theorem pageRequirement_ne_error (b : Build) (len : UInt64) (f : Fault) : pageRequirement b len ≠ .error f := by
  obtain ⟨p, hp, -⟩ := pageRequirement_eq b len
  rw [hp]
  nofun

/-- The rounding of a length up to pages overflows in a debug build, or not at all. -/
private theorem pages_eq_error {b : Build} {len : UInt64} :
    (∃ p f, pageRequirement b len = .ok p ∧ b.mul p pageSize = .error f) ↔ ¬ Rounds b len := by
  obtain ⟨p, hp, -⟩ := pageRequirement_eq b len
  constructor
  · rintro ⟨p', f, hp', hf⟩ hr
    obtain ⟨p'', hp'', hv⟩ := pages_eq_ok.2 ⟨hr, rfl⟩
    rw [hp', Except.ok.injEq] at hp''
    rw [← hp'', hf] at hv
    cases hv
  · intro hr
    refine ⟨p, ?_⟩
    cases hmul : b.mul p pageSize with
    | error f => exact ⟨f, hp, rfl⟩
    | ok v => exact absurd (pages_eq_ok.1 ⟨p, hp, hmul⟩).1 hr

/-- A ring faults exactly when it is valid, its head and its slots fit, and its data cannot be rounded. -/
private theorem place_eq_fault {info : RingInfo} {cfg : RingConfig} {range : Range} :
    (∃ f, place b info cfg range = .error (.inl f)) ↔
      cfg.Valid ∧ range.start.toNat + 4096 + (pageBytes cfg.ringSize).toNat ≤ range.stop.toNat ∧
        ¬ Rounds b cfg.dataSize := by
  unfold place
  by_cases h₁ : cfg.slotEntrySize.toNat.isPowerOfTwo
  case neg =>
    simp only [h₁, not_false_eq_true, if_true]
    exact ⟨fun ⟨f, h⟩ => (nomatch h), fun h => absurd h.1.entry_pow h₁⟩
  by_cases h₂ : cfg.ringSize % cfg.slotEntrySize = 0
  case neg =>
    simp only [h₁, h₂, not_true, not_false_eq_true, ne_eq, if_true, if_false]
    exact ⟨fun ⟨f, h⟩ => (nomatch h), fun h => absurd h.1.entry_dvd h₂⟩
  by_cases h₃ : (cfg.ringSize / cfg.slotEntrySize).toNat.isPowerOfTwo
  case neg =>
    simp only [h₁, h₂, h₃, not_true, not_false_eq_true, ne_eq, if_true, if_false]
    exact ⟨fun ⟨f, h⟩ => (nomatch h), fun h => absurd h.1.count_pow h₃⟩
  have hvalid : cfg.Valid := ⟨h₁, h₂, h₃⟩
  simp only [h₁, h₂, h₃, not_true, ne_eq, if_false, hvalid, true_and]
  simp only [bind_eq_error, allocate_ne_fault, pageRequirement_ne_error, allocate_eq_ok, liftM_eq_ok, liftM_eq_fault,
    false_or]
  have hpage : pageSize.toNat = 4096 := rfl
  have hstart : range.start.toNat + 4096 ≤ range.stop.toNat →
      (range.start + pageSize).toNat = range.start.toNat + 4096 := by
    intro h
    have hstop := range.stop.toNat_lt
    rw [UInt64.toNat_add, hpage, Nat.mod_eq_of_lt (by omega)]
  constructor
  · rintro ⟨f, _, ⟨hs₁, rfl⟩, p, hp, hf | ⟨v, hv, _, ⟨hs₂, rfl⟩, p', hp', hf | ⟨v', hv', _, -, h⟩⟩⟩
    · exact absurd (hvalid.rounds b) (pages_eq_error.1 ⟨p, f, hp, hf⟩)
    · obtain ⟨-, rfl⟩ := pages_eq_ok.1 ⟨p, hp, hv⟩
      rw [hstart hs₁] at hs₂
      exact ⟨hs₂, pages_eq_error.1 ⟨p', f, hp', hf⟩⟩
    · cases h
  · rintro ⟨hfit, hr⟩
    obtain ⟨p, hp, hv⟩ := pages_eq_ok.2 ⟨hvalid.rounds b, rfl⟩
    obtain ⟨p', f, hp', hf⟩ := pages_eq_error.2 hr
    have hs₁ : range.start.toNat + 4096 ≤ range.stop.toNat := by omega
    exact ⟨f, _, ⟨hs₁, rfl⟩, p, hp, .inr ⟨_, hv, _, ⟨by rw [hstart hs₁]; exact hfit, rfl⟩, p', hp', .inl hf⟩⟩

/-! ### All rings -/

/-- The loop over the rings, of which the first is placed at `start`, reaches one whose data cannot be rounded: it and
those before it are valid, and its head and its slots fit. -/
def Overflows (b : Build) (cfgs : List RingConfig) (start stop : Nat) : Prop :=
  ∃ i cfg, cfgs[i]? = some cfg ∧ (∀ c ∈ cfgs.take (i + 1), c.Valid) ∧
    start + cost (cfgs.take i) + 4096 + (pageBytes cfg.ringSize).toNat ≤ stop ∧ ¬ Rounds b cfg.dataSize

private theorem overflows_cons {cfg : RingConfig} {start stop : Nat} :
    Overflows b (cfg :: cfgs) start stop ↔ cfg.Valid ∧
      ((start + 4096 + (pageBytes cfg.ringSize).toNat ≤ stop ∧ ¬ Rounds b cfg.dataSize) ∨
        Overflows b cfgs (start + cfg.cost) stop) := by
  constructor
  · rintro ⟨i, c, hc, hv, hfit, hr⟩
    have hcfg : cfg.Valid := hv cfg (by simp)
    cases i with
    | zero =>
      cases hc
      exact ⟨hcfg, .inl ⟨hfit, hr⟩⟩
    | succ i =>
      rw [List.take_succ_cons, cost_cons] at hfit
      exact ⟨hcfg, .inr ⟨i, c, hc, fun c hc => hv c (List.mem_cons_of_mem _ hc), by omega, hr⟩⟩
  · rintro ⟨hcfg, ⟨hfit, hr⟩ | ⟨i, c, hc, hv, hfit, hr⟩⟩
    · refine ⟨0, cfg, rfl, fun c hc => ?_, hfit, hr⟩
      obtain rfl : c = cfg := by simpa using hc
      exact hcfg
    · refine ⟨i + 1, c, hc, List.forall_mem_cons.2 ⟨hcfg, hv⟩, ?_, hr⟩
      rw [List.take_succ_cons, cost_cons]
      omega

private theorem placeAll_eq_fault {infos : List RingInfo} {range : Range} (hlen : infos.length = cfgs.length) :
    (∃ f, (placeAll b infos cfgs range).1 = .error (.inl f)) ↔
      Overflows b cfgs range.start.toNat range.stop.toNat := by
  induction infos generalizing cfgs range with
  | nil =>
    obtain rfl := List.length_eq_zero_iff.1 hlen.symm
    constructor
    · rintro ⟨f, h⟩
      cases h
    · rintro ⟨i, c, hc, -⟩
      cases hc
  | cons info infos ih =>
    cases cfgs with
    | nil => cases hlen
    | cons cfg cfgs =>
      have hfault := @place_eq_fault b info cfg range
      have hok := fun r => @place_eq_ok b info cfg range r
      rw [overflows_cons, placeAll]
      cases hp : place b info cfg range with
      | error e =>
        simp only [hp, Except.error.injEq] at hfault ⊢
        rw [hfault]
        refine ⟨fun h => ⟨h.1, .inl h.2⟩, ?_⟩
        rintro ⟨hv, h | ⟨i, c, -, -, hfit, -⟩⟩
        · exact ⟨hv, h⟩
        · -- there would be room for this ring, if its data could be rounded
          have hcost : range.start.toNat + cfg.cost ≤ range.stop.toNat := by omega
          refine ⟨hv, by unfold RingConfig.cost at hcost; omega, fun hr => ?_⟩
          rw [(hok _).2 ⟨hv, ⟨hv.rounds b, hr⟩, hcost, rfl⟩] at hp
          cases hp
      | ok r =>
        obtain ⟨hv, hr, hfit, rfl⟩ := (hok r).1 hp
        have hrest := @ih cfgs ⟨UInt64.ofNat (range.start.toNat + cfg.cost), range.stop⟩ (Nat.succ.inj hlen)
        have hstop := range.stop.toNat_lt
        have hnat : (UInt64.ofNat (range.start.toNat + cfg.cost)).toNat = range.start.toNat + cfg.cost := by
          rw [UInt64.toNat_ofNat', Nat.mod_eq_of_lt (by omega)]
        simp only [hnat] at hrest
        rw [hrest]
        exact ⟨fun h => ⟨hv, .inr h⟩, fun h => h.2.resolve_left fun h => h.2 hr.2⟩

private theorem overflows_add {start stop k : Nat} :
    Overflows b cfgs (start + k) (stop + k) ↔ Overflows b cfgs start stop := by
  have hfit : ∀ c r, start + k + c + 4096 + r ≤ stop + k ↔ start + c + 4096 + r ≤ stop := fun c r => by omega
  simp only [Overflows, hfit]

private theorem length_placeAll (b : Build) (infos : List RingInfo) (cfgs : List RingConfig) (range : Range) :
    (placeAll b infos cfgs range).2.length = infos.length := by
  induction infos generalizing cfgs range with
  | nil => rfl
  | cons info infos ih =>
    cases cfgs with
    | nil => rfl
    | cons cfg cfgs =>
      rw [placeAll]
      split
      · rfl
      · rw [List.length_cons, List.length_cons, ih]

private theorem length_offsets (b : Build) (infos : List RingInfo) (cfgs : List RingConfig) (range : Range) :
    (offsets b infos cfgs range).2.length = infos.length := by
  unfold offsets
  split
  · rfl
  · exact length_placeAll ..

/-! ### The division -/

/-- In a debug build the mapping is divided exactly if the rounded block of records fits behind its head. -/
private theorem divide_eq_ok {n : UInt64} {d : Division} :
    divide b ring n = .ok d ↔
      (b = .debug → ceilPage (RingInfo.size * n.toNat) ≤ ring.tailSize.toNat) ∧
        d = ⟨0, ring.tailAddr, ⟨32 + pageBytes (n * 768), ring.tailSize + (32 + pageBytes (n * 768))⟩⟩ := by
  have hle : (0 : UInt64) ≤ ring.tailSize := UInt64.le_iff_toNat_le.2 (Nat.zero_le _)
  have hsize := ring.size_lt
  have htail := ring.tailSize_eq
  simp only [divide, Shared.tailOffset_eq, alignUp_tailAddr, checkedSub, if_pos hle, UInt64.sub_zero,
    UInt64.add_zero, liftM_ok, ne_eq, not_true, and_false, if_false, bind_eq_ok, liftM_eq_ok,
    Except.ok.injEq, exists_eq_left']
  have h768 : (768 : UInt64).toNat = 768 := rfl
  constructor
  · rintro ⟨_, ho, _, hr, p, hp, v, hv, _, hs, _, ho', _, he, h⟩
    obtain ⟨-, rfl⟩ := Build.add_eq_ok.1 ho
    obtain ⟨hmul, rfl⟩ := Build.mul_eq_ok.1 hr
    obtain ⟨hround, rfl⟩ := pages_eq_ok.1 ⟨p, hp, hv⟩
    obtain ⟨hsub, -⟩ := Build.sub_eq_ok.1 hs
    obtain ⟨-, rfl⟩ := Build.add_eq_ok.1 ho'
    obtain ⟨-, rfl⟩ := Build.add_eq_ok.1 he
    refine ⟨fun hb => ?_, by rw [← Except.ok.inj h, UInt64.add_zero]⟩
    have hmul := hmul hb
    have hround := hround hb
    have hsub := hsub hb
    rw [UInt64.le_iff_toNat_le, pageBytes_toNat, Nat.mod_eq_of_lt hround, UInt64.toNat_mul,
      Nat.mod_eq_of_lt hmul, h768, Nat.mul_comm] at hsub
    exact hsub
  · rintro ⟨hfit, rfl⟩
    have hnat : b = .debug → n.toNat * 768 < 2 ^ 64 ∧ (n * 768).toNat = RingInfo.size * n.toNat := by
      intro hb
      have hfit := hfit hb
      have hle := le_ceilPage (RingInfo.size * n.toNat)
      have hlt : n.toNat * 768 < 2 ^ 64 := by simp only [RingInfo.size] at hle hfit; omega
      rw [UInt64.toNat_mul, h768, Nat.mod_eq_of_lt hlt]
      exact ⟨hlt, Nat.mul_comm _ _⟩
    have hpages : b = .debug →
        ceilPage (n * 768).toNat < 2 ^ 64 ∧ (pageBytes (n * 768)).toNat ≤ ring.tailSize.toNat := by
      intro hb
      have hfit := hfit hb
      rw [pageBytes_toNat, (hnat hb).2, Nat.mod_eq_of_lt (by omega)]
      exact ⟨by omega, hfit⟩
    obtain ⟨p, hp, hv⟩ := pages_eq_ok.2 ⟨fun hb => (hpages hb).1, rfl⟩
    have h32 : (32 : UInt64).toNat = 32 := rfl
    refine ⟨_, Build.add_eq_ok.2 ⟨fun _ => by decide, rfl⟩, _,
      Build.mul_eq_ok.2 ⟨fun hb => by rw [h768]; exact (hnat hb).1, rfl⟩,
      p, hp, _, hv, _, Build.sub_eq_ok.2 ⟨fun hb => UInt64.le_iff_toNat_le.2 (hpages hb).2, rfl⟩, _,
      Build.add_eq_ok.2 ⟨fun hb => ?_, rfl⟩, _, Build.add_eq_ok.2 ⟨fun hb => ?_, rfl⟩, by rw [UInt64.add_zero]; rfl⟩
    all_goals
      have hfit := (hpages hb).2
      rw [UInt64.add_zero] at *
      simp only [UInt64.toNat_add, h32, ShmHead.size] at *
      omega

/-- The distance of the records from the tail is zero, so there is always room for it. -/
private theorem divide_ne_error (b : Build) (ring : Shared) (n : UInt64) (e : ServerError) :
    divide b ring n ≠ .error (.inr e) := by
  have hle : (0 : UInt64) ≤ ring.tailSize := UInt64.le_iff_toNat_le.2 (Nat.zero_le _)
  simp only [divide, Shared.tailOffset_eq, alignUp_tailAddr, checkedSub, if_pos hle, UInt64.sub_zero,
    UInt64.add_zero, liftM_ok, ne_eq, not_true, and_false, if_false, bind_eq_error, liftM_ne_error, false_or]
  rintro (h | ⟨_, -, _, -, _, -, _, -, _, -, _, -, _, -, _, -, h⟩) <;> cases h

/-- Moving the start of the range up to a page does not fault. -/
private theorem alignRange_ne_fault (b : Build) {range : Range} (h : range.start.toNat % 4096 ≠ 0) (f : Fault) :
    alignRange b range ≠ .error (.inl f) := by
  have hmod : (range.start % pageSize).toNat = range.start.toNat % 4096 := UInt64.toNat_mod ..
  have hne : range.start % pageSize ≠ 0 := by
    rw [ne_eq, ← UInt64.toNat_inj, hmod]
    exact h
  have hle : range.start % pageSize ≤ pageSize := by
    rw [UInt64.le_iff_toNat_le, hmod]
    change _ ≤ 4096
    omega
  simp only [alignRange, if_pos hne, b.sub_of_le hle, liftM_ok, bind_eq_error, allocate_ne_fault, Except.ok.injEq,
    exists_eq_left', ne_eq]
  rintro (h | h | ⟨_, -, h⟩) <;> cases h

/-- `offsets` as `new` calls it, when `P` bytes of records are cut off: there is no page left for the rings, or they are
placed from the next page on. -/
private theorem offsets_cases {P : UInt64} (hP : 4096 ∣ P.toNat) (hle : P.toNat ≤ ring.tailSize.toNat)
    (infos : List RingInfo) (cfgs : List RingConfig) :
    (ring.size.toNat < 4096 ∧ ∃ e, offsets b infos cfgs ⟨32 + P, ring.tailSize + (32 + P)⟩ = (.error (.inr e), infos)) ∨
    ∃ range : Range, 4096 ≤ ring.size.toNat ∧ range.start.toNat = 4096 + P.toNat ∧
      range.stop.toNat = ring.size.toNat + P.toNat ∧
      offsets b infos cfgs ⟨32 + P, ring.tailSize + (32 + P)⟩ = placeAll b infos cfgs range := by
  have hsize := ring.size_lt
  have htail := ring.tailSize_eq
  have hstart : (32 + P).toNat = 32 + P.toNat := by
    rw [UInt64.toNat_add]
    change (32 + _) % _ = _
    omega
  have hstop : (ring.tailSize + (32 + P)).toNat = ring.size.toNat + P.toNat := by
    rw [UInt64.toNat_add, hstart, ← htail]
    simp only [ShmHead.size] at *
    omega
  have hmod : (32 + P).toNat % 4096 ≠ 0 := by rw [hstart]; omega
  have hceil : ceilPage (32 + P).toNat = 4096 + P.toNat := by
    rw [hstart]
    unfold ceilPage
    omega
  have halign := fun r => @alignRange_eq_ok b ⟨32 + P, ring.tailSize + (32 + P)⟩ r hmod
  simp only [hceil, hstop] at halign
  unfold offsets
  cases ha : alignRange b ⟨32 + P, ring.tailSize + (32 + P)⟩ with
  | error e =>
    refine .inl ⟨Nat.lt_of_not_le fun hfit => ?_, ?_⟩
    · rw [(halign _).2 ⟨by omega, rfl⟩] at ha
      cases ha
    · rcases e with f | e
      · exact absurd ha (alignRange_ne_fault b hmod f)
      · exact ⟨e, rfl⟩
  | ok r =>
    obtain ⟨hfit, rfl⟩ := (halign r).1 ha
    refine .inr ⟨_, by omega, ?_, hstop, rfl⟩
    rw [UInt64.toNat_ofNat', Nat.mod_eq_of_lt (by omega)]

section Offsets

variable {infos : List RingInfo} {P : UInt64} (hlen : infos.length = cfgs.length) (hP : 4096 ∣ P.toNat)
  (hle : P.toNat ≤ ring.tailSize.toNat)

include hlen hP hle

private theorem offsets_eq_fault :
    (∃ f, (offsets b infos cfgs ⟨32 + P, ring.tailSize + (32 + P)⟩).1 = .error (.inl f)) ↔
      Overflows b cfgs 4096 ring.size.toNat := by
  rcases offsets_cases (b := b) hP hle infos cfgs with ⟨hlt, e, he⟩ | ⟨range, -, hstart, hstop, he⟩
  · rw [he]
    exact ⟨fun ⟨f, hf⟩ => (nomatch hf), fun ⟨i, cfg, _, _, hfit, _⟩ => absurd hfit (by omega)⟩
  · rw [he, placeAll_eq_fault hlen, hstart, hstop, overflows_add]

private theorem offsets_eq_ok :
    (offsets b infos cfgs ⟨32 + P, ring.tailSize + (32 + P)⟩).1 = .ok () ↔
      Placeable b cfgs ∧ 4096 + cost cfgs ≤ ring.size.toNat := by
  rcases offsets_cases (b := b) hP hle infos cfgs with ⟨hlt, e, he⟩ | ⟨range, hge, hstart, hstop, he⟩
  · rw [he]
    exact ⟨nofun, fun ⟨_, hfit⟩ => absurd hfit (by omega)⟩
  · rw [he, placeAll_eq_ok hlen, hstart, hstop]
    refine and_congr_right fun _ => ⟨?_, fun hfit => .inr (by omega)⟩
    rintro (rfl | hfit)
    · exact hge
    · omega

end Offsets

/-! ### The whole start -/

/-- What the arithmetic of a start should be: it ends in a server or in an error of its own, in a debug build too,
where an operation that leaves its range is a fault; the block of records lies in the mapping; and nothing is written
behind it. -/
structure Total (ring : Shared) (cfgs : List RingConfig) (m : Mem) : Prop where
  ends : ∀ b f, (new b ring cfgs m).1 ≠ .error (.inl f)
  records : ∀ b d, divide b ring (UInt64.ofNat cfgs.length) = .ok d →
    (⟨ring.pos d.infoTail, cfgs.length⟩ : Rings).region.Below ring.size.toNat
  frame : ∀ b x, ring.size.toNat ≤ x → (new b ring cfgs m).2 x = m x

/-- The rounded block of records fits behind the head, no ring is reached whose data cannot be rounded, and what is
accepted is the only server. -/
structure InRange (ring : Shared) (cfgs : List RingConfig) : Prop where
  records : ceilPage (RingInfo.size * cfgs.length) ≤ ring.tailSize.toNat
  data : ¬ Overflows .debug cfgs 4096 ring.size.toNat
  alone : Accepted ring.size.toNat cfgs → ring.weakCount = 0

private theorem not_overflows_release (start stop : Nat) : ¬ Overflows .release cfgs start stop :=
  fun ⟨_, _, _, _, _, hr⟩ => hr (rounds_release _)

/-- The block of records is computed without overflow if it lies in the mapping. -/
private theorem records_of_le (h : RingInfo.size * cfgs.length ≤ ring.tailSize.toNat) :
    (UInt64.ofNat cfgs.length).toNat = cfgs.length ∧
      (pageBytes (UInt64.ofNat cfgs.length * 768)).toNat = ceilPage (RingInfo.size * cfgs.length) := by
  have hsize := ring.size_lt
  have htail := ring.tailSize_eq
  have hceil := ceilPage_lt (RingInfo.size * cfgs.length)
  have hlt : RingInfo.size * cfgs.length < 2 ^ 63 := by omega
  have hnat : (UInt64.ofNat cfgs.length).toNat = cfgs.length := by
    simp only [RingInfo.size] at hlt
    rw [UInt64.toNat_ofNat', Nat.mod_eq_of_lt (by omega)]
  have hmul : (UInt64.ofNat cfgs.length * 768).toNat = RingInfo.size * cfgs.length := by
    rw [UInt64.toNat_mul, hnat, Nat.mul_comm]
    exact Nat.mod_eq_of_lt (by change RingInfo.size * _ < _; omega)
  exact ⟨hnat, by rw [pageBytes_toNat, hmul, Nat.mod_eq_of_lt (by omega)]⟩

/-- The outcome of `new` when the block of records fits. -/
private theorem new_of_records (h : ceilPage (RingInfo.size * cfgs.length) ≤ ring.tailSize.toNat) (b : Build)
    (m : Mem) :
    ((∃ f, (new b ring cfgs m).1 = .error (.inl f)) ↔ Overflows b cfgs 4096 ring.size.toNat ∨
      ((Placeable b cfgs ∧ 4096 + cost cfgs ≤ ring.size.toNat) ∧ ring.weakCount ≠ 0)) ∧
    Region.Frame ⟨0, ShmHead.size + RingInfo.size * cfgs.length⟩ m (new b ring cfgs m).2 := by
  obtain ⟨hnat, hP⟩ := records_of_le (Nat.le_trans (le_ceilPage _) h)
  have hlen := Rings.length_read m ⟨ShmHead.size, cfgs.length⟩
  have hd : divide b ring (UInt64.ofNat cfgs.length) = .ok _ := divide_eq_ok.2 ⟨fun _ => by rw [hnat]; exact h, rfl⟩
  have hfault := offsets_eq_fault (b := b) hlen (dvd_pageBytes _) (by rw [hP]; exact h)
  have hok := offsets_eq_ok (b := b) hlen (dvd_pageBytes _) (by rw [hP]; exact h)
  have hlen' := length_offsets b (Rings.read m ⟨ShmHead.size, cfgs.length⟩) cfgs
    ⟨32 + pageBytes (UInt64.ofNat cfgs.length * 768), ring.tailSize + (32 + pageBytes (UInt64.ofNat cfgs.length * 768))⟩
  simp only [new, hd, pos_tailAddr]
  revert hfault hok hlen'
  generalize offsets b (Rings.read m ⟨ShmHead.size, cfgs.length⟩) cfgs _ = r
  obtain ⟨r, infos⟩ := r
  intro hfault hok hlen'
  have hrecords := (Rings.frame_writeFrom m ShmHead.size infos).mono
    (s := ⟨0, ShmHead.size + RingInfo.size * cfgs.length⟩) (by
      rw [hlen', hlen]
      simp only [Region.Within]
      omega)
  cases r with
  | error e =>
    simp only [Except.error.injEq] at hfault ⊢
    refine ⟨⟨fun hf => .inl (hfault.1 hf), ?_⟩, hrecords⟩
    rintro (hf | ⟨hfit, -⟩)
    · exact hfault.2 hf
    · cases hok.2 hfit
  | ok _ =>
    have hno : ¬ Overflows b cfgs 4096 ring.size.toNat := fun hf => by
      obtain ⟨f, hf⟩ := hfault.2 hf
      cases hf
    simp only [Shared.init]
    by_cases hw : ring.weakCount = 0
    · rw [if_pos hw]
      refine ⟨⟨?_, ?_⟩, hrecords.trans ((ShmHead.frame_write _ _).mono ?_)⟩
      · rintro ⟨f, hf⟩
        cases hf
      · rintro (hf | ⟨-, hne⟩)
        · exact absurd hf hno
        · exact absurd hw hne
      · simp only [Region.Within]
        omega
    · rw [if_neg hw]
      exact ⟨⟨fun _ => .inr ⟨hok.1 rfl, hw⟩, fun _ => ⟨_, rfl⟩⟩, hrecords⟩

private theorem Total.records_le (h : Total ring cfgs m) :
    ceilPage (RingInfo.size * cfgs.length) ≤ ring.tailSize.toNat := by
  have htail := ring.tailSize_eq
  cases hd : divide .debug ring (UInt64.ofNat cfgs.length) with
  | error e =>
    rcases e with f | e
    · exact absurd (by rw [new, hd]) (h.ends .debug f)
    · exact absurd hd (divide_ne_error .debug ring _ e)
  | ok d =>
    obtain ⟨hfit, rfl⟩ := divide_eq_ok.1 hd
    have hbelow := Region.below_iff.1 (h.records _ _ hd)
    simp only [Rings.region, pos_tailAddr] at hbelow
    have hle : RingInfo.size * cfgs.length ≤ ring.tailSize.toNat := by omega
    rw [← (records_of_le hle).1]
    exact hfit rfl

private theorem Total.inRange (h : Total ring cfgs m) : InRange ring cfgs := by
  refine ⟨h.records_le, fun ho => ?_, fun hacc => Decidable.byContradiction fun hw => ?_⟩
  · obtain ⟨f, hf⟩ := (new_of_records h.records_le .debug m).1.2 (.inl ho)
    exact h.ends _ _ hf
  · obtain ⟨f, hf⟩ := (new_of_records h.records_le .release m).1.2
      (.inr ⟨⟨(placeable_release cfgs).2 hacc.1, hacc.2⟩, hw⟩)
    exact h.ends _ _ hf

private theorem InRange.total (h : InRange ring cfgs) (m : Mem) : Total ring cfgs m := by
  have htail := ring.tailSize_eq
  have hrecords := h.records
  have hle := le_ceilPage (RingInfo.size * cfgs.length)
  refine ⟨fun b f hf => ?_, fun b d hd => ?_, fun b x hx => ?_⟩
  · rcases (new_of_records hrecords b m).1.1 ⟨f, hf⟩ with ho | ⟨⟨hp, hfit⟩, hw⟩
    · cases b with
      | debug => exact h.data ho
      | release => exact not_overflows_release _ _ ho
    · exact hw (h.alone ⟨fun cfg hc => (hp cfg hc).1, hfit⟩)
  · obtain ⟨-, rfl⟩ := divide_eq_ok.1 hd
    rw [Region.below_iff, pos_tailAddr]
    simp only [Rings.region]
    omega
  · refine (new_of_records hrecords b m).2 x fun hmem => ?_
    have := hmem.2
    simp only at this
    omega

/-- The arithmetic of a start is total exactly for what `InRange` says. -/
theorem total_iff (ring : Shared) (cfgs : List RingConfig) (m : Mem) : Total ring cfgs m ↔ InRange ring cfgs :=
  ⟨Total.inRange, fun h => h.total m⟩

/-- A mapping of one page has no room for a page of records. -/
def onePage : Shared where
  base := 0x30000
  size := 4096
  size_lt := by decide
  end_lt := by decide
  tailAddr := 0x30020
  tailSize := 4064
  weakCount := 0
  aligned := by decide
  tailAddr_eq := by decide
  tailSize_eq := by decide

/-- A ring whose data is as large as a `u64` can say. -/
def endless : RingConfig := ⟨8, 0xffffffffffffffff, 8, -1, -1⟩

/-- Both operations can leave their range: the block of records is subtracted from a tail that is smaller, and the size
of the data is rounded up to `2 ^ 64`. -/
theorem not_total :
    ¬ Total onePage [⟨8, 0, 8, -1, -1⟩] (fun _ => 0) ∧ ¬ Total fourPages [endless] (fun _ => 0) := by
  refine ⟨fun h => absurd h.records_le (by decide),
    fun h => h.inRange.data ⟨0, endless, rfl, ?_, by decide, fun hr => ?_⟩⟩
  · intro c hc
    rw [show c = endless from List.mem_singleton.1 hc]
    decide
  · have hround := hr rfl
    rw [show endless.dataSize.toNat = 0xffffffffffffffff by decide, ceilPage] at hround
    omega

end Server

end ShmRing
