import ShmRing.Server

/-!
# Where the server puts the rings

The result of `Server::new` in closed form.  Every ring takes a page for its head and then its slots and its data,
rounded up to pages modulo `2 ^ 64`; the first ring begins a page after the rounded block of records.
-/

namespace ShmRing

open Machine Bytes

/-- Rounded up to pages. -/
def ceilPage (n : Nat) : Nat := (n + 4095) / 4096 * 4096

theorem le_ceilPage (n : Nat) : n ≤ ceilPage n := by unfold ceilPage; omega

theorem ceilPage_lt (n : Nat) : ceilPage n < n + 4096 := by unfold ceilPage; omega

theorem dvd_ceilPage (n : Nat) : 4096 ∣ ceilPage n := Nat.dvd_mul_left ..

/-- What `allocate` is asked for to hold so many bytes. -/
def pageBytes (len : UInt64) : UInt64 := UInt64.ofNat (ceilPage len.toNat)

theorem pageBytes_toNat (len : UInt64) : (pageBytes len).toNat = ceilPage len.toNat % 2 ^ 64 :=
  UInt64.toNat_ofNat'

/-- The rounding wraps to zero just at the top of the range. -/
theorem pageBytes_cases (len : UInt64) :
    (pageBytes len).toNat = ceilPage len.toNat ∨
      (2 ^ 64 - 4096 < len.toNat ∧ (pageBytes len).toNat = 0) := by
  have hlt := len.toNat_lt
  rw [pageBytes_toNat]
  unfold ceilPage
  omega

theorem dvd_pageBytes (len : UInt64) : 4096 ∣ (pageBytes len).toNat := by
  rcases pageBytes_cases len with h | ⟨-, h⟩
  · rw [h]; exact dvd_ceilPage _
  · rw [h]; exact Nat.dvd_zero _

namespace Server

theorem pageRequirement_eq (b : Build) (len : UInt64) :
    ∃ p, pageRequirement b len = .ok p ∧ p.toNat = (len.toNat + 4095) / 4096 := by
  have hlt := len.toNat_lt
  have hdiv : (len / pageSize).toNat = len.toNat / 4096 := UInt64.toNat_div ..
  have hmod : len % pageSize = 0 ↔ len.toNat % 4096 = 0 := by
    rw [← UInt64.toNat_inj, UInt64.toNat_mod]; rfl
  simp only [pageRequirement, hmod]
  split
  · refine ⟨_, b.add_of_lt ?_, ?_⟩
    · rw [hdiv]; change 0 + _ < _; omega
    · rw [UInt64.toNat_add, hdiv]; change (0 + _) % _ = _; omega
  · refine ⟨_, b.add_of_lt ?_, ?_⟩
    · rw [hdiv]; change 1 + _ < _; omega
    · rw [UInt64.toNat_add, hdiv]; change (1 + _) % _ = _; omega

private theorem mul_pageSize {p len : UInt64} (h : p.toNat = (len.toNat + 4095) / 4096) :
    p * pageSize = pageBytes len := by
  rw [← UInt64.toNat_inj, UInt64.toNat_mul, pageBytes_toNat, h]
  rfl

/-- In a debug build, rounding a length up to pages must not overflow. -/
def Rounds (b : Build) (len : UInt64) : Prop := b = .debug → ceilPage len.toNat < 2 ^ 64

@[simp] theorem rounds_release (len : UInt64) : Rounds .release len := fun h => nomatch h

/-- The two steps that round a length up to pages. -/
theorem pages_eq_ok {b : Build} {len v : UInt64} :
    (∃ p, pageRequirement b len = .ok p ∧ b.mul p pageSize = .ok v) ↔ Rounds b len ∧ v = pageBytes len := by
  obtain ⟨p, hp, hnat⟩ := pageRequirement_eq b len
  have hround : p.toNat * pageSize.toNat < 2 ^ 64 ↔ ceilPage len.toNat < 2 ^ 64 := by rw [hnat]; rfl
  rw [← mul_pageSize hnat, Rounds, ← hround, ← Build.mul_eq_ok]
  constructor
  · rintro ⟨p', hp', hv⟩
    rw [hp] at hp'
    cases hp'
    exact hv
  · exact fun hv => ⟨p, hp, hv⟩

theorem allocate_eq_ok {b : Build} {range : Range} {len : UInt64} {r : UInt64 × Range} :
    allocate b range len = .ok r ↔
      range.start.toNat + len.toNat ≤ range.stop.toNat ∧ r = (range.start, ⟨range.start + len, range.stop⟩) := by
  unfold allocate checkedSub
  have hstop := range.stop.toNat_lt
  by_cases h : range.start ≤ range.stop
  · have hsub : (range.stop - range.start).toNat = range.stop.toNat - range.start.toNat :=
      UInt64.toNat_sub_of_le _ _ h
    rw [UInt64.le_iff_toNat_le] at h
    simp only [UInt64.le_iff_toNat_le, if_pos h, UInt64.lt_iff_toNat_lt, hsub]
    by_cases hroom : range.stop.toNat - range.start.toNat < len.toNat
    · rw [if_pos hroom]
      exact ⟨fun h => (by cases h), fun h => by omega⟩
    · rw [if_neg hroom, b.add_of_lt (by omega)]
      constructor
      · intro h; cases h; exact ⟨by omega, rfl⟩
      · rintro ⟨-, rfl⟩; rfl
  · rw [if_neg h]
    rw [UInt64.le_iff_toNat_le] at h
    exact ⟨fun h => (by cases h), fun h => by omega⟩

end Server

/-! ### One ring -/

namespace RingConfig

/-- What `offsets` asks of a configuration. -/
structure Valid (cfg : RingConfig) : Prop where
  entry_pow : cfg.slotEntrySize.toNat.isPowerOfTwo
  entry_dvd : cfg.ringSize % cfg.slotEntrySize = 0
  count_pow : (cfg.ringSize / cfg.slotEntrySize).toNat.isPowerOfTwo

instance (cfg : RingConfig) : Decidable cfg.Valid :=
  decidable_of_iff (cfg.slotEntrySize.toNat.isPowerOfTwo ∧ cfg.ringSize % cfg.slotEntrySize = 0 ∧
    (cfg.ringSize / cfg.slotEntrySize).toNat.isPowerOfTwo) ⟨fun h => ⟨h.1, h.2.1, h.2.2⟩, fun h => ⟨h.1, h.2, h.3⟩⟩

/-- How far the next ring is placed behind this one. -/
def cost (cfg : RingConfig) : Nat := 4096 + (pageBytes cfg.ringSize).toNat + (pageBytes cfg.dataSize).toNat

private theorem dvd_cost (cfg : RingConfig) : 4096 ∣ cfg.cost :=
  Nat.dvd_add (Nat.dvd_add (Nat.dvd_refl _) (dvd_pageBytes _)) (dvd_pageBytes _)

/-- The record of a ring that is placed at `start`. -/
def record (cfg : RingConfig) (info : RingInfo) (start : Nat) : RingInfo where
  version := 1
  offsetHead := UInt64.ofNat start
  offsetRing := UInt64.ofNat (start + 4096)
  offsetData := UInt64.ofNat (start + 4096 + (pageBytes cfg.ringSize).toNat)
  sizeHead := 4096
  sizeRing := cfg.ringSize
  sizeData := cfg.dataSize
  sizeSlotEntry := cfg.slotEntrySize
  lhs := if cfg.lhs < 0 then cfg.lhs.toUInt32 else info.lhs
  rhs := if cfg.rhs < 0 then cfg.rhs.toUInt32 else info.rhs

end RingConfig

namespace Server

private theorem advertised (id : Int32) (old : UInt32) :
    (RingIdentifier.new (if id < 0 then id else 0)).elim old ClientSlot.forAdvertisement =
      if id < 0 then id.toUInt32 else old := by
  by_cases h : id < 0
  · simp [h, RingIdentifier.new, ClientSlot.forAdvertisement]
  · rw [if_neg h, if_neg h]; rfl

/-- The three allocations of a ring, as one. -/
private theorem allocations_iff {start stop x y : UInt64} :
    (start.toNat + pageSize.toNat ≤ stop.toNat ∧ (start + pageSize).toNat + x.toNat ≤ stop.toNat ∧
        (start + pageSize + x).toNat + y.toNat ≤ stop.toNat) ↔
      start.toNat + (4096 + x.toNat + y.toNat) ≤ stop.toNat := by
  have hstop := stop.toNat_lt
  have hpage : pageSize.toNat = 4096 := rfl
  simp only [UInt64.toNat_add, hpage]
  omega

private theorem ofNat_add_toNat (n : Nat) (x : UInt64) : UInt64.ofNat n + x = UInt64.ofNat (n + x.toNat) := by
  rw [UInt64.ofNat_add, UInt64.ofNat_toNat]

private theorem add_pageSize (start : UInt64) : start + pageSize = UInt64.ofNat (start.toNat + 4096) := by
  rw [UInt64.ofNat_add, UInt64.ofNat_toNat]
  rfl

theorem place_eq_ok {b : Build} {info : RingInfo} {cfg : RingConfig} {range : Range} {r : RingInfo × Range} :
    place b info cfg range = .ok r ↔
      cfg.Valid ∧ (Rounds b cfg.ringSize ∧ Rounds b cfg.dataSize) ∧
        range.start.toNat + cfg.cost ≤ range.stop.toNat ∧
        r = (cfg.record info range.start.toNat, ⟨UInt64.ofNat (range.start.toNat + cfg.cost), range.stop⟩) := by
  unfold place
  by_cases h₁ : cfg.slotEntrySize.toNat.isPowerOfTwo
  case neg =>
    simp only [h₁, not_false_eq_true, if_true]
    exact ⟨fun h => (by cases h), fun h => absurd h.1.entry_pow h₁⟩
  by_cases h₂ : cfg.ringSize % cfg.slotEntrySize = 0
  case neg =>
    simp only [h₁, h₂, not_true, not_false_eq_true, ne_eq, if_true, if_false]
    exact ⟨fun h => (by cases h), fun h => absurd h.1.entry_dvd h₂⟩
  by_cases h₃ : (cfg.ringSize / cfg.slotEntrySize).toNat.isPowerOfTwo
  case neg =>
    simp only [h₁, h₂, h₃, not_true, not_false_eq_true, ne_eq, if_true, if_false]
    exact ⟨fun h => (by cases h), fun h => absurd h.1.count_pow h₃⟩
  have hvalid : cfg.Valid := ⟨h₁, h₂, h₃⟩
  simp only [h₁, h₂, h₃, not_true, ne_eq, if_false, hvalid, true_and]
  -- what is left are the three allocations
  simp only [bind_eq_ok, allocate_eq_ok, liftM_eq_ok]
  constructor
  · rintro ⟨_, ⟨hs₁, rfl⟩, p, hp, v, hv, _, ⟨hs₂, rfl⟩, p', hp', v', hv', _, ⟨hs₃, rfl⟩, h⟩
    obtain ⟨hr, rfl⟩ := pages_eq_ok.1 ⟨p, hp, hv⟩
    obtain ⟨hr', rfl⟩ := pages_eq_ok.1 ⟨p', hp', hv'⟩
    cases h
    refine ⟨⟨hr, hr'⟩, allocations_iff.1 ⟨hs₁, hs₂, hs₃⟩, ?_⟩
    simp only [advertised, add_pageSize, ofNat_add_toNat, RingConfig.record, RingConfig.cost,
      UInt64.ofNat_toNat, ← Nat.add_assoc]
    rfl
  · rintro ⟨⟨hr, hr'⟩, hs, rfl⟩
    obtain ⟨hs₁, hs₂, hs₃⟩ := allocations_iff.2 hs
    obtain ⟨p, hp, hv⟩ := pages_eq_ok.2 ⟨hr, rfl⟩
    obtain ⟨p', hp', hv'⟩ := pages_eq_ok.2 ⟨hr', rfl⟩
    refine ⟨_, ⟨hs₁, rfl⟩, p, hp, _, hv, _, ⟨hs₂, rfl⟩, p', hp', _, hv', _, ⟨hs₃, rfl⟩, ?_⟩
    simp only [advertised, add_pageSize, ofNat_add_toNat, RingConfig.record, RingConfig.cost,
      UInt64.ofNat_toNat, ← Nat.add_assoc]
    rfl

/-! ### All rings -/

/-- How far the rings reach behind the start of the first. -/
def cost (cfgs : List RingConfig) : Nat := (cfgs.map RingConfig.cost).sum

/-- The records of rings of which the first is placed at `start`. -/
def records : List RingInfo → List RingConfig → Nat → List RingInfo
  | info :: infos, cfg :: cfgs, start => cfg.record info start :: records infos cfgs (start + cfg.cost)
  | infos, _, _ => infos

/-- Every configuration is valid and its lengths can be rounded. -/
def Placeable (b : Build) (cfgs : List RingConfig) : Prop :=
  ∀ cfg ∈ cfgs, cfg.Valid ∧ Rounds b cfg.ringSize ∧ Rounds b cfg.dataSize

@[simp] theorem cost_nil : cost [] = 0 := rfl
@[simp] theorem cost_cons (cfg : RingConfig) (cfgs : List RingConfig) :
    cost (cfg :: cfgs) = cfg.cost + cost cfgs := List.sum_cons

theorem dvd_cost (cfgs : List RingConfig) : 4096 ∣ cost cfgs := by
  induction cfgs with
  | nil => exact Nat.dvd_zero _
  | cons cfg cfgs ih => rw [cost_cons]; exact Nat.dvd_add cfg.dvd_cost ih

/-- Every ring takes at least a page. -/
theorem length_le_cost (cfgs : List RingConfig) : 4096 * cfgs.length ≤ cost cfgs := by
  induction cfgs with
  | nil => exact Nat.le_refl _
  | cons cfg cfgs ih => rw [cost_cons, List.length_cons]; unfold RingConfig.cost; omega

theorem length_records (infos : List RingInfo) (cfgs : List RingConfig) (start : Nat) :
    (records infos cfgs start).length = infos.length := by
  induction infos generalizing cfgs start with
  | nil => rfl
  | cons info infos ih =>
    cases cfgs with
    | nil => rfl
    | cons cfg cfgs => rw [records, List.length_cons, List.length_cons, ih]

/-- The record of a ring is placed behind the rings before it. -/
theorem getElem?_records {infos : List RingInfo} {cfgs : List RingConfig} (start : Nat) {i : Nat} {info : RingInfo}
    {cfg : RingConfig} (hi : infos[i]? = some info) (hc : cfgs[i]? = some cfg) :
    (records infos cfgs start)[i]? = some (cfg.record info (start + cost (cfgs.take i))) := by
  induction infos generalizing cfgs start i with
  | nil => cases hi
  | cons x infos ih =>
    cases cfgs with
    | nil => cases hc
    | cons y cfgs =>
      cases i with
      | zero => cases hi; cases hc; rfl
      | succ i =>
        rw [records, List.getElem?_cons_succ, ih _ hi hc, List.take_succ_cons, cost_cons, Nat.add_assoc]

private theorem start_toNat {start stop : UInt64} {n : Nat} (h : start.toNat + n ≤ stop.toNat) :
    (UInt64.ofNat (start.toNat + n)).toNat = start.toNat + n := by
  have := stop.toNat_lt
  rw [UInt64.toNat_ofNat', Nat.mod_eq_of_lt (by omega)]

theorem placeAll_eq_ok {b : Build} {infos : List RingInfo} {cfgs : List RingConfig} {range : Range}
    (hlen : infos.length = cfgs.length) :
    (placeAll b infos cfgs range).1 = .ok () ↔
      Placeable b cfgs ∧ (cfgs = [] ∨ range.start.toNat + cost cfgs ≤ range.stop.toNat) := by
  induction infos generalizing cfgs range with
  | nil =>
    obtain rfl := List.length_eq_zero_iff.1 hlen.symm
    exact ⟨fun _ => ⟨fun _ h => (by cases h), .inl rfl⟩, fun _ => rfl⟩
  | cons info infos ih =>
    cases cfgs with
    | nil => cases hlen
    | cons cfg cfgs =>
      simp only [Placeable, List.forall_mem_cons, cost_cons, placeAll]
      cases hp : place b info cfg range with
      | error e =>
        refine ⟨fun h => (by cases h), fun ⟨⟨⟨hv, hr⟩, _⟩, hfit⟩ => ?_⟩
        have hfit := hfit.resolve_left (List.cons_ne_nil _ _)
        rw [place_eq_ok.2 ⟨hv, hr, by omega, rfl⟩] at hp
        cases hp
      | ok r =>
        obtain ⟨hv, hr, hfit, rfl⟩ := place_eq_ok.1 hp
        have hrest := @ih cfgs ⟨UInt64.ofNat (range.start.toNat + cfg.cost), range.stop⟩ (Nat.succ.inj hlen)
        simp only [start_toNat hfit] at hrest
        rw [hrest]
        constructor
        · rintro ⟨h, rfl | h'⟩
          · exact ⟨⟨⟨hv, hr⟩, h⟩, .inr (by rw [cost_nil]; omega)⟩
          · exact ⟨⟨⟨hv, hr⟩, h⟩, .inr (by omega)⟩
        · rintro ⟨⟨-, h⟩, h'⟩
          have h' := h'.resolve_left (List.cons_ne_nil _ _)
          exact ⟨h, .inr (by omega)⟩

private theorem placeAll_snd {b : Build} {infos : List RingInfo} {cfgs : List RingConfig} {range : Range}
    (h : (placeAll b infos cfgs range).1 = .ok ()) :
    (placeAll b infos cfgs range).2 = records infos cfgs range.start.toNat := by
  induction infos generalizing cfgs range with
  | nil => rfl
  | cons info infos ih =>
    cases cfgs with
    | nil => rfl
    | cons cfg cfgs =>
      rw [placeAll] at h ⊢
      cases hp : place b info cfg range with
      | error e => rw [hp] at h; cases h
      | ok r =>
        obtain ⟨-, -, hfit, rfl⟩ := place_eq_ok.1 hp
        rw [hp] at h
        have hrest := @ih cfgs ⟨UInt64.ofNat (range.start.toNat + cfg.cost), range.stop⟩ h
        simp only [start_toNat hfit] at hrest
        simp only [hrest, records]

theorem alignRange_eq_ok {b : Build} {range r : Range} (h : range.start.toNat % 4096 ≠ 0) :
    alignRange b range = .ok r ↔
      ceilPage range.start.toNat ≤ range.stop.toNat ∧ r = ⟨UInt64.ofNat (ceilPage range.start.toNat), range.stop⟩ := by
  have hmod : (range.start % pageSize).toNat = range.start.toNat % 4096 := UInt64.toNat_mod ..
  have hne : range.start % pageSize ≠ 0 := by
    rw [ne_eq, ← UInt64.toNat_inj, hmod]; exact h
  have hle : range.start % pageSize ≤ pageSize := by
    rw [UInt64.le_iff_toNat_le, hmod]; change _ ≤ 4096; omega
  have hsub : (pageSize - range.start % pageSize).toNat = 4096 - range.start.toNat % 4096 := by
    rw [UInt64.toNat_sub_of_le _ _ hle, hmod]; rfl
  have hceil : ceilPage range.start.toNat = range.start.toNat + (pageSize - range.start % pageSize).toNat := by
    rw [hsub]; unfold ceilPage; omega
  have hsum : UInt64.ofNat (ceilPage range.start.toNat) = range.start + (pageSize - range.start % pageSize) := by
    rw [hceil, UInt64.ofNat_add, UInt64.ofNat_toNat, UInt64.ofNat_toNat]
  simp only [alignRange, if_pos hne, b.sub_of_le hle, liftM_ok, bind_eq_ok, allocate_eq_ok, Except.ok.injEq,
    exists_eq_left']
  rw [hsum, hceil]
  constructor
  · rintro ⟨_, ⟨hfit, rfl⟩, h⟩; exact ⟨hfit, (Except.ok.inj h).symm⟩
  · rintro ⟨hfit, rfl⟩; exact ⟨_, ⟨hfit, rfl⟩, rfl⟩

/-- The records of an accepted configuration are as the configuration asks. -/
theorem mem_offsets {b : Build} {infos : List RingInfo} {cfgs : List RingConfig} {range : Range}
    (hlen : infos.length = cfgs.length) (h : (offsets b infos cfgs range).1 = .ok ()) {info : RingInfo}
    (hinfo : info ∈ (offsets b infos cfgs range).2) :
    ∃ cfg : RingConfig, cfg.Valid ∧ info.sizeRing = cfg.ringSize ∧ info.sizeSlotEntry = cfg.slotEntrySize ∧
      info.sizeData = cfg.dataSize := by
  unfold offsets at h hinfo
  split at h
  · cases h
  · rename_i range' hr
    rw [hr] at hinfo
    simp only at h hinfo
    rw [placeAll_snd h] at hinfo
    obtain ⟨i, hi, rfl⟩ := List.getElem_of_mem hinfo
    rw [length_records] at hi
    have hc := List.getElem?_eq_getElem (hlen ▸ hi : i < cfgs.length)
    obtain ⟨hi', he⟩ := List.getElem?_eq_some_iff.1
      (getElem?_records range'.start.toNat (List.getElem?_eq_getElem hi) hc)
    refine ⟨_, (((placeAll_eq_ok hlen).1 h).1 _ (List.getElem_mem (hlen ▸ hi))).1, ?_⟩
    rw [he]
    exact ⟨rfl, rfl, rfl⟩

/-! ### The division of the mapping -/

theorem alignUp_tailAddr (ring : Shared) : alignUp ring.tailAddr 8 = 0 := by
  have h := ring.aligned
  rw [alignUp_eq_zero ⟨3, rfl⟩, ring.tailAddr_eq]
  change 8 ∣ _ + 32
  omega

private theorem divide_release (ring : Shared) (n : UInt64) :
    divide .release ring n = .ok
      { ringOffset := 0
        infoTail := ring.tailAddr
        range := ⟨32 + pageBytes (n * 768), ring.tailSize + (32 + pageBytes (n * 768))⟩ } := by
  obtain ⟨p, hp, hv⟩ := pages_eq_ok.2 ⟨rounds_release (n * 768), rfl⟩
  have hle : (0 : UInt64) ≤ ring.tailSize := UInt64.le_iff_toNat_le.2 (Nat.zero_le _)
  simp only [divide, Shared.tailOffset_eq, alignUp_tailAddr, checkedSub, if_pos hle, Build.add_release,
    Build.mul_release, Build.sub_release, UInt64.sub_zero, UInt64.add_zero, liftM_ok, bind, Except.bind, hp]
  simp only [Build.mul_release] at hv
  rw [if_neg (by simp), Except.ok.inj hv]
  rfl

/-- The records as `new` leaves them, the first ring behind the rounded block of records. -/
def layout (cfgs : List RingConfig) (m : Mem) : List RingInfo :=
  records (Rings.read m ⟨ShmHead.size, cfgs.length⟩) cfgs (4096 + ceilPage (RingInfo.size * cfgs.length))

/-- What a release build accepts: valid configurations whose rounded sizes, modulo `2 ^ 64`, fit in the mapping
when the block of records is not counted. -/
def Accepted (size : Nat) (cfgs : List RingConfig) : Prop :=
  (∀ cfg ∈ cfgs, cfg.Valid) ∧ 4096 + cost cfgs ≤ size

instance (size : Nat) (cfgs : List RingConfig) : Decidable (Accepted size cfgs) := inferInstanceAs (Decidable (_ ∧ _))

theorem placeable_release (cfgs : List RingConfig) : Placeable .release cfgs ↔ ∀ cfg ∈ cfgs, cfg.Valid := by
  simp [Placeable]

/-- What is accepted has few enough rings that the block of records is computed without overflow. -/
theorem Accepted.info_eq {ring : Shared} {cfgs : List RingConfig} (h : Accepted ring.size.toNat cfgs) :
    cfgs.length < 2 ^ 51 ∧
      (pageBytes (UInt64.ofNat cfgs.length * 768)).toNat = ceilPage (RingInfo.size * cfgs.length) := by
  have hlen := length_le_cost cfgs
  have hfit := h.2
  have hsize := ring.size_lt
  have hlt : cfgs.length < 2 ^ 51 := by omega
  refine ⟨hlt, ?_⟩
  have hmul : (UInt64.ofNat cfgs.length * 768).toNat = RingInfo.size * cfgs.length := by
    rw [UInt64.toNat_mul, UInt64.toNat_ofNat']
    change cfgs.length % 2 ^ 64 * 768 % 2 ^ 64 = 768 * cfgs.length
    omega
  rw [pageBytes_toNat, hmul, Nat.mod_eq_of_lt]
  unfold ceilPage RingInfo.size
  omega

private theorem offsets_release (ring : Shared) (cfgs : List RingConfig) (infos : List RingInfo)
    (hlen : infos.length = cfgs.length) (P : UInt64) (hP : 4096 ∣ P.toNat) :
    let r := offsets .release infos cfgs ⟨32 + P, ring.tailSize + (32 + P)⟩
    (r.1 = .ok () ↔
      (∀ cfg ∈ cfgs, cfg.Valid) ∧ 4096 + cost cfgs ≤ ring.size.toNat ∧ ring.size.toNat + P.toNat < 2 ^ 64) ∧
    (r.1 = .ok () → r.2 = records infos cfgs (4096 + P.toNat)) := by
  intro r
  have hsize := ring.size_lt
  have htail := ring.tailSize_eq
  have hPlt := P.toNat_lt
  have hstart : (32 + P).toNat = 32 + P.toNat := by
    rw [UInt64.toNat_add]; change (32 + _) % _ = _; omega
  have hceil : ceilPage (32 + P).toNat = 4096 + P.toNat := by
    rw [hstart]; unfold ceilPage; omega
  have hstop : (ring.tailSize + (32 + P)).toNat = (ring.size.toNat + P.toNat) % 2 ^ 64 := by
    rw [UInt64.toNat_add, hstart, ← htail]; congr 1; simp only [ShmHead.size]; omega
  have halign := fun r => @alignRange_eq_ok .release ⟨32 + P, ring.tailSize + (32 + P)⟩ r (by rw [hstart]; omega)
  simp only [hceil, hstop] at halign
  simp only [r, offsets]
  cases ha : alignRange .release ⟨32 + P, ring.tailSize + (32 + P)⟩ with
  | error e =>
    refine ⟨⟨fun h => (by cases h), fun h => ?_⟩, fun h => (by cases h)⟩
    obtain ⟨-, hfit, hwrap⟩ := h
    rw [(halign _).2 ⟨by omega, rfl⟩] at ha
    cases ha
  | ok r =>
    obtain ⟨hle, rfl⟩ := (halign r).1 ha
    have hnat : (UInt64.ofNat (4096 + P.toNat)).toNat = 4096 + P.toNat := by
      rw [UInt64.toNat_ofNat', Nat.mod_eq_of_lt (by omega)]
    refine ⟨?_, fun h => by simpa only [hnat] using placeAll_snd h⟩
    simp only [placeAll_eq_ok hlen, placeable_release, hnat, hstop]
    refine and_congr_right fun _ => ?_
    constructor
    · rintro (rfl | hfit)
      · rw [cost_nil]; omega
      · omega
    · exact fun _ => .inr (by omega)

/-- `offsets` as `new` calls it. -/
private theorem offsets_accepted (ring : Shared) (cfgs : List RingConfig) (m : Mem) :
    let P := pageBytes (UInt64.ofNat cfgs.length * 768)
    let r := offsets .release (Rings.read m ⟨ShmHead.size, cfgs.length⟩) cfgs ⟨32 + P, ring.tailSize + (32 + P)⟩
    (r.1 = .ok () ↔ Accepted ring.size.toNat cfgs) ∧ (r.1 = .ok () → r.2 = layout cfgs m) := by
  intro P r
  obtain ⟨hiff, hsnd⟩ := offsets_release ring cfgs (Rings.read m ⟨ShmHead.size, cfgs.length⟩)
    (Rings.length_read ..) P (dvd_pageBytes _)
  have hok : r.1 = .ok () ↔ Accepted ring.size.toNat cfgs := by
    rw [hiff]
    refine ⟨fun h => ⟨h.1, h.2.1⟩, fun h => ⟨h.1, h.2, ?_⟩⟩
    obtain ⟨hlt, hP⟩ := Accepted.info_eq h
    have hsize := ring.size_lt
    rw [hP]
    unfold ceilPage RingInfo.size
    omega
  refine ⟨hok, fun h => ?_⟩
  rw [hsnd h, (Accepted.info_eq (hok.1 h)).2]
  rfl

theorem pos_tailAddr (ring : Shared) : ring.pos ring.tailAddr = ShmHead.size := by
  rw [Shared.pos, ring.tailAddr_eq, Nat.add_sub_cancel_left]

/-- The server that a release build makes, and when it makes one. -/
theorem new_release {ring : Shared} {cfgs : List RingConfig} {m : Mem} {srv : Server} :
    (new .release ring cfgs m).1 = .ok srv ↔
      ring.weakCount = 0 ∧ Accepted ring.size.toNat cfgs ∧ srv = ⟨ring, ⟨ShmHead.size, cfgs.length⟩⟩ := by
  obtain ⟨hok, -⟩ := offsets_accepted ring cfgs m
  simp only [new, divide_release, pos_tailAddr]
  rw [← hok]
  split
  · rename_i e he
    rw [he]
    exact ⟨fun h => (by cases h), fun h => (by cases h.2.1)⟩
  · rename_i he
    rw [he]
    by_cases hw : ring.weakCount = 0
    · simp only [Shared.init, if_pos hw]
      exact ⟨fun h => ⟨hw, trivial, (Except.ok.inj h).symm⟩, fun h => by rw [h.2.2]⟩
    · simp only [Shared.init, if_neg hw]
      exact ⟨fun h => (by cases h), fun h => absurd h.1 hw⟩

/-- The memory that it leaves. -/
theorem new_release_mem {ring : Shared} {cfgs : List RingConfig} {m : Mem} {srv : Server}
    (h : (new .release ring cfgs m).1 = .ok srv) :
    (new .release ring cfgs m).2 = ShmHead.write (Rings.writeFrom m ShmHead.size (layout cfgs m))
      ⟨ShmHead.magic, UInt64.ofNat cfgs.length, 0, 0⟩ := by
  obtain ⟨hok, hsnd⟩ := offsets_accepted ring cfgs m
  obtain ⟨hw, hacc, -⟩ := new_release.1 h
  have he := hok.2 hacc
  simp only [new, divide_release, pos_tailAddr, he, hsnd he, Shared.init, if_pos hw]

/-- The records that are read from the memory it leaves. -/
theorem new_release_read {ring : Shared} {cfgs : List RingConfig} {m : Mem} {srv : Server}
    (h : (new .release ring cfgs m).1 = .ok srv) :
    srv.rings.read (new .release ring cfgs m).2 = layout cfgs m := by
  have hlen : (layout cfgs m).length = cfgs.length := by
    rw [layout, length_records, Rings.length_read]
  obtain ⟨-, -, rfl⟩ := new_release.1 h
  rw [new_release_mem h]
  refine List.ext_getElem? fun i => ?_
  rcases Nat.lt_or_ge i cfgs.length with hi | hi
  · rw [Rings.getElem?_read hi, Rings.recordAt,
      RingInfo.read_frame (ShmHead.frame_write _ _) (.inr (by simp only [ShmHead.size]; omega)),
      Rings.read_writeFrom _ _ _ _ (by rw [hlen]; exact hi), ← List.getElem?_eq_getElem]
  · rw [List.getElem?_eq_none (by rw [Rings.length_read]; exact hi), List.getElem?_eq_none (by rw [hlen]; exact hi)]

/-! ### Debug builds -/

private theorem divide_of_ok {b : Build} {ring : Shared} {n : UInt64} {d : Division} (h : divide b ring n = .ok d) :
    divide .release ring n = .ok d := by
  have hle : (0 : UInt64) ≤ ring.tailSize := UInt64.le_iff_toNat_le.2 (Nat.zero_le _)
  rw [divide_release]
  simp only [divide, Shared.tailOffset_eq, alignUp_tailAddr, checkedSub, if_pos hle, UInt64.sub_zero,
    UInt64.add_zero, liftM_ok, ne_eq, not_true, and_false, if_false, bind_eq_ok, liftM_eq_ok,
    Except.ok.injEq, exists_eq_left'] at h
  obtain ⟨offset, ho, ringsLen, hr, p, hp, v, hv, _, -, offset', ho', stop, hs, h⟩ := h
  obtain ⟨-, rfl⟩ := Build.add_eq_ok.1 ho
  obtain ⟨-, rfl⟩ := Build.mul_eq_ok.1 hr
  obtain ⟨-, rfl⟩ := pages_eq_ok.1 ⟨p, hp, hv⟩
  obtain ⟨-, rfl⟩ := Build.add_eq_ok.1 ho'
  obtain ⟨-, rfl⟩ := Build.add_eq_ok.1 hs
  rw [← h, UInt64.add_zero]
  rfl

private theorem offsets_of_ok {b : Build} {infos : List RingInfo} {cfgs : List RingConfig} {range : Range}
    (hlen : infos.length = cfgs.length) (h : (offsets b infos cfgs range).1 = .ok ()) :
    offsets b infos cfgs range = offsets .release infos cfgs range := by
  cases ha : alignRange b range with
  | error e => rw [offsets, ha] at h; cases h
  | ok r =>
    have ha' : alignRange .release range = .ok r := by
      by_cases hmod : range.start.toNat % 4096 = 0
      · have hmod' : range.start % pageSize = 0 := by
          rw [← UInt64.toNat_inj, UInt64.toNat_mod]; exact hmod
        simpa only [alignRange, hmod', ne_eq, not_true, if_false] using ha
      · rw [alignRange_eq_ok hmod] at ha ⊢; exact ha
    rw [offsets, ha] at h
    simp only [offsets, ha, ha']
    have hr : (placeAll .release infos cfgs r).1 = .ok () := by
      obtain ⟨hp, hfit⟩ := (placeAll_eq_ok hlen).1 h
      exact (placeAll_eq_ok hlen).2 ⟨(placeable_release cfgs).2 fun cfg hc => (hp cfg hc).1, hfit⟩
    exact Prod.ext (h.trans hr.symm) ((placeAll_snd h).trans (placeAll_snd hr).symm)

/-- Where a debug build succeeds, a release build does the same. -/
theorem new_of_ok {b : Build} {ring : Shared} {cfgs : List RingConfig} {m : Mem} {srv : Server}
    (h : (new b ring cfgs m).1 = .ok srv) : new b ring cfgs m = new .release ring cfgs m := by
  cases hd : divide b ring (UInt64.ofNat cfgs.length) with
  | error e => simp only [new, hd] at h; cases h
  | ok d =>
    simp only [new, hd, divide_of_ok hd] at h ⊢
    split at h
    · cases h
    · rename_i ho
      have he := offsets_of_ok (Rings.length_read ..) ho
      rw [he] at ho ⊢
      rw [ho]

end Server

end ShmRing
