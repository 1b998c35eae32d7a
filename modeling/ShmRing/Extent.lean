import ShmRing.Placement

/-!
# Does what is accepted fit?

`Server::new` compares the end of each allocation with an end of the range that already contains the block of
records, and it rounds the size of the data modulo `2 ^ 64`.  So it may accept rings that reach behind the end of the
mapping: exactly those for which `Fits` fails (`fitsMapping_iff`).
-/

namespace ShmRing

open Machine Bytes

/-- Entries and ring are powers of two, and the entries fill the ring. -/
theorem RingConfig.Valid.pow {cfg : RingConfig} (h : cfg.Valid) :
    ∃ j k, cfg.slotEntrySize.toNat = 2 ^ j ∧ cfg.ringSize.toNat = 2 ^ (j + k) := by
  obtain ⟨j, hj⟩ := h.entry_pow
  obtain ⟨k, hk⟩ := h.count_pow
  have hdvd : cfg.slotEntrySize.toNat ∣ cfg.ringSize.toNat := by
    have := congrArg UInt64.toNat h.entry_dvd
    rw [UInt64.toNat_mod] at this
    exact Nat.dvd_of_mod_eq_zero this
  rw [UInt64.toNat_div] at hk
  exact ⟨j, k, hj, by rw [Nat.pow_add, ← hj, ← hk, Nat.mul_div_cancel' hdvd]⟩

/-- The size of a ring is not rounded to zero. -/
theorem RingConfig.Valid.pageBytes_ring {cfg : RingConfig} (h : cfg.Valid) :
    (pageBytes cfg.ringSize).toNat = ceilPage cfg.ringSize.toNat ∧ 0 < cfg.ringSize.toNat := by
  obtain ⟨j, k, -, hring⟩ := h.pow
  have hle : cfg.ringSize.toNat ≤ 2 ^ 63 := by
    have hlt := cfg.ringSize.toNat_lt
    rw [hring] at hlt ⊢
    exact two_pow_le_of_lt hlt
  refine ⟨?_, by rw [hring]; exact Nat.two_pow_pos _⟩
  rcases pageBytes_cases cfg.ringSize with h | ⟨h, -⟩
  · exact h
  · omega

namespace Server

/-- The start of the `i`-th ring. -/
def startOf (cfgs : List RingConfig) (i : Nat) : Nat :=
  4096 + ceilPage (RingInfo.size * cfgs.length) + cost (cfgs.take i)

private theorem cost_append (cfgs cfgs' : List RingConfig) : cost (cfgs ++ cfgs') = cost cfgs + cost cfgs' := by
  simp [cost]

/-- The `i`-th ring and those before it are a part of all. -/
theorem cost_take_add_le {cfgs : List RingConfig} {i : Nat} {cfg : RingConfig} (h : cfgs[i]? = some cfg) :
    cost (cfgs.take i) + cfg.cost ≤ cost cfgs := by
  have hsplit := congrArg cost (List.take_append_drop (i + 1) cfgs)
  rw [List.take_add_one, h, cost_append, cost_append] at hsplit
  simp only [Option.toList_some, cost_cons, cost_nil] at hsplit
  omega

/-- What the record of a ring at `start` says, in numbers. -/
structure PlacedAt (cfg : RingConfig) (start : Nat) (info : RingInfo) : Prop where
  version : info.version = 1
  head : info.offsetHead.toNat = start
  ring : info.offsetRing.toNat = start + 4096
  data : info.offsetData.toNat = start + 4096 + ceilPage cfg.ringSize.toNat
  sizeRing : info.sizeRing = cfg.ringSize
  sizeData : info.sizeData = cfg.dataSize
  sizeSlotEntry : info.sizeSlotEntry = cfg.slotEntrySize

theorem getElem?_layout {cfgs : List RingConfig} (m : Mem) {i : Nat} {cfg : RingConfig} (hc : cfgs[i]? = some cfg) :
    (layout cfgs m)[i]? = some (cfg.record (RingInfo.read m (Rings.recordAt ⟨ShmHead.size, cfgs.length⟩ i))
      (startOf cfgs i)) :=
  getElem?_records _ (Rings.getElem?_read (List.getElem?_eq_some_iff.1 hc).1) hc

/-- Where the rings of an accepted configuration are. -/
theorem layout_placedAt {ring : Shared} {cfgs : List RingConfig} {m : Mem} {i : Nat} {cfg : RingConfig}
    (h : Accepted ring.size.toNat cfgs) (hc : cfgs[i]? = some cfg) :
    ∃ info, (layout cfgs m)[i]? = some info ∧ PlacedAt cfg (startOf cfgs i) info := by
  obtain ⟨hi, hcfg⟩ := List.getElem?_eq_some_iff.1 hc
  have hsize := ring.size_lt
  have hcost := cost_take_add_le hc
  have hfit := h.2
  have hlen := (Accepted.info_eq h).1
  have hR := ceilPage_lt (RingInfo.size * cfgs.length)
  obtain ⟨hring, -⟩ := (h.1 cfg (hcfg ▸ List.getElem_mem hi)).pageBytes_ring
  refine ⟨_, getElem?_layout m hc, ?_⟩
  have hlt : startOf cfgs i + cfg.cost < 2 ^ 64 := by
    simp only [startOf, RingInfo.size] at hR ⊢; omega
  simp only [RingConfig.cost, hring] at hlt
  refine ⟨rfl, ?_, ?_, ?_, rfl, rfl, rfl⟩
  all_goals
    simp only [RingConfig.record, UInt64.toNat_ofNat', hring]
    exact Nat.mod_eq_of_lt (by omega)

theorem dvd_startOf (cfgs : List RingConfig) (i : Nat) : 4096 ∣ startOf cfgs i :=
  Nat.dvd_add (Nat.dvd_add (Nat.dvd_refl _) (dvd_ceilPage _)) (dvd_cost _)

/-- Every ring ends within the mapping, the size of its data taken as it is. -/
def Fits (size : Nat) (cfgs : List RingConfig) : Prop :=
  ∀ i cfg, cfgs[i]? = some cfg →
    startOf cfgs i + 4096 + cfg.ringSize.toNat ≤ size ∧
    (cfg.dataSize.toNat = 0 ∨ startOf cfgs i + 4096 + (pageBytes cfg.ringSize).toNat + cfg.dataSize.toNat ≤ size)

/-- What a server should guarantee: if `new` succeeds, the block of records and the regions of every ring lie in the
mapping. -/
def FitsMapping (ring : Shared) (cfgs : List RingConfig) (m : Mem) : Prop :=
  ∀ srv, (new .release ring cfgs m).1 = .ok srv →
    srv.rings.region.Below ring.size.toNat ∧
    ∀ info ∈ srv.rings.read (new .release ring cfgs m).2,
      info.headRegion.Below ring.size.toNat ∧ info.ringRegion.Below ring.size.toNat ∧
        info.dataRegion.Below ring.size.toNat

/-- Regions that lie in the mapping leave the rings no place to reach beyond it. -/
theorem fits_of_regions {ring : Shared} {cfgs : List RingConfig} {m : Mem} (hacc : Accepted ring.size.toNat cfgs)
    (h : ∀ info ∈ layout cfgs m, info.ringRegion.Below ring.size.toNat ∧ info.dataRegion.Below ring.size.toNat) :
    Fits ring.size.toNat cfgs := by
  intro i cfg hc
  obtain ⟨info, hi, hp⟩ := layout_placedAt (m := m) hacc hc
  obtain ⟨hring, hdata⟩ := h info (List.mem_of_getElem? hi)
  obtain ⟨hpages, hpos⟩ := (hacc.1 cfg (List.mem_of_getElem? hc)).pageBytes_ring
  rw [Region.below_iff, RingInfo.ringRegion, hp.ring, hp.sizeRing] at hring
  rw [Region.below_iff, RingInfo.dataRegion, hp.data, hp.sizeData] at hdata
  rw [hpages]
  simp only at hring hdata
  omega

private theorem FitsMapping.fits {ring : Shared} {cfgs : List RingConfig} {m : Mem} (h : FitsMapping ring cfgs m)
    (hw : ring.weakCount = 0) (hacc : Accepted ring.size.toNat cfgs) : Fits ring.size.toNat cfgs := by
  obtain ⟨-, hrings⟩ := h _ (new_release.2 ⟨hw, hacc, rfl⟩)
  rw [new_release_read (new_release.2 ⟨hw, hacc, rfl⟩)] at hrings
  exact fits_of_regions hacc fun info hinfo => (hrings info hinfo).2

/-- The records of an accepted configuration come from its entries. -/
private theorem placedAt_of_mem {ring : Shared} {cfgs : List RingConfig} {m : Mem} {info : RingInfo}
    (hacc : Accepted ring.size.toNat cfgs) (h : info ∈ layout cfgs m) :
    ∃ i cfg, cfgs[i]? = some cfg ∧ (layout cfgs m)[i]? = some info ∧ PlacedAt cfg (startOf cfgs i) info := by
  obtain ⟨i, hi⟩ := List.mem_iff_getElem?.1 h
  have hic : i < cfgs.length := by
    have := (List.getElem?_eq_some_iff.1 hi).1
    rwa [layout, length_records, Rings.length_read] at this
  have hc := List.getElem?_eq_getElem hic
  obtain ⟨info', hi', hp⟩ := layout_placedAt (m := m) hacc hc
  obtain rfl : info = info' := Option.some.inj (hi.symm.trans hi')
  exact ⟨i, _, hc, hi, hp⟩

theorem Fits.regions_below {ring : Shared} {cfgs : List RingConfig} {m : Mem} {info : RingInfo}
    (h : Fits ring.size.toNat cfgs) (hacc : Accepted ring.size.toNat cfgs) (hinfo : info ∈ layout cfgs m) :
    info.headRegion.Below ring.size.toNat ∧ info.ringRegion.Below ring.size.toNat ∧
      info.dataRegion.Below ring.size.toNat := by
  obtain ⟨i, cfg, hc, -, hp⟩ := placedAt_of_mem hacc hinfo
  obtain ⟨hring, hdata⟩ := h i cfg hc
  obtain ⟨hpages, hpos⟩ := (hacc.1 cfg (List.mem_of_getElem? hc)).pageBytes_ring
  rw [hpages] at hdata
  simp only [Region.below_iff, RingInfo.headRegion, RingInfo.ringRegion, RingInfo.dataRegion, hp.head, hp.ring,
    hp.data, hp.sizeRing, hp.sizeData]
  omega

theorem Fits.fitsMapping {ring : Shared} {cfgs : List RingConfig} {m : Mem}
    (h : ring.weakCount = 0 → Accepted ring.size.toNat cfgs → Fits ring.size.toNat cfgs) : FitsMapping ring cfgs m := by
  intro srv hsrv
  obtain ⟨hw, hacc, rfl⟩ := new_release.1 hsrv
  have hlen := length_le_cost cfgs
  have hfit := hacc.2
  have hsize := ring.head_le
  refine ⟨Region.below_iff.2 ?_, fun info hinfo => ?_⟩
  · simp only [Rings.region, ShmHead.size, RingInfo.size] at hsize ⊢
    omega
  · rw [new_release_read hsrv] at hinfo
    exact (h hw hacc).regions_below hacc hinfo

/-- `new` keeps its promise exactly when it rejects the configuration or the rings, one after the other from behind
the rounded block of records, end within the mapping. -/
theorem fitsMapping_iff (ring : Shared) (cfgs : List RingConfig) (m : Mem) :
    FitsMapping ring cfgs m ↔
      (ring.weakCount = 0 → Accepted ring.size.toNat cfgs → Fits ring.size.toNat cfgs) :=
  ⟨fun h => h.fits, fun h => Fits.fitsMapping h⟩

/-- A mapping of four pages. -/
def fourPages : Shared where
  base := 0x10000
  size := 16384
  size_lt := by decide
  end_lt := by decide
  tailAddr := 0x10020
  tailSize := 16352
  weakCount := 0
  aligned := by decide
  tailAddr_eq := by decide
  tailSize_eq := by decide

/-- One ring with one page of data does not fit in four pages, of which the block of records takes one, but it is
accepted: its data begins at the end of the mapping. -/
theorem not_fitsMapping : ¬ FitsMapping fourPages [⟨8, 4096, 8, 0, 0⟩] (fun _ => 0) := fun h =>
  absurd ((h.fits rfl (by decide) 0 ⟨8, 4096, 8, 0, 0⟩ rfl).2.resolve_left (by decide)) (by decide)

end Server

end ShmRing
