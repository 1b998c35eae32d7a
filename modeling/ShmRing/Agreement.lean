import ShmRing.Extent
import ShmRing.Validation

/-!
# Do server and client agree?

The server places rings relative to the start of the mapping, the client checks addresses.  It asks that the slots of
a ring are aligned to the size of an entry, which the server does not look at: it aligns them to pages.  So rings with
entries of more than a page can be joined from some addresses only (`joins_iff`).
-/

namespace ShmRing

open Machine Bytes

namespace Server

/-- The records of the server say what the client finds, and every ring passes the checks of `join` from either side
as long as the fields of the records are not changed: it can then be joined whenever the slot is available. -/
def Joins (b : Build) (view : Shared) (srv : Server) (infos : List RingInfo) (m : Mem) : Prop :=
  ∃ c, Client.new b view m = .ok c ∧ c.rings.count = srv.rings.count ∧ c.rings.read m = infos ∧
    ∀ req : RingRequest, req.index.toNat < c.rings.count → req.tid.Valid →
      ∀ m', c.rings.SameRecords m m' →
        (∃ found, c.check b req.index m' = .ok found) ∧
        (slotClass ((RingInfo.read m' (c.rings.recordAt req.index.toNat)).selectSlot req.side) = .available →
          ∃ r, (c.join b req m').1 = .ok r)

/-- The slots of every ring are aligned to its entries at the address of the client, and its data begins within the
mapping. -/
def Aligned (base size : Nat) (cfgs : List RingConfig) : Prop :=
  ∀ i cfg, cfgs[i]? = some cfg → cfg.slotEntrySize.toNat ∣ base + (startOf cfgs i + 4096) ∧
    startOf cfgs i + 4096 + (pageBytes cfg.ringSize).toNat ≤ size

/-- A record as it was placed passes the checks at an address that fits it. -/
theorem PlacedAt.joinable {cfg : RingConfig} {start : Nat} {info : RingInfo} {view : Shared}
    (h : PlacedAt cfg start info) (hv : cfg.Valid) (hbase : 4096 ∣ view.base.toNat) (hstart : 4096 ∣ start)
    (hpos : 4096 ≤ start) (hring : start + 4096 + cfg.ringSize.toNat ≤ view.size.toNat)
    (hdata : start + 4096 + ceilPage cfg.ringSize.toNat + cfg.dataSize.toNat ≤ view.size.toNat)
    (halign : cfg.slotEntrySize.toNat ∣ view.base.toNat + (start + 4096)) : Client.Joinable view info := by
  obtain ⟨j, k, hj, hk⟩ := hv.pow
  have hsize := view.size_lt
  have hle : cfg.slotEntrySize.toNat ≤ cfg.ringSize.toNat := by
    rw [hj, hk]; exact Nat.pow_le_pow_right (by decide) (by omega)
  have hhalf : cfg.ringSize.toNat ≤ 2 ^ 62 := by
    have hlt : cfg.ringSize.toNat < 2 ^ 63 := by omega
    rw [hk] at hlt ⊢
    exact two_pow_le_of_lt hlt
  have hpow : info.sizeSlotEntry.toNat.isPowerOfTwo := by rw [h.sizeSlotEntry]; exact hv.entry_pow
  refine ⟨h.version, ⟨?_, ?_, ?_⟩, hpow, ?_, ⟨?_, ?_, ?_⟩, ⟨?_, ?_, Nat.one_dvd _⟩⟩
  all_goals simp only [h.head, h.ring, h.data, h.sizeRing, h.sizeData, h.sizeSlotEntry, ShmHead.size, RingHead.size]
  · omega
  · omega
  · omega
  · omega
  · omega
  · omega
  · exact halign
  · omega
  · omega

/-- What a client makes of the memory that a server has set up. -/
theorem new_published (b' : Build) (view : Shared) {b : Build} {ring : Shared} {cfgs : List RingConfig} {m : Mem}
    {srv : Server}
    (h : (new b ring cfgs m).1 = .ok srv) (hsize : view.size = ring.size) :
    Client.new b' view (new b ring cfgs m).2 = .ok ⟨view, srv.rings⟩ ∧
      srv.rings.read (new b ring cfgs m).2 = layout cfgs m ∧ srv.rings = ⟨ShmHead.size, cfgs.length⟩ ∧
      Accepted ring.size.toNat cfgs := by
  have hb := new_of_ok h
  rw [hb] at h ⊢
  obtain ⟨-, hacc, hsrv⟩ := new_release.1 h
  refine ⟨?_, new_release_read h, by rw [hsrv], hacc⟩
  have hlen := length_le_cost cfgs
  have hfit := hacc.2
  have hlt := (Accepted.info_eq hacc).1
  have htail := view.tailSize_eq
  have hbase := view.aligned
  have hn : (UInt64.ofNat cfgs.length).toNat = cfgs.length := by
    rw [UInt64.toNat_ofNat', Nat.mod_eq_of_lt (by omega)]
  rw [hsize] at htail
  rw [Client.new_eq, new_release_mem h, ShmHead.read_write, hsrv]
  simp only [ne_eq, not_true, if_false, UInt64.toNat_zero, Nat.not_lt_zero, ShmHead.size, RingInfo.size, hn,
    Nat.zero_add, Nat.add_zero] at htail ⊢
  rw [if_neg (by omega), if_neg (by omega)]

/-- The record that a client reads at an index is the one that was placed. -/
theorem placedAt_read {ring : Shared} {cfgs : List RingConfig} {m m₁ : Mem} {rings : Rings}
    (hacc : Accepted ring.size.toNat cfgs) (hread : rings.read m₁ = layout cfgs m) (hcount : rings.count = cfgs.length)
    {i : Nat} {cfg : RingConfig} (hc : cfgs[i]? = some cfg) :
    PlacedAt cfg (startOf cfgs i) (RingInfo.read m₁ (rings.recordAt i)) := by
  obtain ⟨info, hi, hp⟩ := layout_placedAt (m := m) hacc hc
  have hic : i < rings.count := by rw [hcount]; exact (List.getElem?_eq_some_iff.1 hc).1
  rw [← hread, Rings.getElem?_read hic] at hi
  rwa [Option.some.inj hi]

private theorem Joins.aligned {b b' : Build} {ring view : Shared} {cfgs : List RingConfig} {m : Mem} {srv : Server}
    (h : (new b ring cfgs m).1 = .ok srv) (hsize : view.size = ring.size)
    (hjoins : Joins b' view srv (layout cfgs m) (new b ring cfgs m).2) :
    Aligned view.base.toNat ring.size.toNat cfgs := by
  obtain ⟨hnew, hread, hrings, hacc⟩ := new_published b' view h hsize
  have hlt := (Accepted.info_eq hacc).1
  intro i cfg hcfg
  obtain ⟨c, hc, -, -, hall⟩ := hjoins
  obtain rfl := Except.ok.inj (hc.symm.trans hnew)
  have hi := (List.getElem?_eq_some_iff.1 hcfg).1
  have hn : (UInt64.ofNat i).toNat = i := by
    rw [UInt64.toNat_ofNat', Nat.mod_eq_of_lt (by omega)]
  obtain ⟨⟨found, hf⟩, -⟩ := hall ⟨UInt64.ofNat i, .left, ⟨1⟩⟩ (by rw [hn, hrings]; exact hi)
    (show (⟨1⟩ : ClientIdentifier).Valid by decide) _ fun _ _ _ _ => rfl
  rcases Client.check_cases b' ⟨view, srv.rings⟩ (UInt64.ofNat i) (new b ring cfgs m).2 with ⟨e, he, -⟩ | ⟨-, hj, -⟩
  · rw [he] at hf; cases hf
  · rw [hn] at hj
    have hp := placedAt_read hacc hread (by rw [hrings]) hcfg
    have hslots := hj.slots.aligned
    have hdata := hj.data.end_le
    rw [hp.ring, hp.sizeSlotEntry] at hslots
    rw [hp.data, hsize] at hdata
    rw [((hacc.1 cfg (List.mem_of_getElem? hcfg)).pageBytes_ring).1]
    exact ⟨hslots, by omega⟩

private theorem Aligned.joins {b b' : Build} {ring view : Shared} {cfgs : List RingConfig} {m : Mem} {srv : Server}
    (h : (new b ring cfgs m).1 = .ok srv) (hfits : Fits ring.size.toNat cfgs) (hsize : view.size = ring.size)
    (hbase : 4096 ∣ view.base.toNat) (hal : Aligned view.base.toNat ring.size.toNat cfgs) :
    Joins b' view srv (layout cfgs m) (new b ring cfgs m).2 := by
  obtain ⟨hnew, hread, hrings, hacc⟩ := new_published b' view h hsize
  refine ⟨_, hnew, rfl, hread, fun req hi hv m' hs => ?_⟩
  have hic : req.index.toNat < cfgs.length := by rwa [hrings] at hi
  have hcfg := List.getElem?_eq_getElem hic
  have hvalid := hacc.1 _ (List.getElem_mem hic)
  obtain ⟨hpages, -⟩ := hvalid.pageBytes_ring
  obtain ⟨hdvd, hend⟩ := hal _ _ hcfg
  obtain ⟨hring, hdata⟩ := hfits _ _ hcfg
  rw [hpages] at hdata hend
  have hj : Client.Joinable view (RingInfo.read m' (srv.rings.recordAt req.index.toNat)) := by
    rw [(hs _ hi).read_eq]
    refine ((placedAt_read hacc hread (by rw [hrings]) hcfg).joinable hvalid hbase (dvd_startOf cfgs _) ?_ ?_ ?_
      hdvd).owners _ _
    · simp only [startOf]; omega
    · rw [hsize]; exact hring
    · rw [hsize]; omega
  exact ⟨⟨_, Client.check_of_joinable hi hj⟩, fun ha => Client.join_of_available hi hj hv ha⟩

/-- Entries of at most a page are aligned at every page. -/
theorem slots_aligned_of_le {cfgs : List RingConfig} {base i : Nat} {cfg : RingConfig} (hbase : 4096 ∣ base)
    (hv : cfg.Valid) (hle : cfg.slotEntrySize.toNat ≤ 4096) :
    cfg.slotEntrySize.toNat ∣ base + (startOf cfgs i + 4096) := by
  obtain ⟨j, hj⟩ := hv.entry_pow
  have hdvd : cfg.slotEntrySize.toNat ∣ 4096 := by
    rw [hj] at hle ⊢
    exact Nat.pow_dvd_pow 2 ((Nat.pow_le_pow_iff_right (m := 12) (by decide)).1 hle)
  exact Nat.dvd_trans hdvd (Nat.dvd_add hbase (Nat.dvd_add (dvd_startOf cfgs i) (Nat.dvd_refl _)))

/-- Every published ring can be joined from a mapping if and only if the slots of every ring are aligned to their
entries there (and no empty data begins outside). -/
theorem joins_iff {b b' : Build} {ring view : Shared} {cfgs : List RingConfig} {m : Mem} {srv : Server}
    (h : (new b ring cfgs m).1 = .ok srv)
    (hin : ∀ info ∈ srv.rings.read (new b ring cfgs m).2,
      info.headRegion.Below ring.size.toNat ∧ info.ringRegion.Below ring.size.toNat ∧
        info.dataRegion.Below ring.size.toNat)
    (hsize : view.size = ring.size) (hbase : 4096 ∣ view.base.toNat) :
    Joins b' view srv (layout cfgs m) (new b ring cfgs m).2 ↔
      Aligned view.base.toNat ring.size.toNat cfgs := by
  obtain ⟨-, hread, -, hacc⟩ := new_published b' view h hsize
  rw [hread] at hin
  exact ⟨fun hj => hj.aligned h hsize,
    fun hal => hal.joins h (fits_of_regions hacc fun info hinfo => (hin info hinfo).2) hsize hbase⟩

/-- A mapping of five pages at an address. -/
def fivePages (base : UInt64) (h : base = 0x10000 ∨ base = 0x11000) : Shared where
  base
  size := 20480
  size_lt := by decide
  end_lt := by rcases h with rfl | rfl <;> decide
  tailAddr := base + 32
  tailSize := 20448
  weakCount := 0
  aligned := by rcases h with rfl | rfl <;> decide
  tailAddr_eq := by rcases h with rfl | rfl <;> decide
  tailSize_eq := by decide

/-- One ring with one entry of two pages. -/
def wideEntry : RingConfig := ⟨8192, 0, 8192, -1, -1⟩

private theorem wideEntry_accepted : Accepted 20480 [wideEntry] := by decide

private theorem wideEntry_new (base : UInt64) (h : base = 0x10000 ∨ base = 0x11000) :
    (new .release (fivePages base h) [wideEntry] (fun _ => 0)).1 = .ok ⟨fivePages base h, ⟨32, 1⟩⟩ :=
  new_release.2 ⟨rfl, wideEntry_accepted, rfl⟩

private theorem wideEntry_regions (base : UInt64) (h : base = 0x10000 ∨ base = 0x11000) :
    ∀ info ∈ (⟨32, 1⟩ : Rings).read (new .release (fivePages base h) [wideEntry] (fun _ => 0)).2,
      info.headRegion.Below 20480 ∧ info.ringRegion.Below 20480 ∧ info.dataRegion.Below 20480 := by
  have hfits : Fits 20480 [wideEntry] := by
    intro i cfg hc
    rcases i with _ | i
    · cases hc; decide
    · cases hc
  have hread := new_release_read (wideEntry_new base h)
  simp only at hread
  rw [hread]
  exact fun info hinfo => @Fits.regions_below (fivePages base h) _ _ _ hfits wideEntry_accepted hinfo

/-- From the address at which the first ring is one page off its entries it cannot be joined. -/
theorem not_joins :
    let ring := fivePages 0x10000 (.inl rfl)
    let result := new .release ring [wideEntry] (fun _ => 0)
    ∃ srv, result.1 = .ok srv ∧
      (∀ info ∈ srv.rings.read result.2, info.headRegion.Below ring.size.toNat ∧
        info.ringRegion.Below ring.size.toNat ∧ info.dataRegion.Below ring.size.toNat) ∧
      ¬ Joins .release ring srv (layout [wideEntry] (fun _ => 0)) result.2 :=
  ⟨_, wideEntry_new _ (.inl rfl), wideEntry_regions _ (.inl rfl), fun h =>
    absurd (h.aligned (wideEntry_new _ (.inl rfl)) rfl 0 wideEntry rfl).1 (by decide)⟩

/-- From the next page it can. -/
theorem joins_iff_next_page :
    let ring := fivePages 0x11000 (.inr rfl)
    Joins .debug ring ⟨ring, ⟨32, 1⟩⟩ (layout [wideEntry] (fun _ => 0))
      (new .release ring [wideEntry] (fun _ => 0)).2 :=
  (joins_iff (wideEntry_new _ (.inr rfl)) (wideEntry_regions _ (.inr rfl)) rfl (by decide)).2 fun i cfg hc => by
    rcases i with _ | i
    · cases hc; decide
    · cases hc

end Server

end ShmRing
