import ShmRing.Agreement
import ShmRing.Session

/-!
# Rings do not interfere

The regions of two rings that clients have joined are apart from each other and from the head and the records of the
mapping, and an operation on a joined ring writes only to the regions of that ring and to its own owner word.  Both
rest on the checks of `join`: a ring whose sizes were rounded to nothing may overlap the next, but cannot be joined.
-/

namespace ShmRing

open Machine Bytes Transition

/-! ### What an operation writes -/

/-- The bytes that the operations on a ring from one side may write. -/
def RingInfo.footprint (info : RingInfo) (a : Nat) (side : ClientSide) (x : Nat) : Prop :=
  (∃ r ∈ info.regions, x ∈ r) ∨ x ∈ RingInfo.ownerRegion a side

private theorem Producer.pushLoop_differIn {E σ : Type} {P : Port Mem E} {S : Nat → Prop}
    (hset : ∀ i x m, i < P.len → DifferIn S m (P.set i x m)) (offsetMask : Nat) (next : σ → Option E × σ) (k n : Nat)
    (iter : σ) (m : Mem) : DifferIn S m (pushLoop P offsetMask next k n iter m).2.2 := by
  induction k generalizing n iter m with
  | zero => exact DifferIn.refl S m
  | succ k ih =>
    rw [pushLoop]
    split
    · exact DifferIn.refl S m
    · dsimp only
      split
      · rename_i hlt
        exact (hset _ _ m hlt).trans (ih _ _ _)
      · exact DifferIn.refl S m

private theorem Producer.pushMany_differIn {E σ : Type} {P : Port Mem E} {S : Nat → Prop}
    (hset : ∀ i x m, i < P.len → DifferIn S m (P.set i x m)) (p : Producer) (next : σ → Option E × σ) (iter : σ)
    (m : Mem) : DifferIn S m (p.pushMany P next iter m).2.2 :=
  pushLoop_differIn hset p.offsetMask next (p.cachedTail - p.cachedHead) p.cachedHead iter m

namespace Ring.Checked

variable {r : Ring} {m : Mem}

theorem pos_head (h : r.Checked m) : r.ring.pos r.slot.head = (r.info m).offsetHead.toNat := by
  rw [h.head_eq, r.ring.pos_base_add]
  have := h.joinable.head.end_le
  omega

/-- The words of the head are in its page. -/
private theorem store_differIn (h : r.Checked m) (w : HeadWord) (v : UInt32) (m' : Mem) :
    DifferIn ((r.info m).footprint r.slot.info r.slot.side) m' (r.store w v m') := by
  refine (Mem.frame_writeU32 m' (r.wordAt w) v).differIn fun a ha => .inl ⟨_, .head _, ?_⟩
  have hw := RingHead.offset_le w
  simp only [Ring.wordAt, h.pos_head, Region.mem_iff, RingHead.size, RingInfo.headRegion] at ha hw ⊢
  omega

/-- An entry is written to its slot. -/
private theorem set_differIn (h : r.Checked m) {cell : Cell}
    (hcell : cell = ⟨r.ring.base + (r.info m).offsetRing, (r.info m).sizeRing⟩) {N i : Nat} (data : Vector UInt8 N)
    (m' : Mem) (hi : i < (r.port cell N).len) :
    DifferIn ((r.info m).footprint r.slot.info r.slot.side) m' ((r.port cell N).set i data m') := by
  refine (Mem.frame_writeBytes m' _ data.toList).differIn fun a ha => .inl ⟨_, .tail _ (.head _), ?_⟩
  have hpos := r.ring.pos_base_add (r.info m).offsetRing (by have := h.joinable.slots.end_le; omega)
  have hmul : (i + 1) * N ≤ (r.info m).sizeRing.toNat := by
    have hi' : i < (r.info m).sizeRing.toNat / N := by simpa [Ring.port, hcell] using hi
    exact Nat.le_trans (Nat.mul_le_mul_right N (Nat.succ_le_of_lt hi')) (Nat.div_mul_le_self _ _)
  rw [Nat.succ_mul] at hmul
  simp only [hcell, hpos, Region.mem_iff, Vector.length_toList, RingInfo.ringRegion] at ha ⊢
  omega

end Ring.Checked

namespace Session

/-- The slots of the open handle. -/
def Handle.cell? : Handle → Option Cell
  | .closed => none
  | .producer _ cell _ => some cell
  | .consumer _ cell _ => some cell

/-- The ring was checked, and an open handle was opened on its slots. -/
structure Ok (s : Session) (m : Mem) : Prop where
  checked : s.ring.Checked m
  handle : ∀ cell, s.handle.cell? = some cell →
    cell = ⟨s.ring.ring.base + (s.ring.info m).offsetRing, (s.ring.info m).sizeRing⟩

/-- What a session may write. -/
def footprint (s : Session) (m : Mem) : Nat → Prop :=
  (s.ring.info m).footprint s.ring.slot.info s.ring.slot.side

/-- A handle is opened on the slots of the ring. -/
private theorem opened_cell {b : Build} {r : Ring} {m : Mem} {α : Type} {f : Cell → Exec (Option α)} {cell : Cell}
    {y : α} (h : r.Checked m)
    (e : (do
      let some cell ← r.borrowMap b m | return none
      let x ← f cell
      return x.map fun x => (cell, x) : Exec (Option (Cell × α))) = .ok (some (cell, y))) :
    cell = ⟨r.ring.base + (r.info m).offsetRing, (r.info m).sizeRing⟩ := by
  rw [h.borrowMap] at e
  obtain ⟨_, hcell, e⟩ := bind_eq_ok.1 e
  obtain rfl := Except.ok.inj hcell
  obtain ⟨_, -, e⟩ := bind_eq_ok.1 e
  obtain ⟨_, -, hp⟩ := Option.map_eq_some_iff.1 (Except.ok.inj e)
  exact (Prod.mk.inj hp).1.symm

/-- An operation writes only to its footprint, and the session stays on its ring and its slots. -/
private theorem apply_differIn {b : Build} {s s' : Session} {m m' : Mem} {op : Op} (h : s.Ok m)
    (e : s.apply b m op = some (s', m')) :
    DifferIn (s.footprint m) m m' ∧ s'.ring = s.ring ∧ s'.index = s.index ∧
      ∀ cell, s'.handle.cell? = some cell →
        cell = ⟨s.ring.ring.base + (s.ring.info m).offsetRing, (s.ring.info m).sizeRing⟩ := by
  obtain ⟨hc, hh⟩ := h
  cases op with
  | producer N =>
    simp only [apply] at e
    split at e
    · rename_i cell p _ hp
      cases e
      refine ⟨DifferIn.refl _ _, rfl, rfl, fun cell' hcell => ?_⟩
      cases hcell
      exact opened_cell hc hp
    · cases e
  | consumer N =>
    simp only [apply] at e
    split at e
    · rename_i cell c _ hp
      cases e
      refine ⟨DifferIn.refl _ _, rfl, rfl, fun cell' hcell => ?_⟩
      cases hcell
      exact opened_cell hc hp
    · cases e
  | pushMany N σ next iter =>
    simp only [apply] at e
    split at e
    · rename_i N' cell p hs
      split at e
      · rename_i hN
        subst hN
        have hcell := hh cell (by rw [hs]; rfl)
        have hpush := p.pushMany_differIn (P := s.ring.port cell N') (fun i x m' hi => hc.set_differIn hcell x m' hi)
          next iter m
        split at e
        · rename_i hres
          rw [hres] at hpush
          cases e
          exact ⟨hpush, rfl, rfl, fun cell' hcell' => hh cell' (by rw [hs]; exact hcell')⟩
        · rename_i hres
          rw [hres] at hpush
          cases e
          exact ⟨hpush, rfl, rfl, hh⟩
      · cases e
    · cases e
  | next =>
    simp only [apply] at e
    split at e
    · rename_i N cell c hs
      obtain ⟨r, -, hr⟩ := Option.map_eq_some_iff.1 e
      cases hr
      exact ⟨DifferIn.refl _ _, rfl, rfl, fun cell' hcell => hh _ (by rw [hs]; exact hcell)⟩
    · cases e
  | sync =>
    simp only [apply] at e
    split at e
    · rename_i N cell p hs
      cases e
      exact ⟨hc.store_differIn _ _ _, rfl, rfl, fun cell' hcell => hh _ (by rw [hs]; exact hcell)⟩
    · rename_i N cell c hs
      cases e
      exact ⟨hc.store_differIn _ _ _, rfl, rfl, fun cell' hcell => hh _ (by rw [hs]; exact hcell)⟩
    · cases e
  | close =>
    cases e
    exact ⟨DifferIn.refl _ _, rfl, rfl, fun cell hcell => (by cases hcell)⟩
  | copyTo data start =>
    simp only [apply, hc.copyTo] at e
    by_cases hle : start.toNat + data.1.length ≤ (s.ring.info m).sizeData.toNat
    · simp only [if_pos hle] at e
      cases e
      refine ⟨(Mem.frame_writeBytes _ _ _).differIn fun a ha => .inl ⟨_, .tail _ (.tail _ (.head _)), ?_⟩,
        rfl, rfl, hh⟩
      simp only [Region.mem_iff, RingInfo.dataRegion] at ha ⊢
      omega
    · simp only [if_neg hle] at e
      cases e
      exact ⟨DifferIn.refl _ _, rfl, rfl, hh⟩
  | copyFrom data start => cases e; exact ⟨DifferIn.refl _ _, rfl, rfl, hh⟩
  | lock spurious => cases e; exact ⟨hc.store_differIn _ _ _, rfl, rfl, hh⟩
  | unlock spurious => cases e; exact ⟨hc.store_differIn _ _ _, rfl, rfl, hh⟩
  | activate => cases e; exact ⟨hc.store_differIn _ _ _, rfl, rfl, hh⟩
  | deactivate => cases e; exact ⟨hc.store_differIn _ _ _, rfl, rfl, hh⟩
  | drop =>
    cases e
    exact ⟨(Mem.frame_writeU32 _ _ _).differIn fun _ ha => .inr ha, rfl, rfl, hh⟩

end Session

/-! ### Where the regions are -/

namespace Server

/-- The regions of a ring that can be joined lie in the part of the mapping that was set aside for it. -/
private theorem PlacedAt.regions_within {cfg : RingConfig} {start : Nat} {info : RingInfo} {view : Shared}
    (h : PlacedAt cfg start info) (hv : cfg.Valid) (hj : Client.Joinable view info) :
    ∀ r ∈ info.regions, r.Within ⟨start, cfg.cost⟩ := by
  have hdata := hj.data.end_le
  have hsize := view.size_lt
  have hle := le_ceilPage cfg.ringSize.toNat
  obtain ⟨hring, -⟩ := hv.pageBytes_ring
  rw [h.sizeData] at hdata
  -- the size of the data was not rounded to nothing, or it would not lie in the mapping
  have hpages : cfg.dataSize.toNat ≤ (pageBytes cfg.dataSize).toNat := by
    rcases pageBytes_cases cfg.dataSize with hp | ⟨hp, -⟩
    · rw [hp]; exact le_ceilPage _
    · omega
  simp only [RingInfo.regions, List.forall_mem_cons, RingInfo.headRegion, RingInfo.ringRegion, RingInfo.dataRegion,
    h.head, h.ring, h.data, h.sizeRing, h.sizeData, Region.Within, RingConfig.cost, hring]
  exact ⟨by omega, by omega, by omega, fun _ hr => (by cases hr)⟩

theorem PlacedAt.regions_apart {cfg : RingConfig} {start : Nat} {info : RingInfo} (h : PlacedAt cfg start info) :
    info.regions.Pairwise Region.Apart := by
  have hle := le_ceilPage cfg.ringSize.toNat
  simp only [RingInfo.regions, List.pairwise_cons, List.forall_mem_cons, RingInfo.headRegion, RingInfo.ringRegion,
    RingInfo.dataRegion, h.head, h.ring, h.data, h.sizeRing, Region.Apart]
  exact ⟨⟨.inl (by omega), .inl (by omega), fun _ hr => (by cases hr)⟩, ⟨.inl (by omega), fun _ hr => (by cases hr)⟩,
    fun _ hr => (by cases hr), List.Pairwise.nil⟩

/-- The part that is set aside for a ring ends before that of any later ring. -/
private theorem startOf_add_le {cfgs : List RingConfig} {i j : Nat} {cfg : RingConfig} (h : cfgs[i]? = some cfg)
    (hij : i < j) : startOf cfgs i + cfg.cost ≤ startOf cfgs j := by
  have htake : (cfgs.take j)[i]? = some cfg := by rw [List.getElem?_take_of_lt hij, h]
  have hcost := cost_take_add_le htake
  rw [List.take_take, Nat.min_eq_left (Nat.le_of_lt hij)] at hcost
  simp only [startOf]
  omega

/-- The rings come behind the head of the mapping and the records. -/
theorem records_le_startOf (cfgs : List RingConfig) (i : Nat) :
    ShmHead.size + RingInfo.size * cfgs.length ≤ startOf cfgs i := by
  have hle := le_ceilPage (RingInfo.size * cfgs.length)
  simp only [startOf, ShmHead.size]
  omega

end Server

/-! ### Bytes that no record depends on -/

namespace Rings

/-- The owner words, and all that comes behind the records. -/
def Loose (rings : Rings) (x : Nat) : Prop :=
  rings.start + RingInfo.size * rings.count ≤ x ∨
    ∃ i side, i < rings.count ∧ x ∈ RingInfo.ownerRegion (rings.recordAt i) side

private theorem ownerRegion_within {rings : Rings} {i : Nat} (hi : i < rings.count) (side : ClientSide) :
    (RingInfo.ownerRegion (rings.recordAt i) side).Within rings.region := by
  have hrec : RingInfo.size * i + RingInfo.size ≤ RingInfo.size * rings.count := Nat.mul_le_mul_left _ hi
  simp only [RingInfo.size] at hrec
  cases side <;>
    simp only [Region.Within, RingInfo.ownerRegion, RingInfo.ownerOffset, region, recordAt, RingInfo.size] <;> omega

private theorem sameRecords_of_differIn {rings : Rings} {m m' : Mem} (h : DifferIn rings.Loose m m') :
    rings.SameRecords m m' := by
  intro i hi k hk
  refine congrArg UInt64.ofNat (Mem.readLE_congr fun x hx hx' => h x ?_)
  rintro (hx'' | ⟨j, side, hj, hmem⟩)
  · simp only [recordAt, RingInfo.size] at *
    omega
  · simp only [recordAt, RingInfo.ownerRegion, Region.mem_iff, RingInfo.size] at *
    cases side <;> simp only [RingInfo.ownerOffset] at hmem <;> omega

private theorem Loose.start_le {rings : Rings} {x : Nat} (h : rings.Loose x) : rings.start ≤ x := by
  rcases h with h | ⟨i, side, hi, hmem⟩
  · omega
  · simp only [RingInfo.ownerRegion, Region.mem_iff, recordAt] at hmem
    omega

private theorem SameRecords.trans {rings : Rings} {m m' m'' : Mem} (h : rings.SameRecords m m')
    (h' : rings.SameRecords m' m'') : rings.SameRecords m m'' :=
  fun i hi k hk => (h' i hi k hk).trans (h i hi k hk)

end Rings

/-! ### The invariant of the system -/

/-- What the server has set up in the memory `m`. -/
structure Server.Published (srv : Server) (cfgs : List RingConfig) (m : Mem) : Prop where
  rings : srv.rings = ⟨ShmHead.size, cfgs.length⟩
  valid : ∀ cfg ∈ cfgs, cfg.Valid
  placed : ∀ i cfg, cfgs[i]? = some cfg →
    Server.PlacedAt cfg (Server.startOf cfgs i) (RingInfo.read m (srv.rings.recordAt i))
  found : ∀ b (view : Shared), view.size = srv.ring.size → Client.new b view m = .ok ⟨view, srv.rings⟩

theorem Server.published_of_new {b : Build} {ring : Shared} {cfgs : List RingConfig} {m : Mem} {srv : Server}
    (h : (Server.new b ring cfgs m).1 = .ok srv) : srv.Published cfgs (Server.new b ring cfgs m).2 := by
  have hring : srv.ring = ring := by
    rw [Server.new_of_ok h] at h
    obtain ⟨-, -, rfl⟩ := Server.new_release.1 h
    rfl
  obtain ⟨-, hread, hrings, hacc⟩ := Server.new_published b ring h rfl
  refine ⟨hrings, hacc.1, fun i cfg hc => Server.placedAt_read hacc hread (by rw [hrings]) hc, fun b' view hv => ?_⟩
  rw [hring] at hv
  exact (Server.new_published b' view h hv).1

/-- A client finds what it finds by the head of the mapping alone. -/
private theorem Client.new_congr {b : Build} {view : Shared} {m m' : Mem} (h : ∀ x, x < ShmHead.size → m' x = m x) :
    Client.new b view m' = Client.new b view m := by
  have hword : ∀ a, a + 8 ≤ ShmHead.size → m'.readU64 a = m.readU64 a := fun a ha =>
    congrArg UInt64.ofNat (Mem.readLE_congr fun x _ hx => h x (by omega))
  have hread : ShmHead.read m' = ShmHead.read m := by
    simp only [ShmHead.read, hword 0 (by decide), hword 8 (by decide), hword 16 (by decide), hword 24 (by decide)]
  rw [Client.new_eq, Client.new_eq, hread]

namespace Session

/-- A session on a ring of the server. -/
structure Joined (srv : Server) (s : Session) (m : Mem) : Prop extends s.Ok m where
  index_lt : s.index < srv.rings.count
  info_eq : s.ring.slot.info = srv.rings.recordAt s.index

private theorem Joined.of_same {srv : Server} {s : Session} {m m' : Mem} (h : s.Joined srv m)
    (hs : srv.rings.SameRecords m m') : s.Joined srv m' := by
  have hfields : RingInfo.SameFields s.ring.slot.info m m' := by
    rw [h.info_eq]; exact hs _ h.index_lt
  refine ⟨⟨h.checked.of_same hfields, fun cell hcell => ?_⟩, h.index_lt, h.info_eq⟩
  rw [h.handle cell hcell, Ring.info, Ring.info, hfields.read_eq]

/-- The ring of a session is where the server has placed it. -/
theorem Joined.placedAt {srv : Server} {cfgs : List RingConfig} {s : Session} {m₀ m : Mem} (h : s.Joined srv m)
    (hp : srv.Published cfgs m₀) (hs : srv.rings.SameRecords m₀ m) :
    ∃ cfg, cfgs[s.index]? = some cfg ∧ cfg.Valid ∧
      Server.PlacedAt cfg (Server.startOf cfgs s.index) (s.ring.info m) := by
  have hi : s.index < cfgs.length := by have := h.index_lt; rwa [hp.rings] at this
  have hc := List.getElem?_eq_getElem hi
  refine ⟨_, hc, hp.valid _ (List.getElem_mem hi), ?_⟩
  have hplaced := hp.placed _ _ hc
  rw [Ring.info, h.info_eq, (hs _ h.index_lt).read_eq]
  exact ⟨hplaced.version, hplaced.head, hplaced.ring, hplaced.data, hplaced.sizeRing, hplaced.sizeData,
    hplaced.sizeSlotEntry⟩

/-- The regions of a session lie behind the records. -/
theorem Joined.records_le {srv : Server} {cfgs : List RingConfig} {s : Session} {m₀ m : Mem} (h : s.Joined srv m)
    (hp : srv.Published cfgs m₀) (hs : srv.rings.SameRecords m₀ m) {r : Region}
    (hr : r ∈ (s.ring.info m).regions) : srv.rings.start + RingInfo.size * srv.rings.count ≤ r.start := by
  obtain ⟨cfg, -, hv, hplaced⟩ := h.placedAt hp hs
  have hwithin := hplaced.regions_within hv h.checked.joinable r hr
  have hle := Server.records_le_startOf cfgs s.index
  rw [hp.rings]
  exact Nat.le_trans hle hwithin.1

private theorem Joined.footprint_loose {srv : Server} {cfgs : List RingConfig} {s : Session} {m₀ m : Mem}
    (h : s.Joined srv m) (hp : srv.Published cfgs m₀) (hs : srv.rings.SameRecords m₀ m) {x : Nat}
    (hx : s.footprint m x) : srv.rings.Loose x := by
  rcases hx with ⟨r, hr, hxr⟩ | hown
  · exact .inl (Nat.le_trans (h.records_le hp hs hr) hxr.1)
  · rw [h.info_eq] at hown
    exact .inr ⟨_, _, h.index_lt, hown⟩

/-- The regions of sessions on different rings are apart. -/
private theorem Joined.regions_apart {srv : Server} {cfgs : List RingConfig} {s t : Session} {m₀ m : Mem}
    (h : s.Joined srv m) (h' : t.Joined srv m) (hp : srv.Published cfgs m₀) (hs : srv.rings.SameRecords m₀ m)
    (hne : s.index ≠ t.index) : ∀ r ∈ (s.ring.info m).regions, ∀ r' ∈ (t.ring.info m).regions, r.Apart r' := by
  intro r hr r' hr'
  obtain ⟨cfg, hc, hv, hplaced⟩ := h.placedAt hp hs
  obtain ⟨cfg', hc', hv', hplaced'⟩ := h'.placedAt hp hs
  have hwithin := hplaced.regions_within hv h.checked.joinable r hr
  have hwithin' := hplaced'.regions_within hv' h'.checked.joinable r' hr'
  rcases Nat.lt_or_gt_of_ne hne with hlt | hgt
  · have := Server.startOf_add_le hc hlt
    simp only [Region.Within, Region.Apart] at *
    omega
  · have := Server.startOf_add_le hc' hgt
    simp only [Region.Within, Region.Apart] at *
    omega

end Session

namespace World

/-- The memory is as it was published, but for the owner words and what lies behind the records, and every session
is on a ring of the server. -/
structure Intact (srv : Server) (m₀ : Mem) (w : World) : Prop where
  head : ∀ x, x < ShmHead.size → w.mem x = m₀ x
  records : srv.rings.SameRecords m₀ w.mem
  joined : ∀ k s, w.sessions k = some s → s.Joined srv w.mem

private theorem intact_init (srv : Server) (m : Mem) : (init m).Intact srv m :=
  ⟨fun _ _ => rfl, fun _ _ _ _ => rfl, fun _ _ h => (by cases h)⟩

variable {srv : Server} {cfgs : List RingConfig} {m₀ : Mem} {w w' : World}

/-- Loose bytes may change. -/
private theorem Intact.write (h : w.Intact srv m₀) (hp : srv.Published cfgs m₀) {m' : Mem}
    (hd : DifferIn srv.rings.Loose w.mem m') : Intact srv m₀ { w with mem := m' } := by
  have hsame := Rings.sameRecords_of_differIn hd
  refine ⟨fun x hx => ?_, h.records.trans hsame, fun k s hs => (h.joined k s hs).of_same hsame⟩
  rw [← h.head x hx]
  refine hd x fun hloose => ?_
  have := hloose.start_le
  rw [hp.rings] at this
  exact absurd hx (Nat.not_lt.2 this)

/-- A session may be put on a ring. -/
private theorem Intact.put (h : w.Intact srv m₀) {k : Nat} {s : Session} (hs : s.Joined srv w.mem) :
    Intact srv m₀ (w.put k (s, w.mem)) := by
  refine ⟨h.head, h.records, fun k' s' hs' => ?_⟩
  by_cases hk : k' = k
  · simp only [World.put, if_pos hk, Option.some.injEq] at hs'
    rwa [← hs']
  · simp only [World.put, if_neg hk] at hs'
    exact h.joined k' s' hs'

private theorem owner_loose {rings : Rings} {i : Nat} (hi : i < rings.count) (side : ClientSide) (m : Mem)
    (v : UInt32) :
    DifferIn rings.Loose m (m.writeU32 (rings.recordAt i + RingInfo.ownerOffset side) v) :=
  (Mem.frame_writeU32 m _ v).differIn fun _ hx => .inr ⟨i, side, hi, hx⟩

/-- A client that finds the ring joinable writes its owner word. -/
private theorem Intact.join {b : Build} (h : w.Intact srv m₀) (hp : srv.Published cfgs m₀) {k : Nat} {view : Shared}
    {req : RingRequest} (e : World.step b srv w (.join k view req) = some w') : w'.Intact srv m₀ := by
  simp only [World.step] at e
  split at e
  case isFalse => cases e
  rename_i hsize
  rw [Client.new_congr h.head, hp.found b view hsize.2] at e
  simp only at e
  rcases Client.join_cases b ⟨view, srv.rings⟩ req w.mem with ⟨_, he, -⟩ | ⟨r, hr, -, hget, -, -, -, -, hok⟩
  · rw [he] at e; cases e
  · rw [hok] at e
    cases e
    unfold Rings.get at hget
    split at hget
    case isFalse => cases hget
    rename_i hi
    have hinfo := (Option.some.inj hget).symm
    have hd := owner_loose hi req.side w.mem req.tid.asI32.toUInt32
    have hjoined : Session.Joined srv ⟨r, req.index.toNat, .closed, true⟩ w.mem :=
      ⟨⟨hr, fun _ hcell => (by cases hcell)⟩, hi, hinfo⟩
    rw [hinfo]
    exact (h.write hp hd).put (hjoined.of_same (Rings.sameRecords_of_differIn hd))

/-- An operation writes in the footprint of its session. -/
private theorem Intact.act {b : Build} (h : w.Intact srv m₀) (hp : srv.Published cfgs m₀) {k : Nat} {op : Session.Op}
    (e : World.step b srv w (.act k op) = some w') : w'.Intact srv m₀ := by
  simp only [World.step] at e
  split at e
  case h_2 => cases e
  rename_i s hs
  split at e
  case isFalse => cases e
  obtain ⟨⟨s', m'⟩, hop, rfl⟩ := Option.map_eq_some_iff.1 e
  have hj := h.joined k s hs
  obtain ⟨hd, hring, hindex, hcell⟩ := Session.apply_differIn hj.toOk hop
  have hd' := hd.mono fun x hx => hj.footprint_loose hp h.records hx
  have hjoined : s'.Joined srv w.mem :=
    ⟨⟨by rw [hring]; exact hj.checked, by rw [hring]; exact hcell⟩, by rw [hindex]; exact hj.index_lt,
      by rw [hring, hindex]; exact hj.info_eq⟩
  exact (h.write hp hd').put (hjoined.of_same (Rings.sameRecords_of_differIn hd'))

/-- The head of a ring lies behind the records. -/
private theorem Intact.writeHead {b : Build} (h : w.Intact srv m₀) (hp : srv.Published cfgs m₀) {i : Nat}
    {word : HeadWord} {v : UInt32} (e : World.step b srv w (.writeHead i word v) = some w') : w'.Intact srv m₀ := by
  simp only [World.step] at e
  split at e
  case isFalse => cases e
  rename_i hi
  cases e
  refine h.write hp ((Mem.frame_writeU32 _ _ _).differIn fun x hx => .inl ?_)
  have hic : i < cfgs.length := by have := hi.1; rwa [hp.rings] at this
  have hplaced := hp.placed _ _ (List.getElem?_eq_getElem hic)
  have hle := Server.records_le_startOf cfgs i
  rw [(h.records i hi.1).read_eq] at hx
  have hx := hx.1
  simp only [hplaced.head] at hx
  rw [hp.rings]
  exact Nat.le_trans hle (Nat.le_trans (Nat.le_add_right _ _) hx)

/-- One step of the system, of which only the memory and one session change. -/
theorem Intact.step {b : Build} (h : w.Intact srv m₀) (hp : srv.Published cfgs m₀) {a : Act}
    (e : World.step b srv w a = some w') : w'.Intact srv m₀ := by
  cases a with
  | join k view req => exact h.join hp e
  | act k op => exact h.act hp e
  | writeOwner i side v =>
    simp only [World.step] at e
    split at e
    case isFalse => cases e
    rename_i hi
    cases e
    exact h.write hp (owner_loose hi side w.mem v)
  | writeHead i word v => exact h.writeHead hp e

theorem intact_of_run {b : Build} {tr : List Act} (hp : srv.Published cfgs m₀)
    (h : Run (World.step b srv) (init m₀) tr w) : w.Intact srv m₀ :=
  h.invariant (I := fun _ w => w.Intact srv m₀) (intact_init srv m₀) fun _ _ _ _ hi hs => hi.step hp hs

/-! ### Rings are isolated -/

/-- The regions of the ring of a session are apart from each other, from those of another ring, from the head of the
mapping and from the records. -/
structure Separate (srv : Server) (s t : Session) (m : Mem) : Prop where
  own : (s.ring.info m).regions.Pairwise Region.Apart
  other : ∀ r ∈ (s.ring.info m).regions, ∀ r' ∈ (t.ring.info m).regions, r.Apart r'
  head : ∀ r ∈ (s.ring.info m).regions, r.Apart ⟨0, ShmHead.size⟩
  records : ∀ r ∈ (s.ring.info m).regions, r.Apart srv.rings.region

/-- The bytes that a session on one ring should leave alone: the head of the mapping, the records but for its own owner
word, and the regions of another ring. -/
def Foreign (srv : Server) (s t : Session) (m : Mem) (x : Nat) : Prop :=
  x ∈ (⟨0, ShmHead.size⟩ : Region) ∨
    (x ∈ srv.rings.region ∧ x ∉ RingInfo.ownerRegion s.ring.slot.info s.ring.slot.side) ∨
    ∃ r ∈ (t.ring.info m).regions, x ∈ r

private theorem Intact.separate (h : w.Intact srv m₀) (hp : srv.Published cfgs m₀) {k l : Nat} {s t : Session}
    (hs : w.sessions k = some s) (ht : w.sessions l = some t) (hne : s.index ≠ t.index) : Separate srv s t w.mem := by
  have hj := h.joined k s hs
  have hle : ∀ r ∈ (s.ring.info w.mem).regions, srv.rings.start + RingInfo.size * srv.rings.count ≤ r.start :=
    fun r hr => hj.records_le hp h.records hr
  obtain ⟨cfg, -, -, hplaced⟩ := hj.placedAt hp h.records
  refine ⟨hplaced.regions_apart, hj.regions_apart (h.joined l t ht) hp h.records hne, fun r hr => .inr ?_,
    fun r hr => .inr (hle r hr)⟩
  have := hle r hr
  simp only [hp.rings] at this
  simp only
  omega

/-- What a session may write is not foreign to it. -/
private theorem Intact.not_foreign (h : w.Intact srv m₀) (hp : srv.Published cfgs m₀) {k l : Nat} {s t : Session}
    (hs : w.sessions k = some s) (ht : w.sessions l = some t) (hne : s.index ≠ t.index) {x : Nat}
    (hx : s.footprint w.mem x) : ¬ Foreign srv s t w.mem x := by
  have hj := h.joined k s hs
  have hj' := h.joined l t ht
  have hsep := h.separate hp hs ht hne
  rcases hx with ⟨r, hr, hxr⟩ | hown
  · rintro (hhead | ⟨hrec, -⟩ | ⟨r', hr', hxr'⟩)
    · exact (hsep.head r hr).not_mem hxr hhead
    · exact (hsep.records r hr).not_mem hxr hrec
    · exact (hsep.other r hr r' hr').not_mem hxr hxr'
  · have hloose : srv.rings.Loose x := .inr ⟨_, _, hj.index_lt, by rwa [hj.info_eq] at hown⟩
    rintro (hhead | ⟨-, hnot⟩ | ⟨r', hr', hxr'⟩)
    · have hle := hloose.start_le
      rw [hp.rings] at hle
      simp only [Region.mem_iff] at hhead hle
      omega
    · exact hnot hown
    · rw [hj.info_eq] at hown
      have hrec := (Rings.ownerRegion_within hj.index_lt _).mem hown
      exact absurd hxr'.1 (Nat.not_le.2 (Nat.lt_of_lt_of_le hrec.2 (hj'.records_le hp h.records hr')))

/-- The steps of one session. -/
def ByOnly (k : Nat) (tr : List Act) : Prop := ∀ a ∈ tr, ∃ op, a = .act k op

/-- A session on one ring leaves what is foreign to it as it was. -/
private theorem Intact.foreign_eq {b : Build} {w₀ : World} {tr : List Act} (hp : srv.Published cfgs m₀)
    (h₀ : w₀.Intact srv m₀) {k l : Nat} {s t : Session} (hs : w₀.sessions k = some s) (ht : w₀.sessions l = some t)
    (hne : s.index ≠ t.index) (h : Run (World.step b srv) w₀ tr w) (hby : ByOnly k tr) :
    ∀ x, Foreign srv s t w₀.mem x → w.mem x = w₀.mem x := by
  have hkl : l ≠ k := fun h => hne (by rw [h, hs] at ht; rw [Option.some.inj ht])
  -- the session keeps its ring, and the other session does not change at all
  let I : List Act → World → Prop := fun tr w => ByOnly k tr → w.Intact srv m₀ ∧
    (∃ s', w.sessions k = some s' ∧ s'.ring = s.ring ∧ s'.index = s.index) ∧ w.sessions l = some t ∧
    ∀ x, Foreign srv s t w₀.mem x → w.mem x = w₀.mem x
  refine (h.invariant (I := I) (fun _ => ⟨h₀, ⟨s, hs, rfl, rfl⟩, ht, fun _ _ => rfl⟩) ?_ hby).2.2.2
  intro tr w a w' hI e hby'
  obtain ⟨hi, ⟨s', hs', hring, hindex⟩, ht', heq⟩ := hI fun a ha => hby' a (List.mem_append_left _ ha)
  obtain ⟨op, rfl⟩ := hby' a (List.mem_append_right _ (List.mem_singleton.2 rfl))
  have hi' := hi.step hp e
  simp only [World.step, hs'] at e
  split at e
  case isFalse => cases e
  obtain ⟨⟨s'', m'⟩, hop, rfl⟩ := Option.map_eq_some_iff.1 e
  obtain ⟨hd, hring', hindex', -⟩ := Session.apply_differIn (hi.joined k s' hs').toOk hop
  refine ⟨hi', ⟨s'', if_pos rfl, hring'.trans hring, hindex'.trans hindex⟩, by simp only [World.put, if_neg hkl, ht'],
    fun x hx => ?_⟩
  rw [← heq x hx]
  refine hd x fun hfoot => ?_
  -- what is foreign is so in the memory as it now is
  have hregions : (t.ring.info w.mem).regions = (t.ring.info w₀.mem).regions := by
    have hj := h₀.joined l t ht
    have hplaced := (hj.info_eq ▸ hi.records _ hj.index_lt).read_eq
    have hplaced₀ := (hj.info_eq ▸ h₀.records _ hj.index_lt).read_eq
    rw [Ring.info, hplaced, Ring.info, hplaced₀]
    rfl
  refine hi.not_foreign hp hs' ht' (by rw [hindex]; exact hne) hfoot ?_
  simp only [Foreign, hring, hregions] at hx ⊢
  exact hx

/-- Rings of different indices that clients have joined are isolated: their regions are apart, and whatever is done
through one of them leaves the other, the head of the mapping and the records as they were. -/
theorem isolated_of_run {b b' : Build} {ring : Shared} {cfgs : List RingConfig} {m : Mem} {srv : Server}
    {tr : List Act} {w : World} (h : (Server.new b ring cfgs m).1 = .ok srv)
    (hrun : Run (World.step b' srv) (init (Server.new b ring cfgs m).2) tr w) {k l : Nat} {s t : Session}
    (hs : w.sessions k = some s) (ht : w.sessions l = some t) (hne : s.index ≠ t.index) :
    Separate srv s t w.mem ∧
      ∀ tr' w', Run (World.step b' srv) w tr' w' → ByOnly k tr' →
        ∀ x, Foreign srv s t w.mem x → w'.mem x = w.mem x := by
  have hp := Server.published_of_new h
  have hi := intact_of_run hp hrun
  exact ⟨hi.separate hp hs ht hne, fun tr' w' hrun' hby => hi.foreign_eq hp hs ht hne hrun' hby⟩

/-! ### Two joined rings -/

/-- A client that passes the checks takes a slot that is available. -/
private theorem Intact.step_join (h : w.Intact srv m₀) (hp : srv.Published cfgs m₀) (b : Build) (k : Nat)
    (view : Shared) (req : RingRequest) (hk : w.sessions k = none) (hsize : view.size = srv.ring.size)
    (hi : req.index.toNat < srv.rings.count)
    (hj : Client.Joinable view (RingInfo.read w.mem (srv.rings.recordAt req.index.toNat))) (hv : req.tid.Valid)
    (ha : slotClass ((RingInfo.read w.mem (srv.rings.recordAt req.index.toNat)).selectSlot req.side) = .available) :
    ∃ s : Session, s.index = req.index.toNat ∧ World.step b srv w (.join k view req) =
      some (w.put k (s, w.mem.writeU32 (srv.rings.recordAt req.index.toNat + RingInfo.ownerOffset req.side)
        req.tid.asI32.toUInt32)) := by
  have hnew : Client.new b view w.mem = .ok ⟨view, srv.rings⟩ := by
    rw [Client.new_congr h.head, hp.found b view hsize]
  obtain ⟨r, hr⟩ := Client.join_of_available (b := b) (c := ⟨view, srv.rings⟩) hi hj hv ha
  rcases Client.join_cases b ⟨view, srv.rings⟩ req w.mem with ⟨_, he, -⟩ | ⟨r', -, -, hget, -, -, -, -, hok⟩
  · rw [he] at hr; cases hr
  · rw [Rings.get, if_pos hi] at hget
    refine ⟨⟨r', req.index.toNat, .closed, true⟩, rfl, ?_⟩
    simp only [World.step, hk, hsize, Option.isNone_none, and_self, if_true, hnew, hok]
    rw [← Option.some.inj hget]

/-- A mapping of six pages. -/
def sixPages : Shared where
  base := 0x40000
  size := 24576
  size_lt := by decide
  end_lt := by decide
  tailAddr := 0x40020
  tailSize := 24544
  weakCount := 0
  aligned := by decide
  tailAddr_eq := by decide
  tailSize_eq := by decide

/-- Two rings of one entry of eight bytes each. -/
def twoRings : List RingConfig := [⟨8, 0, 8, -1, -1⟩, ⟨8, 0, 8, -1, -1⟩]

theorem twoRings_new :
    (Server.new .release sixPages twoRings (fun _ => 0)).1 = .ok ⟨sixPages, ⟨ShmHead.size, 2⟩⟩ :=
  Server.new_release.2 ⟨rfl, by decide, rfl⟩

/-- The records of the two rings, and that they can be joined. -/
private theorem twoRings_record {i : Nat} (hi : i < 2) {m : Mem}
    (hs : RingInfo.SameFields (ShmHead.size + RingInfo.size * i)
      (Server.new .release sixPages twoRings (fun _ => 0)).2 m) :
    Client.Joinable sixPages (RingInfo.read m (ShmHead.size + RingInfo.size * i)) ∧
      (RingInfo.read (Server.new .release sixPages twoRings (fun _ => 0)).2
        (ShmHead.size + RingInfo.size * i)).lhs = 0xffffffff := by
  have hp := Server.published_of_new twoRings_new
  have hc : twoRings[i]? = some ⟨8, 0, 8, -1, -1⟩ := by
    rcases i with _ | _ | i
    · rfl
    · rfl
    · omega
  have hlayout := Server.getElem?_layout (fun _ => 0) hc
  rw [← Server.new_release_read twoRings_new,
    Rings.getElem?_read (show i < (⟨ShmHead.size, 2⟩ : Rings).count from hi)] at hlayout
  constructor
  · rw [hs.read_eq]
    refine ((hp.placed i _ hc).joinable (by decide) (by decide) (Server.dvd_startOf _ _) ?_ ?_ ?_ ?_).owners _ _
    all_goals
      rcases i with _ | _ | i
      · decide
      · decide
      · omega
  · rw [Rings.recordAt] at hlayout
    rw [Option.some.inj hlayout]
    rfl

/-- Two clients join the two rings. -/
theorem twoRings_run :
    ∃ tr w s t, Run (World.step .debug ⟨sixPages, ⟨ShmHead.size, 2⟩⟩)
        (init (Server.new .release sixPages twoRings (fun _ => 0)).2) tr w ∧
      w.sessions 0 = some s ∧ w.sessions 1 = some t ∧ s.index = 0 ∧ t.index = 1 := by
  have hp := Server.published_of_new twoRings_new
  revert hp
  generalize hm : (Server.new .release sixPages twoRings (fun _ => 0)).2 = m₀
  intro hp
  have h₀ := intact_init ⟨sixPages, ⟨ShmHead.size, 2⟩⟩ m₀
  obtain ⟨hj, hl⟩ := twoRings_record (i := 0) (by decide) (m := m₀) (by rw [hm]; exact fun _ _ => rfl)
  rw [hm] at hl
  obtain ⟨s, hs, hstep⟩ := h₀.step_join hp .debug 0 sixPages ⟨0, .left, ⟨1⟩⟩ rfl rfl (by decide)
    hj (by decide) (by rw [RingInfo.selectSlot]; exact (congrArg slotClass hl).trans (by decide))
  have hrun := Run.nil.snoc hstep
  have h₁ := h₀.step hp hstep
  obtain ⟨hj', hl'⟩ := twoRings_record (i := 1) (by decide) (by rw [hm]; exact h₁.records 1 (by decide))
  rw [hm] at hl'
  -- the first join does not touch the second record
  have hread := RingInfo.read_frame (m := m₀) (a := ShmHead.size + RingInfo.size * 1)
    (Mem.frame_writeU32 m₀ ((⟨ShmHead.size, 2⟩ : Rings).recordAt (0 : UInt64).toNat + RingInfo.ownerOffset .left)
      (⟨1⟩ : ClientIdentifier).asI32.toUInt32) (.inr (by decide))
  obtain ⟨t, ht, hstep'⟩ := h₁.step_join hp .debug 1 sixPages ⟨1, .left, ⟨2⟩⟩ rfl rfl
    (by decide) hj' (by decide) (by
      simp only [RingInfo.selectSlot, World.put]
      exact (congrArg slotClass ((congrArg RingInfo.lhs hread).trans hl')).trans (by decide))
  exact ⟨_, _, s, t, hrun.snoc hstep', rfl, rfl, hs, ht⟩

theorem isolated_of_run_twoRings :
    ∃ w s t, w.sessions 0 = some s ∧ w.sessions 1 = some t ∧ Separate ⟨sixPages, ⟨ShmHead.size, 2⟩⟩ s t w.mem ∧
      ∀ tr' w', Run (World.step .debug ⟨sixPages, ⟨ShmHead.size, 2⟩⟩) w tr' w' → ByOnly 0 tr' →
        ∀ x, Foreign ⟨sixPages, ⟨ShmHead.size, 2⟩⟩ s t w.mem x → w'.mem x = w.mem x := by
  obtain ⟨tr, w, s, t, hrun, hs, ht, hi, hi'⟩ := twoRings_run
  obtain ⟨hsep, hforeign⟩ := isolated_of_run twoRings_new hrun hs ht (by rw [hi, hi']; decide)
  exact ⟨w, s, t, hs, ht, hsep, hforeign⟩

end World

end ShmRing
