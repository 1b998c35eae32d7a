import ShmRing.Isolation
import ShmRing.Ownership

/-!
# A server that was started

What `Server::new` leaves of the memory it is given: the head, the records and nothing else.  An owner word is that of
the configuration if it advertises a side, and else what was there; the heads of the rings are what was there.  So on
zeroed memory the system of the server and its clients starts as `Authority.init` says (`init_of_new`), and on other
memory only if the words that are left alone are zero (`initialised_iff`).
-/

namespace ShmRing

open Machine Bytes

namespace Server

variable {b : Build} {ring : Shared} {cfgs : List RingConfig} {m : Mem} {srv : Server} {i : Nat} {cfg : RingConfig}

private theorem new_owner (h : (new b ring cfgs m).1 = .ok srv) (hc : cfgs[i]? = some cfg) (side : ClientSide) :
    (RingInfo.read (new b ring cfgs m).2 (srv.rings.recordAt i)).selectSlot side =
      if cfg.id side < 0 then (cfg.id side).toUInt32
      else (RingInfo.read m (srv.rings.recordAt i)).selectSlot side := by
  obtain ⟨-, hread, hrings, -⟩ := new_published b ring h rfl
  have hlt : i < srv.rings.count := by rw [hrings]; exact (List.getElem?_eq_some_iff.1 hc).1
  have hi := getElem?_layout m hc
  rw [← hread, Rings.getElem?_read hlt] at hi
  rw [Option.some.inj hi, hrings]
  cases side <;> rfl

/-- Behind the records nothing is written. -/
private theorem new_frame (h : (new b ring cfgs m).1 = .ok srv) :
    Region.Frame ⟨0, ShmHead.size + RingInfo.size * cfgs.length⟩ m (new b ring cfgs m).2 := by
  have hb := new_of_ok h
  rw [hb] at h ⊢
  rw [new_release_mem h]
  have hlen : (layout cfgs m).length = cfgs.length := by rw [layout, length_records, Rings.length_read]
  have hrecords := Rings.frame_writeFrom m ShmHead.size (layout cfgs m)
  rw [hlen] at hrecords
  refine (hrecords.mono ?_).trans ((ShmHead.frame_write _ _).mono ?_)
  all_goals simp only [Region.Within]; omega

private theorem new_head (h : (new b ring cfgs m).1 = .ok srv) (hc : cfgs[i]? = some cfg) (w : HeadWord) :
    let info := RingInfo.read (new b ring cfgs m).2 (srv.rings.recordAt i)
    (new b ring cfgs m).2.readU32 (info.offsetHead.toNat + w.offset) =
      m.readU32 (info.offsetHead.toNat + w.offset) := by
  intro info
  rw [((published_of_new h).placed i cfg hc).head]
  refine Mem.readU32_frame (new_frame h) (.inr ?_)
  have := records_le_startOf cfgs i
  simp only [ShmHead.size] at this ⊢
  omega

/-- The system of the server and its clients starts with the memory that the server leaves. -/
theorem init_of_new (h : (new b ring cfgs fun _ => 0).1 = .ok srv) (hlt : i < cfgs.length) :
    let m := (new b ring cfgs fun _ => 0).2
    let info := RingInfo.read m (srv.rings.recordAt i)
    (∀ side, info.selectSlot side = ((Authority.init cfgs).ring i).owner side) ∧
      ∀ w, m.readU32 (info.offsetHead.toNat + w.offset) = ((Authority.init cfgs).ring i).head.load w := by
  have hc := List.getElem?_eq_getElem hlt
  refine ⟨fun side => ?_, fun w => ?_⟩
  · rw [new_owner h hc]
    simp only [Authority.init, hc, Option.elim_some, RingConfig.advertised]
    cases side <;> rfl
  · rw [new_head h hc]
    exact (RingHead.load_zero w).symm

/-! ### Memory that was used before -/

/-- What `bring_up` establishes of a ring that it resets, and a start should establish of all: the owner words are
those of the configuration, zero where it advertises nothing, and all words of the head are zero. -/
structure Initialised (srv : Server) (cfgs : List RingConfig) (m : Mem) : Prop where
  owner : ∀ i cfg side, cfgs[i]? = some cfg →
    (RingInfo.read m (srv.rings.recordAt i)).selectSlot side = cfg.advertised side
  head : ∀ i cfg (w : HeadWord), cfgs[i]? = some cfg →
    m.readU32 ((RingInfo.read m (srv.rings.recordAt i)).offsetHead.toNat + w.offset) = 0

/-- The words that `new` leaves alone are zero beforehand: the owner words of sides that are not advertised, and the
heads. -/
structure Blank (cfgs : List RingConfig) (m : Mem) : Prop where
  owner : ∀ i cfg side, cfgs[i]? = some cfg → ¬ cfg.id side < 0 →
    (RingInfo.read m (Rings.recordAt ⟨ShmHead.size, cfgs.length⟩ i)).selectSlot side = 0
  head : ∀ i cfg (w : HeadWord), cfgs[i]? = some cfg → m.readU32 (startOf cfgs i + w.offset) = 0

/-- A start initialises the shared state exactly when there is nothing to initialise in the words it leaves alone. -/
theorem initialised_iff (h : (new b ring cfgs m).1 = .ok srv) :
    srv.Initialised cfgs (new b ring cfgs m).2 ↔ Blank cfgs m := by
  have hp := published_of_new h
  have hhead : ∀ i cfg (w : HeadWord), cfgs[i]? = some cfg →
      (new b ring cfgs m).2.readU32
          ((RingInfo.read (new b ring cfgs m).2 (srv.rings.recordAt i)).offsetHead.toNat + w.offset) =
        m.readU32 (startOf cfgs i + w.offset) := by
    intro i cfg w hc
    rw [← (hp.placed i cfg hc).head]
    exact new_head h hc w
  constructor
  · intro hi
    refine ⟨fun i cfg side hc hid => ?_, fun i cfg w hc => ?_⟩
    · have howner := hi.owner i cfg side hc
      rw [new_owner h hc, if_neg hid, hp.rings, RingConfig.advertised, if_neg hid] at howner
      exact howner
    · rw [← hhead i cfg w hc]
      exact hi.head i cfg w hc
  · intro hb
    refine ⟨fun i cfg side hc => ?_, fun i cfg w hc => (hhead i cfg w hc).trans (hb.head i cfg w hc)⟩
    rw [new_owner h hc, RingConfig.advertised]
    split
    · rfl
    · rw [hp.rings]
      exact hb.owner i cfg side hc (by assumption)

/-- A ring of which only the left side is advertised. -/
def leftOnly : RingConfig := ⟨8, 0, 8, 0, -1⟩

/-- Left by an earlier server: a client has the right side, and the left producer has got to 7. -/
def usedMem : Mem := (Mem.writeU32 (fun _ => 0) (ShmHead.size + RingInfo.ownerOffset .right) 5).writeU32 8192 7

private theorem leftOnly_new (m : Mem) :
    (new .release fourPages [leftOnly] m).1 = .ok ⟨fourPages, ⟨ShmHead.size, 1⟩⟩ :=
  new_release.2 ⟨rfl, by decide, rfl⟩

theorem initialised_iff_leftOnly :
    Initialised ⟨fourPages, ⟨ShmHead.size, 1⟩⟩ [leftOnly] (new .release fourPages [leftOnly] fun _ => 0).2 :=
  (initialised_iff (leftOnly_new _)).2 ⟨fun _ _ side _ _ => by cases side <;> rfl, fun _ _ _ _ => rfl⟩

/-- The client and the counter of the earlier server are still there when a ring in the same place was started. -/
theorem not_initialised :
    ∃ srv, (new .release fourPages [leftOnly] usedMem).1 = .ok srv ∧ FitsMapping fourPages [leftOnly] usedMem ∧
      ¬ srv.Initialised [leftOnly] (new .release fourPages [leftOnly] usedMem).2 := by
  have hc : [leftOnly][0]? = some leftOnly := rfl
  have hfits : Fits fourPages.size.toNat [leftOnly] := by
    intro i cfg h
    rcases i with _ | i
    · cases h
      decide
    · cases h
  refine ⟨_, leftOnly_new _, Fits.fitsMapping fun _ _ => hfits, fun hi => ?_⟩
  have howner := hi.owner 0 _ .right hc
  rw [new_owner (leftOnly_new _) hc] at howner
  exact absurd howner (by decide)

end Server

end ShmRing
