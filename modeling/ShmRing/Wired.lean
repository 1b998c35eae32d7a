import ShmRing.Delivery
import ShmRing.Isolation

/-!
# Rings of bytes

The references of a joined ring, in the memory of bytes.  Both sides see the same words and slots, whatever the
addresses of their mappings, and these do not overlap, so that what holds of handles on any memory holds of theirs
(`Session.Joined.delivers`).
-/

namespace ShmRing

open Machine Bytes Transition

namespace RingInfo

/-- The words and slots that a record names. -/
def port (info : RingInfo) (N : Nat) : Port Mem (Vector UInt8 N) where
  load w m := m.readU32 (info.offsetHead.toNat + w.offset)
  store w v m := m.writeU32 (info.offsetHead.toNat + w.offset) v
  get i m := m.readBytes (info.offsetRing.toNat + i * N) N
  set i data m := m.writeBytes (info.offsetRing.toNat + i * N) data.toList
  len := info.sizeRing.toNat / N

theorem slot_within (info : RingInfo) {N i : Nat} (hi : i < info.sizeRing.toNat / N) :
    Region.Within ⟨info.offsetRing.toNat + i * N, N⟩ info.ringRegion := by
  have hmul : (i + 1) * N ≤ info.sizeRing.toNat :=
    Nat.le_trans (Nat.mul_le_mul_right N (Nat.succ_le_of_lt hi)) (Nat.div_mul_le_self _ _)
  rw [Nat.succ_mul] at hmul
  simp only [Region.Within, ringRegion]
  omega

theorem word_within (info : RingInfo) (w : HeadWord) :
    Region.Within ⟨info.offsetHead.toNat + w.offset, 4⟩ info.headRegion := by
  have hw := RingHead.offset_le w
  simp only [Region.Within, headRegion, RingHead.size] at hw ⊢
  omega

/-- The references do not overlap if the head and the slots do not. -/
def lawfulPort (info : RingInfo) (N : Nat) (h : info.headRegion.Apart info.ringRegion) :
    LawfulPort Mem (Vector UInt8 N) where
  toPort := info.port N
  load_store w w' v m := by
    by_cases hw : w' = w
    · subst hw
      simp only [port, Mem.readU32_writeU32, if_true]
    · have hne := RingHead.offset_apart hw
      simp only [port, if_neg hw]
      exact Mem.readU32_writeU32_of_apart m v (by omega)
  get_store i w v m hi :=
    Mem.readBytes_frame (Mem.frame_writeU32 m _ v)
      ((h.within (info.word_within w)).symm.within (info.slot_within hi))
  load_set w i data m hi := by
    refine Mem.readU32_frame (Mem.frame_writeBytes m _ data.toList) ?_
    rw [Vector.length_toList]
    exact (h.symm.within (info.slot_within hi)).symm.within (info.word_within w)
  get_set i j data m hi hj := by
    by_cases hij : j = i
    · subst hij
      simp only [port, if_true, Mem.readBytes_writeBytes]
    · simp only [port, if_neg hij]
      refine Mem.readBytes_frame (Mem.frame_writeBytes m _ data.toList) ?_
      rw [Vector.length_toList]
      rcases Nat.lt_or_gt_of_ne hij with hlt | hgt
      · have := Nat.mul_le_mul_right N (Nat.succ_le_of_lt hlt)
        rw [Nat.succ_mul] at this
        exact .inl (by simp only; omega)
      · have := Nat.mul_le_mul_right N (Nat.succ_le_of_lt hgt)
        rw [Nat.succ_mul] at this
        exact .inr (by simp only; omega)

end RingInfo

/-- The references of a handle are those that the record names, on either side. -/
theorem Ring.Checked.port_eq {r : Ring} {m : Mem} (h : r.Checked m) (N : Nat) :
    r.port ⟨r.ring.base + (r.info m).offsetRing, (r.info m).sizeRing⟩ N = (r.info m).port N := by
  have hhead := h.pos_head
  have hring := r.ring.pos_base_add (r.info m).offsetRing (by have := h.joinable.slots.end_le; omega)
  unfold Ring.port Ring.load Ring.store Ring.wordAt RingInfo.port
  simp only [hhead, hring]

namespace Session

variable {srv : Server} {cfgs : List RingConfig} {s : Session} {m₀ m : Mem}

theorem Joined.head_apart (h : s.Joined srv m) (hp : srv.Published cfgs m₀) (hs : srv.rings.SameRecords m₀ m) :
    (s.ring.info m).headRegion.Apart (s.ring.info m).ringRegion := by
  obtain ⟨cfg, -, -, hplaced⟩ := h.placedAt hp hs
  have hpair := hplaced.regions_apart
  rw [RingInfo.regions, List.pairwise_cons] at hpair
  exact hpair.1 _ (.head _)

/-- What the two sides of a joined ring have in common. -/
def ctx (b : Build) (s : Session) (m : Mem) (N : Nat)
    (h : (s.ring.info m).headRegion.Apart (s.ring.info m).ringRegion) : Duplex.Ctx Mem (Vector UInt8 N) where
  build := b
  info := s.ring.info m
  entry := N
  port := (s.ring.info m).lawfulPort N h
  len_eq := rfl

theorem Joined.fits (h : s.Joined srv m) (hp : srv.Published cfgs m₀) (hs : srv.rings.SameRecords m₀ m) (b : Build)
    {N : Nat} (hN : N = (s.ring.info m).sizeSlotEntry.toNat) : (s.ctx b m N (h.head_apart hp hs)).Fits := by
  obtain ⟨cfg, -, hv, hplaced⟩ := h.placedAt hp hs
  refine ⟨hN, ?_⟩
  simp only [Duplex.Ctx.count, ctx, hplaced.sizeRing, hplaced.sizeSlotEntry]
  exact hv.count_pow

/-- One direction of a joined ring, used alone by handles of its entry size that stay open, delivers in order. -/
theorem Joined.delivers (h : s.Joined srv m) (hp : srv.Published cfgs m₀) (hs : srv.rings.SameRecords m₀ m) {b : Build}
    {N : Nat} (hN : N = (s.ring.info m).sizeSlotEntry.toNat) {d : ClientSide}
    {tr : List (Duplex.Event (Vector UInt8 N))} {st : Duplex.State Mem (Vector UInt8 N)}
    (hm : Duplex.Reset (s.ctx b m N (h.head_apart hp hs)) m)
    (hrun : Run (Duplex.step (s.ctx b m N (h.head_apart hp hs))) (Duplex.init m) tr st)
    (hk : ∀ e ∈ tr, Duplex.Kept d e) : Duplex.Delivers (s.ctx b m N (h.head_apart hp hs)) d tr st :=
  Duplex.delivers_of_kept (h.fits hp hs b hN) hm hrun hk

end Session

end ShmRing
