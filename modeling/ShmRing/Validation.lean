import ShmRing.Client

/-!
# What a client's checks establish

Whatever is found in the memory, `Client::new` and `Client::join` compute without overflow, and what they accept lies
in the mapping behind its head and is aligned.  As long as the fields of the record stay as they were, the slices that
later operations cut from the mapping are those that were checked.
-/

namespace ShmRing

open Machine Bytes

/-! ### `Client::new` -/

namespace Client

/-- `Client::new` in closed form; no build mode makes a difference. -/
theorem new_eq (b : Build) (ring : Shared) (m : Mem) :
    Client.new b ring m =
      let head := ShmHead.read m
      if head.ringMagic ≠ ShmHead.magic then .error (.inr .badMagic)
      else if ring.tailSize.toNat < head.ringOffset.toNat then .error (.inr .tooSmall)
      else if ¬ 8 ∣ ring.base.toNat + ShmHead.size + head.ringOffset.toNat then .error (.inr .unalignedMap)
      else if ring.tailSize.toNat < head.ringOffset.toNat + RingInfo.size * head.ringCount.toNat then
        .error (.inr .tooSmall)
      else .ok ⟨ring, ⟨ShmHead.size + head.ringOffset.toNat, head.ringCount.toNat⟩⟩ := by
  have htail := ring.tailAddr_eq
  have hsize := ring.tailSize_eq
  have hend := ring.end_lt
  simp only [ShmHead.size] at htail hsize
  simp only [Client.new, Shared.readHead, ShmHead.size]
  generalize ShmHead.read m = head
  by_cases h₁ : head.ringMagic = ShmHead.magic
  · simp only [h₁, ne_eq, not_true, if_true, if_false, checkedSub, UInt64.le_iff_toNat_le]
    by_cases h₂ : head.ringOffset.toNat ≤ ring.tailSize.toNat
    · have hsub : (ring.tailSize - head.ringOffset).toNat = ring.tailSize.toNat - head.ringOffset.toNat :=
        UInt64.toNat_sub_of_le _ _ (UInt64.le_iff_toNat_le.2 h₂)
      have hadd : (ring.tailAddr + head.ringOffset).toNat = ring.base.toNat + 32 + head.ringOffset.toNat := by
        rw [UInt64.toNat_add, htail, Nat.mod_eq_of_lt (by omega)]
      have hpos : ring.pos (ring.tailAddr + head.ringOffset) = 32 + head.ringOffset.toNat := by
        rw [Shared.pos, hadd]; omega
      have hdiv : ((ring.tailSize - head.ringOffset) / UInt64.ofNat 768).toNat =
          (ring.tailSize.toNat - head.ringOffset.toNat) / 768 := by
        rw [UInt64.toNat_div, hsub]; rfl
      have halign : alignUp (ring.tailAddr + head.ringOffset) 8 = 0 ↔
          8 ∣ ring.base.toNat + 32 + head.ringOffset.toNat := by
        rw [alignUp_eq_zero ⟨3, rfl⟩, hadd]; rfl
      simp only [h₂, Nat.not_lt.2 h₂, if_true, if_false, b.add_of_lt (x := ring.tailAddr) (y := head.ringOffset)
        (by omega), liftM_ok, bind, Except.bind, pure, Except.pure, hpos, UInt64.lt_iff_toNat_lt, hdiv, halign,
        RingInfo.size]
      by_cases h₃ : 8 ∣ ring.base.toNat + 32 + head.ringOffset.toNat
      · have hcount : (ring.tailSize.toNat - head.ringOffset.toNat) / 768 < head.ringCount.toNat ↔
            ring.tailSize.toNat < head.ringOffset.toNat + 768 * head.ringCount.toNat := by omega
        simp only [h₃, not_true, if_false]
        exact ite_congr (propext hcount) (fun _ => rfl) (fun _ => rfl)
      · simp only [h₃, not_false_eq_true, if_true]
        rfl
    · simp only [h₂, Nat.lt_of_not_le h₂, if_true, if_false]
      rfl
  · simp only [h₁, ne_eq, not_false_eq_true, if_true, if_false]
    rfl

/-! ### The checks of `Client::join` -/

/-- What `join` asks of a record, in a mapping at its address. -/
structure Joinable (ring : Shared) (info : RingInfo) : Prop where
  version : info.version = 1
  head : ring.Accepts info.offsetHead RingHead.size 8
  entry_pow : info.sizeSlotEntry.toNat.isPowerOfTwo
  ring_le : info.sizeRing.toNat + info.sizeSlotEntry.toNat ≤ 2 ^ 63
  slots : ring.Accepts info.offsetRing info.sizeRing.toNat info.sizeSlotEntry.toNat
  data : ring.Accepts info.offsetData info.sizeData.toNat 1

theorem Joinable.owners {ring : Shared} {info : RingInfo} (h : Joinable ring info) (lhs rhs : UInt32) :
    Joinable ring { info with lhs, rhs } :=
  ⟨h.version, h.head, h.entry_pow, h.ring_le, h.slots, h.data⟩

/-- The checks of `join` either fail with an error or find the ring to be joinable. -/
theorem check_cases (b : Build) (c : Client) (index : UInt64) (m : Mem) :
    (∃ e, c.check b index m = .error (.inr e) ∧
      (index.toNat < c.rings.count → ¬ Joinable c.ring (RingInfo.read m (c.rings.recordAt index.toNat)))) ∨
    (index.toNat < c.rings.count ∧ Joinable c.ring (RingInfo.read m (c.rings.recordAt index.toNat)) ∧
      c.check b index m = .ok (c.rings.recordAt index.toNat,
        c.ring.base + (RingInfo.read m (c.rings.recordAt index.toNat)).offsetHead)) := by
  unfold check Rings.get specAsLayout
  by_cases hi : index.toNat < c.rings.count
  case neg =>
    simp only [hi, if_false]
    exact .inl ⟨_, rfl, fun h => (by cases h)⟩
  simp only [hi, if_true, Shared.getAlignedDataAtOffsetVal_eq, forall_const, true_and]
  generalize RingInfo.read m (c.rings.recordAt index.toNat) = info
  by_cases hv : info.version = 1
  case neg =>
    simp only [hv, ne_eq, not_false_eq_true, if_true]
    exact .inl ⟨_, rfl, fun h => hv h.version⟩
  simp only [hv, ne_eq, not_true, if_false]
  by_cases hh : c.ring.Accepts info.offsetHead RingHead.size 8
  case neg =>
    rw [if_neg (show ¬ c.ring.Accepts info.offsetHead Layout.ringHead.size.toNat Layout.ringHead.align.toNat from hh)]
    exact .inl ⟨_, rfl, fun h => hh h.head⟩
  rw [if_pos (show c.ring.Accepts info.offsetHead Layout.ringHead.size.toNat Layout.ringHead.align.toNat from hh)]
  -- a layout can be made for the slots, and they have a place
  rcases Layout.fromSizeAlign_cases info.sizeRing info.sizeSlotEntry with ⟨hl, hn⟩ | ⟨l, hl, hsize, halign⟩
  · rw [hl]
    exact .inl ⟨_, rfl, fun h => hn ⟨h.entry_pow, h.ring_le⟩⟩
  rw [hl]
  by_cases hs : c.ring.Accepts info.offsetRing l.size.toNat l.align.toNat
  case neg =>
    simp only [if_neg hs]
    exact .inl ⟨_, rfl, fun h => hs (by rw [hsize, halign]; exact h.slots)⟩
  have hpow : info.sizeSlotEntry.toNat.isPowerOfTwo := by
    rw [← halign]; exact l.align_pow
  have hle : info.sizeRing.toNat + info.sizeSlotEntry.toNat ≤ 2 ^ 63 := by
    rw [← hsize, ← halign]; exact l.size_le
  rw [hsize, halign] at hs
  -- for the data no layout fails that fits the mapping
  rcases Layout.fromSizeAlign_cases info.sizeData 1 with ⟨hd, hn⟩ | ⟨d, hd, hdsize, hdalign⟩
  · refine .inl ⟨.badRingOffsetRing, ?_, fun h => hn ⟨⟨0, rfl⟩, ?_⟩⟩
    · simp only [hsize, halign, if_pos hs, hd]; rfl
    · have hend := h.data.end_le
      have hlt := c.ring.size_lt
      change _ + 1 ≤ _
      omega
  by_cases hdata : c.ring.Accepts info.offsetData info.sizeData.toNat 1
  · refine .inr ⟨⟨hv, hh, hpow, hle, hs, hdata⟩, ?_⟩
    simp only [hsize, halign, if_pos hs, hd, hdsize, hdalign]
    rw [if_pos (show c.ring.Accepts info.offsetData info.sizeData.toNat (UInt64.toNat 1) from hdata)]
    rfl
  · refine .inl ⟨.badRingOffsetRing, ?_, fun h => hdata h.data⟩
    simp only [hsize, halign, if_pos hs, hd, hdsize, hdalign]
    rw [if_neg (show ¬ c.ring.Accepts info.offsetData info.sizeData.toNat (UInt64.toNat 1) from hdata)]
    rfl

theorem check_of_joinable {b : Build} {c : Client} {index : UInt64} {m : Mem} (hi : index.toNat < c.rings.count)
    (h : Joinable c.ring (RingInfo.read m (c.rings.recordAt index.toNat))) :
    c.check b index m = .ok (c.rings.recordAt index.toNat,
      c.ring.base + (RingInfo.read m (c.rings.recordAt index.toNat)).offsetHead) := by
  rcases check_cases b c index m with ⟨e, -, hn⟩ | ⟨-, -, hok⟩
  · exact absurd h (hn hi)
  · exact hok

end Client

/-! ### Slices -/

private theorem splitCell_eq (b : Build) (cell : Cell) (start : UInt64)
    (h : cell.addr.toNat + cell.len.toNat < 2 ^ 64) : splitCell b cell start =
      .ok (if start ≤ cell.len then some (⟨cell.addr, start⟩, ⟨cell.addr + start, cell.len - start⟩) else none) := by
  unfold splitCell checkedSub
  by_cases hs : start ≤ cell.len
  · have hs' := UInt64.le_iff_toNat_le.1 hs
    simp only [hs, if_true, b.add_of_lt (x := cell.addr) (y := start) (by omega)]
    rfl
  · simp only [hs, if_false]
    rfl

/-- What `slice_cell` cuts out. -/
private theorem sliceCell_eq (b : Build) (cell : Cell) (offset length : UInt64)
    (h : cell.addr.toNat + cell.len.toNat < 2 ^ 64) :
    sliceCell b cell offset length =
      .ok (if offset.toNat + length.toNat ≤ cell.len.toNat then some ⟨cell.addr + offset, length⟩ else none) := by
  unfold sliceCell
  rw [splitCell_eq b cell offset h]
  by_cases ho : offset ≤ cell.len
  · have ho' := UInt64.le_iff_toNat_le.1 ho
    have hsub : (cell.len - offset).toNat = cell.len.toNat - offset.toNat := UInt64.toNat_sub_of_le _ _ ho
    have hadd : (cell.addr + offset).toNat = cell.addr.toNat + offset.toNat := by
      rw [UInt64.toNat_add, Nat.mod_eq_of_lt (by omega)]
    have hle : length ≤ cell.len - offset ↔ offset.toNat + length.toNat ≤ cell.len.toNat := by
      rw [UInt64.le_iff_toNat_le, hsub]; omega
    simp only [if_pos ho, bind, Except.bind]
    rw [splitCell_eq b ⟨cell.addr + offset, cell.len - offset⟩ length (by simp only [hadd, hsub]; omega)]
    by_cases hl : offset.toNat + length.toNat ≤ cell.len.toNat
    · simp only [hle, if_pos hl]; rfl
    · simp only [hle, if_neg hl]; rfl
  · rw [UInt64.le_iff_toNat_le] at ho
    have hn : ¬ offset.toNat + length.toNat ≤ cell.len.toNat := by omega
    simp only [UInt64.le_iff_toNat_le, if_neg ho, if_neg hn]
    rfl

/-! ### What a joined ring can rely on -/

namespace Ring

/-- The record was found to be joinable, and the ring refers to the head that the record names. -/
structure Checked (r : Ring) (m : Mem) : Prop where
  joinable : Client.Joinable r.ring (r.info m)
  head_eq : r.slot.head = r.ring.base + (r.info m).offsetHead

theorem Checked.of_same {r : Ring} {m m' : Mem} (h : r.Checked m) (hs : RingInfo.SameFields r.slot.info m m') :
    r.Checked m' := by
  constructor
  · rw [info, hs.read_eq]
    exact h.joinable.owners _ _
  · rw [info, hs.read_eq]
    exact h.head_eq

theorem Checked.borrowMap {r : Ring} {m : Mem} (h : r.Checked m) (b : Build) :
    r.borrowMap b m = .ok (some ⟨r.ring.base + (r.info m).offsetRing, (r.info m).sizeRing⟩) := by
  rw [Ring.borrowMap, sliceCell_eq _ _ _ _ r.ring.end_lt, borrowAll, if_pos h.joinable.slots.end_le]

private theorem Checked.borrowData {r : Ring} {m : Mem} (h : r.Checked m) (b : Build) :
    r.borrowData b m = .ok ⟨r.ring.base + (r.info m).offsetData, (r.info m).sizeData⟩ := by
  rw [Ring.borrowData, sliceCell_eq _ _ _ _ r.ring.end_lt, borrowAll, if_pos h.joinable.data.end_le]
  rfl

/-- The portion of the data, or a panic. -/
private theorem Checked.portion {r : Ring} {m : Mem} (h : r.Checked m) (b : Build) {len : Nat} (hlen : len < 2 ^ 63)
    (start : UInt64) :
    r.portion b len start m =
      if start.toNat + len ≤ (r.info m).sizeData.toNat then
        .ok ⟨r.ring.base + (r.info m).offsetData + start, UInt64.ofNat len⟩
      else .error .panic := by
  have hend := h.joinable.data.end_le
  have hmap := r.ring.end_lt
  have hnat : (UInt64.ofNat len).toNat = len := by
    rw [UInt64.toNat_ofNat', Nat.mod_eq_of_lt (by omega)]
  have hbase := r.ring.toNat_base_add (r.info m).offsetData (by omega)
  rw [Ring.portion, h.borrowData]
  simp only [bind, Except.bind]
  rw [sliceCell_eq _ _ _ _ (by simp only [hbase]; omega), hnat]
  by_cases hle : start.toNat + len ≤ (r.info m).sizeData.toNat
  · simp only [if_pos hle]; rfl
  · simp only [if_neg hle]; rfl

/-- Where the portion lies. -/
private theorem Checked.pos_portion {r : Ring} {m : Mem} (h : r.Checked m) {len : Nat} {start : UInt64}
    (hle : start.toNat + len ≤ (r.info m).sizeData.toNat) :
    r.ring.pos (r.ring.base + (r.info m).offsetData + start) = (r.info m).offsetData.toNat + start.toNat := by
  have hend := h.joinable.data.end_le
  have hmap := r.ring.end_lt
  have hbase := r.ring.toNat_base_add (r.info m).offsetData (by omega)
  rw [Shared.pos, UInt64.toNat_add, hbase, Nat.mod_eq_of_lt (by omega)]
  omega

theorem Checked.copyTo {r : Ring} {m : Mem} (h : r.Checked m) (b : Build) (data : Slice) (start : UInt64) :
    r.copyTo b data start m =
      if start.toNat + data.1.length ≤ (r.info m).sizeData.toNat then
        .ok (m.writeBytes ((r.info m).offsetData.toNat + start.toNat) data.1)
      else .error .panic := by
  rw [Ring.copyTo, h.portion b data.2]
  split
  · rename_i hle
    simp only [bind, Except.bind, h.pos_portion hle]
    rfl
  · rfl

theorem Checked.copyFrom {r : Ring} {m : Mem} (h : r.Checked m) (b : Build) (data : Slice) (start : UInt64) :
    r.copyFrom b data start m =
      if start.toNat + data.1.length ≤ (r.info m).sizeData.toNat then
        .ok (m.readBytes ((r.info m).offsetData.toNat + start.toNat) data.1.length)
      else .error .panic := by
  rw [Ring.copyFrom, h.portion b data.2]
  split
  · rename_i hle
    simp only [bind, Except.bind, h.pos_portion hle]
    rfl
  · rfl

end Ring

/-! ### `Client::join` -/

namespace Client

private theorem selectSlot_read (m : Mem) (a : Nat) (side : ClientSide) :
    (RingInfo.read m a).selectSlot side = m.readU32 (a + RingInfo.ownerOffset side) := by
  cases side <;> rfl

/-- A joinable ring of which the slot is available is joined. -/
theorem join_of_available {b : Build} {c : Client} {req : RingRequest} {m : Mem}
    (hi : req.index.toNat < c.rings.count)
    (hj : Joinable c.ring (RingInfo.read m (c.rings.recordAt req.index.toNat))) (hv : req.tid.Valid)
    (ha : slotClass ((RingInfo.read m (c.rings.recordAt req.index.toNat)).selectSlot req.side) = .available) :
    ∃ r, (c.join b req m).1 = .ok r := by
  have hins := ClientSlot.insert_of_valid hv
    ((RingInfo.read m (c.rings.recordAt req.index.toNat)).selectSlot req.side)
  rw [ha, selectSlot_read] at hins
  rw [join, check_of_joinable hi hj]
  simp only [hins]
  exact ⟨_, rfl⟩

/-- `join` fails and leaves the memory as it was, with a panic only for an identity that is none, or it changes the
owner word, which was available, and returns a ring that was checked. -/
theorem join_cases (b : Build) (c : Client) (req : RingRequest) (m : Mem) :
    (∃ e, c.join b req m = (.error e, m) ∧ ∀ f, e = .inl f → f = .panic ∧ ¬ req.tid.Valid) ∨
    (∃ r : Ring, r.Checked m ∧ r.ring = c.ring ∧ c.rings.get req.index.toNat = some r.slot.info ∧
      r.slot.side = req.side ∧ r.slot.identity = req.tid ∧
      slotClass ((r.info m).selectSlot req.side) = .available ∧ req.tid.Valid ∧
      c.join b req m =
        (.ok r, m.writeU32 (r.slot.info + RingInfo.ownerOffset req.side) req.tid.asI32.toUInt32)) := by
  rcases check_cases b c req.index m with ⟨e, he, -⟩ | ⟨hi, hj, hok⟩
  · refine .inl ⟨.inr e, ?_, fun f h => (by cases h)⟩
    rw [join, he]
  · have hget : c.rings.get req.index.toNat = some (c.rings.recordAt req.index.toNat) := if_pos hi
    revert hj hok hget
    generalize c.rings.recordAt req.index.toNat = a
    intro hj hok hget
    rw [join, hok]
    simp only [← selectSlot_read]
    by_cases hv : req.tid.Valid
    · have hins := ClientSlot.insert_of_valid hv ((RingInfo.read m a).selectSlot req.side)
      cases hcl : slotClass ((RingInfo.read m a).selectSlot req.side) with
      | available =>
        rw [hcl] at hins
        rw [hins]
        exact .inr ⟨⟨c.ring, ⟨a, c.ring.base + (RingInfo.read m a).offsetHead, req.side, req.tid⟩, _⟩, ⟨hj, rfl⟩,
          rfl, hget, rfl, rfl, hcl, hv, rfl⟩
      | server =>
        rw [hcl] at hins
        rw [hins]
        exact .inl ⟨_, rfl, fun f h => (by cases h)⟩
      | client =>
        rw [hcl] at hins
        rw [hins]
        exact .inl ⟨_, rfl, fun f h => (by cases h)⟩
    · rw [ClientSlot.insert_of_not_valid hv]
      exact .inl ⟨.inl .panic, rfl, fun f h => ⟨(Sum.inl.inj h).symm, hv⟩⟩

end Client

/-- What holds of a ring that was joined, and of its accessors for as long as the record is not changed. -/
structure Ring.Sound (b : Build) (r : Ring) (m : Mem) : Prop where
  info : Region.Within ⟨r.slot.info, RingInfo.size⟩ r.ring.tailRegion
  head : Region.Within ⟨r.ring.pos r.slot.head, RingHead.size⟩ r.ring.tailRegion ∧ 8 ∣ r.slot.head.toNat
  slots : (r.info m).ringRegion.Within r.ring.tailRegion ∧
    (r.info m).sizeSlotEntry.toNat ∣ r.ring.base.toNat + (r.info m).offsetRing.toNat
  data : (r.info m).dataRegion.Within r.ring.tailRegion
  borrowMap : ∀ m', RingInfo.SameFields r.slot.info m m' → ∃ cell, r.borrowMap b m' = .ok (some cell) ∧
    (⟨r.ring.pos cell.addr, cell.len.toNat⟩ : Region) = (r.info m).ringRegion
  borrowData : ∀ m', RingInfo.SameFields r.slot.info m m' → ∃ cell, r.borrowData b m' = .ok cell ∧
    (⟨r.ring.pos cell.addr, cell.len.toNat⟩ : Region) = (r.info m).dataRegion
  copyTo : ∀ m', RingInfo.SameFields r.slot.info m m' → ∀ data start, r.copyTo b data start m' = .error .panic ∨
    ∃ m'', r.copyTo b data start m' = .ok m'' ∧ (r.info m).dataRegion.Frame m' m''
  copyFrom : ∀ m', RingInfo.SameFields r.slot.info m m' → ∀ data start, r.copyFrom b data start m' = .error .panic ∨
    ∃ a, Region.Within ⟨a, data.1.length⟩ (r.info m).dataRegion ∧
      r.copyFrom b data start m' = .ok (m'.readBytes a data.1.length)

private theorem Ring.Checked.sound {b : Build} {r : Ring} {m : Mem} (h : r.Checked m)
    (hinfo : Region.Within ⟨r.slot.info, RingInfo.size⟩ r.ring.tailRegion) : r.Sound b m := by
  obtain ⟨hj, hhead⟩ := h
  have hj' := hj
  obtain ⟨-, jh, -, -, js, jd⟩ := hj
  have hpos := r.ring.pos_base_add (r.info m).offsetHead (by have := jh.end_le; omega)
  have hnat := r.ring.toNat_base_add (r.info m).offsetHead (by have := jh.end_le; omega)
  have hring := r.ring.pos_base_add (r.info m).offsetRing (by have := js.end_le; omega)
  have hdata := r.ring.pos_base_add (r.info m).offsetData (by have := jd.end_le; omega)
  have hfields : ∀ m', RingInfo.SameFields r.slot.info m m' →
      r.Checked m' ∧ (r.info m').offsetRing = (r.info m).offsetRing ∧
      (r.info m').sizeRing = (r.info m).sizeRing ∧ (r.info m').offsetData = (r.info m).offsetData ∧
      (r.info m').sizeData = (r.info m).sizeData := by
    intro m' hs
    refine ⟨Checked.of_same ⟨hj', hhead⟩ hs, ?_⟩
    rw [info, hs.read_eq]
    exact ⟨rfl, rfl, rfl, rfl⟩
  refine ⟨hinfo, ⟨?_, ?_⟩, ⟨js.within, js.aligned⟩, jd.within, ?_, ?_, ?_, ?_⟩
  · rw [hhead, hpos]; exact jh.within
  · rw [hhead, hnat]; exact jh.aligned
  · intro m' hs
    obtain ⟨hc, h₁, h₂, -, -⟩ := hfields m' hs
    exact ⟨_, hc.borrowMap b, by rw [h₁, h₂, hring]; rfl⟩
  · intro m' hs
    obtain ⟨hc, -, -, h₁, h₂⟩ := hfields m' hs
    exact ⟨_, hc.borrowData b, by rw [h₁, h₂, hdata]; rfl⟩
  · intro m' hs data start
    obtain ⟨hc, -, -, h₁, h₂⟩ := hfields m' hs
    rw [hc.copyTo, h₁, h₂]
    split
    · refine .inr ⟨_, rfl, (Mem.frame_writeBytes _ _ _).mono ?_⟩
      simp only [Region.Within, RingInfo.dataRegion]; omega
    · exact .inl rfl
  · intro m' hs data start
    obtain ⟨hc, -, -, h₁, h₂⟩ := hfields m' hs
    rw [hc.copyFrom, h₁, h₂]
    split
    · refine .inr ⟨_, ?_, rfl⟩
      simp only [Region.Within, RingInfo.dataRegion]; omega
    · exact .inl rfl

namespace Client

/-- What `new` accepts. -/
private theorem new_eq_ok {b : Build} {ring : Shared} {m : Mem} {c : Client} (h : Client.new b ring m = .ok c) :
    c.ring = ring ∧ c.rings.region.Within ring.tailRegion ∧ 8 ∣ ring.base.toNat + c.rings.start := by
  rw [new_eq] at h
  have hsize := ring.tailSize_eq
  simp only at h
  split at h
  · cases h
  split at h
  · cases h
  split at h
  · cases h
  split at h
  · cases h
  rename_i halign hcount
  cases h
  refine ⟨rfl, ?_, by rw [← Nat.add_assoc]; exact Decidable.not_not.1 halign⟩
  simp only [Rings.region, Region.Within, Shared.tailRegion]
  omega

private theorem new_ne_fault (b : Build) (ring : Shared) (m : Mem) (f : Fault) :
    Client.new b ring m ≠ .error (.inl f) := by
  rw [new_eq]
  simp only
  split
  · intro h; cases h
  split
  · intro h; cases h
  split
  · intro h; cases h
  split
  · intro h; cases h
  · intro h; cases h

/-- The checks are sound for every content of the memory: nothing overflows, a failed join leaves the memory as it
was, and what was joined lies in the mapping, is aligned, and stays within its regions. -/
theorem validation_sound (b : Build) (ring : Shared) (m : Mem) :
    (∀ f, Client.new b ring m ≠ .error (.inl f)) ∧
    ∀ c, Client.new b ring m = .ok c →
      (c.ring = ring ∧ c.rings.region.Within ring.tailRegion ∧ 8 ∣ ring.base.toNat + c.rings.start) ∧
      ∀ m₁ req,
        (∀ f, (c.join b req m₁).1 = .error (.inl f) → f = .panic ∧ ¬ req.tid.Valid) ∧
        (∀ e, (c.join b req m₁).1 = .error e → (c.join b req m₁).2 = m₁) ∧
        ∀ r, (c.join b req m₁).1 = .ok r → r.ring = ring ∧ r.Sound b (c.join b req m₁).2 := by
  refine ⟨new_ne_fault b ring m, fun c hc => ⟨new_eq_ok hc, fun m₁ req => ?_⟩⟩
  obtain ⟨rfl, hwithin, -⟩ := new_eq_ok hc
  rcases join_cases b c req m₁ with ⟨e, he, hf⟩ | ⟨r, hr, hring, hget, -, -, -, -, hok⟩
  · rw [he]
    exact ⟨fun f h => hf f (Except.error.inj h), fun _ _ => rfl, fun r h => (by cases h)⟩
  · rw [hok]
    refine ⟨fun f h => (by cases h), fun e h => (by cases h), fun r' h => ?_⟩
    cases h
    refine ⟨hring, (hr.of_same (RingInfo.sameFields_writeOwner r.slot.info m₁ req.side _)).sound ?_⟩
    unfold Rings.get at hget
    split at hget
    · rename_i hi
      rw [hring, ← Option.some.inj hget]
      refine Region.Within.trans ?_ hwithin
      simp only [Region.Within, Rings.recordAt, Rings.region, RingInfo.size]
      omega
    · cases hget

end Client

end ShmRing
