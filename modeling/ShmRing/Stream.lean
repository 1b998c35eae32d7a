import ShmRing.Isolation
import ShmRing.Lib.Circular

/-!
# Byte streams

The data of a ring, used by one side as a circular buffer for a stream of bytes.  The writer copies the frames of a
queue into the window between two positions of the stream that the reader has granted; the reader copies the bytes
between two positions out again.

A frame that does not fit into the window is split, and what was split off is copied, but then the frame is removed
from the queue with all its rest: the writer compares what is left of the window with what it has copied, and that
is never less.
-/

namespace ShmRing

open Machine Bytes

/-- A frame of the queue of a stream. -/
inductive BytesOrEof
  | some (bytes : Slice)
  | eof
  deriving DecidableEq

/-- The largest power of two of which a ring has that many bytes of data. -/
def usablePowerOfTwoSizeU64 (b : Build) (size : UInt64) : Exec UInt64 := do
  let neg ← b.add (~~~ reverseBits size) 1
  return size &&& reverseBits neg

def Ring.usablePowerOfTwoSize (b : Build) (r : Ring) (m : Mem) : Exec UInt64 :=
  usablePowerOfTwoSizeU64 b (r.info m).sizeData

/-- The range of a window that is in the second piece, and the offset at which the first piece starts. -/
def splitRing (b : Build) (start stop bufferSpaceSize : UInt64) : Exec ((UInt64 × UInt64) × UInt64) := do
  if bufferSpaceSize = 0 then throw .panic
  let startOffset := start % bufferSpaceSize
  let some size := checkedSub stop start | throw .panic
  if ¬ size ≤ bufferSpaceSize then throw .panic
  let firstCapacity ← b.sub bufferSpaceSize startOffset
  let secondSize := saturatingSub size firstCapacity
  let firstSize ← b.sub size secondSize
  return ((firstSize, size), startOffset)

/-- `Bytes::split_to`: the bytes before the index, and the bytes that are left. -/
def splitTo (bytes : Slice) (n : Nat) : Exec (Slice × Slice) :=
  if n ≤ bytes.1.length then
    .ok (⟨bytes.1.take n, Nat.lt_of_le_of_lt (List.length_take_le' ..) bytes.2⟩,
      ⟨bytes.1.drop n, Nat.lt_of_le_of_lt (by simp) bytes.2⟩)
  else .error .panic

/-- What `fill_stream` leaves. -/
structure Filled where
  flushes : Nat
  start : UInt64
  full : List BytesOrEof
  mem : Mem

/-- The loop of `fill_stream`.  In each round but the last a frame is removed from the queue. -/
def fillLoop (b : Build) (bufferSpaceSize stop : UInt64) (ring : Ring) :
    List BytesOrEof → Nat → UInt64 → Mem → Exec Filled
  | [], flushes, start, m => .ok ⟨flushes, start, [], m⟩
  -- signals a closing flush
  | .eof :: full, flushes, start, m => .ok ⟨flushes + 1, start, .eof :: full, m⟩
  | .some frame :: full, flushes, start, m =>
    if frame.1.isEmpty then fillLoop b bufferSpaceSize stop ring full (flushes + 1) start m
    else do
      let ((firstSize, freeSpace), startOffset) ← splitRing b start stop bufferSpaceSize
      let split := min frame.1.length firstSize.toNat
      let copySize := min frame.1.length freeSpace.toNat
      let (first, frame) ← splitTo frame split
      let (second, frame) ← splitTo frame (copySize - split)
      let m ← ring.copyTo b first startOffset m
      let m ← ring.copyTo b second 0 m
      let start ← b.add start (UInt64.ofNat copySize)
      if freeSpace.toNat < copySize then return ⟨flushes, start, .some frame :: full, m⟩
      else fillLoop b bufferSpaceSize stop ring full flushes start m

/-- `OutputRing::fill_stream` -/
def fillStream (b : Build) (bufferSpaceSize start stop : UInt64) (full : List BytesOrEof) (ring : Ring) (m : Mem) :
    Exec Filled :=
  fillLoop b bufferSpaceSize stop ring full 0 start m

/-- `vec![0; size]` -/
def zeroed (size : Nat) : Exec Slice :=
  if h : size < 2 ^ 63 then .ok ⟨List.replicate size 0, by rwa [List.length_replicate]⟩ else .error .panic

/-- `InputRing::consume_stream`, with the start of the window that it leaves. -/
def consumeStream (b : Build) (bufferSpaceSize start stop : UInt64) (ring : Ring) (m : Mem) :
    Exec (List UInt8 × UInt64) := do
  let ((firstSize, size), startOffset) ← splitRing b start stop bufferSpaceSize
  let target ← zeroed size.toNat
  let (first, second) ← splitTo target firstSize.toNat
  let first ← ring.copyFrom b first startOffset m
  let second ← ring.copyFrom b second 0 m
  return (first.toList ++ second.toList, stop)

/-! ### Sizes -/

private theorem usablePowerOfTwoSizeU64_eq (b : Build) {size : UInt64} (h : size ≠ 0) :
    ∃ n, usablePowerOfTwoSizeU64 b size = .ok n ∧ n.toNat = 2 ^ size.toNat.log2 := by
  have hpos : size.toNat ≠ 0 := fun h₀ => h (UInt64.toNat_inj.1 h₀)
  have hrev : (reverseBits size).toNat ≠ 0 := by
    intro h₀
    have hzero : size.toBitVec.reverse = 0#64 := BitVec.eq_of_toNat_eq h₀
    exact h (UInt64.toBitVec_inj.1 (BitVec.reverse_eq_zero_iff.1 hzero))
  have hnot : (~~~ reverseBits size).toNat = 2 ^ 64 - 1 - (reverseBits size).toNat := UInt64.toNat_not _
  have hadd := b.add_of_lt (x := ~~~ reverseBits size) (y := 1) (by
    change _ + 1 < _
    omega)
  refine ⟨size &&& reverseBits (-reverseBits size), ?_, ?_⟩
  · simp only [usablePowerOfTwoSizeU64, hadd, bind, Except.bind, pure, Except.pure, UInt64.neg_eq_not_add]
  · have hbits := congrArg BitVec.toNat (and_reverse_neg_reverse hpos)
    exact hbits.trans (BitVec.toNat_twoPow_of_lt ((Nat.log2_lt hpos).2 size.toNat_lt))

/-! ### Splitting -/

private theorem splitRing_eq (b : Build) {start stop size : UInt64} (hpos : 0 < size.toNat)
    (hle : start.toNat ≤ stop.toNat) (hsize : stop.toNat - start.toNat ≤ size.toNat) : ∃ first free off,
      splitRing b start stop size = .ok ((first, free), off) ∧ free.toNat = stop.toNat - start.toNat ∧
        off.toNat = start.toNat % size.toNat ∧
          first.toNat = min (stop.toNat - start.toNat) (size.toNat - start.toNat % size.toNat) := by
  have hne : size ≠ 0 := fun h => by rw [h] at hpos; exact Nat.lt_irrefl _ hpos
  have hoff : (start % size).toNat = start.toNat % size.toNat := UInt64.toNat_mod ..
  have hmod := Nat.mod_lt start.toNat hpos
  have hle' : start ≤ stop := UInt64.le_iff_toNat_le.2 hle
  have hfree : (stop - start).toNat = stop.toNat - start.toNat := UInt64.toNat_sub_of_le _ _ hle'
  have hcap : start % size ≤ size := UInt64.le_iff_toNat_le.2 (by omega)
  have hcap' : (size - start % size).toNat = size.toNat - start.toNat % size.toNat := by
    rw [UInt64.toNat_sub_of_le _ _ hcap, hoff]
  have hsecond := toNat_saturatingSub (stop - start) (size - start % size)
  have hfirst : saturatingSub (stop - start) (size - start % size) ≤ stop - start :=
    UInt64.le_iff_toNat_le.2 (by omega)
  refine ⟨stop - start - saturatingSub (stop - start) (size - start % size), _, _, ?_, hfree, hoff, ?_⟩
  · simp only [splitRing, if_neg hne, checkedSub, if_pos hle', bind, Except.bind, pure, Except.pure,
      show stop - start ≤ size from UInt64.le_iff_toNat_le.2 (by omega), not_true, if_false, b.sub_of_le hcap,
      b.sub_of_le hfirst]
  · rw [UInt64.toNat_sub_of_le _ _ hfirst]
    omega

private theorem splitTo_of_le (bytes : Slice) {n : Nat} (h : n ≤ bytes.1.length) :
    ∃ first second : Slice, splitTo bytes n = .ok (first, second) ∧ first.1 = bytes.1.take n ∧
      second.1 = bytes.1.drop n :=
  ⟨_, _, if_pos h, rfl, rfl⟩

/-- What a frame gives to both pieces of a window is the part of it that fits. -/
private theorem take_pieces (l : List UInt8) {first free : Nat} (h : first ≤ free) :
    l.take (min l.length first) = (l.take free).take (min l.length first) ∧
      (l.drop (min l.length first)).take (min l.length free - min l.length first) =
        (l.take free).drop (min l.length first) := by
  constructor
  · rw [List.take_take, Nat.min_eq_left (Nat.le_trans (Nat.min_le_right ..) h)]
  · rw [List.drop_take, List.take_eq_take_iff, List.length_drop]
    omega

/-! ### The space of a stream -/

namespace Ring

/-- A ring that was joined, of which the data is apart from the record, and is no less than the size. -/
structure Space (r : Ring) (size : UInt64) (m : Mem) : Prop where
  checked : r.Checked m
  apart : (r.info m).dataRegion.Apart ⟨r.slot.info, RingInfo.size⟩
  pow : size.toNat.isPowerOfTwo
  le : size.toNat ≤ (r.info m).sizeData.toNat

namespace Space

variable {r : Ring} {size : UInt64} {m m' : Mem} {k n : Nat} {b : Build}

theorem pos (h : r.Space size m) : 0 < size.toNat := Nat.pos_of_isPowerOfTwo h.pow

theorem lt (h : r.Space size m) : size.toNat < 2 ^ 63 := by
  have hend := h.checked.joinable.data.end_le
  have hlt := r.ring.size_lt
  have hle := h.le
  omega

/-- The data as a circular buffer. -/
def block (h : r.Space size m) : CyclicBlock := ⟨(r.info m).offsetData.toNat, size.toNat, h.pos⟩

theorem frame_of_differIn (h : r.Space size m) (hd : DifferIn (h.block.Window k n) m m') :
    (r.info m).dataRegion.Frame m m' := by
  intro a ha
  refine hd a ?_
  rintro ⟨i, -, rfl⟩
  have hmod := Nat.mod_lt (k + i) h.pos
  have hle := h.le
  simp only [Region.mem_iff, RingInfo.dataRegion, CyclicBlock.offset, block] at ha
  omega

/-- What is written to the data is not seen in the record. -/
theorem info_eq (h : r.Space size m) (hf : (r.info m).dataRegion.Frame m m') : r.info m' = r.info m :=
  RingInfo.read_frame hf h.apart.symm

theorem of_frame (h : r.Space size m) (hf : (r.info m).dataRegion.Frame m m') : r.Space size m' := by
  have hinfo := h.info_eq hf
  refine ⟨⟨?_, ?_⟩, ?_, h.pow, ?_⟩
  · rw [hinfo]; exact h.checked.joinable
  · rw [hinfo]; exact h.checked.head_eq
  · rw [hinfo]; exact h.apart
  · rw [hinfo]; exact h.le

theorem block_eq (h : r.Space size m) (h' : r.Space size m') (hf : (r.info m).dataRegion.Frame m m') :
    h'.block = h.block := by
  simp only [block, h.info_eq hf]

/-- The two calls of `copy_to` write the bytes around the end of the buffer. -/
private theorem copyTo_pieces (h : r.Space size m) (b : Build) (first second : Slice) {off : UInt64} {l : List UInt8}
    (hl : l.length ≤ size.toNat) (hoff : off.toNat = k % size.toNat)
    (hfirst : first.1 = l.take (h.block.before k l.length))
    (hsecond : second.1 = l.drop (h.block.before k l.length)) :
    ∃ m₁, r.copyTo b first off m = .ok m₁ ∧ r.copyTo b second 0 m₁ = .ok (h.block.write m k l) := by
  have hmod := Nat.mod_lt k h.pos
  have hle := h.le
  have hb : h.block.before k l.length = min l.length (size.toNat - k % size.toNat) := rfl
  have hlen : first.1.length = h.block.before k l.length := by
    rw [hfirst, List.length_take]; omega
  have hlen' : second.1.length = l.length - h.block.before k l.length := by
    rw [hsecond, List.length_drop]
  have hframe : (r.info m).dataRegion.Frame m
      (m.writeBytes ((r.info m).offsetData.toNat + off.toNat) first.1) := by
    refine (Mem.frame_writeBytes _ _ _).mono ?_
    simp only [Region.Within, RingInfo.dataRegion]
    omega
  refine ⟨m.writeBytes ((r.info m).offsetData.toNat + off.toNat) first.1, ?_, ?_⟩
  · rw [h.checked.copyTo, if_pos (by omega)]
  · rw [(h.of_frame hframe).checked.copyTo, h.info_eq hframe, if_pos]
    · rw [CyclicBlock.write, hfirst, hsecond, hoff, UInt64.toNat_zero, Nat.add_zero]
      rfl
    · rw [UInt64.toNat_zero]
      omega

end Space

/-- The size that both ends of a stream take. -/
private theorem Checked.usablePowerOfTwoSize {r : Ring} {m : Mem} (h : r.Checked m) (b : Build)
    (hapart : (r.info m).dataRegion.Apart ⟨r.slot.info, RingInfo.size⟩) (hpos : (r.info m).sizeData ≠ 0) :
    ∃ size, r.usablePowerOfTwoSize b m = .ok size ∧ r.Space size m := by
  obtain ⟨size, hsize, hlog⟩ := usablePowerOfTwoSizeU64_eq b hpos
  refine ⟨size, hsize, h, hapart, ⟨_, hlog⟩, ?_⟩
  rw [hlog]
  exact Nat.log2_self_le fun h₀ => hpos (UInt64.toNat_inj.1 h₀)

end Ring

/-- In a mapping of a server the data of a ring is apart from all records. -/
theorem Session.Joined.space {srv : Server} {cfgs : List RingConfig} {s : Session} {m₀ m : Mem} (h : s.Joined srv m)
    (hp : srv.Published cfgs m₀) (hs : srv.rings.SameRecords m₀ m) (b : Build)
    (hpos : (s.ring.info m).sizeData ≠ 0) :
    ∃ size, s.ring.usablePowerOfTwoSize b m = .ok size ∧ s.ring.Space size m := by
  refine h.checked.usablePowerOfTwoSize b (.inr ?_) hpos
  have hle := h.records_le hp hs (r := (s.ring.info m).dataRegion) (by simp [RingInfo.regions])
  have hi := h.index_lt
  simp only [RingInfo.size] at hle
  simp only [h.info_eq, Rings.recordAt, RingInfo.size]
  omega

/-! ### The rounds of the loop -/

namespace BytesOrEof

def isSome : BytesOrEof → Bool
  | some _ => true
  | eof => false

/-- An empty frame stands for a flush. -/
def isFlush : BytesOrEof → Bool
  | some bytes => bytes.1.isEmpty
  | eof => false

def data : BytesOrEof → List UInt8
  | some bytes => bytes.1
  | eof => []

end BytesOrEof

/-- The data bytes of a queue. -/
def payload (full : List BytesOrEof) : List UInt8 := full.flatMap BytesOrEof.data

/-- The data bytes before the first end marker. -/
def ahead (full : List BytesOrEof) : List UInt8 := payload (full.takeWhile BytesOrEof.isSome)

section

variable {b : Build} {r : Ring} {size start stop : UInt64} {m : Mem} {frame : Slice} {full : List BytesOrEof}
  {flushes : Nat}

/-- A round with data: what fits into the window is written, and the frame is gone. -/
private theorem fillLoop_some (b : Build) (full : List BytesOrEof) (flushes : Nat) (h : r.Space size m)
    (hne : frame.1.isEmpty = false) (hle : start.toNat ≤ stop.toNat)
    (hsize : stop.toNat - start.toNat ≤ size.toNat) : ∃ start' : UInt64,
      start'.toNat = start.toNat + min frame.1.length (stop.toNat - start.toNat) ∧
        fillLoop b size stop r (.some frame :: full) flushes start m =
          fillLoop b size stop r full flushes start'
            (h.block.write m start.toNat (frame.1.take (stop.toNat - start.toNat))) := by
  obtain ⟨first, free, off, hsplit, hfree, hoff, hfirst⟩ := splitRing_eq b h.pos hle hsize
  have hlen : (frame.1.take (stop.toNat - start.toNat)).length = min (stop.toNat - start.toNat) frame.1.length :=
    List.length_take ..
  have hbefore : h.block.before start.toNat (frame.1.take (stop.toNat - start.toNat)).length =
      min frame.1.length first.toNat := by
    rw [hlen, CyclicBlock.before, hfirst]
    change min _ (size.toNat - start.toNat % size.toNat) = _
    omega
  obtain ⟨l₁, rest, hto, hl₁, hrest⟩ := splitTo_of_le frame (n := min frame.1.length first.toNat)
    (Nat.min_le_left _ _)
  obtain ⟨l₂, rest', hto', hl₂, -⟩ := splitTo_of_le rest
    (n := min frame.1.length free.toNat - min frame.1.length first.toNat) (by rw [hrest, List.length_drop]; omega)
  have hpieces := take_pieces frame.1 (show first.toNat ≤ stop.toNat - start.toNat by omega)
  obtain ⟨m₁, hcopy, hcopy'⟩ := h.copyTo_pieces b l₁ l₂ (k := start.toNat)
    (l := frame.1.take (stop.toNat - start.toNat)) (by rw [hlen]; omega) hoff
    (by rw [hbefore, hl₁, hpieces.1]) (by rw [hbefore, hl₂, hrest, hfree, hpieces.2])
  have hnat : (UInt64.ofNat (min frame.1.length free.toNat)).toNat = min frame.1.length free.toNat := by
    rw [UInt64.toNat_ofNat', Nat.mod_eq_of_lt]
    have := free.toNat_lt
    omega
  have hstop := stop.toNat_lt
  have hadd := b.add_of_lt (x := start) (y := UInt64.ofNat (min frame.1.length free.toNat)) (by omega)
  refine ⟨start + UInt64.ofNat (min frame.1.length free.toNat), ?_, ?_⟩
  · rw [UInt64.toNat_add, hnat, Nat.mod_eq_of_lt (by omega), hfree]
  · rw [fillLoop, if_neg (by rw [hne]; exact Bool.false_ne_true), hsplit]
    simp only [bind, Except.bind, hto, hto', hcopy, hcopy', hadd]
    -- the window is never smaller than what was copied
    rw [if_neg (by omega)]

/-- What the loop leaves: before the first end marker nothing is left of the queue, and what has fitted is written. -/
structure Fills (c : CyclicBlock) (m : Mem) (start stop : UInt64) (flushes : Nat) (full : List BytesOrEof)
    (out : Filled) : Prop where
  start_eq : out.start.toNat = start.toNat + min (ahead full).length (stop.toNat - start.toNat)
  full_eq : out.full = full.dropWhile BytesOrEof.isSome
  flushes_eq : out.flushes = flushes + (full.takeWhile BytesOrEof.isSome).countP BytesOrEof.isFlush +
    if (full.dropWhile BytesOrEof.isSome).isEmpty then 0 else 1
  window : DifferIn (c.Window start.toNat (stop.toNat - start.toNat)) m out.mem
  read_eq : c.read out.mem start.toNat (out.start.toNat - start.toNat) =
    (ahead full).take (stop.toNat - start.toNat)

private theorem ahead_some (frame : Slice) (full : List BytesOrEof) :
    ahead (.some frame :: full) = frame.1 ++ ahead full := by
  rw [ahead, List.takeWhile_cons_of_pos rfl, payload, List.flatMap_cons]
  rfl

/-- An empty frame is counted and is gone. -/
private theorem Fills.flush {c : CyclicBlock} {out : Filled} (h : Fills c m start stop (flushes + 1) full out)
    (he : frame.1.isEmpty = true) : Fills c m start stop flushes (.some frame :: full) out := by
  have ha : ahead (.some frame :: full) = ahead full := by
    rw [ahead_some, List.isEmpty_iff.1 he, List.nil_append]
  refine ⟨?_, ?_, ?_, h.window, ?_⟩
  · rw [ha]; exact h.start_eq
  · rw [h.full_eq]; rfl
  · rw [h.flushes_eq]
    simp only [List.dropWhile_cons, List.takeWhile_cons, BytesOrEof.isSome, if_true]
    rw [List.countP_cons_of_pos (show BytesOrEof.isFlush (.some frame) = true from he)]
    omega
  · rw [ha]; exact h.read_eq

/-- A frame with data is written as far as it fits, and is gone. -/
private theorem Fills.some {c : CyclicBlock} {out : Filled} {start' : UInt64} (hne : frame.1.isEmpty = false)
    (hle : start.toNat ≤ stop.toNat) (hsize : stop.toNat - start.toNat ≤ c.size)
    (hstart : start'.toNat = start.toNat + min frame.1.length (stop.toNat - start.toNat))
    (h : Fills c (c.write m start.toNat (frame.1.take (stop.toNat - start.toNat))) start' stop flushes full out) :
    Fills c m start stop flushes (.some frame :: full) out := by
  have hlen : (frame.1.take (stop.toNat - start.toNat)).length = min (stop.toNat - start.toNat) frame.1.length :=
    List.length_take ..
  have hwrite := CyclicBlock.write_differIn (c := c) (m := m) (k := start.toNat)
    (l := frame.1.take (stop.toNat - start.toNat)) (by omega)
  have hout := h.start_eq
  have hwindow := h.window
  rw [hstart] at hwindow
  refine ⟨?_, ?_, ?_, ?_, ?_⟩
  · rw [ahead_some, List.length_append]
    omega
  · rw [h.full_eq]; rfl
  · rw [h.flushes_eq]
    simp only [List.dropWhile_cons, List.takeWhile_cons, BytesOrEof.isSome, if_true]
    rw [List.countP_cons_of_neg (show ¬ BytesOrEof.isFlush (.some frame) = true by
      rw [BytesOrEof.isFlush, hne]; exact Bool.false_ne_true)]
  · refine (hwrite.mono fun a ha => ha.mono (by omega)).trans (hwindow.mono fun a ha => ?_)
    exact ha.shift.mono (by omega)
  · -- the later frames are written behind this one
    have hread := CyclicBlock.read_differIn hwindow (by omega)
    have hrest := h.read_eq
    rw [show out.start.toNat - start.toNat = min frame.1.length (stop.toNat - start.toNat) +
      (out.start.toNat - start'.toNat) by omega, CyclicBlock.read_append, hread, ahead_some, List.take_append]
    rw [hstart] at hrest
    rw [hstart, hrest, Nat.min_comm, ← hlen, CyclicBlock.read_write (by omega)]
    congr 2
    omega

/-- Every run of the loop ends, and leaves what it should but for the frames that did not fit. -/
theorem fillLoop_fills (b : Build) (full : List BytesOrEof) (flushes : Nat) (h : r.Space size m)
    (hle : start.toNat ≤ stop.toNat) (hsize : stop.toNat - start.toNat ≤ size.toNat) :
    ∃ out, fillLoop b size stop r full flushes start m = .ok out ∧ Fills h.block m start stop flushes full out := by
  induction full generalizing flushes start m with
  | nil =>
    refine ⟨_, rfl, ?_, rfl, rfl, DifferIn.refl _ _, ?_⟩
    · simp [ahead, payload]
    · simp [ahead, payload, CyclicBlock.read]
  | cons frame full ih =>
    cases frame with
    | eof =>
      refine ⟨_, rfl, ?_, rfl, rfl, DifferIn.refl _ _, ?_⟩
      · simp [ahead, payload, BytesOrEof.isSome]
      · simp [ahead, payload, BytesOrEof.isSome, CyclicBlock.read]
    | some frame =>
      cases hne : frame.1.isEmpty with
      | true =>
        obtain ⟨out, hout, hfills⟩ := ih (flushes + 1) h hle hsize
        refine ⟨out, ?_, hfills.flush hne⟩
        rw [fillLoop, if_pos hne, hout]
      | false =>
        obtain ⟨start', hstart, heq⟩ := fillLoop_some b full flushes h hne hle hsize
        have hframe := h.frame_of_differIn (CyclicBlock.write_differIn (c := h.block) (m := m) (k := start.toNat)
          (l := frame.1.take (stop.toNat - start.toNat)) (by
            rw [List.length_take]
            change _ ≤ size.toNat
            omega))
        obtain ⟨out, hout, hfills⟩ := ih flushes (h.of_frame hframe) (show start'.toNat ≤ stop.toNat by omega)
          (by omega)
        rw [h.block_eq _ hframe] at hfills
        exact ⟨out, heq.trans hout, hfills.some hne hle hsize hstart⟩

/-- The reader gets the bytes of the window. -/
theorem consumeStream_eq (b : Build) (h : r.Space size m) (hle : start.toNat ≤ stop.toNat)
    (hsize : stop.toNat - start.toNat ≤ size.toNat) :
    consumeStream b size start stop r m =
      .ok (h.block.read m start.toNat (stop.toNat - start.toNat), stop) := by
  obtain ⟨first, free, off, hsplit, hfree, hoff, hfirst⟩ := splitRing_eq b h.pos hle hsize
  have hlt := h.lt
  have hmod := Nat.mod_lt start.toNat h.pos
  have hsizeData := h.le
  have hbefore : h.block.before start.toNat (stop.toNat - start.toNat) = first.toNat := by
    rw [CyclicBlock.before, hfirst]
    rfl
  obtain ⟨l₁, l₂, hto, hl₁, hl₂⟩ := splitTo_of_le ⟨List.replicate free.toNat 0, by simp; omega⟩
    (n := first.toNat) (by simp only [List.length_replicate]; omega)
  have hlen : l₁.1.length = first.toNat := by
    rw [hl₁, List.length_take, List.length_replicate]
    omega
  have hlen' : l₂.1.length = stop.toNat - start.toNat - first.toNat := by
    rw [hl₂, List.length_drop, List.length_replicate, hfree]
  rw [consumeStream, hsplit]
  simp only [bind, Except.bind, zeroed, dif_pos (show free.toNat < 2 ^ 63 by omega), hto, h.checked.copyFrom]
  rw [if_pos (by omega), if_pos (by rw [UInt64.toNat_zero]; omega)]
  rw [CyclicBlock.read_eq_pieces (c := h.block) hsize, hbefore, hlen, hlen', hoff, UInt64.toNat_zero, Nat.add_zero]
  rfl

end

/-! ### Nothing is lost -/

/-- The writer ends, and what it has copied, as the reader reads it, and what it has left in the queue are the data
of the queue.  Only the window is written. -/
structure Conserves (b : Build) (size start stop : UInt64) (full : List BytesOrEof) (r : Ring) (m : Mem)
    (out : Filled) : Prop where
  filled : fillStream b size start stop full r m = .ok out
  conserved : ∃ data, consumeStream b size start out.start r out.mem = .ok (data, out.start) ∧
    data ++ payload out.full = payload full
  start_le : out.start.toNat ≤ stop.toNat
  window : ∀ a, out.mem a ≠ m a → ∃ k, start.toNat ≤ k ∧ k < stop.toNat ∧
    a = (r.info m).offsetData.toNat + k % size.toNat
  flushes : out.flushes + out.full.countP BytesOrEof.isFlush = full.countP BytesOrEof.isFlush +
    if out.full.head? = some .eof then 1 else 0

theorem payload_eq (full : List BytesOrEof) :
    payload full = ahead full ++ payload (full.dropWhile BytesOrEof.isSome) := by
  rw [ahead, payload, payload, payload, ← List.flatMap_append, List.takeWhile_append_dropWhile]

/-- What the loop leaves begins with an end marker, if there was one. -/
private theorem head?_dropWhile (full : List BytesOrEof) : (full.dropWhile BytesOrEof.isSome).head? = some .eof ↔
    (full.dropWhile BytesOrEof.isSome).isEmpty = false := by
  induction full with
  | nil => decide
  | cons frame full ih =>
    cases frame with
    | eof => simp [BytesOrEof.isSome]
    | some bytes => exact ih

section

variable {b : Build} {r : Ring} {size start stop : UInt64} {m : Mem} {full : List BytesOrEof} {out : Filled}

/-- What was copied is read back. -/
private theorem Fills.consumed {h : r.Space size m} (hf : Fills h.block m start stop 0 full out)
    (hsize : stop.toNat - start.toNat ≤ size.toNat) :
    consumeStream b size start out.start r out.mem =
      .ok ((ahead full).take (stop.toNat - start.toNat), out.start) := by
  have hstart := hf.start_eq
  have hframe := h.frame_of_differIn hf.window
  rw [consumeStream_eq b (h.of_frame hframe) (by omega) (by omega), h.block_eq _ hframe, hf.read_eq]

private theorem Fills.conserves {h : r.Space size m} (hf : Fills h.block m start stop 0 full out)
    (hfilled : fillStream b size start stop full r m = .ok out) (hle : start.toNat ≤ stop.toNat)
    (hsize : stop.toNat - start.toNat ≤ size.toNat) (hfit : (ahead full).length ≤ stop.toNat - start.toNat) :
    Conserves b size start stop full r m out := by
  have hstart := hf.start_eq
  refine ⟨hfilled, ⟨_, hf.consumed hsize, ?_⟩, by omega, fun a ha => ?_, ?_⟩
  · rw [List.take_of_length_le hfit, hf.full_eq, ← payload_eq]
  · by_contra hn
    refine ha (hf.window a ?_)
    rintro ⟨i, hi, rfl⟩
    exact hn ⟨start.toNat + i, by omega, by omega, rfl⟩
  · have hcount := congrArg (List.countP BytesOrEof.isFlush)
      (List.takeWhile_append_dropWhile (p := BytesOrEof.isSome) (l := full))
    rw [List.countP_append] at hcount
    rw [hf.flushes_eq, hf.full_eq, ← hcount]
    simp only [head?_dropWhile]
    cases (full.dropWhile BytesOrEof.isSome).isEmpty with
    | true =>
      simp only [if_true, Bool.true_eq_false, if_false]
      omega
    | false =>
      simp only [if_true, Bool.false_eq_true, if_false]
      omega

/-- What does not fit is lost. -/
private theorem Conserves.length_le (hc : Conserves b size start stop full r m out) (h : r.Space size m)
    (hle : start.toNat ≤ stop.toNat) (hsize : stop.toNat - start.toNat ≤ size.toNat) :
    (ahead full).length ≤ stop.toNat - start.toNat := by
  obtain ⟨out', hout, hf⟩ := fillLoop_fills b full 0 h hle hsize
  obtain rfl := Except.ok.inj (hout.symm.trans hc.filled)
  obtain ⟨data, hdata, heq⟩ := hc.conserved
  rw [hf.consumed hsize] at hdata
  obtain ⟨rfl, -⟩ := Prod.mk.inj (Except.ok.inj hdata)
  have hlen := congrArg List.length heq
  rw [hf.full_eq, payload_eq full, List.length_append, List.length_append, List.length_take] at hlen
  omega

/-- Nothing is lost if and only if all data before the first end marker fits into the window. -/
theorem conserves_iff (b : Build) (h : r.Space size m) (hle : start.toNat ≤ stop.toNat)
    (hsize : stop.toNat - start.toNat ≤ size.toNat) (full : List BytesOrEof) :
    (∃ out, Conserves b size start stop full r m out) ↔ (ahead full).length ≤ stop.toNat - start.toNat := by
  constructor
  · rintro ⟨out, hc⟩
    exact hc.length_le h hle hsize
  · intro hfit
    obtain ⟨out, hout, hf⟩ := fillLoop_fills b full 0 h hle hsize
    exact ⟨out, hf.conserves hout hle hsize hfit⟩

end

/-- The record of a ring with one slot and eight bytes of data. -/
def eightBytes : RingInfo where
  version := 1
  offsetHead := 4096
  offsetRing := 8192
  offsetData := 12288
  sizeHead := 4096
  sizeRing := 8
  sizeData := 8
  sizeSlotEntry := 8
  lhs := 1
  rhs := 0

/-- The ring, as its left side has joined it. -/
def eightBytesRing : Ring where
  ring := World.sixPages
  slot := ⟨32, 0x41000, .left, ⟨1⟩⟩
  ringId := ⟨-1⟩

private theorem space_eightBytes : eightBytesRing.Space 8 (RingInfo.write (fun _ => 0) 32 eightBytes) := by
  have hinfo : eightBytesRing.info (RingInfo.write (fun _ => 0) 32 eightBytes) = eightBytes :=
    RingInfo.read_write _ 32 eightBytes
  refine ⟨⟨?_, ?_⟩, ?_, ⟨3, rfl⟩, ?_⟩
  · rw [hinfo]
    exact ⟨rfl, by decide, ⟨3, rfl⟩, by decide, by decide, by decide⟩
  · rw [hinfo]; rfl
  · rw [hinfo]; decide
  · rw [hinfo]; decide

/-- Three bytes and a flush, in a window that goes around the end. -/
theorem conserves_iff_around : ∃ out, Conserves .debug 8 6 12 [.some ⟨[1, 2, 3], by decide⟩, .some ⟨[], by decide⟩]
    eightBytesRing (RingInfo.write (fun _ => 0) 32 eightBytes) out :=
  (conserves_iff .debug space_eightBytes (by decide) (by decide) _).2 (by decide)

/-- Of ten bytes eight are copied and two are lost. -/
theorem not_conserves : eightBytesRing.Space 8 (RingInfo.write (fun _ => 0) 32 eightBytes) ∧
    ¬ ∃ out, Conserves .release 8 0 8 [.some ⟨[1, 2, 3, 4, 5, 6, 7, 8, 9, 10], by decide⟩] eightBytesRing
      (RingInfo.write (fun _ => 0) 32 eightBytes) out := by
  refine ⟨space_eightBytes, ?_⟩
  rintro ⟨out, hc⟩
  exact absurd (hc.length_le space_eightBytes (by decide) (by decide)) (by decide)

end ShmRing
