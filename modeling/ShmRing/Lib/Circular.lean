import ShmRing.Lib.Bytes

/-!
# Circular buffers

A block of a memory that is used over and over: the position `k` of a stream lies at the offset `k`, modulo the size
of the block.  Positions in a row that are no more than the block has lie at different offsets, in two pieces at
most: one up to the end of the block and one from its start.
-/

namespace Bytes

structure CyclicBlock where
  start : Nat
  size : Nat
  pos : 0 < size

namespace CyclicBlock

variable {c : CyclicBlock} {m m' : Mem} {k n n' i j : Nat} {l : List UInt8}

/-- Where a position of the stream lies. -/
def offset (c : CyclicBlock) (k : Nat) : Nat := c.start + k % c.size

/-- The offsets of `n` positions from `k` on. -/
def Window (c : CyclicBlock) (k n : Nat) (a : Nat) : Prop := ∃ i, i < n ∧ a = c.offset (k + i)

/-- How many of `n` positions from `k` on lie before the end of the block. -/
def before (c : CyclicBlock) (k n : Nat) : Nat := min n (c.size - k % c.size)

/-- The bytes at `n` positions from `k` on. -/
def read (c : CyclicBlock) (m : Mem) (k n : Nat) : List UInt8 := (List.range n).map fun i => m (c.offset (k + i))

/-- The bytes are written in two pieces. -/
def write (c : CyclicBlock) (m : Mem) (k : Nat) (l : List UInt8) : Mem :=
  (m.writeBytes (c.offset k) (l.take (c.before k l.length))).writeBytes c.start (l.drop (c.before k l.length))

theorem offset_add_of_lt (h : k % c.size + i < c.size) : c.offset (k + i) = c.offset k + i := by
  rw [offset, offset, Nat.add_mod, Nat.mod_eq_of_lt (show i < c.size by omega), Nat.mod_eq_of_lt h, Nat.add_assoc]

theorem offset_add_of_le (h : c.size ≤ k % c.size + i) (hi : i < c.size) :
    c.offset (k + i) = c.start + (k % c.size + i - c.size) := by
  have hlt := Nat.mod_lt k c.pos
  rw [offset, Nat.add_mod, Nat.mod_eq_of_lt hi, Nat.mod_eq_sub_mod h, Nat.mod_eq_of_lt (by omega)]

theorem offset_inj (hi : i < c.size) (hj : j < c.size) (h : c.offset (k + i) = c.offset (k + j)) : i = j := by
  have hlt := Nat.mod_lt k c.pos
  -- each of the two is before the end of the block or behind it
  rcases Nat.lt_or_ge (k % c.size + i) c.size with hi' | hi' <;>
    rcases Nat.lt_or_ge (k % c.size + j) c.size with hj' | hj'
  · rw [offset_add_of_lt hi', offset_add_of_lt hj'] at h
    omega
  · rw [offset_add_of_lt hi', offset_add_of_le hj' hj, offset] at h
    omega
  · rw [offset_add_of_le hi' hi, offset_add_of_lt hj', offset] at h
    omega
  · rw [offset_add_of_le hi' hi, offset_add_of_le hj' hj] at h
    omega

theorem Window.mono {a : Nat} (h : c.Window k n a) (hn : n ≤ n') : c.Window k n' a := by
  obtain ⟨i, hi, ha⟩ := h
  exact ⟨i, by omega, ha⟩

/-- Later positions. -/
theorem Window.shift {a : Nat} (h : c.Window (k + n) n' a) : c.Window k (n + n') a := by
  obtain ⟨i, hi, ha⟩ := h
  exact ⟨n + i, by omega, by rw [ha, Nat.add_assoc]⟩

/-! ### Reading -/

@[simp] theorem length_read (c : CyclicBlock) (m : Mem) (k n : Nat) : (c.read m k n).length = n := by simp [read]

@[simp] theorem getElem_read (h : i < (c.read m k n).length) : (c.read m k n)[i] = m (c.offset (k + i)) := by
  simp [read]

theorem read_append (c : CyclicBlock) (m : Mem) (k n n' : Nat) :
    c.read m k (n + n') = c.read m k n ++ c.read m (k + n) n' := by
  simp only [read, List.range_add, List.map_append, List.map_map]
  congr 1
  refine List.map_congr_left fun i _ => ?_
  simp only [Function.comp_apply, Nat.add_assoc]

/-- A change at later positions is not seen. -/
theorem read_differIn (h : DifferIn (c.Window (k + n) n') m m') (hsize : n + n' ≤ c.size) :
    c.read m' k n = c.read m k n := by
  refine List.map_congr_left fun i hi => h _ ?_
  have hi' := List.mem_range.1 hi
  rintro ⟨j, hj, ha⟩
  rw [Nat.add_assoc] at ha
  have := offset_inj (by omega) (by omega) ha
  omega

/-- The bytes are read in two pieces. -/
theorem read_eq_pieces (h : n ≤ c.size) :
    c.read m k n = (m.readBytes (c.offset k) (c.before k n)).toList ++
      (m.readBytes c.start (n - c.before k n)).toList := by
  have hlt := Nat.mod_lt k c.pos
  have hle : c.before k n ≤ n := Nat.min_le_left _ _
  refine List.ext_getElem (by simp; omega) fun i hi hi' => ?_
  rw [length_read] at hi
  rw [getElem_read, List.getElem_append]
  unfold before at *
  split
  · rename_i hb
    rw [Vector.length_toList] at hb
    rw [offset_add_of_lt (by omega)]
    simp [Mem.readBytes]
  · rename_i hb
    rw [Vector.length_toList] at hb
    rw [offset_add_of_le (by omega) (by omega)]
    simp only [Vector.length_toList, Vector.getElem_toList, Mem.readBytes, Vector.getElem_ofFn]
    congr 2
    omega

/-! ### Writing -/

theorem write_differIn (h : l.length ≤ c.size) : DifferIn (c.Window k l.length) m (c.write m k l) := by
  have hlt := Nat.mod_lt k c.pos
  have hle : c.before k l.length ≤ l.length := Nat.min_le_left _ _
  refine ((Mem.frame_writeBytes _ _ _).differIn fun a ha => ?_).trans
    ((Mem.frame_writeBytes _ _ _).differIn fun a ha => ?_)
  · simp only [Region.mem_iff, List.length_take, offset, before] at ha
    refine ⟨a - c.offset k, by simp only [offset]; omega, ?_⟩
    rw [offset_add_of_lt (by simp only [offset]; omega)]
    simp only [offset]
    omega
  · simp only [Region.mem_iff, List.length_drop, before] at ha
    refine ⟨a - c.start + c.before k l.length, by simp only [before]; omega, ?_⟩
    simp only [before] at hle ⊢
    rw [offset_add_of_le (by omega) (by omega)]
    omega

theorem write_offset (h : l.length ≤ c.size) (hi : i < l.length) : c.write m k l (c.offset (k + i)) = l[i] := by
  have hlt := Nat.mod_lt k c.pos
  have hle : c.before k l.length ≤ l.length := Nat.min_le_left _ _
  rcases Nat.lt_or_ge (k % c.size + i) c.size with hi' | hi'
  · -- the second piece ends before the first one starts
    have happart : c.offset (k + i) ∉ (⟨c.start, (l.drop (c.before k l.length)).length⟩ : Region) := by
      rw [offset_add_of_lt hi']
      simp only [Region.mem_iff, List.length_drop, offset, before]
      omega
    rw [write, Mem.frame_writeBytes _ _ _ _ happart, offset_add_of_lt hi', Mem.writeBytes,
      if_pos (Nat.le_add_right _ _), Nat.add_sub_cancel_left, List.getElem?_take_of_lt (by unfold before; omega),
      List.getElem?_eq_getElem hi]
    rfl
  · have hb : c.before k l.length = c.size - k % c.size := by unfold before; omega
    rw [write, Mem.writeBytes, offset_add_of_le hi' (by omega), if_pos (Nat.le_add_right _ _),
      Nat.add_sub_cancel_left, hb, List.getElem?_drop,
      show c.size - k % c.size + (k % c.size + i - c.size) = i by omega, List.getElem?_eq_getElem hi]
    rfl

@[simp] theorem read_write (h : l.length ≤ c.size) : c.read (c.write m k l) k l.length = l := by
  refine List.ext_getElem (length_read ..) fun i hi hi' => ?_
  rw [getElem_read, write_offset h hi']

end CyclicBlock

end Bytes
