import Mathlib.Algebra.Group.Nat.Defs

/-!
# Byte memories

A memory is a function from offsets to bytes.  Words of 32 and 64 bits are read and written in little-endian order,
arrays of bytes as they are.  What is written is read back, and a read sees nothing of a write to a region apart from
its own; both follow from where a write changes the memory (`Region.Frame`).
-/

namespace Bytes

abbrev Mem := Nat → UInt8

/-! ### Regions -/

/-- The offsets `start, …, start + len - 1`. -/
structure Region where
  start : Nat
  len : Nat
  deriving DecidableEq, Repr

namespace Region

instance : Membership Nat Region := ⟨fun r a => r.start ≤ a ∧ a < r.start + r.len⟩

theorem mem_iff {r : Region} {a : Nat} : a ∈ r ↔ r.start ≤ a ∧ a < r.start + r.len := Iff.rfl

instance (r : Region) (a : Nat) : Decidable (a ∈ r) := inferInstanceAs (Decidable (_ ∧ _))

/-- One region ends before the other begins. -/
def Apart (r s : Region) : Prop := r.start + r.len ≤ s.start ∨ s.start + s.len ≤ r.start

instance (r s : Region) : Decidable (r.Apart s) := inferInstanceAs (Decidable (_ ∨ _))

/-- `r` is a part of `s`. -/
def Within (r s : Region) : Prop := s.start ≤ r.start ∧ r.start + r.len ≤ s.start + s.len

instance (r s : Region) : Decidable (r.Within s) := inferInstanceAs (Decidable (_ ∧ _))

variable {r s t : Region} {a : Nat}

theorem Apart.symm (h : r.Apart s) : s.Apart r := Or.symm h

theorem Within.trans (h : r.Within s) (h' : s.Within t) : r.Within t := by
  simp only [Within] at *; omega

theorem Within.mem (h : r.Within s) (ha : a ∈ r) : a ∈ s := by
  simp only [Within, mem_iff] at *; omega

theorem Apart.within (h : s.Apart t) (hr : r.Within s) : r.Apart t := by
  simp only [Apart, Within] at *; omega

theorem Apart.not_mem (h : r.Apart s) (ha : a ∈ r) : a ∉ s := by
  simp only [Apart, mem_iff] at *; omega

/-- All offsets of the region are below the size of a memory. -/
def Below (r : Region) (size : Nat) : Prop := ∀ a ∈ r, a < size

theorem below_iff {size : Nat} : r.Below size ↔ r.len = 0 ∨ r.start + r.len ≤ size := by
  constructor
  · intro h
    by_cases hlen : r.len = 0
    · exact .inl hlen
    · have := h (r.start + r.len - 1) (mem_iff.2 (by omega))
      omega
  · intro h a ha
    rw [mem_iff] at ha
    omega

/-- The memories agree outside the region. -/
def Frame (r : Region) (m m' : Mem) : Prop := ∀ a, a ∉ r → m' a = m a

theorem Frame.refl (r : Region) (m : Mem) : r.Frame m m := fun _ _ => rfl

theorem Frame.trans {m m' m'' : Mem} (h : r.Frame m m') (h' : r.Frame m' m'') : r.Frame m m'' :=
  fun a ha => (h' a ha).trans (h a ha)

theorem Frame.mono {m m' : Mem} (h : r.Frame m m') (hr : r.Within s) : s.Frame m m' :=
  fun a ha => h a fun hm => ha (hr.mem hm)

end Region

/-- The memories agree outside a set of offsets. -/
def DifferIn (S : Nat → Prop) (m m' : Mem) : Prop := ∀ a, ¬ S a → m' a = m a

namespace DifferIn

variable {S T : Nat → Prop} {m m' m'' : Mem}

theorem refl (S : Nat → Prop) (m : Mem) : DifferIn S m m := fun _ _ => rfl

theorem trans (h : DifferIn S m m') (h' : DifferIn S m' m'') : DifferIn S m m'' :=
  fun a ha => (h' a ha).trans (h a ha)

theorem mono (h : DifferIn S m m') (hST : ∀ a, S a → T a) : DifferIn T m m' :=
  fun a ha => h a fun hS => ha (hST a hS)

end DifferIn

theorem Region.Frame.differIn {r : Region} {S : Nat → Prop} {m m' : Mem} (h : r.Frame m m') (hS : ∀ a ∈ r, S a) :
    DifferIn S m m' :=
  fun a ha => h a fun hr => ha (hS a hr)

/-! ### Numbers in little-endian order -/

namespace Mem

def readLE (m : Mem) (a : Nat) : Nat → Nat
  | 0 => 0
  | k + 1 => (m a).toNat + 256 * readLE m (a + 1) k

def writeLE (m : Mem) (a k v : Nat) : Mem :=
  fun b => if a ≤ b ∧ b < a + k then UInt8.ofNat (v / 256 ^ (b - a)) else m b

theorem frame_writeLE (m : Mem) (a k v : Nat) : Region.Frame ⟨a, k⟩ m (m.writeLE a k v) :=
  fun _ hb => if_neg hb

theorem readLE_congr {m m' : Mem} {a k : Nat} (h : ∀ b, a ≤ b → b < a + k → m' b = m b) :
    m'.readLE a k = m.readLE a k := by
  induction k generalizing a with
  | zero => rfl
  | succ k ih =>
    rw [readLE, readLE, h a (Nat.le_refl _) (by omega), ih fun b hb hb' => h b (by omega) (by omega)]

/-- A change elsewhere is not seen. -/
theorem readLE_frame {m m' : Mem} {a k : Nat} {r : Region} (hf : r.Frame m m') (h : Region.Apart ⟨a, k⟩ r) :
    m'.readLE a k = m.readLE a k :=
  readLE_congr fun b hb hb' => hf b (h.not_mem (Region.mem_iff.2 ⟨hb, hb'⟩))

/-- Digit by digit: reading `j` bytes of a number from its `i`-th byte on. -/
private theorem readLE_writeLE_at (m : Mem) (a k v i j : Nat) (h : i + j ≤ k) :
    (m.writeLE a k v).readLE (a + i) j = v / 256 ^ i % 256 ^ j := by
  induction j generalizing i with
  | zero => simp [readLE, Nat.mod_one]
  | succ j ih =>
    have hbyte : m.writeLE a k v (a + i) = UInt8.ofNat (v / 256 ^ i) := by
      simp only [writeLE]
      rw [if_pos (by omega), Nat.add_sub_cancel_left]
    have hrest := ih (i + 1) (by omega)
    rw [← Nat.add_assoc] at hrest
    rw [readLE, hbyte, hrest, UInt8.toNat_ofNat', Nat.pow_succ 256 j, Nat.pow_succ 256 i,
      ← Nat.div_div_eq_div_mul, Nat.mul_comm (256 ^ j), Nat.mod_mul]

theorem readLE_writeLE (m : Mem) (a k v : Nat) : (m.writeLE a k v).readLE a k = v % 256 ^ k := by
  simpa using readLE_writeLE_at m a k v 0 k (by omega)

/-! ### Words -/

def readU32 (m : Mem) (a : Nat) : UInt32 := UInt32.ofNat (m.readLE a 4)
def readU64 (m : Mem) (a : Nat) : UInt64 := UInt64.ofNat (m.readLE a 8)
def writeU32 (m : Mem) (a : Nat) (v : UInt32) : Mem := m.writeLE a 4 v.toNat
def writeU64 (m : Mem) (a : Nat) (v : UInt64) : Mem := m.writeLE a 8 v.toNat

@[simp] theorem readU32_writeU32 (m : Mem) (a : Nat) (v : UInt32) : (m.writeU32 a v).readU32 a = v := by
  rw [readU32, writeU32, readLE_writeLE, Nat.mod_eq_of_lt (show v.toNat < 256 ^ 4 from v.toNat_lt), UInt32.ofNat_toNat]

@[simp] theorem readU64_writeU64 (m : Mem) (a : Nat) (v : UInt64) : (m.writeU64 a v).readU64 a = v := by
  rw [readU64, writeU64, readLE_writeLE, Nat.mod_eq_of_lt (show v.toNat < 256 ^ 8 from v.toNat_lt), UInt64.ofNat_toNat]

theorem frame_writeU32 (m : Mem) (a : Nat) (v : UInt32) : Region.Frame ⟨a, 4⟩ m (m.writeU32 a v) :=
  frame_writeLE m a 4 v.toNat

theorem frame_writeU64 (m : Mem) (a : Nat) (v : UInt64) : Region.Frame ⟨a, 8⟩ m (m.writeU64 a v) :=
  frame_writeLE m a 8 v.toNat

theorem readU32_frame {m m' : Mem} {a : Nat} {r : Region} (hf : r.Frame m m') (h : Region.Apart ⟨a, 4⟩ r) :
    m'.readU32 a = m.readU32 a := by
  rw [readU32, readU32, readLE_frame hf h]

theorem readU64_frame {m m' : Mem} {a : Nat} {r : Region} (hf : r.Frame m m') (h : Region.Apart ⟨a, 8⟩ r) :
    m'.readU64 a = m.readU64 a := by
  rw [readU64, readU64, readLE_frame hf h]

theorem readU64_writeU64_of_apart {a b : Nat} (m : Mem) (v : UInt64) (h : b + 8 ≤ a ∨ a + 8 ≤ b) :
    (m.writeU64 a v).readU64 b = m.readU64 b :=
  readU64_frame (frame_writeU64 m a v) h

theorem readU64_writeU32_of_apart {a b : Nat} (m : Mem) (v : UInt32) (h : b + 8 ≤ a ∨ a + 4 ≤ b) :
    (m.writeU32 a v).readU64 b = m.readU64 b :=
  readU64_frame (frame_writeU32 m a v) h

theorem readU32_writeU32_of_apart {a b : Nat} (m : Mem) (v : UInt32) (h : b + 4 ≤ a ∨ a + 4 ≤ b) :
    (m.writeU32 a v).readU32 b = m.readU32 b :=
  readU32_frame (frame_writeU32 m a v) h

/-- Words one after the other. -/
def writeU64s (m : Mem) (a : Nat) : List UInt64 → Mem
  | [] => m
  | w :: ws => (m.writeU64 a w).writeU64s (a + 8) ws

theorem frame_writeU64s (m : Mem) (a : Nat) (ws : List UInt64) :
    Region.Frame ⟨a, 8 * ws.length⟩ m (m.writeU64s a ws) := by
  induction ws generalizing m a with
  | nil => exact Region.Frame.refl _ _
  | cons w ws ih =>
    refine ((frame_writeU64 m a w).mono ?_).trans ((ih (m.writeU64 a w) (a + 8)).mono ?_)
    · simp only [Region.Within, List.length_cons]; omega
    · simp only [Region.Within, List.length_cons]; omega

theorem readU64_writeU64s (m : Mem) (a : Nat) (ws : List UInt64) (i : Nat) (hi : i < ws.length) :
    (m.writeU64s a ws).readU64 (a + 8 * i) = ws[i] := by
  induction ws generalizing m a i with
  | nil => cases hi
  | cons w ws ih =>
    cases i with
    | zero =>
      have hf := frame_writeU64s (m.writeU64 a w) (a + 8) ws
      rw [writeU64s, Nat.mul_zero, Nat.add_zero a, readU64_frame hf (.inl (Nat.le_refl _)), readU64_writeU64]
      rfl
    | succ i =>
      rw [writeU64s, show a + 8 * (i + 1) = a + 8 + 8 * i by omega]
      exact ih (m.writeU64 a w) (a + 8) i (Nat.lt_of_succ_lt_succ hi)

/-! ### Arrays of bytes -/

def readBytes (m : Mem) (a N : Nat) : Vector UInt8 N := Vector.ofFn fun i => m (a + i)

def writeBytes (m : Mem) (a : Nat) (l : List UInt8) : Mem :=
  fun b => if a ≤ b then l[b - a]?.getD (m b) else m b

theorem frame_writeBytes (m : Mem) (a : Nat) (l : List UInt8) :
    Region.Frame ⟨a, l.length⟩ m (m.writeBytes a l) := by
  intro b hb
  simp only [writeBytes]
  split
  · rename_i hle
    rw [List.getElem?_eq_none (by simp only [Region.mem_iff] at hb; omega)]
    rfl
  · rfl

@[simp] theorem readBytes_writeBytes {N : Nat} (m : Mem) (a : Nat) (v : Vector UInt8 N) :
    (m.writeBytes a v.toList).readBytes a N = v := by
  ext i hi
  simp [readBytes, writeBytes]

theorem readBytes_frame {m m' : Mem} {a N : Nat} {r : Region} (hf : r.Frame m m') (h : Region.Apart ⟨a, N⟩ r) :
    m'.readBytes a N = m.readBytes a N := by
  ext i hi
  simp only [readBytes, Vector.getElem_ofFn]
  rw [hf _ (h.not_mem (Region.mem_iff.2 ⟨by simp, by simpa using hi⟩))]

end Mem

/-- `u64::to_le_bytes` -/
def toLeBytes (v : UInt64) : Vector UInt8 8 := (Mem.writeU64 (fun _ => 0) 0 v).readBytes 0 8

/-- `u64::from_le_bytes` -/
def fromLeBytes (bytes : Vector UInt8 8) : UInt64 := (Mem.writeBytes (fun _ => 0) 0 bytes.toList).readU64 0

@[simp] theorem fromLeBytes_toLeBytes (v : UInt64) : fromLeBytes (toLeBytes v) = v := by
  have hbytes : ∀ a, 0 ≤ a → a < 0 + 8 →
      Mem.writeBytes (fun _ => 0) 0 (toLeBytes v).toList a = Mem.writeU64 (fun _ => 0) 0 v a := by
    intro a _ ha
    simp [Mem.writeBytes, toLeBytes, Mem.readBytes, show a < 8 by omega]
  rw [fromLeBytes, Mem.readU64, Mem.readLE_congr hbytes]
  exact Mem.readU64_writeU64 (fun _ => 0) 0 v

end Bytes
