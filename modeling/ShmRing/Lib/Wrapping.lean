import Mathlib.Data.List.Basic
import Mathlib.Data.Nat.ModEq
import Mathlib.Logic.Function.Basic

/-!
# Queues whose counters wrap

A queue in an array of `2 ^ k` slots, between two positions that are counted in words of 32 bits.  A position has the
slot that its low bits say; as the number of slots divides `2 ^ 32`, it does not matter that the counters wrap, nor how
often.

`walk` reads so many entries from a position on.  The rules say what an entry does that is written behind them
(`walk_push`, `walk_write`), and how a walk is cut in two (`walk_add`).
-/

namespace Wrapping

variable {E : Type*} {mask head tail pos : UInt32} {n i j k : Nat} {slots : Nat → E}

/-- The mask of `n` slots. -/
def IsMask (mask : UInt32) (n : Nat) : Prop := ∃ k ≤ 31, n = 2 ^ k ∧ mask.toNat = n - 1

/-- The slot of a position. -/
def slot (mask pos : UInt32) : Nat := (pos &&& mask).toNat

/-- The number of positions from one up to another. -/
def count (head tail : UInt32) : Nat := (tail - head).toNat

def walk (mask : UInt32) (slots : Nat → E) (pos : UInt32) : Nat → List E
  | 0 => []
  | k + 1 => slots (slot mask pos) :: walk mask slots (pos + 1) k

/-! ### Positions -/

theorem add_ofNat_add (pos : UInt32) (i j : Nat) :
    pos + UInt32.ofNat (i + j) = pos + UInt32.ofNat i + UInt32.ofNat j := by
  rw [UInt32.ofNat_add, UInt32.add_assoc]

theorem add_ofNat_succ (pos : UInt32) (i : Nat) : pos + UInt32.ofNat (i + 1) = pos + 1 + UInt32.ofNat i := by
  rw [Nat.add_comm, add_ofNat_add]
  rfl

theorem count_lt (head tail : UInt32) : count head tail < 2 ^ 32 := (tail - head).toNat_lt

@[simp] theorem count_self (head : UInt32) : count head head = 0 := by simp [count]

/-- The later position, from the earlier one. -/
theorem add_count (head tail : UInt32) : head + UInt32.ofNat (count head tail) = tail := by
  rw [count, UInt32.ofNat_toNat, UInt32.add_comm, UInt32.sub_add_cancel]

theorem count_eq_zero : count head tail = 0 ↔ head = tail := by
  constructor
  · intro h
    have hadd := add_count head tail
    rw [h] at hadd
    exact (UInt32.add_zero head).symm.trans hadd
  · rintro rfl
    exact count_self head

theorem count_add (head : UInt32) (hk : k < 2 ^ 32) : count head (head + UInt32.ofNat k) = k := by
  rw [count, UInt32.add_comm, UInt32.add_sub_cancel, UInt32.toNat_ofNat', Nat.mod_eq_of_lt hk]

/-- The earlier position moves. -/
theorem count_advance (h : k ≤ count head tail) : count (head + UInt32.ofNat k) tail = count head tail - k := by
  have hlt := count_lt head tail
  have heq : tail = head + UInt32.ofNat k + UInt32.ofNat (count head tail - k) := by
    rw [← add_ofNat_add, Nat.add_sub_cancel' h, add_count]
  conv_lhs => rw [heq]
  exact count_add _ (by omega)

/-- The later position moves. -/
theorem count_extend (h : count head tail + k < 2 ^ 32) : count head (tail + UInt32.ofNat k) = count head tail + k := by
  conv_lhs => rw [← add_count head tail, ← add_ofNat_add]
  exact count_add _ h

/-- A position in between. -/
theorem count_between (head mid tail : UInt32) (h : count head mid ≤ count head tail) :
    count head tail = count head mid + count mid tail := by
  have hrest := count_advance h
  rw [add_count] at hrest
  omega

/-! ### Slots -/

namespace IsMask

theorem size_lt (h : IsMask mask n) : n < 2 ^ 32 := by
  obtain ⟨k, hk, rfl, -⟩ := h
  exact Nat.pow_lt_pow_right (by decide) (by omega)

theorem size_dvd (h : IsMask mask n) : n ∣ 2 ^ 32 := by
  obtain ⟨k, hk, rfl, -⟩ := h
  exact Nat.pow_dvd_pow 2 (by omega)

theorem slot_eq (h : IsMask mask n) (pos : UInt32) : slot mask pos = pos.toNat % n := by
  obtain ⟨k, -, rfl, hmask⟩ := h
  rw [slot, UInt32.toNat_and, hmask, Nat.and_two_pow_sub_one_eq_mod]

/-- The slot of a later position. -/
theorem slot_add (h : IsMask mask n) (pos : UInt32) (i : Nat) :
    slot mask (pos + UInt32.ofNat i) = (pos.toNat + i) % n := by
  rw [h.slot_eq, UInt32.toNat_add, UInt32.toNat_ofNat', Nat.mod_mod_of_dvd _ h.size_dvd, Nat.add_mod,
    Nat.mod_mod_of_dvd _ h.size_dvd, ← Nat.add_mod]

/-- Positions that are less than a round apart have different slots. -/
theorem slot_ne (h : IsMask mask n) (hij : i < j) (hj : j < i + n) :
    slot mask (pos + UInt32.ofNat i) ≠ slot mask (pos + UInt32.ofNat j) := by
  intro heq
  rw [h.slot_add, h.slot_add] at heq
  have hmod : i ≡ j [MOD n] := Nat.ModEq.add_left_cancel' pos.toNat heq
  have hle := Nat.le_of_dvd (by omega) ((Nat.modEq_iff_dvd' (by omega)).1 hmod)
  omega

end IsMask

/-! ### Walks -/

@[simp] theorem length_walk (mask : UInt32) (slots : Nat → E) (pos : UInt32) (k : Nat) :
    (walk mask slots pos k).length = k := by
  induction k generalizing pos with
  | zero => rfl
  | succ k ih => rw [walk, List.length_cons, ih]

theorem walk_add (mask : UInt32) (slots : Nat → E) (pos : UInt32) (j k : Nat) :
    walk mask slots pos (j + k) = walk mask slots pos j ++ walk mask slots (pos + UInt32.ofNat j) k := by
  induction j generalizing pos with
  | zero =>
    have hzero : pos + UInt32.ofNat 0 = pos := UInt32.add_zero pos
    rw [hzero, Nat.zero_add]
    rfl
  | succ j ih =>
    rw [Nat.succ_add, walk, ih, add_ofNat_succ]
    rfl

theorem take_walk (h : j ≤ k) : (walk mask slots pos k).take j = walk mask slots pos j := by
  obtain ⟨i, rfl⟩ := Nat.exists_eq_add_of_le h
  rw [walk_add, List.take_left' (length_walk ..)]

theorem drop_walk (h : j ≤ k) :
    (walk mask slots pos k).drop j = walk mask slots (pos + UInt32.ofNat j) (k - j) := by
  obtain ⟨i, rfl⟩ := Nat.exists_eq_add_of_le h
  rw [walk_add, List.drop_left' (length_walk ..), Nat.add_sub_cancel_left]

/-- What is written in another slot is not read. -/
theorem walk_congr {slots' : Nat → E}
    (h : ∀ i < k, slots' (slot mask (pos + UInt32.ofNat i)) = slots (slot mask (pos + UInt32.ofNat i))) :
    walk mask slots' pos k = walk mask slots pos k := by
  induction k generalizing pos with
  | zero => rfl
  | succ k ih =>
    have hfirst := h 0 (Nat.succ_pos k)
    have hzero : pos + UInt32.ofNat 0 = pos := UInt32.add_zero pos
    rw [hzero] at hfirst
    rw [walk, walk, hfirst, ih fun i hi => ?_]
    have hnext := h (i + 1) (by omega)
    rwa [add_ofNat_succ] at hnext

/-- An entry that is written at a later position, less than a round away. -/
theorem IsMask.walk_write (h : IsMask mask n) (slots : Nat → E) (pos : UInt32) (hjk : j ≤ k) (hk : k < n) (e : E) :
    walk mask (Function.update slots (slot mask (pos + UInt32.ofNat k)) e) pos j = walk mask slots pos j := by
  refine walk_congr fun i hi => ?_
  exact Function.update_of_ne (h.slot_ne (by omega) (by omega)) ..

/-- An entry that is written behind the last one. -/
theorem IsMask.walk_push (h : IsMask mask n) (slots : Nat → E) (pos : UInt32) (hk : k < n) (e : E) :
    walk mask (Function.update slots (slot mask (pos + UInt32.ofNat k)) e) pos (k + 1) =
      walk mask slots pos k ++ [e] := by
  rw [walk_add, h.walk_write slots pos (Nat.le_refl k) hk]
  congr 1
  rw [walk, walk, Function.update_self]

end Wrapping
