import Mathlib.Algebra.Group.Nat.Defs
import Mathlib.Algebra.Group.Int.Defs
import Mathlib.Algebra.GroupWithZero.Nat

/-!
# Machine words

Unsigned machine arithmetic in its two build modes, outcomes that may abort, and the read-modify-write operations on
an atomic word.  In a debug build an operation that leaves the range aborts, in a release build it wraps; a failed
assertion aborts in both.
-/

namespace Machine

/-- Why a computation was aborted. -/
inductive Fault
  | overflow
  | panic
  deriving DecidableEq, Repr

/-- A computation that may be aborted. -/
abbrev Exec (α : Type) := Except Fault α

/-- A computation that may be aborted or fail with an error of its own. -/
abbrev Try (ε α : Type) := Except (Fault ⊕ ε) α

instance {ε : Type} : MonadLift (Except Fault) (Except (Fault ⊕ ε)) := ⟨fun x => x.mapError .inl⟩

theorem bind_eq_ok {ε α β : Type} {x : Except ε α} {f : α → Except ε β} {r : β} :
    (x >>= f) = .ok r ↔ ∃ a, x = .ok a ∧ f a = .ok r := by
  cases x <;> simp [bind, Except.bind]

theorem bind_eq_error {ε α β : Type} {x : Except ε α} {f : α → Except ε β} {e : ε} :
    (x >>= f) = .error e ↔ x = .error e ∨ ∃ a, x = .ok a ∧ f a = .error e := by
  cases x <;> simp [bind, Except.bind]

theorem map_eq_ok {ε α β : Type} {x : Except ε α} {f : α → β} {r : β} : x.map f = .ok r ↔ ∃ a, x = .ok a ∧ f a = r := by
  cases x <;> simp [Except.map]

@[simp] theorem liftM_ok {ε α : Type} (a : α) : (liftM (.ok a : Except Fault α) : Except (Fault ⊕ ε) α) = .ok a :=
  rfl

theorem liftM_eq_ok {ε α : Type} {x : Except Fault α} {a : α} :
    (liftM x : Except (Fault ⊕ ε) α) = .ok a ↔ x = .ok a := by
  cases x with
  | error e => exact ⟨fun h => (by cases h), fun h => (by cases h)⟩
  | ok v => exact ⟨fun h => (by cases h; rfl), fun h => (by cases h; rfl)⟩

/-- An abort comes from a computation that knows no other failure, or from none. -/
theorem liftM_eq_fault {ε α : Type} {x : Except Fault α} {f : Fault} :
    (liftM x : Except (Fault ⊕ ε) α) = .error (.inl f) ↔ x = .error f := by
  cases x with
  | error e => exact ⟨fun h => Sum.inl.inj (Except.error.inj h) ▸ rfl, fun h => Except.error.inj h ▸ rfl⟩
  | ok v => exact ⟨nofun, nofun⟩

theorem liftM_ne_error {ε α : Type} (x : Except Fault α) (e : ε) :
    (liftM x : Except (Fault ⊕ ε) α) ≠ .error (.inr e) := by
  cases x <;> nofun

inductive Build
  | debug
  | release
  deriving DecidableEq, Repr

namespace Build

/-- The value `v` if the operation stayed in range, and else what the build mode prescribes. -/
def checked (b : Build) (inRange : Prop) [Decidable inRange] (v : UInt64) : Exec UInt64 :=
  if inRange then .ok v
  else match b with
    | debug => .error .overflow
    | release => .ok v

def add (b : Build) (x y : UInt64) : Exec UInt64 := b.checked (x.toNat + y.toNat < 2 ^ 64) (x + y)

def sub (b : Build) (x y : UInt64) : Exec UInt64 := b.checked (y ≤ x) (x - y)

def mul (b : Build) (x y : UInt64) : Exec UInt64 := b.checked (x.toNat * y.toNat < 2 ^ 64) (x * y)

@[simp] theorem checked_release (p : Prop) [Decidable p] (v : UInt64) : release.checked p v = .ok v := by
  simp [checked]

@[simp] theorem add_release (x y : UInt64) : release.add x y = .ok (x + y) := checked_release ..
@[simp] theorem sub_release (x y : UInt64) : release.sub x y = .ok (x - y) := checked_release ..
@[simp] theorem mul_release (x y : UInt64) : release.mul x y = .ok (x * y) := checked_release ..

theorem add_of_lt (b : Build) {x y : UInt64} (h : x.toNat + y.toNat < 2 ^ 64) : b.add x y = .ok (x + y) :=
  if_pos h

theorem sub_of_le (b : Build) {x y : UInt64} (h : y ≤ x) : b.sub x y = .ok (x - y) :=
  if_pos h

theorem checked_eq_ok {b : Build} {p : Prop} [Decidable p] {v w : UInt64} :
    b.checked p v = .ok w ↔ (b = debug → p) ∧ w = v := by
  unfold checked
  by_cases hp : p
  · simp [hp, eq_comm]
  · cases b <;> simp [hp, eq_comm]

theorem add_eq_ok {b : Build} {x y v : UInt64} :
    b.add x y = .ok v ↔ (b = debug → x.toNat + y.toNat < 2 ^ 64) ∧ v = x + y := checked_eq_ok

theorem sub_eq_ok {b : Build} {x y v : UInt64} : b.sub x y = .ok v ↔ (b = debug → y ≤ x) ∧ v = x - y := checked_eq_ok

theorem mul_eq_ok {b : Build} {x y v : UInt64} :
    b.mul x y = .ok v ↔ (b = debug → x.toNat * y.toNat < 2 ^ 64) ∧ v = x * y := checked_eq_ok

/-- The addition of signed words. -/
def addI64 (b : Build) (x y : Int64) : Exec Int64 :=
  match b with
  | debug => if -2 ^ 63 ≤ x.toInt + y.toInt ∧ x.toInt + y.toInt < 2 ^ 63 then .ok (x + y) else .error .overflow
  | release => .ok (x + y)

/-- The addition of signed words of 32 bits. -/
def addI32 (b : Build) (x y : Int32) : Exec Int32 :=
  match b with
  | debug => if -2 ^ 31 ≤ x.toInt + y.toInt ∧ x.toInt + y.toInt < 2 ^ 31 then .ok (x + y) else .error .overflow
  | release => .ok (x + y)

/-- The addition of words of 32 bits. -/
def addU32 (b : Build) (x y : UInt32) : Exec UInt32 :=
  match b with
  | debug => if x.toNat + y.toNat < 2 ^ 32 then .ok (x + y) else .error .overflow
  | release => .ok (x + y)

theorem addI64_of_inRange (b : Build) {x y : Int64} (h : -2 ^ 63 ≤ x.toInt + y.toInt) (h' : x.toInt + y.toInt < 2 ^ 63) :
    b.addI64 x y = .ok (x + y) ∧ (x + y).toInt = x.toInt + y.toInt := by
  constructor
  · cases b with
    | debug => exact if_pos ⟨h, h'⟩
    | release => rfl
  · rw [Int64.toInt_add]
    exact Int.bmod_eq_of_le h h'

end Build

/-- A cast to a signed word keeps the value if there is room for it. -/
theorem toInt_toInt64 {n : UInt64} (h : n.toNat < 2 ^ 63) : n.toInt64.toInt = n.toNat := by
  have hcond := BitVec.toInt_eq_toNat_cond n.toBitVec
  change n.toInt64.toInt = if 2 * n.toNat < 2 ^ 64 then (n.toNat : Int) else n.toNat - (2 ^ 64 : Nat) at hcond
  rw [hcond, if_pos (by omega)]

/-- Subtraction that reports an underflow as `none`. -/
def checkedSub (x y : UInt64) : Option UInt64 := if y ≤ x then some (x - y) else none

/-- Subtraction that stops at zero. -/
def saturatingSub (x y : UInt64) : UInt64 := if y ≤ x then x - y else 0

@[simp] theorem toNat_saturatingSub (x y : UInt64) : (saturatingSub x y).toNat = x.toNat - y.toNat := by
  unfold saturatingSub
  split
  · rename_i h
    exact UInt64.toNat_sub_of_le _ _ h
  · rename_i h
    rw [UInt64.le_iff_toNat_le] at h
    change 0 = _
    omega

/-- Addition that stops at the largest word. -/
def saturatingAdd (x y : UInt64) : UInt64 := if x.toNat + y.toNat < 2 ^ 64 then x + y else 0xffffffffffffffff

@[simp] theorem toNat_saturatingAdd (x y : UInt64) :
    (saturatingAdd x y).toNat = min (x.toNat + y.toNat) (2 ^ 64 - 1) := by
  unfold saturatingAdd
  split
  · rename_i h
    rw [UInt64.toNat_add, Nat.mod_eq_of_lt h]
    omega
  · rename_i h
    change 2 ^ 64 - 1 = _
    omega

/-- The bits in reverse order. -/
def reverseBits (x : UInt64) : UInt64 := ⟨x.toBitVec.reverse⟩

/-- Of the bits of a word, its negation in reverse order has only the highest. -/
theorem and_reverse_neg_reverse {w : Nat} {x : BitVec w} (h : x.toNat ≠ 0) :
    x &&& (-x.reverse).reverse = BitVec.twoPow w x.toNat.log2 := by
  have hw : x.toNat.log2 < w := (Nat.log2_lt h).2 x.isLt
  refine BitVec.eq_of_getLsbD_eq fun i hi => ?_
  rw [BitVec.getLsbD_and, BitVec.getLsbD_reverse, BitVec.getMsbD_neg, BitVec.getLsbD_twoPow]
  simp only [BitVec.getMsbD_reverse]
  rcases Nat.lt_trichotomy i x.toNat.log2 with hlt | rfl | hgt
  · -- there is a higher bit
    have hex : ∃ j < w, i < j ∧ x.getLsbD j = true := ⟨_, hw, hlt, Nat.testBit_log2 h⟩
    simp [hex, Nat.ne_of_gt hlt]
  · have hno : ¬ ∃ j < w, x.toNat.log2 < j ∧ x.getLsbD j = true := by
      rintro ⟨j, -, hj, hbit⟩
      have hfalse := Nat.testBit_lt_two_pow ((Nat.log2_lt h).1 hj)
      rw [BitVec.getLsbD, hfalse] at hbit
      cases hbit
    have hbit : x.getLsbD x.toNat.log2 = true := Nat.testBit_log2 h
    simp only [hno, hbit, decide_false, Bool.xor_false, Bool.and_self, hw, decide_true]
  · have hbit : x.getLsbD i = false := Nat.testBit_lt_two_pow ((Nat.log2_lt h).1 hgt)
    simp [hbit, Nat.ne_of_lt hgt]

/-- The distance from `addr` to the next multiple of `align`: `addr.wrapping_neg() % align`. -/
def alignUp (addr align : UInt64) : UInt64 := (0 - addr) % align

/-- A power of two below a larger one is at most half of it. -/
theorem two_pow_le_of_lt {k n : Nat} (h : 2 ^ k < 2 ^ (n + 1)) : 2 ^ k ≤ 2 ^ n :=
  Nat.pow_le_pow_right (by decide) (Nat.le_of_lt_succ ((Nat.pow_lt_pow_iff_right (by decide)).1 h))

/-! ### Atomic words -/

/-- An atomic update: the word becomes `f w` if that is defined.  The old word is returned either way. -/
def fetchUpdate (w : UInt32) (f : UInt32 → Option UInt32) : Except UInt32 UInt32 × UInt32 :=
  match f w with
  | some w' => (.ok w, w')
  | none => (.error w, w)

/-- A weak compare-and-exchange.  `spurious` is the hardware's choice to fail although the word matches. -/
def compareExchangeWeak (w current new : UInt32) (spurious : Bool) : Except UInt32 UInt32 × UInt32 :=
  if w = current ∧ spurious = false then (.ok w, new) else (.error w, w)

end Machine
