import ShmRing.Data
import ShmRing.Lib.Bytes

/-!
# Structures in memory

Where the fields of the shared structures lie, as `repr(C)` places them, and how the structures are read from and
written to a memory of bytes.  Offsets are relative to the start of the mapping.
-/

namespace ShmRing

open Machine Bytes

/-! ### The head of the mapping -/

/-- The head of the mapping; `ring_ping` is two `u32`s, taken here as one word. -/
structure ShmHead where
  ringMagic : UInt64
  ringCount : UInt64
  ringOffset : UInt64
  ringPing : UInt64
  deriving DecidableEq, Repr

namespace ShmHead

def size : Nat := 32

/-- `RingMagic::MAGIC` -/
def magic : UInt64 := 0x9e6ca4fd8624a738

def read (m : Mem) : ShmHead := ⟨m.readU64 0, m.readU64 8, m.readU64 16, m.readU64 24⟩

/-- The magic is written last. -/
def write (m : Mem) (h : ShmHead) : Mem :=
  (((((m.writeU64 0 0).writeU64 8 h.ringCount).writeU64 16 h.ringOffset).writeU64 24 h.ringPing).writeU64 0
    h.ringMagic)

theorem read_write (m : Mem) (h : ShmHead) : read (write m h) = h := by
  simp [read, write, Mem.readU64_writeU64_of_apart]

theorem frame_write (m : Mem) (h : ShmHead) : Region.Frame ⟨0, size⟩ m (write m h) := by
  have h₁ : ∀ (m : Mem) (a : Nat) (v : UInt64), a + 8 ≤ size → Region.Frame ⟨0, size⟩ m (m.writeU64 a v) :=
    fun m a v ha => (Mem.frame_writeU64 m a v).mono ⟨Nat.zero_le _, by simpa using ha⟩
  exact ((((h₁ _ _ _ (by decide)).trans (h₁ _ _ _ (by decide))).trans (h₁ _ _ _ (by decide))).trans
    (h₁ _ _ _ (by decide))).trans (h₁ _ _ _ (by decide))

end ShmHead

/-! ### The records of the rings -/

namespace RingInfo

def size : Nat := 768

/-- The offset of an owner word in the record. -/
def ownerOffset : ClientSide → Nat
  | .left => 256
  | .right => 512

/-- A field before the slots. -/
def word (m : Mem) (a i : Nat) : UInt64 := m.readU64 (a + 8 * i)

def read (m : Mem) (a : Nat) : RingInfo where
  version := word m a 0
  offsetHead := word m a 1
  offsetRing := word m a 2
  offsetData := word m a 3
  sizeHead := word m a 4
  sizeRing := word m a 5
  sizeData := word m a 6
  sizeSlotEntry := word m a 7
  lhs := m.readU32 (a + ownerOffset .left)
  rhs := m.readU32 (a + ownerOffset .right)

/-- The fields before the slots. -/
def words (info : RingInfo) : List UInt64 :=
  [info.version, info.offsetHead, info.offsetRing, info.offsetData, info.sizeHead, info.sizeRing, info.sizeData,
    info.sizeSlotEntry]

def write (m : Mem) (a : Nat) (info : RingInfo) : Mem :=
  ((m.writeU64s a info.words).writeU32 (a + ownerOffset .left) info.lhs).writeU32 (a + ownerOffset .right) info.rhs

/-- The region of an owner word. -/
def ownerRegion (a : Nat) (side : ClientSide) : Region := ⟨a + ownerOffset side, 4⟩

private theorem frame_write (m : Mem) (a : Nat) (info : RingInfo) : Region.Frame ⟨a, size⟩ m (write m a info) := by
  refine (((Mem.frame_writeU64s m a info.words).mono ?_).trans ((Mem.frame_writeU32 _ _ _).mono ?_)).trans
    ((Mem.frame_writeU32 _ _ _).mono ?_)
  all_goals simp only [Region.Within, words, List.length_cons, List.length_nil, ownerOffset, size]; omega

theorem read_write (m : Mem) (a : Nat) (info : RingInfo) : read (write m a info) a = info := by
  -- the eight words come before both owner words
  have hword : ∀ i (hi : i < info.words.length), word (write m a info) a i = info.words[i] := by
    intro i hi
    have hi' : i < 8 := hi
    rw [word, write, Mem.readU64_writeU32_of_apart _ _ (.inl (by simp only [ownerOffset]; omega)),
      Mem.readU64_writeU32_of_apart _ _ (.inl (by simp only [ownerOffset]; omega)), Mem.readU64_writeU64s]
  have hlhs : (write m a info).readU32 (a + ownerOffset .left) = info.lhs := by
    rw [write, Mem.readU32_writeU32_of_apart _ _ (.inl (by simp only [ownerOffset]; omega)), Mem.readU32_writeU32]
  have hrhs : (write m a info).readU32 (a + ownerOffset .right) = info.rhs := Mem.readU32_writeU32 ..
  simp only [read, hlhs, hrhs]
  rw [hword 0 (by decide : 0 < 8), hword 1 (by decide : 1 < 8), hword 2 (by decide : 2 < 8),
    hword 3 (by decide : 3 < 8), hword 4 (by decide : 4 < 8), hword 5 (by decide : 5 < 8),
    hword 6 (by decide : 6 < 8), hword 7 (by decide : 7 < 8)]
  rfl

/-- A change outside a record is not seen in it. -/
theorem read_frame {m m' : Mem} {a : Nat} {r : Region} (hf : r.Frame m m') (h : Region.Apart ⟨a, size⟩ r) :
    read m' a = read m a := by
  have h64 : ∀ i, i < 8 → word m' a i = word m a i := fun i hi =>
    Mem.readU64_frame hf (h.within (by simp only [Region.Within, size]; omega))
  have h32 : ∀ s, m'.readU32 (a + ownerOffset s) = m.readU32 (a + ownerOffset s) := fun s =>
    Mem.readU32_frame hf (h.within (by cases s <;> simp only [Region.Within, size, ownerOffset] <;> omega))
  simp only [read, h32]
  rw [h64 0 (by decide), h64 1 (by decide), h64 2 (by decide), h64 3 (by decide), h64 4 (by decide),
    h64 5 (by decide), h64 6 (by decide), h64 7 (by decide)]

/-- The fields before the slots are the same; the owner words need not be. -/
def SameFields (a : Nat) (m m' : Mem) : Prop := ∀ i, i < 8 → word m' a i = word m a i

theorem SameFields.read_eq {a : Nat} {m m' : Mem} (h : SameFields a m m') :
    read m' a = { read m a with lhs := (read m' a).lhs, rhs := (read m' a).rhs } := by
  simp only [read, h 0 (by decide), h 1 (by decide), h 2 (by decide), h 3 (by decide), h 4 (by decide),
    h 5 (by decide), h 6 (by decide), h 7 (by decide)]

/-- Writing an owner word leaves the fields. -/
theorem sameFields_writeOwner (a : Nat) (m : Mem) (side : ClientSide) (v : UInt32) :
    SameFields a m (m.writeU32 (a + ownerOffset side) v) := by
  intro i hi
  refine Mem.readU64_writeU32_of_apart m v (.inl ?_)
  cases side <;> simp only [ownerOffset] <;> omega

end RingInfo

/-! ### The regions of a ring -/

namespace RingInfo

def headRegion (info : RingInfo) : Region := ⟨info.offsetHead.toNat, 4096⟩
def ringRegion (info : RingInfo) : Region := ⟨info.offsetRing.toNat, info.sizeRing.toNat⟩
def dataRegion (info : RingInfo) : Region := ⟨info.offsetData.toNat, info.sizeData.toNat⟩

def regions (info : RingInfo) : List Region := [info.headRegion, info.ringRegion, info.dataRegion]

end RingInfo

/-- The block of records, one after the other. -/
structure Rings where
  start : Nat
  count : Nat
  deriving DecidableEq, Repr

namespace Rings

/-- Where the record of a ring begins. -/
def recordAt (rings : Rings) (i : Nat) : Nat := rings.start + RingInfo.size * i

/-- The record of an index, by its address. -/
def get (rings : Rings) (i : Nat) : Option Nat := if i < rings.count then some (rings.recordAt i) else none

def region (rings : Rings) : Region := ⟨rings.start, RingInfo.size * rings.count⟩

def read (m : Mem) (rings : Rings) : List RingInfo :=
  (List.range rings.count).map fun i => RingInfo.read m (rings.recordAt i)

def writeFrom (m : Mem) (a : Nat) : List RingInfo → Mem
  | [] => m
  | info :: infos => writeFrom (RingInfo.write m a info) (a + RingInfo.size) infos

@[simp] theorem length_read (m : Mem) (rings : Rings) : (rings.read m).length = rings.count := by simp [read]

theorem frame_writeFrom (m : Mem) (a : Nat) (infos : List RingInfo) :
    Region.Frame ⟨a, RingInfo.size * infos.length⟩ m (writeFrom m a infos) := by
  induction infos generalizing m a with
  | nil => exact Region.Frame.refl _ _
  | cons info infos ih =>
    refine ((RingInfo.frame_write m a info).mono ?_).trans ((ih (RingInfo.write m a info) _).mono ?_)
    all_goals simp only [Region.Within, List.length_cons, RingInfo.size]; omega

theorem read_writeFrom (m : Mem) (a : Nat) (infos : List RingInfo) (i : Nat) (hi : i < infos.length) :
    RingInfo.read (writeFrom m a infos) (a + RingInfo.size * i) = infos[i] := by
  induction infos generalizing m a i with
  | nil => cases hi
  | cons info infos ih =>
    cases i with
    | zero =>
      have hf := frame_writeFrom (RingInfo.write m a info) (a + RingInfo.size) infos
      rw [writeFrom, Nat.mul_zero, Nat.add_zero a, RingInfo.read_frame hf (.inl (Nat.le_refl _)),
        RingInfo.read_write]
      rfl
    | succ i =>
      rw [writeFrom, show a + RingInfo.size * (i + 1) = a + RingInfo.size + RingInfo.size * i by
        simp only [RingInfo.size]; omega]
      exact ih (RingInfo.write m a info) (a + RingInfo.size) i (Nat.lt_of_succ_lt_succ hi)

/-- The fields of all records are unchanged; their owner words need not be. -/
def SameRecords (rings : Rings) (m m' : Mem) : Prop :=
  ∀ i, i < rings.count → RingInfo.SameFields (rings.recordAt i) m m'

theorem getElem?_read {m : Mem} {rings : Rings} {i : Nat} (hi : i < rings.count) :
    (rings.read m)[i]? = some (RingInfo.read m (rings.recordAt i)) := by
  simp [read, hi]

end Rings

/-! ### The words of a head page -/

/-- The offset of a word in a `RingHead`. -/
def HeadWord.offset : HeadWord → Nat
  | .producer .left => 0
  | .consumer .left => 256
  | .sendIndicator .left => 512
  | .producer .right => 768
  | .consumer .right => 1024
  | .sendIndicator .right => 1280
  | .blocked => 1536

namespace RingHead

def size : Nat := 1792

theorem offset_le (w : HeadWord) : w.offset + 4 ≤ size := by
  rcases w with (_ | _) | (_ | _) | (_ | _) | _ <;> decide

theorem offset_apart {w w' : HeadWord} (h : w' ≠ w) : w.offset + 4 ≤ w'.offset ∨ w'.offset + 4 ≤ w.offset := by
  rcases w with (_ | _) | (_ | _) | (_ | _) | _ <;> rcases w' with (_ | _) | (_ | _) | (_ | _) | _ <;>
    first
      | exact absurd rfl h
      | decide

end RingHead

end ShmRing
