import ShmRing.Memory

/-!
# The shared mapping

A process maps the file at some address and splits the mapping into its head and a tail behind it.  Every offset
that is found in the memory is checked against the tail, and against the alignment of the address it stands for,
before anything is done with it.  Addresses are those of the process; `Shared.pos` is the offset in the mapping that
an address stands for.
-/

namespace ShmRing

open Machine Bytes

/-- A mapping that the operating system has made: it does not wrap around the address space and is no larger than
`isize::MAX`. -/
structure Mapping where
  base : UInt64
  size : UInt64
  size_lt : size.toNat < 2 ^ 63
  end_lt : base.toNat + size.toNat < 2 ^ 64

private theorem alignUp_toNat (addr align : UInt64) :
    (alignUp addr align).toNat = (2 ^ 64 - addr.toNat) % 2 ^ 64 % align.toNat := by
  rw [alignUp, UInt64.toNat_mod, UInt64.toNat_sub]
  simp

/-- An address needs no padding if and only if the alignment divides it. -/
theorem alignUp_eq_zero {addr align : UInt64} (hpow : align.toNat.isPowerOfTwo) :
    alignUp addr align = 0 ↔ align.toNat ∣ addr.toNat := by
  obtain ⟨k, hk⟩ := hpow
  have hlt := addr.toNat_lt
  have hk64 : k < 64 := by
    have := align.toNat_lt
    rw [hk] at this
    exact (Nat.pow_lt_pow_iff_right (by decide)).1 this
  have hdvd : align.toNat ∣ 2 ^ 64 := by
    rw [hk]; exact Nat.pow_dvd_pow 2 (Nat.le_of_lt hk64)
  rw [← UInt64.toNat_inj, alignUp_toNat, UInt64.toNat_zero, Nat.mod_mod_of_dvd _ hdvd, ← Nat.dvd_iff_mod_eq_zero]
  exact Nat.dvd_sub_iff_right (Nat.le_of_lt hlt) hdvd

/-- A mapping that was split into its head and its tail. -/
structure Shared extends Mapping where
  tailAddr : UInt64
  tailSize : UInt64
  /-- The weak references to the owner of the mapping; a server keeps one. -/
  weakCount : Nat
  aligned : base.toNat % 8 = 0
  tailAddr_eq : tailAddr.toNat = base.toNat + ShmHead.size
  tailSize_eq : tailSize.toNat + ShmHead.size = size.toNat

private theorem tail_eq {map : Mapping} (hsize : ¬ map.size.toNat < ShmHead.size) (hbase : map.base.toNat % 8 = 0) :
    (map.base + 32).toNat = map.base.toNat + ShmHead.size ∧ (map.size - 32).toNat + ShmHead.size = map.size.toNat ∧
      alignUp (map.base + 32) 8 = 0 := by
  have hend := map.end_lt
  simp only [ShmHead.size] at hsize ⊢
  have hadd : (map.base + 32).toNat = map.base.toNat + 32 := by
    rw [UInt64.toNat_add, Nat.mod_eq_of_lt]
    · rfl
    · change map.base.toNat + 32 < _; omega
  refine ⟨hadd, ?_, (alignUp_eq_zero ⟨3, rfl⟩).2 ?_⟩
  · rw [UInt64.toNat_sub_of_le]
    · change map.size.toNat - 32 + 32 = _; omega
    · rw [UInt64.le_iff_toNat_le]; change 32 ≤ _; omega
  · rw [hadd]
    change 8 ∣ _
    omega

/-- `to_head`, which `Shared::new` and `Shared::with_retained` call. -/
def toHead (map : Mapping) (weakCount : Nat) : Option Shared :=
  if hsize : map.size.toNat < ShmHead.size then none
  else if hbase : map.base.toNat % 8 = 0 then
    let tail := map.base + 32
    let tailSize := map.size - 32
    let offset := alignUp tail 8
    if tailSize < offset then none
    else some
      { map with
        tailAddr := tail + offset
        tailSize := tailSize - offset
        weakCount
        aligned := hbase
        tailAddr_eq := by
          obtain ⟨h, -, h₀⟩ := tail_eq hsize hbase
          simp only [tail, offset, h₀]; simpa using h
        tailSize_eq := by
          obtain ⟨-, h, h₀⟩ := tail_eq hsize hbase
          simp only [tail, tailSize, offset, h₀]; simpa using h }
  else none

/-- The layout of an allocation. -/
structure Layout where
  size : UInt64
  align : UInt64
  align_pow : align.toNat.isPowerOfTwo
  size_le : size.toNat + align.toNat ≤ 2 ^ 63

/-- `Layout::from_size_align` -/
def Layout.fromSizeAlign (size align : UInt64) : Option Layout :=
  if h : align.toNat.isPowerOfTwo ∧ size.toNat + align.toNat ≤ 2 ^ 63 then some ⟨size, align, h.1, h.2⟩ else none

theorem Layout.fromSizeAlign_cases (size align : UInt64) :
    (Layout.fromSizeAlign size align = none ∧ ¬ (align.toNat.isPowerOfTwo ∧ size.toNat + align.toNat ≤ 2 ^ 63)) ∨
    ∃ l, Layout.fromSizeAlign size align = some l ∧ l.size = size ∧ l.align = align := by
  by_cases h : align.toNat.isPowerOfTwo ∧ size.toNat + align.toNat ≤ 2 ^ 63
  · exact .inr ⟨⟨size, align, h.1, h.2⟩, dif_pos h, rfl, rfl⟩
  · exact .inl ⟨dif_neg h, h⟩

/-- `Layout::new::<RingHead>()` -/
def Layout.ringHead : Layout := ⟨1792, 8, ⟨3, rfl⟩, by decide⟩

namespace Shared

/-- The offset in the mapping that an address stands for. -/
def pos (s : Shared) (addr : UInt64) : Nat := addr.toNat - s.base.toNat

/-- The mapping behind its head. -/
def tailRegion (s : Shared) : Region := ⟨ShmHead.size, s.tailSize.toNat⟩

theorem head_le (s : Shared) : ShmHead.size ≤ s.size.toNat := by
  have := s.tailSize_eq; omega

def tailOffset (b : Build) (s : Shared) : Exec UInt64 := b.sub s.tailAddr s.base

/-- The address of what lies at an offset, if it lies in the tail and is aligned. -/
def getAlignedDataAtOffsetVal (b : Build) (s : Shared) (offset : UInt64) (layout : Layout) :
    Exec (Option UInt64) := do
  let tailOffset ← s.tailOffset b
  let some offset := checkedSub offset tailOffset | return none
  let some maxOffset := checkedSub s.tailSize layout.size | return none
  if maxOffset < offset then return none
  let start ← b.add s.tailAddr offset
  if alignUp start layout.align ≠ 0 then return none
  return some start

/-- The magic is tested; the head is not otherwise looked at. -/
def readHead (m : Mem) : Option ShmHead :=
  let head := ShmHead.read m
  if head.ringMagic = ShmHead.magic then some head else none

/-- A second server on the same mapping is a panic. -/
def init (s : Shared) (head : ShmHead) (m : Mem) : Exec Mem :=
  if s.weakCount = 0 then .ok (head.write m) else .error .panic

/-! ### What the check of an offset establishes -/

theorem tailOffset_eq (b : Build) (s : Shared) : s.tailOffset b = .ok 32 := by
  have h := s.tailAddr_eq
  have hle : s.base ≤ s.tailAddr := by rw [UInt64.le_iff_toNat_le]; omega
  rw [tailOffset, b.sub_of_le hle]
  congr 1
  rw [← UInt64.toNat_inj, UInt64.toNat_sub_of_le _ _ hle, h, Nat.add_sub_cancel_left]
  rfl

/-- When an offset is accepted: what lies there is in the tail and aligned in the address space of the process. -/
structure Accepts (s : Shared) (offset : UInt64) (size align : Nat) : Prop where
  head_le : ShmHead.size ≤ offset.toNat
  end_le : offset.toNat + size ≤ s.size.toNat
  aligned : align ∣ s.base.toNat + offset.toNat

instance (s : Shared) (offset : UInt64) (size align : Nat) : Decidable (s.Accepts offset size align) :=
  decidable_of_iff (ShmHead.size ≤ offset.toNat ∧ offset.toNat + size ≤ s.size.toNat ∧
    align ∣ s.base.toNat + offset.toNat) ⟨fun h => ⟨h.1, h.2.1, h.2.2⟩, fun h => ⟨h.1, h.2, h.3⟩⟩

theorem Accepts.within {s : Shared} {offset : UInt64} {size align : Nat} (h : s.Accepts offset size align) :
    Region.Within ⟨offset.toNat, size⟩ s.tailRegion := by
  have hhead := h.head_le
  have hend := h.end_le
  have hsize := s.tailSize_eq
  simp only [Region.Within, tailRegion]
  omega

theorem toNat_base_add (s : Shared) (offset : UInt64) (h : offset.toNat ≤ s.size.toNat) :
    (s.base + offset).toNat = s.base.toNat + offset.toNat := by
  have hend := s.end_lt
  rw [UInt64.toNat_add, Nat.mod_eq_of_lt (by omega)]

theorem pos_base_add (s : Shared) (offset : UInt64) (h : offset.toNat ≤ s.size.toNat) :
    s.pos (s.base + offset) = offset.toNat := by
  rw [pos, s.toNat_base_add offset h, Nat.add_sub_cancel_left]

/-- The comparisons of the check, on the numbers. -/
private theorem in_tail_iff (s : Shared) (offset : UInt64) (layout : Layout) :
    (32 ≤ offset ∧ layout.size ≤ s.tailSize ∧ ¬ s.tailSize - layout.size < offset - 32) ↔
      ShmHead.size ≤ offset.toNat ∧ offset.toNat + layout.size.toNat ≤ s.size.toNat := by
  have hsize := s.tailSize_eq
  simp only [ShmHead.size] at hsize ⊢
  constructor
  · rintro ⟨h₁, h₂, h₃⟩
    rw [UInt64.lt_iff_toNat_lt, UInt64.toNat_sub_of_le _ _ h₁, UInt64.toNat_sub_of_le _ _ h₂] at h₃
    rw [UInt64.le_iff_toNat_le] at h₁ h₂
    change 32 ≤ _ at h₁
    change ¬ _ < _ - 32 at h₃
    omega
  · rintro ⟨h₁, h₂⟩
    have h₁' : (32 : UInt64) ≤ offset := by rwa [UInt64.le_iff_toNat_le]
    have h₂' : layout.size ≤ s.tailSize := by rw [UInt64.le_iff_toNat_le]; omega
    refine ⟨h₁', h₂', ?_⟩
    rw [UInt64.lt_iff_toNat_lt, UInt64.toNat_sub_of_le _ _ h₁', UInt64.toNat_sub_of_le _ _ h₂']
    change ¬ _ < _ - 32
    omega

/-- The address of an offset in the tail. -/
private theorem start_eq (s : Shared) {offset : UInt64} (h₁ : ShmHead.size ≤ offset.toNat)
    (h₂ : offset.toNat ≤ s.size.toNat) :
    s.tailAddr.toNat + (offset - 32).toNat < 2 ^ 64 ∧ s.tailAddr + (offset - 32) = s.base + offset ∧
      (s.base + offset).toNat = s.base.toNat + offset.toNat := by
  have htail := s.tailAddr_eq
  have hend := s.end_lt
  have hsub : (offset - 32).toNat = offset.toNat - 32 :=
    UInt64.toNat_sub_of_le _ _ (by rwa [UInt64.le_iff_toNat_le])
  simp only [ShmHead.size] at htail h₁
  have hsum := s.toNat_base_add offset h₂
  refine ⟨by omega, ?_, hsum⟩
  rw [← UInt64.toNat_inj, hsum, UInt64.toNat_add, htail, hsub, Nat.mod_eq_of_lt (by omega)]
  omega

/-- The check computes without overflow in either build mode, and accepts exactly the offsets that it should. -/
theorem getAlignedDataAtOffsetVal_eq (b : Build) (s : Shared) (offset : UInt64) (layout : Layout) :
    s.getAlignedDataAtOffsetVal b offset layout =
      .ok (if s.Accepts offset layout.size.toNat layout.align.toNat then some (s.base + offset) else none) := by
  have hiff := s.in_tail_iff offset layout
  simp only [getAlignedDataAtOffsetVal, tailOffset_eq, checkedSub, bind, Except.bind, pure, Except.pure]
  by_cases hin : 32 ≤ offset ∧ layout.size ≤ s.tailSize ∧ ¬ s.tailSize - layout.size < offset - 32
  · obtain ⟨hhead, hend⟩ := hiff.1 hin
    obtain ⟨hlt, hadd, hnat⟩ := s.start_eq hhead (by omega)
    simp only [if_pos hin.1, if_pos hin.2.1, if_neg hin.2.2, b.add_of_lt hlt, hadd]
    by_cases hal : alignUp (s.base + offset) layout.align = 0
    · have hacc : s.Accepts offset layout.size.toNat layout.align.toNat :=
        ⟨hhead, hend, by rw [← hnat]; exact (alignUp_eq_zero layout.align_pow).1 hal⟩
      simp only [hal, ne_eq, not_true, if_false, if_pos hacc]
    · have hacc : ¬ s.Accepts offset layout.size.toNat layout.align.toNat := fun h =>
        hal ((alignUp_eq_zero layout.align_pow).2 (by rw [hnat]; exact h.aligned))
      simp only [hal, ne_eq, not_false_eq_true, if_true, if_neg hacc]
  · have hacc : ¬ s.Accepts offset layout.size.toNat layout.align.toNat := fun h => hin (hiff.2 ⟨h.head_le, h.end_le⟩)
    rw [if_neg hacc]
    -- one of the three comparisons fails
    by_cases h₁ : 32 ≤ offset
    · by_cases h₂ : layout.size ≤ s.tailSize
      · have h₃ : s.tailSize - layout.size < offset - 32 := Decidable.not_not.1 fun h => hin ⟨h₁, h₂, h⟩
        simp only [if_pos h₁, if_pos h₂, if_pos h₃]
      · simp only [if_pos h₁, if_neg h₂]
    · simp only [if_neg h₁]

end Shared

end ShmRing
