import ShmRing.Data

/-!
# Producers and consumers

The two handles on one direction of a ring.  A handle holds references into the shared memory: the atomic words of
the head page and the slice of slots.  A `Port` is these references, as functions on a memory of any type.  The
counters of a handle are `u64`s that stay below `2 ^ 64` (`Producer.syncLoad_lt`), so they are natural numbers here;
what is loaded from and stored to the shared words are `u32`s.
-/

namespace ShmRing

open Machine

/-- References to the words of a head page and to the slots of a ring, in a memory `M`. -/
structure Port (M E : Type) where
  load : HeadWord → M → UInt32
  store : HeadWord → UInt32 → M → M
  get : Nat → M → E
  set : Nat → E → M → M
  /-- The number of slots, each the size of an entry. -/
  len : Nat

/-- References that do not overlap. -/
structure LawfulPort (M E : Type) extends Port M E where
  load_store : ∀ w w' v m, load w' (store w v m) = if w' = w then v else load w' m
  get_store : ∀ i w v m, i < len → get i (store w v m) = get i m
  load_set : ∀ w i x m, i < len → load w (set i x m) = load w m
  get_set : ∀ i j x m, i < len → j < len → get j (set i x m) = if j = i then x else get j m

/-- The plainest memory: the words of a head page, and slots. -/
def LawfulPort.plain (E : Type) (len : Nat) : LawfulPort (RingHead × (Nat → E)) E where
  load w m := m.1.load w
  store w v m := (m.1.store w v, m.2)
  get i m := m.2 i
  set i x m := (m.1, fun j => if j = i then x else m.2 j)
  len
  load_store w w' v m := m.1.load_store w w' v
  get_store _ _ _ _ _ := rfl
  load_set _ _ _ _ _ := rfl
  get_set _ _ _ _ _ _ := rfl

structure Producer where
  side : ClientSide
  offsetMask : Nat
  count : Nat
  cachedHead : Nat
  cachedTail : Nat
  deriving DecidableEq, Repr

structure Consumer where
  side : ClientSide
  offsetMask : Nat
  cachedHead : Nat
  cachedTail : Nat
  deriving DecidableEq, Repr

variable {M E σ : Type}

/-- The number of entries and the index mask that both constructors compute from the record of the ring.  The `N`
is the size of an entry in the type of the handle, `none` the answer for a handle of the wrong type. -/
def geometry (b : Build) (info : RingInfo) (N : Nat) : Exec (Option (UInt64 × UInt64)) :=
  if info.sizeData.toNat = N then .ok none
  else if ¬ info.sizeRing.toNat.isPowerOfTwo then .error .panic
  else if ¬ info.sizeSlotEntry.toNat.isPowerOfTwo then .error .panic
  else
    let count := info.sizeRing / info.sizeSlotEntry
    (b.sub count 1).bind fun offsetMask =>
      -- `cell_as_arrays` divides by the size of an entry
      if N = 0 then .error .panic else .ok (some (count, offsetMask))

namespace Producer

/-- The word with which this side tells how far it has pushed. -/
def headWord (p : Producer) : HeadWord := .producer p.side

/-- The word with which the other side tells how far it has read. -/
def tailWord (p : Producer) : HeadWord := .consumer p.side.not

def new (b : Build) (info : RingInfo) (N : Nat) (P : Port M E) (side : ClientSide) (m : M) :
    Exec (Option Producer) :=
  (geometry b info N).map fun g => g.map fun (count, offsetMask) =>
    { side
      offsetMask := offsetMask.toNat
      count := count.toNat
      cachedHead := (P.load (.producer side) m).toNat
      cachedTail := (P.load (.consumer side.not) m).toNat + count.toNat }

/-- The loop of `push_many`, with `k` rounds to go until `n` is at the cached tail.  It returns the `n` it stopped
at, the iterator and the memory. -/
def pushLoop (P : Port M E) (offsetMask : Nat) (next : σ → Option E × σ) : Nat → Nat → σ → M → Exec Nat × σ × M
  | 0, n, iter, m => (.ok n, iter, m)
  | k + 1, n, iter, m =>
    match next iter with
    | (none, iter') => (.ok n, iter', m)
    | (some data, iter') =>
      let idx := n &&& offsetMask
      if idx < P.len then pushLoop P offsetMask next k (n + 1) iter' (P.set idx data m)
      else (.error .panic, iter', m)

/-- Returns the number of entries pushed and the handle, with the iterator and the memory. -/
def pushMany (P : Port M E) (p : Producer) (next : σ → Option E × σ) (iter : σ) (m : M) :
    Exec (Nat × Producer) × σ × M :=
  let (r, iter', m') := pushLoop P p.offsetMask next (p.cachedTail - p.cachedHead) p.cachedHead iter m
  (r.map fun n => (n - p.cachedHead, { p with cachedHead := n }), iter', m')

/-- The first half of `sync`. -/
def syncLoad (P : Port M E) (p : Producer) (m : M) : Producer :=
  { p with cachedTail := (P.load p.tailWord m).toNat + p.count }

/-- The second half of `sync`; the counter is truncated to 32 bits. -/
def syncStore (P : Port M E) (p : Producer) (m : M) : M := P.store p.headWord (UInt32.ofNat p.cachedHead) m

def sync (P : Port M E) (p : Producer) (m : M) : Producer × M :=
  let p' := p.syncLoad P m
  (p', p'.syncStore P m)

end Producer

namespace Consumer

/-- The word with which the other side tells how far it has pushed. -/
def headWord (c : Consumer) : HeadWord := .producer c.side.not

/-- The word with which this side tells how far it has read. -/
def tailWord (c : Consumer) : HeadWord := .consumer c.side

def new (b : Build) (info : RingInfo) (N : Nat) (P : Port M E) (side : ClientSide) (m : M) :
    Exec (Option Consumer) :=
  (geometry b info N).map fun g => g.map fun (_, offsetMask) =>
    { side
      offsetMask := offsetMask.toNat
      cachedHead := (P.load (.producer side.not) m).toNat
      cachedTail := (P.load (.consumer side) m).toNat }

/-- The iterator of `iter`: the range of indices to go. -/
structure Iter where
  idx : Nat
  stop : Nat
  deriving DecidableEq, Repr

def iter (c : Consumer) : Iter := ⟨c.cachedTail, c.cachedHead⟩

/-- One element of the iterator; `none` at its end. -/
def iterNext (P : Port M E) (c : Consumer) (it : Iter) (m : M) : Option (Exec E × Consumer × Iter) :=
  if it.idx < it.stop then
    let idx := it.idx &&& c.offsetMask
    let it := { it with idx := it.idx + 1 }
    if idx < P.len then some (.ok (P.get idx m), { c with cachedTail := c.cachedTail + 1 }, it)
    -- the slot is looked up before the cached tail is moved
    else some (.error .panic, c, it)
  else none

/-- The elements of an iterator with `k` indices to go. -/
def iterLoop (P : Port M E) (offsetMask : Nat) (m : M) : Nat → Nat → Exec (List E)
  | 0, _ => .ok []
  | k + 1, n =>
    let idx := n &&& offsetMask
    if idx < P.len then (iterLoop P offsetMask m k (n + 1)).map (P.get idx m :: ·) else .error .panic

/-- All elements that `iter` yields when it is consumed to its end. -/
def yields (P : Port M E) (c : Consumer) (m : M) : Exec (List E) :=
  iterLoop P c.offsetMask m (c.cachedHead - c.cachedTail) c.cachedTail

/-- The first half of `sync`. -/
def syncLoad (P : Port M E) (c : Consumer) (m : M) : Consumer :=
  { c with cachedHead := (P.load c.headWord m).toNat }

/-- The second half of `sync`; the counter is truncated to 32 bits. -/
def syncStore (P : Port M E) (c : Consumer) (m : M) : M := P.store c.tailWord (UInt32.ofNat c.cachedTail) m

def sync (P : Port M E) (c : Consumer) (m : M) : Consumer × M :=
  let c' := c.syncLoad P m
  (c', c'.syncStore P m)

end Consumer

/-! ### Counters do not overflow -/

/-- Both constructors make a handle of the geometry, if there is one. -/
theorem geometry_of_map {α : Type} {b : Build} {info : RingInfo} {N : Nat} {f : UInt64 × UInt64 → α} {y : α}
    (h : (geometry b info N).map (fun g => g.map f) = .ok (some y)) :
    ∃ g, geometry b info N = .ok (some g) ∧ f g = y := by
  obtain ⟨o, hg, hy⟩ := map_eq_ok.1 h
  obtain ⟨g, rfl, hf⟩ := Option.map_eq_some_iff.1 hy
  exact ⟨g, hg, hf⟩

/-- The number of entries leaves room for a 32-bit counter. -/
private theorem geometry_count_le {b : Build} {info : RingInfo} {N : Nat} {g : UInt64 × UInt64}
    (h : geometry b info N = .ok (some g)) : g.1.toNat ≤ 2 ^ 63 := by
  unfold geometry at h
  split at h
  · cases h
  split at h
  · cases h
  split at h
  · cases h
  rename_i _ hring _
  obtain ⟨mask, -, h⟩ := bind_eq_ok.1 h
  split at h
  · cases h
  · cases h
    obtain ⟨k, hk⟩ := Decidable.not_not.1 hring
    have hlt := info.sizeRing.toNat_lt
    rw [UInt64.toNat_div]
    refine Nat.le_trans (Nat.div_le_self _ _) ?_
    rw [hk] at hlt ⊢
    exact two_pow_le_of_lt hlt

namespace Producer

theorem syncLoad_lt {P : Port M E} {p : Producer} {m : M} (h : p.count ≤ 2 ^ 63) :
    (p.syncLoad P m).cachedTail < 2 ^ 64 := by
  have hlt := (P.load p.tailWord m).toNat_lt
  simp only [syncLoad]
  omega

theorem new_lt {b : Build} {info : RingInfo} {N : Nat} {P : Port M E} {side : ClientSide} {m : M} {p : Producer}
    (h : new b info N P side m = .ok (some p)) : p.count ≤ 2 ^ 63 ∧ p.cachedTail < 2 ^ 64 := by
  obtain ⟨g, hg, rfl⟩ := geometry_of_map h
  have hle := geometry_count_le hg
  have hlt := (P.load (.consumer side.not) m).toNat_lt
  simp only
  omega

/-- The loop stops at the cached tail, at the latest. -/
theorem pushLoop_le {P : Port M E} {offsetMask k n n' : Nat} {next : σ → Option E × σ} {iter : σ} {m : M}
    (h : (pushLoop P offsetMask next k n iter m).1 = .ok n') : n ≤ n' ∧ n' ≤ n + k := by
  induction k generalizing n iter m with
  | zero => cases h; omega
  | succ k ih =>
    rw [pushLoop] at h
    split at h
    · cases h; omega
    · dsimp only at h
      split at h
      · have := ih h; omega
      · cases h

end Producer

end ShmRing
