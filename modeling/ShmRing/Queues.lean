import ShmRing.Lib.Machine
import ShmRing.Lib.Wrapping

/-!
# The queues of an io-uring

The two queues that the program shares with the kernel, with the counters and the slots as they are in the shared
memory.  A queue is borrowed to use it: the borrow has a copy of both counters, and when it is dropped, the one of them
that the program owns is stored.

`Inner.contents` is what is in a queue.  The lemmas say of each operation what it makes of the contents.
-/

namespace ShmRing

open Machine Wrapping

namespace IoUring

/-- `squeue::Inner` and `cqueue::Inner`, the fields that both have. -/
structure Inner (E : Type) where
  head : UInt32
  tail : UInt32
  ringMask : UInt32
  ringEntries : UInt32
  entries : Nat → E

structure PushError

/-- A borrow of the submission queue.  While it lasts, the kernel leaves the queue alone. -/
structure SubmissionQueue (E : Type) where
  head : UInt32
  tail : UInt32
  queue : Inner E

/-- A borrow of the completion queue, to which the kernel may still append. -/
structure CompletionQueue where
  head : UInt32
  tail : UInt32
  deriving DecidableEq, Repr

variable {E : Type}

namespace SubmissionQueue

def borrow (q : Inner E) : SubmissionQueue E := ⟨q.head, q.tail, q⟩

def capacity (s : SubmissionQueue E) : UInt64 := s.queue.ringEntries.toUInt64

def len (s : SubmissionQueue E) : UInt64 := (s.tail - s.head).toUInt64

def isEmpty (s : SubmissionQueue E) : Bool := s.len == 0

def pushUnchecked (s : SubmissionQueue E) (entry : E) : SubmissionQueue E :=
  { s with
    queue := { s.queue with entries := Function.update s.queue.entries (slot s.queue.ringMask s.tail) entry }
    tail := s.tail + 1 }

def pushMultiple (b : Build) (s : SubmissionQueue E) (entries : List E) : Try PushError (SubmissionQueue E) := do
  let room ← b.sub s.capacity s.len
  if room.toNat < entries.length then throw (.inr {}) else return entries.foldl pushUnchecked s

def drop (s : SubmissionQueue E) : Inner E := { s.queue with tail := s.tail }

end SubmissionQueue

namespace CompletionQueue

def borrow (q : Inner E) : CompletionQueue := ⟨q.head, q.tail⟩

def pop (c : CompletionQueue) (q : Inner E) : E × CompletionQueue :=
  (q.entries (slot q.ringMask c.head), { c with head := c.head + 1 })

def next (c : CompletionQueue) (q : Inner E) : Option E × CompletionQueue :=
  if c.head ≠ c.tail then
    let (entry, c) := c.pop q
    (some entry, c)
  else (none, c)

def drop (c : CompletionQueue) (q : Inner E) : Inner E := { q with head := c.head }

end CompletionQueue

namespace Inner

/-- `Submitter::sq_len` -/
def sqLen (q : Inner E) : UInt64 := (q.tail - q.head).toUInt64

/-- The kernel takes `n` entries from the submission queue.  It finds an entry through an index array, which
`squeue::Inner::new` has filled with `0`, `1`, .... -/
def consume (q : Inner E) (n : Nat) : List E × Inner E :=
  (walk q.ringMask q.entries q.head n, { q with head := q.head + UInt32.ofNat n })

/-- The kernel appends an entry to the completion queue. -/
def post (q : Inner E) (entry : E) : Inner E :=
  { q with entries := Function.update q.entries (slot q.ringMask q.tail) entry, tail := q.tail + 1 }

/-- The kernel sees room in the completion queue. -/
def HasRoom (q : Inner E) : Prop := count q.head q.tail < q.ringEntries.toNat

instance (q : Inner E) : Decidable q.HasRoom := inferInstanceAs (Decidable (_ < _))

def contents (q : Inner E) : List E := walk q.ringMask q.entries q.head (count q.head q.tail)

/-- The queue has a mask for its slots, and no more entries than slots. -/
structure Ok (q : Inner E) : Prop where
  mask : IsMask q.ringMask q.ringEntries.toNat
  le : count q.head q.tail ≤ q.ringEntries.toNat

variable {q : Inner E} {n : Nat}

@[simp] theorem length_contents (q : Inner E) : q.contents.length = count q.head q.tail := length_walk ..

theorem toNat_sqLen (q : Inner E) : q.sqLen.toNat = q.contents.length := by
  rw [length_contents]
  rfl

theorem contents_of_eq (h : q.head = q.tail) : q.contents = [] := by
  rw [contents, h, count_self]
  rfl

theorem ok_of_eq (hmask : IsMask q.ringMask q.ringEntries.toNat) (h : q.head = q.tail) : q.Ok where
  mask := hmask
  le := by simp [h]

/-! ### The kernel -/

theorem consume_fst (hn : n ≤ q.contents.length) : (q.consume n).1 = q.contents.take n := by
  rw [length_contents] at hn
  exact (take_walk hn).symm

theorem consume_snd (hn : n ≤ q.contents.length) : (q.consume n).2.contents = q.contents.drop n := by
  rw [length_contents] at hn
  unfold contents
  rw [drop_walk hn, ← count_advance hn]
  rfl

theorem Ok.consume (h : q.Ok) (hn : n ≤ q.contents.length) : (q.consume n).2.Ok where
  mask := h.mask
  le := by
    rw [length_contents] at hn
    have hadvance : count (q.head + UInt32.ofNat n) q.tail = _ := count_advance hn
    have hle := h.le
    show count (q.head + UInt32.ofNat n) q.tail ≤ q.ringEntries.toNat
    omega

end Inner

/-! ### Submissions -/

namespace SubmissionQueue

variable {s : SubmissionQueue E}

/-- What is in the queue when the borrow is dropped. -/
def pending (s : SubmissionQueue E) : List E := s.drop.contents

/-- The borrow has the head of the queue. -/
structure Ok (s : SubmissionQueue E) : Prop where
  head : s.head = s.queue.head
  drop : s.drop.Ok

theorem ok_borrow {q : Inner E} (h : q.Ok) : (borrow q).Ok := ⟨rfl, h⟩

private theorem Ok.le (h : s.Ok) : s.pending.length ≤ s.queue.ringEntries.toNat := by
  rw [pending, Inner.length_contents]
  exact h.drop.le

private theorem Ok.toNat_len (h : s.Ok) : s.len.toNat = s.pending.length := by
  rw [pending, Inner.length_contents, len, h.head]
  rfl

/-- The room is computed without an overflow. -/
theorem Ok.room (h : s.Ok) (b : Build) :
    ∃ room, b.sub s.capacity s.len = .ok room ∧ room.toNat = s.queue.ringEntries.toNat - s.pending.length := by
  have hcap : s.capacity.toNat = s.queue.ringEntries.toNat := rfl
  have hsub : s.len ≤ s.capacity := by
    rw [UInt64.le_iff_toNat_le, h.toNat_len, hcap]
    exact h.le
  refine ⟨_, b.sub_of_le hsub, ?_⟩
  rw [UInt64.toNat_sub_of_le _ _ hsub, h.toNat_len, hcap]

/-- An entry is pushed into a free slot. -/
private theorem Ok.pushUnchecked (h : s.Ok) (hroom : s.pending.length < s.queue.ringEntries.toNat) (entry : E) :
    (s.pushUnchecked entry).Ok ∧ (s.pushUnchecked entry).pending = s.pending ++ [entry] := by
  have hmask := h.drop.mask
  have hlt : count s.queue.head s.tail < s.queue.ringEntries.toNat := by
    rw [pending, Inner.length_contents] at hroom
    exact hroom
  have hsize : s.queue.ringEntries.toNat < 2 ^ 32 := hmask.size_lt
  have hcount : count s.queue.head (s.tail + 1) = count s.queue.head s.tail + 1 := count_extend (k := 1) (by omega)
  have htail := add_count s.queue.head s.tail
  refine ⟨⟨h.head, hmask, ?_⟩, ?_⟩
  · show count s.queue.head (s.tail + 1) ≤ s.queue.ringEntries.toNat
    omega
  · have hpush := hmask.walk_push s.queue.entries s.queue.head hlt entry
    rw [htail, ← hcount] at hpush
    exact hpush

/-- The loop of `push_multiple`. -/
private theorem Ok.pushAll (h : s.Ok) {entries : List E}
    (hroom : s.pending.length + entries.length ≤ s.queue.ringEntries.toNat) :
    (entries.foldl SubmissionQueue.pushUnchecked s).Ok ∧
      (entries.foldl SubmissionQueue.pushUnchecked s).pending = s.pending ++ entries ∧
      (entries.foldl SubmissionQueue.pushUnchecked s).queue.ringEntries = s.queue.ringEntries := by
  induction entries generalizing s with
  | nil => exact ⟨h, (List.append_nil _).symm, rfl⟩
  | cons e entries ih =>
    rw [List.length_cons] at hroom
    obtain ⟨hok, hpending⟩ := h.pushUnchecked (by omega) e
    have hlength : (s.pushUnchecked e).pending.length = s.pending.length + 1 := by simp [hpending]
    have hroom' : (s.pushUnchecked e).pending.length + entries.length ≤ s.queue.ringEntries.toNat := by omega
    obtain ⟨hok', hpending', hentries⟩ := ih hok hroom'
    refine ⟨hok', ?_, hentries⟩
    rw [List.foldl_cons, hpending', hpending, List.append_assoc]
    rfl

/-- `push_multiple` takes all entries or none. -/
theorem Ok.pushMultiple (h : s.Ok) (b : Build) (entries : List E) :
    if s.queue.ringEntries.toNat - s.pending.length < entries.length then
      s.pushMultiple b entries = .error (.inr {})
    else ∃ s', s.pushMultiple b entries = .ok s' ∧ s'.Ok ∧ s'.pending = s.pending ++ entries ∧
      s'.queue.ringEntries = s.queue.ringEntries := by
  obtain ⟨room, hsub, hroom⟩ := h.room b
  have hle := h.le
  rw [← hroom]
  unfold SubmissionQueue.pushMultiple
  rw [hsub]
  split
  · rename_i hlt
    exact if_pos hlt
  · rename_i hlt
    exact ⟨entries.foldl SubmissionQueue.pushUnchecked s, if_neg hlt, h.pushAll (by omega)⟩

end SubmissionQueue

/-! ### Completions -/

namespace CompletionQueue

variable {c : CompletionQueue} {q : Inner E} {e : E}

/-- What the borrow still yields. -/
def unread (c : CompletionQueue) (q : Inner E) : List E := walk q.ringMask q.entries c.head (count c.head c.tail)

/-- What the kernel has appended since. -/
def later (c : CompletionQueue) (q : Inner E) : List E := walk q.ringMask q.entries c.tail (count c.tail q.tail)

/-- The borrow is within the queue. -/
structure Ok (c : CompletionQueue) (q : Inner E) : Prop where
  queue : q.Ok
  split : count q.head c.head + count c.head c.tail + count c.tail q.tail = count q.head q.tail

theorem ok_borrow (h : q.Ok) : (borrow q).Ok q where
  queue := h
  split := by simp [borrow]

theorem unread_borrow (q : Inner E) : (borrow q).unread q = q.contents := rfl

theorem later_borrow (q : Inner E) : (borrow q).later q = [] := by
  simp only [later, borrow, count_self]
  rfl

theorem next_of_nil (h : c.unread q = []) : c.next q = (none, c) := by
  have hzero : count c.head c.tail = 0 := by
    rw [← length_walk q.ringMask q.entries c.head (count c.head c.tail)]
    exact List.length_eq_zero_iff.2 h
  exact if_neg (not_not.2 (count_eq_zero.1 hzero))

/-- The first entry is taken out. -/
theorem next_of_cons {rest : List E} (hok : c.Ok q) (h : c.unread q = e :: rest) :
    ∃ c', c.next q = (some e, c') ∧ c'.Ok q ∧ c'.unread q = rest ∧ c'.later q = c.later q := by
  have hne : c.head ≠ c.tail := by
    intro heq
    rw [unread, heq, count_self] at h
    cases h
  have hpos : 1 ≤ count c.head c.tail := Nat.one_le_iff_ne_zero.2 fun hzero => hne (count_eq_zero.1 hzero)
  have hadvance : count (c.head + 1) c.tail = count c.head c.tail - 1 := count_advance (k := 1) hpos
  have hsplit := hok.split
  have hlt := count_lt q.head q.tail
  have hhead : count q.head (c.head + 1) = count q.head c.head + 1 := count_extend (k := 1) (by omega)
  have hsucc : count c.head c.tail = count (c.head + 1) c.tail + 1 := by omega
  rw [unread, hsucc, walk, List.cons.injEq] at h
  refine ⟨{ c with head := c.head + 1 }, ?_, ⟨hok.queue, ?_⟩, h.2, rfl⟩
  · rw [next, if_pos hne, ← h.1]
    rfl
  · show count q.head (c.head + 1) + count (c.head + 1) c.tail + count c.tail q.tail = _
    omega

theorem Ok.drop (h : c.Ok q) : (c.drop q).Ok ∧ (c.drop q).contents = c.unread q ++ c.later q := by
  have hsplit := h.split
  have hle := h.queue.le
  have hbetween : count c.head q.tail = count c.head c.tail + count c.tail q.tail := by
    have h₁ := count_between q.head c.head q.tail (by omega)
    omega
  refine ⟨⟨h.queue.mask, ?_⟩, ?_⟩
  · show count c.head q.tail ≤ _
    have hring : (c.drop q).ringEntries = q.ringEntries := rfl
    rw [hring]
    omega
  · show walk q.ringMask q.entries c.head (count c.head q.tail) = _
    rw [hbetween, walk_add, add_count]
    rfl

/-- The kernel appends an entry behind what was borrowed. -/
theorem Ok.post (h : c.Ok q) (hroom : q.HasRoom) (e : E) :
    c.Ok (q.post e) ∧ c.unread (q.post e) = c.unread q ∧ c.later (q.post e) = c.later q ++ [e] := by
  have hsplit := h.split
  have hmask := h.queue.mask
  have hlt : count q.head q.tail < q.ringEntries.toNat := hroom
  have hsize := hmask.size_lt
  have hhead : count q.head (q.tail + 1) = count q.head q.tail + 1 := count_extend (k := 1) (by omega)
  have htail : count c.tail (q.tail + 1) = count c.tail q.tail + 1 := count_extend (k := 1) (by omega)
  have hbetween : count c.head q.tail = count c.head c.tail + count c.tail q.tail := by
    have h₁ := count_between q.head c.head q.tail (by omega)
    omega
  refine ⟨⟨⟨hmask, ?_⟩, ?_⟩, ?_, ?_⟩
  · show count q.head (q.tail + 1) ≤ q.ringEntries.toNat
    omega
  · show count q.head c.head + count c.head c.tail + count c.tail (q.tail + 1) = count q.head (q.tail + 1)
    omega
  · have hle : count c.head c.tail ≤ count c.head q.tail := by omega
    have hwrite := hmask.walk_write q.entries c.head hle (by omega) e
    rw [add_count] at hwrite
    exact hwrite
  · have hfree : count c.tail q.tail < q.ringEntries.toNat := by omega
    have hpush := hmask.walk_push q.entries c.tail hfree e
    rw [add_count, ← htail] at hpush
    exact hpush

end CompletionQueue

/-- The kernel appends an entry. -/
theorem Inner.Ok.post {q : Inner E} (h : q.Ok) (hroom : q.HasRoom) (e : E) :
    (q.post e).Ok ∧ (q.post e).contents = q.contents ++ [e] := by
  obtain ⟨hok, hunread, hlater⟩ := (CompletionQueue.ok_borrow h).post hroom e
  obtain ⟨hdrop, hcontents⟩ := hok.drop
  refine ⟨hok.queue, ?_⟩
  rw [hunread, hlater, CompletionQueue.later_borrow] at hcontents
  exact hcontents

end IoUring

end ShmRing
