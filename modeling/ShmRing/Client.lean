import ShmRing.Frame
import ShmRing.Ring

/-!
# Clients and joined rings

A client trusts nothing that it finds in the memory: it checks the head, and for a ring that it joins every offset
and size of its record, before it takes the owner word.  Later operations slice the mapping again, by other
functions, from the fields of the record as they then are.
-/

namespace ShmRing

open Machine Bytes

inductive ClientError
  | badMagic
  | sizeError
  | tooSmall
  | unalignedMap
  deriving DecidableEq, Repr

inductive RingJoinError
  | badRingIndex
  | badRingOffsetHead
  | badRingOffsetData
  | badRingOffsetRing
  | unsupported
  | taken (owner : ClientIdentifier)
  | unavailable
  deriving DecidableEq, Repr

structure Client where
  ring : Shared
  rings : Rings

structure RingRequest where
  index : UInt64
  side : ClientSide
  tid : ClientIdentifier
  deriving DecidableEq, Repr

/-- What a joined ring refers to: its record and its head, by their addresses. -/
structure OwnedRingSlot where
  info : Nat
  head : UInt64
  side : ClientSide
  identity : ClientIdentifier
  deriving DecidableEq, Repr

structure Ring where
  ring : Shared
  slot : OwnedRingSlot
  ringId : RingIdentifier

namespace Client

def new (b : Build) (ring : Shared) (m : Mem) : Try ClientError Client := do
  let size := ring.tailSize
  let some head := Shared.readHead m | throw (.inr .badMagic)
  let ringOffset := head.ringOffset
  let some size := checkedSub size ringOffset | throw (.inr .tooSmall)
  let infoTail ← b.add ring.tailAddr ringOffset
  if alignUp infoTail 8 ≠ 0 then throw (.inr .unalignedMap)
  let ringMaxCount := size / UInt64.ofNat RingInfo.size
  if ringMaxCount < head.ringCount then throw (.inr .tooSmall)
  return { ring, rings := ⟨ring.pos infoTail, head.ringCount.toNat⟩ }

def specAsLayout (size align : UInt64) : Option Layout := Layout.fromSizeAlign size align

/-- The part of `join` before the owner word is taken: the record and the address of the head. -/
def check (b : Build) (c : Client) (index : UInt64) (m : Mem) : Try RingJoinError (Nat × UInt64) := do
  let some ringInfo := c.rings.get index.toNat | throw (.inr .badRingIndex)
  let info := RingInfo.read m ringInfo
  if info.version ≠ 1 then throw (.inr .unsupported)
  let some head ← c.ring.getAlignedDataAtOffsetVal b info.offsetHead Layout.ringHead
    | throw (.inr .badRingOffsetHead)
  let some ringLayout := specAsLayout info.sizeRing info.sizeSlotEntry | throw (.inr .badRingOffsetRing)
  let some _ ← c.ring.getAlignedDataAtOffsetVal b info.offsetRing ringLayout | throw (.inr .badRingOffsetRing)
  -- for the data, too, it is the offset of the slots that is reported
  let some dataLayout := specAsLayout info.sizeData 1 | throw (.inr .badRingOffsetRing)
  let some _ ← c.ring.getAlignedDataAtOffsetVal b info.offsetData dataLayout | throw (.inr .badRingOffsetRing)
  return (ringInfo, head)

/-- `join` returns the ring and the memory that it leaves, also when it fails. -/
def join (b : Build) (c : Client) (req : RingRequest) (m : Mem) : Try RingJoinError Ring × Mem :=
  match c.check b req.index m with
  | .error e => (.error e, m)
  | .ok (ringInfo, head) =>
    let owner := ringInfo + RingInfo.ownerOffset req.side
    match ClientSlot.insert (m.readU32 owner) req.tid with
    | .error f => (.error (.inl f), m)
    | .ok (.error none, _) => (.error (.inr .unavailable), m)
    | .ok (.error (some id), _) => (.error (.inr (.taken id)), m)
    | .ok (.ok ringId, owner') =>
      (.ok { ring := c.ring, slot := ⟨ringInfo, head, req.side, req.tid⟩, ringId }, m.writeU32 owner owner')

end Client

/-! ### Slices of the mapping -/

/-- A slice of memory. -/
structure Cell where
  addr : UInt64
  len : UInt64
  deriving DecidableEq, Repr

/-- The bytes of a slice that a process may have: no more than `isize::MAX`. -/
abbrev Slice := {data : List UInt8 // data.length < 2 ^ 63}

def splitCell (b : Build) (cell : Cell) (start : UInt64) : Exec (Option (Cell × Cell)) :=
  let available := cell.len
  if start ≤ available then
    match checkedSub available start with
    | none => throw .panic
    | some lenSecond => do
      let startSecond ← b.add cell.addr start
      return some (⟨cell.addr, start⟩, ⟨startSecond, lenSecond⟩)
  else return none

def sliceCell (b : Build) (all : Cell) (offset length : UInt64) : Exec (Option Cell) := do
  let some (_, data) ← splitCell b all offset | return none
  let some (data, _) ← splitCell b data length | return none
  return some data

namespace Ring

def borrowAll (r : Ring) : Cell := ⟨r.ring.base, r.ring.size⟩

/-- The record of the ring, as it now is. -/
def info (r : Ring) (m : Mem) : RingInfo := RingInfo.read m r.slot.info

/-- The slots of the ring.  The rest of the map are references that the ring has already. -/
def borrowMap (b : Build) (r : Ring) (m : Mem) : Exec (Option Cell) :=
  sliceCell b r.borrowAll (r.info m).offsetRing (r.info m).sizeRing

def borrowData (b : Build) (r : Ring) (m : Mem) : Exec Cell := do
  let some data ← sliceCell b r.borrowAll (r.info m).offsetData (r.info m).sizeData | throw .panic
  return data

/-- The part of the data that `copy_to` and `copy_from` work on; `expect("Out of bounds")` otherwise. -/
def portion (b : Build) (r : Ring) (len : Nat) (start : UInt64) (m : Mem) : Exec Cell := do
  let ringData ← r.borrowData b m
  let some portion ← sliceCell b ringData start (UInt64.ofNat len) | throw .panic
  return portion

def copyTo (b : Build) (r : Ring) (data : Slice) (start : UInt64) (m : Mem) : Exec Mem := do
  let portion ← r.portion b data.1.length start m
  return m.writeBytes (r.ring.pos portion.addr) data.1

/-- What is copied into the slice. -/
def copyFrom (b : Build) (r : Ring) (data : Slice) (start : UInt64) (m : Mem) :
    Exec (Vector UInt8 data.1.length) := do
  let portion ← r.portion b data.1.length start m
  return m.readBytes (r.ring.pos portion.addr) data.1.length

/-! ### The words of the head -/

/-- Where a word of the head lies in the mapping. -/
def wordAt (r : Ring) (w : HeadWord) : Nat := r.ring.pos r.slot.head + w.offset

def load (r : Ring) (w : HeadWord) (m : Mem) : UInt32 := m.readU32 (r.wordAt w)

def store (r : Ring) (w : HeadWord) (v : UInt32) (m : Mem) : Mem := m.writeU32 (r.wordAt w) v

/-- The references that a producer or a consumer for entries of `N` bytes gets, given the slots of the ring. -/
def port (r : Ring) (cell : Cell) (N : Nat) : Port Mem (Vector UInt8 N) where
  load := r.load
  store := r.store
  get i m := m.readBytes (r.ring.pos cell.addr + i * N) N
  set i data m := m.writeBytes (r.ring.pos cell.addr + i * N) data.toList
  len := cell.len.toNat / N

def producer (b : Build) (r : Ring) (N : Nat) (m : Mem) : Exec (Option (Cell × Producer)) := do
  let some cell ← r.borrowMap b m | return none
  let p ← Producer.new b (r.info m) N (r.port cell N) r.slot.side m
  return p.map fun p => (cell, p)

def consumer (b : Build) (r : Ring) (N : Nat) (m : Mem) : Exec (Option (Cell × Consumer)) := do
  let some cell ← r.borrowMap b m | return none
  let c ← Consumer.new b (r.info m) N (r.port cell N) r.slot.side m
  return c.map fun c => (cell, c)

/-- `lock_for_message`: the exchange succeeded or not, and the memory. -/
def lockForMessage (r : Ring) (spurious : Bool) (m : Mem) : Except UInt32 UInt32 × Mem :=
  let (prior, w) := compareExchangeWeak (r.load .blocked m) 0 r.slot.side.asBlockSlot spurious
  (prior, r.store .blocked w m)

/-- The drop of a `RingAssertion`. -/
def unlock (r : Ring) (spurious : Bool) (m : Mem) : Mem :=
  let (_, w) := compareExchangeWeak (r.load .blocked m) r.slot.side.asBlockSlot 0 spurious
  r.store .blocked w m

def activate (r : Ring) (m : Mem) : Mem := r.store (.sendIndicator r.slot.side) 1 m

def deactivate (r : Ring) (m : Mem) : Mem := r.store (.sendIndicator r.slot.side) 0 m

/-- The drop of the ring: `leave_as_owner_with_futex` assigns zero to its owner word, whatever it is. -/
def drop (r : Ring) (m : Mem) : Mem := m.writeU32 (r.slot.info + RingInfo.ownerOffset r.slot.side) 0

end Ring

end ShmRing
