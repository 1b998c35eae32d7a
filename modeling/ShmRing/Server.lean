import ShmRing.Frame

/-!
# The server's layout of the rings

`Server::new` divides the mapping: the head, the block of records, and for each ring a head page, its slots and its
data, each rounded up to pages.  The arithmetic is that of the build mode; in a release build it wraps.
-/

namespace ShmRing

open Machine Bytes

inductive ServerError
  | tooSmall
  | sizeError
  | ringSizeError
  | ringCountError
  | entrySizeError
  deriving DecidableEq, Repr

/-- What a server is asked to set up for one ring.  The version is not read. -/
structure RingConfig where
  ringSize : UInt64
  dataSize : UInt64
  slotEntrySize : UInt64
  rhs : Int32
  lhs : Int32
  deriving DecidableEq, Repr

/-- A server, with the place of its records in the mapping. -/
structure Server where
  ring : Shared
  rings : Rings

namespace Server

def pageSize : UInt64 := 4096

structure Range where
  start : UInt64
  stop : UInt64
  deriving DecidableEq, Repr

def allocate (b : Build) (range : Range) (len : UInt64) : Try ServerError (UInt64 × Range) :=
  match checkedSub range.stop range.start with
  | none => throw (.inr .tooSmall)
  | some room =>
    if room < len then throw (.inr .tooSmall)
    else do
      let start ← b.add range.start len
      return (range.start, { range with start })

/-- The number of pages for so many bytes.  No length fails to be a `u64`, so there is no `SizeError`. -/
def pageRequirement (b : Build) (len : UInt64) : Exec UInt64 :=
  let full := len / pageSize
  let off := if len % pageSize = 0 then 0 else 1
  b.add off full

/-- The start of the range is moved up to a page. -/
def alignRange (b : Build) (range : Range) : Try ServerError Range :=
  if range.start % pageSize ≠ 0 then do
    let offset ← b.sub pageSize (range.start % pageSize)
    let (_, range) ← allocate b range offset
    return range
  else return range

/-- One round of the loop of `offsets`. -/
def place (b : Build) (info : RingInfo) (cfg : RingConfig) (range : Range) :
    Try ServerError (RingInfo × Range) := do
  if ¬ cfg.slotEntrySize.toNat.isPowerOfTwo then throw (.inr .entrySizeError)
  if cfg.ringSize % cfg.slotEntrySize ≠ 0 then throw (.inr .ringSizeError)
  if ¬ (cfg.ringSize / cfg.slotEntrySize).toNat.isPowerOfTwo then throw (.inr .ringCountError)
  let (offsetHead, range) ← allocate b range pageSize
  let ringLen ← b.mul (← pageRequirement b cfg.ringSize) pageSize
  let (offsetRing, range) ← allocate b range ringLen
  let dataLen ← b.mul (← pageRequirement b cfg.dataSize) pageSize
  let (offsetData, range) ← allocate b range dataLen
  let lhs := if cfg.lhs < 0 then cfg.lhs else 0
  let rhs := if cfg.rhs < 0 then cfg.rhs else 0
  return (
    { version := 1
      offsetHead
      offsetRing
      offsetData
      sizeHead := pageSize
      sizeRing := cfg.ringSize
      sizeData := cfg.dataSize
      sizeSlotEntry := cfg.slotEntrySize
      -- an id that is not negative leaves the owner word as it was found
      lhs := (RingIdentifier.new lhs).elim info.lhs ClientSlot.forAdvertisement
      rhs := (RingIdentifier.new rhs).elim info.rhs ClientSlot.forAdvertisement },
    range)

/-- The loop over records and configurations.  Records placed before an error stay written. -/
def placeAll (b : Build) : List RingInfo → List RingConfig → Range → Try ServerError Unit × List RingInfo
  | info :: infos, cfg :: cfgs, range =>
    match place b info cfg range with
    | .error e => (.error e, info :: infos)
    | .ok (info', range') =>
      let (r, infos') := placeAll b infos cfgs range'
      (r, info' :: infos')
  | infos, _, _ => (.ok (), infos)

def offsets (b : Build) (infos : List RingInfo) (cfgs : List RingConfig) (range : Range) :
    Try ServerError Unit × List RingInfo :=
  match alignRange b range with
  | .error e => (.error e, infos)
  | .ok range => placeAll b infos cfgs range

/-- Where `new` puts the records and the rest: the distance of the records from the tail, their address, and the
range that is left for the rings. -/
structure Division where
  ringOffset : UInt64
  infoTail : UInt64
  range : Range
  deriving DecidableEq, Repr

/-- The part of `new` before `offsets`. -/
def divide (b : Build) (ring : Shared) (n : UInt64) : Try ServerError Division := do
  let infoOffset ← ring.tailOffset b
  let ringOffset := alignUp ring.tailAddr 8
  let some size := checkedSub ring.tailSize ringOffset | throw (.inr .tooSmall)
  let offset ← b.add infoOffset ringOffset
  let infoTail := ring.tailAddr + ringOffset
  if b = .debug ∧ alignUp infoTail 8 ≠ 0 then throw (.inl .panic)
  let ringsLen ← b.mul n 768
  let pagesHead ← pageRequirement b ringsLen
  let ringsLen ← b.mul pagesHead pageSize
  let _tailSize ← b.sub size ringsLen
  let offset ← b.add offset ringsLen
  let endOffset ← b.add size offset
  return { ringOffset, infoTail, range := ⟨offset, endOffset⟩ }

/-- `new` returns the server and the memory that it leaves, also when it fails. -/
def new (b : Build) (ring : Shared) (cfgs : List RingConfig) (m : Mem) : Try ServerError Server × Mem :=
  let n := UInt64.ofNat cfgs.length
  match divide b ring n with
  | .error e => (.error e, m)
  | .ok d =>
    let rings : Rings := ⟨ring.pos d.infoTail, cfgs.length⟩
    let (r, infos) := offsets b (rings.read m) cfgs d.range
    let m := Rings.writeFrom m rings.start infos
    match r with
    | .error e => (.error e, m)
    | .ok () =>
      let head : ShmHead := { ringMagic := ShmHead.magic, ringCount := n, ringOffset := d.ringOffset, ringPing := 0 }
      match ring.init head m with
      | .error e => (.error (.inl e), m)
      | .ok m => (.ok { ring, rings }, m)

end Server

end ShmRing
