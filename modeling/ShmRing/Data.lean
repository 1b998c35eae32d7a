import ShmRing.Lib.Machine

/-!
# The central data structures

The words of a ring's head page, the record a server publishes for each ring, and the operations on the owner word
of a slot.  An owner word is available (negative as an `i32`), held by the server (zero) or held by the client whose
process id it is (positive); every operation below is stated once in terms of these three classes.
-/

namespace ShmRing

open Machine

/-! ### Sides and the head page -/

inductive ClientSide
  | left
  | right
  deriving DecidableEq, Repr

namespace ClientSide

def not : ClientSide → ClientSide
  | left => right
  | right => left

def asBlockSlot : ClientSide → UInt32
  | left => 1
  | right => 2

@[simp] theorem not_not (s : ClientSide) : s.not.not = s := by cases s <;> rfl
@[simp] theorem not_ne (s : ClientSide) : s.not ≠ s := by cases s <;> decide
@[simp] theorem ne_not (s : ClientSide) : s ≠ s.not := by cases s <;> decide

theorem eq_or_eq_not (s t : ClientSide) : t = s ∨ t = s.not := by cases s <;> cases t <;> decide

end ClientSide

structure RingHeadHalf where
  producer : UInt32
  consumer : UInt32
  sendIndicator : UInt32
  deriving DecidableEq, Repr

structure RingHead where
  lhs : RingHeadHalf
  rhs : RingHeadHalf
  blocked : UInt32
  deriving DecidableEq, Repr

/-- The words of a head page. -/
inductive HeadWord
  | producer (side : ClientSide)
  | consumer (side : ClientSide)
  | sendIndicator (side : ClientSide)
  | blocked
  deriving DecidableEq, Repr

namespace RingHead

def zero : RingHead := ⟨⟨0, 0, 0⟩, ⟨0, 0, 0⟩, 0⟩

def half (h : RingHead) : ClientSide → RingHeadHalf
  | .left => h.lhs
  | .right => h.rhs

def setHalf (h : RingHead) : ClientSide → RingHeadHalf → RingHead
  | .left, x => { h with lhs := x }
  | .right, x => { h with rhs := x }

def load (h : RingHead) : HeadWord → UInt32
  | .producer s => (h.half s).producer
  | .consumer s => (h.half s).consumer
  | .sendIndicator s => (h.half s).sendIndicator
  | .blocked => h.blocked

def store (h : RingHead) (w : HeadWord) (v : UInt32) : RingHead :=
  match w with
  | .producer s => h.setHalf s { h.half s with producer := v }
  | .consumer s => h.setHalf s { h.half s with consumer := v }
  | .sendIndicator s => h.setHalf s { h.half s with sendIndicator := v }
  | .blocked => { h with blocked := v }

theorem load_store (h : RingHead) (w w' : HeadWord) (v : UInt32) :
    (h.store w v).load w' = if w' = w then v else h.load w' := by
  rcases w with (_ | _) | (_ | _) | (_ | _) | _ <;> rcases w' with (_ | _) | (_ | _) | (_ | _) | _ <;> rfl

@[simp] theorem load_store_self (h : RingHead) (w : HeadWord) (v : UInt32) : (h.store w v).load w = v := by
  rw [load_store, if_pos rfl]

theorem load_store_of_ne (h : RingHead) {w w' : HeadWord} (hne : w' ≠ w) (v : UInt32) :
    (h.store w v).load w' = h.load w' := by
  rw [load_store, if_neg hne]

@[simp] theorem load_zero (w : HeadWord) : zero.load w = 0 := by
  rcases w with (_ | _) | (_ | _) | (_ | _) | _ <;> rfl

/-- The words that `reinit_holding_as_server` stores zero to, in its order. -/
def reinitOrder : List HeadWord :=
  [.consumer .left, .consumer .right, .producer .left, .producer .right,
    .sendIndicator .left, .sendIndicator .right, .blocked]

def reinitHoldingAsServer (h : RingHead) : RingHead := reinitOrder.foldl (fun h w => h.store w 0) h

/-- No word is left out. -/
theorem reinitHoldingAsServer_eq (h : RingHead) : h.reinitHoldingAsServer = zero := by
  rcases h with ⟨⟨_, _, _⟩, ⟨_, _, _⟩, _⟩
  rfl

theorem mem_reinitOrder (w : HeadWord) : w ∈ reinitOrder := by
  rcases w with (_ | _) | (_ | _) | (_ | _) | _ <;> decide

end RingHead

/-! ### Identifiers -/

/-- A client, in practice a process id; only the low 32 bits go into a slot. -/
structure ClientIdentifier where
  val : UInt64
  deriving DecidableEq, Repr

structure RingIdentifier where
  val : Int32
  deriving DecidableEq, Repr

namespace ClientIdentifier

/-- `self.0 as i32` -/
def asI32 (c : ClientIdentifier) : Int32 := c.val.toUInt32.toInt32

/-- What `ClientIdentifier::new` promises of the identifiers it makes. -/
def Valid (c : ClientIdentifier) : Prop := 0 < c.asI32

instance (c : ClientIdentifier) : Decidable c.Valid := inferInstanceAs (Decidable (_ < _))

def toSlotId (c : ClientIdentifier) : Exec UInt32 :=
  if c.Valid then .ok c.asI32.toUInt32 else .error .panic

end ClientIdentifier

namespace RingIdentifier

def new (id : Int32) : Option RingIdentifier := if id < 0 then some ⟨id⟩ else none

def toSlotId (r : RingIdentifier) : UInt32 := r.val.toUInt32

end RingIdentifier

/-! ### Slots -/

/-- The three classes of owner words. -/
inductive SlotClass
  | available
  | server
  | client
  deriving DecidableEq, Repr

/-- The class of an owner word, by its sign as an `i32`. -/
def slotClass (n : UInt32) : SlotClass :=
  if n.toInt32 < 0 then .available else if n = 0 then .server else .client

theorem toInt_toInt32 (n : UInt32) :
    n.toInt32.toInt = if n.toNat < 2 ^ 31 then (n.toNat : Int) else n.toNat - 2 ^ 32 := by
  have hcond := BitVec.toInt_eq_toNat_cond n.toBitVec
  change n.toInt32.toInt = if 2 * n.toNat < 2 ^ 32 then (n.toNat : Int) else n.toNat - (2 ^ 32 : Nat) at hcond
  rw [hcond]
  split <;> split <;> omega

theorem toInt32_neg {n : UInt32} : n.toInt32 < 0 ↔ 2 ^ 31 ≤ n.toNat := by
  have hlt := n.toNat_lt
  rw [Int32.lt_iff_toInt_lt, toInt_toInt32]
  change _ < (0 : Int) ↔ _
  split <;> omega

private theorem one_le_toInt32 {n : UInt32} : 1 ≤ n.toInt32 ↔ 0 < n.toNat ∧ n.toNat < 2 ^ 31 := by
  have hlt := n.toNat_lt
  rw [Int32.le_iff_toInt_le, toInt_toInt32]
  change (1 : Int) ≤ _ ↔ _
  split <;> omega

theorem slotClass_eq_available {n : UInt32} : slotClass n = .available ↔ 2 ^ 31 ≤ n.toNat := by
  rw [← toInt32_neg, slotClass]
  split
  · simp [*]
  · split <;> simp [*]

theorem slotClass_eq_server {n : UInt32} : slotClass n = .server ↔ n = 0 := by
  rw [slotClass]
  split
  · rename_i h
    rw [toInt32_neg] at h
    refine ⟨fun h' => (by cases h'), ?_⟩
    rintro rfl
    exact absurd h (by decide)
  · split <;> simp [*]

theorem slotClass_eq_client {n : UInt32} : slotClass n = .client ↔ 0 < n.toNat ∧ n.toNat < 2 ^ 31 := by
  have hlt := n.toNat_lt
  have hzero : n = 0 ↔ n.toNat = 0 := by rw [← UInt32.toNat_inj]; rfl
  cases h : slotClass n with
  | available =>
    rw [slotClass_eq_available] at h
    exact ⟨fun h' => (by cases h'), fun h' => by omega⟩
  | server =>
    rw [slotClass_eq_server, hzero] at h
    exact ⟨fun h' => (by cases h'), fun h' => by omega⟩
  | client =>
    have h₁ : slotClass n ≠ .available := by rw [h]; decide
    have h₂ : slotClass n ≠ .server := by rw [h]; decide
    rw [ne_eq, slotClass_eq_available] at h₁
    rw [ne_eq, slotClass_eq_server, hzero] at h₂
    exact ⟨fun _ => by omega, fun _ => rfl⟩

namespace ClientSlot

/-- The owner word of a slot that is made available. -/
def forAdvertisement (owner : RingIdentifier) : UInt32 := owner.val.toUInt32

def insert (owner : UInt32) (client : ClientIdentifier) :
    Exec (Except (Option ClientIdentifier) RingIdentifier × UInt32) :=
  let c := client.asI32
  if 0 < c then
    let (acquisition, owner') := fetchUpdate owner fun n => if n.toInt32 < 0 then some c.toUInt32 else none
    match acquisition with
    | .ok id => .ok (.ok ⟨id.toInt32⟩, owner')
    | .error id => .ok (.error (if id = 0 then none else some ⟨id.toUInt64⟩), owner')
  else .error .panic

def isOpenHeuristically (owner : UInt32) : Except ClientIdentifier Bool :=
  let n := owner.toInt32
  if 1 ≤ n then .error ⟨owner.toUInt64⟩
  else if n = 0 then .ok false
  else .ok true

def takeForServer (owner : UInt32) : Except ClientIdentifier (Option RingIdentifier) × UInt32 :=
  let (acquisition, owner') := fetchUpdate owner fun n => if n.toInt32 < 0 then some 0 else none
  match acquisition with
  | .ok id => (.ok (some ⟨id.toInt32⟩), owner')
  | .error id => (if id = 0 then .ok none else .error ⟨id.toUInt64⟩, owner')

def reinit (owner : UInt32) (ring : RingIdentifier) :
    Exec (Except (Option ClientIdentifier) Unit × UInt32) :=
  let token := ring.val
  if token < 0 then
    let (acquisition, owner') := fetchUpdate owner fun n => if n = 0 then some token.toUInt32 else none
    match acquisition with
    | .ok _ => .ok (.ok (), owner')
    -- the word is unsigned here: an available slot is reported as a client's
    | .error id => .ok (.error (if 0 < id then some ⟨id.toUInt64⟩ else none), owner')
  else .error .panic

def leave (owner : UInt32) (id : ClientIdentifier) (spurious : Bool) : Exec (Except UInt32 Unit × UInt32) :=
  id.toSlotId.map fun slotId =>
    let (r, owner') := compareExchangeWeak owner slotId 0 spurious
    (r.map fun _ => (), owner')

def inspect (owner : UInt32) : Except (Option RingIdentifier) ClientIdentifier :=
  let id := owner.toInt32
  if id = 0 then .error none
  else if 1 ≤ id then .ok ⟨owner.toUInt64⟩
  else .error (some ⟨id⟩)

/-! The operations, by the class of the owner word. -/

theorem insert_of_valid {client : ClientIdentifier} (h : client.Valid) (owner : UInt32) :
    insert owner client = .ok (match slotClass owner with
      | .available => (.ok ⟨owner.toInt32⟩, client.asI32.toUInt32)
      | .server => (.error none, owner)
      | .client => (.error (some ⟨owner.toUInt64⟩), owner)) := by
  have h' : 0 < client.asI32 := h
  unfold insert fetchUpdate slotClass
  by_cases hneg : owner.toInt32 < 0
  · simp [h', hneg]
  · by_cases hzero : owner = 0 <;> simp [h', hneg, hzero]

theorem insert_of_not_valid {client : ClientIdentifier} (h : ¬ client.Valid) (owner : UInt32) :
    insert owner client = .error .panic := if_neg h

theorem isOpenHeuristically_eq (owner : UInt32) :
    isOpenHeuristically owner = match slotClass owner with
      | .available => .ok true
      | .server => .ok false
      | .client => .error ⟨owner.toUInt64⟩ := by
  simp only [isOpenHeuristically, one_le_toInt32]
  cases h : slotClass owner with
  | available =>
    have hneg := slotClass_eq_available.1 h
    rw [if_neg (by omega), if_neg]
    exact fun h₀ => absurd (toInt32_neg.2 hneg) (by rw [h₀]; decide)
  | server => rw [slotClass_eq_server.1 h]; rfl
  | client => rw [if_pos (slotClass_eq_client.1 h)]

theorem takeForServer_eq (owner : UInt32) :
    takeForServer owner = match slotClass owner with
      | .available => (.ok (some ⟨owner.toInt32⟩), 0)
      | .server => (.ok none, owner)
      | .client => (.error ⟨owner.toUInt64⟩, owner) := by
  unfold takeForServer fetchUpdate slotClass
  by_cases hneg : owner.toInt32 < 0
  · simp [hneg]
  · by_cases hzero : owner = 0 <;> simp [hneg, hzero]

theorem reinit_eq {ring : RingIdentifier} (h : ring.val < 0) (owner : UInt32) :
    reinit owner ring = .ok (match slotClass owner with
      | .server => (.ok (), ring.val.toUInt32)
      | _ => (.error (some ⟨owner.toUInt64⟩), owner)) := by
  unfold reinit fetchUpdate
  cases hc : slotClass owner with
  | server => simp [h, slotClass_eq_server.1 hc]
  | _ =>
    have hne : owner ≠ 0 := by
      rintro rfl
      cases hc
    have hpos : 0 < owner := UInt32.pos_iff_ne_zero.2 hne
    simp [h, hne, hpos]

theorem inspect_eq (owner : UInt32) :
    inspect owner = match slotClass owner with
      | .available => .error (some ⟨owner.toInt32⟩)
      | .server => .error none
      | .client => .ok ⟨owner.toUInt64⟩ := by
  simp only [inspect, one_le_toInt32]
  cases h : slotClass owner with
  | available =>
    have hneg := slotClass_eq_available.1 h
    rw [if_neg, if_neg (by omega)]
    exact fun h₀ => absurd (toInt32_neg.2 hneg) (by rw [h₀]; decide)
  | server => rw [slotClass_eq_server.1 h]; rfl
  | client =>
    have hpos := slotClass_eq_client.1 h
    rw [if_neg, if_pos hpos]
    intro h₀
    have hone := one_le_toInt32.2 hpos
    rw [h₀] at hone
    exact absurd hone (by decide)

theorem leave_eq {id : ClientIdentifier} (h : id.Valid) (owner : UInt32) (spurious : Bool) :
    leave owner id spurious = .ok (if owner = id.asI32.toUInt32 ∧ spurious = false then (.ok (), 0)
      else (.error owner, owner)) := by
  simp only [leave, ClientIdentifier.toSlotId, if_pos h, compareExchangeWeak, Except.map]
  by_cases hm : owner = id.asI32.toUInt32 ∧ spurious = false
  · simp only [if_pos hm]
  · simp only [if_neg hm]

/-! Neither of the server's exchanges changes the word of a client. -/

theorem takeForServer_client {owner : UInt32} (h : slotClass (takeForServer owner).2 = .client) :
    (takeForServer owner).2 = owner := by
  rw [takeForServer_eq] at h ⊢
  cases hclass : slotClass owner with
  | available => rw [hclass] at h; cases h
  | _ => rfl

theorem reinit_client {owner owner' : UInt32} {ring : RingIdentifier} {res : Except (Option ClientIdentifier) Unit}
    (he : reinit owner ring = .ok (res, owner')) (h : slotClass owner' = .client) : owner' = owner := by
  by_cases hid : ring.val < 0
  · rw [reinit_eq hid] at he
    cases hclass : slotClass owner with
    | server =>
      rw [hclass] at he
      cases he
      simp [slotClass, hid] at h
    | _ =>
      rw [hclass] at he
      cases he
      rfl
  · rw [reinit, if_neg hid] at he
    cases he

end ClientSlot

/-! ### Process ids -/

namespace ClientIdentifier

/-- The id is that of a process: what `ClientIdentifier::new` finds, and what an owner word can say. -/
def IsPid (c : ClientIdentifier) : Prop := 0 < c.val.toNat ∧ c.val.toNat < 2 ^ 31

instance (c : ClientIdentifier) : Decidable c.IsPid := inferInstanceAs (Decidable (_ ∧ _))

/-- The owner word of a client. -/
def word (c : ClientIdentifier) : UInt32 := c.asI32.toUInt32

private theorem IsPid.toNat_word {c : ClientIdentifier} (h : c.IsPid) : c.word.toNat = c.val.toNat := by
  have hlt := h.2
  change c.val.toUInt32.toNat = _
  rw [UInt64.toNat_toUInt32, Nat.mod_eq_of_lt (by omega)]

theorem IsPid.slotClass_word {c : ClientIdentifier} (h : c.IsPid) : slotClass c.word = .client := by
  rw [slotClass_eq_client, h.toNat_word]
  exact h

theorem IsPid.valid {c : ClientIdentifier} (h : c.IsPid) : c.Valid := by
  have hword : c.val.toUInt32.toNat = c.val.toNat := h.toNat_word
  have hone : 1 ≤ c.asI32 := one_le_toInt32.2 (by rw [hword]; exact h)
  rw [Int32.le_iff_toInt_le] at hone
  exact Int32.lt_iff_toInt_lt.2 (Int.lt_of_lt_of_le (by decide) hone)

theorem Valid.word_ne_zero {c : ClientIdentifier} (h : c.Valid) : c.word ≠ 0 := by
  intro hw
  have hzero : c.asI32 = 0 := congrArg UInt32.toInt32 hw
  rw [Valid, hzero] at h
  exact absurd h (by decide)

theorem IsPid.word_inj {c c' : ClientIdentifier} (h : c.IsPid) (h' : c'.IsPid) (he : c.word = c'.word) : c = c' := by
  have hnat := congrArg UInt32.toNat he
  rw [h.toNat_word, h'.toNat_word, UInt64.toNat_inj] at hnat
  cases c
  cases c'
  exact congrArg _ hnat

/-- The client that an owner word names. -/
theorem isPid_of_slotClass {w : UInt32} (h : slotClass w = .client) :
    (⟨w.toUInt64⟩ : ClientIdentifier).IsPid ∧ (⟨w.toUInt64⟩ : ClientIdentifier).word = w :=
  ⟨by rw [IsPid, UInt32.toNat_toUInt64]; exact slotClass_eq_client.1 h, by
    change w.toUInt64.toUInt32 = w
    simp⟩

end ClientIdentifier

/-- The record a server publishes for one ring.  Of a slot only the owner word is kept: the tag beside it is read by
no operation modelled here. -/
structure RingInfo where
  version : UInt64
  offsetHead : UInt64
  offsetRing : UInt64
  offsetData : UInt64
  sizeHead : UInt64
  sizeRing : UInt64
  sizeData : UInt64
  sizeSlotEntry : UInt64
  lhs : UInt32
  rhs : UInt32
  deriving DecidableEq, Repr

def RingInfo.selectSlot (info : RingInfo) : ClientSide → UInt32
  | .left => info.lhs
  | .right => info.rhs

end ShmRing
