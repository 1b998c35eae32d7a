import ShmRing.Data

/-!
# Who holds a slot

What the owner word of a slot says, by its sign: nobody, the server, or the client with this id.  Each operation on
a slot reports this in a result of its own shape.  They agree, and change the word in the class that they start from
only, with one exception: `reinit` compares the word as a `u32`, and reports a slot that nobody holds as held by a
client (`alike_iff`).
-/

namespace ShmRing

open Machine

/-- Who holds a slot. -/
inductive Holder
  | nobody
  | server
  | client (id : ClientIdentifier)
  deriving DecidableEq, Repr

/-- What the owner word means, as a signed number. -/
def holder (owner : UInt32) : Holder :=
  if owner.toInt32.toInt < 0 then .nobody
  else if owner.toInt32.toInt = 0 then .server
  else .client ⟨UInt64.ofNat owner.toInt32.toInt.toNat⟩

private theorem holder_eq (owner : UInt32) :
    holder owner = match slotClass owner with
      | .available => .nobody
      | .server => .server
      | .client => .client ⟨owner.toUInt64⟩ := by
  have hlt := owner.toNat_lt
  have hint := toInt_toInt32 owner
  unfold holder
  cases h : slotClass owner with
  | available =>
    have hneg := slotClass_eq_available.1 h
    rw [if_neg (by omega)] at hint
    rw [hint, if_pos (by omega)]
  | server =>
    rw [slotClass_eq_server.1 h]
    rfl
  | client =>
    obtain ⟨hpos, hle⟩ := slotClass_eq_client.1 h
    rw [if_pos hle] at hint
    rw [hint, if_neg (by omega), if_neg (by omega), Int.toNat_natCast, UInt64.ofNat_uInt32ToNat]

private theorem holder_eq_nobody {owner : UInt32} : holder owner = .nobody ↔ slotClass owner = .available := by
  rw [holder_eq]
  cases slotClass owner <;> simp

private theorem holder_eq_server {owner : UInt32} : holder owner = .server ↔ slotClass owner = .server := by
  rw [holder_eq]
  cases slotClass owner <;> simp

namespace ClientSlot

/-! ### What the results say -/

/-- Who holds the slot, by the result of `insert`. -/
def insertSays : Except (Option ClientIdentifier) RingIdentifier → Holder
  | .ok _ => .nobody
  | .error none => .server
  | .error (some id) => .client id

def isOpenSays : Except ClientIdentifier Bool → Holder
  | .ok true => .nobody
  | .ok false => .server
  | .error id => .client id

def takeSays : Except ClientIdentifier (Option RingIdentifier) → Holder
  | .ok (some _) => .nobody
  | .ok none => .server
  | .error id => .client id

def reinitSays : Except (Option ClientIdentifier) Unit → Holder
  | .ok _ => .server
  | .error none => .nobody
  | .error (some id) => .client id

def inspectSays : Except (Option RingIdentifier) ClientIdentifier → Holder
  | .error (some _) => .nobody
  | .error none => .server
  | .ok id => .client id

/-- `leave` fails with the word itself. -/
def leaveSays (id : ClientIdentifier) : Except UInt32 Unit → Holder
  | .ok _ => .client ⟨id.word.toUInt64⟩
  | .error n => holder n

/-! ### Agreement -/

/-- An exchange that starts from slots with such a holder, and stores `new`. -/
structure Exchanged (start : Holder) (owner owner' new : UInt32) : Prop where
  changed : holder owner = start → owner' = new ∧ new ≠ owner
  kept : holder owner ≠ start → owner' = owner

/-- Every operation says who holds the slot, and those that write to it do so in the class that they start from. -/
structure Alike (owner : UInt32) (client : ClientIdentifier) (ring : RingIdentifier) : Prop where
  inspect : inspectSays (inspect owner) = holder owner
  isOpenHeuristically : isOpenSays (isOpenHeuristically owner) = holder owner
  insert : ∃ r owner', insert owner client = .ok (r, owner') ∧ insertSays r = holder owner ∧
    Exchanged .nobody owner owner' client.word
  takeForServer : takeSays (takeForServer owner).1 = holder owner ∧
    Exchanged .nobody owner (takeForServer owner).2 0
  reinit : ∃ r owner', reinit owner ring = .ok (r, owner') ∧ reinitSays r = holder owner ∧
    Exchanged .server owner owner' ring.toSlotId
  leave : ∀ spurious, ∃ r owner', leave owner client spurious = .ok (r, owner') ∧ leaveSays client r = holder owner ∧
    (owner' ≠ owner → holder owner = .client ⟨client.word.toUInt64⟩)

variable {owner : UInt32} {client : ClientIdentifier} {ring : RingIdentifier}

private theorem slotClass_word (h : client.Valid) : slotClass client.word = .client := by
  have hlt := client.asI32.toUInt32.toNat_lt
  have hpos : ¬ client.word.toInt32 < 0 := fun hneg => by
    have h' := Int32.lt_iff_toInt_lt.1 h
    have hneg := Int32.lt_iff_toInt_lt.1 hneg
    change client.asI32.toInt < 0 at hneg
    change 0 < client.asI32.toInt at h'
    omega
  rw [slotClass, if_neg hpos, if_neg h.word_ne_zero]

private theorem Exchanged.taken {new : UInt32} (hclass : slotClass owner = .available)
    (hnew : slotClass new ≠ .available) : Exchanged .nobody owner new new where
  changed _ := ⟨rfl, fun he => hnew (he ▸ hclass)⟩
  kept hne := absurd (holder_eq_nobody.2 hclass) hne

private theorem Exchanged.refused {new : UInt32} (hclass : slotClass owner ≠ .available) :
    Exchanged .nobody owner owner new where
  changed hn := absurd (holder_eq_nobody.1 hn) hclass
  kept _ := rfl

theorem inspect_holder : inspectSays (inspect owner) = holder owner := by
  rw [inspect_eq, holder_eq]
  cases slotClass owner <;> rfl

private theorem isOpenHeuristically_holder : isOpenSays (isOpenHeuristically owner) = holder owner := by
  rw [isOpenHeuristically_eq, holder_eq]
  cases slotClass owner <;> rfl

private theorem insert_holder (h : client.Valid) : ∃ r owner', insert owner client = .ok (r, owner') ∧
    insertSays r = holder owner ∧ Exchanged .nobody owner owner' client.word := by
  rw [insert_of_valid h]
  cases hclass : slotClass owner with
  | available =>
    have hword : slotClass client.word ≠ .available := by
      rw [slotClass_word h]
      nofun
    exact ⟨_, _, rfl, (holder_eq_nobody.2 hclass).symm, .taken hclass hword⟩
  | _ =>
    refine ⟨_, _, rfl, ?_, .refused (by rw [hclass]; nofun)⟩
    rw [holder_eq, hclass]
    rfl

private theorem takeForServer_holder : takeSays (takeForServer owner).1 = holder owner ∧
    Exchanged .nobody owner (takeForServer owner).2 0 := by
  rw [takeForServer_eq]
  cases hclass : slotClass owner with
  | available =>
    exact ⟨(holder_eq_nobody.2 hclass).symm, .taken hclass (show slotClass 0 ≠ .available by decide)⟩
  | _ =>
    refine ⟨?_, .refused (by rw [hclass]; nofun)⟩
    rw [holder_eq, hclass]
    rfl

theorem leave_holder (h : client.Valid) (spurious : Bool) : ∃ r owner', leave owner client spurious = .ok (r, owner') ∧
    leaveSays client r = holder owner ∧ (owner' ≠ owner → holder owner = .client ⟨client.word.toUInt64⟩) := by
  have hheld : owner = client.word → holder owner = .client ⟨client.word.toUInt64⟩ := fun he => by
    rw [holder_eq, he, slotClass_word h]
  rw [leave_eq h]
  by_cases hm : owner = client.asI32.toUInt32 ∧ spurious = false
  · rw [if_pos hm]
    exact ⟨_, _, rfl, (hheld hm.1).symm, fun _ => hheld hm.1⟩
  · rw [if_neg hm]
    exact ⟨_, _, rfl, rfl, fun hne => absurd rfl hne⟩

/-- `reinit` misreports the slots that nobody holds, and no others. -/
private theorem reinit_holder_iff (h : ring.val < 0) :
    (∃ r owner', reinit owner ring = .ok (r, owner') ∧ reinitSays r = holder owner ∧
      Exchanged .server owner owner' ring.toSlotId) ↔ holder owner ≠ .nobody := by
  rw [reinit_eq h]
  cases hclass : slotClass owner with
  | available =>
    have hnobody := holder_eq_nobody.2 hclass
    refine ⟨?_, fun hne => absurd hnobody hne⟩
    rintro ⟨r, owner', he, hsays, -⟩
    cases he
    rw [hnobody] at hsays
    cases hsays
  | server =>
    have hserver := holder_eq_server.2 hclass
    have hzero := slotClass_eq_server.1 hclass
    refine ⟨fun _ => by rw [hserver]; decide, fun _ => ⟨_, _, rfl, hserver.symm, fun _ => ⟨rfl, ?_⟩, fun hne => ?_⟩⟩
    · rw [hzero]
      intro hz
      have hval : ring.val = 0 := congrArg UInt32.toInt32 hz
      rw [hval] at h
      exact absurd h (by decide)
    · exact absurd hserver hne
  | client =>
    have hclient : holder owner = .client ⟨owner.toUInt64⟩ := by rw [holder_eq, hclass]
    refine ⟨fun _ => by rw [hclient]; nofun, fun _ => ⟨_, _, rfl, hclient.symm, fun hs => ?_, fun _ => rfl⟩⟩
    rw [hclient] at hs
    cases hs

/-- The operations agree on a slot if and only if somebody holds it. -/
theorem alike_iff (hc : client.Valid) (hr : ring.val < 0) (owner : UInt32) :
    Alike owner client ring ↔ ¬ owner.toInt32.toInt < 0 := by
  have hheld : holder owner ≠ .nobody ↔ ¬ owner.toInt32.toInt < 0 := by
    unfold holder
    split
    · simp [*]
    · split <;> simp [*]
  rw [← hheld, ← reinit_holder_iff hr]
  exact ⟨Alike.reinit, fun h =>
    ⟨inspect_holder, isOpenHeuristically_holder, insert_holder hc, takeForServer_holder, h, leave_holder hc⟩⟩

/-- A slot that a client holds. -/
theorem alike_iff_client : Alike 7 ⟨5⟩ ⟨-1⟩ :=
  (alike_iff (by decide) (by decide) 7).2 (by decide)

/-- An open slot is reported by `reinit` as that of a client. -/
theorem not_alike : ¬ Alike 0xffffffff ⟨5⟩ ⟨-1⟩ := by
  rintro ⟨-, -, -, -, ⟨r, owner', he, hsays, -⟩, -⟩
  rw [reinit_eq (by decide)] at he
  cases he
  cases hsays

end ClientSlot

end ShmRing
