import ShmRing.Ownership

/-!
# Sessions

A ring is used by pairs: between two resets of its head each side is joined once at most, so whom a client talks to
never changes under it (`sessions_of_run`).  A slot that was left is no client's until the server has reset the ring,
which is the only way for it to be open again.

As in `Ownership`, the invariant is one of each ring by itself, with the server at its place in `bring_up`.
-/

namespace ShmRing

open Transition

namespace Authority

/-- Nobody has joined the side since the last reset. -/
def Unused (cl : Clients) (idx : Nat) (r : RingState) (s : ClientSide) : Prop :=
  ∀ k hd, cl.handle k = some hd → hd.ring = idx → hd.side = s → hd.generation < r.generation

/-- What the server relies on when it advertises a side again. -/
def RingState.Turning (cl : Clients) (idx : Nat) (r : RingState) : Option RingState.Pc → Prop
  | some .takeRhs => r.owner .left = 0
  | some (.reset _) => ∀ s, r.owner s = 0
  | some .reinitLhs => (∀ s, r.owner s = 0) ∧ ∀ s, Unused cl idx r s
  | some .reinitRhs => r.owner .right = 0 ∧ Unused cl idx r .right
  | _ => True

/-- The joins of a ring. -/
structure Single (cl : Clients) (idx : Nat) (r : RingState) (p : Option RingState.Pc) : Prop where
  generation_le : ∀ k hd, cl.handle k = some hd → hd.ring = idx → hd.generation ≤ r.generation
  once : ∀ k k' hd hd', cl.handle k = some hd → cl.handle k' = some hd' → hd.ring = idx → hd'.ring = idx →
    hd.side = hd'.side → hd.generation = hd'.generation → k = k'
  unused : ∀ s, slotClass (r.owner s) = .available → Unused cl idx r s
  turning : r.Turning cl idx p

/-- No handle is new. -/
def Clients.Older (cl cl' : Clients) : Prop :=
  ∀ k hd', cl'.handle k = some hd' → ∃ hd, cl.handle k = some hd ∧ hd.ring = hd'.ring ∧ hd.side = hd'.side ∧
    hd.generation = hd'.generation

private theorem Clients.Older.put {cl : Clients} {k : Nat} {hd hd' : Handle} (hk : cl.handle k = some hd)
    (hring : hd.ring = hd'.ring) (hside : hd.side = hd'.side) (hgen : hd.generation = hd'.generation) :
    cl.Older (cl.put k hd') := by
  intro k' hd'' hk'
  rcases Clients.put_eq_some hk' with ⟨rfl, rfl⟩ | ⟨-, hk'⟩
  · exact ⟨hd, hk, hring, hside, hgen⟩
  · exact ⟨hd'', hk', rfl, rfl, rfl⟩

section

variable {cl cl' : Clients} {idx : Nat} {r r' : RingState} {p p' : Option RingState.Pc} {s : ClientSide}

private theorem Unused.older (h : Unused cl idx r s) (hold : cl.Older cl') : Unused cl' idx r s := by
  intro k hd' hk hidx hside
  obtain ⟨hd, hk', hring', hside', hgen⟩ := hold k hd' hk
  rw [← hgen]
  exact h k hd hk' (hring'.trans hidx) (hside'.trans hside)

/-- The server goes on, and what was zero still is. -/
private theorem RingState.Turning.mono (h : r.Turning cl idx p) (hzero : ∀ s, r.owner s = 0 → r'.owner s = 0)
    (hgen : r'.generation = r.generation) (hunused : ∀ s, r.owner s = 0 → Unused cl idx r s → Unused cl' idx r s) :
    r'.Turning cl' idx p := by
  have hunused' : ∀ s, r.owner s = 0 → Unused cl idx r s → Unused cl' idx r' s := by
    intro s hs hu k hd hk hidx hside
    rw [hgen]
    exact hunused s hs hu k hd hk hidx hside
  cases p with
  | none => trivial
  | some p =>
    cases p with
    | checkLhs | checkRhs | takeLhs => trivial
    | takeRhs => exact hzero _ h
    | reset ws => exact fun s => hzero s (h s)
    | reinitLhs => exact ⟨fun s => hzero s (h.1 s), fun s => hunused' s (h.1 s) (h.2 s)⟩
    | reinitRhs => exact ⟨hzero _ h.1, hunused' _ h.1 h.2⟩

namespace Single

private theorem goto (h : Single cl idx r p) (hp : r.Turning cl idx p') : Single cl idx r p' :=
  ⟨h.generation_le, h.once, h.unused, hp⟩

/-- No handle is new. -/
private theorem older (h : Single cl idx r p) (hold : cl.Older cl') : Single cl' idx r p where
  generation_le k hd' hk hidx := by
    obtain ⟨hd, hk', hring, -, hgen⟩ := hold k hd' hk
    rw [← hgen]
    exact h.generation_le k hd hk' (hring.trans hidx)
  once k k' hd₁ hd₂ hk hk' hidx hidx' hside hgen := by
    obtain ⟨hd, hk₁, hring, hside₁, hgen₁⟩ := hold k hd₁ hk
    obtain ⟨hd', hk₂, hring', hside₂, hgen₂⟩ := hold k' hd₂ hk'
    exact h.once k k' hd hd' hk₁ hk₂ (hring.trans hidx) (hring'.trans hidx') (by rw [hside₁, hside, hside₂])
      (by rw [hgen₁, hgen, hgen₂])
  unused s hs := (h.unused s hs).older hold
  turning := h.turning.mono (fun _ hs => hs) rfl fun _ _ hu => hu.older hold

/-- A slot gets another owner word. -/
private theorem setOwner (h : Single cl idx r p) {v : UInt32} (hopen : slotClass v = .available → Unused cl idx r s)
    (hp : (r.setOwner s v).Turning cl idx p') : Single cl idx (r.setOwner s v) p' where
  generation_le := h.generation_le
  once := h.once
  unused t ht := by
    by_cases he : t = s
    · subst he
      simp only [RingState.setOwner, Function.update_self] at ht
      exact hopen ht
    · simp only [RingState.setOwner, Function.update_of_ne he] at ht
      exact h.unused t ht
  turning := hp

/-- A side is left. -/
private theorem release (h : Single cl idx r p) : Single cl idx (r.setOwner s 0) p := by
  refine h.setOwner (fun hc => by cases hc) (h.turning.mono (fun t ht => ?_) rfl fun _ _ hu => hu)
  by_cases he : t = s
  · subst he
    simp only [RingState.setOwner, Function.update_self]
  · simpa only [RingState.setOwner, Function.update_of_ne he] using ht

/-- A side that is joined was not joined since the reset, and is joined in this generation now. -/
private theorem join (h : Single cl idx r p) {k : Nat} {hd : Handle} (hpid : hd.client.IsPid)
    (hfree : cl.handle k = none) (hopen : slotClass (r.owner hd.side) = .available)
    (hgen : hd.generation = r.generation) (hidx : hd.ring = idx) :
    Single (cl.put k hd) idx
      { r.setOwner hd.side hd.client.word with holder := Function.update r.holder hd.side (some k) } p where
  generation_le k' hd' hk hidx' := by
    rcases Clients.put_eq_some hk with ⟨-, rfl⟩ | ⟨-, hk⟩
    · exact Nat.le_of_eq hgen
    · exact h.generation_le k' hd' hk hidx'
  once k₁ k₂ hd₁ hd₂ hk₁ hk₂ hidx₁ hidx₂ hside hgen' := by
    have hold := h.unused _ hopen
    rcases Clients.put_eq_some hk₁ with ⟨rfl, rfl⟩ | ⟨-, hold₁⟩ <;>
      rcases Clients.put_eq_some hk₂ with ⟨rfl, rfl⟩ | ⟨-, hold₂⟩
    · rfl
    · have hlt := hold k₂ hd₂ hold₂ hidx₂ hside.symm
      omega
    · have hlt := hold k₁ hd₁ hold₁ hidx₁ hside
      omega
    · exact h.once k₁ k₂ hd₁ hd₂ hold₁ hold₂ hidx₁ hidx₂ hside hgen'
  unused t ht := by
    by_cases he : t = hd.side
    · subst he
      simp only [RingState.setOwner, Function.update_self, hpid.slotClass_word] at ht
      cases ht
    · simp only [RingState.setOwner, Function.update_of_ne he] at ht
      intro k' hd' hk hidx' hside
      rcases Clients.put_eq_some hk with ⟨-, rfl⟩ | ⟨-, hk⟩
      · exact absurd hside.symm he
      · exact h.unused t ht k' hd' hk hidx' hside
  turning := by
    have hne : ∀ t, r.owner t = 0 → t ≠ hd.side := by
      rintro t ht rfl
      rw [ht] at hopen
      cases hopen
    refine h.turning.mono (fun t ht => ?_) rfl fun t ht hu k' hd' hk hidx' hside => ?_
    · simpa only [RingState.setOwner, Function.update_of_ne (hne t ht)] using ht
    · rcases Clients.put_eq_some hk with ⟨-, rfl⟩ | ⟨-, hk⟩
      · exact absurd hside.symm (hne t ht)
      · exact hu k' hd' hk hidx' hside

/-- A handle on another ring is put where there was none. -/
private theorem enter (h : Single cl idx r p) {k : Nat} {hd : Handle} (hne : idx ≠ hd.ring) :
    Single (cl.put k hd) idx r p := by
  have hold : ∀ k' hd', (cl.put k hd).handle k' = some hd' → hd'.ring = idx → cl.handle k' = some hd' := by
    intro k' hd' hk hidx
    rcases Clients.put_eq_some hk with ⟨-, rfl⟩ | ⟨-, hk⟩
    · exact absurd hidx.symm hne
    · exact hk
  have hunused : ∀ t, Unused cl idx r t → Unused (cl.put k hd) idx r t :=
    fun t hu k' hd' hk hidx => hu k' hd' (hold k' hd' hk hidx) hidx
  exact
    { generation_le := fun k' hd' hk hidx => h.generation_le k' hd' (hold k' hd' hk hidx) hidx
      once := fun k₁ k₂ hd₁ hd₂ hk₁ hk₂ hidx₁ hidx₂ =>
        h.once k₁ k₂ hd₁ hd₂ (hold k₁ hd₁ hk₁ hidx₁) (hold k₂ hd₂ hk₂ hidx₂) hidx₁ hidx₂
      unused := fun t ht => hunused t (h.unused t ht)
      turning := h.turning.mono (fun _ ht => ht) rfl fun t _ hu => hunused t hu }

/-- A client writes, which says nothing of who has joined. -/
private theorem head (h : Single cl idx r p) (head : RingHead) (writer : HeadWord → Option Nat) :
    Single cl idx { r with head := head, writer := writer } p :=
  ⟨h.generation_le, h.once, h.unused, h.turning.mono (fun _ ht => ht) rfl fun _ _ hu => hu⟩

/-- The server takes what is open or has it already. -/
private theorem take (h : Single cl idx r p) (s : ClientSide) {q : RingState.Pc}
    (hp : (r.setOwner s 0).Turning cl idx (some q)) :
    Single cl idx (r.setOwner s (ClientSlot.takeForServer (r.owner s)).2)
      (match (ClientSlot.takeForServer (r.owner s)).1 with
        | .ok _ => some q
        | .error _ => none) := by
  rw [ClientSlot.takeForServer_eq]
  cases hclass : slotClass (r.owner s) with
  | available => exact h.setOwner (fun hc => by cases hc) hp
  | server =>
    rw [slotClass_eq_server.1 hclass]
    exact h.setOwner (fun hc => by cases hc) hp
  | client =>
    simp only [RingState.setOwner_self]
    exact h.goto trivial

/-- A reset begins a generation, in which nobody has joined. -/
private theorem reset (h : Single cl idx r (some (.reset []))) :
    Single cl idx { r with generation := r.generation + 1 } (some .reinitLhs) where
  generation_le k hd hk hidx := Nat.le_succ_of_le (h.generation_le k hd hk hidx)
  once := h.once
  unused _ _ k hd hk hidx _ := Nat.lt_succ_of_le (h.generation_le k hd hk hidx)
  turning := ⟨h.turning, fun _ k hd hk hidx _ => Nat.lt_succ_of_le (h.generation_le k hd hk hidx)⟩

private theorem bringUp {q : RingState.Pc} (h : Single cl idx r (some q)) (cfg : RingConfig) :
    Single cl idx (r.bringUp cfg q).1 (r.bringUp cfg q).2.pc := by
  cases q with
  | checkLhs =>
    simp only [RingState.bringUp]
    split
    · split <;> exact h.goto trivial
    · exact h.goto trivial
  | checkRhs openLhs =>
    simp only [RingState.bringUp]
    split
    · split <;> exact h.goto trivial
    · exact h.goto trivial
  | takeLhs =>
    have htake := h.take .left (q := .takeRhs)
      (by simp only [RingState.Turning, RingState.setOwner, Function.update_self])
    simp only [RingState.bringUp]
    revert htake
    cases (ClientSlot.takeForServer (r.owner .left)).1 <;> exact id
  | takeRhs =>
    have hleft : r.owner .left = 0 := h.turning
    have htake := h.take .right (q := .reset RingHead.reinitOrder)
      (fun t => by cases t <;> simp [RingState.setOwner, hleft])
    simp only [RingState.bringUp]
    revert htake
    cases (ClientSlot.takeForServer (r.owner .right)).1 <;> exact id
  | reset ws =>
    cases ws with
    | nil => exact h.reset
    | cons w ws => exact ⟨h.generation_le, h.once, h.unused, h.turning⟩
  | reinitLhs =>
    obtain ⟨howner, hunused⟩ := h.turning
    simp only [RingState.bringUp]
    by_cases hid : cfg.lhs < 0
    · rw [ClientSlot.reinit_eq (show (⟨cfg.lhs⟩ : RingIdentifier).val < 0 from hid),
        slotClass_eq_server.2 (howner .left)]
      refine h.setOwner (fun _ => hunused .left) ⟨?_, hunused .right⟩
      simp only [RingState.setOwner, Function.update_of_ne (show ClientSide.right ≠ .left by decide), howner]
    · simp only [ClientSlot.reinit, if_neg hid]
      exact h.goto trivial
  | reinitRhs =>
    obtain ⟨howner, hunused⟩ := h.turning
    simp only [RingState.bringUp]
    by_cases hid : cfg.rhs < 0
    · rw [ClientSlot.reinit_eq (show (⟨cfg.rhs⟩ : RingIdentifier).val < 0 from hid), slotClass_eq_server.2 howner]
      exact h.setOwner (fun _ => hunused) trivial
    · simp only [ClientSlot.reinit, if_neg hid]
      exact h.goto trivial

end Single

/-! ### The word that says who is blocked -/

/-- The word is as it was reset, or a handle of the generation wrote it. -/
structure Blocked (cl : Clients) (idx : Nat) (r : RingState) (p : Option RingState.Pc) : Prop where
  writer : r.head.load .blocked ≠ 0 → ∃ k hd, r.writer .blocked = some k ∧ cl.handle k = some hd ∧ hd.ring = idx ∧
    hd.generation = r.generation
  reset : ∀ ws, p = some (.reset ws) → HeadWord.blocked ∉ ws → r.head.load .blocked = 0

/-- The server is storing to the head. -/
def resets : Option RingState.Pc → Bool
  | some (.reset _) => true
  | _ => false

/-- No handle is lost, nor taken over by another ring or generation. -/
def Clients.Kept (cl cl' : Clients) : Prop :=
  ∀ k hd, cl.handle k = some hd → ∃ hd', cl'.handle k = some hd' ∧ hd'.ring = hd.ring ∧ hd'.generation = hd.generation

private theorem Clients.Kept.put_free {cl : Clients} {k : Nat} (hfree : cl.handle k = none) (hd : Handle) :
    cl.Kept (cl.put k hd) := by
  intro k' hd' hk
  have hne : k' ≠ k := fun he => by rw [he, hfree] at hk; cases hk
  exact ⟨hd', (Clients.put_of_ne cl hd hne).trans hk, rfl, rfl⟩

private theorem Clients.Kept.put {cl : Clients} {k : Nat} {hd hd' : Handle} (hk : cl.handle k = some hd)
    (hring : hd'.ring = hd.ring) (hgen : hd'.generation = hd.generation) : cl.Kept (cl.put k hd') := by
  intro k' hd'' hk'
  by_cases he : k' = k
  · subst he
    obtain rfl : hd = hd'' := Option.some.inj (hk.symm.trans hk')
    exact ⟨hd', Clients.put_self .., hring, hgen⟩
  · exact ⟨hd'', (Clients.put_of_ne cl hd' he).trans hk', rfl, rfl⟩

namespace Blocked

private theorem goto (h : Blocked cl idx r p) (hp : resets p' = false) : Blocked cl idx r p' :=
  ⟨h.writer, fun _ he => by subst he; cases hp⟩

/-- The words of the head, and who wrote them, are as before. -/
private theorem congr (h : Blocked cl idx r p) (hcl : cl.Kept cl') (hhead : r'.head = r.head)
    (hwriter : r'.writer = r.writer) (hgen : r'.generation = r.generation) : Blocked cl' idx r' p where
  writer hne := by
    rw [hhead] at hne
    obtain ⟨k, hd, hw, hk, hring, hg⟩ := h.writer hne
    obtain ⟨hd', hk', hring', hg'⟩ := hcl k hd hk
    exact ⟨k, hd', by rw [hwriter]; exact hw, hk', hring'.trans hring, by rw [hg', hg, hgen]⟩
  reset ws hp hn := by
    rw [hhead]
    exact h.reset ws hp hn

/-- A handle writes, which it does not while the server resets the head. -/
private theorem write (h : Blocked cl idx r p) (hok : RingOk cl idx r p) (hcl : cl.Ok) {k : Nat} {hd : Handle}
    {w : HeadWord} {v : UInt32} (hk : cl.handle k = some hd) (hidx : hd.ring = idx) (hlive : cl.Live hd) :
    Blocked cl idx { r with head := r.head.store w v, writer := Function.update r.writer w (some k) } p := by
  obtain ⟨-, -, hgen⟩ := hok.live k hd hk hidx hlive
  refine ⟨fun hne => ?_, fun ws hp => ?_⟩
  · by_cases hw : HeadWord.blocked = w
    · subst hw
      exact ⟨k, hd, by simp only [Function.update_self], hk, hidx, hgen⟩
    · simp only [RingHead.load_store_of_ne _ hw] at hne
      obtain ⟨k', hd', hwriter, hrest⟩ := h.writer hne
      exact ⟨k', hd', by simp only [Function.update_of_ne hw]; exact hwriter, hrest⟩
  · subst hp
    have howner : ∀ s, r.owner s = 0 := hok.held.1
    exact absurd hlive (hok.not_live hcl (by rw [howner]; decide) hk hidx rfl)

private theorem bringUp {q : RingState.Pc} (h : Blocked cl idx r (some q)) (cfg : RingConfig) :
    Blocked cl idx (r.bringUp cfg q).1 (r.bringUp cfg q).2.pc := by
  have hsame : ∀ {o : ClientSide → UInt32} {out : RingState.Outcome}, resets out.pc = false →
      Blocked cl idx { r with owner := o } out.pc :=
    fun hout => ⟨h.writer, fun _ he => by rw [he] at hout; cases hout⟩
  cases q with
  | checkLhs =>
    simp only [RingState.bringUp]
    split
    · split <;> exact hsame rfl
    · exact hsame rfl
  | checkRhs openLhs =>
    simp only [RingState.bringUp]
    split
    · split <;> exact hsame rfl
    · exact hsame rfl
  | takeLhs =>
    simp only [RingState.bringUp]
    cases (ClientSlot.takeForServer (r.owner .left)).1 <;> exact hsame rfl
  | takeRhs =>
    simp only [RingState.bringUp]
    cases (ClientSlot.takeForServer (r.owner .right)).1 with
    | ok =>
      refine ⟨h.writer, fun ws he hn => ?_⟩
      cases he
      exact absurd (RingHead.mem_reinitOrder _) hn
    | error => exact hsame rfl
  | reset ws =>
    cases ws with
    | nil =>
      have hzero := h.reset [] rfl List.not_mem_nil
      exact ⟨fun hne => absurd hzero hne, fun _ he => by cases he⟩
    | cons w ws =>
      refine ⟨fun hne => ?_, fun ws' he hn => ?_⟩
      · simp only [RingState.bringUp, RingHead.load_store] at hne
        split at hne
        · exact absurd rfl hne
        · exact h.writer hne
      · cases he
        simp only [RingState.bringUp, RingHead.load_store]
        split
        · rfl
        · exact h.reset (w :: ws) rfl (by simp [*])
  | reinitLhs =>
    simp only [RingState.bringUp]
    cases ClientSlot.reinit (r.owner .left) ⟨cfg.lhs⟩ with
    | error => exact hsame rfl
    | ok x => obtain ⟨_ | _, _⟩ := x <;> exact hsame rfl
  | reinitRhs =>
    simp only [RingState.bringUp]
    cases ClientSlot.reinit (r.owner .right) ⟨cfg.rhs⟩ with
    | error => exact hsame rfl
    | ok x => obtain ⟨_ | _, _⟩ := x <;> exact hsame rfl

end Blocked

end

/-! ### The system -/

/-- Where a loop of the server goes on, it is in no ring or at the beginning of one. -/
def ServerPc.Outside (pc : ServerPc) : Prop := ∀ idx, pc.ringPc idx = none ∨ pc.ringPc idx = some .checkLhs

private theorem ReapNext.outside {c : ClientIdentifier} {rings : List (Nat × ClientSide)} {pc : ServerPc}
    {last : Option Call} (h : ReapNext c rings pc last) : pc.Outside := by
  rcases h with rfl | ⟨rfl, -⟩ <;> exact fun _ => .inl rfl

private theorem TrackNext.outside {n i : Nat} {side : ClientSide} {pc : ServerPc} {last : Option Call}
    (h : TrackNext n i side pc last) : pc.Outside := by
  rcases h with ⟨-, rfl⟩ | ⟨-, rfl⟩ | ⟨-, -, rfl, -⟩ <;> exact fun _ => .inl rfl

private theorem ServerPc.outside_bringUp (ids : List RingConfig) (i success : Nat) :
    (ServerPc.bringUp ids i .checkLhs success).Outside := by
  intro idx
  rw [ServerPc.ringPc]
  split
  · exact .inr rfl
  · exact .inl rfl

/-- What holds of each ring by itself. -/
structure Paired (cl : Clients) (idx : Nat) (r : RingState) (p : Option RingState.Pc) : Prop where
  single : Single cl idx r p
  blocked : Blocked cl idx r p

private theorem Paired.outside {cl : Clients} {idx : Nat} {r : RingState} {p : Option RingState.Pc} {pc : ServerPc}
    (h : Paired cl idx r p) (hpc : pc.Outside) : Paired cl idx r (pc.ringPc idx) := by
  rcases hpc idx with he | he <;> rw [he] <;> exact ⟨h.single.goto trivial, h.blocked.goto rfl⟩

/-- The rings are as before but for one. -/
private theorem Paired.forall_update {ring : Nat → RingState} {i : Nat} {r : RingState} {pc : ServerPc} {cl : Clients}
    (hi : Paired cl i r (pc.ringPc i)) (hne : ∀ idx, idx ≠ i → Paired cl idx (ring idx) (pc.ringPc idx)) :
    ∀ idx, Paired cl idx (Function.update ring i r idx) (pc.ringPc idx) :=
  (Function.forall_update_iff ring fun idx r => Paired cl idx r (pc.ringPc idx)).2 ⟨hi, hne⟩

def Sessional (st : State) : Prop := ∀ idx, Paired st.clients idx (st.ring idx) (st.server.pc.ringPc idx)

theorem sessional_init (cfgs : List RingConfig) : Sessional (init cfgs) := fun _ =>
  { single :=
      { generation_le := fun _ _ hk => by cases hk
        once := fun _ _ _ _ hk => by cases hk
        unused := fun _ _ _ _ hk => by cases hk
        turning := trivial }
    blocked := ⟨fun hne => absurd (RingHead.load_zero _) hne, fun _ he => by cases he⟩ }

namespace Sessional

variable {n : Nat} {st st' : State} {a : Act}

private theorem bringUpStep (h : Sessional st) {cfg : RingConfig} {ids : List RingConfig} {i success : Nat}
    {p : RingState.Pc} {pc : ServerPc} {last : Option Call} (hpc : st.server.pc = .bringUp (cfg :: ids) i p success)
    (hnext : BringUpNext (cfg :: ids) i success ((st.ring i).bringUp cfg p).2 pc last) :
    ∀ idx, Paired st.clients idx (Function.update st.ring i ((st.ring i).bringUp cfg p).1 idx) (pc.ringPc idx) := by
  have hi : Paired st.clients i (st.ring i) (some p) := by
    have := h i
    rwa [hpc, ServerPc.ringPc, if_pos rfl] at this
  have hi' : Paired st.clients i ((st.ring i).bringUp cfg p).1 ((st.ring i).bringUp cfg p).2.pc :=
    ⟨hi.single.bringUp cfg, hi.blocked.bringUp cfg⟩
  rcases hnext with ⟨q, hq, rfl⟩ | ⟨success', rfl | ⟨rfl, -⟩⟩ | rfl
  · refine .forall_update ?_ fun idx hne => ?_
    · rw [hq] at hi'
      rw [ServerPc.ringPc, if_pos rfl]
      exact hi'
    · rw [ServerPc.ringPc, if_neg hne.symm]
      exact ⟨(h idx).single.goto trivial, (h idx).blocked.goto rfl⟩
  · exact .forall_update (hi'.outside (ServerPc.outside_bringUp _ _ _)) fun idx _ =>
      (h idx).outside (ServerPc.outside_bringUp _ _ _)
  · exact .forall_update (hi'.outside fun _ => .inl rfl) fun idx _ => (h idx).outside fun _ => .inl rfl
  · exact .forall_update (hi'.outside fun _ => .inl rfl) fun idx _ => (h idx).outside fun _ => .inl rfl

theorem step (h : Sessional st) (hkept : Kept st) (e : Step n st a st') : Sessional st' := by
  cases e with
  | spawn | exit =>
    exact fun idx => ⟨(h idx).single.older fun k hd hk => ⟨hd, hk, rfl, rfl, rfl⟩,
      (h idx).blocked.congr (fun k hd hk => ⟨hd, hk, rfl, rfl⟩) rfl rfl rfl⟩
  | refused => exact h
  | @join k hd hp hfree _ hopen _ hgen =>
    have hpid := (hkept.named.clients.process _ _ hp).1
    exact .forall_update
      ⟨(h hd.ring).single.join hpid hfree hopen hgen rfl, (h hd.ring).blocked.congr (.put_free hfree hd) rfl rfl rfl⟩
      fun idx hne => ⟨(h idx).single.enter hne, (h idx).blocked.congr (.put_free hfree hd) rfl rfl rfl⟩
  | @write k hd _ _ hk hlive =>
    exact .forall_update
      ⟨(h hd.ring).single.head _ _, (h hd.ring).blocked.write (hkept.ring hd.ring) hkept.named.clients hk rfl hlive⟩
      fun idx _ => h idx
  | drop hk =>
    exact .forall_update
      ⟨(h _).single.release.older (.put hk rfl rfl rfl), (h _).blocked.congr (.put hk rfl rfl) rfl rfl rfl⟩
      fun idx _ => ⟨(h idx).single.older (.put hk rfl rfl rfl), (h idx).blocked.congr (.put hk rfl rfl) rfl rfl rfl⟩
  | reapUntracked | reapPanics | leavePanics | inspect => exact fun idx => (h idx).outside fun _ => .inl rfl
  | reapTracked _ _ _ _ _ hnext | stay _ _ _ hnext => exact fun idx => (h idx).outside hnext.outside
  | @leave c rings r pc last hpc _ _ howner hnext =>
    refine .forall_update (Paired.outside (p := st.server.pc.ringPc r.1) ?_ hnext.outside) fun idx _ =>
      (h idx).outside hnext.outside
    exact ⟨(h r.1).single.release, (h r.1).blocked.congr (fun k hd hk => ⟨hd, hk, rfl, rfl⟩) rfl rfl rfl⟩
  | skip _ _ hnext | trackAgain _ _ hnext | trackNew _ _ _ hnext | trackFails _ _ _ hnext =>
    exact fun idx => (h idx).outside hnext.outside
  | trackClients _ hnext =>
    rcases hnext with rfl | ⟨-, rfl, -⟩ <;> exact fun idx => (h idx).outside fun _ => .inl rfl
  | bringUp _ hnext =>
    rcases hnext with rfl | ⟨rfl, -⟩
    · exact fun idx => (h idx).outside (ServerPc.outside_bringUp _ _ _)
    · exact fun idx => (h idx).outside fun _ => .inl rfl
  | bringUpStep hpc hnext => exact h.bringUpStep hpc hnext

end Sessional

/-- Whom a client shares a ring with. -/
structure Sessions (st : State) : Prop where
  /-- A side is joined once at most between two resets. -/
  once : ∀ h h' hd hd', st.clients.handle h = some hd → st.clients.handle h' = some hd' → hd.ring = hd'.ring →
    hd.side = hd'.side → hd.generation = hd'.generation → h = h'
  /-- A side that was joined is not open before the next reset, whoever left it. -/
  closed : ∀ h hd, st.clients.handle h = some hd → hd.generation = (st.ring hd.ring).generation →
    slotClass ((st.ring hd.ring).owner hd.side) ≠ .available
  /-- What a live handle sees of the other side is of one handle of its own generation. -/
  peer : ∀ h hd, st.clients.handle h = some hd → st.clients.Live hd →
    (∀ w, w.side = some hd.side.not → (st.ring hd.ring).head.load w = 0) ∨
      ∃ h' hd', st.clients.handle h' = some hd' ∧ hd'.ring = hd.ring ∧ hd'.side = hd.side.not ∧
        hd'.generation = hd.generation ∧
          ∀ w, w.side = some hd.side.not → (st.ring hd.ring).head.load w ≠ 0 →
            (st.ring hd.ring).writer w = some h'
  /-- The word that says who is blocked is as it was reset, or was last written by a handle of the generation. -/
  blocked : ∀ idx, (st.ring idx).head.load .blocked ≠ 0 → ∃ h hd, (st.ring idx).writer .blocked = some h ∧
    st.clients.handle h = some hd ∧ hd.ring = idx ∧ hd.generation = (st.ring idx).generation
  /-- A ring that is open on both sides is as it was reset. -/
  reset : ∀ idx, (∀ s, slotClass ((st.ring idx).owner s) = .available) → ∀ w, (st.ring idx).head.load w = 0

theorem Paired.reset {cl : Clients} {idx : Nat} {r : RingState} {p : Option RingState.Pc} (h : Paired cl idx r p)
    (hok : RingOk cl idx r p) (hopen : ∀ s, slotClass (r.owner s) = .available) (w : HeadWord) : r.head.load w = 0 := by
  cases hw : w.side with
  | some s => exact hok.clean s w (hopen s) hw
  | none =>
    obtain rfl : w = .blocked := by cases w <;> cases hw; rfl
    by_contra hne
    -- nobody has joined in the generation, so nobody has written the word
    obtain ⟨k, hd, -, hk, hidx, hgen⟩ := h.blocked.writer hne
    have hlt := h.single.unused hd.side (hopen hd.side) k hd hk hidx rfl
    omega

private theorem Kept.sessions {st : State} (h : Kept st) (hs : Sessional st) : Sessions st where
  once k k' hd hd' hk hk' hring hside hgen := (hs hd.ring).single.once k k' hd hd' hk hk' rfl hring.symm hside hgen
  closed k hd hk hgen hopen := by
    have hlt := (hs hd.ring).single.unused _ hopen k hd hk rfl rfl
    omega
  peer k hd hk hl := by
    have hgen := ((h.ring hd.ring).live k hd hk rfl hl).2.2
    have htraffic := (h.ring hd.ring).traffic hd.side.not
    by_cases hzero : ∀ w, w.side = some hd.side.not → (st.ring hd.ring).head.load w = 0
    · exact .inl hzero
    · refine .inr ?_
      push Not at hzero
      obtain ⟨w, hw, hne⟩ := hzero
      obtain ⟨k', hd', -, hk', hring, hside, hgen'⟩ := htraffic w hw hne
      refine ⟨k', hd', hk', hring, hside, hgen'.trans hgen.symm, fun w' hw' hne' => ?_⟩
      obtain ⟨k'', hd'', hwriter, hk'', hring', hside', hgen''⟩ := htraffic w' hw' hne'
      rw [hwriter, (hs hd.ring).single.once k'' k' hd'' hd' hk'' hk' hring' hring (hside'.trans hside.symm)
        (hgen''.trans hgen'.symm)]
  blocked idx hne := (hs idx).blocked.writer hne
  reset idx hopen := (hs idx).reset (h.ring idx) hopen

/-- In a run of a server that was started on zeroed memory and any clients, in which no process id is used again while
it is tracked, the clients of a ring are paired by its resets. -/
theorem sessions_of_run {n : Nat} {cfgs : List RingConfig} {tr : List Act} {st : State}
    (h : RunWhere (step n) (fun _ st a => NotReused st a) (init cfgs) tr st) : Sessions st := by
  have hinv := h.invariant (I := fun _ st => Kept st ∧ Sessional st) ⟨kept_init cfgs, sessional_init cfgs⟩
    fun _ _ _ _ hk hG e => ⟨hk.1.step hG (Step.of_eq e), hk.2.step hk.1 (Step.of_eq e)⟩
  exact hinv.1.sessions hinv.2

/-- A client joins, writes and exits; the server brings its ring up again, and two others join it. -/
theorem sessions_of_run_again :
    ∃ st, Sessions st ∧ st.clients.handle 0 = some ⟨0, ⟨5⟩, 0, .left, false, 0, 0⟩ ∧
      st.clients.handle 1 = some ⟨1, ⟨6⟩, 0, .left, false, 1, 1⟩ ∧
        st.clients.handle 2 = some ⟨2, ⟨7⟩, 0, .right, false, 1, 1⟩ := by
  have h₀ : RunWhere (step 1) (fun _ st a => NotReused st a) (init [oneRing]) [] (init [oneRing]) := .nil
  have h₁ := h₀.snoc (a := .spawn ⟨5⟩) (fun _ _ => ⟨rfl, nofun⟩) rfl
  have h₂ := h₁.append_run ([.join 0 ⟨5⟩ 0 .left, .write 0 (.producer .left) 7, .trackClients, .inspect,
    .trackClient true, .inspect, .exit ⟨5⟩, .reapClient ⟨⟨0, 0⟩, ⟨5⟩⟩, .leave (0, .left) false, .bringUp [oneRing]] ++
      List.replicate 14 .bringUpStep)
    (run_iff_exec.2 rfl) (fun a ha _ _ c hc => by simp [hc] at ha)
  have h₃ := h₂.snoc (a := .spawn ⟨6⟩) (fun c hc => by cases hc; exact ⟨rfl, nofun⟩) rfl
  have h₄ := h₃.snoc (a := .spawn ⟨7⟩) (fun c hc => by cases hc; exact ⟨rfl, nofun⟩) rfl
  have h₅ := h₄.append_run [.join 1 ⟨6⟩ 0 .left, .join 2 ⟨7⟩ 0 .right]
    (run_iff_exec.2 rfl) (fun a ha _ _ c hc => by simp [hc] at ha)
  exact ⟨_, sessions_of_run h₅, rfl, rfl, rfl⟩

end Authority

end ShmRing
