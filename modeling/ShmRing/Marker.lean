import ShmRing.Transfer

/-!
# The end marker

The positions that the output announces strictly go up, except for the last one, which is announced a second time when
the stream has ended.  So the input sees a position twice if and only if it is the end (`Marked.take`).
-/

namespace ShmRing

open Machine Bytes Transition

namespace ByteStream

/-- Positions that strictly go up, from one to the last of them. -/
def Climbs (lo : Nat) : List Nat → Nat → Prop
  | [], hi => lo = hi
  | n :: l, hi => lo < n ∧ Climbs n l hi

private theorem Climbs.snoc {lo hi n : Nat} {l : List Nat} (h : Climbs lo l hi) (hlt : hi < n) :
    Climbs lo (l ++ [n]) n := by
  induction l generalizing lo with
  | nil =>
    obtain rfl : lo = hi := h
    exact ⟨hlt, rfl⟩
  | cons k l ih => exact ⟨h.1, ih h.2⟩

/-- The positions that a receiver with `av` has not taken, up to the last one that is announced, and whether that is
announced as the end. -/
inductive Marked (av : Available) : List Nat → Nat → Bool → Prop
  | going {l : List Nat} {last : Nat} (heof : av.eof = false) (h : Climbs av.head.toNat l last) : Marked av l last false
  | announced {l : List Nat} {last : Nat} (heof : av.eof = false) (h : Climbs av.head.toNat l last) :
      Marked av (l ++ [last]) last true
  | received (heof : av.eof = true) : Marked av [] av.head.toNat true

namespace Marked

variable {av : Available} {l : List Nat} {last n : Nat} {e : Bool} {item : UInt64}

private theorem write_next (h : Marked av l last false) (hlt : last < n) : Marked av (l ++ [n]) n false := by
  cases h with
  | going heof h => exact .going heof (h.snoc hlt)

private theorem write_end (h : Marked av l last false) : Marked av (l ++ [last]) last true := by
  cases h with
  | going heof h => exact .announced heof h

/-- The next position is larger, and it is the same one at the end only. -/
private theorem take (h : Marked av (item.toNat :: l) last e) :
    Marked ⟨item, av.eof || av.head == item⟩ l last e := by
  have hne : av.head.toNat < item.toNat → (av.head == item) = false := by
    intro hlt
    refine beq_eq_false_iff_ne.2 fun heq => ?_
    rw [heq] at hlt
    exact Nat.lt_irrefl _ hlt
  generalize hk : item.toNat :: l = k at h
  cases h with
  | going heof h =>
    subst hk
    exact .going (by rw [heof, hne h.1]; rfl) h.2
  | @announced l' _ heof h =>
    cases l' with
    | nil =>
      obtain ⟨hitem, rfl⟩ := List.cons.inj hk
      have hhead : av.head = item := UInt64.toNat_inj.1 (h.trans hitem.symm)
      rw [← hitem]
      exact .received (by rw [hhead, beq_self_eq_true, Bool.or_true])
    | cons k' l' =>
      obtain ⟨rfl, rfl⟩ := List.cons.inj hk
      exact .announced (by rw [heof, hne h.1]; rfl) h.2
  | received heof => cases hk

/-- Once the end is received, nothing is left to take. -/
private theorem of_eof (h : Marked av l last e) (heof : av.eof = true) : l = [] ∧ last = av.head.toNat ∧ e = true := by
  cases h with
  | going h' | announced h' => rw [heof] at h'; cases h'
  | received => exact ⟨rfl, rfl, rfl⟩

end Marked

/-! ### The announcement under way -/

section

variable {ρ : Type} {t t' : Task ρ} {c : Chan Entry}

/-- What a task has written to its ring and not published. -/
structure Phase (t : Task ρ) (c : Chan Entry) : Prop where
  call : t.pc ≠ .announcing .written → c.call = []
  unsynced : t.pc ≠ .announcing .pushed → t.pc ≠ .announcing .loaded → c.unsynced = []

namespace Phase

private theorem empty : Phase t Chan.empty := ⟨fun _ => rfl, fun _ _ => rfl⟩

/-- A task that is at no announcement. -/
private theorem move (h : Phase t c) (hpc : ∀ p, t.pc ≠ .announcing p) : Phase t' c :=
  ⟨fun _ => h.call (hpc _), fun _ _ => h.unsynced (hpc _) (hpc _)⟩

private theorem announce (h : Phase t c) {a : Duplex.ProduceAct Entry} (ht : t.announce a = some t') :
    Phase t' (c.applyOpt (Duplex.produceAct a)) := by
  obtain ⟨pc, hpc, rfl⟩ := Option.map_eq_some_iff.1 ht
  cases a with
  | unwind => cases hpc
  | pushed count =>
    simp only [announcePc] at hpc
    split at hpc <;> cases hpc
    cases count <;> exact ⟨fun _ => rfl, fun hne => absurd rfl hne⟩
  | write slot data =>
    simp only [announcePc] at hpc
    split at hpc <;> cases hpc
    rename_i hdrawn
    refine ⟨fun hne => absurd rfl hne, fun _ _ => h.unsynced ?_ ?_⟩ <;> rw [hdrawn.1] <;> decide
  | syncStore =>
    simp only [announcePc] at hpc
    split at hpc <;> cases hpc
    rename_i hloaded
    refine ⟨fun _ => h.call ?_, fun _ _ => rfl⟩
    rw [hloaded]
    decide
  | syncLoad =>
    simp only [announcePc] at hpc
    split at hpc <;> cases hpc
    rename_i hpushed
    refine ⟨fun _ => h.call ?_, fun _ hne => absurd rfl hne⟩
    rw [hpushed]
    decide
  | drop => exact ⟨fun _ => rfl, fun _ _ => rfl⟩
  | new | pushMany =>
    simp only [announcePc] at hpc
    split at hpc <;> cases hpc
    rename_i hpc
    refine ⟨fun _ => h.call ?_, fun _ _ => h.unsynced ?_ ?_⟩ <;> rw [hpc] <;> decide
  | draw data =>
    simp only [announcePc] at hpc
    split at hpc <;> cases hpc
    rename_i hpc
    refine ⟨fun _ => h.call ?_, fun _ _ => h.unsynced ?_ ?_⟩ <;> rw [hpc.1] <;> decide

/-- The receiver takes nothing back. -/
private theorem consume (h : Phase t c) (a : Duplex.ConsumeAct Entry) : Phase t (c.applyOpt (Duplex.consumeAct a)) := by
  cases a <;> exact ⟨h.call, h.unsynced⟩

/-- An announcement adds to what is to be taken by its write only. -/
private theorem pending_announce (h : Phase t c) {a : Duplex.ProduceAct Entry} (ht : t.announce a = some t')
    (hpc' : t'.pc ≠ .announcing .written) : (c.applyOpt (Duplex.produceAct a)).pending = c.pending := by
  obtain ⟨pc, hpc, rfl⟩ := Option.map_eq_some_iff.1 ht
  cases a with
  | write slot data =>
    simp only [announcePc] at hpc
    split at hpc <;> cases hpc
    exact absurd rfl hpc'
  | unwind => cases hpc
  | drop =>
    simp only [announcePc] at hpc
    split at hpc <;> cases hpc
    rename_i hstored
    refine Chan.pending_rollback (h.call ?_) (h.unsynced ?_ ?_) <;> rw [hstored] <;> decide
  | pushed count => exact c.pending_commit
  | syncStore => exact c.pending_publish
  | _ => rfl

end Phase

/-- The last position that a task has written to its ring. -/
def Task.last (t : Task ρ) : UInt64 := if t.pc = .announcing .written then t.sequence else t.released

private theorem Task.last_of_ne (h : t.pc ≠ .announcing .written) : t.last = t.released := if_neg h

end

/-! ### The output at the end -/

/-- Before the entry is written. -/
def AnnouncePc.before : AnnouncePc → Bool
  | start | opened | pushing | drawn => true
  | _ => false

/-- What the output has told a receiver with `av` of its positions and of the end: it announces the end once, behind
all data, and nothing else after it. -/
structure Ending (o : OutputRing) (c : Chan Entry) (av : Available) (e : Bool) : Prop where
  marked : Marked av (c.pending.map position) o.task.last.toNat e
  phase : Phase o.task c
  released_le : o.task.released.toNat ≤ o.task.sequence.toNat
  before : ∀ p, o.task.pc = .announcing p → p.before = true →
    o.task.sequence ≠ o.task.released ∨ o.pendingEof ≠ o.sentEof
  written : o.task.pc = .announcing .written → e = false → o.task.sequence ≠ o.task.released
  sent : o.sentEof = true → e = true
  ended : e = true → o.pendingEof = true ∧ o.task.sequence = o.task.released ∧
    (o.task.pc ≠ .announcing .written → o.sentEof = true)

namespace Ending

variable {x : Ctx} {o o' : OutputRing} {c : Chan Entry} {av : Available} {e : Bool}

/-- Who is about to write has not announced the end. -/
private theorem not_ended (h : Ending o c av e) {p : AnnouncePc} (hpc : o.task.pc = .announcing p)
    (hp : p.before = true) : e = false := by
  by_contra he
  obtain ⟨hpending, hseq, hsent⟩ := h.ended (eq_true_of_ne_false he)
  have hne : o.task.pc ≠ .announcing .written := by
    rw [hpc]
    rintro ⟨⟩
    cases hp
  rcases h.before p hpc hp with hs | hs
  · exact hs hseq
  · exact hs (hpending.trans (hsent hne).symm)

/-- The position is written, or the end if it is the last one again. -/
private theorem write (h : Ending o c av e) (hread : c.read ≤ c.published.length) {slot : Nat} {data : Entry}
    (ho : o.announce (.write slot data) = some o') : ∃ e', Ending o' (c.apply (.write data)) av e' := by
  obtain ⟨t, ht, rfl⟩ := Option.map_eq_some_iff.1 ho
  have hphase := h.phase.announce ht
  have hdata := Task.announce_write ht
  obtain ⟨pc, hpc, rfl⟩ := Option.map_eq_some_iff.1 ht
  simp only [announcePc] at hpc
  split at hpc <;> cases hpc
  rename_i hdrawn
  have he := h.not_ended hdrawn.1 rfl
  subst he
  have hmarked := h.marked
  rw [Task.last_of_ne (by rw [hdrawn.1]; decide)] at hmarked
  have hpending : (c.apply (.write data)).pending.map position = c.pending.map position ++ [o.task.sequence.toNat] := by
    rw [Chan.pending_write hread, List.map_append, List.map_singleton, hdata]
  by_cases hseq : o.task.sequence = o.task.released
  · have hsent : o.sentEof = false := by
      by_contra hs
      cases h.sent (eq_true_of_ne_false hs)
    have hpendingEof : o.pendingEof = true := by
      rcases h.before _ hdrawn.1 rfl with hs | hs
      · exact absurd hseq hs
      · rw [hsent] at hs
        exact eq_true_of_ne_false hs
    refine ⟨true, ?_, hphase, h.released_le, ?_, fun _ he => (by cases he), fun _ => rfl,
      fun _ => ⟨hpendingEof, hseq, fun hne => ?_⟩⟩
    · rw [hpending, Task.last, if_pos rfl, hseq]
      exact hmarked.write_end
    · rintro p ⟨⟩ ⟨⟩
    · exact absurd rfl hne
  · have hlt : o.task.released.toNat < o.task.sequence.toNat :=
      Nat.lt_of_le_of_ne h.released_le fun heq => hseq (UInt64.toNat_inj.1 heq.symm)
    refine ⟨false, ?_, hphase, h.released_le, ?_, fun _ _ => hseq, h.sent, fun he => by cases he⟩
    · rw [hpending, Task.last, if_pos rfl]
      exact hmarked.write_next hlt
    · rintro p ⟨⟩ ⟨⟩

/-- What was written is pushed. -/
private theorem pushed (h : Ending o c av e) {count : Nat} (ho : o.announce (.pushed count) = some o') :
    Ending o' (c.apply .commit) av e := by
  obtain ⟨t, ht, rfl⟩ := Option.map_eq_some_iff.1 ho
  have hphase := h.phase.announce ht
  have hmarked := h.marked
  rw [← c.pending_commit] at hmarked
  obtain ⟨pc, hpc, rfl⟩ := Option.map_eq_some_iff.1 ht
  simp only [announcePc] at hpc
  split at hpc <;> cases hpc
  rename_i hcount
  rcases hcount with ⟨hpushing, rfl⟩ | ⟨hwritten, rfl⟩
  · have he := h.not_ended hpushing rfl
    subst he
    rw [Task.last_of_ne (by rw [hpushing]; decide)] at hmarked
    refine ⟨hmarked, hphase, h.released_le, ?_, fun hp => (by cases hp), h.sent, fun he => by cases he⟩
    rintro p ⟨⟩ ⟨⟩
  · rw [Task.last, if_pos hwritten] at hmarked
    by_cases hseq : o.task.sequence = o.task.released
    · have he : e = true := by
        by_contra he
        exact h.written hwritten (eq_false_of_ne_true he) hseq
      simp only [hseq, ne_eq, not_true, if_false]
      rw [hseq] at hmarked
      refine ⟨hmarked, ?_, Nat.le_refl _, ?_, fun hp => (by cases hp), fun _ => he,
        fun he => ⟨(h.ended he).1, rfl, fun _ => rfl⟩⟩
      · rw [← hseq]
        exact ⟨hphase.call, hphase.unsynced⟩
      · rintro p ⟨⟩ ⟨⟩
    · have he : e = false := by
        by_contra he
        exact hseq (h.ended (eq_true_of_ne_false he)).2.1
      subst he
      simp only [ne_eq, hseq, not_false_eq_true, if_true]
      refine ⟨hmarked, hphase, Nat.le_refl _, ?_, fun hp => (by cases hp), h.sent, fun he => by cases he⟩
      rintro p ⟨⟩ ⟨⟩

/-- The task moves on with its announcement. -/
private theorem move (h : Ending o c av e) (pc : Pc) {c' : Chan Entry} (hpending : c'.pending = c.pending)
    (hphase : Phase { o.task with pc } c') (hwritten : o.task.pc ≠ .announcing .written)
    (hpc : pc ≠ .announcing .written) (hbefore : ∀ p, pc = .announcing p → p.before = true →
      o.task.sequence ≠ o.task.released ∨ o.pendingEof ≠ o.sentEof) :
    Ending { o with task := { o.task with pc } } c' av e where
  marked := by
    have hmarked := h.marked
    rw [Task.last_of_ne hwritten] at hmarked
    rw [hpending, Task.last_of_ne hpc]
    exact hmarked
  phase := hphase
  released_le := h.released_le
  before := hbefore
  written hpc' := absurd hpc' hpc
  sent := h.sent
  ended he := ⟨(h.ended he).1, (h.ended he).2.1, fun _ => (h.ended he).2.2 hwritten⟩

/-- The announcements of the output. -/
theorem announce (h : Ending o c av e) (hread : c.read ≤ c.published.length) {a : Duplex.ProduceAct Entry}
    (ho : o.announce a = some o') : ∃ e', Ending o' (c.applyOpt (Duplex.produceAct a)) av e' := by
  cases a with
  | write slot data => exact h.write hread ho
  | pushed count => exact ⟨e, h.pushed ho⟩
  | unwind =>
    obtain ⟨t, ht, -⟩ := Option.map_eq_some_iff.1 ho
    cases ht
  | draw data =>
    obtain ⟨t, ht, rfl⟩ := Option.map_eq_some_iff.1 ho
    have hphase := h.phase.announce ht
    obtain ⟨pc, hpc, rfl⟩ := Option.map_eq_some_iff.1 ht
    simp only [announcePc] at hpc
    split at hpc <;> cases hpc
    have hpending := h.phase.pending_announce ht (by dsimp only; decide)
    rename_i hpushing
    exact ⟨e, h.move _ hpending hphase (by rw [hpushing.1]; decide) (by decide) fun p _ _ => h.before _ hpushing.1 rfl⟩
  | new | pushMany =>
    obtain ⟨t, ht, rfl⟩ := Option.map_eq_some_iff.1 ho
    have hphase := h.phase.announce ht
    obtain ⟨pc, hpc, rfl⟩ := Option.map_eq_some_iff.1 ht
    simp only [announcePc] at hpc
    split at hpc <;> cases hpc
    have hpending := h.phase.pending_announce ht (by dsimp only; decide)
    rename_i hstart
    exact ⟨e, h.move _ hpending hphase (by rw [hstart]; decide) (by decide) fun p _ _ => h.before _ hstart rfl⟩
  | syncLoad | syncStore | drop =>
    obtain ⟨t, ht, rfl⟩ := Option.map_eq_some_iff.1 ho
    have hphase := h.phase.announce ht
    obtain ⟨pc, hpc, rfl⟩ := Option.map_eq_some_iff.1 ht
    simp only [announcePc] at hpc
    split at hpc <;> cases hpc
    have hpending := h.phase.pending_announce ht (by dsimp only; decide)
    rename_i hbehind
    refine ⟨e, h.move _ hpending hphase (by rw [hbehind]; decide) (by decide) ?_⟩
    rintro p ⟨⟩ ⟨⟩

/-- The output goes on, at no announcement. -/
theorem idle (h : Ending o c av e) (hpc : ∀ p, o.task.pc ≠ .announcing p) (hpc' : ∀ p, o'.task.pc ≠ .announcing p)
    (hreleased : o'.task.released = o.task.released) (hsent : o'.sentEof = o.sentEof)
    (hle : o.task.sequence.toNat ≤ o'.task.sequence.toNat)
    (hended : o.pendingEof = true → o'.pendingEof = true ∧ o'.task.sequence = o.task.sequence) :
    Ending o' c av e where
  marked := by
    rw [Task.last_of_ne (hpc' _), hreleased, ← Task.last_of_ne (hpc _)]
    exact h.marked
  phase := h.phase.move hpc
  released_le := by
    rw [hreleased]
    exact Nat.le_trans h.released_le hle
  before p hp := absurd hp (hpc' p)
  written hp := absurd hp (hpc' _)
  sent := by
    rw [hsent]
    exact h.sent
  ended he := by
    obtain ⟨hpending, hseq, hs⟩ := h.ended he
    obtain ⟨hpending', hseq'⟩ := hended hpending
    refine ⟨hpending', ?_, fun _ => ?_⟩
    · rw [hseq', hreleased, hseq]
    · rw [hsent]
      exact hs (hpc _)

/-- What is announced next. -/
theorem proceed (h : Ending o c av e) (hpc : ∀ p, o.task.pc ≠ .announcing p) : Ending o.proceed c av e := by
  unfold OutputRing.proceed
  split
  · rename_i hcond
    exact h.move (.announcing .start) rfl (h.phase.move hpc) (hpc _) (by decide) fun _ _ _ => hcond
  · exact h.move .settled rfl (h.phase.move hpc) (hpc _) (by decide) fun p hp => by cases hp

/-- A task without a handle has nothing under way. -/
theorem abort (h : Ending o c av e) (hpc : o.task.pc = .ready ∨ o.task.pc = .announcing .start) (f : Fault) :
    Ending { o with task := { o.task with pc := .aborted f } } c av e := by
  have hwritten : o.task.pc ≠ .announcing .written := by rcases hpc with hpc | hpc <;> rw [hpc] <;> decide
  refine h.move (.aborted f) rfl ⟨fun _ => h.phase.call hwritten, fun _ _ => h.phase.unsynced ?_ ?_⟩ hwritten
    nofun (fun p hp => by cases hp) <;> rcases hpc with hpc | hpc <;> rw [hpc] <;> decide

/-- The receiver takes a position. -/
theorem take (h : Ending o c av e) {cap : Nat} {data : Entry} (ha : Chan.Allowed cap c (.take data)) :
    Ending o (c.apply (.take data)) ⟨fromLeBytes data, av.eof || av.head == fromLeBytes data⟩ e where
  marked := by
    have hmarked := h.marked
    rw [Chan.pending_take ha, List.map_cons] at hmarked
    exact hmarked.take
  phase := h.phase.consume (.next data)
  released_le := h.released_le
  before := h.before
  written := h.written
  sent := h.sent
  ended := h.ended

/-- The receiver moves on. -/
theorem consume (h : Ending o c av e) {a : Duplex.ConsumeAct Entry} (hnext : ∀ data, a ≠ .next data)
    (hdrop : a = .drop → c.read = c.released) : Ending o (c.applyOpt (Duplex.consumeAct a)) av e where
  marked := by
    have hpending : (c.applyOpt (Duplex.consumeAct a)).pending = c.pending := by
      cases a with
      | next data => exact absurd rfl (hnext data)
      | drop => exact Chan.pending_rewind (hdrop rfl)
      | syncStore => exact c.pending_release
      | _ => rfl
    rw [hpending]
    exact h.marked
  phase := h.phase.consume a
  released_le := h.released_le
  before := h.before
  written := h.written
  sent := h.sent
  ended := h.ended

/-- A receiver that has the end has all positions. -/
theorem of_eof (h : Ending o c av e) (heof : av.eof = true) :
    o.pendingEof = true ∧ o.task.sequence = av.head ∧ c.pending = [] := by
  obtain ⟨hnil, hlast, he⟩ := h.marked.of_eof heof
  obtain ⟨hpending, hseq, -⟩ := h.ended he
  refine ⟨hpending, UInt64.toNat_inj.1 ?_, List.map_eq_nil_iff.1 hnil⟩
  rw [← hlast, Task.last]
  split
  · rfl
  · rw [hseq]

theorem new (x : Ctx) : Ending (.new x) Chan.empty ⟨0, false⟩ false where
  marked := .going rfl rfl
  phase := Phase.empty
  released_le := Nat.le_refl _
  before := nofun
  written := nofun
  sent := nofun
  ended := nofun

end Ending

end ByteStream

end ShmRing
