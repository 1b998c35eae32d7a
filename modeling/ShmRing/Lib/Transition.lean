import Mathlib.Data.List.Induction

/-!
# Runs of labelled partial transition functions

A system is a function `step : σ → α → Option σ`: in a state, a label is either refused or leads to one next
state.  All nondeterminism lies in the choice of the labels.  A run is recorded with the list of its labels, the
oldest first, so that statements about what was observed are statements about that list.

`RunWhere` is a run all of whose steps meet a guard, which may look at the labels so far, at the state and at the
next label.  The rules of the library are the invariant rule for both kinds of runs and the simulation rule.
-/

namespace Transition

variable {σ τ α β : Type*}

/-- `Run step s₀ tr s`: the labels `tr` lead from `s₀` to `s`. -/
inductive Run (step : σ → α → Option σ) (s₀ : σ) : List α → σ → Prop
  | nil : Run step s₀ [] s₀
  | snoc {tr : List α} {s s' : σ} {a : α} :
      Run step s₀ tr s → step s a = some s' → Run step s₀ (tr ++ [a]) s'

/-- A run all of whose steps meet the guard `G`. -/
inductive RunWhere (step : σ → α → Option σ) (G : List α → σ → α → Prop) (s₀ : σ) : List α → σ → Prop
  | nil : RunWhere step G s₀ [] s₀
  | snoc {tr : List α} {s s' : σ} {a : α} :
      RunWhere step G s₀ tr s → G tr s a → step s a = some s' → RunWhere step G s₀ (tr ++ [a]) s'

/-- The executable form of a run. -/
def exec (step : σ → α → Option σ) (s : σ) : List α → Option σ
  | [] => some s
  | a :: tr => (step s a).bind fun s' => exec step s' tr

variable {step : σ → α → Option σ} {G H : List α → σ → α → Prop} {s₀ s s' : σ} {tr tr' : List α}

theorem exec_append (s : σ) (tr tr' : List α) :
    exec step s (tr ++ tr') = (exec step s tr).bind fun s' => exec step s' tr' := by
  induction tr generalizing s with
  | nil => rfl
  | cons a tr ih =>
    simp only [List.cons_append, exec]
    cases step s a with
    | none => rfl
    | some s' => exact ih s'

theorem run_iff_exec : Run step s₀ tr s ↔ exec step s₀ tr = some s := by
  constructor
  · intro h
    induction h with
    | nil => rfl
    | snoc _ hs ih => rw [exec_append, ih]; simp [exec, hs]
  · intro h
    induction tr using List.reverseRecOn generalizing s with
    | nil => cases h; exact Run.nil
    | append_singleton tr a ih =>
      rw [exec_append] at h
      obtain ⟨t, ht, hs⟩ := Option.bind_eq_some_iff.1 h
      refine Run.snoc (ih ht) ?_
      obtain ⟨u, hu, rfl⟩ : ∃ u, step t a = some u ∧ u = s := by simpa [exec] using hs
      exact hu

/-- The executable form of a guarded run, with the labels before it. -/
def execWhere (step : σ → α → Option σ) (G : List α → σ → α → Prop) [∀ tr s a, Decidable (G tr s a)] (tr : List α)
    (s : σ) : List α → Option σ
  | [] => some s
  | a :: tr' => if G tr s a then (step s a).bind fun s' => execWhere step G (tr ++ [a]) s' tr' else none

theorem RunWhere.exec [∀ tr s a, Decidable (G tr s a)] (h : RunWhere step G s₀ tr s)
    (h' : execWhere step G tr s tr' = some s') : RunWhere step G s₀ (tr ++ tr') s' := by
  induction tr' generalizing tr s with
  | nil =>
    rw [List.append_nil]
    exact Option.some.inj h' ▸ h
  | cons a tr' ih =>
    rw [execWhere] at h'
    split at h'
    · rename_i hG
      obtain ⟨s₁, hs, h'⟩ := Option.bind_eq_some_iff.1 h'
      rw [List.append_cons]
      exact ih (h.snoc hG hs) h'
    · cases h'

/-- A guarded run goes on with steps that the guard does not concern. -/
theorem RunWhere.append_run (h : RunWhere step G s₀ tr s) (tr' : List α) (h' : Run step s tr' s')
    (hG : ∀ a ∈ tr', ∀ tr s, G tr s a) : RunWhere step G s₀ (tr ++ tr') s' := by
  induction h' with
  | nil => rwa [List.append_nil]
  | snoc _ hs ih =>
    rw [← List.append_assoc]
    exact (ih fun a ha => hG a (List.mem_append_left _ ha)).snoc (hG _ (by simp) _ _) hs

/-- A run is guarded if the guard holds at the end of every shorter run. -/
theorem Run.where_of_prefix (h : Run step s₀ tr s)
    (hG : ∀ tr' s' a s'', Run step s₀ tr' s' → step s' a = some s'' → tr' ++ [a] <+: tr → G tr' s' a) :
    RunWhere step G s₀ tr s := by
  induction h with
  | nil => exact RunWhere.nil
  | snoc h hs ih =>
    refine (ih fun tr' s' a s'' h' hs' hp => hG tr' s' a s'' h' hs' (hp.trans (List.prefix_append _ _))).snoc ?_ hs
    exact hG _ _ _ _ h hs (List.prefix_refl _)

/-- The step that a guarded run made with a label. -/
theorem RunWhere.of_append {a : α} (h : RunWhere step G s₀ (tr ++ a :: tr') s) :
    ∃ s₁ s₂, RunWhere step G s₀ tr s₁ ∧ G tr s₁ a ∧ step s₁ a = some s₂ := by
  generalize hl : tr ++ a :: tr' = l at h
  induction h generalizing tr' with
  | nil => cases tr <;> cases hl
  | @snoc l s s' b h hG hs ih =>
    rcases List.eq_nil_or_concat tr' with rfl | ⟨tr'', c, rfl⟩
    · obtain ⟨rfl, hb⟩ := List.append_inj' hl rfl
      cases hb
      exact ⟨s, s', h, hG, hs⟩
    · rw [List.concat_eq_append, ← List.cons_append, ← List.append_assoc] at hl
      exact ih (List.append_inj' hl rfl).1

/-- The invariant rule: what holds at the start and is kept by every step holds of every run. -/
theorem Run.invariant {I : List α → σ → Prop} (h : Run step s₀ tr s) (h₀ : I [] s₀)
    (hstep : ∀ tr s a s', I tr s → step s a = some s' → I (tr ++ [a]) s') : I tr s := by
  induction h with
  | nil => exact h₀
  | snoc _ hs ih => exact hstep _ _ _ _ ih hs

/-- The invariant rule for guarded runs. -/
theorem RunWhere.invariant {I : List α → σ → Prop} (h : RunWhere step G s₀ tr s) (h₀ : I [] s₀)
    (hstep : ∀ tr s a s', I tr s → G tr s a → step s a = some s' → I (tr ++ [a]) s') : I tr s := by
  induction h with
  | nil => exact h₀
  | snoc _ hG hs ih => exact hstep _ _ _ _ ih hG hs

/-- A guarded run, without its guard. -/
theorem RunWhere.run (h : RunWhere step G s₀ tr s) : Run step s₀ tr s :=
  h.invariant (I := Run step s₀) .nil fun _ _ _ _ hr _ hs => hr.snoc hs

/-- The simulation rule.  A label of the concrete system is answered by one abstract label or by none. -/
theorem RunWhere.simulate (h : RunWhere step G s₀ tr s) (astep : τ → β → Option τ) {K : List β → τ → β → Prop} {t : τ}
    {f : α → Option β} {R : List α → σ → τ → Prop} (h₀ : R [] s₀ t)
    (hnone : ∀ tr s a s' t, R tr s t → G tr s a → step s a = some s' → f a = none → R (tr ++ [a]) s' t)
    (hsome : ∀ tr s a s' t b, R tr s t → G tr s a → step s a = some s' → f a = some b →
      ∃ t', K (tr.filterMap f) t b ∧ astep t b = some t' ∧ R (tr ++ [a]) s' t') :
    ∃ t', RunWhere astep K t (tr.filterMap f) t' ∧ R tr s t' := by
  induction h with
  | nil => exact ⟨t, RunWhere.nil, h₀⟩
  | @snoc tr s s' a _ hG hs ih =>
    obtain ⟨t, ht, hR⟩ := ih
    rw [List.filterMap_append]
    cases hf : f a with
    | none => exact ⟨t, by simpa [hf] using ht, hnone _ _ _ _ _ hR hG hs hf⟩
    | some b =>
      obtain ⟨t', hK, ht', hR'⟩ := hsome _ _ _ _ _ _ hR hG hs hf
      exact ⟨t', by simpa [hf] using ht.snoc hK ht', hR'⟩

end Transition
