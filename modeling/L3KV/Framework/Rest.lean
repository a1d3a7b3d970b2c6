import Mathlib.Algebra.BigOperators.Group.Finset.Basic
import L3KV.Framework.Runs

/-!
# Systems that come to rest

Some steps of a system lower a measure. A run that makes only such steps is no longer than the
measure says, and if one of them is possible in every state that is not at rest, it can go on until
the system rests. A measure is often a sum over the parts of a state, of which a step changes one.
-/

namespace Framework

variable {σ ι : Type*} {step : σ → ι → Option σ} {Inv : σ → Prop} {P : ι → Prop} {μ : σ → Nat}

/-- What a run has used up and what is left of the measure. -/
theorem run_length_le
    (hlower : ∀ s event s', Inv s → P event → step s event = some s' → Inv s' ∧ μ s' < μ s)
    {s s' : σ} (hinv : Inv s) {events : List ι} (hP : ∀ event ∈ events, P event)
    (hrun : events.foldlM step s = some s') : Inv s' ∧ events.length + μ s' ≤ μ s := by
  induction events generalizing s with
  | nil =>
      cases hrun
      exact ⟨hinv, by simp⟩
  | cons event events ih =>
      rw [List.foldlM_cons] at hrun
      obtain ⟨s₁, hfirst, hrun⟩ := Option.bind_eq_some_iff.mp hrun
      obtain ⟨hinv₁, hlt⟩ := hlower s event s₁ hinv (hP event (by simp)) hfirst
      obtain ⟨hinv', hle⟩ := ih hinv₁ (fun e he => hP e (by simp [he])) hrun
      refine ⟨hinv', ?_⟩
      rw [List.length_cons]
      omega

/-- A run to a state of rest. -/
theorem exists_run_rest {Rest : σ → Prop}
    (hlower : ∀ s event s', Inv s → P event → step s event = some s' → Inv s' ∧ μ s' < μ s)
    (hgo : ∀ s, Inv s → ¬ Rest s → ∃ event s', P event ∧ step s event = some s')
    {s : σ} (hinv : Inv s) :
    ∃ (events : List ι) (s' : σ), (∀ event ∈ events, P event) ∧
      events.foldlM step s = some s' ∧ Rest s' := by
  -- By strong induction on what is left of the measure.
  generalize hn : μ s = n
  induction n using Nat.strongRecOn generalizing s with
  | ind n ih =>
      by_cases hrest : Rest s
      · exact ⟨[], s, by simp, rfl, hrest⟩
      · obtain ⟨event, s₁, hevent, hfirst⟩ := hgo s hinv hrest
        obtain ⟨hinv₁, hlt⟩ := hlower s event s₁ hinv hevent hfirst
        obtain ⟨events, s', hP, hrun, hrest'⟩ := ih (μ s₁) (hn ▸ hlt) hinv₁ rfl
        refine ⟨event :: events, s', ?_, ?_, hrest'⟩
        · simpa using ⟨hevent, hP⟩
        · rw [List.foldlM_cons, hfirst]
          exact hrun

theorem sum_update_add {α β : Type*} [DecidableEq α] (s : Finset α) (cost : β → Nat) (f : α → β)
    {a : α} (ha : a ∈ s) (b : β) :
    ∑ i ∈ s, cost (Function.update f a b i) + cost (f a) = ∑ i ∈ s, cost (f i) + cost b := by
  have hnew := Finset.add_sum_erase s (fun i => cost (Function.update f a b i)) ha
  have hold := Finset.add_sum_erase s (fun i => cost (f i)) ha
  have hrest : ∑ i ∈ s.erase a, cost (Function.update f a b i) = ∑ i ∈ s.erase a, cost (f i) := by
    apply Finset.sum_congr rfl
    intro i hi
    rw [Function.update_of_ne (Finset.ne_of_mem_erase hi)]
  rw [Function.update_self] at hnew
  omega

end Framework
