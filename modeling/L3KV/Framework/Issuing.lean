import Mathlib.Data.List.Nodup
import Mathlib.Data.Set.Basic
import Mathlib.Order.Basic
import L3KV.Framework.Runs

/-!
# Issuing from a position that only rises

A counter stands at a position. A step may hand out some elements, all of them ranked above the
position before the step and not above the position after it. Then what is handed out later is
ranked above what was handed out before.
-/

namespace Framework

variable {σ ι τ P : Type*}

/-- Every allowed step raises the position, and issues between the two positions. -/
def IssuesAbove [LE P] [LT P] (step : σ → ι → Option σ) (pos : σ → P) (rank : τ → P)
    (issued : σ → ι → Option (Set τ)) (allowed : σ → ι → Prop) : Prop :=
  ∀ s event s', allowed s event → step s event = some s' →
    pos s ≤ pos s' ∧ ∀ a ∈ issued s event, ∀ t ∈ a, pos s < rank t ∧ rank t ≤ pos s'

namespace IssuesAbove

variable [Preorder P] {step : σ → ι → Option σ} {pos : σ → P} {rank : τ → P}
  {issued : σ → ι → Option (Set τ)} {allowed : σ → ι → Prop} {s s' : σ} {events : List ι}

theorem pos_le (h : IssuesAbove step pos rank issued allowed)
    (hallowed : EveryStep step s events allowed) (hrun : events.foldlM step s = some s') :
    pos s ≤ pos s' :=
  run_invariant (fun _ s' => pos s ≤ pos s') le_rfl
    (fun _ _ _ _ hle hok hstep => hle.trans (h _ _ _ hok hstep).1) hallowed hrun

theorem rank_le (h : IssuesAbove step pos rank issued allowed)
    (hallowed : EveryStep step s events allowed) (hrun : events.foldlM step s = some s')
    {a : Set τ} (ha : a ∈ collect step issued s events) {t : τ} (ht : t ∈ a) : rank t ≤ pos s' := by
  induction events using List.reverseRec generalizing s' with
  | nil => cases ha
  | append_singleton events event ih =>
      obtain ⟨s₁, hfront, hlast⟩ := foldlM_concat.mp hrun
      obtain ⟨hle, hissued⟩ := h _ _ _ (hallowed.last hfront) hlast
      rw [collect_concat _ hfront, List.mem_append] at ha
      rcases ha with ha | ha
      · exact (ih hallowed.front hfront ha).trans hle
      · exact (hissued a (by simpa using ha) t ht).2

/-- Of two things that a run issues, the later one is above the earlier one. -/
theorem pairwise (h : IssuesAbove step pos rank issued allowed)
    (hallowed : EveryStep step s events allowed) (hrun : events.foldlM step s = some s') :
    (collect step issued s events).Pairwise fun a b => ∀ t ∈ a, ∀ t' ∈ b, rank t < rank t' := by
  induction events using List.reverseRec generalizing s' with
  | nil => exact List.Pairwise.nil
  | append_singleton events event ih =>
      obtain ⟨s₁, hfront, hlast⟩ := foldlM_concat.mp hrun
      rw [collect_concat _ hfront, List.pairwise_append]
      refine ⟨ih hallowed.front hfront, ?_, ?_⟩
      · cases issued s₁ event with
        | none => exact List.Pairwise.nil
        | some a => exact List.pairwise_singleton _ a
      · intro a ha b hb t ht t' ht'
        have hbelow := h.rank_le hallowed.front hfront ha ht
        have habove := (h _ _ _ (hallowed.last hfront) hlast).2 b (by simpa using hb) t' ht'
        exact hbelow.trans_lt habove.1

end IssuesAbove

/-- Elements granted to several holders: what was given out already, and what each holder may still
give out. -/
structure Leased {κ : Type*} [LE P] (rank : τ → P) (pos : P) (held : κ → Set τ)
    (given : List τ) : Prop where
  nodup : given.Nodup
  given_le : ∀ t ∈ given, rank t ≤ pos
  held_le : ∀ i, ∀ t ∈ held i, rank t ≤ pos
  unused : ∀ i, ∀ t ∈ held i, t ∉ given
  apart : ∀ i j t, t ∈ held i → t ∈ held j → i = j

namespace Leased

variable {κ : Type*} [Preorder P] {rank : τ → P} {p p' : P} {held held' : κ → Set τ} {given : List τ}

theorem shrink (h : Leased rank p held given) (hpos : p ≤ p') (hheld : ∀ i, held' i ⊆ held i) :
    Leased rank p' held' given where
  nodup := h.nodup
  given_le t ht := (h.given_le t ht).trans hpos
  held_le i t ht := (h.held_le i t (hheld i ht)).trans hpos
  unused i t ht := h.unused i t (hheld i ht)
  apart i j t hi hj := h.apart i j t (hheld i hi) (hheld j hj)

private theorem nodup_concat {t : τ} (h : given.Nodup) (ht : t ∉ given) : (given ++ [t]).Nodup := by
  rw [← List.concat_eq_append]
  exact h.concat ht

theorem give (h : Leased rank p held given) {i : κ} {t : τ} (ht : t ∈ held i)
    (hheld : ∀ j, ∀ u ∈ held' j, u ∈ held j ∧ u ≠ t) : Leased rank p held' (given ++ [t]) where
  nodup := nodup_concat h.nodup (h.unused i t ht)
  given_le u hu := by
    rcases List.mem_append.mp hu with hu | hu
    · exact h.given_le u hu
    · rw [List.mem_singleton.mp hu]
      exact h.held_le i t ht
  held_le j u hu := h.held_le j u (hheld j u hu).1
  unused j u hu hmem := by
    rcases List.mem_append.mp hmem with hold | hnew
    · exact h.unused j u (hheld j u hu).1 hold
    · exact (hheld j u hu).2 (List.mem_singleton.mp hnew)
  apart j k u hj hk := h.apart j k u (hheld j u hj).1 (hheld k u hk).1

/-- An element above the position is given out. A holder may be granted further ones. -/
theorem grant (h : Leased rank p held given) (i : κ) {t : τ} (hlow : p < rank t)
    (hhigh : rank t ≤ p')
    (hheld : ∀ j, ∀ u ∈ held' j, u ∈ held j ∨ j = i ∧ p < rank u ∧ rank u ≤ p' ∧ u ≠ t) :
    Leased rank p' held' (given ++ [t]) := by
  have hpos : p ≤ p' := hlow.le.trans hhigh
  have hfresh {u : τ} (hu : p < rank u) : u ∉ given := fun hmem => (h.given_le u hmem).not_gt hu
  have hunheld {u : τ} (hu : p < rank u) (j : κ) : u ∉ held j := fun hmem =>
    (h.held_le j u hmem).not_gt hu
  refine ⟨nodup_concat h.nodup (hfresh hlow), ?_, ?_, ?_, ?_⟩
  · intro u hu
    rcases List.mem_append.mp hu with hu | hu
    · exact (h.given_le u hu).trans hpos
    · rw [List.mem_singleton.mp hu]
      exact hhigh
  · intro j u hu
    rcases hheld j u hu with hold | ⟨-, -, hle, -⟩
    · exact (h.held_le j u hold).trans hpos
    · exact hle
  · intro j u hu hmem
    rcases hheld j u hu with hold | ⟨-, hlt, -, hne⟩
    · rcases List.mem_append.mp hmem with hmem | hmem
      · exact h.unused j u hold hmem
      · rw [List.mem_singleton.mp hmem] at hold
        exact hunheld hlow j hold
    · rcases List.mem_append.mp hmem with hmem | hmem
      · exact hfresh hlt hmem
      · exact hne (List.mem_singleton.mp hmem)
  · intro j k u hj hk
    rcases hheld j u hj with hj | ⟨rfl, hlt, -⟩
    · rcases hheld k u hk with hk | ⟨rfl, hlt, -⟩
      · exact h.apart j k u hj hk
      · exact (hunheld hlt j hj).elim
    · rcases hheld k u hk with hk | ⟨rfl, -⟩
      · exact (hunheld hlt k hk).elim
      · rfl

end Leased

end Framework
