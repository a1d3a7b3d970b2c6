import Mathlib.Data.List.Pairwise

/-!
# First match in a list of falling lengths

The first element that passes a test is a longest one, so it does not depend on the order of the
list beyond that, as long as no other element of its length passes.
-/

namespace Framework

variable {α : Type*} {len : α → Nat} {rules rules' : List α} {p : α → Bool}

def FallingBy (len : α → Nat) (rules : List α) : Prop :=
  rules.Pairwise fun r s => len s ≤ len r

/-- In a sorted list the first match comes before every other one. -/
theorem found_rel {R : α → α → Prop} (h : rules.Pairwise R) {r s : α} (hr : rules.find? p = some r)
    (hs : s ∈ rules) (hp : p s) : s = r ∨ R r s := by
  obtain ⟨-, front, back, rfl, hfront⟩ := List.find?_eq_some_iff_append.mp hr
  rcases List.mem_append.mp hs with hs | hs
  · have := hfront s hs
    simp [hp] at this
  · rcases List.mem_cons.mp hs with rfl | hs
    · exact Or.inl rfl
    · have hback := (List.pairwise_append.mp h).2.1
      exact Or.inr ((List.pairwise_cons.mp hback).1 s hs)

theorem FallingBy.le_found (h : FallingBy len rules) {r s : α} (hr : rules.find? p = some r)
    (hs : s ∈ rules) (hp : p s) : len s ≤ len r := by
  rcases found_rel h hr hs hp with rfl | hle
  · exact Nat.le_refl _
  · exact hle

/-- Another list with the same elements has the same first match. -/
theorem FallingBy.find?_same (h : FallingBy len rules) (h' : FallingBy len rules')
    (hmem : ∀ r, r ∈ rules ↔ r ∈ rules') {r : α} (hr : rules.find? p = some r)
    (hunique : ∀ s ∈ rules, p s → len s = len r → s = r) : rules'.find? p = some r := by
  have hpr : p r := List.find?_some hr
  have hmemr : r ∈ rules' := (hmem r).mp (List.mem_of_find?_eq_some hr)
  cases hs : rules'.find? p with
  | none => exact absurd hpr (List.find?_eq_none.mp hs r hmemr)
  | some s =>
      have hmems : s ∈ rules := (hmem s).mpr (List.mem_of_find?_eq_some hs)
      have hps : p s := List.find?_some hs
      have hle : len s ≤ len r := h.le_found hr hmems hps
      have hge : len r ≤ len s := h'.le_found hs hmemr hpr
      rw [hunique s hmems hps (Nat.le_antisymm hle hge)]

end Framework
