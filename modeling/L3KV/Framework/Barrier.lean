import Mathlib.Data.List.Basic

/-!
# Markers in a queue

Items are put at the end of a queue. Once a marker has been put there, only items that do not matter
are put behind it, and the marker comes to the front only past such items, nothing that matters is
left when the marker has been served.
-/

namespace Framework

variable {α : Type*} (marked free : α → Prop)

/-- Every item that matters is in front of a marker, or is one. -/
def Barrier (queue : List α) : Prop :=
  (∀ a ∈ queue, free a) ∨
    ∃ front a back, queue = front ++ a :: back ∧ marked a ∧ ∀ b ∈ back, free b

variable {marked free} {queue : List α} {a : α}

namespace Barrier

theorem mark (queue : List α) (h : marked a) : Barrier marked free (queue ++ [a]) :=
  Or.inr ⟨queue, a, [], rfl, h, by simp⟩

theorem push (h : Barrier marked free queue) (ha : free a) :
    Barrier marked free (queue ++ [a]) := by
  rcases h with hfree | ⟨front, b, back, rfl, hb, hback⟩
  · left
    simpa [or_imp, forall_and] using ⟨hfree, ha⟩
  · right
    refine ⟨front, b, back ++ [a], by simp, hb, ?_⟩
    simpa [or_imp, forall_and] using ⟨hback, ha⟩

theorem pop (h : Barrier marked free (a :: queue)) : Barrier marked free queue := by
  rcases h with hfree | ⟨front, b, back, hsplit, hb, hback⟩
  · exact Or.inl fun b hb => hfree b (List.mem_cons_of_mem _ hb)
  · cases front with
    | nil =>
        obtain ⟨rfl, rfl⟩ := List.cons.inj hsplit
        exact Or.inl hback
    | cons c front =>
        obtain ⟨rfl, rfl⟩ := List.cons.inj hsplit
        exact Or.inr ⟨front, b, back, rfl, hb, hback⟩

theorem serve {a' : α} (h : Barrier marked free (a :: queue)) (hmarked : marked a → marked a')
    (hfree : free a → free a') : Barrier marked free (a' :: queue) := by
  rcases h with hall | ⟨front, b, back, hsplit, hb, hback⟩
  · left
    intro b hb
    rcases List.mem_cons.mp hb with rfl | hb
    · exact hfree (hall a List.mem_cons_self)
    · exact hall b (List.mem_cons_of_mem _ hb)
  · right
    cases front with
    | nil =>
        obtain ⟨rfl, rfl⟩ := List.cons.inj hsplit
        exact ⟨[], a', queue, rfl, hmarked hb, hback⟩
    | cons c front =>
        obtain ⟨rfl, rfl⟩ := List.cons.inj hsplit
        exact ⟨a' :: front, b, back, rfl, hb, hback⟩

/-- An item comes to the front, and it is no marker that overtakes an item that matters. -/
theorem take {front back : List α} {a' : α} (h : Barrier marked free (front ++ a :: back))
    (hmarked : marked a → marked a') (hfree : free a → free a')
    (hfront : marked a → ∀ b ∈ front, free b) : Barrier marked free (a' :: (front ++ back)) := by
  rcases h with hall | ⟨pre, b, post, hsplit, hb, hpost⟩
  · left
    simp only [List.mem_append, List.mem_cons] at hall ⊢
    rintro c (rfl | hc | hc)
    · exact hfree (hall a (Or.inr (Or.inl rfl)))
    · exact hall c (Or.inl hc)
    · exact hall c (Or.inr (Or.inr hc))
  · right
    rcases List.append_eq_append_iff.mp hsplit with ⟨mid, rfl, hrest⟩ | ⟨mid, rfl, hrest⟩
    · cases mid with
      | nil =>
          -- The item is the marker.
          obtain ⟨rfl, rfl⟩ := List.cons.inj hrest
          refine ⟨[], a', front ++ back, rfl, hmarked hb, fun c hc => ?_⟩
          exact (List.mem_append.mp hc).elim (hfront hb c) (hpost c)
      | cons first mid =>
          obtain ⟨rfl, rfl⟩ := List.cons.inj hrest
          exact ⟨a' :: (front ++ mid), b, post, by simp, hb, hpost⟩
    · cases mid with
      | nil =>
          obtain ⟨rfl, rfl⟩ := List.cons.inj hrest
          refine ⟨[], a', pre ++ post, by simp, hmarked hb, fun c hc => ?_⟩
          exact (List.mem_append.mp hc).elim (fun hc => hfront hb c (by simpa using hc)) (hpost c)
      | cons first mid =>
          obtain ⟨rfl, rfl⟩ := List.cons.inj hrest
          refine ⟨a' :: pre, b, mid ++ back, by simp, hb, fun c hc => ?_⟩
          rcases List.mem_append.mp hc with hc | hc
          · exact hpost c (by simp [hc])
          · exact hpost c (by simp [hc])

theorem weaken {marked' : α → Prop} (h : Barrier marked free queue)
    (hmarked : ∀ a ∈ queue, marked a → marked' a) : Barrier marked' free queue := by
  rcases h with hfree | ⟨front, b, back, rfl, hb, hback⟩
  · exact Or.inl hfree
  · exact Or.inr ⟨front, b, back, rfl, hmarked b (by simp) hb, hback⟩

/-- Without a marker nothing that matters is left. -/
theorem passed (h : Barrier marked free queue) (hnone : ∀ a ∈ queue, ¬ marked a) :
    ∀ a ∈ queue, free a := by
  rcases h with hfree | ⟨front, b, back, rfl, hb, -⟩
  · exact hfree
  · exact absurd hb (hnone b (by simp))

end Barrier

end Framework
