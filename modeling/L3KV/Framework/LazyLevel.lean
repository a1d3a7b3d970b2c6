import Mathlib.Data.List.FinRange
import Mathlib.Logic.Function.Basic

/-!
# Lazily refreshed levels of a tree

A level caches one value for each node together with a flag that says the cached value may
be out of date. Refreshing recomputes the flagged nodes, clears their flags and flags their
parents in the level above. `Current` is the state in which nothing is left to recompute.
-/

namespace Framework

/-- A level of `n` cached values, each with its dirty flag. -/
@[ext] structure LazyLevel (α : Type*) (n : Nat) where
  nodes : Fin n → α
  dirty : Fin n → Bool

namespace LazyLevel

variable {α : Type*} {n m : Nat}

/-- Flag one node as out of date. -/
def mark (up : LazyLevel α m) (j : Fin m) : LazyLevel α m :=
  { up with dirty := Function.update up.dirty j true }

/-- Refresh one node if it is flagged, and flag its parent. -/
def refreshAt (fresh : Fin n → α) (parent : Fin n → Fin m)
    (s : LazyLevel α n × LazyLevel α m) (i : Fin n) : LazyLevel α n × LazyLevel α m :=
  if s.1.dirty i then
    (⟨Function.update s.1.nodes i (fresh i), Function.update s.1.dirty i false⟩,
      s.2.mark (parent i))
  else s

def refreshList (fresh : Fin n → α) (parent : Fin n → Fin m) (is : List (Fin n))
    (s : LazyLevel α n × LazyLevel α m) : LazyLevel α n × LazyLevel α m :=
  is.foldl (refreshAt fresh parent) s

def refreshAll (fresh : Fin n → α) (parent : Fin n → Fin m)
    (s : LazyLevel α n × LazyLevel α m) : LazyLevel α n × LazyLevel α m :=
  refreshList fresh parent (List.finRange n) s

private theorem refreshAt_nodes (fresh : Fin n → α) (parent : Fin n → Fin m)
    (s : LazyLevel α n × LazyLevel α m) (i j : Fin n) :
    (refreshAt fresh parent s i).1.nodes j =
      if s.1.dirty j ∧ j = i then fresh j else s.1.nodes j := by
  unfold refreshAt
  by_cases hj : j = i
  · subst hj
    split <;> simp_all
  · split <;> simp [hj]

private theorem refreshAt_dirty (fresh : Fin n → α) (parent : Fin n → Fin m)
    (s : LazyLevel α n × LazyLevel α m) (i j : Fin n) :
    (refreshAt fresh parent s i).1.dirty j = (s.1.dirty j && decide (j ≠ i)) := by
  unfold refreshAt
  by_cases hj : j = i
  · subst hj
    split <;> simp_all
  · split <;> simp [hj]

private theorem refreshAt_up_nodes (fresh : Fin n → α) (parent : Fin n → Fin m)
    (s : LazyLevel α n × LazyLevel α m) (i : Fin n) :
    (refreshAt fresh parent s i).2.nodes = s.2.nodes := by
  unfold refreshAt
  split <;> rfl

private theorem refreshAt_up_dirty (fresh : Fin n → α) (parent : Fin n → Fin m)
    (s : LazyLevel α n × LazyLevel α m) (i : Fin n) (j : Fin m) :
    (refreshAt fresh parent s i).2.dirty j =
      (s.2.dirty j || (s.1.dirty i && decide (parent i = j))) := by
  unfold refreshAt
  by_cases hj : j = parent i
  · subst hj
    split <;> simp_all [mark]
  · have hne : parent i ≠ j := fun h => hj h.symm
    split <;> simp [mark, hj, hne]

theorem refreshList_level (fresh : Fin n → α) (parent : Fin n → Fin m) (is : List (Fin n))
    (s : LazyLevel α n × LazyLevel α m) (j : Fin n) :
    (refreshList fresh parent is s).1.nodes j =
        (if s.1.dirty j ∧ j ∈ is then fresh j else s.1.nodes j) ∧
      (refreshList fresh parent is s).1.dirty j = (s.1.dirty j && decide (j ∉ is)) := by
  induction is generalizing s with
  | nil => simp [refreshList]
  | cons i is ih =>
      obtain ⟨hnodes, hdirty⟩ := ih (refreshAt fresh parent s i)
      rw [refreshAt_nodes, refreshAt_dirty] at hnodes
      rw [refreshAt_dirty] at hdirty
      refine ⟨hnodes.trans ?_, hdirty.trans ?_⟩
      · by_cases hj : j = i
        · subst hj
          simp
        · simp [hj]
      · by_cases hj : j = i <;> simp [hj]

/-- Refreshing a list of nodes leaves the values above and flags the parents of the nodes
that were flagged. -/
theorem refreshList_up (fresh : Fin n → α) (parent : Fin n → Fin m) (is : List (Fin n))
    (s : LazyLevel α n × LazyLevel α m) :
    (refreshList fresh parent is s).2.nodes = s.2.nodes ∧
      ∀ j, (refreshList fresh parent is s).2.dirty j = true ↔
        s.2.dirty j = true ∨ ∃ i ∈ is, s.1.dirty i = true ∧ parent i = j := by
  induction is generalizing s with
  | nil => simp [refreshList]
  | cons i is ih =>
      obtain ⟨hnodes, hdirty⟩ := ih (refreshAt fresh parent s i)
      refine ⟨hnodes.trans (refreshAt_up_nodes fresh parent s i), fun j => ?_⟩
      refine (hdirty j).trans ?_
      rw [refreshAt_up_dirty]
      constructor
      · rintro (h | ⟨k, hk, hd, hp⟩)
        · rcases Bool.or_eq_true_iff.mp h with h | h
          · exact Or.inl h
          · obtain ⟨hd, hp⟩ := Bool.and_eq_true_iff.mp h
            exact Or.inr ⟨i, by simp, hd, of_decide_eq_true hp⟩
        · rw [refreshAt_dirty] at hd
          exact Or.inr ⟨k, by simp [hk], (Bool.and_eq_true_iff.mp hd).1, hp⟩
      · rintro (h | ⟨k, hk, hd, hp⟩)
        · exact Or.inl (by simp [h])
        · by_cases hki : k = i
          · subst hki
            exact Or.inl (by simp [hd, hp])
          · have hmem : k ∈ is := by simpa [hki] using hk
            exact Or.inr ⟨k, hmem, by rw [refreshAt_dirty]; simp [hd, hki], hp⟩

theorem refreshAll_up_nodes (fresh : Fin n → α) (parent : Fin n → Fin m)
    (s : LazyLevel α n × LazyLevel α m) : (refreshAll fresh parent s).2.nodes = s.2.nodes :=
  (refreshList_up fresh parent (List.finRange n) s).1

/-- Every node that is not flagged has the value it should have. -/
def Coherent (lv : LazyLevel α n) (fresh : Fin n → α) : Prop :=
  ∀ i, lv.dirty i = false → lv.nodes i = fresh i

/-- Every node has the value it should have and none is flagged. -/
def Current (lv : LazyLevel α n) (fresh : Fin n → α) : Prop :=
  lv.nodes = fresh ∧ ∀ i, lv.dirty i = false

theorem Current.coherent {lv : LazyLevel α n} {fresh : Fin n → α} (h : lv.Current fresh) :
    lv.Coherent fresh := by
  intro i _
  rw [h.1]

theorem Coherent.refresh {lv : LazyLevel α n} {fresh : Fin n → α} (h : lv.Coherent fresh)
    (parent : Fin n → Fin m) (is : List (Fin n)) (up : LazyLevel α m) :
    (refreshList fresh parent is (lv, up)).1.Coherent fresh := by
  intro j hclean
  obtain ⟨hnodes, hdirty⟩ := refreshList_level fresh parent is (lv, up) j
  rw [hnodes]
  rw [hclean] at hdirty
  by_cases hd : lv.dirty j = true
  · have hmem : j ∈ is := by
      by_contra hj
      simp [hd, hj] at hdirty
    rw [if_pos ⟨hd, hmem⟩]
  · rw [if_neg (by simp [hd])]
    exact h j (by simpa using hd)

theorem Coherent.current {lv : LazyLevel α n} {fresh : Fin n → α} (h : lv.Coherent fresh)
    (hclean : ∀ i, lv.dirty i = false) : lv.Current fresh :=
  ⟨funext fun i => h i (hclean i), hclean⟩

/-- The level above stays coherent when the one below is refreshed: a parent whose value
changes had a flagged child, so it is flagged in turn. -/
theorem Coherent.refresh_up {lv : LazyLevel α n} {up : LazyLevel α m} (fresh : Fin n → α)
    (parent : Fin n → Fin m) (combine : (Fin n → α) → Fin m → α)
    (hcombine : ∀ f g j, (∀ i, parent i = j → f i = g i) → combine f j = combine g j)
    (h : up.Coherent (combine lv.nodes)) (is : List (Fin n)) :
    (refreshList fresh parent is (lv, up)).2.Coherent
      (combine (refreshList fresh parent is (lv, up)).1.nodes) := by
  intro j hclean
  obtain ⟨hnodes, hdirty⟩ := refreshList_up fresh parent is (lv, up)
  have hnot : ¬ (up.dirty j = true ∨ ∃ i ∈ is, lv.dirty i = true ∧ parent i = j) := by
    rw [← hdirty j, hclean]
    simp
  rw [not_or] at hnot
  rw [hnodes, h j (by simpa using hnot.1)]
  apply hcombine
  intro i hi
  rw [(refreshList_level fresh parent is (lv, up) i).1]
  by_cases hd : lv.dirty i = true ∧ i ∈ is
  · exact absurd ⟨i, hd.2, hd.1, hi⟩ hnot.2
  · rw [if_neg hd]

theorem Coherent.refreshAll {lv : LazyLevel α n} {up : LazyLevel α m} {fresh : Fin n → α}
    (parent : Fin n → Fin m) (combine : (Fin n → α) → Fin m → α)
    (hcombine : ∀ f g j, (∀ i, parent i = j → f i = g i) → combine f j = combine g j)
    (h : lv.Coherent fresh) (hup : up.Coherent (combine lv.nodes)) :
    (refreshAll fresh parent (lv, up)).1.Current fresh ∧
      (refreshAll fresh parent (lv, up)).2.Coherent (combine fresh) := by
  have hcurrent : (LazyLevel.refreshAll fresh parent (lv, up)).1.Current fresh := by
    refine (h.refresh parent (List.finRange n) up).current fun j => ?_
    rw [(refreshList_level fresh parent (List.finRange n) (lv, up) j).2]
    simp
  refine ⟨hcurrent, ?_⟩
  have habove := hup.refresh_up fresh parent combine hcombine (List.finRange n)
  rwa [show (refreshList fresh parent (List.finRange n) (lv, up)).1.nodes = fresh from
    hcurrent.1] at habove

end LazyLevel

end Framework
