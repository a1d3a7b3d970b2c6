import Mathlib.Order.Lattice

/-!
# Last writer wins

A register keeps the entry with the greatest stamp it was offered. Stamps come from a linear
order; an entry at or below the floor is never taken.
-/

namespace Framework

variable {α τ : Type*} [LinearOrder τ]

/-- The stamp of a register: the floor while it is empty. -/
def registerStamp (stamp : α → τ) (floor : τ) (r : Option α) : τ := r.elim floor stamp

def mergeInto (stamp : α → τ) (floor : τ) (r : Option α) (a : α) : Option α :=
  if registerStamp stamp floor r < stamp a then some a else r

/-- Offer the entries of a list in order. -/
def mergeAll (stamp : α → τ) (floor : τ) (r : Option α) (as : List α) : Option α :=
  as.foldl (mergeInto stamp floor) r

theorem registerStamp_mergeInto (stamp : α → τ) (floor : τ) (r : Option α) (a : α) :
    registerStamp stamp floor (mergeInto stamp floor r a) =
      max (registerStamp stamp floor r) (stamp a) := by
  unfold mergeInto
  split
  · rename_i hlt
    rw [max_eq_right hlt.le]
    rfl
  · rename_i hge
    rw [max_eq_left (not_lt.mp hge)]

private theorem registerStamp_le_mergeAll (stamp : α → τ) (floor : τ) (r : Option α) (as : List α) :
    registerStamp stamp floor r ≤ registerStamp stamp floor (mergeAll stamp floor r as) := by
  induction as generalizing r with
  | nil => exact le_refl _
  | cons a as ih =>
      have hstep : registerStamp stamp floor r ≤
          registerStamp stamp floor (mergeInto stamp floor r a) := by
        rw [registerStamp_mergeInto]
        exact le_max_left _ _
      exact le_trans hstep (ih _)

private theorem stamp_le_mergeAll (stamp : α → τ) (floor : τ) (r : Option α) {as : List α} {a : α}
    (ha : a ∈ as) : stamp a ≤ registerStamp stamp floor (mergeAll stamp floor r as) := by
  induction as generalizing r with
  | nil => simp at ha
  | cons b as ih =>
      rcases List.mem_cons.mp ha with rfl | ha
      · have hstep : stamp a ≤ registerStamp stamp floor (mergeInto stamp floor r a) := by
          rw [registerStamp_mergeInto]
          exact le_max_right _ _
        exact le_trans hstep (registerStamp_le_mergeAll stamp floor _ as)
      · exact ih _ ha

private theorem mergeAll_source (stamp : α → τ) (floor : τ) (r : Option α) (as : List α)
    (hr : ∀ a ∈ r, floor < stamp a) :
    mergeAll stamp floor r as = r ∨
      ∃ a ∈ as, mergeAll stamp floor r as = some a ∧ floor < stamp a := by
  induction as generalizing r with
  | nil => exact Or.inl rfl
  | cons a as ih =>
      by_cases hlt : registerStamp stamp floor r < stamp a
      · have hfloor : floor < stamp a := by
          cases r with
          | none => exact hlt
          | some b => exact lt_trans (hr b rfl) hlt
        have hstep : mergeAll stamp floor r (a :: as) = mergeAll stamp floor (some a) as := by
          simp [mergeAll, mergeInto, hlt]
        have hsome : ∀ b ∈ some a, floor < stamp b := by
          intro b hb
          cases hb
          exact hfloor
        rw [hstep]
        rcases ih (some a) hsome with h | ⟨b, hb, h⟩
        · exact Or.inr ⟨a, by simp, h, hfloor⟩
        · exact Or.inr ⟨b, by simp [hb], h⟩
      · have hstep : mergeAll stamp floor r (a :: as) = mergeAll stamp floor r as := by
          simp [mergeAll, mergeInto, hlt]
        rw [hstep]
        rcases ih r hr with h | ⟨b, hb, h⟩
        · exact Or.inl h
        · exact Or.inr ⟨b, by simp [hb], h⟩

/-- Offering images under a map that keeps the stamps. -/
theorem mergeAll_map {β : Type*} (stamp : α → τ) (floor : τ) (f : β → α) (r : Option β)
    (bs : List β) :
    mergeAll stamp floor (r.map f) (bs.map f) =
      (mergeAll (fun b => stamp (f b)) floor r bs).map f := by
  induction bs generalizing r with
  | nil => rfl
  | cons b bs ih =>
      have hstep : mergeInto stamp floor (r.map f) (f b) =
          (mergeInto (fun b => stamp (f b)) floor r b).map f := by
        have hstamp : registerStamp stamp floor (r.map f) =
            registerStamp (fun b => stamp (f b)) floor r := by
          cases r <;> rfl
        rw [mergeInto, mergeInto, hstamp]
        split <;> rfl
      simp only [mergeAll, List.map_cons, List.foldl_cons] at ih ⊢
      rw [hstep]
      exact ih _

/-- The entry with the greatest stamp of a list, if it is above the floor. -/
def IsWinner (stamp : α → τ) (floor : τ) (as : List α) : Option α → Prop
  | none => ∀ a ∈ as, stamp a ≤ floor
  | some w => w ∈ as ∧ floor < stamp w ∧ ∀ a ∈ as, stamp a ≤ stamp w

/-- An empty register ends up with the winner of what it was offered. -/
theorem mergeAll_isWinner (stamp : α → τ) (floor : τ) (as : List α) :
    IsWinner stamp floor as (mergeAll stamp floor none as) := by
  have hbound : ∀ a ∈ as, stamp a ≤ registerStamp stamp floor (mergeAll stamp floor none as) :=
    fun a ha => stamp_le_mergeAll stamp floor none ha
  rcases mergeAll_source stamp floor none as (by simp) with h | ⟨w, hw, h, hfloor⟩
  · rw [h] at hbound ⊢
    exact hbound
  · rw [h] at hbound ⊢
    exact ⟨hw, hfloor, hbound⟩

theorem IsWinner.eq {stamp : α → τ} {floor : τ} {as bs : List α} {r s : Option α}
    (hr : IsWinner stamp floor as r) (hs : IsWinner stamp floor bs s)
    (hmem : ∀ a, a ∈ as ↔ a ∈ bs)
    (hstamp : ∀ a ∈ as, ∀ b ∈ as, stamp a = stamp b → a = b) : r = s := by
  cases r with
  | none =>
      cases s with
      | none => rfl
      | some w =>
          have hle : stamp w ≤ floor := hr w ((hmem w).mpr hs.1)
          exact absurd hs.2.1 (not_lt.mpr hle)
  | some v =>
      cases s with
      | none =>
          have hle : stamp v ≤ floor := hs v ((hmem v).mp hr.1)
          exact absurd hr.2.1 (not_lt.mpr hle)
      | some w =>
          have hvw : stamp v ≤ stamp w := hs.2.2 v ((hmem v).mp hr.1)
          have hwv : stamp w ≤ stamp v := hr.2.2 w ((hmem w).mpr hs.1)
          have hv := hstamp v hr.1 w ((hmem w).mpr hs.1) (le_antisymm hvw hwv)
          rw [hv]

end Framework
