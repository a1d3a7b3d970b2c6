import Mathlib.Data.List.Basic
import Mathlib.Data.List.Infix

/-!
# Streams of records

A reader that gives back exactly what a writer wrote, whatever follows, cuts every string into
records and a rest in one way only. The records of that cut form the longest readable part.
-/

namespace Framework

/-- Records written one after the other. -/
structure RecordFormat (ρ β : Type*) where
  Valid : ρ → Prop
  bytes : ρ → List β
  read : List β → Option ρ
  bytes_ne_nil : ∀ r, bytes r ≠ []
  /-- What is read stands at the front. -/
  sound : ∀ {s r}, read s = some r → Valid r ∧ ∃ rest, s = bytes r ++ rest
  /-- What is written is read back, whatever follows. -/
  complete : ∀ {r} rest, Valid r → read (bytes r ++ rest) = some r

namespace RecordFormat

variable {ρ β : Type*} (F : RecordFormat ρ β)

def stream (rs : List ρ) : List β := rs.flatMap F.bytes

/-- No record stands at the front. -/
def Stops (tail : List β) : Prop := F.read tail = none

@[simp] theorem stream_nil : F.stream [] = [] := rfl

@[simp] theorem stream_cons (r : ρ) (rs : List ρ) : F.stream (r :: rs) = F.bytes r ++ F.stream rs :=
  rfl

@[simp] theorem stream_append (rs rs' : List ρ) : F.stream (rs ++ rs') = F.stream rs ++ F.stream rs' :=
  List.flatMap_append

variable {F}

theorem stops_nil : F.Stops [] := by
  cases h : F.read [] with
  | none => exact h
  | some r =>
      obtain ⟨-, rest, hrest⟩ := F.sound h
      exact absurd (List.append_eq_nil_iff.mp hrest.symm).1 (F.bytes_ne_nil r)

/-- Every string is a stream of records and a rest without one. -/
theorem exists_stream (s : List β) :
    ∃ rs tail, (∀ r ∈ rs, F.Valid r) ∧ s = F.stream rs ++ tail ∧ F.Stops tail := by
  induction hn : s.length using Nat.strong_induction_on generalizing s with
  | _ n ih =>
      cases h : F.read s with
      | none => exact ⟨[], s, by simp, rfl, h⟩
      | some r =>
          obtain ⟨hvalid, rest, rfl⟩ := F.sound h
          have hpos : 0 < (F.bytes r).length := List.length_pos_iff.mpr (F.bytes_ne_nil r)
          have hshort : rest.length < n := by
            rw [← hn, List.length_append]
            omega
          obtain ⟨rs, tail, hrs, hrest, hstops⟩ := ih _ hshort rest rfl
          refine ⟨r :: rs, tail, ?_, by rw [stream_cons, List.append_assoc, ← hrest], hstops⟩
          simpa using ⟨hvalid, hrs⟩

private theorem exists_more {rs rs' : List ρ} {tail tail' : List β} (hrs : ∀ r ∈ rs, F.Valid r)
    (hrs' : ∀ r ∈ rs', F.Valid r) (hstops : F.Stops tail)
    (h : F.stream rs ++ tail = F.stream rs' ++ tail') :
    ∃ more, rs = rs' ++ more ∧ tail' = F.stream more ++ tail := by
  induction rs' generalizing rs with
  | nil => exact ⟨rs, rfl, h.symm⟩
  | cons r' rs' ih =>
      rw [stream_cons, List.append_assoc] at h
      have hread := F.complete (F.stream rs' ++ tail') (hrs' r' (by simp))
      rw [← h] at hread
      cases rs with
      | nil => cases hread.symm.trans hstops
      | cons r rs =>
          rw [stream_cons, List.append_assoc] at h hread
          cases (F.complete (F.stream rs ++ tail) (hrs r (by simp))).symm.trans hread
          obtain ⟨more, rfl, hmore⟩ := ih (fun q hq => hrs q (by simp [hq]))
            (fun q hq => hrs' q (by simp [hq])) (List.append_cancel_left h)
          exact ⟨more, rfl, hmore⟩

theorem stream_unique {rs rs' : List ρ} {tail tail' : List β} (hrs : ∀ r ∈ rs, F.Valid r)
    (hrs' : ∀ r ∈ rs', F.Valid r) (hstops : F.Stops tail) (hstops' : F.Stops tail')
    (h : F.stream rs ++ tail = F.stream rs' ++ tail') : rs = rs' ∧ tail = tail' := by
  obtain ⟨more, rfl, htail⟩ := exists_more hrs hrs' hstops h
  cases more with
  | nil => exact ⟨List.append_nil rs', htail.symm⟩
  | cons r more =>
      rw [stream_cons, List.append_assoc] at htail
      have hread := F.complete (F.stream more ++ tail) (hrs r (by simp))
      rw [← htail] at hread
      cases hread.symm.trans hstops'

/-- The stream of the cut is the longest one at the front. -/
theorem length_stream_le {rs rs' : List ρ} {tail : List β} (hrs : ∀ r ∈ rs, F.Valid r)
    (hrs' : ∀ r ∈ rs', F.Valid r) (hstops : F.Stops tail)
    (h : F.stream rs' <+: F.stream rs ++ tail) : (F.stream rs').length ≤ (F.stream rs).length := by
  obtain ⟨tail', htail'⟩ := h
  obtain ⟨more, rfl, -⟩ := exists_more hrs hrs' hstops htail'.symm
  rw [stream_append, List.length_append]
  exact Nat.le_add_right _ _

end RecordFormat

end Framework
