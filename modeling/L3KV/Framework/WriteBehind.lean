import Mathlib.Logic.Function.Basic

/-!
# Writes that are performed later

Operations on the keys of a store wait in lanes and are performed in the order of their lane; all
operations on one key share a lane. What a key is going to hold is its content after the operations
on it that are waiting. A write that does not wait fits in only if none is.
-/

namespace Framework

variable {κ β ο ι : Type*} [DecidableEq κ] (key : ο → κ) (effect : ο → β → β)
  (lane : κ → ι)

def settle (k : κ) (ops : List ο) (content : β) : β :=
  ops.foldl (fun content o => if key o = k then effect o content else content) content

/-- What every key is going to hold. -/
def Foreseen (stored : κ → β) (queued : ι → List ο) (seen : κ → β) : Prop :=
  ∀ k, seen k = settle key effect k (queued (lane k)) (stored k)

variable {key effect lane}

theorem settle_append (k : κ) (ops more : List ο) (content : β) :
    settle key effect k (ops ++ more) content =
      settle key effect k more (settle key effect k ops content) :=
  List.foldl_append

theorem settle_of_ne {k : κ} {ops : List ο} (h : ∀ o ∈ ops, key o ≠ k) (content : β) :
    settle key effect k ops content = content := by
  induction ops with
  | nil => rfl
  | cons o ops ih =>
      rw [settle, List.foldl_cons, if_neg (h o List.mem_cons_self)]
      exact ih fun o' ho' => h o' (List.mem_cons_of_mem _ ho')

namespace Foreseen

variable {stored seen : κ → β} {queued : ι → List ο} (h : Foreseen key effect lane stored queued seen)

include h

theorem enqueue [DecidableEq ι] {i : ι} {ops : List ο} (hlane : ∀ o ∈ ops, lane (key o) = i) :
    Foreseen key effect lane stored (Function.update queued i (queued i ++ ops))
      fun k => settle key effect k ops (seen k) := by
  intro k
  dsimp only
  by_cases hk : lane k = i
  · rw [hk, Function.update_self, settle_append, h k, hk]
  · have hnone : ∀ o ∈ ops, key o ≠ k := by
      rintro o ho rfl
      exact hk (hlane o ho)
    rw [Function.update_of_ne hk, settle_of_ne hnone, h k]

/-- The first operation of a lane is performed. -/
theorem perform [DecidableEq ι] {i : ι} {o : ο} {ops : List ο} (hqueue : queued i = o :: ops)
    (hlane : lane (key o) = i) :
    Foreseen key effect lane (Function.update stored (key o) (effect o (stored (key o))))
      (Function.update queued i ops) seen := by
  intro k
  rw [h k]
  by_cases hk : k = key o
  · subst hk
    rw [hlane, hqueue, Function.update_self, Function.update_self, settle, List.foldl_cons,
      if_pos rfl]
    rfl
  · rw [Function.update_of_ne hk]
    by_cases hi : lane k = i
    · rw [hi, hqueue, Function.update_self, settle, List.foldl_cons, if_neg (Ne.symm hk)]
      rfl
    · rw [Function.update_of_ne hi]

theorem write {k : κ} (hnone : ∀ o ∈ queued (lane k), key o ≠ k) (content : β) :
    Foreseen key effect lane (Function.update stored k content) queued
      (Function.update seen k content) := by
  intro k'
  by_cases hk : k' = k
  · subst hk
    rw [Function.update_self, Function.update_self, settle_of_ne hnone]
  · rw [Function.update_of_ne hk, Function.update_of_ne hk, h k']

theorem eq_stored {k : κ} (hnone : ∀ o ∈ queued (lane k), key o ≠ k) : seen k = stored k := by
  rw [h k, settle_of_ne hnone]

end Foreseen

end Framework
