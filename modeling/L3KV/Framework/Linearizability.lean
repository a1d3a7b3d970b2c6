import Mathlib.Data.List.Nodup
import L3KV.Framework.Runs

/-!
# Linearizability by points

Calls on an object overlap. If every call takes effect at one point between its invocation and its
return, and returns what the object returns there, then the calls in the order of their points are a
sequential run that respects the order of calls that do not overlap.
-/

namespace Framework

/-- What a trace shows of the calls on an object; calls are told apart by numbers. -/
inductive Mark (ο ρ : Type*) where
  | call (id : Nat) (op : ο)
  /-- The call takes effect. -/
  | point (id : Nat)
  | ret (id : Nat) (r : ρ)
  deriving DecidableEq

/-- What the callers see. -/
inductive Visible (ο ρ : Type*) where
  | call (id : Nat) (op : ο)
  | ret (id : Nat) (r : ρ)
  deriving DecidableEq

def Mark.visible? {ο ρ : Type*} : Mark ο ρ → Option (Visible ο ρ)
  | call id op => some (.call id op)
  | point _ => none
  | ret id r => some (.ret id r)

section

variable {σ ο ρ : Type*} (spec : σ → ο → σ × ρ)

def after (s : σ) (calls : List (Nat × ο × ρ)) : σ := calls.foldl (fun s c => (spec s c.2.1).1) s

/-- Every call returns what the object returns in the state the calls before it have left. -/
def Legal (s : σ) (calls : List (Nat × ο × ρ)) : Prop :=
  EachAfter (fun before c => (spec (after spec s before) c.2.1).2 = c.2.2) calls

/-- A sequential order of the calls of a history. A call that has not returned may have taken effect
or not. -/
structure Linearizes (s : σ) (history : List (Visible ο ρ)) (calls : List (Nat × ο × ρ)) : Prop where
  legal : Legal spec s calls
  once : (calls.map Prod.fst).Nodup
  called : ∀ c ∈ calls, .call c.1 c.2.1 ∈ history
  returned : ∀ id r, .ret id r ∈ history → ∃ op, (id, op, r) ∈ calls
  /-- A call that has returned before another began is in front of it. -/
  order : ∀ front mid back id r id' op,
    history = front ++ .ret id r :: mid ++ .call id' op :: back → id' ∈ calls.map Prod.fst →
      [id, id'].Sublist (calls.map Prod.fst)

/-- How far a call has come. -/
inductive Progress (ο ρ : Type*) where
  | fresh
  | called (op : ο)
  | done (op : ο) (r : ρ)
  | returned

/-- The object, the calls and the order in which they took effect. -/
structure Ghost (σ ο ρ : Type*) where
  state : σ
  progress : Nat → Progress ο ρ
  calls : List (Nat × ο × ρ)

namespace Ghost

def init (s : σ) : Ghost σ ο ρ := ⟨s, fun _ => .fresh, []⟩

def advance (g : Ghost σ ο ρ) (id : Nat) (progress : Progress ο ρ) : Ghost σ ο ρ :=
  { g with progress := Function.update g.progress id progress }

/-- The marks a trace may show: a call is invoked once, takes effect, and returns the result. -/
def step [DecidableEq ρ] (g : Ghost σ ο ρ) : Mark ο ρ → Option (Ghost σ ο ρ)
  | .call id op =>
      match g.progress id with
      | .fresh => some (g.advance id (.called op))
      | _ => none
  | .point id =>
      match g.progress id with
      | .called op =>
          let (state, r) := spec g.state op
          some ({ g with state := state, calls := g.calls ++ [(id, op, r)] }.advance id (.done op r))
      | _ => none
  | .ret id r =>
      match g.progress id with
      | .done _ r' =>
          if r' = r then some (g.advance id .returned) else none
      | _ => none

end Ghost

end

section

variable {σ ο ρ : Type*} {spec : σ → ο → σ × ρ} {s : σ}

private theorem after_concat (calls : List (Nat × ο × ρ)) (c : Nat × ο × ρ) :
    after spec s (calls ++ [c]) = (spec (after spec s calls) c.2.1).1 := by
  simp [after]

/-- A call that was invoked and has not taken effect does so behind all others. -/
theorem Linearizes.concat {history : List (Visible ο ρ)} {calls : List (Nat × ο × ρ)}
    (h : Linearizes spec s history calls) {id : Nat} {op : ο} (hnew : id ∉ calls.map Prod.fst)
    (hcall : .call id op ∈ history) :
    Linearizes spec s history (calls ++ [(id, op, (spec (after spec s calls) op).2)]) := by
  refine ⟨eachAfter_concat.mpr ⟨h.legal, rfl⟩, ?_, fun c hc => ?_, fun id' r hr => ?_, ?_⟩
  · rw [List.map_append, List.map_singleton]
    refine List.nodup_append.mpr ⟨h.once, by simp, ?_⟩
    rintro a ha b hb rfl
    rw [List.mem_singleton.mp hb] at ha
    exact hnew ha
  · rcases List.mem_append.mp hc with hc | hc
    · exact h.called c hc
    · rw [List.mem_singleton.mp hc]
      exact hcall
  · obtain ⟨op', hop'⟩ := h.returned id' r hr
    exact ⟨op', List.mem_append_left _ hop'⟩
  · intro front mid back id₁ r id₂ op₂ hsplit hplaced
    rw [List.map_append, List.map_singleton] at hplaced ⊢
    rcases List.mem_append.mp hplaced with hplaced | hplaced
    · exact (h.order front mid back id₁ r id₂ op₂ hsplit hplaced).trans
        (List.sublist_append_left _ _)
    · -- Every call that has returned has taken effect.
      rw [List.mem_singleton.mp hplaced]
      obtain ⟨op₁, hop₁⟩ := h.returned id₁ r (by simp [hsplit])
      have hfirst : [id₁].Sublist (calls.map Prod.fst) :=
        List.singleton_sublist.mpr (List.mem_map.mpr ⟨_, hop₁, rfl⟩)
      exact hfirst.append (List.Sublist.refl [id])

namespace Ghost

theorem advance_self (g : Ghost σ ο ρ) (id : Nat) (progress : Progress ο ρ) :
    (g.advance id progress).progress id = progress := Function.update_self ..

theorem advance_of_ne (g : Ghost σ ο ρ) {id id' : Nat} (h : id' ≠ id) (progress : Progress ο ρ) :
    (g.advance id progress).progress id' = g.progress id' := Function.update_of_ne h ..

end Ghost

/-- The ghost after a trace: its calls linearize the history so far, and the progress of every call
is what the history shows. -/
structure Ghost.Follows (spec : σ → ο → σ × ρ) (s : σ) (history : List (Visible ο ρ))
    (g : Ghost σ ο ρ) : Prop where
  linearizes : Linearizes spec s history g.calls
  state : g.state = after spec s g.calls
  invoked : ∀ id op, .call id op ∈ history → g.progress id ≠ .fresh
  pending : ∀ id op, g.progress id = .called op → .call id op ∈ history
  placed : ∀ c ∈ g.calls, g.progress c.1 ≠ .fresh ∧ ∀ op, g.progress c.1 ≠ .called op
  result : ∀ id op r, g.progress id = .done op r → (id, op, r) ∈ g.calls

namespace Ghost.Follows

variable {g : Ghost σ ο ρ} {history : List (Visible ο ρ)}

theorem init (spec : σ → ο → σ × ρ) (s : σ) : Follows spec s [] (Ghost.init s) where
  linearizes := ⟨eachAfter_nil, List.nodup_nil, by simp [Ghost.init], by simp, by simp [Ghost.init]⟩
  state := rfl
  invoked := by simp
  pending := by simp [Ghost.init]
  placed := by simp [Ghost.init]
  result := by simp [Ghost.init]

private theorem split_concat {front mid back : List (Visible ο ρ)} {id id' : Nat} {r : ρ} {op : ο}
    {e : Visible ο ρ}
    (h : history ++ [e] = front ++ .ret id r :: mid ++ .call id' op :: back) :
    (∃ back', history = front ++ .ret id r :: mid ++ .call id' op :: back') ∨
      (e = .call id' op ∧ .ret id r ∈ history) := by
  rcases List.eq_nil_or_concat back with rfl | ⟨back', last, rfl⟩
  · obtain ⟨hfront, hlast⟩ := List.append_inj' h rfl
    right
    refine ⟨List.singleton_inj.mp hlast, ?_⟩
    rw [hfront]
    simp
  · left
    rw [List.concat_eq_append, ← List.cons_append, ← List.append_assoc] at h
    exact ⟨back', (List.append_inj' h rfl).1⟩

theorem call (h : g.Follows spec s history) {id : Nat} {op : ο} (hfresh : g.progress id = .fresh) :
    (g.advance id (.called op)).Follows spec s (history ++ [.call id op]) := by
  have hmem (e : Visible ο ρ) (he : e ∈ history) : e ∈ history ++ [.call id op] :=
    List.mem_append_left _ he
  have hunplaced : id ∉ g.calls.map Prod.fst := by
    intro hid
    obtain ⟨c, hc, rfl⟩ := List.mem_map.mp hid
    exact (h.placed c hc).1 hfresh
  refine ⟨⟨h.linearizes.legal, h.linearizes.once, fun c hc => hmem _ (h.linearizes.called c hc),
    fun id' r hr => ?_, ?_⟩, h.state, fun id' op' hcall => ?_, fun id' op' hpending => ?_,
    fun c hc => ?_, fun id' op' r hdone => ?_⟩
  · exact h.linearizes.returned id' r (by simpa using hr)
  · intro front mid back id₁ r id₂ op₂ hsplit hplaced
    rcases split_concat hsplit with ⟨back', hold⟩ | ⟨hnew, -⟩
    · exact h.linearizes.order front mid back' id₁ r id₂ op₂ hold hplaced
    · cases hnew
      exact absurd hplaced hunplaced
  · by_cases heq : id' = id
    · simp [heq, advance_self]
    · rw [advance_of_ne _ heq]
      apply h.invoked id' op'
      simpa [heq] using hcall
  · by_cases heq : id' = id
    · subst heq
      rw [advance_self] at hpending
      cases hpending
      simp
    · rw [advance_of_ne _ heq] at hpending
      exact hmem _ (h.pending id' op' hpending)
  · have hne : c.1 ≠ id := fun heq => hunplaced (heq ▸ List.mem_map_of_mem hc)
    rw [advance_of_ne _ hne]
    exact h.placed c hc
  · by_cases heq : id' = id
    · subst heq
      rw [advance_self] at hdone
      cases hdone
    · rw [advance_of_ne _ heq] at hdone
      exact h.result id' op' r hdone

theorem point (h : g.Follows spec s history) {id : Nat} {op : ο}
    (hcalled : g.progress id = .called op) :
    ({ g with
      state := (spec g.state op).1
      calls := g.calls ++ [(id, op, (spec g.state op).2)]
      }.advance id (.done op (spec g.state op).2)).Follows spec s history := by
  have hunplaced : id ∉ g.calls.map Prod.fst := by
    intro hid
    obtain ⟨c, hc, rfl⟩ := List.mem_map.mp hid
    exact (h.placed c hc).2 op hcalled
  have hlinearizes := h.linearizes.concat hunplaced (h.pending id op hcalled)
  rw [← h.state] at hlinearizes
  refine ⟨hlinearizes, ?_, fun id' op' hcall => ?_, fun id' op' hpending => ?_, fun c hc => ?_,
    fun id' op' r hdone => ?_⟩
  · change (spec g.state op).1 = after spec s (g.calls ++ [(id, op, (spec g.state op).2)])
    rw [after_concat, ← h.state]
  · by_cases heq : id' = id
    · simp [heq, advance_self]
    · rw [advance_of_ne _ heq]
      exact h.invoked id' op' hcall
  · by_cases heq : id' = id
    · subst heq
      rw [advance_self] at hpending
      cases hpending
    · rw [advance_of_ne _ heq] at hpending
      exact h.pending id' op' hpending
  · by_cases heq : c.1 = id
    · simp [heq, advance_self]
    · rw [advance_of_ne _ heq]
      rcases List.mem_append.mp hc with hc | hc
      · exact h.placed c hc
      · rw [List.mem_singleton.mp hc] at heq
        exact absurd rfl heq
  · by_cases heq : id' = id
    · subst heq
      rw [advance_self] at hdone
      cases hdone
      exact List.mem_append_right _ (List.mem_singleton_self _)
    · rw [advance_of_ne _ heq] at hdone
      exact List.mem_append_left _ (h.result id' op' r hdone)

theorem ret (h : g.Follows spec s history) {id : Nat} {op : ο} {r : ρ}
    (hdone : g.progress id = .done op r) :
    (g.advance id .returned).Follows spec s (history ++ [.ret id r]) := by
  refine ⟨⟨h.linearizes.legal, h.linearizes.once,
    fun c hc => List.mem_append_left _ (h.linearizes.called c hc), fun id' r' hr => ?_, ?_⟩, h.state,
    fun id' op' hcall => ?_, fun id' op' hpending => ?_, fun c hc => ?_, fun id' op' r' hdone' => ?_⟩
  · rcases List.mem_append.mp hr with hr | hr
    · exact h.linearizes.returned id' r' hr
    · cases List.mem_singleton.mp hr
      exact ⟨op, h.result id op r hdone⟩
  · intro front mid back id₁ r₁ id₂ op₂ hsplit hplaced
    rcases split_concat hsplit with ⟨back', hold⟩ | ⟨hnew, -⟩
    · exact h.linearizes.order front mid back' id₁ r₁ id₂ op₂ hold hplaced
    · cases hnew
  · by_cases heq : id' = id
    · simp [heq, advance_self]
    · rw [advance_of_ne _ heq]
      exact h.invoked id' op' (by simpa using hcall)
  · by_cases heq : id' = id
    · subst heq
      rw [advance_self] at hpending
      cases hpending
    · rw [advance_of_ne _ heq] at hpending
      exact List.mem_append_left _ (h.pending id' op' hpending)
  · by_cases heq : c.1 = id
    · simp [heq, advance_self]
    · rw [advance_of_ne _ heq]
      exact h.placed c hc
  · by_cases heq : id' = id
    · subst heq
      rw [advance_self] at hdone'
      cases hdone'
    · rw [advance_of_ne _ heq] at hdone'
      exact h.result id' op' r' hdone'

theorem step [DecidableEq ρ] (h : g.Follows spec s history) {mark : Mark ο ρ} {g' : Ghost σ ο ρ}
    (hstep : g.step spec mark = some g') : g'.Follows spec s (history ++ mark.visible?.toList) := by
  cases mark with
  | call id op =>
      simp only [Ghost.step] at hstep
      split at hstep
      · rename_i hfresh
        cases hstep
        exact h.call hfresh
      · cases hstep
  | point id =>
      simp only [Ghost.step] at hstep
      split at hstep
      · rename_i hcalled
        cases hstep
        simpa [Mark.visible?] using h.point hcalled
      · cases hstep
  | ret id r =>
      simp only [Ghost.step] at hstep
      split at hstep
      · rename_i hdone
        split at hstep
        · rename_i hr
          cases hstep
          subst hr
          exact h.ret hdone
        · cases hstep
      · cases hstep

end Ghost.Follows

/-- What a trace shows is linearized by the points. -/
theorem linearizes_of_run [DecidableEq ρ] {trace : List (Mark ο ρ)} {g : Ghost σ ο ρ}
    (hrun : trace.foldlM (Ghost.step spec) (Ghost.init s) = some g) :
    Linearizes spec s (trace.filterMap Mark.visible?) g.calls := by
  have hfollows : g.Follows spec s (trace.filterMap Mark.visible?) := by
    apply run_invariant_always (fun trace g => g.Follows spec s (trace.filterMap Mark.visible?))
      (Ghost.Follows.init spec s) _ hrun
    intro trace g₁ mark g₂ h hstep
    have hnext := h.step hstep
    cases hmark : mark.visible? <;> simpa [List.filterMap_append, hmark] using hnext
  exact hfollows.linearizes

end

end Framework
