import L3KV.Engine.StampOrder

/-!
# Operations that wait and operations that are performed

Between restarts a store changes only when a call or the thread of a shard performs an operation.
That operation was waiting before, and what waits has come with the plan of an accepted call.
-/

namespace L3KV

open Framework

namespace Machine

/-- The operation is queued, or a call is going to hand it over or to apply it. -/
def Awaits (m : Machine) (o : ShardOp) : Prop :=
  (∃ s, o ∈ m.queuedOps s) ∨ ∃ t, o ∈ (m.phase t).ops

/-- The operation a step performs. One that throws leaves no trace. -/
def performs (x : External) (m : Machine) : Event → Option ShardOp
  | .work t =>
      match m.phase t with
      | .logged (.direct (o :: _)) => if (m.store.apply x o).isSome then some o else none
      | _ => none
  | .shard s =>
      match (m.queues s).head?.map Task.ops with
      | some (o :: _) => if (m.store.apply x o).isSome then some o else none
      | _ => none
  | _ => none

section

variable {x : External} {u : Nat → Nat → UInt8} {m m' : Machine} {event : Event} {o : ShardOp}

theorem Step.performs (h : Step x u m event m') (hrestart : event ≠ .restart) :
    (m.performs x event = none ∧ m'.store = m.store) ∨
      ∃ o, m.performs x event = some o ∧ m.store.apply x o = some m'.store := by
  cases h with
  | start => exact Or.inl ⟨rfl, rfl⟩
  | refuse => exact Or.inl ⟨rfl, rfl⟩
  | append => exact Or.inl ⟨rfl, rfl⟩
  | @work t work hphase =>
      cases work with
      | wait shard task => exact Or.inl ⟨by simp [Machine.performs, hphase], rfl⟩
      | async tasks =>
          cases tasks with
          | nil => exact Or.inl ⟨by simp [Machine.performs, hphase], rfl⟩
          | cons w tasks => exact Or.inl ⟨by simp [Machine.performs, hphase], rfl⟩
      | direct ops =>
          cases ops with
          | nil => exact Or.inl ⟨by simp [Machine.performs, hphase], rfl⟩
          | cons o ops =>
              cases happly : m.store.apply x o with
              | none =>
                  left
                  simp [Machine.performs, hphase, happly, workStep, Machine.setPhase]
              | some st =>
                  right
                  exact ⟨o, by simp [Machine.performs, hphase, happly],
                    by simp [workStep, happly, Machine.setPhase]⟩
  | take => exact Or.inl ⟨rfl, rfl⟩
  | @shard s task rest hqueue =>
      cases hops : task.ops with
      | nil =>
          left
          simp [Machine.performs, hqueue, hops, shardStep, setQueue]
      | cons o ops =>
          cases happly : m.store.apply x o with
          | none =>
              left
              simp [Machine.performs, hqueue, hops, happly, shardStep, setQueue]
          | some st =>
              right
              exact ⟨o, by simp [Machine.performs, hqueue, hops, happly],
                by simp [shardStep, hops, happly, setQueue]⟩
  | restart => exact absurd rfl hrestart

theorem awaits_of_performs (h : m.performs x event = some o) : m.Awaits o := by
  cases event with
  | work t =>
      simp only [performs] at h
      split at h
      · rename_i o' ops hphase
        split at h
        · cases h
          exact Or.inr ⟨t, by simp [hphase, Phase.ops, Phase.parts, Work.parts]⟩
        · cases h
      · cases h
  | shard s =>
      simp only [performs] at h
      split at h
      · rename_i hhead
        split at h
        · cases h
          obtain ⟨task, htask, hops⟩ := Option.map_eq_some_iff.mp hhead
          exact Or.inl ⟨s, List.mem_flatMap.mpr ⟨task, List.mem_of_head? htask, by simp [hops]⟩⟩
        · cases h
      · cases h
  | _ => cases h

private theorem Awaits.of_setPhase {t : Nat} {phase : Phase} (h : (m.setPhase t phase).Awaits o) :
    m.Awaits o ∨ o ∈ phase.ops := by
  rcases h with ⟨s, hs⟩ | ⟨t', ht'⟩
  · exact Or.inl (Or.inl ⟨s, hs⟩)
  · by_cases heq : t' = t
    · subst heq
      right
      simpa [Machine.setPhase] using ht'
    · rw [setPhase_of_ne m heq] at ht'
      exact Or.inl (Or.inr ⟨t', ht'⟩)

private theorem Awaits.of_enqueue {s : Fin 8} {task : Task} (h : (m.enqueue s task).Awaits o) :
    m.Awaits o ∨ o ∈ task.ops := by
  rcases h with ⟨s', hs'⟩ | ⟨t, ht⟩
  · by_cases heq : s' = s
    · subst heq
      simp only [queuedOps, Machine.enqueue, Function.update_self, List.flatMap_append,
        List.flatMap_cons, List.flatMap_nil, List.append_nil, List.mem_append] at hs'
      exact hs'.imp_left fun hold => Or.inl ⟨s', hold⟩
    · simp only [queuedOps, Machine.enqueue, Function.update_of_ne heq] at hs'
      exact Or.inl (Or.inl ⟨s', hs'⟩)
  · exact Or.inl (Or.inr ⟨t, ht⟩)

private theorem Awaits.of_setQueue {s : Fin 8} {tasks : List Task}
    (hsub : ∀ o ∈ tasks.flatMap Task.ops, o ∈ m.queuedOps s) (h : (m.setQueue s tasks).Awaits o) :
    m.Awaits o := by
  rcases h with ⟨s', hs'⟩ | ⟨t, ht⟩
  · by_cases heq : s' = s
    · subst heq
      simp only [queuedOps, Machine.setQueue, Function.update_self] at hs'
      exact Or.inl ⟨s', hsub o hs'⟩
    · simp only [queuedOps, Machine.setQueue, Function.update_of_ne heq] at hs'
      exact Or.inl ⟨s', hs'⟩
  · exact Or.inr ⟨t, ht⟩

private theorem Awaits.of_wake {owner : Option Nat} (h : (m.wake owner).Awaits o) : m.Awaits o := by
  cases owner with
  | none => exact h
  | some t =>
      rcases Awaits.of_setPhase h with h | h
      · exact h
      · cases h

private theorem Awaits.of_workStep {t : Nat} {work : Work} (hphase : m.phase t = .logged work)
    (h : (m.workStep x t work).Awaits o) : m.Awaits o := by
  have hown (ho : o ∈ work.ops) : m.Awaits o :=
    Or.inr ⟨t, by rwa [hphase, Phase.ops, Phase.parts, ← Work.ops_eq]⟩
  cases work with
  | wait s task =>
      rcases Awaits.of_setPhase h with h | h
      · rcases Awaits.of_enqueue h with h | h
        · exact h
        · exact hown h
      · cases h
  | async tasks =>
      cases tasks with
      | nil =>
          rcases Awaits.of_setPhase h with h | h
          · exact h
          · cases h
      | cons w tasks =>
          rcases Awaits.of_setPhase h with h | h
          · rcases Awaits.of_enqueue h with h | h
            · exact h
            · exact hown (List.mem_flatMap.mpr ⟨w, by simp, h⟩)
          · rw [Phase.ops, Phase.parts, ← Work.ops_eq] at h
            obtain ⟨w', hw', ho⟩ := List.mem_flatMap.mp h
            exact hown (List.mem_flatMap.mpr ⟨w', List.mem_cons_of_mem _ hw', ho⟩)
  | direct ops =>
      cases ops with
      | nil =>
          rcases Awaits.of_setPhase h with h | h
          · exact h
          · cases h
      | cons first ops =>
          simp only [workStep] at h
          split at h
          · rcases Awaits.of_setPhase h with h | h
            · exact h
            · cases h
          · rcases Awaits.of_setPhase h with h | h
            · exact h
            · rw [Phase.ops, Phase.parts, ← Work.ops_eq] at h
              exact hown (List.mem_cons_of_mem _ h)

private theorem Awaits.of_shardStep {s : Fin 8} {task : Task} {rest : List Task}
    (hqueue : m.queues s = task :: rest) (h : (m.shardStep x s task rest).Awaits o) :
    m.Awaits o := by
  have hrest : ∀ o ∈ rest.flatMap Task.ops, o ∈ m.queuedOps s := by
    intro o ho
    rw [queuedOps, hqueue, List.flatMap_cons]
    exact List.mem_append_right _ ho
  simp only [shardStep] at h
  split at h
  · exact Awaits.of_setQueue hrest (Awaits.of_wake h)
  · rename_i ops hops
    split at h
    · exact Awaits.of_setQueue hrest (Awaits.of_wake h)
    · refine Awaits.of_setQueue (m := m) ?_ h
      intro o ho
      rw [List.flatMap_cons, List.mem_append] at ho
      rcases ho with ho | ho
      · simp [queuedOps, hqueue, hops, show o ∈ ops from ho]
      · exact hrest o ho

/-- What waits after a step waited before, or is part of the plan of the call that begins. -/
theorem Step.awaits (h : Step x u m event m') (hrestart : event ≠ .restart) (ho : m'.Awaits o) :
    m.Awaits o ∨ ∃ t call clock plan, event = .start t call ∧
      m.engine.prepare x u call = some (clock, .accepted plan) ∧ o ∈ plan.work.ops := by
  cases h with
  | @start t call clock plan hidle hprep =>
      rcases Awaits.of_setPhase ho with ho | ho
      · exact Or.inl ho
      · rw [Phase.ops, Phase.parts, ← Work.ops_eq] at ho
        exact Or.inr ⟨t, call, clock, plan, rfl, hprep, ho⟩
  | refuse => exact Or.inl ho
  | @append t plan hphase =>
      left
      rcases Awaits.of_setPhase ho with ho | ho
      · exact ho
      · exact Or.inr ⟨t, by rw [hphase]; exact ho⟩
  | work hphase => exact Or.inl (Awaits.of_workStep hphase ho)
  | @take s task front back hqueue hfront hfree =>
      refine Or.inl (Awaits.of_setQueue ?_ ho)
      intro o ho
      rw [queuedOps, hqueue]
      simp only [List.flatMap_cons, List.flatMap_append, List.mem_append, Task.goOn_ops] at ho ⊢
      tauto
  | shard hqueue => exact Or.inl (Awaits.of_shardStep hqueue ho)
  | restart => exact absurd rfl hrestart

theorem ofEngine_not_awaits {e : Engine} (hqueues : ∀ s, e.queues s = []) :
    ¬ (ofEngine e).Awaits o := by
  rintro (⟨s, hs⟩ | ⟨t, ht⟩)
  · simp [queuedOps, ofEngine, hqueues] at hs
  · cases ht

end

end Machine

end L3KV
