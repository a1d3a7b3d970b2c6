import L3KV.Engine.Pending
import L3KV.Engine.Races

/-!
# Tasks that have begun

A thread that applies operations itself, or the thread of a shard, works on one list of operations
at a time and takes the next one only when that list is empty or its first operation has thrown.
-/

namespace L3KV

open Framework

namespace Machine

/-- The operations that the writer has before it. -/
def running (m : Machine) : Writer → List ShardOp
  | .thread t =>
      match m.phase t with
      | .logged (.direct ops) => ops
      | _ => []
  | .shard s =>
      match m.queues s with
      | [] => []
      | task :: _ => task.ops

/-- A list of operations that nobody has begun with. -/
def Unbegun (m : Machine) (ops : List ShardOp) : Prop :=
  (∃ t plan, m.phase t = .planned plan ∧ ∃ place, (place, ops) ∈ plan.work.parts) ∨
    (∃ t work, m.phase t = .logged work ∧ ∃ s, (some s, ops) ∈ work.parts) ∨
    ∃ s, ∃ task ∈ m.queues s, (task.taken = false ∨ task ∈ (m.queues s).tail) ∧ task.ops = ops

section

variable {x : External} {u : Nat → Nat → UInt8} {m m' : Machine} {event : Event}

theorem running_thread {t : Nat} {phase : Phase} (h : m.phase t = phase)
    (hne : ∀ ops, phase ≠ .logged (.direct ops)) : m.running (.thread t) = [] := by
  simp only [running, h]

private theorem running_direct {t : Nat} {ops : List ShardOp}
    (h : m.phase t = .logged (.direct ops)) :
    m.running (.thread t) = ops := by
  simp only [running, h]

/-- Another list may take the place of this one. -/
def Gone (x : External) (m : Machine) (ops : List ShardOp) : Prop :=
  ops = [] ∨ ∃ o rest, ops = o :: rest ∧ m.store.apply x o = none

/-- A step that performs nothing. -/
def Replaces (x : External) (m m' : Machine) (writer : Writer) : Prop :=
  m'.running writer = m.running writer ∨
    (m.Gone x (m.running writer) ∨ m.Unbegun (m.running writer)) ∧
      (m'.running writer = [] ∨ m.Unbegun (m'.running writer))

private theorem replaces_setPhase {t : Nat} {phase : Phase}
    (hgone : m.Gone x (m.running (.thread t)))
    (hphase : ∀ ops, phase = .logged (.direct ops) → m.Unbegun ops) (writer : Writer) :
    Replaces x m (m.setPhase t phase) writer := by
  cases writer with
  | shard s => exact Or.inl rfl
  | thread t' =>
      by_cases heq : t' = t
      · subst heq
        refine Or.inr ⟨Or.inl hgone, ?_⟩
        have hself : (m.setPhase t' phase).phase t' = phase := Function.update_self _ _ _
        by_cases hdirect : ∃ ops, phase = .logged (.direct ops)
        · obtain ⟨ops, hops⟩ := hdirect
          right
          rw [running_direct (hself.trans hops)]
          exact hphase ops hops
        · exact Or.inl (running_thread hself fun ops hops => hdirect ⟨ops, hops⟩)
      · left
        simp only [running, setPhase_of_ne m heq]

private theorem replaces_enqueue {s : Fin 8} {task : Task} (htask : m.Unbegun task.ops)
    (s' : Fin 8) :
    Replaces x m (m.enqueue s task) (.shard s') := by
  by_cases heq : s' = s
  · subst heq
    have hself : (m.enqueue s' task).queues s' = m.queues s' ++ [task] := Function.update_self _ _ _
    simp only [Replaces, running, hself]
    cases m.queues s' with
    | nil => exact Or.inr ⟨Or.inl (Or.inl rfl), Or.inr htask⟩
    | cons first rest => exact Or.inl rfl
  · left
    simp only [running, enqueue, Function.update_of_ne heq]

private theorem replaces_setQueue {s : Fin 8} {task : Task} {rest : List Task}
    (hqueue : m.queues s = task :: rest) (hgone : m.Gone x task.ops) (s' : Fin 8) :
    Replaces x m (m.setQueue s rest) (.shard s') := by
  by_cases heq : s' = s
  · subst heq
    have hself : (m.setQueue s' rest).queues s' = rest := Function.update_self _ _ _
    simp only [Replaces, running, hself, hqueue]
    refine Or.inr ⟨Or.inl hgone, ?_⟩
    cases rest with
    | nil => exact Or.inl rfl
    | cons next rest =>
        exact Or.inr (Or.inr (Or.inr ⟨s', next, by simp [hqueue], Or.inr (by simp [hqueue]), rfl⟩))
  · left
    simp only [running, setQueue, Function.update_of_ne heq]

private theorem replaces_take {s : Fin 8} {task : Task} {front back : List Task}
    (hqueue : m.queues s = front ++ task :: back) (hfree : ∀ t ∈ m.queues s, t.taken = false)
    (writer : Writer) :
    Replaces x m (m.setQueue s (task.goOn task.ops :: (front ++ back))) writer := by
  have hunbegun {t : Task} (ht : t ∈ m.queues s) : m.Unbegun t.ops :=
    Or.inr (Or.inr ⟨s, t, ht, Or.inl (hfree t ht), rfl⟩)
  cases writer with
  | thread t => exact Or.inl rfl
  | shard s' =>
      by_cases heq : s' = s
      · subst heq
        have hself : (m.setQueue s' (task.goOn task.ops :: (front ++ back))).queues s' =
            task.goOn task.ops :: (front ++ back) := Function.update_self _ _ _
        refine Or.inr ⟨?_, Or.inr ?_⟩
        · cases hq : m.queues s' with
          | nil => exact Or.inl (Or.inl (by simp only [running, hq]))
          | cons first rest =>
              right
              simp only [running, hq]
              exact hunbegun (by simp [hq])
        · have htask : m.Unbegun task.ops := hunbegun (by simp [hqueue])
          simp only [running, hself]
          exact htask
      · left
        simp only [running, setQueue, Function.update_of_ne heq]

private theorem replaces_waiting {t : Nat} {phase : Phase} (hphase : m.phase t = phase)
    (hne : ∀ ops, phase ≠ .logged (.direct ops)) {next : Phase}
    (hnext : ∀ ops, next = .logged (.direct ops) → m.Unbegun ops) (writer : Writer) :
    Replaces x m (m.setPhase t next) writer :=
  replaces_setPhase (Or.inl (running_thread hphase hne)) hnext writer

private theorem replaces_hand {t : Nat} {work : Work} (hphase : m.phase t = .logged work)
    (hne : ∀ ops, work ≠ .direct ops) {s : Fin 8} {task : Task}
    (hpart : (some s, task.ops) ∈ work.parts) {next : Phase}
    (hnext : ∀ ops, next ≠ .logged (.direct ops)) (writer : Writer) :
    Replaces x m ((m.enqueue s task).setPhase t next) writer := by
  cases writer with
  | thread t' =>
      exact replaces_waiting (m := m) hphase (fun ops heq => hne ops (Phase.logged.inj heq))
        (fun ops heq => absurd heq (hnext ops)) (.thread t')
  | shard s' => exact replaces_enqueue (m := m) (Or.inr (Or.inl ⟨t, work, hphase, s, hpart⟩)) s'

private theorem workStep_running {t : Nat} {work : Work} (hphase : m.phase t = .logged work) :
    (m.performs x (.work t) = none ∧ (m.workStep x t work).store = m.store ∧
        ∀ writer, Replaces x m (m.workStep x t work) writer) ∨
      ∃ writer o, m.performs x (.work t) = some o ∧
        m.running writer = o :: (m.workStep x t work).running writer ∧
        m.store.apply x o = some (m.workStep x t work).store ∧
        ∀ other, other ≠ writer → (m.workStep x t work).running other = m.running other := by
  match work with
  | .wait s task =>
      exact Or.inl ⟨by simp [performs, hphase], rfl,
        replaces_hand hphase (by simp) (by simp [Work.parts]) (by simp)⟩
  | .async [] =>
      exact Or.inl ⟨by simp [performs, hphase], rfl,
        replaces_waiting (m := m) hphase (by simp) (by simp)⟩
  | .async ((s, task) :: tasks) =>
      exact Or.inl ⟨by simp [performs, hphase], rfl,
        replaces_hand hphase (by simp) (by simp [Work.parts]) (by simp)⟩
  | .direct [] =>
      refine Or.inl ⟨by simp [performs, hphase], rfl, replaces_setPhase (Or.inl ?_) (by simp)⟩
      exact running_direct hphase
  | .direct (o :: ops) =>
      cases happly : m.store.apply x o with
      | none =>
          simp only [workStep, happly]
          refine Or.inl ⟨by simp [performs, hphase, happly], rfl,
            replaces_setPhase (Or.inr ⟨o, ops, running_direct hphase, happly⟩) (by simp)⟩
      | some st =>
          simp only [workStep, happly]
          refine Or.inr ⟨.thread t, o, by simp [performs, hphase, happly], ?_, happly, ?_⟩
          · rw [running_direct hphase, running_direct (Function.update_self _ _ _)]
          · intro other hother
            cases other with
            | shard s => rfl
            | thread t' =>
                have hne : t' ≠ t := fun heq => hother (heq ▸ rfl)
                simp only [running, setPhase_of_ne _ hne]

private theorem shardStep_running (howned : m.Owned) {s : Fin 8} {task : Task} {rest : List Task}
    (hqueue : m.queues s = task :: rest) :
    (m.performs x (.shard s) = none ∧ (m.shardStep x s task rest).store = m.store ∧
        ∀ writer, Replaces x m (m.shardStep x s task rest) writer) ∨
      ∃ writer o, m.performs x (.shard s) = some o ∧
        m.running writer = o :: (m.shardStep x s task rest).running writer ∧
        m.store.apply x o = some (m.shardStep x s task rest).store ∧
        ∀ other, other ≠ writer → (m.shardStep x s task rest).running other = m.running other := by
  have hover (hgone : m.Gone x task.ops) (writer : Writer) :
      Replaces x m ((m.setQueue s rest).wake task.owner) writer := by
    cases writer with
    | shard s' =>
        have hsame := replaces_setQueue hqueue hgone s'
        cases task.owner with
        | none => exact hsame
        | some t => exact hsame
    | thread t' =>
        cases howner : task.owner with
        | none => exact Or.inl rfl
        | some t =>
            have hwaiting : m.phase t = .waiting :=
              howned.waiting s t (by simp [owners, hqueue, howner])
            exact replaces_waiting (m := m) hwaiting (by simp) (by simp) (.thread t')
  cases hops : task.ops with
  | nil =>
      simp only [shardStep, hops]
      exact Or.inl ⟨by simp [performs, hqueue, hops], by simp [setQueue], hover (Or.inl hops)⟩
  | cons o ops =>
      cases happly : m.store.apply x o with
      | none =>
          simp only [shardStep, hops, happly]
          exact Or.inl ⟨by simp [performs, hqueue, hops, happly], by simp [setQueue],
            hover (Or.inr ⟨o, ops, hops, happly⟩)⟩
      | some st =>
          simp only [shardStep, hops, happly]
          refine Or.inr ⟨.shard s, o, by simp [performs, hqueue, hops, happly], ?_, happly, ?_⟩
          · simp [running, hqueue, hops, setQueue]
          · intro other hother
            cases other with
            | thread t => rfl
            | shard s' =>
                have hne : s' ≠ s := fun heq => hother (heq ▸ rfl)
                simp only [running, setQueue, Function.update_of_ne hne]

/-- What a step does to the lists that have been begun. -/
theorem Step.running (h : Step x u m event m') (howned : m.Owned) (hrestart : event ≠ .restart) :
    (m.performs x event = none ∧ m'.store = m.store ∧ ∀ writer, Replaces x m m' writer) ∨
      ∃ writer o, m.performs x event = some o ∧ m.running writer = o :: m'.running writer ∧
        m.store.apply x o = some m'.store ∧
        ∀ other, other ≠ writer → m'.running other = m.running other := by
  cases h with
  | start hidle =>
      exact Or.inl ⟨rfl, rfl, replaces_waiting (m := m) hidle (by simp) (by simp)⟩
  | refuse => exact Or.inl ⟨rfl, rfl, fun _ => Or.inl rfl⟩
  | @append t plan hphase =>
      refine Or.inl ⟨rfl, rfl, replaces_waiting (m := m) hphase (by simp) fun ops hops => ?_⟩
      injection hops with hwork
      exact Or.inl ⟨t, plan, hphase, none, by simp [hwork, Work.parts]⟩
  | work hphase => exact workStep_running hphase
  | take hqueue _ hfree => exact Or.inl ⟨rfl, rfl, replaces_take hqueue hfree⟩
  | shard hqueue => exact shardStep_running howned hqueue
  | restart => exact absurd rfl hrestart

private theorem Unbegun.of_setPhase {t : Nat} {phase : Phase} {ops : List ShardOp}
    (h : (m.setPhase t phase).Unbegun ops) : m.Unbegun ops ∨
      (∃ plan, phase = .planned plan ∧ ∃ place, (place, ops) ∈ plan.work.parts) ∨
      ∃ work, phase = .logged work ∧ ∃ s, (some s, ops) ∈ work.parts := by
  have hother {t' : Nat} (heq : t' ≠ t) := setPhase_of_ne m heq phase
  have hself : (m.setPhase t phase).phase t = phase := Function.update_self _ _ _
  rcases h with ⟨t', plan, hp, hops⟩ | ⟨t', work, hp, hops⟩ | hqueue
  · by_cases heq : t' = t
    · subst heq
      exact Or.inr (Or.inl ⟨plan, hself.symm.trans hp, hops⟩)
    · exact Or.inl (Or.inl ⟨t', plan, (hother heq).symm.trans hp, hops⟩)
  · by_cases heq : t' = t
    · subst heq
      exact Or.inr (Or.inr ⟨work, hself.symm.trans hp, hops⟩)
    · exact Or.inl (Or.inr (Or.inl ⟨t', work, (hother heq).symm.trans hp, hops⟩))
  · exact Or.inl (Or.inr (Or.inr hqueue))

private theorem Unbegun.of_queue {s : Fin 8} {tasks : List Task} {ops : List ShardOp}
    (h : (m.setQueue s tasks).Unbegun ops) :
    m.Unbegun ops ∨
      ∃ task ∈ tasks, (task.taken = false ∨ task ∈ tasks.tail) ∧ task.ops = ops := by
  rcases h with hplanned | hlogged | ⟨s', task, hmem, htask, hops⟩
  · exact Or.inl (Or.inl hplanned)
  · exact Or.inl (Or.inr (Or.inl hlogged))
  · by_cases heq : s' = s
    · subst heq
      simp only [setQueue, Function.update_self] at hmem htask
      exact Or.inr ⟨task, hmem, htask, hops⟩
    · simp only [setQueue, Function.update_of_ne heq] at hmem htask
      exact Or.inl (Or.inr (Or.inr ⟨s', task, hmem, htask, hops⟩))

private theorem Unbegun.of_wake {owner : Option Nat} {ops : List ShardOp}
    (h : (m.wake owner).Unbegun ops) : m.Unbegun ops := by
  cases owner with
  | none => exact h
  | some t =>
      rcases Unbegun.of_setPhase h with h | ⟨_, hphase, -⟩ | ⟨_, hphase, -⟩
      · exact h
      · cases hphase
      · cases hphase

private theorem Unbegun.of_enqueue {s : Fin 8} {task : Task} {ops : List ShardOp}
    (h : (m.enqueue s task).Unbegun ops) : m.Unbegun ops ∨ task.ops = ops := by
  rcases Unbegun.of_queue (m := m) h with h | ⟨task', hmem, htask, hops⟩
  · exact Or.inl h
  · rcases List.mem_append.mp hmem with hold | hnew
    · rcases htask with hfree | htail
      · exact Or.inl (Or.inr (Or.inr ⟨s, task', hold, Or.inl hfree, hops⟩))
      · rw [List.tail_append_of_ne_nil (List.ne_nil_of_mem hold), List.mem_append,
          List.mem_singleton] at htail
        rcases htail with htail | rfl
        · exact Or.inl (Or.inr (Or.inr ⟨s, task', hold, Or.inr htail, hops⟩))
        · exact Or.inr hops
    · rw [List.mem_singleton.mp hnew] at hops
      exact Or.inr hops

private theorem Unbegun.of_workStep {t : Nat} {work : Work} {ops : List ShardOp}
    (hphase : m.phase t = .logged work) (h : (m.workStep x t work).Unbegun ops) :
    m.Unbegun ops := by
  have hparts (place : Fin 8) (hpart : (some place, ops) ∈ work.parts) : m.Unbegun ops :=
    Or.inr (Or.inl ⟨t, work, hphase, place, hpart⟩)
  match work with
  | .wait s task =>
      rcases Unbegun.of_setPhase h with h | ⟨_, hphase, -⟩ | ⟨_, hphase, -⟩
      · rcases Unbegun.of_enqueue h with h | rfl
        · exact h
        · exact hparts s (by simp [Work.parts])
      · cases hphase
      · cases hphase
  | .async [] =>
      rcases Unbegun.of_setPhase h with h | ⟨_, hphase, -⟩ | ⟨_, hphase, -⟩
      · exact h
      · cases hphase
      · cases hphase
  | .async ((s, task) :: tasks) =>
      rcases Unbegun.of_setPhase h with h | ⟨_, hphase, -⟩ | ⟨_, hphase, place, hpart⟩
      · rcases Unbegun.of_enqueue h with h | rfl
        · exact h
        · exact hparts s (by simp [Work.parts])
      · cases hphase
      · cases hphase
        exact hparts place (List.mem_cons_of_mem _ hpart)
  | .direct [] =>
      rcases Unbegun.of_setPhase h with h | ⟨_, hphase, -⟩ | ⟨_, hphase, -⟩
      · exact h
      · cases hphase
      · cases hphase
  | .direct (o :: rest) =>
      rw [workStep] at h
      split at h
      · rcases Unbegun.of_setPhase h with h | ⟨_, hphase, -⟩ | ⟨_, hphase, -⟩
        · exact h
        · cases hphase
        · cases hphase
      · rcases Unbegun.of_setPhase h with h | ⟨_, hphase, -⟩ | ⟨_, hphase, _, hpart⟩
        · exact h
        · cases hphase
        · cases hphase
          simp [Work.parts] at hpart

theorem Step.unbegun (h : Step x u m event m') (hrestart : event ≠ .restart) {ops : List ShardOp}
    (hops : m'.Unbegun ops) :
    m.Unbegun ops ∨ ∃ t call clock plan place, event = .start t call ∧
      m.engine.prepare x u call = some (clock, .accepted plan) ∧ (place, ops) ∈ plan.work.parts := by
  cases h with
  | @start t call clock plan hidle hprep =>
      rcases Unbegun.of_setPhase hops with h | ⟨_, hphase, place, hpart⟩ | ⟨_, hphase, -⟩
      · exact Or.inl h
      · cases hphase
        exact Or.inr ⟨t, call, clock, plan, place, rfl, hprep, hpart⟩
      · cases hphase
  | refuse => exact Or.inl hops
  | @append t plan hphase =>
      left
      rcases Unbegun.of_setPhase hops with h | ⟨_, hnext, -⟩ | ⟨_, hnext, s, hpart⟩
      · exact h
      · cases hnext
      · cases hnext
        exact Or.inl ⟨t, plan, hphase, some s, hpart⟩
  | work hphase => exact Or.inl (Unbegun.of_workStep hphase hops)
  | @take s task front back hqueue _ hfree =>
      left
      rcases Unbegun.of_queue (m := m) hops with h | ⟨task', hmem, htask, hops⟩
      · exact h
      · have hold : task' ∈ front ++ back := by
          rcases List.mem_cons.mp hmem with rfl | hmem
          · exact htask.resolve_left (by simp [Task.goOn])
          · exact hmem
        have hmem := Task.mem_of_left hqueue hold
        exact Or.inr (Or.inr ⟨s, task', hmem, Or.inl (hfree task' hmem), hops⟩)
  | @shard s task rest hqueue =>
      left
      have hbehind {task' : Task} (hmem : task' ∈ rest) (hops : task'.ops = ops) : m.Unbegun ops :=
        Or.inr (Or.inr ⟨s, task', by simp [hqueue, hmem], Or.inr (by simp [hqueue, hmem]), hops⟩)
      have hrest (h : (m.setQueue s rest).Unbegun ops) : m.Unbegun ops := by
        rcases Unbegun.of_queue h with h | ⟨task', hmem, -, hops⟩
        · exact h
        · exact hbehind hmem hops
      rw [shardStep] at hops
      split at hops
      · exact hrest (Unbegun.of_wake hops)
      · split at hops
        · exact hrest (Unbegun.of_wake hops)
        · rcases Unbegun.of_queue (m := m) hops with h | ⟨task', hmem, htask, hops⟩
          · exact h
          · rcases List.mem_cons.mp hmem with rfl | hmem
            · exact hbehind (htask.resolve_left (by simp [Task.goOn])) hops
            · exact hbehind hmem hops
  | restart => exact absurd rfl hrestart

end

end Machine

end L3KV
