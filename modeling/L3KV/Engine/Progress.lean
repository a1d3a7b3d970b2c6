import Mathlib.Algebra.BigOperators.Fin
import L3KV.Engine.Threads
import L3KV.Framework.Rest
import L3KV.Store.Reference

/-!
# Every call returns

A call that has begun logs, hands tasks over or applies operations itself, and may have to wait for
the thread of a shard. Each of these steps is work that was still to be done, and nobody waits for a
task that is in no queue. So however the threads take turns, the calls under way come to an end.
-/

namespace L3KV

open Framework

/-- The steps that go on with calls that have begun. -/
def Event.Continues : Event → Prop
  | append _ => True
  | work _ => True
  | take .. => True
  | shard _ => True
  | _ => False

instance (event : Event) : Decidable event.Continues :=
  match event with
  | .start .. => isFalse id
  | .refuse .. => isFalse id
  | .append _ => isTrue trivial
  | .work _ => isTrue trivial
  | .take .. => isTrue trivial
  | .shard _ => isTrue trivial
  | .restart => isFalse id

/-- The steps that a shard can make with a task: it dequeues it, performs its operations and ends it. -/
def taskSteps (ops : List ShardOp) : Nat := ops.length + 2

def Task.steps (task : Task) : Nat :=
  if task.taken then task.ops.length + 1 else taskSteps task.ops

/-- The steps that are needed after the call has logged, by whichever thread. -/
def Work.steps : Work → Nat
  | wait _ task => taskSteps task + 1
  | async tasks => (tasks.map fun w => taskSteps w.2 + 1).sum + 1
  | direct ops => ops.length + 1

def Phase.steps : Phase → Nat
  | planned plan => plan.work.steps + 1
  | logged work => work.steps
  | _ => 0

private theorem Task.steps_pos (task : Task) : 0 < task.steps := by
  unfold Task.steps taskSteps
  split <;> omega

namespace Machine

def queueSteps (tasks : List Task) : Nat := (tasks.map Task.steps).sum

/-- The steps that are left for calls of the first `n` threads and for the shards. -/
def stepsLeft (n : Nat) (m : Machine) : Nat :=
  ∑ t ∈ Finset.range n, (m.phase t).steps + ∑ s, queueSteps (m.queues s)

/-- Only the first `n` threads have made calls, and who waits has a task in a queue. -/
structure Served (n : Nat) (m : Machine) : Prop where
  idle : ∀ t, ¬ t < n → m.phase t = .idle
  queued : ∀ t, m.phase t = .waiting → ∃ s, t ∈ m.owners s

@[simp] theorem queueSteps_append (tasks more : List Task) :
    queueSteps (tasks ++ more) = queueSteps tasks + queueSteps more := by
  simp [queueSteps]

@[simp] theorem queueSteps_cons (task : Task) (tasks : List Task) :
    queueSteps (task :: tasks) = task.steps + queueSteps tasks := by
  simp [queueSteps]

@[simp] theorem queueSteps_nil : queueSteps [] = 0 := rfl

section

variable {x : External} {u : Nat → Nat → UInt8} {n : Nat} {m m' : Machine}

private theorem stepsLeft_setPhase {t : Nat} (ht : t < n) (phase : Phase) :
    (m.setPhase t phase).stepsLeft n + (m.phase t).steps = m.stepsLeft n + phase.steps := by
  have hsum := sum_update_add (Finset.range n) Phase.steps m.phase (Finset.mem_range.mpr ht) phase
  simp only [stepsLeft, setPhase]
  omega

private theorem stepsLeft_setQueue (s : Fin 8) (tasks : List Task) :
    (m.setQueue s tasks).stepsLeft n + queueSteps (m.queues s) = m.stepsLeft n + queueSteps tasks := by
  have hsum := sum_update_add Finset.univ queueSteps m.queues (Finset.mem_univ s) tasks
  simp only [stepsLeft, setQueue]
  omega

private theorem stepsLeft_enqueue (s : Fin 8) (task : Task) :
    (m.enqueue s task).stepsLeft n = m.stepsLeft n + task.steps := by
  have hset : m.enqueue s task = m.setQueue s (m.queues s ++ [task]) := rfl
  have hsum := stepsLeft_setQueue (n := n) (m := m) s (m.queues s ++ [task])
  rw [hset]
  simp only [queueSteps_append, queueSteps_cons, queueSteps_nil] at hsum
  omega

private theorem stepsLeft_wake_le (owner : Option Nat) :
    (m.wake owner).stepsLeft n ≤ m.stepsLeft n := by
  cases owner with
  | none => exact le_refl _
  | some t =>
      by_cases ht : t < n
      · have hset := stepsLeft_setPhase (m := m) ht .idle
        have hzero : Phase.steps .idle = 0 := rfl
        rw [wake]
        omega
      · apply Nat.add_le_add_right
        apply le_of_eq
        apply Finset.sum_congr rfl
        intro i hi
        have hne : i ≠ t := by
          rintro rfl
          exact ht (Finset.mem_range.mp hi)
        rw [wake, m.setPhase_of_ne hne]

private theorem stepsLeft_congr (hphase : m'.phase = m.phase) (hqueues : m'.queues = m.queues) :
    m'.stepsLeft n = m.stepsLeft n := by
  rw [stepsLeft, stepsLeft, hphase, hqueues]

private theorem stepsLeft_workStep {t : Nat} (ht : t < n) {work : Work}
    (hphase : m.phase t = .logged work) :
    (m.workStep x t work).stepsLeft n < m.stepsLeft n := by
  have hset (phase : Phase) := stepsLeft_setPhase (m := m) ht phase
  rw [hphase] at hset
  match work with
  | .wait s task =>
      have henqueue := stepsLeft_enqueue (n := n) (m := m) s ⟨t, some t, task, false⟩
      have hwait := stepsLeft_setPhase (m := m.enqueue s ⟨t, some t, task, false⟩) ht .waiting
      rw [show (m.enqueue s ⟨t, some t, task, false⟩).phase t = .logged (.wait s task) from hphase]
        at hwait
      simp only [Phase.steps, Work.steps, Task.steps, Bool.false_eq_true, if_false]
        at hwait henqueue
      rw [workStep]
      omega
  | .async [] =>
      have hidle := hset .idle
      simp only [Phase.steps, Work.steps, List.map_nil, List.sum_nil] at hidle
      rw [workStep]
      omega
  | .async ((s, task) :: tasks) =>
      have henqueue := stepsLeft_enqueue (n := n) (m := m) s ⟨t, none, task, false⟩
      have hnext := stepsLeft_setPhase (m := m.enqueue s ⟨t, none, task, false⟩) ht
        (.logged (.async tasks))
      rw [show (m.enqueue s ⟨t, none, task, false⟩).phase t =
        .logged (.async ((s, task) :: tasks)) from hphase] at hnext
      simp only [Phase.steps, Work.steps, List.map_cons, List.sum_cons, Task.steps,
        Bool.false_eq_true, if_false] at hnext henqueue
      rw [workStep]
      omega
  | .direct [] =>
      have hidle := hset .idle
      simp only [Phase.steps, Work.steps, List.length_nil] at hidle
      rw [workStep]
      omega
  | .direct (o :: ops) =>
      simp only [workStep]
      split
      · have hidle := hset .idle
        simp only [Phase.steps, Work.steps, List.length_cons] at hidle
        omega
      · rename_i st happly
        have hnext := hset (.logged (.direct ops))
        have hstore : ({ m with store := st }.setPhase t (.logged (.direct ops))).stepsLeft n =
            (m.setPhase t (.logged (.direct ops))).stepsLeft n := stepsLeft_congr rfl rfl
        simp only [Phase.steps, Work.steps, List.length_cons] at hnext
        omega

private theorem stepsLeft_shardStep {s : Fin 8} {task : Task} {rest : List Task}
    (hqueue : m.queues s = task :: rest) :
    (m.shardStep x s task rest).stepsLeft n < m.stepsLeft n := by
  have hset (tasks : List Task) := stepsLeft_setQueue (n := n) (m := m) s tasks
  simp only [hqueue, queueSteps_cons] at hset
  have hpop : ((m.setQueue s rest).wake task.owner).stepsLeft n < m.stepsLeft n := by
    have hwake := stepsLeft_wake_le (n := n) (m := m.setQueue s rest) task.owner
    have hrest := hset rest
    have hpos := task.steps_pos
    omega
  unfold shardStep
  split
  · exact hpop
  · rename_i o ops hops
    split
    · exact hpop
    · rename_i st happly
      have hnext := hset (task.goOn ops :: rest)
      have hstore : ({ m with store := st }.setQueue s (task.goOn ops :: rest)).stepsLeft n =
          (m.setQueue s (task.goOn ops :: rest)).stepsLeft n := stepsLeft_congr rfl rfl
      have hless : (task.goOn ops).steps < task.steps := by
        simp only [Task.steps, Task.goOn, taskSteps, hops, List.length_cons, if_true]
        split <;> omega
      simp only [queueSteps_cons] at hnext
      omega

private theorem stepsLeft_take {s : Fin 8} {task : Task} {front back : List Task}
    (hqueue : m.queues s = front ++ task :: back) (hfree : task.taken = false) :
    (m.setQueue s (task.goOn task.ops :: (front ++ back))).stepsLeft n < m.stepsLeft n := by
  have hset := stepsLeft_setQueue (n := n) (m := m) s (task.goOn task.ops :: (front ++ back))
  have hless : (task.goOn task.ops).steps < task.steps := by
    simp [Task.steps, Task.goOn, taskSteps, hfree]
  simp only [hqueue, queueSteps_cons, queueSteps_append] at hset
  omega

namespace Served

theorem lt (h : Served n m) {t : Nat} (hbusy : m.phase t ≠ .idle) : t < n := by
  by_contra hge
  exact hbusy (h.idle t hge)

theorem setPhase (h : Served n m) {t : Nat} (ht : t < n) {phase : Phase}
    (hphase : phase ≠ .waiting) :
    Served n (m.setPhase t phase) := by
  constructor
  · intro i hi
    rw [m.setPhase_of_ne (by omega)]
    exact h.idle i hi
  · intro i hwaiting
    by_cases heq : i = t
    · subst heq
      exact absurd ((Function.update_self ..).symm.trans hwaiting) hphase
    · rw [m.setPhase_of_ne heq] at hwaiting
      exact h.queued i hwaiting

theorem enqueue (h : Served n m) (s : Fin 8) (task : Task) : Served n (m.enqueue s task) := by
  refine ⟨h.idle, fun t hwaiting => ?_⟩
  obtain ⟨s', hs'⟩ := h.queued t hwaiting
  refine ⟨s', ?_⟩
  by_cases heq : s' = s
  · subst heq
    simp only [owners, Machine.enqueue, Function.update_self, List.filterMap_append]
    exact List.mem_append_left _ hs'
  · simpa only [owners, Machine.enqueue, Function.update_of_ne heq] using hs'

theorem enqueue_wait (h : Served n m) {t : Nat} (ht : t < n) (s : Fin 8) (ops : List ShardOp) :
    Served n ((m.enqueue s ⟨t, some t, ops, false⟩).setPhase t .waiting) := by
  have hqueue := h.enqueue s ⟨t, some t, ops, false⟩
  constructor
  · intro i hi
    rw [Machine.setPhase_of_ne _ (by omega)]
    exact h.idle i hi
  · intro i hwaiting
    by_cases heq : i = t
    · subst heq
      refine ⟨s, ?_⟩
      simp [owners, Machine.setPhase, Machine.enqueue]
    · rw [Machine.setPhase_of_ne _ heq] at hwaiting
      exact hqueue.queued i hwaiting

theorem pop (h : Served n m) {s : Fin 8} {task : Task} {rest : List Task}
    (hqueue : m.queues s = task :: rest) : Served n ((m.setQueue s rest).wake task.owner) := by
  have hphase (t : Nat) : ((m.setQueue s rest).wake task.owner).phase t =
      if task.owner = some t then .idle else m.phase t := by
    cases task.owner with
    | none => rfl
    | some owner => simp [wake, Machine.setPhase, Machine.setQueue, Function.update_apply, eq_comm]
  constructor
  · intro t ht
    rw [hphase]
    split
    · rfl
    · exact h.idle t ht
  · intro t hwaiting
    rw [hphase] at hwaiting
    split at hwaiting
    · cases hwaiting
    · rename_i hother
      obtain ⟨s', hs'⟩ := h.queued t hwaiting
      refine ⟨s', ?_⟩
      rw [owners, wake_queues, ← owners, owners_setQueue]
      split
      · rename_i heq
        subst heq
        rw [owners, hqueue, List.filterMap_cons] at hs'
        split at hs'
        · exact hs'
        · rename_i owner howner
          rcases List.mem_cons.mp hs' with rfl | hs'
          · exact absurd howner hother
          · exact hs'
      · exact hs'

theorem congr (h : Served n m) (hphase : m'.phase = m.phase)
    (howners : ∀ s, m'.owners s = m.owners s) : Served n m' := by
  constructor
  · simpa only [hphase] using h.idle
  · simpa only [hphase, howners] using h.queued

end Served

theorem Served.step (h : Served n m) {event : Event} (hcontinues : event.Continues)
    (hstep : m.step x u event = some m') : Served n m' ∧ m'.stepsLeft n < m.stepsLeft n := by
  cases step_sound hstep with
  | start => exact hcontinues.elim
  | refuse => exact hcontinues.elim
  | restart => exact hcontinues.elim
  | @append t plan hphase =>
      have ht : t < n := h.lt (by simp [hphase])
      have hset := stepsLeft_setPhase (m := m) ht (.logged plan.work)
      rw [hphase] at hset
      have hserved : Served n (m.setPhase t (.logged plan.work)) := h.setPhase ht (by simp)
      refine ⟨hserved.congr rfl fun _ => rfl, ?_⟩
      have hlog : ({ m with wal := m.wal.appendBatch plan.logged }.setPhase t
          (.logged plan.work)).stepsLeft n = (m.setPhase t (.logged plan.work)).stepsLeft n :=
        stepsLeft_congr rfl rfl
      simp only [Phase.steps] at hset
      omega
  | @work t work hphase =>
      have ht : t < n := h.lt (by simp [hphase])
      refine ⟨?_, stepsLeft_workStep ht hphase⟩
      unfold workStep
      split
      · exact h.enqueue_wait ht _ _
      · exact h.setPhase ht (by simp)
      · exact (h.enqueue _ _).setPhase ht (by simp)
      · exact h.setPhase ht (by simp)
      · split
        · exact h.setPhase ht (by simp)
        · exact (h.setPhase ht (by simp)).congr rfl fun _ => rfl
  | @take s task front back hqueue hfront hfree =>
      refine ⟨⟨h.idle, fun t hwaiting => ?_⟩, stepsLeft_take hqueue (hfree task (by simp [hqueue]))⟩
      obtain ⟨s', hs'⟩ := h.queued t hwaiting
      obtain ⟨before, hbefore, howner⟩ := List.mem_filterMap.mp hs'
      obtain ⟨after, hafter, -, -, hsame⟩ := mem_take_of_mem hqueue hbefore
      exact ⟨s', List.mem_filterMap.mpr ⟨after, hafter, hsame.trans howner⟩⟩
  | @shard s task rest hqueue =>
      refine ⟨?_, stepsLeft_shardStep hqueue⟩
      unfold shardStep
      split
      · exact h.pop hqueue
      · split
        · exact h.pop hqueue
        · apply h.congr (by rfl)
          intro s'
          rw [owners_setQueue]
          split
          · rename_i hs
            rw [hs, owners, hqueue, List.filterMap_cons, List.filterMap_cons, Task.goOn_owner]
          · rfl

/-- A machine that is not at rest can make a step. -/
theorem Served.exists_step (h : Served n m) (hquiet : ¬ m.Quiet) :
    ∃ event m', event.Continues ∧ m.step x u event = some m' := by
  by_cases hdrained : ∀ s, m.queues s = []
  · -- The queues are empty, so nobody waits, and who has begun can go on by themselves.
    have hbusy : ∃ t, m.phase t ≠ .idle := by
      by_contra hnone
      push Not at hnone
      exact hquiet ⟨hnone, hdrained⟩
    obtain ⟨t, ht⟩ := hbusy
    cases hphase : m.phase t with
    | idle => exact absurd hphase ht
    | planned plan => exact ⟨.append t, _, trivial, by rw [Machine.step, hphase]⟩
    | logged work => exact ⟨.work t, _, trivial, by rw [Machine.step, hphase]⟩
    | waiting =>
        obtain ⟨s, hs⟩ := h.queued t hphase
        rw [owners, hdrained s] at hs
        cases hs
  · push Not at hdrained
    obtain ⟨s, hs⟩ := hdrained
    obtain ⟨task, rest, hqueue⟩ := List.exists_cons_of_ne_nil hs
    exact ⟨.shard s, _, trivial, by rw [Machine.step, hqueue]⟩

private theorem served_of_run {nodeId : UInt32} {file : Bytes} {events : List Event}
    (hthreads : ∀ event ∈ events, ∀ t ∈ event.thread?, t < n)
    (hrun : (ofEngine (Engine.openOn x nodeId file)).run x u events = some m) : Served n m := by
  have hopen (e : Engine) : Served n (ofEngine e) := ⟨fun _ _ => rfl, fun t ht => by cases ht⟩
  have hP : EveryStep (Machine.step x u) (ofEngine (Engine.openOn x nodeId file)) events
      fun _ event => ∀ t ∈ event.thread?, t < n := by
    intro before event after hsplit _ _
    exact hthreads event (by simp [hsplit])
  apply run_invariant (fun _ m => Served n m) (hopen _) _ hP hrun
  intro _ m₁ event m₂ hserved hthread hstep
  by_cases hcontinues : event.Continues
  · exact (hserved.step hcontinues hstep).1
  · cases step_sound hstep with
    | @start t call clock plan hidle hprep =>
        exact (hserved.setPhase (hthread t rfl) (by simp)).congr rfl fun _ => rfl
    | refuse => exact hserved.congr rfl fun _ => rfl
    | append => exact absurd trivial hcontinues
    | work => exact absurd trivial hcontinues
    | take => exact absurd trivial hcontinues
    | shard => exact absurd trivial hcontinues
    | restart => exact hopen _

end

end Machine

section

variable {x : External} {u : Nat → Nat → UInt8}

/-- From every state that calls of `n` threads, the shards and restarts lead to: however the threads
go on with what has begun, they make at most `stepsLeft` steps, they are stuck only when every call
has returned and every queue is empty, and they can always get there. -/
theorem calls_return {nodeId : UInt32} {file : Bytes} {events : List Event} {n : Nat}
    (hthreads : ∀ event ∈ events, ∀ t ∈ event.thread?, t < n) {m : Machine}
    (hrun : (Machine.ofEngine (Engine.openOn x nodeId file)).run x u events = some m) :
    (∀ more m', (∀ event ∈ more, event.Continues) → m.run x u more = some m' →
      more.length + m'.stepsLeft n ≤ m.stepsLeft n ∧
        ((∀ event : Event, event.Continues → m'.step x u event = none) ↔ m'.Quiet)) ∧
      ∃ more m', (∀ event ∈ more, event.Continues) ∧ m.run x u more = some m' ∧ m'.Quiet := by
  have hserved := Machine.served_of_run hthreads hrun
  have hlower : ∀ s event s', Machine.Served n s → event.Continues →
      Machine.step x u s event = some s' → Machine.Served n s' ∧ s'.stepsLeft n < s.stepsLeft n :=
    fun s event s' hs hevent hnext => hs.step hevent hnext
  constructor
  · intro more m' hmore hrun'
    obtain ⟨hserved', hle⟩ := run_length_le hlower hserved hmore hrun'
    refine ⟨hle, fun hstuck => ?_, fun hquiet event hevent => ?_⟩
    · by_contra hquiet
      obtain ⟨event, next, hevent, hnext⟩ := hserved'.exists_step (x := x) (u := u) hquiet
      rw [hstuck event hevent] at hnext
      cases hnext
    · cases event with
      | append t => simp [Machine.step, hquiet.idle]
      | work t => simp [Machine.step, hquiet.idle]
      | take s producer => simp [Machine.step, hquiet.drained, Task.dequeue?]
      | shard s => simp [Machine.step, hquiet.drained]
      | _ => exact hevent.elim
  · exact exists_run_rest hlower (fun s hs hquiet => hs.exists_step hquiet) hserved

private def busyX : External := External.reference fun _ => 0

private def busyRun : List Event :=
  [.start 0 (.put (ascii "k") (ascii "v") adminUid [1]), .append 0, .work 0,
    .start 1 (.applyMutation ⟨⟨2, 0, 2⟩, ascii "k", ascii "w", false⟩)]

theorem calls_return_busy :
    ∃ m, (Machine.ofEngine (Engine.openOn busyX 1 [])).run busyX (fun _ _ => 0) busyRun = some m ∧
      m.stepsLeft 2 = 8 ∧
      ∃ more m', more.length ≤ 8 ∧ m.run busyX (fun _ _ => 0) more = some m' ∧ m'.Quiet := by
  have hrun : ((Machine.ofEngine (Engine.openOn busyX 1 [])).run busyX (fun _ _ => 0) busyRun).map
      (fun m => m.stepsLeft 2) = some 8 := by decide
  obtain ⟨m, hrun, hleft⟩ := Option.map_eq_some_iff.mp hrun
  obtain ⟨hbound, more, m', hmore, hrun', hquiet⟩ := calls_return (n := 2) (by decide) hrun
  have hlength := (hbound more m' hmore hrun').1
  exact ⟨m, hrun, hleft, more, m', by omega, hrun', hquiet⟩

end

end L3KV
