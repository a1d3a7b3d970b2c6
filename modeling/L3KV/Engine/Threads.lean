import L3KV.Engine.Calls
import L3KV.Framework.Runs

/-!
# Calls of several threads

Between its lock-protected steps a call can be overtaken by other calls and by the threads of the
shards. A machine is an engine together with how far every thread has come with its call; an event
is one such step. `Step` says what each event does. A shard queue keeps the order of the tasks that
one thread hands over, and no order between threads.
-/

namespace L3KV

open Framework

/-- An entry of a shard queue. -/
structure Task where
  /-- The thread that handed the task over. -/
  producer : Nat
  /-- Who waits for the end of the task. -/
  owner : Option Nat
  ops : List ShardOp
  /-- Whether the thread of the shard has dequeued it; `ops` is then what is left. -/
  taken : Bool
  deriving DecidableEq

namespace Task

/-- The task in the hands of its shard, with that much left. -/
def goOn (task : Task) (ops : List ShardOp) : Task := { task with ops := ops, taken := true }

@[simp] theorem goOn_ops (task : Task) (ops : List ShardOp) : (task.goOn ops).ops = ops := rfl

@[simp] theorem goOn_owner (task : Task) (ops : List ShardOp) :
    (task.goOn ops).owner = task.owner := rfl

@[simp] theorem goOn_producer (task : Task) (ops : List ShardOp) :
    (task.goOn ops).producer = task.producer := rfl

/-- The queue once its thread has dequeued the next task of a producer. It dequeues when it has
nothing in hand, and what other producers handed over earlier may stay behind. -/
def dequeue? (tasks : List Task) (producer : Nat) : Option (List Task) :=
  if ∀ task ∈ tasks, task.taken = false then
    (tasks.find? (·.producer == producer)).map fun task =>
      task.goOn task.ops :: tasks.eraseP (·.producer == producer)
  else none

theorem mem_of_left {tasks front back : List Task} {task t : Task}
    (hqueue : tasks = front ++ task :: back) (h : t ∈ front ++ back) : t ∈ tasks := by
  rw [hqueue]
  exact List.perm_middle.mem_iff.mpr (List.mem_cons_of_mem _ h)

private theorem erase_first {front : List Task} {task : Task}
    (hfront : ∀ other ∈ front, other.producer ≠ task.producer) (back : List Task) :
    (front ++ task :: back).eraseP (·.producer == task.producer) = front ++ back := by
  rw [List.eraseP_append_right _ (by simpa using hfront)]
  simp

theorem dequeue?_eq {tasks front back : List Task} {task : Task}
    (hqueue : tasks = front ++ task :: back)
    (hfront : ∀ other ∈ front, other.producer ≠ task.producer) (hfree : ∀ t ∈ tasks, t.taken = false) :
    dequeue? tasks task.producer = some (task.goOn task.ops :: (front ++ back)) := by
  have hfirst : tasks.find? (·.producer == task.producer) = some task :=
    List.find?_eq_some_iff_append.mpr ⟨by simp, front, back, hqueue, by simpa using hfront⟩
  rw [dequeue?, if_pos hfree, hfirst, Option.map_some, hqueue, erase_first hfront]

private theorem dequeue?_eq_some {tasks after : List Task} {producer : Nat}
    (h : dequeue? tasks producer = some after) : ∃ front task back,
      tasks = front ++ task :: back ∧ task.producer = producer ∧
        (∀ other ∈ front, other.producer ≠ producer) ∧ (∀ t ∈ tasks, t.taken = false) ∧
          after = task.goOn task.ops :: (front ++ back) := by
  unfold dequeue? at h
  split at h
  · rename_i hfree
    obtain ⟨task, hfind, rfl⟩ := Option.map_eq_some_iff.mp h
    obtain ⟨hown, front, back, rfl, hothers⟩ := List.find?_eq_some_iff_append.mp hfind
    obtain rfl : task.producer = producer := by simpa using hown
    have hfront : ∀ other ∈ front, other.producer ≠ task.producer := by simpa using hothers
    exact ⟨front, task, back, rfl, rfl, hfront, hfree, by rw [erase_first hfront]⟩
  · cases h

end Task

/-- How far a thread has come with its call. -/
inductive Phase where
  | idle
  /-- The timestamp is taken, or the stored one was read; nothing is logged. -/
  | planned (plan : Plan)
  | logged (work : Work)
  | waiting
  deriving DecidableEq

inductive Event where
  /-- A call begins and gets as far as its plan. -/
  | start (thread : Nat) (call : Call)
  /-- A call begins and ends without a plan. -/
  | refuse (thread : Nat) (call : Call)
  | append (thread : Nat)
  /-- One step of what a call does after it has logged. -/
  | work (thread : Nat)
  /-- The thread of a shard dequeues the next task of a producer. -/
  | take (shard : Fin 8) (producer : Nat)
  /-- One step of the thread of a shard with its first task, which it dequeues if it has none. -/
  | shard (shard : Fin 8)
  /-- The process ends and the engine is opened again on the same file. -/
  | restart

/-- The thread that makes the step, other than the threads of the shards. -/
def Event.thread? : Event → Option Nat
  | .start thread _ => some thread
  | .refuse thread _ => some thread
  | .append thread => some thread
  | .work thread => some thread
  | .take .. => none
  | .shard _ => none
  | .restart => none

structure Machine where
  store : Store
  clock : HybridLogicalClock
  wal : LogFile
  /-- What its shard has dequeued comes first in a queue. -/
  queues : Fin 8 → List Task
  phase : Nat → Phase

namespace Machine

/-- The engine of a machine, with the tasks that are queued. -/
def engine (m : Machine) : Engine :=
  ⟨m.store, fun shard => (m.queues shard).map Task.ops, m.clock, m.wal⟩

/-- An engine that nobody is calling. What it has queued comes from one thread. -/
def ofEngine (e : Engine) : Machine :=
  ⟨e.store, e.clock, e.wal, fun shard => (e.queues shard).map fun ops => ⟨0, none, ops, false⟩,
    fun _ => .idle⟩

def setPhase (m : Machine) (thread : Nat) (phase : Phase) : Machine :=
  { m with phase := Function.update m.phase thread phase }

def enqueue (m : Machine) (shard : Fin 8) (task : Task) : Machine :=
  { m with queues := Function.update m.queues shard (m.queues shard ++ [task]) }

/-- The promise of a finished task is kept. -/
def wake (m : Machine) (owner : Option Nat) : Machine :=
  match owner with
  | none => m
  | some thread => m.setPhase thread .idle

def setQueue (m : Machine) (shard : Fin 8) (tasks : List Task) : Machine :=
  { m with queues := Function.update m.queues shard tasks }

section

variable (x : External) (u : Nat → Nat → UInt8)

/-- The next step of a call that has logged. -/
def workStep (m : Machine) (thread : Nat) : Work → Machine
  | .wait shard task => (m.enqueue shard ⟨thread, some thread, task, false⟩).setPhase thread .waiting
  | .async [] => m.setPhase thread .idle
  | .async ((shard, task) :: tasks) =>
      (m.enqueue shard ⟨thread, none, task, false⟩).setPhase thread (.logged (.async tasks))
  | .direct [] => m.setPhase thread .idle
  | .direct (o :: ops) =>
      match m.store.apply x o with
      | none => m.setPhase thread .idle
      | some st => { m with store := st }.setPhase thread (.logged (.direct ops))

/-- The next step of the thread of a shard: an operation of the first task, or its end. -/
def shardStep (m : Machine) (shard : Fin 8) (task : Task) (rest : List Task) : Machine :=
  match task.ops with
  | [] => (m.setQueue shard rest).wake task.owner
  | o :: ops =>
      match m.store.apply x o with
      | none => (m.setQueue shard rest).wake task.owner
      | some st => { m with store := st }.setQueue shard (task.goOn ops :: rest)

def step (m : Machine) : Event → Option Machine
  | .start thread call =>
      match m.phase thread, m.engine.prepare x u call with
      | .idle, some (clock, .accepted plan) =>
          some ({ m with clock := clock }.setPhase thread (.planned plan))
      | _, _ => none
  | .refuse thread call =>
      match m.phase thread, m.engine.prepare x u call with
      | .idle, some (clock, .refused _) => some { m with clock := clock }
      | _, _ => none
  | .append thread =>
      match m.phase thread with
      | .planned plan =>
          some ({ m with wal := m.wal.appendBatch plan.logged }.setPhase thread (.logged plan.work))
      | _ => none
  | .work thread =>
      match m.phase thread with
      | .logged work => some (m.workStep x thread work)
      | _ => none
  | .take shard producer => (Task.dequeue? (m.queues shard) producer).map (m.setQueue shard)
  | .shard shard =>
      match m.queues shard with
      | [] => none
      | task :: rest => some (m.shardStep x shard task rest)
  | .restart => some (ofEngine (Engine.openOn x m.clock.nodeId m.wal.bytes))

def run (m : Machine) (events : List Event) : Option Machine := events.foldlM (step x u) m

end

/-- No call is under way and every queue is empty. -/
structure Quiet (m : Machine) : Prop where
  idle : ∀ thread, m.phase thread = .idle
  drained : ∀ shard, m.queues shard = []

/-- What the events do, one constructor for each step of the source. -/
inductive Step (x : External) (u : Nat → Nat → UInt8) : Machine → Event → Machine → Prop
  | start {m thread call clock plan} (hidle : m.phase thread = .idle)
      (hprep : m.engine.prepare x u call = some (clock, .accepted plan)) :
      Step x u m (.start thread call)
        ({ m with clock := clock }.setPhase thread (.planned plan))
  | refuse {m thread call clock result} (hidle : m.phase thread = .idle)
      (hprep : m.engine.prepare x u call = some (clock, .refused result)) :
      Step x u m (.refuse thread call) { m with clock := clock }
  | append {m thread plan} (hphase : m.phase thread = .planned plan) :
      Step x u m (.append thread)
        ({ m with wal := m.wal.appendBatch plan.logged }.setPhase thread (.logged plan.work))
  | work {m thread work} (hphase : m.phase thread = .logged work) :
      Step x u m (.work thread) (m.workStep x thread work)
  | take {m shard task front back} (hqueue : m.queues shard = front ++ task :: back)
      (hfront : ∀ other ∈ front, other.producer ≠ task.producer)
      (hfree : ∀ t ∈ m.queues shard, t.taken = false) :
      Step x u m (.take shard task.producer)
        (m.setQueue shard (task.goOn task.ops :: (front ++ back)))
  | shard {m shard task rest} (hqueue : m.queues shard = task :: rest) :
      Step x u m (.shard shard) (m.shardStep x shard task rest)
  | restart {m} :
      Step x u m .restart (ofEngine (Engine.openOn x m.clock.nodeId m.wal.bytes))

section

variable {x : External} {u : Nat → Nat → UInt8}

theorem step_sound {m m' : Machine} {event : Event} (h : m.step x u event = some m') :
    Step x u m event m' := by
  cases event with
  | start thread call =>
      simp only [step] at h
      split at h
      · rename_i hidle hprep
        cases h
        exact .start hidle hprep
      · cases h
  | refuse thread call =>
      simp only [step] at h
      split at h
      · rename_i hidle hprep
        cases h
        exact .refuse hidle hprep
      · cases h
  | append thread =>
      simp only [step] at h
      split at h
      · rename_i hphase
        cases h
        exact .append hphase
      · cases h
  | work thread =>
      simp only [step] at h
      split at h
      · rename_i hphase
        cases h
        exact .work hphase
      · cases h
  | take shard producer =>
      obtain ⟨after, hdequeue, rfl⟩ := Option.map_eq_some_iff.mp h
      obtain ⟨front, task, back, hqueue, rfl, hfront, hfree, rfl⟩ := Task.dequeue?_eq_some hdequeue
      exact .take hqueue hfront hfree
  | shard shard =>
      simp only [step] at h
      split at h
      · cases h
      · rename_i hqueue
        cases h
        exact .shard hqueue
  | restart =>
      cases h
      exact .restart

theorem setPhase_of_ne (m : Machine) {thread other : Nat} (h : other ≠ thread) (phase : Phase) :
    (m.setPhase thread phase).phase other = m.phase other := Function.update_of_ne h _ _

theorem shardStep_applies {m : Machine} {shard : Fin 8} {task : Task} {o : ShardOp}
    {ops : List ShardOp} {st : Store} (htask : task.ops = o :: ops)
    (happly : m.store.apply x o = some st) (rest : List Task) :
    m.shardStep x shard task rest =
      { m with store := st }.setQueue shard (task.goOn ops :: rest) := by
  simp [shardStep, htask, happly]

theorem ne_of_phase {m : Machine} {t t' : Nat} {phase phase' : Phase} (ht : m.phase t = phase)
    (ht' : m.phase t' = phase') (hne : phase ≠ phase') : t ≠ t' := by
  rintro rfl
  exact hne (ht.symm.trans ht')

@[simp] theorem wake_queues (m : Machine) (owner : Option Nat) : (m.wake owner).queues = m.queues := by
  cases owner <;> rfl

@[simp] theorem wake_store (m : Machine) (owner : Option Nat) : (m.wake owner).store = m.store := by
  cases owner <;> rfl

@[simp] theorem wake_wal (m : Machine) (owner : Option Nat) : (m.wake owner).wal = m.wal := by
  cases owner <;> rfl

@[simp] theorem wake_clock (m : Machine) (owner : Option Nat) : (m.wake owner).clock = m.clock := by
  cases owner <;> rfl

theorem mem_take {m : Machine} {shard other : Fin 8} {task t : Task} {front back : List Task}
    (hqueue : m.queues shard = front ++ task :: back)
    (h : t ∈ (m.setQueue shard (task.goOn task.ops :: (front ++ back))).queues other) :
    ∃ before ∈ m.queues other, t.ops = before.ops ∧ t.producer = before.producer ∧
      t.owner = before.owner := by
  by_cases hs : other = shard
  · subst hs
    simp only [setQueue, Function.update_self] at h
    rcases List.mem_cons.mp h with rfl | hother
    · exact ⟨task, by simp [hqueue], rfl, rfl, rfl⟩
    · exact ⟨t, Task.mem_of_left hqueue hother, rfl, rfl, rfl⟩
  · simp only [setQueue, Function.update_of_ne hs] at h
    exact ⟨t, h, rfl, rfl, rfl⟩

theorem mem_take_of_mem {m : Machine} {shard other : Fin 8} {task t : Task} {front back : List Task}
    (hqueue : m.queues shard = front ++ task :: back) (h : t ∈ m.queues other) :
    ∃ after ∈ (m.setQueue shard (task.goOn task.ops :: (front ++ back))).queues other,
      after.ops = t.ops ∧ after.producer = t.producer ∧ after.owner = t.owner := by
  by_cases hs : other = shard
  · subst hs
    simp only [setQueue, Function.update_self]
    rw [hqueue] at h
    rcases List.mem_cons.mp (List.perm_middle.mem_iff.mp h) with rfl | hother
    · exact ⟨_, List.mem_cons_self, rfl, rfl, rfl⟩
    · exact ⟨t, List.mem_cons_of_mem _ hother, rfl, rfl, rfl⟩
  · simp only [setQueue, Function.update_of_ne hs]
    exact ⟨t, h, rfl, rfl, rfl⟩

/-- No call of the thread is under way, and no task belongs to it. -/
def Away (thread : Nat) (m : Machine) : Prop :=
  m.phase thread = .idle ∧ ∀ shard, ∀ task ∈ m.queues shard, task.owner ≠ some thread

theorem Away.setPhase {m : Machine} {thread other : Nat} (h : m.Away thread) (hne : thread ≠ other)
    (phase : Phase) : (m.setPhase other phase).Away thread :=
  ⟨(m.setPhase_of_ne hne phase).trans h.1, h.2⟩

theorem Away.setQueue {m : Machine} {thread : Nat} (h : m.Away thread) {shard : Fin 8}
    {tasks : List Task} (htasks : ∀ task ∈ tasks, task.owner ≠ some thread) :
    (m.setQueue shard tasks).Away thread := by
  refine ⟨h.1, fun s task htask => ?_⟩
  by_cases hs : s = shard
  · subst hs
    simp only [Machine.setQueue, Function.update_self] at htask
    exact htasks task htask
  · simp only [Machine.setQueue, Function.update_of_ne hs] at htask
    exact h.2 s task htask

theorem Away.wake {m : Machine} {thread : Nat} (h : m.Away thread) {owner : Option Nat}
    (hne : owner ≠ some thread) : (m.wake owner).Away thread := by
  cases owner with
  | none => exact h
  | some other => exact h.setPhase (fun heq => hne (by rw [heq])) _

theorem ofEngine_away (e : Engine) (thread : Nat) : (ofEngine e).Away thread := by
  refine ⟨rfl, fun shard task htask => ?_⟩
  obtain ⟨ops, -, rfl⟩ := List.mem_map.mp htask
  simp

theorem Away.step {m m' : Machine} {thread : Nat} (h : m.Away thread) {event : Event}
    (hne : event.thread? ≠ some thread) (hstep : m.step x u event = some m') : m'.Away thread := by
  have hmentioned {other : Nat} (hother : event.thread? = some other) : thread ≠ other := by
    rintro rfl
    exact hne hother
  cases step_sound hstep with
  | start hidle hprep => exact Away.setPhase h (hmentioned rfl) _
  | refuse hidle hprep => exact h
  | append hphase => exact Away.setPhase h (hmentioned rfl) _
  | @work other work hphase =>
      have hother : thread ≠ other := hmentioned rfl
      have hadd (shard : Fin 8) (task : Task) (ho : task.owner ≠ some thread) :
          (m.enqueue shard task).Away thread := by
        apply h.setQueue
        intro t ht
        rcases List.mem_append.mp ht with hold | hnew
        · exact h.2 shard t hold
        · rw [List.mem_singleton.mp hnew]
          exact ho
      unfold workStep
      split
      · exact (hadd _ _ (by simpa using hother.symm)).setPhase hother _
      · exact h.setPhase hother _
      · exact (hadd _ _ (by simp)).setPhase hother _
      · exact h.setPhase hother _
      · split
        · exact h.setPhase hother _
        · exact Away.setPhase h hother _
  | @take shard task front back hqueue hfront hfree =>
      refine ⟨h.1, fun s t ht => ?_⟩
      obtain ⟨before, hbefore, -, -, howner⟩ := mem_take hqueue ht
      rw [howner]
      exact h.2 s before hbefore
  | @shard shard task rest hqueue =>
      have htask : task.owner ≠ some thread := h.2 shard task (by simp [hqueue])
      have hrest : ∀ t ∈ rest, t.owner ≠ some thread := fun t ht => h.2 shard t (by simp [hqueue, ht])
      unfold shardStep
      split
      · exact (h.setQueue hrest).wake htask
      · split
        · exact (h.setQueue hrest).wake htask
        · apply Away.setQueue h
          intro t ht
          rcases List.mem_cons.mp ht with rfl | ht
          · exact htask
          · exact hrest t ht
  | restart => exact ofEngine_away _ thread

theorem Away.run {m m' : Machine} {thread : Nat} (h : m.Away thread) {events : List Event}
    (hevents : ∀ event ∈ events, event.thread? ≠ some thread)
    (hrun : m.run x u events = some m') : m'.Away thread := by
  have hP : EveryStep (Machine.step x u) m events fun _ event => event.thread? ≠ some thread := by
    intro before event after hsplit _ _
    exact hevents event (by simp [hsplit])
  apply run_invariant (fun _ m => m.Away thread) h _ hP hrun
  intro _ m₁ event m₂ haway hne hstep
  exact haway.step hne hstep

/-- The threads whose tasks are in the queue of a shard. -/
def owners (m : Machine) (shard : Fin 8) : List Nat := (m.queues shard).filterMap Task.owner

/-- A thread whose task is queued waits for it, and has no other. -/
structure Owned (m : Machine) : Prop where
  waiting : ∀ shard thread, thread ∈ m.owners shard → m.phase thread = .waiting
  nodup : ∀ shard, (m.owners shard).Nodup
  once : ∀ shard shard' thread, thread ∈ m.owners shard → thread ∈ m.owners shard' → shard = shard'

theorem owners_setQueue (m : Machine) (shard other : Fin 8) (tasks : List Task) :
    (m.setQueue shard tasks).owners other =
      if other = shard then tasks.filterMap Task.owner else m.owners other := by
  by_cases h : other = shard
  · subst h
    simp [owners, setQueue]
  · simp [owners, setQueue, h]

theorem ofEngine_owned (e : Engine) : (ofEngine e).Owned := by
  have hnone (shard : Fin 8) : (ofEngine e).owners shard = [] := by
    simp [owners, ofEngine]
  constructor <;> simp [hnone]

namespace Owned

theorem congr {m m' : Machine} (h : m.Owned) (hphase : m'.phase = m.phase)
    (howners : ∀ shard, (m'.owners shard).Perm (m.owners shard)) : m'.Owned := by
  constructor
  · simpa only [(howners _).mem_iff, hphase] using h.waiting
  · simpa only [(howners _).nodup_iff] using h.nodup
  · simpa only [(howners _).mem_iff] using h.once

theorem setPhase {m : Machine} (h : m.Owned) {thread : Nat} (hphase : m.phase thread ≠ .waiting)
    (phase : Phase) : (m.setPhase thread phase).Owned := by
  refine ⟨fun shard other hother => ?_, h.nodup, h.once⟩
  have hwaiting := h.waiting shard other hother
  have hne : other ≠ thread := by
    rintro rfl
    exact hphase hwaiting
  rw [m.setPhase_of_ne hne, hwaiting]

theorem enqueue_async {m : Machine} (h : m.Owned) (shard : Fin 8) (thread : Nat)
    (ops : List ShardOp) : (m.enqueue shard ⟨thread, none, ops, false⟩).Owned := by
  apply h.congr (by rfl)
  intro other
  by_cases hs : other = shard
  · subst hs
    simp [owners, enqueue]
  · simp [owners, enqueue, hs]

theorem enqueue_wait {m : Machine} (h : m.Owned) {thread : Nat} (hphase : m.phase thread ≠ .waiting)
    (shard : Fin 8) (producer : Nat) (ops : List ShardOp) :
    ((m.enqueue shard ⟨producer, some thread, ops, false⟩).setPhase thread .waiting).Owned := by
  have hnew (s : Fin 8) : thread ∉ m.owners s := fun hmem => hphase (h.waiting s thread hmem)
  have howners (other : Fin 8) :
      ((m.enqueue shard ⟨producer, some thread, ops, false⟩).setPhase thread .waiting).owners other =
        if other = shard then m.owners other ++ [thread] else m.owners other := by
    by_cases hs : other = shard
    · subst hs
      simp [owners, enqueue, Machine.setPhase]
    · simp [owners, enqueue, Machine.setPhase, hs]
  have hmem {s : Fin 8} {t : Nat}
      (ht : t ∈ ((m.enqueue shard ⟨producer, some thread, ops, false⟩).setPhase thread .waiting).owners s) :
      (t = thread ∧ s = shard) ∨ (t ≠ thread ∧ t ∈ m.owners s) := by
    rw [howners] at ht
    by_cases hs : s = shard
    · rw [if_pos hs, List.mem_append, List.mem_singleton] at ht
      rcases ht with ht | ht
      · exact Or.inr ⟨fun heq => hnew s (heq ▸ ht), ht⟩
      · exact Or.inl ⟨ht, hs⟩
    · rw [if_neg hs] at ht
      exact Or.inr ⟨fun heq => hnew s (heq ▸ ht), ht⟩
  constructor
  · intro s t ht
    rcases hmem ht with ⟨rfl, -⟩ | ⟨hne, ht⟩
    · simp [Machine.setPhase]
    · rw [Machine.setPhase_of_ne _ hne]
      exact h.waiting s t ht
  · intro s
    rw [howners]
    split
    · rw [List.nodup_append]
      refine ⟨h.nodup s, by simp, ?_⟩
      rintro t ht _ hthread rfl
      rw [List.mem_singleton] at hthread
      exact hnew s (hthread ▸ ht)
    · exact h.nodup s
  · intro s s' t ht ht'
    rcases hmem ht with ⟨heq, hs⟩ | ⟨hne, ht⟩
    · rcases hmem ht' with ⟨-, hs'⟩ | ⟨hne', -⟩
      · rw [hs, hs']
      · exact absurd heq hne'
    · rcases hmem ht' with ⟨heq', -⟩ | ⟨-, ht'⟩
      · exact absurd heq' hne
      · exact h.once s s' t ht ht'

theorem pop {m : Machine} (h : m.Owned) {shard : Fin 8} {task : Task} {rest : List Task}
    (hqueue : m.queues shard = task :: rest) : ((m.setQueue shard rest).wake task.owner).Owned := by
  have hbefore : m.owners shard = task.owner.toList ++ rest.filterMap Task.owner := by
    cases howner : task.owner <;> simp [owners, hqueue, howner]
  have hsub {s : Fin 8} {t : Nat} (ht : t ∈ (m.setQueue shard rest).owners s) : t ∈ m.owners s := by
    rw [owners_setQueue] at ht
    split at ht
    · rename_i hs
      rw [hs, hbefore]
      exact List.mem_append_right _ ht
    · exact ht
  have hrest : (m.setQueue shard rest).Owned := by
    refine ⟨fun s t ht => h.waiting s t (hsub ht), fun s => ?_,
      fun s s' t ht ht' => h.once s s' t (hsub ht) (hsub ht')⟩
    rw [owners_setQueue]
    split
    · have hnodup := h.nodup shard
      rw [hbefore] at hnodup
      exact (List.nodup_append.mp hnodup).2.1
    · exact h.nodup s
  cases howner : task.owner with
  | none => exact hrest
  | some thread =>
      refine ⟨fun s t ht => ?_, hrest.nodup, hrest.once⟩
      have hne : t ≠ thread := by
        rintro rfl
        -- The thread would have a second task, in this queue or in another.
        have hhere : t ∈ m.owners shard := by simp [hbefore, howner]
        have hs : s = shard := h.once s shard t (hsub ht) hhere
        have hnodup := h.nodup shard
        rw [hbefore, howner] at hnodup
        have ht' : t ∈ (m.setQueue shard rest).owners s := ht
        rw [owners_setQueue, if_pos hs] at ht'
        exact (List.nodup_cons.mp hnodup).1 ht'
      have hphase : ((m.setQueue shard rest).setPhase thread .idle).phase t =
          (m.setQueue shard rest).phase t := Machine.setPhase_of_ne _ hne _
      rw [wake, hphase]
      exact hrest.waiting s t ht

theorem shardStep_phase {m : Machine} (h : m.Owned) {shard : Fin 8} {task : Task} {rest : List Task}
    (hqueue : m.queues shard = task :: rest) (thread : Nat) :
    (m.shardStep x shard task rest).phase thread = m.phase thread ∨
      m.phase thread = .waiting ∧ (m.shardStep x shard task rest).phase thread = .idle := by
  have hwake : ((m.setQueue shard rest).wake task.owner).phase thread = m.phase thread ∨
      m.phase thread = .waiting ∧
        ((m.setQueue shard rest).wake task.owner).phase thread = .idle := by
    cases howner : task.owner with
    | none => exact Or.inl rfl
    | some owner =>
        by_cases heq : thread = owner
        · subst heq
          right
          refine ⟨h.waiting shard thread ?_, by simp [wake, Machine.setPhase]⟩
          rw [owners, hqueue, List.filterMap_cons, howner]
          exact List.mem_cons_self
        · exact Or.inl (Machine.setPhase_of_ne _ heq _)
  unfold shardStep
  split
  · exact hwake
  · split
    · exact hwake
    · exact Or.inl rfl

theorem step {m m' : Machine} (h : m.Owned) {event : Event} (hstep : m.step x u event = some m') :
    m'.Owned := by
  cases step_sound hstep with
  | @start thread call clock plan hidle hprep =>
      have hset : (m.setPhase thread (.planned plan)).Owned := h.setPhase (by simp [hidle]) _
      exact hset.congr (by rfl) fun _ => .refl _
  | refuse hidle hprep => exact h.congr (by rfl) fun _ => .refl _
  | @append thread plan hphase =>
      have hset : (m.setPhase thread (.logged plan.work)).Owned := h.setPhase (by simp [hphase]) _
      exact hset.congr (by rfl) fun _ => .refl _
  | @work thread work hphase =>
      have hne : m.phase thread ≠ .waiting := by simp [hphase]
      unfold workStep
      split
      · exact h.enqueue_wait hne _ _ _
      · exact h.setPhase hne _
      · exact (h.enqueue_async _ _ _).setPhase hne _
      · exact h.setPhase hne _
      · split
        · exact h.setPhase hne _
        · exact (h.setPhase hne _).congr (by rfl) fun _ => .refl _
  | @take shard task front back hqueue hfront hfree =>
      apply h.congr (by rfl)
      intro s
      rw [owners_setQueue]
      split
      · rename_i hs
        rw [hs, owners, hqueue]
        have hmove : (front ++ task :: back).Perm (task :: (front ++ back)) := List.perm_middle
        simpa only [List.filterMap_cons, Task.goOn_owner] using (hmove.filterMap Task.owner).symm
      · exact .refl _
  | @shard shard task rest hqueue =>
      unfold shardStep
      split
      · exact h.pop hqueue
      · split
        · exact h.pop hqueue
        · apply h.congr (by rfl)
          intro s
          rw [owners_setQueue]
          split
          · rename_i hs
            rw [hs, owners, hqueue, List.filterMap_cons, List.filterMap_cons, Task.goOn_owner]
          · exact .refl _
  | restart => exact ofEngine_owned _

end Owned

/-- A thread that has made no step is idle. -/
theorem idle_of_run {e : Engine} {m : Machine} {events : List Event} {n : Nat}
    (hevents : ∀ event ∈ events, ∀ thread ∈ event.thread?, thread < n)
    (hrun : (ofEngine e).run x u events = some m) {thread : Nat} (hthread : ¬ thread < n) :
    m.phase thread = .idle := by
  have haway : m.Away thread := by
    apply (ofEngine_away e thread).run _ hrun
    intro event hevent hown
    exact hthread (hevents event hevent thread hown)
  exact haway.1

theorem quiet_of_run {e : Engine} {m : Machine} {events : List Event} (n : Nat)
    (hevents : ∀ event ∈ events, ∀ thread ∈ event.thread?, thread < n)
    (hrun : (ofEngine e).run x u events = some m) (hidle : ∀ thread < n, m.phase thread = .idle)
    (hdrained : ∀ shard, m.queues shard = []) : m.Quiet := by
  refine ⟨fun thread => ?_, hdrained⟩
  by_cases hlt : thread < n
  · exact hidle thread hlt
  · exact idle_of_run hevents hrun hlt

theorem run_append {m m₁ m₂ : Machine} {events more : List Event}
    (h : m.run x u events = some m₁) (hmore : m₁.run x u more = some m₂) :
    m.run x u (events ++ more) = some m₂ := by
  unfold run at *
  rw [List.foldlM_append, h]
  exact hmore

private theorem run_one {m m' : Machine} {event : Event} (h : m.step x u event = some m') :
    m.run x u [event] = some m' := by
  simp [run, h]

private theorem ops_update (queues : Fin 8 → List Task) (shard : Fin 8) (tasks : List Task) :
    (fun s => (Function.update queues shard tasks s).map Task.ops) =
      Function.update (fun s => (queues s).map Task.ops) shard (tasks.map Task.ops) := by
  funext s
  by_cases hs : s = shard
  · subst hs
    simp
  · simp [hs]

private theorem run_task {m : Machine} {shard : Fin 8} {task : Task} {rest : List Task}
    (h : m.queues shard = task :: rest) : ∃ events, m.run x u events =
      some (({ m with store := (m.store.runTask x task.ops).1 }.setQueue shard rest).wake
        task.owner) := by
  generalize hops : task.ops = ops
  induction ops generalizing m task with
  | nil => exact ⟨[.shard shard], run_one (by simp [step, h, shardStep, hops, Store.runTask])⟩
  | cons o ops ih =>
      cases happly : m.store.apply x o with
      | none =>
          exact ⟨[.shard shard], run_one (by simp [step, h, shardStep, hops, Store.runTask, happly])⟩
      | some st =>
          have hstep : m.step x u (.shard shard) =
              some ({ m with store := st }.setQueue shard (task.goOn ops :: rest)) := by
            simp [step, h, shardStep, hops, happly]
          obtain ⟨events, hrun⟩ := ih (m := { m with store := st }.setQueue shard
            (task.goOn ops :: rest)) (by simp [setQueue]) (task.goOn_ops ops)
          refine ⟨[.shard shard] ++ events, run_append (run_one hstep) (hrun.trans ?_)⟩
          simp [setQueue, Store.runTask, happly]

private theorem run_queue {m : Machine} {shard : Fin 8} {tasks : List Task}
    (h : m.queues shard = tasks) :
    ∃ events m', m.run x u events = some m' ∧ m'.engine = m.engine.drain x shard ∧
      ∀ thread, (∃ task ∈ tasks, task.owner = some thread) ∨ m.phase thread = .idle →
        m'.phase thread = .idle := by
  induction tasks generalizing m with
  | nil =>
      refine ⟨[], m, rfl, ?_, by simp⟩
      simp [engine, Engine.drain, h]
  | cons task rest ih =>
      obtain ⟨events, hrun⟩ := run_task (x := x) (u := u) h
      generalize hmid : ({ m with store := (m.store.runTask x task.ops).1 }.setQueue shard rest) = mid
        at hrun
      have hqueue : (mid.wake task.owner).queues shard = rest := by
        rw [← hmid]
        cases task.owner <;> simp [wake, setPhase, setQueue]
      have hengine : (mid.wake task.owner).engine.drain x shard = m.engine.drain x shard := by
        rw [← hmid]
        cases task.owner <;> simp [wake, setPhase, setQueue, engine, Engine.drain, h, ops_update]
      have hphase (thread : Nat) : (mid.wake task.owner).phase thread =
          if task.owner = some thread then .idle else m.phase thread := by
        rw [← hmid]
        cases hown : task.owner with
        | none => simp [wake, setQueue]
        | some owner => simp [wake, setPhase, setQueue, Function.update_apply, eq_comm]
      obtain ⟨more, m', hmore, hdrain, hidle⟩ := ih hqueue
      refine ⟨events ++ more, m', run_append hrun hmore, hdrain.trans hengine, ?_⟩
      intro thread hthread
      apply hidle thread
      rw [hphase thread]
      by_cases howner : task.owner = some thread
      · right
        rw [if_pos howner]
      · rw [if_neg howner]
        simpa [howner] using hthread

private theorem run_async {m : Machine} {thread : Nat} {tasks : List (Fin 8 × List ShardOp)}
    (h : m.phase thread = .logged (.async tasks)) :
    ∃ events m', m.run x u events = some m' ∧
      m'.engine = tasks.foldl (fun e w => e.enqueue w.1 w.2) m.engine ∧ m'.phase thread = .idle := by
  induction tasks generalizing m with
  | nil =>
      refine ⟨[.work thread], m.setPhase thread .idle, run_one ?_, rfl, ?_⟩
      · simp [step, h, workStep]
      · simp [setPhase]
  | cons w tasks ih =>
      obtain ⟨shard, task⟩ := w
      have hstep : m.step x u (.work thread) =
          some ((m.enqueue shard ⟨thread, none, task, false⟩).setPhase thread
            (.logged (.async tasks))) := by
        simp [step, h, workStep]
      obtain ⟨events, m', hrun, hengine, hidle⟩ :=
        ih (m := (m.enqueue shard ⟨thread, none, task, false⟩).setPhase thread
          (.logged (.async tasks))) (by simp [setPhase])
      refine ⟨[.work thread] ++ events, m', run_append (run_one hstep) hrun, ?_, hidle⟩
      rw [hengine]
      simp [engine, setPhase, enqueue, Engine.enqueue, ops_update]

private theorem run_direct {m : Machine} {thread : Nat} {ops : List ShardOp}
    (h : m.phase thread = .logged (.direct ops)) :
    ∃ events, m.run x u events =
      some ({ m with store := (m.store.runTask x ops).1 }.setPhase thread .idle) := by
  induction ops generalizing m with
  | nil => exact ⟨[.work thread], run_one (by simp [step, h, workStep, Store.runTask])⟩
  | cons o ops ih =>
      cases happly : m.store.apply x o with
      | none => exact ⟨[.work thread], run_one (by simp [step, h, workStep, Store.runTask, happly])⟩
      | some st =>
          have hstep : m.step x u (.work thread) =
              some ({ m with store := st }.setPhase thread (.logged (.direct ops))) := by
            simp [step, h, workStep, happly]
          obtain ⟨events, hrun⟩ :=
            ih (m := { m with store := st }.setPhase thread (.logged (.direct ops)))
              (by simp [setPhase])
          refine ⟨[.work thread] ++ events, run_append (run_one hstep) (hrun.trans ?_)⟩
          simp [setPhase, Store.runTask, happly]

/-- A call that runs on its own, as `Engine.call` has it, is one of the runs of the machine. -/
theorem call_is_run {m : Machine} {thread : Nat} (hidle : m.phase thread = .idle) {c : Call}
    {r : Engine × CallResult} (hcall : m.engine.call x u c = some r) :
    ∃ events m', m.run x u events = some m' ∧ m'.engine = r.1 ∧
      m'.phase thread = .idle := by
  obtain ⟨⟨clock, outcome⟩, hprep, rfl⟩ := Option.map_eq_some_iff.mp hcall
  cases outcome with
  | refused result =>
      refine ⟨[.refuse thread c], { m with clock := clock }, run_one ?_, rfl, hidle⟩
      simp [step, hidle, hprep]
  | accepted plan =>
      -- Up to the log all calls are alike.
      have hlog : m.run x u [.start thread c, .append thread] =
          some ({ m with clock := clock, wal := m.wal.appendBatch plan.logged }.setPhase thread
            (.logged plan.work)) := by
        simp [run, step, hidle, hprep, setPhase]
      have hphase : ({ m with clock := clock, wal := m.wal.appendBatch plan.logged }.setPhase thread
          (.logged plan.work)).phase thread = .logged plan.work := by simp [setPhase]
      cases hwork : plan.work with
      | wait shard task =>
          rw [hwork] at hlog hphase
          generalize hm₁ : ({ m with clock := clock, wal := m.wal.appendBatch plan.logged }.setPhase
            thread (.logged (.wait shard task))) = m₁ at hlog hphase
          have hstep : m₁.step x u (.work thread) =
              some ((m₁.enqueue shard ⟨thread, some thread, task, false⟩).setPhase thread .waiting) := by
            simp [step, hphase, workStep]
          have hqueue : ((m₁.enqueue shard ⟨thread, some thread, task, false⟩).setPhase thread
              .waiting).queues shard = m₁.queues shard ++ [⟨thread, some thread, task, false⟩] := by
            simp [setPhase, enqueue]
          obtain ⟨events, m', hrun, hengine, hwoken⟩ := run_queue (x := x) (u := u) hqueue
          refine ⟨_, m', run_append hlog (run_append (run_one hstep) hrun), ?_, hwoken thread (by simp)⟩
          rw [hengine, ← hm₁]
          simp [Engine.commit, hwork, engine, setPhase, enqueue, Engine.drain, ops_update]
      | async tasks =>
          rw [hwork] at hlog hphase
          obtain ⟨events, m', hrun, hengine, hdone⟩ := run_async (x := x) (u := u) hphase
          refine ⟨_, m', run_append hlog hrun, ?_, hdone⟩
          rw [hengine]
          simp [Engine.commit, hwork, engine, setPhase]
      | direct ops =>
          rw [hwork] at hlog hphase
          obtain ⟨events, hrun⟩ := run_direct (x := x) (u := u) hphase
          refine ⟨_, _, run_append hlog hrun, ?_, by simp [setPhase]⟩
          simp [Engine.commit, hwork, engine, setPhase]

end

end Machine

end L3KV
