import L3KV.Engine.Contents
import L3KV.Framework.Barrier

/-!
# Calls that wait for several shards

`wait_all_shards` and `apply_batch_mutations` hand a task to each of several shards, keep the futures
and then wait for one future after the other. A promise is numbered like a thread, so that the tasks
of such a call are tasks with an owner like any other. A shard queue keeps the order of one thread
only, so that such a call is a barrier for what its own thread has handed over.
-/

namespace L3KV

open Framework

/-- What `apply_batch_mutations` is to do on one shard. -/
structure ShardMutation where
  puts : List (Bytes × Bytes)
  dels : List Bytes

/-- The task for the shard: the deletes come first. -/
def ShardMutation.task (mu : ShardMutation) : List ShardOp :=
  mu.dels.map .del ++ mu.puts.map fun p => .put p.1 p.2

inductive FanCall where
  | waitAllShards
  | applyBatchMutations (walOps : List BatchOp) (mutations : Fin 8 → Option ShardMutation)

namespace FanCall

def logged : FanCall → List BatchOp
  | waitAllShards => []
  | applyBatchMutations walOps _ => walOps

/-- The tasks in the order in which they are submitted. -/
def tasks : FanCall → List (Fin 8 × List ShardOp)
  | waitAllShards => (List.finRange 8).map fun i => (i, [])
  | applyBatchMutations _ mutations =>
      (List.finRange 8).filterMap fun i => (mutations i).map fun mu => (i, mu.task)

end FanCall

/-- How far such a call has come. -/
inductive FanPhase where
  | away
  | begun (logged : List BatchOp) (tasks : List (Fin 8 × List ShardOp))
  | submitting (tasks : List (Fin 8 × List ShardOp)) (futures : List Nat)
  /-- The futures that are still to be waited for. -/
  | awaiting (futures : List Nat)

def FanPhase.isAway : FanPhase → Bool
  | away => true
  | _ => false

/-- A machine whose threads make calls of this kind, too. The numbers from `threads` on are those of
promises. -/
structure Fans where
  machine : Machine
  threads : Nat
  next : Nat
  caller : Nat → FanPhase

inductive FanEvent where
  | step (event : Event)
  | begin (caller : Nat) (call : FanCall)
  | log (caller : Nat)
  /-- `submit_to_shard_idx` for the next task. -/
  | submit (caller : Nat)
  /-- `get` of the next future returns, or the call does. -/
  | get (caller : Nat)

/-- The caller whose call the event is a step of. -/
def FanEvent.caller? : FanEvent → Option Nat
  | .step _ => none
  | .begin c _ => some c
  | .log c => some c
  | .submit c => some c
  | .get c => some c

namespace Fans

def init (x : External) (nodeId : UInt32) (threads : Nat) : Fans :=
  ⟨Machine.ofEngine (Engine.openOn x nodeId []), threads, threads, fun _ => .away⟩

def setCaller (s : Fans) (c : Nat) (phase : FanPhase) : Fans :=
  { s with caller := Function.update s.caller c phase }

@[simp] theorem setCaller_self (s : Fans) (c : Nat) (phase : FanPhase) :
    (s.setCaller c phase).caller c = phase := Function.update_self ..

section

variable (x : External) (u : Nat → Nat → UInt8)

def step (s : Fans) : FanEvent → Option Fans
  | .step event =>
      if ∀ t ∈ event.thread?, t < s.threads ∧ (s.caller t).isAway then
        (s.machine.step x u event).map fun m =>
          match event with
          | .restart => ⟨m, s.threads, s.next, fun _ => .away⟩
          | _ => { s with machine := m }
      else none
  | .begin c call =>
      match s.caller c with
      | .away =>
          if ¬ (c < s.threads ∧ s.machine.phase c = .idle) then none
          else if call.logged = [] ∧ call.tasks.isEmpty then some s
          else some (s.setCaller c (.begun call.logged call.tasks))
      | _ => none
  | .log c =>
      match s.caller c with
      | .begun logged tasks =>
          let wal := if logged = [] then s.machine.wal else s.machine.wal.appendBatch logged
          some ({ s with machine := { s.machine with wal := wal } }.setCaller c (.submitting tasks []))
      | _ => none
  | .submit c =>
      match s.caller c with
      | .submitting ((shard, ops) :: tasks) futures =>
          some ({ s with
            machine := (s.machine.enqueue shard ⟨c, some s.next, ops, false⟩).setPhase s.next .waiting
            next := s.next + 1 }.setCaller c (.submitting tasks (futures ++ [s.next])))
      | .submitting [] futures => some (s.setCaller c (.awaiting futures))
      | _ => none
  | .get c =>
      match s.caller c with
      | .awaiting (p :: futures) =>
          if s.machine.phase p = .idle then some (s.setCaller c (.awaiting futures)) else none
      | .awaiting [] => some (s.setCaller c .away)
      | _ => none

def run (s : Fans) (events : List FanEvent) : Option Fans := events.foldlM (step x u) s

end

end Fans

/-- Who has something to hand to the shards: a thread in a call of the engine, or in one of these. -/
inductive Agent where
  | thread (t : Nat)
  | caller (c : Nat)
  deriving DecidableEq

def Agent.producer : Agent → Nat
  | thread t => t
  | caller c => c

def FanPhase.parts : FanPhase → List (Option (Fin 8) × List ShardOp)
  | .begun _ tasks => tasks.map fun w => (some w.1, w.2)
  | .submitting tasks _ => tasks.map fun w => (some w.1, w.2)
  | _ => []

/-- What matters for the contents: the store, the queues and what the agents have still to do. -/
structure View where
  store : Store
  queues : Fin 8 → List Task
  parts : Agent → List (Option (Fin 8) × List ShardOp)

namespace View

def ops (v : View) (a : Agent) : List ShardOp := (v.parts a).flatMap Prod.snd

def setParts (v : View) (a : Agent) (parts : List (Option (Fin 8) × List ShardOp)) : View :=
  { v with parts := Function.update v.parts a parts }

private theorem setParts_self (v : View) (a : Agent) : v.setParts a (v.parts a) = v := by
  simp [setParts]

/-- What a step can do, other than to begin a call. -/
inductive Move (x : External) : View → View → Prop
  | stay {v : View} : Move x v v
  | hand {v : View} {a : Agent} {i : Fin 8} {ops : List ShardOp}
      {rest : List (Option (Fin 8) × List ShardOp)} (owner : Option Nat)
      (hparts : v.parts a = (some i, ops) :: rest) :
      Move x v ({ v with
        queues := Function.update v.queues i (v.queues i ++ [Task.mk a.producer owner ops false])
        }.setParts a rest)
  | act {v : View} {a : Agent} {o : ShardOp} {ops : List ShardOp} {st : Store}
      (hparts : v.parts a = [(none, o :: ops)]) (happly : v.store.apply x o = some st) :
      Move x v ({ v with store := st }.setParts a [(none, ops)])
  | leave {v : View} {a : Agent} {ops : List ShardOp} (hparts : v.parts a = [(none, ops)]) :
      Move x v (v.setParts a [])
  | take {v : View} {i : Fin 8} {task : Task} {front back : List Task}
      (hqueue : v.queues i = front ++ task :: back)
      (hfront : ∀ other ∈ front, other.producer ≠ task.producer) :
      Move x v { v with
        queues := Function.update v.queues i (task.goOn task.ops :: (front ++ back)) }
  | perform {v : View} {i : Fin 8} {task : Task} {o : ShardOp} {ops : List ShardOp}
      {rest : List Task} {st : Store} (hqueue : v.queues i = task :: rest)
      (hops : task.ops = o :: ops) (happly : v.store.apply x o = some st) :
      Move x v { v with
        store := st
        queues := Function.update v.queues i (task.goOn ops :: rest) }
  /-- A task has come to its end, or its next operation throws. -/
  | finish {v : View} {i : Fin 8} {task : Task} {rest : List Task}
      (hqueue : v.queues i = task :: rest)
      (hend : task.ops = [] ∨ ∃ o ops, task.ops = o :: ops ∧ v.store.apply x o = none) :
      Move x v { v with queues := Function.update v.queues i rest }

end View

namespace Fans

def parts (s : Fans) : Agent → List (Option (Fin 8) × List ShardOp)
  | .thread t => (s.machine.phase t).parts
  | .caller c => (s.caller c).parts

def view (s : Fans) : View := ⟨s.machine.store, s.machine.queues, s.parts⟩

/-- The agent whose call begins, and what the call is going to do. -/
def begins (x : External) (u : Nat → Nat → UInt8) (s : Fans) :
    FanEvent → Option (Agent × List (Option (Fin 8) × List ShardOp))
  | .step (.start t call) =>
      (s.machine.engine.planOf x u call).map fun plan => (.thread t, plan.work.parts)
  | .begin c call => some (.caller c, call.tasks.map fun w => (some w.1, w.2))
  | _ => none

section

variable {x : External} {u : Nat → Nat → UInt8} {s s' : Fans}

private theorem view_setPhase (m : Machine) (t : Nat) (phase : Phase) :
    { s with machine := m.setPhase t phase }.view =
      { s with machine := m }.view.setParts (.thread t) phase.parts := by
  simp only [view, View.setParts, Machine.setPhase]
  congr 1
  funext a
  cases a with
  | thread t' =>
      by_cases heq : t' = t
      · subst heq
        simp [parts]
      · simp [parts, heq]
  | caller c => simp [parts]

private theorem view_setCaller (s : Fans) (c : Nat) (phase : FanPhase) :
    (s.setCaller c phase).view = s.view.setParts (.caller c) phase.parts := by
  simp only [view, View.setParts, setCaller]
  congr 1
  funext a
  cases a with
  | thread t => simp [parts]
  | caller c' =>
      by_cases heq : c' = c
      · subst heq
        simp [parts]
      · simp [parts, heq]

/-- A thread whose task is queued waits for it, and the promises to come are unused. -/
structure Numbered (s : Fans) : Prop where
  owned : s.machine.Owned
  le : s.threads ≤ s.next
  fresh : ∀ p, s.next ≤ p → s.machine.Away p

namespace Numbered

theorem init (nodeId : UInt32) (threads : Nat) : (Fans.init x nodeId threads).Numbered :=
  ⟨Machine.ofEngine_owned _, le_refl threads, fun p _ => Machine.ofEngine_away _ p⟩

theorem step (h : s.Numbered) {event : FanEvent} (hstep : s.step x u event = some s') :
    s'.Numbered := by
  cases event with
  | step event =>
      simp only [Fans.step] at hstep
      split at hstep
      · rename_i hthreads
        obtain ⟨m, hm, rfl⟩ := Option.map_eq_some_iff.mp hstep
        have hfresh : ∀ p, s.next ≤ p → m.Away p := by
          intro p hp
          refine (h.fresh p hp).step (fun heq => ?_) hm
          have := (hthreads p heq).1
          have := h.le
          omega
        split
        · exact ⟨h.owned.step hm, h.le, hfresh⟩
        · exact ⟨h.owned.step hm, h.le, hfresh⟩
      · cases hstep
  | begin c call =>
      simp only [Fans.step] at hstep
      repeat' split at hstep
      all_goals cases hstep
      · exact h
      · exact ⟨h.owned, h.le, h.fresh⟩
  | log c =>
      simp only [Fans.step] at hstep
      split at hstep
      · cases hstep
        exact ⟨h.owned.congr rfl fun _ => .refl _, h.le, h.fresh⟩
      · cases hstep
  | submit c =>
      simp only [Fans.step] at hstep
      split at hstep
      · rename_i shard ops tasks futures hcaller
        cases hstep
        have hnext := h.fresh s.next (le_refl _)
        refine ⟨h.owned.enqueue_wait (by simp [hnext.1]) shard c ops, ?_, fun p hp => ?_⟩
        · have := h.le
          dsimp only [setCaller]
          omega
        · have hp : s.next + 1 ≤ p := hp
          have haway := h.fresh p (by omega)
          refine Machine.Away.setPhase (Machine.Away.setQueue haway ?_) (by omega) _
          intro task htask
          rcases List.mem_append.mp htask with hold | hnew
          · exact haway.2 shard task hold
          · rw [List.mem_singleton.mp hnew]
            simp only [ne_eq, Option.some.injEq]
            omega
      · cases hstep
        exact ⟨h.owned, h.le, h.fresh⟩
      · cases hstep
  | get c =>
      simp only [Fans.step] at hstep
      split at hstep
      · split at hstep
        · cases hstep
          exact ⟨h.owned, h.le, h.fresh⟩
        · cases hstep
      · cases hstep
        exact ⟨h.owned, h.le, h.fresh⟩
      · cases hstep

end Numbered

private theorem view_wake (h : s.Numbered) {i : Fin 8} {task : Task} {rest : List Task}
    (hqueue : s.machine.queues i = task :: rest) :
    { s with machine := (s.machine.setQueue i rest).wake task.owner }.view =
      { s.view with queues := Function.update s.machine.queues i rest } := by
  cases howner : task.owner with
  | none => rfl
  | some t =>
      have hwaiting : s.machine.phase t = .waiting := by
        apply h.owned.waiting i t
        rw [Machine.owners, hqueue, List.filterMap_cons, howner]
        exact List.mem_cons_self
      rw [Machine.wake, view_setPhase]
      have hparts : ({ s with machine := s.machine.setQueue i rest } : Fans).view.parts (.thread t) =
          Phase.parts .idle := by
        change (s.machine.phase t).parts = _
        rw [hwaiting]
        rfl
      rw [← hparts, View.setParts_self]
      rfl

private theorem view_work {t : Nat} {work : Work} (hphase : s.machine.phase t = .logged work) :
    View.Move x s.view { s with machine := s.machine.workStep x t work }.view := by
  have hparts : s.view.parts (.thread t) = work.parts := by
    change (s.machine.phase t).parts = _
    rw [hphase]
    rfl
  cases work with
  | wait shard task =>
      rw [Machine.workStep, view_setPhase]
      exact View.Move.hand (some t) hparts
  | async tasks =>
      cases tasks with
      | nil =>
          have hsame : s.view.parts (.thread t) = Phase.parts .idle := hparts
          rw [Machine.workStep, view_setPhase, ← hsame]
          exact (View.setParts_self s.view _).symm ▸ View.Move.stay
      | cons w tasks =>
          rw [Machine.workStep, view_setPhase]
          exact View.Move.hand none hparts
  | direct ops =>
      cases ops with
      | nil =>
          rw [Machine.workStep, view_setPhase]
          exact View.Move.leave hparts
      | cons o ops =>
          cases happly : s.machine.store.apply x o with
          | none =>
              rw [Machine.workStep, happly]
              dsimp only
              rw [view_setPhase]
              exact View.Move.leave hparts
          | some st =>
              rw [Machine.workStep, happly]
              dsimp only
              rw [view_setPhase]
              exact View.Move.act hparts happly

private theorem view_shard (h : s.Numbered) {i : Fin 8} {task : Task} {rest : List Task}
    (hqueue : s.machine.queues i = task :: rest) :
    View.Move x s.view { s with machine := s.machine.shardStep x i task rest }.view := by
  cases hops : task.ops with
  | nil =>
      rw [Machine.shardStep, hops]
      dsimp only
      rw [view_wake h hqueue]
      exact View.Move.finish hqueue (Or.inl hops)
  | cons o ops =>
      cases happly : s.machine.store.apply x o with
      | none =>
          rw [Machine.shardStep, hops]
          dsimp only
          rw [happly]
          dsimp only
          rw [view_wake h hqueue]
          exact View.Move.finish hqueue (Or.inr ⟨o, ops, hops, happly⟩)
      | some st =>
          rw [Machine.shardStep_applies hops happly]
          exact View.Move.perform hqueue hops happly

-- The caller goes on and still has the same tasks to submit.
private theorem view_goesOn {s₁ : Fans} (hview : s₁.view = s.view) {c : Nat} {phase : FanPhase}
    (hparts : phase.parts = (s.caller c).parts) :
    View.Move x s.view (s₁.setCaller c phase).view := by
  have hsame : s.view.parts (.caller c) = phase.parts := hparts.symm
  rw [view_setCaller, hview, ← hsame, View.setParts_self]
  exact View.Move.stay

private theorem view_submit (h : s.Numbered) {c : Nat} {shard : Fin 8} {ops : List ShardOp}
    {tasks : List (Fin 8 × List ShardOp)} {futures : List Nat}
    (hcaller : s.caller c = .submitting ((shard, ops) :: tasks) futures) :
    View.Move x s.view ({ s with
      machine := (s.machine.enqueue shard ⟨c, some s.next, ops, false⟩).setPhase s.next .waiting
      next := s.next + 1 }.setCaller c (.submitting tasks (futures ++ [s.next]))).view := by
  have hparts : s.view.parts (.caller c) =
      (some shard, ops) :: tasks.map fun w => (some w.1, w.2) := by
    change (s.caller c).parts = _
    rw [hcaller]
    rfl
  have hnext : s.view.parts (.thread s.next) = Phase.parts .waiting := by
    change (s.machine.phase s.next).parts = _
    rw [(h.fresh s.next (le_refl _)).1]
    rfl
  have hpromise : ({ s with
      machine := (s.machine.enqueue shard ⟨c, some s.next, ops, false⟩).setPhase s.next .waiting
      next := s.next + 1 } : Fans).view =
      { s.view with
        queues := Function.update s.view.queues shard
          (s.view.queues shard ++ [⟨c, some s.next, ops, false⟩]) } := by
    refine (view_setPhase (s := s) _ _ _).trans ?_
    rw [← hnext]
    exact View.setParts_self _ _
  rw [view_setCaller, hpromise]
  exact View.Move.hand (some s.next) hparts

private theorem machine_view (h : s.Numbered) {event : Event} (hrestart : event ≠ .restart)
    {m : Machine} (hm : s.machine.step x u event = some m) :
    (∃ a parts, s.begins x u (.step event) = some (a, parts) ∧ s.view.parts a = [] ∧
      { s with machine := m }.view = s.view.setParts a parts) ∨
    s.begins x u (.step event) = none ∧ View.Move x s.view { s with machine := m }.view := by
  cases Machine.step_sound hm with
  | @start t call clock plan hidle hprep =>
      left
      refine ⟨.thread t, plan.work.parts, ?_, ?_, ?_⟩
      · rw [begins, Engine.planOf_eq_some.mpr ⟨clock, hprep⟩]
        rfl
      · change (s.machine.phase t).parts = []
        rw [hidle]
        rfl
      · exact view_setPhase _ _ _
  | refuse => exact Or.inr ⟨rfl, View.Move.stay⟩
  | @append t plan hphase =>
      refine Or.inr ⟨rfl, ?_⟩
      have hparts : s.view.parts (.thread t) = Phase.parts (.logged plan.work) := by
        change (s.machine.phase t).parts = _
        rw [hphase]
        rfl
      rw [view_setPhase, ← hparts]
      exact (View.setParts_self s.view _).symm ▸ View.Move.stay
  | work hphase => exact Or.inr ⟨rfl, view_work hphase⟩
  | take hqueue hfront hfree => exact Or.inr ⟨rfl, View.Move.take hqueue hfront⟩
  | shard hqueue => exact Or.inr ⟨rfl, view_shard h hqueue⟩
  | restart => exact absurd rfl hrestart

private theorem step_view (h : s.Numbered) {event : FanEvent} (hrestart : event ≠ .step .restart)
    (hstep : s.step x u event = some s') :
    (∃ a parts, s.begins x u event = some (a, parts) ∧ s.view.parts a = [] ∧
      s'.view = s.view.setParts a parts) ∨
    s.begins x u event = none ∧ View.Move x s.view s'.view := by
  cases event with
  | step event =>
      have hgoesOn : event ≠ .restart := fun heq => hrestart (by rw [heq])
      simp only [step] at hstep
      split at hstep
      · obtain ⟨m, hm, rfl⟩ := Option.map_eq_some_iff.mp hstep
        cases event with
        | restart => exact absurd rfl hgoesOn
        | _ => exact machine_view h hgoesOn hm
      · cases hstep
  | begin c call =>
      simp only [step] at hstep
      split at hstep
      · rename_i haway
        have hparts : s.view.parts (.caller c) = [] := by
          change (s.caller c).parts = []
          rw [haway]
          rfl
        refine Or.inl ⟨.caller c, _, rfl, hparts, ?_⟩
        split at hstep
        · cases hstep
        · split at hstep
          · rename_i hempty
            cases hstep
            rw [List.isEmpty_iff.mp hempty.2, List.map_nil, ← hparts, View.setParts_self]
          · cases hstep
            exact view_setCaller _ _ _
      · cases hstep
  | log c =>
      refine Or.inr ⟨rfl, ?_⟩
      simp only [step] at hstep
      split at hstep
      · rename_i logged tasks hcaller
        cases hstep
        exact view_goesOn rfl (by rw [hcaller]; rfl)
      · cases hstep
  | submit c =>
      refine Or.inr ⟨rfl, ?_⟩
      simp only [step] at hstep
      split at hstep
      · rename_i hcaller
        cases hstep
        exact view_submit h hcaller
      · rename_i hcaller
        cases hstep
        exact view_goesOn rfl (by rw [hcaller]; rfl)
      · cases hstep
  | get c =>
      refine Or.inr ⟨rfl, ?_⟩
      simp only [step] at hstep
      split at hstep
      · rename_i hcaller
        split at hstep
        · cases hstep
          exact view_goesOn rfl (by rw [hcaller]; rfl)
        · cases hstep
      · rename_i hcaller
        cases hstep
        exact view_goesOn rfl (by rw [hcaller]; rfl)
      · cases hstep

end

end Fans

/-- In a task, no operation on the key is lost when one before it throws. -/
def Steady (key : Bytes) (ops : List ShardOp) : Prop :=
  ops.Pairwise fun o o' => o.Patches → o'.key ≠ key

/-- The operations are not on the key, or go through the lane. -/
def Via (key : Bytes) (lane : Fin 8) (part : Option (Fin 8) × List ShardOp) : Prop :=
  Spares key part.2 ∨ part.1 = some lane ∧ Steady key part.2

instance (key : Bytes) (ops : List ShardOp) : Decidable (Steady key ops) :=
  inferInstanceAs (Decidable (ops.Pairwise fun o o' => o.Patches → o'.key ≠ key))

instance (key : Bytes) (lane : Fin 8) (part : Option (Fin 8) × List ShardOp) :
    Decidable (Via key lane part) :=
  inferInstanceAs (Decidable (Spares key part.2 ∨ part.1 = some lane ∧ Steady key part.2))

/-- What the operations make of the content of the key. -/
abbrev settleKey (l : Lite3) (key : Bytes) : List ShardOp → Bytes → Bytes :=
  settle ShardOp.key (ShardOp.effect l) key

namespace View

/-- All that is still to come for the key goes through the lane and is in the queues or with one
agent, and makes `final` of its content. -/
structure Destined (x : External) (key : Bytes) (lane : Fin 8) (a : Agent) (final : Bytes)
    (v : View) : Prop where
  queues : ∀ i, ∀ task ∈ v.queues i, Via key lane (some i, task.ops)
  parts : ∀ part ∈ v.parts a, Via key lane part
  others : ∀ a', a' ≠ a → Spares key (v.ops a')
  foreseen : ∃ contents, v.store.Shows x contents ∧
    final = settleKey x.lite3 key (v.ops a)
      (settleKey x.lite3 key ((v.queues lane).flatMap Task.ops) (contents key))

/-- What is queued for the key comes from this thread. -/
def Sole (key : Bytes) (lane : Fin 8) (t : Nat) (v : View) : Prop :=
  ∀ task ∈ v.queues lane, Spares key task.ops ∨ task.producer = t

/-- The agent is of the thread that has handed over what is queued for the key. -/
def FromOne (key : Bytes) (lane : Fin 8) (a : Agent) (v : View) : Prop :=
  ∃ t, v.Sole key lane t ∧ (Spares key (v.ops a) ∨ a.producer = t)

end View

section

variable {x : External} {key : Bytes} {lane : Fin 8}

theorem Spares.settle {ops : List ShardOp} (h : Spares key ops) (content : Bytes) :
    settleKey x.lite3 key ops content = content := settle_of_ne h content

private theorem Via.spares_of_ne {i : Option (Fin 8)} {ops : List ShardOp}
    (h : Via key lane (i, ops))
    (hne : i ≠ some lane) : Spares key ops := by
  rcases h with hspares | ⟨hlane, -⟩
  · exact hspares
  · exact absurd hlane hne

theorem Via.tail {i : Option (Fin 8)} {o : ShardOp} {ops : List ShardOp}
    (h : Via key lane (i, o :: ops)) : Via key lane (i, ops) := by
  rcases h with hspares | ⟨hlane, hsteady⟩
  · exact Or.inl fun o' ho' => hspares o' (List.mem_cons_of_mem _ ho')
  · exact Or.inr ⟨hlane, (List.pairwise_cons.mp hsteady).2⟩

private theorem settleKey_cons (o : ShardOp) (ops : List ShardOp) (content : Bytes) :
    settleKey x.lite3 key (o :: ops) content =
      settleKey x.lite3 key ops (if o.key = key then o.effect x.lite3 content else content) := rfl

private theorem Via.dropped (hz : x.zstd.Lossless) (hframed : x.zstd.Framed) {st : Store}
    (hshort : st.ValuesShort x) {contents : Bytes → Bytes} (h : st.Shows x contents)
    {i : Option (Fin 8)} {ops : List ShardOp} (hvia : Via key lane (i, ops))
    (hend : ops = [] ∨ ∃ o rest, ops = o :: rest ∧ st.apply x o = none) :
    settleKey x.lite3 key ops (contents key) = contents key := by
  rcases hend with rfl | ⟨o, rest, rfl, hnone⟩
  · rfl
  · rcases hvia with hspares | ⟨-, hsteady⟩
    · exact hspares.settle _
    · have hrest : Spares key rest := fun o' ho' =>
        (List.pairwise_cons.mp hsteady).1 o' ho' (Store.apply_patches hnone)
      rw [settleKey_cons, hrest.settle]
      split
      · rename_i heq
        subst heq
        exact h.threw hz hframed hshort hnone
      · rfl

namespace View.Destined

variable {a : Agent} {final : Bytes} {v v' : View}

private theorem begin_spares (h : v.Destined x key lane a final) {a' : Agent}
    (hnone : v.parts a' = [])
    {parts : List (Option (Fin 8) × List ShardOp)} (hparts : Spares key (parts.flatMap Prod.snd)) :
    (v.setParts a' parts).Destined x key lane a final := by
  have hops : (v.setParts a' parts).ops a' = parts.flatMap Prod.snd := by
    simp [View.ops, View.setParts]
  have hne {b : Agent} (hb : b ≠ a') : (v.setParts a' parts).parts b = v.parts b := by
    simp [View.setParts, hb]
  by_cases heq : a' = a
  · subst heq
    refine ⟨h.queues, fun part hpart => ?_, fun b hb => ?_, ?_⟩
    · left
      intro o ho
      apply hparts o
      simp only [View.setParts, Function.update_self] at hpart
      exact List.mem_flatMap.mpr ⟨part, hpart, ho⟩
    · rw [View.ops, hne hb]
      exact h.others b hb
    · obtain ⟨contents, hshows, hfinal⟩ := h.foreseen
      refine ⟨contents, hshows, ?_⟩
      rw [hops, hparts.settle, hfinal, View.ops, hnone]
      rfl
  · refine ⟨h.queues, ?_, fun b hb => ?_, ?_⟩
    · rw [hne (Ne.symm heq)]
      exact h.parts
    · by_cases hba : b = a'
      · rw [hba, hops]
        exact hparts
      · rw [View.ops, hne hba]
        exact h.others b hb
    · rw [View.ops, hne (Ne.symm heq)]
      exact h.foreseen

private theorem begin_via (h : v.Destined x key lane a final) (hall : ∀ b, Spares key (v.ops b))
    (a' : Agent)
    {parts : List (Option (Fin 8) × List ShardOp)} (hparts : ∀ part ∈ parts, Via key lane part) :
    (v.setParts a' parts).Destined x key lane a'
      (settleKey x.lite3 key (parts.flatMap Prod.snd) final) := by
  have hne {b : Agent} (hb : b ≠ a') : (v.setParts a' parts).parts b = v.parts b := by
    simp [View.setParts, hb]
  refine ⟨h.queues, ?_, fun b hb => ?_, ?_⟩
  · simpa [View.setParts] using hparts
  · rw [View.ops, hne hb]
    exact hall b
  · obtain ⟨contents, hshows, hfinal⟩ := h.foreseen
    refine ⟨contents, hshows, ?_⟩
    rw [hfinal, (hall a).settle]
    simp [View.ops, View.setParts]

private theorem lessParts (h : v.Destined x key lane a final) {a' : Agent}
    {part : Option (Fin 8) × List ShardOp} {rest : List (Option (Fin 8) × List ShardOp)}
    (hparts : v.parts a' = part :: rest) :
    Via key lane part ∧ (∀ b, b ≠ a → Spares key ((v.setParts a' rest).ops b)) ∧
      (∀ part ∈ (v.setParts a' rest).parts a, Via key lane part) ∧
      (a' ≠ a → Spares key part.2 ∧ (v.setParts a' rest).ops a = v.ops a) ∧
      (a' = a → v.ops a = part.2 ++ (v.setParts a' rest).ops a) := by
  have hops : v.ops a' = part.2 ++ rest.flatMap Prod.snd := by
    rw [View.ops, hparts, List.flatMap_cons]
  have hself : (v.setParts a' rest).parts a' = rest := by simp [View.setParts]
  have hne {b : Agent} (hb : b ≠ a') : (v.setParts a' rest).parts b = v.parts b := by
    simp [View.setParts, hb]
  by_cases heq : a' = a
  · subst heq
    refine ⟨h.parts part (by simp [hparts]), fun b hb => ?_, fun p hp => ?_,
      fun hne' => absurd rfl hne', fun _ => ?_⟩
    · rw [View.ops, hne hb]
      exact h.others b hb
    · rw [hself] at hp
      exact h.parts p (by simp [hparts, hp])
    · rw [hops, View.ops, hself]
  · have hspares := h.others a' heq
    rw [hops] at hspares
    have hpart : Spares key part.2 := fun o ho => hspares o (List.mem_append_left _ ho)
    have hsame : (v.setParts a' rest).parts a = v.parts a := hne (Ne.symm heq)
    refine ⟨Or.inl hpart, fun b hb => ?_, ?_, fun _ => ⟨hpart, ?_⟩, fun heq' => absurd heq' heq⟩
    · by_cases hba : b = a'
      · rw [hba, View.ops, hself]
        exact fun o ho => hspares o (List.mem_append_right _ ho)
      · rw [View.ops, hne hba]
        exact h.others b hb
    · rw [hsame]
      exact h.parts
    · rw [View.ops, hsame]
      rfl

theorem hand (h : v.Destined x key lane a final) {a' : Agent} {i : Fin 8} {ops : List ShardOp}
    {rest : List (Option (Fin 8) × List ShardOp)} (owner : Option Nat)
    (hparts : v.parts a' = (some i, ops) :: rest) :
    ({ v with
      queues := Function.update v.queues i (v.queues i ++ [Task.mk a'.producer owner ops false])
      }.setParts a' rest).Destined x key lane a final := by
  obtain ⟨hvia, hothers, hrest, hnot, hown⟩ := h.lessParts hparts
  obtain ⟨contents, hshows, hfinal⟩ := h.foreseen
  refine ⟨fun j task htask => ?_, hrest, hothers, contents, hshows, ?_⟩
  · by_cases hj : j = i
    · subst hj
      simp only [View.setParts, Function.update_self, List.mem_append, List.mem_singleton] at htask
      rcases htask with htask | rfl
      · exact h.queues j task htask
      · exact hvia
    · simp only [View.setParts, Function.update_of_ne hj] at htask
      exact h.queues j task htask
  · -- The operations on the key move from the front of what is left to the end of the lane.
    rw [hfinal]
    have hmoved : settleKey x.lite3 key (v.ops a)
        (settleKey x.lite3 key ((v.queues lane).flatMap Task.ops) (contents key)) =
        settleKey x.lite3 key ((v.setParts a' rest).ops a) (settleKey x.lite3 key ops
          (settleKey x.lite3 key ((v.queues lane).flatMap Task.ops) (contents key))) := by
      by_cases heq : a' = a
      · rw [hown heq, settleKey, settle_append]
      · obtain ⟨hspares, hsame⟩ := hnot heq
        rw [hspares.settle, hsame]
    rw [hmoved]
    change _ = settleKey x.lite3 key ((v.setParts a' rest).ops a) (settleKey x.lite3 key
      ((Function.update v.queues i (v.queues i ++ [Task.mk a'.producer owner ops false])
        lane).flatMap Task.ops) _)
    by_cases hi : lane = i
    · subst hi
      rw [Function.update_self, List.flatMap_append, List.flatMap_singleton]
      rw [settleKey, settle_append (k := key) ((v.queues lane).flatMap Task.ops)]
    · rw [Function.update_of_ne hi]
      have hspares := hvia.spares_of_ne (by simpa using Ne.symm hi)
      rw [hspares.settle]

theorem act (hz : x.zstd.Lossless) (hframed : x.zstd.Framed) (hshort : v.store.ValuesShort x)
    (h : v.Destined x key lane a final) {a' : Agent} {o : ShardOp} {ops : List ShardOp} {st : Store}
    (hparts : v.parts a' = [(none, o :: ops)]) (happly : v.store.apply x o = some st) :
    ({ v with store := st }.setParts a' [(none, ops)]).Destined x key lane a final := by
  obtain ⟨hvia, -, -, -⟩ := h.lessParts hparts
  have hspares := hvia.spares_of_ne (by simp)
  have htail : Spares key ops := fun o' ho' => hspares o' (List.mem_cons_of_mem _ ho')
  obtain ⟨contents, hshows, hfinal⟩ := h.foreseen
  obtain ⟨contents', hshows', hcontent⟩ := hshows.applied hz hframed hshort happly key
  rw [if_neg (hspares o List.mem_cons_self)] at hcontent
  have hne {b : Agent} (hb : b ≠ a') :
      ({ v with store := st }.setParts a' [(none, ops)]).ops b = v.ops b := by
    simp [View.ops, View.setParts, hb]
  have hself : ({ v with store := st }.setParts a' [(none, ops)]).ops a' = ops := by
    simp [View.ops, View.setParts]
  refine ⟨h.queues, fun part hpart => ?_, fun b hb => ?_, contents', hshows', ?_⟩
  · by_cases heq : a = a'
    · subst heq
      simp only [View.setParts, Function.update_self, List.mem_singleton] at hpart
      rw [hpart]
      exact Or.inl htail
    · simp only [View.setParts, Function.update_of_ne heq] at hpart
      exact h.parts part hpart
  · by_cases heq : b = a'
    · rw [heq, hself]
      exact htail
    · rw [hne heq]
      exact h.others b hb
  · rw [hcontent, hfinal]
    by_cases heq : a = a'
    · subst heq
      have hbefore : v.ops a = o :: ops := by simp [View.ops, hparts]
      rw [hself, hbefore, htail.settle, hspares.settle]
      rfl
    · rw [hne heq]
      rfl

theorem leave (h : v.Destined x key lane a final) {a' : Agent} {ops : List ShardOp}
    (hparts : v.parts a' = [(none, ops)]) : (v.setParts a' []).Destined x key lane a final := by
  obtain ⟨hvia, hothers, hrest, hnot, hown⟩ := h.lessParts hparts
  obtain ⟨contents, hshows, hfinal⟩ := h.foreseen
  refine ⟨h.queues, hrest, hothers, contents, hshows, ?_⟩
  rw [hfinal]
  by_cases heq : a' = a
  · rw [hown heq, settleKey, settle_append]
    rw [← settleKey, (hvia.spares_of_ne (by simp)).settle]
    rfl
  · rw [(hnot heq).2]
    rfl

theorem serve (h : v.Destined x key lane a final) {i : Fin 8} {tasks : List Task} {st : Store}
    (htasks : ∀ task ∈ tasks, Via key lane (some i, task.ops))
    (hsame : ∀ contents, v.store.Shows x contents → ∃ contents', st.Shows x contents' ∧
      (i ≠ lane → contents' key = contents key) ∧
      (i = lane → settleKey x.lite3 key (tasks.flatMap Task.ops) (contents' key) =
        settleKey x.lite3 key ((v.queues lane).flatMap Task.ops) (contents key))) :
    View.Destined x key lane a final
      { v with store := st, queues := Function.update v.queues i tasks } := by
  obtain ⟨contents, hshows, hfinal⟩ := h.foreseen
  obtain ⟨contents', hshows', hother, hlane⟩ := hsame contents hshows
  refine ⟨fun j task htask => ?_, h.parts, h.others, contents', hshows', ?_⟩
  · by_cases hj : j = i
    · subst hj
      simp only [Function.update_self] at htask
      exact htasks task htask
    · simp only [Function.update_of_ne hj] at htask
      exact h.queues j task htask
  · rw [hfinal]
    change _ = settleKey x.lite3 key (v.ops a) (settleKey x.lite3 key
      ((Function.update v.queues i tasks lane).flatMap Task.ops) (contents' key))
    by_cases hi : i = lane
    · subst hi
      rw [Function.update_self, hlane rfl]
    · rw [Function.update_of_ne (Ne.symm hi), hother hi]

private theorem move (hz : x.zstd.Lossless) (hframed : x.zstd.Framed)
    (hshort : v.store.ValuesShort x)
    (h : v.Destined x key lane a final) {t : Nat} (hsole : v.Sole key lane t)
    (hmove : View.Move x v v') : v'.Destined x key lane a final := by
  cases hmove with
  | stay => exact h
  | hand owner hparts => exact h.hand owner hparts
  | act hparts happly => exact h.act hz hframed hshort hparts happly
  | leave hparts => exact h.leave hparts
  | @take i task front back hqueue hfront =>
      apply h.serve
      · intro task' htask'
        rcases List.mem_cons.mp htask' with rfl | htask'
        · exact h.queues i task (by simp [hqueue])
        · exact h.queues i task' (Task.mem_of_left hqueue htask')
      · intro contents hshows
        refine ⟨contents, hshows, fun _ => rfl, fun hi => ?_⟩
        subst hi
        rw [hqueue, List.flatMap_cons, List.flatMap_append, List.flatMap_append, List.flatMap_cons,
          Task.goOn_ops]
        simp only [settleKey, settle_append]
        -- The tasks for the key come from one thread, so that they are not overtaken.
        rcases hsole task (by simp [hqueue]) with hspares | hproducer
        · simp only [settle_of_ne hspares]
        · have hothers : Spares key (front.flatMap Task.ops) := by
            intro o ho
            obtain ⟨other, hother, ho⟩ := List.mem_flatMap.mp ho
            rcases hsole other (by simp [hqueue, hother]) with hspares | hsame
            · exact hspares o ho
            · exact absurd (hsame.trans hproducer.symm) (hfront other hother)
          simp only [settle_of_ne hothers]
  | @perform i task o ops rest st hqueue hops happly =>
      have hfirst := h.queues i task (by simp [hqueue])
      rw [hops] at hfirst
      apply h.serve
      · intro task htask
        rcases List.mem_cons.mp htask with rfl | htask
        · exact hfirst.tail
        · exact h.queues i task (by simp [hqueue, htask])
      · intro contents hshows
        obtain ⟨contents', hshows', hcontent⟩ := hshows.applied hz hframed hshort happly key
        refine ⟨contents', hshows', fun hi => ?_, fun hi => ?_⟩
        · have hspares := hfirst.spares_of_ne (by simpa using hi)
          rw [hcontent, if_neg (hspares o List.mem_cons_self)]
        · subst hi
          rw [hqueue, List.flatMap_cons, List.flatMap_cons, hops, List.cons_append, settleKey_cons,
            hcontent]
          rfl
  | @finish i task rest hqueue hend =>
      have hfirst := h.queues i task (by simp [hqueue])
      apply h.serve
      · intro task' htask'
        exact h.queues i task' (by simp [hqueue, htask'])
      · intro contents hshows
        refine ⟨contents, hshows, fun _ => rfl, fun hi => ?_⟩
        subst hi
        rw [hqueue, List.flatMap_cons, settleKey, settle_append, ← settleKey,
          hfirst.dropped hz hframed hshort hshows hend]

end View.Destined

private theorem View.Move.ops_subset {v v' : View} (h : View.Move x v v') (a : Agent) :
    ∀ o ∈ v'.ops a, o ∈ v.ops a := by
  have hless {w : View} {a' : Agent} {part : Option (Fin 8) × List ShardOp}
      {rest : List (Option (Fin 8) × List ShardOp)} (hparts : v.parts a' = part :: rest)
      (hw : w.parts = Function.update v.parts a' rest) (o : ShardOp) (ho : o ∈ w.ops a) :
      o ∈ v.ops a := by
    rw [View.ops, hw] at ho
    by_cases heq : a = a'
    · subst heq
      rw [Function.update_self] at ho
      rw [View.ops, hparts, List.flatMap_cons]
      exact List.mem_append_right _ ho
    · rw [Function.update_of_ne heq] at ho
      exact ho
  cases h with
  | stay => exact fun o ho => ho
  | hand owner hparts => exact hless hparts rfl
  | @act a' o ops st hparts happly =>
      intro o' ho'
      by_cases heq : a = a'
      · subst heq
        simp only [View.ops, View.setParts, Function.update_self, List.flatMap_singleton] at ho'
        simp [View.ops, hparts, ho']
      · simp only [View.ops, View.setParts, Function.update_of_ne heq] at ho'
        exact ho'
  | leave hparts => exact hless hparts rfl
  | take => exact fun o ho => ho
  | perform => exact fun o ho => ho
  | finish => exact fun o ho => ho

/-- What is queued for the key keeps coming from one thread if who has something to do with it does. -/
theorem View.Move.sole {v v' : View} (h : View.Move x v v') {t : Nat} (hsole : v.Sole key lane t)
    (hagents : ∀ a, Spares key (v.ops a) ∨ a.producer = t) : v'.Sole key lane t := by
  have hupdate {i : Fin 8} {tasks : List Task}
      (htasks : i = lane → ∀ task ∈ tasks, Spares key task.ops ∨ task.producer = t) :
      ∀ task ∈ Function.update v.queues i tasks lane, Spares key task.ops ∨ task.producer = t := by
    by_cases hi : lane = i
    · subst hi
      rw [Function.update_self]
      exact htasks rfl
    · rw [Function.update_of_ne hi]
      exact hsole
  cases h with
  | stay => exact hsole
  | @hand a i ops rest owner hparts =>
      refine hupdate fun hi task htask => ?_
      subst hi
      rcases List.mem_append.mp htask with htask | htask
      · exact hsole task htask
      · rw [List.mem_singleton.mp htask]
        refine (hagents a).imp_left fun hspares o ho => hspares o ?_
        rw [View.ops, hparts, List.flatMap_cons]
        exact List.mem_append_left _ ho
  | act => exact hsole
  | leave => exact hsole
  | @take i task front back hqueue hfront =>
      refine hupdate fun hi task' htask' => ?_
      subst hi
      rcases List.mem_cons.mp htask' with rfl | htask'
      · exact hsole task (by simp [hqueue])
      · exact hsole task' (Task.mem_of_left hqueue htask')
  | @perform i task o ops rest st hqueue hops happly =>
      refine hupdate fun hi task' htask' => ?_
      subst hi
      rcases List.mem_cons.mp htask' with rfl | htask'
      · refine (hsole task (by simp [hqueue])).imp_left fun hspares o' ho' => hspares o' ?_
        rw [hops]
        exact List.mem_cons_of_mem _ ho'
      · exact hsole task' (by simp [hqueue, htask'])
  | @finish i task rest hqueue hend =>
      refine hupdate fun hi task' htask' => ?_
      subst hi
      exact hsole task' (by simp [hqueue, htask'])

private theorem View.FromOne.move {v v' : View} {a : Agent} (h : v.FromOne key lane a)
    (hothers : ∀ b, b ≠ a → Spares key (v.ops b)) (hmove : View.Move x v v') :
    v'.FromOne key lane a := by
  obtain ⟨t, hsole, hagent⟩ := h
  refine ⟨t, hmove.sole hsole fun b => ?_, hagent.imp_left fun hspares o ho =>
    hspares o (hmove.ops_subset a o ho)⟩
  by_cases hb : b = a
  · rw [hb]
    exact hagent
  · exact Or.inl (hothers b hb)

private theorem View.FromOne.begin_spares {v : View} {a a' : Agent} (h : v.FromOne key lane a)
    {parts : List (Option (Fin 8) × List ShardOp)} (hparts : Spares key (parts.flatMap Prod.snd)) :
    (v.setParts a' parts).FromOne key lane a := by
  obtain ⟨t, hsole, hagent⟩ := h
  refine ⟨t, hsole, ?_⟩
  by_cases heq : a = a'
  · subst heq
    left
    simpa [View.ops, View.setParts] using hparts
  · have hsame : (v.setParts a' parts).ops a = v.ops a := by simp [View.ops, View.setParts, heq]
    rw [hsame]
    exact hagent

/-- A task that the thread has handed over with one of these promises. -/
def Marker (t : Nat) (futures : List Nat) (task : Task) : Prop :=
  task.producer = t ∧ ∃ p ∈ futures, task.owner = some p

private theorem View.Move.barrier {v v' : View} (h : View.Move x v v') {a : Agent}
    (hothers : ∀ b, b ≠ a → Spares key (v.ops b)) (hsame : v'.parts a = v.parts a) {t : Nat}
    (hsole : v.Sole key lane t) {futures : List Nat}
    (hbarrier : Barrier (Marker t futures) (fun task => Spares key task.ops) (v.queues lane)) :
    Barrier (Marker t futures) (fun task => Spares key task.ops) (v'.queues lane) := by
  cases h with
  | stay => exact hbarrier
  | @hand a' i ops rest owner hparts =>
      have hne : a' ≠ a := by
        rintro rfl
        have hlength := congrArg List.length hsame
        simp [View.setParts, hparts] at hlength
      have hspares : Spares key ops := by
        intro o ho
        apply hothers a' hne o
        rw [View.ops, hparts, List.flatMap_cons]
        exact List.mem_append_left _ ho
      change Barrier _ _ (Function.update v.queues i
        (v.queues i ++ [Task.mk a'.producer owner ops false]) lane)
      by_cases hi : lane = i
      · subst hi
        rw [Function.update_self]
        exact hbarrier.push hspares
      · rw [Function.update_of_ne hi]
        exact hbarrier
  | act => exact hbarrier
  | leave => exact hbarrier
  | @take i task front back hqueue hfront =>
      change Barrier _ _ (Function.update v.queues i (task.goOn task.ops :: (front ++ back)) lane)
      by_cases hi : lane = i
      · subst hi
        rw [Function.update_self]
        rw [hqueue] at hbarrier
        refine hbarrier.take id id fun hmarker other hother => ?_
        rcases hsole other (by simp [hqueue, hother]) with hspares | hproducer
        · exact hspares
        · exact absurd (hproducer.trans hmarker.1.symm) (hfront other hother)
      · rw [Function.update_of_ne hi]
        exact hbarrier
  | @perform i task o ops rest st hqueue hops happly =>
      change Barrier _ _ (Function.update v.queues i (task.goOn ops :: rest) lane)
      by_cases hi : lane = i
      · subst hi
        rw [Function.update_self]
        rw [hqueue] at hbarrier
        refine hbarrier.serve id fun hfree o' ho' => hfree o' ?_
        rw [hops]
        exact List.mem_cons_of_mem _ ho'
      · rw [Function.update_of_ne hi]
        exact hbarrier
  | @finish i task rest hqueue hend =>
      change Barrier _ _ (Function.update v.queues i rest lane)
      by_cases hi : lane = i
      · subst hi
        rw [Function.update_self]
        rw [hqueue] at hbarrier
        exact hbarrier.pop
      · rw [Function.update_of_ne hi]
        exact hbarrier

namespace Fans

variable {u : Nat → Nat → UInt8} {s s' : Fans} {c : Nat}

/-- The queue of the lane holds operations on the key only as far as the last of these promises. -/
def Held (s : Fans) (key : Bytes) (lane : Fin 8) (c : Nat) (futures : List Nat) : Prop :=
  Barrier (Marker c futures) (fun task => Spares key task.ops) (s.machine.queues lane)

def Reached (s : Fans) (key : Bytes) (lane : Fin 8) (c : Nat) : FanPhase → Prop
  | .away => s.Held key lane c []
  | .begun _ tasks => lane ∈ tasks.map Prod.fst
  | .submitting tasks futures => lane ∈ tasks.map Prod.fst ∨ s.Held key lane c futures
  | .awaiting futures => s.Held key lane c futures

/-- Only the call of `c` has anything to do with the key, and it waits for the lane. -/
structure Guards (s : Fans) (key : Bytes) (lane : Fin 8) (c : Nat) : Prop where
  others : ∀ a, a ≠ .caller c → Spares key (s.view.ops a)
  sole : s.view.Sole key lane c
  reached : s.Reached key lane c (s.caller c)

private theorem caller_of_ne {event : FanEvent} (hrestart : event ≠ .step .restart)
    (hne : event.caller? ≠ some c) (hstep : s.step x u event = some s') :
    s'.caller c = s.caller c := by
  have hset {s₁ : Fans} {c' : Nat} (phase : FanPhase) (hc : event.caller? = some c') :
      (s₁.setCaller c' phase).caller c = s₁.caller c := by
    apply Function.update_of_ne
    rintro rfl
    exact hne hc
  cases event with
  | step event =>
      simp only [step] at hstep
      split at hstep
      · obtain ⟨m, -, rfl⟩ := Option.map_eq_some_iff.mp hstep
        split
        · exact absurd rfl hrestart
        · rfl
      · cases hstep
  | begin c' call =>
      simp only [step] at hstep
      repeat' split at hstep
      all_goals cases hstep
      · rfl
      · exact hset _ rfl
  | log c' =>
      simp only [step] at hstep
      split at hstep
      · cases hstep
        exact hset _ rfl
      · cases hstep
  | submit c' =>
      simp only [step] at hstep
      split at hstep
      · cases hstep
        exact hset _ rfl
      · cases hstep
        exact hset _ rfl
      · cases hstep
  | get c' =>
      simp only [step] at hstep
      repeat' split at hstep
      all_goals cases hstep
      · exact hset _ rfl
      · exact hset _ rfl

namespace Guards

private theorem others_step (h : s.Guards key lane c) (hnum : s.Numbered) {event : FanEvent}
    (hrestart : event ≠ .step .restart)
    (hbegins : ∀ a parts, s.begins x u event = some (a, parts) →
      a ≠ .caller c ∧ Spares key (parts.flatMap Prod.snd))
    (hstep : s.step x u event = some s') : ∀ a, a ≠ .caller c → Spares key (s'.view.ops a) := by
  intro b hb
  rcases step_view hnum hrestart hstep with ⟨a, parts, hbegin, -, hview⟩ | ⟨-, hmove⟩
  · rw [hview]
    by_cases heq : b = a
    · subst heq
      simpa [View.ops, View.setParts] using (hbegins b parts hbegin).2
    · have hsame : (s.view.setParts a parts).ops b = s.view.ops b := by
        simp [View.ops, View.setParts, heq]
      rw [hsame]
      exact h.others b hb
  · exact fun o ho => h.others b hb o (hmove.ops_subset b o ho)

private theorem sole_step (h : s.Guards key lane c) (hnum : s.Numbered) {event : FanEvent}
    (hrestart : event ≠ .step .restart) (hstep : s.step x u event = some s') :
    s'.view.Sole key lane c := by
  rcases step_view hnum hrestart hstep with ⟨a, parts, -, -, hview⟩ | ⟨-, hmove⟩
  · rw [hview]
    exact h.sole
  · refine hmove.sole h.sole fun a => ?_
    by_cases ha : a = .caller c
    · rw [ha]
      exact Or.inr rfl
    · exact Or.inl (h.others a ha)

private theorem held_step (h : s.Guards key lane c) (hnum : s.Numbered) {event : FanEvent}
    (hrestart : event ≠ .step .restart) (hne : event.caller? ≠ some c)
    (hstep : s.step x u event = some s') {futures : List Nat} (hheld : s.Held key lane c futures) :
    s'.Held key lane c futures := by
  rcases step_view hnum hrestart hstep with ⟨a, parts, -, -, hview⟩ | ⟨-, hmove⟩
  · have hqueues : s'.machine.queues = s.machine.queues := congrArg View.queues hview
    rw [Held, hqueues]
    exact hheld
  · have hsame : s'.view.parts (.caller c) = s.view.parts (.caller c) := by
      change (s'.caller c).parts = (s.caller c).parts
      rw [caller_of_ne hrestart hne hstep]
    exact hmove.barrier h.others hsame h.sole hheld

private theorem submit (h : s.Guards key lane c) (hstep : s.step x u (.submit c) = some s') :
    s'.Reached key lane c (s'.caller c) := by
  have hreached := h.reached
  simp only [step] at hstep
  split at hstep
  · rename_i shard ops tasks futures hcaller
    cases hstep
    rw [hcaller] at hreached
    rw [setCaller_self]
    by_cases hi : lane = shard
    · subst hi
      right
      change Barrier _ _ (Function.update s.machine.queues lane
        (s.machine.queues lane ++ [⟨c, some s.next, ops, false⟩]) lane)
      rw [Function.update_self]
      exact Barrier.mark _ ⟨rfl, s.next, by simp, rfl⟩
    · rcases hreached with htasks | hheld
      · left
        simpa [hi] using htasks
      · right
        change Barrier _ _ (Function.update s.machine.queues shard
          (s.machine.queues shard ++ [⟨c, some s.next, ops, false⟩]) lane)
        rw [Function.update_of_ne hi]
        refine Barrier.weaken hheld ?_
        rintro task - ⟨hproducer, p, hp, howner⟩
        exact ⟨hproducer, p, by simp [hp], howner⟩
  · rename_i futures hcaller
    cases hstep
    rw [hcaller] at hreached
    rcases hreached with htasks | hheld
    · cases htasks
    · rw [setCaller_self]
      exact hheld
  · cases hstep

theorem get (h : s.Guards key lane c) (hnum : s.Numbered) (hstep : s.step x u (.get c) = some s') :
    s'.Reached key lane c (s'.caller c) := by
  have hreached := h.reached
  simp only [step] at hstep
  split at hstep
  · rename_i p futures hcaller
    split at hstep
    · rename_i hidle
      cases hstep
      rw [hcaller] at hreached
      rw [setCaller_self]
      refine Barrier.weaken hreached ?_
      rintro task htask ⟨hproducer, q, hq, howner⟩
      rcases List.mem_cons.mp hq with rfl | hq
      · have hwaiting := hnum.owned.waiting lane q (List.mem_filterMap.mpr ⟨task, htask, howner⟩)
        rw [hidle] at hwaiting
        cases hwaiting
      · exact ⟨hproducer, q, hq, howner⟩
    · cases hstep
  · rename_i hcaller
    cases hstep
    rw [hcaller] at hreached
    rw [setCaller_self]
    exact hreached
  · cases hstep

theorem step (h : s.Guards key lane c) (hnum : s.Numbered) {event : FanEvent}
    (hrestart : event ≠ .step .restart)
    (hbegins : ∀ a parts, s.begins x u event = some (a, parts) →
      a ≠ .caller c ∧ Spares key (parts.flatMap Prod.snd))
    (hstep : s.step x u event = some s') : s'.Guards key lane c := by
  refine ⟨h.others_step hnum hrestart hbegins hstep, h.sole_step hnum hrestart hstep, ?_⟩
  by_cases hown : event.caller? = some c
  · cases event with
    | step event => cases hown
    | begin c' call =>
        cases hown
        exact absurd rfl (hbegins _ _ rfl).1
    | log c' =>
        cases hown
        have hreached := h.reached
        simp only [Fans.step] at hstep
        split at hstep
        · rename_i hcaller
          cases hstep
          rw [hcaller] at hreached
          rw [setCaller_self]
          exact Or.inl hreached
        · cases hstep
    | submit c' =>
        cases hown
        exact h.submit hstep
    | get c' =>
        cases hown
        exact h.get hnum hstep
  · have hreached := h.reached
    rw [caller_of_ne hrestart hown hstep]
    cases hcaller : s.caller c with
    | away =>
        rw [hcaller] at hreached
        exact h.held_step hnum hrestart hown hstep hreached
    | begun logged tasks =>
        rw [hcaller] at hreached
        exact hreached
    | submitting tasks futures =>
        rw [hcaller] at hreached
        exact hreached.imp id (h.held_step hnum hrestart hown hstep)
    | awaiting futures =>
        rw [hcaller] at hreached
        exact h.held_step hnum hrestart hown hstep hreached

end Guards

private theorem guards_begin {call : FanCall} (hbegin : s.step x u (.begin c call) = some s')
    (hlane : lane ∈ call.tasks.map Prod.fst) (hspares : ∀ a, Spares key (s.view.ops a))
    (hsole : s.view.Sole key lane c) : s'.Guards key lane c := by
  simp only [step] at hbegin
  split at hbegin
  · split at hbegin
    · cases hbegin
    · split at hbegin
      · rename_i hempty
        rw [List.isEmpty_iff.mp hempty.2] at hlane
        cases hlane
      · cases hbegin
        refine ⟨fun a ha => ?_, hsole, ?_⟩
        · have hsame : (s.setCaller c (.begun call.logged call.tasks)).view.ops a = s.view.ops a := by
            rw [view_setCaller]
            simp [View.ops, View.setParts, ha]
          rw [hsame]
          exact hspares a
        · rw [setCaller_self]
          exact hlane
  · cases hbegin

/-- The operations of the calls that begin, in order. -/
def written (x : External) (u : Nat → Nat → UInt8) (s : Fans) (events : List FanEvent) :
    List ShardOp :=
  (collect (step x u) (fun s event => (s.begins x u event).map fun b => b.2.flatMap Prod.snd) s
    events).flatten

/-- A call that begins has nothing to do with the key; or no other is about to hand over operations on
it, those that are queued come from the same thread, and all of its own go through the lane. -/
def InTurn (x : External) (u : Nat → Nat → UInt8) (key : Bytes) (lane : Fin 8) (s : Fans)
    (event : FanEvent) : Prop :=
  ∀ a parts, s.begins x u event = some (a, parts) → Spares key (parts.flatMap Prod.snd) ∨
    (∀ b, Spares key (s.view.ops b)) ∧ s.view.Sole key lane a.producer ∧
      ∀ part ∈ parts, Via key lane part

private theorem destined_init (nodeId : UInt32) (threads : Nat) :
    (init x nodeId threads).view.Destined x key lane (.caller 0) [] := by
  have hfind (key : Bytes) : (Store.init x).find x key = none := by simp [Store.find, Store.init]
  refine ⟨fun i task htask => ?_, by simp [view, parts, init, FanPhase.parts], fun a _ o ho => ?_,
    fun _ => [], fun key => Or.inr ⟨hfind key, rfl⟩, rfl⟩
  · cases htask
  · cases a <;> cases ho

private theorem destined_run (hz : x.zstd.Lossless) (hframed : x.zstd.Framed) {nodeId : UInt32}
    {threads : Nat} {events : List FanEvent}
    (hsteps : EveryStep (step x u) (init x nodeId threads) events fun s event =>
      event ≠ .step .restart ∧ InTurn x u key lane s event ∧ s.machine.store.ValuesShort x)
    (hrun : (init x nodeId threads).run x u events = some s) :
    s.Numbered ∧ ∃ a, s.view.Destined x key lane a
      (settleKey x.lite3 key ((init x nodeId threads).written x u events) []) ∧
        s.view.FromOne key lane a := by
  refine collect_invariant (fun batches s => s.Numbered ∧ ∃ a, s.view.Destined x key lane a
    (settleKey x.lite3 key batches.flatten []) ∧ s.view.FromOne key lane a) ?_ ?_ hsteps hrun
  · refine ⟨Numbered.init nodeId threads, _, destined_init nodeId threads, 0, ?_, Or.inr rfl⟩
    intro task htask
    cases htask
  · rintro batches s₁ event s₂ ⟨hnum, a, hdestined, hone⟩ ⟨hrestart, hturn, hshort⟩ hstep
    refine ⟨hnum.step hstep, ?_⟩
    rw [List.flatten_append, settleKey, settle_append, ← settleKey]
    rcases step_view hnum hrestart hstep with ⟨a', parts, hbegin, hnone, hview⟩ | ⟨hbegin, hmove⟩
    · rw [hview, hbegin, Option.map_some, Option.toList_some, List.flatten_singleton]
      rcases hturn a' parts hbegin with hspares | ⟨hall, hsole, hvia⟩
      · rw [hspares.settle]
        exact ⟨a, hdestined.begin_spares hnone hspares, hone.begin_spares hspares⟩
      · exact ⟨a', hdestined.begin_via hall a' hvia, _, hsole, Or.inr rfl⟩
    · rw [hbegin]
      have ⟨t, hsole, _⟩ := hone
      exact ⟨a, hdestined.move hz hframed hshort hsole hmove, hone.move hdestined.others hmove⟩

end Fans

end

namespace Fans

/-- In every run of any number of threads that make calls of both kinds: when the operations on a key
are handed over one call after the other through the queue of one shard, each time by the thread
whose operations on the key are still queued, and a call of that thread that waits for the shard
begins after they are and returns, then `get` finds what the operations make of the key in the order
of their calls. -/
theorem fan_out_settles {x : External} (hz : x.zstd.Lossless) (hframed : x.zstd.Framed)
    {u : Nat → Nat → UInt8} {nodeId : UInt32} {threads : Nat} (key : Bytes) (lane : Fin 8) {c : Nat}
    {call : FanCall} (before : List FanEvent) {during : List FanEvent} {s₀ s₁ s : Fans}
    (hbefore : (init x nodeId threads).run x u before = some s₀)
    (hbegin : s₀.step x u (.begin c call) = some s₁) (hduring : s₁.run x u during = some s)
    (hreturned : s.caller c = .away) (hlane : lane ∈ call.tasks.map Prod.fst)
    (hhanded : ∀ a, Spares key (s₀.view.ops a)) (hsole : s₀.view.Sole key lane c)
    (hsteps : EveryStep (step x u) (init x nodeId threads) (before ++ .begin c call :: during)
      fun s event => event ≠ .step .restart ∧ InTurn x u key lane s event ∧
        s.machine.store.ValuesShort x)
    (hquiet : EveryStep (step x u) s₁ during fun s event => ∀ a parts,
      s.begins x u event = some (a, parts) → a ≠ .caller c ∧ Spares key (parts.flatMap Prod.snd))
    (hlast : s.machine.store.ValuesShort x) :
    s.machine.store.get x key adminUid = settleKey x.lite3 key
      ((init x nodeId threads).written x u (before ++ .begin c call :: during)) [] := by
  have hrun : (init x nodeId threads).run x u (before ++ .begin c call :: during) = some s := by
    rw [run, List.foldlM_append]
    rw [run] at hbefore hduring
    rw [hbefore]
    simpa [hbegin] using hduring
  obtain ⟨-, a, hdestined, -⟩ := destined_run hz hframed hsteps hrun
  obtain ⟨hnum₀, -⟩ := destined_run hz hframed hsteps.front hbefore
  -- From its beginning on, the call is the only one that has anything to do with the key.
  have hguards : s.Numbered ∧ s.Guards key lane c := by
    have hboth : EveryStep (step x u) s₁ during fun s event => event ≠ .step .restart ∧ ∀ a parts,
        s.begins x u event = some (a, parts) → a ≠ .caller c ∧ Spares key (parts.flatMap Prod.snd) :=
      fun front event back hsplit s' hfront =>
        ⟨((hsteps.drop hbefore).tail hbegin front event back hsplit s' hfront).1,
          hquiet front event back hsplit s' hfront⟩
    refine run_invariant (fun _ s => s.Numbered ∧ s.Guards key lane c)
      ⟨hnum₀.step hbegin, guards_begin hbegin hlane hhanded hsole⟩ ?_ hboth hduring
    rintro _ s₂ event s₃ ⟨hnum, hguards⟩ ⟨hrestart, hbegins⟩ hstep
    exact ⟨hnum.step hstep, hguards.step hnum hrestart hbegins hstep⟩
  obtain ⟨-, hothers, -, hreached⟩ := hguards
  rw [hreturned] at hreached
  have hall (b : Agent) : Spares key (s.view.ops b) := by
    by_cases hb : b = .caller c
    · subst hb
      intro o ho
      change o ∈ (s.caller c).parts.flatMap Prod.snd at ho
      rw [hreturned] at ho
      cases ho
    · exact hothers b hb
  have hqueue : Spares key ((s.machine.queues lane).flatMap Task.ops) := by
    intro o ho
    obtain ⟨task, htask, ho⟩ := List.mem_flatMap.mp ho
    exact Barrier.passed hreached (by simp [Marker]) task htask o ho
  obtain ⟨contents, hshows, hfinal⟩ := hdestined.foreseen
  have hempty := hqueue.settle (x := x) (contents key)
  rw [(hall a).settle] at hfinal
  rw [hfinal]
  refine (hshows.get_eq hz hlast (by simp)).trans hempty.symm

private def fanX : External := External.reference fun _ => 0

/-- A put and a delete of `a` on the first shard; the delete is performed first. -/
private def fanCall : FanCall :=
  .applyBatchMutations [⟨.put, ascii "a", ascii "1"⟩, ⟨.delete, ascii "a", []⟩]
    (Function.update (fun _ => none) firstShard (some ⟨[(ascii "a", ascii "1")], [ascii "a"]⟩))

/-- The call until it returns. -/
private def fanEvents : List FanEvent :=
  [.log 0, .submit 0, .submit 0, .step (.shard firstShard), .step (.shard firstShard),
    .step (.shard firstShard), .get 0, .get 0]

private def fanReturned (s : Fans) : Bool :=
  match s.caller 0 with
  | .away => true
  | _ => false

theorem fan_out_settles_mutations :
    ∃ s, (init fanX 1 1).run fanX (fun _ _ => 0) (.begin 0 fanCall :: fanEvents) = some s ∧
      s.caller 0 = .away ∧ s.machine.store.get fanX (ascii "a") adminUid = ascii "1" := by
  have hfirst : ((init fanX 1 1).step fanX (fun _ _ => 0) (.begin 0 fanCall)).map
      (fun s₁ => (s₁.run fanX (fun _ _ => 0) fanEvents).map fun s =>
        (fanReturned s, s.machine.store.plain)) = some (some (true, true)) := by decide +kernel
  obtain ⟨s₁, hbegin, h⟩ := Option.map_eq_some_iff.mp hfirst
  obtain ⟨s, hduring, h⟩ := Option.map_eq_some_iff.mp h
  obtain ⟨hreturned, hplain⟩ := Prod.mk.inj h
  have haway : s.caller 0 = .away := by
    unfold fanReturned at hreturned
    split at hreturned
    · assumption
    · cases hreturned
  have hnone (a : Agent) : Spares (ascii "a") ((init fanX 1 1).view.ops a) := by
    cases a <;> exact fun o ho => absurd ho List.not_mem_nil
  have hnothing : ∀ event ∈ fanEvents, event ≠ .step .restart ∧ ∀ s : Fans,
      s.begins fanX (fun _ _ => 0) event = none := by
    simp [fanEvents, begins]
  have hshort : allSteps (step fanX fun _ _ => 0) (fun s _ => s.machine.store.plain) (init fanX 1 1)
      (.begin 0 fanCall :: fanEvents) = true := by decide +kernel
  have hget := fan_out_settles Zstd.plain_lossless Zstd.plain_framed (ascii "a") firstShard []
    rfl hbegin hduring haway (by decide) hnone (fun task htask => absurd htask List.not_mem_nil)
    (by
      refine everyStep_cons ⟨by simp, ?_, Store.valuesShort_of_plain (by decide +kernel)⟩
        fun s' hs' front event back hsplit s'' hfront => ?_
      · intro a parts hparts
        cases hparts
        exact Or.inr ⟨hnone, fun task htask => absurd htask List.not_mem_nil, by decide⟩
      · obtain ⟨hrestart, hbegins⟩ := hnothing event (by rw [hsplit]; simp)
        refine ⟨hrestart, fun a parts hparts => ?_, Store.valuesShort_of_plain
          (everyStep_of_allSteps hshort |>.tail hs' front event back hsplit s'' hfront)⟩
        rw [hbegins] at hparts
        cases hparts)
    (by
      intro front event back hsplit s' _ a parts hparts
      rw [(hnothing event (by rw [hsplit]; simp)).2] at hparts
      cases hparts)
    (Store.valuesShort_of_plain hplain)
  refine ⟨s, ?_, haway, hget.trans (by decide +kernel)⟩
  rw [run, List.foldlM_cons, hbegin]
  exact hduring

end Fans

end L3KV
