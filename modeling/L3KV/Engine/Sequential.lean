import L3KV.Engine.Pending

/-!
# One call at a time

A machine whose calls are made one after the other, seen without its threads: what the call under
way still has to do, and what the calls before it have left on the shards. As long as one thread
has left it there, it is performed in order, and a call of that thread that waits comes to its
operations when nothing is left on its shard.
-/

namespace L3KV

open Framework

structure Sequential where
  store : Store
  own : Option Work
  left : Fin 8 → List ShardOp

/-- The next operation of a call that applies its operations itself or waits for them. -/
def Work.next : Work → Option (ShardOp × Work)
  | .wait s (o :: ops) => some (o, .wait s ops)
  | .direct (o :: ops) => some (o, .direct ops)
  | _ => none

/-- A step, with the operation it performs. -/
inductive Sequential.Step (x : External) : Sequential → Option ShardOp → Sequential → Prop
  | stay {v} : Step x v none v
  | hand {v s ops tasks} (hown : v.own = some (.async ((s, ops) :: tasks))) :
      Step x v none { v with
        own := some (.async tasks)
        left := Function.update v.left s (v.left s ++ ops) }
  | perform {v work o rest st} (hown : v.own = some work) (hnext : work.next = some (o, rest))
      (hready : ∀ s task, work = .wait s task → v.left s = [])
      (happly : v.store.apply x o = some st) :
      Step x v (some o) { v with store := st, own := some rest }
  /-- The call has come to its end, or its next operation throws. -/
  | stop {v work} (hown : v.own = some work)
      (hstop : work.ops = [] ∨ ∃ o rest, work.next = some (o, rest) ∧ v.store.apply x o = none) :
      Step x v none { v with own := none }
  | catchUp {v s o ops st} (hleft : v.left s = o :: ops) (happly : v.store.apply x o = some st) :
      Step x v (some o) { v with store := st, left := Function.update v.left s ops }
  /-- An operation throws, and its task ends there. -/
  | drop {v s o ops rest} (hleft : v.left s = o :: (ops ++ rest))
      (happly : v.store.apply x o = none) :
      Step x v none { v with left := Function.update v.left s rest }

/-- Calls are made one after the other, each by the thread that has handed over what is still queued,
and the process goes on. -/
def Event.OneByOne (m : Machine) : Event → Prop
  | start t _ => (∀ t', m.phase t' = .idle) ∧ ∀ s, ∀ task ∈ m.queues s, task.producer = t
  | restart => False
  | _ => True

namespace Machine

/-- The tasks are of calls of the thread that have returned. -/
def LeftBy (t : Nat) (tasks : List Task) : Prop :=
  ∀ task ∈ tasks, task.owner = none ∧ task.producer = t

inductive SeenAs : Machine → Sequential → Prop
  | idle {m t} (hphase : ∀ t, m.phase t = .idle) (hqueues : ∀ s, LeftBy t (m.queues s)) :
      SeenAs m ⟨m.store, none, m.queuedOps⟩
  | begun {m t work} (hphase : (∃ plan, m.phase t = .planned plan ∧ plan.work = work) ∨
        m.phase t = .logged work)
      (hothers : ∀ t', t' ≠ t → m.phase t' = .idle) (hqueues : ∀ s, LeftBy t (m.queues s)) :
      SeenAs m ⟨m.store, some work, m.queuedOps⟩
  | waiting {m t s front ops taken} (hphase : m.phase t = .waiting)
      (hothers : ∀ t', t' ≠ t → m.phase t' = .idle)
      (hqueue : m.queues s = front ++ [⟨t, some t, ops, taken⟩])
      (hfront : LeftBy t front) (hqueues : ∀ s', s' ≠ s → LeftBy t (m.queues s')) :
      SeenAs m ⟨m.store, some (.wait s ops),
        Function.update m.queuedOps s (front.flatMap Task.ops)⟩

section

variable {x : External} {u : Nat → Nat → UInt8} {m m' : Machine} {v : Sequential} {event : Event}

theorem SeenAs.store_eq (h : m.SeenAs v) : v.store = m.store := by
  cases h <;> rfl

/-- Between two calls nothing is under way. -/
theorem SeenAs.own_eq_none (h : m.SeenAs v) (hidle : ∀ t, m.phase t = .idle) :
    v.own = none ∧ v.left = m.queuedOps ∧ ∃ t, ∀ s, LeftBy t (m.queues s) := by
  cases h with
  | @idle t _ hqueues => exact ⟨rfl, rfl, t, hqueues⟩
  | @begun t work hphase =>
      rcases hphase with ⟨plan, hphase, -⟩ | hphase
      · rw [hidle t] at hphase
        cases hphase
      · rw [hidle t] at hphase
        cases hphase
  | @waiting t s front ops taken hphase =>
      rw [hidle t] at hphase
      cases hphase

theorem seenAs_ofEngine {e : Engine} : (ofEngine e).SeenAs ⟨e.store, none, (ofEngine e).queuedOps⟩ := by
  refine .idle (m := ofEngine e) (t := 0) (fun _ => rfl) ?_
  intro s task htask
  obtain ⟨ops, -, rfl⟩ := List.mem_map.mp htask
  exact ⟨rfl, rfl⟩

private theorem setQueue_queuedOps (m : Machine) (s : Fin 8) (tasks : List Task) :
    (m.setQueue s tasks).queuedOps = Function.update m.queuedOps s (tasks.flatMap Task.ops) := by
  funext s'
  by_cases heq : s' = s
  · subst heq
    simp [queuedOps, setQueue]
  · simp [queuedOps, setQueue, heq]

private theorem enqueue_queuedOps (m : Machine) (s : Fin 8) (task : Task) :
    (m.enqueue s task).queuedOps =
      Function.update m.queuedOps s (m.queuedOps s ++ task.ops) := by
  have hset : m.enqueue s task = m.setQueue s (m.queues s ++ [task]) := rfl
  rw [hset, setQueue_queuedOps]
  simp [queuedOps]

private theorem shardStep_left {t : Nat} {s : Fin 8} {task : Task} {rest : List Task}
    (htask : task.owner = none ∧ task.producer = t) (hqueue : m.queues s = task :: rest) :
    ∃ tasks st, LeftBy t tasks ∧
      m.shardStep x s task rest = { m with store := st }.setQueue s (tasks ++ rest) ∧
      ∀ (v : Sequential) (more : List ShardOp), v.store = m.store → v.left s = task.ops ++ more →
        v.Step x (m.performs x (.shard s)) { v with
          store := st
          left := Function.update v.left s (tasks.flatMap Task.ops ++ more) } := by
  have howner := htask.1
  cases hops : task.ops with
  | nil =>
      refine ⟨[], m.store, by simp [LeftBy], by simp [shardStep, hops, howner, wake], ?_⟩
      intro v more hstore hleft
      have hperforms : m.performs x (.shard s) = none := by simp [performs, hqueue, hops]
      have hsame : Function.update v.left s more = v.left := by
        rw [show more = v.left s by simpa using hleft.symm, Function.update_eq_self]
      rw [hperforms, List.flatMap_nil, List.nil_append, hsame, ← hstore]
      exact .stay
  | cons o ops =>
      cases happly : m.store.apply x o with
      | none =>
          refine ⟨[], m.store, by simp [LeftBy], by simp [shardStep, hops, happly, howner, wake], ?_⟩
          intro v more hstore hleft
          have hperforms : m.performs x (.shard s) = none := by simp [performs, hqueue, hops, happly]
          rw [hperforms, ← hstore]
          exact .drop hleft (by rw [hstore, happly])
      | some st =>
          refine ⟨[task.goOn ops], st, ?_, by simp [shardStep, hops, happly], ?_⟩
          · intro task' htask'
            rw [List.mem_singleton.mp htask']
            exact htask
          intro v more hstore hleft
          have hperforms : m.performs x (.shard s) = some o := by
            simp [performs, hqueue, hops, happly]
          rw [hperforms, List.flatMap_singleton]
          exact .catchUp hleft (by rw [hstore, happly])

private theorem LeftBy.setQueue {t : Nat} {s : Fin 8} {tasks : List Task} {s' : Fin 8}
    (h : LeftBy t (m.queues s')) (htasks : LeftBy t tasks) :
    LeftBy t ((m.setQueue s tasks).queues s') := by
  simp only [Machine.setQueue, Function.update_apply]
  split
  · exact htasks
  · exact h

private theorem LeftBy.append {t : Nat} {tasks more : List Task} (h : LeftBy t tasks)
    (hmore : LeftBy t more) : LeftBy t (tasks ++ more) := by
  intro task htask
  rcases List.mem_append.mp htask with htask | htask
  · exact h task htask
  · exact hmore task htask

private theorem LeftBy.cons {t : Nat} {task : Task} {rest : List Task}
    (h : LeftBy t (task :: rest)) : (task.owner = none ∧ task.producer = t) ∧ LeftBy t rest :=
  ⟨h task List.mem_cons_self, fun task' htask' => h task' (List.mem_cons_of_mem _ htask')⟩

private theorem seenAs_waiting (front : List Task) (taken : Bool) {t : Nat} {s : Fin 8}
    {ops : List ShardOp} {left : Fin 8 → List ShardOp} (hphase : m.phase t = .waiting)
    (hothers : ∀ t', t' ≠ t → m.phase t' = .idle)
    (hqueue : m.queues s = front ++ [⟨t, some t, ops, taken⟩])
    (hfront : LeftBy t front) (hqueues : ∀ s', s' ≠ s → LeftBy t (m.queues s'))
    (hhere : left s = front.flatMap Task.ops) (hrest : ∀ s', s' ≠ s → left s' = m.queuedOps s') :
    m.SeenAs ⟨m.store, some (.wait s ops), left⟩ := by
  have hleft : left = Function.update m.queuedOps s (front.flatMap Task.ops) := by
    funext s'
    by_cases heq : s' = s
    · rw [heq, hhere, Function.update_self]
    · rw [hrest s' heq, Function.update_of_ne heq]
  rw [hleft]
  exact .waiting hphase hothers hqueue hfront hqueues

private theorem seenAs_served {t : Nat} {s : Fin 8} {ops : List ShardOp} {taken : Bool}
    (hphase : m.phase t = .waiting) (hothers : ∀ t', t' ≠ t → m.phase t' = .idle)
    (hqueue : m.queues s = [⟨t, some t, ops, taken⟩])
    (hqueues : ∀ s', s' ≠ s → LeftBy t (m.queues s')) :
    ∃ v', (m.shardStep x s ⟨t, some t, ops, taken⟩ []).SeenAs v' ∧
      Sequential.Step x ⟨m.store, some (.wait s ops), Function.update m.queuedOps s []⟩
        (m.performs x (.shard s)) v' := by
  have hidle : ((m.setQueue s []).wake (some t)).SeenAs
      ⟨m.store, none, Function.update m.queuedOps s []⟩ := by
    rw [show Function.update m.queuedOps s [] = (m.setQueue s []).queuedOps by
      rw [setQueue_queuedOps, List.flatMap_nil]]
    refine .idle (m := (m.setQueue s []).wake (some t)) (t := t) ?_ ?_
    · intro t'
      by_cases heq : t' = t
      · simp [wake, Machine.setPhase, heq]
      · simpa [wake, Machine.setPhase, Machine.setQueue, heq] using hothers t' heq
    · intro s'
      by_cases heq : s' = s
      · simp [heq, Machine.setQueue, LeftBy]
      · simpa [Machine.setQueue, heq] using hqueues s' heq
  cases ops with
  | nil =>
      have hperforms : m.performs x (.shard s) = none := by simp [performs, hqueue]
      rw [hperforms]
      exact ⟨_, hidle, .stop rfl (Or.inl rfl)⟩
  | cons o ops =>
      cases happly : m.store.apply x o with
      | none =>
          have hperforms : m.performs x (.shard s) = none := by simp [performs, hqueue, happly]
          rw [hperforms]
          refine ⟨_, ?_, .stop rfl (Or.inr ⟨o, .wait s ops, rfl, happly⟩)⟩
          simpa only [shardStep, happly] using hidle
      | some st =>
          have hperforms : m.performs x (.shard s) = some o := by simp [performs, hqueue, happly]
          rw [hperforms]
          refine ⟨_, ?_, .perform rfl rfl ?_ happly⟩
          · simp only [shardStep, happly]
            refine seenAs_waiting [] true
              (m := { m with store := st }.setQueue s [⟨t, some t, ops, true⟩]) hphase hothers ?_
              (by simp [LeftBy]) ?_ (Function.update_self ..) ?_
            · simp [Machine.setQueue]
            · intro s' hs'
              simpa [Machine.setQueue, hs'] using hqueues s' hs'
            · intro s' hs'
              simp [queuedOps, Machine.setQueue, hs']
          · intro s' task hwait
            cases hwait
            exact Function.update_self ..

private theorem shardStep_between {t : Nat} {s : Fin 8} {task : Task} {rest : List Task}
    (hqueues : ∀ s, LeftBy t (m.queues s)) (hqueue : m.queues s = task :: rest) :
    (m.shardStep x s task rest).phase = m.phase ∧
      (∀ s', LeftBy t ((m.shardStep x s task rest).queues s')) ∧
      ∀ own, Sequential.Step x ⟨m.store, own, m.queuedOps⟩ (m.performs x (.shard s))
        ⟨(m.shardStep x s task rest).store, own, (m.shardStep x s task rest).queuedOps⟩ := by
  obtain ⟨htask, hrest⟩ := (hqueue ▸ hqueues s).cons
  obtain ⟨tasks, st, htasks, hstep, hview⟩ := shardStep_left (x := x) htask hqueue
  rw [hstep]
  refine ⟨rfl, fun s' => LeftBy.setQueue (m := { m with store := st }) (hqueues s')
    (htasks.append hrest), fun own => ?_⟩
  rw [setQueue_queuedOps, List.flatMap_append]
  exact hview ⟨m.store, own, m.queuedOps⟩ (rest.flatMap Task.ops) rfl (by simp [queuedOps, hqueue])

theorem SeenAs.shard (h : m.SeenAs v) {s : Fin 8} {task : Task} {rest : List Task}
    (hqueue : m.queues s = task :: rest) :
    ∃ v', (m.shardStep x s task rest).SeenAs v' ∧ v.Step x (m.performs x (.shard s)) v' := by
  cases h with
  | idle hphase hqueues =>
      obtain ⟨hsame, hleft, hview⟩ := shardStep_between (x := x) hqueues hqueue
      exact ⟨_, .idle (fun t => (congrFun hsame t).trans (hphase t)) hleft, hview none⟩
  | begun hphase hothers hqueues =>
      obtain ⟨hsame, hleft, hview⟩ := shardStep_between (x := x) hqueues hqueue
      rw [← hsame] at hphase hothers
      exact ⟨_, .begun hphase hothers hleft, hview _⟩
  | @waiting t s₁ front ops taken hphase hothers hown hfront hqueues =>
      by_cases heq : s = s₁
      · subst heq
        cases front with
        | nil =>
            -- The call itself is served.
            rw [hown, List.nil_append] at hqueue
            cases hqueue
            exact seenAs_served hphase hothers hown hqueues
        | cons first front =>
            obtain ⟨htask, hrest⟩ := hfront.cons
            rw [hown, List.cons_append] at hqueue
            obtain ⟨rfl, rfl⟩ := List.cons.inj hqueue
            rw [List.cons_append] at hown
            obtain ⟨tasks, st, htasks, hstep, hview⟩ := shardStep_left (x := x) htask hown
            refine ⟨_, ?_, hview _ (front.flatMap Task.ops) rfl (by simp)⟩
            rw [hstep]
            refine seenAs_waiting (tasks ++ front) taken (m := { m with store := st }.setQueue s _) hphase
              hothers ?_ (htasks.append hrest) ?_ ?_ ?_
            · simp [Machine.setQueue]
            · intro s' hs'
              simpa [Machine.setQueue, hs'] using hqueues s' hs'
            · simp
            · intro s' hs'
              simp [queuedOps, Machine.setQueue, hs']
      · obtain ⟨htask, hrest⟩ := (hqueue ▸ hqueues s heq).cons
        obtain ⟨tasks, st, htasks, hstep, hview⟩ := shardStep_left (x := x) htask hqueue
        refine ⟨_, ?_, hview _ (rest.flatMap Task.ops) rfl (by simp [heq, queuedOps, hqueue])⟩
        rw [hstep]
        refine seenAs_waiting front taken (m := { m with store := st }.setQueue s _) hphase hothers ?_
          hfront ?_ ?_ ?_
        · simpa [Machine.setQueue, Ne.symm heq] using hown
        · intro s' hs'
          exact LeftBy.setQueue (m := { m with store := st }) (hqueues s' hs') (htasks.append hrest)
        · simp [Ne.symm heq]
        · intro s' hs'
          by_cases hs : s' = s
          · subst hs
            simp [queuedOps, Machine.setQueue]
          · simp [queuedOps, Machine.setQueue, hs, hs']

private theorem SeenAs.producer_eq (h : m.SeenAs v) :
    ∃ t, ∀ s, ∀ task ∈ m.queues s, task.producer = t := by
  cases h with
  | @idle t _ hqueues => exact ⟨t, fun s task htask => (hqueues s task htask).2⟩
  | @begun t _ _ _ hqueues => exact ⟨t, fun s task htask => (hqueues s task htask).2⟩
  | @waiting t s₁ front ops taken hphase hothers hown hfront hqueues =>
      refine ⟨t, fun s task htask => ?_⟩
      by_cases heq : s = s₁
      · rw [heq, hown] at htask
        rcases List.mem_append.mp htask with htask | htask
        · exact (hfront task htask).2
        · rw [List.mem_singleton.mp htask]
      · exact (hqueues s heq task htask).2

private theorem SeenAs.takeFirst (h : m.SeenAs v) {s : Fin 8} {task : Task} {rest : List Task}
    (hqueue : m.queues s = task :: rest) :
    (m.setQueue s (task.goOn task.ops :: rest)).SeenAs v := by
  have hops : (m.setQueue s (task.goOn task.ops :: rest)).queuedOps = m.queuedOps := by
    rw [setQueue_queuedOps, Function.update_eq_self_iff]
    simp [queuedOps, hqueue]
  have hleft {t : Nat} {s' : Fin 8} (hs' : LeftBy t (m.queues s')) :
      LeftBy t ((m.setQueue s (task.goOn task.ops :: rest)).queues s') := by
    by_cases heq : s' = s
    · subst heq
      obtain ⟨htask, hrest⟩ := (hqueue ▸ hs').cons
      refine LeftBy.setQueue hs' fun task' htask' => ?_
      rcases List.mem_cons.mp htask' with rfl | htask'
      · exact htask
      · exact hrest task' htask'
    · simpa [Machine.setQueue, heq] using hs'
  cases h with
  | idle hphase hqueues =>
      rw [← hops]
      exact .idle (m := m.setQueue s _) hphase fun s' => hleft (hqueues s')
  | begun hphase hothers hqueues =>
      rw [← hops]
      exact .begun (m := m.setQueue s _) hphase hothers fun s' => hleft (hqueues s')
  | @waiting t s₁ front ops taken hphase hothers hown hfront hqueues =>
      by_cases heq : s₁ = s
      · subst heq
        cases front with
        | nil =>
            rw [hown, List.nil_append] at hqueue
            cases hqueue
            refine seenAs_waiting [] true (m := m.setQueue s₁ _) hphase hothers ?_ (by simp [LeftBy])
              (fun s' hs' => hleft (hqueues s' hs')) (by simp) fun s' hs' => ?_
            · simp [Machine.setQueue, Task.goOn]
            · rw [Function.update_of_ne hs', hops]
        | cons first front =>
            rw [hown, List.cons_append] at hqueue
            obtain ⟨rfl, rfl⟩ := List.cons.inj hqueue
            obtain ⟨htask, hrest⟩ := hfront.cons
            refine seenAs_waiting (first.goOn first.ops :: front) taken (m := m.setQueue s₁ _) hphase
              hothers ?_ ?_ (fun s' hs' => hleft (hqueues s' hs')) (by simp) fun s' hs' => ?_
            · simp [Machine.setQueue]
            · intro task' htask'
              rcases List.mem_cons.mp htask' with rfl | htask'
              · exact htask
              · exact hrest task' htask'
            · rw [Function.update_of_ne hs', hops]
      · refine seenAs_waiting front taken (m := m.setQueue s _) hphase hothers ?_ hfront
          (fun s' hs' => hleft (hqueues s' hs')) (by simp) fun s' hs' => ?_
        · simpa [Machine.setQueue, heq] using hown
        · rw [Function.update_of_ne hs', hops]

theorem SeenAs.take (h : m.SeenAs v) {s : Fin 8} {task : Task} {front back : List Task}
    (hqueue : m.queues s = front ++ task :: back)
    (hfront : ∀ other ∈ front, other.producer ≠ task.producer) :
    (m.setQueue s (task.goOn task.ops :: (front ++ back))).SeenAs v := by
  obtain ⟨t, hproducer⟩ := h.producer_eq
  have hnil : front = [] := by
    apply List.eq_nil_iff_forall_not_mem.mpr
    intro other hother
    apply hfront other hother
    rw [hproducer s other (by simp [hqueue, hother]), hproducer s task (by simp [hqueue])]
  rw [hnil, List.nil_append] at hqueue ⊢
  exact h.takeFirst hqueue

theorem SeenAs.work (h : m.SeenAs v) {t : Nat} {work : Work} (hlogged : m.phase t = .logged work) :
    ∃ v', (m.workStep x t work).SeenAs v' ∧ v.Step x (m.performs x (.work t)) v' := by
  cases h with
  | idle hphase =>
      rw [hphase t] at hlogged
      cases hlogged
  | @waiting t' s front ops taken hphase hothers =>
      by_cases heq : t = t'
      · rw [heq, hphase] at hlogged
        cases hlogged
      · rw [hothers t heq] at hlogged
        cases hlogged
  | @begun t' work' hphase hothers hqueues =>
      obtain rfl : t = t' := by
        by_contra heq
        rw [hothers t heq] at hlogged
        cases hlogged
      obtain rfl : work' = work := by
        rcases hphase with ⟨plan, hphase, -⟩ | hphase
        · rw [hlogged] at hphase
          cases hphase
        · rw [hlogged] at hphase
          cases hphase
          rfl
      have hsame (phase : Phase) (t' : Nat) (ht' : t' ≠ t) : (m.setPhase t phase).phase t' = .idle := by
        rw [setPhase_of_ne m ht', hothers t' ht']
      have hidle : (m.setPhase t .idle).SeenAs ⟨m.store, none, m.queuedOps⟩ := by
        refine .idle (m := m.setPhase t .idle) (t := t) (fun t' => ?_) hqueues
        by_cases heq : t' = t
        · simp [Machine.setPhase, heq]
        · exact hsame .idle t' heq
      cases work' with
      | wait s task =>
          have hperforms : m.performs x (.work t) = none := by simp [performs, hlogged]
          rw [hperforms]
          refine ⟨_, ?_, .stay⟩
          refine seenAs_waiting (m.queues s) false
            (m := (m.enqueue s ⟨t, some t, task, false⟩).setPhase t .waiting)
            (by simp [Machine.setPhase]) (hsame .waiting) ?_ (hqueues s) ?_ rfl ?_
          · simp [Machine.setPhase, Machine.enqueue]
          · intro s' hs'
            simpa [Machine.setPhase, Machine.enqueue, hs'] using hqueues s'
          · intro s' hs'
            simp [queuedOps, Machine.setPhase, Machine.enqueue, hs']
      | async tasks =>
          have hperforms : m.performs x (.work t) = none := by simp [performs, hlogged]
          rw [hperforms]
          cases tasks with
          | nil => exact ⟨_, hidle, .stop rfl (Or.inl rfl)⟩
          | cons w tasks =>
              obtain ⟨s, ops⟩ := w
              refine ⟨_, ?_, .hand rfl⟩
              have hleft : Function.update m.queuedOps s (m.queuedOps s ++ ops) =
                  (m.enqueue s ⟨t, none, ops, false⟩).queuedOps :=
                (enqueue_queuedOps m s ⟨t, none, ops, false⟩).symm
              rw [hleft]
              refine .begun (m := (m.enqueue s ⟨t, none, ops, false⟩).setPhase t
                (.logged (.async tasks))) (Or.inr (Function.update_self ..)) (hsame _) fun s' => ?_
              exact LeftBy.setQueue (hqueues s') ((hqueues s).append (by simp [LeftBy]))
      | direct ops =>
          cases ops with
          | nil =>
              have hperforms : m.performs x (.work t) = none := by simp [performs, hlogged]
              rw [hperforms]
              exact ⟨_, hidle, .stop rfl (Or.inl rfl)⟩
          | cons o ops =>
              cases happly : m.store.apply x o with
              | none =>
                  have hperforms : m.performs x (.work t) = none := by
                    simp [performs, hlogged, happly]
                  rw [hperforms]
                  refine ⟨_, ?_, .stop rfl (Or.inr ⟨o, .direct ops, rfl, happly⟩)⟩
                  simpa only [workStep, happly] using hidle
              | some st =>
                  have hperforms : m.performs x (.work t) = some o := by
                    simp [performs, hlogged, happly]
                  rw [hperforms]
                  refine ⟨_, ?_, .perform rfl rfl (fun s task hwait => by cases hwait) happly⟩
                  simp only [workStep, happly]
                  exact .begun (m := { m with store := st }.setPhase t (.logged (.direct ops)))
                    (Or.inr (Function.update_self ..)) (hsame _) hqueues

theorem SeenAs.start (h : m.SeenAs v) (hidle : ∀ t, m.phase t = .idle) (t : Nat)
    (hproducer : ∀ s, ∀ task ∈ m.queues s, task.producer = t)
    (clock : HybridLogicalClock) (plan : Plan) :
    ({ m with clock := clock }.setPhase t (.planned plan)).SeenAs
      { v with own := some plan.work } := by
  obtain ⟨-, hleft, t', hqueues⟩ := h.own_eq_none hidle
  have hview : { v with own := some plan.work } = ⟨m.store, some plan.work, m.queuedOps⟩ := by
    rw [← hleft, ← h.store_eq]
  rw [hview]
  refine .begun (m := { m with clock := clock }.setPhase t (.planned plan))
    (Or.inl ⟨plan, Function.update_self .., rfl⟩) (fun t' ht' => ?_) ?_
  · rw [setPhase_of_ne _ ht']
    exact hidle t'
  · exact fun s task htask => ⟨(hqueues s task htask).1, hproducer s task htask⟩

theorem SeenAs.step (h : m.SeenAs v) (hstep : Step x u m event m') (hone : event.OneByOne m) :
    ∃ v', m'.SeenAs v' ∧ (v.Step x (m.performs x event) v' ∨
      ∃ t call clock plan, event = .start t call ∧
        m.engine.prepare x u call = some (clock, .accepted plan) ∧
        v' = { v with own := some plan.work }) := by
  cases hstep with
  | @start t call clock plan hidle hprep =>
      exact ⟨_, h.start hone.1 t hone.2 clock plan, Or.inr ⟨t, call, clock, plan, rfl, hprep, rfl⟩⟩
  | @refuse t call clock result hidle hprep =>
      refine ⟨v, ?_, Or.inl .stay⟩
      cases h with
      | idle hphase hqueues => exact .idle (m := { m with clock := clock }) hphase hqueues
      | begun hphase hothers hqueues =>
          exact .begun (m := { m with clock := clock }) hphase hothers hqueues
      | waiting hphase hothers hqueue hfront hqueues =>
          exact .waiting (m := { m with clock := clock }) hphase hothers hqueue hfront hqueues
  | @append t plan hplanned =>
      refine ⟨v, ?_, Or.inl .stay⟩
      cases h with
      | idle hphase =>
          rw [hphase t] at hplanned
          cases hplanned
      | @waiting t' s front ops taken hphase hothers =>
          by_cases heq : t = t'
          · rw [heq, hphase] at hplanned
            cases hplanned
          · rw [hothers t heq] at hplanned
            cases hplanned
      | @begun t' work hphase hothers hqueues =>
          obtain rfl : t = t' := by
            by_contra heq
            rw [hothers t heq] at hplanned
            cases hplanned
          rcases hphase with ⟨plan', hphase, rfl⟩ | hphase
          · rw [hplanned] at hphase
            cases hphase
            refine .begun (m := { m with wal := m.wal.appendBatch plan.logged }.setPhase t
              (.logged plan.work)) (Or.inr (Function.update_self ..)) (fun t' ht' => ?_) hqueues
            rw [setPhase_of_ne _ ht']
            exact hothers t' ht'
          · rw [hplanned] at hphase
            cases hphase
  | work hlogged =>
      obtain ⟨v', hseen, hview⟩ := h.work hlogged
      exact ⟨v', hseen, Or.inl hview⟩
  | take hqueue hfront hfree => exact ⟨v, h.take hqueue hfront, Or.inl .stay⟩
  | shard hqueue =>
      obtain ⟨v', hseen, hview⟩ := h.shard hqueue
      exact ⟨v', hseen, Or.inl hview⟩
  | restart => exact absurd hone id

theorem oneByOne_of_check {e : Engine} {n : Nat} {events : List Event}
    (hevents : ∀ event ∈ events, ∀ t ∈ event.thread?, t < n)
    (hcheck : allSteps (step x u) (fun m event => match event with
      | .start t _ => decide ((∀ t < n, m.phase t = .idle) ∧
          ∀ s, ∀ task ∈ m.queues s, task.producer = t)
      | .restart => false
      | _ => true) (ofEngine e) events = true) :
    EveryStep (step x u) (ofEngine e) events fun m event => event.OneByOne m := by
  intro before event after hsplit m hrun
  have hidle := everyStep_of_allSteps hcheck before event after hsplit m hrun
  cases event with
  | start t' call =>
      obtain ⟨hbefore, hqueues⟩ := of_decide_eq_true hidle
      refine ⟨fun t => ?_, hqueues⟩
      by_cases hlt : t < n
      · exact hbefore t hlt
      · refine idle_of_run (fun event hevent => ?_) hrun hlt
        exact hevents event (by simp [hsplit, hevent])
  | restart => cases hidle
  | _ => trivial

end

end Machine

end L3KV
