import L3KV.Engine.Recovery
import L3KV.Engine.Register
import L3KV.Engine.Threads

/-!
# Concurrent puts of one key

A put takes its timestamp, appends to the log and has its task performed in separate steps, so three
orders are fixed one after the other. The last put in the log is what recovery rebuilds, the last
one that the shard performs is what the live store ends up with.
-/

namespace L3KV

open Framework

namespace Event

def startedBy? : Event → Option Nat
  | start thread _ => some thread
  | _ => none

/-- A step of a put of this key or of the thread of a shard. -/
def PutOn (key : Bytes) : Event → Prop
  | start _ (.put k _ _ _) => k = key
  | refuse _ (.put k _ _ _) => k = key
  | start _ _ => False
  | refuse _ _ => False
  | restart => False
  | _ => True

/-- The record of a call that starts here fits in 32 bits. -/
def RecordFits (x : External) (u : Nat → Nat → UInt8) (m : Machine) : Event → Prop
  | start _ call => ∀ plan ∈ m.engine.planOf x u call, batchPayloadSize plan.logged < 2 ^ 32
  | _ => True

end Event

namespace Machine

def appendedBy? (_ : Machine) : Event → Option Nat
  | .append thread => some thread
  | _ => none

/-- The thread whose task is served by the step of a shard. -/
def performedBy? (m : Machine) : Event → Option Nat
  | .shard shard => (m.queues shard).head?.map Task.producer
  | _ => none

def putEntry (l : Lite3) (m : Machine) : Event → Option Entry
  | .start _ (.put _ body _ readings) =>
      (m.clock.now readings).map fun stamp => writtenEntry l stamp.1 body false
  | _ => none

section

variable (x : External) (u : Nat → Nat → UInt8)

/-- The puts of a run, in the order of their timestamps being taken. -/
def puts (m : Machine) (events : List Event) : List Entry :=
  collect (step x u) (putEntry x.lite3) m events

def recentPut (m : Machine) (events : List Event) (thread : Nat) : Option Entry :=
  (collect (step x u) (fun m event =>
    if event.startedBy? = some thread then m.putEntry x.lite3 event else none) m events).getLast?

def lastThread (m : Machine) (events : List Event) (kind : Machine → Event → Option Nat) :
    Option Nat :=
  (collect (step x u) kind m events).getLast?

/-- The put that the last step of this kind belongs to. In a run that has come to rest, it is the
last put of that thread. -/
def lastPut (m : Machine) (events : List Event) (kind : Machine → Event → Option Nat) :
    Option Entry :=
  (m.lastThread x u events kind).bind (m.recentPut x u events)

end

section

variable {x : External} {u : Nat → Nat → UInt8}

private theorem recentPut_mem {m : Machine} {events : List Event} {thread : Nat} {w : Entry}
    (h : m.recentPut x u events thread = some w) : w ∈ m.puts x u events := by
  apply collect_subset _ (List.mem_of_getLast? h)
  intro s event b hb
  split at hb
  · exact hb
  · cases hb

private theorem recentPut_concat {m m₁ : Machine} {events : List Event}
    (hrun : m.run x u events = some m₁) (event : Event) (thread : Nat) :
    m.recentPut x u (events ++ [event]) thread =
      (if event.startedBy? = some thread then m₁.putEntry x.lite3 event else none).or
        (m.recentPut x u events thread) := by
  unfold recentPut
  rw [collect_concat _ hrun]
  cases hentry : (if event.startedBy? = some thread then m₁.putEntry x.lite3 event else none) with
  | none => simp
  | some w => simp

private theorem recentPut_other {m m₁ : Machine} {events : List Event}
    (hrun : m.run x u events = some m₁) {event : Event} {thread : Nat}
    (h : event.startedBy? ≠ some thread) :
    m.recentPut x u (events ++ [event]) thread = m.recentPut x u events thread := by
  rw [recentPut_concat hrun, if_neg h, Option.none_or]

private theorem lastThread_concat {m m₁ : Machine} {events : List Event}
    (hrun : m.run x u events = some m₁) (kind : Machine → Event → Option Nat) (event : Event) :
    m.lastThread x u (events ++ [event]) kind =
      (kind m₁ event).or (m.lastThread x u events kind) := by
  unfold lastThread
  rw [collect_concat _ hrun]
  cases hkind : kind m₁ event with
  | none => simp
  | some thread => simp

private theorem lastThread_other {m m₁ : Machine} {events : List Event}
    (hrun : m.run x u events = some m₁) {kind : Machine → Event → Option Nat} {event : Event}
    (h : kind m₁ event = none) :
    m.lastThread x u (events ++ [event]) kind = m.lastThread x u events kind := by
  rw [lastThread_concat hrun, h, Option.none_or]

private theorem puts_concat {m m₁ : Machine} {events : List Event}
    (hrun : m.run x u events = some m₁)
    (event : Event) :
    m.puts x u (events ++ [event]) = m.puts x u events ++ (m₁.putEntry x.lite3 event).toList :=
  collect_concat _ hrun event

private theorem puts_other {m m₁ : Machine} {events : List Event}
    (hrun : m.run x u events = some m₁)
    {event : Event} (h : event.startedBy? = none) :
    m.puts x u (events ++ [event]) = m.puts x u events := by
  have hnone : m₁.putEntry x.lite3 event = none := by
    cases event with
    | start thread call => cases h
    | _ => rfl
  rw [puts_concat hrun, hnone, Option.toList_none, List.append_nil]

end

def putShard (x : External) (key : Bytes) : Fin 8 := routingShard x.xxh3 (x.movedFrom key)

/-- A task is what is left of a write, and its thread waits for it. Only a shard that has it in hand
has begun with it. -/
structure Serves (x : External) (st : Store) (key : Bytes) (w : Entry) (task : Task) : Prop where
  waits : task.owner = some task.producer
  underway : Underway x st key w task.ops
  whole : task.taken = false → WriteOps x.lite3 key w task.ops

private theorem Serves.of_whole {x : External} {st : Store} {key : Bytes} {w : Entry} {task : Task}
    (h : Serves x st key w task) (hfree : task.taken = false) (st' : Store) :
    Serves x st' key w task :=
  ⟨h.waits, Or.inl (h.whole hfree), h.whole⟩

/-- What is known of a run of puts: `base` is the log before it. -/
structure PutsInv (x : External) (u : Nat → Nat → UInt8) (m₀ : Machine) (key : Bytes)
    (base : List LogCall) (events : List Event) (m : Machine) : Prop where
  run : m₀.run x u events = some m
  planned : ∀ thread plan, m.phase thread = .planned plan →
    ∃ w ops, m₀.recentPut x u events thread = some w ∧ WriteOps x.lite3 key w ops ∧
      plan.work = .wait (putShard x key) ops ∧
      plan.logged = ops.map ShardOp.logEntry ∧ BatchFits plan.logged
  logged : ∀ thread work, m.phase thread = .logged work →
    ∃ w ops, m₀.recentPut x u events thread = some w ∧ WriteOps x.lite3 key w ops ∧
      work = .wait (putShard x key) ops
  others : ∀ shard, shard ≠ putShard x key → m.queues shard = []
  owned : m.Owned
  tasks : ∀ task ∈ m.queues (putShard x key), ∃ w,
    m₀.recentPut x u events task.producer = some w ∧ Serves x m.store key w task
  behind : ∀ task ∈ (m.queues (putShard x key)).tail, task.taken = false
  log : ∃ batches, m.wal.bytes = (base ++ batchCalls batches).flatMap LogCall.bytes ∧ m.wal.AtEnd ∧
    (∀ b ∈ batches, BatchFits b) ∧
    ∀ thread, m₀.lastThread x u events appendedBy? = some thread →
      (∀ plan, m.phase thread ≠ .planned plan) →
        ∃ w ops, m₀.recentPut x u events thread = some w ∧ WriteOps x.lite3 key w ops ∧
          batches.getLast? = some (ops.map ShardOp.logEntry)
  held : ∀ thread, m₀.lastThread x u events performedBy? = some thread → m.phase thread = .idle →
    ∃ w, m₀.recentPut x u events thread = some w ∧ Registered x m.store key (some w)
  appended : m₀.puts x u events ≠ [] → (∃ thread plan, m.phase thread = .planned plan) ∨
    ∃ thread, m₀.lastThread x u events appendedBy? = some thread
  performed : m₀.puts x u events ≠ [] → (∃ thread, m.phase thread ≠ .idle) ∨
    ∃ thread, m₀.lastThread x u events performedBy? = some thread

namespace PutsInv

variable {x : External} {u : Nat → Nat → UInt8} {m₀ : Machine} {key : Bytes} {base : List LogCall}
  {events : List Event} {m : Machine}

private theorem run_concat {m' : Machine} {event : Event} (h : m₀.run x u events = some m)
    (hstep : m.step x u event = some m') : m₀.run x u (events ++ [event]) = some m' :=
  foldlM_concat.mpr ⟨m, h, hstep⟩

private theorem waiting_of_mem (h : PutsInv x u m₀ key base events m) {task : Task}
    (htask : task ∈ m.queues (putShard x key)) : m.phase task.producer = .waiting := by
  obtain ⟨w, -, hserves⟩ := h.tasks task htask
  apply h.owned.waiting (putShard x key)
  exact List.mem_filterMap.mpr ⟨task, htask, hserves.waits⟩

theorem start (h : PutsInv x u m₀ key base events m) (hkey : key.length < 2 ^ 16) {thread : Nat}
    {body : Bytes} {principal : UInt32} {readings : List Int64} {clock : HybridLogicalClock}
    {plan : Plan} (hidle : m.phase thread = .idle)
    (hprep : m.engine.prepare x u (.put key body principal readings) =
      some (clock, .accepted plan))
    (hfits : batchPayloadSize plan.logged < 2 ^ 32)
    (hstep : m.step x u (.start thread (.put key body principal readings)) =
      some ({ m with clock := clock }.setPhase thread (.planned plan))) :
    PutsInv x u m₀ key base (events ++ [.start thread (.put key body principal readings)])
      ({ m with clock := clock }.setPhase thread (.planned plan)) := by
  obtain ⟨ts, metaVal, (hnow : m.clock.now readings = _), hmeta, hwork, hlogged⟩ :=
    Engine.prepare_put hprep
  have hops : WriteOps x.lite3 key (writtenEntry x.lite3 ts body false)
      [.put key body, .put (metaKey key) metaVal] := ⟨_, metaVal, rfl, rfl, rfl, hmeta⟩
  have hbatch : BatchFits plan.logged := by
    refine ⟨?_, hfits⟩
    rw [hlogged, hwork]
    simpa [Work.ops, ShardOp.logEntry] using ⟨hkey, lt_trans (metaKey_length_lt key) (by decide)⟩
  have hrecent : m₀.recentPut x u (events ++ [.start thread (.put key body principal readings)])
      thread = some (writtenEntry x.lite3 ts body false) := by
    rw [recentPut_concat h.run]
    simp [Event.startedBy?, putEntry, hnow]
  have hother {t : Nat} (ht : t ≠ thread) :
      m₀.recentPut x u (events ++ [.start thread (.put key body principal readings)]) t =
        m₀.recentPut x u events t :=
    recentPut_other h.run (by simpa [Event.startedBy?] using ht.symm)
  have hphase {t : Nat} (ht : t ≠ thread) :
      (({ m with clock := clock } : Machine).setPhase thread (.planned plan)).phase t = m.phase t := by
    simp [setPhase, ht]
  have hself : (({ m with clock := clock } : Machine).setPhase thread (.planned plan)).phase thread =
      .planned plan := by simp [setPhase]
  refine ⟨run_concat h.run hstep, ?_, ?_, h.others, h.owned.step hstep, ?_, h.behind, ?_, ?_, ?_, ?_⟩
  · intro t plan' ht
    by_cases heq : t = thread
    · subst heq
      rw [hself] at ht
      cases ht
      exact ⟨_, _, hrecent, hops, hwork, by rw [hlogged, hwork]; rfl, hbatch⟩
    · rw [hother heq]
      exact h.planned t plan' (by rw [← hphase heq, ht])
  · intro t work ht
    have heq : t ≠ thread := ne_of_phase ht hself (by simp)
    rw [hother heq]
    exact h.logged t work (by rw [← hphase heq, ht])
  · intro task htask
    obtain ⟨w, hw, hserves⟩ := h.tasks task htask
    have hwaiting := h.waiting_of_mem htask
    have heq : task.producer ≠ thread := ne_of_phase hwaiting hidle (by simp)
    exact ⟨w, by rw [hother heq, hw], hserves⟩
  · obtain ⟨batches, hbytes, hend, hall, hlast⟩ := h.log
    refine ⟨batches, hbytes, hend, hall, fun t ht hnot => ?_⟩
    have heq : t ≠ thread := by
      rintro rfl
      exact hnot plan hself
    rw [hother heq]
    rw [lastThread_other h.run rfl] at ht
    exact hlast t ht fun plan' hp => hnot plan' (by rw [hphase heq, hp])
  · intro t ht hrests
    have heq : t ≠ thread := ne_of_phase hrests hself (by simp)
    rw [hother heq]
    rw [lastThread_other h.run rfl] at ht
    exact h.held t ht (by rw [← hphase heq, hrests])
  · intro _
    exact Or.inl ⟨thread, plan, hself⟩
  · intro _
    exact Or.inl ⟨thread, by simp [hself]⟩

theorem append (h : PutsInv x u m₀ key base events m) {thread : Nat} {plan : Plan}
    (hphase : m.phase thread = .planned plan)
    (hstep : m.step x u (.append thread) =
      some ({ m with wal := m.wal.appendBatch plan.logged }.setPhase thread (.logged plan.work))) :
    PutsInv x u m₀ key base (events ++ [.append thread])
      ({ m with wal := m.wal.appendBatch plan.logged }.setPhase thread (.logged plan.work)) := by
  obtain ⟨w, ops, hw, hops, hwork, hlogged, hfits⟩ := h.planned thread plan hphase
  have hrecent (t : Nat) : m₀.recentPut x u (events ++ [.append thread]) t =
      m₀.recentPut x u events t := recentPut_other h.run (by simp [Event.startedBy?])
  generalize hm' : ({ m with wal := m.wal.appendBatch plan.logged }.setPhase thread
    (.logged plan.work)) = m' at hstep
  have hother {t : Nat} (ht : t ≠ thread) : m'.phase t = m.phase t := by
    simp [← hm', setPhase, ht]
  have hself : m'.phase thread = .logged plan.work := by simp [← hm', setPhase]
  have hqueues : m'.queues = m.queues := by rw [← hm']; rfl
  have hstore : m'.store = m.store := by rw [← hm']; rfl
  refine ⟨run_concat h.run hstep, ?_, ?_, by rw [hqueues]; exact h.others, h.owned.step hstep,
    ?_, by rw [hqueues]; exact h.behind, ?_, ?_, ?_, ?_⟩
  · intro t plan' ht
    have heq : t ≠ thread := ne_of_phase ht hself (by simp)
    rw [hrecent]
    exact h.planned t plan' (by rw [← hother heq, ht])
  · intro t work ht
    rw [hrecent]
    by_cases heq : t = thread
    · subst heq
      rw [hself] at ht
      cases ht
      exact ⟨w, ops, hw, hops, hwork⟩
    · exact h.logged t work (by rw [← hother heq, ht])
  · simpa only [hqueues, hstore, hrecent] using h.tasks
  · obtain ⟨batches, hbytes, hend, hall, -⟩ := h.log
    have hwrite := LogCall.run_bytes hend (.appendBatch plan.logged)
    have hwal : m'.wal = LogCall.run m.wal (.appendBatch plan.logged) := by rw [← hm']; rfl
    refine ⟨batches ++ [plan.logged], ?_, ?_, ?_, ?_⟩
    · rw [hwal, hwrite.1, hbytes]
      simp [batchCalls]
    · rw [hwal]
      exact hwrite.2
    · intro b hb
      rcases List.mem_append.mp hb with hb | hb
      · exact hall b hb
      · rw [List.mem_singleton.mp hb]
        exact hfits
    · intro t ht _
      rw [lastThread_concat h.run] at ht
      cases ht
      exact ⟨w, ops, by rw [hrecent, hw], hops, by rw [List.getLast?_concat, hlogged]⟩
  · intro t ht hrests
    have heq : t ≠ thread := ne_of_phase hrests hself (by simp)
    rw [lastThread_other h.run rfl] at ht
    rw [hrecent, hstore]
    exact h.held t ht (by rw [← hother heq, hrests])
  · intro _
    exact Or.inr ⟨thread, by rw [lastThread_concat h.run]; rfl⟩
  · intro _
    exact Or.inl ⟨thread, by simp [hself]⟩

theorem enqueue (h : PutsInv x u m₀ key base events m) {thread : Nat}
    {work : Work} (hphase : m.phase thread = .logged work)
    (hstep : m.step x u (.work thread) = some (m.workStep x thread work)) :
    PutsInv x u m₀ key base (events ++ [.work thread]) (m.workStep x thread work) := by
  obtain ⟨w, ops, hw, hops, rfl⟩ := h.logged thread work hphase
  have hrecent (t : Nat) : m₀.recentPut x u (events ++ [.work thread]) t =
      m₀.recentPut x u events t := recentPut_other h.run (by simp [Event.startedBy?])
  have hlog : m₀.lastThread x u (events ++ [.work thread]) appendedBy? =
      m₀.lastThread x u events appendedBy? := lastThread_other h.run rfl
  have hputs : m₀.puts x u (events ++ [.work thread]) = m₀.puts x u events := puts_other h.run rfl
  generalize hm' : m.workStep x thread (.wait (putShard x key) ops) = m' at hstep
  simp only [workStep] at hm'
  have hother {t : Nat} (ht : t ≠ thread) : m'.phase t = m.phase t := by
    simp [← hm', setPhase, Machine.enqueue, ht]
  have hself : m'.phase thread = .waiting := by simp [← hm', setPhase]
  have hqueue : m'.queues (putShard x key) =
      m.queues (putShard x key) ++ [⟨thread, some thread, ops, false⟩] := by
    simp [← hm', setPhase, Machine.enqueue]
  have hstore : m'.store = m.store := by rw [← hm']; rfl
  have hwal : m'.wal = m.wal := by rw [← hm']; rfl
  refine ⟨run_concat h.run hstep, ?_, ?_, ?_, h.owned.step hstep, ?_, ?_, ?_, ?_, ?_, ?_⟩
  · intro t plan ht
    have heq : t ≠ thread := ne_of_phase ht hself (by simp)
    rw [hrecent]
    exact h.planned t plan (by rw [← hother heq, ht])
  · intro t work ht
    have heq : t ≠ thread := ne_of_phase ht hself (by simp)
    rw [hrecent]
    exact h.logged t work (by rw [← hother heq, ht])
  · intro shard hshard
    simpa [← hm', setPhase, Machine.enqueue, hshard] using h.others shard hshard
  · rw [hqueue, hstore]
    intro task htask
    rw [hrecent]
    rcases List.mem_append.mp htask with hold | hnew
    · exact h.tasks task hold
    · rw [List.mem_singleton.mp hnew]
      exact ⟨w, hw, rfl, Or.inl hops, fun _ => hops⟩
  · rw [hqueue]
    have hbehind := h.behind
    cases hq : m.queues (putShard x key) with
    | nil => simp
    | cons first rest => simpa [hq, or_imp, forall_and] using hbehind
  · obtain ⟨batches, hbytes, hend, hall, hlast⟩ := h.log
    refine ⟨batches, by rw [hwal, hbytes], by rw [hwal]; exact hend, hall, fun t ht hnot => ?_⟩
    rw [hlog] at ht
    rw [hrecent]
    apply hlast t ht
    intro plan hplan
    have heq : t ≠ thread := ne_of_phase hplan hphase (by simp)
    exact hnot plan (by rw [hother heq, hplan])
  · intro t ht hrests
    have heq : t ≠ thread := ne_of_phase hrests hself (by simp)
    rw [lastThread_other h.run rfl] at ht
    rw [hrecent, hstore]
    exact h.held t ht (by rw [← hother heq, hrests])
  · rw [hputs, hlog]
    intro hne
    rcases h.appended hne with ⟨t, plan, hplan⟩ | hsome
    · have heq : t ≠ thread := ne_of_phase hplan hphase (by simp)
      exact Or.inl ⟨t, plan, by rw [hother heq, hplan]⟩
    · exact Or.inr hsome
  · intro _
    exact Or.inl ⟨thread, by simp [hself]⟩

private theorem frame (h : PutsInv x u m₀ key base events m) {event : Event} {m' : Machine}
    (tasks : List Task) (hstarted : event.startedBy? = none) (happended : m.appendedBy? event = none)
    (hstep : m.step x u event = some m')
    (hwal : m'.wal = m.wal) (hqueues : m'.queues = Function.update m.queues (putShard x key) tasks)
    (hphase : ∀ t, m'.phase t = m.phase t ∨ m.phase t = .waiting ∧ m'.phase t = .idle)
    (htasks : ∀ task ∈ tasks, ∃ w, m₀.recentPut x u events task.producer = some w ∧
      Serves x m'.store key w task)
    (hbehind : ∀ task ∈ tasks.tail, task.taken = false)
    (hheld : ∀ t, m₀.lastThread x u (events ++ [event]) performedBy? = some t →
      m'.phase t = .idle →
        ∃ w, m₀.recentPut x u events t = some w ∧ Registered x m'.store key (some w))
    (hbusy : m'.phase = m.phase ∨ (m.performedBy? event).isSome) :
    PutsInv x u m₀ key base (events ++ [event]) m' := by
  have hrecent (t : Nat) : m₀.recentPut x u (events ++ [event]) t = m₀.recentPut x u events t :=
    recentPut_other h.run (by simp [hstarted])
  have hlog : m₀.lastThread x u (events ++ [event]) appendedBy? =
      m₀.lastThread x u events appendedBy? := lastThread_other h.run happended
  have hputs : m₀.puts x u (events ++ [event]) = m₀.puts x u events := puts_other h.run hstarted
  have hplanned (t : Nat) (plan : Plan) : m'.phase t = .planned plan ↔ m.phase t = .planned plan := by
    rcases hphase t with heq | ⟨hbefore, hafter⟩
    · rw [heq]
    · simp [hbefore, hafter]
  have hlogged (t : Nat) (work : Work) : m'.phase t = .logged work ↔ m.phase t = .logged work := by
    rcases hphase t with heq | ⟨hbefore, hafter⟩
    · rw [heq]
    · simp [hbefore, hafter]
  have hqueue : m'.queues (putShard x key) = tasks := by rw [hqueues, Function.update_self]
  refine ⟨run_concat h.run hstep, ?_, ?_, ?_, h.owned.step hstep, ?_, by rw [hqueue]; exact hbehind,
    ?_, ?_, ?_, ?_⟩
  · simpa only [hrecent, hplanned] using h.planned
  · simpa only [hrecent, hlogged] using h.logged
  · intro shard hshard
    rw [hqueues, Function.update_of_ne hshard]
    exact h.others shard hshard
  · simpa only [hqueue, hrecent] using htasks
  · simpa only [hrecent, hlog, hwal, ne_eq, hplanned] using h.log
  · simpa only [hrecent] using hheld
  · simpa only [hputs, hlog, hplanned] using h.appended
  · rw [hputs, lastThread_concat h.run]
    intro hne
    rcases hbusy with hsame | hsome
    · rw [hsame]
      rcases h.performed hne with hthread | ⟨t, ht⟩
      · exact Or.inl hthread
      · cases hkind : m.performedBy? event with
        | none => exact Or.inr ⟨t, ht⟩
        | some t' => exact Or.inr ⟨t', rfl⟩
    · obtain ⟨t, ht⟩ := Option.isSome_iff_exists.mp hsome
      exact Or.inr ⟨t, by rw [ht]; rfl⟩

theorem refuse (h : PutsInv x u m₀ key base events m) {thread : Nat} {call : Call}
    {clock : HybridLogicalClock}
    (hstep : m.step x u (.refuse thread call) = some { m with clock := clock }) :
    PutsInv x u m₀ key base (events ++ [.refuse thread call]) { m with clock := clock } := by
  apply h.frame (m.queues (putShard x key)) rfl rfl hstep
  · rfl
  · exact (Function.update_eq_self _ _).symm
  · exact fun t => Or.inl rfl
  · exact h.tasks
  · exact h.behind
  · intro t ht
    rw [lastThread_other h.run rfl] at ht
    exact h.held t ht
  · exact Or.inl rfl

private theorem shard_eq (h : PutsInv x u m₀ key base events m) {shard : Fin 8}
    (hqueue : m.queues shard ≠ []) : shard = putShard x key := by
  by_contra hne
  exact hqueue (h.others shard hne)

theorem take (h : PutsInv x u m₀ key base events m) {shard : Fin 8} {task : Task}
    {front back : List Task} (hqueue : m.queues shard = front ++ task :: back)
    (hfree : ∀ t ∈ m.queues shard, t.taken = false)
    (hstep : m.step x u (.take shard task.producer) =
      some (m.setQueue shard (task.goOn task.ops :: (front ++ back)))) :
    PutsInv x u m₀ key base (events ++ [.take shard task.producer])
      (m.setQueue shard (task.goOn task.ops :: (front ++ back))) := by
  obtain rfl : shard = putShard x key := h.shard_eq (by simp [hqueue])
  have htasks := h.tasks
  rw [hqueue] at htasks hfree
  have hmem {t : Task} (ht : t ∈ front ++ back) : t ∈ front ++ task :: back :=
    Task.mem_of_left rfl ht
  apply h.frame (task.goOn task.ops :: (front ++ back)) rfl rfl hstep
  · rfl
  · rfl
  · exact fun t => Or.inl rfl
  · intro t ht
    rcases List.mem_cons.mp ht with rfl | ht
    · obtain ⟨w, hw, hserves⟩ := htasks task (by simp)
      exact ⟨w, hw, hserves.waits, hserves.underway, fun hnot => by cases hnot⟩
    · exact htasks t (hmem ht)
  · exact fun t ht => hfree t (hmem ht)
  · intro t ht
    rw [lastThread_other h.run rfl] at ht
    exact h.held t ht
  · exact Or.inl rfl

theorem shard (hl : x.lite3.Lawful) (h : PutsInv x u m₀ key base events m) {shard : Fin 8}
    {task : Task} {rest : List Task} (hqueue : m.queues shard = task :: rest)
    (hstep : m.step x u (.shard shard) = some (m.shardStep x shard task rest)) :
    PutsInv x u m₀ key base (events ++ [.shard shard]) (m.shardStep x shard task rest) := by
  obtain rfl : shard = putShard x key := h.shard_eq (by simp [hqueue])
  have hphase := h.owned.shardStep_phase (x := x) hqueue
  have hbehind : ∀ t ∈ rest, t.taken = false := by simpa [hqueue] using h.behind
  have hperformed : m.performedBy? (.shard (putShard x key)) = some task.producer := by
    simp [performedBy?, hqueue]
  have hlast : m₀.lastThread x u (events ++ [.shard (putShard x key)]) performedBy? =
      some task.producer := by
    rw [lastThread_concat h.run, hperformed]
    rfl
  have hrest (st : Store) : ∀ t ∈ rest, ∃ w, m₀.recentPut x u events t.producer = some w ∧
      Serves x st key w t := by
    intro t ht
    obtain ⟨w, hw, hserves⟩ := h.tasks t (by simp [hqueue, ht])
    exact ⟨w, hw, hserves.of_whole (hbehind t ht) st⟩
  have htask : task ∈ m.queues (putShard x key) := by simp [hqueue]
  obtain ⟨w, hw, hserves⟩ := h.tasks task htask
  have hwaiting := h.waiting_of_mem htask
  cases hops : task.ops with
  | nil =>
      have hm' : m.shardStep x (putShard x key) task rest =
          (m.setQueue (putShard x key) rest).wake task.owner := by simp [shardStep, hops]
      rw [hm'] at hstep hphase ⊢
      apply h.frame rest rfl rfl hstep
      · rw [wake_wal]
        rfl
      · rw [wake_queues]
        rfl
      · exact hphase
      · exact hrest _
      · exact fun t ht => hbehind t (List.mem_of_mem_tail ht)
      · intro t ht _
        rw [hlast] at ht
        cases ht
        refine ⟨w, hw, ?_⟩
        rw [wake_store]
        rcases hops ▸ hserves.underway with ⟨_, _, hnil, -⟩ | ⟨_, hnil, -⟩ | ⟨-, hdone⟩
        · cases hnil
        · cases hnil
        · exact hdone
      · exact Or.inr (by simp [hperformed])
  | cons o ops =>
      obtain ⟨st, happly, hnext, -⟩ := Underway.step hl (hops ▸ hserves.underway)
      rw [shardStep_applies hops happly] at hstep hphase ⊢
      apply h.frame (task.goOn ops :: rest) rfl rfl hstep
      · rfl
      · rfl
      · exact hphase
      · intro t ht
        rcases List.mem_cons.mp ht with rfl | ht
        · exact ⟨w, hw, hserves.waits, hnext, fun hnot => by cases hnot⟩
        · exact hrest st t ht
      · exact hbehind
      · intro t ht hrests
        rw [hlast] at ht
        cases ht
        -- Its thread still waits.
        have hidle : m.phase task.producer = .idle := hrests
        rw [hwaiting] at hidle
        cases hidle
      · exact Or.inr (by simp [hperformed])

theorem init {e : Engine} (hqueues : ∀ shard, e.queues shard = [])
    (hlog : e.wal.bytes = base.flatMap LogCall.bytes) (hend : e.wal.AtEnd) :
    PutsInv x u (ofEngine e) key base [] (ofEngine e) := by
  have hqueue (shard : Fin 8) : (ofEngine e).queues shard = [] := by simp [ofEngine, hqueues]
  refine ⟨rfl, ?_, ?_, fun shard _ => hqueue shard, ofEngine_owned e, ?_, ?_, ?_, ?_, ?_, ?_⟩
  · intro thread plan h
    cases h
  · intro thread work h
    cases h
  · simp [hqueue]
  · simp [hqueue]
  · refine ⟨[], ?_, hend, by simp, by simp [lastThread, collect]⟩
    rw [batchCalls, List.map_nil, List.append_nil]
    exact hlog
  · simp [lastThread, collect]
  · simp [puts, collect]
  · simp [puts, collect]

theorem step (hl : x.lite3.Lawful) (hkey : key.length < 2 ^ 16)
    (h : PutsInv x u m₀ key base events m) {event : Event} {m' : Machine}
    (hput : event.PutOn key) (hfits : event.RecordFits x u m) (hstep : m.step x u event = some m') :
    PutsInv x u m₀ key base (events ++ [event]) m' := by
  cases step_sound hstep with
  | start hidle hprep =>
      rename_i thread call clock plan
      cases call with
      | put k body principal readings =>
          cases hput
          exact h.start hkey hidle hprep
            (hfits plan (Engine.planOf_eq_some.mpr ⟨clock, hprep⟩)) hstep
      | _ => cases hput
  | refuse hidle hprep => exact h.refuse hstep
  | append hphase => exact h.append hphase hstep
  | work hphase => exact h.enqueue hphase hstep
  | take hqueue hfront hfree => exact h.take hqueue hfree hstep
  | shard hqueue => exact h.shard hl hqueue hstep
  | restart => cases hput

end PutsInv

end Machine

section

variable {x : External}

/-- Replaying the record of a write whose operations do not throw is applying them. -/
theorem Store.apply_replay {o : ShardOp} {content : Bytes} (ho : o.Leaves x.lite3 content)
    (st : Store) : st.apply x o = some (st.replay x o.logEntry) := by
  cases o with
  | put key body => rw [Store.replay_put, Store.apply]
  | del key => rw [Store.replay_del, Store.apply]
  | patchInt key field value => cases ho
  | patchStr key field value => cases ho

theorem registered_replay (hl : x.lite3.Lawful) {key : Bytes} {w : Entry} {ops : List ShardOp}
    (hops : WriteOps x.lite3 key w ops) (st : Store) :
    Registered x ((ops.map ShardOp.logEntry).foldl (Store.replay x) st) key (some w) := by
  have hfirst : Underway x st key w ops := Or.inl hops
  obtain ⟨o, metaVal, rfl, -, ho, hmeta⟩ := hops
  obtain ⟨st₁, happly₁, hsecond, -⟩ := hfirst.step hl
  obtain ⟨st₂, happly₂, hdone, -⟩ := hsecond.step hl
  rw [Store.apply_replay ho] at happly₁
  cases happly₁
  rw [Store.apply_replay (leaves_metaObject hl hmeta _)] at happly₂
  cases happly₂
  rcases hdone with ⟨_, _, hnil, -⟩ | ⟨_, hnil, -⟩ | ⟨-, hregistered⟩
  · cases hnil
  · cases hnil
  · exact hregistered

private theorem openOn_last (hl : x.lite3.Lawful) {base : List LogCall} (hbase : ∀ c ∈ base, c.Fits)
    {batches : List (List BatchOp)} (hfits : ∀ b ∈ batches, BatchFits b) {key : Bytes} {w : Entry}
    {ops : List ShardOp} (hops : WriteOps x.lite3 key w ops)
    (hlast : batches.getLast? = some (ops.map ShardOp.logEntry)) (nodeId : UInt32) :
    Registered x (Engine.openOn x nodeId
      ((base ++ batchCalls batches).flatMap LogCall.bytes)).store key (some w) := by
  have hcalls : ∀ c ∈ base ++ batchCalls batches, c.Fits := by
    intro c hc
    rcases List.mem_append.mp hc with hc | hc
    · exact hbase c hc
    · exact batchCalls_fits hfits c hc
  have hrecover := LogFile.recover_calls _ hcalls RecordFormat.stops_nil
    (LogFile.openAt ((base ++ batchCalls batches).flatMap LogCall.bytes)) (by simp [LogFile.openAt]) rfl
  obtain ⟨front, rfl⟩ := List.getLast?_eq_some_iff.mp hlast
  have hops' : (base ++ batchCalls (front ++ [ops.map ShardOp.logEntry])).flatMap LogCall.logged =
      (base.flatMap LogCall.logged ++ front.flatten) ++ ops.map ShardOp.logEntry := by
    simp only [List.flatMap_append, batchCalls_logged, List.flatten_append, List.append_assoc]
    simp
  simp only [Engine.openOn, hrecover.1, hops', List.foldl_append]
  exact registered_replay hl hops _

private theorem Entry.state_inj {w w' : Entry} (h : Entry.state (some w) = Entry.state (some w')) :
    w = w' := by
  cases w
  cases w'
  simp only [Entry.state, Prod.mk.injEq, Option.some.injEq] at h
  simp [h]

end

theorem Event.recordFits_put {x : External} (hx : x.Lawful) {key body : Bytes}
    (hshort : key.length + body.length < 2 ^ 31) {u : Nat → Nat → UInt8} {m : Machine} (thread : Nat)
    (principal : UInt32) (readings : List Int64) :
    Event.RecordFits x u m (.start thread (.put key body principal readings)) := by
  intro plan hplan
  obtain ⟨clock, hprep⟩ := Engine.planOf_eq_some.mp hplan
  obtain ⟨ts, metaVal, -, hmeta, hwork, hlogged⟩ := Engine.prepare_put hprep
  have hmetaVal := hx.smallMeta _ _ _ hmeta
  have hmkey := metaKey_length_lt key
  rw [hlogged, hwork]
  simp only [Work.ops, List.map_cons, List.map_nil, ShardOp.logEntry, batchPayloadSize,
    List.sum_cons, List.sum_nil]
  omega

open Machine in
/-- A run of puts of one key that has come to rest, on an engine with nothing queued whose log
is `base`. Keys, records and values keep to the sizes their length fields have. -/
structure PutRun (x : External) (u : Nat → Nat → UInt8) (e : Engine) (base : List LogCall)
    (key : Bytes) (events : List Event) (m : Machine) : Prop where
  base_fits : ∀ c ∈ base, c.Fits
  log : e.wal.bytes = base.flatMap LogCall.bytes
  atEnd : e.wal.AtEnd
  queues : ∀ shard, e.queues shard = []
  key_short : key.length < 2 ^ 16
  puts : ∀ event ∈ events, event.PutOn key
  fits : EveryStep (step x u) (ofEngine e) events (Event.RecordFits x u)
  values_short : ∀ w ∈ (ofEngine e).puts x u events, w.value.length < 2 ^ 32
  run : (ofEngine e).run x u events = some m
  quiet : m.Quiet

namespace PutRun

open Machine

variable {x : External} {u : Nat → Nat → UInt8} {e : Engine} {base : List LogCall} {key : Bytes}
  {events : List Event} {m : Machine}

private theorem inv (h : PutRun x u e base key events m) (hl : x.lite3.Lawful) :
    PutsInv x u (ofEngine e) key base events m := by
  have hP : EveryStep (step x u) (ofEngine e) events fun m event =>
      event.PutOn key ∧ event.RecordFits x u m := by
    intro before event after hsplit m' hbefore
    exact ⟨h.puts event (by simp [hsplit]), h.fits before event after hsplit m' hbefore⟩
  apply run_invariant (PutsInv x u (ofEngine e) key base)
    (PutsInv.init h.queues h.log h.atEnd) _ hP h.run
  intro done m₁ event m₂ hinv hok hstep
  exact hinv.step hl h.key_short hok.1 hok.2 hstep

theorem live (h : PutRun x u e base key events m) (hx : x.Lawful) {w : Entry}
    (hw : (ofEngine e).lastPut x u events performedBy? = some w) :
    m.store.stateOf x key = Entry.state (some w) := by
  obtain ⟨thread, hthread, hrecent⟩ := Option.bind_eq_some_iff.mp hw
  obtain ⟨w', hw', hregistered⟩ := (h.inv hx.lite3).held thread hthread (h.quiet.idle thread)
  rw [hrecent] at hw'
  cases hw'
  apply hregistered.state_eq hx.lite3 hx.zstd hx.smallMeta
  intro w' hw'
  cases hw'
  exact h.values_short w (recentPut_mem hrecent)

theorem recovered (h : PutRun x u e base key events m) (hx : x.Lawful) {w : Entry}
    (hw : (ofEngine e).lastPut x u events appendedBy? = some w) (nodeId : UInt32) :
    (Engine.openOn x nodeId m.wal.bytes).store.stateOf x key = Entry.state (some w) := by
  obtain ⟨thread, hthread, hrecent⟩ := Option.bind_eq_some_iff.mp hw
  obtain ⟨batches, hbytes, -, hall, hlast⟩ := (h.inv hx.lite3).log
  obtain ⟨w', ops, hw', hops, hbatch⟩ := hlast thread hthread (by simp [h.quiet.idle])
  rw [hrecent] at hw'
  cases hw'
  rw [hbytes]
  apply (openOn_last hx.lite3 h.base_fits hall hops hbatch nodeId).state_eq hx.lite3 hx.zstd
    hx.smallMeta
  intro w' hw'
  cases hw'
  exact h.values_short w (recentPut_mem hrecent)

private theorem lastPut_isSome (h : PutRun x u e base key events m) (hl : x.lite3.Lawful)
    (hne : (ofEngine e).puts x u events ≠ []) :
    (∃ w, (ofEngine e).lastPut x u events appendedBy? = some w) ∧
      ∃ w, (ofEngine e).lastPut x u events performedBy? = some w := by
  have hinv := h.inv hl
  obtain ⟨t, ht⟩ : ∃ t, (ofEngine e).lastThread x u events appendedBy? = some t := by
    simpa [h.quiet.idle] using hinv.appended hne
  obtain ⟨t', ht'⟩ : ∃ t, (ofEngine e).lastThread x u events performedBy? = some t := by
    simpa [h.quiet.idle] using hinv.performed hne
  obtain ⟨batches, -, -, -, hlast⟩ := hinv.log
  obtain ⟨a, -, ha, -⟩ := hlast t ht (by simp [h.quiet.idle])
  obtain ⟨b, hb, -⟩ := hinv.held t' ht' (h.quiet.idle t')
  exact ⟨⟨a, by simp [lastPut, ht, ha]⟩, ⟨b, by simp [lastPut, ht', hb]⟩⟩

end PutRun

open Machine in
/-- Concurrent puts of one key, run to rest: the live state, the state that recovery rebuilds and
the put with the greatest timestamp coincide if and only if one and the same put was the last to
append, the last to be performed, and was given the greatest timestamp. -/
theorem puts_coincide_iff (x : External) (hx : x.Lawful) (u : Nat → Nat → UInt8) (e : Engine)
    (base : List LogCall) (key : Bytes) (events : List Event) (m : Machine)
    (h : PutRun x u e base key events m) (nodeId : UInt32) :
    (∃ w ∈ (ofEngine e).puts x u events,
        (∀ w' ∈ (ofEngine e).puts x u events, w'.stamp ≤ w.stamp) ∧
        m.store.stateOf x key = Entry.state (some w) ∧
        (Engine.openOn x nodeId m.wal.bytes).store.stateOf x key = Entry.state (some w)) ↔
      ∃ w, (ofEngine e).lastPut x u events appendedBy? = some w ∧
        (ofEngine e).lastPut x u events performedBy? = some w ∧
        ∀ w' ∈ (ofEngine e).puts x u events, w'.stamp ≤ w.stamp := by
  constructor
  · rintro ⟨w, hw, hmax, hlive, hrecovered⟩
    obtain ⟨⟨a, ha⟩, ⟨b, hb⟩⟩ := h.lastPut_isSome hx.lite3 (List.ne_nil_of_mem hw)
    obtain rfl : a = w := Entry.state_inj ((h.recovered hx ha nodeId).symm.trans hrecovered)
    obtain rfl : b = a := Entry.state_inj ((h.live hx hb).symm.trans hlive)
    exact ⟨b, ha, hb, hmax⟩
  · rintro ⟨w, ha, hb, hmax⟩
    obtain ⟨t, -, hrecent⟩ := Option.bind_eq_some_iff.mp ha
    exact ⟨w, recentPut_mem hrecent, hmax, h.live hx hb, h.recovered hx ha nodeId⟩

private def putBy (thread : Nat) (body : String) (reading : Int64) : Event :=
  .start thread (.put (ascii "k") (ascii body) adminUid [reading])

/-- Two puts whose timestamps, records and tasks come in the same order. -/
private def orderedPuts : List Event :=
  [putBy 0 "a" 1, putBy 1 "b" 2, .append 0, .append 1, .work 0, .work 1] ++
    List.replicate 6 (.shard firstShard)

/-- Two puts of which the one with the smaller timestamp appends last. -/
private def crossedPuts : List Event :=
  [putBy 0 "a" 1, putBy 1 "b" 2, .append 1, .append 0, .work 0, .work 1] ++
    List.replicate 6 (.shard firstShard)

private def refX : External := External.reference fun _ => 0

private def restsAfter (m : Machine) : Bool :=
  decide (m.phase 0 = .idle ∧ m.phase 1 = .idle ∧ ∀ shard, m.queues shard = [])

private theorem putRun_of_rests (events : List Event)
    (hevents : ∀ event ∈ events, event = putBy 0 "a" 1 ∨ event = putBy 1 "b" 2 ∨
      event = .append 0 ∨ event = .append 1 ∨ event = .work 0 ∨ event = .work 1 ∨
        event = .shard firstShard)
    (hvalues : ∀ w ∈ (Machine.ofEngine (Engine.openOn refX 1 [])).puts refX (fun _ _ => 0) events,
      w.value.length < 2 ^ 32)
    (hrests : ((Machine.ofEngine (Engine.openOn refX 1 [])).run refX (fun _ _ => 0) events).map
      restsAfter = some true) :
    ∃ m, PutRun refX (fun _ _ => 0) (Engine.openOn refX 1 []) [] (ascii "k") events m := by
  obtain ⟨m, hrun, hm⟩ := Option.map_eq_some_iff.mp hrests
  rw [restsAfter, decide_eq_true_eq] at hm
  have hquiet : m.Quiet := by
    apply Machine.quiet_of_run 2 _ hrun _ hm.2.2
    · intro event hmem thread hthread
      rcases hevents event hmem with rfl | rfl | rfl | rfl | rfl | rfl | rfl <;>
        simp_all [Event.thread?, putBy] <;> omega
    · intro thread hlt
      obtain rfl | rfl : thread = 0 ∨ thread = 1 := by omega
      · exact hm.1
      · exact hm.2.1
  refine ⟨m, by simp, rfl, rfl, fun _ => rfl, by decide, ?_, ?_, hvalues, hrun, hquiet⟩
  · intro event hmem
    rcases hevents event hmem with rfl | rfl | rfl | rfl | rfl | rfl | rfl
    · rfl
    · rfl
    all_goals trivial
  · intro before event after hsplit m' _
    rcases hevents event (by simp [hsplit]) with rfl | rfl | rfl | rfl | rfl | rfl | rfl
    · exact Event.recordFits_put (External.reference_lawful _) (by decide) _ _ _
    · exact Event.recordFits_put (External.reference_lawful _) (by decide) _ _ _
    all_goals trivial

open Machine in
theorem puts_coincide_ordered :
    ∃ m, PutRun refX (fun _ _ => 0) (Engine.openOn refX 1 []) [] (ascii "k") orderedPuts m ∧
      ∃ w ∈ (ofEngine (Engine.openOn refX 1 [])).puts refX (fun _ _ => 0) orderedPuts,
        (∀ w' ∈ (ofEngine (Engine.openOn refX 1 [])).puts refX (fun _ _ => 0) orderedPuts,
          w'.stamp ≤ w.stamp) ∧
        m.store.stateOf refX (ascii "k") = Entry.state (some w) ∧
        (Engine.openOn refX 1 m.wal.bytes).store.stateOf refX (ascii "k") = Entry.state (some w) := by
  obtain ⟨m, h⟩ := putRun_of_rests orderedPuts (by simp [orderedPuts]) (by decide)
    (by decide)
  exact ⟨m, h, (puts_coincide_iff refX (External.reference_lawful _) _ _ [] _ _ m h 1).mpr
    ⟨⟨⟨2, 0, 1⟩, ascii "b", false⟩, by decide, by decide, by decide⟩⟩

/-- When the put with the smaller timestamp appends last, recovery brings back its value. -/
theorem puts_crossed :
    ∃ m, PutRun refX (fun _ _ => 0) (Engine.openOn refX 1 []) [] (ascii "k") crossedPuts m ∧
      m.store.stateOf refX (ascii "k") = (ascii "b", some ⟨2, 0, 1⟩, false) ∧
      (Engine.openOn refX 1 m.wal.bytes).store.stateOf refX (ascii "k") =
        (ascii "a", some ⟨1, 0, 1⟩, false) := by
  obtain ⟨m, h⟩ := putRun_of_rests crossedPuts (by simp [crossedPuts]) (by decide)
    (by decide)
  have hx : refX.Lawful := External.reference_lawful _
  refine ⟨m, h, h.live hx (w := ⟨⟨2, 0, 1⟩, ascii "b", false⟩) (by decide), ?_⟩
  exact h.recovered hx (w := ⟨⟨1, 0, 1⟩, ascii "a", false⟩) (by decide) 1

end L3KV
