import L3KV.Engine.Contents
import L3KV.Framework.Linearizability

/-!
# A key is linearizable

`get` reads the map of a shard directly; `put`, `del` and the patches are performed by the thread of
a shard while the caller waits. Each of them touches the key at one step of the machine, between the
beginning of the call and its return: this is where it takes effect, whatever else the threads do
with other keys.
-/

namespace L3KV

open Framework

inductive KeyOp where
  | read
  | write (o : ShardOp)
  deriving DecidableEq

/-- A key as a sequential object. A read returns the content, a write nothing. -/
def keySpec (l : Lite3) (content : Bytes) : KeyOp → Bytes × Option Bytes
  | .read => (content, some content)
  | .write o => (o.effect l content, none)

/-- What a call that waits for its shard does to the key. -/
def Call.opOn (key : Bytes) : Call → Option ShardOp
  | .put k body _ _ => if k = key then some (.put k body) else none
  | .del k _ _ => if k = key then some (.del k) else none
  | .patchInt k field value _ => if k = key then some (.patchInt k field value) else none
  | .patchStr k field value _ => if k = key then some (.patchStr k field value) else none
  | _ => none

inductive Caller where
  | thread (t : Nat)
  | reader (r : Nat)
  deriving DecidableEq

/-- The engine with its threads and with readers of a key, whose calls on the key are numbered. -/
structure Watch where
  machine : Machine
  /-- The number of the call on the key that is being made. -/
  current : Caller → Option Nat
  next : Nat

inductive WatchEvent where
  | step (event : Event)
  /-- `get` finds that the caller may read the key. -/
  | get (reader : Nat) (principal : UInt32)
  /-- `get` takes the view of the key and returns. -/
  | view (reader : Nat)

namespace Watch

def init (x : External) (nodeId : UInt32) : Watch :=
  ⟨Machine.ofEngine (Engine.openOn x nodeId []), fun _ => none, 0⟩

def setCurrent (s : Watch) (a : Caller) (id : Option Nat) : Watch :=
  { s with current := Function.update s.current a id }

def enter (s : Watch) (a : Caller) : Watch :=
  { s.setCurrent a (some s.next) with next := s.next + 1 }

section

variable (x : External) (u : Nat → Nat → UInt8) (key : Bytes)

/-- The calls under way after a step of the machine. -/
def moved (s : Watch) (event : Event) (m : Machine) : Watch :=
  match event with
  | .start t call =>
      match call.opOn key with
      | some _ => { s with machine := m }.enter (.thread t)
      | none => { s with machine := m }
  | .shard i =>
      match (s.machine.queues i).head?.bind Task.owner with
      | some t =>
          if m.phase t = .idle then { s with machine := m }.setCurrent (.thread t) none
          else { s with machine := m }
      | none => { s with machine := m }
  | _ => { s with machine := m }

def step (s : Watch) : WatchEvent → Option Watch
  | .step event => (s.machine.step x u event).map (s.moved key event)
  | .get r principal =>
      match s.current (.reader r) with
      | none =>
          if (s.machine.store.credentials.checkPermission principal key).canRead then
            some (s.enter (.reader r))
          else none
      | some _ => none
  | .view r =>
      match s.current (.reader r) with
      | some _ => some (s.setCurrent (.reader r) none)
      | none => none

def run (s : Watch) (events : List WatchEvent) : Option Watch := events.foldlM (step x u key) s

/-- What the next step on the task shows, if it belongs to a call on the key. -/
def taskMarks (s : Watch) (task : Task) : List (Mark KeyOp (Option Bytes)) :=
  match task.owner.bind fun t => s.current (.thread t) with
  | none => []
  | some id =>
      match task.ops with
      | [] => [.ret id none]
      | o :: _ =>
          (if o.key = key then [.point id] else []) ++
            if (s.machine.store.apply x o).isNone then [.ret id none] else []

/-- What a step shows of the calls on the key. -/
def marks (s : Watch) : WatchEvent → List (Mark KeyOp (Option Bytes))
  | .step (.start _ call) => ((call.opOn key).map fun o => Mark.call s.next (.write o)).toList
  | .step (.shard i) => ((s.machine.queues i).head?.map (s.taskMarks x key)).getD []
  | .step _ => []
  | .get _ _ => [.call s.next .read]
  | .view r =>
      match s.current (.reader r) with
      | some id => [.point id, .ret id (some (s.machine.store.get x key adminUid))]
      | none => []

/-- The calls on the key in a run, with the steps at which they take effect. -/
def trace (s : Watch) (events : List WatchEvent) : List (Mark KeyOp (Option Bytes)) :=
  (collect (step x u key) (fun s event => some (s.marks x key event)) s events).flatten

end

end Watch

abbrev KeyGhost := Ghost Bytes KeyOp (Option Bytes)

/-- What is left of a task: all of it, when the call has not taken effect, and nothing for the key,
when it has. Of a task of no call on the key there is nothing for the key. -/
def Due (key : Bytes) (g : KeyGhost) (ops : List ShardOp) : Option Nat → Prop
  | none => Spares key ops
  | some id =>
      (∃ o rest, ops = o :: rest ∧ o.key = key ∧ Spares key rest ∧
        g.progress id = .called (.write o)) ∨
      Spares key ops ∧ ∃ o, g.progress id = .done (.write o) none

/-- What a call is going to hand over. -/
def WorkDue (key : Bytes) (g : KeyGhost) (work : Work) : Option Nat → Prop
  | none => Spares key work.ops
  | some id => ∃ i o rest, work = .wait i (o :: rest) ∧ o.key = key ∧ Spares key rest ∧
      g.progress id = .called (.write o)

def PhaseDue (key : Bytes) (g : KeyGhost) : Phase → Option Nat → Prop
  | .idle, id => id = none
  | .planned plan, id => WorkDue key g plan.work id
  | .logged work, id => WorkDue key g work id
  | .waiting, _ => True

namespace Watch

/-- The key holds the state of the ghost, and every call on it is where the ghost says. -/
structure Mirrors (x : External) (key : Bytes) (s : Watch) (g : KeyGhost) : Prop where
  owned : s.machine.Owned
  shows : ∃ contents, s.machine.store.Shows x contents ∧ contents key = g.state
  fresh : ∀ id, s.next ≤ id → g.progress id = .fresh
  known : ∀ a id, s.current a = some id → id < s.next
  distinct : ∀ a b id, s.current a = some id → s.current b = some id → a = b
  readers : ∀ r id, s.current (.reader r) = some id → g.progress id = .called .read
  queued : ∀ i, ∀ task ∈ s.machine.queues i,
    Due key g task.ops (task.owner.bind fun t => s.current (.thread t))
  phases : ∀ t, PhaseDue key g (s.machine.phase t) (s.current (.thread t))

end Watch

section

variable {x : External} {u : Nat → Nat → UInt8} {key : Bytes} {g g' : KeyGhost}

private theorem Due.congr {ops : List ShardOp} {id : Option Nat} (h : Due key g ops id)
    (hsame : ∀ i ∈ id, g'.progress i = g.progress i) : Due key g' ops id := by
  cases id with
  | none => exact h
  | some i =>
      rw [Due, hsame i rfl]
      exact h

private theorem WorkDue.congr {work : Work} {id : Option Nat} (h : WorkDue key g work id)
    (hsame : ∀ i ∈ id, g'.progress i = g.progress i) : WorkDue key g' work id := by
  cases id with
  | none => exact h
  | some i =>
      rw [WorkDue, hsame i rfl]
      exact h

private theorem PhaseDue.congr {phase : Phase} {id : Option Nat} (h : PhaseDue key g phase id)
    (hsame : ∀ i ∈ id, g'.progress i = g.progress i) : PhaseDue key g' phase id := by
  cases phase with
  | idle => exact h
  | planned plan => exact WorkDue.congr h hsame
  | logged work => exact WorkDue.congr h hsame
  | waiting => trivial

private theorem WorkDue.wait {i : Fin 8} {ops : List ShardOp} {id : Option Nat}
    (h : WorkDue key g (.wait i ops) id) : Due key g ops id := by
  cases id with
  | none => exact h
  | some id =>
      obtain ⟨i', o, rest, hwork, hkey, hrest, hcalled⟩ := h
      cases hwork
      exact Or.inl ⟨o, rest, rfl, hkey, hrest, hcalled⟩

private theorem Machine.Owned.sole {m : Machine} (h : m.Owned) {i : Fin 8} {task : Task}
    {rest : List Task}
    (hqueue : m.queues i = task :: rest) {t : Nat} (howner : task.owner = some t) :
    m.phase t = .waiting ∧ (∀ task' ∈ rest, task'.owner ≠ some t) ∧
      ∀ j, j ≠ i → ∀ task' ∈ m.queues j, task'.owner ≠ some t := by
  have hpop := h.pop hqueue
  rw [howner] at hpop
  have hidle : ((m.setQueue i rest).wake (some t)).phase t = .idle := by
    simp [Machine.wake, Machine.setPhase]
  have hnone (j : Fin 8) (task' : Task) (htask' : task' ∈ (m.setQueue i rest).queues j) :
      task'.owner ≠ some t := by
    intro hown
    have hwaiting := hpop.waiting j t (List.mem_filterMap.mpr ⟨task', htask', hown⟩)
    rw [hidle] at hwaiting
    cases hwaiting
  refine ⟨?_, fun task' htask' => ?_, fun j hj task' htask' => ?_⟩
  · apply h.waiting i t
    rw [Machine.owners, hqueue, List.filterMap_cons, howner]
    exact List.mem_cons_self
  · apply hnone i task'
    simpa [Machine.setQueue] using htask'
  · apply hnone j task'
    simpa [Machine.setQueue, hj] using htask'

namespace Watch

variable {s s' : Watch}

namespace Mirrors

theorem init (nodeId : UInt32) : (Watch.init x nodeId).Mirrors x key (Ghost.init []) := by
  have hfind (key : Bytes) : (Store.init x).find x key = none := by simp [Store.find, Store.init]
  refine ⟨Machine.ofEngine_owned _, ⟨fun _ => [], fun key => Or.inr ⟨hfind key, rfl⟩, rfl⟩,
    fun _ _ => rfl, ?_, ?_, ?_, ?_, fun _ => rfl⟩
  · simp [Watch.init]
  · simp [Watch.init]
  · simp [Watch.init]
  · simp [Watch.init, Machine.ofEngine, Engine.openOn]

private theorem still (h : s.Mirrors x key g) {m : Machine} (hstore : m.store = s.machine.store)
    (hqueues : m.queues = s.machine.queues) (hphase : m.phase = s.machine.phase) :
    Mirrors x key { s with machine := m } g := by
  refine ⟨h.owned.congr hphase fun i => ?_, ?_, h.fresh, h.known, h.distinct, h.readers, ?_, ?_⟩
  · rw [Machine.owners, hqueues]
    rfl
  · dsimp only
    rw [hstore]
    exact h.shows
  · dsimp only
    rw [hqueues]
    exact h.queued
  · dsimp only
    rw [hphase]
    exact h.phases

private theorem setPhase (h : s.Mirrors x key g) {t : Nat} (hphase : s.machine.phase t ≠ .waiting)
    {phase : Phase} (hdue : PhaseDue key g phase (s.current (.thread t))) :
    Mirrors x key { s with machine := s.machine.setPhase t phase } g := by
  refine ⟨h.owned.setPhase hphase phase, h.shows, h.fresh, h.known, h.distinct, h.readers, h.queued,
    fun t' => ?_⟩
  by_cases heq : t' = t
  · subst heq
    simpa [Machine.setPhase] using hdue
  · dsimp only
    rw [Machine.setPhase_of_ne _ heq]
    exact h.phases t'

private theorem enqueue (h : s.Mirrors x key g) (i : Fin 8) (task : Task)
    (howned : (s.machine.enqueue i task).Owned)
    (hdue : Due key g task.ops (task.owner.bind fun t => s.current (.thread t))) :
    Mirrors x key { s with machine := s.machine.enqueue i task } g := by
  refine ⟨howned, h.shows, h.fresh, h.known, h.distinct, h.readers, fun j task' htask' => ?_, h.phases⟩
  by_cases hj : j = i
  · subst hj
    simp only [Machine.enqueue, Function.update_self, List.mem_append, List.mem_singleton] at htask'
    rcases htask' with htask' | rfl
    · exact h.queued j task' htask'
    · exact hdue
  · simp only [Machine.enqueue, Function.update_of_ne hj] at htask'
    exact h.queued j task' htask'

private theorem enter (h : s.Mirrors x key g) {m : Machine} (howned : m.Owned)
    (hstore : m.store = s.machine.store) (hqueues : m.queues = s.machine.queues) {a : Caller}
    {op : KeyOp} (hop : ∀ r, a = .reader r → op = .read)
    (howner : ∀ t, a = .thread t → ∀ i, ∀ task ∈ s.machine.queues i, task.owner ≠ some t)
    (hphases : ∀ t, PhaseDue key (g.advance s.next (.called op)) (m.phase t)
      (Function.update s.current a (some s.next) (.thread t))) :
    Mirrors x key ({ s with machine := m }.enter a) (g.advance s.next (.called op)) := by
  have hold (b : Caller) (id : Nat) (hb : s.current b = some id) :
      (g.advance s.next (.called op)).progress id = g.progress id :=
    g.advance_of_ne (h.known b id hb).ne _
  have hcases (b : Caller) (id : Nat)
      (hb : Function.update s.current a (some s.next) b = some id) :
      (b = a ∧ id = s.next) ∨ (b ≠ a ∧ s.current b = some id) := by
    by_cases heq : b = a
    · subst heq
      rw [Function.update_self] at hb
      cases hb
      exact Or.inl ⟨rfl, rfl⟩
    · rw [Function.update_of_ne heq] at hb
      exact Or.inr ⟨heq, hb⟩
  refine ⟨howned, ?_, fun id hid => ?_, fun b id hb => ?_, fun b b' id hb hb' => ?_,
    fun r id hr => ?_, fun i task htask => ?_, hphases⟩
  · change ∃ contents, m.store.Shows x contents ∧ contents key = g.state
    rw [hstore]
    exact h.shows
  · have hid : s.next + 1 ≤ id := hid
    rw [g.advance_of_ne (by omega)]
    exact h.fresh id (by omega)
  · change id < s.next + 1
    rcases hcases b id hb with ⟨-, rfl⟩ | ⟨-, hb⟩
    · omega
    · have := h.known b id hb
      omega
  · rcases hcases b id hb with ⟨rfl, rfl⟩ | ⟨-, hb⟩
    · rcases hcases b' _ hb' with ⟨rfl, -⟩ | ⟨-, hb'⟩
      · rfl
      · exact absurd (h.known b' _ hb') (lt_irrefl _)
    · rcases hcases b' id hb' with ⟨-, rfl⟩ | ⟨-, hb'⟩
      · exact absurd (h.known b _ hb) (lt_irrefl _)
      · exact h.distinct b b' id hb hb'
  · rcases hcases (.reader r) id hr with ⟨heq, rfl⟩ | ⟨-, hr⟩
    · rw [g.advance_self, hop r heq.symm]
    · rw [hold _ id hr]
      exact h.readers r id hr
  · have hmem : task ∈ s.machine.queues i := by
      rw [← hqueues]
      exact htask
    have hsame : (task.owner.bind fun t => Function.update s.current a (some s.next) (.thread t)) =
        task.owner.bind fun t => s.current (.thread t) := by
      cases hown : task.owner with
      | none => rfl
      | some t =>
          have hne : Caller.thread t ≠ a := by
            rintro rfl
            exact howner t rfl i task hmem hown
          exact Function.update_of_ne hne _ _
    change Due key _ task.ops (task.owner.bind fun t =>
      Function.update s.current a (some s.next) (.thread t))
    rw [hsame]
    refine (h.queued i task hmem).congr fun id hid => ?_
    obtain ⟨t, -, ht⟩ := Option.bind_eq_some_iff.mp hid
    exact hold _ id ht

private theorem perform (h : s.Mirrors x key g) {i : Fin 8} {task : Task} {ops : List ShardOp}
    {rest : List Task} (hqueue : s.machine.queues i = task :: rest)
    {st : Store} (hshows : ∃ contents, st.Shows x contents ∧ contents key = g'.state)
    (hsame : ∀ id, (task.owner.bind fun t => s.current (.thread t)) ≠ some id →
      g'.progress id = g.progress id)
    (hdue : Due key g' ops (task.owner.bind fun t => s.current (.thread t))) :
    Mirrors x key
      { s with machine := { s.machine with store := st }.setQueue i (task.goOn ops :: rest) } g' := by
  -- The thread whose progress may have changed is the owner of this task and of no other.
  have hothers (a : Caller) (ha : ∀ t, task.owner = some t → a ≠ .thread t) (id : Nat)
      (hid : s.current a = some id) : g'.progress id = g.progress id := by
    apply hsame
    intro howner
    obtain ⟨t, ht, hcurrent⟩ := Option.bind_eq_some_iff.mp howner
    exact ha t ht (h.distinct _ _ id hid hcurrent)
  have hsole {t : Nat} (ht : task.owner = some t) := h.owned.sole hqueue (t := t) ht
  refine ⟨?_, hshows, fun id hid => ?_, h.known, h.distinct, fun r id hr => ?_,
    fun j task' htask' => ?_, fun t => ?_⟩
  · apply h.owned.congr (by rfl)
    intro j
    dsimp only
    rw [Machine.owners_setQueue]
    split
    · rename_i hj
      rw [hj, Machine.owners, hqueue, List.filterMap_cons, List.filterMap_cons, Task.goOn_owner]
    · exact .refl _
  · rw [hsame id ?_]
    · exact h.fresh id hid
    · intro howner
      obtain ⟨t, -, ht⟩ := Option.bind_eq_some_iff.mp howner
      exact absurd (h.known _ id ht) (not_lt.mpr hid)
  · rw [hothers (.reader r) (fun t _ => by simp) id hr]
    exact h.readers r id hr
  · have hkeep (htask' : task' ∈ s.machine.queues j)
        (hne : ∀ t, task.owner = some t → task'.owner ≠ some t) :
        Due key g' task'.ops (task'.owner.bind fun t => s.current (.thread t)) := by
      refine (h.queued j task' htask').congr fun id hid => ?_
      obtain ⟨t, ht, hcurrent⟩ := Option.bind_eq_some_iff.mp hid
      refine hothers (.thread t) (fun t' ht' heq => ?_) id hcurrent
      cases heq
      exact hne t ht' ht
    by_cases hj : j = i
    · subst hj
      simp only [Machine.setQueue, Function.update_self, List.mem_cons] at htask'
      rcases htask' with rfl | htask'
      · exact hdue
      · exact hkeep (by simp [hqueue, htask']) fun t ht => (hsole ht).2.1 task' htask'
    · simp only [Machine.setQueue, Function.update_of_ne hj] at htask'
      exact hkeep htask' fun t ht => (hsole ht).2.2 j hj task' htask'
  · by_cases ht : task.owner = some t
    · change PhaseDue key g' (s.machine.phase t) _
      rw [(hsole ht).1]
      trivial
    · refine (h.phases t).congr fun id hid => hothers (.thread t) (fun t' ht' heq => ?_) id hid
      cases heq
      exact ht ht'

private theorem take (h : s.Mirrors x key g) {i : Fin 8} {task : Task} {front back : List Task}
    (hqueue : s.machine.queues i = front ++ task :: back)
    (howned : (s.machine.setQueue i (task.goOn task.ops :: (front ++ back))).Owned) :
    Mirrors x key
      { s with machine := s.machine.setQueue i (task.goOn task.ops :: (front ++ back)) } g := by
  refine ⟨howned, h.shows, h.fresh, h.known, h.distinct, h.readers, fun j task' htask' => ?_, h.phases⟩
  obtain ⟨before, hbefore, hops, -, howner⟩ := Machine.mem_take hqueue htask'
  rw [hops, howner]
  exact h.queued j before hbefore

private theorem finish (h : s.Mirrors x key g) {i : Fin 8} {task : Task} {rest : List Task}
    (hqueue : s.machine.queues i = task :: rest) (hstate : g'.state = g.state)
    (hsame : ∀ id, (task.owner.bind fun t => s.current (.thread t)) ≠ some id →
      g'.progress id = g.progress id)
    {current : Caller → Option Nat}
    (hcurrent : current = match task.owner with
      | none => s.current
      | some t => Function.update s.current (.thread t) none) :
    Mirrors x key ⟨(s.machine.setQueue i rest).wake task.owner, current, s.next⟩ g' := by
  have hothers (a : Caller) (ha : ∀ t, task.owner = some t → a ≠ .thread t) :
      current a = s.current a ∧ ∀ id, s.current a = some id → g'.progress id = g.progress id := by
    constructor
    · rw [hcurrent]
      cases hown : task.owner with
      | none => rfl
      | some t => exact Function.update_of_ne (ha t hown) _ _
    · intro id hid
      apply hsame
      intro howner
      obtain ⟨t, ht, hthread⟩ := Option.bind_eq_some_iff.mp howner
      exact ha t ht (h.distinct _ _ id hid hthread)
  have hless (a : Caller) (id : Nat) (ha : current a = some id) : s.current a = some id := by
    rw [hcurrent] at ha
    cases hown : task.owner with
    | none =>
        rw [hown] at ha
        exact ha
    | some t =>
        rw [hown] at ha
        by_cases heq : a = .thread t
        · subst heq
          simp at ha
        · simpa [Function.update_of_ne heq] using ha
  have hsole {t : Nat} (ht : task.owner = some t) := h.owned.sole hqueue ht
  refine ⟨h.owned.pop hqueue, ?_, fun id hid => ?_, fun a id ha => h.known a id (hless a id ha),
    fun a b id ha hb => h.distinct a b id (hless a id ha) (hless b id hb), fun r id hr => ?_,
    fun j task' htask' => ?_, fun t => ?_⟩
  · dsimp only
    rw [Machine.wake_store, hstate]
    exact h.shows
  · rw [hsame id ?_]
    · exact h.fresh id hid
    · intro howner
      obtain ⟨t, -, ht⟩ := Option.bind_eq_some_iff.mp howner
      exact absurd (h.known _ id ht) (not_lt.mpr hid)
  · rw [(hothers (.reader r) fun t _ => by simp).2 id (hless _ id hr)]
    exact h.readers r id (hless _ id hr)
  · have hkeep (htask : task' ∈ s.machine.queues j)
        (hne : ∀ t, task.owner = some t → task'.owner ≠ some t) :
        Due key g' task'.ops (task'.owner.bind fun t => current (.thread t)) := by
      have hbind : (task'.owner.bind fun t => current (.thread t)) =
          task'.owner.bind fun t => s.current (.thread t) := by
        cases hown : task'.owner with
        | none => rfl
        | some t =>
            refine (hothers (.thread t) fun t' ht' heq => ?_).1
            cases heq
            exact hne t ht' hown
      rw [hbind]
      refine (h.queued j task' htask).congr fun id hid => ?_
      obtain ⟨t, ht, hthread⟩ := Option.bind_eq_some_iff.mp hid
      refine (hothers (.thread t) fun t' ht' heq => ?_).2 id hthread
      cases heq
      exact hne t ht' ht
    rw [Machine.wake_queues] at htask'
    by_cases hj : j = i
    · subst hj
      simp only [Machine.setQueue, Function.update_self] at htask'
      exact hkeep (by simp [hqueue, htask']) fun t ht => (hsole ht).2.1 task' htask'
    · simp only [Machine.setQueue, Function.update_of_ne hj] at htask'
      exact hkeep htask' fun t ht => (hsole ht).2.2 j hj task' htask'
  · by_cases ht : task.owner = some t
    · have hphase : ((s.machine.setQueue i rest).wake task.owner).phase t = .idle := by
        simp [ht, Machine.wake, Machine.setPhase]
      have hnone : current (.thread t) = none := by simp [hcurrent, ht]
      dsimp only
      rw [hphase, hnone]
      rfl
    · have hphase : ((s.machine.setQueue i rest).wake task.owner).phase t = s.machine.phase t := by
        cases hown : task.owner with
        | none => rfl
        | some t' =>
            refine Machine.setPhase_of_ne _ (fun heq => ht ?_) _
            rw [hown, heq]
      obtain ⟨hcur, hprogress⟩ := hothers (.thread t) fun t' ht' heq => by
        cases heq
        exact ht ht'
      dsimp only
      rw [hphase, hcur]
      exact (h.phases t).congr fun id hid => hprogress id hid

private theorem leave (h : s.Mirrors x key g) {r id : Nat} (hr : s.current (.reader r) = some id)
    (hstate : g'.state = g.state) (hsame : ∀ id', id' ≠ id → g'.progress id' = g.progress id') :
    Mirrors x key (s.setCurrent (.reader r) none) g' := by
  have hless (a : Caller) (id' : Nat)
      (ha : Function.update s.current (.reader r) none a = some id') :
      s.current a = some id' ∧ g'.progress id' = g.progress id' := by
    by_cases heq : a = .reader r
    · subst heq
      simp at ha
    · rw [Function.update_of_ne heq] at ha
      refine ⟨ha, hsame id' fun hid => heq ?_⟩
      exact h.distinct _ _ id (hid ▸ ha) hr
  have hthread (t : Nat) : (s.setCurrent (.reader r) none).current (.thread t) = s.current (.thread t) :=
    by simp [setCurrent]
  refine ⟨h.owned, ?_, fun id' hid' => ?_, fun a id' ha => h.known a id' (hless a id' ha).1,
    fun a b id' ha hb => h.distinct a b id' (hless a id' ha).1 (hless b id' hb).1,
    fun r' id' hr' => ?_, fun i task htask => ?_, fun t => ?_⟩
  · rw [hstate]
    exact h.shows
  · have hid' : s.next ≤ id' := hid'
    have hlt := h.known _ id hr
    rw [hsame id' (by omega)]
    exact h.fresh id' hid'
  · obtain ⟨hold, hprogress⟩ := hless _ id' hr'
    rw [hprogress]
    exact h.readers r' id' hold
  · simp only [hthread]
    refine (h.queued i task htask).congr fun id' hid' => ?_
    obtain ⟨t, -, ht⟩ := Option.bind_eq_some_iff.mp hid'
    exact (hless (.thread t) id' ((hthread t).trans ht)).2
  · rw [hthread]
    exact (h.phases t).congr fun id' hid' => (hless (.thread t) id' ((hthread t).trans hid')).2

end Mirrors

private theorem opOn_work {e : Engine} {call : Call} {o : ShardOp}
    (hop : call.opOn key = some o) {clock : HybridLogicalClock} {plan : Plan}
    (hprep : e.prepare x u call = some (clock, .accepted plan)) :
    ∃ i sidecar, plan.work = .wait i [o, sidecar] ∧ o.key = key ∧ sidecar.key ≠ key := by
  have hkey {k : Bytes} {o' : ShardOp} (h : (if k = key then some o' else none) = some o) :
      k = key ∧ o' = o := by
    split at h
    · exact ⟨‹_›, Option.some.inj h⟩
    · cases h
  cases Engine.prepare_sound hprep with
  | put k body principal readings _ _ _ hwork _ =>
      obtain ⟨rfl, rfl⟩ := hkey hop
      exact ⟨_, _, hwork, rfl, metaKey_ne k⟩
  | del k principal readings _ _ _ hwork _ =>
      obtain ⟨rfl, rfl⟩ := hkey hop
      exact ⟨_, _, hwork, rfl, metaKey_ne k⟩
  | patchInt k field value readings =>
      obtain ⟨rfl, rfl⟩ := hkey hop
      exact ⟨_, _, rfl, rfl, metaKey_ne k⟩
  | patchStr k field value readings =>
      obtain ⟨rfl, rfl⟩ := hkey hop
      exact ⟨_, _, rfl, rfl, metaKey_ne k⟩
  | batchPut => cases hop
  | applyMutation => cases hop

namespace Mirrors

private theorem start (h : s.Mirrors x key g) {t : Nat} (hidle : s.machine.phase t = .idle)
    {m : Machine}
    (howned : m.Owned) (hstore : m.store = s.machine.store) (hqueues : m.queues = s.machine.queues)
    {plan : Plan} (hphase : m.phase = Function.update s.machine.phase t (.planned plan))
    {i : Fin 8} {o sidecar : ShardOp} (hwork : plan.work = .wait i [o, sidecar]) (hkey : o.key = key)
    (hsidecar : sidecar.key ≠ key) :
    Mirrors x key ({ s with machine := m }.enter (.thread t)) (g.advance s.next (.called (.write o))) := by
  apply h.enter howned hstore hqueues (by simp)
  · rintro t' heq j task htask hown
    cases heq
    have hwaiting := h.owned.waiting j t (List.mem_filterMap.mpr ⟨task, htask, hown⟩)
    rw [hidle] at hwaiting
    cases hwaiting
  · intro t'
    rw [hphase]
    by_cases heq : t' = t
    · subst heq
      rw [Function.update_self, Function.update_self]
      exact ⟨i, o, [sidecar], hwork, hkey, by simpa [Spares] using hsidecar, g.advance_self _ _⟩
    · rw [Function.update_of_ne heq, Function.update_of_ne (by simpa using heq)]
      exact (h.phases t').congr fun id hid => g.advance_of_ne (h.known _ id hid).ne _

private theorem spares_of_work (h : s.Mirrors x key g) {t : Nat} {work : Work}
    (hphase : s.machine.phase t = .logged work) (hwork : ∀ i ops, work ≠ .wait i ops) :
    s.current (.thread t) = none ∧ Spares key work.ops := by
  have hdue := h.phases t
  rw [hphase] at hdue
  cases hcurrent : s.current (.thread t) with
  | none =>
      rw [hcurrent] at hdue
      exact ⟨rfl, hdue⟩
  | some id =>
      rw [hcurrent] at hdue
      obtain ⟨i, o, rest, heq, -⟩ := hdue
      exact absurd heq (hwork i _)

private theorem store (h : s.Mirrors x key g) {st : Store}
    (hshows : ∃ contents, st.Shows x contents ∧ contents key = g.state) :
    Mirrors x key { s with machine := { s.machine with store := st } } g :=
  ⟨h.owned.congr (by rfl) fun _ => .refl _, hshows, h.fresh, h.known, h.distinct, h.readers, h.queued,
    h.phases⟩

private theorem shows_of_ne (hz : x.zstd.Lossless) (hframed : x.zstd.Framed) (h : s.Mirrors x key g)
    (hshort : s.machine.store.ValuesShort x) {o : ShardOp} (hne : o.key ≠ key) {st : Store}
    (happly : s.machine.store.apply x o = some st) :
    ∃ contents, st.Shows x contents ∧ contents key = g.state := by
  obtain ⟨contents, hshows, hstate⟩ := h.shows
  obtain ⟨contents', hshows', hcontent⟩ := hshows.applied hz hframed hshort happly key
  rw [if_neg hne, hstate] at hcontent
  exact ⟨contents', hshows', hcontent⟩

private theorem work (hz : x.zstd.Lossless) (hframed : x.zstd.Framed) (h : s.Mirrors x key g)
    (hshort : s.machine.store.ValuesShort x) {t : Nat} {work : Work}
    (hphase : s.machine.phase t = .logged work) :
    Mirrors x key { s with machine := s.machine.workStep x t work } g := by
  have hne : s.machine.phase t ≠ .waiting := by simp [hphase]
  cases work with
  | wait i ops =>
      have hdue := h.phases t
      rw [hphase] at hdue
      have hwaiting : PhaseDue key g .waiting (s.current (.thread t)) := trivial
      exact (h.setPhase hne hwaiting).enqueue i ⟨t, some t, ops, false⟩
        (h.owned.enqueue_wait hne i t ops) (WorkDue.wait hdue)
  | async tasks =>
      obtain ⟨hcurrent, hspares⟩ := h.spares_of_work hphase (by simp)
      cases tasks with
      | nil => exact h.setPhase hne hcurrent
      | cons w tasks =>
          have hfirst : Spares key w.2 := fun o ho =>
            hspares o (List.mem_flatMap.mpr ⟨w, List.mem_cons_self, ho⟩)
          have hrest : Spares key (Work.async tasks).ops := by
            intro o ho
            obtain ⟨w', hw', ho'⟩ := List.mem_flatMap.mp ho
            exact hspares o (List.mem_flatMap.mpr ⟨w', List.mem_cons_of_mem _ hw', ho'⟩)
          refine (h.enqueue w.1 ⟨t, none, w.2, false⟩ (h.owned.enqueue_async _ _ _) hfirst).setPhase
            hne ?_
          change WorkDue key g (.async tasks) (s.current (.thread t))
          rw [hcurrent]
          exact hrest
  | direct ops =>
      obtain ⟨hcurrent, hspares⟩ := h.spares_of_work hphase (by simp)
      cases ops with
      | nil => exact h.setPhase hne hcurrent
      | cons o ops =>
          cases happly : s.machine.store.apply x o with
          | none =>
              rw [Machine.workStep, happly]
              exact h.setPhase hne hcurrent
          | some st =>
              rw [Machine.workStep, happly]
              refine (h.store (h.shows_of_ne hz hframed hshort (hspares o List.mem_cons_self)
                happly)).setPhase hne ?_
              change WorkDue key g (.direct ops) (s.current (.thread t))
              rw [hcurrent]
              exact fun o' ho' => hspares o' (List.mem_cons_of_mem _ ho')

private theorem finished (h : s.Mirrors x key g) {i : Fin 8} {task : Task} {rest : List Task}
    (hqueue : s.machine.queues i = task :: rest) (hstate : g'.state = g.state)
    (hsame : ∀ id, (task.owner.bind fun t => s.current (.thread t)) ≠ some id →
      g'.progress id = g.progress id) :
    (s.moved key (.shard i) ((s.machine.setQueue i rest).wake task.owner)).Mirrors x key g' := by
  refine cast ?_ (h.finish hqueue hstate hsame rfl)
  congr 1
  cases howner : task.owner with
  | none => simp [moved, hqueue, howner]
  | some t =>
      have hidle : ((s.machine.setQueue i rest).wake (some t)).phase t = .idle := by
        simp [Machine.wake, Machine.setPhase]
      simp [moved, hqueue, howner, hidle, setCurrent]

private theorem performed (h : s.Mirrors x key g) {i : Fin 8} {task : Task} {ops : List ShardOp}
    {rest : List Task} (hqueue : s.machine.queues i = task :: rest)
    {st : Store} (hshows : ∃ contents, st.Shows x contents ∧ contents key = g'.state)
    (hsame : ∀ id, (task.owner.bind fun t => s.current (.thread t)) ≠ some id →
      g'.progress id = g.progress id)
    (hdue : Due key g' ops (task.owner.bind fun t => s.current (.thread t))) :
    (s.moved key (.shard i)
      ({ s.machine with store := st }.setQueue i (task.goOn ops :: rest))).Mirrors x key g' := by
  refine cast ?_ (h.perform hqueue hshows hsame hdue)
  congr 1
  cases howner : task.owner with
  | none => simp [moved, hqueue, howner]
  | some t =>
      have hwaiting : s.machine.phase t = .waiting := (h.owned.sole hqueue howner).1
      simp [moved, hqueue, howner, Machine.setQueue, hwaiting]

private theorem shard_other (hz : x.zstd.Lossless) (hframed : x.zstd.Framed) (h : s.Mirrors x key g)
    (hshort : s.machine.store.ValuesShort x) {i : Fin 8} {task : Task} {rest : List Task}
    (hqueue : s.machine.queues i = task :: rest)
    (hnone : (task.owner.bind fun t => s.current (.thread t)) = none) :
    (s.moved key (.shard i) (s.machine.shardStep x i task rest)).Mirrors x key g := by
  have hdue := h.queued i task (by simp [hqueue])
  rw [hnone] at hdue
  cases hops : task.ops with
  | nil =>
      rw [Machine.shardStep, hops]
      exact h.finished hqueue rfl fun _ _ => rfl
  | cons o ops =>
      rw [hops] at hdue
      cases happly : s.machine.store.apply x o with
      | none =>
          rw [Machine.shardStep, hops]
          dsimp only
          rw [happly]
          exact h.finished hqueue rfl fun _ _ => rfl
      | some st =>
          rw [Machine.shardStep_applies hops happly]
          refine h.performed hqueue
            (h.shows_of_ne hz hframed hshort (hdue o List.mem_cons_self) happly) (fun _ _ => rfl) ?_
          rw [hnone]
          exact fun o' ho' => hdue o' (List.mem_cons_of_mem _ ho')

private theorem shard_done (hz : x.zstd.Lossless) (hframed : x.zstd.Framed) (h : s.Mirrors x key g)
    (hshort : s.machine.store.ValuesShort x) {i : Fin 8} {task : Task} {rest : List Task}
    (hqueue : s.machine.queues i = task :: rest) {id : Nat}
    (hid : (task.owner.bind fun t => s.current (.thread t)) = some id)
    (hspares : Spares key task.ops) {o' : ShardOp} (hdone : g.progress id = .done (.write o') none) :
    ∃ g', (s.taskMarks x key task).foldlM (Ghost.step (keySpec x.lite3)) g = some g' ∧
      (s.moved key (.shard i) (s.machine.shardStep x i task rest)).Mirrors x key g' := by
  have hret : [Mark.ret id none].foldlM (Ghost.step (keySpec x.lite3)) g =
      some (g.advance id .returned) := by simp [Ghost.step, hdone]
  have hsame (id' : Nat) (hne : (task.owner.bind fun t => s.current (.thread t)) ≠ some id') :
      (g.advance id .returned).progress id' = g.progress id' := by
    apply g.advance_of_ne
    rintro rfl
    exact hne hid
  cases hops : task.ops with
  | nil =>
      refine ⟨g.advance id .returned, ?_, ?_⟩
      · rw [taskMarks, hid, hops]
        exact hret
      · rw [Machine.shardStep, hops]
        exact h.finished hqueue rfl hsame
  | cons o ops =>
      rw [hops] at hspares
      have hne : o.key ≠ key := hspares o List.mem_cons_self
      cases happly : s.machine.store.apply x o with
      | none =>
          refine ⟨g.advance id .returned, ?_, ?_⟩
          · rw [taskMarks, hid, hops]
            simp only [if_neg hne, happly, Option.isNone_none, if_true, List.nil_append]
            exact hret
          · rw [Machine.shardStep, hops]
            dsimp only
            rw [happly]
            exact h.finished hqueue rfl hsame
      | some st =>
          refine ⟨g, ?_, ?_⟩
          · rw [taskMarks, hid, hops]
            simp [hne, happly]
          · rw [Machine.shardStep_applies hops happly]
            refine h.performed hqueue (h.shows_of_ne hz hframed hshort hne happly) (fun _ _ => rfl) ?_
            rw [hid]
            exact Or.inr ⟨fun o' ho' => hspares o' (List.mem_cons_of_mem _ ho'), o', hdone⟩

private theorem shard_point (hz : x.zstd.Lossless) (hframed : x.zstd.Framed) (h : s.Mirrors x key g)
    (hshort : s.machine.store.ValuesShort x) {i : Fin 8} {task : Task} {o : ShardOp}
    {ops : List ShardOp} {rest : List Task} (hqueue : s.machine.queues i = task :: rest)
    (hops : task.ops = o :: ops)
    {id : Nat} (hid : (task.owner.bind fun t => s.current (.thread t)) = some id) (hkey : o.key = key)
    (hspares : Spares key ops) (hcalled : g.progress id = .called (.write o)) :
    ∃ g', (s.taskMarks x key task).foldlM (Ghost.step (keySpec x.lite3)) g = some g' ∧
      (s.moved key (.shard i) (s.machine.shardStep x i task rest)).Mirrors x key g' := by
  obtain ⟨contents, hshows, hstate⟩ := h.shows
  let g₁ : KeyGhost := { g with
    state := o.effect x.lite3 g.state
    calls := g.calls ++ [(id, KeyOp.write o, none)] }.advance id (.done (.write o) none)
  have hpoint : g.step (keySpec x.lite3) (.point id) = some g₁ := by
    simp [Ghost.step, hcalled, keySpec, g₁]
  have hsame (id' : Nat) (hne : (task.owner.bind fun t => s.current (.thread t)) ≠ some id') :
      id' ≠ id := by
    rintro rfl
    exact hne hid
  cases happly : s.machine.store.apply x o with
  | none =>
      have hret : g₁.step (keySpec x.lite3) (.ret id none) = some (g₁.advance id .returned) := by
        simp [Ghost.step, g₁, Ghost.advance_self]
      refine ⟨g₁.advance id .returned, ?_, ?_⟩
      · rw [taskMarks, hid, hops]
        simp [hkey, happly, hpoint, hret]
      · rw [Machine.shardStep, hops]
        dsimp only
        rw [happly]
        refine h.finished hqueue ?_ fun id' hne => ?_
        · have hthrew := hshows.threw hz hframed hshort happly
          rw [hkey, hstate] at hthrew
          exact hthrew
        · exact (g₁.advance_of_ne (hsame id' hne) _).trans (Ghost.advance_of_ne _ (hsame id' hne) _)
  | some st =>
      refine ⟨g₁, ?_, ?_⟩
      · rw [taskMarks, hid, hops]
        simp [hkey, happly, hpoint]
      · rw [Machine.shardStep_applies hops happly]
        obtain ⟨contents', hshows', hcontent⟩ := hshows.applied hz hframed hshort happly key
        rw [if_pos hkey, hstate] at hcontent
        refine h.performed hqueue ⟨contents', hshows', hcontent⟩
          (fun id' hne => Ghost.advance_of_ne _ (hsame id' hne) _) ?_
        rw [hid]
        exact Or.inr ⟨hspares, o, Ghost.advance_self _ _ _⟩

private theorem shard (hz : x.zstd.Lossless) (hframed : x.zstd.Framed) (h : s.Mirrors x key g)
    (hshort : s.machine.store.ValuesShort x) {i : Fin 8} {task : Task} {rest : List Task}
    (hqueue : s.machine.queues i = task :: rest) :
    ∃ g', (s.taskMarks x key task).foldlM (Ghost.step (keySpec x.lite3)) g = some g' ∧
      (s.moved key (.shard i) (s.machine.shardStep x i task rest)).Mirrors x key g' := by
  have hdue := h.queued i task (by simp [hqueue])
  cases hid : task.owner.bind fun t => s.current (.thread t) with
  | none =>
      refine ⟨g, ?_, h.shard_other hz hframed hshort hqueue hid⟩
      rw [taskMarks, hid]
      rfl
  | some id =>
      rw [hid] at hdue
      rcases hdue with ⟨o, ops, hops, hkey, hspares, hcalled⟩ | ⟨hspares, o, hdone⟩
      · exact h.shard_point hz hframed hshort hqueue hops hid hkey hspares hcalled
      · exact h.shard_done hz hframed hshort hqueue hid hspares hdone

private theorem machine_step (hz : x.zstd.Lossless) (hframed : x.zstd.Framed)
    (h : s.Mirrors x key g)
    (hshort : s.machine.store.ValuesShort x) {event : Event} (hrestart : event ≠ .restart)
    (hspares : ∀ t call plan, event = .start t call → call.opOn key = none →
      s.machine.engine.planOf x u call = some plan → Spares key plan.work.ops)
    {m : Machine} (hm : s.machine.step x u event = some m) :
    ∃ g', (s.marks x key (.step event)).foldlM (Ghost.step (keySpec x.lite3)) g = some g' ∧
      (s.moved key event m).Mirrors x key g' := by
  have howned := h.owned.step hm
  cases Machine.step_sound hm with
  | @start t call clock plan hidle hprep =>
      cases hop : call.opOn key with
      | some o =>
          obtain ⟨i, sidecar, hwork, hkey, hsidecar⟩ := opOn_work hop hprep
          refine ⟨g.advance s.next (.called (.write o)), ?_, ?_⟩
          · simp [marks, hop, Ghost.step, h.fresh s.next (le_refl _)]
          · rw [moved]
            simp only [hop]
            exact h.start hidle howned rfl rfl rfl hwork hkey hsidecar
      | none =>
          refine ⟨g, by simp [marks, hop], ?_⟩
          rw [moved]
          simp only [hop]
          have hcurrent : s.current (.thread t) = none := by
            have hdue := h.phases t
            rw [hidle] at hdue
            exact hdue
          have hplan := hspares t call plan rfl hop (Engine.planOf_eq_some.mpr ⟨clock, hprep⟩)
          refine (h.still (m := { s.machine with clock := clock }) rfl rfl rfl).setPhase
            (by simp [hidle]) ?_
          change WorkDue key g plan.work (s.current (.thread t))
          rw [hcurrent]
          exact hplan
  | refuse => exact ⟨g, rfl, h.still rfl rfl rfl⟩
  | @append t plan hphase =>
      refine ⟨g, rfl, (h.still (m := { s.machine with wal := s.machine.wal.appendBatch plan.logged })
        rfl rfl rfl).setPhase (by simp [hphase]) ?_⟩
      have hdue := h.phases t
      rw [hphase] at hdue
      exact hdue
  | work hphase => exact ⟨g, rfl, h.work hz hframed hshort hphase⟩
  | take hqueue => exact ⟨g, rfl, h.take hqueue howned⟩
  | @shard i task rest hqueue =>
      obtain ⟨g', hmarks, hmirrors⟩ := h.shard hz hframed hshort hqueue
      refine ⟨g', ?_, hmirrors⟩
      simpa [marks, hqueue] using hmarks
  | restart => exact absurd rfl hrestart

theorem step (hz : x.zstd.Lossless) (hframed : x.zstd.Framed) (h : s.Mirrors x key g)
    (hshort : s.machine.store.ValuesShort x) {event : WatchEvent} (hrestart : event ≠ .step .restart)
    (hspares : ∀ t call plan, event = .step (.start t call) → call.opOn key = none →
      s.machine.engine.planOf x u call = some plan → Spares key plan.work.ops)
    (hstep : s.step x u key event = some s') :
    ∃ g', (s.marks x key event).foldlM (Ghost.step (keySpec x.lite3)) g = some g' ∧
      s'.Mirrors x key g' := by
  cases event with
  | step event =>
      obtain ⟨m, hm, rfl⟩ := Option.map_eq_some_iff.mp hstep
      exact h.machine_step hz hframed hshort (fun heq => hrestart (by rw [heq]))
        (fun t call plan heq => hspares t call plan (by rw [heq])) hm
  | get r principal =>
      simp only [Watch.step] at hstep
      split at hstep
      · split at hstep
        · cases hstep
          refine ⟨g.advance s.next (.called .read), ?_, ?_⟩
          · simp [marks, Ghost.step, h.fresh s.next (le_refl _)]
          · refine h.enter h.owned rfl rfl (fun _ _ => rfl) (by simp) fun t => ?_
            rw [Function.update_of_ne (by simp)]
            exact (h.phases t).congr fun id hid => g.advance_of_ne (h.known _ id hid).ne _
        · cases hstep
      · cases hstep
  | view r =>
      simp only [Watch.step] at hstep
      split at hstep
      · rename_i id hr
        cases hstep
        obtain ⟨contents, hshows, hstate⟩ := h.shows
        have hget : s.machine.store.get x key adminUid = g.state :=
          (hshows.get_eq hz hshort (by simp)).trans hstate
        let g₁ : KeyGhost := { g with calls := g.calls ++ [(id, KeyOp.read, some g.state)] }.advance id
          (.done .read (some g.state))
        have hpoint : g.step (keySpec x.lite3) (.point id) = some g₁ := by
          simp [Ghost.step, h.readers r id hr, keySpec, g₁]
        have hret : g₁.step (keySpec x.lite3) (.ret id (some g.state)) =
            some (g₁.advance id .returned) := by simp [Ghost.step, g₁, Ghost.advance_self]
        refine ⟨g₁.advance id .returned, ?_, h.leave hr rfl fun id' hne => ?_⟩
        · simp [marks, hr, hget, hpoint, hret]
        · exact (g₁.advance_of_ne hne _).trans (Ghost.advance_of_ne _ hne _)
      · cases hstep

end Mirrors

end Watch

end

private def watchX : External := External.reference fun _ => 0

private def watchPut : WatchEvent := .step (.start 0 (.put (ascii "k") (ascii "a") adminUid [1]))

/-- A `get` that overlaps a `put` and sees its value before it has returned. -/
private def watchRun : List WatchEvent :=
  [watchPut, .get 0 adminUid, .step (.append 0), .step (.work 0), .step (.shard firstShard), .view 0,
    .step (.shard firstShard), .step (.shard firstShard)]

end L3KV
