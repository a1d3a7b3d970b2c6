import Mathlib.Data.List.Flatten
import L3KV.Engine.PutOrder
import L3KV.Engine.Stamps

/-!
# Stored timestamps over whole runs

A run of calls, one after the other, with the threads of the shards working between and during
them, and with restarts. As long as the operations that are still queued are not overtaken and the
clock is ahead of what is stored, the timestamps a key is going to store rise from the stored one.
-/

namespace L3KV

open Framework

def Phase.parts : Phase → List (Option (Fin 8) × List ShardOp)
  | .planned plan => plan.work.parts
  | .logged work => work.parts
  | _ => []

/-- What a call is still going to hand over or to apply. -/
def Phase.ops (phase : Phase) : List ShardOp := phase.parts.flatMap Prod.snd

namespace Machine

def queuedOps (m : Machine) (s : Fin 8) : List ShardOp := (m.queues s).flatMap Task.ops

/-- The timestamps for a key that are queued on a shard. -/
def queued (l : Lite3) (m : Machine) (key : Bytes) (s : Fin 8) : List Timestamp :=
  stampsFor l key (m.queuedOps s)

end Machine

namespace Event

/-- Calls are made one after the other, on keys whose sidecar key is the key with the suffix. -/
def InScope (l : Lite3) (m : Machine) : Event → Prop
  | start _ call => (∀ t, m.phase t = .idle) ∧ call.Stamps ∧ ∀ key ∈ call.keys l, PlainKey key
  | refuse _ call => (∀ t, m.phase t = .idle) ∧ call.Stamps ∧ ∀ key ∈ call.keys l, PlainKey key
  | _ => True

/-- The readings of a call do not go backwards and its record fits. None of its keys is itself a
sidecar, the clock or the readings are past what each of them has stored, and if operations on its
sidecar are queued, then by the same thread and on the queue where that of the call is going. -/
def Ordered (x : External) (u : Nat → Nat → UInt8) (m : Machine) : Event → Prop
  | start t call => Sorted call.readings ∧ RecordFits x u m (.start t call) ∧
      ∀ key ∈ call.keys x.lite3, ¬ ascii ":meta" <:+ key ∧
        (∀ old ∈ m.store.stampOf x key, Outrun m.clock call.readings old) ∧
        ∀ s, ∀ task ∈ m.queues s, ∀ o ∈ task.ops, o.key = metaKey key →
          call.destination x key = some s ∧ task.producer = t
  | refuse _ call => Sorted call.readings
  | _ => True

instance (x : External) (u : Nat → Nat → UInt8) (m : Machine) (event : Event) :
    Decidable (event.RecordFits x u m) :=
  match event with
  | start _ call => inferInstanceAs (Decidable (∀ plan ∈ m.engine.planOf x u call, _))
  | refuse .. => isTrue trivial
  | append _ => isTrue trivial
  | work _ => isTrue trivial
  | take .. => isTrue trivial
  | shard _ => isTrue trivial
  | restart => isTrue trivial

instance (x : External) (u : Nat → Nat → UInt8) (m : Machine) (event : Event) :
    Decidable (event.Ordered x u m) :=
  match event with
  | start t call => inferInstanceAs (Decidable (Sorted call.readings ∧
      RecordFits x u m (.start t call) ∧ ∀ key ∈ call.keys x.lite3, ¬ ascii ":meta" <:+ key ∧
        (∀ old ∈ m.store.stampOf x key, Outrun m.clock call.readings old) ∧
        ∀ s, ∀ task ∈ m.queues s, ∀ o ∈ task.ops, o.key = metaKey key →
          call.destination x key = some s ∧ task.producer = t))
  | refuse _ call => inferInstanceAs (Decidable (Sorted call.readings))
  | append _ => isTrue trivial
  | work _ => isTrue trivial
  | take .. => isTrue trivial
  | shard _ => isTrue trivial
  | restart => isTrue trivial

end Event

/-- No restart comes after an accepted `batch_put`. -/
def BatchesKept (events : List Event) : Prop :=
  ∀ before after, events = before ++ .restart :: after →
    ∀ t call, .start t call ∈ before → call.isBatch = false

def Call.LocalWrite (key : Bytes) : Call → Prop
  | .put k _ _ _ => k = key
  | .del k _ _ => k = key
  | _ => False

namespace Machine

/-- The timestamps a key is going to store rise from the one it has, and all operations that are
going to store them are in one place and come from one thread. -/
structure StampInv (x : External) (stamp : Bytes → Timestamp) (m : Machine) : Prop where
  owned : m.Owned
  solo : ∀ t t', m.phase t ≠ .idle → m.phase t' ≠ .idle → t = t'
  stored : ∀ key, PlainKey key → StampAt x m.store key (stamp key)
  queueProper : ∀ s, ∀ o ∈ m.queuedOps s, o.Proper x.lite3
  callProper : ∀ t, ∀ o ∈ (m.phase t).ops, o.Proper x.lite3
  place : ∀ key, PlainKey key → ∃ (p : Option (Fin 8)) (thread : Nat),
    (∀ s, ∀ task ∈ m.queues s, stampsFor x.lite3 key task.ops ≠ [] →
      p = some s ∧ task.producer = thread) ∧
      ∀ t, ∀ part ∈ (m.phase t).parts, stampsFor x.lite3 key part.2 ≠ [] → part.1 = p ∧ t = thread
  rising : ∀ key, PlainKey key → ∀ s t,
    (stamp key :: (m.queued x.lite3 key s ++ stampsFor x.lite3 key (m.phase t).ops)).Pairwise (· < ·)
  queueBounded : ∀ key, PlainKey key → ∀ s, ∀ ts ∈ m.queued x.lite3 key s, ts ≤ m.clock.current
  callBounded : ∀ key, PlainKey key → ∀ t, ∀ part ∈ (m.phase t).parts, part.1 ≠ none →
    ∀ ts ∈ stampsFor x.lite3 key part.2, ts ≤ m.clock.current

private theorem queued_ne_nil {l : Lite3} {m : Machine} {key : Bytes} {s : Fin 8}
    (h : m.queued l key s ≠ []) : ∃ task ∈ m.queues s, stampsFor l key task.ops ≠ [] := by
  obtain ⟨ts, hts⟩ := List.exists_mem_of_ne_nil _ h
  obtain ⟨o, ho, hstamp⟩ := mem_stampsFor.mp hts
  obtain ⟨task, htask, ho⟩ := List.mem_flatMap.mp ho
  exact ⟨task, htask, List.ne_nil_of_mem (mem_stampsFor.mpr ⟨o, ho, hstamp⟩)⟩

private theorem stampsFor_ne_nil {l : Lite3} {key : Bytes} {ops : List ShardOp}
    (h : stampsFor l key ops ≠ []) : ∃ o ∈ ops, o.key = metaKey key := by
  obtain ⟨ts, hts⟩ := List.exists_mem_of_ne_nil _ h
  obtain ⟨o, ho, hstamp⟩ := mem_stampsFor.mp hts
  refine ⟨o, ho, ?_⟩
  cases o with
  | put k v =>
      rw [ShardOp.stampFor] at hstamp
      split at hstamp
      · assumption
      · cases hstamp
  | _ => cases hstamp

private theorem mem_phase_ops {l : Lite3} (phase : Phase) {key : Bytes} {ts : Timestamp}
    (h : ts ∈ stampsFor l key phase.ops) : ∃ part ∈ phase.parts, ts ∈ stampsFor l key part.2 := by
  obtain ⟨o, ho, hstamp⟩ := mem_stampsFor.mp h
  obtain ⟨part, hpart, ho⟩ := List.mem_flatMap.mp ho
  exact ⟨part, hpart, mem_stampsFor.mpr ⟨o, ho, hstamp⟩⟩

/-- A timestamp for the key that is logged and not yet stored. -/
def Pending (l : Lite3) (m : Machine) (key : Bytes) (ts : Timestamp) : Prop :=
  (∃ s, ts ∈ m.queued l key s) ∨
    ∃ t work, m.phase t = .logged work ∧ ts ∈ stampsFor l key work.ops

/-- The stored timestamps only go up, and only to one that was pending. -/
structure Advance (l : Lite3) (m : Machine) (stamp stamp' : Bytes → Timestamp) : Prop where
  le : ∀ key, PlainKey key → stamp key ≤ stamp' key
  pending : ∀ key, PlainKey key → stamp' key = stamp key ∨ m.Pending l key (stamp' key)

private theorem Advance.refl (l : Lite3) (m : Machine) (stamp : Bytes → Timestamp) :
    m.Advance l stamp stamp :=
  ⟨fun _ _ => le_refl _, fun _ _ => Or.inl rfl⟩

/-- The stored timestamps after an operation. -/
def nextStamp (l : Lite3) (o : ShardOp) (stamp : Bytes → Timestamp) (key : Bytes) : Timestamp :=
  (o.stampFor l key).getD (stamp key)

private theorem Advance.next {l : Lite3} {m : Machine} {stamp : Bytes → Timestamp} {o : ShardOp}
    (h : ∀ key, PlainKey key → ∀ ts, o.stampFor l key = some ts →
      stamp key < ts ∧ m.Pending l key ts) : m.Advance l stamp (nextStamp l o stamp) := by
  constructor
  · intro key hkey
    unfold nextStamp
    cases hstamp : o.stampFor l key with
    | none => exact le_refl _
    | some ts => exact (h key hkey ts hstamp).1.le
  · intro key hkey
    unfold nextStamp
    cases hstamp : o.stampFor l key with
    | none => exact Or.inl rfl
    | some ts => exact Or.inr (h key hkey ts hstamp).2

/-- If operations on the sidecar of one of the keys are queued, then by the thread of the call and on
the queue where that of the call is going. -/
def JoinsQueue (x : External) (m : Machine) (t : Nat) (call : Call) : Prop :=
  ∀ key ∈ call.keys x.lite3, ∀ s, ∀ task ∈ m.queues s, ∀ o ∈ task.ops, o.key = metaKey key →
    call.destination x key = some s ∧ task.producer = t

private theorem JoinsQueue.part_eq {x : External} {m : Machine} {t : Nat} {call : Call}
    {clock : HybridLogicalClock} {work : Work} (hjoins : JoinsQueue x m t call)
    (hplan : PlanStamps x m.engine call clock work)
    {key : Bytes} (hkey : PlainKey key) {part : Option (Fin 8) × List ShardOp}
    (hpart : part ∈ work.parts) (hne : stampsFor x.lite3 key part.2 ≠ []) {s : Fin 8} {task : Task}
    (htask : task ∈ m.queues s) (hstamps : stampsFor x.lite3 key task.ops ≠ []) :
    part.1 = some s ∧ task.producer = t := by
  obtain ⟨hmem, hplace⟩ := hplan.placed key hkey part hpart hne
  obtain ⟨o, ho, hokey⟩ := stampsFor_ne_nil hstamps
  rw [hplace]
  exact hjoins key hmem s task htask o ho hokey

namespace StampInv

variable {x : External} {u : Nat → Nat → UInt8} {stamp : Bytes → Timestamp} {m m' : Machine}

private theorem frame (h : StampInv x stamp m) (howned : m'.Owned) (hstore : m'.store = m.store)
    (hclock : m.clock.current ≤ m'.clock.current)
    (htasks : ∀ s, ∀ task ∈ m'.queues s, ∃ before ∈ m.queues s, task.ops = before.ops ∧
      task.producer = before.producer)
    (hqueued : ∀ key, PlainKey key → ∀ s, m'.queued x.lite3 key s = m.queued x.lite3 key s)
    (hidle : ∀ t, m'.phase t ≠ .idle → m.phase t ≠ .idle)
    (hparts : ∀ t, (m'.phase t).parts.Sublist (m.phase t).parts) : StampInv x stamp m' := by
  have hops (t : Nat) : (m'.phase t).ops.Sublist (m.phase t).ops := (hparts t).flatMap _
  constructor
  · exact howned
  · intro t t' ht ht'
    exact h.solo t t' (hidle t ht) (hidle t' ht')
  · rw [hstore]
    exact h.stored
  · intro s o ho
    obtain ⟨task, htask, ho⟩ := List.mem_flatMap.mp ho
    obtain ⟨before, hbefore, hsame, -⟩ := htasks s task htask
    exact h.queueProper s o (List.mem_flatMap.mpr ⟨before, hbefore, hsame ▸ ho⟩)
  · intro t o ho
    exact h.callProper t o ((hops t).subset ho)
  · intro key hkey
    obtain ⟨p, thread, hqueue, hcall⟩ := h.place key hkey
    refine ⟨p, thread, ?_, ?_⟩
    · intro s task htask
      obtain ⟨before, hbefore, hsame, hproducer⟩ := htasks s task htask
      rw [hsame, hproducer]
      exact hqueue s before hbefore
    · intro t part hpart
      exact hcall t part ((hparts t).subset hpart)
  · intro key hkey s t
    rw [hqueued key hkey]
    apply List.Pairwise.sublist _ (h.rising key hkey s t)
    exact (((hops t).filterMap _).append_left _).cons_cons _
  · intro key hkey s ts hts
    rw [hqueued key hkey] at hts
    exact (h.queueBounded key hkey s ts hts).trans hclock
  · intro key hkey t part hpart hplace ts hts
    exact (h.callBounded key hkey t part ((hparts t).subset hpart) hplace ts hts).trans hclock

private theorem lt_planned (h : StampInv x stamp m) (hx : x.Lawful) {t : Nat} {call : Call}
    {clock : HybridLogicalClock} {work : Work} (hplan : PlanStamps x m.engine call clock work)
    (hjoins : JoinsQueue x m t call)
    (houtrun : ∀ key ∈ call.keys x.lite3, ∀ old ∈ m.store.stampOf x key,
      Outrun m.clock call.readings old)
    {key : Bytes} (hkey : PlainKey key) {s : Fin 8} {a b : Timestamp}
    (ha : a ∈ stamp key :: m.queued x.lite3 key s) (hb : b ∈ stampsFor x.lite3 key work.ops) :
    a < b := by
  have hb' := hb
  rw [Work.ops_eq] at hb'
  obtain ⟨part, hpart, hbpart⟩ := mem_phase_ops (.logged work) hb'
  have hne := List.ne_nil_of_mem hbpart
  rcases List.mem_cons.mp ha with rfl | ha
  · have hold : m.engine.store.stampOf x key = some (stamp key) := (h.stored key hkey).stampOf hx
    have hmem := (hplan.placed key hkey part hpart hne).1
    exact hplan.above key hkey _ hold (houtrun key hmem _ hold) b hb
  · -- What is queued was issued by the clock, and so is what joins it.
    have hsome : part.1 ≠ none := by
      obtain ⟨task, htask, hstamps⟩ := queued_ne_nil (List.ne_nil_of_mem ha)
      rw [(hjoins.part_eq hplan hkey hpart hne htask hstamps).1]
      simp
    exact lt_of_le_of_lt (h.queueBounded key hkey s a ha)
      (hplan.fresh key hkey part hpart hsome b hbpart).1

private theorem start (h : StampInv x stamp m) (hx : x.Lawful) {t : Nat} {call : Call}
    {clock : HybridLogicalClock} {plan : Plan}
    (hscope : Event.InScope x.lite3 m (.start t call)) (hordered : Event.Ordered x u m (.start t call))
    (hprep : m.engine.prepare x u call = some (clock, .accepted plan))
    (hstep : m.step x u (.start t call) = some ({ m with clock := clock }.setPhase t (.planned plan))) :
    StampInv x stamp ({ m with clock := clock }.setPhase t (.planned plan)) := by
  obtain ⟨hidle, hcall, hplain⟩ := hscope
  obtain ⟨hsorted, -, hkeys⟩ := hordered
  have hplan : PlanStamps x m.engine call clock plan.work := by
    apply prepare_stamps hx hcall _ hsorted hprep
    intro key hkey
    exact ⟨hplain key hkey, (hkeys key hkey).1⟩
  have hclock : m.clock.current ≤ clock.current := prepare_clock hsorted hprep
  have howned := h.owned.step hstep
  generalize hm' : ({ m with clock := clock }.setPhase t (.planned plan) : Machine) = m' at howned ⊢
  have hqueued (key : Bytes) (s : Fin 8) : m'.queued x.lite3 key s = m.queued x.lite3 key s := by
    rw [← hm']
    rfl
  have hself : m'.phase t = .planned plan := by simp [← hm', setPhase]
  have hother {t' : Nat} (ht' : t' ≠ t) : m'.phase t' = .idle := by
    simp [← hm', setPhase, ht', hidle]
  have hnew : m'.clock = clock := by rw [← hm']; rfl
  have hqueues : m'.queues = m.queues := by rw [← hm']; rfl
  have hjoins : JoinsQueue x m t call := fun key hkey => (hkeys key hkey).2.2
  constructor
  · exact howned
  · intro t₁ t₂ ht₁ ht₂
    have heq {t' : Nat} (ht' : m'.phase t' ≠ .idle) : t' = t := by
      by_contra hne
      exact ht' (hother hne)
    rw [heq ht₁, heq ht₂]
  · rw [← hm']
    exact h.stored
  · rw [← hm']
    exact h.queueProper
  · intro t' o ho
    by_cases heq : t' = t
    · rw [heq, hself, Phase.ops, Phase.parts, ← Work.ops_eq] at ho
      exact hplan.proper o ho
    · rw [hother heq] at ho
      cases ho
  · intro key hkey
    by_cases hstamps : ∃ part ∈ plan.work.parts, stampsFor x.lite3 key part.2 ≠ []
    · obtain ⟨part, hpart, hne⟩ := hstamps
      refine ⟨part.1, t, ?_, ?_⟩
      · intro s task htask
        rw [hqueues] at htask
        exact hjoins.part_eq hplan hkey hpart hne htask
      · intro t' part' hpart' hne'
        by_cases heq : t' = t
        · rw [heq, hself] at hpart'
          refine ⟨?_, heq⟩
          rw [(hplan.placed key hkey _ hpart' hne').2, (hplan.placed key hkey _ hpart hne).2]
        · rw [hother heq] at hpart'
          cases hpart'
    · obtain ⟨p, thread, hqueue, -⟩ := h.place key hkey
      refine ⟨p, thread, ?_, ?_⟩
      · rw [hqueues]
        exact hqueue
      · intro t' part hpart hne
        by_cases heq : t' = t
        · rw [heq, hself] at hpart
          exact absurd ⟨part, hpart, hne⟩ hstamps
        · rw [hother heq] at hpart
          cases hpart
  · intro key hkey s t'
    have hbefore := h.rising key hkey s t
    rw [hidle t] at hbefore
    rw [hqueued]
    by_cases heq : t' = t
    · rw [heq, hself, Phase.ops, Phase.parts, ← Work.ops_eq]
      rw [← List.cons_append, List.pairwise_append]
      refine ⟨by simpa [Phase.ops, Phase.parts, stampsFor] using hbefore, hplan.rising key hkey, ?_⟩
      intro a ha b hb
      exact h.lt_planned hx hplan hjoins (fun key hkey => (hkeys key hkey).2.1) hkey ha hb
    · rw [hother heq]
      exact hbefore
  · intro key hkey s ts hts
    rw [hqueued] at hts
    rw [hnew]
    exact (h.queueBounded key hkey s ts hts).trans hclock
  · intro key hkey t' part hpart hplace ts hts
    by_cases heq : t' = t
    · rw [heq, hself] at hpart
      rw [hnew]
      exact (hplan.fresh key hkey part hpart hplace ts hts).2
    · rw [hother heq] at hpart
      cases hpart

private theorem refuse (h : StampInv x stamp m) {t : Nat} {call : Call} {clock : HybridLogicalClock}
    {result : CallResult} (hordered : Event.Ordered x u m (.refuse t call))
    (hprep : m.engine.prepare x u call = some (clock, .refused result))
    (hstep : m.step x u (.refuse t call) = some { m with clock := clock }) :
    StampInv x stamp { m with clock := clock } := by
  apply h.frame (h.owned.step hstep) rfl
  · exact prepare_clock hordered hprep
  · exact fun s task htask => ⟨task, htask, rfl, rfl⟩
  · exact fun key _ s => rfl
  · intro t' ht'
    exact ht'
  · intro t'
    exact List.Sublist.refl _

private theorem setPhase (h : StampInv x stamp m) {t : Nat} (phase : Phase)
    (hphase : m.phase t ≠ .idle)
    (hparts : phase.parts.Sublist (m.phase t).parts) (hstore : m'.store = m.store)
    (hclock : m'.clock = m.clock) (hqueues : m'.queues = m.queues)
    (hphases : m'.phase = Function.update m.phase t phase) (howned : m'.Owned) :
    StampInv x stamp m' := by
  apply h.frame howned hstore
  · rw [hclock]
  · rw [hqueues]
    exact fun s task htask => ⟨task, htask, rfl, rfl⟩
  · intro key _ s
    rw [queued, queuedOps, hqueues, queued, queuedOps]
  · intro t' ht'
    by_cases heq : t' = t
    · rw [heq]
      exact hphase
    · rwa [hphases, Function.update_of_ne heq] at ht'
  · intro t'
    by_cases heq : t' = t
    · rw [heq, hphases, Function.update_self]
      exact hparts
    · rw [hphases, Function.update_of_ne heq]

private theorem append (h : StampInv x stamp m) {t : Nat} {plan : Plan}
    (hphase : m.phase t = .planned plan)
    (hstep : m.step x u (.append t) =
      some ({ m with wal := m.wal.appendBatch plan.logged }.setPhase t (.logged plan.work))) :
    StampInv x stamp
      ({ m with wal := m.wal.appendBatch plan.logged }.setPhase t (.logged plan.work)) := by
  apply h.setPhase (t := t) (.logged plan.work)
  · simp [hphase]
  · rw [hphase]
    exact List.Sublist.refl _
  · rfl
  · rfl
  · rfl
  · rfl
  · exact h.owned.step hstep

private theorem take (h : StampInv x stamp m) {s : Fin 8} {task : Task} {front back : List Task}
    (hqueue : m.queues s = front ++ task :: back)
    (hfront : ∀ other ∈ front, other.producer ≠ task.producer)
    (howned : (m.setQueue s (task.goOn task.ops :: (front ++ back))).Owned) :
    StampInv x stamp (m.setQueue s (task.goOn task.ops :: (front ++ back))) := by
  apply h.frame howned
  · rfl
  · exact le_refl _
  · intro s' t ht
    obtain ⟨before, hbefore, hops, hproducer, -⟩ := mem_take hqueue ht
    exact ⟨before, hbefore, hops, hproducer⟩
  · intro key hkey s'
    by_cases hs : s' = s
    · subst hs
      obtain ⟨p, thread, hplace, -⟩ := h.place key hkey
      replace hplace := hplace s'
      rw [hqueue] at hplace
      have hnone : stampsFor x.lite3 key task.ops ≠ [] →
          stampsFor x.lite3 key (front.flatMap Task.ops) = [] := by
        intro hne
        by_contra hstamps
        obtain ⟨ts, hts⟩ := List.exists_mem_of_ne_nil _ hstamps
        obtain ⟨o, ho, hstamp⟩ := mem_stampsFor.mp hts
        obtain ⟨other, hother, ho⟩ := List.mem_flatMap.mp ho
        apply hfront other hother
        rw [(hplace task (by simp) hne).2, (hplace other (by simp [hother]) ?_).2]
        exact List.ne_nil_of_mem (mem_stampsFor.mpr ⟨o, ho, hstamp⟩)
      simp only [queued, queuedOps, setQueue, Function.update_self, hqueue, List.flatMap_cons,
        List.flatMap_append, stampsFor_append, Task.goOn_ops]
      by_cases hne : stampsFor x.lite3 key task.ops = []
      · simp [hne]
      · simp [hnone hne]
    · simp [queued, queuedOps, setQueue, hs]
  · exact fun t ht => ht
  · exact fun t => List.Sublist.refl _

private theorem enqueue (h : StampInv x stamp m) {t : Nat} {s : Fin 8} {owner : Option Nat}
    {task : List ShardOp} {phase : Phase}
    (hphase : m.phase t ≠ .idle) (hparts : (m.phase t).parts = (some s, task) :: phase.parts)
    (howned : ((m.enqueue s ⟨t, owner, task, false⟩).setPhase t phase).Owned) :
    StampInv x stamp ((m.enqueue s ⟨t, owner, task, false⟩).setPhase t phase) := by
  generalize hm' : ((m.enqueue s ⟨t, owner, task, false⟩).setPhase t phase) = m' at howned ⊢
  have hself : m'.phase t = phase := by simp [← hm', Machine.setPhase]
  have hother {t' : Nat} (ht' : t' ≠ t) : m'.phase t' = m.phase t' := by
    simp [← hm', Machine.setPhase, Machine.enqueue, ht']
  have hops : (m.phase t).ops = task ++ phase.ops := by
    rw [Phase.ops, hparts]
    rfl
  have hqueue (s' : Fin 8) :
      m'.queuedOps s' = m.queuedOps s' ++ if s' = s then task else [] := by
    by_cases hs : s' = s
    · subst hs
      simp [← hm', queuedOps, Machine.setPhase, Machine.enqueue]
    · simp [← hm', queuedOps, Machine.setPhase, Machine.enqueue, hs]
  have hqueued (key : Bytes) (s' : Fin 8) : m'.queued x.lite3 key s' =
      m.queued x.lite3 key s' ++ if s' = s then stampsFor x.lite3 key task else [] := by
    rw [queued, hqueue, stampsFor_append]
    split <;> rfl
  have hclock : m'.clock = m.clock := by rw [← hm']; rfl
  have hfirst : (some s, task) ∈ (m.phase t).parts := by simp [hparts]
  have hrest {t' : Nat} {part : Option (Fin 8) × List ShardOp} (hpart : part ∈ (m'.phase t').parts) :
      part ∈ (m.phase t').parts := by
    by_cases heq : t' = t
    · rw [heq, hself] at hpart
      rw [heq, hparts]
      exact List.mem_cons_of_mem _ hpart
    · rwa [hother heq] at hpart
  constructor
  · exact howned
  · intro t₁ t₂ ht₁ ht₂
    have hbefore {t' : Nat} (ht' : m'.phase t' ≠ .idle) : m.phase t' ≠ .idle := by
      by_cases heq : t' = t
      · rw [heq]
        exact hphase
      · rwa [hother heq] at ht'
    exact h.solo t₁ t₂ (hbefore ht₁) (hbefore ht₂)
  · rw [← hm']
    exact h.stored
  · intro s' o ho
    rw [hqueue, List.mem_append] at ho
    rcases ho with ho | ho
    · exact h.queueProper s' o ho
    · split at ho
      · exact h.callProper t o (by rw [hops]; exact List.mem_append_left _ ho)
      · cases ho
  · intro t' o ho
    obtain ⟨part, hpart, ho⟩ := List.mem_flatMap.mp ho
    exact h.callProper t' o (List.mem_flatMap.mpr ⟨part, hrest hpart, ho⟩)
  · intro key hkey
    obtain ⟨p, thread, hq, hcall⟩ := h.place key hkey
    refine ⟨p, thread, ?_, fun t' part hpart => hcall t' part (hrest hpart)⟩
    intro s' task' htask' hne
    by_cases hs : s' = s
    · subst hs
      simp only [← hm', Machine.setPhase, Machine.enqueue, Function.update_self] at htask'
      rcases List.mem_append.mp htask' with hold | hnew
      · exact hq s' task' hold hne
      · rw [List.mem_singleton.mp hnew] at hne ⊢
        obtain ⟨hp, ht⟩ := hcall t _ hfirst hne
        exact ⟨hp.symm, ht⟩
    · simp only [← hm', Machine.setPhase, Machine.enqueue, Function.update_of_ne hs] at htask'
      exact hq s' task' htask' hne
  · intro key hkey s' t'
    have hbefore := h.rising key hkey s' t
    rw [hops, stampsFor_append, ← List.append_assoc] at hbefore
    have hlast : (m'.phase t').ops.Sublist phase.ops := by
      by_cases heq : t' = t
      · rw [heq, hself]
      · -- Nobody else has a call under way.
        have hidle : m.phase t' = .idle := by
          by_contra hne
          exact heq (h.solo t' t hne hphase)
        rw [hother heq, hidle]
        exact List.nil_sublist _
    rw [hqueued]
    apply List.Pairwise.sublist _ hbefore
    apply List.Sublist.cons_cons
    apply List.Sublist.append _ (hlast.filterMap _)
    split
    · exact List.Sublist.refl _
    · rw [List.append_nil]
      exact List.sublist_append_left _ _
  · intro key hkey s' ts hts
    rw [hqueued, List.mem_append] at hts
    rw [hclock]
    rcases hts with hts | hts
    · exact h.queueBounded key hkey s' ts hts
    · split at hts
      · exact h.callBounded key hkey t _ hfirst (by simp) ts hts
      · cases hts
  · intro key hkey t' part hpart hplace ts hts
    rw [hclock]
    exact h.callBounded key hkey t' part (hrest hpart) hplace ts hts

private theorem applied (h : StampInv x stamp m) (hl : x.lite3.Lawful) {o : ShardOp}
    (ho : o.Proper x.lite3) (happly : m.store.apply x o = some m'.store) (howned : m'.Owned)
    (hclock : m'.clock = m.clock) (hidle : ∀ t, m'.phase t ≠ .idle → m.phase t ≠ .idle)
    (hqueues : ∀ s, (m'.queuedOps s).Sublist (m.queuedOps s))
    (htasks : ∀ s, ∀ task ∈ m'.queues s, ∃ before ∈ m.queues s, task.ops.Sublist before.ops ∧
      task.producer = before.producer)
    (hparts : ∀ t, ∀ part ∈ (m'.phase t).parts, ∃ before ∈ (m.phase t).parts, part.1 = before.1 ∧
      part.2.Sublist before.2)
    (hops : ∀ t, (m'.phase t).ops.Sublist (m.phase t).ops)
    (hfront : ∀ key, PlainKey key → ∀ ts, o.stampFor x.lite3 key = some ts → ∀ s t,
      (ts :: (m'.queued x.lite3 key s ++ stampsFor x.lite3 key (m'.phase t).ops)).Pairwise (· < ·)) :
    StampInv x (nextStamp x.lite3 o stamp) m' := by
  have hsub {ops ops' : List ShardOp} (hsub : ops.Sublist ops') (key : Bytes) :
      (stampsFor x.lite3 key ops).Sublist (stampsFor x.lite3 key ops') := hsub.filterMap _
  have hnonempty {ops ops' : List ShardOp} (hops : ops.Sublist ops') {key : Bytes}
      (hne : stampsFor x.lite3 key ops ≠ []) : stampsFor x.lite3 key ops' ≠ [] := by
    intro hnil
    have hle := hsub hops key
    rw [hnil, List.sublist_nil] at hle
    exact hne hle
  constructor
  · exact howned
  · intro t t' ht ht'
    exact h.solo t t' (hidle t ht) (hidle t' ht')
  · intro key hkey
    exact (h.stored key hkey).apply hl ho happly hkey
  · intro s p hp
    exact h.queueProper s p ((hqueues s).subset hp)
  · intro t p hp
    exact h.callProper t p ((hops t).subset hp)
  · intro key hkey
    obtain ⟨p, thread, hq, hcall⟩ := h.place key hkey
    refine ⟨p, thread, ?_, ?_⟩
    · intro s task htask hne
      obtain ⟨before, hbefore, hle, hproducer⟩ := htasks s task htask
      rw [hproducer]
      exact hq s before hbefore (hnonempty hle hne)
    intro t part hpart hne
    obtain ⟨before, hbefore, hplace, hle⟩ := hparts t part hpart
    rw [hplace]
    exact hcall t before hbefore (hnonempty hle hne)
  · intro key hkey s t
    unfold nextStamp
    cases hstamp : o.stampFor x.lite3 key with
    | some ts => exact hfront key hkey ts hstamp s t
    | none =>
        apply List.Pairwise.sublist _ (h.rising key hkey s t)
        exact (List.Sublist.append (hsub (hqueues s) key) (hsub (hops t) key)).cons_cons _
  · intro key hkey s ts hts
    rw [hclock]
    exact h.queueBounded key hkey s ts ((hsub (hqueues s) key).subset hts)
  · intro key hkey t part hpart hplace ts hts
    obtain ⟨before, hbefore, hsame, hle⟩ := hparts t part hpart
    rw [hclock]
    exact h.callBounded key hkey t before hbefore (hsame ▸ hplace) ts ((hsub hle key).subset hts)

private theorem direct (h : StampInv x stamp m) (hl : x.lite3.Lawful) {t : Nat} {o : ShardOp}
    {ops : List ShardOp} {st : Store} (hphase : m.phase t = .logged (.direct (o :: ops)))
    (happly : m.store.apply x o = some st)
    (howned : ({ m with store := st }.setPhase t (.logged (.direct ops)) : Machine).Owned) :
    StampInv x (nextStamp x.lite3 o stamp)
        ({ m with store := st }.setPhase t (.logged (.direct ops))) ∧
      m.Advance x.lite3 stamp (nextStamp x.lite3 o stamp) := by
  have hops : (m.phase t).ops = o :: ops := by simp [hphase, Phase.ops, Phase.parts, Work.parts]
  have ho : o.Proper x.lite3 := h.callProper t o (by simp [hops])
  have hbefore {key : Bytes} (hkey : PlainKey key) {ts : Timestamp}
      (hstamp : o.stampFor x.lite3 key = some ts) (s : Fin 8) : m.queued x.lite3 key s = [] ∧
      (stamp key :: ts :: stampsFor x.lite3 key ops).Pairwise (· < ·) := by
    have hcons : stampsFor x.lite3 key (o :: ops) = ts :: stampsFor x.lite3 key ops := by
      simp [stampsFor, hstamp]
    have hqueued : m.queued x.lite3 key s = [] := by
      obtain ⟨p, thread, hq, hcall⟩ := h.place key hkey
      by_contra hne
      obtain ⟨task, htask, hstamps⟩ := queued_ne_nil hne
      have hplace := hcall t (none, o :: ops) (by simp [hphase, Phase.parts, Work.parts])
        (by simp [hcons])
      rw [← hplace.1] at hq
      cases (hq s task htask hstamps).1
    have hrising := h.rising key hkey s t
    rw [hqueued, hops, hcons, List.nil_append] at hrising
    exact ⟨hqueued, hrising⟩
  constructor
  · generalize hm' : ({ m with store := st }.setPhase t (.logged (.direct ops)) : Machine) = m'
      at howned ⊢
    have hself : m'.phase t = .logged (.direct ops) := by simp [← hm', Machine.setPhase]
    have hother {t' : Nat} (ht' : t' ≠ t) : m'.phase t' = m.phase t' := by
      simp [← hm', Machine.setPhase, ht']
    have hops' : (m'.phase t).ops = ops := by simp [hself, Phase.ops, Phase.parts, Work.parts]
    have hqueues (s : Fin 8) : m'.queuedOps s = m.queuedOps s := by rw [← hm']; rfl
    apply h.applied hl ho _ howned
    · rw [← hm']
      rfl
    · intro t' ht'
      by_cases heq : t' = t
      · simp [heq, hphase]
      · rwa [hother heq] at ht'
    · intro s
      rw [hqueues]
    · rw [← hm']
      exact fun s task htask => ⟨task, htask, List.Sublist.refl _, rfl⟩
    · intro t' part hpart
      by_cases heq : t' = t
      · subst heq
        rw [hself] at hpart
        obtain rfl : part = (none, ops) := by simpa [Phase.parts, Work.parts] using hpart
        exact ⟨(none, o :: ops), by simp [hphase, Phase.parts, Work.parts], rfl,
          List.sublist_cons_self _ _⟩
      · rw [hother heq] at hpart
        exact ⟨part, hpart, rfl, List.Sublist.refl _⟩
    · intro t'
      by_cases heq : t' = t
      · rw [heq, hops, hops']
        exact List.sublist_cons_self _ _
      · rw [hother heq]
    · intro key hkey ts hstamp s t'
      obtain ⟨hqueued, hrising⟩ := hbefore hkey hstamp s
      rw [queued, hqueues, ← queued, hqueued, List.nil_append]
      by_cases heq : t' = t
      · rw [heq, hops']
        exact (List.pairwise_cons.mp hrising).2
      · have hidle : m.phase t' = .idle := by
          by_contra hne
          exact heq (h.solo t' t hne (by simp [hphase]))
        rw [hother heq, hidle]
        simp [Phase.ops, Phase.parts, stampsFor]
    · rw [happly, ← hm']
      rfl
  · apply Advance.next
    intro key hkey ts hstamp
    refine ⟨List.rel_of_pairwise_cons (hbefore hkey hstamp 0).2 List.mem_cons_self, Or.inr ?_⟩
    exact ⟨t, _, hphase, mem_stampsFor.mpr ⟨o, List.mem_cons_self, hstamp⟩⟩

private theorem shardOp (h : StampInv x stamp m) (hl : x.lite3.Lawful) {s : Fin 8} {task : Task}
    {o : ShardOp} {ops : List ShardOp} {rest : List Task} {st : Store}
    (hqueue : m.queues s = task :: rest) (htask : task.ops = o :: ops)
    (happly : m.store.apply x o = some st)
    (howned : ({ m with store := st }.setQueue s (task.goOn ops :: rest) : Machine).Owned) :
    StampInv x (nextStamp x.lite3 o stamp)
        ({ m with store := st }.setQueue s (task.goOn ops :: rest)) ∧
      m.Advance x.lite3 stamp (nextStamp x.lite3 o stamp) := by
  have hhere : m.queuedOps s = o :: (ops ++ rest.flatMap Task.ops) := by
    simp [queuedOps, hqueue, htask]
  have ho : o.Proper x.lite3 := h.queueProper s o (by simp [hhere])
  have hbefore {key : Bytes} (hkey : PlainKey key) {ts : Timestamp}
      (hstamp : o.stampFor x.lite3 key = some ts) (t : Nat) :
      (∀ s', s' ≠ s → m.queued x.lite3 key s' = []) ∧
        (stamp key :: ts :: (stampsFor x.lite3 key (ops ++ rest.flatMap Task.ops) ++
          stampsFor x.lite3 key (m.phase t).ops)).Pairwise (· < ·) := by
    have hcons : m.queued x.lite3 key s =
        ts :: stampsFor x.lite3 key (ops ++ rest.flatMap Task.ops) := by
      simp [queued, hhere, stampsFor, hstamp]
    constructor
    · intro s' hs'
      obtain ⟨p, thread, hq, -⟩ := h.place key hkey
      by_contra hne
      obtain ⟨other, hother, hstamps⟩ := queued_ne_nil hne
      have hp := (hq s task (by simp [hqueue]) (by simp [htask, stampsFor, hstamp])).1
      rw [(hq s' other hother hstamps).1] at hp
      exact hs' (Option.some.inj hp)
    · have hrising := h.rising key hkey s t
      rwa [hcons] at hrising
  constructor
  · generalize hm' : ({ m with store := st }.setQueue s (task.goOn ops :: rest) : Machine) = m'
      at howned ⊢
    have hphase : m'.phase = m.phase := by rw [← hm']; rfl
    have hself : m'.queuedOps s = ops ++ rest.flatMap Task.ops := by
      simp [← hm', queuedOps, setQueue]
    have hother {s' : Fin 8} (hs' : s' ≠ s) : m'.queuedOps s' = m.queuedOps s' := by
      simp [← hm', queuedOps, setQueue, hs']
    apply h.applied hl ho _ howned
    · rw [← hm']
      rfl
    · intro t ht
      rwa [hphase] at ht
    · intro s'
      by_cases hs : s' = s
      · rw [hs, hself, hhere]
        exact List.sublist_cons_self _ _
      · rw [hother hs]
    · intro s' t ht
      by_cases hs : s' = s
      · subst hs
        rw [hqueue]
        simp only [← hm', setQueue, Function.update_self] at ht
        rcases List.mem_cons.mp ht with rfl | ht
        · exact ⟨task, List.mem_cons_self, by simp [htask], rfl⟩
        · exact ⟨t, List.mem_cons_of_mem _ ht, List.Sublist.refl _, rfl⟩
      · simp only [← hm', setQueue, Function.update_of_ne hs] at ht
        exact ⟨t, ht, List.Sublist.refl _, rfl⟩
    · intro t part hpart
      rw [hphase] at hpart
      exact ⟨part, hpart, rfl, List.Sublist.refl _⟩
    · intro t
      rw [hphase]
    · intro key hkey ts hstamp s' t
      obtain ⟨hothers, hrising⟩ := hbefore hkey hstamp t
      have htail := (List.pairwise_cons.mp hrising).2
      rw [hphase]
      by_cases hs : s' = s
      · rw [hs, queued, hself]
        exact htail
      · rw [queued, hother hs, ← queued, hothers s' hs, List.nil_append]
        apply List.Pairwise.sublist _ htail
        exact (List.sublist_append_right _ _).cons_cons _
    · rw [happly, ← hm']
      rfl
  · apply Advance.next
    intro key hkey ts hstamp
    refine ⟨List.rel_of_pairwise_cons (hbefore hkey hstamp 0).2 List.mem_cons_self, Or.inl ⟨s, ?_⟩⟩
    exact mem_stampsFor.mpr ⟨o, by simp [hhere], hstamp⟩

private theorem front_applies (h : StampInv x stamp m) (hl : x.lite3.Lawful) {s : Fin 8}
    {task : Task} {o : ShardOp} {ops : List ShardOp} {rest : List Task}
    (hqueue : m.queues s = task :: rest) (htask : task.ops = o :: ops) :
    o.Proper x.lite3 ∧ ∃ st, m.store.apply x o = some st := by
  have ho : o.Proper x.lite3 := h.queueProper s o (by simp [queuedOps, hqueue, htask])
  obtain ⟨content, hleaves⟩ := ho.leaves hl
  obtain ⟨st, happly, -⟩ := m.store.apply_leaves hleaves
  exact ⟨ho, st, happly⟩

private theorem shard (h : StampInv x stamp m) (hl : x.lite3.Lawful) {s : Fin 8} {task : Task}
    {rest : List Task} (hqueue : m.queues s = task :: rest)
    (hstep : m.step x u (.shard s) = some (m.shardStep x s task rest)) :
    ∃ stamp', StampInv x stamp' (m.shardStep x s task rest) ∧ m.Advance x.lite3 stamp stamp' := by
  have howned := h.owned.step hstep
  have hphase := h.owned.shardStep_phase (x := x) hqueue
  cases hops : task.ops with
  | nil =>
      refine ⟨stamp, ?_, Advance.refl _ _ _⟩
      have hqueues : (m.shardStep x s task rest).queues = Function.update m.queues s rest := by
        simp [shardStep, hops, setQueue]
      apply h.frame howned
      · simp [shardStep, hops, setQueue]
      · simp [shardStep, hops, setQueue]
      · intro s' t ht
        rw [hqueues] at ht
        by_cases hs : s' = s
        · subst hs
          rw [Function.update_self] at ht
          exact ⟨t, by simp [hqueue, ht], rfl, rfl⟩
        · rw [Function.update_of_ne hs] at ht
          exact ⟨t, ht, rfl, rfl⟩
      · intro key _ s'
        rw [queued, queued, queuedOps, queuedOps, hqueues]
        by_cases hs : s' = s
        · subst hs
          simp [hqueue, hops]
        · rw [Function.update_of_ne hs]
      · intro t ht
        rcases hphase t with heq | ⟨hbefore, -⟩
        · rwa [heq] at ht
        · simp [hbefore]
      · intro t
        rcases hphase t with heq | ⟨-, hafter⟩
        · rw [heq]
        · rw [hafter]
          exact List.nil_sublist _
  | cons o ops =>
      obtain ⟨-, st, happly⟩ := h.front_applies hl hqueue hops
      rw [shardStep_applies hops happly] at howned ⊢
      exact ⟨_, h.shardOp hl hqueue hops happly howned⟩

private theorem work (h : StampInv x stamp m) (hl : x.lite3.Lawful) {t : Nat} {work : Work}
    (hphase : m.phase t = .logged work)
    (hstep : m.step x u (.work t) = some (m.workStep x t work)) :
    ∃ stamp', StampInv x stamp' (m.workStep x t work) ∧ m.Advance x.lite3 stamp stamp' := by
  have howned := h.owned.step hstep
  have hbusy : m.phase t ≠ .idle := by simp [hphase]
  have hdone (hwork : m.workStep x t work = m.setPhase t .idle) :
      StampInv x stamp (m.workStep x t work) := by
    rw [hwork] at howned ⊢
    exact h.setPhase .idle hbusy (List.nil_sublist _) rfl rfl rfl rfl howned
  match work with
  | .wait s task =>
      refine ⟨stamp, ?_, Advance.refl _ _ _⟩
      exact h.enqueue hbusy (by rw [hphase]; rfl) howned
  | .async [] => exact ⟨stamp, hdone rfl, Advance.refl _ _ _⟩
  | .async ((s, task) :: tasks) =>
      refine ⟨stamp, ?_, Advance.refl _ _ _⟩
      exact h.enqueue hbusy (by rw [hphase]; rfl) howned
  | .direct [] => exact ⟨stamp, hdone rfl, Advance.refl _ _ _⟩
  | .direct (o :: ops) =>
      have ho : o.Proper x.lite3 :=
        h.callProper t o (by simp [hphase, Phase.ops, Phase.parts, Work.parts])
      obtain ⟨content, hleaves⟩ := ho.leaves hl
      obtain ⟨st, happly, -⟩ := m.store.apply_leaves hleaves
      have hm' : m.workStep x t (.direct (o :: ops)) =
          { m with store := st }.setPhase t (.logged (.direct ops)) := by
        simp [workStep, happly]
      rw [hm'] at howned ⊢
      exact ⟨_, h.direct hl hphase happly howned⟩

theorem ofEngine {e : Engine} (hqueues : ∀ s, e.queues s = [])
    (hstored : ∀ key, PlainKey key → StampAt x e.store key (stamp key)) :
    StampInv x stamp (.ofEngine e) := by
  have hops (s : Fin 8) : (Machine.ofEngine e).queuedOps s = [] := by
    simp [queuedOps, Machine.ofEngine, hqueues]
  have hphase (t : Nat) : (Machine.ofEngine e).phase t = .idle := rfl
  constructor
  · exact ofEngine_owned e
  · intro t t' ht
    exact absurd rfl ht
  · exact hstored
  · simp [hops]
  · simp [hphase, Phase.ops, Phase.parts]
  · intro key _
    refine ⟨none, 0, fun s task htask => ?_, by simp [hphase, Phase.parts]⟩
    simp [Machine.ofEngine, hqueues] at htask
  · simp [queued, hops, hphase, Phase.parts, Phase.ops, stampsFor]
  · simp [queued, hops, stampsFor]
  · simp [hphase, Phase.parts]

end StampInv

section

variable {x : External} {u : Nat → Nat → UInt8} {stamp : Bytes → Timestamp} {m m' : Machine}
  {key : Bytes} {ts : Timestamp}

private theorem pending_workStep {l : Lite3} {t : Nat} {work : Work}
    (hphase : m.phase t = .logged work)
    (h : (m.workStep x t work).Pending l key ts) : m.Pending l key ts := by
  have hset {m₁ : Machine} {phase : Phase}
      (hqueue : ∀ s, ts ∈ m₁.queued l key s → ts ∈ m.queued l key s ∨ ts ∈ stampsFor l key work.ops)
      (hphases : m₁.phase = m.phase)
      (hlogged : ∀ work', phase = .logged work' → ts ∈ stampsFor l key work'.ops →
        ts ∈ stampsFor l key work.ops)
      (hp : (m₁.setPhase t phase).Pending l key ts) : m.Pending l key ts := by
    rcases hp with ⟨s, hs⟩ | ⟨t', work', ht', hts⟩
    · rcases hqueue s hs with hold | hnew
      · exact Or.inl ⟨s, hold⟩
      · exact Or.inr ⟨t, work, hphase, hnew⟩
    · by_cases heq : t' = t
      · subst heq
        simp only [setPhase, Function.update_self] at ht'
        exact Or.inr ⟨t', work, hphase, hlogged work' ht' hts⟩
      · rw [setPhase_of_ne _ heq, hphases] at ht'
        exact Or.inr ⟨t', work', ht', hts⟩
  have hadd {s : Fin 8} {owner : Option Nat} {task : List ShardOp}
      (htask : ts ∈ stampsFor l key task → ts ∈ stampsFor l key work.ops) (s' : Fin 8)
      (hs' : ts ∈ (m.enqueue s ⟨t, owner, task, false⟩).queued l key s') :
      ts ∈ m.queued l key s' ∨ ts ∈ stampsFor l key work.ops := by
    by_cases hs : s' = s
    · subst hs
      simp only [queued, queuedOps, enqueue, Function.update_self, List.flatMap_append,
        stampsFor_append, List.mem_append] at hs'
      rcases hs' with hold | hnew
      · exact Or.inl hold
      · exact Or.inr (htask (by simpa using hnew))
    · simp only [queued, queuedOps, enqueue, Function.update_of_ne hs] at hs'
      exact Or.inl hs'
  cases work with
  | wait s task =>
      refine hset (hadd id) rfl ?_ h
      intro work' hwork'
      cases hwork'
  | async tasks =>
      cases tasks with
      | nil =>
          refine hset (fun s hs => Or.inl hs) rfl ?_ h
          intro work' hwork'
          cases hwork'
      | cons head tasks =>
          refine hset (hadd fun htask => ?_) rfl ?_ h
          · rw [Work.ops, List.flatMap_cons, stampsFor_append]
            exact List.mem_append_left _ htask
          · intro work' hwork' hts
            cases hwork'
            rw [Work.ops, List.flatMap_cons, stampsFor_append]
            exact List.mem_append_right _ hts
  | direct ops =>
      cases ops with
      | nil =>
          refine hset (fun s hs => Or.inl hs) rfl ?_ h
          intro work' hwork'
          cases hwork'
      | cons o ops =>
          simp only [workStep] at h
          split at h
          · refine hset (fun s hs => Or.inl hs) rfl ?_ h
            intro work' hwork'
            cases hwork'
          · refine hset (fun s hs => Or.inl hs) rfl ?_ h
            intro work' hwork' hts
            cases hwork'
            exact ((List.sublist_cons_self o ops).filterMap _).subset hts

private theorem pending_take {l : Lite3} {s : Fin 8} {task : Task} {front back : List Task}
    (hqueue : m.queues s = front ++ task :: back)
    (h : (m.setQueue s (task.goOn task.ops :: (front ++ back))).Pending l key ts) :
    m.Pending l key ts := by
  rcases h with ⟨s', hs'⟩ | hlogged
  · refine Or.inl ⟨s', ?_⟩
    by_cases hs : s' = s
    · subst hs
      have hmove : (front ++ task :: back).Perm (task :: (front ++ back)) := List.perm_middle
      rw [queued, queuedOps, hqueue]
      refine (((hmove.flatMap_right Task.ops).filterMap _).mem_iff).mpr ?_
      simpa [queued, queuedOps, setQueue, stampsFor] using hs'
    · simpa [queued, queuedOps, setQueue, hs] using hs'
  · exact Or.inr hlogged

private theorem pending_shardStep {l : Lite3} (howned : m.Owned) {s : Fin 8} {task : Task}
    {rest : List Task} (hqueue : m.queues s = task :: rest)
    (h : (m.shardStep x s task rest).Pending l key ts) : m.Pending l key ts := by
  have hphase := howned.shardStep_phase (x := x) hqueue
  have hqueues (s' : Fin 8) :
      ((m.shardStep x s task rest).queuedOps s').Sublist (m.queuedOps s') := by
    have hrest : (rest.flatMap Task.ops).Sublist (m.queuedOps s) := by
      rw [queuedOps, hqueue]
      exact List.sublist_append_right _ _
    by_cases hs : s' = s
    · subst hs
      unfold shardStep
      split
      · simpa [queuedOps, setQueue] using hrest
      · rename_i o ops hops
        split
        · simpa [queuedOps, setQueue] using hrest
        · have hnow : (o :: ops ++ rest.flatMap Task.ops) = m.queuedOps s' := by
            simp [queuedOps, hqueue, hops]
          rw [← hnow]
          simp [queuedOps, setQueue]
    · have hsame : (m.shardStep x s task rest).queues s' = m.queues s' := by
        unfold shardStep
        repeat' split
        all_goals simp [setQueue, hs]
      rw [queuedOps, hsame, queuedOps]
  rcases h with ⟨s', hs'⟩ | ⟨t, work, ht, hts⟩
  · exact Or.inl ⟨s', ((hqueues s').filterMap _).subset hs'⟩
  · rcases hphase t with heq | ⟨-, hidle⟩
    · exact Or.inr ⟨t, work, heq ▸ ht, hts⟩
    · rw [hidle] at ht
      cases ht

private theorem stampAt_replay (hl : x.lite3.Lawful) {ops : List ShardOp}
    (hops : ∀ o ∈ ops, o.Proper x.lite3)
    (hkey : PlainKey key) {st : Store} (h : StampAt x st key ts) :
    StampAt x ((ops.map ShardOp.logEntry).foldl (Store.replay x) st) key
      ((stampsFor x.lite3 key ops).getLast?.getD ts) := by
  induction ops generalizing st ts with
  | nil => exact h
  | cons o ops ih =>
      have ho := hops o List.mem_cons_self
      obtain ⟨content, hleaves⟩ := ho.leaves hl
      have hnext := h.apply hl ho (Store.apply_replay hleaves st) hkey
      have hrest := ih (fun p hp => hops p (List.mem_cons_of_mem _ hp)) hnext
      rw [List.map_cons, List.foldl_cons]
      cases hstamp : o.stampFor x.lite3 key with
      | none => simpa [stampsFor, hstamp] using hrest
      | some ts' => simpa [stampsFor, hstamp, List.getLast?_cons] using hrest

/-- In a log without records of `batch_put` every key has come at least as far as in the store and
in the queues. -/
structure LogInv (x : External) (stamp : Bytes → Timestamp) (m : Machine) : Prop where
  planned : ∀ t plan, m.phase t = .planned plan →
    LogStamps x.lite3 plan.logged plan.work ∧ BatchFits plan.logged
  log : ∃ batches, m.wal.bytes = (batchCalls batches).flatMap LogCall.bytes ∧ m.wal.AtEnd ∧
    (∀ b ∈ batches, BatchFits b) ∧ ∀ key, PlainKey key → ∃ r,
      StampAt x (batches.flatten.foldl (Store.replay x) (Store.init x)) key r ∧
        stamp key ≤ r ∧ ∀ ts, m.Pending x.lite3 key ts → ts ≤ r

private theorem LogInv.frame (h : LogInv x stamp m) {stamp' : Bytes → Timestamp}
    (hadvance : m.Advance x.lite3 stamp stamp') (hwal : m'.wal = m.wal)
    (hplanned : ∀ t plan, m'.phase t = .planned plan →
      LogStamps x.lite3 plan.logged plan.work ∧ BatchFits plan.logged)
    (hpending : ∀ key ts, m'.Pending x.lite3 key ts → m.Pending x.lite3 key ts) :
    LogInv x stamp' m' := by
  refine ⟨hplanned, ?_⟩
  obtain ⟨batches, hbytes, hend, hfits, hreplay⟩ := h.log
  rw [hwal]
  refine ⟨batches, hbytes, hend, hfits, ?_⟩
  intro key hkey
  obtain ⟨r, hr, hstored, hcovers⟩ := hreplay key hkey
  refine ⟨r, hr, ?_, fun ts hts => hcovers ts (hpending key ts hts)⟩
  rcases hadvance.pending key hkey with hsame | hnew
  · rwa [hsame]
  · exact hcovers _ hnew

private theorem le_getLast {l l' : List Timestamp} (h : (l ++ l').Pairwise (· < ·))
    {last : Timestamp}
    (hlast : l'.getLast? = some last) : ∀ ts ∈ l ++ l', ts ≤ last := by
  obtain ⟨front, rfl⟩ := List.getLast?_eq_some_iff.mp hlast
  rw [← List.append_assoc] at h ⊢
  intro ts hts
  rcases List.mem_append.mp hts with hfront | hhere
  · exact ((List.pairwise_append.mp h).2.2 ts hfront last (by simp)).le
  · exact (List.mem_singleton.mp hhere).le

private theorem LogInv.append (h : LogInv x stamp m) (hl : x.lite3.Lawful)
    (hinv : StampInv x stamp m)
    {t : Nat} {plan : Plan} (hphase : m.phase t = .planned plan) :
    LogInv x stamp
      ({ m with wal := m.wal.appendBatch plan.logged }.setPhase t (.logged plan.work)) := by
  obtain ⟨⟨ops, hlogged, hproper, hstamps⟩, hfit⟩ := h.planned t plan hphase
  generalize hm' : ({ m with wal := m.wal.appendBatch plan.logged }.setPhase t (.logged plan.work) :
    Machine) = m'
  have hself : m'.phase t = .logged plan.work := by simp [← hm', setPhase]
  have hother {t' : Nat} (ht' : t' ≠ t) : m'.phase t' = m.phase t' := by
    simp [← hm', setPhase, ht']
  have hqueued (key : Bytes) (s : Fin 8) : m'.queued x.lite3 key s = m.queued x.lite3 key s := by
    rw [← hm']
    rfl
  have hwal : m'.wal = LogCall.run m.wal (.appendBatch plan.logged) := by rw [← hm']; rfl
  constructor
  · intro t' plan' ht'
    by_cases heq : t' = t
    · rw [heq, hself] at ht'
      cases ht'
    · exact h.planned t' plan' (hother heq ▸ ht')
  · obtain ⟨batches, hbytes, hend, hfits, hreplay⟩ := h.log
    have hwrite := LogCall.run_bytes hend (.appendBatch plan.logged)
    refine ⟨batches ++ [plan.logged], ?_, ?_, ?_, ?_⟩
    · rw [hwal, hwrite.1, hbytes]
      simp [batchCalls]
    · rw [hwal]
      exact hwrite.2
    · intro b hb
      rcases List.mem_append.mp hb with hb | hb
      · exact hfits b hb
      · rw [List.mem_singleton.mp hb]
        exact hfit
    · intro key hkey
      obtain ⟨r, hr, hstored, hcovers⟩ := hreplay key hkey
      have hlater := stampAt_replay hl hproper hkey hr
      rw [← hlogged, ← List.foldl_append, hstamps key hkey] at hlater
      refine ⟨_, by rw [List.flatten_append, List.flatten_singleton]; exact hlater, ?_⟩
      have hpending {ts : Timestamp} (hts : m'.Pending x.lite3 key ts) :
          m.Pending x.lite3 key ts ∨ ts ∈ stampsFor x.lite3 key plan.work.ops := by
        rcases hts with ⟨s, hs⟩ | ⟨t', work, ht', hts⟩
        · exact Or.inl (Or.inl ⟨s, hqueued key s ▸ hs⟩)
        · by_cases heq : t' = t
          · rw [heq, hself] at ht'
            cases ht'
            exact Or.inr hts
          · exact Or.inl (Or.inr ⟨t', work, hother heq ▸ ht', hts⟩)
      cases hlast : (stampsFor x.lite3 key plan.work.ops).getLast? with
      | none =>
          rw [List.getLast?_eq_none_iff] at hlast
          refine ⟨hstored, fun ts hts => ?_⟩
          rcases hpending hts with hold | hnew
          · exact hcovers ts hold
          · rw [hlast] at hnew
            cases hnew
      | some last =>
          have hchain (s : Fin 8) : ∀ ts ∈ stamp key :: (m.queued x.lite3 key s ++
              stampsFor x.lite3 key plan.work.ops), ts ≤ last := by
            have hrising := hinv.rising key hkey s t
            rw [hphase, Phase.ops, Phase.parts, ← Work.ops_eq, ← List.cons_append] at hrising
            exact le_getLast hrising hlast
          refine ⟨hchain 0 _ List.mem_cons_self, fun ts hts => ?_⟩
          rcases hpending hts with (⟨s, hs⟩ | ⟨t', work, ht', -⟩) | hnew
          · exact hchain s ts (by simp [hs])
          · -- Nobody else has a call under way.
            have heq := hinv.solo t' t (by simp [ht']) (by simp [hphase])
            rw [heq, hphase] at ht'
            cases ht'
          · exact hchain 0 ts (by simp [hnew])

private theorem LogInv.start (h : LogInv x stamp m) (hx : x.Lawful) {t : Nat} {call : Call}
    {clock : HybridLogicalClock} {plan : Plan}
    (hscope : Event.InScope x.lite3 m (.start t call)) (hordered : Event.Ordered x u m (.start t call))
    (hbatch : call.isBatch = false)
    (hprep : m.engine.prepare x u call = some (clock, .accepted plan)) :
    LogInv x stamp ({ m with clock := clock }.setPhase t (.planned plan)) := by
  apply h.frame (Advance.refl _ _ _) (by rfl)
  · intro t' plan' ht'
    by_cases heq : t' = t
    · obtain ⟨-, hcall, hplain⟩ := hscope
      obtain ⟨hsorted, hfits, hkeys⟩ := hordered
      simp only [heq, setPhase, Function.update_self, Phase.planned.injEq] at ht'
      subst ht'
      have hlogged := prepare_logged hx hcall hbatch
        (fun key hkey => ⟨hplain key hkey, (hkeys key hkey).1⟩) hsorted hprep
      refine ⟨hlogged, ?_, hfits plan (Engine.planOf_eq_some.mpr ⟨clock, hprep⟩)⟩
      obtain ⟨ops, hops, hproper, -⟩ := hlogged
      intro o ho
      rw [hops] at ho
      obtain ⟨o', ho', rfl⟩ := List.mem_map.mp ho
      rw [ShardOp.logEntry_key]
      exact (hproper o' ho').key_lt
    · rw [setPhase_of_ne _ heq] at ht'
      exact h.planned t' plan' ht'
  · intro key ts hts
    rcases hts with hqueued | ⟨t', work, ht', hts⟩
    · exact Or.inl hqueued
    · by_cases heq : t' = t
      · simp [heq, setPhase] at ht'
      · rw [setPhase_of_ne _ heq] at ht'
        exact Or.inr ⟨t', work, ht', hts⟩

private theorem LogInv.work (h : LogInv x stamp m) {t : Nat} {work : Work}
    (hphase : m.phase t = .logged work)
    {stamp' : Bytes → Timestamp} (hadvance : m.Advance x.lite3 stamp stamp') :
    LogInv x stamp' (m.workStep x t work) := by
  apply h.frame hadvance
  · unfold workStep
    repeat' split
    all_goals rfl
  · intro t' plan ht'
    apply h.planned t' plan
    by_cases heq : t' = t
    · subst heq
      unfold workStep at ht'
      repeat' split at ht'
      all_goals simp [setPhase] at ht'
    · unfold workStep at ht'
      repeat' split at ht'
      all_goals
        rw [setPhase_of_ne _ heq] at ht'
        exact ht'
  · intro key ts hts
    exact pending_workStep hphase hts

private theorem LogInv.shard (h : LogInv x stamp m) (howned : m.Owned) {s : Fin 8} {task : Task}
    {rest : List Task} (hqueue : m.queues s = task :: rest) {stamp' : Bytes → Timestamp}
    (hadvance : m.Advance x.lite3 stamp stamp') : LogInv x stamp' (m.shardStep x s task rest) := by
  apply h.frame hadvance
  · unfold shardStep
    repeat' split
    all_goals simp [setQueue]
  · intro t plan ht
    apply h.planned t plan
    rcases howned.shardStep_phase (x := x) hqueue t with heq | ⟨-, hidle⟩
    · rw [← heq, ht]
    · rw [hidle] at ht
      cases ht
  · intro key ts hts
    exact pending_shardStep howned hqueue hts

theorem StampInv.step (h : StampInv x stamp m) (hx : x.Lawful) {event : Event}
    (hscope : event.InScope x.lite3 m) (hordered : event.Ordered x u m) (hne : event ≠ .restart)
    (hstep : m.step x u event = some m') :
    ∃ stamp', StampInv x stamp' m' ∧ m.Advance x.lite3 stamp stamp' ∧
      (LogInv x stamp m → (∀ t call, event = .start t call → call.isBatch = false) →
        LogInv x stamp' m') := by
  cases step_sound hstep with
  | @start t call clock plan hidle hprep =>
      refine ⟨stamp, h.start hx hscope hordered hprep hstep, Advance.refl _ _ _, ?_⟩
      intro hlog hbatch
      exact hlog.start hx hscope hordered (hbatch t call rfl) hprep
  | refuse hidle hprep =>
      refine ⟨stamp, h.refuse hordered hprep hstep, Advance.refl _ _ _, ?_⟩
      intro hlog _
      exact hlog.frame (Advance.refl _ _ _) (by rfl) hlog.planned fun _ _ hts => hts
  | append hphase =>
      refine ⟨stamp, h.append hphase hstep, Advance.refl _ _ _, ?_⟩
      intro hlog _
      exact hlog.append hx.lite3 h hphase
  | work hphase =>
      obtain ⟨stamp', hinv, hadvance⟩ := h.work hx.lite3 hphase hstep
      exact ⟨stamp', hinv, hadvance, fun hlog _ => hlog.work hphase hadvance⟩
  | take hqueue hfront hfree =>
      refine ⟨stamp, h.take hqueue hfront (h.owned.step hstep), Advance.refl _ _ _, ?_⟩
      intro hlog _
      exact hlog.frame (Advance.refl _ _ _) (by rfl) hlog.planned fun _ _ => pending_take hqueue
  | shard hqueue =>
      obtain ⟨stamp', hinv, hadvance⟩ := h.shard hx.lite3 hqueue hstep
      exact ⟨stamp', hinv, hadvance, fun hlog _ => hlog.shard h.owned hqueue hadvance⟩
  | restart => exact absurd rfl hne

private theorem LogInv.restart (h : LogInv x stamp m) (nodeId : UInt32) :
    ∃ stamp', StampInv x stamp' (ofEngine (Engine.openOn x nodeId m.wal.bytes)) ∧
      LogInv x stamp' (ofEngine (Engine.openOn x nodeId m.wal.bytes)) ∧
      ∀ key, PlainKey key → stamp key ≤ stamp' key := by
  obtain ⟨batches, hbytes, hend, hfits, hreplay⟩ := h.log
  have hne : Nonempty Timestamp := ⟨Timestamp.zero⟩
  choose! stamp' hstored hle _ using hreplay
  have hfile : m.wal.bytes = (batchCalls batches).flatMap LogCall.bytes ++ [] := by
    rw [hbytes, List.append_nil]
  have hstore := openOn_store (x := x) hfits RecordFormat.stops_nil nodeId hfile
  have hrecover := LogFile.recover_calls (batchCalls batches) (batchCalls_fits hfits) RecordFormat.stops_nil
    (LogFile.openAt m.wal.bytes) hfile rfl
  refine ⟨stamp', StampInv.ofEngine (fun _ => rfl) ?_, ⟨?_, ?_⟩, hle⟩
  · rw [hstore]
    exact hstored
  · intro t plan ht
    cases ht
  · refine ⟨batches, hrecover.2.1, hrecover.2.2, hfits, fun key hkey => ?_⟩
    refine ⟨stamp' key, hstored key hkey, le_refl _, ?_⟩
    intro ts hts
    rcases hts with ⟨s, hs⟩ | ⟨t, work, ht, -⟩
    · cases hs
    · cases ht

/-- What is known after these events, as long as no restart loses a batch. -/
def StampsOrdered (x : External) (events : List Event) (m : Machine) : Prop :=
  BatchesKept events → ∃ stamp, StampInv x stamp m ∧
    ((∀ t call, .start t call ∈ events → call.isBatch = false) → LogInv x stamp m)

private theorem batchesKept_front {events : List Event} (more : List Event)
    (h : BatchesKept (events ++ more)) :
    BatchesKept events := by
  intro before after hsplit
  apply h before (after ++ more)
  rw [hsplit]
  simp

private theorem stampsOrdered_init (nodeId : UInt32) :
    StampsOrdered x [] (ofEngine (Engine.openOn x nodeId [])) := by
  intro _
  have hempty := traced_openOn_nil (x := x) nodeId
  have hstored (key : Bytes) : StampAt x (Engine.openOn x nodeId []).store key Timestamp.zero := by
    rw [hempty.store]
    exact stampAt_init key
  refine ⟨fun _ => Timestamp.zero, StampInv.ofEngine (fun _ => rfl) fun key _ => hstored key, ?_⟩
  intro _
  constructor
  · intro t plan ht
    cases ht
  · refine ⟨[], hempty.bytes, hempty.atEnd, by simp, fun key _ => ?_⟩
    refine ⟨Timestamp.zero, stampAt_init key, le_refl _, ?_⟩
    intro ts hts
    rcases hts with ⟨s, hs⟩ | ⟨t, work, ht, -⟩
    · cases hs
    · cases ht

theorem StampsOrdered.step {events : List Event} {event : Event} (h : StampsOrdered x events m)
    (hx : x.Lawful) (hscope : event.InScope x.lite3 m) (hordered : event.Ordered x u m)
    (hkept : BatchesKept (events ++ [event])) (hstep : m.step x u event = some m') :
    ∃ stamp stamp', StampInv x stamp m ∧ StampInv x stamp' m' ∧
      (∀ key, PlainKey key → stamp key ≤ stamp' key) ∧
      ((∀ t call, .start t call ∈ events ++ [event] → call.isBatch = false) →
        LogInv x stamp' m') := by
  obtain ⟨stamp, hinv, hlog⟩ := h (batchesKept_front _ hkept)
  by_cases hrestart : event = .restart
  · subst hrestart
    have hbatch : ∀ t call, .start t call ∈ events → call.isBatch = false :=
      hkept events [] rfl
    obtain ⟨stamp', hinv', hlog', hle⟩ := (hlog hbatch).restart m.clock.nodeId
    cases hstep
    exact ⟨stamp, stamp', hinv, hinv', hle, fun _ => hlog'⟩
  · obtain ⟨stamp', hinv', hadvance, hlog'⟩ := hinv.step hx hscope hordered hrestart hstep
    refine ⟨stamp, stamp', hinv, hinv', hadvance.le, fun hbatch => hlog' (hlog ?_) ?_⟩
    · intro t call hmem
      exact hbatch t call (List.mem_append_left _ hmem)
    · rintro t call rfl
      exact hbatch t call (by simp)

private theorem stampsOrdered_run (hx : x.Lawful) {nodeId : UInt32} {events : List Event}
    (hscope : EveryStep (Machine.step x u) (ofEngine (Engine.openOn x nodeId [])) events
      fun m event => event.InScope x.lite3 m ∧ event.Ordered x u m)
    (hrun : (ofEngine (Engine.openOn x nodeId [])).run x u events = some m) :
    StampsOrdered x events m := by
  apply run_invariant (StampsOrdered x) (stampsOrdered_init nodeId) _ hscope hrun
  intro done m₁ event m₂ hdone hok hstep hkept
  obtain ⟨_, stamp', -, hinv, -, hlog⟩ := hdone.step hx hok.1 hok.2 hkept hstep
  exact ⟨stamp', hinv, hlog⟩

/-- A waiting call of the thread is going to store a timestamp above this one. -/
def Storing (l : Lite3) (m : Machine) (t : Nat) (key : Bytes) (old : Timestamp) : Prop :=
  (∃ s ops, ((∃ plan, m.phase t = .planned plan ∧ plan.work = .wait s ops) ∨
      m.phase t = .logged (.wait s ops)) ∧ ∃ ts ∈ stampsFor l key ops, old < ts) ∨
    ∃ s, ∃ task ∈ m.queues s, task.owner = some t ∧ ∃ ts ∈ stampsFor l key task.ops, old < ts

private theorem Storing.busy {t : Nat} {old : Timestamp} {l : Lite3} (h : m.Storing l t key old)
    (howned : m.Owned) : m.phase t ≠ .idle := by
  intro hidle
  rcases h with ⟨s, ops, ⟨plan, hplan, -⟩ | hlogged, -⟩ | ⟨s, task, htask, howner, -⟩
  · rw [hidle] at hplan
    cases hplan
  · rw [hidle] at hlogged
    cases hlogged
  · have hwaiting := howned.waiting s t (List.mem_filterMap.mpr ⟨task, htask, howner⟩)
    rw [hidle] at hwaiting
    cases hwaiting

theorem Storing.step {t : Nat} {old : Timestamp} (h : m.Storing x.lite3 t key old) (hx : x.Lawful)
    (hkey : PlainKey key) (hinv : StampInv x stamp m) {event : Event}
    (hscope : event.InScope x.lite3 m) (hne : event ≠ .restart) (hstep : m.step x u event = some m')
    {stamp' : Bytes → Timestamp} (hinv' : StampInv x stamp' m') :
    old < stamp' key ∨ m'.Storing x.lite3 t key old := by
  have hbusy := h.busy hinv.owned
  cases step_sound hstep with
  | start hidle hprep => exact absurd (hscope.1 t) hbusy
  | refuse hidle hprep => exact absurd (hscope.1 t) hbusy
  | @append t' plan hphase =>
      obtain rfl : t' = t := hinv.solo t' t (by simp [hphase]) hbusy
      rcases h with ⟨s, ops, ⟨plan', hplan, hwork⟩ | hlogged, hts⟩ | ⟨s, task, htask, howner, -⟩
      · rw [hphase] at hplan
        cases hplan
        refine Or.inr (Or.inl ⟨s, ops, Or.inr ?_, hts⟩)
        simp [setPhase, hwork]
      · rw [hphase] at hlogged
        cases hlogged
      · have hwaiting := hinv.owned.waiting s t' (List.mem_filterMap.mpr ⟨task, htask, howner⟩)
        rw [hphase] at hwaiting
        cases hwaiting
  | @work t' work hphase =>
      obtain rfl : t' = t := hinv.solo t' t (by simp [hphase]) hbusy
      rcases h with ⟨s, ops, ⟨plan', hplan, -⟩ | hlogged, hts⟩ | ⟨s, task, htask, howner, -⟩
      · rw [hphase] at hplan
        cases hplan
      · rw [hphase] at hlogged
        cases hlogged
        refine Or.inr (Or.inr ⟨s, ⟨t', some t', ops, false⟩, ?_, rfl, hts⟩)
        simp [workStep, setPhase, enqueue]
      · have hwaiting := hinv.owned.waiting s t' (List.mem_filterMap.mpr ⟨task, htask, howner⟩)
        rw [hphase] at hwaiting
        cases hwaiting
  | @take s task front back hqueue hfront hfree =>
      rcases h with hphase | ⟨s', task', htask', howner, hts⟩
      · exact Or.inr (Or.inl hphase)
      · obtain ⟨after, hafter, hops, -, hsame⟩ := mem_take_of_mem hqueue htask'
        exact Or.inr (Or.inr ⟨s', after, hafter, hsame.trans howner, hops ▸ hts⟩)
  | @shard s task rest hqueue =>
      rcases h with ⟨s', ops, hphase, hts⟩ | ⟨s', task', htask', howner, hts⟩
      · refine Or.inr (Or.inl ⟨s', ops, ?_, hts⟩)
        have hsame : (m.shardStep x s task rest).phase t = m.phase t := by
          rcases hinv.owned.shardStep_phase (x := x) hqueue t with heq | ⟨hwaiting, -⟩
          · exact heq
          · rw [hwaiting] at hphase
            simp at hphase
        rw [hsame]
        exact hphase
      · by_cases hs : s' = s
        · subst hs
          rw [hqueue] at htask'
          cases hops : task.ops with
          | nil =>
              rcases List.mem_cons.mp htask' with rfl | hrest
              · obtain ⟨ts, hts, -⟩ := hts
                rw [hops] at hts
                cases hts
              · refine Or.inr (Or.inr ⟨s', task', ?_, howner, hts⟩)
                simpa [shardStep, hops, setQueue] using hrest
          | cons o ops =>
              obtain ⟨ho, st, happly⟩ := hinv.front_applies hx.lite3 hqueue hops
              rw [shardStep_applies hops happly] at hinv' ⊢
              rcases List.mem_cons.mp htask' with rfl | hrest
              · obtain ⟨ts, hts, hlt⟩ := hts
                rw [hops] at hts
                obtain ⟨p, hp, hstamp⟩ := mem_stampsFor.mp hts
                rcases List.mem_cons.mp hp with rfl | hp
                · -- The operation on the sidecar itself.
                  left
                  have hnow := (hinv.stored key hkey).apply hx.lite3 ho happly hkey
                  rw [hstamp, Option.getD_some] at hnow
                  have hthen := hinv'.stored key hkey
                  obtain rfl : stamp' key = ts :=
                    Option.some.inj ((hthen.stampOf hx).symm.trans (hnow.stampOf hx))
                  exact hlt
                · refine Or.inr (Or.inr ⟨s', task'.goOn ops, by simp [setQueue], howner, ts, ?_, hlt⟩)
                  exact mem_stampsFor.mpr ⟨p, hp, hstamp⟩
              · exact Or.inr (Or.inr ⟨s', task', by simp [setQueue, hrest], howner, hts⟩)
        · refine Or.inr (Or.inr ⟨s', task', ?_, howner, hts⟩)
          unfold shardStep
          repeat' split
          all_goals simpa [setQueue, hs] using htask'
  | restart => exact absurd rfl hne

/-- A call that waits for its task returns only when its timestamp is stored. -/
theorem Storing.run {t : Nat} {old : Timestamp} (h : m.Storing x.lite3 t key old) (hx : x.Lawful)
    (hkey : PlainKey key) (hinv : StampInv x stamp m) {events : List Event}
    (hscope : EveryStep (Machine.step x u) m events fun m event =>
      event.InScope x.lite3 m ∧ event.Ordered x u m)
    (hkept : .restart ∉ events) (hrun : m.run x u events = some m') (hidle : m'.phase t = .idle) :
    ∃ new, m'.store.stampOf x key = some new ∧ old < new := by
  have hP : EveryStep (Machine.step x u) m events fun m event =>
      (event.InScope x.lite3 m ∧ event.Ordered x u m) ∧ event ≠ .restart := by
    intro before event after hsplit m₁ hbefore
    refine ⟨hscope before event after hsplit m₁ hbefore, ?_⟩
    rintro rfl
    exact hkept (by simp [hsplit])
  have hend : ∃ stamp', StampInv x stamp' m' ∧
      (old < stamp' key ∨ m'.Storing x.lite3 t key old) := by
    refine run_invariant (fun _ m => ∃ stamp', StampInv x stamp' m ∧
      (old < stamp' key ∨ m.Storing x.lite3 t key old)) ⟨stamp, hinv, Or.inr h⟩ ?_ hP hrun
    rintro - m₁ event m₂ ⟨stamp₁, hinv₁, hsofar⟩ ⟨⟨hin, hord⟩, hne⟩ hstep
    obtain ⟨stamp₂, hinv₂, hadvance, -⟩ := hinv₁.step hx hin hord hne hstep
    refine ⟨stamp₂, hinv₂, ?_⟩
    rcases hsofar with hstored | hstoring
    · exact Or.inl (lt_of_lt_of_le hstored (hadvance.le key hkey))
    · exact hstoring.step hx hkey hinv₁ hin hne hstep hinv₂
  obtain ⟨stamp', hinv', hstored | hstoring⟩ := hend
  · exact ⟨stamp' key, (hinv'.stored key hkey).stampOf hx, hstored⟩
  · exact absurd hidle (hstoring.busy hinv'.owned)

private theorem storing_start (hinv : StampInv x stamp m') (hx : x.Lawful) {call : Call}
    (hkey : PlainKey key)
    (hcall : call.LocalWrite key) (hplain : ¬ ascii ":meta" <:+ key) {t : Nat}
    {clock : HybridLogicalClock} {plan : Plan}
    (hprep : m.engine.prepare x u call = some (clock, .accepted plan))
    (hphase : m'.phase t = .planned plan) : m'.Storing x.lite3 t key (stamp key) := by
  obtain ⟨s, o, metaVal, ts, tombstone, hwork, hokey, hmeta⟩ : ∃ s o metaVal ts tombstone,
      plan.work = .wait s [o, .put (metaKey key) metaVal] ∧ o.key = key ∧
        metaObject x.lite3 ts tombstone = some metaVal := by
    cases Engine.prepare_sound hprep with
    | put k _ _ _ _ _ hmeta hwork =>
        obtain rfl : k = key := hcall
        exact ⟨_, _, _, _, _, hwork, rfl, hmeta⟩
    | del k _ _ _ _ hmeta hwork =>
        obtain rfl : k = key := hcall
        exact ⟨_, _, _, _, _, hwork, rfl, hmeta⟩
    | _ => cases hcall
  have hstamps : stampsFor x.lite3 key [o, .put (metaKey key) metaVal] = [ts] := by
    rw [stampsFor_pair hx.lite3 (hokey ▸ hplain) hkey hmeta hkey, if_pos rfl]
  have hops : (m'.phase t).ops = [o, .put (metaKey key) metaVal] := by
    simp [hphase, Phase.ops, Phase.parts, hwork, Work.parts]
  have hrising := hinv.rising key hkey 0 t
  rw [hops, hstamps] at hrising
  refine Or.inl ⟨s, _, Or.inl ⟨plan, hphase, hwork⟩, ts, by simp [hstamps], ?_⟩
  exact List.rel_of_pairwise_cons hrising (by simp)

end

end Machine

open Machine in
/-- Over every run of calls made one after the other on a fresh engine, restarts included, whose
steps all are `Ordered` and in which no restart comes after an accepted `batch_put`: no step lowers
the timestamp stored for a key, and what a put or a delete has stored when it returns is above
what was stored before it. -/
theorem stamps_rise (x : External) (hx : x.Lawful) (u : Nat → Nat → UInt8) (nodeId : UInt32)
    (events : List Event)
    (hscope : EveryStep (step x u) (ofEngine (Engine.openOn x nodeId [])) events
      fun m event => event.InScope x.lite3 m ∧ event.Ordered x u m)
    (hkept : BatchesKept events) :
    (∀ before event after, events = before ++ event :: after → ∀ m m',
      (ofEngine (Engine.openOn x nodeId [])).run x u before = some m → m.step x u event = some m' →
      ∀ key, PlainKey key → ∃ old new, m.store.stampOf x key = some old ∧
        m'.store.stampOf x key = some new ∧ old ≤ new) ∧
    ∀ before t call during after, events = before ++ .start t call :: (during ++ after) →
      .restart ∉ during → ∀ key, call.LocalWrite key → ∀ m m',
      (ofEngine (Engine.openOn x nodeId [])).run x u before = some m →
      m.run x u (.start t call :: during) = some m' → m'.phase t = .idle →
      ∃ old new, m.store.stampOf x key = some old ∧ m'.store.stampOf x key = some new ∧
        old < new := by
  constructor
  · intro before event after hsplit m m' hbefore hstep key hkey
    subst hsplit
    have hdone : StampsOrdered x before m := stampsOrdered_run hx hscope.front hbefore
    obtain ⟨hin, hord⟩ := hscope before event after rfl m hbefore
    have hsofar : BatchesKept (before ++ [event]) := by
      apply batchesKept_front after
      rwa [List.append_assoc]
    obtain ⟨stamp, stamp', hinv, hinv', hle, -⟩ := hdone.step hx hin hord hsofar hstep
    exact ⟨stamp key, stamp' key, (hinv.stored key hkey).stampOf hx,
      (hinv'.stored key hkey).stampOf hx, hle key hkey⟩
  · intro before t call during after hsplit hduring key hcall m m' hbefore hrun hidle
    subst hsplit
    have hdone : StampsOrdered x before m := stampsOrdered_run hx hscope.front hbefore
    obtain ⟨hin, hord⟩ := hscope before (.start t call) (during ++ after) rfl m hbefore
    have hmem : key ∈ call.keys x.lite3 := by
      cases call with
      | put k body principal readings =>
          obtain rfl : k = key := hcall
          simp [Call.keys]
      | del k principal readings =>
          obtain rfl : k = key := hcall
          simp [Call.keys]
      | _ => cases hcall
    have hkey := hin.2.2 key hmem
    rw [Machine.run, List.foldlM_cons] at hrun
    obtain ⟨m₁, hstart, hrun⟩ := Option.bind_eq_some_iff.mp hrun
    obtain ⟨stamp, hinv, -⟩ := hdone (batchesKept_front _ hkept)
    refine ⟨stamp key, ?_⟩
    cases step_sound hstart with
    | @start _ _ clock plan hfree hprep =>
        have hinv₁ := hinv.start hx hin hord hprep hstart
        have hstoring := storing_start (m := m) hinv₁ hx hkey hcall (hord.2.2 key hmem).1 hprep
          (t := t) (by simp [setPhase])
        have hrest : EveryStep (step x u) ({ m with clock := clock }.setPhase t (.planned plan))
            during fun m event => event.InScope x.lite3 m ∧ event.Ordered x u m := by
          rw [List.append_cons, ← List.append_assoc] at hscope
          exact hscope.front.drop (foldlM_concat.mpr ⟨m, hbefore, hstart⟩)
        obtain ⟨new, hnew, hlt⟩ := hstoring.run hx hkey hinv₁ hrest hduring hrun hidle
        exact ⟨new, (hinv.stored key hkey).stampOf hx, hnew, hlt⟩

private def stampX : External := External.reference fun _ => 0

private def stampStart : Machine := .ofEngine (Engine.openOn stampX 1 [])

private def mutationOf (wall : Int64) : List Event :=
  [.start 0 (.applyMutation ⟨⟨wall, 0, 2⟩, ascii "k", ascii "a", false⟩), .append 0, .work 0, .work 0,
    .work 0]

private def putStart (reading : Int64) : Event :=
  .start 0 (.put (ascii "k") (ascii "b") adminUid [reading])

private def putRest : List Event :=
  [.append 0, .work 0, .shard firstShard, .shard firstShard, .shard firstShard]

/-- A mutation at wall time 5, then a put that reads this from the physical clock. -/
private def mutationThenPut (reading : Int64) : List Event :=
  mutationOf 5 ++ putStart reading :: putRest

private theorem mutationThenPut_scope (reading : Int64)
    (hcheck : allSteps (Machine.step stampX fun _ _ => 0) (fun m event => match event with
      | .start .. => decide (m.phase 0 = .idle)
      | _ => true) stampStart (mutationThenPut reading) = true) :
    EveryStep (Machine.step stampX fun _ _ => 0) stampStart (mutationThenPut reading)
      fun m event => event.InScope stampX.lite3 m := by
  intro before event after hsplit m hrun
  have hidle := everyStep_of_allSteps hcheck before event after hsplit m hrun
  have hthread : ∀ event ∈ before, ∀ t ∈ event.thread?, t < 1 := by
    have hall : ∀ event ∈ mutationThenPut reading, ∀ t ∈ event.thread?, t < 1 := by
      simp [mutationThenPut, mutationOf, putStart, putRest, Event.thread?]
    intro event hevent
    exact hall event (by simp [hsplit, hevent])
  have hall (hzero : m.phase 0 = .idle) (t : Nat) : m.phase t = .idle := by
    by_cases ht : t < 1
    · rw [show t = 0 by omega, hzero]
    · exact Machine.idle_of_run hthread hrun ht
  have hmem : event ∈ mutationThenPut reading := by simp [hsplit]
  have hplain : metaKey (ascii "k") = ascii "k" ++ ascii ":meta" := by decide
  simp only [mutationThenPut, mutationOf, putStart, putRest, List.cons_append, List.nil_append,
    List.mem_cons, List.not_mem_nil, or_false] at hmem
  rcases hmem with rfl | rfl | rfl | rfl | rfl | rfl | rfl | rfl | rfl | rfl | rfl
  · refine ⟨hall (of_decide_eq_true hidle), trivial, ?_⟩
    simpa [Call.keys, PlainKey] using hplain
  · trivial
  · trivial
  · trivial
  · trivial
  · refine ⟨hall (of_decide_eq_true hidle), trivial, ?_⟩
    simpa [Call.keys, PlainKey] using hplain
  all_goals trivial

open Machine in
/-- A put whose reading is past the mutation. -/
theorem stamps_rise_after_mutation :
    ∃ m m', stampStart.run stampX (fun _ _ => 0) (mutationOf 5) = some m ∧
      m.run stampX (fun _ _ => 0) (putStart 6 :: putRest) = some m' ∧
      ∃ old new, m.store.stampOf stampX (ascii "k") = some old ∧
        m'.store.stampOf stampX (ascii "k") = some new ∧ old < new := by
  have hsome : (stampStart.run stampX (fun _ _ => 0) (mutationOf 5)).isSome = true := by decide
  obtain ⟨m, hfirst⟩ := Option.isSome_iff_exists.mp hsome
  have hfinal : ((stampStart.run stampX (fun _ _ => 0) (mutationOf 5)).bind fun m =>
      m.run stampX (fun _ _ => 0) (putStart 6 :: putRest)).map (fun m => decide (m.phase 0 = .idle)) =
        some true := by decide
  rw [hfirst, Option.bind_some] at hfinal
  obtain ⟨m', hrun, hidle⟩ := Option.map_eq_some_iff.mp hfinal
  have hordered : EveryStep (step stampX fun _ _ => 0) stampStart (mutationThenPut 6)
      fun m event => decide (event.Ordered stampX (fun _ _ => 0) m) = true :=
    everyStep_of_allSteps (by decide)
  have hscope := mutationThenPut_scope 6 (by decide)
  have hrises := stamps_rise stampX (External.reference_lawful _) (fun _ _ => 0) 1 (mutationThenPut 6)
    (fun before event after hsplit s hs => ⟨hscope before event after hsplit s hs,
      of_decide_eq_true (hordered before event after hsplit s hs)⟩)
    (fun before after hsplit => by
      have hmem : Event.restart ∈ mutationThenPut 6 := by simp [hsplit]
      simp [mutationThenPut, mutationOf, putStart, putRest] at hmem)
  refine ⟨m, m', hfirst, hrun, ?_⟩
  exact hrises.2 (mutationOf 5) 0 (.put (ascii "k") (ascii "b") adminUid [6]) putRest []
    (by rw [List.append_nil]; rfl) (by simp [putRest]) (ascii "k") rfl m m' hfirst hrun
    (of_decide_eq_true hidle)

open Machine in
/-- A mutation does not move the clock, so that the put after it goes back in time. -/
theorem put_lowers_stamp :
    EveryStep (step stampX fun _ _ => 0) stampStart (mutationThenPut 1)
        (fun m event => event.InScope stampX.lite3 m) ∧
      ∃ m m', stampStart.run stampX (fun _ _ => 0) (mutationOf 5) = some m ∧
        m.run stampX (fun _ _ => 0) (putStart 1 :: putRest) = some m' ∧
        m.store.stampOf stampX (ascii "k") = some ⟨5, 0, 2⟩ ∧
        m'.store.stampOf stampX (ascii "k") = some ⟨1, 0, 1⟩ := by
  refine ⟨mutationThenPut_scope 1 (by decide), ?_⟩
  have hfirst : (stampStart.run stampX (fun _ _ => 0) (mutationOf 5)).map (fun m =>
      (m.store.stampOf stampX (ascii "k"),
        (m.run stampX (fun _ _ => 0) (putStart 1 :: putRest)).map fun m' =>
          m'.store.stampOf stampX (ascii "k"))) =
      some (some ⟨5, 0, 2⟩, some (some ⟨1, 0, 1⟩)) := by decide
  obtain ⟨m, hrun, hm⟩ := Option.map_eq_some_iff.mp hfirst
  obtain ⟨hold, hnew⟩ := Prod.mk.inj hm
  obtain ⟨m', hrun', hm'⟩ := Option.map_eq_some_iff.mp hnew
  exact ⟨m, m', hrun, hrun', hold, hm'⟩

end L3KV
