import L3KV.Engine.Merge

/-!
# Calls on an idle engine

A call that runs from start to end finds the queues empty and leaves them empty. What `put`,
`del` and `apply_mutation` then do to the registers is said in one lemma for each.
-/

namespace L3KV

open Framework

/-- No task is waiting. -/
def Engine.Idle (e : Engine) : Prop := ∀ shard, e.queues shard = []

/-- The key of a `put` or `del` and the entry it is going to leave, if it is permitted. -/
def Call.written (x : External) (e : Engine) : Call → Option (Bytes × Entry)
  | .put key body principal readings =>
      if (e.store.credentials.checkPermission principal key).canWrite then
        (e.clock.now readings).map fun stamp => (key, writtenEntry x.lite3 stamp.1 body false)
      else none
  | .del key principal readings =>
      if (e.store.credentials.checkPermission principal key).canWrite then
        (e.clock.now readings).map fun stamp => (key, writtenEntry x.lite3 stamp.1 [] true)
      else none
  | _ => none

/-- A `put` or `del` of this key. -/
inductive Call.WritesLocally (key : Bytes) : Call → Prop
  | put (body : Bytes) (principal : UInt32) (readings : List Int64) :
      WritesLocally key (.put key body principal readings)
  | del (principal : UInt32) (readings : List Int64) :
      WritesLocally key (.del key principal readings)

/-- The registers after a write, if there was one. -/
def withWritten (entries : Bytes → Option Entry) : Option (Bytes × Entry) → Bytes → Option Entry
  | none => entries
  | some (key, r) => Function.update entries key (some r)

section

variable {x : External} {u : Nat → Nat → UInt8} {e : Engine} {entries : Bytes → Option Entry}

theorem Engine.openOn_idle (nodeId : UInt32) : (Engine.openOn x nodeId []).Idle := fun _ => rfl

theorem Engine.drain_idle {shard : Fin 8} (h : e.queues shard = []) : e.drain x shard = e := by
  have hqueues : Function.update e.queues shard [] = e.queues := by
    rw [← h, Function.update_eq_self]
  rw [drain, h, hqueues]
  rfl

private theorem commit_wait (hidle : e.Idle) {plan : Plan} {shard : Fin 8}
    {key body metaVal : Bytes}
    {isDelete : Bool} (hwork : plan.work = .wait shard
      [if isDelete then .del key else .put key body, .put (metaKey key) metaVal])
    (result : CallResult) :
    (e.commit x result plan).1.Idle ∧
      (e.commit x result plan).1.store = e.store.commitWrite x key body isDelete metaVal := by
  have hdrain : ({ e with wal := e.wal.appendBatch plan.logged }).drain x shard =
      { e with wal := e.wal.appendBatch plan.logged } := Engine.drain_idle (hidle shard)
  simp only [Engine.commit, hwork, hdrain]
  refine ⟨hidle, ?_⟩
  cases isDelete <;> rfl

private theorem call_stamped (body : Bytes) (isDelete : Bool) (hidle : e.Idle) {key : Bytes}
    {readings : List Int64} {stamp : Timestamp × HybridLogicalClock}
    (hnow : e.clock.now readings = some stamp) {planOf : Timestamp → Option Plan} {plan : Plan}
    {shard : Fin 8} {metaVal : Bytes} (hplan : planOf stamp.1 = some plan)
    (hwork : plan.work = .wait shard
      [if isDelete then .del key else .put key body, .put (metaKey key) metaVal])
    {call : Call} (hprepare : e.prepare x u call = Engine.stamped e.clock readings planOf) :
    ∃ r, e.call x u call = some r ∧ r.1.Idle ∧
      r.1.store = e.store.commitWrite x key body isDelete metaVal := by
  refine ⟨({ e with clock := stamp.2 }).commit x (Engine.successOf call) plan, ?_, ?_⟩
  · simp [Engine.call, hprepare, Engine.stamped, hnow, hplan]
  · exact commit_wait (e := { e with clock := stamp.2 }) hidle hwork _

theorem call_put (hl : x.lite3.Lawful) (hidle : e.Idle) {key : Bytes} {principal : UInt32}
    (hcan : (e.store.credentials.checkPermission principal key).canWrite) {readings : List Int64}
    {stamp : Timestamp × HybridLogicalClock} (hnow : e.clock.now readings = some stamp)
    (body : Bytes) :
    ∃ r metaVal, e.call x u (.put key body principal readings) = some r ∧
      metaObject x.lite3 stamp.1 false = some metaVal ∧ r.1.Idle ∧
      r.1.store = e.store.commitWrite x key body false metaVal := by
  obtain ⟨metaVal, hmeta, -⟩ := metaObject_reads hl stamp.1 false
  have hexists : ∃ plan, putPlan x u key body stamp.1 = some plan := by simp [putPlan, hmeta]
  obtain ⟨plan, hplan⟩ := hexists
  obtain ⟨metaVal, hmeta, hwork, -⟩ := putPlan_spec hplan
  have hprepare : e.prepare x u (.put key body principal readings) =
      Engine.stamped e.clock readings (putPlan x u key body) := if_pos hcan
  obtain ⟨r, hr, hrest⟩ := call_stamped body false hidle hnow hplan hwork hprepare
  exact ⟨r, metaVal, hr, hmeta, hrest⟩

private theorem call_del (hl : x.lite3.Lawful) (hidle : e.Idle) {key : Bytes} {principal : UInt32}
    (hcan : (e.store.credentials.checkPermission principal key).canWrite) {readings : List Int64}
    {stamp : Timestamp × HybridLogicalClock} (hnow : e.clock.now readings = some stamp) :
    ∃ r metaVal, e.call x u (.del key principal readings) = some r ∧
      metaObject x.lite3 stamp.1 true = some metaVal ∧ r.1.Idle ∧
      r.1.store = e.store.commitWrite x key [] true metaVal := by
  obtain ⟨metaVal, hmeta, -⟩ := metaObject_reads hl stamp.1 true
  have hexists : ∃ plan, delPlan x u key stamp.1 = some plan := by simp [delPlan, hmeta]
  obtain ⟨plan, hplan⟩ := hexists
  obtain ⟨metaVal, hmeta, hwork, -⟩ := delPlan_spec hplan
  have hprepare : e.prepare x u (.del key principal readings) =
      Engine.stamped e.clock readings (delPlan x u key) := if_pos hcan
  obtain ⟨r, hr, hrest⟩ := call_stamped [] true hidle hnow hplan hwork hprepare
  exact ⟨r, metaVal, hr, hmeta, hrest⟩

theorem call_writes (hl : x.lite3.Lawful) (hidle : e.Idle) {key : Bytes} {call : Call}
    (hcall : call.WritesLocally key) {r : Engine × CallResult} (hr : e.call x u call = some r) :
    r.1.Idle ∧
      ((call.written x e = none ∧ r.1.store = e.store) ∨
        ∃ ts body isDelete metaVal, metaObject x.lite3 ts isDelete = some metaVal ∧
          call.written x e = some (key, writtenEntry x.lite3 ts body isDelete) ∧
          r.1.store = e.store.commitWrite x key body isDelete metaVal) := by
  cases hcall with
  | put body principal readings =>
      by_cases hcan : (e.store.credentials.checkPermission principal key).canWrite
      · cases hnow : e.clock.now readings with
        | none => simp [Engine.call, Engine.prepare, hcan, Engine.stamped, hnow] at hr
        | some stamp =>
            obtain ⟨r', metaVal, hr', hmeta, hidle', hstore⟩ :=
              call_put (u := u) hl hidle hcan hnow body
            obtain rfl := Option.some.inj (hr'.symm.trans hr)
            refine ⟨hidle', .inr ⟨stamp.1, body, false, metaVal, hmeta, ?_, hstore⟩⟩
            simp only [Call.written, if_pos hcan, hnow, Option.map_some]
      · obtain rfl : (e, unauthorizedFor key) = r := by
          simpa [Engine.call, Engine.prepare, hcan] using hr
        exact ⟨hidle, .inl ⟨by simp only [Call.written, if_neg hcan], rfl⟩⟩
  | del principal readings =>
      by_cases hcan : (e.store.credentials.checkPermission principal key).canWrite
      · cases hnow : e.clock.now readings with
        | none => simp [Engine.call, Engine.prepare, hcan, Engine.stamped, hnow] at hr
        | some stamp =>
            obtain ⟨r', metaVal, hr', hmeta, hidle', hstore⟩ :=
              call_del (u := u) hl hidle hcan hnow
            obtain rfl := Option.some.inj (hr'.symm.trans hr)
            refine ⟨hidle', .inr ⟨stamp.1, [], true, metaVal, hmeta, ?_, hstore⟩⟩
            simp only [Call.written, if_pos hcan, hnow, Option.map_some]
      · obtain rfl : (e, CallResult.deleted false) = r := by
          simpa [Engine.call, Engine.prepare, hcan] using hr
        exact ⟨hidle, .inl ⟨by simp only [Call.written, if_neg hcan], rfl⟩⟩

theorem call_local (hx : x.Lawful) (h : Represents x e.store entries) (hidle : e.Idle) {key : Bytes}
    (hkey : UserKey key) {call : Call} (hcall : call.WritesLocally key) {r : Engine × CallResult}
    (hr : e.call x u call = some r) :
    r.1.Idle ∧ Represents x r.1.store (withWritten entries (call.written x e)) := by
  obtain ⟨hidle', ⟨hnone, hstore⟩ | ⟨ts, body, isDelete, metaVal, hmeta, hwritten, hstore⟩⟩ :=
    call_writes hx.lite3 hidle hcall hr
  · refine ⟨hidle', ?_⟩
    rw [hstore, hnone]
    exact h
  · refine ⟨hidle', ?_⟩
    rw [hstore, hwritten]
    exact h.commitWrite hx.lite3 hkey body isDelete hmeta

theorem Call.written_eq_some {key : Bytes} {call : Call} (hcall : call.WritesLocally key)
    {w : Bytes × Entry} (hw : call.written x e = some w) :
    w.1 = key ∧ ∃ ts body isDelete, w.2 = writtenEntry x.lite3 ts body isDelete := by
  cases hcall with
  | put body principal readings =>
      simp only [Call.written] at hw
      split at hw
      · obtain ⟨stamp, -, rfl⟩ := Option.map_eq_some_iff.mp hw
        exact ⟨rfl, stamp.1, body, false, rfl⟩
      · cases hw
  | del principal readings =>
      simp only [Call.written] at hw
      split at hw
      · obtain ⟨stamp, -, rfl⟩ := Option.map_eq_some_iff.mp hw
        exact ⟨rfl, stamp.1, [], true, rfl⟩
      · cases hw

/-- An entry that a write left is the one that writing its value again would leave. -/
theorem writtenEntry_again {l : Lite3} (hl : l.Lawful) (ts ts' : Timestamp) (body : Bytes)
    (isDelete : Bool) :
    writtenEntry l ts' (writtenEntry l ts body isDelete).value isDelete =
      { writtenEntry l ts body isDelete with stamp := ts' } := by
  cases isDelete with
  | true => rfl
  | false => simp [writtenEntry, storedForm_idem hl.fromJsonString_container]

end

end L3KV
