import L3KV.Clock.Hybrid
import L3KV.Framework.Lifetime
import L3KV.Store.Apply

/-!
# The calls of the engine

A writing call checks the caller, takes a timestamp, builds the metadata object, logs a
batch and only then changes the shards. The log entries are built from views of string
objects, the changes from copies, so both are kept: a `Plan` holds what is logged and what is
applied, and every call is a decision that ends in a plan, followed by carrying it out.
-/

namespace L3KV

open Framework

/-- The metadata object of a write. The logical counter and the node widen to 64 bits. -/
def metaObject (l : Lite3) (ts : Timestamp) (tombstone : Bool) : Option Bytes := do
  let buf ← l.setI64 l.initObject (ascii "ts") ts.wallTime
  let buf ← l.setI64 buf (ascii "l") (Int64.ofNat ts.logical.toNat)
  let buf ← l.setI64 buf (ascii "n") (Int64.ofNat ts.nodeId.toNat)
  if tombstone then l.setBool buf (ascii "tombstone") true else some buf

/-- The timestamp `apply_mutation` reads from the metadata it found; `none` if it throws. -/
def localTimestamp (l : Lite3) (buf : Bytes) : Option Timestamp :=
  if buf.length = 0 then some Timestamp.zero
  else do
    let type ← l.getType buf (ascii "ts")
    if type = .int64 ∨ type = .float64 then
      let w ← l.getI64 buf (ascii "ts")
      let logical ← l.getI64 buf (ascii "l")
      let node ← l.getI64 buf (ascii "n")
      some ⟨w, logical.toUInt64.toUInt32, node.toUInt64.toUInt32⟩
    else some Timestamp.zero

structure Mutation where
  timestamp : Timestamp
  key : Bytes
  value : Bytes
  isDelete : Bool
  deriving DecidableEq, Repr

/-- `BatchOp` as the source has it, with `std::string_view` members. -/
structure ViewOp where
  op : WalOp
  key : StringView
  value : StringView

/-- The operation `append_batch` encodes when it reads through the views. -/
def ViewOp.resolve (unspecified : Nat → Nat → UInt8) (h : StringHeap) (v : ViewOp) : BatchOp :=
  ⟨v.op, h.read unspecified v.key, h.read unspecified v.value⟩

/-- What a call does to the shards once it has logged. -/
inductive Work where
  /-- One task for the queue of a shard, which the caller waits for. -/
  | wait (shard : Fin 8) (task : List ShardOp)
  /-- Tasks for several queues that nobody waits for. -/
  | async (tasks : List (Fin 8 × List ShardOp))
  /-- Operations the calling thread performs itself. -/
  | direct (ops : List ShardOp)
  deriving DecidableEq

/-- The operations applied, in the order of the tasks. -/
def Work.ops : Work → List ShardOp
  | wait _ task => task
  | async tasks => tasks.flatMap Prod.snd
  | direct ops => ops

structure Plan where
  logged : List BatchOp
  work : Work
  deriving DecidableEq

/-- How a call ends for its caller. -/
inductive CallResult where
  | done
  /-- The result of `del`. -/
  | deleted (existed : Bool)
  /-- The `runtime_error` of a refused write, with its message. -/
  | unauthorized (message : Bytes)
  /-- Any other exception. -/
  | threw
  deriving DecidableEq, Repr

inductive Outcome where
  | refused (result : CallResult)
  | accepted (plan : Plan)

def Outcome.plan? : Outcome → Option Plan
  | refused _ => none
  | accepted plan => some plan

def unauthorizedFor (key : Bytes) : CallResult :=
  .unauthorized (ascii "Unauthorized: Access Denied for key " ++ key)

section

variable (x : External)

/-- The end of `put` after the timestamp is taken. Its four strings live until the call ends. -/
def putPlan (unspecified : Nat → Nat → UInt8) (key body : Bytes) (ts : Timestamp) :
    Option Plan := do
  let mkey := metaKey key
  let metaVal ← metaObject x.lite3 ts false
  let h := (((StringHeap.empty.alloc key).alloc body).alloc mkey).alloc metaVal
  let batch := [ViewOp.mk WalOp.put (h.view 0) (h.view 1), ViewOp.mk WalOp.put (h.view 2) (h.view 3)]
  some {
    logged := batch.map (ViewOp.resolve unspecified h)
    -- The lambda has moved the key away before its shard is looked up.
    work := .wait (routingShard x.xxh3 (x.movedFrom key)) [.put key body, .put mkey metaVal] }

/-- The end of `del`; the empty value is a string literal. -/
def delPlan (unspecified : Nat → Nat → UInt8) (key : Bytes) (ts : Timestamp) : Option Plan := do
  let mkey := metaKey key
  let metaVal ← metaObject x.lite3 ts true
  let h := (((StringHeap.empty.alloc key).alloc []).alloc mkey).alloc metaVal
  let batch := [ViewOp.mk WalOp.delete (h.view 0) (h.view 1),
    ViewOp.mk WalOp.put (h.view 2) (h.view 3)]
  some {
    logged := batch.map (ViewOp.resolve unspecified h)
    work := .wait (routingShard x.xxh3 key) [.del key, .put mkey metaVal] }

/-- `ts_str` of the patch calls. -/
def stampText (ts : Timestamp) : Bytes :=
  decimal ts.wallTime.toInt ++ ascii ":" ++ decimal ts.logical.toNat ++ ascii ":" ++
    decimal ts.nodeId.toNat

/-- The end of `patch_int` and `patch_str`, up to the operation on the key itself. -/
def patchPlan (unspecified : Nat → Nat → UInt8) (o : ShardOp) (field : Bytes) (ts : Timestamp) :
    Plan :=
  let mkey := metaKey o.key
  let stamp := ShardOp.patchStr mkey field (stampText ts)
  let h := (((StringHeap.empty.alloc o.key).alloc o.logEntry.value).alloc mkey).alloc
    stamp.logEntry.value
  let batch := [ViewOp.mk o.logEntry.op (h.view 0) (h.view 1),
    ViewOp.mk WalOp.patchStr (h.view 2) (h.view 3)]
  { logged := batch.map (ViewOp.resolve unspecified h)
    work := .wait (routingShard x.xxh3 (x.movedFrom o.key)) [o, stamp] }

/-- The end of an accepted `apply_mutation`. The copy `val_str` of the value is declared in
the `else` block in which its view is taken, and is gone when the batch is logged. -/
def mutationPlan (unspecified : Nat → Nat → UInt8) (m : Mutation) : Option Plan := do
  let mkey := metaKey m.key
  let metaVal ← metaObject x.lite3 m.timestamp m.isDelete
  let outer := (((StringHeap.empty.alloc m.key).alloc mkey).alloc metaVal).alloc []
  let inner := outer.alloc m.value
  let h := if m.isDelete then outer else inner.closeBlock outer.size
  let first :=
    if m.isDelete then ViewOp.mk WalOp.delete (outer.view 0) (outer.view 3)
    else ViewOp.mk WalOp.put (inner.view 0) (inner.view outer.size)
  let batch := [first, ViewOp.mk WalOp.put (outer.view 1) (outer.view 2)]
  some {
    logged := batch.map (ViewOp.resolve unspecified h)
    work := .direct [if m.isDelete then .del m.key else .put m.key m.value, .put mkey metaVal] }

/-- What the loop of `batch_put` has collected. -/
structure BatchState where
  clock : HybridLogicalClock
  heap : StringHeap
  views : List ViewOp
  works : Fin 8 → List ShardOp

namespace BatchState

def init (clock : HybridLogicalClock) : BatchState :=
  ⟨clock, StringHeap.empty, [], fun _ => []⟩

/-- `shard_works[shard].updates.push_back(..)`. -/
def addWork (s : BatchState) (o : ShardOp) : BatchState :=
  let shard := routingShard x.xxh3 o.key
  { s with works := Function.update s.works shard (s.works shard ++ [o]) }

/-- The rest of the loop body once the entry's value and metadata are known. The strings are
declared in the body, which ends here. -/
def addEntry (s : BatchState) (clock : HybridLogicalClock) (key value metaVal : Bytes) :
    BatchState :=
  let mkey := metaKey key
  let mark := s.heap.size
  let h := (((s.heap.alloc key).alloc value).alloc mkey).alloc metaVal
  let views := [ViewOp.mk WalOp.put (h.view mark) (h.view (mark + 1)),
    ViewOp.mk WalOp.put (h.view (mark + 2)) (h.view (mark + 3))]
  (({ s with clock := clock, heap := h.closeBlock mark, views := s.views ++ views }).addWork x
    (.put key value)).addWork x (.put mkey metaVal)

end BatchState

/-- The value of an entry of the batch: `none` if the access throws, `some none` for an entry
of another type, which is skipped. -/
def batchValue (l : Lite3) (batch key : Bytes) : Option (Option Bytes) :=
  match l.getType batch key with
  | none => none
  | some .string => (l.getStr batch key).map some
  | some .bytes => (l.getBytes batch key).map some
  | some _ => some none

/-- The loop of `batch_put`. `none` while a call of `now` is waiting; an inner `.error` is an
exception, with the clock as the calls of `now` before it left it. -/
def batchLoop (c : CredentialManager) (principal : UInt32) (batch : Bytes) :
    List Bytes → List (List Int64) → BatchState →
      Option (Except (HybridLogicalClock × CallResult) BatchState)
  | [], _, s => some (.ok s)
  | key :: keys, readings, s =>
      if (c.checkPermission principal key).canWrite then
        match batchValue x.lite3 batch key with
        | none => some (.error (s.clock, .threw))
        | some none => batchLoop c principal batch keys readings s
        | some (some value) =>
            match s.clock.now (readings.headD []) with
            | none => none
            | some (ts, clock) =>
                match metaObject x.lite3 ts false with
                | none => some (.error (clock, .threw))
                | some metaVal =>
                    batchLoop c principal batch keys readings.tail
                      (s.addEntry x clock key value metaVal)
      else some (.error (s.clock, unauthorizedFor key))

end

/-- A call, with the physical readings its calls of `now` make. -/
inductive Call where
  | put (key body : Bytes) (principal : UInt32) (readings : List Int64)
  | del (key : Bytes) (principal : UInt32) (readings : List Int64)
  | patchInt (key field : Bytes) (value : Int64) (readings : List Int64)
  | patchStr (key field value : Bytes) (readings : List Int64)
  | batchPut (batch : Bytes) (principal : UInt32) (readings : List (List Int64))
  | applyMutation (m : Mutation)

structure Engine where
  store : Store
  /-- The tasks that one thread has enqueued on each shard, not yet run. -/
  queues : Fin 8 → List (List ShardOp)
  clock : HybridLogicalClock
  wal : LogFile

namespace Engine

section

variable (x : External)

/-- A call that takes one timestamp and then builds its plan. -/
def stamped (clock : HybridLogicalClock) (readings : List Int64)
    (plan : Timestamp → Option Plan) : Option (HybridLogicalClock × Outcome) :=
  (clock.now readings).map fun stamp =>
    match plan stamp.1 with
    | none => (stamp.2, .refused .threw)
    | some plan => (stamp.2, .accepted plan)

/-- A call up to the point where it logs: the clock it leaves and what it is going to do.
`none` while a call of `now` is waiting. -/
def prepare (unspecified : Nat → Nat → UInt8) (e : Engine) :
    Call → Option (HybridLogicalClock × Outcome)
  | .put key body principal readings =>
      if (e.store.credentials.checkPermission principal key).canWrite then
        stamped e.clock readings (putPlan x unspecified key body)
      else some (e.clock, .refused (unauthorizedFor key))
  | .del key principal readings =>
      if (e.store.credentials.checkPermission principal key).canWrite then
        stamped e.clock readings (delPlan x unspecified key)
      else some (e.clock, .refused (.deleted false))
  | .patchInt key field value readings =>
      stamped e.clock readings fun ts =>
        some (patchPlan x unspecified (.patchInt key field value) field ts)
  | .patchStr key field value readings =>
      stamped e.clock readings fun ts =>
        some (patchPlan x unspecified (.patchStr key field value) field ts)
  | .batchPut batch principal readings =>
      (batchLoop x e.store.credentials principal batch (x.lite3.keys batch) readings
        (BatchState.init e.clock)).map fun
        | .error (clock, result) => (clock, .refused result)
        | .ok s =>
            if s.views.isEmpty then (s.clock, .refused .done)
            else (s.clock, .accepted {
              logged := s.views.map (ViewOp.resolve unspecified s.heap)
              work := .async (((List.finRange 8).map fun i => (i, s.works i)).filter
                fun w => !w.2.isEmpty) })
  | .applyMutation m =>
      match localTimestamp x.lite3 (e.store.get x (metaKey m.key) adminUid) with
      | none => some (e.clock, .refused .threw)
      | some localTs =>
          if m.timestamp ≤ localTs then some (e.clock, .refused .done)
          else
            match mutationPlan x unspecified m with
            | none => some (e.clock, .refused .threw)
            | some plan => some (e.clock, .accepted plan)

/-- The plan the call is going to carry out, if it gets that far. -/
def planOf (unspecified : Nat → Nat → UInt8) (e : Engine) (c : Call) : Option Plan :=
  (e.prepare x unspecified c).bind fun p => p.2.plan?

def enqueue (e : Engine) (shard : Fin 8) (task : List ShardOp) : Engine :=
  { e with queues := Function.update e.queues shard (e.queues shard ++ [task]) }

/-- The thread of a shard runs everything that is in its queue. -/
def drain (e : Engine) (shard : Fin 8) : Engine :=
  { e with
    store := (e.queues shard).foldl (fun st task => (st.runTask x task).1) e.store
    queues := Function.update e.queues shard [] }

/-- Log, then work. A waiting caller goes on when the thread of the shard has come to its
task, which is the last one in the queue. -/
def commit (e : Engine) (result : CallResult) (plan : Plan) : Engine × CallResult :=
  let e := { e with wal := e.wal.appendBatch plan.logged }
  match plan.work with
  | .wait shard task =>
      let before := e.drain x shard
      let ran := before.store.runTask x task
      ({ before with store := ran.1 }, if ran.2 then result else .threw)
  | .async tasks => (tasks.foldl (fun e w => e.enqueue w.1 w.2) e, result)
  | .direct ops =>
      let ran := e.store.runTask x ops
      ({ e with store := ran.1 }, if ran.2 then result else .threw)

/-- What a call that goes through returns. -/
def successOf : Call → CallResult
  | .del .. => .deleted true
  | _ => .done

/-- A call that runs from start to end on its own. -/
def call (unspecified : Nat → Nat → UInt8) (e : Engine) (c : Call) : Option (Engine × CallResult) :=
  (e.prepare x unspecified c).map fun p =>
    match p.2 with
    | .refused result => ({ e with clock := p.1 }, result)
    | .accepted plan => commit x { e with clock := p.1 } (successOf c) plan

/-- Calls one thread makes one after the other; `none` if one of them is still blocked. -/
def runCalls (unspecified : Nat → Nat → UInt8) (e : Engine) : List Call → Option Engine
  | [] => some e
  | c :: calls => (e.call x unspecified c).bind fun r => runCalls unspecified r.1 calls

/-- `Engine(wal_path, node_id)` on a file with these bytes. -/
def openOn (nodeId : UInt32) (file : Bytes) : Engine :=
  let recovered := (LogFile.openAt file).recover
  { store := recovered.1.foldl (Store.replay x) (Store.init x)
    queues := fun _ => []
    clock := HybridLogicalClock.init nodeId
    wal := recovered.2 }

end

end Engine

section

variable {x : External} {unspecified : Nat → Nat → UInt8}

theorem Engine.runCalls_append (e : Engine) (calls more : List Call) :
    e.runCalls x unspecified (calls ++ more) =
      (e.runCalls x unspecified calls).bind fun e' => e'.runCalls x unspecified more := by
  induction calls generalizing e with
  | nil => rfl
  | cons c calls ih =>
      cases hcall : e.call x unspecified c with
      | none => simp [runCalls, hcall]
      | some r => simp [runCalls, hcall, ih]

theorem Engine.planOf_eq_some {e : Engine} {c : Call} {plan : Plan} :
    e.planOf x unspecified c = some plan ↔
      ∃ clock, e.prepare x unspecified c = some (clock, .accepted plan) := by
  unfold planOf
  match e.prepare x unspecified c with
  | none => simp
  | some (clock, .refused result) => simp [Outcome.plan?]
  | some (clock, .accepted plan') => simp [Outcome.plan?]

theorem Engine.stamped_accepted {clock clock' : HybridLogicalClock} {readings : List Int64}
    {planOf : Timestamp → Option Plan} {plan : Plan}
    (h : Engine.stamped clock readings planOf = some (clock', .accepted plan)) :
    ∃ ts, clock.now readings = some (ts, clock') ∧ planOf ts = some plan := by
  obtain ⟨stamp, hnow, h⟩ := Option.map_eq_some_iff.mp h
  split at h
  · cases h
  · rename_i hplan
    cases h
    exact ⟨stamp.1, hnow, hplan⟩

private theorem resolve_live (op op' : WalOp) (a b c d : Bytes) :
    let h := (((StringHeap.empty.alloc a).alloc b).alloc c).alloc d
    [ViewOp.mk op (h.view 0) (h.view 1), ViewOp.mk op' (h.view 2) (h.view 3)].map
      (ViewOp.resolve unspecified h) = [⟨op, a, b⟩, ⟨op', c, d⟩] := by
  simp [ViewOp.resolve, StringHeap.read, StringHeap.view, StringHeap.alloc, StringHeap.empty]

theorem putPlan_spec {key body : Bytes} {ts : Timestamp} {plan : Plan}
    (h : putPlan x unspecified key body ts = some plan) :
    ∃ metaVal, metaObject x.lite3 ts false = some metaVal ∧
      plan.work = .wait (routingShard x.xxh3 (x.movedFrom key))
        [.put key body, .put (metaKey key) metaVal] ∧
      plan.logged = plan.work.ops.map ShardOp.logEntry := by
  obtain ⟨metaVal, hmeta, hplan⟩ := Option.bind_eq_some_iff.mp h
  cases hplan
  exact ⟨metaVal, hmeta, rfl, resolve_live _ _ _ _ _ _⟩

theorem delPlan_spec {key : Bytes} {ts : Timestamp} {plan : Plan}
    (h : delPlan x unspecified key ts = some plan) :
    ∃ metaVal, metaObject x.lite3 ts true = some metaVal ∧
      plan.work = .wait (routingShard x.xxh3 key) [.del key, .put (metaKey key) metaVal] ∧
      plan.logged = plan.work.ops.map ShardOp.logEntry := by
  obtain ⟨metaVal, hmeta, hplan⟩ := Option.bind_eq_some_iff.mp h
  cases hplan
  exact ⟨metaVal, hmeta, rfl, resolve_live _ _ _ _ _ _⟩

theorem patchPlan_logged (o : ShardOp) (field : Bytes) (ts : Timestamp) :
    (patchPlan x unspecified o field ts).logged =
      (patchPlan x unspecified o field ts).work.ops.map ShardOp.logEntry := by
  refine (resolve_live _ _ _ _ _ _).trans ?_
  cases o <;> rfl

/-- The operation on the key itself that an accepted mutation applies. -/
def Mutation.shardOp (m : Mutation) : ShardOp :=
  if m.isDelete then .del m.key else .put m.key m.value

/-- What an accepted mutation applies, and what it logs: of a put, the value it logs is read
through a view that has outlived its string. -/
theorem mutationPlan_spec {m : Mutation} {plan : Plan}
    (h : mutationPlan x unspecified m = some plan) :
    ∃ metaVal, metaObject x.lite3 m.timestamp m.isDelete = some metaVal ∧
      plan.work = .direct [m.shardOp, .put (metaKey m.key) metaVal] ∧
      plan.logged = [{ m.shardOp.logEntry with
          value := if m.isDelete then [] else (List.range m.value.length).map (unspecified 4) },
        ⟨WalOp.put, metaKey m.key, metaVal⟩] := by
  obtain ⟨metaVal, hmeta, hplan⟩ := Option.bind_eq_some_iff.mp h
  cases hplan
  refine ⟨metaVal, hmeta, rfl, ?_⟩
  cases hdel : m.isDelete <;>
    simp [Mutation.shardOp, hdel, ViewOp.resolve, StringHeap.read, StringHeap.view,
      StringHeap.alloc, StringHeap.empty, StringHeap.closeBlock, StringHeap.size, ShardOp.logEntry]

/-- How a call comes to its plan, and what it does to the clock on the way. -/
inductive Engine.Prepares (x : External) (unspecified : Nat → Nat → UInt8) (e : Engine) :
    Call → HybridLogicalClock → Plan → Prop
  | put (key body : Bytes) (principal : UInt32) (readings : List Int64) {metaVal : Bytes}
      {ts : Timestamp} {clock : HybridLogicalClock} {plan : Plan}
      (allowed : (e.store.credentials.checkPermission principal key).canWrite = true)
      (now : e.clock.now readings = some (ts, clock))
      (sidecar : metaObject x.lite3 ts false = some metaVal)
      (work : plan.work = .wait (routingShard x.xxh3 (x.movedFrom key))
        [.put key body, .put (metaKey key) metaVal])
      (logged : plan.logged = plan.work.ops.map ShardOp.logEntry) :
      Prepares x unspecified e (.put key body principal readings) clock plan
  | del (key : Bytes) (principal : UInt32) (readings : List Int64) {metaVal : Bytes}
      {ts : Timestamp} {clock : HybridLogicalClock} {plan : Plan}
      (allowed : (e.store.credentials.checkPermission principal key).canWrite = true)
      (now : e.clock.now readings = some (ts, clock))
      (sidecar : metaObject x.lite3 ts true = some metaVal)
      (work : plan.work = .wait (routingShard x.xxh3 key) [.del key, .put (metaKey key) metaVal])
      (logged : plan.logged = plan.work.ops.map ShardOp.logEntry) :
      Prepares x unspecified e (.del key principal readings) clock plan
  | patchInt (key field : Bytes) (value : Int64) (readings : List Int64) {ts : Timestamp}
      {clock : HybridLogicalClock} (now : e.clock.now readings = some (ts, clock)) :
      Prepares x unspecified e (.patchInt key field value readings) clock
        (patchPlan x unspecified (.patchInt key field value) field ts)
  | patchStr (key field value : Bytes) (readings : List Int64) {ts : Timestamp}
      {clock : HybridLogicalClock} (now : e.clock.now readings = some (ts, clock)) :
      Prepares x unspecified e (.patchStr key field value readings) clock
        (patchPlan x unspecified (.patchStr key field value) field ts)
  | batchPut (batch : Bytes) (principal : UInt32) (readings : List (List Int64)) (s : BatchState)
      (loop : batchLoop x e.store.credentials principal batch (x.lite3.keys batch) readings
        (BatchState.init e.clock) = some (.ok s)) (nonempty : s.views ≠ []) :
      Prepares x unspecified e (.batchPut batch principal readings) s.clock
        ⟨s.views.map (ViewOp.resolve unspecified s.heap),
          .async (((List.finRange 8).map fun i => (i, s.works i)).filter fun w => !w.2.isEmpty)⟩
  | applyMutation (m : Mutation) {localTs : Timestamp} {plan : Plan}
      (stored : localTimestamp x.lite3 (e.store.get x (metaKey m.key) adminUid) = some localTs)
      (newer : localTs < m.timestamp) (planned : mutationPlan x unspecified m = some plan) :
      Prepares x unspecified e (.applyMutation m) e.clock plan

theorem Engine.prepare_sound {e : Engine} {call : Call} {clock : HybridLogicalClock} {plan : Plan}
    (h : e.prepare x unspecified call = some (clock, .accepted plan)) :
    e.Prepares x unspecified call clock plan := by
  cases call with
  | put key body principal readings =>
      simp only [prepare] at h
      split at h
      · rename_i hcan
        obtain ⟨ts, hnow, hplan⟩ := stamped_accepted h
        obtain ⟨metaVal, hmeta, hwork, hlogged⟩ := putPlan_spec hplan
        exact .put _ _ _ _ hcan hnow hmeta hwork hlogged
      · cases h
  | del key principal readings =>
      simp only [prepare] at h
      split at h
      · rename_i hcan
        obtain ⟨ts, hnow, hplan⟩ := stamped_accepted h
        obtain ⟨metaVal, hmeta, hwork, hlogged⟩ := delPlan_spec hplan
        exact .del _ _ _ hcan hnow hmeta hwork hlogged
      · cases h
  | patchInt key field value readings =>
      simp only [prepare] at h
      obtain ⟨ts, hnow, hplan⟩ := stamped_accepted h
      cases hplan
      exact .patchInt _ _ _ _ hnow
  | patchStr key field value readings =>
      simp only [prepare] at h
      obtain ⟨ts, hnow, hplan⟩ := stamped_accepted h
      cases hplan
      exact .patchStr _ _ _ _ hnow
  | batchPut batch principal readings =>
      simp only [prepare, Option.map_eq_some_iff] at h
      obtain ⟨result, hloop, h⟩ := h
      cases result with
      | error _ => simp at h
      | ok s =>
          dsimp only at h
          split at h
          · simp at h
          · rename_i hviews
            cases h
            exact .batchPut _ _ _ s hloop (by simpa using hviews)
  | applyMutation m =>
      simp only [prepare] at h
      split at h
      · simp at h
      · rename_i localTs hlocal
        split at h
        · simp at h
        · rename_i hstale
          split at h
          · simp at h
          · rename_i hplan
            cases h
            exact .applyMutation m hlocal (not_le.mp hstale) hplan

theorem Engine.prepare_put {e : Engine} {key body : Bytes} {principal : UInt32}
    {readings : List Int64} {clock : HybridLogicalClock} {plan : Plan}
    (h : e.prepare x unspecified (.put key body principal readings) =
      some (clock, .accepted plan)) :
    ∃ ts metaVal, e.clock.now readings = some (ts, clock) ∧
      metaObject x.lite3 ts false = some metaVal ∧
      plan.work = .wait (routingShard x.xxh3 (x.movedFrom key))
        [.put key body, .put (metaKey key) metaVal] ∧
      plan.logged = plan.work.ops.map ShardOp.logEntry := by
  cases prepare_sound h with
  | put _ _ _ _ _ hnow hmeta hwork hlogged => exact ⟨_, _, hnow, hmeta, hwork, hlogged⟩

end

end L3KV
