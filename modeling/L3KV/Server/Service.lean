import L3KV.Engine.Batches
import L3KV.Engine.Pending
import L3KV.Server.Zmq

/-!
# The front end at work

The loop of the front end takes one message at a time, and does not look at the next one before the
call it makes has returned. The threads of the shards go on all the while, so that what `batch_put`
has queued is applied while later messages are served. An event is one lock-protected step of the
loop or of a shard. The loop is the only producer, so a shard dequeues its tasks in order.
-/

namespace L3KV

open Framework

inductive Reply where
  | text (bytes : Bytes)
  /-- The object `batch_get` has built, by the fields that were set. -/
  | object (fields : List (Bytes × Lite3Type × Bytes))
  deriving DecidableEq

/-- Where the loop stands in its turn. -/
inductive Turn where
  | receiving
  /-- `get` has passed its check and is about to look at the key. -/
  | reading (identity key : Bytes)
  /-- `batch_get` is about to check the first of these keys. -/
  | collecting (identity : Bytes) (principal : UInt32) (keys : List Bytes)
      (fields : List (Bytes × Lite3Type × Bytes))
  /-- `batch_get` has checked this key and is about to look at it. -/
  | looking (identity : Bytes) (principal : UInt32) (key : Bytes) (keys : List Bytes)
      (fields : List (Bytes × Lite3Type × Bytes))
  /-- A writing call is under way. -/
  | calling (identity : Bytes)
  deriving DecidableEq

/-- The sender of the message the turn is about. -/
def Turn.identity? : Turn → Option Bytes
  | .receiving => none
  | .reading identity _ => some identity
  | .collecting identity _ _ _ => some identity
  | .looking identity _ _ _ _ => some identity
  | .calling identity => some identity

abbrev loopThread : Nat := 0

/-- The writing call a request stands for. -/
def Request.call? (principal : UInt32) (readings : List (List Int64)) : Request → Option Call
  | .get _ => none
  | .batchGet _ => none
  | .put key value => some (.put key value principal (readings.headD []))
  | .del key => some (.del key principal (readings.headD []))
  | .batchPut batch => some (.batchPut batch principal readings)

/-- The keys the request writes, apart from their sidecars. -/
def Request.written (l : Lite3) : Request → List Bytes
  | .put key _ => [key]
  | .del key => [key]
  | .batchPut batch => l.keys batch
  | _ => []

/-- What is sent when a call has ended without a plan. The exceptions of `put` and `batch_put` are
caught around the call; one of `del` reaches the end of the turn, and nothing is sent. -/
def Call.refusal : Call → CallResult → Option Bytes
  | .del .., .deleted false => some (ascii "ERR_FORBIDDEN")
  | .del .., .deleted true => some (ascii "OK")
  | .del .., _ => none
  | _, .done => some (ascii "OK")
  | _, _ => some (ascii "ERR_FORBIDDEN")

structure Service where
  server : ZmqServer
  machine : Machine
  turn : Turn
  /-- What has been sent, with the identity it was sent to. -/
  sent : List (Bytes × Reply)

inductive ServiceEvent where
  /-- A message is taken from the socket. The readings are those of the calls of `now` it leads to. -/
  | receive (msg : List Bytes) (readings : List (List Int64))
  /-- The next check or look of a reading call. -/
  | read
  /-- The writing call appends its batch to the log. -/
  | append
  /-- The writing call goes on after it has logged. -/
  | work
  | shard (shard : Fin 8)
  /-- The writing call has returned. -/
  | answer

namespace Service

/-- A server that has just been started on an engine. -/
def init (secret : Bytes) (e : Engine) : Service :=
  ⟨ZmqServer.init secret, Machine.ofEngine e, .receiving, []⟩

/-- The turn ends with this message to the sender. -/
def reply (s : Service) (identity : Bytes) (reply : Reply) : Service :=
  { s with turn := .receiving, sent := s.sent ++ [(identity, reply)] }

section

variable (x : External) (u : Nat → Nat → UInt8)

/-- A writing call up to its plan; `none` while it waits for the clock. -/
def write (s : Service) (identity : Bytes) (call : Call) : Option Service :=
  match s.machine.engine.prepare x u call with
  | none => none
  | some (_, .accepted _) =>
      (s.machine.step x u (.start loopThread call)).map fun m =>
        { s with machine := m, turn := .calling identity }
  | some (_, .refused result) =>
      (s.machine.step x u (.refuse loopThread call)).map fun m =>
        match call.refusal result with
        | none => { s with machine := m }
        | some text => { s with machine := m }.reply identity (.text text)

/-- The branch of the opcode. -/
def serve (s : Service) (identity : Bytes) (principal : UInt32) (readings : List (List Int64))
    (request : Request) : Option Service :=
  match request.call? principal readings with
  | some call => s.write x u identity call
  | none =>
      match request with
      | .get key =>
          if (s.machine.store.credentials.checkPermission principal key).canRead then
            some { s with turn := .reading identity key }
          else some (s.reply identity (.text []))
      | .batchGet keys => some { s with turn := .collecting identity principal keys [] }
      | _ => none

def receive (s : Service) (msg : List Bytes) (readings : List (List Int64)) : Option Service :=
  let identity := ZmqServer.identityOf msg
  let turn := s.server.handle msg
  let s := { s with server := turn.1 }
  match turn.2 with
  | .drop => some s
  | .reply text => some (s.reply identity (.text text))
  | .call request principal => s.serve x u identity principal readings request
  -- A frame that is not there is read: nothing is said about what follows.
  | .undefined => none

/-- The next step of `get` or `batch_get`. Behind the check a key is read as for the administrator. -/
def read (s : Service) : Option Service :=
  let store := s.machine.store
  match s.turn with
  | .reading identity key => some (s.reply identity (.text (store.get x key adminUid)))
  | .collecting identity _ [] fields => some (s.reply identity (.object fields))
  | .collecting identity principal (key :: keys) fields =>
      if (store.credentials.checkPermission principal key).canRead then
        some { s with turn := .looking identity principal key keys fields }
      else some { s with turn := .collecting identity principal keys fields }
  | .looking identity principal key keys fields =>
      let field := (store.find x key).map fun b =>
        (key, if b.compressed then Lite3Type.string else .bytes, b.read x.zstd store.zstd)
      some { s with turn := .collecting identity principal keys (fields ++ field.toList) }
  | _ => none

def step (s : Service) : ServiceEvent → Option Service
  | .receive msg readings =>
      match s.turn with
      | .receiving => s.receive x u msg readings
      | _ => none
  | .read => s.read x
  | .append => (s.machine.step x u (.append loopThread)).map fun m => { s with machine := m }
  | .work => (s.machine.step x u (.work loopThread)).map fun m => { s with machine := m }
  | .shard i => (s.machine.step x u (.shard i)).map fun m => { s with machine := m }
  | .answer =>
      match s.turn, s.machine.phase loopThread with
      -- Nothing of a `put`, a `del` or a `batch_put` throws in a shard, and `apply_del` returns true.
      | .calling identity, .idle => some (s.reply identity (.text (ascii "OK")))
      | _, _ => none

def run (s : Service) (events : List ServiceEvent) : Option Service := events.foldlM (step x u) s

end

end Service

/-- What a step of the service does to the engine: nothing, the beginning of a call that a message
asks for, or a step of what has begun. -/
inductive Service.Drives (x : External) (u : Nat → Nat → UInt8) (s : Service) :
    ServiceEvent → Machine → Prop
  | none {event : ServiceEvent} : Drives x u s event s.machine
  | start {msg : List Bytes} {readings : List (List Int64)} {request : Request} {principal : UInt32}
      {call : Call} {m : Machine} (handled : (s.server.handle msg).2 = .call request principal)
      (called : request.call? principal readings = some call)
      (stepped : s.machine.step x u (.start loopThread call) = some m) :
      Drives x u s (.receive msg readings) m
  | engine {event : ServiceEvent} {e : Event} {m : Machine} (stepped : s.machine.step x u e = some m)
      (begun : ∀ t call, e ≠ .start t call) (goesOn : e ≠ .restart) : Drives x u s event m

namespace Service

section

variable {x : External} {u : Nat → Nat → UInt8} {s s' : Service}

@[simp] theorem reply_machine (s : Service) (identity : Bytes) (r : Reply) :
    (s.reply identity r).machine = s.machine := rfl

@[simp] theorem reply_server (s : Service) (identity : Bytes) (r : Reply) :
    (s.reply identity r).server = s.server := rfl

theorem write_cases {identity : Bytes} {call : Call} (h : s.write x u identity call = some s') :
    (∃ clock plan, s.machine.engine.prepare x u call = some (clock, .accepted plan) ∧
        s.machine.step x u (.start loopThread call) = some s'.machine ∧
        s' = { s with machine := s'.machine, turn := .calling identity }) ∨
      ∃ clock result, s.machine.engine.prepare x u call = some (clock, .refused result) ∧
        s.machine.step x u (.refuse loopThread call) = some s'.machine ∧
        s' = (call.refusal result).elim { s with machine := s'.machine } fun text =>
          { s with machine := s'.machine }.reply identity (.text text) := by
  unfold write at h
  split at h
  · cases h
  · rename_i clock plan hprep
    obtain ⟨m, hm, rfl⟩ := Option.map_eq_some_iff.mp h
    exact Or.inl ⟨clock, plan, hprep, hm, rfl⟩
  · rename_i clock result hprep
    obtain ⟨m, hm, rfl⟩ := Option.map_eq_some_iff.mp h
    right
    refine ⟨clock, result, hprep, ?_, ?_⟩ <;> cases call.refusal result
    · exact hm
    · exact hm
    · rfl
    · rfl

private theorem serve_server {identity : Bytes} {principal : UInt32} {readings : List (List Int64)}
    {request : Request} (h : s.serve x u identity principal readings request = some s') :
    s'.server = s.server := by
  unfold serve at h
  split at h
  · rcases write_cases h with ⟨_, _, -, -, hs⟩ | ⟨_, result, -, -, hs⟩
    · rw [hs]
    · rw [hs]
      cases Call.refusal _ result <;> rfl
  · split at h
    · split at h <;> cases h <;> rfl
    · cases h
      rfl
    · cases h

theorem step_server {event : ServiceEvent} (h : s.step x u event = some s') :
    s'.server = s.server ∨
      ∃ msg readings, event = .receive msg readings ∧ s'.server = (s.server.handle msg).1 ∧
        (s.server.handle msg).2 ≠ .undefined := by
  cases event with
  | receive msg readings =>
      simp only [step] at h
      split at h
      · right
        refine ⟨msg, readings, rfl, ?_⟩
        unfold receive at h
        dsimp only at h
        split at h
        · rename_i haction
          cases h
          exact ⟨rfl, by rw [haction]; simp⟩
        · rename_i haction
          cases h
          exact ⟨rfl, by rw [haction]; simp⟩
        · rename_i haction
          exact ⟨serve_server h, by rw [haction]; simp⟩
        · cases h
      · cases h
  | read =>
      left
      simp only [step, read] at h
      split at h
      · cases h
        rfl
      · cases h
        rfl
      · split at h <;> cases h <;> rfl
      · cases h
        rfl
      · cases h
  | answer =>
      left
      simp only [step] at h
      split at h
      · cases h
        rfl
      · cases h
  | _ =>
      left
      obtain ⟨m, -, rfl⟩ := Option.map_eq_some_iff.mp h
      rfl

theorem step_drives {event : ServiceEvent} (h : s.step x u event = some s') :
    s.Drives x u event s'.machine := by
  cases event with
  | receive msg readings =>
      simp only [step] at h
      split at h
      · unfold receive at h
        dsimp only at h
        split at h
        · cases h
          exact .none
        · cases h
          exact .none
        · rename_i request principal haction
          unfold serve at h
          split at h
          · rename_i call hcall
            rcases write_cases h with ⟨_, _, -, hm, -⟩ | ⟨_, _, -, hm, -⟩
            · exact .start haction hcall hm
            · exact .engine hm (by simp) (by simp)
          · split at h
            · split at h <;> cases h <;> exact .none
            · cases h
              exact .none
            · cases h
        · cases h
      · cases h
  | read =>
      simp only [step, read] at h
      split at h
      · cases h
        exact .none
      · cases h
        exact .none
      · split at h <;> cases h <;> exact .none
      · cases h
        exact .none
      · cases h
  | append =>
      obtain ⟨m, hm, rfl⟩ := Option.map_eq_some_iff.mp h
      exact .engine hm (by simp) (by simp)
  | work =>
      obtain ⟨m, hm, rfl⟩ := Option.map_eq_some_iff.mp h
      exact .engine hm (by simp) (by simp)
  | shard i =>
      obtain ⟨m, hm, rfl⟩ := Option.map_eq_some_iff.mp h
      exact .engine hm (by simp) (by simp)
  | answer =>
      simp only [step] at h
      split at h
      · cases h
        exact .none
      · cases h

theorem step_owned {event : ServiceEvent} (h : s.machine.Owned)
    (hstep : s.step x u event = some s') :
    s'.machine.Owned := by
  have hdrives := step_drives hstep
  revert hdrives
  generalize s'.machine = m
  intro hdrives
  cases hdrives with
  | none => exact h
  | start _ _ hstart => exact h.step hstart
  | engine hengine => exact h.step hengine

end

end Service

/-- The operations of an accepted call of a request are on keys it may write, or on their sidecars. -/
theorem Request.planned_keys {x : External} {u : Nat → Nat → UInt8} {e : Engine} {request : Request}
    {principal : UInt32} {readings : List (List Int64)} {call : Call} {clock : HybridLogicalClock}
    {plan : Plan} (hcall : request.call? principal readings = some call)
    (hprep : e.prepare x u call = some (clock, .accepted plan)) {o : ShardOp}
    (ho : o ∈ plan.work.ops) :
    ∃ key ∈ request.written x.lite3,
      (e.store.credentials.checkPermission principal key).canWrite = true ∧
        (o.key = key ∨ o.key = metaKey key) := by
  cases request with
  | get key => cases hcall
  | batchGet keys => cases hcall
  | put key value =>
      cases hcall
      cases Engine.prepare_sound hprep with
      | put _ _ _ _ hcan _ _ hwork =>
          rw [hwork] at ho
          refine ⟨key, by simp [written], hcan, ?_⟩
          rcases List.mem_pair.mp ho with rfl | rfl
          · exact Or.inl rfl
          · exact Or.inr rfl
  | del key =>
      cases hcall
      cases Engine.prepare_sound hprep with
      | del _ _ _ hcan _ _ hwork =>
          rw [hwork] at ho
          refine ⟨key, by simp [written], hcan, ?_⟩
          rcases List.mem_pair.mp ho with rfl | rfl
          · exact Or.inl rfl
          · exact Or.inr rfl
  | batchPut batch =>
      cases hcall
      cases Engine.prepare_sound hprep with
      | batchPut _ _ _ state hloop =>
          obtain ⟨w, hw, ho⟩ := List.mem_flatMap.mp ho
          obtain ⟨i, -, rfl⟩ := List.mem_map.mp (List.mem_of_mem_filter hw)
          have hall := (batchLoop_outcome hloop).1
          cases (batch_works hloop i o ho).2 with
          | value hkey => exact ⟨_, hkey, hall _ hkey, Or.inl rfl⟩
          | sidecar hkey => exact ⟨_, hkey, hall _ hkey, Or.inr rfl⟩

end L3KV
