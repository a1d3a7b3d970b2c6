import L3KV.Engine.Calls
import L3KV.Log.Recover
import L3KV.Store.Reference

/-!
# Crash recovery of a run of writes

A sequential run of `put` and `del` leaves a log whose batches, replayed in order, rebuild
the store step by step. Cutting the file anywhere keeps the batches of some first part of the
run, so the store that recovery builds is one that the run went through.
-/

namespace L3KV

open Framework

/-- The calls of the theorem: `put` and `del`, of keys shorter than `2 ^ 16` bytes. -/
def Call.IsWrite : Call → Prop
  | .put key _ _ _ => key.length < 2 ^ 16
  | .del key _ _ => key.length < 2 ^ 16
  | _ => False

/-- Along the run, the payload of every batch that is logged fits in 32 bits. -/
def RecordsFit (x : External) (unspecified : Nat → Nat → UInt8) : Engine → List Call → Prop
  | _, [] => True
  | e, c :: calls =>
      (∀ plan ∈ e.planOf x unspecified c, batchPayloadSize plan.logged < 2 ^ 32) ∧
        ∀ r ∈ e.call x unspecified c, RecordsFit x unspecified r.1 calls

instance (x : External) (unspecified : Nat → Nat → UInt8) :
    (e : Engine) → (calls : List Call) → Decidable (RecordsFit x unspecified e calls)
  | _, [] => isTrue trivial
  | e, c :: calls =>
      have (r : Engine × CallResult) : Decidable (RecordsFit x unspecified r.1 calls) :=
        instDecidableRecordsFit x unspecified r.1 calls
      inferInstanceAs (Decidable (_ ∧ ∀ r ∈ e.call x unspecified c, _))

def batchCalls (batches : List (List BatchOp)) : List LogCall := batches.map LogCall.appendBatch

/-- The engine is what replaying these batches builds, its log holds exactly them, and no
task is pending. -/
structure Traced (x : External) (batches : List (List BatchOp)) (e : Engine) : Prop where
  store : e.store = batches.flatten.foldl (Store.replay x) (Store.init x)
  bytes : e.wal.bytes = (batchCalls batches).flatMap LogCall.bytes
  atEnd : e.wal.AtEnd
  fits : ∀ b ∈ batches, BatchFits b
  idle : ∀ shard, e.queues shard = []

section

variable {x : External} {unspecified : Nat → Nat → UInt8}

theorem traced_openOn_nil (nodeId : UInt32) : Traced x [] (Engine.openOn x nodeId []) := by
  refine ⟨?_, ?_, ?_, by simp, fun _ => rfl⟩ <;>
    simp [Engine.openOn, LogFile.recover, LogFile.openAt, batchCalls, LogFile.AtEnd]

private theorem runTask_replay {task : List ShardOp}
    (htask : ∀ o ∈ task, (∃ key body, o = .put key body) ∨ ∃ key, o = .del key) (st : Store) :
    st.runTask x task = ((task.map ShardOp.logEntry).foldl (Store.replay x) st, true) := by
  induction task generalizing st with
  | nil => rfl
  | cons o task ih =>
      have hrest : ∀ p ∈ task, (∃ key body, p = .put key body) ∨ ∃ key, p = .del key :=
        fun p hp => htask p (by simp [hp])
      rcases htask o (by simp) with ⟨key, body, rfl⟩ | ⟨key, rfl⟩
      · rw [Store.runTask, Store.apply]
        simpa [Store.replay_put] using ih hrest (st.applyPut x key body)
      · rw [Store.runTask, Store.apply]
        simpa [Store.replay_del] using ih hrest (st.applyDel x key)

theorem Traced.commit {batches : List (List BatchOp)} {e : Engine} (h : Traced x batches e)
    {plan : Plan} {shard : Fin 8} {task : List ShardOp} (hwork : plan.work = .wait shard task)
    (htask : ∀ o ∈ task, (∃ key body, o = .put key body) ∨ ∃ key, o = .del key)
    (hlogged : plan.logged = plan.work.ops.map ShardOp.logEntry) (hfits : BatchFits plan.logged)
    (result : CallResult) : Traced x (batches ++ [plan.logged]) (e.commit x result plan).1 := by
  have hrun := LogCall.run_bytes h.atEnd (.appendBatch plan.logged)
  have hstore : (e.commit x result plan).1.store =
      (task.map ShardOp.logEntry).foldl (Store.replay x) e.store := by
    simp [Engine.commit, hwork, Engine.drain, h.idle shard, runTask_replay htask]
  have hwal : (e.commit x result plan).1.wal = LogCall.run e.wal (.appendBatch plan.logged) := by
    simp [Engine.commit, hwork, Engine.drain, LogCall.run]
  refine ⟨?_, ?_, ?_, ?_, ?_⟩
  · rw [hstore, h.store, List.flatten_append, List.foldl_append, hlogged, hwork]
    simp [Work.ops]
  · rw [hwal, hrun.1, h.bytes]
    simp [batchCalls]
  · rw [hwal]
    exact hrun.2
  · intro b hb
    rcases List.mem_append.mp hb with hb | hb
    · exact h.fits b hb
    · rw [List.mem_singleton.mp hb]
      exact hfits
  · intro i
    by_cases hi : i = shard
    · subst hi
      simp [Engine.commit, hwork, Engine.drain]
    · simp [Engine.commit, hwork, Engine.drain, hi, h.idle i]

theorem Traced.clock {batches : List (List BatchOp)} {e : Engine} (h : Traced x batches e)
    (clock : HybridLogicalClock) : Traced x batches { e with clock := clock } :=
  ⟨h.store, h.bytes, h.atEnd, h.fits, h.idle⟩

theorem Call.IsWrite.plan {c : Call} (hc : c.IsWrite) {e : Engine} {clock : HybridLogicalClock}
    {plan : Plan} (h : e.prepare x unspecified c = some (clock, .accepted plan)) :
    ∃ shard task, plan.work = .wait shard task ∧
      (∀ o ∈ task, (∃ key body, o = .put key body) ∨ ∃ key, o = .del key) ∧
      plan.logged = plan.work.ops.map ShardOp.logEntry ∧
      ∀ o ∈ plan.logged, o.key.length < 2 ^ 16 := by
  have hmkey (key : Bytes) : (metaKey key).length < 2 ^ 16 :=
    lt_trans (metaKey_length_lt key) (by decide)
  cases Engine.prepare_sound h with
  | put key _ _ _ _ _ _ hwork hlogged =>
      refine ⟨_, _, hwork, by simp, hlogged, ?_⟩
      rw [hlogged, hwork]
      simpa [Work.ops, ShardOp.logEntry] using ⟨hc, hmkey key⟩
  | del key _ _ _ _ _ hwork hlogged =>
      refine ⟨_, _, hwork, by simp, hlogged, ?_⟩
      rw [hlogged, hwork]
      simpa [Work.ops, ShardOp.logEntry] using ⟨hc, hmkey key⟩
  | _ => cases hc

theorem Traced.call {batches : List (List BatchOp)} {e : Engine} (h : Traced x batches e)
    {c : Call} (hc : c.IsWrite)
    (hfits : ∀ plan ∈ e.planOf x unspecified c, batchPayloadSize plan.logged < 2 ^ 32)
    {r : Engine × CallResult} (hcall : e.call x unspecified c = some r) :
    Traced x batches r.1 ∨ ∃ b, Traced x (batches ++ [b]) r.1 := by
  obtain ⟨⟨clock, outcome⟩, hprep, rfl⟩ := Option.map_eq_some_iff.mp hcall
  match outcome with
  | .refused result => exact Or.inl (h.clock clock)
  | .accepted plan =>
      obtain ⟨shard, task, hwork, htask, hlogged, hkeys⟩ := hc.plan hprep
      have hbatch : BatchFits plan.logged := ⟨hkeys, hfits plan (Engine.planOf_eq_some.mpr ⟨clock, hprep⟩)⟩
      exact Or.inr ⟨_, (h.clock clock).commit hwork htask hlogged hbatch _⟩

/-- A run of calls extends the trace, and every first part of the extension is the trace of a
first part of the calls. -/
theorem Traced.runCalls {batches : List (List BatchOp)} {e e' : Engine} (h : Traced x batches e)
    {calls : List Call} (hcalls : ∀ c ∈ calls, c.IsWrite)
    (hfits : RecordsFit x unspecified e calls)
    (hrun : e.runCalls x unspecified calls = some e') :
    ∃ more, Traced x (batches ++ more) e' ∧ ∀ k ≤ more.length, ∃ j ≤ calls.length, ∃ ej,
      e.runCalls x unspecified (calls.take j) = some ej ∧ Traced x (batches ++ more.take k) ej := by
  induction calls generalizing batches e with
  | nil =>
      cases hrun
      refine ⟨[], by simpa using h, fun k _ => ⟨0, le_refl _, e', rfl, ?_⟩⟩
      simpa using h
  | cons c calls ih =>
      obtain ⟨r, hcall, hrest⟩ := Option.bind_eq_some_iff.mp hrun
      have hstep := h.call (hcalls c (by simp)) hfits.1 hcall
      have htail : ∀ d ∈ calls, d.IsWrite := fun d hd => hcalls d (by simp [hd])
      have hcons (j : Nat) : e.runCalls x unspecified ((c :: calls).take (j + 1)) =
          r.1.runCalls x unspecified (calls.take j) := by
        simp [Engine.runCalls, hcall]
      rcases hstep with hsame | ⟨b, hadded⟩
      · obtain ⟨more, hmore, hparts⟩ := ih hsame htail (hfits.2 r hcall) hrest
        refine ⟨more, hmore, fun k hk => ?_⟩
        obtain ⟨j, hj, ej, hej, htraced⟩ := hparts k hk
        exact ⟨j + 1, by simpa using hj, ej, (hcons j).trans hej, htraced⟩
      · obtain ⟨more, hmore, hparts⟩ := ih hadded htail (hfits.2 r hcall) hrest
        refine ⟨b :: more, by simpa using hmore, fun k hk => ?_⟩
        cases k with
        | zero => exact ⟨0, Nat.zero_le _, e, rfl, by simpa using h⟩
        | succ k =>
            obtain ⟨j, hj, ej, hej, htraced⟩ := hparts k (by simpa using hk)
            exact ⟨j + 1, by simpa using hj, ej, (hcons j).trans hej, by simpa using htraced⟩

theorem batchCalls_fits {batches : List (List BatchOp)} (h : ∀ b ∈ batches, BatchFits b) :
    ∀ c ∈ batchCalls batches, c.Fits := by
  intro c hc
  obtain ⟨b, hb, rfl⟩ := List.mem_map.mp hc
  exact h b hb

theorem batchCalls_logged (batches : List (List BatchOp)) :
    (batchCalls batches).flatMap LogCall.logged = batches.flatten := by
  simp [batchCalls, List.flatMap_map, LogCall.logged, List.flatMap_id']

theorem openOn_store {batches : List (List BatchOp)} (hfits : ∀ b ∈ batches, BatchFits b)
    {tail : Bytes} (htail : logFormat.Stops tail) (nodeId : UInt32) {file : Bytes}
    (hfile : file = (batchCalls batches).flatMap LogCall.bytes ++ tail) :
    (Engine.openOn x nodeId file).store =
      batches.flatten.foldl (Store.replay x) (Store.init x) := by
  have hrecover := LogFile.recover_calls (batchCalls batches) (batchCalls_fits hfits) htail
    (LogFile.openAt file) hfile rfl
  simp only [Engine.openOn, hrecover.1, batchCalls_logged]

theorem wholeCalls_batchCalls (n : Nat) (batches : List (List BatchOp)) :
    ∃ k ≤ batches.length, wholeCalls n (batchCalls batches) = batchCalls (batches.take k) := by
  induction batches generalizing n with
  | nil => exact ⟨0, le_refl _, rfl⟩
  | cons b batches ih =>
      simp only [batchCalls, List.map_cons, wholeCalls]
      split
      · obtain ⟨k, hk, heq⟩ := ih (n - (LogCall.appendBatch b).bytes.length)
        refine ⟨k + 1, by simpa using hk, ?_⟩
        simp only [List.take_succ_cons, List.map_cons]
        rw [show batches.map LogCall.appendBatch = batchCalls batches from rfl, heq]
        rfl
      · exact ⟨0, Nat.zero_le _, rfl⟩

end

end L3KV
