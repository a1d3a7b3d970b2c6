import L3KV.Engine.Oversize

/-!
# Applying mutations in any order

`apply_mutation` is a last-writer-wins merge: whatever the order and however often each of them
is applied, a finite set of mutations leaves every key with the one of its mutations that has
the greatest timestamp.
-/

namespace L3KV

open Framework

/-- The entry a mutation leaves when it is accepted. -/
def Mutation.entry (l : Lite3) (m : Mutation) : Entry :=
  writtenEntry l m.timestamp m.value m.isDelete

/-- The state of a key after this mutation, or before any. -/
def Mutation.stateAfter (l : Lite3) : Option Mutation → Bytes × Option Timestamp × Bool
  | none => ([], some Timestamp.zero, false)
  | some m => ((m.entry l).value, some m.timestamp, m.isDelete)

section

variable {x : External} {entries : Bytes → Option Entry}

theorem Mutation.writeOps {l : Lite3} (m : Mutation) {metaVal : Bytes}
    (hmeta : metaObject l m.timestamp m.isDelete = some metaVal) :
    WriteOps l m.key (m.entry l) [m.shardOp, .put (metaKey m.key) metaVal] := by
  refine ⟨_, metaVal, rfl, ?_, ?_, hmeta⟩
  · unfold Mutation.shardOp
    split <;> rfl
  · unfold Mutation.shardOp Mutation.entry writtenEntry
    cases m.isDelete <;> rfl

private theorem commit_mutation {u : Nat → Nat → UInt8} {m : Mutation} {plan : Plan}
    (hplan : mutationPlan x u m = some plan) (e : Engine) (result : CallResult) :
    ∃ metaVal, metaObject x.lite3 m.timestamp m.isDelete = some metaVal ∧
      (e.commit x result plan).1 = { e with
        wal := e.wal.appendBatch plan.logged
        store := e.store.commitWrite x m.key m.value m.isDelete metaVal } := by
  obtain ⟨metaVal, hmeta, hwork, -⟩ := mutationPlan_spec hplan
  refine ⟨metaVal, hmeta, ?_⟩
  cases hdel : m.isDelete <;>
    simp [Engine.commit, hwork, Mutation.shardOp, hdel, Store.runTask, Store.apply,
      Store.commitWrite]

/-- What is left of an engine by `apply_mutation`: itself, or the engine with the write of a mutation
that is newer than the sidecar of its key. -/
inductive MutationOutcome (x : External) (e : Engine) (m : Mutation) : Engine → Prop
  | kept (stale : ∀ t,
        localTimestamp x.lite3 (e.store.get x (metaKey m.key) adminUid) = some t →
          t < m.timestamp → metaObject x.lite3 m.timestamp m.isDelete = none) :
      MutationOutcome x e m e
  | written {t : Timestamp} {metaVal : Bytes} {logged : List BatchOp}
      (stored : localTimestamp x.lite3 (e.store.get x (metaKey m.key) adminUid) = some t)
      (newer : t < m.timestamp)
      (sidecar : metaObject x.lite3 m.timestamp m.isDelete = some metaVal) (log : logged ≠ []) :
      MutationOutcome x e m ⟨e.store.commitWrite x m.key m.value m.isDelete metaVal, e.queues,
        e.clock, e.wal.appendBatch logged⟩

/-- `apply_mutation` does not wait for the clock. -/
theorem exists_call_applyMutation (u : Nat → Nat → UInt8) (e : Engine) (m : Mutation) :
    ∃ r, e.call x u (.applyMutation m) = some r ∧ MutationOutcome x e m r.1 := by
  rw [Engine.call, Engine.prepare]
  cases hlocal : localTimestamp x.lite3 (e.store.get x (metaKey m.key) adminUid) with
  | none =>
      refine ⟨_, rfl, .kept fun t ht => ?_⟩
      rw [hlocal] at ht
      cases ht
  | some t =>
      by_cases hstale : m.timestamp ≤ t
      · simp only [if_pos hstale]
        refine ⟨_, rfl, .kept fun t' ht' hnewer => ?_⟩
        rw [hlocal] at ht'
        cases ht'
        exact absurd hstale (not_le.mpr hnewer)
      · simp only [if_neg hstale]
        cases hplan : mutationPlan x u m with
        | none =>
            refine ⟨_, rfl, .kept fun _ _ _ => Option.eq_none_iff_forall_ne_some.mpr ?_⟩
            simpa [mutationPlan] using hplan
        | some plan =>
            obtain ⟨metaVal, hmeta, hcommit⟩ := commit_mutation hplan e
              (Engine.successOf (.applyMutation m))
            obtain ⟨_, _, -, hlogged⟩ := mutationPlan_spec hplan
            refine ⟨_, rfl, ?_⟩
            rw [show (e.commit x (Engine.successOf (.applyMutation m)) plan).1 = _ from hcommit]
            exact .written hlocal (not_le.mp hstale) hmeta (by rw [hlogged]; simp)

theorem MutationOutcome.of_call {u : Nat → Nat → UInt8} {e : Engine} {m : Mutation}
    {r : Engine × CallResult} (hr : e.call x u (.applyMutation m) = some r) :
    MutationOutcome x e m r.1 := by
  obtain ⟨r', hr', houtcome⟩ := exists_call_applyMutation u e m
  rw [hr] at hr'
  cases hr'
  exact houtcome

theorem call_applyMutation_newer (hx : x.Lawful) {e : Engine} (h : Represents x e.store entries)
    {m : Mutation} (hkey : UserKey m.key) (u : Nat → Nat → UInt8)
    (hnewer : registerStamp Entry.stamp Timestamp.zero (entries m.key) < m.timestamp) :
    ∃ metaVal wal, metaObject x.lite3 m.timestamp m.isDelete = some metaVal ∧
      (e.call x u (.applyMutation m)).map Prod.fst = some { e with
        wal := wal
        store := e.store.commitWrite x m.key m.value m.isDelete metaVal } := by
  have hlocal := (h.here m.key hkey).localTimestamp hx.lite3 hx.zstd hx.smallMeta
  obtain ⟨metaVal, hmeta, -⟩ := metaObject_reads hx.lite3 m.timestamp m.isDelete
  have hexists : ∃ plan, mutationPlan x u m = some plan := by
    simp [mutationPlan, hmeta]
  obtain ⟨plan, hplan⟩ := hexists
  obtain ⟨metaVal', hmeta', hcommit⟩ := commit_mutation hplan e CallResult.done
  refine ⟨metaVal', e.wal.appendBatch plan.logged, hmeta', ?_⟩
  rw [← hcommit]
  simp [Engine.call, Engine.prepare, hlocal, not_le.mpr hnewer, hplan, Engine.successOf]

theorem call_applyMutation_written (hx : x.Lawful) {e : Engine} (h : Represents x e.store entries)
    {m : Mutation} (hkey : UserKey m.key) (u : Nat → Nat → UInt8)
    (hnewer : registerStamp Entry.stamp Timestamp.zero (entries m.key) < m.timestamp) :
    ∃ r metaVal, e.call x u (.applyMutation m) = some r ∧
      r.1.store = e.store.commitWrite x m.key m.value m.isDelete metaVal ∧
      Represents x r.1.store (Function.update entries m.key (some (m.entry x.lite3))) := by
  obtain ⟨metaVal, wal, hmeta, hcall⟩ := call_applyMutation_newer hx h hkey u hnewer
  obtain ⟨r, hr, hfst⟩ := Option.map_eq_some_iff.mp hcall
  refine ⟨r, metaVal, hr, by rw [hfst], ?_⟩
  rw [hfst]
  exact h.commitWrite hx.lite3 hkey m.value m.isDelete hmeta

theorem call_applyMutation (hx : x.Lawful) {e : Engine} (h : Represents x e.store entries)
    {m : Mutation} (hkey : UserKey m.key) (u : Nat → Nat → UInt8) :
    ∃ r, e.call x u (.applyMutation m) = some r ∧ r.1.clock = e.clock ∧ r.1.queues = e.queues ∧
      Represents x r.1.store (Function.update entries m.key
        (mergeInto Entry.stamp Timestamp.zero (entries m.key) (m.entry x.lite3))) := by
  by_cases hnewer : registerStamp Entry.stamp Timestamp.zero (entries m.key) < m.timestamp
  · obtain ⟨metaVal, wal, hmeta, hcall⟩ := call_applyMutation_newer hx h hkey u hnewer
    obtain ⟨r, hr, hfst⟩ := Option.map_eq_some_iff.mp hcall
    have htake : mergeInto Entry.stamp Timestamp.zero (entries m.key) (m.entry x.lite3) =
        some (m.entry x.lite3) := if_pos hnewer
    refine ⟨r, hr, ?_, ?_, ?_⟩
    · rw [hfst]
    · rw [hfst]
    · rw [hfst, htake]
      exact h.commitWrite hx.lite3 hkey m.value m.isDelete hmeta
  · have hlocal := (h.here m.key hkey).localTimestamp hx.lite3 hx.zstd hx.smallMeta
    have hkeep : mergeInto Entry.stamp Timestamp.zero (entries m.key) (m.entry x.lite3) =
        entries m.key := if_neg hnewer
    refine ⟨(e, .done), ?_, rfl, rfl, ?_⟩
    · simp [Engine.call, Engine.prepare, hlocal, not_lt.mp hnewer]
    · rw [hkeep, Function.update_eq_self]
      exact h

def mergedEntry (l : Lite3) (ms : List Mutation) (r : Option Entry) (key : Bytes) : Option Entry :=
  mergeAll Entry.stamp Timestamp.zero r ((ms.filter fun m => m.key = key).map (Mutation.entry l))

theorem runCalls_mutations (hx : x.Lawful) {e : Engine} (h : Represents x e.store entries)
    (ms : List Mutation) (hkeys : ∀ m ∈ ms, UserKey m.key) (u : Nat → Nat → UInt8) :
    ∃ e', e.runCalls x u (ms.map .applyMutation) = some e' ∧
      Represents x e'.store fun key => mergedEntry x.lite3 ms (entries key) key := by
  induction ms generalizing e entries with
  | nil => exact ⟨e, rfl, h⟩
  | cons m ms ih =>
      obtain ⟨r, hcall, -, -, hstep⟩ := call_applyMutation hx h (hkeys m (by simp)) u
      obtain ⟨e', hrun, hrest⟩ := ih hstep fun m' hm' => hkeys m' (by simp [hm'])
      refine ⟨e', ?_, ?_⟩
      · simp [Engine.runCalls, hcall, hrun]
      · have hfun : (fun key => mergedEntry x.lite3 ms (Function.update entries m.key
            (mergeInto Entry.stamp Timestamp.zero (entries m.key) (m.entry x.lite3)) key) key) =
            fun key => mergedEntry x.lite3 (m :: ms) (entries key) key := by
          funext key
          by_cases hkey : m.key = key
          · subst hkey
            simp [mergedEntry, mergeAll]
          · have hne : key ≠ m.key := fun hh => hkey hh.symm
            simp [mergedEntry, hkey, hne]
        rw [← hfun]
        exact hrest

theorem runCalls_mutations_newer (hx : x.Lawful) {e e' : Engine} (h : Represents x e.store entries)
    {ms : List Mutation} (hkeys : ∀ m ∈ ms, UserKey m.key) {u : Nat → Nat → UInt8}
    (hrun : e.runCalls x u (ms.map .applyMutation) = some e') {m : Mutation} (hkey : UserKey m.key)
    (hnewer : registerStamp Entry.stamp Timestamp.zero
      (mergedEntry x.lite3 ms (entries m.key) m.key) < m.timestamp) :
    ∃ e'' metaVal, e.runCalls x u ((ms ++ [m]).map .applyMutation) = some e'' ∧
      e''.store = e'.store.commitWrite x m.key m.value m.isDelete metaVal := by
  obtain ⟨e₁, hrun₁, hrep⟩ := runCalls_mutations hx h ms hkeys u
  obtain rfl : e' = e₁ := Option.some.inj (hrun.symm.trans hrun₁)
  obtain ⟨metaVal, wal, -, hcall⟩ := call_applyMutation_newer hx hrep hkey u hnewer
  obtain ⟨r, hr, hfst⟩ := Option.map_eq_some_iff.mp hcall
  refine ⟨r.1, metaVal, ?_, by rw [hfst]⟩
  rw [List.map_append, Engine.runCalls_append, hrun]
  simp [Engine.runCalls, hr]

private theorem mergedEntry_none (l : Lite3) (ms : List Mutation) (key : Bytes) :
    mergedEntry l ms none key = (mergeAll Mutation.timestamp Timestamp.zero none
      (ms.filter fun m => m.key = key)).map (Mutation.entry l) :=
  mergeAll_map Entry.stamp Timestamp.zero (Mutation.entry l) none _

theorem exists_of_mergedEntry {l : Lite3} {ms : List Mutation} {key : Bytes} {r : Entry}
    (h : mergedEntry l ms none key = some r) : ∃ m ∈ ms, m.key = key ∧ r = m.entry l := by
  rw [mergedEntry_none] at h
  obtain ⟨m, hm, rfl⟩ := Option.map_eq_some_iff.mp h
  have hwin := mergeAll_isWinner Mutation.timestamp Timestamp.zero
    (ms.filter fun m => m.key = key)
  rw [hm] at hwin
  have hmem := List.mem_filter.mp hwin.1
  exact ⟨m, hmem.1, by simpa using hmem.2, rfl⟩

section

variable {ms ms' : List Mutation} (hsame : ∀ m, m ∈ ms ↔ m ∈ ms')
  (hstamps : ∀ m ∈ ms, ∀ m' ∈ ms, m.key = m'.key → m.timestamp = m'.timestamp → m = m')

include hsame hstamps

private theorem mergeAll_eq (key : Bytes) :
    mergeAll Mutation.timestamp Timestamp.zero none (ms.filter fun m => m.key = key) =
      mergeAll Mutation.timestamp Timestamp.zero none (ms'.filter fun m => m.key = key) := by
  apply IsWinner.eq (mergeAll_isWinner _ _ _) (mergeAll_isWinner _ _ _)
  · intro m
    simp [hsame m]
  · intro m hm m' hm' hts
    simp only [List.mem_filter, decide_eq_true_eq] at hm hm'
    exact hstamps m hm.1 m' hm'.1 (hm.2.trans hm'.2.symm) hts

theorem mergedEntry_eq (l : Lite3) :
    (fun key => mergedEntry l ms none key) = fun key => mergedEntry l ms' none key := by
  funext key
  rw [mergedEntry_none, mergedEntry_none, mergeAll_eq hsame hstamps key]

end

theorem Registered.stateOf_eq (hx : x.Lawful) {st : Store} {key : Bytes} {w : Option Mutation}
    (h : Registered x st key (w.map (Mutation.entry x.lite3)))
    (hlen : ∀ m ∈ w, (m.entry x.lite3).value.length < 2 ^ 32) :
    st.stateOf x key = Mutation.stateAfter x.lite3 w := by
  have hstate := h.state_eq hx.lite3 hx.zstd hx.smallMeta
  cases w with
  | none => exact hstate (by simp)
  | some m => exact hstate (by simpa using hlen m rfl)

private theorem Represents.keyHash_eq {st st' : Store} (h : Represents x st entries)
    (h' : Represents x st' entries) (hdict : st.zstd.dict = none) (hdict' : st'.zstd.dict = none)
    (key : Bytes) : st.keyHash x key = st'.keyHash x key := by
  by_cases hknown : ∃ user, UserKey user ∧ (key = user ∨ key = metaKey user)
  · obtain ⟨user, huser, hkey⟩ := hknown
    have hhash := (h.here user huser).keyHash hdict
    have hhash' := (h'.here user huser).keyHash hdict'
    rcases hkey with rfl | rfl
    · rw [hhash.1, hhash'.1]
    · rw [hhash.2, hhash'.2]
  · rw [h.keyHash_zero hknown, h'.keyHash_zero hknown]

end

/-- Last writer wins, in any order and with repetitions: two lists of the same mutations, applied
to fresh engines, leave every key in the state of the one of its mutations with the greatest
timestamp above zero, and the same Merkle leaves as long as no dictionary was trained. -/
theorem mutations_merge (x : External) (hx : x.Lawful) (u u' : Nat → Nat → UInt8)
    (nodeId nodeId' : UInt32) (ms ms' : List Mutation) (hkeys : ∀ m ∈ ms, UserKey m.key)
    (hsame : ∀ m, m ∈ ms ↔ m ∈ ms')
    (hstamps : ∀ m ∈ ms, ∀ m' ∈ ms, m.key = m'.key → m.timestamp = m'.timestamp → m = m')
    (hlen : ∀ m ∈ ms, (storedForm x.lite3 m.value).length < 2 ^ 32) :
    ∃ e e', (Engine.openOn x nodeId []).runCalls x u (ms.map .applyMutation) = some e ∧
      (Engine.openOn x nodeId' []).runCalls x u' (ms'.map .applyMutation) = some e' ∧
      (∀ key, UserKey key → ∃ w, IsWinner Mutation.timestamp Timestamp.zero
          (ms.filter fun m => m.key = key) w ∧
        e.store.stateOf x key = Mutation.stateAfter x.lite3 w ∧
        e'.store.stateOf x key = Mutation.stateAfter x.lite3 w) ∧
      (e.store.zstd.dict = none → e'.store.zstd.dict = none →
        e.store.merkle.leaves = e'.store.merkle.leaves) := by
  have hkeys' : ∀ m ∈ ms', UserKey m.key := fun m hm => hkeys m ((hsame m).mpr hm)
  obtain ⟨e, hrun, hrep⟩ := runCalls_mutations hx (represents_fresh x nodeId) ms hkeys u
  obtain ⟨e', hrun', hrep'⟩ := runCalls_mutations hx (represents_fresh x nodeId') ms' hkeys' u'
  refine ⟨e, e', hrun, hrun', fun key hkey => ?_, fun hdict hdict' => ?_⟩
  · have hwin := mergeAll_isWinner Mutation.timestamp Timestamp.zero
      (ms.filter fun m => m.key = key)
    have hshort : ∀ m ∈ mergeAll Mutation.timestamp Timestamp.zero none
        (ms.filter fun m => m.key = key), (m.entry x.lite3).value.length < 2 ^ 32 := by
      intro m hm
      rw [Option.mem_def.mp hm] at hwin
      have hmem : m ∈ ms := List.mem_of_mem_filter hwin.1
      simp only [Mutation.entry, writtenEntry]
      split
      · simp
      · exact hlen m hmem
    have hreg := hrep.here key hkey
    have hreg' := hrep'.here key hkey
    rw [mergedEntry_none] at hreg hreg'
    rw [← mergeAll_eq hsame hstamps key] at hreg'
    exact ⟨_, hwin, hreg.stateOf_eq hx hshort, hreg'.stateOf_eq hx hshort⟩
  · rw [mergedEntry_eq hsame hstamps] at hrep
    exact hrep.sound.leaves_eq hrep'.sound (hrep.keyHash_eq hrep' hdict hdict')

/-- A put and a later delete of one key, and again in the other order with a repetition. -/
theorem mutations_merge_put_delete :
    let x := External.reference fun _ => 0
    let put := Mutation.mk ⟨1, 0, 1⟩ (ascii "k") (ascii "v") false
    let delete := Mutation.mk ⟨2, 0, 2⟩ (ascii "k") [] true
    ∃ e e', (Engine.openOn x 1 []).runCalls x (fun _ _ => 0)
        ([put, delete].map .applyMutation) = some e ∧
      (Engine.openOn x 2 []).runCalls x (fun _ _ => 0)
        ([delete, put, delete].map .applyMutation) = some e' ∧
      ∀ key, UserKey key → e.store.stateOf x key = e'.store.stateOf x key := by
  intro x put delete
  have hkeys : ∀ m ∈ [put, delete], UserKey m.key := by decide
  have hsame : ∀ m, m ∈ [put, delete] ↔ m ∈ [delete, put, delete] := by
    intro m
    simp only [List.mem_cons, List.not_mem_nil, or_false]
    constructor <;> · rintro (h | h) <;> simp [h]
  have hstamps : ∀ m ∈ [put, delete], ∀ m' ∈ [put, delete], m.key = m'.key →
      m.timestamp = m'.timestamp → m = m' := by decide
  have hlen : ∀ m ∈ [put, delete], (storedForm x.lite3 m.value).length < 2 ^ 32 := by decide
  obtain ⟨e, e', hrun, hrun', hstate, -⟩ := mutations_merge x (External.reference_lawful _)
    (fun _ _ => 0) (fun _ _ => 0) 1 2 [put, delete] [delete, put, delete] hkeys hsame hstamps hlen
  refine ⟨e, e', hrun, hrun', fun key hkey => ?_⟩
  obtain ⟨w, -, hleft, hright⟩ := hstate key hkey
  rw [hleft, hright]

/-- Three short values and one of a hundred kilobytes, the seventh sample, with which the dictionary
is trained; then one of `2 ^ 32` bytes, which `get` does not return. -/
theorem mutations_merge_oversize :
    let x := External.runLength fun _ => 0
    let put (key : String) (value : Bytes) := Mutation.mk ⟨1, 0, 1⟩ (ascii key) value false
    let long := put "v" (runOf (2 ^ 32))
    ∃ e, (Engine.openOn x 1 []).runCalls x (fun _ _ => 0)
        ([put "a" [7], put "b" [7], put "c" [7], put "d" (runOf 102400), long].map
          .applyMutation) = some e ∧
      IsWinner Mutation.timestamp Timestamp.zero [long] (some long) ∧
      e.store.stateOf x (ascii "v") ≠ Mutation.stateAfter x.lite3 (some long) := by
  intro x put long
  have hx : x.Lawful := External.runLength_lawful _
  have hfresh := represents_fresh x 1
  have hkeys : ∀ m ∈ [put "a" [7], put "b" [7], put "c" [7]], UserKey m.key := by decide
  have hkeys' : ∀ m ∈ [put "a" [7], put "b" [7], put "c" [7], put "d" (runOf 102400)],
      UserKey m.key := by decide
  have hzstd : ((Engine.openOn x 1 []).runCalls x (fun _ _ => 0)
      ([put "a" [7], put "b" [7], put "c" [7]].map .applyMutation)).map
        (fun e => decide e.store.zstd.AlmostTrained) = some true := by decide
  obtain ⟨e, hrun, halmost⟩ := Option.map_eq_some_iff.mp hzstd
  obtain ⟨e₁, metaVal₁, hrun₁, hstore₁⟩ := runCalls_mutations_newer hx hfresh hkeys hrun
    (m := put "d" (runOf 102400)) (by decide : UserKey (ascii "d")) (by decide)
  obtain ⟨e₂, metaVal₂, hrun₂, hstore₂⟩ := runCalls_mutations_newer hx hfresh hkeys' hrun₁
    (m := long) (by decide : UserKey (ascii "v")) (by decide)
  have htrained : e₁.store.zstd.Trained := by
    rw [hstore₁]
    exact (commitWrite_runOf (by decide) (by decide) (Or.inr ⟨by decide, of_decide_eq_true halmost⟩)
      _ _).2
  refine ⟨e₂, hrun₂, ⟨by simp, by decide, by simp⟩, fun heq => ?_⟩
  have hvalue := congrArg Prod.fst heq
  have hget : (e₁.store.commitWrite x (ascii "v") (runOf (2 ^ 32)) false metaVal₂).get x
      (ascii "v") adminUid = frameOf (2 ^ 32) :=
    get_runOf (le_refl _) (by decide) (by decide) htrained _ _
  rw [Store.stateOf, hstore₂] at hvalue
  have hform : (Mutation.stateAfter x.lite3 (some long)).1 = runOf (2 ^ 32) :=
    storedForm_runOf _ (by decide)
  rw [hform] at hvalue
  exact runOf_ne_frameOf (le_refl _) _ (hvalue.symm.trans hget)

end L3KV
