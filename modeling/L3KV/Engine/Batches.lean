import L3KV.Engine.LeafContents
import L3KV.Engine.ReadYourWrites
import L3KV.Engine.Stamps

/-!
# Reading and writing in batches

`batch_get` repeats the permission test, the look-up and the decompression of `get`, and what it
makes of a value depends on how the value is stored. `batch_put` goes through its entries before it
logs or enqueues anything, so that a batch which is refused in the middle has had no effect.
-/

namespace L3KV

open Framework

/-- A field of an object is set, or replaced if there is one of that name. -/
def setEntry (object : Bytes → Option (Lite3Type × Bytes)) (entry : Bytes × Lite3Type × Bytes) :
    Bytes → Option (Lite3Type × Bytes) :=
  Function.update object entry.1 (some entry.2)

/-- The object with these fields, set one after the other. -/
def objectOf (entries : List (Bytes × Lite3Type × Bytes)) : Bytes → Option (Lite3Type × Bytes) :=
  entries.foldl setEntry fun _ => none

private theorem objectOf_filterMap (keys : List Bytes) (field : Bytes → Option (Lite3Type × Bytes))
    (key : Bytes) :
    objectOf (keys.filterMap fun key => (field key).map (Prod.mk key)) key =
      if key ∈ keys then field key else none := by
  have hfold (object : Bytes → Option (Lite3Type × Bytes)) :
      ((keys.filterMap fun key => (field key).map (Prod.mk key)).foldl setEntry object) key =
        if key ∈ keys then (field key).or (object key) else object key := by
    induction keys generalizing object with
    | nil => rfl
    | cons first keys ih =>
        cases hfirst : field first with
        | none =>
            rw [List.filterMap_cons_none (by rw [hfirst]; rfl), ih]
            by_cases hkey : key = first
            · simp [hkey, hfirst]
            · simp [hkey]
        | some value =>
            rw [List.filterMap_cons_some (by rw [hfirst]; rfl), List.foldl_cons, ih]
            by_cases hkey : key = first
            · simp [hkey, hfirst, setEntry]
            · simp [hkey, setEntry]
  rw [objectOf, hfold]
  simp

namespace Store

variable {x : External} {st : Store}

private theorem objectOf_batchGet (keys : List Bytes) (principal : UInt32) (key : Bytes) :
    objectOf (st.batchGet x keys principal) key =
      if key ∈ keys ∧ (st.credentials.checkPermission principal key).canRead = true then
        (st.find x key).map fun b =>
          (if b.compressed then .string else .bytes, b.read x.zstd st.zstd)
      else none := by
  have hfields : st.batchGet x keys principal = keys.filterMap fun key =>
      (if (st.credentials.checkPermission principal key).canRead then
        (st.find x key).map fun b =>
          (if b.compressed then Lite3Type.string else .bytes, b.read x.zstd st.zstd)
      else none).map (Prod.mk key) := by
    rw [batchGet]
    congr 1
    funext key
    split
    · rw [Option.map_map]
      rfl
    · rfl
  rw [hfields, objectOf_filterMap, ite_and]

end Store

/-- So many calls of `now`, one after the other, all return. -/
def HybridLogicalClock.answers (c : HybridLogicalClock) : List (List Int64) → Nat → Bool
  | _, 0 => true
  | readings, n + 1 =>
      (c.now (readings.headD [])).any fun stamp => stamp.2.answers readings.tail n

/-- An entry of a batch, if it is a text or a byte string. -/
def entryOfBatch (l : Lite3) (batch key : Bytes) : Option (Bytes × Bytes) :=
  match l.getType batch key with
  | some .string => (l.getStr batch key).map (Prod.mk key)
  | some .bytes => (l.getBytes batch key).map (Prod.mk key)
  | _ => none

/-- The two operations that write an entry: its value and its sidecar. -/
def WritesEntry (l : Lite3) (entry : Bytes × Bytes) (ops : List ShardOp) : Prop :=
  ∃ ts metaVal, metaObject l ts false = some metaVal ∧
    ops = [.put entry.1 entry.2, .put (metaKey entry.1) metaVal]

def CallResult.Throws (result : CallResult) : Prop :=
  result = .threw ∨ ∃ message, result = .unauthorized message

/-- An access to the entry, or the building of its sidecar, throws. -/
def EntryThrows (l : Lite3) (batch key : Bytes) : Prop :=
  batchValue l batch key = none ∨ ∃ ts, metaObject l ts false = none

section

variable {x : External} {c : CredentialManager} {principal : UInt32} {batch : Bytes}

private theorem entryOfBatch_eq (l : Lite3) (batch key : Bytes) :
    entryOfBatch l batch key = (batchValue l batch key).join.map (Prod.mk key) := by
  unfold entryOfBatch batchValue
  cases l.getType batch key with
  | none => rfl
  | some type =>
      cases type with
      | string => cases l.getStr batch key <;> rfl
      | bytes => cases l.getBytes batch key <;> rfl
      | _ => rfl

/-- What the loop comes to from a state: an exception because of some entry, or a state in which
every text and byte string has been put on the shards of its two keys. -/
def BatchOutcome (x : External) (c : CredentialManager) (principal : UInt32) (batch : Bytes)
    (keys : List Bytes) (s : BatchState) :
    Except (HybridLogicalClock × CallResult) BatchState → Prop
  | .error (_, result) => result.Throws ∧ ∃ key ∈ keys,
      (c.checkPermission principal key).canWrite = false ∨ EntryThrows x.lite3 batch key
  | .ok s' => (∀ key ∈ keys, (c.checkPermission principal key).canWrite = true) ∧
      ∃ written,
        List.Forall₂ (WritesEntry x.lite3) (keys.filterMap (entryOfBatch x.lite3 batch)) written ∧
        (s'.views = [] ↔ s.views = [] ∧ written = []) ∧
        ∀ i, s'.works i = s.works i ++
          written.flatten.filter fun o => routingShard x.xxh3 o.key = i

namespace BatchOutcome

variable {key : Bytes} {keys : List Bytes} {s : BatchState}
  {r : Except (HybridLogicalClock × CallResult) BatchState}

private theorem skip (h : BatchOutcome x c principal batch keys s r)
    (hwrite : (c.checkPermission principal key).canWrite = true)
    (hentry : entryOfBatch x.lite3 batch key = none) :
    BatchOutcome x c principal batch (key :: keys) s r := by
  cases r with
  | error e =>
      obtain ⟨hthrows, other, hother, hwhy⟩ := h
      exact ⟨hthrows, other, List.mem_cons_of_mem key hother, hwhy⟩
  | ok s' =>
      obtain ⟨hall, hwritten⟩ := h
      refine ⟨List.forall_mem_cons.mpr ⟨hwrite, hall⟩, ?_⟩
      rw [List.filterMap_cons_none hentry]
      exact hwritten

theorem write {value metaVal : Bytes} {clock : HybridLogicalClock} {ts : Timestamp}
    (h : BatchOutcome x c principal batch keys (s.addEntry x clock key value metaVal) r)
    (hwrite : (c.checkPermission principal key).canWrite = true)
    (hentry : entryOfBatch x.lite3 batch key = some (key, value))
    (hmeta : metaObject x.lite3 ts false = some metaVal) :
    BatchOutcome x c principal batch (key :: keys) s r := by
  cases r with
  | error e =>
      obtain ⟨hthrows, other, hother, hwhy⟩ := h
      exact ⟨hthrows, other, List.mem_cons_of_mem key hother, hwhy⟩
  | ok s' =>
      obtain ⟨hall, written, hwritten, hviews, hworks⟩ := h
      refine ⟨List.forall_mem_cons.mpr ⟨hwrite, hall⟩,
        [.put key value, .put (metaKey key) metaVal] :: written, ?_, ?_, fun i => ?_⟩
      · rw [List.filterMap_cons_some hentry]
        exact .cons ⟨ts, metaVal, hmeta, rfl⟩ hwritten
      · rw [hviews]
        simp [BatchState.addEntry, BatchState.addWork]
      · simp only [hworks, BatchState.addEntry_works, eq_comm (a := i)]
        by_cases hvalue : routingShard x.xxh3 key = i <;>
          by_cases hsidecar : routingShard x.xxh3 (metaKey key) = i <;>
            simp [hvalue, hsidecar, ShardOp.key]

end BatchOutcome

theorem batchLoop_outcome {keys : List Bytes} {readings : List (List Int64)} {s : BatchState}
    {r : Except (HybridLogicalClock × CallResult) BatchState}
    (h : batchLoop x c principal batch keys readings s = some r) :
    BatchOutcome x c principal batch keys s r := by
  induction keys generalizing readings s with
  | nil =>
      cases h
      exact ⟨by simp, [], .nil, by simp, by simp⟩
  | cons key keys ih =>
      have hentry := entryOfBatch_eq x.lite3 batch key
      rw [batchLoop] at h
      by_cases hwrite : (c.checkPermission principal key).canWrite = true
      · rw [if_pos hwrite] at h
        rcases hvalue : batchValue x.lite3 batch key with _ | _ | value
        · rw [hvalue] at h
          cases h
          exact ⟨Or.inl rfl, key, List.mem_cons_self, Or.inr (Or.inl hvalue)⟩
        · rw [hvalue] at h hentry
          exact (ih h).skip hwrite hentry
        · rw [hvalue] at h hentry
          rcases hnow : s.clock.now (readings.headD []) with _ | ⟨ts, clock⟩
          · rw [hnow] at h
            cases h
          · rw [hnow] at h
            cases hmeta : metaObject x.lite3 ts false with
            | none =>
                simp only [hmeta] at h
                cases h
                exact ⟨Or.inl rfl, key, List.mem_cons_self, Or.inr (Or.inr ⟨ts, hmeta⟩)⟩
            | some metaVal =>
                simp only [hmeta] at h
                exact (ih h).write hwrite hentry hmeta
      · rw [if_neg hwrite] at h
        cases h
        exact ⟨Or.inr ⟨_, rfl⟩, key, List.mem_cons_self, Or.inl (Bool.eq_false_iff.mpr hwrite)⟩

private theorem batchLoop_isSome (x : External) (c : CredentialManager) (principal : UInt32)
    {keys : List Bytes} {readings : List (List Int64)} {s : BatchState}
    (h : s.clock.answers readings (keys.filterMap (entryOfBatch x.lite3 batch)).length = true) :
    (batchLoop x c principal batch keys readings s).isSome = true := by
  induction keys generalizing readings s with
  | nil => rfl
  | cons key keys ih =>
      have hentry := entryOfBatch_eq x.lite3 batch key
      rw [batchLoop]
      by_cases hwrite : (c.checkPermission principal key).canWrite = true
      · rw [if_pos hwrite]
        rcases hvalue : batchValue x.lite3 batch key with _ | _ | value
        · rfl
        · rw [hvalue] at hentry
          rw [List.filterMap_cons_none hentry] at h
          exact ih h
        · rw [hvalue] at hentry
          rw [List.filterMap_cons_some hentry, List.length_cons, HybridLogicalClock.answers,
            Option.any_eq_true] at h
          obtain ⟨⟨ts, clock⟩, hnow, hrest⟩ := h
          simp only [hnow]
          cases metaObject x.lite3 ts false with
          | none => rfl
          | some metaVal => exact ih hrest
      · rw [if_neg hwrite]
        rfl

end

namespace Engine

private theorem foldl_enqueue_queues (tasks : List (Fin 8 × List ShardOp)) (e : Engine)
    (i : Fin 8) :
    (tasks.foldl (fun e w => e.enqueue w.1 w.2) e).queues i =
      e.queues i ++ (tasks.filter fun w => w.1 = i).map Prod.snd := by
  induction tasks generalizing e with
  | nil => simp
  | cons w tasks ih =>
      rw [List.foldl_cons, ih, enqueue]
      by_cases hshard : w.1 = i
      · subst hshard
        simp
      · simp [hshard, Function.update_of_ne (Ne.symm hshard)]

private theorem works_of_shard (works : Fin 8 → List ShardOp) (i : Fin 8) :
    ((((List.finRange 8).map fun i => (i, works i)).filter fun w => !w.2.isEmpty).filter
        fun w => w.1 = i).map Prod.snd = if works i = [] then [] else [works i] := by
  have hself : ∀ i : Fin 8, ((List.finRange 8).filter fun j => j = i) = [i] := by decide
  have hshard : (((List.finRange 8).map fun i => (i, works i)).filter fun w => w.1 = i) =
      [(i, works i)] := by
    rw [List.filter_map]
    exact congrArg (List.map fun i => (i, works i)) (hself i)
  rw [List.filter_filter]
  simp only [Bool.and_comm (decide _)]
  rw [← List.filter_filter, hshard]
  cases works i with
  | nil => simp
  | cons o ops => simp

end Engine

/-- The object answers for its own entries: no access to one of them throws. -/
def Lite3.Answers (l : Lite3) (batch : Bytes) : Prop :=
  ∀ key ∈ l.keys batch, ∃ type, l.getType batch key = some type ∧
    (type = .string → (l.getStr batch key).isSome = true) ∧
    (type = .bytes → (l.getBytes batch key).isSome = true)

private theorem Lite3.Answers.not_throws {l : Lite3} {batch key : Bytes} (h : l.Answers batch)
    (hl : l.Lawful) (hkey : key ∈ l.keys batch) : ¬ EntryThrows l batch key := by
  rintro (hvalue | ⟨ts, hmeta⟩)
  · obtain ⟨type, htype, hstring, hbytes⟩ := h key hkey
    unfold batchValue at hvalue
    rw [htype] at hvalue
    cases type with
    | string => simp [Option.isSome_iff_ne_none.mp (hstring rfl)] at hvalue
    | bytes => simp [Option.isSome_iff_ne_none.mp (hbytes rfl)] at hvalue
    | _ => cases hvalue
  · obtain ⟨buf, hbuf, -⟩ := metaObject_reads hl ts false
    rw [hmeta] at hbuf
    cases hbuf

/-- The operations that belong on a shard, as the task that carries them. -/
def taskFor (x : External) (ops : List ShardOp) (i : Fin 8) : List (List ShardOp) :=
  let own := ops.filter fun o => routingShard x.xxh3 o.key = i
  if own = [] then [] else [own]

/-- A batch with an entry that the principal may not write throws and leaves everything as it was.
Otherwise every text and byte string of it is enqueued once, with its sidecar. The call returns as
soon as the clock has answered for these entries. -/
theorem batch_put_all_or_nothing (x : External) (u : Nat → Nat → UInt8) (e : Engine)
    (batch : Bytes) (principal : UInt32) (readings : List (List Int64)) :
    (∀ r, e.call x u (.batchPut batch principal readings) = some r →
      ((∃ key ∈ x.lite3.keys batch,
          (e.store.credentials.checkPermission principal key).canWrite = false) →
        r.2.Throws ∧ r.1.wal = e.wal ∧ r.1.store = e.store ∧ r.1.queues = e.queues) ∧
      ((∀ key ∈ x.lite3.keys batch,
          (e.store.credentials.checkPermission principal key).canWrite = true) →
        x.lite3.Lawful → x.lite3.Answers batch →
        r.2 = .done ∧ ∃ written,
          List.Forall₂ (WritesEntry x.lite3)
            ((x.lite3.keys batch).filterMap (entryOfBatch x.lite3 batch)) written ∧
          ∀ i, r.1.queues i = e.queues i ++ taskFor x written.flatten i)) ∧
    (e.clock.answers readings
        ((x.lite3.keys batch).filterMap (entryOfBatch x.lite3 batch)).length = true →
      (e.call x u (.batchPut batch principal readings)).isSome = true) := by
  constructor
  · intro r hr
    obtain ⟨p, hprepare, rfl⟩ := Option.map_eq_some_iff.mp hr
    obtain ⟨outcome, hloop, rfl⟩ := Option.map_eq_some_iff.mp hprepare
    have hspec := batchLoop_outcome hloop
    cases outcome with
    | error err =>
        obtain ⟨hthrows, key, hkey, hwhy⟩ := hspec
        refine ⟨fun _ => ⟨hthrows, rfl, rfl, rfl⟩, fun hall hl hanswers => ?_⟩
        rcases hwhy with hdenied | hentry
        · rw [hall key hkey] at hdenied
          cases hdenied
        · exact absurd hentry (hanswers.not_throws hl hkey)
    | ok s =>
        obtain ⟨hall, written, hwritten, hviews, hworks⟩ := hspec
        constructor
        · rintro ⟨key, hkey, hdenied⟩
          rw [hall key hkey] at hdenied
          cases hdenied
        · intro _ _ _
          have hstart : s.views = [] ↔ written = [] := by simpa [BatchState.init] using hviews
          have hown (i : Fin 8) : s.works i =
              written.flatten.filter fun o => routingShard x.xxh3 o.key = i := by
            simpa [BatchState.init] using hworks i
          by_cases hnone : written = []
          · -- nothing to write: the call returns before it logs
            refine ⟨?_, written, hwritten, fun i => ?_⟩
            · simp [hstart.mpr hnone]
            · simp [hstart.mpr hnone, hnone, taskFor]
          · have hsome : s.views.isEmpty = false := by simpa using fun h => hnone (hstart.mp h)
            refine ⟨?_, written, hwritten, fun i => ?_⟩
            · simp [hsome, Engine.commit, Engine.successOf]
            · simp only [hsome, Bool.false_eq_true, if_false, Engine.commit,
                Engine.foldl_enqueue_queues, Engine.works_of_shard, hown, taskFor]
  · intro hanswers
    have hsome := batchLoop_isSome x e.store.credentials principal (s := BatchState.init e.clock)
      hanswers
    rw [Engine.call, Engine.prepare, Option.isSome_map, Option.isSome_map]
    exact hsome

/-- A batch that sets two texts, `a` in front of `b`. -/
private def textBatch : Bytes :=
  ((Lite3.reference.setStr Lite3.reference.initObject (ascii "b") (ascii "2")).bind fun batch =>
    Lite3.reference.setStr batch (ascii "a") (ascii "1")).getD []

/-- An administrator may write both, and user 7 only the first. -/
theorem batch_put_all_or_nothing_text :
    let x := External.reference fun _ => 0
    let opened := Engine.openOn x 1 []
    let e := { opened with store := opened.store.applyPut x (ascii "sys:acl:7:a") (ascii "WRITE") }
    (∃ r written, e.call x (fun _ _ => 0) (.batchPut textBatch adminUid [[1], [2]]) = some r ∧
      List.Forall₂ (WritesEntry x.lite3) [(ascii "a", ascii "1"), (ascii "b", ascii "2")] written ∧
      ∀ i, r.1.queues i = e.queues i ++ taskFor x written.flatten i) ∧
    (e.store.credentials.checkPermission 7 (ascii "a")).canWrite = true ∧
    ∃ r, e.call x (fun _ _ => 0) (.batchPut textBatch 7 [[1], [2]]) = some r ∧
      r.2.Throws ∧ r.1.wal = e.wal ∧ r.1.store = e.store ∧ r.1.queues = e.queues := by
  intro x opened e
  have hkeys : x.lite3.keys textBatch = [ascii "a", ascii "b"] := by decide
  have hentries : (x.lite3.keys textBatch).filterMap (entryOfBatch x.lite3 textBatch) =
      [(ascii "a", ascii "1"), (ascii "b", ascii "2")] := by decide
  have hclock : e.clock.answers [[1], [2]]
      ((x.lite3.keys textBatch).filterMap (entryOfBatch x.lite3 textBatch)).length = true := by
    decide
  have hanswers : x.lite3.Answers textBatch := by
    rw [Lite3.Answers, hkeys]
    rintro key hkey
    rcases List.mem_pair.mp hkey with rfl | rfl <;>
      exact ⟨.string, by decide, fun _ => by decide, fun h => absurd h (by decide)⟩
  refine ⟨?_, by decide +kernel, ?_⟩
  · obtain ⟨hcall, hreturns⟩ :=
      batch_put_all_or_nothing x (fun _ _ => 0) e textBatch adminUid [[1], [2]]
    obtain ⟨r, hr⟩ := Option.isSome_iff_exists.mp (hreturns hclock)
    obtain ⟨-, written, hwritten, hqueues⟩ := (hcall r hr).2
      (fun key _ => by simp) Lite3.reference_lawful hanswers
    rw [hentries] at hwritten
    exact ⟨r, written, hr, hwritten, hqueues⟩
  · obtain ⟨hcall, hreturns⟩ := batch_put_all_or_nothing x (fun _ _ => 0) e textBatch 7 [[1], [2]]
    obtain ⟨r, hr⟩ := Option.isSome_iff_exists.mp (hreturns hclock)
    refine ⟨r, hr, (hcall r hr).1 ⟨ascii "b", by rw [hkeys]; simp, ?_⟩⟩
    decide +kernel

end L3KV
