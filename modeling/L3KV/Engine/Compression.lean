import L3KV.Engine.Scans

/-!
# Compression is transparent

An engine is compared with one whose `ZstdManager` never becomes active. The same events take both
to states that hold the same values, which one of them may hold compressed. The manager is shared by
the threads of all shards and read without a lock, so its training may also be completed by another
thread in the middle of an operation.
-/

namespace L3KV

open Framework

/-- `overwrite` under a manager that never becomes active: `compress` returns at once. -/
def Blob.overwriteInactive (l : Lite3) (data : Bytes) : Blob :=
  if data.isEmpty then empty else { empty with buf := storedForm l data }

/-- One operation under a manager that never becomes active. The samples it takes are left out, as
nothing else looks at them. -/
def Store.applyInactive (x : External) (st : Store) : ShardOp → Option Store
  | .put key body =>
      let st := st.install x key (Blob.overwriteInactive x.lite3 body)
      some { st with credentials := st.credentials.hook x key body }
  | .patchInt key field value => st.applyPatchInt x key field value
  | .patchStr key field value => st.applyPatchStr x key field value
  | .del key => some (st.applyDel x key)

def ZstdManager.addSamples (z : Zstd) (m : ZstdManager) (samples : List Bytes) : ZstdManager :=
  samples.foldl (fun m data => m.addSample z data) m

/-- `overwrite` beside other threads: when `compress` reads `is_active()`, the manager has taken
`samples`, which are this put's and those of puts that are under way elsewhere. -/
def Blob.overwriteAmid (l : Lite3) (z : Zstd) (m : ZstdManager) (samples : List Bytes)
    (data : Bytes) : Blob × ZstdManager :=
  let m := m.addSamples z samples
  if data.isEmpty then (empty, m)
  else (compress z m { empty with buf := storedForm l data }, m)

/-- `set_int` and `set_str` beside other threads: the first manager is the one `decompress` finds, the
second the one `compress` finds. -/
def Blob.setFieldAmid (l : Lite3) (z : Zstd) (m m' : ZstdManager) (set : Bytes → Option Bytes)
    (b : Blob) : Option Blob :=
  let b := b.decompress z m
  let buf := if b.buf.length = 0 then l.initObject else b.buf
  (set buf).map fun buf => compress z m' { b with buf := buf }

def Store.applyPatchAmid (x : External) (samples : List Bytes) (st : Store) (key : Bytes)
    (set : Bytes → Option Bytes) : Option Store :=
  let zstd := st.zstd.addSamples x.zstd samples
  { st with zstd := zstd }.applyPatch x key (Blob.setFieldAmid x.lite3 x.zstd st.zstd zstd set)

/-- One operation, in the middle of which the manager takes samples. -/
def Store.applyAmid (x : External) (samples : List Bytes) (st : Store) : ShardOp → Option Store
  | .put key body =>
      let made := Blob.overwriteAmid x.lite3 x.zstd st.zstd samples body
      let st := { st with zstd := made.2 }.install x key made.1
      some { st with credentials := st.credentials.hook x key body }
  | .patchInt key field value =>
      st.applyPatchAmid x samples key fun buf => x.lite3.setI64 buf field value
  | .patchStr key field value =>
      st.applyPatchAmid x samples key fun buf => x.lite3.setStr buf field value
  | .del key =>
      some ({ st with zstd := st.zstd.addSamples x.zstd samples }.applyDel x key)

/-- The sample that an operation gives itself. -/
def ShardOp.samples : ShardOp → List Bytes
  | .put _ body => [body]
  | _ => []

/-- All stored buffers are shorter than `2 ^ 32` bytes. -/
def Store.Short (st : Store) : Prop :=
  ∀ (shard : Fin 8) (key : Bytes) (b : Blob),
    (st.shards shard)[key]? = some b → b.buf.length < 2 ^ 32

namespace Machine

section

variable (x : External) (u : Nat → Nat → UInt8) (perform : Store → ShardOp → Option Store)

/-- `workStep` with another way to perform an operation. -/
def workStepBy (m : Machine) (thread : Nat) : Work → Machine
  | .direct (o :: ops) =>
      match perform m.store o with
      | none => m.setPhase thread .idle
      | some st => { m with store := st }.setPhase thread (.logged (.direct ops))
  -- nothing is performed
  | work => m.workStep x thread work

/-- `shardStep` with another way to perform an operation. -/
def shardStepBy (m : Machine) (shard : Fin 8) (task : Task) (rest : List Task) : Machine :=
  match task.ops with
  | [] => (m.setQueue shard rest).wake task.owner
  | o :: ops =>
      match perform m.store o with
      | none => (m.setQueue shard rest).wake task.owner
      | some st => { m with store := st }.setQueue shard (task.goOn ops :: rest)

/-- A step of a machine that has another way to perform an operation. It is not restarted. -/
def stepBy (m : Machine) : Event → Option Machine
  | .work thread =>
      match m.phase thread with
      | .logged work => some (m.workStepBy x perform thread work)
      | _ => none
  | .shard shard =>
      match m.queues shard with
      | [] => none
      | task :: rest => some (m.shardStepBy perform shard task rest)
  | .restart => none
  | event => m.step x u event

/-- A step of a machine whose manager never becomes active. -/
def stepInactive (m : Machine) (event : Event) : Option Machine :=
  m.stepBy x u (Store.applyInactive x) event

/-- A step in the middle of which the manager takes samples. -/
def stepAmid (m : Machine) (event : List Bytes × Event) : Option Machine :=
  m.stepBy x u (Store.applyAmid x event.1) event.2

end

end Machine

/-- The second blob is the first one uncompressed. -/
structure Blob.Mirrors (z : Zstd) (m : ZstdManager) (b b' : Blob) : Prop where
  stores : b.Stores z m b'.buf
  plain : b'.compressed = false
  short : b'.buf.length < 2 ^ 32

/-- The second store is the first one uncompressed. -/
structure Store.Mirrors (x : External) (st st' : Store) : Prop where
  credentials : st'.credentials = st.credentials
  inactive : st'.zstd = ZstdManager.init
  blobs : ∀ (shard : Fin 8) (key : Bytes),
    Option.Rel (Blob.Mirrors x.zstd st.zstd) (st.shards shard)[key]? (st'.shards shard)[key]?

/-- The two machines differ in their stores only. -/
def Machine.Mirrors (x : External) (m m' : Machine) : Prop :=
  ∃ st', m.store.Mirrors x st' ∧ m' = { m with store := st' }

namespace Blob

variable {z : Zstd} {m : ZstdManager} {b b' : Blob}

theorem Mirrors.read_eq (hz : z.Lossless) (h : Mirrors z m b b') (m' : ZstdManager) :
    b.read z m = b'.read z m' := by
  rw [h.stores.1.read hz h.short, Blob.read, if_neg (by simp [h.plain])]

private theorem Mirrors.nil_iff (hframed : z.Framed) (h : Mirrors z m b b') :
    b.buf = [] ↔ b'.buf = [] := by
  obtain ⟨⟨-, hbuf⟩ | ⟨hcompressed, -, -, dict, -, hcomp⟩, hne⟩ := h.stores
  · rw [hbuf]
  · exact iff_of_false (hframed dict b'.buf b.buf hcomp) (hne hcompressed)

private theorem overwrite_amid (l : Lite3) (z : Zstd) (m : ZstdManager) (data : Bytes) :
    overwriteAmid l z m [data] data = overwrite l z m data := by
  have hsample : m.addSamples z [data] = if m.active then m else m.addSample z data := by
    by_cases hactive : m.active = true <;>
      simp [ZstdManager.addSamples, ZstdManager.addSample, hactive]
  rw [overwriteAmid, overwrite, hsample]

private theorem overwriteAmid_stores (l : Lite3) (z : Zstd) (m : ZstdManager) (samples : List Bytes)
    (data : Bytes) : (overwriteAmid l z m samples data).1.Stores z
      (overwriteAmid l z m samples data).2 (storedForm l data) := by
  unfold overwriteAmid
  dsimp only
  split
  · rename_i hempty
    rw [List.isEmpty_iff.mp hempty, storedForm_nil]
    exact empty_stores z _
  · exact compress_stores rfl rfl

private theorem Holds.setFieldAmid {v : Bytes} (h : b.Holds z m v) {m' : ZstdManager}
    (hfollows : m.Follows m')
    (l : Lite3) (set : Bytes → Option Bytes) :
    b.setFieldAmid l z m m' set = b.setField l z m' set := by
  have hdecompress : b.decompress z m = b.decompress z m' := by
    rcases h with ⟨hplain, -⟩ | ⟨-, hactive, -⟩
    · simp [decompress, hplain]
    · rw [hfollows hactive]
  rw [Blob.setFieldAmid, setField, hdecompress]

private theorem overwriteInactive_eq (l : Lite3) (data : Bytes) :
    (overwriteInactive l data).buf = storedForm l data ∧
      (overwriteInactive l data).compressed = false := by
  unfold overwriteInactive
  split
  · rename_i hempty
    rw [List.isEmpty_iff.mp hempty, storedForm_nil]
    exact ⟨rfl, rfl⟩
  · exact ⟨rfl, rfl⟩

end Blob

private theorem ZstdManager.addSamples_follows (z : Zstd) (m : ZstdManager) (samples : List Bytes) :
    m.Follows (m.addSamples z samples) := by
  intro hactive
  induction samples with
  | nil => rfl
  | cons data samples ih =>
      have hsample : m.addSample z data = m := by simp [addSample, hactive]
      rw [addSamples, List.foldl_cons, hsample]
      exact ih

private theorem Store.Short.installed {x : External} {st : Store} {key : Bytes} {b : Blob}
    (h : (st.install x key b).Short) : b.buf.length < 2 ^ 32 := by
  refine h (routingShard x.xxh3 key) key b ?_
  simp [Store.install]

namespace Store.Mirrors

variable {x : External} {st st' : Store}

theorem get_eq (hz : x.zstd.Lossless) (h : st.Mirrors x st') (key : Bytes) (principal : UInt32) :
    st.get x key principal = st'.get x key principal := by
  have hrel := h.blobs (routingShard x.xxh3 key) key
  simp only [Store.get, Store.find, h.credentials]
  generalize (st.shards _)[key]? = blob at hrel ⊢
  generalize (st'.shards _)[key]? = blob' at hrel ⊢
  cases hrel with
  | none => rfl
  | some hb => simp only [hb.read_eq hz st'.zstd]

private theorem matching_eq (hz : x.zstd.Lossless) (hframed : x.zstd.Framed) (h : st.Mirrors x st')
    (pre : Bytes) (shard : Fin 8) (startKey : Bytes) :
    (st.matching pre shard startKey).map (fun e => (e.1, e.2.read x.zstd st.zstd)) =
      (st'.matching pre shard startKey).map fun e => (e.1, e.2.read x.zstd st'.zstd) := by
  have hmem (st : Store) (key value : Bytes) :
      (key, value) ∈ (st.matching pre shard startKey).map (fun e => (e.1, e.2.read x.zstd st.zstd)) ↔
        (pre.isPrefixOf key && (compare startKey key).isLE && !endsInMeta key) = true ∧
          ∃ b, (st.shards shard)[key]? = some b ∧ b.buf ≠ [] ∧ b.read x.zstd st.zstd = value := by
    simp only [matching, List.mem_map, List.mem_filter, Prod.exists, Prod.mk.injEq,
      Std.ExtTreeMap.mem_toList_iff_getElem?_eq_some, Bool.and_eq_true _ (decide _),
      decide_eq_true_eq, List.length_pos_iff]
    constructor
    · rintro ⟨_, b, ⟨hb, htest, hne⟩, rfl, hread⟩
      exact ⟨htest, b, hb, hne, hread⟩
    · rintro ⟨htest, b, hb, hne, hread⟩
      exact ⟨key, b, ⟨hb, htest, hne⟩, rfl, hread⟩
  refine Rising.ext (List.pairwise_map.mpr (matching_rising pre shard startKey))
    (List.pairwise_map.mpr (matching_rising pre shard startKey)) fun e => ?_
  have hrel := h.blobs shard e.1
  rw [hmem, hmem]
  refine and_congr_right fun _ => ?_
  generalize (st.shards shard)[e.1]? = blob at hrel ⊢
  generalize (st'.shards shard)[e.1]? = blob' at hrel ⊢
  cases hrel with
  | none => simp
  | some hb => simp [hb.nil_iff hframed, hb.read_eq hz st'.zstd]

theorem getPrefixChunk_eq (hz : x.zstd.Lossless) (hframed : x.zstd.Framed) (h : st.Mirrors x st')
    (pre : Bytes) (shardIdx : Nat) (startKey : Bytes) (limit : Nat) :
    st.getPrefixChunk x pre shardIdx startKey limit =
      st'.getPrefixChunk x pre shardIdx startKey limit := by
  by_cases hshard : shardIdx < 8
  · have hchunk (st : Store) : st.getPrefixChunk x pre shardIdx startKey limit =
        ((st.matching pre ⟨shardIdx, hshard⟩ startKey).map fun e =>
          (e.1, e.2.read x.zstd st.zstd)).take (max 1 limit) :=
      Store.getPrefixChunk_eq ⟨shardIdx, hshard⟩
    rw [hchunk, hchunk, h.matching_eq hz hframed]
  · rw [getPrefixChunk, getPrefixChunk, dif_neg hshard, dif_neg hshard]

private theorem follow (h : st.Mirrors x st') {m : ZstdManager} (hfollows : st.zstd.Follows m) :
    ({ st with zstd := m } : Store).Mirrors x st' := by
  refine ⟨h.credentials, h.inactive, fun shard key => ?_⟩
  have hrel := h.blobs shard key
  generalize (st.shards shard)[key]? = blob at hrel ⊢
  generalize (st'.shards shard)[key]? = blob' at hrel ⊢
  cases hrel with
  | none => exact .none
  | some hb => exact .some ⟨hb.stores.mono hfollows, hb.plain, hb.short⟩

theorem install (h : st.Mirrors x st') (key : Bytes) {b b' : Blob}
    (hb : Blob.Mirrors x.zstd st.zstd b b') : (st.install x key b).Mirrors x (st'.install x key b') := by
  refine ⟨h.credentials, h.inactive, fun shard other => ?_⟩
  simp only [Store.install]
  by_cases hshard : shard = routingShard x.xxh3 key
  · subst hshard
    simp only [Function.update_self, Std.ExtTreeMap.getElem?_insert]
    split
    · exact .some hb
    · exact h.blobs _ other
  · simp only [Function.update_of_ne hshard]
    exact h.blobs shard other

theorem hook (h : st.Mirrors x st') (key body : Bytes) :
    ({ st with credentials := st.credentials.hook x key body } : Store).Mirrors x
      { st' with credentials := st'.credentials.hook x key body } :=
  ⟨congrArg (·.hook x key body) h.credentials, h.inactive, h.blobs⟩

theorem readable (h : st.Mirrors x st') (key : Bytes) :
    (∀ b, st.find x key = some b → ∃ content, b.Holds x.zstd st.zstd content) ∧
      ∀ b, st'.find x key = some b → ∃ content, b.Holds x.zstd st'.zstd content := by
  have hrel := h.blobs (routingShard x.xxh3 key) key
  simp only [Store.find]
  generalize (st.shards _)[key]? = blob at hrel ⊢
  generalize (st'.shards _)[key]? = blob' at hrel ⊢
  cases hrel with
  | none => simp
  | @some b b' hb =>
      constructor
      · rintro _ ⟨⟩
        exact ⟨b'.buf, hb.stores.1⟩
      · rintro _ ⟨⟩
        exact ⟨b'.buf, Or.inl ⟨hb.plain, rfl⟩⟩

theorem applyPatch (hz : x.zstd.Lossless) (hframed : x.zstd.Framed) (h : st.Mirrors x st')
    (key : Bytes) (set : Bytes → Option Bytes)
    (hshort : ∀ next, st'.applyPatch x key (Blob.setField x.lite3 x.zstd st'.zstd set) = some next →
      next.Short) :
    Option.Rel (Store.Mirrors x) (st.applyPatch x key (Blob.setField x.lite3 x.zstd st.zstd set))
      (st'.applyPatch x key (Blob.setField x.lite3 x.zstd st'.zstd set)) := by
  obtain ⟨blob, hstores, heq⟩ := Store.applyPatch_eq hframed (h.readable key).1 set
  obtain ⟨blob', hstores', heq'⟩ := Store.applyPatch_eq hframed (h.readable key).2 set
  have hbase : st.patchBase x key = st'.patchBase x key := by
    rw [patchBase, patchBase, h.get_eq hz]
  have hdict : st'.zstd.dict = none := by
    rw [h.inactive]
    rfl
  rw [heq'] at hshort
  rw [heq, heq', hbase]
  cases hset : set (st'.patchBase x key) with
  | none => exact .none
  | some buf =>
      rw [hset] at hshort
      obtain ⟨hplain, hbuf⟩ := (hstores' buf).1.plain hdict
      refine .some (h.install key ⟨?_, hplain, (hshort _ rfl).installed⟩)
      rw [hbuf]
      exact hstores buf

private theorem applyPatchAmid (hz : x.zstd.Lossless) (hframed : x.zstd.Framed)
    (h : st.Mirrors x st')
    (samples : List Bytes) (key : Bytes) (set : Bytes → Option Bytes)
    (hshort : ∀ next, st'.applyPatch x key (Blob.setField x.lite3 x.zstd st'.zstd set) = some next →
      next.Short) :
    Option.Rel (Store.Mirrors x) (st.applyPatchAmid x samples key set)
      (st'.applyPatch x key (Blob.setField x.lite3 x.zstd st'.zstd set)) := by
  have hfollows := ZstdManager.addSamples_follows x.zstd st.zstd samples
  have hnext := (h.follow hfollows).applyPatch hz hframed key set hshort
  have heq : st.applyPatchAmid x samples key set =
      ({ st with zstd := st.zstd.addSamples x.zstd samples } : Store).applyPatch x key
        (Blob.setField x.lite3 x.zstd (st.zstd.addSamples x.zstd samples) set) := by
    unfold Store.applyPatchAmid Store.applyPatch
    have hempty := (Blob.empty_holds x.zstd st.zstd).setFieldAmid hfollows x.lite3 set
    cases hfind : st.find x key with
    | none =>
        have hfind' : ({ st with zstd := st.zstd.addSamples x.zstd samples } : Store).find x key =
            none := hfind
        simp only [hfind', hempty]
    | some b =>
        have hfind' : ({ st with zstd := st.zstd.addSamples x.zstd samples } : Store).find x key =
            some b := hfind
        obtain ⟨content, hholds⟩ := (h.readable key).1 b hfind
        have hb := hholds.setFieldAmid hfollows x.lite3 set
        simp only [hfind']
        split
        · rw [hb]
        · rw [hempty]
  rw [heq]
  exact hnext

private theorem applyAmid (hz : x.zstd.Lossless) (hframed : x.zstd.Framed) (h : st.Mirrors x st')
    (samples : List Bytes) (o : ShardOp)
    (hshort : ∀ next, st'.applyInactive x o = some next → next.Short) :
    Option.Rel (Store.Mirrors x) (st.applyAmid x samples o) (st'.applyInactive x o) := by
  have hfollows := ZstdManager.addSamples_follows x.zstd st.zstd samples
  cases o with
  | put key body =>
      obtain ⟨hbuf, hplain⟩ := Blob.overwriteInactive_eq x.lite3 body
      have hput := hshort _ rfl
      have hnext : (st'.install x key (Blob.overwriteInactive x.lite3 body)).Short := hput
      have hmade : (Blob.overwriteAmid x.lite3 x.zstd st.zstd samples body).2 =
          st.zstd.addSamples x.zstd samples := by
        unfold Blob.overwriteAmid
        dsimp only
        split <;> rfl
      have hb : Blob.Mirrors x.zstd (Blob.overwriteAmid x.lite3 x.zstd st.zstd samples body).2
          (Blob.overwriteAmid x.lite3 x.zstd st.zstd samples body).1
          (Blob.overwriteInactive x.lite3 body) := by
        refine ⟨?_, hplain, hnext.installed⟩
        rw [hbuf]
        exact Blob.overwriteAmid_stores x.lite3 x.zstd st.zstd samples body
      have hlater := h.follow hfollows
      rw [← hmade] at hlater
      exact .some ((hlater.install key hb).hook key body)
  | patchInt key field value => exact h.applyPatchAmid hz hframed samples key _ hshort
  | patchStr key field value => exact h.applyPatchAmid hz hframed samples key _ hshort
  | del key =>
      exact .some ((h.follow hfollows).install key
        ⟨Blob.empty_stores x.zstd _, rfl, Nat.two_pow_pos 32⟩)

end Store.Mirrors

private theorem Store.applyAmid_own (x : External) (st : Store) (o : ShardOp) :
    st.applyAmid x o.samples o = st.apply x o := by
  cases o with
  | put key body => simp only [applyAmid, ShardOp.samples, Blob.overwrite_amid, apply, applyPut]
  | _ => rfl

private theorem Store.init_mirrors (x : External) : (Store.init x).Mirrors x (Store.init x) := by
  refine ⟨rfl, rfl, fun shard key => ?_⟩
  simp only [Store.init, Std.ExtTreeMap.getElem?_empty]
  exact .none

namespace Machine

variable {x : External} {u : Nat → Nat → UInt8} {m : Machine} {st' : Store}

private theorem prepare_mirrors (hz : x.zstd.Lossless) (h : m.store.Mirrors x st') (call : Call) :
    ({ m with store := st' } : Machine).engine.prepare x u call = m.engine.prepare x u call := by
  have hget := fun key => (h.get_eq hz key adminUid).symm
  cases call with
  | put key body principal readings =>
      simp only [Engine.prepare, Machine.engine, h.credentials]
      rfl
  | del key principal readings =>
      simp only [Engine.prepare, Machine.engine, h.credentials]
      rfl
  | patchInt key field value readings => rfl
  | patchStr key field value readings => rfl
  | batchPut batch principal readings => simp only [Engine.prepare, Machine.engine, h.credentials]
  | applyMutation mutation => simp only [Engine.prepare, Machine.engine, hget]

/-- Both ways to perform an operation keep the stores alike. -/
def PerformsAlike (x : External) (perform : Store → ShardOp → Option Store) : Prop :=
  ∀ {st st' : Store}, st.Mirrors x st' → ∀ o, (∀ next, st'.applyInactive x o = some next → next.Short) →
    Option.Rel (Store.Mirrors x) (perform st o) (st'.applyInactive x o)

variable {perform : Store → ShardOp → Option Store}

private theorem workStep_mirrors (hperform : PerformsAlike x perform) (h : m.store.Mirrors x st')
    (thread : Nat) (work : Work)
    (hshort : (({ m with store := st' } : Machine).workStepBy x (Store.applyInactive x) thread
      work).store.Short) :
    (m.workStepBy x perform thread work).Mirrors x
      (({ m with store := st' } : Machine).workStepBy x (Store.applyInactive x) thread work) := by
  match work with
  | .wait shard task => exact ⟨st', h, rfl⟩
  | .async [] => exact ⟨st', h, rfl⟩
  | .async ((shard, task) :: tasks) => exact ⟨st', h, rfl⟩
  | .direct [] => exact ⟨st', h, rfl⟩
  | .direct (o :: ops) =>
      rw [workStepBy] at hshort ⊢
      rw [workStepBy]
      have hrel := hperform h o fun next hnext => by
        simpa only [hnext, setPhase] using hshort
      generalize perform m.store o = applied at hrel ⊢
      generalize st'.applyInactive x o = applied' at hrel ⊢
      cases hrel with
      | none => exact ⟨st', h, rfl⟩
      | some hnext => exact ⟨_, hnext, rfl⟩

private theorem shardStep_mirrors (hperform : PerformsAlike x perform) (h : m.store.Mirrors x st')
    (shard : Fin 8) (task : Task) (rest : List Task)
    (hshort : (({ m with store := st' } : Machine).shardStepBy (Store.applyInactive x) shard task
      rest).store.Short) :
    (m.shardStepBy perform shard task rest).Mirrors x
      (({ m with store := st' } : Machine).shardStepBy (Store.applyInactive x) shard task rest) := by
  have hwake : ((m.setQueue shard rest).wake task.owner).Mirrors x
      ((({ m with store := st' } : Machine).setQueue shard rest).wake task.owner) := by
    cases task.owner with
    | none => exact ⟨st', h, rfl⟩
    | some thread => exact ⟨st', h, rfl⟩
  rw [shardStepBy] at hshort ⊢
  rw [shardStepBy]
  cases hops : task.ops with
  | nil => exact hwake
  | cons o ops =>
      rw [hops] at hshort
      have hrel := hperform h o fun next hnext => by
        simpa only [hnext, setQueue] using hshort
      dsimp only
      generalize perform m.store o = applied at hrel ⊢
      generalize st'.applyInactive x o = applied' at hrel ⊢
      cases hrel with
      | none => exact hwake
      | some hnext => exact ⟨_, hnext, rfl⟩

private theorem step_mirrors (hz : x.zstd.Lossless) (hperform : PerformsAlike x perform)
    {m' : Machine}
    (h : m.Mirrors x m') {event : Event}
    (hshort : ∀ next, m'.stepInactive x u event = some next → next.store.Short) :
    Option.Rel (Machine.Mirrors x) (m.stepBy x u perform event) (m'.stepInactive x u event) := by
  obtain ⟨st', hst, rfl⟩ := h
  cases event with
  | start thread call =>
      simp only [stepBy, step, stepInactive, prepare_mirrors hz hst]
      rcases m.phase thread with _ | _ | _ | _ <;>
        rcases m.engine.prepare x u call with _ | ⟨clock, _ | plan⟩ <;>
        first | exact .none | exact .some ⟨st', hst, rfl⟩
  | refuse thread call =>
      simp only [stepBy, step, stepInactive, prepare_mirrors hz hst]
      rcases m.phase thread with _ | _ | _ | _ <;>
        rcases m.engine.prepare x u call with _ | ⟨clock, _ | plan⟩ <;>
        first | exact .none | exact .some ⟨st', hst, rfl⟩
  | append thread =>
      simp only [stepBy, step, stepInactive]
      rcases m.phase thread with _ | _ | _ | _ <;>
        first | exact .none | exact .some ⟨st', hst, rfl⟩
  | work thread =>
      simp only [stepBy, stepInactive] at hshort ⊢
      cases hphase : m.phase thread with
      | logged work =>
          rw [hphase] at hshort
          exact .some (workStep_mirrors hperform hst thread work (hshort _ rfl))
      | _ => exact .none
  | take shard producer =>
      simp only [stepBy, step, stepInactive]
      cases Task.dequeue? (m.queues shard) producer with
      | none => exact .none
      | some tasks => exact .some ⟨st', hst, rfl⟩
  | shard shard =>
      simp only [stepBy, stepInactive] at hshort ⊢
      cases hqueue : m.queues shard with
      | nil => exact .none
      | cons task rest =>
          rw [hqueue] at hshort
          exact .some (shardStep_mirrors hperform hst shard task rest (hshort _ rfl))
  | restart => exact .none

private theorem step_eq_stepBy {event : Event} (hevent : event ≠ .restart) :
    m.step x u event = m.stepBy x u (Store.apply x) event := by
  cases event with
  | work thread =>
      simp only [step, stepBy]
      cases m.phase thread with
      | logged work => rcases work with _ | _ | (_ | _) <;> rfl
      | _ => rfl
  | restart => exact absurd rfl hevent
  | _ => rfl

/-- The second machine is inactive, and reading it gives the same. -/
structure ReadsAlike (x : External) (m m' : Machine) : Prop where
  inactive : m'.store.zstd.active = false
  get : ∀ key principal, m.store.get x key principal = m'.store.get x key principal
  chunk : ∀ pre shardIdx startKey limit, m.store.getPrefixChunk x pre shardIdx startKey limit =
    m'.store.getPrefixChunk x pre shardIdx startKey limit

private theorem Mirrors.readsAlike (hz : x.zstd.Lossless) (hframed : x.zstd.Framed) {m' : Machine}
    (h : m.Mirrors x m') : m.ReadsAlike x m' := by
  obtain ⟨st', hst, rfl⟩ := h
  refine ⟨?_, hst.get_eq hz, hst.getPrefixChunk_eq hz hframed⟩
  rw [hst.inactive]
  rfl

end Machine

/-- For every sequence of steps of calls and shard threads: either neither engine can make them, or
both can, and then `get` and `get_prefix_chunk` return the same. This holds too when other threads
give the manager samples in the middle of the steps. -/
theorem compression_transparent {x : External} {u : Nat → Nat → UInt8} (hz : x.zstd.Lossless)
    (hframed : x.zstd.Framed) (nodeId : UInt32) {events : List Event}
    (hopen : ∀ event ∈ events, event ≠ .restart)
    (hshort : EveryStep (Machine.stepInactive x u) (Machine.ofEngine (Engine.openOn x nodeId []))
      events fun m event => ∀ next, m.stepInactive x u event = some next → next.store.Short) :
    Option.Rel (Machine.ReadsAlike x)
      (events.foldlM (Machine.step x u) (Machine.ofEngine (Engine.openOn x nodeId [])))
      (events.foldlM (Machine.stepInactive x u) (Machine.ofEngine (Engine.openOn x nodeId []))) ∧
    ∀ amid : List (List Bytes × Event), amid.map Prod.snd = events →
      Option.Rel (Machine.ReadsAlike x)
        (amid.foldlM (Machine.stepAmid x u) (Machine.ofEngine (Engine.openOn x nodeId [])))
        (events.foldlM (Machine.stepInactive x u)
          (Machine.ofEngine (Engine.openOn x nodeId []))) := by
  have hstart : (Machine.ofEngine (Engine.openOn x nodeId [])).Mirrors x
      (Machine.ofEngine (Engine.openOn x nodeId [])) := ⟨_, Store.init_mirrors x, rfl⟩
  have hreads {final final' : Option Machine} (h : Option.Rel (Machine.Mirrors x) final final') :
      Option.Rel (Machine.ReadsAlike x) final final' := by
    cases h with
    | none => exact .none
    | some hrel => exact .some (hrel.readsAlike hz hframed)
  constructor
  · have hsteps : EveryStep (Machine.stepInactive x u)
        (Machine.ofEngine (Engine.openOn x nodeId [])) events fun m event => event ≠ .restart ∧
          ∀ next, m.stepInactive x u event = some next → next.store.Short := by
      intro before event after hsplit m hbefore
      refine ⟨hopen event ?_, hshort before event after hsplit m hbefore⟩
      rw [hsplit]
      exact List.mem_append_right _ List.mem_cons_self
    refine hreads (run_related ?_ hstart hsteps)
    rintro m m' event hrel ⟨hstays, hnext⟩
    rw [Machine.step_eq_stepBy hstays]
    refine Machine.step_mirrors hz (fun hst o ho => ?_) hrel hnext
    rw [← Store.applyAmid_own]
    exact hst.applyAmid hz hframed o.samples o ho
  · rintro amid rfl
    rw [List.foldlM_map]
    refine hreads (run_related ?_ hstart (hshort.of_map Prod.snd))
    intro m m' event hrel hnext
    exact Machine.step_mirrors hz (fun hst o ho => hst.applyAmid hz hframed event.1 o ho) hrel hnext

/-- A compressor that leaves out the end of a buffer if it is the dictionary, which it takes from the
end of a sample. Like zstd, it needs seven samples and starts a frame with a magic number. -/
private def suffixZstd : Zstd where
  trainFromBuffer samples _ :=
    if 7 ≤ samples.length ∧ (samples.map List.length).sum < 2 ^ 32 - 1 then
      (samples.find? fun sample => 7 ≤ sample.length).map fun sample =>
        sample.drop (sample.length - 7)
    else none
  compressUsingCDict dict src :=
    if dict <:+ src then some (0x28 :: src.take (src.length - dict.length)) else none
  decompressUsingDDict dict dst capacity :=
    if (dst.tail ++ dict).length ≤ capacity then some (dst.tail ++ dict) else none

private theorem suffixZstd_lossless : suffixZstd.Lossless := by
  intro dict src dst h
  simp only [suffixZstd, Option.ite_none_right_eq_some] at h
  obtain ⟨⟨start, rfl⟩, hdst⟩ := h
  cases hdst
  simp [suffixZstd]

private theorem suffixZstd_framed : suffixZstd.Framed := by
  intro dict src dst h
  simp only [suffixZstd, Option.ite_none_right_eq_some] at h
  obtain ⟨-, hdst⟩ := h
  cases hdst
  exact List.cons_ne_nil _ _

private def suffixExternal : External :=
  { External.reference fun _ => 0 with zstd := suffixZstd }

/-- A put and a patch with their steps interleaved. -/
private def untrained : List Event :=
  [.start 0 (.put (ascii "k") (ascii "v") adminUid [1]), .append 0, .work 0, .shard firstShard,
    .start 1 (.patchInt (ascii "j") (ascii "f") 7 [2]), .append 1, .shard firstShard,
    .shard firstShard, .work 1, .shard firstShard, .shard firstShard, .shard firstShard]

private def block : Bytes := List.replicate 8000 5

private def training : List Event :=
  (List.replicate 13 [Event.start 0 (.put (ascii "b") block adminUid [3]), .append 0, .work 0,
    .shard firstShard, .shard firstShard, .shard firstShard]).flatten

/-- The value patched before is compressed by a patch, and decompressed again by the next. -/
private def trained : List Event :=
  (List.replicate 2 [Event.start 1 (.patchInt (ascii "j") (ascii "f") 8 [4]), .append 1, .work 1,
    .shard firstShard, .shard firstShard, .shard firstShard]).flatten

/-- A put in the middle of which other threads complete the training. -/
private def besideOthers : List (List Bytes × Event) :=
  [([], .start 0 (.put (ascii "k") (ascii "compress") adminUid [1])), ([], .append 0), ([], .work 0),
    (ascii "compress" :: List.replicate 13 block, .shard firstShard), ([], .shard firstShard),
    ([], .shard firstShard)]

private theorem short_of_checked {x : External} {m : Machine} {events : List Event}
    (h : allSteps (Machine.stepInactive x fun _ _ => 0)
      (fun m event => (m.stepInactive x (fun _ _ => 0) event).all fun next =>
        (List.finRange 8).all fun shard => (next.store.shards shard).toList.all fun e =>
          e.2.buf.length < 2 ^ 32) m events = true) :
    EveryStep (Machine.stepInactive x fun _ _ => 0) m events fun m event =>
      ∀ next, m.stepInactive x (fun _ _ => 0) event = some next → next.store.Short := by
  intro before event after hsplit m hbefore next hnext shard key b hb
  have hall := everyStep_of_allSteps h before event after hsplit m hbefore
  simp only [hnext, Option.all_some, List.all_eq_true] at hall
  have hentry := hall shard (List.mem_finRange shard) (key, b)
    (Std.ExtTreeMap.mem_toList_iff_getElem?_eq_some.mpr hb)
  exact of_decide_eq_true hentry

private theorem exists_of_rel {R : Machine → Machine → Prop} {final final' : Option Machine}
    (h : Option.Rel R final final') (check : Machine → Bool) (hcheck : final.any check = true) :
    ∃ m m', final = some m ∧ final' = some m' ∧ R m m' ∧ check m = true := by
  cases h with
  | none => cases hcheck
  | some hrel => exact ⟨_, _, rfl, rfl, hrel, hcheck⟩

/-- Values are stored, read and patched before and after a training, and one is stored during it. -/
theorem compression_transparent_trained :
    let x := suffixExternal
    let start := Machine.ofEngine (Engine.openOn x 1 [])
    (∃ m m', untrained.foldlM (Machine.step x fun _ _ => 0) start = some m ∧
      untrained.foldlM (Machine.stepInactive x fun _ _ => 0) start = some m' ∧ m.ReadsAlike x m' ∧
      m.store.zstd.active = false) ∧
    (∃ m m', (untrained ++ training ++ trained).foldlM (Machine.step x fun _ _ => 0) start = some m ∧
      (untrained ++ training ++ trained).foldlM (Machine.stepInactive x fun _ _ => 0) start =
        some m' ∧ m.ReadsAlike x m' ∧ m.store.zstd.active = true ∧
      (m.store.find x (ascii "j")).map Blob.compressed = some true) ∧
    ∃ m m', besideOthers.foldlM (Machine.stepAmid x fun _ _ => 0) start = some m ∧
      (besideOthers.map Prod.snd).foldlM (Machine.stepInactive x fun _ _ => 0) start = some m' ∧
      m.ReadsAlike x m' ∧ (m.store.find x (ascii "k")).map Blob.compressed = some true := by
  intro x start
  have hlossless : x.zstd.Lossless := suffixZstd_lossless
  have hopen : ∀ event ∈ untrained ++ training ++ trained, event ≠ .restart := by
    rintro event hevent rfl
    simp [untrained, training, trained] at hevent
  have hbefore : ∀ event ∈ untrained, event ≠ .restart := fun event hevent =>
    hopen event (by simp [hevent])
  have hbeside : ∀ event ∈ besideOthers.map Prod.snd, event ≠ .restart := by
    rintro event hevent rfl
    simp [besideOthers] at hevent
  refine ⟨?_, ?_, ?_⟩
  · obtain ⟨m, m', hrun, hrun', hreads, hchecked⟩ := exists_of_rel
      (compression_transparent hlossless suffixZstd_framed 1 hbefore
        (short_of_checked (by decide +kernel))).1
      (fun m => !m.store.zstd.active) (by decide +kernel)
    exact ⟨m, m', hrun, hrun', hreads, by simpa using hchecked⟩
  · obtain ⟨m, m', hrun, hrun', hreads, hchecked⟩ := exists_of_rel
      (compression_transparent hlossless suffixZstd_framed 1 hopen
        (short_of_checked (by decide +kernel))).1
      (fun m => m.store.zstd.active &&
        (m.store.find x (ascii "j")).map Blob.compressed == some true) (by decide +kernel)
    exact ⟨m, m', hrun, hrun', hreads, by simpa using hchecked⟩
  · obtain ⟨m, m', hrun, hrun', hreads, hchecked⟩ := exists_of_rel
      ((compression_transparent hlossless suffixZstd_framed 1 hbeside
        (short_of_checked (by decide +kernel))).2 besideOthers rfl)
      (fun m => (m.store.find x (ascii "k")).map Blob.compressed == some true) (by decide +kernel)
    exact ⟨m, m', hrun, hrun', hreads, by simpa using hchecked⟩

end L3KV
