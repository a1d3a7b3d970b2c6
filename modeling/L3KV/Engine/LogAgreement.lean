import L3KV.Engine.Calls
import L3KV.Store.Reference

/-!
# What is logged and what is applied

The two halves of a plan agree when, key by key, the log holds the operations that are
applied. `put`, `del` and the patches keep every string they log until the batch is written, but
a patch whose setter throws has been logged by then. `batch_put` and `apply_mutation` take views of
strings declared in inner blocks.
-/

namespace L3KV

open Framework

/-- Key by key, the log holds what is applied, in the same order. -/
def Agrees (logged : List BatchOp) (ops : List ShardOp) : Prop :=
  ∀ key, logged.filter (fun o => o.key = key) =
    (ops.map ShardOp.logEntry).filter fun o => o.key = key

/-- The operations of a task that are applied: those before the first that throws. -/
def Store.performed (x : External) (st : Store) : List ShardOp → List ShardOp
  | [] => []
  | o :: ops =>
      match st.apply x o with
      | none => []
      | some st' => o :: performed x st' ops

/-- What a call applies. Other threads write in the meantime: `begun` is the store on which each
shard begins its task, and `own` the one on which the calling thread begins. -/
def Work.applied (x : External) (own : Store) (begun : Fin 8 → Store) : Work → List ShardOp
  | .wait shard task => (begun shard).performed x task
  | .async tasks => tasks.flatMap fun w => (begun w.1).performed x w.2
  | .direct ops => own.performed x ops

private theorem agrees_of_eq {logged : List BatchOp} {ops : List ShardOp}
    (h : logged = ops.map ShardOp.logEntry) : Agrees logged ops := by
  intro key
  rw [h]

section

variable {x : External}

private theorem performed_eq_self {st : Store} {ops : List ShardOp}
    (h : ∀ o ∈ ops, ∀ st : Store, (st.apply x o).isSome) : st.performed x ops = ops := by
  induction ops generalizing st with
  | nil => rfl
  | cons o ops ih =>
      obtain ⟨st', happly⟩ := Option.isSome_iff_exists.mp (h o List.mem_cons_self st)
      simp only [Store.performed, happly]
      rw [ih fun p hp => h p (List.mem_cons_of_mem _ hp)]

private theorem apply_put_isSome (key body : Bytes) (st : Store) :
    (st.apply x (.put key body)).isSome := rfl

private theorem apply_del_isSome (key : Bytes) (st : Store) : (st.apply x (.del key)).isSome := rfl

private theorem apply_patchStr_isSome {st st' : Store} {o : ShardOp} (h : st.apply x o = some st')
    (hzstd : st'.zstd = st.zstd) {key : Bytes} (hne : key ≠ o.key) (field value : Bytes) :
    (st'.apply x (.patchStr key field value)).isSome =
      (st.apply x (.patchStr key field value)).isSome := by
  simp only [Store.apply, Store.applyPatchStr, Store.applyPatch, Store.apply_find_ne h hne, hzstd,
    Option.isSome_map]

namespace BatchState

private theorem addWork_mem (s : BatchState) (o : ShardOp) :
    o ∈ (s.addWork x o).works (routingShard x.xxh3 o.key) := by
  simp [addWork]

private theorem mem_addWork {s : BatchState} {o p : ShardOp} {i : Fin 8} (h : p ∈ s.works i) :
    p ∈ (s.addWork x o).works i := by
  unfold addWork
  by_cases hi : i = routingShard x.xxh3 o.key
  · subst hi
    simp [h]
  · simpa [hi] using h

/-- Every view collected refers to a string of a finished turn of the loop, although the
entries themselves are queued for their shards. -/
structure Dangling (x : External) (s : BatchState) : Prop where
  dead : ∀ v ∈ s.views, s.heap.Dead v.key ∧ s.heap.Dead v.value
  work : s.views ≠ [] → ∃ key value metaVal,
    .put key value ∈ s.works (routingShard x.xxh3 key) ∧
      .put (metaKey key) metaVal ∈ s.works (routingShard x.xxh3 (metaKey key))
  puts : ∀ i, ∀ o ∈ s.works i, ∃ key body, o = .put key body

private theorem init_dangling (clock : HybridLogicalClock) : (init clock).Dangling x :=
  ⟨by simp [init], by simp [init], by simp [init]⟩

private theorem addWork_puts {s : BatchState}
    (h : ∀ i, ∀ o ∈ s.works i, ∃ key body, o = .put key body)
    (key body : Bytes) : ∀ i, ∀ o ∈ (s.addWork x (.put key body)).works i,
      ∃ key body, o = .put key body := by
  intro i o ho
  by_cases hi : i = routingShard x.xxh3 key
  · subst hi
    simp only [addWork, ShardOp.key, Function.update_self, List.mem_append, List.mem_singleton] at ho
    rcases ho with hold | hnew
    · exact h _ o hold
    · exact ⟨key, body, hnew⟩
  · simp only [addWork, ShardOp.key, Function.update_of_ne hi] at ho
    exact h i o ho

private theorem addEntry_dead {h : StringHeap} (a b c d : Bytes) (i : Nat) (hi : i < 4) :
    ((((h.alloc a).alloc b).alloc c).alloc d |>.closeBlock h.size).Dead
      (((((h.alloc a).alloc b).alloc c).alloc d).view (h.size + i)) := by
  have hlive : ∃ s, ((((h.alloc a).alloc b).alloc c).alloc d).Live
      (((((h.alloc a).alloc b).alloc c).alloc d).view (h.size + i)) s := by
    have hcases : i = 0 ∨ i = 1 ∨ i = 2 ∨ i = 3 := by omega
    rcases hcases with rfl | rfl | rfl | rfl
    · exact ⟨a, by simp [StringHeap.Live, StringHeap.view, StringHeap.alloc, StringHeap.size]⟩
    · exact ⟨b, by simp [StringHeap.Live, StringHeap.view, StringHeap.alloc, StringHeap.size]⟩
    · exact ⟨c, by simp [StringHeap.Live, StringHeap.view, StringHeap.alloc, StringHeap.size]⟩
    · exact ⟨d, by simp [StringHeap.Live, StringHeap.view, StringHeap.alloc, StringHeap.size]⟩
  obtain ⟨s, hs⟩ := hlive
  exact hs.closeBlock_dead (Nat.le_add_right _ _)

private theorem addEntry_dangling {s : BatchState} (h : s.Dangling x) (clock : HybridLogicalClock)
    (key value metaVal : Bytes) : (s.addEntry x clock key value metaVal).Dangling x := by
  constructor
  · intro v hv
    rcases List.mem_append.mp hv with hv | hv
    · obtain ⟨hkey, hvalue⟩ := h.dead v hv
      exact ⟨((((hkey.alloc _).alloc _).alloc _).alloc _).closeBlock _,
        ((((hvalue.alloc _).alloc _).alloc _).alloc _).closeBlock _⟩
    · rcases List.mem_cons.mp hv with rfl | hv
      · exact ⟨addEntry_dead _ _ _ _ 0 (by decide), addEntry_dead _ _ _ _ 1 (by decide)⟩
      · rw [List.mem_singleton.mp hv]
        exact ⟨addEntry_dead _ _ _ _ 2 (by decide), addEntry_dead _ _ _ _ 3 (by decide)⟩
  · intro _
    exact ⟨key, value, metaVal, mem_addWork (addWork_mem _ (.put key value)),
      addWork_mem _ (.put (metaKey key) metaVal)⟩
  · exact addWork_puts (addWork_puts h.puts key value) (metaKey key) metaVal

end BatchState

/-- A property that every written entry preserves holds at the end of the loop. The step has
the facts the loop body established about the entry. -/
theorem batchLoop_induction {P : BatchState → Prop} {c : CredentialManager} {principal : UInt32}
    {batch : Bytes} {keys : List Bytes} {readings : List (List Int64)}
    (hstep : ∀ s rs ts clock key value metaVal, P s → key ∈ keys → rs ∈ readings →
      (c.checkPermission principal key).canWrite = true →
      batchValue x.lite3 batch key = some (some value) →
      s.clock.now rs = some (ts, clock) → metaObject x.lite3 ts false = some metaVal →
      P (s.addEntry x clock key value metaVal))
    {s s' : BatchState} (hs : P s)
    (h : batchLoop x c principal batch keys readings s = some (.ok s')) : P s' := by
  induction keys generalizing readings s with
  | nil =>
      simp only [batchLoop, Option.some.injEq, Except.ok.injEq] at h
      exact h ▸ hs
  | cons key keys ih =>
      rw [batchLoop] at h
      split at h
      · rename_i hwrite
        split at h
        · simp at h
        · apply ih _ hs h
          intro s rs ts clock k value metaVal hs hk
          exact hstep s rs ts clock k value metaVal hs (List.mem_cons_of_mem _ hk)
        · rename_i value hvalue
          split at h
          · simp at h
          · rename_i ts clock hnow
            split at h
            · simp at h
            · rename_i metaVal hmeta
              cases readings with
              | nil => simp [HybridLogicalClock.now] at hnow
              | cons rs rest =>
                  apply ih _ _ h
                  · intro s rs' ts clock k value metaVal hs hk hrs
                    exact hstep s rs' ts clock k value metaVal hs (List.mem_cons_of_mem _ hk)
                      (List.mem_cons_of_mem _ hrs)
                  · exact hstep s rs ts clock key value metaVal hs List.mem_cons_self
                      List.mem_cons_self hwrite hvalue hnow hmeta
      · simp at h

/-- The calls whose views are all live when the batch is encoded, or have nothing to read: a
mutation that puts must put the empty value, and a batch is never among them. -/
def Call.LogIntact : Call → Prop
  | .batchPut .. => False
  | .applyMutation m => m.isDelete = true ∨ m.value = []
  | _ => True

/-- Neither setter of a patch throws on what the patch finds: the one of the value, and the one that
writes the timestamp into the sidecar. -/
def Call.SettersTake (x : External) (clock : HybridLogicalClock) (begun : Fin 8 → Store) :
    Call → Prop
  | .patchInt key field value readings =>
      ∀ stamp ∈ clock.now readings, Takes key field (.patchInt key field value) stamp.1
  | .patchStr key field value readings =>
      ∀ stamp ∈ clock.now readings, Takes key field (.patchStr key field value) stamp.1
  | _ => True
where
  Takes (key field : Bytes) (o : ShardOp) (ts : Timestamp) : Prop :=
    let st := begun (routingShard x.xxh3 (x.movedFrom key))
    (st.apply x o).isSome ∧ (st.apply x (.patchStr (metaKey key) field (stampText ts))).isSome

namespace Engine

/-- The call gets as far as `append_batch`. -/
def Accepts (x : External) (e : Engine) (c : Call) : Prop :=
  ∃ clock plan, e.prepare x (fun _ _ => 0) c = some (clock, .accepted plan)

private theorem mem_async_ops {works : Fin 8 → List ShardOp} {o : ShardOp} {i : Fin 8}
    (h : o ∈ works i) :
    o ∈ (Work.async (((List.finRange 8).map fun i => (i, works i)).filter
      fun w => !w.2.isEmpty)).ops := by
  refine List.mem_flatMap.mpr ⟨(i, works i), ?_, h⟩
  refine List.mem_filter.mpr ⟨List.mem_map.mpr ⟨i, List.mem_finRange i, rfl⟩, ?_⟩
  cases hw : works i with
  | nil => simp [hw] at h
  | cons p ops => rfl

private theorem not_agrees_of_dead {s : BatchState} (hs : s.Dangling x) {key : Bytes} {c b : UInt8}
    {rest : Bytes} (hkey : key = b :: rest) (hb : c ≠ b) {ops : List ShardOp} {o : ShardOp}
    (ho : o ∈ ops) (hokey : o.key = key) :
    ¬ Agrees (s.views.map (ViewOp.resolve (fun _ _ => c) s.heap)) ops := by
  intro hagrees
  have hnone : (s.views.map (ViewOp.resolve (fun _ _ => c) s.heap)).filter
      (fun p => p.key = key) = [] := by
    rw [List.filter_eq_nil_iff]
    intro p hp hpkey
    obtain ⟨v, hv, rfl⟩ := List.mem_map.mp hp
    have hread : s.heap.read (fun _ _ => c) v.key = key := of_decide_eq_true hpkey
    rw [(hs.dead v hv).1.read, List.map_const', hkey, List.length_range] at hread
    cases hlen : v.key.len with
    | zero => simp [hlen] at hread
    | succ n =>
        rw [hlen, List.replicate_succ, List.cons.injEq] at hread
        exact hb hread.1
  have hsome : o.logEntry ∈ (ops.map ShardOp.logEntry).filter fun p => p.key = key :=
    List.mem_filter.mpr ⟨List.mem_map_of_mem ho, by simp [hokey]⟩
  rw [← hagrees key, hnone] at hsome
  simp at hsome

private theorem applied_async {own : Store} {begun : Fin 8 → Store}
    {tasks : List (Fin 8 × List ShardOp)}
    (h : ∀ w ∈ tasks, ∀ o ∈ w.2, ∃ key body, o = .put key body) :
    (Work.async tasks).applied x own begun = (Work.async tasks).ops := by
  refine List.flatMap_congr fun w hw => performed_eq_self fun o ho st => ?_
  obtain ⟨key, body, rfl⟩ := h w hw o ho
  exact apply_put_isSome key body st

private theorem batchPut_not_agrees {e : Engine} {batch : Bytes} {principal : UInt32}
    {readings : List (List Int64)} (h : e.Accepts x (.batchPut batch principal readings))
    (own : Store) (begun : Fin 8 → Store) :
    ∃ unspecified clock plan,
      e.prepare x unspecified (.batchPut batch principal readings) =
        some (clock, .accepted plan) ∧ ¬ Agrees plan.logged (plan.work.applied x own begun) := by
  obtain ⟨clock, plan, hprep⟩ := h
  cases prepare_sound hprep with
  | batchPut _ _ _ s hloop hviews =>
      have hs : s.Dangling x := batchLoop_induction (P := BatchState.Dangling x)
        (fun s _ _ clock key value metaVal hs _ _ _ _ _ _ =>
          BatchState.addEntry_dangling hs clock key value metaVal)
        (BatchState.init_dangling e.clock) hloop
      have hplan (c : UInt8) : e.prepare x (fun _ _ => c) (.batchPut batch principal readings) =
          some (s.clock, .accepted ⟨s.views.map (ViewOp.resolve (fun _ _ => c) s.heap),
            .async (((List.finRange 8).map fun i => (i, s.works i)).filter
              fun w => !w.2.isEmpty)⟩) := by
        simp [prepare, hloop, hviews]
      have hputs : ∀ w ∈ ((List.finRange 8).map fun i => (i, s.works i)).filter
          fun w => !w.2.isEmpty, ∀ o ∈ w.2, ∃ key body, o = .put key body := by
        intro w hw
        obtain ⟨i, -, rfl⟩ := List.mem_map.mp (List.mem_of_mem_filter hw)
        exact hs.puts i
      obtain ⟨key, value, metaVal, hput, hmeta⟩ := hs.work hviews
      -- The key of the entry can be empty, but then its sidecar key is not.
      cases hkey : key with
      | cons b rest =>
          refine ⟨_, _, _, hplan (b + 1), ?_⟩
          rw [applied_async hputs]
          exact not_agrees_of_dead hs hkey (by simp) (mem_async_ops hput) rfl
      | nil =>
          refine ⟨_, _, _, hplan 0, ?_⟩
          have hmkey : metaKey key = 0x3a :: ascii "meta" := by
            rw [hkey]
            decide
          rw [applied_async hputs]
          exact not_agrees_of_dead hs hmkey (by decide) (mem_async_ops hmeta) rfl

private theorem applied_mutation (m : Mutation) (metaVal : Bytes) (own : Store)
    (begun : Fin 8 → Store) :
    (Work.direct [m.shardOp, .put (metaKey m.key) metaVal]).applied x own begun =
      [m.shardOp, .put (metaKey m.key) metaVal] := by
  refine performed_eq_self fun o ho st => ?_
  rcases List.mem_cons.mp ho with rfl | ho
  · unfold Mutation.shardOp
    split
    · exact apply_del_isSome m.key st
    · exact apply_put_isSome m.key m.value st
  · rw [List.mem_singleton.mp ho]
    exact apply_put_isSome _ metaVal st

private theorem applyMutation_not_agrees {e : Engine} {m : Mutation} {b : UInt8} {rest : Bytes}
    (h : e.Accepts x (.applyMutation m)) (hput : m.isDelete = false) (hvalue : m.value = b :: rest)
    (own : Store) (begun : Fin 8 → Store) :
    ∃ unspecified clock plan,
      e.prepare x unspecified (.applyMutation m) = some (clock, .accepted plan) ∧
        ¬ Agrees plan.logged (plan.work.applied x own begun) := by
  obtain ⟨clock, plan, hprep⟩ := h
  cases prepare_sound hprep with
  | applyMutation _ hlocal hlt hplan =>
      obtain ⟨metaVal, hmeta, -, -⟩ := mutationPlan_spec hplan
      have hexists : ∃ plan', mutationPlan x (fun _ _ => b + 1) m = some plan' := by
        simp [mutationPlan, hmeta]
      obtain ⟨plan', hplan'⟩ := hexists
      refine ⟨fun _ _ => b + 1, e.clock, plan', ?_, ?_⟩
      · simp [prepare, hlocal, not_le.mpr hlt, hplan']
      · obtain ⟨metaVal', -, hwork, hlogged⟩ := mutationPlan_spec hplan'
        intro hagrees
        have hkey := hagrees m.key
        have hne : metaKey m.key ≠ m.key := metaKey_ne m.key
        rw [hlogged, hwork, applied_mutation] at hkey
        simp [Mutation.shardOp, hput, ShardOp.logEntry, hvalue, hne,
          List.range_succ_eq_map] at hkey

private theorem performed_append (st : Store) (ops : List ShardOp) :
    ∃ rest, ops = st.performed x ops ++ rest := by
  induction ops generalizing st with
  | nil => exact ⟨[], rfl⟩
  | cons o ops ih =>
      cases happly : st.apply x o with
      | none => exact ⟨o :: ops, by simp [Store.performed, happly]⟩
      | some st' =>
          obtain ⟨rest, hrest⟩ := ih st'
          refine ⟨rest, ?_⟩
          simp only [Store.performed, happly, List.cons_append]
          rw [← hrest]

private theorem agrees_performed_iff (st : Store) (ops : List ShardOp) :
    Agrees (ops.map ShardOp.logEntry) (st.performed x ops) ↔ st.performed x ops = ops := by
  constructor
  · intro hagrees
    obtain ⟨rest, hrest⟩ := performed_append (x := x) st ops
    cases rest with
    | nil => simpa using hrest.symm
    | cons o rest =>
        have hkey := hagrees o.key
        generalize st.performed x ops = front at hrest hkey
        rw [hrest] at hkey
        simp at hkey
  · intro hall
    rw [hall]
    exact agrees_of_eq rfl

private theorem performed_patch_iff {st : Store} {o : ShardOp} {key field text : Bytes}
    (hkey : o.key = key) (hzstd : ∀ st', st.apply x o = some st' → st'.zstd = st.zstd) :
    st.performed x [o, .patchStr (metaKey key) field text] =
        [o, .patchStr (metaKey key) field text] ↔
      (st.apply x o).isSome ∧ (st.apply x (.patchStr (metaKey key) field text)).isSome := by
  cases happly : st.apply x o with
  | none => simp [Store.performed, happly]
  | some st' =>
      have hsame := apply_patchStr_isSome happly (hzstd st' happly)
        (hkey ▸ metaKey_ne key : metaKey key ≠ o.key) field text
      rw [← hsame]
      cases hsecond : st'.apply x (.patchStr (metaKey key) field text) <;>
        simp [Store.performed, happly, hsecond]

end Engine

end

end L3KV
