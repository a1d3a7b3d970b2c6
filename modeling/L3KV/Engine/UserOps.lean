import L3KV.Engine.Readable
import L3KV.Engine.Stamps

/-!
# What calls on user keys do

Every operation of a call on user keys is on the key itself, replaces its sidecar by a metadata
object or patches one field of the sidecar.
-/

namespace L3KV

open Framework

/-- What the libraries promise for patches. -/
structure External.Patchable (x : External) : Prop where
  lite3 : x.lite3.SetsText
  zstd : x.zstd.Framed

/-- An operation of a call on user keys that patches only these fields. -/
inductive ShardOp.OfUsers (l : Lite3) (fields : Bytes → Prop) : ShardOp → Prop
  | value {o : ShardOp} (hkey : UserKey o.key) : OfUsers l fields o
  | sidecar {key : Bytes} {ts : Timestamp} {tombstone : Bool} {metaVal : Bytes}
      (hkey : UserKey key) (hmeta : metaObject l ts tombstone = some metaVal) :
      OfUsers l fields (.put (metaKey key) metaVal)
  | stamp {key field text : Bytes} (hkey : UserKey key) (hfield : fields field) :
      OfUsers l fields (.patchStr (metaKey key) field text)

/-- A patched sidecar stays shorter than this. -/
def ShardOp.Fits (x : External) (limit : Nat) (st : Store) : ShardOp → Prop
  | .patchStr key field text => ascii ":meta" <:+ key →
      ∀ buf ∈ x.lite3.setStr (st.patchBase x key) field text, buf.length < limit
  | _ => True

instance (x : External) (limit : Nat) (st : Store) (o : ShardOp) : Decidable (o.Fits x limit st) :=
  match o with
  | .patchStr key field text => inferInstanceAs (Decidable (ascii ":meta" <:+ key →
      ∀ buf ∈ x.lite3.setStr (st.patchBase x key) field text, buf.length < limit))
  | .put .. => isTrue trivial
  | .patchInt .. => isTrue trivial
  | .del .. => isTrue trivial

/-- An operation of this `batch_put`. -/
inductive ShardOp.OfBatch (l : Lite3) (batch : Bytes) : ShardOp → Prop
  | value {key value : Bytes} (hkey : key ∈ l.keys batch)
      (hvalue : batchValue l batch key = some (some value)) : OfBatch l batch (.put key value)
  | sidecar {key : Bytes} {ts : Timestamp} {metaVal : Bytes} (hkey : key ∈ l.keys batch)
      (hmeta : metaObject l ts false = some metaVal) : OfBatch l batch (.put (metaKey key) metaVal)

def Call.field? : Call → Option Bytes
  | .patchInt _ field _ _ => some field
  | .patchStr _ field _ _ => some field
  | _ => none

section

variable {x : External} {u : Nat → Nat → UInt8} {e : Engine} {clock : HybridLogicalClock}
  {fields : Bytes → Prop}

/-- The loop of `batch_put` gives every operation to the shard of its key. -/
theorem batch_works {c : CredentialManager} {principal : UInt32} {batch : Bytes}
    {readings : List (List Int64)} {s : BatchState}
    (h : batchLoop x c principal batch (x.lite3.keys batch) readings (BatchState.init clock) =
      some (.ok s)) :
    ∀ i, ∀ o ∈ s.works i, routingShard x.xxh3 o.key = i ∧ o.OfBatch x.lite3 batch := by
  refine batchLoop_induction (P := fun s => ∀ i, ∀ o ∈ s.works i,
    routingShard x.xxh3 o.key = i ∧ o.OfBatch x.lite3 batch) ?_ ?_ h
  · intro s rs ts clock' key value metaVal hs hmem _ _ hvalue _ hmeta i o ho
    rw [BatchState.addEntry_works, List.mem_append, List.mem_append] at ho
    rcases ho with (ho | ho) | ho
    · exact hs i o ho
    · split at ho
      · rename_i hi
        rw [List.mem_singleton.mp ho]
        exact ⟨hi.symm, .value hmem hvalue⟩
      · cases ho
    · split at ho
      · rename_i hi
        rw [List.mem_singleton.mp ho]
        exact ⟨hi.symm, .sidecar hmem hmeta⟩
      · cases ho
  · intro i o ho
    cases ho

theorem ShardOp.OfBatch.ofUsers {l : Lite3} {batch : Bytes} {o : ShardOp}
    (h : o.OfBatch l batch) (hkeys : ∀ key ∈ l.keys batch, UserKey key) : o.OfUsers l fields := by
  cases h with
  | value hkey => exact .value (hkeys _ hkey)
  | sidecar hkey hmeta => exact .sidecar (hkeys _ hkey) hmeta

private theorem ofUsers_pair {o p : ShardOp} (hkey : UserKey o.key)
    (hp : p.OfUsers x.lite3 fields) : ∀ q ∈ [o, p], q.OfUsers x.lite3 fields := by
  intro q hq
  rcases List.mem_pair.mp hq with rfl | rfl
  · exact .value hkey
  · exact hp

theorem prepare_ofUsers {call : Call} {plan : Plan}
    (hkeys : ∀ key ∈ call.keys x.lite3, UserKey key) (hfields : ∀ field ∈ call.field?, fields field)
    (h : e.prepare x u call = some (clock, .accepted plan)) :
    ∀ o ∈ plan.work.ops, o.OfUsers x.lite3 fields := by
  cases Engine.prepare_sound h with
  | put key body _ _ _ _ hmeta hwork =>
      have hkey : UserKey key := hkeys key (by simp [Call.keys])
      rw [hwork]
      exact ofUsers_pair hkey (.sidecar hkey hmeta)
  | del key _ _ _ _ hmeta hwork =>
      have hkey : UserKey key := hkeys key (by simp [Call.keys])
      rw [hwork]
      exact ofUsers_pair hkey (.sidecar hkey hmeta)
  | patchInt key field value =>
      have hkey : UserKey key := hkeys key (by simp [Call.keys])
      exact ofUsers_pair (o := .patchInt key field value) hkey (.stamp hkey (hfields field rfl))
  | patchStr key field value =>
      have hkey : UserKey key := hkeys key (by simp [Call.keys])
      exact ofUsers_pair (o := .patchStr key field value) hkey (.stamp hkey (hfields field rfl))
  | batchPut _ _ _ _ hloop =>
      intro o ho
      obtain ⟨w, hw, ho⟩ := List.mem_flatMap.mp ho
      obtain ⟨i, -, rfl⟩ := List.mem_map.mp (List.mem_filter.mp hw).1
      exact (batch_works hloop i o ho).2.ofUsers hkeys
  | applyMutation m _ _ hplan =>
      have hkey : UserKey m.key := hkeys m.key (by simp [Call.keys])
      obtain ⟨metaVal, hmeta, hwork, -⟩ := mutationPlan_spec hplan
      rw [hwork]
      refine ofUsers_pair ?_ (.sidecar hkey hmeta)
      rw [Mutation.shardOp]
      split <;> exact hkey

end

end L3KV
