import L3KV.Engine.Invariant
import L3KV.Engine.Threads
import L3KV.Store.Leaves
import L3KV.Store.Reference

/-!
# Leaves and bucket listings

The leaves are kept by deltas while `get_bucket_keys` looks at the shards. The two agree in every
state that calls, shard threads, restarts and the `apply_*` functions themselves lead to, in any
interleaving.
-/

namespace L3KV

open Framework

/-- Every operation hands the tree the difference it makes. -/
theorem Store.keeps_sound (x : External) : Store.Keeps x (Store.Sound x) := by
  intro st o st' hst happly
  cases o with
  | put key body =>
      cases happly
      exact hst.applyPut key body
  | patchInt key field value =>
      obtain ⟨blob, -, rfl⟩ := Option.map_eq_some_iff.mp happly
      exact hst.install key blob
  | patchStr key field value =>
      obtain ⟨blob, -, rfl⟩ := Option.map_eq_some_iff.mp happly
      exact hst.install key blob
  | del key =>
      cases happly
      exact hst.applyDel key

namespace Store.Keeps

variable {x : External} {u : Nat → Nat → UInt8} {P : Store → Prop} (h : Store.Keeps x P)

include h

theorem workStep {m : Machine} (hm : P m.store) (thread : Nat) (work : Work) :
    P (m.workStep x thread work).store := by
  match work with
  | .wait shard task => exact hm
  | .async [] => exact hm
  | .async ((shard, task) :: tasks) => exact hm
  | .direct [] => exact hm
  | .direct (o :: ops) =>
      rw [Machine.workStep]
      split
      · exact hm
      · rename_i st happly
        exact h m.store o st hm happly

theorem shardStep {m : Machine} (hm : P m.store) (shard : Fin 8) (task : Task) (rest : List Task) :
    P (m.shardStep x shard task rest).store := by
  rw [Machine.shardStep]
  split
  · rw [Machine.wake_store]
    exact hm
  · rename_i o ops hops
    split
    · rw [Machine.wake_store]
      exact hm
    · rename_i st happly
      exact h m.store o st hm happly

theorem machineStep (hinit : P (Store.init x)) {m m' : Machine} {event : Event} (hm : P m.store)
    (hstep : m.step x u event = some m') : P m'.store := by
  cases Machine.step_sound hstep with
  | start => exact hm
  | refuse => exact hm
  | append => exact hm
  | work => exact workStep h hm _ _
  | take => exact hm
  | shard => exact shardStep h hm _ _ _
  | restart => exact openOn h hinit m.clock.nodeId m.wal.bytes

end Store.Keeps

/-- A step of the machine, one of the `apply_*` functions called by itself, or the root. -/
inductive WriteEvent where
  | step (event : Event)
  | apply (o : ShardOp)
  | getMerkleRootHash

/-- An operation that throws changes nothing. -/
def Machine.writeStep (x : External) (u : Nat → Nat → UInt8) (m : Machine) :
    WriteEvent → Option Machine
  | .step event => m.step x u event
  | .apply o => some { m with store := (m.store.apply x o).getD m.store }
  | .getMerkleRootHash =>
      some { m with store := { m.store with merkle := (m.store.merkle.getRootHash x.xxh3).2 } }

namespace Store.Keeps

variable {x : External} {u : Nat → Nat → UInt8} {P : Store → Prop} (h : Store.Keeps x P)

include h

theorem writeStep (hinit : P (Store.init x))
    (hroot : ∀ st, P st → P { st with merkle := (st.merkle.getRootHash x.xxh3).2 })
    {m m' : Machine} {event : WriteEvent} (hm : P m.store)
    (hstep : m.writeStep x u event = some m') : P m'.store := by
  cases event with
  | step event => exact h.machineStep hinit hm hstep
  | apply o =>
      cases hstep
      cases happly : m.store.apply x o with
      | none => exact hm
      | some st => exact h m.store o st hm happly
  | getMerkleRootHash =>
      cases hstep
      exact hroot m.store hm

theorem writeRun (hinit : P (Store.init x))
    (hroot : ∀ st, P st → P { st with merkle := (st.merkle.getRootHash x.xxh3).2 })
    {nodeId : UInt32} {file : Bytes} {events : List WriteEvent} {m : Machine}
    (hrun : events.foldlM (Machine.writeStep x u)
      (Machine.ofEngine (Engine.openOn x nodeId file)) = some m) : P m.store := by
  refine run_invariant_always (fun _ m => P m.store) ?_ ?_ hrun
  · exact h.openOn hinit nodeId file
  · exact fun _ _ _ _ hm hstep => h.writeStep hinit hroot hm hstep

end Store.Keeps

/-- In every state that is reached from the recovery of any file, a leaf is the exclusive or of
what is listed for its bucket. The listing has every key of the bucket once, with the hash of its
value, and every key is in the shard it is routed to. -/
theorem leaves_listed {x : External} {u : Nat → Nat → UInt8} {nodeId : UInt32} {file : Bytes}
    {events : List WriteEvent} {m : Machine}
    (hrun : events.foldlM (Machine.writeStep x u)
      (Machine.ofEngine (Engine.openOn x nodeId file)) = some m) (b : Fin 65536) :
    let listed := m.store.bucketKeys x (UInt32.ofNat b)
    m.store.merkle.leaves b = xorAll (listed.map Prod.snd) ∧ (listed.map Prod.fst).Nodup ∧
      (∀ key hash, (key, hash) ∈ listed ↔ ∃ shard blob, (m.store.shards shard)[key]? = some blob ∧
        bucketOf x.xxh3 key = b ∧ hash = x.xxh3 blob.buf) ∧
      ∀ shard key, key ∈ m.store.shards shard → routingShard x.xxh3 key = shard := by
  intro listed
  have hsound : m.store.Sound x :=
    (Store.keeps_sound x).writeRun Store.init_sound (fun _ hst => hst.getRootHash) hrun
  refine ⟨hsound.leaf_eq_listed b, hsound.bucketKeys_nodup _, fun key hash => ?_, hsound.routed⟩
  rw [hsound.mem_bucketKeys, Store.bucket_toNat]
  constructor
  · rintro ⟨blob, hfind, hb, hhash⟩
    exact ⟨_, blob, hfind, Fin.ext hb, hhash⟩
  · rintro ⟨shard, blob, hget, rfl, hhash⟩
    have hshard := hsound.routed shard key
      (Std.ExtTreeMap.mem_iff_isSome_getElem?.mpr (by simp [hget]))
    exact ⟨blob, by rw [Store.find, hshard, hget], rfl, hhash⟩

/-- A deleted key counts with the hash of the empty value. -/
theorem leaves_listed_tombstone :
    let x := External.reference fun key => UInt64.ofNat key.length + 3
    let run := [WriteEvent.apply (.put (ascii "k") (ascii "v")), .apply (.del (ascii "k"))].foldlM
      (Machine.writeStep x fun _ _ => 0) (Machine.ofEngine (Engine.openOn x 1 []))
    ∃ m, run = some m ∧ m.store.bucketKeys x 0 = [(ascii "k", 3)] ∧ m.store.merkle.leaves 0 = 3 := by
  intro x run
  obtain ⟨m, hrun⟩ : ∃ m, run = some m := ⟨_, rfl⟩
  have hlisted : m.store.bucketKeys x 0 = [(ascii "k", 3)] := by
    have hall : run.map (fun m => m.store.bucketKeys x 0) = some [(ascii "k", 3)] := by decide
    rw [hrun] at hall
    exact Option.some.inj hall
  refine ⟨m, hrun, hlisted, (leaves_listed hrun 0).1.trans ?_⟩
  rw [show UInt32.ofNat ((0 : Fin 65536) : Nat) = 0 from rfl, hlisted]
  decide

end L3KV
