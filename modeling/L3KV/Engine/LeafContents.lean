import L3KV.Engine.Listing
import L3KV.Engine.Plain

/-!
# What a leaf says about its bucket

The hash of a key is not part of its leaf, only that of its value, and equal values cancel. So two
buckets with equal leaves hold the same only if the leaf tells them apart at all: that is when some
byte string is stored an odd number of times in one and an even number of times in the other.
-/

namespace L3KV

open Framework

namespace Store

/-- What can happen to a store. -/
inductive Event where
  | apply (o : ShardOp)
  | getMerkleRootHash

def step (x : External) (st : Store) : Event → Option Store
  | .apply o => st.apply x o
  | .getMerkleRootHash => some { st with merkle := (st.merkle.getRootHash x.xxh3).2 }

/-- The store is reached from an empty one. Calls, shard threads and recovery change a store by
such events only. -/
def Reachable (x : External) (st : Store) : Prop :=
  ∃ events : List Event, events.foldlM (step x) (init x) = some st

/-- The byte strings stored in a bucket, one for each key. -/
def bucketBuffers (x : External) (st : Store) (b : Fin 65536) : List Bytes :=
  (List.finRange 8).flatMap fun shard =>
    ((st.shards shard).toList.filter fun entry => bucketOf x.xxh3 entry.1 = b).map fun entry =>
      entry.2.buf

/-- The two stores hold the same keys with the same bytes in the bucket. -/
def SameBucket (x : External) (st st' : Store) (b : Fin 65536) : Prop :=
  ∀ key, bucketOf x.xxh3 key = b → (st.find x key).map Blob.buf = (st'.find x key).map Blob.buf

/-- Some byte string is stored an odd number of times in the bucket of one store and an even number
of times in that of the other. -/
def OddOneOut (x : External) (st st' : Store) (b : Fin 65536) : Prop :=
  oddly (st.bucketBuffers x b) ≠ oddly (st'.bucketBuffers x b)

variable {x : External} {st st' : Store}

theorem keeps_reachable (x : External) : Keeps x (Reachable x) := by
  rintro st o st' ⟨events, hevents⟩ happly
  have hstep : st.step x (.apply o) = some st' := happly
  exact ⟨events ++ [.apply o], foldlM_concat.mpr ⟨st, hevents, hstep⟩⟩

theorem reachable_init (x : External) : (init x).Reachable x := ⟨[], rfl⟩

/-- In particular the store of a machine is reachable, whatever has run and was recovered. -/
theorem reachable_of_run {u : Nat → Nat → UInt8} {nodeId : UInt32} {file : Bytes}
    {events : List L3KV.Event} {m : Machine}
    (hrun : (Machine.ofEngine (Engine.openOn x nodeId file)).run x u events = some m) :
    m.store.Reachable x := by
  refine run_invariant_always (fun _ m => m.store.Reachable x) ?_ ?_ hrun
  · exact (keeps_reachable x).openOn (reachable_init x) nodeId file
  · exact fun _ _ _ _ hm hstep => (keeps_reachable x).machineStep (reachable_init x) hm hstep

theorem Sound.step (h : st.Sound x) {event : Event} (hstep : st.step x event = some st') :
    st'.Sound x := by
  cases event with
  | apply o => exact keeps_sound x st o st' h hstep
  | getMerkleRootHash =>
      cases hstep
      exact h.getRootHash

theorem Reachable.sound (h : st.Reachable x) : st.Sound x := by
  obtain ⟨events, hrun⟩ := h
  exact run_invariant_always (fun _ st => st.Sound x) init_sound
    (fun _ _ _ _ h hstep => h.step hstep) hrun

private theorem bucketKeys_hashes (x : External) (st : Store) (b : Fin 65536) :
    (st.bucketKeys x (UInt32.ofNat b)).map Prod.snd = (st.bucketBuffers x b).map x.xxh3 := by
  simp only [bucketKeys, shardBucketKeys, bucketBuffers, List.map_flatMap, List.map_map,
    bucket_toNat, Fin.ext_iff]
  rfl

private theorem Sound.mem_buffers (h : st.Sound x) {b : Fin 65536} {s : Bytes}
    (hs : s ∈ st.bucketBuffers x b) : s ∈ st.buffers x := by
  simp only [bucketBuffers, List.mem_flatMap, List.mem_map, List.mem_filter, Prod.exists] at hs
  obtain ⟨shard, -, key, blob, ⟨hmem, -⟩, rfl⟩ := hs
  exact ⟨key, blob, ((h.mem_shard shard key blob).mp hmem).2, rfl⟩

end Store

/-- Without an accidental coincidence of hashes, equal leaves mean equal buckets if and only if the
buckets are equal or some byte string is stored an odd number of times in one of them only. -/
theorem equal_leaves_iff {x : External} {st st' : Store} (h : st.Reachable x) (h' : st'.Reachable x)
    (hindependent : XorIndependent x.xxh3 (st.buffers x ∪ st'.buffers x)) (b : Fin 65536) :
    (st.merkle.leaves b = st'.merkle.leaves b → st.SameBucket x st' b) ↔
      st.SameBucket x st' b ∨ st.OddOneOut x st' b := by
  have hleaves : st.merkle.leaves b = st'.merkle.leaves b ↔ ¬ st.OddOneOut x st' b := by
    rw [h.sound.leaf_eq_listed, h'.sound.leaf_eq_listed, Store.bucketKeys_hashes,
      Store.bucketKeys_hashes, hindependent.xorAll_inj_iff
        (fun s hs => Or.inl (h.sound.mem_buffers hs)) fun s hs => Or.inr (h'.sound.mem_buffers hs),
      Store.OddOneOut, ne_eq, not_not]
  rw [hleaves]
  tauto

private def sidecarBytes : Bytes := (metaObject Lite3.reference ⟨2, 0, 1⟩ false).getD []

/-- The two strings that are stored get a bit each, and every key falls into the first bucket. -/
private def twoBits (s : Bytes) : UInt64 :=
  if s = ascii "v" then 1 else if s = sidecarBytes then 2 else 0

private def twoBitsExternal : External := External.reference twoBits

private theorem twoBits_independent : XorIndependent twoBits {ascii "v", sidecarBytes} := by
  have hbits : ∀ s ∈ [ascii "v", sidecarBytes], (twoBits s).toNat =
      2 ^ [ascii "v", sidecarBytes].idxOf s := by decide +kernel
  refine XorIndependent.of_bits (e := [ascii "v", sidecarBytes].idxOf) ?_ fun s hs => ?_
  · intro s hs t _ heq
    exact (List.idxOf_inj (by simpa using hs)).mp heq
  · exact hbits s (by simpa using hs)

private theorem exists_held {key : Bytes} (hkey : UserKey key) :
    ∃ e, (Engine.openOn twoBitsExternal 1 []).runCalls twoBitsExternal (fun _ _ => 0)
        [.applyMutation ⟨⟨2, 0, 1⟩, key, ascii "v", false⟩] = some e ∧
      Represents twoBitsExternal e.store
        (Function.update (fun _ => none) key (some ⟨⟨2, 0, 1⟩, ascii "v", false⟩)) ∧
      e.store.zstd.dict = none :=
  exists_applied (External.reference_lawful twoBits) (fun _ _ => rfl) 1
    (m := ⟨⟨2, 0, 1⟩, key, ascii "v", false⟩) hkey
    (by decide : Timestamp.zero < (⟨2, 0, 1⟩ : Timestamp)) fun _ _ => 0

private theorem metaObject_eq : metaObject Lite3.reference ⟨2, 0, 1⟩ false = some sidecarBytes := by
  decide +kernel

private theorem held_buffers {key : Bytes} {st : Store}
    (h : Represents twoBitsExternal st
      (Function.update (fun _ => none) key (some ⟨⟨2, 0, 1⟩, ascii "v", false⟩)))
    (hdict : st.zstd.dict = none) : st.buffers twoBitsExternal ⊆ {ascii "v", sidecarBytes} := by
  rintro s ⟨other, blob, hfind, rfl⟩
  rcases h.stored_single hdict hfind with ⟨-, hbuf⟩ | ⟨-, hbuf⟩
  · exact Or.inl hbuf
  · exact Or.inr (Option.some.inj (hbuf.symm.trans metaObject_eq))

private theorem reachable_held {calls : List Call} {e : Engine}
    (hrun : (Engine.openOn twoBitsExternal 1 []).runCalls twoBitsExternal (fun _ _ => 0) calls =
      some e) : e.store.Reachable twoBitsExternal :=
  (Store.keeps_reachable _).runCalls
    ((Store.keeps_reachable _).openOn (Store.reachable_init _) 1 []) hrun

/-- The same value with the same timestamp under another key: every leaf is the same. -/
theorem equal_leaves_other_key : ∃ e e' : Engine,
    (Engine.openOn twoBitsExternal 1 []).runCalls twoBitsExternal (fun _ _ => 0)
      [.applyMutation ⟨⟨2, 0, 1⟩, ascii "a", ascii "v", false⟩] = some e ∧
    (Engine.openOn twoBitsExternal 1 []).runCalls twoBitsExternal (fun _ _ => 0)
      [.applyMutation ⟨⟨2, 0, 1⟩, ascii "b", ascii "v", false⟩] = some e' ∧
    e.store.Reachable twoBitsExternal ∧ e'.store.Reachable twoBitsExternal ∧
    XorIndependent twoBits (e.store.buffers twoBitsExternal ∪ e'.store.buffers twoBitsExternal) ∧
    e.store.merkle.leaves = e'.store.merkle.leaves ∧
    ¬ e.store.SameBucket twoBitsExternal e'.store 0 := by
  have hA : UserKey (ascii "a") := by decide
  have hB : UserKey (ascii "b") := by decide
  obtain ⟨e, hrun, hrep, hdict⟩ := exists_held hA
  obtain ⟨e', hrun', hrep', hdict'⟩ := exists_held hB
  refine ⟨e, e', hrun, hrun', reachable_held hrun, reachable_held hrun',
    twoBits_independent.mono (Set.union_subset (held_buffers hrep hdict) (held_buffers hrep' hdict')),
    ?_, ?_⟩
  · funext b
    rw [hrep.leaf_single hdict hA, hrep'.leaf_single hdict' hB]
    rfl
  · intro hsame
    have hheld := hrep.here (ascii "a") hA
    have hnone := hrep'.here (ascii "a") hA
    rw [Function.update_self] at hheld
    rw [Function.update_of_ne (by decide)] at hnone
    obtain ⟨⟨blob, hblob, -⟩, -⟩ := hheld
    have hkey := hsame (ascii "a") (by decide +kernel)
    rw [hblob, hnone.1] at hkey
    cases hkey

/-- A single key is told from none at all. -/
theorem equal_leaves_iff_single : ∃ e : Engine,
    (Engine.openOn twoBitsExternal 1 []).runCalls twoBitsExternal (fun _ _ => 0)
      [.applyMutation ⟨⟨2, 0, 1⟩, ascii "a", ascii "v", false⟩] = some e ∧
    e.store.merkle.leaves 0 ≠ (Store.init twoBitsExternal).merkle.leaves 0 := by
  have hA : UserKey (ascii "a") := by decide
  obtain ⟨e, hrun, hrep, hdict⟩ := exists_held hA
  have hheld := hrep.here (ascii "a") hA
  rw [Function.update_self] at hheld
  obtain ⟨⟨blob, hblob, -⟩, -⟩ := hheld
  have hodd : e.store.OddOneOut twoBitsExternal (Store.init twoBitsExternal) 0 := by
    have hbuffers : ((Engine.openOn twoBitsExternal 1 []).runCalls twoBitsExternal (fun _ _ => 0)
        [.applyMutation ⟨⟨2, 0, 1⟩, ascii "a", ascii "v", false⟩]).map
          (fun e => e.store.bucketBuffers twoBitsExternal 0) =
        some [ascii "v", sidecarBytes] := by decide +kernel
    rw [hrun, Option.map_some] at hbuffers
    rw [Store.OddOneOut, Option.some.inj hbuffers]
    decide +kernel
  have hindependent : XorIndependent twoBits (e.store.buffers twoBitsExternal ∪
      (Store.init twoBitsExternal).buffers twoBitsExternal) := by
    refine twoBits_independent.mono (Set.union_subset (held_buffers hrep hdict) ?_)
    rintro s ⟨key, blob, hfind, -⟩
    cases hfind
  refine ⟨e, hrun, fun heq => ?_⟩
  have hsame := (equal_leaves_iff (reachable_held hrun) (Store.reachable_init _) hindependent 0).mpr
    (Or.inr hodd) heq
  have hkey := hsame (ascii "a") (by decide +kernel)
  rw [hblob] at hkey
  cases hkey

end L3KV
