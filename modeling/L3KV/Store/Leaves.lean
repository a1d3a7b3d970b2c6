import L3KV.Framework.XorSum
import L3KV.Store.Apply

/-!
# The tree follows the store

Whatever sequence of operations built the store, a leaf of the tree is the exclusive or of the
hashes of the values whose keys fall into its bucket.
-/

namespace L3KV

open Framework

namespace Store

/-- The hash the tree accounts for under a key: zero if the key is not there. -/
def keyHash (x : External) (st : Store) (key : Bytes) : UInt64 := hashOf x (st.find x key)

/-- The part of a set of keys that falls into a bucket. -/
def inBucket (x : External) (b : Fin 65536) (s : Finset Bytes) : Finset Bytes :=
  s.filter fun key => bucketOf x.xxh3 key = b

/-- The byte strings stored under the keys. -/
def buffers (x : External) (st : Store) : Set Bytes :=
  { s | ∃ key b, st.find x key = some b ∧ b.buf = s }

/-- The tree is coherent, its leaves are those of the values in the store, and a key is only ever
in the shard it is routed to. -/
structure Sound (x : External) (st : Store) : Prop where
  coherent : st.merkle.Coherent x.xxh3
  routed : ∀ shard key, key ∈ st.shards shard → routingShard x.xxh3 key = shard
  leaves : ∃ s : Finset Bytes, (∀ key, st.find x key ≠ none → key ∈ s) ∧
    ∀ b, st.merkle.leaves b = xorSum (inBucket x b s) (st.keyHash x)

variable {x : External} {st : Store}

theorem keyHash_ne_zero {key : Bytes} (h : st.keyHash x key ≠ 0) : st.find x key ≠ none := by
  intro hnone
  simp [keyHash, hashOf, hnone] at h

private theorem xorSum_inBucket {s t : Finset Bytes} {f : Bytes → UInt64}
    (hs : ∀ key, f key ≠ 0 → key ∈ s) (ht : ∀ key, f key ≠ 0 → key ∈ t) (b : Fin 65536) :
    xorSum (inBucket x b s) f = xorSum (inBucket x b t) f := by
  have hne (key : Bytes) (h : (if bucketOf x.xxh3 key = b then f key else 0) ≠ 0) : f key ≠ 0 := by
    intro hzero
    simp [hzero] at h
  rw [inBucket, inBucket, xorSum_filter, xorSum_filter]
  exact xorSum_eq (fun key h => hs key (hne key h)) fun key h => ht key (hne key h)

theorem Sound.leaf_eq (h : st.Sound x) {s : Finset Bytes}
    (hs : ∀ key, st.find x key ≠ none → key ∈ s) (b : Fin 65536) :
    st.merkle.leaves b = xorSum (inBucket x b s) (st.keyHash x) := by
  obtain ⟨t, ht, hleaves⟩ := h.leaves
  rw [hleaves b]
  apply xorSum_inBucket
  · intro key hkey
    exact ht key (keyHash_ne_zero hkey)
  · intro key hkey
    exact hs key (keyHash_ne_zero hkey)

theorem Sound.leaves_eq {st' : Store} (h : st.Sound x) (h' : st'.Sound x)
    (hkeys : ∀ key, st.keyHash x key = st'.keyHash x key) : st.merkle.leaves = st'.merkle.leaves := by
  obtain ⟨s, hs, -⟩ := h.leaves
  obtain ⟨t, ht, -⟩ := h'.leaves
  have hfun : st.keyHash x = st'.keyHash x := funext hkeys
  funext b
  rw [h.leaf_eq (s := s ∪ t) (fun key hkey => Finset.mem_union_left _ (hs key hkey)),
    h'.leaf_eq (s := s ∪ t) (fun key hkey => Finset.mem_union_right _ (ht key hkey)), hfun]

theorem init_sound : (init x).Sound x := by
  refine ⟨MerkleTree.init_coherent, ?_, ∅, ?_, fun b => rfl⟩
  · intro shard key hkey
    simp [init] at hkey
  · intro key hkey
    simp [find, init] at hkey

private theorem install_keyHash (st : Store) (key : Bytes) (b : Blob) :
    (st.install x key b).keyHash x =
      Function.update (st.keyHash x) key (hashOf x (some b)) := by
  funext other
  by_cases h : other = key
  · subst h
    simp [keyHash, install_find]
  · simp [keyHash, install_find, h]

theorem Sound.install (h : st.Sound x) (key : Bytes) (b : Blob) : (st.install x key b).Sound x := by
  constructor
  · exact MerkleTree.applyDelta_coherent h.coherent key _
  · intro shard other hother
    by_cases hshard : shard = routingShard x.xxh3 key
    · subst hshard
      simp only [Store.install, Function.update_self, Std.ExtTreeMap.mem_insert,
        Std.LawfulEqCmp.compare_eq_iff_eq] at hother
      rcases hother with rfl | hother
      · rfl
      · exact h.routed _ other hother
    · simp only [Store.install, Function.update_of_ne hshard] at hother
      exact h.routed shard other hother
  · obtain ⟨s, hs, -⟩ := h.leaves
    have hcover : ∀ other, st.find x other ≠ none → other ∈ insert key s :=
      fun other hother => Finset.mem_insert_of_mem (hs other hother)
    refine ⟨insert key s, ?_, fun bucket => ?_⟩
    · intro other hother
      by_cases hkey : other = key
      · rw [hkey]
        exact Finset.mem_insert_self key s
      · rw [install_find, if_neg hkey] at hother
        exact hcover other hother
    · rw [install_keyHash]
      by_cases hb : bucketOf x.xxh3 key = bucket
      · have hmem : key ∈ inBucket x bucket (insert key s) :=
          Finset.mem_filter.mpr ⟨Finset.mem_insert_self key s, hb⟩
        rw [xorSum_update hmem, ← h.leaf_eq hcover, ← hb]
        simp [Store.install, MerkleTree.applyDelta, keyHash]
      · have hcongr : xorSum (inBucket x bucket (insert key s))
            (Function.update (st.keyHash x) key (hashOf x (some b))) =
            xorSum (inBucket x bucket (insert key s)) (st.keyHash x) := by
          apply xorSum_congr
          intro other hother
          have hne : other ≠ key := by
            rintro rfl
            exact hb (Finset.mem_filter.mp hother).2
          exact Function.update_of_ne hne _ _
        rw [hcongr, ← h.leaf_eq hcover]
        have hne : bucket ≠ bucketOf x.xxh3 key := fun hh => hb hh.symm
        simp [Store.install, MerkleTree.applyDelta, hne]

theorem Sound.applyPut (h : st.Sound x) (key body : Bytes) : (st.applyPut x key body).Sound x := by
  have hzstd : ({ st with zstd := (Blob.overwrite x.lite3 x.zstd st.zstd body).2 }).Sound x :=
    ⟨h.coherent, h.routed, h.leaves⟩
  obtain ⟨hcoherent, hrouted, hleaves⟩ :=
    hzstd.install key (Blob.overwrite x.lite3 x.zstd st.zstd body).1
  exact ⟨hcoherent, hrouted, hleaves⟩

theorem Sound.applyDel (h : st.Sound x) (key : Bytes) : (st.applyDel x key).Sound x :=
  h.install key Blob.empty

theorem Sound.settle (h : st.Sound x) {t : MerkleTree} (ht : t.Settled x.xxh3)
    (hleaves : t.leaves = st.merkle.leaves) : ({ st with merkle := t }).Sound x := by
  obtain ⟨s, hs, hsum⟩ := h.leaves
  refine ⟨ht.coherent, h.routed, s, hs, fun b => ?_⟩
  exact (congrFun hleaves b).trans (hsum b)

theorem Sound.getRootHash (h : st.Sound x) :
    ({ st with merkle := (st.merkle.getRootHash x.xxh3).2 }).Sound x := by
  obtain ⟨t, hroot, hsettled, hleaves⟩ := MerkleTree.getRootHash_spec h.coherent
  rw [hroot]
  exact h.settle hsettled hleaves

theorem Sound.mem_shard (h : st.Sound x) (shard : Fin 8) (key : Bytes) (b : Blob) :
    (key, b) ∈ (st.shards shard).toList ↔
      routingShard x.xxh3 key = shard ∧ st.find x key = some b := by
  rw [Std.ExtTreeMap.mem_toList_iff_getElem?_eq_some]
  constructor
  · intro hget
    have hshard := h.routed shard key (Std.ExtTreeMap.mem_iff_isSome_getElem?.mpr (by simp [hget]))
    exact ⟨hshard, by rw [find, hshard, hget]⟩
  · rintro ⟨rfl, hfind⟩
    exact hfind

/-- The keys of a bucket with their hashes, as an idle engine lists them. -/
def bucketKeys (x : External) (st : Store) (bucket : UInt32) : List (Bytes × UInt64) :=
  (List.finRange 8).flatMap fun shard => st.shardBucketKeys x shard bucket

theorem Sound.mem_bucketKeys (h : st.Sound x) {bucket : UInt32} {key : Bytes}
    {hash : UInt64} : (key, hash) ∈ st.bucketKeys x bucket ↔
      ∃ b, st.find x key = some b ∧ (bucketOf x.xxh3 key : Nat) = bucket.toNat ∧
        hash = x.xxh3 b.buf := by
  simp only [bucketKeys, shardBucketKeys, List.mem_flatMap, List.mem_finRange,
    true_and, List.mem_map, List.mem_filter, decide_eq_true_eq, Prod.exists, h.mem_shard]
  constructor
  · rintro ⟨shard, other, b, ⟨⟨-, hfind⟩, hbucket⟩, heq⟩
    cases heq
    exact ⟨b, hfind, hbucket, rfl⟩
  · rintro ⟨b, hfind, hbucket, rfl⟩
    exact ⟨_, key, b, ⟨⟨rfl, hfind⟩, hbucket⟩, rfl⟩

/-- No key is listed twice: a shard lists its keys once, and no key is in two shards. -/
theorem Sound.bucketKeys_nodup (h : st.Sound x) (bucket : UInt32) :
    ((st.bucketKeys x bucket).map Prod.fst).Nodup := by
  have hshard {shard : Fin 8} {key : Bytes}
      (hkey : key ∈ (st.shardBucketKeys x shard bucket).map Prod.fst) :
      routingShard x.xxh3 key = shard := by
    simp only [shardBucketKeys, List.map_map, List.mem_map, List.mem_filter,
      Function.comp_apply, Prod.exists] at hkey
    obtain ⟨other, b, ⟨hmem, -⟩, rfl⟩ := hkey
    exact ((h.mem_shard shard other b).mp hmem).1
  rw [bucketKeys, List.map_flatMap, List.nodup_flatMap]
  constructor
  · intro shard _
    rw [shardBucketKeys, List.map_map, List.Nodup, List.pairwise_map]
    refine List.Pairwise.filter _ (Std.ExtTreeMap.distinct_keys_toList.imp fun hne heq => ?_)
    exact hne (Std.LawfulEqCmp.compare_eq_iff_eq.mpr heq)
  · refine (List.nodup_finRange 8).imp fun hne key hs ht => ?_
    exact hne ((hshard hs).symm.trans (hshard ht))

theorem bucket_toNat (b : Fin 65536) : (UInt32.ofNat b).toNat = b := by
  rw [UInt32.toNat_ofNat']
  exact Nat.mod_eq_of_lt (lt_trans b.isLt (by decide))

theorem Sound.leaf_eq_listed (h : st.Sound x) (b : Fin 65536) :
    st.merkle.leaves b =
      xorAll ((st.bucketKeys x (UInt32.ofNat b)).map Prod.snd) := by
  have hkeys (key : Bytes) : key ∈ (st.bucketKeys x (UInt32.ofNat b)).map Prod.fst ↔
      st.find x key ≠ none ∧ bucketOf x.xxh3 key = b := by
    simp only [List.mem_map, Prod.exists, h.mem_bucketKeys, bucket_toNat, exists_and_right,
      exists_eq_right, Option.ne_none_iff_exists', Fin.ext_iff]
    constructor
    · rintro ⟨hash, blob, hfind, hb, -⟩
      exact ⟨⟨blob, hfind⟩, hb⟩
    · rintro ⟨⟨blob, hfind⟩, hb⟩
      exact ⟨_, blob, hfind, hb, rfl⟩
  have hhash : (st.bucketKeys x (UInt32.ofNat b)).map Prod.snd =
      ((st.bucketKeys x (UInt32.ofNat b)).map Prod.fst).map (st.keyHash x) := by
    rw [List.map_map]
    refine List.map_congr_left fun entry hentry => ?_
    obtain ⟨blob, hfind, -, hsnd⟩ := h.mem_bucketKeys.mp hentry
    rw [hsnd, Function.comp_apply, keyHash, hfind]
    rfl
  obtain ⟨s, hs, hleaves⟩ := h.leaves
  rw [hleaves b, hhash, ← xorSum_toFinset (h.bucketKeys_nodup _)]
  refine xorSum_subset (fun key hkey => ?_) fun key hkey hout => ?_
  · obtain ⟨hfind, hb⟩ := (hkeys key).mp (List.mem_toFinset.mp hkey)
    exact Finset.mem_filter.mpr ⟨hs key hfind, hb⟩
  · by_contra hne
    have hlisted := (hkeys key).mpr ⟨keyHash_ne_zero hne, (Finset.mem_filter.mp hkey).2⟩
    exact hout (List.mem_toFinset.mpr hlisted)

end Store

end L3KV
