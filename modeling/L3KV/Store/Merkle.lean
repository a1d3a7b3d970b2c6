import L3KV.Framework.LazyLevel
import L3KV.Framework.Words

/-!
# The Merkle tree

Keys fall into 65536 buckets by the top bits of their hash. A leaf is the XOR of the hashes
of the values in its bucket, and each inner node hashes a block of sixteen nodes below it.
A write changes one leaf and flags its parent; the inner levels are brought up to date only
when the root is asked for.
-/

namespace L3KV

open Framework

/-- `XXH3_64bits` over sixteen `uint64_t`. -/
def hashBlock (xxh3 : Bytes → UInt64) (block : Fin 16 → UInt64) : UInt64 :=
  xxh3 ((List.ofFn block).flatMap fun h => leBytes 8 h.toNat)

/-- `i * 16 + k`, the `k`-th node below node `i`. -/
def childIdx {n : Nat} (i : Fin n) (k : Fin 16) : Fin (16 * n) :=
  ⟨i * 16 + k, by omega⟩

/-- `j >> 4`. -/
def parentIdx {n : Nat} (j : Fin (16 * n)) : Fin n := ⟨j / 16, by omega⟩

/-- The hash of the block below node `i`. -/
def blockHash (xxh3 : Bytes → UInt64) {n : Nat} (below : Fin (16 * n) → UInt64) (i : Fin n) :
    UInt64 :=
  hashBlock xxh3 fun k => below (childIdx i k)

private theorem parentIdx_childIdx {n : Nat} (i : Fin n) (k : Fin 16) :
    parentIdx (childIdx i k) = i := by
  apply Fin.ext
  simp only [parentIdx, childIdx]
  omega

theorem blockHash_congr (xxh3 : Bytes → UInt64) {n : Nat} (f g : Fin (16 * n) → UInt64) (i : Fin n)
    (h : ∀ j, parentIdx j = i → f j = g j) : blockHash xxh3 f i = blockHash xxh3 g i := by
  unfold blockHash
  congr 1
  funext k
  exact h _ (parentIdx_childIdx i k)

structure MerkleTree where
  leaves : Fin 65536 → UInt64
  l3 : LazyLevel UInt64 4096
  l2 : LazyLevel UInt64 256
  l1 : LazyLevel UInt64 16
  l0 : LazyLevel UInt64 1

/-- `(k_hash >> 48) & 0xFFFF`. -/
def bucketOf (xxh3 : Bytes → UInt64) (key : Bytes) : Fin 65536 :=
  ⟨((xxh3 key >>> 48) &&& 0xFFFF).toNat, by
    rw [UInt64.toNat_and]
    exact lt_of_le_of_lt Nat.and_le_right (by decide)⟩

namespace MerkleTree

section

variable (xxh3 : Bytes → UInt64)

/-- `MerkleTree()`: zero leaves, and every inner level filled with the hash of such a block. -/
def init : MerkleTree :=
  let hL3 := hashBlock xxh3 fun _ => 0
  let hL2 := hashBlock xxh3 fun _ => hL3
  let hL1 := hashBlock xxh3 fun _ => hL2
  let hL0 := hashBlock xxh3 fun _ => hL1
  { leaves := fun _ => 0
    l3 := ⟨fun _ => hL3, fun _ => false⟩
    l2 := ⟨fun _ => hL2, fun _ => false⟩
    l1 := ⟨fun _ => hL1, fun _ => false⟩
    l0 := ⟨fun _ => hL0, fun _ => false⟩ }

def applyDelta (t : MerkleTree) (key : Bytes) (hashDelta : UInt64) : MerkleTree :=
  let b := bucketOf xxh3 key
  { t with
    leaves := Function.update t.leaves b (t.leaves b ^^^ hashDelta)
    l3 := t.l3.mark (parentIdx (n := 4096) b) }

/-- The work `recompute_dirty` does on the third level under the lock of one shard. -/
def recomputeShard (t : MerkleTree) (shard : Fin 256) : MerkleTree :=
  let s := LazyLevel.refreshList (blockHash xxh3 (n := 4096) t.leaves)
    (parentIdx (n := 256)) (List.ofFn fun i => childIdx shard i) (t.l3, t.l2)
  { t with l3 := s.1, l2 := s.2 }

/-- The serial second phase of `recompute_dirty`. -/
def recomputeL2 (t : MerkleTree) : MerkleTree :=
  let s := LazyLevel.refreshAll (blockHash xxh3 (n := 256) t.l3.nodes) (parentIdx (n := 16))
    (t.l2, t.l1)
  { t with l2 := s.1, l1 := s.2 }

/-- The third phase. -/
def recomputeL1 (t : MerkleTree) : MerkleTree :=
  let s := LazyLevel.refreshAll (blockHash xxh3 (n := 16) t.l2.nodes) (parentIdx (n := 1))
    (t.l1, t.l0)
  { t with l1 := s.1, l0 := s.2 }

/-- The fourth phase, the root. -/
def recomputeL0 (t : MerkleTree) : MerkleTree :=
  if t.l0.dirty 0 then
    { t with l0 := ⟨fun _ => blockHash xxh3 (n := 1) t.l1.nodes 0, fun _ => false⟩ }
  else t

def recomputeDirty (t : MerkleTree) : MerkleTree :=
  recomputeL0 xxh3 (recomputeL1 xxh3 (recomputeL2 xxh3
    ((List.finRange 256).foldl (recomputeShard xxh3) t)))

/-- `get_root_hash`, with the tree it leaves behind. -/
def getRootHash (t : MerkleTree) : UInt64 × MerkleTree :=
  let t := t.recomputeDirty xxh3
  (t.l0.nodes 0, t)

end

/-- The cell `index` of a vector; `none` is a read out of its bounds. -/
def cell {n : Nat} (nodes : Fin n → UInt64) (index : Nat) : Option UInt64 :=
  if h : index < n then some (nodes ⟨index, h⟩) else none

/-- `get_node_hash`, which reads the levels as they are. -/
def getNodeHash (t : MerkleTree) (level : UInt8) (index : Nat) : Option UInt64 :=
  if level = 0 then some (t.l0.nodes 0)
  else if level = 1 then cell t.l1.nodes index
  else if level = 2 then cell t.l2.nodes index
  else if level = 3 then cell t.l3.nodes index
  else if level = 4 then cell t.leaves index
  else some 0

end MerkleTree

/-- The levels above the given leaves, hashed from scratch. -/
def scratchL3 (xxh3 : Bytes → UInt64) (leaves : Fin 65536 → UInt64) : Fin 4096 → UInt64 :=
  blockHash xxh3 (n := 4096) leaves

@[inherit_doc scratchL3]
def scratchL2 (xxh3 : Bytes → UInt64) (leaves : Fin 65536 → UInt64) : Fin 256 → UInt64 :=
  blockHash xxh3 (n := 256) (scratchL3 xxh3 leaves)

@[inherit_doc scratchL3]
def scratchL1 (xxh3 : Bytes → UInt64) (leaves : Fin 65536 → UInt64) : Fin 16 → UInt64 :=
  blockHash xxh3 (n := 16) (scratchL2 xxh3 leaves)

@[inherit_doc scratchL3]
def scratchL0 (xxh3 : Bytes → UInt64) (leaves : Fin 65536 → UInt64) : Fin 1 → UInt64 :=
  blockHash xxh3 (n := 1) (scratchL1 xxh3 leaves)

namespace MerkleTree

variable {xxh3 : Bytes → UInt64}

/-- At every level, a node that is not flagged is the hash of the block below it. -/
structure Coherent (xxh3 : Bytes → UInt64) (t : MerkleTree) : Prop where
  l3 : t.l3.Coherent (blockHash xxh3 (n := 4096) t.leaves)
  l2 : t.l2.Coherent (blockHash xxh3 (n := 256) t.l3.nodes)
  l1 : t.l1.Coherent (blockHash xxh3 (n := 16) t.l2.nodes)
  l0 : t.l0.Coherent (blockHash xxh3 (n := 1) t.l1.nodes)

theorem init_coherent : (init xxh3).Coherent xxh3 :=
  ⟨fun _ _ => rfl, fun _ _ => rfl, fun _ _ => rfl, fun _ _ => rfl⟩

theorem applyDelta_coherent {t : MerkleTree} (h : t.Coherent xxh3) (key : Bytes) (delta : UInt64) :
    (t.applyDelta xxh3 key delta).Coherent xxh3 := by
  refine ⟨fun i hclean => ?_, h.l2, h.l1, h.l0⟩
  -- A clean parent is not the one of the changed leaf, so its block is as before.
  have hne : i ≠ parentIdx (n := 4096) (bucketOf xxh3 key) := by
    rintro rfl
    simp [applyDelta, LazyLevel.mark] at hclean
  have hbefore : t.l3.dirty i = false := by
    simpa [applyDelta, LazyLevel.mark, hne] using hclean
  refine (h.l3 i hbefore).trans (blockHash_congr xxh3 _ _ i fun j hj => ?_)
  have hj' : j ≠ bucketOf xxh3 key := by
    rintro rfl
    exact hne hj.symm
  simp [applyDelta, hj']

private theorem shard_indices_mem (j : Fin 4096) :
    j ∈ List.ofFn (fun i => childIdx (parentIdx (n := 256) j) i) := by
  rw [List.mem_ofFn]
  refine ⟨⟨j % 16, by omega⟩, Fin.ext ?_⟩
  simp only [childIdx, parentIdx]
  omega

theorem recomputeShard_spec {t : MerkleTree} (h : t.Coherent xxh3) (shard : Fin 256) :
    (t.recomputeShard xxh3 shard).Coherent xxh3 ∧
      (∀ j, parentIdx (n := 256) j = shard → (t.recomputeShard xxh3 shard).l3.dirty j = false) ∧
      ∀ j, t.l3.dirty j = false → (t.recomputeShard xxh3 shard).l3.dirty j = false := by
  have hlevel := LazyLevel.refreshList_level (blockHash xxh3 (n := 4096) t.leaves)
    (parentIdx (n := 256)) (List.ofFn fun i => childIdx shard i) (t.l3, t.l2)
  have hl2nodes : (t.recomputeShard xxh3 shard).l2.nodes = t.l2.nodes :=
    (LazyLevel.refreshList_up _ _ _ _).1
  refine ⟨⟨h.l3.refresh _ _ _, ?_, ?_, h.l0⟩, ?_, ?_⟩
  · exact h.l2.refresh_up _ _ (blockHash xxh3 (n := 256))
      (fun f g j => blockHash_congr xxh3 f g j) _
  · rw [hl2nodes]
    exact h.l1
  · rintro j rfl
    refine ((hlevel j).2).trans ?_
    simp only [shard_indices_mem j, not_true, decide_false, Bool.and_false]
  · intro j hj
    refine ((hlevel j).2).trans ?_
    simp only [hj, Bool.false_and]

private theorem foldl_recomputeShard_spec {t : MerkleTree} (h : t.Coherent xxh3)
    (shards : List (Fin 256)) :
    (shards.foldl (recomputeShard xxh3) t).Coherent xxh3 ∧
      (shards.foldl (recomputeShard xxh3) t).leaves = t.leaves ∧
      ∀ j, (t.l3.dirty j = false ∨ parentIdx (n := 256) j ∈ shards) →
        (shards.foldl (recomputeShard xxh3) t).l3.dirty j = false := by
  induction shards generalizing t with
  | nil =>
      refine ⟨h, rfl, fun j hj => ?_⟩
      rcases hj with hj | hj
      · exact hj
      · simp at hj
  | cons s shards ih =>
      obtain ⟨hcoh, hdone, hkept⟩ := recomputeShard_spec h s
      obtain ⟨hcoh', hleaves, hclean⟩ := ih hcoh
      refine ⟨hcoh', hleaves.trans rfl, fun j hj => hclean j ?_⟩
      rcases hj with hj | hj
      · exact Or.inl (hkept j hj)
      · rcases List.mem_cons.mp hj with hj | hj
        · exact Or.inl (hdone j hj)
        · exact Or.inr hj

/-- Every level is the hash from scratch of the leaves, with nothing flagged. -/
structure Settled (xxh3 : Bytes → UInt64) (t : MerkleTree) : Prop where
  l3 : t.l3.Current (scratchL3 xxh3 t.leaves)
  l2 : t.l2.Current (scratchL2 xxh3 t.leaves)
  l1 : t.l1.Current (scratchL1 xxh3 t.leaves)
  l0 : t.l0.Current (scratchL0 xxh3 t.leaves)

theorem Settled.coherent {t : MerkleTree} (h : t.Settled xxh3) : t.Coherent xxh3 where
  l3 := h.l3.coherent
  l2 := by
    rw [h.l3.1]
    exact h.l2.coherent
  l1 := by
    rw [h.l2.1]
    exact h.l1.coherent
  l0 := by
    rw [h.l1.1]
    exact h.l0.coherent

theorem recomputeL2_spec {t : MerkleTree} (h : t.Coherent xxh3) :
    (t.recomputeL2 xxh3).Coherent xxh3 ∧ ∀ j, (t.recomputeL2 xxh3).l2.dirty j = false := by
  have hnodes := LazyLevel.refreshAll_up_nodes (blockHash xxh3 (n := 256) t.l3.nodes)
    (parentIdx (n := 16)) (t.l2, t.l1)
  have hlevels := LazyLevel.Coherent.refreshAll (parentIdx (n := 16))
    (blockHash xxh3 (n := 16)) (fun f g j => blockHash_congr xxh3 f g j) h.l2 h.l1
  unfold recomputeL2
  generalize LazyLevel.refreshAll (blockHash xxh3 (n := 256) t.l3.nodes)
    (parentIdx (n := 16)) (t.l2, t.l1) = s at hnodes hlevels ⊢
  refine ⟨⟨h.l3, hlevels.1.coherent, ?_, ?_⟩, hlevels.1.2⟩
  · exact hlevels.1.1 ▸ hlevels.2
  · exact hnodes ▸ h.l0

theorem recomputeL1_spec {t : MerkleTree} (h : t.Coherent xxh3) :
    (t.recomputeL1 xxh3).Coherent xxh3 ∧ ∀ j, (t.recomputeL1 xxh3).l1.dirty j = false := by
  have hlevels := LazyLevel.Coherent.refreshAll (parentIdx (n := 1))
    (blockHash xxh3 (n := 1)) (fun f g j => blockHash_congr xxh3 f g j) h.l1 h.l0
  unfold recomputeL1
  generalize LazyLevel.refreshAll (blockHash xxh3 (n := 16) t.l2.nodes)
    (parentIdx (n := 1)) (t.l1, t.l0) = s at hlevels ⊢
  refine ⟨⟨h.l3, h.l2, hlevels.1.coherent, ?_⟩, hlevels.1.2⟩
  exact hlevels.1.1 ▸ hlevels.2

theorem recomputeL0_spec {t : MerkleTree} (h : t.Coherent xxh3) :
    (t.recomputeL0 xxh3).Coherent xxh3 ∧ ∀ j, (t.recomputeL0 xxh3).l0.dirty j = false := by
  unfold recomputeL0
  split
  · refine ⟨⟨h.l3, h.l2, h.l1, fun j _ => ?_⟩, fun _ => rfl⟩
    rw [Subsingleton.elim j 0]
  · rename_i hclean
    refine ⟨h, fun j => ?_⟩
    rw [Subsingleton.elim j 0]
    simpa using hclean

private theorem Coherent.settled {t : MerkleTree} (h : t.Coherent xxh3)
    (h3 : ∀ j, t.l3.dirty j = false) (h2 : ∀ j, t.l2.dirty j = false)
    (h1 : ∀ j, t.l1.dirty j = false) (h0 : ∀ j, t.l0.dirty j = false) : t.Settled xxh3 := by
  have hl3 : t.l3.Current (scratchL3 xxh3 t.leaves) := h.l3.current h3
  have hl2 : t.l2.Current (scratchL2 xxh3 t.leaves) := by
    rw [scratchL2, ← hl3.1]
    exact h.l2.current h2
  have hl1 : t.l1.Current (scratchL1 xxh3 t.leaves) := by
    rw [scratchL1, ← hl2.1]
    exact h.l1.current h1
  refine ⟨hl3, hl2, hl1, ?_⟩
  rw [scratchL0, ← hl1.1]
  exact h.l0.current h0

theorem recomputeL2_frame (xxh3 : Bytes → UInt64) (t : MerkleTree) :
    (t.recomputeL2 xxh3).leaves = t.leaves ∧ (t.recomputeL2 xxh3).l3 = t.l3 := by
  unfold recomputeL2
  exact ⟨rfl, rfl⟩

theorem recomputeL1_frame (xxh3 : Bytes → UInt64) (t : MerkleTree) :
    (t.recomputeL1 xxh3).leaves = t.leaves ∧ (t.recomputeL1 xxh3).l3 = t.l3 ∧
      (t.recomputeL1 xxh3).l2 = t.l2 := by
  unfold recomputeL1
  exact ⟨rfl, rfl, rfl⟩

theorem recomputeL0_frame (xxh3 : Bytes → UInt64) (t : MerkleTree) :
    (t.recomputeL0 xxh3).leaves = t.leaves ∧ (t.recomputeL0 xxh3).l3 = t.l3 ∧
      (t.recomputeL0 xxh3).l2 = t.l2 ∧ (t.recomputeL0 xxh3).l1 = t.l1 := by
  unfold recomputeL0
  split <;> exact ⟨rfl, rfl, rfl, rfl⟩

private theorem recomputeDirty_settled {t : MerkleTree} (h : t.Coherent xxh3) :
    (t.recomputeDirty xxh3).Settled xxh3 ∧ (t.recomputeDirty xxh3).leaves = t.leaves := by
  obtain ⟨hcoh, hleaves, hclean⟩ := foldl_recomputeShard_spec h (List.finRange 256)
  unfold recomputeDirty
  generalize (List.finRange 256).foldl (recomputeShard xxh3) t = u at hcoh hleaves hclean ⊢
  obtain ⟨hcoh2, hclean2⟩ := recomputeL2_spec hcoh
  obtain ⟨hcoh1, hclean1⟩ := recomputeL1_spec hcoh2
  obtain ⟨hcoh0, hclean0⟩ := recomputeL0_spec hcoh1
  have hframe2 := recomputeL2_frame xxh3 u
  have hframe1 := recomputeL1_frame xxh3 (u.recomputeL2 xxh3)
  have hframe0 := recomputeL0_frame xxh3 ((u.recomputeL2 xxh3).recomputeL1 xxh3)
  refine ⟨hcoh0.settled ?_ ?_ ?_ hclean0, ?_⟩
  · rw [hframe0.2.1, hframe1.2.1, hframe2.2]
    intro j
    exact hclean j (Or.inr (List.mem_finRange _))
  · rw [hframe0.2.2.1, hframe1.2.2]
    exact hclean2
  · rw [hframe0.2.2.2]
    exact hclean1
  · rw [hframe0.1, hframe1.1, hframe2.1, hleaves]

theorem getRootHash_of {t r : MerkleTree} (hr : t.recomputeDirty xxh3 = r) :
    t.getRootHash xxh3 = (r.l0.nodes 0, r) := by
  unfold getRootHash
  rw [hr]

/-- The root hash is the one of the current leaves, hashed from scratch, and asking for it
settles the tree. -/
theorem getRootHash_spec {t : MerkleTree} (h : t.Coherent xxh3) :
    ∃ r : MerkleTree, t.getRootHash xxh3 = (scratchL0 xxh3 t.leaves 0, r) ∧
      r.Settled xxh3 ∧ r.leaves = t.leaves := by
  obtain ⟨hsettled, hleaves⟩ := recomputeDirty_settled h
  refine ⟨_, getRootHash_of rfl |>.trans ?_, hsettled, hleaves⟩
  rw [hsettled.l0.1, hleaves]

end MerkleTree

end L3KV
