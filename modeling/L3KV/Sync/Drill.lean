import L3KV.Framework.TreePull
import L3KV.Sync.Network

/-!
# Drilling down

The exchange of node hashes is an instance of pulling through a tree of arity sixteen. Here its
messages are put on the wire, and one delivery in the network is shown to be one delivery there.
-/

namespace L3KV

open Framework

/-- The inner levels are those of the given leaves, whatever the leaves are now. -/
structure MerkleTree.Frozen (xxh3 : Bytes → UInt64) (leaves : Fin 65536 → UInt64) (t : MerkleTree) :
    Prop where
  l3 : t.l3.nodes = scratchL3 xxh3 leaves
  l2 : t.l2.nodes = scratchL2 xxh3 leaves
  l1 : t.l1.nodes = scratchL1 xxh3 leaves

/-- The cell of a level, and zero outside. -/
def cellOr {n : Nat} (nodes : Fin n → UInt64) (i : Nat) : UInt64 := (MerkleTree.cell nodes i).getD 0

/-- The node at a height above the buckets. Only the buckets are read live. -/
def nodeAt (xxh3 : Bytes → UInt64) (frozen live : Fin 65536 → UInt64) : Nat → Nat → UInt64
  | 0, i => cellOr live i
  | 1, i => cellOr (scratchL3 xxh3 frozen) i
  | 2, i => cellOr (scratchL2 xxh3 frozen) i
  | 3, i => cellOr (scratchL1 xxh3 frozen) i
  | _, _ => 0

def levelOf (height : Nat) : UInt8 := UInt8.ofNat (4 - height)

/-- A node that has children at this height. -/
structure HasChildren (height parent : Nat) : Prop where
  low : height ≤ 3
  inside : parent < 16 ^ (3 - height)

section

variable {x : External} {u : Nat → Nat → UInt8} {e : Engine} {xxh3 : Bytes → UInt64}
  {leaves : Fin 65536 → UInt64} {height parent : Nat}

theorem MerkleTree.Settled.frozen {t : MerkleTree} (h : t.Settled xxh3) : t.Frozen xxh3 t.leaves :=
  ⟨h.l3.1, h.l2.1, h.l1.1⟩

theorem MerkleTree.Frozen.nodeHash {t : MerkleTree} (h : t.Frozen xxh3 leaves) (hlow : height ≤ 3)
    (i : Nat) : t.nodeHash (levelOf height) i = nodeAt xxh3 leaves t.leaves height i := by
  match height with
  | 0 => rfl
  | 1 =>
      rw [nodeAt, ← h.l3]
      rfl
  | 2 =>
      rw [nodeAt, ← h.l2]
      rfl
  | 3 =>
      rw [nodeAt, ← h.l1]
      rfl
  | n + 4 => omega

namespace HasChildren

theorem lt (h : HasChildren height parent) : parent < 4096 := by
  have hle : 16 ^ (3 - height) ≤ 16 ^ 3 := Nat.pow_le_pow_right (by decide) (by omega)
  exact lt_of_lt_of_le h.inside hle

theorem toNat (h : HasChildren height parent) : (UInt32.ofNat parent).toNat = parent := by
  have hlt := h.lt
  rw [UInt32.toNat_ofNat']
  omega

theorem onLevel (h : HasChildren height parent) :
    OnLevel (levelOf height) (UInt32.ofNat parent) := by
  have hlow := h.low
  have hlevel : (levelOf height).toNat = 4 - height := by
    rw [levelOf, UInt8.toNat_ofNat']
    omega
  constructor
  · omega
  · omega
  · rw [h.toNat, hlevel, show 4 - height - 1 = 3 - height by omega]
    exact h.inside

theorem childNode (h : HasChildren height parent) {i : Nat} (hi : i < 16) :
    childNode (UInt32.ofNat parent) i = UInt32.ofNat (parent * 16 + i) := by
  have hlt := h.lt
  apply UInt32.toNat.inj
  rw [h.onLevel.childNode_toNat hi, h.toNat, UInt32.toNat_ofNat']
  omega

end HasChildren

end

/-- The hashes a node with these leaves sends about the children of a node. -/
def sentHashes (xxh3 : Bytes → UInt64) (leaves : Fin 65536 → UInt64) (height parent : Nat) :
    List UInt64 :=
  (List.range 16).map fun i => nodeAt xxh3 leaves leaves height (parent * 16 + i)

/-- A message of the exchange on the wire, when `b` pulls from `a`: what is sent about buckets and
values is left to the parameters. -/
def wire {κ : Type*} (xxh3 : Bytes → UInt64) (a b : NodeID) (leaves : Fin 65536 → UInt64)
    (list : Nat → SyncMessage) (get put : κ → SyncMessage) : TreePull.Msg κ → NodeID × Bytes
  | .reqNode h p => (a, (SyncMessage.reqNode (levelOf h) (UInt32.ofNat p)).encode b)
  | .repNode h p =>
      (b, (SyncMessage.repNode (levelOf h) (UInt32.ofNat p) (sentHashes xxh3 leaves h p)).encode a)
  | .reqBucket i => (a, (SyncMessage.reqBucket (UInt32.ofNat i)).encode b)
  | .repBucket i => (b, (list i).encode a)
  | .getVal k => (a, (get k).encode b)
  | .putVal k => (b, (put k).encode a)

/-- What is asked about a child that differs. -/
def drillMsg {κ : Type*} : Nat → Nat → TreePull.Msg κ
  | 0, c => .reqBucket c
  | h + 1, c => .reqNode h c

section

variable {x : External} {u : Nat → Nat → UInt8} {e : Engine} {a b : NodeID} {κ : Type*}
  {leaves frozen : Fin 65536 → UInt64} {list : Nat → SyncMessage} {get put : κ → SyncMessage}
  {height parent : Nat}

theorem handle_reqNode (hfrozen : e.store.merkle.Frozen x.xxh3 leaves)
    (hleaves : e.store.merkle.leaves = leaves) (h : HasChildren height parent) :
    handleMessage x u a e (wire x.xxh3 a b leaves list get put (.reqNode height parent)).2 =
      some (e, [wire x.xxh3 a b leaves list get put (.repNode height parent)]) := by
  have hhashes : childHashes e (levelOf height) (UInt32.ofNat parent) =
      some (sentHashes x.xxh3 leaves height parent) := by
    rw [childHashes_eq e h.onLevel, sentHashes, h.toNat]
    simp only [hfrozen.nodeHash h.low, hleaves]
  have hfits : (SyncMessage.reqNode (levelOf height) (UInt32.ofNat parent)).Fits := trivial
  rw [wire, handleMessage_encode a b e hfits]
  simp only [SyncMessage.received, answer, onReqNode, hhashes, Option.map_some, List.map_cons,
    List.map_nil, wire]

theorem handle_repNode (hfrozen : e.store.merkle.Frozen x.xxh3 frozen)
    (h : HasChildren height parent) :
    handleMessage x u b e (wire x.xxh3 a b leaves list get put (.repNode height parent)).2 =
      some (e, ((((List.range 16).map fun i => parent * 16 + i).filter fun c =>
        decide (nodeAt x.xxh3 frozen e.store.merkle.leaves height c ≠
          nodeAt x.xxh3 leaves leaves height c)).map (drillMsg height)).map
            (wire x.xxh3 a b leaves list get put)) := by
  have hhashes : childHashes e (levelOf height) (UInt32.ofNat parent) =
      some ((List.range 16).map fun i =>
        nodeAt x.xxh3 frozen e.store.merkle.leaves height (parent * 16 + i)) := by
    rw [childHashes_eq e h.onLevel, h.toNat]
    simp only [hfrozen.nodeHash h.low]
  have hdrill (i : Nat) (hi : i < 16) :
      (a, (drillDown (levelOf height) (childNode (UInt32.ofNat parent) i)).encode b) =
        wire x.xxh3 a b leaves list get put (drillMsg height (parent * 16 + i)) := by
    rw [h.childNode hi]
    match height, h.low with
    | 0, _ => rfl
    | 1, _ => rfl
    | 2, _ => rfl
    | 3, _ => rfl
  have hfits : (SyncMessage.repNode (levelOf height) (UInt32.ofNat parent)
      (sentHashes x.xxh3 leaves height parent)).Fits := by
    simp [SyncMessage.Fits, sentHashes]
  rw [wire, handleMessage_encode b a e hfits]
  simp only [SyncMessage.received, answer, onRepNode, hhashes, Option.map_some, List.map_map,
    List.filter_map]
  have hfilter : (List.range 16).filter (fun i => decide (((List.range 16).map fun i =>
        nodeAt x.xxh3 frozen e.store.merkle.leaves height (parent * 16 + i)).getD i 0 ≠
          (sentHashes x.xxh3 leaves height parent).getD i 0)) =
      (List.range 16).filter ((fun c => decide (nodeAt x.xxh3 frozen e.store.merkle.leaves height c ≠
          nodeAt x.xxh3 leaves leaves height c)) ∘ fun i => parent * 16 + i) := by
    refine List.filter_congr fun i hi => ?_
    have hi16 : i < 16 := List.mem_range.mp hi
    simp [sentHashes, List.getD_eq_getElem?_getD, hi16]
  rw [hfilter]
  congr 2
  refine List.map_congr_left fun i hi => ?_
  exact hdrill i (List.mem_range.mp (List.mem_of_mem_filter hi))

end

/-- The sixteen hashes below a node, as they are hashed. -/
def blockBytes {n : Nat} (below : Fin (16 * n) → UInt64) (i : Fin n) : Bytes :=
  (List.ofFn fun k => below (childIdx i k)).flatMap fun h => leBytes 8 h.toNat

/-- The blocks that are hashed in a tree over these leaves. -/
def treeBlocks (xxh3 : Bytes → UInt64) (leaves : Fin 65536 → UInt64) : Set Bytes :=
  Set.range (blockBytes (n := 4096) leaves) ∪ Set.range (blockBytes (n := 256) (scratchL3 xxh3 leaves)) ∪
    Set.range (blockBytes (n := 16) (scratchL2 xxh3 leaves)) ∪
    Set.range (blockBytes (n := 1) (scratchL1 xxh3 leaves))

section

variable {xxh3 : Bytes → UInt64} {leavesA leavesB : Fin 65536 → UInt64}

private theorem blockHash_eq {n : Nat} (below : Fin (16 * n) → UInt64) (i : Fin n) :
    blockHash xxh3 below i = xxh3 (blockBytes below i) := rfl

private theorem blockBytes_inj {n : Nat} {f g : Fin (16 * n) → UInt64} {i : Fin n}
    (h : blockBytes f i = blockBytes g i) (k : Fin 16) : f (childIdx i k) = g (childIdx i k) := by
  have hread (below : Fin (16 * n) → UInt64) :
      readWord 8 (blockBytes below i) (k * 8) = (below (childIdx i k)).toNat := by
    rw [blockBytes, readWord_hashes _ k (by simp), List.getElem_ofFn]
  apply UInt64.toNat.inj
  rw [← hread f, h, hread g]

private theorem childIdx_parentIdx {n : Nat} (j : Fin (16 * n)) :
    ∃ k, childIdx (parentIdx j) k = j := by
  refine ⟨⟨j % 16, Nat.mod_lt _ (by decide)⟩, Fin.ext ?_⟩
  simp only [childIdx, parentIdx]
  omega

private theorem blockHash_ne {S : Set Bytes} (hinj : Set.InjOn xxh3 S) {n : Nat}
    {f g : Fin (16 * n) → UInt64} (hf : Set.range (blockBytes f) ⊆ S)
    (hg : Set.range (blockBytes g) ⊆ S) {j : Fin (16 * n)} (hne : f j ≠ g j) :
    blockHash xxh3 f (parentIdx j) ≠ blockHash xxh3 g (parentIdx j) := by
  intro heq
  have hbytes := hinj (hf ⟨parentIdx j, rfl⟩) (hg ⟨parentIdx j, rfl⟩) heq
  obtain ⟨k, hk⟩ := childIdx_parentIdx j
  apply hne
  rw [← hk]
  exact blockBytes_inj hbytes k

theorem cellOr_eq {n : Nat} (nodes : Fin n → UInt64) (i : Fin n) : cellOr nodes i = nodes i := by
  simp [cellOr, MerkleTree.cell]

private theorem cellOr_ne {n : Nat} {f g : Fin n → UInt64} {i : Nat} (h : cellOr f i ≠ cellOr g i) :
    ∃ hi : i < n, f ⟨i, hi⟩ ≠ g ⟨i, hi⟩ := by
  by_cases hi : i < n
  · refine ⟨hi, ?_⟩
    rwa [← cellOr_eq f ⟨i, hi⟩, ← cellOr_eq g ⟨i, hi⟩]
  · simp [cellOr, MerkleTree.cell, hi] at h

private theorem cellOr_blockHash_ne {S : Set Bytes} (hinj : Set.InjOn xxh3 S) {n : Nat}
    {f g : Fin (16 * n) → UInt64} (hf : Set.range (blockBytes f) ⊆ S)
    (hg : Set.range (blockBytes g) ⊆ S) {i : Nat} (hne : cellOr f i ≠ cellOr g i) :
    cellOr (blockHash xxh3 f) (i / 16) ≠ cellOr (blockHash xxh3 g) (i / 16) := by
  obtain ⟨hi, hne⟩ := cellOr_ne hne
  have hparent : i / 16 = (parentIdx ⟨i, hi⟩ : Fin n) := rfl
  rw [hparent, cellOr_eq, cellOr_eq]
  exact blockHash_ne hinj hf hg hne

section

variable (hinj : Set.InjOn xxh3 (treeBlocks xxh3 leavesA ∪ treeBlocks xxh3 leavesB))

include hinj

private theorem nodeAt_up {height i : Nat} (hlow : height < 3)
    (hne : nodeAt xxh3 leavesB leavesB height i ≠ nodeAt xxh3 leavesA leavesA height i) :
    nodeAt xxh3 leavesB leavesB (height + 1) (i / 16) ≠
      nodeAt xxh3 leavesA leavesA (height + 1) (i / 16) := by
  match height, hlow with
  | 0, _ => exact cellOr_blockHash_ne (n := 4096) hinj (by grind [treeBlocks]) (by grind [treeBlocks]) hne
  | 1, _ => exact cellOr_blockHash_ne (n := 256) hinj (by grind [treeBlocks]) (by grind [treeBlocks]) hne
  | 2, _ => exact cellOr_blockHash_ne (n := 16) hinj (by grind [treeBlocks]) (by grind [treeBlocks]) hne

theorem nodeAt_ne {i : Fin 65536} (hne : leavesB i ≠ leavesA i) (height : Nat) (hlow : height ≤ 3) :
    nodeAt xxh3 leavesB leavesB height (i / 16 ^ height) ≠
      nodeAt xxh3 leavesA leavesA height (i / 16 ^ height) := by
  induction height with
  | zero => simpa [nodeAt, cellOr_eq] using hne
  | succ height ih =>
      have hup := nodeAt_up hinj (Nat.lt_of_succ_le hlow) (ih (Nat.le_of_succ_le hlow))
      rwa [Nat.div_div_eq_div_mul, ← pow_succ] at hup

theorem root_ne {i : Fin 65536} (hne : leavesB i ≠ leavesA i) :
    scratchL0 xxh3 leavesB 0 ≠ scratchL0 xxh3 leavesA 0 := by
  have htop := cellOr_blockHash_ne (n := 1) hinj (by grind [treeBlocks]) (by grind [treeBlocks])
    (nodeAt_ne hinj hne 3 (le_refl 3))
  have hzero : (i : Nat) / 16 ^ 3 / 16 = (0 : Fin 1) := by
    have := i.isLt
    simp only [Fin.val_zero]
    omega
  rwa [hzero, cellOr_eq, cellOr_eq] at htop

end

/-- A node right above the leaves differs only when a leaf below it does. -/
theorem exists_leaf_ne {i : Fin 65536}
    (hne : nodeAt xxh3 leavesB leavesB 1 (i / 16) ≠ nodeAt xxh3 leavesA leavesA 1 (i / 16)) :
    ∃ j : Fin 65536, (j : Nat) / 16 = i / 16 ∧ leavesB j ≠ leavesA j := by
  by_contra hall
  simp only [not_exists, not_and, not_not] at hall
  have hparent : (i : Nat) / 16 = (parentIdx (n := 4096) i) := rfl
  apply hne
  rw [nodeAt, nodeAt, hparent, cellOr_eq, cellOr_eq]
  refine blockHash_congr xxh3 _ _ _ fun j hj => hall j ?_
  exact congrArg Fin.val hj

theorem nodeAt_inner (frozen live live' : Fin 65536 → UInt64) (height i : Nat) :
    nodeAt xxh3 frozen live (height + 1) i = nodeAt xxh3 frozen live' (height + 1) i := by
  match height with
  | 0 => rfl
  | 1 => rfl
  | 2 => rfl
  | n + 3 => rfl

end

/-- Pulling from a node with the leaves `leavesA` to one that had the leaves `leavesB` when it
compared the roots. -/
def hashPull {κ : Type*} [DecidableEq κ] (xxh3 : Bytes → UInt64)
    (leavesA leavesB : Fin 65536 → UInt64) (bucket : κ → Fin 65536)
    (after : Finset κ → Fin 65536 → UInt64) (listing : Nat → List κ)
    (listing_nodup : ∀ b, (listing b).Nodup)
    (listing_bucket : ∀ {b k}, k ∈ listing b → (bucket k : Nat) = b)
    (wants : Finset κ → κ → Bool)
    (wants_untaken : ∀ {taken k}, k ∉ taken → wants taken k = wants ∅ k) (accepts : κ → Bool) :
    TreePull κ where
  arity := 16
  arity_pos := by decide
  top := 3
  rootDiffers := scratchL0 xxh3 leavesB (Fin.last 0) ≠ scratchL0 xxh3 leavesA (Fin.last 0)
  bucket k := bucket k
  bucket_lt k := (bucket k).isLt
  differs taken height i :=
    nodeAt xxh3 leavesB (after taken) height i ≠ nodeAt xxh3 leavesA leavesA height i
  differs_inner taken height i := by rw [nodeAt_inner _ _ (after ∅)]
  listing := listing
  listing_nodup := listing_nodup
  listing_bucket := listing_bucket
  wants := wants
  wants_untaken := wants_untaken
  accepts := accepts

theorem start_flight {κ : Type*} [DecidableEq κ] {xxh3 : Bytes → UInt64}
    {leavesA leavesB : Fin 65536 → UInt64} {t : TreePull κ} (htop : t.top = 3)
    (hroot : t.rootDiffers = decide (scratchL0 xxh3 leavesB 0 ≠ scratchL0 xxh3 leavesA 0))
    (a b : NodeID) (list : Nat → SyncMessage) (get put : κ → SyncMessage) :
    t.start.flight.map (wire xxh3 a b leavesA list get put) =
      if scratchL0 xxh3 leavesB 0 = scratchL0 xxh3 leavesA 0 then []
        else [(a, (SyncMessage.reqNode 1 0).encode b)] := by
  by_cases hsame : scratchL0 xxh3 leavesB 0 = scratchL0 xxh3 leavesA 0
  · simp [TreePull.start, hroot, hsame]
  · simp only [TreePull.start, hroot, htop, hsame, ne_eq, not_false_eq_true, decide_true, if_true,
      if_false]
    rfl

/-- A level that is constant but for the first node. -/
def spike (first rest : UInt64) {n : Nat} (i : Fin n) : UInt64 :=
  if (i : Nat) = 0 then first else rest

def spikeBytes (first rest : UInt64) : Bytes :=
  (List.ofFn fun k : Fin 16 => spike first rest k).flatMap fun h => leBytes 8 h.toNat

/-- The blocks of the levels above such a level, and those of a constant one. -/
def spikeBlocks (xxh3 : Bytes → UInt64) : Nat → UInt64 → UInt64 → List Bytes
  | 0, _, _ => []
  | n + 1, first, rest => spikeBytes first rest :: spikeBytes rest rest ::
      spikeBlocks xxh3 n (xxh3 (spikeBytes first rest)) (xxh3 (spikeBytes rest rest))

section

variable {xxh3 : Bytes → UInt64}

private theorem blockBytes_spike (first rest : UInt64) {n : Nat} (i : Fin n) :
    blockBytes (spike first rest) i =
      spikeBytes (if (i : Nat) = 0 then first else rest) rest := by
  unfold blockBytes spikeBytes
  congr 2
  funext k
  simp only [spike, childIdx]
  by_cases hi : (i : Nat) = 0
  · simp [hi]
  · simp [hi]

private theorem blockHash_spike (first rest : UInt64) {n : Nat} :
    (blockHash xxh3 (spike first rest) : Fin n → UInt64) =
      spike (xxh3 (spikeBytes first rest)) (xxh3 (spikeBytes rest rest)) := by
  funext i
  rw [blockHash_eq, blockBytes_spike, spike]
  split <;> rfl

private theorem range_blockBytes_spike {first rest : UInt64} {n : Nat} {s : Bytes}
    (hs : s ∈ Set.range (blockBytes (spike first rest) : Fin n → Bytes)) :
    s = spikeBytes first rest ∨ s = spikeBytes rest rest := by
  obtain ⟨i, rfl⟩ := hs
  rw [blockBytes_spike]
  split
  · exact Or.inl rfl
  · exact Or.inr rfl

theorem treeBlocks_spike {first rest : UInt64} {s : Bytes}
    (hs : s ∈ treeBlocks xxh3 (spike first rest)) : s ∈ spikeBlocks xxh3 4 first rest := by
  simp only [treeBlocks, scratchL3, scratchL2, scratchL1, blockHash_spike, Set.mem_union] at hs
  rcases hs with ((hs | hs) | hs) | hs <;>
    rcases range_blockBytes_spike hs with h | h <;> simp [spikeBlocks, h]

theorem injOn_of_spikeBlocks {first first' rest : UInt64}
    (h : ∀ s ∈ spikeBlocks xxh3 4 first rest ++ spikeBlocks xxh3 4 first' rest,
      ∀ t ∈ spikeBlocks xxh3 4 first rest ++ spikeBlocks xxh3 4 first' rest,
        xxh3 s = xxh3 t → s = t) :
    Set.InjOn xxh3 (treeBlocks xxh3 (spike first rest) ∪ treeBlocks xxh3 (spike first' rest)) := by
  have hblocks {s : Bytes}
      (hs : s ∈ treeBlocks xxh3 (spike first rest) ∪ treeBlocks xxh3 (spike first' rest)) :
      s ∈ spikeBlocks xxh3 4 first rest ++ spikeBlocks xxh3 4 first' rest := by
    rcases hs with hs | hs
    · exact List.mem_append_left _ (treeBlocks_spike hs)
    · exact List.mem_append_right _ (treeBlocks_spike hs)
  intro s hs t ht heq
  exact h s (hblocks hs) t (hblocks ht) heq

end

theorem Store.Sound.leaves_spike {x : External} {st : Store} (h : st.Sound x) {key : Bytes}
    (hbucket : bucketOf x.xxh3 key = 0) (hothers : ∀ other, other ≠ key → st.keyHash x other = 0) :
    st.merkle.leaves = spike (st.keyHash x key) 0 := by
  obtain ⟨s, hs, -⟩ := h.leaves
  funext b
  rw [h.leaf_eq (s := insert key s) fun other hother => Finset.mem_insert_of_mem (hs other hother)]
  by_cases hb : b = 0
  · have hsub : ({key} : Finset Bytes) ⊆ inBucket x b (insert key s) := by
      simp [inBucket, hbucket, hb]
    rw [xorSum_subset hsub fun other _ hother => hothers other (by simpa using hother),
      xorSum_singleton]
    simp [spike, hb]
  · have hnone (other : Bytes) (hother : other ∈ inBucket x b (insert key s)) :
        st.keyHash x other = 0 := by
      apply hothers
      rintro rfl
      exact hb ((Finset.mem_filter.mp hother).2.symm.trans hbucket)
    rw [xorSum_subset (Finset.empty_subset _) fun other hother _ => hnone other hother, xorSum_empty]
    simp [spike, hb]

def pulse : Bytes := List.replicate 40 7

/-- A hash to compute with: a block of the tree hashes to its first word plus one, and of all that
is stored only these forty bytes show. -/
def pulseHash (s : Bytes) : UInt64 :=
  if s.length = 128 then UInt64.ofNat (readWord 8 s 0 + 1) else if s = pulse then 100 else 0

theorem pulseHash_eq_zero {s : Bytes} (hlen : s.length ≠ 128) (hne : s ≠ pulse) :
    pulseHash s = 0 := by
  rw [pulseHash, if_neg hlen, if_neg hne]

theorem injOn_pulseHash : Set.InjOn pulseHash
    (treeBlocks pulseHash (spike 100 0) ∪ treeBlocks pulseHash (spike 0 0)) :=
  injOn_of_spikeBlocks (by decide +kernel)

end L3KV
