import L3KV.Framework.Runs
import L3KV.Framework.XorSum
import L3KV.Store.Merkle

/-!
# The lazy tree against the eager one

A recomputation locks the 256 shards of the leaves one after the other, so deltas land before,
between and behind its steps. However they are interleaved, a root that is asked for afterwards is
the one of the tree hashed from scratch.
-/

namespace L3KV

open Framework

/-- A step of `recompute_dirty` between two points where a delta can come in. -/
inductive Recompute where
  | shard (s : Fin 256)
  | l2
  | l1
  | l0
  deriving DecidableEq, Repr

/-- The steps in the order in which `recompute_dirty` makes them. -/
def Recompute.all : List Recompute := (List.finRange 256).map shard ++ [l2, l1, l0]

inductive TreeEvent where
  | applyDelta (key : Bytes) (hashDelta : UInt64)
  /-- `get_root_hash` takes the global lock. -/
  | getRootHash
  /-- The holder of the lock makes its next step. -/
  | recompute
  deriving DecidableEq, Repr

/-- A tree, and what the holder of its global lock still has to do. -/
structure TreeRun where
  tree : MerkleTree
  todo : List Recompute

def MerkleTree.recomputeStep (xxh3 : Bytes → UInt64) (t : MerkleTree) : Recompute → MerkleTree
  | .shard s => t.recomputeShard xxh3 s
  | .l2 => t.recomputeL2 xxh3
  | .l1 => t.recomputeL1 xxh3
  | .l0 => t.recomputeL0 xxh3

namespace TreeRun

def init (xxh3 : Bytes → UInt64) : TreeRun := ⟨MerkleTree.init xxh3, []⟩

/-- One event. The lock is free when there is nothing left to do. -/
def step (xxh3 : Bytes → UInt64) (s : TreeRun) : TreeEvent → Option TreeRun
  | .applyDelta key hashDelta => some { s with tree := s.tree.applyDelta xxh3 key hashDelta }
  | .getRootHash => if s.todo.isEmpty then some { s with todo := Recompute.all } else none
  | .recompute =>
      match s.todo with
      | [] => none
      | r :: todo => some ⟨s.tree.recomputeStep xxh3 r, todo⟩

end TreeRun

def TreeEvent.deltas (events : List TreeEvent) : List (Bytes × UInt64) :=
  events.filterMap fun
    | .applyDelta key hashDelta => some (key, hashDelta)
    | _ => none

def leavesOf (xxh3 : Bytes → UInt64) (deltas : List (Bytes × UInt64)) (b : Fin 65536) : UInt64 :=
  xorAll ((deltas.filter fun d => bucketOf xxh3 d.1 = b).map Prod.snd)

/-- The hash of a node is that of the sixteen below it. -/
def MerkleTree.Hashed (xxh3 : Bytes → UInt64) (t : MerkleTree) (level : UInt8) (index : Nat) : Prop :=
  ∃ children : Fin 16 → UInt64,
    (∀ k : Fin 16, t.getNodeHash (level + 1) (index * 16 + k) = some (children k)) ∧
      t.getNodeHash level index = some (hashBlock xxh3 children)

variable {xxh3 : Bytes → UInt64}

private theorem leavesOf_concat (deltas : List (Bytes × UInt64)) (key : Bytes)
    (hashDelta : UInt64) :
    leavesOf xxh3 (deltas ++ [(key, hashDelta)]) =
      Function.update (leavesOf xxh3 deltas) (bucketOf xxh3 key)
        (leavesOf xxh3 deltas (bucketOf xxh3 key) ^^^ hashDelta) := by
  funext b
  by_cases hb : b = bucketOf xxh3 key
  · subst hb
    simp [leavesOf, xorAll_append]
  · have hne : bucketOf xxh3 key ≠ b := fun h => hb h.symm
    simp [leavesOf, hb, hne]

private theorem leavesOf_perm {deltas deltas' : List (Bytes × UInt64)} (h : deltas.Perm deltas') :
    leavesOf xxh3 deltas = leavesOf xxh3 deltas' := by
  funext b
  exact xorAll_perm ((h.filter _).map _)

private theorem leavesOf_cancel (deltas : List (Bytes × UInt64)) (key : Bytes)
    (hashDelta : UInt64) :
    leavesOf xxh3 (deltas ++ [(key, hashDelta), (key, hashDelta)]) = leavesOf xxh3 deltas := by
  funext b
  by_cases hb : bucketOf xxh3 key = b
  · simp [leavesOf, hb, xorAll_append]
  · simp [leavesOf, hb]

private theorem MerkleTree.Coherent.recomputeStep {t : MerkleTree} (h : t.Coherent xxh3)
    (r : Recompute) :
    (t.recomputeStep xxh3 r).Coherent xxh3 ∧ (t.recomputeStep xxh3 r).leaves = t.leaves := by
  cases r with
  | shard s => exact ⟨(recomputeShard_spec h s).1, rfl⟩
  | l2 => exact ⟨(recomputeL2_spec h).1, (recomputeL2_frame xxh3 t).1⟩
  | l1 => exact ⟨(recomputeL1_spec h).1, (recomputeL1_frame xxh3 t).1⟩
  | l0 => exact ⟨(recomputeL0_spec h).1, (recomputeL0_frame xxh3 t).1⟩

private theorem TreeRun.coherent_of_run {events : List TreeEvent} {s : TreeRun}
    (hrun : events.foldlM (step xxh3) (init xxh3) = some s) :
    s.tree.Coherent xxh3 ∧ s.tree.leaves = leavesOf xxh3 (TreeEvent.deltas events) := by
  refine run_invariant_always (fun events s => s.tree.Coherent xxh3 ∧
    s.tree.leaves = leavesOf xxh3 (TreeEvent.deltas events)) ⟨MerkleTree.init_coherent, rfl⟩ ?_ hrun
  intro events s event s' ⟨hcoherent, hleaves⟩ hstep
  cases event with
  | applyDelta key hashDelta =>
      cases hstep
      refine ⟨MerkleTree.applyDelta_coherent hcoherent key hashDelta, ?_⟩
      rw [TreeEvent.deltas, List.filterMap_append]
      refine Eq.trans ?_ (leavesOf_concat (TreeEvent.deltas events) key hashDelta).symm
      rw [← hleaves]
      rfl
  | getRootHash =>
      have hdeltas : TreeEvent.deltas (events ++ [.getRootHash]) = TreeEvent.deltas events := by
        simp [TreeEvent.deltas]
      rw [hdeltas]
      simp only [step, Option.ite_none_right_eq_some, Option.some.injEq] at hstep
      obtain ⟨-, rfl⟩ := hstep
      exact ⟨hcoherent, hleaves⟩
  | recompute =>
      have hdeltas : TreeEvent.deltas (events ++ [.recompute]) = TreeEvent.deltas events := by
        simp [TreeEvent.deltas]
      rw [hdeltas]
      cases htodo : s.todo with
      | nil => simp [step, htodo] at hstep
      | cons r todo =>
          simp only [step, htodo, Option.some.injEq] at hstep
          obtain ⟨hstill, hsame⟩ := hcoherent.recomputeStep r
          rw [← hstep]
          exact ⟨hstill, hsame.trans hleaves⟩

private theorem foldl_recomputeStep (shards : List (Fin 256)) (t : MerkleTree) :
    (shards.map Recompute.shard ++ [Recompute.l2, Recompute.l1, Recompute.l0]).foldl (MerkleTree.recomputeStep xxh3) t =
      MerkleTree.recomputeL0 xxh3 (MerkleTree.recomputeL1 xxh3 (MerkleTree.recomputeL2 xxh3
        (shards.foldl (MerkleTree.recomputeShard xxh3) t))) := by
  simp only [List.foldl_append, List.foldl_map, List.foldl_cons, List.foldl_nil,
    MerkleTree.recomputeStep]

private theorem recompute_all (t : MerkleTree) :
    Recompute.all.foldl (MerkleTree.recomputeStep xxh3) t = t.recomputeDirty xxh3 := by
  rw [Recompute.all, foldl_recomputeStep, MerkleTree.recomputeDirty]

private theorem TreeRun.getRootHash_steps (t : MerkleTree) :
    (TreeEvent.getRootHash :: List.replicate Recompute.all.length .recompute).foldlM (step xxh3)
      ⟨t, []⟩ = some ⟨(t.getRootHash xxh3).2, []⟩ := by
  have hsteps (todo : List Recompute) (t : MerkleTree) :
      (List.replicate todo.length TreeEvent.recompute).foldlM (step xxh3) ⟨t, todo⟩ =
        some ⟨todo.foldl (MerkleTree.recomputeStep xxh3) t, []⟩ := by
    induction todo generalizing t with
    | nil => rfl
    | cons r todo ih => exact ih (t.recomputeStep xxh3 r)
  have hlock : step xxh3 ⟨t, []⟩ .getRootHash = some ⟨t, Recompute.all⟩ := by
    simp only [step, List.isEmpty_nil, if_true]
  rw [List.foldlM_cons, hlock, Option.bind_eq_bind, Option.bind_some, hsteps, recompute_all,
    MerkleTree.getRootHash_of rfl]

private theorem exists_children {n : Nat} {up : Fin n → UInt64} {below : Fin (16 * n) → UInt64}
    (h : up = blockHash xxh3 below) {index : Nat} (hindex : index < n) :
    ∃ children : Fin 16 → UInt64,
      (∀ k : Fin 16, MerkleTree.cell below (index * 16 + k) = some (children k)) ∧
        MerkleTree.cell up index = some (hashBlock xxh3 children) := by
  refine ⟨fun k => below (childIdx ⟨index, hindex⟩ k), fun k => ?_, ?_⟩
  · rw [MerkleTree.cell, dif_pos (by omega)]
    rfl
  · rw [MerkleTree.cell, dif_pos hindex, h]
    rfl

/-- In a settled tree every inner node is the hash of the sixteen below it. -/
theorem MerkleTree.Settled.hashed {t : MerkleTree} (h : t.Settled xxh3) {level : UInt8}
    {index : Nat}
    (hlevel : level < 4) (hindex : index < 16 ^ level.toNat) : t.Hashed xxh3 level index := by
  have hcases : level = 0 ∨ level = 1 ∨ level = 2 ∨ level = 3 := by
    have hlt : level.toNat < 4 := UInt8.lt_iff_toNat_lt.mp hlevel
    simp only [← UInt8.toNat_inj]
    simp only [UInt8.reduceToNat]
    omega
  rcases hcases with rfl | rfl | rfl | rfl
  · have hzero : index = 0 := by simpa using hindex
    subst hzero
    have hlevel0 : t.l0.nodes = blockHash xxh3 (n := 1) t.l1.nodes := by rw [h.l0.1, h.l1.1]; rfl
    exact exists_children hlevel0 (by decide)
  · have hlevel1 : t.l1.nodes = blockHash xxh3 (n := 16) t.l2.nodes := by rw [h.l1.1, h.l2.1]; rfl
    exact exists_children hlevel1 hindex
  · have hlevel2 : t.l2.nodes = blockHash xxh3 (n := 256) t.l3.nodes := by rw [h.l2.1, h.l3.1]; rfl
    exact exists_children hlevel2 hindex
  · have hlevel3 : t.l3.nodes = blockHash xxh3 (n := 4096) t.leaves := h.l3.1
    exact exists_children hlevel3 hindex

private theorem TreeRun.root_of_run {events : List TreeEvent} {s : TreeRun}
    (hrun : events.foldlM (step xxh3) (init xxh3) = some s) :
    (s.tree.getRootHash xxh3).1 = scratchL0 xxh3 (leavesOf xxh3 (TreeEvent.deltas events)) 0 := by
  obtain ⟨hcoherent, hleaves⟩ := coherent_of_run hrun
  obtain ⟨r, hroot, -⟩ := MerkleTree.getRootHash_spec hcoherent
  rw [hroot, hleaves]

/-- After any interleaving of deltas with recomputations, a call of `get_root_hash` returns the
root of the leaves hashed from scratch and leaves every node the hash of the sixteen below it. The
order of the deltas and the earlier roots do not matter, and two equal deltas on a key cancel. -/
theorem lazy_root_eager {events : List TreeEvent} {s : TreeRun}
    (hrun : events.foldlM (TreeRun.step xxh3) (TreeRun.init xxh3) = some s) (hfree : s.todo = []) :
    let root := s.tree.getRootHash xxh3
    let deltas := TreeEvent.deltas events
    (TreeEvent.getRootHash :: List.replicate Recompute.all.length .recompute).foldlM
        (TreeRun.step xxh3) s = some ⟨root.2, []⟩ ∧
      root.1 = scratchL0 xxh3 (leavesOf xxh3 deltas) 0 ∧
      root.2.leaves = leavesOf xxh3 deltas ∧
      (∀ level index, level < 4 → index < 16 ^ level.toNat → root.2.Hashed xxh3 level index) ∧
      ∀ events' s', events'.foldlM (TreeRun.step xxh3) (TreeRun.init xxh3) = some s' →
        ((TreeEvent.deltas events').Perm deltas ∨ ∃ key hashDelta,
          (TreeEvent.deltas events').Perm (deltas ++ [(key, hashDelta), (key, hashDelta)])) →
        (s'.tree.getRootHash xxh3).1 = root.1 := by
  intro root deltas
  obtain ⟨hcoherent, hleaves⟩ := TreeRun.coherent_of_run hrun
  obtain ⟨r, hroot, hsettled, hsame⟩ := MerkleTree.getRootHash_spec hcoherent
  have hsnd : root.2 = r := congrArg Prod.snd hroot
  refine ⟨?_, TreeRun.root_of_run hrun, ?_, ?_, ?_⟩
  · obtain ⟨tree, todo⟩ := s
    cases hfree
    exact TreeRun.getRootHash_steps tree
  · rw [hsnd, hsame, hleaves]
  · intro level index hlevel hindex
    rw [hsnd]
    exact hsettled.hashed hlevel hindex
  · intro events' s' hrun' hdeltas
    have hsum : leavesOf xxh3 (TreeEvent.deltas events') = leavesOf xxh3 deltas := by
      rcases hdeltas with hperm | ⟨key, hashDelta, hperm⟩
      · exact leavesOf_perm hperm
      · rw [leavesOf_perm hperm, leavesOf_cancel]
    rw [TreeRun.root_of_run hrun', hsum, TreeRun.root_of_run hrun]

/-- A delta that lands behind the first step of a recomputation, and the same one again. -/
theorem lazy_root_eager_cancelled :
    let xxh3 : Bytes → UInt64 := fun s => UInt64.ofNat s.length
    ∃ s, [TreeEvent.getRootHash, .recompute, .applyDelta (ascii "k") 5,
        .applyDelta (ascii "k") 5].foldlM (TreeRun.step xxh3) (TreeRun.init xxh3) = some s ∧
      (s.tree.getRootHash xxh3).1 = ((MerkleTree.init xxh3).getRootHash xxh3).1 := by
  intro xxh3
  obtain ⟨s, hrun⟩ : ∃ s, [TreeEvent.getRootHash, .recompute, .applyDelta (ascii "k") 5,
      .applyDelta (ascii "k") 5].foldlM (TreeRun.step xxh3) (TreeRun.init xxh3) = some s := ⟨_, rfl⟩
  obtain ⟨-, -, -, -, hsame⟩ := @lazy_root_eager xxh3 [] (TreeRun.init xxh3) rfl rfl
  exact ⟨s, hrun, hsame _ s hrun (Or.inr ⟨ascii "k", 5, List.Perm.refl _⟩)⟩

end L3KV
