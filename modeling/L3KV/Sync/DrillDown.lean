import L3KV.Sync.Exchange

/-!
# The drill-down finds the buckets that differ

Only `SYNC_INIT`, `SYNC_REQ_NODE` and `SYNC_REP_NODE` are delivered here, so every request for a
bucket that is ever sent stays in flight and can be counted there.
-/

namespace L3KV

open Framework

/-- `SYNC_INIT`, `SYNC_REQ_NODE` and `SYNC_REP_NODE`. -/
def ComparesNodes (m : NodeID × Bytes) : Prop :=
  m.2.head? = some MsgType.syncInit.code ∨ m.2.head? = some MsgType.syncReqNode.code ∨
    m.2.head? = some MsgType.syncRepNode.code

def differing (leavesA leavesB : Fin 65536 → UInt64) : List (Fin 65536) :=
  (List.finRange 65536).filter fun i => leavesA i ≠ leavesB i

theorem mem_differing {leavesA leavesB : Fin 65536 → UInt64} {i : Fin 65536} :
    i ∈ differing leavesA leavesB ↔ leavesA i ≠ leavesB i := by
  rw [differing, List.mem_filter]
  simp only [List.mem_finRange, true_and, decide_eq_true_eq]

private theorem differing_nodup (leavesA leavesB : Fin 65536 → UInt64) :
    (differing leavesA leavesB).Nodup :=
  (List.nodup_finRange _).filter _

/-- The drill-down alone: a key for each bucket, and nothing is ever listed. -/
def drillPull (xxh3 : Bytes → UInt64) (leavesA leavesB : Fin 65536 → UInt64) :
    TreePull (Fin 65536) :=
  hashPull xxh3 leavesA leavesB id (fun _ => leavesB) (fun _ => []) (fun _ => List.nodup_nil)
    (fun h => absurd h List.not_mem_nil) (fun _ _ => false) (fun _ => rfl) fun _ => false

/-- The messages of the drill-down on the wire; lists and values are not part of it. -/
def drillWire (xxh3 : Bytes → UInt64) (a b : NodeID) (leaves : Fin 65536 → UInt64) :
    TreePull.Msg (Fin 65536) → NodeID × Bytes :=
  wire xxh3 a b leaves (fun _ => .getVal []) (fun _ => .getVal []) fun _ => .getVal []

section

variable {x : External} {u : Nat → Nat → UInt8} {a b : NodeID}
  {leavesA leavesB : Fin 65536 → UInt64}

/-- Both trees as they are after the roots were compared. -/
structure BothSettled (x : External) (a b : NodeID) (leavesA leavesB : Fin 65536 → UInt64)
    (nodes : NodeID → Engine) : Prop where
  frozenA : (nodes a).store.merkle.Frozen x.xxh3 leavesA
  leavesA : (nodes a).store.merkle.leaves = leavesA
  frozenB : (nodes b).store.merkle.Frozen x.xxh3 leavesB
  leavesB : (nodes b).store.merkle.leaves = leavesB

private theorem comparesNodes_init (a b : NodeID) (root : UInt64) :
    ComparesNodes (b, (SyncMessage.init root).encode a) := Or.inl rfl

private theorem comparesNodes_drillWire {xxh3 : Bytes → UInt64} {leaves : Fin 65536 → UInt64}
    (m : TreePull.Msg (Fin 65536)) :
    ComparesNodes (drillWire xxh3 a b leaves m) ↔ TreePull.Drilling m := by
  cases m <;> simp [ComparesNodes, drillWire, wire, SyncMessage.encode, syncHeader,
    TreePull.Drilling, MsgType.syncInit, MsgType.syncReqNode, MsgType.syncRepNode,
    MsgType.syncReqBucket, MsgType.syncGetVal]

private theorem drill_simulated : Network.Simulated x u (drillWire x.xxh3 a b leavesA)
    (fun _ net => BothSettled x a b leavesA leavesB net.nodes) (drillPull x.xxh3 leavesA leavesB).handle
    (drillPull x.xxh3 leavesA leavesB).Inside TreePull.Drilling where
  step s net m hshown hinside hdrilling := by
    match m, hdrilling with
    | .reqNode h p, _ =>
        refine ⟨net.nodes a, handle_reqNode hshown.frozenA hshown.leavesA ⟨hinside.1, hinside.2⟩,
          fun _ net' _ hnodes => ?_⟩
        rw [hnodes]
        simpa [drillWire, wire] using hshown
    | .repNode h p, _ =>
        have hhandle : handleMessage x u b (net.nodes b)
            (drillWire x.xxh3 a b leavesA (.repNode h p)).2 = _ :=
          handle_repNode hshown.frozenB ⟨hinside.1, hinside.2⟩
        rw [hshown.leavesB] at hhandle
        refine ⟨net.nodes b, hhandle.trans ?_, fun _ net' _ hnodes => ?_⟩
        · cases h <;> rfl
        · rw [hnodes]
          simpa [drillWire, wire] using hshown
  answers s m hinside := TreePull.handle_inside hinside

section

variable (hinj : Set.InjOn x.xxh3 (treeBlocks x.xxh3 leavesA ∪ treeBlocks x.xxh3 leavesB))

include hinj

private theorem drillPull_found {i : Fin 65536} (hne : leavesA i ≠ leavesB i) :
    (drillPull x.xxh3 leavesA leavesB).Found i := by
  refine ⟨by simpa [drillPull, hashPull] using root_ne hinj hne.symm, fun h hlt => ?_⟩
  have hup := nodeAt_ne hinj hne.symm (h + 1) hlt
  simpa [drillPull, hashPull] using hup

private theorem drillPull_flight {q : Pool (Finset (Fin 65536)) (TreePull.Msg (Fin 65536))}
    (h : Pool.Reaches (drillPull x.xxh3 leavesA leavesB).handle TreePull.Drilling
      (drillPull x.xxh3 leavesA leavesB).start q)
    (hend : ∀ m ∈ q.flight, ¬ TreePull.Drilling m) :
    q.flight.Perm ((differing leavesA leavesB).map fun i : Fin 65536 => .reqBucket i) := by
  have hcover (i : Nat) (hi : i < 16 ^ (3 + 1)) :
      ∃ k : Fin 65536, (drillPull x.xxh3 leavesA leavesB).bucket k = i := ⟨⟨i, hi⟩, rfl⟩
  obtain ⟨hnodup, hmem⟩ := TreePull.drilled hcover h hend
  refine (List.perm_ext_iff_of_nodup hnodup ?_).mpr fun m => ?_
  · refine (differing_nodup leavesA leavesB).map fun i j hij => ?_
    exact Fin.ext (by simpa using hij)
  rw [hmem m, List.mem_map]
  constructor
  · rintro ⟨i, rfl, -, hdiffers⟩
    refine ⟨i, mem_differing.mpr fun heq => ?_, rfl⟩
    simp [drillPull, hashPull, nodeAt, cellOr_eq, heq] at hdiffers
  · rintro ⟨i, hi, rfl⟩
    have hne := mem_differing.mp hi
    refine ⟨i, rfl, drillPull_found hinj hne, ?_⟩
    simpa [drillPull, hashPull, nodeAt, cellOr_eq] using hne.symm

end

namespace Network

variable {net net₁ net' : Network}

private theorem shows_start (hab : a ≠ b) {nodes : NodeID → Engine} {tA tB : MerkleTree}
    (hA : tA.Settled x.xxh3) (hB : tB.Settled x.xxh3)
    (hnodes : net.nodes = Function.update (Function.update nodes a ((nodes a).withTree tA)) b
      ((nodes b).withTree tB))
    (hflight : net.flight = if scratchL0 x.xxh3 tB.leaves 0 = scratchL0 x.xxh3 tA.leaves 0 then []
      else [(a, (SyncMessage.reqNode 1 0).encode b)]) :
    net.Shows (drillWire x.xxh3 a b tA.leaves) (fun _ net => BothSettled x a b tA.leaves tB.leaves net.nodes)
      (drillPull x.xxh3 tA.leaves tB.leaves).start := by
  constructor
  · rw [hflight]
    exact (start_flight rfl rfl ..).symm
  · have hnodeB : net.nodes b = (nodes b).withTree tB := by
      rw [hnodes, Function.update_self]
    have hnodeA : net.nodes a = (nodes a).withTree tA := by
      rw [hnodes, Function.update_of_ne hab, Function.update_self]
    constructor
    · rw [hnodeA]
      exact hA.frozen
    · rw [hnodeA]
      rfl
    · rw [hnodeB]
      exact hB.frozen
    · rw [hnodeB]
      rfl

private theorem requests_of_shows
    (hinj : Set.InjOn x.xxh3 (treeBlocks x.xxh3 leavesA ∪ treeBlocks x.xxh3 leavesB))
    {q : Pool (Finset (Fin 65536)) (TreePull.Msg (Fin 65536))}
    (hreach : Pool.Reaches (drillPull x.xxh3 leavesA leavesB).handle TreePull.Drilling
      (drillPull x.xxh3 leavesA leavesB).start q)
    (hshows : net.Shows (drillWire x.xxh3 a b leavesA)
      (fun _ net => BothSettled x a b leavesA leavesB net.nodes) q)
    (hend : ∀ m ∈ net.flight, ¬ ComparesNodes m) :
    net.flight.Perm ((differing leavesA leavesB).map
      fun i : Fin 65536 => (a, (SyncMessage.reqBucket (UInt32.ofNat i)).encode b)) := by
  have hdone (m : TreePull.Msg (Fin 65536)) (hm : m ∈ q.flight) : ¬ TreePull.Drilling m := by
    intro hdrilling
    exact hend _ (hshows.flight ▸ List.mem_map_of_mem hm) ((comparesNodes_drillWire m).mpr hdrilling)
  have hperm := (drillPull_flight hinj hreach hdone).map (drillWire x.xxh3 a b leavesA)
  rw [List.map_map] at hperm
  rw [hshows.flight]
  exact hperm

private theorem completed_of_shows
    {q : Pool (Finset (Fin 65536)) (TreePull.Msg (Fin 65536))}
    (hreach : Pool.Reaches (drillPull x.xxh3 leavesA leavesB).handle TreePull.Drilling
      (drillPull x.xxh3 leavesA leavesB).start q)
    (hshows : net.Shows (drillWire x.xxh3 a b leavesA)
      (fun _ net => BothSettled x a b leavesA leavesB net.nodes) q) :
    ∃ more net', EveryStep (step x u) net more (Delivers ComparesNodes) ∧
      more.foldlM (step x u) net = some net' ∧ ∀ m ∈ net'.flight, ¬ ComparesNodes m := by
  obtain ⟨r, hr, hdone⟩ := TreePull.exists_drilled (t := drillPull x.xxh3 leavesA leavesB) q
  obtain ⟨more, net', hmore, hrun, hshows'⟩ := hshows.exists_run ComparesNodes drill_simulated
    (TreePull.inside hreach) (fun m => (comparesNodes_drillWire m).mpr) hr
  refine ⟨more, net', hmore, hrun, fun m hm => ?_⟩
  rw [hshows'.flight] at hm
  obtain ⟨m', hm', rfl⟩ := List.mem_map.mp hm
  exact fun h => hdone m' hm' ((comparesNodes_drillWire m').mp h)

/-- An exchange that comes to the point where all nodes were compared. -/
theorem exists_bucket_requests (hab : a ≠ b) (hflight : net.flight = [])
    (hA : (net.nodes a).store.merkle.Coherent x.xxh3)
    (hB : (net.nodes b).store.merkle.Coherent x.xxh3)
    (hinj : Set.InjOn x.xxh3 (treeBlocks x.xxh3 (net.nodes a).store.merkle.leaves ∪
      treeBlocks x.xxh3 (net.nodes b).store.merkle.leaves)) :
    ∃ net₁ events net', net.step x u (.gossip a b) = some net₁ ∧
      EveryStep (step x u) net₁ events (Delivers ComparesNodes) ∧
      events.foldlM (step x u) net₁ = some net' ∧ net'.flight.Perm
        ((differing (net.nodes a).store.merkle.leaves (net.nodes b).store.merkle.leaves).map
          fun i : Fin 65536 => (a, (SyncMessage.reqBucket (UInt32.ofNat i)).encode b)) := by
  obtain ⟨tA, tB, net₁, net₂, hsettledA, hleavesA, hsettledB, hleavesB, hgossip, -, hopen,
    hinit, hnodes, hflight₂⟩ := exists_opening (u := u) hab hflight hA hB
  rw [← hleavesA, ← hleavesB] at hinj ⊢
  have hstart := shows_start hab hsettledA hsettledB hnodes hflight₂
  obtain ⟨more, net', hmore, hrun, hdone⟩ := completed_of_shows (u := u) (.refl _) hstart
  obtain ⟨q, hreach, hshows⟩ := hstart.run drill_simulated TreePull.start_inside
    (fun m => (comparesNodes_drillWire m).mp) hmore hrun
  obtain ⟨events, hevents, hrun'⟩ :=
    exists_run_from_single hopen (comparesNodes_init _ _ _) hinit hmore hrun
  exact ⟨net₁, events, net', hgossip, hevents, hrun', requests_of_shows hinj hreach hshows hdone⟩

/-- The bucket requests are exactly those for the leaves that differ, each sent once, and every
exchange comes to that point. It is enough that the trees are up to date where they are not
flagged, and that no two blocks of the two trees collide. -/
theorem drill_down_exact (hab : a ≠ b) (hflight : net.flight = [])
    (hA : (net.nodes a).store.merkle.Coherent x.xxh3)
    (hB : (net.nodes b).store.merkle.Coherent x.xxh3)
    (hinj : Set.InjOn x.xxh3 (treeBlocks x.xxh3 (net.nodes a).store.merkle.leaves ∪
      treeBlocks x.xxh3 (net.nodes b).store.merkle.leaves))
    (hgossip : net.step x u (.gossip a b) = some net₁) {events : List Event}
    (hevents : EveryStep (step x u) net₁ events (Delivers ComparesNodes))
    (hrun : events.foldlM (step x u) net₁ = some net') :
    ((∀ m ∈ net'.flight, ¬ ComparesNodes m) → net'.flight.Perm
      ((differing (net.nodes a).store.merkle.leaves (net.nodes b).store.merkle.leaves).map
        fun i : Fin 65536 => (a, (SyncMessage.reqBucket (UInt32.ofNat i)).encode b))) ∧
    ∃ more net'', EveryStep (step x u) net' more (Delivers ComparesNodes) ∧
      more.foldlM (step x u) net' = some net'' ∧ ∀ m ∈ net''.flight, ¬ ComparesNodes m := by
  obtain ⟨tA, tB, net₀, net₂, hsettledA, hleavesA, hsettledB, hleavesB, hgossip', -, hopen,
    hinit, hnodes, hflight₂⟩ := exists_opening (u := u) hab hflight hA hB
  cases hgossip.symm.trans hgossip'
  rw [← hleavesA, ← hleavesB] at hinj ⊢
  have hstart := shows_start hab hsettledA hsettledB hnodes hflight₂
  rcases run_from_single hopen hinit hevents hrun with ⟨rfl, rfl⟩ | ⟨rest, hrest, hrun⟩
  · refine ⟨fun hend => ?_, ?_⟩
    · exact absurd (comparesNodes_init _ _ _) (hend _ (hopen ▸ List.mem_singleton_self _))
    · obtain ⟨more, net'', hmore, hrun', hdone⟩ := completed_of_shows (u := u) (.refl _) hstart
      obtain ⟨more', hmore', hrun'⟩ :=
        exists_run_from_single hopen (comparesNodes_init _ _ _) hinit hmore hrun'
      exact ⟨more', net'', hmore', hrun', hdone⟩
  · obtain ⟨q, hreach, hshows⟩ := hstart.run drill_simulated TreePull.start_inside
      (fun m => (comparesNodes_drillWire m).mp) hrest hrun
    exact ⟨requests_of_shows hinj hreach hshows, completed_of_shows hreach hshows⟩

end Network

end

/-- A hash to compute with: the first eight bytes plus one. -/
private def nextWord (s : Bytes) : UInt64 := UInt64.ofNat (readWord 8 s 0 + 1)

private theorem injOn_spike :
    Set.InjOn nextWord (treeBlocks nextWord (spike 100 0) ∪ treeBlocks nextWord (spike 0 0)) :=
  injOn_of_spikeBlocks (by decide +kernel)

private theorem differing_spike : differing (spike 100 0) (spike 0 0) = [0] := by
  apply List.perm_singleton.mp
  refine (List.perm_ext_iff_of_nodup (differing_nodup _ _) (List.nodup_singleton _)).mpr fun i => ?_
  rw [mem_differing, List.mem_singleton, Fin.ext_iff]
  by_cases hi : (i : Nat) = 0 <;> simp [spike, hi]

private def spikeTree (leaf : UInt64) : MerkleTree :=
  (MerkleTree.init nextWord).applyDelta nextWord (ascii "a") leaf

private theorem spikeTree_leaves (leaf : UInt64) : (spikeTree leaf).leaves = spike leaf 0 := by
  have hbucket : bucketOf nextWord (ascii "a") = 0 := by decide
  funext i
  simp only [spikeTree, MerkleTree.applyDelta, hbucket, MerkleTree.init, Function.update_apply,
    spike, Fin.ext_iff, UInt64.zero_xor]
  rfl

/-- Two nodes whose trees differ in the first bucket. -/
private def spikeNet : Network :=
  ⟨fun node => (Engine.openOn (External.reference nextWord) node []).withTree
    (spikeTree (if node = 1 then 100 else 0)), []⟩

private theorem spikeNet_tree (node : NodeID) :
    (spikeNet.nodes node).store.merkle = spikeTree (if node = 1 then 100 else 0) := rfl

/-- The second node asks for the one bucket that differs. -/
theorem drill_down_exact_spike : ∃ (net₁ net' : Network) (events : List Network.Event),
    spikeNet.step (External.reference nextWord) (fun _ _ => 0) (.gossip 1 2) = some net₁ ∧
    events.foldlM (Network.step (External.reference nextWord) fun _ _ => 0) net₁ = some net' ∧
    net'.flight = [(1, (SyncMessage.reqBucket 0).encode 2)] := by
  have hcoherent (node : NodeID) : (spikeNet.nodes node).store.merkle.Coherent nextWord := by
    rw [spikeNet_tree]
    exact MerkleTree.applyDelta_coherent MerkleTree.init_coherent _ _
  have hleaves1 : (spikeNet.nodes 1).store.merkle.leaves = spike 100 0 := by
    rw [spikeNet_tree, if_pos rfl, spikeTree_leaves]
  have hleaves2 : (spikeNet.nodes 2).store.merkle.leaves = spike 0 0 := by
    rw [spikeNet_tree, if_neg (by decide), spikeTree_leaves]
  have hinj : Set.InjOn nextWord (treeBlocks nextWord (spikeNet.nodes 1).store.merkle.leaves ∪
      treeBlocks nextWord (spikeNet.nodes 2).store.merkle.leaves) := by
    rw [hleaves1, hleaves2]
    exact injOn_spike
  have hne : (1 : NodeID) ≠ 2 := by decide
  have hflight : spikeNet.flight = [] := rfl
  obtain ⟨-, -, net₁, -, -, -, -, -, hgossip, -⟩ :=
    Network.exists_opening (x := External.reference nextWord) (u := fun _ _ => 0) hne hflight
      (hcoherent 1) (hcoherent 2)
  obtain ⟨-, events, net', hevents, hrun, hdone⟩ :=
    @Network.drill_down_exact (External.reference nextWord) (fun _ _ => 0) 1 2 spikeNet net₁ net₁
      hne hflight (hcoherent 1) (hcoherent 2) hinj hgossip [] everyStep_nil rfl
  refine ⟨net₁, net', events, hgossip, hrun, ?_⟩
  have hperm := (@Network.drill_down_exact (External.reference nextWord) (fun _ _ => 0) 1 2 spikeNet
    net₁ net' hne hflight (hcoherent 1) (hcoherent 2) hinj hgossip events hevents hrun).1 hdone
  rw [hleaves1, hleaves2, differing_spike] at hperm
  exact List.perm_singleton.mp hperm

end L3KV
