import L3KV.Sync.Drill

/-!
# Exchanges between two nodes

A network whose flight holds the messages of a pool on the wire takes the same steps as the pool,
place by place.
-/

namespace L3KV

open Framework

namespace Network

variable {x : External} {u : Nat → Nat → UInt8} {σ μ : Type*} {wire : μ → NodeID × Bytes}
  {shown : σ → Network → Prop} {handle : σ → μ → σ × List μ}
  {valid allowed : μ → Prop} {net net' : Network} {p q : Pool σ μ}

/-- The network is in the state that the pool stands for. -/
structure Shows (wire : μ → NodeID × Bytes) (shown : σ → Network → Prop) (net : Network)
    (p : Pool σ μ) : Prop where
  flight : net.flight = p.flight.map wire
  state : shown p.state net

/-- Handling a valid message shows what the pool's handler does, as far as it is allowed. -/
structure Simulated (x : External) (u : Nat → Nat → UInt8) (wire : μ → NodeID × Bytes)
    (shown : σ → Network → Prop) (handle : σ → μ → σ × List μ) (valid allowed : μ → Prop) :
    Prop where
  step : ∀ s net m, shown s net → valid m → allowed m → ∃ e,
    handleMessage x u (wire m).1 (net.nodes (wire m).1) (wire m).2 =
        some (e, (handle s m).2.map wire) ∧
      ∀ i net', net.step x u (.deliver i) = some net' →
        net'.nodes = Function.update net.nodes (wire m).1 e → shown (handle s m).1 net'
  answers : ∀ s m, valid m → ∀ m' ∈ (handle s m).2, valid m'

theorem Shows.deliver (hsim : Simulated x u wire shown handle valid allowed)
    (hvalid : ∀ m ∈ p.flight, valid m) (h : net.Shows wire shown p) {i : Nat}
    (hallowed : ∀ m ∈ p.flight[i]?, allowed m) :
    Option.Rel (Shows wire shown) (net.step x u (.deliver i)) (p.deliver handle i) := by
  cases hm : p.flight[i]? with
  | none =>
      simp only [step, Pool.deliver, h.flight, List.getElem?_map, hm]
      exact .none
  | some m =>
      obtain ⟨e, hhandle, hshown⟩ := hsim.step p.state net m h.state
        (hvalid m (List.mem_of_getElem? hm)) (hallowed m hm)
      have hstep : net.step x u (.deliver i) =
          some ⟨Function.update net.nodes (wire m).1 e,
            (p.flight.map wire).eraseIdx i ++ (handle p.state m).2.map wire⟩ := by
        simp only [step, h.flight, List.getElem?_map, hm, Option.map_some, Option.bind_some, hhandle]
      simp only [Pool.deliver, hm, hstep, Option.map_some]
      refine .some ⟨?_, hshown i _ hstep rfl⟩
      simp [List.map_append, List.eraseIdx_map]

def Delivers (kind : NodeID × Bytes → Prop) (net : Network) : Event → Prop
  | .deliver i => ∀ m ∈ net.flight[i]?, kind m
  | _ => False

theorem Shows.run {kind : NodeID × Bytes → Prop}
    (hsim : Simulated x u wire shown handle valid allowed) (hvalid : ∀ m ∈ p.flight, valid m)
    (hkind : ∀ m, kind (wire m) → allowed m) (h : net.Shows wire shown p) {events : List Event}
    (hevents : EveryStep (step x u) net events (Delivers kind))
    (hrun : events.foldlM (step x u) net = some net') :
    ∃ q, Pool.Reaches handle allowed p q ∧ net'.Shows wire shown q := by
  refine run_invariant (fun _ net' => ∃ q, Pool.Reaches handle allowed p q ∧
    net'.Shows wire shown q) ⟨p, .refl p, h⟩ ?_ hevents hrun
  rintro _ net₁ event net₂ ⟨q, hreach, hshows⟩ hdelivers hstep
  cases event with
  | deliver i =>
      have hvalid' := hreach.flight_mem hvalid hsim.answers
      have hallowed (m : μ) (hm : m ∈ q.flight[i]?) : allowed m := by
        apply hkind
        apply hdelivers
        rw [hshows.flight, List.getElem?_map, hm]
        rfl
      have hrel := hshows.deliver hsim hvalid' hallowed
      rw [hstep] at hrel
      cases hq : q.deliver handle i with
      | none =>
          rw [hq] at hrel
          cases hrel
      | some r =>
          rw [hq] at hrel
          cases hrel with
          | some hshows' =>
              exact ⟨r, hreach.trans (Pool.reaches_of_deliver hq hallowed), hshows'⟩
  | write _ _ => exact hdelivers.elim
  | gossip _ _ => exact hdelivers.elim
  | duplicate _ => exact hdelivers.elim
  | lose _ => exact hdelivers.elim

theorem Shows.exists_run (kind : NodeID × Bytes → Prop)
    (hsim : Simulated x u wire shown handle valid allowed) (hvalid : ∀ m ∈ p.flight, valid m)
    (hkind : ∀ m, allowed m → kind (wire m)) (h : net.Shows wire shown p)
    (hreach : Pool.Reaches handle allowed p q) :
    ∃ events net', EveryStep (step x u) net events (Delivers kind) ∧
      events.foldlM (step x u) net = some net' ∧ net'.Shows wire shown q := by
  induction hreach with
  | refl => exact ⟨[], net, everyStep_nil, rfl, h⟩
  | @tail s before after m hreach hm ih =>
      obtain ⟨events, net₁, hevents, hrun, hshows⟩ := ih
      have hvalid' := hreach.flight_mem hvalid hsim.answers
      have hrel := hshows.deliver hsim hvalid' (i := before.length) (by simpa using hm)
      have hdeliver : Pool.deliver handle ⟨s, before ++ m :: after⟩ before.length =
          some ⟨(handle s m).1, before ++ after ++ (handle s m).2⟩ := by
        simp [Pool.deliver, List.eraseIdx_append_of_length_le]
      rw [hdeliver] at hrel
      cases hstep : net₁.step x u (.deliver before.length) with
      | none =>
          rw [hstep] at hrel
          cases hrel
      | some net₂ =>
          rw [hstep] at hrel
          cases hrel with
          | some hshows' =>
              refine ⟨events ++ [.deliver before.length], net₂, hevents.concat ?_,
                foldlM_concat.mpr ⟨net₁, hrun, hstep⟩, hshows'⟩
              intro net₁' hrun' m' hm'
              cases hrun.symm.trans hrun'
              obtain rfl : m' = wire m := by
                simpa [hshows.flight] using hm'.symm
              exact hkind m hm

end Network

/-- The engine with this tree in place of its own. -/
def Engine.withTree (e : Engine) (t : MerkleTree) : Engine :=
  { e with store := { e.store with merkle := t } }

namespace Network

section

variable {x : External} {u : Nat → Nat → UInt8} {net : Network} {a b : NodeID}

theorem step_gossip {t : MerkleTree} {root : UInt64}
    (h : (net.nodes a).getMerkleRootHash x = (root, (net.nodes a).withTree t)) :
    net.step x u (.gossip a b) = some ⟨Function.update net.nodes a ((net.nodes a).withTree t),
      net.flight ++ [(b, (SyncMessage.init root).encode a)]⟩ := by
  rw [step, sendSyncInit, h]

theorem handle_init {e : Engine} {t : MerkleTree} {root theirs : UInt64}
    (h : e.getMerkleRootHash x = (root, e.withTree t)) :
    handleMessage x u b e ((SyncMessage.init theirs).encode a) =
      some (e.withTree t, if root = theirs then [] else [(a, (SyncMessage.reqNode 1 0).encode b)]) := by
  have hfits : (SyncMessage.init theirs).Fits := trivial
  rw [handleMessage_encode b a e hfits]
  simp only [SyncMessage.received, answer, onSyncInit, h, Option.map_some, apply_ite (List.map _),
    List.map_cons, List.map_nil]

private theorem step_init {t : MerkleTree} {root theirs : UInt64}
    (h : (net.nodes b).getMerkleRootHash x = (root, (net.nodes b).withTree t))
    (hflight : net.flight = [(b, (SyncMessage.init theirs).encode a)]) :
    net.step x u (.deliver 0) = some ⟨Function.update net.nodes b ((net.nodes b).withTree t),
      if root = theirs then [] else [(a, (SyncMessage.reqNode 1 0).encode b)]⟩ := by
  simp only [step, hflight, List.getElem?_cons_zero, Option.bind_some, handle_init h,
    Option.map_some, List.eraseIdx_cons_zero, List.nil_append]

/-- `SYNC_INIT` is sent and handled: both trees are up to date then, and the children of the root
are asked for if the roots differ. -/
theorem exists_opening (hab : a ≠ b) (hflight : net.flight = [])
    (hA : (net.nodes a).store.merkle.Coherent x.xxh3)
    (hB : (net.nodes b).store.merkle.Coherent x.xxh3) :
    ∃ (tA tB : MerkleTree) (net₁ net₂ : Network),
      tA.Settled x.xxh3 ∧ tA.leaves = (net.nodes a).store.merkle.leaves ∧
      tB.Settled x.xxh3 ∧ tB.leaves = (net.nodes b).store.merkle.leaves ∧
      net.step x u (.gossip a b) = some net₁ ∧
      net₁.nodes = Function.update net.nodes a ((net.nodes a).withTree tA) ∧
      net₁.flight = [(b, (SyncMessage.init (scratchL0 x.xxh3 tA.leaves 0)).encode a)] ∧
      net₁.step x u (.deliver 0) = some net₂ ∧
      net₂.nodes = Function.update (Function.update net.nodes a ((net.nodes a).withTree tA)) b
        ((net.nodes b).withTree tB) ∧
      net₂.flight = if scratchL0 x.xxh3 tB.leaves 0 = scratchL0 x.xxh3 tA.leaves 0 then []
        else [(a, (SyncMessage.reqNode 1 0).encode b)] := by
  obtain ⟨tA, hrootA, hsettledA, hleavesA⟩ := Engine.getMerkleRootHash_settles hA
  obtain ⟨tB, hrootB, hsettledB, hleavesB⟩ := Engine.getMerkleRootHash_settles hB
  rw [← hleavesA] at hrootA
  rw [← hleavesB] at hrootB
  let nodes := Function.update net.nodes a ((net.nodes a).withTree tA)
  have hnode : nodes b = net.nodes b := Function.update_of_ne hab.symm _ _
  have hinit : (nodes b).getMerkleRootHash x =
      (scratchL0 x.xxh3 tB.leaves 0, (nodes b).withTree tB) := by
    rw [hnode]
    exact hrootB
  refine ⟨tA, tB, ⟨nodes, _⟩, _, hsettledA, hleavesA, hsettledB, hleavesB, step_gossip hrootA, rfl,
    ?_, step_init hinit ?_, ?_, rfl⟩
  · rw [hflight, List.nil_append]
  · rw [hflight, List.nil_append]
  · exact congrArg (fun e : Engine => Function.update nodes b (e.withTree tB)) hnode

theorem run_from_single {kind : NodeID × Bytes → Prop} {m : NodeID × Bytes} {net' net'' : Network}
    (hflight : net.flight = [m]) (hfirst : net.step x u (.deliver 0) = some net')
    {events : List Event} (hevents : EveryStep (step x u) net events (Delivers kind))
    (hrun : events.foldlM (step x u) net = some net'') :
    (events = [] ∧ net'' = net) ∨ ∃ rest, EveryStep (step x u) net' rest (Delivers kind) ∧
      rest.foldlM (step x u) net' = some net'' := by
  cases events with
  | nil =>
      cases hrun
      exact Or.inl ⟨rfl, rfl⟩
  | cons event rest =>
      right
      rw [List.foldlM_cons] at hrun
      obtain ⟨net₁, hstep, hrun⟩ := Option.bind_eq_some_iff.mp hrun
      obtain rfl : event = .deliver 0 := by
        have hdelivers := hevents.head
        cases event with
        | deliver i =>
            cases i with
            | zero => rfl
            | succ i => simp [step, hflight] at hstep
        | write _ _ => exact hdelivers.elim
        | gossip _ _ => exact hdelivers.elim
        | duplicate _ => exact hdelivers.elim
        | lose _ => exact hdelivers.elim
      cases hfirst.symm.trans hstep
      exact ⟨rest, hevents.tail hstep, hrun⟩

theorem exists_run_from_single {kind : NodeID × Bytes → Prop} {m : NodeID × Bytes}
    {net' net'' : Network} (hflight : net.flight = [m]) (hm : kind m)
    (hfirst : net.step x u (.deliver 0) = some net') {events : List Event}
    (hevents : EveryStep (step x u) net' events (Delivers kind))
    (hrun : events.foldlM (step x u) net' = some net'') :
    ∃ events', EveryStep (step x u) net events' (Delivers kind) ∧
      events'.foldlM (step x u) net = some net'' := by
  refine ⟨.deliver 0 :: events, everyStep_cons (fun m' hm' => ?_) fun net₁ hstep => ?_, ?_⟩
  · obtain rfl : m = m' := by simpa [hflight] using hm'
    exact hm
  · cases hfirst.symm.trans hstep
    exact hevents
  · rw [List.foldlM_cons, hfirst]
    exact hrun

end

end Network

end L3KV
