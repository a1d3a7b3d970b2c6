import L3KV.Engine.Plain
import L3KV.Mesh.Framing
import L3KV.Sync.DrillDown
import L3KV.Sync.ExchangeEnds

/-!
# How the mesh is wired to the sync manager

The service passes only messages of the control lane on to `handle_message`, while bucket listings,
requests for values and values are sent on the heavy lane. So the exchange stops where the first
bucket is listed. The tests pass on every lane.
-/

namespace L3KV

open Framework

/-- The lane that the function sending this type of message passes to `mesh_.send`. -/
def MsgType.lane (type : MsgType) : Lane :=
  if type = .syncRepBucket ∨ type = .syncGetVal ∨ type = .syncPutVal then .heavy else .control

/-- The lane on which a payload was sent. -/
def sentOn (payload : Bytes) : Lane := MsgType.lane ⟨payload.headD 0⟩

/-- The callback given to `set_on_message`: does it pass the payload on to `handle_message`? -/
abbrev Wiring := Lane → Bytes → Bool

/-- `main`. -/
def mainWiring : Wiring := fun lane _ => lane = .control

def testWiring : Wiring := fun _ payload =>
  match payload with
  | [] => false
  | type :: _ => 1 ≤ type ∧ type ≤ 7

def Wiring.passes (w : Wiring) (m : NodeID × Bytes) : Bool := w (sentOn m.2) m.2

namespace SyncMessage

def lane : SyncMessage → Lane
  | .repBucket _ _ _ => .heavy
  | .getVal _ => .heavy
  | .putVal _ _ _ => .heavy
  | _ => .control

/-- `SYNC_GET_VAL` and `SYNC_PUT_VAL`. -/
def TransfersValue : SyncMessage → Prop
  | .getVal _ => True
  | .putVal _ _ _ => True
  | _ => False

private theorem sentOn_encode (m : SyncMessage) (sender : NodeID) :
    sentOn (m.encode sender) = m.lane := by
  cases m <;> rfl

private theorem testWiring_encode (m : SyncMessage) (sender : NodeID) (lane : Lane) :
    testWiring lane (m.encode sender) = true := by
  cases m <;> rfl

private theorem decode_control {msg : SyncMessage} (hlane : msg.lane = .control)
    (hrange : msg.InRange) (sender : NodeID) :
    decode (msg.encode sender) = (sender, .message msg) := by
  cases msg with
  | init root => exact decode_encode sender (m := .init root) trivial
  | reqNode level parent => exact decode_encode sender (m := .reqNode level parent) trivial
  | repNode level parent hashes =>
      exact decode_encode sender (m := .repNode level parent hashes) hrange.2
  | reqBucket bucket => exact decode_encode sender (m := .reqBucket bucket) trivial
  | repBucket bucket count entries => cases hlane
  | getVal key => cases hlane
  | putVal key metaVal value => cases hlane

end SyncMessage

namespace Network

section

variable (x : External) (u : Nat → Nat → UInt8) (w : Wiring)

/-- One step of nodes that are wired like this: a message that is not passed on is gone. -/
def wiredStep (net : Network) : Event → Option Network
  | .deliver i =>
      net.flight[i]?.bind fun m =>
        if w.passes m then net.step x u (.deliver i) else net.step x u (.lose i)
  | event => net.step x u event

/-- The event delivers a `SYNC_REQ_BUCKET`. -/
def Event.AsksForBucket (net : Network) : Event → Prop
  | .deliver i => ∃ m ∈ net.flight[i]?, ∃ bucket sender,
      m.2 = (SyncMessage.reqBucket bucket).encode sender
  | _ => False

/-- Everything in flight was sent by a sync manager, and is of this kind. -/
def Carries (kind : SyncMessage → Prop) (net : Network) : Prop :=
  ∀ m ∈ net.flight, ∃ sender msg, m.2 = SyncMessage.encode sender msg ∧ msg.InRange ∧ kind msg

end

variable {x : External} {u : Nat → Nat → UInt8} {w : Wiring} {net net' : Network}
  {kind : SyncMessage → Prop}

private theorem mem_mainStep (h : net.Carries kind) {event : Event}
    (hstep : net.wiredStep x u mainWiring event = some net') {m : NodeID × Bytes}
    (hm : m ∈ net'.flight) :
    m ∈ net.flight ∨ (∃ sender root, m.2 = (SyncMessage.init root).encode sender) ∨
      ∃ i target sender msg r reply, event = .deliver i ∧
        net.flight[i]? = some (target, SyncMessage.encode sender msg) ∧ msg.InRange ∧ kind msg ∧
        msg.lane = .control ∧ answer x u (net.nodes target) msg = some r ∧ reply ∈ r.2 ∧
        m = (sender, reply.encode target) := by
  cases event with
  | write node call =>
      obtain ⟨r, -, rfl⟩ := Option.map_eq_some_iff.mp hstep
      exact .inl hm
  | gossip node target =>
      cases hstep
      rcases List.mem_append.mp hm with hold | hnew
      · exact .inl hold
      · rw [List.mem_singleton.mp hnew]
        exact .inr (.inl ⟨node, _, rfl⟩)
  | duplicate i =>
      obtain ⟨m', hm', rfl⟩ := Option.map_eq_some_iff.mp hstep
      rcases List.mem_append.mp hm with hold | hnew
      · exact .inl hold
      · rw [List.mem_singleton.mp hnew]
        exact .inl (List.mem_of_getElem? hm')
  | lose i =>
      obtain ⟨m', -, rfl⟩ := Option.map_eq_some_iff.mp hstep
      exact .inl (List.mem_of_mem_eraseIdx hm)
  | deliver i =>
      obtain ⟨⟨target, payload⟩, hat, hdeliver⟩ := Option.bind_eq_some_iff.mp hstep
      obtain ⟨sender, msg, hpayload, hrange, hkind⟩ := h _ (List.mem_of_getElem? hat)
      obtain rfl : payload = msg.encode sender := hpayload
      split at hdeliver
      · rename_i hpasses
        have hlane : msg.lane = .control := by
          simpa [Wiring.passes, mainWiring, SyncMessage.sentOn_encode] using hpasses
        obtain ⟨r, hr, -⟩ := answer_inRange (x := x) (u := u) (net.nodes target) hrange
        have hhandle : handleMessage x u target (net.nodes target) (msg.encode sender) =
            some (r.1, r.2.map fun reply => (sender, reply.encode target)) := by
          rw [handleMessage, SyncMessage.decode_control hlane hrange sender]
          simp [hr]
        simp only [step, hat, Option.bind_some, hhandle, Option.map_some, Option.some.injEq] at hdeliver
        subst hdeliver
        rcases List.mem_append.mp hm with hold | hnew
        · exact .inl (List.mem_of_mem_eraseIdx hold)
        · obtain ⟨reply, hreply, rfl⟩ := List.mem_map.mp hnew
          exact .inr (.inr ⟨i, target, sender, msg, r, reply, rfl, hat, hrange, hkind, hlane, hr,
            hreply, rfl⟩)
      · obtain ⟨m', -, rfl⟩ := Option.map_eq_some_iff.mp hdeliver
        exact .inl (List.mem_of_mem_eraseIdx hm)

private theorem answer_control {e : Engine} {msg : SyncMessage} {r : Engine × List SyncMessage}
    (hlane : msg.lane = .control) (hanswer : answer x u e msg = some r) {reply : SyncMessage}
    (hreply : reply ∈ r.2) :
    ¬ reply.TransfersValue ∧ ((∀ bucket, msg ≠ .reqBucket bucket) → reply.lane = .control) := by
  cases msg with
  | init root =>
      cases hanswer
      have heq : reply = .reqNode 1 0 := by
        simp only [onSyncInit] at hreply
        split at hreply
        · cases hreply
        · simpa using hreply
      rw [heq]
      exact ⟨id, fun _ => rfl⟩
  | reqNode level parent =>
      obtain ⟨m, hm, rfl⟩ := Option.map_eq_some_iff.mp hanswer
      obtain ⟨hashes, -, rfl⟩ := Option.map_eq_some_iff.mp hm
      rw [List.mem_singleton.mp hreply]
      exact ⟨id, fun _ => rfl⟩
  | repNode level parent hashes =>
      obtain ⟨ms, hms, rfl⟩ := Option.map_eq_some_iff.mp hanswer
      obtain ⟨mine, -, rfl⟩ := Option.map_eq_some_iff.mp hms
      obtain ⟨i, -, rfl⟩ := List.mem_map.mp hreply
      unfold drillDown
      split
      · exact ⟨id, fun _ => rfl⟩
      · exact ⟨id, fun _ => rfl⟩
  | reqBucket bucket =>
      cases hanswer
      rw [List.mem_singleton.mp hreply]
      exact ⟨id, fun hnot => absurd rfl (hnot bucket)⟩
  | repBucket bucket count entries => cases hlane
  | getVal key => cases hlane
  | putVal key metaVal value => cases hlane

private theorem Carries.mainStep (h : net.Carries kind) (hinit : ∀ root, kind (.init root))
    {event : Event}
    (hanswers : ∀ i target sender msg reply, event = .deliver i →
      net.flight[i]? = some (target, SyncMessage.encode sender msg) → ¬ reply.TransfersValue →
      ((∀ bucket, msg ≠ .reqBucket bucket) → reply.lane = .control) → kind reply)
    (hstep : net.wiredStep x u mainWiring event = some net') : net'.Carries kind := by
  intro m hm
  rcases mem_mainStep h hstep hm with hold | ⟨sender, root, hroot⟩ |
    ⟨i, target, sender, msg, r, reply, hevent, hat, hrange, -, hlane, hanswer, hreply, rfl⟩
  · exact h m hold
  · exact ⟨sender, .init root, hroot, trivial, hinit root⟩
  · obtain ⟨r', hr', hreplies⟩ := answer_inRange (x := x) (u := u) (net.nodes target) hrange
    cases hanswer.symm.trans hr'
    obtain ⟨hvalue, hcontrol⟩ := answer_control hlane hanswer hreply
    exact ⟨target, reply, rfl, (hreplies reply hreply).1,
      hanswers i target sender msg reply hevent hat hvalue hcontrol⟩

/-- With the wiring of the service no value is ever asked for or sent. -/
theorem no_value_transfer (h : net.Carries fun msg => ¬ msg.TransfersValue) {events : List Event}
    (hrun : events.foldlM (wiredStep x u mainWiring) net = some net') :
    net'.Carries fun msg => ¬ msg.TransfersValue :=
  run_invariant_always (fun _ net => net.Carries fun msg => ¬ msg.TransfersValue) h
    (fun _ _ _ _ h hstep => h.mainStep (fun _ => id) (fun _ _ _ _ _ _ _ hvalue _ => hvalue) hstep) hrun

/-- Without a request for a bucket everything stays on the control lane. -/
theorem Carries.control (h : net.Carries fun msg => msg.lane = .control) {event : Event}
    (hasks : ¬ event.AsksForBucket net) (hstep : net.wiredStep x u mainWiring event = some net') :
    net'.Carries fun msg => msg.lane = .control := by
  refine h.mainStep (fun _ => rfl) ?_ hstep
  rintro i target sender msg reply rfl hat - hcontrol
  refine hcontrol fun bucket hbucket => hasks ⟨_, hat, bucket, sender, ?_⟩
  rw [hbucket]

theorem Carries.passes (h : net.Carries fun msg => msg.lane = .control) {m : NodeID × Bytes}
    (hm : m ∈ net.flight) : mainWiring.passes m = true ∧ testWiring.passes m = true := by
  obtain ⟨sender, msg, hpayload, -, hlane⟩ := h m hm
  rw [Wiring.passes, Wiring.passes, hpayload, SyncMessage.sentOn_encode, hlane]
  exact ⟨rfl, SyncMessage.testWiring_encode msg sender _⟩

private theorem Carries.testStep (h : net.Carries fun msg => msg.lane = .control) (event : Event) :
    net.wiredStep x u testWiring event = net.wiredStep x u mainWiring event := by
  cases event with
  | deliver i =>
      cases hm : net.flight[i]? with
      | none => simp only [wiredStep, hm, Option.bind_none]
      | some m =>
          obtain ⟨hmain, htest⟩ := h.passes (List.mem_of_getElem? hm)
          simp only [wiredStep, hm, Option.bind_some, hmain, htest]
  | _ => rfl

private theorem exists_listing {event : Event} (hasks : event.AsksForBucket net) :
    ∃ net', net.wiredStep x u mainWiring event = some net' ∧
      ∃ m ∈ net'.flight, mainWiring.passes m = false := by
  cases event with
  | deliver i =>
      obtain ⟨⟨target, payload⟩, hat, bucket, sender, hpayload⟩ := hasks
      obtain rfl : payload = (SyncMessage.reqBucket bucket).encode sender := hpayload
      have hhandle : handleMessage x u target (net.nodes target)
          ((SyncMessage.reqBucket bucket).encode sender) =
          some ((onReqBucket x (net.nodes target) bucket).1,
            [(sender, (onReqBucket x (net.nodes target) bucket).2.encode target)]) := by
        rw [handleMessage, decode_encode sender (m := .reqBucket bucket) trivial]
        rfl
      have hpasses : mainWiring.passes (target, (SyncMessage.reqBucket bucket).encode sender) =
          true := rfl
      refine ⟨⟨Function.update net.nodes target (onReqBucket x (net.nodes target) bucket).1,
        net.flight.eraseIdx i ++
          [(sender, (onReqBucket x (net.nodes target) bucket).2.encode target)]⟩, ?_, ?_⟩
      · simp only [wiredStep, Option.mem_def.mp hat, Option.bind_some, hpasses, if_true, step,
          hhandle, Option.map_some]
      · exact ⟨_, List.mem_append_right _ (List.mem_singleton_self _), rfl⟩
  | write node call => exact hasks.elim
  | gossip node target => exact hasks.elim
  | duplicate i => exact hasks.elim
  | lose i => exact hasks.elim

/-- From any nodes with `SYNC_INIT` messages in flight: in a run of the service everything that is
ever in flight would be passed on to `handle_message` if and only if no request for a bucket is
delivered, and then the wiring of the tests does the same. -/
theorem all_passed_iff {net net' : Network}
    (hinit : ∀ m ∈ net.flight, ∃ sender root, m.2 = (SyncMessage.init root).encode sender)
    {events : List Event} (hrun : events.foldlM (wiredStep x u mainWiring) net = some net') :
    ((∀ front back mid, events = front ++ back →
        front.foldlM (wiredStep x u mainWiring) net = some mid →
        ∀ m ∈ mid.flight, mainWiring.passes m = true) ↔
      EveryStep (wiredStep x u mainWiring) net events fun net event => ¬ event.AsksForBucket net) ∧
    ((EveryStep (wiredStep x u mainWiring) net events fun net event => ¬ event.AsksForBucket net) →
      events.foldlM (wiredStep x u testWiring) net = some net') := by
  have hstart : net.Carries fun msg => msg.lane = .control := by
    intro m hm
    obtain ⟨sender, root, hpayload⟩ := hinit m hm
    exact ⟨sender, .init root, hpayload, trivial, rfl⟩
  have hcontrol {events : List Event} {mid : Network}
      (hnone : EveryStep (wiredStep x u mainWiring) net events fun net event =>
        ¬ event.AsksForBucket net)
      (hrun : events.foldlM (wiredStep x u mainWiring) net = some mid) :
      (mid.Carries fun msg => msg.lane = .control) ∧
        events.foldlM (wiredStep x u testWiring) net = some mid := by
    refine run_invariant (fun events mid => (mid.Carries fun msg => msg.lane = .control) ∧
      events.foldlM (wiredStep x u testWiring) net = some mid) ⟨hstart, rfl⟩ ?_ hnone hrun
    rintro events mid₁ event mid₂ ⟨hcarries, htest⟩ hasks hstep
    exact ⟨hcarries.control hasks hstep,
      foldlM_concat.mpr ⟨mid₁, htest, (hcarries.testStep event).trans hstep⟩⟩
  refine ⟨⟨fun hpassed => ?_, fun hnone => ?_⟩, fun hnone => (hcontrol hnone hrun).2⟩
  · intro before event after hsplit mid hmid hasks
    -- The step is part of the run, so it has a result.
    rw [hsplit, List.append_cons, List.foldlM_append] at hrun
    obtain ⟨mid', hfront, -⟩ := Option.bind_eq_some_iff.mp hrun
    obtain ⟨mid₁, hmid₁, hstep⟩ := foldlM_concat.mp hfront
    cases hmid.symm.trans hmid₁
    obtain ⟨mid'', hlisting, m, hm, hstopped⟩ := exists_listing (x := x) (u := u) hasks
    cases hstep.symm.trans hlisting
    have hpasses := hpassed (before ++ [event]) after mid' (by rw [hsplit]; simp) hfront m hm
    rw [hstopped] at hpasses
    cases hpasses
  · intro front back mid hsplit hmid m hm
    subst hsplit
    exact ((hcontrol hnone.front hmid).1.passes hm).1

private theorem wiredStep_comparesNodes {event : Event} (h : Delivers ComparesNodes net event) :
    net.wiredStep x u mainWiring event = net.step x u event := by
  cases event with
  | deliver i =>
      cases hm : net.flight[i]? with
      | none => simp only [wiredStep, step, hm, Option.bind_none]
      | some m =>
          have hpasses : mainWiring.passes m = true := by
            have hhead (code : UInt8) (hcode : m.2.head? = some code) : m.2.headD 0 = code := by
              rw [List.headD_eq_head?_getD, hcode, Option.getD_some]
            rcases h m hm with hcode | hcode | hcode
            all_goals
              rw [Wiring.passes, sentOn, hhead _ hcode]
              rfl
          simp only [wiredStep, hm, Option.bind_some, hpasses, if_true]
  | _ => exact h.elim

private theorem wired_of_run {events : List Event}
    (hevents : EveryStep (step x u) net events (Delivers ComparesNodes))
    (hrun : events.foldlM (step x u) net = some net') :
    events.foldlM (wiredStep x u mainWiring) net = some net' := by
  refine run_invariant (fun events net' => events.foldlM (wiredStep x u mainWiring) net = some net')
    rfl ?_ hevents hrun
  intro events net₁ event net₂ hfront hdelivers hstep
  exact foldlM_concat.mpr ⟨net₁, hfront, (wiredStep_comparesNodes hdelivers).trans hstep⟩

private theorem compared_quiet {events : List Event}
    (hevents : EveryStep (step x u) net events (Delivers ComparesNodes))
    (hrun : events.foldlM (step x u) net = some net') :
    EveryStep (wiredStep x u mainWiring) net events fun net event => ¬ event.AsksForBucket net := by
  intro before event after hsplit mid hmid hasks
  rw [hsplit] at hevents
  rw [hsplit, List.foldlM_append] at hrun
  obtain ⟨mid', hbefore, -⟩ := Option.bind_eq_some_iff.mp hrun
  cases hmid.symm.trans (wired_of_run hevents.front hbefore)
  have hdelivers := hevents before event after rfl mid hbefore
  cases event with
  | deliver i =>
      obtain ⟨m, hm, bucket, sender, hpayload⟩ := hasks
      have hkind := hdelivers m hm
      rw [ComparesNodes, hpayload] at hkind
      rcases hkind with hcode | hcode | hcode <;> cases hcode
  | _ => exact hdelivers

private theorem exists_compared :
    let x := External.reference pulseHash
    ∃ e, (Engine.openOn x 1 []).runCalls x (fun _ _ => 0)
        [.applyMutation ⟨⟨2, 0, 1⟩, ascii "w", pulse, false⟩] = some e ∧
      ∃ net₁ events net₂,
        step x (fun _ _ => 0) ⟨fun node => if node = 1 then e else Engine.openOn x node [], []⟩
          (.gossip 1 2) = some net₁ ∧
        EveryStep (step x fun _ _ => 0) net₁ events (Delivers ComparesNodes) ∧
        events.foldlM (step x fun _ _ => 0) net₁ = some net₂ ∧
        (1, (SyncMessage.reqBucket 0).encode 2) ∈ net₂.flight := by
  intro x
  have hkey : UserKey (ascii "w") := by decide
  obtain ⟨e, hcalls, hrep, hdict⟩ := exists_applied (External.reference_lawful pulseHash)
    (fun _ _ => rfl) 1 (m := ⟨⟨2, 0, 1⟩, ascii "w", pulse, false⟩) hkey
    (by decide : Timestamp.zero < (⟨2, 0, 1⟩ : Timestamp)) fun _ _ => 0
  let net : Network := ⟨fun node => if node = 1 then e else Engine.openOn x node [], []⟩
  have hvalue : valueHash x (some ⟨⟨2, 0, 1⟩, pulse, false⟩) = 100 := by decide +kernel
  have hsidecar : sidecarHash x (some ⟨⟨2, 0, 1⟩, pulse, false⟩) = 0 := by decide +kernel
  have hbucket : bucketOf x.xxh3 (ascii "w") = 0 := by decide
  have hleaves1 : (net.nodes 1).store.merkle.leaves = spike 100 0 := by
    funext b
    have hleaf : (net.nodes 1).store.merkle.leaves b =
        contribution x b (ascii "w") (some ⟨⟨2, 0, 1⟩, pulse, false⟩) :=
      hrep.leaf_single hdict hkey b
    rw [hleaf, contribution, hvalue, hsidecar, hbucket, ite_self, UInt64.xor_zero, spike]
    simp only [Fin.ext_iff, eq_comm, Fin.val_zero]
  have hleaves2 : (net.nodes 2).store.merkle.leaves = spike 0 0 := by
    funext b
    simp only [spike, ite_self]
    rfl
  obtain ⟨net₁, events, net₂, hgossip, hevents, hrun, hperm⟩ :=
    exists_bucket_requests (x := x) (u := fun _ _ => 0) (by decide : (1 : NodeID) ≠ 2)
      (rfl : net.flight = []) hrep.sound.coherent MerkleTree.init_coherent
      (by rw [hleaves1, hleaves2]; exact injOn_pulseHash)
  -- The first bucket differs, so it is asked for.
  have hrequest : (1, (SyncMessage.reqBucket 0).encode 2) ∈ net₂.flight := by
    rw [hperm.mem_iff, hleaves1, hleaves2]
    exact List.mem_map.mpr ⟨0, mem_differing.mpr (by decide), rfl⟩
  exact ⟨e, hcalls, net₁, events, net₂, hgossip, hevents, hrun, hrequest⟩

/-- Node requests and replies are passed on until the bucket that differs is asked for. -/
theorem all_passed_iff_compared :
    let x := External.reference pulseHash
    ∃ (e : Engine) (events : List Event) (net' : Network), (Engine.openOn x 1 []).runCalls x (fun _ _ => 0)
        [.applyMutation ⟨⟨2, 0, 1⟩, ascii "w", pulse, false⟩] = some e ∧
      events.foldlM (wiredStep x (fun _ _ => 0) mainWiring)
        ⟨fun node => if node = 1 then e else Engine.openOn x node [], []⟩ = some net' ∧
      events.foldlM (wiredStep x (fun _ _ => 0) testWiring)
        ⟨fun node => if node = 1 then e else Engine.openOn x node [], []⟩ = some net' ∧
      (1, (SyncMessage.reqBucket 0).encode 2) ∈ net'.flight ∧
      ∀ m ∈ net'.flight, mainWiring.passes m = true := by
  intro x
  obtain ⟨e, hcalls, net₁, events, net₂, hgossip, hevents, hcompared, hrequest⟩ := exists_compared
  have hrun : (Event.gossip 1 2 :: events).foldlM (wiredStep x (fun _ _ => 0) mainWiring)
      ⟨fun node => if node = 1 then e else Engine.openOn x node [], []⟩ = some net₂ := by
    rw [List.foldlM_cons]
    exact Option.bind_eq_some_iff.mpr ⟨net₁, hgossip, wired_of_run hevents hcompared⟩
  have hnone : EveryStep (wiredStep x (fun _ _ => 0) mainWiring)
      ⟨fun node => if node = 1 then e else Engine.openOn x node [], []⟩ (.gossip 1 2 :: events)
      fun net event => ¬ event.AsksForBucket net := by
    refine everyStep_cons id fun net hnet => ?_
    cases hgossip.symm.trans hnet
    exact compared_quiet hevents hcompared
  obtain ⟨hiff, htest⟩ := all_passed_iff (fun m hm => absurd hm List.not_mem_nil) hrun
  exact ⟨e, _, net₂, hcalls, hrun, htest hnone, hrequest,
    hiff.mpr hnone _ [] net₂ (List.append_nil _).symm hrun⟩

/-- Node 1 has applied one mutation that node 2 knows nothing of. Node 2 asks for the bucket, and
node 1's listing is not passed on to it. -/
theorem listing_stopped :
    let x := External.reference pulseHash
    ∃ (e : Engine) (events : List Event) (net' : Network), (Engine.openOn x 1 []).runCalls x (fun _ _ => 0)
        [.applyMutation ⟨⟨2, 0, 1⟩, ascii "w", pulse, false⟩] = some e ∧
      events.foldlM (wiredStep x (fun _ _ => 0) mainWiring)
        ⟨fun node => if node = 1 then e else Engine.openOn x node [], []⟩ = some net' ∧
      ∃ m ∈ net'.flight, mainWiring.passes m = false := by
  intro x
  obtain ⟨e, hcalls, net₁, events, net₂, hgossip, hevents, hcompared, hrequest⟩ := exists_compared
  obtain ⟨i, hi⟩ := List.mem_iff_getElem?.mp hrequest
  have hasks : (Event.deliver i).AsksForBucket net₂ := ⟨_, hi, 0, 2, rfl⟩
  obtain ⟨net₃, hlisting, hstopped⟩ := exists_listing (x := x) (u := fun _ _ => 0) hasks
  refine ⟨e, (.gossip 1 2 :: events) ++ [.deliver i], net₃, hcalls, ?_, hstopped⟩
  refine foldlM_concat.mpr ⟨net₂, ?_, hlisting⟩
  rw [List.foldlM_cons]
  exact Option.bind_eq_some_iff.mpr ⟨net₁, hgossip, wired_of_run hevents hcompared⟩

end Network

end L3KV
