import L3KV.Framework.Delivery
import L3KV.Sync.Network

/-!
# Every exchange ends

Whatever the nodes hold and however it changes, the messages that follow a `SYNC_INIT` go down the
tree level by level, then to a bucket, its keys and their values. So their indices stay in range,
and only finitely many messages are delivered unless there is new gossip.
-/

namespace L3KV

open Framework

namespace SyncMessage

/-- The indices are those of nodes and buckets that exist, and a reply has its sixteen hashes. -/
def InRange : SyncMessage → Prop
  | .reqNode level parent => OnLevel level parent
  | .repNode level parent hashes => OnLevel level parent ∧ hashes.length = 16
  | .reqBucket bucket => bucket.toNat < 65536
  | .repBucket bucket _ _ => bucket.toNat < 65536
  | _ => True

/-- How far the message is from the end of the exchange. -/
def rank : SyncMessage → Nat
  | .init _ => 12
  | .reqNode level _ => 2 * (4 - level.toNat) + 5
  | .repNode level _ _ => 2 * (4 - level.toNat) + 4
  | .reqBucket _ => 3
  | .repBucket _ _ _ => 2
  | .getVal _ => 1
  | .putVal _ _ _ => 0

end SyncMessage

/-- What the handlers read in the payload is in range, and they do not read behind its end. -/
def PayloadInRange (payload : Bytes) : Prop :=
  match (decode payload).2 with
  | .ignored => True
  | .overrun => False
  | .message m => m.InRange

def payloadRank (payload : Bytes) : Nat :=
  match (decode payload).2 with
  | .message m => m.rank
  | _ => 0

section

variable {x : External} {u : Nat → Nat → UInt8}

private theorem payload_encode (sender : NodeID) {m : SyncMessage} (h : m.InRange) :
    PayloadInRange (m.encode sender) ∧ payloadRank (m.encode sender) ≤ m.rank := by
  have hfits (hfits : m.Fits) (hsame : m.received = m) :
      PayloadInRange (m.encode sender) ∧ payloadRank (m.encode sender) ≤ m.rank := by
    rw [PayloadInRange, payloadRank, decode_encode sender hfits, hsame]
    exact ⟨h, le_refl _⟩
  cases m with
  | init root => exact hfits trivial rfl
  | reqNode level parent => exact hfits trivial rfl
  | repNode level parent hashes => exact hfits h.2 rfl
  | reqBucket bucket => exact hfits trivial rfl
  | repBucket bucket count entries =>
      -- Long keys make a mess of the entries, not of the bucket.
      rw [PayloadInRange, payloadRank, decode_repBucket]
      exact ⟨h, le_refl _⟩
  | getVal key => exact hfits trivial rfl
  | putVal key metaVal value =>
      rw [PayloadInRange, payloadRank, decode_putVal]
      rcases decodePutVal_cases (SyncMessage.encode sender (.putVal key metaVal value)) with
        hread | ⟨key', metaVal', value', hread⟩
      · rw [hread]
        exact ⟨trivial, Nat.zero_le _⟩
      · rw [hread]
        exact ⟨trivial, le_refl _⟩

private theorem drillDown_inRange {level : UInt8} {parent : UInt32} (h : OnLevel level parent)
    {i : Nat}
    (hi : i < 16) : (drillDown level (childNode parent i)).InRange := by
  unfold drillDown
  split
  · rename_i hlevel
    have hlt := h.child_lt hi
    rw [hlevel] at hlt
    exact hlt
  · rename_i hlevel
    exact h.child hlevel hi

private theorem drillDown_rank {level : UInt8} (hle : level.toNat ≤ 4) (index : UInt32) :
    (drillDown level index).rank < 2 * (4 - level.toNat) + 4 := by
  unfold drillDown
  split
  · simp only [SyncMessage.rank]
    omega
  · rename_i hlevel
    have hne : level.toNat ≠ 4 := fun heq => hlevel (UInt8.toNat.inj heq)
    have hsucc : (level + 1).toNat = level.toNat + 1 := by
      rw [UInt8.toNat_add]
      change (level.toNat + 1) % 256 = _
      omega
    simp only [SyncMessage.rank, hsucc]
    omega

/-- A message in range is answered, by messages in range that are nearer to the end. -/
theorem answer_inRange (e : Engine) {m : SyncMessage} (h : m.InRange) :
    ∃ r, answer x u e m = some r ∧ ∀ reply ∈ r.2, reply.InRange ∧ reply.rank < m.rank := by
  cases m with
  | init root =>
      refine ⟨_, rfl, fun reply hreply => ?_⟩
      have heq : reply = .reqNode 1 0 := by
        simp only [onSyncInit] at hreply
        split at hreply
        · cases hreply
        · simpa using hreply
      rw [heq]
      exact ⟨⟨by decide, by decide, by decide⟩, by simp [SyncMessage.rank]⟩
  | reqNode level parent =>
      refine ⟨_, by rw [answer, onReqNode, childHashes_eq e h]; rfl, fun reply hreply => ?_⟩
      rw [List.mem_singleton.mp hreply]
      exact ⟨⟨h, by simp⟩, by simp [SyncMessage.rank]⟩
  | repNode level parent hashes =>
      refine ⟨_, by rw [answer, onRepNode, childHashes_eq e h.1]; rfl, fun reply hreply => ?_⟩
      obtain ⟨i, hi, rfl⟩ := List.mem_map.mp hreply
      have hlt : i < 16 := List.mem_range.mp (List.mem_filter.mp hi).1
      exact ⟨drillDown_inRange h.1 hlt, drillDown_rank h.1.le_four _⟩
  | reqBucket bucket =>
      refine ⟨_, rfl, fun reply hreply => ?_⟩
      rw [List.mem_singleton.mp hreply]
      exact ⟨h, by simp [onReqBucket, SyncMessage.rank]⟩
  | repBucket bucket count entries =>
      refine ⟨_, rfl, fun reply hreply => ?_⟩
      obtain ⟨entry, -, rfl⟩ := List.mem_map.mp hreply
      exact ⟨trivial, by simp [SyncMessage.rank]⟩
  | getVal key =>
      refine ⟨_, rfl, fun reply hreply => ?_⟩
      simp only [onGetVal] at hreply
      split at hreply
      · cases hreply
      · rw [List.mem_singleton.mp hreply]
        exact ⟨trivial, by simp [SyncMessage.rank]⟩
  | putVal key metaVal value =>
      obtain ⟨r, hcall, -⟩ := exists_call_applyMutation (x := x) u e
        ⟨(parseMeta x.lite3 metaVal).ts, key, value, (parseMeta x.lite3 metaVal).isTombstone⟩
      exact ⟨(r.1, []), by rw [answer, onPutVal, hcall]; rfl, fun reply hreply => by cases hreply⟩

private theorem handleMessage_inRange (me : NodeID) (e : Engine) {payload : Bytes}
    (h : PayloadInRange payload) : ∃ r, handleMessage x u me e payload = some r ∧
      ∀ sent ∈ r.2, PayloadInRange sent.2 ∧ payloadRank sent.2 < payloadRank payload := by
  rcases hdecode : decode payload with ⟨sender, _ | _ | m⟩
  · exact ⟨(e, []), by simp [handleMessage, hdecode], fun sent hsent => by cases hsent⟩
  · simp [PayloadInRange, hdecode] at h
  · have hrank : payloadRank payload = m.rank := by simp [payloadRank, hdecode]
    obtain ⟨r, hr, hreplies⟩ := answer_inRange (x := x) (u := u) e
      (show m.InRange by simpa [PayloadInRange, hdecode] using h)
    refine ⟨(r.1, r.2.map fun reply => (sender, reply.encode me)),
      by simp [handleMessage, hdecode, hr], fun sent hsent => ?_⟩
    obtain ⟨reply, hreply, rfl⟩ := List.mem_map.mp hsent
    obtain ⟨hrange, hlower⟩ := hreplies reply hreply
    obtain ⟨hpayload, hle⟩ := payload_encode me hrange
    exact ⟨hpayload, hrank ▸ lt_of_le_of_lt hle hlower⟩

namespace Network

variable {net net' : Network}

def InRange (net : Network) : Prop := ∀ m ∈ net.flight, PayloadInRange m.2

def rank (m : NodeID × Bytes) : Nat := payloadRank m.2

theorem InRange.deliver (h : net.InRange) {i : Nat} (hi : i < net.flight.length) :
    ∃ net', step x u net (.deliver i) = some net' ∧ net'.InRange ∧
      Replaced rank net.flight net'.flight := by
  obtain ⟨m, hm⟩ : ∃ m, net.flight[i]? = some m := ⟨_, List.getElem?_eq_getElem hi⟩
  obtain ⟨before, after, hflight, herase⟩ := Pool.getElem?_split hm
  obtain ⟨r, hr, hsent⟩ := handleMessage_inRange (x := x) (u := u) m.1 (net.nodes m.1)
    (h m (List.mem_of_getElem? hm))
  refine ⟨⟨Function.update net.nodes m.1 r.1, net.flight.eraseIdx i ++ r.2⟩, ?_, ?_, ?_⟩
  · simp [step, hm, hr]
  · intro m' hm'
    rcases List.mem_append.mp hm' with hold | hnew
    · exact h m' (List.mem_of_mem_eraseIdx hold)
    · exact (hsent m' hnew).1
  · exact ⟨before, m, after, r.2, hflight, by rw [herase], fun reply hreply => (hsent reply hreply).2⟩

private theorem InRange.delivered (h : net.InRange) {i : Nat}
    (hstep : net.step x u (.deliver i) = some net') :
    net'.InRange ∧ Replaced rank net.flight net'.flight := by
  obtain ⟨m, hm, -⟩ := Option.bind_eq_some_iff.mp hstep
  obtain ⟨hi, -⟩ := List.getElem?_eq_some_iff.mp hm
  obtain ⟨net'', hdeliver, hresult⟩ := h.deliver (x := x) (u := u) hi
  rw [hdeliver] at hstep
  cases hstep
  exact hresult

theorem InRange.step (h : net.InRange) {event : Event} (hstep : net.step x u event = some net') :
    net'.InRange := by
  cases event with
  | write node call =>
      obtain ⟨r, -, rfl⟩ := Option.map_eq_some_iff.mp hstep
      exact h
  | gossip node target =>
      cases hstep
      intro m hm
      rcases List.mem_append.mp hm with hold | hnew
      · exact h m hold
      · rw [List.mem_singleton.mp hnew]
        exact (payload_encode (m := .init _) node trivial).1
  | deliver i => exact (h.delivered hstep).1
  | duplicate i =>
      obtain ⟨m, hm, rfl⟩ := Option.map_eq_some_iff.mp hstep
      intro m' hm'
      rcases List.mem_append.mp hm' with hold | hnew
      · exact h m' hold
      · rw [List.mem_singleton.mp hnew]
        exact h m (List.mem_of_getElem? hm)
  | lose i =>
      obtain ⟨m, -, rfl⟩ := Option.map_eq_some_iff.mp hstep
      exact fun m' hm' => h m' (List.mem_of_mem_eraseIdx hm')

private theorem inRange_of_run (h : net.InRange) {events : List Event}
    (hrun : events.foldlM (step x u) net = some net') : net'.InRange := by
  induction events generalizing net with
  | nil =>
      cases hrun
      exact h
  | cons event events ih =>
      rw [List.foldlM_cons] at hrun
      obtain ⟨net₁, hstep, hrest⟩ := Option.bind_eq_some_iff.mp hrun
      exact ih (h.step hstep) hrest

/-- The event puts nothing into flight but what a handler answers. -/
def Event.AnswersOnly : Event → Prop
  | .gossip _ _ => False
  | .duplicate _ => False
  | _ => True

def Event.Takes : Event → Prop
  | .deliver _ => True
  | .lose _ => True
  | _ => False

theorem InRange.replaced (h : net.InRange) {event : Event}
    (hstep : net.step x u event = some net') (htakes : event.Takes) :
    Replaced rank net.flight net'.flight := by
  cases event with
  | deliver i => exact (h.delivered hstep).2
  | lose i =>
      obtain ⟨m, hm, rfl⟩ := Option.map_eq_some_iff.mp hstep
      obtain ⟨before, after, hflight, herase⟩ := Pool.getElem?_split hm
      exact ⟨before, m, after, [], hflight, by simp [herase], by simp⟩
  | _ => exact htakes.elim

private theorem flight_untaken {event : Event} (hstep : net.step x u event = some net')
    (hanswers : event.AnswersOnly) (htakes : ¬ event.Takes) : net'.flight = net.flight := by
  cases event with
  | write node call =>
      obtain ⟨r, -, rfl⟩ := Option.map_eq_some_iff.mp hstep
      rfl
  | gossip node target => exact hanswers.elim
  | duplicate i => exact hanswers.elim
  | deliver i => exact absurd trivial htakes
  | lose i => exact absurd trivial htakes

/-- From any nodes with any `SYNC_INIT` messages in flight: along every run everything in flight is
in range and can be delivered, for which messages of lower rank come; and a run without new gossip
and repetitions delivers only finitely often. -/
theorem exchange_ends (x : External) (u : Nat → Nat → UInt8) {net : Network}
    (hinit : ∀ m ∈ net.flight, ∃ sender root, m.2 = (SyncMessage.init root).encode sender) :
    (∀ (events : List Event) net', events.foldlM (step x u) net = some net' →
      net'.InRange ∧ ∀ i, i < net'.flight.length → ∃ net'', step x u net' (.deliver i) = some net'' ∧
        Replaced rank net'.flight net''.flight) ∧
    ∀ (nets : Nat → Network) (events : Nat → Event), nets 0 = net →
      (∀ n, step x u (nets n) (events n) = some (nets (n + 1)) ∧ (events n).AnswersOnly) →
      ∃ last, ∀ n, last ≤ n → ∀ i, events n ≠ .deliver i := by
  have hstart : net.InRange := by
    intro m hm
    obtain ⟨sender, root, hpayload⟩ := hinit m hm
    rw [hpayload]
    exact (payload_encode (m := .init root) sender trivial).1
  constructor
  · intro events net' hrun
    have hrange := inRange_of_run hstart hrun
    refine ⟨hrange, fun i hi => ?_⟩
    obtain ⟨net'', hdeliver, -, hreplaced⟩ := hrange.deliver (x := x) (u := u) hi
    exact ⟨net'', hdeliver, hreplaced⟩
  · intro nets events hzero hsteps
    have hrange (n : Nat) : (nets n).InRange := by
      induction n with
      | zero => exact hzero ▸ hstart
      | succ n ih => exact ih.step (hsteps n).1
    obtain ⟨last, hlast⟩ := @finitely_replaced _ rank (fun n => (nets n).flight)
      (fun n => (events n).Takes) (fun n htakes => (hrange n).replaced (hsteps n).1 htakes)
      fun n htakes => flight_untaken (hsteps n).1 (hsteps n).2 htakes
    refine ⟨last, fun n hn i hdeliver => hlast n hn ?_⟩
    rw [hdeliver]
    trivial

/-- Two fresh nodes, each with a `SYNC_INIT` from the other. -/
theorem exchange_ends_two :
    let x := External.reference fun _ => 0
    let net : Network := ⟨fun node => Engine.openOn x node [],
      [(2, (SyncMessage.init 5).encode 1), (1, (SyncMessage.init 7).encode 2)]⟩
    ∃ net', step x (fun _ _ => 0) net (.deliver 1) = some net' ∧
      Replaced rank net.flight net'.flight := by
  intro x net
  have hinit : ∀ m ∈ net.flight, ∃ sender root, m.2 = (SyncMessage.init root).encode sender := by
    intro m hm
    simp only [net, List.mem_cons, List.not_mem_nil, or_false] at hm
    rcases hm with rfl | rfl
    · exact ⟨1, 5, rfl⟩
    · exact ⟨2, 7, rfl⟩
  exact ((exchange_ends x (fun _ _ => 0) hinit).1 [] net rfl).2 1 (by simp [net])

end Network

end

end L3KV
