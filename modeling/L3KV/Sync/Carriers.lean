import L3KV.Sync.PullComplete

/-!
# Who carries the newest entry

Of the entries written under a key one has the greatest timestamp. A node that carries it keeps it
as long as the key is not written again, whatever else is written, delivered, repeated or lost. The
inner levels of a tree are those of the leaves at the time the root was last computed.
-/

namespace L3KV

open Framework

/-- The entry is the one with the greatest timestamp that was written under the key. -/
structure Newest (history : List (Bytes × Entry)) (key : Bytes) (w : Entry) : Prop where
  written : (key, w) ∈ history
  positive : Timestamp.zero < w.stamp
  newest : ∀ r, (key, r) ∈ history → r ≠ w → r.stamp < w.stamp

def Engine.Carries (x : External) (key : Bytes) (w : Entry) (e : Engine) : Prop :=
  e.store.stateOf x key = Entry.state (some w)

section

variable {x : External} {u : Nat → Nat → UInt8} {history : List (Bytes × Entry)} {key : Bytes}
  {w : Entry} {e : Engine} {entries : Bytes → Option Entry}

namespace Newest

theorem stamp_lt (h : Newest history key w)
    (hheld : Held (fun key r => (key, r) ∈ history) entries) (hne : entries key ≠ some w) :
    registerStamp Entry.stamp Timestamp.zero (entries key) < w.stamp := by
  cases hentry : entries key with
  | none => exact h.positive
  | some r =>
      have hother : r ≠ w := fun heq => hne (by rw [hentry, heq])
      exact h.newest r (hheld key r hentry) hother

theorem append (h : Newest history key w) {more : List (Bytes × Entry)}
    (hmore : ∀ v ∈ more, v.1 ≠ key) : Newest (history ++ more) key w where
  written := List.mem_append_left _ h.written
  positive := h.positive
  newest r hr hne := by
    rcases List.mem_append.mp hr with hr | hr
    · exact h.newest r hr hne
    · exact absurd rfl (hmore _ hr)

end Newest

theorem Represents.stateOf_eq (hx : x.Lawful) (hrep : Represents x e.store entries)
    (hheld : Held (fun key r => (key, r) ∈ history) entries)
    (hgenuine : ∀ v ∈ history, Genuine x v.1 v.2) (huser : UserKey key) :
    e.store.stateOf x key = Entry.state (entries key) :=
  (hrep.here key huser).state_eq hx.lite3 hx.zstd hx.smallMeta fun r hr =>
    (hgenuine _ (hheld key r hr)).short

theorem Represents.carries (hx : x.Lawful) (hrep : Represents x e.store entries)
    (hkey : Genuine x key w) (hentry : entries key = some w) : e.Carries x key w := by
  have hreg := hrep.here key hkey.user
  rw [hentry] at hreg
  refine hreg.state_eq hx.lite3 hx.zstd hx.smallMeta fun r hr => ?_
  cases hr
  exact hkey.short

theorem Newest.carries_iff (h : Newest history key w) (hx : x.Lawful)
    (hrep : Represents x e.store entries) (hheld : Held (fun key r => (key, r) ∈ history) entries)
    (hgenuine : ∀ v ∈ history, Genuine x v.1 v.2) : e.Carries x key w ↔ entries key = some w := by
  have hkey := hgenuine _ h.written
  refine ⟨fun hcarries => ?_, hrep.carries hx hkey⟩
  by_contra hne
  rw [Engine.Carries, hrep.stateOf_eq hx hheld hgenuine hkey.user] at hcarries
  have hstamp := congrArg (fun s => s.2.1) hcarries
  rw [Entry.state_stamp, Entry.state_stamp] at hstamp
  exact (h.stamp_lt hheld hne).ne (Option.some.inj hstamp)

private theorem answer_frozen (hx : x.Lawful) (hidle : e.Idle) (hrep : Represents x e.store entries)
    {m : SyncMessage} (hm : m.Safe x fun key r => (key, r) ∈ history)
    (hgenuine : ∀ v ∈ history, Genuine x v.1 v.2) {r : Engine × List SyncMessage}
    (hr : answer x u e m = some r) {leaves : Fin 65536 → UInt64}
    (hfrozen : e.store.merkle.Frozen x.xxh3 leaves) :
    r.1.store.merkle.Frozen x.xxh3 leaves ∨
      r.1.store.merkle.Frozen x.xxh3 e.store.merkle.leaves := by
  cases m with
  | init root =>
      cases hr
      obtain ⟨t, hroot, hsettled, hleaves, -⟩ := hrep.getMerkleRootHash
      right
      rw [onSyncInit, hroot, ← hleaves]
      exact hsettled.frozen
  | reqNode level parent =>
      obtain ⟨_, -, rfl⟩ := Option.map_eq_some_iff.mp hr
      exact Or.inl hfrozen
  | repNode level parent hashes =>
      obtain ⟨_, -, rfl⟩ := Option.map_eq_some_iff.mp hr
      exact Or.inl hfrozen
  | reqBucket bucket =>
      cases hr
      rw [onReqBucket, Engine.getBucketKeys_idle hidle]
      exact Or.inl hfrozen
  | repBucket bucket count listed =>
      cases hr
      exact Or.inl hfrozen
  | getVal key =>
      cases hr
      exact Or.inl hfrozen
  | putVal key metaVal value =>
      obtain ⟨r₀, hw, -⟩ := hm
      obtain ⟨e', he', rfl⟩ := Option.map_eq_some_iff.mp hr
      obtain ⟨r', hcall, rfl⟩ := Option.map_eq_some_iff.mp he'
      exact Or.inl (applyMutation_frozen hx hrep (hgenuine _ hw).user hfrozen hcall)

namespace Network

variable {net net' : Network} {event : Event} {node : NodeID}

private theorem Replicated.deliver_cases (hx : x.Lawful) (h : net.Replicated x history) {i : Nat}
    (hstep : net.step x u (.deliver i) = some net') :
    ∃ dest sender msg r, net.flight[i]? = some (dest, SyncMessage.encode sender msg) ∧
      msg.Safe x (fun key r => (key, r) ∈ history) ∧
      answer x u (net.nodes dest) msg.received = some r ∧
      net'.nodes = Function.update net.nodes dest r.1 ∧
      net'.flight = net.flight.eraseIdx i ++
        r.2.map fun reply => (sender, reply.encode dest) := by
  obtain ⟨m, hm, hhandle⟩ := Option.bind_eq_some_iff.mp hstep
  obtain ⟨sent, hsent, rfl⟩ := Option.map_eq_some_iff.mp hhandle
  obtain ⟨sender, msg, henc, hsafe⟩ := h.safe m (List.mem_of_getElem? hm)
  rw [henc, handleMessage_encode m.1 sender _ (hsafe.fits hx)] at hsent
  obtain ⟨r, hr, rfl⟩ := Option.map_eq_some_iff.mp hsent
  exact ⟨m.1, sender, msg, r, by rw [hm, ← henc], hsafe, hr, rfl, rfl⟩

private theorem Replicated.frozen_step (hx : x.Lawful) (h : net.Replicated x history)
    (hscope : event.InScope x net) (hstep : net.step x u event = some net')
    {leaves : Fin 65536 → UInt64} (hfrozen : (net.nodes node).store.merkle.Frozen x.xxh3 leaves) :
    (net'.nodes node).store.merkle.Frozen x.xxh3 leaves ∨
      (net'.nodes node).store.merkle.Frozen x.xxh3 (net.nodes node).store.merkle.leaves := by
  obtain ⟨entries, hrep, -⟩ := h.held node
  cases event with
  | write other call =>
      obtain ⟨r, hr, rfl⟩ := Option.map_eq_some_iff.mp hstep
      left
      by_cases heq : node = other
      · subst heq
        obtain ⟨target, -, hcall, -⟩ := hscope
        simp only [Function.update_self]
        obtain ⟨-, ⟨-, hstore⟩ | ⟨_, _, _, _, -, -, hstore⟩⟩ :=
          call_writes hx.lite3 (h.idle node) hcall hr
        · rw [hstore]
          exact hfrozen
        · rw [hstore]
          exact hfrozen.commitWrite _ _ _ _
      · simpa [heq] using hfrozen
  | gossip other target =>
      cases hstep
      by_cases heq : node = other
      · subst heq
        right
        obtain ⟨t, hroot, hsettled, hleaves, -⟩ := hrep.getMerkleRootHash
        simp only [Function.update_self, sendSyncInit, hroot]
        rw [← hleaves]
        exact hsettled.frozen
      · left
        simpa [heq] using hfrozen
  | deliver i =>
      obtain ⟨dest, sender, msg, r, -, hsafe, hanswer, hnodes, -⟩ := h.deliver_cases hx hstep
      rw [hnodes]
      by_cases heq : node = dest
      · subst heq
        rw [Function.update_self]
        exact answer_frozen hx (h.idle node) hrep hsafe.received h.genuine hanswer hfrozen
      · rw [Function.update_of_ne heq]
        exact Or.inl hfrozen
  | duplicate i =>
      obtain ⟨_, -, rfl⟩ := Option.map_eq_some_iff.mp hstep
      exact Or.inl hfrozen
  | lose i =>
      obtain ⟨_, -, rfl⟩ := Option.map_eq_some_iff.mp hstep
      exact Or.inl hfrozen

/-- The inner levels are still those of an engine with these properties, if the present one has
them. -/
theorem Replicated.settled_step {P Q : Engine → Prop} (hx : x.Lawful) (h : net.Replicated x history)
    (hscope : event.InScope x net) (hstep : net.step x u event = some net')
    (hP : P (net.nodes node)) (hQ : Q (net.nodes node))
    (hsettled : ∃ e, P e ∧ Q e ∧
      (net.nodes node).store.merkle.Frozen x.xxh3 e.store.merkle.leaves) :
    ∃ e, P e ∧ Q e ∧ (net'.nodes node).store.merkle.Frozen x.xxh3 e.store.merkle.leaves := by
  obtain ⟨e, hPe, hQe, hfrozen⟩ := hsettled
  rcases h.frozen_step hx hscope hstep hfrozen with hsame | hnow
  · exact ⟨e, hPe, hQe, hsame⟩
  · exact ⟨net.nodes node, hP, hQ, hnow⟩

theorem Replicated.carries_step (hx : x.Lawful) (h : net.Replicated x history)
    (hnew : Newest history key w) (hscope : event.InScope x net)
    (hspares : ∀ v ∈ event.written x net, v.1 ≠ key) (hstep : net.step x u event = some net')
    (hcarries : (net.nodes node).Carries x key w) : (net'.nodes node).Carries x key w := by
  obtain ⟨entries, hrep, hheld⟩ := h.held node
  have huser : UserKey key := (h.genuine _ hnew.written).user
  have hentry := (hnew.carries_iff hx hrep hheld h.genuine).mp hcarries
  cases event with
  | write other call =>
      obtain ⟨r, hr, rfl⟩ := Option.map_eq_some_iff.mp hstep
      by_cases heq : node = other
      · subst heq
        obtain ⟨target, htarget, hcall, -⟩ := hscope
        obtain ⟨-, hrep'⟩ := call_local hx hrep (h.idle node) htarget hcall hr
        have hsame : withWritten entries (call.written x (net.nodes node)) key = some w := by
          cases hwritten : call.written x (net.nodes node) with
          | none => exact hentry
          | some v => exact (Function.update_of_ne (hspares v hwritten).symm _ _).trans hentry
        simp only [Function.update_self]
        exact hrep'.carries hx (h.genuine _ hnew.written) hsame
      · simpa [heq] using hcarries
  | gossip other target =>
      cases hstep
      by_cases heq : node = other
      · subst heq
        obtain ⟨t, hroot, -⟩ := hrep.getMerkleRootHash
        simp only [Function.update_self, sendSyncInit, hroot]
        exact hcarries
      · simpa [heq] using hcarries
  | deliver i =>
      obtain ⟨m, hm, -⟩ := Option.bind_eq_some_iff.mp hstep
      obtain ⟨net'', hstep', hrep', hrise⟩ := h.deliver (u := u) hx hm
      cases hstep.symm.trans hstep'
      obtain ⟨entries', hrep'', hheld'⟩ := hrep'.held node
      refine (hnew.carries_iff hx hrep'' hheld' h.genuine).mpr ?_
      by_contra hne
      obtain ⟨ts, ts', hts, hts', hle⟩ := hrise node key huser
      rw [stampOf_eq hx hrep huser, hentry] at hts
      rw [stampOf_eq hx hrep'' huser] at hts'
      cases hts
      cases hts'
      exact not_lt_of_ge hle (hnew.stamp_lt hheld' hne)
  | duplicate i =>
      obtain ⟨_, -, rfl⟩ := Option.map_eq_some_iff.mp hstep
      exact hcarries
  | lose i =>
      obtain ⟨_, -, rfl⟩ := Option.map_eq_some_iff.mp hstep
      exact hcarries

end Network

end

end L3KV
