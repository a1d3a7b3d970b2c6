import L3KV.Framework.Runs
import L3KV.Sync.Handlers

/-!
# Nodes that sync

Any number of nodes write locally, gossip and handle each other's messages. The network delivers
what is in flight in any order, repeats it and loses it. Whatever happens, a node only ever holds
what some node wrote.
-/

namespace L3KV

open Framework

/-- The wall time is one that a double holds exactly. -/
def Timestamp.WallInRange (ts : Timestamp) : Prop :=
  0 ≤ ts.wallTime.toInt ∧ ts.wallTime.toInt ≤ 2 ^ 53

instance (ts : Timestamp) : Decidable ts.WallInRange := inferInstanceAs (Decidable (_ ∧ _))

structure Network where
  nodes : NodeID → Engine
  /-- The payloads that were sent, with their destinations. -/
  flight : List (NodeID × Bytes)

namespace Network

inductive Event where
  | write (node : NodeID) (call : Call)
  /-- `trigger_gossip`, with the peer it picks. -/
  | gossip (node target : NodeID)
  | deliver (i : Nat)
  | duplicate (i : Nat)
  | lose (i : Nat)

section

variable (x : External) (u : Nat → Nat → UInt8)

def init : Network := ⟨fun node => Engine.openOn x node [], []⟩

/-- One step; `none` if there is no such message, the call waits for the clock, or a handler
reads out of bounds. -/
def step (net : Network) : Event → Option Network
  | .write node call =>
      ((net.nodes node).call x u call).map fun r =>
        { net with nodes := Function.update net.nodes node r.1 }
  | .gossip node target =>
      let sent := sendSyncInit x node (net.nodes node) target
      some ⟨Function.update net.nodes node sent.1, net.flight ++ [sent.2]⟩
  | .deliver i =>
      net.flight[i]?.bind fun m =>
        (handleMessage x u m.1 (net.nodes m.1) m.2).map fun r =>
          ⟨Function.update net.nodes m.1 r.1, net.flight.eraseIdx i ++ r.2⟩
  | .duplicate i => net.flight[i]?.map fun m => { net with flight := net.flight ++ [m] }
  | .lose i => net.flight[i]?.map fun _ => { net with flight := net.flight.eraseIdx i }

/-- The key and the entry that a step writes. -/
def Event.written (net : Network) : Event → Option (Bytes × Entry)
  | .write node call => call.written x (net.nodes node)
  | _ => none

/-- A local write on a user key whose timestamp a double holds exactly and whose stored form
takes less than 4 GiB. -/
def Event.InScope (net : Network) : Event → Prop
  | .write node call => ∃ key, UserKey key ∧ call.WritesLocally key ∧
      ∀ w ∈ call.written x (net.nodes node), w.2.stamp.WallInRange ∧ w.2.value.length < 2 ^ 32
  | _ => True

end

end Network

/-- An entry of the writes in scope. -/
structure Genuine (x : External) (key : Bytes) (r : Entry) : Prop where
  user : UserKey key
  written : ∃ ts body isDelete, r = writtenEntry x.lite3 ts body isDelete
  wall : r.stamp.WallInRange
  short : r.value.length < 2 ^ 32

/-- What the handlers can rely on in a message that another handler sent, when `W` are the
entries that have been written. -/
def SyncMessage.Safe (x : External) (W : Bytes → Entry → Prop) : SyncMessage → Prop
  | .init _ => True
  | .reqNode level parent => OnLevel level parent
  | .repNode level parent hashes => OnLevel level parent ∧ hashes.length = 16
  | .reqBucket _ => True
  | .repBucket _ _ entries => ∀ entry ∈ entries, UserKey entry.1
  | .getVal key => UserKey key
  | .putVal key metaVal value => ∃ r, W key r ∧ UserKey key ∧
      metaObject x.lite3 r.stamp r.tombstone = some metaVal ∧ value = r.value

/-- Every register holds something that was written. -/
def Held (W : Bytes → Entry → Prop) (entries : Bytes → Option Entry) : Prop :=
  ∀ key r, entries key = some r → W key r

section

variable {x : External} {u : Nat → Nat → UInt8} {W : Bytes → Entry → Prop} {e : Engine}
  {entries : Bytes → Option Entry}

theorem UserKey.length_lt {key : Bytes} (h : UserKey key) : key.length < 2 ^ 16 :=
  lt_trans h.short (by decide)

theorem SyncMessage.Safe.fits (hx : x.Lawful) {m : SyncMessage} (h : m.Safe x W) : m.Fits := by
  cases m with
  | repNode level parent hashes => exact h.2
  | repBucket bucket count entries => exact fun entry hentry => (h entry hentry).length_lt
  | putVal key metaVal value =>
      obtain ⟨r, -, hkey, hmeta, -⟩ := h
      exact ⟨hkey.length_lt, hx.smallMeta _ _ _ hmeta⟩
  | _ => trivial

theorem SyncMessage.Safe.received {m : SyncMessage} (h : m.Safe x W) : m.received.Safe x W := by
  cases m with
  | repBucket bucket count entries => exact fun entry hentry => h entry (List.mem_of_mem_take hentry)
  | _ => exact h

theorem SyncMessage.Safe.mono {W W' : Bytes → Entry → Prop} (hsub : ∀ key r, W key r → W' key r)
    {m : SyncMessage} (h : m.Safe x W) : m.Safe x W' := by
  cases m with
  | putVal key metaVal value =>
      obtain ⟨r, hw, hrest⟩ := h
      exact ⟨r, hsub key r hw, hrest⟩
  | _ => exact h

/-- What a handler leaves behind and sends. -/
structure Answered (x : External) (W : Bytes → Entry → Prop) (entries entries' : Bytes → Option Entry)
    (r : Engine × List SyncMessage) : Prop where
  idle : r.1.Idle
  represents : Represents x r.1.store entries'
  held : Held W entries'
  rising : ∀ key, registerStamp Entry.stamp Timestamp.zero (entries key) ≤
    registerStamp Entry.stamp Timestamp.zero (entries' key)
  safe : ∀ reply ∈ r.2, reply.Safe x W

theorem Answered.same (hidle : e.Idle) (hrep : Represents x e.store entries)
    (hheld : Held W entries)
    {replies : List SyncMessage} (hsafe : ∀ reply ∈ replies, reply.Safe x W) :
    Answered x W entries entries (e, replies) :=
  ⟨hidle, hrep, hheld, fun _ => le_refl _, hsafe⟩

theorem Represents.userKey {st : Store} (h : Represents x st entries) {key : Bytes}
    (hfind : st.find x key ≠ none) (hplain : isMetaKey key = false) : UserKey key := by
  obtain ⟨user, huser, rfl | rfl⟩ := h.only key hfind
  · exact huser
  · have hsuffix : isMetaKey (metaKey user) = true := by
      rw [huser.metaKey_eq, isMetaKey, List.isSuffixOf_iff_suffix]
      exact List.suffix_append _ _
    simp [hsuffix] at hplain

private theorem onReqBucket_safe (hidle : e.Idle) (hrep : Represents x e.store entries)
    (bucket : UInt32) :
    (onReqBucket x e bucket).1 = e ∧ (onReqBucket x e bucket).2.Safe x W := by
  rw [onReqBucket, Engine.getBucketKeys_idle hidle]
  refine ⟨rfl, ?_⟩
  rintro ⟨key, hash⟩ hentry
  obtain ⟨hmem, hplain⟩ := List.mem_filter.mp hentry
  obtain ⟨b, hfind, -⟩ := hrep.sound.mem_bucketKeys.mp hmem
  exact hrep.userKey (by simp [hfind]) (by simpa using hplain)

private theorem onGetVal_safe (hx : x.Lawful) (hrep : Represents x e.store entries)
    (hheld : Held W entries)
    (hW : ∀ key r, W key r → Genuine x key r) {key : Bytes} (hkey : UserKey key) :
    ∀ reply ∈ onGetVal x e key, reply.Safe x W := by
  have hreg := hrep.here key hkey
  rw [onGetVal, ← hkey.metaKey_eq]
  cases hentry : entries key with
  | none =>
      rw [hentry] at hreg
      simp [get_eq_nil hreg.2]
  | some r =>
      rw [hentry] at hreg
      intro reply hreply
      split at hreply
      · simp at hreply
      · obtain rfl := List.mem_singleton.mp hreply
        have hw := hheld key r hentry
        exact ⟨r, hw, hkey, hreg.get_meta hx.zstd hx.smallMeta,
          hreg.get_value hx.zstd (hW key r hw).short⟩

private theorem onPutVal_answered (hx : x.Lawful) (hidle : e.Idle)
    (hrep : Represents x e.store entries)
    (hheld : Held W entries) (hW : ∀ key r, W key r → Genuine x key r) {key metaVal : Bytes}
    {r : Entry} (hw : W key r) (hmeta : metaObject x.lite3 r.stamp r.tombstone = some metaVal) :
    ∃ e' entries', onPutVal x u e key metaVal r.value = some e' ∧
      Answered x W entries entries' (e', []) := by
  have hgenuine := hW key r hw
  have hparse := parseMeta_reads (ReadsMeta.of_metaObject hx.lite3 hmeta)
  rw [Timestamp.throughDouble_eq hgenuine.wall.1 hgenuine.wall.2] at hparse
  have hentry : (Mutation.mk r.stamp key r.value r.tombstone).entry x.lite3 = r := by
    obtain ⟨ts, body, isDelete, rfl⟩ := hgenuine.written
    exact writtenEntry_again hx.lite3 ts ts body isDelete
  obtain ⟨result, hcall, -, hqueues, hrep'⟩ :=
    call_applyMutation hx hrep (m := ⟨r.stamp, key, r.value, r.tombstone⟩) hgenuine.user u
  rw [hentry] at hrep'
  refine ⟨result.1, _, ?_, ?_, hrep', ?_, ?_, by simp⟩
  · simp only [onPutVal, hparse, hcall, Option.map_some]
  · intro shard
    rw [hqueues]
    exact hidle shard
  · intro other r' hr'
    by_cases heq : other = key
    · subst heq
      rw [Function.update_self, mergeInto] at hr'
      split at hr'
      · cases hr'
        exact hw
      · exact hheld other r' hr'
    · rw [Function.update_of_ne heq] at hr'
      exact hheld other r' hr'
  · intro other
    by_cases heq : other = key
    · subst heq
      rw [Function.update_self, registerStamp_mergeInto]
      exact le_max_left _ _
    · rw [Function.update_of_ne heq]

private theorem answer_safe (hx : x.Lawful) (hidle : e.Idle) (hrep : Represents x e.store entries)
    (hheld : Held W entries) (hW : ∀ key r, W key r → Genuine x key r) {m : SyncMessage}
    (hm : m.Safe x W) :
    ∃ r entries', answer x u e m = some r ∧ Answered x W entries entries' r := by
  cases m with
  | init root =>
      obtain ⟨t, hroot, -, -, hrep'⟩ := hrep.getMerkleRootHash
      refine ⟨_, entries, rfl, ?_⟩
      rw [onSyncInit, hroot]
      refine ⟨hidle, hrep', hheld, fun _ => le_refl _, ?_⟩
      intro reply hreply
      split at hreply
      · simp at hreply
      · obtain rfl := List.mem_singleton.mp hreply
        exact ⟨by decide, by decide, by decide⟩
  | reqNode level parent =>
      have hlevel : OnLevel level parent := hm
      refine ⟨_, entries, by rw [answer, onReqNode, childHashes_eq e hlevel]; rfl, ?_⟩
      refine Answered.same hidle hrep hheld ?_
      intro reply hreply
      obtain rfl := List.mem_singleton.mp hreply
      exact ⟨hlevel, by simp⟩
  | repNode level parent hashes =>
      have hlevel : OnLevel level parent := hm.1
      refine ⟨_, entries, by rw [answer, onRepNode, childHashes_eq e hlevel]; rfl, ?_⟩
      refine Answered.same hidle hrep hheld ?_
      intro reply hreply
      obtain ⟨i, hi, rfl⟩ := List.mem_map.mp hreply
      have hi' : i < 16 := List.mem_range.mp (List.mem_filter.mp hi).1
      rw [drillDown]
      split
      · trivial
      · rename_i hfour
        exact hlevel.child hfour hi'
  | reqBucket bucket =>
      obtain ⟨hsame, hsafe⟩ := onReqBucket_safe (W := W) hidle hrep bucket
      refine ⟨_, entries, rfl, ?_⟩
      rw [hsame]
      refine Answered.same hidle hrep hheld ?_
      intro reply hreply
      obtain rfl := List.mem_singleton.mp hreply
      exact hsafe
  | repBucket bucket count listed =>
      refine ⟨_, entries, rfl, Answered.same hidle hrep hheld ?_⟩
      intro reply hreply
      obtain ⟨entry, hentry, rfl⟩ := List.mem_map.mp hreply
      exact hm entry (List.mem_filter.mp hentry).1
  | getVal key =>
      exact ⟨_, entries, rfl, Answered.same hidle hrep hheld (onGetVal_safe hx hrep hheld hW hm)⟩
  | putVal key metaVal value =>
      obtain ⟨r, hw, -, hmeta, rfl⟩ := hm
      obtain ⟨e', entries', hput, hanswered⟩ :=
        onPutVal_answered (u := u) hx hidle hrep hheld hW hw hmeta
      exact ⟨_, entries', by rw [answer, hput]; rfl, hanswered⟩

theorem stampOf_eq (hx : x.Lawful) {st : Store} (h : Represents x st entries) {key : Bytes}
    (hkey : UserKey key) :
    st.stampOf x key = some (registerStamp Entry.stamp Timestamp.zero (entries key)) :=
  (h.here key hkey).localTimestamp hx.lite3 hx.zstd hx.smallMeta

end

namespace Network

variable {x : External} {u : Nat → Nat → UInt8}

/-- The state of the network, when these entries have been written. -/
structure Replicated (x : External) (history : List (Bytes × Entry)) (net : Network) : Prop where
  genuine : ∀ w ∈ history, Genuine x w.1 w.2
  idle : ∀ node, (net.nodes node).Idle
  held : ∀ node, ∃ entries, Represents x (net.nodes node).store entries ∧
    Held (fun key r => (key, r) ∈ history) entries
  safe : ∀ m ∈ net.flight, ∃ sender msg, m.2 = SyncMessage.encode sender msg ∧
    msg.Safe x fun key r => (key, r) ∈ history

private theorem Replicated.update {history history' : List (Bytes × Entry)} {net : Network}
    (h : net.Replicated x history) (hgenuine : ∀ w ∈ history', Genuine x w.1 w.2)
    (hsub : ∀ w ∈ history, w ∈ history') (node : NodeID) {e : Engine} (hidle : e.Idle)
    {entries : Bytes → Option Entry} (hrep : Represents x e.store entries)
    (hheld : Held (fun key r => (key, r) ∈ history') entries) {flight : List (NodeID × Bytes)}
    (hflight : ∀ m ∈ flight, m ∈ net.flight ∨ ∃ sender msg, m.2 = SyncMessage.encode sender msg ∧
      msg.Safe x fun key r => (key, r) ∈ history') :
    (Network.mk (Function.update net.nodes node e) flight).Replicated x history' := by
  refine ⟨hgenuine, fun other => ?_, fun other => ?_, fun m hm => ?_⟩
  · by_cases heq : other = node
    · subst heq
      simpa using hidle
    · simpa [heq] using h.idle other
  · by_cases heq : other = node
    · subst heq
      exact ⟨entries, by simpa using hrep, hheld⟩
    · obtain ⟨entries', hrep', hheld'⟩ := h.held other
      exact ⟨entries', by simpa [heq] using hrep', fun key r hr => hsub _ (hheld' key r hr)⟩
  · rcases hflight m hm with hold | hnew
    · obtain ⟨sender, msg, henc, hsafe⟩ := h.safe m hold
      exact ⟨sender, msg, henc, hsafe.mono fun key r hr => hsub _ hr⟩
    · exact hnew

theorem Replicated.deliver (hx : x.Lawful) {history : List (Bytes × Entry)} {net : Network}
    (h : net.Replicated x history) {i : Nat} {m : NodeID × Bytes} (hm : net.flight[i]? = some m) :
    ∃ net', net.step x u (.deliver i) = some net' ∧ net'.Replicated x history ∧
      ∀ node key, UserKey key → ∃ ts ts', (net.nodes node).store.stampOf x key = some ts ∧
        (net'.nodes node).store.stampOf x key = some ts' ∧ ts ≤ ts' := by
  obtain ⟨sender, msg, henc, hsafe⟩ := h.safe m (List.mem_of_getElem? hm)
  obtain ⟨entries, hrep, hheld⟩ := h.held m.1
  have hgenuine : ∀ key r, (key, r) ∈ history → Genuine x key r := fun key r => h.genuine (key, r)
  obtain ⟨r, entries', hanswer, hanswered⟩ :=
    answer_safe (u := u) hx (h.idle m.1) hrep hheld hgenuine hsafe.received
  have hhandle : handleMessage x u m.1 (net.nodes m.1) m.2 =
      some (r.1, r.2.map fun reply => (sender, reply.encode m.1)) := by
    rw [henc, handleMessage_encode m.1 sender _ (hsafe.fits hx), hanswer]
    rfl
  refine ⟨_, by rw [step, hm, Option.bind_some, hhandle]; rfl, ?_, ?_⟩
  · refine h.update h.genuine (fun w hw => hw) m.1 hanswered.idle hanswered.represents
      hanswered.held ?_
    intro sent hsent
    rcases List.mem_append.mp hsent with hold | hnew
    · exact Or.inl (List.mem_of_mem_eraseIdx hold)
    · obtain ⟨reply, hreply, rfl⟩ := List.mem_map.mp hnew
      exact Or.inr ⟨m.1, reply, rfl, hanswered.safe reply hreply⟩
  · intro node key hkey
    by_cases heq : node = m.1
    · subst heq
      refine ⟨_, _, stampOf_eq hx hrep hkey, ?_, hanswered.rising key⟩
      simpa using stampOf_eq hx hanswered.represents hkey
    · obtain ⟨others, hothers, -⟩ := h.held node
      refine ⟨_, _, stampOf_eq hx hothers hkey, ?_, le_refl _⟩
      simpa [heq] using stampOf_eq hx hothers hkey

/-- A local write: what it adds to the history, and how the writer then reads the key. -/
theorem Replicated.write (hx : x.Lawful) {history : List (Bytes × Entry)} {net net' : Network}
    (h : net.Replicated x history) {node : NodeID} {call : Call}
    (hscope : (Event.write node call).InScope x net)
    (hstep : net.step x u (.write node call) = some net') :
    net'.Replicated x (history ++ ((Event.write node call).written x net).toList) ∧
      ∀ key r, (Event.write node call).written x net = some (key, r) →
        (net'.nodes node).store.stateOf x key = Entry.state (some r) := by
  obtain ⟨target, htarget, hcall, hrange⟩ := hscope
  obtain ⟨entries, hrep, hheld⟩ := h.held node
  obtain ⟨r, hr, rfl⟩ := Option.map_eq_some_iff.mp hstep
  obtain ⟨hidle, hrep'⟩ := call_local hx hrep (h.idle node) htarget hcall hr
  have hnew : ∀ w ∈ call.written x (net.nodes node), Genuine x w.1 w.2 := by
    intro w hw
    obtain ⟨hkey, hform⟩ := Call.written_eq_some hcall hw
    exact ⟨by rw [hkey]; exact htarget, hform, (hrange w hw).1, (hrange w hw).2⟩
  constructor
  · refine h.update ?_ (fun w hw => List.mem_append_left _ hw) node hidle hrep' ?_
      (fun m hm => Or.inl hm)
    · intro w hw
      rcases List.mem_append.mp hw with hold | hw
      · exact h.genuine w hold
      · exact hnew w (by simpa [Event.written] using hw)
    · intro key s hs
      cases hwritten : call.written x (net.nodes node) with
      | none =>
          rw [hwritten] at hs
          exact List.mem_append_left _ (hheld key s hs)
      | some w =>
          rw [hwritten] at hs
          by_cases heq : key = w.1
          · subst heq
            obtain rfl : w.2 = s := by simpa [withWritten] using hs
            simp [Event.written, hwritten]
          · have hold : entries key = some s := by simpa [withWritten, heq] using hs
            exact List.mem_append_left _ (hheld key s hold)
  · intro key s hs
    have hwritten : call.written x (net.nodes node) = some (key, s) := hs
    have hgenuine := hnew _ hwritten
    have hreg := hrep'.here key hgenuine.user
    rw [hwritten, withWritten, Function.update_self] at hreg
    have hstate := hreg.state_eq hx.lite3 hx.zstd hx.smallMeta (by
      intro e he
      cases he
      exact hgenuine.short)
    simpa using hstate

theorem Replicated.step (hx : x.Lawful) {history : List (Bytes × Entry)} {net net' : Network}
    (h : net.Replicated x history) {event : Event} (hscope : event.InScope x net)
    (hstep : net.step x u event = some net') :
    net'.Replicated x (history ++ (event.written x net).toList) := by
  cases event with
  | write node call => exact (h.write hx hscope hstep).1
  | gossip node target =>
      cases hstep
      obtain ⟨entries, hrep, hheld⟩ := h.held node
      obtain ⟨t, hroot, -, -, hrep'⟩ := hrep.getMerkleRootHash
      simp only [Event.written, Option.toList_none, List.append_nil, sendSyncInit, hroot]
      have hidle : ({ net.nodes node with
          store := { (net.nodes node).store with merkle := t } }).Idle := h.idle node
      refine h.update h.genuine (fun w hw => hw) node hidle hrep' hheld ?_
      intro m hm
      rcases List.mem_append.mp hm with hold | hnew
      · exact Or.inl hold
      · obtain rfl := List.mem_singleton.mp hnew
        exact Or.inr ⟨node, .init _, rfl, trivial⟩
  | deliver i =>
      obtain ⟨m, hm, -⟩ := Option.bind_eq_some_iff.mp hstep
      obtain ⟨net'', hstep', hrep, -⟩ := h.deliver (u := u) hx hm
      obtain rfl := Option.some.inj (hstep.symm.trans hstep')
      simpa [Event.written] using hrep
  | duplicate i =>
      obtain ⟨m, hm, rfl⟩ := Option.map_eq_some_iff.mp hstep
      refine ⟨by simpa [Event.written] using h.genuine, h.idle, ?_, ?_⟩
      · simpa [Event.written] using h.held
      · intro m' hm'
        have hold : m' ∈ net.flight := by
          rcases List.mem_append.mp hm' with hold | hnew
          · exact hold
          · obtain rfl := List.mem_singleton.mp hnew
            exact List.mem_of_getElem? hm
        simpa [Event.written] using h.safe m' hold
  | lose i =>
      obtain ⟨m, hm, rfl⟩ := Option.map_eq_some_iff.mp hstep
      refine ⟨by simpa [Event.written] using h.genuine, h.idle, ?_, ?_⟩
      · simpa [Event.written] using h.held
      · intro m' hm'
        simpa [Event.written] using h.safe m' (List.mem_of_mem_eraseIdx hm')

theorem init_replicated : (init x).Replicated x [] := by
  refine ⟨by simp, fun node => Engine.openOn_idle node, fun node => ?_, by simp [init]⟩
  exact ⟨fun _ => none, represents_init, fun key r hr => by cases hr⟩

def history (x : External) (u : Nat → Nat → UInt8) (events : List Event) : List (Bytes × Entry) :=
  collect (step x u) (fun net event => event.written x net) (init x) events

theorem replicated_of_run (hx : x.Lawful) {events : List Event} {net : Network}
    (hscope : EveryStep (step x u) (init x) events fun net event => event.InScope x net)
    (hrun : events.foldlM (step x u) (init x) = some net) :
    net.Replicated x (history x u events) := by
  have hinv := run_invariant
    (fun events net => events.foldlM (step x u) (init x) = some net ∧
      net.Replicated x (history x u events)) ⟨rfl, init_replicated⟩ ?_ hscope hrun
  · exact hinv.2
  · rintro events s₁ event s₂ ⟨hrun₁, hrep⟩ hin hstep
    refine ⟨foldlM_concat.mpr ⟨s₁, hrun₁, hstep⟩, ?_⟩
    rw [history, collect_concat _ hrun₁]
    exact hrep.step hx hin hstep

/-- A node holds for a key nothing but what some node's `put` or `del` wrote, with the timestamp
and the flag it wrote it with; handling a message never takes a timestamp back, and never reads
out of bounds. -/
theorem nodes_hold_written (x : External) (hx : x.Lawful) (u : Nat → Nat → UInt8)
    (events : List Event) (net : Network)
    (hscope : EveryStep (step x u) (init x) events fun net event => event.InScope x net)
    (hrun : events.foldlM (step x u) (init x) = some net) :
    (∀ node key, UserKey key → (net.nodes node).store.stateOf x key = Entry.state none ∨
      ∃ r, (key, r) ∈ history x u events ∧
        (net.nodes node).store.stateOf x key = Entry.state (some r)) ∧
    (∀ node call net' key r, (Event.write node call).InScope x net →
      net.step x u (.write node call) = some net' →
      (Event.write node call).written x net = some (key, r) →
        (net'.nodes node).store.stateOf x key = Entry.state (some r)) ∧
    ∀ i < net.flight.length, ∃ net', net.step x u (.deliver i) = some net' ∧
      ∀ node key, UserKey key → ∃ ts ts', (net.nodes node).store.stampOf x key = some ts ∧
        (net'.nodes node).store.stampOf x key = some ts' ∧ ts ≤ ts' := by
  have h := replicated_of_run hx hscope hrun
  refine ⟨?_, ?_, ?_⟩
  · intro node key hkey
    obtain ⟨entries, hrep, hheld⟩ := h.held node
    have hstate := (hrep.here key hkey).state_eq hx.lite3 hx.zstd hx.smallMeta fun r hr =>
      (h.genuine _ (hheld key r hr)).short
    cases hentry : entries key with
    | none =>
        left
        rw [hstate, hentry]
    | some r =>
        right
        exact ⟨r, hheld key r hentry, by rw [hstate, hentry]⟩
  · intro node call net' key r hin hstep hwritten
    exact (h.write hx hin hstep).2 key r hwritten
  · intro i hi
    obtain ⟨net', hstep, -, hrise⟩ := h.deliver (u := u) hx (List.getElem?_eq_getElem hi)
    exact ⟨net', hstep, hrise⟩

/-- Node 1 writes and gossips to node 2. -/
theorem nodes_hold_written_put :
    let x := External.reference fun _ => 0
    let u : Nat → Nat → UInt8 := fun _ _ => 0
    let put := Event.write 1 (.put (ascii "k") (ascii "v") adminUid [5])
    ∃ net, [put, .gossip 1 2].foldlM (step x u) (init x) = some net ∧
      ((net.nodes 1).store.stateOf x (ascii "k") = Entry.state none ∨
        ∃ r, (ascii "k", r) ∈ history x u [put, .gossip 1 2] ∧
          (net.nodes 1).store.stateOf x (ascii "k") = Entry.state (some r)) ∧
      ∃ net', net.step x u (.deliver 0) = some net' := by
  intro x u put
  have hput : ((init x).step x u put).isSome = true := by decide
  obtain ⟨net, hnet⟩ := Option.isSome_iff_exists.mp hput
  have hwritten : put.written x (init x) =
      some (ascii "k", writtenEntry x.lite3 ⟨5, 0, 1⟩ (ascii "v") false) := by decide
  have hin : put.InScope x (init x) := by
    refine ⟨ascii "k", by decide, .put _ _ _, ?_⟩
    intro w hw
    obtain rfl := Option.some.inj (hwritten.symm.trans hw)
    constructor
    · constructor <;> decide
    · decide
  have hrun : [put, .gossip 1 2].foldlM (step x u) (init x) = net.step x u (.gossip 1 2) := by
    simp [List.foldlM_cons, hnet]
  have hscope : EveryStep (step x u) (init x) [put, .gossip 1 2] fun net event =>
      event.InScope x net :=
    everyStep_cons hin fun _ _ => everyStep_cons trivial fun _ _ => everyStep_nil
  obtain ⟨hheld, -, hdeliver⟩ := nodes_hold_written x (External.reference_lawful _) u _ _ hscope hrun
  refine ⟨_, hrun, hheld 1 (ascii "k") (by decide), ?_⟩
  obtain ⟨net', hstep, -⟩ := hdeliver 0 (by simp)
  exact ⟨net', hstep⟩

private def oversizeX : External := External.runLength fun _ => 0

private def adminPut (key : String) (body : Bytes) : Event :=
  .write 1 (.put (ascii key) body adminUid [5])

private def trainingPuts : List Event :=
  [adminPut "a" [7], adminPut "b" [7], adminPut "c" [7], adminPut "d" (runOf 102400)]

private theorem step_adminPut {net : Network} {ts : Timestamp} (hidle : (net.nodes 1).Idle)
    (hclock : ((net.nodes 1).clock.now [5]).map Prod.fst = some ts) (key : String) (body : Bytes) :
    ∃ e metaVal, net.step oversizeX (fun _ _ => 0) (adminPut key body) =
        some { net with nodes := Function.update net.nodes 1 e } ∧
      e.store = (net.nodes 1).store.commitWrite oversizeX (ascii key) body false metaVal ∧
      (adminPut key body).written oversizeX net =
        some (ascii key, writtenEntry oversizeX.lite3 ts body false) := by
  obtain ⟨stamp, hnow, rfl⟩ := Option.map_eq_some_iff.mp hclock
  have hcan : ((net.nodes 1).store.credentials.checkPermission adminUid (ascii key)).canWrite := by
    rw [CredentialManager.checkPermission_admin]
    decide
  obtain ⟨r, metaVal, hcall, -, -, hstore⟩ :=
    call_put (x := oversizeX) (u := fun _ _ => 0) Lite3.reference_lawful hidle hcan hnow body
  refine ⟨r.1, metaVal, ?_, hstore, ?_⟩
  · simp only [adminPut, step, hcall, Option.map_some]
  · simp only [adminPut, Event.written, Call.written, if_pos hcan, hnow, Option.map_some]

private theorem exists_trained :
    ∃ net, trainingPuts.foldlM (step oversizeX fun _ _ => 0) (init oversizeX) = some net ∧
      (net.nodes 1).store.zstd.Trained ∧ (net.nodes 1).Idle ∧
      ((net.nodes 1).clock.now [5]).map Prod.fst = some ⟨5, 4, 1⟩ := by
  have hsplit : trainingPuts = trainingPuts.take 3 ++ [adminPut "d" (runOf 102400)] := rfl
  have hshort : ((trainingPuts.take 3).foldlM (step oversizeX fun _ _ => 0) (init oversizeX)).map
      (fun net => (decide (net.nodes 1).store.zstd.AlmostTrained,
        ((net.nodes 1).clock.now [5]).map Prod.fst,
        decide (∀ shard, (net.nodes 1).queues shard = []))) =
      some (true, some ⟨5, 3, 1⟩, true) := by decide
  have htrain : (trainingPuts.foldlM (step oversizeX fun _ _ => 0) (init oversizeX)).map (fun net =>
      (((net.nodes 1).clock.now [5]).map Prod.fst,
        decide (∀ shard, (net.nodes 1).queues shard = []))) = some (some ⟨5, 4, 1⟩, true) := by
    decide +kernel
  obtain ⟨net₃, hrun₃, hfacts₃⟩ := Option.map_eq_some_iff.mp hshort
  obtain ⟨net₄, hrun₄, hfacts₄⟩ := Option.map_eq_some_iff.mp htrain
  obtain ⟨halmost, hclock₃, hidle₃⟩ : (net₃.nodes 1).store.zstd.AlmostTrained ∧
      ((net₃.nodes 1).clock.now [5]).map Prod.fst = some ⟨5, 3, 1⟩ ∧ (net₃.nodes 1).Idle := by
    simpa [Engine.Idle] using hfacts₃
  obtain ⟨hclock₄, hidle₄⟩ : ((net₄.nodes 1).clock.now [5]).map Prod.fst = some ⟨5, 4, 1⟩ ∧
      (net₄.nodes 1).Idle := by
    simpa [Engine.Idle] using hfacts₄
  refine ⟨net₄, hrun₄, ?_, hidle₄, hclock₄⟩
  obtain ⟨e, metaVal, hput, hstore, -⟩ := step_adminPut hidle₃ hclock₃ "d" (runOf 102400)
  rw [hsplit] at hrun₄
  obtain ⟨net', hrun', hstep⟩ := foldlM_concat.mp hrun₄
  cases hrun₃.symm.trans hrun'
  cases hput.symm.trans hstep
  simp only [Function.update_self, hstore]
  exact (commitWrite_runOf (by decide) (by decide) (Or.inr ⟨by decide, halmost⟩) _ _).2

/-- Three short values and one of a hundred kilobytes, with which the dictionary is trained; then one
of `2 ^ 32` bytes: the node that put it holds another value. -/
theorem nodes_hold_written_oversize :
    let x := External.runLength fun _ => 0
    let u : Nat → Nat → UInt8 := fun _ _ => 0
    let put (key : String) (body : Bytes) := Event.write 1 (.put (ascii key) body adminUid [5])
    let events := [put "a" [7], put "b" [7], put "c" [7], put "d" (runOf 102400),
      put "v" (runOf (2 ^ 32))]
    ∃ net, events.foldlM (step x u) (init x) = some net ∧
      (history x u events).map Prod.fst =
        [ascii "a", ascii "b", ascii "c", ascii "d", ascii "v"] ∧
      (∀ w ∈ history x u events, w.2.stamp.WallInRange) ∧
      (net.nodes 1).store.stateOf x (ascii "v") ≠ Entry.state none ∧
      ∀ r, (ascii "v", r) ∈ history x u events →
        (net.nodes 1).store.stateOf x (ascii "v") ≠ Entry.state (some r) := by
  intro x u put events
  obtain ⟨net, hrun, htrained, hidle, hclock⟩ := exists_trained
  have hhistory : (history x u trainingPuts).map Prod.fst =
        [ascii "a", ascii "b", ascii "c", ascii "d"] ∧
      ∀ w ∈ history x u trainingPuts, w.2.stamp.WallInRange := by decide +kernel
  obtain ⟨e, metaVal, hstep, hstore, hwritten⟩ := step_adminPut hidle hclock "v" (runOf (2 ^ 32))
  have hevents : events = trainingPuts ++ [adminPut "v" (runOf (2 ^ 32))] := rfl
  have hall : history x u events = history x u trainingPuts ++
      [(ascii "v", writtenEntry x.lite3 ⟨5, 4, 1⟩ (runOf (2 ^ 32)) false)] := by
    rw [hevents, history]
    exact (collect_concat _ hrun _).trans
      (congrArg (fun w => history x u trainingPuts ++ Option.toList w) hwritten)
  have hget : (e.store.stateOf x (ascii "v")).1 = frameOf (2 ^ 32) := by
    rw [Store.stateOf, hstore]
    exact get_runOf (le_refl _) (by decide) (by decide) htrained _ _
  refine ⟨{ net with nodes := Function.update net.nodes 1 e }, ?_, ?_, ?_, ?_, ?_⟩
  · rw [hevents]
    exact foldlM_concat.mpr ⟨net, hrun, hstep⟩
  · rw [hall, List.map_append, hhistory.1]
    rfl
  · rw [hall]
    intro w hw
    rcases List.mem_append.mp hw with hw | hw
    · exact hhistory.2 w hw
    · obtain rfl := List.mem_singleton.mp hw
      have hform : (writtenEntry x.lite3 ⟨5, 4, 1⟩ (runOf (2 ^ 32)) false).stamp = ⟨5, 4, 1⟩ := rfl
      rw [hform]
      decide
  · simp only [Function.update_self]
    intro heq
    have hnil := congrArg Prod.fst heq
    rw [hget] at hnil
    cases hnil
  · simp only [Function.update_self]
    intro s hs heq
    rw [hall, List.mem_append] at hs
    rcases hs with hs | hs
    · have hkey : ascii "v" ∈ (history x u trainingPuts).map Prod.fst :=
        List.mem_map_of_mem (f := Prod.fst) hs
      rw [hhistory.1] at hkey
      revert hkey
      decide
    · obtain ⟨-, rfl⟩ := Prod.mk.inj (List.mem_singleton.mp hs)
      have hvalue := congrArg Prod.fst heq
      rw [hget] at hvalue
      have hform : (Entry.state (some (writtenEntry x.lite3 ⟨5, 4, 1⟩ (runOf (2 ^ 32)) false))).1 =
          runOf (2 ^ 32) := storedForm_runOf _ (by decide)
      rw [hform] at hvalue
      exact runOf_ne_frameOf (le_refl _) _ hvalue.symm

end Network

end L3KV
