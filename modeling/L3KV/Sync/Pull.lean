import L3KV.Engine.Plain
import L3KV.Sync.Exchange

/-!
# One pull

A node that receives `SYNC_INIT` pulls from the sender what the drill-down finds. As long as nothing
is compressed its registers after the keys `S` were taken are known, and so are its leaves: the
whole exchange is an instance of pulling through a tree.
-/

namespace L3KV

open Framework

/-- An entry as it arrives at another node. -/
def Entry.sent (r : Entry) : Entry := { r with stamp := r.stamp.throughDouble }

/-- The registers of the receiving node when these keys were taken. -/
def taken (theirs mine : Bytes → Option Entry) (S : Finset Bytes) (key : Bytes) : Option Entry :=
  if key ∈ S then (theirs key).map Entry.sent else mine key

/-- The hash `on_rep_bucket` takes of a value: an empty one counts as none. -/
def comparedHash (x : External) (r : Option Entry) : UInt64 :=
  r.elim 0 fun r => if r.value = [] then 0 else x.xxh3 r.value

def listedKeys (x : External) (st : Store) (bucket : Nat) : List Bytes :=
  let all := st.bucketKeys x (UInt32.ofNat bucket)
  ((all.filter fun entry => !isMetaKey entry.1).take (UInt32.ofNat all.length).toNat).map Prod.fst

/-- In whatever order messages are delivered, no dictionary is trained at the node. -/
def Network.StaysPlain (x : External) (u : Nat → Nat → UInt8) (node : NodeID) (net : Network) : Prop :=
  ∀ events net', EveryStep (step x u) net events (Delivers fun _ => True) →
    events.foldlM (step x u) net = some net' → (net'.nodes node).store.zstd.dict = none

section

variable {x : External} {u : Nat → Nat → UInt8}

theorem Network.StaysPlain.dict {node : NodeID} {net : Network} (h : net.StaysPlain x u node) :
    (net.nodes node).store.zstd.dict = none :=
  h [] net everyStep_nil rfl

theorem Network.StaysPlain.step {node : NodeID} {net net' : Network} (h : net.StaysPlain x u node)
    {i : Nat} (hstep : net.step x u (.deliver i) = some net') : net'.StaysPlain x u node := by
  intro events net'' hevents hrun
  refine h (.deliver i :: events) net'' (everyStep_cons (fun _ _ => trivial) ?_) ?_
  · intro net₁ hnet₁
    cases hstep.symm.trans hnet₁
    exact hevents
  · rw [List.foldlM_cons, hstep]
    exact hrun

theorem Network.staysPlain_of_untrained
    (h : ∀ samples capacity, x.zstd.trainFromBuffer samples capacity = none) {net : Network}
    (hplain : ∀ node, (net.nodes node).store.zstd.dict = none) (node : NodeID) :
    net.StaysPlain x u node := by
  intro events net' hevents hrun
  refine run_invariant (fun _ net => ∀ node, (net.nodes node).store.zstd.dict = none) hplain ?_
    hevents hrun node
  intro _ net₁ event net₂ hplain hdelivers hstep other
  cases event with
  | deliver i =>
      obtain ⟨m, -, hhandle⟩ := Option.bind_eq_some_iff.mp hstep
      obtain ⟨r, hr, rfl⟩ := Option.map_eq_some_iff.mp hhandle
      by_cases heq : other = m.1
      · subst heq
        simp only [Function.update_self]
        exact handleMessage_keeps (Store.keeps_untrained h) (fun _ _ hst => hst) (hplain m.1) hr
      · simpa [heq] using hplain other
  | write _ _ => exact hdelivers.elim
  | gossip _ _ => exact hdelivers.elim
  | duplicate _ => exact hdelivers.elim
  | lose _ => exact hdelivers.elim

theorem MerkleTree.Frozen.applyDelta {xxh3 : Bytes → UInt64} {leaves : Fin 65536 → UInt64}
    {t : MerkleTree} (h : t.Frozen xxh3 leaves) (key : Bytes) (delta : UInt64) :
    (t.applyDelta xxh3 key delta).Frozen xxh3 leaves :=
  ⟨h.l3, h.l2, h.l1⟩

theorem MerkleTree.Frozen.commitWrite {leaves : Fin 65536 → UInt64} {st : Store}
    (h : st.merkle.Frozen x.xxh3 leaves) (key body : Bytes) (isDelete : Bool) (metaVal : Bytes) :
    (st.commitWrite x key body isDelete metaVal).merkle.Frozen x.xxh3 leaves := by
  cases isDelete with
  | true => exact (h.applyDelta _ _).applyDelta _ _
  | false => exact (h.applyDelta _ _).applyDelta _ _

/-- What `on_req_bucket` sends about a bucket. -/
def bucketListing (x : External) (st : Store) (bucket : Nat) : SyncMessage :=
  let all := st.bucketKeys x (UInt32.ofNat bucket)
  .repBucket (UInt32.ofNat bucket) (UInt32.ofNat all.length)
    (all.filter fun entry => !isMetaKey entry.1)

private theorem listedKeys_nodup {st : Store} (h : st.Sound x) (bucket : Nat) :
    (listedKeys x st bucket).Nodup := by
  refine (h.bucketKeys_nodup (UInt32.ofNat bucket)).sublist (List.Sublist.map _ ?_)
  exact (List.take_sublist _ _).trans List.filter_sublist

private theorem mem_listedKeys {st : Store} (h : st.Sound x) {bucket : Nat} {key : Bytes}
    (hkey : key ∈ listedKeys x st bucket) :
    st.find x key ≠ none ∧ (bucketOf x.xxh3 key : Nat) = bucket % 2 ^ 32 ∧ isMetaKey key = false := by
  obtain ⟨⟨_, hash⟩, hentry, rfl⟩ := List.mem_map.mp hkey
  obtain ⟨hmem, hplain⟩ := List.mem_filter.mp (List.mem_of_mem_take hentry)
  obtain ⟨b, hfind, hbucket, -⟩ := h.mem_bucketKeys.mp hmem
  refine ⟨by simp [hfind], ?_, by simpa using hplain⟩
  rw [hbucket, UInt32.toNat_ofNat']

end

/-- The sending node after it computed its root. -/
structure Sender (x : External) (e : Engine) (theirs : Bytes → Option Entry) : Prop where
  idle : e.Idle
  represents : Represents x e.store theirs
  written : AllWritten x.lite3 theirs
  settled : e.store.merkle.Settled x.xxh3
  plain : e.store.zstd.dict = none

/-- The exchange as pulling through a tree. The leaves of the receiving node are a sum over the
user keys of either node. -/
def pull (x : External) {st : Store} (hsound : st.Sound x) (theirs mine : Bytes → Option Entry)
    (leaves : Fin 65536 → UInt64) (users : Finset Bytes) : TreePull Bytes :=
  hashPull x.xxh3 st.merkle.leaves leaves (bucketOf x.xxh3)
    (fun S b => xorSum users fun key => contribution x b key (taken theirs mine S key))
    (fun b => if b < 65536 then listedKeys x st b else [])
    (fun b => by
      split
      · exact listedKeys_nodup hsound b
      · exact List.nodup_nil)
    (fun {b key} hkey => by
      split at hkey
      · rename_i hlt
        rw [(mem_listedKeys hsound hkey).2.1]
        exact Nat.mod_eq_of_lt (lt_trans hlt (by decide))
      · cases hkey)
    (fun S key => comparedHash x (taken theirs mine S key) ≠ valueHash x (theirs key))
    (fun {S key} hkey => by simp [taken, hkey])
    (fun key => (theirs key).any fun r =>
      registerStamp Entry.stamp Timestamp.zero (mine key) < r.stamp.throughDouble)

def pullWire (x : External) (a b : NodeID) (st : Store) : TreePull.Msg Bytes → NodeID × Bytes :=
  wire x.xxh3 a b st.merkle.leaves (bucketListing x st) .getVal fun key =>
    .putVal key (st.get x (key ++ ascii ":meta") adminUid) (st.get x key adminUid)

/-- The network when the keys `S` were taken. -/
structure Pulling (x : External) (u : Nat → Nat → UInt8) (a b : NodeID) (e : Engine)
    (theirs mine : Bytes → Option Entry) (leaves : Fin 65536 → UInt64) (S : Finset Bytes)
    (net : Network) : Prop where
  sender : net.nodes a = e
  idle : (net.nodes b).Idle
  represents : Represents x (net.nodes b).store (taken theirs mine S)
  frozen : (net.nodes b).store.merkle.Frozen x.xxh3 leaves
  plain : net.StaysPlain x u b

section

variable {x : External} {u : Nat → Nat → UInt8} {a b : NodeID} {e : Engine}
  {theirs mine : Bytes → Option Entry} {leaves : Fin 65536 → UInt64} {users : Finset Bytes}
  {S : Finset Bytes} {net net' : Network}

private theorem Pulling.of_sender (h : Pulling x u a b e theirs mine leaves S net) {i : Nat}
    (hstep : net.step x u (.deliver i) = some net')
    (hnodes : net'.nodes = Function.update net.nodes a e) :
    Pulling x u a b e theirs mine leaves S net' := by
  have hsame : net'.nodes = net.nodes := by
    rw [hnodes, ← h.sender, Function.update_eq_self]
  refine ⟨?_, ?_, ?_, ?_, h.plain.step hstep⟩
  · rw [hsame, h.sender]
  · rw [hsame]
    exact h.idle
  · rw [hsame]
    exact h.represents
  · rw [hsame]
    exact h.frozen

private theorem Pulling.of_receiver (hab : a ≠ b) (h : Pulling x u a b e theirs mine leaves S net)
    {i : Nat}
    (hstep : net.step x u (.deliver i) = some net') {e' : Engine}
    (hnodes : net'.nodes = Function.update net.nodes b e') {S' : Finset Bytes} (hidle : e'.Idle)
    (hrep : Represents x e'.store (taken theirs mine S'))
    (hfrozen : e'.store.merkle.Frozen x.xxh3 leaves) :
    Pulling x u a b e theirs mine leaves S' net' := by
  have hnode : net'.nodes b = e' := by rw [hnodes, Function.update_self]
  refine ⟨?_, ?_, ?_, ?_, h.plain.step hstep⟩
  · rw [hnodes, Function.update_of_ne hab, h.sender]
  · rw [hnode]
    exact hidle
  · rw [hnode]
    exact hrep
  · rw [hnode]
    exact hfrozen

theorem handle_reqBucket (hidle : e.Idle) (i : Nat) :
    handleMessage x u a e (pullWire x a b e.store (.reqBucket i)).2 =
      some (e, [pullWire x a b e.store (.repBucket i)]) := by
  have hfits : (SyncMessage.reqBucket (UInt32.ofNat i)).Fits := trivial
  rw [pullWire, wire, handleMessage_encode a b e hfits]
  simp only [SyncMessage.received, answer, onReqBucket, Engine.getBucketKeys_idle hidle,
    Option.map_some, List.map_cons, List.map_nil, wire, bucketListing]

private theorem handle_repBucket {r : Engine} {entries : Bytes → Option Entry}
    (hsender : Sender x e theirs) (hrep : Represents x r.store entries)
    (hplain : r.store.zstd.dict = none) (i : Nat) :
    handleMessage x u b r (pullWire x a b e.store (.repBucket i)).2 =
      some (r, (((listedKeys x e.store i).filter fun key =>
        decide (comparedHash x (entries key) ≠ valueHash x (theirs key))).map .getVal).map
          (pullWire x a b e.store)) := by
  have hlisted (entry : Bytes × UInt64) (hentry : entry ∈
      (e.store.bucketKeys x (UInt32.ofNat i)).filter fun entry => !isMetaKey entry.1) :
      UserKey entry.1 ∧ entry.2 = valueHash x (theirs entry.1) := by
    obtain ⟨hmem, hname⟩ := List.mem_filter.mp hentry
    obtain ⟨blob, hfind, -, hhash⟩ := hsender.represents.sound.mem_bucketKeys.mp hmem
    have hthere : e.store.find x entry.1 ≠ none := by simp [hfind]
    have huser := hsender.represents.userKey hthere (by simpa using hname)
    refine ⟨huser, ?_⟩
    rw [← ((hsender.represents.here _ huser).keyHash hsender.plain).1, hhash]
    simp [Store.keyHash, hfind, Store.hashOf]
  have hlocal (key : Bytes) (huser : UserKey key) :
      localHash x r key = comparedHash x (entries key) := by
    rw [localHash, (hrep.here key huser).get_plain hplain, comparedHash]
    cases entries key with
    | none => rfl
    | some r => simp [List.length_pos_iff]
  have hfits : (bucketListing x e.store i).Fits :=
    fun entry hentry => (hlisted entry hentry).1.length_lt
  rw [pullWire, wire, handleMessage_encode b a r hfits]
  simp only [bucketListing, SyncMessage.received, answer, onRepBucket, Option.map_some, listedKeys,
    List.map_map, List.filter_map]
  have hfilter : ∀ l : List (Bytes × UInt64), (∀ entry ∈ l, UserKey entry.1 ∧
      entry.2 = valueHash x (theirs entry.1)) →
      l.filter (fun entry => decide (localHash x r entry.1 ≠ entry.2)) =
        l.filter ((fun key => decide (comparedHash x (entries key) ≠ valueHash x (theirs key))) ∘
          Prod.fst) := by
    intro l hl
    refine List.filter_congr fun entry hentry => ?_
    obtain ⟨huser, hhash⟩ := hl entry hentry
    simp only [Function.comp_apply, hlocal entry.1 huser, hhash]
  rw [hfilter _ fun entry hentry => hlisted entry (List.mem_of_mem_take hentry)]
  rfl

private theorem handle_getVal (hx : x.Lawful) (hsender : Sender x e theirs) {key : Bytes}
    {r : Entry}
    (hkey : UserKey key) (hr : theirs key = some r) :
    handleMessage x u a e (pullWire x a b e.store (.getVal key)).2 =
      some (e, [pullWire x a b e.store (.putVal key)]) := by
  have hreg := hsender.represents.here key hkey
  rw [hr] at hreg
  have hmeta := hreg.get_meta hx.zstd hx.smallMeta
  rw [hkey.metaKey_eq] at hmeta
  have hne : (e.store.get x (key ++ ascii ":meta") adminUid).length ≠ 0 := by
    simpa using (ReadsMeta.of_metaObject hx.lite3 hmeta).ne_nil
  have hfits : (SyncMessage.getVal key).Fits := trivial
  rw [pullWire, wire, handleMessage_encode a b e hfits]
  simp only [SyncMessage.received, answer, onGetVal, if_neg hne, Option.map_some, List.map_cons,
    List.map_nil, wire]

private theorem taken_mergeInto {key : Bytes} {r : Entry} (hr : theirs key = some r) :
    Function.update (taken theirs mine S) key
        (mergeInto Entry.stamp Timestamp.zero (taken theirs mine S key) r.sent) =
      taken theirs mine
        (if registerStamp Entry.stamp Timestamp.zero (mine key) < r.stamp.throughDouble then
          insert key S else S) := by
  funext other
  by_cases heq : other = key
  · subst heq
    rw [Function.update_self, mergeInto]
    by_cases hS : other ∈ S
    · have hold : taken theirs mine S other = some r.sent := by simp [taken, hS, hr]
      have hsame : ¬ registerStamp Entry.stamp Timestamp.zero (some r.sent) < r.sent.stamp :=
        lt_irrefl _
      rw [hold, if_neg hsame]
      split <;> simp [taken, hS, hr]
    · have hold : taken theirs mine S other = mine other := by simp [taken, hS]
      rw [hold]
      by_cases hnewer : registerStamp Entry.stamp Timestamp.zero (mine other) < r.stamp.throughDouble
      · have hnewer' : registerStamp Entry.stamp Timestamp.zero (mine other) < r.sent.stamp := hnewer
        rw [if_pos hnewer', if_pos hnewer]
        simp [taken, hr]
      · have hnewer' : ¬ registerStamp Entry.stamp Timestamp.zero (mine other) < r.sent.stamp :=
          hnewer
        rw [if_neg hnewer', if_neg hnewer, hold]
  · rw [Function.update_of_ne heq]
    split <;> simp [taken, heq]

theorem applyMutation_frozen (hx : x.Lawful) {entries : Bytes → Option Entry}
    (hrep : Represents x e.store entries) {m : Mutation} (hkey : UserKey m.key)
    (hfrozen : e.store.merkle.Frozen x.xxh3 leaves) {r : Engine × CallResult}
    (hr : e.call x u (.applyMutation m) = some r) : r.1.store.merkle.Frozen x.xxh3 leaves := by
  by_cases hnewer : registerStamp Entry.stamp Timestamp.zero (entries m.key) < m.timestamp
  · obtain ⟨metaVal, wal, -, hcall⟩ := call_applyMutation_newer hx hrep hkey u hnewer
    rw [hr] at hcall
    rw [Option.some.inj hcall]
    exact hfrozen.commitWrite _ _ _ _
  · have hlocal := (hrep.here m.key hkey).localTimestamp hx.lite3 hx.zstd hx.smallMeta
    have hsame : e.call x u (.applyMutation m) = some (e, .done) := by
      simp [Engine.call, Engine.prepare, hlocal, not_lt.mp hnewer]
    rw [Option.some.inj (hr.symm.trans hsame)]
    exact hfrozen

private theorem handle_putVal (hx : x.Lawful) (hsender : Sender x e theirs) {key : Bytes}
    {r : Entry}
    (hkey : UserKey key) (hr : theirs key = some r) {e' : Engine} (hidle : e'.Idle)
    (hrep : Represents x e'.store (taken theirs mine S))
    (hfrozen : e'.store.merkle.Frozen x.xxh3 leaves) :
    ∃ e'', handleMessage x u b e' (pullWire x a b e.store (.putVal key)).2 = some (e'', []) ∧
      e''.Idle ∧ e''.store.merkle.Frozen x.xxh3 leaves ∧
      Represents x e''.store (taken theirs mine
        (if registerStamp Entry.stamp Timestamp.zero (mine key) < r.stamp.throughDouble then
          insert key S else S)) := by
  have hreg := hsender.represents.here key hkey
  rw [hr] at hreg
  have hmeta := hreg.get_meta hx.zstd hx.smallMeta
  rw [hkey.metaKey_eq] at hmeta
  have hvalue : e.store.get x key adminUid = r.value := hreg.get_plain hsender.plain
  have hparse := parseMeta_reads (ReadsMeta.of_metaObject hx.lite3 hmeta)
  have hentry : (Mutation.mk r.stamp.throughDouble key r.value r.tombstone).entry x.lite3 =
      r.sent := by
    obtain ⟨ts, body, isDelete, rfl⟩ := hsender.written key r hr
    exact writtenEntry_again hx.lite3 ts _ body isDelete
  obtain ⟨result, hcall, -, hqueues, hrep'⟩ := call_applyMutation hx hrep
    (m := ⟨r.stamp.throughDouble, key, r.value, r.tombstone⟩) hkey u
  rw [hentry, taken_mergeInto hr] at hrep'
  have hfits : (SyncMessage.putVal key (e.store.get x (key ++ ascii ":meta") adminUid)
      (e.store.get x key adminUid)).Fits := ⟨hkey.length_lt, hx.smallMeta _ _ _ hmeta⟩
  refine ⟨result.1, ?_, ?_, applyMutation_frozen hx hrep hkey hfrozen hcall, hrep'⟩
  · rw [pullWire, wire, handleMessage_encode b a e' hfits]
    simp only [SyncMessage.received, answer, onPutVal, hparse, hvalue, hcall, Option.map_some,
      List.map_nil]
  · intro shard
    rw [hqueues]
    exact hidle shard

theorem Represents.listed {st : Store} (h : Represents x st theirs) {bucket : Nat} {key : Bytes}
    (hkey : key ∈ listedKeys x st bucket) : UserKey key ∧ ∃ r, theirs key = some r := by
  obtain ⟨hfind, -, hplain⟩ := mem_listedKeys h.sound hkey
  have huser := h.userKey hfind hplain
  refine ⟨huser, Option.ne_none_iff_exists'.mp fun hnone => hfind ?_⟩
  have hreg := h.here key huser
  rw [hnone] at hreg
  exact hreg.1

/-- The leaves of the receiver follow from the keys that were taken. -/
theorem Pulling.leaves_eq (h : Pulling x u a b e theirs mine leaves S net)
    (husers : ∀ user ∈ users, UserKey user)
    (hcover : ∀ user, UserKey user → theirs user ≠ none ∨ mine user ≠ none → user ∈ users) :
    (net.nodes b).store.merkle.leaves =
      fun bucket => xorSum users fun key => contribution x bucket key (taken theirs mine S key) := by
  funext bucket
  refine h.represents.leaf_eq h.plain.dict husers (fun user huser hne => ?_) bucket
  apply hcover user huser
  by_cases hS : user ∈ S
  · left
    intro hnone
    simp [taken, hS, hnone] at hne
  · right
    simpa [taken, hS] using hne

theorem pull_simulated (hx : x.Lawful) (hab : a ≠ b) (hsender : Sender x e theirs)
    (husers : ∀ user ∈ users, UserKey user)
    (hcover : ∀ user, UserKey user → theirs user ≠ none ∨ mine user ≠ none → user ∈ users) :
    Network.Simulated x u (pullWire x a b e.store) (Pulling x u a b e theirs mine leaves)
      (pull x hsender.represents.sound theirs mine leaves users).handle
      (pull x hsender.represents.sound theirs mine leaves users).Inside fun _ => True where
  step S net m h hinside _ := by
    match m with
    | .reqNode height p =>
        refine ⟨e, ?_, fun _ net' hstep hnodes => h.of_sender hstep hnodes⟩
        rw [show (pullWire x a b e.store (.reqNode height p)).1 = a from rfl, h.sender]
        exact handle_reqNode hsender.settled.frozen rfl ⟨hinside.1, hinside.2⟩
    | .repNode height p =>
        rw [TreePull.handle_repNode_state]
        refine ⟨net.nodes b, ?_, fun _ net' hstep hnodes =>
          h.of_receiver hab hstep hnodes h.idle h.represents h.frozen⟩
        have hhandle : handleMessage x u b (net.nodes b)
            (pullWire x a b e.store (.repNode height p)).2 = _ :=
          handle_repNode h.frozen ⟨hinside.1, hinside.2⟩
        rw [h.leaves_eq husers hcover] at hhandle
        refine hhandle.trans ?_
        cases height <;> rfl
    | .reqBucket i =>
        refine ⟨e, ?_, fun _ net' hstep hnodes => h.of_sender hstep hnodes⟩
        rw [show (pullWire x a b e.store (.reqBucket i)).1 = a from rfl, h.sender]
        exact handle_reqBucket hsender.idle i
    | .repBucket i =>
        have hlt : i < 16 ^ (3 + 1) := hinside
        norm_num at hlt
        refine ⟨net.nodes b, ?_, fun _ net' hstep hnodes =>
          h.of_receiver hab hstep hnodes h.idle h.represents h.frozen⟩
        have hhandle : handleMessage x u b (net.nodes b)
            (pullWire x a b e.store (.repBucket i)).2 = _ :=
          handle_repBucket hsender h.represents h.plain.dict i
        refine hhandle.trans ?_
        simp only [TreePull.handle, pull, hashPull, if_pos hlt]
    | .getVal key =>
        have hlisted : key ∈ listedKeys x e.store (bucketOf x.xxh3 key) := by
          simpa [TreePull.Inside, pull, hashPull] using hinside
        obtain ⟨huser, r, hr⟩ := hsender.represents.listed hlisted
        refine ⟨e, ?_, fun _ net' hstep hnodes => h.of_sender hstep hnodes⟩
        rw [show (pullWire x a b e.store (.getVal key)).1 = a from rfl, h.sender]
        exact handle_getVal hx hsender huser hr
    | .putVal key =>
        have hlisted : key ∈ listedKeys x e.store (bucketOf x.xxh3 key) := by
          simpa [TreePull.Inside, pull, hashPull] using hinside
        obtain ⟨huser, r, hr⟩ := hsender.represents.listed hlisted
        obtain ⟨e', hhandle, hidle, hfrozen, hrep⟩ :=
          handle_putVal (u := u) (a := a) (b := b) hx hsender huser hr h.idle h.represents h.frozen
        refine ⟨e', hhandle, fun _ net' hstep hnodes =>
          h.of_receiver hab hstep hnodes hidle ?_ hfrozen⟩
        simpa [TreePull.handle, pull, hashPull, hr] using hrep
  answers S m hinside := TreePull.handle_inside hinside

end

end L3KV
