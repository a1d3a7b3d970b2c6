import L3KV.Sync.Carriers

/-!
# How an entry spreads

A node that carries the newest entry of a key opens an exchange. From then on one of the messages
in flight leads to the entry: the root, the hashes on the path to the bucket, the listing of the
bucket, the request for the value, or the value. Exchanges between other nodes, writes of other keys
and messages that come twice do not keep it from arriving, so when nothing is in flight any more the
other node carries the entry. After a number of such rounds every node does that the gossip reaches.
-/

namespace L3KV

open Framework

/-- The hashes that are compared on the way to a key tell two engines apart. -/
structure TellsApart (x : External) (key : Bytes) (e e' : Engine) : Prop where
  blocks : Set.InjOn x.xxh3 (treeBlocks x.xxh3 e.store.merkle.leaves ∪
    treeBlocks x.xxh3 e'.store.merkle.leaves)
  leaf : e'.store.merkle.leaves (bucketOf x.xxh3 key) ≠ e.store.merkle.leaves (bucketOf x.xxh3 key)
  listed : localHash x e' key ≠ e.store.keyHash x key

/-- An engine that carries the entry is told apart from one that does not, and the keys of its buckets
can be counted in 32 bits. -/
structure Discernible (x : External) (seen : Engine → Prop) (key : Bytes) (w : Entry) : Prop where
  apart : ∀ e e', seen e → seen e' → e.Carries x key w → ¬ e'.Carries x key w → TellsApart x key e e'
  small : ∀ e, seen e → e.Carries x key w → ∀ bucket, (e.store.bucketKeys x bucket).length < 2 ^ 32

/-- The node above the bucket of the key at this height. -/
def pathTo (x : External) (key : Bytes) (height : Nat) : Nat := bucketOf x.xxh3 key / 16 ^ height

/-- The hashes of the children of a node. Those of the inner levels may be out of date. -/
def childrenOf (xxh3 : Bytes → UInt64) (frozen live : Fin 65536 → UInt64) (height parent : Nat) :
    List UInt64 :=
  (List.range 16).map fun i => nodeAt xxh3 frozen live height (parent * 16 + i)

/-- The messages between the carrier `a` and the node `b` that lead to the entry, after the roots
were compared. -/
inductive Pursues (x : External) (seen : Engine → Prop) (a b : NodeID) (key : Bytes) (w : Entry) :
    NodeID × Bytes → Prop
  | reqNode {height : Nat} (hlow : height ≤ 3) : Pursues x seen a b key w
      (a, (SyncMessage.reqNode (levelOf height)
        (UInt32.ofNat (pathTo x key (height + 1)))).encode b)
  | repNode {height : Nat} (hlow : height ≤ 3) {frozen live : Engine} (hfrozen : seen frozen)
      (hlive : seen live) (hcarried : frozen.Carries x key w) (hcarries : live.Carries x key w) :
      Pursues x seen a b key w (b, (SyncMessage.repNode (levelOf height)
        (UInt32.ofNat (pathTo x key (height + 1))) (childrenOf x.xxh3 frozen.store.merkle.leaves
          live.store.merkle.leaves height (pathTo x key (height + 1)))).encode a)
  | reqBucket : Pursues x seen a b key w
      (a, (SyncMessage.reqBucket (UInt32.ofNat (bucketOf x.xxh3 key))).encode b)
  | repBucket {e : Engine} {bucket count : UInt32} {entries : List (Bytes × UInt64)}
      (hseen : seen e) (hcarries : e.Carries x key w) (hheld : e.store.find x key ≠ none)
      (hlisted : (key, e.store.keyHash x key) ∈ entries.take count.toNat)
      (hfits : (SyncMessage.repBucket bucket count entries).Fits) :
      Pursues x seen a b key w (b, (SyncMessage.repBucket bucket count entries).encode a)
  | getVal : Pursues x seen a b key w (a, (SyncMessage.getVal key).encode b)
  | putVal {metaVal : Bytes} (hmeta : metaObject x.lite3 w.stamp w.tombstone = some metaVal) :
      Pursues x seen a b key w (b, (SyncMessage.putVal key metaVal w.value).encode a)

section

variable {x : External} {u : Nat → Nat → UInt8} {seen : Engine → Prop} {a b : NodeID} {key : Bytes}
  {w : Entry} {e : Engine} {entries : Bytes → Option Entry} {history : List (Bytes × Entry)}
  {height : Nat}

private theorem pathTo_zero : pathTo x key 0 = bucketOf x.xxh3 key := by simp [pathTo]

private theorem pathTo_succ : pathTo x key (height + 1) = pathTo x key height / 16 := by
  rw [pathTo, pathTo, pow_succ, Nat.div_div_eq_div_mul]

private theorem pathTo_four : pathTo x key 4 = 0 := Nat.div_eq_of_lt (bucketOf x.xxh3 key).isLt

private theorem hasChildren_pathTo (hlow : height ≤ 3) :
    HasChildren height (pathTo x key (height + 1)) := by
  refine ⟨hlow, Nat.div_lt_of_lt_mul ?_⟩
  rw [← pow_add, show height + 1 + (3 - height) = 4 by omega]
  exact (bucketOf x.xxh3 key).isLt

private theorem nodeAt_path_ne (hd : Discernible x seen key w) {frozen live frozen' live' : Engine}
    (hfrozen : seen frozen) (hlive : seen live) (hfrozen' : seen frozen') (hlive' : seen live')
    (hcarried : frozen.Carries x key w) (hcarries : live.Carries x key w)
    (hother : ¬ frozen'.Carries x key w) (hother' : ¬ live'.Carries x key w) (hlow : height ≤ 3) :
    nodeAt x.xxh3 frozen'.store.merkle.leaves live'.store.merkle.leaves height
        (pathTo x key height) ≠
      nodeAt x.xxh3 frozen.store.merkle.leaves live.store.merkle.leaves height
        (pathTo x key height) := by
  cases height with
  | zero =>
      rw [pathTo_zero, nodeAt, nodeAt, cellOr_eq, cellOr_eq]
      exact (hd.apart _ _ hlive hlive' hcarries hother').leaf
  | succ height =>
      have happart := hd.apart _ _ hfrozen hfrozen' hcarried hother
      rw [nodeAt_inner _ _ frozen'.store.merkle.leaves,
        nodeAt_inner frozen.store.merkle.leaves _ frozen.store.merkle.leaves]
      exact nodeAt_ne happart.blocks happart.leaf (height + 1) hlow

private theorem handle_reqNode_live {frozen : Fin 65536 → UInt64} {parent : Nat}
    (hfrozen : e.store.merkle.Frozen x.xxh3 frozen) (h : HasChildren height parent) :
    handleMessage x u a e
        ((SyncMessage.reqNode (levelOf height) (UInt32.ofNat parent)).encode b) =
      some (e, [(b, (SyncMessage.repNode (levelOf height) (UInt32.ofNat parent)
        (childrenOf x.xxh3 frozen e.store.merkle.leaves height parent)).encode a)]) := by
  have hhashes : childHashes e (levelOf height) (UInt32.ofNat parent) =
      some (childrenOf x.xxh3 frozen e.store.merkle.leaves height parent) := by
    rw [childHashes_eq e h.onLevel, childrenOf, h.toNat]
    simp only [hfrozen.nodeHash h.low]
  have hfits : (SyncMessage.reqNode (levelOf height) (UInt32.ofNat parent)).Fits := trivial
  rw [handleMessage_encode a b e hfits]
  simp only [SyncMessage.received, answer, onReqNode, hhashes, Option.map_some, List.map_cons,
    List.map_nil]

private theorem handle_repNode_live {frozen : Fin 65536 → UInt64} {parent i : Nat}
    {hashes : List UInt64}
    (hfrozen : e.store.merkle.Frozen x.xxh3 frozen) (h : HasChildren height parent)
    (hlen : hashes.length = 16) (hi : i < 16)
    (hne : nodeAt x.xxh3 frozen e.store.merkle.leaves height (parent * 16 + i) ≠ hashes.getD i 0) :
    ∃ replies, handleMessage x u b e
        ((SyncMessage.repNode (levelOf height) (UInt32.ofNat parent) hashes).encode a) =
        some (e, replies) ∧
      (a, (drillDown (levelOf height) (UInt32.ofNat (parent * 16 + i))).encode b) ∈ replies := by
  have hfits : (SyncMessage.repNode (levelOf height) (UInt32.ofNat parent) hashes).Fits := hlen
  rw [handleMessage_encode b a e hfits]
  simp only [SyncMessage.received, answer, onRepNode, childHashes_eq e h.onLevel, Option.map_some,
    Option.some.injEq, Prod.mk.injEq, true_and, exists_eq_left']
  refine List.mem_map.mpr ⟨_, List.mem_map.mpr ⟨i, List.mem_filter.mpr ⟨?_, ?_⟩, rfl⟩, ?_⟩
  · exact List.mem_range.mpr hi
  · simpa [h.toNat, List.getD_eq_getElem?_getD, hi, hfrozen.nodeHash h.low] using hne
  · rw [h.childNode hi]

private theorem childrenOf_length (xxh3 : Bytes → UInt64) (frozen live : Fin 65536 → UInt64)
    (height parent : Nat) : (childrenOf xxh3 frozen live height parent).length = 16 := by
  simp [childrenOf]

private theorem handle_repNode_path {frozen frozen' live : Fin 65536 → UInt64}
    (hfrozen : e.store.merkle.Frozen x.xxh3 frozen) (hlow : height ≤ 3)
    (hne : nodeAt x.xxh3 frozen e.store.merkle.leaves height (pathTo x key height) ≠
      nodeAt x.xxh3 frozen' live height (pathTo x key height)) :
    ∃ replies, handleMessage x u b e ((SyncMessage.repNode (levelOf height)
        (UInt32.ofNat (pathTo x key (height + 1))) (childrenOf x.xxh3 frozen' live height
          (pathTo x key (height + 1)))).encode a) = some (e, replies) ∧
      (a, (drillDown (levelOf height) (UInt32.ofNat (pathTo x key height))).encode b) ∈
        replies := by
  have hchild :
      pathTo x key (height + 1) * 16 + pathTo x key height % 16 = pathTo x key height := by
    rw [pathTo_succ]
    omega
  have hindex : pathTo x key height % 16 < 16 := Nat.mod_lt _ (by decide)
  have hhash : (childrenOf x.xxh3 frozen' live height (pathTo x key (height + 1))).getD
      (pathTo x key height % 16) 0 = nodeAt x.xxh3 frozen' live height (pathTo x key height) := by
    simp [childrenOf, List.getD_eq_getElem?_getD, hindex, hchild]
  have hreplies := handle_repNode_live (u := u) (a := a) (b := b) hfrozen (hasChildren_pathTo hlow)
    (childrenOf_length x.xxh3 frozen' live height (pathTo x key (height + 1))) hindex
    (by rwa [hchild, hhash])
  rwa [hchild] at hreplies

private theorem drillDown_bucket (index : UInt32) :
    drillDown (levelOf 0) index = .reqBucket index := rfl

private theorem drillDown_node (hlow : height + 1 ≤ 3) (index : UInt32) :
    drillDown (levelOf (height + 1)) index = .reqNode (levelOf height) index := by
  have hcases : height = 0 ∨ height = 1 ∨ height = 2 := by omega
  rcases hcases with rfl | rfl | rfl <;> rfl

private theorem pursues_drillDown (hlow : height ≤ 3) : Pursues x seen a b key w
    (a, (drillDown (levelOf height) (UInt32.ofNat (pathTo x key height))).encode b) := by
  cases height with
  | zero =>
      rw [drillDown_bucket, pathTo_zero]
      exact .reqBucket
  | succ height =>
      rw [drillDown_node hlow]
      exact .reqNode (by omega)

private theorem bucketListing_lists (hrep : Represents x e.store entries)
    (huser : UserKey key) (hheld : e.store.find x key ≠ none)
    (hsmall : ∀ bucket, (e.store.bucketKeys x bucket).length < 2 ^ 32) :
    ∃ count listed, bucketListing x e.store (bucketOf x.xxh3 key) =
        .repBucket (UInt32.ofNat (bucketOf x.xxh3 key)) count listed ∧
      (key, e.store.keyHash x key) ∈ listed.take count.toNat ∧
      (bucketListing x e.store (bucketOf x.xxh3 key)).Fits := by
  obtain ⟨blob, hblob⟩ := Option.ne_none_iff_exists'.mp hheld
  let bucket := UInt32.ofNat (bucketOf x.xxh3 key)
  have hmem : (key, e.store.keyHash x key) ∈
      (e.store.bucketKeys x bucket).filter fun entry => !isMetaKey entry.1 := by
    refine List.mem_filter.mpr ⟨hrep.sound.mem_bucketKeys.mpr ⟨blob, hblob, ?_, ?_⟩, ?_⟩
    · rw [Store.bucket_toNat]
    · simp [Store.keyHash, hblob, Store.hashOf]
    · have hname : isMetaKey key = false := by
        rw [isMetaKey, ← Bool.not_eq_true, List.isSuffixOf_iff_suffix]
        exact huser.notMeta
      simp [hname]
  refine ⟨_, _, rfl, ?_, fun entry hentry => ?_⟩
  · rw [List.take_of_length_le]
    · exact hmem
    · rw [UInt32.toNat_ofNat', Nat.mod_eq_of_lt (hsmall _)]
      exact List.length_filter_le _ _
  · obtain ⟨hthere, hname⟩ := List.mem_filter.mp hentry
    obtain ⟨blob, hblob, -⟩ := hrep.sound.mem_bucketKeys.mp hthere
    exact (hrep.userKey (by simp [hblob]) (by simpa using hname)).length_lt

private theorem handle_getVal_carried (hx : x.Lawful) (hnew : Newest history key w)
    (hgenuine : ∀ v ∈ history, Genuine x v.1 v.2) (hrep : Represents x e.store entries)
    (hentry : entries key = some w) :
    ∃ metaVal, metaObject x.lite3 w.stamp w.tombstone = some metaVal ∧
      handleMessage x u a e ((SyncMessage.getVal key).encode b) =
        some (e, [(b, (SyncMessage.putVal key metaVal w.value).encode a)]) := by
  have hkey := hgenuine _ hnew.written
  have hreg := hrep.here key hkey.user
  rw [hentry] at hreg
  have hmeta := hreg.get_meta hx.zstd hx.smallMeta
  rw [hkey.user.metaKey_eq] at hmeta
  have hne : (e.store.get x (key ++ ascii ":meta") adminUid).length ≠ 0 := by
    simpa using (ReadsMeta.of_metaObject hx.lite3 hmeta).ne_nil
  have hfits : (SyncMessage.getVal key).Fits := trivial
  refine ⟨_, hmeta, ?_⟩
  rw [handleMessage_encode a b e hfits, ← hreg.get_value hx.zstd hkey.short]
  simp only [SyncMessage.received, answer, onGetVal, if_neg hne, Option.map_some, List.map_cons,
    List.map_nil]

private theorem handle_putVal_newest (hx : x.Lawful) (hnew : Newest history key w)
    (hgenuine : ∀ v ∈ history, Genuine x v.1 v.2) (hrep : Represents x e.store entries)
    (hheld : Held (fun key r => (key, r) ∈ history) entries) (hne : entries key ≠ some w)
    {metaVal : Bytes} (hmeta : metaObject x.lite3 w.stamp w.tombstone = some metaVal)
    {r : Engine × List (NodeID × Bytes)}
    (hr : handleMessage x u b e ((SyncMessage.putVal key metaVal w.value).encode a) = some r) :
    r.1.Carries x key w := by
  have hkey := hgenuine _ hnew.written
  have hparse := parseMeta_reads (ReadsMeta.of_metaObject hx.lite3 hmeta)
  rw [Timestamp.throughDouble_eq hkey.wall.1 hkey.wall.2] at hparse
  have hentry : (Mutation.mk w.stamp key w.value w.tombstone).entry x.lite3 = w := by
    obtain ⟨ts, body, isDelete, rfl⟩ := hkey.written
    exact writtenEntry_again hx.lite3 ts ts body isDelete
  obtain ⟨result, hcall, -, -, hrep'⟩ :=
    call_applyMutation hx hrep (m := ⟨w.stamp, key, w.value, w.tombstone⟩) hkey.user u
  rw [hentry] at hrep'
  have hfits : (SyncMessage.putVal key metaVal w.value).Fits :=
    ⟨hkey.user.length_lt, hx.smallMeta _ _ _ hmeta⟩
  rw [handleMessage_encode b a e hfits] at hr
  simp only [SyncMessage.received, answer, onPutVal, hparse, hcall, Option.map_some,
    Option.some.injEq] at hr
  rw [← hr]
  refine hrep'.carries hx hkey ?_
  rw [Function.update_self, mergeInto, if_pos (hnew.stamp_lt hheld hne)]

namespace Network

variable {net net' : Network} {event : Event}

def Event.Loses : Event → Prop
  | .lose _ => True
  | _ => False

private theorem flight_step (hkeeps : ¬ event.Loses) (hstep : net.step x u event = some net')
    {m : NodeID × Bytes} (hm : m ∈ net.flight) :
    m ∈ net'.flight ∨ ∃ r, handleMessage x u m.1 (net.nodes m.1) m.2 = some r ∧
      net'.nodes = Function.update net.nodes m.1 r.1 ∧ ∀ reply ∈ r.2, reply ∈ net'.flight := by
  cases event with
  | write node call =>
      obtain ⟨r, -, rfl⟩ := Option.map_eq_some_iff.mp hstep
      exact Or.inl hm
  | gossip node target =>
      cases hstep
      exact Or.inl (List.mem_append_left _ hm)
  | deliver i =>
      obtain ⟨m', hm', hhandle⟩ := Option.bind_eq_some_iff.mp hstep
      obtain ⟨r, hr, rfl⟩ := Option.map_eq_some_iff.mp hhandle
      by_cases heq : m' = m
      · subst heq
        exact Or.inr ⟨r, hr, rfl, fun reply hreply => List.mem_append_right _ hreply⟩
      · left
        obtain ⟨j, hj⟩ := List.mem_iff_getElem?.mp hm
        refine List.mem_append_left _ (List.mem_eraseIdx_iff_getElem?.mpr ⟨j, ?_, hj⟩)
        rintro rfl
        exact heq (Option.some.inj (hm'.symm.trans hj))
  | duplicate i =>
      obtain ⟨m', -, rfl⟩ := Option.map_eq_some_iff.mp hstep
      exact Or.inl (List.mem_append_left _ hm)
  | lose i => exact absurd trivial hkeeps

/-- The carrier `a` has opened an exchange with `b`, and the entry has arrived or is on its way. -/
structure Spreads (x : External) (seen : Engine → Prop) (a b : NodeID) (key : Bytes) (w : Entry)
    (net : Network) : Prop where
  replicated : ∃ history, net.Replicated x history ∧ Newest history key w
  source : (net.nodes a).Carries x key w
  settled : ∃ e, seen e ∧ e.Carries x key w ∧
    (net.nodes a).store.merkle.Frozen x.xxh3 e.store.merkle.leaves
  target : (net.nodes b).Carries x key w ∨
    (∃ e, seen e ∧ e.Carries x key w ∧
      (b, (SyncMessage.init (scratchL0 x.xxh3 e.store.merkle.leaves 0)).encode a) ∈ net.flight) ∨
    ((∃ e, seen e ∧ ¬ e.Carries x key w ∧
      (net.nodes b).store.merkle.Frozen x.xxh3 e.store.merkle.leaves) ∧
        ∃ m ∈ net.flight, Pursues x seen a b key w m)

namespace Spreads

/-- The reply to a message that leads to the entry leads to it, unless the entry has arrived. -/
theorem answered (hx : x.Lawful) (hd : Discernible x seen key w) (h : net.Replicated x history)
    (hnew : Newest history key w) (hseen : ∀ node, seen (net.nodes node))
    (hsource : (net.nodes a).Carries x key w) {carried missing : Engine} (hcarried : seen carried)
    (hmissing : seen missing) (hcarries : carried.Carries x key w)
    (hmisses : ¬ missing.Carries x key w)
    (hfrozen : (net.nodes a).store.merkle.Frozen x.xxh3 carried.store.merkle.leaves)
    (hfrozen' : (net.nodes b).store.merkle.Frozen x.xxh3 missing.store.merkle.leaves)
    (htarget : ¬ (net.nodes b).Carries x key w) {m : NodeID × Bytes}
    (hm : Pursues x seen a b key w m) {r : Engine × List (NodeID × Bytes)}
    (hr : handleMessage x u m.1 (net.nodes m.1) m.2 = some r) :
    (m.1 = b ∧ r.1.Carries x key w) ∨ ∃ reply ∈ r.2, Pursues x seen a b key w reply := by
  have huser : UserKey key := (h.genuine _ hnew.written).user
  obtain ⟨entries, hrep, hheld⟩ := h.held a
  have hentry := (hnew.carries_iff hx hrep hheld h.genuine).mp hsource
  have hthere : (net.nodes a).store.find x key ≠ none := by
    have hreg := hrep.here key huser
    rw [hentry] at hreg
    obtain ⟨⟨blob, hblob, -⟩, -⟩ := hreg
    simp [hblob]
  cases hm with
  | reqNode hlow =>
      cases hr.symm.trans (handle_reqNode_live hfrozen (hasChildren_pathTo hlow))
      exact Or.inr ⟨_, List.mem_singleton_self _,
        .repNode hlow hcarried (hseen a) hcarries hsource⟩
  | @repNode height hlow frozen live hfrozenSeen hliveSeen hfrozenCarries hliveCarries =>
      right
      have hdiffers := nodeAt_path_ne hd hfrozenSeen hliveSeen hmissing (hseen b)
        hfrozenCarries hliveCarries hmisses htarget hlow
      obtain ⟨replies, hreplies, hreply⟩ :=
        handle_repNode_path (u := u) (a := a) (b := b) hfrozen' hlow hdiffers
      cases hr.symm.trans hreplies
      exact ⟨_, hreply, pursues_drillDown hlow⟩
  | reqBucket =>
      right
      have hhandle : handleMessage x u a (net.nodes a)
          ((SyncMessage.reqBucket (UInt32.ofNat (bucketOf x.xxh3 key))).encode b) =
          some (net.nodes a, [(b, (bucketListing x (net.nodes a).store
            (bucketOf x.xxh3 key)).encode a)]) := handle_reqBucket (h.idle a) _
      obtain ⟨count, listed, hlisting, hmem, hfits⟩ :=
        bucketListing_lists hrep huser hthere (hd.small _ (hseen a) hsource)
      rw [hlisting] at hhandle hfits
      obtain rfl := Option.some.inj (hr.symm.trans hhandle)
      exact ⟨_, List.mem_singleton_self _, .repBucket (hseen a) hsource hthere hmem hfits⟩
  | @repBucket e bucket count listed hseenE hcarriesE hheldE hlisted hfits =>
      have hdiffers : localHash x (net.nodes b) key ≠ e.store.keyHash x key :=
        (hd.apart _ _ hseenE (hseen b) hcarriesE htarget).listed
      rw [handleMessage_encode b a _ hfits] at hr
      cases hr
      refine Or.inr ⟨_, List.mem_map.mpr ⟨.getVal key, List.mem_map.mpr
        ⟨_, List.mem_filter.mpr ⟨hlisted, by simpa using hdiffers⟩, rfl⟩, rfl⟩, .getVal⟩
  | getVal =>
      obtain ⟨metaVal, hmeta, hhandle⟩ :=
        handle_getVal_carried (u := u) (a := a) (b := b) hx hnew h.genuine hrep hentry
      cases hr.symm.trans hhandle
      exact Or.inr ⟨_, List.mem_singleton_self _, .putVal hmeta⟩
  | putVal hmeta =>
      obtain ⟨entries', hrep', hheld'⟩ := h.held b
      have hne : entries' key ≠ some w := fun heq =>
        htarget ((hnew.carries_iff hx hrep' hheld' h.genuine).mpr heq)
      exact Or.inl ⟨rfl, handle_putVal_newest hx hnew h.genuine hrep' hheld' hne hmeta hr⟩

theorem opened (hd : Discernible x seen key w) (hrep : Represents x e.store entries)
    {carried : Engine} (hcarried : seen carried) (hseen : seen e)
    (hcarries : carried.Carries x key w) (hmisses : ¬ e.Carries x key w)
    {r : Engine × List (NodeID × Bytes)}
    (hr : handleMessage x u b e ((SyncMessage.init
      (scratchL0 x.xxh3 carried.store.merkle.leaves 0)).encode a) = some r) :
    r.1.store.merkle.Frozen x.xxh3 e.store.merkle.leaves ∧
      ∃ reply ∈ r.2, Pursues x seen a b key w reply := by
  obtain ⟨t, hroot, hsettled, hleaves, -⟩ := hrep.getMerkleRootHash
  have happart := hd.apart _ _ hcarried hseen hcarries hmisses
  have hne : scratchL0 x.xxh3 e.store.merkle.leaves 0 ≠
      scratchL0 x.xxh3 carried.store.merkle.leaves 0 :=
    root_ne happart.blocks happart.leaf
  rw [handle_init hroot, if_neg hne] at hr
  cases hr
  constructor
  · rw [← hleaves]
    exact hsettled.frozen
  · have hfirst : Pursues x seen a b key w (a, (SyncMessage.reqNode (levelOf 3)
        (UInt32.ofNat (pathTo x key 4))).encode b) := .reqNode (le_refl 3)
    rw [pathTo_four] at hfirst
    exact ⟨_, List.mem_singleton_self _, hfirst⟩

theorem step (hx : x.Lawful) (hd : Discernible x seen key w) (h : net.Spreads x seen a b key w)
    (hseen : ∀ node, seen (net.nodes node)) (hscope : event.InScope x net)
    (hspares : ∀ v ∈ event.written x net, v.1 ≠ key) (hkeeps : ¬ event.Loses)
    (hstep : net.step x u event = some net') : net'.Spreads x seen a b key w := by
  obtain ⟨history, hreplicated, hnew⟩ := h.replicated
  obtain ⟨carried, hcarried, hcarries, hfrozen⟩ := h.settled
  have huser : UserKey key := (hreplicated.genuine _ hnew.written).user
  refine ⟨⟨_, hreplicated.step hx hscope hstep,
      hnew.append fun v hv => hspares v (by simpa using hv)⟩,
    hreplicated.carries_step hx hnew hscope hspares hstep h.source,
    hreplicated.settled_step hx hscope hstep (hseen a) h.source h.settled, ?_⟩
  by_cases htarget : (net.nodes b).Carries x key w
  · exact Or.inl (hreplicated.carries_step hx hnew hscope hspares hstep htarget)
  rcases h.target with harrived | ⟨sender, hsender, hsends, hopening⟩ | ⟨hbehind, m, hm, hpursues⟩
  · exact absurd harrived htarget
  · -- The roots are compared, or the opening message stays.
    obtain ⟨entries, hrep, -⟩ := hreplicated.held b
    rcases flight_step hkeeps hstep hopening with hstays | ⟨r, hr, hnodes, hreplies⟩
    · exact Or.inr (Or.inl ⟨sender, hsender, hsends, hstays⟩)
    · obtain ⟨hsettled, reply, hreply, hleads⟩ :=
        opened hd hrep hsender (hseen b) hsends htarget hr
      refine Or.inr (Or.inr
        ⟨⟨net.nodes b, hseen b, htarget, ?_⟩, reply, hreplies reply hreply, hleads⟩)
      rw [hnodes, Function.update_self]
      exact hsettled
  · -- A message that leads to the entry is answered, or it stays.
    have hbehind' : ∃ e, seen e ∧ ¬ e.Carries x key w ∧
        (net'.nodes b).store.merkle.Frozen x.xxh3 e.store.merkle.leaves :=
      hreplicated.settled_step hx hscope hstep (hseen b) htarget hbehind
    obtain ⟨missing, hmissing, hmisses, hfrozen'⟩ := hbehind
    rcases flight_step hkeeps hstep hm with hstays | ⟨r, hr, hnodes, hreplies⟩
    · exact Or.inr (Or.inr ⟨hbehind', m, hstays, hpursues⟩)
    · rcases answered hx hd hreplicated hnew hseen h.source hcarried hmissing hcarries hmisses
        hfrozen hfrozen' htarget hpursues hr with ⟨hdest, harrives⟩ | ⟨reply, hreply, hleads⟩
      · left
        rw [hnodes, ← hdest, Function.update_self]
        exact harrives
      · exact Or.inr (Or.inr ⟨hbehind', reply, hreplies reply hreply, hleads⟩)

theorem gossip (hx : x.Lawful) (hreplicated : net.Replicated x history)
    (hnew : Newest history key w) (hsource : (net.nodes a).Carries x key w)
    (hseen : seen (net.nodes a))
    (hstep : net.step x u (.gossip a b) = some net') : net'.Spreads x seen a b key w := by
  have hscope : (Event.gossip a b).InScope x net := trivial
  have hspares : ∀ v ∈ (Event.gossip a b).written x net, v.1 ≠ key := by
    intro v hv
    cases hv
  have hsource' := hreplicated.carries_step hx hnew hscope hspares hstep hsource
  have hreplicated' := hreplicated.step hx hscope hstep
  obtain ⟨entries, hrep, -⟩ := hreplicated.held a
  obtain ⟨t, hroot, hsettled, hleaves, -⟩ := hrep.getMerkleRootHash
  cases (step_gossip (u := u) (b := b) hroot).symm.trans hstep
  refine ⟨⟨_, hreplicated', hnew.append (by simp [Event.written])⟩, hsource',
    ⟨net.nodes a, hseen, hsource, ?_⟩, Or.inr (Or.inl ⟨net.nodes a, hseen, hsource, by simp⟩)⟩
  simp only [Function.update_self]
  rw [← hleaves]
  exact hsettled.frozen

end Spreads

/-- What may happen while an entry of the key spreads: other keys are written, and no message is
lost. -/
structure Calm (x : External) (seen : Engine → Prop) (key : Bytes) (net : Network) (event : Event) :
    Prop where
  scope : event.InScope x net
  seen : ∀ node, seen (net.nodes node)
  spares : ∀ v ∈ event.written x net, v.1 ≠ key
  keeps : ¬ event.Loses

section

variable (x u)

/-- A round: these events happen, and then nothing is in flight. -/
def round (net : Network) (events : List Event) : Option Network :=
  (events.foldlM (step x u) net).filter fun net => net.flight.isEmpty

end

/-- The nodes that the gossip reaches from the given ones, one hop in a round. -/
def reached (rounds : List (List Event)) (nodes : NodeID → Prop) : NodeID → Prop :=
  rounds.foldl (fun nodes events target =>
    nodes target ∨ ∃ node, nodes node ∧ .gossip node target ∈ events) nodes

private theorem Replicated.carries_run (hx : x.Lawful) (hreplicated : net.Replicated x history)
    (hnew : Newest history key w) {events : List Event}
    (hcalm : EveryStep (Network.step x u) net events (Calm x seen key))
    (hrun : events.foldlM (Network.step x u) net = some net') :
    (∃ history', net'.Replicated x history' ∧ Newest history' key w) ∧
      ∀ node, (net.nodes node).Carries x key w → (net'.nodes node).Carries x key w := by
  refine run_invariant (fun _ s => (∃ history', s.Replicated x history' ∧ Newest history' key w) ∧
    ∀ node, (net.nodes node).Carries x key w → (s.nodes node).Carries x key w)
    ⟨⟨history, hreplicated, hnew⟩, fun _ hnode => hnode⟩ ?_ hcalm hrun
  rintro _ s event s' ⟨⟨history', hreplicated', hnew'⟩, hkept⟩ hcalm hstep
  refine ⟨⟨_, hreplicated'.step hx hcalm.scope hstep,
    hnew'.append fun v hv => hcalm.spares v (by simpa using hv)⟩, fun node hnode => ?_⟩
  exact hreplicated'.carries_step hx hnew' hcalm.scope hcalm.spares hstep (hkept node hnode)

private theorem Replicated.carries_round (hx : x.Lawful) (hd : Discernible x seen key w)
    (hreplicated : net.Replicated x history) (hnew : Newest history key w) {events : List Event}
    (hcalm : EveryStep (Network.step x u) net events (Calm x seen key))
    (hrun : events.foldlM (Network.step x u) net = some net') (hend : net'.flight = [])
    (hsource : (net.nodes a).Carries x key w) (hgossip : .gossip a b ∈ events) :
    (net'.nodes b).Carries x key w := by
  obtain ⟨front, back, rfl⟩ := List.append_of_mem hgossip
  rw [List.foldlM_append] at hrun
  obtain ⟨net₁, hfront, hrest⟩ := Option.bind_eq_some_iff.mp hrun
  rw [List.foldlM_cons] at hrest
  obtain ⟨net₂, hstep, hback⟩ := Option.bind_eq_some_iff.mp hrest
  obtain ⟨⟨history₁, hreplicated₁, hnew₁⟩, hkept⟩ :=
    hreplicated.carries_run hx hnew hcalm.front hfront
  have hafter := hcalm.drop hfront
  have hopened : net₂.Spreads x seen a b key w :=
    .gossip hx hreplicated₁ hnew₁ (hkept a hsource) (hafter.head.seen a) hstep
  have hspreads : net'.Spreads x seen a b key w := by
    refine run_invariant (fun _ s => s.Spreads x seen a b key w) hopened ?_ (hafter.tail hstep)
      hback
    intro _ s event s' hspreads hcalm hstep
    exact hspreads.step hx hd hcalm.seen hcalm.scope hcalm.spares hcalm.keeps hstep
  rcases hspreads.target with harrived | ⟨e, -, -, hopening⟩ | ⟨-, m, hm, -⟩
  · exact harrived
  · simp [hend] at hopening
  · simp [hend] at hm

private theorem round_eq_some {events : List Event} (h : net.round x u events = some net') :
    events.foldlM (step x u) net = some net' ∧ net'.flight = [] := by
  obtain ⟨hrun, hend⟩ := Option.filter_eq_some_iff.mp h
  exact ⟨hrun, by simpa using hend⟩

end Network

end

private def spreadX : External := External.reference pulseHash

private def spreadEntry : Entry := ⟨⟨5, 0, 1⟩, pulse, false⟩

private def spreadTable : Bytes → Option Entry :=
  Function.update (fun _ => none) (ascii "k") (some spreadEntry)

/-- Nothing is compressed, and at most the one entry is held. -/
private def SpreadSeen (e : Engine) : Prop :=
  e.store.zstd.dict = none ∧ ∃ entries, Represents spreadX e.store entries ∧
    (entries = (fun _ => none) ∨ entries = spreadTable)

private theorem spreadX_lawful : spreadX.Lawful := External.reference_lawful pulseHash

private theorem spreadTable_leaves {st : Store} (h : Represents spreadX st spreadTable)
    (hdict : st.zstd.dict = none) : st.merkle.leaves = spike 100 0 := by
  have hbuckets : bucketOf pulseHash (ascii "k") = 0 ∧
      bucketOf pulseHash (metaKey (ascii "k")) = 0 := by decide +kernel
  obtain ⟨metaVal, hmeta, -⟩ := metaObject_reads spreadX_lawful.lite3 ⟨5, 0, 1⟩ false
  have hsidecar : pulseHash metaVal = 0 := by
    have hhash : (metaObject Lite3.reference ⟨5, 0, 1⟩ false).map pulseHash = some 0 := by
      decide +kernel
    have hmeta' : metaObject Lite3.reference ⟨5, 0, 1⟩ false = some metaVal := hmeta
    rw [hmeta'] at hhash
    exact Option.some.inj hhash
  have hvalue : pulseHash pulse = 100 := by decide +kernel
  funext b
  rw [h.leaf_single hdict (by decide)]
  simp only [contribution, valueHash, sidecarHash, spreadEntry, hmeta, Option.elim_some, spike]
  rw [show spreadX.xxh3 = pulseHash from rfl, hbuckets.1, hbuckets.2, hsidecar, hvalue]
  by_cases hb : b = 0
  · subst hb
    rfl
  · have hval : (b : Nat) ≠ 0 := fun hzero => hb (Fin.ext hzero)
    rw [if_neg (Ne.symm hb), if_neg (Ne.symm hb), if_neg hval, UInt64.xor_self]

private theorem spreadNone_leaves {st : Store} (h : Represents spreadX st fun _ => none)
    (hdict : st.zstd.dict = none) : st.merkle.leaves = spike 0 0 := by
  funext b
  rw [h.leaf_eq hdict (by simp : ∀ user ∈ (∅ : Finset Bytes), UserKey user) (by simp), xorSum_empty]
  simp [spike]

private theorem spreadBlocks {e : Engine} (h : SpreadSeen e) :
    treeBlocks pulseHash e.store.merkle.leaves ⊆
      treeBlocks pulseHash (spike 100 0) ∪ treeBlocks pulseHash (spike 0 0) := by
  obtain ⟨hdict, entries, hrep, rfl | rfl⟩ := h
  · rw [spreadNone_leaves hrep hdict]
    exact Set.subset_union_right
  · rw [spreadTable_leaves hrep hdict]
    exact Set.subset_union_left

private theorem spread_cases {e e' : Engine} (h : SpreadSeen e) (h' : SpreadSeen e')
    (hcarries : e.Carries spreadX (ascii "k") spreadEntry)
    (hmisses : ¬ e'.Carries spreadX (ascii "k") spreadEntry) :
    Represents spreadX e.store spreadTable ∧ Represents spreadX e'.store fun _ => none := by
  have huser : UserKey (ascii "k") := by decide
  obtain ⟨hdict, entries, hrep, hentries⟩ := h
  obtain ⟨hdict', entries', hrep', hentries'⟩ := h'
  rw [Engine.Carries, (hrep.here _ huser).state_plain spreadX_lawful hdict] at hcarries
  rw [Engine.Carries, (hrep'.here _ huser).state_plain spreadX_lawful hdict'] at hmisses
  have hnone : entries = spreadTable := by
    rcases hentries with rfl | rfl
    · exact absurd (congrArg Prod.fst hcarries) (by decide)
    · rfl
  subst hnone
  refine ⟨hrep, ?_⟩
  rcases hentries' with rfl | rfl
  · exact hrep'
  · exact absurd hcarries hmisses

private theorem spreadSeen_discernible :
    Discernible spreadX SpreadSeen (ascii "k") spreadEntry := by
  have huser : UserKey (ascii "k") := by decide
  refine ⟨fun e e' h h' hcarries hmisses => ?_, fun e h _ bucket => ?_⟩
  · obtain ⟨hrep, hrep'⟩ := spread_cases h h' hcarries hmisses
    refine ⟨injOn_pulseHash.mono (Set.union_subset (spreadBlocks h) (spreadBlocks h')), ?_, ?_⟩
    · have hbucket : bucketOf spreadX.xxh3 (ascii "k") = 0 := by decide +kernel
      rw [spreadTable_leaves hrep h.1, spreadNone_leaves hrep' h'.1, hbucket]
      decide
    · have hlocal : localHash spreadX e' (ascii "k") = 0 := by
        rw [localHash, get_eq_nil (hrep'.here _ huser).1]
        rfl
      rw [hlocal, ((hrep.here _ huser).keyHash h.1).1, spreadTable, Function.update_self]
      decide +kernel
  · obtain ⟨hdict, entries, hrep, hentries⟩ := h
    have hnodup := hrep.sound.bucketKeys_nodup bucket
    have hsub : (e.store.bucketKeys spreadX bucket).map Prod.fst ⊆
        [ascii "k", metaKey (ascii "k")] := by
      intro key hkey
      obtain ⟨entry, hentry, rfl⟩ := List.mem_map.mp hkey
      obtain ⟨blob, hblob, -⟩ := hrep.sound.mem_bucketKeys.mp hentry
      obtain ⟨user, r, -, hr, hstored⟩ := hrep.stored hdict hblob
      have hk : user = ascii "k" := by
        by_contra hother
        rcases hentries with rfl | rfl
        · cases hr
        · rw [spreadTable, Function.update_of_ne hother] at hr
          cases hr
      rw [hk] at hstored
      rcases hstored with ⟨heq, -⟩ | ⟨heq, -⟩ <;> simp [heq]
    have hlen := (List.subperm_of_subset hnodup hsub).length_le
    rw [List.length_map] at hlen
    exact lt_of_le_of_lt hlen (by decide)

private theorem spreadSeen_of_replicated {net : Network}
    (h : net.Replicated spreadX [(ascii "k", spreadEntry)])
    (hplain : ∀ node, (net.nodes node).store.zstd.dict = none) (node : NodeID) :
    SpreadSeen (net.nodes node) := by
  obtain ⟨entries, hrep, hheld⟩ := h.held node
  have honly (key : Bytes) (r : Entry) (hr : entries key = some r) :
      key = ascii "k" ∧ r = spreadEntry := by simpa using hheld key r hr
  refine ⟨hplain node, entries, hrep, ?_⟩
  cases hk : entries (ascii "k") with
  | none =>
      left
      funext key
      cases hentry : entries key with
      | none => rfl
      | some r =>
          rw [(honly key r hentry).1, hk] at hentry
          cases hentry
  | some r =>
      right
      funext key
      rw [(honly _ r hk).2] at hk
      by_cases hkey : key = ascii "k"
      · rw [hkey, hk, spreadTable, Function.update_self]
      · rw [spreadTable, Function.update_of_ne hkey]
        cases hentry : entries key with
        | none => rfl
        | some r => exact absurd (honly key r hentry).1 hkey

private theorem delivers_cases {kind : NodeID × Bytes → Prop} {net : Network}
    {event : Network.Event} (h : net.Delivers kind event) : ∃ i, event = .deliver i := by
  cases event with
  | deliver i => exact ⟨i, rfl⟩
  | _ => exact h.elim

private theorem spread_replicated {net net' : Network} {events : List Network.Event}
    (h : net.Replicated spreadX [(ascii "k", spreadEntry)])
    (hevents : EveryStep (Network.step spreadX fun _ _ => 0) net events
      (Network.Delivers fun _ => True))
    (hrun : events.foldlM (Network.step spreadX fun _ _ => 0) net = some net') :
    net'.Replicated spreadX [(ascii "k", spreadEntry)] := by
  refine run_invariant (fun _ s => s.Replicated spreadX [(ascii "k", spreadEntry)]) h ?_ hevents
    hrun
  intro _ s event s' hs hdelivers hstep
  obtain ⟨i, rfl⟩ := delivers_cases hdelivers
  have hin : (Network.Event.deliver i).InScope spreadX s := trivial
  simpa [Network.Event.written] using hs.step spreadX_lawful hin hstep

private theorem spread_calm {net : Network} {events : List Network.Event}
    (h : net.Replicated spreadX [(ascii "k", spreadEntry)])
    (hplain : ∀ node, net.StaysPlain spreadX (fun _ _ => 0) node)
    (hevents : EveryStep (Network.step spreadX fun _ _ => 0) net events
      (Network.Delivers fun _ => True)) :
    EveryStep (Network.step spreadX fun _ _ => 0) net events
      (Network.Calm spreadX SpreadSeen (ascii "k")) := by
  intro before event after hsplit s hs
  obtain ⟨i, rfl⟩ := delivers_cases (hevents before event after hsplit s hs)
  rw [hsplit] at hevents
  have hseen := spreadSeen_of_replicated (spread_replicated h hevents.front hs)
    fun node => hplain node before s hevents.front hs
  exact ⟨trivial, hseen, by simp [Network.Event.written], id⟩

private def spreadPut : Network.Event := .write 1 (.put (ascii "k") pulse adminUid [5])

private theorem exists_spreadPut :
    ∃ e, (Network.init spreadX).step spreadX (fun _ _ => 0) spreadPut =
      some ⟨Function.update (Network.init spreadX).nodes 1 e, []⟩ ∧ e.WrittenByUsers spreadX ∧
      e.store.zstd.dict = none := by
  have hcalls : ((Engine.openOn spreadX 1 []).call spreadX (fun _ _ => 0)
      (.put (ascii "k") pulse adminUid [5])).isSome = true := by decide +kernel
  obtain ⟨r, hr⟩ := Option.isSome_iff_exists.mp hcalls
  refine ⟨r.1, ?_, ⟨fun _ _ => 0, 1, [.put (ascii "k") pulse adminUid [5]], ?_, ?_⟩, ?_⟩
  · have hnode : (Network.init spreadX).nodes 1 = Engine.openOn spreadX 1 [] := rfl
    simp only [spreadPut, Network.step, hnode, hr, Option.map_some]
    rfl
  · intro call hcall
    rw [List.mem_singleton.mp hcall]
    exact .locally (by decide : UserKey (ascii "k")) (.put _ _ _)
  · simp [Engine.runCalls, hr]
  · exact (Store.keeps_untrained fun _ _ => rfl).call rfl hr

private theorem spreadPut_written :
    spreadPut.written spreadX (Network.init spreadX) = some (ascii "k", spreadEntry) := by
  decide +kernel

private theorem spreadPut_inScope : spreadPut.InScope spreadX (Network.init spreadX) := by
  refine ⟨ascii "k", by decide, .put _ _ _, fun v hv => ?_⟩
  cases spreadPut_written.symm.trans hv
  constructor
  · constructor <;> decide
  · decide

end L3KV
