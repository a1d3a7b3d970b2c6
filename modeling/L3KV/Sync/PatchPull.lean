import L3KV.Engine.Merge
import L3KV.Engine.Patches
import L3KV.Sync.Exchange
import L3KV.Sync.ExchangeEnds
import L3KV.Sync.Tombstones

/-!
# Patches are not pulled

A pull goes one way: one node asks and the other offers what it holds. The timestamp of a patch is
not the one that goes with the offered value, so a node that has the version before the patch
refuses it.
-/

namespace L3KV

open Framework

namespace SyncMessage

def Asks : SyncMessage → Prop
  | .reqNode _ _ => True
  | .reqBucket _ => True
  | .getVal _ => True
  | _ => False

/-- What a node with this store sends when it is pulled from. -/
def Offers (x : External) (st : Store) : SyncMessage → Prop
  | .init _ => True
  | .repNode _ _ _ => True
  | .repBucket _ _ _ => True
  | .putVal key metaVal value => UserKey key ∧ metaVal = st.get x (metaKey key) adminUid ∧
      value = st.get x key adminUid
  | _ => False

end SyncMessage

/-- The store has this value and this sidecar under the key. -/
structure Store.Keeping (x : External) (key value sidecar : Bytes) (st : Store) : Prop where
  readable : st.Readable x
  value : st.get x key adminUid = value
  sidecar : st.get x (metaKey key) adminUid = sidecar

section

variable {x : External} {u : Nat → Nat → UInt8} {e : Engine} {st : Store} {m : SyncMessage}
  {key value sidecar : Bytes} {r : Engine × List SyncMessage}

private theorem decode_asks (sender : NodeID) (h : m.Asks) :
    decode (m.encode sender) = (sender, .message m) := by
  have hfits (hfits : m.Fits) (hsame : m.received = m) :
      decode (m.encode sender) = (sender, .message m) := by
    rw [decode_encode sender hfits, hsame]
  cases m with
  | reqNode level parent => exact hfits trivial rfl
  | reqBucket bucket => exact hfits trivial rfl
  | getVal key => exact hfits trivial rfl
  | _ => exact h.elim

private theorem decode_offers (sender : NodeID) (htidy : st.Tidy x) (h : m.Offers x st)
    (hrange : m.InRange) :
    ∃ m', decode (m.encode sender) = (sender, .message m') ∧ m'.Offers x st ∧ m'.InRange := by
  have hfits (hfits : m.Fits) (hsame : m.received = m) :
      ∃ m', decode (m.encode sender) = (sender, .message m') ∧ m'.Offers x st ∧ m'.InRange :=
    ⟨m, by rw [decode_encode sender hfits, hsame], h, hrange⟩
  cases m with
  | init root => exact hfits trivial rfl
  | repNode level parent hashes => exact hfits hrange.2 rfl
  | repBucket bucket count entries =>
      exact ⟨_, decode_repBucket sender bucket count entries, trivial, hrange⟩
  | putVal key metaVal value =>
      obtain ⟨hkey, rfl, -⟩ := id h
      exact hfits ⟨hkey.length_lt, htidy.small key hkey⟩ rfl
  | _ => exact h.elim

private theorem answer_asks (hidle : e.Idle) (htidy : e.store.Tidy x) (h : m.Asks)
    (hr : answer x u e m = some r) : r.1 = e ∧ ∀ reply ∈ r.2, reply.Offers x e.store := by
  cases m with
  | reqNode level parent =>
      obtain ⟨reply, hreply, rfl⟩ := Option.map_eq_some_iff.mp hr
      obtain ⟨hashes, -, rfl⟩ := Option.map_eq_some_iff.mp hreply
      refine ⟨rfl, fun reply hmem => ?_⟩
      rw [List.mem_singleton.mp hmem]
      trivial
  | reqBucket bucket =>
      cases hr
      rw [onReqBucket, Engine.getBucketKeys_idle hidle]
      refine ⟨rfl, fun reply hmem => ?_⟩
      rw [List.mem_singleton.mp hmem]
      trivial
  | getVal key =>
      cases hr
      refine ⟨rfl, fun reply hmem => ?_⟩
      simp only [onGetVal] at hmem
      split at hmem
      · cases hmem
      · rename_i hfull
        have hkey : UserKey key := htidy.userKey fun hnil => hfull (by rw [hnil]; rfl)
        rw [List.mem_singleton.mp hmem]
        exact ⟨hkey, by rw [hkey.metaKey_eq], rfl⟩
  | _ => exact h.elim

theorem Store.Keeping.withTree (h : st.Keeping x key value sidecar) (t : MerkleTree) :
    ({ st with merkle := t } : Store).Keeping x key value sidecar :=
  ⟨h.readable, h.value, h.sidecar⟩

private theorem Store.Keeping.call_other (h : e.store.Keeping x key value sidecar)
    (hkey : UserKey key)
    {mutation : Mutation} (hother : UserKey mutation.key) (hne : mutation.key ≠ key)
    {r : Engine × CallResult} (hr : e.call x u (.applyMutation mutation) = some r) :
    r.1.store.Keeping x key value sidecar := by
  have happly {st st' : Store} {o : ShardOp} (h : st.Keeping x key value sidecar)
      (happly : st.apply x o = some st') (hvalue : key ≠ o.key) (hsidecar : metaKey key ≠ o.key) :
      st'.Keeping x key value sidecar :=
    ⟨Store.keeps_readable x st o st' h.readable happly,
      (h.readable.get_apply_ne happly hvalue).trans h.value,
      (h.readable.get_apply_ne happly hsidecar).trans h.sidecar⟩
  have hwrite (body metaVal : Bytes) (isDelete : Bool) :
      (e.store.commitWrite x mutation.key body isDelete metaVal).Keeping x key value sidecar := by
    have hmeta : metaKey key ≠ metaKey mutation.key :=
      fun heq => hne (hkey.metaKey_inj hother heq).symm
    have hfirst : (if isDelete then e.store.applyDel x mutation.key
        else e.store.applyPut x mutation.key body).Keeping x key value sidecar := by
      cases isDelete with
      | true => exact happly (o := .del mutation.key) h rfl (Ne.symm hne) (hkey.metaKey_ne hother)
      | false =>
          exact happly (o := .put mutation.key body) h rfl (Ne.symm hne) (hkey.metaKey_ne hother)
    exact happly (o := .put (metaKey mutation.key) metaVal) hfirst rfl
      (Ne.symm (hother.metaKey_ne hkey)) hmeta
  have houtcome := MutationOutcome.of_call hr
  generalize r.1 = left at houtcome ⊢
  cases houtcome with
  | kept _ => exact h
  | written _ _ _ _ => exact hwrite _ _ _

private theorem call_applyMutation_stale {mutation : Mutation} {r : Engine × CallResult}
    (hr : e.call x u (.applyMutation mutation) = some r)
    (hstale : ∀ t, localTimestamp x.lite3 (e.store.get x (metaKey mutation.key) adminUid) = some t →
      mutation.timestamp ≤ t) : r.1.store = e.store := by
  have houtcome := MutationOutcome.of_call hr
  generalize r.1 = left at houtcome ⊢
  cases houtcome with
  | kept _ => rfl
  | written stored newer _ _ => exact absurd (hstale _ stored) (not_le.mpr newer)

private theorem answer_offers (h : e.store.Keeping x key value sidecar) (hkey : UserKey key)
    (hstale : ∀ t, localTimestamp x.lite3 sidecar = some t →
      (parseMeta x.lite3 (st.get x (metaKey key) adminUid)).ts ≤ t)
    (hm : m.Offers x st) (hr : answer x u e m = some r) :
    r.1.store.Keeping x key value sidecar ∧ ∀ reply ∈ r.2, reply.Asks := by
  cases m with
  | init root =>
      cases hr
      refine ⟨h.withTree _, fun reply hreply => ?_⟩
      simp only [onSyncInit] at hreply
      split at hreply
      · cases hreply
      · rw [List.mem_singleton.mp hreply]
        trivial
  | repNode level parent hashes =>
      obtain ⟨replies, hreplies, rfl⟩ := Option.map_eq_some_iff.mp hr
      obtain ⟨mine, -, rfl⟩ := Option.map_eq_some_iff.mp hreplies
      refine ⟨h, fun reply hreply => ?_⟩
      obtain ⟨i, -, rfl⟩ := List.mem_map.mp hreply
      rw [drillDown]
      split <;> trivial
  | repBucket bucket count entries =>
      cases hr
      refine ⟨h, fun reply hreply => ?_⟩
      obtain ⟨entry, -, rfl⟩ := List.mem_map.mp hreply
      trivial
  | putVal other metaVal body =>
      obtain ⟨hother, rfl, rfl⟩ := hm
      obtain ⟨e', he', rfl⟩ := Option.map_eq_some_iff.mp hr
      obtain ⟨result, hcall, rfl⟩ := Option.map_eq_some_iff.mp he'
      refine ⟨?_, fun reply hreply => by cases hreply⟩
      by_cases heq : other = key
      · subst heq
        have hsame : result.1.store = e.store := by
          refine call_applyMutation_stale hcall fun t ht => hstale t ?_
          rw [← h.sidecar]
          exact ht
        rw [hsame]
        exact h
      · exact h.call_other hkey hother heq hcall
  | _ => exact hm.elim

end

namespace Network

/-- One node pulls from the other, which stays as it is, and keeps what it has under the key. -/
structure OneWay (x : External) (a b : NodeID) (e : Engine) (key value sidecar : Bytes)
    (net : Network) : Prop where
  sender : net.nodes a = e
  receiver : (net.nodes b).store.Keeping x key value sidecar
  flight : ∀ m ∈ net.flight, ∃ msg : SyncMessage, msg.InRange ∧
    (m = (a, msg.encode b) ∧ msg.Asks ∨ m = (b, msg.encode a) ∧ msg.Offers x e.store)

section

variable {x : External} {u : Nat → Nat → UInt8} {a b : NodeID} {e : Engine}
  {key value sidecar : Bytes} {net net' : Network}

theorem OneWay.deliver (hab : a ≠ b) (hidle : e.Idle) (htidy : e.store.Tidy x) (hkey : UserKey key)
    (hstale : ∀ t, localTimestamp x.lite3 sidecar = some t →
      (parseMeta x.lite3 (e.store.get x (metaKey key) adminUid)).ts ≤ t)
    (h : net.OneWay x a b e key value sidecar) {i : Nat}
    (hstep : net.step x u (.deliver i) = some net') : net'.OneWay x a b e key value sidecar := by
  obtain ⟨m, hm, hhandle⟩ := Option.bind_eq_some_iff.mp hstep
  obtain ⟨r, hr, rfl⟩ := Option.map_eq_some_iff.mp hhandle
  have hrest (m' : NodeID × Bytes) (hm' : m' ∈ net.flight.eraseIdx i) := h.flight m' (List.mem_of_mem_eraseIdx hm')
  obtain ⟨msg, hrange, ⟨rfl, hasks⟩ | ⟨rfl, hoffers⟩⟩ := h.flight m (List.mem_of_getElem? hm)
  · rw [handleMessage, decode_asks b hasks, h.sender] at hr
    obtain ⟨answered, hanswer, rfl⟩ := Option.map_eq_some_iff.mp hr
    obtain ⟨hsame, hreplies⟩ := answer_asks hidle htidy hasks hanswer
    obtain ⟨answered', hanswer', hinRange⟩ := answer_inRange (x := x) (u := u) e hrange
    cases hanswer.symm.trans hanswer'
    refine ⟨by simp [hsame], ?_, fun m' hm' => ?_⟩
    · simpa [hab.symm] using h.receiver
    · rcases List.mem_append.mp hm' with hold | hnew
      · exact hrest m' hold
      · obtain ⟨reply, hreply, rfl⟩ := List.mem_map.mp hnew
        exact ⟨reply, (hinRange reply hreply).1, Or.inr ⟨rfl, hreplies reply hreply⟩⟩
  · obtain ⟨msg', hdecode, hoffers', hrange'⟩ := decode_offers a htidy hoffers hrange
    rw [handleMessage, hdecode] at hr
    obtain ⟨answered, hanswer, rfl⟩ := Option.map_eq_some_iff.mp hr
    obtain ⟨hkeeping, hreplies⟩ := answer_offers h.receiver hkey hstale hoffers' hanswer
    obtain ⟨answered', hanswer', hinRange⟩ :=
      answer_inRange (x := x) (u := u) (net.nodes b) hrange'
    cases hanswer.symm.trans hanswer'
    refine ⟨by simpa [hab] using h.sender, by simpa using hkeeping, fun m' hm' => ?_⟩
    rcases List.mem_append.mp hm' with hold | hnew
    · exact hrest m' hold
    · obtain ⟨reply, hreply, rfl⟩ := List.mem_map.mp hnew
      exact ⟨reply, (hinRange reply hreply).1, Or.inl ⟨rfl, hreplies reply hreply⟩⟩

private theorem oneWay_of_gossip (hab : a ≠ b) (hflight : net.flight = [])
    (hreadable : (net.nodes b).store.Readable x) (hgossip : net.step x u (.gossip a b) = some net')
    (key : Bytes) : ∃ t, net'.OneWay x a b ((net.nodes a).withTree t) key
      ((net.nodes b).store.get x key adminUid)
      ((net.nodes b).store.get x (metaKey key) adminUid) := by
  obtain ⟨t, root, hroot⟩ : ∃ t root, (net.nodes a).getMerkleRootHash x =
      (root, (net.nodes a).withTree t) := ⟨_, _, rfl⟩
  rw [step_gossip hroot, hflight] at hgossip
  obtain rfl := Option.some.inj hgossip
  refine ⟨t, by simp, ?_, fun m hm => ?_⟩
  · simp only [Function.update_of_ne hab.symm]
    exact ⟨hreadable, rfl, rfl⟩
  · rw [List.mem_singleton.mp hm]
    exact ⟨.init root, trivial, Or.inr ⟨rfl, trivial⟩⟩

private theorem gets_of_pull (hab : a ≠ b) (hflight : net.flight = []) (hidle : (net.nodes a).Idle)
    (htidy : (net.nodes a).store.Tidy x) (hreadable : (net.nodes b).store.Readable x)
    (hkey : UserKey key)
    (hstale : ∀ t, (net.nodes b).store.stampOf x key = some t →
      (parseMeta x.lite3 ((net.nodes a).store.get x (metaKey key) adminUid)).ts ≤ t)
    {net₁ : Network} (hgossip : net.step x u (.gossip a b) = some net₁) {events : List Event}
    (hevents : EveryStep (step x u) net₁ events (Delivers fun _ => True))
    (hrun : events.foldlM (step x u) net₁ = some net') :
    (net'.nodes a).store.get x key adminUid = (net.nodes a).store.get x key adminUid ∧
      (net'.nodes b).store.get x key adminUid = (net.nodes b).store.get x key adminUid := by
  obtain ⟨t, hstart⟩ := oneWay_of_gossip hab hflight hreadable hgossip key
  have htidy' : ((net.nodes a).withTree t).store.Tidy x := ⟨htidy.readable, htidy.only, htidy.small⟩
  have hinv := run_invariant (fun _ net' => net'.OneWay x a b ((net.nodes a).withTree t) key
    ((net.nodes b).store.get x key adminUid) ((net.nodes b).store.get x (metaKey key) adminUid))
    hstart (fun _ net₁ event net₂ h hdelivers hstep => by
      cases event with
      | deliver i => exact h.deliver hab hidle htidy' hkey hstale hstep
      | _ => exact hdelivers.elim) hevents hrun
  refine ⟨?_, hinv.receiver.value⟩
  rw [hinv.sender]
  rfl

private theorem InRange.exists_delivered (h : net.InRange) : ∃ events net',
    EveryStep (Network.step x u) net events (Delivers fun _ => True) ∧
      events.foldlM (Network.step x u) net = some net' ∧ net'.flight = [] := by
  induction hranks : (net.flight.map rank : Multiset Nat) using
    (Multiset.wellFounded_isDershowitzMannaLT (α := Nat)).induction generalizing net with
  | h ranks ih =>
  by_cases hempty : net.flight = []
  · exact ⟨[], net, everyStep_nil, rfl, hempty⟩
  · obtain ⟨net₁, hstep, hrange, hreplaced⟩ :=
      h.deliver (x := x) (u := u) (List.length_pos_iff.mpr hempty)
    obtain ⟨events, net', hevents, hrun, hend⟩ := ih _ (hranks ▸ hreplaced.ranks_lt) hrange rfl
    refine ⟨.deliver 0 :: events, net', everyStep_cons (fun _ _ => trivial) fun net₂ hnet₂ => ?_, ?_,
      hend⟩
    · cases hstep.symm.trans hnet₂
      exact hevents
    · rw [List.foldlM_cons, hstep]
      exact hrun

end

end Network

/-- Neither this sidecar nor what a text in the field makes of it gives a `PUT_VAL` a timestamp that
is newer than the one `apply_mutation` finds in the sidecar. -/
def Lite3.ReadsNoNewer (l : Lite3) (sidecar field : Bytes) : Prop :=
  ∀ t, localTimestamp l sidecar = some t → (parseMeta l sidecar).ts ≤ t ∧ ∀ text buf,
    l.setStr (if sidecar.length = 0 then l.initObject else sidecar) field text = some buf →
      (parseMeta l buf).ts ≤ t

section

variable {l : Lite3} {buf field text : Bytes}

private theorem Timestamp.le_of_components {s t : Timestamp}
    (hwall : s.wallTime.toInt ≤ t.wallTime.toInt) (hlogical : s.logical.toNat ≤ t.logical.toNat)
    (hnode : s.nodeId.toNat ≤ t.nodeId.toNat) : s ≤ t := by
  rw [Timestamp.le_iff_not_lt, Timestamp.lt_iff]
  omega

private theorem parseMeta_ts_le {t : Timestamp} (hpos : 0 ≤ t.wallTime.toInt)
    (hwall : ∀ w, parseWall l buf = some w → (truncate w).toInt ≤ t.wallTime.toInt)
    (hlogical : ∀ v, parseWord l buf (ascii "l") = some v → v.toNat ≤ t.logical.toNat)
    (hnode : ∀ v, parseWord l buf (ascii "n") = some v → v.toNat ≤ t.nodeId.toNat) :
    (parseMeta l buf).ts ≤ t := by
  have hzero : Timestamp.zero ≤ t :=
    Timestamp.le_of_components hpos (Nat.zero_le _) (Nat.zero_le _)
  unfold parseMeta
  split
  · exact hzero
  · cases hfields : parseFields l buf with
    | none => exact hzero
    | some parsed =>
        rw [parseFields_eq] at hfields
        obtain ⟨w, hw, hfields⟩ := Option.bind_eq_some_iff.mp hfields
        obtain ⟨logical, hl, hfields⟩ := Option.bind_eq_some_iff.mp hfields
        obtain ⟨node, hn, hfields⟩ := Option.bind_eq_some_iff.mp hfields
        obtain ⟨tombstone, -, rfl⟩ := Option.map_eq_some_iff.mp hfields
        exact Timestamp.le_of_components (hwall w hw) (hlogical logical hl) (hnode node hn)

private theorem parseWord_setStr (hl : l.SetsText) {buf' : Bytes}
    (hset : l.setStr buf field text = some buf') (name : Bytes) :
    parseWord l buf' name = some 0 ∨ parseWord l buf' name = parseWord l buf name := by
  by_cases hname : name = field
  · subst hname
    left
    simp [parseWord, hl.setStr_read hset]
  · right
    obtain ⟨htype, hvalue, -⟩ := hl.setStr_frame hset hname
    rw [parseWord, parseWord, htype, hvalue]

private theorem readsNoNewer_missing (hl : l.SetsText)
    (hmissing : ∀ name t, l.getType l.initObject name = some t → t ≠ .int64 ∧ t ≠ .float64)
    (field : Bytes) : l.ReadsNoNewer [] field := by
  intro t ht
  obtain rfl : Timestamp.zero = t := Option.some.inj ht
  refine ⟨le_refl _, fun text buf hset => ?_⟩
  have hword (name : Bytes) (v : UInt32) (hv : parseWord l buf name = some v) : v.toNat ≤ 0 := by
    have hzero (v : UInt32) (hv : parseWord l l.initObject name = some v) : v = 0 := by
      obtain ⟨t, ht, hv⟩ := Option.bind_eq_some_iff.mp hv
      simpa [hmissing name t ht] using hv.symm
    rcases parseWord_setStr hl hset name with heq | heq
    · rw [heq] at hv
      cases hv
      exact le_refl _
    · rw [hzero v (heq ▸ hv)]
      exact le_refl _
  refine parseMeta_ts_le (le_refl _) (fun w hw => ?_) (hword (ascii "l")) (hword (ascii "n"))
  obtain ⟨t, ht, hw⟩ := Option.bind_eq_some_iff.mp hw
  have hnumber : t ≠ .int64 ∧ t ≠ .float64 := by
    by_cases hname : ascii "ts" = field
    · subst hname
      rw [hl.setStr_read hset] at ht
      cases ht
      decide
    · rw [(hl.setStr_frame hset hname).1] at ht
      exact hmissing _ t ht
  obtain rfl : 0 = w := by simpa [hnumber] using hw
  decide

private theorem readsNoNewer_reads (hl : l.SetsText) {sidecar : Bytes} {ts : Timestamp}
    {tombstone : Bool} (hreads : ReadsMeta l sidecar ts tombstone) (hrange : ts.WallInRange)
    (field : Bytes) : l.ReadsNoNewer sidecar field := by
  intro t ht
  obtain rfl : ts = t := Option.some.inj ((localTimestamp_reads hreads).symm.trans ht)
  have hfull : sidecar.length ≠ 0 := by simpa using hreads.ne_nil
  have hown : (parseMeta l sidecar).ts = ts := by
    rw [parseMeta_reads hreads]
    exact Timestamp.throughDouble_eq hrange.1 hrange.2
  refine ⟨hown.le, fun text buf hset => ?_⟩
  rw [if_neg hfull] at hset
  have hword {name : Bytes} {n : UInt32} (hn : l.getType sidecar name = some .int64 ∧
      l.getI64 sidecar name = some (Int64.ofNat n.toNat)) (v : UInt32)
      (hv : parseWord l buf name = some v) : v.toNat ≤ n.toNat := by
    rcases parseWord_setStr hl hset name with heq | heq
    · rw [heq] at hv
      cases hv
      exact Nat.zero_le _
    · rw [heq, parseWord, hn.1] at hv
      obtain rfl : n = v := by simpa [hn.2] using hv
      exact le_refl _
  refine parseMeta_ts_le hrange.1 (fun w hw => ?_) (hword hreads.logical) (hword hreads.node)
  by_cases hname : ascii "ts" = field
  · subst hname
    obtain rfl : 0 = w := by simpa [parseWall, hl.setStr_read hset] using hw
    exact hrange.1
  · obtain ⟨htype, hvalue, -⟩ := hl.setStr_frame hset hname
    obtain rfl : (toDouble ts.wallTime.toInt : Rat) = w := by
      simpa [parseWall, htype, hvalue, hreads.wall.1, hreads.wall.2] using hw
    rw [truncate_toDouble hrange.1 hrange.2]

private theorem readsNoNewer (hl : l.SetsText)
    (hmissing : ∀ name t, l.getType l.initObject name = some t → t ≠ .int64 ∧ t ≠ .float64)
    {sidecar : Bytes} (h : sidecar = [] ∨ ∃ ts tombstone, ReadsMeta l sidecar ts tombstone ∧
      ts.WallInRange) (field : Bytes) : l.ReadsNoNewer sidecar field := by
  rcases h with rfl | ⟨ts, tombstone, hreads, hrange⟩
  · exact readsNoNewer_missing hl hmissing field
  · exact readsNoNewer_reads hl hreads hrange field

end

/-- Both nodes have the same value and metadata under a user key, which is patched at one of them.
The patched value takes less than 4 GiB and the patched sidecar less than 64 KiB. -/
structure Network.Patching (x : External) (u : Nat → Nat → UInt8) (a b : NodeID) (net : Network)
    (call : Call) (o : ShardOp) (field : Bytes) : Prop where
  quiet : net.flight = []
  idle : (net.nodes a).Idle
  tidy : (net.nodes a).store.Tidy x
  readable : (net.nodes b).store.Readable x
  patch : call.patch? = some (o, field)
  user : UserKey o.key
  value : (net.nodes b).store.get x o.key adminUid = (net.nodes a).store.get x o.key adminUid
  sidecar : (net.nodes b).store.get x (metaKey o.key) adminUid =
    (net.nodes a).store.get x (metaKey o.key) adminUid
  stale : x.lite3.ReadsNoNewer ((net.nodes a).store.get x (metaKey o.key) adminUid) field
  short : ∀ buf ∈ o.sets x.lite3 ((net.nodes a).store.patchBase x o.key), buf.length < 2 ^ 32
  fits : ∀ plan ∈ (net.nodes a).planOf x u call, ∀ p ∈ plan.work.ops,
    p.Fits x (2 ^ 16) (net.nodes a).store

section

variable {x : External} {u : Nat → Nat → UInt8} {a b : NodeID} {net net₁ net₂ : Network}
  {call : Call} {o : ShardOp} {field : Bytes}

private theorem Network.Patching.gets (hx : x.Lawful) (hpatch : x.Patchable) (hab : a ≠ b)
    (h : net.Patching x u a b call o field) (hwrite : net.step x u (.write a call) = some net₁)
    (hgossip : net₁.step x u (.gossip a b) = some net₂) {events : List Event} {net' : Network}
    (hevents : EveryStep (Network.step x u) net₂ events (Network.Delivers fun _ => True))
    (hrun : events.foldlM (Network.step x u) net₂ = some net') :
    (net'.nodes a).store.get x o.key adminUid =
        (o.sets x.lite3 ((net.nodes a).store.patchBase x o.key)).getD
          ((net.nodes a).store.get x o.key adminUid) ∧
      (net'.nodes b).store.get x o.key adminUid = (net.nodes a).store.get x o.key adminUid := by
  obtain ⟨r, hr, hnet₁⟩ := Option.map_eq_some_iff.mp hwrite
  have hnodeA : net₁.nodes a = r.1 := by simp [← hnet₁]
  have hnodeB : net₁.nodes b = net.nodes b := by simp [← hnet₁, hab.symm]
  have hquiet : net₁.flight = [] := by simp [← hnet₁, h.quiet]
  obtain ⟨hidle, hpatched⟩ :=
    patched_of_call hx hpatch h.idle h.tidy h.patch h.user h.short h.fits hr
  rw [← hnodeA] at hidle hpatched
  have hreadable : (net₁.nodes b).store.Readable x := hnodeB ▸ h.readable
  have hstale (t : Timestamp) (ht : (net₁.nodes b).store.stampOf x o.key = some t) :
      (parseMeta x.lite3 ((net₁.nodes a).store.get x (metaKey o.key) adminUid)).ts ≤ t := by
    rw [hnodeB, Store.stampOf, h.sidecar] at ht
    obtain ⟨hown, htext⟩ := h.stale t ht
    rcases hpatched.sidecar with hsame | ⟨text, hset⟩
    · rw [hsame]
      exact hown
    · exact htext text _ hset
  obtain ⟨hA, hB⟩ := Network.gets_of_pull hab hquiet hidle hpatched.tidy hreadable h.user hstale
    hgossip hevents hrun
  exact ⟨hA.trans hpatched.value, hB.trans (hnodeB ▸ h.value)⟩

private theorem Network.Patching.exists_pull (h : net.Patching x u a b call o field)
    (hwrite : net.step x u (.write a call) = some net₁)
    (hgossip : net₁.step x u (.gossip a b) = some net₂) : ∃ events net',
      EveryStep (Network.step x u) net₂ events (Network.Delivers fun _ => True) ∧
        events.foldlM (Network.step x u) net₂ = some net' ∧ net'.flight = [] := by
  have hstart : net.InRange := fun m hm => by simp [h.quiet] at hm
  exact ((hstart.step hwrite).step hgossip).exists_delivered

/-- A pull gets the patch across if and only if the patch did not change the value: it threw, or the
field was set to what it was. -/
theorem patch_pulled_iff (hx : x.Lawful) (hpatch : x.Patchable) (hab : a ≠ b)
    (h : net.Patching x u a b call o field) (hwrite : net.step x u (.write a call) = some net₁)
    (hgossip : net₁.step x u (.gossip a b) = some net₂) :
    (∀ events net', EveryStep (Network.step x u) net₂ events (Network.Delivers fun _ => True) →
      events.foldlM (Network.step x u) net₂ = some net' → net'.flight = [] →
      (net'.nodes b).store.get x o.key adminUid = (net'.nodes a).store.get x o.key adminUid) ↔
    ∀ buf ∈ o.sets x.lite3 ((net.nodes a).store.patchBase x o.key),
      buf = (net.nodes a).store.get x o.key adminUid := by
  constructor
  · intro hall buf hbuf
    obtain ⟨events, net', hevents, hrun, hend⟩ := h.exists_pull hwrite hgossip
    obtain ⟨hA, hB⟩ := h.gets hx hpatch hab hwrite hgossip hevents hrun
    rw [Option.mem_def.mp hbuf] at hA
    rw [← hB, hall events net' hevents hrun hend, hA]
    rfl
  · intro hsame events net' hevents hrun _
    obtain ⟨hA, hB⟩ := h.gets hx hpatch hab hwrite hgossip hevents hrun
    rw [hA, hB]
    cases hbuf : o.sets x.lite3 ((net.nodes a).store.patchBase x o.key) with
    | none => rfl
    | some buf => exact (hsame buf hbuf).symm

end

private def patchX : External := External.reference fun _ => 0

private def patchCall : Call := .patchInt (ascii "k") (ascii "f") 1 [5]

/-- The sidecar of a write at (1, 0, 1). -/
private def heldMeta : Bytes := (metaObject Lite3.reference ⟨1, 0, 1⟩ false).getD []

private theorem heldMeta_eq : metaObject Lite3.reference ⟨1, 0, 1⟩ false = some heldMeta := by
  decide +kernel

private theorem exists_holder (node : UInt32) {value : Bytes}
    (hform : storedForm patchX.lite3 value = value) (hlen : value.length < 2 ^ 32) :
    ∃ r, (Engine.openOn patchX node []).call patchX (fun _ _ => 0)
        (.applyMutation ⟨⟨1, 0, 1⟩, ascii "k", value, false⟩) = some r ∧
      r.1.clock = HybridLogicalClock.init node ∧ r.1.Idle ∧ r.1.store.Tidy patchX ∧
      r.1.store.get patchX (ascii "k") adminUid = value ∧
      r.1.store.get patchX (metaKey (ascii "k")) adminUid = heldMeta := by
  have hx : patchX.Lawful := External.reference_lawful _
  have hkey : UserKey (ascii "k") := by decide
  obtain ⟨r, hr, hclock, hqueues, hrep⟩ := call_applyMutation hx (represents_fresh patchX node)
    (m := ⟨⟨1, 0, 1⟩, ascii "k", value, false⟩) hkey fun _ _ => 0
  refine ⟨r, hr, hclock, fun shard => by rw [hqueues]; rfl, hrep.tidy hx, ?_⟩
  have hreg := hrep.here (ascii "k") hkey
  have hnewer : mergeInto Entry.stamp Timestamp.zero none
      ((Mutation.mk ⟨1, 0, 1⟩ (ascii "k") value false).entry patchX.lite3) =
        some ⟨⟨1, 0, 1⟩, value, false⟩ := by
    have hlater : Timestamp.zero < ⟨1, 0, 1⟩ := by decide
    rw [Mutation.entry, writtenEntry, hform]
    exact if_pos hlater
  rw [Function.update_self, hnewer] at hreg
  refine ⟨hreg.get_value hx.zstd hlen, ?_⟩
  have hmeta : metaObject Lite3.reference ⟨1, 0, 1⟩ false = some (r.1.store.get patchX
      (metaKey (ascii "k")) adminUid) := hreg.get_meta hx.zstd hx.smallMeta
  exact Option.some.inj (hmeta.symm.trans heldMeta_eq)

private theorem exists_patching (value : Bytes) (hform : storedForm patchX.lite3 value = value)
    (hlen : value.length < 2 ^ 32)
    (hshort : ∀ buf ∈ patchX.lite3.setI64 (if value.length = 0 then patchX.lite3.initObject else value)
      (ascii "f") 1, buf.length < 2 ^ 32) :
    ∃ r₁ r₂ net₁ net₂, (Engine.openOn patchX 1 []).call patchX (fun _ _ => 0)
        (.applyMutation ⟨⟨1, 0, 1⟩, ascii "k", value, false⟩) = some r₁ ∧
      (Engine.openOn patchX 2 []).call patchX (fun _ _ => 0)
        (.applyMutation ⟨⟨1, 0, 1⟩, ascii "k", value, false⟩) = some r₂ ∧
      r₁.1.store.get patchX (ascii "k") adminUid = value ∧
      (Network.mk (fun node => if node = 1 then r₁.1 else r₂.1) []).Patching patchX (fun _ _ => 0) 1 2
        patchCall (.patchInt (ascii "k") (ascii "f") 1) (ascii "f") ∧
      (Network.mk (fun node => if node = 1 then r₁.1 else r₂.1) []).step patchX (fun _ _ => 0)
        (.write 1 patchCall) = some net₁ ∧
      net₁.step patchX (fun _ _ => 0) (.gossip 1 2) = some net₂ := by
  obtain ⟨r₁, hr₁, hclock, hidle, htidy, hvalue₁, hmeta₁⟩ := exists_holder 1 hform hlen
  obtain ⟨r₂, hr₂, -, -, htidy₂, hvalue₂, hmeta₂⟩ := exists_holder 2 hform hlen
  have hnow : r₁.1.clock.now [5] = some (⟨5, 0, 1⟩, ⟨5, 0, 1⟩) := by
    rw [hclock]
    decide
  have hprep : r₁.1.prepare patchX (fun _ _ => 0) patchCall = some (⟨5, 0, 1⟩, .accepted
      (patchPlan patchX (fun _ _ => 0) (.patchInt (ascii "k") (ascii "f") 1) (ascii "f") ⟨5, 0, 1⟩)) := by
    rw [patchCall, Engine.prepare, Engine.stamped, hnow]
    rfl
  have hcall : ∃ r, r₁.1.call patchX (fun _ _ => 0) patchCall = some r := by
    rw [Engine.call, hprep]
    exact ⟨_, rfl⟩
  obtain ⟨r, hr⟩ := hcall
  refine ⟨r₁, r₂, _, _, hr₁, hr₂, hvalue₁, ⟨rfl, hidle, htidy, htidy₂.readable, rfl, by decide,
    hvalue₂.trans hvalue₁.symm, hmeta₂.trans hmeta₁.symm, ?_, ?_, ?_⟩,
    by rw [Network.step]; exact congrArg (Option.map _) hr, rfl⟩
  · have hmissing (name : Bytes) (t : Lite3Type)
        (ht : Lite3.reference.getType Lite3.reference.initObject name = some t) :
        t ≠ .int64 ∧ t ≠ .float64 := by
      obtain rfl : Lite3Type.null = t := Option.some.inj ht
      decide
    have hreads := ReadsMeta.of_metaObject Lite3.reference_lawful heldMeta_eq
    have hstale := readsNoNewer Lite3.reference_setsText hmissing
      (Or.inr ⟨_, _, hreads, (by decide : Timestamp.WallInRange ⟨1, 0, 1⟩)⟩) (ascii "f")
    rw [← hmeta₁] at hstale
    exact hstale
  · intro buf hbuf
    have hset : patchX.lite3.setI64 (r₁.1.store.patchBase patchX (ascii "k")) (ascii "f") 1 =
        some buf := hbuf
    rw [Store.patchBase, hvalue₁] at hset
    exact hshort buf hset
  · intro plan hplan p hp
    have hplan' : r₁.1.planOf patchX (fun _ _ => 0) patchCall = some plan := hplan
    rw [Engine.planOf, hprep] at hplan'
    cases hplan'
    rcases List.mem_pair.mp hp with rfl | rfl
    · trivial
    · intro _ buf hbuf
      have hset : Lite3.reference.setStr (r₁.1.store.patchBase patchX (metaKey (ascii "k")))
          (ascii "f") (stampText ⟨5, 0, 1⟩) = some buf := hbuf
      rw [Store.patchBase, hmeta₁] at hset
      have hfit : ∀ buf ∈ Lite3.reference.setStr (if heldMeta.length = 0 then
          patchX.lite3.initObject else heldMeta) (ascii "f") (stampText ⟨5, 0, 1⟩),
          buf.length < 2 ^ 16 := by decide +kernel
      exact hfit buf hset

/-- Both nodes hold the bytes `v`, which are no object: the patch throws, and the nodes agree. -/
theorem patch_pulled_iff_thrown : ∃ r₁ r₂ net₁ net₂,
    (Engine.openOn patchX 1 []).call patchX (fun _ _ => 0)
      (.applyMutation ⟨⟨1, 0, 1⟩, ascii "k", ascii "v", false⟩) = some r₁ ∧
    (Engine.openOn patchX 2 []).call patchX (fun _ _ => 0)
      (.applyMutation ⟨⟨1, 0, 1⟩, ascii "k", ascii "v", false⟩) = some r₂ ∧
    (Network.mk (fun node => if node = 1 then r₁.1 else r₂.1) []).step patchX (fun _ _ => 0)
      (.write 1 patchCall) = some net₁ ∧
    net₁.step patchX (fun _ _ => 0) (.gossip 1 2) = some net₂ ∧
    ∀ events net', EveryStep (Network.step patchX fun _ _ => 0) net₂ events
        (Network.Delivers fun _ => True) →
      events.foldlM (Network.step patchX fun _ _ => 0) net₂ = some net' → net'.flight = [] →
      (net'.nodes 2).store.get patchX (ascii "k") adminUid =
        (net'.nodes 1).store.get patchX (ascii "k") adminUid := by
  obtain ⟨r₁, r₂, net₁, net₂, hr₁, hr₂, hvalue, hpatching, hwrite, hgossip⟩ :=
    exists_patching (ascii "v") (by decide) (by decide) (by decide)
  refine ⟨r₁, r₂, net₁, net₂, hr₁, hr₂, hwrite, hgossip, ?_⟩
  refine (patch_pulled_iff (External.reference_lawful _) ⟨Lite3.reference_setsText, Zstd.plain_framed⟩
    (by decide) hpatching hwrite hgossip).mpr ?_
  intro buf hbuf
  have hset : Lite3.reference.setI64 (r₁.1.store.patchBase patchX (ascii "k")) (ascii "f") 1 =
      some buf := hbuf
  rw [Store.patchBase, hvalue] at hset
  cases hset

/-- Both nodes hold an empty object, and one of them sets a field of it: in every order of delivery
the other keeps the empty object. -/
theorem patch_not_pulled : ∃ r₁ r₂ net₁ net₂,
    (Engine.openOn patchX 1 []).call patchX (fun _ _ => 0)
      (.applyMutation ⟨⟨1, 0, 1⟩, ascii "k", [6], false⟩) = some r₁ ∧
    (Engine.openOn patchX 2 []).call patchX (fun _ _ => 0)
      (.applyMutation ⟨⟨1, 0, 1⟩, ascii "k", [6], false⟩) = some r₂ ∧
    r₂.1.store.get patchX (ascii "k") adminUid = r₁.1.store.get patchX (ascii "k") adminUid ∧
    r₂.1.store.get patchX (metaKey (ascii "k")) adminUid =
      r₁.1.store.get patchX (metaKey (ascii "k")) adminUid ∧
    (Network.mk (fun node => if node = 1 then r₁.1 else r₂.1) []).step patchX (fun _ _ => 0)
      (.write 1 patchCall) = some net₁ ∧
    net₁.step patchX (fun _ _ => 0) (.gossip 1 2) = some net₂ ∧
    (∃ events net', EveryStep (Network.step patchX fun _ _ => 0) net₂ events
        (Network.Delivers fun _ => True) ∧
      events.foldlM (Network.step patchX fun _ _ => 0) net₂ = some net' ∧ net'.flight = []) ∧
    ∀ events net', EveryStep (Network.step patchX fun _ _ => 0) net₂ events
        (Network.Delivers fun _ => True) →
      events.foldlM (Network.step patchX fun _ _ => 0) net₂ = some net' → net'.flight = [] →
      (net'.nodes 2).store.get patchX (ascii "k") adminUid ≠
        (net'.nodes 1).store.get patchX (ascii "k") adminUid := by
  obtain ⟨r₁, r₂, net₁, net₂, hr₁, hr₂, hvalue, hpatching, hwrite, hgossip⟩ :=
    exists_patching [6] (by decide) (by decide) (by decide)
  refine ⟨r₁, r₂, net₁, net₂, hr₁, hr₂, hpatching.value, hpatching.sidecar, hwrite, hgossip,
    hpatching.exists_pull hwrite hgossip, ?_⟩
  intro events net' hevents hrun _ hsame
  obtain ⟨hA, hB⟩ := hpatching.gets (External.reference_lawful _)
    ⟨Lite3.reference_setsText, Zstd.plain_framed⟩ (by decide) hwrite hgossip hevents hrun
  have hbase : r₁.1.store.patchBase patchX (ascii "k") = [6] := by
    rw [Store.patchBase, hvalue]
    rfl
  have hchanged : (Lite3.reference.setI64 [6] (ascii "f") 1).getD [6] ≠ [6] := by decide
  apply hchanged
  calc (Lite3.reference.setI64 [6] (ascii "f") 1).getD [6]
      = (Lite3.reference.setI64 (r₁.1.store.patchBase patchX (ascii "k")) (ascii "f") 1).getD
          (r₁.1.store.get patchX (ascii "k") adminUid) := by rw [hbase, hvalue]
    _ = (net'.nodes 1).store.get patchX (ascii "k") adminUid := hA.symm
    _ = r₁.1.store.get patchX (ascii "k") adminUid := hsame.symm.trans hB
    _ = [6] := hvalue

end L3KV
