import Mathlib.Data.List.TakeWhile
import L3KV.Engine.Metadata
import L3KV.Framework.LastWriterWins
import L3KV.Store.Leaves

/-!
# Keys as registers

Abstractly, a store is a map from user keys to entries: a timestamp, the stored form of a value
and a tombstone flag. Concretely an entry is two blobs, the value and its sidecar. `Represents`
relates the two, and every write of the engine is an update of the map.
-/

namespace L3KV

open Framework

/-- A key that holds no NUL, leaves room for the suffix and is not itself a sidecar. -/
structure UserKey (key : Bytes) : Prop where
  noNul : ∀ b ∈ key, b ≠ 0
  short : key.length < 1019
  notMeta : ¬ ascii ":meta" <:+ key

namespace UserKey

-- The bytes of the key are looked at, and not all there are.
instance (key : Bytes) : Decidable (UserKey key) :=
  haveI : Decidable (∀ b ∈ key, b ≠ 0) := List.decidableBAll _ key
  decidable_of_iff ((∀ b ∈ key, b ≠ 0) ∧ key.length < 1019 ∧ ¬ ascii ":meta" <:+ key)
    ⟨fun h => ⟨h.1, h.2.1, h.2.2⟩, fun h => ⟨h.noNul, h.short, h.notMeta⟩⟩

theorem metaKey_eq {key : Bytes} (h : UserKey key) : metaKey key = key ++ ascii ":meta" := by
  have hlt := h.short
  have htext : key.takeWhile (· ≠ 0) = key := by
    apply List.takeWhile_eq_self_iff.mpr
    intro b hb
    simpa using h.noNul b hb
  rw [L3KV.metaKey_eq (by omega), htext, if_neg (by omega)]

theorem metaKey_ne {key other : Bytes} (h : UserKey key) (h' : UserKey other) :
    metaKey key ≠ other := by
  intro heq
  rw [h.metaKey_eq] at heq
  exact h'.notMeta ⟨key, heq⟩

theorem metaKey_inj {key other : Bytes} (h : UserKey key) (h' : UserKey other)
    (heq : metaKey key = metaKey other) : key = other := by
  rw [h.metaKey_eq, h'.metaKey_eq] at heq
  exact List.append_cancel_right heq

end UserKey

/-- What a write leaves under a key. -/
structure Entry where
  stamp : Timestamp
  value : Bytes
  tombstone : Bool
  deriving DecidableEq

def Store.Holding (x : External) (st : Store) (key content : Bytes) : Prop :=
  ∃ b, st.find x key = some b ∧ b.Holds x.zstd st.zstd content

/-- The blobs of one key. -/
def Registered (x : External) (st : Store) (key : Bytes) : Option Entry → Prop
  | none => st.find x key = none ∧ st.find x (metaKey key) = none
  | some r =>
      st.Holding x key r.value ∧
        ∃ metaVal, metaObject x.lite3 r.stamp r.tombstone = some metaVal ∧
          st.Holding x (metaKey key) metaVal

/-- The store holds exactly these entries, under their keys and sidecar keys. -/
structure Represents (x : External) (st : Store) (entries : Bytes → Option Entry) : Prop where
  here : ∀ key, UserKey key → Registered x st key (entries key)
  only : ∀ key, st.find x key ≠ none → ∃ user, UserKey user ∧ (key = user ∨ key = metaKey user)
  sound : st.Sound x

/-- The two operations of a write: the value or its deletion, then the sidecar. -/
def Store.commitWrite (x : External) (st : Store) (key body : Bytes) (isDelete : Bool)
    (metaVal : Bytes) : Store :=
  (if isDelete then st.applyDel x key else st.applyPut x key body).applyPut x (metaKey key) metaVal

/-- The operation leaves this content under its key. -/
def ShardOp.Leaves (l : Lite3) : ShardOp → Bytes → Prop
  | .put _ body, content => content = storedForm l body
  | .del _, content => content = []
  | _, _ => False

/-- The two operations that leave an entry: one on the key, then one on the sidecar. -/
def WriteOps (l : Lite3) (key : Bytes) (r : Entry) (ops : List ShardOp) : Prop :=
  ∃ o metaVal, ops = [o, .put (metaKey key) metaVal] ∧ o.key = key ∧ o.Leaves l r.value ∧
    metaObject l r.stamp r.tombstone = some metaVal

theorem WriteOps.ne_singleton {l : Lite3} {key : Bytes} {r : Entry} {ops : List ShardOp}
    (h : WriteOps l key r ops) (o : ShardOp) : ops ≠ [o] := by
  obtain ⟨_, _, rfl, -⟩ := h
  simp

/-- What is left of the operations of a write, and what the others have left. -/
def Underway (x : External) (st : Store) (key : Bytes) (r : Entry) (ops : List ShardOp) : Prop :=
  WriteOps x.lite3 key r ops ∨
    (∃ metaVal, ops = [.put (metaKey key) metaVal] ∧
      metaObject x.lite3 r.stamp r.tombstone = some metaVal ∧ st.Holding x key r.value) ∨
    (ops = [] ∧ Registered x st key (some r))

/-- The timestamp stored for a key; zero if there is none. -/
def Store.stampOf (x : External) (st : Store) (key : Bytes) : Option Timestamp :=
  localTimestamp x.lite3 (st.get x (metaKey key) adminUid)

/-- The value, timestamp and tombstone flag of a key, as they are read through `get`. -/
def Store.stateOf (x : External) (st : Store) (key : Bytes) : Bytes × Option Timestamp × Bool :=
  let metaVal := st.get x (metaKey key) adminUid
  (st.get x key adminUid, localTimestamp x.lite3 metaVal, tombstoneFlag x.lite3 metaVal)

def Entry.state : Option Entry → Bytes × Option Timestamp × Bool
  | none => ([], some Timestamp.zero, false)
  | some r => (r.value, some r.stamp, r.tombstone)

/-- The entry such a write leaves. -/
def writtenEntry (l : Lite3) (ts : Timestamp) (body : Bytes) (isDelete : Bool) : Entry :=
  ⟨ts, if isDelete then [] else storedForm l body, isDelete⟩

section

variable {x : External} {st : Store} {entries : Bytes → Option Entry}

theorem represents_init : Represents x (Store.init x) fun _ => none where
  here key _ := by simp [Registered, Store.find, Store.init]
  only key h := by simp [Store.find, Store.init] at h
  sound := Store.init_sound

theorem represents_fresh (x : External) (nodeId : UInt32) :
    Represents x (Engine.openOn x nodeId []).store fun _ => none := represents_init

theorem Store.Holding.mono {st' : Store} {key content : Bytes} (h : st.Holding x key content)
    (hfollows : st.zstd.Follows st'.zstd) (hfind : st'.find x key = st.find x key) :
    st'.Holding x key content := by
  obtain ⟨b, hb, hholds⟩ := h
  exact ⟨b, by rw [hfind, hb], hholds.mono hfollows⟩

theorem Store.apply_leaves (st : Store) {o : ShardOp} {content : Bytes}
    (ho : o.Leaves x.lite3 content) :
    ∃ st', st.apply x o = some st' ∧ st.zstd.Follows st'.zstd ∧ st'.Holding x o.key content ∧
      (∀ other, other ≠ o.key → st'.find x other = st.find x other) ∧
      (st.Sound x → st'.Sound x) := by
  cases o with
  | put key body =>
      cases ho
      refine ⟨st.applyPut x key body, rfl, Blob.overwrite_follows _ _ _ _,
        ⟨(Blob.overwrite x.lite3 x.zstd st.zstd body).1, ?_, Blob.overwrite_holds _ _ _ _⟩, ?_,
        fun h => h.applyPut key body⟩
      · exact (Store.applyPut_find st key body key).trans (if_pos rfl)
      · intro other hne
        exact (Store.applyPut_find st key body other).trans (if_neg hne)
  | del key =>
      cases ho
      refine ⟨st.applyDel x key, rfl, ZstdManager.Follows.refl _,
        ⟨Blob.empty, ?_, Blob.empty_holds _ _⟩, ?_, fun h => h.applyDel key⟩
      · exact (Store.applyDel_find st key key).trans (if_pos rfl)
      · intro other hne
        exact (Store.applyDel_find st key other).trans (if_neg hne)
  | patchInt key field value => cases ho
  | patchStr key field value => cases ho

/-- The blobs of a write, and the frame around them. -/
theorem commitWrite_spec (st : Store) (key body : Bytes) (isDelete : Bool) (metaVal : Bytes) :
    let st' := st.commitWrite x key body isDelete metaVal
    st.zstd.Follows st'.zstd ∧
      st'.Holding x key (if isDelete then [] else storedForm x.lite3 body) ∧
      st'.Holding x (metaKey key) (storedForm x.lite3 metaVal) ∧
      (∀ other, other ≠ key → other ≠ metaKey key → st'.find x other = st.find x other) ∧
      (st.Sound x → st'.Sound x) := by
  intro st'
  have hvalueOp : ∃ mid : Store, st' = mid.applyPut x (metaKey key) metaVal ∧
      st.zstd.Follows mid.zstd ∧
      mid.Holding x key (if isDelete then [] else storedForm x.lite3 body) ∧
      (∀ other, other ≠ key → mid.find x other = st.find x other) ∧ (st.Sound x → mid.Sound x) := by
    cases isDelete with
    | true =>
        obtain ⟨mid, hmid, hrest⟩ := st.apply_leaves (x := x) (o := .del key) rfl
        cases hmid
        exact ⟨st.applyDel x key, rfl, hrest⟩
    | false =>
        obtain ⟨mid, hmid, hrest⟩ := st.apply_leaves (x := x) (o := .put key body) rfl
        cases hmid
        exact ⟨st.applyPut x key body, rfl, hrest⟩
  obtain ⟨mid, hst', hfollows, hvalue, hframe, hsound⟩ := hvalueOp
  obtain ⟨_, happly, hfollows', hmeta, hframe', hsound'⟩ :=
    mid.apply_leaves (x := x) (o := .put (metaKey key) metaVal) rfl
  cases happly
  rw [hst']
  refine ⟨hfollows.trans hfollows', ?_, hmeta, ?_, fun h => hsound' (hsound h)⟩
  · exact hvalue.mono hfollows' (hframe' key (metaKey_ne key).symm)
  · intro other hkey hsidecar
    rw [hframe' other hsidecar, hframe other hkey]

theorem Registered.mono {st' : Store} {key : Bytes} {r : Option Entry}
    (h : Registered x st key r) (hfollows : st.zstd.Follows st'.zstd)
    (hkey : st'.find x key = st.find x key)
    (hmeta : st'.find x (metaKey key) = st.find x (metaKey key)) : Registered x st' key r := by
  cases r with
  | none =>
      rw [Registered, hkey, hmeta]
      exact h
  | some r =>
      obtain ⟨hvalue, metaVal, hobject, hsidecar⟩ := h
      exact ⟨hvalue.mono hfollows hkey, metaVal, hobject, hsidecar.mono hfollows hmeta⟩

theorem Represents.commitWrite (hl : x.lite3.Lawful) (h : Represents x st entries) {key : Bytes}
    (hkey : UserKey key) (body : Bytes) (isDelete : Bool) {ts : Timestamp} {metaVal : Bytes}
    (hmeta : metaObject x.lite3 ts isDelete = some metaVal) :
    Represents x (st.commitWrite x key body isDelete metaVal)
      (Function.update entries key (some (writtenEntry x.lite3 ts body isDelete))) := by
  obtain ⟨hfollows, hvalue, hsidecar, hframe, hsound⟩ :=
    commitWrite_spec (x := x) st key body isDelete metaVal
  rw [storedForm_container (ReadsMeta.of_metaObject hl hmeta).container] at hsidecar
  constructor
  · intro other hother
    by_cases heq : other = key
    · subst heq
      rw [Function.update_self]
      exact ⟨hvalue, metaVal, hmeta, hsidecar⟩
    · rw [Function.update_of_ne heq]
      apply (h.here other hother).mono hfollows
      · exact hframe other heq (hkey.metaKey_ne hother).symm
      · apply hframe (metaKey other) (hother.metaKey_ne hkey)
        intro hsame
        exact heq (hother.metaKey_inj hkey hsame)
  · intro other hfind
    by_cases heq : other = key
    · exact ⟨key, hkey, Or.inl heq⟩
    · by_cases hsame : other = metaKey key
      · exact ⟨key, hkey, Or.inr hsame⟩
      · rw [hframe other heq hsame] at hfind
        exact h.only other hfind
  · exact hsound h.sound

theorem leaves_metaObject (hl : x.lite3.Lawful) {ts : Timestamp} {tombstone : Bool}
    {metaVal : Bytes} (h : metaObject x.lite3 ts tombstone = some metaVal) (mkey : Bytes) :
    (ShardOp.put mkey metaVal).Leaves x.lite3 metaVal :=
  (storedForm_container (ReadsMeta.of_metaObject hl h).container).symm

theorem Underway.step (hl : x.lite3.Lawful) {key : Bytes} {r : Entry} {o : ShardOp}
    {ops : List ShardOp} (h : Underway x st key r (o :: ops)) :
    ∃ st', st.apply x o = some st' ∧ Underway x st' key r ops ∧ st.zstd.Follows st'.zstd ∧
      ∀ other, other ≠ o.key → st'.find x other = st.find x other := by
  rcases h with ⟨o', metaVal, hops, hkey, hleaves, hmeta⟩ | ⟨metaVal, hops, hmeta, hvalue⟩ | ⟨hops, -⟩
  · obtain ⟨rfl, rfl⟩ := List.cons.inj hops
    obtain ⟨st', happly, hfollows, hholding, hframe, -⟩ := st.apply_leaves hleaves
    refine ⟨st', happly, .inr (.inl ⟨metaVal, rfl, hmeta, ?_⟩), hfollows, hframe⟩
    rw [hkey] at hholding
    exact hholding
  · obtain ⟨rfl, rfl⟩ := List.cons.inj hops
    obtain ⟨st', happly, hfollows, hholding, hframe, -⟩ :=
      st.apply_leaves (leaves_metaObject hl hmeta (metaKey key))
    refine ⟨st', happly, .inr (.inr ⟨rfl, ?_, metaVal, hmeta, hholding⟩), hfollows, hframe⟩
    exact hvalue.mono hfollows (hframe key (metaKey_ne key).symm)
  · cases hops

theorem get_eq_read {key : Bytes} {b : Blob} (h : st.find x key = some b) :
    st.get x key adminUid = b.read x.zstd st.zstd := by
  simp [Store.get, h]

theorem get_eq_nil {key : Bytes} (h : st.find x key = none) : st.get x key adminUid = [] := by
  simp [Store.get, h]

theorem Store.Holding.get_eq (hz : x.zstd.Lossless) {key content : Bytes}
    (h : st.Holding x key content) (hlen : content.length < 2 ^ 32) :
    st.get x key adminUid = content := by
  obtain ⟨b, hb, hholds⟩ := h
  rw [get_eq_read hb]
  exact hholds.read hz hlen

theorem Registered.get_value (hz : x.zstd.Lossless) {key : Bytes} {r : Entry}
    (h : Registered x st key (some r)) (hlen : r.value.length < 2 ^ 32) :
    st.get x key adminUid = r.value :=
  h.1.get_eq hz hlen

theorem Registered.get_meta (hz : x.zstd.Lossless) (hsmall : SmallMeta x.lite3) {key : Bytes}
    {r : Entry} (h : Registered x st key (some r)) :
    metaObject x.lite3 r.stamp r.tombstone = some (st.get x (metaKey key) adminUid) := by
  obtain ⟨-, metaVal, hobject, hsidecar⟩ := h
  rw [hsidecar.get_eq hz (lt_trans (hsmall _ _ _ hobject) (by decide)), hobject]

theorem Registered.localTimestamp (hl : x.lite3.Lawful) (hz : x.zstd.Lossless)
    (hsmall : SmallMeta x.lite3) {key : Bytes} {r : Option Entry} (h : Registered x st key r) :
    localTimestamp x.lite3 (st.get x (metaKey key) adminUid) =
      some (registerStamp Entry.stamp Timestamp.zero r) := by
  cases r with
  | none =>
      rw [get_eq_nil h.2]
      rfl
  | some r =>
      exact localTimestamp_reads (ReadsMeta.of_metaObject hl (h.get_meta hz hsmall))

theorem Registered.state_eq (hl : x.lite3.Lawful) (hz : x.zstd.Lossless)
    (hsmall : SmallMeta x.lite3) {key : Bytes} {r : Option Entry} (h : Registered x st key r)
    (hlen : ∀ e ∈ r, e.value.length < 2 ^ 32) : st.stateOf x key = Entry.state r := by
  have hlocal := h.localTimestamp hl hz hsmall
  cases r with
  | none =>
      have hvalue : st.get x key adminUid = [] := get_eq_nil h.1
      have hmeta : st.get x (metaKey key) adminUid = [] := get_eq_nil h.2
      rw [hmeta] at hlocal
      simp only [Store.stateOf, hvalue, hmeta, hlocal, Entry.state]
      rfl
  | some r =>
      have hvalue := h.get_value hz (hlen r rfl)
      have hreads := ReadsMeta.of_metaObject hl (h.get_meta hz hsmall)
      simp only [Store.stateOf, hvalue, hlocal, tombstoneFlag_reads hreads, Entry.state]
      rfl

/-- The hash the tree accounts for under a key with this entry, when nothing is compressed. -/
def valueHash (x : External) : Option Entry → UInt64
  | none => 0
  | some r => x.xxh3 r.value

@[inherit_doc valueHash]
def sidecarHash (x : External) : Option Entry → UInt64
  | none => 0
  | some r => (metaObject x.lite3 r.stamp r.tombstone).elim 0 x.xxh3

theorem Registered.keyHash {key : Bytes} {r : Option Entry} (h : Registered x st key r)
    (hdict : st.zstd.dict = none) :
    st.keyHash x key = valueHash x r ∧ st.keyHash x (metaKey key) = sidecarHash x r := by
  cases r with
  | none => simp [Store.keyHash, h.1, h.2, valueHash, sidecarHash, Store.hashOf]
  | some r =>
      obtain ⟨⟨b, hb, hv⟩, metaVal, hobject, c, hc, hm⟩ := h
      simp [Store.keyHash, Store.hashOf, hb, hc, (hv.plain hdict).2, (hm.plain hdict).2, valueHash,
        sidecarHash, hobject]

theorem Represents.keyHash_zero (h : Represents x st entries) {key : Bytes}
    (hkey : ¬ ∃ user, UserKey user ∧ (key = user ∨ key = metaKey user)) :
    st.keyHash x key = 0 := by
  by_contra hne
  exact hkey (h.only key (Store.keyHash_ne_zero hne))

end

end L3KV
