import L3KV.Engine.Readable
import L3KV.Sync.Handlers

/-!
# Sidecars next to other keys

A write touches its key and the key its sidecar has. Whatever else is looked up in the store,
for `get`, for `apply_mutation` or for `on_get_val`, is looked up under other keys as long as
the names do not run into each other.
-/

namespace L3KV

open Framework

/-- What is looked up for a key: the value `get` returns, the timestamp `apply_mutation` compares
with, and the timestamp and tombstone in the metadata `on_get_val` sends. -/
def Store.lookups (x : External) (st : Store) (key : Bytes) :
    Bytes × Option Timestamp × ParsedMeta :=
  (st.get x key adminUid, localTimestamp x.lite3 (st.get x (metaKey key) adminUid),
    parseMeta x.lite3 (st.get x (key ++ ascii ":meta") adminUid))

/-- No `put` or `del` of the one key changes what is looked up for the other. -/
def Frames (x : External) (u : Nat → Nat → UInt8) (key other : Bytes) : Prop :=
  ∀ (e : Engine) (call : Call) (r : Engine × CallResult), e.store.Reachable x → e.Idle →
    call.WritesLocally key → e.call x u call = some r →
      r.1.store.lookups x other = e.store.lookups x other

/-- After a `put`, `on_get_val` finds the metadata that it wrote. -/
def FindsSidecar (x : External) (u : Nat → Nat → UInt8) (key : Bytes) : Prop :=
  ∀ (e : Engine) (body : Bytes) (principal : UInt32) (readings : List Int64)
    (stamp : Timestamp × HybridLogicalClock), e.store.Reachable x → e.Idle →
    (e.store.credentials.checkPermission principal key).canWrite →
    e.clock.now readings = some stamp →
      ∃ r, e.call x u (.put key body principal readings) = some r ∧
        metaObject x.lite3 stamp.1 false = some (r.1.store.get x (key ++ ascii ":meta") adminUid)

section

variable {x : External} {u : Nat → Nat → UInt8}

/-- Two different keys whose names do not run into each other: neither is a sidecar of the other,
under the name `apply_mutation` gives it or under the one `on_get_val` gives it, and they do not
share a sidecar. -/
structure Apart (key other : Bytes) : Prop where
  value : metaKey key ≠ other
  stamp : key ≠ metaKey other
  sent : key ≠ other ++ ascii ":meta"
  sidecar : metaKey key ≠ metaKey other

private theorem frames_of_apart (hl : x.lite3.Lawful) {key other : Bytes} (hne : key ≠ other)
    (hplain : PlainKey key) (hapart : Apart key other) : Frames x u key other := by
  intro e call r hreach hidle hcall hr
  obtain ⟨-, ⟨-, hstore⟩ | ⟨ts, body, isDelete, metaVal, -, -, hstore⟩⟩ :=
    call_writes hl hidle hcall hr
  · rw [hstore]
  · obtain ⟨hfollows, -, -, hframe, -⟩ :=
      commitWrite_spec (x := x) e.store key body isDelete metaVal
    rw [← hstore] at hfollows hframe
    have hget {k : Bytes} (hkey : k ≠ key) (hsidecar : k ≠ metaKey key) :
        r.1.store.get x k adminUid = e.store.get x k adminUid :=
      hreach.readable.get_eq hfollows (hframe k hkey hsidecar)
    have hsent : other ++ ascii ":meta" ≠ metaKey key := by
      intro h
      exact hne (List.append_cancel_right (hplain.symm.trans h.symm))
    rw [Store.lookups, hget hne.symm hapart.value.symm, hget hapart.stamp.symm hapart.sidecar.symm,
      hget hapart.sent.symm hsent]
    rfl

private theorem findsSidecar_of_plain (hx : x.Lawful) {key : Bytes} (hplain : PlainKey key) :
    FindsSidecar x u key := by
  intro e body principal readings stamp _ hidle hcan hnow
  obtain ⟨r, metaVal, hr, hmeta, -, hstore⟩ := call_put (u := u) hx.lite3 hidle hcan hnow body
  obtain ⟨-, -, hsidecar, -⟩ := commitWrite_spec (x := x) e.store key body false metaVal
  rw [← hstore, storedForm_container (ReadsMeta.of_metaObject hx.lite3 hmeta).container] at hsidecar
  refine ⟨r, hr, ?_⟩
  rw [hmeta, ← hplain, hsidecar.get_eq hx.zstd (lt_trans (hx.smallMeta _ _ _ hmeta) (by decide))]

/-- The first timestamp of a fresh engine of node 1. -/
private def firstStamp : Timestamp := ⟨1, 0, 1⟩

private theorem first_put (hx : x.Lawful) (key : Bytes) {body : Bytes}
    (hlen : (storedForm x.lite3 body).length < 2 ^ 32) :
    ∃ r metaVal, (Engine.openOn x 1 []).call x u (.put key body adminUid [1]) = some r ∧
      metaObject x.lite3 firstStamp false = some metaVal ∧
      r.1.store.get x key adminUid = storedForm x.lite3 body ∧
      r.1.store.get x (metaKey key) adminUid = metaVal ∧
      ∀ other, other ≠ key → other ≠ metaKey key → r.1.store.get x other adminUid = [] := by
  have hnow : (Engine.openOn x 1 []).clock.now [1] = some (firstStamp, ⟨1, 0, 1⟩) := by rfl
  have hcan : ((Engine.openOn x 1 []).store.credentials.checkPermission adminUid key).canWrite := by
    simp
  obtain ⟨r, metaVal, hr, hmeta, -, hstore⟩ :=
    call_put (u := u) hx.lite3 (Engine.openOn_idle 1) hcan hnow body
  obtain ⟨-, hvalue, hsidecar, hframe, -⟩ :=
    commitWrite_spec (x := x) (Engine.openOn x 1 []).store key body false metaVal
  rw [← hstore] at hvalue hsidecar hframe
  rw [storedForm_container (ReadsMeta.of_metaObject hx.lite3 hmeta).container] at hsidecar
  refine ⟨r, metaVal, hr, hmeta, hvalue.get_eq hx.zstd hlen, ?_, ?_⟩
  · exact hsidecar.get_eq hx.zstd (lt_trans (hx.smallMeta _ _ _ hmeta) (by decide))
  · intro other hkey hmetaKey
    apply get_eq_nil
    have hfresh : (Engine.openOn x 1 []).store = Store.init x := rfl
    rw [hframe other hkey hmetaKey, hfresh]
    simp [Store.find, Store.init]

private theorem fresh_lookups (x : External) (key : Bytes) :
    (Engine.openOn x 1 []).store.lookups x key = ([], some Timestamp.zero, ⟨Timestamp.zero, false⟩) := by
  have hget (k : Bytes) : (Engine.openOn x 1 []).store.get x k adminUid = [] := by
    have hfresh : (Engine.openOn x 1 []).store = Store.init x := rfl
    rw [hfresh]
    exact get_eq_nil (by simp [Store.find, Store.init])
  rw [Store.lookups, hget, hget, hget]
  rfl

/-- Each way in which the names can run into each other is seen after the first `put`. -/
theorem Frames.apart (hx : x.Lawful) {key other : Bytes} (h : Frames x u key other) :
    Apart key other := by
  -- The value to be put is chosen such that it reads as metadata where it is taken for them.
  obtain ⟨body, hbody, hreads⟩ := metaObject_reads hx.lite3 firstStamp false
  have hform : storedForm x.lite3 body = body := storedForm_container hreads.container
  have hlen : (storedForm x.lite3 body).length < 2 ^ 32 := by
    rw [hform]
    exact lt_trans (hx.smallMeta _ _ _ hbody) (by decide)
  obtain ⟨r, metaVal, hr, hmeta, hvalue, hsidecar, -⟩ := first_put (u := u) hx key hlen
  have hmetaReads := ReadsMeta.of_metaObject hx.lite3 hmeta
  have hsame := h _ _ r (Store.reachable_init x) (Engine.openOn_idle 1) (.put body adminUid [1]) hr
  rw [fresh_lookups, Store.lookups] at hsame
  have hget := congrArg Prod.fst hsame
  have hstamp := congrArg (fun l => l.2.1) hsame
  have hsent := congrArg (fun l => l.2.2) hsame
  dsimp only at hget hstamp hsent
  have hnonzero : (some firstStamp : Option Timestamp) ≠ some Timestamp.zero := by decide
  constructor
  · intro heq
    rw [← heq, hsidecar] at hget
    exact hmetaReads.ne_nil hget
  · intro heq
    rw [← heq, hvalue, hform, localTimestamp_reads hreads] at hstamp
    exact hnonzero hstamp
  · intro heq
    rw [← heq, hvalue, hform, parseMeta_reads hreads] at hsent
    exact absurd (congrArg (fun m => m.ts.nodeId) hsent) (by decide)
  · intro heq
    rw [← heq, hsidecar, localTimestamp_reads hmetaReads] at hstamp
    exact hnonzero hstamp

theorem FindsSidecar.plain (hx : x.Lawful) {key : Bytes} (h : FindsSidecar x u key) :
    PlainKey key := by
  by_contra hplain
  have hlen : (storedForm x.lite3 []).length < 2 ^ 32 := by simp [Blob.storedForm_nil]
  obtain ⟨r, metaVal, hr, hmeta, -, -, hrest⟩ := first_put (u := u) hx key hlen
  obtain ⟨r', hr', hfound⟩ := h _ [] adminUid [1] (firstStamp, ⟨1, 0, 1⟩) (Store.reachable_init x)
    (Engine.openOn_idle 1) (by simp) rfl
  obtain rfl := Option.some.inj (hr.symm.trans hr')
  have hne : key ++ ascii ":meta" ≠ key := by simp [ascii]
  rw [hrest _ hne fun heq => hplain heq.symm] at hfound
  exact (ReadsMeta.of_metaObject hx.lite3 hfound).ne_nil rfl

/-- The frame law of the sidecars holds for two keys if and only if the sidecar of the written key
has the name that `on_get_val` looks for and the names of the two do not run into each other. -/
theorem frames_iff (hx : x.Lawful) (u : Nat → Nat → UInt8) {key other : Bytes} (hne : key ≠ other) :
    (Frames x u key other ∧ FindsSidecar x u key) ↔ (PlainKey key ∧ Apart key other) := by
  constructor
  · rintro ⟨hframes, hfinds⟩
    exact ⟨hfinds.plain hx, hframes.apart hx⟩
  · rintro ⟨hplain, hapart⟩
    exact ⟨frames_of_apart hx.lite3 hne hplain hapart, findsSidecar_of_plain hx hplain⟩

theorem frames_iff_plain_names :
    Frames (External.reference fun _ => 0) (fun _ _ => 0) (ascii "a") (ascii "b") ∧
      FindsSidecar (External.reference fun _ => 0) (fun _ _ => 0) (ascii "a") := by
  refine (frames_iff (External.reference_lawful _) _ (by decide)).mpr ⟨?_, ?_⟩
  · unfold PlainKey
    decide
  · constructor <;> decide

/-- A key that ends in `:meta` is the sidecar of another. -/
theorem not_frames_own_sidecar :
    ascii "a" ≠ ascii "a:meta" ∧
      ¬ (Frames (External.reference fun _ => 0) (fun _ _ => 0) (ascii "a") (ascii "a:meta") ∧
        FindsSidecar (External.reference fun _ => 0) (fun _ _ => 0) (ascii "a")) := by
  refine ⟨by decide, ?_⟩
  rintro ⟨hframes, -⟩
  exact (hframes.apart (External.reference_lawful _)).value (by decide)

end

end L3KV
