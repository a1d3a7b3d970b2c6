import L3KV.Engine.Invariant
import L3KV.Engine.Writes

/-!
# Stores without a dictionary

As long as no dictionary was trained every blob is stored as it is. Then `get` returns it whatever
its length, and the leaves of the tree are a function of the entries alone.
-/

namespace L3KV

open Framework

/-- What an entry and its sidecar add to the leaf of a bucket. -/
def contribution (x : External) (b : Fin 65536) (key : Bytes) (r : Option Entry) : UInt64 :=
  (if bucketOf x.xxh3 key = b then valueHash x r else 0) ^^^
    if bucketOf x.xxh3 (metaKey key) = b then sidecarHash x r else 0

/-- A `put`, `del` or `apply_mutation` of a user key. -/
inductive Call.WritesUser : Call → Prop
  | locally {key : Bytes} {call : Call} (hkey : UserKey key) (h : call.WritesLocally key) :
      WritesUser call
  | mutation {m : Mutation} (hkey : UserKey m.key) : WritesUser (.applyMutation m)

/-- The engine is reached by such calls on a fresh one. -/
def Engine.WrittenByUsers (x : External) (e : Engine) : Prop :=
  ∃ u nodeId calls, (∀ call ∈ calls, Call.WritesUser call) ∧
    (Engine.openOn x nodeId []).runCalls x u calls = some e

/-- Every entry is one that a write leaves. -/
def AllWritten (l : Lite3) (entries : Bytes → Option Entry) : Prop :=
  ∀ key r, entries key = some r → ∃ ts body isDelete, r = writtenEntry l ts body isDelete

section

variable {x : External} {st : Store} {entries : Bytes → Option Entry}

theorem Registered.get_plain {key : Bytes} {r : Option Entry} (h : Registered x st key r)
    (hdict : st.zstd.dict = none) : st.get x key adminUid = r.elim [] Entry.value := by
  cases r with
  | none => exact get_eq_nil h.1
  | some r =>
      obtain ⟨⟨b, hb, hholds⟩, -⟩ := h
      obtain ⟨hplain, hbuf⟩ := hholds.plain hdict
      rw [get_eq_read hb]
      simp [Blob.read, hplain, hbuf]

theorem Registered.state_plain (hx : x.Lawful) {key : Bytes} {r : Option Entry}
    (h : Registered x st key r) (hdict : st.zstd.dict = none) :
    st.stateOf x key = Entry.state r := by
  have hvalue := h.get_plain hdict
  have hlocal := h.localTimestamp hx.lite3 hx.zstd hx.smallMeta
  cases r with
  | none =>
      have hmeta : st.get x (metaKey key) adminUid = [] := get_eq_nil h.2
      rw [hmeta] at hlocal
      simp only [Store.stateOf, hvalue, hmeta, hlocal, Entry.state]
      rfl
  | some r =>
      have hreads := ReadsMeta.of_metaObject hx.lite3 (h.get_meta hx.zstd hx.smallMeta)
      simp only [Store.stateOf, hvalue, hlocal, tombstoneFlag_reads hreads, Entry.state]
      rfl

theorem Represents.stored (h : Represents x st entries) (hdict : st.zstd.dict = none) {key : Bytes}
    {b : Blob} (hfind : st.find x key = some b) :
    ∃ user r, UserKey user ∧ entries user = some r ∧ ((key = user ∧ b.buf = r.value) ∨
      (key = metaKey user ∧ metaObject x.lite3 r.stamp r.tombstone = some b.buf)) := by
  obtain ⟨user, huser, hkey⟩ := h.only key (by simp [hfind])
  have hreg := h.here user huser
  cases hr : entries user with
  | none =>
      rw [hr] at hreg
      rcases hkey with rfl | rfl
      · cases hreg.1.symm.trans hfind
      · cases hreg.2.symm.trans hfind
  | some r =>
      rw [hr] at hreg
      obtain ⟨⟨b', hb', hholds⟩, metaVal, hmeta, c, hc, hsidecar⟩ := hreg
      refine ⟨user, r, huser, hr, ?_⟩
      rcases hkey with rfl | rfl
      · cases hb'.symm.trans hfind
        exact Or.inl ⟨rfl, (hholds.plain hdict).2⟩
      · cases hc.symm.trans hfind
        rw [hmeta, (hsidecar.plain hdict).2]
        exact Or.inr ⟨rfl, rfl⟩

theorem Represents.leaf_eq (h : Represents x st entries) (hdict : st.zstd.dict = none)
    {users : Finset Bytes} (husers : ∀ user ∈ users, UserKey user)
    (hcover : ∀ user, UserKey user → entries user ≠ none → user ∈ users) (b : Fin 65536) :
    st.merkle.leaves b = xorSum users fun user => contribution x b user (entries user) := by
  have hkeys (key : Bytes) (hfind : st.find x key ≠ none) : key ∈ users ∪ users.image metaKey := by
    obtain ⟨user, huser, hkey⟩ := h.only key hfind
    have hmem : user ∈ users := by
      refine hcover user huser fun hnone => hfind ?_
      have hreg := h.here user huser
      rw [hnone] at hreg
      rcases hkey with rfl | rfl
      · exact hreg.1
      · exact hreg.2
    rcases hkey with rfl | rfl
    · exact Finset.mem_union_left _ hmem
    · exact Finset.mem_union_right _ (Finset.mem_image_of_mem _ hmem)
  have hdisjoint : Disjoint users (users.image metaKey) := by
    rw [Finset.disjoint_left]
    intro user huser himage
    obtain ⟨other, hother, heq⟩ := Finset.mem_image.mp himage
    exact (husers other hother).metaKey_ne (husers user huser) heq
  have hinj : Set.InjOn metaKey (users : Set Bytes) := fun user huser other hother =>
    (husers user huser).metaKey_inj (husers other hother)
  rw [h.sound.leaf_eq hkeys, Store.inBucket, xorSum_filter, xorSum_union hdisjoint,
    xorSum_image hinj, ← xorSum_xor]
  refine xorSum_congr fun user huser => ?_
  have hhash := (h.here user (husers user huser)).keyHash hdict
  simp only [Function.comp_apply, contribution, hhash.1, hhash.2]

theorem AllWritten.update {l : Lite3} (h : AllWritten l entries) {key : Bytes} {r : Option Entry}
    (hr : ∀ e ∈ r, ∃ ts body isDelete, e = writtenEntry l ts body isDelete) :
    AllWritten l (Function.update entries key r) := by
  intro other e he
  by_cases heq : other = key
  · subst heq
    rw [Function.update_self] at he
    exact hr e he
  · rw [Function.update_of_ne heq] at he
    exact h other e he

private theorem call_writesUser (hx : x.Lawful) {u : Nat → Nat → UInt8} {e : Engine}
    (h : Represents x e.store entries) (hidle : e.Idle) (hwritten : AllWritten x.lite3 entries)
    {call : Call} (hcall : call.WritesUser) {r : Engine × CallResult}
    (hr : e.call x u call = some r) :
    ∃ entries', Represents x r.1.store entries' ∧ r.1.Idle ∧ AllWritten x.lite3 entries' := by
  cases hcall with
  | locally hkey hlocal =>
      obtain ⟨hidle', hrep⟩ := call_local hx h hidle hkey hlocal hr
      refine ⟨_, hrep, hidle', ?_⟩
      cases hw : call.written x e with
      | none => exact hwritten
      | some w =>
          refine hwritten.update fun entry hentry => ?_
          cases hentry
          exact (Call.written_eq_some hlocal hw).2
  | @mutation m hkey =>
      obtain ⟨r', hr', -, hqueues, hrep⟩ := call_applyMutation hx h hkey u
      cases hr'.symm.trans hr
      refine ⟨_, hrep, fun shard => by rw [hqueues]; exact hidle shard, hwritten.update ?_⟩
      intro entry hentry
      rw [mergeInto] at hentry
      split at hentry
      · cases hentry
        exact ⟨m.timestamp, m.value, m.isDelete, rfl⟩
      · exact hwritten m.key entry hentry

theorem Engine.WrittenByUsers.represents (hx : x.Lawful) {e : Engine} (h : e.WrittenByUsers x) :
    ∃ entries, Represents x e.store entries ∧ e.Idle ∧ AllWritten x.lite3 entries := by
  obtain ⟨u, nodeId, calls, hcalls, hrun⟩ := h
  have hgeneral : ∀ (e₀ : Engine) (entries₀ : Bytes → Option Entry),
      Represents x e₀.store entries₀ → e₀.Idle → AllWritten x.lite3 entries₀ →
      e₀.runCalls x u calls = some e →
      ∃ entries, Represents x e.store entries ∧ e.Idle ∧ AllWritten x.lite3 entries := by
    clear hrun
    induction calls with
    | nil =>
        intro e₀ entries₀ hrep hidle hwritten hrun
        cases hrun
        exact ⟨entries₀, hrep, hidle, hwritten⟩
    | cons call calls ih =>
        intro e₀ entries₀ hrep hidle hwritten hrun
        obtain ⟨r, hr, hrest⟩ := Option.bind_eq_some_iff.mp hrun
        obtain ⟨entries₁, hrep', hidle', hwritten'⟩ :=
          call_writesUser hx hrep hidle hwritten (hcalls call (by simp)) hr
        exact ih (fun c hc => hcalls c (by simp [hc])) r.1 entries₁ hrep' hidle' hwritten' hrest
  refine hgeneral _ (fun _ => none) (represents_fresh x nodeId) (Engine.openOn_idle nodeId) ?_ hrun
  intro key r hr
  cases hr

theorem Store.keeps_untrained (h : ∀ samples capacity, x.zstd.trainFromBuffer samples capacity = none) :
    Store.Keeps x fun st => st.zstd.dict = none := by
  have hsample (m : ZstdManager) (data : Bytes) : (m.addSample x.zstd data).dict = m.dict := by
    simp only [ZstdManager.addSample, ZstdManager.trainDictionary, h]
    split
    · rfl
    · split
      · split <;> rfl
      · rfl
  have hoverwrite (m : ZstdManager) (data : Bytes) :
      (Blob.overwrite x.lite3 x.zstd m data).2.dict = m.dict := by
    simp only [Blob.overwrite]
    split <;> split <;> first | rfl | exact hsample m data
  have hpatch {st st' : Store} {key : Bytes} {set : Blob → Option Blob}
      (hst' : st.applyPatch x key set = some st') : st'.zstd = st.zstd := by
    obtain ⟨b, -, rfl⟩ := Option.map_eq_some_iff.mp hst'
    rfl
  intro st o st' hst hst'
  cases o with
  | put key body =>
      cases hst'
      exact (hoverwrite _ _).trans hst
  | del key =>
      cases hst'
      exact hst
  | patchInt key field value => exact (congrArg ZstdManager.dict (hpatch hst')).trans hst
  | patchStr key field value => exact (congrArg ZstdManager.dict (hpatch hst')).trans hst

/-- One mutation on a fresh engine, with a trainer that never succeeds. -/
theorem exists_applied (hx : x.Lawful)
    (huntrained : ∀ samples capacity, x.zstd.trainFromBuffer samples capacity = none)
    (nodeId : UInt32) {m : Mutation} (hkey : UserKey m.key) (hpos : Timestamp.zero < m.timestamp)
    (u : Nat → Nat → UInt8) :
    ∃ e, (Engine.openOn x nodeId []).runCalls x u [.applyMutation m] = some e ∧
      Represents x e.store (Function.update (fun _ => none) m.key (some (m.entry x.lite3))) ∧
      e.store.zstd.dict = none := by
  obtain ⟨r, hcall, -, -, hrep⟩ := call_applyMutation hx (represents_fresh x nodeId) hkey u
  have hmerge : mergeInto Entry.stamp Timestamp.zero none (m.entry x.lite3) =
      some (m.entry x.lite3) := if_pos hpos
  rw [hmerge] at hrep
  refine ⟨r.1, by simp [Engine.runCalls, hcall], hrep, ?_⟩
  exact (Store.keeps_untrained huntrained).call rfl hcall

section

variable {key : Bytes} {r : Entry}
  (h : Represents x st (Function.update (fun _ => none) key (some r))) (hdict : st.zstd.dict = none)

include h hdict

theorem Represents.leaf_single (hkey : UserKey key) (b : Fin 65536) :
    st.merkle.leaves b = contribution x b key (some r) := by
  have husers : ∀ user ∈ ({key} : Finset Bytes), UserKey user := by simpa using hkey
  have hcover (user : Bytes) (_ : UserKey user)
      (hne : Function.update (fun _ => none) key (some r) user ≠ none) :
      user ∈ ({key} : Finset Bytes) := by
    by_contra hout
    rw [Function.update_of_ne (by simpa using hout)] at hne
    exact hne rfl
  rw [h.leaf_eq hdict husers hcover, xorSum_singleton, Function.update_self]

theorem Represents.stored_single {other : Bytes} {blob : Blob}
    (hfind : st.find x other = some blob) : (other = key ∧ blob.buf = r.value) ∨
      (other = metaKey key ∧ metaObject x.lite3 r.stamp r.tombstone = some blob.buf) := by
  obtain ⟨user, entry, -, hentry, hstored⟩ := h.stored hdict hfind
  by_cases huser : user = key
  · subst huser
    rw [Function.update_self] at hentry
    cases hentry
    exact hstored
  · rw [Function.update_of_ne huser] at hentry
    cases hentry

end

end

end L3KV
