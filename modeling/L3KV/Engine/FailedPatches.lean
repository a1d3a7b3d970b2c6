import L3KV.Engine.PatchReplay

/-!
# Patches that throw

A patch is logged before its two updates run, and its task ends at the first of them that throws.
Of the updates that are logged, recovery skips those that throw and no other.
-/

namespace L3KV

open Framework

/-- The same store, but for the inner nodes of the tree that are up to date. -/
structure Store.Alike (st st' : Store) : Prop where
  shards : st'.shards = st.shards
  leaves : st'.merkle.leaves = st.merkle.leaves
  zstd : st'.zstd = st.zstd
  credentials : st'.credentials = st.credentials

/-- The operation throws, or leaves everything as it is. -/
def Store.Unmoved (x : External) (st : Store) (o : ShardOp) : Prop :=
  ∀ st', st.apply x o = some st' → st.Alike st'

/-- The log holds these batches, and replaying them rebuilds the store; no task is pending. -/
structure Rebuilt (x : External) (batches : List (List BatchOp)) (e : Engine) : Prop where
  store : e.store.Alike (batches.flatten.foldl (Store.replay x) (Store.init x))
  bytes : e.wal.bytes = (batchCalls batches).flatMap LogCall.bytes
  atEnd : e.wal.AtEnd
  fits : ∀ b ∈ batches, BatchFits b
  idle : e.Idle

section

variable {x : External} {st st' st'' : Store} {o : ShardOp}

theorem Store.Alike.refl (st : Store) : st.Alike st := ⟨rfl, rfl, rfl, rfl⟩

theorem Store.Alike.symm (h : st.Alike st') : st'.Alike st :=
  ⟨h.shards.symm, h.leaves.symm, h.zstd.symm, h.credentials.symm⟩

theorem Store.Alike.trans (h : st.Alike st') (h' : st'.Alike st'') : st.Alike st'' :=
  ⟨h'.shards.trans h.shards, h'.leaves.trans h.leaves, h'.zstd.trans h.zstd,
    h'.credentials.trans h.credentials⟩

private theorem Store.Alike.find_eq (h : st.Alike st') (key : Bytes) :
    st'.find x key = st.find x key := by
  rw [Store.find, Store.find, h.shards]

theorem Store.Alike.get_eq (h : st.Alike st') (key : Bytes) (principal : UInt32) :
    st'.get x key principal = st.get x key principal := by
  rw [Store.get, Store.get, h.find_eq, h.credentials, h.zstd]

theorem Store.Alike.install (h : st.Alike st') (key : Bytes) (b : Blob) :
    (st.install x key b).Alike (st'.install x key b) := by
  refine ⟨?_, ?_, h.zstd, h.credentials⟩
  · simp only [Store.install, h.shards]
  · simp only [Store.install, MerkleTree.applyDelta, h.leaves, h.find_eq]

theorem Store.Alike.apply (h : st.Alike st') (o : ShardOp) :
    Option.Rel Store.Alike (st.apply x o) (st'.apply x o) := by
  have hpatch (key : Bytes) (set : ZstdManager → Blob → Option Blob) :
      Option.Rel Store.Alike (st.applyPatch x key (set st.zstd))
        (st'.applyPatch x key (set st'.zstd)) := by
    simp only [Store.applyPatch, h.find_eq, h.zstd]
    cases set st.zstd _ with
    | none => exact .none
    | some b => exact .some (h.install key b)
  cases o with
  | put key body =>
      simp only [Store.apply, Store.applyPut, h.zstd, h.credentials]
      have hstart : ({ st with zstd := (Blob.overwrite x.lite3 x.zstd st.zstd body).2 } : Store).Alike
          { st' with zstd := (Blob.overwrite x.lite3 x.zstd st.zstd body).2 } :=
        ⟨h.shards, h.leaves, rfl, h.credentials⟩
      have hput := hstart.install (x := x) key (Blob.overwrite x.lite3 x.zstd st.zstd body).1
      exact .some ⟨hput.shards, hput.leaves, rfl, by simp⟩
  | patchInt key field value => exact hpatch key fun m => Blob.setInt x.lite3 x.zstd m field value
  | patchStr key field value => exact hpatch key fun m => Blob.setStr x.lite3 x.zstd m field value
  | del key => exact .some (h.install key _)

private theorem Store.Alike.apply_getD (h : st.Alike st') (o : ShardOp) :
    ((st.apply x o).getD st).Alike ((st'.apply x o).getD st') := by
  have hrel := h.apply (x := x) o
  generalize st.apply x o = next at hrel ⊢
  generalize st'.apply x o = next' at hrel ⊢
  cases hrel with
  | none => exact h
  | some hnext => exact hnext

private theorem Store.unmoved_iff {o' : ShardOp} (hthrew : (st.runTask x [o, o']).2 = false)
    {rebuilt : Store} (hrebuilt : (((st.apply x o).getD st).apply x o' |>.getD
      ((st.apply x o).getD st)).Alike rebuilt) :
    st.Alike (st.runTask x [o, o']).1 ∧ (st.runTask x [o, o']).1.Alike rebuilt ↔
      st.Unmoved x o ∧ st.Unmoved x o' := by
  cases hfirst : st.apply x o with
  | none =>
      -- the task ends at once, and the replay goes on with the second update
      have hlive : st.runTask x [o, o'] = (st, false) := by rw [Store.runTask, hfirst]
      rw [hfirst, Option.getD_none] at hrebuilt
      rw [hlive]
      constructor
      · rintro ⟨-, hsame⟩
        refine ⟨fun st' h => (by simp [hfirst] at h), fun st' h => ?_⟩
        rw [h, Option.getD_some] at hrebuilt
        exact hsame.trans hrebuilt.symm
      · rintro ⟨-, hsecond⟩
        refine ⟨.refl st, ?_⟩
        cases happly : st.apply x o' with
        | none =>
            rw [happly] at hrebuilt
            exact hrebuilt
        | some st' =>
            rw [happly] at hrebuilt
            exact (hsecond st' happly).trans hrebuilt
  | some st' =>
      -- the first update stays in the store, and the second one throws in both
      have hsecond : st'.apply x o' = none := by
        cases happly : st'.apply x o' with
        | none => rfl
        | some st'' =>
            rw [Store.runTask, hfirst] at hthrew
            simp [Store.runTask, happly] at hthrew
      have hlive : st.runTask x [o, o'] = (st', false) := by
        rw [Store.runTask, hfirst]
        simp [Store.runTask, hsecond]
      rw [hfirst, Option.getD_some, hsecond, Option.getD_none] at hrebuilt
      rw [hlive]
      constructor
      · rintro ⟨hsame, -⟩
        refine ⟨fun _ h => by cases hfirst.symm.trans h; exact hsame, fun st'' h => ?_⟩
        have hrel := hsame.apply (x := x) o'
        rw [h, hsecond] at hrel
        cases hrel
      · exact fun h => ⟨h.1 st' hfirst, hrebuilt⟩

private theorem Traced.rebuilt {batches : List (List BatchOp)} {e : Engine}
    (h : Traced x batches e) :
    Rebuilt x batches e :=
  ⟨h.store ▸ .refl _, h.bytes, h.atEnd, h.fits, h.idle⟩

end

/-- A patch that throws leaves the store as it was, and recovery rebuilds the store as it is, if and
only if each of the two updates, taken alone, throws or changes nothing. -/
theorem failed_patch_traceless_iff (x : External) (u : Nat → Nat → UInt8)
    (batches : List (List BatchOp)) (e : Engine) (hlog : Rebuilt x batches e) (call : Call)
    (o : ShardOp) (field : Bytes) (hcall : call.patch? = some (o, field)) (hfield : 0x3a ∉ field)
    (ts : Timestamp) (clock : HybridLogicalClock)
    (hnow : e.clock.now call.patchReadings = some (ts, clock))
    (hfits : BatchFits (patchPlan x u o field ts).logged) (r : Engine × CallResult)
    (hr : e.call x u call = some r) (hthrew : r.2 = .threw) (nodeId : UInt32) :
    e.store.Alike r.1.store ∧ r.1.store.Alike (Engine.openOn x nodeId r.1.wal.bytes).store ↔
      e.store.Unmoved x o ∧
        e.store.Unmoved x (.patchStr (metaKey o.key) field (stampText ts)) := by
  obtain ⟨-, -, hwal, hstore, hresult⟩ := call_patch_run hlog.idle hcall hnow hr
  obtain ⟨hvalue, hstamp⟩ := replays_patch hcall hfield
  have hfitsAll : ∀ b ∈ batches ++ [(patchPlan x u o field ts).logged], BatchFits b := by
    intro b hb
    rcases List.mem_append.mp hb with hb | hb
    · exact hlog.fits b hb
    · rw [List.mem_singleton.mp hb]
      exact hfits
  have hbytes : r.1.wal.bytes =
      (batchCalls (batches ++ [(patchPlan x u o field ts).logged])).flatMap LogCall.bytes ++ [] := by
    have hrun := (LogCall.run_bytes hlog.atEnd (.appendBatch (patchPlan x u o field ts).logged)).1
    rw [hwal]
    refine hrun.trans ?_
    rw [hlog.bytes]
    simp [batchCalls]
  have hrebuilt := openOn_store (x := x) hfitsAll RecordFormat.stops_nil nodeId hbytes
  rw [List.flatten_append, List.foldl_append, patchPlan_logged] at hrebuilt
  rw [hstore]
  refine Store.unmoved_iff (hresult.mp hthrew) ?_
  rw [hrebuilt]
  change Store.Alike _ ([o.logEntry, (ShardOp.patchStr (metaKey o.key) field
    (stampText ts)).logEntry].foldl (Store.replay x) _)
  rw [List.foldl_cons, List.foldl_cons, List.foldl_nil, hvalue x, hstamp _ x]
  exact (hlog.store.apply_getD o).apply_getD _

/-- Neither the value nor the sidecar is an object. -/
theorem failed_patch_traceless_iff_both :
    let x := External.reference fun _ => 0
    let u := fun _ _ => 0
    ∃ e r, (Engine.openOn x 1 []).runCalls x u [.put (ascii "k") (ascii "v") adminUid [1],
        .put (metaKey (ascii "k")) (ascii "v") adminUid [2]] = some e ∧
      e.call x u (.patchInt (ascii "k") (ascii "f") 1 [3]) = some r ∧ r.2 = .threw ∧
      e.store.Alike r.1.store ∧ r.1.store.Alike (Engine.openOn x 2 r.1.wal.bytes).store := by
  intro x u
  let calls := [Call.put (ascii "k") (ascii "v") adminUid [1],
    .put (metaKey (ascii "k")) (ascii "v") adminUid [2]]
  let patch := Call.patchInt (ascii "k") (ascii "f") 1 [3]
  have hsome : ((Engine.openOn x 1 []).runCalls x u calls).isSome = true := by decide +kernel
  obtain ⟨e, he⟩ := Option.isSome_iff_exists.mp hsome
  have hran (p : Engine → Prop) (h : ∀ e ∈ (Engine.openOn x 1 []).runCalls x u calls, p e) : p e :=
    h e he
  have hcalls : ∀ c ∈ calls, c.IsWrite := by
    intro c hc
    rcases List.mem_pair.mp hc with rfl | rfl
    · exact (by decide : (ascii "k").length < 2 ^ 16)
    · exact (by decide : (metaKey (ascii "k")).length < 2 ^ 16)
  have hfits : RecordsFit x u (Engine.openOn x 1 []) calls := by decide +kernel
  obtain ⟨batches, htraced, -⟩ := (traced_openOn_nil 1).runCalls hcalls hfits he
  have hnow : e.clock.now [3] = some (⟨3, 0, 1⟩, ⟨3, 0, 1⟩) :=
    hran (fun e => e.clock.now [3] = _) (by decide +kernel)
  have hvalue : e.store.apply x (.patchInt (ascii "k") (ascii "f") 1) = none :=
    Option.isNone_iff_eq_none.mp (hran (fun e => (e.store.apply x _).isNone = true)
      (by decide +kernel))
  have hsidecar : e.store.apply x (.patchStr (metaKey (ascii "k")) (ascii "f")
      (stampText ⟨3, 0, 1⟩)) = none :=
    Option.isNone_iff_eq_none.mp (hran (fun e => (e.store.apply x _).isNone = true)
      (by decide +kernel))
  have hresult : (e.call x u patch).map Prod.snd = some .threw :=
    hran (fun e => (e.call x u patch).map Prod.snd = _) (by decide +kernel)
  obtain ⟨r, hr, hthrew⟩ := Option.map_eq_some_iff.mp hresult
  refine ⟨e, r, he, hr, hthrew, ?_⟩
  refine (failed_patch_traceless_iff x u _ e htraced.rebuilt patch _ _ rfl (by decide) _ _ hnow
    ⟨by decide, by decide⟩ r hr hthrew 2).mpr ⟨fun st h => ?_, fun st h => ?_⟩
  · cases hvalue.symm.trans h
  · cases hsidecar.symm.trans h

/-- The value `v` is no object and the patch throws; recovery then sets the field of the sidecar,
which the live engine never did. -/
theorem failed_patch_leaves_trace :
    let x := External.reference fun _ => 0
    let u := fun _ _ => 0
    ∃ e r, (Engine.openOn x 1 []).runCalls x u [.put (ascii "k") (ascii "v") adminUid [1]] = some e ∧
      e.call x u (.patchInt (ascii "k") (ascii "f") 1 [3]) = some r ∧ r.2 = .threw ∧
      r.1.store.get x (metaKey (ascii "k")) adminUid = e.store.get x (metaKey (ascii "k")) adminUid ∧
      ¬ r.1.store.Alike (Engine.openOn x 2 r.1.wal.bytes).store := by
  intro x u
  let calls := [Call.put (ascii "k") (ascii "v") adminUid [1]]
  let patch := Call.patchInt (ascii "k") (ascii "f") 1 [3]
  have hsome : (((Engine.openOn x 1 []).runCalls x u calls).bind fun e =>
      (e.call x u patch).map fun r => (e, r)).isSome = true := by decide +kernel
  obtain ⟨⟨e, r⟩, hboth⟩ := Option.isSome_iff_exists.mp hsome
  have hran (p : Engine × Engine × CallResult → Prop) (h : ∀ q ∈ ((Engine.openOn x 1 []).runCalls x u
      calls).bind fun e => (e.call x u patch).map fun r => (e, r), p q) : p (e, r) :=
    h (e, r) hboth
  obtain ⟨e', he, hcall⟩ := Option.bind_eq_some_iff.mp hboth
  obtain ⟨r', hr, heq⟩ := Option.map_eq_some_iff.mp hcall
  cases heq
  refine ⟨e, r, he, hr, hran (fun q => q.2.2 = _) (by decide +kernel),
    hran (fun q => q.2.1.store.get x _ _ = q.1.store.get x _ _) (by decide +kernel), ?_⟩
  intro halike
  have hget := hran (fun q => (Engine.openOn x 2 q.2.1.wal.bytes).store.get x (metaKey (ascii "k"))
    adminUid ≠ q.2.1.store.get x (metaKey (ascii "k")) adminUid) (by decide +kernel)
  exact hget (halike.get_eq _ _)

end L3KV
