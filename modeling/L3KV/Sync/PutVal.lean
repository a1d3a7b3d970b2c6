import L3KV.Engine.Merge
import L3KV.Log.Recover
import L3KV.Sync.Handlers

/-!
# What a value from a peer changes

`on_put_val` takes a payload apart, reads the metadata and hands the write to `apply_mutation`. A
payload that does not hold a key and metadata as long as it announces is dropped. Metadata that is
not read for any reason stands for the timestamp zero, which is newer than no timestamp except one
below zero.
-/

namespace L3KV

open Framework

/-- The payload is this message, with room for its two lengths. -/
def IsPutVal (payload : Bytes) (sender : NodeID) (key metaVal value : Bytes) : Prop :=
  payload = (SyncMessage.putVal key metaVal value).encode sender ∧
    (SyncMessage.putVal key metaVal value).Fits

def Engine.SameState (e e' : Engine) : Prop := e'.store = e.store ∧ e'.wal = e.wal

/-- The store holds the write and is otherwise what it was. -/
structure Store.TakesValue (x : External) (st st' : Store) (key value : Bytes)
    (parsed : ParsedMeta) : Prop where
  value : st'.find x key = some (if parsed.isTombstone then Blob.empty
    else (Blob.overwrite x.lite3 x.zstd st.zstd value).1)
  sidecar : ReadsMeta x.lite3 (st'.get x (metaKey key) adminUid) parsed.ts parsed.isTombstone
  others : ∀ other, other ≠ key → other ≠ metaKey key → st'.find x other = st.find x other

section Format

variable {buf : Bytes}

private theorem decodePutVal_message {key metaVal value : Bytes}
    (h : decodePutVal buf = .message (.putVal key metaVal value)) :
    key.length < 2 ^ 16 ∧ metaVal.length < 2 ^ 16 ∧
      buf.drop 5 = leBytes 2 key.length ++ (key ++ (leBytes 2 metaVal.length ++ (metaVal ++ value))) := by
  have hklen := readWord_lt 2 buf 5
  have hmlen := readWord_lt 2 buf (7 + readWord 2 buf 5)
  unfold decodePutVal at h
  dsimp only at h
  split_ifs at h with hhead hkey hlen hmeta
  obtain ⟨rfl, rfl, rfl⟩ : slice buf 7 (readWord 2 buf 5) = key ∧ _ ∧ _ := by simpa using h
  have hkeyLength : (slice buf 7 (readWord 2 buf 5)).length = readWord 2 buf 5 := by
    rw [slice_length]
    omega
  have hmetaLength : (slice buf (7 + readWord 2 buf 5 + 2) (readWord 2 buf (7 + readWord 2 buf 5))).length =
      readWord 2 buf (7 + readWord 2 buf 5) := by
    rw [slice_length]
    omega
  refine ⟨by omega, by omega, ?_⟩
  rw [hkeyLength, hmetaLength, leBytes_readWord (by omega), leBytes_readWord (by omega),
    slice_append_drop, slice_append_drop, slice_append_drop, slice_append_drop]

private theorem decode_putVal_cases (rest : Bytes) :
    (∃ sender, decode (MsgType.syncPutVal.code :: rest) = (sender, .ignored)) ∨
      ∃ sender key metaVal value,
        IsPutVal (MsgType.syncPutVal.code :: rest) sender key metaVal value := by
  generalize hbuf : MsgType.syncPutVal.code :: rest = buf
  by_cases hheader : buf.length < 5
  · exact Or.inl ⟨0, by rw [decode, if_pos hheader]⟩
  · have hdecode : decode buf = (UInt32.ofNat (readWord 4 buf 1), decodePutVal buf) := by
      rw [decode, if_neg hheader, ← hbuf]
      rfl
    rcases decodePutVal_cases buf with hignored | ⟨key, metaVal, value, hmessage⟩
    · exact Or.inl ⟨_, by rw [hdecode, hignored]⟩
    · right
      obtain ⟨hkey, hmeta, hbody⟩ := decodePutVal_message hmessage
      refine ⟨UInt32.ofNat (readWord 4 buf 1), key, metaVal, value, ?_, hkey, hmeta⟩
      have hword : (UInt32.ofNat (readWord 4 buf 1)).toNat = readWord 4 buf 1 := by
        have hlt := readWord_lt 4 buf 1
        rw [UInt32.toNat_ofNat']
        omega
      have hrest : slice buf 1 4 ++ buf.drop 5 = rest := by
        rw [slice_append_drop, ← hbuf]
        rfl
      rw [SyncMessage.encode, ← hbody, syncHeader, hword, leBytes_readWord (by omega),
        List.cons_append, hrest, hbuf]

theorem IsPutVal.unique {sender sender' : NodeID} {key key' metaVal metaVal' value value' : Bytes}
    (h : IsPutVal buf sender key metaVal value) (h' : IsPutVal buf sender' key' metaVal' value') :
    key' = key ∧ metaVal' = metaVal ∧ value' = value := by
  have hdecode := decode_encode sender h.2
  rw [← h.1, h'.1, decode_encode sender' h'.2] at hdecode
  have hsame : sender' = sender ∧ key' = key ∧ metaVal' = metaVal ∧ value' = value := by
    simpa [SyncMessage.received] using hdecode
  exact hsame.2

end Format

section

variable {x : External} {buf : Bytes}

private theorem handleMessage_putVal (u : Nat → Nat → UInt8) (me : NodeID) (e : Engine)
    {sender : NodeID}
    {key metaVal value : Bytes} (h : IsPutVal buf sender key metaVal value) :
    ∃ r, handleMessage x u me e buf = some r ∧
      MutationOutcome x e ⟨(parseMeta x.lite3 metaVal).ts, key, value,
        (parseMeta x.lite3 metaVal).isTombstone⟩ r.1 := by
  obtain ⟨r, hr, houtcome⟩ := exists_call_applyMutation (x := x) u e
    ⟨(parseMeta x.lite3 metaVal).ts, key, value, (parseMeta x.lite3 metaVal).isTombstone⟩
  refine ⟨(r.1, []), ?_, houtcome⟩
  rw [h.1, handleMessage_encode me sender e h.2, SyncMessage.received, answer, onPutVal, hr]
  · rfl
  · simp

private theorem commitWrite_takesValue (hx : x.Lawful) (st : Store) (key value : Bytes)
    {parsed : ParsedMeta} {sidecar : Bytes}
    (hmeta : metaObject x.lite3 parsed.ts parsed.isTombstone = some sidecar) :
    st.TakesValue x (st.commitWrite x key value parsed.isTombstone sidecar) key value parsed := by
  obtain ⟨-, -, hsidecar, hothers, -⟩ :=
    commitWrite_spec (x := x) st key value parsed.isTombstone sidecar
  have hreads := ReadsMeta.of_metaObject hx.lite3 hmeta
  refine ⟨?_, ?_, hothers⟩
  · rw [Store.commitWrite, Store.applyPut_find, if_neg (metaKey_ne key).symm]
    cases parsed.isTombstone with
    | true => exact (Store.applyDel_find st key key).trans (if_pos rfl)
    | false => exact (Store.applyPut_find st key value key).trans (if_pos rfl)
  · have hshort : sidecar.length < 2 ^ 32 :=
      Nat.lt_trans (hx.smallMeta _ _ _ hmeta) (by decide)
    rw [storedForm_container hreads.container] at hsidecar
    rw [hsidecar.get_eq hx.zstd hshort]
    exact hreads

private theorem pos_lt_appendBatch (f : LogFile) {logged : List BatchOp} (h : logged ≠ []) :
    f.pos < (f.appendBatch logged).pos := by
  have hrecord : 0 < (recordBytes WalOp.batch [] (batchPayload logged)).length := by
    rw [recordBytes, List.length_append, LogHeader.encode_length]
    simp [headerSize]
  have hdata : ¬ (recordBytes WalOp.batch [] (batchPayload logged)).isEmpty = true := by
    rw [List.isEmpty_iff, ← List.length_eq_zero_iff]
    omega
  rw [LogFile.appendBatch, if_neg (by simpa using h), LogFile.append, LogFile.writeRaw, if_neg hdata]
  exact Nat.lt_add_of_pos_right hrecord

private theorem parseMeta_unread {metaVal : Bytes}
    (h : metaVal = [] ∨ parseFields x.lite3 metaVal = none) :
    (parseMeta x.lite3 metaVal).ts = Timestamp.zero := by
  unfold parseMeta
  rcases h with rfl | hnone
  · rfl
  · split
    · rfl
    · rw [hnone]
      rfl

end

/-- What a payload that was sent as a value changes: nothing, or the write it carries is made
because it is newer than what is stored and newer than zero. Metadata that is not read changes
nothing. -/
structure PutValEffect (x : External) (e e' : Engine) (payload : Bytes) : Prop where
  effect : e.SameState e' ∨ ∃ sender key metaVal value stored,
    IsPutVal payload sender key metaVal value ∧
    localTimestamp x.lite3 (e.store.get x (metaKey key) adminUid) = some stored ∧
    stored < (parseMeta x.lite3 metaVal).ts ∧ Timestamp.zero < (parseMeta x.lite3 metaVal).ts ∧
    e.store.TakesValue x e'.store key value (parseMeta x.lite3 metaVal)
  unread : ∀ sender key metaVal value, IsPutVal payload sender key metaVal value →
    metaVal = [] ∨ parseFields x.lite3 metaVal = none → e.SameState e'

/-- The message carries a timestamp that is not above zero and yet above the stored one. -/
def TakesUnstamped (x : External) (st : Store) (payload : Bytes) : Prop :=
  ∃ sender key metaVal value stored, IsPutVal payload sender key metaVal value ∧
    localTimestamp x.lite3 (st.get x (metaKey key) adminUid) = some stored ∧
    stored < (parseMeta x.lite3 metaVal).ts ∧ (parseMeta x.lite3 metaVal).ts ≤ Timestamp.zero

/-- Whatever is received as a value is handled, and it has no other effect than it should, unless
the stored timestamp is below zero and the received one between it and zero. -/
theorem put_val_effect_iff {x : External} (hx : x.Lawful) (u : Nat → Nat → UInt8) (me : NodeID)
    (e : Engine) (rest : Bytes) :
    (∃ r, handleMessage x u me e (MsgType.syncPutVal.code :: rest) = some r ∧
      PutValEffect x e r.1 (MsgType.syncPutVal.code :: rest)) ↔
    ¬ TakesUnstamped x e.store (MsgType.syncPutVal.code :: rest) := by
  constructor
  · rintro ⟨r, hr, heffect⟩ ⟨sender, key, metaVal, value, stored, hput, hlocal, hnewer, hzero⟩
    obtain ⟨r', hr', houtcome⟩ := handleMessage_putVal (x := x) u me e hput
    rw [hr] at hr'
    cases hr'
    obtain ⟨sidecar, hsidecar, -⟩ := metaObject_reads hx.lite3 (parseMeta x.lite3 metaVal).ts
      (parseMeta x.lite3 metaVal).isTombstone
    generalize r.1 = after at houtcome heffect
    cases houtcome with
    | kept stale =>
        have hnone := stale stored hlocal hnewer
        rw [hsidecar] at hnone
        cases hnone
    | written _ _ _ hlog =>
        rcases heffect.effect with hsame | ⟨_, _, _, _, _, hput', -, -, hpositive, -⟩
        · have hlonger := pos_lt_appendBatch e.wal hlog
          exact absurd (congrArg LogFile.pos hsame.2) (Nat.ne_of_gt hlonger)
        · obtain ⟨rfl, rfl, rfl⟩ := hput.unique hput'
          exact absurd hpositive (not_lt.mpr hzero)
  · intro hstamped
    rcases decode_putVal_cases rest with ⟨sender, hignored⟩ | ⟨sender, key, metaVal, value, hput⟩
    · refine ⟨(e, []), by rw [handleMessage, hignored], Or.inl ⟨rfl, rfl⟩, ?_⟩
      intro _ _ _ _ _ _
      exact ⟨rfl, rfl⟩
    · obtain ⟨r, hr, houtcome⟩ := handleMessage_putVal (x := x) u me e hput
      refine ⟨r, hr, ?_⟩
      generalize r.1 = after at houtcome ⊢
      cases houtcome with
      | kept _ => exact ⟨Or.inl ⟨rfl, rfl⟩, fun _ _ _ _ _ _ => ⟨rfl, rfl⟩⟩
      | @written stored _ _ hlocal hnewer hsidecar hlog =>
          have hpositive : Timestamp.zero < (parseMeta x.lite3 metaVal).ts := by
            by_contra hnot
            exact hstamped
              ⟨sender, key, metaVal, value, stored, hput, hlocal, hnewer, not_lt.mp hnot⟩
          refine ⟨Or.inr ⟨sender, key, metaVal, value, stored, hput, hlocal, hnewer, hpositive,
            commitWrite_takesValue hx e.store key value hsidecar⟩, ?_⟩
          intro _ _ _ _ hput' hunread
          obtain ⟨rfl, rfl, rfl⟩ := hput.unique hput'
          rw [parseMeta_unread hunread] at hpositive
          exact absurd hpositive (lt_irrefl _)

private def offeredMeta : Bytes := (metaObject Lite3.reference ⟨1, 0, 2⟩ false).getD []

/-- A value with its metadata. -/
theorem put_val_effect_value :
    let x := External.reference fun _ => 0
    let e := Engine.openOn x 1 []
    let payload := (SyncMessage.putVal (ascii "k") offeredMeta (ascii "v")).encode 2
    ∃ r, handleMessage x (fun _ _ => 0) 1 e payload = some r ∧ PutValEffect x e r.1 payload := by
  intro x e payload
  have hput : IsPutVal payload 2 (ascii "k") offeredMeta (ascii "v") :=
    ⟨rfl, by decide, by decide⟩
  refine (put_val_effect_iff (External.reference_lawful _) (fun _ _ => 0) 1 e payload.tail).mpr ?_
  rintro ⟨_, _, _, _, _, hput', -, -, hzero⟩
  obtain ⟨rfl, rfl, rfl⟩ := hput.unique hput'
  exact absurd hzero (by decide)

/-- A sidecar from before zero. -/
private def earlyMeta : Bytes := (metaObject Lite3.reference ⟨-1, 0, 0⟩ false).getD []

/-- A client writes under the name of a sidecar, and a value that comes without metadata is taken. -/
theorem put_val_without_metadata :
    let x := External.reference fun _ => 0
    let payload := (SyncMessage.putVal (ascii "k") [] (ascii "v")).encode 2
    ∃ e r, (Engine.openOn x 1 []).runCalls x (fun _ _ => 0)
        [.put (ascii "k:meta") earlyMeta adminUid [1]] = some e ∧
      IsPutVal payload 2 (ascii "k") [] (ascii "v") ∧
      handleMessage x (fun _ _ => 0) 1 e payload = some r ∧
      e.store.get x (ascii "k") adminUid = [] ∧
      r.1.store.get x (ascii "k") adminUid = ascii "v" ∧ ¬ PutValEffect x e r.1 payload := by
  intro x payload
  have hput : IsPutVal payload 2 (ascii "k") [] (ascii "v") := ⟨rfl, by decide, by decide⟩
  have hrun : ((Engine.openOn x 1 []).runCalls x (fun _ _ => 0)
      [.put (ascii "k:meta") earlyMeta adminUid [1]]).bind (fun e =>
        (handleMessage x (fun _ _ => 0) 1 e payload).map fun r =>
          (e.store.get x (ascii "k") adminUid, r.1.store.get x (ascii "k") adminUid)) =
      some ([], ascii "v") := by decide +kernel
  obtain ⟨e, he, hhandled⟩ := Option.bind_eq_some_iff.mp hrun
  obtain ⟨r, hr, hgets⟩ := Option.map_eq_some_iff.mp hhandled
  obtain ⟨hbefore, hafter⟩ := Prod.mk.inj hgets
  refine ⟨e, r, he, hput, hr, hbefore, hafter, fun heffect => ?_⟩
  have hsame := heffect.unread 2 (ascii "k") [] (ascii "v") hput (Or.inl rfl)
  rw [hsame.1, hbefore] at hafter
  exact absurd hafter (by decide)

end L3KV
