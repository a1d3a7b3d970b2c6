import L3KV.Sync.Handlers

/-!
# The accesses of the handlers

`handle_message` and its handlers again, with every read of the payload and of the Merkle arrays
checked. A payload may hold any bytes, not only those that a sync manager sends.
-/

namespace L3KV

open Framework

def readSyncInit (buf : Bytes) : Option Decoded :=
  if buf.length < 13 then some .ignored
  else do
    let theirRoot ← wordAt 8 buf 5
    some (.message (.init (UInt64.ofNat theirRoot)))

def readReqNode (buf : Bytes) : Option Decoded :=
  if buf.length < 10 then some .ignored
  else do
    let level ← wordAt 1 buf 5
    let parentIdx ← wordAt 4 buf 6
    some (.message (.reqNode (UInt8.ofNat level) (UInt32.ofNat parentIdx)))

def readRepNode (buf : Bytes) : Option Decoded :=
  if buf.length < 13 then some .ignored
  else do
    let level ← wordAt 1 buf 5
    let parentIdx ← wordAt 4 buf 9
    let hashes ← (List.range 16).mapM fun i => wordAt 8 buf (13 + i * 8)
    some (.message (.repNode (UInt8.ofNat level) (UInt32.ofNat parentIdx) (hashes.map UInt64.ofNat)))

def readReqBucket (buf : Bytes) : Option Decoded :=
  if buf.length < 9 then some .ignored
  else do
    let bucketIdx ← wordAt 4 buf 5
    some (.message (.reqBucket (UInt32.ofNat bucketIdx)))

/-- The loop of `on_rep_bucket`. -/
def readEntries (buf : Bytes) : Nat → Nat → Option (List (Bytes × UInt64))
  | 0, _ => some []
  | count + 1, pos =>
      if buf.length < pos + 10 then some []
      else do
        let klen ← wordAt 2 buf pos
        if buf.length < pos + 2 + klen + 8 then some []
        else do
          let key ← bytesAt buf (pos + 2) klen
          let theirHash ← wordAt 8 buf (pos + 2 + klen)
          let rest ← readEntries buf count (pos + 2 + klen + 8)
          some ((key, UInt64.ofNat theirHash) :: rest)

/-- The handler does not look at the bucket index, which stands in front of the count. -/
def readRepBucket (buf : Bytes) : Option Decoded :=
  if buf.length < 13 then some .ignored
  else do
    let bucketIdx ← wordAt 4 buf 5
    let count ← wordAt 4 buf 9
    let entries ← readEntries buf count 13
    some (.message (.repBucket (UInt32.ofNat bucketIdx) (UInt32.ofNat count) entries))

def readGetVal (buf : Bytes) : Option Decoded :=
  if buf.length < 5 then some .ignored
  else do
    let key ← bytesAt buf 5 (buf.length - 5)
    some (.message (.getVal key))

def readPutVal (buf : Bytes) : Option Decoded :=
  if buf.length < 5 + 2 then some .ignored
  else do
    let klen ← wordAt 2 buf 5
    if buf.length < 7 + klen then some .ignored
    else do
      let key ← bytesAt buf 7 klen
      if buf.length < 7 + klen + 2 then some .ignored
      else do
        let mlen ← wordAt 2 buf (7 + klen)
        if buf.length < 7 + klen + 2 + mlen then some .ignored
        else do
          let metaVal ← bytesAt buf (7 + klen + 2) mlen
          let pos := 7 + klen + 2 + mlen
          let val ← bytesAt buf pos (buf.length - pos)
          some (.message (.putVal key metaVal val))

/-- The `switch` of `handle_message`. -/
def readAs (type : MsgType) (buf : Bytes) : Option Decoded :=
  if type = .syncInit then readSyncInit buf
  else if type = .syncReqNode then readReqNode buf
  else if type = .syncRepNode then readRepNode buf
  else if type = .syncReqBucket then readReqBucket buf
  else if type = .syncRepBucket then readRepBucket buf
  else if type = .syncGetVal then readGetVal buf
  else if type = .syncPutVal then readPutVal buf
  else some .ignored

def readPayload (buf : Bytes) : Option (NodeID × Decoded) :=
  if buf.length < 5 then some (0, .ignored)
  else do
    let type ← wordAt 1 buf 0
    let sender ← wordAt 4 buf 1
    let content ← readAs ⟨UInt8.ofNat type⟩ buf
    some (UInt32.ofNat sender, content)

/-- `get_merkle_node(int level, int index)` for an index of 32 bits: it is converted to `int`, and
from there to the `size_t` that indexes the array. -/
def Engine.merkleNodeAt (e : Engine) (level : UInt8) (index : UInt32) : Option UInt64 :=
  e.store.merkle.getNodeHash level (UInt64.ofInt index.toInt32.toInt).toNat

def childrenAt (e : Engine) (level : UInt8) (parent : UInt32) : Option (List UInt64) :=
  (List.range 16).mapM fun i => e.merkleNodeAt level (childNode parent i)

/-- The children of this node exist, on the levels that are kept in an array of their own. -/
def ChildrenExist (level parent : Nat) : Prop :=
  1 ≤ level → level ≤ 4 → parent % 2 ^ 28 < 16 ^ (level - 1)

/-- What keeps `handle_message` inside its arrays. -/
structure InBounds (payload : Bytes) : Prop where
  reqNode : payload.head? = some MsgType.syncReqNode.code → 10 ≤ payload.length →
    ChildrenExist (readWord 1 payload 5) (readWord 4 payload 6)
  repNode : payload.head? = some MsgType.syncRepNode.code → 13 ≤ payload.length →
    13 + 16 * 8 ≤ payload.length ∧ ChildrenExist (readWord 1 payload 5) (readWord 4 payload 9)

section

variable (x : External) (unspecified : Nat → Nat → UInt8)

/-- `on_req_node` and `on_rep_node` read the tree; the other handlers index no array by what the
payload holds. -/
def checkedAnswer (e : Engine) : SyncMessage → Option (Engine × List SyncMessage)
  | .reqNode level parent =>
      (childrenAt e level parent).map fun hashes => (e, [.repNode level parent hashes])
  | .repNode level parent hashes =>
      (childrenAt e level parent).map fun mine =>
        (e, ((List.range 16).filter fun i => mine.getD i 0 ≠ hashes.getD i 0).map fun i =>
          drillDown level (childNode parent i))
  | m => answer x unspecified e m

/-- `handle_message`; `none` if some access is out of bounds. -/
def checkedHandle (me : NodeID) (e : Engine) (payload : Bytes) :
    Option (Engine × List (NodeID × Bytes)) := do
  let (sender, content) ← readPayload payload
  match content with
  | .message m =>
      let (e, replies) ← checkedAnswer x unspecified e m
      some (e, replies.map fun reply => (sender, reply.encode me))
  | _ => some (e, [])

end

section

variable {x : External} {u : Nat → Nat → UInt8} {e : Engine} {buf : Bytes}

private theorem mapM_isSome_iff {α β : Type*} (l : List α) (f : α → Option β) :
    (l.mapM f).isSome ↔ ∀ a ∈ l, (f a).isSome := by
  induction l with
  | nil => simp
  | cons a l ih =>
      rw [List.mapM_cons, List.forall_mem_cons, ← ih]
      cases f a <;> cases l.mapM f <;> simp

private theorem toInt32_toNat (index : UInt32) :
    (UInt64.ofInt index.toInt32.toInt).toNat =
      if index.toNat < 2 ^ 31 then index.toNat else 2 ^ 64 - 2 ^ 32 + index.toNat := by
  have hint : index.toInt32.toInt =
      if 2 * index.toNat < 2 ^ 32 then (index.toNat : Int) else index.toNat - 2 ^ 32 :=
    BitVec.toInt_eq_toNat_cond index.toBitVec
  have hlt := index.toNat_lt
  have hmod (n : Int) : (UInt64.ofInt n).toNat = (n % 2 ^ 64).toNat := by
    rw [UInt64.ofInt, UInt64.toNat_ofNat']
    exact Nat.mod_eq_of_lt (by omega)
  rw [hmod, hint]
  split <;> split <;> omega

private theorem merkleNodeAt_eq (e : Engine) (level : UInt8) (index : UInt32) :
    e.merkleNodeAt level index = e.getMerkleNode level index := by
  rw [Engine.merkleNodeAt, Engine.getMerkleNode, toInt32_toNat]
  split
  · rfl
  · simp (disch := omega) only [MerkleTree.getNodeHash, MerkleTree.cell_eq_none]

private theorem checkedAnswer_eq (e : Engine) (m : SyncMessage) :
    checkedAnswer x u e m = answer x u e m := by
  have hchildren (level : UInt8) (parent : UInt32) :
      childrenAt e level parent = childHashes e level parent := by
    simp only [childrenAt, childHashes, merkleNodeAt_eq]
  cases m with
  | reqNode level parent =>
      rw [checkedAnswer, answer, onReqNode, hchildren, Option.map_map]
      rfl
  | repNode level parent hashes =>
      rw [checkedAnswer, answer, onRepNode, hchildren, Option.map_map]
      rfl
  | _ => rfl

private theorem bytesAt_rest {pos : Nat} (h : pos ≤ buf.length) :
    bytesAt buf pos (buf.length - pos) = some (buf.drop pos) := by
  rw [bytesAt_eq (by omega), slice, List.take_of_length_le (by simp)]

/-- The checked reads fail where the unchecked ones run over the end, and nowhere else. -/
def ReadsAs (read : Option Decoded) (d : Decoded) : Prop :=
  read = if d = .overrun then none else some d

theorem ReadsAs.message {m : SyncMessage} : ReadsAs (some (.message m)) (.message m) := rfl

theorem ReadsAs.ignored : ReadsAs (some .ignored) .ignored := rfl

private theorem readSyncInit_eq (buf : Bytes) :
    ReadsAs (readSyncInit buf) (decodeSyncInit buf) := by
  rw [readSyncInit, decodeSyncInit]
  split
  · exact .ignored
  · rw [wordAt_eq (by omega)]
    exact .message

private theorem readReqNode_eq (buf : Bytes) : ReadsAs (readReqNode buf) (decodeReqNode buf) := by
  rw [readReqNode, decodeReqNode]
  split
  · exact .ignored
  · rw [wordAt_eq (by omega), wordAt_eq (by omega)]
    exact .message

private theorem readRepNode_eq (buf : Bytes) : ReadsAs (readRepNode buf) (decodeRepNode buf) := by
  rw [readRepNode, decodeRepNode]
  split
  · exact .ignored
  rw [wordAt_eq (by omega), wordAt_eq (by omega)]
  dsimp only [Option.bind_eq_bind, Option.bind_some]
  split
  · -- the last of the sixteen hashes is not there
    have hnone : ((List.range 16).mapM fun i => wordAt 8 buf (13 + i * 8)) = none := by
      rw [← Option.not_isSome_iff_eq_none, mapM_isSome_iff]
      intro hall
      have hlast := hall 15 (by simp)
      rw [wordAt_eq_none (by omega)] at hlast
      cases hlast
    rw [hnone]
    rfl
  · have hsome : ((List.range 16).mapM fun i => wordAt 8 buf (13 + i * 8)) =
        some ((List.range 16).map fun i => readWord 8 buf (13 + i * 8)) := by
      apply mapM_some
      intro i hi
      have hi' : i < 16 := List.mem_range.mp hi
      exact wordAt_eq (by omega)
    rw [hsome, Option.bind_some, List.map_map]
    exact .message

private theorem readReqBucket_eq (buf : Bytes) :
    ReadsAs (readReqBucket buf) (decodeReqBucket buf) := by
  rw [readReqBucket, decodeReqBucket]
  split
  · exact .ignored
  · rw [wordAt_eq (by omega)]
    exact .message

private theorem readEntries_eq (buf : Bytes) (count pos : Nat) :
    readEntries buf count pos = some (decodeEntries buf count pos) := by
  induction count generalizing pos with
  | zero => rfl
  | succ count ih =>
      rw [readEntries, decodeEntries]
      split
      · rfl
      rw [wordAt_eq (by omega)]
      dsimp only [Option.bind_eq_bind, Option.bind_some]
      split
      · rfl
      rw [bytesAt_eq (by omega), wordAt_eq (by omega), ih]
      rfl

private theorem readRepBucket_eq (buf : Bytes) :
    ReadsAs (readRepBucket buf) (decodeRepBucket buf) := by
  rw [readRepBucket, decodeRepBucket]
  split
  · exact .ignored
  · rw [wordAt_eq (by omega), wordAt_eq (by omega)]
    dsimp only [Option.bind_eq_bind, Option.bind_some]
    rw [readEntries_eq]
    exact .message

private theorem readGetVal_eq (h : 5 ≤ buf.length) :
    ReadsAs (readGetVal buf) (.message (.getVal (buf.drop 5))) := by
  rw [readGetVal, if_neg (by omega), bytesAt_rest h]
  exact .message

private theorem readPutVal_eq (buf : Bytes) : ReadsAs (readPutVal buf) (decodePutVal buf) := by
  rw [readPutVal, decodePutVal]
  split
  · exact .ignored
  rw [wordAt_eq (by omega)]
  dsimp only [Option.bind_eq_bind, Option.bind_some]
  split
  · exact .ignored
  rw [bytesAt_eq (by omega)]
  dsimp only [Option.bind_some]
  split
  · exact .ignored
  rw [wordAt_eq (by omega)]
  dsimp only [Option.bind_some]
  split
  · exact .ignored
  rw [bytesAt_eq (by omega), bytesAt_rest (by omega)]
  exact .message

private theorem readAs_eq (type : MsgType) (h : 5 ≤ buf.length) :
    ReadsAs (readAs type buf) (decodeAs type buf) := by
  unfold readAs decodeAs
  split
  · exact readSyncInit_eq buf
  split
  · exact readReqNode_eq buf
  split
  · exact readRepNode_eq buf
  split
  · exact readReqBucket_eq buf
  split
  · exact readRepBucket_eq buf
  split
  · exact readGetVal_eq h
  split
  · exact readPutVal_eq buf
  · exact .ignored

private theorem readPayload_eq (buf : Bytes) :
    readPayload buf = if (decode buf).2 = .overrun then none else some (decode buf) := by
  rw [readPayload, decode]
  split
  · rfl
  have htype : wordAt 1 buf 0 = some (buf.headD 0).toNat := by
    cases buf with
    | nil => simp at *
    | cons b buf => simp [wordAt, bytesAt, slice, leValue]
  have hread : readAs ⟨UInt8.ofNat (buf.headD 0).toNat⟩ buf = _ := readAs_eq _ (by omega)
  rw [htype, wordAt_eq (by omega)]
  dsimp only [Option.bind_eq_bind, Option.bind_some]
  rw [hread, UInt8.ofNat_toNat]
  split <;> rfl

private theorem checkedHandle_eq (me : NodeID) (e : Engine) (payload : Bytes) :
    checkedHandle x u me e payload = handleMessage x u me e payload := by
  rw [checkedHandle, handleMessage, readPayload_eq]
  obtain ⟨sender, content⟩ := decode payload
  cases content with
  | ignored => rfl
  | overrun => rfl
  | message m =>
      simp only [reduceCtorEq, if_false, Option.bind_eq_bind, Option.bind_some, checkedAnswer_eq]
      cases answer x u e m <;> rfl

private theorem childHashes_isSome_iff (e : Engine) (level : UInt8) (parent : UInt32) :
    (childHashes e level parent).isSome ↔ ChildrenExist level.toNat parent.toNat := by
  have hchild {i : Nat} (hi : i < 16) :
      (childNode parent i).toNat = parent.toNat % 2 ^ 28 * 16 + i := by
    simp only [childNode, UInt32.toNat_add, UInt32.toNat_mul, UInt32.toNat_ofNat']
    change (parent.toNat * 16 % 2 ^ 32 + i % 2 ^ 32) % 2 ^ 32 = _
    omega
  rw [childHashes, mapM_isSome_iff]
  simp only [Engine.getMerkleNode, MerkleTree.getNodeHash_isSome_iff, List.mem_range]
  constructor
  · intro h hpos hle
    have hfirst := h 0 (by decide) hpos hle
    rw [hchild (by decide), ← Nat.sub_add_cancel hpos, pow_succ] at hfirst
    omega
  · intro h i hi hpos hle
    have hlt := h hpos hle
    rw [hchild hi, ← Nat.sub_add_cancel hpos, pow_succ]
    omega

/-- A content that is handled without an access out of bounds. -/
def Decoded.Answered (x : External) (u : Nat → Nat → UInt8) (e : Engine) (d : Decoded) : Prop :=
  d ≠ .overrun ∧ ∀ m, d = .message m → (answer x u e m).isSome

private theorem handleMessage_isSome_iff (me : NodeID) (e : Engine) (payload : Bytes) :
    (handleMessage x u me e payload).isSome ↔ (decode payload).2.Answered x u e := by
  rw [handleMessage]
  obtain ⟨sender, content⟩ := decode payload
  cases content <;> simp [Decoded.Answered]

private theorem answered_ignored (e : Engine) : Decoded.ignored.Answered x u e := ⟨by simp, by simp⟩

private theorem answered_message {m : SyncMessage} : (Decoded.message m).Answered x u e ↔
    (answer x u e m).isSome := by simp [Decoded.Answered]

private theorem levelAt_toNat (buf : Bytes) (pos : Nat) :
    (UInt8.ofNat (readWord 1 buf pos)).toNat = readWord 1 buf pos := by
  rw [UInt8.toNat_ofNat']
  exact Nat.mod_eq_of_lt (readWord_lt 1 buf pos)

private theorem indexAt_toNat (buf : Bytes) (pos : Nat) :
    (UInt32.ofNat (readWord 4 buf pos)).toNat = readWord 4 buf pos := by
  rw [UInt32.toNat_ofNat']
  exact Nat.mod_eq_of_lt (readWord_lt 4 buf pos)

private theorem answered_reqNode (e : Engine) (buf : Bytes) : (decodeReqNode buf).Answered x u e ↔
    (10 ≤ buf.length → ChildrenExist (readWord 1 buf 5) (readWord 4 buf 6)) := by
  rw [decodeReqNode]
  split
  · rename_i hshort
    exact iff_of_true (answered_ignored e) fun h => absurd hshort (Nat.not_lt.mpr h)
  · rename_i hlong
    rw [answered_message, answer, Option.isSome_map, onReqNode, Option.isSome_map,
      childHashes_isSome_iff, levelAt_toNat, indexAt_toNat]
    exact (imp_iff_right (Nat.not_lt.mp hlong)).symm

private theorem answered_repNode (e : Engine) (buf : Bytes) : (decodeRepNode buf).Answered x u e ↔
    (13 ≤ buf.length → 13 + 16 * 8 ≤ buf.length ∧
      ChildrenExist (readWord 1 buf 5) (readWord 4 buf 9)) := by
  rw [decodeRepNode]
  split
  · rename_i hshort
    exact iff_of_true (answered_ignored e) fun h => absurd hshort (Nat.not_lt.mpr h)
  rename_i hlong
  split
  · rename_i hshort
    refine iff_of_false (fun h => h.1 rfl) fun h => ?_
    have hroom := (h (Nat.not_lt.mp hlong)).1
    omega
  · rename_i hroom
    rw [answered_message, answer, Option.isSome_map, onRepNode, Option.isSome_map,
      childHashes_isSome_iff, levelAt_toNat, indexAt_toNat]
    rw [imp_iff_right (Nat.not_lt.mp hlong), and_iff_right (Nat.not_lt.mp hroom)]

private theorem answered_other (e : Engine) {type : MsgType} (buf : Bytes)
    (hreq : type ≠ .syncReqNode)
    (hrep : type ≠ .syncRepNode) : (decodeAs type buf).Answered x u e := by
  rw [decodeAs, if_neg hreq, if_neg hrep]
  split
  · rw [decodeSyncInit]
    split
    · exact answered_ignored e
    · exact answered_message.mpr rfl
  split
  · rw [decodeReqBucket]
    split
    · exact answered_ignored e
    · exact answered_message.mpr rfl
  split
  · rw [decodeRepBucket]
    split
    · exact answered_ignored e
    · exact answered_message.mpr rfl
  split
  · exact answered_message.mpr rfl
  split
  · have hput (key metaVal value : Bytes) : (answer x u e (.putVal key metaVal value)).isSome := by
      rw [answer, Option.isSome_map, onPutVal, Option.isSome_map]
      obtain ⟨r, hr, -⟩ := exists_call_applyMutation (x := x) u e _
      rw [hr]
      rfl
    rw [decodePutVal]
    split
    · exact answered_ignored e
    dsimp only
    split
    · exact answered_ignored e
    split
    · exact answered_ignored e
    split
    · exact answered_ignored e
    · exact answered_message.mpr (hput _ _ _)
  · exact answered_ignored e

end

/-- `handle_message` stays inside the payload and inside the arrays of the tree if and only if a
`SYNC_REP_NODE` holds all sixteen hashes and the children that it or a `SYNC_REQ_NODE` is about
exist. -/
theorem handle_message_in_bounds_iff (x : External) (u : Nat → Nat → UInt8) (me : NodeID)
    (e : Engine) (payload : Bytes) :
    (checkedHandle x u me e payload).isSome ↔ InBounds payload := by
  rw [checkedHandle_eq, handleMessage_isSome_iff, decode]
  split
  · rename_i hshort
    exact iff_of_true (answered_ignored e)
      ⟨fun _ h => absurd hshort (by omega), fun _ h => absurd hshort (by omega)⟩
  rename_i hlong
  have hhead : payload.head? = some (payload.headD 0) := by
    cases payload with
    | nil => simp at hlong
    | cons b payload => rfl
  have hcode (type : MsgType) : payload.head? = some type.code ↔ MsgType.mk (payload.headD 0) = type := by
    rw [hhead, Option.some_inj]
    exact ⟨fun h => by rw [h], fun h => by rw [← h]⟩
  by_cases hreq : MsgType.mk (payload.headD 0) = .syncReqNode
  · have hother : ¬ payload.head? = some MsgType.syncRepNode.code := by
      rw [hcode, hreq]
      decide
    have hdecode : decodeAs .syncReqNode payload = decodeReqNode payload := rfl
    rw [hreq, hdecode, answered_reqNode]
    exact ⟨fun h => ⟨fun _ => h, fun h' => absurd h' hother⟩, fun h => h.reqNode ((hcode _).mpr hreq)⟩
  by_cases hrep : MsgType.mk (payload.headD 0) = .syncRepNode
  · have hdecode : decodeAs .syncRepNode payload = decodeRepNode payload := rfl
    rw [hrep, hdecode, answered_repNode]
    exact ⟨fun h => ⟨fun h' => absurd ((hcode _).mp h') hreq, fun _ => h⟩,
      fun h => h.repNode ((hcode _).mpr hrep)⟩
  · exact iff_of_true (answered_other e payload hreq hrep)
      ⟨fun h => absurd ((hcode _).mp h) hreq, fun h => absurd ((hcode _).mp h) hrep⟩

/-- A request for the children of the second node above the first level, which has only one, reads
`l1_` from index 16 on; and the hashes of a reply that ends behind its fixed part are read behind the
end of the payload. -/
theorem handle_message_out_of_bounds :
    let x := External.reference fun _ => 0
    let e := Engine.openOn x 1 []
    checkedHandle x (fun _ _ => 0) 1 e ((SyncMessage.reqNode 1 1).encode 7) = none ∧
      checkedHandle x (fun _ _ => 0) 1 e ((SyncMessage.repNode 1 0 []).encode 7) = none := by
  intro x e
  exact ⟨Option.isNone_iff_eq_none.mp (by decide +kernel),
    Option.isNone_iff_eq_none.mp (by decide +kernel)⟩

end L3KV
