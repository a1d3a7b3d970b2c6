import L3KV.Engine.Invariant
import L3KV.Engine.Writes
import L3KV.Framework.Numerals
import L3KV.Sync.Messages

/-!
# The handlers of the sync manager

One handler for each message type. A handler only ever answers the node whose identifier stands
in the message, so it returns the answers without their destination.
-/

namespace L3KV

open Framework

namespace Engine

variable (x : External)

def getMerkleRootHash (e : Engine) : UInt64 × Engine :=
  let root := e.store.merkle.getRootHash x.xxh3
  (root.1, { e with store := { e.store with merkle := root.2 } })

/-- `get_merkle_node`; `none` is a read out of bounds. -/
def getMerkleNode (e : Engine) (level : UInt8) (index : UInt32) : Option UInt64 :=
  e.store.merkle.getNodeHash level index.toNat

/-- Each shard lists its part when its thread comes to the task, behind what is queued. -/
def getBucketKeys (e : Engine) (bucket : UInt32) : Engine × List (Bytes × UInt64) :=
  (List.finRange 8).foldl (fun r shard =>
    let e := r.1.drain x shard
    (e, r.2 ++ e.store.shardBucketKeys x shard bucket)) (e, [])

end Engine

/-- `parent_idx * 16 + i` in 32 bits. -/
def childNode (parent : UInt32) (i : Nat) : UInt32 := parent * 16 + UInt32.ofNat i

structure ParsedMeta where
  ts : Timestamp
  isTombstone : Bool
  deriving DecidableEq, Repr

/-- The `try` block of `parse_meta`. The wall time is kept in a `double`. -/
def parseFields (l : Lite3) (buf : Bytes) : Option ParsedMeta := do
  let word (field : Bytes) : Option UInt32 := do
    let type ← l.getType buf field
    if type = .int64 ∨ type = .float64 then
      let value ← l.getI64 buf field
      some value.toUInt64.toUInt32
    else some 0
  let type ← l.getType buf (ascii "ts")
  let w ← if type = .float64 then l.getF64 buf (ascii "ts")
    else if type = .int64 then (l.getI64 buf (ascii "ts")).map fun n => (toDouble n.toInt : Rat)
    else some 0
  let logical ← word (ascii "l")
  let node ← word (ascii "n")
  let flag ← l.getType buf (ascii "tombstone")
  let tombstone ← if flag = .bool then l.getBool buf (ascii "tombstone") else some false
  some ⟨⟨truncate w, logical, node⟩, tombstone⟩

/-- The wall time as `parse_meta` reads it: zero if the field is not a number. -/
def parseWall (l : Lite3) (buf : Bytes) : Option Rat :=
  (l.getType buf (ascii "ts")).bind fun type =>
    if type = .float64 then l.getF64 buf (ascii "ts")
    else if type = .int64 then (l.getI64 buf (ascii "ts")).map fun n => (toDouble n.toInt : Rat)
    else some 0

def parseWord (l : Lite3) (buf field : Bytes) : Option UInt32 :=
  (l.getType buf field).bind fun type =>
    if type = .int64 ∨ type = .float64 then
      (l.getI64 buf field).map fun value => value.toUInt64.toUInt32
    else some 0

def parseFlag (l : Lite3) (buf : Bytes) : Option Bool :=
  (l.getType buf (ascii "tombstone")).bind fun flag =>
    if flag = .bool then l.getBool buf (ascii "tombstone") else some false

theorem parseFields_eq (l : Lite3) (buf : Bytes) :
    parseFields l buf = (parseWall l buf).bind fun w =>
      (parseWord l buf (ascii "l")).bind fun logical =>
        (parseWord l buf (ascii "n")).bind fun node => (parseFlag l buf).map fun tombstone =>
          ⟨⟨truncate w, logical, node⟩, tombstone⟩ := by
  have hite {α β : Type} (c : Prop) [Decidable c] (a b : Option α) (f : α → Option β) :
      (if c then a else b).bind f = if c then a.bind f else b.bind f := by
    split <;> rfl
  unfold parseFields parseWall parseWord parseFlag
  simp only [Option.bind_eq_bind, Option.bind_assoc, hite, Option.map_eq_bind]
  rfl

def parseMeta (l : Lite3) (metaBytes : Bytes) : ParsedMeta :=
  if metaBytes.isEmpty then ⟨Timestamp.zero, false⟩
  else (parseFields l metaBytes).getD ⟨Timestamp.zero, false⟩

section

variable (x : External)

def onSyncInit (e : Engine) (theirRoot : UInt64) : Engine × List SyncMessage :=
  let root := e.getMerkleRootHash x
  (root.2, if root.1 = theirRoot then [] else [.reqNode 1 0])

/-- The hashes of the sixteen children, as both `on_req_node` and `on_rep_node` look them up. -/
def childHashes (e : Engine) (level : UInt8) (parent : UInt32) : Option (List UInt64) :=
  (List.range 16).mapM fun i => e.getMerkleNode level (childNode parent i)

def onReqNode (e : Engine) (level : UInt8) (parent : UInt32) : Option SyncMessage :=
  (childHashes e level parent).map (.repNode level parent)

/-- What is asked about a node that differs: on the last level it is a bucket. -/
def drillDown (level : UInt8) (index : UInt32) : SyncMessage :=
  if level = 4 then .reqBucket index else .reqNode (level + 1) index

def onRepNode (e : Engine) (level : UInt8) (parent : UInt32) (hashes : List UInt64) :
    Option (List SyncMessage) :=
  (childHashes e level parent).map fun mine =>
    ((List.range 16).filter fun i => mine.getD i 0 ≠ hashes.getD i 0).map fun i =>
      drillDown level (childNode parent i)

def isMetaKey (key : Bytes) : Bool := (ascii ":meta").isSuffixOf key

def onReqBucket (e : Engine) (bucket : UInt32) : Engine × SyncMessage :=
  let keys := e.getBucketKeys x bucket
  (keys.1, .repBucket bucket (UInt32.ofNat keys.2.length)
    (keys.2.filter fun entry => !isMetaKey entry.1))

/-- The hash `on_rep_bucket` compares: that of what `get` returns, and zero for nothing. -/
def localHash (e : Engine) (key : Bytes) : UInt64 :=
  let buf := e.store.get x key adminUid
  if 0 < buf.length then x.xxh3 buf else 0

def onRepBucket (e : Engine) (entries : List (Bytes × UInt64)) : List SyncMessage :=
  (entries.filter fun entry => localHash x e entry.1 ≠ entry.2).map fun entry => .getVal entry.1

def onGetVal (e : Engine) (key : Bytes) : List SyncMessage :=
  let metaVal := e.store.get x (key ++ ascii ":meta") adminUid
  if metaVal.length = 0 then [] else [.putVal key metaVal (e.store.get x key adminUid)]

def onPutVal (unspecified : Nat → Nat → UInt8) (e : Engine) (key metaVal value : Bytes) :
    Option Engine :=
  let parsed := parseMeta x.lite3 metaVal
  (e.call x unspecified (.applyMutation ⟨parsed.ts, key, value, parsed.isTombstone⟩)).map Prod.fst

/-- What a message does to the engine, and what is sent back. -/
def answer (unspecified : Nat → Nat → UInt8) (e : Engine) :
    SyncMessage → Option (Engine × List SyncMessage)
  | .init root => some (onSyncInit x e root)
  | .reqNode level parent => (onReqNode e level parent).map fun m => (e, [m])
  | .repNode level parent hashes => (onRepNode e level parent hashes).map fun ms => (e, ms)
  | .reqBucket bucket => some ((onReqBucket x e bucket).1, [(onReqBucket x e bucket).2])
  | .repBucket _ _ entries => some (e, onRepBucket x e entries)
  | .getVal key => some (e, onGetVal x e key)
  | .putVal key metaVal value => (onPutVal x unspecified e key metaVal value).map fun e => (e, [])

/-- `handle_message` of the node `me`, with the payloads it sends; `none` is a read out of
bounds. -/
def handleMessage (unspecified : Nat → Nat → UInt8) (me : NodeID) (e : Engine) (payload : Bytes) :
    Option (Engine × List (NodeID × Bytes)) :=
  match decode payload with
  | (_, .ignored) => some (e, [])
  | (_, .overrun) => none
  | (sender, .message m) =>
      (answer x unspecified e m).map fun r => (r.1, r.2.map fun reply => (sender, reply.encode me))

/-- `send_sync_init`. -/
def sendSyncInit (me : NodeID) (e : Engine) (target : NodeID) : Engine × (NodeID × Bytes) :=
  let root := e.getMerkleRootHash x
  (root.2, (target, (SyncMessage.init root.1).encode me))

end

/-- The timestamp as the other node reads it out of the metadata. -/
def Timestamp.throughDouble (ts : Timestamp) : Timestamp :=
  { ts with wallTime := truncate (toDouble ts.wallTime.toInt) }

/-- The children of this node exist: the levels have 16, 256, 4096 and 65536 nodes. -/
structure OnLevel (level : UInt8) (parent : UInt32) : Prop where
  pos : 1 ≤ level.toNat
  le_four : level.toNat ≤ 4
  inside : parent.toNat < 16 ^ (level.toNat - 1)

section

variable {x : External} {u : Nat → Nat → UInt8} {e : Engine} {entries : Bytes → Option Entry}

/-- A payload that was sent is handled as the message it carries. -/
theorem handleMessage_encode (me sender : NodeID) (e : Engine) {m : SyncMessage} (h : m.Fits) :
    handleMessage x u me e (m.encode sender) = (answer x u e m.received).map fun r =>
      (r.1, r.2.map fun reply => (sender, reply.encode me)) := by
  rw [handleMessage, decode_encode sender h]

theorem handleMessage_keeps {P : Store → Prop} (h : Store.Keeps x P)
    (htree : ∀ st t, P st → P { st with merkle := t }) {me : NodeID} {payload : Bytes}
    {r : Engine × List (NodeID × Bytes)} (he : P e.store)
    (hr : handleMessage x u me e payload = some r) : P r.1.store := by
  have hanswer {m : SyncMessage} {r : Engine × List SyncMessage} (hr : answer x u e m = some r) :
      P r.1.store := by
    cases m with
    | init root =>
        cases hr
        exact htree _ _ he
    | reqNode level parent =>
        obtain ⟨_, -, rfl⟩ := Option.map_eq_some_iff.mp hr
        exact he
    | repNode level parent hashes =>
        obtain ⟨_, -, rfl⟩ := Option.map_eq_some_iff.mp hr
        exact he
    | reqBucket bucket =>
        cases hr
        have hfold (shards : List (Fin 8)) (r : Engine × List (Bytes × UInt64)) (hr : P r.1.store) :
            P (shards.foldl (fun r shard =>
              let e := r.1.drain x shard
              (e, r.2 ++ e.store.shardBucketKeys x shard bucket)) r).1.store := by
          induction shards generalizing r with
          | nil => exact hr
          | cons shard shards ih => exact ih _ (h.drain hr shard)
        exact hfold _ (e, []) he
    | repBucket bucket count entries =>
        cases hr
        exact he
    | getVal key =>
        cases hr
        exact he
    | putVal key metaVal value =>
        obtain ⟨e', he', rfl⟩ := Option.map_eq_some_iff.mp hr
        obtain ⟨r, hcall, rfl⟩ := Option.map_eq_some_iff.mp he'
        exact h.call he hcall
  unfold handleMessage at hr
  split at hr
  · cases hr
    exact he
  · cases hr
  · obtain ⟨r', hr', rfl⟩ := Option.map_eq_some_iff.mp hr
    exact hanswer hr'

theorem Timestamp.throughDouble_eq {ts : Timestamp} (h0 : 0 ≤ ts.wallTime.toInt)
    (h : ts.wallTime.toInt ≤ 2 ^ 53) : ts.throughDouble = ts := by
  rw [throughDouble, truncate_toDouble h0 h]

theorem parseMeta_reads {l : Lite3} {buf : Bytes} {ts : Timestamp} {tombstone : Bool}
    (h : ReadsMeta l buf ts tombstone) : parseMeta l buf = ⟨ts.throughDouble, tombstone⟩ := by
  have hne : buf.isEmpty = false := by simpa using h.ne_nil
  have hflag : parseFlag l buf = some tombstone := by
    have hflag := h.flag
    cases tombstone with
    | true => simp [parseFlag, hflag.1, hflag.2]
    | false =>
        obtain ⟨t, ht, hbool⟩ := hflag
        simp [parseFlag, ht, hbool]
  have hfields : parseFields l buf = some ⟨ts.throughDouble, tombstone⟩ := by
    simp [parseFields_eq, parseWall, parseWord, hflag, h.wall, h.logical, h.node,
      Timestamp.throughDouble]
  rw [parseMeta, hne, hfields]
  rfl

theorem Engine.getMerkleRootHash_settles (h : e.store.merkle.Coherent x.xxh3) :
    ∃ t : MerkleTree, e.getMerkleRootHash x = (scratchL0 x.xxh3 e.store.merkle.leaves 0,
        { e with store := { e.store with merkle := t } }) ∧
      t.Settled x.xxh3 ∧ t.leaves = e.store.merkle.leaves := by
  obtain ⟨t, hroot, hsettled, hleaves⟩ := MerkleTree.getRootHash_spec h
  refine ⟨t, ?_, hsettled, hleaves⟩
  rw [Engine.getMerkleRootHash, hroot]

theorem Represents.getMerkleRootHash (h : Represents x e.store entries) :
    ∃ t : MerkleTree, e.getMerkleRootHash x = (scratchL0 x.xxh3 e.store.merkle.leaves 0,
        { e with store := { e.store with merkle := t } }) ∧
      t.Settled x.xxh3 ∧ t.leaves = e.store.merkle.leaves ∧
      Represents x { e.store with merkle := t } entries := by
  obtain ⟨t, hroot, hsettled, hleaves⟩ := Engine.getMerkleRootHash_settles h.sound.coherent
  exact ⟨t, hroot, hsettled, hleaves, h.here, h.only, h.sound.settle hsettled hleaves⟩

theorem Engine.getBucketKeys_idle (h : e.Idle) (bucket : UInt32) :
    e.getBucketKeys x bucket = (e, e.store.bucketKeys x bucket) := by
  have hfold (shards : List (Fin 8)) (acc : List (Bytes × UInt64)) :
      shards.foldl (fun r shard =>
        let e := r.1.drain x shard
        (e, r.2 ++ e.store.shardBucketKeys x shard bucket)) (e, acc) =
      (e, acc ++ shards.flatMap fun shard => e.store.shardBucketKeys x shard bucket) := by
    induction shards generalizing acc with
    | nil => simp
    | cons shard shards ih =>
        rw [List.foldl_cons]
        simp only [drain_idle (h shard)]
        rw [ih, List.flatMap_cons, List.append_assoc]
  exact (hfold _ []).trans (by simp [Store.bucketKeys])

namespace OnLevel

variable {level : UInt8} {parent : UInt32}

private theorem parent_lt (h : OnLevel level parent) : parent.toNat < 4096 := by
  have hle : 16 ^ (level.toNat - 1) ≤ 16 ^ 3 :=
    Nat.pow_le_pow_right (by decide) (by have := h.le_four; omega)
  exact lt_of_lt_of_le h.inside hle

theorem childNode_toNat (h : OnLevel level parent) {i : Nat} (hi : i < 16) :
    (childNode parent i).toNat = parent.toNat * 16 + i := by
  have hlt := h.parent_lt
  simp only [childNode, UInt32.toNat_add, UInt32.toNat_mul, UInt32.toNat_ofNat']
  change (parent.toNat * 16 % 2 ^ 32 + i % 2 ^ 32) % 2 ^ 32 = _
  omega

theorem child_lt (h : OnLevel level parent) {i : Nat} (hi : i < 16) :
    (childNode parent i).toNat < 16 ^ level.toNat := by
  have hpow : 16 ^ level.toNat = 16 ^ (level.toNat - 1) * 16 := by
    rw [← pow_succ, Nat.sub_add_cancel h.pos]
  have hinside := h.inside
  rw [h.childNode_toNat hi, hpow]
  omega

theorem child (h : OnLevel level parent) (hlevel : level ≠ 4) {i : Nat} (hi : i < 16) :
    OnLevel (level + 1) (childNode parent i) := by
  have hne : level.toNat ≠ 4 := fun heq => hlevel (UInt8.toNat.inj heq)
  have hle := h.le_four
  have hsucc : (level + 1).toNat = level.toNat + 1 := by
    rw [UInt8.toNat_add]
    change (level.toNat + 1) % 256 = _
    omega
  constructor
  · omega
  · omega
  · rw [hsucc]
    exact h.child_lt hi

end OnLevel

def MerkleTree.nodeHash (t : MerkleTree) (level : UInt8) (index : Nat) : UInt64 :=
  (t.getNodeHash level index).getD 0

private theorem MerkleTree.cell_isSome_iff {n : Nat} (nodes : Fin n → UInt64) (index : Nat) :
    (cell nodes index).isSome ↔ index < n := by
  by_cases h : index < n <;> simp [cell, h]

theorem MerkleTree.cell_eq_none {n : Nat} (nodes : Fin n → UInt64) {index : Nat} (h : n ≤ index) :
    cell nodes index = none := dif_neg (Nat.not_lt.mpr h)

theorem MerkleTree.getNodeHash_isSome_iff (t : MerkleTree) (level : UInt8) (index : Nat) :
    (t.getNodeHash level index).isSome ↔
      (1 ≤ level.toNat → level.toNat ≤ 4 → index < 16 ^ level.toNat) := by
  have hnat {k : UInt8} (h : level ≠ k) : level.toNat ≠ k.toNat := fun heq => h (UInt8.toNat.inj heq)
  unfold getNodeHash
  split
  · rename_i h
    simp [h]
  rename_i h0
  split
  · rename_i h
    simp [h, cell_isSome_iff]
  rename_i h1
  split
  · rename_i h
    simp [h, cell_isSome_iff]
  rename_i h2
  split
  · rename_i h
    simp [h, cell_isSome_iff]
  rename_i h3
  split
  · rename_i h
    simp [h, cell_isSome_iff]
  · rename_i h4
    have hpos : level.toNat ≠ 0 := hnat h0
    have hone : level.toNat ≠ 1 := hnat h1
    have htwo : level.toNat ≠ 2 := hnat h2
    have hthree : level.toNat ≠ 3 := hnat h3
    have hfour : level.toNat ≠ 4 := hnat h4
    simp only [Option.isSome_some, true_iff]
    omega

private theorem MerkleTree.getNodeHash_eq (t : MerkleTree) {level : UInt8} {index : Nat}
    (hindex : index < 16 ^ level.toNat) :
    t.getNodeHash level index = some (t.nodeHash level index) := by
  obtain ⟨hash, hhash⟩ := Option.isSome_iff_exists.mp
    ((t.getNodeHash_isSome_iff level index).mpr fun _ _ => hindex)
  rw [nodeHash, hhash]
  rfl

theorem childHashes_eq (e : Engine) {level : UInt8} {parent : UInt32} (h : OnLevel level parent) :
    childHashes e level parent = some ((List.range 16).map fun i =>
      e.store.merkle.nodeHash level (parent.toNat * 16 + i)) := by
  apply mapM_some
  intro i hi
  have hi' : i < 16 := List.mem_range.mp hi
  rw [Engine.getMerkleNode, ← h.childNode_toNat hi']
  exact e.store.merkle.getNodeHash_eq (h.child_lt hi')

end

end L3KV
