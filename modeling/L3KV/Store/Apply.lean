import Std.Data.ExtTreeMap.Lemmas
import L3KV.Framework.Numerals
import L3KV.Log.Format
import L3KV.Store.Blob
import L3KV.Store.Credentials
import L3KV.Store.Merkle

/-!
# The store and the operations applied to it

Eight shards of ordered maps, the Merkle tree over their values, the dictionary and the
access rules: everything that the `apply_*` functions of the engine change. Each of them
replaces the value of one key and feeds the difference of the two value hashes to the tree.
-/

namespace L3KV

open Framework

/-- Everything the engine calls that is not part of the repository or left open by the
language. -/
structure External where
  lite3 : Lite3
  zstd : Zstd
  /-- `XXH3_64bits`. -/
  xxh3 : Bytes → UInt64
  /-- The order `std::sort` puts rules in. -/
  sortRules : List ACLRule → List ACLRule
  /-- What a `std::string` holds after it was moved from. -/
  movedFrom : Bytes → Bytes

/-- `KeyBuilder::meta_key`, that is `snprintf("%.*s:meta")` into 1024 bytes: the precision is
the length as an `int`, a NUL ends the text, and a result that does not fit is empty. -/
def metaKey (key : Bytes) : Bytes :=
  let text := key.takeWhile (· ≠ 0)
  let precision := key.length % 2 ^ 32
  let shown := if precision < 2 ^ 31 then text.take precision else text
  let name := shown ++ ascii ":meta"
  if 1024 ≤ name.length then [] else name

theorem metaKey_eq {key : Bytes} (h : key.length < 2 ^ 31) :
    metaKey key = if 1019 ≤ (key.takeWhile (· ≠ 0)).length then []
      else key.takeWhile (· ≠ 0) ++ ascii ":meta" := by
  have hprecision : key.length % 2 ^ 32 = key.length := Nat.mod_eq_of_lt (by omega)
  have hle : (key.takeWhile (· ≠ 0)).length ≤ key.length := (List.takeWhile_sublist _).length_le
  have hfive : (ascii ":meta").length = 5 := by decide
  simp only [metaKey, hprecision, if_pos h, List.take_of_length_le hle, List.length_append, hfive]
  by_cases hlong : 1019 ≤ (key.takeWhile (· ≠ 0)).length
  · rw [if_pos (by omega), if_pos hlong]
  · rw [if_neg (by omega), if_neg hlong]

theorem metaKey_length_lt (key : Bytes) : (metaKey key).length < 1024 := by
  have hcut (name : Bytes) : (if 1024 ≤ name.length then [] else name).length < 1024 := by
    split
    · simp
    · omega
  exact hcut _

/-- No key is its own sidecar: the text in front of `:meta` ends at a NUL or not at all. -/
theorem metaKey_ne (key : Bytes) : metaKey key ≠ key := by
  intro h
  have hshort : key.length < 1024 := by
    rw [← h]
    exact metaKey_length_lt key
  rw [metaKey_eq (by omega)] at h
  split at h
  · rename_i hlong
    rw [← h] at hlong
    simp at hlong
  · have hsplit := List.takeWhile_append_dropWhile (p := fun b : UInt8 => b ≠ 0) (l := key)
    have htail : key.dropWhile (· ≠ 0) = ascii ":meta" :=
      List.append_cancel_left (hsplit.trans h.symm)
    have hhead := List.head?_dropWhile_not (fun b : UInt8 => decide (b ≠ 0)) key
    have hcolon : (ascii ":meta").head? = some 0x3a := by decide
    rw [htail, hcolon] at hhead
    simp at hhead

/-- A key whose sidecar is its own text followed by `:meta`. -/
def PlainKey (key : Bytes) : Prop := metaKey key = key ++ ascii ":meta"

/-- `std::string::find` of a text, as a test. -/
def contains (needle : Bytes) : Bytes → Bool
  | [] => needle.isEmpty
  | b :: rest => needle.isPrefixOf (b :: rest) || contains needle rest

/-- `get_routing_shard`: the part between the first braces decides, or the whole key. -/
def routingShard (xxh3 : Bytes → UInt64) (key : Bytes) : Fin 8 :=
  let hashed :=
    match key.dropWhile (· ≠ 0x7b) with
    | [] => key
    | _ :: rest =>
        match rest.findIdx? (· = 0x7d) with
        | none => key
        | some n => rest.take n
  ⟨(xxh3 hashed).toNat % 8, Nat.mod_lt _ (Nat.succ_pos 7)⟩

/-- The buffer the hook of `sys:u:` keys reads the user from; `none` if parsing throws. -/
def userBuffer (l : Lite3) (body : Bytes) : Option Bytes :=
  if 4 ≤ body.length ∧ (body.head? = some 0x06 ∨ body.head? = some 0x07) then some body
  else if isJsonPayload body then l.fromJsonString body
  else some []

namespace CredentialManager

/-- The hook of `apply_put` for keys `sys:u:{uid}`. -/
def hookUser (l : Lite3) (c : CredentialManager) (key body : Bytes) : CredentialManager :=
  match stoul (key.drop 6), userBuffer l body with
  | some uid, some buf =>
      if buf.length = 0 then c
      else
        let name := (l.getStr buf (ascii "name")).getD []
        let publicKey := (l.getStr buf (ascii "public_key")).getD []
        if name.isEmpty || publicKey.isEmpty then c
        else c.registerUser (UInt32.ofNat uid) name publicKey
  | _, _ => c

/-- The hook of `apply_put` for keys `sys:acl:{uid}:{prefix}`. -/
def hookAcl (sort : List ACLRule → List ACLRule) (c : CredentialManager) (key body : Bytes) :
    CredentialManager :=
  let sub := key.drop 8
  match sub.findIdx? (· = 0x3a) with
  | none => c
  | some colon =>
      match stoul (sub.take colon) with
      | none => c
      | some uid =>
          let grant (word : String) (perm : Permission) (granted : Permission) :=
            if contains (ascii word) body then granted.union perm else granted
          let perm := grant "ADMIN" .admin (grant "WRITE" .write (grant "READ" .read .none))
          c.setAcl sort (UInt32.ofNat uid) (sub.drop (colon + 1)) perm

def hook (x : External) (c : CredentialManager) (key body : Bytes) : CredentialManager :=
  if (ascii "sys:u:").isPrefixOf key then c.hookUser x.lite3 key body
  else if (ascii "sys:acl:").isPrefixOf key then c.hookAcl x.sortRules key body
  else c

/-- The users and rules the constructor of the engine sets up. -/
def bootstrap (sort : List ACLRule → List ACLRule) : CredentialManager :=
  (((init.registerUser adminUid (ascii "admin") (ascii "admin-key")).setAcl sort adminUid
    (ascii "*") .admin).registerUser internalUid (ascii "internal") (ascii "internal-key")).setAcl
    sort internalUid (ascii "*") .admin

end CredentialManager

structure Store where
  shards : Fin 8 → Std.ExtTreeMap Bytes Blob
  merkle : MerkleTree
  zstd : ZstdManager
  credentials : CredentialManager

/-- An operation as a shard thread performs it. -/
inductive ShardOp where
  | put (key body : Bytes)
  | patchInt (key field : Bytes) (value : Int64)
  | patchStr (key field value : Bytes)
  | del (key : Bytes)
  deriving DecidableEq

namespace ShardOp

def key : ShardOp → Bytes
  | put key _ => key
  | patchInt key _ _ => key
  | patchStr key _ _ => key
  | del key => key

/-- The entry of the log that stands for the operation. -/
def logEntry : ShardOp → BatchOp
  | put key body => ⟨WalOp.put, key, body⟩
  | patchInt key field value => ⟨WalOp.patchI64, key, field ++ ascii ":" ++ decimal value.toInt⟩
  | patchStr key field value => ⟨WalOp.patchStr, key, field ++ ascii ":" ++ value⟩
  | del key => ⟨WalOp.delete, key, []⟩

@[simp] theorem logEntry_key (o : ShardOp) : o.logEntry.key = o.key := by
  cases o <;> rfl

end ShardOp

namespace Store

section

variable (x : External)

def init : Store where
  shards := fun _ => ∅
  merkle := MerkleTree.init x.xxh3
  zstd := ZstdManager.init
  credentials := CredentialManager.bootstrap x.sortRules

/-- `get_view`. -/
def find (st : Store) (key : Bytes) : Option Blob := (st.shards (routingShard x.xxh3 key))[key]?

/-- `hash_blob`, and 0 for a key that is not there. -/
def hashOf (blob : Option Blob) : UInt64 :=
  match blob with
  | none => 0
  | some b => x.xxh3 b.buf

/-- The common end of the `apply_*` functions: the map entry is replaced and the tree told. -/
def install (st : Store) (key : Bytes) (b : Blob) : Store :=
  let shard := routingShard x.xxh3 key
  let oldHash := hashOf x (st.find x key)
  let newHash := hashOf x (some b)
  { st with
    shards := Function.update st.shards shard ((st.shards shard).insert key b)
    merkle := st.merkle.applyDelta x.xxh3 key (oldHash ^^^ newHash) }

def applyPut (st : Store) (key body : Bytes) : Store :=
  let made := Blob.overwrite x.lite3 x.zstd st.zstd body
  let st := { st with zstd := made.2 }.install x key made.1
  { st with credentials := st.credentials.hook x key body }

/-- `apply_patch_int` and `apply_patch_str`, up to the field they set; `none` if the setter
throws, which happens before anything is changed. -/
def applyPatch (st : Store) (key : Bytes) (set : Blob → Option Blob) : Option Store :=
  let start :=
    match st.find x key with
    | some b => if 0 < b.buf.length then b else Blob.empty
    | none => Blob.empty
  (set start).map (st.install x key)

def applyPatchInt (st : Store) (key field : Bytes) (value : Int64) : Option Store :=
  st.applyPatch x key (Blob.setInt x.lite3 x.zstd st.zstd field value)

def applyPatchStr (st : Store) (key field value : Bytes) : Option Store :=
  st.applyPatch x key (Blob.setStr x.lite3 x.zstd st.zstd field value)

def applyDel (st : Store) (key : Bytes) : Store := st.install x key Blob.empty

/-- One operation; `none` if it throws. -/
def apply (st : Store) : ShardOp → Option Store
  | .put key body => some (st.applyPut x key body)
  | .patchInt key field value => st.applyPatchInt x key field value
  | .patchStr key field value => st.applyPatchStr x key field value
  | .del key => some (st.applyDel x key)

/-- A task of a shard queue: its operations in order, up to the first that throws. The flag
says whether the task came to its end. -/
def runTask (st : Store) : List ShardOp → Store × Bool
  | [] => (st, true)
  | o :: task =>
      match st.apply x o with
      | none => (st, false)
      | some st' => runTask st' task

/-- The bytes `Engine::get` returns; empty also for no permission and for no entry. -/
def get (st : Store) (key : Bytes) (principal : UInt32) : Bytes :=
  if (st.credentials.checkPermission principal key).canRead then
    match st.find x key with
    | none => []
    | some b => b.read x.zstd st.zstd
  else []

/-- The callback the constructor passes to `recover`; an operation that throws is skipped. -/
def replay (st : Store) (o : BatchOp) : Store :=
  if o.op = WalOp.put then st.applyPut x o.key o.value
  else if o.op = WalOp.patchI64 then
    match o.value.findIdx? (· = 0x3a) with
    | none => st
    | some colon =>
        match stoll (o.value.drop (colon + 1)) with
        | none => st
        | some value => (st.applyPatchInt x o.key (o.value.take colon) value).getD st
  else if o.op = WalOp.patchStr then
    match o.value.findIdx? (· = 0x3a) with
    | none => st
    | some colon =>
        (st.applyPatchStr x o.key (o.value.take colon) (o.value.drop (colon + 1))).getD st
  else if o.op = WalOp.delete then st.applyDel x o.key
  else st

/-- What `get_bucket_keys` has the thread of a shard collect, in key order. -/
def shardBucketKeys (st : Store) (shard : Fin 8) (bucket : UInt32) : List (Bytes × UInt64) :=
  ((st.shards shard).toList.filter fun entry =>
    (bucketOf x.xxh3 entry.1 : Nat) = bucket.toNat).map fun entry =>
      (entry.1, hashOf x (some entry.2))

end

section

variable {x : External}

@[simp] theorem install_zstd (st : Store) (key : Bytes) (b : Blob) :
    (st.install x key b).zstd = st.zstd := rfl

@[simp] theorem install_credentials (st : Store) (key : Bytes) (b : Blob) :
    (st.install x key b).credentials = st.credentials := rfl

theorem install_find (st : Store) (key : Bytes) (b : Blob) (other : Bytes) :
    (st.install x key b).find x other = if other = key then some b else st.find x other := by
  unfold find install
  by_cases hshard : routingShard x.xxh3 other = routingShard x.xxh3 key
  · simp only [hshard, Function.update_self, Std.ExtTreeMap.getElem?_insert,
      Std.LawfulEqCmp.compare_eq_iff_eq]
    by_cases hkey : key = other
    · simp [hkey]
    · rw [if_neg hkey, if_neg (Ne.symm hkey)]
  · have hkey : other ≠ key := fun h => hshard (by rw [h])
    rw [if_neg hkey]
    simp only [Function.update_of_ne hshard]

theorem applyPut_find (st : Store) (key body other : Bytes) :
    (st.applyPut x key body).find x other =
      if other = key then some (Blob.overwrite x.lite3 x.zstd st.zstd body).1
      else st.find x other :=
  install_find _ _ _ _

@[simp] theorem applyPut_zstd (st : Store) (key body : Bytes) :
    (st.applyPut x key body).zstd = (Blob.overwrite x.lite3 x.zstd st.zstd body).2 := rfl

@[simp] theorem applyPut_credentials (st : Store) (key body : Bytes) :
    (st.applyPut x key body).credentials = st.credentials.hook x key body := rfl

theorem applyDel_find (st : Store) (key other : Bytes) :
    (st.applyDel x key).find x other = if other = key then some Blob.empty else st.find x other :=
  install_find _ _ _ _

@[simp] theorem applyDel_zstd (st : Store) (key : Bytes) : (st.applyDel x key).zstd = st.zstd := rfl

@[simp] theorem applyDel_credentials (st : Store) (key : Bytes) :
    (st.applyDel x key).credentials = st.credentials := rfl

theorem apply_find_ne {st st' : Store} {o : ShardOp} (h : st.apply x o = some st') {key : Bytes}
    (hne : key ≠ o.key) :
    st'.find x key = st.find x key := by
  cases o with
  | put other body =>
      cases h
      exact (applyPut_find ..).trans (if_neg hne)
  | patchInt other field value =>
      obtain ⟨b, -, rfl⟩ := Option.map_eq_some_iff.mp h
      exact (install_find ..).trans (if_neg hne)
  | patchStr other field value =>
      obtain ⟨b, -, rfl⟩ := Option.map_eq_some_iff.mp h
      exact (install_find ..).trans (if_neg hne)
  | del other =>
      cases h
      exact (applyDel_find ..).trans (if_neg hne)

theorem apply_follows {st st' : Store} {o : ShardOp} (h : st.apply x o = some st') :
    st.zstd.Follows st'.zstd := by
  cases o with
  | put key body =>
      cases h
      exact Blob.overwrite_follows _ _ _ _
  | patchInt key field value =>
      obtain ⟨b, -, rfl⟩ := Option.map_eq_some_iff.mp h
      exact ZstdManager.Follows.refl _
  | patchStr key field value =>
      obtain ⟨b, -, rfl⟩ := Option.map_eq_some_iff.mp h
      exact ZstdManager.Follows.refl _
  | del key =>
      cases h
      exact ZstdManager.Follows.refl _

theorem replay_put (st : Store) (key body : Bytes) :
    st.replay x (ShardOp.put key body).logEntry = st.applyPut x key body := by
  simp [replay, ShardOp.logEntry]

theorem replay_del (st : Store) (key : Bytes) :
    st.replay x (ShardOp.del key).logEntry = st.applyDel x key := by
  simp [replay, ShardOp.logEntry, WalOp.put, WalOp.patchI64, WalOp.patchStr, WalOp.delete]

end

end Store

end L3KV
