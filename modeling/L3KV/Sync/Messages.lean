import L3KV.Framework.Words

/-!
# Sync messages

Every message starts with its type and the identifier of the node that sent it. `encode`
collects what the sending functions of the sync manager write, `decode` what its handlers read
before they act.
-/

namespace L3KV

open Framework

abbrev NodeID := UInt32

/-- `enum MsgType : uint8_t`; a payload may start with any byte. -/
structure MsgType where
  code : UInt8
  deriving DecidableEq, Repr

namespace MsgType

def syncInit : MsgType := ⟨1⟩
def syncReqNode : MsgType := ⟨2⟩
def syncRepNode : MsgType := ⟨3⟩
def syncReqBucket : MsgType := ⟨4⟩
def syncRepBucket : MsgType := ⟨5⟩
def syncGetVal : MsgType := ⟨6⟩
def syncPutVal : MsgType := ⟨7⟩

end MsgType

inductive SyncMessage where
  | init (root : UInt64)
  | reqNode (level : UInt8) (parent : UInt32)
  | repNode (level : UInt8) (parent : UInt32) (hashes : List UInt64)
  | reqBucket (bucket : UInt32)
  /-- The count is that of all keys of the bucket, the entries leave out the sidecars. -/
  | repBucket (bucket count : UInt32) (entries : List (Bytes × UInt64))
  | getVal (key : Bytes)
  | putVal (key metaVal value : Bytes)
  deriving DecidableEq, Repr

/-- `[Type:1][ID:4]`. -/
def syncHeader (type : MsgType) (sender : NodeID) : Bytes := type.code :: leBytes 4 sender.toNat

/-- `[KeyLen:2][Key][Hash:8]`. Of a long key only the bytes the length admits to are copied. -/
def encodeEntry (entry : Bytes × UInt64) : Bytes :=
  let klen := entry.1.length % 2 ^ 16
  leBytes 2 klen ++ (entry.1.take klen ++ leBytes 8 entry.2.toNat)

def SyncMessage.encode (sender : NodeID) : SyncMessage → Bytes
  | .init root => syncHeader .syncInit sender ++ leBytes 8 root.toNat
  | .reqNode level parent =>
      syncHeader .syncReqNode sender ++ (leBytes 1 level.toNat ++ leBytes 4 parent.toNat)
  | .repNode level parent hashes =>
      -- Three bytes of padding follow the level.
      syncHeader .syncRepNode sender ++ (leBytes 1 level.toNat ++ (leBytes 3 0 ++
        (leBytes 4 parent.toNat ++ hashes.flatMap fun h => leBytes 8 h.toNat)))
  | .reqBucket bucket => syncHeader .syncReqBucket sender ++ leBytes 4 bucket.toNat
  | .repBucket bucket count entries =>
      syncHeader .syncRepBucket sender ++ (leBytes 4 bucket.toNat ++
        (leBytes 4 count.toNat ++ entries.flatMap encodeEntry))
  | .getVal key => syncHeader .syncGetVal sender ++ key
  | .putVal key metaVal value =>
      syncHeader .syncPutVal sender ++ (leBytes 2 key.length ++ (key ++
        (leBytes 2 metaVal.length ++ (metaVal ++ value))))

/-- What the handlers make of a payload. -/
inductive Decoded where
  /-- Too short, or of no known type: nothing happens. -/
  | ignored
  /-- The handler reads behind the end of the payload. -/
  | overrun
  | message (m : SyncMessage)
  deriving DecidableEq, Repr

def decodeSyncInit (buf : Bytes) : Decoded :=
  if buf.length < 13 then .ignored else .message (.init (UInt64.ofNat (readWord 8 buf 5)))

def decodeReqNode (buf : Bytes) : Decoded :=
  if buf.length < 10 then .ignored
  else .message (.reqNode (UInt8.ofNat (readWord 1 buf 5)) (UInt32.ofNat (readWord 4 buf 6)))

/-- Only the fixed part is checked; sixteen hashes are read in any case. -/
def decodeRepNode (buf : Bytes) : Decoded :=
  if buf.length < 13 then .ignored
  else if buf.length < 13 + 16 * 8 then .overrun
  else .message (.repNode (UInt8.ofNat (readWord 1 buf 5)) (UInt32.ofNat (readWord 4 buf 9))
    ((List.range 16).map fun i => UInt64.ofNat (readWord 8 buf (13 + i * 8))))

def decodeReqBucket (buf : Bytes) : Decoded :=
  if buf.length < 9 then .ignored else .message (.reqBucket (UInt32.ofNat (readWord 4 buf 5)))

/-- The entries of a bucket listing: at most `count`, up to the first that is cut off. -/
def decodeEntries (buf : Bytes) : Nat → Nat → List (Bytes × UInt64)
  | 0, _ => []
  | count + 1, pos =>
      if buf.length < pos + 10 then []
      else
        let klen := readWord 2 buf pos
        if buf.length < pos + 2 + klen + 8 then []
        else
          (slice buf (pos + 2) klen, UInt64.ofNat (readWord 8 buf (pos + 2 + klen))) ::
            decodeEntries buf count (pos + 2 + klen + 8)

def decodeRepBucket (buf : Bytes) : Decoded :=
  if buf.length < 13 then .ignored
  else
    let count := readWord 4 buf 9
    .message (.repBucket (UInt32.ofNat (readWord 4 buf 5)) (UInt32.ofNat count)
      (decodeEntries buf count 13))

def decodePutVal (buf : Bytes) : Decoded :=
  if buf.length < 7 then .ignored
  else
    let klen := readWord 2 buf 5
    if buf.length < 7 + klen then .ignored
    else if buf.length < 7 + klen + 2 then .ignored
    else
      let mlen := readWord 2 buf (7 + klen)
      if buf.length < 7 + klen + 2 + mlen then .ignored
      else .message (.putVal (slice buf 7 klen) (slice buf (7 + klen + 2) mlen)
        (buf.drop (7 + klen + 2 + mlen)))

/-- The `switch` of `handle_message`. -/
def decodeAs (type : MsgType) (buf : Bytes) : Decoded :=
  if type = .syncInit then decodeSyncInit buf
  else if type = .syncReqNode then decodeReqNode buf
  else if type = .syncRepNode then decodeRepNode buf
  else if type = .syncReqBucket then decodeReqBucket buf
  else if type = .syncRepBucket then decodeRepBucket buf
  else if type = .syncGetVal then .message (.getVal (buf.drop 5))
  else if type = .syncPutVal then decodePutVal buf
  else .ignored

/-- The sender and the content of a payload. -/
def decode (buf : Bytes) : NodeID × Decoded :=
  if buf.length < 5 then (0, .ignored)
  else (UInt32.ofNat (readWord 4 buf 1), decodeAs ⟨buf.headD 0⟩ buf)

/-- The lengths the format gives room for. -/
def SyncMessage.Fits : SyncMessage → Prop
  | .repNode _ _ hashes => hashes.length = 16
  | .repBucket _ _ entries => ∀ entry ∈ entries, entry.1.length < 2 ^ 16
  | .putVal key metaVal _ => key.length < 2 ^ 16 ∧ metaVal.length < 2 ^ 16
  | _ => True

/-- A message as its receiver sees it: a listing is read only as far as its count goes. -/
def SyncMessage.received : SyncMessage → SyncMessage
  | .repBucket bucket count entries => .repBucket bucket count (entries.take count.toNat)
  | m => m

@[simp] theorem syncHeader_length (type : MsgType) (sender : NodeID) :
    (syncHeader type sender).length = 5 := by
  simp [syncHeader]

private theorem decode_header (type : MsgType) (sender : NodeID) (body : Bytes) :
    decode (syncHeader type sender ++ body) =
      (sender, decodeAs type (syncHeader type sender ++ body)) := by
  have hsender : readWord 4 (syncHeader type sender ++ body) 1 = sender.toNat :=
    readWord_leBytes 4 sender.toNat [type.code] body (by simpa using sender.toNat_lt)
  have hlen : ¬ (syncHeader type sender ++ body).length < 5 := by simp
  have hhead : (syncHeader type sender ++ body).headD 0 = type.code := rfl
  rw [decode, if_neg hlen, hsender, hhead, UInt32.ofNat_toNat]

theorem readWord_hashes (hashes : List UInt64) (i : Nat) (hi : i < hashes.length) :
    readWord 8 (hashes.flatMap fun h => leBytes 8 h.toNat) (i * 8) = hashes[i].toNat := by
  induction hashes generalizing i with
  | nil => simp at hi
  | cons h hashes ih =>
      cases i with
      | zero => simpa using readWord_front (by simpa using h.toNat_lt) _
      | succ i =>
          have hpos : (i + 1) * 8 - 8 = i * 8 := by omega
          rw [List.flatMap_cons, readWord_skip (by rw [leBytes_length]; omega), leBytes_length, hpos]
          exact ih i (by simpa using hi)

private theorem decodeEntries_encode (before : Bytes) (entries : List (Bytes × UInt64))
    (count : Nat)
    (hfits : ∀ entry ∈ entries, entry.1.length < 2 ^ 16) :
    decodeEntries (before ++ entries.flatMap encodeEntry) count before.length =
      entries.take count := by
  induction entries generalizing before count with
  | nil => cases count <;> simp [decodeEntries]
  | cons entry entries ih =>
      cases count with
      | zero => rfl
      | succ count =>
          obtain ⟨key, hash⟩ := entry
          have hkey : key.length < 2 ^ 16 := hfits (key, hash) (by simp)
          have hencode : encodeEntry (key, hash) =
              leBytes 2 key.length ++ (key ++ leBytes 8 hash.toNat) := by
            simp only [encodeEntry, Nat.mod_eq_of_lt hkey, List.take_length]
          have hlen : (encodeEntry (key, hash)).length = 2 + key.length + 8 := by
            simp [hencode]
            omega
          have hrest := ih (before ++ encodeEntry (key, hash)) count
            fun entry hentry => hfits entry (by simp [hentry])
          rw [List.length_append, hlen, List.append_assoc] at hrest
          have hklen : readWord 2 (before ++ (encodeEntry (key, hash) ++
              entries.flatMap encodeEntry)) before.length = key.length := by
            rw [hencode, List.append_assoc]
            exact readWord_leBytes 2 _ _ _ (by simpa using hkey)
          have hslice : slice (before ++ (encodeEntry (key, hash) ++
              entries.flatMap encodeEntry)) (before.length + 2) key.length = key := by
            rw [slice_skip (by omega), hencode, List.append_assoc, slice_skip (by simp)]
            simp
          have hhash : readWord 8 (before ++ (encodeEntry (key, hash) ++
              entries.flatMap encodeEntry)) (before.length + 2 + key.length) = hash.toNat := by
            rw [readWord_skip (by omega), hencode, List.append_assoc, readWord_skip (by simp; omega),
              List.append_assoc, readWord_skip (by simp; omega)]
            have hpos : before.length + 2 + key.length - before.length -
                (leBytes 2 key.length).length - key.length = 0 := by simp; omega
            rw [hpos]
            exact readWord_front (by simpa using hash.toNat_lt) _
          have hroom : ¬ before.length + (2 + key.length + 8 + (entries.flatMap encodeEntry).length) <
              before.length + 10 := by omega
          have hroom' : ¬ before.length + (2 + key.length + 8 + (entries.flatMap encodeEntry).length) <
              before.length + 2 + key.length + 8 := by omega
          rw [List.flatMap_cons, decodeEntries, List.length_append, List.length_append, hlen,
            if_neg hroom]
          simp only [hklen, if_neg hroom', hslice, hhash, UInt64.ofNat_toNat, List.take_succ_cons]
          rw [← hrest]
          congr 2
          omega

private theorem decodePutVal_encode (sender : NodeID) {key metaVal value : Bytes}
    (hkey : key.length < 256 ^ 2) (hmeta : metaVal.length < 256 ^ 2) :
    decodePutVal (SyncMessage.encode sender (.putVal key metaVal value)) =
      .message (.putVal key metaVal value) := by
  -- The payload, split in front of its key, of its metadata and of its value.
  have hfront : SyncMessage.encode sender (.putVal key metaVal value) =
      (syncHeader .syncPutVal sender ++ leBytes 2 key.length) ++
        (key ++ (leBytes 2 metaVal.length ++ (metaVal ++ value))) := by
    simp [SyncMessage.encode]
  have hmiddle : SyncMessage.encode sender (.putVal key metaVal value) =
      (syncHeader .syncPutVal sender ++ leBytes 2 key.length ++ key) ++
        (leBytes 2 metaVal.length ++ (metaVal ++ value)) := by
    simp [SyncMessage.encode]
  have hend : SyncMessage.encode sender (.putVal key metaVal value) =
      (syncHeader .syncPutVal sender ++ leBytes 2 key.length ++ key ++
        leBytes 2 metaVal.length) ++ (metaVal ++ value) := by
    simp [SyncMessage.encode]
  have hlen : (SyncMessage.encode sender (.putVal key metaVal value)).length =
      7 + key.length + 2 + metaVal.length + value.length := by
    rw [hend]
    simp only [List.length_append, syncHeader_length, leBytes_length]
    omega
  have hklen : readWord 2 (SyncMessage.encode sender (.putVal key metaVal value)) 5 =
      key.length := by
    rw [SyncMessage.encode, readWord_skip (by simp), syncHeader_length]
    exact readWord_front hkey _
  have hkslice : slice (SyncMessage.encode sender (.putVal key metaVal value)) 7 key.length =
      key := by
    rw [hfront, slice_skip (by simp)]
    simp
  have hmlen : readWord 2 (SyncMessage.encode sender (.putVal key metaVal value))
      (7 + key.length) = metaVal.length := by
    have hat := readWord_leBytes 2 metaVal.length
      (syncHeader .syncPutVal sender ++ leBytes 2 key.length ++ key) (metaVal ++ value) hmeta
    simp only [List.length_append, syncHeader_length, leBytes_length] at hat
    rw [hmiddle]
    exact hat
  have hmslice : slice (SyncMessage.encode sender (.putVal key metaVal value))
      (7 + key.length + 2) metaVal.length = metaVal := by
    have hat := slice_middle (syncHeader .syncPutVal sender ++ leBytes 2 key.length ++ key ++
      leBytes 2 metaVal.length) metaVal value
    simp only [List.length_append, syncHeader_length, leBytes_length] at hat
    rw [hend]
    exact hat
  have hdrop : (SyncMessage.encode sender (.putVal key metaVal value)).drop
      (7 + key.length + 2 + metaVal.length) = value := by
    rw [hend, ← List.append_assoc]
    apply List.drop_left'
    simp only [List.length_append, syncHeader_length, leBytes_length]
  rw [decodePutVal]
  simp only [hlen, hklen, hkslice, hmlen, hmslice, hdrop]
  rw [if_neg (by omega), if_neg (by omega), if_neg (by omega), if_neg (by omega)]

private theorem readWord32 (w : UInt32) (after : Bytes) :
    readWord 4 (leBytes 4 w.toNat ++ after) 0 = w.toNat :=
  readWord_front (by simpa using w.toNat_lt) after

theorem decode_repBucket (sender : NodeID) (bucket count : UInt32)
    (entries : List (Bytes × UInt64)) :
    decode (SyncMessage.encode sender (.repBucket bucket count entries)) =
      (sender, .message (.repBucket bucket count (decodeEntries
        (SyncMessage.encode sender (.repBucket bucket count entries)) count.toNat 13))) := by
  have hroom (n : Nat) : ¬ 5 + (4 + (4 + n)) < 13 := by omega
  rw [SyncMessage.encode, decode_header, decodeAs, if_neg (by decide), if_neg (by decide),
    if_neg (by decide), if_neg (by decide), if_pos rfl, decodeRepBucket]
  simp only [List.length_append, syncHeader_length, leBytes_length, if_neg (hroom _)]
  simp [readWord_skip, readWord32]

theorem decode_putVal (sender : NodeID) (key metaVal value : Bytes) :
    decode (SyncMessage.encode sender (.putVal key metaVal value)) =
      (sender, decodePutVal (SyncMessage.encode sender (.putVal key metaVal value))) := by
  rw [SyncMessage.encode, decode_header, decodeAs, if_neg (by decide), if_neg (by decide),
    if_neg (by decide), if_neg (by decide), if_neg (by decide), if_neg (by decide), if_pos rfl]

theorem decodePutVal_cases (buf : Bytes) : decodePutVal buf = .ignored ∨
    ∃ key metaVal value, decodePutVal buf = .message (.putVal key metaVal value) := by
  unfold decodePutVal
  dsimp only
  split_ifs
  · exact .inl rfl
  · exact .inl rfl
  · exact .inl rfl
  · exact .inl rfl
  · exact .inr ⟨_, _, _, rfl⟩

/-- What was sent is what the handlers read. -/
theorem decode_encode (sender : NodeID) {m : SyncMessage} (h : m.Fits) :
    decode (m.encode sender) = (sender, .message m.received) := by
  have hword8 (w : UInt8) (after : Bytes) : readWord 1 (leBytes 1 w.toNat ++ after) 0 = w.toNat :=
    readWord_front (by simpa using w.toNat_lt) after
  have hlast32 (w : UInt32) : readWord 4 (leBytes 4 w.toNat) 0 = w.toNat := by
    simpa using readWord32 w []
  cases m with
  | init root =>
      have hroot : readWord 8 (leBytes 8 root.toNat) 0 = root.toNat := by
        simpa using readWord_front (by simpa using root.toNat_lt) []
      rw [SyncMessage.encode, decode_header, decodeAs, if_pos rfl]
      simp [decodeSyncInit, readWord_skip, hroot, SyncMessage.received]
  | reqNode level parent =>
      rw [SyncMessage.encode, decode_header, decodeAs, if_neg (by decide), if_pos rfl]
      simp [decodeReqNode, readWord_skip, hword8, hlast32, SyncMessage.received]
  | repNode level parent hashes =>
      have hsixteen : hashes.length = 16 := h
      have hbytes : (hashes.flatMap fun w => leBytes 8 w.toNat).length = 128 := by
        simp [List.length_flatMap, hsixteen]
      have hread (i : Nat) : readWord 8 (syncHeader .syncRepNode sender ++ (leBytes 1 level.toNat ++
          (leBytes 3 0 ++ (leBytes 4 parent.toNat ++ hashes.flatMap fun w => leBytes 8 w.toNat))))
          (13 + i * 8) = readWord 8 (hashes.flatMap fun w => leBytes 8 w.toNat) (i * 8) := by
        have hskip := readWord_append_right 8 (syncHeader .syncRepNode sender ++
          (leBytes 1 level.toNat ++ (leBytes 3 0 ++ leBytes 4 parent.toNat)))
          (hashes.flatMap fun w => leBytes 8 w.toNat) (i * 8)
        simpa using hskip
      have hhashes : (List.range 16).map (fun i => UInt64.ofNat (readWord 8
          (hashes.flatMap fun w => leBytes 8 w.toNat) (i * 8))) = hashes := by
        apply List.ext_getElem
        · simp [hsixteen]
        · intro i hi hi'
          simp [readWord_hashes hashes i hi']
      rw [SyncMessage.encode, decode_header, decodeAs, if_neg (by decide), if_neg (by decide),
        if_pos rfl, decodeRepNode]
      simp only [List.length_append, syncHeader_length, leBytes_length, hbytes, hread, hhashes]
      simp [readWord_skip, hword8, readWord32, SyncMessage.received]
  | reqBucket bucket =>
      rw [SyncMessage.encode, decode_header, decodeAs, if_neg (by decide), if_neg (by decide),
        if_neg (by decide), if_pos rfl]
      simp [decodeReqBucket, readWord_skip, hlast32, SyncMessage.received]
  | repBucket bucket count entries =>
      have hentries := decodeEntries_encode (syncHeader .syncRepBucket sender ++
        (leBytes 4 bucket.toNat ++ leBytes 4 count.toNat)) entries count.toNat h
      simp only [List.append_assoc, List.length_append, syncHeader_length, leBytes_length,
        Nat.reduceAdd] at hentries
      rw [decode_repBucket, SyncMessage.encode, hentries, SyncMessage.received]
  | getVal key =>
      rw [SyncMessage.encode, decode_header, decodeAs, if_neg (by decide), if_neg (by decide),
        if_neg (by decide), if_neg (by decide), if_neg (by decide), if_pos rfl]
      simp [SyncMessage.received]
  | putVal key metaVal value =>
      rw [decode_putVal, decodePutVal_encode sender h.1 h.2]
      rfl

end L3KV
