import L3KV.Log.Checksum
import L3KV.Log.Recover

/-!
# Changed lengths in a header

The lengths in the header of a record are not covered by its checksum. `recover` finds out that they
were changed as long as other bytes are read then, but not that the same bytes are split elsewhere
into key and payload. Which lengths do no harm, whatever the record holds, is decided here.
-/

namespace L3KV

open Framework

/-- The call gives no record the tag that marks a batch. -/
def LogCall.Untagged : LogCall → Prop
  | append op _ _ => op ≠ WalOp.batch
  | appendBatch _ => True

private theorem LogCall.given_eq_logged {c : LogCall} (h : c.Untagged) : c.given = c.logged := by
  cases c with
  | append op key payload => exact (if_neg h).symm
  | appendBatch ops => rfl

namespace LogRecord

/-- The record as it stands in the file, with other lengths in its header. -/
def relabelled (r : LogRecord) (keyLen : UInt16) (payloadLen : UInt32) : Bytes :=
  LogHeader.encode ⟨r.header.crc, r.header.op, keyLen, payloadLen⟩ ++ (r.key ++ r.payload)

/-- The same bytes split behind so many of them. -/
def resplit (r : LogRecord) (keyLen : Nat) : LogRecord :=
  ⟨r.op, (r.key ++ r.payload).take keyLen, (r.key ++ r.payload).drop keyLen⟩

variable {r : LogRecord} {keyLen : UInt16} {payloadLen : UInt32}

private theorem relabelled_eq (hsum : keyLen.toNat + payloadLen.toNat = r.key.length + r.payload.length) :
    (r.resplit keyLen.toNat).Fits ∧
      r.relabelled keyLen payloadLen = (r.resplit keyLen.toNat).bytes := by
  have hkey : (r.resplit keyLen.toNat).key.length = keyLen.toNat := by
    rw [resplit, List.length_take, List.length_append]
    omega
  have hpayload : (r.resplit keyLen.toNat).payload.length = payloadLen.toNat := by
    rw [resplit, List.length_drop, List.length_append]
    omega
  have hbytes : (r.resplit keyLen.toNat).key ++ (r.resplit keyLen.toNat).payload =
      r.key ++ r.payload := List.take_append_drop _ _
  have hcrc : (r.resplit keyLen.toNat).header.crc = r.header.crc :=
    computeCrc_congr (by rw [checkedBytes, checkedBytes, hbytes]; rfl)
  have hheader : (r.resplit keyLen.toNat).header = ⟨r.header.crc, r.header.op, keyLen, payloadLen⟩ := by
    rw [← hcrc, header, hkey, hpayload, UInt16.ofNat_toNat, UInt32.ofNat_toNat]
    rfl
  refine ⟨⟨?_, ?_⟩, ?_⟩
  · rw [hkey]
    exact keyLen.toNat_lt
  · rw [hpayload]
    exact payloadLen.toNat_lt
  · rw [bytes_eq, hheader, hbytes, relabelled]

private theorem readRecord_relabelled {after : Bytes} {q : LogRecord}
    (h : readRecord (r.relabelled keyLen payloadLen ++ after) 0 = some q) :
    q.op = r.op ∧ q.key = (r.key ++ r.payload ++ after).take keyLen.toNat ∧
      q.payload = ((r.key ++ r.payload ++ after).drop keyLen.toNat).take payloadLen.toNat ∧
      q.key.length = keyLen.toNat ∧ q.payload.length = payloadLen.toNat ∧
      computeCrc q.op.code q.key q.payload = computeCrc r.op.code r.key r.payload := by
  obtain ⟨hfits, hfile⟩ := readRecord_sound h
  generalize (r.relabelled keyLen payloadLen ++ after).drop q.size = rest at hfile
  simp only [bytes_eq, relabelled, List.append_assoc] at hfile
  obtain ⟨hencode, hrest⟩ := List.append_inj hfile (by simp)
  have hheader : ⟨r.header.crc, r.header.op, keyLen, payloadLen⟩ = q.header := by
    rw [← LogHeader.decode_encode q.header, ← hencode, LogHeader.decode_encode]
  have hkey : q.key.length = keyLen.toNat := by
    rw [← header_keyLen hfits, ← hheader]
  have hpayload : q.payload.length = payloadLen.toNat := by
    rw [← header_payloadLen hfits, ← hheader]
  have hop : q.op = r.op := by
    have hcode : q.header.op = r.header.op := by rw [← hheader]
    exact WalOp.mk.injEq .. ▸ hcode
  have hcrc : q.header.crc = r.header.crc := by rw [← hheader]
  refine ⟨hop, ?_, ?_, hkey, hpayload, hcrc⟩
  · rw [List.append_assoc, hrest, ← hkey, List.take_left]
  · rw [List.append_assoc, hrest, ← hkey, List.drop_left, ← hpayload, List.take_left]

private theorem relabelled_stops {after : Bytes}
    (hsum : keyLen.toNat + payloadLen.toNat ≠ r.key.length + r.payload.length)
    (hcollision : let tail := r.key ++ r.payload ++ after
      let key := tail.take keyLen.toNat
      let payload := (tail.drop keyLen.toNat).take payloadLen.toNat
      computeCrc r.op.code key payload = computeCrc r.op.code r.key r.payload →
        checkedBytes r.op.code key payload = checkedBytes r.op.code r.key r.payload) :
    logFormat.Stops (r.relabelled keyLen payloadLen ++ after) := by
  cases h : readRecord (r.relabelled keyLen payloadLen ++ after) 0 with
  | none => exact h
  | some q =>
      obtain ⟨hop, hkey, hpayload, hklen, hplen, hcrc⟩ := readRecord_relabelled h
      rw [hop] at hcrc
      have hsame := hcollision (hkey ▸ hpayload ▸ hcrc)
      rw [← hkey, ← hpayload] at hsame
      have hlength := congrArg List.length hsame
      simp only [checkedBytes, List.length_cons, List.length_append, hklen, hplen] at hlength
      exact absurd (Nat.succ.inj hlength) hsum

private theorem resplit_ops (hbatch : r.op ≠ WalOp.batch)
    (hsum : keyLen.toNat + payloadLen.toNat = r.key.length + r.payload.length)
    (hother : keyLen.toNat ≠ r.key.length) (later : List BatchOp) :
    ¬ (r.resplit keyLen.toNat).ops ++ later <+: r.ops ++ later := by
  have hops : (r.resplit keyLen.toNat).ops = [⟨r.op, (r.key ++ r.payload).take keyLen.toNat,
      (r.key ++ r.payload).drop keyLen.toNat⟩] := if_neg hbatch
  have hown : r.ops = [⟨r.op, r.key, r.payload⟩] := if_neg hbatch
  rw [hops, hown, List.singleton_append, List.singleton_append, List.cons_prefix_cons]
  rintro ⟨hsame, -⟩
  have hlength := congrArg (fun o : BatchOp => o.key.length) hsame
  simp only [List.length_take, List.length_append] at hlength
  omega

end LogRecord

/-- A log as calls write it, with one of its records. -/
structure WrittenLog where
  calls : List LogCall
  fits : ∀ c ∈ calls, c.Fits
  untagged : ∀ c ∈ calls, c.Untagged
  earlier : List LogRecord
  record : LogRecord
  later : List LogRecord
  split : calls.flatMap LogCall.records = earlier ++ record :: later

namespace WrittenLog

def given (w : WrittenLog) : List BatchOp := w.calls.flatMap LogCall.given

/-- The file, with other lengths in the header of the record. -/
def relabelled (w : WrittenLog) (keyLen : UInt16) (payloadLen : UInt32) : Bytes :=
  w.earlier.flatMap LogRecord.bytes ++
    (w.record.relabelled keyLen payloadLen ++ w.later.flatMap LogRecord.bytes)

/-- If the bytes that are read with the new lengths have the checksum of the record, they are the bytes
of the record. -/
def NoCollision (w : WrittenLog) (keyLen : UInt16) (payloadLen : UInt32) : Prop :=
  let r := w.record
  let tail := r.key ++ r.payload ++ w.later.flatMap LogRecord.bytes
  let key := tail.take keyLen.toNat
  let payload := (tail.drop keyLen.toNat).take payloadLen.toNat
  computeCrc r.op.code key payload = computeCrc r.op.code r.key r.payload →
    checkedBytes r.op.code key payload = checkedBytes r.op.code r.key r.payload

/-- The two records have the same tag and the same lengths, and both or none of them is the last. -/
structure Alike (w w' : WrittenLog) : Prop where
  op : w'.record.op = w.record.op
  key : w'.record.key.length = w.record.key.length
  payload : w'.record.payload.length = w.record.payload.length
  last : w'.later = [] ↔ w.later = []

/-- The new lengths are the old ones, or add up to something else, or leave the last record, a batch,
without room for a number of entries and one entry. -/
def LengthsHarmless (w : WrittenLog) (keyLen payloadLen : Nat) : Prop :=
  (keyLen = w.record.key.length ∧ payloadLen = w.record.payload.length) ∨
    keyLen + payloadLen ≠ w.record.key.length + w.record.payload.length ∨
    (w.record.op = WalOp.batch ∧ w.later = [] ∧ payloadLen < 11)

variable {w : WrittenLog} {keyLen : UInt16} {payloadLen : UInt32}

private theorem records_fits (w : WrittenLog) : ∀ q ∈ w.earlier ++ w.record :: w.later, q.Fits := by
  rw [← w.split]
  exact LogCall.records_fits w.fits

private theorem given_eq (w : WrittenLog) : w.given =
    w.earlier.flatMap LogRecord.ops ++ (w.record.ops ++ w.later.flatMap LogRecord.ops) := by
  have hlogged := LogCall.records_logged w.fits
  rw [given, List.flatMap_congr fun c hc => LogCall.given_eq_logged (w.untagged c hc), ← hlogged,
    w.split, List.flatMap_append, List.flatMap_cons]

/-- The lengths in the file are those of the record, as long as nobody changes them. -/
theorem relabelled_own (w : WrittenLog) : w.relabelled w.record.header.keyLen
    w.record.header.payloadLen = ((LogFile.openAt []).runAll w.calls).bytes := by
  have hbytes (calls : List LogCall) : calls.flatMap LogCall.bytes =
      (calls.flatMap LogCall.records).flatMap LogRecord.bytes := by
    rw [List.flatMap_assoc]
    rfl
  have hfile := (LogFile.runAll_bytes (f := LogFile.openAt []) rfl w.calls).1
  rw [hfile, hbytes, w.split, List.flatMap_append, List.flatMap_cons]
  rfl

private theorem recover_resplit (hsum : keyLen.toNat + payloadLen.toNat =
      w.record.key.length + w.record.payload.length) :
    (LogFile.openAt (w.relabelled keyLen payloadLen)).recover.1 <+: w.given ↔
      (w.record.resplit keyLen.toNat).ops ++ w.later.flatMap LogRecord.ops <+:
        w.record.ops ++ w.later.flatMap LogRecord.ops := by
  obtain ⟨hresplit, hbytes⟩ := LogRecord.relabelled_eq hsum
  have hfile : w.relabelled keyLen payloadLen =
      logFormat.stream (w.earlier ++ w.record.resplit keyLen.toNat :: w.later) ++ [] := by
    rw [relabelled, hbytes, List.append_nil, RecordFormat.stream_append, RecordFormat.stream_cons]
    rfl
  have hfits : ∀ q ∈ w.earlier ++ w.record.resplit keyLen.toNat :: w.later, q.Fits := by
    intro q hq
    rcases List.mem_append.mp hq with hq | hq
    · exact w.records_fits q (List.mem_append_left _ hq)
    · rcases List.mem_cons.mp hq with rfl | hq
      · exact hresplit
      · exact w.records_fits q (List.mem_append_right _ (List.mem_cons_of_mem _ hq))
  rw [hfile, LogFile.recover_stream hfits RecordFormat.stops_nil, List.flatMap_append,
    List.flatMap_cons, given_eq, List.prefix_append_right_inj]

private theorem recover_other_sum (hsum : keyLen.toNat + payloadLen.toNat ≠
      w.record.key.length + w.record.payload.length) (hcollision : w.NoCollision keyLen payloadLen) :
    (LogFile.openAt (w.relabelled keyLen payloadLen)).recover.1 <+: w.given := by
  have hearlier : ∀ q ∈ w.earlier, q.Fits := fun q hq => w.records_fits q (List.mem_append_left _ hq)
  have hrecover := LogFile.recover_stream hearlier (LogRecord.relabelled_stops hsum hcollision)
  have hfile : w.relabelled keyLen payloadLen = logFormat.stream w.earlier ++
      (w.record.relabelled keyLen payloadLen ++ w.later.flatMap LogRecord.bytes) := rfl
  rw [hfile, hrecover, given_eq]
  exact List.prefix_append _ _

private theorem noCollision_of_sum (hsum : keyLen.toNat + payloadLen.toNat =
      w.record.key.length + w.record.payload.length) : w.NoCollision keyLen payloadLen := by
  intro _
  have hall : keyLen.toNat ≤ (w.record.key ++ w.record.payload).length := by
    rw [List.length_append]
    omega
  have hlen : ((w.record.key ++ w.record.payload).drop keyLen.toNat).length = payloadLen.toNat := by
    rw [List.length_drop, List.length_append]
    omega
  rw [checkedBytes, checkedBytes, List.take_append_of_le_length hall,
    List.drop_append_of_le_length hall, List.take_left' hlen, List.take_append_drop]

private theorem parseBatch_short {payload : Bytes} (h : payload.length < 11) :
    parseBatch payload = [] := by
  unfold parseBatch
  split
  · rfl
  · have hrest : (payload.drop 4).length < 7 := by
      rw [List.length_drop]
      omega
    generalize readWord 4 payload 0 = count
    cases count with
    | zero => rfl
    | succ count => rw [parseBatchEntries, if_pos hrest]

private theorem recover_of_harmless (h : w.LengthsHarmless keyLen.toNat payloadLen.toNat)
    (hcollision : w.NoCollision keyLen payloadLen) :
    (LogFile.openAt (w.relabelled keyLen payloadLen)).recover.1 <+: w.given := by
  by_cases hsum : keyLen.toNat + payloadLen.toNat = w.record.key.length + w.record.payload.length
  · rw [recover_resplit hsum]
    rcases h with ⟨hkey, -⟩ | hother | ⟨hbatch, hlast, hshort⟩
    · have hsame : w.record.resplit keyLen.toNat = w.record := by
        rw [LogRecord.resplit, hkey, List.take_left, List.drop_left]
      rw [hsame]
    · exact absurd hsum hother
    · have hlen : ((w.record.key ++ w.record.payload).drop keyLen.toNat).length < 11 := by
        rw [List.length_drop, List.length_append]
        omega
      have hops : (w.record.resplit keyLen.toNat).ops = [] := by
        rw [LogRecord.ops, LogRecord.resplit, if_pos hbatch, parseBatch_short hlen]
      rw [hops, hlast]
      exact List.nil_prefix
  · exact recover_other_sum hsum hcollision

private theorem batch_record (hbatch : w.record.op = WalOp.batch) :
    w.record.key = [] ∧ 11 ≤ w.record.payload.length := by
  have hmem : w.record ∈ w.calls.flatMap LogCall.records := by
    rw [w.split]
    exact List.mem_append_right _ List.mem_cons_self
  obtain ⟨c, hc, hrecord⟩ := List.mem_flatMap.mp hmem
  have huntagged := w.untagged c hc
  have hfits := w.fits c hc
  rcases c with ⟨op, key, payload⟩ | ⟨_ | ⟨o, ops⟩⟩
  · rw [List.mem_singleton.mp hrecord] at hbatch
    exact absurd hbatch huntagged
  · exact absurd hrecord List.not_mem_nil
  · rw [List.mem_singleton.mp hrecord]
    refine ⟨rfl, ?_⟩
    rw [batchPayload_length hfits, batchPayloadSize, List.map_cons, List.sum_cons]
    omega

/-- A log whose record is a batch of one operation, with or without a record behind it. -/
private def ofBatch (o : BatchOp) (ho : BatchFits [o]) (last : Bool) : WrittenLog where
  calls := .appendBatch [o] :: if last then [] else [.append WalOp.put [] []]
  fits := by
    intro c hc
    rcases List.mem_cons.mp hc with rfl | hc
    · exact ho
    · cases last with
      | true => exact absurd hc List.not_mem_nil
      | false =>
          rw [List.mem_singleton.mp hc]
          exact ⟨by decide, by decide⟩
  untagged := by
    intro c hc
    rcases List.mem_cons.mp hc with rfl | hc
    · trivial
    · cases last with
      | true => exact absurd hc List.not_mem_nil
      | false =>
          rw [List.mem_singleton.mp hc]
          exact (by decide : WalOp.put ≠ WalOp.batch)
  earlier := []
  record := ⟨WalOp.batch, [], batchPayload [o]⟩
  later := if last then [] else [⟨WalOp.put, [], []⟩]
  split := by cases last <;> rfl

/-- A key that ends in zeros: with as many bytes less in front, the number of entries is read from the
header or the key, and its end is read as the length of an empty key. -/
private def shiftedKey (k : Nat) : Bytes := List.replicate (k - 2) 1 ++ List.replicate (min k 2) 0

private theorem shiftedKey_length (k : Nat) : (shiftedKey k).length = k := by
  rw [shiftedKey, List.length_append, List.length_replicate, List.length_replicate]
  omega

private theorem drop_shiftedKey {k : Nat} (hk : 0 < k) :
    ∃ count, ∃ op : WalOp, count + 1 < 2 ^ 32 ∧
      (leBytes 4 1 ++ (leBytes 1 WalOp.put.code.toNat ++ (leBytes 2 k ++ shiftedKey k))).drop k =
        leBytes 4 (count + 1) ++ (leBytes 1 op.code.toNat ++ leBytes 2 0) := by
  by_cases hlong : 7 ≤ k
  · -- The seven bytes are all from the key.
    obtain ⟨j, rfl⟩ := Nat.exists_eq_add_of_le hlong
    refine ⟨0x01010100, ⟨1⟩, by decide, ?_⟩
    have hkey : shiftedKey (7 + j) = List.replicate j 1 ++ [1, 1, 1, 1, 1, 0, 0] := by
      have hones : 7 + j - 2 = j + 5 := by omega
      have hzeros : min (7 + j) 2 = 2 := by omega
      rw [shiftedKey, hones, hzeros, List.replicate_add, List.append_assoc]
      rfl
    have hfront : (leBytes 4 1 ++ (leBytes 1 WalOp.put.code.toNat ++ leBytes 2 (7 + j))).length = 7 := by
      simp
    rw [hkey, ← List.append_assoc (leBytes 1 _), ← List.append_assoc (leBytes 4 1), ← List.drop_drop,
      List.drop_left' hfront, List.drop_left' List.length_replicate]
    decide
  · have hcases : k = 1 ∨ k = 2 ∨ k = 3 ∨ k = 4 ∨ k = 5 ∨ k = 6 := by omega
    rcases hcases with rfl | rfl | rfl | rfl | rfl | rfl
    · exact ⟨0x00ffffff, ⟨1⟩, by decide, by decide⟩
    · exact ⟨0x0200ffff, ⟨0⟩, by decide, by decide⟩
    · exact ⟨0x000300ff, ⟨1⟩, by decide, by decide⟩
    · exact ⟨0x01000400, ⟨1⟩, by decide, by decide⟩
    · exact ⟨0x01010004, ⟨1⟩, by decide, by decide⟩
    · exact ⟨0x010100ff, ⟨1⟩, by decide, by decide⟩

private theorem exists_misread {k size : Nat} (hk : 0 < k) (hmax : k < 2 ^ 16)
    (hsize : k + 11 ≤ size)
    (hfits : size < 2 ^ 32) :
    ∃ (o o' : BatchOp) (more : List BatchOp), BatchFits [o] ∧ (batchPayload [o]).length = size ∧
      parseBatch ((batchPayload [o]).drop k) = o' :: more ∧ o' ≠ o := by
  obtain ⟨count, op, hcount, hdrop⟩ := drop_shiftedKey hk
  have hlen := shiftedKey_length k
  let value : Bytes := List.replicate (size - 11 - k) 0
  have hvalue : value.length = size - 11 - k := List.length_replicate
  let o : BatchOp := ⟨WalOp.put, shiftedKey k, value⟩
  let o' : BatchOp := ⟨op, [], value⟩
  have ho' : o'.Fits := ⟨Nat.two_pow_pos 16, show value.length < 2 ^ 32 by omega⟩
  have htotal : batchPayloadSize [o] = size := by
    simp only [batchPayloadSize, List.map_cons, List.map_nil, List.sum_cons, List.sum_nil, o, hlen,
      hvalue]
    omega
  have ho : BatchFits [o] := by
    refine ⟨fun q hq => ?_, by omega⟩
    rw [List.mem_singleton.mp hq]
    exact hlen.trans_lt hmax
  have hpayload : (batchPayload [o]).drop k = leBytes 4 (count + 1) ++ batchEntry o' := by
    have hfront : (batchPayload [o]) = (leBytes 4 1 ++ (leBytes 1 WalOp.put.code.toNat ++
        (leBytes 2 k ++ shiftedKey k))) ++ (leBytes 4 value.length ++ value) := by
      rw [batchPayload_eq ho, List.flatMap_singleton, batchEntry_eq (ho.op_fits List.mem_cons_self)]
      simp only [List.length_singleton, List.append_assoc, o, hlen]
    have hk : k ≤ (leBytes 4 1 ++ (leBytes 1 WalOp.put.code.toNat ++
        (leBytes 2 k ++ shiftedKey k))).length := by
      simp only [List.length_append, hlen]
      omega
    rw [hfront, List.drop_append_of_le_length hk, hdrop, batchEntry_eq ho']
    simp only [List.append_assoc, List.length_nil, List.nil_append, o']
  refine ⟨o, o', parseBatchEntries count [], ho, ?_, ?_, ?_⟩
  · rw [batchPayload_length ho, htotal]
  · have hentry := parseBatchEntries_entry ho' count []
    rw [List.append_nil] at hentry
    have hlong : ¬ (leBytes 4 (count + 1) ++ batchEntry o').length < 4 := by
      rw [List.length_append, leBytes_length]
      omega
    rw [hpayload, parseBatch, if_neg hlong, readWord_front hcount, List.drop_left' (leBytes_length _ _),
      hentry]
  · intro heq
    have hkey : ([] : Bytes) = shiftedKey k := congrArg BatchOp.key heq
    have hzero := congrArg List.length hkey
    rw [hlen] at hzero
    exact hk.ne hzero

private theorem exists_ofBatch (hbatch : w.record.op = WalOp.batch) {o : BatchOp}
    (ho : BatchFits [o])
    (hlen : (batchPayload [o]).length = w.record.payload.length) {last : Bool}
    (hlast : last = true ↔ w.later = [])
    (hsum : keyLen.toNat + payloadLen.toNat = w.record.payload.length) {o' : BatchOp}
    {more : List BatchOp} (hne : o' ≠ o)
    (hfirst : parseBatch ((batchPayload [o]).drop keyLen.toNat) ++
      (ofBatch o ho last).later.flatMap LogRecord.ops = o' :: more) :
    ∃ w', w.Alike w' ∧ w'.NoCollision keyLen payloadLen ∧
      ¬ (LogFile.openAt (w'.relabelled keyLen payloadLen)).recover.1 <+: w'.given := by
  have hsum' : keyLen.toNat + payloadLen.toNat = (ofBatch o ho last).record.key.length +
      (ofBatch o ho last).record.payload.length := by
    rw [hsum, ← hlen]
    exact (Nat.zero_add _).symm
  refine ⟨ofBatch o ho last, ⟨hbatch.symm, ?_, hlen, ?_⟩, noCollision_of_sum hsum', ?_⟩
  · rw [(batch_record hbatch).1]
    rfl
  · rw [← hlast]
    cases last <;> simp [ofBatch]
  · have hops : ((ofBatch o ho last).record.resplit keyLen.toNat).ops =
        parseBatch ((batchPayload [o]).drop keyLen.toNat) := if_pos rfl
    have hown : (ofBatch o ho last).record.ops = [o] :=
      (if_pos rfl).trans (parseBatch_batchPayload ho)
    rw [recover_resplit hsum', hops, hown, hfirst, List.singleton_append, List.cons_prefix_cons]
    exact fun h => hne h.1

private theorem exists_harmed (h : ¬ w.LengthsHarmless keyLen.toNat payloadLen.toNat) :
    ∃ w', w.Alike w' ∧ w'.NoCollision keyLen payloadLen ∧
      ¬ (LogFile.openAt (w'.relabelled keyLen payloadLen)).recover.1 <+: w'.given := by
  simp only [LengthsHarmless, not_or, not_and, not_not] at h
  obtain ⟨hother, hsum, hroom⟩ := h
  by_cases hbatch : w.record.op = WalOp.batch
  · obtain ⟨hkey, hsize⟩ := batch_record hbatch
    have hpayload := (w.records_fits w.record (List.mem_append_right _ List.mem_cons_self)).2
    rw [hkey, List.length_nil] at hother hsum
    rw [Nat.zero_add] at hsum
    by_cases hshort : payloadLen.toNat < 11
    · -- The batch is lost, and the record behind it is not.
      have hlater : w.later ≠ [] := fun hlast => absurd hshort (hroom hbatch hlast)
      let o : BatchOp := ⟨WalOp.delete, [], List.replicate (w.record.payload.length - 11) 0⟩
      have hsame : batchPayloadSize [o] = w.record.payload.length := by
        simp only [batchPayloadSize, List.map_cons, List.map_nil, List.sum_cons, List.sum_nil, o,
          List.length_nil, List.length_replicate]
        omega
      have ho : BatchFits [o] := by
        refine ⟨fun q hq => ?_, by omega⟩
        rw [List.mem_singleton.mp hq]
        exact Nat.two_pow_pos 16
      have hlen : (batchPayload [o]).length = w.record.payload.length :=
        (batchPayload_length ho).trans hsame
      have hlost : parseBatch ((batchPayload [o]).drop keyLen.toNat) = [] := by
        apply parseBatch_short
        rw [List.length_drop]
        omega
      have hfirst : parseBatch ((batchPayload [o]).drop keyLen.toNat) ++
          (ofBatch o ho false).later.flatMap LogRecord.ops = [⟨WalOp.put, [], []⟩] := by
        rw [hlost]
        rfl
      have hne : (⟨WalOp.put, [], []⟩ : BatchOp) ≠ o := by
        intro heq
        exact absurd (congrArg BatchOp.op heq) (by decide : WalOp.put ≠ WalOp.delete)
      exact exists_ofBatch hbatch ho hlen (by simpa using hlater) hsum hne hfirst
    · obtain ⟨o, o', more, ho, hlen, hparse, hne⟩ := exists_misread (by omega : 0 < keyLen.toNat)
        keyLen.toNat_lt (by omega : keyLen.toNat + 11 ≤ w.record.payload.length) hpayload
      have hlast : decide (w.later = []) = true ↔ w.later = [] := decide_eq_true_iff
      have hfirst : parseBatch ((batchPayload [o]).drop keyLen.toNat) ++
          (ofBatch o ho (decide (w.later = []))).later.flatMap LogRecord.ops =
            o' :: (more ++ (ofBatch o ho (decide (w.later = []))).later.flatMap LogRecord.ops) := by
        rw [hparse, List.cons_append]
      exact exists_ofBatch hbatch ho hlen hlast hsum hne hfirst
  · refine ⟨w, ⟨rfl, rfl, rfl, Iff.rfl⟩, noCollision_of_sum hsum, ?_⟩
    rw [recover_resplit hsum]
    refine LogRecord.resplit_ops hbatch hsum (fun hkey => ?_) _
    exact hother hkey (by omega)

/-- The lengths in the header of one record are replaced. For every log with a record of these lengths,
what `recover` delivers begins the operations that were appended, if and only if the new lengths are
harmless. -/
theorem relabelled_recover_iff (w : WrittenLog) (keyLen : UInt16) (payloadLen : UInt32) :
    (∀ w', w.Alike w' → w'.NoCollision keyLen payloadLen →
      (LogFile.openAt (w'.relabelled keyLen payloadLen)).recover.1 <+: w'.given) ↔
    w.LengthsHarmless keyLen.toNat payloadLen.toNat := by
  constructor
  · intro hall
    by_contra hnot
    obtain ⟨w', halike, hcollision, hharmed⟩ := exists_harmed hnot
    exact hharmed (hall w' halike hcollision)
  · intro h w' halike hcollision
    refine recover_of_harmless ?_ hcollision
    rw [LengthsHarmless, halike.op, halike.key, halike.payload, halike.last]
    exact h

/-- The log of one put. -/
private def onePut : WrittenLog where
  calls := [.append WalOp.put (ascii "ab") (ascii "c")]
  fits := by
    intro c hc
    rw [List.mem_singleton.mp hc]
    exact ⟨by decide, by decide⟩
  untagged := by
    intro c hc
    rw [List.mem_singleton.mp hc]
    exact (by decide : WalOp.put ≠ WalOp.batch)
  earlier := []
  record := ⟨WalOp.put, ascii "ab", ascii "c"⟩
  later := []
  split := rfl

/-- One byte more for the key: the file ends before the record does. -/
theorem relabelled_recover_iff_longer :
    (LogFile.openAt (onePut.relabelled 3 1)).recover.1 <+: onePut.given := by
  refine (relabelled_recover_iff onePut 3 1).mpr (Or.inr (Or.inl (by decide))) onePut
    ⟨rfl, rfl, rfl, Iff.rfl⟩ ?_
  intro _
  decide

end WrittenLog
/-- A byte of the key is counted to the payload: `recover` delivers a put that nobody made. -/
theorem relabelled_invents :
    let calls := [LogCall.append WalOp.put (ascii "ab") (ascii "c")]
    let r : LogRecord := ⟨WalOp.put, ascii "ab", ascii "c"⟩
    ((LogFile.openAt []).runAll calls).bytes = r.relabelled 2 1 ∧
      (LogFile.openAt (r.relabelled 1 2)).recover.1 = [⟨WalOp.put, ascii "a", ascii "bc"⟩] ∧
      ¬ (LogFile.openAt (r.relabelled 1 2)).recover.1 <+: calls.flatMap LogCall.given := by
  intro calls r
  have hresplit := @LogRecord.relabelled_eq r 1 2 rfl
  have hfits : ∀ q ∈ [r.resplit 1], q.Fits := by
    intro q hq
    rw [List.mem_singleton.mp hq]
    exact hresplit.1
  have hrecover : (LogFile.openAt (r.relabelled 1 2)).recover.1 =
      [⟨WalOp.put, ascii "a", ascii "bc"⟩] := by
    have hstream := LogFile.recover_stream hfits RecordFormat.stops_nil
    rw [RecordFormat.stream_cons, RecordFormat.stream_nil, List.append_nil, List.append_nil] at hstream
    rw [hresplit.2]
    exact congrArg Prod.fst hstream
  refine ⟨by decide, hrecover, ?_⟩
  rw [hrecover]
  decide

end L3KV
