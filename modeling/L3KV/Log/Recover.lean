import Mathlib.Algebra.Order.BigOperators.Group.List
import L3KV.Framework.Records
import L3KV.Log.Format

/-!
# Recovery undoes appending

Every file that `append` and `appendBatch` write, cut at any byte, is a run of complete
records followed by a torn one. `recover` delivers the operations of the former, stops at
the latter on the length checks alone, and leaves a file that can be appended to again.
-/

namespace L3KV

open Framework

namespace LogHeader

@[simp] theorem encode_length (h : LogHeader) : h.encode.length = headerSize := by
  simp [encode, headerSize]

theorem decode_encode (h : LogHeader) : decode h.encode = h := by
  have hcrc : readWord 4 h.encode 0 = h.crc.toNat :=
    readWord_leBytes 4 _ [] _ h.crc.toNat_lt
  have hop : readWord 1 h.encode 4 = h.op.toNat := by
    have := readWord_leBytes 1 h.op.toNat (leBytes 4 h.crc.toNat)
      (leBytes 2 h.keyLen.toNat ++ leBytes 4 h.payloadLen.toNat) h.op.toNat_lt
    simpa [encode] using this
  have hkey : readWord 2 h.encode 5 = h.keyLen.toNat := by
    have := readWord_leBytes 2 h.keyLen.toNat (leBytes 4 h.crc.toNat ++ leBytes 1 h.op.toNat)
      (leBytes 4 h.payloadLen.toNat) h.keyLen.toNat_lt
    simpa [encode] using this
  have hpayload : readWord 4 h.encode 7 = h.payloadLen.toNat := by
    have := readWord_leBytes 4 h.payloadLen.toNat
      (leBytes 4 h.crc.toNat ++ (leBytes 1 h.op.toNat ++ leBytes 2 h.keyLen.toNat)) []
      h.payloadLen.toNat_lt
    simpa [encode] using this
  simp [decode, hcrc, hop, hkey, hpayload]

private theorem encode_decode {buf : Bytes} (h : buf.length = headerSize) :
    encode (decode buf) = buf := by
  have hcrc : (decode buf).crc.toNat = readWord 4 buf 0 := by
    rw [decode, UInt32.toNat_ofNat']
    exact Nat.mod_eq_of_lt (readWord_lt 4 buf 0)
  have hop : (decode buf).op.toNat = readWord 1 buf 4 := by
    rw [decode, UInt8.toNat_ofNat']
    exact Nat.mod_eq_of_lt (readWord_lt 1 buf 4)
  have hkey : (decode buf).keyLen.toNat = readWord 2 buf 5 := by
    rw [decode, UInt16.toNat_ofNat']
    exact Nat.mod_eq_of_lt (readWord_lt 2 buf 5)
  have hpayload : (decode buf).payloadLen.toNat = readWord 4 buf 7 := by
    rw [decode, UInt32.toNat_ofNat']
    exact Nat.mod_eq_of_lt (readWord_lt 4 buf 7)
  rw [headerSize] at h
  rw [encode, hcrc, hop, hkey, hpayload, leBytes_readWord (by omega), leBytes_readWord (by omega),
    leBytes_readWord (by omega), leBytes_readWord (by omega), slice_concat buf 5 2 4,
    slice_concat buf 4 1 6, slice_concat buf 0 4 7, slice, List.drop_zero, List.take_of_length_le (by omega)]

end LogHeader

/-- The lengths of the operation survive the narrowing in the batch format. -/
def BatchOp.Fits (o : BatchOp) : Prop := o.key.length < 2 ^ 16 ∧ o.value.length < 2 ^ 32

theorem batchEntry_eq {o : BatchOp} (ho : o.Fits) :
    batchEntry o = leBytes 1 o.op.code.toNat ++ (leBytes 2 o.key.length ++
      (o.key ++ (leBytes 4 o.value.length ++ o.value))) := by
  rw [batchEntry, Nat.mod_eq_of_lt ho.1, Nat.mod_eq_of_lt ho.2, List.take_length,
    List.take_length]

private theorem batchEntry_length {o : BatchOp} (ho : o.Fits) :
    (batchEntry o).length = 1 + 2 + o.key.length + 4 + o.value.length := by
  simp only [batchEntry_eq ho, List.length_append, leBytes_length]
  omega

theorem parseBatchEntries_entry {o : BatchOp} (ho : o.Fits) (count : Nat) (rest : Bytes) :
    parseBatchEntries (count + 1) (batchEntry o ++ rest) = o :: parseBatchEntries count rest := by
  have hlen := batchEntry_length ho
  have hklen : readWord 2 (batchEntry o ++ rest) 1 = o.key.length := by
    have := readWord_leBytes 2 o.key.length (leBytes 1 o.op.code.toNat)
      (o.key ++ (leBytes 4 o.value.length ++ (o.value ++ rest))) ho.1
    simpa [batchEntry_eq ho] using this
  have hvlen : readWord 4 (batchEntry o ++ rest) (3 + o.key.length) = o.value.length := by
    have := readWord_leBytes 4 o.value.length
      (leBytes 1 o.op.code.toNat ++ (leBytes 2 o.key.length ++ o.key)) (o.value ++ rest) ho.2
    simpa [batchEntry_eq ho, ← Nat.add_assoc] using this
  have hop : readWord 1 (batchEntry o ++ rest) 0 = o.op.code.toNat := by
    have := readWord_leBytes 1 o.op.code.toNat []
      (leBytes 2 o.key.length ++ (o.key ++ (leBytes 4 o.value.length ++ (o.value ++ rest))))
      o.op.code.toNat_lt
    simpa [batchEntry_eq ho] using this
  have hkey : slice (batchEntry o ++ rest) 3 o.key.length = o.key := by
    have := slice_middle (leBytes 1 o.op.code.toNat ++ leBytes 2 o.key.length) o.key
      (leBytes 4 o.value.length ++ (o.value ++ rest))
    simpa [batchEntry_eq ho] using this
  have hvalue : slice (batchEntry o ++ rest) (3 + o.key.length + 4) o.value.length = o.value := by
    have := slice_middle (leBytes 1 o.op.code.toNat ++ (leBytes 2 o.key.length ++
      (o.key ++ leBytes 4 o.value.length))) o.value rest
    simpa [batchEntry_eq ho, ← Nat.add_assoc] using this
  have hdrop : (batchEntry o ++ rest).drop (3 + o.key.length + 4 + o.value.length) = rest := by
    rw [show 3 + o.key.length + 4 + o.value.length = (batchEntry o).length by omega]
    exact List.drop_left
  have htotal : (batchEntry o ++ rest).length =
      1 + 2 + o.key.length + 4 + o.value.length + rest.length := by
    rw [List.length_append, hlen]
  rw [parseBatchEntries]
  simp only [hklen, hvlen, hop, hkey, hvalue, hdrop]
  rw [if_neg (by omega), if_neg (by omega), if_neg (by omega)]
  simp

private theorem parseBatchEntries_flatMap (ops : List BatchOp) (hops : ∀ o ∈ ops, o.Fits)
    (rest : Bytes) :
    parseBatchEntries ops.length (ops.flatMap batchEntry ++ rest) = ops := by
  induction ops with
  | nil => rfl
  | cons o ops ih =>
      have ho := hops o (by simp)
      have htail : ∀ p ∈ ops, p.Fits := fun p hp => hops p (by simp [hp])
      rw [List.length_cons, List.flatMap_cons, List.append_assoc, parseBatchEntries_entry ho,
        ih htail]

/-- A batch whose keys are short and whose payload length fits its header field. -/
def BatchFits (ops : List BatchOp) : Prop :=
  (∀ o ∈ ops, o.key.length < 2 ^ 16) ∧ batchPayloadSize ops < 2 ^ 32

private theorem entry_le_batchPayloadSize {ops : List BatchOp} {o : BatchOp} (ho : o ∈ ops) :
    1 + 2 + o.key.length + 4 + o.value.length ≤ batchPayloadSize ops := by
  have hle := List.single_le_sum (fun _ _ => Nat.zero_le _) _ (List.mem_map_of_mem
    (f := fun o : BatchOp => 1 + 2 + o.key.length + 4 + o.value.length) ho)
  simp only [batchPayloadSize]
  omega

theorem BatchFits.op_fits {ops : List BatchOp} (h : BatchFits ops) {o : BatchOp} (ho : o ∈ ops) :
    o.Fits := by
  have hle := entry_le_batchPayloadSize ho
  have hlt := h.2
  exact ⟨h.1 o ho, by omega⟩

private theorem length_le_batchPayloadSize (ops : List BatchOp) :
    ops.length ≤ batchPayloadSize ops := by
  have hsum : ops.length ≤
      (ops.map fun o => 1 + 2 + o.key.length + 4 + o.value.length).sum := by
    induction ops with
    | nil => simp
    | cons o ops ih =>
        simp only [List.length_cons, List.map_cons, List.sum_cons]
        omega
  simp only [batchPayloadSize]
  omega

private theorem flatMap_batchEntry_length (ops : List BatchOp) (hops : ∀ o ∈ ops, o.Fits) :
    4 + (ops.flatMap batchEntry).length = batchPayloadSize ops := by
  induction ops with
  | nil => simp [batchPayloadSize]
  | cons o ops ih =>
      have ho := batchEntry_length (hops o (by simp))
      have htail := ih fun p hp => hops p (by simp [hp])
      simp only [batchPayloadSize, List.flatMap_cons, List.length_append, List.map_cons,
        List.sum_cons] at htail ⊢
      omega

theorem batchPayload_eq {ops : List BatchOp} (h : BatchFits ops) :
    batchPayload ops = leBytes 4 ops.length ++ ops.flatMap batchEntry := by
  have hcount : ops.length < 2 ^ 32 := lt_of_le_of_lt (length_le_batchPayloadSize ops) h.2
  have hlen := flatMap_batchEntry_length ops fun o ho => h.op_fits ho
  simp only [batchPayload, Nat.mod_eq_of_lt hcount, List.length_append, leBytes_length, hlen,
    Nat.sub_self, List.replicate_zero, List.append_nil]

theorem batchPayload_length {ops : List BatchOp} (h : BatchFits ops) :
    (batchPayload ops).length = batchPayloadSize ops := by
  rw [batchPayload_eq h, List.length_append, leBytes_length]
  exact flatMap_batchEntry_length ops fun o ho => h.op_fits ho

theorem parseBatch_batchPayload {ops : List BatchOp} (h : BatchFits ops) :
    parseBatch (batchPayload ops) = ops := by
  have hcount : ops.length < 2 ^ 32 := lt_of_le_of_lt (length_le_batchPayloadSize ops) h.2
  have hread : readWord 4 (batchPayload ops) 0 = ops.length := by
    rw [batchPayload_eq h]
    exact readWord_leBytes 4 ops.length [] _ hcount
  have hdrop : (batchPayload ops).drop 4 = ops.flatMap batchEntry := by
    rw [batchPayload_eq h]
    exact List.drop_left' (leBytes_length 4 _)
  have hlong : ¬ (batchPayload ops).length < 4 := by
    rw [batchPayload_length h, batchPayloadSize]
    omega
  rw [parseBatch, if_neg hlong, hread, hdrop]
  simpa using parseBatchEntries_flatMap ops (fun o ho => h.op_fits ho) []

namespace LogRecord

/-- The lengths of the record survive the narrowing in its header. -/
def Fits (r : LogRecord) : Prop := r.key.length < 2 ^ 16 ∧ r.payload.length < 2 ^ 32

def header (r : LogRecord) : LogHeader where
  crc := computeCrc r.op.code r.key r.payload
  op := r.op.code
  keyLen := UInt16.ofNat r.key.length
  payloadLen := UInt32.ofNat r.payload.length

def bytes (r : LogRecord) : Bytes := recordBytes r.op r.key r.payload

theorem bytes_eq (r : LogRecord) : r.bytes = r.header.encode ++ (r.key ++ r.payload) := rfl

@[simp] theorem bytes_length (r : LogRecord) : r.bytes.length = r.size := by
  simp [bytes_eq, size, Nat.add_assoc]

theorem headerSize_le_size (r : LogRecord) : headerSize ≤ r.size := by
  simp only [size]
  omega

theorem header_keyLen {r : LogRecord} (h : r.Fits) : r.header.keyLen.toNat = r.key.length := by
  simp only [header, UInt16.toNat_ofNat']
  exact Nat.mod_eq_of_lt h.1

theorem header_payloadLen {r : LogRecord} (h : r.Fits) :
    r.header.payloadLen.toNat = r.payload.length := by
  simp only [header, UInt32.toNat_ofNat']
  exact Nat.mod_eq_of_lt h.2

theorem header_nonzero {r : LogRecord} (h : r.Fits) :
    ¬ (r.header.op = 0 ∧ r.header.crc = 0 ∧ r.header.keyLen = 0 ∧ r.header.payloadLen = 0) := by
  rintro ⟨hop, hcrc, hkey, hpayload⟩
  have hklen := header_keyLen h
  have hplen := header_payloadLen h
  rw [hkey] at hklen
  rw [hpayload] at hplen
  have hk : r.key = [] := List.length_eq_zero_iff.mp hklen.symm
  have hp : r.payload = [] := List.length_eq_zero_iff.mp hplen.symm
  have hzero : computeCrc 0 [] [] = 0 := by
    simpa only [header, hk, hp, show r.op.code = 0 from hop] using hcrc
  exact absurd hzero (by decide)

end LogRecord

private theorem readRecord_append (before tail : Bytes) :
    readRecord (before ++ tail) before.length = readRecord tail 0 := by
  have hslice (pos len : Nat) : slice (before ++ tail) (before.length + pos) len =
      slice tail (0 + pos) len := by
    rw [slice_append_right, Nat.zero_add]
  have hfront : slice (before ++ tail) before.length headerSize = slice tail 0 headerSize :=
    hslice 0 headerSize
  have hless (n : Nat) : (before ++ tail).length < before.length + n ↔ tail.length < 0 + n := by
    rw [List.length_append]
    omega
  simp only [readRecord, Nat.add_assoc, hfront, hslice, hless]

private theorem slice_header (after : Bytes) (r : LogRecord) (n : Nat) (hn : headerSize ≤ n) :
    slice (r.bytes.take n ++ after) 0 headerSize = r.header.encode := by
  have hsize := r.headerSize_le_size
  have hlong : 0 + headerSize ≤ (r.bytes.take n).length := by
    rw [List.length_take, r.bytes_length]
    omega
  rw [slice_append_left _ _ _ _ hlong, slice_take _ _ _ _ (by omega), r.bytes_eq]
  have hfront := slice_front r.header.encode (r.key ++ r.payload)
  rwa [LogHeader.encode_length] at hfront

private theorem readRecord_complete (after : Bytes) {r : LogRecord} (h : r.Fits) :
    readRecord (r.bytes ++ after) 0 = some r := by
  have hheader := slice_header after r r.size r.headerSize_le_size
  rw [← r.bytes_length, List.take_length] at hheader
  have hklen := LogRecord.header_keyLen h
  have hplen := LogRecord.header_payloadLen h
  have hkey : slice (r.bytes ++ after) (0 + headerSize) r.key.length = r.key := by
    have := slice_middle r.header.encode r.key (r.payload ++ after)
    simpa [r.bytes_eq] using this
  have hpayload : slice (r.bytes ++ after) (0 + headerSize + r.key.length) r.payload.length =
      r.payload := by
    have := slice_middle (r.header.encode ++ r.key) r.payload after
    simpa [r.bytes_eq, ← Nat.add_assoc] using this
  have htotal : (r.bytes ++ after).length =
      headerSize + r.key.length + r.payload.length + after.length := by
    simp only [List.length_append, r.bytes_length, LogRecord.size]
  rw [readRecord]
  simp only [hheader, LogHeader.decode_encode, hklen, hplen, hkey, hpayload, htotal]
  rw [if_neg (by omega), if_neg (LogRecord.header_nonzero h), if_neg (by omega)]
  simp [LogRecord.header]

theorem readRecord_sound {s : Bytes} {r : LogRecord} (h : readRecord s 0 = some r) :
    r.Fits ∧ s = r.bytes ++ s.drop r.size := by
  rw [readRecord] at h
  split at h
  · cases h
  rename_i hheader
  simp only at h
  split at h
  · cases h
  split at h
  · cases h
  rename_i hwhole
  split at h
  · cases h
  rename_i hcrc
  cases h
  generalize hh : LogHeader.decode (slice s 0 headerSize) = hd at *
  have hencode : hd.encode = slice s 0 headerSize := by
    rw [← hh, LogHeader.encode_decode]
    rw [slice_length]
    omega
  have hklen : (slice s (0 + headerSize) hd.keyLen.toNat).length = hd.keyLen.toNat := by
    rw [slice_length]
    omega
  have hplen : (slice s (0 + headerSize + hd.keyLen.toNat) hd.payloadLen.toNat).length =
      hd.payloadLen.toNat := by
    rw [slice_length]
    omega
  have hcrc' := not_not.mp hcrc
  refine ⟨⟨?_, ?_⟩, ?_⟩
  · rw [hklen]
    exact hd.keyLen.toNat_lt
  · rw [hplen]
    exact hd.payloadLen.toNat_lt
  · rw [LogRecord.bytes, recordBytes, hcrc', hklen, hplen, UInt16.ofNat_toNat, UInt32.ofNat_toNat,
      hencode, LogRecord.size, hklen, hplen, slice_concat, slice_concat, Nat.add_assoc, slice_drop]

/-- The records of the log. -/
def logFormat : RecordFormat LogRecord UInt8 where
  Valid := LogRecord.Fits
  bytes := LogRecord.bytes
  read s := readRecord s 0
  bytes_ne_nil r := by
    have hsize := r.headerSize_le_size
    rw [headerSize] at hsize
    rw [← List.length_pos_iff, r.bytes_length]
    omega
  sound h := ⟨(readRecord_sound h).1, _, (readRecord_sound h).2⟩
  complete after h := readRecord_complete after h

@[simp] theorem logFormat_bytes (r : LogRecord) : logFormat.bytes r = r.bytes := rfl

/-- What is left of a record the file ends in: a strict prefix of its bytes, possibly empty. -/
def TornTail (tail : Bytes) : Prop :=
  ∃ r : LogRecord, r.Fits ∧ ∃ n < r.size, tail = r.bytes.take n

private theorem tornTail_nil : TornTail [] := by
  refine ⟨⟨WalOp.put, [], []⟩, ⟨by decide, by decide⟩, 0, by decide, ?_⟩
  rw [List.take_zero]

theorem TornTail.stops {tail : Bytes} (h : TornTail tail) : logFormat.Stops tail := by
  obtain ⟨r, hfits, n, hn, rfl⟩ := h
  change readRecord (r.bytes.take n) 0 = none
  have hlen : (r.bytes.take n).length = n := by
    rw [List.length_take, r.bytes_length]
    omega
  by_cases hshort : n < headerSize
  · rw [readRecord, if_pos (by omega)]
  · have hheader := slice_header [] r n (by omega)
    rw [List.append_nil] at hheader
    have hklen := LogRecord.header_keyLen hfits
    have hplen := LogRecord.header_payloadLen hfits
    simp only [LogRecord.size] at hn
    rw [readRecord]
    simp only [hheader, LogHeader.decode_encode, hklen, hplen, hlen]
    rw [if_neg (by omega), if_neg (LogRecord.header_nonzero hfits), if_pos (by omega)]

private theorem recoverLoop_stops (before : Bytes) {tail : Bytes} (h : logFormat.Stops tail) :
    recoverLoop (before ++ tail) before.length = ([], before.length) := by
  rw [recoverLoop]
  split
  · rw [readRecord_append, show readRecord tail 0 = none from h]
  · rfl

private theorem recoverLoop_complete (before after : Bytes) {r : LogRecord} (h : r.Fits) :
    recoverLoop (before ++ (r.bytes ++ after)) before.length =
      (r.ops ++ (recoverLoop ((before ++ r.bytes) ++ after) (before ++ r.bytes).length).1,
        (recoverLoop ((before ++ r.bytes) ++ after) (before ++ r.bytes).length).2) := by
  have hlt : before.length < (before ++ (r.bytes ++ after)).length := by
    have := r.headerSize_le_size
    simp only [List.length_append, r.bytes_length, headerSize] at this ⊢
    omega
  rw [recoverLoop, if_pos hlt, readRecord_append, readRecord_complete after h]
  simp only [List.append_assoc, List.length_append, r.bytes_length]

private theorem recoverLoop_records (before : Bytes) (records : List LogRecord)
    (hfits : ∀ r ∈ records, r.Fits) {tail : Bytes} (htail : logFormat.Stops tail) :
    recoverLoop (before ++ (logFormat.stream records ++ tail)) before.length =
      (records.flatMap LogRecord.ops, (before ++ logFormat.stream records).length) := by
  induction records generalizing before with
  | nil => simpa using recoverLoop_stops before htail
  | cons r records ih =>
      have hr := hfits r (by simp)
      have hrest : ∀ q ∈ records, q.Fits := fun q hq => hfits q (by simp [hq])
      have hstep := recoverLoop_complete before (logFormat.stream records ++ tail) hr
      rw [ih (before ++ r.bytes) hrest] at hstep
      simpa [List.append_assoc] using hstep

theorem LogFile.recover_stream {records : List LogRecord} (hfits : ∀ r ∈ records, r.Fits)
    {tail : Bytes} (htail : logFormat.Stops tail) :
    (openAt (logFormat.stream records ++ tail)).recover =
      (records.flatMap LogRecord.ops, openAt (logFormat.stream records)) := by
  have hloop := recoverLoop_records [] records hfits htail
  simp only [List.nil_append, List.length_nil] at hloop
  rw [recover]
  split
  · rename_i hempty
    have hnil : logFormat.stream records ++ tail = [] := List.length_eq_zero_iff.mp hempty
    have hzero : recoverLoop [] 0 = ([], 0) := by
      rw [recoverLoop, if_neg (by simp)]
    rw [hnil, hzero] at hloop
    rw [hnil, (List.append_eq_nil_iff.mp hnil).1, ← (Prod.mk.inj hloop).1]
  · simp only [openAt, hloop, List.take_left]

/-- A call that writes to the log. -/
inductive LogCall where
  | append (op : WalOp) (key payload : Bytes)
  | appendBatch (ops : List BatchOp)

namespace LogCall

/-- The bounds under which the header fields hold the lengths they are given. -/
def Fits : LogCall → Prop
  | append _ key payload => key.length < 2 ^ 16 ∧ payload.length < 2 ^ 32
  | appendBatch ops => BatchFits ops

def run (f : LogFile) : LogCall → LogFile
  | append op key payload => f.append op key payload
  | appendBatch ops => f.appendBatch ops

/-- The record the call adds; an empty batch adds none. -/
def records : LogCall → List LogRecord
  | append op key payload => [⟨op, key, payload⟩]
  | appendBatch [] => []
  | appendBatch (o :: ops) => [⟨WalOp.batch, [], batchPayload (o :: ops)⟩]

def given : LogCall → List BatchOp
  | append op key payload => [⟨op, key, payload⟩]
  | appendBatch ops => ops

/-- The operations the call logs. `BATCH` is the tag that marks a record as a batch, so a
record that `append` writes under that tag stands for what its payload decodes to. -/
def logged : LogCall → List BatchOp
  | append op key payload =>
      if op = WalOp.batch then parseBatch payload else [⟨op, key, payload⟩]
  | appendBatch ops => ops

def bytes (c : LogCall) : Bytes := c.records.flatMap LogRecord.bytes

@[simp] theorem append_bytes (op : WalOp) (key payload : Bytes) :
    (append op key payload).bytes = recordBytes op key payload := by
  simp [bytes, records, LogRecord.bytes]

@[simp] theorem appendBatch_bytes (o : BatchOp) (ops : List BatchOp) :
    (appendBatch (o :: ops)).bytes = recordBytes WalOp.batch [] (batchPayload (o :: ops)) := by
  simp [bytes, records, LogRecord.bytes]

theorem Fits.records_fits {c : LogCall} (h : c.Fits) : ∀ r ∈ c.records, r.Fits := by
  intro r hr
  match c, h, hr with
  | append op key payload, h, hr =>
      rw [List.mem_singleton.mp hr]
      exact h
  | appendBatch (o :: ops), h, hr =>
      rw [List.mem_singleton.mp hr]
      refine ⟨by simp, ?_⟩
      rw [batchPayload_length h]
      exact h.2

theorem Fits.records_ops {c : LogCall} (h : c.Fits) :
    c.records.flatMap LogRecord.ops = c.logged := by
  match c, h with
  | append op key payload, _ => simp [records, logged, LogRecord.ops]
  | appendBatch [], _ => rfl
  | appendBatch (o :: ops), h =>
      simp [records, logged, LogRecord.ops, parseBatch_batchPayload h]

end LogCall

namespace LogFile

def AtEnd (f : LogFile) : Prop := f.pos = f.bytes.length

theorem AtEnd.eq_openAt {f : LogFile} (h : f.AtEnd) : f = openAt f.bytes := LogFile.ext rfl h

@[simp] theorem openAt_bytes (bytes : Bytes) : (openAt bytes).bytes = bytes := rfl

theorem openAt_atEnd (bytes : Bytes) : (openAt bytes).AtEnd := rfl

theorem writeRaw_bytes {f : LogFile} (h : f.AtEnd) (data : Bytes) :
    (f.writeRaw data).bytes = f.bytes ++ data := by
  have h' : f.pos = f.bytes.length := h
  unfold writeRaw
  split
  · simp_all
  · have hdrop : f.bytes.drop (f.pos + data.length) = [] :=
      List.drop_eq_nil_of_le (by omega)
    rw [hdrop, h']
    simp

theorem writeRaw_atEnd {f : LogFile} (h : f.AtEnd) (data : Bytes) : (f.writeRaw data).AtEnd := by
  have hbytes := writeRaw_bytes h data
  have h' : f.pos = f.bytes.length := h
  unfold AtEnd
  rw [hbytes, List.length_append]
  unfold writeRaw
  split
  · simp_all
  · simp [h']

def runAll (f : LogFile) (calls : List LogCall) : LogFile := calls.foldl LogCall.run f

end LogFile

theorem LogCall.run_bytes {f : LogFile} (h : f.AtEnd) (c : LogCall) :
    (c.run f).bytes = f.bytes ++ c.bytes ∧ (c.run f).AtEnd := by
  match c with
  | append op key payload =>
      rw [append_bytes]
      exact ⟨LogFile.writeRaw_bytes h _, LogFile.writeRaw_atEnd h _⟩
  | appendBatch [] => exact ⟨by simp [LogCall.run, LogFile.appendBatch, LogCall.bytes,
      LogCall.records], h⟩
  | appendBatch (o :: ops) =>
      have hrun : run f (appendBatch (o :: ops)) =
          f.writeRaw (recordBytes WalOp.batch [] (batchPayload (o :: ops))) := by
        simp [run, LogFile.appendBatch, LogFile.append]
      rw [appendBatch_bytes, hrun]
      exact ⟨LogFile.writeRaw_bytes h _, LogFile.writeRaw_atEnd h _⟩

/-- A run of calls adds the bytes of its records, in order, at the end of the file. -/
theorem LogFile.runAll_bytes {f : LogFile} (h : f.AtEnd) (calls : List LogCall) :
    (f.runAll calls).bytes = f.bytes ++ calls.flatMap LogCall.bytes ∧ (f.runAll calls).AtEnd := by
  induction calls generalizing f with
  | nil => exact ⟨by simp [LogFile.runAll], h⟩
  | cons c calls ih =>
      obtain ⟨hbytes, hend⟩ := LogCall.run_bytes h c
      obtain ⟨hrest, hatEnd⟩ := ih hend
      refine ⟨?_, hatEnd⟩
      rw [List.flatMap_cons, ← List.append_assoc, ← hbytes]
      exact hrest

theorem LogCall.stream_records (calls : List LogCall) :
    logFormat.stream (calls.flatMap LogCall.records) = calls.flatMap LogCall.bytes :=
  List.flatMap_assoc

theorem LogCall.records_fits {calls : List LogCall} (hfits : ∀ c ∈ calls, c.Fits) :
    ∀ r ∈ calls.flatMap LogCall.records, r.Fits := by
  intro r hr
  obtain ⟨c, hc, hrc⟩ := List.mem_flatMap.mp hr
  exact (hfits c hc).records_fits r hrc

theorem LogCall.records_logged {calls : List LogCall} (hfits : ∀ c ∈ calls, c.Fits) :
    (calls.flatMap LogCall.records).flatMap LogRecord.ops = calls.flatMap LogCall.logged := by
  rw [List.flatMap_assoc]
  exact List.flatMap_congr fun c hc => (hfits c hc).records_ops

/-- The calls whose records lie wholly inside the first `n` bytes of what they wrote. -/
def wholeCalls : Nat → List LogCall → List LogCall
  | _, [] => []
  | n, c :: calls =>
      if c.bytes.length ≤ n then c :: wholeCalls (n - c.bytes.length) calls else []

private theorem mem_of_mem_wholeCalls {n : Nat} {calls : List LogCall} {c : LogCall}
    (h : c ∈ wholeCalls n calls) : c ∈ calls := by
  induction calls generalizing n with
  | nil => exact h
  | cons d calls ih =>
      rw [wholeCalls] at h
      split at h
      · rcases List.mem_cons.mp h with rfl | h
        · simp
        · exact List.mem_cons_of_mem _ (ih h)
      · simp at h

theorem LogCall.tornTail_take {c : LogCall} (h : c.Fits) {n : Nat}
    (hn : n < c.bytes.length) (later : Bytes) : TornTail ((c.bytes ++ later).take n) := by
  rw [List.take_append_of_le_length (by omega)]
  match c, h, hn with
  | append op key payload, h, hn =>
      simp only [LogCall.bytes, LogCall.records, List.flatMap_singleton] at hn ⊢
      exact ⟨⟨op, key, payload⟩, h, n, by simpa using hn, rfl⟩
  | appendBatch (o :: ops), h, hn =>
      have hrecord := Fits.records_fits h _ (List.mem_singleton_self _)
      simp only [LogCall.bytes, LogCall.records, List.flatMap_singleton] at hn ⊢
      exact ⟨_, hrecord, n, by simpa using hn, rfl⟩

theorem take_calls (n : Nat) (calls : List LogCall) (hfits : ∀ c ∈ calls, c.Fits) :
    ∃ tail, TornTail tail ∧ (calls.flatMap LogCall.bytes).take n =
      (wholeCalls n calls).flatMap LogCall.bytes ++ tail := by
  induction calls generalizing n with
  | nil => exact ⟨[], tornTail_nil, by simp [wholeCalls]⟩
  | cons c calls ih =>
      have hc := hfits c (by simp)
      rw [wholeCalls, List.flatMap_cons]
      split
      · rename_i hle
        obtain ⟨tail, htail, heq⟩ := ih (n - c.bytes.length) fun d hd => hfits d (by simp [hd])
        refine ⟨tail, htail, ?_⟩
        rw [List.take_append, List.take_of_length_le hle, heq, List.flatMap_cons,
          List.append_assoc]
      · rename_i hlt
        have htorn := LogCall.tornTail_take hc (n := n) (by omega) (calls.flatMap LogCall.bytes)
        exact ⟨_, htorn, by simp⟩

private theorem wholeCalls_bytes (n : Nat) (calls : List LogCall) (hfits : ∀ c ∈ calls, c.Fits) :
    (wholeCalls n calls).flatMap LogCall.bytes =
      (calls.flatMap LogCall.bytes).take ((wholeCalls n calls).flatMap LogCall.bytes).length := by
  obtain ⟨tail, -, heq⟩ := take_calls n calls hfits
  have hle : ((wholeCalls n calls).flatMap LogCall.bytes).length ≤ n := by
    have hlen := congrArg List.length heq
    rw [List.length_take, List.length_append] at hlen
    omega
  have htake := congrArg (List.take ((wholeCalls n calls).flatMap LogCall.bytes).length) heq
  rw [List.take_take, Nat.min_eq_left hle, List.take_left] at htake
  exact htake.symm

theorem LogFile.recover_calls (calls : List LogCall) (hfits : ∀ c ∈ calls, c.Fits) {tail : Bytes}
    (htail : logFormat.Stops tail) (f : LogFile) (hbytes : f.bytes = calls.flatMap LogCall.bytes ++ tail)
    (hend : f.AtEnd) :
    f.recover.1 = calls.flatMap LogCall.logged ∧
      f.recover.2.bytes = calls.flatMap LogCall.bytes ∧ f.recover.2.AtEnd := by
  have hopen : f = openAt (logFormat.stream (calls.flatMap LogCall.records) ++ tail) := by
    rw [LogCall.stream_records, ← hbytes]
    exact hend.eq_openAt
  rw [hopen, recover_stream (LogCall.records_fits hfits) htail, LogCall.records_logged hfits,
    LogCall.stream_records]
  exact ⟨rfl, rfl, rfl⟩

end L3KV
