import L3KV.Log.Recover

/-!
# Recovery of an arbitrary file

`recover` takes its lengths from bytes it cannot trust. Written with reads that fail outside
their buffer and with a bound on the number of passes, it still returns what `LogFile.recover`
returns, for every file; and what it keeps is the longest run of valid records at the front.
-/

namespace L3KV

open Framework

/-- The loop over a batch payload, with `p` as an offset into it. -/
def parseBatchEntriesChecked (payload : Bytes) : Nat → Nat → Option (List BatchOp)
  | 0, _ => some []
  | count + 1, p =>
      if payload.length < p + 7 then some []
      else do
        let op ← wordAt 1 payload p
        let klen ← wordAt 2 payload (p + 1)
        if payload.length < p + 3 + klen + 4 then some []
        else do
          let key ← bytesAt payload (p + 3) klen
          let vlen ← wordAt 4 payload (p + 3 + klen)
          if payload.length < p + 3 + klen + 4 + vlen then some []
          else do
            let value ← bytesAt payload (p + 3 + klen + 4) vlen
            let later ← parseBatchEntriesChecked payload count (p + 3 + klen + 4 + vlen)
            some (⟨⟨UInt8.ofNat op⟩, key, value⟩ :: later)

def LogRecord.opsChecked (r : LogRecord) : Option (List BatchOp) :=
  if r.op = WalOp.batch then
    if r.payload.length < 4 then some []
    else do
      let count ← wordAt 4 r.payload 0
      parseBatchEntriesChecked r.payload count 4
  else some [⟨r.op, r.key, r.payload⟩]

/-- One pass of the loop: `some none` stands for a `break`, `none` for a read outside the file. -/
def readRecordChecked (file : Bytes) (offset : Nat) : Option (Option LogRecord) :=
  if file.length < offset + headerSize then some none
  else do
    let h := LogHeader.decode (← bytesAt file offset headerSize)
    if h.op = 0 ∧ h.crc = 0 ∧ h.keyLen = 0 ∧ h.payloadLen = 0 then some none
    else if file.length < offset + headerSize + h.keyLen.toNat + h.payloadLen.toNat then some none
    else do
      let key ← bytesAt file (offset + headerSize) h.keyLen.toNat
      let payload ← bytesAt file (offset + headerSize + h.keyLen.toNat) h.payloadLen.toNat
      if computeCrc h.op key payload ≠ h.crc then some none
      else some (some ⟨⟨h.op⟩, key, payload⟩)

/-- The `while` loop, for at most so many passes. -/
def recoverLoopChecked (file : Bytes) : Nat → Nat → Option (List BatchOp × Nat)
  | 0, _ => none
  | passes + 1, offset =>
      if offset < file.length then do
        match ← readRecordChecked file offset with
        | none => some ([], offset)
        | some r =>
            let ops ← r.opsChecked
            let later ← recoverLoopChecked file passes (offset + r.size)
            some (ops ++ later.1, later.2)
      else some ([], offset)

def LogFile.recoverChecked (f : LogFile) (passes : Nat) : Option (List BatchOp × LogFile) :=
  if f.bytes.length = 0 then some ([], f)
  else do
    let scan ← recoverLoopChecked f.bytes passes 0
    some (scan.1, ⟨f.bytes.take scan.2, scan.2⟩)

private theorem parseBatchEntriesChecked_eq (payload : Bytes) (count p : Nat) :
    parseBatchEntriesChecked payload count p = some (parseBatchEntries count (payload.drop p)) := by
  induction count generalizing p with
  | zero => rfl
  | succ count ih =>
      have hslice (pos len : Nat) : slice (payload.drop p) pos len = slice payload (p + pos) len := by
        rw [slice, slice, List.drop_drop]
      have hlength : (payload.drop p).length = payload.length - p := List.length_drop
      rw [parseBatchEntriesChecked, parseBatchEntries]
      simp only [readWord, hslice, hlength, List.drop_drop, Nat.add_zero]
      by_cases hhead : payload.length < p + 7
      · rw [if_pos hhead, if_pos (by omega)]
      rw [if_neg hhead, if_neg (by omega), wordAt_eq (by omega), wordAt_eq (by omega)]
      simp only [Option.bind_eq_bind, Option.bind_some, readWord]
      generalize leValue (slice payload (p + 1) 2) = klen
      by_cases hkey : payload.length < p + 3 + klen + 4
      · rw [if_pos hkey, if_pos (by omega)]
      rw [if_neg hkey, if_neg (by omega), bytesAt_eq (by omega), wordAt_eq (by omega)]
      simp only [Option.bind_some, readWord, ← Nat.add_assoc]
      generalize leValue (slice payload (p + 3 + klen) 4) = vlen
      by_cases hvalue : payload.length < p + 3 + klen + 4 + vlen
      · rw [if_pos hvalue, if_pos (by omega)]
      rw [if_neg hvalue, if_neg (by omega), bytesAt_eq (by omega), ih]
      rfl

private theorem LogRecord.opsChecked_eq (r : LogRecord) : r.opsChecked = some r.ops := by
  rw [opsChecked, ops, parseBatch]
  by_cases hbatch : r.op = WalOp.batch
  · rw [if_pos hbatch, if_pos hbatch]
    by_cases hshort : r.payload.length < 4
    · rw [if_pos hshort, if_pos hshort]
    · rw [if_neg hshort, if_neg hshort, wordAt_eq (by omega), Option.bind_eq_bind,
        Option.bind_some, parseBatchEntriesChecked_eq]
  · rw [if_neg hbatch, if_neg hbatch]

private theorem readRecordChecked_eq (file : Bytes) (offset : Nat) :
    readRecordChecked file offset = some (readRecord file offset) := by
  rw [readRecordChecked, readRecord]
  by_cases hheader : file.length < offset + headerSize
  · rw [if_pos hheader, if_pos hheader]
  rw [if_neg hheader, if_neg hheader, bytesAt_eq (by omega)]
  simp only [Option.bind_eq_bind, Option.bind_some]
  generalize LogHeader.decode (slice file offset headerSize) = h
  by_cases hzero : h.op = 0 ∧ h.crc = 0 ∧ h.keyLen = 0 ∧ h.payloadLen = 0
  · rw [if_pos hzero, if_pos hzero]
  rw [if_neg hzero, if_neg hzero]
  by_cases hshort : file.length < offset + headerSize + h.keyLen.toNat + h.payloadLen.toNat
  · rw [if_pos hshort, if_pos hshort]
  rw [if_neg hshort, if_neg hshort, bytesAt_eq (by omega), bytesAt_eq (by omega)]
  simp only [Option.bind_some]
  split <;> rfl

private theorem readRecord_within {file : Bytes} {offset : Nat} {r : LogRecord}
    (h : readRecord file offset = some r) : offset + r.size ≤ file.length := by
  rw [readRecord] at h
  split at h
  · cases h
  simp only at h
  split at h
  · cases h
  split at h
  · cases h
  rename_i hwhole
  split at h
  · cases h
  cases h
  simp only [LogRecord.size, slice_length]
  omega

private theorem recoverLoopChecked_eq (file : Bytes) {passes offset : Nat}
    (h : (file.length - offset) / headerSize < passes) :
    recoverLoopChecked file passes offset = some (recoverLoop file offset) := by
  induction passes generalizing offset with
  | zero => cases h
  | succ passes ih =>
      rw [recoverLoopChecked, recoverLoop]
      by_cases hmore : offset < file.length
      · rw [if_pos hmore, if_pos hmore, readRecordChecked_eq, Option.bind_eq_bind, Option.bind_some]
        cases hread : readRecord file offset with
        | none => rfl
        | some r =>
            have hwithin := readRecord_within hread
            have hsize := r.headerSize_le_size
            have hfewer : (file.length - (offset + r.size)) / headerSize < passes := by
              rw [headerSize] at *
              omega
            simp only [r.opsChecked_eq, ih hfewer, Option.bind_eq_bind, Option.bind_some]
      · rw [if_neg hmore, if_neg hmore]

private theorem LogFile.recoverChecked_eq (f : LogFile) {passes : Nat}
    (h : f.bytes.length / headerSize < passes) : f.recoverChecked passes = some f.recover := by
  rw [recoverChecked, recover]
  split
  · rfl
  · rw [recoverLoopChecked_eq f.bytes (by simpa using h)]
    rfl

/-- A complete record whose header is not zero and whose CRC is right. -/
structure ValidRecord where
  header : LogHeader
  key : Bytes
  payload : Bytes
  key_length : key.length = header.keyLen.toNat
  payload_length : payload.length = header.payloadLen.toNat
  nonzero : ¬ (header.op = 0 ∧ header.crc = 0 ∧ header.keyLen = 0 ∧ header.payloadLen = 0)
  crc_valid : computeCrc header.op key payload = header.crc

namespace ValidRecord

def bytes (v : ValidRecord) : Bytes := v.header.encode ++ (v.key ++ v.payload)

def record (v : ValidRecord) : LogRecord := ⟨⟨v.header.op⟩, v.key, v.payload⟩

private theorem record_fits (v : ValidRecord) : v.record.Fits := by
  refine ⟨?_, ?_⟩
  · rw [record, v.key_length]
    exact v.header.keyLen.toNat_lt
  · rw [record, v.payload_length]
    exact v.header.payloadLen.toNat_lt

private theorem record_bytes (v : ValidRecord) : v.record.bytes = v.bytes := by
  rw [LogRecord.bytes, recordBytes, record, v.crc_valid, v.key_length, v.payload_length,
    UInt16.ofNat_toNat, UInt32.ofNat_toNat, bytes]

private theorem exists_record {r : LogRecord} (h : r.Fits) : ∃ v : ValidRecord, v.record = r :=
  ⟨{ header := r.header, key := r.key, payload := r.payload
     key_length := (LogRecord.header_keyLen h).symm
     payload_length := (LogRecord.header_payloadLen h).symm
     nonzero := LogRecord.header_nonzero h
     crc_valid := rfl }, rfl⟩

private theorem exists_records {rs : List LogRecord} (h : ∀ r ∈ rs, r.Fits) :
    ∃ vs : List ValidRecord, vs.map record = rs := by
  induction rs with
  | nil => exact ⟨[], rfl⟩
  | cons r rs ih =>
      obtain ⟨v, rfl⟩ := exists_record (h r (by simp))
      obtain ⟨vs, rfl⟩ := ih fun q hq => h q (by simp [hq])
      exact ⟨v :: vs, rfl⟩

theorem stream_records (vs : List ValidRecord) :
    logFormat.stream (vs.map record) = vs.flatMap bytes := by
  rw [RecordFormat.stream, List.flatMap_map]
  exact List.flatMap_congr fun v _ => v.record_bytes

theorem records_fits {vs : List ValidRecord} : ∀ r ∈ vs.map record, r.Fits := by
  intro r hr
  obtain ⟨v, -, rfl⟩ := List.mem_map.mp hr
  exact v.record_fits

end ValidRecord

private theorem LogFile.write_records {f : LogFile} (hend : f.AtEnd) (vs : List ValidRecord) :
    vs.foldl (fun f v => f.writeRaw v.bytes) f = openAt (f.bytes ++ vs.flatMap ValidRecord.bytes) := by
  induction vs generalizing f with
  | nil => simpa using hend.eq_openAt
  | cons v vs ih =>
      rw [List.foldl_cons, ih (writeRaw_atEnd hend v.bytes), writeRaw_bytes hend, List.append_assoc,
        List.flatMap_cons]

private theorem LogFile.recover_stream_append {rs more : List LogRecord} (hfits : ∀ r ∈ rs, r.Fits)
    (hmore : ∀ r ∈ more, r.Fits) :
    (openAt (logFormat.stream rs ++ logFormat.stream more)).recover.1 =
      rs.flatMap LogRecord.ops ++ more.flatMap LogRecord.ops := by
  have hall : ∀ r ∈ rs ++ more, r.Fits := by
    intro r hr
    rcases List.mem_append.mp hr with hr | hr
    · exact hfits r hr
    · exact hmore r hr
  have hrecover := recover_stream hall RecordFormat.stops_nil
  rw [RecordFormat.stream_append, List.append_nil] at hrecover
  rw [hrecover, List.flatMap_append]

end L3KV
