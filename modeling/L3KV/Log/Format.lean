import L3KV.Framework.Words

/-!
# The write-ahead log

The file is a sequence of records, each a packed header followed by a key and a payload.
`appendBatch` packs several operations into the payload of one record, and `recover`
replays the longest run of complete records and cuts the file behind it.
-/

namespace L3KV

open Framework

/-- `enum class WalOp : uint8_t`. The underlying type is fixed, so a byte read from the
file is a value of it whether or not it is one of the five enumerators. -/
structure WalOp where
  code : UInt8
  deriving DecidableEq, Repr

namespace WalOp

def put : WalOp := ⟨1⟩
def patchI64 : WalOp := ⟨2⟩
def delete : WalOp := ⟨3⟩
def batch : WalOp := ⟨4⟩
def patchStr : WalOp := ⟨5⟩

end WalOp

/-- One operation as the log carries it. -/
structure BatchOp where
  op : WalOp
  key : Bytes
  value : Bytes
  deriving DecidableEq, Repr

structure LogHeader where
  crc : UInt32
  op : UInt8
  keyLen : UInt16
  payloadLen : UInt32
  deriving DecidableEq, Repr

/-- `sizeof(LogHeader)` under `#pragma pack(push, 1)`. -/
def headerSize : Nat := 11

namespace LogHeader

def encode (h : LogHeader) : Bytes :=
  leBytes 4 h.crc.toNat ++ (leBytes 1 h.op.toNat ++
    (leBytes 2 h.keyLen.toNat ++ leBytes 4 h.payloadLen.toNat))

def decode (buf : Bytes) : LogHeader where
  crc := UInt32.ofNat (readWord 4 buf 0)
  op := UInt8.ofNat (readWord 1 buf 4)
  keyLen := UInt16.ofNat (readWord 2 buf 5)
  payloadLen := UInt32.ofNat (readWord 4 buf 7)

end LogHeader

/-- One of the eight shifts of the inner loop of `compute_crc`. -/
def crcShift (crc : UInt32) : UInt32 := (crc >>> 1) ^^^ (0xEDB88320 &&& (-(crc &&& 1)))

def crcByte (crc : UInt32) (b : UInt8) : UInt32 :=
  crcShift^[8] (crc ^^^ b.toUInt32)

def computeCrc (op : UInt8) (key payload : Bytes) : UInt32 :=
  ~~~ (payload.foldl crcByte (key.foldl crcByte ([op].foldl crcByte 0xFFFFFFFF)))

/-- The file behind the descriptor: its bytes and the position the next write goes to. -/
@[ext] structure LogFile where
  bytes : Bytes
  pos : Nat
  deriving DecidableEq, Repr

namespace LogFile

/-- `WriteAheadLog(path)` opens the file and seeks to its end. -/
def openAt (bytes : Bytes) : LogFile := ⟨bytes, bytes.length⟩

/-- `write_raw`, every `write` succeeding: the bytes land at the current position, over a
gap of zeros if that lies behind the end. -/
def writeRaw (f : LogFile) (data : Bytes) : LogFile :=
  if data.isEmpty then f
  else
    { bytes := f.bytes.take f.pos ++ List.replicate (f.pos - f.bytes.length) 0 ++ data ++
        f.bytes.drop (f.pos + data.length)
      pos := f.pos + data.length }

end LogFile

/-- The bytes `append` hands to `write_raw`. -/
def recordBytes (op : WalOp) (key payload : Bytes) : Bytes :=
  LogHeader.encode
      { crc := computeCrc op.code key payload
        op := op.code
        keyLen := UInt16.ofNat key.length
        payloadLen := UInt32.ofNat payload.length } ++
    (key ++ payload)

def LogFile.append (f : LogFile) (op : WalOp) (key payload : Bytes) : LogFile :=
  f.writeRaw (recordBytes op key payload)

/-- One entry of a batch payload. The lengths are narrowed first and then bound the
copies, so an overlong key is cut and not only misdescribed. -/
def batchEntry (o : BatchOp) : Bytes :=
  leBytes 1 o.op.code.toNat ++ (leBytes 2 (o.key.length % 2 ^ 16) ++
    (o.key.take (o.key.length % 2 ^ 16) ++ (leBytes 4 (o.value.length % 2 ^ 32) ++
      o.value.take (o.value.length % 2 ^ 32))))

/-- `payload_size`, computed from the full lengths. -/
def batchPayloadSize (ops : List BatchOp) : Nat :=
  4 + (ops.map fun o => 1 + 2 + o.key.length + 4 + o.value.length).sum

/-- The payload region of the buffer, which starts out zeroed. -/
def batchPayload (ops : List BatchOp) : Bytes :=
  let written := leBytes 4 (ops.length % 2 ^ 32) ++ ops.flatMap batchEntry
  written ++ List.replicate (batchPayloadSize ops - written.length) 0

def LogFile.appendBatch (f : LogFile) (ops : List BatchOp) : LogFile :=
  if ops.isEmpty then f else f.append WalOp.batch [] (batchPayload ops)

/-- The loop over a batch payload in `recover`; `rest` is what lies between `p` and `end`. -/
def parseBatchEntries : Nat → Bytes → List BatchOp
  | 0, _ => []
  | count + 1, rest =>
      if rest.length < 7 then []
      else
        let klen := readWord 2 rest 1
        if rest.length < 3 + klen + 4 then []
        else
          let vlen := readWord 4 rest (3 + klen)
          if rest.length < 3 + klen + 4 + vlen then []
          else
            { op := ⟨UInt8.ofNat (readWord 1 rest 0)⟩
              key := slice rest 3 klen
              value := slice rest (3 + klen + 4) vlen } ::
              parseBatchEntries count (rest.drop (3 + klen + 4 + vlen))

def parseBatch (payload : Bytes) : List BatchOp :=
  if payload.length < 4 then []
  else parseBatchEntries (readWord 4 payload 0) (payload.drop 4)

/-- A record that passed every check of `recover`. -/
structure LogRecord where
  op : WalOp
  key : Bytes
  payload : Bytes
  deriving DecidableEq, Repr

namespace LogRecord

def size (r : LogRecord) : Nat := headerSize + r.key.length + r.payload.length

/-- The callbacks `recover` makes for one record. -/
def ops (r : LogRecord) : List BatchOp :=
  if r.op = WalOp.batch then parseBatch r.payload else [⟨r.op, r.key, r.payload⟩]

end LogRecord

/-- One pass of the POSIX loop of `recover`: `none` stands for each of its `break`s. -/
def readRecord (file : Bytes) (offset : Nat) : Option LogRecord :=
  if file.length < offset + headerSize then none
  else
    let h := LogHeader.decode (slice file offset headerSize)
    if h.op = 0 ∧ h.crc = 0 ∧ h.keyLen = 0 ∧ h.payloadLen = 0 then none
    else if file.length < offset + headerSize + h.keyLen.toNat + h.payloadLen.toNat then none
    else
      let key := slice file (offset + headerSize) h.keyLen.toNat
      let payload := slice file (offset + headerSize + h.keyLen.toNat) h.payloadLen.toNat
      if computeCrc h.op key payload ≠ h.crc then none
      else some ⟨⟨h.op⟩, key, payload⟩

/-- The `while` loop of `recover`: the operations called back and the final offset. -/
def recoverLoop (file : Bytes) (offset : Nat) : List BatchOp × Nat :=
  if offset < file.length then
    match readRecord file offset with
    | none => ([], offset)
    | some r =>
        let later := recoverLoop file (offset + r.size)
        (r.ops ++ later.1, later.2)
  else ([], offset)
termination_by file.length - offset
decreasing_by
  simp only [LogRecord.size, headerSize]
  omega

/-- `recover`: the callbacks in order, and the file cut at the last good offset with the
write position there. An empty file is left alone. -/
def LogFile.recover (f : LogFile) : List BatchOp × LogFile :=
  if f.bytes.length = 0 then ([], f)
  else
    let scan := recoverLoop f.bytes 0
    (scan.1, ⟨f.bytes.take scan.2, scan.2⟩)

end L3KV
