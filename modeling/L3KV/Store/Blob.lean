import L3KV.Store.External

/-!
# Stored values

A value is kept as the buffer it converts to, compressed once a dictionary has been trained
on the first samples. What reading returns depends on the compression state only through
the dictionary, which never changes again after training.
-/

namespace L3KV

open Framework

structure ZstdManager where
  samples : List Bytes
  samplesBytes : Nat
  /-- `cdict_` and `ddict_`, which are created together. -/
  dict : Option Bytes
  active : Bool
  deriving DecidableEq, Repr

namespace ZstdManager

def init : ZstdManager := ⟨[], 0, none, false⟩

section

variable (z : Zstd)

def trainDictionary (m : ZstdManager) : ZstdManager :=
  if m.samples.isEmpty then m
  else
    let bufferSize := (m.samples.map List.length).sum
    let dictCap := min (100 * 1024) (max 256 (bufferSize / 10))
    match z.trainFromBuffer m.samples dictCap with
    | none => m
    | some dict => { m with dict := some dict }

def addSample (m : ZstdManager) (data : Bytes) : ZstdManager :=
  if m.active then m
  else
    let m := { m with
      samples := m.samples ++ [data]
      samplesBytes := m.samplesBytes + data.length }
    if 1000 ≤ m.samples.length ∨ 100 * 1024 ≤ m.samplesBytes then
      { m.trainDictionary z with active := true, samples := [] }
    else m

/-- `compress`: without an active dictionary, and on an error, the source itself. -/
def compress (m : ZstdManager) (src : Bytes) : Bytes :=
  if m.active then
    match m.dict with
    | none => src
    | some dict => (z.compressUsingCDict dict src).getD src
  else src

def decompress (m : ZstdManager) (src : Bytes) (originalSize : Nat) : Bytes :=
  if m.active then
    match m.dict with
    | none => src
    | some dict => (z.decompressUsingDDict dict src originalSize).getD src
  else src

end

end ZstdManager

/-- The first byte that is not white space opens an object or an array. -/
def isJsonPayload (data : Bytes) : Bool :=
  match data.dropWhile fun b => b = 32 || b = 9 || b = 13 || b = 10 with
  | [] => false
  | b :: _ => b = 0x7b || b = 0x5b

/-- The buffer `overwrite` keeps for the data, before compression: JSON text that converts is
stored converted, everything else as it is. -/
def storedForm (l : Lite3) (data : Bytes) : Bytes :=
  if isJsonPayload data then (l.fromJsonString data).getD data else data

structure Blob where
  buf : Bytes
  compressed : Bool
  originalSize : UInt32
  deriving DecidableEq, Repr

namespace Blob

/-- `Blob()`: the blob `apply_del` shares and every other blob starts from. -/
def empty : Blob := ⟨[], false, 0⟩

def compress (z : Zstd) (m : ZstdManager) (b : Blob) : Blob :=
  if b.compressed || !m.active then b
  else
    let dst := m.compress z b.buf
    if dst.length < b.buf.length then ⟨dst, true, UInt32.ofNat b.buf.length⟩ else b

def decompress (z : Zstd) (m : ZstdManager) (b : Blob) : Blob :=
  if b.compressed then
    { b with compressed := false, buf := m.decompress z b.buf b.originalSize.toNat }
  else b

/-- `Blob(data, zstd)`, that is `overwrite` on a fresh blob: the sample is added first, so
the very blob that completes the training is already compressed. -/
def overwrite (l : Lite3) (z : Zstd) (m : ZstdManager) (data : Bytes) : Blob × ZstdManager :=
  let m := if m.active then m else m.addSample z data
  if data.isEmpty then (empty, m)
  else (compress z m { empty with buf := storedForm l data }, m)

/-- `set_int` and `set_str`, up to the setter they call; `none` if the setter throws. -/
def setField (l : Lite3) (z : Zstd) (m : ZstdManager) (set : Bytes → Option Bytes) (b : Blob) :
    Option Blob :=
  let b := b.decompress z m
  let buf := if b.buf.length = 0 then l.initObject else b.buf
  (set buf).map fun buf => compress z m { b with buf := buf }

def setInt (l : Lite3) (z : Zstd) (m : ZstdManager) (field : Bytes) (value : Int64) :
    Blob → Option Blob :=
  setField l z m fun buf => l.setI64 buf field value

def setStr (l : Lite3) (z : Zstd) (m : ZstdManager) (field value : Bytes) :
    Blob → Option Blob :=
  setField l z m fun buf => l.setStr buf field value

/-- The bytes `Engine::get` returns for the blob. -/
def read (z : Zstd) (m : ZstdManager) (b : Blob) : Bytes :=
  if b.compressed then m.decompress z b.buf b.originalSize.toNat else b.buf

end Blob

/-- One manager may follow another: an active one stays as it is. -/
def ZstdManager.Follows (m m' : ZstdManager) : Prop := m.active = true → m' = m

theorem ZstdManager.Follows.refl (m : ZstdManager) : m.Follows m := fun _ => rfl

theorem ZstdManager.Follows.trans {m m' m'' : ZstdManager} (h : m.Follows m')
    (h' : m'.Follows m'') : m.Follows m'' := by
  intro hactive
  have heq := h hactive
  rw [h' (by rw [heq]; exact hactive), heq]

namespace Blob

/-- The blob is a representation of the buffer `v` under this manager. -/
def Holds (z : Zstd) (m : ZstdManager) (b : Blob) (v : Bytes) : Prop :=
  (b.compressed = false ∧ b.buf = v) ∨
    (b.compressed = true ∧ m.active = true ∧ b.originalSize = UInt32.ofNat v.length ∧
      ∃ dict, m.dict = some dict ∧ z.compressUsingCDict dict v = some b.buf)

theorem Holds.mono {z : Zstd} {m m' : ZstdManager} {b : Blob} {v : Bytes} (h : b.Holds z m v)
    (hfollows : m.Follows m') : b.Holds z m' v := by
  rcases h with h | ⟨hc, hactive, hrest⟩
  · exact Or.inl h
  · rw [hfollows hactive]
    exact Or.inr ⟨hc, hactive, hrest⟩

theorem Holds.plain {z : Zstd} {m : ZstdManager} {b : Blob} {v : Bytes} (h : b.Holds z m v)
    (hdict : m.dict = none) : b.compressed = false ∧ b.buf = v := by
  rcases h with h | ⟨-, -, -, dict, hsome, -⟩
  · exact h
  · rw [hdict] at hsome
    cases hsome

theorem empty_holds (z : Zstd) (m : ZstdManager) : empty.Holds z m [] := Or.inl ⟨rfl, rfl⟩

private theorem compress_holds {z : Zstd} {m : ZstdManager} {b : Blob} {v : Bytes}
    (hc : b.compressed = false) (hbuf : b.buf = v) : (b.compress z m).Holds z m v := by
  unfold compress
  split
  · exact Or.inl ⟨hc, hbuf⟩
  · rename_i hinactive
    have hactive : m.active = true := by simpa [hc] using hinactive
    dsimp only
    split
    · rename_i hshorter
      refine Or.inr ⟨rfl, hactive, by rw [hbuf], ?_⟩
      -- A result shorter than the source cannot be the source that a failure hands back.
      cases hdict : m.dict with
      | none => simp [ZstdManager.compress, hactive, hdict] at hshorter
      | some dict =>
          refine ⟨dict, rfl, ?_⟩
          rw [← hbuf]
          cases hcomp : z.compressUsingCDict dict b.buf with
          | none => simp [ZstdManager.compress, hactive, hdict, hcomp] at hshorter
          | some dst => simp [ZstdManager.compress, hactive, hdict, hcomp]
    · exact Or.inl ⟨hc, hbuf⟩

theorem overwrite_follows (l : Lite3) (z : Zstd) (m : ZstdManager) (data : Bytes) :
    m.Follows (overwrite l z m data).2 := by
  have hstep : m.Follows (if m.active then m else m.addSample z data) := by
    intro hactive
    simp [hactive]
  unfold overwrite
  dsimp only
  split <;> exact hstep

theorem storedForm_nil (l : Lite3) : storedForm l [] = [] := by
  simp [storedForm, isJsonPayload]

theorem Holds.read {z : Zstd} (hz : z.Lossless) {m : ZstdManager} {b : Blob} {v : Bytes}
    (h : b.Holds z m v) (hv : v.length < 2 ^ 32) : b.read z m = v := by
  rcases h with ⟨hc, hbuf⟩ | ⟨hc, hactive, hsize, dict, hdict, hcomp⟩
  · simp [Blob.read, hc, hbuf]
  · have hlen : b.originalSize.toNat = v.length := by
      rw [hsize, UInt32.toNat_ofNat']
      exact Nat.mod_eq_of_lt hv
    simp [Blob.read, hc, ZstdManager.decompress, hactive, hdict, hlen, hz dict v b.buf hcomp]

/-- Reading a blob gives the same bytes under every later manager. -/
theorem Holds.read_mono {z : Zstd} {m m' : ZstdManager} {b : Blob} {v : Bytes}
    (h : b.Holds z m v) (hfollows : m.Follows m') : b.read z m' = b.read z m := by
  rcases h with ⟨hc, hbuf⟩ | ⟨hc, hactive, -⟩
  · simp [Blob.read, hc]
  · rw [hfollows hactive]

/-- The blob represents the buffer as the engine stores it: nothing but something is compressed. -/
def Stores (z : Zstd) (m : ZstdManager) (b : Blob) (v : Bytes) : Prop :=
  b.Holds z m v ∧ (b.compressed = true → v ≠ [])

theorem Stores.mono {z : Zstd} {m m' : ZstdManager} {b : Blob} {v : Bytes} (h : b.Stores z m v)
    (hfollows : m.Follows m') : b.Stores z m' v := ⟨h.1.mono hfollows, h.2⟩

theorem empty_stores (z : Zstd) (m : ZstdManager) : empty.Stores z m [] :=
  ⟨empty_holds z m, fun h => absurd h Bool.false_ne_true⟩

theorem compress_stores {z : Zstd} {m : ZstdManager} {b : Blob} {v : Bytes}
    (hc : b.compressed = false) (hbuf : b.buf = v) : (b.compress z m).Stores z m v := by
  refine ⟨compress_holds hc hbuf, fun hcompressed hnil => ?_⟩
  -- nothing is shorter than the empty buffer
  unfold compress at hcompressed
  split at hcompressed
  · simp [hc] at hcompressed
  · simp [hbuf, hnil, hc] at hcompressed

theorem overwrite_stores (l : Lite3) (z : Zstd) (m : ZstdManager) (data : Bytes) :
    (overwrite l z m data).1.Stores z (overwrite l z m data).2 (storedForm l data) := by
  unfold overwrite
  dsimp only
  split
  · rename_i hempty
    rw [List.isEmpty_iff.mp hempty, storedForm_nil]
    exact empty_stores z _
  · exact compress_stores rfl rfl

theorem overwrite_holds (l : Lite3) (z : Zstd) (m : ZstdManager) (data : Bytes) :
    (overwrite l z m data).1.Holds z (overwrite l z m data).2 (storedForm l data) :=
  (overwrite_stores l z m data).1

end Blob

end L3KV
