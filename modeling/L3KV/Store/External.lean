import Mathlib.Data.Rat.Defs
import L3KV.Framework.Words

/-!
# Libraries outside the repository

The engine stores buffers of the Lite³ library, compresses them with zstd under a trained
dictionary and hashes with XXH3. None of the three is part of the repository, so each is a
parameter here. What the engine relies on is stated separately, as named laws.
-/

namespace L3KV

open Framework

/-- The value types of a Lite³ object that the engine tells apart. -/
inductive Lite3Type where
  | null
  | bool
  | int64
  | float64
  | bytes
  | string
  | object
  | array
  deriving DecidableEq, Repr

/-- `lite3cpp::Buffer` on its bytes, every access at the root object, and `lite3_json`. An
operation that throws is `none`. Doubles are the rationals they denote. -/
structure Lite3 where
  initObject : Bytes
  setI64 : Bytes → Bytes → Int64 → Option Bytes
  setBool : Bytes → Bytes → Bool → Option Bytes
  setStr : Bytes → Bytes → Bytes → Option Bytes
  getType : Bytes → Bytes → Option Lite3Type
  getI64 : Bytes → Bytes → Option Int64
  getF64 : Bytes → Bytes → Option Rat
  getBool : Bytes → Bytes → Option Bool
  getStr : Bytes → Bytes → Option Bytes
  getBytes : Bytes → Bytes → Option Bytes
  /-- The keys of the object in the order of `begin(0) .. end(0)`. -/
  keys : Bytes → List Bytes
  fromJsonString : Bytes → Option Bytes

/-- The zstd calls of `ZstdManager`; an error code is `none`. A dictionary is the content of
the buffer it was trained into, from which both `CDict` and `DDict` are made. -/
structure Zstd where
  /-- `ZDICT_trainFromBuffer` on the samples, with the capacity of the dictionary. -/
  trainFromBuffer : List Bytes → Nat → Option Bytes
  compressUsingCDict : Bytes → Bytes → Option Bytes
  /-- `ZSTD_decompress_usingDDict` into a buffer of the given size. -/
  decompressUsingDDict : Bytes → Bytes → Nat → Option Bytes

/-- Decompression with a dictionary undoes compression with it, given a buffer of the
original size. -/
def Zstd.Lossless (z : Zstd) : Prop :=
  ∀ dict src dst, z.compressUsingCDict dict src = some dst →
    z.decompressUsingDDict dict dst src.length = some src

/-- A compressed frame is never empty. -/
def Zstd.Framed (z : Zstd) : Prop :=
  ∀ dict src dst, z.compressUsingCDict dict src = some dst → dst ≠ []

namespace Lite3

/-- The type tags of an encoded object and array. -/
def IsContainer (buf : Bytes) : Prop := ∃ rest, buf = 0x06 :: rest ∨ buf = 0x07 :: rest

/-- The objects that numbers and flags make of an empty one. -/
inductive Grown (l : Lite3) : Bytes → Prop
  | initObject : Grown l l.initObject
  | setI64 {buf field value buf'} (h : Grown l buf) (hset : l.setI64 buf field value = some buf') :
      Grown l buf'
  | setBool {buf field value buf'} (h : Grown l buf) (hset : l.setBool buf field value = some buf') :
      Grown l buf'

/-- What it relies on when it patches them: a text replaces the field, whatever its type was, and
the other fields stay. -/
structure SetsText (l : Lite3) : Prop where
  setStr_container : ∀ {buf field text buf'}, l.setStr buf field text = some buf' →
    IsContainer buf → IsContainer buf'
  setStr_read : ∀ {buf field text buf'}, l.setStr buf field text = some buf' →
    l.getType buf' field = some .string
  setStr_frame : ∀ {buf field text buf' other}, l.setStr buf field text = some buf' →
    other ≠ field → l.getType buf' other = l.getType buf other ∧
      l.getI64 buf' other = l.getI64 buf other ∧ l.getBool buf' other = l.getBool buf other

/-- What the engine relies on when it keeps metadata in small objects: a field that was set
is read back with its type and value, the other fields stay, and the buffer remains an
object with its type tag in front. -/
structure Lawful (l : Lite3) : Prop where
  initObject_container : IsContainer l.initObject
  /-- A field that is not there has a type, and it is not `Bool`. -/
  initObject_missing : ∀ field, ∃ t, l.getType l.initObject field = some t ∧ t ≠ .bool
  setI64_total : ∀ buf field value, l.Grown buf → ∃ buf', l.setI64 buf field value = some buf'
  setBool_total : ∀ buf field value, l.Grown buf → ∃ buf', l.setBool buf field value = some buf'
  setI64_container : ∀ {buf field value buf'}, l.setI64 buf field value = some buf' →
    IsContainer buf → IsContainer buf'
  setBool_container : ∀ {buf field value buf'}, l.setBool buf field value = some buf' →
    IsContainer buf → IsContainer buf'
  setI64_read : ∀ {buf field value buf'}, l.setI64 buf field value = some buf' →
    l.getType buf' field = some .int64 ∧ l.getI64 buf' field = some value
  setBool_read : ∀ {buf field value buf'}, l.setBool buf field value = some buf' →
    l.getType buf' field = some .bool ∧ l.getBool buf' field = some value
  setI64_frame : ∀ {buf field value buf' other}, l.setI64 buf field value = some buf' →
    other ≠ field → l.getType buf' other = l.getType buf other ∧
      l.getI64 buf' other = l.getI64 buf other
  setBool_frame : ∀ {buf field value buf' other}, l.setBool buf field value = some buf' →
    other ≠ field → l.getType buf' other = l.getType buf other ∧
      l.getI64 buf' other = l.getI64 buf other
  /-- The encoding of a JSON text is an object or an array. -/
  fromJsonString_container : ∀ {text buf}, l.fromJsonString text = some buf → IsContainer buf

end Lite3

end L3KV
