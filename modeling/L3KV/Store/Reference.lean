import L3KV.Store.Apply

/-!
# A reference model of the external libraries

A small self-delimiting object format that satisfies the laws stated for Lite³, and a zstd
that never trains a dictionary. They show that the laws can be met, and concrete runs of the
engine are evaluated with them.
-/

namespace L3KV

open Framework

/-- A string, each byte behind a 1, closed by a 0. -/
def encodeText : Bytes → Bytes
  | [] => [0]
  | b :: text => 1 :: b :: encodeText text

/-- Reads a string at the front and returns the rest behind it. -/
def decodeText : Bytes → Bytes × Bytes
  | 1 :: b :: rest => (b :: (decodeText rest).1, (decodeText rest).2)
  | 0 :: rest => ([], rest)
  | _ => ([], [])

private theorem decodeText_encodeText (text rest : Bytes) :
    decodeText (encodeText text ++ rest) = (text, rest) := by
  induction text with
  | nil => rfl
  | cons b text ih => simp [encodeText, decodeText, ih]

/-- A field: its type, its name and the encoding of its value. -/
structure RefField where
  type : Lite3Type
  name : Bytes
  value : Bytes
  deriving DecidableEq

namespace RefField

def tag : Lite3Type → UInt8
  | .null => 0
  | .bool => 1
  | .int64 => 2
  | .float64 => 3
  | .bytes => 4
  | .string => 5
  | .object => 6
  | .array => 7

def untag (b : UInt8) : Lite3Type :=
  if b = 1 then .bool else if b = 2 then .int64 else if b = 3 then .float64
  else if b = 4 then .bytes else if b = 5 then .string else if b = 6 then .object
  else if b = 7 then .array else .null

private theorem untag_tag (t : Lite3Type) : untag (tag t) = t := by
  cases t <;> rfl

def encode (f : RefField) : Bytes := tag f.type :: (encodeText f.name ++ encodeText f.value)

/-- The field at the front of a nonempty text, and what follows it. -/
def decode (b : UInt8) (rest : Bytes) : RefField × Bytes :=
  let name := decodeText rest
  let value := decodeText name.2
  (⟨untag b, name.1, value.1⟩, value.2)

theorem decode_encode (f : RefField) (rest : Bytes) :
    ∃ b tail, f.encode ++ rest = b :: tail ∧ decode b tail = (f, rest) := by
  refine ⟨_, _, rfl, ?_⟩
  simp [decode, decodeText_encodeText, untag_tag]

end RefField

/-- The fields of an object body; the fuel is at least the length of the text. -/
def decodeFields : Nat → Bytes → List RefField
  | 0, _ => []
  | _ + 1, [] => []
  | fuel + 1, b :: rest =>
      (RefField.decode b rest).1 :: decodeFields fuel (RefField.decode b rest).2

/-- The fields of an object; none for a buffer that is not one. -/
def objectFields : Bytes → List RefField
  | 6 :: body => decodeFields body.length body
  | _ => []

private theorem decodeText_shorter (text : Bytes) : (decodeText text).2.length ≤ text.length := by
  induction text using decodeText.induct with
  | case1 b rest ih =>
      simp only [decodeText, List.length_cons]
      omega
  | case2 rest => simp [decodeText]
  | case3 text h1 h2 => simp [decodeText]

private theorem decode_shorter (b : UInt8) (rest : Bytes) :
    (RefField.decode b rest).2.length ≤ rest.length :=
  le_trans (decodeText_shorter _) (decodeText_shorter _)

private theorem decodeFields_fuel (fuel : Nat) (body : Bytes) (h : body.length ≤ fuel) :
    decodeFields fuel body = decodeFields body.length body := by
  induction fuel using Nat.strong_induction_on generalizing body with
  | _ fuel ih =>
      match fuel, body, h with
      | 0, [], _ => rfl
      | fuel + 1, [], _ => rfl
      | fuel + 1, b :: rest, h =>
          have hle : (RefField.decode b rest).2.length ≤ rest.length := decode_shorter b rest
          have hrest : rest.length ≤ fuel := by simpa using h
          simp only [List.length_cons, decodeFields]
          rw [ih fuel (by omega) _ (by omega)]
          by_cases hlt : rest.length < fuel + 1
          · rw [ih rest.length hlt _ hle]
          · omega

private theorem objectFields_cons (f : RefField) (body : Bytes) :
    objectFields (6 :: (f.encode ++ body)) = f :: objectFields (6 :: body) := by
  obtain ⟨b, tail, heq, hdecode⟩ := RefField.decode_encode f body
  simp only [objectFields, heq, List.length_cons, decodeFields, hdecode]
  have hle : body.length ≤ tail.length := by
    have := decode_shorter b tail
    rwa [hdecode] at this
  rw [decodeFields_fuel _ _ hle]

def refSet (buf : Bytes) (f : RefField) : Option Bytes :=
  match buf with
  | 6 :: body => some (6 :: (f.encode ++ body))
  | 7 :: _ => some (6 :: f.encode)
  | _ => none

def refGet (buf : Bytes) (name : Bytes) : Option RefField :=
  (objectFields buf).find? fun f => f.name = name

def refGetAs (type : Lite3Type) (buf name : Bytes) : Option Bytes :=
  match refGet buf name with
  | some f => if f.type = type then some f.value else none
  | none => none

/-- The reference object format. JSON text is never converted. -/
def Lite3.reference : Lite3 where
  initObject := [6]
  setI64 buf field value := refSet buf ⟨.int64, field, leBytes 8 value.toUInt64.toNat⟩
  setBool buf field value := refSet buf ⟨.bool, field, [if value then 1 else 0]⟩
  setStr buf field value := refSet buf ⟨.string, field, value⟩
  getType buf field := some (((refGet buf field).map RefField.type).getD .null)
  getI64 buf field := (refGetAs .int64 buf field).map fun v => (UInt64.ofNat (leValue v)).toInt64
  getF64 _ _ := none
  getBool buf field := (refGetAs .bool buf field).map fun v => v = [1]
  getStr buf field := refGetAs .string buf field
  getBytes buf field := refGetAs .bytes buf field
  keys buf := (objectFields buf).map RefField.name
  fromJsonString _ := none

private theorem refSet_spec {buf buf' : Bytes} {f : RefField} (h : refSet buf f = some buf') :
    (∃ body, buf' = 6 :: body) ∧ objectFields buf' = f :: objectFields buf := by
  unfold refSet at h
  split at h
  · cases h
    exact ⟨⟨_, rfl⟩, objectFields_cons f _⟩
  · cases h
    refine ⟨⟨_, rfl⟩, ?_⟩
    have hcons := objectFields_cons f []
    rw [List.append_nil] at hcons
    exact hcons
  · cases h

private theorem refSet_total {buf : Bytes} (f : RefField) (h : Lite3.IsContainer buf) :
    ∃ buf', refSet buf f = some buf' := by
  obtain ⟨rest, rfl | rfl⟩ := h <;> exact ⟨_, rfl⟩

private theorem refGet_refSet {buf buf' : Bytes} {f : RefField} (h : refSet buf f = some buf') :
    refGet buf' f.name = some f ∧ ∀ other, other ≠ f.name → refGet buf' other = refGet buf other := by
  have hfields := (refSet_spec h).2
  refine ⟨by simp [refGet, hfields], fun other hother => ?_⟩
  have hne : f.name ≠ other := Ne.symm hother
  simp [refGet, hfields, hne]

private theorem int64_text (value : Int64) :
    (UInt64.ofNat (leValue (leBytes 8 value.toUInt64.toNat))).toInt64 = value := by
  rw [leValue_leBytes value.toUInt64.toNat_lt, UInt64.ofNat_toNat]
  simp

private theorem refGrown_container {buf : Bytes} (h : Lite3.reference.Grown buf) :
    Lite3.IsContainer buf := by
  induction h with
  | initObject => exact ⟨[], Or.inl rfl⟩
  | setI64 _ hset =>
      obtain ⟨body, rfl⟩ := (refSet_spec hset).1
      exact ⟨body, Or.inl rfl⟩
  | setBool _ hset =>
      obtain ⟨body, rfl⟩ := (refSet_spec hset).1
      exact ⟨body, Or.inl rfl⟩

/-- The reference format satisfies the laws. -/
theorem Lite3.reference_lawful : Lite3.reference.Lawful where
  initObject_container := ⟨[], Or.inl rfl⟩
  initObject_missing _ := ⟨.null, rfl, by decide⟩
  setI64_total _ _ _ h := refSet_total _ (refGrown_container h)
  setBool_total _ _ _ h := refSet_total _ (refGrown_container h)
  setI64_container h _ := by
    obtain ⟨body, rfl⟩ := (refSet_spec h).1
    exact ⟨body, Or.inl rfl⟩
  setBool_container h _ := by
    obtain ⟨body, rfl⟩ := (refSet_spec h).1
    exact ⟨body, Or.inl rfl⟩
  setI64_read h := by
    have hget := (refGet_refSet h).1
    simp only [Lite3.reference, refGetAs, hget, Option.map_some, Option.getD_some, if_true,
      int64_text, and_self]
  setBool_read {_ _ value _} h := by
    have hget := (refGet_refSet h).1
    cases value <;> simp [Lite3.reference, refGetAs, hget]
  setI64_frame h hother := by
    have hget := (refGet_refSet h).2 _ hother
    simp [Lite3.reference, refGetAs, hget]
  setBool_frame h hother := by
    have hget := (refGet_refSet h).2 _ hother
    simp [Lite3.reference, refGetAs, hget]
  fromJsonString_container h := by
    cases h

theorem Lite3.reference_setsText : Lite3.reference.SetsText where
  setStr_container h _ := by
    obtain ⟨body, rfl⟩ := (refSet_spec h).1
    exact ⟨body, Or.inl rfl⟩
  setStr_read h := by
    have hget := (refGet_refSet h).1
    simp [Lite3.reference, hget]
  setStr_frame h hother := by
    have hget := (refGet_refSet h).2 _ hother
    simp [Lite3.reference, refGetAs, hget]

/-- A zstd that fails in every call, so that nothing is ever compressed. -/
def Zstd.plain : Zstd where
  trainFromBuffer _ _ := none
  compressUsingCDict _ _ := none
  decompressUsingDDict _ _ _ := none

theorem Zstd.plain_lossless : Zstd.plain.Lossless := by
  intro dict src dst h
  cases h

theorem Zstd.plain_framed : Zstd.plain.Framed := by
  intro dict src dst h
  cases h

/-- The reference libraries with a given hash. -/
def External.reference (xxh3 : Bytes → UInt64) : External where
  lite3 := Lite3.reference
  zstd := Zstd.plain
  xxh3 := xxh3
  sortRules := id
  movedFrom _ := []

/-- The shard that a hash which is always `0` routes every key to. -/
abbrev firstShard : Fin 8 := 0

end L3KV
