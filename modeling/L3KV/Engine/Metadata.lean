import L3KV.Engine.Calls
import L3KV.Store.Reference

/-!
# Metadata objects

The sidecar of a key is a small object with the three parts of the timestamp and, for a
delete, a tombstone flag. Under the laws of the object format it reads back as written.
-/

namespace L3KV

open Framework

/-- What a metadata buffer says. -/
structure ReadsMeta (l : Lite3) (buf : Bytes) (ts : Timestamp) (tombstone : Bool) : Prop where
  container : Lite3.IsContainer buf
  wall : l.getType buf (ascii "ts") = some .int64 ∧ l.getI64 buf (ascii "ts") = some ts.wallTime
  logical : l.getType buf (ascii "l") = some .int64 ∧
    l.getI64 buf (ascii "l") = some (Int64.ofNat ts.logical.toNat)
  node : l.getType buf (ascii "n") = some .int64 ∧
    l.getI64 buf (ascii "n") = some (Int64.ofNat ts.nodeId.toNat)
  flag : if tombstone then l.getType buf (ascii "tombstone") = some .bool ∧
      l.getBool buf (ascii "tombstone") = some true
    else ∃ t, l.getType buf (ascii "tombstone") = some t ∧ t ≠ .bool

/-- The tombstone flag as `parse_meta` reads it. -/
def tombstoneFlag (l : Lite3) (buf : Bytes) : Bool :=
  if buf.isEmpty then false
  else if l.getType buf (ascii "tombstone") = some .bool then
    (l.getBool buf (ascii "tombstone")).getD false
  else false

/-- Four scalar fields take less than 64 KiB. -/
def SmallMeta (l : Lite3) : Prop :=
  ∀ ts tombstone buf, metaObject l ts tombstone = some buf → buf.length < 2 ^ 16

/-- What the libraries outside the repository promise. -/
structure External.Lawful (x : External) : Prop where
  lite3 : x.lite3.Lawful
  zstd : x.zstd.Lossless
  smallMeta : SmallMeta x.lite3

section

variable {l : Lite3}

private theorem stampFields_reads (hl : l.Lawful) (ts : Timestamp) :
    ∃ a b c, l.setI64 l.initObject (ascii "ts") ts.wallTime = some a ∧
      l.setI64 a (ascii "l") (Int64.ofNat ts.logical.toNat) = some b ∧
      l.setI64 b (ascii "n") (Int64.ofNat ts.nodeId.toNat) = some c ∧ l.Grown c ∧
      ReadsMeta l c ts false := by
  obtain ⟨a, ha⟩ := hl.setI64_total l.initObject (ascii "ts") ts.wallTime .initObject
  have hga := Lite3.Grown.initObject.setI64 ha
  obtain ⟨b, hb⟩ := hl.setI64_total a (ascii "l") (Int64.ofNat ts.logical.toNat) hga
  have hgb := hga.setI64 hb
  obtain ⟨c, hc⟩ := hl.setI64_total b (ascii "n") (Int64.ofNat ts.nodeId.toNat) hgb
  have hbc := hl.setI64_container hb (hl.setI64_container ha hl.initObject_container)
  refine ⟨a, b, c, ha, hb, hc, hgb.setI64 hc, ?_⟩
  have hts := hl.setI64_read ha
  have hl' := hl.setI64_read hb
  have hn := hl.setI64_read hc
  -- Each field set later leaves the ones before it.
  have htsb := hl.setI64_frame hb (show ascii "ts" ≠ ascii "l" by decide)
  have htsc := hl.setI64_frame hc (show ascii "ts" ≠ ascii "n" by decide)
  have hlc := hl.setI64_frame hc (show ascii "l" ≠ ascii "n" by decide)
  constructor
  · exact hl.setI64_container hc hbc
  · rw [htsc.1, htsc.2, htsb.1, htsb.2]
    exact hts
  · rw [hlc.1, hlc.2]
    exact hl'
  · exact hn
  · obtain ⟨t, ht, hbool⟩ := hl.initObject_missing (ascii "tombstone")
    refine ⟨t, ?_, hbool⟩
    rw [(hl.setI64_frame hc (show ascii "tombstone" ≠ ascii "n" by decide)).1,
      (hl.setI64_frame hb (show ascii "tombstone" ≠ ascii "l" by decide)).1,
      (hl.setI64_frame ha (show ascii "tombstone" ≠ ascii "ts" by decide)).1]
    exact ht

/-- Building a metadata object succeeds, and it reads back. -/
theorem metaObject_reads (hl : l.Lawful) (ts : Timestamp) (tombstone : Bool) :
    ∃ buf, metaObject l ts tombstone = some buf ∧ ReadsMeta l buf ts tombstone := by
  obtain ⟨a, b, c, ha, hb, hc, hgrown, hreads⟩ := stampFields_reads hl ts
  cases tombstone with
  | false => exact ⟨c, by simp [metaObject, ha, hb, hc], hreads⟩
  | true =>
      obtain ⟨d, hd⟩ := hl.setBool_total c (ascii "tombstone") true hgrown
      have hts := hl.setBool_frame hd (show ascii "ts" ≠ ascii "tombstone" by decide)
      have hlog := hl.setBool_frame hd (show ascii "l" ≠ ascii "tombstone" by decide)
      have hnode := hl.setBool_frame hd (show ascii "n" ≠ ascii "tombstone" by decide)
      refine ⟨d, by simp [metaObject, ha, hb, hc, hd], ?_⟩
      constructor
      · exact hl.setBool_container hd hreads.container
      · rw [hts.1, hts.2]
        exact hreads.wall
      · rw [hlog.1, hlog.2]
        exact hreads.logical
      · rw [hnode.1, hnode.2]
        exact hreads.node
      · exact hl.setBool_read hd

theorem ReadsMeta.of_metaObject (hl : l.Lawful) {ts : Timestamp} {tombstone : Bool} {buf : Bytes}
    (h : metaObject l ts tombstone = some buf) : ReadsMeta l buf ts tombstone := by
  obtain ⟨buf', hbuf, hreads⟩ := metaObject_reads hl ts tombstone
  rw [h] at hbuf
  cases hbuf
  exact hreads

theorem ReadsMeta.ne_nil {buf : Bytes} {ts : Timestamp} {tombstone : Bool}
    (h : ReadsMeta l buf ts tombstone) : buf ≠ [] := by
  obtain ⟨rest, rfl | rfl⟩ := h.container <;> simp

theorem localTimestamp_reads {buf : Bytes} {ts : Timestamp} {tombstone : Bool}
    (h : ReadsMeta l buf ts tombstone) : localTimestamp l buf = some ts := by
  have hlen : buf.length ≠ 0 := fun h0 => h.ne_nil (List.length_eq_zero_iff.mp h0)
  simp [localTimestamp, hlen, h.wall, h.logical, h.node]

theorem tombstoneFlag_reads {buf : Bytes} {ts : Timestamp} {tombstone : Bool}
    (h : ReadsMeta l buf ts tombstone) : tombstoneFlag l buf = tombstone := by
  have hne : buf.isEmpty = false := by simpa using h.ne_nil
  have hflag := h.flag
  cases tombstone with
  | true =>
      simp only [if_true] at hflag
      simp [tombstoneFlag, hne, hflag.1, hflag.2]
  | false =>
      obtain ⟨t, ht, hbool⟩ := hflag
      simp [tombstoneFlag, hne, ht, hbool]

theorem storedForm_container {buf : Bytes} (h : Lite3.IsContainer buf) :
    storedForm l buf = buf := by
  have hjson : isJsonPayload buf = false := by
    obtain ⟨rest, rfl | rfl⟩ := h <;> simp [isJsonPayload]
  simp [storedForm, hjson]

theorem storedForm_idem
    (hcontainer : ∀ {text buf}, l.fromJsonString text = some buf → Lite3.IsContainer buf)
    (data : Bytes) :
    storedForm l (storedForm l data) = storedForm l data := by
  by_cases hjson : isJsonPayload data = true
  · cases hconv : l.fromJsonString data with
    | none => simp [storedForm, hjson, hconv]
    | some buf =>
        have hform : storedForm l data = buf := by simp [storedForm, hjson, hconv]
        rw [hform]
        exact storedForm_container (hcontainer hconv)
  · have hform : storedForm l data = data := by simp [storedForm, hjson]
    rw [hform, hform]

end

private theorem encodeText_length (text : Bytes) :
    (encodeText text).length = 2 * text.length + 1 := by
  induction text with
  | nil => rfl
  | cons b text ih =>
      simp only [encodeText, List.length_cons, ih]
      omega

theorem Lite3.reference_smallMeta : SmallMeta Lite3.reference := by
  intro ts tombstone buf h
  have hlen (f : RefField) : f.encode.length = 2 * f.name.length + 2 * f.value.length + 3 := by
    simp only [RefField.encode, List.length_cons, List.length_append, encodeText_length]
    omega
  have hnames : (ascii "ts").length = 2 ∧ (ascii "l").length = 1 ∧ (ascii "n").length = 1 ∧
      (ascii "tombstone").length = 9 := by decide
  cases tombstone <;>
    · simp [metaObject, Lite3.reference, refSet] at h
      rw [← h]
      simp only [List.length_cons, List.length_append, hlen, hnames, leBytes_length, List.length_nil]
      decide

theorem External.reference_lawful (xxh3 : Bytes → UInt64) : (External.reference xxh3).Lawful :=
  ⟨Lite3.reference_lawful, Zstd.plain_lossless, Lite3.reference_smallMeta⟩

end L3KV
