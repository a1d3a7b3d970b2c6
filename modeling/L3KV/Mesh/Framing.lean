import L3KV.Framework.Runs
import L3KV.Framework.Words

/-!
# Frames of the mesh

A connection writes its frames one after the other into a byte stream, and the peer reads two words
and then as many bytes as the second one says. The frames that are read are those the sender
describes in a comment; the ones it writes are Lite³ objects, which start with their type tag.
-/

namespace L3KV

open Framework

/-- `enum class Lane`. -/
inductive Lane where
  | control
  | express
  | standard
  | heavy
  deriving DecidableEq, Repr

def Lane.code : Lane → UInt32
  | .control => 0
  | .express => 1
  | .standard => 2
  | .heavy => 3

namespace Mesh

/-- What `Mesh::send` needs of `lite3cpp::Buffer`. A setter that throws is `none`. -/
structure ObjectBuffer where
  initObject : Bytes
  setBytes : Bytes → Bytes → Bytes → Option Bytes

/-- A buffer that starts with the type tag of an object. -/
def IsObject (buf : Bytes) : Prop := ∃ rest, buf = 0x06 :: rest

structure ObjectBuffer.Tagged (l : ObjectBuffer) : Prop where
  initObject : IsObject l.initObject
  setBytes : ∀ {buf field value buf'}, l.setBytes buf field value = some buf' → IsObject buf →
    IsObject buf'

/-- The arguments of a call of `send`. -/
structure Message where
  lane : Lane
  payload : Bytes
  deriving DecidableEq, Repr

/-- `[Lane:4][Size:4]`. -/
def header (m : Message) : Bytes := leBytes 4 m.lane.code.toNat ++ leBytes 4 m.payload.length

/-- The buffer `send` passes to the connection. -/
def frame (l : ObjectBuffer) (m : Message) : Option Bytes :=
  (l.setBytes l.initObject (ascii "h") (header m)).bind fun buf =>
    l.setBytes buf (ascii "b") m.payload

/-- The writing end of a connection. -/
structure Connection where
  outbox : List Bytes
  /-- What has been written to the socket. -/
  wire : Bytes

inductive Event where
  | send (m : Message)
  /-- The front of the outbox has been written; the next one is begun. -/
  | wrote

def Connection.init : Connection := ⟨[], []⟩

def Connection.step (l : ObjectBuffer) (c : Connection) : Event → Option Connection
  | .send m =>
      match frame l m with
      | none => some c
      | some buf => some { c with outbox := c.outbox ++ [buf] }
  | .wrote =>
      match c.outbox with
      | [] => none
      | buf :: outbox => some ⟨outbox, c.wire ++ buf⟩

/-- The calls of a run. -/
def sent (events : List Event) : List Message :=
  events.filterMap fun
    | .send m => some m
    | .wrote => none

/-- What the read loop is waiting for: the rest of a header, or the rest of a body. -/
inductive Reader where
  | header (got : Bytes)
  | body (lane : UInt32) (size : Nat) (got : Bytes)
  deriving DecidableEq, Repr

namespace Reader

/-- `do_read_body`: a body of no bytes is there at once. -/
def readBody (lane : UInt32) (size : Nat) : Reader × List (UInt32 × Bytes) :=
  if size = 0 then (.header [], [(lane, [])]) else (.body lane size [], [])

/-- One more byte has come, and with it perhaps a call of the message callback. -/
def next : Reader → UInt8 → Reader × List (UInt32 × Bytes)
  | .header got, b =>
      let got := got ++ [b]
      if got.length < 8 then (.header got, [])
      else readBody (UInt32.ofNat (readWord 4 got 0)) (readWord 4 got 4)
  | .body lane size got, b =>
      let got := got ++ [b]
      if got.length < size then (.body lane size got, [])
      else (.header [], [(lane, got)])

def run : Reader → Bytes → Reader × List (UInt32 × Bytes)
  | r, [] => (r, [])
  | r, b :: rest => ((run (r.next b).1 rest).1, (r.next b).2 ++ (run (r.next b).1 rest).2)

end Reader

/-- What the peer's callback is given when these bytes come over a new connection. -/
def received (stream : Bytes) : List (UInt32 × Bytes) := (Reader.run (.header []) stream).2

theorem IsObject.frame {l : ObjectBuffer} (hl : l.Tagged) {m : Message} {buf : Bytes}
    (h : Mesh.frame l m = some buf) : IsObject buf := by
  obtain ⟨first, hfirst, hsecond⟩ := Option.bind_eq_some_iff.mp h
  exact hl.setBytes hsecond (hl.setBytes hfirst hl.initObject)

private theorem written_in_order {l : ObjectBuffer} {events : List Event} {c : Connection}
    (hrun : events.foldlM (Connection.step l) Connection.init = some c) :
    c.wire ++ c.outbox.flatten = ((sent events).filterMap (frame l)).flatten := by
  refine run_invariant_always (fun events c =>
    c.wire ++ c.outbox.flatten = ((sent events).filterMap (frame l)).flatten) rfl ?_ hrun
  intro events c event c' hc hstep
  cases event with
  | send m =>
      have hsent : sent (events ++ [.send m]) = sent events ++ [m] := by simp [sent]
      rw [hsent, List.filterMap_append, List.flatten_append, ← hc]
      cases hframe : frame l m with
      | none =>
          simp only [Connection.step, hframe, Option.some.injEq] at hstep
          simp [hframe, ← hstep]
      | some buf =>
          simp only [Connection.step, hframe, Option.some.injEq] at hstep
          simp [hframe, ← hstep]
  | wrote =>
      have hsent : sent (events ++ [.wrote]) = sent events := by simp [sent]
      rw [hsent, ← hc]
      cases houtbox : c.outbox with
      | nil => simp [Connection.step, houtbox] at hstep
      | cons buf outbox =>
          simp only [Connection.step, houtbox, Option.some.injEq] at hstep
          simp [← hstep]

namespace Reader

variable {got : Bytes} {b : UInt8} {lane : UInt32} {size : Nat}

private theorem next_header_short (h : (got ++ [b]).length < 8) :
    next (.header got) b = (.header (got ++ [b]), []) := if_pos h

private theorem next_header_full (h : ¬ (got ++ [b]).length < 8) :
    next (.header got) b =
      readBody (UInt32.ofNat (readWord 4 (got ++ [b]) 0)) (readWord 4 (got ++ [b]) 4) := if_neg h

private theorem next_body_short (h : (got ++ [b]).length < size) :
    next (.body lane size got) b = (.body lane size (got ++ [b]), []) := if_pos h

private theorem next_body_full (h : ¬ (got ++ [b]).length < size) :
    next (.body lane size got) b = (.header [], [(lane, got ++ [b])]) := if_neg h

theorem run_append (r : Reader) (stream more : Bytes) :
    r.run (stream ++ more) =
      (((r.run stream).1.run more).1, (r.run stream).2 ++ ((r.run stream).1.run more).2) := by
  induction stream generalizing r with
  | nil => rfl
  | cons b stream ih => simp [run, ih]

private theorem run_header (stream : Bytes) (h : got.length + stream.length < 8) :
    run (.header got) stream = (.header (got ++ stream), []) := by
  induction stream generalizing got with
  | nil => simp [run]
  | cons b stream ih =>
      rw [List.length_cons] at h
      have hshort : (got ++ [b]).length < 8 := by simp; omega
      have hrest := ih (by simp; omega : (got ++ [b]).length + stream.length < 8)
      simp [run, next_header_short hshort, hrest]

private theorem run_body (stream : Bytes) (h : got.length + stream.length < size) :
    run (.body lane size got) stream = (.body lane size (got ++ stream), []) := by
  induction stream generalizing got with
  | nil => simp [run]
  | cons b stream ih =>
      rw [List.length_cons] at h
      have hshort : (got ++ [b]).length < size := by simp; omega
      have hrest := ih (by simp; omega : (got ++ [b]).length + stream.length < size)
      simp [run, next_body_short hshort, hrest]

private theorem run_whole_header {stream : Bytes} (h : stream.length = 8) :
    run (.header []) stream =
      readBody (UInt32.ofNat (readWord 4 stream 0)) (readWord 4 stream 4) := by
  rcases List.eq_nil_or_concat stream with rfl | ⟨front, last, rfl⟩
  · cases h
  · rw [List.concat_eq_append] at h ⊢
    have hfront : run (.header []) front = (.header front, []) :=
      run_header front (by simp at h ⊢; omega)
    rw [run_append, hfront]
    simp [run, next_header_full (not_lt_of_ge (Nat.le_of_eq h.symm))]

private theorem run_readBody (lane : UInt32) (payload : Bytes) :
    (readBody lane payload.length).2 ++ ((readBody lane payload.length).1.run payload).2 =
        [(lane, payload)] ∧
      ((readBody lane payload.length).1.run payload).1 = .header [] := by
  rcases List.eq_nil_or_concat payload with rfl | ⟨front, last, rfl⟩
  · exact ⟨rfl, rfl⟩
  · have hne : (front ++ [last]).length ≠ 0 := by simp
    have hfront : run (.body lane (front ++ [last]).length []) front =
        (.body lane (front ++ [last]).length front, []) :=
      run_body front (by simp)
    simp only [List.concat_eq_append, readBody, if_neg hne]
    rw [run_append, hfront]
    simp [run, next_body_full]

/-- The reader is within the first frame of a stream that starts with this byte. -/
def Begun (b : UInt8) : Reader → Prop
  | .header got => ∃ rest, got = b :: rest
  | .body lane _ _ => lane.toNat % 256 = b.toNat

private theorem readWord_first (b : UInt8) (rest : Bytes) :
    (UInt32.ofNat (readWord 4 (b :: rest) 0)).toNat % 256 = b.toNat := by
  have hb := b.toNat_lt
  have hword : readWord 4 (b :: rest) 0 = b.toNat + 256 * leValue (rest.take 3) := by
    simp [readWord, slice, leValue]
  rw [UInt32.toNat_ofNat', hword]
  omega

theorem Begun.next {r : Reader} (h : r.Begun b) (c : UInt8) :
    ((r.next c).1.Begun b ∧ (r.next c).2 = []) ∨
      ∃ lane payload, (r.next c).2 = [(lane, payload)] ∧ lane.toNat % 256 = b.toNat := by
  cases r with
  | header got =>
      obtain ⟨rest, rfl⟩ := h
      by_cases hlen : (b :: rest ++ [c]).length < 8
      · rw [next_header_short hlen]
        exact Or.inl ⟨⟨rest ++ [c], rfl⟩, rfl⟩
      · rw [next_header_full hlen, readBody]
        split
        · exact Or.inr ⟨_, _, rfl, readWord_first b _⟩
        · exact Or.inl ⟨readWord_first b _, rfl⟩
  | body lane size got =>
      by_cases hlen : (got ++ [c]).length < size
      · rw [next_body_short hlen]
        exact Or.inl ⟨h, rfl⟩
      · rw [next_body_full hlen]
        exact Or.inr ⟨lane, got ++ [c], rfl, h⟩

/-- The lane of the first frame to be delivered ends in the first byte of the stream. -/
theorem Begun.run {r : Reader} (h : r.Begun b) (stream : Bytes) {lane : UInt32} {payload : Bytes}
    {more : List (UInt32 × Bytes)} (hgives : (r.run stream).2 = (lane, payload) :: more) :
    lane.toNat % 256 = b.toNat := by
  induction stream generalizing r with
  | nil => cases hgives
  | cons c stream ih =>
      rw [Reader.run] at hgives
      rcases h.next c with ⟨hbegun, hnone⟩ | ⟨lane', payload', hfirst, hlane⟩
      · rw [hnone] at hgives
        exact ih hbegun hgives
      · rw [hfirst] at hgives
        cases hgives
        exact hlane

end Reader

private theorem run_described {m : Message} (hlen : m.payload.length < 2 ^ 32) :
    Reader.run (.header []) (header m ++ m.payload) =
      (.header [], [(m.lane.code, m.payload)]) := by
  have hlane : readWord 4 (header m) 0 = m.lane.code.toNat :=
    readWord_front (by simpa using m.lane.code.toNat_lt) _
  have hsize : readWord 4 (header m) 4 = m.payload.length := by
    rw [header, readWord_skip (by simp), leBytes_length]
    simpa using readWord_front hlen []
  have hheader : (header m).length = 8 := by simp [header]
  obtain ⟨hgives, hstate⟩ := Reader.run_readBody m.lane.code m.payload
  rw [Reader.run_append, Reader.run_whole_header hheader, hlane, hsize, UInt32.ofNat_toNat]
  exact Prod.ext hstate hgives

/-- The read loop delivers the frames that the comment in `send` describes. -/
theorem received_described (ms : List Message) (hlen : ∀ m ∈ ms, m.payload.length < 2 ^ 32) :
    Reader.run (.header []) (ms.flatMap fun m => header m ++ m.payload) =
      (.header [], ms.map fun m => (m.lane.code, m.payload)) := by
  induction ms with
  | nil => rfl
  | cons m ms ih =>
      rw [List.flatMap_cons, Reader.run_append, run_described (hlen m (by simp)),
        ih fun m' hm' => hlen m' (by simp [hm'])]
      rfl

/-- The sequence of the calls arrives if and only if there are none. -/
theorem frames_arrive_iff {l : ObjectBuffer} (hl : l.Tagged) {events : List Event} {c : Connection}
    (hrun : events.foldlM (Connection.step l) Connection.init = some c) (hdone : c.outbox = []) :
    (received c.wire = (sent events).map fun m => (m.lane.code, m.payload)) ↔ sent events = [] := by
  have hwire : c.wire = ((sent events).filterMap (frame l)).flatten := by
    simpa [hdone] using written_in_order hrun
  constructor
  · intro hreceived
    by_contra hne
    obtain ⟨m, ms, hsent⟩ := List.exists_cons_of_ne_nil hne
    rw [hsent, List.map_cons] at hreceived
    -- Something was written, and it starts with the tag.
    have hobject : IsObject c.wire := by
      cases hframes : (sent events).filterMap (frame l) with
      | nil =>
          rw [hframes] at hwire
          rw [hwire] at hreceived
          cases hreceived
      | cons buf bufs =>
          have hmem : buf ∈ (sent events).filterMap (frame l) := by simp [hframes]
          obtain ⟨m', -, hbuf⟩ := List.mem_filterMap.mp hmem
          obtain ⟨rest, hrest⟩ := IsObject.frame hl hbuf
          exact ⟨rest ++ bufs.flatten, by rw [hwire, hframes, hrest]; rfl⟩
    obtain ⟨rest, hrest⟩ := hobject
    rw [hrest] at hreceived
    have hbegun : (Reader.header [0x06]).Begun 0x06 := ⟨[], rfl⟩
    have hlane := hbegun.run rest hreceived
    revert hlane
    cases m.lane <;> decide
  · intro hnone
    rw [hwire, hnone]
    rfl

/-- An object that keeps its fields behind a header of four bytes. -/
private def plainObject : ObjectBuffer where
  initObject := [0x06, 0, 0, 0]
  setBytes buf field value := some (buf ++ (field ++ value))

private theorem plainObject_tagged : plainObject.Tagged := by
  constructor
  · exact ⟨[0, 0, 0], rfl⟩
  · rintro buf field value buf' h ⟨rest, rfl⟩
    cases h
    exact ⟨rest ++ (field ++ value), rfl⟩

/-- One call on a new connection: the peer takes the tag for the lane and waits for a body that
does not come. -/
theorem frames_lost : ∃ c, [Event.send ⟨.control, [1]⟩, .wrote].foldlM
      (Connection.step plainObject) Connection.init = some c ∧ c.outbox = [] ∧
    received c.wire = [] ∧ sent [Event.send ⟨.control, [1]⟩, .wrote] = [⟨.control, [1]⟩] :=
  ⟨_, rfl, rfl, by decide +kernel, rfl⟩

/-- Two calls, of which the second is made while the first frame is being written. -/
theorem frames_arrive_iff_two : ∃ c, [Event.send ⟨.control, [1]⟩, .send ⟨.heavy, []⟩, .wrote,
      .wrote].foldlM (Connection.step plainObject) Connection.init = some c ∧
    received c.wire ≠ [(0, [1]), (3, [])] := by
  refine ⟨_, rfl, fun hreceived => ?_⟩
  have hnone := (@frames_arrive_iff plainObject plainObject_tagged
    [.send ⟨.control, [1]⟩, .send ⟨.heavy, []⟩, .wrote, .wrote] _ rfl rfl).mp hreceived
  cases hnone

end Mesh

end L3KV
