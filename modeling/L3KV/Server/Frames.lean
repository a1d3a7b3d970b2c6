import L3KV.Server.Zmq

/-!
# The accesses of the ZeroMQ front end

A turn of the loop again, with every access to a frame of the message and every read from a frame
checked. A sender chooses the number of frames and their sizes.
-/

namespace L3KV

open Framework

/-- A frame as a whole, as `to_string()` copies it. -/
def frameText (msg : List Bytes) (i : Nat) : Option Bytes := do
  let frame ← msg[i]?
  bytesAt frame 0 frame.length

/-- The test for the one byte `A` in a frame that the message may lack. -/
def readsAuthAt (msg : List Bytes) (i : Nat) : Option Bool :=
  if i + 1 ≤ msg.length then do
    let frame ← msg[i]?
    if frame.length = 1 then do
      let byte ← frame[0]?
      some (byte = 65)
    else some false
  else some false

def readIsAuth (msg : List Bytes) : Option Bool := do
  let second ← readsAuthAt msg 2
  if second then some true else readsAuthAt msg 3

def readEffectiveUid (msg : List Bytes) : Option UInt32 := do
  let frame ← msg[2]?
  if frame.length = 4 then do
    let uid ← wordAt 4 frame 0
    some (UInt32.ofNat uid)
  else some 0

/-- The opcode branches; `some none` if none of them is taken. -/
def readRequest (opcode : UInt8) (msg : List Bytes) : Option (Option Request) :=
  if opcode = 71 ∧ 5 ≤ msg.length then do
    let key ← frameText msg 4
    some (some (.get key))
  else if opcode = 80 ∧ 6 ≤ msg.length then do
    let key ← frameText msg 4
    let value ← frameText msg 5
    some (some (.put key value))
  else if opcode = 68 ∧ 5 ≤ msg.length then do
    let key ← frameText msg 4
    some (some (.del key))
  else if opcode = 77 ∧ 5 ≤ msg.length then do
    let keys ← (List.range (msg.length - 4)).mapM fun i => frameText msg (4 + i)
    some (some (.batchGet keys))
  else if opcode = 66 ∧ 5 ≤ msg.length then do
    let batch ← frameText msg 4
    some (some (.batchPut batch))
  else some none

namespace ZmqServer

/-- The branch of `AUTH`, whose guard counts five frames. -/
def readAuthenticate (s : ZmqServer) (identity : Bytes) (msg : List Bytes) :
    Option (ZmqServer × ServerAction) := do
  let uidText ← frameText msg 4
  match stoul uidText with
  | none => some (s, .drop)
  | some n => do
      let secret ← frameText msg 5
      if s.serverSecret.isEmpty || secret = s.serverSecret then
        some (s.setSession identity (UInt32.ofNat n), .reply (ascii "OK"))
      else some (s, .reply (ascii "ERR_AUTH"))

def readDispatch (s : ZmqServer) (identity : Bytes) (msg : List Bytes) :
    Option (ZmqServer × ServerAction) :=
  if msg.length < 4 then some (s, .drop)
  else do
    let effective ← readEffectiveUid msg
    let frame ← msg[3]?
    if frame.length = 0 then some (s, .drop)
    else do
      let opcode ← frame[0]?
      if opcode = 65 ∧ 5 ≤ msg.length then s.readAuthenticate identity msg
      else do
        let sessionUid := (s.sessionIdentities identity).getD 0
        let s := s.setSession identity sessionUid
        let principal :=
          if sessionUid = adminUid ∨ sessionUid = internalUid then effective else sessionUid
        match ← readRequest opcode msg with
        | none => some (s, .drop)
        | some request => some (s, .call request principal)

/-- One turn of the loop of `run`; `none` if it reads a frame or a byte that is not there. -/
def readTurn (s : ZmqServer) (msg : List Bytes) : Option (ZmqServer × ServerAction) :=
  if msg.length < 3 then some (s, .drop)
  else do
    let identity ← frameText msg 0
    match s.sessionIdentities identity with
    | some _ => s.readDispatch identity msg
    | none => do
        let isAuth ← readIsAuth msg
        if isAuth then s.readDispatch identity msg
        else if s.serverSecret.isEmpty then (s.setSession identity 0).readDispatch identity msg
        else some (s, .reply ((ascii "ERR_UNAUTH").take 8))

end ZmqServer

section

variable {msg : List Bytes} {i : Nat}

private theorem frame_eq (h : i < msg.length) : msg[i]? = some (msg.getD i []) := by
  rw [List.getD_eq_getElem?_getD, List.getElem?_eq_getElem h, Option.getD_some]

private theorem frameText_eq (h : i < msg.length) : frameText msg i = some (msg.getD i []) := by
  have hwhole (frame : Bytes) : bytesAt frame 0 frame.length = some frame := by
    rw [bytesAt_eq (by omega), slice, List.drop_zero, List.take_length]
  rw [frameText, frame_eq h]
  exact hwhole _

private theorem frameText_eq_none (h : msg.length ≤ i) : frameText msg i = none := by
  rw [frameText, List.getElem?_eq_none h]
  rfl

private theorem readsAuthAt_eq (msg : List Bytes) (i : Nat) :
    readsAuthAt msg i = some (decide (msg[i]? = some [65])) := by
  rw [readsAuthAt]
  by_cases h : i + 1 ≤ msg.length
  · rw [if_pos h, frame_eq h]
    cases msg.getD i [] with
    | nil => rfl
    | cons byte rest =>
        cases rest with
        | nil => simp
        | cons => simp
  · rw [if_neg h, List.getElem?_eq_none (by omega)]
    rfl

private theorem readIsAuth_eq (msg : List Bytes) :
    readIsAuth msg = some (ZmqServer.peeksAuth msg) := by
  simp only [readIsAuth, readsAuthAt_eq, ZmqServer.peeksAuth, Option.bind_eq_bind, Option.bind_some]
  cases decide (msg[2]? = some [65]) <;> rfl

private theorem readEffectiveUid_eq (h : 4 ≤ msg.length) :
    readEffectiveUid msg = some (ZmqServer.effectiveUid msg) := by
  rw [readEffectiveUid, ZmqServer.effectiveUid, frame_eq (by omega)]
  simp only [Option.bind_eq_bind, Option.bind_some]
  split
  · rename_i hfour
    rw [wordAt_eq (by omega)]
    rfl
  · rfl

private theorem readKeys_eq (msg : List Bytes) :
    (List.range (msg.length - 4)).mapM (fun i => frameText msg (4 + i)) = some (msg.drop 4) := by
  have hframes := mapM_some (List.range (msg.length - 4)) (f := fun i => frameText msg (4 + i))
    (g := fun i => msg.getD (4 + i) []) fun i hi => by
      have hlt := List.mem_range.mp hi
      exact frameText_eq (by omega)
  rw [hframes]
  congr 1
  apply List.ext_getElem
  · simp
  · intro i hi _
    have hlt : i < msg.length - 4 := by simpa using hi
    simp [List.getElem?_eq_getElem (show 4 + i < msg.length by omega)]

private theorem readRequest_eq (opcode : UInt8) (msg : List Bytes) :
    readRequest opcode msg = some (ZmqServer.requestOf opcode msg) := by
  unfold readRequest ZmqServer.requestOf
  split
  · rw [frameText_eq (by omega)]
    rfl
  split
  · rw [frameText_eq (by omega), frameText_eq (by omega)]
    rfl
  split
  · rw [frameText_eq (by omega)]
    rfl
  split
  · rw [readKeys_eq]
    rfl
  split
  · rw [frameText_eq (by omega)]
    rfl
  · rfl

end

namespace ZmqServer

/-- The turn, unless it reads what is not there. -/
def ifDefined (turn : ZmqServer × ServerAction) : Option (ZmqServer × ServerAction) :=
  if turn.2 = .undefined then none else some turn

variable {msg : List Bytes}

private theorem readAuthenticate_eq (s : ZmqServer) (identity : Bytes) (h : 5 ≤ msg.length) :
    s.readAuthenticate identity msg = ifDefined (s.authenticate identity msg) := by
  rw [readAuthenticate, authenticate, frameText_eq (by omega)]
  simp only [Option.bind_eq_bind, Option.bind_some]
  cases stoul (msg.getD 4 []) with
  | none => rfl
  | some n =>
      by_cases hsecret : 5 < msg.length
      · simp only [frameText_eq hsecret, frame_eq hsecret, Option.bind_some]
        split <;> rfl
      · simp only [frameText_eq_none (Nat.le_of_not_lt hsecret),
          List.getElem?_eq_none (Nat.le_of_not_lt hsecret)]
        rfl

private theorem readDispatch_eq (s : ZmqServer) (identity : Bytes) (msg : List Bytes) :
    s.readDispatch identity msg = ifDefined (s.dispatch identity msg) := by
  rw [readDispatch, dispatch]
  by_cases hfour : msg.length < 4
  · rw [if_pos hfour, if_pos hfour]
    rfl
  · rw [if_neg hfour, if_neg hfour, readEffectiveUid_eq (by omega), frame_eq (by omega)]
    simp only [Option.bind_eq_bind, Option.bind_some]
    cases msg.getD 3 [] with
    | nil => rfl
    | cons opcode rest =>
        simp only [List.length_cons, Nat.succ_ne_zero, if_false, List.getElem?_cons_zero,
          Option.bind_some, readRequest_eq]
        split
        · rename_i hauth
          exact readAuthenticate_eq s identity hauth.2
        · cases requestOf opcode msg <;> rfl

private theorem readTurn_eq (s : ZmqServer) (msg : List Bytes) :
    s.readTurn msg = ifDefined (s.handle msg) := by
  rw [readTurn, handle]
  by_cases hthree : msg.length < 3
  · rw [if_pos hthree, if_pos hthree]
    rfl
  · have hidentity : frameText msg 0 = some (identityOf msg) := by
      rw [frameText_eq (by omega), identityOf, List.headD_eq_head?_getD, List.getD_eq_getElem?_getD,
        List.head?_eq_getElem?]
    rw [if_neg hthree, if_neg hthree, hidentity, readIsAuth_eq]
    simp only [Option.bind_eq_bind, Option.bind_some]
    cases s.sessionIdentities (identityOf msg) with
    | some uid => exact readDispatch_eq s _ msg
    | none =>
        simp only
        split
        · exact readDispatch_eq s _ msg
        split
        · exact readDispatch_eq _ _ msg
        · rfl

private theorem authenticate_undefined_iff (s : ZmqServer) (identity : Bytes) (msg : List Bytes) :
    (s.authenticate identity msg).2 = .undefined ↔
      msg.length ≤ 5 ∧ (stoul (msg.getD 4 [])).isSome = true := by
  rw [authenticate]
  cases stoul (msg.getD 4 []) with
  | none => simp
  | some n =>
      by_cases hsecret : 5 < msg.length
      · simp only [frame_eq hsecret]
        refine iff_of_false ?_ (fun h => by omega)
        split <;> simp
      · simp [Nat.le_of_not_lt hsecret]

private theorem dispatch_undefined_iff (s : ZmqServer) (identity : Bytes) (msg : List Bytes) :
    (s.dispatch identity msg).2 = .undefined ↔ LacksSecret msg := by
  rw [dispatch, LacksSecret]
  by_cases hfour : msg.length < 4
  · rw [if_pos hfour]
    exact iff_of_false (by simp) (fun h => by omega)
  · rw [if_neg hfour]
    cases msg.getD 3 [] with
    | nil => simp
    | cons opcode rest =>
        simp only [List.head?_cons, Option.some_inj]
        split
        · rename_i hauth
          rw [authenticate_undefined_iff]
          constructor
          · rintro ⟨hshort, huid⟩
            exact ⟨by omega, hauth.1, huid⟩
          · rintro ⟨hlength, -, huid⟩
            exact ⟨by omega, huid⟩
        · rename_i hother
          refine iff_of_false ?_ fun h => hother ⟨h.2.1, by omega⟩
          cases requestOf opcode msg <;> simp

private theorem handle_undefined_iff (s : ZmqServer) (msg : List Bytes) :
    (s.handle msg).2 = .undefined ↔ LacksSecret msg ∧ s.Admits msg := by
  rw [handle, Admits]
  by_cases hthree : msg.length < 3
  · rw [if_pos hthree]
    exact iff_of_false (by simp) (fun h => by have := h.1.1; omega)
  · rw [if_neg hthree]
    cases hsession : s.sessionIdentities (identityOf msg) with
    | some uid => simp [dispatch_undefined_iff]
    | none =>
        by_cases hpeek : peeksAuth msg = true
        · simp [hpeek, dispatch_undefined_iff]
        · by_cases hopen : s.serverSecret = []
          · simp [hpeek, hopen, dispatch_undefined_iff]
          · simp [hpeek, hopen]

end ZmqServer

open ZmqServer in
/-- In every state of the sessions, a turn reads only frames and bytes that are there, unless the
message is an `AUTH` that ends with its uid and passes the session check. -/
theorem zmq_turn_in_bounds (s : ZmqServer) (msg : List Bytes) :
    (s.readTurn msg).isSome ↔ ¬ (LacksSecret msg ∧ s.Admits msg) := by
  rw [readTurn_eq, ifDefined, ← handle_undefined_iff]
  by_cases hundefined : (s.handle msg).2 = .undefined
  · simp [hundefined]
  · simp [hundefined]

open ZmqServer in
/-- An `AUTH` of five frames passes the check, and the frame for the secret is read. -/
theorem zmq_auth_out_of_bounds :
    ((init (ascii "s")).readTurn [ascii "c", [], [0, 0, 0, 0], ascii "A", ascii "7"]).isSome =
      false := by
  decide

end L3KV
