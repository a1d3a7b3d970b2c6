import Mathlib.Data.List.Induction
import Mathlib.Logic.Function.Basic
import L3KV.Framework.Numerals
import L3KV.Store.Credentials

/-!
# The ZeroMQ front end

One message of the router socket is a list of frames, the first of them the identity of the
sender. An identity that has no session must authenticate first; the check for that looks at two
frames and falls through to the dispatch of the operations.
-/

namespace L3KV

open Framework

/-- The engine operation a message asks for. -/
inductive Request where
  | get (key : Bytes)
  | put (key value : Bytes)
  | del (key : Bytes)
  | batchGet (keys : List Bytes)
  | batchPut (batch : Bytes)
  deriving DecidableEq

/-- What one turn of the loop does besides changing the sessions. -/
inductive ServerAction where
  | drop
  | reply (text : Bytes)
  | call (request : Request) (principal : UInt32)
  /-- A frame that the message does not have is read. -/
  | undefined
  deriving DecidableEq

structure ZmqServer where
  serverSecret : Bytes
  sessionIdentities : Bytes → Option UInt32

namespace ZmqServer

def init (secret : Bytes) : ZmqServer := ⟨secret, fun _ => none⟩

def setSession (s : ZmqServer) (identity : Bytes) (uid : UInt32) : ZmqServer :=
  { s with sessionIdentities := Function.update s.sessionIdentities identity (some uid) }

/-- The first frame. -/
def identityOf (msg : List Bytes) : Bytes := msg.headD []

/-- `is_auth`: frame 2 or frame 3 is the one byte `A`. -/
def peeksAuth (msg : List Bytes) : Bool := msg[2]? = some [65] || msg[3]? = some [65]

def effectiveUid (msg : List Bytes) : UInt32 :=
  let f := msg.getD 2 []
  if f.length = 4 then UInt32.ofNat (readWord 4 f 0) else 0

/-- The branch of `AUTH`; an exception of `stoul` ends the turn. -/
def authenticate (s : ZmqServer) (identity : Bytes) (msg : List Bytes) : ZmqServer × ServerAction :=
  match stoul (msg.getD 4 []) with
  | none => (s, .drop)
  | some n =>
      match msg[5]? with
      | none => (s, .undefined)
      | some secret =>
          if s.serverSecret.isEmpty || secret = s.serverSecret then
            (s.setSession identity (UInt32.ofNat n), .reply (ascii "OK"))
          else (s, .reply (ascii "ERR_AUTH"))

/-- The opcode branches with their frame counts. -/
def requestOf (opcode : UInt8) (msg : List Bytes) : Option Request :=
  if opcode = 71 ∧ 5 ≤ msg.length then some (.get (msg.getD 4 []))
  else if opcode = 80 ∧ 6 ≤ msg.length then some (.put (msg.getD 4 []) (msg.getD 5 []))
  else if opcode = 68 ∧ 5 ≤ msg.length then some (.del (msg.getD 4 []))
  else if opcode = 77 ∧ 5 ≤ msg.length then some (.batchGet (msg.drop 4))
  else if opcode = 66 ∧ 5 ≤ msg.length then some (.batchPut (msg.getD 4 []))
  else none

/-- The principal of a session: trusted peers speak for the uid in the message. -/
def principalOf (sessionUid : UInt32) (msg : List Bytes) : UInt32 :=
  if sessionUid = adminUid ∨ sessionUid = internalUid then effectiveUid msg else sessionUid

/-- The turn behind the session check. -/
def dispatch (s : ZmqServer) (identity : Bytes) (msg : List Bytes) : ZmqServer × ServerAction :=
  if msg.length < 4 then (s, .drop)
  else
    match msg.getD 3 [] with
    | [] => (s, .drop)
    | opcode :: _ =>
        if opcode = 65 ∧ 5 ≤ msg.length then s.authenticate identity msg
        else
          -- `session_identities_[identity_str]` inserts uid 0 for an unknown identity.
          let sessionUid := (s.sessionIdentities identity).getD 0
          let s := s.setSession identity sessionUid
          match requestOf opcode msg with
          | none => (s, .drop)
          | some request => (s, .call request (principalOf sessionUid msg))

/-- One turn of the loop of `run`. The text of the refusal is cut at eight bytes. -/
def handle (s : ZmqServer) (msg : List Bytes) : ZmqServer × ServerAction :=
  if msg.length < 3 then (s, .drop)
  else
    match s.sessionIdentities (identityOf msg) with
    | some _ => s.dispatch (identityOf msg) msg
    | none =>
        if peeksAuth msg then s.dispatch (identityOf msg) msg
        else if s.serverSecret.isEmpty then
          (s.setSession (identityOf msg) 0).dispatch (identityOf msg) msg
        else (s, .reply ((ascii "ERR_UNAUTH").take 8))

def after (s : ZmqServer) (msgs : List (List Bytes)) : ZmqServer :=
  msgs.foldl (fun s msg => (s.handle msg).1) s

end ZmqServer

/-- The uid under which a message authenticates this identity with this secret. -/
def authUid (secret identity : Bytes) (msg : List Bytes) : Option UInt32 :=
  if ZmqServer.identityOf msg = identity ∧ (msg.getD 3 []).head? = some 65 ∧ msg[5]? = some secret then
    (stoul (msg.getD 4 [])).map UInt32.ofNat
  else none

/-- The uid of the last message of the sequence that does. -/
def lastAuth (secret identity : Bytes) (msgs : List (List Bytes)) : Option UInt32 :=
  msgs.foldl (fun uid msg => (authUid secret identity msg).or uid) none

namespace ZmqServer

/-- The message gets an unknown identity past the session check without being an `AUTH`. -/
def Bypasses (s : ZmqServer) (msg : List Bytes) : Prop :=
  s.sessionIdentities (identityOf msg) = none ∧ peeksAuth msg = true ∧ 4 ≤ msg.length ∧
    msg.getD 3 [] ≠ [] ∧ ¬ ((msg.getD 3 []).head? = some 65 ∧ 5 ≤ msg.length)

/-- An `AUTH` with a uid and no frame for the secret. -/
def LacksSecret (msg : List Bytes) : Prop :=
  msg.length = 5 ∧ (msg.getD 3 []).head? = some 65 ∧ (stoul (msg.getD 4 [])).isSome = true

/-- The session check lets the message through. -/
def Admits (s : ZmqServer) (msg : List Bytes) : Prop :=
  s.sessionIdentities (identityOf msg) ≠ none ∨ peeksAuth msg = true ∨ s.serverSecret = []

/-- Neither of the two ways past the check. -/
def Gated (s : ZmqServer) (msg : List Bytes) : Prop :=
  ¬ s.Bypasses msg ∧ ¬ (LacksSecret msg ∧ s.Admits msg)

instance (s : ZmqServer) (msg : List Bytes) : Decidable (s.Gated msg) :=
  inferInstanceAs (Decidable (¬ (_ ∧ _ ∧ _ ∧ _ ∧ _) ∧ ¬ ((_ ∧ _ ∧ _) ∧ (_ ∨ _ ∨ _))))

theorem setSession_sessions (s : ZmqServer) (identity other : Bytes) (uid : UInt32) :
    (s.setSession identity uid).sessionIdentities other =
      if other = identity then some uid else s.sessionIdentities other := by
  unfold setSession
  by_cases h : other = identity
  · subst h
    simp
  · simp [h]

private theorem setSession_self (s : ZmqServer) (identity : Bytes) (uid : UInt32)
    (h : s.sessionIdentities identity = some uid) : s.setSession identity uid = s := by
  unfold setSession
  rw [← h, Function.update_eq_self]

/-- What one message may change and call once neither way past the check is taken. -/
structure StepSpec (s : ZmqServer) (msg : List Bytes) (r : ZmqServer × ServerAction) : Prop where
  secret : r.1.serverSecret = s.serverSecret
  sessions : ∀ identity,
    r.1.sessionIdentities identity =
        (authUid s.serverSecret identity msg).or (s.sessionIdentities identity) ∨
      r.1.sessionIdentities identity = none
  defined : r.2 ≠ .undefined
  call : ∀ request principal, r.2 = .call request principal →
    ∃ uid, s.sessionIdentities (identityOf msg) = some uid ∧ principal = principalOf uid msg

private theorem StepSpec.idle {s : ZmqServer} {msg : List Bytes} {action : ServerAction}
    (hauth : ∀ identity, authUid s.serverSecret identity msg = none)
    (hdefined : action ≠ .undefined) (hcall : ∀ request p, action ≠ .call request p) :
    StepSpec s msg (s, action) where
  secret := rfl
  sessions identity := by
    left
    rw [hauth identity, Option.none_or]
  defined := hdefined
  call request principal h := absurd h (hcall request principal)

private theorem authUid_eq_none {secret : Bytes} {msg : List Bytes}
    (h : (msg.getD 3 []).head? ≠ some 65 ∨ msg[5]? ≠ some secret ∨ stoul (msg.getD 4 []) = none)
    (identity : Bytes) : authUid secret identity msg = none := by
  unfold authUid
  split
  next hauth =>
    obtain h | h | h := h
    · exact absurd hauth.2.1 h
    · exact absurd hauth.2.2 h
    · rw [h, Option.map_none]
  next => rfl

private theorem authenticate_spec {s : ZmqServer} {msg : List Bytes}
    (hs : s.serverSecret.isEmpty = false)
    (hop : (msg.getD 3 []).head? = some 65) (hlen : 5 ≤ msg.length) (hfull : ¬ LacksSecret msg) :
    StepSpec s msg (s.authenticate (identityOf msg) msg) := by
  unfold authenticate
  cases huid : stoul (msg.getD 4 []) with
  | none =>
      apply StepSpec.idle
      · exact authUid_eq_none (.inr (.inr huid))
      · simp
      · simp
  | some n =>
      cases hsecret : msg[5]? with
      | none =>
          have hlen5 : msg.length = 5 := by
            have := List.getElem?_eq_none_iff.mp hsecret
            omega
          exact absurd ⟨hlen5, hop, by rw [huid]; rfl⟩ hfull
      | some given =>
          simp only [hs, Bool.false_or, decide_eq_true_eq]
          by_cases hgiven : given = s.serverSecret
          · rw [if_pos hgiven]
            subst hgiven
            refine ⟨rfl, fun identity => .inl ?_, by simp, by simp⟩
            rw [setSession_sessions, authUid, huid, hsecret]
            by_cases hid : identity = identityOf msg
            · rw [if_pos hid, if_pos ⟨hid.symm, hop, rfl⟩]
              rfl
            · rw [if_neg hid, if_neg (fun h => hid h.1.symm), Option.none_or]
          · rw [if_neg hgiven]
            apply StepSpec.idle
            · exact authUid_eq_none (.inr (.inl (by rw [hsecret]; simpa using hgiven)))
            · simp
            · simp

private theorem dispatch_spec {s : ZmqServer} {msg : List Bytes}
    (hs : s.serverSecret.isEmpty = false)
    (hgated : s.Gated msg)
    (hpassed : (∃ uid, s.sessionIdentities (identityOf msg) = some uid) ∨ peeksAuth msg = true) :
    StepSpec s msg (s.dispatch (identityOf msg) msg) := by
  unfold dispatch
  by_cases hlen : msg.length < 4
  · rw [if_pos hlen]
    apply StepSpec.idle
    · exact authUid_eq_none (.inr (.inl (by simp [List.getElem?_eq_none (show msg.length ≤ 5 by omega)])))
    · simp
    · simp
  rw [if_neg hlen]
  cases hop : msg.getD 3 [] with
  | nil =>
      apply StepSpec.idle
      · exact authUid_eq_none (.inl (by rw [hop]; simp))
      · simp
      · simp
  | cons opcode rest =>
      simp only
      by_cases hauth : opcode = 65 ∧ 5 ≤ msg.length
      · rw [if_pos hauth]
        have hadmits : s.Admits msg := by
          rcases hpassed with ⟨uid, huid⟩ | hpeek
          · exact Or.inl (by simp [huid])
          · exact Or.inr (Or.inl hpeek)
        exact authenticate_spec hs (by rw [hop, hauth.1]; rfl) hauth.2 fun h => hgated.2 ⟨h, hadmits⟩
      rw [if_neg hauth]
      -- Not an `AUTH`: only a sender that has a session gets here.
      have hsession : ∃ uid, s.sessionIdentities (identityOf msg) = some uid := by
        rw [← Option.ne_none_iff_exists']
        intro hnone
        obtain ⟨uid, huid⟩ | hpeek := hpassed
        · simp [hnone] at huid
        · exact hgated.1 ⟨hnone, hpeek, by omega, by rw [hop]; simp, by rw [hop]; simpa using hauth⟩
      obtain ⟨uid, huid⟩ := hsession
      have hnoAuth : ∀ identity, authUid s.serverSecret identity msg = none := by
        apply authUid_eq_none
        by_cases h65 : opcode = 65
        · have : msg.length ≤ 5 := Nat.le_of_lt (Nat.lt_of_not_ge fun h => hauth ⟨h65, h⟩)
          simp [List.getElem?_eq_none this]
        · left
          rw [hop]
          simpa using h65
      rw [huid, Option.getD_some, setSession_self s _ uid huid]
      cases requestOf opcode msg with
      | none => exact StepSpec.idle hnoAuth (by simp) (by simp)
      | some request =>
          refine ⟨rfl, fun identity => .inl ?_, by simp, ?_⟩
          · rw [hnoAuth identity, Option.none_or]
          · intro request' principal h
            simp only [ServerAction.call.injEq] at h
            exact ⟨uid, huid, h.2.symm⟩

theorem handle_spec {s : ZmqServer} {msg : List Bytes} (hs : s.serverSecret.isEmpty = false)
    (hgated : s.Gated msg) : StepSpec s msg (s.handle msg) := by
  unfold handle
  by_cases hlen : msg.length < 3
  · rw [if_pos hlen]
    apply StepSpec.idle
    · exact authUid_eq_none (.inr (.inl (by simp [List.getElem?_eq_none (show msg.length ≤ 5 by omega)])))
    · simp
    · simp
  rw [if_neg hlen]
  cases hsession : s.sessionIdentities (identityOf msg) with
  | some uid => exact dispatch_spec hs hgated (.inl ⟨uid, hsession⟩)
  | none =>
      simp only [hs]
      by_cases hpeek : peeksAuth msg = true
      · rw [if_pos hpeek]
        exact dispatch_spec hs hgated (.inr hpeek)
      · rw [if_neg hpeek, if_neg Bool.false_ne_true]
        refine ⟨rfl, fun identity => ?_, by simp, by simp⟩
        by_cases hid : identityOf msg = identity
        · -- Whatever it carries, the refused message leaves its sender without a session.
          right
          exact hid ▸ hsession
        · left
          rw [authUid, if_neg (fun h => hid h.1), Option.none_or]

private theorem after_sessions {secret : Bytes} (hsecret : secret.isEmpty = false)
    (msgs : List (List Bytes))
    (hgated : ∀ before msg rest, msgs = before ++ msg :: rest → ((init secret).after before).Gated msg) :
    ((init secret).after msgs).serverSecret = secret ∧
      ∀ identity uid, ((init secret).after msgs).sessionIdentities identity = some uid →
        lastAuth secret identity msgs = some uid := by
  induction msgs using List.reverseRec with
  | nil => exact ⟨rfl, fun identity uid h => by simp [after, init] at h⟩
  | append_singleton msgs msg ih =>
      obtain ⟨hsame, hsessions⟩ := ih fun before msg' rest h =>
        hgated before msg' (rest ++ [msg]) (by simp [h])
      have hstep := handle_spec (by rw [hsame]; exact hsecret) (hgated msgs msg [] rfl)
      have hafter : (init secret).after (msgs ++ [msg]) = (((init secret).after msgs).handle msg).1 := by
        simp [after]
      rw [hafter]
      refine ⟨hstep.secret.trans hsame, fun identity uid huid => ?_⟩
      have hlast : lastAuth secret identity (msgs ++ [msg]) =
          (authUid secret identity msg).or (lastAuth secret identity msgs) := by
        simp [lastAuth]
      rw [hlast]
      obtain h | h := hstep.sessions identity
      · rw [h, hsame] at huid
        cases hauth : authUid secret identity msg with
        | some u => simpa [hauth] using huid
        | none =>
            rw [hauth, Option.none_or] at huid
            rw [Option.none_or]
            exact hsessions identity uid huid
      · simp [h] at huid

end ZmqServer

open ZmqServer in
/-- While no message takes one of the two ways past the check, the engine is called only for an
identity that has authenticated, under the uid it authenticated with. -/
theorem zmq_calls_authenticated (secret : Bytes) (hsecret : secret ≠ []) (msgs : List (List Bytes))
    (hgated : ∀ before msg rest, msgs = before ++ msg :: rest → ((init secret).after before).Gated msg)
    (before : List (List Bytes)) (msg : List Bytes) (rest : List (List Bytes))
    (hsplit : msgs = before ++ msg :: rest) :
    (((init secret).after before).handle msg).2 ≠ .undefined ∧
      ∀ request principal,
        (((init secret).after before).handle msg).2 = .call request principal →
          ∃ uid, lastAuth secret (identityOf msg) before = some uid ∧
            principal = if uid = adminUid ∨ uid = internalUid then effectiveUid msg else uid := by
  have hnonempty : secret.isEmpty = false := by simpa using hsecret
  obtain ⟨hsame, hsessions⟩ := after_sessions hnonempty before fun before' msg' rest' h =>
    hgated before' msg' (rest' ++ msg :: rest) (by simp [hsplit, h])
  have hstep := handle_spec (by rw [hsame]; exact hnonempty) (hgated before msg rest hsplit)
  refine ⟨hstep.defined, fun request principal h => ?_⟩
  obtain ⟨uid, huid, hprincipal⟩ := hstep.call request principal h
  exact ⟨uid, hsessions _ uid huid, hprincipal⟩

private def authMessage (identity uid secret : String) : List Bytes :=
  [ascii identity, [], [0, 0, 0, 0], ascii "A", ascii uid, ascii secret]

private def getMessage (identity key : String) : List Bytes :=
  [ascii identity, [], [9, 0, 0, 0], ascii "G", ascii key]

open ZmqServer in
theorem zmq_calls_authenticated_auth_get :
    (((init (ascii "s")).after [authMessage "c" "7" "s"]).handle (getMessage "c" "k")).2 =
        .call (.get (ascii "k")) 7 ∧
      ∃ uid, lastAuth (ascii "s") (ascii "c") [authMessage "c" "7" "s"] = some uid ∧
        7 = if uid = adminUid ∨ uid = internalUid then 9 else uid := by
  have hrun : (((init (ascii "s")).after [authMessage "c" "7" "s"]).handle (getMessage "c" "k")).2 =
      .call (.get (ascii "k")) 7 := by decide
  refine ⟨hrun, (zmq_calls_authenticated (ascii "s") (by decide)
    [authMessage "c" "7" "s", getMessage "c" "k"] ?_ [authMessage "c" "7" "s"] (getMessage "c" "k") []
    rfl).2 _ _ hrun⟩
  intro before msg rest hsplit
  match before with
  | [] =>
      obtain ⟨rfl, -⟩ : msg = authMessage "c" "7" "s" ∧ _ := by simpa [eq_comm] using hsplit
      decide
  | [first] =>
      obtain ⟨rfl, rfl, -⟩ : first = authMessage "c" "7" "s" ∧ msg = getMessage "c" "k" ∧ _ := by
        simpa [eq_comm] using hsplit
      decide
  | _ :: _ :: _ => simp at hsplit

open ZmqServer in
/-- With the letter `A` in the place of the effective uid, a first message is served as uid 0. -/
theorem zmq_get_without_auth :
    ((init (ascii "s")).handle [ascii "c", [], ascii "A", ascii "G", ascii "k"]).2 =
        .call (.get (ascii "k")) adminUid ∧
      ∀ uid, lastAuth (ascii "s") (ascii "c") [] ≠ some uid := by
  refine ⟨by decide, fun uid => ?_⟩
  simp [lastAuth]

end L3KV
