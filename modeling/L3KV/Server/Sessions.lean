import L3KV.Server.Zmq

/-!
# A turn and the session of its sender

What a turn does depends on the secret of the server, the message and the session of its sender, and
no other session changes.
-/

namespace L3KV

open Framework

namespace ZmqServer

/-- For this identity the two servers are the same. -/
def SameFor (identity : Bytes) (s s' : ZmqServer) : Prop :=
  s'.serverSecret = s.serverSecret ∧
    s'.sessionIdentities identity = s.sessionIdentities identity

/-- The two turns do the same, and leave the servers the same for the identity. -/
def SameTurn (identity : Bytes) (r r' : ZmqServer × ServerAction) : Prop :=
  r'.2 = r.2 ∧ SameFor identity r.1 r'.1

section

variable {s s' : ZmqServer} {identity : Bytes} {msg : List Bytes}

theorem SameFor.setSession (h : SameFor identity s s') (uid : UInt32) :
    SameFor identity (s.setSession identity uid) (s'.setSession identity uid) := by
  refine ⟨h.1, ?_⟩
  rw [setSession_sessions, setSession_sessions, if_pos rfl, if_pos rfl]

theorem SameFor.authenticate (h : SameFor identity s s') :
    SameTurn identity (s.authenticate identity msg) (s'.authenticate identity msg) := by
  unfold ZmqServer.authenticate
  rw [h.1]
  cases stoul (msg.getD 4 []) with
  | none => exact ⟨rfl, h⟩
  | some n =>
      cases msg[5]? with
      | none => exact ⟨rfl, h⟩
      | some given =>
          dsimp only
          split
          · exact ⟨rfl, h.setSession _⟩
          · exact ⟨rfl, h⟩

theorem SameFor.dispatch (h : SameFor identity s s') :
    SameTurn identity (s.dispatch identity msg) (s'.dispatch identity msg) := by
  unfold ZmqServer.dispatch
  split
  · exact ⟨rfl, h⟩
  · split
    · exact ⟨rfl, h⟩
    · split
      · exact h.authenticate
      · dsimp only
        rw [h.2]
        split
        · exact ⟨rfl, h.setSession _⟩
        · exact ⟨rfl, h.setSession _⟩

/-- A turn depends on the session of its sender only. -/
theorem SameFor.handle (h : SameFor (identityOf msg) s s') :
    SameTurn (identityOf msg) (s.handle msg) (s'.handle msg) := by
  unfold ZmqServer.handle
  rw [h.1, h.2]
  split
  · exact ⟨rfl, h⟩
  · split
    · exact h.dispatch
    · split
      · exact h.dispatch
      · split
        · exact (h.setSession 0).dispatch
        · exact ⟨rfl, h⟩

/-- Only the session of its sender may change in a turn. -/
def Leaves (identity : Bytes) (s : ZmqServer) (r : ZmqServer × ServerAction) : Prop :=
  r.1.serverSecret = s.serverSecret ∧
    ∀ other, other ≠ identity → r.1.sessionIdentities other = s.sessionIdentities other

private theorem leaves_setSession (uid : UInt32) {r : ZmqServer × ServerAction}
    (h : Leaves identity (s.setSession identity uid) r) : Leaves identity s r := by
  refine ⟨h.1, fun other hother => ?_⟩
  rw [h.2 other hother, setSession_sessions, if_neg hother]

private theorem authenticate_leaves : Leaves identity s (s.authenticate identity msg) := by
  have hsame (action : ServerAction) : Leaves identity s (s, action) := ⟨rfl, fun _ _ => rfl⟩
  unfold authenticate
  split
  · exact hsame _
  · split
    · exact hsame _
    · split
      · exact leaves_setSession _ ⟨rfl, fun _ _ => rfl⟩
      · exact hsame _

private theorem dispatch_leaves : Leaves identity s (s.dispatch identity msg) := by
  have hsame (action : ServerAction) : Leaves identity s (s, action) := ⟨rfl, fun _ _ => rfl⟩
  unfold dispatch
  split
  · exact hsame _
  · split
    · exact hsame _
    · split
      · exact authenticate_leaves
      · dsimp only
        split
        · exact leaves_setSession _ ⟨rfl, fun _ _ => rfl⟩
        · exact leaves_setSession _ ⟨rfl, fun _ _ => rfl⟩

theorem handle_leaves : Leaves (identityOf msg) s (s.handle msg) := by
  unfold handle
  split
  · exact ⟨rfl, fun _ _ => rfl⟩
  · split
    · exact dispatch_leaves
    · split
      · exact dispatch_leaves
      · split
        · exact leaves_setSession _ dispatch_leaves
        · exact ⟨rfl, fun _ _ => rfl⟩

end

end ZmqServer

end L3KV
