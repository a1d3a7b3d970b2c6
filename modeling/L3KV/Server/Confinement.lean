import L3KV.Engine.Authorisation
import L3KV.Engine.Unseen
import L3KV.Server.Service

/-!
# What the users of a server cannot reach

The access rules are themselves values of the store: a put of a key that names a rule changes it.
Whether a user is kept away from a key for good therefore depends on the rules of today, on the keys
that would change them, and on the sidecars that come with every write.
-/

namespace L3KV

open Framework

/-- None of the users may write a kept key, or a key whose sidecar is kept, and the keys that tell
the access rules something are among the kept ones. -/
structure Confines (c : CredentialManager) (users : UInt32 → Prop) (kept : Bytes → Prop) : Prop where
  ordinary : ∀ uid, users uid → Ordinary uid
  rules : ∀ key, TellsAccess key → kept key
  writes : ∀ uid key, users uid → (c.checkPermission uid key).canWrite = true →
    ¬ kept key ∧ ¬ kept (metaKey key)

/-- The two ways past the session check are not taken. -/
def ServiceEvent.Gated (s : Service) : ServiceEvent → Prop
  | .receive msg _ => s.server.Gated msg
  | _ => True

instance (s : Service) : (event : ServiceEvent) → Decidable (event.Gated s)
  | .receive msg _ => inferInstanceAs (Decidable (s.server.Gated msg))
  | .read => isTrue trivial
  | .append => isTrue trivial
  | .work => isTrue trivial
  | .shard _ => isTrue trivial
  | .answer => isTrue trivial

/-- What a message with the secret of the server authenticates as is one of the users. -/
def ServiceEvent.AuthenticatesIn (users : UInt32 → Prop) (secret : Bytes) : ServiceEvent → Prop
  | .receive msg _ => ∀ identity uid, authUid secret identity msg = some uid → users uid
  | _ => True

/-- The state of a server whose users are confined: as long as every session is one of theirs and
nothing that waits is on a kept key, the kept keys and the rules are those of the engine. -/
structure Service.Confined (x : External) (secret : Bytes) (e : Engine) (users : UInt32 → Prop)
    (kept : Bytes → Prop) (s : Service) : Prop where
  secret : s.server.serverSecret = secret
  sessions : ∀ identity uid, s.server.sessionIdentities identity = some uid → users uid
  waits : ∀ o, s.machine.Awaits o → ¬ kept o.key
  rules : s.machine.store.credentials = e.store.credentials
  values : ∀ key, kept key → s.machine.store.find x key = e.store.find x key

section

variable {x : External} {u : Nat → Nat → UInt8} {secret : Bytes} {e : Engine}
  {users : UInt32 → Prop} {kept : Bytes → Prop} {s s' : Service}

namespace Service.Confined

theorem principal (h : s.Confined x secret e users kept) (hsecret : secret ≠ [])
    (hordinary : ∀ uid, users uid → Ordinary uid) {msg : List Bytes} (hgated : s.server.Gated msg)
    {request : Request} {principal : UInt32}
    (hcall : (s.server.handle msg).2 = .call request principal) : users principal := by
  have hspec := ZmqServer.handle_spec (by simpa [h.secret] using hsecret) hgated
  obtain ⟨uid, huid, rfl⟩ := hspec.call request principal hcall
  have huser := h.sessions _ uid huid
  obtain ⟨hinternal, hadmin⟩ := hordinary uid huser
  rw [ZmqServer.principalOf, if_neg (by simp [hinternal, hadmin])]
  exact huser

private theorem receives (h : s.Confined x secret e users kept) (hsecret : secret ≠ [])
    {msg : List Bytes}
    (hgated : s.server.Gated msg)
    (hauth : ∀ identity uid, authUid secret identity msg = some uid → users uid) :
    (s.server.handle msg).1.serverSecret = secret ∧
      ∀ identity uid, (s.server.handle msg).1.sessionIdentities identity = some uid → users uid := by
  have hspec := ZmqServer.handle_spec (by simpa [h.secret] using hsecret) hgated
  refine ⟨hspec.secret.trans h.secret, fun identity uid huid => ?_⟩
  rcases hspec.sessions identity with hsession | hnone
  · rw [hsession, h.secret] at huid
    cases hnew : authUid secret identity msg with
    | some uid' =>
        rw [hnew, Option.some_or] at huid
        cases huid
        exact hauth identity uid hnew
    | none =>
        rw [hnew, Option.none_or] at huid
        exact h.sessions identity uid huid
  · rw [hnone] at huid
    cases huid

theorem engine (h : s.Confined x secret e users kept) (hrules : ∀ key, TellsAccess key → kept key)
    {event : Event} {m : Machine} (hstep : s.machine.step x u event = some m)
    (hbegun : ∀ t call, event ≠ .start t call) (hrestart : event ≠ .restart) :
    (∀ o, m.Awaits o → ¬ kept o.key) ∧ m.store.credentials = e.store.credentials ∧
      ∀ key, kept key → m.store.find x key = e.store.find x key := by
  have hsound := Machine.step_sound hstep
  refine ⟨fun o ho => ?_, ?_⟩
  · rcases hsound.awaits hrestart ho with hold | ⟨t, call, _, _, rfl, -⟩
    · exact h.waits o hold
    · exact absurd rfl (hbegun t call)
  · rcases hsound.performs hrestart with ⟨-, hsame⟩ | ⟨o, hperforms, happly⟩
    · rw [hsame]
      exact ⟨h.rules, h.values⟩
    · have hkept := h.waits o (Machine.awaits_of_performs hperforms)
      refine ⟨?_, fun key hkey => ?_⟩
      · rw [Store.apply_credentials happly fun htells => hkept (hrules _ htells), h.rules]
      · rw [Store.apply_find_ne happly fun heq => hkept (heq ▸ hkey), h.values key hkey]

theorem start (h : s.Confined x secret e users kept)
    (hconf : Confines e.store.credentials users kept)
    {request : Request} {principal : UInt32} (huser : users principal)
    {readings : List (List Int64)} {call : Call} {m : Machine}
    (hcalled : request.call? principal readings = some call)
    (hstep : s.machine.step x u (.start loopThread call) = some m) :
    (∀ o, m.Awaits o → ¬ kept o.key) ∧ m.store.credentials = e.store.credentials ∧
      ∀ key, kept key → m.store.find x key = e.store.find x key := by
  have hsound := Machine.step_sound hstep
  refine ⟨fun o ho => ?_, ?_⟩
  · rcases hsound.awaits (by simp) ho with hold | ⟨_, _, _, plan, heq, hprep, hnew⟩
    · exact h.waits o hold
    · cases heq
      obtain ⟨key, -, hcan, hkey⟩ := Request.planned_keys hcalled hprep hnew
      rw [show s.machine.engine.store.credentials = e.store.credentials from h.rules] at hcan
      obtain ⟨hvalue, hsidecar⟩ := hconf.writes principal key huser hcan
      rcases hkey with hkey | hkey
      · rwa [hkey]
      · rwa [hkey]
  · rcases hsound.performs (by simp) with ⟨-, hsame⟩ | ⟨o, hperforms, -⟩
    · rw [hsame]
      exact ⟨h.rules, h.values⟩
    · cases hperforms

theorem step (h : s.Confined x secret e users kept) (hsecret : secret ≠ [])
    (hconf : Confines e.store.credentials users kept) {event : ServiceEvent}
    (hgated : event.Gated s) (hauth : event.AuthenticatesIn users secret)
    (hstep : s.step x u event = some s') : s'.Confined x secret e users kept := by
  have hserver : s'.server.serverSecret = secret ∧
      ∀ identity uid, s'.server.sessionIdentities identity = some uid → users uid := by
    rcases Service.step_server hstep with hsame | ⟨msg, readings, rfl, hnext, -⟩
    · rw [hsame]
      exact ⟨h.secret, h.sessions⟩
    · rw [hnext]
      exact h.receives hsecret hgated hauth
  have hmachine : (∀ o, s'.machine.Awaits o → ¬ kept o.key) ∧
      s'.machine.store.credentials = e.store.credentials ∧
        ∀ key, kept key → s'.machine.store.find x key = e.store.find x key := by
    have hdrives := Service.step_drives hstep
    revert hdrives
    generalize s'.machine = m
    intro hdrives
    cases hdrives with
    | none => exact ⟨h.waits, h.rules, h.values⟩
    | engine hengine hbegun hrestart => exact h.engine hconf.rules hengine hbegun hrestart
    | start hhandled hcalled hstart =>
        exact h.start hconf (h.principal hsecret hconf.ordinary hgated hhandled) hcalled hstart
  exact ⟨hserver.1, hserver.2, hmachine.1, hmachine.2.1, hmachine.2.2⟩

end Service.Confined

end

open Service in
/-- A server with a secret is started on an engine on which nothing is queued, and no message takes
one of the two ways past the session check. If all that authenticate are users who may write neither
a kept key nor a key whose sidecar is kept, and the keys that name access rules are kept, then the
rules and every kept value stay as they were, whatever the users send and however the shards are
scheduled. -/
theorem kept_keys_stay (x : External) (u : Nat → Nat → UInt8) (secret : Bytes)
    (hsecret : secret ≠ [])
    (e : Engine) (hqueues : ∀ shard, e.queues shard = []) (users : UInt32 → Prop)
    (kept : Bytes → Prop) (hconf : Confines e.store.credentials users kept)
    (events : List ServiceEvent)
    (hgated : EveryStep (step x u) (init secret e) events fun s event => event.Gated s)
    (hauth : ∀ event ∈ events, event.AuthenticatesIn users secret) (s : Service)
    (hrun : (init secret e).run x u events = some s) :
    s.machine.store.credentials = e.store.credentials ∧
      ∀ key, kept key → s.machine.store.find x key = e.store.find x key := by
  have hinit : (init secret e).Confined x secret e users kept := by
    refine ⟨rfl, fun identity uid h => ?_, fun o ho => ?_, rfl, fun key _ => rfl⟩
    · simp [init, ZmqServer.init] at h
    · exact absurd ho (Machine.ofEngine_not_awaits hqueues)
  have hevery : EveryStep (step x u) (init secret e) events fun s event =>
      event.Gated s ∧ event.AuthenticatesIn users secret := by
    intro before event after hsplit s hbefore
    exact ⟨hgated before event after hsplit s hbefore, hauth event (by simp [hsplit])⟩
  have hend : s.Confined x secret e users kept := by
    refine run_invariant (fun _ s => s.Confined x secret e users kept) hinit ?_ hevery hrun
    rintro _ s event s' h ⟨hgate, hin⟩ hstep
    exact h.step hsecret hconf hgate hin hstep
  exact ⟨hend.rules, hend.values⟩

section

private theorem isPrefixOf_head {pre key : Bytes} {b : UInt8} {rest : Bytes}
    (hpre : pre = b :: rest)
    (h : pre.isPrefixOf key = true) : key.head? = some b := by
  obtain ⟨tail, rfl⟩ := List.isPrefixOf_iff_prefix.mp h
  rw [hpre]
  rfl

private theorem tellsAccess_head {key : Bytes} (h : TellsAccess key) : key.head? = some 115 := by
  rcases h with h | h
  · unfold aclTarget at h
    split at h
    · exact absurd rfl h
    · split at h
      · rename_i hacl
        exact isPrefixOf_head (by decide : ascii "sys:acl:" = 115 :: ascii "ys:acl:") hacl
      · exact absurd rfl h
  · unfold userTarget at h
    split at h
    · rename_i huser
      exact isPrefixOf_head (by decide : ascii "sys:u:" = 115 :: ascii "ys:u:") huser
    · exact absurd rfl h

private theorem metaKey_head {key : Bytes} (h : key.head? = some 97) :
    (metaKey key).head? = none ∨ (metaKey key).head? = some 97 ∨ (metaKey key).head? = some 58 := by
  obtain ⟨rest, rfl⟩ : ∃ rest, key = 97 :: rest := by
    cases key with
    | nil => cases h
    | cons b rest =>
        cases h
        exact ⟨rest, rfl⟩
  have htext : (97 :: rest : Bytes).takeWhile (· ≠ 0) = 97 :: rest.takeWhile (· ≠ 0) := by simp
  have hcolon : ascii ":meta" = 58 :: ascii "meta" := by decide
  have hcut {name : Bytes} (hname : name.head? = some 97 ∨ name.head? = some 58) :
      (if 1024 ≤ name.length then [] else name).head? = none ∨
        (if 1024 ≤ name.length then [] else name).head? = some 97 ∨
          (if 1024 ≤ name.length then [] else name).head? = some 58 := by
    split
    · exact Or.inl rfl
    · exact Or.inr hname
  apply hcut
  rw [htext, hcolon]
  split
  · cases (97 :: rest : Bytes).length % 2 ^ 32 with
    | zero => exact Or.inr rfl
    | succ n => exact Or.inl rfl
  · exact Or.inl rfl

def ruledX : External := External.reference fun _ => 0

/-- User 7 may write what starts with the letter `a`. -/
def ruledEngine : Engine :=
  let e := Engine.openOn ruledX 1 []
  { e with store := e.store.applyPut ruledX (ascii "sys:acl:7:a") (ascii "WRITE") }

private theorem ruledEngine_confines :
    Confines ruledEngine.store.credentials (· = 7) fun key => TellsAccess key ∨ key = ascii "b" where
  ordinary uid h := by
    subst h
    decide
  rules key h := Or.inl h
  writes uid key h hcan := by
    subst h
    have hrules : ruledEngine.store.credentials.userAcls 7 = some [⟨ascii "a", .write⟩] := by
      decide +kernel
    have hhead : key.head? = some 97 := by
      rw [CredentialManager.checkPermission, if_neg (by decide), hrules] at hcan
      by_cases hpre : (ascii "a").isPrefixOf key = true
      · exact isPrefixOf_head (by decide : ascii "a" = 97 :: []) hpre
      · have hstar : ascii "a" ≠ ascii "*" := by decide
        have hnone : Permission.none.canWrite = false := by decide
        simp [hstar, hpre, hnone] at hcan
    have hb : (ascii "b").head? = some 98 := by decide
    constructor
    · rintro (htells | rfl)
      · rw [tellsAccess_head htells] at hhead
        cases hhead
      · rw [hb] at hhead
        cases hhead
    · have hmeta := metaKey_head hhead
      rintro (htells | heq)
      · rw [tellsAccess_head htells] at hmeta
        simp at hmeta
      · rw [heq, hb] at hmeta
        simp at hmeta

def sentBy (identity opcode : String) (frames : List Bytes) : ServiceEvent :=
  .receive ([ascii identity, [], [0, 0, 0, 0], ascii opcode] ++ frames) [[5]]

/-- The user puts a key of theirs, and asks for a rule that would let them write every key. -/
private def confinedRun : List ServiceEvent :=
  [sentBy "c" "A" [ascii "7", ascii "s"], sentBy "c" "P" [ascii "a1", ascii "v"], .append, .work,
    .shard firstShard, .shard firstShard, .shard firstShard, .answer,
    sentBy "c" "P" [ascii "sys:acl:7:*", ascii "WRITE"]]

open Service in
theorem kept_keys_stay_rule :
    ∃ s, (init (ascii "s") ruledEngine).run ruledX (fun _ _ => 0) confinedRun = some s ∧
      s.sent = [(ascii "c", .text (ascii "OK")), (ascii "c", .text (ascii "OK")),
        (ascii "c", .text (ascii "ERR_FORBIDDEN"))] ∧
      s.machine.store.credentials = ruledEngine.store.credentials ∧
      ∀ key, TellsAccess key ∨ key = ascii "b" →
        s.machine.store.find ruledX key = ruledEngine.store.find ruledX key := by
  have hsent : ((init (ascii "s") ruledEngine).run ruledX (fun _ _ => 0) confinedRun).map
      Service.sent = some [(ascii "c", .text (ascii "OK")), (ascii "c", .text (ascii "OK")),
        (ascii "c", .text (ascii "ERR_FORBIDDEN"))] := by decide +kernel
  obtain ⟨s, hrun, hs⟩ := Option.map_eq_some_iff.mp hsent
  refine ⟨s, hrun, hs, kept_keys_stay ruledX (fun _ _ => 0) (ascii "s") (by decide) ruledEngine
    (fun _ => rfl) (· = 7) _ ruledEngine_confines confinedRun ?_ ?_ s hrun⟩
  · have hsteps : allSteps (step ruledX fun _ _ => 0) (fun s event => decide (event.Gated s))
        (init (ascii "s") ruledEngine) confinedRun = true := by decide +kernel
    intro before event after hsplit s hbefore
    simpa using everyStep_of_allSteps hsteps before event after hsplit s hbefore
  · have hother {msg : List Bytes} (hmsg : (msg.getD 3 []).head? ≠ some 65) (identity : Bytes)
        (uid : UInt32) : authUid (ascii "s") identity msg ≠ some uid := by
      rw [authUid, if_neg fun h => hmsg h.2.1]
      simp
    intro event hevent
    simp only [confinedRun, List.mem_cons, List.not_mem_nil, or_false] at hevent
    rcases hevent with rfl | rfl | rfl | rfl | rfl | rfl | rfl | rfl | rfl
    · intro identity uid h
      have huid : (stoul (ascii "7")).map UInt32.ofNat = some 7 := by decide
      rw [authUid] at h
      split at h
      · exact Option.some.inj (h.symm.trans huid)
      · cases h
    · exact fun identity uid h => absurd h (hother (by decide) identity uid)
    · trivial
    · trivial
    · trivial
    · trivial
    · trivial
    · trivial
    · exact fun identity uid h => absurd h (hother (by decide) identity uid)

end

end L3KV
