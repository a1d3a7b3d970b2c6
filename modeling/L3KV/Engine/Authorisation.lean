import L3KV.Engine.Readable
import L3KV.Engine.RulePuts
import L3KV.Sync.Replicas

/-!
# Users and rules as an index of the store

The hook of `apply_put` keeps the users and the rules next to the store. They can be read back from
the store as long as every key goes on saying what the hook once understood: then stores with the
same contents give the same permissions.
-/

namespace L3KV

open Framework

/-- A uid to which the rules apply and which the constructor does not register. -/
def Ordinary (uid : UInt32) : Prop := uid ≠ internalUid ∧ uid ≠ adminUid

instance (uid : UInt32) : Decidable (Ordinary uid) := inferInstanceAs (Decidable (_ ∧ _))

/-- What a key with a content says about permissions. -/
inductive Statement where
  | rule (uid : UInt32) (rulePrefix : Bytes) (perm : Permission)
  | user (identity : UserIdentity)
  deriving DecidableEq

/-- What the hook understands. Statements about the two built-in users have no effect. -/
def readStatement (l : Lite3) (key content : Bytes) : Option Statement :=
  match aclTarget key with
  | some (uid, rulePrefix) =>
      if Ordinary uid then some (.rule uid rulePrefix (grantedBy content)) else none
  | none =>
      (userTarget key).bind fun uid =>
        if Ordinary uid then
          (identityIn l content).map fun i => .user ⟨uid, i.1, i.2⟩
        else none

namespace Store

/-- What the stored content of a key says. -/
def tells (x : External) (st : Store) (key : Bytes) : Option Statement :=
  (st.find x key).bind fun _ => readStatement x.lite3 key (st.get x key adminUid)

/-- The two stores hold the same keys with the same contents. -/
def SameContents (x : External) (st st' : Store) : Prop :=
  ∀ key, (st.find x key = none ↔ st'.find x key = none) ∧
    st.get x key adminUid = st'.get x key adminUid

/-- A put leaves a content that says what the hook understood. A rule is named by no other key and
is not a wildcard next to a rule for a single byte, or the reverse. A user is new, with a new public
key, or said already. Every other operation leaves what its key says. -/
def KeepsIndex (x : External) (st : Store) : Event → Prop
  | .apply (.put key body) =>
      (st.applyPut x key body).tells x key = readStatement x.lite3 key body ∧
        match readStatement x.lite3 key body with
        | some (.rule uid rulePrefix _) =>
            (∀ other, other ≠ key → ∀ perm, st.tells x other ≠ some (.rule uid rulePrefix perm)) ∧
              ∀ r ∈ st.credentials.rules uid, r.rulePrefix.length = 1 → rulePrefix.length = 1 →
                (r.rulePrefix = ascii "*" ↔ rulePrefix = ascii "*")
        | some (.user identity) =>
            st.tells x key = some (.user identity) ∨
              (st.credentials.users identity.uid = none ∧
                st.credentials.keyToUid identity.publicKey = none)
        | none => st.tells x key = none
  | .apply o => ∀ st', st.apply x o = some st' → st'.tells x o.key = st.tells x o.key
  | .getMerkleRootHash => True

end Store

section

variable {x : External} {c : CredentialManager} {st st' : Store} {key body : Bytes}

private theorem aclTarget_of_rule {l : Lite3} {uid : UInt32} {rulePrefix : Bytes}
    {perm : Permission}
    (h : readStatement l key body = some (.rule uid rulePrefix perm)) :
    aclTarget key = some (uid, rulePrefix) ∧ Ordinary uid ∧ perm = grantedBy body := by
  unfold readStatement at h
  split at h
  · rename_i uid' rulePrefix' htarget
    split at h
    · rename_i hord
      cases h
      exact ⟨htarget, hord, rfl⟩
    · cases h
  · obtain ⟨uid', -, h⟩ := Option.bind_eq_some_iff.mp h
    split at h
    · obtain ⟨i, -, h⟩ := Option.map_eq_some_iff.mp h
      cases h
    · cases h

private theorem userTarget_of_user {l : Lite3} {identity : UserIdentity}
    (h : readStatement l key body = some (.user identity)) :
    aclTarget key = none ∧ userTarget key = some identity.uid ∧ Ordinary identity.uid ∧
      identityIn l body = some (identity.name, identity.publicKey) := by
  unfold readStatement at h
  split at h
  · split at h <;> cases h
  · rename_i hacl
    obtain ⟨uid', htarget, h⟩ := Option.bind_eq_some_iff.mp h
    split at h
    · rename_i hord
      obtain ⟨i, hi, h⟩ := Option.map_eq_some_iff.mp h
      cases h
      exact ⟨hacl, htarget, hord, hi⟩
    · cases h

/-- The index of public keys holds those of the registered users, and a public key has one user. -/
def CredentialManager.KeysIndexed (c : CredentialManager) : Prop :=
  ∀ publicKey uid, c.keyToUid publicKey = some uid ↔
    ∃ i, c.users uid = some i ∧ i.publicKey = publicKey

/-- The users and the rules are what the keys of the store tell. -/
structure Indexed (x : External) (st : Store) : Prop where
  readable : st.Readable x
  tidy : st.credentials.Tidy
  rules : ∀ uid, Ordinary uid → ∀ rulePrefix perm, st.credentials.HasRule uid rulePrefix perm ↔
    ∃ key, st.tells x key = some (.rule uid rulePrefix perm)
  untied : ∀ uid, Ordinary uid → ∀ r ∈ st.credentials.rules uid, ∀ s ∈ st.credentials.rules uid,
    r.rulePrefix.length = 1 → s.rulePrefix.length = 1 →
      (r.rulePrefix = ascii "*" ↔ s.rulePrefix = ascii "*")
  users : ∀ uid, Ordinary uid → ∀ i, st.credentials.users uid = some i ↔
    i.uid = uid ∧ ∃ key, st.tells x key = some (.user i)
  builtIn : ∀ uid, ¬ Ordinary uid →
    st.credentials.users uid = (CredentialManager.bootstrap x.sortRules).users uid
  publicKeys : st.credentials.KeysIndexed

private theorem bootstrap_users (sort : List ACLRule → List ACLRule) (uid : UInt32) :
    (CredentialManager.bootstrap sort).users uid =
      if uid = internalUid then some ⟨internalUid, ascii "internal", ascii "internal-key"⟩
      else if uid = adminUid then some ⟨adminUid, ascii "admin", ascii "admin-key"⟩ else none := by
  have hne : internalUid ≠ adminUid := by decide
  by_cases hinternal : uid = internalUid
  · subst hinternal
    rfl
  · by_cases hadmin : uid = adminUid
    · subst hadmin
      rfl
    · simp [hinternal, hadmin, CredentialManager.bootstrap, CredentialManager.registerUser,
        CredentialManager.setAcl, CredentialManager.init, hne]

private theorem builtIn_registered (sort : List ACLRule → List ACLRule) {uid : UInt32}
    (h : ¬ Ordinary uid) : ∃ i, (CredentialManager.bootstrap sort).users uid = some i := by
  rw [bootstrap_users]
  by_cases hinternal : uid = internalUid
  · exact ⟨_, if_pos hinternal⟩
  · have hadmin : uid = adminUid := by
      by_contra hadmin
      exact h ⟨hinternal, hadmin⟩
    rw [if_neg hinternal]
    exact ⟨_, if_pos hadmin⟩

theorem CredentialManager.KeysIndexed.registerUser (h : c.KeysIndexed) {uid : UInt32}
    {publicKey : Bytes} (hnew : c.users uid = none) (hfresh : c.keyToUid publicKey = none)
    (hne : publicKey ≠ []) (name : Bytes) :
    (c.registerUser uid name publicKey).KeysIndexed := by
  obtain ⟨husers, hkeys⟩ := CredentialManager.registerUser_of_none hnew name hne
  intro publicKey' uid'
  rw [husers, hkeys]
  by_cases huid : uid' = uid
  · subst huid
    rw [Function.update_self]
    by_cases hkey : publicKey' = publicKey
    · subst hkey
      simp
    · have hnone : ¬ c.keyToUid publicKey' = some uid' := by
        rw [h publicKey' uid']
        rintro ⟨i, hi, -⟩
        rw [hnew] at hi
        cases hi
      rw [Function.update_of_ne hkey]
      simp [hnone, Ne.symm hkey]
  · rw [Function.update_of_ne huid]
    by_cases hkey : publicKey' = publicKey
    · subst hkey
      rw [Function.update_self, ← h publicKey' uid', hfresh]
      simp [Ne.symm huid]
    · rw [Function.update_of_ne hkey]
      exact h publicKey' uid'

theorem CredentialManager.KeysIndexed.setAcl (h : c.KeysIndexed)
    (sort : List ACLRule → List ACLRule) (uid : UInt32) (rulePrefix : Bytes) (perm : Permission) :
    (c.setAcl sort uid rulePrefix perm).KeysIndexed := h

private theorem bootstrap_keysIndexed (sort : List ACLRule → List ACLRule) :
    (CredentialManager.bootstrap sort).KeysIndexed := by
  have hinit : CredentialManager.init.KeysIndexed := by
    intro publicKey uid
    simp [CredentialManager.init]
  have hadmin : (CredentialManager.init.registerUser adminUid (ascii "admin")
      (ascii "admin-key")).KeysIndexed := hinit.registerUser rfl rfl (by decide) (ascii "admin")
  have hrule := hadmin.setAcl sort adminUid (ascii "*") .admin
  have hboth : (((CredentialManager.init.registerUser adminUid (ascii "admin")
      (ascii "admin-key")).setAcl sort adminUid (ascii "*") .admin).registerUser internalUid
      (ascii "internal") (ascii "internal-key")).KeysIndexed :=
    hrule.registerUser rfl rfl (by decide) (ascii "internal")
  exact hboth.setAcl sort internalUid (ascii "*") .admin

private theorem bootstrap_rules (sort : List ACLRule → List ACLRule) {uid : UInt32}
    (h : Ordinary uid) :
    (CredentialManager.bootstrap sort).rules uid = [] := by
  obtain ⟨hinternal, hadmin⟩ := h
  simp [CredentialManager.rules, CredentialManager.bootstrap, CredentialManager.setAcl,
    CredentialManager.registerUser_userAcls, hinternal, hadmin, CredentialManager.init]

theorem Indexed.init (hsort : OrdersRules x.sortRules) : Indexed x (Store.init x) where
  readable := (Store.reachable_init x).readable
  tidy := CredentialManager.bootstrap_tidy hsort
  rules uid hord rulePrefix perm := by
    simp [CredentialManager.HasRule, Store.init, bootstrap_rules _ hord, Store.tells, Store.find]
  untied uid hord r hr := by
    simp [Store.init, bootstrap_rules _ hord] at hr
  users uid hord i := by
    simp [Store.init, bootstrap_users, hord.1, hord.2, Store.tells, Store.find]
  builtIn uid _ := rfl
  publicKeys := bootstrap_keysIndexed x.sortRules

private theorem Store.tells_apply_ne (hread : st.Readable x) {o : ShardOp}
    (happly : st.apply x o = some st') {key : Bytes} (hne : key ≠ o.key) :
    st'.tells x key = st.tells x key := by
  rw [tells, tells, Store.apply_find_ne happly hne, hread.get_apply_ne happly hne]

private theorem Store.told_apply_iff (hread : st.Readable x) {o : ShardOp}
    (happly : st.apply x o = some st') {s : Statement} (hbefore : st.tells x o.key ≠ some s)
    (hafter : st'.tells x o.key ≠ some s) :
    (∃ k, st'.tells x k = some s) ↔ ∃ k, st.tells x k = some s := by
  refine exists_congr fun k => ?_
  by_cases hne : k = o.key
  · rw [hne]
    exact iff_of_false hafter hbefore
  · rw [Store.tells_apply_ne hread happly hne]

theorem Indexed.same (h : Indexed x st) (hreadable : st'.Readable x)
    (htidy : st'.credentials.Tidy)
    (hrules : ∀ uid, Ordinary uid → st'.credentials.rules uid = st.credentials.rules uid)
    (husers : st'.credentials.users = st.credentials.users)
    (hkeys : st'.credentials.keyToUid = st.credentials.keyToUid)
    (htells : ∀ key, st'.tells x key = st.tells x key) : Indexed x st' where
  readable := hreadable
  tidy := htidy
  rules uid hord rulePrefix perm := by
    simp only [CredentialManager.HasRule, hrules uid hord, htells]
    exact h.rules uid hord rulePrefix perm
  untied uid hord := by
    rw [hrules uid hord]
    exact h.untied uid hord
  users uid hord i := by
    simp only [husers, htells]
    exact h.users uid hord i
  builtIn uid hord := by
    rw [husers]
    exact h.builtIn uid hord
  publicKeys publicKey uid := by
    rw [husers, hkeys]
    exact h.publicKeys publicKey uid

private theorem Indexed.put_rule (hsort : OrdersRules x.sortRules) (h : Indexed x st) {uid : UInt32}
    {rulePrefix : Bytes} {perm : Permission}
    (hread : readStatement x.lite3 key body = some (.rule uid rulePrefix perm))
    (hkeeps : st.KeepsIndex x (.apply (.put key body))) :
    Indexed x (st.applyPut x key body) := by
  obtain ⟨htold, hkeeps⟩ := hkeeps
  rw [hread] at htold hkeeps
  obtain ⟨halone, huntied⟩ := hkeeps
  obtain ⟨htarget, hord, rfl⟩ := aclTarget_of_rule hread
  have happly : st.apply x (.put key body) = some (st.applyPut x key body) := rfl
  have hother {k : Bytes} (hne : k ≠ key) : (st.applyPut x key body).tells x k = st.tells x k :=
    Store.tells_apply_ne h.readable happly hne
  have hcreds : (st.applyPut x key body).credentials =
      st.credentials.setAcl x.sortRules uid rulePrefix (grantedBy body) := by
    rw [Store.applyPut_credentials, CredentialManager.hook_of_aclTarget x htarget]
  -- Before the put, too, the key told nothing but this rule.
  have hbefore {s : Statement} (hs : st.tells x key = some s) :
      ∃ perm, s = .rule uid rulePrefix perm := by
    obtain ⟨b, -, hs⟩ := Option.bind_eq_some_iff.mp hs
    cases s with
    | rule uid' rulePrefix' perm =>
        obtain ⟨htarget', -, -⟩ := aclTarget_of_rule hs
        cases htarget.symm.trans htarget'
        exact ⟨perm, rfl⟩
    | user i =>
        rw [(userTarget_of_user hs).1] at htarget
        cases htarget
  constructor
  · exact Store.keeps_readable x st _ _ h.readable happly
  · rw [hcreds]
    exact h.tidy.setAcl hsort _ _ _
  · intro uid' hord' rulePrefix' perm'
    rw [hcreds, CredentialManager.hasRule_setAcl hsort]
    by_cases hsame : uid' = uid ∧ rulePrefix' = rulePrefix
    · obtain ⟨rfl, rfl⟩ := hsame
      rw [if_pos ⟨rfl, rfl⟩]
      constructor
      · rintro rfl
        exact ⟨key, htold⟩
      · rintro ⟨k, hk⟩
        by_cases hne : k = key
        · subst hne
          rw [htold] at hk
          cases hk
          rfl
        · rw [hother hne] at hk
          exact absurd hk (halone k hne perm')
    · rw [if_neg hsame, h.rules uid' hord']
      refine (Store.told_apply_iff h.readable happly ?_ ?_).symm
      · intro hk
        obtain ⟨_, heq⟩ := hbefore hk
        cases heq
        exact hsame ⟨rfl, rfl⟩
      · intro hk
        cases htold.symm.trans hk
        exact hsame ⟨rfl, rfl⟩
  · intro uid' hord' r hr s hs hone hone'
    rw [hcreds, CredentialManager.mem_setAcl hsort] at hr hs
    by_cases huid : uid' = uid
    · subst huid
      rw [if_pos rfl] at hr hs
      rcases hr with rfl | ⟨hr, -⟩ <;> rcases hs with rfl | ⟨hs, -⟩
      · rfl
      · exact (huntied s hs hone' hone).symm
      · exact huntied r hr hone hone'
      · exact h.untied uid' hord' r hr s hs hone hone'
    · rw [if_neg huid] at hr hs
      exact h.untied uid' hord' r hr s hs hone hone'
  · intro uid' hord' i
    rw [hcreds]
    refine (h.users uid' hord' i).trans (and_congr_right fun _ =>
      (Store.told_apply_iff h.readable happly ?_ ?_).symm)
    · intro hk
      obtain ⟨_, heq⟩ := hbefore hk
      cases heq
    · intro hk
      cases htold.symm.trans hk
  · rw [hcreds]
    exact h.builtIn
  · rw [hcreds]
    exact h.publicKeys

private theorem Indexed.put_user (h : Indexed x st) {identity : UserIdentity}
    (hread : readStatement x.lite3 key body = some (.user identity))
    (htold : (st.applyPut x key body).tells x key = some (.user identity))
    (hnew : st.credentials.users identity.uid = none)
    (hfresh : st.credentials.keyToUid identity.publicKey = none) :
    Indexed x (st.applyPut x key body) := by
  obtain ⟨hacl, htarget, hord, hidentity⟩ := userTarget_of_user hread
  have happly : st.apply x (.put key body) = some (st.applyPut x key body) := rfl
  have hhook : st.credentials.hook x key body =
      st.credentials.registerUser identity.uid identity.name identity.publicKey := by
    rw [CredentialManager.hook_of_userTarget x htarget, hidentity, Option.elim_some]
  obtain ⟨husers, -⟩ := CredentialManager.registerUser_of_none hnew identity.name
    (CredentialManager.publicKey_ne_nil hidentity)
  have hacls := CredentialManager.registerUser_userAcls st.credentials identity.uid identity.name
    identity.publicKey
  rw [← hhook, ← Store.applyPut_credentials] at husers hacls
  -- Before the put the key told nothing.
  have hbefore : st.tells x key = none := by
    cases htells : st.tells x key with
    | none => rfl
    | some s =>
        obtain ⟨b, -, hs⟩ := Option.bind_eq_some_iff.mp htells
        cases s with
        | rule uid rulePrefix perm =>
            rw [(aclTarget_of_rule hs).1] at hacl
            cases hacl
        | user i =>
            have huid : i.uid = identity.uid :=
              Option.some.inj ((userTarget_of_user hs).2.1.symm.trans htarget)
            have hregistered := (h.users identity.uid hord i).mpr ⟨huid, key, htells⟩
            rw [hnew] at hregistered
            cases hregistered
  have htells_iff {s : Statement} (hs : s ≠ .user identity) :
      (∃ k, (st.applyPut x key body).tells x k = some s) ↔ ∃ k, st.tells x k = some s := by
    refine Store.told_apply_iff h.readable happly ?_ ?_
    · intro hk
      cases hbefore.symm.trans hk
    · intro hk
      cases htold.symm.trans hk
      exact hs rfl
  have hrules (uid : UInt32) :
      (st.applyPut x key body).credentials.rules uid = st.credentials.rules uid := by
    rw [CredentialManager.rules, CredentialManager.rules, hacls]
  constructor
  · exact Store.keeps_readable x st _ _ h.readable happly
  · exact h.tidy.of_userAcls hacls
  · intro uid hord' rulePrefix perm
    rw [CredentialManager.HasRule, hrules, htells_iff (by simp)]
    exact h.rules uid hord' rulePrefix perm
  · intro uid hord'
    rw [hrules]
    exact h.untied uid hord'
  · intro uid hord' i
    rw [husers]
    by_cases huid : uid = identity.uid
    · subst huid
      rw [Function.update_self]
      constructor
      · intro hi
        obtain rfl := Option.some.inj hi
        exact ⟨rfl, key, htold⟩
      · rintro ⟨hi, hk⟩
        by_cases hsame : i = identity
        · rw [hsame]
        · rw [htells_iff (by simpa using hsame)] at hk
          have hregistered := (h.users _ hord' i).mpr ⟨hi, hk⟩
          rw [hnew] at hregistered
          cases hregistered
    · rw [Function.update_of_ne huid, h.users uid hord' i]
      refine and_congr_right fun hi => (htells_iff ?_).symm
      simp only [ne_eq, Statement.user.injEq]
      rintro rfl
      exact huid hi.symm
  · intro uid hord'
    have huid : uid ≠ identity.uid := by
      rintro rfl
      exact hord' hord
    rw [husers, Function.update_of_ne huid]
    exact h.builtIn uid hord'
  · rw [Store.applyPut_credentials, hhook]
    exact h.publicKeys.registerUser hnew hfresh (CredentialManager.publicKey_ne_nil hidentity) _

private theorem Indexed.put_silent (hsort : OrdersRules x.sortRules) (h : Indexed x st)
    (hread : readStatement x.lite3 key body = none)
    (htold : (st.applyPut x key body).tells x key = none) (hbefore : st.tells x key = none) :
    Indexed x (st.applyPut x key body) := by
  have happly : st.apply x (.put key body) = some (st.applyPut x key body) := rfl
  have htells (k : Bytes) : (st.applyPut x key body).tells x k = st.tells x k := by
    by_cases hne : k = key
    · rw [hne, htold, hbefore]
    · exact Store.tells_apply_ne h.readable happly hne
  have hreadable := Store.keeps_readable x st _ _ h.readable happly
  unfold readStatement at hread
  cases hacl : aclTarget key with
  | some target =>
      obtain ⟨uid, rulePrefix⟩ := target
      have hord : ¬ Ordinary uid := by
        intro hord
        rw [hacl] at hread
        simp [hord] at hread
      have hcreds : (st.applyPut x key body).credentials =
          st.credentials.setAcl x.sortRules uid rulePrefix (grantedBy body) := by
        rw [Store.applyPut_credentials, CredentialManager.hook_of_aclTarget x hacl]
      refine h.same hreadable ?_ ?_ ?_ ?_ htells
      · rw [hcreds]
        exact h.tidy.setAcl hsort _ _ _
      · intro uid' hord'
        have hne : uid' ≠ uid := by
          rintro rfl
          exact hord hord'
        rw [hcreds, CredentialManager.rules, CredentialManager.setAcl]
        simp only [Function.update_of_ne hne]
        rfl
      · rw [hcreds]
        rfl
      · rw [hcreds]
        rfl
  | none =>
      have hcreds : (st.applyPut x key body).credentials = st.credentials := by
        rw [Store.applyPut_credentials]
        rw [hacl] at hread
        cases htarget : userTarget key with
        | none => exact CredentialManager.hook_of_none x hacl htarget body
        | some uid =>
            rw [CredentialManager.hook_of_userTarget x htarget]
            simp only [htarget, Option.bind_some] at hread
            by_cases hord : Ordinary uid
            · rw [if_pos hord, Option.map_eq_none_iff] at hread
              rw [hread, Option.elim_none]
            · obtain ⟨i, hi⟩ := builtIn_registered x.sortRules hord
              rw [← h.builtIn uid hord] at hi
              cases identityIn x.lite3 body with
              | none => rfl
              | some j => exact CredentialManager.registerUser_of_some hi j.1 j.2
      refine h.same hreadable ?_ ?_ ?_ ?_ htells
      · rw [hcreds]
        exact h.tidy
      · intro uid _
        rw [hcreds]
      · rw [hcreds]
      · rw [hcreds]

theorem Indexed.step (hsort : OrdersRules x.sortRules) (h : Indexed x st) {event : Store.Event}
    (hkeeps : st.KeepsIndex x event) (hstep : st.step x event = some st') : Indexed x st' := by
  have hunchanged {o : ShardOp} (happly : st.apply x o = some st')
      (hcreds : st'.credentials = st.credentials)
      (htells : st'.tells x o.key = st.tells x o.key) : Indexed x st' := by
    refine h.same (Store.keeps_readable x st o st' h.readable happly) ?_ ?_ ?_ ?_ ?_
    · rw [hcreds]
      exact h.tidy
    · intro uid _
      rw [hcreds]
    · rw [hcreds]
    · rw [hcreds]
    · intro key
      by_cases hne : key = o.key
      · rw [hne, htells]
      · exact Store.tells_apply_ne h.readable happly hne
  cases event with
  | getMerkleRootHash =>
      have hany (t : MerkleTree) : Indexed x { st with merkle := t } :=
        ⟨h.readable, h.tidy, h.rules, h.untied, h.users, h.builtIn, h.publicKeys⟩
      cases hstep
      exact hany _
  | apply o =>
      cases o with
      | put key body =>
          obtain rfl : st.applyPut x key body = st' := Option.some.inj hstep
          cases hread : readStatement x.lite3 key body with
          | none =>
              obtain ⟨htold, hkeeps⟩ := hkeeps
              rw [hread] at htold hkeeps
              exact h.put_silent hsort hread htold hkeeps
          | some s =>
              cases s with
              | rule uid rulePrefix perm => exact h.put_rule hsort hread hkeeps
              | user identity =>
                  obtain ⟨htold, hkeeps⟩ := hkeeps
                  rw [hread] at htold hkeeps
                  obtain ⟨-, htarget, hord, hidentity⟩ := userTarget_of_user hread
                  rcases hkeeps with hsame | ⟨hnew, hfresh⟩
                  · -- The user is registered already, so `register_user` does nothing.
                    have hthere := (h.users identity.uid hord identity).mpr ⟨rfl, key, hsame⟩
                    refine hunchanged (o := .put key body) rfl ?_ ?_
                    · rw [Store.applyPut_credentials,
                        CredentialManager.hook_of_userTarget x htarget, hidentity]
                      exact CredentialManager.registerUser_of_some hthere _ _
                    · exact htold.trans hsame.symm
                  · exact h.put_user hread htold hnew hfresh
      | del key =>
          obtain rfl : st.applyDel x key = st' := Option.some.inj hstep
          exact hunchanged (o := .del key) rfl rfl (hkeeps _ rfl)
      | patchInt key field value =>
          have hstep' : st.apply x (.patchInt key field value) = some st' := hstep
          refine hunchanged hstep' ?_ (hkeeps st' hstep')
          obtain ⟨b, -, rfl⟩ := Option.map_eq_some_iff.mp hstep'
          rfl
      | patchStr key field value =>
          have hstep' : st.apply x (.patchStr key field value) = some st' := hstep
          refine hunchanged hstep' ?_ (hkeeps st' hstep')
          obtain ⟨b, -, rfl⟩ := Option.map_eq_some_iff.mp hstep'
          rfl

private theorem Indexed.of_run (hsort : OrdersRules x.sortRules) {events : List Store.Event}
    (hkeeps : EveryStep (Store.step x) (Store.init x) events (Store.KeepsIndex x))
    (hrun : events.foldlM (Store.step x) (Store.init x) = some st) : Indexed x st :=
  run_invariant (fun _ st => Indexed x st) (Indexed.init hsort)
    (fun _ _ _ _ h hkeeps hstep => h.step hsort hkeeps hstep) hkeeps hrun

/-- Stores with the same contents tell the same, and what they tell decides. -/
theorem authorisation_of_contents (hsort : OrdersRules x.sortRules)
    {events events' : List Store.Event}
    (hrun : events.foldlM (Store.step x) (Store.init x) = some st)
    (hrun' : events'.foldlM (Store.step x) (Store.init x) = some st')
    (hkeeps : EveryStep (Store.step x) (Store.init x) events (Store.KeepsIndex x))
    (hkeeps' : EveryStep (Store.step x) (Store.init x) events' (Store.KeepsIndex x))
    (hsame : Store.SameContents x st st') :
    (∀ uid key, st.credentials.checkPermission uid key = st'.credentials.checkPermission uid key) ∧
      ∀ publicKey,
        st.credentials.getUserByKey publicKey = st'.credentials.getUserByKey publicKey := by
  have h := Indexed.of_run hsort hkeeps hrun
  have h' := Indexed.of_run hsort hkeeps' hrun'
  have htells (key : Bytes) : st.tells x key = st'.tells x key := by
    obtain ⟨hfind, hget⟩ := hsame key
    rw [Store.tells, Store.tells, hget]
    cases hb : st.find x key with
    | none => rw [hfind.mp hb]
    | some b =>
        cases hb' : st'.find x key with
        | none => rw [hfind.mpr hb'] at hb; cases hb
        | some b' => rfl
  have husers : st.credentials.users = st'.credentials.users := by
    funext uid
    by_cases hord : Ordinary uid
    · apply Option.ext
      intro i
      rw [h.users uid hord, h'.users uid hord]
      simp only [htells]
    · rw [h.builtIn uid hord, h'.builtIn uid hord]
  constructor
  · intro uid key
    by_cases hord : Ordinary uid
    · refine CredentialManager.checkPermission_agree h.tidy h'.tidy ?_ (h.untied uid hord) key
      intro r
      have hrule := h.rules uid hord r.rulePrefix r.perm
      simp only [htells] at hrule
      exact hrule.trans (h'.rules uid hord r.rulePrefix r.perm).symm
    · have hbuiltIn : uid = internalUid ∨ uid = adminUid := by
        by_contra hnot
        exact hord (not_or.mp hnot)
      rw [CredentialManager.checkPermission, CredentialManager.checkPermission, if_pos hbuiltIn,
        if_pos hbuiltIn]
  · intro publicKey
    have hkeys : st.credentials.keyToUid publicKey = st'.credentials.keyToUid publicKey := by
      apply Option.ext
      intro uid
      rw [h.publicKeys publicKey uid, h'.publicKeys publicKey uid, husers]
    rw [CredentialManager.getUserByKey, CredentialManager.getUserByKey, hkeys, husers]

private def ruleKey : Bytes := aclKey 5 (ascii "d")

private theorem find_ruleKey (hz : x.zstd.Lossless) (st : Store) {word : Bytes}
    (hword : storedForm x.lite3 word = word) (hlen : word.length < 2 ^ 32) :
    (st.applyPut x ruleKey word).find x ruleKey ≠ none ∧
      (st.applyPut x ruleKey word).get x ruleKey adminUid = word := by
  obtain ⟨_, happly, -, hholding, -⟩ := st.apply_leaves (x := x) (o := .put ruleKey word) rfl
  cases happly
  refine ⟨?_, ?_⟩
  · obtain ⟨b, hb, -⟩ := hholding
    have hfind : (st.applyPut x ruleKey word).find x ruleKey = some b := hb
    rw [hfind]
    simp
  · have hget := hholding.get_eq hz (by rw [hword]; exact hlen)
    exact hget.trans hword

private theorem keepsIndex_ruleKey (hz : x.zstd.Lossless) {st : Store} {word : Bytes}
    (hword : storedForm x.lite3 word = word) (hlen : word.length < 2 ^ 32)
    (halone : ∀ other, other ≠ ruleKey → st.find x other = none)
    (huntied : ∀ r ∈ st.credentials.rules 5, r.rulePrefix = ascii "d") :
    st.KeepsIndex x (.apply (.put ruleKey word)) := by
  have hread : readStatement x.lite3 ruleKey word =
      some (.rule 5 (ascii "d") (grantedBy word)) := by
    rw [readStatement, ruleKey, aclTarget_aclKey]
    exact if_pos (by decide)
  obtain ⟨hfind, hget⟩ := find_ruleKey hz st hword hlen
  refine ⟨?_, ?_⟩
  · obtain ⟨b, hb⟩ := Option.ne_none_iff_exists'.mp hfind
    rw [Store.tells, hget, hb, Option.bind_some]
  · rw [hread]
    refine ⟨?_, ?_⟩
    · intro other hne perm
      rw [Store.tells, halone other hne]
      simp
    · intro r hr _ _
      rw [huntied r hr]

/-- Writing a rule twice leaves what writing it once leaves. -/
theorem authorisation_of_contents_overwritten :
    let x := sortedExternal
    let once := (Store.init x).applyPut x ruleKey (ascii "READ")
    let twice := ((Store.init x).applyPut x ruleKey (ascii "WRITE")).applyPut x ruleKey (ascii "READ")
    (∀ uid key, once.credentials.checkPermission uid key =
        twice.credentials.checkPermission uid key) ∧
      ∀ publicKey, once.credentials.getUserByKey publicKey =
        twice.credentials.getUserByKey publicKey := by
  intro x once twice
  have hz : x.zstd.Lossless := sortedExternal_lawful.zstd
  have hsort : OrdersRules x.sortRules := sortByLength_orders
  have hinit (other : Bytes) : (Store.init x).find x other = none := by
    simp [Store.find, Store.init]
  have hrules : (Store.init x).credentials.rules 5 = [] := bootstrap_rules _ (by decide)
  have hfirst {word : Bytes} (hword : storedForm x.lite3 word = word)
      (hlen : word.length < 2 ^ 32) : (Store.init x).KeepsIndex x (.apply (.put ruleKey word)) := by
    refine keepsIndex_ruleKey hz hword hlen (fun other _ => hinit other) ?_
    rw [hrules]
    simp
  have hother {word other : Bytes} (hne : other ≠ ruleKey) :
      ((Store.init x).applyPut x ruleKey word).find x other = none := by
    rw [Store.applyPut_find, if_neg hne, hinit]
  have hrun : [Store.Event.apply (.put ruleKey (ascii "READ"))].foldlM (Store.step x)
      (Store.init x) = some once := rfl
  have hrun' : [Store.Event.apply (.put ruleKey (ascii "WRITE")),
      .apply (.put ruleKey (ascii "READ"))].foldlM (Store.step x) (Store.init x) = some twice := rfl
  refine authorisation_of_contents hsort hrun hrun' ?_ ?_ ?_
  · exact everyStep_cons (hfirst (by decide) (by decide)) fun _ _ => everyStep_nil
  · refine everyStep_cons (hfirst (by decide) (by decide)) fun st hstep =>
      everyStep_cons ?_ fun _ _ => everyStep_nil
    cases hstep
    refine keepsIndex_ruleKey hz (by decide) (by decide) (fun other hne => hother hne) ?_
    intro r hr
    have hhook := CredentialManager.hook_of_aclTarget (c := (Store.init x).credentials) x
      (aclTarget_aclKey 5 (ascii "d")) (ascii "WRITE")
    rw [Store.applyPut_credentials, ruleKey, hhook, CredentialManager.mem_setAcl hsort, if_pos rfl,
      hrules] at hr
    rcases hr with rfl | ⟨hr, -⟩
    · rfl
    · cases hr
  · intro key
    by_cases hkey : key = ruleKey
    · subst hkey
      have hword : storedForm x.lite3 (ascii "READ") = ascii "READ" := by decide
      obtain ⟨hfind, hget⟩ := find_ruleKey hz (Store.init x) hword (by decide)
      obtain ⟨hfind', hget'⟩ :=
        find_ruleKey hz ((Store.init x).applyPut x ruleKey (ascii "WRITE")) hword (by decide)
      exact ⟨iff_of_false hfind hfind', hget.trans hget'.symm⟩
    · have hfind : once.find x key = none := hother hkey
      have hfind' : twice.find x key = none := by
        rw [Store.applyPut_find, if_neg hkey, hother hkey]
      rw [hfind, hfind', get_eq_nil hfind, get_eq_nil hfind']
      exact ⟨Iff.rfl, rfl⟩

private def grant : Mutation := ⟨⟨1, 0, 2⟩, ruleKey, ascii "READ", false⟩

private def revoke : Mutation := ⟨⟨2, 0, 2⟩, ruleKey, [], true⟩

/-- One replica has seen a rule come and go, the other only its deletion. -/
theorem deleted_rule_stays :
    let x := sortedExternal
    ∃ e e', (Engine.openOn x 1 []).runCalls x (fun _ _ => 0)
        [.applyMutation grant, .applyMutation revoke] = some e ∧
      (Engine.openOn x 1 []).runCalls x (fun _ _ => 0) [.applyMutation revoke] = some e' ∧
      Store.SameContents x e.store e'.store ∧
      e.store.credentials.checkPermission 5 (ascii "d") = Permission.read ∧
      e'.store.credentials.checkPermission 5 (ascii "d") = Permission.none := by
  intro x
  have hx : x.Lawful := sortedExternal_lawful
  have hkey : UserKey ruleKey := by decide
  have hfresh := represents_fresh x 1
  obtain ⟨r₁, m₁, hcall₁, hstore₁, hrep₁⟩ := call_applyMutation_written (m := grant) hx hfresh hkey
    (fun _ _ => 0) (by decide)
  obtain ⟨r₂, m₂, hcall₂, hstore₂, hrep₂⟩ := call_applyMutation_written (m := revoke) hx hrep₁ hkey
    (fun _ _ => 0) (by decide)
  obtain ⟨r₃, m₃, hcall₃, hstore₃, hrep₃⟩ := call_applyMutation_written (m := revoke) hx hfresh hkey
    (fun _ _ => 0) (by decide)
  rw [show grant.key = revoke.key from rfl, Function.update_idem] at hrep₂
  have htarget : aclTarget ruleKey = some (5, ascii "d") := aclTarget_aclKey 5 (ascii "d")
  have hsidecar : aclTarget (metaKey ruleKey) = some (5, ascii "d:meta") := by decide
  refine ⟨r₂.1, r₃.1, ?_, ?_, ?_, ?_, ?_⟩
  · simp [Engine.runCalls, hcall₁, hcall₂]
  · simp [Engine.runCalls, hcall₃]
  · refine hrep₂.same_content hx hrep₃ fun key r hr => ?_
    by_cases hk : key = revoke.key
    · subst hk
      rw [Function.update_self] at hr
      cases hr
      decide
    · rw [Function.update_of_ne hk] at hr
      cases hr
  · rw [hstore₂, hstore₁]
    simp only [grant, revoke, Store.commitWrite, Bool.false_eq_true, if_false, if_true,
      Store.applyPut_credentials, Store.applyDel_credentials,
      CredentialManager.hook_of_aclTarget x htarget, CredentialManager.hook_of_aclTarget x hsidecar]
    rfl
  · rw [hstore₃]
    simp only [revoke, Store.commitWrite, if_true, Store.applyPut_credentials,
      Store.applyDel_credentials, CredentialManager.hook_of_aclTarget x hsidecar]
    rfl

end

end L3KV
