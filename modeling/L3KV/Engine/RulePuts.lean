import Mathlib.Data.Nat.Digits.Lemmas
import L3KV.Engine.Writes
import L3KV.Framework.Runs
import L3KV.Store.AccessRules

/-!
# Rules set through the store

An administrator sets a rule by a `put` of its key. The `put` writes two keys, the second one for
the sidecar, and both pass the hook, so the rules are compared with those of a manager on which
`set_acl` is called once for each `put`.
-/

namespace L3KV

open Framework

def sortedExternal : External := { External.reference fun _ => 0 with sortRules := sortByLength }

theorem sortedExternal_lawful : sortedExternal.Lawful :=
  ⟨Lite3.reference_lawful, Zstd.plain_lossless, Lite3.reference_smallMeta⟩

/-- A `put` of the administrator on the key of a rule. -/
structure RulePut where
  uid : UInt32
  rulePrefix : Bytes
  body : Bytes
  readings : List Int64
  noNul : ∀ b ∈ rulePrefix, b ≠ 0

namespace RulePut

def key (p : RulePut) : Bytes := aclKey p.uid p.rulePrefix

def step (x : External) (u : Nat → Nat → UInt8) (e : Engine) (p : RulePut) : Option Engine :=
  (e.call x u (.put p.key p.body adminUid p.readings)).map Prod.fst

/-- The call of `set_acl` that the `put` stands for. -/
def setDirectly (x : External) (c : CredentialManager) (p : RulePut) : CredentialManager :=
  c.setAcl x.sortRules p.uid p.rulePrefix (grantedBy p.body)

/-- The `put` creates, changes and removes no rule but its own. -/
def SetsNoOther (x : External) (u : Nat → Nat → UInt8) (e : Engine) (p : RulePut) : Prop :=
  ∀ e', p.step x u e = some e' → ∀ uid rulePrefix perm, ¬ (uid = p.uid ∧ rulePrefix = p.rulePrefix) →
    (e'.store.credentials.HasRule uid rulePrefix perm ↔
      e.store.credentials.HasRule uid rulePrefix perm)

/-- If the sidecar's key names a rule, then that rule is there already, with the permission that
the hook reads from the metadata. -/
def SidecarAgrees (x : External) (e : Engine) (p : RulePut) : Prop :=
  ∀ stamp metaVal uid rulePrefix, e.clock.now p.readings = some stamp →
    metaObject x.lite3 stamp.1 false = some metaVal →
    aclTarget (metaKey p.key) = some (uid, rulePrefix) →
      e.store.credentials.HasRule uid rulePrefix (grantedBy metaVal)

private theorem key_noNul (p : RulePut) : ∀ b ∈ p.key, b ≠ 0 := by
  have hfixed : (ascii "sys:acl:").all (· ≠ 0) = true ∧ (ascii ":").all (· ≠ 0) = true := by
    decide
  intro b hb
  rw [key, aclKey] at hb
  simp only [List.mem_append] at hb
  rcases hb with ((hb | hb) | hb) | hb
  · simpa using List.all_eq_true.mp hfixed.1 b hb
  · rintro rfl
    have := decimalNat_isDigit hb
    revert this
    decide
  · simpa using List.all_eq_true.mp hfixed.2 b hb
  · exact p.noNul b hb

private theorem sidecar_target_ne (p : RulePut) {uid : UInt32} {rulePrefix : Bytes}
    (h : aclTarget (metaKey p.key) = some (uid, rulePrefix)) : rulePrefix ≠ p.rulePrefix := by
  rintro rfl
  have hshort : p.rulePrefix.length < 1024 :=
    lt_of_le_of_lt (aclTarget_length h) (metaKey_length_lt _)
  have hdigits : (decimalNat p.uid.toNat).length ≤ 10 := by
    unfold decimalNat
    split
    · simp
    · rw [List.length_map, List.length_reverse, Nat.digits_length_le_iff (by decide)]
      exact lt_trans p.uid.toNat_lt (by decide)
  have hlen : p.key.length < 2 ^ 31 := by
    have hfixed : (ascii "sys:acl:").length = 8 ∧ (ascii ":").length = 1 := by decide
    simp only [key, aclKey, List.length_append, hfixed]
    omega
  have htext : p.key.takeWhile (· ≠ 0) = p.key := by
    apply List.takeWhile_eq_self_iff.mpr
    intro b hb
    simpa using p.key_noNul b hb
  rw [metaKey_eq hlen, htext] at h
  split at h
  · revert h
    simp [aclTarget, ascii]
  · have hkey : p.key ++ ascii ":meta" = aclKey p.uid (p.rulePrefix ++ ascii ":meta") := by
      simp only [key, aclKey, List.append_assoc]
    rw [hkey, aclTarget_aclKey] at h
    have hsame := congrArg Prod.snd (Option.some.inj h)
    have hmeta : ascii ":meta" = [] := by simpa using hsame
    revert hmeta
    decide

section

variable {x : External} {u : Nat → Nat → UInt8} {e e' : Engine} {p : RulePut}

private theorem step_spec (hl : x.lite3.Lawful) (hidle : e.Idle) (hstep : p.step x u e = some e') :
    ∃ stamp metaVal, e.clock.now p.readings = some stamp ∧
      metaObject x.lite3 stamp.1 false = some metaVal ∧ e'.Idle ∧
      e'.store.credentials =
        (p.setDirectly x e.store.credentials).hook x (metaKey p.key) metaVal := by
  obtain ⟨r, hr, rfl⟩ := Option.map_eq_some_iff.mp hstep
  have hcan : (e.store.credentials.checkPermission adminUid p.key).canWrite := by simp
  cases hnow : e.clock.now p.readings with
  | none => simp [Engine.call, Engine.prepare, Engine.stamped, hnow] at hr
  | some stamp =>
      obtain ⟨r', metaVal, hr', hmeta, hidle', hstore⟩ :=
        call_put (u := u) hl hidle hcan hnow p.body
      obtain rfl := Option.some.inj (hr'.symm.trans hr)
      refine ⟨stamp, metaVal, rfl, hmeta, hidle', ?_⟩
      have hown : e.store.credentials.hook x p.key p.body = p.setDirectly x e.store.credentials :=
        CredentialManager.hook_of_aclTarget x (aclTarget_aclKey p.uid p.rulePrefix) p.body
      simp only [hstore, Store.commitWrite, Bool.false_eq_true, if_false,
        Store.applyPut_credentials, hown]

private theorem tidy_step (hl : x.lite3.Lawful) (hsort : OrdersRules x.sortRules) (hidle : e.Idle)
    (htidy : e.store.credentials.Tidy) (hstep : p.step x u e = some e') :
    e'.Idle ∧ e'.store.credentials.Tidy := by
  obtain ⟨stamp, metaVal, -, -, hidle', hcreds⟩ := step_spec hl hidle hstep
  have hdirect : (p.setDirectly x e.store.credentials).Tidy := htidy.setAcl hsort _ _ _
  refine ⟨hidle', ?_⟩
  rw [hcreds]
  cases htarget : aclTarget (metaKey p.key) with
  | none => exact hdirect.of_userAcls (CredentialManager.hook_userAcls x htarget metaVal)
  | some target =>
      rw [CredentialManager.hook_of_aclTarget x (show _ = some (target.1, target.2) from htarget)]
      exact hdirect.setAcl hsort _ _ _

private theorem hasRule_step (hl : x.lite3.Lawful) (hsort : OrdersRules x.sortRules)
    (hidle : e.Idle)
    (htidy : e.store.credentials.Tidy) (hagrees : p.SidecarAgrees x e)
    (hstep : p.step x u e = some e') (uid : UInt32) (rulePrefix : Bytes) (perm : Permission) :
    e'.store.credentials.HasRule uid rulePrefix perm ↔
      (p.setDirectly x e.store.credentials).HasRule uid rulePrefix perm := by
  obtain ⟨stamp, metaVal, hnow, hmeta, -, hcreds⟩ := step_spec hl hidle hstep
  rw [hcreds]
  cases htarget : aclTarget (metaKey p.key) with
  | none =>
      simp only [CredentialManager.HasRule, CredentialManager.rules,
        CredentialManager.hook_userAcls x htarget]
  | some target =>
      obtain ⟨uid', rulePrefix'⟩ := target
      have hthere := hagrees stamp metaVal uid' rulePrefix' hnow hmeta htarget
      have hne : ¬ (uid' = p.uid ∧ rulePrefix' = p.rulePrefix) :=
        fun h => p.sidecar_target_ne htarget h.2
      have hkept : (p.setDirectly x e.store.credentials).HasRule uid' rulePrefix'
          (grantedBy metaVal) := by
        rw [setDirectly, CredentialManager.hasRule_setAcl hsort, if_neg hne]
        exact hthere
      rw [CredentialManager.hook_of_aclTarget x htarget, CredentialManager.hasRule_setAcl hsort]
      split
      · rename_i hsame
        obtain ⟨rfl, rfl⟩ := hsame
        constructor
        · rintro rfl
          exact hkept
        · intro hperm
          have heq := (htidy.setAcl hsort _ _ _).unique uid _ hperm _ hkept rfl
          exact congrArg ACLRule.perm heq
      · rfl

private theorem setsNoOther_iff (hl : x.lite3.Lawful) (hsort : OrdersRules x.sortRules)
    (hidle : e.Idle)
    (htidy : e.store.credentials.Tidy) : p.SetsNoOther x u e ↔ p.SidecarAgrees x e := by
  constructor
  · intro hno stamp metaVal uid rulePrefix hnow hmeta htarget
    have hcan : (e.store.credentials.checkPermission adminUid p.key).canWrite := by simp
    obtain ⟨r, -, hr, -⟩ := call_put (u := u) hl hidle hcan hnow p.body
    have hstep : p.step x u e = some r.1 := by rw [step, hr, Option.map_some]
    obtain ⟨stamp', metaVal', hnow', hmeta', -, hcreds⟩ := step_spec hl hidle hstep
    obtain rfl := Option.some.inj (hnow.symm.trans hnow')
    obtain rfl := Option.some.inj (hmeta.symm.trans hmeta')
    refine (hno r.1 hstep uid rulePrefix _ fun h => p.sidecar_target_ne htarget h.2).mp ?_
    rw [hcreds, CredentialManager.hook_of_aclTarget x htarget,
      CredentialManager.hasRule_setAcl hsort, if_pos ⟨rfl, rfl⟩]
  · intro hagrees e' hstep uid rulePrefix perm hne
    rw [hasRule_step hl hsort hidle htidy hagrees hstep, setDirectly,
      CredentialManager.hasRule_setAcl hsort, if_neg hne]

/-- Unless the rules that were set tie the wildcard with a single byte, puts of rules give the answers
that calls of `set_acl` give, and set no other rules, if and only if each sidecar's key names no rule,
or one that is there already with the permission read from the metadata. -/
theorem puts_iff_direct (hl : x.lite3.Lawful) (hsort : OrdersRules x.sortRules)
    (hidle : e.Idle) (htidy : e.store.credentials.Tidy) {puts : List RulePut}
    (hrun : puts.foldlM (step x u) e = some e')
    (huntied : (puts.foldl (setDirectly x) e.store.credentials).Untied) :
    ((∀ uid key, e'.store.credentials.checkPermission uid key =
        (puts.foldl (setDirectly x) e.store.credentials).checkPermission uid key) ∧
      EveryStep (step x u) e puts (SetsNoOther x u)) ↔
    EveryStep (step x u) e puts (SidecarAgrees x) := by
  have halways {before : List RulePut} {e₁ : Engine} (h : before.foldlM (step x u) e = some e₁) :
      e₁.Idle ∧ e₁.store.credentials.Tidy := by
    refine run_invariant_always (fun _ e₁ => e₁.Idle ∧ e₁.store.credentials.Tidy) ⟨hidle, htidy⟩
      ?_ h
    exact fun _ _ _ _ hinv hstep => tidy_step hl hsort hinv.1 hinv.2 hstep
  have hsteps : EveryStep (step x u) e puts (SetsNoOther x u) ↔
      EveryStep (step x u) e puts (SidecarAgrees x) := by
    constructor <;> intro h before p after hsplit e₁ hbefore
    · exact (setsNoOther_iff hl hsort (halways hbefore).1 (halways hbefore).2).mp
        (h before p after hsplit e₁ hbefore)
    · exact (setsNoOther_iff hl hsort (halways hbefore).1 (halways hbefore).2).mpr
        (h before p after hsplit e₁ hbefore)
  rw [hsteps]
  refine ⟨fun h => h.2, fun hagrees => ⟨fun uid key => ?_, hagrees⟩⟩
  -- Along the run both managers are tidy and have the same rules.
  have hinv := run_invariant (fun puts e₁ => e₁.Idle ∧ e₁.store.credentials.Tidy ∧
      (puts.foldl (setDirectly x) e.store.credentials).Tidy ∧
      ∀ uid rulePrefix perm, e₁.store.credentials.HasRule uid rulePrefix perm ↔
        (puts.foldl (setDirectly x) e.store.credentials).HasRule uid rulePrefix perm)
    ⟨hidle, htidy, htidy, fun _ _ _ => Iff.rfl⟩
    (fun puts e₁ p e₂ ⟨hidle₁, htidy₁, hdirect, hrules⟩ hp hstep => by
      obtain ⟨hidle₂, htidy₂⟩ := tidy_step hl hsort hidle₁ htidy₁ hstep
      rw [List.foldl_concat]
      refine ⟨hidle₂, htidy₂, hdirect.setAcl hsort _ _ _, fun uid rulePrefix perm => ?_⟩
      rw [hasRule_step hl hsort hidle₁ htidy₁ hp hstep, setDirectly, setDirectly,
        CredentialManager.hasRule_setAcl hsort, CredentialManager.hasRule_setAcl hsort, hrules])
    hagrees hrun
  obtain ⟨-, htidy', hdirect, hrules⟩ := hinv
  refine (CredentialManager.checkPermission_agree_of_untied hdirect htidy'
    (fun r => (hrules uid r.rulePrefix r.perm).symm) huntied key).symm

private theorem exists_step (hl : x.lite3.Lawful) (p : RulePut) (hreadings : p.readings = [1]) :
    ∃ e', [p].foldlM (step x u) (Engine.openOn x 1 []) = some e' ∧
      ∃ metaVal, metaObject x.lite3 ⟨1, 0, 1⟩ false = some metaVal ∧
        e'.store.credentials = (p.setDirectly x (CredentialManager.bootstrap x.sortRules)).hook x
          (metaKey p.key) metaVal := by
  have hnow : (Engine.openOn x 1 []).clock.now p.readings =
      some (⟨1, 0, 1⟩, ⟨1, 0, 1⟩) := by
    rw [hreadings]
    rfl
  have hcan : ((Engine.openOn x 1 []).store.credentials.checkPermission adminUid p.key).canWrite := by
    simp
  obtain ⟨r, -, hr, -⟩ := call_put (u := u) hl (Engine.openOn_idle 1) hcan hnow p.body
  have hstep : p.step x u (Engine.openOn x 1 []) = some r.1 := by rw [step, hr, Option.map_some]
  obtain ⟨stamp, metaVal, hnow', hmeta, -, hcreds⟩ := step_spec hl (Engine.openOn_idle 1) hstep
  obtain rfl := Option.some.inj (hnow.symm.trans hnow')
  refine ⟨r.1, ?_, metaVal, hmeta, hcreds⟩
  simp [hstep]

/-- A key so long that its sidecar has no name of its own. -/
private def longPut : RulePut where
  uid := 5
  rulePrefix := List.replicate 1019 97
  body := ascii "READ"
  readings := [1]
  noNul b hb := by
    rw [List.eq_of_mem_replicate hb]
    decide

private theorem longPut_metaKey : metaKey longPut.key = [] := by
  have hlen : longPut.key.length = 1029 := by
    have hfixed : (ascii "sys:acl:").length = 8 ∧ (decimalNat 5).length = 1 ∧
        (ascii ":").length = 1 := by decide
    have huid : (5 : UInt32).toNat = 5 := rfl
    simp only [key, longPut, aclKey, List.length_append, List.length_replicate, huid, hfixed]
  have htext : longPut.key.takeWhile (· ≠ 0) = longPut.key := by
    apply List.takeWhile_eq_self_iff.mpr
    intro b hb
    simpa using longPut.key_noNul b hb
  rw [metaKey_eq (by omega), htext, if_pos (by omega)]

theorem puts_iff_direct_long :
    let x := sortedExternal
    ∃ e', [longPut].foldlM (step x fun _ _ => 0) (Engine.openOn x 1 []) = some e' ∧
      (∀ uid key, e'.store.credentials.checkPermission uid key =
        ([longPut].foldl (setDirectly x) (CredentialManager.bootstrap x.sortRules)).checkPermission
          uid key) ∧
      EveryStep (step x fun _ _ => 0) (Engine.openOn x 1 []) [longPut] (SetsNoOther x fun _ _ => 0) := by
  intro x
  obtain ⟨e', hrun, metaVal, -, hcreds⟩ :=
    exists_step (x := x) (u := fun _ _ => 0) sortedExternal_lawful.lite3 longPut rfl
  have hnil (c : CredentialManager) : c.hook x [] metaVal = c := rfl
  rw [longPut_metaKey, hnil] at hcreds
  refine ⟨e', hrun, (puts_iff_direct sortedExternal_lawful.lite3 sortByLength_orders
    (Engine.openOn_idle 1) (CredentialManager.bootstrap_tidy sortByLength_orders) hrun ?_).mpr ?_⟩
  · intro uid b perm perm' hwild hone
    have hsort : OrdersRules x.sortRules := sortByLength_orders
    have hlong : longPut.rulePrefix.length = 1019 := List.length_replicate
    have hgrants {rulePrefix : Bytes} {perm : Permission} (hlen : rulePrefix.length = 1)
        (h : (longPut.setDirectly x (CredentialManager.bootstrap x.sortRules)).HasRule uid
          rulePrefix perm) : perm = .admin := by
      have hne : ¬ (uid = longPut.uid ∧ rulePrefix = longPut.rulePrefix) := by
        rintro ⟨-, rfl⟩
        omega
      rw [setDirectly, CredentialManager.hasRule_setAcl hsort, if_neg hne] at h
      exact CredentialManager.bootstrap_grants hsort h
    rw [hgrants (by decide) hwild, hgrants rfl hone]
  · refine everyStep_cons ?_ fun _ _ => everyStep_nil
    intro stamp metaVal uid rulePrefix _ _ htarget
    rw [longPut_metaKey] at htarget
    revert htarget
    simp [aclTarget, ascii]

private def readPut : RulePut where
  uid := 5
  rulePrefix := ascii "d"
  body := ascii "READ"
  readings := [1]
  noNul b hb := by
    have hd : ascii "d" = [100] := by decide
    rw [hd, List.mem_singleton] at hb
    subst hb
    decide

/-- The sidecar of a rule is a rule too: it takes the permission away again below `d:meta`. -/
theorem put_shadows_rule :
    let x := sortedExternal
    ∃ e', [readPut].foldlM (step x fun _ _ => 0) (Engine.openOn x 1 []) = some e' ∧
      ([readPut].foldl (setDirectly x) (CredentialManager.bootstrap x.sortRules)).checkPermission 5
        (ascii "d:metal") = Permission.read ∧
      e'.store.credentials.checkPermission 5 (ascii "d:metal") = Permission.none := by
  intro x
  obtain ⟨e', hrun, metaVal, hmeta, hcreds⟩ :=
    exists_step (x := x) (u := fun _ _ => 0) sortedExternal_lawful.lite3 readPut rfl
  have hgranted : grantedBy metaVal = Permission.none := by
    have hsome : (metaObject Lite3.reference ⟨1, 0, 1⟩ false).map grantedBy =
        some Permission.none := by decide
    have hmap := congrArg (Option.map grantedBy) hmeta
    exact Option.some.inj (hmap.symm.trans hsome)
  have htarget : aclTarget (metaKey readPut.key) = some (5, ascii "d:meta") := by decide
  refine ⟨e', hrun, by decide, ?_⟩
  rw [hcreds, CredentialManager.hook_of_aclTarget x htarget, hgranted]
  decide

end

end RulePut

end L3KV
