import Mathlib.Data.List.Find
import Mathlib.Data.List.Sort
import L3KV.Framework.LongestMatch
import L3KV.Store.Apply

/-!
# Access rules as a map

A user's rules are a map from prefixes to permissions, kept as a list that is sorted by falling
prefix length. `set_acl` updates the map, the hook of `apply_put` calls it for keys that name a
rule, and `check_permission` depends on the map alone, except between the wildcard and a rule for
a single byte, which have the same length.
-/

namespace L3KV

open Framework

/-- `std::sort` with the comparator of `set_acl`: any order in which the lengths fall. -/
structure OrdersRules (sort : List ACLRule → List ACLRule) : Prop where
  perm : ∀ rules, (sort rules).Perm rules
  falling : ∀ rules, FallingBy (fun r : ACLRule => r.rulePrefix.length) (sort rules)

/-- One such order: among rules of equal length the one in the list first. -/
def sortByLength (rules : List ACLRule) : List ACLRule :=
  rules.insertionSort fun r s => s.rulePrefix.length ≤ r.rulePrefix.length

theorem sortByLength_orders : OrdersRules sortByLength where
  perm rules := List.perm_insertionSort _ rules
  falling rules := by
    let r : ACLRule → ACLRule → Prop := fun a b => b.rulePrefix.length ≤ a.rulePrefix.length
    have : Std.Total r := ⟨fun a b => Nat.le_total _ _⟩
    have : IsTrans ACLRule r := ⟨fun a b c hab hbc => Nat.le_trans hbc hab⟩
    exact List.pairwise_insertionSort r rules

/-- The test of `check_permission` for one rule. -/
def ACLRule.matches (key : Bytes) (r : ACLRule) : Bool :=
  r.rulePrefix = ascii "*" || r.rulePrefix.isPrefixOf key

/-- The permission the hook reads from the body of a rule. -/
def grantedBy (body : Bytes) : Permission :=
  let grant (word : String) (perm : Permission) (granted : Permission) :=
    if contains (ascii word) body then granted.union perm else granted
  grant "ADMIN" .admin (grant "WRITE" .write (grant "READ" .read .none))

/-- The rule that a key names, if it names one. -/
def aclTarget (key : Bytes) : Option (UInt32 × Bytes) :=
  if (ascii "sys:u:").isPrefixOf key then none
  else if (ascii "sys:acl:").isPrefixOf key then
    let sub := key.drop 8
    (sub.findIdx? (· = 0x3a)).bind fun colon =>
      (stoul (sub.take colon)).map fun uid => (UInt32.ofNat uid, sub.drop (colon + 1))
  else none

/-- The uid in a key `sys:u:{uid}`. -/
def userTarget (key : Bytes) : Option UInt32 :=
  if (ascii "sys:u:").isPrefixOf key then (stoul (key.drop 6)).map UInt32.ofNat else none

/-- The name and the public key the hook reads from a body, if both are there. -/
def identityIn (l : Lite3) (body : Bytes) : Option (Bytes × Bytes) :=
  (userBuffer l body).bind fun buf =>
    if buf.length = 0 then none
    else
      let name := (l.getStr buf (ascii "name")).getD []
      let publicKey := (l.getStr buf (ascii "public_key")).getD []
      if name.isEmpty || publicKey.isEmpty then none else some (name, publicKey)

/-- `sys:acl:{uid}:{prefix}`. -/
def aclKey (uid : UInt32) (rulePrefix : Bytes) : Bytes :=
  ascii "sys:acl:" ++ decimalNat uid.toNat ++ ascii ":" ++ rulePrefix

theorem aclTarget_length {key rulePrefix : Bytes} {uid : UInt32}
    (h : aclTarget key = some (uid, rulePrefix)) : rulePrefix.length ≤ key.length := by
  unfold aclTarget at h
  split at h
  · cases h
  · split at h
    · obtain ⟨colon, -, hmap⟩ := Option.bind_eq_some_iff.mp h
      obtain ⟨n, -, heq⟩ := Option.map_eq_some_iff.mp hmap
      cases heq
      simp only [List.length_drop]
      omega
    · cases h

theorem aclTarget_aclKey (uid : UInt32) (rulePrefix : Bytes) :
    aclTarget (aclKey uid rulePrefix) = some (uid, rulePrefix) := by
  have hdrop : (aclKey uid rulePrefix).drop 8 =
      decimalNat uid.toNat ++ (0x3a :: rulePrefix) := by
    have height : (ascii "sys:acl:").length = 8 := by decide
    have hcolon : ascii ":" = [0x3a] := by decide
    rw [aclKey, List.append_assoc, List.append_assoc, ← height, List.drop_left, hcolon,
      List.singleton_append]
  have hfind : (decimalNat uid.toNat ++ (0x3a :: rulePrefix)).findIdx? (· = 0x3a) =
      some (decimalNat uid.toNat).length := by
    have hnone : (decimalNat uid.toNat).findIdx? (· = 0x3a) = none := by
      rw [List.findIdx?_eq_none_iff]
      intro b hb
      have hdigit := decimalNat_isDigit hb
      by_contra hcolon
      obtain rfl : b = 0x3a := by simpa using hcolon
      revert hdigit
      decide
    rw [List.findIdx?_append, hnone]
    simp [List.findIdx?_cons]
  have hacl : (ascii "sys:acl:").isPrefixOf (aclKey uid rulePrefix) = true := by
    rw [List.isPrefixOf_iff_prefix, aclKey, List.append_assoc, List.append_assoc]
    exact List.prefix_append _ _
  have huser : (ascii "sys:u:").isPrefixOf (aclKey uid rulePrefix) = false := by
    rw [Bool.eq_false_iff, ne_eq, List.isPrefixOf_iff_prefix]
    intro hpre
    have hshort := List.prefix_of_prefix_length_le hpre (List.isPrefixOf_iff_prefix.mp hacl)
      (by decide)
    revert hshort
    decide
  rw [aclTarget, huser, hacl, hdrop, if_neg (by simp), if_pos rfl]
  simp only [hfind, Option.bind_some, List.take_left, stoul_decimalNat
    (lt_trans uid.toNat_lt (by decide)), Option.map_some, UInt32.ofNat_toNat]
  rw [← List.singleton_append, ← List.append_assoc]
  congr 2
  exact List.drop_left' (by simp)

namespace CredentialManager

def rules (c : CredentialManager) (uid : UInt32) : List ACLRule := (c.userAcls uid).getD []

def HasRule (c : CredentialManager) (uid : UInt32) (rulePrefix : Bytes) (perm : Permission) : Prop :=
  ⟨rulePrefix, perm⟩ ∈ c.rules uid

/-- No user has a rule for `*` and one for a single byte that grant different permissions. Between
these two the comparator of `set_acl` leaves the order open. -/
def Untied (c : CredentialManager) : Prop :=
  ∀ uid b perm perm', c.HasRule uid (ascii "*") perm → c.HasRule uid [b] perm' → perm = perm'

/-- The lists of rules are sorted and have at most one rule for a prefix. -/
structure Tidy (c : CredentialManager) : Prop where
  falling : ∀ uid, FallingBy (fun r : ACLRule => r.rulePrefix.length) (c.rules uid)
  unique : ∀ uid, ∀ r ∈ c.rules uid, ∀ s ∈ c.rules uid, r.rulePrefix = s.rulePrefix → r = s

section

variable {sort : List ACLRule → List ACLRule} {c c' : CredentialManager} {uid : UInt32}

theorem checkPermission_eq (hinternal : uid ≠ internalUid) (hadmin : uid ≠ adminUid) (key : Bytes) :
    c.checkPermission uid key =
      (((c.rules uid).find? (ACLRule.matches key)).map ACLRule.perm).getD .none := by
  have hnot : ¬ (uid = internalUid ∨ uid = adminUid) := by simp [hinternal, hadmin]
  rw [checkPermission, if_neg hnot, rules]
  cases c.userAcls uid with
  | none => rfl
  | some acls =>
      have htest : (fun r : ACLRule => r.rulePrefix = ascii "*" || r.rulePrefix.isPrefixOf key) =
          ACLRule.matches key := rfl
      simp only [Option.getD_some, htest]
      cases acls.find? (ACLRule.matches key) <;> rfl

theorem mem_setAcl (hsort : OrdersRules sort) (rulePrefix : Bytes) (perm : Permission)
    (other : UInt32) (r : ACLRule) :
    r ∈ (c.setAcl sort uid rulePrefix perm).rules other ↔
      if other = uid then r = ⟨rulePrefix, perm⟩ ∨ (r ∈ c.rules uid ∧ r.rulePrefix ≠ rulePrefix)
      else r ∈ c.rules other := by
  by_cases heq : other = uid
  · subst heq
    rw [if_pos rfl]
    simp only [rules, setAcl, Function.update_self, Option.getD_some, (hsort.perm _).mem_iff,
      List.mem_append, List.mem_filter, List.mem_singleton, decide_eq_true_eq]
    exact or_comm
  · simp only [rules, setAcl, Function.update_of_ne heq, if_neg heq]

/-- `set_acl` updates the map of rules. -/
theorem hasRule_setAcl (hsort : OrdersRules sort) (rulePrefix : Bytes) (perm : Permission)
    (other : UInt32) (otherPrefix : Bytes) (otherPerm : Permission) :
    (c.setAcl sort uid rulePrefix perm).HasRule other otherPrefix otherPerm ↔
      if other = uid ∧ otherPrefix = rulePrefix then otherPerm = perm
      else c.HasRule other otherPrefix otherPerm := by
  rw [HasRule, mem_setAcl hsort]
  by_cases huid : other = uid
  · subst huid
    by_cases hpre : otherPrefix = rulePrefix
    · simp [hpre]
    · simp [hpre, HasRule]
  · simp [huid, HasRule]

theorem Tidy.setAcl (hsort : OrdersRules sort) (h : c.Tidy) (uid : UInt32) (rulePrefix : Bytes)
    (perm : Permission) : (c.setAcl sort uid rulePrefix perm).Tidy := by
  constructor
  · intro other
    by_cases heq : other = uid
    · subst heq
      simp only [rules, CredentialManager.setAcl, Function.update_self, Option.getD_some]
      exact hsort.falling _
    · simp only [rules, CredentialManager.setAcl, Function.update_of_ne heq]
      exact h.falling other
  · intro other r hr s hs hsame
    rw [mem_setAcl hsort] at hr hs
    by_cases heq : other = uid
    · rw [if_pos heq] at hr hs
      rcases hr with rfl | ⟨hr, hrne⟩ <;> rcases hs with rfl | ⟨hs, hsne⟩
      · rfl
      · exact absurd hsame.symm hsne
      · exact absurd hsame hrne
      · exact h.unique uid r hr s hs hsame
    · rw [if_neg heq] at hr hs
      exact h.unique other r hr s hs hsame

theorem Tidy.of_userAcls (h : c.Tidy) (heq : c'.userAcls = c.userAcls) : c'.Tidy := by
  have hrules (uid : UInt32) : c'.rules uid = c.rules uid := by rw [rules, rules, heq]
  constructor
  · intro uid
    rw [hrules]
    exact h.falling uid
  · intro uid
    rw [hrules]
    exact h.unique uid

theorem registerUser_userAcls (c : CredentialManager) (uid : UInt32) (name publicKey : Bytes) :
    (c.registerUser uid name publicKey).userAcls = c.userAcls := by
  rw [registerUser]
  cases c.users uid <;> rfl

theorem Tidy.registerUser (h : c.Tidy) (uid : UInt32) (name publicKey : Bytes) :
    (c.registerUser uid name publicKey).Tidy :=
  h.of_userAcls (registerUser_userAcls c uid name publicKey)

theorem bootstrap_grants (hsort : OrdersRules sort) {rulePrefix : Bytes} {perm : Permission}
    (h : (bootstrap sort).HasRule uid rulePrefix perm) : perm = .admin := by
  rw [bootstrap, hasRule_setAcl hsort] at h
  split at h
  · exact h
  · rw [HasRule, rules, registerUser_userAcls, ← rules, ← HasRule, hasRule_setAcl hsort] at h
    split at h
    · exact h
    · exact absurd h List.not_mem_nil

theorem bootstrap_tidy (hsort : OrdersRules sort) : (bootstrap sort).Tidy := by
  have hinit : init.Tidy := ⟨fun _ => List.Pairwise.nil, fun _ r hr => absurd hr List.not_mem_nil⟩
  have hadmin := (hinit.registerUser adminUid (ascii "admin") (ascii "admin-key")).setAcl hsort
    adminUid (ascii "*") .admin
  exact (hadmin.registerUser internalUid (ascii "internal") (ascii "internal-key")).setAcl hsort
    internalUid (ascii "*") .admin

private theorem matches_unique {key : Bytes} {r s : ACLRule} (hr : r.matches key)
    (hs : s.matches key) (hlen : s.rulePrefix.length = r.rulePrefix.length)
    (htie : r.rulePrefix.length = 1 → (r.rulePrefix = ascii "*" ↔ s.rulePrefix = ascii "*")) :
    s.rulePrefix = r.rulePrefix := by
  have hstar : (ascii "*").length = 1 := by decide
  by_cases hwild : r.rulePrefix = ascii "*"
  · rw [(htie (by rw [hwild, hstar])).mp hwild, hwild]
  · have hwild' : s.rulePrefix ≠ ascii "*" := by
      intro h
      exact hwild ((htie (by rw [← hlen, h, hstar])).mpr h)
    have hr' : r.rulePrefix <+: key := by simpa [ACLRule.matches, hwild] using hr
    have hs' : s.rulePrefix <+: key := by simpa [ACLRule.matches, hwild'] using hs
    rw [List.prefix_iff_eq_take.mp hr', List.prefix_iff_eq_take.mp hs', hlen]

private theorem find?_agree {key : Bytes} (h : c.Tidy) (h' : c'.Tidy)
    (hrules : ∀ r, r ∈ c.rules uid ↔ r ∈ c'.rules uid) {r : ACLRule}
    (hr : (c.rules uid).find? (ACLRule.matches key) = some r)
    (htie : r.rulePrefix.length = 1 → ∀ s ∈ c.rules uid, s.rulePrefix.length = 1 →
      (r.rulePrefix = ascii "*" ↔ s.rulePrefix = ascii "*")) :
    (c'.rules uid).find? (ACLRule.matches key) = some r := by
  refine (h.falling uid).find?_same (h'.falling uid) hrules hr ?_
  intro s hs hmatch hlen
  refine h.unique uid s hs r (List.mem_of_find?_eq_some hr) ?_
  refine matches_unique (List.find?_some hr) hmatch hlen fun hone => htie hone s hs ?_
  rw [hlen, hone]

theorem checkPermission_agree (h : c.Tidy) (h' : c'.Tidy)
    (hrules : ∀ r, r ∈ c.rules uid ↔ r ∈ c'.rules uid)
    (htie : ∀ r ∈ c.rules uid, ∀ s ∈ c.rules uid, r.rulePrefix.length = 1 →
      s.rulePrefix.length = 1 → (r.rulePrefix = ascii "*" ↔ s.rulePrefix = ascii "*"))
    (key : Bytes) : c.checkPermission uid key = c'.checkPermission uid key := by
  by_cases hadmin : uid = internalUid ∨ uid = adminUid
  · rw [checkPermission, checkPermission, if_pos hadmin, if_pos hadmin]
  · obtain ⟨hinternal, hadmin⟩ := not_or.mp hadmin
    rw [checkPermission_eq hinternal hadmin, checkPermission_eq hinternal hadmin]
    cases hr : (c.rules uid).find? (ACLRule.matches key) with
    | some r =>
        rw [find?_agree h h' hrules hr fun hone s hs hone' =>
          htie r (List.mem_of_find?_eq_some hr) s hs hone hone']
    | none =>
        have hnone : (c'.rules uid).find? (ACLRule.matches key) = none := by
          rw [List.find?_eq_none] at hr ⊢
          exact fun s hs => hr s ((hrules s).mpr hs)
        rw [hnone]

theorem checkPermission_agree_of_untied (h : c.Tidy) (h' : c'.Tidy)
    (hrules : ∀ r, r ∈ c.rules uid ↔ r ∈ c'.rules uid) (huntied : c.Untied) (key : Bytes) :
    c.checkPermission uid key = c'.checkPermission uid key := by
  by_cases hadmin : uid = internalUid ∨ uid = adminUid
  · rw [checkPermission, checkPermission, if_pos hadmin, if_pos hadmin]
  obtain ⟨hinternal, hadmin⟩ := not_or.mp hadmin
  rw [checkPermission_eq hinternal hadmin, checkPermission_eq hinternal hadmin]
  have htied {r s : ACLRule} (hr : r ∈ c.rules uid) (hs : s ∈ c.rules uid)
      (hlen : s.rulePrefix.length = r.rulePrefix.length) (hwild : r.rulePrefix = ascii "*") :
      r.perm = s.perm := by
    obtain ⟨b, hb⟩ := List.length_eq_one_iff.mp (hlen.trans (congrArg List.length hwild))
    refine huntied uid b r.perm s.perm ?_ ?_
    · rw [← hwild]
      exact hr
    · rw [← hb]
      exact hs
  cases hr : (c.rules uid).find? (ACLRule.matches key) with
  | none =>
      have hnone : (c'.rules uid).find? (ACLRule.matches key) = none := by
        rw [List.find?_eq_none] at hr ⊢
        exact fun s hs => hr s ((hrules s).mpr hs)
      rw [hnone]
  | some r =>
      have hmem := List.mem_of_find?_eq_some hr
      have hmatch := List.find?_some hr
      cases hs : (c'.rules uid).find? (ACLRule.matches key) with
      | none => exact absurd hmatch (List.find?_eq_none.mp hs r ((hrules r).mp hmem))
      | some s =>
          have hmem' := (hrules s).mpr (List.mem_of_find?_eq_some hs)
          have hmatch' := List.find?_some hs
          have hlen : s.rulePrefix.length = r.rulePrefix.length :=
            Nat.le_antisymm ((h.falling uid).le_found hr hmem' hmatch')
              ((h'.falling uid).le_found hs ((hrules r).mp hmem) hmatch)
          have hperm : r.perm = s.perm := by
            by_cases hwild : r.rulePrefix = ascii "*"
            · exact htied hmem hmem' hlen hwild
            · by_cases hwild' : s.rulePrefix = ascii "*"
              · exact (htied hmem' hmem hlen.symm hwild').symm
              · have heq := matches_unique hmatch hmatch' hlen fun _ =>
                  iff_of_false hwild hwild'
                rw [h.unique uid s hmem' r hmem heq]
          simp [hperm]

theorem hook_of_aclTarget (x : External) {key rulePrefix : Bytes}
    (h : aclTarget key = some (uid, rulePrefix)) (body : Bytes) :
    c.hook x key body = c.setAcl x.sortRules uid rulePrefix (grantedBy body) := by
  unfold aclTarget at h
  split at h
  · cases h
  · rename_i huser
    split at h
    · rename_i hacl
      obtain ⟨colon, hcolon, hmap⟩ := Option.bind_eq_some_iff.mp h
      obtain ⟨n, hn, heq⟩ := Option.map_eq_some_iff.mp hmap
      cases heq
      rw [hook, if_neg huser, if_pos hacl, hookAcl]
      simp only [hcolon, hn]
      rfl
    · cases h

theorem hook_of_userTarget (x : External) {key : Bytes} (h : userTarget key = some uid)
    (body : Bytes) :
    c.hook x key body =
      (identityIn x.lite3 body).elim c fun i => c.registerUser uid i.1 i.2 := by
  unfold userTarget at h
  split at h
  · rename_i huser
    obtain ⟨n, hn, rfl⟩ := Option.map_eq_some_iff.mp h
    rw [hook, if_pos huser, hookUser, hn, identityIn]
    cases hbuf : userBuffer x.lite3 body with
    | none => rfl
    | some buf =>
        simp only [Option.bind_some]
        split
        · rfl
        · split <;> rfl
  · cases h

theorem hook_of_none (x : External) {key : Bytes} (h : aclTarget key = none)
    (h' : userTarget key = none) (body : Bytes) :
    c.hook x key body = c := by
  unfold userTarget at h'
  rw [hook]
  split
  · rename_i huser
    rw [if_pos huser, Option.map_eq_none_iff] at h'
    rw [hookUser, h']
  · rename_i huser
    unfold aclTarget at h
    rw [if_neg huser] at h
    split
    · rename_i hacl
      rw [if_pos hacl] at h
      rw [hookAcl]
      dsimp only at h ⊢
      cases hcolon : (key.drop 8).findIdx? (· = 0x3a) with
      | none => rfl
      | some colon =>
          rw [hcolon, Option.bind_some, Option.map_eq_none_iff] at h
          simp only [h]
    · rfl

theorem hook_userAcls (x : External) {key : Bytes} (h : aclTarget key = none) (body : Bytes) :
    (c.hook x key body).userAcls = c.userAcls := by
  cases htarget : userTarget key with
  | none => rw [hook_of_none x h htarget]
  | some uid =>
      rw [hook_of_userTarget x htarget]
      cases identityIn x.lite3 body with
      | none => rfl
      | some i => exact registerUser_userAcls _ _ _ _

theorem registerUser_of_some {i : UserIdentity}
    (h : c.users uid = some i) (name publicKey : Bytes) : c.registerUser uid name publicKey = c := by
  rw [registerUser, h]

theorem registerUser_of_none (h : c.users uid = none)
    (name : Bytes) {publicKey : Bytes} (hkey : publicKey ≠ []) :
    (c.registerUser uid name publicKey).users =
        Function.update c.users uid (some ⟨uid, name, publicKey⟩) ∧
      (c.registerUser uid name publicKey).keyToUid =
        Function.update c.keyToUid publicKey (some uid) := by
  rw [registerUser, h]
  simp [hkey]

theorem publicKey_ne_nil {l : Lite3} {body : Bytes} {i : Bytes × Bytes}
    (h : identityIn l body = some i) :
    i.2 ≠ [] := by
  obtain ⟨buf, -, h⟩ := Option.bind_eq_some_iff.mp h
  split at h
  · cases h
  · dsimp only at h
    split at h
    · cases h
    · rename_i hboth
      obtain rfl := Option.some.inj h
      intro hnil
      simp at hboth
      exact hboth.2 hnil

end

end CredentialManager

end L3KV
