import Mathlib.Data.List.Infix
import L3KV.Store.AccessRules

/-!
# Which rule answers

After a sequence of `set_acl` calls the rule for the longest prefix of the key should answer, and
the wildcard only if no prefix of the key has a rule. The list is sorted by the length of the prefix
alone, and there the wildcard counts as one byte.
-/

namespace L3KV

open Framework

/-- A call of `set_acl`. -/
structure AclCall where
  uid : UInt32
  rulePrefix : Bytes
  perm : Permission

namespace AclCall

def run (sort : List ACLRule → List ACLRule) (calls : List AclCall) : CredentialManager :=
  calls.foldl (fun c a => c.setAcl sort a.uid a.rulePrefix a.perm) .init

/-- The permission most recently set for a prefix. -/
def latest (calls : List AclCall) (uid : UInt32) (rulePrefix : Bytes) : Option Permission :=
  (calls.reverse.find? fun a => a.uid = uid && a.rulePrefix = rulePrefix).map AclCall.perm

def longest (calls : List AclCall) (uid : UInt32) (key : Bytes) : Option Bytes :=
  key.inits.reverse.find? fun p => (latest calls uid p).isSome

/-- The answer that a longest-prefix match gives. -/
def granted (calls : List AclCall) (uid : UInt32) (key : Bytes) : Permission :=
  (latest calls uid ((longest calls uid key).getD (ascii "*"))).getD .none

/-- The longest prefix with a rule is a single byte, and the wildcard has a rule that grants
something else. -/
def Tied (calls : List AclCall) (uid : UInt32) (key : Bytes) : Prop :=
  ∃ p wild, longest calls uid key = some p ∧ p.length = 1 ∧ latest calls uid (ascii "*") = some wild ∧
    wild ≠ granted calls uid key

section

variable {sort : List ACLRule → List ACLRule} {calls : List AclCall} {uid : UInt32} {key : Bytes}

private theorem latest_concat (calls : List AclCall) (a : AclCall) (uid : UInt32)
    (rulePrefix : Bytes) :
    latest (calls ++ [a]) uid rulePrefix =
      if a.uid = uid ∧ a.rulePrefix = rulePrefix then some a.perm
      else latest calls uid rulePrefix := by
  rw [latest, List.reverse_append, List.reverse_singleton, List.singleton_append, List.find?_cons]
  by_cases h : a.uid = uid ∧ a.rulePrefix = rulePrefix
  · simp [h]
  · have hfalse : (a.uid = uid && a.rulePrefix = rulePrefix : Bool) = false := by
      simpa [Classical.not_and_iff_not_or_not] using h
    rw [hfalse, if_neg h]
    rfl

theorem run_concat (calls : List AclCall) (a : AclCall) :
    run sort (calls ++ [a]) = (run sort calls).setAcl sort a.uid a.rulePrefix a.perm := by
  rw [run, List.foldl_append]
  rfl

private theorem hasRule_run (hsort : OrdersRules sort) (calls : List AclCall) (uid : UInt32)
    (rulePrefix : Bytes) (perm : Permission) :
    (run sort calls).HasRule uid rulePrefix perm ↔ latest calls uid rulePrefix = some perm := by
  induction calls using List.reverseRecOn with
  | nil => simp [run, CredentialManager.HasRule, CredentialManager.rules, CredentialManager.init, latest]
  | append_singleton calls a ih =>
      rw [run_concat, CredentialManager.hasRule_setAcl hsort, latest_concat]
      by_cases h : a.uid = uid ∧ a.rulePrefix = rulePrefix
      · rw [if_pos ⟨h.1.symm, h.2.symm⟩, if_pos h]
        simp [eq_comm]
      · rw [if_neg fun h' => h ⟨h'.1.symm, h'.2.symm⟩, if_neg h, ih]

private theorem pairwise_run {R : ACLRule → ACLRule → Prop}
    (hsort : ∀ rules, (sort rules).Pairwise R)
    (calls : List AclCall) (uid : UInt32) : ((run sort calls).rules uid).Pairwise R := by
  induction calls using List.reverseRecOn with
  | nil => exact List.Pairwise.nil
  | append_singleton calls a ih =>
      rw [run_concat]
      by_cases h : uid = a.uid
      · subst h
        simp only [CredentialManager.rules, CredentialManager.setAcl, Function.update_self,
          Option.getD_some]
        exact hsort _
      · simp only [CredentialManager.rules, CredentialManager.setAcl, Function.update_of_ne h]
        exact ih

private theorem inits_rising (key : Bytes) :
    key.inits.Pairwise fun p q => p.length ≤ q.length := by
  induction key with
  | nil => simp
  | cons b key ih =>
      rw [List.inits_cons, List.pairwise_cons, List.pairwise_map]
      exact ⟨fun _ _ => Nat.zero_le _, ih.imp fun h => Nat.succ_le_succ h⟩

private theorem longest_eq_some {p : Bytes} (h : longest calls uid key = some p) :
    p <+: key ∧ (latest calls uid p).isSome ∧
      ∀ q, q <+: key → (latest calls uid q).isSome → q.length ≤ p.length := by
  have hfalling : FallingBy List.length key.inits.reverse :=
    List.pairwise_reverse.mpr (inits_rising key)
  refine ⟨?_, by simpa using List.find?_some h, fun q hq hrule => ?_⟩
  · exact (List.mem_inits _ _).mp (List.mem_reverse.mp (List.mem_of_find?_eq_some h))
  · exact hfalling.le_found h (List.mem_reverse.mpr ((List.mem_inits _ _).mpr hq)) hrule

private theorem longest_eq_none (h : longest calls uid key = none) {q : Bytes} (hq : q <+: key) :
    latest calls uid q = none := by
  have hnot := List.find?_eq_none.mp h q (List.mem_reverse.mpr ((List.mem_inits _ _).mpr hq))
  simpa using hnot

private theorem matches_iff (key : Bytes) (r : ACLRule) :
    r.matches key ↔ r.rulePrefix = ascii "*" ∨ r.rulePrefix <+: key := by
  simp [ACLRule.matches]

private theorem latest_nil (hne : ∀ a ∈ calls, a.rulePrefix ≠ []) : latest calls uid [] = none := by
  simp only [latest, Option.map_eq_none_iff, List.find?_eq_none, List.mem_reverse]
  intro a ha
  simp [hne a ha]

private theorem found_run (hsort : OrdersRules sort) (hnil : latest calls uid [] = none)
    {r : ACLRule}
    (hfound : ((run sort calls).rules uid).find? (ACLRule.matches key) = some r) :
    latest calls uid r.rulePrefix = some r.perm ∧
      (longest calls uid key = some r.rulePrefix ∨ r.rulePrefix = ascii "*" ∧
        ∀ p ∈ longest calls uid key, p.length = 1) := by
  have hrule : latest calls uid r.rulePrefix = some r.perm :=
    (hasRule_run hsort calls uid _ _).mp (List.mem_of_find?_eq_some hfound)
  refine ⟨hrule, ?_⟩
  have hle {p : Bytes} (hp : p ∈ longest calls uid key) : p.length ≤ r.rulePrefix.length := by
    obtain ⟨hpre, hsome, -⟩ := longest_eq_some hp
    obtain ⟨perm, hperm⟩ := Option.isSome_iff_exists.mp hsome
    exact FallingBy.le_found (pairwise_run hsort.falling calls uid) hfound
      ((hasRule_run hsort calls uid p perm).mpr hperm) ((matches_iff key _).mpr (Or.inr hpre))
  rcases (matches_iff key r).mp (List.find?_some hfound) with hwild | hpre
  · refine Or.inr ⟨hwild, fun p hp => Nat.le_antisymm ?_ ?_⟩
    · have hone := hle hp
      rwa [hwild] at hone
    · obtain ⟨-, hsome, -⟩ := longest_eq_some hp
      refine List.length_pos_iff.mpr fun hempty => ?_
      rw [hempty, hnil] at hsome
      cases hsome
  · refine Or.inl ?_
    cases hlongest : longest calls uid key with
    | none => simp [longest_eq_none hlongest hpre] at hrule
    | some p =>
        obtain ⟨hpre', -, hmost⟩ := longest_eq_some hlongest
        have hlen : p.length = r.rulePrefix.length :=
          Nat.le_antisymm (hle hlongest) (hmost _ hpre (by rw [hrule]; rfl))
        rw [List.prefix_iff_eq_take.mp hpre', List.prefix_iff_eq_take.mp hpre, hlen]

private theorem checkPermission_run (hsort : OrdersRules sort) (hnil : latest calls uid [] = none)
    (hinternal : uid ≠ internalUid) (hadmin : uid ≠ adminUid) (htie : ¬ Tied calls uid key) :
    (run sort calls).checkPermission uid key = granted calls uid key := by
  rw [CredentialManager.checkPermission_eq hinternal hadmin]
  cases hfound : ((run sort calls).rules uid).find? (ACLRule.matches key) with
  | none =>
      have hno {p : Bytes} (hp : p = ascii "*" ∨ p <+: key) : latest calls uid p = none := by
        cases hlatest : latest calls uid p with
        | none => rfl
        | some perm =>
            have hmem := (hasRule_run hsort calls uid p perm).mpr hlatest
            exact absurd ((matches_iff key _).mpr hp) (List.find?_eq_none.mp hfound _ hmem)
      cases hlongest : longest calls uid key with
      | none => rw [granted, hlongest, Option.getD_none, hno (Or.inl rfl)]; rfl
      | some p =>
          obtain ⟨hpre, hsome, -⟩ := longest_eq_some hlongest
          rw [hno (Or.inr hpre)] at hsome
          cases hsome
  | some r =>
      obtain ⟨hrule, hlongest | ⟨hwild, hone⟩⟩ := found_run hsort hnil hfound
      · rw [granted, hlongest, Option.getD_some, hrule]
        rfl
      · rw [hwild] at hrule
        cases hlongest : longest calls uid key with
        | none => rw [granted, hlongest, Option.getD_none, hrule]; rfl
        | some p =>
            by_contra hdiffer
            exact htie ⟨p, r.perm, hlongest, hone p hlongest, hrule, hdiffer⟩

private theorem longest_congr {calls' : List AclCall} (h : latest calls' uid = latest calls uid)
    (key : Bytes) :
    longest calls' uid key = longest calls uid key := by
  simp only [longest, h]

private theorem granted_congr {calls' : List AclCall} (h : latest calls' uid = latest calls uid)
    (key : Bytes) :
    granted calls' uid key = granted calls uid key := by
  rw [granted, granted, longest_congr h, h]

private theorem tied_congr {calls' : List AclCall} (h : latest calls' uid = latest calls uid)
    (key : Bytes) :
    Tied calls' uid key ↔ Tied calls uid key := by
  simp only [Tied, longest_congr h, granted_congr h, h]

/-- An order that the comparator allows: among rules of equal length the wildcard first. -/
def WildFirst (r s : ACLRule) : Prop :=
  s.rulePrefix.length < r.rulePrefix.length ∨ s.rulePrefix.length = r.rulePrefix.length ∧
    (r.rulePrefix = ascii "*" ∨ s.rulePrefix ≠ ascii "*")

instance : DecidableRel WildFirst := fun _ _ =>
  inferInstanceAs (Decidable (_ ∨ _ ∧ (_ ∨ _)))

def sortWildFirst (rules : List ACLRule) : List ACLRule := rules.insertionSort WildFirst

private theorem sortWildFirst_pairwise (rules : List ACLRule) :
    (sortWildFirst rules).Pairwise WildFirst := by
  have : Std.Total WildFirst := by
    refine ⟨fun r s => ?_⟩
    rcases Nat.lt_trichotomy s.rulePrefix.length r.rulePrefix.length with h | h | h
    · exact Or.inl (Or.inl h)
    · by_cases hr : r.rulePrefix = ascii "*"
      · exact Or.inl (Or.inr ⟨h, Or.inl hr⟩)
      · exact Or.inr (Or.inr ⟨h.symm, Or.inr hr⟩)
    · exact Or.inr (Or.inl h)
  have : IsTrans ACLRule WildFirst := by
    refine ⟨fun r s t hrs hst => ?_⟩
    unfold WildFirst at *
    by_cases hs : s.rulePrefix = ascii "*" <;> grind
  exact List.pairwise_insertionSort _ _

private theorem sortWildFirst_orders : OrdersRules sortWildFirst where
  perm rules := List.perm_insertionSort _ rules
  falling rules := (sortWildFirst_pairwise rules).imp fun h => by
    rcases h with h | h
    · exact Nat.le_of_lt h
    · exact Nat.le_of_eq h.1

private theorem checkPermission_tied (hnil : latest calls uid [] = none)
    (hinternal : uid ≠ internalUid)
    (hadmin : uid ≠ adminUid) (htie : Tied calls uid key) :
    (run sortWildFirst calls).checkPermission uid key ≠ granted calls uid key := by
  obtain ⟨p, wild, hlongest, hone, hwild, hdiffer⟩ := htie
  have hmem := (hasRule_run sortWildFirst_orders calls uid _ _).mpr hwild
  have hmatch : ACLRule.matches key ⟨ascii "*", wild⟩ := (matches_iff key _).mpr (Or.inl rfl)
  rw [CredentialManager.checkPermission_eq hinternal hadmin]
  cases hfound : ((run sortWildFirst calls).rules uid).find? (ACLRule.matches key) with
  | none => exact absurd hmatch (List.find?_eq_none.mp hfound _ hmem)
  | some r =>
      obtain ⟨hrule, hanswer⟩ := found_run sortWildFirst_orders hnil hfound
      have hstar : r.rulePrefix = ascii "*" := by
        rcases hanswer with hlongest' | ⟨hstar, -⟩
        · obtain rfl : p = r.rulePrefix := Option.some.inj (hlongest.symm.trans hlongest')
          have hfirst := found_rel (pairwise_run sortWildFirst_pairwise calls uid) hfound hmem hmatch
          rcases hfirst with rfl | hlt | ⟨-, hstar | hother⟩
          · rfl
          · have hstar : (ascii "*").length = 1 := rfl
            exact absurd (hstar.symm.trans_lt (hlt.trans_eq hone)) (Nat.lt_irrefl 1)
          · exact hstar
          · exact absurd rfl hother
        · exact hstar
      rw [hstar, hwild] at hrule
      change r.perm ≠ _
      rw [← Option.some.inj hrule]
      exact hdiffer

end

/-- The longest prefix with a rule answers, whatever order `std::sort` gives to rules of equal
length, and the order of the calls plays no role, if and only if there is no tie with the wildcard. -/
theorem longest_prefix_answers_iff (calls : List AclCall) (hne : ∀ a ∈ calls, a.rulePrefix ≠ [])
    (uid : UInt32) (hinternal : uid ≠ internalUid) (hadmin : uid ≠ adminUid) (key : Bytes) :
    (∀ sort, OrdersRules sort →
      (run sort calls).checkPermission uid key = granted calls uid key ∧
        ∀ sort' calls', OrdersRules sort' → latest calls' uid = latest calls uid →
          (run sort' calls').checkPermission uid key = (run sort calls).checkPermission uid key) ↔
      ¬ Tied calls uid key := by
  have hnil : latest calls uid [] = none := latest_nil hne
  constructor
  · intro h htie
    exact checkPermission_tied hnil hinternal hadmin htie (h _ sortWildFirst_orders).1
  · intro htie sort hsort
    have hanswer := checkPermission_run hsort hnil hinternal hadmin htie
    refine ⟨hanswer, fun sort' calls' hsort' hsame => ?_⟩
    rw [hanswer, checkPermission_run hsort' (by rw [hsame, hnil]) hinternal hadmin
      fun h => htie ((tied_congr hsame key).mp h), granted_congr hsame]

/-- Two prefixes and the wildcard. -/
theorem longest_prefix_answers_iff_long :
    let calls : List AclCall := [⟨5, ascii "*", .read⟩, ⟨5, ascii "da", .write⟩, ⟨5, ascii "d", .none⟩]
    ∀ sort, OrdersRules sort → (run sort calls).checkPermission 5 (ascii "data") = .write := by
  intro calls sort hsort
  have hne : ∀ a ∈ calls, a.rulePrefix ≠ [] := by
    simp only [calls, List.forall_mem_cons]
    exact ⟨by decide, by decide, by decide, by simp⟩
  have htie : ¬ Tied calls 5 (ascii "data") := by
    rintro ⟨p, wild, hlongest, hone, -, -⟩
    obtain rfl : ascii "da" = p := Option.some.inj (Eq.trans (by decide) hlongest)
    exact absurd hone (by decide)
  have hanswer := ((longest_prefix_answers_iff calls hne 5 (by decide) (by decide)
    (ascii "data")).mpr htie sort hsort).1
  exact hanswer.trans (by decide)

/-- The wildcard and then the prefix `d` are set: the wildcard answers for `data`. -/
theorem wildcard_shadows :
    let calls : List AclCall := [⟨5, ascii "*", .read⟩, ⟨5, ascii "d", .write⟩]
    OrdersRules sortByLength ∧ granted calls 5 (ascii "data") = .write ∧
      (run sortByLength calls).checkPermission 5 (ascii "data") = .read ∧
      (run sortByLength calls.reverse).checkPermission 5 (ascii "data") = .write :=
  ⟨sortByLength_orders, by decide, by decide, by decide⟩

end AclCall

end L3KV
