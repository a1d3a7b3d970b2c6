import Mathlib.Logic.Function.Basic
import L3KV.Framework.Words

/-!
# Users and access rules

`CredentialManager` holds the registered users, the index of their public keys and one list
of prefix rules for each user, kept sorted by falling prefix length.
-/

namespace L3KV

open Framework

def internalUid : UInt32 := 0xFFFFFFFF
def adminUid : UInt32 := 0

/-- `enum class Permission : uint8_t`, a set of bits. -/
structure Permission where
  bits : UInt8
  deriving DecidableEq, Repr

namespace Permission

def none : Permission := ⟨0⟩
def read : Permission := ⟨1⟩
def write : Permission := ⟨2⟩
def admin : Permission := ⟨4⟩

/-- `operator|`. -/
def union (a b : Permission) : Permission := ⟨a.bits ||| b.bits⟩

/-- `operator&`, which the source defines as a test for a common bit. -/
def meets (a b : Permission) : Bool := a.bits &&& b.bits ≠ 0

/-- The guard of `get` and `batch_get`. -/
def canRead (p : Permission) : Bool := p.meets read || p.meets admin

/-- The guard of `put`, `del` and `batch_put`. -/
def canWrite (p : Permission) : Bool := p.meets write || p.meets admin

@[simp] theorem admin_canRead : admin.canRead = true := by decide

@[simp] theorem admin_canWrite : admin.canWrite = true := by decide

end Permission

structure UserIdentity where
  uid : UInt32
  name : Bytes
  publicKey : Bytes
  deriving DecidableEq, Repr

structure ACLRule where
  rulePrefix : Bytes
  perm : Permission
  deriving DecidableEq, Repr

structure CredentialManager where
  keyToUid : Bytes → Option UInt32
  users : UInt32 → Option UserIdentity
  userAcls : UInt32 → Option (List ACLRule)

namespace CredentialManager

def init : CredentialManager := ⟨fun _ => .none, fun _ => .none, fun _ => .none⟩

/-- `register_user`; the first registration of a uid stays. -/
def registerUser (c : CredentialManager) (uid : UInt32) (name publicKey : Bytes) :
    CredentialManager :=
  match c.users uid with
  | some _ => c
  | .none =>
      { c with
        users := Function.update c.users uid (some ⟨uid, name, publicKey⟩)
        keyToUid :=
          if publicKey.isEmpty then c.keyToUid
          else Function.update c.keyToUid publicKey (some uid) }

/-- `get_user_by_key`. An indexed user is registered, so `at` does not throw. -/
def getUserByKey (c : CredentialManager) (publicKey : Bytes) : Option UserIdentity :=
  if publicKey.isEmpty then .none else (c.keyToUid publicKey).bind c.users

/-- `set_acl`. How `std::sort` orders rules of equal prefix length is not specified, so the
sort by falling length is an argument. -/
def setAcl (sort : List ACLRule → List ACLRule) (c : CredentialManager) (uid : UInt32)
    (rulePrefix : Bytes) (perm : Permission) : CredentialManager :=
  let acls := (c.userAcls uid).getD []
  let kept := acls.filter fun r => r.rulePrefix ≠ rulePrefix
  { c with userAcls := Function.update c.userAcls uid (some (sort (kept ++ [⟨rulePrefix, perm⟩]))) }

def checkPermission (c : CredentialManager) (uid : UInt32) (key : Bytes) : Permission :=
  if uid = internalUid ∨ uid = adminUid then Permission.admin
  else
    match c.userAcls uid with
    | .none => Permission.none
    | some acls =>
        match acls.find? fun r => r.rulePrefix = ascii "*" || r.rulePrefix.isPrefixOf key with
        | .none => Permission.none
        | some r => r.perm

/-- The administrator reads and writes every key, whatever rules there are. -/
@[simp] theorem checkPermission_admin (c : CredentialManager) (key : Bytes) :
    c.checkPermission adminUid key = Permission.admin := by
  simp [checkPermission]

end CredentialManager

end L3KV
