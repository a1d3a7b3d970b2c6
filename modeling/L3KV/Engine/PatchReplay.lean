import L3KV.Engine.Patches
import L3KV.Engine.Recovery

/-!
# Patches in the log

A patch is logged as the field, a colon and the value, and the callback of the recovery splits
that text at its first colon. The caller's task ends at the first update that throws; the callback
goes on with the next entry.
-/

namespace L3KV

open Framework

/-- The callback does for this entry what a shard thread does for this operation, but that an
exception ends with the entry. -/
def BatchOp.Replays (b : BatchOp) (o : ShardOp) : Prop :=
  ∀ (x : External) (st : Store), st.replay x b = (st.apply x o).getD st

section

variable {call : Call} {o : ShardOp} {field : Bytes}

private theorem findIdx_colon (hfield : 0x3a ∉ field) (value : Bytes) :
    (field ++ ascii ":" ++ value).findIdx? (· = 0x3a) = some field.length := by
  have hnone : field.findIdx? (· = 0x3a) = none := by
    rw [List.findIdx?_eq_none_iff]
    intro b hb
    simp only [decide_eq_false_iff_not]
    rintro rfl
    exact hfield hb
  have hcolon : (ascii ":" ++ value).findIdx? (· = 0x3a) = some 0 := rfl
  rw [List.append_assoc, List.findIdx?_append, hnone, hcolon]
  simp

private theorem drop_colon (value : Bytes) :
    (field ++ ascii ":" ++ value).drop (field.length + 1) = value := by
  rw [List.drop_left' (by simp [ascii])]

private theorem replays_patchStr (hfield : 0x3a ∉ field) (key value : Bytes) :
    (ShardOp.patchStr key field value).logEntry.Replays (.patchStr key field value) := by
  intro x st
  simp only [Store.replay, ShardOp.logEntry, findIdx_colon hfield, drop_colon]
  rw [List.append_assoc, List.take_left]
  rfl

private theorem replays_patchInt (hfield : 0x3a ∉ field) (key : Bytes) (value : Int64) :
    (ShardOp.patchInt key field value).logEntry.Replays (.patchInt key field value) := by
  intro x st
  simp only [Store.replay, ShardOp.logEntry, findIdx_colon hfield, drop_colon, stoll_decimal]
  rw [List.append_assoc, List.take_left]
  rfl

/-- Both entries of a patch are replayed as the updates they stand for. -/
theorem replays_patch (hcall : call.patch? = some (o, field)) (hfield : 0x3a ∉ field) :
    o.logEntry.Replays o ∧ ∀ text, (ShardOp.patchStr (metaKey o.key) field text).logEntry.Replays
      (.patchStr (metaKey o.key) field text) := by
  refine ⟨?_, fun text => replays_patchStr hfield _ _⟩
  cases call with
  | patchInt key name value readings =>
      cases hcall
      exact replays_patchInt hfield _ _
  | patchStr key name value readings =>
      cases hcall
      exact replays_patchStr hfield _ _
  | _ => cases hcall

private theorem not_replays_of_colon (hfield : 0x3a ∈ field) (key value : Bytes) :
    ¬ (ShardOp.patchStr key field value).logEntry.Replays (.patchStr key field value) := by
  obtain ⟨name, rest, rfl, hname⟩ := List.eq_append_cons_of_mem hfield
  -- with a library that rejects this field only, the callback sets one where the call throws
  let l : Lite3 := { Lite3.reference with
    setStr := fun _ other _ => if other = name ++ 0x3a :: rest then none else some [] }
  let x : External := { External.reference fun _ => 0 with lite3 := l }
  have hthrows (other text : Bytes) : (Store.init x).apply x (.patchStr key other text) = none ↔
      other = name ++ 0x3a :: rest := by
    simp only [Store.apply, Store.applyPatchStr, Store.applyPatch, Blob.setStr, Blob.setField,
      Option.map_eq_none_iff]
    exact ite_eq_left_iff.trans (by simp)
  have hentry : (ShardOp.patchStr key (name ++ 0x3a :: rest) value).logEntry =
      (ShardOp.patchStr key name (rest ++ ascii ":" ++ value)).logEntry := by
    have hcolon : ascii ":" = [0x3a] := rfl
    simp [ShardOp.logEntry, hcolon]
  intro h
  have hsame := h x (Store.init x)
  rw [hentry, replays_patchStr hname, (hthrows _ _).mpr rfl] at hsame
  cases hset : (Store.init x).apply x (.patchStr key name (rest ++ ascii ":" ++ value)) with
  | none => simpa using (hthrows _ _).mp hset
  | some st =>
      rw [hset] at hsame
      obtain ⟨b, -, hst⟩ := Option.map_eq_some_iff.mp hset
      have hfind : st.find x key = some b := by
        rw [← hst, Store.install_find, if_pos rfl]
      rw [show st = Store.init x from hsame] at hfind
      have hinit : (Store.init x).find x key = none := by simp [Store.init, Store.find]
      exact absurd (hinit.symm.trans hfind) (by simp)

end

end L3KV
