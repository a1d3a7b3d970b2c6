import L3KV.Engine.ReadYourWrites

/-!
# Operations and the contents of a key

What an operation that a shard performs makes of the content of one key, whoever performs it and
when.
-/

namespace L3KV

open Framework

def Spares (key : Bytes) (ops : List ShardOp) : Prop := ∀ o ∈ ops, o.key ≠ key

/-- The operations that may throw. -/
def ShardOp.Patches : ShardOp → Prop
  | .patchInt .. => True
  | .patchStr .. => True
  | _ => False

instance : DecidablePred ShardOp.Patches
  | .put .. => isFalse id
  | .del .. => isFalse id
  | .patchInt .. => isTrue trivial
  | .patchStr .. => isTrue trivial

instance (key : Bytes) (ops : List ShardOp) : Decidable (Spares key ops) :=
  inferInstanceAs (Decidable (∀ o ∈ ops, o.key ≠ key))

section

variable {x : External}

theorem Store.apply_patches {st : Store} {o : ShardOp} (h : st.apply x o = none) : o.Patches := by
  cases o with
  | put key body => cases h
  | del key => cases h
  | patchInt => trivial
  | patchStr => trivial

/-- An operation is applied: what it makes of the content of the key. -/
theorem Store.Shows.applied (hz : x.zstd.Lossless) (hframed : x.zstd.Framed) {st st' : Store}
    (hshort : st.ValuesShort x) {contents : Bytes → Bytes} (h : st.Shows x contents) {o : ShardOp}
    (happly : st.apply x o = some st') (key : Bytes) :
    ∃ contents', st'.Shows x contents' ∧
      contents' key = if o.key = key then o.effect x.lite3 (contents key) else contents key := by
  rcases h.apply hz hframed hshort o with ⟨hnone, -⟩ | ⟨st'', content, happly', hmakes, hshows⟩
  · rw [happly] at hnone
    cases hnone
  · rw [happly] at happly'
    cases happly'
    refine ⟨_, hshows, ?_⟩
    by_cases heq : o.key = key
    · subst heq
      rw [if_pos rfl, Function.update_self, ShardOp.effect, hmakes, Option.getD_some]
    · rw [if_neg heq, Function.update_of_ne (Ne.symm heq)]

theorem Store.Shows.threw (hz : x.zstd.Lossless) (hframed : x.zstd.Framed) {st : Store}
    (hshort : st.ValuesShort x) {contents : Bytes → Bytes} (h : st.Shows x contents) {o : ShardOp}
    (hnone : st.apply x o = none) : o.effect x.lite3 (contents o.key) = contents o.key := by
  rcases h.apply hz hframed hshort o with ⟨-, hmakes⟩ | ⟨_, _, happly, -⟩
  · rw [ShardOp.effect, hmakes, Option.getD_none]
  · rw [hnone] at happly
    cases happly

/-- Every value is stored as it is and is short. -/
def Store.plain (st : Store) : Bool :=
  (List.finRange 8).all fun shard => (st.shards shard).toList.all fun entry =>
    !entry.2.compressed && decide (entry.2.buf.length < 2 ^ 32)

theorem Store.valuesShort_of_plain {x : External} {st : Store} (h : st.plain = true) :
    st.ValuesShort x := by
  rintro key content ⟨b, hb, hholds⟩
  rw [plain, List.all_eq_true] at h
  have hentries := h (routingShard x.xxh3 key) (List.mem_finRange _)
  rw [List.all_eq_true] at hentries
  have hentry := hentries (key, b) (Std.ExtTreeMap.mem_toList_iff_getElem?_eq_some.mpr hb)
  rw [Bool.and_eq_true, Bool.not_eq_true', decide_eq_true_eq] at hentry
  rcases hholds with ⟨-, rfl⟩ | ⟨hcompressed, -⟩
  · exact hentry.2
  · rw [hentry.1] at hcompressed
    cases hcompressed

end

end L3KV
