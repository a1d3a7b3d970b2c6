import L3KV.Engine.LeafContents

/-!
# Readable stores

Every blob of a reachable store represents some content under the dictionary of the store. So what
`get` returns for a key changes only when an operation is applied to that key.
-/

namespace L3KV

open Framework

/-- Every blob represents something under the manager of the store. -/
def Store.Readable (x : External) (st : Store) : Prop :=
  ∀ key b, st.find x key = some b → ∃ content, b.Holds x.zstd st.zstd content

/-- Every blob is as the engine stores it. -/
def Store.Packed (x : External) (st : Store) : Prop :=
  ∀ key b, st.find x key = some b → ∃ content, b.Stores x.zstd st.zstd content

section

variable {x : External} {st : Store}

private theorem setField_eq (l : Lite3) (z : Zstd) (m : ZstdManager) (b : Blob) :
    ∃ blob : Bytes → Blob, (∀ buf, (blob buf).Stores z m buf) ∧ ∀ set, b.setField l z m set =
      (set (if (b.read z m).length = 0 then l.initObject else b.read z m)).map blob := by
  have hread : (b.decompress z m).buf = b.read z m := by
    unfold Blob.decompress Blob.read
    split <;> rfl
  have hplain : (b.decompress z m).compressed = false := by
    unfold Blob.decompress
    split
    · rfl
    · rename_i hplain
      simpa using hplain
  refine ⟨fun buf => Blob.compress z m { b.decompress z m with buf := buf },
    fun buf => Blob.compress_stores hplain rfl, fun set => ?_⟩
  rw [Blob.setField, hread]

private theorem setField_stores {l : Lite3} {z : Zstd} {m : ZstdManager}
    {set : Bytes → Option Bytes} {b b' : Blob} (h : b.setField l z m set = some b') :
    ∃ content, b'.Stores z m content := by
  obtain ⟨blob, hstores, heq⟩ := setField_eq l z m b
  rw [heq] at h
  obtain ⟨content, -, rfl⟩ := Option.map_eq_some_iff.mp h
  exact ⟨content, hstores content⟩

/-- The buffer a patch of the key sets its field in. -/
def Store.patchBase (x : External) (st : Store) (key : Bytes) : Bytes :=
  if (st.get x key adminUid).length = 0 then x.lite3.initObject else st.get x key adminUid

theorem Store.applyPatch_eq (hframed : x.zstd.Framed) {key : Bytes}
    (h : ∀ b, st.find x key = some b → ∃ content, b.Holds x.zstd st.zstd content)
    (set : Bytes → Option Bytes) :
    ∃ blob : Bytes → Blob, (∀ buf, (blob buf).Stores x.zstd st.zstd buf) ∧
      st.applyPatch x key (Blob.setField x.lite3 x.zstd st.zstd set) =
        (set (st.patchBase x key)).map fun buf => st.install x key (blob buf) := by
  have hfrom (start : Blob) (hread : start.read x.zstd st.zstd = st.get x key adminUid) :
      ∃ blob : Bytes → Blob, (∀ buf, (blob buf).Stores x.zstd st.zstd buf) ∧
        (start.setField x.lite3 x.zstd st.zstd set).map (st.install x key) =
          (set (st.patchBase x key)).map fun buf => st.install x key (blob buf) := by
    obtain ⟨blob, hholds, hset⟩ := setField_eq x.lite3 x.zstd st.zstd start
    refine ⟨blob, hholds, ?_⟩
    rw [hset, hread, Option.map_map]
    rfl
  unfold applyPatch
  cases hfind : st.find x key with
  | none => exact hfrom Blob.empty (get_eq_nil hfind).symm
  | some b =>
      by_cases hstart : 0 < b.buf.length
      · simp only [if_pos hstart]
        exact hfrom b (get_eq_read hfind).symm
      · simp only [if_neg hstart]
        refine hfrom Blob.empty ?_
        have hnil : b.buf = [] := List.length_eq_zero_iff.mp (by omega)
        rw [get_eq_read hfind]
        obtain ⟨content, ⟨hplain, -⟩ | ⟨-, -, -, dict, -, hcomp⟩⟩ := h b hfind
        · simp [Blob.read, Blob.empty, hplain, hnil]
        · exact absurd hnil (hframed dict content b.buf hcomp)

theorem Store.applyPatch_holding (hframed : x.zstd.Framed) {key : Bytes}
    (h : ∀ b, st.find x key = some b → ∃ content, b.Holds x.zstd st.zstd content)
    {set : Bytes → Option Bytes} {st' : Store}
    (happly : st.applyPatch x key (Blob.setField x.lite3 x.zstd st.zstd set) = some st') :
    ∃ buf, set (st.patchBase x key) = some buf ∧ st'.Holding x key buf := by
  obtain ⟨blob, hholds, heq⟩ := Store.applyPatch_eq hframed h set
  rw [heq] at happly
  obtain ⟨buf, hset, rfl⟩ := Option.map_eq_some_iff.mp happly
  exact ⟨buf, hset, blob buf, by rw [Store.install_find, if_pos rfl], (hholds buf).1⟩

theorem Store.applyPatch_throws (hframed : x.zstd.Framed) {key : Bytes}
    (h : ∀ b, st.find x key = some b → ∃ content, b.Holds x.zstd st.zstd content)
    {set : Bytes → Option Bytes}
    (happly : st.applyPatch x key (Blob.setField x.lite3 x.zstd st.zstd set) = none) :
    set (st.patchBase x key) = none := by
  obtain ⟨blob, -, heq⟩ := Store.applyPatch_eq hframed h set
  rw [heq] at happly
  exact Option.map_eq_none_iff.mp happly

private theorem Store.keeps_blobs (x : External) {Q : ZstdManager → Blob → Prop}
    (hmono : ∀ {m m' b}, Q m b → m.Follows m' → Q m' b) (hempty : ∀ m, Q m Blob.empty)
    (hoverwrite : ∀ m data, Q (Blob.overwrite x.lite3 x.zstd m data).2
      (Blob.overwrite x.lite3 x.zstd m data).1)
    (hset : ∀ {m set b b'}, Blob.setField x.lite3 x.zstd m set b = some b' → Q m b') :
    Store.Keeps x fun st => ∀ key b, st.find x key = some b → Q st.zstd b := by
  intro st o st' hst happly
  have hpatch {key : Bytes} {set : Bytes → Option Bytes}
      (happly : st.applyPatch x key (Blob.setField x.lite3 x.zstd st.zstd set) = some st') :
      ∀ key b, st'.find x key = some b → Q st'.zstd b := by
    obtain ⟨b', hb', rfl⟩ := Option.map_eq_some_iff.mp happly
    intro other b hfind
    rw [Store.install_find] at hfind
    split at hfind
    · cases hfind
      exact hset hb'
    · exact hst other b hfind
  cases o with
  | put key body =>
      cases happly
      intro other b hfind
      rw [Store.applyPut_find] at hfind
      split at hfind
      · cases hfind
        exact hoverwrite _ _
      · exact hmono (hst other b hfind) (Blob.overwrite_follows _ _ _ _)
  | del key =>
      cases happly
      intro other b hfind
      rw [Store.applyDel_find] at hfind
      split at hfind
      · cases hfind
        exact hempty _
      · exact hst other b hfind
  | patchInt key field value => exact hpatch happly
  | patchStr key field value => exact hpatch happly

theorem Store.keeps_packed (x : External) : Store.Keeps x (Store.Packed x) :=
  Store.keeps_blobs x (fun ⟨content, h⟩ hfollows => ⟨content, h.mono hfollows⟩)
    (fun _ => ⟨[], Blob.empty_stores _ _⟩) (fun _ _ => ⟨_, Blob.overwrite_stores _ _ _ _⟩)
    setField_stores

theorem Store.keeps_readable (x : External) : Store.Keeps x (Store.Readable x) :=
  Store.keeps_blobs x (fun ⟨content, h⟩ hfollows => ⟨content, h.mono hfollows⟩)
    (fun _ => ⟨[], Blob.empty_holds _ _⟩) (fun _ _ => ⟨_, Blob.overwrite_holds _ _ _ _⟩)
    fun h => (setField_stores h).imp fun _ hstores => hstores.1

theorem Store.Reachable.readable (h : st.Reachable x) : st.Readable x := by
  obtain ⟨events, hrun⟩ := h
  refine run_invariant_always (fun _ st => st.Readable x) ?_ ?_ hrun
  · intro key b hfind
    simp [Store.find, Store.init] at hfind
  · intro _ st event st' hst hstep
    cases event with
    | apply o => exact Store.keeps_readable x st o st' hst hstep
    | getMerkleRootHash =>
        have hany (t : MerkleTree) : ({ st with merkle := t } : Store).Readable x := hst
        cases hstep
        exact hany _

/-- A key that keeps its blob keeps what `get` returns. -/
theorem Store.Readable.get_eq {st' : Store} (h : st.Readable x)
    (hfollows : st.zstd.Follows st'.zstd) {key : Bytes}
    (hfind : st'.find x key = st.find x key) :
    st'.get x key adminUid = st.get x key adminUid := by
  cases hb : st.find x key with
  | none => rw [get_eq_nil hb, get_eq_nil (hfind.trans hb)]
  | some b =>
      obtain ⟨content, hholds⟩ := h key b hb
      rw [get_eq_read hb, get_eq_read (hfind.trans hb), hholds.read_mono hfollows]

theorem Store.Readable.get_apply_ne {st' : Store} (h : st.Readable x) {o : ShardOp}
    (happly : st.apply x o = some st') {key : Bytes} (hne : key ≠ o.key) :
    st'.get x key adminUid = st.get x key adminUid :=
  h.get_eq (Store.apply_follows happly) (Store.apply_find_ne happly hne)

end

end L3KV
