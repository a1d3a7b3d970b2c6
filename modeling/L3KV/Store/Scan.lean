import L3KV.Framework.OrderedScan
import L3KV.Store.Leaves

/-!
# Prefix scans

`get_prefix_chunk`, `get_prefix_keys` and `get_prefix_keys_all_shards` go through a shard from the
first key that can match to the first that does not. They leave out sidecars and empty values. A
caller that goes on behind the last key it was given comes to everything.
-/

namespace L3KV

open Framework

namespace Store

section

variable (x : External)

/-- `eff_start`: the larger of the two. -/
def effStart (pre startKey : Bytes) : Bytes :=
  if compare startKey pre = .lt then pre else startKey

/-- `it->first.ends_with(":meta")`. -/
def endsInMeta (key : Bytes) : Bool := (ascii ":meta").isSuffixOf key

def getPrefixChunk (st : Store) (pre : Bytes) (shardIdx : Nat) (startKey : Bytes) (limit : Nat) :
    List (Bytes × Bytes) :=
  if h : shardIdx < 8 then
    collectWhile (fun e => pre.isPrefixOf e.1)
      (fun chunk e => !endsInMeta e.1 &&
        (compare startKey e.1 = .lt || chunk.isEmpty && (compare startKey e.1).isLE) &&
        0 < e.2.buf.length)
      (fun e => (e.1, e.2.read x.zstd st.zstd)) limit
      (lowerBound (effStart pre startKey) (st.shards ⟨shardIdx, h⟩).toList) []
  else []

def getPrefixKeys (st : Store) (pre : Bytes) (shardIdx : Nat) (startKey : Bytes) (limit : Nat) :
    List Bytes :=
  if h : shardIdx < 8 then
    collectWhile (fun e => pre.isPrefixOf e.1)
      (fun chunk e => !(e.2.buf.length = 0 || endsInMeta e.1) &&
        (compare startKey e.1 = .lt || chunk.isEmpty && (compare startKey e.1).isLE))
      Prod.fst limit (lowerBound (effStart pre startKey) (st.shards ⟨shardIdx, h⟩).toList) []
  else []

def getPrefixEntriesAllShards (st : Store) (pre startKey : Bytes) (limitPerShard : Nat) :
    List (Bytes × Bytes) :=
  (List.finRange 8).flatMap fun i : Fin 8 => st.getPrefixChunk x pre i.val startKey limitPerShard

/-- The loop in `get_prefix_keys_all_shards` for one shard, which has no test against the start. -/
def shardPrefixKeys (st : Store) (pre : Bytes) (shard : Fin 8) (startKey : Bytes) (limit : Nat) :
    List Bytes :=
  collectWhile (fun e => pre.isPrefixOf e.1)
    (fun _ e => !(e.2.buf.length = 0 || endsInMeta e.1)) Prod.fst limit
    (lowerBound (effStart pre startKey) (st.shards shard).toList) []

def getPrefixKeysAllShards (st : Store) (pre startKey : Bytes) (limitPerShard : Nat) : List Bytes :=
  (List.finRange 8).flatMap fun i => st.shardPrefixKeys pre i startKey limitPerShard

def matching (st : Store) (pre : Bytes) (shard : Fin 8) (startKey : Bytes) : List (Bytes × Blob) :=
  (st.shards shard).toList.filter fun e =>
    pre.isPrefixOf e.1 && (compare startKey e.1).isLE && !endsInMeta e.1 && 0 < e.2.buf.length

end

section

variable {x : External} {st : Store} {pre startKey : Bytes} {limit : Nat}

private theorem toList_rising (m : Std.ExtTreeMap Bytes Blob) : Rising m.toList :=
  Std.ExtTreeMap.ordered_keys_toList

private theorem effStart_isLE (pre startKey key : Bytes) :
    (compare (effStart pre startKey) key).isLE ↔
      (compare pre key).isLE ∧ (compare startKey key).isLE := by
  unfold effStart
  split
  · rename_i hlt
    refine ⟨fun h => ⟨h, Std.TransOrd.isLE_trans (by rw [hlt]; rfl) h⟩, fun h => h.1⟩
  · rename_i hge
    refine ⟨fun h => ⟨Std.TransOrd.isLE_trans ?_ h, h⟩, fun h => h.2⟩
    rw [Std.OrientedOrd.eq_swap (a := pre)]
    cases hcmp : compare startKey pre with
    | lt => exact absurd hcmp hge
    | eq => rfl
    | gt => rfl

private theorem takeWhile_scan (shard : Fin 8) :
    (lowerBound (effStart pre startKey) (st.shards shard).toList).takeWhile
        (fun e => pre.isPrefixOf e.1) =
      (st.shards shard).toList.filter fun e => pre.isPrefixOf e.1 && (compare startKey e.1).isLE := by
  rw [takeWhile_lowerBound (toList_rising _) fun key => pre.isPrefixOf key]
  · apply List.filter_congr
    intro e _
    rw [Bool.eq_iff_iff, Bool.and_eq_true, Bool.and_eq_true, effStart_isLE]
    constructor
    · rintro ⟨hpre, -, hstart⟩
      exact ⟨hpre, hstart⟩
    · rintro ⟨hpre, hstart⟩
      exact ⟨hpre, isLE_of_prefix (List.isPrefixOf_iff_prefix.mp hpre), hstart⟩
  · intro a b ha hab hb
    rw [List.isPrefixOf_iff_prefix] at hb ⊢
    exact prefix_of_isLE ((effStart_isLE pre startKey a).mp ha).1 hab hb

private theorem scan_eq {δ : Type} {keep : List δ → Bytes × Blob → Bool} {out : Bytes × Blob → δ}
    (shard : Fin 8) (hkeep : ∀ e chunk, (compare startKey e.1).isLE →
      (chunk = [] ∨ compare startKey e.1 = .lt) →
        keep chunk e = (!endsInMeta e.1 && 0 < e.2.buf.length)) :
    collectWhile (fun e => pre.isPrefixOf e.1) keep out limit
        (lowerBound (effStart pre startKey) (st.shards shard).toList) [] =
      ((st.matching pre shard startKey).map out).take (max 1 limit) := by
  have hrising := toList_rising (st.shards shard)
  have hstart (e : Bytes × Blob)
      (he : e ∈ lowerBound (effStart pre startKey) (st.shards shard).toList) :
      (compare startKey e.1).isLE := by
    rw [lowerBound_eq_filter hrising] at he
    exact ((effStart_isLE _ _ _).mp (List.mem_filter.mp he).2).2
  have hhead : ∀ e ∈ (lowerBound (effStart pre startKey) (st.shards shard).toList).head?,
      keep [] e = (!endsInMeta e.1 && 0 < e.2.buf.length : Bool) :=
    fun e he => hkeep e [] (hstart e (List.mem_of_mem_head? he)) (Or.inl rfl)
  have htail : ∀ e ∈ (lowerBound (effStart pre startKey) (st.shards shard).toList).tail, ∀ chunk,
      keep chunk e = (!endsInMeta e.1 && 0 < e.2.buf.length : Bool) := by
    intro e he chunk
    refine hkeep e chunk (hstart e (List.mem_of_mem_tail he)) (Or.inr ?_)
    have hsorted : Rising (lowerBound (effStart pre startKey) (st.shards shard).toList) :=
      hrising.sublist (List.dropWhile_sublist _)
    cases hscan : lowerBound (effStart pre startKey) (st.shards shard).toList with
    | nil =>
        rw [hscan] at he
        cases he
    | cons first rest =>
        rw [hscan] at he hsorted hstart
        exact Std.TransCmp.lt_of_isLE_of_lt (hstart first List.mem_cons_self)
          ((List.pairwise_cons.mp hsorted).1 e he)
  rw [collectWhile_eq hhead htail, takeWhile_scan, List.filter_filter, matching]
  congr 3
  funext e
  rw [Bool.and_comm, Bool.and_assoc, Bool.and_assoc, Bool.and_assoc]

theorem getPrefixChunk_eq (shard : Fin 8) :
    st.getPrefixChunk x pre shard.val startKey limit =
      ((st.matching pre shard startKey).map fun e => (e.1, e.2.read x.zstd st.zstd)).take
        (max 1 limit) := by
  rw [getPrefixChunk, dif_pos shard.isLt]
  refine scan_eq shard fun e chunk hle hfirst => ?_
  rcases hfirst with rfl | hlt
  · simp [hle]
  · simp [hlt]

theorem shardPrefixKeys_eq (shard : Fin 8) :
    st.shardPrefixKeys pre shard startKey limit =
      ((st.matching pre shard startKey).map Prod.fst).take (max 1 limit) := by
  rw [shardPrefixKeys]
  refine scan_eq shard fun e chunk _ _ => ?_
  cases endsInMeta e.1 <;> simp [Nat.pos_iff_ne_zero]

theorem getPrefixKeys_eq (shard : Fin 8) :
    st.getPrefixKeys pre shard.val startKey limit =
      ((st.matching pre shard startKey).map Prod.fst).take (max 1 limit) := by
  rw [getPrefixKeys, dif_pos shard.isLt]
  refine scan_eq shard fun e chunk hle hfirst => ?_
  have hstart :
      (compare startKey e.1 = .lt || chunk.isEmpty && (compare startKey e.1).isLE : Bool) := by
    rcases hfirst with rfl | hlt
    · simp [hle]
    · simp [hlt]
  rw [hstart, Bool.and_true]
  cases endsInMeta e.1 <;> simp [Nat.pos_iff_ne_zero]

theorem matching_rising (pre : Bytes) (shard : Fin 8) (startKey : Bytes) :
    Rising (st.matching pre shard startKey) :=
  (toList_rising _).filter _

theorem mem_matching {shard : Fin 8} {key : Bytes} {b : Blob} :
    (key, b) ∈ st.matching pre shard startKey ↔ (st.shards shard)[key]? = some b ∧
      pre <+: key ∧ (compare startKey key).isLE ∧ ¬ ascii ":meta" <:+ key ∧ b.buf ≠ [] := by
  simp only [matching, List.mem_filter, Std.ExtTreeMap.mem_toList_iff_getElem?_eq_some,
    Bool.and_eq_true, List.isPrefixOf_iff_prefix, Bool.not_eq_true', endsInMeta, decide_eq_true_eq,
    List.length_pos_iff, Bool.eq_false_iff, ne_eq, List.isSuffixOf_iff_suffix, and_assoc]

private theorem matching_next {shard : Fin 8} {before after : List (Bytes × Blob)}
    {last : Bytes × Blob}
    (h : st.matching pre shard startKey = before ++ last :: after) :
    st.matching pre shard (last.1 ++ [0]) = after := by
  have hleast (a : UInt8) : (compare 0 a).isLE :=
    Std.isLE_compare.mpr (UInt8.le_iff_toNat_le.mpr (Nat.zero_le _))
  have hmem : last ∈ st.matching pre shard startKey := by simp [h]
  obtain ⟨-, -, hstart, -⟩ := mem_matching.mp hmem
  have hrising : Rising (st.matching pre shard startKey) := matching_rising pre shard startKey
  rw [h] at hrising
  rw [← hrising.filter_above, ← h, matching, matching, List.filter_filter]
  apply List.filter_congr
  intro e _
  rw [Bool.eq_iff_iff]
  simp only [Bool.and_eq_true, isLE_append_least hleast, decide_eq_true_eq]
  constructor
  · rintro ⟨⟨⟨hpre, hlt⟩, hmeta⟩, hbuf⟩
    exact ⟨hlt, ⟨⟨hpre, Std.TransOrd.isLE_trans hstart (by rw [hlt]; rfl)⟩, hmeta⟩, hbuf⟩
  · rintro ⟨hlt, ⟨⟨hpre, -⟩, hmeta⟩, hbuf⟩
    exact ⟨⟨⟨hpre, hlt⟩, hmeta⟩, hbuf⟩

/-- The loops of a shard from a start on, and what a caller sees who begins each page with the last
key of the page before and a zero byte, until a page is empty. -/
theorem readPages_matching {δ : Type} {page : Bytes → List δ} (out : Bytes × Blob → δ)
    (keyOf : δ → Bytes) {shard : Fin 8} (hlimit : 1 ≤ limit) (hkey : ∀ e, keyOf (out e) = e.1)
    (hpage : ∀ start, page start = ((st.matching pre shard start).map out).take (max 1 limit))
    {pages : Nat} (hpages : (st.matching pre shard startKey).length < pages) :
    readPages page (fun e => keyOf e ++ [0]) pages startKey =
      some ((st.matching pre shard startKey).map out) := by
  rw [Nat.max_eq_right hlimit] at hpage
  refine readPages_eq hlimit hpage (fun start before last after hsplit => ?_) (by simpa using hpages)
  obtain ⟨entries, rest, hentries, rfl, hrest⟩ := List.map_eq_append_iff.mp hsplit
  obtain ⟨e, behind, rfl, rfl, rfl⟩ := List.map_eq_cons_iff.mp hrest
  rw [hkey, matching_next hentries]

end

end Store

end L3KV
