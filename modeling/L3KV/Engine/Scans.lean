import L3KV.Engine.Listing
import L3KV.Engine.Readable
import L3KV.Store.Scan

/-!
# What a scan of all shards lists

In every state that calls, shard threads and restarts lead to, the scans list each key with the
prefix once, except sidecars and keys without a value.
-/

namespace L3KV

open Framework

/-- A frame made of something is not empty, and decompressing it fails or gives something. -/
def Zstd.Solid (z : Zstd) : Prop :=
  ∀ dict src dst, src ≠ [] → z.compressUsingCDict dict src = some dst →
    dst ≠ [] ∧ ∀ size, z.decompressUsingDDict dict dst size ≠ some []

section

variable {x : External} {st : Store}

private theorem Blob.Stores.read_eq_nil_iff {z : Zstd} (hz : z.Solid) {m : ZstdManager} {b : Blob}
    {content : Bytes} (h : b.Stores z m content) : b.read z m = [] ↔ b.buf = [] := by
  obtain ⟨⟨hplain, -⟩ | ⟨hcompressed, hactive, -, dict, hdict, hcomp⟩, hne⟩ := h
  · simp [Blob.read, hplain]
  · obtain ⟨hbuf, hread⟩ := hz dict content b.buf (hne hcompressed) hcomp
    refine iff_of_false (fun hnil => ?_) hbuf
    rw [Blob.read, if_pos hcompressed, ZstdManager.decompress, if_pos hactive] at hnil
    simp only [hdict] at hnil
    cases hout : z.decompressUsingDDict dict b.buf b.originalSize.toNat with
    | none =>
        rw [hout] at hnil
        exact hbuf hnil
    | some out =>
        rw [hout] at hnil
        exact hread _ (hout.trans (congrArg some hnil))

theorem Store.Packed.withTree (h : st.Packed x) (t : MerkleTree) :
    ({ st with merkle := t } : Store).Packed x := h

def Store.listed (x : External) (st : Store) (pre : Bytes) (shard : Fin 8) : List (Bytes × Bytes) :=
  (st.matching pre shard []).map fun e => (e.1, e.2.read x.zstd st.zstd)

private theorem Store.mem_listed (hz : x.zstd.Solid) (hsound : st.Sound x) (hpacked : st.Packed x)
    (pre : Bytes) (shard : Fin 8) (key value : Bytes) :
    (key, value) ∈ st.listed x pre shard ↔
      routingShard x.xxh3 key = shard ∧ pre <+: key ∧ ¬ ascii ":meta" <:+ key ∧
        st.get x key adminUid = value ∧ value ≠ [] := by
  have hstart (k : Bytes) : (compare [] k).isLE = true := isLE_of_prefix List.nil_prefix
  simp only [Store.listed, Store.matching, List.mem_map, List.mem_filter, Prod.exists, Prod.mk.injEq,
    hsound.mem_shard, Bool.and_eq_true, List.isPrefixOf_iff_prefix, hstart, Store.endsInMeta,
    Bool.not_eq_true', ← Bool.not_eq_true, List.isSuffixOf_iff_suffix, decide_eq_true_eq,
    List.length_pos_iff]
  constructor
  · rintro ⟨_, b, ⟨⟨hshard, hfind⟩, ⟨⟨hpre, -⟩, hmeta⟩, hbuf⟩, rfl, rfl⟩
    obtain ⟨content, hstores⟩ := hpacked _ b hfind
    have hread := hstores.read_eq_nil_iff hz
    exact ⟨hshard, hpre, hmeta, get_eq_read hfind, fun h => hbuf (hread.mp h)⟩
  · rintro ⟨hshard, hpre, hmeta, rfl, hne⟩
    cases hfind : st.find x key with
    | none => exact absurd (get_eq_nil hfind) hne
    | some b =>
        rw [get_eq_read hfind] at hne
        obtain ⟨content, hstores⟩ := hpacked _ b hfind
        have hread := hstores.read_eq_nil_iff hz
        exact ⟨key, b, ⟨⟨hshard, hfind⟩, ⟨⟨hpre, trivial⟩, hmeta⟩, fun h => hne (hread.mpr h)⟩, rfl,
          (get_eq_read hfind).symm⟩

private theorem Store.listed_rising (pre : Bytes) (shard : Fin 8) :
    Rising (st.listed x pre shard) :=
  List.pairwise_map.mpr (matching_rising pre shard [])

end

/-- The scans of all shards, from the beginning and with a limit that no shard exceeds. -/
theorem scans_complete {x : External} {u : Nat → Nat → UInt8} {nodeId : UInt32} {file : Bytes}
    {events : List WriteEvent} {m : Machine} (hz : x.zstd.Solid)
    (hrun : events.foldlM (Machine.writeStep x u)
      (Machine.ofEngine (Engine.openOn x nodeId file)) = some m) (pre : Bytes) (limit : Nat)
    (hlimit : ∀ shard, (m.store.matching pre shard []).length ≤ limit) :
    let entries := m.store.getPrefixEntriesAllShards x pre [] limit
    (∀ key value, (key, value) ∈ entries ↔ pre <+: key ∧ ¬ ascii ":meta" <:+ key ∧
        m.store.get x key adminUid = value ∧ value ≠ []) ∧
      (entries.map Prod.fst).Nodup ∧
      (∀ shard, Rising (entries.filter fun e => routingShard x.xxh3 e.1 = shard)) ∧
      m.store.getPrefixKeysAllShards pre [] limit = entries.map Prod.fst := by
  intro entries
  have hsound : m.store.Sound x :=
    (Store.keeps_sound x).writeRun Store.init_sound (fun _ hst => hst.getRootHash) hrun
  have hpacked : m.store.Packed x := by
    refine (Store.keeps_packed x).writeRun (fun key b hfind => ?_) (fun _ hst => hst.withTree _) hrun
    simp [Store.find, Store.init] at hfind
  have hall {δ : Type} (shard : Fin 8) (out : Bytes × Blob → δ) :
      ((m.store.matching pre shard []).map out).take (max 1 limit) =
        (m.store.matching pre shard []).map out := by
    rw [List.take_of_length_le]
    rw [List.length_map]
    exact le_trans (hlimit shard) (le_max_right 1 limit)
  have hchunk (shard : Fin 8) : m.store.getPrefixChunk x pre shard.val [] limit =
      m.store.listed x pre shard := by
    rw [Store.getPrefixChunk_eq, hall, Store.listed]
  have hkeys (shard : Fin 8) : m.store.shardPrefixKeys pre shard [] limit =
      (m.store.matching pre shard []).map Prod.fst := by
    rw [Store.shardPrefixKeys_eq, hall]
  have hmem (shard : Fin 8) := Store.mem_listed hz hsound hpacked pre shard
  have hentries : entries = (List.finRange 8).flatMap (m.store.listed x pre) := by
    simp only [entries, Store.getPrefixEntriesAllShards, hchunk]
  -- a key is listed by one shard only
  have hapart {i j : Fin 8} (hne : i ≠ j) {e f : Bytes × Bytes}
      (he : e ∈ m.store.listed x pre i) (hf : f ∈ m.store.listed x pre j) :
      routingShard x.xxh3 e.1 ≠ routingShard x.xxh3 f.1 := by
    rw [((hmem i e.1 e.2).mp he).1, ((hmem j f.1 f.2).mp hf).1]
    exact hne
  have hrising (shard : Fin 8) : Rising (m.store.listed x pre shard) :=
    Store.listed_rising pre shard
  refine ⟨fun key value => ?_, ?_, fun shard => ?_, ?_⟩
  · rw [hentries, List.mem_flatMap]
    constructor
    · rintro ⟨shard, -, hin⟩
      exact ((hmem shard key value).mp hin).2
    · intro h
      exact ⟨routingShard x.xxh3 key, List.mem_finRange _, (hmem _ key value).mpr ⟨rfl, h⟩⟩
  · rw [hentries, List.Nodup, List.pairwise_map, List.pairwise_flatMap]
    refine ⟨fun shard _ => (hrising shard).imp fun hlt heq => ?_,
      (List.nodup_finRange 8).imp fun hne e he f hf heq => hapart hne he hf (by rw [heq])⟩
    rw [heq, Std.ReflOrd.compare_self] at hlt
    cases hlt
  · rw [hentries, Rising, List.pairwise_filter, List.pairwise_flatMap]
    refine ⟨fun i _ => (hrising i).imp fun hlt _ _ => hlt,
      (List.nodup_finRange 8).imp fun hne e he f hf hpe hpf => ?_⟩
    rw [decide_eq_true_eq] at hpe hpf
    exact absurd (hpe.trans hpf.symm) (hapart hne he hf)
  · simp only [Store.getPrefixKeysAllShards, hkeys, hentries, Store.listed, List.map_flatMap,
      List.map_map]
    rfl

/-- A sidecar, a deleted key and a key with another first byte are left out. -/
theorem scans_complete_two :
    let x := External.reference fun key => UInt64.ofNat key.length
    let puts := [ShardOp.put (ascii "a2") (ascii "v"), .put (ascii "b") (ascii "v"),
      .put (ascii "a1") (ascii "w"), .put (ascii "a1:meta") (ascii "t"), .put (ascii "a") (ascii "u"),
      .del (ascii "a")]
    ∃ m, (puts.map WriteEvent.apply).foldlM (Machine.writeStep x fun _ _ => 0)
        (Machine.ofEngine (Engine.openOn x 1 [])) = some m ∧
      m.store.getPrefixEntriesAllShards x (ascii "a") [] 2 =
        [(ascii "a1", ascii "w"), (ascii "a2", ascii "v")] ∧
      m.store.getPrefixKeysAllShards (ascii "a") [] 2 = [ascii "a1", ascii "a2"] := by
  intro x puts
  have hsome : ((puts.map WriteEvent.apply).foldlM (Machine.writeStep x fun _ _ => 0)
      (Machine.ofEngine (Engine.openOn x 1 []))).isSome = true := by decide +kernel
  obtain ⟨m, hm⟩ := Option.isSome_iff_exists.mp hsome
  have hran (p : Machine → Prop) (h : ∀ m ∈ (puts.map WriteEvent.apply).foldlM
      (Machine.writeStep x fun _ _ => 0) (Machine.ofEngine (Engine.openOn x 1 [])), p m) : p m :=
    h m hm
  have hsolid : x.zstd.Solid := by
    intro dict src dst hne hcomp
    cases hcomp
  have hscans := scans_complete hsolid hm (ascii "a") 2
    (hran (fun m => ∀ shard, (m.store.matching (ascii "a") shard []).length ≤ 2) (by decide +kernel))
  have hentries := hran (fun m => m.store.getPrefixEntriesAllShards x (ascii "a") [] 2 =
    [(ascii "a1", ascii "w"), (ascii "a2", ascii "v")]) (by decide +kernel)
  refine ⟨m, hm, hentries, ?_⟩
  rw [hscans.2.2.2, hentries]
  rfl

/-- One shard, whatever is in it: a chunk is a beginning of what is to be listed, and pages that
follow each other come to all of it. -/
theorem chunks_page_through (x : External) (st : Store) (pre : Bytes) (shard : Fin 8)
    (startKey : Bytes) (limit : Nat) (hlimit : 1 ≤ limit) :
    ∃ entries : List (Bytes × Blob), Rising entries ∧
      (∀ key b, (key, b) ∈ entries ↔ (st.shards shard)[key]? = some b ∧ pre <+: key ∧
        (compare startKey key).isLE ∧ ¬ ascii ":meta" <:+ key ∧ b.buf ≠ []) ∧
      st.getPrefixChunk x pre shard.val startKey limit =
        (entries.map fun e => (e.1, e.2.read x.zstd st.zstd)).take limit ∧
      st.getPrefixKeys pre shard.val startKey limit = (entries.map Prod.fst).take limit ∧
      ∀ pages, entries.length < pages →
        readPages (fun start => st.getPrefixChunk x pre shard.val start limit)
            (fun e => e.1 ++ [0]) pages startKey =
          some (entries.map fun e => (e.1, e.2.read x.zstd st.zstd)) ∧
        readPages (fun start => st.getPrefixKeys pre shard.val start limit)
            (fun key => key ++ [0]) pages startKey = some (entries.map Prod.fst) := by
  have hmax : max 1 limit = limit := Nat.max_eq_right hlimit
  refine ⟨st.matching pre shard startKey, Store.matching_rising pre shard startKey,
    fun key b => Store.mem_matching, ?_, ?_, fun pages hpages => ⟨?_, ?_⟩⟩
  · rw [Store.getPrefixChunk_eq, hmax]
  · rw [Store.getPrefixKeys_eq, hmax]
  · exact Store.readPages_matching (fun e => (e.1, e.2.read x.zstd st.zstd)) Prod.fst hlimit
      (fun _ => rfl) (fun _ => Store.getPrefixChunk_eq shard) hpages
  · exact Store.readPages_matching Prod.fst id hlimit (fun _ => rfl)
      (fun _ => Store.getPrefixKeys_eq shard) hpages

/-- Two keys of one shard, one a page. -/
theorem chunks_page_through_two :
    let x := External.reference fun _ => 0
    let st := ((Store.init x).applyPut x (ascii "a") (ascii "v")).applyPut x (ascii "b") (ascii "w")
    1 ≤ 1 ∧ st.getPrefixChunk x [] 0 [] 1 = [(ascii "a", ascii "v")] ∧
      readPages (fun start => st.getPrefixChunk x [] 0 start 1) (fun e => e.1 ++ [0]) 3 [] =
        some [(ascii "a", ascii "v"), (ascii "b", ascii "w")] ∧
      readPages (fun start => st.getPrefixKeys [] 0 start 1) (fun key => key ++ [0]) 3 [] =
        some [ascii "a", ascii "b"] := by
  intro x st
  obtain ⟨entries, hrising, hmem, hchunk, -, hpages⟩ :=
    chunks_page_through x st [] firstShard [] 1 (Nat.le_refl 1)
  have hentries : entries = st.matching [] firstShard [] :=
    hrising.ext (Store.matching_rising [] firstShard []) fun e =>
      (hmem e.1 e.2).trans Store.mem_matching.symm
  have hread : entries.map (fun e => (e.1, e.2.read x.zstd st.zstd)) =
      [(ascii "a", ascii "v"), (ascii "b", ascii "w")] := by
    rw [hentries]
    decide +kernel
  have hkeys : entries.map Prod.fst = [ascii "a", ascii "b"] := by
    have hfirst := congrArg (List.map Prod.fst) hread
    rwa [List.map_map] at hfirst
  have htwo : entries.length < 3 := by
    have hlength := congrArg List.length hkeys
    rw [List.length_map] at hlength
    rw [hlength]
    decide
  rw [hread] at hchunk
  rw [hread, hkeys] at hpages
  exact ⟨Nat.le_refl 1, hchunk, hpages 3 htwo⟩

end L3KV
