import L3KV.Engine.LeafContents
import L3KV.Sync.Handlers
import Mathlib.Combinatorics.Pigeonhole

/-!
# The listing of a bucket

A peer answers `SYNC_REQ_BUCKET` with the keys of the bucket and a hash for each. The count in front
is that of all keys, sidecars included, and has 32 bits. The receiver reads as many entries as are
there and asks for the values whose hash is not the one it has.
-/

namespace L3KV

open Framework

namespace Store

variable {x : External}

def withKeys (x : External) (keys : List Bytes) : Store :=
  keys.foldl (fun st key => st.applyPut x key [1]) (init x)

private theorem withKeys_find (x : External) (keys : List Bytes) (key : Bytes) :
    (withKeys x keys).find x key ≠ none ↔ key ∈ keys := by
  have hfold (st : Store) : (keys.foldl (fun st key => st.applyPut x key [1]) st).find x key ≠ none ↔
      key ∈ keys ∨ st.find x key ≠ none := by
    induction keys generalizing st with
    | nil => simp
    | cons first keys ih =>
        rw [List.foldl_cons, ih, applyPut_find]
        by_cases hkey : key = first
        · simp [hkey]
        · simp [hkey]
  rw [withKeys, hfold]
  simp [find, init]

private theorem withKeys_reachable (x : External) (keys : List Bytes) :
    (withKeys x keys).Reachable x := by
  have hfold {st : Store} (h : st.Reachable x) :
      (keys.foldl (fun st key => st.applyPut x key [1]) st).Reachable x := by
    induction keys generalizing st with
    | nil => exact h
    | cons key keys ih => exact ih (keeps_reachable x st (.put key [1]) _ h rfl)
  exact hfold (reachable_init x)

private theorem withKeys_listing {keys : List Bytes} (hkeys : keys.Nodup) {bucket : UInt32}
    (hbucket : ∀ key ∈ keys, (bucketOf x.xxh3 key : Nat) = bucket.toNat) :
    (((withKeys x keys).bucketKeys x bucket).map Prod.fst).Perm keys := by
  have hsound := (withKeys_reachable x keys).sound
  refine (List.perm_ext_iff_of_nodup (hsound.bucketKeys_nodup bucket) hkeys).mpr fun key => ?_
  rw [← withKeys_find x keys key]
  simp only [List.mem_map, Prod.exists, exists_and_right, exists_eq_right, hsound.mem_bucketKeys]
  constructor
  · rintro ⟨_, b, hb, -⟩
    simp [hb]
  · intro hthere
    obtain ⟨b, hb⟩ := Option.ne_none_iff_exists'.mp hthere
    exact ⟨_, b, hb, hbucket key ((withKeys_find x keys key).mp hthere), rfl⟩

end Store

private theorem decode_listing {x : External} {e : Engine} {bucket : UInt32} (me : NodeID)
    (hshort : ∀ entry ∈ (e.getBucketKeys x bucket).2, entry.1.length < 2 ^ 16) :
    decode ((onReqBucket x e bucket).2.encode me) =
      (me, .message (.repBucket bucket (UInt32.ofNat (e.getBucketKeys x bucket).2.length)
        (((e.getBucketKeys x bucket).2.filter fun entry => !isMetaKey entry.1).take
          ((e.getBucketKeys x bucket).2.length % 2 ^ 32)))) := by
  have hfits : (onReqBucket x e bucket).2.Fits :=
    fun entry hentry => hshort entry (List.mem_filter.mp hentry).1
  rw [decode_encode me hfits]
  simp only [onReqBucket, SyncMessage.received, UInt32.toNat_ofNat']

/-- The pairs of a listing come back from the payload without the sidecars, in order, unless the
count has wrapped below their number. -/
theorem listing_round_trip_iff (x : External) (e : Engine) (me : NodeID) (bucket : UInt32)
    (hshort : ∀ entry ∈ (e.getBucketKeys x bucket).2, entry.1.length < 2 ^ 16) :
    (∃ count, decode ((onReqBucket x e bucket).2.encode me) =
      (me, .message (.repBucket bucket count
        ((e.getBucketKeys x bucket).2.filter fun entry => !isMetaKey entry.1)))) ↔
    ((e.getBucketKeys x bucket).2.filter fun entry => !isMetaKey entry.1).length ≤
      (e.getBucketKeys x bucket).2.length % 2 ^ 32 := by
  rw [decode_listing me hshort]
  constructor
  · rintro ⟨count, h⟩
    simp only [Prod.mk.injEq, Decoded.message.injEq, SyncMessage.repBucket.injEq, true_and] at h
    exact (List.take_eq_self_iff _).mp h.2
  · intro h
    exact ⟨_, by rw [List.take_of_length_le h]⟩

/-- An engine that has nothing else to do. -/
def Engine.holding (st : Store) : Engine := ⟨st, fun _ => [], HybridLogicalClock.init 1, LogFile.openAt []⟩

private theorem Engine.holding_listing (x : External) (st : Store) (bucket : UInt32) :
    ((holding st).getBucketKeys x bucket).2 = st.bucketKeys x bucket := by
  rw [getBucketKeys_idle fun _ => rfl]
  rfl

/-- A key and a sidecar. -/
theorem listing_round_trip_sidecar :
    let x := External.reference fun _ => 0
    let e := Engine.holding (Store.withKeys x [ascii "k", ascii "k:meta"])
    ∃ count, decode ((onReqBucket x e 0).2.encode 1) =
      (1, .message (.repBucket 0 count [(ascii "k", 0)])) := by
  intro x e
  have hshort : ∀ entry ∈ (e.getBucketKeys x 0).2, entry.1.length < 2 ^ 16 := by decide +kernel
  have hlisted : ((e.getBucketKeys x 0).2.filter fun entry => !isMetaKey entry.1) =
      [(ascii "k", 0)] := by decide +kernel
  rw [← hlisted]
  exact (listing_round_trip_iff x e 1 0 hshort).mpr (by decide +kernel)

/-- A number in six bytes, and a last byte that no sidecar's key ends in. -/
private def numberedKey (n : Nat) : Bytes := leBytes 6 n ++ [0]

private theorem numberedKey_length (n : Nat) : (numberedKey n).length = 7 := by
  rw [numberedKey, List.length_append, leBytes_length, List.length_singleton]

private theorem numberedKey_not_meta (n : Nat) : isMetaKey (numberedKey n) = false := by
  rw [isMetaKey, Bool.eq_false_iff, ne_eq, List.isSuffixOf_iff_suffix]
  rintro ⟨front, hfront⟩
  have hlast := congrArg List.getLast? hfront
  have hmeta : (ascii ":meta").getLast? = some 97 := by decide
  rw [numberedKey, List.getLast?_append, List.getLast?_append, hmeta] at hlast
  exact absurd hlast (by simp)

private theorem exists_bucket (xxh3 : Bytes → UInt64) {n : Nat} (hn : 65536 * n ≤ 256 ^ 6) :
    ∃ (bucket : UInt32) (numbers : List Nat), numbers.length = n ∧
      (numbers.map numberedKey).Nodup ∧
      ∀ key ∈ numbers.map numberedKey, (bucketOf xxh3 key : Nat) = bucket.toNat := by
  have hcard : (Finset.univ : Finset (Fin 65536)).card * n ≤ (Finset.range (256 ^ 6)).card := by
    rw [Finset.card_univ, Fintype.card_fin, Finset.card_range]
    exact hn
  obtain ⟨bucket, -, hfiber⟩ := Finset.exists_le_card_fiber_of_mul_le_card_of_maps_to
    (f := fun k => bucketOf xxh3 (numberedKey k)) (fun _ _ => Finset.mem_univ _)
    Finset.univ_nonempty hcard
  obtain ⟨numbers, hsubset, hnumbers⟩ := Finset.exists_subset_card_eq hfiber
  have hmem {k : Nat} (hk : k ∈ numbers) : k < 256 ^ 6 ∧ bucketOf xxh3 (numberedKey k) = bucket := by
    have := Finset.mem_filter.mp (hsubset hk)
    exact ⟨Finset.mem_range.mp this.1, this.2⟩
  refine ⟨UInt32.ofNat bucket, numbers.toList, by rw [Finset.length_toList, hnumbers], ?_, ?_⟩
  · refine List.Nodup.map_on (fun a ha b hb hab => ?_) numbers.nodup_toList
    have hwords := List.append_cancel_right hab
    rw [← leValue_leBytes (hmem (Finset.mem_toList.mp ha)).1,
      ← leValue_leBytes (hmem (Finset.mem_toList.mp hb)).1, hwords]
  · intro key hkey
    obtain ⟨k, hk, rfl⟩ := List.mem_map.mp hkey
    have hlt : (bucket : Nat) < 2 ^ 32 := bucket.isLt.trans (by decide)
    rw [(hmem (Finset.mem_toList.mp hk)).2, UInt32.toNat_ofNat', Nat.mod_eq_of_lt hlt]

/-- With `2 ^ 32` keys in a bucket the count is zero, and nothing is read. Whatever the hash is, there
is a bucket into which so many keys of seven bytes can be put. -/
theorem listing_count_wraps : {x : External | ∃ (bucket : UInt32) (e : Engine), e.store.Reachable x ∧
      (∀ entry ∈ (e.getBucketKeys x bucket).2, entry.1.length = 7) ∧
      ((e.getBucketKeys x bucket).2.filter fun entry => !isMetaKey entry.1).length = 2 ^ 32 ∧
      decode ((onReqBucket x e bucket).2.encode 1) = (1, .message (.repBucket bucket 0 []))} =
    Set.univ := by
  refine Set.eq_univ_of_forall fun x => ?_
  rw [Set.mem_ofPred_eq]
  have hroom : 65536 * 2 ^ 32 ≤ 256 ^ 6 := by decide
  generalize hn : 2 ^ 32 = n at hroom ⊢
  obtain ⟨bucket, numbers, hlength, hnodup, hbucket⟩ := exists_bucket x.xxh3 hroom
  let e := Engine.holding (Store.withKeys x (numbers.map numberedKey))
  have hperm := Store.withKeys_listing hnodup hbucket
  have hlisting : (e.getBucketKeys x bucket).2 = (e.store.bucketKeys x bucket) :=
    Engine.holding_listing x _ bucket
  have hnumbered : ∀ entry ∈ (e.getBucketKeys x bucket).2, ∃ k, numberedKey k = entry.1 := by
    intro entry hentry
    rw [hlisting] at hentry
    obtain ⟨k, -, hk⟩ := List.mem_map.mp (hperm.mem_iff.mp (List.mem_map_of_mem hentry))
    exact ⟨k, hk⟩
  have hseven : ∀ entry ∈ (e.getBucketKeys x bucket).2, entry.1.length = 7 := by
    intro entry hentry
    obtain ⟨k, hk⟩ := hnumbered entry hentry
    rw [← hk, numberedKey_length]
  have hplain : ((e.getBucketKeys x bucket).2.filter fun entry => !isMetaKey entry.1) =
      (e.getBucketKeys x bucket).2 := by
    rw [List.filter_eq_self]
    intro entry hentry
    obtain ⟨k, hk⟩ := hnumbered entry hentry
    rw [← hk, numberedKey_not_meta, Bool.not_false]
  have hall : (e.getBucketKeys x bucket).2.length = n := by
    have hcount := hperm.length_eq
    rw [List.length_map, List.length_map, hlength] at hcount
    rw [hlisting]
    exact hcount
  refine ⟨bucket, e, Store.withKeys_reachable x _, hseven, by rw [hplain, hall], ?_⟩
  have hshort : ∀ entry ∈ (e.getBucketKeys x bucket).2, entry.1.length < 2 ^ 16 := by
    intro entry hentry
    rw [hseven entry hentry]
    decide
  rw [decode_listing 1 hshort, hplain, hall, ← hn, Nat.mod_self, List.take_zero]
  rfl

/-- XXH3 does not collide on these byte strings, and gives for none of them the zero that stands for
no value. -/
structure NoCollisionOn (xxh3 : Bytes → UInt64) (values : Set Bytes) : Prop where
  injective : Set.InjOn xxh3 values
  nonzero : ∀ value ∈ values, xxh3 value ≠ 0

section

variable {x : External} {e e' : Engine} {bucket count : UInt32} {entries : List (Bytes × UInt64)}
  {key : Bytes} {hash : UInt64}

private theorem mem_listing (hidle : e'.Idle) (hreachable : e'.store.Reachable x)
    (hlisting : (onReqBucket x e' bucket).2 = .repBucket bucket count entries)
    (hkey : (key, hash) ∈ entries) :
    ∃ b, e'.store.find x key = some b ∧ hash = x.xxh3 b.buf := by
  simp only [onReqBucket, Engine.getBucketKeys_idle hidle, SyncMessage.repBucket.injEq] at hlisting
  rw [← hlisting.2.2] at hkey
  obtain ⟨b, hb, -, hhash⟩ := hreachable.sound.mem_bucketKeys.mp (List.mem_filter.mp hkey).1
  exact ⟨b, hb, hhash⟩

private theorem getVal_mem_iff (hidle : e'.Idle) (hreachable : e'.store.Reachable x)
    (hlisting : (onReqBucket x e' bucket).2 = .repBucket bucket count entries)
    (hkey : (key, hash) ∈ entries) :
    .getVal key ∈ onRepBucket x e entries ↔ localHash x e key ≠ hash := by
  obtain ⟨b, hb, hhash⟩ := mem_listing hidle hreachable hlisting hkey
  simp only [onRepBucket, List.mem_map, List.mem_filter, decide_eq_true_eq, Prod.exists,
    SyncMessage.getVal.injEq]
  constructor
  · rintro ⟨_, other, ⟨hother, hne⟩, rfl⟩
    obtain ⟨b', hb', hhash'⟩ := mem_listing hidle hreachable hlisting hother
    rw [hb] at hb'
    cases hb'
    rwa [hhash, ← hhash']
  · intro hne
    exact ⟨key, hash, ⟨hkey, hne⟩, rfl⟩

end

/-- Libraries whose hash is the value as a number, and one. -/
private def countingX : External := External.reference fun value => UInt64.ofNat (leValue value + 1)

private theorem countingX_pair (a b : UInt8) : NoCollisionOn countingX.xxh3 {[a], [b]} := by
  have hhash (c : UInt8) : (countingX.xxh3 [c]).toNat = c.toNat + 1 := by
    have hc := c.toNat_lt
    change (UInt64.ofNat (c.toNat + 256 * 0 + 1)).toNat = c.toNat + 1
    rw [UInt64.toNat_ofNat']
    omega
  have hone {value : Bytes} (hvalue : value ∈ ({[a], [b]} : Set Bytes)) : ∃ c, value = [c] := by
    rcases hvalue with rfl | rfl
    · exact ⟨a, rfl⟩
    · exact ⟨b, rfl⟩
  constructor
  · intro value hvalue other hother heq
    obtain ⟨c, rfl⟩ := hone hvalue
    obtain ⟨d, rfl⟩ := hone hother
    have hnat := congrArg UInt64.toNat heq
    rw [hhash, hhash] at hnat
    rw [UInt8.toNat_inj.mp (by omega : c.toNat = d.toNat)]
  · intro value hvalue hzero
    obtain ⟨c, rfl⟩ := hone hvalue
    have hnat := congrArg UInt64.toNat hzero
    rw [hhash] at hnat
    exact absurd hnat (Nat.succ_ne_zero _)

end L3KV
