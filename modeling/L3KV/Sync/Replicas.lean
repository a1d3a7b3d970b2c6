import L3KV.Engine.LeafContents
import L3KV.Engine.Merge
import L3KV.Sync.Drill

/-!
# Replicas with the same content

The tree hashes what is stored, and what is stored depends on whether a dictionary had been trained
when it was written. Two engines from which every key reads the same have the same root as long as
neither has ever stored a compressed blob.
-/

namespace L3KV

open Framework

namespace Store

/-- What the event stores is not compressed. -/
def StoresPlain (x : External) (st : Store) : Event → Prop
  | .apply o => ∀ st', st.apply x o = some st' → ∀ b ∈ st'.find x o.key, b.compressed = false
  | .getMerkleRootHash => True

variable {x : External} {st st' : Store}

private theorem plain_of_run {events : List Event}
    (hplain : EveryStep (step x) (init x) events (StoresPlain x))
    (hrun : events.foldlM (step x) (init x) = some st) {key : Bytes} {b : Blob}
    (hfind : st.find x key = some b) : b.compressed = false := by
  refine run_invariant (fun _ st => ∀ key b, st.find x key = some b → b.compressed = false) ?_ ?_
    hplain hrun key b hfind
  · intro key b hfind
    cases hfind
  · intro _ st₁ event st₂ hst hplain hstep key b hfind
    cases event with
    | apply o =>
        by_cases hkey : key = o.key
        · subst hkey
          exact hplain st₂ hstep b hfind
        · rw [apply_find_ne hstep hkey] at hfind
          exact hst key b hfind
    | getMerkleRootHash =>
        have hst₂ : st₂ = { st₁ with merkle := (st₁.merkle.getRootHash x.xxh3).2 } :=
          (Option.some.inj hstep).symm
        have hshards : st₂.shards = st₁.shards := by rw [hst₂]
        rw [find, hshards] at hfind
        exact hst key b hfind

theorem get_plain {events : List Event}
    (hplain : EveryStep (step x) (init x) events (StoresPlain x))
    (hrun : events.foldlM (step x) (init x) = some st) {key : Bytes} {b : Blob}
    (hfind : st.find x key = some b) : st.get x key adminUid = b.buf := by
  rw [get_eq_read hfind, Blob.read, plain_of_run hplain hrun hfind]
  rfl

end Store

/-- Stores with the same entries hold the same keys and read the same. -/
theorem Represents.same_content {x : External} (hx : x.Lawful) {st st' : Store}
    {entries : Bytes → Option Entry} (h : Represents x st entries) (h' : Represents x st' entries)
    (hlen : ∀ key r, entries key = some r → r.value.length < 2 ^ 32) (key : Bytes) :
    (st.find x key = none ↔ st'.find x key = none) ∧
      st.get x key adminUid = st'.get x key adminUid := by
  by_cases hknown : ∃ user, UserKey user ∧ (key = user ∨ key = metaKey user)
  · obtain ⟨user, huser, hkey⟩ := hknown
    have hhere := h.here user huser
    have hhere' := h'.here user huser
    cases hentry : entries user with
    | none =>
        rw [hentry] at hhere hhere'
        rcases hkey with rfl | rfl
        · rw [get_eq_nil hhere.1, get_eq_nil hhere'.1, hhere.1, hhere'.1]
          exact ⟨Iff.rfl, rfl⟩
        · rw [get_eq_nil hhere.2, get_eq_nil hhere'.2, hhere.2, hhere'.2]
          exact ⟨Iff.rfl, rfl⟩
    | some r =>
        rw [hentry] at hhere hhere'
        have hvalue := hhere.get_value hx.zstd (hlen user r hentry)
        have hvalue' := hhere'.get_value hx.zstd (hlen user r hentry)
        have hmeta := hhere.get_meta hx.zstd hx.smallMeta
        have hmeta' := hhere'.get_meta hx.zstd hx.smallMeta
        obtain ⟨⟨b, hb, -⟩, metaVal, -, c, hc, -⟩ := hhere
        obtain ⟨⟨b', hb', -⟩, metaVal', -, c', hc', -⟩ := hhere'
        rcases hkey with rfl | rfl
        · rw [hb, hb', hvalue, hvalue']
          simp
        · rw [hc, hc']
          exact ⟨by simp, Option.some.inj (hmeta.symm.trans hmeta')⟩
  · have hnone : st.find x key = none := by
      by_contra hsome
      exact hknown (h.only key hsome)
    have hnone' : st'.find x key = none := by
      by_contra hsome
      exact hknown (h'.only key hsome)
    rw [get_eq_nil hnone, get_eq_nil hnone', hnone, hnone']
    exact ⟨Iff.rfl, rfl⟩

private theorem Engine.getMerkleRootHash_eq {x : External} {e : Engine} (h : e.store.Sound x) :
    (e.getMerkleRootHash x).1 = scratchL0 x.xxh3 e.store.merkle.leaves 0 := by
  obtain ⟨t, hroot, -⟩ := Engine.getMerkleRootHash_settles h.coherent
  rw [hroot]

/-- Two engines that have only ever stored uncompressed blobs, hold the same keys and read the same
have the same root. -/
theorem same_content_same_root {x : External} {e e' : Engine} {events events' : List Store.Event}
    (hrun : events.foldlM (Store.step x) (Store.init x) = some e.store)
    (hrun' : events'.foldlM (Store.step x) (Store.init x) = some e'.store)
    (hplain : EveryStep (Store.step x) (Store.init x) events (Store.StoresPlain x))
    (hplain' : EveryStep (Store.step x) (Store.init x) events' (Store.StoresPlain x))
    (hkeys : ∀ key, e.store.find x key = none ↔ e'.store.find x key = none)
    (hget : ∀ key, e.store.get x key adminUid = e'.store.get x key adminUid) :
    (e.getMerkleRootHash x).1 = (e'.getMerkleRootHash x).1 := by
  have hsound : e.store.Sound x := Store.Reachable.sound ⟨events, hrun⟩
  have hsound' : e'.store.Sound x := Store.Reachable.sound ⟨events', hrun'⟩
  have hhash (key : Bytes) : e.store.keyHash x key = e'.store.keyHash x key := by
    cases hfind : e.store.find x key with
    | none => rw [Store.keyHash, Store.keyHash, hfind, (hkeys key).mp hfind]
    | some b =>
        have hsome : e'.store.find x key ≠ none := fun hnone => by
          rw [(hkeys key).mpr hnone] at hfind
          cases hfind
        obtain ⟨b', hfind'⟩ := Option.ne_none_iff_exists'.mp hsome
        have hbuf := hget key
        rw [Store.get_plain hplain hrun hfind, Store.get_plain hplain' hrun' hfind'] at hbuf
        rw [Store.keyHash, Store.keyHash, hfind, hfind', Store.hashOf, Store.hashOf, hbuf]
  rw [Engine.getMerkleRootHash_eq hsound, Engine.getMerkleRootHash_eq hsound',
    hsound.leaves_eq hsound' hhash]

private theorem overwrite_plain (m : ZstdManager) (c : UInt8) :
    (Blob.overwrite Lite3.reference Zstd.plain m [c]).1 =
      ⟨storedForm Lite3.reference [c], false, 0⟩ := by
  have hsame (m : ZstdManager) (src : Bytes) : m.compress Zstd.plain src = src := by
    unfold ZstdManager.compress
    split
    · split <;> rfl
    · rfl
  simp [Blob.overwrite, Blob.compress, Blob.empty, hsame]

/-- Two puts in two orders. -/
theorem same_content_same_root_swapped :
    let x := External.reference fun s => UInt64.ofNat s.length
    let put (st : Store) (key : String) (c : UInt8) := st.applyPut x (ascii key) [c]
    let engine (st : Store) := { Engine.openOn x 1 [] with store := st }
    ((engine (put (put (Store.init x) "a" 1) "b" 2)).getMerkleRootHash x).1 =
      ((engine (put (put (Store.init x) "b" 2) "a" 1)).getMerkleRootHash x).1 := by
  intro x put engine
  have hput (st : Store) (key : String) (c : UInt8) (other : Bytes) :
      (put st key c).find x other =
        if other = ascii key then some ⟨storedForm Lite3.reference [c], false, 0⟩
        else st.find x other := by
    rw [← overwrite_plain st.zstd c]
    exact Store.applyPut_find ..
  have hevery (k k' : String) (c c' : UInt8) : EveryStep (Store.step x) (Store.init x)
      [.apply (.put (ascii k) [c]), .apply (.put (ascii k') [c'])] (Store.StoresPlain x) := by
    intro before event after hsplit st _
    have hmem : event ∈ [Store.Event.apply (.put (ascii k) [c]), .apply (.put (ascii k') [c'])] := by
      rw [hsplit]
      simp
    simp only [List.mem_cons, List.not_mem_nil, or_false] at hmem
    rcases hmem with rfl | rfl
    all_goals
      intro st' hst' b hb
      cases hst'
      rw [ShardOp.key, hput, if_pos rfl] at hb
      cases hb
      rfl
  have hfind (key : Bytes) : (put (put (Store.init x) "a" 1) "b" 2).find x key =
      (put (put (Store.init x) "b" 2) "a" 1).find x key := by
    by_cases hkey : key = ascii "b"
    · have hne : key ≠ ascii "a" := by
        rw [hkey]
        decide
      rw [hput, if_pos hkey, hput, if_neg hne, hput, if_pos hkey]
    · rw [hput, if_neg hkey, hput, hput, hput, if_neg hkey]
  refine @same_content_same_root x (engine _) (engine _) _ _ rfl rfl (hevery "a" "b" 1 2)
    (hevery "b" "a" 2 1) (fun key => ?_) fun key => ?_
  · exact (congrArg (· = none) (hfind key)).to_iff
  · cases hb : (put (put (Store.init x) "a" 1) "b" 2).find x key with
    | none => exact (get_eq_nil hb).trans (get_eq_nil ((hfind key).symm.trans hb)).symm
    | some b =>
        have hget := Store.get_plain (hevery "a" "b" 1 2) rfl hb
        have hget' := Store.get_plain (hevery "b" "a" 2 1) rfl ((hfind key).symm.trans hb)
        exact hget.trans hget'.symm

private def pulseExternal : External := External.runLength pulseHash

private def pulseWrite (key : String) (value : Bytes) : Mutation := ⟨⟨1, 0, 1⟩, ascii key, value, false⟩

private def pulseFirst : List Mutation :=
  [pulseWrite "w" pulse, pulseWrite "a" [7], pulseWrite "b" [7], pulseWrite "v" (runOf 102400),
    pulseWrite "c" [7]]

private def pulseLast : List Mutation :=
  [pulseWrite "a" [7], pulseWrite "b" [7], pulseWrite "c" [7], pulseWrite "v" (runOf 102400),
    pulseWrite "w" pulse]

private theorem pulse_perm : pulseFirst.Perm pulseLast :=
  (List.perm_append_singleton _ _).symm.trans (((List.Perm.swap _ _ _).cons _).cons _)

private theorem pulseHash_frame (n : Nat) : pulseHash (0x28 :: leBytes 8 n) = 0 := by
  have hlen : (0x28 :: leBytes 8 n : Bytes).length = 9 := by
    rw [List.length_cons, leBytes_length]
  apply pulseHash_eq_zero
  · omega
  · intro heq
    rw [heq] at hlen
    revert hlen
    decide

private theorem keyHash_quiet {st : Store} {key v : Bytes} (h : st.Holding pulseExternal key v)
    (hlen : v.length ≠ 128) (hne : v ≠ pulse) : st.keyHash pulseExternal key = 0 := by
  obtain ⟨b, hb, hholds⟩ := h
  rw [Store.keyHash, hb]
  rcases hholds with ⟨-, hbuf⟩ | ⟨-, -, -, dict, -, hframe⟩
  · rw [Store.hashOf, hbuf]
    exact pulseHash_eq_zero hlen hne
  · simp only [pulseExternal, External.runLength, Zstd.runLength,
      Option.ite_none_right_eq_some] at hframe
    rw [Store.hashOf, ← Option.some.inj hframe.2]
    exact pulseHash_frame v.length

private theorem pulseFirst_value : ∀ m ∈ pulseFirst,
    (m.key = ascii "w" ∧ (m.entry pulseExternal.lite3).value = pulse) ∨
      (m.entry pulseExternal.lite3).value = [7] ∨
      (m.entry pulseExternal.lite3).value = runOf 102400 := by
  have hlong : ((pulseWrite "v" (runOf 102400)).entry pulseExternal.lite3).value = runOf 102400 := by
    simp [Mutation.entry, writtenEntry, pulseWrite, storedForm_runOf]
  simp only [pulseFirst, List.forall_mem_cons]
  exact ⟨.inl ⟨rfl, rfl⟩, .inr (.inl rfl), .inr (.inl rfl), .inr (.inr hlong), .inr (.inl rfl),
    fun _ h => absurd h List.not_mem_nil⟩

private theorem runOf_ne_pulse : (runOf 102400).length ≠ 128 ∧ runOf 102400 ≠ pulse := by
  rw [runOf_length]
  refine ⟨by decide, fun heq => ?_⟩
  have hlengths := congrArg List.length heq
  rw [runOf_length] at hlengths
  revert hlengths
  decide

private theorem keyHash_others {st : Store} {ms : List Mutation} (hms : ∀ m ∈ ms, m ∈ pulseFirst)
    (h : Represents pulseExternal st fun key => mergedEntry pulseExternal.lite3 ms none key)
    (key : Bytes) (hkey : key ≠ ascii "w") : st.keyHash pulseExternal key = 0 := by
  by_cases hknown : ∃ user, UserKey user ∧ (key = user ∨ key = metaKey user)
  · obtain ⟨user, huser, hcase⟩ := hknown
    have hhere := h.here user huser
    cases hentry : mergedEntry pulseExternal.lite3 ms none user with
    | none =>
        rw [hentry] at hhere
        rcases hcase with rfl | rfl
        · rw [Store.keyHash, hhere.1, Store.hashOf]
        · rw [Store.keyHash, hhere.2, Store.hashOf]
    | some r =>
        rw [hentry] at hhere
        obtain ⟨m, hm, hmkey, rfl⟩ := exists_of_mergedEntry hentry
        obtain ⟨hvalue, metaVal, hmeta, hsidecar⟩ := hhere
        rcases hcase with rfl | rfl
        · rcases pulseFirst_value m (hms m hm) with ⟨hw, -⟩ | hseven | hlong
          · exact absurd (hmkey.symm.trans hw) hkey
          · rw [hseven] at hvalue
            exact keyHash_quiet hvalue (by decide) (by decide)
          · rw [hlong] at hvalue
            exact keyHash_quiet hvalue runOf_ne_pulse.1 runOf_ne_pulse.2
        · have hplain : ∀ m ∈ pulseFirst, (m.entry pulseExternal.lite3).stamp = ⟨1, 0, 1⟩ ∧
              (m.entry pulseExternal.lite3).tombstone = false := by
            decide
          have hsmall : ∀ metaVal ∈ metaObject Lite3.reference ⟨1, 0, 1⟩ false,
              metaVal.length ≠ 128 ∧ metaVal ≠ pulse := by decide +kernel
          obtain ⟨hstamp, htombstone⟩ := hplain m (hms m hm)
          rw [hstamp, htombstone] at hmeta
          obtain ⟨hlen, hne⟩ := hsmall metaVal hmeta
          exact keyHash_quiet hsidecar hlen hne
  · exact h.keyHash_zero hknown

private theorem pulseFirst_run : ∃ e, (Engine.openOn pulseExternal 1 []).runCalls pulseExternal
      (fun _ _ => 0) (pulseFirst.map .applyMutation) = some e ∧
    e.store.keyHash pulseExternal (ascii "w") = 100 := by
  have hx : pulseExternal.Lawful := External.runLength_lawful _
  have hfresh := represents_fresh pulseExternal 1
  have hkeys (n : Nat) : ∀ m ∈ pulseFirst.take n, UserKey m.key := by
    have hall : ∀ m ∈ pulseFirst, UserKey m.key := by decide
    exact fun m hm => hall m (List.mem_of_mem_take hm)
  have hshort : ((Engine.openOn pulseExternal 1 []).runCalls pulseExternal (fun _ _ => 0)
      ((pulseFirst.take 3).map .applyMutation)).map (fun e =>
        e.store.find pulseExternal (ascii "w")) = some (some ⟨pulse, false, 0⟩) := by decide +kernel
  obtain ⟨e₃, hrun₃, hfind₃⟩ := Option.map_eq_some_iff.mp hshort
  obtain ⟨e₄, _, hrun₄, hstore₄⟩ := runCalls_mutations_newer hx hfresh (hkeys 3) hrun₃
    (m := pulseWrite "v" (runOf 102400))
    (by decide : UserKey (ascii "v")) (by decide)
  obtain ⟨e₅, _, hrun₅, hstore₅⟩ := runCalls_mutations_newer hx hfresh (hkeys 4) hrun₄
    (m := pulseWrite "c" [7]) (by decide : UserKey (ascii "c")) (by decide)
  refine ⟨e₅, hrun₅, ?_⟩
  have hfind : e₅.store.find pulseExternal (ascii "w") = some ⟨pulse, false, 0⟩ := by
    rw [hstore₅, (commitWrite_spec ..).2.2.2.1 _ (by decide) (by decide), hstore₄,
      (commitWrite_spec ..).2.2.2.1 _ (by decide) (by decide), hfind₃]
  rw [Store.keyHash, hfind]
  decide

private theorem overwrite_pulse {m : ZstdManager} (hm : m.Trained) :
    (Blob.overwrite Lite3.reference Zstd.runLength m pulse).1.buf = frameOf 40 := by
  obtain ⟨hactive, hdict⟩ := hm
  cases m
  cases hactive
  cases hdict
  rfl

private theorem pulseLast_run : ∃ e, (Engine.openOn pulseExternal 1 []).runCalls pulseExternal
      (fun _ _ => 0) (pulseLast.map .applyMutation) = some e ∧
    e.store.keyHash pulseExternal (ascii "w") = 0 := by
  have hx : pulseExternal.Lawful := External.runLength_lawful _
  have hfresh := represents_fresh pulseExternal 1
  have hkeys (n : Nat) : ∀ m ∈ pulseLast.take n, UserKey m.key := by
    have hall : ∀ m ∈ pulseLast, UserKey m.key := by decide
    exact fun m hm => hall m (List.mem_of_mem_take hm)
  have hshort : ((Engine.openOn pulseExternal 1 []).runCalls pulseExternal (fun _ _ => 0)
      ((pulseLast.take 3).map .applyMutation)).map (fun e =>
        decide e.store.zstd.AlmostTrained) = some true := by decide +kernel
  obtain ⟨e₃, hrun₃, halmost⟩ := Option.map_eq_some_iff.mp hshort
  obtain ⟨e₄, metaVal₄, hrun₄, hstore₄⟩ := runCalls_mutations_newer hx hfresh (hkeys 3) hrun₃
    (m := pulseWrite "v" (runOf 102400))
    (by decide : UserKey (ascii "v")) (by decide)
  obtain ⟨-, htrained⟩ := @commitWrite_runOf 102400 pulseHash e₃.store (by decide) (by decide)
    (Or.inr ⟨by decide, of_decide_eq_true halmost⟩) (ascii "v") metaVal₄
  obtain ⟨e₅, _, hrun₅, hstore₅⟩ := runCalls_mutations_newer hx hfresh (hkeys 4) hrun₄
    (m := pulseWrite "w" pulse) (by decide : UserKey (ascii "w")) (by decide)
  refine ⟨e₅, hrun₅, ?_⟩
  have hfind : e₅.store.find pulseExternal (ascii "w") =
      some (Blob.overwrite Lite3.reference Zstd.runLength e₄.store.zstd pulse).1 := by
    rw [hstore₅]
    simp only [Store.commitWrite, pulseWrite, Bool.false_eq_true, if_false, Store.applyPut_find,
      if_neg (metaKey_ne _).symm, if_true]
    rfl
  rw [Store.keyHash, hfind, Store.hashOf, overwrite_pulse (by rw [hstore₄]; exact htrained)]
  exact pulseHash_frame 40

/-- The same five mutations in two orders. Where the run of forty bytes comes first, it is stored
before there is a dictionary. -/
theorem same_content_other_root : ∃ e e' : Engine,
    (Engine.openOn pulseExternal 1 []).runCalls pulseExternal (fun _ _ => 0)
      (pulseFirst.map .applyMutation) = some e ∧
    (Engine.openOn pulseExternal 1 []).runCalls pulseExternal (fun _ _ => 0)
      (pulseLast.map .applyMutation) = some e' ∧
    (∀ key, (e.store.find pulseExternal key = none ↔ e'.store.find pulseExternal key = none) ∧
      e.store.get pulseExternal key adminUid = e'.store.get pulseExternal key adminUid) ∧
    (e.getMerkleRootHash pulseExternal).1 ≠ (e'.getMerkleRootHash pulseExternal).1 := by
  have hx : pulseExternal.Lawful := External.runLength_lawful _
  have hfresh := represents_fresh pulseExternal 1
  have hsame (m : Mutation) : m ∈ pulseFirst ↔ m ∈ pulseLast := pulse_perm.mem_iff
  have hkeys : ∀ m ∈ pulseFirst, UserKey m.key := by decide
  have hstamps : ∀ m ∈ pulseFirst, ∀ m' ∈ pulseFirst, m.key = m'.key →
      m.timestamp = m'.timestamp → m = m' := by
    intro m hm m' hm' hkey _
    exact List.inj_on_of_nodup_map (by decide : (pulseFirst.map Mutation.key).Nodup) hm hm' hkey
  obtain ⟨e, hrun, hhash⟩ := pulseFirst_run
  obtain ⟨e', hrun', hhash'⟩ := pulseLast_run
  obtain ⟨e₁, hrun₁, hrep⟩ := runCalls_mutations hx hfresh pulseFirst hkeys fun _ _ => 0
  obtain ⟨e₂, hrun₂, hrep'⟩ := runCalls_mutations hx hfresh pulseLast
    (fun m hm => hkeys m ((hsame m).mpr hm)) fun _ _ => 0
  obtain rfl : e = e₁ := Option.some.inj (hrun.symm.trans hrun₁)
  obtain rfl : e' = e₂ := Option.some.inj (hrun'.symm.trans hrun₂)
  have hothers := keyHash_others (fun m hm => hm) hrep
  have hothers' := keyHash_others (fun m hm => (hsame m).mpr hm) hrep'
  refine ⟨e, e', hrun, hrun', ?_, ?_⟩
  · rw [← mergedEntry_eq hsame hstamps] at hrep'
    refine hrep.same_content hx hrep' fun key r hr => ?_
    obtain ⟨m, hm, -, rfl⟩ := exists_of_mergedEntry hr
    rcases pulseFirst_value m hm with ⟨-, hvalue⟩ | hvalue | hvalue
    · rw [hvalue]
      decide
    · rw [hvalue]
      decide
    · rw [hvalue, runOf_length]
      decide
  · rw [Engine.getMerkleRootHash_eq hrep.sound, Engine.getMerkleRootHash_eq hrep'.sound,
      hrep.sound.leaves_spike (by decide) hothers, hrep'.sound.leaves_spike (by decide) hothers',
      hhash, hhash']
    exact (root_ne (i := 0) injOn_pulseHash (by decide)).symm

end L3KV
