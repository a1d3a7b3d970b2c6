import L3KV.Engine.Deletes
import L3KV.Sync.Handlers

/-!
# Tombstones on the wire

The node that receives a value deletes the key if the metadata that came with it says tombstone.
Where deletes are kept, the sender then has nothing under the key either.
-/

namespace L3KV

open Framework

section

variable {x : External} {st : Store}

private theorem find_of_get {key : Bytes} (h : st.get x key adminUid ≠ []) : st.find x key ≠ none :=
  fun hnone => h (get_eq_nil hnone)

private theorem parseMeta_isTombstone {l : Lite3} {buf : Bytes} :
    (parseMeta l buf).isTombstone = true ↔ buf ≠ [] ∧ (parseWall l buf).isSome ∧
      (parseWord l buf (ascii "l")).isSome ∧ (parseWord l buf (ascii "n")).isSome ∧
      parseFlag l buf = some true := by
  by_cases hnil : buf = []
  · simp [parseMeta, hnil]
  · have hne : buf.isEmpty = false := by simpa using hnil
    rw [parseMeta, hne, parseFields_eq]
    cases parseWall l buf with
    | none => simp
    | some w =>
        cases parseWord l buf (ascii "l") with
        | none => simp
        | some logical =>
            cases parseWord l buf (ascii "n") with
            | none => simp
            | some node =>
                cases parseFlag l buf with
                | none => simp
                | some tombstone => simp [hnil]

private theorem tombstoneFlag_of_parseMeta {l : Lite3} {buf : Bytes}
    (h : (parseMeta l buf).isTombstone = true) : tombstoneFlag l buf = true := by
  obtain ⟨hne, -, -, -, hflag⟩ := parseMeta_isTombstone.mp h
  have hfull : buf.isEmpty = false := by simpa using hne
  obtain ⟨type, htype, hread⟩ := Option.bind_eq_some_iff.mp hflag
  split at hread
  · rename_i hbool
    simp [tombstoneFlag, hfull, htype, hbool, hread]
  · cases hread

/-- In a tidy store the only keys with metadata are user keys. -/
theorem Store.Tidy.userKey (h : st.Tidy x) {key : Bytes}
    (hmeta : st.get x (key ++ ascii ":meta") adminUid ≠ []) : UserKey key := by
  obtain ⟨user, huser, heq | heq⟩ := h.only _ (find_of_get hmeta)
  · exact absurd ⟨key, heq⟩ huser.notMeta
  · rw [huser.metaKey_eq] at heq
    rw [List.append_cancel_right heq]
    exact huser

/-- In every sequential run that respects what is deleted, a key whose metadata says tombstone reads
as empty when no call is under way; so where a received PUT_VAL deletes its key, the key was empty
on the sender. -/
theorem tombstones_read_empty (x : External) (hx : x.Lawful) (hpatch : x.Patchable)
    (u : Nat → Nat → UInt8) (nodeId : UInt32) (events : List Event) (m : Machine)
    (hseq : EveryStep (Machine.step x u) (.ofEngine (Engine.openOn x nodeId [])) events
      fun m event => event.OneByOne m)
    (hrespects : EveryStep (Machine.step x u) (.ofEngine (Engine.openOn x nodeId [])) events
      fun m event => event.RespectsDeletes x m)
    (hrun : (Machine.ofEngine (Engine.openOn x nodeId [])).run x u events = some m)
    (hidle : ∀ t, m.phase t = .idle) :
    (∀ key, ¬ ascii ":meta" <:+ key → m.store.Buried x key → m.store.get x key adminUid = []) ∧
      ∀ me key, ∀ message ∈ onGetVal x m.engine key, ∀ sender key' metaVal value,
        decode (message.encode me) = (sender, .message (.putVal key' metaVal value)) →
        (parseMeta x.lite3 metaVal).isTombstone = true → m.store.get x key' adminUid = [] := by
  obtain ⟨v, hseen, hkept⟩ := deletesKept_of_run hx hpatch hseq hrespects hrun
  obtain ⟨hown, -, -⟩ := hseen.own_eq_none hidle
  have htidy : m.store.Tidy x := hseen.store_eq ▸ hkept.tidy
  have hcalm (key : Bytes) (hkey : UserKey key) (hburied : m.store.Buried x key) :
      m.store.get x key adminUid = [] := by
    rw [← hseen.store_eq] at hburied ⊢
    refine (hkept.calm key hkey (fun work hwork => ?_) hburied).1
    rw [hown] at hwork
    cases hwork
  constructor
  · intro key hsidecar hburied
    by_contra hlive
    obtain ⟨user, huser, rfl | rfl⟩ := htidy.only key (find_of_get hlive)
    · exact hlive (hcalm key huser hburied)
    · exact hsidecar ⟨user, huser.metaKey_eq.symm⟩
  · intro me key message hmessage sender key' metaVal value hdecode htombstone
    simp only [onGetVal] at hmessage
    split at hmessage
    · cases hmessage
    · rename_i hfull
      have hkey : UserKey key := htidy.userKey fun hnil => hfull (by rw [Machine.engine, hnil]; rfl)
      have hsmall := htidy.small key hkey
      rw [hkey.metaKey_eq] at hsmall
      rw [List.mem_singleton.mp hmessage] at hdecode
      have hshort : key.length < 2 ^ 16 := lt_trans hkey.short (by decide)
      have hfits : (SyncMessage.putVal key (m.store.get x (key ++ ascii ":meta") adminUid)
          (m.store.get x key adminUid)).Fits := ⟨hshort, hsmall⟩
      have hsent := (decode_encode me hfits).symm.trans hdecode
      cases hsent
      refine hcalm key hkey ?_
      rw [Store.Buried, hkey.metaKey_eq]
      exact tombstoneFlag_of_parseMeta htombstone

end

private def graveX : External := External.reference fun _ => 0

private def graveStart : Machine := .ofEngine (Engine.openOn graveX 1 [])

/-- A call that waits for its two operations on the first shard. -/
private def callOf (call : Call) : List Event :=
  [.start 0 call, .append 0, .work 0, .shard firstShard, .shard firstShard, .shard firstShard]

private def patchThenDelete : List Event :=
  callOf (.patchInt (ascii "k") (ascii "f") 1 [1]) ++ callOf (.del (ascii "k") adminUid [2])

private def deleteThenPatch : List Event :=
  callOf (.del (ascii "k") adminUid [1]) ++ callOf (.patchInt (ascii "k") (ascii "f") 1 [2])

private theorem grave_idle {events : List Event} {m : Machine}
    (hevents : ∀ event ∈ events, ∀ t ∈ event.thread?, t < 1)
    (hrun : graveStart.run graveX (fun _ _ => 0) events = some m) (hzero : m.phase 0 = .idle)
    (t : Nat) : m.phase t = .idle := by
  by_cases hlt : t < 1
  · rw [show t = 0 by omega, hzero]
  · exact Machine.idle_of_run hevents hrun hlt

theorem tombstones_read_empty_patched :
    ∃ m, graveStart.run graveX (fun _ _ => 0) patchThenDelete = some m ∧
      m.store.Buried graveX (ascii "k") ∧ m.store.get graveX (ascii "k") adminUid = [] := by
  have hthread : ∀ event ∈ patchThenDelete, ∀ t ∈ event.thread?, t < 1 := by
    simp [patchThenDelete, callOf, Event.thread?]
  have hcheck : (graveStart.run graveX (fun _ _ => 0) patchThenDelete).map (fun m =>
      (decide (m.phase 0 = .idle), decide (m.store.Buried graveX (ascii "k")))) =
        some (true, true) := by decide
  obtain ⟨m, hrun, hm⟩ := Option.map_eq_some_iff.mp hcheck
  obtain ⟨hzero, hburied⟩ := Prod.mk.inj hm
  have hrespects : EveryStep (Machine.step graveX fun _ _ => 0) graveStart patchThenDelete
      fun m event => decide (event.RespectsDeletes graveX m) = true :=
    everyStep_of_allSteps (by decide)
  have hempty := tombstones_read_empty graveX (External.reference_lawful _)
    ⟨Lite3.reference_setsText, Zstd.plain_framed⟩ (fun _ _ => 0) 1 patchThenDelete m
    (Machine.oneByOne_of_check hthread (by decide))
    (fun before event after hsplit m hm =>
      of_decide_eq_true (hrespects before event after hsplit m hm)) hrun
    (grave_idle hthread hrun (of_decide_eq_true hzero))
  exact ⟨m, hrun, of_decide_eq_true hburied,
    hempty.1 (ascii "k") (by decide) (of_decide_eq_true hburied)⟩

/-- A patch of a deleted key: the key is live, and the value is sent with the tombstone. -/
theorem patched_tombstone_sent :
    EveryStep (Machine.step graveX fun _ _ => 0) graveStart deleteThenPatch
        (fun m event => event.OneByOne m) ∧
      ∃ m metaVal value, graveStart.run graveX (fun _ _ => 0) deleteThenPatch = some m ∧
        (∀ t, m.phase t = .idle) ∧ m.store.Buried graveX (ascii "k") ∧
        m.store.get graveX (ascii "k") adminUid = value ∧ value ≠ [] ∧
        onGetVal graveX m.engine (ascii "k") = [.putVal (ascii "k") metaVal value] ∧
        (parseMeta graveX.lite3 metaVal).isTombstone = true := by
  have hthread : ∀ event ∈ deleteThenPatch, ∀ t ∈ event.thread?, t < 1 := by
    simp [deleteThenPatch, callOf, Event.thread?]
  have hcheck : (graveStart.run graveX (fun _ _ => 0) deleteThenPatch).map (fun m =>
      let metaVal := m.store.get graveX (ascii "k" ++ ascii ":meta") adminUid
      (decide (m.phase 0 = .idle), decide (m.store.Buried graveX (ascii "k")),
        decide (m.store.get graveX (ascii "k") adminUid ≠ []),
        decide (metaVal ≠ [] ∧ (parseWall graveX.lite3 metaVal).isSome ∧
          (parseWord graveX.lite3 metaVal (ascii "l")).isSome ∧
          (parseWord graveX.lite3 metaVal (ascii "n")).isSome ∧
          parseFlag graveX.lite3 metaVal = some true))) = some (true, true, true, true) := by
    decide +kernel
  obtain ⟨m, hrun, hm⟩ := Option.map_eq_some_iff.mp hcheck
  simp only [Prod.mk.injEq, decide_eq_true_eq] at hm
  obtain ⟨hzero, hburied, hlive, hparsed⟩ := hm
  refine ⟨Machine.oneByOne_of_check hthread (by decide), m, _, _, hrun,
    grave_idle hthread hrun hzero, hburied, rfl, hlive, ?_, parseMeta_isTombstone.mpr hparsed⟩
  exact if_neg fun hnil => hparsed.1 (List.length_eq_zero_iff.mp hnil)

end L3KV
