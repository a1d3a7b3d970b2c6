import L3KV.Engine.Pending
import L3KV.Engine.UserOps

/-!
# Stale mutations

`apply_mutation` compares a mutation with the timestamp in the sidecar of its key. Patches write
into the same object, under the name of the field they set. As long as they spare the timestamp,
a mutation that is not newer than the last write of its key changes nothing.
-/

namespace L3KV

open Framework

/-- A text in this field does not let `apply_mutation` read another timestamp: it is not in the way,
or where it is, reading it as a number throws. -/
structure Lite3.SparesStamp (l : Lite3) (field : Bytes) : Prop where
  ne_ts : field ≠ ascii "ts"
  throws : field = ascii "l" ∨ field = ascii "n" →
    ∀ buf text buf', l.setStr buf field text = some buf' → l.getI64 buf' field = none

/-- The sidecar of the key is an object from which `apply_mutation` reads this timestamp, unless it
throws. -/
def Store.Guards (x : External) (st : Store) (key : Bytes) (ts : Timestamp) : Prop :=
  ∃ buf, st.Holding x (metaKey key) buf ∧ buf.length < 2 ^ 32 ∧ Lite3.IsContainer buf ∧
    x.lite3.getType buf (ascii "ts") = some .int64 ∧
    ∀ ts', localTimestamp x.lite3 buf = some ts' → ts' = ts

namespace Event

/-- The process goes on, and a call that begins writes user keys only. -/
def OnUserKeys (l : Lite3) : Event → Prop
  | start _ call => ∀ key ∈ call.keys l, UserKey key
  | restart => False
  | _ => True

/-- A patch that begins spares the timestamp in the sidecar. -/
def SparesStamp (l : Lite3) : Event → Prop
  | start _ call => ∀ field ∈ call.field?, l.SparesStamp field
  | _ => True

end Event

/-- The timestamps of the writes of the key that are performed in the run, in this order. -/
def Machine.written (x : External) (u : Nat → Nat → UInt8) (m : Machine) (events : List Event)
    (key : Bytes) : List Timestamp :=
  stampsFor x.lite3 key (collect (step x u) (performs x) m events)

section

variable {x : External} {st st' : Store} {key : Bytes} {ts : Timestamp} {o : ShardOp}

private theorem isContainer_ne_nil {buf : Bytes} (h : Lite3.IsContainer buf) : buf ≠ [] := by
  obtain ⟨rest, rfl | rfl⟩ := h <;> simp

private theorem localTimestamp_setStr {l : Lite3} (hl : l.SetsText) {buf field text buf' : Bytes}
    (hfield : l.SparesStamp field) (hset : l.setStr buf field text = some buf')
    (hcontainer : Lite3.IsContainer buf) (htype : l.getType buf (ascii "ts") = some .int64)
    {ts : Timestamp} (h : localTimestamp l buf' = some ts) : localTimestamp l buf = some ts := by
  have hlen : buf.length ≠ 0 := by simpa using isContainer_ne_nil hcontainer
  have hlen' : buf'.length ≠ 0 := by
    simpa using isContainer_ne_nil (hl.setStr_container hset hcontainer)
  have hts := hl.setStr_frame hset (Ne.symm hfield.ne_ts)
  have hsame {other : Bytes} {v : Int64} (hother : other = ascii "l" ∨ other = ascii "n")
      (hv : l.getI64 buf' other = some v) : l.getI64 buf other = some v := by
    by_cases heq : other = field
    · subst heq
      rw [hfield.throws hother _ _ _ hset] at hv
      cases hv
    · rw [← hv, (hl.setStr_frame hset heq).2.1]
  simp only [localTimestamp, if_neg hlen', hts.1, hts.2.1, htype, Option.bind_eq_bind,
    Option.bind_some, true_or, if_true] at h
  obtain ⟨w, hw, h⟩ := Option.bind_eq_some_iff.mp h
  obtain ⟨logical, hlogical, h⟩ := Option.bind_eq_some_iff.mp h
  obtain ⟨node, hnode, h⟩ := Option.bind_eq_some_iff.mp h
  simp [localTimestamp, hlen, htype, hw, hsame (Or.inl rfl) hlogical, hsame (Or.inr rfl) hnode,
    ← h]

private theorem guards_of_stamp (hx : x.Lawful) {fields : Bytes → Prop}
    (ho : o.OfUsers x.lite3 fields)
    (happly : st.apply x o = some st') (hkey : UserKey key)
    (hstamp : o.stampFor x.lite3 key = some ts) : st'.Guards x key ts := by
  cases ho with
  | value ho =>
      cases o with
      | put k v =>
          have hne : k ≠ metaKey key := fun heq => hkey.metaKey_ne ho heq.symm
          rw [ShardOp.stampFor, if_neg hne] at hstamp
          cases hstamp
      | _ => cases hstamp
  | @sidecar user ts' tombstone metaVal huser hmeta =>
      rw [ShardOp.stampFor] at hstamp
      split at hstamp
      · rename_i heq
        have hreads := ReadsMeta.of_metaObject hx.lite3 hmeta
        obtain ⟨st₁, happly₁, -, hholding, -⟩ :=
          st.apply_leaves (leaves_metaObject hx.lite3 hmeta (metaKey user))
        rw [happly] at happly₁
        cases happly₁
        refine ⟨metaVal, heq ▸ hholding, ?_, hreads.container, hreads.wall.1, ?_⟩
        · exact lt_trans (hx.smallMeta _ _ _ hmeta) (by decide)
        · intro ts'' hread
          exact Option.some.inj (hread.symm.trans hstamp)
      · cases hstamp
  | stamp => cases hstamp

/-- Every other operation keeps the guard. -/
theorem Store.Guards.apply (hx : x.Lawful) (hpatch : x.Patchable) (h : st.Guards x key ts)
    (ho : o.OfUsers x.lite3 x.lite3.SparesStamp) (hfits : o.Fits x (2 ^ 32) st)
    (happly : st.apply x o = some st') (hkey : UserKey key)
    (hstamp : o.stampFor x.lite3 key = none) : st'.Guards x key ts := by
  obtain ⟨buf, hholding, hlen, hcontainer, htype, hread⟩ := h
  have hframe (hne : metaKey key ≠ o.key) : st'.Guards x key ts :=
    ⟨buf, hholding.mono (Store.apply_follows happly) (Store.apply_find_ne happly hne), hlen,
      hcontainer, htype, hread⟩
  cases ho with
  | value ho => exact hframe (hkey.metaKey_ne ho)
  | @sidecar user ts' tombstone metaVal huser hmeta =>
      refine hframe fun (heq : metaKey key = metaKey user) => ?_
      rw [ShardOp.stampFor, if_pos heq.symm,
        localTimestamp_reads (ReadsMeta.of_metaObject hx.lite3 hmeta)] at hstamp
      cases hstamp
  | @stamp user field text huser hfield =>
      by_cases heq : metaKey key = metaKey user
      · rw [← heq] at happly hfits
        have hbase : st.patchBase x (metaKey key) = buf := by
          have hfull : buf.length ≠ 0 := by simpa using isContainer_ne_nil hcontainer
          rw [Store.patchBase, hholding.get_eq hx.zstd hlen, if_neg hfull]
        obtain ⟨b, hfind, hholds⟩ := hholding
        obtain ⟨buf', hset, hholding'⟩ := Store.applyPatch_holding hpatch.zstd
          (fun b' hfind' => ⟨buf, by rw [hfind] at hfind'; cases hfind'; exact hholds⟩) happly
        have hlen' : buf'.length < 2 ^ 32 := hfits ⟨key, hkey.metaKey_eq.symm⟩ buf' hset
        rw [hbase] at hset
        refine ⟨buf', hholding', hlen',
          hpatch.lite3.setStr_container hset hcontainer, ?_, ?_⟩
        · rw [(hpatch.lite3.setStr_frame hset (Ne.symm hfield.ne_ts)).1, htype]
        · intro ts' hread'
          exact hread ts' (localTimestamp_setStr hpatch.lite3 hfield hset hcontainer htype hread')
      · exact hframe heq

private theorem guards_of_run (hx : x.Lawful) (hpatch : x.Patchable) {u : Nat → Nat → UInt8}
    {e : Engine} (hqueues : ∀ s, e.queues s = []) {events : List Event} {m : Machine}
    (hscope : ∀ event ∈ events, event.OnUserKeys x.lite3)
    (hspares : ∀ event ∈ events, event.SparesStamp x.lite3)
    (hfits : EveryStep (Machine.step x u) (.ofEngine e) events fun m event =>
      ∀ o ∈ m.performs x event, o.Fits x (2 ^ 32) m.store)
    (hrun : (Machine.ofEngine e).run x u events = some m) (hkey : UserKey key)
    (hlast : ((Machine.ofEngine e).written x u events key).getLast? = some ts) :
    m.store.Guards x key ts := by
  have hinv := collect_invariant (f := Machine.performs x)
    (fun shown m => (∀ o, m.Awaits o → o.OfUsers x.lite3 x.lite3.SparesStamp) ∧
      ∀ ts, (stampsFor x.lite3 key shown).getLast? = some ts → m.store.Guards x key ts)
    (P := fun m event => event.OnUserKeys x.lite3 ∧ event.SparesStamp x.lite3 ∧
      ∀ o ∈ m.performs x event, o.Fits x (2 ^ 32) m.store) ?_ ?_ ?_ hrun
  · exact hinv.2 ts hlast
  · exact ⟨fun o ho => absurd ho (Machine.ofEngine_not_awaits hqueues), fun ts hts => by cases hts⟩
  · rintro shown m₁ event m₂ ⟨hawaits, hguards⟩ ⟨hkeys, hfield, hfit⟩ hnext
    have hstep := Machine.step_sound hnext
    have hrestart : event ≠ .restart := by
      rintro rfl
      exact hkeys
    constructor
    · intro o ho
      rcases hstep.awaits hrestart ho with hold | ⟨t, call, clock, plan, rfl, hprep, hmem⟩
      · exact hawaits o hold
      · exact prepare_ofUsers hkeys hfield hprep o hmem
    · intro ts hts
      rcases hstep.performs hrestart with ⟨hnone, hstore⟩ | ⟨o, ho, happly⟩
      · rw [hstore]
        exact hguards ts (by simpa [hnone] using hts)
      · have hof := hawaits o (Machine.awaits_of_performs ho)
        rw [ho, Option.toList_some, stampsFor, List.filterMap_append] at hts
        cases hstamp : o.stampFor x.lite3 key with
        | none =>
            have hold : (stampsFor x.lite3 key shown).getLast? = some ts := by
              simpa [stampsFor, hstamp] using hts
            exact (hguards ts hold).apply hx hpatch hof (hfit o ho) happly hkey hstamp
        | some ts' =>
            have hnew : ts' = ts := by simpa [hstamp] using hts
            rw [← hnew]
            exact guards_of_stamp hx hof happly hkey hstamp
  · intro before event after hsplit m₁ hm₁
    have hmem : event ∈ events := by simp [hsplit]
    exact ⟨hscope event hmem, hspares event hmem, hfits before event after hsplit m₁ hm₁⟩

/-- In every run on user keys whose patches spare the timestamps and whose patched sidecars fit
their blobs, a mutation that is not newer than a write of its key changes nothing, as long as no older
write of the key was performed after that one. -/
theorem stale_mutation_refused (x : External) (hx : x.Lawful) (hpatch : x.Patchable)
    (u : Nat → Nat → UInt8) (e : Engine) (hqueues : ∀ s, e.queues s = []) (events : List Event)
    (m : Machine) (hscope : ∀ event ∈ events, event.OnUserKeys x.lite3)
    (hspares : ∀ event ∈ events, event.SparesStamp x.lite3)
    (hfits : EveryStep (Machine.step x u) (.ofEngine e) events fun m event =>
      ∀ o ∈ m.performs x event, o.Fits x (2 ^ 32) m.store)
    (hrun : (Machine.ofEngine e).run x u events = some m) (mutation : Mutation)
    (hkey : UserKey mutation.key) (ts : Timestamp) (earlier later : List Timestamp)
    (hwrote : (Machine.ofEngine e).written x u events mutation.key = earlier ++ ts :: later)
    (hnewer : ∀ ts' ∈ later, ts ≤ ts') (hstale : mutation.timestamp ≤ ts) :
    ∃ result, m.engine.call x u (.applyMutation mutation) = some (m.engine, result) := by
  -- The last write is this one or a newer one.
  obtain ⟨last, hlast, hle⟩ : ∃ last, (ts :: later).getLast? = some last ∧ ts ≤ last := by
    have hne : ts :: later ≠ [] := List.cons_ne_nil ts later
    refine ⟨(ts :: later).getLast hne, List.getLast?_eq_some_getLast hne, ?_⟩
    rcases List.mem_cons.mp (List.getLast_mem hne) with heq | hmem
    · exact heq.ge
    · exact hnewer _ hmem
  obtain ⟨buf, hholding, hlen, -, -, hread⟩ := guards_of_run hx hpatch hqueues hscope hspares hfits
    hrun hkey (by rw [hwrote, List.getLast?_append, hlast]; rfl)
  have hget : m.engine.store.get x (metaKey mutation.key) adminUid = buf :=
    hholding.get_eq hx.zstd hlen
  cases hlocal : localTimestamp x.lite3 buf with
  | none => exact ⟨.threw, by simp [Engine.call, Engine.prepare, hget, hlocal]⟩
  | some stored =>
      have hold : mutation.timestamp ≤ stored := by
        rw [hread stored hlocal]
        exact hstale.trans hle
      exact ⟨.done, by simp [Engine.call, Engine.prepare, hget, hlocal, hold]⟩

end

private def staleX : External := External.reference fun _ => 0

private def staleStart : Engine := Engine.openOn staleX 1 []

private def putThenPatch (field : Bytes) : List Event :=
  [.start 0 (.put (ascii "k") Lite3.reference.initObject adminUid [1]), .append 0, .work 0,
    .shard firstShard, .shard firstShard, .shard firstShard,
    .start 0 (.patchStr (ascii "k") field (ascii "v") [2]), .append 0, .work 0,
    .shard firstShard, .shard firstShard, .shard firstShard]

private def staleMutation : Mutation := ⟨⟨1, 0, 1⟩, ascii "k", ascii "a", false⟩

private theorem putThenPatch_scope (field : Bytes) :
    ∀ event ∈ putThenPatch field, event.OnUserKeys staleX.lite3 := by
  have hkey : UserKey (ascii "k") := by decide
  simp [putThenPatch, Event.OnUserKeys, Call.keys, hkey]

theorem stale_mutation_refused_patched :
    ∃ m result, (Machine.ofEngine staleStart).run staleX (fun _ _ => 0) (putThenPatch (ascii "f")) =
        some m ∧
      m.engine.call staleX (fun _ _ => 0) (.applyMutation staleMutation) =
        some (m.engine, result) := by
  have hsome : ((Machine.ofEngine staleStart).run staleX (fun _ _ => 0)
      (putThenPatch (ascii "f"))).isSome = true := by decide
  obtain ⟨m, hrun⟩ := Option.isSome_iff_exists.mp hsome
  have hfits : EveryStep (Machine.step staleX fun _ _ => 0) (.ofEngine staleStart)
      (putThenPatch (ascii "f")) fun m event =>
        decide (∀ o ∈ m.performs staleX event, o.Fits staleX (2 ^ 32) m.store) = true :=
    everyStep_of_allSteps (by decide)
  have hspares : ∀ event ∈ putThenPatch (ascii "f"), event.SparesStamp staleX.lite3 := by
    have hfield : staleX.lite3.SparesStamp (ascii "f") :=
      ⟨by decide, fun h => absurd h (by decide)⟩
    simp [putThenPatch, Event.SparesStamp, Call.field?, hfield]
  obtain ⟨result, hcall⟩ := stale_mutation_refused staleX (External.reference_lawful _)
    ⟨Lite3.reference_setsText, Zstd.plain_framed⟩ (fun _ _ => 0) staleStart (fun _ => rfl)
    (putThenPatch (ascii "f")) m (putThenPatch_scope _) hspares
    (fun before event after hsplit m hm => of_decide_eq_true (hfits before event after hsplit m hm))
    hrun staleMutation (by decide) ⟨1, 0, 1⟩ [] [] (by decide) (by simp) (le_refl _)
  exact ⟨m, result, hrun, hcall⟩

/-- A patch of the field `ts` takes the timestamp away, and the mutation is accepted. -/
theorem patch_lets_stale_in :
    (∀ event ∈ putThenPatch (ascii "ts"), event.OnUserKeys staleX.lite3) ∧
      ∃ m r, (Machine.ofEngine staleStart).run staleX (fun _ _ => 0) (putThenPatch (ascii "ts")) =
          some m ∧
        (Machine.ofEngine staleStart).written staleX (fun _ _ => 0) (putThenPatch (ascii "ts"))
          staleMutation.key = [staleMutation.timestamp] ∧
        m.engine.call staleX (fun _ _ => 0) (.applyMutation staleMutation) = some r ∧
        m.store.get staleX (ascii "k") adminUid ≠ ascii "a" ∧
        r.1.store.get staleX (ascii "k") adminUid = ascii "a" := by
  have hcheck : ((Machine.ofEngine staleStart).run staleX (fun _ _ => 0)
      (putThenPatch (ascii "ts"))).bind (fun m =>
        (m.engine.call staleX (fun _ _ => 0) (.applyMutation staleMutation)).map fun r =>
          (decide (m.store.get staleX (ascii "k") adminUid ≠ ascii "a"),
            r.1.store.get staleX (ascii "k") adminUid)) = some (true, ascii "a") := by decide
  obtain ⟨m, hrun, hm⟩ := Option.bind_eq_some_iff.mp hcheck
  obtain ⟨r, hcall, hr⟩ := Option.map_eq_some_iff.mp hm
  obtain ⟨hbefore, hafter⟩ := Prod.mk.inj hr
  exact ⟨putThenPatch_scope _, m, r, hrun, by decide, hcall,
    of_decide_eq_true hbefore, hafter⟩

end L3KV
