import L3KV.Engine.PutOrder
import L3KV.Engine.Writes

/-!
# Acknowledged writes survive a crash

A write is appended to the log before its task is handed to a shard, so a call that has returned is
in the log, in front of everything that was appended later. What recovery makes of a log that a
crash has cut is, key by key, the last write whose record is complete.
-/

namespace L3KV

open Framework

/-- A step of puts and deletes of user keys, of a shard, or a restart. -/
def Event.UserWrite : Event → Prop
  | start _ (.put key _ _ _) => UserKey key
  | start _ (.del key _ _) => UserKey key
  | start _ _ => False
  | _ => True

/-- The batch that stands for this write of the key in the log. -/
def IsRecord (l : Lite3) (key : Bytes) (w : Entry) (batch : List BatchOp) : Prop :=
  ∃ ops, WriteOps l key w ops ∧ batch = ops.map ShardOp.logEntry

section

variable {x : External}

private theorem Registered.replay_other (hl : x.lite3.Lawful) {st : Store} {key : Bytes}
    {r : Option Entry}
    (h : Registered x st key r) (hkey : UserKey key) {other : Bytes} (hother : UserKey other)
    (hne : other ≠ key) {w : Entry} {batch : List BatchOp}
    (hbatch : IsRecord x.lite3 other w batch) :
    Registered x (batch.foldl (Store.replay x) st) key r := by
  obtain ⟨ops, ⟨o, metaVal, rfl, hokey, ho, hmeta⟩, rfl⟩ := hbatch
  have hsidecar := leaves_metaObject hl hmeta (metaKey other)
  obtain ⟨st₁, happly₁, hfollows₁, -, hframe₁, -⟩ := st.apply_leaves ho
  rw [Store.apply_replay ho] at happly₁
  obtain ⟨st₂, happly₂, hfollows₂, -, hframe₂, -⟩ := st₁.apply_leaves hsidecar
  rw [Store.apply_replay hsidecar] at happly₂
  have hst : [o, .put (metaKey other) metaVal].map ShardOp.logEntry =
      [o.logEntry, (ShardOp.put (metaKey other) metaVal).logEntry] := rfl
  rw [hst, List.foldl_cons, List.foldl_cons, List.foldl_nil, Option.some.inj happly₁,
    Option.some.inj happly₂]
  rw [hokey] at hframe₁
  have hsame (k : Bytes) (hk : k ≠ other) (hk' : k ≠ metaKey other) : st₂.find x k = st.find x k := by
    rw [hframe₂ k hk', hframe₁ k hk]
  apply h.mono (hfollows₁.trans hfollows₂)
  · exact hsame key hne.symm (hother.metaKey_ne hkey).symm
  · exact hsame (metaKey key) (hkey.metaKey_ne hother) fun heq => hne (hkey.metaKey_inj hother heq).symm

private theorem registered_last (hl : x.lite3.Lawful) {key : Bytes} (hkey : UserKey key)
    {batches : List (List BatchOp)}
    (hrecords : ∀ b ∈ batches, ∃ k w, UserKey k ∧ IsRecord x.lite3 k w b) {i : Nat} {w : Entry}
    {b : List BatchOp} (hi : batches[i]? = some b) (hb : IsRecord x.lite3 key w b) (st : Store) :
    ∃ j w' b', i ≤ j ∧ batches[j]? = some b' ∧ IsRecord x.lite3 key w' b' ∧
      Registered x (batches.flatten.foldl (Store.replay x) st) key (some w') := by
  induction batches using List.reverseRec with
  | nil => simp at hi
  | append_singleton batches last ih =>
      rw [List.flatten_append, List.foldl_append, List.flatten_singleton]
      obtain ⟨k, wlast, hk, hlast⟩ := hrecords last (by simp)
      have hend : (batches ++ [last])[batches.length]? = some last := by simp
      have hlt : i < (batches ++ [last]).length := (List.getElem?_eq_some_iff.mp hi).1
      rw [List.length_append, List.length_singleton] at hlt
      by_cases hkeys : k = key
      · subst hkeys
        obtain ⟨ops, hops, hlast'⟩ := hlast
        refine ⟨batches.length, wlast, last, by omega, hend, ⟨ops, hops, hlast'⟩, ?_⟩
        rw [hlast']
        exact registered_replay hl hops _
      · have hfront : i < batches.length := by
          by_contra hge
          obtain rfl : i = batches.length := by omega
          rw [hend, Option.some.injEq] at hi
          subst hi
          -- The first entry of a record names its key.
          obtain ⟨_, ⟨o, _, rfl, ho, -⟩, heq⟩ := hlast
          obtain ⟨_, ⟨o', _, rfl, ho', -⟩, heq'⟩ := hb
          have hfirst := congrArg (fun l => l.head?.map BatchOp.key) (heq.symm.trans heq')
          simp only [List.map_cons, List.head?_cons, Option.map_some, ShardOp.logEntry_key,
            Option.some.injEq, ho, ho'] at hfirst
          exact hkeys hfirst
        rw [List.getElem?_append_left hfront] at hi
        obtain ⟨j, w', b', hij, hj, hb', hregistered⟩ :=
          ih (fun b hb => hrecords b (by simp [hb])) hi
        refine ⟨j, w', b', hij, ?_, hb', hregistered.replay_other hl hkey hk hkeys hlast⟩
        rw [List.getElem?_append_left (List.getElem?_eq_some_iff.mp hj).1]
        exact hj

end

private theorem wholeCalls_append {n : Nat} (front more : List LogCall)
    (hn : (front.flatMap LogCall.bytes).length ≤ n) :
    wholeCalls n (front ++ more) =
      front ++ wholeCalls (n - (front.flatMap LogCall.bytes).length) more := by
  induction front generalizing n with
  | nil => simp
  | cons c front ih =>
      rw [List.flatMap_cons, List.length_append] at hn
      rw [List.cons_append, wholeCalls, if_pos (by omega), ih (by omega), List.flatMap_cons,
        List.length_append, Nat.sub_add_eq, List.cons_append]

namespace Machine

/-- The batch a step appends to the log. -/
def appendedBatch (m : Machine) : Event → Option (List BatchOp)
  | .append t =>
      match m.phase t with
      | .planned plan => some plan.logged
      | _ => none
  | _ => none

def appended (x : External) (u : Nat → Nat → UInt8) (m : Machine) (events : List Event) :
    List (List BatchOp) :=
  collect (step x u) appendedBatch m events

/-- The log holds the records of the run, and the plans that are still to be logged are writes. -/
structure LogOf (x : External) (batches : List (List BatchOp)) (m : Machine) : Prop where
  bytes : m.wal.bytes = (batchCalls batches).flatMap LogCall.bytes
  atEnd : m.wal.AtEnd
  fits : ∀ b ∈ batches, BatchFits b
  records : ∀ b ∈ batches, ∃ key w, UserKey key ∧ IsRecord x.lite3 key w b
  planned : ∀ t plan, m.phase t = .planned plan →
    BatchFits plan.logged ∧ ∃ key w, UserKey key ∧ IsRecord x.lite3 key w plan.logged

section

variable {x : External} {u : Nat → Nat → UInt8} {m m' : Machine} {batches : List (List BatchOp)}

private theorem userWrite_plan {t : Nat} {call : Call} (h : Event.UserWrite (.start t call))
    {e : Engine}
    {clock : HybridLogicalClock} {plan : Plan}
    (hprep : e.prepare x u call = some (clock, .accepted plan)) :
    ∃ key w, UserKey key ∧ call.written x e = some (key, w) ∧ IsRecord x.lite3 key w plan.logged ∧
      ∀ o ∈ plan.logged, o.key.length < 2 ^ 16 := by
  have hshort {key : Bytes} (hkey : UserKey key) : key.length < 2 ^ 16 :=
    lt_trans hkey.short (by decide)
  have hmkey (key : Bytes) : (metaKey key).length < 2 ^ 16 :=
    lt_trans (metaKey_length_lt key) (by decide)
  cases Engine.prepare_sound hprep with
  | @put key body principal readings metaVal ts _ _ hcan hnow hmeta hwork hlogged =>
      have hops : WriteOps x.lite3 key (writtenEntry x.lite3 ts body false)
          [.put key body, .put (metaKey key) metaVal] := ⟨_, metaVal, rfl, rfl, rfl, hmeta⟩
      refine ⟨key, writtenEntry x.lite3 ts body false, h, ?_, ⟨_, hops, ?_⟩, ?_⟩
      · simp only [Call.written, if_pos hcan, hnow, Option.map_some]
      · rw [hlogged, hwork]
        rfl
      · rw [hlogged, hwork]
        simpa [Work.ops, ShardOp.logEntry] using ⟨hshort h, hmkey key⟩
  | @del key principal readings metaVal ts _ _ hcan hnow hmeta hwork hlogged =>
      have hops : WriteOps x.lite3 key (writtenEntry x.lite3 ts [] true)
          [.del key, .put (metaKey key) metaVal] := ⟨_, metaVal, rfl, rfl, rfl, hmeta⟩
      refine ⟨key, writtenEntry x.lite3 ts [] true, h, ?_, ⟨_, hops, ?_⟩, ?_⟩
      · simp only [Call.written, if_pos hcan, hnow, Option.map_some]
      · rw [hlogged, hwork]
        rfl
      · rw [hlogged, hwork]
        simpa [Work.ops, ShardOp.logEntry] using ⟨hshort h, hmkey key⟩
  | _ => exact h.elim

namespace LogOf

theorem openOn (nodeId : UInt32) : LogOf x [] (ofEngine (Engine.openOn x nodeId [])) where
  bytes := (traced_openOn_nil (x := x) nodeId).bytes
  atEnd := (traced_openOn_nil (x := x) nodeId).atEnd
  fits := by simp
  records := by simp
  planned t plan h := by cases h

theorem frame (h : LogOf x batches m) (hwal : m'.wal = m.wal)
    (hplanned : ∀ t plan, m'.phase t = .planned plan → m.phase t = .planned plan) :
    LogOf x batches m' where
  bytes := by rw [hwal, h.bytes]
  atEnd := by
    rw [hwal]
    exact h.atEnd
  fits := h.fits
  records := h.records
  planned t plan ht := h.planned t plan (hplanned t plan ht)

theorem append (h : LogOf x batches m) {t : Nat} {plan : Plan}
    (hphase : m.phase t = .planned plan) :
    LogOf x (batches ++ [plan.logged])
      ({ m with wal := m.wal.appendBatch plan.logged }.setPhase t (.logged plan.work)) := by
  obtain ⟨hfits, hrecord⟩ := h.planned t plan hphase
  obtain ⟨hbytes, hend⟩ := LogCall.run_bytes h.atEnd (.appendBatch plan.logged)
  constructor
  · change (LogCall.run m.wal (.appendBatch plan.logged)).bytes = _
    rw [hbytes, h.bytes]
    simp [batchCalls]
  · exact hend
  · simpa [or_imp, forall_and] using ⟨h.fits, hfits⟩
  · intro b hb
    rcases List.mem_append.mp hb with hb | hb
    · exact h.records b hb
    · rw [List.mem_singleton.mp hb]
      exact hrecord
  · intro t' plan' ht'
    by_cases heq : t' = t
    · subst heq
      simp [Machine.setPhase] at ht'
    · rw [setPhase_of_ne _ heq] at ht'
      exact h.planned t' plan' ht'

/-- Opening the engine again reads the whole log and leaves it. -/
theorem restart (h : LogOf x batches m) (nodeId : UInt32) :
    LogOf x batches (ofEngine (Engine.openOn x nodeId m.wal.bytes)) := by
  obtain ⟨-, hbytes, hend⟩ := LogFile.recover_calls (batchCalls batches) (batchCalls_fits h.fits)
    RecordFormat.stops_nil (LogFile.openAt m.wal.bytes) (by simp [h.bytes]) rfl
  exact ⟨hbytes, hend, h.fits, h.records, fun t plan ht => by cases ht⟩

theorem step (h : LogOf x batches m) {event : Event} (hwrite : event.UserWrite)
    (hfits : event.RecordFits x u m) (hstep : m.step x u event = some m') :
    LogOf x (batches ++ (m.appendedBatch event).toList) m' := by
  cases step_sound hstep with
  | @start t call clock plan hidle hprep =>
      simp only [appendedBatch, Option.toList_none, List.append_nil]
      obtain ⟨key, w, hkey, -, hrecord, hshort⟩ := userWrite_plan hwrite hprep
      refine ⟨h.bytes, h.atEnd, h.fits, h.records, fun t' plan' ht' => ?_⟩
      by_cases heq : t' = t
      · subst heq
        simp only [Machine.setPhase, Function.update_self, Phase.planned.injEq] at ht'
        subst ht'
        exact ⟨⟨hshort, hfits _ (Engine.planOf_eq_some.mpr ⟨clock, hprep⟩)⟩, key, w, hkey, hrecord⟩
      · rw [setPhase_of_ne _ heq] at ht'
        exact h.planned t' plan' ht'
  | refuse =>
      simp only [appendedBatch, Option.toList_none, List.append_nil]
      exact h.frame rfl fun _ _ ht => ht
  | append hphase =>
      rw [appendedBatch, hphase]
      exact h.append hphase
  | @work t work hphase =>
      simp only [appendedBatch, Option.toList_none, List.append_nil]
      apply h.frame
      · unfold workStep
        repeat' split
        all_goals rfl
      · intro t' plan ht'
        by_cases heq : t' = t
        · subst heq
          unfold workStep at ht'
          repeat' split at ht'
          all_goals simp [Machine.setPhase] at ht'
        · unfold workStep at ht'
          repeat' split at ht'
          all_goals
            rw [setPhase_of_ne _ heq] at ht'
            exact ht'
  | take =>
      simp only [appendedBatch, Option.toList_none, List.append_nil]
      exact h.frame rfl fun _ _ ht => ht
  | @shard s task rest hqueue =>
      simp only [appendedBatch, Option.toList_none, List.append_nil]
      have hwake (t : Nat) (plan : Plan)
          (ht : ((m.setQueue s rest).wake task.owner).phase t = .planned plan) :
          m.phase t = .planned plan := by
        cases howner : task.owner with
        | none =>
            rw [howner] at ht
            exact ht
        | some owner =>
            rw [howner, wake] at ht
            by_cases heq : t = owner
            · subst heq
              simp [Machine.setPhase] at ht
            · rw [setPhase_of_ne _ heq] at ht
              exact ht
      apply h.frame
      · unfold shardStep
        repeat' split
        all_goals simp [setQueue]
      · intro t plan ht
        unfold shardStep at ht
        split at ht
        · exact hwake t plan ht
        · split at ht
          · exact hwake t plan ht
          · exact ht
  | restart =>
      simp only [appendedBatch, Option.toList_none, List.append_nil]
      exact h.restart _

end LogOf

private theorem logOf_run {nodeId : UInt32} {events : List Event}
    (hwrites : ∀ event ∈ events, event.UserWrite)
    (hfits : EveryStep (step x u) (ofEngine (Engine.openOn x nodeId [])) events (Event.RecordFits x u))
    (hrun : (ofEngine (Engine.openOn x nodeId [])).run x u events = some m) :
    LogOf x ((ofEngine (Engine.openOn x nodeId [])).appended x u events) m := by
  have hP : EveryStep (step x u) (ofEngine (Engine.openOn x nodeId [])) events fun m event =>
      event.UserWrite ∧ event.RecordFits x u m := by
    intro before event after hsplit m' hbefore
    exact ⟨hwrites event (by simp [hsplit]), hfits before event after hsplit m' hbefore⟩
  apply collect_invariant (fun batches m => LogOf x batches m) (LogOf.openOn nodeId) _ hP hrun
  intro batches m₁ event m₂ hlog hok hstep
  exact hlog.step hok.1 hok.2 hstep

private theorem appended_append {events : List Event} (hrun : m.run x u events = some m')
    (more : List Event) :
    m.appended x u (events ++ more) = m.appended x u events ++ m'.appended x u more := by
  induction events generalizing m with
  | nil =>
      cases hrun
      rfl
  | cons event events ih =>
      rw [run, List.foldlM_cons] at hrun
      obtain ⟨m₁, hstep, hrun⟩ := Option.bind_eq_some_iff.mp hrun
      have hrest := ih hrun
      unfold appended at hrest ⊢
      simp only [List.cons_append, collect, hstep, Option.elim_some, hrest, List.append_assoc]

private theorem Owned.planned_step (h : m.Owned) {t : Nat} {plan : Plan}
    (hphase : m.phase t = .planned plan)
    {event : Event} (hrestart : event ≠ .restart) (happend : event ≠ .append t)
    (hstep : m.step x u event = some m') : m'.phase t = .planned plan := by
  have hne {other : Nat} {phase : Phase} (hother : m.phase other = phase)
      (hphases : Phase.planned plan ≠ phase) : t ≠ other := ne_of_phase hphase hother hphases
  cases step_sound hstep with
  | start hidle hprep =>
      rw [setPhase_of_ne _ (hne hidle (by simp))]
      exact hphase
  | refuse => exact hphase
  | append hother =>
      rw [setPhase_of_ne _ (by rintro rfl; exact happend rfl)]
      exact hphase
  | work hother =>
      have ht := hne hother (by simp)
      unfold workStep
      repeat' split
      all_goals
        rw [setPhase_of_ne _ ht]
        exact hphase
  | take => exact hphase
  | shard hqueue =>
      rcases h.shardStep_phase (x := x) hqueue t with hsame | ⟨hwaiting, -⟩
      · rw [hsame, hphase]
      · rw [hphase] at hwaiting
        cases hwaiting
  | restart => exact absurd rfl hrestart

private theorem appended_of_planned (h : m.Owned) {t : Nat} {plan : Plan}
    (hphase : m.phase t = .planned plan) {events : List Event}
    (hevents : ∀ event ∈ events, event ≠ .restart)
    (hrun : m.run x u events = some m') :
    m'.phase t = .planned plan ∨ plan.logged ∈ m.appended x u events := by
  induction events generalizing m with
  | nil =>
      cases hrun
      exact Or.inl hphase
  | cons event events ih =>
      rw [run, List.foldlM_cons] at hrun
      obtain ⟨m₁, hstep, hrun⟩ := Option.bind_eq_some_iff.mp hrun
      have hrest : ∀ event ∈ events, event ≠ .restart := fun e he => hevents e (by simp [he])
      by_cases happend : event = .append t
      · right
        subst happend
        simp [appended, collect, appendedBatch, hphase]
      · have hsame := h.planned_step hphase (hevents event (by simp)) happend hstep
        rcases ih (h.step hstep) hsame hrest hrun with hstill | hlogged
        · exact Or.inl hstill
        · right
          unfold appended at hlogged ⊢
          simp only [collect, hstep, Option.elim_some, List.mem_append]
          exact Or.inr hlogged

private theorem LogOf.cut (h : LogOf x batches m) {front more : List (List BatchOp)}
    (hbatches : batches = front ++ more) {n : Nat}
    (hn : ((batchCalls front).flatMap LogCall.bytes).length ≤ n) (nodeId : UInt32) :
    ∃ k, (Engine.openOn x nodeId (m.wal.bytes.take n)).store =
      (front ++ more.take k).flatten.foldl (Store.replay x) (Store.init x) := by
  obtain ⟨tail, htail, hcut⟩ := take_calls n (batchCalls batches) (batchCalls_fits h.fits)
  obtain ⟨k, -, hk⟩ := wholeCalls_batchCalls
    (n - ((batchCalls front).flatMap LogCall.bytes).length) more
  have hsplit (l : List (List BatchOp)) : batchCalls (front ++ l) = batchCalls front ++ batchCalls l :=
    List.map_append
  have hwhole : wholeCalls n (batchCalls batches) = batchCalls (front ++ more.take k) := by
    rw [hbatches, hsplit, wholeCalls_append _ _ hn, hk, hsplit]
  refine ⟨k, openOn_store ?_ htail.stops nodeId ?_⟩
  · intro b hb
    apply h.fits b
    rw [hbatches]
    rcases List.mem_append.mp hb with hb | hb
    · exact List.mem_append_left _ hb
    · exact List.mem_append_right _ (List.mem_of_mem_take hb)
  · rw [h.bytes, hcut, hwhole]

end

end Machine

private def survivorX : External := External.reference fun _ => 0

private def survivorCall (body : String) (reading : Int64) : Call :=
  .put (ascii "k") (ascii body) adminUid [reading]

/-- The first put until it returns. -/
private def survivorMid : List Event :=
  [.append 0, .work 0, .shard firstShard, .shard firstShard, .shard firstShard]

/-- A second put of the key, which the crash may catch half written. -/
private def survivorRest : List Event :=
  [.start 1 (survivorCall "b" 2), .append 1]

end L3KV
