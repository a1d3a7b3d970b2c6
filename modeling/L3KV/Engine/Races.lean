import L3KV.Engine.Merge
import L3KV.Engine.PutOrder

/-!
# Mutations racing with each other and with puts

`apply_mutation` reads the stored timestamp in one step and writes in later ones, on its own
thread; a put writes without looking. From the read to the write of the sidecar, or from the first
to the second operation of a put, a writer is in its critical section. Nothing in the engine keeps
two of these sections apart; where they are apart, the last writer wins.
-/

namespace L3KV

open Framework

/-- A step of a put or a mutation of this key, or of the thread of a shard. -/
def Event.WriteOn (key : Bytes) : Event → Prop
  | .start _ (.put k _ _ _) => k = key
  | .start _ (.applyMutation mu) => mu.key = key
  | .refuse _ (.put k _ _ _) => k = key
  | .refuse _ (.applyMutation mu) => mu.key = key
  | .start _ _ => False
  | .refuse _ _ => False
  | .restart => False
  | _ => True

/-- Who can be writing: a thread that applies a mutation, or a shard that runs a put. -/
inductive Writer where
  | thread (thread : Nat)
  | shard (shard : Fin 8)
  deriving DecidableEq

/-- Between the read of the stored timestamp and the write of the sidecar, with these operations
still to come. -/
def Phase.Critical (ops : List ShardOp) : Phase → Prop
  | .planned plan => plan.work = .direct ops
  | .logged work => work = .direct ops ∧ ops ≠ []
  | _ => False

namespace Machine

def callEntry (l : Lite3) (m : Machine) : Event → Option Entry
  | .start _ (.applyMutation mu) => some (mu.entry l)
  | .refuse _ (.applyMutation mu) => some (mu.entry l)
  | event => m.putEntry l event

def writes (x : External) (u : Nat → Nat → UInt8) (m : Machine) (events : List Event) : List Entry :=
  collect (step x u) (callEntry x.lite3) m events

/-- The writer is in its critical section, with these operations before it. -/
def Critical (m : Machine) (ops : List ShardOp) : Writer → Prop
  | .thread t => (m.phase t).Critical ops
  | .shard s => ∃ task o rest, m.queues s = task :: rest ∧ task.ops = [o] ∧ ops = [o]

def Free (m : Machine) : Prop := ∀ writer ops, ¬ m.Critical ops writer

end Machine

/-- A critical section is entered only while nobody else is in one; a put enters it only with a
timestamp above the stored one. -/
def Event.Exclusive (x : External) (m : Machine) : Event → Prop
  | .start _ (.applyMutation _) => m.Free
  | .shard s => ∀ task o mkey metaVal rest, m.queues s = task :: rest →
      task.ops = [o, .put mkey metaVal] →
        m.Free ∧ ∀ old new, localTimestamp x.lite3 (m.store.get x mkey adminUid) = some old →
          localTimestamp x.lite3 metaVal = some new → old < new
  | _ => True

section

variable {x : External}

def Sidecar (x : External) (st : Store) (key : Bytes) : Option Entry → Prop
  | none => st.find x (metaKey key) = none
  | some r => ∃ metaVal, metaObject x.lite3 r.stamp r.tombstone = some metaVal ∧
      st.Holding x (metaKey key) metaVal

private theorem Registered.sidecar {st : Store} {key : Bytes} {r : Option Entry}
    (h : Registered x st key r) : Sidecar x st key r := by
  cases r with
  | none => exact h.2
  | some r => exact h.2

private theorem Sidecar.mono {st st' : Store} {key : Bytes} {r : Option Entry}
    (h : Sidecar x st key r)
    (hfollows : st.zstd.Follows st'.zstd)
    (hfind : st'.find x (metaKey key) = st.find x (metaKey key)) : Sidecar x st' key r := by
  cases r with
  | none => exact hfind.trans h
  | some r =>
      obtain ⟨metaVal, hmeta, hholding⟩ := h
      exact ⟨metaVal, hmeta, hholding.mono hfollows hfind⟩

/-- The timestamp that is read is the one in the sidecar. -/
private theorem Sidecar.localTimestamp (hx : x.Lawful) {st : Store} {key : Bytes} {r : Option Entry}
    (h : Sidecar x st key r) : localTimestamp x.lite3 (st.get x (metaKey key) adminUid) =
      some (registerStamp Entry.stamp Timestamp.zero r) := by
  cases r with
  | none =>
      rw [get_eq_nil h]
      rfl
  | some r =>
      obtain ⟨metaVal, hmeta, b, hb, hholds⟩ := h
      have hlen : metaVal.length < 2 ^ 32 := lt_trans (hx.smallMeta _ _ _ hmeta) (by decide)
      rw [get_eq_read hb, hholds.read hx.zstd hlen]
      exact localTimestamp_reads (ReadsMeta.of_metaObject hx.lite3 hmeta)

private theorem metaObject_stamp_inj {l : Lite3} (hl : l.Lawful) {ts ts' : Timestamp} {b b' : Bool}
    {metaVal : Bytes} (h : metaObject l ts b = some metaVal) (h' : metaObject l ts' b' = some metaVal) :
    ts = ts' := by
  have hread := localTimestamp_reads (ReadsMeta.of_metaObject hl h)
  rw [localTimestamp_reads (ReadsMeta.of_metaObject hl h')] at hread
  exact (Option.some.inj hread).symm

/-- A writer in its critical section, that found `r` and brings `w`. -/
inductive Section (x : External) (st : Store) (key : Bytes) (r : Option Entry) (w : Entry) :
    List ShardOp → Prop
  | before {ops} (hops : WriteOps x.lite3 key w ops) (hstored : Registered x st key r) :
      Section x st key r w ops
  | between {metaVal} (hmeta : metaObject x.lite3 w.stamp w.tombstone = some metaVal)
      (hvalue : st.Holding x key w.value) (hsidecar : Sidecar x st key r) :
      Section x st key r w [.put (metaKey key) metaVal]

theorem Section.step (hl : x.lite3.Lawful) {st : Store} {key : Bytes} {r : Option Entry} {w : Entry}
    {o : ShardOp} {ops : List ShardOp} (h : Section x st key r w (o :: ops)) :
    ∃ st', st.apply x o = some st' ∧
      ((ops ≠ [] ∧ Section x st' key r w ops) ∨ (ops = [] ∧ Registered x st' key (some w))) := by
  cases h with
  | before hops hstored =>
      obtain ⟨o', metaVal, heq, hkey, hleaves, hmeta⟩ := hops
      cases heq
      obtain ⟨st', happly, hfollows, hholding, hframe, -⟩ := st.apply_leaves hleaves
      rw [hkey] at hholding hframe
      refine ⟨st', happly, Or.inl ⟨by simp, .between hmeta hholding ?_⟩⟩
      exact hstored.sidecar.mono hfollows (hframe _ (metaKey_ne key))
  | @between metaVal hmeta hvalue hsidecar =>
      have hunderway : Underway x st key w [.put (metaKey key) metaVal] :=
        Or.inr (Or.inl ⟨metaVal, rfl, hmeta, hvalue⟩)
      obtain ⟨st', happly, hdone, -⟩ := hunderway.step hl
      refine ⟨st', happly, Or.inr ⟨rfl, ?_⟩⟩
      rcases hdone with ⟨_, _, hnil, -⟩ | ⟨_, hnil, -⟩ | ⟨-, hregistered⟩
      · cases hnil
      · cases hnil
      · exact hregistered

private theorem Section.sidecar {st : Store} {key : Bytes} {r : Option Entry} {w : Entry}
    {ops : List ShardOp} (h : Section x st key r w ops) : Sidecar x st key r := by
  cases h with
  | before _ hstored => exact hstored.sidecar
  | between _ _ hsidecar => exact hsidecar

/-- The operations end with a sidecar of this timestamp. -/
def Bears (l : Lite3) (key : Bytes) (ts : Timestamp) (ops : List ShardOp) : Prop :=
  ∃ front tombstone metaVal, ops = front ++ [.put (metaKey key) metaVal] ∧
    metaObject l ts tombstone = some metaVal

private theorem WriteOps.bears {l : Lite3} {key : Bytes} {w : Entry} {ops : List ShardOp}
    (h : WriteOps l key w ops) : Bears l key w.stamp ops := by
  obtain ⟨o, metaVal, rfl, -, -, hmeta⟩ := h
  exact ⟨[o], w.tombstone, metaVal, rfl, hmeta⟩

private theorem Bears.tail {l : Lite3} {key : Bytes} {ts : Timestamp} {o : ShardOp}
    {ops : List ShardOp}
    (h : Bears l key ts (o :: ops)) (hne : ops ≠ []) : Bears l key ts ops := by
  obtain ⟨front, tombstone, metaVal, heq, hmeta⟩ := h
  cases front with
  | nil =>
      simp only [List.nil_append, List.cons.injEq] at heq
      exact absurd heq.2 hne
  | cons o' front =>
      simp only [List.cons_append, List.cons.injEq] at heq
      exact ⟨front, tombstone, metaVal, heq.2, hmeta⟩

private theorem Section.bears (hl : x.lite3.Lawful) {st : Store} {key : Bytes} {r : Option Entry}
    {w : Entry}
    {o : ShardOp} {ts : Timestamp} (h : Section x st key r w [o]) (hts : Bears x.lite3 key ts [o]) :
    ts = w.stamp := by
  obtain ⟨front, tombstone, metaVal, heq, hmeta⟩ := hts
  have hlen := congrArg List.length heq
  simp only [List.length_cons, List.length_nil, List.length_append] at hlen
  obtain rfl : front = [] := List.length_eq_zero_iff.mp (by omega)
  cases heq
  cases h with
  | before hops _ =>
      obtain ⟨_, _, hops, -⟩ := hops
      cases hops
  | between hmeta' _ _ => exact metaObject_stamp_inj hl hmeta hmeta'

end

namespace Machine

/-- Somebody still has these operations to apply. -/
def Carries (m : Machine) (ops : List ShardOp) : Prop :=
  (∃ t plan, m.phase t = .planned plan ∧ plan.work.ops = ops) ∨
    (∃ t work, m.phase t = .logged work ∧ work.ops = ops) ∨
    ∃ s, ∃ task ∈ m.queues s, task.ops = ops

/-- A write with this timestamp has not reached the sidecar. -/
def InFlight (l : Lite3) (key : Bytes) (ts : Timestamp) (m : Machine) : Prop :=
  ∃ ops, m.Carries ops ∧ Bears l key ts ops

/-- Either nobody is in a critical section and the key holds `r`, or one writer is, and it found
`r` and brings something newer. -/
def Status (x : External) (key : Bytes) (ws : List Entry) (r : Option Entry) (m : Machine) : Prop :=
  (m.Free ∧ Registered x m.store key r) ∨
    ∃ writer ops w, m.Critical ops writer ∧
      (∀ writer' ops', m.Critical ops' writer' → writer' = writer) ∧ w ∈ ws ∧
      registerStamp Entry.stamp Timestamp.zero r < w.stamp ∧ Section x m.store key r w ops

private theorem Critical.ops_eq {m : Machine} {writer : Writer} {ops ops' : List ShardOp}
    (h : m.Critical ops writer) (h' : m.Critical ops' writer) : ops = ops' := by
  cases writer with
  | thread t =>
      simp only [Critical, Phase.Critical] at h h'
      split at h
      · rename_i plan hphase
        simp only [hphase] at h'
        rw [h] at h'
        exact Work.direct.inj h'
      · rename_i work hphase
        simp only [hphase] at h'
        obtain ⟨rfl, -⟩ := h
        exact Work.direct.inj h'.1
      · cases h
  | shard s =>
      obtain ⟨task, o, rest, hqueue, hops, rfl⟩ := h
      obtain ⟨task', o', rest', hqueue', hops', rfl⟩ := h'
      rw [hqueue] at hqueue'
      cases hqueue'
      exact hops.symm.trans hops'

section

variable {x : External} {key : Bytes} {ws ws' : List Entry} {r : Option Entry} {m m' : Machine}

private theorem Status.sidecar (h : m.Status x key ws r) : Sidecar x m.store key r := by
  rcases h with ⟨-, hregistered⟩ | ⟨_, _, _, -, -, -, -, hsection⟩
  · exact hregistered.sidecar
  · exact hsection.sidecar

private theorem Status.congr (h : m.Status x key ws r)
    (hcritical : ∀ writer ops, m'.Critical ops writer ↔ m.Critical ops writer)
    (hstore : m'.store = m.store) (hws : ∀ w ∈ ws, w ∈ ws') : m'.Status x key ws' r := by
  rcases h with ⟨hfree, hregistered⟩ | ⟨writer, ops, w, hcrit, honly, hw, hlt, hsection⟩
  · left
    refine ⟨fun writer ops hcrit => hfree writer ops ((hcritical writer ops).mp hcrit), ?_⟩
    rw [hstore]
    exact hregistered
  · right
    refine ⟨writer, ops, w, (hcritical writer ops).mpr hcrit, ?_, hws w hw, hlt, ?_⟩
    · intro writer' ops' hcrit'
      exact honly writer' ops' ((hcritical writer' ops').mp hcrit')
    · rw [hstore]
      exact hsection

private theorem Status.advance (hl : x.lite3.Lawful) (h : m.Status x key ws r) {writer : Writer}
    {o : ShardOp} {ops : List ShardOp} (hcrit : m.Critical (o :: ops) writer) :
    ∃ st w, m.store.apply x o = some st ∧ w ∈ ws ∧
      registerStamp Entry.stamp Timestamp.zero r < w.stamp ∧
      (ops ≠ [] → ∀ m' : Machine, m'.store = st → m'.Critical ops writer →
        (∀ writer' ops', writer' ≠ writer → m'.Critical ops' writer' → m.Critical ops' writer') →
          m'.Status x key ws r) ∧
      (ops = [] → (∀ ts, Bears x.lite3 key ts [o] → ts = w.stamp) ∧ ∀ m' : Machine, m'.store = st →
        (∀ ops', ¬ m'.Critical ops' writer) →
        (∀ writer' ops', writer' ≠ writer → m'.Critical ops' writer' → m.Critical ops' writer') →
          m'.Status x key ws (some w)) := by
  rcases h with ⟨hfree, -⟩ | ⟨writer₁, ops₁, w, hcrit₁, honly, hw, hlt, hsection⟩
  · exact absurd hcrit (hfree writer _)
  · obtain rfl : writer = writer₁ := honly writer _ hcrit
    obtain rfl : ops₁ = o :: ops := hcrit₁.ops_eq hcrit
    obtain ⟨st, happly, hnext⟩ := hsection.step hl
    refine ⟨st, w, happly, hw, hlt, ?_, ?_⟩
    · intro hne m' hstore hcrit' hothers
      rcases hnext with ⟨-, hnext⟩ | ⟨hnil, -⟩
      · right
        refine ⟨writer, ops, w, hcrit', ?_, hw, hlt, by rw [hstore]; exact hnext⟩
        intro writer' ops' hcrit''
        by_contra hne'
        exact hne' (honly writer' ops' (hothers writer' ops' hne' hcrit''))
      · exact absurd hnil hne
    · rintro rfl
      refine ⟨fun ts hts => hsection.bears hl hts, fun m' hstore hout hothers => ?_⟩
      rcases hnext with ⟨hne, -⟩ | ⟨-, hdone⟩
      · exact absurd rfl hne
      · left
        refine ⟨fun writer' ops' hcrit' => ?_, by rw [hstore]; exact hdone⟩
        by_cases heq : writer' = writer
        · exact hout ops' (heq ▸ hcrit')
        · exact heq (honly writer' ops' (hothers writer' ops' heq hcrit'))

end

/-- What the calls under way and the queues look like. -/
structure Shape (x : External) (key : Bytes) (ws : List Entry) (m : Machine) : Prop where
  planned : ∀ t plan, m.phase t = .planned plan →
    ∃ w ops, w ∈ ws ∧ WriteOps x.lite3 key w ops ∧
      (plan.work = .wait (putShard x key) ops ∨ plan.work = .direct ops)
  logged : ∀ t work, m.phase t = .logged work →
    (∃ w ops, w ∈ ws ∧ WriteOps x.lite3 key w ops ∧ work = .wait (putShard x key) ops) ∨
      ∃ ops, work = .direct ops
  others : ∀ s, s ≠ putShard x key → m.queues s = []
  queued : ∀ task rest, m.queues (putShard x key) = task :: rest →
    (task.taken = true ∧ (task.ops = [] ∨ ∃ o, task.ops = [o]) ∨
      ∃ w ∈ ws, WriteOps x.lite3 key w task.ops) ∧
    ∀ task' ∈ rest, ∃ w ∈ ws, WriteOps x.lite3 key w task'.ops

private theorem Shape.mono {x : External} {key : Bytes} {ws ws' : List Entry} {m : Machine}
    (h : m.Shape x key ws) (hws : ∀ w ∈ ws, w ∈ ws') : m.Shape x key ws' := by
  refine ⟨fun t plan hp => ?_, fun t work hp => ?_, h.others, fun task rest hqueue => ?_⟩
  · obtain ⟨w, ops, hw, hrest⟩ := h.planned t plan hp
    exact ⟨w, ops, hws w hw, hrest⟩
  · rcases h.logged t work hp with ⟨w, ops, hw, hrest⟩ | hdirect
    · exact Or.inl ⟨w, ops, hws w hw, hrest⟩
    · exact Or.inr hdirect
  · obtain ⟨hhead, htail⟩ := h.queued task rest hqueue
    refine ⟨?_, fun task' htask' => ?_⟩
    · rcases hhead with hbegun | ⟨w, hw, hops⟩
      · exact Or.inl hbegun
      · exact Or.inr ⟨w, hws w hw, hops⟩
    · obtain ⟨w, hw, hops⟩ := htail task' htask'
      exact ⟨w, hws w hw, hops⟩

/-- The sidecar says `r`, which is the newest of the writes that have reached it. -/
structure Newest (x : External) (key : Bytes) (r₀ : Option Entry) (ws : List Entry)
    (r : Option Entry) (m : Machine) : Prop where
  source : ∀ a ∈ r, a ∈ r₀.toList ++ ws ∧ Timestamp.zero < a.stamp
  start : registerStamp Entry.stamp Timestamp.zero r₀ ≤ registerStamp Entry.stamp Timestamp.zero r
  done : ∀ w ∈ ws, w.stamp ≤ registerStamp Entry.stamp Timestamp.zero r ∨
    m.InFlight x.lite3 key w.stamp
  status : m.Status x key ws r

/-- What is known of a run of puts and mutations of one key that held `r₀` before it. -/
structure RaceInv (x : External) (u : Nat → Nat → UInt8) (m₀ : Machine) (key : Bytes)
    (r₀ : Option Entry) (events : List Event) (m : Machine) : Prop where
  run : m₀.run x u events = some m
  owned : m.Owned
  shape : m.Shape x key (m₀.writes x u events)
  newest : ∃ r, m.Newest x key r₀ (m₀.writes x u events) r

section

variable {x : External} {key : Bytes} {r₀ r : Option Entry} {ws : List Entry} {m m' : Machine}

private theorem Newest.congr (h : m.Newest x key r₀ ws r)
    (hcritical : ∀ writer ops, m'.Critical ops writer ↔ m.Critical ops writer)
    (hstore : m'.store = m.store) (hcarries : ∀ ops, ops ≠ [] → m.Carries ops → m'.Carries ops) :
    m'.Newest x key r₀ ws r := by
  refine ⟨h.source, h.start, fun w hw => ?_, h.status.congr hcritical hstore fun _ hw => hw⟩
  rcases h.done w hw with hle | ⟨ops, hc, hbears⟩
  · exact Or.inl hle
  · refine Or.inr ⟨ops, hcarries ops ?_ hc, hbears⟩
    obtain ⟨front, tombstone, metaVal, rfl, -⟩ := hbears
    simp

private theorem Newest.add (h : m.Newest x key r₀ ws r) (w : Entry)
    (hstatus : m'.Status x key (ws ++ [w]) r) (hcarries : ∀ ops, m.Carries ops → m'.Carries ops)
    (hw : w.stamp ≤ registerStamp Entry.stamp Timestamp.zero r ∨ m'.InFlight x.lite3 key w.stamp) :
    m'.Newest x key r₀ (ws ++ [w]) r := by
  refine ⟨fun a ha => ?_, h.start, fun w' hw' => ?_, hstatus⟩
  · obtain ⟨hmem, hzero⟩ := h.source a ha
    refine ⟨?_, hzero⟩
    rw [← List.append_assoc]
    exact List.mem_append_left _ hmem
  · rcases List.mem_append.mp hw' with hold | hnew
    · rcases h.done w' hold with hle | ⟨ops, hc, hbears⟩
      · exact Or.inl hle
      · exact Or.inr ⟨ops, hcarries ops hc, hbears⟩
    · rw [List.mem_singleton.mp hnew]
      exact hw

private theorem Newest.advance (hl : x.lite3.Lawful) (h : m.Newest x key r₀ ws r) {writer : Writer}
    {o : ShardOp} {ops : List ShardOp} (hcrit : m.Critical (o :: ops) writer) {st : Store}
    (happly : m.store.apply x o = some st) (hstore : m'.store = st)
    (hself : ∀ ops', m'.Critical ops' writer ↔ ops' = ops ∧ ops ≠ [])
    (hothers : ∀ writer' ops', writer' ≠ writer → m'.Critical ops' writer' → m.Critical ops' writer')
    (hnext : ops ≠ [] → m'.Carries ops)
    (hcarries : ∀ ops', ops' ≠ o :: ops → ops' ≠ [] → m.Carries ops' → m'.Carries ops') :
    ∃ r', m'.Newest x key r₀ ws r' := by
  obtain ⟨st', w, happly', hw, hlt, hmiddle, hlast⟩ := h.status.advance hl hcrit
  rw [happly] at happly'
  cases happly'
  by_cases hnil : ops = []
  · subst hnil
    obtain ⟨hstamp, hfinal⟩ := hlast rfl
    refine ⟨some w, ?_, h.start.trans hlt.le, ?_, hfinal m' hstore ?_ hothers⟩
    · intro a ha
      cases ha
      refine ⟨List.mem_append_right _ hw, lt_of_le_of_lt ?_ hlt⟩
      cases r with
      | none => exact le_refl _
      | some a => exact (h.source a rfl).2.le
    · intro w' hw'
      rcases h.done w' hw' with hle | ⟨ops', hc, hbears⟩
      · exact Or.inl (hle.trans hlt.le)
      · by_cases heq : ops' = [o]
        · left
          rw [heq] at hbears
          exact (hstamp _ hbears).le
        · refine Or.inr ⟨ops', hcarries ops' heq ?_ hc, hbears⟩
          obtain ⟨front, tombstone, metaVal, rfl, -⟩ := hbears
          simp
    · intro ops' hcrit'
      exact ((hself ops').mp hcrit').2 rfl
  · refine ⟨r, h.source, h.start, fun w' hw' => ?_,
      hmiddle hnil m' hstore ((hself ops).mpr ⟨rfl, hnil⟩) hothers⟩
    rcases h.done w' hw' with hle | ⟨ops', hc, hbears⟩
    · exact Or.inl hle
    · by_cases heq : ops' = o :: ops
      · rw [heq] at hbears
        exact Or.inr ⟨ops, hnext hnil, hbears.tail hnil⟩
      · refine Or.inr ⟨ops', hcarries ops' heq ?_ hc, hbears⟩
        obtain ⟨front, tombstone, metaVal, rfl, -⟩ := hbears
        simp

end

namespace RaceInv

variable {x : External} {u : Nat → Nat → UInt8} {m₀ : Machine} {key : Bytes} {r₀ : Option Entry}
  {events : List Event} {m : Machine} {ws : List Entry}

private theorem writes_concat (h : RaceInv x u m₀ key r₀ events m) (event : Event) :
    m₀.writes x u (events ++ [event]) =
      m₀.writes x u events ++ (m.callEntry x.lite3 event).toList :=
  collect_concat _ h.run event

private theorem plan {event : Event} {t : Nat} {plan : Plan} {clock : HybridLogicalClock}
    {w : Entry}
    {ops : List ShardOp} (h : RaceInv x u m₀ key r₀ events m) (hidle : m.phase t = .idle)
    (hstep : m.step x u event = some ({ m with clock := clock }.setPhase t (.planned plan)))
    (hentry : m.callEntry x.lite3 event = some w) (hops : WriteOps x.lite3 key w ops)
    (hwork : plan.work = .wait (putShard x key) ops ∨ plan.work = .direct ops)
    (hstatus : ∀ r, m.Status x key (m₀.writes x u events) r →
      ({ m with clock := clock }.setPhase t (.planned plan)).Status x key
        (m₀.writes x u events ++ [w]) r) :
    RaceInv x u m₀ key r₀ (events ++ [event])
      ({ m with clock := clock }.setPhase t (.planned plan)) := by
  have hwrites : m₀.writes x u (events ++ [event]) = m₀.writes x u events ++ [w] := by
    simp [h.writes_concat, hentry]
  generalize hm' : ({ m with clock := clock }.setPhase t (.planned plan)) = m' at hstep hstatus ⊢
  have hself : m'.phase t = .planned plan := by simp [← hm', setPhase]
  have hother {t' : Nat} (ht : t' ≠ t) : m'.phase t' = m.phase t' := by
    rw [← hm']
    exact setPhase_of_ne _ ht _
  have hqueues : m'.queues = m.queues := by rw [← hm']; rfl
  have hne {t' : Nat} (ht : m.phase t' ≠ .idle) : t' ≠ t := by
    rintro rfl
    exact ht hidle
  refine ⟨foldlM_concat.mpr ⟨m, h.run, hstep⟩, h.owned.step hstep, ?_, ?_⟩
  · rw [hwrites]
    have hshape : m.Shape x key (m₀.writes x u events ++ [w]) :=
      h.shape.mono fun _ hw => List.mem_append_left _ hw
    refine ⟨fun t' plan' hp => ?_, fun t' work hp => ?_, by rw [hqueues]; exact hshape.others,
      by rw [hqueues]; exact hshape.queued⟩
    · by_cases heq : t' = t
      · subst heq
        rw [hself] at hp
        cases hp
        exact ⟨w, ops, by simp, hops, hwork⟩
      · exact hshape.planned t' plan' (by rw [← hother heq, hp])
    · have heq : t' ≠ t := ne_of_phase hp hself (by simp)
      exact hshape.logged t' work (by rw [← hother heq, hp])
  · obtain ⟨r, hnewest⟩ := h.newest
    refine ⟨r, ?_⟩
    rw [hwrites]
    apply hnewest.add w (hstatus r hnewest.status)
    · rintro ops' (⟨t', plan', hp, hops'⟩ | ⟨t', work, hp, hops'⟩ | hqueue)
      · exact Or.inl ⟨t', plan', by rw [hother (hne (by simp [hp])), hp], hops'⟩
      · exact Or.inr (Or.inl ⟨t', work, by rw [hother (hne (by simp [hp])), hp], hops'⟩)
      · exact Or.inr (Or.inr (by rw [hqueues]; exact hqueue))
    · right
      refine ⟨ops, Or.inl ⟨t, plan, hself, ?_⟩, hops.bears⟩
      rcases hwork with hwork | hwork <;> rw [hwork] <;> rfl

private theorem start_put (h : RaceInv x u m₀ key r₀ events m) {t : Nat} {body : Bytes}
    {principal : UInt32}
    {readings : List Int64} {clock : HybridLogicalClock} {plan : Plan} (hidle : m.phase t = .idle)
    (hprep : m.engine.prepare x u (.put key body principal readings) = some (clock, .accepted plan))
    (hstep : m.step x u (.start t (.put key body principal readings)) =
      some ({ m with clock := clock }.setPhase t (.planned plan))) :
    RaceInv x u m₀ key r₀ (events ++ [.start t (.put key body principal readings)])
      ({ m with clock := clock }.setPhase t (.planned plan)) := by
  obtain ⟨ts, metaVal, (hnow : m.clock.now readings = _), hmeta, hwork, -⟩ :=
    Engine.prepare_put hprep
  have hentry : m.callEntry x.lite3 (.start t (.put key body principal readings)) =
      some (writtenEntry x.lite3 ts body false) := by
    simp [callEntry, putEntry, hnow]
  have hops : WriteOps x.lite3 key (writtenEntry x.lite3 ts body false)
      [.put key body, .put (metaKey key) metaVal] := ⟨_, metaVal, rfl, rfl, rfl, hmeta⟩
  apply h.plan hidle hstep hentry hops (Or.inl hwork)
  intro r hstatus
  apply hstatus.congr _ (by rfl) fun w hw => List.mem_append_left _ hw
  -- A put that has only been planned is in no critical section.
  intro writer ops
  cases writer with
  | thread t' =>
      by_cases heq : t' = t
      · subst heq
        simp [Critical, setPhase, Phase.Critical, hidle, hwork]
      · simp [Critical, setPhase, heq]
  | shard s => rfl

private theorem start_mutation (hx : x.Lawful) (h : RaceInv x u m₀ key r₀ events m) {t : Nat}
    {mu : Mutation} {clock : HybridLogicalClock} {plan : Plan} (hkey : mu.key = key)
    (hfree : m.Free) (hidle : m.phase t = .idle)
    (hprep : m.engine.prepare x u (.applyMutation mu) = some (clock, .accepted plan))
    (hstep : m.step x u (.start t (.applyMutation mu)) =
      some ({ m with clock := clock }.setPhase t (.planned plan))) :
    RaceInv x u m₀ key r₀ (events ++ [.start t (.applyMutation mu)])
      ({ m with clock := clock }.setPhase t (.planned plan)) := by
  cases Engine.prepare_sound hprep with
  | applyMutation _ hlocal hnewer hplan =>
      rw [hkey] at hlocal
      obtain ⟨metaVal, hmeta, hwork, -⟩ := mutationPlan_spec hplan
      have hops := mu.writeOps hmeta
      rw [hkey] at hops hwork
      apply h.plan hidle hstep rfl hops (Or.inr hwork)
      intro r hstatus
      have hstamp := (hstatus.sidecar.localTimestamp hx).symm.trans hlocal
      rcases hstatus with ⟨-, hregistered⟩ | ⟨writer, ops, -, hcrit, -⟩
      · right
        refine ⟨.thread t, _, mu.entry x.lite3, ?_, ?_, by simp, ?_, .before hops hregistered⟩
        · simp [Critical, setPhase, Phase.Critical, hwork]
        · intro writer ops hcrit
          by_contra hne
          refine hfree writer ops ?_
          cases writer with
          | thread t' =>
              have heq : t' ≠ t := fun heq => hne (by rw [heq])
              simpa [Critical, setPhase, heq] using hcrit
          | shard s => exact hcrit
        · rw [Option.some.inj hstamp]
          exact hnewer
      · exact absurd hcrit (hfree writer ops)

private theorem refuse (hx : x.Lawful) (h : RaceInv x u m₀ key r₀ events m) {t : Nat} {call : Call}
    {clock : HybridLogicalClock} {result : CallResult}
    (hwrite : (Event.refuse t call).WriteOn key)
    (hprep : m.engine.prepare x u call = some (clock, .refused result))
    (hstep : m.step x u (.refuse t call) = some { m with clock := clock }) :
    RaceInv x u m₀ key r₀ (events ++ [.refuse t call]) { m with clock := clock } := by
  obtain ⟨r, hnewest⟩ := h.newest
  have hsame : ∀ ws, m.Newest x key r₀ ws r → ({ m with clock := clock } : Machine).Newest x key r₀ ws r :=
    fun ws hn => ⟨hn.source, hn.start, hn.done, hn.status⟩
  have hshape : ({ m with clock := clock } : Machine).Shape x key
      (m₀.writes x u (events ++ [.refuse t call])) := by
    have hmono : m.Shape x key (m₀.writes x u (events ++ [.refuse t call])) := by
      rw [h.writes_concat]
      exact h.shape.mono fun w hw => List.mem_append_left _ hw
    exact ⟨hmono.planned, hmono.logged, hmono.others, hmono.queued⟩
  refine ⟨foldlM_concat.mpr ⟨m, h.run, hstep⟩, h.owned.step hstep, hshape, r, ?_⟩
  rw [h.writes_concat]
  cases call with
  | applyMutation mu =>
      have hkey : mu.key = key := hwrite
      have hstale : mu.timestamp ≤ registerStamp Entry.stamp Timestamp.zero r := by
        have hlocal := hnewest.status.sidecar.localTimestamp hx
        obtain ⟨metaVal, hmeta, -⟩ := metaObject_reads hx.lite3 mu.timestamp mu.isDelete
        simp only [Engine.prepare, hkey, engine, hlocal] at hprep
        split at hprep
        · assumption
        · simp [mutationPlan, hmeta] at hprep
      exact (hsame _ hnewest).add (mu.entry x.lite3)
        ((hsame _ hnewest).status.congr (fun _ _ => Iff.rfl) rfl fun w hw => List.mem_append_left _ hw)
        (fun _ hc => hc) (Or.inl hstale)
  | put k body principal readings => simpa [callEntry, putEntry] using hsame _ hnewest
  | _ => cases hwrite

private theorem quietStep {event : Event} {m' : Machine} (h : RaceInv x u m₀ key r₀ events m)
    (hstep : m.step x u event = some m') (hentry : m.callEntry x.lite3 event = none)
    (hshape : m'.Shape x key (m₀.writes x u events))
    (hnewest : ∀ r, m.Newest x key r₀ (m₀.writes x u events) r →
      ∃ r', m'.Newest x key r₀ (m₀.writes x u events) r') :
    RaceInv x u m₀ key r₀ (events ++ [event]) m' := by
  have hwrites : m₀.writes x u (events ++ [event]) = m₀.writes x u events := by
    simp [h.writes_concat, hentry]
  obtain ⟨r, hr⟩ := h.newest
  obtain ⟨r', hr'⟩ := hnewest r hr
  exact ⟨foldlM_concat.mpr ⟨m, h.run, hstep⟩, h.owned.step hstep, by rw [hwrites]; exact hshape, r',
    by rw [hwrites]; exact hr'⟩

private theorem append (h : RaceInv x u m₀ key r₀ events m) {t : Nat} {plan : Plan}
    (hphase : m.phase t = .planned plan)
    (hstep : m.step x u (.append t) =
      some ({ m with wal := m.wal.appendBatch plan.logged }.setPhase t (.logged plan.work))) :
    RaceInv x u m₀ key r₀ (events ++ [.append t])
      ({ m with wal := m.wal.appendBatch plan.logged }.setPhase t (.logged plan.work)) := by
  obtain ⟨w, ops, hw, hops, hwork⟩ := h.shape.planned t plan hphase
  generalize hm' : ({ m with wal := m.wal.appendBatch plan.logged }.setPhase t
    (.logged plan.work)) = m' at hstep
  have hself : m'.phase t = .logged plan.work := by simp [← hm', setPhase]
  have hother {t' : Nat} (ht : t' ≠ t) : m'.phase t' = m.phase t' := by
    rw [← hm']
    exact setPhase_of_ne _ ht _
  have hqueues : m'.queues = m.queues := by rw [← hm']; rfl
  apply h.quietStep hstep rfl
  · refine ⟨fun t' plan' hp => ?_, fun t' work hp => ?_, by rw [hqueues]; exact h.shape.others,
      by rw [hqueues]; exact h.shape.queued⟩
    · have heq : t' ≠ t := ne_of_phase hp hself (by simp)
      exact h.shape.planned t' plan' (by rw [← hother heq, hp])
    · by_cases heq : t' = t
      · subst heq
        rw [hself] at hp
        cases hp
        rcases hwork with hwork | hwork
        · exact Or.inl ⟨w, ops, hw, hops, hwork⟩
        · exact Or.inr ⟨ops, hwork⟩
      · exact h.shape.logged t' work (by rw [← hother heq, hp])
  · intro r hr
    refine ⟨r, hr.congr ?_ (by rw [← hm']; rfl) ?_⟩
    · intro writer ops'
      cases writer with
      | thread t' =>
          by_cases heq : t' = t
          · subst heq
            obtain ⟨o, metaVal, rfl, -⟩ := hops
            rcases hwork with hwork | hwork
            · simp [Critical, hself, hphase, Phase.Critical, hwork]
            · simp only [Critical, hself, hphase, Phase.Critical, hwork, Work.direct.injEq]
              constructor
              · exact fun hcrit => hcrit.1
              · rintro rfl
                simp
          · simp only [Critical, hother heq]
      | shard s => simp only [Critical, hqueues]
    · rintro ops' - (⟨t', plan', hp, hops'⟩ | ⟨t', work, hp, hops'⟩ | hqueue)
      · by_cases heq : t' = t
        · subst heq
          rw [hphase] at hp
          cases hp
          exact Or.inr (Or.inl ⟨t', _, hself, hops'⟩)
        · exact Or.inl ⟨t', plan', by rw [hother heq, hp], hops'⟩
      · have heq : t' ≠ t := ne_of_phase hp hphase (by simp)
        exact Or.inr (Or.inl ⟨t', work, by rw [hother heq, hp], hops'⟩)
      · exact Or.inr (Or.inr (by rw [hqueues]; exact hqueue))

private theorem enqueue (h : RaceInv x u m₀ key r₀ events m) {t : Nat} {w : Entry}
    {ops : List ShardOp} (hw : w ∈ m₀.writes x u events) (hops : WriteOps x.lite3 key w ops)
    (hphase : m.phase t = .logged (.wait (putShard x key) ops))
    (hstep : m.step x u (.work t) =
      some ((m.enqueue (putShard x key) ⟨t, some t, ops, false⟩).setPhase t .waiting)) :
    RaceInv x u m₀ key r₀ (events ++ [.work t])
      ((m.enqueue (putShard x key) ⟨t, some t, ops, false⟩).setPhase t .waiting) := by
  generalize hm' : (m.enqueue (putShard x key) ⟨t, some t, ops, false⟩).setPhase t .waiting = m'
    at hstep
  have hself : m'.phase t = .waiting := by simp [← hm', setPhase]
  have hother {t' : Nat} (ht : t' ≠ t) : m'.phase t' = m.phase t' := by
    rw [← hm']
    exact setPhase_of_ne _ ht _
  have hqueue : m'.queues (putShard x key) = m.queues (putShard x key) ++ [⟨t, some t, ops, false⟩] := by
    simp [← hm', setPhase, Machine.enqueue]
  have hothers {s : Fin 8} (hs : s ≠ putShard x key) : m'.queues s = m.queues s := by
    simp [← hm', setPhase, Machine.enqueue, hs]
  have hlen : ∀ o, ops ≠ [o] := by
    obtain ⟨o, metaVal, rfl, -⟩ := hops
    simp
  apply h.quietStep hstep rfl
  · refine ⟨fun t' plan' hp => ?_, fun t' work hp => ?_, fun s hs => ?_, fun task rest hq => ?_⟩
    · have heq : t' ≠ t := ne_of_phase hp hself (by simp)
      exact h.shape.planned t' plan' (by rw [← hother heq, hp])
    · have heq : t' ≠ t := ne_of_phase hp hself (by simp)
      exact h.shape.logged t' work (by rw [← hother heq, hp])
    · rw [hothers hs]
      exact h.shape.others s hs
    · rw [hqueue] at hq
      cases hold : m.queues (putShard x key) with
      | nil =>
          rw [hold] at hq
          cases hq
          exact ⟨Or.inr ⟨w, hw, hops⟩, by simp⟩
      | cons head old =>
          rw [hold] at hq
          cases hq
          obtain ⟨hhead, htail⟩ := h.shape.queued _ _ hold
          refine ⟨hhead, fun task' htask' => ?_⟩
          rcases List.mem_append.mp htask' with hmem | hmem
          · exact htail task' hmem
          · rw [List.mem_singleton.mp hmem]
            exact ⟨w, hw, hops⟩
  · intro r hr
    refine ⟨r, hr.congr ?_ (by rw [← hm']; rfl) ?_⟩
    · intro writer ops'
      cases writer with
      | thread t' =>
          by_cases heq : t' = t
          · subst heq
            simp [Critical, hself, hphase, Phase.Critical]
          · simp only [Critical, hother heq]
      | shard s =>
          by_cases hs : s = putShard x key
          · subst hs
            simp only [Critical, hqueue]
            cases m.queues (putShard x key) with
            | nil => simp [hlen]
            | cons head old =>
                constructor
                · rintro ⟨task, o, rest, hq, hone, rfl⟩
                  cases hq
                  exact ⟨_, o, _, rfl, hone, rfl⟩
                · rintro ⟨task, o, rest, hq, hone, rfl⟩
                  cases hq
                  exact ⟨_, o, _, rfl, hone, rfl⟩
          · simp only [Critical, hothers hs]
    · rintro ops' - (⟨t', plan', hp, hops'⟩ | ⟨t', work, hp, hops'⟩ | ⟨s, task, htask, hops'⟩)
      · have heq : t' ≠ t := ne_of_phase hp hphase (by simp)
        exact Or.inl ⟨t', plan', by rw [hother heq, hp], hops'⟩
      · by_cases heq : t' = t
        · subst heq
          rw [hphase] at hp
          cases hp
          exact Or.inr (Or.inr ⟨putShard x key, ⟨t', some t', ops, false⟩, by simp [hqueue], hops'⟩)
        · exact Or.inr (Or.inl ⟨t', work, by rw [hother heq, hp], hops'⟩)
      · refine Or.inr (Or.inr ⟨s, task, ?_, hops'⟩)
        by_cases hs : s = putShard x key
        · subst hs
          rw [hqueue]
          exact List.mem_append_left _ htask
        · rw [hothers hs]
          exact htask

private theorem direct (hl : x.lite3.Lawful) (h : RaceInv x u m₀ key r₀ events m) {t : Nat}
    {ops : List ShardOp} (hphase : m.phase t = .logged (.direct ops))
    (hstep : m.step x u (.work t) = some (m.workStep x t (.direct ops))) :
    RaceInv x u m₀ key r₀ (events ++ [.work t]) (m.workStep x t (.direct ops)) := by
  obtain ⟨r₁, hnewest⟩ := h.newest
  -- In both cases only the phase of the thread and perhaps the store change.
  have hshape {m' : Machine} {phase : Phase} (hm' : m'.phase = Function.update m.phase t phase)
      (hqueues : m'.queues = m.queues)
      (hphase' : phase = .idle ∨ ∃ ops', phase = .logged (.direct ops')) :
      m'.Shape x key (m₀.writes x u events) := by
    refine ⟨fun t' plan hp => ?_, fun t' work hp => ?_, by rw [hqueues]; exact h.shape.others,
      by rw [hqueues]; exact h.shape.queued⟩
    · by_cases heq : t' = t
      · subst heq
        rw [hm', Function.update_self] at hp
        rcases hphase' with rfl | ⟨ops', rfl⟩ <;> cases hp
      · rw [hm', Function.update_of_ne heq] at hp
        exact h.shape.planned t' plan hp
    · by_cases heq : t' = t
      · subst heq
        rw [hm', Function.update_self] at hp
        rcases hphase' with rfl | ⟨ops', rfl⟩
        · cases hp
        · cases hp
          exact Or.inr ⟨ops', rfl⟩
      · rw [hm', Function.update_of_ne heq] at hp
        exact h.shape.logged t' work hp
  have hcarries (m' : Machine) (phase : Phase) (hm' : m'.phase = Function.update m.phase t phase)
      (hqueues : m'.queues = m.queues) {ops' : List ShardOp} (hne : ops' ≠ ops)
      (hc : m.Carries ops') : m'.Carries ops' := by
    rcases hc with ⟨t', plan, hp, hops'⟩ | ⟨t', work, hp, hops'⟩ | hqueue
    · have heq : t' ≠ t := ne_of_phase hp hphase (by simp)
      exact Or.inl ⟨t', plan, by rw [hm', Function.update_of_ne heq, hp], hops'⟩
    · have heq : t' ≠ t := by
        rintro rfl
        rw [hphase] at hp
        cases hp
        exact hne hops'.symm
      exact Or.inr (Or.inl ⟨t', work, by rw [hm', Function.update_of_ne heq, hp], hops'⟩)
    · exact Or.inr (Or.inr (by rw [hqueues]; exact hqueue))
  cases ops with
  | nil =>
      apply h.quietStep hstep rfl (hshape rfl rfl (Or.inl rfl))
      intro r hr
      refine ⟨r, hr.congr ?_ (by rfl) fun ops' hne hc =>
        hcarries (m.setPhase t .idle) .idle rfl rfl hne hc⟩
      intro writer ops'
      cases writer with
      | thread t' =>
          by_cases heq : t' = t
          · subst heq
            simp [Critical, workStep, setPhase, hphase, Phase.Critical]
          · simp [Critical, workStep, setPhase, heq]
      | shard s => rfl
  | cons o ops =>
      have hcrit : m.Critical (o :: ops) (.thread t) := by
        simp [Critical, hphase, Phase.Critical]
      obtain ⟨st, -, happly, -⟩ := hnewest.status.advance hl hcrit
      have hm' : m.workStep x t (.direct (o :: ops)) =
          { m with store := st }.setPhase t (.logged (.direct ops)) := by
        simp [workStep, happly]
      rw [hm'] at hstep ⊢
      apply h.quietStep hstep rfl (hshape rfl rfl (Or.inr ⟨ops, rfl⟩))
      intro r hr
      apply hr.advance hl hcrit happly rfl
      · intro ops'
        simp only [Critical, setPhase, Function.update_self, Phase.Critical, Work.direct.injEq]
        constructor
        · rintro ⟨rfl, hne⟩
          exact ⟨rfl, hne⟩
        · rintro ⟨rfl, hne⟩
          exact ⟨rfl, hne⟩
      · intro writer' ops' hne hcrit'
        cases writer' with
        | thread t' =>
            have heq : t' ≠ t := fun heq => hne (by rw [heq])
            simpa [Critical, setPhase, heq] using hcrit'
        | shard s => exact hcrit'
      · intro _
        exact Or.inr (Or.inl ⟨t, .direct ops, by simp [setPhase], rfl⟩)
      · intro ops' hne _ hc
        exact hcarries ({ m with store := st }.setPhase t _) (.logged (.direct ops)) rfl rfl hne hc

private theorem work (hl : x.lite3.Lawful) (h : RaceInv x u m₀ key r₀ events m) {t : Nat}
    {work : Work}
    (hphase : m.phase t = .logged work)
    (hstep : m.step x u (.work t) = some (m.workStep x t work)) :
    RaceInv x u m₀ key r₀ (events ++ [.work t]) (m.workStep x t work) := by
  rcases h.shape.logged t work hphase with ⟨w, ops, hw, hops, rfl⟩ | ⟨ops, rfl⟩
  · exact h.enqueue hw hops hphase hstep
  · exact h.direct hl hphase hstep

private theorem shardShape (h : m.Shape x key ws) {m' : Machine} {tasks : List Task}
    (hqueues : m'.queues = Function.update m.queues (putShard x key) tasks)
    (hphase : ∀ t, m'.phase t = m.phase t ∨ m.phase t = .waiting ∧ m'.phase t = .idle)
    (htasks : ∀ task rest, tasks = task :: rest →
      (task.taken = true ∧ (task.ops = [] ∨ ∃ o, task.ops = [o]) ∨
        ∃ w ∈ ws, WriteOps x.lite3 key w task.ops) ∧
      ∀ task' ∈ rest, ∃ w ∈ ws, WriteOps x.lite3 key w task'.ops) : m'.Shape x key ws := by
  refine ⟨fun t plan hp => ?_, fun t work hp => ?_, fun s hs => ?_, ?_⟩
  · rcases hphase t with heq | ⟨-, hidle⟩
    · exact h.planned t plan (by rw [← heq, hp])
    · rw [hidle] at hp
      cases hp
  · rcases hphase t with heq | ⟨-, hidle⟩
    · exact h.logged t work (by rw [← heq, hp])
    · rw [hidle] at hp
      cases hp
  · rw [hqueues, Function.update_of_ne hs]
    exact h.others s hs
  · rw [hqueues, Function.update_self]
    exact htasks

private theorem critical_thread {m' : Machine}
    (hphase : ∀ t, m'.phase t = m.phase t ∨ m.phase t = .waiting ∧ m'.phase t = .idle) (t : Nat)
    (ops : List ShardOp) : m'.Critical ops (.thread t) ↔ m.Critical ops (.thread t) := by
  rcases hphase t with heq | ⟨hbefore, hafter⟩
  · simp only [Critical, heq]
  · simp [Critical, hbefore, hafter, Phase.Critical]

private theorem critical_elsewhere {m' : Machine} {s : Fin 8} {tasks : List Task}
    (hqueues : m'.queues = Function.update m.queues s tasks)
    (hphase : ∀ t, m'.phase t = m.phase t ∨ m.phase t = .waiting ∧ m'.phase t = .idle)
    {writer : Writer} (hne : writer ≠ .shard s) (ops : List ShardOp) :
    m'.Critical ops writer ↔ m.Critical ops writer := by
  cases writer with
  | thread t => exact critical_thread hphase t ops
  | shard s' =>
      have hs : s' ≠ s := fun hs => hne (by rw [hs])
      simp only [Critical, hqueues, Function.update_of_ne hs]

private theorem carries_shard {m' : Machine} {s : Fin 8} {task : Task} {rest tasks : List Task}
    (hqueue : m.queues s = task :: rest) (hqueues : m'.queues = Function.update m.queues s tasks)
    (hphase : ∀ t, m'.phase t = m.phase t ∨ m.phase t = .waiting ∧ m'.phase t = .idle)
    (hrest : ∀ task' ∈ rest, task' ∈ tasks) {ops : List ShardOp} (hne : ops ≠ task.ops)
    (hc : m.Carries ops) : m'.Carries ops := by
  rcases hc with ⟨t, plan, hp, hops⟩ | ⟨t, work, hp, hops⟩ | ⟨s', task', htask', hops⟩
  · rcases hphase t with heq | ⟨hwaiting, -⟩
    · exact Or.inl ⟨t, plan, by rw [heq, hp], hops⟩
    · rw [hwaiting] at hp
      cases hp
  · rcases hphase t with heq | ⟨hwaiting, -⟩
    · exact Or.inr (Or.inl ⟨t, work, by rw [heq, hp], hops⟩)
    · rw [hwaiting] at hp
      cases hp
  · refine Or.inr (Or.inr ⟨s', task', ?_, hops⟩)
    by_cases hs : s' = s
    · subst hs
      rw [hqueues, Function.update_self]
      rw [hqueue] at htask'
      rcases List.mem_cons.mp htask' with rfl | hmem
      · exact absurd hops.symm hne
      · exact hrest task' hmem
    · rw [hqueues, Function.update_of_ne hs]
      exact htask'

private theorem not_critical_of_head {s : Fin 8} {task : Task} {rest : List Task}
    (hqueue : m.queues s = task :: rest) (hnot : ∀ o, task.ops ≠ [o]) (ops : List ShardOp) :
    ¬ m.Critical ops (.shard s) := by
  rintro ⟨task', o, rest', hq, hone, -⟩
  rw [hqueue] at hq
  cases hq
  exact hnot o hone

private theorem take (h : RaceInv x u m₀ key r₀ events m) {s : Fin 8} {task : Task}
    {front back : List Task} (hqueue : m.queues s = front ++ task :: back)
    (hfree : ∀ t ∈ m.queues s, t.taken = false)
    (hstep : m.step x u (.take s task.producer) =
      some (m.setQueue s (task.goOn task.ops :: (front ++ back)))) :
    RaceInv x u m₀ key r₀ (events ++ [.take s task.producer])
      (m.setQueue s (task.goOn task.ops :: (front ++ back))) := by
  obtain rfl : s = putShard x key := by
    by_contra hne
    rw [h.shape.others s hne] at hqueue
    simp at hqueue
  have hwhole : ∀ t ∈ m.queues (putShard x key),
      ∃ w ∈ m₀.writes x u events, WriteOps x.lite3 key w t.ops := by
    intro t ht
    cases hq : m.queues (putShard x key) with
    | nil => simp [hq] at ht
    | cons first rest =>
        obtain ⟨hhead, htail⟩ := h.shape.queued first rest hq
        rw [hq] at ht
        rcases List.mem_cons.mp ht with rfl | hmem
        · rcases hhead with ⟨htaken, -⟩ | hwrite
          · simp [hfree t (by simp [hq])] at htaken
          · exact hwrite
        · exact htail t hmem
  have htask := hwhole task (by simp [hqueue])
  have hphase (t : Nat) : (m.setQueue (putShard x key)
      (task.goOn task.ops :: (front ++ back))).phase t = m.phase t ∨ m.phase t = .waiting ∧
        (m.setQueue (putShard x key) (task.goOn task.ops :: (front ++ back))).phase t = .idle :=
    Or.inl rfl
  apply h.quietStep hstep rfl
  · apply shardShape h.shape rfl hphase
    rintro task' rest hcons
    cases hcons
    exact ⟨Or.inr htask, fun t ht => hwhole t (Task.mem_of_left hqueue ht)⟩
  · intro r hr
    refine ⟨r, hr.congr ?_ rfl ?_⟩
    · intro writer ops
      by_cases hwriter : writer = .shard (putShard x key)
      · subst hwriter
        refine iff_of_false ?_ ?_
        · obtain ⟨w, -, hops⟩ := htask
          have hhead : (m.setQueue (putShard x key) (task.goOn task.ops :: (front ++ back))).queues
              (putShard x key) = task.goOn task.ops :: (front ++ back) := Function.update_self _ _ _
          exact not_critical_of_head hhead hops.ne_singleton ops
        · rintro ⟨first, o, rest, hq, hone, -⟩
          obtain ⟨w, -, hops⟩ := hwhole first (by simp [hq])
          exact hops.ne_singleton o hone
      · exact critical_elsewhere rfl hphase hwriter ops
    · rintro ops - (hplanned | hlogged | ⟨s, t, ht, hops⟩)
      · exact Or.inl hplanned
      · exact Or.inr (Or.inl hlogged)
      · obtain ⟨t', ht', heq, -⟩ := mem_take_of_mem hqueue ht
        exact Or.inr (Or.inr ⟨s, t', ht', heq.trans hops⟩)

private theorem shard_end (h : RaceInv x u m₀ key r₀ events m) {task : Task} {rest : List Task}
    (hqueue : m.queues (putShard x key) = task :: rest) (hnil : task.ops = [])
    (hstep : m.step x u (.shard (putShard x key)) = some (m.shardStep x (putShard x key) task rest)) :
    RaceInv x u m₀ key r₀ (events ++ [.shard (putShard x key)])
      (m.shardStep x (putShard x key) task rest) := by
  have hphase := h.owned.shardStep_phase (x := x) hqueue
  obtain ⟨-, htail⟩ := h.shape.queued task rest hqueue
  have hm' : m.shardStep x (putShard x key) task rest =
      (m.setQueue (putShard x key) rest).wake task.owner := by
    simp [shardStep, hnil]
  rw [hm'] at hstep hphase ⊢
  have hqueues : ((m.setQueue (putShard x key) rest).wake task.owner).queues =
      Function.update m.queues (putShard x key) rest := wake_queues _ _
  apply h.quietStep hstep rfl
  · apply shardShape h.shape hqueues hphase
    rintro task rest' rfl
    exact ⟨Or.inr (htail task (by simp)), fun t ht => htail t (by simp [ht])⟩
  · intro r hr
    refine ⟨r, hr.congr ?_ (wake_store _ _) ?_⟩
    · intro writer ops'
      by_cases hwriter : writer = .shard (putShard x key)
      · subst hwriter
        -- The task behind it has not begun.
        refine iff_of_false ?_ (not_critical_of_head hqueue (by simp [hnil]) ops')
        rintro ⟨task', o, rest', hq', hone, -⟩
        rw [hqueues, Function.update_self] at hq'
        obtain ⟨w, -, hops⟩ := htail task' (by simp [hq'])
        exact hops.ne_singleton o hone
      · exact critical_elsewhere hqueues hphase hwriter ops'
    · intro ops' hne hc
      exact carries_shard hqueue hqueues hphase (fun t ht => ht) (by rw [hnil]; exact hne) hc

private theorem shard_sidecar (hl : x.lite3.Lawful) (h : RaceInv x u m₀ key r₀ events m)
    {task : Task}
    {rest : List Task} (hqueue : m.queues (putShard x key) = task :: rest) {o : ShardOp}
    (hone : task.ops = [o])
    (hstep : m.step x u (.shard (putShard x key)) = some (m.shardStep x (putShard x key) task rest)) :
    RaceInv x u m₀ key r₀ (events ++ [.shard (putShard x key)])
      (m.shardStep x (putShard x key) task rest) := by
  have hphase := h.owned.shardStep_phase (x := x) hqueue
  obtain ⟨-, htail⟩ := h.shape.queued task rest hqueue
  obtain ⟨r₁, hnewest⟩ := h.newest
  have hcrit : m.Critical [o] (.shard (putShard x key)) := ⟨task, o, rest, hqueue, hone, rfl⟩
  obtain ⟨st, -, happly, -⟩ := hnewest.status.advance hl hcrit
  rw [shardStep_applies hone happly] at hstep hphase ⊢
  apply h.quietStep hstep rfl
  · apply shardShape h.shape rfl hphase
    rintro task' rest' hcons
    cases hcons
    exact ⟨Or.inl ⟨rfl, Or.inl rfl⟩, htail⟩
  · intro r hr
    apply hr.advance hl hcrit happly rfl
    · intro ops'
      simp [Critical, setQueue]
    · intro writer' ops' hne hcrit'
      exact (critical_elsewhere rfl hphase hne ops').mp hcrit'
    · intro hne
      exact absurd rfl hne
    · intro ops' hne _ hc
      exact carries_shard hqueue rfl hphase (fun t ht => List.mem_cons_of_mem _ ht)
        (by rw [hone]; exact hne) hc

-- This is where a put enters its critical section.
private theorem shard_value (hx : x.Lawful) (h : RaceInv x u m₀ key r₀ events m) {task : Task}
    {rest : List Task} (hqueue : m.queues (putShard x key) = task :: rest)
    (hexclusive : (Event.shard (putShard x key)).Exclusive x m) {w : Entry}
    (hw : w ∈ m₀.writes x u events) (hops : WriteOps x.lite3 key w task.ops)
    (hstep : m.step x u (.shard (putShard x key)) = some (m.shardStep x (putShard x key) task rest)) :
    RaceInv x u m₀ key r₀ (events ++ [.shard (putShard x key)])
      (m.shardStep x (putShard x key) task rest) := by
  have hphase := h.owned.shardStep_phase (x := x) hqueue
  obtain ⟨-, htail⟩ := h.shape.queued task rest hqueue
  obtain ⟨r, hr⟩ := h.newest
  obtain ⟨o, metaVal, hpair, hkey, hleaves, hmeta⟩ := hops
  obtain ⟨hfree, hnewer⟩ := hexclusive task o (metaKey key) metaVal rest hqueue hpair
  rcases hr.status with ⟨-, hregistered⟩ | ⟨writer, ops, -, hcrit, -⟩
  · obtain ⟨st, happly, hfollows, hholding, hframe, -⟩ := m.store.apply_leaves hleaves
    rw [hkey] at hholding hframe
    have hlt : registerStamp Entry.stamp Timestamp.zero r < w.stamp :=
      hnewer _ _ (hregistered.sidecar.localTimestamp hx)
        (localTimestamp_reads (ReadsMeta.of_metaObject hx.lite3 hmeta))
    rw [shardStep_applies hpair happly] at hstep hphase ⊢
    apply h.quietStep hstep rfl
    · apply shardShape h.shape rfl hphase
      rintro task' rest' hcons
      cases hcons
      exact ⟨Or.inl ⟨rfl, Or.inr ⟨_, rfl⟩⟩, htail⟩
    · intro r' hr'
      refine ⟨r, hr.source, hr.start, fun w' hw' => ?_, Or.inr ⟨.shard (putShard x key),
        [.put (metaKey key) metaVal], w, ?_, ?_, hw, hlt, .between hmeta hholding ?_⟩⟩
      · rcases hr.done w' hw' with hle | ⟨ops', hc, hbears⟩
        · exact Or.inl hle
        · right
          by_cases heq : ops' = [o, .put (metaKey key) metaVal]
          · rw [heq] at hbears
            refine ⟨_, Or.inr (Or.inr ⟨putShard x key, task.goOn _, ?_, rfl⟩), hbears.tail (by simp)⟩
            simp [setQueue]
          · exact ⟨ops', carries_shard hqueue rfl hphase (fun t ht => List.mem_cons_of_mem _ ht)
              (by rw [hpair]; exact heq) hc, hbears⟩
      · exact ⟨task.goOn _, _, rest, by simp [setQueue], rfl, rfl⟩
      · intro writer' ops' hcrit'
        by_contra hne
        exact hfree writer' ops' ((critical_elsewhere rfl hphase hne ops').mp hcrit')
      · exact hregistered.sidecar.mono hfollows (hframe _ (metaKey_ne key))
  · exact absurd hcrit (hfree writer ops)

private theorem shard (hx : x.Lawful) (h : RaceInv x u m₀ key r₀ events m) {s : Fin 8} {task : Task}
    {rest : List Task} (hqueue : m.queues s = task :: rest)
    (hexclusive : (Event.shard s).Exclusive x m)
    (hstep : m.step x u (.shard s) = some (m.shardStep x s task rest)) :
    RaceInv x u m₀ key r₀ (events ++ [.shard s]) (m.shardStep x s task rest) := by
  obtain rfl : s = putShard x key := by
    by_contra hne
    rw [h.shape.others s hne] at hqueue
    cases hqueue
  rcases (h.shape.queued task rest hqueue).1 with ⟨-, hnil | ⟨o, hone⟩⟩ | ⟨w, hw, hops⟩
  · exact h.shard_end hqueue hnil hstep
  · exact h.shard_sidecar hx.lite3 hqueue hone hstep
  · exact h.shard_value hx hqueue hexclusive hw hops hstep

theorem init {e : Engine} (hqueues : ∀ s, e.queues s = []) (hstored : Registered x e.store key r₀)
    (hr₀ : ∀ a ∈ r₀, Timestamp.zero < a.stamp) :
    RaceInv x u (ofEngine e) key r₀ [] (ofEngine e) := by
  have hqueue (s : Fin 8) : (ofEngine e).queues s = [] := by simp [ofEngine, hqueues]
  have hwrites : (ofEngine e).writes x u [] = [] := rfl
  refine ⟨rfl, ofEngine_owned e, ⟨?_, ?_, fun s _ => hqueue s, ?_⟩, r₀, ?_, le_refl _, ?_, Or.inl ⟨?_, hstored⟩⟩
  · intro t plan hp
    cases hp
  · intro t work hp
    cases hp
  · intro task rest hq
    rw [hqueue] at hq
    cases hq
  · intro a ha
    exact ⟨by simpa [hwrites] using ha, hr₀ a ha⟩
  · simp [hwrites]
  · intro writer ops hcrit
    cases writer with
    | thread t => exact hcrit
    | shard s =>
        obtain ⟨owner, o, rest, hq, -⟩ := hcrit
        rw [hqueue] at hq
        cases hq

theorem step (hx : x.Lawful) (h : RaceInv x u m₀ key r₀ events m) {event : Event} {m' : Machine}
    (hwrite : event.WriteOn key) (hexclusive : event.Exclusive x m)
    (hstep : m.step x u event = some m') : RaceInv x u m₀ key r₀ (events ++ [event]) m' := by
  cases step_sound hstep with
  | @start t call clock plan hidle hprep =>
      cases call with
      | put k body principal readings =>
          cases hwrite
          exact h.start_put hidle hprep hstep
      | applyMutation mu => exact h.start_mutation hx hwrite hexclusive hidle hprep hstep
      | _ => cases hwrite
  | refuse hidle hprep => exact h.refuse hx hwrite hprep hstep
  | append hphase => exact h.append hphase hstep
  | work hphase => exact h.work hx.lite3 hphase hstep
  | take hqueue hfront hfree => exact h.take hqueue hfree hstep
  | shard hqueue => exact h.shard hx hqueue hexclusive hstep
  | restart => cases hwrite

private theorem winner (h : RaceInv x u m₀ key r₀ events m) (hquiet : m.Quiet) :
    ∃ w, IsWinner Entry.stamp Timestamp.zero (r₀.toList ++ m₀.writes x u events) w ∧
      Registered x m.store key w := by
  obtain ⟨r, hr⟩ := h.newest
  have hcarries (ops : List ShardOp) : ¬ m.Carries ops := by
    rintro (⟨t, plan, hp, -⟩ | ⟨t, work, hp, -⟩ | ⟨s, task, htask, -⟩)
    · rw [hquiet.idle] at hp
      cases hp
    · rw [hquiet.idle] at hp
      cases hp
    · rw [hquiet.drained] at htask
      cases htask
  have hdone : ∀ w ∈ r₀.toList ++ m₀.writes x u events,
      w.stamp ≤ registerStamp Entry.stamp Timestamp.zero r := by
    intro w hw
    rcases List.mem_append.mp hw with hold | hnew
    · have hstart := hr.start
      rw [Option.mem_toList.mp hold] at hstart
      exact hstart
    · rcases hr.done w hnew with hle | ⟨ops, hc, -⟩
      · exact hle
      · exact absurd hc (hcarries ops)
  refine ⟨r, ?_, ?_⟩
  · cases r with
    | none => exact hdone
    | some w => exact ⟨(hr.source w rfl).1, (hr.source w rfl).2, hdone⟩
  · rcases hr.status with ⟨-, hregistered⟩ | ⟨writer, ops, -, hcrit, -⟩
    · exact hregistered
    · cases writer with
      | thread t =>
          simp only [Critical, hquiet.idle, Phase.Critical] at hcrit
      | shard s =>
          obtain ⟨task, o, rest, hq, -⟩ := hcrit
          rw [hquiet.drained] at hq
          cases hq

end RaceInv

end Machine

open Machine in
/-- Puts and mutations of one key whose critical sections are apart, run to rest: the key holds the
write with the greatest timestamp, value and sidecar alike. -/
theorem races_resolve (x : External) (hx : x.Lawful) (u : Nat → Nat → UInt8) (e : Engine)
    (hqueues : ∀ s, e.queues s = []) (key : Bytes) (r₀ : Option Entry)
    (hstored : Registered x e.store key r₀) (hr₀ : ∀ a ∈ r₀, Timestamp.zero < a.stamp)
    (events : List Event) (hevents : ∀ event ∈ events, event.WriteOn key)
    (hexclusive : EveryStep (step x u) (ofEngine e) events (Event.Exclusive x)) (m : Machine)
    (hrun : (ofEngine e).run x u events = some m) (hquiet : m.Quiet) :
    ∃ w, IsWinner Entry.stamp Timestamp.zero (r₀.toList ++ (ofEngine e).writes x u events) w ∧
      Registered x m.store key w ∧
      ((∀ a ∈ w, a.value.length < 2 ^ 32) → m.store.stateOf x key = Entry.state w) := by
  have hP : EveryStep (step x u) (ofEngine e) events fun m event =>
      event.WriteOn key ∧ event.Exclusive x m := by
    intro before event after hsplit m' hbefore
    exact ⟨hevents event (by simp [hsplit]), hexclusive before event after hsplit m' hbefore⟩
  have hinv : RaceInv x u (ofEngine e) key r₀ events m := by
    apply run_invariant (RaceInv x u (ofEngine e) key r₀) (RaceInv.init hqueues hstored hr₀) _ hP hrun
    intro done m₁ event m₂ h hok hstep
    exact h.step hx hok.1 hok.2 hstep
  obtain ⟨w, hwinner, hregistered⟩ := hinv.winner hquiet
  exact ⟨w, hwinner, hregistered, hregistered.state_eq hx.lite3 hx.zstd hx.smallMeta⟩

private def mutationBy (t : Nat) (value : String) (wall : Int64) : Event :=
  .start t (.applyMutation ⟨⟨wall, 0, 2⟩, ascii "k", ascii value, false⟩)

private def raceX : External := External.reference fun _ => 0

private def raceStart : Machine := .ofEngine (Engine.openOn raceX 1 [])

/-- No thread but the first two has begun, and neither of them is in a critical section. -/
private def outside (m : Machine) : Bool :=
  decide ((m.phase 0 = .idle ∨ m.phase 0 = .waiting) ∧ (m.phase 1 = .idle ∨ m.phase 1 = .waiting) ∧
    ∀ s, (m.queues s).head?.map (fun task => task.ops.length) ≠ some 1)

private theorem free_of_outside (events : List Event) {m : Machine}
    (hevents : ∀ event ∈ events, ∀ t ∈ event.thread?, t < 2)
    (hrun : raceStart.run raceX (fun _ _ => 0) events = some m)
    (hm : (raceStart.run raceX (fun _ _ => 0) events).map outside = some true) : m.Free := by
  rw [hrun, Option.map_some, Option.some.injEq, outside, decide_eq_true_eq] at hm
  obtain ⟨h0, h1, hqueues⟩ := hm
  intro writer ops hcrit
  cases writer with
  | thread t =>
      have hphase : m.phase t = .idle ∨ m.phase t = .waiting := by
        by_cases hlt : t < 2
        · obtain rfl | rfl : t = 0 ∨ t = 1 := by omega
          · exact h0
          · exact h1
        · exact Or.inl (Machine.idle_of_run hevents hrun hlt)
      rcases hphase with hp | hp <;> simp [Machine.Critical, hp, Phase.Critical] at hcrit
  | shard s =>
      obtain ⟨task, o, rest, hq, hone, -⟩ := hcrit
      exact hqueues s (by simp [hq, hone])

/-- If a put begins on the first shard, nobody is in a critical section and the put is newer. -/
private def entersNewer (m : Machine) : Bool :=
  match (m.queues firstShard).head?.map Task.ops with
  | some [_, .put mkey metaVal] =>
      outside m && match localTimestamp raceX.lite3 (m.store.get raceX mkey adminUid),
          localTimestamp raceX.lite3 metaVal with
        | some old, some new => decide (old < new)
        | _, _ => true
  | _ => true

private theorem exclusive_of_enters {events : List Event} {m : Machine}
    (hevents : ∀ event ∈ events, ∀ t ∈ event.thread?, t < 2)
    (hrun : raceStart.run raceX (fun _ _ => 0) events = some m)
    (hm : (raceStart.run raceX (fun _ _ => 0) events).map entersNewer = some true) :
    (Event.shard firstShard).Exclusive raceX m := by
  intro task o mkey metaVal rest hq hpair
  have hhead : (m.queues firstShard).head?.map Task.ops = some [o, .put mkey metaVal] := by
    simp [hq, hpair]
  have henters := hm
  rw [hrun, Option.map_some, Option.some.injEq, entersNewer, hhead, Bool.and_eq_true] at henters
  refine ⟨free_of_outside events hevents hrun (by rw [hrun, Option.map_some, henters.1]), ?_⟩
  intro old new hold hnew
  have hlt := henters.2
  rw [hold, hnew, decide_eq_true_eq] at hlt
  exact hlt

/-- A mutation, and a put that begins after it and is newer. -/
private def apartWrites : List Event :=
  [mutationBy 0 "m" 2, .append 0, .work 0, .work 0, .work 0,
    .start 1 (.put (ascii "k") (ascii "p") adminUid [3]), .append 1, .work 1,
    .shard firstShard, .shard firstShard, .shard firstShard]

/-- Two mutations that both read the sidecar before either writes it. -/
private def overlappingWrites : List Event :=
  [mutationBy 0 "a" 1, mutationBy 1 "b" 2, .append 0, .append 1, .work 0, .work 1, .work 1, .work 0,
    .work 0, .work 1]

open Machine in
theorem races_resolve_apart :
    ∃ m, raceStart.run raceX (fun _ _ => 0) apartWrites = some m ∧ m.Quiet ∧
      ∃ w, IsWinner Entry.stamp Timestamp.zero (raceStart.writes raceX (fun _ _ => 0) apartWrites) w ∧
        Registered raceX m.store (ascii "k") w := by
  have hfinal : (raceStart.run raceX (fun _ _ => 0) apartWrites).map (fun m =>
      decide (m.phase 0 = .idle ∧ m.phase 1 = .idle ∧ ∀ s, m.queues s = [])) = some true := by decide
  obtain ⟨m, hrun, hm⟩ := Option.map_eq_some_iff.mp hfinal
  rw [decide_eq_true_eq] at hm
  have hquiet : m.Quiet := by
    apply quiet_of_run 2 (by decide) hrun _ hm.2.2
    intro t hlt
    obtain rfl | rfl : t = 0 ∨ t = 1 := by omega
    · exact hm.1
    · exact hm.2.1
  have hexclusive : EveryStep (step raceX fun _ _ => 0) raceStart apartWrites
      (Event.Exclusive raceX) := by
    refine everyStep_cons (free_of_outside [] (by simp) rfl (by decide)) fun s₁ h₁ =>
      everyStep_cons trivial fun s₂ h₂ => everyStep_cons trivial fun s₃ h₃ =>
      everyStep_cons trivial fun s₄ h₄ => everyStep_cons trivial fun s₅ h₅ =>
      everyStep_cons trivial fun s₆ h₆ => everyStep_cons trivial fun s₇ h₇ =>
      everyStep_cons trivial fun s₈ h₈ => everyStep_cons ?_ fun s₉ h₉ =>
      everyStep_cons ?_ fun s₁₀ h₁₀ => everyStep_cons ?_ fun _ _ => everyStep_nil
    · have hrun : raceStart.run raceX (fun _ _ => 0) (apartWrites.take 8) = some s₈ := by
        simp [apartWrites, run, h₁, h₂, h₃, h₄, h₅, h₆, h₇, h₈]
      exact exclusive_of_enters (by decide) hrun (by decide)
    · have hrun : raceStart.run raceX (fun _ _ => 0) (apartWrites.take 9) = some s₉ := by
        simp [apartWrites, run, h₁, h₂, h₃, h₄, h₅, h₆, h₇, h₈, h₉]
      exact exclusive_of_enters (by decide) hrun (by decide)
    · have hrun : raceStart.run raceX (fun _ _ => 0) (apartWrites.take 10) = some s₁₀ := by
        simp [apartWrites, run, h₁, h₂, h₃, h₄, h₅, h₆, h₇, h₈, h₉, h₁₀]
      exact exclusive_of_enters (by decide) hrun (by decide)
  obtain ⟨w, hwinner, hregistered, -⟩ := races_resolve raceX (External.reference_lawful _)
    (fun _ _ => 0) (Engine.openOn raceX 1 []) (fun _ => rfl) (ascii "k") none
    ((represents_init (x := raceX)).here (ascii "k") (by decide)) (by simp) apartWrites
    (by simp [apartWrites, mutationBy, Event.WriteOn]) hexclusive m hrun hquiet
  exact ⟨m, hrun, hquiet, w, hwinner, hregistered⟩

open Machine in
/-- The value of the second mutation is left with the timestamp of the first. -/
theorem races_mixed :
    ∃ m, raceStart.run raceX (fun _ _ => 0) overlappingWrites = some m ∧ m.Quiet ∧
      m.store.stateOf raceX (ascii "k") = (ascii "b", some ⟨1, 0, 2⟩, false) ∧
      raceStart.writes raceX (fun _ _ => 0) overlappingWrites =
        [⟨⟨1, 0, 2⟩, ascii "a", false⟩, ⟨⟨2, 0, 2⟩, ascii "b", false⟩] := by
  have hfinal : (raceStart.run raceX (fun _ _ => 0) overlappingWrites).map (fun m =>
      (decide (m.phase 0 = .idle ∧ m.phase 1 = .idle ∧ ∀ s, m.queues s = []),
        m.store.stateOf raceX (ascii "k"))) = some (true, ascii "b", some ⟨1, 0, 2⟩, false) := by
    decide
  obtain ⟨m, hrun, hm⟩ := Option.map_eq_some_iff.mp hfinal
  simp only [Prod.mk.injEq, decide_eq_true_eq] at hm
  refine ⟨m, hrun, ?_, hm.2, by decide⟩
  apply quiet_of_run 2 (by decide) hrun _ hm.1.2.2
  intro t hlt
  obtain rfl | rfl : t = 0 ∨ t = 1 := by omega
  · exact hm.1.1
  · exact hm.1.2.1

end L3KV
