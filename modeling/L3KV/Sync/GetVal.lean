import L3KV.Engine.Deletes
import L3KV.Engine.Running
import L3KV.Sync.Handlers

/-!
# What `on_get_val` sends while its key is written

A write applies its value and then its metadata; `on_get_val` reads the metadata and then the value.
Each of the four steps takes the lock of a shard by itself. Where writes of the key are apart from
each other and from the two reads, a message carries the value and the metadata of one write.
-/

namespace L3KV

open Framework

/-- A node with a mesh thread that answers `GET_VAL` for one key. -/
structure GetVal where
  machine : Machine
  /-- The metadata between the two reads. -/
  read : Option Bytes
  sent : List SyncMessage

inductive GetValEvent where
  | step (event : Event)
  | readMeta
  | readVal

def GetValEvent.event? : GetValEvent → Option Event
  | .step event => some event
  | _ => none

namespace GetVal

def init (x : External) (nodeId : UInt32) : GetVal :=
  ⟨Machine.ofEngine (Engine.openOn x nodeId []), none, []⟩

def step (x : External) (u : Nat → Nat → UInt8) (key : Bytes) (s : GetVal) :
    GetValEvent → Option GetVal
  | .step event => (s.machine.step x u event).map fun m => { s with machine := m }
  | .readMeta =>
      match s.read with
      | some _ => none
      | none =>
          let metaVal := s.machine.store.get x (key ++ ascii ":meta") adminUid
          some (if metaVal.length = 0 then s else { s with read := some metaVal })
  | .readVal =>
      match s.read with
      | none => none
      | some metaVal =>
          let val := s.machine.store.get x key adminUid
          some { s with read := none, sent := s.sent ++ [.putVal key metaVal val] }

private theorem step_machine {x : External} {u : Nat → Nat → UInt8} {key : Bytes} {s s' : GetVal}
    {event : GetValEvent} (h : s.step x u key event = some s') :
    (event.event? = none ∧ s'.machine = s.machine) ∨
      ∃ e, event.event? = some e ∧ s.machine.step x u e = some s'.machine := by
  cases event with
  | step event =>
      obtain ⟨m, hm, rfl⟩ := Option.map_eq_some_iff.mp h
      exact Or.inr ⟨event, rfl, hm⟩
  | readMeta =>
      simp only [step] at h
      split at h
      · cases h
      · cases h
        refine Or.inl ⟨rfl, ?_⟩
        split <;> rfl
  | readVal =>
      simp only [step] at h
      split at h
      · cases h
      · cases h
        exact Or.inl ⟨rfl, rfl⟩

theorem machine_run {x : External} {u : Nat → Nat → UInt8} {key : Bytes} {events : List GetValEvent}
    {s s' : GetVal} (hrun : events.foldlM (step x u key) s = some s') :
    s.machine.run x u (events.filterMap GetValEvent.event?) = some s'.machine :=
  run_part GetVal.machine GetValEvent.event? (fun _ _ _ => step_machine) hrun

/-- Without a step in between, the two reads are `on_get_val`. -/
theorem step_onGetVal (x : External) (u : Nat → Nat → UInt8) (key : Bytes) {s : GetVal}
    (h : s.read = none) :
    ((s.step x u key .readMeta).bind fun s' =>
      if s'.read.isSome then s'.step x u key .readVal else some s') =
        some { s with sent := s.sent ++ onGetVal x s.machine.engine key } := by
  obtain ⟨m, read, sent⟩ := s
  cases h
  simp only [step, onGetVal, Machine.engine, Option.bind_some]
  split <;> simp_all

end GetVal

/-- A `put`, `del` or `apply_mutation` of this key. -/
def Call.WritesTo (key : Bytes) : Call → Prop
  | .put k _ _ _ => k = key
  | .del k _ _ => k = key
  | .applyMutation mu => mu.key = key
  | _ => False

/-- The entry it is going to leave, if it is accepted. -/
def Call.wrote (x : External) (e : Engine) : Call → Option Entry
  | .applyMutation mu => some (mu.entry x.lite3)
  | call => (call.written x e).map Prod.snd

def GetVal.wrote (x : External) (s : GetVal) : GetValEvent → Option Entry
  | .step event => event.call?.bind (Call.wrote x s.machine.engine)
  | _ => none

def GetValEvent.On (key : Bytes) : GetValEvent → Prop
  | .step event => event ≠ .restart ∧ ∀ call ∈ event.call?, call.WritesTo key
  | _ => True

/-- A write has applied its value and not its metadata. -/
def Machine.HalfApplied (m : Machine) (key : Bytes) : Prop :=
  ∃ writer metaVal, m.running writer = [.put (metaKey key) metaVal]

/-- The value of a write is applied, and the metadata are read, only while no other write is half
applied; between the two reads no value is applied. -/
def GetValEvent.Apart (x : External) (key : Bytes) (s : GetVal) : GetValEvent → Prop
  | .step event => ∀ o ∈ s.machine.performs x event, o.key = key →
      s.read = none ∧ ¬ s.machine.HalfApplied key
  | .readMeta => ¬ s.machine.HalfApplied key
  | .readVal => True

/-- The message has the metadata of the write, and a value that was read from a blob of its value. -/
def SyncMessage.Of (x : External) (key : Bytes) (w : Entry) : SyncMessage → Prop
  | .putVal k metaVal value => k = key ∧ metaObject x.lite3 w.stamp w.tombstone = some metaVal ∧
      ∃ (manager : ZstdManager) (b : Blob), b.Holds x.zstd manager w.value ∧
        value = b.read x.zstd manager
  | _ => False

section

variable {x : External} {u : Nat → Nat → UInt8} {key : Bytes}

theorem Call.WritesTo.ops {call : Call} (h : call.WritesTo key) {e : Engine}
    {clock : HybridLogicalClock} {plan : Plan}
    (hprep : e.prepare x u call = some (clock, .accepted plan)) :
    ∃ w ops place, call.wrote x e = some w ∧ WriteOps x.lite3 key w ops ∧
      plan.work.parts = [(place, ops)] := by
  cases Engine.prepare_sound hprep with
  | put k body principal readings hcan hnow hmeta hwork =>
      cases h
      exact ⟨writtenEntry x.lite3 _ body false, _, _, by simp [wrote, written, hcan, hnow],
        ⟨.put key body, _, rfl, rfl, rfl, hmeta⟩, by rw [hwork]; rfl⟩
  | del k principal readings hcan hnow hmeta hwork =>
      cases h
      exact ⟨writtenEntry x.lite3 _ [] true, _, _, by simp [wrote, written, hcan, hnow],
        ⟨.del key, _, rfl, rfl, rfl, hmeta⟩, by rw [hwork]; rfl⟩
  | applyMutation mu _ _ hplan =>
      cases h
      obtain ⟨metaVal, hmeta, hwork, -⟩ := mutationPlan_spec hplan
      exact ⟨mu.entry x.lite3, _, _, rfl, mu.writeOps hmeta, by rw [hwork]; rfl⟩
  | _ => cases h

end

/-- A write between its two operations. -/
structure HalfWrite (x : External) (st : Store) (key : Bytes) (w : Entry) (ops : List ShardOp) :
    Prop where
  left : ∃ metaVal, ops = [.put (metaKey key) metaVal] ∧
    metaObject x.lite3 w.stamp w.tombstone = some metaVal
  applied : st.Holding x key w.value

/-- The lists of operations are writes of the key, and at most one of them is half applied. -/
structure Pairs (x : External) (key : Bytes) (ws : List Entry) (m : Machine) : Prop where
  owned : m.Owned
  unbegun : ∀ ops, m.Unbegun ops → ∃ w ∈ ws, WriteOps x.lite3 key w ops
  running : ∀ writer, m.running writer = [] ∨ ∃ w ∈ ws,
    WriteOps x.lite3 key w (m.running writer) ∨ HalfWrite x m.store key w (m.running writer)
  alone : ∀ writer writer' metaVal metaVal', m.running writer = [.put (metaKey key) metaVal] →
    m.running writer' = [.put (metaKey key) metaVal'] → writer = writer'
  calm : ¬ m.HalfApplied key → ∃ r : Option Entry, (∀ w ∈ r, w ∈ ws) ∧ Registered x m.store key r
  only : ∀ other, m.store.find x other ≠ none → other = key ∨ other = metaKey key

namespace Pairs

variable {x : External} {u : Nat → Nat → UInt8} {key : Bytes} {ws : List Entry} {m m' : Machine}

theorem mono {ws' : List Entry} (h : Pairs x key ws m) (hws : ∀ w ∈ ws, w ∈ ws') :
    Pairs x key ws' m := by
  refine ⟨h.owned, fun ops hops => ?_, fun writer => ?_, h.alone, fun hhalf => ?_, h.only⟩
  · obtain ⟨w, hw, hwrite⟩ := h.unbegun ops hops
    exact ⟨w, hws w hw, hwrite⟩
  · exact (h.running writer).imp_right fun ⟨w, hw, hlist⟩ => ⟨w, hws w hw, hlist⟩
  · obtain ⟨r, hr, hregistered⟩ := h.calm hhalf
    exact ⟨r, fun w hw => hws w (hr w hw), hregistered⟩

private theorem eq_nil_of_gone (h : Pairs x key ws m) {writer : Writer}
    (hgone : m.Gone x (m.running writer)) : m.running writer = [] := by
  rcases hgone with hnil | ⟨o, rest, hops, hthrows⟩
  · exact hnil
  · rcases h.running writer with hnil | ⟨w, -, hwrite | hhalf⟩
    · exact hnil
    · obtain ⟨o', metaVal, heq, -, hleaves, -⟩ := hwrite
      rw [hops] at heq
      cases heq
      obtain ⟨st', happly, -⟩ := m.store.apply_leaves hleaves
      rw [hthrows] at happly
      cases happly
    · obtain ⟨metaVal, heq, -⟩ := hhalf.left
      rw [hops] at heq
      cases heq
      cases hthrows

private theorem half_iff (h : Pairs x key ws m) {writer : Writer}
    (hreplaces : Machine.Replaces x m m' writer) {metaVal : Bytes} :
    m'.running writer = [.put (metaKey key) metaVal] ↔
      m.running writer = [.put (metaKey key) metaVal] := by
  rcases hreplaces with hsame | ⟨hbefore, hnext⟩
  · rw [hsame]
  · refine iff_of_false (fun heq => ?_) fun heq => ?_
    · rcases hnext with hnil | hnew
      · rw [hnil] at heq
        cases heq
      · obtain ⟨w, -, hops⟩ := h.unbegun _ hnew
        exact hops.ne_singleton _ heq
    · rcases hbefore with hgone | hold
      · rw [h.eq_nil_of_gone hgone] at heq
        cases heq
      · obtain ⟨w, -, hops⟩ := h.unbegun _ hold
        exact hops.ne_singleton _ heq

private theorem halfApplied_iff (h : Pairs x key ws m)
    (hreplaces : ∀ writer, Machine.Replaces x m m' writer) :
    m'.HalfApplied key ↔ m.HalfApplied key := by
  simp only [Machine.HalfApplied, h.half_iff (hreplaces _)]

theorem replaced (h : Pairs x key ws m) (howned : m'.Owned) (hstore : m'.store = m.store)
    (hunbegun : ∀ ops, m'.Unbegun ops → ∃ w ∈ ws, WriteOps x.lite3 key w ops)
    (hreplaces : ∀ writer, Machine.Replaces x m m' writer) : Pairs x key ws m' := by
  refine ⟨howned, hunbegun, fun writer => ?_, ?_, ?_, by rw [hstore]; exact h.only⟩
  · rw [hstore]
    rcases hreplaces writer with hsame | ⟨-, hnil | hnew⟩
    · rw [hsame]
      exact h.running writer
    · exact Or.inl hnil
    · obtain ⟨w, hw, hwrite⟩ := h.unbegun _ hnew
      exact Or.inr ⟨w, hw, Or.inl hwrite⟩
  · simp only [h.half_iff (hreplaces _)]
    exact h.alone
  · rw [h.halfApplied_iff hreplaces, hstore]
    exact h.calm

section Performed

variable {writer : Writer} {o : ShardOp}

private theorem others (h : Pairs x key ws m)
    (hothers : ∀ other, other ≠ writer → m'.running other = m.running other)
    (hnone : ∀ other metaVal, other ≠ writer → m.running other ≠ [.put (metaKey key) metaVal])
    {other : Writer} (hne : other ≠ writer) :
    m'.running other = [] ∨ ∃ w ∈ ws, WriteOps x.lite3 key w (m'.running other) ∨
      HalfWrite x m'.store key w (m'.running other) := by
  rw [hothers other hne]
  rcases h.running other with hnil | ⟨w, hw, hwrite | hhalf⟩
  · exact Or.inl hnil
  · exact Or.inr ⟨w, hw, Or.inl hwrite⟩
  · obtain ⟨metaVal, heq, -⟩ := hhalf.left
    exact absurd heq (hnone other metaVal hne)

private theorem value (h : Pairs x key ws m) (howned : m'.Owned)
    (hunbegun : ∀ ops, m'.Unbegun ops → ∃ w ∈ ws, WriteOps x.lite3 key w ops)
    (happly : m.store.apply x o = some m'.store)
    (hothers : ∀ other, other ≠ writer → m'.running other = m.running other) {w : Entry} (hw : w ∈ ws)
    (hwrite : WriteOps x.lite3 key w (o :: m'.running writer))
    (hapart : o.key = key → ¬ m.HalfApplied key) : Pairs x key ws m' := by
  obtain ⟨o', metaVal, heq, hkey, hleaves, hmeta⟩ := hwrite
  obtain ⟨rfl, hleft⟩ := List.cons.inj heq
  have hnone (other : Writer) (metaVal' : Bytes) :
      m.running other ≠ [.put (metaKey key) metaVal'] :=
    fun heq => hapart hkey ⟨other, metaVal', heq⟩
  obtain ⟨st, happly', -, hholding, hframe, -⟩ := m.store.apply_leaves hleaves
  rw [happly] at happly'
  cases happly'
  rw [hkey] at hholding hframe
  have hself {other : Writer} {metaVal' : Bytes}
      (heq : m'.running other = [.put (metaKey key) metaVal']) : other = writer := by
    by_contra hne
    rw [hothers other hne] at heq
    exact hnone other metaVal' heq
  refine ⟨howned, hunbegun, fun other => ?_, fun other other' _ _ ho ho' => ?_, fun hcalm => ?_,
    fun other hfind => ?_⟩
  · by_cases hne : other = writer
    · subst hne
      exact Or.inr ⟨w, hw, Or.inr ⟨⟨metaVal, hleft, hmeta⟩, hholding⟩⟩
    · exact h.others hothers (fun other _ _ => hnone other _) hne
  · rw [hself ho, hself ho']
  · exact absurd ⟨writer, metaVal, hleft⟩ hcalm
  · by_cases hother : other = key
    · exact Or.inl hother
    · rw [hframe other hother] at hfind
      exact h.only other hfind

private theorem sidecar (hl : x.lite3.Lawful) (h : Pairs x key ws m) (howned : m'.Owned)
    (hunbegun : ∀ ops, m'.Unbegun ops → ∃ w ∈ ws, WriteOps x.lite3 key w ops)
    (hops : m.running writer = o :: m'.running writer)
    (happly : m.store.apply x o = some m'.store)
    (hothers : ∀ other, other ≠ writer → m'.running other = m.running other) {w : Entry} (hw : w ∈ ws)
    (hhalf : HalfWrite x m.store key w (o :: m'.running writer)) : Pairs x key ws m' := by
  obtain ⟨⟨metaVal, heq, hmeta⟩, hvalue⟩ := hhalf
  obtain ⟨rfl, hleft⟩ := List.cons.inj heq
  have hunderway : Underway x m.store key w [.put (metaKey key) metaVal] :=
    Or.inr (Or.inl ⟨metaVal, rfl, hmeta, hvalue⟩)
  obtain ⟨st, happly', hdone, -, hframe⟩ := hunderway.step hl
  rw [happly] at happly'
  cases happly'
  have hregistered : Registered x m'.store key (some w) := by
    rcases hdone with ⟨_, _, hnil, -⟩ | ⟨_, hnil, -⟩ | ⟨-, hregistered⟩
    · cases hnil
    · cases hnil
    · exact hregistered
  have hnone (other : Writer) (metaVal' : Bytes) (hne : other ≠ writer) :
      m.running other ≠ [.put (metaKey key) metaVal'] := by
    intro heq
    rw [hleft] at hops
    exact hne (h.alone other writer _ _ heq hops)
  have hcalm {other : Writer} {metaVal' : Bytes} :
      m'.running other ≠ [.put (metaKey key) metaVal'] := by
    by_cases hne : other = writer
    · subst hne
      simp [hleft]
    · rw [hothers other hne]
      exact hnone other metaVal' hne
  refine ⟨howned, hunbegun, fun other => ?_, fun _ _ _ _ ho => absurd ho hcalm, fun _ => ?_,
    fun other hfind => ?_⟩
  · by_cases hne : other = writer
    · subst hne
      exact Or.inl hleft
    · exact h.others hothers hnone hne
  · refine ⟨some w, fun w' hw' => ?_, hregistered⟩
    cases hw'
    exact hw
  · by_cases hother : other = metaKey key
    · exact Or.inr hother
    · rw [hframe other hother] at hfind
      exact h.only other hfind

theorem performed (hl : x.lite3.Lawful) (h : Pairs x key ws m) (howned : m'.Owned)
    (hunbegun : ∀ ops, m'.Unbegun ops → ∃ w ∈ ws, WriteOps x.lite3 key w ops)
    (hops : m.running writer = o :: m'.running writer)
    (happly : m.store.apply x o = some m'.store)
    (hothers : ∀ other, other ≠ writer → m'.running other = m.running other)
    (hapart : o.key = key → ¬ m.HalfApplied key) : Pairs x key ws m' := by
  rcases h.running writer with hnil | ⟨w, hw, hwrite | hhalf⟩
  · rw [hops] at hnil
    cases hnil
  · rw [hops] at hwrite
    exact h.value howned hunbegun happly hothers hw hwrite hapart
  · rw [hops] at hhalf
    exact h.sidecar hl howned hunbegun hops happly hothers hw hhalf

end Performed

theorem step (hl : x.lite3.Lawful) (h : Pairs x key ws m) {event : Event} {ws' : List Entry}
    (hws : ∀ w ∈ ws, w ∈ ws') (hrestart : event ≠ .restart)
    (hcall : ∀ call ∈ event.call?, call.WritesTo key)
    (hentry : ∀ call ∈ event.call?, ∀ w ∈ call.wrote x m.engine, w ∈ ws')
    (hapart : ∀ o ∈ m.performs x event, o.key = key → ¬ m.HalfApplied key)
    (hstep : m.step x u event = some m') : Pairs x key ws' m' := by
  have hmono := h.mono hws
  have hsound := Machine.step_sound hstep
  have howned : m'.Owned := h.owned.step hstep
  have hunbegun (ops : List ShardOp) (hops : m'.Unbegun ops) :
      ∃ w ∈ ws', WriteOps x.lite3 key w ops := by
    rcases hsound.unbegun hrestart hops with hold | ⟨t, call, clock, plan, place, rfl, hprep, hpart⟩
    · exact hmono.unbegun ops hold
    · obtain ⟨w, ops', place', hw, hwrite, hparts⟩ := (hcall call rfl).ops hprep
      rw [hparts, List.mem_singleton] at hpart
      cases hpart
      exact ⟨w, hentry call rfl w hw, hwrite⟩
  rcases hsound.running h.owned hrestart with
    ⟨-, hstore, hreplaces⟩ | ⟨writer, o, hperforms, hops, happly, hothers⟩
  · exact hmono.replaced howned hstore hunbegun hreplaces
  · exact hmono.performed hl howned hunbegun hops happly hothers (hapart o hperforms)

theorem init (x : External) (nodeId : UInt32) (key : Bytes) :
    Pairs x key [] (GetVal.init x nodeId).machine := by
  have hrunning (writer : Writer) : (GetVal.init x nodeId).machine.running writer = [] := by
    cases writer <;> rfl
  have hfind (other : Bytes) : (Store.init x).find x other = none := by
    simp [Store.find, Store.init]
  refine ⟨Machine.ofEngine_owned _, fun ops hops => ?_, fun writer => Or.inl (hrunning writer), ?_,
    fun _ => ⟨none, by simp, hfind key, hfind _⟩, fun other hother => absurd (hfind other) hother⟩
  · rcases hops with ⟨_, _, hphase, -⟩ | ⟨_, _, hphase, -⟩ | ⟨s, task, htask, -⟩
    · cases hphase
    · cases hphase
    · cases htask
  · intro writer writer' metaVal metaVal' h
    rw [hrunning] at h
    cases h

end Pairs

/-- What has been sent, and what is about to be. -/
structure Untorn (x : External) (key : Bytes) (ws : List Entry) (s : GetVal) : Prop where
  pairs : Pairs x key ws s.machine
  held : ∀ metaVal ∈ s.read, metaVal ≠ [] ∧ ¬ s.machine.HalfApplied key ∧
    metaVal = s.machine.store.get x (key ++ ascii ":meta") adminUid
  sent : ∀ message ∈ s.sent, ∃ w ∈ ws, message.Of x key w

namespace Untorn

variable {x : External} {u : Nat → Nat → UInt8} {key : Bytes} {ws : List Entry} {s : GetVal}

private theorem machineStep (hx : x.Lawful) (h : Untorn x key ws s) {event : Event}
    (hon : (GetValEvent.step event).On key) (hapart : (GetValEvent.step event).Apart x key s)
    {m : Machine} (hstep : s.machine.step x u event = some m) :
    Untorn x key (ws ++ (s.wrote x (.step event)).toList) { s with machine := m } := by
  have hws (w : Entry) (hw : w ∈ ws) : w ∈ ws ++ (s.wrote x (.step event)).toList :=
    List.mem_append_left _ hw
  refine ⟨h.pairs.step hx.lite3 hws hon.1 hon.2 ?_ (fun o ho hkey => (hapart o ho hkey).2) hstep,
    fun metaVal hread => ?_, fun message hmessage => ?_⟩
  · intro call hcall w hw
    have hwrote : s.wrote x (.step event) = some w := Option.bind_eq_some_iff.mpr ⟨call, hcall, hw⟩
    rw [hwrote]
    exact List.mem_append_right _ List.mem_cons_self
  · obtain ⟨hne, hcalm, heq⟩ := h.held metaVal hread
    rcases (Machine.step_sound hstep).running h.pairs.owned hon.1 with
      ⟨-, hstore, hreplaces⟩ | ⟨writer, o, hperforms, hops, -⟩
    · refine ⟨hne, fun hhalf => hcalm ((h.pairs.halfApplied_iff hreplaces).mp hhalf), ?_⟩
      rw [hstore]
      exact heq
    -- an operation would be the value of a write, and those wait for the second read
    · rcases h.pairs.running writer with hnil | ⟨w, -, ⟨o', _, hlist, hkey, -⟩ | hhalf⟩
      · rw [hops] at hnil
        cases hnil
      · rw [hops] at hlist
        obtain ⟨rfl, -⟩ := List.cons.inj hlist
        have hnone := (hapart o hperforms hkey).1
        rw [hnone] at hread
        cases hread
      · obtain ⟨metaVal', hlist, -⟩ := hhalf.left
        exact absurd ⟨writer, metaVal', hlist⟩ hcalm
  · obtain ⟨w, hw, hof⟩ := h.sent message hmessage
    exact ⟨w, hws w hw, hof⟩

private theorem paired (hx : x.Lawful) (h : Untorn x key ws s) {metaVal : Bytes}
    (hread : s.read = some metaVal) :
    ∃ w ∈ ws, (SyncMessage.putVal key metaVal (s.machine.store.get x key adminUid)).Of x key w := by
  obtain ⟨hne, hcalm, heq⟩ := h.held metaVal hread
  have hfind : s.machine.store.find x (key ++ ascii ":meta") ≠ none := by
    intro hnone
    rw [get_eq_nil hnone] at heq
    exact hne heq
  -- the text that is looked up is the sidecar, or nothing would have been found
  have hkey : key ++ ascii ":meta" = metaKey key := by
    rcases h.pairs.only _ hfind with hself | hkey
    · have hlen := congrArg List.length hself
      simp [ascii] at hlen
    · exact hkey
  rw [hkey] at heq hfind
  obtain ⟨r, hr, hregistered⟩ := h.pairs.calm hcalm
  cases r with
  | none => exact absurd hregistered.2 hfind
  | some w =>
      obtain ⟨b, hb, hholds⟩ := hregistered.1
      refine ⟨w, hr w rfl, rfl, ?_, s.machine.store.zstd, b, hholds, get_eq_read hb⟩
      rw [heq]
      exact hregistered.get_meta hx.zstd hx.smallMeta

theorem step (hx : x.Lawful) (h : Untorn x key ws s) {event : GetValEvent} {s' : GetVal}
    (hon : event.On key) (hapart : event.Apart x key s)
    (hstep : s.step x u key event = some s') :
    Untorn x key (ws ++ (s.wrote x event).toList) s' := by
  cases event with
  | step event =>
      obtain ⟨m, hm, rfl⟩ := Option.map_eq_some_iff.mp hstep
      exact h.machineStep hx hon hapart hm
  | readMeta =>
      simp only [GetVal.wrote, Option.toList_none, List.append_nil]
      simp only [GetVal.step] at hstep
      split at hstep
      · cases hstep
      · cases hstep
        split
        · exact h
        · rename_i hne
          refine ⟨h.pairs, fun metaVal hread => ?_, h.sent⟩
          cases hread
          exact ⟨fun hnil => hne (by rw [hnil]; rfl), hapart, rfl⟩
  | readVal =>
      simp only [GetVal.wrote, Option.toList_none, List.append_nil]
      simp only [GetVal.step] at hstep
      split at hstep
      · cases hstep
      · rename_i metaVal hread
        cases hstep
        refine ⟨h.pairs, by simp, fun message hmessage => ?_⟩
        rcases List.mem_append.mp hmessage with hold | hnew
        · exact h.sent message hold
        · rw [List.mem_singleton.mp hnew]
          exact h.paired hx hread

end Untorn

/-- Every message of a run in which the writes of the key are apart from each other and from the two
reads has the value, the timestamp and the tombstone of one of these writes. -/
theorem get_val_untorn {x : External} (hx : x.Lawful) {u : Nat → Nat → UInt8} {nodeId : UInt32}
    {key : Bytes} {events : List GetValEvent} {s : GetVal} (hon : ∀ event ∈ events, event.On key)
    (hapart : EveryStep (GetVal.step x u key) (GetVal.init x nodeId) events
      fun s event => event.Apart x key s)
    (hrun : events.foldlM (GetVal.step x u key) (GetVal.init x nodeId) = some s) :
    ∀ message ∈ s.sent,
      ∃ w ∈ collect (GetVal.step x u key) (GetVal.wrote x) (GetVal.init x nodeId) events,
        message.Of x key w := by
  have hsteps : EveryStep (GetVal.step x u key) (GetVal.init x nodeId) events
      fun s event => event.On key ∧ event.Apart x key s := by
    intro before event after hsplit s' hbefore
    exact ⟨hon event (by simp [hsplit]), hapart before event after hsplit s' hbefore⟩
  have hinit : Untorn x key [] (GetVal.init x nodeId) := by
    refine ⟨Pairs.init x nodeId key, fun metaVal hread => ?_, fun message hmessage => ?_⟩
    · cases hread
    · cases hmessage
  have huntorn := collect_invariant (Untorn x key) hinit
    (fun ws s₁ event s₂ h hok hstep => h.step hx hok.1 hok.2 hstep) hsteps hrun
  exact huntorn.sent

private def tornX : External := External.reference fun _ => 0

private def putOf (thread : Nat) (body : String) (reading : Int64) : List GetValEvent :=
  [.step (.start thread (.put (ascii "k") (ascii body) adminUid [reading])), .step (.append thread),
    .step (.work thread)]

/-- The thread of the shard performs this many steps. -/
private def shardSteps (n : Nat) : List GetValEvent := List.replicate n (.step (.shard firstShard))

/-- The second put is enqueued between the two reads and applied after them. -/
private def apartReads : List GetValEvent :=
  putOf 0 "a" 1 ++ shardSteps 3 ++ [.readMeta] ++ putOf 1 "b" 2 ++ [.readVal] ++ shardSteps 3

/-- The value of the second put is applied between the two reads. -/
private def tornReads : List GetValEvent :=
  putOf 0 "a" 1 ++ shardSteps 3 ++ [.readMeta] ++ putOf 1 "b" 2 ++ shardSteps 1 ++ [.readVal]

private def noneHalf (m : Machine) : Bool :=
  decide (m.running (.thread 0) = [] ∧ m.running (.thread 1) = [] ∧
    ∀ s, (m.running (.shard s)).length ≠ 1)

private def apartCheck (s : GetVal) : GetValEvent → Bool
  | .step event => (s.machine.performs tornX event).all fun o =>
      decide (o.key ≠ ascii "k") || s.read.isNone && noneHalf s.machine
  | .readMeta => noneHalf s.machine
  | .readVal => true

private theorem calm_of_noneHalf {events : List GetValEvent} {s : GetVal}
    (hthreads : ∀ event ∈ events.filterMap GetValEvent.event?, ∀ t ∈ event.thread?, t < 2)
    (hrun : events.foldlM (GetVal.step tornX (fun _ _ => 0) (ascii "k")) (GetVal.init tornX 1) = some s)
    (h : noneHalf s.machine = true) : ¬ s.machine.HalfApplied (ascii "k") := by
  rw [noneHalf, decide_eq_true_eq] at h
  rintro ⟨writer, metaVal, hops⟩
  cases writer with
  | thread t =>
      by_cases hlt : t < 2
      · obtain rfl | rfl : t = 0 ∨ t = 1 := by omega
        · rw [h.1] at hops
          cases hops
        · rw [h.2.1] at hops
          cases hops
      · have hidle := Machine.idle_of_run hthreads (GetVal.machine_run hrun) hlt
        rw [Machine.running_thread hidle (by simp)] at hops
        cases hops
  | shard s' => exact h.2.2 s' (by rw [hops]; rfl)

theorem get_val_untorn_apart :
    ∃ s, apartReads.foldlM (GetVal.step tornX (fun _ _ => 0) (ascii "k")) (GetVal.init tornX 1) =
        some s ∧ s.sent.length = 1 ∧
      ∀ message ∈ s.sent, ∃ w ∈ collect (GetVal.step tornX (fun _ _ => 0) (ascii "k"))
        (GetVal.wrote tornX) (GetVal.init tornX 1) apartReads, message.Of tornX (ascii "k") w := by
  have hsent : (apartReads.foldlM (GetVal.step tornX (fun _ _ => 0) (ascii "k"))
      (GetVal.init tornX 1)).map (fun s => s.sent.length) = some 1 := by decide +kernel
  obtain ⟨s, hrun, hlength⟩ := Option.map_eq_some_iff.mp hsent
  have hchecked : allSteps (GetVal.step tornX (fun _ _ => 0) (ascii "k")) apartCheck
      (GetVal.init tornX 1) apartReads = true := by decide +kernel
  refine ⟨s, hrun, hlength, get_val_untorn (External.reference_lawful _) ?_ ?_ hrun⟩
  · simp [apartReads, putOf, shardSteps, GetValEvent.On, Event.call?, Call.WritesTo]
  · intro before event after hsplit s' hbefore
    have hcheck := everyStep_of_allSteps hchecked before event after hsplit s' hbefore
    have hthreads : ∀ event ∈ apartReads.filterMap GetValEvent.event?, ∀ t ∈ event.thread?, t < 2 := by
      decide
    rw [hsplit, List.filterMap_append] at hthreads
    have hcalm := calm_of_noneHalf (fun e he => hthreads e (List.mem_append_left _ he)) hbefore
    cases event with
    | step event =>
        intro o ho hkey
        have ho' : s'.machine.performs tornX event = some o := ho
        simp only [apartCheck, ho', Option.all_some, hkey, ne_eq, not_true_eq_false, decide_false,
          Bool.false_or, Bool.and_eq_true, Option.isNone_iff_eq_none] at hcheck
        exact ⟨hcheck.1, hcalm hcheck.2⟩
    | readMeta => exact hcalm hcheck
    | readVal => trivial

/-- The first put is complete when its metadata are read, and then the value of the second is. -/
theorem get_val_torn :
    ∃ s, (∀ event ∈ tornReads, event.On (ascii "k")) ∧
      tornReads.foldlM (GetVal.step tornX (fun _ _ => 0) (ascii "k")) (GetVal.init tornX 1) = some s ∧
      ∃ message ∈ s.sent, ∀ w ∈ collect (GetVal.step tornX (fun _ _ => 0) (ascii "k"))
        (GetVal.wrote tornX) (GetVal.init tornX 1) tornReads, ¬ message.Of tornX (ascii "k") w := by
  have hsent : (tornReads.foldlM (GetVal.step tornX (fun _ _ => 0) (ascii "k"))
      (GetVal.init tornX 1)).map (fun s => s.sent) =
        (metaObject tornX.lite3 ⟨1, 0, 1⟩ false).map fun metaVal =>
          [.putVal (ascii "k") metaVal (ascii "b")] := by decide +kernel
  have hwrites : collect (GetVal.step tornX (fun _ _ => 0) (ascii "k")) (GetVal.wrote tornX)
      (GetVal.init tornX 1) tornReads =
        [⟨⟨1, 0, 1⟩, ascii "a", false⟩, ⟨⟨2, 0, 1⟩, ascii "b", false⟩] := by decide +kernel
  have hstamps : metaObject tornX.lite3 ⟨2, 0, 1⟩ false ≠ metaObject tornX.lite3 ⟨1, 0, 1⟩ false := by
    decide +kernel
  have hlawful : tornX.Lawful := External.reference_lawful _
  obtain ⟨metaVal, hmeta, -⟩ := metaObject_reads hlawful.lite3 ⟨1, 0, 1⟩ false
  rw [hmeta, Option.map_some] at hsent
  obtain ⟨s, hrun, hs⟩ := Option.map_eq_some_iff.mp hsent
  refine ⟨s, ?_, hrun, .putVal (ascii "k") metaVal (ascii "b"), by rw [hs]; simp, ?_⟩
  · simp [tornReads, putOf, shardSteps, GetValEvent.On, Event.call?, Call.WritesTo]
  · rw [hwrites]
    intro w hw
    rcases List.mem_cons.mp hw with rfl | hw
    · rintro ⟨-, -, manager, b, hholds, hvalue⟩
      rw [hholds.read hlawful.zstd (by decide)] at hvalue
      exact absurd hvalue (by decide)
    · rw [List.mem_singleton.mp hw]
      rintro ⟨-, hmeta', -⟩
      exact hstamps (hmeta'.trans hmeta.symm)

end L3KV
