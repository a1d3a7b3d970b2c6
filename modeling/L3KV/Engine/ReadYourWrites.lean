import L3KV.Engine.Patches
import L3KV.Framework.WriteBehind

/-!
# Reading what one has written

Reads go straight to the shards. Most writes are waited for, but `batch_put` returns when its entries
are queued. One client, whose calls come from one thread, therefore sees its own writes as long as it
keeps away from keys that have an entry of a batch in a queue.
-/

namespace L3KV

open Framework

/-- What the operation makes of the content of its key; `none` if it throws. -/
def ShardOp.makes (l : Lite3) (content : Bytes) : ShardOp → Option Bytes
  | .put _ body => some (storedForm l body)
  | .del _ => some []
  | o => o.sets l (if content.length = 0 then l.initObject else content)

/-- The contents of all keys after a task, which ends at the first operation that throws. -/
def runContents (l : Lite3) (contents : Bytes → Bytes) : List ShardOp → Bytes → Bytes
  | [] => contents
  | o :: task =>
      match o.makes l (contents o.key) with
      | none => contents
      | some content => runContents l (Function.update contents o.key content) task

/-- The fields `batch_get` sets in its result, in order. A compressed value becomes a text. -/
def Store.batchGet (x : External) (st : Store) (keys : List Bytes) (principal : UInt32) :
    List (Bytes × Lite3Type × Bytes) :=
  keys.filterMap fun key =>
    if (st.credentials.checkPermission principal key).canRead then
      (st.find x key).map fun b =>
        (key, if b.compressed then .string else .bytes, b.read x.zstd st.zstd)
    else none

/-- An engine with one client, and what the writes of the client have made of every key. -/
structure Client where
  machine : Machine
  written : Bytes → Bytes

inductive ClientEvent where
  /-- A step of a call of the client, or of the thread of a shard. -/
  | step (event : Event)
  | get (key : Bytes) (principal : UInt32)
  | batchGet (keys : List Bytes) (principal : UInt32)

/-- The step of the engine; a read changes nothing. -/
def ClientEvent.event? : ClientEvent → Option Event
  | .step event => some event
  | _ => none

namespace Client

def init (x : External) (nodeId : UInt32) : Client :=
  ⟨Machine.ofEngine (Engine.openOn x nodeId []), fun _ => []⟩

/-- The contents after the write that begins. -/
def writes (x : External) (u : Nat → Nat → UInt8) (s : Client) (event : Event) : Bytes → Bytes :=
  match event.call?.bind (s.machine.engine.planOf x u) with
  | none => s.written
  | some plan => runContents x.lite3 s.written plan.work.ops

def step (x : External) (u : Nat → Nat → UInt8) (s : Client) : ClientEvent → Option Client
  | .step event => (s.machine.step x u event).map fun m => ⟨m, s.writes x u event⟩
  | _ => some s

theorem machine_run {x : External} {u : Nat → Nat → UInt8} {events : List ClientEvent}
    {s s' : Client}
    (hrun : events.foldlM (step x u) s = some s') :
    s.machine.run x u (events.filterMap ClientEvent.event?) = some s'.machine := by
  refine run_part Client.machine ClientEvent.event? ?_ hrun
  intro s event s' hstep
  cases event with
  | step event =>
      obtain ⟨m, hm, rfl⟩ := Option.map_eq_some_iff.mp hstep
      exact Or.inr ⟨event, rfl, hm⟩
  | get key principal =>
      cases hstep
      exact Or.inl ⟨rfl, rfl⟩
  | batchGet keys principal =>
      cases hstep
      exact Or.inl ⟨rfl, rfl⟩

end Client

def Machine.Queued (m : Machine) (key : Bytes) : Prop := ∃ s, ∃ o ∈ m.queuedOps s, o.key = key

instance (m : Machine) (key : Bytes) : Decidable (m.Queued key) :=
  inferInstanceAs (Decidable (∃ s, ∃ o ∈ m.queuedOps s, o.key = key))

/-- The key that a call other than `batch_put` writes. A `del` goes through the queue of its key, and
the entries of a batch through those of their sidecars. -/
def Call.overtakes? : Call → Option Bytes
  | .put key _ _ _ => some key
  | .del key _ _ => some key
  | .patchInt key _ _ _ => some key
  | .patchStr key _ _ _ => some key
  | .batchPut .. => none
  | .applyMutation mu => some mu.key

namespace ClientEvent

/-- Calls are made and keys are read one after the other. -/
def OneByOne (m : Machine) : ClientEvent → Prop
  | .step event => event.OneByOne m
  | _ => ∀ t, m.phase t = .idle

/-- Nothing is queued for the keys that are read, or written other than by `batch_put`. -/
def Settled (m : Machine) : ClientEvent → Prop
  | .step event => ∀ call ∈ event.call?, ∀ key ∈ call.overtakes?,
      ¬ m.Queued key ∧ ¬ m.Queued (metaKey key)
  | .get key _ => ¬ m.Queued key
  | .batchGet keys _ => ∀ key ∈ keys, ¬ m.Queued key

instance decidableSettled (m : Machine) : (event : ClientEvent) → Decidable (event.Settled m)
  | .step event => inferInstanceAs (Decidable (∀ call ∈ event.call?, ∀ key ∈ call.overtakes?,
      ¬ m.Queued key ∧ ¬ m.Queued (metaKey key)))
  | .get key _ => inferInstanceAs (Decidable (¬ m.Queued key))
  | .batchGet keys _ => inferInstanceAs (Decidable (∀ key ∈ keys, ¬ m.Queued key))

/-- The client reads what it has written, where it may read. -/
def Sees (x : External) (s : Client) : ClientEvent → Prop
  | .step _ => True
  | .get key principal =>
      (s.machine.store.credentials.checkPermission principal key).canRead →
        s.machine.store.get x key principal = s.written key
  | .batchGet keys principal => ∀ key ∈ keys,
      (s.machine.store.credentials.checkPermission principal key).canRead →
        (∀ type value, (key, type, value) ∈ s.machine.store.batchGet x keys principal →
          value = s.written key) ∧
        (s.written key ≠ [] →
          ∃ type, (key, type, s.written key) ∈ s.machine.store.batchGet x keys principal)

end ClientEvent

namespace Store

/-- All stored values are shorter than `2 ^ 32` bytes. -/
def ValuesShort (x : External) (st : Store) : Prop :=
  ∀ key content, st.Holding x key content → content.length < 2 ^ 32

/-- The contents of all keys, empty for one without an entry. -/
def Shows (x : External) (st : Store) (contents : Bytes → Bytes) : Prop :=
  ∀ key, st.Holding x key (contents key) ∨ (st.find x key = none ∧ contents key = [])

section

variable {x : External} {st : Store} {contents : Bytes → Bytes}

theorem Shows.read_eq (hz : x.zstd.Lossless) (hshort : st.ValuesShort x) (h : st.Shows x contents)
    {key : Bytes} {b : Blob} (hfind : st.find x key = some b) :
    b.read x.zstd st.zstd = contents key := by
  rcases h key with hholding | ⟨hnone, -⟩
  · have hlen := hshort key _ hholding
    obtain ⟨b', hb', hholds⟩ := hholding
    rw [hfind] at hb'
    cases hb'
    exact hholds.read hz hlen
  · rw [hfind] at hnone
    cases hnone

private theorem Shows.eq_nil (h : st.Shows x contents) {key : Bytes}
    (hfind : st.find x key = none) :
    contents key = [] := by
  rcases h key with ⟨b, hb, -⟩ | ⟨-, hnil⟩
  · rw [hfind] at hb
    cases hb
  · exact hnil

theorem Shows.get_eq (hz : x.zstd.Lossless) (hshort : st.ValuesShort x) (h : st.Shows x contents)
    {key : Bytes} {principal : UInt32}
    (hcan : (st.credentials.checkPermission principal key).canRead) :
    st.get x key principal = contents key := by
  rw [Store.get, if_pos hcan]
  cases hfind : st.find x key with
  | none => exact (h.eq_nil hfind).symm
  | some b => exact h.read_eq hz hshort hfind

theorem Shows.update {st' : Store} (h : st.Shows x contents) {o : ShardOp}
    (happly : st.apply x o = some st') {content : Bytes} (hkey : st'.Holding x o.key content) :
    st'.Shows x (Function.update contents o.key content) := by
  intro key
  by_cases hne : key = o.key
  · rw [hne, Function.update_self]
    exact Or.inl hkey
  · rw [Function.update_of_ne hne]
    have hfind := Store.apply_find_ne happly hne
    rcases h key with hholding | ⟨hnone, hnil⟩
    · exact Or.inl (hholding.mono (Store.apply_follows happly) hfind)
    · exact Or.inr ⟨hfind.trans hnone, hnil⟩

private theorem Shows.holds (h : st.Shows x contents) {key : Bytes} {b : Blob}
    (hfind : st.find x key = some b) : ∃ content, b.Holds x.zstd st.zstd content := by
  rcases h key with ⟨b', hb', hholds⟩ | ⟨hnone, -⟩
  · rw [hfind] at hb'
    cases hb'
    exact ⟨_, hholds⟩
  · rw [hfind] at hnone
    cases hnone

/-- The operation throws or succeeds as the contents say, and leaves what they say. -/
def AppliesAs (x : External) (st : Store) (contents : Bytes → Bytes) (o : ShardOp) : Prop :=
  (st.apply x o = none ∧ o.makes x.lite3 (contents o.key) = none) ∨
    ∃ st' content, st.apply x o = some st' ∧ o.makes x.lite3 (contents o.key) = some content ∧
      st'.Shows x (Function.update contents o.key content)

theorem Shows.apply_leaves (h : st.Shows x contents) {o : ShardOp} {content : Bytes}
    (ho : o.Leaves x.lite3 content) (hmakes : o.makes x.lite3 (contents o.key) = some content) :
    st.AppliesAs x contents o := by
  obtain ⟨st', happly, -, hholding, -⟩ := st.apply_leaves ho
  exact Or.inr ⟨st', content, happly, hmakes, h.update happly hholding⟩

private theorem Shows.apply_patch (hframed : x.zstd.Framed) (h : st.Shows x contents) {o : ShardOp}
    {set : Bytes → Option Bytes}
    (happly : st.apply x o = st.applyPatch x o.key (Blob.setField x.lite3 x.zstd st.zstd set))
    (hmakes : o.makes x.lite3 (contents o.key) = set (st.patchBase x o.key)) :
    st.AppliesAs x contents o := by
  have hreadable (b : Blob) (hb : st.find x o.key = some b) := h.holds hb
  cases hnext : st.apply x o with
  | none =>
      refine Or.inl ⟨hnext, ?_⟩
      rw [hmakes]
      exact Store.applyPatch_throws hframed hreadable (happly.symm.trans hnext)
  | some st' =>
      obtain ⟨buf, hbuf, hholding⟩ :=
        Store.applyPatch_holding hframed hreadable (happly.symm.trans hnext)
      exact Or.inr ⟨st', buf, hnext, hmakes.trans hbuf, h.update hnext hholding⟩

theorem Shows.apply (hz : x.zstd.Lossless) (hframed : x.zstd.Framed) (hshort : st.ValuesShort x)
    (h : st.Shows x contents) (o : ShardOp) : st.AppliesAs x contents o := by
  have hbase : st.patchBase x o.key =
      if (contents o.key).length = 0 then x.lite3.initObject else contents o.key := by
    rw [patchBase, h.get_eq hz hshort (by simp)]
  cases o with
  | put key body => exact h.apply_leaves rfl rfl
  | del key => exact h.apply_leaves rfl rfl
  | patchInt key field value => exact h.apply_patch hframed rfl (by rw [hbase]; rfl)
  | patchStr key field value => exact h.apply_patch hframed rfl (by rw [hbase]; rfl)

end

end Store

/-- The operation is a put that goes to this shard. -/
def ShardOp.EntryOf (x : External) (i : Fin 8) (o : ShardOp) : Prop :=
  (∃ body, o = .put o.key body) ∧ routingShard x.xxh3 o.key = i

/-- The work of a call: entries for the queues of their keys, or operations on keys that nothing is
queued for. -/
structure Work.Fit (x : External) (left : Fin 8 → List ShardOp) (work : Work) : Prop where
  entries : ∀ tasks, work = .async tasks → ∀ w ∈ tasks, ∀ o ∈ w.2, o.EntryOf x w.1
  apart : work.Single → ∀ o ∈ work.ops, ∀ i, ∀ o' ∈ left i, o'.key ≠ o.key

/-- What one operation makes of a content; one that throws leaves it. -/
def ShardOp.effect (l : Lite3) (o : ShardOp) (content : Bytes) : Bytes :=
  (o.makes l content).getD content

/-- The store shows `stored`, which the queues turn into `seen`, which the call under way turns into
`written`. -/
structure Sequential.Writes (x : External) (v : Sequential) (written stored seen : Bytes → Bytes) :
    Prop where
  shows : v.store.Shows x stored
  foreseen : Foreseen ShardOp.key (ShardOp.effect x.lite3) (routingShard x.xxh3) stored v.left seen
  queued : ∀ i, ∀ o ∈ v.left i, o.EntryOf x i
  own : written = runContents x.lite3 seen (v.own.elim [] Work.ops)
  fit : ∀ work, v.own = some work → work.Fit x v.left

section

variable {x : External} {u : Nat → Nat → UInt8}

private theorem ShardOp.EntryOf.makes {i : Fin 8} {o : ShardOp} (h : o.EntryOf x i) (l : Lite3) :
    ∃ content, ∀ before, o.makes l before = some content := by
  obtain ⟨⟨body, hput⟩, -⟩ := h
  rw [hput]
  exact ⟨_, fun _ => rfl⟩

theorem Work.Fit.mono {left left' : Fin 8 → List ShardOp} {work : Work} (h : work.Fit x left)
    (hleft : ∀ i, ∀ o ∈ left' i, o ∈ left i) : work.Fit x left' :=
  ⟨h.entries, fun hsingle o ho i o' ho' => h.apart hsingle o ho i o' (hleft i o' ho')⟩

private theorem runContents_append {l : Lite3} {ops : List ShardOp}
    (h : ∀ o ∈ ops, ∃ content, ∀ before, o.makes l before = some content) (more : List ShardOp)
    (contents : Bytes → Bytes) :
    runContents l contents (ops ++ more) = runContents l
      (fun key => settle ShardOp.key (ShardOp.effect l) key ops (contents key)) more := by
  induction ops generalizing contents with
  | nil => rfl
  | cons o ops ih =>
      obtain ⟨content, hmakes⟩ := h o List.mem_cons_self
      rw [List.cons_append, runContents, hmakes]
      dsimp only
      rw [ih fun o' ho' => h o' (List.mem_cons_of_mem _ ho')]
      congr 1
      funext key
      rw [settle, settle, List.foldl_cons]
      congr 1
      by_cases hkey : o.key = key
      · rw [if_pos hkey, ← hkey, Function.update_self, ShardOp.effect, hmakes, Option.getD_some]
      · rw [if_neg hkey, Function.update_of_ne (Ne.symm hkey)]

namespace Sequential.Writes

variable {v : Sequential} {written stored seen : Bytes → Bytes}

private theorem hand (h : v.Writes x written stored seen) {i : Fin 8} {ops : List ShardOp}
    {tasks : List (Fin 8 × List ShardOp)} (hown : v.own = some (.async ((i, ops) :: tasks))) :
    ∃ seen', Sequential.Writes x { v with
      own := some (.async tasks)
      left := Function.update v.left i (v.left i ++ ops) } written stored seen' := by
  have hentries := (h.fit _ hown).entries _ rfl
  have hops : ∀ o ∈ ops, o.EntryOf x i := hentries (i, ops) List.mem_cons_self
  refine ⟨_, h.shows, h.foreseen.enqueue fun o ho => (hops o ho).2, fun i' o ho => ?_, ?_, ?_⟩
  · dsimp only at ho
    by_cases heq : i' = i
    · subst heq
      rw [Function.update_self, List.mem_append] at ho
      rcases ho with ho | ho
      · exact h.queued i' o ho
      · exact hops o ho
    · rw [Function.update_of_ne heq] at ho
      exact h.queued i' o ho
  · rw [h.own, hown]
    exact runContents_append (fun o ho => (hops o ho).makes x.lite3) _ _
  · intro work hwork
    cases hwork
    refine ⟨fun tasks' heq w hw => ?_, fun hsingle => absurd hsingle id⟩
    cases heq
    exact hentries w (List.mem_cons_of_mem _ hw)

private theorem next (hz : x.zstd.Lossless) (hframed : x.zstd.Framed)
    (hshort : v.store.ValuesShort x) (h : v.Writes x written stored seen) {work rest : Work}
    {o : ShardOp} (hown : v.own = some work) (hnext : work.next = some (o, rest)) :
    (v.store.apply x o = none ∧ written = seen) ∨
      ∃ st stored' seen', v.store.apply x o = some st ∧
        Sequential.Writes x { v with store := st, own := some rest } written stored' seen' := by
  obtain ⟨hops, hsingle, hrest⟩ := Work.next_ops hnext
  have hapart := (h.fit work hown).apart hsingle
  have hnone : ∀ o' ∈ v.left (routingShard x.xxh3 o.key), o'.key ≠ o.key :=
    hapart o (by rw [hops]; exact List.mem_cons_self) _
  have hsame : seen o.key = stored o.key := h.foreseen.eq_stored hnone
  have hwritten : written = runContents x.lite3 seen (o :: rest.ops) := by
    rw [h.own, hown, ← hops]
    rfl
  rcases h.shows.apply hz hframed hshort o with
    ⟨hthrows, hmakes⟩ | ⟨st, content, happly, hmakes, hshows⟩
  · refine Or.inl ⟨hthrows, ?_⟩
    rw [hwritten, runContents, hsame, hmakes]
  · refine Or.inr ⟨st, _, _, happly, hshows, h.foreseen.write hnone content, h.queued, ?_, ?_⟩
    · rw [hwritten, runContents, hsame, hmakes]
      rfl
    · intro work' hwork'
      cases hwork'
      refine ⟨fun tasks heq => ?_, fun _ o' ho' => ?_⟩
      · rw [heq] at hrest
        exact absurd hrest id
      · exact hapart o' (by rw [hops]; exact List.mem_cons_of_mem _ ho')

private theorem catchUp (hz : x.zstd.Lossless) (hframed : x.zstd.Framed)
    (hshort : v.store.ValuesShort x) (h : v.Writes x written stored seen) {i : Fin 8} {o : ShardOp}
    {ops : List ShardOp} (hleft : v.left i = o :: ops) :
    ∃ st stored', v.store.apply x o = some st ∧ Sequential.Writes x { v with
      store := st
      left := Function.update v.left i ops } written stored' seen := by
  have hentry : o.EntryOf x i := h.queued i o (by rw [hleft]; exact List.mem_cons_self)
  have hshrinks (i' : Fin 8) (o' : ShardOp) (ho' : o' ∈ Function.update v.left i ops i') :
      o' ∈ v.left i' := by
    by_cases heq : i' = i
    · subst heq
      rw [Function.update_self] at ho'
      rw [hleft]
      exact List.mem_cons_of_mem _ ho'
    · rwa [Function.update_of_ne heq] at ho'
  obtain ⟨content, hcontent⟩ := hentry.makes x.lite3
  rcases h.shows.apply hz hframed hshort o with ⟨-, hmakes⟩ | ⟨st, content', happly, hmakes, hshows⟩
  · rw [hcontent] at hmakes
    cases hmakes
  · have heffect : o.effect x.lite3 (stored o.key) = content' := by
      rw [ShardOp.effect, hmakes, Option.getD_some]
    have hforeseen := h.foreseen.perform hleft hentry.2
    rw [heffect] at hforeseen
    exact ⟨st, _, happly, hshows, hforeseen, fun i' o' ho' => h.queued i' o' (hshrinks i' o' ho'),
      h.own, fun work hwork => (h.fit work hwork).mono hshrinks⟩

theorem step (hz : x.zstd.Lossless) (hframed : x.zstd.Framed) (hshort : v.store.ValuesShort x)
    (h : v.Writes x written stored seen) {p : Option ShardOp} {v' : Sequential}
    (hstep : v.Step x p v') : ∃ stored' seen', v'.Writes x written stored' seen' := by
  cases hstep with
  | stay => exact ⟨stored, seen, h⟩
  | hand hown => exact ⟨stored, h.hand hown⟩
  | perform hown hnext _ happly =>
      rcases h.next hz hframed hshort hown hnext with ⟨hthrows, -⟩ | ⟨st, stored', seen', happly', h'⟩
      · rw [happly] at hthrows
        cases hthrows
      · rw [happly] at happly'
        cases happly'
        exact ⟨stored', seen', h'⟩
  | @stop work hown hstop =>
      refine ⟨stored, seen, h.shows, h.foreseen, h.queued, ?_, fun work hwork => by cases hwork⟩
      rcases hstop with hnil | ⟨o, rest, hnext, hthrows⟩
      · rw [h.own, hown]
        simp only [Option.elim_some, hnil, Option.elim_none]
      · rcases h.next hz hframed hshort hown hnext with ⟨-, hwritten⟩ | ⟨_, _, _, happly, -⟩
        · exact hwritten
        · rw [hthrows] at happly
          cases happly
  | catchUp hleft happly =>
      obtain ⟨st, stored', happly', h'⟩ := h.catchUp hz hframed hshort hleft
      rw [happly] at happly'
      cases happly'
      exact ⟨stored', seen, h'⟩
  | drop hleft hthrows =>
      obtain ⟨st, stored', happly, -⟩ := h.catchUp hz hframed hshort hleft
      rw [hthrows] at happly
      cases happly

theorem begin (h : v.Writes x written stored seen) (hown : v.own = none) {work : Work}
    (hfit : work.Fit x v.left) :
    Sequential.Writes x { v with own := some work } (runContents x.lite3 written work.ops) stored
      seen := by
  refine ⟨h.shows, h.foreseen, h.queued, ?_, fun work' hwork' => ?_⟩
  · rw [h.own, hown]
    rfl
  · cases hwork'
    exact hfit

end Sequential.Writes

private theorem Call.pair_of_prepare {call : Call} {key : Bytes}
    (hcall : call.overtakes? = some key)
    {e : Engine} {clock : HybridLogicalClock} {plan : Plan}
    (h : e.prepare x u call = some (clock, .accepted plan)) :
    plan.work.Single ∧ plan.work.ops.map ShardOp.key = [key, metaKey key] := by
  cases Engine.prepare_sound h with
  | put _ _ _ _ _ _ _ hwork =>
      cases hcall
      rw [hwork]
      exact ⟨trivial, rfl⟩
  | del _ _ _ _ _ _ hwork =>
      cases hcall
      rw [hwork]
      exact ⟨trivial, rfl⟩
  | patchInt =>
      cases hcall
      exact ⟨trivial, rfl⟩
  | patchStr =>
      cases hcall
      exact ⟨trivial, rfl⟩
  | batchPut => cases hcall
  | applyMutation mu _ _ hplan =>
      cases hcall
      obtain ⟨metaVal, -, hwork, -⟩ := mutationPlan_spec hplan
      rw [hwork]
      refine ⟨trivial, ?_⟩
      cases hdel : mu.isDelete <;> simp [Work.ops, Mutation.shardOp, hdel, ShardOp.key]

private theorem fit_of_prepare {m : Machine} {call : Call}
    (hsettled : ∀ key ∈ call.overtakes?, ¬ m.Queued key ∧ ¬ m.Queued (metaKey key))
    {clock : HybridLogicalClock} {plan : Plan}
    (h : m.engine.prepare x u call = some (clock, .accepted plan)) :
    plan.work.Fit x m.queuedOps := by
  cases hcall : call.overtakes? with
  | some key =>
      obtain ⟨hsingle, hkeys⟩ := call.pair_of_prepare hcall h
      obtain ⟨hkey, hsidecar⟩ := hsettled key hcall
      refine ⟨fun tasks heq => ?_, fun _ o ho i o' ho' heq => ?_⟩
      · rw [heq] at hsingle
        exact absurd hsingle id
      · have hmem : o.key ∈ [key, metaKey key] := hkeys ▸ List.mem_map_of_mem ho
        rcases List.mem_cons.mp hmem with hself | hmeta
        · exact hkey ⟨i, o', ho', heq.trans hself⟩
        · exact hsidecar ⟨i, o', ho', heq.trans (List.mem_singleton.mp hmeta)⟩
  | none =>
      cases Engine.prepare_sound h with
      | batchPut _ _ _ s hloop =>
          refine ⟨fun tasks heq w hw o ho => ?_, fun hsingle => absurd hsingle id⟩
          cases heq
          obtain ⟨i, -, rfl⟩ := List.mem_map.mp (List.mem_filter.mp hw).1
          obtain ⟨hroute, hof⟩ := batch_works hloop i o ho
          refine ⟨?_, hroute⟩
          cases hof <;> exact ⟨_, rfl⟩
      | _ => cases hcall

/-- The writes of the client, seen through the calls one after the other. -/
def Client.Follows (x : External) (s : Client) : Prop :=
  ∃ v stored seen, s.machine.SeenAs v ∧ v.Writes x s.written stored seen

namespace Client.Follows

variable {s : Client}

theorem init (x : External) (nodeId : UInt32) : (Client.init x nodeId).Follows x := by
  have hfind (key : Bytes) : (Store.init x).find x key = none := by simp [Store.find, Store.init]
  refine ⟨_, fun _ => [], fun _ => [], Machine.seenAs_ofEngine, ?_⟩
  exact {
    shows := fun key => Or.inr ⟨hfind key, rfl⟩
    foreseen := fun _ => rfl
    queued := fun _ _ ho => absurd ho List.not_mem_nil
    own := rfl
    fit := fun _ hwork => absurd hwork.symm (Option.some_ne_none _) }

theorem step (hz : x.zstd.Lossless) (hframed : x.zstd.Framed) (h : s.Follows x)
    (hshort : s.machine.store.ValuesShort x) {event : ClientEvent} {s' : Client}
    (hone : event.OneByOne s.machine) (hsettled : event.Settled s.machine)
    (hstep : s.step x u event = some s') : s'.Follows x := by
  cases event with
  | get key principal =>
      cases hstep
      exact h
  | batchGet keys principal =>
      cases hstep
      exact h
  | step event =>
      obtain ⟨m, hm, rfl⟩ := Option.map_eq_some_iff.mp hstep
      obtain ⟨v, stored, seen, hseen, hwrites⟩ := h
      have hsound := Machine.step_sound hm
      cases event with
      | start t call =>
          cases hsound with
          | @start _ _ clock plan hidle hprep =>
              obtain ⟨hown, hleft, -⟩ := hseen.own_eq_none hone.1
              have hplan : s.machine.engine.planOf x u call = some plan :=
                Engine.planOf_eq_some.mpr ⟨clock, hprep⟩
              have hfit := fit_of_prepare (hsettled call rfl) hprep
              rw [← hleft] at hfit
              refine ⟨_, stored, seen, hseen.start hone.1 t hone.2 clock plan, ?_⟩
              simp only [Client.writes, Event.call?, Option.bind_some, hplan]
              exact hwrites.begin hown hfit
      | _ =>
          obtain ⟨v', hseen', hnext | ⟨_, _, _, _, hstart, -⟩⟩ := hseen.step hsound hone
          · rw [← hseen.store_eq] at hshort
            obtain ⟨stored', seen', hwrites'⟩ := hwrites.step hz hframed hshort hnext
            exact ⟨v', stored', seen', hseen', hwrites'⟩
          · cases hstart

/-- Between two calls, a key that nothing is queued for holds what was written. -/
theorem shows (h : s.Follows x) (hidle : ∀ t, s.machine.phase t = .idle) :
    ∃ stored, s.machine.store.Shows x stored ∧
      ∀ key, ¬ s.machine.Queued key → s.written key = stored key := by
  obtain ⟨v, stored, seen, hseen, hwrites⟩ := h
  obtain ⟨hown, hleft, -⟩ := hseen.own_eq_none hidle
  have hwritten := hwrites.own
  rw [hown] at hwritten
  refine ⟨stored, hseen.store_eq ▸ hwrites.shows, fun key hnone => ?_⟩
  have hapart : ∀ o ∈ v.left (routingShard x.xxh3 key), o.key ≠ key := by
    intro o ho hkey
    rw [hleft] at ho
    exact hnone ⟨_, o, ho, hkey⟩
  rw [hwritten]
  exact hwrites.foreseen.eq_stored hapart

private theorem sees (hz : x.zstd.Lossless) (h : s.Follows x)
    (hshort : s.machine.store.ValuesShort x)
    {event : ClientEvent} (hone : event.OneByOne s.machine) (hsettled : event.Settled s.machine) :
    event.Sees x s := by
  cases event with
  | step event => trivial
  | get key principal =>
      obtain ⟨stored, hshows, hsame⟩ := h.shows hone
      intro hcan
      rw [hsame key hsettled]
      exact hshows.get_eq hz hshort hcan
  | batchGet keys principal =>
      obtain ⟨stored, hshows, hsame⟩ := h.shows hone
      intro key hkey hcan
      rw [hsame key (hsettled key hkey)]
      constructor
      · intro type value hfield
        obtain ⟨key', -, hvalue⟩ := List.mem_filterMap.mp hfield
        split at hvalue
        · obtain ⟨b, hb, heq⟩ := Option.map_eq_some_iff.mp hvalue
          cases heq
          exact hshows.read_eq hz hshort hb
        · cases hvalue
      · intro hne
        cases hfind : s.machine.store.find x key with
        | none => exact absurd (hshows.eq_nil hfind) hne
        | some b =>
            refine ⟨if b.compressed then .string else .bytes, List.mem_filterMap.mpr ⟨key, hkey, ?_⟩⟩
            rw [if_pos hcan, hfind, Option.map_some, hshows.read_eq hz hshort hfind]

end Client.Follows

end

/-- In every run of one client, with every scheduling of the shard threads: if nothing is queued for
the keys that it reads, or writes other than by `batch_put`, it reads what it has written. -/
theorem read_your_writes {x : External} (hz : x.zstd.Lossless) (hframed : x.zstd.Framed)
    {u : Nat → Nat → UInt8} {nodeId : UInt32} {events : List ClientEvent}
    (hone : EveryStep (Client.step x u) (Client.init x nodeId) events
      fun s event => event.OneByOne s.machine)
    (hshort : EveryStep (Client.step x u) (Client.init x nodeId) events
      fun s _ => s.machine.store.ValuesShort x)
    (hsettled : EveryStep (Client.step x u) (Client.init x nodeId) events
      fun s event => event.Settled s.machine) :
    EveryStep (Client.step x u) (Client.init x nodeId) events fun s event => event.Sees x s := by
  have hsteps : EveryStep (Client.step x u) (Client.init x nodeId) events fun s event =>
      event.OneByOne s.machine ∧ s.machine.store.ValuesShort x ∧ event.Settled s.machine :=
    fun before event after hsplit s hbefore => ⟨hone before event after hsplit s hbefore,
      hshort before event after hsplit s hbefore, hsettled before event after hsplit s hbefore⟩
  intro before event after hsplit s hbefore
  obtain ⟨hnow, hvalues, hkeys⟩ := hsteps before event after hsplit s hbefore
  have hfollows : s.Follows x := by
    rw [hsplit] at hsteps
    refine run_invariant (fun _ s => s.Follows x) (Client.Follows.init x nodeId) ?_ hsteps.front hbefore
    rintro _ s₁ event' s₂ h ⟨hone', hshort', hsettled'⟩ hstep
    exact h.step hz hframed hshort' hone' hsettled' hstep
  exact hfollows.sees hz hvalues hnow hkeys

private def ownX : External := External.reference fun _ => 0

/-- The batch that sets `a`. -/
private def ownBatch : Bytes :=
  (ownX.lite3.setStr ownX.lite3.initObject (ascii "a") (ascii "1")).getD []

private def batchEvents : List ClientEvent :=
  [.step (.start 0 (.batchPut ownBatch adminUid [[1]])), .step (.append 0), .step (.work 0),
    .step (.work 0)]

/-- The client reads as soon as `batch_put` returns. -/
private def earlyRead : List ClientEvent := batchEvents ++ [.get (ascii "a") adminUid]

/-- The shard is given time before the client reads, and before it overwrites the key. -/
private def lateReads : List ClientEvent :=
  batchEvents ++ List.replicate 3 (.step (.shard firstShard)) ++
    [.get (ascii "a") adminUid, .step (.start 0 (.put (ascii "a") (ascii "2") adminUid [2])),
      .step (.append 0), .step (.work 0)] ++
    List.replicate 3 (.step (.shard firstShard)) ++ [.batchGet [ascii "a", ascii "b"] adminUid]

private def idleCheck (s : Client) : ClientEvent → Bool
  | .step (.start t _) => decide (s.machine.phase 0 = .idle) &&
      decide (∀ shard, ∀ task ∈ s.machine.queues shard, task.producer = t)
  | .step .restart => false
  | .step _ => true
  | _ => decide (s.machine.phase 0 = .idle)

private def plainCheck (s : Client) : Bool :=
  (List.finRange 8).all fun shard => (s.machine.store.shards shard).toList.all fun entry =>
    !entry.2.compressed && decide (entry.2.buf.length < 2 ^ 32)

private theorem oneByOne_of_idleCheck {events : List ClientEvent}
    (hthread : ∀ event ∈ events.filterMap ClientEvent.event?, ∀ t ∈ event.thread?, t < 1)
    (hcheck : allSteps (Client.step ownX fun _ _ => 0) idleCheck (Client.init ownX 1) events = true) :
    EveryStep (Client.step ownX fun _ _ => 0) (Client.init ownX 1) events
      fun s event => event.OneByOne s.machine := by
  intro before event after hsplit s hbefore
  have hchecked := everyStep_of_allSteps hcheck before event after hsplit s hbefore
  have hothers (t : Nat) (ht : ¬ t < 1) : s.machine.phase t = .idle := by
    refine Machine.idle_of_run (fun e he => hthread e ?_) (Client.machine_run hbefore) ht
    rw [hsplit, List.filterMap_append]
    exact List.mem_append_left _ he
  have hidle (h : decide (s.machine.phase 0 = .idle) = true) (t : Nat) :
      s.machine.phase t = .idle := by
    by_cases ht : t < 1
    · obtain rfl : t = 0 := by omega
      exact of_decide_eq_true h
    · exact hothers t ht
  cases event with
  | step event =>
      cases event with
      | start t call =>
          obtain ⟨hnow, hqueues⟩ := Bool.and_eq_true_iff.mp hchecked
          exact ⟨hidle hnow, of_decide_eq_true hqueues⟩
      | restart => cases hchecked
      | _ => trivial
  | get key principal => exact hidle hchecked
  | batchGet keys principal => exact hidle hchecked

private theorem valuesShort_of_plainCheck {s : Client} (h : plainCheck s = true) :
    s.machine.store.ValuesShort ownX := by
  rintro key content ⟨b, hb, hholds⟩
  rw [plainCheck, List.all_eq_true] at h
  have hentries := h (routingShard ownX.xxh3 key) (List.mem_finRange _)
  rw [List.all_eq_true] at hentries
  have hentry := hentries (key, b) (Std.ExtTreeMap.mem_toList_iff_getElem?_eq_some.mpr hb)
  rw [Bool.and_eq_true, Bool.not_eq_true', decide_eq_true_eq] at hentry
  rcases hholds with ⟨-, rfl⟩ | ⟨hcompressed, -⟩
  · exact hentry.2
  · rw [hentry.1] at hcompressed
    cases hcompressed

theorem read_your_writes_late :
    ∃ s, lateReads.foldlM (Client.step ownX fun _ _ => 0) (Client.init ownX 1) = some s ∧
      s.written (ascii "a") = ascii "2" ∧
      EveryStep (Client.step ownX fun _ _ => 0) (Client.init ownX 1) lateReads
        fun s event => event.Sees ownX s := by
  have hlast : (lateReads.foldlM (Client.step ownX fun _ _ => 0) (Client.init ownX 1)).map
      (fun s => s.written (ascii "a")) = some (ascii "2") := by decide +kernel
  have hplain : allSteps (Client.step ownX fun _ _ => 0) (fun s _ => plainCheck s)
      (Client.init ownX 1) lateReads = true := by decide +kernel
  have hsettled : allSteps (Client.step ownX fun _ _ => 0) (fun s event => event.Settled s.machine)
      (Client.init ownX 1) lateReads = true := by decide +kernel
  obtain ⟨s, hrun, hwritten⟩ := Option.map_eq_some_iff.mp hlast
  refine ⟨s, hrun, hwritten, read_your_writes Zstd.plain_lossless Zstd.plain_framed
    (oneByOne_of_idleCheck (by decide) (by decide +kernel)) ?_ ?_⟩
  · intro before event after hsplit s' hbefore
    exact valuesShort_of_plainCheck (everyStep_of_allSteps hplain before event after hsplit s' hbefore)
  · intro before event after hsplit s' hbefore
    exact of_decide_eq_true (everyStep_of_allSteps hsettled before event after hsplit s' hbefore)

/-- The entry of the batch is still in the queue of its shard. -/
theorem batch_put_not_read :
    (∃ s, earlyRead.foldlM (Client.step ownX fun _ _ => 0) (Client.init ownX 1) = some s) ∧
      EveryStep (Client.step ownX fun _ _ => 0) (Client.init ownX 1) earlyRead
        (fun s event => event.OneByOne s.machine) ∧
      ¬ EveryStep (Client.step ownX fun _ _ => 0) (Client.init ownX 1) earlyRead
        fun s event => event.Sees ownX s := by
  have hread : (batchEvents.foldlM (Client.step ownX fun _ _ => 0) (Client.init ownX 1)).map
      (fun s => (s.machine.store.get ownX (ascii "a") adminUid, s.written (ascii "a"))) =
        some ([], ascii "1") := by decide +kernel
  obtain ⟨s, hrun, hs⟩ := Option.map_eq_some_iff.mp hread
  obtain ⟨hget, hwritten⟩ := Prod.mk.inj hs
  refine ⟨⟨s, foldlM_concat.mpr ⟨s, hrun, rfl⟩⟩,
    oneByOne_of_idleCheck (by decide) (by decide +kernel), fun hsees => ?_⟩
  have hlast : s.machine.store.get ownX (ascii "a") adminUid = s.written (ascii "a") :=
    hsees.last hrun (by simp)
  rw [hget, hwritten] at hlast
  exact absurd hlast (by decide)

end L3KV
