import L3KV.Engine.Batches
import L3KV.Engine.Contents
import L3KV.Store.AccessRules

/-!
# Operations a reader cannot tell

Of two stores some keys are looked at, and whether a key may be looked at depends on the access rules,
which are values of the store as well. Operations on other keys make no difference, so of a queue only
the tasks on these keys count, and of a write to such a key everything but its sidecar.
-/

namespace L3KV

open Framework

theorem HybridLogicalClock.now_behind {c d : HybridLogicalClock}
    (h : c.current.ticks < d.current.ticks) :
    ∃ readings ts c', c.now readings = some (ts, c') ∧ c'.current.ticks ≤ d.current.ticks := by
  have hd := d.maxLogical.toNat_lt
  have hc := c.maxLogical.toNat_lt
  simp only [Timestamp.ticks, current] at h ⊢
  by_cases hfull : c.maxLogical = uint32Max
  · -- The counter is at its end, so the wall time moves on by one.
    have hlogical : c.maxLogical.toNat = 4294967295 := by rw [hfull]; rfl
    have hwall : c.maxWallTime.toInt < d.maxWallTime.toInt := by omega
    have hnext : (c.maxWallTime + 1).toInt = c.maxWallTime.toInt + 1 := by
      have hhigh := d.maxWallTime.toInt_lt
      have hlow := c.maxWallTime.le_toInt
      rw [Int64.toInt_add]
      exact Int.bmod_eq_of_le (by simp; omega) (by simp; omega)
    refine ⟨[c.maxWallTime + 1], _, _, by
      rw [now, if_pos (by rw [gt_iff_lt, Int64.lt_iff_toInt_lt]; omega)]; rfl, ?_⟩
    simp only [UInt32.toNat_zero]
    omega
  · have hroom : (c.maxLogical + 1).toNat = c.maxLogical.toNat + 1 := by
      have hne : c.maxLogical.toNat ≠ uint32Max.toNat := fun he => hfull (UInt32.toNat.inj he)
      simp only [uint32Max, UInt32.reduceToNat] at hne
      rw [UInt32.toNat_add]
      simp only [UInt32.reduceToNat]
      omega
    refine ⟨[c.maxWallTime], _, _, by
      rw [now, if_neg (by simp), if_neg hfull]; rfl, ?_⟩
    simp only [hroom]
    omega

/-- The clock stands at a later pair after a call, unless the readings of the call go backwards. -/
theorem HybridLogicalClock.now_ahead {c c' : HybridLogicalClock} {readings : List Int64}
    {ts : Timestamp} (h : c.now readings = some (ts, c')) (hsorted : readings.Pairwise (· ≤ ·)) :
    c.current.ticks < c'.current.ticks := by
  have hadvance := now_advances h (c.waitAdvances_of_sorted hsorted)
  obtain ⟨hts, hnode, -⟩ := now_spec h
  rw [hts] at hadvance
  exact (Timestamp.lt_iff_ticks_lt hnode.symm).mp hadvance

theorem Machine.Step.taken {x : External} {u : Nat → Nat → UInt8} {m m' : Machine} {event : Event}
    (h : Step x u m event m') : m.step x u event = some m' := by
  cases h with
  | start hidle hprep => simp only [step, hidle, hprep]
  | refuse hidle hprep => simp only [step, hidle, hprep]
  | append hphase => simp only [step, hphase]
  | work hphase => simp only [step, hphase]
  | take hqueue hfront hfree =>
      simp only [step, Task.dequeue?_eq hqueue hfront hfree, Option.map_some]
  | shard hqueue => simp only [step, hqueue]
  | restart => rfl

/-- A put of the key tells the access rules or the users something. -/
def TellsAccess (key : Bytes) : Prop := aclTarget key ≠ none ∨ userTarget key ≠ none

instance (key : Bytes) : Decidable (TellsAccess key) := inferInstanceAs (Decidable (_ ∨ _))

/-- A key the observers read, or one that tells the access rules something. -/
def Relevant (shown : Bytes → Prop) (key : Bytes) : Prop := shown key ∨ TellsAccess key

instance (shown : Bytes → Prop) [DecidablePred shown] (key : Bytes) : Decidable (Relevant shown key) :=
  inferInstanceAs (Decidable (_ ∨ _))

/-- The same operation, except perhaps on a key that is not relevant. -/
structure ShardOp.Like (shown : Bytes → Prop) (o o' : ShardOp) : Prop where
  key : o'.key = o.key
  same : Relevant shown o.key → o' = o
  write : ¬ o.Patches
  write' : ¬ o'.Patches

/-- An operation that no observer can tell from none. -/
def ShardOp.Unseen (shown : Bytes → Prop) (o : ShardOp) : Prop := ¬ Relevant shown o.key

private theorem ShardOp.leaves_of_not_patches (l : Lite3) {o : ShardOp} (h : ¬ o.Patches) :
    ∃ content, o.Leaves l content := by
  cases o with
  | put key body => exact ⟨_, rfl⟩
  | del key => exact ⟨_, rfl⟩
  | patchInt => exact absurd trivial h
  | patchStr => exact absurd trivial h

/-- The stores have the same rules and the same values under the shown keys. -/
structure Store.Agrees (x : External) (shown : Bytes → Prop) (st st' : Store) : Prop where
  rules : st'.credentials = st.credentials
  values : ∀ key, shown key →
    (∃ content, st.Holding x key content ∧ st'.Holding x key content) ∨
      (st.find x key = none ∧ st'.find x key = none)

section

variable {x : External}

theorem Store.apply_credentials {st st' : Store} {o : ShardOp} (h : st.apply x o = some st')
    (hkey : ¬ TellsAccess o.key) : st'.credentials = st.credentials := by
  cases o with
  | put key body =>
      cases h
      simp only [TellsAccess, not_or, not_not] at hkey
      exact CredentialManager.hook_of_none x hkey.1 hkey.2 body
  | patchInt key field value =>
      obtain ⟨b, -, rfl⟩ := Option.map_eq_some_iff.mp h
      rfl
  | patchStr key field value =>
      obtain ⟨b, -, rfl⟩ := Option.map_eq_some_iff.mp h
      rfl
  | del key =>
      cases h
      rfl

end

namespace Store.Agrees

variable {x : External} {shown : Bytes → Prop} {st st' st₁ : Store} {o o' : ShardOp}

theorem refl (shown : Bytes → Prop) {st : Store} (hread : st.Readable x) :
    st.Agrees x shown st where
  rules := rfl
  values key _ := by
    cases hfind : st.find x key with
    | none => exact Or.inr ⟨rfl, rfl⟩
    | some b =>
        obtain ⟨content, hholds⟩ := hread key b hfind
        exact Or.inl ⟨content, ⟨b, hfind, hholds⟩, ⟨b, hfind, hholds⟩⟩

theorem get_eq (h : st.Agrees x shown st') (hz : x.zstd.Lossless) (hshort : st.ValuesShort x)
    {key : Bytes} (hkey : shown key) : st'.get x key adminUid = st.get x key adminUid := by
  rcases h.values key hkey with ⟨content, hholding, hholding'⟩ | ⟨hnone, hnone'⟩
  · have hlen := hshort key content hholding
    rw [hholding.get_eq hz hlen, hholding'.get_eq hz hlen]
  · rw [get_eq_nil hnone, get_eq_nil hnone']

theorem unseen (h : st.Agrees x shown st') (ho : o.Unseen shown)
    (happly : st.apply x o = some st₁) :
    st₁.Agrees x shown st' where
  rules := by rw [h.rules, Store.apply_credentials happly fun htells => ho (Or.inr htells)]
  values key hkey := by
    have hfind := Store.apply_find_ne happly fun heq : key = o.key => ho (Or.inl (heq ▸ hkey))
    rcases h.values key hkey with ⟨content, hholding, hholding'⟩ | ⟨hnone, hnone'⟩
    · exact Or.inl ⟨content, hholding.mono (Store.apply_follows happly) hfind, hholding'⟩
    · exact Or.inr ⟨hfind.trans hnone, hnone'⟩

private theorem unseen' (h : st.Agrees x shown st') {st₁' : Store} (ho : o.Unseen shown)
    (happly : st'.apply x o = some st₁') : st.Agrees x shown st₁' where
  rules := by rw [Store.apply_credentials happly fun htells => ho (Or.inr htells), h.rules]
  values key hkey := by
    have hfind := Store.apply_find_ne happly fun heq : key = o.key => ho (Or.inl (heq ▸ hkey))
    rcases h.values key hkey with ⟨content, hholding, hholding'⟩ | ⟨hnone, hnone'⟩
    · exact Or.inl ⟨content, hholding, hholding'.mono (Store.apply_follows happly) hfind⟩
    · exact Or.inr ⟨hnone, hfind.trans hnone'⟩

private theorem same (h : st.Agrees x shown st') {st₁' : Store} {content : Bytes}
    (hleaves : o.Leaves x.lite3 content) (happly : st.apply x o = some st₁)
    (happly' : st'.apply x o = some st₁') : st₁.Agrees x shown st₁' := by
  constructor
  · cases o with
    | put key body =>
        cases happly
        cases happly'
        rw [applyPut_credentials, applyPut_credentials, h.rules]
    | del key =>
        cases happly
        cases happly'
        exact h.rules
    | patchInt => cases hleaves
    | patchStr => cases hleaves
  · intro key hkey
    by_cases heq : key = o.key
    · subst heq
      obtain ⟨st₂, hst₂, -, hholding, -⟩ := st.apply_leaves hleaves
      obtain ⟨st₂', hst₂', -, hholding', -⟩ := st'.apply_leaves hleaves
      rw [happly] at hst₂
      rw [happly'] at hst₂'
      cases hst₂
      cases hst₂'
      exact Or.inl ⟨content, hholding, hholding'⟩
    · have hfind := Store.apply_find_ne happly heq
      have hfind' := Store.apply_find_ne happly' heq
      rcases h.values key hkey with ⟨content', hholding, hholding'⟩ | ⟨hnone, hnone'⟩
      · exact Or.inl ⟨content', hholding.mono (Store.apply_follows happly) hfind,
          hholding'.mono (Store.apply_follows happly') hfind'⟩
      · exact Or.inr ⟨hfind.trans hnone, hfind'.trans hnone'⟩

theorem both (h : st.Agrees x shown st') (ho : o.Like shown o') (happly : st.apply x o = some st₁) :
    ∃ st₁', st'.apply x o' = some st₁' ∧ st₁.Agrees x shown st₁' := by
  obtain ⟨content, hleaves⟩ := ShardOp.leaves_of_not_patches x.lite3 ho.write'
  obtain ⟨st₁', happly', -⟩ := st'.apply_leaves hleaves
  refine ⟨st₁', happly', ?_⟩
  by_cases hkey : Relevant shown o.key
  · have heq := ho.same hkey
    subst heq
    exact h.same hleaves happly happly'
  · have hkey' : o'.Unseen shown := by
      rw [ShardOp.Unseen, ho.key]
      exact hkey
    exact (h.unseen hkey happly).unseen' hkey' happly'

end Store.Agrees

/-- The same tasks for the same shards, up to operations on keys that are not relevant. -/
inductive Work.Like (shown : Bytes → Prop) : Work → Work → Prop
  | wait {shard : Fin 8} {task task' : List ShardOp}
      (ops : List.Forall₂ (ShardOp.Like shown) task task') :
      Like shown (.wait shard task) (.wait shard task')
  | async {tasks tasks' : List (Fin 8 × List ShardOp)}
      (ops : List.Forall₂ (fun w w' => w'.1 = w.1 ∧ List.Forall₂ (ShardOp.Like shown) w.2 w'.2)
        tasks tasks') : Like shown (.async tasks) (.async tasks')

/-- The same point of two calls that are alike. -/
inductive Phase.Like (shown : Bytes → Prop) : Phase → Phase → Prop
  | idle : Like shown .idle .idle
  | planned {plan plan' : Plan} (work : plan.work.Like shown plan'.work) :
      Like shown (.planned plan) (.planned plan')
  | logged {work work' : Work} (like : work.Like shown work') : Like shown (.logged work) (.logged work')
  | waiting : Like shown .waiting .waiting

/-- The second queue is the first one without some tasks that are not seen. Only if `busy` may one of
these be what the thread waits for. -/
inductive Purged (shown : Bytes → Prop) (thread : Nat) (busy : Prop) : List Task → List Task → Prop
  | nil : Purged shown thread busy [] []
  | drop {task : Task} {q q' : List Task} (unseen : ∀ o ∈ task.ops, o.Unseen shown)
      (owner : task.owner = some thread → busy) (rest : Purged shown thread busy q q') :
      Purged shown thread busy (task :: q) q'
  | keep {task task' : Task} {q q' : List Task} (owner : task'.owner = task.owner)
      (ops : List.Forall₂ (ShardOp.Like shown) task.ops task'.ops)
      (rest : Purged shown thread busy q q') : Purged shown thread busy (task :: q) (task' :: q')

namespace Purged

variable {shown : Bytes → Prop} {thread : Nat} {busy busy' : Prop} {q q' : List Task}

theorem mono (h : Purged shown thread busy q q') (himp : busy → busy') :
    Purged shown thread busy' q q' := by
  induction h with
  | nil => exact .nil
  | drop hunseen howner _ ih => exact .drop hunseen (fun h => himp (howner h)) ih
  | keep howner hops _ ih => exact .keep howner hops ih

theorem leave (h : Purged shown thread busy q q') (hq : ∀ task ∈ q, task.owner ≠ some thread) :
    Purged shown thread busy' q q' := by
  induction h with
  | nil => exact .nil
  | drop hunseen _ _ ih =>
      exact .drop hunseen (fun h => absurd h (hq _ List.mem_cons_self))
        (ih fun task htask => hq task (List.mem_cons_of_mem _ htask))
  | keep howner hops _ ih =>
      exact .keep howner hops (ih fun task htask => hq task (List.mem_cons_of_mem _ htask))

theorem concat_drop (h : Purged shown thread busy q q') {task : Task}
    (hunseen : ∀ o ∈ task.ops, o.Unseen shown) (howner : task.owner = some thread → busy) :
    Purged shown thread busy (q ++ [task]) q' := by
  induction h with
  | nil => exact .drop hunseen howner .nil
  | drop hunseen' howner' _ ih => exact .drop hunseen' howner' ih
  | keep howner' hops _ ih => exact .keep howner' hops ih

theorem concat_keep (h : Purged shown thread busy q q') {task task' : Task}
    (howner : task'.owner = task.owner)
    (hops : List.Forall₂ (ShardOp.Like shown) task.ops task'.ops) :
    Purged shown thread busy (q ++ [task]) (q' ++ [task']) := by
  induction h with
  | nil => exact .keep howner hops .nil
  | drop hunseen' howner' _ ih => exact .drop hunseen' howner' ih
  | keep howner' hops' _ ih => exact .keep howner' hops' ih

end Purged

section

variable {x : External} {shown : Bytes → Prop} {c : CredentialManager} {principal : UInt32}
  {batch : Bytes}

theorem ShardOp.Like.refl {o : ShardOp} (h : ¬ o.Patches) : o.Like shown o :=
  ⟨rfl, fun _ => rfl, h, h⟩

theorem ShardOp.Like.sidecar {key metaVal metaVal' : Bytes} (h : ¬ Relevant shown key) :
    (ShardOp.put key metaVal).Like shown (.put key metaVal') :=
  ⟨rfl, fun hrelevant => absurd hrelevant h, id, id⟩

/-- What two runs of the loop of `batch_put` have collected, the second with a clock that is behind. -/
structure BatchState.Like (shown : Bytes → Prop) (s s' : BatchState) : Prop where
  clock : s'.clock.current.ticks ≤ s.clock.current.ticks
  works : ∀ i, List.Forall₂ (ShardOp.Like shown) (s.works i) (s'.works i)
  views : s'.views = [] ↔ s.views = []

/-- Two ends of the loop. -/
inductive BatchLike (shown : Bytes → Prop) : Except (HybridLogicalClock × CallResult) BatchState →
    Except (HybridLogicalClock × CallResult) BatchState → Prop
  | error {clock clock' : HybridLogicalClock} {result : CallResult}
      (behind : clock'.current.ticks ≤ clock.current.ticks) :
      BatchLike shown (.error (clock, result)) (.error (clock', result))
  | ok {s s' : BatchState} (like : s.Like shown s') : BatchLike shown (.ok s) (.ok s')

theorem BatchState.Like.addEntry {s s' : BatchState} (h : s.Like shown s')
    {clock clock' : HybridLogicalClock} (hclock : clock'.current.ticks ≤ clock.current.ticks)
    {key : Bytes} (hkey : ¬ Relevant shown (metaKey key)) (value metaVal metaVal' : Bytes) :
    (s.addEntry x clock key value metaVal).Like shown (s'.addEntry x clock' key value metaVal') where
  clock := hclock
  works i := by
    rw [addEntry_works, addEntry_works]
    refine List.rel_append (List.rel_append (h.works i) ?_) ?_
    · split
      · exact .cons (.refl id) .nil
      · exact .nil
    · split
      · exact .cons (.sidecar hkey) .nil
      · exact .nil
  views := by simp [BatchState.addEntry, BatchState.addWork]

theorem Sorted.headD {readings : List (List Int64)} (h : Sorted readings) :
    (readings.headD []).Pairwise (· ≤ ·) := by
  cases readings with
  | nil => exact .nil
  | cons rs rest => exact h rs List.mem_cons_self

theorem batchLoop_like (hl : x.lite3.Lawful) {keys : List Bytes}
    (hkeys : ∀ key ∈ keys, ¬ Relevant shown (metaKey key)) {readings : List (List Int64)}
    (hsorted : Sorted readings) {s s' : BatchState} (hlike : s.Like shown s')
    {r : Except (HybridLogicalClock × CallResult) BatchState}
    (h : batchLoop x c principal batch keys readings s = some r) :
    ∃ readings' r', batchLoop x c principal batch keys readings' s' = some r' ∧
      BatchLike shown r r' := by
  induction keys generalizing readings s s' with
  | nil =>
      cases h
      exact ⟨[], _, rfl, .ok hlike⟩
  | cons key keys ih =>
      have hrest : ∀ key ∈ keys, ¬ Relevant shown (metaKey key) :=
        fun key' hkey' => hkeys key' (List.mem_cons_of_mem _ hkey')
      rw [batchLoop] at h
      by_cases hwrite : (c.checkPermission principal key).canWrite = true
      · rw [if_pos hwrite] at h
        rcases hvalue : batchValue x.lite3 batch key with _ | _ | value
        · rw [hvalue] at h
          cases h
          exact ⟨[], _, by rw [batchLoop, if_pos hwrite, hvalue], .error hlike.clock⟩
        · rw [hvalue] at h
          obtain ⟨readings', r', hloop, hend⟩ := ih hrest hsorted hlike h
          exact ⟨readings', r', by rw [batchLoop, if_pos hwrite, hvalue]; exact hloop, hend⟩
        · rw [hvalue] at h
          rcases hnow : s.clock.now (readings.headD []) with _ | ⟨ts, clock⟩
          · rw [hnow] at h
            cases h
          · obtain ⟨metaVal, hmeta, -⟩ := metaObject_reads hl ts false
            simp only [hnow, hmeta] at h
            have hahead := HybridLogicalClock.now_ahead hnow hsorted.headD
            obtain ⟨rs, ts', clock', hnow', hbehind⟩ :=
              HybridLogicalClock.now_behind (lt_of_le_of_lt hlike.clock hahead)
            obtain ⟨metaVal', hmeta', -⟩ := metaObject_reads hl ts' false
            have hsorted' : Sorted readings.tail := fun rs hrs => hsorted rs (List.mem_of_mem_tail hrs)
            obtain ⟨readings', r', hloop, hend⟩ := ih hrest hsorted'
              (hlike.addEntry hbehind (hkeys key List.mem_cons_self) value metaVal metaVal') h
            refine ⟨rs :: readings', r', ?_, hend⟩
            rw [batchLoop, if_pos hwrite, hvalue]
            simp only [List.headD_cons, hnow', hmeta', List.tail_cons]
            exact hloop
      · rw [if_neg hwrite] at h
        cases h
        exact ⟨[], _, by rw [batchLoop, if_neg hwrite], .error hlike.clock⟩

end

end L3KV
