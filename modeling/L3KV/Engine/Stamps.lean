import L3KV.Engine.LogAgreement
import L3KV.Engine.Register

/-!
# The timestamps operations carry

Of everything the calls apply, only the operations on sidecars change stored timestamps. Here a
list of operations is reduced, key by key, to the timestamps it is going to store, and the loop of
`batch_put` to the rising sequence it takes from the clock.
-/

namespace L3KV

open Framework

def ShardOp.stampFor (l : Lite3) (key : Bytes) : ShardOp → Option Timestamp
  | .put k v => if k = metaKey key then localTimestamp l v else none
  | _ => none

def stampsFor (l : Lite3) (key : Bytes) (ops : List ShardOp) : List Timestamp :=
  ops.filterMap (ShardOp.stampFor l key)

/-- An operation of a call on keys that are not sidecars themselves. -/
inductive ShardOp.Proper (l : Lite3) : ShardOp → Prop
  | value {o content} (hkey : PlainKey o.key) (hplain : ¬ ascii ":meta" <:+ o.key)
      (hleaves : o.Leaves l content) : Proper l o
  | sidecar {key ts tombstone metaVal} (hkey : PlainKey key)
      (hmeta : metaObject l ts tombstone = some metaVal) : Proper l (.put (metaKey key) metaVal)

/-- The sidecar of the key is missing, or is a metadata object with this timestamp. -/
def StampAt (x : External) (st : Store) (key : Bytes) (ts : Timestamp) : Prop :=
  (st.find x (metaKey key) = none ∧ ts = Timestamp.zero) ∨
    ∃ tombstone metaVal, metaObject x.lite3 ts tombstone = some metaVal ∧
      st.Holding x (metaKey key) metaVal

section

variable {x : External} {st : Store} {key : Bytes} {ts : Timestamp}

theorem StampAt.stampOf (hx : x.Lawful) (h : StampAt x st key ts) :
    st.stampOf x key = some ts := by
  unfold Store.stampOf
  rcases h with ⟨hnone, rfl⟩ | ⟨tombstone, metaVal, hmeta, b, hb, hholds⟩
  · rw [get_eq_nil hnone]
    rfl
  · have hlen : metaVal.length < 2 ^ 32 := lt_trans (hx.smallMeta _ _ _ hmeta) (by decide)
    rw [get_eq_read hb, hholds.read hx.zstd hlen]
    exact localTimestamp_reads (ReadsMeta.of_metaObject hx.lite3 hmeta)

theorem stampAt_init (key : Bytes) : StampAt x (Store.init x) key Timestamp.zero := by
  left
  simp [Store.find, Store.init]

theorem ShardOp.Proper.leaves (hl : x.lite3.Lawful) {o : ShardOp} (h : o.Proper x.lite3) :
    ∃ content, o.Leaves x.lite3 content := by
  cases h with
  | value _ _ hleaves => exact ⟨_, hleaves⟩
  | sidecar _ hmeta => exact ⟨_, leaves_metaObject hl hmeta _⟩

theorem PlainKey.length_lt (h : PlainKey key) : key.length < 2 ^ 16 := by
  have hlt := metaKey_length_lt key
  rw [h, List.length_append] at hlt
  omega

theorem ShardOp.Proper.key_lt {l : Lite3} {o : ShardOp} (h : o.Proper l) :
    o.key.length < 2 ^ 16 := by
  cases h with
  | value hkey => exact hkey.length_lt
  | sidecar => exact lt_trans (metaKey_length_lt _) (by decide)

private theorem stampFor_value {l : Lite3} {o : ShardOp} (ho : ¬ ascii ":meta" <:+ o.key)
    (hkey : PlainKey key) : o.stampFor l key = none := by
  cases o with
  | put k v =>
      have hne : k ≠ metaKey key := by
        rintro rfl
        exact ho ⟨key, hkey.symm⟩
      exact if_neg hne
  | _ => rfl

private theorem stampFor_sidecar {l : Lite3} (hl : l.Lawful) {user : Bytes} {tombstone : Bool}
    {metaVal : Bytes} (huser : PlainKey user) (hmeta : metaObject l ts tombstone = some metaVal)
    (hkey : PlainKey key) :
    (ShardOp.put (metaKey user) metaVal).stampFor l key = if key = user then some ts else none := by
  have hread := localTimestamp_reads (ReadsMeta.of_metaObject hl hmeta)
  by_cases heq : key = user
  · subst heq
    simp [ShardOp.stampFor, hread]
  · have hne : metaKey user ≠ metaKey key := by
      intro hsame
      rw [huser, hkey] at hsame
      exact heq (List.append_cancel_right hsame).symm
    simp [ShardOp.stampFor, hne, heq]

theorem StampAt.apply (hl : x.lite3.Lawful) {o : ShardOp} (ho : o.Proper x.lite3) {st' : Store}
    (happly : st.apply x o = some st') (hkey : PlainKey key) (h : StampAt x st key ts) :
    StampAt x st' key ((o.stampFor x.lite3 key).getD ts) := by
  have hframe (other : Bytes) (hne : other ≠ o.key) {content : Bytes}
      (hleaves : o.Leaves x.lite3 content) :
      st.zstd.Follows st'.zstd ∧ st'.find x other = st.find x other := by
    obtain ⟨st₁, happly₁, hfollows, -, hframe, -⟩ := st.apply_leaves hleaves
    rw [happly] at happly₁
    cases happly₁
    exact ⟨hfollows, hframe other hne⟩
  have hkeep {content : Bytes} (hleaves : o.Leaves x.lite3 content) (hne : metaKey key ≠ o.key) :
      StampAt x st' key ts := by
    obtain ⟨hfollows, hfind⟩ := hframe (metaKey key) hne hleaves
    rcases h with ⟨hnone, hts⟩ | ⟨tombstone, metaVal, hmeta, hholding⟩
    · exact Or.inl ⟨hfind.trans hnone, hts⟩
    · exact Or.inr ⟨tombstone, metaVal, hmeta, hholding.mono hfollows hfind⟩
  cases ho with
  | value _ hplain hleaves =>
      rw [stampFor_value hplain hkey]
      apply hkeep hleaves
      intro hsame
      exact hplain ⟨key, by rw [← hsame, hkey]⟩
  | @sidecar user ts' tombstone metaVal huser hmeta =>
      rw [stampFor_sidecar hl huser hmeta hkey]
      by_cases heq : key = user
      · subst heq
        rw [if_pos rfl]
        obtain ⟨st₁, happly₁, -, hholding, -⟩ := st.apply_leaves (leaves_metaObject hl hmeta (metaKey key))
        rw [happly] at happly₁
        cases happly₁
        exact Or.inr ⟨tombstone, metaVal, hmeta, hholding⟩
      · rw [if_neg heq]
        apply hkeep (leaves_metaObject hl hmeta _)
        intro hsame
        have hsame' : key ++ ascii ":meta" = user ++ ascii ":meta" := by
          rw [← hkey, ← huser]
          exact hsame
        exact heq (List.append_cancel_right hsame')

theorem stampsFor_pair {l : Lite3} (hl : l.Lawful) {user : Bytes} {o : ShardOp} {tombstone : Bool}
    {metaVal : Bytes} (ho : ¬ ascii ":meta" <:+ o.key) (huser : PlainKey user)
    (hmeta : metaObject l ts tombstone = some metaVal) (hkey : PlainKey key) :
    stampsFor l key [o, .put (metaKey user) metaVal] = if key = user then [ts] else [] := by
  simp only [stampsFor, List.filterMap_cons, stampFor_value ho hkey,
    stampFor_sidecar hl huser hmeta hkey, List.filterMap_nil]
  by_cases heq : key = user
  · simp [heq]
  · simp [heq]

theorem stampsFor_append {l : Lite3} (key : Bytes) (ops ops' : List ShardOp) :
    stampsFor l key (ops ++ ops') = stampsFor l key ops ++ stampsFor l key ops' :=
  List.filterMap_append

theorem mem_stampsFor {l : Lite3} {ops : List ShardOp} :
    ts ∈ stampsFor l key ops ↔ ∃ o ∈ ops, o.stampFor l key = some ts := List.mem_filterMap

end

/-- The tasks of the work, each with the queue it goes to; the calling thread has none. -/
def Work.parts : Work → List (Option (Fin 8) × List ShardOp)
  | wait shard task => [(some shard, task)]
  | async tasks => tasks.map fun w => (some w.1, w.2)
  | direct ops => [(none, ops)]

theorem Work.ops_eq (work : Work) : work.ops = work.parts.flatMap Prod.snd := by
  cases work with
  | wait shard task => simp [Work.ops, parts]
  | async tasks => simp [Work.ops, parts, List.flatMap_map]
  | direct ops => simp [Work.ops, parts]

namespace Call

/-- The keys a call may write. -/
def keys (l : Lite3) : Call → List Bytes
  | put key _ _ _ => [key]
  | del key _ _ => [key]
  | patchInt key _ _ _ => [key]
  | patchStr key _ _ _ => [key]
  | batchPut batch _ _ => l.keys batch
  | applyMutation m => [m.key]

/-- The physical readings, one list for each call of `now`. -/
def readings : Call → List (List Int64)
  | put _ _ _ readings => [readings]
  | del _ _ readings => [readings]
  | patchInt _ _ _ readings => [readings]
  | patchStr _ _ _ readings => [readings]
  | batchPut _ _ readings => readings
  | applyMutation _ => []

/-- The queue that gets the operation on the sidecar of a key the call writes. -/
def destination (x : External) : Call → Bytes → Option (Fin 8)
  | put key _ _ _, _ => some (routingShard x.xxh3 (x.movedFrom key))
  | del key _ _, _ => some (routingShard x.xxh3 key)
  | patchInt key _ _ _, _ => some (routingShard x.xxh3 (x.movedFrom key))
  | patchStr key _ _ _, _ => some (routingShard x.xxh3 (x.movedFrom key))
  | batchPut _ _ _, key => some (routingShard x.xxh3 (metaKey key))
  | applyMutation _, _ => none

/-- Calls that write the sidecar as a whole. -/
def Stamps : Call → Prop
  | patchInt .. => False
  | patchStr .. => False
  | _ => True

end Call

/-- The clock has reached the timestamp, or the first reading of every call of `now` is past its
wall time. -/
def Outrun (clock : HybridLogicalClock) (readings : List (List Int64)) (old : Timestamp) : Prop :=
  old ≤ clock.current ∨ ∀ rs ∈ readings, ∀ r ∈ rs.head?, old.wallTime < r

/-- No list of readings goes backwards. -/
def Sorted (readings : List (List Int64)) : Prop := ∀ rs ∈ readings, rs.Pairwise (· ≤ ·)

-- The readings are looked at, and not all there are.
instance (clock : HybridLogicalClock) (readings : List (List Int64)) (old : Timestamp) :
    Decidable (Outrun clock readings old) :=
  haveI (rs : List Int64) : Decidable (∀ r ∈ rs.head?, old.wallTime < r) :=
    Option.decidableForallMem rs.head?
  inferInstanceAs (Decidable (_ ∨ ∀ rs ∈ readings, ∀ r ∈ rs.head?, old.wallTime < r))

instance (readings : List (List Int64)) : Decidable (Sorted readings) :=
  inferInstanceAs (Decidable (∀ rs ∈ readings, rs.Pairwise (· ≤ ·)))

theorem Outrun.now {clock c c' : HybridLogicalClock} {readings : List (List Int64)}
    {rs : List Int64} {old ts : Timestamp} (h : Outrun clock readings old) (hsorted : Sorted readings)
    (hrs : rs ∈ readings) (hclock : clock.current ≤ c.current) (hnow : c.now rs = some (ts, c')) :
    old < ts := by
  have hwait := c.waitAdvances_of_sorted (hsorted rs hrs)
  rcases h with hle | hpast
  · exact lt_of_le_of_lt (hle.trans hclock) (HybridLogicalClock.now_advances hnow hwait)
  · obtain ⟨-, -, r, rest, rfl, -⟩ := HybridLogicalClock.now_spec hnow
    apply Timestamp.lt_of_wallTime_lt
    have hlt := hpast _ hrs r rfl
    have hle := HybridLogicalClock.now_reaches hnow hwait (r := r) rfl
    rw [Int64.lt_iff_toInt_lt] at hlt ⊢
    rw [Int64.le_iff_toInt_le] at hle
    omega

/-- What the operations of an accepted call are going to store. -/
structure PlanStamps (x : External) (e : Engine) (call : Call) (clock : HybridLogicalClock)
    (work : Work) : Prop where
  proper : ∀ o ∈ work.ops, o.Proper x.lite3
  rising : ∀ key, PlainKey key → (stampsFor x.lite3 key work.ops).Pairwise (· < ·)
  fresh : ∀ key, PlainKey key → ∀ part ∈ work.parts, part.1 ≠ none →
    ∀ ts ∈ stampsFor x.lite3 key part.2, e.clock.current < ts ∧ ts ≤ clock.current
  placed : ∀ key, PlainKey key → ∀ part ∈ work.parts, stampsFor x.lite3 key part.2 ≠ [] →
    key ∈ call.keys x.lite3 ∧ part.1 = call.destination x key
  above : ∀ key, PlainKey key → ∀ old, e.store.stampOf x key = some old →
    Outrun e.clock call.readings old → ∀ ts ∈ stampsFor x.lite3 key work.ops, old < ts

section

variable {x : External} {u : Nat → Nat → UInt8} {e : Engine} {clock : HybridLogicalClock}

private theorem PlanStamps.pair (hl : x.lite3.Lawful) {call : Call} {work : Work} {key : Bytes}
    {o : ShardOp} {content : Bytes} {ts : Timestamp} {tombstone : Bool} {metaVal : Bytes}
    (hkey : PlainKey key) (hokey : o.key = key) (hplain : ¬ ascii ":meta" <:+ key)
    (hleaves : o.Leaves x.lite3 content)
    (hmeta : metaObject x.lite3 ts tombstone = some metaVal)
    (hparts : work.parts = [(call.destination x key, [o, .put (metaKey key) metaVal])])
    (hkeys : key ∈ call.keys x.lite3)
    (hfresh : call.destination x key ≠ none → e.clock.current < ts ∧ ts ≤ clock.current)
    (habove : ∀ old, e.store.stampOf x key = some old → Outrun e.clock call.readings old →
      old < ts) : PlanStamps x e call clock work := by
  have ho : ¬ ascii ":meta" <:+ o.key := hokey ▸ hplain
  have hops : work.ops = [o, .put (metaKey key) metaVal] := by simp [work.ops_eq, hparts]
  have hstamps (other : Bytes) (hother : PlainKey other) :
      stampsFor x.lite3 other [o, .put (metaKey key) metaVal] = if other = key then [ts] else [] :=
    stampsFor_pair hl ho hkey hmeta hother
  constructor
  · intro p hp
    rw [hops] at hp
    rcases List.mem_pair.mp hp with rfl | rfl
    · exact .value (hokey ▸ hkey) ho hleaves
    · exact .sidecar hkey hmeta
  · intro other hother
    rw [hops, hstamps other hother]
    split <;> simp
  · intro other hother part hpart hplace t ht
    rw [hparts, List.mem_singleton] at hpart
    subst hpart
    rw [hstamps other hother] at ht
    split at ht
    · rw [List.mem_singleton.mp ht]
      exact hfresh hplace
    · cases ht
  · intro other hother part hpart hne
    rw [hparts, List.mem_singleton] at hpart
    subst hpart
    rw [hstamps other hother] at hne
    split at hne
    · rename_i heq
      subst heq
      exact ⟨hkeys, rfl⟩
    · exact absurd rfl hne
  · intro other hother old hold hout t ht
    rw [hops, hstamps other hother] at ht
    split at ht
    · rename_i heq
      subst heq
      rw [List.mem_singleton.mp ht]
      exact habove old hold hout
    · cases ht

private theorem BatchState.addWork_works (s : BatchState) (o : ShardOp) (i : Fin 8) :
    (s.addWork x o).works i = s.works i ++ if i = routingShard x.xxh3 o.key then [o] else [] := by
  unfold addWork
  by_cases hi : i = routingShard x.xxh3 o.key
  · subst hi
    simp
  · simp [hi]

theorem BatchState.addEntry_works (s : BatchState) (clock : HybridLogicalClock)
    (key value metaVal : Bytes) (i : Fin 8) :
    (s.addEntry x clock key value metaVal).works i =
      s.works i ++ (if i = routingShard x.xxh3 key then [.put key value] else []) ++
        if i = routingShard x.xxh3 (metaKey key) then [.put (metaKey key) metaVal] else [] := by
  unfold addEntry
  rw [addWork_works, addWork_works]
  rfl

/-- What the loop of `batch_put` has collected so far, on a clock that stood at `clock`. -/
structure BatchStamps (x : External) (clock : HybridLogicalClock) (keys : List Bytes)
    (readings : List (List Int64)) (s : BatchState) : Prop where
  clock_le : clock.current ≤ s.clock.current
  proper : ∀ i, ∀ o ∈ s.works i, o.Proper x.lite3
  placed : ∀ i key, PlainKey key → stampsFor x.lite3 key (s.works i) ≠ [] →
    key ∈ keys ∧ i = routingShard x.xxh3 (metaKey key)
  rising : ∀ i key, PlainKey key → (stampsFor x.lite3 key (s.works i)).Pairwise (· < ·)
  bounds : ∀ i key, PlainKey key → ∀ ts ∈ stampsFor x.lite3 key (s.works i),
    clock.current < ts ∧ ts ≤ s.clock.current ∧ ∀ old, Outrun clock readings old → old < ts

theorem BatchStamps.addEntry (hl : x.lite3.Lawful) {keys : List Bytes}
    {readings : List (List Int64)} {s : BatchState} (h : BatchStamps x clock keys readings s)
    (hsorted : Sorted readings) {rs : List Int64} {ts : Timestamp} {clock' : HybridLogicalClock}
    {user value metaVal : Bytes} (hmem : user ∈ keys) (hrs : rs ∈ readings) (huser : PlainKey user)
    (hplain : ¬ ascii ":meta" <:+ user) (hnow : s.clock.now rs = some (ts, clock'))
    (hmeta : metaObject x.lite3 ts false = some metaVal) :
    BatchStamps x clock keys readings (s.addEntry x clock' user value metaVal) := by
  have hadvance : s.clock.current < ts :=
    HybridLogicalClock.now_advances hnow (s.clock.waitAdvances_of_sorted (hsorted rs hrs))
  have hts : ts = clock'.current := (HybridLogicalClock.now_spec hnow).1
  have hclock : (s.addEntry x clock' user value metaVal).clock = clock' := rfl
  have hstamps (i : Fin 8) (key : Bytes) (hkey : PlainKey key) :
      stampsFor x.lite3 key ((s.addEntry x clock' user value metaVal).works i) =
        stampsFor x.lite3 key (s.works i) ++
          if i = routingShard x.xxh3 (metaKey user) ∧ key = user then [ts] else [] := by
    have hvalue : ShardOp.stampFor x.lite3 key (.put user value) = none := stampFor_value hplain hkey
    have hsidecar := stampFor_sidecar hl huser hmeta hkey
    rw [BatchState.addEntry_works, List.append_assoc, stampsFor_append, stampsFor_append]
    congr 1
    by_cases hi : i = routingShard x.xxh3 user <;>
      by_cases hi' : i = routingShard x.xxh3 (metaKey user) <;>
        by_cases heq : key = user <;> simp_all [stampsFor]
  constructor
  · rw [hclock, ← hts]
    exact h.clock_le.trans hadvance.le
  · intro i o ho
    rw [BatchState.addEntry_works, List.mem_append, List.mem_append] at ho
    rcases ho with (ho | ho) | ho
    · exact h.proper i o ho
    · split at ho
      · rw [List.mem_singleton.mp ho]
        exact .value huser hplain rfl
      · cases ho
    · split at ho
      · rw [List.mem_singleton.mp ho]
        exact .sidecar huser hmeta
      · cases ho
  · intro i key hkey hne
    rw [hstamps i key hkey] at hne
    split at hne
    · rename_i hhere
      rw [hhere.2]
      exact ⟨hmem, hhere.1⟩
    · rw [List.append_nil] at hne
      exact h.placed i key hkey hne
  · intro i key hkey
    rw [hstamps i key hkey]
    split
    · rw [List.pairwise_append]
      refine ⟨h.rising i key hkey, by simp, ?_⟩
      intro old hold new hnew
      rw [List.mem_singleton.mp hnew]
      exact lt_of_le_of_lt (h.bounds i key hkey old hold).2.1 hadvance
    · simpa using h.rising i key hkey
  · intro i key hkey t ht
    rw [hstamps i key hkey, List.mem_append] at ht
    rw [hclock, ← hts]
    rcases ht with ht | ht
    · obtain ⟨hlower, hupper, hout⟩ := h.bounds i key hkey t ht
      exact ⟨hlower, hupper.trans hadvance.le, hout⟩
    · split at ht
      · rw [List.mem_singleton.mp ht]
        exact ⟨lt_of_le_of_lt h.clock_le hadvance, le_refl _,
          fun old hout => hout.now hsorted hrs h.clock_le hnow⟩
      · cases ht

private theorem batchStamps_loop (hl : x.lite3.Lawful) {c : CredentialManager} {principal : UInt32}
    {batch : Bytes} {keys : List Bytes} {readings : List (List Int64)} {s : BatchState}
    (hkeys : ∀ key ∈ keys, PlainKey key ∧ ¬ ascii ":meta" <:+ key) (hsorted : Sorted readings)
    (h : batchLoop x c principal batch keys readings (BatchState.init clock) = some (.ok s)) :
    BatchStamps x clock keys readings s := by
  refine batchLoop_induction ?_ ?_ h
  · intro s rs ts clock' key value metaVal hs hmem hrs _ _ hnow hmeta
    exact hs.addEntry hl hsorted hmem hrs (hkeys key hmem).1 (hkeys key hmem).2 hnow hmeta
  · constructor
    · exact le_refl _
    all_goals simp [BatchState.init, stampsFor]

private theorem PlanStamps.batch {batch : Bytes} {principal : UInt32}
    {readings : List (List Int64)} {s : BatchState}
    (h : BatchStamps x e.clock (x.lite3.keys batch) readings s) :
    PlanStamps x e (.batchPut batch principal readings) s.clock
      (.async (((List.finRange 8).map fun i => (i, s.works i)).filter fun w => !w.2.isEmpty)) := by
  generalize htasks : (((List.finRange 8).map fun i => (i, s.works i)).filter
    fun w => !w.2.isEmpty) = tasks
  have htask : ∀ w ∈ tasks, w.2 = s.works w.1 := by
    intro w hw
    rw [← htasks, List.mem_filter, List.mem_map] at hw
    obtain ⟨⟨i, -, rfl⟩, -⟩ := hw
    rfl
  have hplaces : tasks.Pairwise (fun w w' => w.1 ≠ w'.1) := by
    rw [← htasks]
    apply List.Pairwise.filter
    rw [List.pairwise_map]
    exact (List.nodup_finRange 8).imp id
  have hpart {part : Option (Fin 8) × List ShardOp} (hmem : part ∈ (Work.async tasks).parts) :
      ∃ i, part = (some i, s.works i) := by
    obtain ⟨w, hw, rfl⟩ := List.mem_map.mp hmem
    exact ⟨w.1, by rw [htask w hw]⟩
  have hops {o : ShardOp} (ho : o ∈ (Work.async tasks).ops) : ∃ i, o ∈ s.works i := by
    obtain ⟨w, hw, ho⟩ := List.mem_flatMap.mp ho
    exact ⟨w.1, htask w hw ▸ ho⟩
  constructor
  · intro o ho
    obtain ⟨i, hi⟩ := hops ho
    exact h.proper i o hi
  · intro key hkey
    have hflat : stampsFor x.lite3 key (Work.async tasks).ops =
        tasks.flatMap fun w => stampsFor x.lite3 key w.2 := by
      simp [stampsFor, Work.ops, List.filterMap_flatMap]
    rw [hflat, List.pairwise_flatMap]
    constructor
    · intro w hw
      rw [htask w hw]
      exact h.rising w.1 key hkey
    · -- Only one shard gets operations on the sidecar of the key.
      apply hplaces.imp_of_mem
      intro w w' hw hw' hne t ht t' ht'
      rw [htask w hw] at ht
      rw [htask w' hw'] at ht'
      have hplace := (h.placed w.1 key hkey (List.ne_nil_of_mem ht)).2
      have hplace' := (h.placed w'.1 key hkey (List.ne_nil_of_mem ht')).2
      exact absurd (hplace.trans hplace'.symm) hne
  · intro key hkey part hmem _ t ht
    obtain ⟨i, rfl⟩ := hpart hmem
    obtain ⟨hlower, hupper, -⟩ := h.bounds i key hkey t ht
    exact ⟨hlower, hupper⟩
  · intro key hkey part hmem hne
    obtain ⟨i, rfl⟩ := hpart hmem
    obtain ⟨hin, rfl⟩ := h.placed i key hkey hne
    exact ⟨hin, rfl⟩
  · intro key hkey old _ hout t ht
    obtain ⟨o, ho, hstamp⟩ := mem_stampsFor.mp ht
    obtain ⟨i, hi⟩ := hops ho
    exact (h.bounds i key hkey t (mem_stampsFor.mpr ⟨o, hi, hstamp⟩)).2.2 old hout

private theorem now_of_stamped {readings : List Int64} {planOf : Timestamp → Option Plan}
    {outcome : Outcome} (h : Engine.stamped e.clock readings planOf = some (clock, outcome)) :
    ∃ ts, e.clock.now readings = some (ts, clock) := by
  obtain ⟨⟨ts, clock'⟩, hnow, h⟩ := Option.map_eq_some_iff.mp h
  split at h
  · cases h
    exact ⟨ts, hnow⟩
  · cases h
    exact ⟨ts, hnow⟩

private theorem now_fresh {call : Call} {readings : List Int64} {ts : Timestamp}
    (hsorted : Sorted call.readings) (hmem : readings ∈ call.readings)
    (hnow : e.clock.now readings = some (ts, clock)) :
    (e.clock.current < ts ∧ ts ≤ clock.current) ∧
      ∀ old, Outrun e.clock call.readings old → old < ts := by
  have hwait := e.clock.waitAdvances_of_sorted (hsorted readings hmem)
  refine ⟨⟨HybridLogicalClock.now_advances hnow hwait, (HybridLogicalClock.now_spec hnow).1.le⟩, ?_⟩
  intro old hout
  exact hout.now hsorted hmem (le_refl _) hnow

theorem prepare_stamps (hx : x.Lawful) {call : Call} {plan : Plan} (hcall : call.Stamps)
    (hkeys : ∀ key ∈ call.keys x.lite3, PlainKey key ∧ ¬ ascii ":meta" <:+ key)
    (hsorted : Sorted call.readings) (h : e.prepare x u call = some (clock, .accepted plan)) :
    PlanStamps x e call clock plan.work := by
  cases Engine.prepare_sound h with
  | put key body principal readings _ hnow hmeta hwork =>
      obtain ⟨hkey, hplain⟩ := hkeys key (by simp [Call.keys])
      obtain ⟨hfresh, habove⟩ := now_fresh hsorted (by simp [Call.readings]) hnow
      apply PlanStamps.pair hx.lite3 (o := .put key body) hkey rfl hplain rfl hmeta
      · rw [hwork]
        rfl
      · simp [Call.keys]
      · exact fun _ => hfresh
      · exact fun old _ => habove old
  | del key principal readings _ hnow hmeta hwork =>
      obtain ⟨hkey, hplain⟩ := hkeys key (by simp [Call.keys])
      obtain ⟨hfresh, habove⟩ := now_fresh hsorted (by simp [Call.readings]) hnow
      apply PlanStamps.pair hx.lite3 (o := .del key) hkey rfl hplain rfl hmeta
      · rw [hwork]
        rfl
      · simp [Call.keys]
      · exact fun _ => hfresh
      · exact fun old _ => habove old
  | patchInt => cases hcall
  | patchStr => cases hcall
  | batchPut _ _ _ s hloop =>
      exact PlanStamps.batch (batchStamps_loop hx.lite3 hkeys hsorted hloop)
  | applyMutation m hlocal hnewer hplan =>
      obtain ⟨hkey, hplain⟩ := hkeys m.key (by simp [Call.keys])
      obtain ⟨metaVal, hmeta, hwork, -⟩ := mutationPlan_spec hplan
      have hvalue : m.shardOp.key = m.key ∧ ∃ content, m.shardOp.Leaves x.lite3 content := by
        unfold Mutation.shardOp
        split
        · exact ⟨rfl, _, rfl⟩
        · exact ⟨rfl, _, rfl⟩
      obtain ⟨hokey, content, hleaves⟩ := hvalue
      apply PlanStamps.pair hx.lite3 hkey hokey hplain hleaves hmeta
      · rw [hwork]
        rfl
      · simp [Call.keys]
      · intro hne
        exact absurd rfl hne
      · intro old hold _
        rw [Store.stampOf, hlocal] at hold
        cases hold
        exact hnewer

/-- The clock the loop of `batch_put` leaves. -/
private def loopClock : Except (HybridLogicalClock × CallResult) BatchState → HybridLogicalClock
  | .error r => r.1
  | .ok s => s.clock

private theorem batchLoop_clock {c : CredentialManager} {principal : UInt32} {batch : Bytes}
    {keys : List Bytes} {readings : List (List Int64)} (hsorted : Sorted readings) {s : BatchState}
    {result : Except (HybridLogicalClock × CallResult) BatchState}
    (h : batchLoop x c principal batch keys readings s = some result) :
    s.clock.current ≤ (loopClock result).current := by
  induction keys generalizing readings s with
  | nil =>
      cases h
      exact le_refl _
  | cons key keys ih =>
      rw [batchLoop] at h
      split at h
      · split at h
        · cases h
          exact le_refl _
        · exact ih hsorted h
        · split at h
          · cases h
          · rename_i ts clock' hnow
            cases readings with
            | nil => simp [HybridLogicalClock.now] at hnow
            | cons rs rest =>
                have hadvance : s.clock.current < ts := HybridLogicalClock.now_advances hnow
                  (s.clock.waitAdvances_of_sorted (hsorted rs List.mem_cons_self))
                rw [(HybridLogicalClock.now_spec hnow).1] at hadvance
                split at h
                · cases h
                  exact hadvance.le
                · have hrest : Sorted rest := fun rs' hrs' => hsorted rs' (List.mem_cons_of_mem _ hrs')
                  exact hadvance.le.trans (ih hrest h)
      · cases h
        exact le_refl _

private theorem stamped_clock {readings : List Int64} (hsorted : readings.Pairwise (· ≤ ·))
    {planOf : Timestamp → Option Plan} {outcome : Outcome}
    (h : Engine.stamped e.clock readings planOf = some (clock, outcome)) :
    e.clock.current ≤ clock.current := by
  obtain ⟨ts, hnow⟩ := now_of_stamped h
  have hadvance := HybridLogicalClock.now_advances hnow (e.clock.waitAdvances_of_sorted hsorted)
  rw [(HybridLogicalClock.now_spec hnow).1] at hadvance
  exact hadvance.le

/-- No call turns the clock back. -/
theorem prepare_clock {call : Call} {outcome : Outcome} (hsorted : Sorted call.readings)
    (h : e.prepare x u call = some (clock, outcome)) : e.clock.current ≤ clock.current := by
  cases call with
  | put key body principal readings =>
      simp only [Engine.prepare] at h
      split at h
      · exact stamped_clock (hsorted readings (by simp [Call.readings])) h
      · cases h
        exact le_refl _
  | del key principal readings =>
      simp only [Engine.prepare] at h
      split at h
      · exact stamped_clock (hsorted readings (by simp [Call.readings])) h
      · cases h
        exact le_refl _
  | patchInt key field value readings =>
      simp only [Engine.prepare] at h
      exact stamped_clock (hsorted readings (by simp [Call.readings])) h
  | patchStr key field value readings =>
      simp only [Engine.prepare] at h
      exact stamped_clock (hsorted readings (by simp [Call.readings])) h
  | batchPut batch principal readings =>
      simp only [Engine.prepare, Option.map_eq_some_iff] at h
      obtain ⟨result, hloop, h⟩ := h
      have hclock := batchLoop_clock hsorted hloop
      cases result with
      | error r =>
          cases h
          exact hclock
      | ok s =>
          dsimp only at h
          split at h
          · cases h
            exact hclock
          · cases h
            exact hclock
  | applyMutation m =>
      simp only [Engine.prepare] at h
      repeat' split at h
      all_goals
        cases h
        exact le_refl _

/-- The record holds operations that store the same timestamps as those of the work. -/
def LogStamps (l : Lite3) (logged : List BatchOp) (work : Work) : Prop :=
  ∃ ops, logged = ops.map ShardOp.logEntry ∧ (∀ o ∈ ops, o.Proper l) ∧
    ∀ key, PlainKey key → stampsFor l key ops = stampsFor l key work.ops

def Call.isBatch : Call → Bool
  | .batchPut .. => true
  | _ => false

theorem prepare_logged (hx : x.Lawful) {call : Call} {plan : Plan} (hcall : call.Stamps)
    (hbatch : call.isBatch = false)
    (hkeys : ∀ key ∈ call.keys x.lite3, PlainKey key ∧ ¬ ascii ":meta" <:+ key)
    (hsorted : Sorted call.readings) (h : e.prepare x u call = some (clock, .accepted plan)) :
    LogStamps x.lite3 plan.logged plan.work := by
  have hproper := (prepare_stamps hx hcall hkeys hsorted h).proper
  cases Engine.prepare_sound h with
  | put _ _ _ _ _ _ _ _ hlogged => exact ⟨plan.work.ops, hlogged, hproper, fun _ _ => rfl⟩
  | del _ _ _ _ _ _ _ hlogged => exact ⟨plan.work.ops, hlogged, hproper, fun _ _ => rfl⟩
  | patchInt => cases hcall
  | patchStr => cases hcall
  | batchPut => cases hbatch
  | applyMutation m _ _ hplan =>
      obtain ⟨hkey, hplain⟩ := hkeys m.key (by simp [Call.keys])
      obtain ⟨metaVal, hmeta, hwork, hlogged⟩ := mutationPlan_spec hplan
      cases hdel : m.isDelete with
      | true =>
          refine ⟨plan.work.ops, ?_, hproper, fun _ _ => rfl⟩
          rw [hlogged, hwork]
          simp [Work.ops, Mutation.shardOp, hdel, ShardOp.logEntry]
      | false =>
          -- The value in the record is whatever the dead string reads as.
          refine ⟨[.put m.key ((List.range m.value.length).map (u 4)), .put (metaKey m.key) metaVal],
            ?_, ?_, ?_⟩
          · rw [hlogged]
            simp [Mutation.shardOp, hdel, ShardOp.logEntry]
          · intro o ho
            rcases List.mem_pair.mp ho with rfl | rfl
            · exact .value hkey hplain rfl
            · exact .sidecar hkey hmeta
          · intro key hother
            have hvalue : ¬ ascii ":meta" <:+ m.shardOp.key := by
              rw [Mutation.shardOp, hdel]
              exact hplain
            rw [hwork, Work.ops, stampsFor_pair hx.lite3 hvalue hkey hmeta hother]
            exact stampsFor_pair hx.lite3 hplain hkey hmeta hother

end

end L3KV
