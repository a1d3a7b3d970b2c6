import L3KV.Engine.Deletes

/-!
# What a patch leaves

A patch sets a field of the value, and the field of the same name of the sidecar to its timestamp
as a text. The timestamp that the sidecar had before stays.
-/

namespace L3KV

open Framework

def Call.patch? : Call → Option (ShardOp × Bytes)
  | .patchInt key field value _ => some (.patchInt key field value, field)
  | .patchStr key field value _ => some (.patchStr key field value, field)
  | _ => none

def Call.patchReadings : Call → List Int64
  | .patchInt _ _ _ readings => readings
  | .patchStr _ _ _ readings => readings
  | _ => []

/-- What the operation makes of a buffer; `none` if the setter throws. -/
def ShardOp.sets (l : Lite3) (buf : Bytes) : ShardOp → Option Bytes
  | .patchInt _ field value => l.setI64 buf field value
  | .patchStr _ field value => l.setStr buf field value
  | _ => none

/-- The store before and after a patch. -/
structure Patched (x : External) (o : ShardOp) (field : Bytes) (st st' : Store) : Prop where
  tidy : st'.Tidy x
  value : st'.get x o.key adminUid =
    (o.sets x.lite3 (st.patchBase x o.key)).getD (st.get x o.key adminUid)
  sidecar : st'.get x (metaKey o.key) adminUid = st.get x (metaKey o.key) adminUid ∨
    ∃ text, x.lite3.setStr (st.patchBase x (metaKey o.key)) field text =
      some (st'.get x (metaKey o.key) adminUid)

section

variable {x : External} {u : Nat → Nat → UInt8} {e : Engine} {st st' : Store} {call : Call}
  {o : ShardOp} {field : Bytes}

private theorem prepare_patch (hcall : call.patch? = some (o, field)) :
    e.prepare x u call = Engine.stamped e.clock call.patchReadings fun ts =>
      some (patchPlan x u o field ts) := by
  cases call with
  | patchInt key name value readings =>
      cases hcall
      rfl
  | patchStr key name value readings =>
      cases hcall
      rfl
  | _ => cases hcall

theorem planOf_patch (hcall : call.patch? = some (o, field)) {plan : Plan}
    (hplan : e.planOf x u call = some plan) : ∃ ts, plan = patchPlan x u o field ts := by
  obtain ⟨clock, hprep⟩ := Engine.planOf_eq_some.mp hplan
  rw [prepare_patch hcall] at hprep
  obtain ⟨ts, -, hts⟩ := Engine.stamped_accepted hprep
  exact ⟨ts, (Option.some.inj hts).symm⟩

/-- A patch on an engine with nothing queued logs its two updates and runs them at once. -/
theorem call_patch_run (hidle : e.Idle) (hcall : call.patch? = some (o, field)) {ts : Timestamp}
    {clock : HybridLogicalClock} (hnow : e.clock.now call.patchReadings = some (ts, clock))
    {r : Engine × CallResult} (hr : e.call x u call = some r) :
    let task := [o, .patchStr (metaKey o.key) field (stampText ts)]
    r.1.Idle ∧ e.planOf x u call = some (patchPlan x u o field ts) ∧
      r.1.wal = e.wal.appendBatch (patchPlan x u o field ts).logged ∧
      r.1.store = (e.store.runTask x task).1 ∧
      (r.2 = .threw ↔ (e.store.runTask x task).2 = false) := by
  intro task
  have hprep : e.prepare x u call = some (clock, .accepted (patchPlan x u o field ts)) := by
    rw [prepare_patch hcall, Engine.stamped, hnow]
    rfl
  have hdone : Engine.successOf call = .done := by
    cases call with
    | del key principal readings => cases hcall
    | _ => rfl
  have hdrain (wal : LogFile) (shard : Fin 8) :=
    Engine.drain_idle (x := x) (e := { e with clock := clock, wal := wal }) (hidle shard)
  rw [Engine.call, hprep] at hr
  cases hr
  have hwork : (patchPlan x u o field ts).work =
      .wait (routingShard x.xxh3 (x.movedFrom o.key)) task := rfl
  refine ⟨?_, Engine.planOf_eq_some.mpr ⟨clock, hprep⟩, ?_, ?_, ?_⟩ <;>
    simp only [Engine.commit, hwork, hdrain]
  · exact hidle
  · cases (e.store.runTask x task).2 <;> simp [hdone]

theorem call_patch (hidle : e.Idle) (hcall : call.patch? = some (o, field))
    {r : Engine × CallResult} (hr : e.call x u call = some r) :
    r.1.Idle ∧ ∃ plan text, e.planOf x u call = some plan ∧
      plan.work.ops = [o, .patchStr (metaKey o.key) field text] ∧
      r.1.store = (e.store.runTask x [o, .patchStr (metaKey o.key) field text]).1 := by
  obtain ⟨p, hprep, -⟩ := Option.map_eq_some_iff.mp hr
  rw [prepare_patch hcall] at hprep
  obtain ⟨stamp, hnow, -⟩ := Option.map_eq_some_iff.mp hprep
  obtain ⟨hidle', hplan, -, hstore, -⟩ := call_patch_run hidle hcall hnow hr
  exact ⟨hidle', _, stampText stamp.1, hplan, rfl, hstore⟩

private theorem get_apply_patch (hx : x.Lawful) (hpatch : x.Patchable) (hst : st.Readable x)
    (hcall : call.patch? = some (o, field))
    (hlong : ∀ buf ∈ o.sets x.lite3 (st.patchBase x o.key), buf.length < 2 ^ 32) :
    (st.apply x o = none ∧ o.sets x.lite3 (st.patchBase x o.key) = none) ∨
      ∃ st' buf, st.apply x o = some st' ∧ o.sets x.lite3 (st.patchBase x o.key) = some buf ∧
        st'.get x o.key adminUid = buf := by
  have hset {key : Bytes} {set : Bytes → Option Bytes} (hkey : o.key = key)
      (happly : st.apply x o = st.applyPatch x key (Blob.setField x.lite3 x.zstd st.zstd set))
      (hsets : ∀ buf, o.sets x.lite3 buf = set buf) :
      (st.apply x o = none ∧ o.sets x.lite3 (st.patchBase x o.key) = none) ∨
        ∃ st' buf, st.apply x o = some st' ∧ o.sets x.lite3 (st.patchBase x o.key) = some buf ∧
          st'.get x o.key adminUid = buf := by
    subst hkey
    cases h : st.apply x o with
    | none =>
        refine Or.inl ⟨rfl, ?_⟩
        rw [hsets]
        exact Store.applyPatch_throws hpatch.zstd (hst o.key) (happly ▸ h)
    | some st' =>
        obtain ⟨buf, hbuf, hholding⟩ :=
          Store.applyPatch_holding hpatch.zstd (hst o.key) (happly ▸ h)
        rw [← hsets] at hbuf
        exact Or.inr ⟨st', buf, rfl, hbuf, hholding.get_eq hx.zstd (hlong buf hbuf)⟩
  cases call with
  | patchInt key name value readings =>
      cases hcall
      exact hset rfl rfl fun _ => rfl
  | patchStr key name value readings =>
      cases hcall
      exact hset rfl rfl fun _ => rfl
  | _ => cases hcall

theorem patched_of_call (hx : x.Lawful) (hpatch : x.Patchable) (hidle : e.Idle)
    (htidy : e.store.Tidy x) (hcall : call.patch? = some (o, field)) (hkey : UserKey o.key)
    (hlong : ∀ buf ∈ o.sets x.lite3 (e.store.patchBase x o.key), buf.length < 2 ^ 32)
    (hfits : ∀ plan ∈ e.planOf x u call, ∀ p ∈ plan.work.ops, p.Fits x (2 ^ 16) e.store)
    {r : Engine × CallResult} (hr : e.call x u call = some r) :
    r.1.Idle ∧ Patched x o field e.store r.1.store := by
  obtain ⟨hidle', plan, text, hplan, hops, hstore⟩ := call_patch hidle hcall hr
  have hfits' (p : ShardOp) (hp : p ∈ [o, .patchStr (metaKey o.key) field text]) :
      p.Fits x (2 ^ 16) e.store := hfits plan hplan p (hops ▸ hp)
  refine ⟨hidle', ?_⟩
  rw [hstore, Store.runTask]
  rcases get_apply_patch hx hpatch htidy.readable hcall hlong with
    ⟨hthrows, hsets⟩ | ⟨st, buf, happly, hsets, hvalue⟩
  · rw [hthrows]
    exact ⟨htidy, by rw [hsets]; rfl, Or.inl rfl⟩
  · rw [happly]
    have hof : o.OfUsers x.lite3 fun _ => True := .value hkey
    have htidy₁ : st.Tidy x := htidy.apply hx hpatch hof (hfits' o (by simp)) happly
    have hsame : st.get x (metaKey o.key) adminUid = e.store.get x (metaKey o.key) adminUid :=
      htidy.readable.get_apply_ne happly (hkey.metaKey_ne hkey)
    have hbase : st.patchBase x (metaKey o.key) = e.store.patchBase x (metaKey o.key) := by
      rw [Store.patchBase, Store.patchBase, hsame]
    simp only [Store.runTask]
    cases hstamp : st.apply x (.patchStr (metaKey o.key) field text) with
    | none => exact ⟨htidy₁, by rw [hvalue, hsets]; rfl, Or.inl hsame⟩
    | some st₂ =>
        have hfits₂ : (ShardOp.patchStr (metaKey o.key) field text).Fits x (2 ^ 16) st := by
          intro hsuffix
          rw [hbase]
          exact hfits' (.patchStr (metaKey o.key) field text) (by simp) hsuffix
        have hstampOf : (ShardOp.patchStr (metaKey o.key) field text).OfUsers x.lite3
            fun _ => True := .stamp hkey trivial
        refine ⟨htidy₁.apply hx hpatch hstampOf hfits₂ hstamp, ?_, ?_⟩
        · have hne : o.key ≠ metaKey o.key := Ne.symm (hkey.metaKey_ne hkey)
          rw [htidy₁.readable.get_apply_ne hstamp hne, hvalue, hsets]
          rfl
        · rcases sidecar_of_apply hx hpatch htidy₁.readable hstampOf hfits₂ hstamp hkey with
            heq | ⟨_, _, _, hput, -⟩ | ⟨_, _, buf', hop, hset, -, heq⟩
          · exact Or.inl (heq.trans hsame)
          · cases hput
          · obtain ⟨-, rfl, rfl⟩ := ShardOp.patchStr.inj hop
            rw [hbase] at hset
            exact Or.inr ⟨text, by rw [hset, heq]⟩

end

end L3KV
