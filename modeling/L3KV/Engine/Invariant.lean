import L3KV.Engine.Calls

/-!
# Invariants of the store

What every single operation keeps, every task, call and recovery keeps.
-/

namespace L3KV

open Framework

/-- Every operation that does not throw keeps the property. -/
def Store.Keeps (x : External) (P : Store → Prop) : Prop :=
  ∀ st o st', P st → st.apply x o = some st' → P st'

namespace Store.Keeps

variable {x : External} {P : Store → Prop} (h : Store.Keeps x P)

include h

theorem runTask {st : Store} (hst : P st) (task : List ShardOp) : P (st.runTask x task).1 := by
  induction task generalizing st with
  | nil => exact hst
  | cons o task ih =>
      rw [Store.runTask]
      cases happly : st.apply x o with
      | none => exact hst
      | some st' => exact ih (h st o st' hst happly)

theorem drain {e : Engine} (he : P e.store) (shard : Fin 8) : P (e.drain x shard).store := by
  have hfold (tasks : List (List ShardOp)) (st : Store) (hst : P st) :
      P (tasks.foldl (fun st task => (st.runTask x task).1) st) := by
    induction tasks generalizing st with
    | nil => exact hst
    | cons task tasks ih => exact ih _ (runTask h hst task)
  exact hfold (e.queues shard) e.store he

theorem commit {e : Engine} (he : P e.store) (result : CallResult) (plan : Plan) :
    P (e.commit x result plan).1.store := by
  rw [Engine.commit]
  cases plan.work with
  | wait shard task => exact runTask h (drain h (e := { e with wal := _ }) he shard) task
  | async tasks =>
      have hfold (e : Engine) :
          (tasks.foldl (fun e w => e.enqueue w.1 w.2) e).store = e.store := by
        induction tasks generalizing e with
        | nil => rfl
        | cons w tasks ih => rw [List.foldl_cons, ih]; rfl
      simp only [hfold]
      exact he
  | direct ops => exact runTask h he ops

theorem call {u : Nat → Nat → UInt8} {e : Engine} (he : P e.store) {c : Call}
    {r : Engine × CallResult} (hr : e.call x u c = some r) : P r.1.store := by
  obtain ⟨⟨clock, outcome⟩, -, rfl⟩ := Option.map_eq_some_iff.mp hr
  cases outcome with
  | refused result => exact he
  | accepted plan => exact commit h (e := { e with clock := clock }) he _ plan

theorem runCalls {u : Nat → Nat → UInt8} {e e' : Engine} (he : P e.store) {calls : List Call}
    (hrun : e.runCalls x u calls = some e') : P e'.store := by
  induction calls generalizing e with
  | nil =>
      cases hrun
      exact he
  | cons c calls ih =>
      obtain ⟨r, hr, hrest⟩ := Option.bind_eq_some_iff.mp hrun
      exact ih (call h he hr) hrest

theorem replay {st : Store} (hst : P st) (o : BatchOp) : P (st.replay x o) := by
  have hgetD {o : ShardOp} : P ((st.apply x o).getD st) := by
    cases happly : st.apply x o with
    | none => exact hst
    | some st' => exact h st o st' hst happly
  unfold Store.replay
  split
  · exact h st (.put o.key o.value) _ hst rfl
  · split
    · split
      · exact hst
      · split
        · exact hst
        · exact hgetD (o := .patchInt _ _ _)
    · split
      · split
        · exact hst
        · exact hgetD (o := .patchStr _ _ _)
      · split
        · exact h st (.del o.key) _ hst rfl
        · exact hst

theorem openOn (hinit : P (Store.init x)) (nodeId : UInt32) (file : Bytes) :
    P (Engine.openOn x nodeId file).store := by
  have hfold (ops : List BatchOp) (st : Store) (hst : P st) : P (ops.foldl (Store.replay x) st) := by
    induction ops generalizing st with
    | nil => exact hst
    | cons o ops ih => exact ih _ (replay h hst o)
  exact hfold _ _ hinit

end Store.Keeps

end L3KV
