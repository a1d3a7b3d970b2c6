import L3KV.Engine.Unseen
import L3KV.Server.Service

/-!
# Requests of observers and of others

What an observer may ask for without noticing what the others do, and what the others may ask for
without being noticed. The calls of an observer come to the same with a clock that other calls have
not moved on.
-/

namespace L3KV

open Framework

/-- What an observer may ask for: to read a shown key, and to write keys whose sidecar is none. The
object of `batch_get` tells whether a value is compressed, which depends on what others have stored. -/
def Request.Observes (l : Lite3) (shown : Bytes → Prop) : Request → Prop
  | .get key => shown key
  | .batchGet _ => False
  | request => ∀ key ∈ request.written l, ¬ Relevant shown (metaKey key)

instance (l : Lite3) (shown : Bytes → Prop) [DecidablePred shown] :
    (request : Request) → Decidable (request.Observes l shown)
  | .get key => inferInstanceAs (Decidable (shown key))
  | .batchGet _ => isFalse id
  | .put key _ => inferInstanceAs (Decidable (∀ k ∈ [key], ¬ Relevant shown (metaKey k)))
  | .del key => inferInstanceAs (Decidable (∀ k ∈ [key], ¬ Relevant shown (metaKey k)))
  | .batchPut batch =>
      inferInstanceAs (Decidable (∀ key ∈ l.keys batch, ¬ Relevant shown (metaKey key)))

/-- What the others may ask for: nothing that writes a shown key or an access rule. -/
def Request.Avoids (l : Lite3) (shown : Bytes → Prop) (c : CredentialManager) (principal : UInt32)
    (request : Request) : Prop :=
  ∀ key ∈ request.written l, (c.checkPermission principal key).canWrite = true →
    ¬ Relevant shown key ∧ ¬ Relevant shown (metaKey key)

instance (l : Lite3) (shown : Bytes → Prop) [DecidablePred shown] (c : CredentialManager)
    (principal : UInt32) (request : Request) : Decidable (request.Avoids l shown c principal) :=
  inferInstanceAs (Decidable (∀ key ∈ request.written l,
    (c.checkPermission principal key).canWrite = true →
      ¬ Relevant shown key ∧ ¬ Relevant shown (metaKey key)))

section

variable {x : External} {u : Nat → Nat → UInt8} {shown : Bytes → Prop} {e e' : Engine}
  {request : Request} {principal : UInt32} {readings : List (List Int64)} {call : Call}
  {clock : HybridLogicalClock}

private theorem Timestamp.ticks_le {a b : Timestamp} (h : a ≤ b) : a.ticks ≤ b.ticks :=
  not_lt.mp fun hlt => not_lt.mpr h (lt_of_ticks_lt hlt)

/-- The clock of a call that a request stands for does not go back. -/
theorem Request.clock_le (hcall : request.call? principal readings = some call)
    (hsorted : Sorted readings) {outcome : Outcome}
    (hprep : e.prepare x u call = some (clock, outcome)) :
    e.clock.current.ticks ≤ clock.current.ticks := by
  refine Timestamp.ticks_le (prepare_clock ?_ hprep)
  have hone : Sorted [readings.headD []] := by
    intro rs hrs
    rw [List.mem_singleton.mp hrs]
    exact hsorted.headD
  cases request with
  | get key => cases hcall
  | batchGet keys => cases hcall
  | put key value =>
      cases hcall
      exact hone
  | del key =>
      cases hcall
      exact hone
  | batchPut batch =>
      cases hcall
      exact hsorted

/-- Two preparations with the same result for the caller, the second with a clock that is behind. -/
inductive PreparedLike (shown : Bytes → Prop) :
    HybridLogicalClock × Outcome → HybridLogicalClock × Outcome → Prop
  | accepted {clock clock' : HybridLogicalClock} {plan plan' : Plan}
      (behind : clock'.current.ticks ≤ clock.current.ticks) (work : plan.work.Like shown plan'.work) :
      PreparedLike shown (clock, .accepted plan) (clock', .accepted plan')
  | refused {clock clock' : HybridLogicalClock} {result : CallResult}
      (behind : clock'.current.ticks ≤ clock.current.ticks) :
      PreparedLike shown (clock, .refused result) (clock', .refused result)

theorem Request.refusal_eq {readings' : List (List Int64)} {call' : Call}
    (hcall : request.call? principal readings = some call)
    (hcall' : request.call? principal readings' = some call') (result : CallResult) :
    call'.refusal result = call.refusal result := by
  cases request with
  | get key => cases hcall
  | batchGet keys => cases hcall
  | put key value =>
      cases hcall
      cases hcall'
      cases result <;> rfl
  | del key =>
      cases hcall
      cases hcall'
      cases result with
      | deleted existed => cases existed <;> rfl
      | _ => rfl
  | batchPut batch =>
      cases hcall
      cases hcall'
      cases result <;> rfl

private theorem stamped_like {rs : List Int64} (hsorted : rs.Pairwise (· ≤ ·))
    (hclock : e'.clock.current.ticks ≤ e.clock.current.ticks) {planOf : Timestamp → Option Plan}
    (hplan : ∀ ts ts', ∃ plan plan', planOf ts = some plan ∧ planOf ts' = some plan' ∧
      plan.work.Like shown plan'.work) {can : Bool} {result : CallResult}
    {r : HybridLogicalClock × Outcome}
    (h : (if can then Engine.stamped e.clock rs planOf else some (e.clock, .refused result)) = some r) :
    ∃ rs' r', (if can then Engine.stamped e'.clock rs' planOf
      else some (e'.clock, .refused result)) = some r' ∧ PreparedLike shown r r' := by
  cases can with
  | false =>
      cases h
      exact ⟨[], _, rfl, .refused hclock⟩
  | true =>
      obtain ⟨⟨ts, clock⟩, hnow, h⟩ := Option.map_eq_some_iff.mp h
      obtain ⟨rs', ts', clock', hnow', hbehind⟩ := HybridLogicalClock.now_behind
        (lt_of_le_of_lt hclock (HybridLogicalClock.now_ahead hnow hsorted))
      obtain ⟨plan, plan', hts, hts', hwork⟩ := hplan ts ts'
      simp only [hts] at h
      cases h
      exact ⟨rs', (clock', .accepted plan'), by simp [Engine.stamped, hnow', hts'],
        .accepted hbehind hwork⟩

private theorem putPlan_like (hl : x.lite3.Lawful) {key : Bytes}
    (hkey : ¬ Relevant shown (metaKey key))
    (body : Bytes) (ts ts' : Timestamp) :
    ∃ plan plan', putPlan x u key body ts = some plan ∧ putPlan x u key body ts' = some plan' ∧
      plan.work.Like shown plan'.work := by
  obtain ⟨metaVal, hmeta, -⟩ := metaObject_reads hl ts false
  obtain ⟨metaVal', hmeta', -⟩ := metaObject_reads hl ts' false
  refine ⟨_, _, by simp [putPlan, hmeta]; rfl, by simp [putPlan, hmeta']; rfl, ?_⟩
  exact .wait (.cons (.refl id) (.cons (.sidecar hkey) .nil))

theorem delPlan_like (hl : x.lite3.Lawful) {key : Bytes} (hkey : ¬ Relevant shown (metaKey key))
    (ts ts' : Timestamp) :
    ∃ plan plan', delPlan x u key ts = some plan ∧ delPlan x u key ts' = some plan' ∧
      plan.work.Like shown plan'.work := by
  obtain ⟨metaVal, hmeta, -⟩ := metaObject_reads hl ts true
  obtain ⟨metaVal', hmeta', -⟩ := metaObject_reads hl ts' true
  refine ⟨_, _, by simp [delPlan, hmeta]; rfl, by simp [delPlan, hmeta']; rfl, ?_⟩
  exact .wait (.cons (.refl id) (.cons (.sidecar hkey) .nil))

theorem BatchState.Like.tasks {s s' : BatchState} (h : s.Like shown s') :
    (Work.async (((List.finRange 8).map fun i => (i, s.works i)).filter fun w => !w.2.isEmpty)).Like
      shown (.async (((List.finRange 8).map fun i => (i, s'.works i)).filter fun w => !w.2.isEmpty)) := by
  refine .async (List.rel_filter ?_ ?_)
  · rintro w w' ⟨-, hops⟩
    have hempty : w.2 = [] ↔ w'.2 = [] := by
      rw [← List.length_eq_zero_iff, ← List.length_eq_zero_iff, hops.length_eq]
    simp [hempty]
  · rw [List.forall₂_map_left_iff, List.forall₂_map_right_iff, List.forall₂_same]
    exact fun i _ => ⟨rfl, h.works i⟩

theorem prepare_like (e e' : Engine) (hl : x.lite3.Lawful)
    (hrules : e'.store.credentials = e.store.credentials)
    (hclock : e'.clock.current.ticks ≤ e.clock.current.ticks)
    (hcall : request.call? principal readings = some call) (hsorted : Sorted readings)
    (hobs : request.Observes x.lite3 shown) {r : HybridLogicalClock × Outcome}
    (hprep : e.prepare x u call = some r) :
    ∃ readings' call' r', request.call? principal readings' = some call' ∧
      e'.prepare x u call' = some r' ∧ PreparedLike shown r r' := by
  cases request with
  | get key => cases hcall
  | batchGet keys => cases hcall
  | put key value =>
      cases hcall
      have hkey : ¬ Relevant shown (metaKey key) := hobs key (by simp [Request.written])
      obtain ⟨rs', r', hprep', hlike⟩ :=
        stamped_like hsorted.headD hclock (putPlan_like hl hkey value) hprep
      rw [← hrules] at hprep'
      exact ⟨[rs'], _, r', rfl, hprep', hlike⟩
  | del key =>
      cases hcall
      have hkey : ¬ Relevant shown (metaKey key) := hobs key (by simp [Request.written])
      obtain ⟨rs', r', hprep', hlike⟩ := stamped_like hsorted.headD hclock (delPlan_like hl hkey) hprep
      rw [← hrules] at hprep'
      exact ⟨[rs'], _, r', rfl, hprep', hlike⟩
  | batchPut batch =>
      cases hcall
      simp only [Engine.prepare, Option.map_eq_some_iff] at hprep
      obtain ⟨result, hloop, hprep⟩ := hprep
      have hinit : (BatchState.init e.clock).Like shown (BatchState.init e'.clock) :=
        ⟨hclock, fun _ => .nil, Iff.rfl⟩
      have hkeys : ∀ key ∈ x.lite3.keys batch, ¬ Relevant shown (metaKey key) := hobs
      obtain ⟨readings', result', hloop', hlike⟩ := batchLoop_like hl hkeys hsorted hinit hloop
      rw [← hrules] at hloop'
      cases hlike with
      | error hbehind =>
          cases hprep
          refine ⟨readings', _, _, rfl, ?_, .refused hbehind⟩
          simp only [Engine.prepare, hloop', Option.map_some]
      | @ok s s' hstates =>
          by_cases hviews : s.views = []
          · have hviews' := hstates.views.mpr hviews
            simp only [hviews, List.isEmpty_nil, if_true] at hprep
            cases hprep
            refine ⟨readings', _, _, rfl, ?_, .refused hstates.clock⟩
            simp only [Engine.prepare, hloop', Option.map_some, hviews', List.isEmpty_nil, if_true]
          · have hviews' : s'.views ≠ [] := fun h => hviews (hstates.views.mp h)
            dsimp only at hprep
            rw [if_neg (by simpa using hviews)] at hprep
            cases hprep
            refine ⟨readings', _, (s'.clock, .accepted ⟨s'.views.map (ViewOp.resolve u s'.heap), _⟩), rfl,
              ?_, .accepted hstates.clock hstates.tasks⟩
            simp only [Engine.prepare, hloop', Option.map_some]
            rw [if_neg (by simpa using hviews')]

end

end L3KV
