import Mathlib.Data.List.DropRight
import Mathlib.Logic.Function.Basic
import L3KV.Clock.Calls

/-!
# Thread-local clocks

A `ThreadLocalClock` reserves fifty ticks of the shared clock at a time and serves calls of `now`
from them while the physical clock stands still. A call is several steps: the shared clock is locked
for each access to it, not for the call, so the steps of different threads interleave.
-/

namespace L3KV

open Framework

structure ThreadLocalClock where
  cachedPhysTime : Int64
  cachedLogicalNext : UInt32
  /-- Exclusive. -/
  cachedLogicalEnd : UInt32

namespace ThreadLocalClock

def init : ThreadLocalClock := ⟨0, 0, 0⟩

/-- `BATCH_SIZE`. -/
def batchSize : Int32 := 50

/-- The beginning of `now`, up to the refill: what the cached batch serves, if anything. -/
def serve (l : ThreadLocalClock) (nodeId : UInt32) (physNow : Int64) :
    ThreadLocalClock × Option Timestamp :=
  if physNow = l.cachedPhysTime then
    if l.cachedLogicalNext < l.cachedLogicalEnd then
      ({ l with cachedLogicalNext := l.cachedLogicalNext + 1 },
        some ⟨l.cachedPhysTime, l.cachedLogicalNext, nodeId⟩)
    else (l, none)
  else if physNow > l.cachedPhysTime then (⟨physNow, 0, 0⟩, none)
  else (l, none)

/-- The batch after a reservation that succeeded, with the tick that is returned at once. -/
def refill (nodeId : UInt32) (physNow start : Int64) : ThreadLocalClock × Timestamp :=
  let next := start.toUInt64.toUInt32
  (⟨physNow, next + 1, next + batchSize.toUInt32⟩, ⟨physNow, next, nodeId⟩)

def leftover (l : ThreadLocalClock) (nodeId : UInt32) : Set Timestamp :=
  {t | t.wallTime = l.cachedPhysTime ∧ l.cachedLogicalNext ≤ t.logical ∧
    t.logical < l.cachedLogicalEnd ∧ t.nodeId = nodeId}

private theorem serve_spec {l l' : ThreadLocalClock} {nodeId : UInt32} {physNow : Int64}
    {served : Option Timestamp} (h : l.serve nodeId physNow = (l', served)) :
    (served = none ∧ l'.leftover nodeId ⊆ l.leftover nodeId) ∨
      ∃ t, served = some t ∧ t ∈ l.leftover nodeId ∧
        ∀ u ∈ l'.leftover nodeId, u ∈ l.leftover nodeId ∧ t.ticks < u.ticks := by
  unfold serve at h
  split_ifs at h with heq hnext hgt
  · cases h
    have hlt := UInt32.lt_iff_toNat_lt.mp hnext
    have hend := l.cachedLogicalEnd.toNat_lt
    have hsucc : (l.cachedLogicalNext + 1).toNat = l.cachedLogicalNext.toNat + 1 := by
      rw [UInt32.toNat_add, UInt32.toNat_one]
      omega
    refine Or.inr ⟨_, rfl, ⟨rfl, UInt32.le_iff_toNat_le.mpr le_rfl, hnext, rfl⟩, ?_⟩
    rintro u ⟨hwall, hlow, hhigh, hnode⟩
    rw [UInt32.le_iff_toNat_le, hsucc] at hlow
    refine ⟨⟨hwall, UInt32.le_iff_toNat_le.mpr (by omega), hhigh, hnode⟩, ?_⟩
    simp only [Timestamp.ticks, hwall]
    omega
  · cases h
    exact Or.inl ⟨rfl, subset_rfl⟩
  · cases h
    refine Or.inl ⟨rfl, ?_⟩
    rintro u ⟨-, -, hhigh, -⟩
    exact absurd (UInt32.lt_iff_toNat_lt.mp hhigh) (Nat.not_lt_zero _)
  · cases h
    exact Or.inl ⟨rfl, subset_rfl⟩

private theorem refill_spec {c c' : HybridLogicalClock} {physNow reading start : Int64}
    (hreserve : c.reserveLogical physNow batchSize reading = (start, c')) (hstart : 0 ≤ start)
    {l : ThreadLocalClock} {t : Timestamp} (h : refill c'.nodeId physNow start = (l, t)) :
    c.current.ticks < t.ticks ∧ t.ticks ≤ c'.current.ticks ∧
      ∀ u ∈ l.leftover c'.nodeId, t.ticks < u.ticks ∧ u.ticks ≤ c'.current.ticks := by
  have hsize : batchSize.toUInt32.toNat = 50 := rfl
  rcases HybridLogicalClock.reserveLogical_spec hreserve with ⟨rfl, -⟩ |
    ⟨base, hbase, hroom, hvalue, hwall, hlogical, -⟩
  · exact absurd hstart (by decide)
  · rw [hsize] at hroom hlogical
    have hnext : start.toUInt64.toUInt32.toNat = base + 1 := by
      rw [UInt64.toNat_toUInt32, Int64.toNat_toUInt64_of_le hstart, Int64.toNatClampNeg, hvalue]
      omega
    have hsucc : (start.toUInt64.toUInt32 + 1).toNat = base + 2 := by
      rw [UInt32.toNat_add, hnext, UInt32.toNat_one]
      omega
    have hend : (start.toUInt64.toUInt32 + batchSize.toUInt32).toNat = (base + 51) % 2 ^ 32 := by
      rw [UInt32.toNat_add, hnext, hsize]
    have hl := c.maxLogical.toNat_lt
    rw [Int64.lt_iff_toInt_lt, ← Int64.toInt_inj] at hbase
    cases h
    simp only [Timestamp.ticks, HybridLogicalClock.current, hwall, hlogical, hnext]
    refine ⟨by omega, by omega, ?_⟩
    rintro u ⟨huwall, hlow, hhigh, -⟩
    rw [UInt32.le_iff_toNat_le, hsucc] at hlow
    rw [UInt32.lt_iff_toNat_lt, hend] at hhigh
    have hphys : u.wallTime = physNow := huwall
    rw [hphys]
    omega

end ThreadLocalClock

/-- How far a thread is in `ThreadLocalClock::now`. -/
inductive NowPhase where
  | idle
  /-- It attempts a reservation for this reading. -/
  | reserving (physNow : Int64)
  /-- The reservation failed, and it reads the clock again. -/
  | failed (physNow : Int64)
  /-- It calls `now` on the shared clock. -/
  | stuck

/-- The shared clock, with the clocks of any number of threads. -/
structure Clocks where
  shared : HybridLogicalClock
  cached : Nat → ThreadLocalClock
  phase : Nat → NowPhase

inductive ClockEvent where
  /-- A thread calls `now` and reads the physical clock. -/
  | start (thread : Nat) (physNow : Int64)
  | reserve (thread : Nat) (reading : Int64)
  | retry (thread : Nat) (nextPhys : Int64)
  | fallback (thread : Nat) (readings : List Int64)
  /-- A thread calls `update`. -/
  | update (thread : Nat) (incoming : Timestamp) (reading : Int64)
  /-- Someone calls the shared clock itself. -/
  | shared (call : ClockCall)

def ClockEvent.thread? : ClockEvent → Option Nat
  | start thread _ => some thread
  | reserve thread _ => some thread
  | retry thread _ => some thread
  | fallback thread _ => some thread
  | update thread _ _ => some thread
  | shared _ => none

/-- A timestamp that is returned, by where it comes from, or one that is passed to `update`. -/
inductive ClockOutcome where
  | reused (t : Timestamp)
  | refilled (t : Timestamp)
  /-- From `now` of the shared clock. -/
  | direct (t : Timestamp)
  | updated (t : Timestamp)

namespace ClockOutcome

def stamp : ClockOutcome → Timestamp
  | reused t => t
  | refilled t => t
  | direct t => t
  | updated t => t

def returned : ClockOutcome → Option Timestamp
  | updated _ => none
  | o => some o.stamp

def isRefilled : ClockOutcome → Bool
  | refilled _ => true
  | _ => false

/-- This leaves the rest of the batch, from `t` on, fresh: the shared clock has returned nothing, and
only a smaller timestamp was passed to `update`. -/
def LeavesFresh (t : Timestamp) : ClockOutcome → Prop
  | direct _ => False
  | updated u => u < t
  | _ => True

end ClockOutcome

namespace Clocks

def init (nodeId : UInt32) : Clocks :=
  ⟨.init nodeId, fun _ => .init, fun _ => .idle⟩

def setCached (s : Clocks) (thread : Nat) (l : ThreadLocalClock) : Clocks :=
  { s with cached := Function.update s.cached thread l }

def setPhase (s : Clocks) (thread : Nat) (phase : NowPhase) : Clocks :=
  { s with phase := Function.update s.phase thread phase }

/-- One step, with what it returns or passes to `update`. -/
def act (s : Clocks) : ClockEvent → Option (Clocks × Option ClockOutcome)
  | .start thread physNow =>
      match s.phase thread with
      | .idle =>
          let (l, served) := (s.cached thread).serve s.shared.nodeId physNow
          match served with
          | some t => some (s.setCached thread l, some (.reused t))
          | none => some ((s.setCached thread l).setPhase thread (.reserving physNow), none)
      | _ => none
  | .reserve thread reading =>
      match s.phase thread with
      | .reserving physNow =>
          let (start, shared) :=
            s.shared.reserveLogical physNow ThreadLocalClock.batchSize reading
          if 0 ≤ start then
            let (l, t) := ThreadLocalClock.refill shared.nodeId physNow start
            some (({ s with shared := shared }.setCached thread l).setPhase thread .idle,
              some (.refilled t))
          else some ({ s with shared := shared }.setPhase thread (.failed physNow), none)
      | _ => none
  | .retry thread nextPhys =>
      match s.phase thread with
      | .failed physNow =>
          some (s.setPhase thread (if nextPhys = physNow then .stuck else .reserving nextPhys), none)
      | _ => none
  | .fallback thread readings =>
      match s.phase thread with
      | .stuck => (s.shared.now readings).map fun r =>
          ({ s with shared := r.2 }.setPhase thread .idle, some (.direct r.1))
      | _ => none
  | .update thread incoming reading =>
      match s.phase thread with
      | .idle =>
          some ({ s with shared := s.shared.update incoming reading }, some (.updated incoming))
      | _ => none
  | .shared (.now readings) =>
      (s.shared.now readings).map fun r => ({ s with shared := r.2 }, some (.direct r.1))
  | .shared call => (s.shared.step call).map fun shared => ({ s with shared := shared }, none)

def step (s : Clocks) (event : ClockEvent) : Option Clocks := (s.act event).map Prod.fst

def outcome (s : Clocks) (event : ClockEvent) : Option ClockOutcome := (s.act event).bind Prod.snd

/-- What a call of `now`, by any thread or on the shared clock, returns in this step. -/
def returned (s : Clocks) (event : ClockEvent) : Option Timestamp :=
  (s.outcome event).bind ClockOutcome.returned

/-- What this thread is returned or passes to `update` in this step. -/
def outcomeOf (thread : Nat) (s : Clocks) (event : ClockEvent) : Option ClockOutcome :=
  if event.thread? = some thread then s.outcome event else none

/-- The shared clock goes forward in this step. -/
def Advances (s : Clocks) : ClockEvent → Prop
  | .fallback _ readings => s.shared.WaitEndsPast readings
  | .update _ incoming reading => ¬ s.shared.Wraps incoming reading
  | .shared call => s.shared.Advances call
  | _ => True

def pos (s : Clocks) : Int := s.shared.current.ticks

/-- The timestamps a thread may still serve from its batch. -/
def held (s : Clocks) (thread : Nat) : Set Timestamp := (s.cached thread).leftover s.shared.nodeId

/-- What a step that goes forward can do. -/
inductive Effect (s : Clocks) (event : ClockEvent) (s' : Clocks) : Option ClockOutcome → Prop
  | quiet (hpos : s.pos ≤ s'.pos) (hheld : ∀ i, s'.held i ⊆ s.held i) : Effect s event s' none
  | reused {i : Nat} {t : Timestamp} (hevent : event.thread? = some i) (ht : t ∈ s.held i)
      (hpos : s'.pos = s.pos) (hself : ∀ u ∈ s'.held i, u ∈ s.held i ∧ t.ticks < u.ticks)
      (hothers : ∀ j, j ≠ i → s'.held j = s.held j) : Effect s event s' (some (.reused t))
  | refilled {i : Nat} {t : Timestamp} (hevent : event.thread? = some i) (hlow : s.pos < t.ticks)
      (hhigh : t.ticks ≤ s'.pos) (hself : ∀ u ∈ s'.held i, t.ticks < u.ticks ∧ u.ticks ≤ s'.pos)
      (hothers : ∀ j, j ≠ i → s'.held j = s.held j) : Effect s event s' (some (.refilled t))
  | direct {t : Timestamp} (hlow : s.pos < t.ticks) (hhigh : t.ticks ≤ s'.pos)
      (hheld : s'.held = s.held) : Effect s event s' (some (.direct t))
  | updated {t : Timestamp} (hpos : s.pos ≤ s'.pos) (hhigh : t.ticks ≤ s'.pos)
      (hheld : s'.held = s.held) : Effect s event s' (some (.updated t))

private theorem held_of_ne {s : Clocks} {shared : HybridLogicalClock}
    (hnode : shared.nodeId = s.shared.nodeId)
    {i j : Nat} (h : j ≠ i) (l : ThreadLocalClock) (phase : Nat → NowPhase) :
    held ⟨shared, Function.update s.cached i l, phase⟩ j = s.held j := by
  simp only [held, hnode, Function.update_of_ne h]

private theorem held_shared {s : Clocks} {shared : HybridLogicalClock}
    (hnode : shared.nodeId = s.shared.nodeId) (phase : Nat → NowPhase) :
    held ⟨shared, s.cached, phase⟩ = s.held := by
  funext i
  simp only [held, hnode]

private theorem reserveLogical_nodeId {c c' : HybridLogicalClock} {physNow reading start : Int64}
    {count : Int32} (h : c.reserveLogical physNow count reading = (start, c')) :
    c'.nodeId = c.nodeId := by
  rcases HybridLogicalClock.reserveLogical_spec h with ⟨-, rfl⟩ | ⟨_, -, -, -, -, -, hnode⟩
  · rfl
  · exact hnode

private theorem effect_start {s s' : Clocks} {thread : Nat} {physNow : Int64}
    {o : Option ClockOutcome}
    (h : s.act (.start thread physNow) = some (s', o)) : Effect s (.start thread physNow) s' o := by
  simp only [act] at h
  split at h
  · obtain ⟨l, served, hserve⟩ : ∃ l served,
      (s.cached thread).serve s.shared.nodeId physNow = (l, served) := ⟨_, _, rfl⟩
    rw [hserve] at h
    have hself (phase : Nat → NowPhase) :
        held ⟨s.shared, Function.update s.cached thread l, phase⟩ thread =
          l.leftover s.shared.nodeId := by
      simp only [held, Function.update_self]
    rcases ThreadLocalClock.serve_spec hserve with ⟨rfl, hsub⟩ | ⟨t, rfl, ht, hrest⟩
    · cases h
      refine .quiet le_rfl fun i => ?_
      by_cases hi : i = thread
      · subst hi
        exact (hself _).subset.trans hsub
      · exact (held_of_ne rfl hi l _).subset
    · cases h
      refine .reused rfl ht rfl ?_ fun j hj => held_of_ne rfl hj l _
      intro u hu
      exact hrest u ((hself _).subset hu)
  · cases h

private theorem effect_reserve {s s' : Clocks} {thread : Nat} {reading : Int64}
    {o : Option ClockOutcome}
    (h : s.act (.reserve thread reading) = some (s', o)) :
    Effect s (.reserve thread reading) s' o := by
  simp only [act] at h
  split at h
  · rename_i physNow hphase
    obtain ⟨start, shared, hreserve⟩ : ∃ start shared, s.shared.reserveLogical physNow
      ThreadLocalClock.batchSize reading = (start, shared) := ⟨_, _, rfl⟩
    rw [hreserve] at h
    have hnode := reserveLogical_nodeId hreserve
    have hpos := HybridLogicalClock.reserveLogical_ticks hreserve
    split at h
    · rename_i hstart
      obtain ⟨l, t, hrefill⟩ : ∃ l t,
        ThreadLocalClock.refill shared.nodeId physNow start = (l, t) := ⟨_, _, rfl⟩
      obtain ⟨hlow, hhigh, hrest⟩ := ThreadLocalClock.refill_spec hreserve hstart hrefill
      simp only [hrefill] at h
      cases h
      refine .refilled rfl hlow hhigh ?_ fun j hj => held_of_ne hnode hj l _
      intro u hu
      simp only [held, setPhase, setCached, Function.update_self] at hu
      exact hrest u hu
    · cases h
      exact .quiet hpos fun i => (congrFun (held_shared hnode _) i).subset
  · cases h

private theorem effect_of_act {s s' : Clocks} {event : ClockEvent} {o : Option ClockOutcome}
    (h : s.act event = some (s', o)) (hadvances : s.Advances event) : Effect s event s' o := by
  cases event with
  | start thread physNow => exact effect_start h
  | reserve thread reading => exact effect_reserve h
  | retry thread nextPhys =>
      simp only [act] at h
      split at h
      · cases h
        exact .quiet le_rfl fun i => subset_rfl
      · cases h
  | fallback thread readings =>
      simp only [act] at h
      split at h
      · obtain ⟨⟨t, c⟩, hnow, heq⟩ := Option.map_eq_some_iff.mp h
        cases heq
        obtain ⟨rfl, hnode, -⟩ := HybridLogicalClock.now_spec hnow
        exact .direct (HybridLogicalClock.now_ticks hnow hadvances) le_rfl (held_shared hnode _)
      · cases h
  | update thread incoming reading =>
      simp only [act] at h
      split at h
      · cases h
        obtain ⟨hclock, hincoming⟩ := HybridLogicalClock.update_ticks hadvances
        exact .updated hclock.le hincoming.le rfl
      · cases h
  | shared call =>
      cases call with
      | now readings =>
          obtain ⟨⟨t, c⟩, hnow, heq⟩ := Option.map_eq_some_iff.mp h
          cases heq
          obtain ⟨rfl, hnode, -⟩ := HybridLogicalClock.now_spec hnow
          exact .direct (HybridLogicalClock.now_ticks hnow hadvances) le_rfl (held_shared hnode _)
      | update incoming reading =>
          cases h
          exact .quiet (HybridLogicalClock.update_ticks hadvances).1.le fun i => subset_rfl
      | reserveLogical forPhysTime count reading =>
          cases h
          exact .quiet (HybridLogicalClock.reserveLogical_ticks rfl)
            fun i => (congrFun (held_shared (reserveLogical_nodeId rfl) _) i).subset

private theorem leased_of_run {nodeId : UInt32} {events : List ClockEvent} {s : Clocks}
    (hadvances : EveryStep step (init nodeId) events Advances)
    (hrun : events.foldlM step (init nodeId) = some s) :
    Leased Timestamp.ticks s.pos s.held (collect step returned (init nodeId) events) := by
  have hinit (i : Nat) (t : Timestamp) : t ∉ (init nodeId).held i := by
    rintro ⟨-, -, hhigh, -⟩
    exact absurd (UInt32.lt_iff_toNat_lt.mp hhigh) (Nat.not_lt_zero _)
  refine collect_invariant (fun given s => Leased Timestamp.ticks s.pos s.held given) ?_ ?_
    hadvances hrun
  · exact ⟨List.nodup_nil, by simp, fun i t ht => (hinit i t ht).elim,
      fun i t ht => (hinit i t ht).elim, fun i j t ht => (hinit i t ht).elim⟩
  · intro given s₁ event s₂ h hok hstep
    obtain ⟨⟨_, o⟩, hact, rfl⟩ := Option.map_eq_some_iff.mp hstep
    have hreturned : s₁.returned event = o.bind ClockOutcome.returned := by
      rw [returned, outcome, hact, Option.bind_some]
    rw [hreturned]
    cases effect_of_act hact hok with
    | quiet hpos hheld =>
        rw [Option.bind_none, Option.toList_none, List.append_nil]
        exact h.shrink hpos hheld
    | @reused i t _ ht hpos hself hothers =>
        rw [hpos]
        refine h.give ht fun j u hu => ?_
        by_cases hj : j = i
        · subst hj
          obtain ⟨hmem, hlt⟩ := hself u hu
          exact ⟨hmem, fun heq => (heq ▸ hlt).false⟩
        · rw [hothers j hj] at hu
          refine ⟨hu, fun heq => hj (h.apart j i t ?_ ht)⟩
          rw [heq] at hu
          exact hu
    | @refilled i t _ hlow hhigh hself hothers =>
        refine h.grant i hlow hhigh fun j u hu => ?_
        by_cases hj : j = i
        · subst hj
          obtain ⟨hlt, hle⟩ := hself u hu
          exact Or.inr ⟨rfl, hlow.trans hlt, hle, fun heq => (heq ▸ hlt).false⟩
        · rw [hothers j hj] at hu
          exact Or.inl hu
    | direct hlow hhigh hheld =>
        refine h.grant 0 hlow hhigh fun j u hu => ?_
        rw [hheld] at hu
        exact Or.inl hu
    | updated hpos _ hheld =>
        rw [Option.bind_some, ClockOutcome.returned, Option.toList_none, List.append_nil]
        exact h.shrink hpos fun i => (congrFun hheld i).subset

/-- Whatever the threads interleave and read, no timestamp is returned twice as long as the shared
clock goes forward. Without updates that only asks that a wait at the end of its counter ends past the
wall time it waited for. -/
theorem returned_nodup (nodeId : UInt32) (events : List ClockEvent) (s : Clocks)
    (hadvances : EveryStep step (init nodeId) events Advances)
    (hrun : events.foldlM step (init nodeId) = some s) :
    (collect step returned (init nodeId) events).Nodup :=
  (leased_of_run hadvances hrun).nodup

/-- Two threads refill at the same reading. The first one then uses its batch, and the second one
falls back to the shared clock. -/
private def twoThreads : List ClockEvent :=
  [.start 0 10, .start 1 10, .reserve 0 10, .reserve 1 9, .start 0 10, .start 1 8, .reserve 1 8,
    .retry 1 8, .fallback 1 [8]]

/-- A check of `Advances` for a counter that is not at its end. -/
private def hasRoom (s : Clocks) : ClockEvent → Bool
  | .update _ incoming reading => !s.shared.Wraps incoming reading
  | .shared (.update incoming reading) => !s.shared.Wraps incoming reading
  | _ => s.shared.maxLogical ≠ uint32Max

private theorem advances_of_hasRoom {nodeId : UInt32} {events : List ClockEvent}
    (h : allSteps step hasRoom (init nodeId) events = true) :
    EveryStep step (init nodeId) events Advances := by
  intro before event after hsplit s hrun
  have hroom := everyStep_of_allSteps h before event after hsplit s hrun
  have hwait (readings : List Int64)
      (hne : s.shared.maxLogical ≠ uint32Max) : s.shared.WaitEndsPast readings := by
    cases readings with
    | nil => trivial
    | cons r rest => exact fun _ hfull => absurd hfull hne
  cases event with
  | fallback thread readings => exact hwait readings (by simpa [hasRoom] using hroom)
  | update thread incoming reading =>
      have hroom : ¬ s.shared.Wraps incoming reading := by simpa [hasRoom] using hroom
      exact hroom
  | shared call =>
      cases call with
      | now readings => exact hwait readings (by simpa [hasRoom] using hroom)
      | update incoming reading =>
          have hroom : ¬ s.shared.Wraps incoming reading := by simpa [hasRoom] using hroom
          exact hroom
      | reserveLogical forPhysTime count reading => trivial
  | _ => trivial

theorem returned_nodup_two : ∃ s, twoThreads.foldlM step (init 7) = some s ∧
    (collect step returned (init 7) twoThreads).Nodup ∧
    collect step returned (init 7) twoThreads =
      [⟨10, 1, 7⟩, ⟨10, 51, 7⟩, ⟨10, 2, 7⟩, ⟨10, 101, 7⟩] := by
  have hadvances : EveryStep step (init 7) twoThreads Advances := advances_of_hasRoom (by decide)
  exact ⟨_, rfl, returned_nodup 7 twoThreads _ hadvances rfl, rfl⟩

/-- Each timestamp that is returned is above all that the thread was returned or passed to `update`
before. -/
def Rising (trace : List ClockOutcome) : Prop :=
  EachAfter (fun before o => ∀ t ∈ o.returned, ∀ o' ∈ before, o'.stamp < t) trace

/-- What happened since the batch was reserved. -/
def sinceRefill (trace : List ClockOutcome) : List ClockOutcome :=
  trace.rtakeWhile fun o => !o.isRefilled

/-- If the thread calls `now` at the reading of its batch, and the batch is not used up, then what it
got or passed on since it reserved the batch leaves the next tick of the batch fresh. -/
def FindsFresh (thread : Nat) (trace : List ClockOutcome) (s : Clocks) (event : ClockEvent) : Prop :=
  let l := s.cached thread
  event = .start thread l.cachedPhysTime → l.cachedLogicalNext < l.cachedLogicalEnd →
    ∀ o ∈ sinceRefill trace, o.LeavesFresh ⟨l.cachedPhysTime, l.cachedLogicalNext, s.shared.nodeId⟩

/-- Every call of the thread finds its batch fresh, in the state before the call. -/
def FreshBatches (nodeId : UInt32) (thread : Nat) (events : List ClockEvent) : Prop :=
  EachAfter (fun before event => ∀ s, before.foldlM step (init nodeId) = some s →
    FindsFresh thread (collect step (outcomeOf thread) (init nodeId) before) s event) events

/-- What is known of one thread. -/
structure BatchInv (thread : Nat) (trace : List ClockOutcome) (s : Clocks) : Prop where
  seen_le : ∀ o ∈ trace, o.stamp.ticks ≤ s.pos
  held_le : ∀ t ∈ s.held thread, t.ticks ≤ s.pos
  seen_lt : ∀ t ∈ s.held thread, ∀ o ∈ trace, o.stamp.ticks < t.ticks ∨
    o ∈ sinceRefill trace ∧ ∃ u, o = .direct u ∨ o = .updated u
  direct_gt : ∀ t ∈ s.held thread, ∀ u, .direct u ∈ sinceRefill trace → t.ticks < u.ticks

private theorem findsFresh_iff {thread : Nat} {trace : List ClockOutcome} {s s' : Clocks}
    {event : ClockEvent} {o : Option ClockOutcome} (hact : s.act event = some (s', o))
    (hmine : event.thread? = some thread) :
    FindsFresh thread trace s event ↔
      ∀ t, o = some (.reused t) → ∀ o' ∈ sinceRefill trace, o'.LeavesFresh t := by
  have hnone (hother : ∀ physNow, event ≠ .start thread physNow) (ho : ∀ t, o ≠ some (.reused t)) :
      FindsFresh thread trace s event ↔
        ∀ t, o = some (.reused t) → ∀ o' ∈ sinceRefill trace, o'.LeavesFresh t :=
    iff_of_true (fun hevent => absurd hevent (hother _)) fun t ht => absurd ht (ho t)
  cases event with
  | start i physNow =>
      obtain rfl : i = thread := Option.some.inj hmine
      simp only [act] at hact
      split at hact
      · simp only [ThreadLocalClock.serve] at hact
        by_cases hphys : physNow = (s.cached i).cachedPhysTime
        · subst hphys
          by_cases hleft : (s.cached i).cachedLogicalNext < (s.cached i).cachedLogicalEnd
          · simp only [if_true, if_pos hleft, Option.some.injEq, Prod.mk.injEq] at hact
            obtain ⟨-, rfl⟩ := hact
            simp [FindsFresh, hleft]
          · simp only [if_true, if_neg hleft, Option.some.injEq, Prod.mk.injEq] at hact
            obtain ⟨-, rfl⟩ := hact
            simp [FindsFresh, hleft]
        · have ho : o = none := by
            by_cases hlater : physNow > (s.cached i).cachedPhysTime
            · simp only [if_neg hphys, if_pos hlater] at hact
              cases hact
              rfl
            · simp only [if_neg hphys, if_neg hlater] at hact
              cases hact
              rfl
          simp [FindsFresh, hphys, ho]
      · cases hact
  | reserve i reading =>
      refine hnone (by simp) fun t ht => ?_
      subst ht
      simp only [act] at hact
      split at hact
      · split at hact <;> simp at hact
      · cases hact
  | retry i nextPhys =>
      refine hnone (by simp) fun t ht => ?_
      subst ht
      simp only [act] at hact
      split at hact <;> simp at hact
  | fallback i readings =>
      refine hnone (by simp) fun t ht => ?_
      subst ht
      simp only [act] at hact
      split at hact <;> simp at hact
  | update i incoming reading =>
      refine hnone (by simp) fun t ht => ?_
      subst ht
      simp only [act] at hact
      split at hact <;> simp at hact
  | shared call => cases hmine

private theorem sinceRefill_concat {trace : List ClockOutcome} {o : ClockOutcome}
    (h : o.isRefilled = false) : sinceRefill (trace ++ [o]) = sinceRefill trace ++ [o] :=
  List.rtakeWhile_concat_pos _ _ _ (by simp [h])

namespace BatchInv

variable {thread : Nat} {trace : List ClockOutcome} {s s' : Clocks}

theorem mono (h : BatchInv thread trace s) (hpos : s.pos ≤ s'.pos)
    (hheld : s'.held thread ⊆ s.held thread) : BatchInv thread trace s' where
  seen_le o ho := (h.seen_le o ho).trans hpos
  held_le t ht := (h.held_le t (hheld ht)).trans hpos
  seen_lt t ht := h.seen_lt t (hheld ht)
  direct_gt t ht := h.direct_gt t (hheld ht)

private theorem extend (h : BatchInv thread trace s) (hpos : s.pos ≤ s'.pos)
    (hheld : s'.held thread ⊆ s.held thread) {o : ClockOutcome} (ho : o.isRefilled = false)
    (hle : o.stamp.ticks ≤ s'.pos)
    (hlt : ∀ t ∈ s'.held thread, o.stamp.ticks < t.ticks ∨ ∃ u, o = .direct u ∨ o = .updated u)
    (hgt : ∀ t ∈ s'.held thread, ∀ u, o = .direct u → t.ticks < u.ticks) :
    BatchInv thread (trace ++ [o]) s' := by
  refine ⟨?_, fun t ht => (h.held_le t (hheld ht)).trans hpos, ?_, ?_⟩
  · intro o' ho'
    rcases List.mem_append.mp ho' with ho' | ho'
    · exact (h.seen_le o' ho').trans hpos
    · rw [List.mem_singleton.mp ho']
      exact hle
  · intro t ht o' ho'
    rw [sinceRefill_concat ho]
    rcases List.mem_append.mp ho' with ho' | ho'
    · rcases h.seen_lt t (hheld ht) o' ho' with hless | ⟨hsince, hkind⟩
      · exact Or.inl hless
      · exact Or.inr ⟨List.mem_append_left _ hsince, hkind⟩
    · rw [List.mem_singleton.mp ho']
      rcases hlt t ht with hless | hkind
      · exact Or.inl hless
      · exact Or.inr ⟨by simp, hkind⟩
  · intro t ht u hu
    rw [sinceRefill_concat ho] at hu
    rcases List.mem_append.mp hu with hu | hu
    · exact h.direct_gt t (hheld ht) u hu
    · exact hgt t ht u (List.mem_singleton.mp hu).symm

private theorem refill (h : BatchInv thread trace s) {t : Timestamp} (hlow : s.pos < t.ticks)
    (hhigh : t.ticks ≤ s'.pos) (hself : ∀ u ∈ s'.held thread, t.ticks < u.ticks ∧ u.ticks ≤ s'.pos) :
    BatchInv thread (trace ++ [.refilled t]) s' := by
  have hsince : sinceRefill (trace ++ [.refilled t]) = [] :=
    List.rtakeWhile_concat_neg _ _ _ (by simp [ClockOutcome.isRefilled])
  refine ⟨?_, fun u hu => (hself u hu).2, ?_, ?_⟩
  · intro o ho
    rcases List.mem_append.mp ho with ho | ho
    · exact (h.seen_le o ho).trans (hlow.le.trans hhigh)
    · rw [List.mem_singleton.mp ho]
      exact hhigh
  · intro u hu o ho
    left
    rcases List.mem_append.mp ho with ho | ho
    · exact (h.seen_le o ho).trans_lt (hlow.trans (hself u hu).1)
    · rw [List.mem_singleton.mp ho]
      exact (hself u hu).1
  · intro u _ w hw
    rw [hsince] at hw
    cases hw

theorem init (nodeId : UInt32) (thread : Nat) : BatchInv thread [] (init nodeId) := by
  refine ⟨by simp, ?_, by simp, by simp [sinceRefill]⟩
  rintro t ⟨-, -, hhigh, -⟩
  exact absurd (UInt32.lt_iff_toNat_lt.mp hhigh) (Nat.not_lt_zero _)

theorem own (h : BatchInv thread trace s) {event : ClockEvent} {o : Option ClockOutcome}
    (heffect : Effect s event s' o) (hmine : event.thread? = some thread) :
    BatchInv thread (trace ++ o.toList) s' := by
  cases heffect with
  | quiet hpos hheld =>
      rw [Option.toList_none, List.append_nil]
      exact h.mono hpos (hheld thread)
  | @reused i t hevent ht hpos hself _ =>
      obtain rfl : i = thread := Option.some.inj (hevent.symm.trans hmine)
      apply h.extend hpos.ge (fun u hu => (hself u hu).1) (o := .reused t) rfl
      · exact (h.held_le t ht).trans hpos.ge
      · exact fun u hu => Or.inl (hself u hu).2
      · intro u _ w hw
        cases hw
  | @refilled i t hevent hlow hhigh hself _ =>
      obtain rfl : i = thread := Option.some.inj (hevent.symm.trans hmine)
      exact h.refill hlow hhigh hself
  | @direct t hlow hhigh hheld =>
      apply h.extend (hlow.le.trans hhigh) (congrFun hheld thread).subset (o := .direct t) rfl hhigh
      · exact fun u _ => Or.inr ⟨t, Or.inl rfl⟩
      · intro u hu w hw
        cases hw
        rw [hheld] at hu
        exact (h.held_le u hu).trans_lt hlow
  | @updated t hpos hhigh hheld =>
      apply h.extend hpos (congrFun hheld thread).subset (o := .updated t) rfl hhigh
      · exact fun u _ => Or.inr ⟨t, Or.inr rfl⟩
      · intro u _ w hw
        cases hw

theorem other (h : BatchInv thread trace s) {event : ClockEvent} {o : Option ClockOutcome}
    (heffect : Effect s event s' o) (hother : event.thread? ≠ some thread) :
    BatchInv thread trace s' := by
  have hne {i : Nat} (hevent : event.thread? = some i) : thread ≠ i := by
    rintro rfl
    exact hother hevent
  cases heffect with
  | quiet hpos hheld => exact h.mono hpos (hheld thread)
  | reused hevent _ hpos _ hothers => exact h.mono hpos.ge (hothers thread (hne hevent)).subset
  | refilled hevent hlow hhigh _ hothers =>
      exact h.mono (hlow.le.trans hhigh) (hothers thread (hne hevent)).subset
  | direct hlow hhigh hheld => exact h.mono (hlow.le.trans hhigh) (congrFun hheld thread).subset
  | updated hpos _ hheld => exact h.mono hpos (congrFun hheld thread).subset

private theorem newer_iff (h : BatchInv thread trace s) {event : ClockEvent} {o : ClockOutcome}
    (heffect : Effect s event s' (some o)) (hmine : event.thread? = some thread) :
    (∀ t ∈ o.returned, ∀ o' ∈ trace, o'.stamp < t) ↔
      ∀ t, o = .reused t → ∀ o' ∈ sinceRefill trace, o'.LeavesFresh t := by
  have hsince {o' : ClockOutcome} (ho' : o' ∈ sinceRefill trace) : o' ∈ trace :=
    (List.rtakeWhile_suffix _ _).subset ho'
  have hnewer {t : Timestamp} (hlow : s.pos < t.ticks) : ∀ o' ∈ trace, o'.stamp < t :=
    fun o' ho' => Timestamp.lt_of_ticks_lt ((h.seen_le o' ho').trans_lt hlow)
  cases heffect with
  | @reused i t hevent ht _ _ _ =>
      obtain rfl : i = thread := Option.some.inj (hevent.symm.trans hmine)
      constructor
      · intro hrising u hu o' ho'
        cases hu
        have hlt := hrising t rfl o' (hsince ho')
        cases o' with
        | direct u => exact (Timestamp.lt_of_ticks_lt (h.direct_gt t ht u ho')).asymm hlt
        | updated u => exact hlt
        | _ => trivial
      · intro hfresh u hu o' ho'
        obtain rfl : t = u := Option.some.inj hu
        rcases h.seen_lt t ht o' ho' with hless | ⟨hmem, u, rfl | rfl⟩
        · exact Timestamp.lt_of_ticks_lt hless
        · exact (hfresh t rfl _ hmem).elim
        · exact hfresh t rfl _ hmem
  | @refilled _ t _ hlow _ _ _ =>
      refine iff_of_true (fun u hu => ?_) (by simp)
      obtain rfl : t = u := Option.some.inj hu
      exact hnewer hlow
  | @direct t hlow _ _ =>
      refine iff_of_true (fun u hu => ?_) (by simp)
      obtain rfl : t = u := Option.some.inj hu
      exact hnewer hlow
  | updated => exact iff_of_true (by simp [ClockOutcome.returned]) (by simp)

end BatchInv

/-- As long as the shared clock goes forward, a thread sees rising timestamps if and only if every
call of `now` finds its batch fresh: since the batch was reserved no call was answered by the shared
clock, and only timestamps below the next tick of the batch were passed to `update`. -/
theorem rising_iff (nodeId : UInt32) (events : List ClockEvent) (s : Clocks)
    (hadvances : EveryStep step (init nodeId) events Advances)
    (hrun : events.foldlM step (init nodeId) = some s) (thread : Nat) :
    Rising (collect step (outcomeOf thread) (init nodeId) events) ↔
      FreshBatches nodeId thread events := by
  let trace (events : List ClockEvent) := collect step (outcomeOf thread) (init nodeId) events
  refine (run_invariant (fun events s => events.foldlM step (init nodeId) = some s ∧
    BatchInv thread (trace events) s ∧ (Rising (trace events) ↔ FreshBatches nodeId thread events))
    ⟨rfl, BatchInv.init nodeId thread, iff_of_true eachAfter_nil eachAfter_nil⟩ ?_
    hadvances hrun).2.2
  rintro events s₁ event s₂ ⟨hrun₁, h, hiff⟩ hok hstep
  obtain ⟨⟨_, o⟩, hact, rfl⟩ := Option.map_eq_some_iff.mp hstep
  have heffect := effect_of_act hact hok
  have htrace : trace (events ++ [event]) = trace events ++ (s₁.outcomeOf thread event).toList :=
    collect_concat _ hrun₁ event
  have hfresh : FreshBatches nodeId thread (events ++ [event]) ↔
      FreshBatches nodeId thread events ∧ FindsFresh thread (trace events) s₁ event := by
    refine eachAfter_concat.trans (and_congr_right' ⟨fun hall => hall s₁ hrun₁, fun hfinds s hs => ?_⟩)
    cases hrun₁.symm.trans hs
    exact hfinds
  refine ⟨foldlM_concat.mpr ⟨s₁, hrun₁, hstep⟩, ?_⟩
  rw [htrace, hfresh]
  by_cases hmine : event.thread? = some thread
  · have houtcome : s₁.outcomeOf thread event = o := by
      rw [outcomeOf, if_pos hmine, outcome, hact, Option.bind_some]
    rw [houtcome, findsFresh_iff hact hmine]
    refine ⟨h.own heffect hmine, ?_⟩
    cases o with
    | none => simpa using hiff
    | some o =>
        rw [Option.toList_some, Rising, eachAfter_concat]
        simp only [Option.some.injEq]
        exact and_congr hiff (h.newer_iff heffect hmine)
  · have hvacuous : FindsFresh thread (trace events) s₁ event := by
      intro hevent
      exact absurd (by rw [hevent]; rfl) hmine
    rw [outcomeOf, if_neg hmine, Option.toList_none, List.append_nil, and_iff_left hvacuous]
    exact ⟨h.other heffect hmine, hiff⟩

/-- A timestamp from the future is passed to `update`, and then the batch serves an older one. -/
theorem not_rising : ∃ s, [ClockEvent.start 0 10, .reserve 0 10, .update 0 ⟨20, 5, 9⟩ 10,
      .start 0 10].foldlM step (init 7) = some s ∧
    collect step (outcomeOf 0) (init 7) [.start 0 10, .reserve 0 10, .update 0 ⟨20, 5, 9⟩ 10,
      .start 0 10] = [.refilled ⟨10, 1, 7⟩, .updated ⟨20, 5, 9⟩, .reused ⟨10, 2, 7⟩] ∧
    ¬ Rising [.refilled ⟨10, 1, 7⟩, .updated ⟨20, 5, 9⟩, .reused ⟨10, 2, 7⟩] := by
  refine ⟨_, rfl, rfl, fun hrising => ?_⟩
  have hlt := hrising [.refilled ⟨10, 1, 7⟩, .updated ⟨20, 5, 9⟩] (.reused ⟨10, 2, 7⟩) [] rfl
    ⟨10, 2, 7⟩ rfl (.updated ⟨20, 5, 9⟩) (by simp)
  exact absurd hlt (by decide)

/-- A thread refills its batch, passes on a timestamp that is behind its batch, and goes on with the
batch; in the end the other thread falls back to the shared clock. -/
private def freshRun : List ClockEvent :=
  [.start 0 10, .reserve 0 10, .update 0 ⟨10, 1, 9⟩ 10, .start 0 10, .start 1 8, .reserve 1 8,
    .retry 1 8, .fallback 1 [8], .start 0 10]

theorem rising_iff_refilled : ∃ s, freshRun.foldlM step (init 7) = some s ∧
    collect step (outcomeOf 0) (init 7) freshRun =
      [.refilled ⟨10, 1, 7⟩, .updated ⟨10, 1, 9⟩, .reused ⟨10, 2, 7⟩, .reused ⟨10, 3, 7⟩] ∧
    Rising (collect step (outcomeOf 0) (init 7) freshRun) ∧ FreshBatches 7 0 freshRun := by
  have hiff := rising_iff 7 freshRun _ (advances_of_hasRoom (by decide)) rfl 0
  have hrising : Rising (collect step (outcomeOf 0) (init 7) freshRun) := by
    have htrace : collect step (outcomeOf 0) (init 7) freshRun =
        [] ++ [.refilled ⟨10, 1, 7⟩] ++ [.updated ⟨10, 1, 9⟩] ++ [.reused ⟨10, 2, 7⟩] ++
          [.reused ⟨10, 3, 7⟩] := rfl
    rw [htrace, Rising]
    simp only [eachAfter_concat, eachAfter_nil, ClockOutcome.returned, ClockOutcome.stamp]
    decide
  exact ⟨_, rfl, rfl, hrising, hiff.mp hrising⟩

end Clocks

end L3KV
