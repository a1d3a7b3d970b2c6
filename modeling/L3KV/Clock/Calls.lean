import Mathlib.Data.Set.Insert
import L3KV.Clock.Hybrid
import L3KV.Framework.Issuing

/-!
# Runs of calls on one clock

The calls of `now`, `update` and `reserve_logical` on a clock exclude one another, so a run is a
list of them. What is issued rises with the pair the clock stands at, unless the wait at the end of
the counter reads the physical clock backwards, or `update` increments a counter at its end.
-/

namespace L3KV

open Framework

inductive ClockCall where
  | now (readings : List Int64)
  | update (incoming : Timestamp) (reading : Int64)
  | reserveLogical (forPhysTime : Int64) (count : Int32) (reading : Int64)

/-- A call of `now`, or of `reserve_logical` with a positive count. -/
def ClockCall.Issues : ClockCall → Prop
  | now _ => True
  | update _ _ => False
  | reserveLogical _ count _ => 1 ≤ count

namespace HybridLogicalClock

def step (c : HybridLogicalClock) : ClockCall → Option HybridLogicalClock
  | .now readings => (c.now readings).map Prod.snd
  | .update incoming reading => some (c.update incoming reading)
  | .reserveLogical forPhysTime count reading =>
      some (c.reserveLogical forPhysTime count reading).2

/-- The timestamps `start`, …, `start + count - 1` at a wall time. -/
def block (c : HybridLogicalClock) (wall start : Int64) (count : Int32) : Set Timestamp :=
  {t | t.wallTime = wall ∧ start.toInt ≤ t.logical.toNat ∧
    t.logical.toNat < start.toInt + count.toInt ∧ t.nodeId = c.nodeId}

/-- What a call hands out: the timestamp that `now` returns, or the block that is reserved. -/
def issued (c : HybridLogicalClock) : ClockCall → Option (Set Timestamp)
  | .now readings => (c.now readings).map fun r => {r.1}
  | .update _ _ => none
  | .reserveLogical forPhysTime count reading =>
      let start := (c.reserveLogical forPhysTime count reading).1
      if start < 0 then none else some (c.block forPhysTime start count)

/-- The wait of `now` ends past the wall time, and the counter of `update` is not at its end. -/
def Advances (c : HybridLogicalClock) : ClockCall → Prop
  | .now readings => c.WaitEndsPast readings
  | .update incoming reading => ¬ c.Wraps incoming reading
  | .reserveLogical _ _ _ => True

private theorem toNat_count {count : Int32} (h : 0 ≤ count.toInt) :
    (count.toUInt32.toNat : Int) = count.toInt := by
  have hle : 0 ≤ count := Int32.le_iff_toInt_le.mpr h
  rw [Int32.toNat_toUInt32_of_le hle]
  exact Int.toNat_of_nonneg h

private theorem block_between {c c' : HybridLogicalClock} {forPhysTime reading start : Int64}
    {count : Int32} (h : c.reserveLogical forPhysTime count reading = (start, c'))
    (hstart : ¬ start < 0) {t : Timestamp} (ht : t ∈ c.block forPhysTime start count) :
    c.current.ticks < t.ticks ∧ t.ticks ≤ c'.current.ticks := by
  obtain ⟨hwall, hlow, hhigh, -⟩ := ht
  rcases reserveLogical_spec h with ⟨rfl, -⟩ | ⟨base, hbase, hroom, hvalue, hwall', hlogical, -⟩
  · exact absurd (by decide) hstart
  · have hcount : (count.toUInt32.toNat : Int) = count.toInt := toNat_count (by omega)
    have hl := c.maxLogical.toNat_lt
    rw [Int64.lt_iff_toInt_lt, ← Int64.toInt_inj] at hbase
    simp only [Timestamp.ticks, current, hwall, hwall', hlogical]
    omega

theorem reserveLogical_ticks {c c' : HybridLogicalClock} {forPhysTime reading start : Int64}
    {count : Int32} (h : c.reserveLogical forPhysTime count reading = (start, c')) :
    c.current.ticks ≤ c'.current.ticks := by
  rcases reserveLogical_spec h with ⟨-, rfl⟩ | ⟨base, hbase, -, -, hwall, hlogical, -⟩
  · exact le_rfl
  · have hl := c.maxLogical.toNat_lt
    rw [Int64.lt_iff_toInt_lt, ← Int64.toInt_inj] at hbase
    simp only [Timestamp.ticks, current, hwall, hlogical]
    omega

private theorem issuesAbove : IssuesAbove step (fun c => c.current.ticks) Timestamp.ticks issued Advances := by
  intro c call c' hadvances hstep
  cases call with
  | now readings =>
      obtain ⟨⟨t, _⟩, hnow, rfl⟩ := Option.map_eq_some_iff.mp hstep
      obtain rfl := (now_spec hnow).1
      have hlt := now_ticks hnow hadvances
      refine ⟨hlt.le, ?_⟩
      intro a ha t ht
      simp only [issued, hnow, Option.map_some, Option.mem_some_iff] at ha
      subst ha
      rw [Set.mem_singleton_iff.mp ht]
      exact ⟨hlt, le_rfl⟩
  | update incoming reading =>
      cases hstep
      refine ⟨(update_ticks hadvances).1.le, ?_⟩
      intro a ha
      cases ha
  | reserveLogical forPhysTime count reading =>
      cases hstep
      refine ⟨reserveLogical_ticks rfl, ?_⟩
      intro a ha t ht
      simp only [issued, Option.mem_def, Option.ite_none_left_eq_some, Option.some.injEq] at ha
      obtain ⟨hstart, rfl⟩ := ha
      exact block_between rfl hstart ht

private theorem waitEndsPast_of_lt {c : HybridLogicalClock} {readings : List Int64}
    (h : c.maxLogical = uint32Max → ∀ t c', c.now readings = some (t, c') → c.current < t) :
    c.WaitEndsPast readings := by
  cases readings with
  | nil => trivial
  | cons physNow rest =>
      intro hle hfull newPhys hwait
      have hnot : ¬ physNow > c.maxWallTime := by
        rw [gt_iff_lt, Int64.lt_iff_toInt_lt]
        rw [Int64.le_iff_toInt_le] at hle
        omega
      have hlt : c.current < ⟨newPhys, 0, c.nodeId⟩ := by
        apply h hfull _ { c with maxWallTime := newPhys, maxLogical := 0 }
        rw [List.tail_cons] at hwait
        simp [now, hnot, hfull, hwait]
      have hnode : c.current.nodeId = (⟨newPhys, 0, c.nodeId⟩ : Timestamp).nodeId := rfl
      have hticks := (Timestamp.lt_iff_ticks_lt hnode).mp hlt
      simp only [Timestamp.ticks, current, UInt32.toNat_zero] at hticks
      rw [Int64.lt_iff_toInt_lt]
      omega

private theorem now_of_room {c : HybridLogicalClock} {wall : Int64} (hwall : c.maxWallTime = wall)
    (hzero : c.maxLogical = 0) :
    c.now [wall] = some (⟨wall, 1, c.nodeId⟩, ⟨wall, 1, c.nodeId⟩) := by
  have hnot : ¬ wall > wall := by
    rw [gt_iff_lt, Int64.lt_iff_toInt_lt]
    omega
  have hroom : (0 : UInt32) ≠ uint32Max := by decide
  simp [now, hwall, hzero, hnot, hroom]

private theorem current_issued {nodeId : UInt32} {calls : List ClockCall} {c : HybridLogicalClock}
    (hcalls : ∀ call ∈ calls, call.Issues)
    (hrun : calls.foldlM step (init nodeId) = some c) (hne : c.maxLogical ≠ 0) :
    ∃ a ∈ collect step issued (init nodeId) calls, c.current ∈ a := by
  induction calls using List.reverseRec generalizing c with
  | nil =>
      cases hrun
      exact absurd rfl hne
  | append_singleton calls call ih =>
      obtain ⟨c₁, hfront, hlast⟩ := foldlM_concat.mp hrun
      have hold := ih (fun call hcall => hcalls call (List.mem_append_left _ hcall)) hfront
      have hcall := hcalls call (by simp)
      simp only [collect_concat _ hfront, List.mem_append, Option.mem_toList]
      cases call with
      | now readings =>
          obtain ⟨⟨t, c⟩, hnow, rfl⟩ := Option.map_eq_some_iff.mp hlast
          obtain rfl := (now_spec hnow).1
          exact ⟨{c.current}, Or.inr (by simp [issued, hnow]), rfl⟩
      | update incoming reading => exact hcall.elim
      | reserveLogical forPhysTime count reading =>
          cases hlast
          generalize hres : c₁.reserveLogical forPhysTime count reading = res at *
          obtain ⟨start, c⟩ := res
          have hcount : 1 ≤ count.toInt := Int32.le_iff_toInt_le.mp hcall
          have hnat := toNat_count (by omega : 0 ≤ count.toInt)
          rcases reserveLogical_spec hres with ⟨-, rfl⟩ |
            ⟨base, -, hroom, hvalue, hwall, hlogical, hnode⟩
          · obtain ⟨a, ha, hc⟩ := hold hne
            exact ⟨a, Or.inl ha, hc⟩
          · have hstart : ¬ start < 0 := by
              have hzero : (0 : Int64).toInt = 0 := rfl
              rw [Int64.lt_iff_toInt_lt, hvalue, hzero]
              omega
            refine ⟨c₁.block forPhysTime start count, Or.inr ?_, hwall, ?_, ?_, hnode⟩
            · simp [issued, hres, hstart]
            · change start.toInt ≤ c.maxLogical.toNat
              omega
            · change (c.maxLogical.toNat : Int) < _
              omega

/-- Whatever the physical clock says, a run of `now` and `reserve_logical` issues in strictly rising
order if and only if every wait ends past the wall time that it waited for. -/
theorem issued_rising_iff (nodeId : UInt32) (calls : List ClockCall) (c : HybridLogicalClock)
    (hcalls : ∀ call ∈ calls, call.Issues)
    (hrun : calls.foldlM step (init nodeId) = some c) :
    (collect step issued (init nodeId) calls).Pairwise (fun a b => ∀ t ∈ a, ∀ t' ∈ b, t < t') ↔
      EveryStep step (init nodeId) calls Advances := by
  constructor
  · intro hrising
    induction calls using List.reverseRec generalizing c with
    | nil => exact everyStep_nil
    | append_singleton calls call ih =>
        obtain ⟨c₁, hfront, hlast⟩ := foldlM_concat.mp hrun
        rw [collect_concat _ hfront, List.pairwise_append] at hrising
        have hcalls₁ : ∀ call ∈ calls, call.Issues :=
          fun call hcall => hcalls call (List.mem_append_left _ hcall)
        refine (ih c₁ hcalls₁ hfront hrising.1).concat fun c' hc' => ?_
        obtain rfl : c₁ = c' := Option.some.inj (hfront.symm.trans hc')
        cases call with
        | now readings =>
            apply waitEndsPast_of_lt
            intro hfull t c' hnow
            have hne : c₁.maxLogical ≠ 0 := by
              rw [hfull]
              decide
            obtain ⟨a, ha, hcurrent⟩ := current_issued hcalls₁ hfront hne
            exact hrising.2.2 a ha {t} (by simp [issued, hnow]) c₁.current hcurrent t rfl
        | update incoming reading => exact (hcalls (.update incoming reading) (by simp)).elim
        | reserveLogical forPhysTime count reading => trivial
  · intro hadvances
    refine (issuesAbove.pairwise hadvances hrun).imp fun h t ht t' ht' => ?_
    exact Timestamp.lt_of_ticks_lt (h t ht t' ht')

/-- Three reservations use up the counter at wall time ten. The next call waits for the reading
eleven and then reads three. -/
private def exhausting : List ClockCall :=
  [.reserveLogical 10 2147483647 0, .reserveLogical 10 2147483647 0, .reserveLogical 10 1 0,
    .now [5, 11, 3]]

theorem issued_not_rising : ∃ c, (∀ call ∈ exhausting, call.Issues) ∧
    exhausting.foldlM step (init 1) = some c ∧
    ¬ (collect step issued (init 1) exhausting).Pairwise fun a b => ∀ t ∈ a, ∀ t' ∈ b, t < t' := by
  refine ⟨⟨3, 0, 1⟩, ?_, by decide, ?_⟩
  · simp only [exhausting, List.forall_mem_cons, ClockCall.Issues]
    exact ⟨by decide, by decide, by decide, trivial, by simp⟩
  · intro hrising
    have hissued : collect step issued (init 1) exhausting =
        [block (init 1) 10 1 2147483647, block (init 1) 10 2147483648 2147483647,
          block (init 1) 10 4294967295 1, {⟨3, 0, 1⟩}] := rfl
    rw [hissued] at hrising
    have hlast := (List.pairwise_cons.mp hrising.tail.tail).1 {⟨3, 0, 1⟩} (by simp)
    have hlt := hlast ⟨10, uint32Max, 1⟩ ⟨rfl, by decide, by decide, rfl⟩ ⟨3, 0, 1⟩ rfl
    exact absurd hlt (by decide)

/-- The same reservations; the next call waits for the reading eleven and then reads twelve. -/
private def outlasting : List ClockCall :=
  [.reserveLogical 10 2147483647 0, .reserveLogical 10 2147483647 0, .reserveLogical 10 1 0,
    .now [5, 11, 12]]

theorem issued_rising_iff_two : ∃ c, outlasting.foldlM step (init 1) = some c ∧
    EveryStep step (init 1) outlasting Advances ∧
    collect step issued (init 1) outlasting =
      [block (init 1) 10 1 2147483647, block (init 1) 10 2147483648 2147483647,
        block (init 1) 10 4294967295 1, {⟨12, 0, 1⟩}] ∧
    (collect step issued (init 1) outlasting).Pairwise fun a b => ∀ t ∈ a, ∀ t' ∈ b, t < t' := by
  have hcalls : ∀ call ∈ outlasting, call.Issues := by
    simp only [outlasting, List.forall_mem_cons, ClockCall.Issues]
    exact ⟨by decide, by decide, by decide, trivial, by simp⟩
  have hadvances : EveryStep step (init 1) outlasting Advances := by
    refine everyStep_cons trivial fun _ _ => everyStep_cons trivial fun _ _ =>
      everyStep_cons trivial fun c _ => everyStep_cons (fun _ => ?_) fun _ _ => everyStep_nil
    exact waitAdvances_of_sorted c (by decide)
  exact ⟨⟨12, 0, 1⟩, by decide, hadvances, rfl,
    (issued_rising_iff 1 outlasting ⟨12, 0, 1⟩ hcalls (by decide)).mpr hadvances⟩

def issuedIn (nodeId : UInt32) (calls : List ClockCall) : Set Timestamp :=
  {t | ∃ a ∈ collect step issued (init nodeId) calls, t ∈ a}

/-- After a run that went forward, an update is followed by later pairs only if and only if the
counter that it increments is not at its end, or nothing that was issued or received stands at the
new wall time with a counter above zero. -/
theorem later_iff (nodeId : UInt32) (calls : List ClockCall) (c : HybridLogicalClock)
    (hadvances : EveryStep step (init nodeId) calls Advances)
    (hrun : calls.foldlM step (init nodeId) = some c) (incoming : Timestamp) (reading : Int64) :
    (∀ (later : List ClockCall) (c₁ c₂ : HybridLogicalClock) (readings : List Int64) (t : Timestamp),
        EveryStep step (c.update incoming reading) (later ++ [.now readings]) Advances →
        later.foldlM step (c.update incoming reading) = some c₁ →
        c₁.now readings = some (t, c₂) →
        incoming.Before t ∧ ∀ s ∈ issuedIn nodeId calls, s.Before t) ↔
      (¬ c.Wraps incoming reading ∨ ∀ s ∈ insert incoming (issuedIn nodeId calls),
        s.Before ⟨max (max c.maxWallTime incoming.wallTime) reading, 1, s.nodeId⟩) := by
  have hwall : (c.update incoming reading).maxWallTime =
      max (max c.maxWallTime incoming.wallTime) reading := rfl
  generalize max (max c.maxWallTime incoming.wallTime) reading = wall at hwall ⊢
  constructor
  · intro hlater
    by_cases hwraps : c.Wraps incoming reading
    · right
      have hzero : (c.update incoming reading).maxLogical = 0 := by rw [update_wraps hwraps]
      have hadvance : EveryStep step (c.update incoming reading) ([] ++ [.now [wall]]) Advances := by
        refine everyStep_cons ?_ fun _ _ => everyStep_nil
        intro _ hfull
        rw [hzero] at hfull
        exact absurd hfull (by decide)
      obtain ⟨hincoming, hissued⟩ := hlater [] _ _ [wall] ⟨wall, 1, c.nodeId⟩ hadvance rfl
        (now_of_room hwall hzero)
      intro s hs
      rcases Set.mem_insert_iff.mp hs with rfl | hs
      · exact hincoming
      · exact hissued s hs
    · exact Or.inl hwraps
  · intro h later c₁ c₂ readings t hlater hrunLater hnow
    have hpos : (c.update incoming reading).current.ticks ≤ c₁.current.ticks :=
      issuesAbove.pos_le hlater.front hrunLater
    have hlt : c₁.current.ticks < t.ticks := now_ticks hnow (hlater.last hrunLater)
    have hbelow : ∀ s ∈ insert incoming (issuedIn nodeId calls),
        s.ticks ≤ (c.update incoming reading).current.ticks := by
      rcases h with hroom | hbefore
      · obtain ⟨hclock, hincoming⟩ := update_ticks hroom
        intro s hs
        rcases Set.mem_insert_iff.mp hs with rfl | ⟨a, ha, hs⟩
        · exact hincoming.le
        · exact (issuesAbove.rank_le hadvances hrun ha hs).trans hclock.le
      · intro s hs
        have hs := (Timestamp.before_iff _ _).mp (hbefore s hs)
        simp only [Timestamp.ticks, current, hwall, UInt32.toNat_one] at hs ⊢
        omega
    simp only [Timestamp.before_iff]
    exact ⟨(hbelow incoming (Set.mem_insert _ _)).trans_lt (hpos.trans_lt hlt),
      fun s hs => (hbelow s (Set.mem_insert_of_mem _ hs)).trans_lt (hpos.trans_lt hlt)⟩

/-- A message with the last counter of its wall time sets the counter of a fresh clock to zero. -/
theorem not_later : ∃ c,
    ((init 1).update ⟨10, uint32Max, 2⟩ 5).now [5] = some (⟨10, 1, 1⟩, c) ∧
    ¬ (⟨10, uint32Max, 2⟩ : Timestamp).Before ⟨10, 1, 1⟩ :=
  ⟨⟨10, 1, 1⟩, by decide, by decide⟩

/-- A message from the future, received after a reading of seven. -/
theorem later_iff_future : ∃ c, [ClockCall.now [7]].foldlM step (init 1) = some c ∧
    ∀ (readings : List Int64) (t : Timestamp) (c₂ : HybridLogicalClock),
      (c.update ⟨20, 3, 2⟩ 8).WaitEndsPast readings →
      (c.update ⟨20, 3, 2⟩ 8).now readings = some (t, c₂) →
      (⟨20, 3, 2⟩ : Timestamp).Before t ∧ (⟨7, 0, 1⟩ : Timestamp).Before t := by
  have hadvances : EveryStep step (init 1) [.now [7]] Advances := by
    refine everyStep_cons ?_ fun _ _ => everyStep_nil
    intro _ hfull
    exact absurd hfull (by decide)
  refine ⟨⟨7, 0, 1⟩, by decide, ?_⟩
  intro readings t c₂ hwait hnow
  have hlater := (later_iff 1 [.now [7]] ⟨7, 0, 1⟩ hadvances (by decide) ⟨20, 3, 2⟩ 8).mpr
    (Or.inl (by decide)) [] _ c₂ readings t
    (everyStep_cons hwait fun _ _ => everyStep_nil) rfl hnow
  exact ⟨hlater.1, hlater.2 _ ⟨{⟨7, 0, 1⟩}, List.mem_singleton.mpr rfl, rfl⟩⟩

end HybridLogicalClock

end L3KV
