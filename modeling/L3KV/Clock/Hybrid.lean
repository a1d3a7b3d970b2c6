import Mathlib.Order.Defs.LinearOrder
import L3KV.Framework.Words

/-!
# Timestamps and the hybrid logical clock

A timestamp is a physical reading, a logical counter and a node identifier, compared in
that order. The clock hands out `(maxWallTime, maxLogical)` pairs; the physical readings it
makes during one call are an argument of the call, so nothing is assumed about them.
-/

namespace L3KV

structure Timestamp where
  wallTime : Int64
  logical : UInt32
  nodeId : UInt32
  deriving DecidableEq, Repr

namespace Timestamp

/-- `Timestamp::operator<`. -/
def lt (a b : Timestamp) : Bool :=
  if a.wallTime ≠ b.wallTime then a.wallTime < b.wallTime
  else if a.logical ≠ b.logical then a.logical < b.logical
  else a.nodeId < b.nodeId

instance : LT Timestamp := ⟨fun a b => lt a b = true⟩

/-- `Timestamp::operator<=`, which the source defines as `!(*this > o)`. -/
instance : LE Timestamp := ⟨fun a b => ¬ b < a⟩

instance (a b : Timestamp) : Decidable (a < b) := inferInstanceAs (Decidable (_ = true))
instance (a b : Timestamp) : Decidable (a ≤ b) := inferInstanceAs (Decidable (¬ _))

/-- The timestamp `apply_mutation` starts from when a key has no metadata. -/
def zero : Timestamp := ⟨0, 0, 0⟩

theorem lt_iff (a b : Timestamp) :
    a < b ↔ a.wallTime.toInt < b.wallTime.toInt ∨ (a.wallTime.toInt = b.wallTime.toInt ∧
      (a.logical.toNat < b.logical.toNat ∨ (a.logical.toNat = b.logical.toNat ∧
        a.nodeId.toNat < b.nodeId.toNat))) := by
  change lt a b = true ↔ _
  unfold lt
  by_cases hw : a.wallTime = b.wallTime
  · by_cases hl : a.logical = b.logical
    · simp [hw, hl, UInt32.lt_iff_toNat_lt]
    · have hne : a.logical.toNat ≠ b.logical.toNat := fun h => hl (UInt32.toNat.inj h)
      simp [hw, hl, hne, UInt32.lt_iff_toNat_lt]
  · have hne : a.wallTime.toInt ≠ b.wallTime.toInt := fun h => hw (Int64.toInt_inj.mp h)
    simp [hw, hne, Int64.lt_iff_toInt_lt]

theorem lt_of_wallTime_lt {a b : Timestamp} (h : a.wallTime < b.wallTime) : a < b := by
  rw [lt_iff]
  exact Or.inl (Int64.lt_iff_toInt_lt.mp h)

theorem eq_iff (a b : Timestamp) :
    a = b ↔ a.wallTime.toInt = b.wallTime.toInt ∧ a.logical.toNat = b.logical.toNat ∧
      a.nodeId.toNat = b.nodeId.toNat := by
  constructor
  · rintro rfl
    exact ⟨rfl, rfl, rfl⟩
  · rintro ⟨hw, hl, hn⟩
    cases a
    cases b
    simp only [mk.injEq]
    exact ⟨Int64.toInt_inj.mp hw, UInt32.toNat.inj hl, UInt32.toNat.inj hn⟩

theorem le_iff_not_lt (a b : Timestamp) : a ≤ b ↔ ¬ b < a := Iff.rfl

instance : LinearOrder Timestamp where
  le_refl a := by
    rw [le_iff_not_lt, lt_iff]
    omega
  le_trans a b c hab hbc := by
    rw [le_iff_not_lt, lt_iff] at *
    omega
  lt_iff_le_not_ge a b := by
    rw [le_iff_not_lt, le_iff_not_lt, lt_iff, lt_iff]
    omega
  le_antisymm a b hab hba := by
    rw [le_iff_not_lt, lt_iff] at hab hba
    rw [eq_iff]
    omega
  le_total a b := by
    rw [le_iff_not_lt, le_iff_not_lt, lt_iff, lt_iff]
    omega
  toDecidableLE := inferInstance
  toDecidableLT := inferInstance
  toDecidableEq := inferInstance

/-- The pair of wall time and logical counter is before that of another timestamp. -/
def Before (a b : Timestamp) : Prop :=
  a.wallTime < b.wallTime ∨ a.wallTime = b.wallTime ∧ a.logical < b.logical

instance (a b : Timestamp) : Decidable (a.Before b) := inferInstanceAs (Decidable (_ ∨ _ ∧ _))

/-- The pair as one number. -/
def ticks (t : Timestamp) : Int := t.wallTime.toInt * 4294967296 + t.logical.toNat

theorem before_iff (a b : Timestamp) : a.Before b ↔ a.ticks < b.ticks := by
  have ha := a.logical.toNat_lt
  have hb := b.logical.toNat_lt
  rw [Before, ticks, ticks, Int64.lt_iff_toInt_lt, UInt32.lt_iff_toNat_lt, ← Int64.toInt_inj]
  omega

theorem lt_of_ticks_lt {a b : Timestamp} (h : a.ticks < b.ticks) : a < b := by
  have ha := a.logical.toNat_lt
  have hb := b.logical.toNat_lt
  rw [ticks, ticks] at h
  rw [lt_iff]
  omega

theorem lt_iff_ticks_lt {a b : Timestamp} (h : a.nodeId = b.nodeId) :
    a < b ↔ a.ticks < b.ticks := by
  refine ⟨fun hlt => ?_, lt_of_ticks_lt⟩
  have ha := a.logical.toNat_lt
  have hb := b.logical.toNat_lt
  rw [lt_iff, h] at hlt
  rw [ticks, ticks]
  omega

end Timestamp

structure HybridLogicalClock where
  maxWallTime : Int64
  maxLogical : UInt32
  nodeId : UInt32
  deriving DecidableEq, Repr

/-- `UINT32_MAX`. -/
def uint32Max : UInt32 := 0xFFFFFFFF

namespace HybridLogicalClock

def init (nodeId : UInt32) : HybridLogicalClock := ⟨0, 0, nodeId⟩

/-- The overflow branch of `now`: readings are taken until one is past `limit`, and then one
more, which becomes the wall time. `none` while the call is still waiting. -/
def waitForPhysical (limit : Int64) : List Int64 → Option Int64
  | [] => none
  | r :: readings => if r ≤ limit then waitForPhysical limit readings else readings.head?

/-- `now()` on the physical readings it makes, the first of them `phys_now`. `none` while
the call has not returned. -/
def now (c : HybridLogicalClock) : List Int64 → Option (Timestamp × HybridLogicalClock)
  | [] => none
  | physNow :: readings =>
      let next :=
        if physNow > c.maxWallTime then some { c with maxWallTime := physNow, maxLogical := 0 }
        else if c.maxLogical = uint32Max then
          (waitForPhysical c.maxWallTime readings).map fun newPhys =>
            { c with maxWallTime := newPhys, maxLogical := 0 }
        else some { c with maxLogical := c.maxLogical + 1 }
      next.map fun c => (⟨c.maxWallTime, c.maxLogical, c.nodeId⟩, c)

/-- `update(incoming)`, with the one physical reading it makes. -/
def update (c : HybridLogicalClock) (incoming : Timestamp) (physNow : Int64) :
    HybridLogicalClock :=
  let wall := max (max c.maxWallTime incoming.wallTime) physNow
  let logical :=
    if wall = c.maxWallTime ∧ wall = incoming.wallTime then
      max c.maxLogical incoming.logical + 1
    else if wall = c.maxWallTime then c.maxLogical + 1
    else if wall = incoming.wallTime then incoming.logical + 1
    else 0
  { c with maxWallTime := wall, maxLogical := logical }

/-- `reserve_logical(for_phys_time, count)`, with the one physical reading it makes. The count is
converted to `uint32_t`, and so is the sum before it becomes the result. -/
def reserveLogical (c : HybridLogicalClock) (forPhysTime : Int64) (count : Int32)
    (reading : Int64) : Int64 × HybridLogicalClock :=
  let physNow := max reading c.maxWallTime
  if forPhysTime < physNow then (-1, c)
  else
    let c :=
      if forPhysTime > c.maxWallTime then { c with maxWallTime := forPhysTime, maxLogical := 0 }
      else c
    if uint32Max - c.maxLogical < count.toUInt32 then (-1, c)
    else
      (Int64.ofNat (c.maxLogical + 1).toNat,
        { c with maxLogical := c.maxLogical + count.toUInt32 })

/-- The pair the clock stands at, stamped with its node. -/
def current (c : HybridLogicalClock) : Timestamp := ⟨c.maxWallTime, c.maxLogical, c.nodeId⟩

/-- What a call of `now` that returned did. -/
theorem now_spec {c c' : HybridLogicalClock} {readings : List Int64} {t : Timestamp}
    (h : c.now readings = some (t, c')) :
    t = c'.current ∧ c'.nodeId = c.nodeId ∧ ∃ physNow rest, readings = physNow :: rest ∧
      ((c.maxWallTime < physNow ∧ c'.maxWallTime = physNow ∧ c'.maxLogical = 0) ∨
        (physNow ≤ c.maxWallTime ∧ c.maxLogical = uint32Max ∧
          waitForPhysical c.maxWallTime rest = some c'.maxWallTime ∧ c'.maxLogical = 0) ∨
        (physNow ≤ c.maxWallTime ∧ c.maxLogical ≠ uint32Max ∧
          c'.maxWallTime = c.maxWallTime ∧ c'.maxLogical = c.maxLogical + 1)) := by
  match readings with
  | [] => simp [now] at h
  | physNow :: rest =>
      simp only [now, Option.map_eq_some_iff, Prod.mk.injEq] at h
      obtain ⟨d, hd, rfl, rfl⟩ := h
      refine ⟨rfl, ?_⟩
      split at hd
      · rename_i hgt
        cases hd
        exact ⟨rfl, physNow, rest, rfl, Or.inl ⟨hgt, rfl, rfl⟩⟩
      · rename_i hle
        have hle' : physNow ≤ c.maxWallTime := by grind
        split at hd
        · rename_i hfull
          obtain ⟨newPhys, hwait, rfl⟩ := Option.map_eq_some_iff.mp hd
          exact ⟨rfl, physNow, rest, rfl, Or.inr (Or.inl ⟨hle', hfull, hwait, rfl⟩)⟩
        · rename_i hroom
          cases hd
          exact ⟨rfl, physNow, rest, rfl, Or.inr (Or.inr ⟨hle', hroom, rfl, rfl⟩)⟩

/-- The two readings around the end of the overflow wait do not go backwards: if the call
blocks, the reading it takes after the wait is past the wall time it waited for. -/
def WaitAdvances (c : HybridLogicalClock) (readings : List Int64) : Prop :=
  c.maxLogical = uint32Max → ∀ newPhys,
    waitForPhysical c.maxWallTime readings.tail = some newPhys → c.maxWallTime < newPhys

private theorem logical_succ {l : UInt32} (h : l ≠ uint32Max) : (l + 1).toNat = l.toNat + 1 := by
  have hne : l.toNat ≠ uint32Max.toNat := fun he => h (UInt32.toNat.inj he)
  have hlt := l.toNat_lt
  simp only [uint32Max, UInt32.reduceToNat] at hne
  rw [UInt32.toNat_add]
  simp only [UInt32.reduceToNat]
  omega

theorem now_advances {c c' : HybridLogicalClock} {readings : List Int64} {t : Timestamp}
    (h : c.now readings = some (t, c')) (hwait : c.WaitAdvances readings) : c.current < t := by
  obtain ⟨rfl, hnode, physNow, rest, rfl, hcase⟩ := now_spec h
  rw [Timestamp.lt_iff]
  simp only [current]
  rcases hcase with ⟨hgt, hw, -⟩ | ⟨-, hfull, hnew, -⟩ | ⟨-, hroom, hw, hl⟩
  · left
    rw [hw]
    exact Int64.lt_iff_toInt_lt.mp hgt
  · left
    exact Int64.lt_iff_toInt_lt.mp (hwait hfull _ hnew)
  · right
    rw [hw, hl, logical_succ hroom]
    omega

private theorem waitForPhysical_advances {limit newPhys : Int64} {readings : List Int64}
    (hsorted : readings.Pairwise (· ≤ ·)) (h : waitForPhysical limit readings = some newPhys) :
    limit < newPhys := by
  induction readings with
  | nil => cases h
  | cons r rest ih =>
      obtain ⟨hfirst, hrest⟩ := List.pairwise_cons.mp hsorted
      rw [waitForPhysical] at h
      split at h
      · exact ih hrest h
      · rename_i hgt
        have hle := hfirst newPhys (List.mem_of_mem_head? h)
        rw [Int64.le_iff_toInt_le] at hgt hle
        rw [Int64.lt_iff_toInt_lt]
        omega

theorem waitAdvances_of_sorted (c : HybridLogicalClock) {readings : List Int64}
    (hsorted : readings.Pairwise (· ≤ ·)) : c.WaitAdvances readings := by
  intro _ newPhys hwait
  exact waitForPhysical_advances hsorted.tail hwait

theorem now_reaches {c c' : HybridLogicalClock} {readings : List Int64} {t : Timestamp} {r : Int64}
    (h : c.now readings = some (t, c')) (hwait : c.WaitAdvances readings)
    (hr : r ∈ readings.head?) : r ≤ t.wallTime := by
  obtain ⟨rfl, -, physNow, rest, rfl, hcase⟩ := now_spec h
  cases hr
  change r ≤ c'.maxWallTime
  rw [Int64.le_iff_toInt_le]
  rcases hcase with ⟨-, hw, -⟩ | ⟨hle, hfull, hnew, -⟩ | ⟨hle, -, hw, -⟩
  · rw [hw]
  · have hpast := hwait hfull _ hnew
    rw [Int64.le_iff_toInt_le] at hle
    rw [Int64.lt_iff_toInt_lt] at hpast
    omega
  · rw [hw]
    exact Int64.le_iff_toInt_le.mp hle

/-- If the call waits, the reading it takes after the wait is past the wall time it waited for. -/
def WaitEndsPast (c : HybridLogicalClock) : List Int64 → Prop
  | [] => True
  | physNow :: readings => physNow ≤ c.maxWallTime → c.WaitAdvances (physNow :: readings)

theorem now_ticks {c c' : HybridLogicalClock} {readings : List Int64} {t : Timestamp}
    (h : c.now readings = some (t, c')) (hwait : c.WaitEndsPast readings) :
    c.current.ticks < t.ticks := by
  obtain ⟨rfl, hnode, physNow, rest, rfl, hcase⟩ := now_spec h
  rw [← Timestamp.lt_iff_ticks_lt hnode.symm]
  rcases hcase with ⟨hgt, hw, -⟩ | ⟨hle, -⟩ | ⟨hle, -⟩
  · apply Timestamp.lt_of_wallTime_lt
    rw [current, current, hw]
    exact hgt
  · exact now_advances h (hwait hle)
  · exact now_advances h (hwait hle)

private theorem toInt_max (a b : Int64) : (max a b).toInt = max a.toInt b.toInt := by
  change (if a ≤ b then b else a).toInt = _
  split
  · rename_i h
    rw [Int64.le_iff_toInt_le] at h
    omega
  · rename_i h
    rw [Int64.le_iff_toInt_le] at h
    omega

theorem reserveLogical_spec {c c' : HybridLogicalClock} {forPhysTime reading start : Int64}
    {count : Int32} (h : c.reserveLogical forPhysTime count reading = (start, c')) :
    (start = -1 ∧ c' = c) ∨
      ∃ base : Nat, (c.maxWallTime < forPhysTime ∧ base = 0 ∨
          c.maxWallTime = forPhysTime ∧ base = c.maxLogical.toNat) ∧
        base + count.toUInt32.toNat < 2 ^ 32 ∧ start.toInt = ((base + 1) % 2 ^ 32 : Nat) ∧
        c'.maxWallTime = forPhysTime ∧ c'.maxLogical.toNat = base + count.toUInt32.toNat ∧
        c'.nodeId = c.nodeId := by
  have hcount := count.toUInt32.toNat_lt
  have hroom {l : UInt32} (hl : ¬ uint32Max - l < count.toUInt32) :
      l.toNat + count.toUInt32.toNat < 2 ^ 32 := by
    have hle := l.toNat_lt
    rw [UInt32.lt_iff_toNat_lt, UInt32.toNat_sub_of_le _ _ (UInt32.le_iff_toNat_le.mpr (by
      simp only [uint32Max, UInt32.reduceToNat]
      omega))] at hl
    simp only [uint32Max, UInt32.reduceToNat] at hl
    omega
  have hstart (l : UInt32) : (Int64.ofNat (l + 1).toNat).toInt = ((l.toNat + 1) % 2 ^ 32 : Nat) := by
    have hlt := (l + 1).toNat_lt
    rw [Int64.toInt_ofNat_of_lt (by omega), UInt32.toNat_add]
    rfl
  simp only [reserveLogical] at h
  split at h
  · cases h
    exact Or.inl ⟨rfl, rfl⟩
  · rename_i hnot
    by_cases hgt : c.maxWallTime < forPhysTime
    · rw [if_pos hgt] at h
      split at h
      · rename_i hfull
        have hzero : (uint32Max - 0).toNat = 2 ^ 32 - 1 := rfl
        rw [UInt32.lt_iff_toNat_lt, hzero] at hfull
        omega
      · rename_i hfits
        have hsum := hroom hfits
        cases h
        refine Or.inr ⟨0, Or.inl ⟨hgt, rfl⟩, hsum, hstart 0, rfl, ?_, rfl⟩
        exact (UInt32.toNat_add _ _).trans (Nat.mod_eq_of_lt hsum)
    · have heq : c.maxWallTime = forPhysTime := by
        rw [Int64.lt_iff_toInt_lt] at hgt hnot
        rw [toInt_max] at hnot
        rw [← Int64.toInt_inj]
        omega
      rw [if_neg hgt] at h
      split at h
      · cases h
        exact Or.inl ⟨rfl, rfl⟩
      · rename_i hfits
        have hsum := hroom hfits
        cases h
        refine Or.inr ⟨_, Or.inr ⟨heq, rfl⟩, hsum, hstart _, heq, ?_, rfl⟩
        exact (UInt32.toNat_add _ _).trans (Nat.mod_eq_of_lt hsum)

private theorem toNat_max (a b : UInt32) : (max a b).toNat = max a.toNat b.toNat := by
  change (if a ≤ b then b else a).toNat = _
  split
  · rename_i h
    rw [UInt32.le_iff_toNat_le] at h
    omega
  · rename_i h
    rw [UInt32.le_iff_toNat_le] at h
    omega

private theorem max_eq_uint32Max (a b : UInt32) :
    max a b = uint32Max ↔ a = uint32Max ∨ b = uint32Max := by
  have ha := a.toNat_lt
  have hb := b.toNat_lt
  simp only [← UInt32.toNat_inj, toNat_max, uint32Max, UInt32.reduceToNat]
  omega

/-- The counter that `update` increments stands at its end. -/
def Wraps (c : HybridLogicalClock) (incoming : Timestamp) (reading : Int64) : Prop :=
  let wall := max (max c.maxWallTime incoming.wallTime) reading
  wall = c.maxWallTime ∧ c.maxLogical = uint32Max ∨
    wall = incoming.wallTime ∧ incoming.logical = uint32Max

instance (c : HybridLogicalClock) (incoming : Timestamp) (reading : Int64) :
    Decidable (c.Wraps incoming reading) :=
  inferInstanceAs (Decidable (_ ∧ _ ∨ _ ∧ _))

theorem update_ticks {c : HybridLogicalClock} {incoming : Timestamp} {reading : Int64}
    (h : ¬ c.Wraps incoming reading) :
    c.current.ticks < (c.update incoming reading).current.ticks ∧
      incoming.ticks < (c.update incoming reading).current.ticks := by
  have hc := c.maxLogical.toNat_lt
  have hi := incoming.logical.toNat_lt
  simp only [Wraps, not_or, not_and, ← Int64.toInt_inj, toInt_max] at h
  simp only [Timestamp.ticks, current, update, ← Int64.toInt_inj, toInt_max]
  split_ifs with hboth hold hnew
  · have hroom : max c.maxLogical incoming.logical ≠ uint32Max := by
      rw [ne_eq, max_eq_uint32Max, not_or]
      exact ⟨h.1 hboth.1, h.2 hboth.2⟩
    rw [logical_succ hroom, toNat_max]
    omega
  · rw [logical_succ (h.1 hold)]
    omega
  · rw [logical_succ (h.2 hnew)]
    omega
  · simp only [UInt32.toNat_zero]
    omega

theorem update_wraps {c : HybridLogicalClock} {incoming : Timestamp} {reading : Int64}
    (h : c.Wraps incoming reading) :
    c.update incoming reading =
      ⟨max (max c.maxWallTime incoming.wallTime) reading, 0, c.nodeId⟩ := by
  have hzero : uint32Max + 1 = 0 := rfl
  simp only [Wraps] at h
  simp only [update]
  congr 1
  split_ifs with hboth hold hnew
  · rw [(max_eq_uint32Max _ _).mpr (h.imp And.right And.right), hzero]
  · rcases h with h | h
    · rw [h.2, hzero]
    · exact absurd ⟨hold, h.1⟩ hboth
  · rcases h with h | h
    · exact absurd h.1 hold
    · rw [h.2, hzero]
  · rfl

end HybridLogicalClock

end L3KV
