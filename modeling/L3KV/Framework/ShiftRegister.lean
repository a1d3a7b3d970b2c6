import Mathlib.Data.List.Basic
import Mathlib.Logic.Function.Iterate

/-!
# Shift registers with feedback

A register of `w` bits moves down one place at a time and takes up the feedback whenever a one
falls out. Data enters it in chunks of `k` bits. The register never forgets a difference, and two
runs of data that fill it at most once leave it in different states.
-/

namespace Framework

def registerShift {w : Nat} (feedback c : BitVec w) : BitVec w :=
  if c.getLsbD 0 then (c >>> 1) ^^^ feedback else c >>> 1

def absorb {w k : Nat} (feedback c : BitVec w) (chunk : BitVec k) : BitVec w :=
  (registerShift feedback)^[k] (c ^^^ chunk.setWidth w)

/-- Chunks side by side, the first one lowest. -/
def packed {k : Nat} (w : Nat) : List (BitVec k) → BitVec w
  | [] => 0
  | chunk :: chunks => chunk.setWidth w ^^^ (packed w chunks <<< k)

section

variable {w k : Nat} {feedback : BitVec w}

private theorem xor_xor_xor_cancel (a b p : BitVec w) : (a ^^^ p) ^^^ (b ^^^ p) = a ^^^ b := by
  rw [BitVec.xor_comm b p, BitVec.xor_assoc, ← BitVec.xor_assoc p, BitVec.xor_self,
    BitVec.zero_xor]

private theorem registerShift_xor (a b : BitVec w) :
    registerShift feedback (a ^^^ b) = registerShift feedback a ^^^ registerShift feedback b := by
  unfold registerShift
  simp only [BitVec.getLsbD_xor, BitVec.ushiftRight_xor_distrib]
  cases a.getLsbD 0 <;> cases b.getLsbD 0
  · simp
  · simp [BitVec.xor_assoc]
  · simp only [Bool.true_xor, Bool.not_false, if_true, Bool.false_eq_true, if_false]
    rw [BitVec.xor_assoc, BitVec.xor_comm (b >>> 1), ← BitVec.xor_assoc]
  · simp [xor_xor_xor_cancel]

private theorem eq_zero_of_registerShift (hmsb : feedback.msb = true) {c : BitVec w}
    (h : registerShift feedback c = 0) : c = 0 := by
  apply BitVec.eq_of_getLsbD_eq
  intro i hi
  unfold registerShift at h
  split at h
  · -- The top place would be set.
    have htop : ((c >>> 1) ^^^ feedback).getLsbD (w - 1) = true := by
      rw [BitVec.getLsbD_xor, BitVec.getLsbD_ushiftRight,
        BitVec.getLsbD_of_ge c _ (by omega), ← BitVec.msb_eq_getLsbD_last, hmsb]
      rfl
    rw [h] at htop
    simp at htop
  · rename_i hlow
    cases i with
    | zero => simpa using hlow
    | succ i =>
        have hbit : (c >>> 1).getLsbD i = false := by rw [h]; simp
        rw [BitVec.getLsbD_ushiftRight, Nat.add_comm] at hbit
        simpa using hbit

private theorem registerShift_injective (hmsb : feedback.msb = true) :
    Function.Injective (registerShift feedback) := by
  intro a b h
  have hzero : registerShift feedback (a ^^^ b) = 0 := by
    rw [registerShift_xor, h, BitVec.xor_self]
    rfl
  exact BitVec.xor_eq_zero_iff.mp (eq_zero_of_registerShift hmsb hzero)

private theorem iterate_xor (n : Nat) (a b : BitVec w) : (registerShift feedback)^[n] (a ^^^ b) =
    (registerShift feedback)^[n] a ^^^ (registerShift feedback)^[n] b := by
  induction n generalizing a b with
  | zero => rfl
  | succ n ih => rw [Function.iterate_succ_apply, registerShift_xor, ih]; rfl

private theorem iterate_shiftLeft (n : Nat) {c : BitVec w}
    (hroom : ∀ i, w ≤ i + n → c.getLsbD i = false) :
    (registerShift feedback)^[n] (c <<< n) = c := by
  induction n with
  | zero => simp
  | succ n ih =>
      have hlow : (c <<< (n + 1)).getLsbD 0 = false := by simp
      have hdown : (c <<< (n + 1)) >>> 1 = c <<< n := by
        apply BitVec.eq_of_getLsbD_eq
        intro i hi
        rw [BitVec.getLsbD_ushiftRight, BitVec.getLsbD_shiftLeft, BitVec.getLsbD_shiftLeft]
        by_cases hn : i < n
        · simp [hn, Nat.add_comm 1 i]
        · have hindex : 1 + i - (n + 1) = i - n := by omega
          by_cases htop : i + 1 < w
          · simp [hn, hi, htop, Nat.add_comm 1 i]
          · have hzero : c.getLsbD (i - n) = false := hroom _ (by omega)
            simp [hindex, hzero]
      have hroom' : ∀ i, w ≤ i + n → c.getLsbD i = false := fun i hi => hroom i (by omega)
      rw [Function.iterate_succ_apply, registerShift, hlow, if_neg Bool.false_ne_true, hdown,
        ih hroom']

private theorem packed_getLsbD (chunks : List (BitVec k)) {i : Nat} (hi : k * chunks.length ≤ i) :
    (packed w chunks).getLsbD i = false := by
  induction chunks generalizing i with
  | nil => simp [packed]
  | cons chunk chunks ih =>
      rw [List.length_cons, Nat.mul_succ] at hi
      have hchunk : (chunk.setWidth w).getLsbD i = false := by
        rw [BitVec.getLsbD_setWidth, BitVec.getLsbD_of_ge chunk i (by omega), Bool.and_false]
      have hrest : (packed w chunks).getLsbD (i - k) = false := ih (by omega)
      rw [packed, BitVec.getLsbD_xor, BitVec.getLsbD_shiftLeft, hchunk, hrest]
      simp

private theorem foldl_absorb (c : BitVec w) (chunks : List (BitVec k))
    (hfit : k * chunks.length ≤ w) : chunks.foldl (absorb feedback) c =
      (registerShift feedback)^[k * chunks.length] (c ^^^ packed w chunks) := by
  induction chunks generalizing c with
  | nil => simp [packed]
  | cons chunk chunks ih =>
      rw [List.length_cons, Nat.mul_succ] at hfit
      have hroom : ∀ i, w ≤ i + k → (packed w chunks).getLsbD i = false :=
        fun i hi => packed_getLsbD chunks (by omega)
      calc chunks.foldl (absorb feedback) (absorb feedback c chunk)
          = (registerShift feedback)^[k * chunks.length]
              ((registerShift feedback)^[k] (c ^^^ chunk.setWidth w) ^^^ packed w chunks) :=
            ih _ (by omega)
        _ = (registerShift feedback)^[k * chunks.length] ((registerShift feedback)^[k]
              (c ^^^ chunk.setWidth w ^^^ (packed w chunks <<< k))) := by
            rw [iterate_xor k (c ^^^ chunk.setWidth w), iterate_shiftLeft k hroom]
        _ = (registerShift feedback)^[k * (chunks.length + 1)]
              (c ^^^ packed w (chunk :: chunks)) := by
            rw [← Function.iterate_add_apply, packed, BitVec.xor_assoc, Nat.mul_succ]

private theorem packed_injective {chunks chunks' : List (BitVec k)}
    (hlen : chunks.length = chunks'.length) (hfit : k * chunks.length ≤ w)
    (h : packed w chunks = packed w chunks') : chunks = chunks' := by
  induction chunks generalizing chunks' with
  | nil => exact (List.length_eq_zero_iff.mp hlen.symm).symm
  | cons chunk chunks ih =>
      cases chunks' with
      | nil => cases hlen
      | cons chunk' chunks' =>
          rw [List.length_cons, Nat.mul_succ] at hfit
          have hlen' : chunks.length = chunks'.length := Nat.succ.inj hlen
          have hbit (i : Nat) := congrArg (fun c => BitVec.getLsbD c i) h
          simp only [packed, BitVec.getLsbD_xor, BitVec.getLsbD_shiftLeft,
            BitVec.getLsbD_setWidth] at hbit
          have hhead : chunk = chunk' := by
            apply BitVec.eq_of_getLsbD_eq
            intro i hi
            have hinside : i < w := by omega
            simpa [hi, hinside] using hbit i
          have hrest : packed w chunks = packed w chunks' := by
            apply BitVec.eq_of_getLsbD_eq
            intro i hi
            by_cases hinside : i + k < w
            · have hi' := hbit (i + k)
              rw [hhead] at hi'
              simpa [hinside, Nat.not_lt.mpr (Nat.le_add_left k i)] using hi'
            · rw [packed_getLsbD chunks (by omega), packed_getLsbD chunks' (hlen' ▸ by omega)]
          rw [hhead, ih hlen' (by omega) hrest]

private theorem foldl_absorb_injective (hmsb : feedback.msb = true) (chunks : List (BitVec k)) :
    Function.Injective fun c : BitVec w => chunks.foldl (absorb feedback) c := by
  induction chunks with
  | nil => exact Function.injective_id
  | cons chunk chunks ih =>
      intro a b h
      have hab := (registerShift_injective hmsb).iterate k (ih h)
      exact (BitVec.xor_left_inj _).mp hab

/-- A change of chunks that fill the register at most once is seen, whatever comes before and
after. -/
theorem burst_seen (hmsb : feedback.msb = true) (c : BitVec w)
    {before window window' after : List (BitVec k)} (hlen : window.length = window'.length)
    (hfit : k * window.length ≤ w)
    (h : (before ++ window ++ after).foldl (absorb feedback) c =
      (before ++ window' ++ after).foldl (absorb feedback) c) : window = window' := by
  simp only [List.foldl_append] at h
  have hwindow := foldl_absorb_injective hmsb after h
  rw [foldl_absorb _ window hfit, foldl_absorb _ window' (hlen ▸ hfit), hlen] at hwindow
  have hpacked := (registerShift_injective hmsb).iterate _ hwindow
  exact packed_injective hlen hfit ((BitVec.xor_right_inj _).mp hpacked)

end

end Framework
