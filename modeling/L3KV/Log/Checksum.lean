import L3KV.Framework.ShiftRegister
import L3KV.Log.Format

/-!
# What the checksum of a record sees

`compute_crc` is a shift register of 32 bits that takes in the operation, the key and the payload
byte by byte. It sees the bytes and not where the key ends.
-/

namespace L3KV

open Framework

private theorem neg_lowBit (c : BitVec 32) :
    -(c &&& 1#32) = if c.getLsbD 0 then BitVec.allOnes 32 else 0#32 := by
  rw [BitVec.and_one_eq_setWidth_ofBool_getLsbD]
  cases c.getLsbD 0 <;> rfl

private theorem crcShift_toBitVec (c : UInt32) :
    (crcShift c).toBitVec = registerShift 0xEDB88320#32 c.toBitVec := by
  have hmask : (-(c &&& 1)).toBitVec = -(c.toBitVec &&& 1#32) := rfl
  have hdown : (c >>> 1).toBitVec = c.toBitVec >>> 1 := by
    rw [UInt32.toBitVec_shiftRight]
    rfl
  rw [crcShift, UInt32.toBitVec_xor, UInt32.toBitVec_and, hmask, neg_lowBit, hdown, registerShift]
  split
  · rw [BitVec.and_allOnes]
    rfl
  · rw [BitVec.and_zero, BitVec.xor_zero]

private theorem crcByte_toBitVec (c : UInt32) (b : UInt8) :
    (crcByte c b).toBitVec = absorb 0xEDB88320#32 c.toBitVec b.toBitVec := by
  have hshifts (n : Nat) (c : UInt32) :
      (crcShift^[n] c).toBitVec = (registerShift 0xEDB88320#32)^[n] c.toBitVec := by
    induction n generalizing c with
    | zero => rfl
    | succ n ih => rw [Function.iterate_succ_apply, ih, crcShift_toBitVec]; rfl
  rw [crcByte, hshifts, UInt32.toBitVec_xor]
  rfl

private theorem foldl_crcByte_toBitVec (bytes : Bytes) (c : UInt32) :
    (bytes.foldl crcByte c).toBitVec =
      (bytes.map UInt8.toBitVec).foldl (absorb 0xEDB88320#32) c.toBitVec := by
  induction bytes generalizing c with
  | nil => rfl
  | cons b bytes ih => rw [List.foldl_cons, ih, crcByte_toBitVec]; rfl

/-- The bytes that the checksum of a record covers. -/
def checkedBytes (op : UInt8) (key payload : Bytes) : Bytes := op :: (key ++ payload)

private theorem computeCrc_eq (op : UInt8) (key payload : Bytes) :
    computeCrc op key payload = ~~~ ((checkedBytes op key payload).foldl crcByte 0xFFFFFFFF) := by
  simp only [computeCrc, checkedBytes, List.foldl_cons, List.foldl_append, List.foldl_nil]

theorem computeCrc_congr {op op' : UInt8} {key key' payload payload' : Bytes}
    (h : checkedBytes op key payload = checkedBytes op' key' payload') :
    computeCrc op key payload = computeCrc op' key' payload' := by
  rw [computeCrc_eq, computeCrc_eq, h]

/-- The checksum depends on the checked bytes only, and any change within four bytes in a row of
them changes it. -/
theorem crc_sees_bursts :
    (∀ (op op' : UInt8) (key key' payload payload' : Bytes),
      checkedBytes op key payload = checkedBytes op' key' payload' →
        computeCrc op key payload = computeCrc op' key' payload') ∧
    ∀ (op op' : UInt8) (key key' payload payload' before window window' after : Bytes),
      checkedBytes op key payload = before ++ window ++ after →
      checkedBytes op' key' payload' = before ++ window' ++ after →
      window.length ≤ 4 → window'.length = window.length → window' ≠ window →
        computeCrc op' key' payload' ≠ computeCrc op key payload := by
  refine ⟨fun _ _ _ _ _ _ h => computeCrc_congr h, ?_⟩
  intro op op' key key' payload payload' before window window' after hbytes hbytes' hshort hlen hne
    hcrc
  rw [computeCrc_eq, computeCrc_eq, hbytes, hbytes'] at hcrc
  have hstate := congrArg UInt32.toBitVec (UInt32.not_inj.mp hcrc)
  simp only [foldl_crcByte_toBitVec, List.map_append] at hstate
  have hfit : 8 * (window'.map UInt8.toBitVec).length ≤ 32 := by
    rw [List.length_map]
    omega
  have hsame := burst_seen (by decide) _ (by simp [hlen]) hfit hstate
  exact hne (List.map_injective_iff.mpr (fun _ _ => UInt8.toBitVec_inj.mp) hsame)

end L3KV
