import Mathlib.Data.List.TakeWhile
import Mathlib.Data.Nat.Digits.Defs
import Mathlib.Data.Rat.Defs
import L3KV.Framework.Words

/-!
# Numerals

The conversions of the C++ standard library between integers and decimal text:
`std::to_string`, `std::stoul` and `std::stoll` in base ten, on a platform whose
`unsigned long` and `long long` have 64 bits. A conversion that throws is `none`. At the end,
the conversions between integers and binary64 floating point.
-/

namespace Framework

/-- `std::isspace` in the default locale. -/
def isSpace (b : UInt8) : Bool := b = 32 || (9 ≤ b && b ≤ 13)

def isDigit (b : UInt8) : Bool := 48 ≤ b && b ≤ 57

/-- The value of the longest run of digits at the front, most significant first. -/
def leadingNumber (text : Bytes) : Option Nat :=
  let digits := text.takeWhile isDigit
  if digits.isEmpty then none
  else some (digits.foldl (fun acc b => 10 * acc + (b.toNat - 48)) 0)

/-- Skips white space and an optional sign; the flag says whether the sign was a minus. -/
def splitSign (text : Bytes) : Bool × Bytes :=
  match text.dropWhile isSpace with
  | 43 :: rest => (false, rest)
  | 45 :: rest => (true, rest)
  | rest => (false, rest)

/-- `std::stoul`: a minus sign negates modulo `2 ^ 64`, as `strtoul` does. -/
def stoul (text : Bytes) : Option Nat :=
  let (negative, rest) := splitSign text
  match leadingNumber rest with
  | none => none
  | some n =>
      if 2 ^ 64 ≤ n then none
      else some (if negative then (2 ^ 64 - n) % 2 ^ 64 else n)

/-- `std::stoll`. -/
def stoll (text : Bytes) : Option Int64 :=
  let (negative, rest) := splitSign text
  match leadingNumber rest with
  | none => none
  | some n =>
      let value : Int := if negative then -(n : Int) else n
      if value < -2 ^ 63 ∨ 2 ^ 63 ≤ value then none else some (Int64.ofInt value)

/-- The decimal digits of a natural number, most significant first. -/
def decimalNat (n : Nat) : Bytes :=
  if n = 0 then [48] else (Nat.digits 10 n).reverse.map fun d => UInt8.ofNat (48 + d)

/-- `std::to_string` of a signed integer. -/
def decimal (n : Int) : Bytes :=
  if n < 0 then 45 :: decimalNat n.natAbs else decimalNat n.natAbs

section

private def digitByte (d : Nat) : UInt8 := UInt8.ofNat (48 + d)

private theorem digitByte_toNat {d : Nat} (h : d < 10) : (digitByte d).toNat = 48 + d := by
  rw [digitByte, UInt8.toNat_ofNat']
  exact Nat.mod_eq_of_lt (by omega)

private theorem digitByte_isDigit {d : Nat} (h : d < 10) : isDigit (digitByte d) = true := by
  have hval := digitByte_toNat h
  simp only [isDigit, Bool.and_eq_true, decide_eq_true_eq, UInt8.le_iff_toNat_le, hval]
  exact ⟨by simp, by simp; omega⟩

private theorem decimalNat_eq (n : Nat) :
    ∃ digits : List Nat, (∀ d ∈ digits, d < 10) ∧ digits ≠ [] ∧ Nat.ofDigits 10 digits = n ∧
      decimalNat n = digits.reverse.map digitByte := by
  by_cases hzero : n = 0
  · exact ⟨[0], by simp, by simp, by simp [hzero], by simp [decimalNat, hzero, digitByte]⟩
  · refine ⟨Nat.digits 10 n, ?_, ?_, Nat.ofDigits_digits 10 n, ?_⟩
    · exact fun d hd => Nat.digits_lt_base (by decide) hd
    · exact Nat.digits_ne_nil_iff_ne_zero.mpr hzero
    · rw [decimalNat, if_neg hzero]
      rfl

private theorem foldl_digits {digits : List Nat} (h : ∀ d ∈ digits, d < 10) :
    (digits.reverse.map digitByte).foldl (fun acc b => 10 * acc + (b.toNat - 48)) 0 =
      Nat.ofDigits 10 digits := by
  induction digits with
  | nil => rfl
  | cons d digits ih =>
      have hd : (digitByte d).toNat = 48 + d := digitByte_toNat (h d List.mem_cons_self)
      simp only [List.reverse_cons, List.map_append, List.foldl_append,
        ih fun d' hd' => h d' (List.mem_cons_of_mem d hd'), List.map_cons, List.map_nil,
        List.foldl_cons, List.foldl_nil, hd, Nat.ofDigits_cons]
      simp
      omega

theorem decimalNat_isDigit {n : Nat} {b : UInt8} (h : b ∈ decimalNat n) : isDigit b = true := by
  obtain ⟨digits, hlt, -, -, heq⟩ := decimalNat_eq n
  rw [heq] at h
  obtain ⟨d, hd, rfl⟩ := List.mem_map.mp h
  exact digitByte_isDigit (hlt d (List.mem_reverse.mp hd))

private theorem splitSign_digit {b : UInt8} (h : isDigit b = true) (rest : Bytes) :
    splitSign (b :: rest) = (false, b :: rest) := by
  have hrange : 48 ≤ b.toNat ∧ b.toNat ≤ 57 := by
    simpa [isDigit, UInt8.le_iff_toNat_le] using h
  have hspace : isSpace b = false := by
    rw [Bool.eq_false_iff]
    intro hsp
    simp only [isSpace, Bool.or_eq_true, Bool.and_eq_true, decide_eq_true_eq,
      UInt8.le_iff_toNat_le] at hsp
    rcases hsp with rfl | ⟨-, hle⟩
    · simp at hrange
    · simp at hle
      omega
  have hplus : b ≠ 43 := by
    rintro rfl
    simp at hrange
  have hminus : b ≠ 45 := by
    rintro rfl
    simp at hrange
  rw [splitSign, List.dropWhile_cons, hspace]
  simp [hplus, hminus]

private theorem leadingNumber_decimalNat (n : Nat) : leadingNumber (decimalNat n) = some n := by
  obtain ⟨digits, hlt, hne, hval, heq⟩ := decimalNat_eq n
  have hdigit : ∀ b ∈ decimalNat n, isDigit b = true := fun b hb => decimalNat_isDigit hb
  rw [leadingNumber, List.takeWhile_eq_self_iff.mpr hdigit, heq, foldl_digits hlt, hval]
  simp [hne]

private theorem splitSign_decimalNat (n : Nat) :
    splitSign (decimalNat n) = (false, decimalNat n) := by
  cases htext : decimalNat n with
  | nil => rfl
  | cons b rest =>
      apply splitSign_digit
      exact decimalNat_isDigit (by rw [htext]; exact List.mem_cons_self)

/-- `std::stoul` reads back what `std::to_string` writes. -/
theorem stoul_decimalNat {n : Nat} (h : n < 2 ^ 64) : stoul (decimalNat n) = some n := by
  rw [stoul, splitSign_decimalNat]
  simp only [leadingNumber_decimalNat, if_neg (Nat.not_le.mpr h)]
  rfl

theorem stoll_decimal (v : Int64) : stoll (decimal v.toInt) = some v := by
  have hlow := Int64.le_toInt v
  have hhigh := Int64.toInt_lt v
  have hrange (value : Int) (hvalue : value = v.toInt) :
      (if value < -2 ^ 63 ∨ 2 ^ 63 ≤ value then none else some (Int64.ofInt value)) = some v := by
    rw [hvalue, if_neg (by omega), Int64.ofInt_toInt]
  by_cases hneg : v.toInt < 0
  · have hsign : splitSign (45 :: decimalNat v.toInt.natAbs) = (true, decimalNat v.toInt.natAbs) :=
      rfl
    rw [decimal, if_pos hneg, stoll, hsign]
    simp only [leadingNumber_decimalNat, if_true]
    exact hrange _ (by omega)
  · rw [decimal, if_neg hneg, stoll, splitSign_decimalNat]
    simp only [leadingNumber_decimalNat, Bool.false_eq_true, if_false]
    exact hrange _ (by omega)

end

/-- Round a natural number to 53 significant bits, to nearest, ties to even. -/
def roundNat (n : Nat) : Nat :=
  let unit := 2 ^ (Nat.log2 n - 52)
  let low := n / unit * unit
  if 2 * (n - low) < unit ∨ (2 * (n - low) = unit ∧ n / unit % 2 = 0) then low else low + unit

/-- `(double)n`, as the integer it denotes. -/
def toDouble (n : Int) : Int := if n < 0 then -(roundNat n.natAbs : Int) else roundNat n.natAbs

/-- `(int64_t)q`: the fraction is dropped. Out of range C++ leaves the result open; here it
wraps. -/
def truncate (q : Rat) : Int64 := Int64.ofInt (q.num.tdiv q.den)

private theorem roundNat_eq {n : Nat} (h : n ≤ 2 ^ 53) : roundNat n = n := by
  rcases Nat.lt_or_eq_of_le h with hlt | rfl
  · have hlog : Nat.log2 n - 52 = 0 := by
      by_cases hzero : n = 0
      · simp [hzero]
      · have := (Nat.log2_lt hzero).mpr hlt
        omega
    simp [roundNat, hlog]
  · decide

/-- Integers up to `2 ^ 53` survive the way through a double. -/
theorem truncate_toDouble {n : Int64} (h0 : 0 ≤ n.toInt) (h : n.toInt ≤ 2 ^ 53) :
    truncate (toDouble n.toInt : Rat) = n := by
  have hround : toDouble n.toInt = n.toInt := by
    rw [toDouble, if_neg (by omega), roundNat_eq (by omega)]
    omega
  simp [truncate, hround]

end Framework
