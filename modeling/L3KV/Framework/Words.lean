import Mathlib.Data.List.Basic
import Mathlib.Algebra.GroupWithZero.Nat
import Mathlib.Algebra.Order.Group.Nat

/-!
# Little-endian words in byte strings

Fixed-width words are written least significant byte first and read back out of a
longer string at a byte offset. A slice that starts past the end reads short, as a
`List` does; the formats built on top check their bounds before they read.
-/

namespace Framework

abbrev Bytes := List UInt8

/-- The bytes of an ASCII text. -/
def ascii (text : String) : Bytes := text.toList.map Char.toUInt8

/-- The `width` low bytes of `n`, least significant first. -/
def leBytes : Nat → Nat → Bytes
  | 0, _ => []
  | width + 1, n => UInt8.ofNat n :: leBytes width (n / 256)

def leValue : Bytes → Nat
  | [] => 0
  | b :: bs => b.toNat + 256 * leValue bs

/-- The `len` bytes at offset `pos`. -/
def slice (buf : Bytes) (pos len : Nat) : Bytes := (buf.drop pos).take len

/-- The little-endian word of `width` bytes at offset `pos`. -/
def readWord (width : Nat) (buf : Bytes) (pos : Nat) : Nat := leValue (slice buf pos width)

/-- The same bytes by a read that is checked: `none` if one of them lies outside the buffer. -/
def bytesAt (buf : Bytes) (pos len : Nat) : Option Bytes :=
  if pos + len ≤ buf.length then some (slice buf pos len) else none

@[inherit_doc bytesAt]
def wordAt (width : Nat) (buf : Bytes) (pos : Nat) : Option Nat :=
  (bytesAt buf pos width).map leValue

theorem bytesAt_eq {buf : Bytes} {pos len : Nat} (h : pos + len ≤ buf.length) :
    bytesAt buf pos len = some (slice buf pos len) := if_pos h

theorem wordAt_eq {width : Nat} {buf : Bytes} {pos : Nat} (h : pos + width ≤ buf.length) :
    wordAt width buf pos = some (readWord width buf pos) := by
  rw [wordAt, bytesAt_eq h]
  rfl

theorem wordAt_eq_none {width : Nat} {buf : Bytes} {pos : Nat} (h : buf.length < pos + width) :
    wordAt width buf pos = none := by
  rw [wordAt, bytesAt, if_neg (Nat.not_le.mpr h)]
  rfl

/-- A row of reads none of which fails. -/
theorem mapM_some {α β : Type*} (l : List α) {f : α → Option β} {g : α → β}
    (h : ∀ a ∈ l, f a = some (g a)) : l.mapM f = some (l.map g) := by
  induction l with
  | nil => rfl
  | cons a l ih =>
      rw [List.mapM_cons, h a (by simp), ih fun b hb => h b (by simp [hb])]
      rfl

@[simp] theorem leBytes_length (width n : Nat) : (leBytes width n).length = width := by
  induction width generalizing n with
  | zero => rfl
  | succ width ih => simp [leBytes, ih]

private theorem leValue_lt (bs : Bytes) : leValue bs < 256 ^ bs.length := by
  induction bs with
  | nil => simp [leValue]
  | cons b bs ih =>
      have hb := b.toNat_lt
      simp only [leValue, List.length_cons, pow_succ]
      omega

private theorem leValue_leBytes_mod (width n : Nat) :
    leValue (leBytes width n) = n % 256 ^ width := by
  induction width generalizing n with
  | zero => simp [leBytes, leValue, Nat.mod_one]
  | succ width ih =>
      have hlow : (UInt8.ofNat n).toNat = n % 256 := UInt8.toNat_ofNat'
      simp only [leBytes, leValue, ih, hlow]
      rw [Nat.pow_succ, Nat.mul_comm (256 ^ width) 256, Nat.mod_mul]

theorem leValue_leBytes {width n : Nat} (hn : n < 256 ^ width) :
    leValue (leBytes width n) = n := by
  rw [leValue_leBytes_mod, Nat.mod_eq_of_lt hn]

private theorem leBytes_leValue (bs : Bytes) : leBytes bs.length (leValue bs) = bs := by
  induction bs with
  | nil => rfl
  | cons b bs ih =>
      have hb := b.toNat_lt
      have hlow : UInt8.ofNat (b.toNat + 256 * leValue bs) = b := by
        apply UInt8.toNat.inj
        rw [UInt8.toNat_ofNat']
        omega
      have hhigh : (b.toNat + 256 * leValue bs) / 256 = leValue bs := by omega
      simp only [List.length_cons, leBytes, leValue, hlow, hhigh, ih]

@[simp] theorem slice_length (buf : Bytes) (pos len : Nat) :
    (slice buf pos len).length = min len (buf.length - pos) := by
  simp [slice]

theorem slice_append_right (before buf : Bytes) (pos len : Nat) :
    slice (before ++ buf) (before.length + pos) len = slice buf pos len := by
  rw [slice, ← List.drop_drop, List.drop_left, slice]

theorem slice_append_left (buf after : Bytes) (pos len : Nat) (h : pos + len ≤ buf.length) :
    slice (buf ++ after) pos len = slice buf pos len := by
  have hdrop : pos - buf.length = 0 := by omega
  have htake : len ≤ (buf.drop pos).length := by
    simp only [List.length_drop]
    omega
  simp only [slice, List.drop_append, hdrop, List.drop_zero]
  rw [List.take_append_of_le_length htake]

theorem slice_take (buf : Bytes) (n pos len : Nat) (h : pos + len ≤ n) :
    slice (buf.take n) pos len = slice buf pos len := by
  simp only [slice, List.drop_take, List.take_take]
  congr 1
  omega

/-- The slice that is exactly the middle of three parts. -/
theorem slice_middle (before mid after : Bytes) :
    slice (before ++ (mid ++ after)) before.length mid.length = mid := by
  simp [slice]

theorem readWord_append_right (width : Nat) (before buf : Bytes) (pos : Nat) :
    readWord width (before ++ buf) (before.length + pos) = readWord width buf pos := by
  rw [readWord, slice_append_right, readWord]

theorem readWord_leBytes (width n : Nat) (before after : Bytes) (hn : n < 256 ^ width) :
    readWord width (before ++ (leBytes width n ++ after)) before.length = n := by
  have hmid := slice_middle before (leBytes width n) after
  rw [leBytes_length] at hmid
  rw [readWord, hmid, leValue_leBytes hn]

theorem slice_skip {before : Bytes} {pos : Nat} (h : before.length ≤ pos) (buf : Bytes)
    (len : Nat) : slice (before ++ buf) pos len = slice buf (pos - before.length) len := by
  obtain ⟨k, rfl⟩ := Nat.exists_eq_add_of_le h
  rw [slice_append_right, Nat.add_sub_cancel_left]

theorem readWord_skip {before : Bytes} {pos : Nat} (h : before.length ≤ pos) (width : Nat)
    (buf : Bytes) : readWord width (before ++ buf) pos = readWord width buf (pos - before.length) := by
  rw [readWord, slice_skip h, readWord]

@[simp] theorem slice_front (mid after : Bytes) : slice (mid ++ after) 0 mid.length = mid := by
  simp [slice]

theorem readWord_front {width n : Nat} (hn : n < 256 ^ width) (after : Bytes) :
    readWord width (leBytes width n ++ after) 0 = n :=
  readWord_leBytes width n [] after hn

theorem readWord_lt (width : Nat) (buf : Bytes) (pos : Nat) :
    readWord width buf pos < 256 ^ width := by
  have hlt := leValue_lt (slice buf pos width)
  have hlen : (slice buf pos width).length ≤ width := by
    rw [slice_length]
    omega
  exact lt_of_lt_of_le hlt (Nat.pow_le_pow_right (by omega) hlen)

theorem slice_concat (buf : Bytes) (pos len more : Nat) :
    slice buf pos len ++ slice buf (pos + len) more = slice buf pos (len + more) := by
  simp only [slice, List.take_add, List.drop_drop]

theorem slice_append_drop (buf : Bytes) (pos len : Nat) :
    slice buf pos len ++ buf.drop (pos + len) = buf.drop pos := by
  rw [slice, ← List.drop_drop, List.take_append_drop]

theorem slice_drop (buf : Bytes) (len : Nat) : slice buf 0 len ++ buf.drop len = buf := by
  simpa using slice_append_drop buf 0 len

theorem leBytes_readWord {width pos : Nat} {buf : Bytes} (h : pos + width ≤ buf.length) :
    leBytes width (readWord width buf pos) = slice buf pos width := by
  have hlen : (slice buf pos width).length = width := by
    rw [slice_length]
    omega
  have hback := leBytes_leValue (slice buf pos width)
  rwa [hlen] at hback

end Framework
