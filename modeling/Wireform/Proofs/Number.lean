import Wireform.Proofs.Numeral
import Mathlib.Algebra.Group.Nat.Defs
import Mathlib.Data.List.Induction

/-!
# Numbers on the wire

Fixed-width numbers are big-endian digits to base 256 (`Bytes.ofNat`, `Bytes.value`),
variable-length ones are groups to base 128.  Both readers read back what was written, whatever
follows it, and the machine integers are their bits.
-/

namespace Wireform

/-! ### Machine integers by their bits -/

@[simp] theorem int8_ofNat_toNat (v : Int8) : Int8.ofNat v.toUInt8.toNat = v :=
  Int8.ofNat_bitVecToNat v.toBitVec

@[simp] theorem int16_ofNat_toNat (v : Int16) : Int16.ofNat v.toUInt16.toNat = v :=
  Int16.ofNat_bitVecToNat v.toBitVec

@[simp] theorem int32_ofNat_toNat (v : Int32) : Int32.ofNat v.toUInt32.toNat = v :=
  Int32.ofNat_bitVecToNat v.toBitVec

@[simp] theorem int64_ofNat_toNat (v : Int64) : Int64.ofNat v.toUInt64.toNat = v :=
  Int64.ofNat_bitVecToNat v.toBitVec

theorem toNat_int8_ofNat {n : Nat} (h : n < 256 ^ 1) : (Int8.ofNat n).toUInt8.toNat = n :=
  Nat.mod_eq_of_lt h

theorem toNat_int16_ofNat {n : Nat} (h : n < 256 ^ 2) : (Int16.ofNat n).toUInt16.toNat = n :=
  Nat.mod_eq_of_lt h

theorem toNat_int32_ofNat {n : Nat} (h : n < 256 ^ 4) : (Int32.ofNat n).toUInt32.toNat = n :=
  Nat.mod_eq_of_lt h

theorem toNat_int64_ofNat {n : Nat} (h : n < 256 ^ 8) : (Int64.ofNat n).toUInt64.toNat = n :=
  Nat.mod_eq_of_lt h

/-- The number of a count that fits is not negative. -/
theorem toInt_ofNat_count {n : Nat} (h : n ≤ 0x7FFFFFFF) : (Int32.ofNat n).toInt = n :=
  Int32.toInt_ofNat_of_lt (by omega)

/-- A number read as a count is the number that was cut down to 32 bits, or negative. -/
theorem toInt_ofNat_cases (n : Nat) :
    (Int32.ofNat n).toInt < 0 ∨ (Int32.ofNat n).toInt.toNat = n % 2 ^ 32 := by
  have h := @Int32.toInt_ofNat' n
  rw [Int.bmod_def] at h
  have hsize : (Int32.size : Int) = 4294967296 := rfl
  rw [hsize] at h
  split at h <;> omega

theorem lt_zero_iff (v : Int32) : v < 0 ↔ v.toInt < 0 := Int32.lt_iff_toInt_lt

/-! ### Fixed width -/

namespace Bytes

@[simp] theorem value_concat (bytes : Bytes) (b : UInt8) :
    value (bytes ++ [b]) = value bytes * 256 + b.toNat := by
  simp [value, List.foldl_append]

@[simp, grind =] theorem value_ofNat (width n : Nat) : value (ofNat width n) = n % 256 ^ width := by
  induction width generalizing n with
  | zero => simp [ofNat, value, Nat.mod_one]
  | succ width ih =>
    calc value (ofNat (width + 1) n) = n / 256 % 256 ^ width * 256 + n % 256 := by
          simp [ofNat, ih]
      _ = n % (256 * 256 ^ width) := by
          rw [Nat.mod_mul, Nat.add_comm, Nat.mul_comm]
      _ = n % 256 ^ (width + 1) := by
          rw [Nat.pow_succ']

theorem value_ofNat_of_lt {width n : Nat} (h : n < 256 ^ width) : value (ofNat width n) = n := by
  rw [value_ofNat, Nat.mod_eq_of_lt h]

theorem value_lt (bytes : Bytes) : value bytes < 256 ^ bytes.length := by
  induction bytes using List.reverseRecOn with
  | nil => exact Nat.one_pos
  | append_singleton bytes b ih =>
    have hb := b.toNat_lt
    rw [value_concat, List.length_append, List.length_singleton, Nat.pow_succ]
    omega

/-- Bytes are the digits of their number. -/
@[simp] theorem ofNat_value (bytes : Bytes) : ofNat bytes.length (value bytes) = bytes := by
  induction bytes using List.reverseRecOn with
  | nil => rfl
  | append_singleton bytes b ih =>
    have hb := b.toNat_lt
    have hdiv : (value bytes * 256 + b.toNat) / 256 = value bytes := by omega
    have hlow : UInt8.ofNat (value bytes * 256 + b.toNat) = b := by
      rw [← UInt8.toNat_inj, UInt8.toNat_ofNat']
      omega
    rw [value_concat, List.length_append, List.length_singleton, ofNat, hdiv, ih, hlow]

/-- Numbers of one width in a row. -/
theorem length_flatMap_ofNat {α : Type} (width : Nat) (number : α → Nat) (as : List α) :
    (as.flatMap fun a => ofNat width (number a)).length = as.length * width := by
  induction as with
  | nil => simp
  | cons a as ih => simp [ih, Nat.succ_mul, Nat.add_comm]

end Bytes

theorem decodes_number {width n : Nat} (h : n < 256 ^ width) :
    Decodes (Decoder.number width) (Bytes.ofNat width n) n := by
  have ht := (Decodes.take (Bytes.ofNat width n)).map (f := Bytes.value)
  rwa [Bytes.length_ofNat, Bytes.value_ofNat_of_lt h] at ht

theorem decodes_fixed {width n : Nat} {g : Nat → α} {a : α} (hn : n < 256 ^ width) (h : g n = a) :
    Decodes (do return g (← Decoder.number width)) (Bytes.ofNat width n) a := by
  subst h
  exact (decodes_number hn).map

/-! ### Groups of seven bits -/

namespace VarInt

theorem ofNat_ne_nil (n : Nat) : ofNat n ≠ [] := by
  rw [ofNat]
  split <;> simp

/-- Numbers of one size: `keep` keeps what fits of a number that is read, and `whole v` is the
number that is written for `v`, in `most` groups at most. -/
structure Sized (keep : Nat → α) (whole : α → Nat) (most : Nat) : Prop where
  pos : 0 < most
  keep_whole : ∀ v, keep (whole v) = v
  whole_keep_le : ∀ n, whole (keep n) ≤ n
  whole_lt : ∀ v, whole v < 128 ^ most

theorem sized32 : Sized Int32.ofNat (fun v => v.toUInt32.toNat) maxWidth32 where
  pos := by decide
  keep_whole := int32_ofNat_toNat
  whole_keep_le n := Nat.mod_le n (2 ^ 32)
  whole_lt v := Nat.lt_of_lt_of_le v.toUInt32.toNat_lt (by decide)

theorem sized64 : Sized Int64.ofNat (fun v => v.toUInt64.toNat) maxWidth64 where
  pos := by decide
  keep_whole := int64_ofNat_toNat
  whole_keep_le n := Nat.mod_le n (2 ^ 64)
  whole_lt v := Nat.lt_of_lt_of_le v.toUInt64.toNat_lt (by decide)

namespace Sized

variable {keep : Nat → α} {whole : α → Nat} {most : Nat} {tooBig : Fault} {d : Numeral}

/-- A number is written as a numeral that the reader accepts. -/
theorem exists_numeral (h : Sized keep whole most) (v : α) :
    ∃ d : Numeral, d.width ≤ most ∧ d.bytes = ofNat (whole v) ∧ keep d.value = v := by
  obtain ⟨least, rfl⟩ := Nat.exists_eq_add_one.mpr h.pos
  obtain ⟨d, hwidth, hbytes, hvalue⟩ := exists_numeral_of_lt (h.whole_lt v)
  exact ⟨d, hwidth, hbytes, by rw [hvalue, h.keep_whole]⟩

theorem decodes (h : Sized keep whole most) (v : α) :
    Decodes (reader tooBig most keep) (ofNat (whole v)) v := by
  obtain ⟨d, hwidth, hbytes, hv⟩ := h.exists_numeral v
  have hd : Decodes (reader tooBig most keep) d.bytes (keep d.value) := decodes_reader hwidth
  rwa [hbytes, hv] at hd

theorem length_le (h : Sized keep whole most) (v : α) : (ofNat (whole v)).length ≤ most := by
  obtain ⟨d, hwidth, hbytes, -⟩ := h.exists_numeral v
  rw [← hbytes]
  exact hwidth

/-- Of the numerals that are kept as one number, none is shorter than what is written for it. -/
theorem length_le_width (h : Sized keep whole most) (d : Numeral) :
    (ofNat (whole (keep d.value))).length ≤ d.width := by
  rw [length_ofNat]
  exact Nat.le_trans (sizeOfNat_mono (h.whole_keep_le d.value)) (sizeOfNat_value_le d)

end Sized

/-- A 32-bit number is written as a numeral that the reader accepts. -/
theorem exists_numeral_int32 (v : Int32) :
    ∃ d : Numeral, d.width ≤ maxWidth32 ∧ d.bytes = encode32 v ∧ d.int32 = v :=
  sized32.exists_numeral v

theorem decodes_decode32 (v : Int32) : Decodes decode32 (encode32 v) v := sized32.decodes v

theorem decodes_decode64 (v : Int64) : Decodes decode64 (encode64 v) v := sized64.decodes v

@[simp, grind =]
theorem length_encode32 (v : Int32) : (encode32 v).length = size v := length_ofNat _

theorem size_int32_le (d : Numeral) : size d.int32 ≤ d.width := by
  rw [← length_encode32]
  exact sized32.length_le_width d

end VarInt

end Wireform
