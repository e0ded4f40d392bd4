import Wireform.Text.ModifiedUtf8
import Wireform.Proofs.Text.Utf16

/-!
# Modified UTF-8 reads back

The bytes of a unit in terms of its number, and what the reader makes of bytes of each of the three
shapes.  A written text reads back as the text.
-/

namespace Wireform.ModifiedUtf8

/-- The written form of a text, however long it is. -/
def bytes (s : String) : Bytes := (Utf16.units s).flatMap unitBytes

/-- The length of the written form. -/
def size (s : String) : Nat := (bytes s).length

theorem encode_of_le {s : String} (h : size s ≤ maxBytes) : encode s = .ok (bytes s) := if_pos h

theorem encode_of_lt {s : String} (h : maxBytes < size s) :
    encode s = .error (.textTooLong (size s)) :=
  if_neg (Nat.not_le_of_lt h)

/-! ### Writing a unit -/

/-- Units of one, two and three bytes. -/
theorem unit_cases (u : UInt16) :
    (0 < u.toNat ∧ u.toNat ≤ 0x7F) ∨ (u.toNat = 0 ∨ 0x80 ≤ u.toNat ∧ u.toNat ≤ 0x7FF) ∨
      0x7FF < u.toNat := by
  omega

/-- The two conditions of the writer, on numbers. -/
theorem one_byte_iff {u : UInt16} : 0x0001 ≤ u ∧ u ≤ 0x007F ↔ 0 < u.toNat ∧ u.toNat ≤ 0x7F := by
  simp only [UInt16.le_iff_toNat_le, UInt16.reduceToNat, Nat.succ_le_iff]

theorem two_bytes_iff {u : UInt16} : u ≤ 0x07FF ↔ u.toNat ≤ 0x7FF := UInt16.le_iff_toNat_le

theorem unitBytes_one {u : UInt16} (h : 0 < u.toNat ∧ u.toNat ≤ 0x7F) :
    unitBytes u = [UInt8.ofNat u.toNat] := by
  rw [unitBytes, if_pos (one_byte_iff.mpr h)]
  simp

/-- The low six bits, and the mark of a byte that is not the first. -/
theorem toUInt8_and (x : UInt16) : (x &&& 0x3F).toUInt8 = UInt8.ofNat (x.toNat % 64) := by
  have hmask : (0x3F : UInt16).toNat = 2 ^ 6 - 1 := rfl
  rw [← UInt8.toNat_inj, UInt16.toNat_toUInt8, UInt16.toNat_and, UInt8.toNat_ofNat', hmask,
    Nat.and_two_pow_sub_one_eq_mod]

theorem or_tail : ∀ n < 64, UInt8.ofNat n ||| 0x80 = UInt8.ofNat (0x80 + n) := by decide

theorem unitBytes_two {u : UInt16} (h : u.toNat = 0 ∨ 0x80 ≤ u.toNat ∧ u.toNat ≤ 0x7FF) :
    unitBytes u = [UInt8.ofNat (0xC0 + u.toNat / 64), UInt8.ofNat (0x80 + u.toNat % 64)] := by
  have hone : ¬ (0x0001 ≤ u ∧ u ≤ 0x007F) := fun hone => by
    have hu := one_byte_iff.mp hone
    omega
  have htwo : u ≤ 0x07FF := two_bytes_iff.mpr (by omega)
  have hhead : ∀ n < 32, UInt8.ofNat n ||| 0xC0 = UInt8.ofNat (0xC0 + n) := by decide
  have hdiv : (u >>> 6).toUInt8 = UInt8.ofNat (u.toNat / 64) := by
    rw [← UInt8.toNat_inj]
    simp [Nat.shiftRight_eq_div_pow]
  rw [unitBytes, if_neg hone, if_pos htwo, hdiv, toUInt8_and, hhead _ (by omega),
    or_tail _ (by omega)]

theorem unitBytes_three {u : UInt16} (h : 0x7FF < u.toNat) :
    unitBytes u = [UInt8.ofNat (0xE0 + u.toNat / 4096), UInt8.ofNat (0x80 + u.toNat / 64 % 64),
      UInt8.ofNat (0x80 + u.toNat % 64)] := by
  have hlt := u.toNat_lt
  have hone : ¬ (0x0001 ≤ u ∧ u ≤ 0x007F) := fun hone => by
    have hu := one_byte_iff.mp hone
    omega
  have htwo : ¬ u ≤ 0x07FF := fun htwo => Nat.not_le_of_lt h (two_bytes_iff.mp htwo)
  have hhead : ∀ n < 16, UInt8.ofNat n ||| 0xE0 = UInt8.ofNat (0xE0 + n) := by decide
  have hdiv : (u >>> 12).toUInt8 = UInt8.ofNat (u.toNat / 4096) := by
    rw [← UInt8.toNat_inj]
    simp [Nat.shiftRight_eq_div_pow]
  have hmid : (u >>> 6).toNat = u.toNat / 64 := by
    simp [Nat.shiftRight_eq_div_pow]
  rw [unitBytes, if_neg hone, if_neg htwo, hdiv, toUInt8_and, toUInt8_and, hmid,
    hhead _ (by omega), or_tail _ (by omega), or_tail _ (by omega)]

/-! ### Reading a group -/

theorem tail_facts : ∀ n < 64,
    isTail (UInt8.ofNat (0x80 + n)) = true ∧
      tailBits (UInt8.ofNat (0x80 + n)) = UInt16.ofNat n := by
  decide

theorem head_two_facts : ∀ n < 32,
    ¬ UInt8.ofNat (0xC0 + n) < 0x80 ∧ (UInt8.ofNat (0xC0 + n) &&& 0xE0 == 0xC0) = true ∧
      (UInt8.ofNat (0xC0 + n) &&& 0x1F).toUInt16 = UInt16.ofNat n := by
  decide

theorem head_three_facts : ∀ n < 16,
    ¬ UInt8.ofNat (0xE0 + n) < 0x80 ∧ (UInt8.ofNat (0xE0 + n) &&& 0xE0 == 0xC0) = false ∧
      (UInt8.ofNat (0xE0 + n) &&& 0xF0 == 0xE0) = true ∧
      (UInt8.ofNat (0xE0 + n) &&& 0x0F).toUInt16 = UInt16.ofNat n := by
  decide

/-- Two runs of bits side by side. -/
theorem shiftLeft_or {a b : Nat} (ha : a < 1024) (hb : b < 64) :
    UInt16.ofNat a <<< 6 ||| UInt16.ofNat b = UInt16.ofNat (a * 64 + b) := by
  rw [← UInt16.toNat_inj, UInt16.toNat_or, UInt16.toNat_shiftLeft, UInt16.toNat_ofNat',
    UInt16.toNat_ofNat', UInt16.toNat_ofNat', Nat.mod_eq_of_lt (by omega : a < 2 ^ 16),
    Nat.mod_eq_of_lt (by omega : b < 2 ^ 16), Nat.mod_eq_of_lt (by omega : a * 64 + b < 2 ^ 16)]
  have hshift : a <<< ((6 : UInt16).toNat % 16) = a * 64 := by
    rw [show (6 : UInt16).toNat % 16 = 6 from rfl, Nat.shiftLeft_eq]
  rw [hshift, Nat.mod_eq_of_lt (by omega)]
  have hor := Nat.shiftLeft_add_eq_or_of_lt (show b < 2 ^ 6 from hb) a
  rw [Nat.shiftLeft_eq] at hor
  exact hor.symm

/-- Three runs of bits are the first two, and then the third. -/
theorem shiftLeft_or_shiftLeft : ∀ a < 16, ∀ b < 64,
    UInt16.ofNat a <<< 12 ||| UInt16.ofNat b <<< 6 = UInt16.ofNat (a * 64 + b) <<< 6 := by
  decide +kernel

theorem unitsLoop_one {b : UInt8} (h : b < 0x80) (offset : Nat) (acc : List UInt16) (rest : Bytes) :
    unitsLoop offset acc (b :: rest) = unitsLoop (offset + 1) (b.toUInt16 :: acc) rest := by
  rw [unitsLoop.eq_def]
  exact if_pos h

/-- One written unit, in front of any bytes. -/
@[simp] theorem unitsLoop_unitBytes (u : UInt16) (offset : Nat) (acc : List UInt16) (rest : Bytes) :
    unitsLoop offset acc (unitBytes u ++ rest) =
      unitsLoop (offset + (unitBytes u).length) (u :: acc) rest := by
  have hlt := u.toNat_lt
  rcases unit_cases u with h | h | h
  · have hb : (UInt8.ofNat u.toNat).toNat = u.toNat := by
      rw [UInt8.toNat_ofNat']
      omega
    have hone : UInt8.ofNat u.toNat < 0x80 := by
      rw [UInt8.lt_iff_toNat_lt, hb]
      exact Nat.lt_succ_of_le h.2
    have hu : (UInt8.ofNat u.toNat).toUInt16 = u := by
      rw [← UInt16.toNat_inj, UInt8.toNat_toUInt16, hb]
    rw [unitBytes_one h, List.singleton_append, unitsLoop_one hone, hu]
    rfl
  · obtain ⟨h₁, h₂, h₃⟩ := head_two_facts (u.toNat / 64) (by omega)
    obtain ⟨ht, hbits⟩ := tail_facts (u.toNat % 64) (by omega)
    have hu : UInt16.ofNat (u.toNat / 64) <<< 6 ||| UInt16.ofNat (u.toNat % 64) = u := by
      rw [shiftLeft_or (by omega) (by omega), Nat.div_add_mod', UInt16.ofNat_toNat]
    rw [unitBytes_two h, List.cons_append, List.singleton_append, unitsLoop, if_neg h₁, if_pos h₂]
    simp only [ht, hbits, h₃, hu, if_true]
    rfl
  · obtain ⟨h₁, h₂, h₃, h₄⟩ := head_three_facts (u.toNat / 4096) (by omega)
    obtain ⟨ht, hbits⟩ := tail_facts (u.toNat / 64 % 64) (by omega)
    obtain ⟨ht', hbits'⟩ := tail_facts (u.toNat % 64) (by omega)
    have hu : UInt16.ofNat (u.toNat / 4096) <<< 12 ||| UInt16.ofNat (u.toNat / 64 % 64) <<< 6 |||
        UInt16.ofNat (u.toNat % 64) = u := by
      rw [shiftLeft_or_shiftLeft _ (by omega) _ (by omega), shiftLeft_or (by omega) (by omega)]
      rw [← UInt16.toNat_inj, UInt16.toNat_ofNat']
      omega
    rw [unitBytes_three h, List.cons_append, List.cons_append, List.singleton_append, unitsLoop,
      if_neg h₁, if_neg (Bool.eq_false_iff.mp h₂), if_pos h₃]
    simp only [ht, hbits, ht', hbits', h₄, hu, Bool.and_self, if_true]
    rfl

@[simp] theorem unitsLoop_units (us : List UInt16) (offset : Nat) (acc : List UInt16) :
    unitsLoop offset acc (us.flatMap unitBytes) = .ok (acc.reverse ++ us) := by
  induction us generalizing offset acc with
  | nil => simp [unitsLoop]
  | cons u us ih => simp [ih]

/-- **A written text reads back as the text.** -/
@[simp] theorem decode_bytes (s : String) : decode (bytes s) = .ok s := by
  have h : decodeUnits (bytes s) = .ok (Utf16.units s) := unitsLoop_units _ 0 []
  rw [decode, h]
  exact congrArg Except.ok (Utf16.lossy_units s)

end Wireform.ModifiedUtf8
