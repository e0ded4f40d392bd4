import Wireform.Text.Utf8
import Wireform.Proofs.Text.Utf16

/-!
# UTF-8 reads back

The scan goes through the bytes of one character and comes out with that character, so a text
written in UTF-8 reads back as the text.  Texts are in the order of their bytes (`encode_lt`).
-/

namespace Wireform.Utf8

/-! ### First bytes -/

theorem lead_one : ∀ n < 0x80, lead (UInt8.ofNat n) = .char (Char.ofNat n) := by
  decide +kernel

theorem lead_two : ∀ n < 32, 2 ≤ n → lead (UInt8.ofNat (n + 0xC0)) = .more ⟨n, 1, 0x80, 0xBF⟩ := by
  decide

/-- Below `0x800` a character takes two bytes, and the surrogates are none. -/
theorem lead_three : ∀ n < 16, lead (UInt8.ofNat (n + 0xE0)) =
    .more ⟨n, 2, if n = 0 then 0xA0 else 0x80, if n = 13 then 0x9F else 0xBF⟩ := by
  decide

/-- Below `0x10000` a character takes three bytes, and `0x10FFFF` is the last. -/
theorem lead_four : ∀ n < 5, lead (UInt8.ofNat (n + 0xF0)) =
    .more ⟨n, 3, if n = 0 then 0x90 else 0x80, if n = 4 then 0x8F else 0xBF⟩ := by
  decide

theorem step_lead {b : UInt8} {p : Partial} (h : lead b = .more p) (cs : List Char) :
    Scan.step ⟨cs, none⟩ b = ⟨cs, some p⟩ := by
  simp only [Scan.step, Scan.start, h]

/-! ### Bytes owed -/

/-- A byte within the bounds, when more are owed behind it. -/
theorem step_more {bits owed n : Nat} {low high : UInt8} (hn : n < 64) (ho : 1 < owed)
    (hlow : low.toNat ≤ n + 0x80) (hhigh : n + 0x80 ≤ high.toNat) (cs : List Char) :
    Scan.step ⟨cs, some ⟨bits, owed, low, high⟩⟩ (UInt8.ofNat (n + 0x80)) =
      ⟨cs, some ⟨bits * 64 + n, owed - 1, 0x80, 0xBF⟩⟩ := by
  have hb : (UInt8.ofNat (n + 0x80)).toNat = n + 0x80 := by
    rw [UInt8.toNat_ofNat']
    omega
  have hin : low ≤ UInt8.ofNat (n + 0x80) ∧ UInt8.ofNat (n + 0x80) ≤ high := by
    rw [UInt8.le_iff_toNat_le, UInt8.le_iff_toNat_le, hb]
    exact ⟨hlow, hhigh⟩
  simp only [Scan.step, if_pos hin, hb, Nat.add_sub_cancel]
  rw [if_neg (by omega)]

/-- The last byte owed. -/
theorem step_last {bits n : Nat} {low high : UInt8} (hn : n < 64)
    (hlow : low.toNat ≤ n + 0x80) (hhigh : n + 0x80 ≤ high.toNat) (cs : List Char) :
    Scan.step ⟨cs, some ⟨bits, 1, low, high⟩⟩ (UInt8.ofNat (n + 0x80)) =
      ⟨Char.ofNat (bits * 64 + n) :: cs, none⟩ := by
  have hb : (UInt8.ofNat (n + 0x80)).toNat = n + 0x80 := by
    rw [UInt8.toNat_ofNat']
    omega
  have hin : low ≤ UInt8.ofNat (n + 0x80) ∧ UInt8.ofNat (n + 0x80) ≤ high := by
    rw [UInt8.le_iff_toNat_le, UInt8.le_iff_toNat_le, hb]
    exact ⟨hlow, hhigh⟩
  simp only [Scan.step, if_pos hin, hb, Nat.add_sub_cancel]
  rw [if_pos (Nat.le_refl 1)]

/-! ### Characters and texts -/

/-- **One character**: the scan comes out of its bytes with the character. -/
@[simp] theorem foldl_encodeChar (c : Char) (cs : List Char) :
    (String.utf8EncodeChar c).foldl Scan.step ⟨cs, none⟩ = ⟨c :: cs, none⟩ := by
  have hc : Char.ofNat c.val.toNat = c := Char.ofNat_toNat c
  have hcases := Utf16.toNat_cases c
  rw [← Char.toNat_val] at hcases
  unfold String.utf8EncodeChar
  simp only
  generalize c.val.toNat = v at hc hcases ⊢
  split_ifs with h₁ h₂ h₃
  · have hl := lead_one v (by omega)
    simp only [List.foldl_cons, List.foldl_nil, Scan.step, Scan.start, hl, hc]
  · have hl := lead_two (v / 64 % 0x20) (by omega) (by omega)
    have hsum : v / 64 % 0x20 * 64 + v % 0x40 = v := by omega
    rw [List.foldl_cons, step_lead hl, List.foldl_cons,
      step_last (by omega) (by simp) (by simp; omega), hsum, hc, List.foldl_nil]
  · have hl := lead_three (v / 4096 % 0x10) (by omega)
    have hsum : (v / 4096 % 0x10 * 64 + v / 64 % 0x40) * 64 + v % 0x40 = v := by omega
    rw [List.foldl_cons, step_lead hl, List.foldl_cons,
      step_more (by omega) (by omega) (by split_ifs <;> simp; omega)
        (by split_ifs <;> simp <;> omega),
      List.foldl_cons, step_last (by omega) (by simp) (by simp; omega), hsum, hc, List.foldl_nil]
  · have hl := lead_four (v / 262144 % 0x08) (by omega)
    have hsum : ((v / 262144 % 0x08 * 64 + v / 4096 % 0x40) * 64 + v / 64 % 0x40) * 64 +
        v % 0x40 = v := by omega
    rw [List.foldl_cons, step_lead hl, List.foldl_cons,
      step_more (by omega) (by omega) (by split_ifs <;> simp; omega)
        (by split_ifs <;> simp <;> omega),
      List.foldl_cons, step_more (by omega) (by omega) (by simp) (by simp; omega),
      List.foldl_cons, step_last (by omega) (by simp) (by simp; omega), hsum, hc, List.foldl_nil]

@[simp] theorem foldl_encodeChars (cs done : List Char) :
    (cs.flatMap String.utf8EncodeChar).foldl Scan.step ⟨done, none⟩ =
      ⟨cs.reverse ++ done, none⟩ := by
  induction cs generalizing done with
  | nil => rfl
  | cons c cs ih => simp [ih]

/-- **A text written in UTF-8 reads back as the text.** -/
@[simp] theorem lossy_encode (s : String) : lossy (encode s) = s := by
  simp [lossy, lossyChars, encode, Scan.finish]

/-- Four bytes are the form of a character of two units. -/
theorem length_encodeChar_le (c : Char) :
    (String.utf8EncodeChar c).length ≤ 3 * Utf16.charSize c := by
  have hle := Char.utf8Size_le_four c
  rw [String.length_utf8EncodeChar]
  unfold Utf16.charSize
  split_ifs with hc
  · have hne : c.utf8Size ≠ 4 := by
      rw [Ne, Char.utf8Size_eq_four_iff, UInt32.lt_iff_toNat_lt, Char.toNat_val]
      simp only [UInt32.reduceToNat]
      omega
    omega
  · omega

/-! ### Order -/

/-- The form of a character is below that of every greater one, whatever follows: it begins with a
smaller byte, or goes on with one. -/
theorem encodeChar_append_lt {c d : Char} (h : c < d) (rest rest' : List UInt8) :
    String.utf8EncodeChar c ++ rest < String.utf8EncodeChar d ++ rest' := by
  have hcases := Utf16.toNat_cases d
  rw [← Char.toNat_val] at hcases
  have hlt : c.val.toNat < d.val.toNat := h
  -- the bytes are digits to base 64, each of what the one before is a digit of
  have hsecond (n : Nat) : n / 4096 = n / 64 / 64 := (Nat.div_div_eq_div_mul n 64 64).symm
  have hthird (n : Nat) : n / 262144 = n / 64 / 64 / 64 := by
    rw [← hsecond, Nat.div_div_eq_div_mul]
  unfold String.utf8EncodeChar
  simp only
  generalize c.val.toNat = v at hlt
  generalize d.val.toNat = w at hlt hcases
  split_ifs <;>
    simp only [List.cons_append, List.nil_append, List.cons_lt_cons_iff, UInt8.lt_iff_toNat_lt,
      ← UInt8.toNat_inj, UInt8.toNat_ofNat', hsecond, hthird] <;> omega

theorem encodeChars_lt : ∀ {cs ds : List Char}, cs < ds →
    cs.flatMap String.utf8EncodeChar < ds.flatMap String.utf8EncodeChar
  | [], d :: ds, _ => by
    rw [List.flatMap_cons]
    cases h : String.utf8EncodeChar d with
    | nil => exact absurd h String.utf8EncodeChar_ne_nil
    | cons b bytes => exact List.nil_lt_cons b _
  | c :: cs, d :: ds, h => by
    rw [List.flatMap_cons, List.flatMap_cons]
    rcases List.cons_lt_cons_iff.mp h with hlt | ⟨rfl, hlt⟩
    · exact encodeChar_append_lt hlt _ _
    · exact List.append_left_lt (encodeChars_lt hlt)

/-- **Texts are in the order of their bytes.** -/
theorem encode_lt {s t : String} (h : s < t) : encode s < encode t := encodeChars_lt h

end Wireform.Utf8
