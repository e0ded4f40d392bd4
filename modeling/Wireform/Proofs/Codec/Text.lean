import Wireform.Proofs.Codec.Consumption
import Wireform.Proofs.Buffer
import Wireform.Proofs.Numeral
import Wireform.Proofs.Text.Lossy

/-!
# What texts are read from

A text is refused by its count before its bytes are looked at, and by its units afterwards.  The
first check allows four bytes for a unit and no reading takes more than three, so only the second
check decides (`text_eq_ok_iff`).
-/

namespace Wireform

/-! ### The text decoder -/

namespace Decode

variable {max : Nat} {src rest : Bytes} {s : String}

/-- A count of bytes that are not too many in units is let pass. -/
theorem le_satMul_of_units {v : Int32} {raw : Bytes} (hv : v.toInt = raw.length)
    (hunits : Utf16.length (Utf8.lossy raw) ≤ max) : v.toInt.toNat ≤ satMul max 4 := by
  have hdeclared := toNat_toInt_le v
  have hraw := Utf8.length_le_length_lossy raw
  unfold maxDeclared at hdeclared
  unfold satMul sizeMax
  omega

/-- **A text is read** from a count that is not negative and as many bytes, if what they are read
as has no more units than allowed: the check of the count refuses nothing else. -/
theorem text_eq_ok_iff :
    text max src = .ok s rest ↔
      ∃ (count : VarInt.Numeral) (raw : Bytes), count.width ≤ VarInt.maxWidth32 ∧
        src = count.bytes ++ (raw ++ rest) ∧ count.int32.toInt = raw.length ∧
        Utf16.length (Utf8.lossy raw) ≤ max ∧ s = Utf8.lossy raw := by
  unfold text
  simp only [bind_eq_ok_iff, guard_eq_ok_iff, Decoder.take_eq_ok_iff, VarInt.decode32_eq_ok_iff]
  constructor
  · rintro ⟨_, _, ⟨count, hwidth, rfl, rfl⟩, hallowed, raw, _, ⟨rfl, hlen⟩, hunits, ⟨⟩⟩
    rw [lt_zero_iff] at hallowed
    exact ⟨count, raw, hwidth, rfl, by omega, by omega, rfl⟩
  · rintro ⟨count, raw, hwidth, rfl, hlen, hunits, rfl⟩
    have hle := le_satMul_of_units hlen hunits
    refine ⟨_, _, ⟨count, hwidth, rfl, rfl⟩, ?_, raw, rest, ⟨rfl, by omega⟩, by omega, rfl⟩
    rw [lt_zero_iff]
    omega

end Decode

/-! ### Texts of a buffer -/

namespace Buffer

/-- **The check of the count changes nothing.**  A text is read from a buffer without a layout if
and only if a count that is not negative and as many bytes stand at the cursor and what these are
read as has no more units than allowed.  Nothing else is returned, and nothing else is consumed. -/
theorem readText_eq_ok_iff {b b' : Buffer} (hl : b.layout? = none) {max : Nat} {s : String} :
    b.readText max = .ok s b' ↔
      ∃ (count : VarInt.Numeral) (raw rest : Bytes), count.width ≤ VarInt.maxWidth32 ∧
        b.unread = count.bytes ++ (raw ++ rest) ∧ count.int32.toInt = raw.length ∧
        Utf8.ReadsAs raw s.toList ∧ Utf16.length s ≤ max ∧
        b' = b.advance (count.width + raw.length) := by
  have hcursor {count : VarInt.Numeral} {raw rest : Bytes}
      (h : b.unread = count.bytes ++ (raw ++ rest)) :
      b.leaving rest.length = b.advance (count.width + raw.length) := by
    rw [← List.append_assoc] at h
    rw [leaving_of_unread h, List.length_append, VarInt.Numeral.width]
  rw [readText_of_checkField max (checkField_of_none hl), Action.ofDecoder_eq_ok_iff]
  simp only [Decode.text_eq_ok_iff, Utf8.readsAs_toList_iff]
  constructor
  · rintro ⟨rest, ⟨count, raw, hwidth, hunread, hlen, hunits, rfl⟩, rfl⟩
    exact ⟨count, raw, rest, hwidth, hunread, hlen, rfl, hunits, by rw [hcursor hunread]⟩
  · rintro ⟨count, raw, rest, hwidth, hunread, hlen, rfl, hunits, rfl⟩
    exact ⟨rest, ⟨count, raw, hwidth, hunread, hlen, hunits, rfl⟩, by rw [hcursor hunread]⟩

/-- Three bytes of a character of four are one unit, here behind a count in two bytes for one. -/
theorem readText_truncated :
    let b := ofBytes [0x83, 0x00, 0xF0, 0x9F, 0x98, 7]
    b.layout? = none ∧ b.readText 1 = .ok "\uFFFD" (b.advance 5) := by
  intro b
  let count : VarInt.Numeral := .more 0x83 (by decide) (.last 0x00 (by decide))
  have hreads : Utf8.ReadsAs [0xF0, 0x9F, 0x98] "\uFFFD".toList :=
    Utf8.readsAs_toList_iff.mpr (by decide)
  exact ⟨rfl, (readText_eq_ok_iff rfl).mpr
    ⟨count, [0xF0, 0x9F, 0x98], [7], by decide, rfl, by decide, hreads, by decide, rfl⟩⟩

end Buffer

end Wireform
