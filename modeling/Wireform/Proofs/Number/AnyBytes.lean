import Wireform.Proofs.Frame.Answers
import Wireform.Proofs.Number
import Mathlib.Algebra.BigOperators.Intervals
import Mathlib.Algebra.BigOperators.Ring.Finset

/-!
# Numbers in any bytes

What is read for a number is settled by the first byte that is not continued: where it stands, and
the low seven bits of the bytes up to it.  The lengths in front of frames are read by a loop of
their own, which allows three bytes and waits where a buffer underflows.  On the bytes that both
take for a number they agree.
-/

namespace Wireform

namespace VarInt

variable {s front rest : Bytes} {width i : Nat}

/-! ### Digits -/

/-- The number whose digits to base 128 are the low seven bits of the first `n` bytes, the lowest
digit first. -/
def digitSum (n : Nat) (s : Bytes) : Nat :=
  ∑ j ∈ Finset.range n, (s.getD j 0).toNat % 128 * 128 ^ j

@[simp] theorem digitSum_zero (s : Bytes) : digitSum 0 s = 0 := rfl

@[simp] theorem digitSum_succ (n : Nat) (b : UInt8) (s : Bytes) :
    digitSum (n + 1) (b :: s) = b.toNat % 128 + digitSum n s * 128 := by
  rw [digitSum, Finset.sum_range_succ', digitSum, Finset.sum_mul, Nat.add_comm]
  simp only [List.getD_cons_zero, List.getD_cons_succ, pow_zero, mul_one, pow_succ, mul_assoc]

namespace Numeral

variable {d : Numeral}

/-- The number of a numeral is the sum of its digits. -/
@[simp] theorem digitSum_bytes (d : Numeral) (rest : Bytes) :
    digitSum d.width (d.bytes ++ rest) = d.value := by
  induction d with
  | last b hb =>
    have hlt : b.toNat < 128 := UInt8.lt_iff_toNat_lt.mp hb
    show digitSum 1 (b :: rest) = b.toNat
    simp [Nat.mod_eq_of_lt hlt]
  | more b hb d ih =>
    show digitSum (d.width + 1) (b :: (d.bytes ++ rest)) = b.toNat % 128 + d.value * 128
    simp [ih]

/-- The last byte of a numeral is the first that is not continued. -/
theorem findIdx?_bytes (d : Numeral) (rest : Bytes) :
    ∃ i, (d.bytes ++ rest).findIdx? (· < 128) = some i ∧ d.width = i + 1 := by
  induction d with
  | last b hb => exact ⟨0, by simp [List.findIdx?_cons, hb], rfl⟩
  | more b hb d ih =>
    obtain ⟨i, hi, hwidth⟩ := ih
    refine ⟨i + 1, ?_, congrArg Nat.succ hwidth⟩
    rw [bytes, List.cons_append, List.findIdx?_cons, hi]
    simp [hb]

theorem width_of_findIdx? (h : (d.bytes ++ rest).findIdx? (· < 128) = some i) :
    d.width = i + 1 := by
  obtain ⟨j, hj, hwidth⟩ := d.findIdx?_bytes rest
  rw [hj, Option.some.injEq] at h
  rw [hwidth, h]

theorem not_continued (d : Numeral) : ¬ Continued d.bytes := by
  induction d with
  | last b hb => exact fun h => h b List.mem_cons_self hb
  | more b hb d ih => exact fun h => ih (continued_cons.mp h).2

/-- Bytes that hold a numeral are not all continued. -/
theorem not_continued_take (h : d.width ≤ width) (rest : Bytes) :
    ¬ Continued ((d.bytes ++ rest).take width) := by
  rw [List.take_append, List.take_of_length_le h]
  exact fun hs => d.not_continued fun b hb => hs b (List.mem_append_left _ hb)

theorem value_lt (d : Numeral) : d.value < 128 ^ d.width := by
  induction d with
  | last b hb => exact UInt8.lt_iff_toNat_lt.mp hb
  | more b hb d ih =>
    show b.toNat % 128 + d.value * 128 < 128 ^ (d.width + 1)
    rw [Nat.pow_succ]
    omega

/-- In three bytes no bit is dropped and the sign is not reached. -/
theorem toInt_int32 (h : d.width ≤ 3) : d.int32.toInt = d.value := by
  have hlt := d.value_lt
  have hle : 128 ^ d.width ≤ 128 ^ 3 := Nat.pow_le_pow_right (by decide) h
  exact toInt_ofNat_count (by omega)

end Numeral

theorem findIdx?_of_continued (h : Continued s) : s.findIdx? (· < 128) = none := by
  rw [List.findIdx?_eq_none_iff]
  exact fun b hb => decide_eq_false (h b hb)

/-- Behind continued bytes. -/
theorem le_of_findIdx? (hfront : Continued front)
    (h : (front ++ rest).findIdx? (· < 128) = some i) : front.length ≤ i := by
  rw [List.findIdx?_append, findIdx?_of_continued hfront, Option.none_or,
    Option.map_eq_some_iff] at h
  obtain ⟨j, -, rfl⟩ := h
  exact Nat.le_add_left _ _

end VarInt

namespace Buffer

open VarInt

variable {b : Buffer} {m : Action α} {keep : Nat → α} {tooBig : Fault} {most : Nat}

/-! ### Reads of numbers -/

/-- What a reader of numbers of at most `most` bytes does with the bytes left in `b`, whatever they
are: `keep` keeps what fits of a number. -/
structure ReadsNumber (m : Action α) (most : Nat) (keep : Nat → α) (tooBig : Fault) (b : Buffer) :
    Prop where
  /-- The first byte that is not continued is among the bytes allowed. -/
  ends : ∀ i < most, b.unread.findIdx? (· < 128) = some i →
    m b = .ok (keep (digitSum (i + 1) b.unread)) (b.advance (i + 1))
  /-- All of the bytes allowed are continued. -/
  endless : most ≤ b.unread.length → Continued (b.unread.take most) →
    m b = .error tooBig (b.advance most)
  /-- In any other case the bytes left are too few. -/
  short : (¬ ∃ i < most, b.unread.findIdx? (· < 128) = some i) →
    ¬ (most ≤ b.unread.length ∧ Continued (b.unread.take most)) →
    m b = .error (.underflow 1 0) (b.advance b.unreadSize)

/-- **By what the bytes left begin with**: a numeral, part of one, or too many continued bytes. -/
theorem readsNumber_of_run (hpos : 0 < most)
    (hrun : m b = Action.ofDecoder (reader tooBig most keep) b) :
    ReadsNumber m most keep tooBig b := by
  rcases numeral_cases most b.unread with
    ⟨d, rest, hd, hs⟩ | ⟨hlt, hs⟩ | ⟨front, rest, hlen, hs, hb⟩
  · have hok : reader tooBig most keep b.unread = .ok (keep d.value) rest :=
      hs ▸ decodes_reader hd rest
    have hcursor : b.leaving rest.length = b.advance d.width := leaving_of_unread hs
    rw [Action.ofDecoder_of_ok hok, hcursor] at hrun
    refine ⟨fun i _ hi => ?_, fun _ hall => ?_, fun hnone _ => ?_⟩
    · rw [hs] at hi ⊢
      rw [← Numeral.width_of_findIdx? hi, d.digitSum_bytes rest, hrun]
    · exact absurd (hs ▸ hall) (Numeral.not_continued_take hd rest)
    · obtain ⟨i, hi, hwidth⟩ := d.findIdx?_bytes rest
      exact absurd ⟨i, by omega, hs ▸ hi⟩ hnone
  · rw [Action.ofDecoder_of_error (reader_of_short hlt hs), List.length_nil, leaving_zero] at hrun
    refine ⟨fun i _ hi => ?_, fun hle _ => absurd hlt (Nat.not_lt_of_le hle), fun _ _ => hrun⟩
    rw [findIdx?_of_continued hs] at hi
    cases hi
  · have herror : reader tooBig most keep b.unread = .error tooBig rest :=
      hb ▸ reader_of_long hlen hs rest
    have hne : front ≠ [] := List.ne_nil_of_length_pos (hlen ▸ hpos)
    rw [Action.ofDecoder_of_error herror, leaving_of_unread hb, hlen] at hrun
    refine ⟨fun i hi hfind => ?_, fun _ _ => hrun, fun _ hnot => absurd ⟨?_, ?_⟩ hnot⟩
    · have hle := le_of_findIdx? hs (hb ▸ hfind)
      omega
    · rw [hb, List.length_append, hlen]
      exact Nat.le_add_right _ _
    · rwa [hb, List.take_left' hlen]

theorem readVarInt32_run (hl : b.layout? = none) :
    readVarInt32 b = Action.ofDecoder (reader .malformedVarInt maxWidth32 Int32.ofNat) b := by
  rw [readVarInt32, bind_of_ok (checkField_of_none hl), decode32_eq_reader]

theorem read_varInt_run (hl : b.layout? = none) :
    read .varInt b =
      Action.ofDecoder (reader .malformedVarInt maxWidth32 fun n => .int32 (.ofNat n)) b := by
  rw [read_of_checkField (checkField_of_none hl), WireType.decode, decode32_eq_reader, reader_map]

theorem read_varLong_run (hl : b.layout? = none) :
    read .varLong b =
      Action.ofDecoder (reader .malformedVarLong maxWidth64 fun n => .int64 (.ofNat n)) b := by
  rw [read_of_checkField (checkField_of_none hl), WireType.decode, decode64_eq_reader, reader_map]

/-- A number is read from the numeral at the cursor. -/
theorem readVarInt32_eq_ok_iff (hl : b.layout? = none) {v : Int32} {n : Nat} :
    n ≤ b.unreadSize ∧ readVarInt32 b = .ok v (b.advance n) ↔
      ∃ (d : Numeral) (rest : Bytes), d.width ≤ maxWidth32 ∧ b.unread = d.bytes ++ rest ∧
        d.int32 = v ∧ d.width = n := by
  rw [readVarInt32_run hl, Action.ofDecoder_eq_ok_iff]
  simp only [reader_eq_ok_iff]
  constructor
  · rintro ⟨hn, rest, ⟨d, hd, hs, rfl⟩, hb⟩
    have hwidth : d.width ≤ b.unreadSize := length_le_unreadSize hs
    have hcursor : b.leaving rest.length = b.advance d.width := leaving_of_unread hs
    rw [hcursor, advance_inj hn hwidth] at hb
    exact ⟨d, rest, hd, hs, rfl, hb.symm⟩
  · rintro ⟨d, rest, hd, hs, rfl, rfl⟩
    exact ⟨length_le_unreadSize hs, rest, ⟨d, hd, hs, rfl⟩, (leaving_of_unread hs).symm⟩

theorem readVarInt32_underflow_iff (hl : b.layout? = none) :
    (∃ b', readVarInt32 b = .error (.underflow 1 0) b') ↔
      b.unread.length < maxWidth32 ∧ Continued b.unread := by
  rw [readVarInt32_run hl]
  simp only [Action.ofDecoder_eq_error_iff]
  constructor
  · rintro ⟨b', left, h, -⟩
    rcases numeral_cases maxWidth32 b.unread with ⟨d, rest, hd, hs⟩ | hshort |
      ⟨front, rest, hlen, hs, hb⟩
    · rw [hs, decodes_reader hd rest] at h
      cases h
    · exact hshort
    · rw [hb, reader_of_long hlen hs] at h
      cases h
  · rintro ⟨hlt, hs⟩
    exact ⟨_, [], reader_of_short hlt hs, rfl⟩

end Buffer

/-! ### Lengths of frames -/

namespace Frame

open VarInt (Numeral Continued numeral_cases)

variable {s : Bytes} {n len : Nat} {b : Buffer}

theorem header_of_short (hlt : s.length < maxLengthWidth) (hs : Continued s) :
    header s = .ok none := lengthGroups_of_short 0 1 0 hlt hs

theorem header_of_long {front : Bytes} (hlen : front.length = maxLengthWidth)
    (hs : Continued front) (rest : Bytes) : header (front ++ rest) = .error .malformedVarInt :=
  lengthGroups_of_long rest 0 1 0 hlen hs

@[simp] theorem header_eq_some_iff :
    header s = .ok (some (n, len)) ↔ ∃ (d : Numeral) (rest : Bytes), d.width ≤ maxLengthWidth ∧
      s = d.bytes ++ rest ∧ d.width = n ∧ d.value = len := by
  constructor
  · intro h
    rcases numeral_cases maxLengthWidth s with ⟨d, rest, hd, rfl⟩ | ⟨hlt, hs⟩ |
      ⟨front, rest, hlen, hs, rfl⟩
    · rw [header_numeral hd] at h
      cases h
      exact ⟨d, rest, hd, rfl, rfl, rfl⟩
    · rw [header_of_short hlt hs] at h
      cases h
    · rw [header_of_long hlen hs] at h
      cases h
  · rintro ⟨d, rest, hd, rfl, rfl, rfl⟩
    exact header_numeral hd rest

@[simp]
theorem header_eq_none_iff : header s = .ok none ↔ s.length < maxLengthWidth ∧ Continued s := by
  constructor
  · intro h
    rcases numeral_cases maxLengthWidth s with ⟨d, rest, hd, rfl⟩ | hshort |
      ⟨front, rest, hlen, hs, rfl⟩
    · rw [header_numeral hd] at h
      cases h
    · exact hshort
    · rw [header_of_long hlen hs] at h
      cases h
  · rintro ⟨hlt, hs⟩
    exact header_of_short hlt hs

/-- A length is found, or awaited, or refused. -/
theorem header_cases (s : Bytes) :
    (∃ n len, header s = .ok (some (n, len))) ∨ header s = .ok none ∨
      header s = .error .malformedVarInt := by
  rcases numeral_cases maxLengthWidth s with ⟨d, rest, hd, rfl⟩ | ⟨hlt, hs⟩ |
    ⟨front, rest, hlen, hs, rfl⟩
  · exact .inl ⟨_, _, header_numeral hd rest⟩
  · exact .inr (.inl (header_of_short hlt hs))
  · exact .inr (.inr (header_of_long hlen hs rest))

/-- A length is found where a number of as many bytes is read, the three that a length may take. -/
theorem header_eq_some_iff_readVarInt32 (hl : b.layout? = none) :
    header b.unread = .ok (some (n, len)) ↔ n ≤ maxLengthWidth ∧ ∃ v : Int32, v.toInt = len ∧
      n ≤ b.unreadSize ∧ Buffer.readVarInt32 b = .ok v (b.advance n) := by
  simp only [header_eq_some_iff, Buffer.readVarInt32_eq_ok_iff hl]
  constructor
  · rintro ⟨d, rest, hd, hs, rfl, rfl⟩
    exact ⟨hd, d.int32, Numeral.toInt_int32 hd, d, rest, Nat.le_trans hd (by decide), hs, rfl, rfl⟩
  · rintro ⟨hn, _, hlen, d, rest, -, hs, rfl, rfl⟩
    rw [Numeral.toInt_int32 hn, Int.natCast_inj] at hlen
    exact ⟨d, rest, hn, hs, rfl, hlen⟩

/-- A length is awaited where a number underflows and fewer than three bytes are left. -/
theorem header_eq_none_iff_readVarInt32 (hl : b.layout? = none) :
    header b.unread = .ok none ↔ b.unread.length < maxLengthWidth ∧
      ∃ b', Buffer.readVarInt32 b = .error (.underflow 1 0) b' := by
  rw [header_eq_none_iff, Buffer.readVarInt32_underflow_iff hl]
  have hwidth : maxLengthWidth < VarInt.maxWidth32 := by decide
  exact and_congr_right fun hlt => (and_iff_right (Nat.lt_trans hlt hwidth)).symm

end Frame

namespace Buffer

open VarInt

/-- **Exactly what is read for a number from any bytes.**  Up to five bytes give a 32-bit number and
up to ten a 64-bit one, whose bits beyond the word are dropped; the first byte that is not continued
ends it.  The length of a frame is found where such a number takes at most three bytes, awaited
where one underflows with fewer than three left, and refused in any other case. -/
theorem numbers_of_bytes (b : Buffer) (hl : b.layout? = none) :
    ReadsNumber readVarInt32 5 Int32.ofNat .malformedVarInt b ∧
    ReadsNumber (read .varInt) 5 (fun n => .int32 (Int32.ofNat n)) .malformedVarInt b ∧
    ReadsNumber (read .varLong) 10 (fun n => .int64 (Int64.ofNat n)) .malformedVarLong b ∧
    (∀ n len, Frame.header b.unread = .ok (some (n, len)) ↔
      n ≤ 3 ∧ ∃ v : Int32, v.toInt = len ∧
        n ≤ b.unreadSize ∧ readVarInt32 b = .ok v (b.advance n)) ∧
    (Frame.header b.unread = .ok none ↔
      b.unread.length < 3 ∧ ∃ b', readVarInt32 b = .error (.underflow 1 0) b') ∧
    ((¬ ∃ n len : Nat, n ≤ 3 ∧ ∃ v : Int32, v.toInt = len ∧
        n ≤ b.unreadSize ∧ readVarInt32 b = .ok v (b.advance n)) →
      ¬ (b.unread.length < 3 ∧ ∃ b', readVarInt32 b = .error (.underflow 1 0) b') →
      Frame.header b.unread = .error .malformedVarInt) := by
  have hsome (n len : Nat) : Frame.header b.unread = .ok (some (n, len)) ↔ _ :=
    Frame.header_eq_some_iff_readVarInt32 hl
  have hnone := Frame.header_eq_none_iff_readVarInt32 hl
  refine ⟨readsNumber_of_run (by decide) (readVarInt32_run hl),
    readsNumber_of_run (by decide) (read_varInt_run hl),
    readsNumber_of_run (by decide) (read_varLong_run hl), hsome, hnone, fun hfound hawaited => ?_⟩
  rcases Frame.header_cases b.unread with ⟨n, len, h⟩ | h | h
  · exact absurd ⟨n, len, (hsome n len).mp h⟩ hfound
  · exact absurd (hnone.mp h) hawaited
  · exact h

/-- A number in three bytes that one would do for, as a number and as a length. -/
theorem numbers_of_bytes_overlong :
    let b := ofBytes [0x82, 0x80, 0x00, 7]
    b.layout? = none ∧ readVarInt32 b = .ok 2 (b.advance 3) ∧
      Frame.header b.unread = .ok (some (3, 2)) := by
  intro b
  obtain ⟨⟨hends, -, -⟩, -, -, hsome, -, -⟩ := numbers_of_bytes b rfl
  have hsum : digitSum 3 b.unread = 2 := by decide
  have hread : readVarInt32 b = .ok (Int32.ofNat (digitSum 3 b.unread)) (b.advance 3) :=
    hends 2 (by decide) (by decide)
  rw [hsum] at hread
  exact ⟨rfl, hread, (hsome 3 2).mpr ⟨by decide, 2, rfl, by decide, hread⟩⟩

end Buffer

end Wireform
