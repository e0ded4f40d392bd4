import Wireform.Proofs.Text.Groups
import Mathlib.Algebra.Ring.Nat

/-!
# Modified UTF-8 both ways

Each unit of a text is written in one, two or three bytes, none of them zero or above `0xEF`, and
the length of the whole alone decides whether the text can be written.  The reader never looks for
the first byte of a group beyond the end, accepts exactly groups in a row, and answers one unit for
each group, with the replacement character for every half of a surrogate pair that stands alone.
-/

namespace Wireform.ModifiedUtf8

/-! ### Written texts -/

/-- The number of bytes of a unit. -/
def unitSize (u : UInt16) : Nat :=
  if 0x0001 ≤ u ∧ u ≤ 0x007F then 1
  else if u = 0x0000 ∨ 0x0080 ≤ u ∧ u ≤ 0x07FF then 2
  else 3

theorem length_unitBytes (u : UInt16) : (unitBytes u).length = unitSize u := by
  unfold unitSize
  simp only [UInt16.le_iff_toNat_le, ← UInt16.toNat_inj, UInt16.reduceToNat]
  rcases unit_cases u with h | h | h
  · rw [unitBytes_one h, if_pos (by omega)]
    rfl
  · rw [unitBytes_two h, if_neg (by omega), if_pos (by omega)]
    rfl
  · rw [unitBytes_three h, if_neg (by omega), if_neg (by omega)]
    rfl

/-- The length of the written form, unit by unit. -/
theorem size_eq_sum (s : String) : size s = ((Utf16.units s).map unitSize).sum := by
  rw [size, bytes, List.length_flatMap]
  exact congrArg List.sum (List.map_congr_left fun u _ => length_unitBytes u)

/-- No byte of a unit is zero, and none is larger than the first of three. -/
theorem bounds_of_mem_unitBytes {u : UInt16} {b : UInt8} (h : b ∈ unitBytes u) :
    b ≠ 0 ∧ b ≤ 0xEF := by
  have hu := u.toNat_lt
  have hbounds {n : Nat} (hpos : 0 < n) (hle : n ≤ 0xEF) :
      UInt8.ofNat n ≠ 0 ∧ UInt8.ofNat n ≤ 0xEF := by
    simp only [ne_eq, ← UInt8.toNat_inj, UInt8.le_iff_toNat_le, UInt8.toNat_ofNat',
      UInt8.reduceToNat]
    omega
  rcases unit_cases u with hcase | hcase | hcase
  · rw [unitBytes_one hcase, List.mem_singleton] at h
    exact h ▸ hbounds (by omega) (by omega)
  · rw [unitBytes_two hcase] at h
    simp only [List.mem_cons, List.not_mem_nil, or_false] at h
    rcases h with rfl | rfl <;> exact hbounds (by omega) (by omega)
  · rw [unitBytes_three hcase] at h
    simp only [List.mem_cons, List.not_mem_nil, or_false] at h
    rcases h with rfl | rfl | rfl <;> exact hbounds (by omega) (by omega)

/-! ### Reading by position -/

/-- The reader as it stands at a position, the units read so far in reverse. The bytes behind the
first of a group are looked for; the first is not, and `none` says that it was beyond the end. -/
def scan (raw : Bytes) (i : Nat) (acc : List UInt16) :
    Option (Except Nbt.ReadFault (List UInt16)) :=
  if _h : i < raw.length then
    match raw[i]? with
    | none => none
    | some b =>
      if b >>> 4 ≤ 7 then scan raw (i + 1) (b.toUInt16 :: acc)
      else if b >>> 4 = 12 ∨ b >>> 4 = 13 then
        match raw[i + 1]? with
        | none => some (.error (.malformedText i))
        | some b₂ =>
          if isTail b₂ then
            scan raw (i + 2) (((b &&& 0x1F).toUInt16 <<< 6 ||| tailBits b₂) :: acc)
          else some (.error (.malformedText (i + 1)))
      else if b >>> 4 = 14 then
        match raw[i + 1]?, raw[i + 2]? with
        | some b₂, some b₃ =>
          if isTail b₂ && isTail b₃ then
            scan raw (i + 3)
              (((b &&& 0x0F).toUInt16 <<< 12 ||| tailBits b₂ <<< 6 ||| tailBits b₃) :: acc)
          else some (.error (.malformedText (i + 1)))
        | _, _ => some (.error (.malformedText i))
      else some (.error (.malformedText i))
  else some (.ok acc.reverse)
termination_by raw.length - i

theorem shift_one_iff : ∀ b : UInt8, b >>> 4 ≤ 7 ↔ b < 0x80 := by decide +kernel

theorem shift_two_iff : ∀ b : UInt8,
    (b >>> 4 = 12 ∨ b >>> 4 = 13) ↔ (b &&& 0xE0 == 0xC0) = true := by
  decide +kernel

theorem shift_three_iff : ∀ b : UInt8, b >>> 4 = 14 ↔ (b &&& 0xF0 == 0xE0) = true := by
  decide +kernel

/-- The high half of the first byte of a group says how many bytes it has. -/
theorem unitsLoop_cons (offset : Nat) (acc : List UInt16) (b : UInt8) (rest : Bytes) :
    unitsLoop offset acc (b :: rest) =
      if b >>> 4 ≤ 7 then unitsLoop (offset + 1) (b.toUInt16 :: acc) rest
      else if b >>> 4 = 12 ∨ b >>> 4 = 13 then
        match rest with
        | b₂ :: rest =>
          if isTail b₂ then
            unitsLoop (offset + 2) (((b &&& 0x1F).toUInt16 <<< 6 ||| tailBits b₂) :: acc) rest
          else .error (.malformedText (offset + 1))
        | [] => .error (.malformedText offset)
      else if b >>> 4 = 14 then
        match rest with
        | b₂ :: b₃ :: rest =>
          if isTail b₂ && isTail b₃ then
            unitsLoop (offset + 3)
              (((b &&& 0x0F).toUInt16 <<< 12 ||| tailBits b₂ <<< 6 ||| tailBits b₃) :: acc) rest
          else .error (.malformedText (offset + 1))
        | _ => .error (.malformedText offset)
      else .error (.malformedText offset) := by
  simp only [shift_one_iff, shift_two_iff, shift_three_iff]
  exact unitsLoop.eq_def offset acc (b :: rest)

theorem drop_of_some {raw : Bytes} {i : Nat} {b : UInt8} (h : raw[i]? = some b) :
    raw.drop i = b :: raw.drop (i + 1) := by
  rw [List.drop_eq_getElem?_toList_append, h]
  rfl

theorem drop_of_none {raw : Bytes} {i : Nat} (h : raw[i]? = none) : raw.drop i = [] :=
  List.drop_eq_nil_of_le (List.getElem?_eq_none_iff.mp h)

/-- At a position the reader has the bytes from there on. -/
theorem scan_eq (raw : Bytes) (i : Nat) (acc : List UInt16) :
    scan raw i acc = some (unitsLoop i acc (raw.drop i)) := by
  fun_induction scan raw i acc with
  | case1 i acc hi hb =>
    rw [List.getElem?_eq_getElem hi] at hb
    cases hb
  | case2 i acc hi b hb hone ih =>
    rw [ih, drop_of_some hb, unitsLoop_cons, if_pos hone]
  | case3 i acc hi b hb hone htwo hb₂ =>
    rw [drop_of_some hb, drop_of_none hb₂, unitsLoop_cons, if_neg hone, if_pos htwo]
  | case4 i acc hi b hb hone htwo b₂ hb₂ htail ih =>
    rw [ih, drop_of_some hb, drop_of_some hb₂, unitsLoop_cons, if_neg hone, if_pos htwo]
    exact congrArg some (if_pos htail).symm
  | case5 i acc hi b hb hone htwo b₂ hb₂ htail =>
    rw [drop_of_some hb, drop_of_some hb₂, unitsLoop_cons, if_neg hone, if_pos htwo]
    exact congrArg some (if_neg htail).symm
  | case6 i acc hi b hb hone htwo hthree b₂ b₃ hb₃ hb₂ htail ih =>
    rw [ih, drop_of_some hb, drop_of_some hb₂, drop_of_some hb₃, unitsLoop_cons, if_neg hone,
      if_neg htwo, if_pos hthree]
    exact congrArg some (if_pos htail).symm
  | case7 i acc hi b hb hone htwo hthree b₂ b₃ hb₃ hb₂ htail =>
    rw [drop_of_some hb, drop_of_some hb₂, drop_of_some hb₃, unitsLoop_cons, if_neg hone,
      if_neg htwo, if_pos hthree]
    exact congrArg some (if_neg htail).symm
  | case8 i acc hi b hb hone htwo hthree hshort =>
    rw [drop_of_some hb, unitsLoop_cons, if_neg hone, if_neg htwo, if_pos hthree]
    -- the end cuts the group short: one byte of it is left, or two
    cases hb₂ : raw[i + 1]? with
    | none => rw [drop_of_none hb₂]
    | some b₂ =>
      have hb₃ : raw[i + 2]? = none :=
        Option.eq_none_iff_forall_ne_some.mpr fun b₃ hb₃ => hshort b₂ b₃ hb₂ hb₃
      rw [drop_of_some hb₂, drop_of_none hb₃]
  | case9 i acc hi b hb hone htwo hthree =>
    rw [drop_of_some hb, unitsLoop_cons, if_neg hone, if_neg htwo, if_neg hthree]
  | case10 i acc hi =>
    rw [List.drop_eq_nil_of_le (Nat.not_lt.mp hi)]
    rfl

theorem decode_eq (raw : Bytes) : decode raw = (decodeUnits raw).map Utf16.lossy := by
  rw [decode]
  cases decodeUnits raw <;> rfl

/-- A fault is at a byte that there is. -/
theorem fault_of_unitsLoop {offset : Nat} {acc : List UInt16} {raw : Bytes} {e : Nbt.ReadFault}
    (h : unitsLoop offset acc raw = .error e) :
    ∃ k, k < offset + raw.length ∧ e = .malformedText k := by
  fun_induction unitsLoop offset acc raw with
  | case1 => cases h
  | case2 offset acc b rest hb ih =>
    obtain ⟨k, hk, rfl⟩ := ih h
    exact ⟨k, by rw [List.length_cons]; omega, rfl⟩
  | case3 offset acc b hb hhead b₂ rest htail ih =>
    obtain ⟨k, hk, rfl⟩ := ih h
    exact ⟨k, by simp only [List.length_cons]; omega, rfl⟩
  | case6 offset acc b hb htwo hhead b₂ b₃ rest htail ih =>
    obtain ⟨k, hk, rfl⟩ := ih h
    exact ⟨k, by simp only [List.length_cons]; omega, rfl⟩
  | _ =>
    cases h
    exact ⟨_, by simp only [List.length_cons]; omega, rfl⟩

/-! ### Both ways -/

/-- What comes of writing a text. -/
structure Writes (s : String) : Prop where
  /-- A text is refused for its size only, and the fault says how large it is. -/
  refused : ∀ e, encode s = .error e ↔
    65535 < ((Utf16.units s).map unitSize).sum ∧
      e = .textTooLong ((Utf16.units s).map unitSize).sum
  written : ((Utf16.units s).map unitSize).sum ≤ 65535 → ∃ out, encode s = .ok out ∧
    out.length = ((Utf16.units s).map unitSize).sum ∧ (∀ b ∈ out, b ≠ 0 ∧ b ≤ 0xEF) ∧
    decode out = .ok s

/-- What comes of reading bytes. -/
structure Reads (raw : Bytes) : Prop where
  /-- No position beyond the end is taken for one with a byte. -/
  within : (scan raw 0 []).map (·.map Utf16.lossy) = some (decode raw)
  accepted : (∃ s, decode raw = .ok s) ↔ ∃ gs : List Group, raw = gs.flatMap Group.bytes
  /-- Each group is a unit of the text. -/
  meaning : ∀ gs : List Group, raw = gs.flatMap Group.bytes → ∀ s,
    decode raw = .ok s ↔ Utf16.ReadsAs (gs.map Group.unit) s
  fault : ∀ e, decode raw = .error e → ∃ k, k < raw.length ∧ e = .malformedText k

theorem mem_bytes {s : String} {b : UInt8} (h : b ∈ bytes s) : b ≠ 0 ∧ b ≤ 0xEF := by
  obtain ⟨u, -, hu⟩ := List.mem_flatMap.mp h
  exact bounds_of_mem_unitBytes hu

theorem writes (s : String) : Writes s where
  refused e := by
    rw [← size_eq_sum]
    by_cases h : size s ≤ 65535
    · rw [encode_of_le h]
      simp [Nat.not_lt.mpr h]
    · have hlt := Nat.lt_of_not_le h
      rw [encode_of_lt hlt]
      constructor
      · rintro ⟨⟩
        exact ⟨hlt, rfl⟩
      · rintro ⟨-, rfl⟩
        rfl
  written h := by
    rw [← size_eq_sum] at h ⊢
    exact ⟨bytes s, encode_of_le h, rfl, fun b hb => mem_bytes hb, decode_bytes s⟩

theorem reads (raw : Bytes) : Reads raw where
  within := by
    rw [scan_eq, List.drop_zero, decode_eq]
    rfl
  accepted := by
    constructor
    · rintro ⟨s, h⟩
      obtain ⟨gs, hgs, -⟩ := decode_eq_ok_iff.mp h
      exact ⟨gs, hgs⟩
    · rintro ⟨gs, hgs⟩
      exact ⟨_, decode_eq_ok_iff.mpr ⟨gs, hgs, rfl⟩⟩
  meaning gs hgs s := by
    have hread := decode_eq_ok_iff.mpr ⟨gs, hgs, rfl⟩
    rw [hread, Utf16.readsAs_iff, Except.ok.injEq]
  fault e h := by
    rw [decode_eq] at h
    cases hunits : decodeUnits raw with
    | error e' =>
      rw [hunits] at h
      cases h
      obtain ⟨k, hk, rfl⟩ := fault_of_unitsLoop hunits
      rw [Nat.zero_add] at hk
      exact ⟨k, hk, rfl⟩
    | ok us =>
      rw [hunits] at h
      cases h

/-- **Modified UTF-8 is inverted exactly.**  Writing refuses a text only for its size, which is the
sum over its units, and what it writes reads back.  Reading stays within the bytes, accepts them if
and only if they are groups in a row, and makes a text of the units of the groups. -/
theorem writes_and_reads : (∀ s : String, Writes s) ∧ ∀ raw : Bytes, Reads raw :=
  ⟨writes, reads⟩

/-- A first half in front of a pair is replaced, the pair is not. -/
example : decode [0xED, 0xA0, 0xBC, 0xED, 0xA0, 0xBC, 0xED, 0xBE, 0xAE] = .ok "\uFFFD🎮" := by
  decide

end Wireform.ModifiedUtf8
